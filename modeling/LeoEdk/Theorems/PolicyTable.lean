import LeoEdk.Theorems.PolicyMatch

/-!
`RegisterVariablePolicy` and policies that are in the table already: the search takes the new name for a variable's.
-/

namespace LeoEdk.VariablePolicy

open List

variable {f : Nat → UInt16} {p : Bytes} {ps : List Bytes} {s : Library} {new : NewPolicy}

/-- The policies are for the same namespace and have the same name, or both have none. -/
def Identical (p q : Bytes) : Prop := nameSpace (Store.ofBytes p) = nameSpace (Store.ofBytes q) ∧ nameOf p = nameOf q

/-- The policy has a name without wildcards, and memory spells it. -/
def PlainIn (f : Nat → UInt16) (p : Bytes) : Prop := ∃ us, nameOf p = some us ∧ wildcard ∉ us ∧ SpellsFrom f 0 us

theorem forall₂_charMatches {us vs : List UInt16} (plain : wildcard ∉ us) :
    List.Forall₂ CharMatches us vs ↔ us = vs := by
  rw [← forall₂_eq_eq_eq]
  induction us generalizing vs with
  | nil => simp [forall₂_nil_left_iff]
  | cons u us ih =>
    rw [mem_cons, not_or] at plain
    simp only [forall₂_cons_left_iff, ih plain.2, CharMatches, if_neg (Ne.symm plain.1), eq_comm]

theorem applies_plain_iff {guid : Bytes} :
    Applies p f guid ∧ rank p = 0 ↔ nameSpace (Store.ofBytes p) = guid ∧ PlainIn f p := by
  unfold Applies PlainIn
  rcases name : nameOf p with _ | us
  · simp [rank_of_none name, matchPriorityMin]
  · simp only [rank_of_some name, wildcards, count_eq_zero, Option.some.injEq, forall_eq', exists_eq_left', and_assoc]
    refine and_congr_right fun _ => ⟨?_, fun h => ⟨⟨us, h.2, (forall₂_charMatches h.1).mpr rfl⟩, h.1⟩⟩
    rintro ⟨⟨vs, spells, matching⟩, plain⟩
    exact ⟨plain, (forall₂_charMatches plain).mp matching ▸ spells⟩

theorem Keeps.knows_iff (keeps : Keeps s ps) : s.Knows new ↔
    ∃ p ∈ ps, nameSpace (Store.ofBytes p) = nameSpace new.memory ∧ PlainIn (getPolicyName new.memory) p := by
  simp only [← applies_plain_iff]
  unfold Library.Knows
  rcases keeps.searched (getPolicyName new.memory) (nameSpace new.memory) with
    ⟨none, unmatched⟩ | ⟨before, p, after, rfl, at_p, applies, prio, first, least⟩
  · exact ⟨fun known => absurd none known.1, fun ⟨p, mem, applies, _⟩ => absurd applies (unmatched p mem)⟩
  · rw [prio, at_p]
    refine ⟨fun known => ⟨p, by simp, applies, known.2⟩, fun ⟨q, mem, applies_q, exact_⟩ => ⟨nofun, ?_⟩⟩
    rcases mem_append.mp mem with early | later
    · exact absurd (first q early applies_q) (by omega)
    · rcases mem_cons.mp later with rfl | late
      · exact exact_
      · exact Nat.le_zero.mp (exact_ ▸ least q late applies_q)

/-- A policy with wildcards or without a name is not in the table yet, and behind a policy without a name memory does
    not spell a plain name of its namespace. -/
def Checked (ps : List Bytes) (c : Registration) : Prop := ∀ new, c.newPolicy = some new →
  ((∃ p ∈ ps, Identical p new.bytes) → ∃ us, nameOf new.bytes = some us ∧ wildcard ∉ us) ∧
    (nameOf new.bytes = none → ¬∃ p ∈ ps, nameSpace (Store.ofBytes p) = nameSpace new.memory ∧
      PlainIn (getPolicyName new.memory) p)

/-- The table consists of the policies, none of them twice, and only one of them is refused as registered. -/
structure HoldsOnce (s : Library) (ps : List Bytes) : Prop where
  parses : parseTable s.mPolicyTable s.mCurrentTableCount 0 = ps
  once : ps.Pairwise fun p q => ¬Identical p q
  refused : ∀ c, Checked ps c → ∀ new, c.newPolicy = some new →
    (s.registerVariablePolicy c.newPolicy c.pool).1 = .alreadyStarted → ∃ p ∈ ps, Identical p new.bytes

theorem nameSpace_bytes (valid : isValidVariablePolicyStructure new) :
    nameSpace new.memory = nameSpace (Store.ofBytes new.bytes) :=
  (agrees_read _ _).nameSpace (accepted_of_valid valid).long

theorem Keeps.knows_iff_identical {us : List UInt16} (keeps : Keeps s ps) (valid : isValidVariablePolicyStructure new)
    (name : nameOf new.bytes = some us) : s.Knows new ↔ wildcard ∉ us ∧ ∃ p ∈ ps, Identical p new.bytes := by
  have spells := (accepted_of_valid valid).spells (agrees_read _ _) name
  rw [keeps.knows_iff, nameSpace_bytes valid]
  unfold Identical PlainIn
  rw [name]
  refine ⟨?_, fun ⟨plain, p, mem, space, same⟩ => ⟨p, mem, space, us, same, plain, spells⟩⟩
  rintro ⟨p, mem, space, vs, name_p, plain, spells'⟩
  obtain rfl := spells.unique spells'
  exact ⟨plain, p, mem, space, name_p⟩

theorem Run.once (run : Run Checked s ps) : ps.Pairwise fun p q => ¬Identical p q := by
  induction run with
  | init => exact .nil
  | @register s ps run c checked ih =>
    rcases register_cases s c with ⟨status, result, failed, -⟩ | ⟨new, s', given, -, valid, unknown, -, result⟩
    · rw [accept_of_failure (by rwa [result])]
      exact ih
    · rw [accept_of_success given (by rw [result])]
      refine pairwise_append.mpr ⟨ih, pairwise_singleton _ _, fun p mem q new_q same => ?_⟩
      cases mem_singleton.mp new_q
      obtain ⟨us, name, plain⟩ := (checked new given).1 ⟨p, mem, same⟩
      exact unknown ((run.keeps.knows_iff_identical valid name).mpr ⟨plain, p, mem, same⟩)

/-- After every run of such registrations no policy is in the table twice, and the next one is refused as registered
    only if it is there. -/
theorem policies_registered_once {s : Library} {ps : List Bytes} (run : Run Checked s ps) : HoldsOnce s ps := by
  have keeps := run.keeps
  have laid := laid_of_read keeps.accepted keeps.table
  refine ⟨keeps.count ▸ laid.parse, run.once, fun c checked new given started => ?_⟩
  rcases register_cases s c with ⟨status, result, -, known⟩ | ⟨_, _, -, -, -, -, -, result⟩
  · rw [result] at started
    obtain ⟨valid, known⟩ := known started new given
    rcases name : nameOf new.bytes with _ | us
    · exact absurd (keeps.knows_iff.mp known) ((checked new given).2 name)
    · exact ((keeps.knows_iff_identical valid name).mp known).2
  · rw [result] at started
    cases started

def registerPlain (s : Library) : EfiStatus × Library :=
  s.registerVariablePolicy (sampleRegistration plainPolicy).newPolicy (sampleRegistration plainPolicy).pool

/-- The policies for `B0`, `B#` and the whole namespace are registered, and the one for `B0` is refused as it comes
    again. -/
theorem policies_registered_once_boot : ∃ s, Run Checked s [plainPolicy, bootPolicy, wholeNamespace] ∧
    (registerPlain s).1 = .alreadyStarted ∧
    Run Checked (registerPlain s).2 [plainPolicy, bootPolicy, wholeNamespace] ∧
    HoldsOnce (registerPlain s).2 [plainPolicy, bootPolicy, wholeNamespace] := by
  have plain : Checked [] (sampleRegistration plainPolicy) := fun _ _ => by simp
  have boot : Checked [plainPolicy] (sampleRegistration bootPolicy) := by
    intro new given
    cases given
    refine ⟨fun ⟨p, mem, _, same⟩ => ?_, fun none => absurd none (by decide)⟩
    cases mem_singleton.mp mem
    exact absurd same (by decide)
  have whole : Checked [plainPolicy, bootPolicy] (sampleRegistration wholeNamespace) := by
    intro new given
    cases given
    have named : ∀ p ∈ [plainPolicy, bootPolicy], nameOf p ≠ nameOf wholeNamespace := by decide
    refine ⟨fun ⟨p, mem, _, same⟩ => absurd same (named p mem), fun _ ⟨p, mem, _, us, name, _, spells⟩ => ?_⟩
    -- behind the policy without a name memory spells the empty string, and both names start with `B`
    have starts : ∀ p ∈ [plainPolicy, bootPolicy], (nameOf p).map (·.head?) = some (some 0x42) := by decide
    have head := starts p mem
    rw [name, Option.map_some, Option.some.injEq] at head
    obtain ⟨rest, rfl⟩ := head?_eq_some_iff.mp head
    exact absurd spells.1 (by decide)
  have again : Checked [plainPolicy, bootPolicy, wholeNamespace] (sampleRegistration plainPolicy) := by
    intro new given
    cases given
    have name : nameOf plainPolicy = some [0x42, 0x30] := by decide
    exact ⟨fun _ => ⟨_, name, by decide⟩, fun none => absurd (name.symm.trans none) nofun⟩
  have run := ((Run.init.next plain rfl (by decide)).next boot rfl (by decide)).next whole rfl (by decide)
  have refused := run.register _ again
  rw [accept_of_failure (by decide)] at refused
  exact ⟨_, run, by decide, refused, policies_registered_once refused⟩

/-- The policy for `B#` is registered twice. -/
theorem wildcard_policy_registered_twice :
    ∃ s, Run (fun _ _ => True) s [bootPolicy, bootPolicy] ∧ ¬HoldsOnce s [bootPolicy, bootPolicy] := by
  refine ⟨_, (Run.init.next (c := sampleRegistration bootPolicy) trivial rfl (by decide)).next
    (c := sampleRegistration bootPolicy) trivial rfl (by decide), fun holds => ?_⟩
  exact rel_of_pairwise_cons holds.once (mem_singleton_self _) ⟨rfl, rfl⟩

end LeoEdk.VariablePolicy
