import LeoEdk.VariablePolicy.Library

/-! The policy that decides about a variable. The table holds the accepted policies one behind another (`Keeps`); the
    search goes through it with the best match so far (`Searched`). -/

set_option maxRecDepth 8000

namespace LeoEdk.VariablePolicy

variable {f : Nat → UInt16} {i : Nat} {us : List UInt16} {p : Bytes} {m : Store} {new : NewPolicy} {name : Name}
  {ps : List Bytes} {s : Library}

open Bytes List
open Variable (Name Guid)

def SpellsFrom (f : Nat → UInt16) : Nat → List UInt16 → Prop
  | i, [] => f i = 0
  | i, u :: us => f i = u ∧ u ≠ 0 ∧ SpellsFrom f (i + 1) us

theorem SpellsFrom.congr {g : Nat → UInt16} (spells : SpellsFrom f i us)
    (same : ∀ k, i ≤ k → k ≤ i + us.length → g k = f k) : SpellsFrom g i us := by
  induction us generalizing i with
  | nil => exact (same i le_rfl (by simp)).trans spells
  | cons u us ih =>
    obtain ⟨head, nonzero, rest⟩ := spells
    refine ⟨(same i le_rfl (by omega)).trans head, nonzero, ih rest fun k low high => same k (by omega) ?_⟩
    rw [length_cons]
    omega

theorem SpellsFrom.eq_map (spells : SpellsFrom f i us) : us = (List.range us.length).map fun k => f (i + k) := by
  induction us generalizing i with
  | nil => rfl
  | cons u us ih =>
    obtain ⟨rfl, -, rest⟩ := spells
    rw [length_cons, range_succ_eq_map, map_cons, map_map]
    refine congrArg₂ List.cons rfl ((ih rest).trans (map_congr_left fun k _ => ?_))
    rw [Function.comp_apply, Nat.succ_eq_add_one, Nat.add_assoc, Nat.add_comm 1 k]

theorem SpellsFrom.unique {vs : List UInt16} (spells : SpellsFrom f i us) (spells' : SpellsFrom f i vs) : us = vs := by
  induction us generalizing i vs with
  | nil =>
    cases vs with
    | nil => rfl
    | cons v vs => exact absurd (spells'.1.symm.trans spells) spells'.2.1
  | cons u us ih =>
    cases vs with
    | nil => exact absurd (spells.1.symm.trans spells') spells.2.1
    | cons v vs => rw [← spells.1, ← spells'.1, ih spells.2.2 spells'.2.2]

def Spells (f : Nat → UInt16) (name : Name) : Prop := SpellsFrom f 0 name.units

/-! ### What a policy says -/

def nameOf (p : Bytes) : Option (List UInt16) :=
  let e := Store.ofBytes p
  if size e = offsetToName e then none
  else some ((List.range ((p.length - offsetToName e) / 2 - 1)).map (getPolicyName e))

def CharMatches (c u : UInt16) : Prop := if c = wildcard then isHexDigit u = true else u = c

/-- The policy is for the namespace, and its name, if it has one, is the name up to hexadecimal digits at `#`. -/
def Matches (p : Bytes) (name : Name) (guid : Guid) : Prop :=
  nameSpace (Store.ofBytes p) = guid.bytes ∧ ∀ us, nameOf p = some us → List.Forall₂ CharMatches us name.units

def wildcards (us : List UInt16) : Nat := us.count wildcard

structure Accepted (p : Bytes) : Prop where
  size_eq : size (Store.ofBytes p) = p.length
  long : entrySize ≤ p.length
  name : size (Store.ofBytes p) ≠ offsetToName (Store.ofBytes p) → ∃ us,
    SpellsFrom (getPolicyName (Store.ofBytes p)) 0 us ∧
      offsetToName (Store.ofBytes p) + 2 * us.length + 2 = p.length ∧ wildcards us ≤ matchPriorityMin

def rank (p : Bytes) : Nat := ((nameOf p).map wildcards).getD matchPriorityMin

theorem nameOf_eq_none : nameOf p = none ↔ size (Store.ofBytes p) = offsetToName (Store.ofBytes p) := by
  unfold nameOf
  dsimp only
  split <;> simp_all

theorem Accepted.name_spells (accepted : Accepted p) (name : nameOf p = some us) :
    SpellsFrom (getPolicyName (Store.ofBytes p)) 0 us ∧
      offsetToName (Store.ofBytes p) + 2 * us.length + 2 = p.length ∧ wildcards us ≤ matchPriorityMin := by
  have named : size (Store.ofBytes p) ≠ offsetToName (Store.ofBytes p) := by
    intro whole
    rw [nameOf_eq_none.mpr whole] at name
    cases name
  obtain ⟨vs, spells, length, few⟩ := accepted.name named
  have same : us = vs := by
    rw [nameOf, if_neg named, Option.some.injEq] at name
    have count : (p.length - offsetToName (Store.ofBytes p)) / 2 - 1 = vs.length := by omega
    rw [← name, count, spells.eq_map, length_map, length_range]
    exact map_congr_left fun k _ => by rw [Nat.zero_add]
  exact same ▸ ⟨spells, length, few⟩

def Agrees (m : Store) (p : Bytes) : Prop := m.read 0 p.length = p

theorem Agrees.read (agrees : Agrees m p) {a n : Nat} (inside : a + n ≤ p.length) :
    m.read a n = (Store.ofBytes p).read a n := by
  rw [Store.read_ofBytes inside, ← congrArg (slice a n) agrees, Store.slice_read _ _ _ _ _ inside, Nat.zero_add]

theorem Agrees.char (agrees : Agrees m p) {a : Nat} (inside : a + 2 ≤ p.length) :
    char m a = char (Store.ofBytes p) a := by
  rw [VariablePolicy.char, VariablePolicy.char, field, field, agrees.read inside]

theorem agrees_read (m : Store) (n : Nat) : Agrees m (m.read 0 n) := by
  rw [Agrees, Store.length_read]

section Header

variable {m : Store} {p : Bytes}

theorem Agrees.size (agrees : Agrees m p) (long : entrySize ≤ p.length) : size m = size (Store.ofBytes p) := by
  unfold entrySize at long
  exact congrArg leNat (agrees.read (by omega))

theorem Agrees.offsetToName (agrees : Agrees m p) (long : entrySize ≤ p.length) :
    offsetToName m = offsetToName (Store.ofBytes p) := by
  unfold entrySize at long
  exact congrArg leNat (agrees.read (by omega))

theorem Agrees.nameSpace (agrees : Agrees m p) (long : entrySize ≤ p.length) :
    nameSpace m = nameSpace (Store.ofBytes p) := by
  unfold entrySize at long
  exact agrees.read (by omega)

end Header

theorem Accepted.spells (accepted : Accepted p) (agrees : Agrees m p) (name : nameOf p = some us) :
    SpellsFrom (getPolicyName m) 0 us := by
  obtain ⟨spells, length, -⟩ := accepted.name_spells name
  refine spells.congr fun k _ high => ?_
  unfold getPolicyName
  rw [agrees.offsetToName accepted.long]
  exact agrees.char (by omega)

theorem scanName_spells {e : Store} {q stop fuel : Nat} (i c r : Nat)
    (found : scanName e stop fuel (q + 2 * i) c = some r) (few : c ≤ matchPriorityMin) :
    ∃ us, SpellsFrom (chars e q) i us ∧ r = q + 2 * (i + us.length) ∧ c + wildcards us ≤ matchPriorityMin := by
  induction fuel generalizing i c with
  | zero => cases found
  | succ fuel ih =>
    rw [scanName] at found
    have here : chars e q i = char e (q + 2 * i) := rfl
    by_cases terminator : char e (q + 2 * i) = 0
    · rw [if_pos terminator] at found
      cases found
      exact ⟨[], terminator, rfl, few⟩
    · rw [if_neg terminator] at found
      dsimp only at found
      split_ifs at found with hash many beyond many beyond
      · obtain ⟨us, spells, length, bound⟩ := ih (i + 1) (c + 1) found (by omega)
        refine ⟨char e (q + 2 * i) :: us, ⟨here, terminator, spells⟩, by rw [length, length_cons]; omega, ?_⟩
        rw [wildcards, hash, count_cons_self]
        unfold wildcards at bound
        omega
      · obtain ⟨us, spells, length, bound⟩ := ih (i + 1) c found few
        refine ⟨char e (q + 2 * i) :: us, ⟨here, terminator, spells⟩, by rw [length, length_cons]; omega, ?_⟩
        rw [wildcards, count_cons_of_ne hash]
        exact bound

def NewPolicy.bytes (new : NewPolicy) : Bytes := new.memory.read 0 (size new.memory)

theorem accepted_of_valid (valid : isValidVariablePolicyStructure new) : Accepted new.bytes := by
  have agrees : Agrees new.memory new.bytes := agrees_read _ _
  have length : new.bytes.length = size new.memory := Store.length_read ..
  unfold isValidVariablePolicyStructure at valid
  dsimp only at valid
  split_ifs at valid with sizes fits some types
  rw [not_or, not_or] at sizes
  obtain ⟨lock, name⟩ := (Bool.and_eq_true_iff).mp valid
  have long : entrySize ≤ new.bytes.length := by omega
  have size_eq := (agrees.size long).symm.trans length.symm
  refine ⟨size_eq, long, fun named => ?_⟩
  rw [← agrees.size long, ← agrees.offsetToName long] at named
  rw [isValidName, if_pos named] at name
  split at name
  · cases name
  · rename_i r found
    have last : r + 2 = size new.memory := of_decide_eq_true name
    obtain ⟨us, spells, place, few⟩ := @scanName_spells _ (offsetToName new.memory) _ _ 0 0 r found (Nat.zero_le _)
    refine ⟨us, spells.congr fun k _ high => ?_, by rw [← agrees.offsetToName long]; omega, by omega⟩
    unfold getPolicyName
    rw [← agrees.offsetToName long]
    exact (agrees.char (by omega)).symm

/-! ### The match of one policy -/

theorem zero_ne_wildcard : (0 : UInt16) ≠ wildcard := by decide

/-- What is spelled from `i` on is the name up to hexadecimal digits at `#`. -/
def MatchesAt (g : Nat → UInt16) (i : Nat) (us : List UInt16) : Prop :=
  ∃ vs, SpellsFrom g i vs ∧ List.Forall₂ CharMatches us vs

section MatchesAt

variable {g : Nat → UInt16}

theorem matchesAt_nil : MatchesAt g i [] ↔ g i = 0 := by
  simp [MatchesAt, forall₂_nil_left_iff, SpellsFrom]

theorem matchesAt_cons {u : UInt16} (nonzero : u ≠ 0) :
    MatchesAt g i (u :: us) ↔ CharMatches u (g i) ∧ MatchesAt g (i + 1) us := by
  refine ⟨?_, ?_⟩
  · rintro ⟨_, spells, matching⟩
    obtain ⟨v, vs, char, rest, rfl⟩ := forall₂_cons_left_iff.mp matching
    obtain ⟨rfl, -, tail⟩ := spells
    exact ⟨char, vs, tail, rest⟩
  · rintro ⟨char, vs, tail, rest⟩
    refine ⟨g i :: vs, ⟨rfl, fun ends => ?_, tail⟩, .cons char rest⟩
    rw [CharMatches, ends] at char
    split at char
    · exact absurd char (by decide)
    · exact nonzero char.symm

theorem matchName_eq_some {fuel priority r : Nat} (policy : SpellsFrom f i us) (enough : us.length < fuel) :
    matchName f g fuel i priority = some r ↔
      MatchesAt g i us ∧ r = max priority (min matchPriorityMin (priority + wildcards us)) := by
  induction us generalizing i fuel priority with
  | nil =>
    obtain _ | fuel := fuel
    · cases enough
    have stop : f i = 0 := policy
    have same : max priority (min matchPriorityMin (priority + wildcards [])) = priority := by
      simp [wildcards]
    rw [matchesAt_nil, matchName, stop, same]
    by_cases ends : g i = 0
    · simp [ends, eq_comm]
    · simp [ends, Ne.symm ends, zero_ne_wildcard]
  | cons u us ih =>
    obtain _ | fuel := fuel
    · cases enough
    obtain ⟨head, nonzero, rest⟩ := policy
    have continues := fun priority => @ih _ _ priority rest (Nat.lt_of_succ_lt_succ enough)
    rw [matchName, if_pos (.inl (head ▸ nonzero)), head, matchesAt_cons nonzero]
    by_cases hash : u = wildcard
    · have count : wildcards (u :: us) = wildcards us + 1 := by rw [wildcards, hash, count_cons_self]; rfl
      rw [if_pos (.inr hash), CharMatches, if_pos hash, count]
      by_cases digit : isHexDigit (g i)
      · rw [if_pos ⟨hash, digit⟩, continues]
        simp only [digit, true_and]
        refine and_congr_right fun _ => iff_of_eq (congrArg _ ?_)
        split_ifs <;> omega
      · simp [digit]
    · have count : wildcards (u :: us) = wildcards us := by rw [wildcards, count_cons_of_ne hash]; rfl
      rw [CharMatches, if_neg hash, count]
      by_cases equal : g i = u
      · simp [hash, equal, continues]
      · simp [hash, equal, Ne.symm equal]

end MatchesAt

/-- The policy is for the namespace, and its name, if it has one, matches what memory spells. -/
def Applies (p : Bytes) (f : Nat → UInt16) (guid : Bytes) : Prop :=
  nameSpace (Store.ofBytes p) = guid ∧ ∀ us, nameOf p = some us → MatchesAt f 0 us

theorem applies_iff {guid : Guid} (spells : Spells f name) : Applies p f guid.bytes ↔ Matches p name guid := by
  refine and_congr_right fun _ => forall₂_congr fun us _ => ⟨?_, fun matching => ⟨_, spells, matching⟩⟩
  rintro ⟨vs, spells', matching⟩
  exact spells'.unique spells ▸ matching

theorem evaluatePolicyMatch_eq_some {guid : Bytes} {r : Nat} (agrees : Agrees m p) (accepted : Accepted p) :
    evaluatePolicyMatch m f guid = some r ↔ Applies p f guid ∧ r = rank p := by
  rw [evaluatePolicyMatch, agrees.nameSpace accepted.long, agrees.size accepted.long, agrees.offsetToName accepted.long,
    Applies]
  by_cases space : nameSpace (Store.ofBytes p) = guid
  · rw [if_neg (not_not.mpr space)]
    rcases name_eq : nameOf p with _ | us
    · rw [if_pos (nameOf_eq_none.mp name_eq)]
      simp [rank, space, name_eq, eq_comm]
    · have named : size (Store.ofBytes p) ≠ offsetToName (Store.ofBytes p) := by
        intro whole
        rw [nameOf_eq_none.mpr whole] at name_eq
        cases name_eq
      obtain ⟨-, length, few⟩ := accepted.name_spells name_eq
      rw [if_neg named, accepted.size_eq, matchName_eq_some (accepted.spells agrees name_eq) (by omega)]
      have value : max matchPriorityExact (min matchPriorityMin (matchPriorityExact + wildcards us)) =
        wildcards us := by
        unfold matchPriorityExact
        omega
      simp [rank, space, name_eq, value]
  · rw [if_pos space]
    simp [space]

section Search

variable {done : List Bytes} {best : Option Nat × Nat}

variable {table : Store} {f : Nat → UInt16} {guid : Bytes}

def Laid (table : Store) : Nat → List Bytes → Prop
  | _, [] => True
  | offset, p :: ps => Agrees (pointer table offset) p ∧ Accepted p ∧ Laid table (offset + p.length) ps

def Searched (f : Nat → UInt16) (guid : Bytes) (done : List Bytes) (best : Option Nat × Nat) : Prop :=
  (best.1 = none ∧ ∀ p ∈ done, ¬Applies p f guid) ∨
    ∃ before p after, done = before ++ p :: after ∧ best.1 = some before.flatten.length ∧ Applies p f guid ∧
      best.2 = rank p ∧ (∀ q ∈ before, Applies q f guid → rank p < rank q) ∧
      ∀ q ∈ after, Applies q f guid → rank p ≤ rank q

theorem Searched.append_other (searched : Searched f guid done best)
    {p : Bytes} (other : ¬Applies p f guid) : Searched f guid (done ++ [p]) best := by
  rcases searched with ⟨none, unmatched⟩ | ⟨before, b, after, rfl, at_b, applies_b, prio, first, least⟩
  · exact .inl ⟨none, forall_mem_append.mpr ⟨unmatched, forall_mem_singleton.mpr other⟩⟩
  · exact .inr ⟨before, b, after ++ [p], by simp, at_b, applies_b, prio, first,
      forall_mem_append.mpr ⟨least, forall_mem_singleton.mpr fun applies_p => absurd applies_p other⟩⟩

theorem Searched.append_match (searched : Searched f guid done best) {p : Bytes} (matching : Applies p f guid) :
    Searched f guid (done ++ [p])
      (if best.1 = none ∨ rank p < best.2 then (some done.flatten.length, rank p) else best) := by
  rcases searched with ⟨none, unmatched⟩ | ⟨before, b, after, rfl, at_b, applies_b, prio, first, least⟩
  · rw [if_pos (Or.inl none)]
    exact .inr ⟨done, p, [], rfl, rfl, matching, rfl, fun q mem applies_q => absurd applies_q (unmatched q mem), nofun⟩
  · by_cases better : rank p < best.2
    · rw [if_pos (Or.inr better)]
      rw [prio] at better
      exact .inr ⟨before ++ b :: after, p, [], rfl, rfl, matching, rfl, forall_mem_append.mpr
        ⟨fun q old applies_q => lt_trans better (first q old applies_q), forall_mem_cons.mpr
          ⟨fun _ => better, fun q later applies_q => lt_of_lt_of_le better (least q later applies_q)⟩⟩, nofun⟩
    · rw [if_neg (by simp [at_b, better])]
      exact .inr ⟨before, b, after ++ [p], by simp, at_b, applies_b, prio, first,
        forall_mem_append.mpr ⟨least, forall_mem_singleton.mpr fun _ => prio ▸ not_lt.mp better⟩⟩

theorem Searched.append_exact (searched : Searched f guid done best)
    (found : best.1 ≠ none) (exact_ : best.2 = 0) (rest : List Bytes) : Searched f guid (done ++ rest) best := by
  rcases searched with ⟨none, -⟩ | ⟨before, b, after, rfl, at_b, applies_b, prio, first, least⟩
  · exact absurd none found
  · refine .inr ⟨before, b, after ++ rest, by simp, at_b, applies_b, prio, first, fun q _ _ => ?_⟩
    rw [← prio, exact_]
    exact Nat.zero_le _

theorem bestFrom_searched {rest : List Bytes}
    (laid : Laid table done.flatten.length rest) (searched : Searched f guid done best) :
    Searched f guid (done ++ rest) (bestFrom table f guid rest.length done.flatten.length best) := by
  induction rest generalizing done best with
  | nil => simpa [bestFrom] using searched
  | cons p rest ih =>
    obtain ⟨agrees, accepted, laid⟩ := laid
    have next : done.flatten.length + size (pointer table done.flatten.length) = (done ++ [p]).flatten.length := by
      rw [agrees.size accepted.long, accepted.size_eq]
      simp
    have place : done.flatten.length + p.length = (done ++ [p]).flatten.length := by simp
    rw [length_cons, bestFrom, next, append_cons]
    rw [place] at laid
    rcases priority : evaluatePolicyMatch (pointer table done.flatten.length) f guid with _ | r
    · have other : ¬Applies p f guid := by
        intro matching
        have found := (evaluatePolicyMatch_eq_some (r := rank p) agrees accepted).mpr ⟨matching, rfl⟩
        rw [priority] at found
        cases found
      exact ih laid (searched.append_other other)
    · obtain ⟨matching, rfl⟩ := (evaluatePolicyMatch_eq_some agrees accepted).mp priority
      have better := searched.append_match matching
      dsimp only
      by_cases exact_ : (if best.1 = none ∨ rank p < best.2 then (some done.flatten.length, rank p) else best).2 = 0
      · rw [if_pos exact_]
        refine better.append_exact ?_ exact_ rest
        split_ifs with first
        · simp
        · exact fun none => first (Or.inl none)
      · rw [if_neg exact_]
        exact ih laid better

end Search

def parseTable (table : Store) : Nat → Nat → List Bytes
  | 0, _ => []
  | count + 1, offset =>
    let e := pointer table offset
    e.read 0 (size e) :: parseTable table count (offset + size e)

theorem Laid.parse {table : Store} {offset : Nat} (laid : Laid table offset ps) :
    parseTable table ps.length offset = ps := by
  induction ps generalizing offset with
  | nil => rfl
  | cons p ps ih =>
    obtain ⟨agrees, accepted, rest⟩ := laid
    have length : size (pointer table offset) = p.length := (agrees.size accepted.long).trans accepted.size_eq
    rw [length_cons, parseTable, length, ih rest, agrees]

theorem laid_of_read {table : Store} {offset : Nat} (accepted : ∀ p ∈ ps, Accepted p)
    (read : table.read offset ps.flatten.length = ps.flatten) : Laid table offset ps := by
  induction ps generalizing offset with
  | nil => trivial
  | cons p ps ih =>
    rw [flatten_cons, length_append, Store.read_append] at read
    obtain ⟨front, back⟩ := append_inj read (Store.length_read ..)
    refine ⟨?_, accepted p (mem_cons_self ..), ih (fun q mem => accepted q (mem_cons_of_mem _ mem)) back⟩
    rw [Agrees, ← front, Store.length_read]
    exact map_congr_left fun k _ => by rw [pointer, Nat.zero_add]

structure Keeps (s : Library) (ps : List Bytes) : Prop where
  usage : s.mCurrentTableUsage = ps.flatten.length
  count : s.mCurrentTableCount = ps.length
  table : s.mPolicyTable.read 0 ps.flatten.length = ps.flatten
  accepted : ∀ p ∈ ps, Accepted p
  room : s.mCurrentTableUsage ≤ s.mCurrentTableSize

theorem keeps_init : Keeps initVariablePolicyLib [] := ⟨rfl, rfl, rfl, nofun, le_rfl⟩

theorem le_roundedSize (n : Nat) : n ≤ Library.roundedSize n := by
  unfold Library.roundedSize Library.policyTableStepSize
  split_ifs <;> omega

theorem Keeps.grow {s' : Library} {newSize : Nat} {pool : Nat → Option Store} (keeps : Keeps s ps)
    (grown : s.grow newSize pool = .ok s') : Keeps s' ps ∧ newSize ≤ s'.mCurrentTableSize := by
  unfold Library.grow at grown
  split_ifs at grown with fits much
  · cases grown
    exact ⟨keeps, fits⟩
  · split at grown
    · cases grown
    · rename_i newTable _
      cases grown
      have larger := le_roundedSize newSize
      have room := keeps.room
      refine ⟨⟨keeps.usage, keeps.count, ?_, keeps.accepted, by dsimp only; omega⟩, larger⟩
      have copied := Store.read_write_self newTable 0 (s.mPolicyTable.read 0 s.mCurrentTableUsage)
      rw [Store.length_read, keeps.usage, keeps.table] at copied
      dsimp only
      rw [keeps.usage, keeps.table]
      exact copied

theorem Keeps.append (keeps : Keeps s ps)
    (accepted : Accepted new.bytes) (room : s.mCurrentTableUsage + size new.memory ≤ s.mCurrentTableSize) :
    Keeps (s.append new.memory) (ps ++ [new.bytes]) := by
  have length : new.bytes.length = size new.memory := Store.length_read ..
  have total : (ps ++ [new.bytes]).flatten.length = ps.flatten.length + new.bytes.length := by simp
  refine ⟨?_, ?_, ?_, ?_, room⟩
  · rw [total, length, ← keeps.usage]
    rfl
  · rw [length_append, ← keeps.count]
    rfl
  · have front : (s.mPolicyTable.write ps.flatten.length new.bytes).read 0 ps.flatten.length = ps.flatten := by
      rw [Store.read_write_of_disjoint (.inl (Nat.zero_add _).le), keeps.table]
    rw [total, Store.read_append, Nat.zero_add, Library.append, keeps.usage]
    change (s.mPolicyTable.write ps.flatten.length new.bytes).read 0 ps.flatten.length ++
      (s.mPolicyTable.write ps.flatten.length new.bytes).read ps.flatten.length new.bytes.length = _
    rw [front, Store.read_write_self]
    simp
  · exact forall_mem_append.mpr ⟨keeps.accepted, forall_mem_singleton.mpr accepted⟩

/-- One call of `RegisterVariablePolicy`, with what `AllocateRuntimePool` gives in it. -/
structure Registration where
  newPolicy : Option NewPolicy
  pool : Nat → Option Store

theorem grow_error {newSize : Nat} {pool : Nat → Option Store} {status : EfiStatus}
    (failed : s.grow newSize pool = .error status) : status ≠ .success ∧ status ≠ .alreadyStarted := by
  unfold Library.grow at failed
  split_ifs at failed
  · cases failed
    decide
  · split at failed
    · cases failed
      decide
    · cases failed

/-- The search for the name of the new policy ends with an exact match. -/
def Library.Knows (s : Library) (new : NewPolicy) : Prop :=
  (s.getBestPolicyMatch (getPolicyName new.memory) (nameSpace new.memory)).1 ≠ none ∧
    (s.getBestPolicyMatch (getPolicyName new.memory) (nameSpace new.memory)).2 = matchPriorityExact

theorem register_cases (s : Library) (c : Registration) :
    (∃ status, s.registerVariablePolicy c.newPolicy c.pool = (status, s) ∧ status ≠ .success ∧
      (status = .alreadyStarted → ∀ new, c.newPolicy = some new → isValidVariablePolicyStructure new ∧ s.Knows new)) ∨
      ∃ new s', c.newPolicy = some new ∧ s.mInterfaceLocked = false ∧ isValidVariablePolicyStructure new ∧
        ¬s.Knows new ∧ s.grow (s.mCurrentTableUsage + size new.memory) c.pool = .ok s' ∧
        s.registerVariablePolicy c.newPolicy c.pool = (.success, s'.append new.memory) := by
  rcases c with ⟨_ | new, pool⟩
  · refine .inl ?_
    unfold Library.registerVariablePolicy
    split_ifs
    · exact ⟨_, rfl, nofun, nofun⟩
    · exact ⟨_, rfl, nofun, nofun⟩
    · exact ⟨_, rfl, nofun, nofun⟩
  · unfold Library.registerVariablePolicy
    dsimp only
    split_ifs with ready locked invalid known much
    · exact .inl ⟨_, rfl, nofun, nofun⟩
    · exact .inl ⟨_, rfl, nofun, nofun⟩
    · exact .inl ⟨_, rfl, nofun, nofun⟩
    · exact .inl ⟨_, rfl, nofun, fun _ _ given => Option.some.inj given ▸ ⟨by simpa using invalid, known⟩⟩
    · exact .inl ⟨_, rfl, nofun, nofun⟩
    · rcases grown : s.grow (s.mCurrentTableUsage + size new.memory) pool with status | s'
      · exact .inl ⟨status, rfl, (grow_error grown).1, fun started => absurd started (grow_error grown).2⟩
      · exact .inr ⟨new, s', rfl, by simpa using locked, by simpa using invalid, known, grown, rfl⟩

def Registration.accept (c : Registration) (s : Library) (ps : List Bytes) : List Bytes :=
  match c.newPolicy with
  | some new => if (s.registerVariablePolicy c.newPolicy c.pool).1 = .success then ps ++ [new.bytes] else ps
  | none => ps

theorem accept_of_success {c : Registration} (given : c.newPolicy = some new)
    (success : (s.registerVariablePolicy c.newPolicy c.pool).1 = .success) (ps : List Bytes) :
    c.accept s ps = ps ++ [new.bytes] := by
  unfold Registration.accept
  rw [success, given]
  exact if_pos rfl

theorem accept_of_failure {c : Registration} (failed : (s.registerVariablePolicy c.newPolicy c.pool).1 ≠ .success)
    (ps : List Bytes) : c.accept s ps = ps := by
  unfold Registration.accept
  split
  · exact if_neg failed
  · rfl

theorem Keeps.register (keeps : Keeps s ps) (c : Registration) :
    Keeps (s.registerVariablePolicy c.newPolicy c.pool).2 (c.accept s ps) := by
  rcases register_cases s c with ⟨status, result, failed, -⟩ | ⟨new, s', given, -, valid, -, grown, result⟩
  · rw [accept_of_failure (by rwa [result]), result]
    exact keeps
  · have added : c.accept s ps = ps ++ [new.bytes] := accept_of_success given (by rw [result]) ps
    obtain ⟨kept, room⟩ := keeps.grow grown
    rw [result, added]
    refine kept.append (accepted_of_valid valid) ?_
    rw [kept.usage, ← keeps.usage]
    exact room

/-- The library after calls that each meet `ok`, with the policies accepted so far. -/
inductive Run (ok : List Bytes → Registration → Prop) : Library → List Bytes → Prop
  | init : Run ok initVariablePolicyLib []
  | register {s : Library} {ps : List Bytes} (run : Run ok s ps) (c : Registration) (meets : ok ps c) :
      Run ok (s.registerVariablePolicy c.newPolicy c.pool).2 (c.accept s ps)

theorem Run.next {ok : List Bytes → Registration → Prop} {c : Registration} (run : Run ok s ps) (meets : ok ps c)
    (given : c.newPolicy = some new) (success : (s.registerVariablePolicy c.newPolicy c.pool).1 = .success) :
    Run ok (s.registerVariablePolicy c.newPolicy c.pool).2 (ps ++ [new.bytes]) :=
  accept_of_success given success ps ▸ run.register c meets

theorem Run.keeps {ok : List Bytes → Registration → Prop} (run : Run ok s ps) : Keeps s ps := by
  induction run with
  | init => exact keeps_init
  | register _ c _ ih => exact ih.register c

/-! ### The most specific policy -/

/-- Among the policies that match, `p` has the fewest wildcards, and it is for the whole namespace only if all are. -/
structure MostSpecific (ps : List Bytes) (name : Name) (guid : Guid) (p : Bytes) : Prop where
  matching : Matches p name guid
  fewest : ∀ us, nameOf p = some us → ∀ q ∈ ps, Matches q name guid → ∀ vs, nameOf q = some vs →
    wildcards us ≤ wildcards vs
  last : nameOf p = none → ∀ q ∈ ps, Matches q name guid → nameOf q = none

/-- The table parses into the policies, and the search finds the most specific one. -/
structure Decides (s : Library) (ps : List Bytes) : Prop where
  parses : parseTable s.mPolicyTable s.mCurrentTableCount 0 = ps
  usage : s.mCurrentTableUsage = ps.flatten.length
  unmatched : ∀ name guid f, Spells f name → (s.getBestPolicyMatch f guid.bytes).1 = none →
    ∀ p ∈ ps, ¬Matches p name guid
  best : ∀ name guid f, Spells f name → ∀ offset, (s.getBestPolicyMatch f guid.bytes).1 = some offset →
    ∃ before p after, ps = before ++ p :: after ∧ offset = before.flatten.length ∧ MostSpecific ps name guid p

/-- A new policy has fewer wildcards than the rank has room for, or comes before any policy for its whole namespace. -/
def Apart (ps : List Bytes) (c : Registration) : Prop :=
  ∀ new us, c.newPolicy = some new → nameOf new.bytes = some us → wildcards us = matchPriorityMin →
    ∀ p ∈ ps, nameSpace (Store.ofBytes p) = nameSpace (Store.ofBytes new.bytes) → nameOf p ≠ none

def Outranks (p q : Bytes) : Prop :=
  nameOf p = none → nameSpace (Store.ofBytes p) = nameSpace (Store.ofBytes q) → ∀ us, nameOf q = some us →
    wildcards us ≠ matchPriorityMin

theorem Run.outranks (run : Run Apart s ps) : ps.Pairwise Outranks := by
  induction run with
  | init => exact .nil
  | @register s ps _ c apart ih =>
    unfold Registration.accept
    split
    · rename_i new given
      split_ifs
      · refine pairwise_append.mpr ⟨ih, pairwise_singleton _ _, fun p mem q new_q whole space us name full => ?_⟩
        cases mem_singleton.mp new_q
        exact apart new us given name full p mem space whole
      · exact ih
    · exact ih

theorem rank_of_none (whole : nameOf p = none) : rank p = matchPriorityMin := by
  rw [rank, whole]
  rfl

theorem rank_of_some (name : nameOf p = some us) : rank p = wildcards us := by
  rw [rank, name]
  rfl

theorem mostSpecific_of_searched {before after : List Bytes} {guid : Guid}
    (accepted : ∀ p ∈ ps, Accepted p) (outranks : ps.Pairwise Outranks) (split : ps = before ++ p :: after)
    (matching : Matches p name guid) (first : ∀ q ∈ before, Matches q name guid → rank p < rank q)
    (least : ∀ q ∈ after, Matches q name guid → rank p ≤ rank q) : MostSpecific ps name guid p := by
  subst split
  have smallest : ∀ q ∈ before ++ p :: after, Matches q name guid → rank p ≤ rank q :=
    forall_mem_append.mpr ⟨fun q old matches_q => (first q old matches_q).le,
      forall_mem_cons.mpr ⟨fun _ => le_rfl, least⟩⟩
  refine ⟨matching, fun us named q mem matches_q vs name_q => ?_, fun whole q mem matches_q => ?_⟩
  · have le := smallest q mem matches_q
    rwa [rank_of_some named, rank_of_some name_q] at le
  · -- A named policy that matches would need the rank of the namespace, so it stands behind it.
    rcases name_q : nameOf q with _ | us
    · rfl
    · have few := ((accepted q mem).name_spells name_q).2.2
      have rank_q := rank_of_some name_q
      have rank_p := rank_of_none whole
      rcases mem_append.mp mem with old | new
      · have := first q old matches_q
        omega
      · rcases mem_cons.mp new with rfl | later
        · rw [whole] at name_q
          cases name_q
        · have le := least q later matches_q
          have apart := (pairwise_cons.mp (pairwise_append.mp outranks).2.1).1 q later
          exact absurd (by omega) (apart whole (matching.1.trans matches_q.1.symm) us name_q)

theorem Keeps.searched (keeps : Keeps s ps) (f : Nat → UInt16) (guid : Bytes) :
    Searched f guid ps (s.getBestPolicyMatch f guid) := by
  have laid := laid_of_read keeps.accepted keeps.table
  have found := @bestFrom_searched [] (none, matchPriorityExact) s.mPolicyTable f guid ps laid (.inl ⟨rfl, nofun⟩)
  rwa [← keeps.count] at found

/-- After every run in which a name with 255 wildcards is registered only before a policy for its whole namespace, the
    table parses into the accepted policies and the most specific one decides. -/
theorem most_specific_policy_decides {s : Library} {ps : List Bytes} (run : Run Apart s ps) : Decides s ps := by
  have keeps := run.keeps
  have laid := laid_of_read keeps.accepted keeps.table
  refine ⟨keeps.count ▸ laid.parse, keeps.usage, fun name guid f spells none => ?_,
    fun name guid f spells offset found => ?_⟩
  · rcases keeps.searched f guid.bytes with ⟨-, unmatched⟩ | ⟨_, _, _, _, at_p, _⟩
    · exact fun p mem => mt (applies_iff spells).mpr (unmatched p mem)
    · rw [none] at at_p
      cases at_p
  · rcases keeps.searched f guid.bytes with ⟨none, -⟩ | ⟨before, p, after, split, at_p, matching, -, first, least⟩
    · rw [found] at none
      cases none
    · rw [found] at at_p
      cases at_p
      simp only [applies_iff spells] at matching first least
      exact ⟨before, p, after, split, rfl,
        mostSpecific_of_searched keeps.accepted run.outranks split matching first least⟩

/-! ### A rank of eight bits -/

def samplePolicy (type : Nat) (name : Option (List UInt16)) : Bytes :=
  let units := ((name.map fun us => us ++ [0]).getD []).flatMap fun (u : UInt16) => leBytes 2 u.toNat
  leBytes 4 entryRevision ++ leBytes 2 (entrySize + units.length) ++ leBytes 2 entrySize ++ leBytes 16 0 ++
    leBytes 4 0 ++ leBytes 4 1 ++ leBytes 4 0 ++ leBytes 4 0 ++ leBytes 4 type ++ units

def sampleRegistration (p : Bytes) : Registration := ⟨some ⟨0x1000, Store.ofBytes p⟩, fun _ => some fun _ => 0⟩

def zeroGuid : Guid := ⟨leBytes 16 0, rfl⟩

/-- The policies for `B#`, for `B0` and for the whole namespace. -/
def bootPolicy : Bytes := samplePolicy typeNoLock (some [0x42, wildcard])

def plainPolicy : Bytes := samplePolicy typeNoLock (some [0x42, 0x30])

def wholeNamespace : Bytes := samplePolicy typeNoLock none

def sampleName (us : List UInt16) (k : Nat) : UInt16 := us.getD k 0

/-- All three match `B0`, and the plain one decides; the one with a wildcard decides about `B1`, the one for the whole
    namespace about `C`. -/
theorem most_specific_policy_decides_boot :
    ∃ s, Run Apart s [wholeNamespace, bootPolicy, plainPolicy] ∧ Decides s [wholeNamespace, bootPolicy, plainPolicy] ∧
      (s.getBestPolicyMatch (sampleName [0x42, 0x30]) zeroGuid.bytes).1 = some 94 ∧
      (s.getBestPolicyMatch (sampleName [0x42, 0x31]) zeroGuid.bytes).1 = some 44 ∧
      (s.getBestPolicyMatch (sampleName [0x43]) zeroGuid.bytes).1 = some 0 := by
  have whole : Apart [] (sampleRegistration wholeNamespace) := fun _ _ _ _ _ => nofun
  have boot : Apart [wholeNamespace] (sampleRegistration bootPolicy) := by
    intro new us given name many
    cases given
    cases (show nameOf bootPolicy = some [0x42, wildcard] by decide).symm.trans name
    exact absurd many (by decide)
  have plain : Apart [wholeNamespace, bootPolicy] (sampleRegistration plainPolicy) := by
    intro new us given name many
    cases given
    cases (show nameOf plainPolicy = some [0x42, 0x30] by decide).symm.trans name
    exact absurd many (by decide)
  have run := ((Run.init.next whole rfl (by decide)).next boot rfl (by decide)).next plain rfl (by decide)
  exact ⟨_, run, most_specific_policy_decides run, by decide, by decide, by decide⟩

def manyWildcards : NewPolicy where
  address := 0x1000
  memory k :=
    if k < entrySize then (samplePolicy typeNoLock (some (List.replicate 255 wildcard))).getD k 0
    else if k < 554 ∧ k % 2 = 0 then 0x23
    else 0

def tiedRegistrations : Registration × Registration :=
  (sampleRegistration wholeNamespace, ⟨some manyWildcards, fun _ => some fun _ => 0⟩)

def tiedLibrary : Library :=
  let s := (initVariablePolicyLib.registerVariablePolicy tiedRegistrations.1.newPolicy tiedRegistrations.1.pool).2
  (s.registerVariablePolicy tiedRegistrations.2.newPolicy tiedRegistrations.2.pool).2

def zerosName : Name where
  units := List.replicate 255 0x30
  nonzero u mem := by
    rw [eq_of_mem_replicate mem]
    decide

def zeros (k : Nat) : UInt16 := if k < 255 then 0x30 else 0

theorem spells_zeros (n i : Nat) (length : i + n = 255) : SpellsFrom zeros i (List.replicate n 0x30) := by
  induction n generalizing i with
  | zero => exact if_neg (by omega)
  | succ n ih => exact ⟨if_pos (by omega), by decide, ih (i + 1) (by omega)⟩

theorem forall₂_replicate {c u : UInt16} (matching : CharMatches c u) (n : Nat) :
    List.Forall₂ CharMatches (List.replicate n c) (List.replicate n u) := by
  induction n with
  | zero => exact .nil
  | succ n ih => exact .cons matching ih

theorem valid_manyWildcards : isValidVariablePolicyStructure manyWildcards := by decide

theorem run_tied : Run (fun _ _ => True) tiedLibrary [wholeNamespace, manyWildcards.bytes] :=
  (Run.init.next (c := tiedRegistrations.1) trivial rfl (by decide)).next (c := tiedRegistrations.2)
    trivial rfl (by decide)

theorem nameOf_manyWildcards : nameOf manyWildcards.bytes = some (List.replicate 255 wildcard) := by
  have accepted := accepted_of_valid valid_manyWildcards
  have agrees : Agrees manyWildcards.memory manyWildcards.bytes := agrees_read _ _
  have length : manyWildcards.bytes.length = 556 := by decide
  have offset : offsetToName (Store.ofBytes manyWildcards.bytes) = 44 := by decide
  have named : nameOf manyWildcards.bytes ≠ none := by
    rw [Ne, nameOf_eq_none, accepted.size_eq, length, offset]
    decide
  obtain ⟨us, name⟩ := Option.ne_none_iff_exists'.mp named
  obtain ⟨spells, count, -⟩ := accepted.name_spells name
  have units : us.length = 255 := by omega
  rw [name, spells.eq_map, units, Option.some.injEq, eq_replicate_iff, length_map, length_range]
  refine ⟨rfl, fun u mem => ?_⟩
  obtain ⟨k, low, rfl⟩ := mem_map.mp mem
  have low := mem_range.mp low
  have even : manyWildcards.memory (44 + 2 * (0 + k) + 0) = 0x23 := by
    change (if _ < entrySize then _ else _) = _
    rw [if_neg (by unfold entrySize; omega), if_pos ⟨by omega, by omega⟩]
  have odd : manyWildcards.memory (44 + 2 * (0 + k) + 1) = 0 := by
    change (if _ < entrySize then _ else _) = _
    rw [if_neg (by unfold entrySize; omega), if_neg (by omega)]
  rw [getPolicyName, offset, chars, ← agrees.char (by omega)]
  change UInt16.ofNat (leNat [manyWildcards.memory _, manyWildcards.memory _]) = _
  rw [even, odd]
  rfl

theorem wholeNamespace_matches : Matches wholeNamespace zerosName zeroGuid := by
  have none : nameOf wholeNamespace = none := by decide
  refine ⟨by decide, fun us name => ?_⟩
  rw [none] at name
  cases name

theorem manyWildcards_matches : Matches manyWildcards.bytes zerosName zeroGuid := by
  refine ⟨by decide, fun us name => ?_⟩
  rw [nameOf_manyWildcards] at name
  cases name
  have digit : CharMatches wildcard 0x30 := by
    rw [CharMatches, if_pos rfl]
    decide
  exact forall₂_replicate digit 255

/-- A policy for the whole namespace decides about the name of 255 zeros although a policy with 255 wildcards
    matches. -/
theorem namespace_shadows_name : Run (fun _ _ => True) tiedLibrary [wholeNamespace, manyWildcards.bytes] ∧
    ¬Decides tiedLibrary [wholeNamespace, manyWildcards.bytes] := by
  refine ⟨run_tied, fun decides => ?_⟩
  have spells : Spells zeros zerosName := spells_zeros 255 0 rfl
  have whole : nameOf wholeNamespace = none := by decide
  have rank_whole : rank wholeNamespace = 255 := rank_of_none whole
  have rank_many : rank manyWildcards.bytes = 255 := by
    rw [rank_of_some nameOf_manyWildcards, wildcards, count_replicate_self]
  have first : (tiedLibrary.getBestPolicyMatch zeros zeroGuid.bytes).1 = some 0 := by
    have searched := run_tied.keeps.searched zeros zeroGuid.bytes
    simp only [Searched, applies_iff spells] at searched
    rcases searched with ⟨-, unmatched⟩ | ⟨before, p, after, split, at_p, -, -, first, -⟩
    · exact absurd wholeNamespace_matches (unmatched _ (mem_cons_self ..))
    · cases before with
      | nil => exact at_p
      | cons q before =>
        obtain ⟨rfl, rest⟩ := cons_eq_cons.mp split
        have less := first _ (mem_cons_self ..) wholeNamespace_matches
        have last : p = manyWildcards.bytes := by
          cases before with
          | nil => exact (cons_eq_cons.mp rest).1.symm
          | cons _ _ => simp at rest
        rw [last, rank_whole, rank_many] at less
        exact absurd less (lt_irrefl _)
  obtain ⟨before, p, after, split, offset, specific⟩ := decides.best _ _ _ spells _ first
  cases before with
  | nil =>
    obtain ⟨rfl, -⟩ := cons_eq_cons.mp split
    have none := specific.last whole _ (mem_cons_of_mem _ (mem_singleton_self _)) manyWildcards_matches
    rw [nameOf_manyWildcards] at none
    cases none
  | cons q before =>
    obtain ⟨rfl, -⟩ := cons_eq_cons.mp split
    have long : wholeNamespace.length = 44 := by decide
    rw [flatten_cons, length_append, long] at offset
    omega

end LeoEdk.VariablePolicy
