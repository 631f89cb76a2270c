import Mathlib

/-! Assertions about parts of a heap. -/

namespace LeoEdk.Separation

variable {A V : Type}

/-- `h` is `h₁` and `h₂` side by side. -/
structure Split (h h₁ h₂ : A → Option V) : Prop where
  disjoint : ∀ a, h₁ a = none ∨ h₂ a = none
  union : ∀ a, h a = (h₁ a).or (h₂ a)

theorem Split.symm {h h₁ h₂ : A → Option V} (split : Split h h₁ h₂) : Split h h₂ h₁ := by
  refine ⟨fun a => (split.disjoint a).symm, fun a => ?_⟩
  rw [split.union a]
  rcases split.disjoint a with none | none <;> simp [none]

theorem Split.assoc {h h₁₂ h₁ h₂ h₃ : A → Option V} (outer : Split h h₁₂ h₃) (inner : Split h₁₂ h₁ h₂) :
    Split h h₁ (fun a => (h₂ a).or (h₃ a)) ∧ Split (fun a => (h₂ a).or (h₃ a)) h₂ h₃ := by
  refine ⟨⟨fun a => ?_, fun a => ?_⟩, ⟨fun a => ?_, fun a => rfl⟩⟩
  · have first := inner.disjoint a
    have rest := outer.disjoint a
    rw [inner.union a] at rest
    simp only [Option.or_eq_none_iff] at rest ⊢
    tauto
  · rw [outer.union a, inner.union a, Option.or_assoc]
  · have rest := outer.disjoint a
    rw [inner.union a] at rest
    simp only [Option.or_eq_none_iff] at rest
    tauto

/-- What a part of a heap satisfies. -/
def Assertion (A V : Type) : Type := (A → Option V) → Prop

namespace Assertion

@[ext] theorem ext {P Q : Assertion A V} (h : ∀ heap, P heap ↔ Q heap) : P = Q := funext fun heap => propext (h heap)

theorem of_eq {P Q : Assertion A V} {h : A → Option V} (own : P h) (eq : P = Q) : Q h := eq ▸ own

instance : Zero (Assertion A V) := ⟨fun h => ∀ a, h a = none⟩

instance : Add (Assertion A V) := ⟨fun P Q h => ∃ h₁ h₂, Split h h₁ h₂ ∧ P h₁ ∧ Q h₂⟩

protected theorem add_comm (P Q : Assertion A V) : P + Q = Q + P := by
  have swap : ∀ P Q : Assertion A V, ∀ h, (P + Q) h → (Q + P) h := by
    rintro P Q h ⟨h₁, h₂, split, holdsP, holdsQ⟩
    exact ⟨h₂, h₁, split.symm, holdsQ, holdsP⟩
  ext h
  exact ⟨swap P Q h, swap Q P h⟩

protected theorem add_assoc (P Q R : Assertion A V) : P + Q + R = P + (Q + R) := by
  have regroup : ∀ P Q R : Assertion A V, ∀ h, (P + Q + R) h → (P + (Q + R)) h := by
    rintro P Q R h ⟨h₁₂, h₃, outer, ⟨h₁, h₂, inner, holdsP, holdsQ⟩, holdsR⟩
    obtain ⟨first, rest⟩ := outer.assoc inner
    exact ⟨h₁, _, first, holdsP, h₂, h₃, rest, holdsQ, holdsR⟩
  ext h
  refine ⟨regroup P Q R h, fun right => ?_⟩
  rw [Assertion.add_comm, Assertion.add_comm Q] at right
  rw [Assertion.add_comm, Assertion.add_comm P]
  exact regroup R Q P h right

protected theorem zero_add (P : Assertion A V) : 0 + P = P := by
  ext h
  constructor
  · rintro ⟨h₁, h₂, split, empty, holds⟩
    have same : h = h₂ := by
      funext a
      rw [split.union a, empty a, Option.none_or]
    exact same ▸ holds
  · intro holds
    exact ⟨fun _ => none, h, ⟨fun _ => .inl rfl, fun _ => rfl⟩, fun _ => rfl, holds⟩

instance : AddCommMonoid (Assertion A V) where
  add_assoc := Assertion.add_assoc
  zero_add := Assertion.zero_add
  add_zero P := by rw [Assertion.add_comm, Assertion.zero_add]
  add_comm := Assertion.add_comm
  nsmul := nsmulRec

variable [DecidableEq A]

def cell (a : A) (v : V) : Assertion A V := fun h => ∀ b, h b = if b = a then some v else none

def rest : Assertion A V := fun _ => True

variable {F : Assertion A V} {h : A → Option V} {a b : A} {v v' : V}

theorem lookup (own : (cell a v + F) h) : h a = some v := by
  obtain ⟨h₁, h₂, split, here, _⟩ := own
  rw [split.union a, here a, if_pos rfl, Option.some_or]

theorem update (own : (cell a v + F) h) : (cell a v' + F) (Function.update h a (some v')) := by
  obtain ⟨h₁, h₂, split, here, frame⟩ := own
  have elsewhere : h₂ a = none := by
    rcases split.disjoint a with none | none
    · rw [here a, if_pos rfl] at none
      cases none
    · exact none
  refine ⟨fun b => if b = a then some v' else none, h₂, ⟨fun b => ?_, fun b => ?_⟩, fun b => rfl, frame⟩
  · by_cases eq : b = a
    · exact .inr (eq ▸ elsewhere)
    · exact .inl (if_neg eq)
  · by_cases eq : b = a
    · subst eq
      simp
    · rw [Function.update_of_ne eq, split.union b, here b, if_neg eq, if_neg eq]

theorem alloc (own : F h) (free : h a = none) : (cell a v + F) (Function.update h a (some v)) := by
  refine ⟨fun b => if b = a then some v else none, h, ⟨fun b => ?_, fun b => ?_⟩, fun b => rfl, own⟩
  · by_cases eq : b = a
    · exact .inr (eq ▸ free)
    · exact .inl (if_neg eq)
  · by_cases eq : b = a
    · subst eq
      simp
    · rw [Function.update_of_ne eq, if_neg eq, Option.none_or]

theorem release (own : (cell a v + F) h) : F (Function.update h a none) := by
  obtain ⟨h₁, h₂, split, here, frame⟩ := own
  have same : Function.update h a none = h₂ := by
    funext b
    by_cases eq : b = a
    · subst eq
      rcases split.disjoint b with none | none
      · rw [here b, if_pos rfl] at none
        cases none
      · rw [Function.update_self, none]
    · rw [Function.update_of_ne eq, split.union b, here b, if_neg eq, Option.none_or]
  exact same ▸ frame

theorem ne_of_cells {G : Assertion A V} (own : (cell a v + F + (cell b v' + G)) h) : a ≠ b := by
  rintro rfl
  obtain ⟨h₁, h₂, split, here, there⟩ := own
  rcases split.disjoint a with none | none
  · rw [lookup here] at none
    cases none
  · rw [lookup there] at none
    cases none

omit [DecidableEq A] in
/-! ### Sums of a list of parts -/

omit [DecidableEq A] in
theorem sum_eq_of_get {L : List (Assertion A V)} {k : Nat} {P : Assertion A V} (get : L[k]? = some P)
    (P' : Assertion A V) : ∃ F, L.sum = P + F ∧ (L.set k P').sum = P' + F := by
  induction L generalizing k with
  | nil => cases get
  | cons Q L ih =>
    cases k with
    | zero =>
      cases get
      exact ⟨L.sum, by simp, by simp⟩
    | succ k =>
      obtain ⟨F, before, after⟩ := ih (k := k) (by simpa using get)
      refine ⟨Q + F, ?_, ?_⟩
      · rw [List.sum_cons, before, add_left_comm]
      · rw [List.set_cons_succ, List.sum_cons, after, add_left_comm]

end Assertion

end LeoEdk.Separation
