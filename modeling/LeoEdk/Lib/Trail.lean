import Mathlib

/-! Chains in a table of successors. -/

namespace LeoEdk

open List

variable {α : Type}

inductive Trail (next : α → α) : α → List α → α → Prop
  | nil (a : α) : Trail next a [] a
  | cons {a b : α} {xs : List α} : Trail next (next a) xs b → Trail next a (a :: xs) b

namespace Trail

variable {next next' : α → α} {a b c z : α} {xs ys : List α}

theorem nil_iff : Trail next a [] b ↔ a = b := by
  constructor
  · intro trail
    cases trail
    rfl
  · rintro rfl
    exact .nil a

theorem cons_iff {x : α} : Trail next a (x :: xs) b ↔ a = x ∧ Trail next (next x) xs b := by
  constructor
  · intro trail
    cases trail with
    | cons trail => exact ⟨rfl, trail⟩
  · rintro ⟨rfl, trail⟩
    exact .cons trail

theorem append_iff : Trail next a (xs ++ ys) c ↔ ∃ b, Trail next a xs b ∧ Trail next b ys c := by
  induction xs generalizing a with
  | nil => simp [nil_iff]
  | cons x xs ih =>
    simp only [cons_append, cons_iff, ih]
    constructor
    · rintro ⟨rfl, b, front, back⟩
      exact ⟨b, ⟨rfl, front⟩, back⟩
    · rintro ⟨b, ⟨rfl, front⟩, back⟩
      exact ⟨rfl, b, front, back⟩

theorem concat_iff : Trail next a (xs ++ [z]) b ↔ Trail next a xs z ∧ next z = b := by
  simp only [append_iff, cons_iff, nil_iff]
  constructor
  · rintro ⟨_, front, rfl, last⟩
    exact ⟨front, last⟩
  · rintro ⟨front, last⟩
    exact ⟨z, front, rfl, last⟩

/-- Two trails from one value that end outside `inner` and stay inside it have the same members. -/
theorem unique {inner : α → Prop} (first : Trail next a xs b) (second : Trail next a ys c) (insideX : ∀ x ∈ xs, inner x)
    (insideY : ∀ y ∈ ys, inner y) (outB : ¬ inner b) (outC : ¬ inner c) : xs = ys := by
  induction first generalizing ys with
  | nil a =>
    cases second with
    | nil => rfl
    | cons _ => exact absurd (insideY a mem_cons_self) outB
  | @cons a b xs _ ih =>
    cases second with
    | nil => exact absurd (insideX _ mem_cons_self) outC
    | cons second =>
      rw [ih second (fun x mem => insideX x (mem_cons_of_mem _ mem))
        (fun y mem => insideY y (mem_cons_of_mem _ mem)) outB]

variable (trail : Trail next a xs b)
include trail

theorem congr (same : ∀ x ∈ xs, next' x = next x) : Trail next' a xs b := by
  induction trail with
  | nil a => exact .nil a
  | cons _ ih =>
    refine .cons ?_
    rw [same _ mem_cons_self]
    exact ih fun x mem => same x (mem_cons_of_mem _ mem)

theorem next_mem {x : α} (mem : x ∈ xs) : next x ∈ xs ∨ next x = b := by
  induction trail with
  | nil => cases mem
  | cons rest ih =>
    rcases mem_cons.mp mem with rfl | mem
    · cases rest with
      | nil => exact .inr rfl
      | cons _ => exact .inl (mem_cons_of_mem _ mem_cons_self)
    · exact (ih mem).imp_left (mem_cons_of_mem _)

theorem map_next : a :: xs.map next = xs ++ [b] := by
  induction trail with
  | nil => rfl
  | cons _ ih => rw [map_cons, ih, cons_append]

theorem nodup {inner : α → Prop} (inside : ∀ x ∈ xs, inner x) (out : ¬ inner b) : xs.Nodup := by
  induction trail with
  | nil => exact .nil
  | @cons a b xs rest ih =>
    have insideRest : ∀ x ∈ xs, inner x := fun x mem => inside x (mem_cons_of_mem _ mem)
    refine nodup_cons.mpr ⟨fun mem => ?_, ih insideRest out⟩
    -- the members from the second `a` on would be a shorter trail from `a`
    obtain ⟨front, back, rfl⟩ := append_of_mem mem
    obtain ⟨_, _, again⟩ := append_iff.mp rest
    obtain ⟨rfl, tail⟩ := cons_iff.mp again
    have same := unique (.cons rest) (.cons tail) inside
      (fun x memX => insideRest x (mem_append_right _ memX)) out out
    have length := congrArg List.length same
    simp only [length_cons, length_append] at length
    omega

end Trail

end LeoEdk
