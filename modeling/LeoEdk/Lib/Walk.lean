import LeoEdk.Lib.Bytes
import LeoEdk.Lib.Program

/-! Searches through the records of a buffer. -/

namespace LeoEdk

open List

def usub (a b : Nat) : Nat := if b ≤ a then a - b else a + 2 ^ 64 - b

theorem usub_of_le {a b : Nat} (h : b ≤ a) : usub a b = a - b := if_pos h

theorem findSome?_flatMap {α β γ : Type} (g : β → Option γ) (f : α → List β) (l : List α) :
    (l.flatMap f).findSome? g = l.findSome? fun a => (f a).findSome? g := by
  rw [← List.head?_filterMap, filterMap_flatMap, List.head?_flatMap]
  simp only [List.head?_filterMap]

namespace Prog

open Bytes

variable {E W H α ρ : Type}

/-- Visits records that give their own size. -/
def walk (next : Bytes → Nat → Prog E W H (Option Nat)) (visit : Nat → Bytes → Prog E W H (Option α)) (stuck : H) :
    Nat → Bytes → Nat → Prog E W H (Option α)
  | 0, _, _ => halt stuck
  | fuel + 1, rest, left => do
    match ← next rest left with
    | none => return none
    | some size =>
      match ← visit size rest with
      | some a => return some a
      | none => if size = 0 then halt stuck else walk next visit stuck fuel (rest.drop size) (usub left size)

def visitEach (visit : Bytes → Prog E W H (Option α)) (stride : Nat) : Nat → Bytes → Prog E W H (Option α)
  | 0, _ => return none
  | n + 1, rest => do
    match ← visit rest with
    | some a => return some a
    | none => visitEach visit stride n (rest.drop stride)

section Rules

variable {e : E} {I : W → Prop}

theorem yields_visitEach {visit : Bytes → Prog E W H (Option α)} {stride : Nat} {found : Bytes → Option α}
    (entries : List Bytes) (tail : Bytes) (len : ∀ s ∈ entries, s.length = stride)
    (visits : ∀ s ∈ entries, ∀ tail, Yields I e (visit (s ++ tail)) (found s)) :
    Yields I e (visitEach visit stride entries.length (entries.flatten ++ tail)) (entries.findSome? found) := by
  induction entries with
  | nil => exact .pure none
  | cons s entries ih =>
    rw [length_cons, visitEach, flatten_cons, append_assoc, List.findSome?_cons]
    refine (visits s mem_cons_self _).bind ?_
    cases found s with
    | some a => exact .pure (some a)
    | none =>
      rw [drop_left' (len s mem_cons_self)]
      exact ih (fun t mem => len t (mem_cons_of_mem s mem)) fun t mem => visits t (mem_cons_of_mem s mem)

theorem yields_walk {next : Bytes → Nat → Prog E W H (Option Nat)} {visit : Nat → Bytes → Prog E W H (Option α)}
    {stuck : H} {encode : ρ → Bytes} {found : ρ → Option α} (records : List ρ) (ends : Yields I e (next [] 0) none)
    (reads : ∀ r ∈ records, ∀ tail left, (encode r).length ≤ left →
      Yields I e (next (encode r ++ tail) left) (some (encode r).length))
    (visits : ∀ r ∈ records, ∀ tail, Yields I e (visit (encode r).length (encode r ++ tail)) (found r))
    (solid : ∀ r ∈ records, encode r ≠ []) {fuel : Nat} (enough : records.length < fuel) :
    Yields I e (walk next visit stuck fuel (records.flatMap encode) (records.flatMap encode).length)
      (records.findSome? found) := by
  induction records generalizing fuel with
  | nil =>
    cases fuel with
    | zero => cases enough
    | succ fuel => exact ends.bind (.pure none)
  | cons r records ih =>
    cases fuel with
    | zero => cases enough
    | succ fuel =>
      have size : (encode r).length ≠ 0 := fun zero => solid r mem_cons_self (length_eq_zero_iff.mp zero)
      rw [walk, flatMap_cons, length_append, List.findSome?_cons]
      refine (reads r mem_cons_self _ _ (Nat.le_add_right ..)).bind ((visits r mem_cons_self _).bind ?_)
      cases found r with
      | some a => exact .pure (some a)
      | none =>
        simp only [if_neg size]
        rw [drop_left, usub_of_le (Nat.le_add_right ..), Nat.add_sub_cancel_left]
        exact ih (fun s mem => reads s (mem_cons_of_mem r mem)) (fun s mem => visits s (mem_cons_of_mem r mem))
          (fun s mem => solid s (mem_cons_of_mem r mem)) (Nat.lt_of_succ_lt_succ enough)

theorem within_visitEach {R : W → W → Prop} [Std.Refl R] [IsTrans W R] {visit : Bytes → Prog E W H (Option α)}
    (visits : ∀ bs, Within R e (visit bs)) (stride n : Nat) (rest : Bytes) :
    Within R e (visitEach visit stride n rest) := by
  induction n generalizing rest with
  | zero => exact .pure none
  | succ n ih =>
    refine (visits rest).bind fun found => ?_
    cases found with
    | some a => exact .pure (some a)
    | none => exact ih _

theorem within_walk {R : W → W → Prop} [Std.Refl R] [IsTrans W R] {next : Bytes → Nat → Prog E W H (Option Nat)}
    {visit : Nat → Bytes → Prog E W H (Option α)} (nexts : ∀ bs left, Within R e (next bs left))
    (visits : ∀ size bs, Within R e (visit size bs)) (stuck : H) (fuel : Nat) (rest : Bytes) (left : Nat) :
    Within R e (walk next visit stuck fuel rest left) := by
  induction fuel generalizing rest left with
  | zero => exact .halt stuck
  | succ fuel ih =>
    refine (nexts rest left).bind fun size? => ?_
    cases size? with
    | none => exact .pure none
    | some size =>
      refine (visits size rest).bind fun found => ?_
      cases found with
      | some a => exact .pure (some a)
      | none => exact .ite (.halt stuck) (ih _ _)

end Rules

end Prog

end LeoEdk
