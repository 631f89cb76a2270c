import Mathlib

/-! Lists of segments that tile an interval of addresses without gaps, and the value such a list has at each address. -/

namespace LeoEdk

open List

/-- How a segment is read: it covers the addresses from `first` up to and without `next`, all with one value. -/
structure Layout (α β : Type) where
  first : α → Nat
  next : α → Nat
  value : α → β

namespace Layout

variable {α β : Type} (L : Layout α β)

def Covers (x : α) (a : Nat) : Prop := L.first x ≤ a ∧ a < L.next x

instance (x : α) (a : Nat) : Decidable (L.Covers x a) := inferInstanceAs (Decidable (_ ∧ _))

/-- Sorted, not empty and without gaps from `lo` up to `hi`. -/
def Tiles (lo hi : Nat) : List α → Prop
  | [] => lo = hi
  | x :: xs => L.first x = lo ∧ L.first x < L.next x ∧ Tiles (L.next x) hi xs

instance decidableTiles : (lo hi : Nat) → (xs : List α) → Decidable (L.Tiles lo hi xs)
  | _, _, [] => inferInstanceAs (Decidable (_ = _))
  | _, hi, x :: xs =>
    have := decidableTiles (L.next x) hi xs
    inferInstanceAs (Decidable (_ ∧ _ ∧ _))

def valueAt (xs : List α) (a : Nat) : Option β := (xs.find? fun x => L.Covers x a).map L.value

variable {L} {lo mid hi a : Nat} {x : α} {xs ys zs : List α}

theorem tiles_append : L.Tiles lo hi (xs ++ ys) ↔ ∃ mid, L.Tiles lo mid xs ∧ L.Tiles mid hi ys := by
  induction xs generalizing lo with
  | nil =>
    constructor
    · intro tiles
      exact ⟨lo, rfl, tiles⟩
    · rintro ⟨mid, rfl, tiles⟩
      exact tiles
  | cons x xs ih =>
    rw [cons_append, Tiles, ih]
    constructor
    · rintro ⟨start, pos, mid, left, right⟩
      exact ⟨mid, ⟨start, pos, left⟩, right⟩
    · rintro ⟨mid, ⟨start, pos, left⟩, right⟩
      exact ⟨start, pos, mid, left, right⟩

theorem Tiles.append (left : L.Tiles lo mid xs) (right : L.Tiles mid hi ys) : L.Tiles lo hi (xs ++ ys) :=
  tiles_append.mpr ⟨mid, left, right⟩

theorem tiles_singleton : L.Tiles lo hi [x] ↔ L.first x = lo ∧ L.first x < L.next x ∧ L.next x = hi := Iff.rfl

theorem valueAt_append : L.valueAt (xs ++ ys) a = (L.valueAt xs a).or (L.valueAt ys a) := by
  rw [valueAt, valueAt, valueAt, List.find?_append, Option.map_or]

theorem valueAt_cons : L.valueAt (x :: xs) a = if L.Covers x a then some (L.value x) else L.valueAt xs a := by
  rw [valueAt, valueAt, List.find?_cons]
  by_cases covers : L.Covers x a <;> simp [covers]

section Tiles

variable (tiles : L.Tiles lo hi xs)
include tiles

theorem Tiles.le : lo ≤ hi := by
  induction xs generalizing lo with
  | nil => exact Nat.le_of_eq tiles
  | cons x xs ih =>
    obtain ⟨start, pos, rest⟩ := tiles
    have := ih rest
    omega

theorem Tiles.bounds (mem : x ∈ xs) : lo ≤ L.first x ∧ L.first x < L.next x ∧ L.next x ≤ hi := by
  induction xs generalizing lo with
  | nil => cases mem
  | cons y xs ih =>
    obtain ⟨start, pos, rest⟩ := tiles
    rcases mem_cons.mp mem with rfl | mem
    · exact ⟨Nat.le_of_eq start.symm, pos, rest.le⟩
    · obtain ⟨le, pos', le'⟩ := ih rest mem
      exact ⟨by omega, pos', le'⟩

theorem Tiles.exists_covers (le : lo ≤ a) (lt : a < hi) : ∃ x ∈ xs, L.Covers x a := by
  induction xs generalizing lo with
  | nil =>
    have : lo = hi := tiles
    omega
  | cons x xs ih =>
    obtain ⟨start, _, rest⟩ := tiles
    by_cases here : a < L.next x
    · exact ⟨x, mem_cons_self, by omega, here⟩
    · obtain ⟨y, mem, covers⟩ := ih rest (by omega)
      exact ⟨y, mem_cons_of_mem x mem, covers⟩

theorem Tiles.valueAt_eq (le : lo ≤ a) (lt : a < hi) {v : β}
    (values : ∀ x ∈ xs, L.Covers x a → L.value x = v) : L.valueAt xs a = some v := by
  obtain ⟨x, mem, covers⟩ := tiles.exists_covers le lt
  rw [valueAt]
  cases found : xs.find? fun x => L.Covers x a with
  | none =>
    rw [List.find?_eq_none] at found
    exact absurd (by simpa using covers) (found x mem)
  | some y =>
    have here : L.Covers y a := by simpa using List.find?_some found
    rw [Option.map_some, values y (mem_of_find?_eq_some found) here]

theorem Tiles.valueAt_eq_none (out : a < lo ∨ hi ≤ a) : L.valueAt xs a = none := by
  have found : (xs.find? fun x => L.Covers x a) = none := by
    rw [List.find?_eq_none]
    intro x mem covers
    obtain ⟨le, _, le'⟩ := tiles.bounds mem
    have here : L.Covers x a := by simpa using covers
    have := here.1
    have := here.2
    omega
  rw [valueAt, found, Option.map_none]

end Tiles

/-- `ys` tiles what `xs` tiles, with the same value at every address of `keep`. -/
structure Redraws (L : Layout α β) (keep : Nat → Prop) (lo hi : Nat) (xs ys : List α) : Prop where
  tiles : L.Tiles lo hi ys
  same : ∀ a, keep a → L.valueAt ys a = L.valueAt xs a

namespace Redraws

variable {keep : Nat → Prop} {xs' ys' : List α}

theorem refl (tiles : L.Tiles lo hi xs) : L.Redraws keep lo hi xs xs := ⟨tiles, fun _ _ => rfl⟩

theorem trans (first : L.Redraws keep lo hi xs ys) (next : L.Redraws keep lo hi ys zs) : L.Redraws keep lo hi xs zs :=
  ⟨next.tiles, fun a kept => (next.same a kept).trans (first.same a kept)⟩

theorem append (left : L.Redraws keep lo mid xs xs') (right : L.Redraws keep mid hi ys ys') :
    L.Redraws keep lo hi (xs ++ ys) (xs' ++ ys') := by
  refine ⟨left.tiles.append right.tiles, fun a kept => ?_⟩
  rw [valueAt_append, valueAt_append, left.same a kept, right.same a kept]

theorem cut {x : α} (whole : L.Tiles lo hi [x]) (tiles : L.Tiles lo hi ys)
    (values : ∀ y ∈ ys, ∀ a, L.Covers y a → keep a → L.value y = L.value x) : L.Redraws keep lo hi [x] ys := by
  refine ⟨tiles, fun a kept => ?_⟩
  by_cases inside : lo ≤ a ∧ a < hi
  · rw [tiles.valueAt_eq inside.1 inside.2 fun y mem covers => values y mem a covers kept,
      whole.valueAt_eq inside.1 inside.2 fun y mem _ => by rw [mem_singleton.mp mem]]
  · have out : a < lo ∨ hi ≤ a := by omega
    rw [tiles.valueAt_eq_none out, whole.valueAt_eq_none out]

theorem join {y z : α} (tiles : L.Tiles lo hi [x, y]) (first : L.first z = L.first x) (next : L.next z = L.next y)
    (left : L.value z = L.value x) (right : L.value z = L.value y) : L.Redraws keep lo hi [x, y] [z] := by
  obtain ⟨start, pos, adjacent, pos', rfl⟩ := tiles
  have both : ∀ a, L.Covers z a ↔ L.Covers x a ∨ L.Covers y a := by
    intro a
    unfold Covers
    omega
  refine ⟨tiles_singleton.mpr ⟨first.trans start, by omega, next⟩, fun a _ => ?_⟩
  rw [valueAt_cons, valueAt_cons, valueAt_cons, ← left, ← right]
  by_cases inX : L.Covers x a
  · rw [if_pos ((both a).mpr (.inl inX)), if_pos inX]
  · rw [if_neg inX]
    exact if_congr ((both a).trans (or_iff_right inX)) rfl rfl

end Redraws

/-! ### Segments with gaps -/

variable (L) in
/-- Sorted, not empty and apart from `lo` up to `hi`. -/
def Spread (lo hi : Nat) : List α → Prop
  | [] => lo ≤ hi
  | x :: xs => lo ≤ L.first x ∧ L.first x < L.next x ∧ Spread (L.next x) hi xs

variable (L) in
/-- How many addresses the segments cover, each counted for itself. -/
def extent (xs : List α) : Nat := (xs.map fun x => L.next x - L.first x).sum

@[simp] theorem extent_cons : L.extent (x :: xs) = L.next x - L.first x + L.extent xs := rfl

theorem extent_append : L.extent (xs ++ ys) = L.extent xs + L.extent ys := by
  rw [extent, map_append, sum_append]
  rfl

namespace Spread

theorem weaken {lo' : Nat} (spread : L.Spread lo hi xs) (le : lo' ≤ lo) : L.Spread lo' hi xs := by
  cases xs with
  | nil => exact le.trans spread
  | cons x xs => exact ⟨le.trans spread.1, spread.2⟩

theorem append (left : L.Spread lo mid xs) (right : L.Spread mid hi ys) : L.Spread lo hi (xs ++ ys) := by
  induction xs generalizing lo with
  | nil => exact right.weaken left
  | cons x xs ih => exact ⟨left.1, left.2.1, ih left.2.2⟩

theorem split (spread : L.Spread lo hi (xs ++ ys)) : ∃ mid, L.Spread lo mid xs ∧ L.Spread mid hi ys := by
  induction xs generalizing lo with
  | nil => exact ⟨lo, le_refl lo, spread⟩
  | cons x xs ih =>
    obtain ⟨start, pos, rest⟩ := spread
    obtain ⟨mid, left, right⟩ := ih rest
    exact ⟨mid, ⟨start, pos, left⟩, right⟩

variable (spread : L.Spread lo hi xs)
include spread

theorem le : lo ≤ hi := by
  induction xs generalizing lo with
  | nil => exact spread
  | cons x xs ih =>
    obtain ⟨start, pos, rest⟩ := spread
    have := ih rest
    omega

theorem bounds (mem : x ∈ xs) : lo ≤ L.first x ∧ L.first x < L.next x ∧ L.next x ≤ hi := by
  induction xs generalizing lo with
  | nil => cases mem
  | cons y xs ih =>
    obtain ⟨start, pos, rest⟩ := spread
    rcases mem_cons.mp mem with rfl | mem
    · exact ⟨start, pos, rest.le⟩
    · obtain ⟨le, pos', le'⟩ := ih rest mem
      exact ⟨by omega, pos', le'⟩

theorem shrink (bound : ∀ x ∈ xs, L.next x ≤ mid) (le : lo ≤ mid) : L.Spread lo mid xs := by
  induction xs generalizing lo with
  | nil => exact le
  | cons x xs ih =>
    exact ⟨spread.1, spread.2.1, ih spread.2.2 (fun y mem => bound y (mem_cons_of_mem x mem))
      (bound x mem_cons_self)⟩

theorem pairwise : xs.Pairwise fun x y => L.next x ≤ L.first y := by
  induction xs generalizing lo with
  | nil => exact .nil
  | cons x xs ih => exact .cons (fun y mem => (spread.2.2.bounds mem).1) (ih spread.2.2)

theorem extent_le : lo + L.extent xs ≤ hi := by
  induction xs generalizing lo with
  | nil => exact spread
  | cons x xs ih =>
    obtain ⟨start, pos, rest⟩ := spread
    have := ih rest
    rw [extent_cons]
    omega

/-- Segments that are apart leave no gap if and only if they are long enough together. -/
theorem tiles_iff_extent : L.Tiles lo hi xs ↔ hi ≤ lo + L.extent xs := by
  induction xs generalizing lo with
  | nil =>
    have le : lo ≤ hi := spread
    change lo = hi ↔ hi ≤ lo + 0
    omega
  | cons x xs ih =>
    obtain ⟨start, pos, rest⟩ := spread
    have bound := rest.extent_le
    rw [Tiles, ih rest, extent_cons]
    omega

/-- Segments that are apart leave no gap if and only if every address is covered. -/
theorem tiles_iff_covers : L.Tiles lo hi xs ↔ ∀ a, lo ≤ a → a < hi → ∃ x ∈ xs, L.Covers x a := by
  constructor
  · intro tiles a le lt
    exact tiles.exists_covers le lt
  · intro covered
    induction xs generalizing lo with
    | nil =>
      by_contra gap
      have le : lo ≤ hi := spread
      obtain ⟨x, mem, _⟩ := covered lo (le_refl lo) (lt_of_le_of_ne le gap)
      cases mem
    | cons x xs ih =>
      obtain ⟨start, pos, rest⟩ := spread
      have tight : L.first x = lo := by
        obtain ⟨y, mem, covers⟩ := covered lo (le_refl lo) (by have := rest.le; omega)
        rcases mem_cons.mp mem with rfl | mem
        · exact le_antisymm covers.1 start
        · have := (rest.bounds mem).1
          have := covers.1
          omega
      refine ⟨tight, pos, ih rest fun a le lt => ?_⟩
      obtain ⟨y, mem, covers⟩ := covered a (by omega) lt
      rcases mem_cons.mp mem with rfl | mem
      · exact absurd covers.2 (Nat.not_lt_of_le le)
      · exact ⟨y, mem, covers⟩

end Spread

end Layout

end LeoEdk
