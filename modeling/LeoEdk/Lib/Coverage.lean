import LeoEdk.Lib.Tiling

/-! How often the segments of a list cover an address. -/

namespace LeoEdk.Layout

open List

variable {α β : Type} (L : Layout α β)

/-- How many segments with a value in `p` cover the address. -/
def hits (p : β → Bool) (xs : List α) (a : Nat) : Nat := xs.countP fun x => decide (L.Covers x a) && p (L.value x)

def anyValue (_ : β) : Bool := true

/-- No address lies in both segments. -/
def Apart (x y : α) : Prop := L.next x ≤ L.first y ∨ L.next y ≤ L.first x

instance (x y : α) : Decidable (L.Apart x y) := inferInstanceAs (Decidable (_ ∨ _))

variable {L} {p : β → Bool} {a : Nat} {x y z : α} {xs ys : List α}

theorem Apart.not_covers (apart : L.Apart x y) (here : L.Covers x a) : ¬ L.Covers y a := by
  intro there
  rcases apart with le | le
  · exact absurd (Nat.le_trans le there.1) (Nat.not_le.mpr here.2)
  · exact absurd (Nat.le_trans le here.1) (Nat.not_le.mpr there.2)

@[simp] theorem hits_nil : L.hits p [] a = 0 := rfl

theorem hits_singleton : L.hits p [x] a = if L.Covers x a ∧ p (L.value x) then 1 else 0 := by
  simp [hits, countP_cons]

theorem hits_append : L.hits p (xs ++ ys) a = L.hits p xs a + L.hits p ys a := countP_append

theorem hits_cons (x : α) (xs : List α) : L.hits p (x :: xs) a = L.hits p [x] a + L.hits p xs a := by
  rw [← singleton_append, hits_append]

theorem hits_perm (perm : xs.Perm ys) : L.hits p xs a = L.hits p ys a := perm.countP_eq _

theorem hits_pos : 0 < L.hits p xs a ↔ ∃ x ∈ xs, L.Covers x a ∧ p (L.value x) := by
  simp [hits, countP_pos_iff]

theorem hits_eq_zero (none_ : ∀ x ∈ xs, L.Covers x a → ¬ p (L.value x)) : L.hits p xs a = 0 := by
  refine Nat.eq_zero_of_not_pos fun pos => ?_
  obtain ⟨x, mem, covers, value⟩ := hits_pos.mp pos
  exact none_ x mem covers value

theorem hits_le_any : L.hits p xs a ≤ L.hits anyValue xs a :=
  countP_mono_left fun x _ => by simp +contextual [anyValue]

theorem hits_map {γ δ : Type} {L' : Layout γ δ} {f : α → γ} (same : ∀ x ∈ xs, L'.Covers (f x) a ↔ L.Covers x a) :
    L'.hits anyValue (xs.map f) a = L.hits anyValue xs a := by
  rw [hits, hits, countP_map]
  refine countP_congr fun x mem => ?_
  simp [anyValue, same x mem]

/-- Two neighbours whose values count alike are as good as one segment over both. -/
theorem hits_join (adjacent : L.next x = L.first y) (left : L.first x ≤ L.next x) (right : L.first y ≤ L.next y)
    (first : L.first z = L.first x) (next : L.next z = L.next y) (valueX : p (L.value x) = p (L.value z))
    (valueY : p (L.value y) = p (L.value z)) : L.hits p [z] a = L.hits p [x] a + L.hits p [y] a := by
  have whole : L.Covers z a ↔ L.Covers x a ∨ L.Covers y a := by
    unfold Covers
    omega
  have once : ¬ (L.Covers x a ∧ L.Covers y a) := by
    unfold Covers
    omega
  rw [hits_singleton, hits_singleton, hits_singleton, valueX, valueY]
  by_cases inX : L.Covers x a <;> by_cases inY : L.Covers y a <;> simp_all

theorem pairwise_apart_iff (solid : ∀ x ∈ xs, L.first x < L.next x) :
    xs.Pairwise L.Apart ↔ ∀ a, L.hits anyValue xs a ≤ 1 := by
  induction xs with
  | nil => simp
  | cons x xs ih =>
    have solidX := solid x mem_cons_self
    rw [pairwise_cons, ih fun y mem => solid y (mem_cons_of_mem x mem)]
    constructor
    · rintro ⟨apart, rest⟩ a
      rw [hits_cons, hits_singleton]
      split
      next here =>
        have none_ : L.hits anyValue xs a = 0 :=
          hits_eq_zero fun y mem covers _ => (apart y mem).not_covers here.1 covers
        omega
      next => simpa using rest a
    · intro once
      refine ⟨fun y mem => ?_, fun a => ?_⟩
      · have solidY := solid y (mem_cons_of_mem x mem)
        -- The later of the two starts would be covered twice.
        by_contra near
        unfold Apart at near
        have twice := once (max (L.first x) (L.first y))
        have inX : L.Covers x (max (L.first x) (L.first y)) := by
          unfold Covers
          omega
        have inY : 0 < L.hits anyValue xs (max (L.first x) (L.first y)) :=
          hits_pos.mpr ⟨y, mem, by unfold Covers; omega, rfl⟩
        rw [hits_cons, hits_singleton, if_pos ⟨inX, rfl⟩] at twice
        omega
      · have := once a
        rw [hits_cons] at this
        omega

/-- Where an address is covered at most once, there is only one segment over it. -/
theorem eq_of_covers (once : L.hits anyValue xs a ≤ 1) (memX : x ∈ xs) (memY : y ∈ xs) (inX : L.Covers x a)
    (inY : L.Covers y a) : x = y := by
  induction xs with
  | nil => cases memX
  | cons z xs ih =>
    rw [hits_cons, hits_singleton] at once
    have rest : ∀ u ∈ xs, L.Covers u a → 0 < L.hits anyValue xs a :=
      fun u mem covers => hits_pos.mpr ⟨u, mem, covers, rfl⟩
    rcases mem_cons.mp memX with rfl | restX
    · rw [if_pos ⟨inX, rfl⟩] at once
      rcases mem_cons.mp memY with rfl | restY
      · rfl
      · have := rest y restY inY
        omega
    · rcases mem_cons.mp memY with rfl | restY
      · rw [if_pos ⟨inY, rfl⟩] at once
        have := rest x restX inX
        omega
      · exact ih (Nat.le_trans (Nat.le_add_left _ _) once) restX restY

theorem valueAt_eq_none_iff : L.valueAt xs a = none ↔ L.hits anyValue xs a = 0 := by
  rw [valueAt, Option.map_eq_none_iff, List.find?_eq_none, hits, countP_eq_zero]
  simp [anyValue]

/-- Where an address is covered at most once, the count of the segments with a value decides the value. -/
theorem valueAt_eq_some_iff [DecidableEq β] (once : L.hits anyValue xs a ≤ 1) {v : β} :
    L.valueAt xs a = some v ↔ L.hits (fun w => decide (w = v)) xs a = 1 := by
  induction xs with
  | nil => simp [valueAt]
  | cons x xs ih =>
    rw [hits_cons, hits_singleton] at once
    rw [valueAt_cons, hits_cons, hits_singleton]
    by_cases here : L.Covers x a
    · rw [if_pos ⟨here, rfl⟩] at once
      have rest : L.hits (fun w => decide (w = v)) xs a = 0 := by
        have le : L.hits (fun w => decide (w = v)) xs a ≤ L.hits anyValue xs a := hits_le_any
        omega
      rw [if_pos here, rest]
      simp [here]
    · rw [if_neg fun both => here both.1] at once
      rw [if_neg here, if_neg fun both => here both.1, ih (by omega), Nat.zero_add]

theorem valueAt_eq_of_mem (once : L.hits anyValue xs a ≤ 1) (mem : x ∈ xs) (covers : L.Covers x a) :
    L.valueAt xs a = some (L.value x) := by
  rcases found : xs.find? fun x => L.Covers x a with _ | y
  · exact absurd covers (by simpa using List.find?_eq_none.mp found x mem)
  · have inY : L.Covers y a := by simpa using List.find?_some found
    rw [valueAt, found, eq_of_covers once mem (mem_of_find?_eq_some found) covers inY]
    rfl

theorem exists_of_valueAt {v : β} (found : L.valueAt xs a = some v) : ∃ x ∈ xs, L.Covers x a ∧ L.value x = v := by
  obtain ⟨x, here, value⟩ := Option.map_eq_some_iff.mp found
  exact ⟨x, mem_of_find?_eq_some here, by simpa using List.find?_some here, value⟩

theorem valueAt_congr (once : L.hits anyValue ys a ≤ 1) (same : ∀ p, L.hits p xs a = L.hits p ys a) :
    L.valueAt xs a = L.valueAt ys a := by
  classical
  rcases found : L.valueAt ys a with _ | v
  · rw [valueAt_eq_none_iff] at found ⊢
    rw [same, found]
  · rw [valueAt_eq_some_iff once] at found
    rw [valueAt_eq_some_iff (by rw [same]; exact once), same, found]

section Tiles

variable {lo hi : Nat} (tiles : L.Tiles lo hi xs)
include tiles

theorem Tiles.once : L.hits anyValue xs a ≤ 1 := by
  induction xs generalizing lo with
  | nil => exact Nat.zero_le 1
  | cons x xs ih =>
    obtain ⟨_, _, rest⟩ := tiles
    rw [hits_cons, hits_singleton]
    split
    next here =>
      have none_ : L.hits anyValue xs a = 0 := hits_eq_zero fun y mem covers _ =>
        absurd (Nat.le_trans (rest.bounds mem).1 covers.1) (Nat.not_le.mpr here.1.2)
      omega
    next =>
      have := ih rest
      omega

theorem Tiles.nodup_first : (xs.map L.first).Nodup := by
  induction xs generalizing lo with
  | nil => exact nodup_nil
  | cons x xs ih =>
    obtain ⟨_, pos, rest⟩ := tiles
    refine nodup_cons.mpr ⟨fun mem => ?_, ih rest⟩
    obtain ⟨y, memY, same⟩ := mem_map.mp mem
    exact absurd (rest.bounds memY).1 (Nat.not_le.mpr (same ▸ pos))

theorem Tiles.length_le : lo + xs.length ≤ hi := by
  induction xs generalizing lo with
  | nil => exact Nat.le_of_eq tiles
  | cons x xs ih =>
    obtain ⟨start, pos, rest⟩ := tiles
    have := ih rest
    rw [length_cons]
    omega

theorem Tiles.sum_length : lo + (xs.map fun x => L.next x - L.first x).sum = hi := by
  induction xs generalizing lo with
  | nil => exact tiles
  | cons x xs ih =>
    obtain ⟨start, _, rest⟩ := tiles
    have := ih rest
    rw [map_cons, sum_cons]
    omega

end Tiles

/-- The lengths of segments that are pairwise apart add up to at most what they lie in. -/
theorem sum_length_le {hi : Nat} (once : ∀ a, L.hits anyValue xs a ≤ 1) (below : ∀ x ∈ xs, L.next x ≤ hi) :
    (xs.map fun x => L.next x - L.first x).sum ≤ hi := by
  have count : (xs.map fun x => L.next x - L.first x).sum = (Finset.range hi).sum fun a => L.hits anyValue xs a := by
    clear once
    induction xs with
    | nil => simp
    | cons x xs ih =>
      have one : ((Finset.range hi).sum fun a => L.hits anyValue [x] a) = L.next x - L.first x := by
        have inside : (Finset.range hi).filter (fun a => L.Covers x a) = Finset.Ico (L.first x) (L.next x) := by
          ext a
          have := below x mem_cons_self
          rw [Finset.mem_filter, Finset.mem_range, Finset.mem_Ico, Covers]
          omega
        rw [← Nat.card_Ico, ← inside, Finset.card_filter]
        refine Finset.sum_congr rfl fun a _ => ?_
        rw [hits_singleton]
        simp [anyValue]
      rw [map_cons, sum_cons, ih fun y mem => below y (mem_cons_of_mem x mem), ← one, ← Finset.sum_add_distrib]
      exact Finset.sum_congr rfl fun a _ => (hits_cons ..).symm
  rw [count]
  calc ((Finset.range hi).sum fun a => L.hits anyValue xs a) ≤ (Finset.range hi).sum fun _ => 1 :=
        Finset.sum_le_sum fun a _ => once a
    _ = hi := by simp

end LeoEdk.Layout
