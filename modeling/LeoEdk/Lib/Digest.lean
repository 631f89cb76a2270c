import LeoEdk.Lib.Bytes

/-! Hash functions without collisions. -/

namespace LeoEdk

open List

/-- On the messages of `S`, `H` has digests of `n` bytes and no collision. -/
structure CollisionFree (H : Bytes → Bytes) (n : Nat) (S : Set Bytes) : Prop where
  length : ∀ m ∈ S, (H m).length = n
  injOn : Set.InjOn H S

namespace CollisionFree

variable {H : Bytes → Bytes} {n : Nat} {S : Set Bytes} (free : CollisionFree H n S)

include free

theorem digest_eq_iff {a b : Bytes} (ha : a ∈ S) (hb : b ∈ S) : H a = H b ↔ a = b := free.injOn.eq_iff ha hb

theorem digest_append_eq_iff {a b x y : Bytes} (ha : a ∈ S) (hb : b ∈ S) : H a ++ x = H b ++ y ↔ a = b ∧ x = y := by
  constructor
  · intro h
    obtain ⟨digests, rests⟩ := append_inj h (by rw [free.length a ha, free.length b hb])
    exact ⟨(free.digest_eq_iff ha hb).mp digests, rests⟩
  · rintro ⟨rfl, rfl⟩
    rfl

/-- As many digests one after the other are equal exactly when their messages are. -/
theorem digests_eq_iff {as bs : List Bytes} (length : as.length = bs.length) (ha : ∀ a ∈ as, a ∈ S)
    (hb : ∀ b ∈ bs, b ∈ S) : (as.map H).flatten = (bs.map H).flatten ↔ as = bs := by
  induction as generalizing bs with
  | nil =>
    obtain rfl := length_eq_zero_iff.mp length.symm
    exact iff_of_true rfl rfl
  | cons a as ih =>
    obtain _ | ⟨b, bs⟩ := bs
    · cases length
    · have rest := ih (Nat.succ.inj length) (fun x hx => ha x (mem_cons_of_mem a hx))
        (fun x hx => hb x (mem_cons_of_mem b hx))
      rw [map_cons, map_cons, flatten_cons, flatten_cons,
        free.digest_append_eq_iff (ha a mem_cons_self) (hb b mem_cons_self), rest, List.cons.injEq]

theorem mono {T : Set Bytes} (sub : T ⊆ S) : CollisionFree H n T :=
  ⟨fun m hm => free.length m (sub hm), free.injOn.mono sub⟩

end CollisionFree

/-- A hash function has no collision on a list of messages when different ones have different digests. -/
theorem collisionFree_of_nodup {H : Bytes → Bytes} {n : Nat} {l : List Bytes} (length : ∀ m ∈ l, (H m).length = n)
    (distinct : (l.dedup.map H).Nodup) : CollisionFree H n {m | m ∈ l} :=
  ⟨length, fun _ ha _ hb same =>
    inj_on_of_nodup_map distinct (mem_dedup.mpr ha) (mem_dedup.mpr hb) same⟩

end LeoEdk
