import LeoEdk.Lib.Bytes
import LeoEdk.SafeInt.Multiplication

/-! Checked products are exact. -/

namespace LeoEdk.SafeInt

/-! ### Unsigned -/

/-- The number, or the error if it is too large. -/
def Told (n : Nat) (r : ReturnStatus × UInt64) : Prop :=
  (∃ v, r = (.success, v) ∧ v.toNat = n) ∨ (r = (.bufferTooSmall, uint64Error) ∧ 2 ^ 64 ≤ n)

variable {a b : UInt64}

theorem told_safeUint64Add : Told (a.toNat + b.toNat) (safeUint64Add a b) := by
  have ltA := a.toNat_lt
  have ltB := b.toNat_lt
  have sum := UInt64.toNat_add a b
  rw [safeUint64Add]
  split
  next le =>
    have le' : a.toNat ≤ (a + b).toNat := le
    exact .inl ⟨a + b, rfl, by omega⟩
  next gt =>
    have gt' : ¬ a.toNat ≤ (a + b).toNat := gt
    exact .inr ⟨rfl, by omega⟩

theorem and_high_eq_zero : a &&& 0xffffffff00000000 = 0 ↔ a.toNat < 2 ^ 32 := by
  have lt := a.toNat_lt
  have high : a.toNat &&& 0xffffffff00000000 = a.toNat / 2 ^ 32 % 2 ^ 32 * 2 ^ 32 := Bytes.and_field a.toNat 32 32
  rw [← UInt64.toNat_inj, UInt64.toNat_and]
  change a.toNat &&& 0xffffffff00000000 = 0 ↔ _
  omega

theorem toNat_shiftLeft (small : a.toNat < 2 ^ 32) : (a <<< 32).toNat = a.toNat * 2 ^ 32 := by
  have shifted : (a <<< 32).toNat = a.toNat <<< 32 % 2 ^ 64 := UInt64.toNat_shiftLeft a 32
  omega

theorem told_sumParts {high high' low : UInt64} (either : high.toNat = 0 ∨ high'.toNat = 0) :
    Told ((high.toNat + high'.toNat) * 2 ^ 32 + low.toNat) (sumParts high high' low) := by
  simp only [sumParts, and_high_eq_zero]
  split
  next small =>
    have shifted := toNat_shiftLeft small.1
    have shifted' := toNat_shiftLeft small.2
    rcases @told_safeUint64Add (high' <<< 32) (high <<< 32) with ⟨sum, added, toNat⟩ | ⟨_, large⟩
    · have same : (high.toNat + high'.toNat) * 2 ^ 32 = sum.toNat := by omega
      rw [added, same]
      exact told_safeUint64Add
    · omega
  next large => exact .inr ⟨rfl, by omega⟩

theorem toNat_mul (x y : UInt32) : (x.toUInt64 * y.toUInt64).toNat = x.toNat * y.toNat := by
  have small : x.toNat * y.toNat < 2 ^ 32 * 2 ^ 32 := Nat.mul_lt_mul'' x.toNat_lt y.toNat_lt
  simpa using small

theorem toNat_dwords : a.toNat = (a >>> 32).toUInt32.toNat * 2 ^ 32 + a.toUInt32.toNat := by
  have := a.toNat_lt
  simp [Nat.shiftRight_eq_div_pow]
  omega

theorem told_uint64Product : Told (a.toNat * b.toNat) (uint64Product a b) := by
  rw [uint64Product, @toNat_dwords a, @toNat_dwords b]
  generalize (a >>> 32).toUInt32 = dwordA
  generalize (b >>> 32).toUInt32 = dwordC
  generalize a.toUInt32 = dwordB
  generalize b.toUInt32 = dwordD
  have product : (dwordA.toNat * 2 ^ 32 + dwordB.toNat) * (dwordC.toNat * 2 ^ 32 + dwordD.toNat) =
      dwordA.toNat * dwordC.toNat * 2 ^ 64 +
        (((dwordA.toUInt64 * dwordD.toUInt64).toNat + (dwordB.toUInt64 * dwordC.toUInt64).toNat) * 2 ^ 32 +
          (dwordB.toUInt64 * dwordD.toUInt64).toNat) := by
    rw [toNat_mul, toNat_mul, toNat_mul]
    ring
  rw [product]
  split
  next none_ =>
    obtain ⟨rfl, rfl⟩ := none_
    exact .inl ⟨_, rfl, by simp⟩
  next =>
    split
    next one =>
      have noAC : dwordA.toNat * dwordC.toNat = 0 := by
        rcases one with rfl | rfl <;> simp
      rw [noAC, Nat.zero_mul, Nat.zero_add]
      refine told_sumParts ?_
      rcases one with rfl | rfl <;> simp
    next neither =>
      obtain ⟨nonzeroA, nonzeroC⟩ := not_or.mp neither
      have pos : 0 < dwordA.toNat * dwordC.toNat :=
        Nat.mul_pos (UInt32.pos_iff_ne_zero.mpr nonzeroA) (UInt32.pos_iff_ne_zero.mpr nonzeroC)
      exact .inr ⟨rfl, by omega⟩

/-! ### Signed -/

theorem toInt_eq (n : Int64) :
    n.toInt = if 2 * n.toUInt64.toNat < 2 ^ 64 then (n.toUInt64.toNat : Int) else n.toUInt64.toNat - (2 ^ 64 : Nat) :=
  n.toBitVec.toInt_eq_toNat_cond

theorem toInt_eq_magnitude (n : Int64) :
    n.toInt = if n < 0 then -((magnitude n).toNat : Int) else (magnitude n).toNat := by
  have lt := n.toUInt64.toNat_lt
  have whole := toInt_eq n
  rw [magnitude]
  split
  next neg =>
    have neg' : n.toInt < 0 := Int64.lt_iff_toInt_lt.mp neg
    have value : (-(n.toUInt64 + 1) + 1).toNat =
        ((2 ^ 64 - (n.toUInt64.toNat + 1) % 2 ^ 64) % 2 ^ 64 + 1) % 2 ^ 64 := rfl
    rw [Int64.toUInt64_neg, Int64.toUInt64_add]
    change _ = -((-(n.toUInt64 + 1) + 1).toNat : Int)
    split at whole <;> omega
  next pos =>
    have pos' : ¬ n.toInt < 0 := fun neg => pos (Int64.lt_iff_toInt_lt.mpr neg)
    split at whole <;> omega

theorem toInt_toInt64 (small : a.toNat < 2 ^ 63) :
    a.toInt64.toInt = a.toNat ∧ (-a.toInt64).toInt = -(a.toNat : Int) := by
  have same : a.toInt64.toUInt64 = a := a.toUInt64_toInt64
  have negated : (-a).toNat = (2 ^ 64 - a.toNat) % 2 ^ 64 := a.toNat_neg
  rw [toInt_eq, toInt_eq, Int64.toUInt64_neg, same, negated]
  split <;> split <;> omega

/-- The call succeeds with the product exactly if a value of the type is the product, and tells so if none is. -/
def Exact {α : Type} (value : α → Int) (error : α) (product : Int) (r : ReturnStatus × Option α) : Prop :=
  ((r.1 = .success ∧ r.2.map value = some product) ↔ ∃ v, value v = product) ∧
    ((¬ ∃ v, value v = product) → r = (.bufferTooSmall, some error))

section Exact

variable {α : Type} {value : α → Int} {error v : α} {product : Int}

theorem exact_success (same : value v = product) : Exact value error product (.success, some v) :=
  ⟨⟨fun _ => ⟨v, same⟩, fun _ => ⟨rfl, congrArg some same⟩⟩, fun none_ => absurd ⟨v, same⟩ none_⟩

theorem exact_failure (none_ : ∀ v, value v ≠ product) : Exact value error product (.bufferTooSmall, some error) :=
  ⟨⟨nofun, fun ⟨v, same⟩ => absurd same (none_ v)⟩, fun _ => rfl⟩

end Exact

theorem exact_int64Product (x y : Int64) :
    Exact Int64.toInt int64Error (x.toInt * y.toInt) (stored (int64Product x y) (some 0)) := by
  have bounds (v : Int64) : -2 ^ 63 ≤ v.toInt ∧ v.toInt < 2 ^ 63 := ⟨v.le_toInt, v.toInt_lt⟩
  have signed : x.toInt * y.toInt = if (x < 0) ≠ (y < 0) then -(((magnitude x).toNat * (magnitude y).toNat : Nat) : Int)
      else ((magnitude x).toNat * (magnitude y).toNat : Nat) := by
    rw [toInt_eq_magnitude x, toInt_eq_magnitude y]
    split <;> split <;> simp [*]
  rw [int64Product, signed]
  rcases @told_uint64Product (magnitude x) (magnitude y) with ⟨v, same, toNat⟩ | ⟨same, large⟩
  · rw [same, ← toNat]
    dsimp only
    split
    next =>
      split
      next large =>
        have large' : 2 ^ 63 < v.toNat := large
        exact exact_failure fun v same => by have := bounds v; omega
      next fits =>
        split
        next least => exact exact_success (by rw [least]; decide)
        next other =>
          have other' : v.toNat ≠ 2 ^ 63 := fun same => other (UInt64.toNat_inj.mp same)
          exact exact_success (toInt_toInt64 (Nat.lt_of_le_of_ne (Nat.not_lt.mp fits) other')).2
    next =>
      split
      next large =>
        have large' : 2 ^ 63 - 1 < v.toNat := large
        exact exact_failure fun v same => by have := bounds v; omega
      next small => exact exact_success (toInt_toInt64 (Nat.lt_succ_of_le (Nat.not_lt.mp small))).1
  · rw [same]
    refine exact_failure fun v same => ?_
    have := bounds v
    split at same <;> omega

theorem safe_products_exact :
    (∀ a b r : UInt64, Exact (fun v : UInt64 => (v.toNat : Int)) uint64Error (a.toNat * b.toNat)
      (safeUint64Mult a b (some r))) ∧
      ∀ a b r : Int64, Exact Int64.toInt int64Error (a.toInt * b.toInt) (safeInt64Mult a b (some r)) := by
  refine ⟨fun a b r => ?_, fun a b r => exact_int64Product a b⟩
  rw [safeUint64Mult]
  rcases @told_uint64Product a b with ⟨v, product, toNat⟩ | ⟨product, large⟩
  · rw [product]
    exact exact_success (by rw [toNat]; rfl)
  · rw [product]
    refine exact_failure fun v same => ?_
    have lt := v.toNat_lt
    have same' : v.toNat = a.toNat * b.toNat := by exact_mod_cast same
    omega

end LeoEdk.SafeInt
