import Mathlib

/-! Sequence numbers modulo `2 ^ 32`. -/

namespace LeoEdk.SeqSpace

def numberAt (base : UInt32) (position : Nat) : UInt32 := base + UInt32.ofNat position

/-- The signed difference of the numbers is negative. -/
def before (a b : UInt32) : Bool := 2 ^ 31 ≤ (a - b).toNat

/-- The signed difference of the numbers is negative or zero. -/
def notAfter (a b : UInt32) : Bool := before a b || a == b

variable {base : UInt32} {a b : Nat}

theorem toNat_numberAt_sub (base : UInt32) (a b : Nat) :
    (numberAt base a - numberAt base b).toNat = (2 ^ 32 - b % 2 ^ 32 + a % 2 ^ 32) % 2 ^ 32 := by
  have difference : numberAt base a - numberAt base b = UInt32.ofNat a - UInt32.ofNat b := by
    rw [numberAt, numberAt, add_sub_add_left_eq_sub]
  rw [difference, UInt32.toNat_sub, UInt32.toNat_ofNat', UInt32.toNat_ofNat']

theorem numberAt_sub_of_le (le : b ≤ a) (near : a < b + 2 ^ 32) :
    (numberAt base a - numberAt base b).toNat = a - b := by
  rw [toNat_numberAt_sub]
  omega

theorem numberAt_inj (base : UInt32) {a b : Nat} (left : a < b + 2 ^ 32) (right : b < a + 2 ^ 32) :
    numberAt base a = numberAt base b ↔ a = b := by
  constructor
  · intro same
    have difference := toNat_numberAt_sub base a b
    rw [same, sub_self] at difference
    change 0 = _ at difference
    omega
  · rintro rfl
    rfl

theorem before_numberAt (left : a < b + 2 ^ 31) (right : b ≤ a + 2 ^ 31) :
    before (numberAt base a) (numberAt base b) = decide (a < b) := by
  rw [before, toNat_numberAt_sub]
  congr 1
  rw [eq_iff_iff]
  omega

theorem notAfter_numberAt (left : a < b + 2 ^ 31) (right : b ≤ a + 2 ^ 31) :
    notAfter (numberAt base a) (numberAt base b) = decide (a ≤ b) := by
  rw [notAfter, before_numberAt left right, Bool.eq_iff_iff]
  simp only [Bool.or_eq_true, decide_eq_true_eq, beq_iff_eq, numberAt_inj base (show a < b + 2 ^ 32 by omega)
    (show b < a + 2 ^ 32 by omega)]
  omega

theorem numberAt_add (base : UInt32) (position n : Nat) :
    numberAt base position + UInt32.ofNat n = numberAt base (position + n) := by
  rw [numberAt, numberAt, add_assoc, UInt32.ofNat_add]

end LeoEdk.SeqSpace
