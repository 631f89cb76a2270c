import LeoEdk.Sbc.UnicodeText

/-! The decimal conversion writes the digits from the last to the first and then turns them round. -/

namespace LeoEdk.Sbc

open List

theorem absValue_eq (value : Int64) : absValue value = value.toInt.natAbs := by
  have toInt : value.toInt =
      if 2 * value.toBitVec.toNat < 2 ^ 64 then (value.toBitVec.toNat : Int)
      else value.toBitVec.toNat - (2 ^ 64 : Nat) := BitVec.toInt_eq_toNat_cond value.toBitVec
  have bound : value.toBitVec.toNat < 2 ^ 64 := value.toBitVec.isLt
  have neg : (-value).toUInt64.toNat = (2 ^ 64 - value.toBitVec.toNat) % 2 ^ 64 := BitVec.toNat_neg value.toBitVec
  have pos : value.toUInt64.toNat = value.toBitVec.toNat := rfl
  have sign : value < 0 ↔ value.toInt < 0 := Int64.lt_iff_toInt_lt
  rw [absValue]
  split
  next h =>
    rw [sign, toInt] at h
    rw [neg, toInt]
    split at h <;> split <;> omega
  next h =>
    rw [sign, toInt] at h
    rw [pos, toInt]
    split at h <;> split <;> omega

/-! ### The two loops -/

theorem digitLoop_count (room n count : Nat) (buf : CharBuf) :
    (digitLoop room n count buf).1 = count + min room (Nat.digits 10 n).length := by
  induction room generalizing n count buf with
  | zero => simp [digitLoop]
  | succ room ih =>
    rw [digitLoop]
    split
    next pos =>
      rw [ih, Nat.digits_def' (by norm_num) pos, length_cons]
      omega
    next zero =>
      have eq : n = 0 := by omega
      simp [eq]

theorem digitLoop_apply (room n count : Nat) (buf : CharBuf) (i : Nat) : (digitLoop room n count buf).2 i =
      if count ≤ i ∧ i < count + min room (Nat.digits 10 n).length then digitChar ((Nat.digits 10 n).getD (i - count) 0)
      else buf i := by
  induction room generalizing n count buf with
  | zero => simp [digitLoop]
  | succ room ih =>
    rw [digitLoop]
    split
    next pos =>
      rw [ih, Nat.digits_def' (by norm_num) pos, length_cons]
      rcases Nat.lt_trichotomy i count with before | rfl | behind
      · rw [if_neg (by omega), if_neg (by omega), CharBuf.put_of_ne (by omega)]
      · rw [if_neg (by omega), if_pos (by omega), CharBuf.put_self, Nat.sub_self, getD_cons_zero]
      · have shift : i - count = i - (count + 1) + 1 := by omega
        rw [shift, getD_cons_succ, CharBuf.put_of_ne (by omega)]
        exact if_congr (by omega) rfl rfl
    next zero =>
      have eq : n = 0 := by omega
      rw [if_neg]
      simp only [eq, Nat.digits_zero, length_nil]
      omega

theorem swapLoop_apply {fuel start stop : Nat} (enough : stop ≤ start + fuel) (buf : CharBuf) (i : Nat) :
    swapLoop fuel buf start stop i = if start ≤ i ∧ i < stop then buf (start + stop - 1 - i) else buf i := by
  induction fuel generalizing start stop buf with
  | zero =>
    rw [swapLoop, if_neg]
    omega
  | succ fuel ih =>
    rw [swapLoop]
    split
    next more =>
      have ends : ∀ j, ((buf.put start (buf (stop - 1))).put (stop - 1) (buf start)) j =
          if j = stop - 1 then buf start else if j = start then buf (stop - 1) else buf j := fun j => by
        simp only [CharBuf.put, Function.update_apply]
      rw [ih (by omega)]
      simp only [ends]
      by_cases inside : start + 1 ≤ i ∧ i < stop - 1
      · have notLast : start + 1 + (stop - 1) - 1 - i ≠ stop - 1 := by omega
        have notFirst : start + 1 + (stop - 1) - 1 - i ≠ start := by omega
        have outer : start ≤ i ∧ i < stop := by omega
        rw [if_pos inside, if_neg notLast, if_neg notFirst, if_pos outer]
        congr 1
        omega
      · rw [if_neg inside]
        by_cases last : i = stop - 1
        · have outer : start ≤ i ∧ i < stop := by omega
          rw [if_pos last, if_pos outer]
          congr 1
          omega
        · rw [if_neg last]
          by_cases first : i = start
          · have outer : start ≤ i ∧ i < stop := by omega
            rw [if_pos first, if_pos outer]
            congr 1
            omega
          · have out : ¬ (start ≤ i ∧ i < stop) := by omega
            rw [if_neg first, if_neg out]
    next done =>
      by_cases one : start ≤ i ∧ i < stop
      · rw [if_pos one]
        congr 1
        omega
      · rw [if_neg one]

/-! ### The canonical text -/

def digitsText (n : Nat) : List UInt16 :=
  if n = 0 then [digitChar 0] else ((Nat.digits 10 n).map digitChar).reverse

def decimalText (v : Int) : List UInt16 := if v < 0 then 0x2D :: digitsText v.natAbs else digitsText v.natAbs

def Fits (value : Int64) (bufferSize : Nat) : Prop := (decimalText value.toInt).length + 1 ≤ bufferSize / 2

instance (value : Int64) (bufferSize : Nat) : Decidable (Fits value bufferSize) := inferInstanceAs (Decidable (_ ≤ _))

/-- What the conversion should do: refuse a text that does not fit, or leave the text and its terminator. -/
def Converted (value : Int64) (buf : CharBuf) (bufferSize : Nat) : Prop :=
  let result := intToUnicodeStringManual value buf bufferSize
  let text := decimalText value.toInt
  (result.1 = 0 ∧ ¬ Fits value bufferSize) ∨
    (Fits value bufferSize ∧ result.1 = text.length ∧ (∀ i (_ : i < text.length), result.2 i = text[i]) ∧
      result.2 text.length = 0)

theorem length_digitsText_pos (n : Nat) : 0 < (digitsText n).length := by
  rw [digitsText]
  split
  · exact Nat.zero_lt_one
  next some =>
    rw [length_reverse, length_map]
    exact length_pos_of_ne_nil (Nat.digits_ne_nil_iff_ne_zero.mpr some)

theorem decimalText_of_nonneg {v : Int} (nonneg : 0 ≤ v) : decimalText v = digitsText v.natAbs :=
  if_neg (Int.not_lt.mpr nonneg)

theorem decimalText_of_neg {v : Int} (neg : v < 0) : decimalText v = 0x2D :: digitsText v.natAbs := if_pos neg

theorem swapped_digits {n : Nat} (some : n ≠ 0) (room : Nat) (buf : CharBuf) (enough : (digitsText n).length ≤ room) :
    let (count, out) := digitLoop room n 0 buf
    count = (digitsText n).length ∧
      (∀ i (_ : i < (digitsText n).length), swapLoop count (out.put count 0) 0 count i = (digitsText n)[i]) ∧
      swapLoop count (out.put count 0) 0 count (digitsText n).length = 0 := by
  have text : digitsText n = ((Nat.digits 10 n).map digitChar).reverse := if_neg some
  have length : (digitsText n).length = (Nat.digits 10 n).length := by
    rw [text, length_reverse, length_map]
  have counted : (digitLoop room n 0 buf).1 = (digitsText n).length := by
    rw [digitLoop_count, length]
    omega
  refine ⟨counted, fun i lt => ?_, ?_⟩
  · rw [counted, swapLoop_apply (by omega), if_pos (by omega), CharBuf.put_of_ne (by omega), digitLoop_apply,
      if_pos (by omega)]
    have index : (Nat.digits 10 n).length - 1 - i < (Nat.digits 10 n).length := by omega
    have place : 0 + (digitsText n).length - 1 - i - 0 = (Nat.digits 10 n).length - 1 - i := by omega
    rw [place, getD_eq_getElem?_getD, List.getElem?_eq_getElem index, Option.getD_some]
    simp only [text, getElem_reverse, getElem_map, length_map]
  · rw [counted, swapLoop_apply (by omega), if_neg (by omega), CharBuf.put_self]

section Cases

variable {value : Int64} {bufferSize : Nat} (buf : CharBuf)

theorem lt_zero_iff : value < 0 ↔ value.toInt < 0 := Int64.lt_iff_toInt_lt

theorem fits_of_nonneg (nonneg : ¬ value < 0) :
    Fits value bufferSize ↔ (digitsText (absValue value)).length + 1 ≤ bufferSize / 2 := by
  rw [lt_zero_iff] at nonneg
  rw [Fits, decimalText_of_nonneg (Int.not_lt.mp nonneg), absValue_eq]

theorem fits_of_neg (neg : value < 0) :
    Fits value bufferSize ↔ (digitsText (absValue value)).length + 2 ≤ bufferSize / 2 := by
  rw [Fits, decimalText_of_neg (lt_zero_iff.mp neg), absValue_eq, length_cons]

theorem converted_of_refused (refused : (intToUnicodeStringManual value buf bufferSize).1 = 0)
    (large : ¬ Fits value bufferSize) : Converted value buf bufferSize := .inl ⟨refused, large⟩

theorem absValue_ne_zero_of_neg (neg : value < 0) : absValue value ≠ 0 := by
  have := lt_zero_iff.mp neg
  rw [absValue_eq]
  omega

theorem length_digits {n : Nat} (some : n ≠ 0) : (Nat.digits 10 n).length = (digitsText n).length := by
  rw [digitsText, if_neg some, length_reverse, length_map]

theorem converted_of_neg (neg : value < 0) : Converted value buf bufferSize ↔ ¬ Fits value bufferSize := by
  have some := absValue_ne_zero_of_neg neg
  have length := length_digits some
  have positive := length_digitsText_pos (absValue value)
  have fits := @fits_of_neg value bufferSize neg
  constructor
  · rintro (⟨_, large⟩ | ⟨room, _, chars, _⟩)
    · exact large
    · intro _
      rw [fits] at room
      have counted : (digitLoop (bufferSize / 2 - 1) (absValue value) 0 buf).1 =
        (digitsText (absValue value)).length := by
        rw [digitLoop_count, length]
        omega
      have text := decimalText_of_neg (lt_zero_iff.mp neg)
      have first := chars 0 (by rw [text]; exact Nat.succ_pos _)
      simp only [text, getElem_cons_zero] at first
      rw [intToUnicodeStringManual, if_neg (by omega), if_neg (by omega)] at first
      simp only [some, false_and, if_false, if_pos neg] at first
      rw [if_pos (by omega)] at first
      dsimp only at first
      rw [swapLoop_apply (by omega), if_neg (by omega), CharBuf.put_of_ne (by omega), CharBuf.put_of_ne (by omega),
        digitLoop_apply, if_pos (by omega), Nat.digits_def' (by norm_num) (Nat.pos_of_ne_zero some), Nat.sub_zero,
        getD_cons_zero] at first
      -- the first character is a digit
      have digit : absValue value % 10 < 10 := Nat.mod_lt _ (by norm_num)
      interval_cases absValue value % 10 <;> exact absurd first (by decide)
  · intro large
    refine converted_of_refused buf ?_ large
    rw [fits] at large
    rw [intToUnicodeStringManual]
    split
    · rfl
    · split
      · rfl
      · simp only [some, false_and, if_false]
        have counted := digitLoop_count (bufferSize / 2 - 1) (absValue value) 0 buf
        rw [length] at counted
        rw [if_neg (by omega)]

theorem converted_of_tiny (tiny : bufferSize / 2 ≤ 1) : Converted value buf bufferSize := by
  refine converted_of_refused buf ?_ fun fits => ?_
  · have none_ : bufferSize / 2 - 1 = 0 := by omega
    rw [intToUnicodeStringManual]
    split
    · rfl
    · split
      · rfl
      · by_cases zero : absValue value = 0
        · simp only [if_pos (And.intro zero (show bufferSize < 4 by omega))]
        · simp only [zero, false_and, if_false, none_, digitLoop]
          split <;> rfl
  · have positive := length_digitsText_pos (absValue value)
    by_cases neg : value < 0
    · rw [fits_of_neg neg] at fits
      omega
    · rw [fits_of_nonneg neg] at fits
      omega

section Nonneg

variable (nonneg : ¬ value < 0) (large : 1 < bufferSize / 2)
include nonneg

theorem text_of_nonneg : decimalText value.toInt = digitsText (absValue value) := by
  rw [decimalText_of_nonneg (Int.not_lt.mp (lt_zero_iff.not.mp nonneg)), absValue_eq]

include large

theorem converted_of_zero (zero : absValue value = 0) : Converted value buf bufferSize ∧ Fits value bufferSize := by
  have text : decimalText value.toInt = [digitChar 0] := (text_of_nonneg nonneg).trans (if_pos zero)
  have room : Fits value bufferSize := by
    rw [Fits, text]
    exact large
  have small : ¬ bufferSize < 4 := by omega
  refine ⟨.inr ⟨room, ?_⟩, room⟩
  rw [intToUnicodeStringManual, if_neg (by omega), if_neg (by omega)]
  simp only [zero, true_and, small, if_false, if_true, nonneg, text]
  refine ⟨rfl, fun i lt => ?_, ?_⟩
  · have first : i = 0 := by
      rw [length_singleton] at lt
      omega
    subst first
    rw [swapLoop_apply (by omega), if_pos (by omega), CharBuf.put_of_ne (by omega), CharBuf.put_self]
    rfl
  · rw [swapLoop_apply (by omega), if_neg (by simp), length_singleton, CharBuf.put_self]

theorem converted_of_digits (some : absValue value ≠ 0) : Converted value buf bufferSize ↔ Fits value bufferSize := by
  have result : intToUnicodeStringManual value buf bufferSize =
      ((digitLoop (bufferSize / 2 - 1) (absValue value) 0 buf).1,
        swapLoop (digitLoop (bufferSize / 2 - 1) (absValue value) 0 buf).1
          ((digitLoop (bufferSize / 2 - 1) (absValue value) 0 buf).2.put
            (digitLoop (bufferSize / 2 - 1) (absValue value) 0 buf).1 0) 0
          (digitLoop (bufferSize / 2 - 1) (absValue value) 0 buf).1) := by
    rw [intToUnicodeStringManual, if_neg (by omega), if_neg (by omega)]
    simp only [some, false_and, if_false, nonneg]
  have length := length_digits some
  have positive := length_digitsText_pos (absValue value)
  constructor
  · rintro (⟨refused, _⟩ | ⟨room, _⟩)
    · -- at least one digit was written
      rw [result, digitLoop_count] at refused
      omega
    · exact room
  · intro room
    refine .inr ⟨room, ?_⟩
    rw [fits_of_nonneg nonneg] at room
    obtain ⟨count, chars, ends⟩ := swapped_digits some (bufferSize / 2 - 1) buf (by omega)
    rw [result]
    simp only [text_of_nonneg nonneg]
    exact ⟨count, chars, ends⟩

end Nonneg

theorem converted_of_nonneg (nonneg : ¬ value < 0) :
    Converted value buf bufferSize ↔ Fits value bufferSize ∨ bufferSize / 2 ≤ 1 := by
  by_cases tiny : bufferSize / 2 ≤ 1
  · exact iff_of_true (converted_of_tiny buf tiny) (.inr tiny)
  · rw [or_iff_left tiny]
    by_cases zero : absValue value = 0
    · obtain ⟨converted, fits⟩ := converted_of_zero buf nonneg (Nat.not_le.mp tiny) zero
      exact iff_of_true converted fits
    · exact converted_of_digits buf nonneg (Nat.not_le.mp tiny) zero

end Cases

/-- The conversion is right exactly for the values that are not negative and have room, or whose buffer has no place for
    a character at all, and for the negative values that have no room. -/
theorem converted_iff (value : Int64) (buf : CharBuf) (bufferSize : Nat) : Converted value buf bufferSize ↔
      (¬ value < 0 ∧ (Fits value bufferSize ∨ bufferSize / 2 ≤ 1)) ∨ (value < 0 ∧ ¬ Fits value bufferSize) := by
  by_cases neg : value < 0
  · simp only [converted_of_neg buf neg, neg, not_true_eq_false, false_and, true_and, false_or]
  · simp only [converted_of_nonneg buf neg, neg, not_false_eq_true, true_and, false_and, or_false]

/-- The text of -12 in a buffer of 16 bytes comes out as `2-1`. -/
theorem minus_twelve_turned : Fits (-12) 16 ∧ ¬ Converted (-12) (fun _ => 0) 16 ∧
    ((List.range 3).map (intToUnicodeStringManual (-12) (fun _ => 0) 16).2) = [0x32, 0x2D, 0x31] := by
  refine ⟨by decide, ?_, by decide⟩
  rw [converted_of_neg _ (by decide)]
  decide

end LeoEdk.Sbc
