import Mathlib

/-! Byte strings and byte-addressed storage. -/

namespace LeoEdk

abbrev Bytes := List UInt8

namespace Bytes

/-! ### Little-endian fields -/

def leNat (bs : Bytes) : Nat := Nat.ofDigits 256 (bs.map UInt8.toNat)

/-- The little-endian field of `w` bytes that holds `n`, cut to the field's width. -/
def leBytes : Nat → Nat → Bytes
  | 0, _ => []
  | w + 1, n => UInt8.ofNat n :: leBytes w (n / 256)

@[simp] theorem length_leBytes (w n : Nat) : (leBytes w n).length = w := by
  induction w generalizing n with
  | zero => rfl
  | succ w ih => simp [leBytes, ih]

theorem and_field (n w s : Nat) : n &&& ((2 ^ w - 1) <<< s) = n / 2 ^ s % 2 ^ w * 2 ^ s := by
  have moved (m : Nat) : n &&& (m <<< s) = (n >>> s &&& m) <<< s := Nat.eq_of_testBit_eq fun i => by grind
  rw [moved, Nat.shiftLeft_eq, Nat.shiftRight_eq_div_pow, Nat.and_two_pow_sub_one_eq_mod]

@[simp] theorem leNat_nil : leNat [] = 0 := rfl

@[simp] theorem leNat_cons (b : UInt8) (bs : Bytes) : leNat (b :: bs) = b.toNat + 256 * leNat bs := by
  simp [leNat, Nat.ofDigits_cons]

theorem leNat_lt (bs : Bytes) : leNat bs < 256 ^ bs.length := by
  have h := Nat.ofDigits_lt_base_pow_length (b := 256) (l := bs.map UInt8.toNat) (by decide) (by
    intro x hx
    obtain ⟨b, -, rfl⟩ := List.mem_map.mp hx
    exact b.toNat_lt)
  simpa [leNat] using h

theorem leNat_leBytes (w n : Nat) : leNat (leBytes w n) = n % 256 ^ w := by
  induction w generalizing n with
  | zero => simp [leBytes, Nat.mod_one]
  | succ w ih =>
    have hb : (UInt8.ofNat n).toNat = n % 256 := by simp
    rw [leBytes, leNat_cons, ih, hb, Nat.pow_succ', Nat.mod_mul]

theorem leNat_leBytes_of_lt {w n : Nat} (h : n < 256 ^ w) : leNat (leBytes w n) = n := by
  rw [leNat_leBytes, Nat.mod_eq_of_lt h]

/-! ### Sub-ranges -/

def slice (ofs len : Nat) (bs : Bytes) : Bytes := (bs.drop ofs).take len

def slice? (ofs len : Nat) (bs : Bytes) : Option Bytes :=
  if ofs + len ≤ bs.length then some (slice ofs len bs) else none

theorem length_slice {ofs len : Nat} {bs : Bytes} (h : ofs + len ≤ bs.length) : (slice ofs len bs).length = len := by
  simp only [slice, List.length_take, List.length_drop]
  omega

/-- The byte string after `new` has been copied over it at offset `ofs`. -/
def overwrite (ofs : Nat) (new bs : Bytes) : Bytes := bs.take ofs ++ new ++ bs.drop (ofs + new.length)

theorem length_overwrite {ofs : Nat} {new bs : Bytes} (h : ofs + new.length ≤ bs.length) :
    (overwrite ofs new bs).length = bs.length := by
  simp only [overwrite, List.length_append, List.length_take, List.length_drop]
  omega

/-- The byte string after the bytes from `start` to `stop` have been replaced by `new`, which may be of another length;
    a `stop` before `start` stands for `start`. -/
def setSlice (start stop : Nat) (new bs : Bytes) : Bytes := bs.take start ++ new ++ bs.drop (max start stop)

theorem slice_append_left {ofs len : Nat} {as : Bytes} (bs : Bytes) (h : ofs + len ≤ as.length) :
    slice ofs len (as ++ bs) = slice ofs len as := by
  rw [slice, slice, List.drop_append_of_le_length (by omega), List.take_append_of_le_length]
  rw [List.length_drop]
  omega

theorem slice_append_right {ofs : Nat} (len : Nat) {as : Bytes} (bs : Bytes) (h : as.length ≤ ofs) :
    slice ofs len (as ++ bs) = slice (ofs - as.length) len bs := by
  rw [slice, slice, List.drop_append, List.drop_eq_nil_of_le h, List.nil_append]

theorem slice_overwrite_of_le {o ofs : Nat} (len : Nat) {new bs : Bytes} (fits : o + new.length ≤ bs.length)
    (behind : o + new.length ≤ ofs) : slice ofs len (overwrite o new bs) = slice ofs len bs := by
  have front : (bs.take o ++ new).length = o + new.length := by
    rw [List.length_append, List.length_take]
    omega
  rw [overwrite, slice_append_right len _ (by omega), front, slice, slice, List.drop_drop, Nat.add_sub_cancel' behind]

theorem slice_zero_of_length {len : Nat} {bs : Bytes} (h : bs.length = len) : slice 0 len bs = bs := by
  rw [slice, List.drop_zero, List.take_of_length_le (le_of_eq h)]

theorem slice_take {ofs len k : Nat} (bs : Bytes) (h : ofs + len ≤ k) :
    slice ofs len (bs.take k) = slice ofs len bs := by
  rw [slice, slice, List.drop_take, List.take_take, min_eq_left (by omega)]

theorem setSlice_append_of_le {start stop : Nat} {as : Bytes} (new bs : Bytes) (ho : as.length = start)
    (hs : stop ≤ start) : setSlice start stop new (as ++ bs) = as ++ (new ++ bs) := by
  rw [setSlice, max_eq_left hs, List.take_left' ho, List.drop_left' ho, List.append_assoc]

theorem take_setSlice {start stop k : Nat} {new bs : Bytes} (hs : k ≤ start) (hb : k ≤ bs.length) :
    (setSlice start stop new bs).take k = bs.take k := by
  have front : k ≤ (bs.take start).length := by
    rw [List.length_take]
    omega
  rw [setSlice, List.append_assoc, List.take_append_of_le_length front, List.take_take, min_eq_left hs]

theorem length_le_setSlice {start stop : Nat} {new bs : Bytes} (h : stop ≤ start + new.length) :
    bs.length ≤ (setSlice start stop new bs).length := by
  simp only [setSlice, List.length_append, List.length_take, List.length_drop]
  omega

theorem slice_overwrite_self {o : Nat} {new bs : Bytes} (fits : o ≤ bs.length) :
    slice o new.length (overwrite o new bs) = new := by
  rw [overwrite, List.append_assoc, slice, List.drop_left' (by rw [List.length_take]; omega), List.take_left]

theorem overwrite_append_right (as : Bytes) {o : Nat} {new bs : Bytes} :
    overwrite (as.length + o) new (as ++ bs) = as ++ overwrite o new bs := by
  rw [overwrite, overwrite, Nat.add_assoc, List.take_length_add_append, List.drop_length_add_append, List.append_assoc,
    List.append_assoc, List.append_assoc]

theorem overwrite_zero_append {new as : Bytes} (bs : Bytes) (length : new.length = as.length) :
    overwrite 0 new (as ++ bs) = new ++ bs := by
  rw [overwrite, List.take_zero, List.nil_append, Nat.zero_add, List.drop_left' length.symm]

theorem overwrite_zeros (front : Bytes) {new : Bytes} {n : Nat} (fits : new.length ≤ n) (behind : Bytes) :
    overwrite front.length new (front ++ (List.replicate n 0 ++ behind)) =
      front ++ (new ++ List.replicate (n - new.length) 0 ++ behind) := by
  have split : List.replicate n (0 : UInt8) = List.replicate new.length 0 ++ List.replicate (n - new.length) 0 := by
    rw [List.replicate_append_replicate, Nat.add_sub_cancel' fits]
  have start := @overwrite_append_right front 0 new (List.replicate n 0 ++ behind)
  rw [Nat.add_zero] at start
  rw [start, split, List.append_assoc, overwrite_zero_append _ (List.length_replicate ..).symm, List.append_assoc]

/-- The bytes that stand between two others are found at the length of what precedes them. -/
theorem slice_middle (as ms bs : Bytes) {ofs len : Nat} (ho : ofs = as.length) (hl : len = ms.length) :
    slice ofs len (as ++ (ms ++ bs)) = ms := by
  subst ho hl
  rw [slice_append_right _ _ (le_refl _), Nat.sub_self, slice, List.drop_zero, List.take_left]

/-! ### Parts of a byte string -/

def At (bs : Bytes) (p : Nat) (part : Bytes) : Prop := slice p part.length bs = part

theorem at_middle (as ms bs : Bytes) : At (as ++ (ms ++ bs)) as.length ms := slice_middle as ms bs rfl rfl

theorem at_self (bs : Bytes) : At bs 0 bs := slice_zero_of_length rfl

theorem at_append {bs as ms : Bytes} {p : Nat} : At bs p (as ++ ms) ↔ At bs p as ∧ At bs (p + as.length) ms := by
  have split : slice p (as ++ ms).length bs = slice p as.length bs ++ slice (p + as.length) ms.length bs := by
    rw [slice, slice, slice, List.length_append, List.take_add, List.drop_drop]
  rw [At, split]
  refine ⟨fun same => List.append_inj same ?_, fun both => by rw [both.1, both.2]⟩
  have total := congrArg List.length same
  have first := List.length_take_le as.length (bs.drop p)
  have next := List.length_take_le ms.length (bs.drop (p + as.length))
  rw [List.length_append, List.length_append, slice, slice] at total
  rw [slice]
  omega

theorem At.slice_eq {bs part : Bytes} {p n : Nat} (here : At bs p part) (length : part.length = n) :
    slice p n bs = part :=
  length ▸ here

theorem At.slice_within {bs part : Bytes} {p a n : Nat} (here : At bs p part) (le : a + n ≤ part.length) :
    slice (p + a) n bs = Bytes.slice a n part := by
  conv_rhs => rw [← here]
  rw [Bytes.slice, Bytes.slice, Bytes.slice, List.drop_take, List.take_take, List.drop_drop, min_eq_left (by omega)]

theorem At.inside {bs part : Bytes} {p : Nat} (here : At bs p part) (some_ : 0 < part.length) :
    p + part.length ≤ bs.length := by
  have length := congrArg List.length here
  rw [slice, List.length_take, List.length_drop] at length
  omega

theorem At.leNat_eq {bs : Bytes} {p w n : Nat} (here : At bs p (leBytes w n)) (lt : n < 256 ^ w) :
    leNat (slice p w bs) = n := by
  rw [here.slice_eq (length_leBytes w n), leNat_leBytes_of_lt lt]

end Bytes

open Bytes

abbrev Store := Nat → UInt8

namespace Store

def read (d : Store) (ofs len : Nat) : Bytes := (List.range len).map fun i => d (ofs + i)

def write (d : Store) (ofs : Nat) (bs : Bytes) : Store := fun i =>
  if ofs ≤ i ∧ i < ofs + bs.length then bs.getD (i - ofs) 0 else d i

def ofBytes (bs : Bytes) : Store := fun i => bs.getD i 0

@[simp] theorem length_read (d : Store) (ofs len : Nat) : (d.read ofs len).length = len := by
  simp [read]

theorem getElem_read (d : Store) (ofs len i : Nat) (h : i < (d.read ofs len).length) :
    (d.read ofs len)[i] = d (ofs + i) := by
  simp [read]

theorem slice_read (d : Store) (ofs len a n : Nat) (h : a + n ≤ len) :
    slice a n (d.read ofs len) = d.read (ofs + a) n := by
  apply List.ext_getElem
  · rw [length_slice (by simpa using h), length_read]
  · intro i h1 h2
    simp [slice, getElem_read, Nat.add_assoc]

theorem read_append (d : Store) (ofs m n : Nat) : d.read ofs (m + n) = d.read ofs m ++ d.read (ofs + m) n := by
  rw [read, List.range_add, List.map_append, List.map_map]
  refine congrArg _ (List.map_congr_left fun i _ => ?_)
  rw [Function.comp_apply, Nat.add_assoc]

theorem read_congr {d d' : Store} {ofs len : Nat} (h : ∀ i, ofs ≤ i → i < ofs + len → d i = d' i) :
    d.read ofs len = d'.read ofs len := by
  apply List.ext_getElem
  · simp
  · intro i h1 _
    rw [length_read] at h1
    rw [getElem_read, getElem_read, h (ofs + i) (by omega) (by omega)]

theorem read_write_self (d : Store) (ofs : Nat) (bs : Bytes) : (d.write ofs bs).read ofs bs.length = bs := by
  apply List.ext_getElem
  · simp
  · intro i h1 h2
    rw [getElem_read]
    simp [write, h2]

theorem read_write_within (d : Store) (ofs : Nat) {a n : Nat} {bs : Bytes} (h : a + n ≤ bs.length) :
    (d.write ofs bs).read (ofs + a) n = slice a n bs := by
  rw [← slice_read _ ofs bs.length a n h, read_write_self]

theorem read_write_of_disjoint {d : Store} {ofs a n : Nat} {bs : Bytes} (h : a + n ≤ ofs ∨ ofs + bs.length ≤ a) :
    (d.write ofs bs).read a n = d.read a n := by
  apply read_congr
  intro i h1 h2
  rw [write, if_neg]
  omega

theorem read_ofBytes {bs : Bytes} {a n : Nat} (h : a + n ≤ bs.length) : (ofBytes bs).read a n = slice a n bs := by
  apply List.ext_getElem
  · rw [length_read, length_slice h]
  · intro i h1 h2
    rw [length_read] at h1
    have hi : a + i < bs.length := by omega
    rw [getElem_read]
    simp [ofBytes, slice, hi]

theorem read_apply {d : Store} {ofs len i : Nat} (h : i < len) : (d.read ofs len).getD i 0 = d (ofs + i) := by
  have lt : i < (d.read ofs len).length := by rwa [length_read]
  rw [List.getD, List.getElem?_eq_getElem lt, Option.getD_some, getElem_read]

theorem write_read_apply (d e : Store) (ofs a n i : Nat) :
    d.write ofs (e.read a n) i = if ofs ≤ i ∧ i < ofs + n then e (a + (i - ofs)) else d i := by
  rw [write, length_read]
  split
  next inside =>
    rw [read_apply (by omega)]
  · rfl

theorem overwrite_read (d : Store) (ofs : Nat) {len o : Nat} {new : Bytes} (h : o + new.length ≤ len) :
    overwrite o new (d.read ofs len) = (d.write (ofs + o) new).read ofs len := by
  obtain ⟨rest, rfl⟩ := Nat.exists_eq_add_of_le h
  simp only [read_append, read_write_of_disjoint (.inl (le_refl (ofs + o))), ← Nat.add_assoc, read_write_self,
    read_write_of_disjoint (.inr (le_refl (ofs + o + new.length)))]
  have behind : (d.read ofs o ++ d.read (ofs + o) new.length ++ d.read (ofs + o + new.length) rest).drop
      (o + new.length) = d.read (ofs + o + new.length) rest :=
    List.drop_left' (by rw [List.length_append, length_read, length_read])
  rw [overwrite, behind]
  simp

theorem write_overwrite_read (d : Store) (ofs : Nat) {len o : Nat} {new : Bytes} (h : o + new.length ≤ len) :
    d.write ofs (overwrite o new (d.read ofs len)) = d.write (ofs + o) new := by
  funext i
  rw [overwrite_read d ofs h, write_read_apply]
  split
  case isTrue inside => rw [Nat.add_sub_cancel' inside.1]
  case isFalse outside =>
    rw [write, if_neg]
    omega

end Store

end LeoEdk
