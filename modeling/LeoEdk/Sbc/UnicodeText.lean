import Mathlib

/-!
Text in buffers of `CHAR16`: the decimal conversion of the first-stage loader (`IntToUnicodeStringManual` of `FSBL.c`).
-/

namespace LeoEdk.Sbc

/-- The memory from the start of a buffer on, by index of `CHAR16`. -/
abbrev CharBuf := Nat → UInt16

namespace CharBuf

def put (buf : CharBuf) (i : Nat) (c : UInt16) : CharBuf := Function.update buf i c

@[simp] theorem put_self (buf : CharBuf) (i : Nat) (c : UInt16) : buf.put i c i = c := Function.update_self ..

theorem put_of_ne {buf : CharBuf} {i j : Nat} (ne : j ≠ i) (c : UInt16) : buf.put i c j = buf j :=
  Function.update_of_ne ne ..

end CharBuf

def digitChar (d : Nat) : UInt16 := 0x30 + .ofNat d

/-- The digits from the last to the first, as long as there is room: how many there are, and the buffer. -/
def digitLoop : Nat → Nat → Nat → CharBuf → Nat × CharBuf
  | 0, _, count, buf => (count, buf)
  | room + 1, absValue, count, buf =>
    if absValue > 0 then digitLoop room (absValue / 10) (count + 1) (buf.put count (digitChar (absValue % 10)))
    else (count, buf)

def swapLoop : Nat → CharBuf → Nat → Nat → CharBuf
  | 0, buf, _, _ => buf
  | fuel + 1, buf, start, stop =>
    if start + 1 < stop then
      swapLoop fuel ((buf.put start (buf (stop - 1))).put (stop - 1) (buf start)) (start + 1) (stop - 1)
    else buf

/-- `AbsValue`: the negation of the least value is that value, which as an unsigned number is its absolute value. -/
def absValue (value : Int64) : Nat := (if value < 0 then -value else value).toUInt64.toNat

def intToUnicodeStringManual (value : Int64) (buf : CharBuf) (bufferSize : Nat) : Nat × CharBuf :=
  if bufferSize = 0 then (0, buf)
  else if bufferSize < 2 then (0, buf)
  else
    let room := bufferSize / 2 - 1
    if absValue value = 0 ∧ bufferSize < 4 then (0, buf)
    else
      let (count, buf) :=
        if absValue value = 0 then (1, buf.put 0 (digitChar 0)) else digitLoop room (absValue value) 0 buf
      if value < 0 then
        if count < room then
          let buf := (buf.put count 0x2D).put (count + 1) 0
          (count + 1, swapLoop (count + 1) buf 1 (count + 1))
        else (0, buf.put count 0)
      else (count, swapLoop count (buf.put count 0) 0 count)

end LeoEdk.Sbc
