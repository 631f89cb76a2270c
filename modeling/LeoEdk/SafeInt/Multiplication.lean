import Mathlib

/-! The products of 64 bits of `BaseSafeIntLib`. -/

namespace LeoEdk.SafeInt

inductive ReturnStatus where
  | success | invalidParameter | bufferTooSmall
  deriving DecidableEq, Repr

def uint64Error : UInt64 := 0xFFFFFFFFFFFFFFFF
def int64Error : Int64 := -1

def maxInt64 : UInt64 := 0x7FFFFFFFFFFFFFFF
def minInt64 : Int64 := -9223372036854775807 - 1
def minInt64Magnitude : UInt64 := (-(minInt64 + 1)).toUInt64 + 1

def safeUint64Add (augend addend : UInt64) : ReturnStatus × UInt64 :=
  if augend + addend ≥ augend then (.success, augend + addend) else (.bufferTooSmall, uint64Error)

def sumParts (productAD productBC productBD : UInt64) : ReturnStatus × UInt64 :=
  if productAD &&& 0xffffffff00000000 = 0 ∧ productBC &&& 0xffffffff00000000 = 0 then
    match safeUint64Add (productBC <<< 32) (productAD <<< 32) with
    | (.success, unsignedResult) => safeUint64Add unsignedResult productBD
    | _ => (.bufferTooSmall, uint64Error)
  else (.bufferTooSmall, uint64Error)

def uint64Product (multiplicand multiplier : UInt64) : ReturnStatus × UInt64 :=
  let dwordA := (multiplicand >>> 32).toUInt32
  let dwordB := multiplicand.toUInt32
  let dwordC := (multiplier >>> 32).toUInt32
  let dwordD := multiplier.toUInt32
  let productBD := dwordB.toUInt64 * dwordD.toUInt64
  if dwordA = 0 ∧ dwordC = 0 then (.success, productBD)
  else if dwordA = 0 ∨ dwordC = 0 then
    sumParts (dwordA.toUInt64 * dwordD.toUInt64) (dwordB.toUInt64 * dwordC.toUInt64) productBD
  else (.bufferTooSmall, uint64Error)

def magnitude (n : Int64) : UInt64 := if n < 0 then (-(n + 1)).toUInt64 + 1 else n.toUInt64

def int64Product (multiplicand multiplier : Int64) : ReturnStatus × Int64 :=
  match uint64Product (magnitude multiplicand) (magnitude multiplier) with
  | (.success, unsignedResult) =>
    if (multiplicand < 0) ≠ (multiplier < 0) then
      if unsignedResult > minInt64Magnitude then (.bufferTooSmall, int64Error)
      else if unsignedResult = minInt64Magnitude then (.success, minInt64)
      else (.success, -unsignedResult.toInt64)
    else if unsignedResult > maxInt64 then (.bufferTooSmall, int64Error)
    else (.success, unsignedResult.toInt64)
  | (status, _) => (status, int64Error)

/-- The result is what `Result` points to, and none if it is `NULL`. -/
def stored {α : Type} (product : ReturnStatus × α) : Option α → ReturnStatus × Option α
  | none => (.invalidParameter, none)
  | some _ => (product.1, some product.2)

def safeUint64Mult (multiplicand multiplier : UInt64) : Option UInt64 → ReturnStatus × Option UInt64 :=
  stored (uint64Product multiplicand multiplier)

def safeInt64Mult (multiplicand multiplier : Int64) : Option Int64 → ReturnStatus × Option Int64 :=
  stored (int64Product multiplicand multiplier)

end LeoEdk.SafeInt
