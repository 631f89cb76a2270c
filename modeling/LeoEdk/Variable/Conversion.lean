import LeoEdk.Variable.Store

/-!
`ConvertNormalVarStorageToAuthVarStorage` (`Variable.c`): a store whose variables have the normal header is copied to
one with authenticated headers.

The loops go from `GetStartPointer` to `GetEndPointer` and do not look at `StartId`. The buffer lies at an aligned
address.
-/

namespace LeoEdk.Variable

open Bytes

/-- What keeps the conversion from returning: an access outside of the store or of the buffer, or a loop that does not
    end. -/
inductive ConversionStop where
  | outside | hang
  deriving DecidableEq, Repr

def authenticatedVariableGuid : Guid :=
  guidOf 0xaaf32c78 0x947b 0x439a [0xa1, 0x80, 0x2e, 0x14, 0x4e, 0xc3, 0x77, 0x92] rfl

/-- `NameSize` and `DataSize` of a normal header, whatever its state. -/
def normalNameSize (store : Bytes) (p : Nat) : Nat := field store (p + sizesOffset false) 4
def normalDataSize (store : Bytes) (p : Nat) : Nat := field store (p + sizesOffset false + 4) 4

/-- Whether the fields that the loops read in the header at `p` lie in the store: the state and, unless it is erased,
    the attributes and the sizes. -/
def readable (store : Bytes) (p : Nat) : Bool :=
  p + 3 ≤ store.length && (stateOf store p == 0xff || p + sizesOffset false + 8 ≤ store.length)

def authVarStorageSize (store : Bytes) : Nat → Nat → Nat → Except ConversionStop Nat
  | 0, _, _ => .error .hang
  | fuel + 1, p, size =>
    if getEndPointer store ≤ p then .ok size
    else if !readable store p then .error .outside
    else
      let size :=
        if stateOf store p = varAdded then
          headerAlign size + getVariableHeaderSize true + normalNameSize store p + normalDataSize store p
        else size
      authVarStorageSize store fuel (getNextVariablePtr false store p) size

/-- The bytes that are copied for the variable at `p`; `MonotonicCount`, `TimeStamp` and `PubKeyIndex` stay 0. -/
def authRecord (store : Bytes) (p : Nat) : Bytes :=
  slice p 2 store ++ slice (p + 2) 1 store ++ [0] ++ slice (p + 4) 4 store ++ List.replicate (sizesOffset true - 8) 0 ++
    slice (p + sizesOffset false) 8 store ++ slice (p + sizesOffset false + 8) 16 store ++
    slice (getVariableNamePtr false p) (normalNameSize store p) store ++
    slice (getVariableDataPtr false store p) (normalDataSize store p) store

def copyable (store : Bytes) (p : Nat) : Bool :=
  getVariableNamePtr false p + normalNameSize store p ≤ store.length &&
    getVariableDataPtr false store p + normalDataSize store p ≤ store.length

def copyVariables (store : Bytes) : Nat → Nat → Nat → Bytes → Except ConversionStop (Nat × Bytes)
  | 0, _, _, _ => .error .hang
  | fuel + 1, p, authStart, buffer =>
    if getEndPointer store ≤ p then .ok (authStart, buffer)
    else if !readable store p then .error .outside
    else if stateOf store p = varAdded then
      let authStart := headerAlign authStart
      let stop := authStart + getVariableHeaderSize true + normalNameSize store p + normalDataSize store p
      if !copyable store p || buffer.length < stop then .error .outside
      else copyVariables store fuel (getNextVariablePtr false store p) stop
        (overwrite authStart (authRecord store p) buffer)
    else copyVariables store fuel (getNextVariablePtr false store p) authStart buffer

/-- `ConvertNormalVarStorageToAuthVarStorage`, where `available` tells whether the pool has so many bytes; `none` is a
    null pointer. -/
def convertNormalVarStorageToAuthVarStorage (available : Nat → Bool) (store : Bytes) :
    Except ConversionStop (Option Bytes) := do
  let fuel := getEndPointer store + 1
  let size ← authVarStorageSize store fuel getStartPointer storeHeaderSize
  if !available size then return none
  let (authStart, buffer) ← copyVariables store fuel getStartPointer getStartPointer (List.replicate size 0)
  -- `Format` and `State` are those of the normal store
  return some (overwrite 0 (authenticatedVariableGuid.bytes ++ leBytes 4 authStart ++ slice 20 2 store) buffer)

end LeoEdk.Variable
