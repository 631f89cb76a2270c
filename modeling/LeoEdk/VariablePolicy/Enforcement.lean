import LeoEdk.VariablePolicy.Library

/-!
`ValidateSetVariable`: what the policy of a variable says about a write, given the current variables.
-/

namespace LeoEdk.VariablePolicy

open Bytes
open Variable (Name Guid has appendWrite)

/-- A variable is never empty: `VariableServiceGetVariable` asserts it of each one it reads. -/
structure Value where
  attributes : UInt32
  data : Bytes
  nonempty : data ≠ []
  deriving DecidableEq

/-- The current variables, by the characters of the name and the vendor GUID. -/
abbrev Variables := List UInt16 → Bytes → Option Value

/-- `mGetVariableHelper` with a buffer of `dataSize` bytes: the status, and what is copied into the buffer. -/
def getVariable (vars : Variables) (name : List UInt16) (guid : Bytes) (dataSize : Nat) : EfiStatus × Bytes :=
  match vars name guid with
  | none => (.notFound, [])
  | some v => if dataSize < v.data.length then (.bufferTooSmall, []) else (.success, v.data)

/-! ### The check of a write -/

def readString (f : Nat → UInt16) : Nat → Nat → List UInt16
  | 0, _ => []
  | fuel + 1, i => if f i = 0 then [] else f i :: readString f fuel (i + 1)

def stateName (e : Store) : List UInt16 := readString (chars e stateNameOffset) (size e) 0

def nameChars (name : Name) : Nat → UInt16 := fun k => name.units.getD k 0

section Policy

variable (policy : Store)

def badSize (dataSize : Nat) : Bool :=
  (0 < minSize policy ∧ dataSize < minSize policy) ∨ (0 < maxSize policy ∧ maxSize policy < dataSize)

def badAttributes (attributes : UInt32) : Bool :=
  attributesMustHave policy &&& attributes ≠ attributesMustHave policy ∨ attributesCantHave policy &&& attributes ≠ 0

def checkLock (vars : Variables) (name : Name) (guid : Guid) : EfiStatus :=
  if lockPolicyType policy = typeLockNow then .writeProtected
  else if lockPolicyType policy = typeLockOnCreate then
    if (getVariable vars name.units guid.bytes 0).1 = .bufferTooSmall then .writeProtected else .success
  else if lockPolicyType policy = typeLockOnVarState then
    match getVariable vars (stateName policy) (stateNameSpace policy) 1 with
    | (.success, data) => if data.head? = some (stateValue policy) then .writeProtected else .success
    | (.notFound, _) | (.bufferTooSmall, _) => .success
    | _ => .aborted
  else .success

end Policy

namespace Library

variable (s : Library)

def bestPolicy (name : Name) (guid : Guid) : Option Store :=
  (s.getBestPolicyMatch (nameChars name) guid.bytes).1.map (pointer s.mPolicyTable)

def validateSetVariable (vars : Variables) (name : Name) (guid : Guid) (attributes : UInt32) (dataSize : Nat) :
    EfiStatus :=
  if !s.initialized then .notReady
  else if s.mProtectionDisabled then .success
  else
    let isDel := dataSize = 0 ∧ !has attributes appendWrite
    match s.bestPolicy name guid with
    | none => .success
    | some policy =>
      if ¬isDel ∧ badSize policy dataSize then .invalidParameter
      else if ¬isDel ∧ badAttributes policy attributes then .invalidParameter
      else checkLock policy vars name guid

end Library

end LeoEdk.VariablePolicy
