import LeoEdk.Variable.Store

/-!
`VariablePolicyLib`: the table of variable policies, the search for the policy of a variable, and the switches that lock
the interface and disable the enforcement.

Structures are read where they lie in memory, as the code reads them: an incoming policy with whatever stands behind it,
and the entries of the table one behind the other.
-/

namespace LeoEdk.VariablePolicy

open Bytes
open Variable (Name Guid has appendWrite)

inductive EfiStatus where
  | success | invalidParameter | alreadyStarted | writeProtected | aborted | outOfResources | notReady | notFound
  | bufferTooSmall
  deriving DecidableEq, Repr

/-! ### Structures in memory -/

def pointer (m : Store) (p : Nat) : Store := fun k => m (p + k)

def field (m : Store) (ofs len : Nat) : Nat := leNat (m.read ofs len)

def char (m : Store) (ofs : Nat) : UInt16 := UInt16.ofNat (field m ofs 2)

def chars (m : Store) (ofs : Nat) : Nat → UInt16 := fun k => char m (ofs + 2 * k)

/-! ### `VARIABLE_POLICY_ENTRY` -/

def entrySize : Nat := 44
def entryRevision : Nat := 0x00010000

def typeNoLock : Nat := 0
def typeLockNow : Nat := 1
def typeLockOnCreate : Nat := 2
def typeLockOnVarState : Nat := 3

section Entry

variable (e : Store)

def version : Nat := field e 0 4
def size : Nat := field e 4 2
def offsetToName : Nat := field e 6 2
def nameSpace : Bytes := e.read 8 16
def minSize : Nat := field e 24 4
def maxSize : Nat := field e 28 4
def attributesMustHave : UInt32 := UInt32.ofNat (field e 32 4)
def attributesCantHave : UInt32 := UInt32.ofNat (field e 36 4)
def lockPolicyType : Nat := field e 40 1

def getPolicyName : Nat → UInt16 := chars e (offsetToName e)

/-! `VARIABLE_LOCK_ON_VAR_STATE_POLICY`, behind the entry. -/

def stateNameOffset : Nat := entrySize + 18
def stateNameSpace : Bytes := e.read entrySize 16
def stateValue : UInt8 := e (entrySize + 16)

end Entry

/-! ### `IsValidVariablePolicyStructure` -/

def wildcard : UInt16 := 0x23

def matchPriorityExact : Nat := 0
def matchPriorityMin : Nat := 255

/-- The offset of the terminator of the string at `p`, unless it is sought behind the end of the structure. -/
def scanString (e : Store) (entryEnd : Nat) : Nat → Nat → Option Nat
  | 0, _ => none
  | fuel + 1, p =>
    if char e p = 0 then some p
    else if entryEnd ≤ p then none
    else scanString e entryEnd fuel (p + 2)

def scanName (e : Store) (entryEnd : Nat) : Nat → Nat → Nat → Option Nat
  | 0, _, _ => none
  | fuel + 1, p, wildcardCount =>
    if char e p = 0 then some p
    else
      let wildcardCount := if char e p = wildcard then wildcardCount + 1 else wildcardCount
      if matchPriorityMin < wildcardCount then none
      else if entryEnd ≤ p then none
      else scanName e entryEnd fuel (p + 2) wildcardCount

structure NewPolicy where
  address : Nat
  memory : Store

/-- The name of the state variable ends right before the name of the policy; other policies have no such name. Each
    round of the scan moves by two, so that it has fuel enough in the size. -/
def isValidLockPolicy (new : NewPolicy) : Bool :=
  let e := new.memory
  if lockPolicyType e = typeLockOnVarState then
    if 2 ^ 64 ≤ new.address + stateNameOffset ∨ size e ≤ stateNameOffset then false
    else
      match scanString e (size e) (size e) stateNameOffset with
      | none => false
      | some p => p + 2 = offsetToName e
  else offsetToName e = entrySize

def isValidName (e : Store) : Bool :=
  if size e ≠ offsetToName e then
    match scanName e (size e) (size e) (offsetToName e) 0 with
    | none => false
    | some p => p + 2 = size e
  else true

def isValidVariablePolicyStructure (new : NewPolicy) : Bool :=
  let e := new.memory
  if size e = 0 ∨ size e < entrySize ∨ version e ≠ entryRevision then false
  else if 2 ^ 64 ≤ new.address + size e then false
  else if maxSize e = 0 then false
  else if lockPolicyType e ≠ typeNoLock ∧ lockPolicyType e ≠ typeLockNow ∧ lockPolicyType e ≠ typeLockOnCreate ∧
      lockPolicyType e ≠ typeLockOnVarState then false
  else isValidLockPolicy new && isValidName e

/-! ### The search for the best policy -/

def isHexDigit (c : UInt16) : Bool := (0x30 ≤ c ∧ c ≤ 0x39) ∨ (0x41 ≤ c ∧ c ≤ 0x46) ∨ (0x61 ≤ c ∧ c ≤ 0x66)

def matchName (policyName variableName : Nat → UInt16) : Nat → Nat → Nat → Option Nat
  | 0, _, _ => none
  | fuel + 1, index, priority =>
    if policyName index ≠ 0 ∨ variableName index ≠ 0 then
      if policyName index ≠ variableName index ∨ policyName index = wildcard then
        if policyName index = wildcard ∧ isHexDigit (variableName index) then
          matchName policyName variableName fuel (index + 1)
            (if priority < matchPriorityMin then priority + 1 else priority)
        else none
      else matchName policyName variableName fuel (index + 1) priority
    else some priority

/-- The priority of the entry for the variable, if it matches. The name of an entry ends inside the entry, so that the
    loop has fuel enough in its size. -/
def evaluatePolicyMatch (e : Store) (variableName : Nat → UInt16) (vendorGuid : Bytes) : Option Nat :=
  if nameSpace e ≠ vendorGuid then none
  else if size e = offsetToName e then some matchPriorityMin
  else matchName (getPolicyName e) variableName (size e) 0 matchPriorityExact

def bestFrom (table : Store) (variableName : Nat → UInt16) (vendorGuid : Bytes) :
    Nat → Nat → Option Nat × Nat → Option Nat × Nat
  | 0, _, best => best
  | count + 1, current, best =>
    let next := current + size (pointer table current)
    match evaluatePolicyMatch (pointer table current) variableName vendorGuid with
    | none => bestFrom table variableName vendorGuid count next best
    | some priority =>
      let best := if best.1 = none ∨ priority < best.2 then (some current, priority) else best
      if best.2 = 0 then best else bestFrom table variableName vendorGuid count next best

/-! ### The library -/

structure Library where
  initialized : Bool
  mInterfaceLocked : Bool
  mProtectionDisabled : Bool
  mPolicyTable : Store
  mCurrentTableSize : Nat
  mCurrentTableUsage : Nat
  mCurrentTableCount : Nat

def initVariablePolicyLib : Library where
  initialized := true
  mInterfaceLocked := false
  mProtectionDisabled := false
  mPolicyTable := fun _ => 0
  mCurrentTableSize := 0
  mCurrentTableUsage := 0
  mCurrentTableCount := 0

namespace Library

variable (s : Library)

def getBestPolicyMatch (variableName : Nat → UInt16) (vendorGuid : Bytes) : Option Nat × Nat :=
  bestFrom s.mPolicyTable variableName vendorGuid s.mCurrentTableCount 0 (none, matchPriorityExact)

def policyTableStepSize : Nat := 0x1000

def roundedSize (n : Nat) : Nat :=
  (if 0 < n % policyTableStepSize then n / policyTableStepSize + 1 else n / policyTableStepSize) * policyTableStepSize

def grow (newSize : Nat) (pool : Nat → Option Store) : Except EfiStatus Library :=
  if newSize ≤ s.mCurrentTableSize then .ok s
  else if 2 ^ 32 ≤ roundedSize newSize then .error .aborted
  else
    match pool (roundedSize newSize) with
    | none => .error .outOfResources
    | some newTable => .ok { s with
        mPolicyTable := newTable.write 0 (s.mPolicyTable.read 0 s.mCurrentTableUsage)
        mCurrentTableSize := roundedSize newSize }

def append (e : Store) : Library := { s with
  mPolicyTable := s.mPolicyTable.write s.mCurrentTableUsage (e.read 0 (size e))
  mCurrentTableUsage := s.mCurrentTableUsage + size e
  mCurrentTableCount := s.mCurrentTableCount + 1 }

def registerVariablePolicy (newPolicy : Option NewPolicy) (pool : Nat → Option Store) : EfiStatus × Library :=
  if !s.initialized then (.notReady, s)
  else if s.mInterfaceLocked then (.writeProtected, s)
  else
    match newPolicy with
    | none => (.invalidParameter, s)
    | some new =>
      let e := new.memory
      if !isValidVariablePolicyStructure new then (.invalidParameter, s)
      else
        let (matchPolicy, matchPriority) := s.getBestPolicyMatch (getPolicyName e) (nameSpace e)
        if matchPolicy ≠ none ∧ matchPriority = matchPriorityExact then (.alreadyStarted, s)
        else if 2 ^ 32 ≤ s.mCurrentTableUsage + size e then (.aborted, s)
        else
          match s.grow (s.mCurrentTableUsage + size e) pool with
          | .error status => (status, s)
          | .ok s => (.success, s.append e)

def lockVariablePolicy : EfiStatus × Library :=
  if !s.initialized then (.notReady, s)
  else if s.mInterfaceLocked then (.writeProtected, s)
  else (.success, { s with mInterfaceLocked := true })

/-- `allow` is `PcdAllowVariablePolicyEnforcementDisable`. -/
def disableVariablePolicy (allow : Bool) : EfiStatus × Library :=
  if !s.initialized then (.notReady, s)
  else if s.mProtectionDisabled then (.alreadyStarted, s)
  else if s.mInterfaceLocked then (.writeProtected, s)
  else if !allow then (.writeProtected, s)
  else (.success, { s with mProtectionDisabled := true })

end Library

end LeoEdk.VariablePolicy
