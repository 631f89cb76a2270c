import LeoEdk.Lib.Bytes

/-!
The variable stores of the variable driver (`VariableFormat.h`, `VariableParsing.c`): the headers in a store and the
walk over them.

A pointer into a store is the distance from the store's header, which lies at an aligned address. `GET_PAD_SIZE` is 0.
-/

namespace LeoEdk.Variable

open Bytes

inductive EfiStatus where
  | success | notFound | invalidParameter | writeProtected | outOfResources | notAvailableYet | unsupported
  | bufferTooSmall | securityViolation | accessDenied | alreadyStarted
  deriving DecidableEq, Repr

/-! ### Attributes and states -/

def nonVolatile : UInt32 := 0x01
def bootserviceAccess : UInt32 := 0x02
def runtimeAccess : UInt32 := 0x04
def authenticatedWriteAccess : UInt32 := 0x10
def timeBasedAuthenticatedWriteAccess : UInt32 := 0x20
def appendWrite : UInt32 := 0x40

def attributeNvBsRt : UInt32 := nonVolatile ||| bootserviceAccess ||| runtimeAccess

def has (attributes mask : UInt32) : Bool := attributes &&& mask != 0

def varDeleted : UInt8 := 0xfd
def varAdded : UInt8 := 0x3f

/-! ### Names and GUIDs -/

/-- A null-terminated string of 16-bit characters, without its terminator. -/
structure Name where
  units : List UInt16
  nonzero : ∀ u ∈ units, u ≠ 0
  deriving DecidableEq

structure Guid where
  bytes : Bytes
  length_eq : bytes.length = 16
  deriving DecidableEq

def guidOf (a b c : Nat) (d : Bytes) (h : d.length = 8) : Guid :=
  ⟨leBytes 4 a ++ leBytes 2 b ++ leBytes 2 c ++ d, by simp [h]⟩

def globalVariableGuid : Guid := guidOf 0x8be4df61 0x93ca 0x11d2 [0xaa, 0x0d, 0x00, 0xe0, 0x98, 0x03, 0x2b, 0x8c] rfl

def storeHeaderSize : Nat := 28
def variableData : Nat := 0x55AA

def headerAlign (n : Nat) : Nat := (n + 3) / 4 * 4

def field (store : Bytes) (p w : Nat) : Nat := leNat (slice p w store)

def storeSize (store : Bytes) : Nat := field store 16 4
def getStartPointer : Nat := headerAlign storeHeaderSize
def getEndPointer (store : Bytes) : Nat := headerAlign (storeSize store)

def getVariableHeaderSize (authFormat : Bool) : Nat := if authFormat then 60 else 32

/-- Where the sizes start; `VARIABLE_HEADER` has no `MonotonicCount`, `TimeStamp` and `PubKeyIndex` before them. -/
def sizesOffset (authFormat : Bool) : Nat := if authFormat then 36 else 8

def isValidVariableHeader (store : Bytes) (p stop : Nat) : Bool := p < stop && field store p 2 == variableData

def stateOf (store : Bytes) (p : Nat) : UInt8 := UInt8.ofNat (field store (p + 2) 1)
def attributesOf (store : Bytes) (p : Nat) : UInt32 := UInt32.ofNat (field store (p + 4) 4)

/-- The headers for which `NameSizeOfVariable` and `DataSizeOfVariable` return 0. -/
def sizesUnset (authFormat : Bool) (store : Bytes) (p : Nat) : Bool :=
  stateOf store p == 0xff || field store (p + sizesOffset authFormat + 4) 4 == 0xffffffff ||
    field store (p + sizesOffset authFormat) 4 == 0xffffffff || attributesOf store p == 0xffffffff

def nameSizeOfVariable (authFormat : Bool) (store : Bytes) (p : Nat) : Nat :=
  if sizesUnset authFormat store p then 0 else field store (p + sizesOffset authFormat) 4

def dataSizeOfVariable (authFormat : Bool) (store : Bytes) (p : Nat) : Nat :=
  if sizesUnset authFormat store p then 0 else field store (p + sizesOffset authFormat + 4) 4

def getVariableNamePtr (authFormat : Bool) (p : Nat) : Nat := p + getVariableHeaderSize authFormat

def getVariableDataPtr (authFormat : Bool) (store : Bytes) (p : Nat) : Nat :=
  getVariableNamePtr authFormat p + nameSizeOfVariable authFormat store p

def getNextVariablePtr (authFormat : Bool) (store : Bytes) (p : Nat) : Nat :=
  headerAlign (getVariableDataPtr authFormat store p + dataSizeOfVariable authFormat store p)

structure VariableHeader where
  offset : Nat
  next : Nat
  state : UInt8
  attributes : UInt32
  guid : Bytes
  name : Bytes
  data : Bytes
  deriving DecidableEq, Repr

def variableAt (authFormat : Bool) (store : Bytes) (p : Nat) : VariableHeader where
  offset := p
  next := getNextVariablePtr authFormat store p
  state := stateOf store p
  attributes := attributesOf store p
  guid := slice (p + sizesOffset authFormat + 8) 16 store
  name := slice (getVariableNamePtr authFormat p) (nameSizeOfVariable authFormat store p) store
  data := slice (getVariableDataPtr authFormat store p) (dataSizeOfVariable authFormat store p) store

/-- The headers that a loop over `IsValidVariableHeader` and `GetNextVariablePtr` meets from `p` on. A header is longer
    than one byte, so the length of the store is fuel enough. -/
def walkFrom (authFormat : Bool) (store : Bytes) : Nat → Nat → List VariableHeader
  | 0, _ => []
  | fuel + 1, p =>
    if isValidVariableHeader store p (getEndPointer store) then
      variableAt authFormat store p :: walkFrom authFormat store fuel (getNextVariablePtr authFormat store p)
    else []

def headers (authFormat : Bool) (store : Bytes) : List VariableHeader :=
  walkFrom authFormat store store.length getStartPointer

end LeoEdk.Variable
