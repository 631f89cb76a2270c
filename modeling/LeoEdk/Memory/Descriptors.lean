import LeoEdk.Memory.PageMap

/-!
`CoreGetMemoryMap`: the memory map as an array of descriptors in the buffer of the caller.
-/

namespace LeoEdk.Memory

open Gcd (GcdMapEntry)

structure Descriptor where
  type : MemoryType
  physicalStart : Nat
  numberOfPages : Nat
  attributes : UInt64
deriving DecidableEq, Repr

def sizeofDescriptor : Nat := 40

/-- `*DescriptorSize`: never the size of the structure. -/
def descriptorSize : Nat := sizeofDescriptor + (8 - sizeofDescriptor % 8)

/-- Why a call does not come back: an `ASSERT` fails, or it writes beyond the buffer of the caller. -/
inductive Fault where
  | assertion
  | outsideBuffer
deriving DecidableEq, Repr

def mergeMemoryMapDescriptor : List Descriptor → Descriptor → List Descriptor
  | [], d => [d]
  | m :: rest, d =>
    if m.type = d.type ∧ m.attributes = d.attributes then
      if (m.physicalStart + bytesOf m.numberOfPages) % 2 ^ 64 = d.physicalStart then
        { m with numberOfPages := (m.numberOfPages + d.numberOfPages) % 2 ^ 64 } :: rest
      else if (m.physicalStart + 2 ^ 64 - bytesOf d.numberOfPages) % 2 ^ 64 = d.physicalStart then
        { m with
          physicalStart := d.physicalStart
          numberOfPages := (m.numberOfPages + d.numberOfPages) % 2 ^ 64 } :: rest
      else m :: mergeMemoryMapDescriptor rest d
    else m :: mergeMemoryMapDescriptor rest d

def putDescriptor (memoryMapSize : Nat) (written : List Descriptor) (d : Descriptor) : Except Fault (List Descriptor) :=
  if descriptorSize * written.length + sizeofDescriptor ≤ memoryMapSize then .ok (mergeMemoryMapDescriptor written d)
  else .error .outsideBuffer

/-! ### Entries of the memory map -/

def reportedType (w : World) (e : Entry) : MemoryType :=
  if e.type = conventionalMemory then
    namedTypes.foldl (fun reported type =>
      let s := w.statistics type
      if s.special ∧ s.numberOfPages > 0 ∧ s.baseAddress ≤ e.start ∧ e.last ≤ s.maximumAddress then type else reported)
      e.type
  else e.type

def entryDescriptor (w : World) (e : Entry) : Descriptor :=
  let type := reportedType w e
  { type
    physicalStart := e.start
    numberOfPages := (e.last + 2 ^ 64 - e.start + 1) % 2 ^ 64 / 0x1000
    attributes :=
      if type < maxMemoryType ∧ (w.statistics type).runtime then e.attributes ||| Gcd.memoryRuntime else e.attributes }

/-! ### Entries of the GCD map -/

def isRuntime (e : GcdMapEntry) : Bool := e.attributes &&& Gcd.memoryRuntime = Gcd.memoryRuntime

def counted (e : GcdMapEntry) : Bool :=
  e.gcdMemoryType = .persistent ∨ e.gcdMemoryType = .reserved ∨ (e.gcdMemoryType = .memoryMappedIo ∧ isRuntime e)

def zeroGcdMapEntry : GcdMapEntry := ⟨0, 0, 0, 0, .nonExistent, .nonExistent, none, none⟩

def sameKind (m e : GcdMapEntry) : Bool :=
  m.capabilities = e.capabilities ∧ m.attributes = e.attributes ∧ m.gcdMemoryType = e.gcdMemoryType ∧
    m.gcdIoType = e.gcdIoType

def gcdBytes (e : GcdMapEntry) : Nat := (e.endAddress + 2 ^ 64 - e.baseAddress + 1) % 2 ^ 64

def gcdDescriptor (e : GcdMapEntry) : Option Descriptor :=
  let capabilities := e.capabilities &&& (Gcd.cacheAttributeMask ||| Gcd.memoryAttributeMask)
  let describe (type : MemoryType) (attributes : UInt64) : Descriptor :=
    ⟨type, e.baseAddress, gcdBytes e / 0x1000, attributes⟩
  match e.gcdMemoryType with
  | .reserved => some (describe reservedMemoryType ((e.attributes &&& ~~~Gcd.memoryPortIo) ||| capabilities))
  | .memoryMappedIo =>
    if isRuntime e then
      let type :=
        if e.attributes &&& Gcd.memoryPortIo = Gcd.memoryPortIo then memoryMappedIoPortSpace else memoryMappedIo
      some (describe type ((e.attributes &&& ~~~Gcd.memoryPortIo) ||| capabilities))
    else none
  | .persistent => some (describe persistentMemory (e.attributes ||| memoryNv ||| capabilities))
  | .unaccepted =>
    some (describe unacceptedMemoryType (e.attributes ||| (e.capabilities &&&
      (Gcd.memoryRp ||| Gcd.memoryWp ||| Gcd.memoryXp ||| Gcd.memoryRo ||| Gcd.memoryUc ||| Gcd.memoryUce |||
        Gcd.memoryWc ||| Gcd.memoryWt ||| Gcd.memoryWb))))
  | .nonExistent | .systemMemory | .moreReliable => none

def putGcdRange (memoryMapSize : Nat) (written : List Descriptor) (m : GcdMapEntry) : Except Fault (List Descriptor) :=
  match gcdDescriptor m with
  | none => .ok written
  | some d =>
    if m.baseAddress % 0x1000 = 0 ∧ gcdBytes m % 0x1000 = 0 then putDescriptor memoryMapSize written d
    else .error .assertion

def putGcdRanges (memoryMapSize : Nat) :
    GcdMapEntry → List GcdMapEntry → List Descriptor → Except Fault (List Descriptor)
  | m, [], written => putGcdRange memoryMapSize written m
  | m, e :: rest, written =>
    if sameKind m e then putGcdRanges memoryMapSize { m with endAddress := e.endAddress } rest written
    else do
      let written ← putGcdRange memoryMapSize written m
      putGcdRanges memoryMapSize e rest written

/-! ### The finished array -/

def memoryAccessMask : UInt64 := Gcd.memoryRp ||| Gcd.memoryXp ||| Gcd.memoryRo

def clearAccess (d : Descriptor) : Descriptor := { d with attributes := d.attributes &&& ~~~memoryAccessMask }

def mergeRun : Descriptor → List Descriptor → List Descriptor
  | d, [] => [d]
  | d, next :: rest =>
    if d.type = next.type ∧ d.attributes = next.attributes ∧
        (d.physicalStart + bytesOf d.numberOfPages) % 2 ^ 64 = next.physicalStart then
      mergeRun { d with numberOfPages := (d.numberOfPages + next.numberOfPages) % 2 ^ 64 } rest
    else d :: mergeRun next rest

def mergeMemoryMap : List Descriptor → List Descriptor
  | [] => []
  | d :: rest => mergeRun d rest

def neededSize (w : World) : Nat := descriptorSize * (w.gcdMap.countP counted) + descriptorSize * w.memoryMap.length

/-- The status, `*MemoryMapSize` and the descriptors in the buffer. -/
structure Returned where
  status : EfiStatus
  memoryMapSize : Nat
  memoryMap : List Descriptor
deriving DecidableEq, Repr

/-- `buffer` says whether `MemoryMap` points to a buffer, of `memoryMapSize` bytes. -/
def coreGetMemoryMap (w : World) (memoryMapSize : Nat) (buffer : Bool) : Except Fault Returned :=
  if memoryMapSize < neededSize w then .ok ⟨.bufferTooSmall, neededSize w, []⟩
  else if ¬ buffer then .ok ⟨.invalidParameter, neededSize w, []⟩
  else do
    let written ← (w.memoryMap.map (entryDescriptor w)).foldlM (putDescriptor memoryMapSize) []
    let written ← putGcdRanges memoryMapSize zeroGcdMapEntry w.gcdMap written
    let merged := mergeMemoryMap (written.map clearAccess)
    pure ⟨.success, descriptorSize * merged.length, merged⟩

end LeoEdk.Memory
