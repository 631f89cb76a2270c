import LeoEdk.Memory.PageMap

/-!
The services of `Page.c` over the memory map: allocating and freeing pages, and adding memory, which also sets up the
bins that keep the allocations of one type together.
-/

namespace LeoEdk.Memory

inductive AllocateType where
  | anyPages
  | maxAddress
  | address
deriving DecidableEq, Repr

def allocateTypeOf (n : UInt32) : Option AllocateType := [.anyPages, .maxAddress, .address][n.toNat]?

def granularityOf (p : Platform) (type : MemoryType) : Nat :=
  if type = reservedMemoryType ∨ type = acpiMemoryNvs ∨ type = runtimeServicesCode ∨ type = runtimeServicesData then
    p.runtimeGranularity
  else defaultGranularity

def roundPages (alignment numberOfPages : Nat) : Nat :=
  (numberOfPages + (alignment / 0x1000 - 1)) % 2 ^ 64 / (alignment / 0x1000) * (alignment / 0x1000)

def meetsSpecial (w : World) (memoryType : MemoryType) (start last : Nat) : Bool :=
  namedTypes.any fun checkType =>
    let s := w.statistics checkType
    memoryType ≠ checkType ∧ s.special ∧ s.numberOfPages > 0 ∧
      ((s.baseAddress ≤ start ∧ start ≤ s.maximumAddress) ∨ (s.baseAddress ≤ last ∧ last ≤ s.maximumAddress) ∨
        (start < s.baseAddress ∧ s.maximumAddress < last))

def addressAvailable (p : Platform) (w : World) (memoryType : MemoryType) (start numberOfPages : Nat) : Bool :=
  let last := lastOf start (bytesOf numberOfPages)
  numberOfPages ≠ 0 ∧ numberOfPages ≤ p.maxAllocAddress / 0x1000 ∧ start < last ∧ start ≤ p.maxAllocAddress ∧
    last ≤ p.maxAllocAddress ∧ ¬ meetsSpecial w memoryType start last

def convertOrPromote (start numberOfPages : Nat) (memoryType : MemoryType) : M EfiStatus := do
  let status ← coreConvertPages coreFreeMemoryMapStack start numberOfPages memoryType
  if status = .success then pure .success
  else if ← promoteMemoryResource coreFreeMemoryMapStack then
    coreConvertPages coreFreeMemoryMapStack start numberOfPages memoryType
  else pure status

def refusedType (memoryType : MemoryType) : Bool :=
  (maxMemoryType ≤ memoryType ∧ memoryType < oemReservedMin) ∨ memoryType = conventionalMemory ∨
    memoryType = persistentMemory ∨ memoryType = unacceptedMemoryType

def allocatePages (type : AllocateType) (memoryType : MemoryType) (numberOfPages memory : Nat) :
    M (EfiStatus × Nat) := do
  let p ← Prog.ask id
  let w ← Prog.get
  let alignment := granularityOf p memoryType
  let pages := roundPages alignment numberOfPages
  if type = .address then
    if memory % alignment = 0 ∧ addressAvailable p w memoryType memory pages then do
      let status ← convertOrPromote memory pages memoryType
      pure (status, memory)
    else pure (.notFound, memory)
  else do
    let maxAddress := if type = .maxAddress then memory else p.maxAllocAddress
    let start ← findFreePages coreFreeMemoryMapStack 2 maxAddress pages memoryType alignment
    if start = 0 then pure (.outOfResources, memory)
    else do
      let status ← convertOrPromote start pages memoryType
      pure (status, if status = .success then start else memory)

/-- The status and `*Memory` after the call. -/
def coreInternalAllocatePages (type : UInt32) (memoryType : MemoryType) (numberOfPages : UInt64)
    (memory : Option UInt64) :
    M (EfiStatus × Option Nat) :=
  match allocateTypeOf type, memory with
  | some type, some memory =>
    if refusedType memoryType then pure (.invalidParameter, some memory.toNat)
    else do
      let (status, start) ← allocatePages type memoryType numberOfPages.toNat memory.toNat
      pure (status, some start)
  | _, memory => pure (.invalidParameter, memory.map UInt64.toNat)

/-- The status and `*MemoryType`, if the call sets it. -/
def coreInternalFreePages (memory numberOfPages : UInt64) : M (EfiStatus × Option MemoryType) := do
  let p ← Prog.ask id
  let w ← Prog.get
  match locate (·.contains memory.toNat) w.memoryMap with
  | none => pure (.notFound, none)
  | some (_, e, _) =>
    let alignment := granularityOf p e.type
    if memory.toNat % alignment ≠ 0 then pure (.invalidParameter, none)
    else do
      let status ←
        coreConvertPages coreFreeMemoryMapStack memory.toNat (roundPages alignment numberOfPages.toNat)
          conventionalMemory
      pure (status, some e.type)

def informationAt (w : World) (index : Nat) : TypeInformation := w.information.getD index ⟨maxMemoryType, 0⟩

def TypeInformation.asks (i : TypeInformation) : Bool := i.type ≤ maxMemoryType ∧ i.numberOfPages ≠ 0

def setBin (index base : Nat) (w : World) : World :=
  let i := informationAt w index
  let s := w.statistics i.type
  let w := w.setStatistics i.type
    { s with baseAddress := base, maximumAddress := lastOf base (bytesOf i.numberOfPages) }
  if base < w.defaultMaximumAddress then { w with defaultMaximumAddress := (base + 2 ^ 64 - 1) % 2 ^ 64 } else w

def reserveBin (index : Nat) : M Bool := do
  let w ← Prog.get
  let i := informationAt w index
  if i.asks then do
    let (status, base) ←
      coreInternalAllocatePages 0 i.type (UInt64.ofNat i.numberOfPages)
        (some (UInt64.ofNat (w.statistics i.type).baseAddress))
    if status = .success then do
      Prog.modify (setBin index (base.getD 0))
      pure true
    else pure false
  else pure true

def reserveBins : List Nat → M (Option Nat)
  | [] => pure none
  | index :: rest => do if ← reserveBin index then reserveBins rest else pure (some index)

def releaseBin (after : Nat → World → World) (index : Nat) : M Unit := do
  let w ← Prog.get
  let i := informationAt w index
  if i.asks then do
    let _ ← coreInternalFreePages (UInt64.ofNat (w.statistics i.type).baseAddress) (UInt64.ofNat i.numberOfPages)
    Prog.modify (after index)
  else pure ()

def releaseBins (after : Nat → World → World) : List Nat → M Unit
  | [] => pure ()
  | index :: rest => do
    releaseBin after index
    releaseBins after rest

def forgetBin (p : Platform) (index : Nat) (w : World) : World :=
  let i := informationAt w index
  w.setStatistics i.type { w.statistics i.type with baseAddress := 0, maximumAddress := p.maxAllocAddress }

def commitBin (index : Nat) (w : World) : World :=
  let i := informationAt w index
  let w := w.setStatistics i.type { w.statistics i.type with numberOfPages := i.numberOfPages }
  { w with information := w.information.modify index fun i => { i with numberOfPages := 0 } }

def informationIndexOf (information : List TypeInformation) (type : MemoryType) (index : Nat) : Nat :=
  (information.zipIdx.filter fun i => i.1.type = type).foldl (fun _ i => i.2) index

def listed (w : World) : List TypeInformation := w.information.takeWhile fun i => i.type ≠ maxMemoryType

def finishBins (p : Platform) (w : World) : World :=
  { w with
    statistics := fun t =>
      let s := w.statistics t
      if t < maxMemoryType then
        { s with
          informationIndex := informationIndexOf (listed w) t s.informationIndex
          currentNumberOfPages := 0
          maximumAddress := if s.maximumAddress = p.maxAllocAddress then w.defaultMaximumAddress else s.maximumAddress }
      else s
    initialized := true }

def establishBins : M Unit := do
  let p ← Prog.ask id
  let w ← Prog.get
  match ← reserveBins (List.range (listed w).length) with
  | some index => releaseBins (forgetBin p) (List.range index)
  | none => do
    releaseBins commitBin (List.range (listed w).length)
    Prog.modify (finishBins p)

def coreAddMemoryDescriptor (type : MemoryType) (start numberOfPages : UInt64) (attributes : UInt64) : M Unit :=
  if start.toNat % 0x1000 ≠ 0 ∨ (maxMemoryType ≤ type ∧ type < oemReservedMin) then pure ()
  else do
    coreAddRange type start.toNat (lastOf start.toNat (bytesOf numberOfPages.toNat)) attributes
    coreFreeMemoryMapStack
    let w ← Prog.get
    if w.initialized then pure () else establishBins

end LeoEdk.Memory
