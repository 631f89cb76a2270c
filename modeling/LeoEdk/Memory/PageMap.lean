import LeoEdk.Gcd.Map
import LeoEdk.Lib.Program

/-!
The memory map of the DXE core and the functions of `Page.c` that change it.

New entries live in a small stack of descriptors until `CoreFreeMemoryMapStack` moves them to pages of their own, which
it allocates from the map it is working on. Addresses are naturals below 2^64 and sums of the source wrap there. Heap
guard, the load at a fixed address and the hooks after a call (profile, protection policy, memory attributes table) are
off.
-/

namespace LeoEdk.Memory

open Gcd (GcdMapEntry)

inductive EfiStatus where
  | success
  | invalidParameter
  | notFound
  | outOfResources
  | bufferTooSmall
deriving DecidableEq, Repr

/-- Why a call does not come back: an `ASSERT` fails, a loop outlives its fuel, or a page goes free that holds
    descriptors of the map, after which the map is what the next owner of the page writes. -/
inductive Stop where
  | assertion
  | outOfFuel
  | descriptorsFreed
deriving DecidableEq, Repr

/-- `EFI_MEMORY_TYPE`: the named types lie below `maxMemoryType`, those from `oemReservedMin` on belong to others. -/
abbrev MemoryType := UInt32

def reservedMemoryType : MemoryType := 0
def loaderCode : MemoryType := 1
def loaderData : MemoryType := 2
def bootServicesCode : MemoryType := 3
def bootServicesData : MemoryType := 4
def runtimeServicesCode : MemoryType := 5
def runtimeServicesData : MemoryType := 6
def conventionalMemory : MemoryType := 7
def unusableMemory : MemoryType := 8
def acpiReclaimMemory : MemoryType := 9
def acpiMemoryNvs : MemoryType := 10
def memoryMappedIo : MemoryType := 11
def memoryMappedIoPortSpace : MemoryType := 12
def palCode : MemoryType := 13
def persistentMemory : MemoryType := 14
def unacceptedMemoryType : MemoryType := 15
def maxMemoryType : MemoryType := 16
def oemReservedMin : MemoryType := 0x70000000

def namedTypes : List MemoryType :=
  [reservedMemoryType, loaderCode, loaderData, bootServicesCode, bootServicesData, runtimeServicesCode,
    runtimeServicesData, conventionalMemory, unusableMemory, acpiReclaimMemory, acpiMemoryNvs, memoryMappedIo,
    memoryMappedIoPortSpace, palCode, persistentMemory, unacceptedMemoryType]

def memoryPresent : UInt64 := 0x0100000000000000
def memoryInitialized : UInt64 := 0x0200000000000000
def memoryTested : UInt64 := 0x0400000000000000
def memoryMoreReliable : UInt64 := 0x10000
def memoryNv : UInt64 := 0x8000

/-- Where the descriptor of an entry lives: in a slot of `mMapStack`, or in a page (`FromPages`). -/
inductive Place where
  | stack (slot : Nat)
  | pages
deriving DecidableEq, Repr

structure Entry where
  place : Place
  type : MemoryType
  start : Nat
  last : Nat
  attributes : UInt64
deriving DecidableEq, Repr

structure Statistics where
  baseAddress : Nat
  maximumAddress : Nat
  currentNumberOfPages : Nat
  numberOfPages : Nat
  informationIndex : Nat
  special : Bool
  runtime : Bool
deriving DecidableEq, Repr

structure TypeInformation where
  type : MemoryType
  numberOfPages : Nat
deriving DecidableEq, Repr

/-- What the processor architecture fixes: `MAX_ALLOC_ADDRESS` and `RUNTIME_PAGE_ALLOCATION_GRANULARITY`. -/
structure Platform where
  maxAllocAddress : Nat
  runtimeGranularity : Nat
  wholePages : maxAllocAddress % 0x1000 = 0xFFF
  addressable : maxAllocAddress < 2 ^ 64
  granular : runtimeGranularity = 0x1000 ∨ runtimeGranularity = 0x10000

structure World where
  memoryMap : List Entry
  mapDepth : Nat
  /-- The length of `mFreeMemoryMapEntryList`. -/
  freeEntries : Nat
  descriptorPages : List Nat
  /-- `mGcdMemorySpaceMap`, and whether its lock is held. -/
  gcdMap : List GcdMapEntry
  gcdLocked : Bool
  statistics : MemoryType → Statistics
  defaultBaseAddress : Nat
  defaultMaximumAddress : Nat
  information : List TypeInformation
  initialized : Bool

def initialStatistics (p : Platform) (type : MemoryType) : Statistics where
  baseAddress := 0
  maximumAddress := p.maxAllocAddress
  currentNumberOfPages := 0
  numberOfPages := 0
  informationIndex := maxMemoryType.toNat
  special := type ∈ [reservedMemoryType, runtimeServicesCode, runtimeServicesData, acpiReclaimMemory, acpiMemoryNvs,
    palCode, unacceptedMemoryType]
  runtime := type ∈ [runtimeServicesCode, runtimeServicesData, palCode]

def initialWorld (p : Platform) (gcdMap : List GcdMapEntry) : World where
  memoryMap := []
  mapDepth := 0
  freeEntries := 0
  descriptorPages := []
  gcdMap := gcdMap
  gcdLocked := false
  statistics := initialStatistics p
  defaultBaseAddress := p.maxAllocAddress
  defaultMaximumAddress := p.maxAllocAddress
  information := (namedTypes.dropLast ++ [6, maxMemoryType]).map fun type => ⟨type, 0⟩
  initialized := false

def x64 : Platform where
  maxAllocAddress := 2 ^ 64 - 1
  runtimeGranularity := 0x1000
  wholePages := by decide
  addressable := by decide
  granular := .inl rfl

abbrev M := Prog Platform World Stop

def maxMapDepth : Nat := 6

def defaultGranularity : Nat := 0x1000

def assertThat (condition : Bool) : M Unit := if condition then pure () else Prog.halt .assertion

def bytesOf (numberOfPages : Nat) : Nat := numberOfPages * 0x1000 % 2 ^ 64

def lastOf (start numberOfBytes : Nat) : Nat := (start + numberOfBytes + 2 ^ 64 - 1) % 2 ^ 64

def Entry.contains (e : Entry) (address : Nat) : Bool := e.start ≤ address ∧ address < e.last

def Entry.freed (e : Entry) : Nat := if e.place = .pages then 1 else 0

/-! ### Adding a range -/

structure Absorbed where
  start : Nat
  last : Nat
  kept : List Entry
  freed : Nat
deriving DecidableEq, Repr

def absorb (type : MemoryType) (attributes : UInt64) (start last : Nat) : List Entry → Absorbed
  | [] => ⟨start, last, [], 0⟩
  | e :: rest =>
    if e.type = type ∧ e.attributes = attributes ∧ (e.last + 1) % 2 ^ 64 = start then
      let r := absorb type attributes e.start last rest
      { r with freed := r.freed + e.freed }
    else if e.type = type ∧ e.attributes = attributes ∧ e.start = (last + 1) % 2 ^ 64 then
      let r := absorb type attributes start e.last rest
      { r with freed := r.freed + e.freed }
    else
      let r := absorb type attributes start last rest
      { r with kept := e :: r.kept }

def pushEntry (type : MemoryType) (start last : Nat) (attributes : UInt64) : M Unit := do
  Prog.modify fun w =>
    { w with
      memoryMap := w.memoryMap ++ [⟨.stack w.mapDepth, type, start, last, attributes⟩]
      mapDepth := w.mapDepth + 1 }
  let w ← Prog.get
  assertThat (w.mapDepth < maxMapDepth)

def coreAddRange (type : MemoryType) (start last : Nat) (attributes : UInt64) : M Unit := do
  assertThat (start % 0x1000 = 0)
  assertThat (start < last)
  let w ← Prog.get
  let r := absorb type attributes start last w.memoryMap
  Prog.modify fun w => { w with memoryMap := r.kept, freeEntries := w.freeEntries + r.freed }
  pushEntry type r.start r.last attributes

/-! ### Converting a range -/

/-- What `CoreConvertPagesEx` changes: `ChangingType` with `NewType`, or `ChangingAttributes` with `NewAttributes`. -/
inductive Change where
  | type (newType : MemoryType)
  | attributes (newAttributes : UInt64)
deriving DecidableEq, Repr

def locate (p : Entry → Bool) : List Entry → Option (List Entry × Entry × List Entry)
  | [] => none
  | e :: rest =>
    if p e then some ([], e, rest)
    else (locate p rest).map fun (before, found, after) => (e :: before, found, after)

def inBins (w : World) (type : MemoryType) (address : Nat) : Bool :=
  ((w.statistics type).baseAddress ≤ address ∧ address ≤ (w.statistics type).maximumAddress) ∨
    (w.defaultBaseAddress ≤ address ∧ address ≤ w.defaultMaximumAddress)

def World.setStatistics (w : World) (type : MemoryType) (s : Statistics) : World :=
  { w with statistics := fun t => if t = type then s else w.statistics t }

def uncount (type : MemoryType) (start numberOfPages : Nat) (w : World) : World :=
  let s := w.statistics type
  if type < maxMemoryType ∧ inBins w type start then
    w.setStatistics type
      { s with
        currentNumberOfPages :=
          if numberOfPages > s.currentNumberOfPages then 0 else s.currentNumberOfPages - numberOfPages }
  else w

def count (type : MemoryType) (start numberOfPages : Nat) (w : World) : World :=
  let s := w.statistics type
  if type < maxMemoryType ∧ inBins w type start then
    let current := (s.currentNumberOfPages + numberOfPages) % 2 ^ 64
    let raise (i : TypeInformation) :=
      if current > i.numberOfPages then { i with numberOfPages := current % 2 ^ 32 } else i
    { w.setStatistics type { s with currentNumberOfPages := current } with
      information := w.information.modify s.informationIndex raise }
  else w

def relink (before : List Entry) (e : Entry) (after : List Entry) : M Unit :=
  Prog.modify fun w =>
    if e.start = (e.last + 1) % 2 ^ 64 then
      { w with memoryMap := before ++ after, freeEntries := w.freeEntries + e.freed }
    else { w with memoryMap := before ++ e :: after }

def pullOut (before : List Entry) (e : Entry) (after : List Entry) (start rangeEnd : Nat) : M Unit :=
  if e.start = start then relink before { e with start := (rangeEnd + 1) % 2 ^ 64 } after
  else if e.last = rangeEnd then relink before { e with last := start - 1 } after
  else do
    assertThat (e.start < start - 1)
    Prog.modify fun w => { w with memoryMap := before ++ { e with last := start - 1 } :: after }
    -- Not empty: the entry ends after `rangeEnd`.
    pushEntry e.type ((rangeEnd + 1) % 2 ^ 64) e.last e.attributes

def convertible (newType : MemoryType) (e : Entry) (last : Nat) : Bool :=
  (newType ≠ conventionalMemory → last ≤ e.last) ∧
    (newType = conventionalMemory ↔ e.type ≠ conventionalMemory)

def Change.allowed (change : Change) (e : Entry) (last : Nat) : Bool :=
  match change with
  | .type newType => convertible newType e last
  | .attributes _ => true

def Change.apply (change : Change) (value : MemoryType × UInt64) : MemoryType × UInt64 :=
  match change with
  | .type newType => (newType, value.2)
  | .attributes newAttributes => (value.1, newAttributes)

def Change.losesDescriptors (change : Change) (w : World) (start last : Nat) : Bool :=
  change = .type conventionalMemory ∧ ∃ page ∈ w.descriptorPages, start ≤ page ∧ page ≤ last

def Change.count (change : Change) (oldType : MemoryType) (start numberOfPages : Nat) (w : World) : World :=
  match change with
  | .type newType => Memory.count newType start numberOfPages (uncount oldType start numberOfPages w)
  | .attributes _ => w

section Stacked

/- `CoreFreeMemoryMapStack` as the functions it calls meet it. While it runs it returns at once, so they are written
over what a call of it does. -/
variable (freeStack : M Unit)

/-- One turn of the loop of `CoreConvertPagesEx`: where the next range starts, if the conversion goes on. -/
def convertStep (change : Change) (numberOfPages start last : Nat) : M (Option Nat) := do
  let w ← Prog.get
  match locate (·.contains start) w.memoryMap with
  | none => pure none
  | some (before, e, after) =>
    let rangeEnd := min e.last last
    if ¬ change.allowed e last then pure none
    else if change.losesDescriptors w start rangeEnd then Prog.halt .descriptorsFreed
    else do
      Prog.modify (change.count e.type start numberOfPages)
      pullOut before e after start rangeEnd
      let value := change.apply (e.type, e.attributes)
      coreAddRange value.1 start rangeEnd value.2
      freeStack
      pure (some ((rangeEnd + 1) % 2 ^ 64))

def convertLoop (change : Change) (numberOfPages : Nat) : Nat → Nat → Nat → M EfiStatus
  | 0, _, _ => Prog.halt .outOfFuel
  | fuel + 1, start, last =>
    if start < last then do
      match ← convertStep freeStack change numberOfPages start last with
      | none => pure .notFound
      | some start => convertLoop change numberOfPages fuel start last
    else pure .success

/-- `CoreConvertPagesEx` once the last address is known. What its first three `ASSERT`s refuse it also checks, and
    returns where they are compiled out. The fuel is one turn for each entry of the map and one. -/
def convertRange (change : Change) (numberOfPages start last : Nat) : M EfiStatus :=
  if numberOfPages = 0 ∨ start % 0x1000 ≠ 0 ∨ last ≤ start then pure .invalidParameter
  else do
    let w ← Prog.get
    convertLoop freeStack change numberOfPages (w.memoryMap.length + 1) start last

def coreConvertPagesEx (start numberOfPages : Nat) (change : Change) : M EfiStatus :=
  convertRange freeStack change numberOfPages start (lastOf start (bytesOf numberOfPages))

def coreConvertPages (start numberOfPages : Nat) (newType : MemoryType) : M EfiStatus :=
  coreConvertPagesEx freeStack start numberOfPages (.type newType)

/-! ### Untested memory -/

def promotable (p : Platform) (e : GcdMapEntry) : Bool :=
  e.gcdMemoryType = .reserved ∧ e.endAddress < p.maxAllocAddress ∧
    e.capabilities &&& (memoryPresent ||| memoryInitialized ||| memoryTested) = memoryPresent ||| memoryInitialized

def dxeCoreImageHandle : Gcd.Handle := some 0

def promote (e : GcdMapEntry) : GcdMapEntry :=
  { e with
    gcdMemoryType :=
      if e.capabilities &&& memoryMoreReliable = memoryMoreReliable then .moreReliable else .systemMemory
    capabilities := e.capabilities ||| memoryTested
    imageHandle := dxeCoreImageHandle
    deviceHandle := none }

def promotedAttribute (e : GcdMapEntry) : UInt64 :=
  (promote e).capabilities &&& ~~~(memoryPresent ||| memoryInitialized ||| memoryTested ||| Gcd.memoryRuntime)

def promoteFrom : List GcdMapEntry → List GcdMapEntry → Bool → M Bool
  | _, [], promoted => pure promoted
  | before, e :: rest, promoted => do
    if promotable (← Prog.ask id) e then do
      Prog.modify fun w => { w with gcdMap := before ++ promote e :: rest }
      coreAddRange conventionalMemory e.baseAddress e.endAddress (promotedAttribute e)
      freeStack
      promoteFrom (before ++ [promote e]) rest true
    else promoteFrom (before ++ [e]) rest promoted

/-- The lock of the GCD map is not recursive: to take it twice fails an assertion. -/
def promoteMemoryResource : M Bool := do
  let w ← Prog.get
  assertThat (!w.gcdLocked)
  Prog.modify fun w => { w with gcdLocked := true }
  let promoted ← promoteFrom freeStack [] w.gcdMap false
  Prog.modify fun w => { w with gcdLocked := false }
  pure promoted

/-! ### Finding free pages -/

def pageEnd (maxAddress : Nat) : Nat :=
  if maxAddress % 0x1000 = 0xFFF then maxAddress
  else (maxAddress - 0x1000) / 0x1000 * 0x1000 + 0xFFF

def alignEnd (alignment descEnd : Nat) : Nat := ((descEnd + 1) % 2 ^ 64 / alignment * alignment + 2 ^ 64 - 1) % 2 ^ 64

def usableEnd (maxAddress minAddress numberOfBytes alignment : Nat) (e : Entry) : Option Nat :=
  if e.type = conventionalMemory ∧ e.attributes &&& Gcd.memorySp = 0 ∧
    ¬ (e.start ≥ maxAddress ∨ e.last < minAddress) then
    let descEnd := alignEnd alignment (min e.last maxAddress)
    if descEnd < e.start ∨ (descEnd - e.start + 1) % 2 ^ 64 < numberOfBytes ∨
        (descEnd + 2 ^ 64 - numberOfBytes + 1) % 2 ^ 64 < minAddress then none
    else some descEnd
  else none

def coreFindFreePagesI (maxAddress minAddress numberOfPages alignment : Nat) (map : List Entry) : Nat :=
  if maxAddress < 0xFFF ∨ numberOfPages = 0 then 0
  else
    let numberOfBytes := bytesOf numberOfPages
    let ends := map.filterMap (usableEnd (pageEnd maxAddress) minAddress numberOfBytes alignment)
    let target := (ends.foldl max 0 + 2 ^ 64 - numberOfBytes + 1) % 2 ^ 64
    if target % 0x1000 ≠ 0 then 0 else target

def findInBin (w : World) (maxAddress noPages : Nat) (newType : MemoryType) (alignment : Nat) : Nat :=
  let s := w.statistics newType
  if newType < maxMemoryType ∧ s.maximumAddress ≤ maxAddress then
    coreFindFreePagesI s.maximumAddress s.baseAddress noPages alignment w.memoryMap
  else 0

def findInDefault (w : World) (maxAddress noPages alignment : Nat) : Nat :=
  if w.defaultMaximumAddress ≤ maxAddress then
    coreFindFreePagesI w.defaultMaximumAddress 0 noPages alignment w.memoryMap
  else 0

def searchBins (maxAddress noPages : Nat) (newType : MemoryType) (alignment : Nat) : M Nat := do
  let w ← Prog.get
  if findInBin w maxAddress noPages newType alignment ≠ 0 then pure (findInBin w maxAddress noPages newType alignment)
  else if findInDefault w maxAddress noPages alignment ≠ 0 then do
    let start := findInDefault w maxAddress noPages alignment
    Prog.modify fun w => { w with defaultBaseAddress := min w.defaultBaseAddress start }
    pure start
  else pure (coreFindFreePagesI maxAddress 0 noPages alignment w.memoryMap)

/-- The fuel counts the attempts: a promotion leaves nothing to promote for a third one. -/
def findFreePages : Nat → Nat → Nat → MemoryType → Nat → M Nat
  | 0, _, _, _, _ => Prog.halt .outOfFuel
  | fuel + 1, maxAddress, noPages, newType, alignment => do
    let start ← searchBins maxAddress noPages newType alignment
    if start ≠ 0 then pure start
    else if ← promoteMemoryResource freeStack then findFreePages fuel maxAddress noPages newType alignment
    else pure 0

def coreAllocatePoolPages (poolType : MemoryType) (numberOfPages alignment : Nat) : M Nat := do
  let p ← Prog.ask id
  let start ← findFreePages freeStack 2 p.maxAllocAddress numberOfPages poolType alignment
  if start = 0 then pure 0
  else do
    let _ ← coreConvertPages freeStack start numberOfPages poolType
    pure start

end Stacked

/-! ### The stack of descriptors -/

def entriesOfPage : Nat := 64

/-- `AllocateMemoryMapEntry`, called while `CoreFreeMemoryMapStack` runs: whether there is a descriptor. -/
def allocateMemoryMapEntry : M Bool := do
  let w ← Prog.get
  if w.freeEntries = 0 then do
    let page ← coreAllocatePoolPages (pure ()) bootServicesData 1 defaultGranularity
    if page = 0 then pure false
    else do
      Prog.modify fun w =>
        { w with
          freeEntries := w.freeEntries + entriesOfPage - 1
          descriptorPages := page :: w.descriptorPages }
      pure true
  else do
    Prog.modify fun w => { w with freeEntries := w.freeEntries - 1 }
    pure true

def insertEntry (e : Entry) : List Entry → List Entry
  | [] => [e]
  | other :: rest => if other.place = .pages ∧ e.start < other.start then e :: other :: rest
      else other :: insertEntry e rest

/-- The slot `mMapStack[slot]` moves to a descriptor in pages, if it is still linked in the map. -/
def unstack (slot : Nat) (w : World) : World :=
  match locate (·.place = .stack slot) w.memoryMap with
  | some (before, e, after) => { w with memoryMap := insertEntry { e with place := .pages } (before ++ after) }
  | none => { w with freeEntries := w.freeEntries + 1 }

def freeStackLoop : Nat → M Unit
  | 0 => Prog.halt .outOfFuel
  | fuel + 1 => do
    let w ← Prog.get
    if w.mapDepth = 0 then pure ()
    else do
      assertThat (← allocateMemoryMapEntry)
      Prog.modify fun w => unstack (w.mapDepth - 1) { w with mapDepth := w.mapDepth - 1 }
      freeStackLoop fuel

def coreFreeMemoryMapStack : M Unit := freeStackLoop (2 * maxMapDepth)

end LeoEdk.Memory
