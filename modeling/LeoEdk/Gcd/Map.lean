import Mathlib

/-!
The Global Coherency Domain map of the DXE core: a list of entries, each for a range of addresses, that
`CoreConvertSpace` and `CoreAllocateSpace` split, change and merge.

Addresses are naturals below 2^64; sums of the source wrap there.
-/

namespace LeoEdk.Gcd

inductive EfiStatus where
  | success
  | invalidParameter
  | unsupported
  | accessDenied
  | notFound
  | outOfResources
  | notAvailableYet
  | deviceError
deriving DecidableEq, Repr

/-- Why a call does not come back: an `ASSERT` fails, or a loop outlives its fuel. -/
inductive Stop where
  | assertion
  | outOfFuel
deriving DecidableEq, Repr

inductive GcdMemoryType where
  | nonExistent
  | reserved
  | systemMemory
  | memoryMappedIo
  | persistent
  | moreReliable
  | unaccepted
deriving DecidableEq, Repr

inductive GcdIoType where
  | nonExistent
  | reserved
  | io
deriving DecidableEq, Repr

inductive GcdAllocateType where
  | anySearchBottomUp
  | maxAddressSearchBottomUp
  | address
  | anySearchTopDown
  | maxAddressSearchTopDown
deriving DecidableEq, Repr

def gcdMemoryTypeOf (n : UInt32) : Option GcdMemoryType :=
  [.nonExistent, .reserved, .systemMemory, .memoryMappedIo, .persistent, .moreReliable, .unaccepted][n.toNat]?

def gcdIoTypeOf (n : UInt32) : Option GcdIoType := [.nonExistent, .reserved, .io][n.toNat]?

def gcdAllocateTypeOf (n : UInt32) : Option GcdAllocateType :=
  [.anySearchBottomUp, .maxAddressSearchBottomUp, .address, .anySearchTopDown, .maxAddressSearchTopDown][n.toNat]?

/-- A handle; `none` is `NULL`. -/
abbrev Handle := Option Nat

structure GcdMapEntry where
  baseAddress : Nat
  endAddress : Nat
  capabilities : UInt64
  attributes : UInt64
  gcdMemoryType : GcdMemoryType
  gcdIoType : GcdIoType
  imageHandle : Handle
  deviceHandle : Handle
deriving DecidableEq, Repr

/-- `mGcdMemorySpaceMapEntryTemplate` and `mGcdIoSpaceMapEntryTemplate`, initialized. -/
def mapEntryTemplate (endAddress : Nat) : GcdMapEntry :=
  ⟨0, endAddress, 0, 0, .nonExistent, .nonExistent, none, none⟩

structure GcdMaps where
  memorySpaceMap : List GcdMapEntry
  ioSpaceMap : List GcdMapEntry
deriving DecidableEq, Repr

inductive Operation where
  | addMemory
  | allocateMemory
  | freeMemory
  | removeMemory
  | setAttributesMemory
  | setCapabilitiesMemory
  | addIo
  | allocateIo
  | freeIo
  | removeIo
deriving DecidableEq, Repr

def Operation.isMemory : Operation → Bool
  | .addMemory | .allocateMemory | .freeMemory | .removeMemory | .setAttributesMemory | .setCapabilitiesMemory => true
  | .addIo | .allocateIo | .freeIo | .removeIo => false

def GcdMaps.map (m : GcdMaps) (op : Operation) : List GcdMapEntry :=
  if op.isMemory then m.memorySpaceMap else m.ioSpaceMap

def GcdMaps.setMap (m : GcdMaps) (op : Operation) (map : List GcdMapEntry) : GcdMaps :=
  if op.isMemory then { m with memorySpaceMap := map } else { m with ioSpaceMap := map }

def memoryUc : UInt64 := 0x1
def memoryWc : UInt64 := 0x2
def memoryWt : UInt64 := 0x4
def memoryWb : UInt64 := 0x8
def memoryUce : UInt64 := 0x10
def memoryWp : UInt64 := 0x1000
def memoryRp : UInt64 := 0x2000
def memoryXp : UInt64 := 0x4000
def memoryRo : UInt64 := 0x20000
def memorySp : UInt64 := 0x40000
def memoryCpuCrypto : UInt64 := 0x80000
def memoryRuntime : UInt64 := 0x8000000000000000
def memoryPortIo : UInt64 := 0x4000000000000000

def cacheAttributeMask : UInt64 := memoryUc ||| memoryWc ||| memoryWt ||| memoryWb ||| memoryUce ||| memoryWp

def memoryAttributeMask : UInt64 := (memoryRp ||| memoryXp ||| memoryRo) ||| memorySp ||| memoryCpuCrypto

def converToCpuArchAttributes (attributes : UInt64) : UInt64 :=
  let cpuArchAttributes := attributes &&& memoryAttributeMask
  match [memoryUc, memoryWc, memoryWt, memoryWb, memoryUce, memoryWp].find? fun bit => attributes &&& bit == bit with
  | some bit => cpuArchAttributes ||| bit
  | none => cpuArchAttributes

def pageAligned (n : Nat) : Bool := n % 0x1000 = 0

def lastOf (baseAddress length : Nat) : Nat := (baseAddress + length - 1) % 2 ^ 64

def GcdMapEntry.contains (e : GcdMapEntry) (address : Nat) : Bool := e.baseAddress ≤ address ∧ address ≤ e.endAddress

/-- The entries between two links of a map. `before` is met along `BackLink` from the first of them. -/
structure Range where
  before : List GcdMapEntry
  middle : List GcdMapEntry
  after : List GcdMapEntry
deriving DecidableEq, Repr

/-- The loop of `CoreSearchGcdMapEntry`. `middle` holds the entries from `*StartLink` on, the last one first; it is
    empty while `*StartLink` is `NULL`. -/
def searchFrom (baseAddress length : Nat) : List GcdMapEntry → List GcdMapEntry → List GcdMapEntry → Option Range
  | _, _, [] => none
  | before, middle, e :: rest =>
    let (before, middle) :=
      if e.contains baseAddress then (middle ++ before, [e])
      else if middle = [] then (e :: before, [])
      else (before, e :: middle)
    if middle ≠ [] ∧ e.contains (lastOf baseAddress length) then some ⟨before, middle.reverse, rest⟩
    else searchFrom baseAddress length before middle rest

def coreSearchGcdMapEntry (baseAddress length : Nat) (map : List GcdMapEntry) : Option Range :=
  searchFrom baseAddress length [] [] map

structure Spare where
  top : Bool
  bottom : Bool
deriving DecidableEq, Repr

structure Inserted where
  bottom : List GcdMapEntry
  entry : GcdMapEntry
  top : List GcdMapEntry
  spare : Spare

def splitBottom (entry : GcdMapEntry) (baseAddress : Nat) (spare : Spare) :
    Except Stop (List GcdMapEntry × GcdMapEntry × Spare) :=
  if baseAddress > entry.baseAddress then
    if spare.bottom then
      .ok ([{ entry with endAddress := baseAddress - 1 }], { entry with baseAddress := baseAddress },
        { spare with bottom := false })
    else .error .assertion
  else .ok ([], entry, spare)

def splitTop (entry : GcdMapEntry) (baseAddress length : Nat) (spare : Spare) :
    Except Stop (GcdMapEntry × List GcdMapEntry × Spare) :=
  if lastOf baseAddress length < entry.endAddress then
    if spare.top then
      .ok ({ entry with endAddress := lastOf baseAddress length },
        [{ entry with baseAddress := (baseAddress + length) % 2 ^ 64 }], { spare with top := false })
    else .error .assertion
  else .ok (entry, [], spare)

def coreInsertGcdMapEntry (entry : GcdMapEntry) (baseAddress length : Nat) (spare : Spare) : Except Stop Inserted := do
  let (bottom, entry, spare) ← splitBottom entry baseAddress spare
  let (entry, top, spare) ← splitTop entry baseAddress length spare
  pure ⟨bottom, entry, top, spare⟩

/-- The finished entries with the next one and what was linked right before it. Before the entry at `StartLink`, that
    lies outside of the entries from `StartLink` on. -/
def finish (before done bottom : List GcdMapEntry) (entry : GcdMapEntry) : List GcdMapEntry × List GcdMapEntry :=
  if done = [] then (bottom ++ before, [entry]) else (before, done ++ bottom ++ [entry])

/-- `done` holds the finished entries from `StartLink` on, `more` counts the entries that follow up to `EndLink`, and
    `σ` is what the changes carry along. -/
def convertLoop {σ : Type} (change : σ → GcdMapEntry → GcdMapEntry × σ) (baseAddress length : Nat) :
    Nat → σ → Spare → List GcdMapEntry → List GcdMapEntry → List GcdMapEntry → Nat → Except Stop Range
  | 0, _, _, _, _, _, _ => .error .outOfFuel
  | _ + 1, _, _, before, done, [], _ => .ok ⟨before, done, []⟩
  | fuel + 1, s, spare, before, done, e :: rest, more => do
    let inserted ← coreInsertGcdMapEntry e baseAddress length spare
    let (entry, s) := change s inserted.entry
    let (before, done) := finish before done inserted.bottom entry
    match more with
    | 0 => .ok ⟨before, done, inserted.top ++ rest⟩
    | more + 1 =>
      convertLoop change baseAddress length fuel s inserted.spare before done (inserted.top ++ rest)
        (more + inserted.top.length)

def mergeable (e adjacent : GcdMapEntry) : Bool :=
  e.capabilities = adjacent.capabilities ∧ e.attributes = adjacent.attributes ∧
    e.gcdMemoryType = adjacent.gcdMemoryType ∧ e.gcdIoType = adjacent.gcdIoType ∧
    e.imageHandle = adjacent.imageHandle ∧ e.deviceHandle = adjacent.deviceHandle

def mergeBackward (before : List GcdMapEntry) (e : GcdMapEntry) : List GcdMapEntry :=
  match before with
  | [] => [e]
  | adjacent :: before =>
    if mergeable e adjacent then { e with baseAddress := adjacent.baseAddress } :: before else e :: adjacent :: before

def mergeForward (e : GcdMapEntry) (after : List GcdMapEntry) : List GcdMapEntry :=
  match after with
  | [] => [e]
  | adjacent :: after =>
    if mergeable e adjacent then { e with endAddress := adjacent.endAddress } :: after else e :: adjacent :: after

def coreCleanupGcdMapEntry (r : Range) : List GcdMapEntry :=
  match r.middle.foldl mergeBackward r.before with
  | [] => r.after
  | last :: before => before.reverse ++ mergeForward last r.after

/-- Split, change and merge the entries of a range. The fuel is one turn for each entry, one for `TopEntry` and one. -/
def changeRange {σ : Type} (change : σ → GcdMapEntry → GcdMapEntry × σ) (s : σ) (baseAddress length : Nat) (r : Range) :
    Except Stop (List GcdMapEntry) := do
  let r ← convertLoop change baseAddress length (r.middle.length + 2) s ⟨true, true⟩ r.before [] (r.middle ++ r.after)
    (r.middle.length - 1)
  pure (coreCleanupGcdMapEntry r)

/-! ### CoreConvertSpace -/

/-- What a call of `CoreConvertSpace` is asked to do. -/
structure Conversion where
  operation : Operation
  gcdMemoryType : GcdMemoryType
  gcdIoType : GcdIoType
  baseAddress : UInt64
  length : UInt64
  capabilities : UInt64
  attributes : UInt64

/-- The services around the map: whether the two allocations of `CoreAllocateGcdMapEntry` succeed, and
    `gCpu->SetMemoryAttributes`, if `gCpu` is not `NULL`. -/
structure Services where
  topEntry : Bool
  bottomEntry : Bool
  setMemoryAttributes : Option (UInt64 → UInt64 → UInt64 → EfiStatus)

def coreAllocateGcdMapEntry (services : Services) : EfiStatus :=
  if services.topEntry ∧ services.bottomEntry then .success else .outOfResources

def checkEntry (c : Conversion) (e : GcdMapEntry) : EfiStatus :=
  match c.operation with
  | .addMemory => if e.gcdMemoryType ≠ .nonExistent ∨ e.imageHandle ≠ none then .accessDenied else .success
  | .addIo => if e.gcdIoType ≠ .nonExistent ∨ e.imageHandle ≠ none then .accessDenied else .success
  | .freeMemory | .freeIo => if e.imageHandle = none then .notFound else .success
  | .removeMemory =>
    if e.gcdMemoryType = .nonExistent then .notFound
    else if e.imageHandle ≠ none then .accessDenied
    else .success
  | .removeIo =>
    if e.gcdIoType = .nonExistent then .notFound
    else if e.imageHandle ≠ none then .accessDenied
    else .success
  | .setAttributesMemory =>
    if c.attributes &&& memoryRuntime ≠ 0 ∧ ¬ (pageAligned c.baseAddress.toNat ∧ pageAligned c.length.toNat) then
      .invalidParameter
    else if e.capabilities &&& c.attributes ≠ c.attributes then .unsupported
    else .success
  | .setCapabilitiesMemory =>
    if ¬ (pageAligned c.baseAddress.toNat ∧ pageAligned c.length.toNat) then .invalidParameter
    else if c.capabilities &&& e.attributes ≠ e.attributes then .unsupported
    else .success
  | .allocateMemory | .allocateIo => .success

def firstError (check : GcdMapEntry → EfiStatus) (entries : List GcdMapEntry) : Option EfiStatus :=
  (entries.map check).find? (· ≠ .success)

def changeEntry (c : Conversion) (attributes : UInt64) (e : GcdMapEntry) : GcdMapEntry × UInt64 :=
  match c.operation with
  | .addMemory =>
    ({ e with
      gcdMemoryType := c.gcdMemoryType
      capabilities :=
        if c.gcdMemoryType = .memoryMappedIo then c.capabilities ||| memoryRuntime ||| memoryPortIo
        else c.capabilities ||| memoryRuntime }, attributes)
  | .addIo => ({ e with gcdIoType := c.gcdIoType }, attributes)
  | .freeMemory | .freeIo => ({ e with imageHandle := none, deviceHandle := none }, attributes)
  | .removeMemory => ({ e with gcdMemoryType := .nonExistent, capabilities := 0 }, attributes)
  | .removeIo => ({ e with gcdIoType := .nonExistent }, attributes)
  | .setAttributesMemory =>
    let attributes :=
      if converToCpuArchAttributes c.attributes = 0 then
        attributes ||| (e.attributes &&& (cacheAttributeMask ||| memoryAttributeMask))
      else attributes
    ({ e with attributes := attributes }, attributes)
  | .setCapabilitiesMemory => ({ e with capabilities := c.capabilities }, attributes)
  | .allocateMemory | .allocateIo => (e, attributes)

def requestAttributes (services : Services) (c : Conversion) : EfiStatus :=
  let cpuArchAttributes := converToCpuArchAttributes c.attributes
  if c.operation = .setAttributesMemory ∧ cpuArchAttributes ≠ 0 then
    match services.setMemoryAttributes with
    | none => .notAvailableYet
    | some set => set c.baseAddress c.length cpuArchAttributes
  else .success

def coreConvertSpace (services : Services) (c : Conversion) (m : GcdMaps) : Except Stop (EfiStatus × GcdMaps) :=
  if c.length = 0 then .ok (.invalidParameter, m)
  else
    match coreSearchGcdMapEntry c.baseAddress.toNat c.length.toNat (m.map c.operation) with
    | none => .ok (.unsupported, m)
    | some r =>
      match firstError (checkEntry c) r.middle with
      | some status => .ok (status, m)
      | none =>
        if coreAllocateGcdMapEntry services ≠ .success then .ok (.outOfResources, m)
        else if requestAttributes services c ≠ .success then .ok (requestAttributes services c, m)
        else do
          let map ← changeRange (changeEntry c) c.attributes c.baseAddress.toNat c.length.toNat r
          pure (.success, m.setMap c.operation map)

/-! ### CoreAllocateSpace -/

/-- What a call of `CoreAllocateSpace` is asked to do. `baseAddress` is `none` for a `NULL` pointer. -/
structure Allocation where
  operation : Operation
  gcdAllocateType : UInt32
  gcdMemoryType : UInt32
  gcdIoType : UInt32
  alignment : UInt64
  length : UInt64
  baseAddress : Option UInt64
  imageHandle : Handle
  deviceHandle : Handle

def coreAllocateSpaceCheckEntry (op : Operation) (gcdMemoryType : GcdMemoryType) (gcdIoType : GcdIoType)
    (e : GcdMapEntry) : EfiStatus :=
  if e.imageHandle ≠ none then .notFound
  else
    match op with
    | .allocateMemory => if e.gcdMemoryType ≠ gcdMemoryType then .notFound else .success
    | .allocateIo => if e.gcdIoType ≠ gcdIoType then .notFound else .success
    | _ => .unsupported

def GcdAllocateType.isTopDown : GcdAllocateType → Bool
  | .maxAddressSearchTopDown | .anySearchTopDown => true
  | .anySearchBottomUp | .maxAddressSearchBottomUp | .address => false

def GcdAllocateType.isBounded : GcdAllocateType → Bool
  | .maxAddressSearchBottomUp | .maxAddressSearchTopDown => true
  | .anySearchBottomUp | .anySearchTopDown | .address => false

def alignDown (alignment value : Nat) : Nat := value / 2 ^ alignment * 2 ^ alignment

inductive Candidate where
  | next
  | fail
  | base (baseAddress : Nat)
deriving DecidableEq, Repr

def candidateTopDown (alignment length maxAddress : Nat) (e : GcdMapEntry) : Candidate :=
  if (e.baseAddress + length) % 2 ^ 64 > maxAddress then .next
  else if length > (e.endAddress + 1) % 2 ^ 64 then .fail
  else
    let top := if e.endAddress > maxAddress then maxAddress else e.endAddress
    .base (alignDown alignment ((top + 1 + (2 ^ 64 - length)) % 2 ^ 64))

def baseBottomUp (alignment : Nat) (e : GcdMapEntry) : Nat :=
  alignDown alignment ((e.baseAddress + (2 ^ alignment - 1)) % 2 ^ 64)

def candidateBottomUp (alignment length maxAddress : Nat) (e : GcdMapEntry) : Candidate :=
  if lastOf (baseBottomUp alignment e) length > maxAddress then .fail else .base (baseBottomUp alignment e)

def linkAfter (topDown : Bool) (count k : Nat) : Option Nat :=
  if topDown then if k = 0 then none else some (k - 1) else if k + 1 < count then some (k + 1) else none

/-- The search loop of `CoreAllocateSpace`: `*BaseAddress` and the range found there. Links are positions in the map. -/
def searchLoop (topDown : Bool) (check : GcdMapEntry → EfiStatus) (candidate : GcdMapEntry → Candidate) (length : Nat)
    (map : List GcdMapEntry) : Nat → Option Nat → Except Stop (Option (Nat × Range))
  | 0, _ => .error .outOfFuel
  | _ + 1, none => .ok none
  | fuel + 1, some k =>
    match map[k]? with
    | none => .ok none
    | some e =>
      let next := linkAfter topDown map.length k
      if check e ≠ .success then searchLoop topDown check candidate length map fuel next
      else
        match candidate e with
        | .next => searchLoop topDown check candidate length map fuel next
        | .fail => .ok none
        | .base baseAddress =>
          match coreSearchGcdMapEntry baseAddress length map with
          | none => .ok none
          | some r =>
            match r.middle.findIdx? (check · ≠ .success) with
            | none => .ok (some (baseAddress, r))
            | some i => searchLoop topDown check candidate length map fuel (some (r.before.length + i))

def findSpace (fuel : Nat) (gcdAllocateType : GcdAllocateType) (check : GcdMapEntry → EfiStatus)
    (alignment length baseAddress : Nat) (map : List GcdMapEntry) : Except Stop (Except EfiStatus (Nat × Range)) :=
  if gcdAllocateType = .address then
    if baseAddress % 2 ^ alignment ≠ 0 then .ok (.error .notFound)
    else
      match coreSearchGcdMapEntry baseAddress length map with
      | none => .ok (.error .notFound)
      | some r =>
        match firstError check r.middle with
        | some status => .ok (.error status)
        | none => .ok (.ok (baseAddress, r))
  else do
    let maxAddress :=
      if gcdAllocateType.isBounded then baseAddress else (map.getLast?.map GcdMapEntry.endAddress).getD 0
    let topDown := gcdAllocateType.isTopDown
    let candidate := if topDown then candidateTopDown alignment length maxAddress
      else candidateBottomUp alignment length maxAddress
    let start := if map = [] then none else if topDown then some (map.length - 1) else some 0
    match ← searchLoop topDown check candidate length map fuel start with
    | none => pure (.error .notFound)
    | some found => pure (.ok found)

def takeSpace (services : Services) (a : Allocation) (m : GcdMaps) (baseAddress : Nat) (r : Range) :
    Except Stop (EfiStatus × Option Nat × GcdMaps) :=
  if coreAllocateGcdMapEntry services ≠ .success then .ok (.outOfResources, none, m)
  else do
    let map ← changeRange (fun (_ : Unit) e =>
      ({ e with imageHandle := a.imageHandle, deviceHandle := a.deviceHandle }, ()))
      () baseAddress a.length.toNat r
    pure (.success, some baseAddress, m.setMap a.operation map)

/-- The result is the status, the base address on success, and the maps. -/
def coreAllocateSpace (fuel : Nat) (services : Services) (a : Allocation) (m : GcdMaps) :
    Except Stop (EfiStatus × Option Nat × GcdMaps) :=
  match gcdAllocateTypeOf a.gcdAllocateType, gcdMemoryTypeOf a.gcdMemoryType, gcdIoTypeOf a.gcdIoType,
    a.baseAddress with
  | some gcdAllocateType, some gcdMemoryType, some gcdIoType, some baseAddress =>
    if a.imageHandle = none then .ok (.invalidParameter, none, m)
    else if a.alignment ≥ 64 then .ok (.notFound, none, m)
    else if a.length = 0 then .ok (.invalidParameter, none, m)
    else do
      let check := coreAllocateSpaceCheckEntry a.operation gcdMemoryType gcdIoType
      match ← findSpace fuel gcdAllocateType check a.alignment.toNat a.length.toNat baseAddress.toNat
        (m.map a.operation) with
      | .error status => pure (status, none, m)
      | .ok (found, r) => takeSpace services a m found r
  | _, _, _, _ => .ok (.invalidParameter, none, m)

end LeoEdk.Gcd
