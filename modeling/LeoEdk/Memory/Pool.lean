import LeoEdk.Memory.PageServices

/-!
The pools of `Pool.c`: for each memory type, lists of free blocks of a few sizes, carved out of pages of its own.

Of its memory the pool reads only the `POOL_HEAD`, `POOL_TAIL` and `POOL_FREE` of a block. The state has them by their
addresses; nothing is known of other contents. Heap guard is off. A buffer that its caller has written beyond is not
modelled.
-/

namespace LeoEdk.Memory

def poolSizeTable : List Nat := [128, 256, 384, 640, 1024, 1664, 2688, 4352, 7040, 11392, 18432, 29824]

def listToSize (index : Nat) : Nat := poolSizeTable.getD index 0

/-- `MAX_POOL_LIST` for what is larger than the last size. -/
def getPoolIndexFromSize (size : Nat) : Nat := poolSizeTable.findIdx fun listed => listed ≥ size

def sizeOfPoolHead : Nat := 24
def sizeOfPoolTail : Nat := 16
def poolOverhead : Nat := sizeOfPoolHead + sizeOfPoolTail

def maxPoolSize : Nat := 2 ^ 64 - 1 - poolOverhead

def sizeOfPool : Nat := 232

def alignVariable (size : Nat) : Nat := (size + (8 - size % 8) % 8) % 2 ^ 64

def adjustedSize (size : Nat) : Nat := (alignVariable size + poolOverhead) % 2 ^ 64

def sizeToPages (size : Nat) : Nat := size / 0x1000 + if size % 0x1000 = 0 then 0 else 1

def poolPages (granularity size : Nat) : Nat :=
  (sizeToPages size + sizeToPages granularity - 1) % 2 ^ 64 / sizeToPages granularity * sizeToPages granularity

inductive Header where
  | free (index : Nat)
  | used (size : Nat) (type : MemoryType)
deriving DecidableEq, Repr

structure Pool where
  used : Nat
  freeList : Nat → List Nat

def emptyPool : Pool := ⟨0, fun _ => []⟩

structure OemPool where
  memoryType : MemoryType
  pool : Pool
  buffer : Nat

structure Region where
  start : Nat
  pages : Nat
  type : MemoryType
deriving DecidableEq, Repr

structure PoolWorld where
  pages : World
  heads : Nat → Option Header
  tails : Nat → Option Nat
  poolHead : MemoryType → Pool
  poolHeadList : List OemPool
  /-- The pages that the pools have got and not given back. The code keeps no such list. -/
  owned : List Region

/-- The state after `CoreInitializePool`. -/
def coreInitializePool (w : World) : PoolWorld where
  pages := w
  heads _ := none
  tails _ := none
  poolHead _ := emptyPool
  poolHeadList := []
  owned := []

/-- Why a call does not come back: a page service does not, an `ASSERT` fails, a loop outlives its fuel, or something is
    read that the pool has not written. -/
inductive PoolStop where
  | pages (stop : Stop)
  | assertion
  | outOfFuel
  | corrupted
deriving DecidableEq, Repr

abbrev PoolM := Prog Platform PoolWorld PoolStop

def paged {α : Type} (m : M α) : PoolM α := fun p s =>
  match m p s.pages with
  | (.ok a, w) => (.ok a, { s with pages := w })
  | (.error stop, w) => (.error (.pages stop), { s with pages := w })

namespace PoolWorld

def oemPool? (s : PoolWorld) (type : MemoryType) : Option OemPool := s.poolHeadList.find? fun o => o.memoryType = type

def poolOf (s : PoolWorld) (type : MemoryType) : Pool :=
  if type < maxMemoryType then s.poolHead type else ((s.oemPool? type).map OemPool.pool).getD emptyPool

def setPool (s : PoolWorld) (type : MemoryType) (pool : Pool) : PoolWorld :=
  if type < maxMemoryType then { s with poolHead := fun t => if t = type then pool else s.poolHead t }
  else { s with poolHeadList := s.poolHeadList.map fun o => if o.memoryType = type then { o with pool := pool } else o }

def setHead (s : PoolWorld) (a : Nat) (header : Header) : PoolWorld :=
  { s with heads := fun b => if b = a then some header else s.heads b }

def setTail (s : PoolWorld) (a size : Nat) : PoolWorld :=
  { s with tails := fun b => if b = a then some size else s.tails b }

def link (s : PoolWorld) (type : MemoryType) (a index : Nat) : PoolWorld :=
  let pool := s.poolOf type
  s.setPool type { pool with freeList := fun i => if i = index then a :: pool.freeList i else pool.freeList i }

def unlink (s : PoolWorld) (type : MemoryType) (a index : Nat) : PoolWorld :=
  let pool := s.poolOf type
  s.setPool type { pool with freeList := fun i => if i = index then (pool.freeList i).erase a else pool.freeList i }

def placeFree (s : PoolWorld) (type : MemoryType) (a index : Nat) : PoolWorld :=
  (s.setHead a (.free index)).link type a index

def placeUsed (s : PoolWorld) (type : MemoryType) (head size : Nat) : PoolWorld :=
  let pool := s.poolOf type
  ((s.setPool type { pool with used := (pool.used + size) % 2 ^ 64 }).setHead head (.used size type)).setTail
    ((head + size + 2 ^ 64 - sizeOfPoolTail) % 2 ^ 64) size

def giveBack (s : PoolWorld) (memory noPages : Nat) : PoolWorld :=
  let gone (a : Nat) : Bool := memory ≤ a ∧ a < memory + noPages * 0x1000
  { s with
    heads := fun a => if gone a then none else s.heads a
    tails := fun a => if gone a then none else s.tails a
    owned := s.owned.filter fun r => r.start ≠ memory }

end PoolWorld

def coreAllocatePoolPagesI (poolType : MemoryType) (noPages granularity : Nat) : PoolM Nat := do
  let start ← paged (coreAllocatePoolPages coreFreeMemoryMapStack poolType noPages granularity)
  if start = 0 then pure 0
  else do
    Prog.modify fun s => { s with owned := ⟨start, noPages, poolType⟩ :: s.owned }
    pure start

/-- The offsets and indices of the free blocks that the rest of a block is carved into; none if an `ASSERT` fails. -/
def carve (maxOffset : Nat) : Nat → Nat → Option (List (Nat × Nat))
  | 0, offset => if offset = maxOffset then some [] else none
  | index + 1, offset =>
    if offset < maxOffset then
      let fSize := listToSize index
      let count := (maxOffset - offset) / fSize
      (carve maxOffset index (offset + count * fSize)).map fun rest =>
        (List.range count).map (fun k => (offset + k * fSize, index)) ++ rest
    else if offset = maxOffset then some []
    else none

def carveUp (poolType : MemoryType) (newPage index offset maxOffset : Nat) : PoolM Unit :=
  match carve maxOffset index offset with
  | some pieces =>
    Prog.modify fun s => pieces.foldl (fun s piece => s.placeFree poolType (newPage + piece.1) piece.2) s
  | none => Prog.halt .assertion

def largerList (pool : Pool) (index limit : Nat) : Option Nat :=
  (List.range limit).find? fun i => index < i ∧ pool.freeList i ≠ []

def takeFree (poolType : MemoryType) (index : Nat) : PoolM Nat := do
  let s ← Prog.get
  let a := ((s.poolOf poolType).freeList index).headD 0
  Prog.modify fun s => s.unlink poolType a index
  pure a

def allocateBlock (poolType : MemoryType) (size : Nat) : PoolM Nat := do
  let p ← Prog.ask id
  let granularity := granularityOf p poolType
  let index := getPoolIndexFromSize size
  let limit := getPoolIndexFromSize granularity
  if limit ≤ index then coreAllocatePoolPagesI poolType (poolPages granularity size) granularity
  else do
    let s ← Prog.get
    if (s.poolOf poolType).freeList index ≠ [] then takeFree poolType index
    else
      match largerList (s.poolOf poolType) index limit with
      | some larger => do
        let newPage ← takeFree poolType larger
        carveUp poolType newPage larger (listToSize index) (listToSize larger)
        pure newPage
      | none => do
        let newPage ← coreAllocatePoolPagesI poolType (sizeToPages granularity) granularity
        if newPage = 0 then pure 0
        else do
          carveUp poolType newPage limit (listToSize index) granularity
          pure newPage

def allocateIn (poolType : MemoryType) (size : Nat) : PoolM (Option Nat) := do
  let head ← allocateBlock poolType size
  if head = 0 then pure none
  else do
    Prog.modify fun s => s.placeUsed poolType head size
    pure (some (head + sizeOfPoolHead))

def lookupPoolHead (memoryType : MemoryType) : PoolM Bool := do
  if memoryType < maxMemoryType then pure true
  else if oemReservedMin ≤ memoryType then do
    let s ← Prog.get
    if (s.oemPool? memoryType).isSome then pure true
    else
      match ← allocateIn bootServicesData (adjustedSize sizeOfPool) with
      | none => pure false
      | some buffer => do
        Prog.modify fun s => { s with poolHeadList := ⟨memoryType, emptyPool, buffer⟩ :: s.poolHeadList }
        pure true
  else pure false

def coreAllocatePoolI (poolType : MemoryType) (size : Nat) : PoolM (Option Nat) := do
  if ← lookupPoolHead poolType then allocateIn poolType (adjustedSize size) else pure none

/-- The status and `*Buffer`. -/
def coreInternalAllocatePool (poolType : MemoryType) (size : UInt64) : PoolM (EfiStatus × Option Nat) :=
  if refusedType poolType then pure (.invalidParameter, none)
  else if size.toNat > maxPoolSize then pure (.outOfResources, none)
  else do
    match ← coreAllocatePoolI poolType size.toNat with
    | some buffer => pure (.success, some buffer)
    | none => pure (.outOfResources, none)

def coreFreePoolPagesI (memory noPages : Nat) : PoolM Unit := do
  let _ ← paged (coreConvertPages coreFreeMemoryMapStack memory noPages conventionalMemory)
  Prog.modify fun s => s.giveBack memory noPages

def allFree (granularity newPage : Nat) : Nat → Nat → PoolM Bool
  | 0, _ => Prog.halt .outOfFuel
  | fuel + 1, offset =>
    if offset < granularity then do
      let s ← Prog.get
      match s.heads (newPage + offset) with
      | some (.free index) => allFree granularity newPage fuel (offset + listToSize index)
      | some (.used _ _) => pure false
      | none => Prog.halt .corrupted
    else pure true

/-- Take the blocks of a page off their lists, from one of them on. A block on no list has links to memory that is
    something else by now. -/
def unlinkAll (poolType : MemoryType) (granularity newPage : Nat) : Nat → Nat → PoolM Unit
  | 0, _ => Prog.halt .outOfFuel
  | fuel + 1, offset =>
    if offset < granularity then do
      let s ← Prog.get
      match s.heads (newPage + offset) with
      | some (.free index) =>
        if newPage + offset ∈ (s.poolOf poolType).freeList index then do
          Prog.modify fun s => s.unlink poolType (newPage + offset) index
          unlinkAll poolType granularity newPage fuel (offset + listToSize index)
        else Prog.halt .corrupted
      | _ => Prog.halt .corrupted
    else pure ()

def releaseSmall (poolType : MemoryType) (granularity head index : Nat) : PoolM Unit := do
  Prog.modify fun s => s.placeFree poolType head index
  let newPage := head / granularity * granularity
  -- No block is empty, so that there are at most as many as bytes.
  if ← allFree granularity newPage (granularity + 1) 0 then do
    unlinkAll poolType granularity newPage (granularity + 1) 0
    coreFreePoolPagesI newPage (sizeToPages granularity)

/-- `CoreFreePoolI` up to the last check of it: the status and the type of the block. -/
def freeBlock (buffer : Nat) : PoolM (EfiStatus × Option MemoryType) := do
  let p ← Prog.ask id
  let head := buffer - sizeOfPoolHead
  let s ← Prog.get
  match s.heads head with
  | some (.used size type) =>
    if s.tails ((head + size + 2 ^ 64 - sizeOfPoolTail) % 2 ^ 64) = some size then do
      if ← lookupPoolHead type then do
        Prog.modify fun s =>
          let pool := s.poolOf type
          s.setPool type { pool with used := (pool.used + 2 ^ 64 - size) % 2 ^ 64 }
        let granularity := granularityOf p type
        let index := getPoolIndexFromSize size
        if getPoolIndexFromSize granularity ≤ index then coreFreePoolPagesI head (poolPages granularity size)
        else releaseSmall type granularity head index
        pure (.success, some type)
      else pure (.invalidParameter, none)
    else Prog.halt .assertion
  | some (.free _) => Prog.halt .assertion
  | none => Prog.halt .corrupted

def dropPool (type : MemoryType) : PoolM Unit := do
  let s ← Prog.get
  if oemReservedMin ≤ type ∧ (s.poolOf type).used = 0 then
    match s.oemPool? type with
    | some o => do
      Prog.modify fun s => { s with poolHeadList := s.poolHeadList.eraseP fun o => o.memoryType = type }
      -- The buffer is of `EfiBootServicesData`, whose pool stays.
      let _ ← freeBlock o.buffer
    | none => pure ()

def coreFreePoolI (buffer : Nat) : PoolM (EfiStatus × Option MemoryType) := do
  let r ← freeBlock buffer
  match r.2 with
  | some type => do
    dropPool type
    pure r
  | none => pure r

/-- The status and `*PoolType`. -/
def coreInternalFreePool (buffer : Nat) : PoolM (EfiStatus × Option MemoryType) :=
  if buffer = 0 then pure (.invalidParameter, none) else coreFreePoolI buffer

end LeoEdk.Memory
