import LeoEdk.Memory.Pool
import LeoEdk.Theorems.PageAllocation

/-! The blocks of the pools. `Stands` is the invariant: each page is tiled by blocks, each block has its head, a free
    one is on one list, one in use has its tail, and the pools count what is in use. Every change replaces the blocks
    of a zone (`Changed`). -/

namespace LeoEdk.Memory

open Layout Prog List

section Sizes

variable {granularity index size : Nat}

theorem listToSize_pos (lt : index < 12) : 0 < listToSize index ∧ listToSize index % 128 = 0 :=
  (by decide : ∀ i < 12, 0 < listToSize i ∧ listToSize i % 128 = 0) index lt

theorem le_listToSize (lt : getPoolIndexFromSize size < 12) : size ≤ listToSize (getPoolIndexFromSize size) := by
  have found : decide (poolSizeTable[getPoolIndexFromSize size] ≥ size) = true := findIdx_getElem (w := lt)
  rw [listToSize, getD_eq_getElem?_getD, List.getElem?_eq_getElem lt]
  exact of_decide_eq_true found

theorem le_sizeToPages : size ≤ sizeToPages size * 0x1000 ∧ sizeToPages size * 0x1000 < size + 0x1000 := by
  rw [sizeToPages]
  split <;> omega

theorem listToSize_mono {larger : Nat} (lt : larger < 12) (le : index ≤ larger) :
    listToSize index ≤ listToSize larger :=
  (by decide : ∀ j < 12, ∀ i ≤ j, listToSize i ≤ listToSize j) larger lt index le

variable (granular : Granular granularity)
include granular

theorem limit_le : getPoolIndexFromSize granularity ≤ 12 := by
  rcases granular with rfl | rfl <;> decide

theorem listToSize_le (lt : index < getPoolIndexFromSize granularity) : listToSize index ≤ granularity := by
  rcases granular with rfl | rfl
  · exact (by decide : ∀ i < 7, listToSize i ≤ 0x1000) index lt
  · exact (by decide : ∀ i < 12, listToSize i ≤ 0x10000) index lt

theorem sizeToPages_granularity : sizeToPages granularity * 0x1000 = granularity := by
  rcases granular with rfl | rfl <;> decide

theorem poolPages_spec (lt : size < 2 ^ 64) :
    size ≤ poolPages granularity size * 0x1000 ∧ poolPages granularity size * 0x1000 % granularity = 0 ∧
      poolPages granularity size * 0x1000 < size + granularity := by
  obtain ⟨le, lt'⟩ := @le_sizeToPages size
  rw [poolPages]
  generalize sizeToPages size = pages at *
  rcases granular with rfl | rfl
  · rw [(by decide : sizeToPages 0x1000 = 1)]
    omega
  · rw [(by decide : sizeToPages 0x10000 = 16)]
    omega

end Sizes

/-! ### Carving -/

section Carve

variable {index offset maxOffset : Nat}

/-- A piece is an offset and the index of its size. -/
def pieceLayout : Layout (Nat × Nat) Nat where
  first piece := piece.1
  next piece := piece.1 + listToSize piece.2
  value piece := piece.2

theorem tiles_carveBin (pos : 0 < listToSize index) (count : Nat) :
    pieceLayout.Tiles offset (offset + count * listToSize index)
      ((List.range count).map fun k => (offset + k * listToSize index, index)) := by
  induction count with
  | zero => simp [Tiles]
  | succ count ih =>
    rw [range_succ, map_append, Nat.succ_mul, ← Nat.add_assoc]
    exact ih.append ⟨rfl, Nat.lt_add_of_pos_right pos, rfl⟩

/-- Carving succeeds, and the pieces fill the room. -/
theorem carve_tiles (listed : index ≤ 12) (some_ : 0 < index ∨ offset = maxOffset) (le : offset ≤ maxOffset)
    (whole : 128 ∣ maxOffset - offset) :
    ∃ pieces, carve maxOffset index offset = some pieces ∧ pieceLayout.Tiles offset maxOffset pieces ∧
      ∀ piece ∈ pieces, piece.2 < index := by
  induction index generalizing offset with
  | zero =>
    have same := some_.resolve_left (Nat.lt_irrefl 0)
    exact ⟨[], if_pos same, same, nofun⟩
  | succ index ih =>
    rcases Nat.lt_or_eq_of_le le with lt | same
    · obtain ⟨pos, multiple⟩ := listToSize_pos (Nat.lt_of_succ_le listed)
      have fits := Nat.div_mul_le_self (maxOffset - offset) (listToSize index)
      have rest : maxOffset - (offset + (maxOffset - offset) / listToSize index * listToSize index) =
          maxOffset - offset - (maxOffset - offset) / listToSize index * listToSize index := by omega
      have whole' : 128 ∣ maxOffset - (offset + (maxOffset - offset) / listToSize index * listToSize index) := by
        rw [rest]
        exact Nat.dvd_sub whole (Nat.dvd_mul_left_of_dvd (Nat.dvd_of_mod_eq_zero multiple) _)
      have smallest : 0 < index ∨ offset + (maxOffset - offset) / listToSize index * listToSize index = maxOffset := by
        rcases Nat.eq_zero_or_pos index with rfl | more
        · have all : (maxOffset - offset) / listToSize 0 * listToSize 0 = maxOffset - offset := Nat.div_mul_cancel whole
          exact .inr (by omega)
        · exact .inl more
      obtain ⟨pieces, carved, tiles, smaller⟩ := ih (by omega) smallest (by omega) whole'
      refine ⟨_, ?_, (tiles_carveBin pos _).append tiles, fun piece mem => ?_⟩
      · rw [carve, if_pos lt]
        dsimp only
        rw [carved, Option.map_some]
      · rcases mem_append.mp mem with here | later
        · obtain ⟨k, _, rfl⟩ := mem_map.mp here
          exact Nat.lt_succ_self index
        · exact Nat.lt_succ_of_lt (smaller piece later)
    · subst same
      exact ⟨[], by rw [carve, if_neg (Nat.lt_irrefl _), if_pos rfl], rfl, nofun⟩

end Carve

structure Block where
  start : Nat
  header : Header
deriving DecidableEq, Repr

/-- What a block takes up: the size of its list, or whole pages. -/
def blockLength (p : Platform) (type : MemoryType) : Header → Nat
  | .free index => listToSize index
  | .used size _ =>
    if getPoolIndexFromSize (granularityOf p type) ≤ getPoolIndexFromSize size then
      poolPages (granularityOf p type) size * 0x1000
    else listToSize (getPoolIndexFromSize size)

def blockLayout (p : Platform) (type : MemoryType) : Layout Block Header where
  first b := b.start
  next b := b.start + blockLength p type b.header
  value b := b.header

/-- Pages that a pool has got, and the blocks they are divided into. -/
structure Arena where
  type : MemoryType
  start : Nat
  pages : Nat
  blocks : List Block

def arenaLayout : Layout Arena MemoryType where
  first A := A.start
  next A := A.start + A.pages * 0x1000
  value A := A.type

def Arena.region (A : Arena) : Region := ⟨A.start, A.pages, A.type⟩

def Header.Small (p : Platform) (type : MemoryType) : Header → Prop
  | .free index => index < getPoolIndexFromSize (granularityOf p type)
  | .used size t =>
    getPoolIndexFromSize size < getPoolIndexFromSize (granularityOf p type) ∧ poolOverhead ≤ size ∧
      size < 2 ^ 64 ∧ t = type

/-- One granule, divided into small blocks. -/
def Arena.Carved (p : Platform) (A : Arena) : Prop :=
  A.pages * 0x1000 = granularityOf p A.type ∧ A.start % granularityOf p A.type = 0 ∧
    ∀ b ∈ A.blocks, b.header.Small p A.type

/-- One block that has the pages to itself. -/
def Arena.Whole (p : Platform) (A : Arena) : Prop :=
  ∃ size, A.blocks = [⟨A.start, .used size A.type⟩] ∧
    getPoolIndexFromSize (granularityOf p A.type) ≤ getPoolIndexFromSize size ∧ poolOverhead ≤ size ∧ size < 2 ^ 64

structure Arena.Sound (p : Platform) (A : Arena) : Prop where
  used : A.type ≠ conventionalMemory
  tiles : (blockLayout p A.type).Tiles A.start (A.start + A.pages * 0x1000) A.blocks
  shape : A.Carved p ∨ A.Whole p
  busy : ∃ b ∈ A.blocks, ∃ size, b.header = .used size A.type
  nonzero : A.start ≠ 0
  valid : A.type < maxMemoryType ∨ oemReservedMin ≤ A.type

def BlockAt (arenas : List Arena) (type : MemoryType) (b : Block) : Prop := ∃ A ∈ arenas, A.type = type ∧ b ∈ A.blocks

def Header.usedSize : Header → Nat
  | .free _ => 0
  | .used size _ => size

def usedBytes (bs : List Block) : Nat := (bs.map fun b => b.header.usedSize).sum

def usedSum (arenas : List Arena) (type : MemoryType) : Nat :=
  (arenas.map fun A => if A.type = type then usedBytes A.blocks else 0).sum

def PoolWorld.names (s : PoolWorld) : List (MemoryType × Nat) := s.poolHeadList.map fun o => (o.memoryType, o.buffer)

/-- Headers, tails, free lists and counters are those of the blocks of the arenas. -/
structure Stands (p : Platform) (s : PoolWorld) (arenas : List Arena) : Prop where
  intact : Intact p s.pages
  owned : s.owned = arenas.map Arena.region
  paged : ∀ A ∈ arenas, ∀ a, arenaLayout.Covers A a → ∃ attributes, s.pages.at a = some (A.type, attributes)
  apart : arenas.Pairwise arenaLayout.Apart
  sound : ∀ A ∈ arenas, A.Sound p
  heads : ∀ t b, BlockAt arenas t b → s.heads b.start = some b.header
  tails : ∀ t a size, BlockAt arenas t ⟨a, .used size t⟩ → s.tails (a + size - sizeOfPoolTail) = some size
  lists : ∀ t index a, a ∈ (s.poolOf t).freeList index ↔ BlockAt arenas t ⟨a, .free index⟩
  nodup : ∀ t index, ((s.poolOf t).freeList index).Nodup
  used : ∀ t, (s.poolOf t).used = usedSum arenas t % 2 ^ 64
  types : (s.names.map Prod.fst).Nodup

section Blocks

variable {p : Platform} {s s' : PoolWorld} {A B : Arena} {arenas before after : List Arena} {t t' : MemoryType}
  {b c : Block} {x : Nat}

theorem le_blockLength {size : Nat} (lt : size < 2 ^ 64) : size ≤ blockLength p t (.used size t') := by
  rw [blockLength]
  split
  next => exact (poolPages_spec granular_granularityOf lt).1
  next listed => exact le_listToSize (Nat.lt_of_lt_of_le (Nat.not_le.mp listed) (limit_le granular_granularityOf))

section Sound

variable (sound : A.Sound p)
include sound

theorem Arena.Sound.pos : 0 < A.pages * 0x1000 := by
  obtain ⟨b, mem, _⟩ := sound.busy
  obtain ⟨le, lt, le'⟩ := sound.tiles.bounds mem
  have := Nat.lt_of_le_of_lt le (Nat.lt_of_lt_of_le lt le')
  omega

theorem Arena.Sound.covers (mem : b ∈ A.blocks) (covers : (blockLayout p A.type).Covers b x) :
    arenaLayout.Covers A x := by
  obtain ⟨le, _, le'⟩ := sound.tiles.bounds mem
  exact ⟨Nat.le_trans le covers.1, Nat.lt_of_lt_of_le covers.2 le'⟩

theorem Arena.Sound.covers_start (mem : b ∈ A.blocks) : (blockLayout p A.type).Covers b b.start :=
  ⟨Nat.le_refl _, (sound.tiles.bounds mem).2.1⟩

theorem overhead_le_usedSize {size : Nat} (mem : b ∈ A.blocks) (header : b.header = .used size t) :
    poolOverhead ≤ size ∧ size < 2 ^ 64 ∧ t = A.type := by
  rcases sound.shape with ⟨_, _, small⟩ | ⟨size', whole, _, enough, lt⟩
  · have here := small b mem
    rw [header] at here
    exact here.2
  · rw [whole] at mem
    cases mem_singleton.mp mem
    cases header
    exact ⟨enough, lt, rfl⟩

theorem usedSize_le (mem : b ∈ A.blocks) : b.header.usedSize ≤ blockLength p A.type b.header := by
  obtain ⟨a, header⟩ := b
  cases header with
  | free index => exact Nat.zero_le _
  | used size t => exact le_blockLength (overhead_le_usedSize sound mem rfl).2.1

theorem usedBytes_le : usedBytes A.blocks ≤ A.pages * 0x1000 := by
  have total := sound.tiles.sum_length
  have le : usedBytes A.blocks ≤
      (A.blocks.map fun b => (blockLayout p A.type).next b - (blockLayout p A.type).first b).sum := by
    refine sum_le_sum fun b mem => Nat.le_trans (usedSize_le sound mem) ?_
    change _ ≤ b.start + blockLength p A.type b.header - b.start
    omega
  omega

end Sound

variable (stands : Stands p s arenas)
include stands

theorem Stands.once (a : Nat) : arenaLayout.hits anyValue arenas a ≤ 1 :=
  (pairwise_apart_iff fun A mem => Nat.lt_add_of_pos_right (stands.sound A mem).pos).mp stands.apart a

/-- No address lies in two blocks. -/
theorem Stands.unique (memA : A ∈ arenas) (memB : B ∈ arenas) (memb : b ∈ A.blocks)
    (memc : c ∈ B.blocks) (covers : (blockLayout p A.type).Covers b x) (covers' : (blockLayout p B.type).Covers c x) :
    A = B ∧ b = c := by
  have same : A = B := eq_of_covers (stands.once x) memA memB ((stands.sound A memA).covers memb covers)
    ((stands.sound B memB).covers memc covers')
  subst same
  exact ⟨rfl, eq_of_covers (stands.sound A memA).tiles.once memb memc covers covers'⟩

theorem Stands.header_eq {t t' : MemoryType} (atB : BlockAt arenas t b) (atC : BlockAt arenas t' c)
    (same : b.start = c.start) : b.header = c.header := by
  have here := stands.heads t b atB
  rw [same, stands.heads t' c atC] at here
  exact (Option.some.inj here).symm

theorem Stands.below (mem : A ∈ arenas) : A.start + A.pages * 0x1000 < 2 ^ 64 := by
  have pos := (stands.sound A mem).pos
  obtain ⟨_, here⟩ := stands.paged A mem (A.start + A.pages * 0x1000 - 1)
    ⟨by change A.start ≤ _; omega, by change _ < A.start + A.pages * 0x1000; omega⟩
  obtain ⟨e, memE, covers, _⟩ := exists_of_valueAt here
  have := (stands.intact.sound e memE).2.2.2
  have : A.start + A.pages * 0x1000 - 1 < e.last + 1 := covers.2
  omega

theorem Stands.used_lt (t : MemoryType) : (s.poolOf t).used < 2 ^ 64 := by
  rw [stands.used]
  exact Nat.mod_lt _ (by decide)

theorem Stands.usedSum_lt (t : MemoryType) : usedSum arenas t < 2 ^ 64 := by
  have total : (arenas.map fun A => arenaLayout.next A - arenaLayout.first A).sum ≤ 2 ^ 64 - 1 :=
    sum_length_le stands.once fun A mem => Nat.le_sub_one_of_lt (stands.below mem)
  have le : usedSum arenas t ≤ (arenas.map fun A => arenaLayout.next A - arenaLayout.first A).sum := by
    refine sum_le_sum fun A mem => ?_
    have := usedBytes_le (stands.sound A mem)
    change (if A.type = t then usedBytes A.blocks else 0) ≤ A.start + A.pages * 0x1000 - A.start
    split <;> omega
  exact Nat.lt_of_le_of_lt (Nat.le_trans le total) (by decide)

theorem Stands.usedSum_pos (mem : A ∈ arenas) : 0 < usedSum arenas A.type := by
  have sound := stands.sound A mem
  obtain ⟨b, memb, size, header⟩ := sound.busy
  have enough := (overhead_le_usedSize sound memb header).1
  have inBlocks : b.header.usedSize ≤ usedBytes A.blocks :=
    le_sum_of_mem (mem_map_of_mem memb)
  have inArenas : (if A.type = A.type then usedBytes A.blocks else 0) ≤ usedSum arenas A.type :=
    le_sum_of_mem (mem_map_of_mem (f := fun B : Arena => if B.type = A.type then usedBytes B.blocks else 0) mem)
  rw [if_pos rfl] at inArenas
  rw [header, Header.usedSize] at inBlocks
  rw [poolOverhead, sizeOfPoolHead, sizeOfPoolTail] at enough
  omega

end Blocks

/-! ### The pools of a state -/

/-- The pool of the type exists. -/
def PoolWorld.Known (s : PoolWorld) (t : MemoryType) : Prop :=
  t < maxMemoryType ∨ (oemReservedMin ≤ t ∧ t ∈ s.names.map Prod.fst)

/-- Nothing but the pool of the type, headers and tails has changed. -/
structure Aside (t : MemoryType) (s s' : PoolWorld) : Prop where
  pages : s'.pages = s.pages
  owned : s'.owned = s.owned
  names : s'.names = s.names
  others : ∀ t', t' ≠ t → s'.poolOf t' = s.poolOf t'

section Pools

variable {s s' s'' : PoolWorld} {t t' : MemoryType} {pool : Pool} {a index size : Nat}

theorem Aside.refl (s : PoolWorld) : Aside t s s := ⟨rfl, rfl, rfl, fun _ _ => rfl⟩

theorem Aside.trans (first : Aside t s s') (next : Aside t s' s'') : Aside t s s'' :=
  ⟨next.pages.trans first.pages, next.owned.trans first.owned, next.names.trans first.names,
    fun t' ne => (next.others t' ne).trans (first.others t' ne)⟩

theorem Aside.known (aside : Aside t s s') (known : s.Known t') : s'.Known t' := by
  rw [PoolWorld.Known, aside.names]
  exact known

theorem oemPool?_isSome : (s.oemPool? t).isSome = true ↔ t ∈ s.names.map Prod.fst := by
  simp [PoolWorld.oemPool?, PoolWorld.names, List.find?_isSome]

theorem find?_setPool (list : List OemPool) :
    ((list.map fun o => if o.memoryType = t then { o with pool := pool } else o).find? fun o => o.memoryType = t') =
      (list.find? fun o => o.memoryType = t').map fun o => if o.memoryType = t then { o with pool := pool } else o := by
  rw [List.find?_map]
  congr 2
  funext o
  dsimp only [Function.comp]
  split <;> rfl

theorem poolOf_setPool (known : s.Known t) : (s.setPool t pool).poolOf t = pool := by
  by_cases named : t < maxMemoryType
  · simp [PoolWorld.setPool, PoolWorld.poolOf, named]
  · obtain ⟨o, found⟩ := Option.isSome_iff_exists.mp (oemPool?_isSome.mpr (known.resolve_left named).2)
    have type : o.memoryType = t := by simpa using List.find?_some found
    have found' : (s.poolHeadList.find? fun o => o.memoryType = t) = some o := found
    rw [PoolWorld.setPool, if_neg named, PoolWorld.poolOf, if_neg named, PoolWorld.oemPool?, find?_setPool, found']
    simp [type]

theorem poolOf_setPool_ne (ne : t' ≠ t) : (s.setPool t pool).poolOf t' = s.poolOf t' := by
  by_cases named : t < maxMemoryType
  · rw [PoolWorld.setPool, if_pos named, PoolWorld.poolOf, PoolWorld.poolOf]
    simp only [if_neg ne]
    rfl
  · rw [PoolWorld.setPool, if_neg named, PoolWorld.poolOf, PoolWorld.poolOf]
    dsimp only [PoolWorld.oemPool?]
    rw [find?_setPool]
    cases found : s.poolHeadList.find? fun o => o.memoryType = t' with
    | none => rfl
    | some o =>
      have type : o.memoryType = t' := by simpa using List.find?_some found
      simp [type, ne]

theorem aside_setPool : Aside t s (s.setPool t pool) where
  pages := by
    rw [PoolWorld.setPool]
    split <;> rfl
  owned := by
    rw [PoolWorld.setPool]
    split <;> rfl
  names := by
    rw [PoolWorld.setPool, PoolWorld.names]
    split
    · rfl
    · rw [map_map]
      refine map_congr_left fun o _ => ?_
      dsimp only [Function.comp]
      split <;> rfl
  others _ := poolOf_setPool_ne

@[simp] theorem heads_setPool : (s.setPool t pool).heads = s.heads := by
  rw [PoolWorld.setPool]
  split <;> rfl

@[simp] theorem tails_setPool : (s.setPool t pool).tails = s.tails := by
  rw [PoolWorld.setPool]
  split <;> rfl

theorem aside_setHead {header : Header} : Aside t s (s.setHead a header) := ⟨rfl, rfl, rfl, fun _ _ => rfl⟩

theorem aside_setTail : Aside t s (s.setTail a size) := ⟨rfl, rfl, rfl, fun _ _ => rfl⟩

theorem aside_link : Aside t s (s.link t a index) := aside_setPool

theorem aside_unlink : Aside t s (s.unlink t a index) := aside_setPool

theorem aside_placeFree : Aside t s (s.placeFree t a index) := aside_setHead.trans aside_link

theorem aside_placeUsed : Aside t s (s.placeUsed t a size) := (aside_setPool.trans aside_setHead).trans aside_setTail

structure PlacedFree (t : MemoryType) (a index : Nat) (s s' : PoolWorld) : Prop where
  aside : Aside t s s'
  heads : ∀ x, s'.heads x = if x = a then some (.free index) else s.heads x
  tails : s'.tails = s.tails
  used : (s'.poolOf t).used = (s.poolOf t).used
  lists : ∀ i, (s'.poolOf t).freeList i = if i = index then a :: (s.poolOf t).freeList i else (s.poolOf t).freeList i

theorem placedFree (known : s.Known t) : PlacedFree t a index s (s.placeFree t a index) := by
  have known' : (s.setHead a (.free index)).Known t := known
  refine ⟨aside_placeFree, fun x => ?_, ?_, ?_, fun i => ?_⟩
  all_goals rw [PoolWorld.placeFree, PoolWorld.link]
  · rw [heads_setPool]
    rfl
  · rw [tails_setPool]
    rfl
  · rw [poolOf_setPool known']
    rfl
  · rw [poolOf_setPool known']
    rfl

theorem poolOf_unlink (known : s.Known t) : ((s.unlink t a index).poolOf t).used = (s.poolOf t).used ∧
    ∀ i, ((s.unlink t a index).poolOf t).freeList i =
      if i = index then ((s.poolOf t).freeList i).erase a else (s.poolOf t).freeList i := by
  rw [PoolWorld.unlink, poolOf_setPool known]
  exact ⟨rfl, fun _ => rfl⟩

theorem mem_unlink {i x : Nat} (known : s.Known t) (nodup : ((s.poolOf t).freeList i).Nodup) :
    x ∈ ((s.unlink t a index).poolOf t).freeList i ↔
      x ∈ (s.poolOf t).freeList i ∧ (⟨x, .free i⟩ : Block) ≠ ⟨a, .free index⟩ := by
  rw [(poolOf_unlink known).2]
  split
  next same =>
    rw [nodup.mem_erase_iff, same]
    simp [and_comm]
  next other => simp [other]

theorem nodup_unlink {i : Nat} (known : s.Known t) (nodup : ((s.poolOf t).freeList i).Nodup) :
    (((s.unlink t a index).poolOf t).freeList i).Nodup := by
  rw [(poolOf_unlink known).2]
  split
  · exact nodup.erase _
  · exact nodup

theorem poolOf_placeUsed (known : s.Known t) :
    ((s.placeUsed t a size).poolOf t).used = ((s.poolOf t).used + size) % 2 ^ 64 ∧
    ((s.placeUsed t a size).poolOf t).freeList = (s.poolOf t).freeList := by
  change ((s.setPool t _).poolOf t).used = _ ∧ ((s.setPool t _).poolOf t).freeList = _
  rw [poolOf_setPool known]
  exact ⟨rfl, rfl⟩

theorem heads_placeUsed (x : Nat) :
    (s.placeUsed t a size).heads x = if x = a then some (.used size t) else s.heads x := by
  rw [PoolWorld.placeUsed]
  dsimp only [PoolWorld.setTail, PoolWorld.setHead]
  rw [heads_setPool]

theorem tails_placeUsed (x : Nat) : (s.placeUsed t a size).tails x =
    if x = (a + size + 2 ^ 64 - sizeOfPoolTail) % 2 ^ 64 then some size else s.tails x := by
  rw [PoolWorld.placeUsed]
  dsimp only [PoolWorld.setTail, PoolWorld.setHead]
  rw [tails_setPool]

/-- The pieces have been put on the free lists. -/
structure Placed (t : MemoryType) (page : Nat) (pieces : List (Nat × Nat)) (s s' : PoolWorld) : Prop where
  aside : Aside t s s'
  heads : ∀ piece ∈ pieces, s'.heads (page + piece.1) = some (.free piece.2)
  otherHeads : ∀ x, (∀ piece ∈ pieces, page + piece.1 ≠ x) → s'.heads x = s.heads x
  tails : s'.tails = s.tails
  used : (s'.poolOf t).used = (s.poolOf t).used
  lists : ∀ i x, x ∈ (s'.poolOf t).freeList i ↔
    (∃ piece ∈ pieces, piece.2 = i ∧ page + piece.1 = x) ∨ x ∈ (s.poolOf t).freeList i
  nodup : ∀ i, ((s.poolOf t).freeList i).Nodup → (∀ piece ∈ pieces, page + piece.1 ∉ (s.poolOf t).freeList i) →
    ((s'.poolOf t).freeList i).Nodup

theorem placed_foldl {page : Nat} {pieces : List (Nat × Nat)} (known : s.Known t)
    (distinct : (pieces.map Prod.fst).Nodup) :
    Placed t page pieces s (pieces.foldl (fun s piece => s.placeFree t (page + piece.1) piece.2) s) := by
  induction pieces generalizing s with
  | nil => exact ⟨.refl s, nofun, fun _ _ => rfl, rfl, rfl, by simp, fun _ nodup _ => nodup⟩
  | cons piece rest ih =>
    rw [map_cons, nodup_cons] at distinct
    obtain ⟨fresh, distinct'⟩ := distinct
    have first : PlacedFree t (page + piece.1) piece.2 s _ := placedFree known
    have others : ∀ other ∈ rest, page + other.1 ≠ page + piece.1 := by
      intro other mem same
      exact fresh (mem_map.mpr ⟨other, mem, Nat.add_left_cancel same⟩)
    obtain ⟨aside, heads, otherHeads, tails, used, lists, nodup⟩ := ih (first.aside.known known) distinct'
    refine ⟨first.aside.trans aside, ?_, fun x out => ?_, tails.trans first.tails, used.trans first.used,
      fun i x => ?_, fun i nodup' out => ?_⟩
    · refine forall_mem_cons.mpr ⟨?_, heads⟩
      rw [foldl_cons, otherHeads _ others, first.heads, if_pos rfl]
    · rw [foldl_cons, otherHeads x fun q mem => out q (mem_cons_of_mem piece mem), first.heads,
        if_neg fun same => out piece mem_cons_self same.symm]
    · rw [foldl_cons, lists, first.lists]
      simp only [exists_mem_cons_iff]
      split
      next same =>
        rw [mem_cons, same]
        constructor
        · rintro (later | here | before)
          · exact .inl (.inr later)
          · exact .inl (.inl ⟨rfl, here.symm⟩)
          · exact .inr before
        · rintro ((⟨_, here⟩ | later) | before)
          · exact .inr (.inl here.symm)
          · exact .inl later
          · exact .inr (.inr before)
      next other =>
        constructor
        · rintro (later | before)
          · exact .inl (.inr later)
          · exact .inr before
        · rintro ((⟨here, _⟩ | later) | before)
          · exact absurd here.symm other
          · exact .inl later
          · exact .inr before
    · rw [foldl_cons]
      refine nodup i ?_ fun q mem => ?_
      · rw [first.lists]
        split
        · exact nodup_cons.mpr ⟨out piece mem_cons_self, nodup'⟩
        · exact nodup'
      · rw [first.lists]
        have := out q (mem_cons_of_mem piece mem)
        split
        · exact fun mem' => (mem_cons.mp mem').elim (others q mem) this
        · exact this

end Pools

/-! ### What happens to the blocks -/

section Changes

variable {p : Platform} {s s' : PoolWorld} {A : Arena} {arenas before after : List Arena} {t : MemoryType}
  {b c : Block} {pre post new : List Block}

theorem usedSum_append (left right : List Arena) : usedSum (left ++ right) t = usedSum left t + usedSum right t := by
  rw [usedSum, map_append, sum_append]
  rfl

theorem usedSum_cons (arenas : List Arena) :
    usedSum (A :: arenas) t = (if A.type = t then usedBytes A.blocks else 0) + usedSum arenas t := by
  rw [usedSum, map_cons, sum_cons]
  rfl

theorem usedBytes_append (left right : List Block) : usedBytes (left ++ right) = usedBytes left + usedBytes right := by
  rw [usedBytes, map_append, sum_append]
  rfl

theorem usedBytes_cons (bs : List Block) : usedBytes (b :: bs) = b.header.usedSize + usedBytes bs := by
  rw [usedBytes, map_cons, sum_cons]
  rfl

def Arena.redrawn (A : Arena) (blocks : List Block) : Arena := { A with blocks := blocks }

theorem Stands.mem_others {B : Arena} (mem : B ∈ before ++ after) : B ∈ before ++ A :: after := by
  rcases mem_append.mp mem with mem | mem <;> simp [mem]

theorem blockAt_cons : BlockAt (A :: arenas) t c ↔ (t = A.type ∧ c ∈ A.blocks) ∨ BlockAt arenas t c := by
  constructor
  · rintro ⟨B, mem, type, memc⟩
    rcases mem_cons.mp mem with rfl | mem
    · exact .inl ⟨type.symm, memc⟩
    · exact .inr ⟨B, mem, type, memc⟩
  · rintro (⟨type, memc⟩ | ⟨B, mem, type, memc⟩)
    · exact ⟨A, mem_cons_self, type.symm, memc⟩
    · exact ⟨B, mem_cons_of_mem A mem, type, memc⟩

theorem blockAt_middle : BlockAt (before ++ A :: after) t c ↔ (t = A.type ∧ c ∈ A.blocks) ∨
    BlockAt (before ++ after) t c := by
  have same : ∀ B, B ∈ before ++ A :: after ↔ B ∈ A :: (before ++ after) := fun B => by simp [or_left_comm]
  rw [← blockAt_cons]
  exact ⟨fun ⟨B, mem, rest⟩ => ⟨B, (same B).mp mem, rest⟩, fun ⟨B, mem, rest⟩ => ⟨B, (same B).mpr mem, rest⟩⟩

theorem mem_redrawn {lo hi : Nat} (tiles : (blockLayout p t).Tiles lo hi (pre ++ b :: post)) :
    c ∈ pre ++ new ++ post ↔ c ∈ new ∨ (c ∈ pre ++ b :: post ∧ c.start ≠ b.start) := by
  obtain ⟨mid, left, start, pos, right⟩ := tiles_append.mp tiles
  have front : c ∈ pre → c.start ≠ b.start := by
    intro inPre same
    have bounds := left.bounds inPre
    have : c.start < mid := Nat.lt_of_lt_of_le bounds.2.1 bounds.2.2
    have : b.start = mid := start
    omega
  have back : c ∈ post → c.start ≠ b.start := by
    intro inPost same
    have : b.start < c.start := Nat.lt_of_lt_of_le pos (right.bounds inPost).1
    omega
  simp only [mem_append, mem_cons]
  constructor
  · rintro ((inPre | inNew) | inPost)
    · exact .inr ⟨.inl inPre, front inPre⟩
    · exact .inl inNew
    · exact .inr ⟨.inr (.inr inPost), back inPost⟩
  · rintro (inNew | ⟨inPre | rfl | inPost, ne⟩)
    · exact .inl (.inr inNew)
    · exact .inl (.inl inPre)
    · exact absurd rfl ne
    · exact .inr inPost

theorem Stands.tail_covers {size a : Nat} (stands : Stands p s arenas) (at_ : BlockAt arenas t ⟨a, .used size t⟩) :
    (blockLayout p t).Covers ⟨a, .used size t⟩ (a + size - sizeOfPoolTail) := by
  obtain ⟨A, mem, rfl, memb⟩ := at_
  have enough := (overhead_le_usedSize (stands.sound A mem) memb rfl).1
  have le := usedSize_le (stands.sound A mem) memb
  rw [Header.usedSize] at le
  rw [poolOverhead, sizeOfPoolHead, sizeOfPoolTail] at enough
  exact ⟨by change a ≤ _; rw [sizeOfPoolTail]; omega, by change _ < a + _; rw [sizeOfPoolTail]; omega⟩

theorem Stands.covers_at (stands : Stands p s arenas) (at_ : BlockAt arenas t b) :
    (blockLayout p t).Covers b b.start := by
  obtain ⟨A, mem, rfl, memb⟩ := at_
  exact (stands.sound A mem).covers_start memb

/-- In a zone of the memory the blocks of type `t` are now `new`, and all else is as it was. -/
structure Changed (t : MemoryType) (zone : Nat → Prop) (new : List Block) (s s' : PoolWorld) : Prop where
  names : s'.names = s.names
  others : ∀ t', t' ≠ t → s'.poolOf t' = s.poolOf t'
  heads : ∀ c ∈ new, s'.heads c.start = some c.header
  otherHeads : ∀ x, ¬ zone x → s'.heads x = s.heads x
  tails : ∀ a size, (⟨a, .used size t⟩ : Block) ∈ new → s'.tails (a + size - sizeOfPoolTail) = some size
  otherTails : ∀ x, ¬ zone x → s'.tails x = s.tails x
  lists : ∀ index x, x ∈ (s'.poolOf t).freeList index ↔
    ⟨x, .free index⟩ ∈ new ∨ (x ∈ (s.poolOf t).freeList index ∧ ¬ zone x)
  nodup : ∀ index, ((s'.poolOf t).freeList index).Nodup

/-- The blocks in one zone have changed. -/
theorem Stands.change {arenas' : List Arena} {zone : Nat → Prop} {g : Nat} (stands : Stands p s arenas)
    (changed : Changed t zone new s s') (intact : Intact p s'.pages) (owned : s'.owned = arenas'.map Arena.region)
    (paged : ∀ A ∈ arenas', ∀ a, arenaLayout.Covers A a → ∃ attributes, s'.pages.at a = some (A.type, attributes))
    (apart : arenas'.Pairwise arenaLayout.Apart) (sound : ∀ A ∈ arenas', A.Sound p)
    (blocks : ∀ t' c, BlockAt arenas' t' c ↔ (t' = t ∧ c ∈ new) ∨ (BlockAt arenas t' c ∧ ¬ zone c.start))
    (whole : ∀ {t' c x}, BlockAt arenas t' c → (blockLayout p t').Covers c x → zone x → t' = t ∧ zone c.start)
    (sums : ∀ t', usedSum arenas' t' + (if t' = t then g else 0) = usedSum arenas t' + if t' = t then usedBytes new
      else 0)
    (used : ((s'.poolOf t).used + g) % 2 ^ 64 = ((s.poolOf t).used + usedBytes new) % 2 ^ 64)
    (small : (s'.poolOf t).used < 2 ^ 64) : Stands p s' arenas' := by
  refine ⟨intact, owned, paged, apart, sound, fun t' c at_ => ?_, fun t' a size at_ => ?_, fun t' index x => ?_,
    fun t' index => ?_, fun t' => ?_, by rw [changed.names]; exact stands.types⟩
  · rcases (blocks t' c).mp at_ with ⟨_, here⟩ | ⟨old, out⟩
    · exact changed.heads c here
    · rw [changed.otherHeads _ out, stands.heads t' c old]
  · rcases (blocks _ _).mp at_ with ⟨rfl, here⟩ | ⟨old, out⟩
    · exact changed.tails a size here
    · rw [changed.otherTails _ fun inside => out (whole old (stands.tail_covers old) inside).2,
        stands.tails t' a size old]
  · rw [blocks]
    by_cases same : t' = t
    · subst same
      rw [changed.lists, stands.lists]
      simp
    · rw [changed.others t' same, stands.lists]
      refine ⟨fun old => .inr ⟨old, fun inside => same (whole old (stands.covers_at old) inside).1⟩, ?_⟩
      rintro (⟨type, _⟩ | ⟨old, _⟩)
      · exact absurd type same
      · exact old
  · by_cases same : t' = t
    · subst same
      exact changed.nodup index
    · rw [changed.others t' same]
      exact stands.nodup t' index
  · have sum := sums t'
    have before := stands.used t'
    by_cases same : t' = t
    · subst same
      rw [if_pos rfl, if_pos rfl] at sum
      omega
    · rw [if_neg same, if_neg same] at sum
      rw [changed.others t' same]
      omega

section Middle

variable (stands : Stands p s (before ++ A :: after))
include stands

theorem Stands.apart_others : ∀ B ∈ before ++ after, arenaLayout.Apart A B := by
  intro B other
  have pairs := pairwise_append.mp stands.apart
  rcases mem_append.mp other with mem | mem
  · exact (pairs.2.2 B mem A mem_cons_self).symm
  · exact (pairwise_cons.mp pairs.2.1).1 B mem

theorem Stands.other_start {B : Arena} (other : B ∈ before ++ after)
    (memb : b ∈ A.blocks) (memc : c ∈ B.blocks) : c.start ≠ b.start := by
  intro same
  have soundA := stands.sound A (mem_append_right _ mem_cons_self)
  have soundB := stands.sound B (Stands.mem_others other)
  have inB := soundB.covers memc (soundB.covers_start memc)
  rw [same] at inB
  exact (stands.apart_others B other).not_covers (soundA.covers memb (soundA.covers_start memb)) inB

theorem Stands.blockAt_redrawn (blocks : A.blocks = pre ++ b :: post) :
    BlockAt (before ++ A.redrawn (pre ++ new ++ post) :: after) t c ↔
      (t = A.type ∧ c ∈ new) ∨ (BlockAt (before ++ A :: after) t c ∧ c.start ≠ b.start) := by
  have memb : b ∈ A.blocks := by rw [blocks]; exact mem_append_right _ mem_cons_self
  have tiles := (stands.sound A (mem_append_right _ mem_cons_self)).tiles
  rw [blocks] at tiles
  have redrawn : BlockAt (before ++ A.redrawn (pre ++ new ++ post) :: after) t c ↔
      (t = A.type ∧ c ∈ pre ++ new ++ post) ∨ BlockAt (before ++ after) t c := blockAt_middle
  rw [redrawn, blockAt_middle, blocks, mem_redrawn tiles]
  constructor
  · rintro (⟨type, inNew | ⟨old, ne⟩⟩ | old)
    · exact .inl ⟨type, inNew⟩
    · exact .inr ⟨.inl ⟨type, old⟩, ne⟩
    · obtain ⟨B, mem, _, memc⟩ := id old
      exact .inr ⟨.inr old, stands.other_start mem memb memc⟩
  · rintro (⟨type, inNew⟩ | ⟨⟨type, old⟩ | old, ne⟩)
    · exact .inl ⟨type, .inl inNew⟩
    · exact .inl ⟨type, .inr ⟨old, ne⟩⟩
    · exact .inr old

theorem Stands.covers_iff (memb : b ∈ A.blocks)
    (at_ : BlockAt (before ++ A :: after) t c) (ne : c.start ≠ b.start) {x : Nat}
    (covers : (blockLayout p t).Covers c x) :
    ¬ (blockLayout p A.type).Covers b x := by
  obtain ⟨B, memB, rfl, memc⟩ := at_
  intro covers'
  obtain ⟨_, rfl⟩ := stands.unique memB (mem_append_right _ mem_cons_self) memc memb covers covers'
  exact ne rfl

/-- One block is replaced by others in its place. -/
theorem Stands.redraw (changed : Changed A.type ((blockLayout p A.type).Covers b) new s s') (aside : Aside A.type s s')
    (blocks : A.blocks = pre ++ b :: post) (sound : (A.redrawn (pre ++ new ++ post)).Sound p)
    (used : ((s'.poolOf A.type).used + b.header.usedSize) % 2 ^ 64 = ((s.poolOf A.type).used + usedBytes new) % 2 ^ 64)
    (small : (s'.poolOf A.type).used < 2 ^ 64) : Stands p s' (before ++ A.redrawn (pre ++ new ++ post) :: after) := by
  have memA : A ∈ before ++ A :: after := mem_append_right _ mem_cons_self
  have memb : b ∈ A.blocks := by rw [blocks]; exact mem_append_right _ mem_cons_self
  have covers := (stands.sound A memA).covers_start memb
  have each : ∀ {P : Arena → Prop}, P (A.redrawn (pre ++ new ++ post)) → (∀ B ∈ before ++ A :: after, P B) →
      ∀ B ∈ before ++ A.redrawn (pre ++ new ++ post) :: after, P B := by
    simp only [forall_mem_append, forall_mem_cons]
    exact fun here all => ⟨all.1, here, all.2.2⟩
  refine stands.change changed (by rw [aside.pages]; exact stands.intact) ?_ ?_ ?_ (each sound stands.sound)
    (fun t c => ?_) (fun {t c x} at_ here inside => ?_) (fun t => ?_) used small
  · rw [aside.owned, stands.owned, map_append, map_append, map_cons, map_cons]
    rfl
  · rw [aside.pages]
    exact each (stands.paged A memA) stands.paged
  · have pairs := pairwise_append.mp stands.apart
    have tail := pairwise_cons.mp pairs.2.1
    refine pairwise_append.mpr ⟨pairs.1, pairwise_cons.mpr ⟨tail.1, tail.2⟩, fun B memB => ?_⟩
    obtain ⟨first, rest⟩ := forall_mem_cons.mp (pairs.2.2 B memB)
    exact forall_mem_cons.mpr ⟨first, rest⟩
  · rw [stands.blockAt_redrawn blocks]
    refine or_congr_right (and_congr_right fun old => ⟨fun ne => ?_, fun out same => out (same ▸ covers)⟩)
    exact stands.covers_iff memb old ne (stands.covers_at old)
  · obtain ⟨B, memB, rfl, memc⟩ := at_
    obtain ⟨rfl, rfl⟩ := stands.unique memB memA memc memb here inside
    exact ⟨rfl, covers⟩
  · have redrawn : usedSum (A.redrawn (pre ++ new ++ post) :: after) t =
        (if A.type = t then usedBytes (pre ++ new ++ post) else 0) + usedSum after t := usedSum_cons after
    rw [usedSum_append, usedSum_append, redrawn, usedSum_cons, blocks]
    simp only [usedBytes_append, usedBytes_cons, eq_comm (a := t)]
    split <;> omega

end Middle

/-- Page operations elsewhere leave the blocks alone. -/
theorem Stands.evolves {R : Nat → Prop} {w' : World} (stands : Stands p s arenas) (tidied : Tidied p R s.pages w')
    (clear : ∀ A ∈ arenas, ∀ a, arenaLayout.Covers A a → ¬ R a) : Stands p { s with pages := w' } arenas :=
  { stands with
    intact := tidied.intact
    paged := by
      intro A mem a covers
      obtain ⟨attributes, here⟩ := stands.paged A mem a covers
      exact ⟨attributes, tidied.evolves.stays (clear A mem a covers) here (stands.sound A mem).used⟩ }

theorem Stands.outside {x : Nat} (stands : Stands p s arenas) (fresh : ∀ B ∈ arenas, arenaLayout.Apart A B)
    (at_ : BlockAt arenas t c) (covers : (blockLayout p t).Covers c x) : ¬ arenaLayout.Covers A x := by
  obtain ⟨B, memB, rfl, memc⟩ := at_
  exact fun inA => (fresh B memB).not_covers inA ((stands.sound B memB).covers memc covers)

/-- New pages join the pools. -/
theorem Stands.add (stands : Stands p s arenas) (changed : Changed A.type (arenaLayout.Covers A) A.blocks s s')
    (aside : Aside A.type { s with owned := A.region :: s.owned } s') (sound : A.Sound p)
    (paged : ∀ a, arenaLayout.Covers A a → ∃ attributes, s.pages.at a = some (A.type, attributes))
    (fresh : ∀ B ∈ arenas, arenaLayout.Apart A B)
    (used : (s'.poolOf A.type).used = ((s.poolOf A.type).used + usedBytes A.blocks) % 2 ^ 64) :
    Stands p s' (A :: arenas) := by
  refine stands.change (g := 0) changed (by rw [aside.pages]; exact stands.intact) ?_ ?_
    (pairwise_cons.mpr ⟨fresh, stands.apart⟩) (forall_mem_cons.mpr ⟨sound, stands.sound⟩) (fun t c => ?_)
    (fun at_ covers inside => absurd inside (stands.outside fresh at_ covers)) (fun t => ?_) ?_ ?_
  · rw [aside.owned, map_cons, ← stands.owned]
  · rw [aside.pages]
    exact forall_mem_cons.mpr ⟨paged, stands.paged⟩
  · rw [blockAt_cons]
    refine or_congr_right ⟨fun old => ⟨old, stands.outside fresh old (stands.covers_at old)⟩, And.left⟩
  · rw [usedSum_cons]
    simp only [eq_comm (a := t)]
    split <;> omega
  · rw [used]
    exact Nat.mod_mod _ _
  · rw [used]
    exact Nat.mod_lt _ (by decide)

theorem Stands.filter_owned (stands : Stands p s (before ++ A :: after)) :
    (s.owned.filter fun r => r.start ≠ A.start) = (before ++ after).map Arena.region := by
  have keep : ∀ B ∈ before ++ after, B.region.start ≠ A.start := by
    intro B mem same
    have posA := (stands.sound A (mem_append_right _ mem_cons_self)).pos
    have posB := (stands.sound B (Stands.mem_others mem)).pos
    have same' : B.start = A.start := same
    rcases stands.apart_others B mem with le | le
    · have : A.start + A.pages * 0x1000 ≤ B.start := le
      omega
    · have : B.start + B.pages * 0x1000 ≤ A.start := le
      omega
  have all : ((before ++ after).map Arena.region).filter (fun r => r.start ≠ A.start) =
    (before ++ after).map Arena.region := by
    refine filter_eq_self.mpr fun r mem => ?_
    obtain ⟨B, memB, rfl⟩ := mem_map.mp mem
    exact decide_eq_true (keep B memB)
  rw [← all, stands.owned, map_append, map_append, filter_append, filter_append, map_cons,
    filter_cons_of_neg (by simp [Arena.region])]

/-- The pages of an arena are given back. -/
theorem Stands.giveBack {w' : World} {size noPages : Nat} (stands : Stands p s (before ++ A :: after))
    (bytes : usedBytes A.blocks = size) (tidied : Tidied p (arenaLayout.Covers A) s.pages w')
    (aside : Aside A.type s s') (heads : ∀ x, ¬ arenaLayout.Covers A x → s'.heads x = s.heads x)
    (tails : ∀ x, ¬ arenaLayout.Covers A x → s'.tails x = s.tails x)
    (lists : ∀ index x, x ∈ (s'.poolOf A.type).freeList index ↔
      x ∈ (s.poolOf A.type).freeList index ∧ ¬ arenaLayout.Covers A x)
    (nodup : ∀ index, ((s'.poolOf A.type).freeList index).Nodup)
    (used : (s'.poolOf A.type).used = ((s.poolOf A.type).used + 2 ^ 64 - size) % 2 ^ 64) (lt : size < 2 ^ 64)
    (same : noPages = A.pages) :
    Stands p (PoolWorld.giveBack { s' with pages := w' } A.start noPages) (before ++ after) := by
  subst same
  have others := stands.apart_others
  have small := stands.used_lt A.type
  have inA : ∀ {c}, c ∈ A.blocks → arenaLayout.Covers A c.start := fun here =>
    have sound := stands.sound A (mem_append_right _ mem_cons_self)
    sound.covers here (sound.covers_start here)
  have outside : ∀ {t c x}, BlockAt (before ++ after) t c → (blockLayout p t).Covers c x →
      ¬ arenaLayout.Covers A x := by
    rintro t c x ⟨B, memB, rfl, memc⟩ covers inA
    exact (others B memB).not_covers inA ((stands.sound B (Stands.mem_others memB)).covers memc covers)
  have kept : ∀ {x} {γ : Type} {old : Option γ}, ¬ arenaLayout.Covers A x →
      (if decide (A.start ≤ x ∧ x < A.start + A.pages * 0x1000) = true then none else old) = old :=
    fun out => if_neg fun inside => out (of_decide_eq_true inside)
  have gone : Changed A.type (arenaLayout.Covers A) [] s
      (PoolWorld.giveBack { s' with pages := w' } A.start A.pages) := by
    refine ⟨aside.names, aside.others, forall_mem_nil _, fun x out => (kept out).trans (heads x out),
      fun _ _ mem => absurd mem not_mem_nil, fun x out => (kept out).trans (tails x out), fun index x => ?_, nodup⟩
    exact (lists index x).trans (or_iff_right not_mem_nil).symm
  refine stands.change gone tidied.intact ?_ (fun B mem a covers => ?_)
    (stands.apart.sublist (List.Sublist.append_left (sublist_cons_self A after) before))
    (fun B mem => stands.sound B (Stands.mem_others mem)) (fun t c => ?_) (fun {t c x} at_ covers inside => ?_)
    (g := size) (fun t => ?_) ?_ ?_
  · change s'.owned.filter _ = _
    rw [aside.owned, stands.filter_owned]
  · obtain ⟨attributes, here⟩ := stands.paged B (Stands.mem_others mem) a covers
    exact ⟨attributes, tidied.evolves.stays (fun inA => (others B mem).not_covers inA covers) here
      (stands.sound B (Stands.mem_others mem)).used⟩
  · rw [blockAt_middle]
    refine ⟨fun at_ => .inr ⟨.inr at_, outside at_ (stands.covers_at (blockAt_middle.mpr (.inr at_)))⟩, ?_⟩
    rintro (⟨_, here⟩ | ⟨⟨_, here⟩ | at_, out⟩)
    · cases here
    · exact absurd (inA here) out
    · exact at_
  · rcases blockAt_middle.mp at_ with ⟨type, here⟩ | at_
    · exact ⟨type, inA here⟩
    · exact absurd inside (outside at_ covers)
  · rw [usedSum_append, usedSum_append, usedSum_cons, bytes]
    simp only [eq_comm (a := t)]
    split <;> change _ = _ + 0 <;> omega
  · change ((s'.poolOf A.type).used + _) % _ = (_ + 0) % _
    rw [used]
    omega
  · change (s'.poolOf A.type).used < _
    rw [used]
    exact Nat.mod_lt _ (by decide)

end Changes

end LeoEdk.Memory
