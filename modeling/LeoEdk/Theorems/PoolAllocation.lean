import LeoEdk.Theorems.PoolBlocks

/-! Serving a request: from a free block, from a larger one that is carved up, or from new pages. The pieces tile what
    was taken (`Served`), one in use and the others free, so `Stands` is kept with one block more in use. -/

namespace LeoEdk.Memory

open Layout Prog List

def onlyPages (h : PoolStop) (_ : PoolWorld) : Prop := ∃ stop, h = .pages stop

theorem wp_paged {α : Type} {m : M α} {p : Platform} {s : PoolWorld} {Q : α → PoolWorld → Prop}
    (runs : wp m p (fun a w => Q a { s with pages := w }) anyStop s.pages) : wp (paged m) p Q onlyPages s := by
  unfold wp at runs ⊢
  rw [paged]
  rcases run : m p s.pages with ⟨outcome, w⟩
  rw [run] at runs
  cases outcome with
  | ok a => exact runs
  | error stop => exact ⟨stop, rfl⟩

/-! ### Pages for a pool -/

/-- Above the first page, the first 64 KB have no memory to give. -/
def LowClear (p : Platform) (w : World) : Prop :=
  ∀ a, 0x1000 ≤ a → a < 0x10000 → ∀ attributes,
    w.at a ≠ some (conventionalMemory, attributes) ∧ ¬ Spare p w a attributes

def Searchable (p : Platform) (t : MemoryType) (w : World) : Prop := granularityOf p t = 0x1000 ∨ LowClear p w

section Pages

variable {p : Platform} {s : PoolWorld} {arenas : List Arena} {t : MemoryType} {w w' : World} {R : Nat → Prop}
  {noPages granularity : Nat}

theorem LowClear.evolves (low : LowClear p w) (evolves : Evolves p R w w')
    (taken : ∀ a, R a → ∀ attributes, w'.at a ≠ some (conventionalMemory, attributes)) : LowClear p w' := by
  intro a ge lt attributes
  refine ⟨fun free => ?_, fun spare => (low a ge lt attributes).2 (evolves.spare a attributes spare)⟩
  have out : ¬ R a := fun inside => taken a inside attributes free
  cases was : w.at a with
  | none =>
    rcases evolves.grown a was with none_ | ⟨attributes', _, spare, _⟩
    · rw [none_] at free
      cases free
    · exact (low a ge lt attributes').2 spare
  | some v =>
    obtain ⟨t', now, change⟩ := evolves.kept a v.1 v.2 was
    rw [now] at free
    cases free
    rcases change with same | ⟨_, descriptors⟩ | inside
    · exact (low a ge lt v.2).1 (was.trans (congrArg some (Prod.ext same.symm rfl)))
    · exact absurd descriptors (by decide)
    · exact out inside

theorem FoundAt.inMap {start : Nat} (intact : Intact p w) (low : granularity = 0x1000 ∨ LowClear p w)
    (granular : Granular granularity) (found : FoundAt p.maxAllocAddress noPages granularity w.memoryMap start) :
    ∃ e ∈ w.memoryMap, e.type = conventionalMemory ∧ e.start ≤ start ∧ start + noPages * 0x1000 ≤ e.last + 1 := by
  obtain ⟨_, ⟨_, e, mem, type, pos, lt⟩ | ⟨e, mem, type, le, ge, _⟩⟩ := found
  · have sound := intact.sound e mem
    rcases low with page | low
    · have := sound.1
      omega
    · have ge : 0x1000 ≤ e.start := by
        have := sound.1
        omega
      have lt' : e.start < 0x10000 := by
        rcases granular with rfl | rfl <;> omega
      have here : w.at e.start = some (e.type, e.attributes) :=
        valueAt_eq_of_mem (intact.onceMap _) mem ⟨Nat.le_refl _, Nat.lt_succ_of_le sound.2.2.1⟩
      rw [type] at here
      exact absurd here (low e.start ge lt' e.attributes).1
  · exact ⟨e, mem, type, le, ge⟩

/-- What holds of the pages at `start` when the pool has got them. -/
structure Obtained (p : Platform) (s : PoolWorld) (arenas : List Arena) (t : MemoryType)
    (start noPages granularity : Nat) (w' : World) : Prop where
  nonzero : start ≠ 0
  aligned : start % granularity = 0
  stands : Stands p { s with pages := w' } arenas
  low : LowClear p s.pages → LowClear p w'
  paged : ∀ a, start ≤ a ∧ a < start + noPages * 0x1000 → ∃ attributes, w'.at a = some (t, attributes)
  fresh : ∀ B ∈ arenas, start + noPages * 0x1000 ≤ B.start ∨ B.start + B.pages * 0x1000 ≤ start
  below : start + noPages * 0x1000 < 2 ^ 64

theorem wp_coreAllocatePoolPagesI {Q : Nat → PoolWorld → Prop} (stands : Stands p s arenas)
    (used : t ≠ conventionalMemory)
    (granular : Granular granularity) (whole : noPages * 0x1000 % granularity = 0) (pos : noPages ≠ 0)
    (fits : noPages * 0x1000 < 2 ^ 64) (low : granularity = 0x1000 ∨ LowClear p s.pages)
    (none_ : ∀ w', Stands p { s with pages := w' } arenas → Q 0 { s with pages := w' })
    (got : ∀ start w', Obtained p s arenas t start noPages granularity w' →
      Q start { s with pages := w', owned := ⟨start, noPages, t⟩ :: s.owned }) :
    wp (coreAllocatePoolPagesI t noPages granularity) p Q onlyPages s := by
  rw [coreAllocatePoolPagesI, wp_bind]
  refine wp_paged (wp_coreAllocatePoolPages tidies_coreFreeMemoryMapStack stands.intact fun start w' pages => ?_)
  have foundStands := stands.evolves pages.tidied fun _ _ _ _ => id
  have lowFound : LowClear p s.pages → LowClear p pages.found :=
    fun low => low.evolves pages.tidied.evolves fun _ => False.elim
  rw [wp_ite]
  split
  next zero =>
    subst zero
    have same := pages.none_ rfl
    rw [same]
    exact none_ _ foundStands
  next nonzero =>
    have found := pages.at_ ⟨granular, whole, fits⟩ nonzero
    have low' := low.imp_right lowFound
    obtain ⟨e, mem, type, first, last⟩ := found.inMap pages.tidied.intact low' granular
    have sound := pages.tidied.intact.sound e mem
    have lastEq : lastOf start (bytesOf noPages) = start + noPages * 0x1000 - 1 :=
      lastOf_of_lt pos (by have := sound.2.2.2; omega)
    have some_ : 0x1000 ≤ noPages * 0x1000 := Nat.le_mul_of_pos_left _ (Nat.pos_of_ne_zero pos)
    have page : start % 0x1000 = 0 := by
      have := found.1
      rcases granular with rfl | rfl <;> omega
    have ran := pages.ran nonzero ⟨pos, page, by omega⟩
    rw [lastEq] at ran
    have success := ran.takes used ⟨e, mem, type, first, by omega⟩
    have taken := ran.taken success used
    have range : ∀ {a}, between start (start + noPages * 0x1000 - 1) a ↔ start ≤ a ∧ a < start + noPages * 0x1000 :=
      fun {a} => and_congr_right fun le => by omega
    -- What was free lies in no pages of the pool.
    have apart : ∀ B ∈ arenas, ∀ a, arenaLayout.Covers B a → ¬ between start (start + noPages * 0x1000 - 1) a := by
      intro B memB a covers inside
      obtain ⟨_, free, _⟩ := taken a inside
      obtain ⟨_, here⟩ := foundStands.paged B memB a covers
      rw [free] at here
      exact (foundStands.sound B memB).used (congrArg Prod.fst (Option.some.inj here)).symm
    rw [wp_bind, wp_modify]
    refine got start w' ⟨nonzero, found.1, foundStands.evolves ran.tidied apart, fun low => ?_, fun a inside => ?_,
      fun B memB => ?_, ?_⟩
    · refine (lowFound low).evolves ran.tidied.evolves fun a inside attributes free => ?_
      obtain ⟨_, _, here⟩ := taken a inside
      rw [free] at here
      exact used (congrArg Prod.fst (Option.some.inj here)).symm
    · obtain ⟨attributes, _, here⟩ := taken a (range.mpr inside)
      exact ⟨attributes, here⟩
    · by_contra near
      obtain ⟨near₁, near₂⟩ := not_or.mp near
      have posB := (stands.sound B memB).pos
      refine apart B memB (max start B.start) ⟨Nat.le_max_right _ _, ?_⟩ (range.mpr ⟨Nat.le_max_left _ _, ?_⟩)
      · change max start B.start < B.start + B.pages * 0x1000
        omega
      · omega
    · have := sound.2.2.2
      omega

end Pages

/-! ### A block for a request -/

/-- The block of the request, and the free pieces behind it. -/
def servedBlocks (t : MemoryType) (a size : Nat) (pieces : List (Nat × Nat)) : List Block :=
  ⟨a, .used size t⟩ :: pieces.map fun piece => ⟨a + piece.1, .free piece.2⟩

def BlockUsed (arenas : List Arena) (t : MemoryType) (a size : Nat) : Prop := BlockAt arenas t ⟨a, .used size t⟩

/-- One new block is in use, besides those that were. -/
structure Gains (arenas arenas' : List Arena) (t : MemoryType) (head size : Nat) : Prop where
  fresh : ∀ t' size', ¬ BlockUsed arenas t' head size'
  used : ∀ t' a size', BlockUsed arenas' t' a size' ↔ BlockUsed arenas t' a size' ∨ (t' = t ∧ a = head ∧ size' = size)

section Serve

variable {p : Platform} {s s' : PoolWorld} {arenas before after : List Arena} {A : Arena} {t : MemoryType}
  {a size total : Nat} {pieces : List (Nat × Nat)}

theorem tiles_pieces {offset : Nat} (tiles : pieceLayout.Tiles offset total pieces) :
    (blockLayout p t).Tiles (a + offset) (a + total) (pieces.map fun piece => ⟨a + piece.1, .free piece.2⟩) := by
  induction pieces generalizing offset with
  | nil => exact congrArg (a + ·) tiles
  | cons piece rest ih =>
    obtain ⟨start, pos, tail⟩ := tiles
    refine ⟨congrArg (a + ·) start, ?_, ?_⟩
    · change a + piece.1 < a + piece.1 + listToSize piece.2
      have : piece.1 < piece.1 + listToSize piece.2 := pos
      omega
    · change (blockLayout p t).Tiles (a + piece.1 + listToSize piece.2) _ _
      rw [Nat.add_assoc]
      exact ih tail

theorem tiles_served (pos : 0 < blockLength p t (.used size t))
    (tiles : pieceLayout.Tiles (blockLength p t (.used size t)) total pieces) :
    (blockLayout p t).Tiles a (a + total) (servedBlocks t a size pieces) :=
  ⟨rfl, Nat.lt_add_of_pos_right pos, tiles_pieces tiles⟩

theorem mem_served_used {x n : Nat} {t' : MemoryType} :
    (⟨x, .used n t'⟩ : Block) ∈ servedBlocks t a size pieces ↔ x = a ∧ n = size ∧ t' = t := by
  simp [servedBlocks]

theorem mem_served_free {x index : Nat} :
    (⟨x, .free index⟩ : Block) ∈ servedBlocks t a size pieces ↔ ∃ piece ∈ pieces, piece.2 = index ∧
      a + piece.1 = x := by
  simp only [servedBlocks, mem_cons, mem_map, Block.mk.injEq, reduceCtorEq, and_false, false_or, Header.free.injEq]
  exact exists_congr fun piece => and_congr_right fun _ => and_comm

theorem usedBytes_served : usedBytes (servedBlocks t a size pieces) = size := by
  have none_ : ∀ pieces : List (Nat × Nat), usedBytes (pieces.map fun piece => ⟨a + piece.1, .free piece.2⟩) = 0 := by
    intro pieces
    induction pieces with
    | nil => rfl
    | cons piece rest ih => rw [map_cons, usedBytes_cons, ih]; rfl
  rw [servedBlocks, usedBytes_cons, none_]
  rfl

/-- The blocks of a request are in place. -/
structure Served (t : MemoryType) (a size : Nat) (pieces : List (Nat × Nat)) (s s' : PoolWorld) : Prop where
  aside : Aside t s s'
  heads : ∀ c ∈ servedBlocks t a size pieces, s'.heads c.start = some c.header
  otherHeads : ∀ x, (∀ c ∈ servedBlocks t a size pieces, c.start ≠ x) → s'.heads x = s.heads x
  tail : s'.tails (a + size - sizeOfPoolTail) = some size
  otherTails : ∀ x, x ≠ a + size - sizeOfPoolTail → s'.tails x = s.tails x
  used : (s'.poolOf t).used = ((s.poolOf t).used + size) % 2 ^ 64
  lists : ∀ index x, x ∈ (s'.poolOf t).freeList index ↔
    ⟨x, .free index⟩ ∈ servedBlocks t a size pieces ∨ x ∈ (s.poolOf t).freeList index
  nodup : ∀ index, ((s.poolOf t).freeList index).Nodup →
    (∀ piece ∈ pieces, a + piece.1 ∉ (s.poolOf t).freeList index) → ((s'.poolOf t).freeList index).Nodup

theorem served (known : s.Known t) (length : 0 < blockLength p t (.used size t))
    (tiles : pieceLayout.Tiles (blockLength p t (.used size t)) total pieces) (enough : sizeOfPoolTail ≤ size)
    (below : a + size < 2 ^ 64) :
    Served t a size pieces s
      ((pieces.foldl (fun s piece => s.placeFree t (a + piece.1) piece.2) s).placeUsed t a size) := by
  have distinct : (pieces.map Prod.fst).Nodup := tiles.nodup_first
  have placed : Placed t a pieces s _ := placed_foldl known distinct
  have known' := placed.aside.known known
  have later : ∀ piece ∈ pieces, a + piece.1 ≠ a := by
    intro piece mem same
    have : blockLength p t (.used size t) ≤ piece.1 := (tiles.bounds mem).1
    omega
  have tail : (a + size + 2 ^ 64 - sizeOfPoolTail) % 2 ^ 64 = a + size - sizeOfPoolTail := by omega
  obtain ⟨used, lists⟩ := @poolOf_placeUsed _ t a size known'
  refine ⟨placed.aside.trans aside_placeUsed, fun c mem => ?_, fun x out => ?_, ?_, fun x ne => ?_, ?_,
    fun index x => ?_, fun index nodup out => ?_⟩
  · rw [heads_placeUsed]
    rcases mem_cons.mp mem with rfl | mem
    · exact if_pos rfl
    · obtain ⟨piece, memP, rfl⟩ := mem_map.mp mem
      rw [if_neg (later piece memP), placed.heads piece memP]
  · rw [heads_placeUsed, if_neg fun same => out _ mem_cons_self same.symm]
    refine placed.otherHeads x fun piece mem => ?_
    exact out ⟨a + piece.1, .free piece.2⟩ (mem_cons_of_mem _ (mem_map.mpr ⟨piece, mem, rfl⟩))
  · rw [tails_placeUsed, tail, if_pos rfl]
  · rw [tails_placeUsed, tail, if_neg ne, placed.tails]
  · rw [used, placed.used]
  · rw [lists, placed.lists, mem_served_free]
  · rw [lists]
    exact placed.nodup index nodup out

theorem start_served {c : Block} (tiles : pieceLayout.Tiles (blockLength p t (.used size t)) total pieces)
    (length : 0 < blockLength p t (.used size t)) (mem : c ∈ servedBlocks t a size pieces) :
    a ≤ c.start ∧ c.start < a + total := by
  have bounds := (tiles_served (a := a) length tiles).bounds mem
  exact ⟨bounds.1, Nat.lt_of_lt_of_le bounds.2.1 bounds.2.2⟩

theorem blockLength_listed (listed : getPoolIndexFromSize size < getPoolIndexFromSize (granularityOf p t)) :
    blockLength p t (.used size t) = listToSize (getPoolIndexFromSize size) := by
  rw [blockLength, if_neg (Nat.not_le.mpr listed)]

theorem blockLength_pos (enough : poolOverhead ≤ size) (lt : size < 2 ^ 64) : 0 < blockLength p t (.used size t) :=
  Nat.lt_of_lt_of_le (Nat.lt_of_lt_of_le (by decide) enough) (le_blockLength lt)

theorem small_served (listed : getPoolIndexFromSize size < getPoolIndexFromSize (granularityOf p t))
    (smaller : ∀ piece ∈ pieces, piece.2 < getPoolIndexFromSize (granularityOf p t)) (enough : poolOverhead ≤ size)
    (lt : size < 2 ^ 64) : ∀ c ∈ servedBlocks t a size pieces, c.header.Small p t := by
  intro c mem
  rcases mem_cons.mp mem with rfl | inPieces
  · exact ⟨listed, enough, lt, rfl⟩
  · obtain ⟨piece, memP, rfl⟩ := mem_map.mp inPieces
    exact smaller piece memP

theorem Stands.mem_unlink_free {j index x : Nat} (stands : Stands p s arenas) (known : s.Known t)
    (here : BlockAt arenas t ⟨a, .free j⟩) : x ∈ ((s.unlink t a j).poolOf t).freeList index ↔
      x ∈ (s.poolOf t).freeList index ∧ ¬ (blockLayout p t).Covers ⟨a, .free j⟩ x := by
  rw [mem_unlink known (stands.nodup t index)]
  refine and_congr_right fun mem => not_congr ⟨fun same => ?_, fun covers => ?_⟩
  · rw [← same]
    exact stands.covers_at ((stands.lists _ _ _).mp mem)
  · obtain ⟨B, memB, _, memc⟩ := (stands.lists _ _ _).mp mem
    obtain ⟨A, memA, rfl, memb⟩ := here
    exact (stands.unique memB memA memc memb ((stands.sound B memB).covers_start memc) covers).2

theorem Served.changed {base : PoolWorld} {zone : Nat → Prop} (served : Served t a size pieces base s')
    (tiles : pieceLayout.Tiles (blockLength p t (.used size t)) total pieces) (enough : poolOverhead ≤ size)
    (lt : size < 2 ^ 64) (inside : ∀ {x}, a ≤ x ∧ x < a + total → zone x) (names : base.names = s.names)
    (others : ∀ t', t' ≠ t → base.poolOf t' = s.poolOf t') (heads : base.heads = s.heads) (tails : base.tails = s.tails)
    (lists : ∀ index x, x ∈ (base.poolOf t).freeList index ↔ x ∈ (s.poolOf t).freeList index ∧ ¬ zone x)
    (nodup : ∀ index, ((base.poolOf t).freeList index).Nodup) : Changed t zone (servedBlocks t a size pieces) s s' := by
  have length := blockLength_pos (p := p) (t := t) enough lt
  have le : size ≤ blockLength p t (.used size t) := le_blockLength lt
  have fits := tiles.le
  refine ⟨served.aside.names.trans names, fun t' ne => (served.aside.others t' ne).trans (others t' ne), served.heads,
    fun x out => ?_, fun x n mem => ?_, fun x out => ?_, fun index x => ?_, fun index => ?_⟩
  · rw [served.otherHeads x fun c mem same => out (inside (same ▸ start_served tiles length mem)), heads]
  · obtain ⟨rfl, rfl, _⟩ := mem_served_used.mp mem
    exact served.tail
  · rw [served.otherTails x fun same => out (inside ?_), tails]
    rw [poolOverhead, sizeOfPoolHead, sizeOfPoolTail] at enough
    rw [same, sizeOfPoolTail]
    omega
  · rw [served.lists, lists]
  · refine served.nodup index (nodup index) fun piece memP mem => ((lists _ _).mp mem).2 (inside ?_)
    obtain ⟨_, pos, le'⟩ := tiles.bounds memP
    exact ⟨Nat.le_add_right _ _, Nat.add_lt_add_left (Nat.lt_of_lt_of_le pos le') a⟩

section Within

variable {j : Nat} {pre post : List Block} (stands : Stands p s (before ++ A :: after))
  (blocks : A.blocks = pre ++ ⟨a, .free j⟩ :: post)
include blocks

theorem blockAt_free : BlockAt (before ++ A :: after) A.type ⟨a, .free j⟩ := by
  refine ⟨A, mem_append_right _ mem_cons_self, rfl, ?_⟩
  rw [blocks]
  exact mem_append_right _ mem_cons_self

include stands

theorem Stands.carved_of_free : A.Carved p := by
  refine (stands.sound A (mem_append_right _ mem_cons_self)).shape.resolve_right ?_
  rintro ⟨_, whole, _⟩
  rw [blocks] at whole
  have mem : (⟨a, .free j⟩ : Block) ∈ pre ++ ⟨a, .free j⟩ :: post := mem_append_right _ mem_cons_self
  rw [whole] at mem
  cases mem_singleton.mp mem

theorem Stands.serve_gains : Gains (before ++ A :: after)
    (before ++ A.redrawn (pre ++ servedBlocks A.type a size pieces ++ post) :: after) A.type a size := by
  have fresh : ∀ t' size', ¬ BlockUsed (before ++ A :: after) t' a size' := by
    intro t' size' at_
    cases stands.header_eq at_ (blockAt_free blocks) rfl
  refine ⟨fresh, fun t' x n => ?_⟩
  rw [BlockUsed, stands.blockAt_redrawn blocks, mem_served_used]
  constructor
  · rintro (⟨rfl, rfl, rfl, _⟩ | ⟨old, _⟩)
    · exact .inr ⟨rfl, rfl, rfl⟩
    · exact .inl old
  · rintro (old | ⟨rfl, rfl, rfl⟩)
    · refine .inr ⟨old, ?_⟩
      rintro rfl
      exact fresh t' n old
    · exact .inl ⟨rfl, rfl, rfl, rfl⟩

variable (tiles : pieceLayout.Tiles (blockLength p A.type (.used size A.type)) (listToSize j) pieces)
  (enough : poolOverhead ≤ size) (lt : size < 2 ^ 64)
include tiles enough lt

theorem Stands.serve_sound (listed : getPoolIndexFromSize size < getPoolIndexFromSize (granularityOf p A.type))
    (smaller : ∀ piece ∈ pieces, piece.2 < getPoolIndexFromSize (granularityOf p A.type)) :
    (A.redrawn (pre ++ servedBlocks A.type a size pieces ++ post)).Sound p := by
  have sound := stands.sound A (mem_append_right _ mem_cons_self)
  have tilesA := sound.tiles
  rw [blocks] at tilesA
  obtain ⟨mid, left, start, _, right⟩ := tiles_append.mp tilesA
  have carved := stands.carved_of_free blocks
  refine ⟨sound.used, ?_, .inl ⟨carved.1, carved.2.1, ?_⟩, ?_, sound.nonzero, sound.valid⟩
  · have here : a = mid := start
    subst here
    exact (left.append (tiles_served (blockLength_pos enough lt) tiles)).append right
  · intro c mem
    rcases (mem_redrawn tilesA).mp mem with inNew | ⟨old, _⟩
    · exact small_served listed smaller enough lt c inNew
    · exact carved.2.2 c (blocks ▸ old)
  · exact ⟨⟨a, .used size A.type⟩, mem_append_left _ (mem_append_right _ mem_cons_self), size, rfl⟩

theorem Stands.serve (sound : (A.redrawn (pre ++ servedBlocks A.type a size pieces ++ post)).Sound p)
    (known : s.Known A.type) (served : Served A.type a size pieces (s.unlink A.type a j) s') :
    Stands p s' (before ++ A.redrawn (pre ++ servedBlocks A.type a size pieces ++ post) :: after) := by
  have aside : Aside A.type s (s.unlink A.type a j) := aside_unlink
  have changed : Changed A.type ((blockLayout p A.type).Covers ⟨a, .free j⟩) (servedBlocks A.type a size pieces) s s' :=
    served.changed tiles enough lt id aside.names aside.others heads_setPool tails_setPool
      (fun _ _ => stands.mem_unlink_free known (blockAt_free blocks)) fun index => nodup_unlink known
        (stands.nodup A.type index)
  refine stands.redraw changed (aside.trans served.aside) blocks sound ?_ ?_
  · rw [served.used, (poolOf_unlink known).1, usedBytes_served]
    exact Nat.mod_mod _ _
  · rw [served.used]
    exact Nat.mod_lt _ (by decide)

end Within

theorem Stands.servePages (stands : Stands p s arenas) (blocks : A.blocks = servedBlocks A.type A.start size pieces)
    (used : A.type ≠ conventionalMemory)
    (paged : ∀ a, arenaLayout.Covers A a → ∃ attributes, s.pages.at a = some (A.type, attributes))
    (apart : ∀ B ∈ arenas, arenaLayout.Apart A B)
    (tiles : pieceLayout.Tiles (blockLength p A.type (.used size A.type)) (A.pages * 0x1000) pieces)
    (shape : A.Carved p ∨ A.Whole p) (enough : poolOverhead ≤ size) (lt : size < 2 ^ 64) (nonzero : A.start ≠ 0)
    (valid : A.type < maxMemoryType ∨ oemReservedMin ≤ A.type)
    (served : Served A.type A.start size pieces { s with owned := A.region :: s.owned } s') :
    Stands p s' (A :: arenas) ∧ Gains arenas (A :: arenas) A.type A.start size := by
  have length := blockLength_pos (p := p) (t := A.type) enough lt
  have fits := tiles.le
  have outside : ∀ {t' c}, BlockAt arenas t' c → ¬ arenaLayout.Covers A c.start :=
    fun at_ => stands.outside apart at_ (stands.covers_at at_)
  refine ⟨?_, fun t' size' at_ => ?_, fun t' x n => ?_⟩
  · have changed : Changed A.type (arenaLayout.Covers A) A.blocks s s' := by
      rw [blocks]
      refine served.changed tiles enough lt id rfl (fun _ _ => rfl) rfl rfl (fun index x => ?_) (stands.nodup A.type)
      exact ⟨fun mem => ⟨mem, outside ((stands.lists _ _ _).mp mem)⟩, And.left⟩
    refine stands.add changed served.aside ⟨used, ?_, shape, ?_, nonzero, valid⟩ paged apart ?_
    · rw [blocks]
      exact tiles_served length tiles
    · rw [blocks]
      exact ⟨_, mem_cons_self, size, rfl⟩
    · rw [blocks, usedBytes_served]
      exact served.used
  · exact outside at_ ⟨Nat.le_refl _, Nat.lt_add_of_pos_right (Nat.lt_of_lt_of_le length fits)⟩
  · rw [BlockUsed, blockAt_cons, blocks, mem_served_used, or_comm]
    exact or_congr_right ⟨fun ⟨type, here, size, _⟩ => ⟨type, here, size⟩, fun ⟨type, here, size⟩ =>
      ⟨type, here, size, type⟩⟩

end Serve

theorem PoolWorld.Known.valid {s : PoolWorld} {t : MemoryType} (known : s.Known t) :
    t < maxMemoryType ∨ oemReservedMin ≤ t := known.imp_right And.left

section Allocate

variable {p : Platform} {s : PoolWorld} {arenas : List Arena} {t : MemoryType} {size : Nat}

theorem wp_takeFree {Q : Nat → PoolWorld → Prop} {R : PoolStop → PoolWorld → Prop} {index a : Nat} {rest : List Nat}
    (list : (s.poolOf t).freeList index = a :: rest) (next : Q a (s.unlink t a index)) :
    wp (takeFree t index) p Q R s := by
  rw [takeFree, wp_bind, wp_get, list]
  exact next

theorem wp_carveUp {Q : Unit → PoolWorld → Prop} {R : PoolStop → PoolWorld → Prop}
    {newPage index offset maxOffset : Nat}
    {pieces : List (Nat × Nat)} (carved : carve maxOffset index offset = some pieces)
    (next : Q () (pieces.foldl (fun s piece => s.placeFree t (newPage + piece.1) piece.2) s)) :
    wp (carveUp t newPage index offset maxOffset) p Q R s := by
  rw [carveUp, carved]
  exact next

theorem granular_dvd {granularity : Nat} (granular : Granular granularity) : 128 ∣ granularity := by
  rcases granular with rfl | rfl <;> decide

theorem granular_lt {granularity : Nat} (granular : Granular granularity) : granularity < 2 ^ 64 := by
  rcases granular with rfl | rfl <;> decide

theorem granular_floor {granularity start a : Nat} (granular : Granular granularity) (aligned : start % granularity = 0)
    (le : start ≤ a) (lt : a < start + granularity) : a / granularity * granularity = start := by
  rcases granular with rfl | rfl <;> omega

/-- A listed block lies in one of the arenas. -/
theorem Stands.find {a index : Nat} (stands : Stands p s arenas) (mem : a ∈ (s.poolOf t).freeList index) :
    ∃ before A after pre post, arenas = before ++ A :: after ∧ A.type = t ∧ A.blocks = pre ++ ⟨a, .free index⟩ :: post ∧
      a ≠ 0 ∧ a + listToSize index < 2 ^ 64 := by
  obtain ⟨A, memA, type, memb⟩ := (stands.lists t index a).mp mem
  obtain ⟨before, after, eq⟩ := append_of_mem memA
  obtain ⟨pre, post, eq'⟩ := append_of_mem memb
  have sound := stands.sound A memA
  have bounds := sound.tiles.bounds memb
  have nonzero := sound.nonzero
  have le : A.start ≤ a := bounds.1
  have le' : a + listToSize index ≤ A.start + A.pages * 0x1000 := bounds.2.2
  have below := stands.below memA
  exact ⟨before, A, after, pre, post, eq, type, eq', by omega, by omega⟩

/-- A block of the size, with its head at `head`, has been added. -/
structure Supplied (p : Platform) (arenas : List Arena) (t : MemoryType) (size : Nat) (s : PoolWorld) (head : Nat)
    (s' : PoolWorld) : Prop where
  gains : ∃ arenas', Stands p s' arenas' ∧ Gains arenas arenas' t head size
  names : s'.names = s.names
  low : LowClear p s.pages → LowClear p s'.pages

theorem room_listToSize {index larger : Nat} (lt : index < larger) (listed : larger < 12) :
    listToSize index ≤ listToSize larger ∧ 128 ∣ listToSize larger - listToSize index :=
  ⟨listToSize_mono listed (Nat.le_of_lt lt), Nat.dvd_sub (Nat.dvd_of_mod_eq_zero (listToSize_pos listed).2)
    (Nat.dvd_of_mod_eq_zero (listToSize_pos (Nat.lt_trans lt listed)).2)⟩

section Block

variable (stands : Stands p s arenas) (known : s.Known t) (used : t ≠ conventionalMemory) (enough : poolOverhead ≤ size)
  (lt : size < 2 ^ 64)
include known enough lt

include used in
/-- From new pages, in one block or carved up. -/
theorem Obtained.serve {start noPages : Nat} {w' : World} {pieces : List (Nat × Nat)}
    (got : Obtained p s arenas t start noPages (granularityOf p t) w')
    (tiles : pieceLayout.Tiles (blockLength p t (.used size t)) (noPages * 0x1000) pieces)
    (shape : (⟨t, start, noPages, servedBlocks t start size pieces⟩ : Arena).Carved p ∨
      (⟨t, start, noPages, servedBlocks t start size pieces⟩ : Arena).Whole p) :
    Supplied p arenas t size s start
      ((pieces.foldl (fun (s : PoolWorld) piece => s.placeFree t (start + piece.1) piece.2)
        { s with pages := w', owned := ⟨start, noPages, t⟩ :: s.owned }).placeUsed t start size) := by
  have le : size ≤ blockLength p t (.used size t) := le_blockLength lt
  have fits := tiles.le
  have below := got.below
  have done := served (s := { s with pages := w', owned := ⟨start, noPages, t⟩ :: s.owned }) known
    (blockLength_pos enough lt) tiles (Nat.le_trans (by decide) enough) (by omega : start + size < 2 ^ 64)
  refine ⟨⟨_, got.stands.servePages (A := ⟨t, start, noPages, _⟩) rfl used got.paged got.fresh tiles shape enough lt
    got.nonzero known.valid done⟩, done.aside.names, fun clear => ?_⟩
  rw [done.aside.pages]
  exact got.low clear

include stands

/-- From a free block, with or without carving. -/
theorem Stands.serveFree {j a : Nat} {pieces : List (Nat × Nat)}
    (listed : getPoolIndexFromSize size < getPoolIndexFromSize (granularityOf p t)) (mem : a ∈ (s.poolOf t).freeList j)
    (tiles : pieceLayout.Tiles (blockLength p t (.used size t)) (listToSize j) pieces)
    (smaller : ∀ piece ∈ pieces, piece.2 < getPoolIndexFromSize (granularityOf p t)) : a ≠ 0 ∧
      Supplied p arenas t size s a
        ((pieces.foldl (fun s piece => s.placeFree t (a + piece.1) piece.2) (s.unlink t a j)).placeUsed t a size) := by
  obtain ⟨before, A, after, pre, post, rfl, rfl, blocks, nonzero, below⟩ := stands.find mem
  have le : size ≤ blockLength p A.type (.used size A.type) := le_blockLength lt
  have fits := tiles.le
  have done := served (s := s.unlink A.type a j) (aside_unlink.known known) (blockLength_pos enough lt) tiles
    (Nat.le_trans (by decide) enough) (by omega : a + size < 2 ^ 64)
  have aside := aside_unlink.trans done.aside
  have sound := stands.serve_sound blocks tiles enough lt listed smaller
  refine ⟨nonzero, ⟨_, stands.serve blocks tiles enough lt sound known done, stands.serve_gains blocks⟩, aside.names,
    fun clear => ?_⟩
  rw [aside.pages]
  exact clear

include used

theorem wp_allocateBlock {Q : Nat → PoolWorld → Prop} (fits : size + granularityOf p t ≤ 2 ^ 64)
    (low : Searchable p t s.pages) (none_ : ∀ s', Stands p s' arenas → s'.names = s.names → Q 0 s')
    (some_ : ∀ a s', a ≠ 0 → Supplied p arenas t size s a (s'.placeUsed t a size) → Q a s') :
    wp (allocateBlock t size) p Q onlyPages s := by
  have granular : Granular (granularityOf p t) := granular_granularityOf
  rw [allocateBlock, wp_bind, wp_ask]
  dsimp only [id]
  rw [wp_ite]
  split
  next big =>
    have pos : 0 < size := Nat.lt_of_lt_of_le (by decide) enough
    obtain ⟨holds, whole, below⟩ := poolPages_spec granular lt
    refine wp_coreAllocatePoolPagesI stands used granular whole (by omega) (by omega) low
      (fun w' stands' => none_ _ stands' rfl) fun start w' got => some_ _ _ got.nonzero ?_
    have tiles : pieceLayout.Tiles (blockLength p t (.used size t)) (poolPages (granularityOf p t) size * 0x1000) [] :=
      if_pos big
    exact got.serve known used enough lt tiles (.inr ⟨size, rfl, big, enough, lt⟩)
  next under =>
    have listed := Nat.not_le.mp under
    have limit := limit_le granular
    have lengthEq := blockLength_listed listed
    rw [wp_bind, wp_get, wp_ite]
    split
    next nonempty =>
      obtain ⟨a, rest, list⟩ := exists_cons_of_ne_nil nonempty
      have tiles : pieceLayout.Tiles (blockLength p t (.used size t)) (listToSize (getPoolIndexFromSize size)) [] :=
        lengthEq
      obtain ⟨nonzero, done⟩ := stands.serveFree known enough lt listed (list ▸ mem_cons_self) tiles nofun
      exact wp_takeFree list (some_ _ _ nonzero done)
    next =>
      split
      next larger found =>
        have test := List.find?_some found
        simp only [Bool.decide_and, Bool.and_eq_true, decide_eq_true_eq] at test
        obtain ⟨index_lt, nonempty⟩ := test
        have larger_lt := mem_range.mp (mem_of_find?_eq_some found)
        obtain ⟨a, rest, list⟩ := exists_cons_of_ne_nil nonempty
        have larger_lt' := Nat.lt_of_lt_of_le larger_lt limit
        obtain ⟨le, whole⟩ := room_listToSize index_lt larger_lt'
        obtain ⟨pieces, carved, tiles, smaller⟩ :=
          carve_tiles (Nat.le_of_lt larger_lt') (.inl (Nat.zero_lt_of_lt index_lt)) le whole
        rw [← lengthEq] at tiles
        obtain ⟨nonzero, done⟩ := stands.serveFree known enough lt listed (list ▸ mem_cons_self) tiles fun piece mem =>
          Nat.lt_trans (smaller piece mem) larger_lt
        rw [wp_bind]
        refine wp_takeFree list ?_
        rw [wp_bind]
        exact wp_carveUp carved (some_ _ _ nonzero done)
      next =>
        have all := sizeToPages_granularity granular
        have whole : 128 ∣ listToSize (getPoolIndexFromSize size) :=
          Nat.dvd_of_mod_eq_zero (listToSize_pos (Nat.lt_of_lt_of_le listed limit)).2
        obtain ⟨pieces, carved, tiles, smaller⟩ := carve_tiles limit (.inl (Nat.zero_lt_of_lt listed))
          (listToSize_le granular listed) (Nat.dvd_sub (granular_dvd granular) whole)
        rw [← lengthEq, ← all] at tiles
        rw [wp_bind]
        refine wp_coreAllocatePoolPagesI stands used granular (by rw [all, Nat.mod_self]) (fun zero => ?_)
          (by rw [all]; exact granular_lt granular) low (fun w' stands' => none_ _ stands' rfl) fun start w' got => ?_
        · rw [zero, Nat.zero_mul] at all
          rcases granular with granular | granular <;> omega
        · rw [wp_ite, if_neg got.nonzero, wp_bind]
          refine wp_carveUp carved (some_ _ _ got.nonzero ?_)
          exact got.serve known used enough lt tiles (.inl ⟨all, got.aligned, small_served listed smaller enough lt⟩)

theorem wp_allocateIn {Q : Option Nat → PoolWorld → Prop} (fits : size + granularityOf p t ≤ 2 ^ 64)
    (low : Searchable p t s.pages) (none_ : ∀ s', Stands p s' arenas → s'.names = s.names → Q none s')
    (some_ : ∀ s' arenas' head, Stands p s' arenas' → Gains arenas arenas' t head size → s'.names = s.names →
      (LowClear p s.pages → LowClear p s'.pages) → Q (some (head + sizeOfPoolHead)) s') :
    wp (allocateIn t size) p Q onlyPages s := by
  rw [allocateIn, wp_bind]
  refine wp_allocateBlock stands known used enough lt fits low (fun s' stands' names => ?_) fun a s' nonzero done => ?_
  · rw [wp_ite, if_pos rfl]
    exact none_ s' stands' names
  · rw [wp_ite, if_neg nonzero, wp_bind, wp_modify]
    obtain ⟨arenas', stands', gains⟩ := done.gains
    exact some_ _ arenas' a stands' gains done.names done.low

end Block

theorem poolOf_newPool {b : Nat} (missing : t ∉ s.names.map Prod.fst) (t' : MemoryType) :
    PoolWorld.poolOf { s with poolHeadList := ⟨t, emptyPool, b⟩ :: s.poolHeadList } t' = s.poolOf t' := by
  rw [PoolWorld.poolOf, PoolWorld.poolOf]
  split
  · rfl
  · rw [PoolWorld.oemPool?, PoolWorld.oemPool?, List.find?_cons]
    dsimp only
    by_cases same : t = t'
    · subst same
      have none_ : s.oemPool? t = none :=
        Option.not_isSome_iff_eq_none.mp fun found => missing (oemPool?_isSome.mp found)
      rw [PoolWorld.oemPool?] at none_
      simp [none_]
    · simp [same]

theorem Stands.newPool {b : Nat} (stands : Stands p s arenas) (missing : t ∉ s.names.map Prod.fst) :
    Stands p { s with poolHeadList := ⟨t, emptyPool, b⟩ :: s.poolHeadList } arenas :=
  { stands with
    lists := fun t' => by rw [poolOf_newPool missing]; exact stands.lists t'
    nodup := fun t' => by rw [poolOf_newPool missing]; exact stands.nodup t'
    used := fun t' => by rw [poolOf_newPool missing]; exact stands.used t'
    types := nodup_cons.mpr ⟨missing, stands.types⟩ }

theorem wp_lookupPoolHead {Q : Bool → PoolWorld → Prop} (stands : Stands p s arenas)
    (valid : t < maxMemoryType ∨ oemReservedMin ≤ t) (there : s.Known t → Q true s)
    (failed : ∀ s', Stands p s' arenas → s'.names = s.names → Q false s')
    (made : ∀ s' arenas' head, t ∉ s.names.map Prod.fst → Stands p s' arenas' → s'.Known t →
      Gains arenas arenas' bootServicesData head (adjustedSize sizeOfPool) →
      s'.names = (t, head + sizeOfPoolHead) :: s.names → (LowClear p s.pages → LowClear p s'.pages) → Q true s') :
    wp (lookupPoolHead t) p Q onlyPages s := by
  rw [lookupPoolHead, wp_ite]
  split
  next named => exact there (.inl named)
  next unnamed =>
    have oem := valid.resolve_left unnamed
    rw [wp_ite, if_pos oem, wp_bind, wp_get, wp_ite]
    split
    next found => exact there (.inr ⟨oem, oemPool?_isSome.mp found⟩)
    next missing =>
      have missing' : t ∉ s.names.map Prod.fst := fun mem => missing (oemPool?_isSome.mpr mem)
      rw [wp_bind]
      refine wp_allocateIn stands (.inl (by decide)) (by decide) (by decide) (by decide)
        (show adjustedSize sizeOfPool + 0x1000 ≤ 2 ^ 64 by decide) (.inl rfl)
        (fun s' stands' names => failed s' stands' names) fun s' arenas' head stands' gains names low => ?_
      dsimp only
      rw [wp_bind, wp_modify, wp_pure]
      have names' : PoolWorld.names { s' with poolHeadList :=
        ⟨t, emptyPool, head + sizeOfPoolHead⟩ :: s'.poolHeadList } =
          (t, head + sizeOfPoolHead) :: s.names := congrArg ((t, head + sizeOfPoolHead) :: ·) names
      refine made _ arenas' head missing' (stands'.newPool (by rw [names]; exact missing')) ?_ gains names' low
      rw [PoolWorld.Known, names']
      exact .inr ⟨oem, mem_cons_self⟩

end Allocate

end LeoEdk.Memory
