import LeoEdk.Theorems.PoolAllocation

/-! Freeing a block: its pages go back, or it goes on its list, and its page goes back if all of it is free. `InPage`
    splits a page at the block, and `keep` and `drop` are the two ways on. -/

namespace LeoEdk.Memory

open Layout Prog List

section Free

variable {p : Platform} {s : PoolWorld} {arenas before after : List Arena} {A : Arena} {t : MemoryType}
  {granularity page : Nat}

theorem Stands.known (stands : Stands p s arenas) (mem : A ∈ arenas) : s.Known A.type := by
  by_contra unknown
  obtain ⟨unnamed, missing⟩ := not_or.mp unknown
  have oem := (stands.sound A mem).valid.resolve_left unnamed
  have none_ : s.oemPool? A.type = none :=
    Option.not_isSome_iff_eq_none.mp fun found => missing ⟨oem, oemPool?_isSome.mp found⟩
  have used := stands.used A.type
  rw [PoolWorld.poolOf, if_neg unnamed, none_, Nat.mod_eq_of_lt (stands.usedSum_lt _)] at used
  exact absurd used.symm (Nat.ne_of_gt (stands.usedSum_pos mem))

theorem tiles_step {offset : Nat} {c : Block} {bs : List Block}
    (tiles : (blockLayout p t).Tiles (page + offset) (page + granularity) (c :: bs)) :
    c.start = page + offset ∧ offset < granularity ∧ (∀ d ∈ bs, d.start ≠ c.start) ∧
      ∀ index, c.header = .free index →
        (blockLayout p t).Tiles (page + (offset + listToSize index)) (page + granularity) bs := by
  obtain ⟨start, pos, rest⟩ := tiles
  have begins : c.start = page + offset := start
  have below : (blockLayout p t).next c ≤ page + granularity := rest.le
  have longer : c.start < (blockLayout p t).next c := pos
  refine ⟨start, by omega, fun d mem => ?_, fun index header => ?_⟩
  · have : (blockLayout p t).next c ≤ d.start := (rest.bounds mem).1
    omega
  · have along : (blockLayout p t).next c = page + (offset + listToSize index) := by
      change c.start + blockLength p t c.header = _
      rw [header, begins, Nat.add_assoc]
      rfl
    rwa [along] at rest

/-- The loop over a granule tells whether all of its blocks are free. -/
theorem wp_allFree {Q : Bool → PoolWorld → Prop} {fuel offset : Nat} {bs : List Block}
    (tiles : (blockLayout p t).Tiles (page + offset) (page + granularity) bs)
    (heads : ∀ c ∈ bs, s.heads c.start = some c.header) (enough : bs.length < fuel)
    (free : (∀ c ∈ bs, ∃ index, c.header = .free index) → Q true s)
    (busy : (∃ c ∈ bs, ∃ size t', c.header = .used size t') → Q false s) :
    wp (allFree granularity page fuel offset) p Q onlyPages s := by
  induction bs generalizing fuel offset with
  | nil =>
    obtain _ | fuel := fuel
    · cases enough
    have same : page + offset = page + granularity := tiles
    rw [allFree, wp_ite, if_neg (by omega)]
    exact free nofun
  | cons c bs ih =>
    obtain _ | fuel := fuel
    · cases enough
    obtain ⟨begins, inside, _, rest⟩ := tiles_step tiles
    have here := heads c mem_cons_self
    rw [begins] at here
    rw [allFree, wp_ite, if_pos inside, wp_bind, wp_get, here]
    cases header : c.header with
    | free index =>
      refine ih (rest index header) (fun d mem => heads d (mem_cons_of_mem c mem)) (Nat.lt_of_succ_lt_succ enough) ?_ ?_
      · exact fun all => free (forall_mem_cons.mpr ⟨⟨index, header⟩, all⟩)
      · rintro ⟨d, mem, used⟩
        exact busy ⟨d, mem_cons_of_mem c mem, used⟩
    | used size t' => exact busy ⟨c, mem_cons_self, size, t', header⟩

/-- The blocks `bs` have been taken off the free lists. -/
structure Unlinked (t : MemoryType) (bs : List Block) (s s' : PoolWorld) : Prop where
  aside : Aside t s s'
  heads : s'.heads = s.heads
  tails : s'.tails = s.tails
  used : (s'.poolOf t).used = (s.poolOf t).used
  lists : ∀ index x, x ∈ (s'.poolOf t).freeList index ↔ x ∈ (s.poolOf t).freeList index ∧ ⟨x, .free index⟩ ∉ bs
  nodup : ∀ index, ((s'.poolOf t).freeList index).Nodup

theorem wp_unlinkAll {Q : Unit → PoolWorld → Prop} {fuel offset : Nat} {bs : List Block} (known : s.Known t)
    (tiles : (blockLayout p t).Tiles (page + offset) (page + granularity) bs)
    (heads : ∀ c ∈ bs, s.heads c.start = some c.header) (enough : bs.length < fuel)
    (free : ∀ c ∈ bs, ∃ index, c.header = .free index ∧ c.start ∈ (s.poolOf t).freeList index)
    (nodup : ∀ index, ((s.poolOf t).freeList index).Nodup) (next : ∀ s', Unlinked t bs s s' → Q () s') :
    wp (unlinkAll t granularity page fuel offset) p Q onlyPages s := by
  induction bs generalizing fuel offset s with
  | nil =>
    obtain _ | fuel := fuel
    · cases enough
    have same : page + offset = page + granularity := tiles
    rw [unlinkAll, wp_ite, if_neg (by omega)]
    exact next s ⟨.refl s, rfl, rfl, rfl, by simp, nodup⟩
  | cons c bs ih =>
    obtain _ | fuel := fuel
    · cases enough
    obtain ⟨begins, inside, later, rest⟩ := tiles_step tiles
    obtain ⟨index, header, mem⟩ := free c mem_cons_self
    obtain rfl : c = ⟨page + offset, .free index⟩ := by
      obtain ⟨_, _⟩ := c
      cases header
      cases begins
      rfl
    rw [unlinkAll, wp_ite, if_pos inside, wp_bind, wp_get, heads _ mem_cons_self]
    dsimp only
    rw [wp_ite, if_pos mem, wp_bind, wp_modify]
    refine ih (aside_unlink.known known) (rest index rfl) (fun d memD => ?_) (Nat.lt_of_succ_lt_succ enough)
      (fun d memD => ?_) (fun i => nodup_unlink known (nodup i)) fun s' unlinked =>
        next s' ⟨aside_unlink.trans unlinked.aside, ?_, ?_, ?_, fun i x => ?_, unlinked.nodup⟩
    · rw [PoolWorld.unlink, heads_setPool]
      exact heads d (mem_cons_of_mem _ memD)
    · obtain ⟨i, headerD, memI⟩ := free d (mem_cons_of_mem _ memD)
      refine ⟨i, headerD, (mem_unlink known (nodup i)).mpr ⟨memI, fun same => later d memD ?_⟩⟩
      have starts := congrArg Block.start same
      exact starts
    · rw [unlinked.heads, PoolWorld.unlink, heads_setPool]
    · rw [unlinked.tails, PoolWorld.unlink, tails_setPool]
    · rw [unlinked.used, (poolOf_unlink known).1]
    · rw [unlinked.lists, mem_unlink known (nodup i), mem_cons, not_or, and_assoc]

/-- Exactly the block at `head` is no longer in use. -/
structure Loses (arenas arenas' : List Arena) (head : Nat) : Prop where
  used : ∀ t' a size', BlockUsed arenas' t' a size' ↔ BlockUsed arenas t' a size' ∧ a ≠ head

theorem wp_coreFreePoolPagesI {Q : Unit → PoolWorld → Prop} {memory noPages : Nat} (intact : Intact p s.pages)
    (pos : noPages ≠ 0) (below : memory + noPages * 0x1000 < 2 ^ 64)
    (next : ∀ w', Tidied p (fun a => memory ≤ a ∧ a < memory + noPages * 0x1000) s.pages w' →
      Q () (PoolWorld.giveBack { s with pages := w' } memory noPages)) :
    wp (coreFreePoolPagesI memory noPages) p Q onlyPages s := by
  rw [coreFreePoolPagesI, wp_bind]
  refine wp_paged (wp_coreConvertPages tidies_coreFreeMemoryMapStack intact (fun _ => ?_) fun status w' _ runs => ?_)
  · rw [wp_modify]
    exact next s.pages (.refl intact)
  · have ran := runs.ran
    rw [lastOf_of_lt pos below] at ran
    rw [wp_modify]
    refine next w' (ran.tidied.mono fun a inside => ⟨inside.1, ?_⟩)
    have := inside.2
    omega

theorem Stands.loses {a : Nat} {b : Block} (stands : Stands p s (before ++ A :: after)) (memb : b ∈ A.blocks)
    (start : b.start = a) (all : ∀ c ∈ A.blocks, ∀ size t', c.header = .used size t' → c.start = a) :
    Loses (before ++ A :: after) (before ++ after) a := by
  refine ⟨fun t' x n => ⟨fun at_ => ⟨blockAt_middle.mpr (.inr at_), fun same => ?_⟩, ?_⟩⟩
  · obtain ⟨B, memB, _, memc⟩ := at_
    exact stands.other_start memB memb memc (same.trans start.symm)
  · rintro ⟨at_, ne⟩
    rcases blockAt_middle.mp at_ with ⟨_, mem⟩ | at_
    · exact absurd (all _ mem n t' rfl) ne
    · exact at_

theorem wp_lookupPoolHead_known {Q : Bool → PoolWorld → Prop} {R : PoolStop → PoolWorld → Prop} (known : s.Known t)
    (next : Q true s) : wp (lookupPoolHead t) p Q R s := by
  rw [lookupPoolHead, wp_ite]
  split
  next => exact next
  next unnamed =>
    obtain ⟨oem, mem⟩ := known.resolve_left unnamed
    rw [wp_ite, if_pos oem, wp_bind, wp_get, wp_ite, if_pos (oemPool?_isSome.mpr mem)]
    exact next

def uncounted (s : PoolWorld) (t : MemoryType) (size : Nat) : PoolWorld :=
  s.setPool t { s.poolOf t with used := ((s.poolOf t).used + 2 ^ 64 - size) % 2 ^ 64 }

theorem poolOf_uncounted {size : Nat} (known : s.Known t) :
    ((uncounted s t size).poolOf t).used = ((s.poolOf t).used + 2 ^ 64 - size) % 2 ^ 64 ∧
      ((uncounted s t size).poolOf t).freeList = (s.poolOf t).freeList := by
  rw [uncounted, poolOf_setPool known]
  exact ⟨rfl, rfl⟩

theorem Stands.free_in {index x : Nat} (stands : Stands p s (before ++ A :: after))
    (mem : x ∈ (s.poolOf A.type).freeList index) : ⟨x, .free index⟩ ∈ A.blocks ∨ ¬ arenaLayout.Covers A x := by
  have at_ := (stands.lists _ _ _).mp mem
  rcases blockAt_middle.mp at_ with ⟨_, here⟩ | ⟨B, memB, _, memc⟩
  · exact .inl here
  · refine .inr fun inA => ?_
    have inB := (stands.sound B (mem_others memB)).covers memc ((stands.sound B (mem_others memB)).covers_start memc)
    exact (stands.apart_others B memB).not_covers inA inB

/-- The block at `a` is free, listed and no longer counted. -/
structure Relisted (t : MemoryType) (a size index : Nat) (s s' : PoolWorld) : Prop where
  aside : Aside t s s'
  heads : ∀ x, s'.heads x = if x = a then some (.free index) else s.heads x
  tails : s'.tails = s.tails
  used : (s'.poolOf t).used = ((s.poolOf t).used + 2 ^ 64 - size) % 2 ^ 64
  lists : ∀ i, (s'.poolOf t).freeList i = if i = index then a :: (s.poolOf t).freeList i else (s.poolOf t).freeList i

theorem Relisted.mem_iff {a size index i x : Nat} {s' : PoolWorld} (relisted : Relisted t a size index s s') :
    x ∈ (s'.poolOf t).freeList i ↔ (⟨x, .free i⟩ : Block) = ⟨a, .free index⟩ ∨ x ∈ (s.poolOf t).freeList i := by
  rw [relisted.lists]
  split
  next same => simp [same]
  next other => simp [other]

theorem relisted {a size index : Nat} (known : s.Known t) :
    Relisted t a size index s ((uncounted s t size).placeFree t a index) := by
  have aside : Aside t s (uncounted s t size) := aside_setPool
  obtain ⟨used, lists⟩ := @poolOf_uncounted s t size known
  have placed : PlacedFree t a index (uncounted s t size) _ := placedFree (aside.known known)
  refine ⟨aside.trans placed.aside, fun x => ?_, ?_, placed.used.trans used, fun i => ?_⟩
  · rw [placed.heads, uncounted, heads_setPool]
  · rw [placed.tails, uncounted, tails_setPool]
  · rw [placed.lists, lists]

section Small

variable {a size : Nat} {pre post : List Block} {s' : PoolWorld}

/-- A small block in use, among the others of its granule. -/
structure InPage (p : Platform) (s : PoolWorld) (before after : List Arena) (A : Arena) (pre post : List Block)
    (a size : Nat) : Prop where
  stands : Stands p s (before ++ A :: after)
  blocks : A.blocks = pre ++ ⟨a, .used size A.type⟩ :: post
  carved : A.Carved p
  listed : getPoolIndexFromSize size < getPoolIndexFromSize (granularityOf p A.type)

/-- The granule once the block is free. -/
def freedBlocks (a index : Nat) (pre post : List Block) : List Block := pre ++ [⟨a, .free index⟩] ++ post

variable (inPage : InPage p s before after A pre post a size)
include inPage

theorem InPage.tiles : (blockLayout p A.type).Tiles A.start
    (A.start + A.pages * 0x1000) (freedBlocks a (getPoolIndexFromSize size) pre post) ∧
    A.start ≤ a ∧ a + listToSize (getPoolIndexFromSize size) ≤ A.start + A.pages * 0x1000 := by
  have tiles := (inPage.stands.sound A (mem_append_right _ mem_cons_self)).tiles
  rw [inPage.blocks] at tiles
  obtain ⟨mid, left, start, pos, right⟩ := tiles_append.mp tiles
  have begins : a = mid := start
  have next : (blockLayout p A.type).next ⟨a, .used size A.type⟩ = a + listToSize (getPoolIndexFromSize size) :=
    congrArg (a + ·) (blockLength_listed inPage.listed)
  have longer : a < (blockLayout p A.type).next ⟨a, .used size A.type⟩ := pos
  rw [next] at right longer
  subst begins
  have here : (blockLayout p A.type).Tiles a (a + listToSize (getPoolIndexFromSize size))
      [⟨a, .free (getPoolIndexFromSize size)⟩] := ⟨rfl, longer, rfl⟩
  exact ⟨(left.append here).append right, left.le, right.le⟩

theorem InPage.mem_iff {c : Block} : c ∈ freedBlocks a (getPoolIndexFromSize size) pre post ↔
    c = ⟨a, .free (getPoolIndexFromSize size)⟩ ∨ (c ∈ A.blocks ∧ c.start ≠ a) := by
  have tiles := (inPage.stands.sound A (mem_append_right _ mem_cons_self)).tiles
  rw [inPage.blocks] at tiles ⊢
  rw [freedBlocks, mem_redrawn tiles, mem_singleton]

theorem InPage.used_block : (⟨a, .used size A.type⟩ : Block) ∈ A.blocks := by
  rw [inPage.blocks]
  exact mem_append_right _ mem_cons_self

theorem InPage.covers : (blockLayout p A.type).Covers ⟨a, .used size A.type⟩ a :=
  (inPage.stands.sound A (mem_append_right _ mem_cons_self)).covers_start inPage.used_block

theorem InPage.unlisted {x : Nat} (covers : (blockLayout p A.type).Covers ⟨a, .used size A.type⟩ x) (index : Nat) :
    x ∉ (s.poolOf A.type).freeList index := by
  intro mem
  have stands := inPage.stands
  obtain ⟨B, memB, _, memc⟩ := (stands.lists _ _ _).mp mem
  cases (stands.unique memB (mem_append_right _ mem_cons_self) memc inPage.used_block
    ((stands.sound B memB).covers_start memc) covers).2

theorem InPage.bytes
    (free : ∀ c ∈ freedBlocks a (getPoolIndexFromSize size) pre post, ∃ index, c.header = .free index) :
    usedBytes A.blocks = size := by
  have none_ : ∀ bs : List Block, (∀ c ∈ bs, ∃ index, c.header = .free index) → usedBytes bs = 0 := by
    intro bs all
    induction bs with
    | nil => rfl
    | cons c bs ih =>
      obtain ⟨index, header⟩ := all c mem_cons_self
      rw [usedBytes_cons, header, ih fun d mem => all d (mem_cons_of_mem c mem)]
      rfl
  rw [inPage.blocks, usedBytes_append, usedBytes_cons, none_ pre fun c mem => free c ?_,
    none_ post fun c mem => free c ?_]
  · exact Nat.zero_add size
  · exact mem_append_right _ mem
  · exact mem_append_left _ (mem_append_left _ mem)

section Relisted

variable (relisted : Relisted A.type a size (getPoolIndexFromSize size) s s')
include relisted

theorem InPage.relisted_nodup (index : Nat) :
    ((s'.poolOf A.type).freeList index).Nodup := by
  rw [relisted.lists]
  split
  · exact nodup_cons.mpr ⟨inPage.unlisted inPage.covers index, inPage.stands.nodup _ _⟩
  · exact inPage.stands.nodup _ _

theorem InPage.relisted_heads :
    ∀ c ∈ freedBlocks a (getPoolIndexFromSize size) pre post, s'.heads c.start = some c.header := by
  intro c mem
  rw [relisted.heads]
  rcases inPage.mem_iff.mp mem with rfl | ⟨old, ne⟩
  · exact if_pos rfl
  · rw [if_neg ne]
    exact inPage.stands.heads A.type c ⟨A, mem_append_right _ mem_cons_self, rfl, old⟩

/-- Other blocks are in use: the pages stay with the pool. -/
theorem InPage.keep
    (busy : ∃ c ∈ freedBlocks a (getPoolIndexFromSize size) pre post, ∃ n t', c.header = .used n t') :
    Stands p s' (before ++ A.redrawn (freedBlocks a (getPoolIndexFromSize size) pre post) :: after) ∧
      Loses (before ++ A :: after) (before ++ A.redrawn (freedBlocks a (getPoolIndexFromSize size) pre post) :: after)
        a := by
  have stands := inPage.stands
  have memA : A ∈ before ++ A :: after := mem_append_right _ mem_cons_self
  have sound := stands.sound A memA
  refine ⟨?_, ⟨fun t' x n => ?_⟩⟩
  · have changed : Changed A.type ((blockLayout p A.type).Covers ⟨a, .used size A.type⟩)
        [⟨a, .free (getPoolIndexFromSize size)⟩] s s' := by
      refine ⟨relisted.aside.names, relisted.aside.others, ?_, fun x out => ?_, fun x n mem => ?_, fun x out => ?_,
        fun index x => ?_, inPage.relisted_nodup relisted⟩
      · intro c mem
        rw [mem_singleton.mp mem, relisted.heads, if_pos rfl]
      · rw [relisted.heads, if_neg]
        rintro rfl
        exact out inPage.covers
      · simp at mem
      · rw [relisted.tails]
      · rw [relisted.mem_iff, mem_singleton]
        exact or_congr_right ⟨fun mem => ⟨mem, fun covers => inPage.unlisted covers _ mem⟩, And.left⟩
    refine stands.redraw changed relisted.aside inPage.blocks ⟨sound.used, inPage.tiles.1,
      .inl ⟨inPage.carved.1, inPage.carved.2.1, ?_⟩, ?_, sound.nonzero, sound.valid⟩ ?_ ?_
    · intro c mem
      rcases inPage.mem_iff.mp mem with rfl | ⟨old, _⟩
      · exact inPage.listed
      · exact inPage.carved.2.2 c old
    · obtain ⟨c, mem, n, t', header⟩ := busy
      rcases inPage.mem_iff.mp mem with rfl | ⟨old, _⟩
      · cases header
      · obtain ⟨_, _, rfl⟩ := overhead_le_usedSize sound old header
        exact ⟨c, mem, n, header⟩
    · have small := stands.used_lt A.type
      have lt := (overhead_le_usedSize sound inPage.used_block rfl).2.1
      rw [relisted.used]
      change (_ + size) % _ = (_ + 0) % _
      omega
    · rw [relisted.used]
      exact Nat.mod_lt _ (by decide)
  · rw [BlockUsed, BlockUsed, freedBlocks, stands.blockAt_redrawn inPage.blocks]
    simp

/-- It was the last block in use: the pages are given back. -/
theorem InPage.drop {s'' : PoolWorld} {w' : World}
    (free : ∀ c ∈ freedBlocks a (getPoolIndexFromSize size) pre post, ∃ index, c.header = .free index)
    (unlinked : Unlinked A.type (freedBlocks a (getPoolIndexFromSize size) pre post) s' s'')
    (tidied : Tidied p (fun a => A.start ≤ a ∧ a < A.start + A.pages * 0x1000) s.pages w') (noPages : Nat)
    (same : noPages = A.pages) :
    Stands p (PoolWorld.giveBack { s'' with pages := w' } A.start noPages) (before ++ after) ∧
      Loses (before ++ A :: after) (before ++ after) a := by
  have stands := inPage.stands
  have sound := stands.sound A (mem_append_right _ mem_cons_self)
  obtain ⟨_, lt, _⟩ := overhead_le_usedSize sound inPage.used_block rfl
  have inA : arenaLayout.Covers A a := sound.covers inPage.used_block inPage.covers
  refine ⟨stands.giveBack (inPage.bytes free) tidied (relisted.aside.trans unlinked.aside) (fun x out => ?_)
    (fun x _ => ?_) (fun index x => ?_) unlinked.nodup ?_ lt same, stands.loses inPage.used_block rfl ?_⟩
  · rw [unlinked.heads, relisted.heads, if_neg]
    rintro rfl
    exact out inA
  · rw [unlinked.tails, relisted.tails]
  · rw [unlinked.lists]
    constructor
    · rintro ⟨mem, notIn⟩
      have mem' := (relisted.mem_iff.mp mem).resolve_left fun here => notIn (inPage.mem_iff.mpr (.inl here))
      refine ⟨mem', (stands.free_in mem').resolve_left fun here => notIn (inPage.mem_iff.mpr (.inr ⟨here, ?_⟩))⟩
      rintro rfl
      exact inPage.unlisted inPage.covers _ mem'
    · rintro ⟨mem, out⟩
      refine ⟨relisted.mem_iff.mpr (.inr mem), fun here => out ?_⟩
      have bounds := inPage.tiles.1.bounds here
      exact ⟨bounds.1, Nat.lt_of_lt_of_le bounds.2.1 bounds.2.2⟩
  · rw [unlinked.used, relisted.used]
  · intro c mem n t' header
    by_contra ne
    obtain ⟨index, free⟩ := free c (inPage.mem_iff.mpr (.inr ⟨mem, ne⟩))
    rw [header] at free
    cases free

end Relisted

theorem wp_releaseSmall {Q : Unit → PoolWorld → Prop}
    (next : ∀ s' arenas', Stands p s' arenas' → Loses (before ++ A :: after) arenas' a → s'.names = s.names → Q () s') :
    wp (releaseSmall A.type (granularityOf p A.type) a (getPoolIndexFromSize size)) p Q onlyPages
      (uncounted s A.type size) := by
  have stands := inPage.stands
  have memA : A ∈ before ++ A :: after := mem_append_right _ mem_cons_self
  have known := stands.known memA
  obtain ⟨whole, aligned, _⟩ := inPage.carved
  obtain ⟨tiles, le, le'⟩ := inPage.tiles
  have granular : Granular (granularityOf p A.type) := granular_granularityOf
  obtain ⟨pos, _⟩ := listToSize_pos (Nat.lt_of_lt_of_le inPage.listed (limit_le granular))
  have below := stands.below memA
  rw [whole] at tiles le' below
  have page := granular_floor granular aligned le (Nat.lt_of_lt_of_le (Nat.lt_add_of_pos_right pos) le')
  have again : Relisted A.type a size (getPoolIndexFromSize size) s _ := relisted known
  have length := tiles.length_le
  have fromStart : (blockLayout p A.type).Tiles (A.start + 0) _ _ := tiles
  have heads := inPage.relisted_heads again
  rw [releaseSmall, wp_bind, wp_modify]
  dsimp only
  rw [page, wp_bind]
  refine wp_allFree fromStart heads (by omega) (fun free => ?_) fun busy => ?_
  · rw [if_pos rfl, wp_bind]
    refine wp_unlinkAll (again.aside.known known) fromStart heads (by omega) (fun c mem => ?_)
      (inPage.relisted_nodup again) fun s' unlinked => ?_
    · obtain ⟨index, header⟩ := free c mem
      refine ⟨index, header, again.mem_iff.mpr ?_⟩
      rcases inPage.mem_iff.mp mem with rfl | ⟨old, _⟩
      · cases header
        exact .inl rfl
      · exact .inr ((stands.lists _ _ _).mpr ⟨A, memA, rfl, header ▸ old⟩)
    · have pages := (again.aside.trans unlinked.aside).pages
      have units := sizeToPages_granularity granular
      refine wp_coreFreePoolPagesI (by rw [pages]; exact stands.intact) (fun zero => ?_) (by rw [units]; exact below)
        fun w' tidied => ?_
      · rw [zero, Nat.zero_mul] at units
        omega
      · rw [pages, units, ← whole] at tidied
        obtain ⟨stands', loses⟩ := inPage.drop again free unlinked tidied (sizeToPages (granularityOf p A.type))
          (by omega)
        exact next _ _ stands' loses (again.aside.trans unlinked.aside).names
  · rw [if_neg Bool.false_ne_true]
    obtain ⟨stands', loses⟩ := inPage.keep again busy
    exact next _ _ stands' loses again.aside.names

end Small

/-- The pages that a block has to itself. -/
theorem Stands.dropWhole {size noPages : Nat} {w' : World} (stands : Stands p s (before ++ A :: after))
    (known : s.Known A.type) (whole : A.blocks = [⟨A.start, .used size A.type⟩]) (lt : size < 2 ^ 64)
    (tidied : Tidied p (fun a => A.start ≤ a ∧ a < A.start + A.pages * 0x1000) s.pages w') (same : noPages = A.pages) :
    Stands p (PoolWorld.giveBack { uncounted s A.type size with pages := w' } A.start noPages) (before ++ after) ∧
      Loses (before ++ A :: after) (before ++ after) A.start := by
  have aside : Aside A.type s (uncounted s A.type size) := aside_setPool
  obtain ⟨used, lists⟩ := @poolOf_uncounted s A.type size known
  refine ⟨stands.giveBack (by rw [whole]; rfl) tidied aside (fun x _ => ?_) (fun x _ => ?_) (fun index x => ?_)
    (fun index => ?_) used lt same, stands.loses (by rw [whole]; exact mem_cons_self) rfl ?_⟩
  · rw [uncounted, heads_setPool]
  · rw [uncounted, tails_setPool]
  · rw [lists]
    refine ⟨fun mem => ⟨mem, (stands.free_in mem).resolve_left fun here => ?_⟩, And.left⟩
    rw [whole] at here
    cases mem_singleton.mp here
  · rw [lists]
    exact stands.nodup _ _
  · intro c mem n t' _
    rw [whole] at mem
    rw [mem_singleton.mp mem]

theorem wp_freeBlock {Q : EfiStatus × Option MemoryType → PoolWorld → Prop} {a size : Nat} (stands : Stands p s arenas)
    (at_ : BlockUsed arenas t a size)
    (next : ∀ s' arenas', Stands p s' arenas' → Loses arenas arenas' a → s'.names = s.names → Q (.success, some t) s') :
    wp (freeBlock (a + sizeOfPoolHead)) p Q onlyPages s := by
  obtain ⟨A, memA, rfl, memb⟩ := at_
  obtain ⟨before, after, rfl⟩ := append_of_mem memA
  obtain ⟨pre, post, blocks⟩ := append_of_mem memb
  have sound := stands.sound A memA
  obtain ⟨enough, lt, _⟩ := overhead_le_usedSize sound memb rfl
  have fits : size ≤ blockLength p A.type (.used size A.type) := usedSize_le sound memb
  have bounds := sound.tiles.bounds memb
  have below := stands.below memA
  have last : a + blockLength p A.type (.used size A.type) ≤ A.start + A.pages * 0x1000 := bounds.2.2
  have known := stands.known memA
  have at_ : BlockUsed (before ++ A :: after) A.type a size := ⟨A, memA, rfl, memb⟩
  have tail : (a + size + 2 ^ 64 - sizeOfPoolTail) % 2 ^ 64 = a + size - sizeOfPoolTail := by
    rw [poolOverhead, sizeOfPoolHead, sizeOfPoolTail] at enough
    rw [sizeOfPoolTail]
    omega
  have headHere := stands.heads A.type ⟨a, .used size A.type⟩ at_
  rw [freeBlock, wp_bind, wp_ask, wp_bind, wp_get]
  dsimp only [id]
  rw [Nat.add_sub_cancel, headHere]
  dsimp only
  rw [wp_ite, tail, if_pos (stands.tails _ _ _ at_), wp_bind]
  refine wp_lookupPoolHead_known known ?_
  rw [if_pos rfl, wp_bind, wp_modify, wp_ite]
  split
  next big =>
    rw [wp_bind]
    change wp _ _ _ _ (uncounted s A.type size)
    -- Pages of its own.
    have aside : Aside A.type s (uncounted s A.type size) := aside_setPool
    obtain ⟨size', whole, _⟩ : A.Whole p := by
      refine sound.shape.resolve_left fun carved => ?_
      exact absurd big (Nat.not_le.mpr (carved.2.2 _ memb).1)
    rw [whole] at memb
    cases mem_singleton.mp memb
    have length : blockLength p A.type (.used size A.type) = poolPages (granularityOf p A.type) size * 0x1000 :=
      if_pos big
    have tiles := sound.tiles
    rw [whole] at tiles
    have ends : A.start + blockLength p A.type (.used size A.type) = A.start + A.pages * 0x1000 := tiles.2.2
    have same : poolPages (granularityOf p A.type) size = A.pages := by omega
    refine wp_coreFreePoolPagesI (by rw [aside.pages]; exact stands.intact) (fun zero => ?_) (by rw [same]; exact below)
      fun w' tidied => ?_
    · have := sound.pos
      omega
    · rw [aside.pages, same] at tidied
      obtain ⟨stands', loses⟩ := stands.dropWhole known whole lt tidied same
      exact next _ _ stands' loses aside.names
  next under =>
    have listed := Nat.not_le.mp under
    have carved : A.Carved p := by
      refine sound.shape.resolve_right ?_
      rintro ⟨size', whole, big, _⟩
      rw [whole] at memb
      cases mem_singleton.mp memb
      exact under big
    rw [wp_bind]
    exact wp_releaseSmall ⟨stands, blocks, carved, listed⟩ next

end Free

end LeoEdk.Memory
