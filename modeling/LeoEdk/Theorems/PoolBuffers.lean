import LeoEdk.Theorems.PoolRelease

/-! Buffers of the pools: in every sequence of allocations and frees they are large enough and lie apart. The buffers
    of callers and those that hold further pools are different blocks in use (`Keeps`). -/

namespace LeoEdk.Memory

open Layout Prog List

/-! ### What is handed out -/

structure Buffer where
  address : Nat
  size : Nat
  type : MemoryType

/-- The buffers of the callers and those of the pools are blocks in use, and all are different. -/
structure Keeps (arenas : List Arena) (names : List (MemoryType × Nat)) (live : List Buffer) : Prop where
  buffers : ∀ b ∈ live, sizeOfPoolHead ≤ b.address ∧
    BlockUsed arenas b.type (b.address - sizeOfPoolHead) (adjustedSize b.size)
  pools : ∀ o ∈ names, sizeOfPoolHead ≤ o.2 ∧
    BlockUsed arenas bootServicesData (o.2 - sizeOfPoolHead) (adjustedSize sizeOfPool)
  distinct : (live.map Buffer.address ++ names.map Prod.snd).Nodup

section Keeps

variable {p : Platform} {s : PoolWorld} {arenas arenas' : List Arena} {names : List (MemoryType × Nat)}
  {live : List Buffer}
  {t : MemoryType} {head size : Nat}

variable (keeps : Keeps arenas names live)
include keeps

theorem Keeps.fresh (gains : Gains arenas arenas' t head size) :
    head + sizeOfPoolHead ∉ live.map Buffer.address ++ names.map Prod.snd := by
  intro mem
  rcases mem_append.mp mem with mem | mem
  · obtain ⟨b, memB, same⟩ := mem_map.mp mem
    obtain ⟨_, used⟩ := keeps.buffers b memB
    rw [same, Nat.add_sub_cancel] at used
    exact gains.fresh _ _ used
  · obtain ⟨o, memO, same⟩ := mem_map.mp mem
    obtain ⟨_, used⟩ := keeps.pools o memO
    rw [same, Nat.add_sub_cancel] at used
    exact gains.fresh _ _ used

theorem Keeps.gained {n : Nat} (gains : Gains arenas arenas' t head n) : Keeps arenas' names live where
  buffers b mem := (keeps.buffers b mem).imp_right fun used => (gains.used _ _ _).mpr (.inl used)
  pools o mem := (keeps.pools o mem).imp_right fun used => (gains.used _ _ _).mpr (.inl used)
  distinct := keeps.distinct

theorem Keeps.handed (gains : Gains arenas arenas' t head (adjustedSize size)) :
    Keeps arenas' names (⟨head + sizeOfPoolHead, size, t⟩ :: live) where
  buffers := by
    refine forall_mem_cons.mpr ⟨⟨Nat.le_add_left _ _, (gains.used _ _ _).mpr (.inr ?_)⟩, (keeps.gained gains).buffers⟩
    exact ⟨rfl, Nat.add_sub_cancel .., rfl⟩
  pools := (keeps.gained gains).pools
  distinct := nodup_cons.mpr ⟨keeps.fresh gains, keeps.distinct⟩

theorem Keeps.newPool (gains : Gains arenas arenas' bootServicesData head (adjustedSize sizeOfPool)) :
    Keeps arenas' ((t, head + sizeOfPoolHead) :: names) live where
  buffers := (keeps.gained gains).buffers
  pools := by
    refine forall_mem_cons.mpr ⟨⟨Nat.le_add_left _ _, (gains.used _ _ _).mpr (.inr ?_)⟩, (keeps.gained gains).pools⟩
    exact ⟨rfl, Nat.add_sub_cancel .., rfl⟩
  distinct := by
    rw [map_cons, nodup_middle]
    exact nodup_cons.mpr ⟨keeps.fresh gains, keeps.distinct⟩

theorem Keeps.loses {names' : List (MemoryType × Nat)} {live' : List Buffer}
    (loses : Loses arenas arenas' head) (subLive : live'.Sublist live) (subNames : names'.Sublist names)
    (out : head + sizeOfPoolHead ∉ live'.map Buffer.address ++ names'.map Prod.snd) : Keeps arenas' names' live' := by
  have other : ∀ {x}, sizeOfPoolHead ≤ x → x ∈ live'.map Buffer.address ++ names'.map Prod.snd →
      x - sizeOfPoolHead ≠ head := by
    intro x le mem same
    rw [← same, Nat.sub_add_cancel le] at out
    exact out mem
  refine ⟨fun b mem => ?_, fun o mem => ?_, keeps.distinct.sublist ((subLive.map _).append (subNames.map _))⟩
  · obtain ⟨le, used⟩ := keeps.buffers b (subLive.subset mem)
    exact ⟨le, (loses.used _ _ _).mpr ⟨used, other le (mem_append_left _ (mem_map_of_mem mem))⟩⟩
  · obtain ⟨le, used⟩ := keeps.pools o (subNames.subset mem)
    exact ⟨le, (loses.used _ _ _).mpr ⟨used, other le (mem_append_right _ (mem_map_of_mem mem))⟩⟩

end Keeps

section Services

variable {p : Platform} {s : PoolWorld} {arenas : List Arena} {live : List Buffer} {t : MemoryType} {size : Nat}

theorem adjustedSize_eq (le : size ≤ 2 ^ 64 - 48) : adjustedSize size = (size + 7) / 8 * 8 + poolOverhead ∧
    poolOverhead ≤ adjustedSize size ∧ adjustedSize size < 2 ^ 64 := by
  rw [adjustedSize, alignVariable, poolOverhead, sizeOfPoolHead, sizeOfPoolTail]
  omega

theorem adjustedSize_fits (fits : size + poolOverhead + granularityOf p t ≤ 2 ^ 64) :
    size ≤ 2 ^ 64 - 48 ∧ adjustedSize size + granularityOf p t ≤ 2 ^ 64 := by
  have overhead : poolOverhead = 40 := rfl
  have le : size ≤ 2 ^ 64 - 48 := by
    rcases @granular_granularityOf p t with granular | granular <;> omega
  rw [(adjustedSize_eq le).1]
  rcases @granular_granularityOf p t with granular | granular <;> omega

theorem find?_eraseP {t' : MemoryType} (list : List OemPool) (nodup : (list.map OemPool.memoryType).Nodup) :
    ((list.eraseP fun o => o.memoryType = t).find? fun o => o.memoryType = t') =
      if t' = t then none else list.find? fun o => o.memoryType = t' := by
  induction list with
  | nil => simp
  | cons o list ih =>
    obtain ⟨fresh, nodup'⟩ := nodup_cons.mp nodup
    by_cases here : o.memoryType = t
    · rw [eraseP_cons_of_pos (by simpa using here)]
      split
      next same =>
        rw [List.find?_eq_none]
        intro other mem found
        exact fresh (mem_map.mpr ⟨other, mem, by rw [here, ← same]; simpa using found⟩)
      next other => rw [List.find?_cons_of_neg (by simp [here]; exact fun same => other same.symm)]
    · rw [eraseP_cons_of_neg (by simpa using here), List.find?_cons, List.find?_cons, ih nodup']
      split
      next found =>
        have type : o.memoryType = t' := by simpa using found
        rw [if_neg fun same => here (type.trans same)]
      next => rfl

variable (stands : Stands p s arenas)
include stands

theorem wp_coreAllocatePoolI {Q : Option Nat → PoolWorld → Prop}
    (keeps : Keeps arenas s.names live) (allowed : refusedType t = false)
    (fits : size + poolOverhead + granularityOf p t ≤ 2 ^ 64) (low : Searchable p t s.pages)
    (none_ : ∀ s' arenas', Stands p s' arenas' → Keeps arenas' s'.names live → Q none s')
    (some_ : ∀ s' arenas' address, Stands p s' arenas' → Keeps arenas' s'.names (⟨address, size, t⟩ :: live) →
      Q (some address) s') : wp (coreAllocatePoolI t size) p Q onlyPages s := by
  obtain ⟨le, room⟩ := adjustedSize_fits fits
  obtain ⟨_, enough, lt⟩ := adjustedSize_eq le
  simp only [refusedType, Bool.decide_or, Bool.or_eq_false_iff, decide_eq_false_iff_not, not_and,
    UInt32.not_lt] at allowed
  obtain ⟨named, used, _⟩ := allowed
  have valid : t < maxMemoryType ∨ oemReservedMin ≤ t := by
    by_cases small : t < maxMemoryType
    · exact .inl small
    · exact .inr (named (UInt32.not_lt.mp small))
  rw [coreAllocatePoolI, wp_bind]
  refine wp_lookupPoolHead stands valid (fun known => ?_) (fun s' stands' names => ?_)
    fun s' arenas' head _ stands' known gains names low' => ?_
  · rw [if_pos rfl]
    refine wp_allocateIn stands known used enough lt room low (fun s' stands' names => ?_) fun s' arenas' head stands'
      gains names _ => ?_
    · exact none_ s' arenas stands' (by rw [names]; exact keeps)
    · exact some_ s' arenas' _ stands' (by rw [names]; exact keeps.handed gains)
  · rw [if_neg Bool.false_ne_true]
    exact none_ s' arenas stands' (by rw [names]; exact keeps)
  · rw [if_pos rfl]
    have keeps' : Keeps arenas' s'.names live := by rw [names]; exact keeps.newPool gains
    refine wp_allocateIn stands' known used enough lt room (low.imp_right low') (fun s'' stands'' names' => ?_)
      fun s'' arenas'' head' stands'' gains' names' _ => ?_
    · exact none_ s'' arenas' stands'' (by rw [names']; exact keeps')
    · exact some_ s'' arenas'' _ stands'' (by rw [names']; exact keeps'.handed gains')

theorem Stands.dropPool (unnamed : ¬ t < maxMemoryType) (unused : (s.poolOf t).used = 0) :
    Stands p { s with poolHeadList := s.poolHeadList.eraseP fun o => o.memoryType = t } arenas := by
  have types : (s.poolHeadList.map OemPool.memoryType).Nodup := by
    have := stands.types
    rwa [PoolWorld.names, map_map] at this
  have sum : usedSum arenas t = 0 := by
    rw [← Nat.mod_eq_of_lt (stands.usedSum_lt t), ← stands.used, unused]
  have none_ : ∀ A ∈ arenas, A.type ≠ t := by
    rintro A mem rfl
    exact absurd sum (Nat.ne_of_gt (stands.usedSum_pos mem))
  have empty : ∀ index, (s.poolOf t).freeList index = [] := by
    intro index
    refine eq_nil_iff_forall_not_mem.mpr fun a mem => ?_
    obtain ⟨A, memA, type, _⟩ := (stands.lists _ _ _).mp mem
    exact none_ A memA type
  have same : ∀ t', PoolWorld.poolOf { s with poolHeadList := s.poolHeadList.eraseP fun o => o.memoryType = t } t' =
    s.poolOf t' := by
    intro t'
    by_cases here : t' = t
    · subst here
      have left : PoolWorld.poolOf { s with poolHeadList := s.poolHeadList.eraseP fun o => o.memoryType = t' } t' =
        emptyPool := by
        rw [PoolWorld.poolOf, if_neg unnamed, PoolWorld.oemPool?, find?_eraseP _ types, if_pos rfl]
        rfl
      have right : s.poolOf t' = ⟨(s.poolOf t').used, (s.poolOf t').freeList⟩ := rfl
      rw [left, right, unused, funext empty]
      rfl
    · rw [PoolWorld.poolOf, PoolWorld.poolOf, PoolWorld.oemPool?, find?_eraseP _ types, if_neg here]
      rfl
  exact
    { stands with
      lists := fun t' => by rw [same]; exact stands.lists t'
      nodup := fun t' => by rw [same]; exact stands.nodup t'
      used := fun t' => by rw [same]; exact stands.used t'
      types := by
        rw [PoolWorld.names, map_map]
        exact types.sublist (eraseP_sublist.map _) }

theorem wp_dropPool {Q : Unit → PoolWorld → Prop} (keeps : Keeps arenas s.names live)
    (next : ∀ s' arenas', Stands p s' arenas' → Keeps arenas' s'.names live → Q () s') :
    wp (dropPool t) p Q onlyPages s := by
  rw [dropPool, wp_bind, wp_get, wp_ite]
  split
  next test =>
    obtain ⟨oem, unused⟩ := test
    have unnamed : ¬ t < maxMemoryType :=
      fun named => absurd (UInt32.lt_of_lt_of_le named (by decide)) (UInt32.not_lt.mpr oem)
    cases found : s.oemPool? t with
    | none => exact next s arenas stands keeps
    | some o =>
      obtain ⟨type, as, bs, list, first⟩ := List.find?_eq_some_iff_append.mp found
      have mem : (o.memoryType, o.buffer) ∈ s.names :=
        mem_map.mpr ⟨o, mem_of_find?_eq_some found, rfl⟩
      obtain ⟨le, used⟩ : sizeOfPoolHead ≤ o.buffer ∧ BlockUsed arenas bootServicesData _ _ := keeps.pools _ mem
      have erased : (s.poolHeadList.eraseP fun o => o.memoryType = t) = as ++ bs := by
        rw [list, eraseP_append_right, eraseP_cons_of_pos (by simpa using type)]
        intro other memO
        simpa using first other memO
      have stands' := stands.dropPool unnamed unused
      have sub : (PoolWorld.names { s with poolHeadList := s.poolHeadList.eraseP fun o => o.memoryType = t }).Sublist
          s.names :=
        eraseP_sublist.map _
      have buffer : o.buffer - sizeOfPoolHead + sizeOfPoolHead = o.buffer := Nat.sub_add_cancel le
      dsimp only
      rw [wp_bind, wp_modify, wp_bind, ← buffer]
      refine wp_freeBlock stands' used fun s' arenas' stands'' loses names => next s' arenas' stands'' ?_
      rw [names]
      refine keeps.loses loses (List.Sublist.refl live) sub ?_
      -- The buffer of a pool is no other buffer.
      have distinct := keeps.distinct
      rw [PoolWorld.names, list, map_map, map_append, map_cons, ← append_assoc, nodup_middle] at distinct
      rw [buffer, PoolWorld.names]
      dsimp only
      rw [erased, map_map, map_append, ← append_assoc]
      exact (nodup_cons.mp distinct).1
  next => exact next s arenas stands keeps

theorem wp_coreInternalAllocatePool {Q : EfiStatus × Option Nat → PoolWorld → Prop} {size : UInt64}
    (keeps : Keeps arenas s.names live) (fits : size.toNat + poolOverhead + granularityOf p t ≤ 2 ^ 64)
    (low : Searchable p t s.pages)
    (none_ : ∀ status s' arenas', Stands p s' arenas' → Keeps arenas' s'.names live → Q (status, none) s')
    (some_ : ∀ s' arenas' address, Stands p s' arenas' → Keeps arenas' s'.names (⟨address, size.toNat, t⟩ :: live) →
      Q (.success, some address) s') : wp (coreInternalAllocatePool t size) p Q onlyPages s := by
  rw [coreInternalAllocatePool, wp_ite]
  split
  next => exact none_ _ s arenas stands keeps
  next allowed =>
    rw [wp_ite]
    split
    next => exact none_ _ s arenas stands keeps
    next =>
      rw [wp_bind]
      exact wp_coreAllocatePoolI stands keeps (Bool.eq_false_iff.mpr allowed) fits low (none_ _) some_

theorem wp_coreInternalFreePool {Q : EfiStatus × Option MemoryType → PoolWorld → Prop} {b : Buffer}
    (keeps : Keeps arenas s.names live) (mem : b ∈ live) (next : ∀ r s' arenas', Stands p s' arenas' →
      Keeps arenas' s'.names (live.filter fun c => c.address ≠ b.address) → Q r s') :
    wp (coreInternalFreePool b.address) p Q onlyPages s := by
  obtain ⟨le, used⟩ := keeps.buffers b mem
  have address : b.address - sizeOfPoolHead + sizeOfPoolHead = b.address := Nat.sub_add_cancel le
  have nonzero : b.address ≠ 0 := Nat.ne_of_gt (Nat.lt_of_lt_of_le (by decide) le)
  rw [coreInternalFreePool, wp_ite, if_neg nonzero, coreFreePoolI, wp_bind]
  conv => arg 1; rw [← address]
  refine wp_freeBlock stands used fun s' arenas' stands' loses names => ?_
  have keeps' : Keeps arenas' s'.names (live.filter fun c => c.address ≠ b.address) := by
    rw [names]
    refine keeps.loses loses filter_sublist (List.Sublist.refl _) fun again => ?_
    rw [address] at again
    rcases mem_append.mp again with mem' | mem'
    · obtain ⟨c, memC, same⟩ := mem_map.mp mem'
      exact absurd same (of_decide_eq_true (mem_filter.mp memC).2)
    · exact (nodup_append.mp keeps.distinct).2.2 _ (mem_map_of_mem mem) _ mem' rfl
  dsimp only
  rw [wp_bind]
  exact wp_dropPool stands' keeps' fun s'' arenas'' stands'' keeps'' => next _ s'' arenas'' stands'' keeps''

end Services

/-! ### Sequences of calls -/

def bufferLayout : Layout Buffer MemoryType where
  first b := b.address - sizeOfPoolHead
  next b := b.address + (b.size + 7) / 8 * 8 + sizeOfPoolTail
  value b := b.type

/-- The buffers are what their callers take them for. -/
structure BuffersSound (s : PoolWorld) (live : List Buffer) : Prop where
  inside : ∀ b ∈ live, ∃ r ∈ s.owned, r.type = b.type ∧ sizeOfPoolHead ≤ b.address ∧ r.start ≤ bufferLayout.first b ∧
    bufferLayout.next b ≤ r.start + r.pages * 0x1000 ∧
    ∀ a, r.start ≤ a → a < r.start + r.pages * 0x1000 → ∃ attributes, s.pages.at a = some (r.type, attributes)
  apart : live.Pairwise bufferLayout.Apart
  free : ∀ b ∈ live, ∀ t index a, a ∈ (s.poolOf t).freeList index →
    bufferLayout.next b ≤ a ∨ a + listToSize index ≤ bufferLayout.first b
  pools : ∀ b ∈ live, ∀ o ∈ s.poolHeadList, bufferLayout.Apart b ⟨o.buffer, sizeOfPool, bootServicesData⟩

/-- What keeps an allocation in bounds: the size does not wrap when head and tail are added and the sum is rounded up to
    whole pages of the granularity, and the search for pages does not leave the map. -/
def Fits (p : Platform) (t : MemoryType) (size : UInt64) (s : PoolWorld) : Prop :=
  size.toNat + poolOverhead + granularityOf p t ≤ 2 ^ 64 ∧ Searchable p t s.pages

/-- The states and the buffers in the hands of callers after a sequence of calls, from a state of the pages. -/
inductive PoolReached (p : Platform) (w : World) : PoolWorld → List Buffer → Prop
  | start : PoolReached p w (coreInitializePool w) []
  | allocated {s : PoolWorld} {live : List Buffer} {t : MemoryType} {size : UInt64} {address : Nat}
      (reached : PoolReached p w s live) (fits : Fits p t size s)
      (returned : (coreInternalAllocatePool t size p s).1 = .ok (.success, some address)) :
      PoolReached p w (final (coreInternalAllocatePool t size) p s) (⟨address, size.toNat, t⟩ :: live)
  | refused {s : PoolWorld} {live : List Buffer} {t : MemoryType} {size : UInt64} {status : EfiStatus}
      (reached : PoolReached p w s live) (fits : Fits p t size s)
      (returned : (coreInternalAllocatePool t size p s).1 = .ok (status, none)) :
      PoolReached p w (final (coreInternalAllocatePool t size) p s) live
  | freed {s : PoolWorld} {live : List Buffer} {b : Buffer} {r : EfiStatus × Option MemoryType}
      (reached : PoolReached p w s live) (mem : b ∈ live) (returned : (coreInternalFreePool b.address p s).1 = .ok r) :
      PoolReached p w (final (coreInternalFreePool b.address) p s) (live.filter fun c => c.address ≠ b.address)

section Runs

variable {p : Platform} {w : World} {s : PoolWorld} {arenas : List Arena} {live : List Buffer}

theorem stands_coreInitializePool (intact : Intact p w) : Stands p (coreInitializePool w) [] := by
  have empty : ∀ t, (coreInitializePool w).poolOf t = emptyPool := by
    intro t
    rw [PoolWorld.poolOf]
    split <;> rfl
  have none_ : ∀ {t b}, ¬ BlockAt [] t b := by
    rintro t b ⟨A, mem, _⟩
    cases mem
  refine ⟨intact, rfl, forall_mem_nil _, .nil, forall_mem_nil _, fun t b at_ => (none_ at_).elim, fun t a size at_ =>
    (none_ at_).elim, fun t index a => ?_, fun t index => ?_, fun t => ?_, nodup_nil⟩
  · rw [empty]
    exact ⟨fun mem => absurd mem not_mem_nil, fun at_ => (none_ at_).elim⟩
  · rw [empty]
    exact nodup_nil
  · rw [empty]
    rfl

theorem PoolReached.stands (intact : Intact p w) (reached : PoolReached p w s live) :
    (∀ b ∈ live, b.size ≤ 2 ^ 64 - 48) ∧ ∃ arenas, Stands p s arenas ∧ Keeps arenas s.names live := by
  induction reached with
  | start => exact ⟨nofun, [], stands_coreInitializePool intact, nofun, nofun, nodup_nil⟩
  | @allocated s live t size address _ fits returned ih =>
    obtain ⟨sizes, arenas, stands, keeps⟩ := ih
    refine ⟨forall_mem_cons.mpr ⟨(adjustedSize_fits fits.1).1, sizes⟩, ?_⟩
    refine wp_returned (R := onlyPages) (Q := fun r s' => ∀ address, r.2 = some address →
      ∃ arenas', Stands p s' arenas' ∧ Keeps arenas' s'.names (⟨address, size.toNat, t⟩ :: live))
      ?_ returned address rfl
    refine wp_coreInternalAllocatePool stands keeps fits.1 fits.2 (fun _ _ _ _ _ => nofun) ?_
    rintro s' arenas' _ stands' keeps' _ ⟨rfl⟩
    exact ⟨arenas', stands', keeps'⟩
  | @refused s live t size status _ fits returned ih =>
    obtain ⟨sizes, arenas, stands, keeps⟩ := ih
    refine ⟨sizes, ?_⟩
    refine wp_returned (R := onlyPages) (Q := fun r s' => r.2 = none →
      ∃ arenas', Stands p s' arenas' ∧ Keeps arenas' s'.names live) ?_ returned rfl
    refine wp_coreInternalAllocatePool stands keeps fits.1 fits.2 (fun _ s' arenas' stands' keeps' _ => ?_)
      fun _ _ _ _ _ => nofun
    exact ⟨arenas', stands', keeps'⟩
  | @freed s live b r _ mem returned ih =>
    obtain ⟨sizes, arenas, stands, keeps⟩ := ih
    refine ⟨fun c memC => sizes c (mem_filter.mp memC).1, ?_⟩
    refine wp_returned (R := onlyPages) (Q := fun _ s' => ∃ arenas', Stands p s' arenas' ∧
      Keeps arenas' s'.names (live.filter fun c => c.address ≠ b.address)) ?_ returned
    exact wp_coreInternalFreePool stands keeps mem fun _ s' arenas' stands' keeps' => ⟨arenas', stands', keeps'⟩

theorem Stands.blocks_apart {t t' : MemoryType} {b c : Block} (stands : Stands p s arenas) (atB : BlockAt arenas t b)
    (atC : BlockAt arenas t' c) (ne : b.start ≠ c.start) :
    b.start + blockLength p t b.header ≤ c.start ∨ c.start + blockLength p t' c.header ≤ b.start := by
  by_contra near
  obtain ⟨near₁, near₂⟩ := not_or.mp near
  have posB : b.start < b.start + blockLength p t b.header := (stands.covers_at atB).2
  have posC : c.start < c.start + blockLength p t' c.header := (stands.covers_at atC).2
  obtain ⟨A, memA, rfl, memb⟩ := atB
  obtain ⟨B, memB, rfl, memc⟩ := atC
  have inB : (blockLayout p A.type).Covers b (max b.start c.start) := by
    change b.start ≤ _ ∧ _ < b.start + blockLength p A.type b.header
    omega
  have inC : (blockLayout p B.type).Covers c (max b.start c.start) := by
    change c.start ≤ _ ∧ _ < c.start + blockLength p B.type c.header
    omega
  exact ne (congrArg Block.start (stands.unique memA memB memb memc inB inC).2)

theorem Stands.span {b : Buffer} (stands : Stands p s arenas) (le : b.size ≤ 2 ^ 64 - 48)
    (head : sizeOfPoolHead ≤ b.address)
    (used : BlockUsed arenas b.type (b.address - sizeOfPoolHead) (adjustedSize b.size)) :
    bufferLayout.next b ≤ b.address - sizeOfPoolHead + blockLength p b.type (.used (adjustedSize b.size) b.type) := by
  obtain ⟨A, memA, type, memb⟩ := used
  have fits := usedSize_le (stands.sound A memA) memb
  have eq := (adjustedSize_eq le).1
  rw [type] at fits
  have fits' : adjustedSize b.size ≤ blockLength p b.type (.used (adjustedSize b.size) b.type) := fits
  change b.address + (b.size + 7) / 8 * 8 + sizeOfPoolTail ≤ _
  rw [poolOverhead] at eq
  omega

theorem buffersSound (stands : Stands p s arenas) (keeps : Keeps arenas s.names live)
    (sizes : ∀ b ∈ live, b.size ≤ 2 ^ 64 - 48) : BuffersSound s live := by
  have apart : ∀ {b c : Buffer}, b.address ≠ c.address → b.size ≤ 2 ^ 64 - 48 → c.size ≤ 2 ^ 64 - 48 →
      sizeOfPoolHead ≤ b.address → sizeOfPoolHead ≤ c.address →
      BlockUsed arenas b.type (b.address - sizeOfPoolHead) (adjustedSize b.size) →
      BlockUsed arenas c.type (c.address - sizeOfPoolHead) (adjustedSize c.size) → bufferLayout.Apart b c := by
    intro b c ne leB leC headB headC usedB usedC
    have spanB := stands.span leB headB usedB
    have spanC := stands.span leC headC usedC
    have ne' : b.address - sizeOfPoolHead ≠ c.address - sizeOfPoolHead := by omega
    rcases stands.blocks_apart usedB usedC ne' with le | le
    · exact .inl (Nat.le_trans spanB le)
    · exact .inr (Nat.le_trans spanC le)
  refine ⟨fun b mem => ?_, ?_, fun b mem t index a memA => ?_, fun b mem o memO => ?_⟩
  · obtain ⟨head, used⟩ := keeps.buffers b mem
    have span := stands.span (sizes b mem) head used
    obtain ⟨A, memA, type, memb⟩ := used
    have bounds := (stands.sound A memA).tiles.bounds memb
    rw [type] at bounds
    refine ⟨A.region, ?_, type, head, bounds.1, Nat.le_trans span bounds.2.2, fun a ge lt => ?_⟩
    · rw [stands.owned]
      exact mem_map_of_mem memA
    · exact stands.paged A memA a ⟨ge, lt⟩
  · have distinct := (nodup_append.mp keeps.distinct).1
    refine (pairwise_map.mp distinct).imp_of_mem fun {b c} memB memC ne => ?_
    obtain ⟨headB, usedB⟩ := keeps.buffers b memB
    obtain ⟨headC, usedC⟩ := keeps.buffers c memC
    exact apart ne (sizes b memB) (sizes c memC) headB headC usedB usedC
  · obtain ⟨head, used⟩ := keeps.buffers b mem
    have span := stands.span (sizes b mem) head used
    have at_ := (stands.lists _ _ _).mp memA
    have ne : b.address - sizeOfPoolHead ≠ a := by
      rintro rfl
      cases stands.header_eq used at_ rfl
    rcases stands.blocks_apart used at_ ne with le | le
    · exact .inl (Nat.le_trans span le)
    · exact .inr le
  · have memN : (o.memoryType, o.buffer) ∈ s.names := mem_map.mpr ⟨o, memO, rfl⟩
    obtain ⟨headB, usedB⟩ := keeps.buffers b mem
    obtain ⟨headO, usedO⟩ := keeps.pools _ memN
    have ne : b.address ≠ o.buffer :=
      (nodup_append.mp keeps.distinct).2.2 _ (mem_map_of_mem mem) _ (mem_map_of_mem memN)
    exact apart (c := ⟨o.buffer, sizeOfPool, bootServicesData⟩) ne (sizes b mem)
      (show sizeOfPool ≤ 2 ^ 64 - 48 by decide) headB headO usedB usedO

end Runs

/-- In every sequence of calls whose allocations fit, the buffers in the hands of callers are sound, and a further call
    stops only where a page service does. -/
theorem pool_buffers_sound (p : Platform) (w : World) (intact : Intact p w) (s : PoolWorld) (live : List Buffer)
    (reached : PoolReached p w s live) :
    BuffersSound s live ∧
      (∀ t size stop, Fits p t size s → (coreInternalAllocatePool t size p s).1 = .error stop → ∃ h, stop = .pages h) ∧
      ∀ b ∈ live, ∀ stop, (coreInternalFreePool b.address p s).1 = .error stop → ∃ h, stop = .pages h := by
  obtain ⟨sizes, arenas, stands, keeps⟩ := reached.stands intact
  refine ⟨buffersSound stands keeps sizes, fun t size stop fits stopped => ?_, fun b mem stop stopped => ?_⟩
  · refine wp_stopped (R := onlyPages) (Q := fun _ _ => True) ?_ stopped
    exact wp_coreInternalAllocatePool stands keeps fits.1 fits.2 (fun _ _ _ _ _ => trivial) fun _ _ _ _ _ => trivial
  · refine wp_stopped (R := onlyPages) (Q := fun _ _ => True) ?_ stopped
    exact wp_coreInternalFreePool stands keeps mem fun _ _ _ _ _ => trivial

/-! Two small buffers and one with pages of its own; then the first is given back. -/

def hundredAllocated : PoolWorld :=
  final (coreInternalAllocatePool bootServicesData 100) x64 (coreInitializePool freeMegabyte)

def twoAllocated : PoolWorld := final (coreInternalAllocatePool bootServicesData 200) x64 hundredAllocated

def threeAllocated : PoolWorld := final (coreInternalAllocatePool loaderData 5000) x64 twoAllocated

def hundredFreed : PoolWorld := final (coreInternalFreePool 0x1FF018) x64 threeAllocated

def leftBuffers : List Buffer := [⟨0x1FD018, 5000, loaderData⟩, ⟨0x1FFB98, 200, bootServicesData⟩]

theorem reached_hundredFreed : PoolReached x64 freeMegabyte hundredFreed leftBuffers := by
  have first : PoolReached x64 freeMegabyte hundredAllocated [⟨0x1FF018, 100, bootServicesData⟩] :=
    .allocated .start ⟨by decide, .inl rfl⟩ (by decide +kernel)
  have second : PoolReached x64 freeMegabyte twoAllocated
      [⟨0x1FFB98, 200, bootServicesData⟩, ⟨0x1FF018, 100, bootServicesData⟩] :=
    .allocated first ⟨by decide, .inl rfl⟩ (by decide +kernel)
  have third : PoolReached x64 freeMegabyte threeAllocated (leftBuffers ++ [⟨0x1FF018, 100, bootServicesData⟩]) :=
    .allocated second ⟨by decide, .inl rfl⟩ (by decide +kernel)
  exact .freed (r := (.success, some bootServicesData)) third (b := ⟨0x1FF018, 100, bootServicesData⟩)
    (mem_append_right _ mem_cons_self) (by decide +kernel)

theorem pool_buffers_sound_three : BuffersSound hundredFreed leftBuffers :=
  (pool_buffers_sound x64 freeMegabyte intact_freeMegabyte _ _ reached_hundredFreed).1

/-- With a size that wraps, the smallest block is handed out. -/
theorem wrapped_size_handed_out :
    (coreInternalAllocatePool bootServicesData 0xFFFFFFFFFFFFFFD7 x64 (coreInitializePool freeMegabyte)).1 =
        .ok (.success, some 0x1FF018) ∧
      ¬ BuffersSound
        (final (coreInternalAllocatePool bootServicesData 0xFFFFFFFFFFFFFFD7) x64 (coreInitializePool freeMegabyte))
        [⟨0x1FF018, 0xFFFFFFFFFFFFFFD7, bootServicesData⟩] := by
  refine ⟨by decide, fun sound => ?_⟩
  have owned : (final (coreInternalAllocatePool bootServicesData 0xFFFFFFFFFFFFFFD7) x64
      (coreInitializePool freeMegabyte)).owned = [⟨0x1FF000, 1, bootServicesData⟩] := by decide +kernel
  obtain ⟨r, mem, _, _, _, le, _⟩ := sound.inside _ mem_cons_self
  rw [owned] at mem
  rw [mem_singleton.mp mem] at le
  exact absurd le (by decide)

/-- The pages of the pools are cut into blocks without a gap. Each block has its head and, if it is free, its place on
    one list; a page without a block in use is not kept, and the pools count what is in use. -/
structure PagesTiled (p : Platform) (s : PoolWorld) (pages : List Arena) : Prop where
  owned : s.owned = pages.map Arena.region
  apart : pages.Pairwise arenaLayout.Apart
  tiles : ∀ A ∈ pages, (blockLayout p A.type).Tiles A.start (A.start + A.pages * 0x1000) A.blocks
  heads : ∀ A ∈ pages, ∀ b ∈ A.blocks, s.heads b.start = some b.header
  busy : ∀ A ∈ pages, ∃ b ∈ A.blocks, ∃ size, b.header = .used size A.type
  lists : ∀ t index a, a ∈ (s.poolOf t).freeList index ↔ BlockAt pages t ⟨a, .free index⟩
  once : ∀ t index, ((s.poolOf t).freeList index).Nodup
  used : ∀ t, (s.poolOf t).used = usedSum pages t % 2 ^ 64

/-- In every sequence of calls whose allocations fit, the pages of the pools are tiled, and every buffer in the hands of
    a caller is a block in use. -/
theorem pool_pages_tiled (p : Platform) (w : World) (intact : Intact p w) (s : PoolWorld) (live : List Buffer)
    (reached : PoolReached p w s live) :
    ∃ pages, PagesTiled p s pages ∧ ∀ b ∈ live,
      BlockUsed pages b.type (b.address - sizeOfPoolHead) (adjustedSize b.size) := by
  obtain ⟨_, arenas, stands, keeps⟩ := reached.stands intact
  refine ⟨arenas, ⟨stands.owned, stands.apart, fun A mem => (stands.sound A mem).tiles, fun A mem b here => ?_,
    fun A mem => (stands.sound A mem).busy, stands.lists, stands.nodup, stands.used⟩, fun b mem =>
    (keeps.buffers b mem).2⟩
  exact stands.heads A.type b ⟨A, mem, rfl, here⟩

theorem pool_pages_tiled_three : ∃ pages, PagesTiled x64 hundredFreed pages ∧
    BlockUsed pages bootServicesData 0x1FFB80 (adjustedSize 200) ∧
    BlockUsed pages loaderData 0x1FD000 (adjustedSize 5000) := by
  obtain ⟨pages, tiled, used⟩ := pool_pages_tiled x64 freeMegabyte intact_freeMegabyte _ _ reached_hundredFreed
  exact ⟨pages, tiled, used _ (mem_cons_of_mem _ mem_cons_self), used _ mem_cons_self⟩

end LeoEdk.Memory
