import LeoEdk.Lib.Coverage
import LeoEdk.Memory.PageMap

/-! What the single changes of the memory map do: how often an address is covered with which type and attributes,
    before and after. The order of the entries and the place of their descriptors play no part. -/

namespace LeoEdk.Memory

open Layout Prog List

def mapLayout : Layout Entry (MemoryType × UInt64) where
  first e := e.start
  next e := e.last + 1
  value e := (e.type, e.attributes)

/-- Whole pages, at least one, and not the last page of the addresses of 64 bits. -/
def Entry.Sound (e : Entry) : Prop :=
  e.start % 0x1000 = 0 ∧ (e.last + 1) % 0x1000 = 0 ∧ e.start ≤ e.last ∧ e.last + 1 < 2 ^ 64

instance (e : Entry) : Decidable e.Sound := inferInstanceAs (Decidable (_ ∧ _))

def segment (v : MemoryType × UInt64) (start last : Nat) : Entry := ⟨.pages, v.1, start, last, v.2⟩

def World.at (w : World) (a : Nat) : Option (MemoryType × UInt64) := mapLayout.valueAt w.memoryMap a

def anyStop (_ : Stop) (_ : World) : Prop := True

section Rules

variable {p : Platform} {w : World} {Q : Unit → World → Prop}

@[simp] theorem wp_assertThat (condition : Bool) :
    wp (assertThat condition) p Q anyStop w ↔ (condition = true → Q () w) := by
  rw [assertThat]
  cases condition
  · simp [anyStop]
  · simp

theorem wp_pushEntry {type : MemoryType} {start last : Nat} {attributes : UInt64} (next : Q () { w with
      memoryMap := w.memoryMap ++ [⟨.stack w.mapDepth, type, start, last, attributes⟩]
      mapDepth := w.mapDepth + 1 }) :
    wp (pushEntry type start last attributes) p Q anyStop w := by
  simp only [pushEntry, wp_bind, wp_modify, wp_get, wp_assertThat]
  exact fun _ => next

end Rules

section Ranges

variable {q : MemoryType × UInt64 → Bool} {v : MemoryType × UInt64} {e : Entry} {xs : List Entry} {start last a : Nat}

theorem hits_segment : mapLayout.hits q [segment v start last] a = if (start ≤ a ∧ a ≤ last) ∧ q v then 1 else 0 := by
  rw [hits_singleton]
  refine if_congr (and_congr ?_ Iff.rfl) rfl rfl
  exact and_congr Iff.rfl Nat.lt_succ_iff

theorem hits_entry : mapLayout.hits q [e] a = mapLayout.hits q [segment (mapLayout.value e) e.start e.last] a := rfl

theorem segment_join {mid : Nat} (left : (segment v start mid).Sound) (right : (segment v (mid + 1) last).Sound) :
    (segment v start last).Sound ∧ ∀ q a, mapLayout.hits q [segment v start last] a =
      mapLayout.hits q [segment v start mid] a + mapLayout.hits q [segment v (mid + 1) last] a := by
  obtain ⟨aligned, _, le, _⟩ := left
  obtain ⟨_, aligned', le', lt⟩ := right
  simp only [segment] at aligned aligned' le le' lt
  refine ⟨⟨aligned, aligned', ?_, lt⟩, fun q a => ?_⟩
  · change start ≤ last
    omega
  · exact hits_join rfl (Nat.le_succ_of_le le) (Nat.le_succ_of_le le') rfl rfl rfl rfl

theorem segment_value (sound : e.Sound) (type : e.type = v.1) (attributes : e.attributes = v.2) :
    (segment v e.start e.last).Sound ∧ ∀ q a,
      mapLayout.hits q [e] a = mapLayout.hits q [segment v e.start e.last] a := by
  have value : mapLayout.value e = v := Prod.ext type attributes
  refine ⟨sound, fun q a => ?_⟩
  rw [hits_entry, value]

/-- What the range and the entries are after the range has taken in its neighbours. -/
structure Absorbs (v : MemoryType × UInt64) (start last : Nat) (xs : List Entry) (r : Absorbed) : Prop where
  sound : (segment v r.start r.last).Sound
  kept : r.kept.Sublist xs
  hits : ∀ q a, mapLayout.hits q r.kept a + mapLayout.hits q [segment v r.start r.last] a =
    mapLayout.hits q xs a + mapLayout.hits q [segment v start last] a

theorem Absorbs.grow {r : Absorbed} {start' last' freed : Nat} (absorbs : Absorbs v start' last' xs r)
    (joined : ∀ q a, mapLayout.hits q [segment v start' last'] a =
      mapLayout.hits q [e] a + mapLayout.hits q [segment v start last] a) :
    Absorbs v start last (e :: xs) { r with freed } where
  sound := absorbs.sound
  kept := absorbs.kept.cons e
  hits q a := by
    rw [absorbs.hits q a, joined, hits_cons e xs]
    omega

theorem Absorbs.keep {r : Absorbed} (absorbs : Absorbs v start last xs r) :
    Absorbs v start last (e :: xs) { r with kept := e :: r.kept } where
  sound := absorbs.sound
  kept := absorbs.kept.cons_cons e
  hits q a := by
    have := absorbs.hits q a
    rw [hits_cons e r.kept, hits_cons e xs]
    dsimp only at this ⊢
    omega

theorem absorbs_absorb (sound : ∀ e ∈ xs, e.Sound) (range : (segment v start last).Sound) :
    Absorbs v start last xs (absorb v.1 v.2 start last xs) := by
  induction xs generalizing start last with
  | nil => exact ⟨range, List.Sublist.refl _, fun _ _ => rfl⟩
  | cons e rest ih =>
    have soundE := sound e mem_cons_self
    have soundRest : ∀ e ∈ rest, e.Sound := fun f mem => sound f (mem_cons_of_mem e mem)
    rw [absorb]
    split
    next test =>
      -- The entry ends right before the range.
      obtain ⟨type, attributes, adjacent⟩ := test
      rw [Nat.mod_eq_of_lt soundE.2.2.2] at adjacent
      subst adjacent
      obtain ⟨soundV, hitsV⟩ := segment_value soundE type attributes
      obtain ⟨soundJoined, joined⟩ := segment_join soundV range
      refine (ih soundRest soundJoined).grow fun q a => ?_
      rw [joined, hitsV]
    next =>
      split
      next test =>
        -- The entry starts right after the range.
        obtain ⟨type, attributes, adjacent⟩ := test
        have lt : last + 1 < 2 ^ 64 := range.2.2.2
        rw [Nat.mod_eq_of_lt lt] at adjacent
        obtain ⟨soundV, hitsV⟩ := segment_value soundE type attributes
        rw [adjacent] at soundV hitsV
        obtain ⟨soundJoined, joined⟩ := segment_join range soundV
        refine (ih soundRest soundJoined).grow fun q a => ?_
        rw [joined, hitsV, Nat.add_comm]
      next => exact (ih soundRest range).keep

end Ranges

/-! ### Changes of the map -/

section Changes

variable {p : Platform} {w w' : World} {v : MemoryType × UInt64} {start last : Nat}

def OnlyMap (w w' : World) : Prop :=
  w' = { w with memoryMap := w'.memoryMap, mapDepth := w'.mapDepth, freeEntries := w'.freeEntries }

structure Added (v : MemoryType × UInt64) (start last : Nat) (w w' : World) : Prop where
  only : OnlyMap w w'
  sound : ∀ e ∈ w'.memoryMap, e.Sound
  hits : ∀ q a, mapLayout.hits q w'.memoryMap a =
    mapLayout.hits q w.memoryMap a + mapLayout.hits q [segment v start last] a

theorem wp_coreAddRange {Q : Unit → World → Prop} (sound : ∀ e ∈ w.memoryMap, e.Sound)
    (range : (segment v start last).Sound) (next : ∀ w', Added v start last w w' → Q () w') :
    wp (coreAddRange v.1 start last v.2) p Q anyStop w := by
  simp only [coreAddRange, wp_bind, wp_assertThat, wp_get, wp_modify]
  intro _ _
  have absorbs := absorbs_absorb sound range
  refine wp_pushEntry (next _ ⟨rfl, forall_mem_append.mpr ⟨fun e mem => sound e (absorbs.kept.subset mem),
    forall_mem_singleton.mpr absorbs.sound⟩, fun q a => ?_⟩)
  rw [← absorbs.hits q a]
  exact hits_append

structure Pulled (v : MemoryType × UInt64) (start last : Nat) (w w' : World) : Prop where
  only : OnlyMap w w'
  sound : ∀ e ∈ w'.memoryMap, e.Sound
  hits : ∀ q a, mapLayout.hits q w'.memoryMap a + mapLayout.hits q [segment v start last] a =
    mapLayout.hits q w.memoryMap a

section PullOut

variable {Q : Unit → World → Prop} {before after : List Entry} {e f : Entry}

theorem pulled_of_replace (mid : List Entry) (map : w.memoryMap = before ++ e :: after) (only : OnlyMap w w')
    (sound : ∀ x ∈ w.memoryMap, x.Sound) (soundMid : ∀ x ∈ mid, x.Sound)
    (map' : (w'.memoryMap).Perm (before ++ mid ++ after))
    (split : ∀ q a, mapLayout.hits q [e] a = mapLayout.hits q mid a + mapLayout.hits q [segment v start last] a) :
    Pulled v start last w w' where
  only := only
  sound x mem := by
    rcases mem_append.mp (map'.subset mem) with mem | mem
    · rcases mem_append.mp mem with mem | mem
      · exact sound x (by simp [map, mem])
      · exact soundMid x mem
    · exact sound x (by simp [map, mem])
  hits q a := by
    rw [hits_perm map', map, hits_append, hits_append, hits_append, hits_cons e after, split]
    omega

theorem wp_pullOut (map : w.memoryMap = before ++ e :: after) (sound : ∀ x ∈ w.memoryMap, x.Sound)
    (range : (segment (mapLayout.value e) start last).Sound) (le : e.start ≤ start) (ge : last ≤ e.last)
    (next : ∀ w', Pulled (mapLayout.value e) start last w w' → Q () w') :
    wp (pullOut before e after start last) p Q anyStop w := by
  have soundE : e.Sound := sound e (by simp [map])
  obtain ⟨aligned, alignedNext, leE, ltE⟩ := soundE
  obtain ⟨alignedStart, alignedLast, leRange, ltRange⟩ := id range
  simp only [segment] at alignedStart alignedLast leRange ltRange
  have lastWrap : (last + 1) % 2 ^ 64 = last + 1 := Nat.mod_eq_of_lt ltRange
  -- What is left above the range, and below it.
  have above : last < e.last → (segment (mapLayout.value e) (last + 1) e.last).Sound :=
    fun lt => ⟨alignedLast, alignedNext, lt, ltE⟩
  have below : e.start < start → (segment (mapLayout.value e) e.start (start - 1)).Sound := by
    intro lt
    have same : start - 1 + 1 = start := by omega
    refine ⟨aligned, ?_, ?_, ?_⟩ <;> simp only [segment]
    · rw [same]
      exact alignedStart
    · omega
    · omega
  rw [pullOut]
  by_cases bottom : e.start = start
  · rw [if_pos bottom, relink, wp_modify]
    refine next _ ?_
    by_cases whole : last = e.last
    · subst whole bottom
      rw [if_pos (by rw [lastWrap])]
      refine pulled_of_replace [] map rfl sound nofun (by simp) fun q a => ?_
      rw [hits_nil, Nat.zero_add]
      rfl
    · have lt : last < e.last := by omega
      rw [if_neg (by dsimp only; rw [lastWrap, Nat.mod_eq_of_lt ltE]; omega)]
      refine pulled_of_replace [{ e with start := last + 1 }] map rfl sound ?_ ?_ fun q a => ?_
      · exact forall_mem_singleton.mpr (above lt)
      · dsimp only
        rw [lastWrap, append_assoc, singleton_append]
      · obtain ⟨_, joined⟩ := segment_join range (above lt)
        rw [hits_entry, bottom, joined, Nat.add_comm]
        rfl
  · have lt : e.start < start := by omega
    have same : start - 1 + 1 = start := by omega
    have belowRange := range
    rw [← same] at belowRange
    obtain ⟨soundBelow, joinedBelow⟩ := segment_join (below lt) belowRange
    rw [same] at joinedBelow
    rw [if_neg bottom]
    by_cases top : e.last = last
    · rw [if_pos top, relink, wp_modify]
      refine next _ ?_
      rw [if_neg (by dsimp only; rw [same, Nat.mod_eq_of_lt (by omega)]; omega)]
      refine pulled_of_replace [{ e with last := start - 1 }] map rfl sound ?_ ?_ fun q a => ?_
      · exact forall_mem_singleton.mpr (below lt)
      · rw [append_assoc, singleton_append]
      · rw [hits_entry, top, joinedBelow]
        rfl
    · have lt' : last < e.last := by omega
      obtain ⟨_, joined⟩ := segment_join soundBelow (above lt')
      rw [if_neg top, wp_bind, wp_assertThat]
      intro _
      rw [wp_bind, wp_modify]
      refine wp_pushEntry (next _ ?_)
      refine pulled_of_replace
        [{ e with last := start - 1 }, ⟨.stack w.mapDepth, e.type, last + 1, e.last, e.attributes⟩] map rfl sound ?_ ?_
        fun q a => ?_
      · exact forall_mem_cons.mpr ⟨below lt, forall_mem_singleton.mpr (above lt')⟩
      · -- The upper part has gone to the end of the list.
        dsimp only
        rw [lastWrap, append_assoc, append_assoc]
        refine List.Perm.append_left before ?_
        exact perm_append_comm.cons _
      · rw [hits_entry, joined, joinedBelow, hits_cons _ [_]]
        change _ = mapLayout.hits q [segment (mapLayout.value e) e.start (start - 1)] a +
          mapLayout.hits q [segment (mapLayout.value e) (last + 1) e.last] a + _
        omega

end PullOut

theorem locate_eq {test : Entry → Bool} {xs before after : List Entry} {e : Entry}
    (found : locate test xs = some (before, e, after)) : xs = before ++ e :: after ∧ test e = true := by
  induction xs generalizing before with
  | nil => cases found
  | cons x rest ih =>
    rw [locate] at found
    split at found
    next here =>
      cases found
      exact ⟨rfl, here⟩
    next =>
      obtain ⟨⟨before', found', after'⟩, located, same⟩ := Option.map_eq_some_iff.mp found
      cases same
      obtain ⟨rfl, here⟩ := ih located
      exact ⟨rfl, here⟩

theorem locate_eq_none {test : Entry → Bool} {xs : List Entry} (none_ : locate test xs = none) :
    ∀ e ∈ xs, test e = false := by
  induction xs with
  | nil => nofun
  | cons x rest ih =>
    rw [locate] at none_
    split at none_
    next => cases none_
    next out =>
      exact forall_mem_cons.mpr ⟨Bool.eq_false_iff.mpr out, ih (Option.map_eq_none_iff.mp none_)⟩

theorem insertEntry_perm {e : Entry} {xs : List Entry} : (insertEntry e xs).Perm (e :: xs) := by
  induction xs with
  | nil => exact List.Perm.refl _
  | cons other rest ih =>
    rw [insertEntry]
    split
    next => exact List.Perm.refl _
    next => exact (ih.cons other).trans (List.Perm.swap e other rest)

structure Moved (w w' : World) : Prop where
  only : OnlyMap w w'
  sound : (∀ e ∈ w.memoryMap, e.Sound) → ∀ e ∈ w'.memoryMap, e.Sound
  hits : ∀ q a, mapLayout.hits q w'.memoryMap a = mapLayout.hits q w.memoryMap a

theorem moved_unstack (slot : Nat) : Moved w (unstack slot w) := by
  unfold unstack
  split
  next before e after found =>
    obtain ⟨map, _⟩ := locate_eq found
    have perm : (insertEntry { e with place := .pages } (before ++ after)).Perm
        (before ++ { e with place := .pages } :: after) :=
      insertEntry_perm.trans perm_middle.symm
    refine ⟨rfl, fun sound x mem => ?_, fun q a => ?_⟩
    · rcases mem_append.mp (perm.subset mem) with mem | mem
      · exact sound x (by simp [map, mem])
      · rcases mem_cons.mp mem with rfl | mem
        · exact sound e (by simp [map])
        · exact sound x (by simp [map, mem])
    · rw [hits_perm perm, map, hits_append, hits_append, hits_cons, hits_cons e after]
      rfl
  next => exact ⟨rfl, fun sound => sound, fun _ _ => rfl⟩

end Changes

end LeoEdk.Memory
