import LeoEdk.Theorems.MemoryMap

/-! Converting and finding pages, promoting untested memory and moving descriptors to pages of their own. The
    invariant is `Intact`. Freeing descriptors may itself take pages, so the lemmas hold for every `freeStack` that
    keeps the invariant and changes free memory only (`Tidies`). -/

namespace LeoEdk.Memory

open Layout Prog List
open Gcd (GcdMapEntry)

/-! ### The invariant -/

def gcdLayout : Layout GcdMapEntry GcdMapEntry where
  first e := e.baseAddress
  next e := e.endAddress + 1
  value e := e

def promotedValue (g : GcdMapEntry) : MemoryType × UInt64 := (conventionalMemory, promotedAttribute g)

/-- The address lies in memory that can still be promoted, with these attributes. -/
def Spare (p : Platform) (w : World) (a : Nat) (attributes : UInt64) : Prop :=
  ∃ g ∈ w.gcdMap, promotable p g = true ∧ gcdLayout.Covers g a ∧ promotedAttribute g = attributes

/-- Entries and memory that can still be promoted consist of whole pages, and no address lies in two of them. -/
structure Intact (p : Platform) (w : World) : Prop where
  sound : ∀ e ∈ w.memoryMap, e.Sound
  spare : ∀ g ∈ w.gcdMap, promotable p g = true → (segment (promotedValue g) g.baseAddress g.endAddress).Sound
  once : ∀ a, mapLayout.hits anyValue w.memoryMap a + gcdLayout.hits (promotable p) w.gcdMap a ≤ 1

/-- The tables of the bins are the same, up to the counts of pages in use. -/
structure SameBins (w w' : World) : Prop where
  statistics : ∀ t, ∃ n, w'.statistics t = { w.statistics t with currentNumberOfPages := n }
  information : ∀ i, (∀ t, (w.statistics t).informationIndex ≠ i) → w'.information[i]? = w.information[i]?
  types : w'.information.map TypeInformation.type = w.information.map TypeInformation.type
  initialized : w'.initialized = w.initialized

/-- The page of the address holds descriptors. -/
def DescriptorPage (w : World) (a : Nat) : Prop := a / 0x1000 * 0x1000 ∈ w.descriptorPages

/-- What happens to the addresses: they keep their attributes, and outside of `R` the only change of type is that free
    memory comes to hold descriptors; memory that enters the map was waiting to be promoted. -/
structure Evolves (p : Platform) (R : Nat → Prop) (w w' : World) : Prop where
  kept : ∀ a t attributes, w.at a = some (t, attributes) → ∃ t', w'.at a = some (t', attributes) ∧
    (t' = t ∨ (t = conventionalMemory ∧ t' = bootServicesData) ∨ R a)
  grown : ∀ a, w.at a = none → w'.at a = none ∨ ∃ attributes t', Spare p w a attributes ∧
    w'.at a = some (t', attributes) ∧ (t' = conventionalMemory ∨ t' = bootServicesData ∨ R a)
  spare : ∀ a attributes, Spare p w' a attributes → Spare p w a attributes
  bins : SameBins w w'
  pages : ∀ a, DescriptorPage w a → DescriptorPage w' a
  marked : ∀ a t attributes, w'.at a = some (t, attributes) → t ≠ conventionalMemory →
    w.at a = some (t, attributes) ∨ R a ∨ DescriptorPage w' a

def Locked (w w' : World) : Prop := w.gcdLocked = true → w'.gcdMap = w.gcdMap ∧ w'.gcdLocked = true

/-- What page operations that change types only in `R` leave behind. -/
structure Tidied (p : Platform) (R : Nat → Prop) (w w' : World) : Prop where
  intact : Intact p w'
  evolves : Evolves p R w w'
  locked : Locked w w'

def nowhere (_ : Nat) : Prop := False

def between (start last a : Nat) : Prop := start ≤ a ∧ a ≤ last

section Relations

variable {p : Platform} {R R' : Nat → Prop} {w w' w'' : World}

theorem SameBins.of_eq (statistics : w'.statistics = w.statistics) (information : w'.information = w.information)
    (initialized : w'.initialized = w.initialized) : SameBins w w' :=
  ⟨fun t => ⟨(w.statistics t).currentNumberOfPages, by rw [statistics]⟩, fun _ _ => by rw [information],
    by rw [information], initialized⟩

theorem SameBins.refl (w : World) : SameBins w w := .of_eq rfl rfl rfl

theorem SameBins.informationIndex (bins : SameBins w w') (t : MemoryType) :
    (w'.statistics t).informationIndex = (w.statistics t).informationIndex := by
  obtain ⟨n, same⟩ := bins.statistics t
  rw [same]

theorem SameBins.trans (first : SameBins w w') (next : SameBins w' w'') : SameBins w w'' where
  statistics t := by
    obtain ⟨_, same⟩ := first.statistics t
    obtain ⟨n, same'⟩ := next.statistics t
    exact ⟨n, by rw [same', same]⟩
  information i out := by
    rw [next.information i fun t => by rw [first.informationIndex]; exact out t, first.information i out]
  types := next.types.trans first.types
  initialized := next.initialized.trans first.initialized

theorem Evolves.refl (w : World) : Evolves p R w w where
  kept _ t _ found := ⟨t, found, .inl rfl⟩
  grown _ none_ := .inl none_
  spare _ _ spare := spare
  bins := .refl w
  pages _ here := here
  marked _ _ _ found _ := .inl found

theorem Evolves.trans (first : Evolves p R w w') (next : Evolves p R w' w'') : Evolves p R w w'' where
  kept a t attributes found := by
    obtain ⟨t', found', change⟩ := first.kept a t attributes found
    obtain ⟨t'', found'', change'⟩ := next.kept a t' attributes found'
    refine ⟨t'', found'', ?_⟩
    rcases change' with rfl | ⟨free, descriptors⟩ | inside
    · exact change
    · rcases change with rfl | ⟨_, descriptors'⟩ | inside
      · exact .inr (.inl ⟨free, descriptors⟩)
      · rw [descriptors'] at free
        exact absurd free (by decide)
      · exact .inr (.inr inside)
    · exact .inr (.inr inside)
  grown a none_ := by
    rcases first.grown a none_ with none' | ⟨attributes, t', spare, found', change⟩
    · rcases next.grown a none' with none'' | ⟨attributes, t', spare, found, change⟩
      · exact .inl none''
      · exact .inr ⟨attributes, t', first.spare a attributes spare, found, change⟩
    · obtain ⟨t'', found'', change'⟩ := next.kept a t' attributes found'
      refine .inr ⟨attributes, t'', spare, found'', ?_⟩
      rcases change' with rfl | ⟨_, descriptors⟩ | inside
      · exact change
      · exact .inr (.inl descriptors)
      · exact .inr (.inr inside)
  spare a attributes spare := first.spare a attributes (next.spare a attributes spare)
  bins := first.bins.trans next.bins
  pages a here := next.pages a (first.pages a here)
  marked a t attributes found used := by
    rcases next.marked a t attributes found used with found' | inside | described
    · exact (first.marked a t attributes found' used).imp_right (Or.imp_right (next.pages a))
    · exact .inr (.inl inside)
    · exact .inr (.inr described)

theorem Evolves.mono (evolves : Evolves p R w w') (sub : ∀ a, R a → R' a) : Evolves p R' w w' where
  kept a t attributes found := by
    obtain ⟨t', found', change⟩ := evolves.kept a t attributes found
    exact ⟨t', found', change.imp_right (Or.imp_right (sub a))⟩
  grown a none_ := by
    refine (evolves.grown a none_).imp_right ?_
    rintro ⟨attributes, t', spare, found, change⟩
    exact ⟨attributes, t', spare, found, change.imp_right (Or.imp_right (sub a))⟩
  spare := evolves.spare
  bins := evolves.bins
  pages := evolves.pages
  marked a t attributes found used := (evolves.marked a t attributes found used).imp_right (Or.imp_left (sub a))

theorem Locked.refl (w : World) : Locked w w := fun held => ⟨rfl, held⟩

theorem Locked.trans (first : Locked w w') (next : Locked w' w'') : Locked w w'' := by
  intro held
  obtain ⟨same, held'⟩ := first held
  obtain ⟨same', held''⟩ := next held'
  exact ⟨same'.trans same, held''⟩

theorem Tidied.refl (intact : Intact p w) : Tidied p R w w := ⟨intact, .refl w, .refl w⟩

theorem Tidied.trans (first : Tidied p R w w') (next : Tidied p R w' w'') : Tidied p R w w'' :=
  ⟨next.intact, first.evolves.trans next.evolves, first.locked.trans next.locked⟩

theorem Tidied.mono (tidied : Tidied p R w w') (sub : ∀ a, R a → R' a) : Tidied p R' w w' :=
  ⟨tidied.intact, tidied.evolves.mono sub, tidied.locked⟩

theorem Tidied.widen (tidied : Tidied p nowhere w w') : Tidied p R w w' := tidied.mono fun _ inside => inside.elim

theorem Evolves.stays {a : Nat} {t : MemoryType} {attributes : UInt64} (evolves : Evolves p R w w') (out : ¬ R a)
    (found : w.at a = some (t, attributes)) (used : t ≠ conventionalMemory) : w'.at a = some (t, attributes) := by
  obtain ⟨t', found', change⟩ := evolves.kept a t attributes found
  rcases change with rfl | ⟨free, _⟩ | inside
  · exact found'
  · exact absurd free used
  · exact absurd inside out

/-- Outside of `R`, the pages that change their type hold descriptors afterwards. -/
theorem Evolves.change {a : Nat} {t : MemoryType} {attributes : UInt64} (evolves : Evolves p R w w') (out : ¬ R a)
    (found : w.at a = some (t, attributes)) : ∃ t', w'.at a = some (t', attributes) ∧
      (t' = t ∨ t = conventionalMemory ∧ t' = bootServicesData ∧ DescriptorPage w' a) := by
  obtain ⟨t', found', change⟩ := evolves.kept a t attributes found
  refine ⟨t', found', change.imp_right fun change => ?_⟩
  obtain ⟨free, descriptors⟩ := change.resolve_right out
  subst free descriptors
  refine ⟨rfl, rfl, ?_⟩
  rcases evolves.marked a _ _ found' (by decide) with same | inside | here
  · cases found.symm.trans same
  · exact absurd inside out
  · exact here

theorem Intact.onceMap (intact : Intact p w) (a : Nat) : mapLayout.hits anyValue w.memoryMap a ≤ 1 :=
  Nat.le_trans (Nat.le_add_right _ _) (intact.once a)

theorem Intact.at_spare (intact : Intact p w) {a : Nat} {attributes : UInt64} (spare : Spare p w a attributes) :
    w.at a = none := by
  obtain ⟨g, mem, promotable_, covers, _⟩ := spare
  have pos : 0 < gcdLayout.hits (promotable p) w.gcdMap a := hits_pos.mpr ⟨g, mem, covers, promotable_⟩
  have := intact.once a
  exact valueAt_eq_none_iff.mpr (by omega)

/-- Only addresses in `R` change, and only in their type. -/
theorem tidied_of_at (intact : Intact p w) (gcd : w'.gcdMap = w.gcdMap) (bins : SameBins w w')
    (locked : w'.gcdLocked = w.gcdLocked) (pages : ∀ a, DescriptorPage w a → DescriptorPage w' a)
    (sound : ∀ e ∈ w'.memoryMap, e.Sound)
    (total : ∀ a, mapLayout.hits anyValue w'.memoryMap a = mapLayout.hits anyValue w.memoryMap a)
    (each : ∀ a, w'.at a = w.at a ∨
      R a ∧ ∃ t t' attributes, w.at a = some (t, attributes) ∧ w'.at a = some (t', attributes)) : Tidied p R w w' := by
  refine ⟨⟨sound, by rw [gcd]; exact intact.spare, fun a => by rw [total, gcd]; exact intact.once a⟩,
    ⟨fun a t attributes found => ?_, fun a none_ => ?_, fun a attributes spare => ?_, bins, pages,
      fun a t attributes found _ => ?_⟩, fun held => ⟨gcd, locked.trans held⟩⟩
  · rcases each a with same | ⟨inside, _, t', _, before, after⟩
    · exact ⟨t, same.trans found, .inl rfl⟩
    · cases before.symm.trans found
      exact ⟨t', after, .inr (.inr inside)⟩
  · rcases each a with same | ⟨_, _, _, _, before, _⟩
    · exact .inl (same.trans none_)
    · cases before.symm.trans none_
  · rw [Spare, gcd] at spare
    exact spare
  · exact (each a).imp (fun same => same.symm.trans found) fun change => .inl change.1

theorem tidied_of_same (intact : Intact p w) (map : w'.memoryMap = w.memoryMap) (gcd : w'.gcdMap = w.gcdMap)
    (bins : SameBins w w') (locked : w'.gcdLocked = w.gcdLocked) (pages : ∀ a, DescriptorPage w a →
      DescriptorPage w' a) :
    Tidied p R w w' :=
  tidied_of_at intact gcd bins locked pages (map ▸ intact.sound) (fun _ => by rw [map])
    fun _ => .inl (by rw [World.at, map, World.at])

end Relations

section Ranges

variable {p : Platform} {w w' : World} {v : MemoryType × UInt64} {start last a : Nat}

theorem OnlyMap.bins (only : OnlyMap w w') : SameBins w w' := by
  rw [only]
  exact .of_eq rfl rfl rfl

theorem OnlyMap.gcdMap (only : OnlyMap w w') : w'.gcdMap = w.gcdMap := by rw [only]

theorem OnlyMap.pages (only : OnlyMap w w') (a : Nat) (here : DescriptorPage w a) : DescriptorPage w' a := by
  rw [DescriptorPage, only]
  exact here

theorem OnlyMap.gcdLocked (only : OnlyMap w w') : w'.gcdLocked = w.gcdLocked := by rw [only]

theorem Added.at_inside (added : Added v start last w w') (once : mapLayout.hits anyValue w'.memoryMap a ≤ 1)
    (inside : between start last a) : w'.at a = some v := by
  have pos : 0 < mapLayout.hits (fun u => decide (u = v)) w'.memoryMap a := by
    rw [added.hits, hits_segment, if_pos ⟨inside, decide_eq_true rfl⟩]
    omega
  have le : mapLayout.hits (fun u => decide (u = v)) w'.memoryMap a ≤ mapLayout.hits anyValue w'.memoryMap a :=
    hits_le_any
  exact (valueAt_eq_some_iff once).mpr (by omega)

theorem Added.at_outside (added : Added v start last w w') (once : mapLayout.hits anyValue w.memoryMap a ≤ 1)
    (outside : ¬ between start last a) : w'.at a = w.at a := by
  refine valueAt_congr once fun q => ?_
  rw [added.hits, hits_segment, if_neg fun both => outside both.1, Nat.add_zero]

theorem Pulled.at_inside (pulled : Pulled v start last w w') (once : mapLayout.hits anyValue w.memoryMap a ≤ 1)
    (inside : between start last a) : w.at a = some v ∧ mapLayout.hits anyValue w'.memoryMap a = 0 := by
  have all := pulled.hits anyValue a
  have these := pulled.hits (fun u => decide (u = v)) a
  have le : mapLayout.hits (fun u => decide (u = v)) w.memoryMap a ≤ mapLayout.hits anyValue w.memoryMap a :=
    hits_le_any
  rw [hits_segment, if_pos ⟨inside, rfl⟩] at all
  rw [hits_segment, if_pos ⟨inside, decide_eq_true rfl⟩] at these
  exact ⟨(valueAt_eq_some_iff once).mpr (by omega), by omega⟩

theorem Pulled.at_outside (pulled : Pulled v start last w w') (once : mapLayout.hits anyValue w.memoryMap a ≤ 1)
    (outside : ¬ between start last a) : w'.at a = w.at a := by
  refine valueAt_congr once fun q => ?_
  rw [← pulled.hits, hits_segment, if_neg fun both => outside both.1, Nat.add_zero]

end Ranges

section Counters

variable {p : Platform} {w : World}

theorem setStatistics_bins (type : MemoryType) (n : Nat) :
    SameBins w (w.setStatistics type { w.statistics type with currentNumberOfPages := n }) := by
  refine ⟨fun t => ?_, fun _ _ => rfl, rfl, rfl⟩
  by_cases this : t = type
  · subst this
    exact ⟨n, by simp [World.setStatistics]⟩
  · exact ⟨(w.statistics t).currentNumberOfPages, by simp [World.setStatistics, this]⟩

theorem map_type_modify {information : List TypeInformation} {index : Nat} {f : TypeInformation → TypeInformation}
    (same : ∀ i, (f i).type = i.type) :
    (information.modify index f).map TypeInformation.type = information.map TypeInformation.type := by
  induction information generalizing index with
  | nil => simp
  | cons i rest ih =>
    cases index with
    | zero => simp [same]
    | succ index => simp [ih]

theorem tidied_uncount {R : Nat → Prop} (intact : Intact p w) (type : MemoryType) (start numberOfPages : Nat) :
    Tidied p R w (uncount type start numberOfPages w) := by
  unfold uncount
  dsimp only
  split
  next => exact tidied_of_same intact rfl rfl (setStatistics_bins _ _) rfl fun _ => id
  next => exact .refl intact

theorem tidied_count {R : Nat → Prop} (intact : Intact p w) (type : MemoryType) (start numberOfPages : Nat) :
    Tidied p R w (count type start numberOfPages w) := by
  unfold count
  dsimp only
  split
  next =>
    refine tidied_of_same intact rfl rfl ?_ rfl fun _ => id
    refine (setStatistics_bins _ _).trans ⟨fun _ => ⟨_, rfl⟩, fun i out => ?_, map_type_modify fun i => ?_, rfl⟩
    · have other : (w.statistics type).informationIndex ≠ i := by
        have := out type
        simpa [World.setStatistics] using this
      exact List.getElem?_modify_ne _ _ other
    · split <;> rfl
  next => exact .refl intact

theorem tidied_changeCount {R : Nat → Prop} (intact : Intact p w) (change : Change) (oldType : MemoryType)
    (start numberOfPages : Nat) : Tidied p R w (change.count oldType start numberOfPages w) := by
  cases change with
  | type newType =>
    have first := tidied_uncount (R := R) intact oldType start numberOfPages
    exact first.trans (tidied_count first.intact newType start numberOfPages)
  | attributes newAttributes => exact .refl intact

theorem memoryMap_changeCount (change : Change) (oldType : MemoryType) (start numberOfPages : Nat) :
    (change.count oldType start numberOfPages w).memoryMap = w.memoryMap := by
  have uncounted : (uncount oldType start numberOfPages w).memoryMap = w.memoryMap := by
    unfold uncount
    dsimp only
    split <;> rfl
  cases change with
  | type newType =>
    rw [Change.count, ← uncounted]
    unfold count
    dsimp only
    split <;> rfl
  | attributes newAttributes => rfl

end Counters

/-! ### Converting -/

section Convert

variable {p : Platform} {freeStack : M Unit} {w w' : World} {newType : MemoryType} {numberOfPages start last : Nat}

def Tidies (p : Platform) (freeStack : M Unit) : Prop :=
  ∀ w, Intact p w → wp freeStack p (fun _ w' => Tidied p nowhere w w') anyStop w

/-- The range was free, and has the new type. -/
def Taken (newType : MemoryType) (start last : Nat) (w w' : World) : Prop :=
  ∀ a, between start last a →
    ∃ attributes, w.at a = some (conventionalMemory, attributes) ∧ w'.at a = some (newType, attributes)

/-- The range is free, except for pages that have come to hold descriptors. -/
def Freed (start last : Nat) (w' : World) : Prop :=
  ∀ a, between start last a → ∃ t attributes, w'.at a = some (t, attributes) ∧
    (t = conventionalMemory ∨ t = bootServicesData ∧ DescriptorPage w' a)

structure Converted (newType : MemoryType) (start last : Nat) (w w' : World) : Prop where
  taken : newType ≠ conventionalMemory → Taken newType start last w w'
  freed : newType = conventionalMemory → Freed start last w'

theorem Converted.then {R : Nat → Prop} {w'' : World} (converted : Converted newType start last w w')
    (evolves : Evolves p R w' w'') (out : ∀ a, between start last a → ¬ R a) : Converted newType start last w w'' where
  taken used a inside := by
    obtain ⟨attributes, before, after⟩ := converted.taken used a inside
    exact ⟨attributes, before, evolves.stays (out a inside) after used⟩
  freed free a inside := by
    obtain ⟨t, attributes, after, change⟩ := converted.freed free a inside
    obtain ⟨t', after', change'⟩ := evolves.change (out a inside) after
    refine ⟨t', attributes, after', ?_⟩
    rcases change' with rfl | ⟨_, descriptors⟩
    · exact change.imp_right (And.imp_right (evolves.pages a))
    · exact .inr descriptors

theorem tidied_replace {v : MemoryType × UInt64} {w₁ w₂ w₃ : World} (intact : Intact p w₁)
    (compatible : newType = conventionalMemory ↔ v.1 ≠ conventionalMemory) (pulled : Pulled v start last w₁ w₂)
    (added : Added (newType, v.2) start last w₂ w₃) :
    Tidied p (between start last) w₁ w₃ ∧ Converted newType start last w₁ w₃ := by
  have total : ∀ a, mapLayout.hits anyValue w₃.memoryMap a = mapLayout.hits anyValue w₁.memoryMap a := by
    intro a
    rw [added.hits, ← pulled.hits, hits_segment, hits_segment]
    rfl
  have once : ∀ a, mapLayout.hits anyValue w₃.memoryMap a ≤ 1 := fun a => by
    rw [total]
    exact intact.onceMap a
  have once₂ : ∀ a, mapLayout.hits anyValue w₂.memoryMap a ≤ 1 := fun a => by
    have := once a
    rw [added.hits] at this
    omega
  have inside : ∀ a, between start last a → w₁.at a = some v ∧ w₃.at a = some (newType, v.2) :=
    fun a inside => ⟨(pulled.at_inside (intact.onceMap a) inside).1, added.at_inside (once a) inside⟩
  refine ⟨tidied_of_at intact (added.only.gcdMap.trans pulled.only.gcdMap) (pulled.only.bins.trans added.only.bins)
    (added.only.gcdLocked.trans pulled.only.gcdLocked) (fun a here => added.only.pages a (pulled.only.pages a here))
    added.sound total fun a => ?_, ⟨fun used a here => ?_, fun free a here => ?_⟩⟩
  · by_cases here : between start last a
    · exact .inr ⟨here, _, _, _, inside a here⟩
    · exact .inl ((added.at_outside (once₂ a) here).trans (pulled.at_outside (intact.onceMap a) here))
  · obtain ⟨before, after⟩ := inside a here
    have free : v.1 = conventionalMemory := Classical.not_not.mp fun other => used (compatible.mpr other)
    exact ⟨v.2, before.trans (congrArg some (Prod.ext free rfl)), after⟩
  · exact ⟨newType, v.2, (inside a here).2, .inl free⟩

def Held (w : World) (a : Nat) : Prop := ∃ t attributes, w.at a = some (t, attributes) ∧ t ≠ conventionalMemory

/-- One turn of the loop converts the pages up to `next`. -/
structure Stepped (p : Platform) (newType : MemoryType) (start last : Nat) (w : World) (next : Nat) (w' : World) :
    Prop where
  bounds : start < next ∧ next ≤ last + 1
  aligned : next % 0x1000 = 0
  whole : newType ≠ conventionalMemory → next = last + 1
  tidied : Tidied p (between start (next - 1)) w w'
  converted : Converted newType start (next - 1) w w'
  held : newType = conventionalMemory → ∀ a, start ≤ a → a < next → Held w a ∧ ¬ DescriptorPage w a

/-- The entry at `start` cannot be converted. -/
def Blocked (newType : MemoryType) (start last : Nat) (w : World) : Prop :=
  ∀ e ∈ w.memoryMap, mapLayout.Covers e start → convertible newType e last = false

theorem convertible_iff {e : Entry} : convertible newType e last = true ↔
    (newType ≠ conventionalMemory → last ≤ e.last) ∧ (newType = conventionalMemory ↔ e.type ≠ conventionalMemory) := by
  rw [convertible, decide_eq_true_iff]

theorem contains_iff_covers {e : Entry} (sound : e.Sound) (aligned : start % 0x1000 = 0) :
    e.contains start = true ↔ mapLayout.Covers e start := by
  have := sound.2.1
  simp only [Entry.contains, Bool.decide_and, Bool.and_eq_true, decide_eq_true_eq, Covers, mapLayout]
  omega

theorem wp_convertStep {Q : Option Nat → World → Prop} (tidies : Tidies p freeStack) (intact : Intact p w)
    (alignedStart : start % 0x1000 = 0) (alignedLast : (last + 1) % 0x1000 = 0) (lt : start < last)
    (blocked : Blocked newType start last w → Q none w)
    (stepped : ∀ next w', Stepped p newType start last w next w' → Q (some next) w') :
    wp (convertStep freeStack (.type newType) numberOfPages start last) p Q anyStop w := by
  rw [convertStep, wp_bind, wp_get]
  cases found : locate (·.contains start) w.memoryMap with
  | none =>
    refine blocked fun e mem covers => ?_
    have out := locate_eq_none found e mem
    rw [(contains_iff_covers (intact.sound e mem) alignedStart).mpr covers] at out
    cases out
  | some parts =>
    obtain ⟨before, e, after⟩ := parts
    obtain ⟨map, contains⟩ := locate_eq found
    have mem : e ∈ w.memoryMap := by simp [map]
    have sound := intact.sound e mem
    have covers := (contains_iff_covers sound alignedStart).mp contains
    dsimp only
    by_cases allowed : (Change.type newType).allowed e last = true
    · rw [if_neg (not_not_intro allowed), wp_ite]
      split
      next => trivial
      next keeps =>
        obtain ⟨single, compatible⟩ := convertible_iff.mp allowed
        have range : (segment (mapLayout.value e) start (min e.last last)).Sound := by
          obtain ⟨_, alignedE, _, ltE⟩ := sound
          obtain ⟨leE, ltNext⟩ := covers
          simp only [mapLayout] at leE ltNext
          refine ⟨alignedStart, ?_, ?_, ?_⟩ <;> simp only [segment]
          · rcases Nat.le_total e.last last with le | le
            · rw [Nat.min_eq_left le]
              exact alignedE
            · rw [Nat.min_eq_right le]
              exact alignedLast
          · omega
          · omega
        have counted := tidied_changeCount (R := between start (min e.last last)) intact (.type newType) e.type start
          numberOfPages
        have mapCounted := memoryMap_changeCount (w := w) (.type newType) e.type start numberOfPages
        rw [wp_bind, wp_modify, wp_bind]
        generalize Change.count (.type newType) e.type start numberOfPages w = w₁ at counted mapCounted
        rw [← mapCounted] at map
        refine wp_pullOut map counted.intact.sound range covers.1 (Nat.min_le_left _ _) fun w₂ pulled => ?_
        rw [wp_bind]
        refine wp_coreAddRange pulled.sound range fun w₃ added => ?_
        rw [wp_bind]
        obtain ⟨replaced, converted⟩ := tidied_replace counted.intact compatible pulled added
        refine wp_mono (fun _ w₄ tidied => ?_) (fun _ _ _ => trivial) (tidies w₃ replaced.intact)
        have lastLt : min e.last last + 1 < 2 ^ 64 := range.2.2.2
        have same : ∀ a, w₁.at a = w.at a := fun a => by rw [World.at, mapCounted, World.at]
        have finished := converted.then tidied.evolves fun _ _ inside => inside
        rw [wp_pure, Nat.mod_eq_of_lt lastLt]
        refine stepped _ _ ⟨?_, range.2.1, fun used => ?_, (counted.trans replaced).trans tidied.widen,
          ⟨fun used a inside => ?_, finished.freed⟩, fun free a ge lt =>
          ⟨⟨e.type, e.attributes, ?_, compatible.mp free⟩, fun here => keeps ?_⟩⟩
        · have := range.2.2.1
          simp only [segment] at this
          omega
        · rw [Nat.min_eq_right (single used)]
        · rw [← same a]
          exact finished.taken used a inside
        · refine valueAt_eq_of_mem (intact.onceMap a) mem ⟨Nat.le_trans covers.1 ge, ?_⟩
          simp only [mapLayout]
          omega
        · simp only [Change.losesDescriptors, free, decide_eq_true_eq, true_and]
          exact ⟨_, here, by omega, by omega⟩
    · rw [if_pos allowed]
      refine blocked fun e' mem' covers' => ?_
      rw [← eq_of_covers (intact.onceMap start) mem mem' covers covers']
      exact Bool.eq_false_iff.mpr allowed

/-- What a whole run of the loop has done. -/
structure Ran (p : Platform) (newType : MemoryType) (start last : Nat) (w : World) (status : EfiStatus) (w' : World) :
    Prop where
  tidied : Tidied p (between start last) w w'
  taken : status = .success → newType ≠ conventionalMemory → Taken newType start last w w'
  failed : status ≠ .success → newType ≠ conventionalMemory → w' = w
  takes : newType ≠ conventionalMemory →
    (∃ e ∈ w.memoryMap, e.type = conventionalMemory ∧ e.start ≤ start ∧ last ≤ e.last) → status = .success
  empty : last < start → status = .success

theorem ran_blocked (intact : Intact p w) (lt : start < last) (blocked : Blocked newType start last w) :
    Ran p newType start last w .notFound w where
  tidied := .refl intact
  taken := nofun
  failed _ _ := rfl
  takes used := by
    rintro ⟨e, mem, type, le, ge⟩
    have covers : mapLayout.Covers e start := ⟨le, Nat.lt_succ_of_le (Nat.le_trans (Nat.le_of_lt lt) ge)⟩
    have out := blocked e mem covers
    rw [convertible_iff.mpr ⟨fun _ => ge, by simp [used, type]⟩] at out
    cases out
  empty gt := absurd gt (Nat.lt_asymm lt)

theorem ran_empty (intact : Intact p w) (empty : last < start) : Ran p newType start last w .success w where
  tidied := .refl intact
  taken _ _ _ inside := absurd (Nat.le_trans inside.1 inside.2) (Nat.not_le.mpr empty)
  failed out := absurd rfl out
  takes _ _ := rfl
  empty _ := rfl

theorem Stepped.ran {next : Nat} {status : EfiStatus} {w'' : World} (stepped : Stepped p newType start last w next w')
    (ran : Ran p newType next last w' status w'') : Ran p newType start last w status w'' where
  tidied := by
    obtain ⟨lt, le⟩ := stepped.bounds
    refine (stepped.tidied.mono fun a inside => ?_).trans (ran.tidied.mono fun a inside => ?_)
    · exact ⟨inside.1, by have := inside.2; omega⟩
    · exact ⟨by have := inside.1; omega, inside.2⟩
  taken _ used := by
    have next := stepped.whole used
    subst next
    refine (stepped.converted.then ran.tidied.evolves fun a inside inside' => ?_).taken used
    have := inside.2
    have := inside'.1
    omega
  failed out used := by
    have next := stepped.whole used
    exact absurd (ran.empty (by omega)) out
  takes used _ := by
    have next := stepped.whole used
    exact ran.empty (by omega)
  empty gt := by
    obtain ⟨lt, le⟩ := stepped.bounds
    omega

/-- The turns of the loop, from `start` on. -/
inductive Runs (p : Platform) (newType : MemoryType) (last : Nat) : Nat → World → EfiStatus → World → Prop
  | blocked {start : Nat} {w : World} (intact : Intact p w) (lt : start < last)
      (blocked : Blocked newType start last w) :
    Runs p newType last start w .notFound w
  | done {start : Nat} {w : World} (intact : Intact p w) (empty : last < start) : Runs p newType last start w .success w
  | step {start next : Nat} {w w' w'' : World} {status : EfiStatus} (stepped : Stepped p newType start last w next w')
    (rest : Runs p newType last next w' status w'') : Runs p newType last start w status w''

theorem Runs.ran {status : EfiStatus} (runs : Runs p newType last start w status w') :
    Ran p newType start last w status w' := by
  induction runs with
  | blocked intact lt blocked => exact ran_blocked intact lt blocked
  | done intact empty => exact ran_empty intact empty
  | step stepped _ ih => exact stepped.ran ih

/-- A run that frees pages stops at the first one that is not held. -/
theorem Runs.frees {status : EfiStatus} (runs : Runs p conventionalMemory last start w status w')
    (le : start ≤ last + 1) :
    ∃ stop, start ≤ stop ∧ stop ≤ last + 1 ∧ Tidied p (fun a => start ≤ a ∧ a < stop) w w' ∧
      (∀ a, start ≤ a → a < stop → Held w a ∧ ¬ DescriptorPage w a ∧ Freed a a w') ∧ (stop = start → w' = w) ∧
      (status = .success → stop = last + 1) ∧ (status ≠ .success → stop < last ∧ ¬ Held w stop) := by
  induction runs with
  | @blocked start w intact lt blocked =>
    refine ⟨start, Nat.le_refl _, le, .refl intact, fun a ge lt => by omega, fun _ => rfl, nofun, fun _ => ⟨lt, ?_⟩⟩
    rintro ⟨t, attributes, found, used⟩
    obtain ⟨e, mem, covers, value⟩ := exists_of_valueAt found
    have type : e.type = t := congrArg Prod.fst value
    have out := blocked e mem covers
    rw [convertible_iff.mpr ⟨fun used => absurd rfl used, by simp [type, used]⟩] at out
    cases out
  | @done start w intact empty =>
    exact ⟨start, Nat.le_refl _, le, .refl intact, fun a ge lt => by omega, fun _ => rfl, fun _ => by omega,
      fun out => absurd rfl out⟩
  | @step start next w w' w'' status stepped _ ih =>
    obtain ⟨stop, ge, le', tidied, all, -, success, failed⟩ := ih stepped.bounds.2
    have lt := stepped.bounds.1
    refine ⟨stop, by omega, le', (stepped.tidied.mono fun a inside => ?_).trans (tidied.mono fun a inside => ?_),
      fun a ge' lt' => ?_, fun same => by omega, success, fun out => ⟨(failed out).1, fun held => ?_⟩⟩
    · exact ⟨inside.1, by have := inside.2; omega⟩
    · exact ⟨by have := inside.1; omega, inside.2⟩
    · by_cases here : a < next
      · obtain ⟨held, free⟩ := stepped.held rfl a ge' here
        have freed := stepped.converted.then tidied.evolves fun x inside inside' => by
          have := inside.2
          have := inside'.1
          omega
        exact ⟨held, free, fun x inside => freed.freed rfl x ⟨by have := inside.1; omega, by have := inside.2; omega⟩⟩
      · -- what is freed later was not taken for descriptors in between
        obtain ⟨⟨t, attributes, found, used⟩, free, freed⟩ := all a (by omega) lt'
        rcases stepped.tidied.evolves.marked a t attributes found used with found' | inside | described
        · exact ⟨⟨t, attributes, found', used⟩, fun here => free (stepped.tidied.evolves.pages a here), freed⟩
        · have := inside.2
          omega
        · exact absurd described free
    · obtain ⟨t, attributes, found, used⟩ := held
      refine (failed out).2 ⟨t, attributes, stepped.tidied.evolves.stays (fun inside => ?_) found used, used⟩
      have := inside.2
      omega

theorem wp_convertLoop {Q : EfiStatus → World → Prop} {fuel : Nat} (tidies : Tidies p freeStack) (intact : Intact p w)
    (alignedStart : start % 0x1000 = 0) (alignedLast : (last + 1) % 0x1000 = 0) (le : start ≤ last + 1)
    (next : ∀ status w', Runs p newType last start w status w' → Q status w') :
    wp (convertLoop freeStack (.type newType) numberOfPages fuel start last) p Q anyStop w := by
  induction fuel generalizing start w with
  | zero => trivial
  | succ fuel ih =>
    rw [convertLoop, wp_ite]
    split
    next lt =>
      rw [wp_bind]
      refine wp_convertStep tidies intact alignedStart alignedLast lt (fun blocked => ?_) fun next' w' stepped => ?_
      · exact next _ _ (.blocked intact lt blocked)
      · exact ih stepped.tidied.intact stepped.aligned stepped.bounds.2 fun status w'' rest =>
          next _ _ (.step stepped rest)
    next => exact next _ _ (.done intact (by omega))

theorem lastOf_aligned (aligned : start % 0x1000 = 0) : (lastOf start (bytesOf numberOfPages) + 1) % 0x1000 = 0 := by
  simp only [lastOf, bytesOf]
  omega

/-- What `CoreConvertPagesEx` asserts, and checks again, of its arguments. -/
def Asserted (numberOfPages start last : Nat) : Prop := numberOfPages ≠ 0 ∧ start % 0x1000 = 0 ∧ start < last

theorem wp_convertRange {Q : EfiStatus → World → Prop} (tidies : Tidies p freeStack) (intact : Intact p w)
    (alignedLast : start % 0x1000 = 0 → (last + 1) % 0x1000 = 0)
    (refused : ¬ Asserted numberOfPages start last → Q .invalidParameter w)
    (next : ∀ status w', Asserted numberOfPages start last → Runs p newType last start w status w' → Q status w') :
    wp (convertRange freeStack (.type newType) numberOfPages start last) p Q anyStop w := by
  rw [convertRange, wp_ite]
  split
  next bad =>
    refine refused ?_
    rintro ⟨pos, aligned, lt⟩
    omega
  next good =>
    have asserted : Asserted numberOfPages start last := by
      unfold Asserted
      omega
    rw [wp_bind, wp_get]
    exact wp_convertLoop tidies intact asserted.2.1 (alignedLast asserted.2.1) (by omega)
      fun status w' => next status w' asserted

theorem wp_coreConvertPages {Q : EfiStatus → World → Prop} (tidies : Tidies p freeStack) (intact : Intact p w)
    (refused : ¬ Asserted numberOfPages start (lastOf start (bytesOf numberOfPages)) → Q .invalidParameter w)
    (next : ∀ status w', Asserted numberOfPages start (lastOf start (bytesOf numberOfPages)) →
      Runs p newType (lastOf start (bytesOf numberOfPages)) start w status w' → Q status w') :
    wp (coreConvertPages freeStack start numberOfPages newType) p Q anyStop w :=
  wp_convertRange tidies intact lastOf_aligned refused next

end Convert

/-! ### Untested memory -/

section Promote

variable {p : Platform} {freeStack : M Unit} {w w' : World} {g : GcdMapEntry} {before rest : List GcdMapEntry}

theorem not_promotable_promote : promotable p (promote g) = false := by
  simp only [promotable, promote]
  split <;> simp

theorem evolves_promote {w₁ : World} (intact : Intact p w) (map : w.gcdMap = before ++ g :: rest)
    (promotable_ : promotable p g = true) (map₁ : w₁ = { w with gcdMap := before ++ promote g :: rest })
    (added : Added (promotedValue g) g.baseAddress g.endAddress w₁ w') :
    Intact p w' ∧ Evolves p nowhere w w' := by
  have gcd : w'.gcdMap = before ++ promote g :: rest := by rw [added.only.gcdMap, map₁]
  have mapSame : w₁.memoryMap = w.memoryMap := by rw [map₁]
  have atSame : ∀ a, w₁.at a = w.at a := fun a => by rw [World.at, mapSame, World.at]
  have split : ∀ a, gcdLayout.hits (promotable p) w.gcdMap a = gcdLayout.hits (promotable p) w'.gcdMap a +
      mapLayout.hits anyValue [segment (promotedValue g) g.baseAddress g.endAddress] a := by
    intro a
    have mine : gcdLayout.hits (promotable p) [promote g] a = 0 := by
      rw [hits_singleton]
      exact if_neg fun both => Bool.false_ne_true ((not_promotable_promote (p := p) (g := g)).symm.trans both.2)
    have theirs : gcdLayout.hits (promotable p) [g] a =
        mapLayout.hits anyValue [segment (promotedValue g) g.baseAddress g.endAddress] a := by
      rw [hits_singleton, hits_segment]
      refine if_congr (and_congr (and_congr Iff.rfl Nat.lt_succ_iff) ?_) rfl rfl
      simp [gcdLayout, promotable_, anyValue]
    rw [map, gcd, hits_append, hits_append, hits_cons g, hits_cons (promote g), mine, theirs]
    omega
  have total : ∀ a, mapLayout.hits anyValue w'.memoryMap a + gcdLayout.hits (promotable p) w'.gcdMap a =
      mapLayout.hits anyValue w.memoryMap a + gcdLayout.hits (promotable p) w.gcdMap a := by
    intro a
    rw [added.hits, mapSame, split]
    omega
  have once : ∀ a, mapLayout.hits anyValue w'.memoryMap a ≤ 1 := fun a => by
    have := intact.once a
    have := total a
    omega
  have members : ∀ h ∈ w'.gcdMap, promotable p h = true → h ∈ w.gcdMap := by
    intro h mem can
    rw [gcd] at mem
    rcases mem_append.mp mem with mem | mem
    · simp [map, mem]
    · rcases mem_cons.mp mem with rfl | mem
      · rw [not_promotable_promote] at can
        cases can
      · simp [map, mem]
  have onceOld : ∀ a, mapLayout.hits anyValue w₁.memoryMap a ≤ 1 := fun a => by
    rw [mapSame]
    exact intact.onceMap a
  have outside : ∀ a, ¬ between g.baseAddress g.endAddress a → w'.at a = w.at a :=
    fun a out => (added.at_outside (onceOld a) out).trans (atSame a)
  have spareHere : ∀ a, between g.baseAddress g.endAddress a → Spare p w a (promotedAttribute g) :=
    fun a inside => ⟨g, by simp [map], promotable_, ⟨inside.1, Nat.lt_succ_of_le inside.2⟩, rfl⟩
  refine ⟨⟨added.sound, fun h mem can => intact.spare h (members h mem can) can, fun a => ?_⟩,
    ⟨fun a t attributes found => ?_, fun a none_ => ?_, ?_, ?_, fun a here => added.only.pages a
    (by rw [map₁]; exact here), fun a t attributes found used => .inl ?_⟩⟩
  · rw [total]
    exact intact.once a
  · by_cases here : between g.baseAddress g.endAddress a
    · rw [intact.at_spare (spareHere a here)] at found
      cases found
    · exact ⟨t, (outside a here).trans found, .inl rfl⟩
  · by_cases here : between g.baseAddress g.endAddress a
    · exact .inr ⟨_, _, spareHere a here, added.at_inside (once a) here, .inl rfl⟩
    · exact .inl ((outside a here).trans none_)
  · rintro a attributes ⟨h, mem, can, covers, same⟩
    exact ⟨h, members h mem can, can, covers, same⟩
  · refine SameBins.trans ?_ added.only.bins
    rw [map₁]
    exact .of_eq rfl rfl rfl
  · by_cases here : between g.baseAddress g.endAddress a
    · rw [added.at_inside (once a) here] at found
      cases found
      exact absurd rfl used
    · exact (outside a here).symm.trans found

theorem wp_promoteFrom {Q : Bool → World → Prop} {promoted : Bool} (tidies : Tidies p freeStack) (intact : Intact p w)
    (map : w.gcdMap = before ++ rest) (held : w.gcdLocked = true)
    (next : ∀ r w', Intact p w' → Evolves p nowhere w w' → Q r w') :
    wp (promoteFrom freeStack before rest promoted) p Q anyStop w := by
  induction rest generalizing w before promoted with
  | nil => exact next _ _ intact (.refl w)
  | cons g rest ih =>
    rw [promoteFrom, wp_bind, wp_ask, wp_ite]
    split
    next promotable_ =>
      have sound := intact.spare g (by simp [map]) promotable_
      rw [wp_bind, wp_modify, wp_bind]
      refine wp_coreAddRange (v := promotedValue g) intact.sound sound fun w₂ added => ?_
      obtain ⟨intact₂, evolves₂⟩ := evolves_promote intact map promotable_ rfl added
      refine wp_seq (fun _ w₃ tidied => ?_) (tidies w₂ intact₂)
      have held₂ : w₂.gcdLocked = true := added.only.gcdLocked.trans held
      obtain ⟨same, held₃⟩ := tidied.locked held₂
      have map₃ : w₃.gcdMap = before ++ [promote g] ++ rest := by
        rw [same, added.only.gcdMap, append_assoc, singleton_append]
      exact ih tidied.intact map₃ held₃ fun r w' intact' evolves => next r w' intact'
        ((evolves₂.trans tidied.evolves).trans evolves)
    next =>
      exact ih intact (by rw [map, append_assoc, singleton_append]) held next

theorem wp_promoteMemoryResource {Q : Bool → World → Prop} (tidies : Tidies p freeStack) (intact : Intact p w)
    (next : ∀ r w', Tidied p nowhere w w' → Q r w') : wp (promoteMemoryResource freeStack) p Q anyStop w := by
  simp only [promoteMemoryResource, wp_bind, wp_get, wp_assertThat, wp_modify, wp_pure]
  intro unlocked
  refine wp_promoteFrom tidies ⟨intact.sound, intact.spare, intact.once⟩ rfl rfl fun r w' intact' evolves => ?_
  refine next _ _ ⟨⟨intact'.sound, intact'.spare, intact'.once⟩, ⟨evolves.kept, evolves.grown, evolves.spare, ?_,
    evolves.pages, evolves.marked⟩, ?_⟩
  · exact ⟨evolves.bins.statistics, evolves.bins.information, evolves.bins.types, evolves.bins.initialized⟩
  · intro held
    rw [held] at unlocked
    cases unlocked

end Promote

/-! ### Finding free pages -/

section Find

variable {p : Platform} {freeStack : M Unit} {w : World} {e : Entry} {xs : List Entry}
  {maxAddress minAddress numberOfPages alignment : Nat}

def Granular (alignment : Nat) : Prop := alignment = 0x1000 ∨ alignment = 0x10000

/-- Where free pages have been found: in one free entry below the limit, or, because the end of a free entry below the
    alignment has wrapped, at the end of the addresses. -/
def FoundAt (maxAddress numberOfPages alignment : Nat) (xs : List Entry) (start : Nat) : Prop :=
  start % alignment = 0 ∧
    ((start + numberOfPages * 0x1000 = 2 ^ 64 ∧
        ∃ e ∈ xs, e.type = conventionalMemory ∧ 0 < e.start ∧ e.start < alignment) ∨
      ∃ e ∈ xs, e.type = conventionalMemory ∧ e.start ≤ start ∧ start + numberOfPages * 0x1000 ≤ e.last + 1 ∧
        start + numberOfPages * 0x1000 ≤ maxAddress + 1)

theorem pageEnd_le (enough : 0xFFF ≤ maxAddress) : pageEnd maxAddress ≤ maxAddress := by
  rw [pageEnd]
  split <;> omega

theorem mem_foldl_max {ds : List Nat} {d : Nat} : ds.foldl max d = d ∨ ds.foldl max d ∈ ds := by
  induction ds generalizing d with
  | nil => exact .inl rfl
  | cons x ds ih =>
    rw [foldl_cons]
    rcases ih (d := max d x) with same | mem
    · rcases Nat.le_total d x with le | le
      · exact .inr (by rw [same, Nat.max_eq_right le]; exact mem_cons_self)
      · exact .inl (by rw [same, Nat.max_eq_left le])
    · exact .inr (mem_cons_of_mem x mem)

theorem alignEnd_cases {limit : Nat} (granular : Granular alignment) (lt : limit + 1 < 2 ^ 64) :
    (alignEnd alignment limit = 2 ^ 64 - 1 ∧ limit < alignment) ∨
      (alignEnd alignment limit ≤ limit ∧ (alignEnd alignment limit + 1) % alignment = 0) := by
  rw [alignEnd, Nat.mod_eq_of_lt lt]
  rcases granular with rfl | rfl <;> omega

theorem usableEnd_eq {d numberOfBytes : Nat}
    (usable : usableEnd maxAddress minAddress numberOfBytes alignment e = some d) :
    e.type = conventionalMemory ∧ e.start < maxAddress ∧ d = alignEnd alignment (min e.last maxAddress) ∧ e.start ≤ d ∧
      numberOfBytes ≤ (d - e.start + 1) % 2 ^ 64 := by
  unfold usableEnd at usable
  split at usable
  next test =>
    simp only [Option.ite_none_left_eq_some, not_or, Nat.not_lt, Option.some.injEq] at usable
    obtain ⟨⟨le, enough, _⟩, same⟩ := usable
    rw [same] at le enough
    exact ⟨test.1, Nat.not_le.mp (not_or.mp test.2.2).1, same.symm, le, enough⟩
  next => cases usable

theorem foundAt_of_usableEnd {d : Nat} (sound : e.Sound) (granular : Granular alignment)
    (whole : numberOfPages * 0x1000 % alignment = 0) (pos : 0 < numberOfPages) (fits : numberOfPages * 0x1000 < 2 ^ 64)
    (mem : e ∈ xs) (usable : usableEnd maxAddress minAddress (numberOfPages * 0x1000) alignment e = some d) :
    FoundAt maxAddress numberOfPages alignment xs ((d + 2 ^ 64 - numberOfPages * 0x1000 + 1) % 2 ^ 64) := by
  obtain ⟨type, starts, eq, le, enough⟩ := usableEnd_eq usable
  have ends := sound.2.2.1
  have lt : min e.last maxAddress + 1 < 2 ^ 64 :=
    Nat.lt_of_le_of_lt (Nat.succ_le_succ (Nat.min_le_left _ _)) sound.2.2.2
  have cases_ := alignEnd_cases granular lt
  rw [← eq] at cases_
  unfold FoundAt
  have some_ : 0 < numberOfPages * 0x1000 := Nat.mul_pos pos (by decide)
  generalize numberOfPages * 0x1000 = bytes at *
  rcases cases_ with ⟨wrapped, low⟩ | ⟨below, aligned⟩
  · have start : (d + 2 ^ 64 - bytes + 1) % 2 ^ 64 = 2 ^ 64 - bytes := by omega
    rw [start]
    refine ⟨?_, .inl ⟨by omega, e, mem, type, by omega, by omega⟩⟩
    rcases granular with rfl | rfl <;> omega
  · have limit := Nat.le_min.mp below
    have start : (d + 2 ^ 64 - bytes + 1) % 2 ^ 64 = d + 1 - bytes := by omega
    rw [start]
    refine ⟨?_, .inr ⟨e, mem, type, by omega, by omega, by omega⟩⟩
    rcases granular with rfl | rfl <;> omega

theorem foundAt_coreFindFreePagesI (sound : ∀ e ∈ xs, e.Sound) (granular : Granular alignment)
    (whole : numberOfPages * 0x1000 % alignment = 0) (fits : numberOfPages * 0x1000 < 2 ^ 64)
    (found : coreFindFreePagesI maxAddress minAddress numberOfPages alignment xs ≠ 0) :
    FoundAt maxAddress numberOfPages alignment xs
      (coreFindFreePagesI maxAddress minAddress numberOfPages alignment xs) := by
  have bytes : bytesOf numberOfPages = numberOfPages * 0x1000 := Nat.mod_eq_of_lt fits
  unfold coreFindFreePagesI at found ⊢
  rw [bytes] at found ⊢
  by_cases none_ : maxAddress < 0xFFF ∨ numberOfPages = 0
  · exact absurd (if_pos none_) found
  · rw [if_neg none_] at found ⊢
    dsimp only at found ⊢
    obtain ⟨enough, pos⟩ := not_or.mp none_
    rcases @mem_foldl_max (xs.filterMap
      (usableEnd (pageEnd maxAddress) minAddress (numberOfPages * 0x1000) alignment)) 0 with zero | mem
    · -- Nothing was found, and the target does not lie on a page boundary.
      rw [zero] at found
      refine absurd (if_pos ?_) found
      omega
    · generalize (xs.filterMap _).foldl max 0 = d at mem found ⊢
      obtain ⟨e, memE, usable⟩ := mem_filterMap.mp mem
      have at_ := foundAt_of_usableEnd (sound e memE) granular whole (Nat.pos_of_ne_zero pos) fits memE usable
      split at found
      · exact absurd rfl found
      next aligned =>
        rw [if_neg aligned]
        obtain ⟨granule, place⟩ := at_
        refine ⟨granule, place.imp_right ?_⟩
        rintro ⟨e, mem, type, le, ge, below⟩
        have := pageEnd_le (Nat.not_lt.mp enough)
        exact ⟨e, mem, type, le, ge, by omega⟩

theorem FoundAt.mono {limit start : Nat} (at_ : FoundAt limit numberOfPages alignment xs start)
    (le : limit ≤ maxAddress) :
    FoundAt maxAddress numberOfPages alignment xs start := by
  obtain ⟨granule, place⟩ := at_
  refine ⟨granule, place.imp_right ?_⟩
  rintro ⟨e, mem, type, below, ge, within⟩
  exact ⟨e, mem, type, below, ge, by omega⟩

structure Sizes (numberOfPages alignment : Nat) : Prop where
  granular : Granular alignment
  whole : numberOfPages * 0x1000 % alignment = 0
  fits : numberOfPages * 0x1000 < 2 ^ 64

theorem wp_searchBins {Q : Nat → World → Prop} {newType : MemoryType} (intact : Intact p w)
    (next : ∀ start w', Tidied p nowhere w w' → (Sizes numberOfPages alignment → start ≠ 0 →
      FoundAt maxAddress numberOfPages alignment w'.memoryMap start) → Q start w') :
    wp (searchBins maxAddress numberOfPages newType alignment) p Q anyStop w := by
  have search : ∀ limit low, limit ≤ maxAddress → Sizes numberOfPages alignment →
      coreFindFreePagesI limit low numberOfPages alignment w.memoryMap ≠ 0 →
      FoundAt maxAddress numberOfPages alignment w.memoryMap
        (coreFindFreePagesI limit low numberOfPages alignment w.memoryMap) :=
    fun limit low le sizes found =>
      (foundAt_coreFindFreePagesI intact.sound sizes.granular sizes.whole sizes.fits found).mono le
  have refl : Tidied p nowhere w w := .refl intact
  rw [searchBins, wp_bind, wp_get, wp_ite]
  split
  next =>
    refine next _ _ refl fun sizes nonzero => ?_
    unfold findInBin at nonzero ⊢
    dsimp only at nonzero ⊢
    split at nonzero
    next test =>
      rw [if_pos test]
      exact search _ _ test.2 sizes nonzero
    next => exact absurd rfl nonzero
  next =>
    rw [wp_ite]
    split
    next =>
      rw [wp_bind, wp_modify]
      refine next _ _ (tidied_of_same intact rfl rfl (.of_eq rfl rfl rfl) rfl fun _ => id)
        fun sizes nonzero => ?_
      unfold findInDefault at nonzero ⊢
      split at nonzero
      next test =>
        rw [if_pos test]
        exact search _ _ test sizes nonzero
      next => exact absurd rfl nonzero
    next => exact next _ _ refl fun sizes nonzero => search _ _ (Nat.le_refl _) sizes nonzero

theorem wp_findFreePages {Q : Nat → World → Prop} {newType : MemoryType} {fuel : Nat} (tidies : Tidies p freeStack)
    (intact : Intact p w) (next : ∀ start w', Tidied p nowhere w w' → (Sizes numberOfPages alignment → start ≠ 0 →
      FoundAt maxAddress numberOfPages alignment w'.memoryMap start) → Q start w') :
    wp (findFreePages freeStack fuel maxAddress numberOfPages newType alignment) p Q anyStop w := by
  induction fuel generalizing w with
  | zero => trivial
  | succ fuel ih =>
    rw [findFreePages, wp_bind]
    refine wp_searchBins intact fun start w₁ tidied₁ found => ?_
    rw [wp_ite]
    split
    next => exact next _ _ tidied₁ found
    next =>
      rw [wp_bind]
      refine wp_promoteMemoryResource tidies tidied₁.intact fun promoted w₂ tidied₂ => ?_
      rw [wp_ite]
      split
      next =>
        exact ih tidied₂.intact fun start w₃ tidied₃ => next start w₃ ((tidied₁.trans tidied₂).trans tidied₃)
      next => exact next _ _ (tidied₁.trans tidied₂) fun _ nonzero => absurd rfl nonzero

end Find

/-! ### The stack of descriptors -/

section Stack

variable {p : Platform} {freeStack : M Unit} {w w' : World}

/-- The pages of a pool: where they were found, and what the conversion has made of them. -/
structure PoolPages (p : Platform) (poolType : MemoryType) (numberOfPages alignment : Nat) (w : World) (start : Nat)
    (w' : World) where
  found : World
  tidied : Tidied p nowhere w found
  none_ : start = 0 → w' = found
  at_ : Sizes numberOfPages alignment → start ≠ 0 →
    FoundAt p.maxAllocAddress numberOfPages alignment found.memoryMap start
  status : EfiStatus
  /-- A range that is refused is handed out as well: the pool ignores the status. -/
  refused : start ≠ 0 → ¬ Asserted numberOfPages start (lastOf start (bytesOf numberOfPages)) → w' = found
  ran : start ≠ 0 → Asserted numberOfPages start (lastOf start (bytesOf numberOfPages)) →
    Ran p poolType start (lastOf start (bytesOf numberOfPages)) found status w'

theorem wp_coreAllocatePoolPages {Q : Nat → World → Prop} {poolType : MemoryType} {numberOfPages alignment : Nat}
    (tidies : Tidies p freeStack) (intact : Intact p w)
    (next : ∀ start w', PoolPages p poolType numberOfPages alignment w start w' → Q start w') :
    wp (coreAllocatePoolPages freeStack poolType numberOfPages alignment) p Q anyStop w := by
  rw [coreAllocatePoolPages, wp_bind, wp_ask, wp_bind]
  refine wp_findFreePages tidies intact fun start w₁ tidied found => ?_
  rw [wp_ite]
  split
  next zero =>
    exact next _ _ ⟨w₁, tidied, fun _ => rfl, fun _ nonzero => absurd rfl nonzero, .success,
      fun nonzero => absurd rfl nonzero, fun nonzero => absurd rfl nonzero⟩
  next nonzero =>
    rw [wp_bind]
    refine wp_coreConvertPages tidies tidied.intact (fun bad => ?_) fun status w₂ asserted runs => ?_
    · exact next _ _ ⟨w₁, tidied, fun zero => absurd zero nonzero, found, .invalidParameter, fun _ _ => rfl,
        fun _ asserted => absurd asserted bad⟩
    · exact next _ _ ⟨w₁, tidied, fun zero => absurd zero nonzero, found, status, fun _ bad => absurd asserted bad,
        fun _ _ => runs.ran⟩

theorem tidies_pure : Tidies p (pure ()) := fun _ intact => Tidied.refl intact

theorem Ran.descriptors {start n : Nat} {status : EfiStatus} (asserted : Asserted 1 start (lastOf start (bytesOf 1)))
    (ran : Ran p bootServicesData start (lastOf start (bytesOf 1)) w status w') :
    Tidied p nowhere w { w' with freeEntries := n, descriptorPages := start :: w'.descriptorPages } := by
  have used : bootServicesData ≠ conventionalMemory := by decide
  by_cases success : status = .success
  · have taken := ran.taken success used
    obtain ⟨intact, ⟨kept, grown, spare, bins, pages, marked⟩, locked⟩ := ran.tidied
    refine ⟨⟨intact.sound, intact.spare, intact.once⟩, ⟨fun a t attributes found => ?_, fun a none_ => ?_, spare,
      ⟨bins.statistics, bins.information, bins.types, bins.initialized⟩, fun a here => mem_cons_of_mem _ (pages a here),
      fun a t attributes found used => ?_⟩, locked⟩
    · obtain ⟨t', found', change⟩ := kept a t attributes found
      refine ⟨t', found', ?_⟩
      rcases change with same | descriptors | inside
      · exact .inl same
      · exact .inr (.inl descriptors)
      · obtain ⟨attributes', before, after⟩ := taken a inside
        rw [before] at found
        rw [after] at found'
        cases found
        cases found'
        exact .inr (.inl ⟨rfl, rfl⟩)
    · refine (grown a none_).imp_right ?_
      rintro ⟨attributes, t', spare, found, change⟩
      refine ⟨attributes, t', spare, found, change.imp_right (Or.imp_right fun inside => ?_)⟩
      obtain ⟨attributes', before, _⟩ := taken a inside
      rw [none_] at before
      cases before
    · refine (marked a t attributes found used).imp_right fun here => .inr ?_
      rcases here with inside | here
      · have page : a / 0x1000 * 0x1000 = start := by
          simp only [Asserted, between, lastOf, bytesOf] at asserted inside
          omega
        rw [DescriptorPage, page]
        exact mem_cons_self
      · exact mem_cons_of_mem _ here
  · rw [ran.failed success used]
    have intact := ran.tidied.intact
    rw [ran.failed success used] at intact
    exact tidied_of_same intact rfl rfl (.of_eq rfl rfl rfl) rfl fun _ => mem_cons_of_mem _

theorem wp_allocateMemoryMapEntry {Q : Bool → World → Prop} (intact : Intact p w)
    (next : ∀ r w', Tidied p nowhere w w' → Q r w') : wp allocateMemoryMapEntry p Q anyStop w := by
  rw [allocateMemoryMapEntry, wp_bind, wp_get, wp_ite]
  split
  next =>
    rw [wp_bind]
    refine wp_coreAllocatePoolPages tidies_pure intact fun start w₁ pages => ?_
    rw [wp_ite]
    split
    next zero =>
      rw [pages.none_ zero]
      exact next _ _ pages.tidied
    next nonzero =>
      by_cases asserted : Asserted 1 start (lastOf start (bytesOf 1))
      · exact next _ _ (pages.tidied.trans ((pages.ran nonzero asserted).descriptors asserted))
      · rw [pages.refused nonzero asserted]
        refine next _ _ (pages.tidied.trans ?_)
        exact tidied_of_same pages.tidied.intact rfl rfl (.of_eq rfl rfl rfl) rfl fun _ => mem_cons_of_mem _
  next => exact next _ _ (tidied_of_same intact rfl rfl (.of_eq rfl rfl rfl) rfl fun _ => id)

theorem Moved.tidied (intact : Intact p w) (moved : Moved w w') : Tidied p nowhere w w' :=
  tidied_of_at intact moved.only.gcdMap moved.only.bins moved.only.gcdLocked moved.only.pages (moved.sound intact.sound)
    (fun a => moved.hits _ a) fun a => .inl (valueAt_congr (intact.onceMap a) fun q => moved.hits q a)

theorem tidies_freeStackLoop (fuel : Nat) : Tidies p (freeStackLoop fuel) := by
  induction fuel with
  | zero => exact fun _ _ => trivial
  | succ fuel ih =>
    intro w intact
    rw [freeStackLoop, wp_bind, wp_get, wp_ite]
    split
    next => exact Tidied.refl intact
    next =>
      rw [wp_bind]
      refine wp_allocateMemoryMapEntry intact fun r w₁ tidied₁ => ?_
      rw [wp_bind, wp_assertThat]
      intro _
      rw [wp_bind, wp_modify]
      have popped : Tidied p nowhere w₁ { w₁ with mapDepth := w₁.mapDepth - 1 } :=
        tidied_of_same tidied₁.intact rfl rfl (.of_eq rfl rfl rfl) rfl fun _ => id
      have moved := (moved_unstack (w := { w₁ with mapDepth := w₁.mapDepth - 1 }) (w₁.mapDepth - 1)).tidied
        popped.intact
      have before := (tidied₁.trans popped).trans moved
      exact wp_mono (fun _ _ tidied => before.trans tidied) (fun _ _ _ => trivial) (ih _ before.intact)

theorem tidies_coreFreeMemoryMapStack : Tidies p coreFreeMemoryMapStack := tidies_freeStackLoop _

end Stack

end LeoEdk.Memory
