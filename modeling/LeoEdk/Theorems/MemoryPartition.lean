import LeoEdk.Theorems.PageAllocation

/-! The memory map stays a partition under every sequence of calls that add memory, allocate pages and free them.
    Addresses that a call does not name change in the `Background` only; while bins are set up, `Borrowed` accounts
    for each that is allocated and not given back. -/

namespace LeoEdk.Memory

open Layout Prog List

/-- What may happen to an address that a call does not name: it keeps its attributes, and it keeps its type unless free
    memory has come to hold descriptors; memory that enters the map was waiting to be promoted. -/
structure Background (p : Platform) (w w' : World) (a : Nat) : Prop where
  kept : ∀ t attributes, w.at a = some (t, attributes) → ∃ t', w'.at a = some (t', attributes) ∧
    (t' = t ∨ t = conventionalMemory ∧ t' = bootServicesData ∧ DescriptorPage w' a)
  grown : w.at a = none → w'.at a = none ∨ ∃ attributes t', Spare p w a attributes ∧
    w'.at a = some (t', attributes) ∧ (t' = conventionalMemory ∨ t' = bootServicesData ∧ DescriptorPage w' a)
  pages : DescriptorPage w a → DescriptorPage w' a

section Background

variable {p : Platform} {R : Nat → Prop} {w w' w'' : World} {a : Nat}

theorem Background.refl (w : World) (a : Nat) : Background p w w a :=
  ⟨fun t _ found => ⟨t, found, .inl rfl⟩, .inl, id⟩

theorem Evolves.background (evolves : Evolves p R w w') (out : ¬ R a) : Background p w w' a where
  kept _ _ found := evolves.change out found
  grown none_ := by
    refine (evolves.grown a none_).imp_right ?_
    rintro ⟨attributes, t', spare, found, change⟩
    refine ⟨attributes, t', spare, found, change.imp_right fun change => ?_⟩
    have descriptors := change.resolve_right out
    subst descriptors
    refine ⟨rfl, ?_⟩
    rcases evolves.marked a _ _ found (by decide) with same | inside | here
    · cases none_.symm.trans same
    · exact absurd inside out
    · exact here
  pages := evolves.pages a

theorem Background.trans (first : Background p w w' a) (next : Background p w' w'' a)
    (spare : ∀ attributes, Spare p w' a attributes → Spare p w a attributes) : Background p w w'' a where
  kept t attributes found := by
    obtain ⟨t', found', change⟩ := first.kept t attributes found
    obtain ⟨t'', found'', change'⟩ := next.kept t' attributes found'
    refine ⟨t'', found'', ?_⟩
    rcases change' with rfl | ⟨free, descriptors⟩
    · exact change.imp_right (And.imp_right (And.imp_right next.pages))
    · rcases change with rfl | ⟨_, descriptors', _⟩
      · exact .inr ⟨free, descriptors⟩
      · rw [descriptors'] at free
        exact absurd free (by decide)
  grown none_ := by
    rcases first.grown none_ with none' | ⟨attributes, t', spare', found', change⟩
    · rcases next.grown none' with none'' | ⟨attributes, t', spare', found, change⟩
      · exact .inl none''
      · exact .inr ⟨attributes, t', spare attributes spare', found, change⟩
    · obtain ⟨t'', found'', change'⟩ := next.kept t' attributes found'
      refine .inr ⟨attributes, t'', spare', found'', ?_⟩
      rcases change' with rfl | ⟨_, descriptors⟩
      · exact change.imp_right (And.imp_right next.pages)
      · exact .inr descriptors
  pages := next.pages ∘ first.pages

theorem background_of_free {t : MemoryType} {attributes : UInt64}
    (before : w.at a = some (conventionalMemory, attributes) ∨ (w.at a = none ∧ Spare p w a attributes))
    (after : w'.at a = some (t, attributes)) (type : t = conventionalMemory ∨ t = bootServicesData ∧
      DescriptorPage w' a)
    (pages : DescriptorPage w a → DescriptorPage w' a) : Background p w w' a where
  kept t' attributes' found := by
    rcases before with before | ⟨none_, _⟩
    · rw [before] at found
      cases found
      exact ⟨t, after, type.imp_right fun descriptors => ⟨rfl, descriptors⟩⟩
    · rw [none_] at found
      cases found
  grown none_ := by
    rcases before with before | ⟨_, spare⟩
    · rw [before] at none_
      cases none_
    · exact .inr ⟨attributes, t, spare, after, type⟩
  pages := pages

end Background

section Free

variable {p : Platform} {w : World} {memory numberOfPages : UInt64}

/-- The last address of the range that is freed, with the type that decides the rounding. -/
def freedLast (p : Platform) (type : MemoryType) (memory numberOfPages : Nat) : Nat :=
  lastOf memory (bytesOf (roundPages (granularityOf p type) numberOfPages))

theorem aligned_of_granular {alignment : Nat} (granular : Granular alignment) {n : Nat} (aligned : n % alignment = 0) :
    n % 0x1000 = 0 := by
  rcases granular with rfl | rfl <;> omega

theorem wp_coreInternalFreePages {Q : EfiStatus × Option MemoryType → World → Prop} (intact : Intact p w)
    (refused : ∀ status, status ≠ .success → (∀ t attributes, w.at memory.toNat = some (t, attributes) →
      memory.toNat % granularityOf p t ≠ 0) → Q (status, none) w)
    (unasserted : ∀ t attributes, w.at memory.toNat = some (t, attributes) → memory.toNat % granularityOf p t = 0 →
      ¬ Asserted (roundPages (granularityOf p t) numberOfPages.toNat) memory.toNat
        (freedLast p t memory.toNat numberOfPages.toNat) → Q (.invalidParameter, some t) w)
    (ran : ∀ t attributes status w', w.at memory.toNat = some (t, attributes) →
      memory.toNat % granularityOf p t = 0 → memory.toNat < freedLast p t memory.toNat numberOfPages.toNat →
      Runs p conventionalMemory (freedLast p t memory.toNat numberOfPages.toNat) memory.toNat w status w' →
      Q (status, some t) w') :
    wp (coreInternalFreePages memory numberOfPages) p Q anyStop w := by
  rw [coreInternalFreePages, wp_bind, wp_ask, wp_bind, wp_get]
  cases found : locate (·.contains memory.toNat) w.memoryMap with
  | none =>
    refine refused _ (by simp) fun t attributes found' aligned => ?_
    obtain ⟨e, mem, covers, _⟩ := exists_of_valueAt found'
    have contains := (contains_iff_covers (intact.sound e mem) (aligned_of_granular granular_granularityOf aligned)).mpr
      covers
    rw [locate_eq_none found e mem] at contains
    cases contains
  | some parts =>
    obtain ⟨before, e, after⟩ := parts
    obtain ⟨map, contains⟩ := locate_eq found
    have mem : e ∈ w.memoryMap := by simp [map]
    have covers : mapLayout.Covers e memory.toNat := by
      simp only [Entry.contains, Bool.decide_and, Bool.and_eq_true, decide_eq_true_eq] at contains
      exact ⟨contains.1, Nat.lt_succ_of_lt contains.2⟩
    have here : w.at memory.toNat = some (e.type, e.attributes) := valueAt_eq_of_mem (intact.onceMap _) mem covers
    dsimp only [id]
    rw [wp_ite]
    split
    next unaligned =>
      refine refused _ (by simp) fun t attributes found' => ?_
      rw [here] at found'
      cases found'
      exact unaligned
    next aligned =>
      rw [wp_bind]
      refine wp_coreConvertPages tidies_coreFreeMemoryMapStack intact (fun bad => ?_) fun status w' asserted runs => ?_
      · exact unasserted _ _ here (not_not.mp aligned) bad
      · exact ran _ _ _ _ here (not_not.mp aligned) asserted.2.2 runs

end Free

structure TableReady (n : Nat) (w : World) : Prop where
  index : ∀ i < n, ∀ t, (w.statistics t).informationIndex ≠ i
  distinct : ∀ i j, i < n → j < n → i ≠ j → (informationAt w i).asks = true → (informationAt w j).asks = true →
    (informationAt w i).type ≠ (informationAt w j).type
  small : ∀ i < n, (informationAt w i).numberOfPages < 2 ^ 32

def binBase (w : World) (i : Nat) : Nat := (w.statistics (informationAt w i).type).baseAddress

def binPages (p : Platform) (w : World) (i : Nat) : Nat :=
  roundPages (granularityOf p (informationAt w i).type) (informationAt w i).numberOfPages

def InBin (p : Platform) (w : World) (i a : Nat) : Prop :=
  (informationAt w i).asks = true ∧ binBase w i ≤ a ∧ a < binBase w i + binPages p w i * 0x1000

/-- A bin that has been allocated since `w₀`, from memory that was free or has been promoted. -/
structure Bin (p : Platform) (w₀ w : World) (i : Nat) : Prop where
  used : (informationAt w i).type ≠ conventionalMemory
  aligned : binBase w i % granularityOf p (informationAt w i).type = 0
  pos : binPages p w i ≠ 0
  within : binBase w i + binPages p w i * 0x1000 < 2 ^ 64
  pages : ∀ a, binBase w i ≤ a → a < binBase w i + binPages p w i * 0x1000 →
    ∃ attributes, w.at a = some ((informationAt w i).type, attributes) ∧
      (w₀.at a = some (conventionalMemory, attributes) ∨ (w₀.at a = none ∧ Spare p w₀ a attributes))

structure Holding (p : Platform) (n : Nat) (w₀ w : World) (held : List Nat) : Prop where
  intact : Intact p w
  spare : ∀ a attributes, Spare p w a attributes → Spare p w₀ a attributes
  pages : ∀ a, DescriptorPage w₀ a → DescriptorPage w a
  ready : TableReady n w
  types : w.information.map TypeInformation.type = w₀.information.map TypeInformation.type
  initialized : w.initialized = w₀.initialized
  listed : ∀ i ∈ held, i < n
  bins : ∀ i ∈ held, (informationAt w i).asks = true → Bin p w₀ w i

structure Borrowed (p : Platform) (n : Nat) (w₀ w : World) (held : List Nat) : Prop extends Holding p n w₀ w held where
  outside : ∀ a, (∀ i ∈ held, ¬ InBin p w i a) → Background p w₀ w a

section Bins

variable {p : Platform} {n i : Nat} {w₀ w w' : World} {held rest : List Nat}

theorem TableReady.toNat_pages (ready : TableReady n w) (lt : i < n) :
    (UInt64.ofNat (informationAt w i).numberOfPages).toNat = (informationAt w i).numberOfPages :=
  UInt64.toNat_ofNat_of_lt' (Nat.lt_trans (ready.small i lt) (by decide))

theorem Borrowed.start (intact : Intact p w) (ready : TableReady n w) : Borrowed p n w w [] where
  intact := intact
  spare _ _ spare := spare
  pages _ := id
  ready := ready
  types := rfl
  initialized := rfl
  listed := nofun
  bins := nofun
  outside a _ := .refl w a

theorem SameBins.baseAddress (bins : SameBins w w') (t : MemoryType) :
    (w'.statistics t).baseAddress = (w.statistics t).baseAddress := by
  obtain ⟨_, same⟩ := bins.statistics t
  rw [same]

section Same

variable (bins : SameBins w w') (ready : TableReady n w) (lt : i < n)
include bins ready lt

theorem SameBins.informationAt : informationAt w' i = informationAt w i := by
  rw [Memory.informationAt, Memory.informationAt, getD_eq_getElem?_getD, getD_eq_getElem?_getD,
    bins.information i (ready.index i lt)]

theorem SameBins.binBase : binBase w' i = binBase w i := by
  rw [Memory.binBase, Memory.binBase, bins.informationAt ready lt, bins.baseAddress]

theorem SameBins.binPages : binPages p w' i = binPages p w i := by
  rw [Memory.binPages, Memory.binPages, bins.informationAt ready lt]

theorem SameBins.inBin {a : Nat} : InBin p w' i a ↔ InBin p w i a := by
  rw [InBin, InBin, bins.binBase ready lt, bins.binPages ready lt, bins.informationAt ready lt]

end Same

theorem SameBins.ready (bins : SameBins w w') (ready : TableReady n w) : TableReady n w' where
  index i lt t := by
    rw [bins.informationIndex]
    exact ready.index i lt t
  distinct i j lt lt' ne := by
    rw [bins.informationAt ready lt, bins.informationAt ready lt']
    exact ready.distinct i j lt lt' ne
  small i lt := by
    rw [bins.informationAt ready lt]
    exact ready.small i lt

theorem Bin.carried (bin : Bin p w₀ w i) (same : informationAt w' i = informationAt w i)
    (base : binBase w' i = binBase w i)
    (kept : ∀ a attributes, InBin p w i a → w.at a = some ((informationAt w i).type, attributes) →
      w'.at a = some ((informationAt w i).type, attributes)) (asks : (informationAt w i).asks = true) :
    Bin p w₀ w' i := by
  have size : binPages p w' i = binPages p w i := by rw [binPages, same, binPages]
  obtain ⟨used, aligned, pos, within, pages⟩ := bin
  constructor
  all_goals simp only [same, base, size]
  · exact used
  · exact aligned
  · exact pos
  · exact within
  · intro a le lt
    obtain ⟨attributes, now, before⟩ := pages a le lt
    exact ⟨attributes, kept a attributes ⟨asks, le, lt⟩ now, before⟩

theorem Holding.evolves {R : Nat → Prop} (holding : Holding p n w₀ w held) (intact : Intact p w')
    (evolves : Evolves p R w w') (clear : ∀ j ∈ held, ∀ a, InBin p w j a → ¬ R a) : Holding p n w₀ w' held where
  intact := intact
  spare a attributes spare := holding.spare a attributes (evolves.spare a attributes spare)
  pages a here := evolves.pages a (holding.pages a here)
  ready := evolves.bins.ready holding.ready
  types := evolves.bins.types.trans holding.types
  initialized := evolves.bins.initialized.trans holding.initialized
  listed := holding.listed
  bins i mem asks := by
    have lt := holding.listed i mem
    have same := evolves.bins.informationAt holding.ready lt
    rw [same] at asks
    have bin := holding.bins i mem asks
    exact bin.carried same (evolves.bins.binBase holding.ready lt)
      (fun a _ inside now => evolves.stays (clear i mem a inside) now bin.used) asks

theorem Borrowed.evolves {R : Nat → Prop} (borrowed : Borrowed p n w₀ w held) (intact : Intact p w')
    (evolves : Evolves p R w w') (clear : ∀ j ∈ held, ∀ a, InBin p w j a → ¬ R a)
    (background : ∀ a, (∀ j ∈ held, ¬ InBin p w j a) → R a → Background p w₀ w' a) :
    Borrowed p n w₀ w' held where
  toHolding := borrowed.toHolding.evolves intact evolves clear
  outside a free := by
    have free' : ∀ j ∈ held, ¬ InBin p w j a :=
      fun j mem inside => free j mem ((evolves.bins.inBin borrowed.ready (borrowed.listed j mem)).mpr inside)
    by_cases inside : R a
    · exact background a free' inside
    · exact (borrowed.outside a free').trans (evolves.background inside) (borrowed.spare a)

theorem Borrowed.tidied (borrowed : Borrowed p n w₀ w held) (tidied : Tidied p nowhere w w') :
    Borrowed p n w₀ w' held :=
  borrowed.evolves tidied.intact tidied.evolves (fun _ _ _ _ inside => inside) fun _ _ inside => inside.elim

structure Settled (i : Nat) (w w' : World) : Prop where
  map : w'.memoryMap = w.memoryMap
  gcd : w'.gcdMap = w.gcdMap
  pages : w'.descriptorPages = w.descriptorPages
  statistics : ∀ t, t ≠ (informationAt w i).type → w'.statistics t = w.statistics t
  index : ∀ t, (w'.statistics t).informationIndex = (w.statistics t).informationIndex
  others : ∀ j, j ≠ i → informationAt w' j = informationAt w j
  type : (informationAt w' i).type = (informationAt w i).type
  fewer : (informationAt w' i).numberOfPages ≤ (informationAt w i).numberOfPages
  types : w'.information.map TypeInformation.type = w.information.map TypeInformation.type
  initialized : w'.initialized = w.initialized

namespace Settled

variable (settled : Settled i w w')
include settled

theorem asks {j : Nat} (asks : (informationAt w' j).asks = true) : (informationAt w j).asks = true := by
  by_cases this : j = i
  · subst this
    have := settled.fewer
    simp only [TypeInformation.asks, Bool.decide_and, Bool.and_eq_true, decide_eq_true_eq, settled.type] at asks ⊢
    exact ⟨asks.1, by omega⟩
  · rw [← settled.others j this]
    exact asks

theorem typeOf (j : Nat) : (informationAt w' j).type = (informationAt w j).type := by
  by_cases this : j = i
  · rw [this]
    exact settled.type
  · rw [settled.others j this]

theorem ready (ready : TableReady n w) : TableReady n w' where
  index j lt t := by
    rw [settled.index]
    exact ready.index j lt t
  distinct j k lt lt' ne asks asks' := by
    rw [settled.typeOf, settled.typeOf]
    exact ready.distinct j k lt lt' ne (settled.asks asks) (settled.asks asks')
  small j lt := by
    by_cases this : j = i
    · subst this
      exact Nat.lt_of_le_of_lt settled.fewer (ready.small j lt)
    · rw [settled.others j this]
      exact ready.small j lt

theorem at_eq (a : Nat) : w'.at a = w.at a := by
  rw [World.at, settled.map, World.at]

theorem intact (intact : Intact p w) : Intact p w' where
  sound := by
    rw [settled.map]
    exact intact.sound
  spare := by
    rw [settled.gcd]
    exact intact.spare
  once a := by
    rw [settled.map, settled.gcd]
    exact intact.once a

theorem spare {a : Nat} {attributes : UInt64} (spare : Spare p w' a attributes) : Spare p w a attributes := by
  rw [Spare, settled.gcd] at spare
  exact spare

theorem descriptorPage {a : Nat} (here : DescriptorPage w a) : DescriptorPage w' a := by
  rw [DescriptorPage, settled.pages]
  exact here

theorem background {a : Nat} (background : Background p w₀ w a) : Background p w₀ w' a where
  kept t attributes found := by
    obtain ⟨t', found', change⟩ := background.kept t attributes found
    refine ⟨t', (settled.at_eq a).trans found', change.imp_right (And.imp_right (And.imp_right settled.descriptorPage))⟩
  grown none_ := by
    rw [settled.at_eq]
    refine (background.grown none_).imp_right ?_
    rintro ⟨attributes, t', spare, found, change⟩
    exact ⟨attributes, t', spare, found, change.imp_right (And.imp_right settled.descriptorPage)⟩
  pages here := settled.descriptorPage (background.pages here)

theorem bin (ready : TableReady n w) (lt : i < n) (asks : (informationAt w i).asks = true)
    {j : Nat} (lt' : j < n) (ne : j ≠ i) (asks' : (informationAt w j).asks = true) :
    binBase w' j = binBase w j ∧ binPages p w' j = binPages p w j := by
  have other := ready.distinct j i lt' lt ne asks' asks
  rw [binBase, binPages, settled.others j ne, settled.statistics _ other]
  exact ⟨rfl, rfl⟩

theorem inBin (ready : TableReady n w) (lt : i < n)
    (asks : (informationAt w i).asks = true) {j a : Nat} (lt' : j < n) (ne : j ≠ i) :
    InBin p w' j a ↔ InBin p w j a := by
  rw [InBin, InBin, settled.others j ne]
  refine and_congr_right fun asks' => ?_
  obtain ⟨base, size⟩ := settled.bin (p := p) ready lt asks lt' ne asks'
  rw [base, size]

end Settled

theorem Holding.settled (holding : Holding p n w₀ w held) (settled : Settled i w w') (lt : i < n)
    (asks : (informationAt w i).asks = true) (fresh : i ∉ held) : Holding p n w₀ w' held where
  intact := settled.intact holding.intact
  spare a attributes spare := holding.spare a attributes (settled.spare spare)
  pages a here := settled.descriptorPage (holding.pages a here)
  ready := settled.ready holding.ready
  types := settled.types.trans holding.types
  initialized := settled.initialized.trans holding.initialized
  listed := holding.listed
  bins j mem asks' := by
    have ne : j ≠ i := fun same => fresh (same ▸ mem)
    obtain ⟨base, _⟩ := settled.bin (p := p) holding.ready lt asks (holding.listed j mem) ne (settled.asks asks')
    have same := settled.others j ne
    rw [same] at asks'
    exact (holding.bins j mem asks').carried same base (fun a _ _ now => (settled.at_eq a).trans now) asks'

theorem Borrowed.settled (borrowed : Borrowed p n w₀ w held) (settled : Settled i w w') (lt : i < n)
    (asks : (informationAt w i).asks = true) (fresh : i ∉ held) : Borrowed p n w₀ w' held where
  toHolding := borrowed.toHolding.settled settled lt asks fresh
  outside a free := by
    refine settled.background (borrowed.outside a fun j mem inside => free j mem ?_)
    exact (settled.inBin borrowed.ready lt asks (borrowed.listed j mem) fun same => fresh (same ▸ mem)).mpr inside

theorem informationIndex_setStatistics {type : MemoryType} {s : Statistics}
    (index : s.informationIndex = (w.statistics type).informationIndex) (t : MemoryType) :
    ((w.setStatistics type s).statistics t).informationIndex = (w.statistics t).informationIndex := by
  rw [World.setStatistics]
  dsimp only
  split
  next same => rw [index, same]
  next => rfl

theorem settled_setStatistics {s : Statistics}
    (index : s.informationIndex = (w.statistics (informationAt w i).type).informationIndex) :
    Settled i w (w.setStatistics (informationAt w i).type s) where
  map := rfl
  gcd := rfl
  pages := rfl
  statistics _ ne := if_neg ne
  index := informationIndex_setStatistics index
  others _ _ := rfl
  type := rfl
  fewer := Nat.le_refl _
  types := rfl
  initialized := rfl

theorem setBin_eq (base : Nat) : ∃ limit, setBin i base w = { w.setStatistics (informationAt w i).type
        { w.statistics (informationAt w i).type with
          baseAddress := base
          maximumAddress := lastOf base (bytesOf (informationAt w i).numberOfPages) } with
      defaultMaximumAddress := limit } := by
  simp only [setBin]
  split
  · exact ⟨_, rfl⟩
  · exact ⟨w.defaultMaximumAddress, rfl⟩

theorem settled_setBin (base : Nat) : Settled i w (setBin i base w) := by
  obtain ⟨limit, same⟩ := setBin_eq (i := i) (w := w) base
  rw [same]
  exact ⟨rfl, rfl, rfl, fun _ ne => if_neg ne, informationIndex_setStatistics rfl, fun _ _ => rfl, rfl,
    Nat.le_refl _, rfl, rfl⟩

theorem settled_forgetBin : Settled i w (forgetBin p i w) := settled_setStatistics rfl

theorem settled_commitBin : Settled i w (commitBin i w) where
  map := rfl
  gcd := rfl
  pages := rfl
  statistics _ ne := if_neg ne
  index := informationIndex_setStatistics rfl
  others j ne := by
    change (w.information.modify i _).getD j _ = w.information.getD j _
    rw [getD_eq_getElem?_getD, List.getElem?_modify_ne _ _ ne.symm, getD_eq_getElem?_getD]
  type := by
    change ((w.information.modify i _).getD i _).type = (w.information.getD i _).type
    rw [getD_eq_getElem?_getD, List.getElem?_modify_eq, getD_eq_getElem?_getD]
    cases w.information[i]? <;> rfl
  fewer := by
    change ((w.information.modify i _).getD i _).numberOfPages ≤ _
    rw [getD_eq_getElem?_getD, List.getElem?_modify_eq]
    cases w.information[i]? <;> exact Nat.zero_le _
  types := map_type_modify fun _ => rfl
  initialized := rfl

/-! ### Reserving and releasing a bin -/

theorem Borrowed.free (borrowed : Borrowed p n w₀ w held) {a : Nat} {attributes : UInt64}
    (free : w.at a = some (conventionalMemory, attributes)) :
    w₀.at a = some (conventionalMemory, attributes) ∨ (w₀.at a = none ∧ Spare p w₀ a attributes) := by
  have background : Background p w₀ w a := by
    refine borrowed.outside a fun j mem inside => ?_
    obtain ⟨asks, le, lt⟩ := inside
    have bin := borrowed.bins j mem asks
    obtain ⟨_, now, _⟩ := bin.pages a le lt
    rw [now] at free
    exact bin.used (congrArg Prod.fst (Option.some.inj free))
  cases was : w₀.at a with
  | none =>
    rcases background.grown was with none_ | ⟨attributes', t, spare, now, _⟩
    · rw [none_] at free
      cases free
    · rw [now] at free
      cases free
      exact .inr ⟨rfl, spare⟩
  | some v =>
    obtain ⟨t, now, change⟩ := background.kept v.1 v.2 was
    rw [now] at free
    cases free
    rcases change with same | ⟨_, descriptors, _⟩
    · exact .inl (congrArg some (Prod.ext same.symm rfl))
    · exact absurd descriptors (by decide)

theorem setBin_baseAddress (base : Nat) :
    ((setBin i base w).statistics (informationAt w i).type).baseAddress = base := by
  obtain ⟨limit, same⟩ := setBin_eq (i := i) (w := w) base
  rw [same]
  exact congrArg Statistics.baseAddress (if_pos rfl)

theorem setBin_informationAt (base j : Nat) : informationAt (setBin i base w) j = informationAt w j := by
  obtain ⟨limit, same⟩ := setBin_eq (i := i) (w := w) base
  rw [same]
  rfl

theorem between_pages {start pages a : Nat} (pos : pages ≠ 0) :
    between start (start + pages * 0x1000 - 1) a ↔ start ≤ a ∧ a < start + pages * 0x1000 := by
  have := Nat.pos_of_ne_zero pos
  exact and_congr_right fun le => by omega

theorem Holding.tail (holding : Holding p n w₀ w (i :: rest)) : Holding p n w₀ w rest := { holding with
  listed := fun j mem => holding.listed j (mem_cons_of_mem i mem)
  bins := fun j mem => holding.bins j (mem_cons_of_mem i mem) }

theorem Holding.snoc (holding : Holding p n w₀ w held) (lt : i < n)
    (bin : (informationAt w i).asks = true → Bin p w₀ w i) : Holding p n w₀ w (held ++ [i]) := { holding with
  listed := forall_mem_append.mpr ⟨holding.listed, forall_mem_singleton.mpr lt⟩
  bins := forall_mem_append.mpr ⟨holding.bins, forall_mem_singleton.mpr bin⟩ }

theorem Borrowed.handed {memory start : Nat} (borrowed : Borrowed p n w₀ w held) (lt : i < n)
    (asks : (informationAt w i).asks = true) (fresh : i ∉ held) (used : (informationAt w i).type ≠ conventionalMemory)
    (handed : Handed p .anyPages (informationAt w i).type (binPages p w i) memory w start w') :
    Borrowed p n w₀ (setBin i start w') (held ++ [i]) := by
  obtain ⟨found, tidied, ran⟩ := handed.allocated
  have free := borrowed.tidied tidied
  have taken := ran.taken rfl used
  have within := handed.within
  -- The entry reads the same all along.
  have bins := tidied.evolves.bins.trans ran.tidied.evolves.bins
  have same : informationAt w' i = informationAt w i := bins.informationAt borrowed.ready lt
  have same' : informationAt (setBin i start w') i = informationAt w i := by rw [setBin_informationAt, same]
  have asks' : (informationAt w' i).asks = true := by rw [same, asks]
  have settled : Settled i w' (setBin i start w') := settled_setBin start
  have base : binBase (setBin i start w') i = start := by
    rw [binBase, setBin_informationAt, setBin_baseAddress]
  have size : binPages p (setBin i start w') i = binPages p w i := by rw [binPages, same', binPages]
  -- The new bin was free, so it lies in no other bin.
  have clear : ∀ j ∈ held, ∀ a, InBin p found j a → ¬ between start (start + binPages p w i * 0x1000 - 1) a := by
    rintro j mem a ⟨asks, le, lt⟩ inside
    have bin := free.bins j mem asks
    obtain ⟨_, now, _⟩ := bin.pages a le lt
    obtain ⟨_, before, _⟩ := taken a inside
    rw [now] at before
    exact bin.used (congrArg Prod.fst (Option.some.inj before))
  have holding := (free.toHolding.evolves ran.tidied.intact ran.tidied.evolves clear).settled settled lt asks' fresh
  refine ⟨holding.snoc lt fun _ => ?_, fun a out => ?_⟩
  · refine ⟨by rw [same']; exact used, by rw [same', base]; exact handed.aligned, by rw [size]; exact handed.pos,
      by rw [base, size]; exact within, fun a le lt => ?_⟩
    rw [base] at le lt
    rw [size] at lt
    obtain ⟨attributes, before, after⟩ := taken a ((between_pages handed.pos).mpr ⟨le, lt⟩)
    exact ⟨attributes, by rw [settled.at_eq, same']; exact after, free.free before⟩
  · have outside : ¬ between start (start + binPages p w i * 0x1000 - 1) a := by
      intro inside
      refine out i (mem_append_right _ mem_cons_self) ⟨by rw [same', asks], ?_⟩
      rw [base, size]
      exact (between_pages handed.pos).mp inside
    refine settled.background ((free.outside a fun j mem inside => ?_).trans (ran.tidied.evolves.background outside)
      (free.spare a))
    have lt' := free.listed j mem
    refine out j (mem_append_left _ mem) ?_
    rw [settled.inBin (ran.tidied.evolves.bins.ready free.ready) lt asks' lt' fun same => fresh (same ▸ mem),
      ran.tidied.evolves.bins.inBin free.ready lt']
    exact inside

theorem Borrowed.idle (borrowed : Borrowed p n w₀ w held) (lt : i < n) (idle : ¬ (informationAt w i).asks = true) :
    Borrowed p n w₀ w (held ++ [i]) where
  toHolding := borrowed.toHolding.snoc lt fun asks => absurd asks idle
  outside a out := borrowed.outside a fun j mem => out j (mem_append_left _ mem)

theorem wp_reserveBin {Q : Bool → World → Prop} (borrowed : Borrowed p n w₀ w held) (lt : i < n) (fresh : i ∉ held)
    (reserved : ∀ w', Borrowed p n w₀ w' (held ++ [i]) → Q true w') (failed : ∀ w', Borrowed p n w₀ w' held →
      Q false w') :
    wp (reserveBin i) p Q anyStop w := by
  rw [reserveBin, wp_bind, wp_get, wp_ite]
  split
  next asks =>
    have small := borrowed.ready.small i lt
    have count := borrowed.ready.toNat_pages lt
    rw [wp_bind]
    refine wp_coreInternalAllocatePages borrowed.intact ?_ (fun r w' bad tidied => ?_) ?_
    · rw [count, roundPages]
      rcases @granular_granularityOf p (informationAt w i).type with granular | granular
      all_goals rw [granular]; omega
    · dsimp only
      rw [wp_ite, if_neg bad]
      exact failed _ (borrowed.tidied tidied)
    · intro type m start w' _ kind used handed
      cases kind
      rw [count] at handed
      dsimp only
      rw [wp_ite, if_pos rfl, wp_bind, wp_modify]
      exact reserved _ (borrowed.handed lt asks fresh used handed)
  next idle => exact reserved _ (borrowed.idle lt idle)

theorem Borrowed.released {status : EfiStatus} (borrowed : Borrowed p n w₀ w (i :: rest)) (fresh : i ∉ rest)
    (asks : (informationAt w i).asks = true)
    (runs : Runs p conventionalMemory (binBase w i + binPages p w i * 0x1000 - 1) (binBase w i) w status w') :
    Borrowed p n w₀ w' rest := by
  have lt := borrowed.listed i mem_cons_self
  have bin := borrowed.bins i mem_cons_self asks
  have pos := Nat.pos_of_ne_zero bin.pos
  obtain ⟨stop, start, _, tidied, all, _, success, failed⟩ := runs.frees (by omega)
  have whole : stop = binBase w i + binPages p w i * 0x1000 := by
    have good : status = .success := by
      by_contra bad
      obtain ⟨lt, free⟩ := failed bad
      obtain ⟨attributes, now, _⟩ := bin.pages stop start (by omega)
      exact free ⟨_, attributes, now, bin.used⟩
    have := success good
    omega
  subst whole
  -- The other bins have other types.
  have clear : ∀ j ∈ rest, ∀ a, InBin p w j a → ¬ (binBase w i ≤ a ∧ a < binBase w i + binPages p w i * 0x1000) := by
    rintro j mem a ⟨asks', le, lt'⟩ ⟨ge, lt''⟩
    have mem' := mem_cons_of_mem i mem
    obtain ⟨_, now, _⟩ := (borrowed.bins j mem' asks').pages a le lt'
    obtain ⟨_, here, _⟩ := bin.pages a ge lt''
    rw [now] at here
    exact borrowed.ready.distinct j i (borrowed.listed j mem') lt (fun same => fresh (same ▸ mem)) asks' asks
      (congrArg Prod.fst (Option.some.inj here))
  refine ⟨borrowed.toHolding.tail.evolves tidied.intact tidied.evolves clear, fun a out => ?_⟩
  by_cases inside : binBase w i ≤ a ∧ a < binBase w i + binPages p w i * 0x1000
  · obtain ⟨attributes, now, before⟩ := bin.pages a inside.1 inside.2
    obtain ⟨t, attributes', freed, type⟩ := (all a inside.1 inside.2).2.2 a ⟨Nat.le_refl _, Nat.le_refl _⟩
    obtain ⟨t', kept, _⟩ := tidied.evolves.kept a _ _ now
    rw [freed] at kept
    cases kept
    exact background_of_free before freed type fun here => tidied.evolves.pages a (borrowed.pages a here)
  · refine (borrowed.outside a fun j mem inBin => ?_).trans (tidied.evolves.background inside) (borrowed.spare a)
    rcases mem_cons.mp mem with rfl | mem'
    · exact inside inBin.2
    · exact out j mem' ((tidied.evolves.bins.inBin borrowed.ready (borrowed.listed j mem)).mpr inBin)

theorem wp_releaseBin {Q : Unit → World → Prop} {after : Nat → World → World} (settled : ∀ w, Settled i w (after i w))
    (borrowed : Borrowed p n w₀ w (i :: rest)) (fresh : i ∉ rest) (next : ∀ w', Borrowed p n w₀ w' rest → Q () w') :
    wp (releaseBin after i) p Q anyStop w := by
  have lt := borrowed.listed i mem_cons_self
  rw [releaseBin, wp_bind, wp_get, wp_ite]
  split
  next asks =>
    have bin := borrowed.bins i mem_cons_self asks
    have within := bin.within
    have pos := bin.pos
    have memory : (UInt64.ofNat (binBase w i)).toNat = binBase w i :=
      UInt64.toNat_ofNat_of_lt' (Nat.lt_of_le_of_lt (Nat.le_add_right _ _) within)
    have count := borrowed.ready.toNat_pages lt
    obtain ⟨attributes, here, _⟩ := bin.pages (binBase w i) (Nat.le_refl _) (by omega)
    rw [wp_bind]
    change wp (coreInternalFreePages (UInt64.ofNat (binBase w i)) _) _ _ _ _
    have last : freedLast p (informationAt w i).type (binBase w i) (informationAt w i).numberOfPages =
        binBase w i + binPages p w i * 0x1000 - 1 := lastOf_of_lt pos within
    refine wp_coreInternalFreePages borrowed.intact (fun _ _ unaligned => ?_) (fun t attributes' found _ bad => ?_)
      fun t attributes' status w' found _ _ runs => ?_
    · rw [memory] at unaligned
      exact absurd bin.aligned (unaligned _ _ here)
    · rw [memory] at found bad
      rw [here] at found
      cases found
      rw [count, last] at bad
      refine absurd ⟨pos, aligned_of_granular granular_granularityOf bin.aligned, ?_⟩ bad
      have some_ := Nat.pos_of_ne_zero pos
      omega
    · rw [memory] at found runs
      rw [here] at found
      cases found
      rw [count, last] at runs
      rw [wp_modify]
      have same := runs.ran.tidied.evolves.bins.informationAt borrowed.ready lt
      exact next _ ((borrowed.released fresh asks runs).settled (settled w') lt (by rw [same, asks]) fresh)
  next idle =>
    refine next _ ⟨borrowed.toHolding.tail, fun a out => borrowed.outside a fun j mem inBin => ?_⟩
    rcases mem_cons.mp mem with rfl | mem'
    · exact idle inBin.1
    · exact out j mem' inBin

/-! ### Setting up the bins -/

theorem wp_reserveBins {Q : Option Nat → World → Prop} {count k : Nat} (borrowed : Borrowed p n w₀ w (List.range k))
    (le : k + count ≤ n) (next : ∀ r w', Borrowed p n w₀ w' (List.range (r.getD (k + count))) → Q r w') :
    wp (reserveBins (List.range' k count)) p Q anyStop w := by
  induction count generalizing k w with
  | zero => exact next none w borrowed
  | succ count ih =>
    rw [List.range'_succ, reserveBins, wp_bind]
    refine wp_reserveBin borrowed (by omega) (by simp) (fun w' reserved => ?_) fun w' failed => ?_
    · rw [← range_succ] at reserved
      refine ih reserved (by omega) fun r w'' held => next r w'' ?_
      rw [Nat.add_right_comm, Nat.add_assoc] at held
      exact held
    · exact next (some k) w' failed

theorem wp_releaseBins {Q : Unit → World → Prop} {after : Nat → World → World}
    (settled : ∀ i w, Settled i w (after i w))
    (borrowed : Borrowed p n w₀ w held) (nodup : held.Nodup) (next : ∀ w', Borrowed p n w₀ w' [] → Q () w') :
    wp (releaseBins after held) p Q anyStop w := by
  induction held generalizing w with
  | nil => exact next w borrowed
  | cons i rest ih =>
    obtain ⟨fresh, nodup'⟩ := nodup_cons.mp nodup
    rw [releaseBins, wp_bind]
    exact wp_releaseBin (settled i) borrowed fresh fun w' released => ih released nodup'

end Bins

def BinsReady (w : World) : Prop := w.initialized = false → TableReady (listed w).length w

/-- A call has kept the invariant, and outside of `R` nothing has happened except in the background. -/
structure Follows (p : Platform) (R : Nat → Prop) (w w' : World) : Prop where
  intact : Intact p w'
  ready : BinsReady w'
  spare : ∀ a attributes, Spare p w' a attributes → Spare p w a attributes
  background : ∀ a, ¬ R a → Background p w w' a

section Follows

variable {p : Platform} {R : Nat → Prop} {w w' w'' : World}

theorem listed_length (types : w'.information.map TypeInformation.type = w.information.map TypeInformation.type) :
    (listed w').length = (listed w).length := by
  have count : ∀ w : World, (listed w).length =
      ((w.information.map TypeInformation.type).takeWhile fun t => t ≠ maxMemoryType).length := by
    intro w
    rw [takeWhile_map, length_map]
    rfl
  rw [count, count, types]

theorem SameBins.binsReady (bins : SameBins w w') (ready : BinsReady w) : BinsReady w' := by
  intro initialized
  rw [bins.initialized] at initialized
  rw [listed_length bins.types]
  exact bins.ready (ready initialized)

theorem Tidied.follows (tidied : Tidied p R w w') (ready : BinsReady w) : Follows p R w w' :=
  ⟨tidied.intact, tidied.evolves.bins.binsReady ready, tidied.evolves.spare, fun _ => tidied.evolves.background⟩

theorem Follows.trans (first : Follows p R w w') (next : Follows p R w' w'') : Follows p R w w'' where
  intact := next.intact
  ready := next.ready
  spare a attributes spare := first.spare a attributes (next.spare a attributes spare)
  background a out := (first.background a out).trans (next.background a out) (first.spare a)

theorem wp_establishBins {Q : Unit → World → Prop} (intact : Intact p w) (ready : TableReady (listed w).length w)
    (next : ∀ w', Follows p nowhere w w' → Q () w') :
    wp establishBins p Q anyStop w := by
  have finish : ∀ w', Borrowed p (listed w).length w w' [] → Follows p nowhere w w' := fun w' borrowed =>
    ⟨borrowed.intact, fun _ => by rw [listed_length borrowed.types]; exact borrowed.ready, borrowed.spare,
      fun a _ => borrowed.outside a nofun⟩
  rw [establishBins, wp_bind, wp_ask, wp_bind, wp_get, wp_bind, range_eq_range']
  refine wp_reserveBins (k := 0) (.start intact ready) (by omega) fun r w' borrowed => ?_
  rw [Nat.zero_add] at borrowed
  cases r with
  | some index =>
    refine wp_releaseBins (fun _ _ => settled_forgetBin) borrowed nodup_range fun w'' released => ?_
    exact next w'' (finish w'' released)
  | none =>
    dsimp only
    rw [wp_bind, ← range_eq_range']
    refine wp_releaseBins (fun _ _ => settled_commitBin) borrowed nodup_range fun w'' released => ?_
    rw [wp_modify]
    obtain ⟨intact, ready, spare, background⟩ := finish w'' released
    exact next _ ⟨⟨intact.sound, intact.spare, intact.once⟩, nofun, spare,
      fun a out => ⟨(background a out).kept, (background a out).grown, (background a out).pages⟩⟩

end Follows

section Add

variable {p : Platform} {w w' : World} {v : MemoryType × UInt64} {start last : Nat}

theorem Added.intact (intact : Intact p w) (added : Added v start last w w')
    (fresh : ∀ a, between start last a → w.at a = none ∧ ∀ attributes, ¬ Spare p w a attributes) : Intact p w' where
  sound := added.sound
  spare := by
    rw [added.only.gcdMap]
    exact intact.spare
  once a := by
    have once := intact.once a
    rw [added.only.gcdMap, added.hits, hits_segment]
    split
    next inside =>
      obtain ⟨none_, spare⟩ := fresh a inside.1
      have map : mapLayout.hits anyValue w.memoryMap a = 0 := valueAt_eq_none_iff.mp none_
      have gcd : gcdLayout.hits (promotable p) w.gcdMap a = 0 :=
        hits_eq_zero fun g mem covers promotable => spare _ ⟨g, mem, promotable, covers, rfl⟩
      omega
    next => omega

theorem Added.follows (intact : Intact p w) (ready : BinsReady w) (added : Added v start last w w')
    (fresh : ∀ a, between start last a → w.at a = none ∧ ∀ attributes, ¬ Spare p w a attributes) :
    Follows p (between start last) w w' where
  intact := added.intact intact fresh
  ready := added.only.bins.binsReady ready
  spare a attributes spare := by
    rw [Spare, added.only.gcdMap] at spare
    exact spare
  background a out := by
    have same := added.at_outside (intact.onceMap a) out
    exact ⟨fun t _ found => ⟨t, by rw [same]; exact found, .inl rfl⟩, fun none_ => .inl (by rw [same]; exact none_),
      added.only.pages a⟩

theorem segment_sound {pages : Nat} (aligned : start % 0x1000 = 0) (pos : pages ≠ 0)
    (within : start + pages * 0x1000 < 2 ^ 64) : (segment v start (start + pages * 0x1000 - 1)).Sound := by
  have some_ : 0 < pages * 0x1000 := Nat.mul_pos (Nat.pos_of_ne_zero pos) (by decide)
  refine ⟨aligned, ?_, ?_, ?_⟩ <;> simp only [segment] <;> omega

theorem wp_coreAddMemoryDescriptor {Q : Unit → World → Prop} {type : MemoryType}
    {start numberOfPages attributes : UInt64}
    (intact : Intact p w) (ready : BinsReady w) (pos : numberOfPages.toNat ≠ 0)
    (within : start.toNat + numberOfPages.toNat * 0x1000 < 2 ^ 64)
    (fresh : ∀ a, between start.toNat (start.toNat + numberOfPages.toNat * 0x1000 - 1) a →
      w.at a = none ∧ ∀ attributes, ¬ Spare p w a attributes)
    (refused : (start.toNat % 0x1000 ≠ 0 ∨ (maxMemoryType ≤ type ∧ type < oemReservedMin)) → Q () w)
    (added : ∀ w', ¬ (start.toNat % 0x1000 ≠ 0 ∨ (maxMemoryType ≤ type ∧ type < oemReservedMin)) →
      Follows p (between start.toNat (start.toNat + numberOfPages.toNat * 0x1000 - 1)) w w' →
      (∀ a, between start.toNat (start.toNat + numberOfPages.toNat * 0x1000 - 1) a → w'.at a ≠ none) → Q () w') :
    wp (coreAddMemoryDescriptor type start numberOfPages attributes) p Q anyStop w := by
  rw [coreAddMemoryDescriptor, wp_ite]
  split
  next bad => exact refused bad
  next good =>
    obtain ⟨aligned, _⟩ := not_or.mp good
    rw [wp_bind, lastOf_of_lt pos within]
    refine wp_coreAddRange (v := (type, attributes)) intact.sound
      (segment_sound (Decidable.not_not.mp aligned) pos within) fun w₁ add => ?_
    have first := add.follows intact ready fresh
    have here : ∀ a, between start.toNat (start.toNat + numberOfPages.toNat * 0x1000 - 1) a →
        w₁.at a = some (type, attributes) := fun a inside => add.at_inside (first.intact.onceMap a) inside
    have finish : ∀ w', Follows p nowhere w₁ w' → Q () w' := by
      intro w' follows
      refine added w' good (first.trans { follows with background := fun a _ => follows.background a id })
        fun a inside => ?_
      obtain ⟨_, now, _⟩ := (follows.background a id).kept _ _ (here a inside)
      rw [now]
      nofun
    refine wp_seq (fun _ w₂ tidied => ?_) (tidies_coreFreeMemoryMapStack w₁ first.intact)
    have second : Follows p nowhere w₁ w₂ := tidied.follows first.ready
    rw [wp_bind, wp_get, wp_ite]
    split
    next => exact finish w₂ second
    next uninitialized =>
      exact wp_establishBins second.intact (second.ready (Bool.eq_false_iff.mpr uninitialized)) fun w₃ third =>
        finish w₃ (second.trans third)

end Add

/-! ### Sequences of calls -/

inductive Call where
  | add (type : MemoryType) (start numberOfPages attributes : UInt64)
  | allocate (type : UInt32) (memoryType : MemoryType) (numberOfPages : UInt64) (memory : Option UInt64)
  | free (memory numberOfPages : UInt64)

def handedRange (p : Platform) (memoryType : MemoryType) (numberOfPages : Nat) : EfiStatus × Option Nat → Nat → Prop
  | (.success, some start) =>
    between start (start + roundPages (granularityOf p memoryType) numberOfPages * 0x1000 - 1)
  | _ => nowhere

def freedRange (p : Platform) (memory numberOfPages : Nat) : Option MemoryType → Nat → Prop
  | some type => between memory (freedLast p type memory numberOfPages)
  | none => nowhere

def Call.run : Call → M (Nat → Prop)
  | .add type start numberOfPages attributes => do
    coreAddMemoryDescriptor type start numberOfPages attributes
    pure (between start.toNat (start.toNat + numberOfPages.toNat * 0x1000 - 1))
  | .allocate type memoryType numberOfPages memory => do
    let p ← Prog.ask id
    let r ← coreInternalAllocatePages type memoryType numberOfPages memory
    pure (handedRange p memoryType numberOfPages.toNat r)
  | .free memory numberOfPages => do
    let p ← Prog.ask id
    let (_, type) ← coreInternalFreePages memory numberOfPages
    pure (freedRange p memory.toNat numberOfPages.toNat type)

def Call.Adds : Call → Nat → Prop
  | .add type start numberOfPages _, a =>
    start.toNat % 0x1000 = 0 ∧ ¬ (maxMemoryType ≤ type ∧ type < oemReservedMin) ∧
      between start.toNat (start.toNat + numberOfPages.toNat * 0x1000 - 1) a
  | _, _ => False

/-- Fewer than 2^40 pages, and what is added is at least a page, does not reach the last page of the addresses, and is
    neither in the map nor waiting to be promoted. -/
def Call.Proper (p : Platform) (w : World) : Call → Prop
  | .add _ start numberOfPages _ =>
    numberOfPages.toNat ≠ 0 ∧ numberOfPages.toNat < 2 ^ 40 ∧ start.toNat + numberOfPages.toNat * 0x1000 < 2 ^ 64 ∧
      ∀ a, between start.toNat (start.toNat + numberOfPages.toNat * 0x1000 - 1) a →
        w.at a = none ∧ ∀ attributes, ¬ Spare p w a attributes
  | .allocate _ _ numberOfPages _ => numberOfPages.toNat < 2 ^ 40
  | .free _ numberOfPages => numberOfPages.toNat < 2 ^ 40

inductive Reached (p : Platform) (w₀ : World) : World → Prop
  | start : Reached p w₀ w₀
  | call {w : World} {c : Call} {named : Nat → Prop} (reached : Reached p w₀ w) (proper : c.Proper p w)
      (returned : (c.run p w).1 = .ok named) : Reached p w₀ (final c.run p w)

/-- What a call keeps of the map. -/
structure StaysPartition (p : Platform) (c : Call) (named : Nat → Prop) (w w' : World) : Prop where
  apart : w'.memoryMap.Pairwise mapLayout.Apart
  sound : ∀ e ∈ w'.memoryMap, e.Sound
  stays : ∀ a, w.at a ≠ none ∨ c.Adds a → w'.at a ≠ none
  grows : ∀ a, w'.at a ≠ none → w.at a ≠ none ∨ c.Adds a ∨ ∃ attributes, Spare p w a attributes
  others : ∀ a, ¬ named a → Background p w w' a

section Calls

variable {p : Platform} {w : World}

def SameUnion (p : Platform) (c : Call) (w w' : World) : Prop :=
  ∀ a, (w.at a ≠ none ∨ c.Adds a → w'.at a ≠ none) ∧
    (w'.at a ≠ none → w.at a ≠ none ∨ c.Adds a ∨ ∃ attributes, Spare p w a attributes)

section Union

variable {w' : World} {a : Nat} {P : MemoryType → UInt64 → MemoryType → Prop} {S : UInt64 → MemoryType → Prop}

theorem present_of_kept (kept : ∀ t attributes, w.at a = some (t, attributes) →
    ∃ t', w'.at a = some (t', attributes) ∧ P t attributes t') (before : w.at a ≠ none) : w'.at a ≠ none := by
  obtain ⟨⟨t, attributes⟩, found⟩ := Option.ne_none_iff_exists'.mp before
  obtain ⟨t', found', _⟩ := kept t attributes found
  rw [found']
  nofun

theorem added_of_grown (grown : w.at a = none → w'.at a = none ∨ ∃ attributes t', Spare p w a attributes ∧
    S attributes t')
    (now : w'.at a ≠ none) : w.at a ≠ none ∨ ∃ attributes, Spare p w a attributes := by
  by_cases before : w.at a = none
  · obtain ⟨attributes, _, spare, _⟩ := (grown before).resolve_left now
    exact .inr ⟨attributes, spare⟩
  · exact .inl before

theorem Evolves.sameUnion {c : Call} {R : Nat → Prop} (evolves : Evolves p R w w') (nothing : ∀ a, ¬ c.Adds a) :
    SameUnion p c w w' := fun a =>
  ⟨fun before => present_of_kept (evolves.kept a) (before.resolve_right (nothing a)),
    fun now => (added_of_grown (evolves.grown a) now).imp_right .inr⟩

end Union

theorem wp_run {c : Call} (intact : Intact p w) (ready : BinsReady w) (proper : c.Proper p w) :
    wp c.run p (fun named w' => Follows p named w w' ∧ SameUnion p c w w') anyStop w := by
  cases c with
  | add type start numberOfPages attributes =>
    obtain ⟨pos, _, within, fresh⟩ := proper
    rw [Call.run, wp_bind]
    refine wp_coreAddMemoryDescriptor intact ready pos within fresh (fun refused => ?_) fun w' good follows here => ?_
    · have nothing : ∀ a, ¬ (Call.add type start numberOfPages attributes).Adds a := by
        rintro a ⟨aligned, valid, _⟩
        rcases refused with unaligned | invalid
        · exact unaligned aligned
        · exact valid invalid
      exact ⟨(Tidied.refl intact).follows ready, (Evolves.refl (R := nowhere) w).sameUnion nothing⟩
    · refine ⟨follows, fun a => ?_⟩
      by_cases inside : between start.toNat (start.toNat + numberOfPages.toNat * 0x1000 - 1) a
      · obtain ⟨aligned, valid⟩ := not_or.mp good
        exact ⟨fun _ => here a inside, fun _ => .inr (.inl ⟨Decidable.not_not.mp aligned, valid, inside⟩)⟩
      · have background := follows.background a inside
        refine ⟨fun before => present_of_kept background.kept (before.resolve_right fun adds => inside adds.2.2),
          fun now => ?_⟩
        exact (added_of_grown background.grown now).imp_right .inr
  | allocate type memoryType numberOfPages memory =>
    rw [Call.run, wp_bind, wp_ask, wp_bind]
    refine wp_coreInternalAllocatePages intact ?_ (fun r w' bad tidied => ?_) ?_
    · have lt : numberOfPages.toNat < 2 ^ 40 := proper
      rw [roundPages]
      rcases @granular_granularityOf p memoryType with granular | granular
      all_goals rw [granular]; omega
    · have named : handedRange p memoryType numberOfPages.toNat r = nowhere := by
        unfold handedRange
        split
        · exact absurd rfl bad
        · rfl
      rw [wp_pure, id, named]
      exact ⟨tidied.follows ready, tidied.evolves.sameUnion fun _ => id⟩
    · intro type' m start w' _ _ _ handed
      obtain ⟨found, tidied, ran⟩ := handed.allocated
      have whole := tidied.widen.trans ran.tidied
      exact ⟨whole.follows ready, whole.evolves.sameUnion fun _ => id⟩
  | free memory numberOfPages =>
    rw [Call.run, wp_bind, wp_ask, wp_bind]
    have idle : Tidied p nowhere w w := .refl intact
    refine wp_coreInternalFreePages intact (fun _ _ _ => ?_) (fun _ _ _ _ _ => ?_)
      fun t attributes status w' _ _ _ runs => ?_
    · exact ⟨idle.follows ready, idle.evolves.sameUnion fun _ => id⟩
    · exact ⟨idle.widen.follows ready, idle.evolves.sameUnion fun _ => id⟩
    · exact ⟨runs.ran.tidied.follows ready, runs.ran.tidied.evolves.sameUnion fun _ => id⟩

theorem Reached.intact {w₀ : World} (reached : Reached p w₀ w) (intact : Intact p w₀) (ready : BinsReady w₀) :
    Intact p w ∧ BinsReady w := by
  induction reached with
  | start => exact ⟨intact, ready⟩
  | call _ proper returned ih =>
    obtain ⟨follows, _⟩ := wp_returned (wp_run ih.1 ih.2 proper) returned
    exact ⟨follows.intact, follows.ready⟩

theorem Intact.apart (intact : Intact p w) : w.memoryMap.Pairwise mapLayout.Apart :=
  (pairwise_apart_iff fun e mem => Nat.lt_succ_of_le (intact.sound e mem).2.2.1).mpr intact.onceMap

end Calls

/-- From every state in which neither entries nor memory that can be promoted overlap, and the table is ready, the map
    stays a partition in every sequence of calls. -/
theorem memoryMap_staysPartition (p : Platform) (w₀ : World) (intact : Intact p w₀) (ready : BinsReady w₀) (w : World)
    (reached : Reached p w₀ w) (c : Call) (proper : c.Proper p w) (named : Nat → Prop)
    (returned : (c.run p w).1 = .ok named) : StaysPartition p c named w (final c.run p w) := by
  obtain ⟨intact', ready'⟩ := reached.intact intact ready
  obtain ⟨follows, union⟩ := wp_returned (wp_run intact' ready' proper) returned
  exact ⟨follows.intact.apart, follows.intact.sound, fun a => (union a).1, fun a => (union a).2, follows.background⟩

theorem binsReady_freeMegabyte : BinsReady freeMegabyte := by
  have length : (listed freeMegabyte).length ≤ maxMemoryType.toNat := by decide
  have idle : ∀ i < (listed freeMegabyte).length, (informationAt freeMegabyte i).asks = false := by decide
  refine fun _ => ⟨fun i lt _ => ?_, fun i _ lt _ _ asks => ?_, by decide⟩
  · exact Nat.ne_of_gt (Nat.lt_of_lt_of_le lt length)
  · rw [idle i lt] at asks
    cases asks

theorem returned_onePage : ((Call.allocate 0 bootServicesData 1 (some 0)).run x64 freeMegabyte).1 =
    .ok (handedRange x64 bootServicesData 1 (.success, some 0x1FF000)) := by
  have returned : (coreInternalAllocatePages 0 bootServicesData 1 (some 0) x64 freeMegabyte).1 =
      .ok (.success, some 0x1FF000) := by decide +kernel
  rw [returned_iff_wp, Call.run, wp_bind, wp_ask]
  refine wp_seq (fun r _ same => ?_) (returned_iff_wp.mp returned)
  rw [wp_pure, same]
  rfl

theorem memoryMap_staysPartition_onePage : StaysPartition x64 (.allocate 0 bootServicesData 1 (some 0))
      (handedRange x64 bootServicesData 1 (.success, some 0x1FF000)) freeMegabyte
      (final (Call.allocate 0 bootServicesData 1 (some 0)).run x64 freeMegabyte) :=
  memoryMap_staysPartition x64 freeMegabyte intact_freeMegabyte binsReady_freeMegabyte freeMegabyte .start
    (.allocate 0 bootServicesData 1 (some 0)) (show 1 < 2 ^ 40 by decide) _ returned_onePage

/-- An allocation of one page brings the rest of the untested megabyte into the map. -/
theorem allocation_adds_untested_memory : untestedMegabyte.memoryMap = [] ∧
      (coreInternalAllocatePages 0 bootServicesData 1 (some 0) x64 untestedMegabyte).1 = .ok (.success, some 0x1FF000) ∧
      untestedMegabyte.at 0x100000 = none ∧
      (final (coreInternalAllocatePages 0 bootServicesData 1 (some 0)) x64 untestedMegabyte).at 0x100000 ≠ none :=
  ⟨rfl, by decide +kernel, rfl, by decide +kernel⟩

/-! ### What freeing changes -/

/-- The pages from `memory` to `stop` have been freed, though some of them may have been taken for descriptors since. -/
structure FreesUpTo (p : Platform) (memory numberOfPages : Nat) (r : EfiStatus × Option MemoryType) (stop : Nat)
    (w w' : World) : Prop where
  start : memory ≤ stop
  within : ∀ a, memory ≤ a → a < stop → freedRange p memory numberOfPages r.2 a
  held : ∀ a, memory ≤ a → a < stop → Held w a ∧ ¬ DescriptorPage w a
  freed : ∀ a, memory ≤ a → a < stop → Freed a a w'
  others : ∀ a, ¬ (memory ≤ a ∧ a < stop) → Background p w w' a
  idle : stop = memory → w' = w
  success : r.1 = .success → memory + numberOfPages * 0x1000 ≤ 2 ^ 64 → memory + numberOfPages * 0x1000 ≤ stop
  failed : r.1 ≠ .success → memory < stop → ¬ Held w stop

theorem le_freedLast {p : Platform} {type : MemoryType} {memory numberOfPages : Nat}
    (aligned : memory % granularityOf p type = 0) (fits : memory + numberOfPages * 0x1000 ≤ 2 ^ 64)
    (lt : memory < freedLast p type memory numberOfPages) :
    memory + numberOfPages * 0x1000 ≤ freedLast p type memory numberOfPages + 1 := by
  rw [freedLast, lastOf, bytesOf, roundPages] at lt ⊢
  rcases @granular_granularityOf p type with granular | granular
  all_goals rw [granular] at aligned lt ⊢; omega

def loadedPages : World :=
  { initialWorld x64 [] with memoryMap := [⟨.pages, loaderData, 0x1000, 0x2FFF, 0⟩] }

theorem intact_loadedPages : Intact x64 loadedPages := intact_singleton rfl rfl (by decide)

end LeoEdk.Memory
