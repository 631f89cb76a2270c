import LeoEdk.Memory.Descriptors
import LeoEdk.Theorems.GcdPartition
import LeoEdk.Theorems.MemoryMap

/-! What `CoreGetMemoryMap` writes against what it announced, and which pages the descriptors describe. Merging
    descriptors keeps how many of them cover an address, so the finished map covers it as often as the entries do. -/

namespace LeoEdk.Memory

open Layout List
open Gcd (GcdMapEntry)

def descriptorLayout : Layout Descriptor (MemoryType × UInt64) where
  first d := d.physicalStart
  next d := d.physicalStart + d.numberOfPages * 0x1000
  value d := (d.type, d.attributes)

/-- At least one page, and no address beyond what the GCD services can manage. -/
def Descriptor.Sound (d : Descriptor) : Prop :=
  0 < d.numberOfPages ∧ d.physicalStart + d.numberOfPages * 0x1000 ≤ 2 ^ 63

theorem Descriptor.Sound.solid {d : Descriptor} (sound : d.Sound) :
    descriptorLayout.first d < descriptorLayout.next d := by
  have := sound.1
  simp only [descriptorLayout]
  omega

/-- The ranges have one type and one kind of attributes, and one ends where the other starts. -/
def Adjoins (m d : Descriptor) : Prop :=
  descriptorLayout.value m = descriptorLayout.value d ∧
    (descriptorLayout.next m = descriptorLayout.first d ∨ descriptorLayout.next d = descriptorLayout.first m)

instance (m d : Descriptor) : Decidable (Adjoins m d) := inferInstanceAs (Decidable (_ ∧ _))

/-! ### One descriptor -/

section Merge

variable {m d : Descriptor} {xs rest : List Descriptor}

theorem bytesOf_eq (sound : d.Sound) : bytesOf d.numberOfPages = d.numberOfPages * 0x1000 := by
  have := sound.2
  exact Nat.mod_eq_of_lt (by omega)

theorem above_iff (soundM : m.Sound) : (m.physicalStart + bytesOf m.numberOfPages) % 2 ^ 64 = d.physicalStart ↔
      descriptorLayout.next m = descriptorLayout.first d := by
  have := soundM.2
  rw [bytesOf_eq soundM, Nat.mod_eq_of_lt (by omega)]
  rfl

theorem below_iff (soundM : m.Sound) (soundD : d.Sound) :
    (m.physicalStart + 2 ^ 64 - bytesOf d.numberOfPages) % 2 ^ 64 = d.physicalStart ↔
      descriptorLayout.next d = descriptorLayout.first m := by
  have := soundM.2
  have := soundD.2
  rw [bytesOf_eq soundD]
  simp only [descriptorLayout]
  omega

structure Joins (m d z : Descriptor) : Prop where
  sound : z.Sound
  hits : ∀ p a, descriptorLayout.hits p [z] a = descriptorLayout.hits p [m] a + descriptorLayout.hits p [d] a

theorem pages_eq (soundM : m.Sound) (soundD : d.Sound) :
    (m.numberOfPages + d.numberOfPages) % 2 ^ 64 = m.numberOfPages + d.numberOfPages := by
  have := soundM.2
  have := soundD.2
  exact Nat.mod_eq_of_lt (by omega)

theorem joins_above (soundM : m.Sound) (soundD : d.Sound) (same : m.type = d.type ∧ m.attributes = d.attributes)
    (above : descriptorLayout.next m = descriptorLayout.first d) :
    Joins m d { m with numberOfPages := (m.numberOfPages + d.numberOfPages) % 2 ^ 64 } := by
  rw [pages_eq soundM soundD]
  have adjacent : m.physicalStart + m.numberOfPages * 0x1000 = d.physicalStart := above
  refine ⟨⟨Nat.add_pos_left soundM.1 _, ?_⟩, fun p a => ?_⟩
  · have := soundD.2
    dsimp only
    omega
  · refine hits_join above (Nat.le_of_lt soundM.solid) (Nat.le_of_lt soundD.solid) rfl ?_ rfl ?_
    · change m.physicalStart + (m.numberOfPages + d.numberOfPages) * 0x1000 = d.physicalStart + d.numberOfPages * 0x1000
      rw [← adjacent, Nat.add_mul, Nat.add_assoc]
    · simp [descriptorLayout, same.1, same.2]

theorem joins_below (soundM : m.Sound) (soundD : d.Sound) (same : m.type = d.type ∧ m.attributes = d.attributes)
    (below : descriptorLayout.next d = descriptorLayout.first m) :
    Joins m d
      { m with
        physicalStart := d.physicalStart
        numberOfPages := (m.numberOfPages + d.numberOfPages) % 2 ^ 64 } := by
  rw [pages_eq soundM soundD]
  have adjacent : d.physicalStart + d.numberOfPages * 0x1000 = m.physicalStart := below
  refine ⟨⟨Nat.add_pos_left soundM.1 _, ?_⟩, fun p a => ?_⟩
  · have := soundM.2
    dsimp only
    omega
  · rw [Nat.add_comm (descriptorLayout.hits p [m] a)]
    refine hits_join below (Nat.le_of_lt soundD.solid) (Nat.le_of_lt soundM.solid) rfl ?_ ?_ rfl
    · change d.physicalStart + (m.numberOfPages + d.numberOfPages) * 0x1000 = m.physicalStart + m.numberOfPages * 0x1000
      rw [← adjacent, Nat.add_mul, Nat.add_assoc, Nat.add_comm (m.numberOfPages * 0x1000)]
    · simp [descriptorLayout, same.1, same.2]

structure Merged (xs : List Descriptor) (d : Descriptor) (ys : List Descriptor) : Prop where
  sound : ∀ y ∈ ys, y.Sound
  hits : ∀ p a, descriptorLayout.hits p ys a = descriptorLayout.hits p xs a + descriptorLayout.hits p [d] a
  length : ys.length = xs.length + if ∃ x ∈ xs, Adjoins x d then 0 else 1

theorem merged_cons_of_joins {z : Descriptor} (joins : Joins m d z) (soundRest : ∀ x ∈ rest, x.Sound)
    (adjoins : Adjoins m d) : Merged (m :: rest) d (z :: rest) where
  sound := forall_mem_cons.mpr ⟨joins.sound, soundRest⟩
  hits p a := by
    rw [hits_cons z, joins.hits p a, hits_cons m rest]
    omega
  length := by rw [if_pos ⟨m, mem_cons_self, adjoins⟩, length_cons, length_cons, Nat.add_zero]

theorem Merged.cons {ys : List Descriptor} (merged : Merged rest d ys) (soundM : m.Sound) (apart : ¬ Adjoins m d) :
    Merged (m :: rest) d (m :: ys) where
  sound := forall_mem_cons.mpr ⟨soundM, merged.sound⟩
  hits p a := by
    rw [hits_cons m ys, merged.hits p a, hits_cons m rest]
    omega
  length := by
    have same : (∃ x ∈ m :: rest, Adjoins x d) ↔ ∃ x ∈ rest, Adjoins x d := by simp [apart]
    rw [length_cons, length_cons, merged.length, if_congr same rfl rfl]
    omega

theorem merged_mergeMemoryMapDescriptor (sound : ∀ x ∈ xs, x.Sound) (soundD : d.Sound) :
    Merged xs d (mergeMemoryMapDescriptor xs d) := by
  induction xs with
  | nil =>
    refine ⟨forall_mem_singleton.mpr soundD, fun p a => ?_, by simp [mergeMemoryMapDescriptor]⟩
    rw [mergeMemoryMapDescriptor, hits_nil, Nat.zero_add]
  | cons m rest ih =>
    have soundM := sound m mem_cons_self
    have soundRest : ∀ x ∈ rest, x.Sound := fun x mem => sound x (mem_cons_of_mem m mem)
    rw [mergeMemoryMapDescriptor]
    by_cases same : m.type = d.type ∧ m.attributes = d.attributes
    · have value : descriptorLayout.value m = descriptorLayout.value d := Prod.ext same.1 same.2
      rw [if_pos same]
      by_cases above : descriptorLayout.next m = descriptorLayout.first d
      · rw [if_pos ((above_iff soundM).mpr above)]
        exact merged_cons_of_joins (joins_above soundM soundD same above) soundRest ⟨value, .inl above⟩
      · rw [if_neg fun test => above ((above_iff soundM).mp test)]
        by_cases below : descriptorLayout.next d = descriptorLayout.first m
        · rw [if_pos ((below_iff soundM soundD).mpr below)]
          exact merged_cons_of_joins (joins_below soundM soundD same below) soundRest ⟨value, .inr below⟩
        · rw [if_neg fun test => below ((below_iff soundM soundD).mp test)]
          exact (ih soundRest).cons soundM fun adjoins => adjoins.2.elim above below
    · rw [if_neg same]
      refine (ih soundRest).cons soundM fun adjoins => same ?_
      exact Prod.ext_iff.mp adjoins.1

end Merge

section Array

variable {d : Descriptor} {xs ys earlier ds : List Descriptor}

/-- How many of the ranges need a slot of their own: those that no earlier range adjoins. -/
def ownSlots : List Descriptor → List Descriptor → Nat
  | _, [] => 0
  | earlier, d :: rest => (if ∃ s ∈ earlier, Adjoins s d then 0 else 1) + ownSlots (earlier ++ [d]) rest

structure MergedAll (xs ds ys : List Descriptor) : Prop where
  sound : ∀ y ∈ ys, y.Sound
  hits : ∀ p a, descriptorLayout.hits p ys a = descriptorLayout.hits p xs a + descriptorLayout.hits p ds a

theorem mergedAll_foldl (sound : ∀ x ∈ xs, x.Sound) (soundDs : ∀ d ∈ ds, d.Sound) :
    MergedAll xs ds (ds.foldl mergeMemoryMapDescriptor xs) := by
  induction ds generalizing xs with
  | nil => exact ⟨sound, fun p a => by rw [hits_nil, Nat.add_zero, foldl_nil]⟩
  | cons d ds ih =>
    have one := merged_mergeMemoryMapDescriptor sound (soundDs d mem_cons_self)
    have all := ih one.sound fun e mem => soundDs e (mem_cons_of_mem d mem)
    refine ⟨all.sound, fun p a => ?_⟩
    rw [foldl_cons, all.hits p a, one.hits p a, hits_cons d ds, Nat.add_assoc]

theorem exists_adjoins (same : ∀ p a, descriptorLayout.hits p xs a = descriptorLayout.hits p ys a)
    (soundXs : ∀ x ∈ xs, x.Sound) (soundD : d.Sound)
    (apart : ∀ a, descriptorLayout.hits anyValue ys a + descriptorLayout.hits anyValue [d] a ≤ 1) :
    (∃ x ∈ xs, Adjoins x d) → ∃ y ∈ ys, Adjoins y d := by
  rintro ⟨x, memX, value, side⟩
  have solidX := (soundXs x memX).solid
  have solidD := soundD.solid
  -- An address of `x` lies in one of the others, with the same value.
  have other : ∀ a, descriptorLayout.Covers x a →
      ∃ y ∈ ys, descriptorLayout.Covers y a ∧ descriptorLayout.value y = descriptorLayout.value d := by
    intro a covers
    have pos : 0 < descriptorLayout.hits (fun v => decide (v = descriptorLayout.value d)) xs a :=
      hits_pos.mpr ⟨x, memX, covers, decide_eq_true value⟩
    rw [same] at pos
    obtain ⟨y, memY, coversY, valueY⟩ := hits_pos.mp pos
    exact ⟨y, memY, coversY, of_decide_eq_true valueY⟩
  -- No address of `d` does.
  have never : ∀ y ∈ ys, ∀ a, descriptorLayout.Covers d a → ¬ descriptorLayout.Covers y a := by
    intro y memY a coversD coversY
    have := apart a
    have : 0 < descriptorLayout.hits anyValue ys a := hits_pos.mpr ⟨y, memY, coversY, rfl⟩
    have : 0 < descriptorLayout.hits anyValue [d] a := hits_pos.mpr ⟨d, mem_cons_self, coversD, rfl⟩
    omega
  rcases side with above | below
  · obtain ⟨y, memY, coversY, valueY⟩ := other (descriptorLayout.next x - 1) ⟨by omega, by omega⟩
    refine ⟨y, memY, valueY, .inl ?_⟩
    have out := never y memY (descriptorLayout.first d) ⟨Nat.le_refl _, solidD⟩
    unfold Covers at coversY out
    omega
  · obtain ⟨y, memY, coversY, valueY⟩ := other (descriptorLayout.first x) ⟨Nat.le_refl _, solidX⟩
    refine ⟨y, memY, valueY, .inr ?_⟩
    have out := never y memY (descriptorLayout.next d - 1) ⟨by omega, by omega⟩
    unfold Covers at coversY out
    omega

theorem length_foldl (sound : ∀ x ∈ xs, x.Sound) (soundEarlier : ∀ s ∈ earlier, s.Sound) (soundDs : ∀ d ∈ ds, d.Sound)
    (same : ∀ p a, descriptorLayout.hits p xs a = descriptorLayout.hits p earlier a)
    (apart : ∀ a, descriptorLayout.hits anyValue (earlier ++ ds) a ≤ 1) :
    (ds.foldl mergeMemoryMapDescriptor xs).length = xs.length + ownSlots earlier ds := by
  induction ds generalizing xs earlier with
  | nil => rfl
  | cons d ds ih =>
    have soundD := soundDs d mem_cons_self
    have one := merged_mergeMemoryMapDescriptor sound soundD
    have apartD : ∀ a, descriptorLayout.hits anyValue earlier a + descriptorLayout.hits anyValue [d] a ≤ 1 := by
      intro a
      have := apart a
      rw [hits_append, hits_cons d ds] at this
      omega
    have adjoins : (∃ x ∈ xs, Adjoins x d) ↔ ∃ s ∈ earlier, Adjoins s d := by
      refine ⟨exists_adjoins same sound soundD apartD,
        exists_adjoins (fun p a => (same p a).symm) soundEarlier soundD fun a => ?_⟩
      rw [same]
      exact apartD a
    have soundNext : ∀ s ∈ earlier ++ [d], s.Sound :=
      forall_mem_append.mpr ⟨soundEarlier, forall_mem_singleton.mpr soundD⟩
    rw [foldl_cons, ih one.sound soundNext (fun e mem => soundDs e (mem_cons_of_mem d mem)) (fun p a => ?_)
      (fun a => ?_), one.length, ownSlots, if_congr adjoins rfl rfl]
    · omega
    · rw [one.hits, same, hits_append]
    · rw [append_assoc]
      exact apart a

theorem length_le_mergeMemoryMapDescriptor : xs.length ≤ (mergeMemoryMapDescriptor xs d).length := by
  induction xs with
  | nil => exact Nat.zero_le _
  | cons m rest ih =>
    rw [mergeMemoryMapDescriptor]
    split_ifs <;> simp [ih]

theorem length_le_foldl : xs.length ≤ (ds.foldl mergeMemoryMapDescriptor xs).length := by
  induction ds generalizing xs with
  | nil => exact Nat.le_refl _
  | cons d ds ih => exact Nat.le_trans length_le_mergeMemoryMapDescriptor ih

theorem putDescriptor_eq (n : Nat) : putDescriptor (descriptorSize * n) xs d =
      if xs.length < n then .ok (mergeMemoryMapDescriptor xs d) else .error .outsideBuffer := by
  have room : descriptorSize * xs.length + sizeofDescriptor ≤ descriptorSize * n ↔ xs.length < n := by
    change 48 * xs.length + 40 ≤ 48 * n ↔ _
    omega
  rw [putDescriptor, if_congr room rfl rfl]

theorem foldlM_putDescriptor (n : Nat) : ds.foldlM (putDescriptor (descriptorSize * n)) xs =
      if ds = [] ∨ (ds.dropLast.foldl mergeMemoryMapDescriptor xs).length < n then
        .ok (ds.foldl mergeMemoryMapDescriptor xs)
      else .error .outsideBuffer := by
  induction ds generalizing xs with
  | nil => rfl
  | cons d ds ih =>
    rw [foldlM_cons, putDescriptor_eq]
    by_cases room : xs.length < n
    · rw [if_pos room]
      change ds.foldlM _ _ = _
      rw [ih]
      cases ds with
      | nil => simp [room]
      | cons e ds => simp
    · have full : ¬ ((d :: ds).dropLast.foldl mergeMemoryMapDescriptor xs).length < n := by
        have le : xs.length ≤ ((d :: ds).dropLast.foldl mergeMemoryMapDescriptor xs).length := length_le_foldl
        omega
      rw [if_neg room, if_neg (by simp [full])]
      rfl

end Array

/-! ### Entries of the GCD map -/

section Gcd

variable {lo hi : Nat} {m : GcdMapEntry} {rest : List GcdMapEntry}

def selected (e : GcdMapEntry) : Bool :=
  e.gcdMemoryType = .reserved ∨ e.gcdMemoryType = .persistent ∨ e.gcdMemoryType = .unaccepted ∨
    (e.gcdMemoryType = .memoryMappedIo ∧ isRuntime e)

def WholePages (e : GcdMapEntry) : Prop :=
  e.baseAddress % 0x1000 = 0 ∧ (e.endAddress + 1) % 0x1000 = 0 ∧ e.baseAddress ≤ e.endAddress ∧ e.endAddress < 2 ^ 63

def stretches : GcdMapEntry → List GcdMapEntry → List GcdMapEntry
  | m, [] => [m]
  | m, e :: rest =>
    if sameKind m e then stretches { m with endAddress := e.endAddress } rest else m :: stretches e rest

theorem selected_eq_of_sameKind {e : GcdMapEntry} (same : sameKind m e = true) : selected m = selected e := by
  simp only [sameKind, Bool.decide_and, Bool.and_eq_true, decide_eq_true_eq] at same
  obtain ⟨_, attributes, type, _⟩ := same
  simp [selected, isRuntime, attributes, type]

theorem gcdBytes_eq (whole : WholePages m) : gcdBytes m = m.endAddress + 1 - m.baseAddress := by
  obtain ⟨_, _, le, lt⟩ := whole
  rw [gcdBytes]
  omega

theorem gcdDescriptor_eq_none : gcdDescriptor m = none ↔ selected m = false := by
  unfold gcdDescriptor selected
  cases m.gcdMemoryType <;> simp

theorem selected_of_gcdDescriptor {d : Descriptor} (some_ : gcdDescriptor m = some d) : selected m = true := by
  by_contra out
  rw [gcdDescriptor_eq_none.mpr (Bool.eq_false_iff.mpr out)] at some_
  cases some_

theorem gcdDescriptor_range {d : Descriptor} (some_ : gcdDescriptor m = some d) :
    d.physicalStart = m.baseAddress ∧ d.numberOfPages = gcdBytes m / 0x1000 := by
  unfold gcdDescriptor at some_
  cases type : m.gcdMemoryType <;> simp only [type] at some_
  case memoryMappedIo =>
    split at some_
    · cases some_
      exact ⟨rfl, rfl⟩
    · cases some_
  all_goals
    cases some_
    try exact ⟨rfl, rfl⟩

theorem gcdDescriptor_next {d : Descriptor} (whole : WholePages m) (some_ : gcdDescriptor m = some d) :
    d.physicalStart + d.numberOfPages * 0x1000 = m.endAddress + 1 := by
  obtain ⟨start, pages⟩ := gcdDescriptor_range some_
  rw [start, pages, gcdBytes_eq whole]
  obtain ⟨base, next, le, _⟩ := whole
  omega

theorem gcdDescriptor_sound {d : Descriptor} (whole : WholePages m) (some_ : gcdDescriptor m = some d) : d.Sound := by
  have next := gcdDescriptor_next whole some_
  obtain ⟨start, _⟩ := gcdDescriptor_range some_
  obtain ⟨_, _, le, lt⟩ := whole
  constructor
  · by_contra none_
    rw [Nat.eq_zero_of_not_pos none_] at next
    omega
  · omega

theorem hits_of_not_selected {a : Nat} (out : selected m = false) : Gcd.layout.hits selected [m] a = 0 := by
  rw [hits_singleton]
  refine if_neg fun both => ?_
  have chosen : selected m = true := both.2
  rw [out] at chosen
  cases chosen

theorem gcdDescriptor_hits (whole : WholePages m) (a : Nat) :
    descriptorLayout.hits anyValue (gcdDescriptor m).toList a = Gcd.layout.hits selected [m] a := by
  cases some_ : gcdDescriptor m with
  | none =>
    rw [Option.toList_none, hits_nil, hits_of_not_selected (gcdDescriptor_eq_none.mp some_)]
  | some d =>
    have chosen : selected (Gcd.layout.value m) = true := @selected_of_gcdDescriptor m _ some_
    have covers : descriptorLayout.Covers d a ↔ Gcd.layout.Covers m a := by
      have next := gcdDescriptor_next whole some_
      obtain ⟨start, _⟩ := gcdDescriptor_range some_
      unfold Covers
      change d.physicalStart ≤ a ∧ a < d.physicalStart + d.numberOfPages * 0x1000 ↔
        m.baseAddress ≤ a ∧ a < m.endAddress + 1
      rw [next, start]
    rw [Option.toList_some, hits_singleton, hits_singleton]
    exact if_congr (and_congr covers (by simp [anyValue, chosen])) rfl rfl

theorem filterMap_gcdDescriptor_cons :
    (m :: rest).filterMap gcdDescriptor = (gcdDescriptor m).toList ++ rest.filterMap gcdDescriptor := by
  cases some_ : gcdDescriptor m <;> simp [some_]

theorem wholePages_join {e : GcdMapEntry} (whole : WholePages m) (wholeE : WholePages e)
    (adjacent : m.endAddress + 1 = e.baseAddress) : WholePages { m with endAddress := e.endAddress } := by
  obtain ⟨base, _, le, _⟩ := whole
  obtain ⟨_, next, le', lt⟩ := wholeE
  refine ⟨base, next, ?_, lt⟩
  dsimp only
  omega

theorem stretches_spec (tiles : Gcd.layout.Tiles lo hi (m :: rest)) (whole : ∀ e ∈ m :: rest, WholePages e) :
    (∀ s ∈ stretches m rest, WholePages s) ∧ ∀ a, descriptorLayout.hits anyValue
      ((stretches m rest).filterMap gcdDescriptor) a = Gcd.layout.hits selected (m :: rest) a := by
  induction rest generalizing m lo with
  | nil =>
    refine ⟨whole, fun a => ?_⟩
    rw [← gcdDescriptor_hits (whole m mem_cons_self), stretches, filterMap_gcdDescriptor_cons, filterMap_nil,
      append_nil]
  | cons e rest ih =>
    have wholeM := whole m mem_cons_self
    have wholeE := whole e (by simp)
    have wholeRest : ∀ f ∈ rest, WholePages f := fun f mem => whole f (by simp [mem])
    obtain ⟨start, solid, adjacent, solidE, tilesRest⟩ := tiles
    rw [stretches]
    split
    next same =>
      have joined := wholePages_join wholeM wholeE adjacent.symm
      have tilesJoined : Gcd.layout.Tiles lo hi ({ m with endAddress := e.endAddress } :: rest) :=
        ⟨start, Nat.lt_succ_of_le joined.2.2.1, tilesRest⟩
      obtain ⟨all, hits⟩ := ih tilesJoined (forall_mem_cons.mpr ⟨joined, wholeRest⟩)
      refine ⟨all, fun a => ?_⟩
      have chosen := selected_eq_of_sameKind same
      have join : Gcd.layout.hits selected [{ m with endAddress := e.endAddress }] a =
          Gcd.layout.hits selected [m] a + Gcd.layout.hits selected [e] a :=
        hits_join adjacent.symm (Nat.le_of_lt solid) (Nat.le_of_lt solidE) rfl rfl rfl chosen.symm
      rw [hits a, hits_cons _ rest, join, hits_cons m (e :: rest), hits_cons e rest, Nat.add_assoc]
    next differ =>
      obtain ⟨all, hits⟩ := ih ⟨rfl, solidE, tilesRest⟩ (fun f mem => whole f (mem_cons_of_mem m mem))
      refine ⟨forall_mem_cons.mpr ⟨wholeM, all⟩, fun a => ?_⟩
      rw [hits_cons m, ← gcdDescriptor_hits wholeM, ← hits a, ← hits_append, filterMap_gcdDescriptor_cons]

theorem stretches_zero {map : List GcdMapEntry} {space : Nat} (tiles : Gcd.layout.Tiles 0 space map)
    (whole : ∀ e ∈ map, WholePages e) :
    (∀ s ∈ stretches zeroGcdMapEntry map, selected s = true → WholePages s) ∧ ∀ a, descriptorLayout.hits anyValue
      ((stretches zeroGcdMapEntry map).filterMap gcdDescriptor) a = Gcd.layout.hits selected map a := by
  cases map with
  | nil =>
    refine ⟨fun s mem chosen => ?_, fun a => rfl⟩
    rw [mem_singleton.mp mem] at chosen
    exact nomatch chosen
  | cons e rest =>
    have out : selected zeroGcdMapEntry = false := rfl
    rw [stretches]
    split
    next same =>
      -- The cleared entry has become the first one, up to handles.
      obtain ⟨⟨_, next, le, lt⟩, wholeRest⟩ := forall_mem_cons.mp whole
      have tilesFirst : Gcd.layout.Tiles 0 space ({ zeroGcdMapEntry with endAddress := e.endAddress } :: rest) :=
        ⟨rfl, Nat.succ_pos _, tiles.2.2⟩
      obtain ⟨all, hits⟩ :=
        stretches_spec tilesFirst (forall_mem_cons.mpr ⟨⟨rfl, next, Nat.zero_le _, lt⟩, wholeRest⟩)
      refine ⟨fun s mem _ => all s mem, fun a => ?_⟩
      have outE : selected e = false := (selected_eq_of_sameKind same).symm.trans out
      have cleared : Gcd.layout.hits selected [{ zeroGcdMapEntry with endAddress := e.endAddress }] a = 0 :=
        hits_of_not_selected rfl
      rw [hits a, hits_cons _ rest, hits_cons e rest, cleared, hits_of_not_selected outE]
    next differ =>
      obtain ⟨all, hits⟩ := stretches_spec tiles whole
      refine ⟨fun s mem chosen => ?_, fun a => ?_⟩
      · rcases mem_cons.mp mem with rfl | mem
        · exact nomatch out.symm.trans chosen
        · exact all s mem
      · rw [filterMap_cons_none (gcdDescriptor_eq_none.mpr out)]
        exact hits a

theorem putGcdRange_eq {size : Nat} {written : List Descriptor} (whole : selected m = true → WholePages m) :
    putGcdRange size written m = (gcdDescriptor m).toList.foldlM (putDescriptor size) written := by
  rw [putGcdRange]
  cases some_ : gcdDescriptor m with
  | none => rfl
  | some d =>
    have chosen := selected_of_gcdDescriptor some_
    have bytes := gcdBytes_eq (whole chosen)
    obtain ⟨base, next, le, _⟩ := whole chosen
    have aligned : m.baseAddress % 0x1000 = 0 ∧ gcdBytes m % 0x1000 = 0 := ⟨base, by omega⟩
    dsimp only
    rw [if_pos aligned, Option.toList_some, foldlM_cons]
    cases putDescriptor size written d <;> rfl

theorem putGcdRanges_eq {size : Nat} {written : List Descriptor}
    (whole : ∀ s ∈ stretches m rest, selected s = true → WholePages s) :
    putGcdRanges size m rest written =
      ((stretches m rest).filterMap gcdDescriptor).foldlM (putDescriptor size) written := by
  induction rest generalizing m written with
  | nil =>
    rw [putGcdRanges, putGcdRange_eq (whole m mem_cons_self), stretches, filterMap_gcdDescriptor_cons,
      filterMap_nil, append_nil]
  | cons e rest ih =>
    rw [stretches] at whole
    rw [putGcdRanges, stretches]
    split
    next same =>
      rw [if_pos same] at whole
      exact ih whole
    next differ =>
      rw [if_neg differ] at whole
      rw [putGcdRange_eq (whole m mem_cons_self), filterMap_gcdDescriptor_cons, foldlM_append]
      refine bind_congr fun written => ?_
      exact ih fun s mem => whole s (mem_cons_of_mem m mem)

end Gcd

/-! ### The finished map -/

/-- The maps that `CoreGetMemoryMap` reports: the GCD map tiles an address space that the GCD services can manage, the
    entries of the memory map lie in it, and all consist of whole pages. -/
structure Described (space : Nat) (w : World) : Prop where
  space_le : space ≤ 2 ^ 63
  tiles : Gcd.layout.Tiles 0 space w.gcdMap
  gcdPages : ∀ g ∈ w.gcdMap, g.baseAddress % 0x1000 = 0 ∧ (g.endAddress + 1) % 0x1000 = 0
  entries : ∀ e ∈ w.memoryMap, e.start % 0x1000 = 0 ∧ (e.last + 1) % 0x1000 = 0 ∧ e.start ≤ e.last ∧ e.last < space

def ranges (w : World) : List Descriptor :=
  w.memoryMap.map (entryDescriptor w) ++ (stretches zeroGcdMapEntry w.gcdMap).filterMap gcdDescriptor

def announced (w : World) : Nat := w.gcdMap.countP counted + w.memoryMap.length

/-- The slots that are written: one for each range that no earlier range adjoins with the same type and attributes, and
    one for the last range before it is merged. -/
def slotsWritten (w : World) : Nat := ownSlots [] (ranges w).dropLast + min 1 (ranges w).length

/-- No address lies in two entries of the memory map and of the GCD map that have to be described. -/
def NoOverlap (w : World) : Prop :=
  ∀ a, mapLayout.hits anyValue w.memoryMap a + Gcd.layout.hits selected w.gcdMap a ≤ 1

/-- The descriptors are pairwise disjoint, and describe the addresses of the entries. -/
def Truthful (w : World) (descriptors : List Descriptor) : Prop :=
  descriptors.Pairwise descriptorLayout.Apart ∧
    ∀ a, (∃ d ∈ descriptors, descriptorLayout.Covers d a) ↔
      (∃ e ∈ w.memoryMap, mapLayout.Covers e a) ∨ ∃ g ∈ w.gcdMap, selected g ∧ Gcd.layout.Covers g a

/-- A buffer of the size that a call has reported is large enough, and the map in it is truthful. -/
def Honest (w : World) : Prop :=
  ∀ query buffer size rest, coreGetMemoryMap w query buffer = .ok ⟨.bufferTooSmall, size, rest⟩ →
    ∃ r, coreGetMemoryMap w size true = .ok r ∧ r.status = .success ∧ Truthful w r.memoryMap

section Map

variable {space : Nat} {w : World} {d : Descriptor} {ds : List Descriptor}

theorem mergeRun_spec (sound : d.Sound) (soundDs : ∀ e ∈ ds, e.Sound) : (∀ y ∈ mergeRun d ds, y.Sound) ∧
      ∀ a, descriptorLayout.hits anyValue (mergeRun d ds) a = descriptorLayout.hits anyValue (d :: ds) a := by
  induction ds generalizing d with
  | nil =>
    exact ⟨forall_mem_singleton.mpr sound, fun a => rfl⟩
  | cons e ds ih =>
    have soundE := soundDs e mem_cons_self
    have soundRest : ∀ y ∈ ds, y.Sound := fun y mem => soundDs y (mem_cons_of_mem e mem)
    rw [mergeRun]
    split
    next test =>
      obtain ⟨type, attributes, adjacent⟩ := test
      have joins := joins_above sound soundE ⟨type, attributes⟩ ((above_iff sound).mp adjacent)
      obtain ⟨all, hits⟩ := ih joins.sound soundRest
      refine ⟨all, fun a => ?_⟩
      rw [hits a, hits_cons _ ds, joins.hits, hits_cons d (e :: ds), hits_cons e ds, Nat.add_assoc]
    next =>
      obtain ⟨all, hits⟩ := ih soundE soundRest
      refine ⟨forall_mem_cons.mpr ⟨sound, all⟩, fun a => ?_⟩
      rw [hits_cons d (mergeRun e ds), hits a, hits_cons d (e :: ds)]

theorem mergeMemoryMap_spec (soundDs : ∀ e ∈ ds, e.Sound) : (∀ y ∈ mergeMemoryMap (ds.map clearAccess), y.Sound) ∧ ∀ a,
      descriptorLayout.hits anyValue (mergeMemoryMap (ds.map clearAccess)) a = descriptorLayout.hits anyValue ds a := by
  have sound : ∀ e ∈ ds.map clearAccess, e.Sound := by
    intro e mem
    obtain ⟨d, memD, rfl⟩ := mem_map.mp mem
    exact soundDs d memD
  have same : ∀ a, descriptorLayout.hits anyValue (ds.map clearAccess) a = descriptorLayout.hits anyValue ds a :=
    fun a => hits_map fun _ _ => Iff.rfl
  rcases cleared : ds.map clearAccess with _ | ⟨d, rest⟩
  · refine ⟨nofun, fun a => ?_⟩
    rw [← same, cleared]
    rfl
  · rw [cleared] at sound
    obtain ⟨all, hits⟩ := mergeRun_spec (sound d mem_cons_self) fun e mem => sound e (mem_cons_of_mem d mem)
    refine ⟨all, fun a => ?_⟩
    rw [← same, cleared]
    exact hits a

theorem neededSize_eq : neededSize w = descriptorSize * announced w := by
  rw [neededSize, announced, Nat.mul_add]

section Described

variable (described : Described space w)
include described

theorem Described.wholePages {g : GcdMapEntry} (mem : g ∈ w.gcdMap) : WholePages g := by
  obtain ⟨base, next⟩ := described.gcdPages g mem
  obtain ⟨_, solid, le⟩ := described.tiles.bounds mem
  have := described.space_le
  have lt : g.endAddress + 1 ≤ space := le
  exact ⟨base, next, Nat.le_of_lt_succ solid, by omega⟩

theorem entryDescriptor_next {e : Entry} (mem : e ∈ w.memoryMap) :
    e.start + (entryDescriptor w e).numberOfPages * 0x1000 = e.last + 1 := by
  obtain ⟨start, next, le, lt⟩ := described.entries e mem
  have := described.space_le
  simp only [entryDescriptor]
  omega

theorem entryDescriptor_sound {e : Entry} (mem : e ∈ w.memoryMap) : (entryDescriptor w e).Sound := by
  have next := entryDescriptor_next described mem
  obtain ⟨start, _, le, lt⟩ := described.entries e mem
  have := described.space_le
  refine ⟨Nat.pos_of_ne_zero fun none_ => ?_, ?_⟩
  · rw [none_] at next
    omega
  · change e.start + _ ≤ _
    omega

theorem ranges_sound : ∀ d ∈ ranges w, d.Sound := by
  intro d mem
  rcases mem_append.mp mem with mem | mem
  · obtain ⟨e, memE, rfl⟩ := mem_map.mp mem
    exact entryDescriptor_sound described memE
  · obtain ⟨s, memS, some_⟩ := mem_filterMap.mp mem
    have whole := (stretches_zero described.tiles fun g mem => described.wholePages mem).1 s memS
    exact gcdDescriptor_sound (whole (selected_of_gcdDescriptor some_)) some_

theorem ranges_hits (a : Nat) : descriptorLayout.hits anyValue (ranges w) a =
      mapLayout.hits anyValue w.memoryMap a + Gcd.layout.hits selected w.gcdMap a := by
  rw [ranges, hits_append, (stretches_zero described.tiles fun g mem => described.wholePages mem).2]
  congr 1
  refine hits_map fun e mem => ?_
  have next := entryDescriptor_next described mem
  unfold Covers
  change e.start ≤ a ∧ a < e.start + _ ↔ e.start ≤ a ∧ a < e.last + 1
  rw [next]

theorem coreGetMemoryMap_eq : coreGetMemoryMap w (neededSize w) true =
      if ranges w = [] ∨ ((ranges w).dropLast.foldl mergeMemoryMapDescriptor []).length < announced w then
        let merged := mergeMemoryMap (((ranges w).foldl mergeMemoryMapDescriptor []).map clearAccess)
        .ok ⟨.success, descriptorSize * merged.length, merged⟩
      else .error .outsideBuffer := by
  have whole := (stretches_zero described.tiles fun g mem => described.wholePages mem).1
  have writes : (do
      let written ← (w.memoryMap.map (entryDescriptor w)).foldlM (putDescriptor (neededSize w)) []
      putGcdRanges (neededSize w) zeroGcdMapEntry w.gcdMap written) =
      (ranges w).foldlM (putDescriptor (neededSize w)) [] := by
    rw [ranges, foldlM_append]
    exact bind_congr fun written => putGcdRanges_eq whole
  rw [coreGetMemoryMap, if_neg (Nat.lt_irrefl _), if_neg (by simp), ← bind_assoc, writes, neededSize_eq,
    foldlM_putDescriptor]
  split <;> rfl

theorem truthful_iff :
    Truthful w (mergeMemoryMap (((ranges w).foldl mergeMemoryMapDescriptor []).map clearAccess)) ↔ NoOverlap w := by
  have none_ : ∀ d ∈ ([] : List Descriptor), d.Sound := by simp
  have all := mergedAll_foldl none_ (ranges_sound described)
  obtain ⟨sound, final⟩ := mergeMemoryMap_spec all.sound
  have hits : ∀ a, descriptorLayout.hits anyValue
      (mergeMemoryMap (((ranges w).foldl mergeMemoryMapDescriptor []).map clearAccess)) a =
      mapLayout.hits anyValue w.memoryMap a + Gcd.layout.hits selected w.gcdMap a := by
    intro a
    rw [final, all.hits, hits_nil, Nat.zero_add, ranges_hits described]
  have apart : ∀ ds : List Descriptor, (∀ d ∈ ds, d.Sound) →
      (ds.Pairwise descriptorLayout.Apart ↔ ∀ a, descriptorLayout.hits anyValue ds a ≤ 1) :=
    fun ds sound => pairwise_apart_iff fun d mem => (sound d mem).solid
  rw [Truthful, apart _ sound, NoOverlap]
  constructor
  · rintro ⟨once, _⟩ a
    rw [← hits]
    exact once a
  · intro once
    refine ⟨fun a => ?_, fun a => ?_⟩
    · rw [hits]
      exact once a
    · have described : (∃ d ∈ mergeMemoryMap (((ranges w).foldl mergeMemoryMapDescriptor []).map clearAccess),
          descriptorLayout.Covers d a) ↔ 0 < mapLayout.hits anyValue w.memoryMap a + Gcd.layout.hits selected
          w.gcdMap a := by
        rw [← hits, hits_pos]
        simp [anyValue]
      rw [described, Nat.add_pos_iff_pos_or_pos, hits_pos, hits_pos]
      simp only [anyValue, and_true]
      refine or_congr Iff.rfl (exists_congr fun g => and_congr Iff.rfl ?_)
      exact and_comm

theorem length_dropLast (once : NoOverlap w) :
    ((ranges w).dropLast.foldl mergeMemoryMapDescriptor []).length = ownSlots [] (ranges w).dropLast := by
  have sound : ∀ d ∈ (ranges w).dropLast, d.Sound :=
    fun d mem => ranges_sound described d (dropLast_subset _ mem)
  have apart : ∀ a, descriptorLayout.hits anyValue ([] ++ (ranges w).dropLast) a ≤ 1 := by
    intro a
    have sub : descriptorLayout.hits anyValue (ranges w).dropLast a ≤ descriptorLayout.hits anyValue (ranges w) a :=
      (dropLast_sublist _).countP_le
    have := once a
    rw [← ranges_hits described] at this
    exact Nat.le_trans sub this
  have none_ : ∀ d ∈ ([] : List Descriptor), d.Sound := by simp
  rw [length_foldl none_ none_ sound (fun _ _ => rfl) apart, length_nil, Nat.zero_add]

theorem room_iff (once : NoOverlap w) :
    (ranges w = [] ∨ ((ranges w).dropLast.foldl mergeMemoryMapDescriptor []).length < announced w) ↔
      slotsWritten w ≤ announced w := by
  rw [length_dropLast described once, slotsWritten]
  cases ranges w with
  | nil => simp [ownSlots]
  | cons d rest =>
    have one : min 1 (d :: rest).length = 1 := Nat.min_eq_left (Nat.succ_le_of_lt (Nat.succ_pos _))
    rw [one]
    simp only [cons_ne_nil, false_or, Nat.lt_iff_add_one_le]

end Described

theorem bufferTooSmall_eq {query size : Nat} {buffer : Bool}
    (small : coreGetMemoryMap w query buffer = .ok ⟨.bufferTooSmall, size, ds⟩) :
    query < neededSize w ∧ neededSize w = size := by
  unfold coreGetMemoryMap at small
  split at small
  next lt =>
    cases small
    exact ⟨lt, rfl⟩
  next =>
    split at small
    · cases small
    · cases entries : (w.memoryMap.map (entryDescriptor w)).foldlM (putDescriptor query) [] with
      | error fault =>
        rw [entries] at small
        cases small
      | ok written =>
        rw [entries] at small
        cases all : putGcdRanges query zeroGcdMapEntry w.gcdMap written with
        | error fault =>
          change (putGcdRanges query zeroGcdMapEntry w.gcdMap written >>= _) = _ at small
          rw [all] at small
          cases small
        | ok written =>
          change (putGcdRanges query zeroGcdMapEntry w.gcdMap _ >>= _) = _ at small
          rw [all] at small
          cases small

/-- `CoreGetMemoryMap` keeps within the size it has announced and tells the truth if and only if no two entries overlap
    and no range needs a slot that was not counted. -/
theorem getMemoryMap_honest_iff (described : Described space w) :
    Honest w ↔ announced w = 0 ∨ NoOverlap w ∧ slotsWritten w ≤ announced w := by
  have run := coreGetMemoryMap_eq described
  have size : 0 < neededSize w ↔ announced w ≠ 0 := by
    rw [neededSize_eq]
    change 0 < 48 * _ ↔ _
    omega
  constructor
  · intro honest
    by_cases none_ : announced w = 0
    · exact .inl none_
    · have query : coreGetMemoryMap w 0 false = .ok ⟨.bufferTooSmall, neededSize w, []⟩ := by
        rw [coreGetMemoryMap, if_pos (size.mpr none_)]
      obtain ⟨r, ran, _, truthful⟩ := honest 0 false _ _ query
      rw [run] at ran
      split at ran
      next room =>
        cases ran
        have once := (truthful_iff described).mp truthful
        exact .inr ⟨once, (room_iff described once).mp room⟩
      next => cases ran
  · intro condition query buffer needed rest small
    obtain ⟨lt, rfl⟩ := bufferTooSmall_eq small
    obtain ⟨once, room⟩ := condition.resolve_left (size.mp (Nat.zero_lt_of_lt lt))
    rw [if_pos ((room_iff described once).mpr room)] at run
    exact ⟨_, run, rfl, (truthful_iff described).mpr once⟩

end Map

def twoPages (type : Gcd.GcdMemoryType) : World :=
  { initialWorld x64
      [⟨0, 0xFFF, 0, 0, .systemMemory, .nonExistent, none, none⟩,
      ⟨0x1000, 0x1FFF, 0, 0, type, .nonExistent, none, none⟩,
        ⟨0x2000, 2 ^ 36 - 1, 0, 0, .nonExistent, .nonExistent, none, none⟩] with
    memoryMap := [⟨.pages, conventionalMemory, 0, 0xFFF, 0⟩] }

theorem described_twoPages (type : Gcd.GcdMemoryType) : Described (2 ^ 36) (twoPages type) where
  space_le := by decide
  tiles := by simp [twoPages, initialWorld, Tiles, Gcd.layout]
  gcdPages := by simp [twoPages, initialWorld]
  entries := by simp [twoPages, initialWorld]

theorem getMemoryMap_honest_reserved : Honest (twoPages .reserved) := by
  refine (getMemoryMap_honest_iff (described_twoPages .reserved)).mpr (.inr ⟨fun a => ?_, by decide⟩)
  simp only [hits, twoPages, initialWorld, countP_cons, countP_nil, mapLayout, Gcd.layout, Covers, anyValue,
    selected]
  grind

theorem unaccepted_memory_overruns : Described (2 ^ 36) (twoPages .unaccepted) ∧ ¬ Honest (twoPages .unaccepted) := by
  refine ⟨described_twoPages .unaccepted, fun honest => ?_⟩
  obtain ⟨r, run, _⟩ := honest 0 false 48 [] rfl
  have overrun : coreGetMemoryMap (twoPages .unaccepted) 48 true = .error .outsideBuffer := rfl
  rw [overrun] at run
  cases run

end LeoEdk.Memory
