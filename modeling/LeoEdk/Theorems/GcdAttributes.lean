import LeoEdk.Theorems.GcdPartition

/-! What each address of a range has after `CoreConvertSpace` has set attributes without cache or page-access bits.
    The bits of one entry are carried over to the entries behind it (`PassesOn`). -/

namespace LeoEdk.Gcd

open Layout List

def cpuBits : UInt64 := cacheAttributeMask ||| memoryAttributeMask

/-- Every address of the range has the attributes asked for, with the cache and page-access bits that it had before. -/
def SetsPerAddress (c : Conversion) (map map' : List GcdMapEntry) : Prop :=
  ∀ a, ¬ Outside c.baseAddress.toNat c.length.toNat a → ∃ e e', layout.valueAt map a = some e ∧
    layout.valueAt map' a = some e' ∧ e'.attributes = c.attributes ||| (e.attributes &&& cpuBits)

/-- The cache and page-access bits of an entry are asked for, or the later entry `f` has them too. -/
def PassesOn (attributes : UInt64) (e f : GcdMapEntry) : Prop :=
  (e.attributes &&& cpuBits) ||| (attributes ||| f.attributes) = attributes ||| f.attributes

instance (baseAddress length : Nat) : DecidablePred (Meets baseAddress length) :=
  fun _ => inferInstanceAs (Decidable (_ ∧ _))

instance (attributes : UInt64) : DecidableRel (PassesOn attributes) :=
  fun _ _ => inferInstanceAs (Decidable (_ = _))

/-- The entries of a map that a range meets, in their order. -/
def entriesOf (baseAddress length : Nat) (map : List GcdMapEntry) : List GcdMapEntry :=
  map.filter fun e => Meets baseAddress length e

section Bits

variable {attributes passed bits mask : UInt64}

theorem or_absorbs_iff (within : passed &&& mask = passed) :
    attributes ||| passed ||| (bits &&& mask) = attributes ||| (bits &&& mask) ↔
      passed ||| (attributes ||| bits) = attributes ||| bits := by
  simp only [← UInt64.toBitVec_inj, UInt64.toBitVec_or, UInt64.toBitVec_and] at within ⊢
  simp only [BitVec.eq_of_getLsbD_eq_iff, BitVec.getLsbD_or, BitVec.getLsbD_and] at within ⊢
  grind

theorem and_or_within (bits : UInt64) (within : passed &&& mask = passed) :
    (passed ||| (bits &&& mask)) &&& mask = passed ||| (bits &&& mask) := by
  simp only [← UInt64.toBitVec_inj, UInt64.toBitVec_or, UInt64.toBitVec_and] at within ⊢
  simp only [BitVec.eq_of_getLsbD_eq_iff, BitVec.getLsbD_or, BitVec.getLsbD_and] at within ⊢
  grind

theorem or_or_absorbs_iff {more : UInt64} :
    passed ||| more ||| bits = bits ↔ passed ||| bits = bits ∧ more ||| bits = bits := by
  simp only [← UInt64.toBitVec_inj, UInt64.toBitVec_or, BitVec.eq_of_getLsbD_eq_iff, BitVec.getLsbD_or]
  grind

end Bits

section Loop

variable {c : Conversion} {baseAddress length lo hi : Nat} {middle : List GcdMapEntry}

theorem changedEntries_iff (sets : c.operation = .setAttributesMemory)
    (noCpu : converToCpuArchAttributes c.attributes = 0) (passed : UInt64) (within : passed &&& cpuBits = passed)
    (tiles : layout.Tiles lo hi middle) (meets : ∀ e ∈ middle, Meets baseAddress length e) (pos : 0 < length) :
    (∀ a, lo ≤ a → a < hi → ¬ Outside baseAddress length a → ∃ e e', layout.valueAt middle a = some e ∧
        layout.valueAt (changedEntries (changeEntry c) (c.attributes ||| passed) middle) a = some e' ∧
        e'.attributes = c.attributes ||| (e.attributes &&& cpuBits)) ↔
      (∀ e ∈ middle, passed ||| (c.attributes ||| e.attributes) = c.attributes ||| e.attributes) ∧
        middle.Pairwise (PassesOn c.attributes) := by
  induction middle generalizing lo passed with
  | nil =>
    obtain rfl : lo = hi := tiles
    simp only [not_mem_nil, false_imp_iff, implies_true, List.Pairwise.nil, and_self, iff_true]
    omega
  | cons e middle ih =>
    obtain ⟨start, valid, rest⟩ := tiles
    obtain ⟨reaches, starts⟩ := meets e mem_cons_self
    have within' := and_or_within e.attributes within
    have step : changeEntry c (c.attributes ||| passed) e =
        ({ e with attributes := c.attributes ||| (passed ||| (e.attributes &&& cpuBits)) },
          c.attributes ||| (passed ||| (e.attributes &&& cpuBits))) := by
      simp only [changeEntry, sets, noCpu, if_true, UInt64.or_assoc, cpuBits]
    have le := rest.le
    have tail := ih _ within' rest fun f mem => meets f (mem_cons_of_mem e mem)
    have head : c.attributes ||| (passed ||| (e.attributes &&& cpuBits)) = c.attributes ||| (e.attributes &&& cpuBits) ↔
        passed ||| (c.attributes ||| e.attributes) = c.attributes ||| e.attributes := by
      rw [← UInt64.or_assoc, or_absorbs_iff within]
    have later : (∀ f ∈ middle, passed ||| (e.attributes &&& cpuBits) ||| (c.attributes ||| f.attributes) =
        c.attributes ||| f.attributes) ↔
        (∀ f ∈ middle, passed ||| (c.attributes ||| f.attributes) = c.attributes ||| f.attributes) ∧
          ∀ f ∈ middle, PassesOn c.attributes e f := by
      simp only [or_or_absorbs_iff, PassesOn, forall_and]
    rw [forall_mem_cons, pairwise_cons, ← head, and_assoc, ← @and_assoc _ (∀ f ∈ middle, PassesOn _ e f),
      ← later, changedEntries, step]
    simp only [valueAt_cons]
    have covers : ∀ {a attributes}, layout.Covers { e with attributes := attributes } a ↔ layout.Covers e a := Iff.rfl
    simp only [covers]
    constructor
    · intro all
      refine ⟨?_, tail.mp fun a le' lt inside => ?_⟩
      · have inside : layout.Covers e (max baseAddress e.baseAddress) := by
          simp only [Covers, layout] at valid ⊢
          omega
        obtain ⟨x, x', here, here', eq⟩ := all (max baseAddress e.baseAddress)
          (start ▸ inside.1) (Nat.lt_of_lt_of_le inside.2 le) (by simp only [Outside]; omega)
        rw [if_pos inside] at here here'
        cases here
        cases here'
        exact eq
      · have := all a (by omega) lt inside
        rwa [if_neg (by simp only [Covers]; omega), if_neg (by simp only [Covers]; omega)] at this
    · rintro ⟨here, later⟩ a le' lt inside
      by_cases covers : layout.Covers e a
      · rw [if_pos covers, if_pos covers]
        exact ⟨_, _, rfl, rfl, here⟩
      · rw [if_neg covers, if_neg covers]
        exact tail.mpr later a (by simp only [Covers] at covers; omega) lt inside

end Loop

theorem coreConvertSpace_success {services : Services} {c : Conversion} {m m' : GcdMaps}
    (run : coreConvertSpace services c m = .ok (.success, m')) :
    c.length ≠ 0 ∧ ∃ r map', coreSearchGcdMapEntry c.baseAddress.toNat c.length.toNat (m.map c.operation) = some r ∧
      changeRange (changeEntry c) c.attributes c.baseAddress.toNat c.length.toNat r = .ok map' ∧
      m' = m.setMap c.operation map' := by
  obtain ⟨status, error, failed⟩ | ⟨nonzero, r, found, eq⟩ := coreConvertSpace_cases services c m
  · exact absurd (Prod.mk.inj (Except.ok.inj (failed.symm.trans run))).1 error
  rw [run] at eq
  cases changed : changeRange (changeEntry c) c.attributes c.baseAddress.toNat c.length.toNat r with
  | error stop =>
    rw [changed] at eq
    cases eq
  | ok map' =>
    rw [changed] at eq
    cases eq
    exact ⟨nonzero, r, map', found, changed, rfl⟩

section Range

variable {baseAddress length hi : Nat} {r : Range}

theorem Spans.middle_eq (spans : Spans baseAddress length r) (fits : baseAddress + length ≤ 2 ^ 64)
    (tiles : layout.Tiles 0 hi r.entries) (meets : ∀ e ∈ r.middle, Meets baseAddress length e) :
    ∃ lo mid, layout.Tiles lo mid r.middle ∧ lo ≤ baseAddress ∧ baseAddress + length ≤ mid ∧
      entriesOf baseAddress length r.entries = r.middle ∧
      ∀ {middle : List GcdMapEntry} {a}, ¬ Outside baseAddress length a →
        layout.valueAt (r.before.reverse ++ middle ++ r.after) a = layout.valueAt middle a := by
  obtain ⟨mid, left, after⟩ := tiles_append.mp tiles
  obtain ⟨lo, before, middle⟩ := tiles_append.mp left
  have le : lo ≤ baseAddress := by
    obtain ⟨e, more, eq, starts⟩ := spans.first
    rw [eq] at middle
    exact Nat.le_trans (Nat.le_of_eq middle.1.symm) (contains_iff.mp starts).1
  have le' : baseAddress + length ≤ mid := by
    obtain ⟨less, e, eq, ends⟩ := spans.last
    rw [eq] at middle
    obtain ⟨_, _, last⟩ := tiles_append.mp middle
    have next : e.endAddress + 1 = mid := last.2.2
    rw [lastOf_eq fits] at ends
    have := (contains_iff.mp ends).2
    omega
  refine ⟨lo, mid, middle, le, le', ?_, fun inside => ?_⟩
  · have missed : ∀ {es lo' hi'}, layout.Tiles lo' hi' es → hi' ≤ baseAddress ∨ baseAddress + length ≤ lo' →
        es.filter (fun e => Meets baseAddress length e) = [] := by
      intro es lo' hi' tiles out
      refine filter_eq_nil_iff.mpr fun e mem meets => ?_
      have bounds := tiles.bounds mem
      have meets := of_decide_eq_true meets
      simp only [layout, Meets] at bounds meets
      omega
    rw [entriesOf, Range.entries, filter_append, filter_append, missed before (.inl le),
      missed after (.inr le'), nil_append, append_nil]
    exact filter_eq_self.mpr fun e mem => decide_eq_true (meets e mem)
  · simp only [Outside] at inside
    rw [valueAt_append, valueAt_append, before.valueAt_eq_none (by omega), after.valueAt_eq_none (by omega),
      Option.none_or, Option.or_none]

end Range

/-- Bits reach only where they were, exactly when no entry of the range lacks a bit of an earlier one. -/
theorem setsPerAddress_iff {maxMemory maxIo : UInt64} {m m' : GcdMaps} (partition : Partition maxMemory maxIo m)
    (services : Services) (c : Conversion) (sets : c.operation = .setAttributesMemory)
    (noCpu : converToCpuArchAttributes c.attributes = 0) (run : coreConvertSpace services c m = .ok (.success, m')) :
    SetsPerAddress c m.memorySpaceMap m'.memorySpaceMap ↔
      c.baseAddress.toNat + c.length.toNat ≤ 2 ^ 64 ∧
        (entriesOf c.baseAddress.toNat c.length.toNat m.memorySpaceMap).Pairwise (PassesOn c.attributes) := by
  obtain ⟨nonzero, r, map', found, changed, rfl⟩ := coreConvertSpace_success run
  rw [sets] at found ⊢
  change coreSearchGcdMapEntry _ _ m.memorySpaceMap = _ at found
  change SetsPerAddress c m.memorySpaceMap map' ↔ _
  have pos : 0 < c.length.toNat := by
    rw [Nat.pos_iff_ne_zero]
    exact fun zero => nonzero (UInt64.toNat_inj.mp zero)
  have tiles := partition.memory
  have bound : maxMemory.toNat + 1 ≤ 2 ^ 64 := maxMemory.toNat_lt
  by_cases fits : c.baseAddress.toNat + c.length.toNat ≤ 2 ^ 64
  · have straight : ¬ GoesRound c.baseAddress.toNat c.length.toNat m.memorySpaceMap := by
      rintro ⟨e, -, -, round⟩
      omega
    obtain ⟨inside, map'', changed', -, redraws⟩ := changeRange_eq (keepsAddresses_changeEntry c) c.attributes found pos
      c.length.toNat_lt tiles bound straight
    obtain rfl : map' = map'' := Except.ok.inj (changed.symm.trans changed')
    obtain ⟨entries, spans⟩ := coreSearchGcdMapEntry_eq found
    rw [← entries] at tiles straight ⊢
    obtain ⟨-, meets⟩ := spans.meets pos c.length.toNat_lt tiles bound straight
    obtain ⟨lo, mid, middle, le, le', here, value⟩ := spans.middle_eq fits tiles meets
    have loop := changedEntries_iff sets noCpu 0 UInt64.zero_and middle meets pos
    simp only [UInt64.or_zero, UInt64.zero_or, implies_true, true_and] at loop
    rw [here, and_iff_right fits, ← loop]
    constructor
    · intro perAddress a _ _ inside
      have := perAddress a inside
      rwa [redraws.same a inside, Range.entries, value inside, value inside] at this
    · intro perAddress a inside
      rw [redraws.same a inside, Range.entries, value inside, value inside]
      simp only [Outside] at inside
      exact perAddress a (by omega) (by omega) inside
  · -- the map ends before the range does
    refine iff_of_false (fun perAddress => ?_) fun holds => fits holds.1
    have last := c.baseAddress.toNat_lt
    obtain ⟨e, e', here, -⟩ := perAddress (2 ^ 64) (by simp only [Outside]; omega)
    rw [tiles.valueAt_eq_none (.inr bound)] at here
    cases here

def mixedMap : GcdMaps where
  memorySpaceMap := [
    ⟨0, 0xFFF, 0x800000000000000F, 0x8, .systemMemory, .nonExistent, none, none⟩,
    ⟨0x1000, 0x1FFF, 0x800000000000000F, 0x1, .memoryMappedIo, .nonExistent, none, none⟩,
    ⟨0x2000, 0x2FFF, 0x800000000000000F, 0x9, .systemMemory, .nonExistent, none, none⟩]
  ioSpaceMap := [mapEntryTemplate 0xFFFF]

def setRuntime (baseAddress length : UInt64) : Conversion :=
  ⟨.setAttributesMemory, .nonExistent, .nonExistent, baseAddress, length, 0, memoryRuntime⟩

theorem setsPerAddress_mixedMap :
    ∃ m', coreConvertSpace sampleServices (setRuntime 0x1000 0x2000) mixedMap = .ok (.success, m') ∧
      SetsPerAddress (setRuntime 0x1000 0x2000) mixedMap.memorySpaceMap m'.memorySpaceMap := by
  have partition : Partition 0x2FFF 0xFFFF mixedMap := ⟨by decide, by decide⟩
  have run : ∃ m', coreConvertSpace sampleServices (setRuntime 0x1000 0x2000) mixedMap = .ok (.success, m') := ⟨_, rfl⟩
  obtain ⟨m', run⟩ := run
  exact ⟨m', run, (setsPerAddress_iff partition sampleServices _ rfl rfl run).mpr ⟨by decide, by decide⟩⟩

/-- The write-back bit of the first page reaches the second, which is not cached. -/
theorem setRuntime_spreads_caching :
    ∃ m', coreConvertSpace sampleServices (setRuntime 0 0x2000) mixedMap = .ok (.success, m') ∧
      (layout.valueAt m'.memorySpaceMap 0x1000).map GcdMapEntry.attributes = some (memoryRuntime ||| 0x9) ∧
      ¬ SetsPerAddress (setRuntime 0 0x2000) mixedMap.memorySpaceMap m'.memorySpaceMap := by
  refine ⟨_, rfl, rfl, fun perAddress => ?_⟩
  obtain ⟨e, e', here, here', eq⟩ := perAddress 0x1000 (not_or.mpr ⟨by decide, by decide⟩)
  cases here
  cases here'
  exact absurd eq (by decide)

end LeoEdk.Gcd
