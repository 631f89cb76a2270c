import LeoEdk.Memory.PageServices
import LeoEdk.Theorems.PageConversion

/-! What `CoreInternalAllocatePages` hands out: memory that was free, or was waiting to be promoted. A conversion that
    fails is tried again after a promotion (`wp_convertOrPromote`). -/

namespace LeoEdk.Memory

open Layout Prog
open Gcd (GcdMapEntry)

section Convert

variable {p : Platform} {w : World} {start numberOfPages : Nat} {memoryType : MemoryType}

def Allocated (p : Platform) (memoryType : MemoryType) (start last : Nat) (w w' : World) : Prop :=
  ∃ found, Tidied p nowhere w found ∧ Ran p memoryType start last found .success w'

theorem Allocated.after {last : Nat} {w₁ w' : World} (tidied : Tidied p nowhere w w₁)
    (allocated : Allocated p memoryType start last w₁ w') : Allocated p memoryType start last w w' := by
  obtain ⟨found, tidied', ran⟩ := allocated
  exact ⟨found, tidied.trans tidied', ran⟩

theorem wp_convertOrPromote {Q : EfiStatus → World → Prop} (intact : Intact p w)
    (used : memoryType ≠ conventionalMemory)
    (failed : ∀ status w', status ≠ .success → Tidied p nowhere w w' → Q status w')
    (success : ∀ w', Asserted numberOfPages start (lastOf start (bytesOf numberOfPages)) →
      Allocated p memoryType start (lastOf start (bytesOf numberOfPages)) w w' → Q .success w') :
    wp (convertOrPromote start numberOfPages memoryType) p Q anyStop w := by
  have finish : ∀ {w₁ w' : World} {status : EfiStatus}, Tidied p nowhere w w₁ →
      Asserted numberOfPages start (lastOf start (bytesOf numberOfPages)) →
      Ran p memoryType start (lastOf start (bytesOf numberOfPages)) w₁ status w' → Q status w' := by
    intro w₁ w' status tidied asserted ran
    by_cases ok : status = .success
    · subst ok
      exact success w' asserted ⟨w₁, tidied, ran⟩
    · rw [ran.failed ok used]
      exact failed status w₁ ok tidied
  have again : ∀ status : EfiStatus, status ≠ .success →
      wp (do
        if ← promoteMemoryResource coreFreeMemoryMapStack then
          coreConvertPages coreFreeMemoryMapStack start numberOfPages memoryType
        else pure status) p Q anyStop w := by
    intro status bad
    rw [wp_bind]
    refine wp_promoteMemoryResource tidies_coreFreeMemoryMapStack intact fun promoted w₂ tidied => ?_
    rw [wp_ite]
    split
    next =>
      refine wp_coreConvertPages tidies_coreFreeMemoryMapStack tidied.intact (fun _ => failed _ w₂ nofun tidied) ?_
      exact fun _ _ asserted runs => finish tidied asserted runs.ran
    next => exact failed status w₂ bad tidied
  rw [convertOrPromote, wp_bind]
  refine wp_coreConvertPages tidies_coreFreeMemoryMapStack intact (fun _ => ?_) fun status w₁ asserted runs => ?_
  · rw [wp_ite, if_neg nofun]
    exact again _ nofun
  rw [wp_ite]
  split
  next ok =>
    subst ok
    exact success w₁ asserted ⟨w, .refl intact, runs.ran⟩
  next bad =>
    rw [runs.ran.failed bad used]
    exact again status bad

end Convert

section Sizes

variable {p : Platform} {memoryType : MemoryType} {alignment n start : Nat}

theorem granular_granularityOf : Granular (granularityOf p memoryType) := by
  rw [granularityOf]
  split
  · exact p.granular
  · exact .inl rfl

theorem roundPages_dvd (granular : Granular alignment) : roundPages alignment n * 0x1000 % alignment = 0 := by
  rw [roundPages]
  rcases granular with rfl | rfl <;> omega

theorem le_roundPages (granular : Granular alignment) (lt : n < 2 ^ 64) :
    n ≤ roundPages alignment n ∨ roundPages alignment n = 0 := by
  rw [roundPages]
  rcases granular with rfl | rfl <;> omega

theorem sizes_roundPages (granular : Granular alignment) (fits : roundPages alignment n * 0x1000 < 2 ^ 64) :
    Sizes (roundPages alignment n) alignment := ⟨granular, roundPages_dvd granular, fits⟩

theorem lastOf_eq {pages : Nat} (pos : pages ≠ 0) (fits : pages * 0x1000 < 2 ^ 64) (below : start < 2 ^ 64)
    (lt : start < lastOf start (bytesOf pages)) : lastOf start (bytesOf pages) + 1 = start + pages * 0x1000 := by
  have bytes : bytesOf pages = pages * 0x1000 := Nat.mod_eq_of_lt fits
  have some_ : 0 < pages * 0x1000 := Nat.mul_pos (Nat.pos_of_ne_zero pos) (by decide)
  rw [bytes, lastOf] at lt ⊢
  generalize pages * 0x1000 = size at *
  omega

theorem lastOf_of_lt {pages : Nat} (pos : pages ≠ 0) (within : start + pages * 0x1000 < 2 ^ 64) :
    lastOf start (bytesOf pages) = start + pages * 0x1000 - 1 := by
  have bytes : bytesOf pages = pages * 0x1000 := Nat.mod_eq_of_lt (by omega)
  have some_ : 0 < pages * 0x1000 := Nat.mul_pos (Nat.pos_of_ne_zero pos) (by decide)
  rw [bytes, lastOf]
  generalize pages * 0x1000 = size at *
  omega

end Sizes

section Allocate

variable {p : Platform} {w : World} {type : AllocateType} {memoryType : MemoryType} {numberOfPages memory : Nat}

/-- What a successful allocation has done. -/
structure Handed (p : Platform) (type : AllocateType) (memoryType : MemoryType) (pages memory : Nat) (w : World)
    (start : Nat) (w' : World) : Prop where
  pos : pages ≠ 0
  aligned : start % granularityOf p memoryType = 0
  within : start + pages * 0x1000 < 2 ^ 64
  below : type = .maxAddress → start + pages * 0x1000 ≤ memory + 1
  exact_ : type = .address → start = memory
  allocated : Allocated p memoryType start (start + pages * 0x1000 - 1) w w'

theorem Allocated.within {start last : Nat} {w' : World} (allocated : Allocated p memoryType start last w w')
    (used : memoryType ≠ conventionalMemory) (le : start ≤ last) : last + 1 < 2 ^ 64 := by
  obtain ⟨found, tidied, ran⟩ := allocated
  obtain ⟨attributes, before, _⟩ := ran.taken rfl used last ⟨le, Nat.le_refl _⟩
  obtain ⟨e, mem, covers, _⟩ := exists_of_valueAt before
  exact Nat.lt_of_le_of_lt covers.2 (tidied.intact.sound e mem).2.2.2

theorem handed_of_allocated {pages start : Nat} {w' : World} (used : memoryType ≠ conventionalMemory)
    (fits : pages * 0x1000 < 2 ^ 64) (lt : start < 2 ^ 64)
    (asserted : Asserted pages start (lastOf start (bytesOf pages)))
    (allocated : Allocated p memoryType start (lastOf start (bytesOf pages)) w w')
    (aligned : start % granularityOf p memoryType = 0)
    (below : start + pages * 0x1000 < 2 ^ 64 → type = .maxAddress → start + pages * 0x1000 ≤ memory + 1)
    (exact_ : type = .address → start = memory) : Handed p type memoryType pages memory w start w' := by
  obtain ⟨pos, _, ends⟩ := asserted
  have next := lastOf_eq pos fits lt ends
  have within := allocated.within used (Nat.le_of_lt ends)
  have last : lastOf start (bytesOf pages) = start + pages * 0x1000 - 1 := by omega
  rw [next] at within
  rw [last] at allocated
  exact ⟨pos, aligned, within, below within, exact_, allocated⟩

theorem wp_allocatePages {Q : EfiStatus × Nat → World → Prop} (intact : Intact p w)
    (used : memoryType ≠ conventionalMemory) (lt : memory < 2 ^ 64)
    (fits : roundPages (granularityOf p memoryType) numberOfPages * 0x1000 < 2 ^ 64)
    (failed : ∀ r w', r.1 ≠ .success → Tidied p nowhere w w' → Q r w')
    (success : ∀ start w', Handed p type memoryType (roundPages (granularityOf p memoryType) numberOfPages) memory w
      start w' → Q (.success, start) w') :
    wp (allocatePages type memoryType numberOfPages memory) p Q anyStop w := by
  rw [allocatePages, wp_bind, wp_ask, wp_bind, wp_get]
  dsimp only [id]
  rw [wp_ite]
  split
  next address =>
    rw [wp_ite]
    split
    next test =>
      rw [wp_bind]
      refine wp_convertOrPromote intact used (fun status w' bad tidied => failed _ _ bad tidied)
        fun w' asserted allocated => ?_
      refine success _ _ (handed_of_allocated used fits lt asserted allocated test.1 (fun _ limit => ?_) fun _ => rfl)
      rw [address] at limit
      cases limit
    next => exact failed _ _ nofun (.refl intact)
  next search =>
    rw [wp_bind]
    refine wp_findFreePages tidies_coreFreeMemoryMapStack intact fun start w₁ tidied found => ?_
    rw [wp_ite]
    split
    next => exact failed _ _ nofun tidied
    next nonzero =>
      obtain ⟨aligned, place⟩ := found (sizes_roundPages granular_granularityOf fits) nonzero
      rw [wp_bind]
      refine wp_convertOrPromote tidied.intact used (fun status w' bad tidied' => ?_) fun w' asserted allocated => ?_
      · exact failed _ _ bad (tidied.trans tidied')
      · have some_ : 0 < roundPages (granularityOf p memoryType) numberOfPages * 0x1000 :=
          Nat.mul_pos (Nat.pos_of_ne_zero asserted.1) (by decide)
        have start_lt : start < 2 ^ 64 := by
          rcases place with ⟨wrapped, _⟩ | ⟨e, mem, _, _, ge, _⟩
          · omega
          · have := (tidied.intact.sound e mem).2.2.2
            omega
        rw [wp_pure, if_pos rfl]
        refine success _ _ (handed_of_allocated used fits start_lt asserted (allocated.after tidied) aligned
          (fun within limit => ?_) fun address => absurd address search)
        rcases place with ⟨wrapped, _⟩ | ⟨e, mem, _, _, _, below⟩
        · omega
        · rw [if_pos limit] at below
          exact below

/-- The range that was asked for, in unbounded integers. -/
structure Granted (p : Platform) (type : UInt32) (memoryType : MemoryType) (numberOfPages : Nat) (memory : UInt64)
    (w : World) (start : Nat) (w' : World) : Prop where
  pages : ∀ a, start ≤ a → a < start + numberOfPages * 0x1000 → ∃ attributes,
    (w.at a = some (conventionalMemory, attributes) ∨ (w.at a = none ∧ Spare p w a attributes)) ∧
    w'.at a = some (memoryType, attributes)
  aligned : start % granularityOf p memoryType = 0
  below : allocateTypeOf type = some .maxAddress → start + numberOfPages * 0x1000 ≤ memory.toNat + 1

theorem Handed.granted {type : AllocateType} {n : UInt32} {m numberOfPages : UInt64} {start : Nat} {w' : World}
    (handed : Handed p type memoryType (roundPages (granularityOf p memoryType) numberOfPages.toNat) m.toNat w start w')
    (used : memoryType ≠ conventionalMemory) (kind : allocateTypeOf n = some type) :
    Granted p n memoryType numberOfPages.toNat m w start w' := by
  have enough : numberOfPages.toNat ≤ roundPages (granularityOf p memoryType) numberOfPages.toNat :=
    (le_roundPages granular_granularityOf numberOfPages.toNat_lt).resolve_right handed.pos
  have inside : numberOfPages.toNat * 0x1000 ≤ roundPages (granularityOf p memoryType) numberOfPages.toNat * 0x1000 :=
    Nat.mul_le_mul_right _ enough
  obtain ⟨found, tidied, ran⟩ := handed.allocated
  refine ⟨fun a le lt => ?_, handed.aligned, fun limit => ?_⟩
  · obtain ⟨attributes, before, after⟩ := ran.taken rfl used a ⟨le, by omega⟩
    refine ⟨attributes, ?_, after⟩
    -- What is free when it is taken was free before, or has been promoted.
    cases was : w.at a with
    | none =>
      rcases tidied.evolves.grown a was with none_ | ⟨attributes', t, spare, now, _⟩
      · rw [none_] at before
        cases before
      · rw [now] at before
        cases before
        exact .inr ⟨rfl, spare⟩
    | some v =>
      obtain ⟨t, now, change⟩ := tidied.evolves.kept a v.1 v.2 was
      rw [now] at before
      cases before
      rcases change with same | ⟨_, descriptors⟩ | inside'
      · exact .inl (congrArg some (Prod.ext same.symm rfl))
      · exact absurd descriptors (by decide)
      · exact inside'.elim
  · rw [kind] at limit
    cases limit
    exact Nat.le_trans (Nat.add_le_add_left inside start) (handed.below rfl)

theorem wp_coreInternalAllocatePages {Q : EfiStatus × Option Nat → World → Prop} {n : UInt32} {numberOfPages : UInt64}
    {memory : Option UInt64} (intact : Intact p w)
    (fits : roundPages (granularityOf p memoryType) numberOfPages.toNat * 0x1000 < 2 ^ 64)
    (failed : ∀ r w', r.1 ≠ .success → Tidied p nowhere w w' → Q r w')
    (success : ∀ type m start w', memory = some m → allocateTypeOf n = some type → memoryType ≠ conventionalMemory →
      Handed p type memoryType (roundPages (granularityOf p memoryType) numberOfPages.toNat) m.toNat w start w' →
      Q (.success, some start) w') :
    wp (coreInternalAllocatePages n memoryType numberOfPages memory) p Q anyStop w := by
  unfold coreInternalAllocatePages
  split
  next type m kind =>
    rw [wp_ite]
    split
    next => exact failed _ _ nofun (.refl intact)
    next allowed =>
      have used : memoryType ≠ conventionalMemory := by
        rintro rfl
        exact allowed rfl
      rw [wp_bind]
      refine wp_allocatePages intact used m.toNat_lt fits (fun r w' bad tidied => ?_) fun start w' handed => ?_
      · exact failed _ _ bad tidied
      · exact success type m start w' rfl kind used handed
  next => exact failed _ _ nofun (.refl intact)

/-- A successful call hands out memory that was free, or untested memory which it has promoted, as much as was asked
    for, as long as the rounded size can be counted in bytes. -/
theorem allocatePages_granted (p : Platform) (w : World) (intact : Intact p w) (type : UInt32)
    (memoryType : MemoryType) (numberOfPages : UInt64) (memory : UInt64)
    (fits : roundPages (granularityOf p memoryType) numberOfPages.toNat * 0x1000 < 2 ^ 64) (start : Option Nat)
    (success : (coreInternalAllocatePages type memoryType numberOfPages (some memory) p w).1 = .ok (.success, start)) :
    ∃ s, start = some s ∧ Granted p type memoryType numberOfPages.toNat memory w s
      (final (coreInternalAllocatePages type memoryType numberOfPages (some memory)) p w) := by
  refine wp_returned (R := anyStop) (Q := fun r w' => r.1 = .success →
    ∃ s, r.2 = some s ∧ Granted p type memoryType numberOfPages.toNat memory w s w') ?_ success rfl
  refine wp_coreInternalAllocatePages intact fits (fun r w' bad _ ok => absurd ok bad) ?_
  rintro type' m s w' same kind used handed -
  cases same
  exact ⟨s, rfl, handed.granted used kind⟩

end Allocate

def freeMegabyte : World :=
  { initialWorld x64 [] with
    memoryMap := [⟨.pages, conventionalMemory, 0x100000, 0x1FFFFF, 0⟩]
    freeEntries := 4 }

def untestedMegabyte : World :=
  { initialWorld x64 [⟨0x100000, 0x1FFFFF, memoryPresent ||| memoryInitialized, 0, .reserved, .nonExistent, none, none⟩]
    with freeEntries := 4 }

theorem intact_singleton {p : Platform} {w : World} {e : Entry} (map : w.memoryMap = [e]) (gcd : w.gcdMap = [])
    (sound : e.Sound) : Intact p w where
  sound e' mem := by
    rw [map] at mem
    rw [List.mem_singleton.mp mem]
    exact sound
  spare := by
    rw [gcd]
    nofun
  once a := by
    rw [map, gcd]
    change mapLayout.hits anyValue [_] a + 0 ≤ 1
    rw [hits_singleton]
    split <;> decide

theorem intact_freeMegabyte : Intact x64 freeMegabyte := intact_singleton rfl rfl (by decide)

theorem intact_untestedMegabyte : Intact x64 untestedMegabyte where
  sound := nofun
  spare := by
    intro g mem _
    rw [List.mem_singleton.mp mem]
    decide
  once a := by
    change 0 + gcdLayout.hits (promotable x64) [_] a ≤ 1
    rw [hits_singleton]
    split <;> decide

theorem allocatePages_granted_one : ∃ s, some 0x1FF000 = some s ∧ Granted x64 0 bootServicesData 1 0 freeMegabyte s
      (final (coreInternalAllocatePages 0 bootServicesData 1 (some 0)) x64 freeMegabyte) :=
  allocatePages_granted x64 freeMegabyte intact_freeMegabyte 0 bootServicesData 1 0 (by decide) (some 0x1FF000)
    (by decide +kernel)

/-- The page is handed out although it was not in the map. -/
theorem untested_memory_handed_out : Intact x64 untestedMegabyte ∧
      (coreInternalAllocatePages 0 bootServicesData 1 (some 0) x64 untestedMegabyte).1 = .ok (.success, some 0x1FF000) ∧
      untestedMegabyte.at 0x1FF000 = none :=
  ⟨intact_untestedMegabyte, by decide +kernel, rfl⟩

end LeoEdk.Memory
