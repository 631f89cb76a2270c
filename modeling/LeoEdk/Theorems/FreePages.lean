import LeoEdk.Theorems.PageConversion

/-! The search for free pages finds the highest block that fits, unless the end of an entry wraps. It takes the
    largest end that an entry offers, and an entry that ends below the alignment offers the end of the addresses. -/

namespace LeoEdk.Memory

/-- A search without guard pages. -/
structure Search where
  maxAddress : Nat
  minAddress : Nat
  numberOfPages : Nat
  alignment : Nat
  ordered : minAddress ≤ maxAddress
  addressable : maxAddress < 2 ^ 64
  power : ∃ k, alignment = 2 ^ k
  paged : 0x1000 ≤ alignment
  whole : alignment ∣ numberOfPages * 0x1000
  small : numberOfPages < 2 ^ 40

def Entry.Ranged (e : Entry) : Prop := e.start ≤ e.last ∧ e.last < 2 ^ 64

namespace Search

variable (s : Search)

def run (map : List Entry) : Nat := coreFindFreePagesI s.maxAddress s.minAddress s.numberOfPages s.alignment map

def bytes : Nat := s.numberOfPages * 0x1000

def Usable (e : Entry) : Prop := e.type = conventionalMemory ∧ e.attributes &&& Gcd.memorySp = 0

/-- A block of at least one page at `base` lies in the entry and within the limits. -/
def Fits (base : Nat) (e : Entry) : Prop :=
  0 < s.numberOfPages ∧ Usable e ∧ s.alignment ∣ base ∧ e.start ≤ base ∧ base + s.bytes ≤ e.last + 1 ∧
    s.minAddress ≤ base ∧ base + s.bytes ≤ s.maxAddress + 1

/-- The search returns 0 only if no block fits, and else the highest base of a block that fits. -/
def FindsHighest (map : List Entry) : Prop :=
  (s.run map = 0 → ∀ base, 0 < base → ∀ e ∈ map, ¬ s.Fits base e) ∧
    (s.run map ≠ 0 → IsGreatest {base | 0 < base ∧ ∃ e ∈ map, s.Fits base e} (s.run map))

/-- The entry begins above 0, and what the limit leaves of it ends before the first multiple of the alignment. -/
def Underflows (e : Entry) : Prop :=
  0 < s.numberOfPages ∧ 0xFFF ≤ s.maxAddress ∧ Usable e ∧ 0 < e.start ∧ e.start < pageEnd s.maxAddress ∧
    s.minAddress ≤ e.last ∧ min e.last (pageEnd s.maxAddress) + 1 < s.alignment

def seen (e : Entry) : Option Nat := usableEnd (pageEnd s.maxAddress) s.minAddress s.bytes s.alignment e

def top : Nat := 2 ^ 64 - s.bytes

/-- The end of the part of the entry below the limit, rounded down to the alignment. -/
def boundary (e : Entry) : Nat := (min e.last (pageEnd s.maxAddress) + 1) / s.alignment * s.alignment

variable {s} {e : Entry} {map : List Entry} {base : Nat}

theorem pageEnd_spec {maxAddress : Nat} (enough : 0xFFF ≤ maxAddress) :
    pageEnd maxAddress ≤ maxAddress ∧ pageEnd maxAddress % 0x1000 = 0xFFF ∧
      maxAddress < pageEnd maxAddress + 0x1000 := by
  rw [pageEnd]
  split <;> omega

theorem boundary_spec (s : Search) (e : Entry) :
    s.alignment ∣ s.boundary e ∧ s.boundary e ≤ min e.last (pageEnd s.maxAddress) + 1 ∧
      (s.boundary e = 0 ↔ min e.last (pageEnd s.maxAddress) + 1 < s.alignment) ∧
      ∀ m, s.alignment ∣ m → m ≤ min e.last (pageEnd s.maxAddress) + 1 → m ≤ s.boundary e := by
  have paged := s.paged
  refine ⟨Nat.dvd_mul_left _ _, Nat.div_mul_le_self _ _, ?_, ?_⟩
  · rw [boundary, Nat.mul_eq_zero, Nat.div_eq_zero_iff]
    omega
  · rintro m ⟨n, rfl⟩ le
    rw [boundary, Nat.mul_comm]
    refine Nat.mul_le_mul_right _ ((Nat.le_div_iff_mul_le (by omega)).mpr ?_)
    rwa [Nat.mul_comm]

section Boundary

variable (pos : 0 < s.numberOfPages)
include pos

theorem bytes_bounds : 0x1000 ≤ s.bytes ∧ s.bytes < 2 ^ 52 ∧ s.alignment ≤ s.bytes ∧ s.alignment ∣ s.bytes := by
  have := s.small
  have le := Nat.le_of_dvd (Nat.mul_pos pos (by decide)) s.whole
  refine ⟨?_, ?_, le, s.whole⟩ <;> unfold bytes <;> omega

theorem alignment_dvd : 0x1000 ∣ s.alignment ∧ s.alignment ∣ 2 ^ 64 := by
  obtain ⟨k, eq⟩ := s.power
  obtain ⟨-, lt, le, -⟩ := bytes_bounds pos
  have paged := s.paged
  rw [eq] at le paged ⊢
  have above : 12 ≤ k := (Nat.pow_le_pow_iff_right (Nat.lt_succ_self 1)).mp paged
  have below : k < 52 := (Nat.pow_lt_pow_iff_right (Nat.lt_succ_self 1)).mp (Nat.lt_of_le_of_lt le lt)
  exact ⟨Nat.pow_dvd_pow 2 above, Nat.pow_dvd_pow 2 (by omega)⟩

theorem alignEnd_eq (ranged : e.Ranged) : alignEnd s.alignment (min e.last (pageEnd s.maxAddress)) =
      if s.boundary e = 0 then 2 ^ 64 - 1 else s.boundary e - 1 := by
  obtain ⟨-, le, -⟩ := boundary_spec s e
  have lt := ranged.2
  rw [alignEnd]
  by_cases wraps : min e.last (pageEnd s.maxAddress) + 1 = 2 ^ 64
  · have whole : s.boundary e = 2 ^ 64 := by
      rw [boundary, wraps, Nat.div_mul_cancel (alignment_dvd pos).2]
    rw [wraps, whole, Nat.mod_self, Nat.zero_div, Nat.zero_mul]
    rfl
  · rw [Nat.mod_eq_of_lt (show min e.last (pageEnd s.maxAddress) + 1 < 2 ^ 64 by omega), ← boundary]
    split <;> omega

/-- What the search sees of an entry: its highest block, or the end of the addresses if the boundary is 0. -/
theorem seen_iff (enough : 0xFFF ≤ s.maxAddress) (ranged : e.Ranged) {d : Nat} : s.seen e = some d ↔
      (s.Underflows e ∧ d = 2 ^ 64 - 1) ∨
        (s.Fits (s.boundary e - s.bytes) e ∧ ¬ (e.start = 0 ∧ s.boundary e = 2 ^ 64) ∧ s.bytes ≤ s.boundary e ∧
          d = s.boundary e - 1) := by
  obtain ⟨page, lt, le, dvd⟩ := bytes_bounds pos
  obtain ⟨dvd', le', zero, -⟩ := boundary_spec s e
  obtain ⟨maxLe, -, maxLt⟩ := pageEnd_spec enough
  have ordered := s.ordered
  have addressable := s.addressable
  have paged := s.paged
  have aligned : s.alignment ∣ s.boundary e - s.bytes := Nat.dvd_sub dvd' dvd
  have usable : e.type = conventionalMemory ∧ e.attributes &&& Gcd.memorySp = 0 ∧
      ¬ (e.start ≥ pageEnd s.maxAddress ∨ e.last < s.minAddress) ↔
      Usable e ∧ e.start < pageEnd s.maxAddress ∧ s.minAddress ≤ e.last := by
    rw [← and_assoc, not_or, Nat.not_le, Nat.not_lt]
    rfl
  unfold seen usableEnd Underflows Fits
  rw [alignEnd_eq pos ranged]
  obtain ⟨valid, last⟩ := ranged
  simp only [pos, enough, aligned, true_and, ← zero]
  generalize s.boundary e = q at *
  by_cases ok : Usable e ∧ e.start < pageEnd s.maxAddress ∧ s.minAddress ≤ e.last
  · rw [if_pos (usable.mpr ok)]
    obtain ⟨free, starts, ends⟩ := ok
    simp only [free, starts, ends, true_and, Option.ite_none_left_eq_some, Option.some.injEq]
    by_cases none : q = 0
    · rw [if_pos none]
      omega
    · rw [if_neg none]
      omega
  · rw [if_neg (mt usable.mp ok)]
    refine iff_of_false nofun ?_
    rintro (⟨⟨free, -, starts, ends, -⟩, -⟩ | ⟨⟨free, fits⟩, _, some, -⟩)
    · exact ok ⟨free, starts, ends⟩
    · exact ok ⟨free, by omega, by omega⟩

end Boundary

theorem le_foldl_max {ds : List Nat} {d x : Nat} (mem : x ≤ d ∨ x ∈ ds) : x ≤ ds.foldl max d := by
  induction ds generalizing d with
  | nil => exact mem.resolve_right nofun
  | cons y ds ih =>
    refine ih ?_
    rw [List.mem_cons] at mem
    rcases mem with le | rfl | mem
    · exact .inl (Nat.le_trans le (Nat.le_max_left _ _))
    · exact .inl (Nat.le_max_right _ _)
    · exact .inr mem

theorem Fits.le_boundary (fits : s.Fits base e) :
    base + s.bytes ≤ s.boundary e ∧ s.Fits (s.boundary e - s.bytes) e := by
  obtain ⟨pos, usable, aligned, starts, ends, above, below⟩ := fits
  obtain ⟨page, -, -, dvd⟩ := bytes_bounds pos
  obtain ⟨dvd', le', -, greatest⟩ := boundary_spec s e
  have enough : 0xFFF ≤ s.maxAddress := by omega
  obtain ⟨maxLe, maxEnd, maxLt⟩ := pageEnd_spec enough
  have paged : 0x1000 ∣ base + s.bytes := (alignment_dvd pos).1.trans (Nat.dvd_add aligned dvd)
  have le := greatest (base + s.bytes) (Nat.dvd_add aligned dvd) (by omega)
  exact ⟨le, pos, usable, Nat.dvd_sub dvd' dvd, by omega, by omega, by omega, by omega⟩

theorem Fits.le_top (fits : s.Fits base e) (ranged : e.Ranged) : base ≤ s.top := by
  have ends := fits.2.2.2.2.1
  have := ranged.2
  unfold top
  omega

/-- No end that the search sees lies above the block of the result, and a result other than 0 ends at one. -/
theorem run_spec (pos : 0 < s.numberOfPages) (enough : 0xFFF ≤ s.maxAddress) (ranged : ∀ e ∈ map, e.Ranged) :
    (∀ e ∈ map, ∀ d, s.seen e = some d → d + 1 ≤ s.run map + s.bytes) ∧
      (s.run map ≠ 0 → ∃ e ∈ map, s.seen e = some (s.run map + s.bytes - 1)) := by
  obtain ⟨page, lt, -, dvd⟩ := bytes_bounds pos
  have dvd' := (alignment_dvd pos).1
  have paged : 0x1000 ∣ s.bytes := dvd'.trans dvd
  have bytes_ : bytesOf s.numberOfPages = s.bytes := Nat.mod_eq_of_lt (by unfold bytes at lt; omega)
  have run_ : s.run map = if ((map.filterMap s.seen).foldl max 0 + 2 ^ 64 - s.bytes + 1) % 2 ^ 64 % 0x1000 ≠ 0 then 0
      else ((map.filterMap s.seen).foldl max 0 + 2 ^ 64 - s.bytes + 1) % 2 ^ 64 := by
    rw [run, coreFindFreePagesI, if_neg (by omega), bytes_]
    rfl
  have highest : ∀ e ∈ map, ∀ d, s.seen e = some d → d ≤ (map.filterMap s.seen).foldl max 0 :=
    fun e mem d eq => le_foldl_max (.inr (List.mem_filterMap.mpr ⟨e, mem, eq⟩))
  have ends : ∀ e ∈ map, ∀ d, s.seen e = some d → s.bytes ≤ d + 1 ∧ d < 2 ^ 64 ∧ 0x1000 ∣ d + 1 := by
    intro e mem d eq
    obtain ⟨aligned, le, -⟩ := boundary_spec s e
    have := (ranged e mem).2
    have := dvd'.trans aligned
    rcases (seen_iff pos enough (ranged e mem)).mp eq with ⟨-, rfl⟩ | ⟨-, -, some, rfl⟩ <;> omega
  rcases @mem_foldl_max (map.filterMap s.seen) 0 with zero | mem
  · rw [zero] at run_ highest
    rw [if_pos (by omega)] at run_
    refine ⟨fun e mem d eq => ?_, absurd run_⟩
    have := highest e mem d eq
    have := ends e mem d eq
    omega
  · generalize (map.filterMap s.seen).foldl max 0 = d at mem highest run_
    obtain ⟨e, memE, eq⟩ := List.mem_filterMap.mp mem
    obtain ⟨some, below, whole⟩ := ends e memE d eq
    rw [if_neg (by omega)] at run_
    have total : s.run map + s.bytes = d + 1 := by omega
    rw [total]
    exact ⟨fun e mem d' eq => Nat.succ_le_succ (highest e mem d' eq), fun _ => ⟨e, memE, eq⟩⟩

theorem seen_top_iff (pos : 0 < s.numberOfPages) (enough : 0xFFF ≤ s.maxAddress) (ranged : e.Ranged) :
    s.seen e = some (2 ^ 64 - 1) ↔ s.Underflows e ∨ (0 < e.start ∧ s.Fits s.top e) := by
  rw [seen_iff pos enough ranged]
  obtain ⟨page, lt, -⟩ := bytes_bounds pos
  obtain ⟨-, le, -⟩ := boundary_spec s e
  have last := ranged.2
  refine or_congr (and_iff_left rfl) ⟨?_, ?_⟩
  · rintro ⟨fits, part, some, eq⟩
    have whole : s.boundary e = 2 ^ 64 := by omega
    rw [whole] at fits
    exact ⟨by omega, fits⟩
  · rintro ⟨starts, fits⟩
    obtain ⟨above, highest⟩ := fits.le_boundary
    unfold top at above
    exact ⟨highest, by omega, by omega, by omega⟩

theorem Fits.seen (fits : s.Fits base e) (enough : 0xFFF ≤ s.maxAddress) (ranged : e.Ranged) :
    s.Fits s.top e ∨ ∃ d, s.seen e = some d ∧ base + s.bytes ≤ d + 1 := by
  obtain ⟨le, highest⟩ := fits.le_boundary
  obtain ⟨page, -⟩ := bytes_bounds fits.1
  by_cases all : e.start = 0 ∧ s.boundary e = 2 ^ 64
  · rw [all.2] at highest
    exact .inl highest
  · exact .inr ⟨_, (seen_iff fits.1 enough ranged).mpr (.inr ⟨highest, all, by omega, rfl⟩), by omega⟩

theorem not_fits (none : s.maxAddress < 0xFFF ∨ s.numberOfPages = 0) : ¬ s.Fits base e := by
  rintro ⟨pos, -, -, -, -, -, below⟩
  have := (bytes_bounds pos).1
  omega

section Result

variable (pos : 0 < s.numberOfPages)
include pos

theorem top_pos : 0 < s.top := by
  obtain ⟨-, lt, -⟩ := bytes_bounds pos
  unfold top
  omega

variable (enough : 0xFFF ≤ s.maxAddress) (ranged : ∀ e ∈ map, e.Ranged)
include enough ranged

theorem run_le_top (nonzero : s.run map ≠ 0) : s.run map ≤ s.top := by
  obtain ⟨e, mem, eq⟩ := (run_spec pos enough ranged).2 nonzero
  obtain ⟨-, le, -⟩ := boundary_spec s e
  have := (ranged e mem).2
  unfold top
  rcases (seen_iff pos enough (ranged e mem)).mp eq with ⟨-, eq'⟩ | ⟨-, -, -, eq'⟩ <;> omega

theorem findsHighest_of_seen_top (reached : ∃ e ∈ map, s.seen e = some (2 ^ 64 - 1)) :
    s.FindsHighest map ↔ ∃ e ∈ map, s.Fits s.top e := by
  have high := top_pos pos
  have atTop : s.run map = s.top := by
    obtain ⟨e, mem, eq⟩ := reached
    obtain ⟨-, lt, -⟩ := bytes_bounds pos
    have := (run_spec pos enough ranged).1 e mem _ eq
    have le := run_le_top pos enough ranged (by omega)
    unfold top at *
    omega
  rw [FindsHighest, atTop]
  constructor
  · intro finds
    exact (finds.2 (Nat.ne_of_gt high)).1.2
  · intro fits
    refine ⟨fun zero => absurd zero (Nat.ne_of_gt high), fun _ => ⟨⟨high, fits⟩, ?_⟩⟩
    rintro base ⟨-, e, mem, fits⟩
    exact fits.le_top (ranged e mem)

theorem findsHighest_of_not_seen_top (missed : ¬ ∃ e ∈ map, s.seen e = some (2 ^ 64 - 1)) :
    s.FindsHighest map ↔ ¬ ∃ e ∈ map, s.Fits s.top e := by
  have high := top_pos pos
  obtain ⟨above, attained⟩ := run_spec pos enough ranged
  constructor
  · rintro finds ⟨e, mem, fits⟩
    have nonzero : s.run map ≠ 0 := fun zero => finds.1 zero s.top high e mem fits
    have top_le := (finds.2 nonzero).2 ⟨high, e, mem, fits⟩
    have le := run_le_top pos enough ranged nonzero
    obtain ⟨e, mem, eq⟩ := attained nonzero
    unfold top at *
    have same : s.run map + s.bytes = 2 ^ 64 := by omega
    rw [same] at eq
    exact missed ⟨e, mem, eq⟩
  · intro missing
    have below : ∀ base, ∀ e ∈ map, s.Fits base e → base ≤ s.run map := by
      intro base e mem fits
      rcases fits.seen enough (ranged e mem) with atTop | ⟨d, eq, within⟩
      · exact absurd ⟨e, mem, atTop⟩ missing
      · have := above e mem d eq
        omega
    refine ⟨fun zero base pos e mem fits => ?_, fun nonzero => ⟨⟨Nat.pos_of_ne_zero nonzero, ?_⟩, ?_⟩⟩
    · have := below base e mem fits
      omega
    · obtain ⟨e, mem, eq⟩ := attained nonzero
      rcases (seen_iff pos enough (ranged e mem)).mp eq with ⟨-, eq'⟩ | ⟨fits, -, some, eq'⟩
      · exact absurd ⟨e, mem, eq.trans (congrArg _ eq')⟩ missed
      · obtain ⟨page, -⟩ := bytes_bounds pos
        have here : s.run map = s.boundary e - s.bytes := by omega
        rw [← here] at fits
        exact ⟨e, mem, fits⟩
    · rintro base ⟨-, e, mem, fits⟩
      exact below base e mem fits

end Result

/-- The search keeps its promise if it sees the end of the addresses exactly when a block fits there. -/
theorem findsHighest_iff (s : Search) {map : List Entry} (ranged : ∀ e ∈ map, e.Ranged) : s.FindsHighest map ↔
      ((∃ e ∈ map, s.Underflows e ∨ (0 < e.start ∧ s.Fits s.top e)) ↔ ∃ e ∈ map, s.Fits s.top e) := by
  by_cases none : s.maxAddress < 0xFFF ∨ s.numberOfPages = 0
  · have zero : s.run map = 0 := if_pos none
    refine iff_of_true ⟨fun _ _ _ _ _ => not_fits none, absurd zero⟩ (iff_of_false ?_ fun ⟨_, _, fits⟩ =>
      not_fits none fits)
    rintro ⟨e, -, ⟨pos, enough, -⟩ | ⟨-, fits⟩⟩
    · omega
    · exact not_fits none fits
  · have pos : 0 < s.numberOfPages := by omega
    have enough : 0xFFF ≤ s.maxAddress := by omega
    have reach : (∃ e ∈ map, s.Underflows e ∨ (0 < e.start ∧ s.Fits s.top e)) ↔
        ∃ e ∈ map, s.seen e = some (2 ^ 64 - 1) :=
      exists_congr fun e => and_congr_right fun mem => (seen_top_iff pos enough (ranged e mem)).symm
    rw [reach]
    by_cases seen : ∃ e ∈ map, s.seen e = some (2 ^ 64 - 1)
    · rw [iff_true_intro seen, true_iff]
      exact findsHighest_of_seen_top pos enough ranged seen
    · rw [iff_false_intro seen, false_iff]
      exact findsHighest_of_not_seen_top pos enough ranged seen

def runtimeBlock : Search where
  maxAddress := 2 ^ 64 - 1
  minAddress := 0
  numberOfPages := 16
  alignment := 0x10000
  ordered := by decide
  addressable := x64.addressable
  power := ⟨16, rfl⟩
  paged := by decide
  whole := by decide
  small := by decide

def freeMemory (start last : Nat) : Entry := ⟨.pages, conventionalMemory, start, last, 0xF⟩

theorem findsHighest_runtimeBlock :
    runtimeBlock.run [freeMemory 0x100000 0x1FFFFF, freeMemory 0x8000 0x2FFFF] = 0x1F0000 ∧
      runtimeBlock.FindsHighest [freeMemory 0x100000 0x1FFFFF, freeMemory 0x8000 0x2FFFF] := by
  refine ⟨by decide, (findsHighest_iff runtimeBlock (by simp [freeMemory, Entry.Ranged])).mpr (iff_of_false ?_ ?_)⟩
  · simp [freeMemory, Underflows, Fits, runtimeBlock, top, bytes, pageEnd]
  · simp [freeMemory, Fits, runtimeBlock, top, bytes]

/-- With 28 KiB of free memory at 4 KiB the block is found at the end of the addresses, where there is no memory. -/
theorem lowMemory_underflows : runtimeBlock.run [freeMemory 0x1000 0x7FFF] = 2 ^ 64 - 0x10000 ∧
      ¬ runtimeBlock.FindsHighest [freeMemory 0x1000 0x7FFF] := by
  have found : runtimeBlock.run [freeMemory 0x1000 0x7FFF] = 2 ^ 64 - 0x10000 := by decide
  refine ⟨found, fun finds => ?_⟩
  obtain ⟨⟨-, e, mem, fits⟩, -⟩ := finds.2 (by rw [found]; decide)
  rw [found, List.mem_singleton.mp mem] at *
  exact absurd fits.2.2.2.2.1 (by decide)

end Search

end LeoEdk.Memory
