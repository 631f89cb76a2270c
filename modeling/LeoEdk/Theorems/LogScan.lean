import LeoEdk.FaultTolerantWrite.WorkSpace
import LeoEdk.Lib.Trail

/-! The scan of the log in the work space, which goes by the sizes that stand in the log, modulo `2 ^ 64`. The headers
    it comes to are a trail of the successor function, and those of a scan that ends are distinct. -/

namespace LeoEdk.FaultTolerantWrite

open Bytes List

section Scan

variable (ws : Store) (size : Nat)

def nextHeader (header : Nat) : Nat := (header + totalSizeOf ws header) % 2 ^ 64

def Passed (header : Nat) : Prop :=
  isValid ws header writesCompleted ∧ (nextHeader ws header + writeHeaderSize) % 2 ^ 64 < size

def recordAt (header index : Nat) : Nat :=
  (header + writeHeaderSize + index * ftwRecordSize (privateDataSizeOf ws header)) % 2 ^ 64

/-- The first record that is not completed, or else the last one. -/
structure Pending (header index : Nat) : Prop where
  lt : index < numberOfWritesOf ws header
  before : ∀ i < index, isValid ws (recordAt ws header i) destCompleted
  last : isValid ws (recordAt ws header index) destCompleted → index + 1 = numberOfWritesOf ws header

/-- The pending record of the header lies in the work space; a header without records has none, and there the private
    data size leads back from the header. -/
def RecordInside (header : Nat) : Prop :=
  (∀ index, Pending ws header index → recordAt ws header index + ftwRecordSize 0 ≤ size) ∧
    (numberOfWritesOf ws header = 0 →
      (header + (2 ^ 64 - privateDataSizeOf ws header)) % 2 ^ 64 + ftwRecordSize 0 ≤ size)

/-- The completed headers of the log lead to one that ends the scan, and if that is not completed, it lies in the work
    space with its pending record. -/
def LogInside : Prop :=
  ∃ done last, Trail (nextHeader ws) workingBlockHeaderSize done last ∧ (∀ header ∈ done, Passed ws size header) ∧
    ¬ Passed ws size last ∧
    (isValid ws last writesCompleted = false → last + writeHeaderSize ≤ size ∧ RecordInside ws size last)

/-- The scan comes to the header. -/
def Visited (header : Nat) : Prop :=
  ∃ done, Trail (nextHeader ws) workingBlockHeaderSize done header ∧ ∀ x ∈ done, Passed ws size x

/-- The size of the write at a header with its records, not modulo `2 ^ 64`. -/
def wholeSize (header : Nat) : Nat :=
  writeHeaderSize + numberOfWritesOf ws header * ftwRecordSize (privateDataSizeOf ws header)

/-- No sum of the scan wraps, and the write that is not completed lies in the work space with its records, as
    `FtwAllocate` has placed it. -/
structure Unwrapped : Prop where
  room : workingBlockHeaderSize + writeHeaderSize ≤ size
  completed : ∀ header, Visited ws size header → isValid ws header writesCompleted →
    header + wholeSize ws header + writeHeaderSize < 2 ^ 64
  pending : ∀ header, Visited ws size header → isValid ws header writesCompleted = false →
    header + wholeSize ws header ≤ size ∧ (numberOfWritesOf ws header = 0 → privateDataSizeOf ws header ≤ header)

/-- The scan ends, with an error or with a header and a record in the work space. -/
def ScanSafe : Prop :=
  ∃ status header, getLastWriteHeader size ws = some (status, header) ∧ (status = .success →
    header + writeHeaderSize ≤ size ∧ getLastWriteRecord ws header + ftwRecordSize 0 ≤ size)

end Scan

variable {ws : Store} {size : Nat}

theorem lastWriteHeaderLoop_of_passed {header : Nat} (passed : Passed ws size header) (fuel : Nat) :
    lastWriteHeaderLoop ws size (fuel + 1) header = lastWriteHeaderLoop ws size fuel (nextHeader ws header) := by
  rw [lastWriteHeaderLoop, if_pos passed.1]
  exact if_neg (Nat.not_le.mpr passed.2)

theorem lastWriteHeaderLoop_of_not_passed {header : Nat} (ends : ¬ Passed ws size header) (fuel : Nat) :
    lastWriteHeaderLoop ws size (fuel + 1) header =
      some (if isValid ws header writesCompleted then .aborted else .success, header) := by
  rw [lastWriteHeaderLoop]
  split
  · exact if_pos (Nat.not_lt.mp fun lt => ends ⟨‹_›, lt⟩)
  · rfl

theorem lastWriteHeaderLoop_eq_some {fuel header last : Nat} {status : EfiStatus} :
    lastWriteHeaderLoop ws size fuel header = some (status, last) ↔
      ∃ done, done.length < fuel ∧ Trail (nextHeader ws) header done last ∧ (∀ x ∈ done, Passed ws size x) ∧
        ¬ Passed ws size last ∧ (if isValid ws last writesCompleted then .aborted else .success) = status := by
  induction fuel generalizing header with
  | zero => simp [lastWriteHeaderLoop]
  | succ fuel ih =>
    by_cases passed : Passed ws size header
    · rw [lastWriteHeaderLoop_of_passed passed, ih]
      constructor
      · rintro ⟨done, fits, trail, others, rest⟩
        exact ⟨header :: done, Nat.succ_lt_succ fits, .cons trail, forall_mem_cons.mpr ⟨passed, others⟩, rest⟩
      · rintro ⟨done, fits, trail, others, rest⟩
        cases trail with
        | nil => exact absurd passed rest.1
        | cons trail => exact ⟨_, Nat.lt_of_succ_lt_succ fits, trail, (forall_mem_cons.mp others).2, rest⟩
    · rw [lastWriteHeaderLoop_of_not_passed passed, Option.some_inj, Prod.mk.injEq]
      constructor
      · rintro ⟨status_, rfl⟩
        exact ⟨[], Nat.succ_pos fuel, .nil header, nofun, passed, status_⟩
      · rintro ⟨done, -, trail, others, rest⟩
        cases trail with
        | nil => exact ⟨rest.2, rfl⟩
        | cons _ => exact absurd (others header mem_cons_self) passed

/-- The headers of a scan that ends are distinct, and all but the first pass for ones in the work space. -/
theorem length_le_of_trail {header last : Nat} {done : List Nat} (trail : Trail (nextHeader ws) header done last)
    (passed : ∀ x ∈ done, Passed ws size x) (ends : ¬ Passed ws size last) : done.length ≤ size := by
  have distinct : (header :: done.map (nextHeader ws)).Nodup := by
    rw [trail.map_next]
    refine (trail.nodup passed ends).append (nodup_singleton last) fun x mem here => ?_
    exact ends (mem_singleton.mp here ▸ passed x mem)
  have placed : (done.map fun x => (nextHeader ws x + writeHeaderSize) % 2 ^ 64).Nodup := by
    have below (x : Nat) : nextHeader ws x < 2 ^ 64 := Nat.mod_lt _ (by decide)
    refine List.Nodup.map_on (fun x memX y memY same => ?_) (trail.nodup passed ends)
    refine inj_on_of_nodup_map (nodup_cons.mp distinct).2 memX memY ?_
    have := below x
    have := below y
    omega
  have inside : (done.map fun x => (nextHeader ws x + writeHeaderSize) % 2 ^ 64) ⊆ List.range size := by
    intro place mem
    obtain ⟨x, mem, here⟩ := mem_map.mp mem
    obtain ⟨-, lt⟩ := passed x mem
    rw [here] at lt
    exact mem_range.mpr lt
  simpa only [length_map, length_range] using (subperm_of_subset placed inside).length_le

theorem recordAt_succ (header index : Nat) :
    (recordAt ws header index + ftwRecordSize (privateDataSizeOf ws header)) % 2 ^ 64 =
      recordAt ws header (index + 1) := by
  rw [recordAt, recordAt, Nat.mod_add_mod, Nat.succ_mul, ← Nat.add_assoc]

theorem lastWriteRecordLoop_eq {header left index : Nat} (total : index + left = numberOfWritesOf ws header)
    (some_ : 0 < numberOfWritesOf ws header) (before : ∀ i < index, isValid ws (recordAt ws header i) destCompleted) :
    ∃ pending, Pending ws header pending ∧
      lastWriteRecordLoop ws (privateDataSizeOf ws header) left (recordAt ws header index) =
        recordAt ws header pending := by
  induction left generalizing index with
  | zero =>
    obtain ⟨index, rfl⟩ : ∃ i, index = i + 1 := ⟨index - 1, by omega⟩
    refine ⟨index, ⟨by omega, fun i lt => before i (by omega), fun _ => by omega⟩, ?_⟩
    rw [lastWriteRecordLoop, ← recordAt_succ, Nat.mod_add_mod, recordAt]
    omega
  | succ left ih =>
    rw [lastWriteRecordLoop]
    split
    · rename_i completed
      rw [recordAt_succ]
      refine ih (by omega) fun i lt => ?_
      obtain rfl | lt := Nat.eq_or_lt_of_le (Nat.le_of_lt_succ lt)
      · exact completed
      · exact before i lt
    · exact ⟨index, ⟨by omega, before, fun completed => absurd completed ‹_›⟩, rfl⟩

theorem Pending.unique {header i j : Nat} (first : Pending ws header i) (second : Pending ws header j) : i = j := by
  have := first.lt
  have := second.lt
  rcases Nat.lt_trichotomy i j with lt | same | lt
  · have := first.last (second.before i lt)
    omega
  · exact same
  · have := second.last (first.before j lt)
    omega

theorem recordInside_iff (header : Nat) :
    RecordInside ws size header ↔ getLastWriteRecord ws header + ftwRecordSize 0 ≤ size := by
  rcases Nat.eq_zero_or_pos (numberOfWritesOf ws header) with none_ | some_
  · have record : getLastWriteRecord ws header = (header + (2 ^ 64 - privateDataSizeOf ws header)) % 2 ^ 64 := by
      have lt : privateDataSizeOf ws header < 2 ^ 64 := by
        have := leNat_lt (ws.read (header + 32) 8)
        rwa [Store.length_read] at this
      rw [getLastWriteRecord, none_, lastWriteRecordLoop, writeHeaderSize, ftwRecordSize]
      omega
    rw [record]
    refine ⟨fun inside => inside.2 none_, fun inside => ⟨fun index pending => ?_, fun _ => inside⟩⟩
    exact absurd pending.lt (by omega)
  · have first : recordAt ws header 0 = (header + writeHeaderSize) % 2 ^ 64 := by
      rw [recordAt, Nat.zero_mul, Nat.add_zero]
    obtain ⟨pending, is, record⟩ := @lastWriteRecordLoop_eq ws _ _ _ (Nat.zero_add _) some_ nofun
    rw [first] at record
    rw [getLastWriteRecord, record]
    refine ⟨fun inside => inside.1 pending is, fun inside =>
      ⟨fun index other => ?_, fun zero => absurd zero (by omega)⟩⟩
    rwa [other.unique is]

/-! ### Logs whose sums do not wrap -/

section Unwrapped

variable (unwrapped : Unwrapped ws size) {header : Nat} (visited : Visited ws size header)
include unwrapped visited

theorem Unwrapped.nextHeader_eq (passed : Passed ws size header) :
    nextHeader ws header = header + wholeSize ws header ∧ Visited ws size (nextHeader ws header) ∧
      nextHeader ws header + writeHeaderSize < size := by
  have small := unwrapped.completed header visited passed.1
  have next : nextHeader ws header = header + wholeSize ws header := by
    rw [nextHeader, totalSizeOf, ftwWriteTotalSize, Nat.add_mod_mod, ← wholeSize]
    exact Nat.mod_eq_of_lt (Nat.lt_of_le_of_lt (Nat.le_add_right _ _) small)
  obtain ⟨done, trail, before⟩ := visited
  have further : ∀ x ∈ done ++ [header], Passed ws size x :=
    forall_mem_append.mpr ⟨before, forall_mem_singleton.mpr passed⟩
  have below := passed.2
  rw [next, Nat.mod_eq_of_lt small, ← next] at below
  exact ⟨next, ⟨_, Trail.concat_iff.mpr ⟨trail, rfl⟩, further⟩, below⟩

/-- Each header lies behind the one before it, so the scan comes to an end before the end of the work space. -/
theorem Unwrapped.ends (inside : header + writeHeaderSize ≤ size) :
    ∃ last, Visited ws size last ∧ ¬ Passed ws size last ∧ last + writeHeaderSize ≤ size := by
  induction left : size - header using Nat.strong_induction_on generalizing header with
  | _ left' ih =>
    by_cases passed : Passed ws size header
    · obtain ⟨next, further, below⟩ := unwrapped.nextHeader_eq visited passed
      have long : writeHeaderSize ≤ wholeSize ws header := Nat.le_add_right _ _
      rw [writeHeaderSize] at long inside below
      exact ih _ (by omega) further below.le rfl
    · exact ⟨header, visited, passed, inside⟩

theorem Unwrapped.recordInside (small : size < 2 ^ 64) (inside : header + writeHeaderSize ≤ size)
    (notYet : isValid ws header writesCompleted = false) : RecordInside ws size header := by
  obtain ⟨fits, back⟩ := unwrapped.pending header visited notYet
  constructor
  · intro index pending
    have upTo := Nat.mul_le_mul_right (ftwRecordSize (privateDataSizeOf ws header)) pending.lt
    rw [Nat.succ_mul] at upTo
    have record : ftwRecordSize 0 ≤ ftwRecordSize (privateDataSizeOf ws header) := Nat.le_add_right _ _
    rw [wholeSize] at fits
    rw [recordAt, Nat.mod_eq_of_lt (by omega)]
    omega
  · intro none_
    have := back none_
    rw [show ftwRecordSize 0 = writeHeaderSize from rfl]
    omega

omit visited in
/-- A log whose sums do not wrap is scanned safely. -/
theorem Unwrapped.logInside (small : size < 2 ^ 64) : LogInside ws size := by
  have start : Visited ws size workingBlockHeaderSize := ⟨[], .nil _, nofun⟩
  obtain ⟨last, visited, ends, inside⟩ := unwrapped.ends start unwrapped.room
  obtain ⟨done, trail, passed⟩ := visited
  refine ⟨done, last, trail, passed, ends, fun notYet => ⟨inside, ?_⟩⟩
  exact unwrapped.recordInside ⟨done, trail, passed⟩ small inside notYet

end Unwrapped

/-! ### The whole scan -/

/-- In a valid work space the scan of the log is safe if and only if the sizes in the log lead on inside the work
    space. -/
theorem scanSafe_iff {d : Device} (valid : isValidWorkSpace d ws) :
    ScanSafe ws d.workSpaceSize ↔ LogInside ws d.workSpaceSize := by
  have signature : ws.read 0 16 = workingBlockSignatureGuid := by
    have header : ws.read 0 workingBlockHeaderSize = d.workingBlockHeader := beq_iff_eq.mp valid
    have front := congrArg (slice 0 16) header
    rw [Store.slice_read _ _ _ _ _ (by decide)] at front
    rw [front, Device.workingBlockHeader, append_assoc, append_assoc, slice_append_left _ (by decide)]
    rfl
  unfold ScanSafe getLastWriteHeader
  rw [if_neg (not_not.mpr signature)]
  simp only [lastWriteHeaderLoop_eq_some, ← recordInside_iff]
  constructor
  · rintro ⟨_, last, ⟨done, -, trail, passed, ends, rfl⟩, inside⟩
    refine ⟨done, last, trail, passed, ends, fun pending => inside ?_⟩
    rw [pending]
    rfl
  · rintro ⟨done, last, trail, passed, ends, inside⟩
    refine ⟨_, last, ⟨done, Nat.lt_succ_of_le (length_le_of_trail trail passed ends), trail, passed, ends, rfl⟩, ?_⟩
    intro success
    cases completed : isValid ws last writesCompleted with
    | false => exact inside completed
    | true =>
      rw [completed] at success
      cases success

def sampleDevice : Device where
  workSpaceSize := 4096
  crc := 0x12345678
  header_le := by decide
  size_lt := by decide

def pendingLog : Store := Store.ofBytes
  (sampleDevice.workingBlockHeader ++ 0xfc :: List.replicate 23 0xff ++ leBytes 8 1 ++ leBytes 8 16 ++
    List.replicate 64 0xff)

theorem scanSafe_pendingLog :
    isValidWorkSpace sampleDevice pendingLog ∧ ScanSafe pendingLog sampleDevice.workSpaceSize := by
  have valid : isValidWorkSpace sampleDevice pendingLog := by decide
  have notYet : ¬ isValid pendingLog 32 writesCompleted = true := by decide
  have first {header : Nat} (visited : Visited pendingLog 4096 header) : header = 32 := by
    obtain ⟨done, trail, passed⟩ := visited
    cases trail with
    | nil => rfl
    | cons _ => exact absurd (passed _ mem_cons_self).1 notYet
  have unwrapped : Unwrapped pendingLog 4096 := by
    refine ⟨by decide, fun header visited completed => ?_, fun header visited _ => ?_⟩
    · exact absurd (first visited ▸ completed) notYet
    · rw [first visited]
      decide
  exact ⟨valid, (scanSafe_iff valid).mpr (unwrapped.logInside (by decide))⟩

/-- A completed write whose total size is `2 ^ 64`. -/
def loopingLog : Store := Store.ofBytes
  (sampleDevice.workingBlockHeader ++ 0xf8 :: List.replicate 23 0xff ++ leBytes 8 1 ++ leBytes 8 (2 ^ 64 - 80))

theorem loopingLog_not_safe :
    isValidWorkSpace sampleDevice loopingLog ∧ ¬ ScanSafe loopingLog sampleDevice.workSpaceSize := by
  have again : nextHeader loopingLog 32 = 32 := by decide
  have passed : Passed loopingLog 4096 32 := ⟨by decide, by rw [again]; decide⟩
  have hangs (fuel : Nat) : lastWriteHeaderLoop loopingLog 4096 fuel 32 = none := by
    induction fuel with
    | zero => rfl
    | succ fuel ih => rw [lastWriteHeaderLoop_of_passed passed, again, ih]
  refine ⟨by decide, ?_⟩
  rintro ⟨status, header, found, -⟩
  have signature : loopingLog.read 0 16 = workingBlockSignatureGuid := by decide
  rw [getLastWriteHeader, if_neg (not_not.mpr signature)] at found
  exact Option.some_ne_none _ (found.symm.trans (hangs _))

end LeoEdk.FaultTolerantWrite
