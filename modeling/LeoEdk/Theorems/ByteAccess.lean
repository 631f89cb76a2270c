import LeoEdk.Disk.DiskIo

/-! Byte access to a block device is access to an array of bytes, where nothing overflows or wraps around. `Moves`
    says of subtasks that they move the bytes of a set of indices; the parts of a request are appended. -/

namespace LeoEdk.DiskIo

open Bytes List

structure Moved (write : Bool) (offset : Nat) (S : Nat → Prop) (s t : State) : Prop where
  /-- The side that is read stays as it is. -/
  source : if write then t.buffer = s.buffer else t.disk = s.disk
  inside : ∀ i, S i → if write then t.disk (offset + i) = s.buffer i else t.buffer i = s.disk (offset + i)
  outside : if write then ∀ a, (∀ i, S i → a ≠ offset + i) → t.disk a = s.disk a else ∀ i, ¬ S i →
    t.buffer i = s.buffer i

namespace Moved

variable {write : Bool} {offset : Nat} {S T : Nat → Prop} {s t u : State}

theorem nothing (none : ∀ i, ¬ S i) : Moved write offset S s s := by
  constructor
  · split <;> rfl
  · exact fun i mem => absurd mem (none i)
  · split
    · exact fun _ _ => rfl
    · exact fun _ _ => rfl

theorem trans (first : Moved write offset S s t) (next : Moved write offset T t u) :
    Moved write offset (fun i => S i ∨ T i) s u := by
  classical
  obtain ⟨source, inside, outside⟩ := first
  obtain ⟨source', inside', outside'⟩ := next
  cases write with
  | true =>
    simp only [if_true] at source inside outside source' inside' outside'
    refine ⟨source'.trans source, fun i mem => ?_, fun a out => ?_⟩
    · simp only [if_true]
      by_cases later : T i
      · rw [inside' i later, source]
      · have apart : ∀ j, T j → offset + i ≠ offset + j := by
          intro j memJ eq
          exact later (Nat.add_left_cancel eq ▸ memJ)
        rw [outside' _ apart, inside i (mem.resolve_right later)]
    · rw [outside' a fun i mem => out i (.inr mem), outside a fun i mem => out i (.inl mem)]
  | false =>
    simp only [Bool.false_eq_true, if_false] at source inside outside source' inside' outside'
    refine ⟨source'.trans source, fun i mem => ?_, fun i out => ?_⟩
    · simp only [Bool.false_eq_true, if_false]
      by_cases later : T i
      · rw [inside' i later, source]
      · rw [outside' i later, inside i (mem.resolve_right later)]
    · rw [outside' i fun mem => out (.inr mem), outside i fun mem => out (.inl mem)]

theorem congr (moved : Moved write offset S s t) (same : ∀ i, S i ↔ T i) : Moved write offset T s t := by
  have eq : S = T := funext fun i => propext (same i)
  exact eq ▸ moved

end Moved

section Pieces

variable {inst : Instance} {write : Bool} {offset : Nat}

variable (inst) in
/-- The subtasks move the bytes of the request at the indices of `S`, from every state. -/
def Moves (write : Bool) (offset : Nat) (S : Nat → Prop) (subtasks : List Subtask) : Prop :=
  ∀ s, ∃ t, performAll inst subtasks s = .ok t ∧ Moved write offset S s t

theorem performAll_append (first next : List Subtask) (s : State) :
    performAll inst (first ++ next) s = performAll inst first s >>= performAll inst next := by
  induction first generalizing s with
  | nil => rfl
  | cons subtask first ih =>
    rw [cons_append, performAll, performAll]
    cases perform inst subtask s with
    | error fault => rfl
    | ok t => exact ih t

namespace Moves

variable {S T : Nat → Prop} {first next : List Subtask}

theorem nil (none : ∀ i, ¬ S i) : Moves inst write offset S [] := fun s => ⟨s, rfl, .nothing none⟩

theorem append (a : Moves inst write offset S first) (b : Moves inst write offset T next) :
    Moves inst write offset (fun i => S i ∨ T i) (first ++ next) := by
  intro s
  obtain ⟨t, runA, movedA⟩ := a s
  obtain ⟨u, runB, movedB⟩ := b t
  refine ⟨u, ?_, movedA.trans movedB⟩
  rw [performAll_append, runA]
  exact runB

theorem congr (moves : Moves inst write offset S first) (same : ∀ i, S i ↔ T i) : Moves inst write offset T first :=
  fun s => (moves s).imp fun _ run => ⟨run.1, run.2.congr same⟩

theorem cons {subtask : Subtask} (a : Moves inst write offset S [subtask]) (b : Moves inst write offset T next) :
    Moves inst write offset (fun i => S i ∨ T i) (subtask :: next) := a.append b

end Moves

def Span (from_ len : Nat) (i : Nat) : Prop := from_ ≤ i ∧ i < from_ + len

theorem inShared_ok {α : Type} {size : Nat} {next : α} (fits : size ≤ inst.sharedSize) :
    inShared inst size next = .ok next := if_pos fits

theorem performAll_singleton {subtask : Subtask} {s t : State} (run : perform inst subtask s = .ok t) :
    performAll inst [subtask] s = .ok t := by
  rw [performAll, run]
  rfl

section Copies

variable {s t : State} {ptr length : Nat}

theorem moved_write (source : t.buffer = s.buffer)
    (disk : t.disk = s.disk.write (offset + ptr) (s.buffer.read ptr length)) :
    Moved true offset (Span ptr length) s t := by
  refine ⟨source, fun i mem => ?_, fun a out => ?_⟩
  · obtain ⟨lower, upper⟩ := mem
    simp only [if_true, disk, Store.write_read_apply]
    rw [if_pos (by omega)]
    congr 1
    omega
  · simp only [disk, Store.write_read_apply]
    refine if_neg fun inside => out (a - offset) ⟨?_, ?_⟩ ?_ <;> omega

theorem moved_read (disk : t.disk = s.disk)
    (buffer : t.buffer = s.buffer.write ptr (s.disk.read (offset + ptr) length)) :
    Moved false offset (Span ptr length) s t := by
  refine ⟨disk, fun i mem => ?_, fun i out => ?_⟩
  · obtain ⟨lower, upper⟩ := mem
    simp only [Bool.false_eq_true, if_false, buffer, Store.write_read_apply]
    rw [if_pos ⟨lower, upper⟩]
    congr 1
    omega
  · simp only [buffer, Store.write_read_apply]
    exact if_neg out

end Copies

theorem read_bounced (shared d : Store) (a n : Nat) : (shared.write 0 (d.read a n)).read 0 n = d.read a n := by
  have back := Store.read_write_self shared 0 (d.read a n)
  rwa [Store.length_read] at back

theorem moves_direct {lba length ptr : Nat} (whole : length % inst.size = 0) (place : lba * inst.size = offset + ptr) :
    Moves inst write offset (Span ptr length) [⟨write, lba, 0, length, .direct ptr⟩] := by
  intro s
  cases write with
  | true =>
    refine ⟨{ s with disk := s.disk.write (lba * inst.size) (s.buffer.read ptr length) }, performAll_singleton ?_,
      moved_write rfl (by rw [place])⟩
    simp only [perform, whole, true_or, if_true, performWrite, Subtask.transferSize]
  | false =>
    refine ⟨{ s with buffer := s.buffer.write ptr (s.disk.read (lba * inst.size) length) }, performAll_singleton ?_,
      moved_read rfl (by rw [place])⟩
    simp only [perform, whole, true_or, if_true, performRead, Subtask.transferSize, Bool.false_eq_true, if_false]

theorem moves_bounced {lba length ptr : Nat} (whole : length % inst.size = 0) (fits : length ≤ inst.sharedSize)
    (place : lba * inst.size = offset + ptr) :
    Moves inst write offset (Span ptr length) [⟨write, lba, 0, length, .bounced ptr⟩] := by
  intro s
  cases write with
  | true =>
    refine ⟨{ s with
        shared := s.shared.write 0 (s.buffer.read ptr length)
        disk := s.disk.write (lba * inst.size) ((s.shared.write 0 (s.buffer.read ptr length)).read 0 length) },
      performAll_singleton ?_, moved_write rfl (by rw [place, read_bounced])⟩
    simp only [perform, whole, true_or, if_true, performWrite, Subtask.transferSize, Nat.zero_add, inShared_ok fits]
    rfl
  | false =>
    refine ⟨{ s with
        shared := s.shared.write 0 (s.disk.read (lba * inst.size) length)
        buffer := s.buffer.write ptr ((s.shared.write 0 (s.disk.read (lba * inst.size) length)).read 0 length) },
      performAll_singleton ?_, moved_read rfl (by rw [place, read_bounced])⟩
    simp only [perform, whole, true_or, if_true, performRead, Subtask.transferSize, Nat.zero_add, inShared_ok fits,
      Bool.false_eq_true, if_false]
    rfl

theorem moves_partOfBlock {lba start length ptr : Nat} (some_ : 0 < length) (part : start + length ≤ inst.size)
    (proper : length < inst.size) (fits : inst.size ≤ inst.sharedSize)
    (place : lba * inst.size + start = offset + ptr) :
    Moves inst write offset (Span ptr length) (partOfBlock inst write lba start length ptr) := by
  intro s
  have split_ : length % inst.size ≠ 0 := by
    rw [Nat.mod_eq_of_lt proper]
    omega
  cases write with
  | true =>
    let block := (s.shared.write 0 (s.disk.read (lba * inst.size) inst.size)).write start (s.buffer.read ptr length)
    -- the rest of the block is written back as it was read
    have patched : s.disk.write (lba * inst.size) (block.read 0 inst.size) =
        s.disk.write (offset + ptr) (s.buffer.read ptr length) := by
      funext a
      simp only [Store.write_read_apply, block]
      split_ifs
      all_goals first | omega | congr 1; omega | rfl
    refine ⟨{ s with shared := block, disk := s.disk.write (lba * inst.size) (block.read 0 inst.size) }, ?_,
      moved_write rfl patched⟩
    simp only [partOfBlock, readBlock, if_true, singleton_append, performAll, perform, performRead, performWrite,
      Subtask.transferSize, Nat.mod_self, true_or, inShared_ok fits, if_neg split_, proper, or_true,
      inShared_ok (part.trans fits), Bool.false_eq_true, if_false]
    rfl
  | false =>
    let block := s.shared.write 0 (s.disk.read (lba * inst.size) inst.size)
    have taken : block.read start length = s.disk.read (offset + ptr) length := by
      rw [← Nat.zero_add start, Store.read_write_within _ _ (by rwa [Store.length_read]),
        Store.slice_read _ _ _ _ _ part, place]
    refine ⟨{ s with shared := block, buffer := s.buffer.write ptr (block.read start length) }, ?_,
      moved_read rfl (by rw [taken])⟩
    simp only [partOfBlock, readBlock, Bool.false_eq_true, if_false, nil_append, performAll, perform, performRead,
      Subtask.transferSize, inShared_ok fits, if_neg split_, proper, or_true, if_true, inShared_ok (part.trans fits)]
    rfl

/-! ### The loop over bounced blocks -/

theorem dataBufferSize_le_sharedSize (inst : Instance) : inst.dataBufferSize ≤ inst.sharedSize := by
  unfold Instance.sharedSize
  omega

theorem dataBufferSize_of_lt (small : dataBufferBlockNum * inst.size < 2 ^ 32) :
    inst.dataBufferSize = dataBufferBlockNum * inst.size := Nat.mod_eq_of_lt small

theorem chunk_eq {blocks left : Nat} (size : blocks * inst.size = left)
    (limit : dataBufferBlockNum * inst.size < 2 ^ 32 ∨ left ≤ inst.dataBufferSize) :
    min left inst.dataBufferSize = min blocks dataBufferBlockNum * inst.size := by
  by_cases small : dataBufferBlockNum * inst.size < 2 ^ 32
  · rw [dataBufferSize_of_lt small, ← size, Nat.mul_min_mul_right]
  · have fits := limit.resolve_left small
    have bound : inst.dataBufferSize < 2 ^ 32 := Nat.mod_lt _ (by decide)
    have few : blocks < dataBufferBlockNum := by
      refine Nat.lt_of_mul_lt_mul_right (a := inst.size) ?_
      omega
    rw [min_eq_left fits, min_eq_left few.le, size]

theorem moves_bounce {fuel lba overRunLba ptr left : Nat} (enough : overRunLba - lba < fuel)
    (size : (overRunLba - lba) * inst.size = left) (place : lba < overRunLba → lba * inst.size = offset + ptr)
    (limit : dataBufferBlockNum * inst.size < 2 ^ 32 ∨ left ≤ inst.dataBufferSize)
    (unwrapped : lba + dataBufferBlockNum * ((overRunLba - lba + 63) / dataBufferBlockNum) < 2 ^ 64) :
    ∃ subtasks, bounce inst write overRunLba fuel lba ptr left = .ok (subtasks, 0) ∧
      Moves inst write offset (Span ptr left) subtasks := by
  induction fuel generalizing lba ptr left with
  | zero => omega
  | succ fuel ih =>
    rw [bounce]
    by_cases more : lba < overRunLba
    · have chunk := chunk_eq size limit
      unfold dataBufferBlockNum at unwrapped
      have next : (lba + dataBufferBlockNum) % 2 ^ 64 = lba + dataBufferBlockNum := by
        unfold dataBufferBlockNum
        omega
      have rest : (overRunLba - (lba + dataBufferBlockNum)) * inst.size = left - min left inst.dataBufferSize := by
        rw [chunk, ← size, ← Nat.sub_mul]
        congr 1
        omega
      have place' : lba + dataBufferBlockNum < overRunLba →
          (lba + dataBufferBlockNum) * inst.size = offset + (ptr + min left inst.dataBufferSize) := by
        intro further
        rw [chunk, min_eq_right (by omega), Nat.add_mul, place more]
        omega
      obtain ⟨subtasks, run, moves⟩ := @ih (lba + dataBufferBlockNum) _ _ (by unfold dataBufferBlockNum; omega) rest
        place' (limit.imp_right fun fits => by omega) (by unfold dataBufferBlockNum; omega)
      have first : Moves inst write offset (Span ptr (min left inst.dataBufferSize))
          [⟨write, lba, 0, min left inst.dataBufferSize, .bounced ptr⟩] :=
        moves_bounced (by rw [chunk, Nat.mul_mod_left]) ((min_le_right _ _).trans (dataBufferSize_le_sharedSize inst))
          (place more)
      rw [if_pos more]
      dsimp only
      rw [next, run]
      refine ⟨_, rfl, (first.cons moves).congr fun i => ?_⟩
      unfold Span
      omega
    · have done : left = 0 := by
        rw [← size, Nat.sub_eq_zero_of_le (Nat.le_of_not_lt more), Nat.zero_mul]
      rw [if_neg more, done]
      exact ⟨[], rfl, .nil fun i mem => by unfold Span at mem; omega⟩

end Pieces

variable {inst : Instance} {write : Bool} {offset bufferSize address : Nat}

/-- The whole blocks need no working buffer, or chunks that are counted without overflow and reached without a wrap of
    the block address; parts of blocks fit into the working buffer. -/
structure Suited (inst : Instance) (offset bufferSize address : Nat) : Prop where
  parts : (request inst offset bufferSize).underRun ≠ 0 ∨ (request inst offset bufferSize).overRun ≠ 0 →
    inst.size ≤ inst.sharedSize
  blocks : 0 < (request inst offset bufferSize).blocks →
    (request inst offset bufferSize).first + (request inst offset bufferSize).blocks < 2 ^ 64
  chunks : 0 < (request inst offset bufferSize).blocks →
    inst.isAligned (address + (request inst offset bufferSize).length) = false →
    (dataBufferBlockNum * inst.size < 2 ^ 32 ∨
      (request inst offset bufferSize).blocks * inst.size ≤ inst.dataBufferSize) ∧
    (request inst offset bufferSize).first +
      dataBufferBlockNum * (((request inst offset bufferSize).blocks + 63) / dataBufferBlockNum) < 2 ^ 64

structure Cut (inst : Instance) (offset bufferSize : Nat) (r : Request) : Prop where
  place : offset = r.lba * inst.size + r.underRun
  under_lt : r.underRun < inst.size
  over_lt : r.overRun < inst.size
  total : bufferSize = r.length + r.blocks * inst.size + r.overRun
  length_le : r.underRun + r.length ≤ inst.size
  length_zero : r.underRun = 0 → r.length = 0
  length_pos : r.underRun ≠ 0 → 0 < bufferSize → 0 < r.length
  first_lt : r.first < 2 ^ 64
  first_place : 0 < r.blocks ∨ r.overRun ≠ 0 → r.first * inst.size = offset + r.length

theorem cut_request (inst : Instance) (bufferSize : Nat) (lt : offset < 2 ^ 64) :
    Cut inst offset bufferSize (request inst offset bufferSize) := by
  have pos : 0 < inst.size := inst.blockSize_pos
  have place : offset = offset / inst.size * inst.size + offset % inst.size := (Nat.div_add_mod' offset inst.size).symm
  have under_lt : offset % inst.size < inst.size := Nat.mod_lt _ pos
  have lba_le : offset / inst.size ≤ offset := Nat.div_le_self _ _
  have total (n : Nat) : n = n / inst.size * inst.size + n % inst.size := (Nat.div_add_mod' n inst.size).symm
  unfold request
  by_cases aligned : offset % inst.size = 0
  · simp only [aligned, if_true, Nat.sub_zero]
    constructor <;> dsimp only
    · omega
    · exact pos
    · exact Nat.mod_lt _ pos
    · have := total bufferSize
      omega
    · omega
    · exact fun _ => rfl
    · exact fun h => absurd rfl h
    · omega
    · omega
  · simp only [aligned, if_false]
    have wraps : (offset / inst.size + 1) % 2 ^ 64 = offset / inst.size + 1 := by
      refine Nat.mod_eq_of_lt ?_
      have two : 2 ≤ inst.size := by omega
      have : offset / inst.size ≤ offset / 2 := Nat.div_le_div_left two (by decide)
      omega
    constructor <;> dsimp only
    · exact place
    · exact under_lt
    · exact Nat.mod_lt _ pos
    · have := total (bufferSize - min (inst.size - offset % inst.size) bufferSize)
      omega
    · omega
    · exact fun h => absurd h aligned
    · intro _ some_
      omega
    · exact Nat.mod_lt _ (by decide)
    · intro more
      rw [wraps, Nat.add_mul, Nat.one_mul]
      have behind : inst.size - offset % inst.size ≤ bufferSize := by
        by_contra short
        have nothing : bufferSize - min (inst.size - offset % inst.size) bufferSize = 0 := by omega
        rw [nothing, Nat.zero_div, Nat.zero_mod] at more
        omega
      rw [min_eq_left behind]
      omega

theorem moves_empty {lba start ptr : Nat} :
    Moves inst write offset (Span 0 0) [⟨write, lba, start, 0, .direct ptr⟩] := by
  intro s
  have same (d e : Store) (ofs a : Nat) : d.write ofs (e.read a 0) = d := by
    funext i
    rw [Store.write_read_apply, if_neg (by omega)]
  refine ⟨s, performAll_singleton ?_, .nothing fun i mem => by unfold Span at mem; omega⟩
  cases write with
  | true => simp [perform, performWrite, Subtask.transferSize, same]
  | false => simp [perform, performRead, Subtask.transferSize, same]

theorem moves_wholeBlocks (write : Bool) {r : Request} (cut : Cut inst offset bufferSize r)
    (chunks : 0 < r.blocks → inst.isAligned (address + r.length) = false →
      (dataBufferBlockNum * inst.size < 2 ^ 32 ∨ r.blocks * inst.size ≤ inst.dataBufferSize) ∧
      r.first + dataBufferBlockNum * ((r.blocks + 63) / dataBufferBlockNum) < 2 ^ 64) :
    ∃ subtasks, wholeBlocks inst (r.blocks + 1) write r.first (r.first + r.blocks) r.length
      (r.blocks * inst.size) address =
        .ok (subtasks, 0) ∧ Moves inst write offset (Span r.length (r.blocks * inst.size)) subtasks := by
  unfold wholeBlocks
  by_cases some_ : 0 < r.blocks
  · rw [if_pos (by omega)]
    have place := cut.first_place (.inl some_)
    by_cases aligned : inst.isAligned (address + r.length) = true
    · rw [if_pos aligned]
      exact ⟨_, rfl, moves_direct (Nat.mul_mod_left _ _) place⟩
    · rw [if_neg aligned]
      obtain ⟨limit, unwrapped⟩ := chunks some_ (Bool.not_eq_true _ ▸ aligned)
      exact moves_bounce (by omega) (by rw [Nat.add_sub_cancel_left]) (fun _ => place) limit
        (by rw [Nat.add_sub_cancel_left]; exact unwrapped)
  · have none_ : r.blocks = 0 := by omega
    rw [none_, if_neg (by omega), Nat.zero_mul]
    exact ⟨[], rfl, .nil fun i mem => by unfold Span at mem; omega⟩

theorem moves_of_suited (lt : offset < 2 ^ 64) (suited : bufferSize = 0 ∨ Suited inst offset bufferSize address) :
    ∃ fuel subtasks, diskIoCreateSubtaskList inst fuel write offset bufferSize address = .ok subtasks ∧
      Moves inst write offset (Span 0 bufferSize) subtasks := by
  have cut := cut_request inst bufferSize lt
  unfold diskIoCreateSubtaskList
  by_cases empty : bufferSize = 0
  · simp only [empty, if_true]
    exact ⟨0, _, rfl, moves_empty⟩
  · obtain ⟨parts, blocks, chunks⟩ := suited.resolve_left empty
    generalize request inst offset bufferSize = r at cut parts blocks chunks
    simp only [empty, if_false]
    have total := cut.total
    have middle : bufferSize - r.length - r.overRun = r.blocks * inst.size := by omega
    have overRunLba : (r.first + r.blocks) % 2 ^ 64 = r.first + r.blocks := by
      have := cut.first_lt
      by_cases some_ : 0 < r.blocks
      · exact Nat.mod_eq_of_lt (blocks some_)
      · omega
    have under : Moves inst write offset (Span 0 r.length)
        (if r.underRun = 0 then [] else partOfBlock inst write r.lba r.underRun r.length 0) := by
      split
      next none_ => exact .nil fun i mem => by have := cut.length_zero none_; unfold Span at mem; omega
      next some_ =>
        have length_le := cut.length_le
        exact moves_partOfBlock (cut.length_pos some_ (Nat.pos_of_ne_zero empty)) length_le (by omega)
          (parts (.inl some_)) cut.place.symm
    have behind : Moves inst write offset (Span (r.length + r.blocks * inst.size) r.overRun)
        (if r.overRun = 0 then [] else
          partOfBlock inst write (r.first + r.blocks) 0 r.overRun (r.length + r.blocks * inst.size)) := by
      split
      next none_ => exact .nil fun i mem => by unfold Span at mem; omega
      next some_ =>
        refine moves_partOfBlock (Nat.pos_of_ne_zero some_) (by have := cut.over_lt; omega) cut.over_lt
          (parts (.inr some_)) ?_
        rw [Nat.add_mul, cut.first_place (.inr some_)]
        omega
    obtain ⟨whole, run, moves⟩ := moves_wholeBlocks write cut chunks
    refine ⟨r.blocks + 1, _, ?_, ((under.append behind).append moves).congr fun i => ?_⟩
    · rw [middle, overRunLba, run]
      rfl
    · unfold Span
      omega

/-! ### What a run that comes to its end says -/

theorem bounce_endless {first overRunLba : Nat}
    (never : ∀ v, v < 2 ^ 64 → v % dataBufferBlockNum = first % dataBufferBlockNum → v < overRunLba)
    (fuel : Nat) {v : Nat}
    (bound : v < 2 ^ 64) (stride : v % dataBufferBlockNum = first % dataBufferBlockNum) (ptr left : Nat) :
    bounce inst write overRunLba fuel v ptr left = .error .endless := by
  induction fuel generalizing v ptr left with
  | zero => rfl
  | succ fuel ih =>
    have stride' : (v + dataBufferBlockNum) % 2 ^ 64 % dataBufferBlockNum = first % dataBufferBlockNum := by
      unfold dataBufferBlockNum at stride ⊢
      omega
    rw [bounce, if_pos (never v bound stride)]
    dsimp only
    rw [ih (Nat.mod_lt _ (by decide)) stride']
    rfl

theorem bounce_left {overRunLba fuel v ptr left : Nat} {subtasks : List Subtask} {rest : Nat}
    (large : 2 ^ 32 ≤ dataBufferBlockNum * inst.size) (more : v < overRunLba)
    (size : (overRunLba - v) * inst.size ≤ left) (long : inst.dataBufferSize < left)
    (unwrapped : v + dataBufferBlockNum * ((overRunLba - v + 63) / dataBufferBlockNum) < 2 ^ 64)
    (run : bounce inst write overRunLba fuel v ptr left = .ok (subtasks, rest)) : 0 < rest := by
  induction fuel generalizing v ptr left subtasks with
  | zero => cases run
  | succ fuel ih =>
    unfold dataBufferBlockNum at unwrapped
    have next : (v + dataBufferBlockNum) % 2 ^ 64 = v + dataBufferBlockNum := by
      unfold dataBufferBlockNum
      omega
    have missing : inst.dataBufferSize + 2 ^ 32 ≤ dataBufferBlockNum * inst.size := by
      unfold Instance.dataBufferSize
      omega
    have bound : inst.dataBufferSize < 2 ^ 32 := Nat.mod_lt _ (by decide)
    rw [bounce, if_pos more] at run
    dsimp only at run
    rw [next, min_eq_right long.le] at run
    cases inner : bounce inst write overRunLba fuel (v + dataBufferBlockNum) (ptr + inst.dataBufferSize)
        (left - inst.dataBufferSize) with
    | error fault =>
      rw [inner] at run
      cases run
    | ok result =>
      obtain ⟨tail, rest'⟩ := result
      rw [inner] at run
      obtain ⟨_, rfl⟩ := Prod.mk.inj (Except.ok.inj run)
      by_cases further : v + dataBufferBlockNum < overRunLba
      · have blocks : (overRunLba - v) * inst.size =
            (overRunLba - (v + dataBufferBlockNum)) * inst.size + dataBufferBlockNum * inst.size := by
          rw [← Nat.add_mul]
          congr 1
          omega
        exact ih further (by omega) (by omega) (by unfold dataBufferBlockNum; omega) inner
      · cases fuel with
        | zero => cases inner
        | succ fuel =>
          rw [bounce, if_neg further] at inner
          obtain ⟨_, rfl⟩ := Prod.mk.inj (Except.ok.inj inner)
          omega

theorem chunks_of_wholeBlocks {r : Request} {fuel : Nat} {whole : List Subtask} (cut : Cut inst offset bufferSize r)
    (lt : bufferSize < 2 ^ 64) (some_ : 0 < r.blocks)
    (run : wholeBlocks inst fuel write r.first ((r.first + r.blocks) % 2 ^ 64) r.length (r.blocks * inst.size) address =
      .ok (whole, 0)) :
    r.first + r.blocks < 2 ^ 64 ∧ (inst.isAligned (address + r.length) = false →
      (dataBufferBlockNum * inst.size < 2 ^ 32 ∨ r.blocks * inst.size ≤ inst.dataBufferSize) ∧
      r.first + dataBufferBlockNum * ((r.blocks + 63) / dataBufferBlockNum) < 2 ^ 64) := by
  have first_lt := cut.first_lt
  have pos : 0 < inst.size := inst.blockSize_pos
  have bytes : 0 < r.blocks * inst.size := Nat.mul_pos some_ pos
  have blocks_le : r.blocks ≤ r.blocks * inst.size := Nat.le_mul_of_pos_right _ pos
  have total := cut.total
  unfold wholeBlocks at run
  have unwrapped : r.first + r.blocks < 2 ^ 64 := by
    by_contra wraps
    rw [if_neg (by omega)] at run
    obtain ⟨_, left⟩ := Prod.mk.inj (Except.ok.inj run)
    omega
  refine ⟨unwrapped, fun unaligned => ?_⟩
  rw [Nat.mod_eq_of_lt unwrapped, if_pos (by omega), unaligned, if_neg (by simp)] at run
  have reached : r.first + dataBufferBlockNum * ((r.blocks + 63) / dataBufferBlockNum) < 2 ^ 64 := by
    by_contra beyond
    have never : ∀ v, v < 2 ^ 64 → v % dataBufferBlockNum = r.first % dataBufferBlockNum → v < r.first + r.blocks := by
      unfold dataBufferBlockNum at beyond ⊢
      intro v bound stride
      omega
    rw [bounce_endless never fuel first_lt rfl] at run
    cases run
  refine ⟨?_, reached⟩
  by_contra over_
  push Not at over_
  have left := bounce_left over_.1 (by omega) (by rw [Nat.add_sub_cancel_left]) over_.2
    (by rw [Nat.add_sub_cancel_left]; exact reached) run
  exact absurd left (lt_irrefl 0)

theorem fits_of_performAll {subtasks : List Subtask} {s t : State} (run : performAll inst subtasks s = .ok t)
    {lba start length ptr : Nat} (mem : ⟨write, lba, start, length, .bounced ptr⟩ ∈ subtasks)
    (part : length % inst.size ≠ 0) : inst.size ≤ inst.sharedSize := by
  induction subtasks generalizing s with
  | nil => cases mem
  | cons subtask subtasks ih =>
    rw [performAll] at run
    cases done : perform inst subtask s with
    | error fault =>
      rw [done] at run
      cases run
    | ok u =>
      rw [done] at run
      rcases mem_cons.mp mem with rfl | mem
      · by_contra small
        unfold perform at done
        split at done
        · cases write with
          | true =>
            simp only [if_true, performWrite, Subtask.transferSize, if_neg part, inShared, if_neg small] at done
            split at done <;> cases done
          | false =>
            simp only [Bool.false_eq_true, if_false, performRead, Subtask.transferSize, if_neg part, inShared,
              if_neg small] at done
            cases done
        · cases done
      · exact ih run mem

theorem mem_partOfBlock {lba start length ptr : Nat} :
    ⟨write, lba, start, length, .bounced ptr⟩ ∈ partOfBlock inst write lba start length ptr :=
  mem_append_right _ (mem_singleton_self _)

theorem created_cases {fuel : Nat} {subtasks : List Subtask} {r : Request} (eq : request inst offset bufferSize = r)
    (cut : Cut inst offset bufferSize r) (some_ : bufferSize ≠ 0)
    (created : diskIoCreateSubtaskList inst fuel write offset bufferSize address = .ok subtasks) :
    ∃ whole, wholeBlocks inst fuel write r.first ((r.first + r.blocks) % 2 ^ 64) r.length
      (r.blocks * inst.size) address = .ok (whole, 0) ∧
      subtasks = (if r.underRun = 0 then [] else partOfBlock inst write r.lba r.underRun r.length 0) ++
        (if r.overRun = 0 then [] else
          partOfBlock inst write ((r.first + r.blocks) % 2 ^ 64) 0 r.overRun (r.length + r.blocks * inst.size)) ++
        whole := by
  have middle : bufferSize - r.length - r.overRun = r.blocks * inst.size := by
    have := cut.total
    omega
  unfold diskIoCreateSubtaskList at created
  rw [eq] at created
  simp only [some_, if_false] at created
  rw [middle] at created
  cases found : wholeBlocks inst fuel write r.first ((r.first + r.blocks) % 2 ^ 64) r.length (r.blocks * inst.size)
      address with
  | error fault =>
    rw [found] at created
    cases created
  | ok result =>
    obtain ⟨whole, left⟩ := result
    rw [found] at created
    change (if left = 0 then _ else _) = _ at created
    split at created
    next done =>
      obtain rfl := Except.ok.inj created
      exact ⟨whole, by rw [done], rfl⟩
    · cases created

theorem suited_of_run {fuel : Nat} {s t : State} (lt : offset < 2 ^ 64) (lt' : bufferSize < 2 ^ 64)
    (some_ : bufferSize ≠ 0) (run : diskIo2ReadWriteDisk inst fuel write offset bufferSize address s = .ok t) :
    Suited inst offset bufferSize address := by
  have cut := cut_request inst bufferSize lt
  unfold diskIo2ReadWriteDisk at run
  cases created : diskIoCreateSubtaskList inst fuel write offset bufferSize address with
  | error fault =>
    rw [created] at run
    cases run
  | ok subtasks =>
    rw [created] at run
    have performed : performAll inst subtasks s = .ok t := run
    obtain ⟨whole, blocks, rfl⟩ := created_cases rfl cut some_ created
    refine ⟨fun parts => ?_, fun more => (chunks_of_wholeBlocks cut lt' more blocks).1,
      fun more => (chunks_of_wholeBlocks cut lt' more blocks).2⟩
    have proper {n : Nat} (pos : 0 < n) (small : n < inst.size) : n % inst.size ≠ 0 := by
      rw [Nat.mod_eq_of_lt small]
      omega
    rcases parts with under | behind
    · have length_le := cut.length_le
      rw [if_neg under] at performed
      exact fits_of_performAll performed (mem_append_left _ (mem_append_left _ mem_partOfBlock))
        (proper (cut.length_pos under (Nat.pos_of_ne_zero some_)) (by omega))
    · rw [if_neg behind] at performed
      exact fits_of_performAll performed (mem_append_left _ (mem_append_right _ mem_partOfBlock))
        (proper (Nat.pos_of_ne_zero behind) cut.over_lt)

/-- Byte access comes to its end with exactly the bytes of the request moved if and only if the request is empty or
    suited. -/
theorem byte_access_iff (inst : Instance) (write : Bool) (offset bufferSize address : UInt64) :
    (∃ fuel, ∀ s, ∃ t, diskIo2ReadWriteDisk inst fuel write offset.toNat bufferSize.toNat address.toNat s = .ok t ∧
      Moved write offset.toNat (Span 0 bufferSize.toNat) s t) ↔
    bufferSize = 0 ∨ Suited inst offset.toNat bufferSize.toNat address.toNat := by
  have empty : bufferSize = 0 ↔ bufferSize.toNat = 0 := by
    rw [← UInt64.toNat_inj]
    rfl
  rw [empty]
  constructor
  · rintro ⟨fuel, moves⟩
    by_cases none_ : bufferSize.toNat = 0
    · exact .inl none_
    · obtain ⟨t, run, _⟩ := moves ⟨fun _ => 0, fun _ => 0, fun _ => 0⟩
      exact .inr (suited_of_run offset.toNat_lt bufferSize.toNat_lt none_ run)
  · intro suited
    obtain ⟨fuel, subtasks, created, moves⟩ := moves_of_suited offset.toNat_lt suited
    refine ⟨fuel, fun s => ?_⟩
    obtain ⟨t, run, moved⟩ := moves s
    refine ⟨t, ?_, moved⟩
    unfold diskIo2ReadWriteDisk
    rw [created]
    exact run

def largeBlocks : Instance where
  blockSize := 0x4080000
  ioAlign := 2
  blockSize_pos := by decide

/-- A whole block is not read into a buffer at an odd address. -/
theorem large_block_not_read : ¬ ∃ fuel, ∀ s, ∃ t, diskIo2ReadWriteDisk largeBlocks fuel false 0 0x4080000 1 s = .ok t ∧
      Moved false 0 (Span 0 0x4080000) s t := by
  rintro ⟨fuel, moves⟩
  obtain ⟨t, run, _⟩ := moves ⟨fun _ => 0, fun _ => 0, fun _ => 0⟩
  have suited := suited_of_run (by decide) (by decide) (by decide) run
  have limit := (suited.chunks (by decide) (by decide)).1
  revert limit
  decide

end LeoEdk.DiskIo
