import LeoEdk.Theorems.BankAddresses

/-! The file that the first-stage loader writes and starts, and the image in the SSBL slot. A call of `SBC_WriteFile`
    that fails may leave a smaller length for the next file system (`Leaves`). -/

namespace LeoEdk.Sbc.Banks

open Bytes Prog Fsbl

/-- The length at the start of the slot from which the loader takes the SSBL of a bank. -/
def slotLength (d : Store) (b : Nat) : Nat := leNat (d.read (ssblStartLba b * rawprtDfltBlkSz) 4)

def slotImage (d : Store) (b : Nat) : Bytes := d.read (ssblStartLba b * rawprtDfltBlkSz + 4) (slotLength d b)

theorem ssblLen_eq (d : Store) (b : Nat) : ssblLen d b = alignValue (slotLength d b) rawprtDfltBlkSz := by
  rw [ssblLen, slotLength]

theorem slotLength_lt (d : Store) (b : Nat) : slotLength d b < 2 ^ 32 := by
  have bound := leNat_lt (d.read (ssblStartLba b * rawprtDfltBlkSz) 4)
  rw [Store.length_read] at bound
  exact bound.trans_eq (by norm_num)

theorem le_alignValue_iff {n : Nat} (small : n < 2 ^ 32) (length : alignValue n rawprtDfltBlkSz ≠ 0) :
    n ≤ alignValue n rawprtDfltBlkSz - 4 ↔ 0 < n % rawprtDfltBlkSz ∧ n % rawprtDfltBlkSz ≤ rawprtDfltBlkSz - 4 := by
  rw [alignValue, rawprtDfltBlkSz] at *
  omega

theorem length_slotData (d : Store) (b : Nat) : (slotData d b).length = ssblLen d b - 4 := Store.length_read ..

/-- What `File->Write` leaves of the length on the file systems `k` up to `k + n`, the last one apart. -/
def Leaves (e : Env) (L k n : Nat) : Prop :=
  ∀ i, i + 1 < n → (∀ j ≤ i, (e.writeFile (k + j)).taken = false) →
    ∀ left, e.writeFile (k + i) = .written false left → L ≤ left.toNat

theorem leaves_of_taken {e : Env} {L k n : Nat} (taken : (e.writeFile k).taken = true) : Leaves e L k n := by
  intro i _ none
  have first : (e.writeFile k).taken = false := none 0 (Nat.zero_le i)
  rw [first] at taken
  cases taken

theorem leaves_succ {e : Env} {L k n : Nat} (none : (e.writeFile k).taken = false) : Leaves e L k (n + 1) ↔
    (0 < n → ∀ left, e.writeFile k = .written false left → L ≤ left.toNat) ∧ Leaves e L (k + 1) n := by
  constructor
  · intro all
    refine ⟨fun more left here => all 0 (by omega) (fun j le => ?_) left here, fun i lt none' left here => ?_⟩
    · obtain rfl : j = 0 := by omega
      exact none
    · rw [Nat.add_assoc, Nat.add_comm 1 i] at here
      refine all (i + 1) (by omega) (fun j le => ?_) left here
      cases j with
      | zero => exact none
      | succ j => rw [← none' j (by omega), Nat.add_assoc, Nat.add_comm 1 j]
  · rintro ⟨first, rest⟩ i lt none' left here
    cases i with
    | zero => exact first (by omega) left here
    | succ i =>
      rw [← Nat.add_assoc, Nat.add_right_comm] at here
      refine rest i (by omega) (fun j le => ?_) left here
      rw [← none' (j + 1) (by omega), ← Nat.add_assoc, Nat.add_right_comm]

/-- No call gets fewer than `L` bytes exactly if the first does not and no failed one leaves fewer for the next. -/
theorem lengths_ge_iff {e : Env} {L : Nat} (n : Nat) {k length : Nat} :
    (∀ m ∈ lengths e (List.range' k n) length, L ≤ m) ↔ (0 < n → L ≤ length) ∧ Leaves e L k n := by
  induction n generalizing k length with
  | zero => simp [lengths, Leaves]
  | succ n ih =>
    rw [List.range'_succ, lengths, List.forall_mem_cons]
    by_cases taken : (e.writeFile k).taken = true
    · simp [taken, leaves_of_taken taken]
    · have none := Bool.eq_false_iff.mpr taken
      rw [if_neg taken, ih, leaves_succ none]
      cases here : e.writeFile k with
      | unopened =>
        simp only [FileAnswer.left, Nat.succ_pos, true_imp_iff, reduceCtorEq, false_imp_iff, implies_true, true_and]
        exact ⟨fun all => ⟨all.1, all.2.2⟩, fun all => ⟨all.1, fun _ => all.1, all.2⟩⟩
      | written ok left =>
        obtain rfl : ok = false := by simpa [here, FileAnswer.taken] using none
        simp [FileAnswer.left]

/-- Every call of `SBC_WriteFile` gets the whole image exactly if the last block of the image has room for the four
    bytes of the length, and no call that fails leaves less than the image for the next file system. -/
theorem written_files_whole_iff (e : Env) (disk : Handle → Store) (h : Handle) (b : Nat) :
    (∀ file, .writeFile file ∈ loaderLog e disk h b →
        slotLength (disk h) b ≤ file.length ∧ file.take (slotLength (disk h) b) = slotImage (disk h) b) ↔
      (Reads e (disk h) b → 0 < e.fileSystems →
        (0 < slotLength (disk h) b % rawprtDfltBlkSz ∧
          slotLength (disk h) b % rawprtDfltBlkSz ≤ rawprtDfltBlkSz - 4) ∧
        ∀ i, i + 1 < e.fileSystems → (∀ j ≤ i, (e.writeFile j).taken = false) →
          ∀ left, e.writeFile i = .written false left → slotLength (disk h) b ≤ left.toNat) := by
  have leaves : Leaves e (slotLength (disk h) b) 0 e.fileSystems ↔ ∀ i, i + 1 < e.fileSystems →
      (∀ j ≤ i, (e.writeFile j).taken = false) → ∀ left, e.writeFile i = .written false left →
        slotLength (disk h) b ≤ left.toNat := by
    simp [Leaves]
  have whole (n : Nat) : slotLength (disk h) b ≤ ((slotData (disk h) b).take n).length ∧
      ((slotData (disk h) b).take n).take (slotLength (disk h) b) = slotImage (disk h) b ↔
      slotLength (disk h) b ≤ n ∧ slotLength (disk h) b ≤ ssblLen (disk h) b - 4 := by
    rw [List.length_take, length_slotData, le_min_iff, slotData, List.take_take, take_read, slotImage]
    refine ⟨fun all => all.1, fun all => ⟨all, ?_⟩⟩
    rw [min_eq_left (min_le_of_left_le all.2), min_eq_left all.1]
  simp only [writeFile_mem_loaderLog, ← leaves]
  constructor
  · intro all reads more
    have each (m : Nat) (mem : m ∈ lengths e (List.range' 0 e.fileSystems) (slotData (disk h) b).length) :=
      (whole m).mp (all _ ⟨reads, m, by rwa [List.range_eq_range'], rfl⟩)
    obtain ⟨first, left⟩ := (lengths_ge_iff e.fileSystems).mp fun m mem => (each m mem).1
    refine ⟨?_, left⟩
    have length := reads.length
    rw [length_slotData] at first
    rw [ssblLen_eq] at length first
    exact (le_alignValue_iff (slotLength_lt (disk h) b) length).mp (first more)
  · rintro all file ⟨reads, n, mem, rfl⟩
    have more : 0 < e.fileSystems := by
      by_contra none
      rw [Nat.eq_zero_of_not_pos none] at mem
      exact absurd mem List.not_mem_nil
    obtain ⟨room, left⟩ := all reads more
    have length := reads.length
    rw [ssblLen_eq] at length
    have fits := (le_alignValue_iff (slotLength_lt (disk h) b) length).mpr room
    rw [← ssblLen_eq] at fits
    rw [List.range_eq_range'] at mem
    refine (whole n).mpr ⟨(lengths_ge_iff e.fileSystems).mpr ⟨fun _ => ?_, left⟩ n mem, fits⟩
    rwa [length_slotData]

def slotDisk (n : Nat) : Handle → Store := fun _ =>
  Store.write (fun a => .ofNat a) (ssblStartLba 1 * rawprtDfltBlkSz) (leBytes 4 n)

theorem slotLength_slotDisk {n : Nat} (small : n < 2 ^ 32) : slotLength (slotDisk n 0) 1 = n := by
  have read := Store.read_write_self (fun a => .ofNat a) (ssblStartLba 1 * rawprtDfltBlkSz) (leBytes 4 n)
  rw [length_leBytes] at read
  rw [slotLength, slotDisk, read]
  exact leNat_leBytes_of_lt (small.trans_eq (by norm_num))

theorem ssblLen_slotDisk {n : Nat} (small : n < 2 ^ 32) : ssblLen (slotDisk n 0) 1 = alignValue n rawprtDfltBlkSz := by
  rw [ssblLen_eq, slotLength_slotDisk small]

/-- Two file systems; the first fails to take the file and leaves 300 bytes of its length. -/
def secondTakes : Env :=
  { Env.refusing [] with
    fileSystems := 2
    writeFile i := if i = 0 then .written false 300 else .written true 300 }

/-- An image of 100 bytes is passed whole, 508 bytes to the first file system and 300 to the second. -/
theorem written_files_hundred : lengths secondTakes (List.range 2) 508 = [508, 300] ∧
    ∀ file, .writeFile file ∈ loaderLog secondTakes (slotDisk 100) 0 1 →
      slotLength (slotDisk 100 0) 1 ≤ file.length ∧
        file.take (slotLength (slotDisk 100 0) 1) = slotImage (slotDisk 100 0) 1 := by
  refine ⟨by decide, (written_files_whole_iff secondTakes (slotDisk 100) 0 1).mpr fun _ _ => ?_⟩
  rw [slotLength_slotDisk (by norm_num)]
  refine ⟨by decide, fun i lt none left here => ?_⟩
  obtain rfl : i = 0 := by
    have two : i + 1 < 2 := lt
    omega
  cases here
  decide

/-- An image of 512 bytes loses its last four bytes. -/
theorem written_file_short : slotLength (slotDisk 512 0) 1 = 512 ∧
    ∃ file, .writeFile file ∈ loaderLog (Env.refusing []) (slotDisk 512) 0 1 ∧ file.length = 508 := by
  have length : ssblLen (slotDisk 512 0) 1 = 512 := by
    rw [ssblLen_slotDisk (by norm_num)]
    decide
  have reads : Reads (Env.refusing []) (slotDisk 512 0) 1 :=
    ⟨by decide, by decide, by decide, by rw [length]; decide, by decide⟩
  have data : (slotData (slotDisk 512 0) 1).length = 508 := by rw [length_slotData, length]
  refine ⟨slotLength_slotDisk (by norm_num), (slotData (slotDisk 512 0) 1).take 508,
    (writeFile_mem_loaderLog ..).mpr ⟨reads, 508, ?_, rfl⟩, ?_⟩
  · rw [data]
    decide
  · rw [List.length_take, data, min_self]

end LeoEdk.Sbc.Banks
