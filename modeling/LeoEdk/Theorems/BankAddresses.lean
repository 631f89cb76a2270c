import LeoEdk.Theorems.FsblChain
import LeoEdk.Theorems.MigrationKey

/-! Where the SSBL of a bank is on the disk, for the loader, the verifier, the measurement and the migration key. -/

namespace LeoEdk.Sbc.Banks

open Bytes Prog Fsbl Migration List

def ReadsAt (lba : Nat) (log : List Event) : Prop :=
  (∃ len, .readBlocks lba len ∈ log) ∧ ∀ l len, .readBlocks l len ∈ log → l = lba

theorem readsAt_one (lba len : Nat) : ReadsAt lba [.readBlocks lba len] := by simp [ReadsAt]

theorem ReadsAt.append {lba : Nat} {log : List Event} (h : ReadsAt lba log) (evs : List Event)
    (rest : ∀ l len, .readBlocks l len ∈ evs → l = lba) : ReadsAt lba (log ++ evs) := by
  obtain ⟨⟨len, mem⟩, all⟩ := h
  refine ⟨⟨len, mem_append_left _ mem⟩, fun l len mem => ?_⟩
  rcases mem_append.mp mem with old | new
  · exact all l len old
  · exact rest l len new

theorem readsAt_two (lba len len' : Nat) : ReadsAt lba [.readBlocks lba len, .readBlocks lba len'] :=
  (readsAt_one lba len).append [_] fun l len h => by simp_all

section Runs

variable (e : Env) (disk : Handle → Store) (h : Handle) {b : Nat}

def loaderLog (b : Nat) : List Event := ((bootModeNormalAndpUdate (some h) b).final e ⟨disk, []⟩).log

def verifierLog (b : Nat) : List Event := ((ssblVerify (some h) b).final e ⟨disk, []⟩).log

def measurementLog (b : Nat) : List Event := ((ssblImageLoad (some h) b).final e ⟨disk, []⟩).log

def keyLog (b p : Nat) : List Event := ((genMigrationKey (some h) b p).final e ⟨disk, []⟩).log

theorem logs_readsAt :
    ReadsAt (ssblStartLba b) (verifierLog e disk h b) ∧ ReadsAt (ssblStartLba b) (measurementLog e disk h b) := by
  constructor
  all_goals
    refine (wp_final (P := fun w : World => ReadsAt (ssblStartLba b) w.log)).mp ?_
    simp only [ssblVerify, ssblImageLoad, wp_bind, wp_rawPrtReadBlock_some, if_neg blkSz_ne_zero, wp_ite, wp_pure,
      wp_granted, World.note_note, ne_eq, not_true_eq_false, reduceCtorEq, not_false_eq_true, ↓reduceIte]
    generalize alignValue _ _ = imglen
    split_ifs
    · exact readsAt_one ..
    · exact readsAt_one ..
    · exact readsAt_two ..
    · exact readsAt_two ..
    · exact readsAt_one ..

/-- What the loader has behind the length of the image in memory. -/
def slotData (d : Store) (b : Nat) : Bytes := d.read (ssblStartLba b * rawprtDfltBlkSz + 4) (ssblLen d b - 4)

def readEvents (d : Store) (b : Nat) : List Event :=
  [.readBlocks (ssblStartLba b) rawprtDfltBlkSz, .readBlocks (ssblStartLba b) (ssblLen d b)]

theorem loaderLog_of_reads (reads : Reads e (disk h) b) : ∃ post, loaderLog e disk h b = readEvents (disk h) b ++
      (fileEvents e (slotData (disk h) b) (range e.fileSystems) (slotData (disk h) b).length ++ post) ∧
    (Loads e (disk h) b ∧ post = .startSsbl :: startEvents e ∨ ¬Loads e (disk h) b ∧ post = []) := by
  refine (wp_final (P := fun w : World => ∃ post, w.log = readEvents (disk h) b ++
    (fileEvents e (slotData (disk h) b) (range e.fileSystems) (slotData (disk h) b).length ++ post) ∧
      (Loads e (disk h) b ∧ post = .startSsbl :: startEvents e ∨ ¬Loads e (disk h) b ∧ post = []))).mp ?_
  refine wp_bootModeNormalAndpUdate (fun _ => ?_) fun unread => absurd reads unread
  refine wp_writeAndStart (fun file st w' log => ?_) fun none st w' log => ?_
  · exact ⟨_, log, .inl ⟨⟨reads, file⟩, rfl⟩⟩
  · exact ⟨[], by rw [append_nil]; exact log, .inr ⟨fun loads => none loads.file, rfl⟩⟩

theorem loaderLog_of_not_reads (unread : ¬Reads e (disk h) b) :
    ∃ lens, (lens = [] → ¬(0 < b ∧ b < 3)) ∧ loaderLog e disk h b = lens.map (.readBlocks (ssblStartLba b)) := by
  refine (wp_final (P := fun w : World => ∃ lens, (lens = [] → ¬(0 < b ∧ b < 3)) ∧
    w.log = lens.map (.readBlocks (ssblStartLba b)))).mp ?_
  exact wp_bootModeNormalAndpUdate (fun reads => absurd reads unread) fun _ _ lens some_ => ⟨lens, some_, rfl⟩

theorem loaderLog_readsAt (hb : 0 < b ∧ b < 3) : ReadsAt (ssblStartLba b) (loaderLog e disk h b) := by
  by_cases reads : Reads e (disk h) b
  · obtain ⟨post, log, tail⟩ := loaderLog_of_reads e disk h reads
    rw [log]
    refine (readsAt_two ..).append _ fun l len mem => ?_
    rcases mem_append.mp mem with file | start
    · simp [fileEvents] at file
    · rcases tail with ⟨-, rfl⟩ | ⟨-, rfl⟩
      · unfold startEvents at start
        split at start <;> simp at start
      · exact absurd start not_mem_nil
  · obtain ⟨lens, some_, log⟩ := loaderLog_of_not_reads e disk h reads
    rw [log]
    refine ⟨?_, fun l len mem => ?_⟩
    · obtain ⟨len, mem⟩ := exists_mem_of_ne_nil lens fun none => some_ none hb
      exact ⟨len, mem_map_of_mem mem⟩
    · obtain ⟨len', -, same⟩ := mem_map.mp mem
      cases same
      rfl

theorem writeFile_mem_loaderLog {file : Bytes} : .writeFile file ∈ loaderLog e disk h b ↔ Reads e (disk h) b ∧
    ∃ n ∈ lengths e (range e.fileSystems) (slotData (disk h) b).length, file = (slotData (disk h) b).take n := by
  by_cases reads : Reads e (disk h) b
  · obtain ⟨post, log, tail⟩ := loaderLog_of_reads e disk h reads
    have none : Event.writeFile file ∉ post := by
      rcases tail with ⟨-, rfl⟩ | ⟨-, rfl⟩
      · unfold startEvents
        split <;> simp
      · exact not_mem_nil
    simp [log, readEvents, none, reads, fileEvents, eq_comm]
  · obtain ⟨lens, -, log⟩ := loaderLog_of_not_reads e disk h reads
    simp [log, reads]

theorem startImage_mem_loaderLog {image : Bytes} : .startImage image ∈ loaderLog e disk h b ↔
    Loads e (disk h) b ∧ findFile e.ssblFile e.fileSystems = some image := by
  by_cases reads : Reads e (disk h) b
  · obtain ⟨post, log, tail⟩ := loaderLog_of_reads e disk h reads
    rw [log]
    rcases tail with ⟨loads, rfl⟩ | ⟨loads, rfl⟩
    · unfold startEvents
      split
      next none => simp [readEvents, fileEvents, none]
      next found => simp [readEvents, fileEvents, found, loads, eq_comm]
    · simp [readEvents, fileEvents, loads]
  · obtain ⟨lens, -, log⟩ := loaderLog_of_not_reads e disk h reads
    simp [log, show ¬Loads e (disk h) b from fun loads => reads loads.toReads]

def ReadsBank (b : Nat) (w : World) : Prop :=
  ∀ lba, .readBlocks lba bootFwImgmax ∈ w.log → lba = bankStartAddr b >>> rawprtDfltShift

theorem readsBank_nil : ReadsBank b ⟨disk, []⟩ := fun _ mem => absurd mem not_mem_nil

theorem readsBank_hashed (w : World) (m : Bytes) : ReadsBank b (w.note [.hashed m]) ↔ ReadsBank b w := by
  simp [ReadsBank]

theorem readsBank_bank (w : World) :
    ReadsBank b (w.note [.readBlocks (bankStartAddr b >>> rawprtDfltShift) bootFwImgmax]) ↔ ReadsBank b w := by
  simp only [ReadsBank, World.note_log, mem_append, mem_singleton]
  exact ⟨fun all lba mem => all lba (.inl mem), fun all lba mem => mem.elim (all lba) fun same => by cases same; rfl⟩

theorem readsBank_block (w : World) (lba : Nat) :
    ReadsBank b (w.note [.readBlocks lba rawprtDfltBlkSz]) ↔ ReadsBank b w := by
  have other : bootFwImgmax ≠ rawprtDfltBlkSz := by decide
  simp [ReadsBank, other]

theorem keyLog_reads (hb : b = 1 ∨ b = 2) {p lba : Nat} (read : .readBlocks lba bootFwImgmax ∈ keyLog e disk h b p) :
    lba * rawprtDfltBlkSz = bootSectorOfs b := by
  have all : ReadsBank b ((genMigrationKey (some h) b p).final e ⟨disk, []⟩) := by
    refine wp_final.mp ?_
    simp only [genMigrationKey, reduceCtorEq, ↓reduceIte, wp_bind, wp_ask, wp_granted, wp_ite, wp_pure, wp_hashCompute,
      wp_rawPrtReadBlock_some, alignValue_bootFwImgmax, alignValue_sizeofPtr, if_neg blkSz_ne_zero,
      if_neg bootFwImgmax_ne_zero, bankStartAddr_eq hb, World.note_disk, hashMbrImage_stale (disk h) _ _ ssbl_behind,
      hashMbrImage_stale (disk h) _ _ os_behind, wp_hashMbrImage (disk h) fsbl_inside,
      wp_hashMbrImage (disk h) ssbl_inside, wp_hashMbrImage (disk h) os_inside, readsBank_hashed, readsBank_bank,
      readsBank_block, readsBank_nil, ne_eq, not_true_eq_false, not_false_eq_true, ite_self]
  rw [all lba read, bankStartAddr_eq hb]

end Runs

/-- The SSBL of bank `b` is loaded, verified and measured where the migration key finds it, the file that the loader
    writes is taken from there, and the image that it starts is the image that is hashed. -/
structure AddressesAgree (e : Env) (disk : Handle → Store) (h : Handle) (b : Nat) : Prop where
  loaded : ∀ lba len, .readBlocks lba len ∈ loaderLog e disk h b → lba * rawprtDfltBlkSz = bootSectorOfs b + bootSsblOfs
  verified : ∀ lba len, .readBlocks lba len ∈ verifierLog e disk h b →
    lba * rawprtDfltBlkSz = bootSectorOfs b + bootSsblOfs
  measured : ∀ lba len, .readBlocks lba len ∈ measurementLog e disk h b →
    lba * rawprtDfltBlkSz = bootSectorOfs b + bootSsblOfs
  hashed : ∀ p lba, .readBlocks lba bootFwImgmax ∈ keyLog e disk h b p → lba * rawprtDfltBlkSz = bootSectorOfs b
  written : ∀ file, .writeFile file ∈ loaderLog e disk h b →
    file = (disk h).read (bootSectorOfs b + bootSsblOfs + 4) file.length
  booted : ∀ image, .startImage image ∈ loaderLog e disk h b → image = mbrImage (disk h) b bootSsblOfs

theorem take_read (d : Store) (ofs m n : Nat) : (d.read ofs n).take m = d.read ofs (min m n) := by
  have front := Store.slice_read d ofs n 0 (min m n) (by omega)
  rw [Nat.add_zero, slice, drop_zero] at front
  rw [take_eq_take_min, Store.length_read, front]

theorem not_agree_two (e : Env) (disk : Handle → Store) (h : Handle) : ¬AddressesAgree e disk h 2 := by
  intro agree
  have elsewhere : ssblStartLba 2 * rawprtDfltBlkSz ≠ bootSectorOfs 2 + bootSsblOfs := by decide
  obtain ⟨⟨len, mem⟩, -⟩ := loaderLog_readsAt e disk h (by decide : 0 < 2 ∧ 2 < 3)
  exact elsewhere (agree.loaded _ len mem)

/-- The offsets agree for bank 1 only, and there the image that is started is a file that the loader has not written. -/
theorem bankAddresses_agree_iff (e : Env) (disk : Handle → Store) (h : Handle) (b : Nat) (hb : b = 1 ∨ b = 2) :
    AddressesAgree e disk h b ↔ b = 1 ∧ (Loads e (disk h) 1 →
      ∀ image, findFile e.ssblFile e.fileSystems = some image → image = mbrImage (disk h) 1 bootSsblOfs) := by
  have start : ssblStartLba 1 * rawprtDfltBlkSz = bootSectorOfs 1 + bootSsblOfs := by decide
  rcases hb with rfl | rfl
  · constructor
    · intro agree
      exact ⟨rfl, fun loads image found => agree.booted image ((startImage_mem_loaderLog e disk h).mpr ⟨loads, found⟩)⟩
    · rintro ⟨-, same⟩
      refine ⟨fun lba len mem => ?_, fun lba len mem => ?_, fun lba len mem => ?_,
        fun p lba mem => keyLog_reads e disk h (.inl rfl) mem, fun file mem => ?_, fun image mem => ?_⟩
      · rw [(loaderLog_readsAt e disk h (by decide)).2 lba len mem, start]
      · rw [(logs_readsAt e disk h).1.2 lba len mem, start]
      · rw [(logs_readsAt e disk h).2.2 lba len mem, start]
      · obtain ⟨-, n, -, rfl⟩ := (writeFile_mem_loaderLog e disk h).mp mem
        rw [slotData, take_read, start, Store.length_read]
      · obtain ⟨loads, found⟩ := (startImage_mem_loaderLog e disk h).mp mem
        exact same loads image found
  · exact iff_of_false (not_agree_two e disk h) fun only => absurd only.1 (by decide)

/-- The platform has the image of bank 1 as `SSBL.efi`. -/
theorem bank_one_agrees : AddressesAgree (Env.refusing []) (sampleDisk 0x54 0x4B) 0 1 := by
  refine (bankAddresses_agree_iff (Env.refusing []) (sampleDisk 0x54 0x4B) 0 1 (.inl rfl)).mpr
    ⟨rfl, fun _ image found => ?_⟩
  have file : findFile (Env.refusing []).ssblFile (Env.refusing []).fileSystems = some [0x53] := rfl
  rw [file, Option.some.injEq] at found
  rw [← found]
  decide

theorem bank_two_elsewhere : ¬AddressesAgree (Env.refusing []) (sampleDisk 0x54 0x4B) 0 2 :=
  not_agree_two (Env.refusing []) (sampleDisk 0x54 0x4B) 0

end LeoEdk.Sbc.Banks
