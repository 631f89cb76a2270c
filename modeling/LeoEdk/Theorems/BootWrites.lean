import LeoEdk.Theorems.FsblChain
import LeoEdk.Theorems.Reboots

/-! What the loaders write: block 0 and the system settings, and never a firmware bank. `Spares` (SSBL) and `Stored`
    (FSBL) relate the disks before and after a program; each step keeps to them, and so does every series of boots. -/

namespace LeoEdk.Sbc

open Prog

/-- The banks are the same, and so are the headers but for the modes. -/
structure SameFirmware (d d' : Store) : Prop where
  header : (RawprtHdr.ofStore d').withModes 0 0 = (RawprtHdr.ofStore d).withModes 0 0
  banks : ∀ x, bootSector1Ofs ≤ x → x < sysConfStartOfs → d' x = d x

theorem SameFirmware.refl (d : Store) : SameFirmware d d := ⟨rfl, fun _ _ _ => rfl⟩

theorem SameFirmware.trans {d d' d'' : Store} (first : SameFirmware d d') (next : SameFirmware d' d'') :
    SameFirmware d d'' :=
  ⟨next.header.trans first.header, fun x le lt => (next.banks x le lt).trans (first.banks x le lt)⟩

/-- The header that the boot keeps in memory is that of the disk, but for the modes. -/
def BootProc.Mirrors (bp : BootProc) (w : World) : Prop :=
  ∀ h, bp.blkhnd = some h → (RawprtHdr.ofStore (w.disk h)).withModes 0 0 = bp.rawprtHdr.withModes 0 0

def Spares (bp : BootProc) (w w' : World) : Prop := bp.Mirrors w → ∀ h, SameFirmware (w.disk h) (w'.disk h)

instance (bp : BootProc) : Std.Refl (Spares bp) := ⟨fun _ _ _ => .refl _⟩

instance (bp : BootProc) : IsTrans World (Spares bp) where
  trans u v w first next mirrors h := by
    have kept := first mirrors
    exact (kept h).trans (next (fun k blk => (kept k).header.trans (mirrors k blk)) h)

/-! ### SSBL -/

section Ssbl

variable {bp : BootProc} {e : Env} {site : Site} {h : Handle} {wrbuf : Bytes} {lba : Nat}

theorem spares_emit {ev : Event} : Within (Spares bp) e (emit ev) := fun _ _ _ => .refl _

theorem spares_read {rdlen : Nat} : Within (Spares bp) e (rawPrtReadBlock site (some h) rdlen lba) := by
  refine .ite (.pure _) (.bind spares_emit fun _ => .bind (.ask _) fun _ => ?_)
  exact .ite (.bind .get fun _ => .pure _) (.pure _)

theorem spares_write (here : ∀ w, bp.Mirrors w →
    SameFirmware (w.disk h) ((w.disk h).write (lba * rawprtDfltBlkSz) wrbuf)) :
    Within (Spares bp) e (rawPrtBlockWrite site (some h) wrbuf lba) := by
  refine .ite (.pure _) (.bind spares_emit fun _ => .bind (.ask _) fun _ => .ite ?_ (.pure _))
  refine .bind (.modify ?_) fun _ => .pure _
  intro w mirrors k
  by_cases same : k = h
  · subst same
    rw [World.write_disk_self]
    exact here w mirrors
  · rw [World.write]
    simp only [Function.update_of_ne same]
    exact .refl _

theorem spares_bootKeyModeChange {newbm : BootMode} {newkey : KeyMode} :
    Within (Spares bp) e (bootKeyModeChange site newbm newkey (some bp)) := by
  refine .bind ?_ fun _ => .bind spares_emit fun _ => .pure _
  cases blk : bp.blkhnd with
  | none => exact .pure _
  | some h =>
    refine spares_write fun w mirrors => ⟨?_, fun x le _ => ?_⟩
    · rw [Nat.zero_mul, RawprtHdr.ofStore_write]
      exact (mirrors h blk).symm
    · rw [Store.write, if_neg]
      simp only [List.length_append, RawprtHdr.length_toBytes, List.length_replicate]
      rw [bootSector1Ofs] at le
      omega

theorem spares_baseAnswerEncryptStore {key : IdKey} : Within (Spares bp) e (baseAnswerEncryptStore bp.blkhnd key) := by
  refine .bind (.ask _) fun iv => .option (.ask _) (.pure _) fun (encmsg, tag) => ?_
  cases bp.blkhnd with
  | none => exact .pure _
  | some h =>
    refine .bind (.ask _) fun _ => .ite (.pure _) (.bind spares_read fun _ => .ite (.pure _) ?_)
    refine spares_write fun w _ => ⟨?_, fun x _ lt => ?_⟩
    · refine congrArg (·.withModes 0 0) (RawprtHdr.ofStore_congr fun a n le => Store.read_write_of_disjoint (.inl ?_))
      exact Nat.le_trans le (by decide)
    · rw [Store.write, if_neg]
      exact fun inside => absurd (Nat.lt_of_lt_of_le lt (by decide)) (Nat.not_lt.mpr inside.1)

theorem spares_secureBootCheck : Within (Spares bp) e (secureBootCheck bp) := by
  have change {site newbm newkey} : Within (Spares bp) e (do let _ ← bootKeyModeChange site newbm newkey (some bp)) :=
    .bind spares_bootKeyModeChange fun _ => .pure _
  have update : Within (Spares bp) e (updateBehaviorForKm bp) := by
    unfold updateBehaviorForKm
    cases bp.bootst with
    | abnram => exact .pure _
    | nrma => exact spares_baseAnswerEncryptStore
    | unknown => exact .pure _
  have recovery : Within (Spares bp) e (recoveryBootProcessing bp) := by
    refine .ite (.bind spares_bootKeyModeChange fun _ => .halt _) (.ite (.halt _) ?_)
    refine .bind spares_baseAnswerEncryptStore fun _ => .ite (.halt _) ?_
    exact .bind spares_bootKeyModeChange fun _ => .ite (.halt _) (.halt _)
  refine .bind ?_ fun _ => .bind (.ite (.ite (.bind ?_ fun _ => .halt _) (.pure _)) (.pure _)) fun _ => .pure _
  · unfold secureBootMode
    split
    · exact .ite (.bind (.ite change (.pure _)) fun _ => .halt _) (.pure _)
    · exact .bind recovery fun _ => .pure _
    · unfold updateBootPorcsesing
      split
      · exact update
      · exact update
      · exact .pure _
      · exact .pure _
    · exact .pure _
  · unfold updateResetModeChange
    cases bp.bootst with
    | nrma => exact change
    | abnram => exact change
    | unknown => exact .pure _

theorem spares_modeHandler {fileRdBm : Bool} {bootmd : Nat} :
    Within (Spares bp) e (Ssbl.modeHandler fileRdBm bootmd bp) := by
  have traced {s : Step} {m : Boot Status} (spares : Within (Spares bp) e m) : Within (Spares bp) e (traced s m) :=
    .bind spares fun _ => .bind spares_emit fun _ => .pure _
  have check := traced (s := .secureBootCheck) spares_secureBootCheck
  unfold Ssbl.modeHandler
  split
  · exact .ite (.bind spares_bootKeyModeChange fun _ => check) check
  · exact traced (.halt _)
  · refine .bind (traced (.ask _)) fun _ => .ite (.pure _) ?_
    cases fileRdBm with
    | false => exact check
    | true =>
      -- The modes that the boot-mode file asks for are not those of the header.
      exact traced (@spares_secureBootCheck { bp with bm := BootMode.update.code, km := KeyMode.normal.code } e)
  · exact check
  · exact .pure _

theorem Ssbl.sameFirmware (fileRdBm : Bool) (e : Env) (disk : Handle → Store) (h : Handle) :
    SameFirmware (disk h) (((Ssbl.uefiMain fileRdBm).final e ⟨disk, []⟩).disk h) := by
  refine (wp_final (P := fun w : World => SameFirmware (disk h) (w.disk h))).mp ?_
  by_cases pass : Ssbl.ChecksPass e disk
  · obtain ⟨k, scan⟩ := blkIoScan_ok pass.blkIoHandleInit
    have mirrors : (Ssbl.bootProc (some k) (RawprtHdr.ofStore (disk k))).Mirrors ⟨disk, Ssbl.checkEvents e disk⟩ := by
      rintro _ ⟨⟩
      rfl
    rw [Ssbl.wp_uefiMain_of_checksPass pass, Ssbl.header, scan]
    refine wp_mono (fun st w spares => ?_) (fun _ _ spares => spares mirrors h) (spares_modeHandler _)
    split <;> exact spares mirrors h
  · exact Ssbl.wp_uefiMain_of_not_checksPass pass fun _ _ => .refl _

end Ssbl

/-! ### FSBL -/

/-- What a series of `SBC_WriteFile` calls does to the disks. -/
def storeFiles (e : Env) (files : List (Nat × Bytes)) (disk : Handle → Store) : Handle → Store :=
  files.foldl (fun disk file => e.storeFile file.1 file.2 disk) disk

/-- The disks have changed by writes of files only. -/
def Stored (e : Env) (w w' : World) : Prop := ∃ files, w'.disk = storeFiles e files w.disk

instance (e : Env) : Std.Refl (Stored e) := ⟨fun _ => ⟨[], rfl⟩⟩

instance (e : Env) : IsTrans World (Stored e) where
  trans u v w := by
    rintro ⟨first, at_v⟩ ⟨next, at_w⟩
    exact ⟨first ++ next, by rw [at_w, at_v, storeFiles, storeFiles, storeFiles, List.foldl_append]⟩

namespace Fsbl

variable {e : Env} {site : Site} {blkio : Option Handle} {hdr : RawprtHdr} {bank : Nat} {deckey : IdKey}

theorem stored_emit {ev : Event} : Within (Stored e) e (emit ev) := fun _ => ⟨[], rfl⟩

theorem stored_traced {s : Step} {m : Boot Status} (stored : Within (Stored e) e m) :
    Within (Stored e) e (traced s m) :=
  .bind stored fun _ => .bind stored_emit fun _ => .pure _

theorem stored_step {s : Step} : Within (Stored e) e (step s) := stored_traced (.ask _)

theorem stored_read {rdlen lba : Nat} : Within (Stored e) e (rawPrtReadBlock site blkio rdlen lba) := by
  cases blkio with
  | none => exact .pure _
  | some h =>
    refine .ite (.pure _) (.bind stored_emit fun _ => .bind (.ask _) fun _ => ?_)
    exact .ite (.bind .get fun _ => .pure _) (.pure _)

theorem stored_writeKeyModeNormal : Within (Stored e) e (writeKeyModeNormal site blkio hdr) := by
  refine .ite (.bind (.ite (.pure _) ?_) fun _ => .pure _) (.pure _)
  cases blkio with
  | none => exact .halt _
  | some h =>
    -- The header is less than a block, so `WriteBlocks` refuses it.
    refine .bind stored_emit fun _ => .bind (.ask _) fun _ => ?_
    rw [if_neg fun fits => absurd fits.2 (by rw [RawprtHdr.length_toBytes]; decide)]
    exact .pure _

theorem stored_writeSsblFile {value : Bytes} {systems : List Nat} {length : Nat} :
    Within (Stored e) e (writeSsblFile value systems length) := by
  induction systems generalizing length with
  | nil => exact .pure _
  | cons fs rest ih =>
    refine .bind (.bind stored_emit fun _ => ?_) fun _ => .ite (.pure _) ih
    -- The disks change as the environment says for this very call.
    intro w
    exact ⟨[(fs, value.take length)], rfl⟩

theorem stored_ssblLoadAndStart : Within (Stored e) e ssblLoadAndStart :=
  .bind stored_emit fun _ => stored_traced (.option (.ask _) (.pure _) fun _ => .bind stored_emit fun _ => .pure _)

theorem stored_verifyAndBoot : Within (Stored e) e (verifyAndBoot blkio bank deckey) := by
  have write {wrlv : Bytes} : Within (Stored e) e (writeAndStart wrlv) :=
    .bind (.ask _) fun _ => .ite (.pure _) (.bind stored_writeSsblFile fun _ => .ite (.pure _) stored_ssblLoadAndStart)
  have verify : Within (Stored e) e (ssblVerify blkio bank) := by
    refine .bind stored_read fun _ => .ite (.pure _) (.bind (.ask _) fun _ => .ite (.pure _) ?_)
    exact .bind stored_read fun _ => .pure _
  have load : Within (Stored e) e (bootModeNormalAndpUdate blkio bank) := by
    refine .ite (.pure _) (.ite (.pure _) (.bind stored_read fun _ => .ite (.pure _) ?_))
    exact .bind (.ask _) fun _ => .ite (.pure _) (.bind stored_read fun _ => .ite (.pure _) write)
  refine .bind (stored_traced verify) fun _ => .bind stored_step fun _ => .ite (.pure _) ?_
  exact .bind load fun _ => .ite (.pure _) (.pure _)

theorem stored_uefiMain : Within (Stored e) e uefiMain := by
  refine .bind (.bind (.ask _) fun _ => .bind .get fun _ => .pure _) fun _ => .bind ?_ fun _ => ?_
  · refine .ite (.pure _) (.bind stored_step fun _ => .ite (.pure _) (.bind stored_step fun _ => .ite (.pure _) ?_))
    split
    · exact stored_verifyAndBoot
    · exact stored_verifyAndBoot
    · exact stored_verifyAndBoot
    · refine .bind stored_step fun _ => .ite (.pure _) (.bind stored_writeKeyModeNormal fun _ => ?_)
      exact .bind stored_ssblLoadAndStart fun _ => .pure _
    · exact .pure _
  · exact .ite (.bind stored_writeKeyModeNormal fun _ => .halt _) (.pure _)

theorem stored_final (e : Env) (disk : Handle → Store) :
    ∃ files, (uefiMain.final e ⟨disk, []⟩).disk = storeFiles e files disk :=
  (wp_final (P := Stored e ⟨disk, []⟩)).mp (stored_uefiMain ⟨disk, []⟩)

end Fsbl

/-! ### Series of boots -/

inductive Loader where
  | fsbl
  | ssbl (fileRdBm : Bool)

def Loader.boot (e : Env) (disk : Handle → Store) : Loader → Handle → Store
  | .fsbl => (Fsbl.uefiMain.final e ⟨disk, []⟩).disk
  | .ssbl fileRdBm => ((Ssbl.uefiMain fileRdBm).final e ⟨disk, []⟩).disk

/-- The file systems of the platform keep clear of the firmware of a disk. -/
def KeepsClear (e : Env) (d : Store) (h : Handle) : Prop :=
  ∀ fs data disk, SameFirmware d (disk h) → SameFirmware d (e.storeFile fs data disk h)

theorem KeepsClear.storeFiles {e : Env} {d : Store} {h : Handle} (clear : KeepsClear e d h) (files : List (Nat × Bytes))
    {disk : Handle → Store} (same : SameFirmware d (disk h)) : SameFirmware d (storeFiles e files disk h) := by
  induction files generalizing disk with
  | nil => exact same
  | cons file files ih => exact ih (clear file.1 file.2 disk same)

/-- FSBL changes the disks by writing files only, and no series of boots changes a firmware bank of a disk of which the
    file systems keep clear, or more of its header than the modes. -/
theorem firmware_never_written :
    (∀ e disk, ∃ files, Loader.fsbl.boot e disk = storeFiles e files disk) ∧
    ∀ (boots : List (Loader × Env)) (disk : Handle → Store) (h : Handle),
      (∀ b ∈ boots, KeepsClear b.2 (disk h) h) →
        SameFirmware (disk h) (boots.foldl (fun disk b => b.1.boot b.2 disk) disk h) := by
  refine ⟨Fsbl.stored_final, fun boots disk h clear => ?_⟩
  suffices all : ∀ disk', SameFirmware (disk h) (disk' h) →
      SameFirmware (disk h) (boots.foldl (fun disk b => b.1.boot b.2 disk) disk' h) from all disk (.refl _)
  induction boots with
  | nil => exact fun _ same => same
  | cons b boots ih =>
    intro disk' same
    obtain ⟨first, rest⟩ := List.forall_mem_cons.mp clear
    refine ih rest (b.1.boot b.2 disk') ?_
    obtain ⟨_ | fileRdBm, e⟩ := b
    · obtain ⟨files, stored⟩ := Fsbl.stored_final e disk'
      rw [Loader.boot, stored]
      exact first.storeFiles files same
    · exact same.trans (Ssbl.sameFirmware fileRdBm e disk' h)

/-- A platform with the raw partition on disk 0 and the file system on disk 1. -/
def twoDisks : Env :=
  { Env.refusing [] with
    devices := [⟨true, true⟩, ⟨true, true⟩]
    storeFile := fun _ data disk => Function.update disk 1 ((disk 1).write 0x8000 data) }

/-- FSBL loads and starts SSBL twice, and SSBL runs in between. -/
theorem firmware_kept_twoDisks : SameFirmware Fsbl.normalDisk
    ([(Loader.fsbl, twoDisks), (.ssbl false, twoDisks), (.fsbl, twoDisks)].foldl (fun disk b => b.1.boot b.2 disk)
      (fun _ => Fsbl.normalDisk) 0) := by
  refine firmware_never_written.2 _ (fun _ => Fsbl.normalDisk) 0 fun b mem fs data disk same => ?_
  have platform : b.2 = twoDisks := by
    simp only [List.mem_cons, List.not_mem_nil, or_false] at mem
    rcases mem with rfl | rfl | rfl <;> rfl
  have other : twoDisks.storeFile fs data disk 0 = disk 0 := by simp [twoDisks]
  rw [platform, other]
  exact same

end LeoEdk.Sbc
