import LeoEdk.Theorems.SsblChain

/-! Reboots of SSBL, and whether the next boot finds other modes in block 0 than this one did. `CheckEnd` lists how
    `SBC_SecureBootCheck` ends and which mode write it has made. -/

namespace LeoEdk.Sbc

open Bytes Prog

def modes (d : Store) : UInt16 × UInt16 := ((RawprtHdr.ofStore d).bootmode, (RawprtHdr.ofStore d).keymode)

def Event.failedChange : Event → Bool
  | .modeChange site _ _ st => site ≠ .modeNormal ∧ st ≠ .ok
  | _ => false

def NoFailedChange (log : List Event) : Prop := ∀ ev ∈ log, ev.failedChange = false

@[simp] theorem noFailedChange_append (log evs : List Event) :
    NoFailedChange (log ++ evs) ↔ NoFailedChange log ∧ NoFailedChange evs := by
  simp only [NoFailedChange, List.mem_append]
  exact ⟨fun h => ⟨fun ev m => h ev (.inl m), fun ev m => h ev (.inr m)⟩, fun h ev m => m.elim (h.1 ev) (h.2 ev)⟩

@[simp] theorem noFailedChange_nil : NoFailedChange [] := fun _ mem => absurd mem List.not_mem_nil

@[simp] theorem noFailedChange_cons (ev : Event) (evs : List Event) :
    NoFailedChange (ev :: evs) ↔ ev.failedChange = false ∧ NoFailedChange evs := by
  simp [NoFailedChange]

/-- Between the two worlds, block 0 of `h` was not written and no mode write failed. -/
structure Kept (h : Handle) (w w' : World) : Prop where
  header : RawprtHdr.ofStore (w'.disk h) = RawprtHdr.ofStore (w.disk h)
  changes : NoFailedChange w.log → NoFailedChange w'.log

namespace Kept

variable {h : Handle}

theorem refl (w : World) : Kept h w w := ⟨rfl, id⟩

theorem trans {w w' w'' : World} (first : Kept h w w') (second : Kept h w' w'') : Kept h w w'' :=
  ⟨second.header.trans first.header, fun clean => second.changes (first.changes clean)⟩

theorem note (w : World) {ev : Event} (ok : ev.failedChange = false) : Kept h w (w.note [ev]) :=
  ⟨rfl, fun clean => by simp [clean, ok]⟩

theorem write (w : World) {ofs : Nat} (bs : Bytes) (behind : 128 ≤ ofs) : Kept h w (w.write h ofs bs) := by
  refine ⟨?_, id⟩
  rw [World.write_disk_self]
  exact RawprtHdr.ofStore_congr fun a n inside => Store.read_write_of_disjoint (.inl (by omega))

theorem modes_eq {w w' : World} (kept : Kept h w w') : modes (w'.disk h) = modes (w.disk h) := by
  rw [modes, modes, kept.header]

end Kept

section Rules

variable {e : Env} {w : World} {h : Handle} {R : Halt → World → Prop}

theorem wp_baseAnswerEncryptStore {Q : Status → World → Prop} (key : IdKey) (ret : ∀ st w', Kept h w w' → Q st w') :
    wp (baseAnswerEncryptStore (some h) key) e Q R w := by
  have len : alignValue sysSettingStorageLen rawprtDfltBlkSz ≠ 0 := by decide
  have behind : 128 ≤ (sysConfStartOfs >>> rawprtDfltShift) * rawprtDfltBlkSz := by decide
  have read : ∀ lba n, Kept h w (w.note [.readBlocks lba n]) := fun lba n => .note w rfl
  simp only [baseAnswerEncryptStore, wp_bind, wp_ask]
  cases e.aesGcmEncrypt key e.baseAnswer with
  | none => exact ret .encfail w (.refl w)
  | some enc =>
    obtain ⟨encmsg, tag⟩ := enc
    simp only [baseanswerStore, reduceCtorEq, ↓reduceIte, wp_bind, wp_granted, wp_ite, wp_pure, wp_rawPrtReadBlock_some,
      if_neg len, ne_eq, not_true_eq_false, not_false_eq_true, wp_rawPrtBlockWrite_some]
    generalize overwrite _ _ _ = wrbuf
    split_ifs
    · exact ret .nullp w (.refl w)
    · exact ret .zerol _ (read ..)
    · exact ret .ok _ ((read ..).trans ((Kept.note _ rfl).trans (Kept.write _ _ behind)))
    · exact ret .io _ ((read ..).trans (Kept.note _ rfl))
    · exact ret .io _ (read ..)

theorem wp_bootKeyModeChange {site : Site} {newbm : BootMode} {newkey : KeyMode} {bp : BootProc}
    {Q : Status → World → Prop} (blk : bp.blkhnd = some h)
    (written : e.granted site = true → ∀ w', modes (w'.disk h) = (.ofNat newbm.code, .ofNat newkey.code) →
      (NoFailedChange w'.log ↔ NoFailedChange w.log) → Q .ok w')
    (refused : e.granted site = false → ∀ w', RawprtHdr.ofStore (w'.disk h) = RawprtHdr.ofStore (w.disk h) →
      (NoFailedChange w'.log ↔ NoFailedChange w.log ∧ site = .modeNormal) → Q .io w') :
    wp (bootKeyModeChange site newbm newkey (some bp)) e Q R w := by
  have size (hdr : RawprtHdr) : (hdr.toBytes ++ List.replicate 384 0).length = 512 := by
    rw [List.length_append, RawprtHdr.length_toBytes, List.length_replicate]
  simp only [bootKeyModeChange, blk, writeHeader, wp_bind, wp_rawPrtBlockWrite_some, size, wp_emit, wp_pure]
  rw [if_neg (by decide)]
  cases grant : e.granted site with
  | true =>
    rw [if_pos ⟨rfl, rfl⟩]
    refine written grant _ ?_ ?_
    · rw [World.note_disk, World.write_disk_self, Nat.zero_mul, modes, RawprtHdr.ofStore_write]
    · rw [World.note_log, World.write_log]
      simp [Event.failedChange]
  | false =>
    rw [if_neg (by simp)]
    refine refused grant _ rfl ?_
    simp [Event.failedChange]

end Rules

/-! ### `SBC_SecureBootCheck` -/

/-- The paths of `SBC_SecureBootCheck` that reboot whatever becomes of their mode write, and that write; the path
    without one reboots with the modes it started with. -/
def rebootWrite (bp : BootProc) : Option (Option (Site × BootMode × KeyMode)) :=
  match BootMode.ofCode bp.bm with
  | some .normal =>
    if bp.bootst = .abnram then
      some (if bp.km = KeyMode.normal.code then
        some (.modeAbnormal, if checkPrevFw bp.pvsSwBnk then .recovery else .factory, .update) else none)
    else none
  | some .recovery => if bp.bootst = .abnram then some (some (.modeRecoveryAbnormal, .factory, .boot)) else none
  | some .update =>
    if bp.km = KeyMode.normal.code then
      some (match bp.bootst with
        | .nrma => some (.modeReset, .recovery, .normal)
        | .abnram => some (.modeReset, if bp.pvsSwBnk ≠ 0 then .recovery else .factory, .update)
        | .unknown => none)
    else none
  | _ => none

inductive CheckEnd (e : Env) (bp : BootProc) (h : Handle) (w : World) : Except Halt Status → World → Prop
  | returned {st : Status} {w' : World} (no : rebootWrite bp = none) (kept : Kept h w w') :
      CheckEnd e bp h w (.ok st) w'
  | shutdown {w' : World} (no : rebootWrite bp = none) : CheckEnd e bp h w (.error .shutdown) w'
  | recovered {w' : World} (no : rebootWrite bp = none) (mode : BootMode.ofCode bp.bm = some .recovery)
      (new : modes (w'.disk h) = (.ofNat BootMode.normal.code, .ofNat KeyMode.normal.code))
      (changes : NoFailedChange w.log → NoFailedChange w'.log) : CheckEnd e bp h w (.error .reboot) w'
  | unwritten {w' : World} (due : rebootWrite bp = some none) (kept : Kept h w w') :
      CheckEnd e bp h w (.error .reboot) w'
  | written {w' : World} {site : Site} {newbm : BootMode} {newkey : KeyMode}
      (due : rebootWrite bp = some (some (site, newbm, newkey))) (grant : e.granted site = true)
      (new : modes (w'.disk h) = (.ofNat newbm.code, .ofNat newkey.code))
      (changes : NoFailedChange w.log → NoFailedChange w'.log) : CheckEnd e bp h w (.error .reboot) w'
  | refused {w' : World} {site : Site} {newbm : BootMode} {newkey : KeyMode}
      (due : rebootWrite bp = some (some (site, newbm, newkey))) (grant : e.granted site = false)
      (old : modes (w'.disk h) = modes (w.disk h)) (failed : ¬NoFailedChange w'.log) :
      CheckEnd e bp h w (.error .reboot) w'

section Check

variable {e : Env} {w : World} {h : Handle} {bp : BootProc}

section Scenarios

variable (blk : bp.blkhnd = some h)
include blk

theorem wp_rebootWrite {w' : World} {site : Site} {newbm : BootMode} {newkey : KeyMode} {R : Halt → World → Prop}
    (due : rebootWrite bp = some (some (site, newbm, newkey))) (own : site ≠ .modeNormal) (kept : Kept h w w') :
    wp (bootKeyModeChange site newbm newkey (some bp)) e (fun _ w' => CheckEnd e bp h w (.error .reboot) w') R w' := by
  refine wp_bootKeyModeChange blk (fun grant w'' new clean => ?_) (fun grant w'' header clean => ?_)
  · exact .written due grant new fun before => clean.mpr (kept.changes before)
  · refine .refused due grant ?_ fun after => own (clean.mp after).2
    rw [modes, header, ← modes, kept.modes_eq]

theorem wp_recoveryBootProcessing (mode : BootMode.ofCode bp.bm = some .recovery) {Q : Unit → World → Prop} :
    wp (recoveryBootProcessing bp) e Q (fun halted w' => CheckEnd e bp h w (.error halted) w') w := by
  by_cases abnormal : bp.bootst = .abnram
  · have due : rebootWrite bp = some (some (.modeRecoveryAbnormal, .factory, .boot)) := by
      rw [rebootWrite, mode]
      simp only [abnormal, ↓reduceIte]
    simp only [recoveryBootProcessing, if_pos abnormal, wp_bind, wp_halt]
    exact wp_rebootWrite blk due (by simp) (.refl w)
  · have no : rebootWrite bp = none := by rw [rebootWrite, mode]; simp [abnormal]
    rw [recoveryBootProcessing, if_neg abnormal]
    by_cases missing : (!checkPrevFw bp.pvsSwBnk) = true
    · rw [if_pos missing]
      exact .shutdown no
    · rw [if_neg missing, blk, wp_bind]
      refine wp_baseAnswerEncryptStore .osid fun st w₁ kept => ?_
      by_cases unfit : st ≠ .ok ∨ bp.bootst ≠ .nrma ∨ KeyMode.ofCode bp.km = none
      · rw [if_pos unfit]
        exact .shutdown no
      · rw [if_neg unfit, wp_bind]
        refine wp_bootKeyModeChange blk (fun _ w₂ new clean => ?_) (fun _ w₂ _ _ => ?_)
        · rw [if_neg (by decide)]
          exact .recovered no mode new fun before => clean.mpr (kept.changes before)
        · rw [if_pos (by decide)]
          exact .shutdown no

theorem wp_updateBootPorcsesing {Q : Status → World → Prop} {R : Halt → World → Prop}
    (ret : ∀ st w', Kept h w w' → Q st w') : wp (updateBootPorcsesing bp) e Q R w := by
  have behavior : wp (updateBehaviorForKm bp) e Q R w := by
    rw [updateBehaviorForKm]
    cases bp.bootst with
    | nrma => exact blk ▸ wp_baseAnswerEncryptStore .migid ret
    | abnram => exact ret _ w (.refl w)
    | unknown => exact ret _ w (.refl w)
  rw [updateBootPorcsesing]
  cases KeyMode.ofCode bp.km with
  | none => exact ret _ w (.refl w)
  | some km =>
    cases km with
    | normal => exact behavior
    | update => exact behavior
    | boot => exact ret _ w (.refl w)

theorem wp_resetScenario_update {w' : World} (mode : BootMode.ofCode bp.bm = some .update)
    (kept : Kept h w w') (st : Status) : wp (resetScenario bp) e (fun _ w' => CheckEnd e bp h w (.ok st) w')
      (fun halted w' => CheckEnd e bp h w (.error halted) w') w' := by
  rw [resetScenario, if_pos (BootMode.ofCode_eq_some.mp mode), updateResetCheckAndBehavior]
  by_cases key : bp.km = KeyMode.normal.code
  · rw [if_pos key, updateResetModeChange]
    cases status : bp.bootst with
    | nrma =>
      have due : rebootWrite bp = some (some (.modeReset, .recovery, .normal)) := by
        simp only [rebootWrite, mode, key, ↓reduceIte, status]
      simp only [wp_bind, wp_pure, wp_halt]
      exact wp_rebootWrite blk due (by simp) kept
    | abnram =>
      have due : rebootWrite bp =
          some (some (.modeReset, if bp.pvsSwBnk ≠ 0 then .recovery else .factory, .update)) := by
        simp only [rebootWrite, mode, key, ↓reduceIte, status]
      simp only [wp_bind, wp_pure, wp_halt]
      exact wp_rebootWrite blk due (by simp) kept
    | unknown => exact .unwritten (by simp only [rebootWrite, mode, key, ↓reduceIte, status]) kept
  · rw [if_neg key]
    exact .returned (by simp only [rebootWrite, mode, key, ↓reduceIte]) kept

theorem wp_secureBootCheck : wp (secureBootCheck bp) e (fun st w' => CheckEnd e bp h w (.ok st) w')
      (fun halted w' => CheckEnd e bp h w (.error halted) w') w := by
  rw [secureBootCheck, wp_bind, secureBootMode]
  -- every mode but UPDATE passes the reset scenario without effect
  have through : BootMode.ofCode bp.bm ≠ some .update → rebootWrite bp = none → ∀ st,
      wp (do resetScenario bp; return st) e (fun st w' => CheckEnd e bp h w (.ok st) w')
        (fun halted w' => CheckEnd e bp h w (.error halted) w') w := by
    intro other no st
    rw [resetScenario, if_neg fun same => other (BootMode.ofCode_eq_some.mpr same)]
    exact .returned no (.refl w)
  cases mode : BootMode.ofCode bp.bm with
  | none => exact through (by simp [mode]) (by rw [rebootWrite, mode]) .ok
  | some m =>
    cases m with
    | normal =>
      by_cases abnormal : bp.bootst = .abnram
      · simp only [if_pos abnormal, abnormalProcessing]
        by_cases key : bp.km = KeyMode.normal.code
        · have due : rebootWrite bp =
              some (some (.modeAbnormal, if checkPrevFw bp.pvsSwBnk then .recovery else .factory, .update)) := by
            simp only [rebootWrite, mode, key, abnormal, ↓reduceIte]
          simp only [if_pos key, wp_bind, wp_pure, wp_halt]
          exact wp_rebootWrite blk due (by simp) (.refl w)
        · rw [if_neg key]
          exact .unwritten (by simp only [rebootWrite, mode, key, abnormal, ↓reduceIte]) (.refl w)
      · simp only [if_neg abnormal]
        exact through (by simp [mode]) (by simp only [rebootWrite, mode, abnormal, ↓reduceIte]) .ok
    | update =>
      refine wp_updateBootPorcsesing blk fun st w₁ kept => ?_
      rw [wp_bind]
      exact wp_resetScenario_update blk mode kept st
    | recovery =>
      rw [wp_bind]
      exact wp_recoveryBootProcessing blk mode
    | factory => exact through (by simp [mode]) (by rw [rebootWrite, mode]) .ok

end Scenarios

/-- A reboot leaves other modes than `before`, and after a mode write that failed there is only a shutdown. -/
def Forward (before : UInt16 × UInt16) (h : Handle) (halted : Halt) (w' : World) : Prop :=
  (halted = .reboot → modes (w'.disk h) ≠ before) ∧ (halted ≠ .shutdown → NoFailedChange w'.log)

/-- The mode write that precedes an unconditional reboot is made and granted. -/
def WritesSucceed (e : Env) (bp : BootProc) : Prop :=
  ∀ due, rebootWrite bp = some due → ∃ site newbm newkey, due = some (site, newbm, newkey) ∧ e.granted site = true

theorem writesSucceed_of_none (no : rebootWrite bp = none) : WritesSucceed e bp :=
  fun _ some => absurd (no.symm.trans some) nofun

structure Fresh (bp : BootProc) (d : Store) : Prop where
  reboot : ∀ site newbm newkey, rebootWrite bp = some (some (site, newbm, newkey)) →
    (UInt16.ofNat newbm.code, UInt16.ofNat newkey.code) ≠ modes d
  recovery : BootMode.ofCode bp.bm = some .recovery →
    (UInt16.ofNat BootMode.normal.code, UInt16.ofNat KeyMode.normal.code) ≠ modes d

theorem CheckEnd.forward_iff {halted : Halt} {w' : World} (ends : CheckEnd e bp h w (.error halted) w')
    (clean : NoFailedChange w.log) (fresh : Fresh bp (w.disk h)) :
    Forward (modes (w.disk h)) h halted w' ↔ WritesSucceed e bp := by
  cases ends with
  | shutdown no => exact iff_of_true ⟨nofun, fun other => absurd rfl other⟩ (writesSucceed_of_none no)
  | recovered no mode new changes =>
    exact iff_of_true ⟨fun _ => new ▸ fresh.recovery mode, fun _ => changes clean⟩ (writesSucceed_of_none no)
  | unwritten due kept =>
    refine iff_of_false (fun forward => forward.1 rfl kept.modes_eq) fun succeed => ?_
    obtain ⟨_, _, _, write, -⟩ := succeed none due
    cases write
  | written due grant new changes =>
    refine iff_of_true ⟨fun _ => new ▸ fresh.reboot _ _ _ due, fun _ => changes clean⟩ fun other some => ?_
    cases due.symm.trans some
    exact ⟨_, _, _, rfl, grant⟩
  | refused due grant old failed =>
    refine iff_of_false (fun forward => forward.1 rfl old) fun succeed => ?_
    obtain ⟨_, _, _, write, granted⟩ := succeed _ due
    cases write
    rw [grant] at granted
    cases granted

end Check

theorem blkIoScan_ok {disk : Handle → Store} {devices : List Device} {idx : Handle} {hdr : RawprtHdr}
    (ok : (blkIoScan disk devices idx hdr).1 = .ok) :
    ∃ h, (blkIoScan disk devices idx hdr).2 = (some h, RawprtHdr.ofStore (disk h)) := by
  induction devices generalizing idx hdr with
  | nil => cases ok
  | cons dev devs ih =>
    simp only [blkIoScan] at ok ⊢
    split_ifs at ok ⊢
    · exact ih ok
    · exact ⟨idx, rfl⟩

namespace Ssbl

variable {fileRdBm : Bool} {e : Env} {disk : Handle → Store}

/-- A boot that reboots has replaced the modes in block 0 by others, and a boot in which a mode write of
    `SBC_SecureBootCheck` has failed shuts down. -/
def Progresses (fileRdBm : Bool) (e : Env) (disk : Handle → Store) : Prop :=
  wp (uefiMain fileRdBm) e (fun _ w' => NoFailedChange w'.log)
    (fun halted w' => ∀ h, (blkIoScan disk e.devices 0 .zero).2.1 = some h → Forward (modes (disk h)) h halted w')
    ⟨disk, []⟩

/-- The write with which an update asks for the recovery mode of the next boot is granted. -/
def UpdateWriteGranted (fileRdBm : Bool) (e : Env) (disk : Handle → Store) : Prop :=
  ChecksPass e disk → BootMode.ofCode (selectedMode fileRdBm e disk) = some .update → e.outcome .genMigrationKey = .ok →
    (fileRdBm = true ∨ (header e disk).keymode.toNat = KeyMode.normal.code) → e.granted .modeReset = true

section Handlers

variable {w : World} {h : Handle} {bp : BootProc}

def Handled (before : UInt16 × UInt16) (h : Handle) (st : Status) (w' : World) : Prop :=
  if st = .ok then NoFailedChange (w'.note [.startGrub]).log else Forward before h .shutdown w'

theorem handled_of_clean {before : UInt16 × UInt16} {w' : World} (st : Status) (clean : NoFailedChange w'.log) :
    Handled before h st w' := by
  by_cases ok : st = .ok
  · rw [Handled, if_pos ok, World.note_log]
    simp [clean, Event.failedChange]
  · rw [Handled, if_neg ok]
    exact ⟨nofun, fun other => absurd rfl other⟩

theorem handled_secureBootCheck_iff (blk : bp.blkhnd = some h) (clean : NoFailedChange w.log)
    (fresh : Fresh bp (w.disk h)) :
    wp (traced .secureBootCheck (secureBootCheck bp)) e (Handled (modes (w.disk h)) h) (Forward
      (modes (w.disk h)) h) w ↔ WritesSucceed e bp := by
  rw [wp_traced]
  refine wp_iff_of_wp (wp_secureBootCheck blk) (fun st w' ends => ?_) fun _ _ ends => ends.forward_iff clean fresh
  cases ends with
  | returned no kept =>
    refine iff_of_true (handled_of_clean st ?_) (writesSucceed_of_none no)
    simp [kept.changes clean, Event.failedChange]

theorem noFailedChange_checkEvents : NoFailedChange (checkEvents e disk) := by
  simp [checkEvents, Event.failedChange]

theorem progresses_iff_handled (pass : ChecksPass e disk)
    (scan : (blkIoScan disk e.devices 0 .zero).2 = (some h, RawprtHdr.ofStore (disk h))) :
    Progresses fileRdBm e disk ↔
      wp (modeHandler fileRdBm (selectedMode fileRdBm e disk) (bootProc (some h) (RawprtHdr.ofStore (disk h)))) e
        (Handled (modes (disk h)) h) (Forward (modes (disk h)) h) ⟨disk, checkEvents e disk⟩ := by
  rw [Progresses, wp_uefiMain_of_checksPass pass, header, scan]
  simp only [Option.some.injEq, forall_eq']
  rfl

theorem selectedMode_eq {m : BootMode} (mode : BootMode.ofCode (selectedMode fileRdBm e disk) = some m) :
    (header e disk).bootmode.toNat = m.code ∨ fileRdBm = true ∧ (header e disk).bootmode.toNat = 0 := by
  rw [BootMode.ofCode_eq_some, selectedMode, selectBootMode] at mode
  split_ifs at mode with file
  · exact .inr file
  · exact .inl mode

theorem rebootWrite_nrma (normal : bp.bootst = .nrma) :
    rebootWrite bp = if BootMode.ofCode bp.bm = some .update ∧ bp.km = KeyMode.normal.code then
      some (some (.modeReset, .recovery, .normal)) else none := by
  rw [rebootWrite]
  cases BootMode.ofCode bp.bm with
  | none => simp
  | some m => cases m <;> simp [normal]

theorem writesSucceed_nrma (normal : bp.bootst = .nrma) : WritesSucceed e bp ↔
      (BootMode.ofCode bp.bm = some .update → bp.km = KeyMode.normal.code → e.granted .modeReset = true) := by
  rw [WritesSucceed, rebootWrite_nrma normal]
  constructor
  · intro succeed mode key
    obtain ⟨_, _, _, write, grant⟩ := succeed _ (if_pos ⟨mode, key⟩)
    cases write
    exact grant
  · intro grant due write
    split_ifs at write with update
    cases write
    exact ⟨_, _, _, rfl, grant update.1 update.2⟩

theorem fresh_nrma {d : Store} (normal : bp.bootst = .nrma)
    (update : BootMode.ofCode bp.bm = some .update → (RawprtHdr.ofStore d).bootmode.toNat ≠ BootMode.recovery.code)
    (recovery : BootMode.ofCode bp.bm = some .recovery → (RawprtHdr.ofStore d).bootmode.toNat ≠ BootMode.normal.code) :
    Fresh bp d := by
  constructor
  · intro site newbm newkey write same
    rw [rebootWrite_nrma normal] at write
    split_ifs at write with mode
    cases write
    exact update mode.1 (congrArg (·.1.toNat) same).symm
  · intro mode same
    exact recovery mode (congrArg (·.1.toNat) same).symm

theorem handled_secureBootCheck (before : UInt16 × UInt16) (blk : bp.blkhnd = some h) (normal : bp.bootst = .nrma)
    (clean : NoFailedChange w.log) (update : BootMode.ofCode bp.bm ≠ some .update)
    (recovery : BootMode.ofCode bp.bm ≠ some .recovery) :
    wp (traced .secureBootCheck (secureBootCheck bp)) e (Handled before h) (Forward before h) w := by
  have no : rebootWrite bp = none := by rw [rebootWrite_nrma normal, if_neg fun both => update both.1]
  rw [wp_traced]
  refine wp_mono (fun st w' ends => ?_) (fun halted w' ends => ?_) (wp_secureBootCheck blk)
  · cases ends with
    | returned _ kept =>
      refine handled_of_clean st ?_
      simp [kept.changes clean, Event.failedChange]
  · cases ends with
    | shutdown => exact ⟨nofun, fun other => absurd rfl other⟩
    | recovered _ mode => exact absurd mode recovery
    | unwritten due | written due | refused due => cases no.symm.trans due

section Modes

variable {bootmd : Nat} (blk : bp.blkhnd = some h) (normal : bp.bootst = .nrma) (clean : NoFailedChange w.log)
include blk normal clean

theorem handled_normal (before : UInt16 × UInt16) (mode : BootMode.ofCode bootmd = some .normal)
    (update : BootMode.ofCode bp.bm ≠ some .update) (recovery : BootMode.ofCode bp.bm ≠ some .recovery) :
    wp (modeHandler fileRdBm bootmd bp) e (Handled before h) (Forward before h) w := by
  rw [modeHandler, mode]
  cases fileRdBm with
  | false => exact handled_secureBootCheck before blk normal clean update recovery
  | true =>
    simp only [↓reduceIte, wp_bind]
    refine wp_bootKeyModeChange blk (fun _ w' _ keeps => ?_) (fun _ w' _ keeps => ?_)
    · exact handled_secureBootCheck before blk normal (keeps.mpr clean) update recovery
    · exact handled_secureBootCheck before blk normal (keeps.mpr ⟨clean, rfl⟩) update recovery

theorem handled_update_iff (mode : BootMode.ofCode bootmd = some .update)
    (chosen : fileRdBm = true ∨ BootMode.ofCode bp.bm = some .update)
    (stale : (RawprtHdr.ofStore (w.disk h)).bootmode.toNat ≠ BootMode.recovery.code) :
    wp (modeHandler fileRdBm bootmd bp) e (Handled (modes (w.disk h)) h) (Forward (modes (w.disk h)) h) w ↔
      (e.outcome .genMigrationKey = .ok → fileRdBm = true ∨ bp.km = KeyMode.normal.code →
        e.granted .modeReset = true) := by
  have check : ∀ bp : BootProc, bp.blkhnd = some h → bp.bootst = .nrma → BootMode.ofCode bp.bm = some .update →
      (wp (traced .secureBootCheck (secureBootCheck bp)) e (Handled (modes (w.disk h)) h) (Forward (modes (w.disk h)) h)
        (w.note [.returned .genMigrationKey .ok]) ↔ (bp.km = KeyMode.normal.code → e.granted .modeReset = true)) := by
    intro bp blk normal update
    have fresh : Fresh bp (w.disk h) :=
      fresh_nrma normal (fun _ => stale) fun other => by cases update.symm.trans other
    have writes := writesSucceed_nrma (e := e) normal
    rw [forall_prop_of_true update] at writes
    have clean' : NoFailedChange (w.note [.returned .genMigrationKey .ok]).log := by simp [clean, Event.failedChange]
    exact (handled_secureBootCheck_iff blk clean' fresh).trans writes
  rw [modeHandler, mode]
  simp only [wp_bind, wp_step, wp_ite, wp_pure]
  by_cases ok : e.outcome .genMigrationKey = .ok
  · rw [if_neg (not_not.mpr ok), ok, forall_prop_of_true rfl]
    cases fileRdBm with
    | true => simpa using check { bp with bm := BootMode.update.code, km := KeyMode.normal.code } blk normal rfl
    | false => simpa using check bp blk normal (chosen.resolve_left Bool.false_ne_true)
  · rw [if_pos ok]
    exact iff_of_true (handled_of_clean _ (by simp [clean, Event.failedChange])) fun granted => absurd granted ok

theorem handled_recovery (mode : BootMode.ofCode bootmd = some .recovery)
    (update : BootMode.ofCode bp.bm ≠ some .update)
    (stale : (RawprtHdr.ofStore (w.disk h)).bootmode.toNat ≠ BootMode.normal.code) :
    wp (modeHandler fileRdBm bootmd bp) e (Handled (modes (w.disk h)) h) (Forward (modes (w.disk h)) h) w := by
  have fresh : Fresh bp (w.disk h) := fresh_nrma normal (fun eq => absurd eq update) fun _ => stale
  rw [modeHandler, mode]
  exact (handled_secureBootCheck_iff blk clean fresh).mpr ((writesSucceed_nrma normal).mpr fun eq => absurd eq update)

end Modes

theorem progresses_iff : Progresses fileRdBm e disk ↔ UpdateWriteGranted fileRdBm e disk := by
  by_cases pass : ChecksPass e disk
  swap
  · refine iff_of_true (wp_uefiMain_of_not_checksPass pass fun evs _ h _ => ?_) fun passed => absurd passed pass
    exact ⟨by simp, fun other => absurd rfl other⟩
  obtain ⟨h, scan⟩ := blkIoScan_ok pass.blkIoHandleInit
  have head : header e disk = RawprtHdr.ofStore (disk h) := by rw [header, scan]
  have clean : NoFailedChange (checkEvents e disk) := noFailedChange_checkEvents
  rw [progresses_iff_handled pass scan]
  cases mode : BootMode.ofCode (selectedMode fileRdBm e disk) with
  | none =>
    refine iff_of_true ?_ fun _ other => by cases mode.symm.trans other
    rw [modeHandler, mode]
    exact handled_of_clean .ok clean
  | some m =>
    have chosen := selectedMode_eq mode
    rw [head] at chosen
    -- the header's own mode is the selected one, or none
    have own : ∀ b, BootMode.ofCode (bootProc (some h) (RawprtHdr.ofStore (disk h))).bm = some b → b = m := by
      intro b same
      have code : (RawprtHdr.ofStore (disk h)).bootmode.toNat = b.code := BootMode.ofCode_eq_some.mp same
      rcases chosen with eq | ⟨-, eq⟩
      · exact Option.some.inj (same.symm.trans (BootMode.ofCode_eq_some.mpr eq))
      · rw [eq] at code
        cases b <;> cases code
    cases m with
    | normal =>
      refine iff_of_true ?_ fun _ other => by cases mode.symm.trans other
      exact handled_normal rfl rfl clean _ mode (fun eq => by cases own _ eq) (fun eq => by cases own _ eq)
    | factory =>
      refine iff_of_true ?_ fun _ other => by cases mode.symm.trans other
      rw [modeHandler, mode]
      exact ⟨by simp, fun _ => clean⟩
    | update =>
      have stale : (RawprtHdr.ofStore (disk h)).bootmode.toNat ≠ BootMode.recovery.code := by
        rcases chosen with eq | ⟨-, eq⟩ <;> rw [eq] <;> decide
      rw [UpdateWriteGranted, forall_prop_of_true pass, forall_prop_of_true mode, head]
      refine handled_update_iff (w := ⟨disk, checkEvents e disk⟩) rfl rfl clean mode ?_ stale
      exact chosen.symm.imp (·.1) BootMode.ofCode_eq_some.mpr
    | recovery =>
      have stale : (RawprtHdr.ofStore (disk h)).bootmode.toNat ≠ BootMode.normal.code := by
        rcases chosen with eq | ⟨-, eq⟩ <;> rw [eq] <;> decide
      refine iff_of_true ?_ fun _ other => by cases mode.symm.trans other
      have idle : BootMode.ofCode (bootProc (some h) (RawprtHdr.ofStore (disk h))).bm ≠ some .update :=
        fun eq => by cases own _ eq
      exact handled_recovery (w := ⟨disk, checkEvents e disk⟩) rfl rfl clean mode idle stale

end Handlers

/-- The boots of a machine with the disks each starts from. -/
def history (fileRdBm : Bool) : List (Env × ((Handle → Store) → Handle → Store)) → (Handle → Store) →
    List (Env × (Handle → Store))
  | [], _ => []
  | (e, between) :: boots, disk =>
    (e, disk) :: history fileRdBm boots (between ((uefiMain fileRdBm).final e ⟨disk, []⟩).disk)

/-- The update mode with the normal key mode, and a refused write of block 0: the boot ends in a reboot that finds the
    same modes again. -/
theorem update_reboots_unchanged :
    ¬∀ b ∈ history false [(Env.refusing [.modeReset], id)] fun _ => Store.ofBytes (headerBytes 2 1),
      Progresses false b.1 b.2 := by
  intro progress
  rw [history, List.forall_mem_cons, progresses_iff] at progress
  have granted := progress.1 ⟨by decide, rfl, rfl⟩ (by decide) rfl (.inr (by decide))
  cases granted

/-- Every reboot of a history makes progress exactly when no write that ends an update is refused in it. -/
theorem reboots_progress_iff (fileRdBm : Bool) (boots : List (Env × ((Handle → Store) → Handle → Store)))
    (disk : Handle → Store) :
    (∀ b ∈ history fileRdBm boots disk, Progresses fileRdBm b.1 b.2) ↔
      ∀ b ∈ history fileRdBm boots disk, UpdateWriteGranted fileRdBm b.1 b.2 :=
  forall₂_congr fun _ _ => progresses_iff

end Ssbl

end LeoEdk.Sbc
