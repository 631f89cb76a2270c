import LeoEdk.Sbc.Ssbl
import LeoEdk.Theorems.Transfers

/-! The chain of trust of SSBL: what must have returned `SBCOK` when `UefiMain` starts GRUB, and how other boots end.
    If a check in front of the mode switch fails the boot ends; if all pass the handler of the mode decides. -/

namespace LeoEdk.Sbc.Ssbl

variable {fileRdBm : Bool} {e : Env} {disk : Handle → Store} {m : BootMode}

open Bytes Prog

def header (e : Env) (disk : Handle → Store) : RawprtHdr := (blkIoScan disk e.devices 0 .zero).2.2

def selectedMode (fileRdBm : Bool) (e : Env) (disk : Handle → Store) : Nat :=
  selectBootMode fileRdBm e.bootModeFile (header e disk).bootmode.toNat

structure ChecksPass (e : Env) (disk : Handle → Store) : Prop where
  blkIoHandleInit : (blkIoScan disk e.devices 0 .zero).1 = .ok
  ssblVerify : e.outcome (.ssblVerify (currbankId (header e disk).bootpres)) = .ok
  diceKeysGen : e.outcome .diceKeysGen = .ok

def checkEvents (e : Env) (disk : Handle → Store) : List Event :=
  [.returned .blkIoHandleInit .ok, .returned (.ssblVerify (currbankId (header e disk).bootpres)) .ok,
    .returned .diceKeysGen .ok]

section Rules

variable {fileRdBm : Bool} {e : Env} {disk : Handle → Store} {Q : Unit → World → Prop} {R : Halt → World → Prop}

theorem wp_uefiMain_of_not_checksPass (fails : ¬ChecksPass e disk)
    (ret : ∀ evs, Event.startGrub ∉ evs → R .shutdown ⟨disk, evs⟩) : wp (uefiMain fileRdBm) e Q R ⟨disk, []⟩ := by
  simp only [uefiMain, uefiMainBody, blkIoHandleInit, wp_bind, wp_ask, wp_get, wp_pure, wp_ite, wp_emit, wp_step,
    World.note_note]
  by_cases init : (blkIoScan disk e.devices 0 .zero).1 = .ok
  · by_cases ssbl : e.outcome (.ssblVerify (currbankId (blkIoScan disk e.devices 0 .zero).2.2.bootpres)) = .ok
    · have dice : e.outcome .diceKeysGen ≠ .ok := fun dice => fails ⟨init, ssbl, dice⟩
      rw [if_neg (not_not.mpr init), if_neg (not_not.mpr ssbl), if_pos dice, if_pos dice]
      exact ret _ (by simp)
    · rw [if_neg (not_not.mpr init), if_pos ssbl, if_pos ssbl]
      exact ret _ (by simp)
  · rw [if_pos init, if_pos init]
    exact ret _ (by simp)

theorem wp_uefiMain_of_checksPass (pass : ChecksPass e disk) : wp (uefiMain fileRdBm) e Q R ⟨disk, []⟩ ↔
      wp (modeHandler fileRdBm (selectedMode fileRdBm e disk)
          (bootProc (blkIoScan disk e.devices 0 .zero).2.1 (header e disk))) e
        (fun st w => if st = .ok then Q () (w.note [.startGrub]) else R .shutdown w) R ⟨disk, checkEvents e disk⟩ := by
  obtain ⟨init, ssbl, dice⟩ := pass
  simp only [header] at ssbl
  -- `UefiMain` looks at the status twice, before GRUB and at its label `errdone`.
  have twice (st : Status) (A B C : Prop) :
      (if st = .ok then A else if st = .ok then B else C) = if st = .ok then A else C := by
    split <;> simp_all
  simp only [uefiMain, uefiMainBody, blkIoHandleInit, wp_bind, wp_ask, wp_get, wp_pure, wp_ite, wp_emit, wp_step,
    wp_halt, World.note_note, init, ssbl, dice, ne_eq, ↓reduceIte, grubLoadAndStart, ite_not, twice]
  rfl

end Rules

/-! ### The chain of trust -/

def HandlerReturned (pre : List Event) : BootMode → Prop
  | .normal | .recovery => .returned .secureBootCheck .ok ∈ pre
  | .update => .returned .genMigrationKey .ok ∈ pre ∧ .returned .secureBootCheck .ok ∈ pre
  | .factory => .returned .factoryModeChange .ok ∈ pre

/-- GRUB is started only after the three checks and the handler of a known mode have returned `SBCOK`. -/
def GrubTrusted (fileRdBm : Bool) (e : Env) (disk : Handle → Store) (log : List Event) : Prop :=
  ∀ pre post, log = pre ++ .startGrub :: post →
    .returned .blkIoHandleInit .ok ∈ pre ∧ .returned (.ssblVerify (currbankId (header e disk).bootpres)) .ok ∈ pre ∧
      .returned .diceKeysGen .ok ∈ pre ∧
        ∃ m, BootMode.ofCode (selectedMode fileRdBm e disk) = some m ∧ HandlerReturned pre m

def Returns (fileRdBm : Bool) (e : Env) (disk : Handle → Store) (w : World) : Prop :=
  GrubTrusted fileRdBm e disk w.log ∧ Event.startGrub ∈ w.log

def Ends (fileRdBm : Bool) (e : Env) (disk : Handle → Store) (h : Halt) (w : World) : Prop :=
  GrubTrusted fileRdBm e disk w.log ∧ (Event.startGrub ∉ w.log → h = .shutdown ∨ h = .reboot)

/-- A boot starts GRUB only when it may, and if it does not start it, it ends in a shutdown or a reboot. -/
def ChainOfTrust (fileRdBm : Bool) (e : Env) (disk : Handle → Store) : Prop :=
  wp (uefiMain fileRdBm) e (fun _ => Returns fileRdBm e disk) (Ends fileRdBm e disk) ⟨disk, []⟩

theorem grubTrusted_of_notMem {log : List Event} (none : Event.startGrub ∉ log) : GrubTrusted fileRdBm e disk log :=
  fun pre post split => absurd (by simp [split]) none

theorem grubTrusted_of_handler {evs : List Event}
    (mode : BootMode.ofCode (selectedMode fileRdBm e disk) = some m) (none : Event.startGrub ∉ evs)
    (handler : HandlerReturned (checkEvents e disk ++ evs) m) :
    GrubTrusted fileRdBm e disk (checkEvents e disk ++ evs ++ [.startGrub]) := by
  intro pre post split
  have same : checkEvents e disk ++ evs = pre :=
    ((List.append_cons_inj_of_notMem (by simp [checkEvents, none]) (by simp)).mp split).1
  subst same
  exact ⟨by simp [checkEvents], by simp [checkEvents], by simp [checkEvents], m, mode, handler⟩

theorem ends_of_notMem {h : Halt} {w : World}
    (none : Event.startGrub ∉ w.log) (nofault : h ≠ .fault) : Ends fileRdBm e disk h w := by
  refine ⟨grubTrusted_of_notMem none, fun _ => ?_⟩
  cases h with
  | reboot => exact .inr rfl
  | shutdown => exact .inl rfl
  | fault => exact absurd rfl nofault

theorem trusted_secureBootCheck {w : World} {evs : List Event} (bp : BootProc)
    (mode : BootMode.ofCode (selectedMode fileRdBm e disk) = some m)
    (log : w.log = checkEvents e disk ++ evs) (none : Event.startGrub ∉ evs)
    (handler : ∀ evs', HandlerReturned (checkEvents e disk ++ (evs ++ evs' ++ [.returned .secureBootCheck .ok])) m) :
    wp (traced .secureBootCheck (secureBootCheck bp)) e
      (fun st w' => if st = .ok then Returns fileRdBm e disk (w'.note [.startGrub])
        else Ends fileRdBm e disk .shutdown w')
      (Ends fileRdBm e disk) w := by
  rw [wp_traced]
  refine wp_mono (fun st w' noted => ?_) (fun h w' noted => ?_) ((Transfers.secureBootCheck bp).run e w)
  · obtain ⟨evs', log', quiet⟩ := noted
    rw [log, List.append_assoc] at log'
    split_ifs with ok
    · subst ok
      refine ⟨?_, by simp⟩
      have trusted := grubTrusted_of_handler mode (by simp [none, quiet.startGrub_notMem]) (handler evs')
      simpa [log'] using trusted
    · refine ends_of_notMem ?_ nofun
      simp [log', checkEvents, none, quiet.startGrub_notMem]
  · obtain ⟨nofault, evs', log', quiet⟩ := noted
    refine ends_of_notMem ?_ nofault
    simp [log', log, checkEvents, none, quiet.startGrub_notMem]

theorem chainOfTrust_of_mode
    (pass : ChecksPass e disk) (mode : BootMode.ofCode (selectedMode fileRdBm e disk) = some m) (hm : m ≠ .factory) :
    ChainOfTrust fileRdBm e disk := by
  rw [ChainOfTrust, wp_uefiMain_of_checksPass pass, modeHandler, mode]
  cases m with
  | normal =>
    have check (w : World) (noted : Noted ⟨disk, checkEvents e disk⟩ w) :
        wp (traced .secureBootCheck (secureBootCheck
            (bootProc (blkIoScan disk e.devices 0 .zero).2.1 (header e disk)))) e
          (fun st w' => if st = .ok then Returns fileRdBm e disk (w'.note [.startGrub])
            else Ends fileRdBm e disk .shutdown w')
          (Ends fileRdBm e disk) w := by
      obtain ⟨evs, log, quiet⟩ := noted
      exact trusted_secureBootCheck _ mode log quiet.startGrub_notMem fun evs' => by simp [HandlerReturned]
    cases fileRdBm with
    | false => exact check _ (Noted.refl _)
    | true =>
      refine (wp_bind ..).mpr (wp_mono (fun _ w noted => check w noted) (fun h w noted => ?_)
        ((Transfers.bootKeyModeChange ..).run e _))
      obtain ⟨nofault, evs, log, quiet⟩ := noted
      exact ends_of_notMem (by simp [log, checkEvents, quiet.startGrub_notMem]) nofault
  | update =>
    simp only [wp_bind, wp_step, wp_ite, wp_pure]
    by_cases migration : e.outcome .genMigrationKey = .ok
    · rw [if_neg (not_not.mpr migration)]
      exact trusted_secureBootCheck _ mode rfl (by simp) fun evs' => by simp [HandlerReturned, migration]
    · rw [if_pos migration, if_neg migration]
      exact ends_of_notMem (by simp [checkEvents]) (by simp)
  | recovery =>
    exact trusted_secureBootCheck _ mode (List.append_nil _).symm List.not_mem_nil fun evs' => by simp [HandlerReturned]
  | factory => exact absurd rfl hm

theorem not_chainOfTrust (pass : ChecksPass e disk)
    (mode : ∀ m, BootMode.ofCode (selectedMode fileRdBm e disk) = some m → m = .factory) :
    ¬ChainOfTrust fileRdBm e disk := by
  rw [ChainOfTrust, wp_uefiMain_of_checksPass pass, modeHandler]
  cases selected : BootMode.ofCode (selectedMode fileRdBm e disk) with
  | none =>
    rintro ⟨trusted, -⟩
    obtain ⟨-, -, -, m, known, -⟩ := trusted (checkEvents e disk) [] rfl
    simp [selected] at known
  | some m =>
    obtain rfl := mode m selected
    rintro ⟨-, ends⟩
    rcases ends (by simp [checkEvents]) with fault | fault <;> cases fault

/-- With boot mode 9 in the header every check passes, the default branch prints its message, and GRUB starts. -/
theorem starts_grub_in_unknown_mode :
    ¬ChainOfTrust true (Env.refusing []) (fun _ => Store.ofBytes (headerBytes 9 1)) := by
  have pass : ChecksPass (Env.refusing []) (fun _ => Store.ofBytes (headerBytes 9 1)) := ⟨by decide, rfl, rfl⟩
  have mode : BootMode.ofCode (selectedMode true (Env.refusing []) fun _ => Store.ofBytes (headerBytes 9 1)) =
    none := by
    decide
  exact not_chainOfTrust pass fun m known => by simp [mode] at known

/-- The exact condition: one of the three checks before the mode switch fails, or the selected mode is normal, update or
    recovery. -/
theorem grubStart_trusted_iff (fileRdBm : Bool) (e : Env) (disk : Handle → Store) : ChainOfTrust fileRdBm e disk ↔
      (ChecksPass e disk → ∃ m, BootMode.ofCode (selectedMode fileRdBm e disk) = some m ∧ m ≠ .factory) := by
  constructor
  · intro chain pass
    by_contra unknown
    exact not_chainOfTrust pass (fun m mode => by_contra fun hm => unknown ⟨m, mode, hm⟩) chain
  · intro known
    by_cases pass : ChecksPass e disk
    · obtain ⟨m, mode, hm⟩ := known pass
      exact chainOfTrust_of_mode pass mode hm
    · exact wp_uefiMain_of_not_checksPass pass fun evs none => ends_of_notMem none nofun

end LeoEdk.Sbc.Ssbl
