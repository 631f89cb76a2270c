import LeoEdk.Sbc.SystemControl

/-! Programs that only move data: they add transfers to the log of the boot, and they never fault. The property is
    closed under the constructs of the monad. -/

namespace LeoEdk.Sbc

open Bytes Prog

/-- Only transfers are noted. -/
def Quiet (evs : List Event) : Prop := ∀ ev ∈ evs, ev.isTransfer = true

@[simp] theorem quiet_nil : Quiet [] := fun _ mem => absurd mem List.not_mem_nil

@[simp] theorem quiet_cons (ev : Event) (evs : List Event) : Quiet (ev :: evs) ↔ ev.isTransfer = true ∧ Quiet evs := by
  simp [Quiet]

@[simp] theorem quiet_append (evs evs' : List Event) : Quiet (evs ++ evs') ↔ Quiet evs ∧ Quiet evs' := by
  simp only [Quiet, List.mem_append]
  exact ⟨fun q => ⟨fun ev h => q ev (.inl h), fun ev h => q ev (.inr h)⟩, fun q ev h => h.elim (q.1 ev) (q.2 ev)⟩

theorem Quiet.startSsbl_notMem {evs : List Event} (q : Quiet evs) : Event.startSsbl ∉ evs :=
  fun hm => nomatch q _ hm

theorem Quiet.startGrub_notMem {evs : List Event} (q : Quiet evs) : Event.startGrub ∉ evs :=
  fun hm => nomatch q _ hm

theorem Quiet.returned_notMem {evs : List Event} (q : Quiet evs) (s : Step) (st : Status) : Event.returned s st ∉ evs :=
  fun hm => nomatch q _ hm

/-- The log has grown by transfers. -/
def Noted (w w' : World) : Prop := ∃ evs, w'.log = w.log ++ evs ∧ Quiet evs

theorem Noted.refl (w : World) : Noted w w := ⟨[], by simp, quiet_nil⟩

theorem Noted.trans {w w' w'' : World} (h : Noted w w') (h' : Noted w' w'') : Noted w w'' := by
  obtain ⟨evs, log, quiet⟩ := h
  obtain ⟨evs', log', quiet'⟩ := h'
  exact ⟨evs ++ evs', by rw [log', log, List.append_assoc], by simp [quiet, quiet']⟩

theorem Noted.note (w : World) {ev : Event} (h : ev.isTransfer = true) : Noted w (w.note [ev]) :=
  ⟨[ev], rfl, by simp [h]⟩

theorem Noted.write (w : World) (h : Handle) (ofs : Nat) (bs : Bytes) : Noted w (w.write h ofs bs) :=
  ⟨[], by simp [World.write], quiet_nil⟩

variable {α β : Type}

/-- The program adds only transfers to the log, and it never faults. -/
structure Transfers (m : Boot α) : Prop where
  run : ∀ e w, wp m e (fun _ => Noted w) (fun h w' => h ≠ .fault ∧ Noted w w') w

namespace Transfers

theorem pure (a : α) : Transfers (Pure.pure a : Boot α) := ⟨fun _ w => Noted.refl w⟩

theorem bind {m : Boot α} {f : α → Boot β} (hm : Transfers m) (hf : ∀ a, Transfers (f a)) : Transfers (m >>= f) := by
  refine ⟨fun e w => (wp_bind ..).mpr (wp_mono (fun a w' first => ?_) (fun _ _ h => h) (hm.run e w))⟩
  exact wp_mono (fun _ _ second => first.trans second) (fun _ _ h => ⟨h.1, first.trans h.2⟩) ((hf a).run e w')

theorem ite {c : Prop} [Decidable c] {m n : Boot α} (hm : Transfers m) (hn : Transfers n) :
    Transfers (if c then m else n) := by
  split
  · exact hm
  · exact hn

theorem ask (f : Env → α) : Transfers (Prog.ask f : Boot α) := ⟨fun _ w => Noted.refl w⟩

theorem granted (s : Site) : Transfers (Sbc.granted s) := ask _

theorem halt {h : Halt} (nofault : h ≠ .fault) : Transfers (Prog.halt h : Boot α) :=
  ⟨fun _ w => ⟨nofault, Noted.refl w⟩⟩

theorem emit {ev : Event} (transfer : ev.isTransfer = true) : Transfers (Sbc.emit ev) :=
  ⟨fun _ w => Noted.note w transfer⟩

theorem rawPrtReadBlock (site : Site) (blkhnd : Option Handle) (rdlen rlba : Nat) :
    Transfers (Sbc.rawPrtReadBlock site blkhnd rdlen rlba) := by
  refine ⟨fun e w => ?_⟩
  cases blkhnd with
  | none => exact Noted.refl w
  | some h =>
    rw [wp_rawPrtReadBlock_some]
    split_ifs
    · exact Noted.refl w
    · exact Noted.note w rfl
    · exact Noted.note w rfl

theorem rawPrtBlockWrite (site : Site) (h : Handle) (wrbuf : Bytes) (wrlba : Nat) :
    Transfers (Sbc.rawPrtBlockWrite site (some h) wrbuf wrlba) := by
  refine ⟨fun e w => ?_⟩
  rw [wp_rawPrtBlockWrite_some]
  split_ifs
  · exact Noted.refl w
  · exact (Noted.note w rfl).trans (Noted.write ..)
  · exact Noted.note w rfl

theorem writeHeader (site : Site) (blkhnd : Option Handle) (hdr : RawprtHdr) :
    Transfers (Sbc.writeHeader site blkhnd hdr) := by
  cases blkhnd with
  | none => exact pure _
  | some h => exact rawPrtBlockWrite ..

theorem bootKeyModeChange (site : Site) (newbm : BootMode) (newkey : KeyMode) (bp : BootProc) :
    Transfers (Sbc.bootKeyModeChange site newbm newkey (some bp)) := by
  refine bind (writeHeader ..) fun ret => bind (?_ : Transfers (Sbc.emit (.modeChange site newbm newkey ret)))
    fun _ => pure _
  exact emit rfl

theorem baseanswerStore (blkio : Option Handle) (encmsg iv tag : Bytes) :
    Transfers (Sbc.baseanswerStore blkio encmsg iv tag) := by
  cases blkio with
  | none => exact pure _
  | some h =>
    refine bind (granted _) fun pool => ite (pure _) (bind (rawPrtReadBlock ..) fun r => ite (pure _) ?_)
    exact rawPrtBlockWrite ..

theorem baseAnswerEncryptStore (blkhnd : Option Handle) (key : IdKey) :
    Transfers (Sbc.baseAnswerEncryptStore blkhnd key) := by
  refine bind (ask _) fun iv => bind (ask _) fun r => ?_
  rcases r with _ | ⟨encmsg, tag⟩
  · exact pure _
  · exact baseanswerStore ..

theorem abnormalProcessing (bp : BootProc) : Transfers (Sbc.abnormalProcessing bp) :=
  ite (bind (bootKeyModeChange ..) fun _ => pure _) (pure _)

theorem updateBootPorcsesing (bp : BootProc) : Transfers (Sbc.updateBootPorcsesing bp) := by
  have behavior : Transfers (updateBehaviorForKm bp) := by
    unfold updateBehaviorForKm
    cases bp.bootst with
    | abnram => exact pure _
    | nrma => exact baseAnswerEncryptStore ..
    | unknown => exact pure _
  unfold Sbc.updateBootPorcsesing
  split
  · exact behavior
  · exact behavior
  · exact pure _
  · exact pure _

theorem recoveryBootProcessing (bp : BootProc) : Transfers (Sbc.recoveryBootProcessing bp) := by
  have reboot : Transfers (Prog.halt .reboot : Boot Unit) := halt nofun
  have shutdown : Transfers (Prog.halt .shutdown : Boot Unit) := halt nofun
  refine ite (bind (bootKeyModeChange ..) fun _ => reboot) (ite shutdown ?_)
  refine bind (baseAnswerEncryptStore ..) fun stored => ite shutdown ?_
  exact bind (bootKeyModeChange ..) fun changed => ite shutdown reboot

theorem resetScenario (bp : BootProc) : Transfers (Sbc.resetScenario bp) := by
  have change : Transfers (updateResetModeChange bp) := by
    unfold updateResetModeChange
    cases bp.bootst with
    | nrma => exact bind (bootKeyModeChange ..) fun _ => pure _
    | abnram => exact bind (bootKeyModeChange ..) fun _ => pure _
    | unknown => exact pure _
  exact ite (ite (bind change fun _ => halt nofun) (pure _)) (pure _)

/-- In no mode does the check start anything itself. -/
theorem secureBootCheck (bp : BootProc) : Transfers (Sbc.secureBootCheck bp) := by
  have mode : Transfers (secureBootMode bp) := by
    unfold secureBootMode
    split
    · exact ite (bind (abnormalProcessing bp) fun _ => halt nofun) (pure _)
    · exact bind (recoveryBootProcessing bp) fun _ => pure _
    · exact updateBootPorcsesing bp
    · exact pure _
  exact bind mode fun _ => bind (resetScenario bp) fun _ => pure _

end Transfers

end LeoEdk.Sbc
