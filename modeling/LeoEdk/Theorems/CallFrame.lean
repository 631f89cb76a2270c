import LeoEdk.Theorems.PlatformMode

/-!
Variables that no call names stay as they are, but for those that the library writes of its own accord (`Managed`).

A call writes the variable that it names, and it may write some of the managed ones. With these two as the set of
variables that are touched, every branch of `AuthVariableLibProcessVariable` is covered by the lemmas of the frame; an
induction over the calls then carries a variable through any sequence of them.
-/

namespace LeoEdk.AuthVariable

open Bytes Prog
open Variable (Name Guid EfiStatus globalVariableGuid)

attribute [local irreducible] Prog.instMonad

/-- What the library writes of its own accord: the certificate databases and what follows the platform mode. -/
def Managed (name : Name) (guid : Guid) : Prop :=
  (name, guid) ∈ [(certDbName, certDbGuid), (certDbVolatileName, certDbGuid), (setupModeName, globalVariableGuid),
    (secureBootModeName, globalVariableGuid), (secureBootEnableName, secureBootEnableDisableGuid),
    (vendorKeysNvName, vendorKeysNvGuid), (vendorKeysName, globalVariableGuid)]

instance (name : Name) (guid : Guid) : Decidable (Managed name guid) := inferInstanceAs (Decidable (_ ∈ _))

def Writes (c : Call) (name : Name) (guid : Guid) : Prop := Managed name guid ∨ name = c.name ∧ guid = c.guid

def Spares (c : Call) (w w' : World) : Prop := ∀ name guid, ¬ Writes c name guid → w'.vars name guid = w.vars name guid

variable {e : Env} {c : Call}

instance : Std.Refl (Spares c) := ⟨fun _ _ _ _ => rfl⟩

instance : IsTrans World (Spares c) :=
  ⟨fun _ _ _ first next name guid other => (next name guid other).trans (first name guid other)⟩

theorem spares_of_touches {α : Type} {m : Auth α} (touches : Within (Touches (Writes c)) e m) : Within (Spares c) e m :=
  touches.mono fun _ _ touches => touches.2

theorem holdsCertDbs_writes : HoldsCertDbs (Writes c) := ⟨.inl (by decide), .inl (by decide)⟩

theorem own_writes : Writes c c.name c.guid := .inr ⟨rfl, rfl⟩

theorem touches_managed {name : Name} {guid : Guid} (data : Bytes) (attributes : UInt32) (managed : Managed name guid) :
    Within (Touches (Writes c)) e (authServiceInternalUpdateVariable name guid data attributes) :=
  touches_update data attributes (.inl managed)

theorem spares_updatePlatformMode (mode : UInt32) : Within (Spares c) e (updatePlatformMode mode) := by
  refine .option (spares_of_touches (touches_find _ _)) (.pure _) fun r => ?_
  refine .bind (.modify fun w name guid other => ?_) fun _ => .bind (spares_of_touches (touches_find _ _)) fun found =>
    ?_
  · refine Vars.set_of_ne _ _ ?_
    rintro ⟨rfl, rfl⟩
    exact other (.inl (by decide))
  · refine .bind .get fun w => ?_
    cases secureBootFor found.isSome w.mPlatformMode with
    | none => exact .pure _
    | some b =>
      refine spares_of_touches (.bind (touches_managed _ _ (by decide)) fun status => .ite (.pure _) ?_)
      refine .bind (touches_find _ _) fun found => .ite (touches_managed _ _ (by decide)) (.ite (.pure _) ?_)
      exact touches_managed _ _ (by decide)

theorem spares_processVarWithPk (isPk : Bool) : Within (Spares c) e (processVarWithPk c isPk) := by
  unfold processVarWithPk
  split
  · exact .pure _
  · refine .bind (spares_of_touches (touches_writeWithPk holdsCertDbs_writes (.inl (by decide)) (.inl (by decide))
      own_writes isPk)) ?_
    rintro ⟨status, del⟩
    refine .bind .get fun w => .ite (.ite (spares_updatePlatformMode _) (.ite ?_ (.pure _))) (.pure _)
    exact spares_updatePlatformMode _

theorem touches_processKek : Within (Touches (Writes c)) e (processVarWithKek c) := by
  unfold processVarWithKek
  split
  · exact .pure _
  · refine .bind .get fun w => .bind touches_customModePresent fun custom => ?_
    split
    · exact .bind (touches_verifyTimeBasedPayloadAndUpdate holdsCertDbs_writes c _ own_writes) fun _ => .pure _
    · refine .bind (touches_writeUnsigned own_writes) fun status => ?_
      split
      · exact .pure _
      · exact .ite (touches_vendorKeyIsModified (.inl (by decide)) (.inl (by decide))) (.pure _)

theorem spares_processVariable : Within (Spares c) e (authVariableLibProcessVariable c) := by
  refine .ite (spares_processVarWithPk true) (.ite (spares_processVarWithPk false) (.ite ?_ ?_))
  · refine .bind (spares_processVarWithPk false) fun status => .ite ?_ (.pure _)
    exact spares_of_touches touches_processKek
  · exact spares_of_touches (touches_processVariable holdsCertDbs_writes own_writes)

end LeoEdk.AuthVariable
