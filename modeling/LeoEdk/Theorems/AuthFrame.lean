import LeoEdk.AuthVariable.Service

/-!
Which variables the programs of the authenticated variable library can change.

`Touches K` holds of two worlds that agree on the platform mode and on every variable outside of `K`. Each program of
the library gets one lemma: it touches only the variables of any `K` that holds the variable it is called for and what
it writes of its own accord. A result about the variables is then a choice of `K`.
-/

namespace LeoEdk.AuthVariable

open Bytes Prog
open Variable (Name Guid EfiStatus globalVariableGuid)

attribute [local irreducible] Prog.instMonad

variable {e : Env} {K : Name → Guid → Prop}

/-- The platform mode and the variables outside of `K` are as they were. -/
def Touches (K : Name → Guid → Prop) (w w' : World) : Prop :=
  w'.mPlatformMode = w.mPlatformMode ∧ ∀ name guid, ¬ K name guid → w'.vars name guid = w.vars name guid

instance : Std.Refl (Touches K) := ⟨fun _ => ⟨rfl, fun _ _ _ => rfl⟩⟩

instance : IsTrans World (Touches K) where
  trans := by
    rintro u v w ⟨mode, vars⟩ ⟨mode', vars'⟩
    exact ⟨mode'.trans mode, fun name guid other => (vars' name guid other).trans (vars name guid other)⟩

theorem Vars.set_self (vars : Vars) (name : Name) (guid : Guid) (r : Option Record) :
    vars.set name guid r name guid = r :=
  if_pos ⟨rfl, rfl⟩

theorem Vars.set_of_ne {name name' : Name} {guid guid' : Guid} (vars : Vars) (r : Option Record)
    (other : ¬ (name' = name ∧ guid' = guid)) : vars.set name guid r name' guid' = vars name' guid' :=
  if_neg other

theorem touches_lift {α : Type} (x : Except Halt α) : Within (Touches K) e (lift x) := by
  cases x with
  | ok a => exact .pure a
  | error h => exact .halt _

theorem touches_find (name : Name) (guid : Guid) : Within (Touches K) e (authServiceInternalFindVariable name guid) :=
  .bind .get fun _ => .ite (.ask _) (.pure _)

/-- The one program that writes a variable; a refused update leaves all as it was. -/
theorem touches_updateVariable {info : VariableInfo} (member : K info.name info.guid) :
    Within (Touches K) e (updateVariable info) := by
  refine .bind .get fun w => .bind (.modify fun _ => ⟨rfl, fun _ _ _ => rfl⟩) fun _ => .bind (.ask _) fun failure => ?_
  cases failure with
  | some status => exact .pure _
  | none =>
    refine .bind (.modify fun v => ⟨rfl, fun name guid other => ?_⟩) fun _ => .pure _
    refine Vars.set_of_ne _ _ ?_
    rintro ⟨rfl, rfl⟩
    exact other member

theorem touches_update {name : Name} {guid : Guid} (data : Bytes) (attributes : UInt32) (member : K name guid) :
    Within (Touches K) e (authServiceInternalUpdateVariable name guid data attributes) := touches_updateVariable member

theorem touches_updateWithTimeStamp {name : Name} {guid : Guid} (payload : Buffer) (attributes : UInt32) (time : Bytes)
    (member : K name guid) :
    Within (Touches K) e (authServiceInternalUpdateVariableWithTimeStamp name guid payload attributes time) := by
  refine .option (touches_find name guid) (touches_updateVariable member) fun r => ?_
  refine .ite (.bind (.ask _) fun x => .bind (touches_lift x) fun data => ?_) ?_
  · exact touches_updateVariable member
  · exact touches_updateVariable member

/-! ### The certificate databases -/

/-- Both "certdb" and "certdbv" are in `K`. -/
structure HoldsCertDbs (K : Name → Guid → Prop) : Prop where
  nonVolatile : K certDbName certDbGuid
  volatile : K certDbVolatileName certDbGuid

theorem HoldsCertDbs.dbName (dbs : HoldsCertDbs K) (attributes : UInt32) : K (dbName attributes) certDbGuid := by
  rw [AuthVariable.dbName]
  split
  · exact dbs.nonVolatile
  · exact dbs.volatile

def CertDbs (_ : Name) (guid : Guid) : Prop := guid = certDbGuid

theorem holdsCertDbs_certDbs : HoldsCertDbs CertDbs := ⟨rfl, rfl⟩

section CertDb

theorem touches_findDb (attributes : UInt32) : Within (Touches K) e (findDb attributes) := by
  exact .option (touches_find _ _) (.pure _) fun r => .ite (.pure _) (.pure _)

theorem touches_searchDb (name : Name) (guid : Guid) (attributes : UInt32) (r : Record) :
    Within (Touches K) e (searchDb name guid attributes r) := .bind (.ask _) fun _ => touches_lift _

theorem touches_getCertsFromDb (name : Name) (guid : Guid) (attributes : UInt32) :
    Within (Touches K) e (getCertsFromDb name guid attributes) := by
  refine .except (touches_findDb attributes) (fun _ => .pure _) fun r => ?_
  exact .except (touches_searchDb name guid attributes r) (fun _ => .pure _) fun node => .ask _

variable (dbs : HoldsCertDbs K)
include dbs

theorem touches_deleteCertsFromDb (name : Name) (guid : Guid) (attributes : UInt32) :
    Within (Touches K) e (deleteCertsFromDb name guid attributes) := by
  refine .except (touches_findDb attributes) (fun _ => .pure _) fun r => ?_
  refine .ite (.pure _) (.except (touches_searchDb name guid attributes r) (fun _ => .pure _) fun node => ?_)
  exact .ite (.pure _) (.bind (.ask _) fun m => touches_update _ _ (dbs.dbName _))

theorem touches_insertCertsToDb (hashAlgId : Nat) (name : Name) (guid : Guid) (attributes : UInt32)
    (signers : Signers) :
    Within (Touches K) e (insertCertsToDb hashAlgId name guid attributes signers) := by
  unfold insertCertsToDb
  cases mHashInfo[hashAlgId]? with
  | none => exact .pure _
  | some alg =>
    refine .except (touches_findDb attributes) (fun _ => .pure _) fun r => ?_
    refine .bind (touches_searchDb name guid attributes r) fun node => ?_
    cases node with
    | ok node => exact .pure _
    | error status =>
      refine .bind (.ask _) fun size => .ite (.pure _) (.option (.ask _) (.pure _) fun digest => ?_)
      exact .bind (touches_update _ _ (dbs.dbName _)) fun _ => .pure _

omit dbs in
theorem touches_staleNode (m : Store) (dataSize : Nat) (fuel offset : Nat) :
    Within (Touches K) e (staleNode m dataSize fuel offset) := by
  induction fuel generalizing offset with
  | zero => exact .halt _
  | succ fuel ih =>
    refine .ite (.pure _) (.bind (.ask _) fun room => .ite (.pure _) (.option (touches_find _ _) (.pure _) fun r => ?_))
    exact .ite (.pure _) (ih _)

/-- Every round removes the entry of one variable that is gone. -/
theorem touches_cleanLoop (fuel : Nat) : Within (Touches K) e (cleanLoop fuel) := by
  induction fuel with
  | zero => exact .halt _
  | succ fuel ih =>
    refine .option (touches_find _ _) (.pure _) fun r => ?_
    refine .ite (.pure _) (.bind (.ask _) fun m => .bind (.ask _) fun f => .bind (touches_staleNode m _ f 4)
      fun stale => ?_)
    rcases stale with status | _ | ⟨name, guid, attributes⟩
    · exact .pure _
    · exact .pure _
    · exact .bind (touches_deleteCertsFromDb dbs _ _ _) fun _ => ih

theorem touches_cleanCertsFromDb : Within (Touches K) e cleanCertsFromDb :=
  .bind (.ask _) fun fuel => touches_cleanLoop dbs fuel

end CertDb

/-! ### The verification -/

theorem touches_verifyWithPk (c : Call) : Within (Touches K) e (verifyWithPk c) := by
  refine .option (.ask _) (.pure _) fun signers => ?_
  exact .option (touches_find _ _) (.pure _) fun r => .bind (.ask _) fun trusted => .ite (.pure _) (.ask _)

theorem touches_verifyWithKek (c : Call) : Within (Touches K) e (verifyWithKek c) := by
  refine .option (touches_find _ _) (.pure _) fun r => ?_
  exact .bind (.ask _) fun x => .bind (touches_lift x) fun verified => .pure _

theorem touches_hasCreator (c : Call) (hashAlgId : Nat) (signers : Signers) (org : Option Bytes) :
    Within (Touches K) e (hasCreator c hashAlgId signers org) := by
  exact .ite (.pure _) (.except (touches_getCertsFromDb _ _ _) (fun _ => .pure _) fun certs => .ask _)

/-- A private variable that is created gets an entry in a certificate database. -/
theorem touches_verifyPrivate (dbs : HoldsCertDbs K) (c : Call) (org : Option Bytes) :
    Within (Touches K) e (verifyPrivate c org) := by
  unfold verifyPrivate
  generalize findHashAlgorithmIndex c.sigData = hashAlgId
  refine .option (.ask _) (.pure _) fun signers => ?_
  refine .bind (touches_hasCreator c _ signers org) fun created => .ite (.pure _) (.bind (.ask _) fun verified => ?_)
  split
  · exact .pure _
  · split
    · exact .bind (touches_insertCertsToDb dbs _ _ _ _ _) fun _ => .pure _
    · exact .pure _

theorem touches_verifySignature (dbs : HoldsCertDbs K) (c : Call) (type : AuthVarType) (org : Option Bytes) :
    Within (Touches K) e (verifySignature c type org) := by
  cases type with
  | pk => exact .bind (touches_verifyWithPk c) fun _ => .pure _
  | kek => exact touches_verifyWithKek c
  | priv => exact .bind (touches_verifyPrivate dbs c org) fun _ => .pure _
  | payload => exact .bind (.ask _) fun _ => .pure _

theorem touches_serialize (c : Call) : Within (Touches K) e (serialize c) :=
  .bind (.ask _) fun _ => by
    split
    · exact .pure _
    · exact .ite (.halt _) (.pure _)

theorem touches_checkFormat (name : Name) (guid : Guid) (payload : Buffer) :
    Within (Touches K) e (checkFormat name guid payload) := .bind (.ask _) fun _ => touches_lift _

theorem touches_deletesUnchecked (c : Call) : Within (Touches K) e (deletesUnchecked c) := by
  unfold deletesUnchecked
  generalize c.signedPayload.data = payload
  exact .bind (.ask _) fun _ => .pure _

/-- The verification writes to the certificate databases, never to the variable that is verified. -/
theorem touches_verifyTimeBasedPayload (dbs : HoldsCertDbs K) (c : Call) (type : AuthVarType)
    (org : Option Bytes) : Within (Touches K) e (verifyTimeBasedPayload c type org) := by
  unfold verifyTimeBasedPayload
  split
  · exact .pure _
  · refine (touches_deletesUnchecked c).bind fun unchecked => ?_
    split
    · exact touches_checkFormat _ _ _
    · refine (touches_serialize c).bind fun refused => ?_
      cases refused with
      | some status => exact .pure _
      | none =>
        refine (touches_verifySignature dbs c type org).bind fun verified => ?_
        rcases verified with status | _ | _
        · exact .pure _
        · exact .pure _
        · exact touches_checkFormat _ _ _

/-- The variable is updated once it is verified, and a deleted one leaves the certificate database. -/
theorem touches_verifyTimeBasedPayloadAndUpdate (dbs : HoldsCertDbs K) (c : Call) (type : AuthVarType)
    (member : K c.name c.guid) : Within (Touches K) e (verifyTimeBasedPayloadAndUpdate c type) := by
  refine .bind (touches_find _ _) fun found => (touches_verifyTimeBasedPayload dbs c type _).bind fun status => ?_
  split
  · exact .pure _
  · refine (touches_updateWithTimeStamp c.signedPayload c.attributes c.timeStamp member).bind fun status => ?_
    split
    · exact .bind (touches_deleteCertsFromDb dbs _ _ _) fun status => .pure _
    · exact .bind (.pure _) fun status => .pure _

theorem touches_inCustomMode : Within (Touches K) e inCustomMode := by
  exact .option (touches_find _ _) (.pure _) fun r => .ask _

theorem touches_customModePresent : Within (Touches K) e customModePresent :=
  .bind touches_inCustomMode fun _ => .ite (.ask _) (.pure _)

theorem touches_writeUnsigned {c : Call} (member : K c.name c.guid) : Within (Touches K) e (writeUnsigned c) :=
  .bind (touches_checkFormat _ _ _) fun _ => .ite (.pure _) (touches_updateWithTimeStamp _ _ _ member)

/-- Nothing is written once the vendor keys are known to be modified. -/
theorem touches_vendorKeyIsModified (nv : K vendorKeysNvName vendorKeysNvGuid)
    (copy : K vendorKeysName globalVariableGuid) :
    Within (Touches K) e vendorKeyIsModified := by
  unfold vendorKeyIsModified
  refine .bind .get fun w => ?_
  split
  · exact .pure _
  · refine .bind (.modify fun _ => ⟨rfl, fun _ _ _ => rfl⟩) fun _ => ?_
    refine (touches_update [vendorKeysModified] attributeNvBsAt nv).bind fun status => ?_
    split
    · exact .pure _
    · exact touches_update _ _ copy

end LeoEdk.AuthVariable
