import LeoEdk.Theorems.AuthFrame

/-! Over every run of the library, user mode means that there is a platform key, and "SetupMode" says so. Calls for
    other variables do not touch the two (`Elsewhere`), and behind a write of the platform key the mode is set anew.
    -/

namespace LeoEdk.AuthVariable

open Bytes Prog
open Variable (Name Guid EfiStatus globalVariableGuid has nonVolatile bootserviceAccess runtimeAccess
  timeBasedAuthenticatedWriteAccess appendWrite)

attribute [local irreducible] Prog.instMonad

def World.pk (w : World) : Option Record := w.vars platformKeyName globalVariableGuid

def World.setupVariable (w : World) : Option Record := w.vars setupModeName globalVariableGuid

def TellsTruth (w : World) : Prop :=
  (w.mPlatformMode = userMode ↔ w.pk.isSome) ∧ ∃ r, w.setupVariable = some r ∧ r.data = [w.mPlatformMode.toUInt8]

structure Sound (w : World) : Prop where
  mode : w.mPlatformMode = setupMode ∨ w.mPlatformMode = userMode
  truth : TellsTruth w

def Elsewhere (name : Name) (guid : Guid) : Prop :=
  ¬ (name = platformKeyName ∧ guid = globalVariableGuid) ∧ ¬ (name = setupModeName ∧ guid = globalVariableGuid)

theorem Sound.of_touches {w w' : World} (sound : Sound w) (touches : Touches Elsewhere w w') : Sound w' := by
  obtain ⟨mode, vars⟩ := touches
  have pk : w'.pk = w.pk := vars _ _ fun elsewhere => elsewhere.1 ⟨rfl, rfl⟩
  have setup : w'.setupVariable = w.setupVariable := vars _ _ fun elsewhere => elsewhere.2 ⟨rfl, rfl⟩
  refine ⟨by rw [mode]; exact sound.mode, ?_⟩
  rw [TellsTruth, mode, pk, setup]
  exact sound.truth

theorem holdsCertDbs_elsewhere : HoldsCertDbs Elsewhere := by
  constructor <;> unfold Elsewhere <;> decide

theorem elsewhere_vendorKeysNv : Elsewhere vendorKeysNvName vendorKeysNvGuid := by
  unfold Elsewhere; decide

theorem elsewhere_vendorKeys : Elsewhere vendorKeysName globalVariableGuid := by
  unfold Elsewhere; decide

/-! ### Calls that do not name the platform key -/

variable {e : Env} {c : Call} {w : World}

theorem touches_writeWithPk {K : Name → Guid → Prop} (dbs : HoldsCertDbs K) (nv : K vendorKeysNvName vendorKeysNvGuid)
    (copy : K vendorKeysName globalVariableGuid) (member : K c.name c.guid) (isPk : Bool) :
    Within (Touches K) e (writeWithPk c isPk) := by
  refine .bind .get fun w => .bind (.ask _) fun pcd => .bind touches_customModePresent fun custom => ?_
  split
  · refine .bind (touches_writeUnsigned member) fun status => ?_
    split
    · exact .pure _
    · exact .ite (.bind (touches_vendorKeyIsModified nv copy) fun _ => .pure _) (.pure _)
  · exact .ite (touches_verifyTimeBasedPayloadAndUpdate dbs c _ member)
      (touches_verifyTimeBasedPayloadAndUpdate dbs c _ member)

theorem touches_processVarWithPk (elsewhere : Elsewhere c.name c.guid) :
    Within (Touches Elsewhere) e (processVarWithPk c false) := by
  unfold processVarWithPk
  split
  · exact .pure _
  · refine .bind (touches_writeWithPk holdsCertDbs_elsewhere elsewhere_vendorKeysNv elsewhere_vendorKeys
      elsewhere false) ?_
    rintro ⟨status, del⟩
    refine .bind .get fun w => ?_
    rw [Bool.and_false]
    exact .pure _

theorem touches_processVarWithKek (elsewhere : Elsewhere c.name c.guid) :
    Within (Touches Elsewhere) e (processVarWithKek c) := by
  unfold processVarWithKek
  split
  · exact .pure _
  · refine .bind .get fun w => .bind touches_customModePresent fun custom => ?_
    split
    · exact .bind (touches_verifyTimeBasedPayloadAndUpdate holdsCertDbs_elsewhere c _ elsewhere) fun _ => .pure _
    · refine .bind (touches_writeUnsigned elsewhere) fun status => ?_
      split
      · exact .pure _
      · exact .ite (touches_vendorKeyIsModified elsewhere_vendorKeysNv elsewhere_vendorKeys) (.pure _)

theorem touches_processVariable {K : Name → Guid → Prop} (dbs : HoldsCertDbs K) (own : K c.name c.guid) :
    Within (Touches K) e (processVariable c) := by
  refine .bind (touches_find _ _) fun found => .bind (.ask _) fun present => .bind (.ask _) fun policy => ?_
  refine .ite (.bind (touches_update _ _ own) fun status => ?_) ?_
  · exact .ite (touches_deleteCertsFromDb dbs _ _ _) (.pure _)
  · refine .bind (.bind (.ask _) fun _ => .pure _) fun needed => ?_
    refine .ite (.pure _) (.ite (.pure _) (.ite ?_ (.ite (.pure _) (touches_update _ _ own))))
    exact .bind (touches_verifyTimeBasedPayloadAndUpdate dbs c _ own) fun _ => .pure _

/-! ### The write of the platform key -/

theorem wp_find {name : Name} {guid : Guid} (named : name.units ≠ []) {Q : Option Record → World → Prop}
    {R : Fault → World → Prop} :
    wp (authServiceInternalFindVariable name guid) e Q R w ↔ Q (w.vars name guid) w := by
  rw [authServiceInternalFindVariable, wp_bind, wp_get, if_neg named, wp_pure]

theorem wp_updateVariable {info : VariableInfo} {Q : EfiStatus → World → Prop} {R : Fault → World → Prop}
    (failed : ∀ status, e.updateFails w.updates info.name info.guid = some status → status ≠ .success →
      Q status { w with updates := w.updates + 1 })
    (done : e.updateFails w.updates info.name info.guid = none → Q (info.update (w.vars info.name info.guid)).1
      { w with
        updates := w.updates + 1
        vars := w.vars.set info.name info.guid (info.update (w.vars info.name info.guid)).2 }) :
    wp (updateVariable info) e Q R w := by
  rw [updateVariable, wp_bind, wp_get, wp_bind, wp_modify, wp_bind, wp_ask]
  cases failure : e.updateFails w.updates info.name info.guid with
  | some status =>
    have refused : status ≠ .success := by
      rintro rfl
      exact e.updateFails_ne _ _ _ failure
    exact (wp_pure _).mpr (failed status failure refused)
  | none =>
    change wp (_ >>= _) e Q R _
    rw [wp_bind, wp_modify, wp_pure]
    exact done failure

theorem VariableInfo.update_isSome {info : VariableInfo} {old : Option Record} (access : info.grantsAccess = true)
    (grows : info.appends = true → info.data ≠ []) (done : (info.update old).1 = .success) :
    ((info.update old).2.isSome ↔ info.data ≠ []) ∧ (info.data = [] → old.isSome = true) := by
  cases old with
  | none =>
    unfold update at done ⊢
    split_ifs at done ⊢ <;> simp_all
  | some r =>
    refine ⟨?_, fun _ => rfl⟩
    by_cases empty : info.data = []
    · have fresh : info.appends = false := by simpa using fun appends => grows appends empty
      simp [update, empty, fresh]
    · simp only [update, empty, access, decide_false, Bool.and_false, Bool.not_true, Bool.or_self, Bool.false_eq_true,
        if_false]
      split <;> simp [empty]

theorem VariableInfo.update_refused {info : VariableInfo} {old : Option Record}
    (refused : (info.update old).1 ≠ .success) :
    (info.update old).2 = old := by
  cases old with
  | none =>
    unfold update at refused ⊢
    split_ifs at refused ⊢ <;> simp_all
  | some r =>
    refine absurd ?_ refused
    simp only [update]
    split
    · rfl
    · split <;> rfl

structure Written (w w' : World) (status : EfiStatus) (del : Bool) : Prop where
  mode : w'.mPlatformMode = w.mPlatformMode
  setup : w'.setupVariable = w.setupVariable
  done : status = .success → (w'.pk.isSome ↔ del = false)
  failed : status ≠ .success → w'.pk = w.pk

namespace Written

variable {w w' : World} {status : EfiStatus} {del : Bool}

theorem of_touches (touches : Touches CertDbs w w') (refused : status ≠ .success) : Written w w' status del := by
  have other : ¬ CertDbs platformKeyName globalVariableGuid := by unfold CertDbs; decide
  exact ⟨touches.1, touches.2 _ _ other, fun done => (refused done).elim, fun _ => touches.2 _ _ other⟩

theorem after {v : World} (touches : Touches CertDbs w v) (written : Written v w' status del) :
    Written w w' status del := by
  have other : ¬ CertDbs platformKeyName globalVariableGuid := by unfold CertDbs; decide
  exact ⟨written.mode.trans touches.1, written.setup.trans (touches.2 _ _ other), written.done,
    fun refused => (written.failed refused).trans (touches.2 _ _ other)⟩

theorem before {v : World} (written : Written w v .success del) (touches : Touches Elsewhere v w') :
    Written w w' .success del := by
  have pk : w'.pk = v.pk := touches.2 _ _ fun elsewhere => elsewhere.1 ⟨rfl, rfl⟩
  have setup : w'.setupVariable = v.setupVariable := touches.2 _ _ fun elsewhere => elsewhere.2 ⟨rfl, rfl⟩
  exact ⟨touches.1.trans written.mode, setup.trans written.setup, by rw [pk]; exact written.done,
    fun refused => (refused rfl).elim⟩

end Written

/-- The calls of the amended contract: "SetupMode" is not written by name, and a write of the platform key grants access
    and does not append nothing. -/
structure Regular (c : Call) : Prop where
  setup : ¬ (c.name = setupModeName ∧ c.guid = globalVariableGuid)
  access : isPlatformKey c.name c.guid = true → c.has (runtimeAccess ||| bootserviceAccess) = true
  grows : isPlatformKey c.name c.guid = true → c.has appendWrite = true → c.payload.data ≠ [] ∧
    c.signedPayload.data ≠ []

theorem isPlatformKey_iff {name : Name} {guid : Guid} :
    isPlatformKey name guid = true ↔ guid = globalVariableGuid ∧ name = platformKeyName := by
  simp [isPlatformKey]

section PlatformKey

variable (named : isPlatformKey c.name c.guid = true) (regular : Regular c)
include named

theorem wp_updatePk (regular : Regular c) (payload : Buffer) (grows : c.has appendWrite = true → payload.data ≠ [])
    (time : Bytes) (w : World) :
    wp (authServiceInternalUpdateVariableWithTimeStamp c.name c.guid payload c.attributes time) e
      (fun status w' => Written w w' status (payload.data = []) ∧
        (status = .success → payload.data = [] → w.pk.isSome = true))
      (fun _ _ => True) w := by
  obtain ⟨guid, name⟩ := isPlatformKey_iff.mp named
  have plain : (isImageSecurityDatabase c.name c.guid || isKeyExchangeKey c.name c.guid) = false := by
    rw [guid, name]; decide
  let info : VariableInfo := ⟨c.name, c.guid, payload.data, c.attributes, some time⟩
  have update : wp (updateVariable info) e
      (fun status w' => Written w w' status (payload.data = []) ∧
        (status = .success → payload.data = [] → w.pk.isSome = true))
      (fun _ _ => True) w := by
    refine wp_updateVariable (fun status _ refused => ?_) fun _ => ?_
    · exact ⟨⟨rfl, rfl, fun done => (refused done).elim, fun _ => rfl⟩, fun done => (refused done).elim⟩
    · have old : w.vars info.name info.guid = w.pk := by rw [World.pk, ← guid, ← name]
      have new : ∀ r, w.vars.set info.name info.guid r platformKeyName globalVariableGuid = r := by
        intro r
        rw [← guid, ← name]
        exact Vars.set_self _ _ _ _
      rw [old]
      have effect := @VariableInfo.update_isSome info w.pk (regular.access named) grows
      refine ⟨⟨rfl, ?_, fun done => ?_, fun refused => ?_⟩, fun done => (effect done).2⟩
      · exact Vars.set_of_ne _ _ fun same => regular.setup ⟨same.1.symm, same.2.symm⟩
      · change (w.vars.set _ _ _ platformKeyName globalVariableGuid).isSome = true ↔ _
        rw [new, (effect done).1, decide_eq_false_iff_not]
      · change w.vars.set _ _ _ platformKeyName globalVariableGuid = _
        rw [new, VariableInfo.update_refused refused]
  rw [authServiceInternalUpdateVariableWithTimeStamp, wp_bind, wp_find c.named]
  cases w.vars c.name c.guid with
  | none => exact update
  | some r =>
    rw [plain, Bool.and_false]
    exact update

theorem written_writeUnsigned (regular : Regular c) (w : World) :
    wp (writeUnsigned c) e (fun status w' => Written w w' status (c.payload.data = [])) (fun _ _ => True) w := by
  rw [writeUnsigned, wp_bind]
  refine (touches_checkFormat (K := CertDbs) _ _ _).wp fun status v touches => ?_
  split
  · exact (wp_pure _).mpr (.of_touches touches ‹_›)
  · have update := wp_updatePk (e := e) named regular c.payload (fun appends => (regular.grows named appends).1)
      c.timeStamp v
    exact wp_mono (fun status w' written => written.1.after touches) (fun _ _ _ => trivial) update

theorem written_verified (regular : Regular c) {type : AuthVarType} (shared : type ≠ .priv) (w : World) :
    wp (verifyTimeBasedPayloadAndUpdate c type) e (fun r w' => Written w w' r.1 r.2) (fun _ _ => True) w := by
  obtain ⟨guid, name⟩ := isPlatformKey_iff.mp named
  rw [verifyTimeBasedPayloadAndUpdate, wp_bind, wp_find c.named, wp_bind]
  have found : w.vars c.name c.guid = w.pk := by rw [World.pk, ← guid, ← name]
  rw [found]
  refine (touches_verifyTimeBasedPayload holdsCertDbs_certDbs c type _).wp fun status v touches => ?_
  have pk : v.pk = w.pk := touches.2 _ _ (by unfold CertDbs; decide)
  split
  · exact (wp_pure _).mpr (.of_touches touches ‹_›)
  · refine wp_seq ?_
      (wp_updatePk named regular c.signedPayload (fun appends => (regular.grows named appends).2) _ v)
    rintro status w' ⟨written, present⟩
    simp only [shared, decide_false, Bool.and_false, Bool.false_and, Bool.false_eq_true, if_false]
    rw [wp_bind, wp_pure, wp_pure]
    have after := written.after touches
    refine ⟨after.mode, after.setup, fun (done : status = .success) => ?_, after.failed⟩
    rw [after.done done]
    by_cases empty : c.signedPayload.data = []
    · have fresh : c.has appendWrite = false := by simpa using fun appends => (regular.grows named appends).2 empty
      rw [pk] at present
      simp [empty, fresh, done, present done empty]
    · simp [empty]

def VendorKeysWritable (e : Env) : Prop :=
  ∀ n, e.updateFails n vendorKeysNvName vendorKeysNvGuid = none ∧
    e.updateFails n vendorKeysName globalVariableGuid = none

omit named in
theorem wp_update_success {name : Name} {guid : Guid} {b : UInt8} {attributes : UInt32}
    (writable : ∀ n, e.updateFails n name guid = none) (member : Elsewhere name guid)
    (access : has attributes (runtimeAccess ||| bootserviceAccess) = true) :
    wp (authServiceInternalUpdateVariable name guid [b] attributes) e
      (fun status w' => status = .success ∧ Touches Elsewhere w w') (fun _ _ => True) w := by
  have done : ∀ old, (VariableInfo.update ⟨name, guid, [b], attributes, none⟩ old).1 = .success := by
    intro old
    cases old with
    | none => simp [VariableInfo.update, VariableInfo.grantsAccess, access]
    | some r =>
      simp only [VariableInfo.update]
      split
      · rfl
      · split <;> rfl
  refine wp_updateVariable (fun status failure _ => ?_) fun _ => ⟨done _, rfl, fun name' guid' other => ?_⟩
  · rw [writable] at failure
    cases failure
  · refine Vars.set_of_ne _ _ ?_
    rintro ⟨rfl, rfl⟩
    exact other member

omit named in
theorem wp_vendorKeyIsModified (writable : VendorKeysWritable e) (w : World) :
    wp vendorKeyIsModified e (fun status w' => status = .success ∧ Touches Elsewhere w w') (fun _ _ => True) w := by
  unfold vendorKeyIsModified
  rw [wp_bind, wp_get]
  split
  · exact (wp_pure _).mpr ⟨rfl, refl_of _ w⟩
  · rw [wp_bind, wp_modify]
    refine wp_seq ?_
      (wp_update_success (fun n => (writable n).1) elsewhere_vendorKeysNv (by decide))
    rintro _ v ⟨rfl, first⟩
    refine wp_mono ?_ (fun _ _ _ => trivial)
      (wp_update_success (fun n => (writable n).2) elsewhere_vendorKeys (by decide))
    rintro _ w' ⟨rfl, second⟩
    exact ⟨rfl, trans_of (Touches Elsewhere) first second⟩

theorem written_writeWithPk (writable : VendorKeysWritable e) (regular : Regular c) (w : World) :
    wp (writeWithPk c true) e (fun r w' => Written w w' r.1 r.2) (fun _ _ => True) w := by
  rw [writeWithPk, wp_bind, wp_get, wp_bind, wp_ask, wp_bind]
  refine (touches_customModePresent (K := CertDbs)).wp fun custom v touches => ?_
  refine wp_mono (fun r w' written => written.after touches) (fun _ _ _ => trivial)
    (?_ : wp _ e (fun r w' => Written v w' r.1 r.2) (fun _ _ => True) v)
  split
  · refine wp_seq (fun status v' written => ?_) (written_writeUnsigned named regular v)
    split
    next refused =>
      rw [wp_pure]
      exact ⟨written.mode, written.setup, fun done => (refused done).elim, written.failed⟩
    next done =>
      obtain rfl : status = .success := not_not.mp done
      split
      · refine wp_seq ?_ (wp_vendorKeyIsModified writable v')
        rintro _ w' ⟨rfl, touches⟩
        rw [wp_pure]
        dsimp only
        exact written.before touches
      · rw [wp_pure]
        dsimp only
        exact written
  · split
    · exact written_verified named regular (by decide) v
    · exact written_verified named regular (by decide) v

end PlatformKey

theorem elsewhere_secureBootMode : Elsewhere secureBootModeName globalVariableGuid := by
  unfold Elsewhere; decide

theorem elsewhere_secureBootEnable : Elsewhere secureBootEnableName secureBootEnableDisableGuid := by
  unfold Elsewhere; decide

theorem touches_updateSecureBootEnable (b : UInt8) : Within (Touches Elsewhere) e (updateSecureBootEnable b) :=
  .bind (touches_find _ _) fun _ =>
    .ite (touches_update _ _ elsewhere_secureBootEnable)
      (.ite (.pure _) (touches_update _ _ elsewhere_secureBootEnable))

theorem wp_updatePlatformMode (mode : UInt32) {r : Record} (setup : w.setupVariable = some r) :
    wp (updatePlatformMode mode) e (fun _ w' => Touches Elsewhere (w.enterMode mode r) w') (fun _ _ => True) w := by
  rw [updatePlatformMode, wp_bind, wp_find (by decide)]
  rw [World.setupVariable] at setup
  rw [setup]
  change wp (_ >>= _) _ _ _ _
  rw [wp_bind, wp_modify, wp_bind, wp_find (by decide), wp_bind, wp_get]
  split
  · exact (wp_pure _).mpr (refl_of _ _)
  · refine Within.wp (R := Touches Elsewhere) (.bind (touches_update _ _ elsewhere_secureBootMode) fun status => ?_)
      fun _ _ touches => touches
    exact .ite (.pure _) (touches_updateSecureBootEnable _)

theorem sound_updatePlatformMode {mode : UInt32} (proper : mode = setupMode ∨ mode = userMode) {r : Record}
    (setup : w.setupVariable = some r) (single : r.data.length = 1) (agrees : mode = userMode ↔ w.pk.isSome) :
    wp (updatePlatformMode mode) e (fun _ w' => Sound w') (fun _ _ => True) w := by
  refine wp_mono (fun _ w' touches => Sound.of_touches ?_ touches) (fun _ _ _ => trivial)
    (wp_updatePlatformMode mode setup)
  have same : (w.enterMode mode r).mPlatformMode = mode := by rcases proper with rfl | rfl <;> rfl
  have pk : (w.enterMode mode r).pk = w.pk := by
    have other : ¬ (platformKeyName = setupModeName ∧ globalVariableGuid = globalVariableGuid) := by decide
    exact Vars.set_of_ne w.vars (some { r with data := mode.toUInt8 :: r.data.drop 1 }) other
  refine ⟨by rw [same]; exact proper, ?_⟩
  rw [TellsTruth, same, pk]
  refine ⟨agrees, { r with data := mode.toUInt8 :: r.data.drop 1 }, ?_, ?_⟩
  · exact Vars.set_self w.vars setupModeName globalVariableGuid _
  · rw [List.drop_eq_nil_of_le (by omega)]

theorem sound_processVarWithPk (named : isPlatformKey c.name c.guid = true) (writable : VendorKeysWritable e)
    (regular : Regular c) (sound : Sound w) :
    wp (processVarWithPk c true) e (fun _ w' => Sound w') (fun _ _ => True) w := by
  unfold processVarWithPk
  split
  · exact (wp_pure _).mpr sound
  refine wp_seq ?_ (written_writeWithPk named writable regular w)
  rintro ⟨status, del⟩ v ⟨mode, setup, done, failed⟩
  obtain ⟨agrees, r, found, data⟩ := sound.truth
  have found' : v.setupVariable = some r := setup.trans found
  have single : r.data.length = 1 := by rw [data]; rfl
  -- What is left as it is: the mode fits the key, because the write failed or did what the mode says.
  have unchanged : (v.mPlatformMode = userMode ↔ v.pk.isSome) → Sound v := by
    intro agrees'
    refine ⟨by rw [mode]; exact sound.mode, agrees', r, found', ?_⟩
    rw [data, mode]
  change wp (_ >>= _) _ _ _ _
  rw [wp_bind, wp_get, Bool.and_true]
  by_cases success : status = .success
  · have present : v.pk.isSome ↔ del = false := done success
    rcases sound.mode with isSetup | isUser
    · have setups : v.mPlatformMode = setupMode := mode.trans isSetup
      have noUser : setupMode ≠ userMode := by decide
      cases del with
      | false =>
        simp only [success, setups, decide_true, Bool.not_false, Bool.and_self, if_true]
        exact sound_updatePlatformMode (.inr rfl) found' single (by simp [present])
      | true =>
        simp only [success, setups, noUser, decide_true, decide_false, Bool.not_true, Bool.and_false, Bool.false_and,
          Bool.false_eq_true, if_false, if_true]
        exact (wp_pure _).mpr (unchanged (by simp [setups, noUser, present]))
    · have users : v.mPlatformMode = userMode := mode.trans isUser
      have noSetup : userMode ≠ setupMode := by decide
      cases del with
      | false =>
        simp only [success, users, noSetup, decide_true, decide_false, Bool.and_false, Bool.false_and,
          Bool.false_eq_true, if_false, if_true]
        exact (wp_pure _).mpr (unchanged (by simp [users, present]))
      | true =>
        simp only [success, users, decide_true, Bool.not_true, Bool.and_false, Bool.and_self,
          Bool.false_eq_true, if_false, if_true]
        exact sound_updatePlatformMode (.inl rfl) found' single (by simp [noSetup.symm, present])
  · simp only [success, decide_false, Bool.false_eq_true, if_false]
    exact (wp_pure _).mpr (unchanged (by rw [mode, failed success]; exact agrees))

theorem elsewhere_of_regular (regular : Regular c) (other : isPlatformKey c.name c.guid = false) :
    Elsewhere c.name c.guid := by
  refine ⟨fun same => ?_, regular.setup⟩
  have named := isPlatformKey_iff.mpr ⟨same.2, same.1⟩
  rw [other] at named
  cases named

theorem sound_processVariable (writable : VendorKeysWritable e) (regular : Regular c) (sound : Sound w) :
    wp (authVariableLibProcessVariable c) e (fun _ w' => Sound w') (fun _ _ => True) w := by
  unfold authVariableLibProcessVariable
  cases named : isPlatformKey c.name c.guid with
  | true => exact sound_processVarWithPk named writable regular sound
  | false =>
    have elsewhere := elsewhere_of_regular regular named
    have aside : Within (Touches Elsewhere) e
        (if isKeyExchangeKey c.name c.guid = true then processVarWithPk c false
        else if isImageSecurityDatabase c.name c.guid = true then do
          let status ← processVarWithPk c false
          if status ≠ .success then processVarWithKek c else return status
        else processVariable c) := by
      refine .ite (touches_processVarWithPk elsewhere)
        (.ite (.bind (touches_processVarWithPk elsewhere) fun status => ?_) ?_)
      · exact .ite (touches_processVarWithKek elsewhere) (.pure _)
      · exact touches_processVariable holdsCertDbs_elsewhere elsewhere
    exact aside.wp fun _ _ touches => sound.of_touches touches

theorem elsewhere_signatureSupport : Elsewhere signatureSupportName globalVariableGuid := by
  unfold Elsewhere; decide

theorem elsewhere_customMode : Elsewhere customModeName customModeEnableGuid := by
  unfold Elsewhere; decide

theorem touches_initSecureBoot : Within (Touches Elsewhere) e initSecureBoot := by
  refine .bind .get fun w => .bind (touches_find _ _) fun found => ?_
  cases found with
  | some r =>
    exact .ite (.bind (.ask _) fun b => touches_update _ _ elsewhere_secureBootMode)
      (touches_update _ _ elsewhere_secureBootMode)
  | none =>
    refine .ite (.bind (touches_update _ _ elsewhere_secureBootEnable) fun status => ?_)
      (touches_update _ _ elsewhere_secureBootMode)
    exact .ite (.pure _) (touches_update _ _ elsewhere_secureBootMode)

theorem touches_initCertDb : Within (Touches Elsewhere) e initCertDb := by
  refine .option (touches_find _ _) (touches_update _ _ holdsCertDbs_elsewhere.nonVolatile) fun r => ?_
  exact touches_cleanCertsFromDb holdsCertDbs_elsewhere

theorem touches_initVendorKeys : Within (Touches Elsewhere) e initVendorKeys := by
  refine .bind (touches_find _ _) fun found => ?_
  cases found with
  | some r => exact .bind (.ask _) fun b => .bind (.modify fun _ => ⟨rfl, fun _ _ _ => rfl⟩) fun _ => .pure _
  | none => exact .bind (.modify fun _ => ⟨rfl, fun _ _ _ => rfl⟩) fun _ => touches_update _ _ elsewhere_vendorKeysNv

theorem touches_initVendorKeysCopy : Within (Touches Elsewhere) e initVendorKeysCopy :=
  .bind .get fun _ => touches_update _ _ elsewhere_vendorKeys

theorem touches_inTurn {steps : List (Auth EfiStatus)} (each : ∀ m ∈ steps, Within (Touches Elsewhere) e m) :
    Within (Touches Elsewhere) e (inTurn steps) := by
  induction steps with
  | nil => exact .pure _
  | cons step steps ih =>
    refine .bind (each step (List.mem_cons_self ..)) fun status => .ite (.pure _) (ih fun m member => ?_)
    exact each m (List.mem_cons_of_mem _ member)

theorem update_byte (name : Name) (guid : Guid) (b : UInt8) (old : Option Record) :
    ∃ r, VariableInfo.update ⟨name, guid, [b], attributeBsRt, none⟩ old = (.success, some r) ∧ r.data = [b] := by
  have access : has attributeBsRt (runtimeAccess ||| bootserviceAccess) = true := by decide
  have fresh : has attributeBsRt appendWrite = false := by decide
  cases old with
  | none =>
    refine ⟨VariableInfo.stored ⟨name, guid, [b], attributeBsRt, none⟩ none, ?_, rfl⟩
    simp [VariableInfo.update, VariableInfo.grantsAccess, access]
  | some r =>
    by_cases same : r.data = [b]
    · exact ⟨r, by simp [VariableInfo.update, VariableInfo.grantsAccess, VariableInfo.appends, access, fresh, same],
        same⟩
    · refine ⟨VariableInfo.stored ⟨name, guid, [b], attributeBsRt, none⟩ (some r), ?_, ?_⟩
      · simp [VariableInfo.update, VariableInfo.grantsAccess, access, same]
      · simp [VariableInfo.stored, VariableInfo.storedData, VariableInfo.appends, fresh]

theorem sound_initSetupMode (w : World) :
    wp initSetupMode e (fun status w' => status = .success → Sound w') (fun _ _ => True) w := by
  rw [initSetupMode, wp_bind, wp_find (by decide), wp_bind, wp_modify]
  refine wp_updateVariable (fun _ _ refused done => (refused done).elim) fun _ _ => ?_
  set mode : UInt32 := if w.vars platformKeyName globalVariableGuid = none then setupMode else userMode with modeIs
  obtain ⟨r, update, data⟩ := update_byte setupModeName globalVariableGuid mode.toUInt8
    (w.vars setupModeName globalVariableGuid)
  have proper : mode = setupMode ∨ mode = userMode := by
    rw [modeIs]; split <;> simp
  have other : ¬ (platformKeyName = setupModeName ∧ globalVariableGuid = globalVariableGuid) := by decide
  have pk := Vars.set_of_ne w.vars (some r) other
  dsimp only
  rw [update]
  refine ⟨proper, ?_, r, Vars.set_self w.vars setupModeName globalVariableGuid (some r), data⟩
  rw [World.pk]
  dsimp only
  rw [pk, modeIs, Option.isSome_iff_ne_none]
  split
  next missing => exact ⟨fun h => absurd h (by decide), fun h => (h missing).elim⟩
  next present => exact ⟨fun _ => present, fun _ => rfl⟩

theorem sound_initialize (w : World) :
    wp authVariableLibInitialize e (fun status w' => status = .success → Sound w') (fun _ _ => True) w := by
  rw [authVariableLibInitialize, inTurn]
  refine wp_seq (fun status v started => ?_) (sound_initSetupMode w)
  split
  · exact (wp_pure _).mpr started
  next done =>
    have sound : Sound v := started (not_not.mp done)
    refine Within.wp (touches_inTurn ?_) fun _ w' touches _ => sound.of_touches touches
    simp only [List.forall_mem_cons, List.not_mem_nil, IsEmpty.forall_iff, implies_true, and_true]
    exact ⟨touches_update _ _ elsewhere_signatureSupport, touches_initSecureBoot,
      touches_update _ _ elsewhere_customMode,
      touches_initCertDb, touches_update _ _ holdsCertDbs_elsewhere.volatile, touches_initVendorKeys,
      touches_initVendorKeysCopy⟩

/-- A regular call that returned, in an environment where the vendor keys can be written. -/
def Called (w w' : World) : Prop :=
  ∃ e c status, VendorKeysWritable e ∧ Regular c ∧ authVariableLibProcessVariable c e w = (.ok status, w')

theorem Called.sound {w' : World} (called : Called w w') (sound : Sound w) : Sound w' := by
  obtain ⟨e, c, status, writable, regular, run⟩ := called
  have post := sound_processVariable writable regular sound
  rw [wp, run] at post
  exact post

/-- After a successful start and any sequence of regular calls, user mode means that there is a platform key, and
    "SetupMode" holds the mode. -/
theorem platform_mode_follows_pk {e : Env} {w₀ w₁ w : World}
    (start : authVariableLibInitialize e w₀ = (.ok .success, w₁))
    (run : Relation.ReflTransGen Called w₁ w) : TellsTruth w := by
  have post := sound_initialize (e := e) w₀
  rw [wp, start] at post
  have sound : Sound w := by
    induction run with
    | refl => exact post rfl
    | tail _ called ih => exact called.sound ih
  exact sound.truth

def plainEnv : Env where
  fuel := 8
  userPhysicalPresent := false
  variablePolicyEnabled := true
  requireSelfSignedPk := false
  scratchBufferSize := 0x1000
  mMaxCertDbSize := 0x1000
  updateFails := fun _ _ _ => none
  updateFails_ne := fun _ _ _ => nofun
  firstVariable := fun _ => none
  behindVariable := fun _ _ _ => 0
  allocateZeroPool := fun _ => true
  rsaNew := true
  rsaGetPublicKeyFromX509 := fun _ => true
  pkcs7GetSigners := fun _ => none
  pkcs7Verify := fun _ _ _ => false
  signChainDigest := fun _ _ => none

def blankWorld : World := ⟨fun _ _ => none, setupMode, vendorKeysValid, 0⟩

def started : World := authVariableLibInitialize.final plainEnv blankWorld

/-- A platform key with one certificate of one byte, behind a descriptor with an empty signature. -/
def pkData : Bytes :=
  List.replicate 16 0 ++ leBytes 4 24 ++ List.replicate 20 0 ++ SecureBoot.certX509Guid ++ leBytes 4 45 ++
    leBytes 4 0 ++ leBytes 4 17 ++ List.replicate 17 0

def enrollPk : Call where
  name := platformKeyName
  named := by decide
  guid := globalVariableGuid
  data := ⟨pkData, by decide, fun _ => 0⟩
  attributes := nonVolatile ||| bootserviceAccess ||| runtimeAccess ||| timeBasedAuthenticatedWriteAccess

def enrolled : World := (authVariableLibProcessVariable enrollPk).final plainEnv started

theorem platform_mode_follows_pk_enrolled :
    (started.mPlatformMode = setupMode ∧ enrolled.mPlatformMode = userMode ∧ enrolled.pk.isSome) ∧
      TellsTruth enrolled := by
  refine ⟨by decide +kernel, ?_⟩
  have start : authVariableLibInitialize plainEnv blankWorld = (.ok .success, started) :=
    Prod.ext (by decide +kernel) rfl
  have call : authVariableLibProcessVariable enrollPk plainEnv started = (.ok .success, enrolled) :=
    Prod.ext (by decide +kernel) rfl
  refine platform_mode_follows_pk start (.single ⟨plainEnv, enrollPk, .success, fun _ => ⟨rfl, rfl⟩, ?_, call⟩)
  exact ⟨by decide, fun _ => by decide, fun _ appends => absurd appends (by decide)⟩

/-- A write of "SetupMode" by its name, which the library leaves to the variable check to refuse. -/
def writeSetupMode : Call where
  name := setupModeName
  named := by decide
  guid := globalVariableGuid
  data := ⟨[0], by decide, fun _ => 0⟩
  attributes := attributeBsRt

theorem setup_mode_written_by_name : (authVariableLibInitialize plainEnv blankWorld).1 = .ok .success ∧
      (authVariableLibProcessVariable writeSetupMode plainEnv started).1 = .ok .success ∧
      ¬ TellsTruth ((authVariableLibProcessVariable writeSetupMode).final plainEnv started) := by
  refine ⟨by decide +kernel, by decide +kernel, ?_⟩
  rintro ⟨-, r, found, data⟩
  have stored : (((authVariableLibProcessVariable writeSetupMode).final plainEnv started).setupVariable.map
    Record.data) = some [0] := by decide +kernel
  have mode : ((authVariableLibProcessVariable writeSetupMode).final plainEnv started).mPlatformMode = setupMode := by
    decide +kernel
  rw [found, Option.map_some, data, mode] at stored
  exact absurd stored (by decide)

end LeoEdk.AuthVariable
