import LeoEdk.Theorems.PlatformMode
import LeoEdk.Theorems.SignatureFormat

/-! Who may change the keys of secure boot in user mode. A verified call has the authority of a stored certificate and
    changes its own variable only (`OwnChange`). Where a certificate is taken from outside of the stored values, a
    call signed under it changes a key. -/

set_option maxRecDepth 8000

namespace LeoEdk.AuthVariable

variable {w : World} {type : AuthVarType} {P : Prop} {vars : Vars}

open Bytes Prog List
open SecureBoot (EfiTime certX509Guid certPkcs7Guid certSha256Guid isValidSignatureByTimestamp)
open Variable (Name Guid EfiStatus globalVariableGuid has nonVolatile bootserviceAccess runtimeAccess
  timeBasedAuthenticatedWriteAccess appendWrite)

attribute [local irreducible] Prog.instMonad

/-! ### Stored certificates -/

def storedField (data : Bytes) (ofs : Nat) : Nat := leNat (slice ofs 4 data)

/-- The certificate of the first signature of a stored value, which lies in the value as a whole. -/
structure IsPkCertificate (data cert : Bytes) : Prop where
  owner : ownerSize ≤ storedField data 24
  inside : signatureListHeaderSize + storedField data 20 + storedField data 24 ≤ data.length
  cert_eq : cert = slice (signatureListHeaderSize + storedField data 20 + ownerSize)
    (storedField data 24 - ownerSize) data

inductive ListAt (data : Bytes) : Nat → Prop where
  | zero : ListAt data 0
  | next {p : Nat} (at_p : ListAt data p) (inside : p + storedField data (p + 16) ≤ data.length) :
      ListAt data (p + storedField data (p + 16))

structure IsX509Entry (data cert : Bytes) (p k : Nat) : Prop where
  at_p : ListAt data p
  type : slice p 16 data = certX509Guid
  owner : ownerSize ≤ storedField data (p + 24)
  whole : p + storedField data (p + 16) ≤ data.length
  inside : signatureListHeaderSize + storedField data (p + 20) + (k + 1) * storedField data (p + 24) ≤
    storedField data (p + 16)
  cert_eq : cert = slice (p + signatureListHeaderSize + storedField data (p + 20) + k * storedField data
    (p + 24) + ownerSize)
    (storedField data (p + 24) - ownerSize) data

def kekOf (vars : Vars) : Option Record := vars keyExchangeKeyName globalVariableGuid
def pkOf (vars : Vars) : Option Record := vars platformKeyName globalVariableGuid

def SignedByPk (e : Env) (vars : Vars) (c : Call) : Prop :=
  ∃ r cert, pkOf vars = some r ∧ IsPkCertificate r.data cert ∧ e.pkcs7Verify c.sigData cert c.newData = true

def SignedByKek (e : Env) (vars : Vars) (c : Call) : Prop :=
  ∃ r cert p k, kekOf vars = some r ∧ IsX509Entry r.data cert p k ∧ e.pkcs7Verify c.sigData cert c.newData = true

def timeKey (time : Bytes) : List Nat :=
  let t := EfiTime.ofBytes time
  [t.year, t.month, t.day, t.hour, t.minute, t.second]

def IsLater (vars : Vars) (c : Call) : Prop :=
  c.has appendWrite = false → ∀ r, vars c.name c.guid = some r → timeKey r.timeStamp < timeKey c.timeStamp

/-- What a call may change: the variable it names, with authority and later than what is stored. -/
structure ChangesAuthorised (e : Env) (vars vars' : Vars) (c : Call) : Prop where
  keys : ∀ name guid, isPlatformKey name guid = true ∨ isKeyExchangeKey name guid = true →
    vars' name guid ≠ vars name guid → (name = c.name ∧ guid = c.guid) ∧ SignedByPk e vars c ∧ IsLater vars c
  databases : ∀ name guid, isImageSecurityDatabase name guid = true → vars' name guid ≠ vars name guid →
    (name = c.name ∧ guid = c.guid) ∧ (SignedByPk e vars c ∨ SignedByKek e vars c) ∧ IsLater vars c

def Described (c : Call) : Prop :=
  c.has timeBasedAuthenticatedWriteAccess = true →
    Call.certDataOffset ≤ c.dataSize ∧ 24 ≤ c.dwLength ∧ c.dwLength ≤ c.dataSize - 16

def StandardMode (e : Env) (w : World) : Prop :=
  (∃ r, w.vars customModeName customModeEnableGuid = some r ∧
    firstByte e customModeName customModeEnableGuid r = customSecureBootMode) → e.userPhysicalPresent = false

/-- In every state with these values of the platform key and the key exchange keys, in user mode, with the variable
    policy enabled and not in custom mode with a present user, every call changes the keys with authority only. -/
def KeysGuarded (pk kek : Option Record) : Prop :=
  ∀ e w c, pkOf w.vars = pk → kekOf w.vars = kek → w.mPlatformMode = userMode → e.variablePolicyEnabled = true →
    StandardMode e w → Described c →
    ChangesAuthorised e w.vars ((authVariableLibProcessVariable c).final e w).vars c

/-! ### The certificates that the library takes -/

def certsOf (m : Store) (signatureSize : Nat) : Nat → Nat → List Bytes
  | 0, _ => []
  | n + 1, cert => signatureData m signatureSize cert :: certsOf m signatureSize n (cert + signatureSize)

def kekCerts (m : Store) : Nat → Nat → Nat → List Bytes
  | 0, _, _ => []
  | fuel + 1, certList, kekDataSize =>
    let l := signatureListAt m certList
    if kekDataSize = 0 ∨ kekDataSize < l.listSize then []
    else if l.signatureType = certX509Guid then
      if l.signatureSize = 0 then []
      else certsOf m l.signatureSize l.count (l.firstAt certList) ++
        kekCerts m fuel (certList + l.listSize) (kekDataSize - l.listSize)
    else kekCerts m fuel (certList + l.listSize) (kekDataSize - l.listSize)

/-- Whatever stands behind the values in memory, the certificate taken from the platform key is stored there, and so is
    each certificate taken from the key exchange keys, unless it is the one of the platform key. -/
structure CertificatesStored (pk kek : Option Record) : Prop where
  platform : ∀ r, pk = some r → ∀ behind, IsPkCertificate r.data (firstSignature (memoryFrom r.data behind))
  exchange : ∀ r, kek = some r → ∀ behind fuel,
    ∀ cert ∈ kekCerts (memoryFrom r.data behind) fuel 0 (r.data.length % 2 ^ 32),
    (∃ p k, IsX509Entry r.data cert p k) ∨ ∃ r', pk = some r' ∧ IsPkCertificate r'.data cert

theorem verifyWithCerts_iff (verify : Bytes → Bool) (m : Store) (size : Nat) (n cert : Nat) :
    verifyWithCerts verify m size n cert = true ↔ ∃ x ∈ certsOf m size n cert, verify x = true := by
  induction n generalizing cert with
  | zero => simp [verifyWithCerts, certsOf]
  | succ n ih => simp [verifyWithCerts, certsOf, ih]

theorem verifyWithLists_iff (verify : Bytes → Bool) (m : Store) (fuel certList left : Nat) :
    verifyWithLists verify m fuel certList left = .ok true ↔ ∃ x ∈ kekCerts m fuel certList left, verify x = true := by
  induction fuel generalizing certList left with
  | zero => simp [verifyWithLists, kekCerts]
  | succ fuel ih =>
    rw [verifyWithLists, kekCerts]
    split
    · simp
    · split
      · split
        · simp
        · have certs := verifyWithCerts_iff verify m (signatureListAt m certList).signatureSize
            (signatureListAt m certList).count ((signatureListAt m certList).firstAt certList)
          split
          next found =>
            obtain ⟨x, member, verified⟩ := certs.mp found
            exact iff_of_true rfl ⟨x, mem_append_left _ member, verified⟩
          next missing =>
            simp only [ih, mem_append, or_and_right, exists_or]
            exact ⟨.inr, fun h => h.resolve_left fun found => missing (certs.mpr found)⟩
      · exact ih _ _

/-! ### What a successful verification says -/

variable {e : Env} {c : Call}

def Authority (e : Env) (vars : Vars) (c : Call) : AuthVarType → Prop
  | .pk => ∃ r, pkOf vars = some r ∧
      e.pkcs7Verify c.sigData (firstSignature (e.variableMemory platformKeyName globalVariableGuid r)) c.newData = true
  | .kek => ∃ r cert, kekOf vars = some r ∧
      cert ∈ kekCerts (e.variableMemory keyExchangeKeyName globalVariableGuid r) e.fuel 0 (r.data.length % 2 ^ 32) ∧
      e.pkcs7Verify c.sigData cert c.newData = true
  | _ => True

theorem wp_lift {α : Type} {x : Except Halt α} {Q : α → World → Prop} {R : Fault → World → Prop}
    (ok : ∀ a, x = .ok a → Q a w) (stop : ∀ h, R h w) : wp (lift x) e Q R w := by
  cases x with
  | ok a => exact (wp_pure _).mpr (ok a rfl)
  | error h => exact (wp_halt _).mpr (stop _)

theorem wp_verifyWithPk (w : World) :
    wp (verifyWithPk c) e (fun b w' => w' = w ∧ (b = true → Authority e w.vars c .pk)) (fun _ w' => w' = w) w := by
  rw [verifyWithPk, wp_bind, wp_ask]
  split
  · exact (wp_pure _).mpr ⟨rfl, nofun⟩
  next signers _ =>
    rw [wp_bind, wp_find (by decide)]
    split
    · exact (wp_pure _).mpr ⟨rfl, nofun⟩
    next r found =>
      rw [wp_bind, wp_ask]
      split
      · exact (wp_pure _).mpr ⟨rfl, nofun⟩
      next same =>
        refine (wp_ask _).mpr ⟨rfl, fun verified => ⟨r, found, ?_⟩⟩
        rw [← not_not.mp same]
        exact verified

theorem wp_verifyWithKek (w : World) : wp (verifyWithKek c) e
      (fun x w' => w' = w ∧ (x = .ok true → Authority e w.vars c .kek) ∧ x ≠ .error .success)
        (fun _ w' => w' = w) w := by
  rw [verifyWithKek, wp_bind, wp_find (by decide)]
  split
  · exact (wp_pure _).mpr ⟨rfl, nofun, nofun⟩
  next r found =>
    rw [wp_bind, wp_ask, wp_bind]
    refine wp_lift (fun b walk => ?_) fun _ => rfl
    refine (wp_pure _).mpr ⟨rfl, fun verified => ?_, nofun⟩
    obtain rfl : b = true := Except.ok.inj verified
    obtain ⟨cert, member, verified⟩ := (verifyWithLists_iff _ _ _ _ _).mp walk
    exact ⟨r, cert, found, member, verified⟩

theorem wp_verifySignature (shared : type ≠ .priv) (org : Option Bytes) (w : World) : wp (verifySignature c type org) e
      (fun x w' => w' = w ∧ (x = .ok true → Authority e w.vars c type) ∧ x ≠ .error .success)
        (fun _ w' => w' = w) w := by
  cases type with
  | pk =>
    rw [verifySignature]
    refine wp_seq (fun b w' post => (wp_pure _).mpr ⟨post.1, fun ok => ?_, nofun⟩) (wp_verifyWithPk w)
    exact post.2 (Except.ok.inj ok)
  | kek => exact wp_verifyWithKek w
  | priv => exact absurd rfl shared
  | payload =>
    rw [verifySignature, wp_bind]
    exact (wp_ask _).mpr ((wp_pure _).mpr ⟨rfl, fun _ => trivial, nofun⟩)

theorem wp_checkFormat {name : Name} {guid : Guid} {payload : Buffer} (w : World) (holds : P) :
    wp (checkFormat name guid payload) e (fun status w' => w' = w ∧ (status = .success → P))
      (fun _ w' => w' = w) w := by
  rw [checkFormat, wp_bind, wp_ask]
  exact wp_lift (fun _ _ => ⟨rfl, fun _ => holds⟩) fun _ => rfl

theorem wp_serialize (w : World) :
    wp (serialize c) e (fun o w' => w' = w ∧ o ≠ some .success) (fun _ w' => w' = w) w := by
  rw [serialize, wp_bind, wp_ask]
  split
  · exact (wp_pure _).mpr ⟨rfl, by simp⟩
  · rw [wp_ite]
    split
    · exact (wp_halt _).mpr rfl
    · exact (wp_pure _).mpr ⟨rfl, by simp⟩

theorem wp_verifyTimeBasedPayload (policy : e.variablePolicyEnabled = true) (shared : type ≠ .priv)
    (org : Option Bytes) (w : World) :
    wp (verifyTimeBasedPayload c type org) e
      (fun status w' => w' = w ∧ (status = .success → descriptorRefused c org = false ∧ Authority e w.vars c type))
      (fun _ w' => w' = w) w := by
  unfold verifyTimeBasedPayload
  split
  · exact (wp_pure _).mpr ⟨rfl, nofun⟩
  next accepted =>
    have unchecked : wp (deletesUnchecked c) e (fun b w' => b = false ∧ w' = w) (fun _ w' => w' = w) w := by
      rw [deletesUnchecked, wp_bind, wp_ask, wp_pure, policy]
      simp
    refine wp_seq ?_ unchecked
    rintro _ v ⟨rfl, rfl⟩
    rw [if_neg Bool.false_ne_true]
    refine wp_seq ?_ (wp_serialize v)
    rintro refused _ ⟨rfl, failure⟩
    cases refused with
    | some status => exact (wp_pure _).mpr ⟨rfl, fun success => (failure (by rw [success])).elim⟩
    | none =>
      change wp (_ >>= _) _ _ _ _
      refine wp_seq ?_ (wp_verifySignature shared org _)
      rintro verified _ ⟨rfl, authority, failure⟩
      rcases verified with status | _ | _
      · exact (wp_pure _).mpr ⟨rfl, fun success => (failure (by rw [success])).elim⟩
      · exact (wp_pure _).mpr ⟨rfl, nofun⟩
      · exact wp_checkFormat _ ⟨by simpa using accepted, authority rfl⟩

/-! ### What a call changes -/

/-- Only the variable of the call may have changed, and only where `P` holds. -/
structure OwnChange (c : Call) (P : Prop) (w v : World) : Prop where
  mode : v.mPlatformMode = w.mPlatformMode
  changed : ∀ name guid, v.vars name guid ≠ w.vars name guid → (name = c.name ∧ guid = c.guid) ∧ P

theorem OwnChange.of_vars {v : World} (mode : v.mPlatformMode = w.mPlatformMode) (vars : v.vars = w.vars) :
    OwnChange c P w v := ⟨mode, fun _ _ differs => (differs (by rw [vars])).elim⟩

theorem Vars.set_eq_self (vars : Vars) (name : Name) (guid : Guid) : vars.set name guid (vars name guid) = vars := by
  funext n g
  unfold Vars.set
  split
  next same => rw [same.1, same.2]
  · rfl

theorem wp_updateOwn {data : Bytes} {attributes : UInt32} {time : Option Bytes} (holds : P) (w : World) :
    wp (updateVariable ⟨c.name, c.guid, data, attributes, time⟩) e
      (fun status v => OwnChange c P w v ∧ (status ≠ .success → v.vars = w.vars)) (fun _ v => v = w) w := by
  refine wp_updateVariable (fun status _ _ => ⟨.of_vars rfl rfl, fun _ => rfl⟩) fun _ =>
    ⟨⟨rfl, fun name guid differs => ?_⟩, fun refused => ?_⟩
  · refine ⟨?_, holds⟩
    by_contra other
    exact differs (Vars.set_of_ne _ _ other)
  · rw [VariableInfo.update_refused refused]
    exact Vars.set_eq_self _ _ _

theorem wp_updateOwnWithTimeStamp (payload : Buffer) (time : Bytes) (holds : P) (w : World) :
    wp (authServiceInternalUpdateVariableWithTimeStamp c.name c.guid payload c.attributes time) e
      (fun status v => OwnChange c P w v ∧ (status ≠ .success → v.vars = w.vars)) (fun _ v => v = w) w := by
  rw [authServiceInternalUpdateVariableWithTimeStamp, wp_bind, wp_find c.named]
  split
  next r _ =>
    rw [wp_ite]
    split
    · rw [wp_bind, wp_ask, wp_bind]
      exact wp_lift (fun data _ => wp_updateOwn holds w) fun _ => rfl
    · exact wp_updateOwn holds w
  · exact wp_updateOwn holds w

theorem timeKey_lt {new org : Bytes} (later : authServiceInternalCompareTimeStamp new org = false) :
    timeKey org < timeKey new := by
  unfold authServiceInternalCompareTimeStamp isValidSignatureByTimestamp at later
  unfold timeKey
  dsimp only
  simp only [cons_lt_cons_iff, not_lt_nil, and_false, or_false]
  split_ifs at later <;> simp_all <;> omega

theorem wp_verified (policy : e.variablePolicyEnabled = true) (shared : type ≠ .priv) (w : World) :
    wp (verifyTimeBasedPayloadAndUpdate c type) e
      (fun r v => OwnChange c (Authority e w.vars c type ∧ IsLater w.vars c) w v ∧ (r.1 ≠ .success → v.vars = w.vars))
      (fun _ v => v = w) w := by
  rw [verifyTimeBasedPayloadAndUpdate, wp_bind, wp_find c.named]
  refine wp_seq ?_ (wp_verifyTimeBasedPayload policy shared _ w)
  rintro status v ⟨rfl, verified⟩
  split
  · exact (wp_pure _).mpr ⟨.of_vars rfl rfl, fun _ => rfl⟩
  next success =>
    obtain ⟨accepted, authority⟩ := verified (not_not.mp success)
    have later : IsLater v.vars c := by
      intro fresh r found
      apply timeKey_lt
      rw [found] at accepted
      simp only [descriptorRefused, fresh, Option.map_some, Bool.not_false, Bool.true_and,
        Bool.or_eq_false_iff] at accepted
      exact accepted.1.1.1.2
    rw [wp_bind]
    have own := wp_updateOwnWithTimeStamp (e := e) (c := c) (P := Authority e v.vars c type ∧ IsLater v.vars c)
      c.signedPayload
      c.timeStamp ⟨authority, later⟩ v
    refine wp_mono (fun status v' post => ?_) (fun _ _ => id) own
    simp only [shared, decide_false, Bool.and_false, Bool.false_and, Bool.false_eq_true, if_false]
    rw [wp_bind, wp_pure, wp_pure]
    exact post

theorem wp_customModePresent (standard : StandardMode e w) :
    wp customModePresent e (fun b v => b = false ∧ v = w) (fun _ _ => False) w := by
  have custom : wp inCustomMode e (fun b v => v = w ∧ (b = true → e.userPhysicalPresent = false))
      (fun _ _ => False) w := by
    rw [inCustomMode, wp_bind, wp_find (by decide)]
    split
    · exact (wp_pure _).mpr ⟨rfl, nofun⟩
    next r found => exact (wp_ask _).mpr ⟨rfl, fun custom => standard ⟨r, found, by simpa using custom⟩⟩
  rw [customModePresent]
  refine wp_seq ?_ custom
  rintro b v ⟨rfl, absent⟩
  cases b with
  | false => exact (wp_pure _).mpr ⟨rfl, rfl⟩
  | true => exact (wp_ask _).mpr ⟨absent rfl, rfl⟩

theorem wp_writeWithPk_user (user : w.mPlatformMode = userMode) (standard : StandardMode e w) {isPk : Bool}
    {Q : EfiStatus × Bool → World → Prop} {R : Fault → World → Prop}
    (verified : wp (verifyTimeBasedPayloadAndUpdate c .pk) e Q R w) : wp (writeWithPk c isPk) e Q R w := by
  rw [writeWithPk, wp_bind, wp_get, wp_bind, wp_ask, wp_bind]
  refine wp_mono ?_ (fun _ _ => False.elim) (wp_customModePresent standard)
  rintro _ v ⟨rfl, rfl⟩
  have noSetup : userMode ≠ setupMode := by decide
  simp only [user, noSetup, decide_false, Bool.false_and, Bool.or_self, Bool.false_eq_true, if_false, if_true]
  exact verified

section UserMode

variable {w : World} (user : w.mPlatformMode = userMode) (policy : e.variablePolicyEnabled = true)
  (standard : StandardMode e w)
include user policy standard

theorem wp_writeWithPk (isPk : Bool) : wp (writeWithPk c isPk) e
      (fun r v => OwnChange c (Authority e w.vars c .pk ∧ IsLater w.vars c) w v ∧ (r.1 ≠ .success → v.vars = w.vars))
      (fun _ v => v = w) w :=
  wp_writeWithPk_user user standard (wp_verified policy (by decide) w)

theorem wp_processOther : wp (processVarWithPk c false) e
      (fun status v => OwnChange c (Authority e w.vars c .pk ∧ IsLater w.vars c) w v ∧
        (status ≠ .success → v.vars = w.vars))
      (fun _ v => v = w) w := by
  unfold processVarWithPk
  split
  · exact (wp_pure _).mpr ⟨.of_vars rfl rfl, fun _ => rfl⟩
  · refine wp_seq ?_ (wp_writeWithPk user policy standard false)
    rintro ⟨status, del⟩ v post
    change wp (_ >>= _) _ _ _ _
    rw [wp_bind, wp_get, Bool.and_false]
    exact (wp_pure _).mpr post

theorem wp_processVarWithKek :
    wp (processVarWithKek c) e (fun _ v => OwnChange c (Authority e w.vars c .kek ∧ IsLater w.vars c) w v)
      (fun _ v => v = w) w := by
  unfold processVarWithKek
  split
  · exact (wp_pure _).mpr (.of_vars rfl rfl)
  · rw [wp_bind, wp_get, wp_bind]
    refine wp_mono ?_ (fun _ _ => False.elim) (wp_customModePresent standard)
    rintro _ v ⟨rfl, rfl⟩
    simp only [user, decide_true, Bool.not_false, Bool.and_self, if_true]
    exact wp_seq (fun r v' post => (wp_pure _).mpr post.1) (wp_verified policy (by decide) v)

end UserMode

def IsKey (name : Name) (guid : Guid) : Prop :=
  isPlatformKey name guid = true ∨ isKeyExchangeKey name guid = true ∨ isImageSecurityDatabase name guid = true

def NoKey (name : Name) (guid : Guid) : Prop := ¬ IsKey name guid

instance (name : Name) (guid : Guid) : Decidable (NoKey name guid) := inferInstanceAs (Decidable (¬ (_ ∨ _ ∨ _)))

theorem holdsCertDbs_noKey : HoldsCertDbs NoKey := ⟨by decide, by decide⟩

def KeepsKeys (w w' : World) : Prop := ∀ name guid, IsKey name guid → w'.vars name guid = w.vars name guid

instance : Std.Refl KeepsKeys := ⟨fun _ _ _ _ => rfl⟩

instance : IsTrans World KeepsKeys :=
  ⟨fun _ _ _ first next name guid key => (next name guid key).trans (first name guid key)⟩

theorem keepsKeys_of_touches {α : Type} {m : Auth α} (touches : Within (Touches NoKey) e m) : Within KeepsKeys e m :=
  touches.mono fun _ _ touches name guid key => touches.2 name guid (not_not.mpr key)

theorem keepsKeys_updateSecureBootEnable (b : UInt8) : Within KeepsKeys e (updateSecureBootEnable b) := by
  have enable : NoKey secureBootEnableName secureBootEnableDisableGuid := by decide
  refine keepsKeys_of_touches (.bind (touches_find _ _) fun _ => .ite (touches_update _ _ enable) (.ite (.pure _) ?_))
  exact touches_update _ _ enable

theorem keepsKeys_updatePlatformMode (mode : UInt32) : Within KeepsKeys e (updatePlatformMode mode) := by
  refine .option (keepsKeys_of_touches (touches_find _ _)) (.pure _) fun r => ?_
  refine .bind (.modify fun w name guid key => ?_) fun _ => .bind (keepsKeys_of_touches (touches_find _ _)) fun found =>
    ?_
  · refine Vars.set_of_ne _ _ ?_
    rintro ⟨rfl, rfl⟩
    revert key
    exact (by decide : NoKey setupModeName globalVariableGuid)
  · refine .bind .get fun w => ?_
    cases secureBootFor found.isSome w.mPlatformMode with
    | none => exact .pure _
    | some b =>
      have secureBoot : NoKey secureBootModeName globalVariableGuid := by decide
      refine .bind (keepsKeys_of_touches (touches_update _ _ secureBoot)) fun status => ?_
      exact .ite (.pure _) (keepsKeys_updateSecureBootEnable b)

theorem keepsKeys_processVariable (other : NoKey c.name c.guid) : Within KeepsKeys e (processVariable c) :=
  keepsKeys_of_touches (touches_processVariable holdsCertDbs_noKey other)

def Permitted (e : Env) (vars : Vars) (c : Call) : Prop :=
  (Authority e vars c .pk ∨ isImageSecurityDatabase c.name c.guid = true ∧ Authority e vars c .kek) ∧ IsLater vars c

def KeyChange (e : Env) (c : Call) (w v : World) : Prop :=
  ∀ name guid, IsKey name guid → v.vars name guid ≠ w.vars name guid → (name = c.name ∧ guid = c.guid) ∧
    Permitted e w.vars c

theorem KeyChange.of_keeps {v : World} (keeps : KeepsKeys w v) : KeyChange e c w v :=
  fun name guid key differs => (differs (keeps name guid key)).elim

theorem KeyChange.of_own {v v' : World} (own : OwnChange c P w v) (permitted : P → Permitted e w.vars c)
    (keeps : KeepsKeys v v') : KeyChange e c w v' := by
  intro name guid key differs
  rw [keeps name guid key] at differs
  obtain ⟨same, holds⟩ := own.changed name guid differs
  exact ⟨same, permitted holds⟩

theorem keyChange_processVariable (user : w.mPlatformMode = userMode) (policy : e.variablePolicyEnabled = true)
    (standard : StandardMode e w) :
    wp (authVariableLibProcessVariable c) e (fun _ v => KeyChange e c w v) (fun _ v => KeyChange e c w v) w := by
  have stopped : ∀ (h : Fault) (v : World), v = w → KeyChange e c w v := by
    rintro _ _ rfl
    exact .of_keeps (refl_of _ _)
  have byPk : Authority e w.vars c .pk ∧ IsLater w.vars c → Permitted e w.vars c := fun h => ⟨.inl h.1, h.2⟩
  unfold authVariableLibProcessVariable
  split
  · unfold processVarWithPk
    split
    · exact (wp_pure _).mpr (.of_keeps (refl_of _ _))
    · rw [wp_bind]
      refine wp_mono ?_ stopped (wp_writeWithPk user policy standard true)
      rintro ⟨status, del⟩ v ⟨own, -⟩
      refine wp_mono (fun _ v' keeps => .of_own own byPk keeps) (fun _ v' keeps => .of_own own byPk keeps)
        ((?_ : Within KeepsKeys e _) v)
      refine .bind .get fun _ => .ite (.ite ?_ (.ite ?_ (.pure _))) (.pure _)
      · exact keepsKeys_updatePlatformMode _
      · exact keepsKeys_updatePlatformMode _
  · split
    · refine wp_mono (fun status v post => ?_) stopped (wp_processOther user policy standard)
      exact .of_own post.1 byPk (refl_of _ _)
    · split
      next database =>
        rw [wp_bind]
        refine wp_mono ?_ stopped (wp_processOther user policy standard)
        rintro status v ⟨own, failed⟩
        split
        next refused =>
          have vars : v.vars = w.vars := failed refused
          have standard' : StandardMode e v := by
            rw [StandardMode, vars]
            exact standard
          refine wp_mono (fun _ v' own' => ?_) ?_ (wp_processVarWithKek (own.mode.trans user) policy standard')
          · rw [vars] at own'
            intro name guid key differs
            rw [← vars] at differs
            obtain ⟨same, authority, later⟩ := own'.changed name guid differs
            exact ⟨same, .inr ⟨database, authority⟩, later⟩
          · rintro _ _ rfl
            exact .of_own own byPk (refl_of _ _)
        · exact (wp_pure _).mpr (.of_own own byPk (refl_of _ _))
      next other =>
        have noKey : NoKey c.name c.guid := by
          rintro (h | h | h)
          all_goals contradiction
        exact wp_mono (fun _ _ => .of_keeps) (fun _ _ => .of_keeps) (keepsKeys_processVariable noKey w)

/-! ### Certificates from outside -/

def sha256Signature : Bytes := [0x30, 0x82] ++ List.replicate 11 0 ++ SecureBoot.HashAlg.sha256.oidValue

def digestWrite : Bytes :=
  zeroTime ++ leBytes 4 (24 + sha256Signature.length) ++ leBytes 2 0x0200 ++ leBytes 2 winCertTypeEfiGuid ++
    certPkcs7Guid ++
    sha256Signature ++ certSha256Guid ++ leBytes 4 76 ++ leBytes 4 0 ++ leBytes 4 48 ++ List.replicate 48 0

def digestAttributes : UInt32 :=
  nonVolatile ||| bootserviceAccess ||| runtimeAccess ||| timeBasedAuthenticatedWriteAccess

def appendToPk : Call where
  name := platformKeyName
  named := enrollPk.named
  guid := globalVariableGuid
  data := ⟨digestWrite, by decide, fun _ => 0⟩
  attributes := digestAttributes ||| appendWrite

def writeDb : Call where
  name := imageSecurityDatabase
  named := by decide
  guid := imageSecurityDatabaseGuid
  data := ⟨digestWrite, by decide, fun _ => 0⟩
  attributes := digestAttributes

/-- An environment that has these bytes behind every variable, and in which the signature of every message is valid
    under the given certificate alone. -/
def signedUnder (cert : Bytes) (signers : Option Signers) (behind : Store) (fuel : Nat) : Env := { plainEnv with
  fuel := fuel + 2
  behindVariable := fun _ _ => behind
  pkcs7GetSigners := fun _ => signers
  pkcs7Verify := fun _ x _ => x = cert }

def userWorld (pk kek : Option Record) : World where
  vars := Vars.set (Vars.set (fun _ _ => none) keyExchangeKeyName globalVariableGuid kek)
    platformKeyName globalVariableGuid pk
  mPlatformMode := userMode
  mVendorKeyState := vendorKeysValid
  updates := 0

theorem pkOf_userWorld (pk kek : Option Record) : pkOf (userWorld pk kek).vars = pk :=
  Vars.set_self (Vars.set (fun _ _ => none) keyExchangeKeyName globalVariableGuid kek)
    platformKeyName globalVariableGuid pk

theorem kekOf_userWorld (pk kek : Option Record) : kekOf (userWorld pk kek).vars = kek := by
  have other : ¬ (keyExchangeKeyName = platformKeyName ∧ globalVariableGuid = globalVariableGuid) := by decide
  exact (Vars.set_of_ne _ pk other).trans (Vars.set_self (fun _ _ => none) keyExchangeKeyName globalVariableGuid kek)

theorem standard_userWorld (e : Env) (pk kek : Option Record) : StandardMode e (userWorld pk kek) := by
  rintro ⟨r, found, -⟩
  cases found

theorem checkPayload_mono {v : KeyVariable} {i : Input} (nonempty : i.dataSize ≠ 0) (more : Nat)
    (run : (checkPayload v 2 i 0).1 = .ok .success) : (checkPayload v (2 + more) i 0).1 = .ok .success := by
  rw [returned_iff_wp, wp_checkPayload _ _ nonempty] at run ⊢
  exact walkLists_mono_add more run

theorem wp_verify_decided {v : KeyVariable} {org : Option Bytes}
    (name : c.name = v.name) (guid : c.guid = v.guid) (accepted : descriptorRefused c org = false)
    (policy : e.variablePolicyEnabled = true) (room : c.newData.length ≤ e.scratchBufferSize)
    {b : Bool} (verified : wp (verifySignature c type org) e (fun x w' => x = .ok b ∧ w' = w) (fun _ _ => False) w)
    (format : (checkPayload v e.fuel ⟨c.signedPayload.data, c.signedPayload.size_lt, c.signedPayload.behind, e.rsaNew,
      e.rsaGetPublicKeyFromX509⟩ 0).1 = .ok .success) :
    wp (verifyTimeBasedPayload c type org) e
      (fun status w' => status = (if b then .success else .securityViolation) ∧ w' = w) (fun _ _ => False) w := by
  rw [verifyTimeBasedPayload, accepted, if_neg Bool.false_ne_true, wp_bind, deletesUnchecked, wp_bind, wp_ask,
    wp_pure, policy]
  simp only [Bool.not_true, Bool.and_false, Bool.false_eq_true, if_false]
  have fits : ¬ e.scratchBufferSize < c.newDataSize := by
    have : c.newDataSize ≤ c.newData.length := Nat.mod_le _ _
    omega
  rw [wp_bind, serialize, wp_bind, wp_ask, if_neg fits, if_neg (not_lt.mpr room), wp_pure]
  change wp (_ >>= _) _ _ _ _
  refine wp_seq ?_ verified
  rintro _ _ ⟨rfl, rfl⟩
  cases b with
  | false => exact (wp_pure _).mpr ⟨rfl, rfl⟩
  | true =>
    change wp (checkFormat _ _ _) _ _ _ _
    rw [name, guid, checkFormat, wp_bind, wp_ask]
    rw [checkPayload] at format
    rw [format]
    exact (wp_pure _).mpr ⟨rfl, rfl⟩

theorem digest_accepted {c : Call} (data : c.data = ⟨digestWrite, by decide, fun _ => 0⟩) {org : Option Bytes}
    (unordered : c.has appendWrite = true ∨ org = none) : descriptorRefused c org = false := by
  have padding : decide (c.timeStamp.drop 7 ≠ List.replicate 9 0) = false := by
    rw [Call.timeStamp, Call.memory, data]; decide
  have type : decide (c.wCertificateType ≠ winCertTypeEfiGuid) = false := by
    rw [Call.wCertificateType, Call.memory, data]; decide
  have certType : decide (c.certType ≠ certPkcs7Guid) = false := by
    rw [Call.certType, Call.memory, data]; decide
  have algorithm : decide (mHashInfo.length ≤ findHashAlgorithmIndex c.sigData) = false := by
    rw [Call.sigData, Call.sigDataSize, Call.dwLength, Call.memory, data]; decide
  unfold descriptorRefused
  rw [padding, type, certType, algorithm]
  rcases unordered with appends | rfl
  · rw [appends]
    cases org <;> simp
  · simp

theorem room_appendToPk : appendToPk.newData.length ≤ plainEnv.scratchBufferSize := by decide

theorem room_writeDb : writeDb.newData.length ≤ plainEnv.scratchBufferSize := by decide

def digestInput (c : Call) : Input :=
  ⟨c.signedPayload.data, c.signedPayload.size_lt, c.signedPayload.behind, plainEnv.rsaNew,
    plainEnv.rsaGetPublicKeyFromX509⟩

theorem format_appendToPk (more : Nat) : (checkPayload .pk (more + 2) (digestInput appendToPk) 0).1 = .ok .success := by
  rw [Nat.add_comm]
  exact checkPayload_mono (by decide +kernel) more (by decide +kernel)

theorem format_writeDb (more : Nat) : (checkPayload .db (more + 2) (digestInput writeDb) 0).1 = .ok .success := by
  rw [Nat.add_comm]
  exact checkPayload_mono (by decide +kernel) more (by decide +kernel)

theorem wp_update_stored {info : VariableInfo} (w : World)
    (writable : ∀ n, e.updateFails n info.name info.guid = none) :
    wp (updateVariable info) e (fun _ v => v.vars info.name info.guid = (info.update (w.vars info.name info.guid)).2)
      (fun _ _ => False) w := by
  refine wp_updateVariable (fun status failure _ => ?_) fun _ => Vars.set_self _ _ _ _
  rw [writable] at failure
  cases failure

theorem wp_digest_changes {v : KeyVariable} {t : AuthVarType} (shared : t ≠ .priv) (name : c.name = v.name)
    (guid : c.guid = v.guid)
    (data : c.data = ⟨digestWrite, by decide, fun _ => 0⟩) (policy : e.variablePolicyEnabled = true)
    (unordered : c.has appendWrite = true ∨ w.vars c.name c.guid = none)
    (unfiltered : (has c.attributes appendWrite &&
      (isImageSecurityDatabase c.name c.guid || isKeyExchangeKey c.name c.guid)) = false)
    (room : c.newData.length ≤ e.scratchBufferSize) (writable : ∀ n, e.updateFails n c.name c.guid = none)
    (verified : wp (verifySignature c t ((w.vars c.name c.guid).map Record.timeStamp)) e
      (fun x w' => x = .ok true ∧ w' = w) (fun _ _ => False) w)
    (format : (checkPayload v e.fuel ⟨c.signedPayload.data, c.signedPayload.size_lt, c.signedPayload.behind, e.rsaNew,
      e.rsaGetPublicKeyFromX509⟩ 0).1 = .ok .success)
    (differs : (VariableInfo.update ⟨c.name, c.guid, c.signedPayload.data, c.attributes, some c.timeStamp⟩
      (w.vars c.name c.guid)).2 ≠ w.vars c.name c.guid) :
    wp (verifyTimeBasedPayloadAndUpdate c t) e (fun _ v => v.vars c.name c.guid ≠ w.vars c.name c.guid)
      (fun _ _ => False) w := by
  have accepted : descriptorRefused c ((w.vars c.name c.guid).map Record.timeStamp) = false :=
    digest_accepted data (unordered.imp_right fun absent => by rw [absent]; rfl)
  have update : wp (updateVariable ⟨c.name, c.guid, c.signedPayload.data, c.attributes, some c.timeStamp⟩) e
      (fun _ v => v.vars c.name c.guid ≠ w.vars c.name c.guid) (fun _ _ => False) w :=
    wp_mono (fun _ _ stored same => differs (stored.symm.trans same)) (fun _ _ => id) (wp_update_stored w writable)
  rw [verifyTimeBasedPayloadAndUpdate, wp_bind, wp_find c.named]
  refine wp_seq ?_ (wp_verify_decided name guid accepted policy room verified format)
  rintro _ w ⟨rfl, rfl⟩
  rw [if_neg (by decide)]
  refine wp_seq (Q := fun _ v => v.vars c.name c.guid ≠ w.vars c.name c.guid) (fun status v post => ?_) ?_
  · simp only [shared, decide_false, Bool.and_false, Bool.false_and, Bool.false_eq_true, if_false]
    rw [wp_bind, wp_pure, wp_pure]
    exact post
  · rw [authServiceInternalUpdateVariableWithTimeStamp, wp_bind, wp_find c.named]
    split
    · rw [unfiltered, if_neg Bool.false_ne_true]
      exact update
    · exact update

theorem VariableInfo.append_ne {info : VariableInfo} (r : Record) (appends : info.appends = true)
    (access : info.grantsAccess = true) (nonempty : info.data ≠ []) : (info.update (some r)).2 ≠ some r := by
  have updated : info.update (some r) = (.success, some (info.stored (some r))) := by
    simp [update, appends, access]
  rw [updated]
  intro same
  have data : r.data ++ info.data = r.data := by
    have stored := congrArg Record.data (Option.some.inj same)
    simpa [stored, VariableInfo.stored, VariableInfo.storedData, appends] using stored
  exact nonempty (append_right_eq_self.mp data)

theorem pk_changed (r : Record) (kek : Option Record) (behind : Store) :
    pkOf ((authVariableLibProcessVariable appendToPk).final
      (signedUnder (firstSignature (memoryFrom r.data behind)) (some ⟨[], firstSignature (memoryFrom r.data behind)⟩)
        behind 0)
      (userWorld (some r) kek)).vars ≠ some r := by
  set trusted := firstSignature (memoryFrom r.data behind)
  set e := signedUnder trusted (some ⟨[], trusted⟩) behind 0
  set w := userWorld (some r) kek
  have found : w.vars appendToPk.name appendToPk.guid = some r := pkOf_userWorld _ _
  have appends : appendToPk.has appendWrite = true := by decide
  have verified : wp (verifySignature appendToPk .pk (some r.timeStamp)) e (fun x w' => x = .ok true ∧ w' = w)
      (fun _ _ => False) w := by
    rw [verifySignature, wp_bind, verifyWithPk, wp_bind, wp_ask]
    change wp (_ >>= _) _ _ _ _
    rw [wp_bind, wp_find (by decide), show w.vars platformKeyName globalVariableGuid = some r from found]
    change wp (_ >>= _) _ _ _ _
    rw [wp_bind, wp_ask]
    have same : ¬ trusted ≠ firstSignature (e.variableMemory platformKeyName globalVariableGuid r) :=
      fun differs => differs rfl
    rw [if_neg same]
    exact (wp_ask _).mpr ((wp_pure _).mpr ⟨by simp [e, signedUnder], rfl⟩)
  have differs := @VariableInfo.append_ne ⟨appendToPk.name, appendToPk.guid, appendToPk.signedPayload.data,
    appendToPk.attributes, some appendToPk.timeStamp⟩ r appends (by decide) (by decide)
  rw [← found] at differs
  have updated := wp_digest_changes (v := .pk) (t := .pk) (e := e) (by decide) rfl rfl rfl rfl (.inl appends)
    (by decide) room_appendToPk (fun _ => rfl) (by rw [found]; exact verified) (format_appendToPk 0) differs
  rw [found] at updated
  have changed : wp (authVariableLibProcessVariable appendToPk) e (fun _ v => pkOf v.vars ≠ some r)
      (fun _ v => pkOf v.vars ≠ some r) w := by
    rw [authVariableLibProcessVariable, if_pos (by decide), processVarWithPk, if_neg (by decide), wp_bind]
    have written : wp (writeWithPk appendToPk true) e (fun _ v => pkOf v.vars ≠ some r) (fun _ _ => False) w :=
      wp_writeWithPk_user rfl (standard_userWorld e _ _) updated
    refine wp_mono ?_ (fun _ _ => False.elim) written
    rintro ⟨status, del⟩ v changed
    have kept : ∀ v', KeepsKeys v v' → pkOf v'.vars ≠ some r := by
      intro v' keeps
      rw [pkOf, keeps _ _ (.inl (by decide))]
      exact changed
    refine wp_mono (fun _ => kept) (fun _ => kept) ((?_ : Within KeepsKeys e _) v)
    refine .bind .get fun _ => .ite (.ite ?_ (.ite ?_ (.pure _))) (.pure _)
    · exact keepsKeys_updatePlatformMode _
    · exact keepsKeys_updatePlatformMode _
  exact wp_final.mp changed

theorem kekCerts_mono (m : Store) (fuel p left : Nat) : kekCerts m fuel p left ⊆ kekCerts m (fuel + 1) p left := by
  induction fuel generalizing p left with
  | zero => exact nil_subset _
  | succ fuel ih =>
    rw [kekCerts, kekCerts]
    split
    · exact List.Subset.refl _
    · split
      · split
        · exact List.Subset.refl _
        · exact append_subset.mpr ⟨subset_append_left _ _, List.Subset.trans (ih _ _) (subset_append_right _ _)⟩
      · exact ih _ _

theorem db_changed (pk : Option Record) {r : Record} {behind : Store} {fuel : Nat} {cert : Bytes}
    (member : cert ∈ kekCerts (memoryFrom r.data behind) fuel 0 (r.data.length % 2 ^ 32)) :
    ((authVariableLibProcessVariable writeDb).final (signedUnder cert none behind fuel) (userWorld pk (some r))).vars
      imageSecurityDatabase imageSecurityDatabaseGuid ≠ none := by
  set e := signedUnder cert none behind fuel
  set w := userWorld pk (some r)
  have absent : w.vars writeDb.name writeDb.guid = none := rfl
  have kek : w.vars keyExchangeKeyName globalVariableGuid = some r := kekOf_userWorld _ _
  have standard : StandardMode e w := standard_userWorld e _ _
  have byPk : wp (processVarWithPk writeDb false) e (fun status v => status = .securityViolation ∧ v = w)
      (fun _ _ => False) w := by
    have unsigned : wp (verifySignature writeDb .pk none) e (fun x w' => x = .ok false ∧ w' = w)
        (fun _ _ => False) w := by
      rw [verifySignature, wp_bind, verifyWithPk, wp_bind, wp_ask]
      exact (wp_pure _).mpr ((wp_pure _).mpr ⟨rfl, rfl⟩)
    have refused : wp (verifyTimeBasedPayloadAndUpdate writeDb .pk) e
        (fun result v => result = (.securityViolation, false) ∧ v = w) (fun _ _ => False) w := by
      rw [verifyTimeBasedPayloadAndUpdate, wp_bind, wp_find writeDb.named, absent]
      refine wp_seq ?_ (wp_verify_decided (v := .db) (e := e) rfl rfl (digest_accepted rfl (.inr rfl)) rfl
        room_writeDb unsigned (format_writeDb fuel))
      rintro status _ ⟨refused, rfl⟩
      obtain rfl : status = .securityViolation := refused
      rw [if_pos (by decide), wp_pure]
      exact ⟨rfl, rfl⟩
    rw [processVarWithPk, if_neg (by decide), wp_bind]
    refine wp_mono ?_ (fun _ _ => False.elim) (wp_writeWithPk_user rfl standard refused)
    rintro _ _ ⟨rfl, rfl⟩
    change wp (_ >>= _) _ _ _ _
    rw [wp_bind, wp_get, Bool.and_false, if_neg Bool.false_ne_true, wp_pure]
    exact ⟨rfl, rfl⟩
  have verified : wp (verifySignature writeDb .kek none) e (fun x w' => x = .ok true ∧ w' = w)
      (fun _ _ => False) w := by
    rw [verifySignature, verifyWithKek, wp_bind, wp_find (by decide), kek]
    change wp (_ >>= _) _ _ _ _
    rw [wp_bind, wp_ask, wp_bind]
    have walk := (verifyWithLists_iff (fun x => decide (x = cert)) (memoryFrom r.data behind) (fuel + 2) 0
      (r.data.length % 2 ^ 32)).mpr ⟨cert, kekCerts_mono _ _ _ _ (kekCerts_mono _ _ _ _ member), decide_eq_true rfl⟩
    change wp (lift (verifyWithLists (fun x => decide (x = cert)) (memoryFrom r.data behind) (fuel + 2) 0 _)) _ _ _ _
    rw [walk]
    exact (wp_pure _).mpr ((wp_pure _).mpr ⟨rfl, rfl⟩)
  have updated := wp_digest_changes (v := .db) (t := .kek) (e := e) (by decide) rfl rfl rfl rfl (.inr absent)
    (by decide) room_writeDb (fun _ => rfl) verified (format_writeDb fuel) (by rw [absent]; decide)
  have changed : wp (authVariableLibProcessVariable writeDb) e
      (fun _ v => v.vars imageSecurityDatabase imageSecurityDatabaseGuid ≠ none)
      (fun _ v => v.vars imageSecurityDatabase imageSecurityDatabaseGuid ≠ none) w := by
    rw [authVariableLibProcessVariable, if_neg (by decide), if_neg (by decide), if_pos (by decide), wp_bind]
    refine wp_mono ?_ (fun _ _ => False.elim) byPk
    rintro _ _ ⟨rfl, rfl⟩
    rw [if_pos (by decide), processVarWithKek, if_neg (by decide), wp_bind, wp_get, wp_bind]
    refine wp_mono ?_ (fun _ _ => False.elim) (wp_customModePresent standard)
    rintro _ v ⟨rfl, rfl⟩
    have user : w.mPlatformMode = userMode := rfl
    simp only [user, decide_true, Bool.not_false, Bool.and_self, if_true]
    rw [wp_bind]
    refine wp_mono (fun r v changed => (wp_pure _).mpr changed) (fun _ _ => False.elim)
      updated
  exact wp_final.mp changed

/-! ### The keys are guarded exactly by stored certificates -/

theorem described_appendToPk : Described appendToPk := fun _ => by decide

theorem described_writeDb : Described writeDb := fun _ => by decide

theorem ChangesAuthorised.signedByPk {e : Env} {vars' : Vars} {r : Option Record}
    (authorised : ChangesAuthorised e vars vars' c) (old : pkOf vars = r) (changed : pkOf vars' ≠ r) :
    SignedByPk e vars c :=
  (authorised.keys platformKeyName globalVariableGuid (.inl (by decide)) fun same => changed (same.trans old)).2.1

theorem ChangesAuthorised.signed {e : Env} {vars' : Vars} (authorised : ChangesAuthorised e vars vars' c)
    (old : vars imageSecurityDatabase imageSecurityDatabaseGuid = none)
    (changed : vars' imageSecurityDatabase imageSecurityDatabaseGuid ≠ none) :
    SignedByPk e vars c ∨ SignedByKek e vars c :=
  (authorised.databases imageSecurityDatabase imageSecurityDatabaseGuid (by decide) fun same =>
    changed (same.trans old)).2.1

theorem signedByPk_signedUnder (signed : SignedByPk (signedUnder cert signers behind fuel) vars c) :
    ∃ r, pkOf vars = some r ∧ IsPkCertificate r.data cert := by
  obtain ⟨r, x, found, stored, verified⟩ := signed
  obtain rfl : x = cert := of_decide_eq_true verified
  exact ⟨r, found, stored⟩

theorem signedByKek_signedUnder (signed : SignedByKek (signedUnder cert signers behind fuel) vars c) :
    ∃ r p k, kekOf vars = some r ∧ IsX509Entry r.data cert p k := by
  obtain ⟨r, x, p, k, found, stored, verified⟩ := signed
  obtain rfl : x = cert := of_decide_eq_true verified
  exact ⟨r, p, k, found, stored⟩

theorem stored_of_guarded (guarded : KeysGuarded pk kek) : CertificatesStored pk kek := by
  constructor
  · rintro r rfl behind
    have authorised := guarded
      (signedUnder (firstSignature (memoryFrom r.data behind)) (some ⟨[], firstSignature (memoryFrom r.data behind)⟩)
        behind 0)
      (userWorld (some r) kek) appendToPk
      (pkOf_userWorld _ _) (kekOf_userWorld _ _) rfl rfl (standard_userWorld _ _ _) described_appendToPk
    have signed := authorised.signedByPk (pkOf_userWorld _ _) (pk_changed r kek behind)
    obtain ⟨r', found, stored⟩ := signedByPk_signedUnder signed
    obtain rfl : r = r' := Option.some.inj ((pkOf_userWorld _ _).symm.trans found)
    exact stored
  · rintro r rfl behind fuel cert member
    have authorised := guarded (signedUnder cert none behind fuel) (userWorld pk (some r)) writeDb
      (pkOf_userWorld _ _) (kekOf_userWorld _ _) rfl rfl (standard_userWorld _ _ _) described_writeDb
    rcases authorised.signed rfl (db_changed pk member) with signed | signed
    · obtain ⟨r', found, stored⟩ := signedByPk_signedUnder signed
      exact .inr ⟨r', (pkOf_userWorld _ _).symm.trans found, stored⟩
    · obtain ⟨r', p, k, found, stored⟩ := signedByKek_signedUnder signed
      obtain rfl : r = r' := Option.some.inj ((kekOf_userWorld _ _).symm.trans found)
      exact .inl ⟨p, k, stored⟩

theorem signedByPk_of_authority {e : Env} (stored : CertificatesStored (pkOf vars) (kekOf vars))
    (authority : Authority e vars c .pk) : SignedByPk e vars c := by
  obtain ⟨r, found, verified⟩ := authority
  exact ⟨r, _, found, stored.platform r found _, verified⟩

theorem signed_of_authority {e : Env} (stored : CertificatesStored (pkOf vars) (kekOf vars))
    (authority : Authority e vars c .kek) : SignedByPk e vars c ∨ SignedByKek e vars c := by
  obtain ⟨r, cert, found, member, verified⟩ := authority
  rcases stored.exchange r found _ _ cert member with ⟨p, k, entry⟩ | ⟨r', found', isPk⟩
  · exact .inr ⟨r, cert, p, k, found, entry, verified⟩
  · exact .inl ⟨r', cert, found', isPk, verified⟩

theorem guarded_of_stored (stored : CertificatesStored pk kek) : KeysGuarded pk kek := by
  rintro e w c rfl rfl user policy standard -
  have change : KeyChange e c w ((authVariableLibProcessVariable c).final e w) :=
    wp_final.mp (keyChange_processVariable user policy standard)
  constructor
  · intro name guid key differs
    obtain ⟨⟨rfl, rfl⟩, authority, later⟩ :=
      change name guid (by rcases key with h | h; exacts [.inl h, .inr (.inl h)]) differs
    refine ⟨⟨rfl, rfl⟩, ?_, later⟩
    rcases authority with byPk | ⟨database, -⟩
    · exact signedByPk_of_authority stored byPk
    · have other : imageSecurityDatabaseGuid ≠ globalVariableGuid := by decide
      have isDatabase : c.guid = imageSecurityDatabaseGuid := by
        simp only [isImageSecurityDatabase, decide_eq_true_eq] at database
        exact database.1
      simp [isPlatformKey, isKeyExchangeKey, isDatabase, other] at key
  · intro name guid database differs
    obtain ⟨same, authority, later⟩ := change name guid (.inr (.inr database)) differs
    refine ⟨same, ?_, later⟩
    rcases authority with byPk | ⟨-, byKek⟩
    · exact .inl (signedByPk_of_authority stored byPk)
    · exact signed_of_authority stored byKek

/-- In user mode the keys change with authority only, for every call, if and only if the certificates that the library
    takes from the platform key and the key exchange keys are stored there. -/
theorem keys_guarded_iff (pk kek : Option Record) : KeysGuarded pk kek ↔ CertificatesStored pk kek :=
  ⟨stored_of_guarded, guarded_of_stored⟩

/-- A platform key that is the header of an X.509 list and nothing else; its signatures have 17 bytes. -/
def headerOnly : Record where
  attributes := digestAttributes
  data := certX509Guid ++ leBytes 4 28 ++ leBytes 4 0 ++ leBytes 4 17
  timeStamp := zeroTime

def outsideSigned : Env := signedUnder [0xaa] (some ⟨[], [0xaa]⟩) (fun _ => 0xaa) 0

theorem pk_changed_without_certificate :
    ((userWorld (some headerOnly) none).mPlatformMode = userMode ∧ outsideSigned.variablePolicyEnabled = true ∧
      StandardMode outsideSigned (userWorld (some headerOnly) none) ∧ Described appendToPk) ∧
    (∀ cert, ¬ IsPkCertificate headerOnly.data cert) ∧
    ¬ ChangesAuthorised outsideSigned (userWorld (some headerOnly) none).vars
      ((authVariableLibProcessVariable appendToPk).final outsideSigned (userWorld (some headerOnly) none)).vars
        appendToPk := by
  have none_stored : ∀ cert, ¬ IsPkCertificate headerOnly.data cert := by
    intro cert stored
    exact absurd stored.inside (by decide)
  refine ⟨⟨rfl, rfl, standard_userWorld _ _ _, described_appendToPk⟩, none_stored, fun authorised => ?_⟩
  have trusted : firstSignature (memoryFrom headerOnly.data fun _ => 0xaa) = [0xaa] := by decide
  have changed := pk_changed headerOnly none fun _ => 0xaa
  rw [trusted] at changed
  obtain ⟨r, found, stored⟩ := signedByPk_signedUnder (authorised.signedByPk (pkOf_userWorld _ _) changed)
  obtain rfl : headerOnly = r := Option.some.inj ((pkOf_userWorld _ _).symm.trans found)
  exact none_stored _ stored

end LeoEdk.AuthVariable
