import LeoEdk.AuthVariable.Variables

/-!
The authenticated variable library at boot time (`AuthService.c`, `AuthVariableLib.c`): the verification of time-based
authenticated writes, the writes of the platform key, the key exchange keys and the image security databases, and the
platform mode.
-/

namespace LeoEdk.AuthVariable

open Bytes Prog
open SecureBoot (HashAlg certX509Guid certPkcs7Guid guid)
open Variable (Name Guid EfiStatus globalVariableGuid has nonVolatile bootserviceAccess runtimeAccess
  authenticatedWriteAccess timeBasedAuthenticatedWriteAccess appendWrite)

/-- A call of `AuthVariableLibProcessVariable`; `SetVariable` has refused the empty name. -/
structure Call where
  name : Name
  named : name.units ≠ []
  guid : Guid
  data : Buffer
  attributes : UInt32

theorem sub64_lt (a b : Nat) : sub64 a b < 2 ^ 64 := Nat.mod_lt _ (by decide)

def bufferAt (m : Store) (ofs a b : Nat) : Buffer where
  data := m.read ofs (sub64 a b)
  size_lt := by rw [Store.length_read]; exact sub64_lt a b
  behind := fun k => m (ofs + sub64 a b + k)

namespace Call

variable (c : Call)

def memory : Store := c.data.memory
def dataSize : Nat := c.data.data.length
def timeStamp : Bytes := c.memory.read 0 16
def dwLength : Nat := read32At c.memory 16
def wCertificateType : Nat := leNat (c.memory.read 22 2)
def certType : Bytes := c.memory.read 24 16

def authInfo2Size : Nat := 16 + c.dwLength

def certDataOffset : Nat := 40

def sigDataSize : Nat := (c.dwLength + (2 ^ 32 - 24)) % 2 ^ 32
def sigData : Bytes := c.memory.read certDataOffset c.sigDataSize

def payload : Buffer := bufferAt c.memory c.authInfo2Size c.dataSize c.authInfo2Size

def signedPayload : Buffer :=
  bufferAt c.memory (certDataOffset + c.sigDataSize) (sub64 c.dataSize certDataOffset) c.sigDataSize

def newData : Bytes :=
  nameUnits c.name ++ c.guid.bytes ++ leBytes 4 c.attributes.toNat ++ c.timeStamp ++ c.signedPayload.data

def has (mask : UInt32) : Bool := Variable.has c.attributes mask

end Call

/-! ### The platform mode -/

def setupMode : UInt32 := 1
def userMode : UInt32 := 0
def secureBootModeEnable : UInt8 := 1
def secureBootModeDisable : UInt8 := 0
def secureBootEnable : UInt8 := 1
def secureBootDisable : UInt8 := 0
def customSecureBootMode : UInt8 := 1
def standardSecureBootMode : UInt8 := 0
def vendorKeysValid : UInt8 := 1
def vendorKeysModified : UInt8 := 0

def attributeBsRt : UInt32 := runtimeAccess ||| bootserviceAccess
def attributeNvBs : UInt32 := nonVolatile ||| bootserviceAccess
def attributeNvBsAt : UInt32 := nonVolatile ||| bootserviceAccess ||| timeBasedAuthenticatedWriteAccess

def firstByte (e : Env) (name : Name) (guid : Guid) (r : Record) : UInt8 := e.variableMemory name guid r 0

def needPhysicallyPresent (name : Name) (guid : Guid) : Auth Bool := do
  return (← ask Env.variablePolicyEnabled) &&
    ((guid = secureBootEnableDisableGuid && name = secureBootEnableName) ||
      (guid = customModeEnableGuid && name = customModeName))

def inCustomMode : Auth Bool := do
  match ← authServiceInternalFindVariable customModeName customModeEnableGuid with
  | none => return false
  | some r => ask fun e => firstByte e customModeName customModeEnableGuid r == customSecureBootMode

def World.enterMode (mode : UInt32) (r : Record) (w : World) : World := { w with
  mPlatformMode := mode.toUInt8.toUInt32
  vars := w.vars.set setupModeName globalVariableGuid (some { r with data := mode.toUInt8 :: r.data.drop 1 }) }

def updateSecureBootEnable (secureBootMode : UInt8) : Auth EfiStatus := do
  let found ← authServiceInternalFindVariable secureBootEnableName secureBootEnableDisableGuid
  if secureBootMode = secureBootModeEnable then
    authServiceInternalUpdateVariable secureBootEnableName secureBootEnableDisableGuid [secureBootEnable] attributeNvBs
  else if found = none then return .success
  else authServiceInternalUpdateVariable secureBootEnableName secureBootEnableDisableGuid [] attributeNvBs

def secureBootFor (present : Bool) (mode : UInt32) : Option UInt8 :=
  if !present then some secureBootModeDisable
  else if mode = userMode then some secureBootModeEnable
  else if mode = setupMode then some secureBootModeDisable
  else none

def updatePlatformMode (mode : UInt32) : Auth EfiStatus := do
  match ← authServiceInternalFindVariable setupModeName globalVariableGuid with
  | none => return .notFound
  | some r =>
    modify (World.enterMode mode r)
    let found ← authServiceInternalFindVariable secureBootModeName globalVariableGuid
    match secureBootFor found.isSome (← get).mPlatformMode with
    | none => return .notFound
    | some secureBootMode =>
      let status ← authServiceInternalUpdateVariable secureBootModeName globalVariableGuid [secureBootMode]
        attributeBsRt
      if status ≠ .success then return status
      else updateSecureBootEnable secureBootMode

def vendorKeyIsModified : Auth EfiStatus := do
  if (← get).mVendorKeyState = vendorKeysModified then return .success
  else
    modify fun w => { w with mVendorKeyState := vendorKeysModified }
    let status ← authServiceInternalUpdateVariable vendorKeysNvName vendorKeysNvGuid [vendorKeysModified]
      attributeNvBsAt
    if status ≠ .success then return status
    else authServiceInternalUpdateVariable vendorKeysName globalVariableGuid [vendorKeysModified] attributeBsRt

/-! ### The verification of a time-based authenticated write -/

inductive AuthVarType where
  | pk | kek | priv | payload
  deriving DecidableEq, Repr

def winCertTypeEfiGuid : Nat := 0x0ef1
def twoByteEncode : UInt8 := 0x82

/-- Whether the identifier of an algorithm stands at `ofs`, behind a length of two bytes at `lengthOfs`. -/
def namesAlgorithm (sigData : Bytes) (lengthOfs ofs : Nat) (alg : HashAlg) : Bool :=
  ofs + alg.oidValue.length ≤ sigData.length && (sigData.getD lengthOfs 0 &&& twoByteEncode == twoByteEncode) &&
    slice ofs alg.oidValue.length sigData == alg.oidValue

def findHashAlgorithmIndex (sigData : Bytes) : Nat :=
  mHashInfo.findIdx fun alg => namesAlgorithm sigData 1 13 alg || namesAlgorithm sigData 20 32 alg

def descriptorRefused (c : Call) (orgTimeStamp : Option Bytes) : Bool :=
  c.timeStamp.drop 7 ≠ List.replicate 9 0 ||
  (match orgTimeStamp with
    | none => false
    | some org => !c.has appendWrite && authServiceInternalCompareTimeStamp c.timeStamp org) ||
  c.wCertificateType ≠ winCertTypeEfiGuid || c.certType ≠ certPkcs7Guid ||
  (c.has timeBasedAuthenticatedWriteAccess && mHashInfo.length ≤ findHashAlgorithmIndex c.sigData)

def signatureData (m : Store) (signatureSize cert : Nat) : Bytes :=
  m.read (cert + ownerSize) (sub64 signatureSize ownerSize)

def firstSignature (m : Store) : Bytes :=
  let l := signatureListAt m 0
  signatureData m l.signatureSize (l.firstAt 0)

def verifyWithPk (c : Call) : Auth Bool := do
  match ← ask fun e => e.pkcs7GetSigners c.sigData with
  | none => return false
  | some signers =>
    match ← authServiceInternalFindVariable platformKeyName globalVariableGuid with
    | none => return false
    | some r =>
      let trusted ← ask fun e => firstSignature (e.variableMemory platformKeyName globalVariableGuid r)
      if signers.topLevelCert ≠ trusted then return false
      else ask fun e => e.pkcs7Verify c.sigData signers.topLevelCert c.newData

def verifyWithCerts (verify : Bytes → Bool) (m : Store) (signatureSize : Nat) : Nat → Nat → Bool
  | 0, _ => false
  | n + 1, cert =>
    verify (signatureData m signatureSize cert) || verifyWithCerts verify m signatureSize n (cert + signatureSize)

/-- The walk over the lists of the key exchange keys; `KekDataSize` is a `UINT32`. -/
def verifyWithLists (verify : Bytes → Bool) (m : Store) : Nat → Nat → Nat → Except Halt Bool
  | 0, _, _ => .error .endless
  | fuel + 1, certList, kekDataSize =>
    let l := signatureListAt m certList
    if kekDataSize = 0 ∨ kekDataSize < l.listSize then .ok false
    else if l.signatureType = certX509Guid then
      if l.signatureSize = 0 then .error .divideError
      else if verifyWithCerts verify m l.signatureSize l.count (l.firstAt certList) then .ok true
      else verifyWithLists verify m fuel (certList + l.listSize) (kekDataSize - l.listSize)
    else verifyWithLists verify m fuel (certList + l.listSize) (kekDataSize - l.listSize)

def verifyWithKek (c : Call) : Auth (Except EfiStatus Bool) := do
  match ← authServiceInternalFindVariable keyExchangeKeyName globalVariableGuid with
  | none => return .error .notFound
  | some r =>
    let verified ← lift (← ask fun e =>
      verifyWithLists (fun cert => e.pkcs7Verify c.sigData cert c.newData)
        (e.variableMemory keyExchangeKeyName globalVariableGuid r) e.fuel 0 (r.data.length % 2 ^ 32))
    return .ok verified

/-- Whether the signers are those of the database: by their digest, or in the older form as a whole. -/
def isSameSigner (e : Env) (hashAlgId : Nat) (signers : Signers) (certs : Bytes) : Bool :=
  match mHashInfo[hashAlgId]? with
  | none => signers.signerCerts = certs
  | some alg =>
    if certs.length = alg.digestLength then e.signChainDigest hashAlgId signers = some certs
    else signers.signerCerts = certs

def hasCreator (c : Call) (hashAlgId : Nat) (signers : Signers) (orgTimeStamp : Option Bytes) : Auth Bool := do
  if orgTimeStamp = none then return true
  else
    match ← getCertsFromDb c.name c.guid c.attributes with
    | .error _ => return false
    | .ok certs => ask fun e => isSameSigner e hashAlgId signers certs

def verifyPrivate (c : Call) (orgTimeStamp : Option Bytes) : Auth Bool := do
  let hashAlgId := findHashAlgorithmIndex c.sigData
  match ← ask fun e => e.pkcs7GetSigners c.sigData with
  | none => return false
  | some signers =>
    if !(← hasCreator c hashAlgId signers orgTimeStamp) then return false
    else if !(← ask fun e => e.pkcs7Verify c.sigData signers.topLevelCert c.newData) then return false
    else if orgTimeStamp = none && c.signedPayload.data ≠ [] then
      return (← insertCertsToDb hashAlgId c.name c.guid c.attributes signers) = some .success
    else return true

def verifyWithPayload (c : Call) : Auth Bool :=
  ask fun e => e.pkcs7Verify c.sigData (firstSignature c.signedPayload.memory) c.newData

def verifySignature (c : Call) (type : AuthVarType) (orgTimeStamp : Option Bytes) : Auth (Except EfiStatus Bool) :=
  match type with
  | .pk => do return .ok (← verifyWithPk c)
  | .kek => verifyWithKek c
  | .priv => do return .ok (← verifyPrivate c orgTimeStamp)
  | .payload => do return .ok (← verifyWithPayload c)

def Call.newDataSize (c : Call) : Nat := c.newData.length % 2 ^ 64

def serialize (c : Call) : Auth (Option EfiStatus) := do
  let size ← ask Env.scratchBufferSize
  if size < c.newDataSize then return some .outOfResources
  else if size < c.newData.length then halt .overrun
  else return none

def checkFormat (name : Name) (guid : Guid) (payload : Buffer) : Auth EfiStatus := do
  lift (← ask fun e =>
    (checkSignatureListFormat e.fuel name guid
      ⟨payload.data, payload.size_lt, payload.behind, e.rsaNew, e.rsaGetPublicKeyFromX509⟩ 0).1)

/-- Whether the write deletes a variable while the variable policy is disabled; it then needs no signature. -/
def deletesUnchecked (c : Call) : Auth Bool := do
  return c.signedPayload.data = [] && !c.has appendWrite && !(← ask Env.variablePolicyEnabled)

def verifyTimeBasedPayload (c : Call) (type : AuthVarType) (orgTimeStamp : Option Bytes) : Auth EfiStatus := do
  if descriptorRefused c orgTimeStamp then return .securityViolation
  else if ← deletesUnchecked c then checkFormat c.name c.guid c.signedPayload
  else
    match ← serialize c with
    | some status => return status
    | none =>
      match ← verifySignature c type orgTimeStamp with
      | .error status => return status
      | .ok false => return .securityViolation
      | .ok true => checkFormat c.name c.guid c.signedPayload

/-- The status and `VarDel`. -/
def verifyTimeBasedPayloadAndUpdate (c : Call) (type : AuthVarType) : Auth (EfiStatus × Bool) := do
  let found ← authServiceInternalFindVariable c.name c.guid
  let status ← verifyTimeBasedPayload c type (found.map Record.timeStamp)
  if status ≠ .success then return (status, false)
  else
    let isDel := found.isSome && c.signedPayload.data = [] && !c.has appendWrite
    let status ← authServiceInternalUpdateVariableWithTimeStamp c.name c.guid c.signedPayload c.attributes c.timeStamp
    let status ← if isDel && type = .priv && status = .success then deleteCertsFromDb c.name c.guid c.attributes
      else pure status
    return (status, isDel && status = .success)

/-- The attributes that the platform key, the key exchange keys and the image security databases must have. -/
def Call.isProtected (c : Call) : Bool := c.has nonVolatile && c.has timeBasedAuthenticatedWriteAccess

def writeUnsigned (c : Call) : Auth EfiStatus := do
  let status ← checkFormat c.name c.guid c.payload
  if status ≠ .success then return status
  else authServiceInternalUpdateVariableWithTimeStamp c.name c.guid c.payload c.attributes c.timeStamp

def customModePresent : Auth Bool := do
  if ← inCustomMode then ask Env.userPhysicalPresent else return false

def writeWithPk (c : Call) (isPk : Bool) : Auth (EfiStatus × Bool) := do
  let mode := (← get).mPlatformMode
  let selfSigned := (← ask Env.requireSelfSignedPk) && isPk
  if (← customModePresent) || (mode = setupMode && !selfSigned) then
    let status ← writeUnsigned c
    if status ≠ .success then return (status, false)
    else if mode ≠ setupMode || selfSigned then return (← vendorKeyIsModified, c.payload.data = [])
    else return (.success, c.payload.data = [])
  else if mode = userMode then verifyTimeBasedPayloadAndUpdate c .pk
  else verifyTimeBasedPayloadAndUpdate c .payload

def processVarWithPk (c : Call) (isPk : Bool) : Auth EfiStatus := do
  if !c.isProtected then return .invalidParameter
  else
    let (status, del) ← writeWithPk c isPk
    let mode := (← get).mPlatformMode
    if status = .success && isPk then
      if mode = setupMode && !del then updatePlatformMode userMode
      else if mode = userMode && del then updatePlatformMode setupMode
      else return status
    else return status

def processVarWithKek (c : Call) : Auth EfiStatus := do
  if !c.isProtected then return .invalidParameter
  else
    let mode := (← get).mPlatformMode
    if mode = userMode && !(← customModePresent) then return (← verifyTimeBasedPayloadAndUpdate c .kek).1
    else
      let status ← writeUnsigned c
      if status ≠ .success then return status
      else if mode ≠ setupMode then vendorKeyIsModified
      else return status

def authInfoSize : Nat := 8 + 24 + (16 + 256 + 256)

def isDeleteAuthVariable (orgAttributes : UInt32) (c : Call) : Bool :=
  c.attributes = orgAttributes &&
    if c.has timeBasedAuthenticatedWriteAccess then c.payload.data = []
    else c.has authenticatedWriteAccess && c.dataSize = authInfoSize

def processVariable (c : Call) : Auth EfiStatus := do
  let found ← authServiceInternalFindVariable c.name c.guid
  let present ← ask fun e => e.userPhysicalPresent
  let deletes := match found with
    | none => false
    | some r => isDeleteAuthVariable r.attributes c
  if deletes && (present || !(← ask Env.variablePolicyEnabled)) then
    let status ← authServiceInternalUpdateVariable c.name c.guid [] 0
    if status = .success && c.has timeBasedAuthenticatedWriteAccess then deleteCertsFromDb c.name c.guid c.attributes
    else return status
  else if (← needPhysicallyPresent c.name c.guid) && !present then return .securityViolation
  else if c.has authenticatedWriteAccess then return .unsupported
  else if c.has timeBasedAuthenticatedWriteAccess then return (← verifyTimeBasedPayloadAndUpdate c .priv).1
  else
    let writeProtected := match found with
      | none => false
      | some r => has r.attributes (authenticatedWriteAccess ||| timeBasedAuthenticatedWriteAccess)
    if writeProtected then return .writeProtected
    else authServiceInternalUpdateVariable c.name c.guid c.data.data c.attributes

def authVariableLibProcessVariable (c : Call) : Auth EfiStatus := do
  if isPlatformKey c.name c.guid then processVarWithPk c true
  else if isKeyExchangeKey c.name c.guid then processVarWithPk c false
  else if isImageSecurityDatabase c.name c.guid then
    let status ← processVarWithPk c false
    if status ≠ .success then processVarWithKek c else return status
  else processVariable c

/-! ### The start of the library -/

def mSignatureSupport : List Bytes :=
  [SecureBoot.certSha1Guid, SecureBoot.certSha256Guid, SecureBoot.certSha384Guid, SecureBoot.certSha512Guid,
    certRsa2048Guid, certX509Guid]

def inTurn : List (Auth EfiStatus) → Auth EfiStatus
  | [] => return .success
  | step :: steps => do
    let status ← step
    if status ≠ .success then return status else inTurn steps

def initSetupMode : Auth EfiStatus := do
  let found ← authServiceInternalFindVariable platformKeyName globalVariableGuid
  let mode := if found = none then setupMode else userMode
  modify fun w => { w with mPlatformMode := mode }
  authServiceInternalUpdateVariable setupModeName globalVariableGuid [mode.toUInt8] attributeBsRt

def initSignatureSupport : Auth EfiStatus :=
  authServiceInternalUpdateVariable signatureSupportName globalVariableGuid mSignatureSupport.flatten attributeBsRt

def initSecureBoot : Auth EfiStatus := do
  let mode := (← get).mPlatformMode
  let setSecureBoot (enable : UInt8) : Auth EfiStatus :=
    let secureBootMode :=
      if enable = secureBootEnable ∧ mode = userMode then secureBootModeEnable else secureBootModeDisable
    authServiceInternalUpdateVariable secureBootModeName globalVariableGuid [secureBootMode] attributeBsRt
  match ← authServiceInternalFindVariable secureBootEnableName secureBootEnableDisableGuid with
  | some r =>
    if mode = userMode then
      setSecureBoot (← ask fun e => firstByte e secureBootEnableName secureBootEnableDisableGuid r)
    else setSecureBoot secureBootDisable
  | none =>
    if mode = userMode then
      let status ← authServiceInternalUpdateVariable secureBootEnableName secureBootEnableDisableGuid [secureBootEnable]
        attributeNvBs
      if status ≠ .success then return status else setSecureBoot secureBootEnable
    else setSecureBoot secureBootDisable

def initCustomMode : Auth EfiStatus :=
  authServiceInternalUpdateVariable customModeName customModeEnableGuid [standardSecureBootMode] attributeNvBs

def initCertDb : Auth EfiStatus := do
  match ← authServiceInternalFindVariable certDbName certDbGuid with
  | none => authServiceInternalUpdateVariable certDbName certDbGuid (leBytes 4 4) (dbAttributes nonVolatile)
  | some _ => cleanCertsFromDb

def initCertDbVolatile : Auth EfiStatus :=
  authServiceInternalUpdateVariable certDbVolatileName certDbGuid (leBytes 4 4) (dbAttributes 0)

def initVendorKeys : Auth EfiStatus := do
  match ← authServiceInternalFindVariable vendorKeysNvName vendorKeysNvGuid with
  | some r =>
    let state ← ask fun e => firstByte e vendorKeysNvName vendorKeysNvGuid r
    modify fun w => { w with mVendorKeyState := state }
    return .success
  | none =>
    modify fun w => { w with mVendorKeyState := vendorKeysValid }
    authServiceInternalUpdateVariable vendorKeysNvName vendorKeysNvGuid [vendorKeysValid] attributeNvBsAt

def initVendorKeysCopy : Auth EfiStatus := do
  let state := (← get).mVendorKeyState
  authServiceInternalUpdateVariable vendorKeysName globalVariableGuid [state] attributeBsRt

/-- `AuthVariableLibInitialize` once its buffers are there. -/
def authVariableLibInitialize : Auth EfiStatus :=
  inTurn [initSetupMode, initSignatureSupport, initSecureBoot, initCustomMode, initCertDb, initCertDbVolatile,
    initVendorKeys, initVendorKeysCopy]

end LeoEdk.AuthVariable
