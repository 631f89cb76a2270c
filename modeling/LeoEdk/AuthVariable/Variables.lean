import LeoEdk.AuthVariable.SignatureFormat

/-!
What the authenticated variable library stands on: the variable driver behind `FindVariable` and `UpdateVariable` at
boot time, the filter for appended signatures, and the certificate databases "certdb" and "certdbv".

The driver is given by its effect on what `FindVariable` can see. What stands behind a stored value in memory is part of
the environment.
-/

namespace LeoEdk.AuthVariable

open Bytes Prog
open SecureBoot (HashAlg EfiTime isValidSignatureByTimestamp)
open Variable (Name Guid EfiStatus globalVariableGuid guidOf has nonVolatile bootserviceAccess runtimeAccess
  authenticatedWriteAccess timeBasedAuthenticatedWriteAccess appendWrite)

/-! ### Names and GUIDs -/

def setupModeName : Name := ⟨[0x53, 0x65, 0x74, 0x75, 0x70, 0x4d, 0x6f, 0x64, 0x65], by simp⟩

def signatureSupportName : Name :=
  ⟨[0x53, 0x69, 0x67, 0x6e, 0x61, 0x74, 0x75, 0x72, 0x65, 0x53, 0x75, 0x70, 0x70, 0x6f, 0x72, 0x74], by simp⟩

def secureBootModeName : Name := ⟨[0x53, 0x65, 0x63, 0x75, 0x72, 0x65, 0x42, 0x6f, 0x6f, 0x74], by simp⟩
def secureBootEnableName : Name :=
  ⟨secureBootModeName.units ++ [0x45, 0x6e, 0x61, 0x62, 0x6c, 0x65], by simp [secureBootModeName]⟩
def customModeName : Name := ⟨[0x43, 0x75, 0x73, 0x74, 0x6f, 0x6d, 0x4d, 0x6f, 0x64, 0x65], by simp⟩
def vendorKeysName : Name := ⟨[0x56, 0x65, 0x6e, 0x64, 0x6f, 0x72, 0x4b, 0x65, 0x79, 0x73], by simp⟩
def vendorKeysNvName : Name := ⟨vendorKeysName.units ++ [0x4e, 0x76], by simp [vendorKeysName]⟩
def certDbName : Name := ⟨[0x63, 0x65, 0x72, 0x74, 0x64, 0x62], by simp⟩
def certDbVolatileName : Name := ⟨certDbName.units ++ [0x76], by simp [certDbName]⟩

def secureBootEnableDisableGuid : Guid :=
  guidOf 0xf0a30bc7 0xaf08 0x4556 [0x99, 0xc4, 0x00, 0x10, 0x09, 0xc9, 0x3a, 0x44] rfl

def customModeEnableGuid : Guid :=
  guidOf 0xc076ec0c 0x7028 0x4399 [0xa0, 0x72, 0x71, 0xee, 0x5c, 0x44, 0x8b, 0x9f] rfl

def vendorKeysNvGuid : Guid := guidOf 0x9073e4e0 0x60ec 0x4b6e [0x99, 0x03, 0x4c, 0x22, 0x3c, 0x26, 0x0f, 0x3c] rfl
def certDbGuid : Guid := guidOf 0xd9bee56e 0x75dc 0x49d9 [0xb4, 0xd7, 0xb5, 0x34, 0x21, 0x0f, 0x63, 0x7a] rfl

structure Record where
  attributes : UInt32
  data : Bytes
  timeStamp : Bytes
  deriving DecidableEq, Repr

abbrev Vars := Name → Guid → Option Record

def Vars.set (vars : Vars) (name : Name) (guid : Guid) (r : Option Record) : Vars :=
  fun n g => if n = name ∧ g = guid then r else vars n g

structure VariableInfo where
  name : Name
  guid : Guid
  data : Bytes
  attributes : UInt32
  timeStamp : Option Bytes

def zeroTime : Bytes := List.replicate 16 0

def authServiceInternalCompareTimeStamp (firstTime secondTime : Bytes) : Bool :=
  isValidSignatureByTimestamp (EfiTime.ofBytes firstTime) (EfiTime.ofBytes secondTime)

namespace VariableInfo

variable (info : VariableInfo)

def appends : Bool := has info.attributes appendWrite

def grantsAccess : Bool := has info.attributes (runtimeAccess ||| bootserviceAccess)

def storedTimeStamp (old : Option Record) : Bytes :=
  match info.timeStamp with
  | none => zeroTime
  | some time =>
    if !has info.attributes timeBasedAuthenticatedWriteAccess then zeroTime
    else if !info.appends then time
    else
      match old with
      | none => zeroTime
      | some r => if authServiceInternalCompareTimeStamp r.timeStamp time then time else r.timeStamp

def storedData (old : Option Record) : Bytes :=
  match old with
  | none => info.data
  | some r => if info.appends then r.data ++ info.data else info.data

def stored (old : Option Record) : Record where
  attributes := info.attributes &&& ~~~appendWrite
  data := info.storedData old
  timeStamp := info.storedTimeStamp old

/-- What the driver's `UpdateVariable` does when no write fails: the status and what `FindVariable` then finds. -/
def update (old : Option Record) : EfiStatus × Option Record :=
  match old with
  | some r =>
    if (!info.appends && info.data = []) || !info.grantsAccess then (.success, none)
    else if r.data = info.data && !info.appends && info.timeStamp = none then (.success, some r)
    else (.success, some (info.stored old))
  | none =>
    if info.data = [] && info.appends then (.success, none)
    else if info.data = [] || !info.grantsAccess then (.notFound, none)
    else (.success, some (info.stored old))

end VariableInfo

/-! ### Environment and world -/

structure Signers where
  signerCerts : Bytes
  topLevelCert : Bytes
  deriving DecidableEq, Repr

structure Buffer where
  data : Bytes
  size_lt : data.length < 2 ^ 64
  behind : Store

def memoryFrom (data : Bytes) (behind : Store) : Store := fun ofs =>
  match data[ofs]? with
  | some b => b
  | none => behind (ofs - data.length)

def Buffer.memory (b : Buffer) : Store := memoryFrom b.data b.behind

structure Env where
  /-- How long a walk over stored or given data is followed. -/
  fuel : Nat
  userPhysicalPresent : Bool
  variablePolicyEnabled : Bool
  requireSelfSignedPk : Bool
  scratchBufferSize : Nat
  mMaxCertDbSize : Nat
  /-- The status of an `UpdateVariable` that fails: the driver then leaves what can be found as it was. -/
  updateFails : Nat → Name → Guid → Option EfiStatus
  updateFails_ne : ∀ n name guid, updateFails n name guid ≠ some .success
  /-- What `FindVariable` finds under the empty name: the first variable of the stores. -/
  firstVariable : Vars → Option Record
  behindVariable : Name → Guid → Store
  allocateZeroPool : Nat → Bool
  rsaNew : Bool
  rsaGetPublicKeyFromX509 : Bytes → Bool
  pkcs7GetSigners : Bytes → Option Signers
  /-- `Pkcs7Verify` of the signature, the trusted certificate and the signed data. -/
  pkcs7Verify : Bytes → Bytes → Bytes → Bool
  /-- `CalculatePrivAuthVarSignChainSHADigest` for a row of `mHashInfo`. -/
  signChainDigest : Nat → Signers → Option Bytes

structure World where
  vars : Vars
  mPlatformMode : UInt32
  mVendorKeyState : UInt8
  updates : Nat

inductive Fault where
  | check (h : Halt)
  | overrun
  deriving DecidableEq, Repr

abbrev Auth := Prog Env World Fault

def lift {α : Type} : Except Halt α → Auth α
  | .ok a => pure a
  | .error h => halt (.check h)

def authServiceInternalFindVariable (name : Name) (guid : Guid) : Auth (Option Record) := do
  let w ← get
  if name.units = [] then ask fun e => e.firstVariable w.vars
  else return w.vars name guid

def updateVariable (info : VariableInfo) : Auth EfiStatus := do
  let w ← get
  modify fun w => { w with updates := w.updates + 1 }
  match ← ask fun e => e.updateFails w.updates info.name info.guid with
  | some status => return status
  | none =>
    let (status, r) := info.update (w.vars info.name info.guid)
    modify fun w => { w with vars := w.vars.set info.name info.guid r }
    return status

def authServiceInternalUpdateVariable (name : Name) (guid : Guid) (data : Bytes) (attributes : UInt32) :
    Auth EfiStatus :=
  updateVariable ⟨name, guid, data, attributes, none⟩

def Env.variableMemory (e : Env) (name : Name) (guid : Guid) (r : Record) : Store :=
  memoryFrom r.data (e.behindVariable name guid)

/-! ### Signature lists -/

def read32At (m : Store) (p : Nat) : Nat := leNat (m.read p 4)

structure SignatureList where
  signatureType : Bytes
  listSize : Nat
  headerSize : Nat
  signatureSize : Nat

def signatureListAt (m : Store) (p : Nat) : SignatureList where
  signatureType := m.read p 16
  listSize := read32At m (p + 16)
  headerSize := read32At m (p + 20)
  signatureSize := read32At m (p + 24)

namespace SignatureList

variable (l : SignatureList)

def count : Nat := sub64 (sub64 l.listSize signatureListHeaderSize) l.headerSize / l.signatureSize

def firstAt (p : Nat) : Nat := p + signatureListHeaderSize + l.headerSize

end SignatureList

def holdsSignature (m : Store) (size : Nat) (signature : Bytes) : Nat → Nat → Bool
  | 0, _ => false
  | n + 1, cert => m.read cert size == signature || holdsSignature m size signature n (cert + size)

def isStored (m : Store) (type : Bytes) (signatureSize : Nat) (signature : Bytes) : Nat → Nat → Nat → Except Halt Bool
  | 0, _, _ => .error .endless
  | fuel + 1, certList, size =>
    let l := signatureListAt m certList
    if size = 0 ∨ size < l.listSize then .ok false
    else if l.signatureType = type ∧ l.signatureSize = signatureSize then
      if l.signatureSize = 0 then .error .divideError
      else if holdsSignature m signatureSize signature l.count (l.firstAt certList) then .ok true
      else isStored m type signatureSize signature fuel (certList + l.listSize) (size - l.listSize)
    else isStored m type signatureSize signature fuel (certList + l.listSize) (size - l.listSize)

def newSignatures (stored : Bytes → Except Halt Bool) (m : Store) (size : Nat) : Nat → Nat → Except Halt (List Bytes)
  | 0, _ => .ok []
  | n + 1, newCert => do
    let known ← stored (m.read newCert size)
    let rest ← newSignatures stored m size n (newCert + size)
    return if known then rest else m.read newCert size :: rest

def keptList (m : Store) (p : Nat) (signatures : List Bytes) : Bytes :=
  let l := signatureListAt m p
  let headerLength := signatureListHeaderSize + l.headerSize
  if signatures = [] then []
  else
    overwrite 16 (leBytes 4 (headerLength + signatures.length * l.signatureSize)) (m.read p headerLength) ++
      signatures.flatten

def filterLists (stored : SignatureList → Bytes → Except Halt Bool) (m : Store) : Nat → Nat → Nat → Except Halt Bytes
  | 0, _, _ => .error .endless
  | fuel + 1, newCertList, newDataSize =>
    let l := signatureListAt m newCertList
    if newDataSize = 0 ∨ newDataSize < l.listSize then .ok []
    else if l.signatureSize = 0 then .error .divideError
    else do
      let signatures ← newSignatures (stored l) m l.signatureSize l.count (l.firstAt newCertList)
      let rest ← filterLists stored m fuel (newCertList + l.listSize) (newDataSize - l.listSize)
      return keptList m newCertList signatures ++ rest

/-- What `FilterSignatureList` leaves of the new data; without room in the scratch buffer that is all of it. -/
def filterSignatureList (e : Env) (original : Store) (dataSize : Nat) (new : Buffer) : Except Halt Bytes :=
  if new.data = [] ∨ e.scratchBufferSize < new.data.length then .ok new.data
  else
    filterLists (fun l signature => isStored original l.signatureType l.signatureSize signature e.fuel 0 dataSize)
      new.memory e.fuel 0 new.data.length

def authServiceInternalUpdateVariableWithTimeStamp (name : Name) (guid : Guid) (payload : Buffer) (attributes : UInt32)
    (timeStamp : Bytes) : Auth EfiStatus := do
  match ← authServiceInternalFindVariable name guid with
  | some r =>
    if has attributes appendWrite && (isImageSecurityDatabase name guid || isKeyExchangeKey name guid) then
      let data ← lift (← ask fun e => filterSignatureList e (e.variableMemory name guid r) r.data.length payload)
      updateVariable ⟨name, guid, data, attributes, some timeStamp⟩
    else updateVariable ⟨name, guid, payload.data, attributes, some timeStamp⟩
  | none => updateVariable ⟨name, guid, payload.data, attributes, some timeStamp⟩

/-! ### The certificate databases -/

def certNodeHeaderSize : Nat := 28

def nameUnits (name : Name) : Bytes := name.units.flatMap fun (u : UInt16) => leBytes 2 u.toNat

structure CertNode where
  certOffset : Nat
  certDataSize : Nat
  nodeOffset : Nat
  nodeSize : Nat
  deriving DecidableEq, Repr

def findCertsLoop (name : Name) (guid : Guid) (m : Store) (dataSize : Nat) :
    Nat → Nat → Except Halt (Except EfiStatus CertNode)
  | 0, _ => .error .endless
  | fuel + 1, offset =>
    if dataSize ≤ offset then .ok (.error .notFound)
    else
      let nodeSize := read32At m (offset + 16)
      let nameSize := read32At m (offset + 20)
      let certSize := read32At m (offset + 24)
      if m.read offset 16 = guid.bytes then
        if nodeSize ≠ certNodeHeaderSize + certSize + 2 * nameSize then .ok (.error .invalidParameter)
        else
          let nameOffset := (offset + certNodeHeaderSize) % 2 ^ 32
          if nameSize = name.units.length ∧ m.read nameOffset (2 * nameSize) = nameUnits name then
            .ok (.ok ⟨(nameOffset + 2 * nameSize) % 2 ^ 32, certSize, offset, nodeSize⟩)
          else findCertsLoop name guid m dataSize fuel ((nameOffset + 2 * nameSize + certSize) % 2 ^ 32)
      else findCertsLoop name guid m dataSize fuel ((offset + nodeSize) % 2 ^ 32)

def findCertsFromDb (fuel : Nat) (name : Name) (guid : Guid) (m : Store) (dataSize : Nat) :
    Except Halt (Except EfiStatus CertNode) :=
  if dataSize < 4 then .ok (.error .invalidParameter)
  else if read32At m 0 ≠ dataSize % 2 ^ 32 then .ok (.error .invalidParameter)
  else findCertsLoop name guid m (dataSize % 2 ^ 32) fuel 4

def dbName (attributes : UInt32) : Name := if has attributes nonVolatile then certDbName else certDbVolatileName

def dbAttributes (attributes : UInt32) : UInt32 :=
  if has attributes nonVolatile then
    nonVolatile ||| runtimeAccess ||| bootserviceAccess ||| timeBasedAuthenticatedWriteAccess
  else runtimeAccess ||| bootserviceAccess ||| timeBasedAuthenticatedWriteAccess

def findDb (attributes : UInt32) : Auth (Except EfiStatus Record) := do
  match ← authServiceInternalFindVariable (dbName attributes) certDbGuid with
  | none => return .error .notFound
  | some r => if r.data = [] then return .error .notFound else return .ok r

def searchDb (name : Name) (guid : Guid) (attributes : UInt32) (r : Record) : Auth (Except EfiStatus CertNode) := do
  lift (← ask fun e =>
    findCertsFromDb e.fuel name guid (e.variableMemory (dbName attributes) certDbGuid r) r.data.length)

def getCertsFromDb (name : Name) (guid : Guid) (attributes : UInt32) : Auth (Except EfiStatus Bytes) := do
  match ← findDb attributes with
  | .error status => return .error status
  | .ok r =>
    match ← searchDb name guid attributes r with
    | .error status => return .error status
    | .ok node =>
      ask fun e => .ok ((e.variableMemory (dbName attributes) certDbGuid r).read node.certOffset node.certDataSize)

def withoutNode (m : Store) (dataSize : Nat) (node : CertNode) : Bytes :=
  let newCertDbSize := (dataSize % 2 ^ 32 + (2 ^ 32 - node.nodeSize)) % 2 ^ 32
  let after := node.nodeOffset + node.nodeSize
  (overwrite 0 (leBytes 4 newCertDbSize) (m.read 0 node.nodeOffset) ++ m.read after (dataSize - after)).take
    newCertDbSize

def deleteCertsFromDb (name : Name) (guid : Guid) (attributes : UInt32) : Auth EfiStatus := do
  match ← findDb attributes with
  | .error status => return status
  | .ok r =>
    if r.data.length = 4 then return .success
    else
      match ← searchDb name guid attributes r with
      | .error status => return status
      | .ok node =>
        if r.data.length < (node.nodeOffset + node.nodeSize) % 2 ^ 32 then return .notFound
        else
          let m ← ask fun e => e.variableMemory (dbName attributes) certDbGuid r
          authServiceInternalUpdateVariable (dbName attributes) certDbGuid (withoutNode m r.data.length node)
            (dbAttributes attributes)

def mHashInfo : List HashAlg := [.sha256, .sha384, .sha512]

def certNode (name : Name) (guid : Guid) (digest : Bytes) : Bytes :=
  guid.bytes ++ leBytes 4 (certNodeHeaderSize + digest.length + 2 * name.units.length) ++ leBytes 4 name.units.length ++
    leBytes 4 digest.length ++ nameUnits name ++ digest

/-- The status is `none` for `EFI_ABORTED`. -/
def insertCertsToDb (hashAlgId : Nat) (name : Name) (guid : Guid) (attributes : UInt32) (signers : Signers) :
    Auth (Option EfiStatus) := do
  match mHashInfo[hashAlgId]? with
  | none => return some .invalidParameter
  | some alg =>
    match ← findDb attributes with
    | .error status => return some status
    | .ok r =>
      match ← searchDb name guid attributes r with
      | .ok _ => return some .accessDenied
      | .error _ =>
        let newCertDbSize :=
          (r.data.length + certNodeHeaderSize + alg.digestLength + 2 * name.units.length) % 2 ^ 32
        if (← ask Env.mMaxCertDbSize) < newCertDbSize then return some .outOfResources
        else
          match ← ask fun e => e.signChainDigest hashAlgId signers with
          | none => return none
          | some digest =>
            return some (← authServiceInternalUpdateVariable (dbName attributes) certDbGuid
              ((overwrite 0 (leBytes 4 newCertDbSize) r.data ++ certNode name guid digest).take newCertDbSize)
              (dbAttributes attributes))

def nameOfUnits (units : List UInt16) : Name where
  units := units.takeWhile (· != 0)
  nonzero := fun _ member => by simpa using List.mem_takeWhile_imp member

def nameAt (m : Store) (p size : Nat) : Name :=
  nameOfUnits ((List.range size).map fun k => UInt16.ofNat (leNat (m.read (p + 2 * k) 2)))

def staleNode (m : Store) (dataSize : Nat) : Nat → Nat → Auth (Except EfiStatus (Option (Name × Guid × UInt32)))
  | 0, _ => halt (.check .endless)
  | fuel + 1, offset => do
    if dataSize ≤ offset then return .ok none
    else
      let nodeSize := read32At m (offset + 16)
      let nameSize := read32At m (offset + 20)
      if !(← ask fun e => e.allocateZeroPool ((nameSize + 1) % 2 ^ 32 * 2)) then return .error .outOfResources
      else
        let name := nameAt m (offset + certNodeHeaderSize) nameSize
        let guid : Guid := ⟨m.read offset 16, Store.length_read m offset 16⟩
        match ← authServiceInternalFindVariable name guid with
        | none => return .ok (some (name, guid, 0))
        | some r =>
          if !has r.attributes timeBasedAuthenticatedWriteAccess then return .ok (some (name, guid, r.attributes))
          else staleNode m dataSize fuel ((offset + nodeSize) % 2 ^ 32)

def cleanLoop : Nat → Auth EfiStatus
  | 0 => halt (.check .endless)
  | fuel + 1 => do
    match ← authServiceInternalFindVariable certDbName certDbGuid with
    | none => return .notFound
    | some r =>
      if r.data = [] then return .notFound
      else
        let m ← ask fun e => e.variableMemory certDbName certDbGuid r
        match ← staleNode m (r.data.length % 2 ^ 32) (← ask Env.fuel) 4 with
        | .error status => return status
        | .ok none => return .success
        | .ok (some (name, guid, attributes)) =>
          let _ ← deleteCertsFromDb name guid (attributes ||| nonVolatile)
          cleanLoop fuel

def cleanCertsFromDb : Auth EfiStatus := do cleanLoop (← ask Env.fuel)

end LeoEdk.AuthVariable
