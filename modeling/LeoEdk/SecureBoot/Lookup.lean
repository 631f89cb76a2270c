import LeoEdk.SecureBoot.ImageHash

/-!
The searches of the signature databases. A database is a sequence of `EFI_SIGNATURE_LIST`s: type (16 bytes), size of the
list, of its header and of one signature (4 bytes each), the header, and the signatures, each with its owner (16 bytes)
in front of the data.
-/

namespace LeoEdk.SecureBoot

open Bytes Prog

def sigListHdrSize : Nat := 28

def ownerSize : Nat := 16

def nextList (bound : Nat → Nat) (list : Bytes) (left : Nat) : Verify (Option Nat) := do
  if left = 0 then return none
  let listSize ← natAt list 16 4
  if bound left < listSize then return none
  return some listSize

def signatures (listSize : Nat) (list : Bytes) : Verify (Nat × Nat × Bytes) := do
  let headerSize ← natAt list 20 4
  let size ← natAt list 24 4
  if size = 0 then halt .fault
  return (usub (usub listSize sigListHdrSize) headerSize / size, size, list.drop (sigListHdrSize + headerSize))

def forLists {α : Type} (bound : Nat → Nat) (body : Nat → Bytes → Verify (Option α)) (data : Bytes) :
    Verify (Option α) :=
  walk (nextList bound) body .hang (data.length + 1) data data.length

/-- The loop over the signatures of the lists of raw X.509 certificates. The library functions refuse a certificate of
    more than `INT_MAX` bytes. -/
def forCerts {α : Type} (body : (entry cert : Bytes) → Verify (Option α)) (data : Bytes) : Verify (Option α) :=
  forLists id (fun listSize list => do
    let type ← bytesAt list 0 16
    if type ≠ certX509Guid then return none
    let (count, size, entries) ← signatures listSize list
    visitEach (fun entry => do
      if 2 ^ 31 ≤ usub size ownerSize then return none
      let cert ← bytesAt entry ownerSize (usub size ownerSize)
      body (entry.take size) cert) size count entries) data

def matchCertHash (alg : HashAlg) (certDigest entry : Bytes) : Verify (Option (EfiStatus × Option EfiTime)) := do
  let dbxCertHash ← bytesAt entry ownerSize alg.digestLength
  if dbxCertHash ≠ certDigest then return none
  let time ← bytesAt entry (ownerSize + alg.digestLength) 16
  return some (.success, some (EfiTime.ofBytes time))

def certHashInList (tbsCert : Bytes) (listSize : Nat) (list : Bytes) :
    Verify (Option (EfiStatus × Option EfiTime)) := do
  let type ← bytesAt list 0 16
  match certHashAlg type with
  | none => return none
  | some alg =>
    -- the hash context, `HashInit`, `HashUpdate` and `HashFinal`
    if (← attempt) = false then return some (.aborted, none)
    if (← attempt) = false then return some (.aborted, none)
    if (← attempt) = false then return some (.aborted, none)
    if (← attempt) = false then return some (.aborted, none)
    let certDigest ← ask (·.digest alg tbsCert)
    let (count, size, entries) ← signatures listSize list
    visitEach (matchCertHash alg certDigest) size count entries

/-- Whether the hash of the certificate is in the forbidden database, and the time of the first entry with it. -/
def isCertHashFoundInDbx (certificate dbx : Bytes) : Verify (EfiStatus × Option EfiTime) := do
  match ← ask (·.x509GetTBSCert certificate) with
  | none => return (.aborted, none)
  | some tbsCert =>
    -- the whole size of the buffer bounds every list, not what is left of it
    let found ← forLists (fun _ => dbx.length) (certHashInList tbsCert) dbx
    return found.getD (.success, none)

/-- `IsCertHashFoundInDbx`, with its entries in the history. -/
def lookUp (l : Lookup) (certificate dbx : Bytes) : Verify (EfiStatus × Option EfiTime) := do
  record (.lookup certificate dbx)
  let (status, found) ← isCertHashFoundInDbx certificate dbx
  note l status
  return (status, found)

def matchDigest (v : Database) (g : Globals) (size : Nat) (entry : Bytes) : Verify (Option Unit) := do
  let sigData ← bytesAt entry ownerSize g.mImageDigestSize
  if sigData ≠ g.mImageDigest.take g.mImageDigestSize then return none
  if v = .db then emit (.secureBootHook (entry.take size))
  return some ()

def digestInList (v : Database) (g : Globals) (listSize : Nat) (list : Bytes) : Verify (Option Unit) := do
  let (count, size, entries) ← signatures listSize list
  let type ← bytesAt list 0 16
  if size ≠ ownerSize + g.mImageDigestSize ∨ type ≠ g.mCertType then return none
  visitEach (matchDigest v g size) size count entries

def isSignatureFoundInDatabase (v : Database) : Verify (EfiStatus × Bool) := do
  let status ← getVariableSize v
  if status ≠ .bufferTooSmall then return (if status = .notFound then .success else status, false)
  match ← getVariable v with
  | .error status => return (status, false)
  | .ok data =>
    let g := (← get).globals
    let found ← forLists id (digestInList v g) data
    return (.success, found.isSome)

/-- One timestamp authority: whether it confirms a signing time that the revocation does not reach. -/
def checkTimestamp (authData : Bytes) (revocationTime : EfiTime) (rootCert : Bytes) : Verify (Option Unit) := do
  match ← ask (·.imageTimestampVerify authData rootCert) with
  | none => return none
  | some signingTime => return if isValidSignatureByTimestamp signingTime revocationTime then some () else none

def passTimestampCheck (authData : Bytes) (revocationTime : EfiTime) : Verify Bool := do
  if isTimeZero revocationTime then return false
  if (← getVariableSize .dbt) ≠ .bufferTooSmall then return false
  match ← getVariable .dbt with
  | .error _ => return false
  | .ok dbt =>
    let found ← forCerts (fun _ rootCert => checkTimestamp authData revocationTime rootCert) dbt
    return found.isSome

/-- The loop over the signers' certificates: `true` where the timestamp check fails for one of them. -/
def revokedSigner (authData dbx : Bytes) : Nat → Bytes → Verify Bool
  -- what `IsForbidden` was set to on the way is overwritten here
  | 0, _ => return false
  | n + 1, certPtr => do
    let certSize ← natAt certPtr 0 4
    let cert ← bytesAt certPtr 4 certSize
    let (status, found) ← lookUp .signer cert dbx
    if status = .success then
      if let some revocationTime := found then
        if (← passTimestampCheck authData revocationTime) = false then return true
    revokedSigner authData dbx n (certPtr.drop (4 + certSize))

def verifyWith (authData rootCert : Bytes) (g : Globals) : Verify Bool :=
  ask (·.authenticodeVerify authData rootCert (g.mImageDigest.take g.mImageDigestSize))

def isForbiddenByDbx (authData : Bytes) : Verify Bool := do
  let status ← getVariableSize .dbx
  note .signature status
  if status ≠ .bufferTooSmall then return status ≠ .notFound
  match ← getVariable .dbx with
  | .error status =>
    note .signature status
    return true
  | .ok dbx =>
    let g := (← get).globals
    let verified ← forCerts (fun _ rootCert => do
      if ← verifyWith authData rootCert g then return some () else return none) dbx
    if verified.isSome then return true
    match ← ask (·.pkcs7GetSigners authData) with
    | [] => return true
    | certNumber :: certPtr =>
      if certNumber = 0 then return true
      revokedSigner authData dbx certNumber.toNat certPtr

/-- The forbidden database as `IsAllowedByDb` fetches it; only a missing variable stands for no database. -/
def fetchDbx : Verify (Except EfiStatus (Option Bytes)) := do
  record .fetch
  let status ← getVariableSize .dbx
  note .root status
  if status = .notFound then return .ok none
  if status ≠ .bufferTooSmall then return .error status
  match ← getVariable .dbx with
  | .error status =>
    note .root status
    return .error status
  | .ok dbx => return .ok (some dbx)

/-- The check of a certificate of `db` under which the signature verifies against the forbidden database. -/
def isRootCertTrusted (authData rootCert : Bytes) : Option Bytes → Verify Bool
  | none => return true
  | some dbx => do
    let (status, found) ← lookUp .root rootCert dbx
    if status ≠ .success then return false
    match found with
    | none => return true
    | some revocationTime => passTimestampCheck authData revocationTime

def admitWith (authData : Bytes) (dbx : Option Bytes) (g : Globals) (entry rootCert : Bytes) :
    Verify (Option Bool) := do
  if (← verifyWith authData rootCert g) = false then return none
  let verifyStatus ← isRootCertTrusted authData rootCert dbx
  if verifyStatus then emit (.secureBootHook entry)
  return some verifyStatus

def isAllowedByDb (authData : Bytes) : Verify Bool := do
  if (← getVariableSize .db) ≠ .bufferTooSmall then return false
  match ← getVariable .db with
  | .error _ => return false
  | .ok db =>
    match ← fetchDbx with
    | .error _ => return false
    | .ok dbx =>
      let g := (← get).globals
      let found ← forCerts (admitWith authData dbx g) db
      return found.getD false

end LeoEdk.SecureBoot
