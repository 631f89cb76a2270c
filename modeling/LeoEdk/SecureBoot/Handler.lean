import LeoEdk.SecureBoot.Lookup

/-! `DxeImageVerificationHandler`, from the policy of the image's device to the verdict. -/

namespace LeoEdk.SecureBoot

open Bytes Prog

inductive ImageType where
  | unknown | fromFv | fromOptionRom | fromRemovableMedia | fromFixedMedia
  deriving DecidableEq, Repr

def pathType : List (Nat × Nat) → ImageType
  | [] => .unknown
  -- `MEDIA_DEVICE_PATH` with `MEDIA_RELATIVE_OFFSET_RANGE_DP`, and `MESSAGING_DEVICE_PATH` with `MSG_MAC_ADDR_DP`
  | (type, subType) :: nodes =>
    if type = 4 ∧ subType = 8 then .fromOptionRom
    else if type = 3 ∧ subType = 11 then .fromRemovableMedia
    else pathType nodes

def getImageType (e : Env) : ImageType :=
  match e.file with
  | none => .unknown
  | some nodes =>
    if e.inFirmwareVolume then .fromFv
    else
      match e.blockIo with
      | some true => .fromRemovableMedia
      | some false => .fromFixedMedia
      | none => if e.simpleFileSystem then .fromFixedMedia else pathType nodes

def alwaysExecute : Nat := 0
def neverExecute : Nat := 1
def allowExecuteOnSecurityViolation : Nat := 2
def deferExecuteOnSecurityViolation : Nat := 3
def denyExecuteOnSecurityViolation : Nat := 4
def queryUserOnSecurityViolation : Nat := 5

def policy (e : Env) : Nat :=
  match getImageType e with
  | .fromFv => alwaysExecute
  | .fromOptionRom => e.optionRomPolicy
  | .fromRemovableMedia => e.removableMediaPolicy
  | .fromFixedMedia => e.fixedMediaPolicy
  | .unknown => denyExecuteOnSecurityViolation

/-! ### Unsigned images -/

def verifyDigests (p : PeImage) (isFoundInDatabase : Bool) : List HashAlg → Verify (Option Bool)
  | [] => return some isFoundInDatabase
  | alg :: algs => do
    if alg.hasFunctions (← ask (·.sha1Enabled)) = false then return ← verifyDigests p isFoundInDatabase algs
    if (← hashPeImage p alg) = false then return ← verifyDigests p isFoundInDatabase algs
    let (status, forbidden) ← isSignatureFoundInDatabase .dbx
    note .digest status
    if status ≠ .success ∨ forbidden then return none
    let (status, allowed) ← isSignatureFoundInDatabase .db
    verifyDigests p (isFoundInDatabase || (status = .success && allowed)) algs

/-! ### Signed images -/

def alignSize (n : Nat) : Nat := if n % 8 = 0 then 0 else 8 - n % 8

inductive WinCert where
  /-- The table is corrupted here. -/
  | broken
  | other
  | pkcs7 (authData : Bytes)
  deriving DecidableEq, Repr

def winCert (img : Bytes) (ofs dwLength : Nat) : Option WinCert := do
  let type ← field img (ofs + 6) 2
  if type = 0x0002 then
    if dwLength ≤ 8 then return .broken
    return .pkcs7 (← slice? (ofs + 8) (dwLength - 8) img)
  else if type = 0x0EF1 then
    if dwLength ≤ 24 then return .broken
    let certType ← slice? (ofs + 8) 16 img
    if certType ≠ certPkcs7Guid then return .other
    return .pkcs7 (← slice? (ofs + 24) (dwLength - 24) img)
  else if dwLength < 8 then return .broken
  else return .other

structure Verdict where
  isVerified : Bool
  action : Action
  deriving DecidableEq, Repr

def verifyHash (isVerified : Bool) (action : Action) : Verify (Bool × Verdict) := do
  let (status, forbidden) ← isSignatureFoundInDatabase .dbx
  note .digest status
  if status ≠ .success ∨ forbidden then return (true, ⟨false, .authSigFound⟩)
  if isVerified then return (false, ⟨true, action⟩)
  let (status, allowed) ← isSignatureFoundInDatabase .db
  if status = .success ∧ allowed then return (false, ⟨true, action⟩)
  return (false, ⟨false, .authSigNotFound⟩)

def verifySignature (p : PeImage) (authData : Bytes) (v : Verdict) : Verify (Bool × Verdict) := do
  if (← hashPeImageByType p authData) ≠ .success then return (false, v)
  if ← isForbiddenByDbx authData then return (true, ⟨false, .authSigFailed⟩)
  if v.isVerified then verifyHash true v.action
  else verifyHash (← isAllowedByDb authData) v.action

def certificateLoop (p : PeImage) (secDataDirEnd : Nat) : Nat → Nat → Verdict → Verify (Nat × Verdict)
  | 0, _, _ => halt .hang
  | fuel + 1, ofs, v => do
    if secDataDirEnd ≤ ofs then return (ofs, v)
    let left := secDataDirEnd - ofs
    -- `sizeof (WIN_CERTIFICATE)`
    if left ≤ 8 then return (ofs, v)
    let dwLength ← natAt p.bytes ofs 4
    if left < dwLength ∨ left - dwLength < alignSize dwLength then return (ofs, v)
    let next := ofs + (dwLength + alignSize dwLength)
    match ← orFault (winCert p.bytes ofs dwLength) with
    | .broken => return (ofs, v)
    | .other => certificateLoop p secDataDirEnd fuel next v
    | .pkcs7 authData =>
      let (done, v) ← verifySignature p authData v
      if done then return (ofs, v)
      certificateLoop p secDataDirEnd fuel next v

def digestList (g : Globals) : Bytes :=
  g.mCertType ++ leBytes 4 (sigListHdrSize + ownerSize + g.mImageDigestSize) ++ leBytes 4 0 ++
    leBytes 4 (ownerSize + g.mImageDigestSize) ++ List.replicate ownerSize 0 ++ g.mImageDigest.take g.mImageDigestSize

/-- From the label `Failed` on: the image goes to the image execution table and is deferred or denied. -/
def failed (action : Action) (signature : Bytes) : Verify EfiStatus := do
  let e ← ask id
  if e.file.isSome then
    if ← attempt then emit (.imageExeInfo action signature)
  return if policy e = deferExecuteOnSecurityViolation then .securityViolation else .accessDenied

/-- Address and size of the certificate table, where the header gives one that is not empty. -/
def securityDirectory (p : PeImage) : Option (Option (Nat × Nat)) := do
  let magic ← field p.bytes p.optOfs 2
  let numberOfRvaAndSizes ← field p.bytes (p.numberOfRvaAndSizesOfs magic) 4
  if numberOfRvaAndSizes ≤ 4 then return none
  let size ← field p.bytes (p.securityOfs magic + 4) 4
  if size = 0 then return none
  return some (← field p.bytes (p.securityOfs magic) 4, size)

def verifyUnsigned (p : PeImage) : Verify EfiStatus := do
  match ← verifyDigests p false HashAlg.all.reverse with
  | some true => return .success
  | _ => failed .authUntested []

def refuseSigned (action : Action) : Verify EfiStatus := do
  if action = .authSigFailed ∨ action = .authSigFound then
    if (← attempt) = false then return ← failed action []
    let g := (← get).globals
    failed action (digestList g)
  else failed action []

def verifySigned (p : PeImage) (virtualAddress size : Nat) : Verify EfiStatus := do
  let secDataDirEnd := (virtualAddress + size) % 2 ^ 32
  let (ofs, v) ← certificateLoop p secDataDirEnd (secDataDirEnd - virtualAddress + 1) virtualAddress
    ⟨false, .authUntested⟩
  if v.isVerified ∧ ofs = secDataDirEnd then return .success
  refuseSigned v.action

def peCoffHeaderOffset (img : Bytes) : Option Nat := do
  let magic ← field img 0 2
  if magic = 0x5A4D then field img 0x3C 4 else return 0

def ntSignature : Nat := 0x4550

def verifyImage (img : Bytes) : Verify EfiStatus := do
  if (← ask (·.peCoffLoaderGetImageInfo img)) = false then return ← failed .authUntested []
  let peOfs ← orFault (peCoffHeaderOffset img)
  let signature ← natAt img peOfs 4
  if signature ≠ ntSignature then return ← failed .authUntested []
  match ← orFault (securityDirectory ⟨img, peOfs⟩) with
  | none => verifyUnsigned ⟨img, peOfs⟩
  | some (virtualAddress, size) => verifySigned ⟨img, peOfs⟩ virtualAddress size

def dxeImageVerificationHandler : Verify EfiStatus := do
  let e ← ask id
  if policy e = alwaysExecute then return .success
  if policy e = neverExecute then return .accessDenied
  -- `CpuDeadLoop`
  if policy e = queryUserOnSecurityViolation ∨ policy e = allowExecuteOnSecurityViolation then halt .hang
  if e.secureBoot.status = .notFound then return .success
  -- boot service and runtime access, and disabled
  if e.secureBoot.status = .success ∧ e.secureBoot.attributes = 6 ∧ e.secureBoot.value = 0 then return .success
  match e.fileBuffer with
  | none => return .accessDenied
  | some img => verifyImage img

end LeoEdk.SecureBoot
