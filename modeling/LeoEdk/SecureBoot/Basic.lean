import LeoEdk.Lib.Walk

/-!
The surroundings of `DxeImageVerificationLib`: hash algorithms, GUIDs and times, the databases and the services the
library calls. Allocations, variable reads and hash operations are numbered in the order of the calls, and the
environment decides for each number whether the call succeeds.
-/

namespace LeoEdk.SecureBoot

open Bytes Prog

inductive EfiStatus where
  | success | notFound | bufferTooSmall | outOfResources | deviceError | aborted | badBufferSize | unsupported
  | accessDenied | securityViolation
  deriving DecidableEq, Repr

inductive HashAlg where
  | sha1 | sha224 | sha256 | sha384 | sha512
  deriving DecidableEq, Repr

namespace HashAlg

def all : List HashAlg := [sha1, sha224, sha256, sha384, sha512]

def digestLength : HashAlg → Nat
  | sha1 => 20 | sha224 => 28 | sha256 => 32 | sha384 => 48 | sha512 => 64

def oidValue : HashAlg → Bytes
  | sha1 => [0x2B, 0x0E, 0x03, 0x02, 0x1A]
  | sha224 => [0x60, 0x86, 0x48, 0x01, 0x65, 0x03, 0x04, 0x02, 0x04]
  | sha256 => [0x60, 0x86, 0x48, 0x01, 0x65, 0x03, 0x04, 0x02, 0x01]
  | sha384 => [0x60, 0x86, 0x48, 0x01, 0x65, 0x03, 0x04, 0x02, 0x02]
  | sha512 => [0x60, 0x86, 0x48, 0x01, 0x65, 0x03, 0x04, 0x02, 0x03]

/-- Whether the row of `mHash` has functions; SHA-1 has them unless the build disables it. -/
def hasFunctions (sha1Enabled : Bool) : HashAlg → Bool
  | sha1 => sha1Enabled
  | sha224 => false
  | _ => true

end HashAlg

/-! ### GUIDs, as they lie in memory -/

def guid (a b c : Nat) (d : Bytes) : Bytes := leBytes 4 a ++ leBytes 2 b ++ leBytes 2 c ++ d

def certX509Guid : Bytes := guid 0xa5c059a1 0x94e4 0x4aa7 [0x87, 0xb5, 0xab, 0x15, 0x5c, 0x2b, 0xf0, 0x72]
def certPkcs7Guid : Bytes := guid 0x4aafd29d 0x68df 0x49ee [0x8a, 0xa9, 0x34, 0x7d, 0x37, 0x56, 0x65, 0xa7]
def certSha1Guid : Bytes := guid 0x826ca512 0xcf10 0x4ac9 [0xb1, 0x87, 0xbe, 0x01, 0x49, 0x66, 0x31, 0xbd]
def certSha256Guid : Bytes := guid 0xc1c41626 0x504c 0x4092 [0xac, 0xa9, 0x41, 0xf9, 0x36, 0x93, 0x43, 0x28]
def certSha384Guid : Bytes := guid 0xff3e5307 0x9fd0 0x48c9 [0x85, 0xf1, 0x8a, 0xd5, 0x6c, 0x70, 0x1e, 0x01]
def certSha512Guid : Bytes := guid 0x093e0fae 0xa6c4 0x4f50 [0x9f, 0x1b, 0xd4, 0x1e, 0x2b, 0x89, 0xc1, 0x9a]
def certX509Sha256Guid : Bytes := guid 0x3bd2a492 0x96c0 0x4079 [0xb4, 0x20, 0xfc, 0xf9, 0x8e, 0xf1, 0x03, 0xed]
def certX509Sha384Guid : Bytes := guid 0x7076876e 0x80c2 0x4ee6 [0xaa, 0xd2, 0x28, 0xb3, 0x49, 0xa6, 0x86, 0x5b]
def certX509Sha512Guid : Bytes := guid 0x446dbf63 0x2502 0x4cda [0xbc, 0xfa, 0x24, 0x65, 0xd2, 0xb0, 0xfe, 0x9d]

def certHashAlg (type : Bytes) : Option HashAlg :=
  if type = certX509Sha256Guid then some .sha256
  else if type = certX509Sha384Guid then some .sha384
  else if type = certX509Sha512Guid then some .sha512
  else none

/-- The signature type under which `HashPeImage` files a digest, and the algorithms it accepts. -/
def imageCertType (sha1Enabled : Bool) : HashAlg → Option Bytes
  | .sha1 => if sha1Enabled then some certSha1Guid else none
  | .sha224 => none
  | .sha256 => some certSha256Guid
  | .sha384 => some certSha384Guid
  | .sha512 => some certSha512Guid

structure EfiTime where
  year : Nat
  month : Nat
  day : Nat
  hour : Nat
  minute : Nat
  second : Nat
  deriving DecidableEq, Repr

def EfiTime.ofBytes (bs : Bytes) : EfiTime where
  year := leNat (slice 0 2 bs)
  month := leNat (slice 2 1 bs)
  day := leNat (slice 3 1 bs)
  hour := leNat (slice 4 1 bs)
  minute := leNat (slice 5 1 bs)
  second := leNat (slice 6 1 bs)

def isValidSignatureByTimestamp (signingTime revocationTime : EfiTime) : Bool :=
  if signingTime.year ≠ revocationTime.year then signingTime.year < revocationTime.year
  else if signingTime.month ≠ revocationTime.month then signingTime.month < revocationTime.month
  else if signingTime.day ≠ revocationTime.day then signingTime.day < revocationTime.day
  else if signingTime.hour ≠ revocationTime.hour then signingTime.hour < revocationTime.hour
  else if signingTime.minute ≠ revocationTime.minute then signingTime.minute < revocationTime.minute
  else signingTime.second ≤ revocationTime.second

def isTimeZero (time : EfiTime) : Bool :=
  time.year = 0 ∧ time.month = 0 ∧ time.day = 0 ∧ time.hour = 0 ∧ time.minute = 0 ∧ time.second = 0

/-! ### Environment and world -/

inductive Database where
  | db | dbx | dbt
  deriving DecidableEq, Repr

structure SecureBootVariable where
  status : EfiStatus
  attributes : Nat
  value : Nat
  deriving DecidableEq, Repr

structure Env where
  /-- False in a build with `DISABLE_SHA1_DEPRECATED_INTERFACES`. -/
  sha1Enabled : Bool
  /-- Types and subtypes of the nodes of the file's device path, unless the path is `NULL`. -/
  file : Option (List (Nat × Nat))
  inFirmwareVolume : Bool
  /-- The `RemovableMedia` flag, where the path leads to a block device with media. -/
  blockIo : Option Bool
  simpleFileSystem : Bool
  optionRomPolicy : Nat
  removableMediaPolicy : Nat
  fixedMediaPolicy : Nat
  secureBoot : SecureBootVariable
  fileBuffer : Option Bytes
  peCoffLoaderGetImageInfo : Bytes → Bool
  databases : Database → Option Bytes
  digest : HashAlg → Bytes → Bytes
  length_digest : ∀ alg m, (digest alg m).length = alg.digestLength
  x509GetTBSCert : Bytes → Option Bytes
  /-- The `SpcIndirectDataContent` that Authenticode data signs, which ends with the digest of the image. -/
  spcIndirectDataContent : Bytes → Option Bytes
  /-- Whether the signature in the Authenticode data leads to the certificate. -/
  pkcs7Verify : Bytes → Bytes → Bool
  /-- The certificate stack, empty where there is none. -/
  pkcs7GetSigners : Bytes → Bytes
  /-- The signing time, where the timestamp signature in the Authenticode data leads to the certificate. -/
  imageTimestampVerify : Bytes → Bytes → Option EfiTime
  grants : Nat → Bool

inductive Action where
  | authUntested | authSigFailed | authSigNotFound | authSigFound
  deriving DecidableEq, Repr

inductive Event where
  /-- The database entry that admitted an image is measured. -/
  | secureBootHook (entry : Bytes)
  /-- An entry of the image execution table: the action, and the signature list for a revoked image. -/
  | imageExeInfo (action : Action) (signature : Bytes)
  deriving DecidableEq, Repr

structure Globals where
  mImageDigest : Bytes
  mImageDigestSize : Nat
  mCertType : Bytes
  deriving DecidableEq, Repr

inductive Lookup where
  | signature
  | signer
  /-- The database or the certificate of `db` that verifies a signature. -/
  | root
  | digest
  deriving DecidableEq, Repr

inductive Finding where
  /-- A certificate is about to be looked up in the forbidden database, after so many calls. -/
  | lookup (cert dbx : Bytes) (calls : Nat)
  /-- The forbidden database is about to be read for the certificates of `db`, after so many calls. -/
  | fetch (calls : Nat)
  /-- A lookup in the forbidden database ends in an error, other than that the database does not exist. -/
  | unanswered (l : Lookup)
  deriving DecidableEq, Repr

structure World where
  calls : Nat
  globals : Globals
  log : List Event
  /-- A history variable: nothing reads it. -/
  findings : List Finding
  deriving DecidableEq, Repr

inductive Halt where
  /-- A read outside a buffer or a division by zero. -/
  | fault
  /-- A loop that does not end. -/
  | hang
  deriving DecidableEq, Repr

abbrev Verify := Prog Env World Halt

def attempt : Verify Bool := do
  let w ← get
  modify fun w => { w with calls := w.calls + 1 }
  ask (·.grants w.calls)

def emit (ev : Event) : Verify Unit := modify fun w => { w with log := w.log ++ [ev] }

def record (f : Nat → Finding) : Verify Unit := modify fun w => { w with findings := w.findings ++ [f w.calls] }

def note (l : Lookup) (status : EfiStatus) : Verify Unit :=
  if status = .success ∨ status = .notFound ∨ status = .bufferTooSmall then return () else record fun _ => .unanswered l

def orFault {α : Type} : Option α → Verify α
  | some a => return a
  | none => halt .fault

def bytesAt (bs : Bytes) (ofs len : Nat) : Verify Bytes := orFault (slice? ofs len bs)

def field (bs : Bytes) (ofs width : Nat) : Option Nat := (slice? ofs width bs).map leNat

def natAt (bs : Bytes) (ofs width : Nat) : Verify Nat := orFault (field bs ofs width)

def getVariableSize (v : Database) : Verify EfiStatus := do
  if (← attempt) = false then return .deviceError
  match ← ask (·.databases v) with
  | none => return .notFound
  | some [] => return .success
  | some _ => return .bufferTooSmall

def getVariable (v : Database) : Verify (Except EfiStatus Bytes) := do
  if (← attempt) = false then return .error .outOfResources
  if (← attempt) = false then return .error .deviceError
  match ← ask (·.databases v) with
  | none => return .error .notFound
  | some data => return .ok data

/-- `AuthenticodeVerify`: the content that is signed ends with the digest, and the signature leads to the
    certificate. -/
def Env.authenticodeVerify (e : Env) (authData cert imageHash : Bytes) : Bool :=
  match e.spcIndirectDataContent authData with
  | none => false
  | some content => content.drop (content.length - imageHash.length) = imageHash && e.pkcs7Verify authData cert

end LeoEdk.SecureBoot
