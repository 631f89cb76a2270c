import LeoEdk.Sbc.Basic

/-!
What the second-stage loader reads of the system settings: the base answer, which it compares with the one in the FSBL
file, and the device certificate, whose key it compares with the key derived from the device id.

Both records are a length, a ciphertext of AES-GCM, its IV and its tag. The readers are functions of the disk; the
handle of the raw partition is not null. A fault is a use of memory outside a buffer.
-/

namespace LeoEdk.Sbc

open Bytes

inductive Ending where
  | returned (st : Status)
  | fault
  deriving DecidableEq, Repr

/-- The services the readers ask for, and AES-GCM decryption: key, IV, ciphertext and tag to the plaintext. -/
structure SettingsEnv (Key : Type) where
  pool : Bool
  read : Bool
  aesGcmDecrypt : Key → Bytes → Bytes → Bytes → Option Bytes
  /-- The stack from the first byte of `decbuf` on, before the call. -/
  stack : Store

variable {Key : Type}

def baseAnsMaxLen : Nat := 256
def baseAnsIvKeyStr : Nat := 12
def baseAnsTagLen : Nat := 16
def baseAnsStreamLen : Nat := 512

def SettingsEnv.load (e : SettingsEnv Key) (disk : Store) : Except Ending Bytes :=
  if !e.pool then .error (.returned .nullp)
  else if !e.read then .error (.returned .io)
  else .ok (disk.read ((sysConfStartOfs >>> rawprtDfltShift) * rawprtDfltBlkSz)
    (alignValue sysSettingStorageLen rawprtDfltBlkSz))

theorem settings_length : alignValue sysSettingStorageLen rawprtDfltBlkSz = 16896 := by decide

theorem settings_offset : (sysConfStartOfs >>> rawprtDfltShift) * rawprtDfltBlkSz = sysConfStartOfs := by decide

/-! ### The base answer -/

structure BaseAnsid where
  encmsg : Bytes
  iv : Bytes
  tag : Bytes
  deriving DecidableEq, Repr

/-- The length on the disk is not compared with the room of `encmsg`. -/
def baseanswerExtractFromDisk (e : SettingsEnv Key) (disk : Store) : Except Ending BaseAnsid := do
  let loadbuf ← e.load disk
  let msglen := leNat (slice sysConfResOfs 4 loadbuf)
  if msglen = 0 then throw (.returned .bsanswnotfnd)
  if baseAnsMaxLen < msglen then throw .fault
  let offset := sysConfResOfs + 4
  return {
    encmsg := slice offset msglen loadbuf
    iv := slice (offset + msglen) baseAnsIvKeyStr loadbuf
    tag := slice (offset + msglen + baseAnsIvKeyStr) baseAnsTagLen loadbuf }

/-- `decbuf` once the answer has been decrypted into it, and the stack behind it. -/
def SettingsEnv.decbuf (e : SettingsEnv Key) (plain : Bytes) : Store :=
  e.stack.write 0 (overwrite 0 plain (List.replicate baseAnsStreamLen 0))

/-- As many bytes are compared as the candidate has. -/
def baseAnswerValidate (e : SettingsEnv Key) (disk : Store) (answer : Option Bytes) (key : Key) : Ending :=
  match answer with
  | none => .returned .nullp
  | some answer =>
    match baseanswerExtractFromDisk e disk with
    | .error ending => ending
    | .ok ansid =>
      match e.aesGcmDecrypt key ansid.iv ansid.encmsg ansid.tag with
      | none => .returned .fail
      | some plain =>
        if (e.decbuf plain).read 0 answer.length ≠ answer then .returned .fail else .returned .ok

/-! ### The device certificate -/

/-- `BN_bn2bin`: the number in big-endian order, without leading zeros. -/
def bnBin (n : Nat) : Bytes := ((Nat.digits 256 n).map UInt8.ofNat).reverse

/-- The curve of the device keys, by what the code asks of it. -/
structure Curve where
  order : Nat
  mulBase : Nat → Option (Nat × Nat)
  coordinate_lt : ∀ d x y, mulBase d = some (x, y) → x < 256 ^ 32 ∧ y < 256 ^ 32

structure EcKey where
  degree : Nat
  x : Nat
  y : Nat
  degree_pos : 0 < degree
  deriving DecidableEq, Repr

structure DeviceEnv (Key : Type) extends SettingsEnv Key where
  curve : Curve
  /-- The contexts and numbers `SBC_DICESeedKeyPair` and `EcGetPubKey` allocate. -/
  seedPool : Bool
  pubKeyPool : Bool
  ecGetPublicKeyFromX509 : Bytes → Option EcKey

def sysConfDevidCrtOfs : Nat := 0x880

/-- The point `SBC_DICESeedKeyPair` computes: the seed modulo the order, times the generator. -/
def seedPoint (curve : Curve) (diceSeed : Bytes) : Option (Nat × Nat) :=
  curve.mulBase (leNat diceSeed.reverse % curve.order)

/-- `SBC_DICESeedKeyPair`: the 64 bytes of `q`. Each coordinate starts at the front of its field. -/
def diceSeedKeyPair (e : DeviceEnv Key) (diceSeed : Bytes) : Except Status Bytes :=
  if !e.seedPool then .error .nullp
  else match seedPoint e.curve diceSeed with
    | none => .error .fail
    | some (x, y) =>
      if (bnBin x).length = 0 ∨ (bnBin y).length = 0 then .error .zerol
      else .ok (overwrite 32 (bnBin y) (overwrite 0 (bnBin x) (List.replicate 64 0)))

/-- `EcGetPubKey`: the key, each coordinate at the end of its half, or nothing when the size that is passed is too small
    for it. -/
def ecGetPubKey (pool : Bool) (key : EcKey) (publicKeySize : Nat) : Option Bytes :=
  let halfSize := (key.degree + 7) / 8
  if publicKeySize < halfSize * 2 then none
  else if !pool then none
  else
    let xSize := (bnBin key.x).length
    let ySize := (bnBin key.y).length
    if xSize = 0 ∨ ySize = 0 then none
    else some (overwrite (halfSize + halfSize - ySize) (bnBin key.y)
      (overwrite (halfSize - xSize) (bnBin key.x) (List.replicate (halfSize * 2) 0)))

/-- The stored certificate: its length, and where its ciphertext, IV and tag lie in the settings. -/
def devidCrtLen (loadbuf : Bytes) : Nat := leNat (slice sysConfDevidCrtOfs 4 loadbuf)

/-- The ciphertext and what follows it are taken from wherever the length leads; past the end of the buffer there is
    nothing to decrypt. -/
def decryptDevidCrt (e : SettingsEnv Key) (loadbuf : Bytes) (deckey : Key) : Option Bytes :=
  let calen := devidCrtLen loadbuf
  let offset := sysConfDevidCrtOfs + 4
  if offset + calen + baseAnsIvKeyStr + baseAnsTagLen ≤ loadbuf.length then
    e.aesGcmDecrypt deckey (slice (offset + calen) baseAnsIvKeyStr loadbuf) (slice offset calen loadbuf)
      (slice (offset + calen + baseAnsIvKeyStr) baseAnsTagLen loadbuf)
  else none

/-- The certificate is decrypted into `decbuf`, an array of 2048 bytes, and the size that is passed to `EcGetPubKey` is
    the initial value 0 of `pubkeyl`. -/
def deviceIdKyeVerify (e : DeviceEnv Key) (disk : Store) (devid : Bytes) (deckey : Key) : Ending :=
  match diceSeedKeyPair e devid with
  | .error _ => .returned .invparam
  | .ok q =>
    match e.load disk with
    | .error ending => ending
    | .ok loadbuf =>
      let calen := devidCrtLen loadbuf
      if 2 ^ 31 - 1 < calen then .returned .decfail
      else if 2048 < calen then .fault
      else match decryptDevidCrt e.toSettingsEnv loadbuf deckey with
        | none => .returned .decfail
        | some der =>
          if calen = 0 then .returned .invparam
          else match e.ecGetPublicKeyFromX509 der with
            | none => .returned .invparam
            | some ctx =>
              let pubkeyl := 0
              match ecGetPubKey e.pubKeyPool ctx pubkeyl with
              | none => .returned .fail
              | some pubkey => if slice 0 pubkey.length q ≠ pubkey then .returned .invparam else .returned .ok

end LeoEdk.Sbc
