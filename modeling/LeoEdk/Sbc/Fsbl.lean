import LeoEdk.Sbc.Boot

/-!
The first-stage boot loader (`FSBL.c`), built with `_SBC_DEVID_VERIFY_`.

`SBC_FSBL_Verify`, `SBC_DiceKeysGen` and `SBC_DeviceIdKyeVerify` enter through their status alone. What
`SBC_SSBL_Verify` and the loader of the SSBL image read from the disk is followed block by block.
-/

namespace LeoEdk.Sbc.Fsbl

open Bytes Prog

inductive EfiStatus where
  | success | invalidParameter
  deriving DecidableEq, Repr

structure MainState where
  retval : EfiStatus
  isBootStatus : Bool
  deriving DecidableEq, Repr

def findPreviouslyBank : Nat → Nat
  | 1 => 2
  | 2 => 1
  | _ => 0xFFFFFFFF

def ssblVerify (blkhnd : Option Handle) (nrombank : Nat) : Boot Status := do
  let startlba := ssblStartLba nrombank
  let (ret, imghdr) ← rawPrtReadBlock .ssblVerifyHeader blkhnd rawprtDfltBlkSz startlba
  if ret ≠ .ok then return ret
  let imglen := alignValue (leNat (slice 0 4 imghdr)) rawprtDfltBlkSz
  if !(← granted .ssblVerifyPool) then return .nullp
  let (ret, _) ← rawPrtReadBlock .ssblVerifyImage blkhnd imglen startlba
  -- The trailer of the image is taken apart from here on, but hashing it and verifying its signature are commented
  -- out, so the status of the second read is the result.
  return ret

/-- `SBC_SSBL_LoadAndStart`, which starts `\EFI\rocky\SSBL.efi` and not the file that the loader writes. -/
def ssblLoadAndStart : Boot Status := do
  emit .startSsbl
  traced .ssblLoadAndStart do
    match ← ask fun e => findFile e.ssblFile e.fileSystems with
    | none => return .fail
    | some image => do
      emit (.startImage image)
      return .ok

/-- `SBC_WriteFile` of `\EFI\boot\SSBL.efi` with the first `length` bytes at `value`: whether it succeeds, and the
    length in the `LV_t` afterwards. -/
def writeFile (fs : Nat) (value : Bytes) (length : Nat) : Boot (Bool × Nat) := do
  emit (.writeFile (value.take length))
  let store ← ask (·.storeFile fs)
  modify fun w => { w with disk := store (value.take length) w.disk }
  let answer ← ask (·.writeFile fs)
  return (answer.taken, answer.left length)

/-- The file systems are tried in turn until one takes the file, all with the same `LV_t`. -/
def writeSsblFile (value : Bytes) : List Nat → Nat → Boot Bool
  | [], _ => return false
  | fs :: rest, length => do
    let (taken, length) ← writeFile fs value length
    if taken then return true else writeSsblFile value rest length

/-- `SBC_BootModeNormalAndpUdate` from the search for the file systems on. -/
def writeAndStart (wrlv : Bytes) : Boot Status := do
  let hndlcnt ← ask (·.fileSystems)
  if hndlcnt = 0 then return .io
  if !(← writeSsblFile wrlv (List.range hndlcnt) wrlv.length) then return .notfnd
  ssblLoadAndStart

def bootModeNormalAndpUdate (blkhnd : Option Handle) (nrombank : Nat) : Boot Status := do
  if ¬(0 < nrombank ∧ nrombank < 3) then return .invparam
  if blkhnd = none then return .nullp
  let startlba := ssblStartLba nrombank
  let (ret, imghdr) ← rawPrtReadBlock .bootHeader blkhnd rawprtDfltBlkSz startlba
  if ret ≠ .ok then return ret
  let imglen := alignValue (leNat (slice 0 4 imghdr)) rawprtDfltBlkSz
  if !(← granted .bootPool) then return .nullp
  let (ret, loadimg) ← rawPrtReadBlock .bootImage blkhnd imglen startlba
  if ret ≠ .ok then return ret
  writeAndStart (slice 4 (imglen - 4) loadimg)

/-- The branches of `UefiMain` for the modes normal, update and recovery: they differ in the bank and in the key. -/
def verifyAndBoot (blkio : Option Handle) (bank : Nat) (deckey : IdKey) : Boot MainState := do
  let ret ← traced (.ssblVerify bank) (ssblVerify blkio bank)
  -- The jump to `errdone` is commented out after this check and after no other one.
  let st : MainState := if ret ≠ .ok then ⟨.invalidParameter, false⟩ else ⟨.success, true⟩
  let ret ← step (.deviceIdKyeVerify deckey)
  if ret ≠ .ok then return ⟨.invalidParameter, false⟩
  let ret ← bootModeNormalAndpUdate blkio bank
  if ret ≠ .ok then return ⟨.invalidParameter, false⟩
  return st

/-- `SBC_RawPrtBlockWrite` of the header with the key mode set to normal, unless it is normal already. -/
def writeKeyModeNormal (site : Site) (blkio : Option Handle) (hdr : RawprtHdr) : Boot Unit := do
  if hdr.keymode.toNat ≠ KeyMode.normal.code then
    let _ ← rawPrtBlockWrite site blkio { hdr with keymode := .ofNat KeyMode.normal.code }.toBytes 0

def factoryBoot (blkio : Option Handle) (hdr : RawprtHdr) : Boot MainState := do
  let ret ← step (.deviceIdKyeVerify .osid)
  if ret ≠ .ok then return ⟨.invalidParameter, false⟩
  writeKeyModeNormal .factoryKeyMode blkio hdr
  let _ ← ssblLoadAndStart
  return ⟨.success, true⟩

def uefiMainBody (blkio : Option Handle) (hdr : RawprtHdr) : Boot MainState := do
  let currbank := currbankId hdr.bootpres
  let prevbank := findPreviouslyBank currbank
  if prevbank < 1 then return ⟨.invalidParameter, true⟩
  let ret ← step .fsblVerify
  if ret ≠ .ok then return ⟨.invalidParameter, false⟩
  let ret ← step .diceKeysGen
  if ret ≠ .ok then return ⟨.invalidParameter, false⟩
  match BootMode.ofCode hdr.bootmode.toNat with
  | some .normal => verifyAndBoot blkio currbank .osid
  | some .update => verifyAndBoot blkio currbank .migid
  | some .recovery => verifyAndBoot blkio prevbank .migid
  | some .factory => factoryBoot blkio hdr
  | none => return ⟨.success, false⟩

def uefiMain : Boot EfiStatus := do
  -- A failure to find the raw partition is asserted and not acted upon: the header is then the last block 0 read.
  let (_, blkio, hdr) ← blkIoHandleInit .zero
  let st ← uefiMainBody blkio hdr
  if BootMode.ofCode hdr.bootmode.toNat = some .factory ∧ st.isBootStatus = false then
    writeKeyModeNormal .factoryAbnormalKeyMode blkio hdr
    halt .shutdown
  return st.retval

end LeoEdk.Sbc.Fsbl
