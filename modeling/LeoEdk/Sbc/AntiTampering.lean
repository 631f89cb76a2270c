import LeoEdk.Sbc.Boot

/-!
What the second-stage loader measures (`SBC_AntiTampering.c` and `SBC_DiceKeysGen`): the identities derived from the
serial numbers, the FSBL file, the SSBL image and the kernel, and the migration key of an update.
-/

namespace LeoEdk.Sbc

open Bytes Prog

def hashLen : Nat := 32

def hashCompute (message : Bytes) : Boot (Status × Bytes) := do
  if message.length = 0 then return (.zerol, [])
  emit (.hashed message)
  let sha256 ← ask (·.sha256)
  return (.ok, sha256 message)

/-! ### The DICE identities -/

@[ext] structure AtpIdent where
  devid : Bytes
  fwid : Bytes
  osid : Bytes
  deriving DecidableEq, Repr

/-- After the FSBL has been hashed, the length of the buffer is set to that of a digest, but the buffer is still the
    FSBL: its first 32 bytes go into the device id, and its digest is not used. -/
def genDeviceID : Boot (Status × Bytes) := do
  let info ← ask (·.hwInfo)
  match ← ask (·.fsblFile) with
  | none => return (.nullp, [])
  | some rdlv =>
    let (ret, _) ← hashCompute rdlv
    if ret ≠ .ok then return (ret, [])
    if !(← granted .devidPool) then return (.nullp, [])
    if rdlv.length < hashLen then halt .fault
    else hashCompute (info.bytes ++ rdlv.take hashLen)

/-- `_ssbl_image_load`, which leaves the blocks of the image without the length in front of it; the last eight bytes
    are not counted. -/
def ssblImageLoad (blkhnd : Option Handle) (normbank : Nat) : Boot (Status × Bytes) := do
  let startlba := ssblStartLba normbank
  let (ret, imghdr) ← rawPrtReadBlock .ssblImageHeader blkhnd rawprtDfltBlkSz startlba
  if ret ≠ .ok then return (ret, [])
  let imglen := alignValue (leNat (slice 0 4 imghdr)) rawprtDfltBlkSz
  if !(← granted .ssblImagePool) then return (.nullp, [])
  let (ret, value) ← rawPrtReadBlock .ssblImageRead blkhnd imglen startlba
  if ret ≠ .ok then return (ret, [])
  return (.ok, slice 4 (imglen - 8) value)

/-- The image is loaded, but before it is hashed the buffer is replaced by the zeros of `hash_ssbl`. -/
def genFWID (blkio : Option Handle) (devid : Bytes) (normbank : Nat) : Boot (Status × Bytes) := do
  let (ret, lv) ← ssblImageLoad blkio normbank
  if ret ≠ .ok then return (ret, [])
  if lv.length = 0 then return (.zerol, [])
  let (ret, hashSsbl) ← hashCompute (List.replicate hashLen 0)
  if ret ≠ .ok then return (ret, [])
  if !(← granted .fwidPool) then return (.nullp, [])
  hashCompute (devid ++ hashSsbl)

/-- `SBC_GetFileSize` reports success with the size 0 when the file's information cannot be read. -/
def kernelImageLoad : Boot (Status × Bytes) := do
  match ← ask fun e => findFile e.kernelFile e.fileSystems with
  | none => return (.fail, [])
  | some file =>
    if !(← granted .kernelOpen) then return (.fail, [])
    let lenOfKernel := if ← granted .kernelInfo then file.length else 0
    if !(← granted .kernelPool) then return (.nullp, [])
    if !(← granted .kernelRead) then return (.notfnd, [])
    return (.ok, file.take lenOfKernel)

def genOSID (fwid : Bytes) : Boot (Status × Bytes) := do
  let (ret, lv) ← kernelImageLoad
  if ret ≠ .ok then return (ret, [])
  let (ret, osHash) ← hashCompute lv
  if ret ≠ .ok then return (ret, [])
  if !(← granted .osidPool) then return (.nullp, [])
  hashCompute (fwid ++ osHash)

/-- `SBC_DiceKeysGen`, which fills the identities in one after the other and leaves the rest as it was. Its last
    argument is handed on and never used. -/
def diceKeysGen (blkio : Option Handle) (h : AtpIdent) (normbank _bm : Nat) : Boot (Status × AtpIdent) := do
  let (ret, devid) ← genDeviceID
  if ret ≠ .ok then return (ret, h)
  let (ret, fwid) ← genFWID blkio devid normbank
  if ret ≠ .ok then return (ret, { h with devid })
  let (ret, osid) ← genOSID fwid
  if ret ≠ .ok then return (ret, { h with devid, fwid })
  return (.ok, { devid, fwid, osid })

/-! ### The migration key -/

def bankStartAddr (bankid : Nat) : Nat :=
  bootSector1Ofs ||| (bootFwImgmax * ((bankid + 2 ^ 32 - 1) % 2 ^ 32)) % 2 ^ 32

/-- The digest of an image of the `boot_fw_inf_t` in memory: its length stands at `ofs`, its bytes follow. -/
def hashMbrImage (fwinf : Bytes) (ofs : Nat) : Boot (Status × Bytes) := do
  let len := leNat (slice ofs 4 fwinf)
  if ofs + 4 + len ≤ fwinf.length then hashCompute (slice (ofs + 4) len fwinf) else halt .fault

/-- The buffer of the current bank is used again for the new one: `sizeof fwinf` is that of a pointer, so its first
    eight bytes are zeroed and one block is read over it. Without a handle the function frees a pointer it has not
    set. -/
def genMigrationKey (priv : Option Handle) (currbankid prevbankid : Nat) : Boot (Status × Bytes) := do
  if priv = none then halt .fault
  else
    let info ← ask (·.hwInfo)
    if !(← granted .migFwinfPool) then return (.nullp, [])
    if !(← granted .migIntegbufPool) then return (.nullp, [])
    if !(← granted .migHashPool) then return (.nullp, [])
    let (ret, hwHash) ← hashCompute info.bytes
    if ret ≠ .ok then return (ret, [])
    let startlba := bankStartAddr currbankid >>> rawprtDfltShift
    let (ret, fwinf) ← rawPrtReadBlock .migCurrentRead priv (alignValue bootFwImgmax rawprtDfltBlkSz) startlba
    if ret ≠ .ok then return (ret, [])
    let (ret, fsblHash) ← hashMbrImage fwinf bootFsblOfs
    if ret ≠ .ok then return (ret, [])
    let (ret, ssblHash) ← hashMbrImage fwinf bootSsblOfs
    if ret ≠ .ok then return (ret, [])
    let (ret, osHash) ← hashMbrImage fwinf bootOsOfs
    if ret ≠ .ok then return (ret, [])
    let sizeofPtr := 8
    let fwinf := overwrite 0 (List.replicate sizeofPtr 0) fwinf
    let startlba := bankStartAddr prevbankid >>> rawprtDfltShift
    let (ret, block) ← rawPrtReadBlock .migNewRead priv (alignValue sizeofPtr rawprtDfltBlkSz) startlba
    if ret ≠ .ok then return (ret, [])
    let fwinf := overwrite 0 block fwinf
    let (ret, newSsblHash) ← hashMbrImage fwinf bootSsblOfs
    if ret ≠ .ok then return (ret, [])
    let (ret, newOsHash) ← hashMbrImage fwinf bootOsOfs
    if ret ≠ .ok then return (ret, [])
    hashCompute (hwHash ++ fsblHash ++ ssblHash ++ osHash ++ newSsblHash ++ newOsHash)

end LeoEdk.Sbc
