import LeoEdk.Sbc.SystemControl

/-!
The second-stage boot loader (`SSBL.c`). The build option `_FILE_RD_BM_` is the argument `fileRdBm`.

`SBC_SSBL_Verify`, `SBC_DiceKeysGen` and `SBC_GenMigrationKey` enter through their status alone.
-/

namespace LeoEdk.Sbc.Ssbl

open Bytes Prog

def findPreviouslyBank : Nat → Nat
  | 1 => 2
  | 2 => 1
  | _ => 0

/-! ### The boot-mode file -/

/-- `_sbc_bm_lookup_key`: `strncmp` is given one character less than the keyword has. -/
def bmLookupKey (key : Bytes) : Nat :=
  if key.take 5 = "norma".toUTF8.data.toList then BootMode.normal.code
  else if key.take 5 = "updat".toUTF8.data.toList then BootMode.update.code
  else if key.take 6 = "factor".toUTF8.data.toList then BootMode.factory.code
  else bootModeUnknown

/-- A missing handle makes it return a status where the caller expects a boot mode. -/
def readBootMode : BootModeFile → Nat
  | .noFileSystem | .unreadable => bootModeUnknown
  | .nullHandle => Status.nullp.code
  | .content bs => bmLookupKey ((bs ++ List.replicate 16 0).take 16)

/-- The mode `UefiMain` switches on: with `_FILE_RD_BM_` the file decides when the header does not name a mode. -/
def selectBootMode (fileRdBm : Bool) (file : BootModeFile) (bootmode : Nat) : Nat :=
  if fileRdBm ∧ bootmode = 0 then readBootMode file else bootmode

/-! ### `UefiMain` -/

def grubLoadAndStart : Boot Status := do
  emit .startGrub
  return .ok

def modeHandler (fileRdBm : Bool) (bootmd : Nat) (bp : BootProc) : Boot Status :=
  match BootMode.ofCode bootmd with
  | some .normal => do
    if fileRdBm then
      let _ ← bootKeyModeChange .modeNormal .normal .normal (some bp)
    traced .secureBootCheck (secureBootCheck bp)
  -- The third argument is `NULL` in the source.
  | some .factory => traced .factoryModeChange (bootKeyModeChange .modeNormal .factory .normal none)
  | some .update => do
    let bp := if fileRdBm then { bp with bm := BootMode.update.code, km := KeyMode.normal.code } else bp
    let ret ← step .genMigrationKey
    if ret ≠ .ok then return ret
    traced .secureBootCheck (secureBootCheck bp)
  | some .recovery => traced .secureBootCheck (secureBootCheck bp)
  -- `Unknown Boot Mode ... SHOULD go to Abort` is printed, and the status is still the one of the last check.
  | none => return .ok

def bootProc (blkhnd : Option Handle) (hdr : RawprtHdr) : BootProc where
  blkhnd := blkhnd
  rawprtHdr := hdr
  pvsSwBnk := findPreviouslyBank (currbankId hdr.bootpres)
  bm := hdr.bootmode.toNat
  km := hdr.keymode.toNat
  bootst := .nrma

def uefiMainBody (fileRdBm : Bool) : Boot Status := do
  let (ret, blkio, hdr) ← blkIoHandleInit .zero
  emit (.returned .blkIoHandleInit ret)
  if ret ≠ .ok then return ret
  let ret ← step (.ssblVerify (currbankId hdr.bootpres))
  if ret ≠ .ok then return ret
  let ret ← step .diceKeysGen
  if ret ≠ .ok then return ret
  let file ← ask (·.bootModeFile)
  let ret ← modeHandler fileRdBm (selectBootMode fileRdBm file hdr.bootmode.toNat) (bootProc blkio hdr)
  if ret ≠ .ok then return ret
  grubLoadAndStart

/-- `UefiMain`, which returns `EFI_SUCCESS` whenever it returns. -/
def uefiMain (fileRdBm : Bool) : Boot Unit := do
  let ret ← uefiMainBody fileRdBm
  if ret ≠ .ok then halt .shutdown

end LeoEdk.Sbc.Ssbl
