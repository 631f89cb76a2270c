import LeoEdk.Sbc.Boot

/-!
Boot and key modes of the second-stage loader (`SBC_SystemControl.c`): how a boot reacts to its mode, key mode and boot
status, which modes it leaves in block 0 for the next boot, and when it resets the system.
-/

namespace LeoEdk.Sbc

open Bytes Prog

inductive BootSt where
  | nrma | abnram | unknown
  deriving DecidableEq, Repr

/-- `boot_proc_t`. The header is the caller's copy of block 0. -/
structure BootProc where
  blkhnd : Option Handle
  rawprtHdr : RawprtHdr
  pvsSwBnk : Nat
  bm : Nat
  km : Nat
  bootst : BootSt

/-- The write of block 0 in `SBC_BootKeyModeChange`: the header, and zeros up to the end of the block. -/
def writeHeader (site : Site) : Option Handle → RawprtHdr → Boot Status
  | none, _ => return .nullp
  | some h, hdr => rawPrtBlockWrite site (some h) (hdr.toBytes ++ List.replicate 384 0) 0

/-- The modes are set in the caller's copy of the header before it is written; each call sets both of them, so no later
    call sees what an earlier one left there. -/
def bootKeyModeChange (site : Site) (newbm : BootMode) (newkey : KeyMode) (priv : Option BootProc) : Boot Status := do
  match priv with
  | none => halt .fault
  | some bp =>
    let ret ← writeHeader site bp.blkhnd
      { bp.rawprtHdr with bootmode := .ofNat newbm.code, keymode := .ofNat newkey.code }
    emit (.modeChange site newbm newkey ret)
    return ret

/-- The header with new modes; the fields are `UINT16`. -/
def RawprtHdr.withModes (hdr : RawprtHdr) (newbm newkey : UInt32) : RawprtHdr :=
  { hdr with bootmode := newbm.toUInt16, keymode := newkey.toUInt16 }

/-- `SBC_BootKeyModeChange` together with the `boot_proc_t` as it leaves it to its caller. -/
def bootKeyModeChangeHdr (site : Site) (newbm newkey : UInt32) (bp : BootProc) : Boot (Status × BootProc) := do
  let bp := { bp with rawprtHdr := bp.rawprtHdr.withModes newbm newkey }
  let ret ← writeHeader site bp.blkhnd bp.rawprtHdr
  return (ret, bp)

/-! ### The base answer -/

/-- `_baseanswer_store`: the record is copied into the system settings read from the disk, which are written back. -/
def baseanswerStore (blkio : Option Handle) (encmsg iv tag : Bytes) : Boot Status := do
  if blkio = none then return .nullp
  let lba := sysConfStartOfs >>> rawprtDfltShift
  let ldlen := alignValue sysSettingStorageLen rawprtDfltBlkSz
  if !(← granted .baseAnswerPool) then return .nullp
  let (ret, loadbuf) ← rawPrtReadBlock .baseAnswerRead blkio ldlen lba
  if ret ≠ .ok then return ret
  let ansid := leBytes 4 encmsg.length ++ encmsg ++ iv ++ tag ++ List.replicate 16 0
  rawPrtBlockWrite .baseAnswerWrite blkio (overwrite sysConfResOfs ansid loadbuf) lba

def baseAnswerEncryptStore (blkhnd : Option Handle) (key : IdKey) : Boot Status := do
  let iv ← ask (·.iv)
  match ← ask fun e => e.aesGcmEncrypt key e.baseAnswer with
  | none => return .encfail
  | some (encmsg, tag) => baseanswerStore blkhnd encmsg iv tag

/-! ### The modes -/

def checkPrevFw (prevBnkId : Nat) : Bool := prevBnkId ≠ 0

def abnormalProcessing (bp : BootProc) : Boot Unit := do
  if bp.km = KeyMode.normal.code then
    let _ ← bootKeyModeChange .modeAbnormal (if checkPrevFw bp.pvsSwBnk then .recovery else .factory) .update (some bp)

def updateBehaviorForKm (bp : BootProc) : Boot Status :=
  match bp.bootst with
  | .abnram => return .ok
  | .nrma => baseAnswerEncryptStore bp.blkhnd .migid
  | .unknown => return .invparam

def updateBootPorcsesing (bp : BootProc) : Boot Status :=
  match KeyMode.ofCode bp.km with
  | some .normal | some .update => updateBehaviorForKm bp
  | some .boot => return .ok
  | none => return if bp.km = 0 then .ok else .invparam

/-- `SBC_RecoveryBootProcessing`, which never returns: it reboots or, from its label `errdone`, shuts down. -/
def recoveryBootProcessing (bp : BootProc) : Boot Unit := do
  if bp.bootst = .abnram then
    let _ ← bootKeyModeChange .modeRecoveryAbnormal .factory .boot (some bp)
    halt .reboot
  else if !checkPrevFw bp.pvsSwBnk then halt .shutdown
  else
    let ret ← baseAnswerEncryptStore bp.blkhnd .osid
    if ret ≠ .ok ∨ bp.bootst ≠ .nrma ∨ KeyMode.ofCode bp.km = none then halt .shutdown
    else
      let ret ← bootKeyModeChange .modeRecovery .normal .normal (some bp)
      if ret ≠ .ok then halt .shutdown else halt .reboot

def updateResetModeChange (bp : BootProc) : Boot Unit := do
  match bp.bootst with
  | .nrma =>
    let _ ← bootKeyModeChange .modeReset .recovery .normal (some bp)
  | .abnram =>
    let _ ← bootKeyModeChange .modeReset (if bp.pvsSwBnk ≠ 0 then .recovery else .factory) .update (some bp)
  | .unknown => return ()

def updateResetCheckAndBehavior (bp : BootProc) : Boot Unit := do
  if bp.km = KeyMode.normal.code then
    updateResetModeChange bp
    halt .reboot

def resetScenario (bp : BootProc) : Boot Unit := do
  if bp.bm = BootMode.update.code then updateResetCheckAndBehavior bp

def secureBootMode (bp : BootProc) : Boot Status := do
  match BootMode.ofCode bp.bm with
  | some .normal =>
    if bp.bootst = .abnram then
      abnormalProcessing bp
      halt .reboot
    else return .ok
  | some .recovery =>
    recoveryBootProcessing bp
    return .ok
  | some .update => updateBootPorcsesing bp
  | _ => return .ok

/-- `SBC_SecureBootCheck`: every branch of its `switch` passes the label `errdone`, where `SBC_ResetScenario` is. -/
def secureBootCheck (bp : BootProc) : Boot Status := do
  let ret ← secureBootMode bp
  resetScenario bp
  return ret

end LeoEdk.Sbc
