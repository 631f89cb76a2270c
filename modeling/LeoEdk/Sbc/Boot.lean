import LeoEdk.Lib.Program
import LeoEdk.Sbc.Basic

/-!
The machine the boot loaders run on: the boot services they ask, the disks they read and write, and the ways a boot
ends. Over it, the block transfers of `SBC_FileCtrl.c` and the search for the raw partition.
-/

namespace LeoEdk.Sbc

open Bytes Prog

/-- The places where a loader asks for a service. One boot passes each at most once, so an answer for each place is an
    answer for each call. -/
inductive Site where
  | ssblVerifyHeader | ssblVerifyPool | ssblVerifyImage
  | bootHeader | bootPool | bootImage
  | factoryKeyMode | factoryAbnormalKeyMode
  | baseAnswerPool | baseAnswerRead | baseAnswerWrite
  | modeNormal | modeAbnormal | modeRecoveryAbnormal | modeRecovery | modeReset
  | devidPool | ssblImageHeader | ssblImagePool | ssblImageRead | fwidPool
  | kernelOpen | kernelInfo | kernelPool | kernelRead | osidPool
  | migFwinfPool | migIntegbufPool | migHashPool | migCurrentRead | migNewRead
  deriving DecidableEq, Repr

inductive IdKey where
  | osid | migid
  deriving DecidableEq, Repr

inductive Step where
  | blkIoHandleInit
  | fsblVerify
  | diceKeysGen
  | ssblVerify (bank : Nat)
  | deviceIdKyeVerify (deckey : IdKey)
  | ssblLoadAndStart
  | genMigrationKey
  | secureBootCheck
  | factoryModeChange
  deriving DecidableEq, Repr

/-- What `SBC_ReadBootMode` finds where the boot-mode file should be. -/
inductive BootModeFile where
  | noFileSystem | nullHandle | unreadable
  | content (bs : Bytes)
  deriving DecidableEq, Repr

structure Device where
  pool : Bool
  read : Bool
  deriving DecidableEq, Repr

abbrev Handle := Nat

/-- `hw_uniqueinfo_t`: the serial numbers of the main board, the memory device and the NVMe. -/
structure HwUniqueinfo where
  mbsn : Bytes
  mmsn : Bytes
  nvmesn : Bytes
  deriving DecidableEq, Repr

def HwUniqueinfo.bytes (info : HwUniqueinfo) : Bytes := info.mbsn ++ info.mmsn ++ info.nvmesn

/-- What comes of `SBC_WriteFile` on a file system: the file cannot be opened, or `File->Write` has answered, and the
    length in the caller's `LV_t`, which it was given a pointer to, is what it has left there. -/
inductive FileAnswer where
  | unopened
  | written (ok : Bool) (length : UInt32)
  deriving DecidableEq, Repr

def FileAnswer.taken : FileAnswer → Bool
  | unopened => false
  | written ok _ => ok

def FileAnswer.left (length : Nat) : FileAnswer → Nat
  | unopened => length
  | written _ length => length.toNat

structure Env where
  /-- The devices with Block I/O, in the order `LocateHandleBuffer` gives them. -/
  devices : List Device
  granted : Site → Bool
  /-- The status of a step whose work is not followed here. -/
  outcome : Step → Status
  /-- How many file systems `SBC_FindEfiFileSystemProtocol` finds, what comes of `SBC_WriteFile` on each of them, and
      what the call with this data does to the disks. -/
  fileSystems : Nat
  writeFile : Nat → FileAnswer
  storeFile : Nat → Bytes → (Handle → Store) → Handle → Store
  /-- The image that `LoadImage` takes from `\EFI\rocky\SSBL.efi` on each of the file systems, if it takes one. -/
  ssblFile : Nat → Option Bytes
  bootModeFile : BootModeFile
  /-- The base answer `SBC_SSBL_Verify` takes from the FSBL file, the random IV of this boot, and AES-GCM with that IV
      under one of the derived keys: ciphertext and tag, or a failure. -/
  baseAnswer : Bytes
  iv : Bytes
  aesGcmEncrypt : IdKey → Bytes → Option (Bytes × Bytes)
  hwInfo : HwUniqueinfo
  /-- The buffer `efi_boot_fsbl_load` leaves its caller; its status is not looked at. -/
  fsblFile : Option Bytes
  /-- The kernel image on each of the file systems, where it can be opened. -/
  kernelFile : Nat → Option Bytes
  sha256 : Bytes → Bytes

inductive Event where
  | readBlocks (lba len : Nat)
  | writeBlocks (lba len : Nat)
  | writeFile (data : Bytes)
  | returned (s : Step) (st : Status)
  | modeChange (site : Site) (newbm : BootMode) (newkey : KeyMode) (st : Status)
  | hashed (message : Bytes)
  | startSsbl
  | startImage (image : Bytes)
  | startGrub
  deriving DecidableEq, Repr

def Event.isTransfer : Event → Bool
  | readBlocks .. | writeBlocks .. | writeFile .. | modeChange .. | hashed .. => true
  | returned .. | startSsbl | startImage .. | startGrub => false

def Event.message? : Event → Option Bytes
  | hashed message => some message
  | _ => none

structure World where
  disk : Handle → Store
  log : List Event

/-- A fault is a use of memory the code does not own. -/
inductive Halt where
  | reboot | shutdown | fault
  deriving DecidableEq, Repr

abbrev Boot := Prog Env World Halt

def World.note (w : World) (evs : List Event) : World := { w with log := w.log ++ evs }

def World.write (w : World) (h : Handle) (ofs : Nat) (bs : Bytes) : World :=
  { w with disk := Function.update w.disk h ((w.disk h).write ofs bs) }

@[simp] theorem World.note_disk (w : World) (evs : List Event) : (w.note evs).disk = w.disk := rfl

@[simp] theorem World.note_log (w : World) (evs : List Event) : (w.note evs).log = w.log ++ evs := rfl

@[simp] theorem World.note_note (w : World) (evs evs' : List Event) :
    (w.note evs).note evs' = w.note (evs ++ evs') := by
  simp [World.note]

@[simp] theorem World.write_disk_self (w : World) (h : Handle) (ofs : Nat) (bs : Bytes) :
    (w.write h ofs bs).disk h = (w.disk h).write ofs bs := Function.update_self ..

@[simp] theorem World.write_log (w : World) (h : Handle) (ofs : Nat) (bs : Bytes) :
    (w.write h ofs bs).log = w.log := rfl

theorem World.note_nil (w : World) : w.note [] = w := by
  simp [World.note]

/-- The first of the file systems that has the file decides. -/
def findFile (files : Nat → Option Bytes) (hndlcnt : Nat) : Option Bytes := (List.range hndlcnt).findSome? files

def emit (ev : Event) : Boot Unit := modify (·.note [ev])

def granted (s : Site) : Boot Bool := ask (·.granted s)

def traced (s : Step) (m : Boot Status) : Boot Status := do
  let ret ← m
  emit (.returned s ret)
  return ret

def step (s : Step) : Boot Status := traced s (ask (·.outcome s))

section Rules

variable {e : Env} {w : World} {R : Halt → World → Prop}

@[simp] theorem wp_emit (ev : Event) (Q : Unit → World → Prop) : wp (emit ev) e Q R w ↔ Q () (w.note [ev]) := Iff.rfl

@[simp] theorem wp_granted (s : Site) (Q : Bool → World → Prop) : wp (granted s) e Q R w ↔ Q (e.granted s) w := Iff.rfl

@[simp] theorem wp_traced (s : Step) (m : Boot Status) (Q : Status → World → Prop) :
    wp (traced s m) e Q R w ↔ wp m e (fun st w' => Q st (w'.note [.returned s st])) R w := by
  simp [traced]

@[simp] theorem wp_step (s : Step) (Q : Status → World → Prop) :
    wp (step s) e Q R w ↔ Q (e.outcome s) (w.note [.returned s (e.outcome s)]) := by
  simp [step]

end Rules

/-! ### Block transfers -/

/-- The raw partition has blocks of 512 bytes. -/
def rawPrtReadBlock (site : Site) (blkhnd : Option Handle) (rdlen rlba : Nat) : Boot (Status × Bytes) := do
  match blkhnd with
  | none => return (.nullp, [])
  | some h =>
    if rdlen = 0 then return (.zerol, [])
    emit (.readBlocks rlba rdlen)
    if ← granted site then
      let w ← get
      return (.ok, (w.disk h).read (rlba * rawprtDfltBlkSz) rdlen)
    else return (.io, [])

/-- The handle is used without a check; `WriteBlocks` refuses a length that is not a whole number of blocks. -/
def rawPrtBlockWrite (site : Site) (blkio : Option Handle) (wrbuf : Bytes) (wrlba : Nat) : Boot Status := do
  if wrbuf.length = 0 then return .zerol
  match blkio with
  | none => halt .fault
  | some h =>
    emit (.writeBlocks wrlba wrbuf.length)
    if (← granted site) ∧ wrbuf.length % rawprtDfltBlkSz = 0 then
      modify (·.write h (wrlba * rawprtDfltBlkSz) wrbuf)
      return .ok
    else return .io

section Rules

variable {e : Env} {w : World} {R : Halt → World → Prop} (site : Site) (h : Handle)

@[simp] theorem wp_rawPrtReadBlock_none (rdlen rlba : Nat) (Q : Status × Bytes → World → Prop) :
    wp (rawPrtReadBlock site none rdlen rlba) e Q R w ↔ Q (.nullp, []) w := Iff.rfl

@[simp] theorem wp_rawPrtReadBlock_some (rdlen rlba : Nat) (Q : Status × Bytes → World → Prop) :
    wp (rawPrtReadBlock site (some h) rdlen rlba) e Q R w ↔
      if rdlen = 0 then Q (.zerol, []) w
      else if e.granted site then
        Q (.ok, (w.disk h).read (rlba * rawprtDfltBlkSz) rdlen) (w.note [.readBlocks rlba rdlen])
      else Q (.io, []) (w.note [.readBlocks rlba rdlen]) := by
  simp [rawPrtReadBlock]

@[simp] theorem wp_rawPrtBlockWrite_some (wrbuf : Bytes) (wrlba : Nat) (Q : Status → World → Prop) :
    wp (rawPrtBlockWrite site (some h) wrbuf wrlba) e Q R w ↔
      if wrbuf.length = 0 then Q .zerol w
      else if e.granted site ∧ wrbuf.length % rawprtDfltBlkSz = 0 then
        Q .ok ((w.note [.writeBlocks wrlba wrbuf.length]).write h (wrlba * rawprtDfltBlkSz) wrbuf)
      else Q .io (w.note [.writeBlocks wrlba wrbuf.length]) := by
  simp [rawPrtBlockWrite]

end Rules

/-! ### The raw partition -/

/-- The loop of `SBC_BlkIoHandleInit`. The header keeps the last block 0 that was read, with the magic id or without. -/
def blkIoScan (disk : Handle → Store) : List Device → Handle → RawprtHdr → Status × Option Handle × RawprtHdr
  | [], _, hdr => (.fail, none, hdr)
  | dev :: devs, idx, hdr =>
    if !dev.pool then (.nullp, none, hdr)
    else if !dev.read then (.fail, none, hdr)
    else
      let hdr := RawprtHdr.ofStore (disk idx)
      if hdr.magicid ≠ rawprtMagicId then blkIoScan disk devs (idx + 1) hdr
      else (.ok, some idx, hdr)

def blkIoHandleInit (hdr : RawprtHdr) : Boot (Status × Option Handle × RawprtHdr) := do
  let devices ← ask (·.devices)
  let w ← get
  return blkIoScan w.disk devices 0 hdr

def RawprtHdr.zero : RawprtHdr := .ofStore fun _ => 0

/-- Each half of `bootpres` holds, in big-endian order, a bank number and the mark `C` (current) or `P`. -/
def currbankId (bootpres : Bytes) : Nat :=
  let presLow := leNat (slice 0 4 bootpres).reverse
  let presHi := leNat (slice 4 4 bootpres).reverse
  if (presLow &&& 0x0000FFFF) % 256 = 'C'.toNat then (presLow &&& 0xFFFF0000) >>> 16
  else if (presHi &&& 0x0000FFFF) % 256 = 'C'.toNat then (presHi &&& 0xFFFF0000) >>> 16
  else 0

/-- The first block of a bank's SSBL sector, as the loader, the verifier and the measurement compute it (`UINTN`). -/
def ssblStartLba (nrombank : Nat) : Nat :=
  let bsofs := bootSector1Ofs ||| ((nrombank + 2 ^ 64 - 1) % 2 ^ 64) <<< 20 % 2 ^ 64
  (bsofs ||| bootSsblOfs) >>> rawprtDfltShift

/-! ### A small platform -/

/-- A function with digests of 32 bytes in the place of SHA-256: the message as a number, modulo a prime. -/
def sampleDigest (message : Bytes) : Bytes := leBytes 32 (leNat (message ++ [1]) % (2 ^ 256 - 189))

/-- One block device and one file system, every step succeeds, and only the services at `refused` fail. -/
def Env.refusing (refused : List Site) : Env where
  devices := [⟨true, true⟩]
  granted s := s ∉ refused
  outcome _ := .ok
  fileSystems := 1
  writeFile _ := .written true 508
  storeFile _ _ disk := disk
  ssblFile _ := some [0x53]
  bootModeFile := .unreadable
  baseAnswer := [0x41]
  iv := List.replicate 12 0
  aesGcmEncrypt _ msg := some (msg, List.replicate 16 0)
  hwInfo := ⟨[0x4D], [0x52], [0x4E]⟩
  fsblFile := some (List.replicate 40 0x46)
  kernelFile _ := some [0x4B]
  sha256 := sampleDigest

def headerBytes (bootmode keymode : Nat) : Bytes :=
  [0x55, 0xAA, 0x55, 0xAA] ++ List.replicate 110 0 ++ leBytes 2 bootmode ++ leBytes 2 keymode ++ [0, 0] ++
    [0, 1, 0, 0x43, 0, 2, 0, 0x50]

end LeoEdk.Sbc
