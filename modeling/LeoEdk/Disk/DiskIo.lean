import LeoEdk.Lib.Bytes

/-!
Byte access to a block device (`DiskIoDxe/DiskIo.c`), in blocking mode.

A request is cut into subtasks, which are then performed one after the other. The caller's buffer and the working buffer
that the subtasks share are stores that begin at address 0; a transfer that leaves the working buffer stops the run, and
so does a failed assertion. Every transfer of blocks succeeds.
-/

namespace LeoEdk.DiskIo

open Bytes

def dataBufferBlockNum : Nat := 64

structure Instance where
  blockSize : UInt32
  ioAlign : UInt32
  blockSize_pos : 0 < blockSize.toNat

namespace Instance

def size (inst : Instance) : Nat := inst.blockSize.toNat

/-- `PcdGet32 (PcdDiskIoDataBufferBlockNum) * BlockSize`, a product of two `UINT32`. -/
def dataBufferSize (inst : Instance) : Nat := dataBufferBlockNum * inst.size % 2 ^ 32

/-- The bytes of `SharedWorkingBuffer`: as many pages as hold `dataBufferSize`. -/
def sharedSize (inst : Instance) : Nat := (inst.dataBufferSize + 4095) / 4096 * 4096

/-- `ALIGN_POINTER (BufferPtr, IoAlign) == BufferPtr`. -/
def isAligned (inst : Instance) (address : Nat) : Bool :=
  let ioAlign := if inst.ioAlign = 0 then 1 else inst.ioAlign.toNat
  ((ioAlign + 2 ^ 64 - address) % 2 ^ 64) &&& (ioAlign - 1) = 0

end Instance

/-- The buffers of a subtask: the caller's from an offset on, the caller's by way of the working buffer, or the working
    buffer alone. -/
inductive Route
  | direct (bufferPtr : Nat)
  | bounced (bufferPtr : Nat)
  | shared
deriving DecidableEq

structure Subtask where
  write : Bool
  lba : Nat
  offset : Nat
  length : Nat
  route : Route
deriving DecidableEq

inductive Fault
  | assertion
  | overrun
  | endless
deriving DecidableEq

variable (inst : Instance)

def readBlock (write : Bool) (lba : Nat) : List Subtask :=
  if write then [⟨false, lba, 0, inst.size, .shared⟩] else []

def partOfBlock (write : Bool) (lba offset length bufferPtr : Nat) : List Subtask :=
  readBlock inst write lba ++ [⟨write, lba, offset, length, .bounced bufferPtr⟩]

def bounce (write : Bool) (overRunLba : Nat) : Nat → Nat → Nat → Nat → Except Fault (List Subtask × Nat)
  | 0, _, _, _ => .error .endless
  | fuel + 1, lba, bufferPtr, bufferSize =>
    if lba < overRunLba then do
      let dataBufferSize := min bufferSize inst.dataBufferSize
      let (subtasks, left) ← bounce write overRunLba fuel ((lba + dataBufferBlockNum) % 2 ^ 64)
        (bufferPtr + dataBufferSize) (bufferSize - dataBufferSize)
      return (⟨write, lba, 0, dataBufferSize, .bounced bufferPtr⟩ :: subtasks, left)
    else return ([], bufferSize)

def wholeBlocks (fuel : Nat) (write : Bool) (lba overRunLba bufferPtr bufferSize address : Nat) :
    Except Fault (List Subtask × Nat) :=
  if lba < overRunLba then
    if inst.isAligned (address + bufferPtr) then
      return ([⟨write, lba, 0, bufferSize, .direct bufferPtr⟩], 0)
    else bounce inst write overRunLba fuel lba bufferPtr bufferSize
  else return ([], bufferSize)

structure Request where
  lba : Nat
  underRun : Nat
  length : Nat
  first : Nat
  blocks : Nat
  overRun : Nat

def request (offset bufferSize : Nat) : Request :=
  let lba := offset / inst.size
  let underRun := offset % inst.size
  let length := if underRun = 0 then 0 else min (inst.size - underRun) bufferSize
  { lba, underRun, length
    first := if underRun = 0 then lba else (lba + 1) % 2 ^ 64
    blocks := (bufferSize - length) / inst.size
    overRun := (bufferSize - length) % inst.size }

def diskIoCreateSubtaskList (fuel : Nat) (write : Bool) (offset bufferSize address : Nat) :
    Except Fault (List Subtask) :=
  let r := request inst offset bufferSize
  if bufferSize = 0 then return [⟨write, r.lba, r.underRun, 0, .direct 0⟩]
  else do
    let under := if r.underRun = 0 then [] else partOfBlock inst write r.lba r.underRun r.length 0
    let overRunLba := (r.first + r.blocks) % 2 ^ 64
    let middle := bufferSize - r.length - r.overRun
    let behind := if r.overRun = 0 then [] else partOfBlock inst write overRunLba 0 r.overRun (r.length + middle)
    let (whole, left) ← wholeBlocks inst fuel write r.first overRunLba r.length middle address
    if left = 0 then return under ++ behind ++ whole else .error .assertion

/-! ### Performing a subtask -/

structure State where
  disk : Store
  buffer : Store
  shared : Store

def Subtask.transferSize (subtask : Subtask) : Nat :=
  if subtask.length % inst.size = 0 then subtask.length else inst.size

def inShared (size : Nat) (next : α) : Except Fault α := if size ≤ inst.sharedSize then .ok next else .error .overrun

def performWrite (subtask : Subtask) (s : State) : Except Fault State :=
  let place := subtask.lba * inst.size
  let size := subtask.transferSize inst
  match subtask.route with
  | .direct bufferPtr => .ok { s with disk := s.disk.write place (s.buffer.read bufferPtr size) }
  | .bounced bufferPtr => do
    let shared := s.shared.write subtask.offset (s.buffer.read bufferPtr subtask.length)
    let s ← inShared inst (subtask.offset + subtask.length) { s with shared }
    inShared inst size { s with disk := s.disk.write place (s.shared.read 0 size) }
  | .shared => inShared inst size { s with disk := s.disk.write place (s.shared.read 0 size) }

def performRead (subtask : Subtask) (s : State) : Except Fault State :=
  let size := subtask.transferSize inst
  let data := s.disk.read (subtask.lba * inst.size) size
  match subtask.route with
  | .direct bufferPtr => .ok { s with buffer := s.buffer.write bufferPtr data }
  | .bounced bufferPtr => do
    let s ← inShared inst size { s with shared := s.shared.write 0 data }
    inShared inst (subtask.offset + subtask.length)
      { s with buffer := s.buffer.write bufferPtr (s.shared.read subtask.offset subtask.length) }
  | .shared => inShared inst size { s with shared := s.shared.write 0 data }

def perform (subtask : Subtask) (s : State) : Except Fault State :=
  if subtask.length % inst.size = 0 ∨ subtask.length < inst.size then
    if subtask.write then performWrite inst subtask s else performRead inst subtask s
  else .error .assertion

def performAll : List Subtask → State → Except Fault State
  | [], s => .ok s
  | subtask :: subtasks, s => do performAll subtasks (← perform inst subtask s)

/-- `DiskIo2ReadWriteDisk`, blocking. -/
def diskIo2ReadWriteDisk (fuel : Nat) (write : Bool) (offset bufferSize address : Nat) (s : State) :
    Except Fault State := do
  performAll inst (← diskIoCreateSubtaskList inst fuel write offset bufferSize address) s

end LeoEdk.DiskIo
