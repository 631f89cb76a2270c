import LeoEdk.Lib.Bytes

/-!
The work space of the fault-tolerant write (`FtwMisc.c`): a header, and behind it a log of write headers, each with its
records. A state bit is set when it reads 0, as flash can only clear bits.
-/

namespace LeoEdk.FaultTolerantWrite

open Bytes

inductive EfiStatus where
  | success | aborted
  deriving DecidableEq, Repr

def workingBlockHeaderSize : Nat := 32

def writeHeaderSize : Nat := 40

def ftwRecordSize (privateDataSize : Nat) : Nat := 40 + privateDataSize

def ftwWriteTotalSize (numberOfWrites privateDataSize : Nat) : Nat :=
  (writeHeaderSize + numberOfWrites * ftwRecordSize privateDataSize) % 2 ^ 64

/-- What the work space has of `FtwDevice`; the driver gives it room for its header. -/
structure Device where
  workSpaceSize : Nat
  crc : UInt32
  header_le : workingBlockHeaderSize ≤ workSpaceSize
  size_lt : workSpaceSize < 2 ^ 63

def workingBlockSignatureGuid : Bytes :=
  [0x2b, 0x29, 0x58, 0x9e, 0x68, 0x7c, 0x7d, 0x49, 0xa0, 0xce, 0x65, 0x00, 0xfd, 0x9f, 0x1b, 0x95]

namespace Device

variable (d : Device)

def workingBlockHeader : Bytes :=
  workingBlockSignatureGuid ++ leBytes 4 d.crc.toNat ++ [0xfe, 0xff, 0xff, 0xff] ++
    leBytes 8 (d.workSpaceSize - workingBlockHeaderSize)

end Device

def isValidWorkSpace (d : Device) (ws : Store) : Bool := ws.read 0 workingBlockHeaderSize == d.workingBlockHeader

def writesCompleted : UInt8 := 0x4
def destCompleted : UInt8 := 0x4

def isValid (ws : Store) (at_ : Nat) (bit : UInt8) : Bool := ws at_ &&& bit == 0

def field64 (ws : Store) (at_ : Nat) : Nat := leNat (ws.read at_ 8)

def numberOfWritesOf (ws : Store) (header : Nat) : Nat := field64 ws (header + 24)
def privateDataSizeOf (ws : Store) (header : Nat) : Nat := field64 ws (header + 32)

def totalSizeOf (ws : Store) (header : Nat) : Nat :=
  ftwWriteTotalSize (numberOfWritesOf ws header) (privateDataSizeOf ws header)

/-! ### The last write header -/

/-- The loop of `FtwGetLastWriteHeader`. The offsets stay below the size of the work space, so a loop of more turns
    does not end. -/
def lastWriteHeaderLoop (ws : Store) (size : Nat) : Nat → Nat → Option (EfiStatus × Nat)
  | 0, _ => none
  | fuel + 1, offset =>
    if isValid ws offset writesCompleted then
      let next := (offset + totalSizeOf ws offset) % 2 ^ 64
      if (next + writeHeaderSize) % 2 ^ 64 ≥ size then some (.aborted, offset)
      else lastWriteHeaderLoop ws size fuel next
    else some (.success, offset)

def getLastWriteHeader (size : Nat) (ws : Store) : Option (EfiStatus × Nat) :=
  if ws.read 0 16 ≠ workingBlockSignatureGuid then some (.aborted, workingBlockHeaderSize)
  else lastWriteHeaderLoop ws size (size + 1) workingBlockHeaderSize

/-- The loop of `FtwGetLastWriteRecord` over so many records; the pointer to a record wraps. -/
def lastWriteRecordLoop (ws : Store) (privateDataSize : Nat) : Nat → Nat → Nat
  | 0, record => (record + (2 ^ 64 - ftwRecordSize privateDataSize % 2 ^ 64)) % 2 ^ 64
  | left + 1, record =>
    if isValid ws record destCompleted then
      lastWriteRecordLoop ws privateDataSize left ((record + ftwRecordSize privateDataSize) % 2 ^ 64)
    else record

def getLastWriteRecord (ws : Store) (header : Nat) : Nat :=
  lastWriteRecordLoop ws (privateDataSizeOf ws header) (numberOfWritesOf ws header)
    ((header + writeHeaderSize) % 2 ^ 64)

end LeoEdk.FaultTolerantWrite
