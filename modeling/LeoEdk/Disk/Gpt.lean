import LeoEdk.Disk.CheckSum

/-!
The GPT partitions of a disk (`PartitionDxe/Gpt.c`).

The disk is a store of bytes. Whether a range can be read and whether a pool of a given size can be had is up to the
environment, and so is what a write that fails leaves in its range.
-/

namespace LeoEdk.Gpt

open Bytes

/-! ### Headers and entries -/

abbrev Header := Bytes

def headerBytes : Nat := 92

def entryBytes : Nat := 128

namespace Header

def field (ofs width : Nat) (header : Header) : Nat := leNat (slice ofs width header)

def signature (header : Header) : Bytes := slice 0 8 header
def headerSize : Header → Nat := field 12 4
def crc32 : Header → Nat := field 16 4
def myLba : Header → Nat := field 24 8
def alternateLba : Header → Nat := field 32 8
def firstUsableLba : Header → Nat := field 40 8
def lastUsableLba : Header → Nat := field 48 8
def partitionEntryLba : Header → Nat := field 72 8
def numberOfPartitionEntries : Header → Nat := field 80 4
def sizeOfPartitionEntry : Header → Nat := field 84 4
def partitionEntryArrayCrc32 : Header → Nat := field 88 4

/-- `NumberOfPartitionEntries * SizeOfPartitionEntry`, a product of two `UINT32`. -/
def arraySize (header : Header) : Nat := header.numberOfPartitionEntries * header.sizeOfPartitionEntry % 2 ^ 32

end Header

/-- `EFI_PTAB_HEADER_ID`: `EFI PART`. -/
def ptabHeaderId : Bytes := [0x45, 0x46, 0x49, 0x20, 0x50, 0x41, 0x52, 0x54]

def partTypeUnusedGuid : Bytes := List.replicate 16 0

def partTypeSystemPartGuid : Bytes :=
  [0x28, 0x73, 0x2a, 0xc1, 0x1f, 0xf8, 0xd2, 0x11, 0xba, 0x4b, 0x00, 0xa0, 0xc9, 0x3e, 0xc9, 0x3b]

abbrev Entry := Bytes

namespace Entry

def partitionTypeGuid (entry : Entry) : Bytes := slice 0 16 entry
def startingLba (entry : Entry) : Nat := leNat (slice 32 8 entry)
def endingLba (entry : Entry) : Nat := leNat (slice 40 8 entry)
def attributes (entry : Entry) : Nat := leNat (slice 48 8 entry)

def Unused (entry : Entry) : Prop := entry.partitionTypeGuid = partTypeUnusedGuid

instance (entry : Entry) : Decidable entry.Unused := inferInstanceAs (Decidable (_ = _))

end Entry

/-- How a write ends; if it fails, its range holds what it is left with. -/
inductive Written
  | done
  | failed (left : Store)

structure Env where
  /-- `UINT32`. -/
  blockSize : Nat
  lastBlock : Nat
  readable : Nat → Nat → Bool
  allocatePool : Nat → Bool
  headerWritten : Written
  arrayWritten : Written
  /-- The memory behind the buffer of the partition entries. -/
  behind : Store

def multU64x32 (a b : Nat) : Nat := a * b % 2 ^ 64

variable (env : Env)

def readDisk (disk : Store) (offset size : Nat) : Option Bytes :=
  if env.readable offset size then some (disk.read offset size) else none

def writeDisk (disk : Store) (written : Written) (offset : Nat) (buffer : Bytes) : Bool × Store :=
  match written with
  | .done => (true, disk.write offset buffer)
  | .failed left => (false, disk.write offset (left.read offset buffer.length))

def arrayOffset (header : Header) : Nat := multU64x32 header.partitionEntryLba env.blockSize

def partitionCheckCrcAltSize (maxSize size : Nat) (hdr : Bytes) : Bool :=
  if size = 0 then false
  else if maxSize ≠ 0 ∧ maxSize < size then false
  else
    match runtimeDriverCalculateCrc32 ((overwrite 16 [0, 0, 0, 0] hdr).take size) with
    | none => false
    | some crc => Header.crc32 hdr = crc

def partitionCheckCrc (maxSize : Nat) (hdr : Bytes) : Bool :=
  partitionCheckCrcAltSize maxSize (Header.headerSize hdr) hdr

def partitionCheckGptEntryArrayCrc (disk : Store) (header : Header) : Bool :=
  if env.allocatePool header.arraySize then
    match readDisk env disk (arrayOffset env header) header.arraySize with
    | none => false
    | some array =>
      match runtimeDriverCalculateCrc32 array with
      | none => false
      | some crc => header.partitionEntryArrayCrc32 = crc
  else false

def checkedHeader (disk : Store) (lba : Nat) : Option Header :=
  if env.allocatePool env.blockSize then
    match readDisk env disk (multU64x32 lba env.blockSize) env.blockSize with
    | none => none
    | some block =>
      if Header.signature block ≠ ptabHeaderId ∨ partitionCheckCrc env.blockSize block = false ∨
          Header.myLba block ≠ lba ∨ Header.sizeOfPartitionEntry block < entryBytes then none
      else if (2 ^ 64 - 1) / Header.sizeOfPartitionEntry block < Header.numberOfPartitionEntries block then none
      else some (block.take headerBytes)
  else none

def partitionValidGptTable (disk : Store) (lba : Nat) (partHeader : Header) : Bool × Header :=
  match checkedHeader env disk lba with
  | none => (false, partHeader)
  | some header => (partitionCheckGptEntryArrayCrc env disk header, header)

def partitionSetCrc (hdr : Bytes) : Bytes :=
  let cleared := overwrite 16 [0, 0, 0, 0] hdr
  match runtimeDriverCalculateCrc32 (cleared.take (Header.headerSize hdr)) with
  | none => cleared
  | some crc => overwrite 16 (leBytes 4 crc) cleared

def restoredEntryLba (header : Header) : Nat :=
  if header.myLba = 1 then (header.lastUsableLba + 1) % 2 ^ 64 else 2

def restoredHeader (header : Header) : Bytes :=
  let block := header ++ List.replicate (env.blockSize - headerBytes) 0
  let block := overwrite 24 (leBytes 8 header.alternateLba) block
  let block := overwrite 32 (leBytes 8 header.myLba) block
  let block := overwrite 72 (leBytes 8 (restoredEntryLba header)) block
  partitionSetCrc block

def partitionRestoreGptTable (disk : Store) (header : Header) : Bool × Store :=
  if env.allocatePool env.blockSize then
    match writeDisk disk env.headerWritten (multU64x32 header.alternateLba env.blockSize)
      (restoredHeader env header) with
    | (false, disk) => (false, disk)
    | (true, disk) =>
      if env.allocatePool header.arraySize then
        match readDisk env disk (arrayOffset env header) header.arraySize with
        | none => (false, disk)
        | some array =>
          writeDisk disk env.arrayWritten (multU64x32 (restoredEntryLba header) env.blockSize) array
      else (false, disk)
  else (false, disk)

structure EntryStatus where
  outOfRange : Bool
  overlap : Bool
  osSpecific : Bool
deriving DecidableEq

def noStatus : EntryStatus := ⟨false, false, false⟩

def entryAt (header : Header) (array : Store) (index : Nat) : Entry :=
  array.read (index * header.sizeOfPartitionEntry) entryBytes

def OutOfRange (header : Header) (entry : Entry) : Prop :=
  entry.endingLba < entry.startingLba ∨ entry.startingLba < header.firstUsableLba ∨
    header.lastUsableLba < entry.startingLba ∨ entry.endingLba < header.firstUsableLba ∨
    header.lastUsableLba < entry.endingLba

instance (header : Header) (entry : Entry) : Decidable (OutOfRange header entry) := inferInstanceAs (Decidable (_ ∨ _))

def Overlaps (first second : Entry) : Prop :=
  first.startingLba ≤ second.endingLba ∧ second.startingLba ≤ first.endingLba

instance (first second : Entry) : Decidable (Overlaps first second) := inferInstanceAs (Decidable (_ ∧ _))

abbrev Statuses := Nat → EntryStatus

def checkPair (header : Header) (array : Store) (index1 : Nat) (status : Statuses) (index2 : Nat) : Statuses :=
  let entry := entryAt header array index2
  if entry.Unused then status
  else if Overlaps (entryAt header array index1) entry then
    let status := Function.update status index1 { status index1 with overlap := true }
    Function.update status index2 { status index2 with overlap := true }
  else status

def checkOne (header : Header) (array : Store) (status : Statuses) (index1 : Nat) : Statuses :=
  let entry := entryAt header array index1
  if entry.Unused then status
  else if OutOfRange header entry then Function.update status index1 { status index1 with outOfRange := true }
  else
    let status :=
      if entry.attributes / 2 % 2 = 1 then Function.update status index1 { status index1 with osSpecific := true }
      else status
    (List.range' (index1 + 1) (header.numberOfPartitionEntries - (index1 + 1))).foldl
      (checkPair header array index1) status

def partitionCheckGptEntry (header : Header) (array : Store) : Statuses :=
  (List.range header.numberOfPartitionEntries).foldl (checkOne header array) fun _ => noStatus

structure Child where
  header : Header
  index : Nat
  entry : Entry
deriving DecidableEq

namespace Child

def startingLba (child : Child) : Nat := child.entry.startingLba
def endingLba (child : Child) : Nat := child.entry.endingLba
def system (child : Child) : Bool := child.entry.partitionTypeGuid = partTypeSystemPartGuid

end Child

def createChildren (header : Header) (array : Store) (status : Statuses) : List Child :=
  (List.range header.numberOfPartitionEntries).filterMap fun index =>
    let entry := entryAt header array index
    if entry.Unused ∨ (status index).outOfRange ∨ (status index).overlap ∨ (status index).osSpecific then none
    else some ⟨header, index, entry⟩

inductive Status
  | success
  | notFound
  | readError
deriving DecidableEq

structure Outcome where
  status : Status
  disk : Store
  children : List Child

def memoryOf (array : Bytes) : Store :=
  fun i => if i < array.length then array.getD i 0 else env.behind (i - array.length)

def installFrom (disk : Store) (header : Header) : Outcome :=
  if env.allocatePool header.arraySize then
    match readDisk env disk (arrayOffset env header) header.arraySize with
    | none => ⟨.readError, disk, []⟩
    | some array =>
      -- `sizeof (EFI_PARTITION_ENTRY_STATUS)` is 3
      if env.allocatePool (header.numberOfPartitionEntries * 3) then
        let array := memoryOf env array
        ⟨.success, disk, createChildren header array (partitionCheckGptEntry header array)⟩
      else ⟨.notFound, disk, []⟩
  else ⟨.notFound, disk, []⟩

def isProtective (mbr : Bytes) (index : Nat) : Bool :=
  mbr.getD (446 + 16 * index + 4) 0 = 0xee ∧ leNat (slice (446 + 16 * index + 8) 4 mbr) = 1

def zeroHeader : Header := List.replicate headerBytes 0

def chooseTable (disk : Store) : Option (Header × Store) :=
  match partitionValidGptTable env disk 1 zeroHeader with
  | (false, primaryHeader) =>
    match partitionValidGptTable env disk env.lastBlock zeroHeader with
    | (false, _) => none
    | (true, backupHeader) =>
      let disk := (partitionRestoreGptTable env disk backupHeader).2
      -- the result of this check is only reported
      some ((partitionValidGptTable env disk backupHeader.alternateLba primaryHeader).2, disk)
  | (true, primaryHeader) =>
    match partitionValidGptTable env disk primaryHeader.alternateLba zeroHeader with
    | (true, _) => some (primaryHeader, disk)
    | (false, _) => some (primaryHeader, (partitionRestoreGptTable env disk primaryHeader).2)

def partitionInstallGptChildHandles (disk : Store) : Outcome :=
  if env.blockSize < 512 then ⟨.notFound, disk, []⟩
  else if env.allocatePool env.blockSize then
    match readDisk env disk 0 env.blockSize with
    | none => ⟨.readError, disk, []⟩
    | some mbr =>
      if (List.range 4).any (isProtective mbr) then
        if env.allocatePool headerBytes then
          match chooseTable env disk with
          | none => ⟨.notFound, disk, []⟩
          | some (header, disk) => installFrom env disk header
        else ⟨.notFound, disk, []⟩
      else ⟨.notFound, disk, []⟩
  else ⟨.notFound, disk, []⟩

end LeoEdk.Gpt
