import LeoEdk.Sbc.Basic

/-!
The serial numbers that the second-stage loader reads from the SMBIOS table (`_baseboard_sn` and `_memorydevice_sn` in
`SBC_AntiTampering.c`).

A record is its formatted area with the set of strings behind it. A read outside of the record, or a copy that leaves
`hw_uniqueinfo_t`, ends the function.
-/

namespace LeoEdk.Sbc

open Bytes

/-- An SMBIOS record: its formatted area, whose second byte is `Length`, and its strings. -/
structure SmbiosRecord where
  formatted : Bytes
  strings : List Bytes
  length_ge : 4 ≤ formatted.length
  length_eq : (formatted.getD 1 0).toNat = formatted.length
  strings_ne : ∀ s ∈ strings, s ≠ [] ∧ 0 ∉ s

namespace SmbiosRecord

variable (r : SmbiosRecord)

def type : UInt8 := r.formatted.getD 0 0

def texts : List Bytes := if r.strings = [] then [[]] else r.strings

def stringSet : Bytes := r.texts.flatMap (· ++ [0]) ++ [0]

def bytes : Bytes := r.formatted ++ r.stringSet

end SmbiosRecord

inductive SmbiosStop where
  | outside | overflow
  deriving DecidableEq, Repr

inductive Serial where
  | baseboard | memoryDevice
  deriving DecidableEq, Repr

namespace Serial

/-- `SMBIOS_TYPE_BASEBOARD_INFORMATION` and `SMBIOS_TYPE_MEMORY_DEVICE` -/
def recordType : Serial → UInt8
  | baseboard => 2
  | memoryDevice => 17

/-- Where `SerialNumber` stands in `SMBIOS_TABLE_TYPE2` and `SMBIOS_TABLE_TYPE17`. -/
def indexOffset : Serial → Nat
  | baseboard => 7
  | memoryDevice => 24

/-- Where `mbsn` and `mmsn` stand in `hw_uniqueinfo_t`; `mbsnl` and `mmsnl` follow them. -/
def field : Serial → Nat
  | baseboard => 0
  | memoryDevice => 72

def length (k : Serial) (info : Bytes) : Nat := leNat (slice (k.field + 64) 8 info)
def serial (k : Serial) (info : Bytes) : Bytes := slice k.field (k.length info) info

def printed : Serial → Nat → Nat
  | baseboard, length => length % 2 ^ 32
  | memoryDevice, _ => 0

end Serial

def sizeOfHwUniqueinfo : Nat := 216

def readByte (r : Bytes) (p : Nat) : Except SmbiosStop UInt8 :=
  match r[p]? with
  | some b => .ok b
  | none => .error .outside

def terminator (r : Bytes) (p : Nat) : Except SmbiosStop Nat :=
  match (r.drop p).findIdx? (· == 0) with
  | some n => .ok (p + n)
  | none => .error .outside

def skipStrings (r : Bytes) (printed : Nat) : Nat → Nat → Except SmbiosStop Nat
  | 0, p => .ok p
  | n + 1, p => do
    let stop ← terminator r p
    let b ← readByte r (stop + 1)
    if b = 0 ∧ r.length < stop + 1 + printed then .error .outside
    else skipStrings r printed n (stop + 1)

def takeSerial (k : Serial) (r : Bytes) (info : Bytes) : Except SmbiosStop (Bytes × List Nat) := do
  let index ← readByte r k.indexOffset
  if 0 < index.toNat then
    let length ← readByte r 1
    let p ← skipStrings r (k.printed (k.length info)) (index.toNat - 1) length.toNat
    let stop ← terminator r p
    let info := overwrite (k.field + 64) (leBytes 8 (stop - p)) info
    if info.length < k.field + (stop - p) then .error .overflow
    else return (overwrite k.field (slice p (stop - p) r) info, [stop - p])
  else return (info, [])

def visitRecord (k : Serial) (r : SmbiosRecord) (info : Bytes) : Except SmbiosStop (Bytes × List Nat) :=
  if r.type = k.recordType then takeSerial k r.bytes info else .ok (info, [])

def takeSerials (k : Serial) : List SmbiosRecord → Bytes → Except SmbiosStop (Bytes × List Nat)
  | [], info => .ok (info, [])
  | r :: rs, info => do
    let first ← visitRecord k r info
    let others ← takeSerials k rs first.1
    return (others.1, first.2 ++ others.2)

/-- The structure after `p->mmsnl = 0`. -/
def clearMmsnl (info : Bytes) : Bytes := overwrite (Serial.memoryDevice.field + 64) (leBytes 8 0) info

/-- `_baseboard_sn` and `_memorydevice_sn`: both set `mmsnl` to 0. `none` stands for a missing SMBIOS protocol. -/
def serialNumber (k : Serial) (records : Option (List SmbiosRecord)) (info : Bytes) :
    Except SmbiosStop (Status × Bytes × List Nat) :=
  match records with
  | none => .ok (.proto, info, [])
  | some records => do
    let taken ← takeSerials k records (clearMmsnl info)
    return (.ok, taken)

end LeoEdk.Sbc
