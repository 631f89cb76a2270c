import LeoEdk.SecureBoot.Basic
import LeoEdk.Variable.Store

/-!
`CheckSignatureListFormat` of the authenticated variable library, for the platform key, the key exchange keys and the
image security databases.

What stands behind the payload in memory is part of the input: the check takes its offsets and lengths from the payload.
How far it reads is kept as the furthest offset that a read has touched.
-/

namespace LeoEdk.AuthVariable

open Bytes Prog SecureBoot
open Variable (Name Guid globalVariableGuid guidOf)

/-! ### The variables with signature lists -/

def platformKeyName : Name := ⟨[0x50, 0x4b], by simp⟩
def keyExchangeKeyName : Name := ⟨[0x4b, 0x45, 0x4b], by simp⟩
def imageSecurityDatabase : Name := ⟨[0x64, 0x62], by simp⟩
def imageSecurityDatabase1 : Name := ⟨[0x64, 0x62, 0x78], by simp⟩
def imageSecurityDatabase2 : Name := ⟨[0x64, 0x62, 0x74], by simp⟩

def imageSecurityDatabaseGuid : Guid :=
  guidOf 0xd719b2cb 0x3d3a 0x4596 [0xa3, 0xbc, 0xda, 0xd0, 0x0e, 0x67, 0x65, 0x6f] rfl

def isPlatformKey (name : Name) (guid : Guid) : Bool := guid = globalVariableGuid ∧ name = platformKeyName

def isKeyExchangeKey (name : Name) (guid : Guid) : Bool := guid = globalVariableGuid ∧ name = keyExchangeKeyName

def isImageSecurityDatabase (name : Name) (guid : Guid) : Bool :=
  guid = imageSecurityDatabaseGuid ∧
    (name = imageSecurityDatabase ∨ name = imageSecurityDatabase1 ∨ name = imageSecurityDatabase2)

/-! ### The signature types -/

def certRsa2048Guid : Bytes := guid 0x3c5766e8 0x269c 0x4e34 [0xaa, 0x14, 0xed, 0x77, 0x6e, 0x85, 0xb3, 0xb6]
def certRsa2048Sha256Guid : Bytes := guid 0xe2b36190 0x879b 0x4a3d [0xad, 0x8d, 0xf2, 0xe7, 0xbb, 0xa3, 0x27, 0x84]
def certRsa2048Sha1Guid : Bytes := guid 0x67f8444f 0x8743 0x48f1 [0xa3, 0x28, 0x1e, 0xaa, 0xb8, 0x73, 0x60, 0x80]
def certSha224Guid : Bytes := guid 0x0b6e5233 0xa65c 0x44c9 [0x94, 0x07, 0xd9, 0xab, 0x83, 0xbf, 0xc8, 0xbd]

/-- `((UINT32) ~0)`: the column does not restrict the size. -/
def anySize : Nat := 0xffffffff

structure SignatureItem where
  sigType : Bytes
  sigHeaderSize : Nat
  sigDataSize : Nat
  deriving DecidableEq, Repr

def mSupportSigItem : List SignatureItem :=
  [⟨certSha256Guid, 0, 32⟩,
   ⟨certRsa2048Guid, 0, 256⟩,
   ⟨certRsa2048Sha256Guid, 0, 256⟩,
   ⟨certSha1Guid, 0, 20⟩,
   ⟨certRsa2048Sha1Guid, 0, 256⟩,
   ⟨certX509Guid, 0, anySize⟩,
   ⟨certSha224Guid, 0, 28⟩,
   ⟨certSha384Guid, 0, 48⟩,
   ⟨certSha512Guid, 0, 64⟩,
   ⟨certX509Sha256Guid, 0, 48⟩,
   ⟨certX509Sha384Guid, 0, 64⟩,
   ⟨certX509Sha512Guid, 0, 80⟩]

def signatureListHeaderSize : Nat := 28

def ownerSize : Nat := 16

/-! ### The payload in memory -/

structure Input where
  data : Bytes
  /-- `DataSize` is a `UINTN`. -/
  size_lt : data.length < 2 ^ 64
  behind : Store
  /-- Whether there is room for an RSA context; each one is freed before the next is made. -/
  rsaNew : Bool
  rsaGetPublicKeyFromX509 : Bytes → Bool

namespace Input

variable (i : Input)

def dataSize : Nat := i.data.length

def memory : Store := fun ofs =>
  match i.data[ofs]? with
  | some b => b
  | none => i.behind (ofs - i.dataSize)

def bytes (ofs len : Nat) : Bytes := i.memory.read ofs len

end Input

inductive Halt where
  | divideError
  | endless
  deriving DecidableEq, Repr

abbrev Check := Prog Input Nat Halt

def read (ofs len : Nat) : Check Bytes := do
  modify fun furthest => max furthest (ofs + len)
  ask fun i => i.bytes ofs len

def read32 (ofs : Nat) : Check Nat := do return leNat (← read ofs 4)

def sub64 (a b : Nat) : Nat := (a + (2 ^ 64 - b)) % 2 ^ 64

/-! ### The check of one list -/

def differs (column : Nat) (size : Check Nat) : Check Bool :=
  if column = anySize then pure false else do return (← size) ≠ column

def matchItem (sigList : Nat) : List SignatureItem → Check (Option Bool)
  | [] => pure none
  | item :: items => do
    if (← read sigList 16) ≠ item.sigType then matchItem sigList items
    else if ← differs item.sigDataSize (do return sub64 (← read32 (sigList + 24)) ownerSize) then return some false
    else if ← differs item.sigHeaderSize (read32 (sigList + 20)) then return some false
    else return some true

def checkCertificate (sigList : Nat) : Check Bool := do
  if (← read sigList 16) ≠ certX509Guid then return true
  else if !(← ask Input.rsaNew) then return false
  else
    let certData := sigList + signatureListHeaderSize + (← read32 (sigList + 20))
    let certLen := sub64 (← read32 (sigList + 24)) ownerSize
    let cert ← read (certData + ownerSize) certLen
    ask fun i => i.rsaGetPublicKeyFromX509 cert

def countSignatures (sigList : Nat) : Check (Option Nat) := do
  let listSize ← read32 (sigList + 16)
  let headerSize ← read32 (sigList + 20)
  let signatureSize ← read32 (sigList + 24)
  let size := sub64 (sub64 listSize signatureListHeaderSize) headerSize
  if signatureSize = 0 then halt .divideError
  else if size % signatureSize ≠ 0 then return none
  else return some (size / signatureSize)

def checkSignatureList (sigList : Nat) : Check (Option Nat) := do
  match ← matchItem sigList mSupportSigItem with
  | some true => if ← checkCertificate sigList then countSignatures sigList else return none
  | _ => return none

/-- The walk through the lists: where it ends and the number of signatures as a `UINT32`, `none` for
    `EFI_INVALID_PARAMETER`. -/
def walkLists : Nat → Nat → Nat → Nat → Check (Option (Nat × Nat))
  | 0, _, _, _ => halt .endless
  | fuel + 1, sigList, sigDataSize, sigCount => do
    if sigDataSize = 0 then return some (sigList, sigCount)
    else
      let listSize ← read32 (sigList + 16)
      if sigDataSize < listSize then return some (sigList, sigCount)
      else
        match ← checkSignatureList sigList with
        | none => return none
        | some count => walkLists fuel (sigList + listSize) (sigDataSize - listSize) ((sigCount + count) % 2 ^ 32)

def checkSignatureListFormat (fuel : Nat) (name : Name) (guid : Guid) : Check Variable.EfiStatus := do
  let dataSize ← ask Input.dataSize
  if dataSize = 0 then return .success
  else if isPlatformKey name guid || isKeyExchangeKey name guid || isImageSecurityDatabase name guid then
    match ← walkLists fuel 0 dataSize 0 with
    | none => return .invalidParameter
    | some (sigList, sigCount) =>
      if sigList ≠ dataSize then return .invalidParameter
      else if isPlatformKey name guid ∧ 1 < sigCount then return .invalidParameter
      else return .success
  else return .success

end LeoEdk.AuthVariable
