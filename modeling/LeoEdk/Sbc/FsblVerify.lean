import LeoEdk.Lib.Program
import LeoEdk.Sbc.Basic
import LeoEdk.Sbc.Trailer

/-!
`SBC_FSBL_Verify`: the first-stage loader reads its own file, takes the lengths of the appended parts from the last
eight bytes and checks the signature over what stands before them.

All offsets are computed in `UINT32` before anything has been authenticated. What stands behind the buffer in memory is
part of the input. The world is the list of ranges that have been pointed to, as offset and length.
-/

namespace LeoEdk.Sbc

open Bytes Prog

/-- The services the verifier asks for. `sizeOpen` stands for every call of `SBC_GetFileSize` with which it fails. -/
inductive VerifySite where
  | sizeOpen | sizeInfo | filePool | fileRead | answerPool
  deriving DecidableEq, Repr

structure VerifyEnv (PublicKey : Type) where
  /-- How many file systems there are, and the FSBL file on each of them, where it can be opened. -/
  fileSystems : Nat
  fsblFile : Nat → Option Bytes
  granted : VerifySite → Bool
  /-- The memory from the first byte of the buffer on, before the file is read into it. -/
  memory : Store
  /-- What `HashValue` holds when nothing has been computed. -/
  hashValue : Bytes
  sha256 : Bytes → Option Bytes
  ecGetPublicKeyFromX509 : Bytes → Option PublicKey
  ecDsaVerify : PublicKey → Bytes → Bytes → Bool

structure Range where
  offset : Nat
  length : Nat
  deriving DecidableEq, Repr

abbrev Verify (PublicKey : Type) := Prog (VerifyEnv PublicKey) (List Range) Empty

def point {PublicKey : Type} (offset length : Nat) : Verify PublicKey Unit := modify (· ++ [⟨offset, length⟩])

def sub32 (a b : Nat) : Nat := (a + 2 ^ 32 - b % 2 ^ 32) % 2 ^ 32

def trailerAt (length : Nat) (memory : Store) : FsblBsinfo :=
  .ofBytes (memory.read (sub32 length fsblBnifoSize) fsblBnifoSize)

structure PartOffsets where
  fsblLen : Nat
  baseansw : Nat
  fwinfo : Nat
  certi : Nat
  signature : Nat

def partOffsets (length : Nat) (bsinfo : FsblBsinfo) : PartOffsets :=
  let fsblLen := sub32 (sub32 length fsblBnifoSize) bsinfo.len
  let baseansw := fsblLen
  let fwinfo := baseansw + bsinfo.banswlen
  let certi := fwinfo + bsinfo.fwinfolen
  let signature := certi + bsinfo.certlen
  { fsblLen, baseansw, fwinfo, certi, signature }

variable {PublicKey : Type}

/-- `SBC_HashCompute` over the array `HashValue`, which keeps what it held when nothing is computed. -/
def VerifyEnv.hashCompute (e : VerifyEnv PublicKey) (message : Bytes) : Status × Bytes :=
  if message.length = 0 then (.zerol, e.hashValue)
  else match e.sha256 message with
    | none => (.fail, e.hashValue)
    | some digest => (.ok, digest)

/-- What `SBC_FSBL_Verify` does with its pointers. The signature is checked even when the digest could not be computed;
    only the status remembers that. -/
def fsblVerifyParts (memory : Store) (lastOfFsbl : Nat) (bsinfo : FsblBsinfo) (info : PartOffsets) :
    Verify PublicKey (Status × Bytes) := do
  point lastOfFsbl fsblBnifoSize
  point info.baseansw bsinfo.banswlen
  point info.fwinfo bsinfo.fwinfolen
  point info.certi bsinfo.certlen
  point info.signature bsinfo.siglen
  match ← ask (·.ecGetPublicKeyFromX509 (memory.read info.certi bsinfo.certlen)) with
  | none => return (.fail, [])
  | some ecPubKey =>
    point 0 info.fsblLen
    let hash ← ask (·.hashCompute (memory.read 0 info.fsblLen))
    if !(← ask (·.ecDsaVerify ecPubKey hash.2 (memory.read info.signature bsinfo.siglen))) then return (.fail, [])
    if !(← ask (·.granted .answerPool)) then return (.nullp, [])
    return (hash.1, memory.read info.baseansw bsinfo.banswlen)

/-- The part of `SBC_FSBL_Verify` behind `SBC_ReadFile`: `length` is `rdlv.length`, `memory` what `rdlv.value` points
    to. -/
def fsblVerifyBuffer (length : Nat) (memory : Store) : Verify PublicKey (Status × Bytes) :=
  let bsinfo := trailerAt length memory
  fsblVerifyParts memory (sub32 length fsblBnifoSize) bsinfo (partOffsets length bsinfo)

def VerifyEnv.file? (e : VerifyEnv PublicKey) : Option Bytes := (List.range e.fileSystems).findSome? e.fsblFile

/-- `SBC_GetFileSize` reports success with the size 0 when the file's information cannot be read; it stores the size as
    a `UINTN` over `rdlv.length` and the gap behind it. The buffer has `rdlv.length` bytes, but the whole size is passed
    to `Read`. -/
def fsblVerify : Verify PublicKey (Status × Bytes) := do
  match ← ask (·.file?) with
  | none => return (.fail, [])
  | some file =>
    if !(← ask (·.granted .sizeOpen)) then return (.fail, [])
    let fileSize := if ← ask (·.granted .sizeInfo) then file.length else 0
    let length := fileSize % 2 ^ 32
    if !(← ask (·.granted .filePool)) then return (.nullp, [])
    if !(← ask (·.granted .fileRead)) then return (.io, [])
    point 0 fileSize
    let memory ← ask (·.memory)
    fsblVerifyBuffer length (memory.write 0 (file.take fileSize))

def VerifyEnv.content? (e : VerifyEnv PublicKey) : Option Bytes :=
  if e.granted .sizeOpen ∧ e.granted .filePool ∧ e.granted .fileRead then
    e.file?.map fun file => if e.granted .sizeInfo then file else []
  else none

end LeoEdk.Sbc
