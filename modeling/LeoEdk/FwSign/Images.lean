import LeoEdk.Lib.Bytes

/-!
The images the Python tools of `FwSignPy` write: the signed FSBL file of `fw_sign.py`, and the raw partition of
`rawprt.py` with its header, its three firmware banks and the system settings.
-/

namespace LeoEdk.FwSign

open Bytes

/-- `str.encode`; Python's `len` of the string itself counts its characters. -/
def encode (s : String) : Bytes := s.toList.flatMap String.utf8EncodeChar

/-- `array.array('b', xs)`, which raises `OverflowError` for a value that is no signed byte. -/
def arrayB (xs : List Nat) : Option Bytes := if ∀ x ∈ xs, x ≤ 127 then some (xs.map UInt8.ofNat) else none

/-- `array.array('h', xs)`: signed 16-bit values, in the byte order of the machine. -/
def arrayH (xs : List Nat) : Option Bytes := if ∀ x ∈ xs, x ≤ 32767 then some (xs.flatMap (leBytes 2)) else none

/-- `make_fsbl_image` of `fw_sign.py`, for the signature its key gives for `content`. -/
def makeFsblImage (baseAnswer fwInfo : String) (content certibytes signature : Bytes) : Option Bytes := do
  let image := content ++ encode baseAnswer ++ encode fwInfo ++ certibytes ++ signature
  let binfo ← arrayB [signature.length, fwInfo.length]
  let image := image ++ binfo
  let binfo ← arrayH [certibytes.length]
  let image := image ++ binfo
  let binfo ← arrayB [baseAnswer.length, 1, 35, 36]
  return image ++ binfo

/-! ### The raw partition -/

def fsblSector : Nat := 4 <<< 20
def osSector : Nat := 20 <<< 20
def bootSector : Nat := 128 <<< 20

def zeroPadding (desiredLen : Nat) : Bytes := List.replicate desiredLen 0

@[simp] theorem length_zeroPadding (n : Nat) : (zeroPadding n).length = n := List.length_replicate

/-- `int.to_bytes(4, byteorder='little')`, which raises `OverflowError` for a larger number. -/
def toBytes4 (n : Nat) : Option Bytes := if n < 2 ^ 32 then some (leBytes 4 n) else none

/-- Of the eight slice assignments only the first one replaces as many bytes as it writes; from the second sector on
    they insert. The kernel's sector is filled from the FSBL file, the software's from the SSBL file, and the SSBL's own
    from the FSBL file. -/
def makeFwImage (fsbl ssbl : Bytes) : Option Bytes := do
  let fsblLen ← toBytes4 fsbl.length
  let ssblLen ← toBytes4 ssbl.length
  let fwimg := zeroPadding bootSector
  let fwimg := setSlice 0 4 fsblLen fwimg
  let fwimg := setSlice 4 fsbl.length fsbl fwimg
  let copyCnt := fsblSector
  let fwimg := setSlice copyCnt 4 ssblLen fwimg
  let fwimg := setSlice (copyCnt + 4) ssbl.length fsbl fwimg
  let copyCnt := copyCnt + fsblSector
  let fwimg := setSlice copyCnt 4 fsblLen fwimg
  let fwimg := setSlice (copyCnt + 4) fsbl.length fsbl fwimg
  let copyCnt := copyCnt + osSector
  let fwimg := setSlice copyCnt 4 ssblLen fwimg
  let fwimg := setSlice (copyCnt + 4) ssbl.length ssbl fwimg
  return fwimg.take bootSector

def prtinfo : Bytes := [0x4C, 0x49, 0x47, 0x46, 0x53, 0x2B, 0x56, 0x31, 0x2E, 0x30]

def makeRawprtHeader : Bytes :=
  [0xAA, 0x55, 0xAA, 0x55] ++ prtinfo ++ zeroPadding (64 - prtinfo.length) ++ zeroPadding 52 ++
    [0x00, 0x01, 0x00, 0x43, 0x00, 0x02, 0x00, 0x50] ++ zeroPadding 384

structure Certificates where
  rootca : Bytes
  devidcrt : Bytes
  fwidcrt : Bytes
  osidcrt : Bytes
  deriving DecidableEq, Repr

/-- One certificate of `make_bootfw_storage`, with its length in front and padded to 2048 bytes without it. -/
def certRecord (crt : Bytes) : Option Bytes := do
  let len ← toBytes4 crt.length
  return len ++ crt ++ zeroPadding (2048 - crt.length)

def certStorage (certs : Certificates) : Option Bytes := do
  let rootca ← certRecord certs.rootca
  let devidcrt ← certRecord certs.devidcrt
  let fwidcrt ← certRecord certs.fwidcrt
  let osidcrt ← certRecord certs.osidcrt
  return zeroPadding 128 ++ rootca ++ devidcrt ++ fwidcrt ++ osidcrt

def makeBootfwStorage (certs : Certificates) : Option Bytes := do
  let storage ← certStorage certs
  return storage ++ zeroPadding (8 <<< 10)

def rawprt (fsbl ssbl : Bytes) (certs : Certificates) : Option Bytes := do
  let bank ← makeFwImage fsbl ssbl
  let storage ← makeBootfwStorage certs
  return makeRawprtHeader ++ bank ++ bank ++ bank ++ storage

end LeoEdk.FwSign
