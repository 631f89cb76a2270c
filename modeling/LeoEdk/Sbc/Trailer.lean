import LeoEdk.Lib.Bytes

/-!
The information `SBC_FSBL_Verify` finds at the end of a signed FSBL file: eight bytes with the lengths of the parts that
stand before them, read from the end of the file towards its front.
-/

namespace LeoEdk.Sbc

open Bytes

def fsblBnifoSize : Nat := 8

structure FsblBsinfo where
  siglen : Nat
  fwinfolen : Nat
  certlen : Nat
  banswlen : Nat
  bsinfv : Nat
  reserv1 : Nat
  reserv2 : Nat
  deriving DecidableEq, Repr

def FsblBsinfo.ofBytes (bs : Bytes) : FsblBsinfo where
  siglen := leNat (slice 0 1 bs)
  fwinfolen := leNat (slice 1 1 bs)
  certlen := leNat (slice 2 2 bs)
  banswlen := leNat (slice 4 1 bs)
  bsinfv := leNat (slice 5 1 bs)
  reserv1 := leNat (slice 6 1 bs)
  reserv2 := leNat (slice 7 1 bs)

def FsblBsinfo.len (info : FsblBsinfo) : Nat := info.siglen + info.fwinfolen + info.certlen + info.banswlen

structure FsblParts where
  fsbl : Bytes
  baseansw : Bytes
  fwinfo : Bytes
  certi : Bytes
  signature : Bytes
  deriving DecidableEq, Repr

/-- Where `SBC_FSBL_Verify` points in the file it has read. The length is a `UINT32`, so the buffer of a longer file is
    too small for it; an offset that passes the front of the file wraps around. Both leave the buffer. -/
def fsblParts (rdlv : Bytes) : Option FsblParts :=
  if 2 ^ 32 ≤ rdlv.length ∨ rdlv.length < fsblBnifoSize then none
  else
    let bsinfo := FsblBsinfo.ofBytes (slice (rdlv.length - fsblBnifoSize) fsblBnifoSize rdlv)
    if rdlv.length < fsblBnifoSize + bsinfo.len then none
    else
      let fsblLen := rdlv.length - fsblBnifoSize - bsinfo.len
      let infostart := rdlv.drop fsblLen
      some {
        fsbl := rdlv.take fsblLen
        baseansw := slice 0 bsinfo.banswlen infostart
        fwinfo := slice bsinfo.banswlen bsinfo.fwinfolen infostart
        certi := slice (bsinfo.banswlen + bsinfo.fwinfolen) bsinfo.certlen infostart
        signature := slice (bsinfo.banswlen + bsinfo.fwinfolen + bsinfo.certlen) bsinfo.siglen infostart }

end LeoEdk.Sbc
