import LeoEdk.Lib.Bytes

/-!
The vocabulary the first-stage (FSBL) and second-stage (SSBL) boot loaders share: status codes, boot and key modes, the
header of the raw partition, and the layout of the firmware banks on the disk.

Names are those of the C sources without the `SBC_` prefix: `SBCStatus` is `Status`, `BOOT_SSBL_OFS` is `bootSsblOfs`,
`rawprt_hdr_t` is `RawprtHdr`.
-/

namespace LeoEdk.Sbc

open Bytes

inductive Status where
  | ok | fail | invparam | nullp | zerol | notfnd | badfmt | fmmttyp | nospc | io | fault | busy | time | comm | proto
  | notsup | encfail | decfail | bsanswnotfnd | unknown
  deriving DecidableEq, Repr

/-- The numbers of `SBCStatus`; some callers pass a status on where a boot mode is expected. -/
def Status.code : Status → Nat
  | .ok => 0 | .fail => 300 | .invparam => 301 | .nullp => 302 | .zerol => 303 | .notfnd => 304 | .badfmt => 305
  | .fmmttyp => 306 | .nospc => 307 | .io => 308 | .fault => 309 | .busy => 310 | .time => 311 | .comm => 312
  | .proto => 313 | .notsup => 314 | .encfail => 315 | .decfail => 316 | .bsanswnotfnd => 317 | .unknown => 318

inductive BootMode where
  | normal | update | recovery | factory
  deriving DecidableEq, Repr

namespace BootMode

def code : BootMode → Nat
  | normal => 1 | update => 2 | recovery => 3 | factory => 4

/-- The branch a `switch` on the boot mode takes; `none` is its default branch. -/
def ofCode : Nat → Option BootMode
  | 1 => some normal | 2 => some update | 3 => some recovery | 4 => some factory | _ => none

@[simp] theorem ofCode_code (m : BootMode) : ofCode m.code = some m := by cases m <;> rfl

theorem ofCode_eq_some {n : Nat} {m : BootMode} : ofCode n = some m ↔ n = m.code := by
  constructor
  · intro h
    unfold ofCode at h
    split at h <;> cases h <;> rfl
  · rintro rfl
    exact ofCode_code m

end BootMode

def bootModeUnknown : Nat := 5

inductive KeyMode where
  | normal | boot | update
  deriving DecidableEq, Repr

namespace KeyMode

def code : KeyMode → Nat
  | normal => 1 | boot => 2 | update => 3

def ofCode : Nat → Option KeyMode
  | 1 => some normal | 2 => some boot | 3 => some update | _ => none

end KeyMode

/-! ### The header of the raw partition -/

def rawprtMagicId : UInt32 := 0xAA55AA55

/-- `rawprt_hdr_t`: 128 packed bytes at the start of block 0. -/
@[ext] structure RawprtHdr where
  magicid : UInt32
  prtinfo : Bytes
  reserv : Bytes
  bootmode : UInt16
  keymode : UInt16
  rcvmode : UInt16
  bootpres : Bytes
  length_prtinfo : prtinfo.length = 64
  length_reserv : reserv.length = 46
  length_bootpres : bootpres.length = 8

namespace RawprtHdr

def ofStore (d : Store) : RawprtHdr where
  magicid := .ofNat (leNat (d.read 0 4))
  prtinfo := d.read 4 64
  reserv := d.read 68 46
  bootmode := .ofNat (leNat (d.read 114 2))
  keymode := .ofNat (leNat (d.read 116 2))
  rcvmode := .ofNat (leNat (d.read 118 2))
  bootpres := d.read 120 8
  length_prtinfo := Store.length_read ..
  length_reserv := Store.length_read ..
  length_bootpres := Store.length_read ..

def toBytes (h : RawprtHdr) : Bytes :=
  leBytes 4 h.magicid.toNat ++ (h.prtinfo ++ (h.reserv ++ (leBytes 2 h.bootmode.toNat ++ (leBytes 2 h.keymode.toNat ++
    (leBytes 2 h.rcvmode.toNat ++ h.bootpres)))))

@[simp] theorem length_toBytes (h : RawprtHdr) : h.toBytes.length = 128 := by
  simp [toBytes, h.length_prtinfo, h.length_reserv, h.length_bootpres]

theorem read_write_toBytes (d : Store) (h : RawprtHdr) (rest : Bytes) {a n : Nat} (hn : a + n ≤ 128) :
    (d.write 0 (h.toBytes ++ rest)).read a n = slice a n h.toBytes := by
  rw [← slice_append_left rest (by simpa using hn), ← Store.read_write_within d 0, Nat.zero_add]
  simp only [List.length_append, length_toBytes]
  omega

theorem ofStore_write (d : Store) (h : RawprtHdr) (rest : Bytes) : ofStore (d.write 0 (h.toBytes ++ rest)) = h := by
  have hp := h.length_prtinfo
  have hr := h.length_reserv
  have hb := h.length_bootpres
  ext1
  all_goals
    simp (disch := decide) only [ofStore, read_write_toBytes]
    simp (disch := simp [hp, hr, hb]) only [toBytes, slice_append_right, slice_append_left, slice_zero_of_length,
      length_leBytes, hp, hr, Nat.sub_self, Nat.reduceSub, leNat_leBytes]
  all_goals simp

theorem ofStore_congr {d d' : Store} (same : ∀ a n, a + n ≤ 128 → d.read a n = d'.read a n) :
    ofStore d = ofStore d' := by
  ext1
  all_goals
    simp only [ofStore]
    rw [same _ _ (by decide)]

end RawprtHdr

/-! ### The layout of the disk -/

def rawprtDfltBlkSz : Nat := 512
def rawprtDfltShift : Nat := 9
def bootSector1Ofs : Nat := 0x200
def bootFsblOfs : Nat := 0
def bootSsblOfs : Nat := 0x400000
def bootOsOfs : Nat := 0x800000
def bootFwImgmax : Nat := 128 <<< 20
def sysConfStartOfs : Nat := 0x18000200
def sysConfResOfs : Nat := 0x40
def sysSettingStorageLen : Nat := 16512

/-- `BOOT_SECTOR1_OFS`, `BOOT_SECTOR2_OFS` and `BOOT_SECTOR3_OFS`: banks of 128 MB after block 0. -/
def bootSectorOfs (bank : Nat) : Nat := bootSector1Ofs + bootFwImgmax * (bank - 1)

/-- An image of a bank as the layout `boot_fw_inf_t` has it on the disk: four bytes of length, then the bytes. -/
def mbrImage (d : Store) (bank ofs : Nat) : Bytes :=
  d.read (bootSectorOfs bank + ofs + 4) (leNat (d.read (bootSectorOfs bank + ofs) 4))

/-- `ALIGN_VALUE` on a `UINT32`: the next multiple of `a`, wrapped at 32 bits. -/
def alignValue (v a : Nat) : Nat := (v + (2 ^ 32 + a - v % 2 ^ 32) % a) % 2 ^ 32

theorem blkSz_ne_zero : rawprtDfltBlkSz ≠ 0 := by decide

end LeoEdk.Sbc
