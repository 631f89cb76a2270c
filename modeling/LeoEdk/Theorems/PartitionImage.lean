import LeoEdk.FwSign.Images
import LeoEdk.Sbc.Boot

/-! The raw partition as `rawprt.py` writes it and as the boot loaders read it. -/

namespace LeoEdk.FwSign

open Bytes Sbc List

/-- The partition is recognised, its current bank is 1, and every bank gives back the two files. -/
structure PartitionReadsBack (fsbl ssbl : Bytes) (d : Store) : Prop where
  recognised : ∃ hdr, blkIoScan (fun _ => d) [⟨true, true⟩] 0 .zero = (.ok, some 0, hdr) ∧ currbankId hdr.bootpres = 1
  fsbl : ∀ bank ∈ [1, 2, 3], mbrImage d bank bootFsblOfs = fsbl
  ssbl : ∀ bank ∈ [1, 2, 3], mbrImage d bank bootSsblOfs = ssbl

def PartitionRoundTrips (fsbl ssbl : Bytes) (certs : Certificates) : Prop :=
  ∃ image, rawprt fsbl ssbl certs = some image ∧ PartitionReadsBack fsbl ssbl (Store.ofBytes image)

variable {fsbl ssbl image : Bytes} {certs : Certificates}

theorem rawprt_eq_some (written : rawprt fsbl ssbl certs = some image) :
    ∃ bank storage, makeFwImage fsbl ssbl = some bank ∧ makeBootfwStorage certs = some storage ∧
      image = makeRawprtHeader ++ (bank ++ (bank ++ (bank ++ storage))) := by
  simp only [rawprt, Option.bind_eq_bind, Option.bind_eq_some_iff, Option.pure_def, Option.some.injEq] at written
  obtain ⟨bank, hb, storage, hs, rfl⟩ := written
  exact ⟨bank, storage, hb, hs, by simp⟩

theorem length_makeRawprtHeader : makeRawprtHeader.length = 512 := by
  simp only [makeRawprtHeader, length_append, length_zeroPadding]
  rfl

theorem read_header {rest : Bytes} {a n : Nat} (h : a + n ≤ 512) :
    (Store.ofBytes (makeRawprtHeader ++ rest)).read a n = slice a n makeRawprtHeader := by
  have size := length_makeRawprtHeader
  rw [Store.read_ofBytes (by rw [length_append]; omega), slice_append_left _ (by omega)]

theorem ofStore_rawprt (rest : Bytes) :
    (RawprtHdr.ofStore (Store.ofBytes (makeRawprtHeader ++ rest))).magicid = 0x55AA55AA ∧
      currbankId (RawprtHdr.ofStore (Store.ofBytes (makeRawprtHeader ++ rest))).bootpres = 1 := by
  simp only [RawprtHdr.ofStore]
  rw [read_header (by decide), read_header (by decide)]
  decide

/-! ### The firmware banks -/

def sector (len : Nat) (img : Bytes) : Bytes := leBytes 4 len ++ (img ++ zeroPadding (fsblSector - 4 - img.length))

theorem length_sector {len : Nat} {img : Bytes} (fits : img.length ≤ fsblSector - 4) :
    (sector len img).length = fsblSector := by
  have four : 4 ≤ fsblSector := by decide
  simp only [sector, length_append, length_leBytes, length_zeroPadding]
  omega

theorem drop_zeroPadding (k n : Nat) : (zeroPadding n).drop k = zeroPadding (n - k) := drop_replicate

theorem setSlice_fsbl (img : Bytes) :
    setSlice 4 img.length img (setSlice 0 4 (leBytes 4 img.length) (zeroPadding bootSector)) =
      leBytes 4 img.length ++ (img ++ zeroPadding (bootSector - max 4 img.length)) := by
  have first : setSlice 0 4 (leBytes 4 img.length) (zeroPadding bootSector) =
      leBytes 4 img.length ++ zeroPadding (bootSector - 4) := by
    rw [setSlice, take_zero, nil_append, drop_zeroPadding]
    rfl
  have rest : (leBytes 4 img.length ++ zeroPadding (bootSector - 4)).drop (max 4 img.length) =
      zeroPadding (bootSector - max 4 img.length) := by
    rw [drop_append, drop_eq_nil_of_le (by rw [length_leBytes]; exact le_max_left ..), nil_append,
      drop_zeroPadding, length_leBytes]
    congr 1
    omega
  rw [first, setSlice, rest, take_left' (length_leBytes ..), append_assoc]

theorem setSlice_ssbl {img : Bytes} {m : Nat} (fits : img.length ≤ fsblSector - 4) (hm : m ≤ fsblSector - 4) :
    ∃ n, setSlice (fsblSector + 4) m img (setSlice fsblSector 4 (leBytes 4 m)
      (leBytes 4 img.length ++ (img ++ zeroPadding (bootSector - max 4 img.length)))) =
      sector img.length img ++ (sector m img ++ zeroPadding n) := by
  have sizes : 4 ≤ fsblSector ∧ 2 * fsblSector ≤ bootSector := by decide
  have padding : ∀ n, fsblSector - 4 - img.length ≤ n →
      zeroPadding n = zeroPadding (fsblSector - 4 - img.length) ++ zeroPadding (n - (fsblSector - 4 - img.length)) := by
    intro n le
    rw [zeroPadding, zeroPadding, zeroPadding, ← replicate_add, Nat.add_sub_cancel' le]
  have front : ∀ len n, fsblSector - 4 - img.length ≤ n → leBytes 4 len ++ (img ++ zeroPadding n) =
      sector len img ++ zeroPadding (n - (fsblSector - 4 - img.length)) := by
    intro len n le
    rw [padding n le, sector, append_assoc, append_assoc]
  have size : (sector img.length img ++ leBytes 4 m).length = fsblSector + 4 := by
    rw [length_append, length_sector fits, length_leBytes]
  rw [front _ _ (by omega), setSlice_append_of_le _ _ (length_sector fits) sizes.1, ← append_assoc,
    setSlice_append_of_le _ _ size (by omega), append_assoc, front _ _ (by omega)]
  exact ⟨_, rfl⟩

def Begins (front img : Bytes) : Prop := bootSector ≤ img.length ∧ img.take (2 * fsblSector) = front

theorem Begins.setSlice {front img : Bytes} (h : Begins front img) (start stop : Nat) (new : Bytes)
    (behind : 2 * fsblSector ≤ start) (hs : stop ≤ start + new.length) :
    Begins front (setSlice start stop new img) := by
  have sizes : 2 * fsblSector ≤ bootSector := by decide
  exact ⟨le_trans h.1 (length_le_setSlice hs), by rw [take_setSlice behind (le_trans sizes h.1), h.2]⟩

theorem makeFwImage_eq {fsbl ssbl : Bytes} (hf : fsbl.length ≤ fsblSector - 4) (hs : ssbl.length ≤ fsblSector - 4) :
    ∃ bank, makeFwImage fsbl ssbl = some bank ∧ bank.length = bootSector ∧
      bank.take (2 * fsblSector) = sector fsbl.length fsbl ++ sector ssbl.length fsbl := by
  have small : fsblSector - 4 < 2 ^ 32 := by decide
  have sizes : 2 * fsblSector ≤ bootSector := by decide
  have fits : ∀ start (bs : Bytes), bs.length ≤ start + bs.length := fun start bs => Nat.le_add_left ..
  have four : ∀ start len, 4 ≤ start + (leBytes 4 len).length := fun start len => Nat.le_add_left 4 start
  obtain ⟨n, written⟩ := setSlice_ssbl hf hs
  have fsblSet := setSlice_fsbl fsbl
  -- the sectors of the FSBL and the SSBL, after the fourth assignment
  have begins : Begins (sector fsbl.length fsbl ++ sector ssbl.length fsbl)
      (Bytes.setSlice (fsblSector + 4) ssbl.length fsbl (Bytes.setSlice fsblSector 4 (leBytes 4 ssbl.length)
        (Bytes.setSlice 4 fsbl.length fsbl
        (Bytes.setSlice 0 4 (leBytes 4 fsbl.length) (zeroPadding bootSector))))) := by
    constructor
    · refine le_trans (le_of_eq (length_zeroPadding bootSector).symm) ?_
      exact le_trans (length_le_setSlice (four ..)) (le_trans (length_le_setSlice (fits ..))
        (le_trans (length_le_setSlice (four ..)) (length_le_setSlice (by omega))))
    · rw [fsblSet, written, ← append_assoc, take_left']
      rw [length_append, length_sector hf, length_sector hf, two_mul]
  have osLen := begins.setSlice (fsblSector + fsblSector) 4 (leBytes 4 fsbl.length) (by decide) (four ..)
  have os := osLen.setSlice (fsblSector + fsblSector + 4) fsbl.length fsbl (by decide) (fits ..)
  have swLen := os.setSlice (fsblSector + fsblSector + osSector) 4 (leBytes 4 ssbl.length) (by decide) (four ..)
  have sw := swLen.setSlice (fsblSector + fsblSector + osSector + 4) ssbl.length ssbl (by decide) (fits ..)
  rw [makeFwImage, toBytes4, toBytes4, if_pos (by omega), if_pos (by omega)]
  exact ⟨_, rfl, by rw [length_take, min_eq_left sw.1], by rw [take_take, min_eq_left sizes, sw.2]⟩

theorem read_bank {bank storage : Bytes} (size : bank.length = bootSector) {b a n : Nat} (hb : b ∈ [1, 2, 3])
    (inside : a + n ≤ bootSector) :
    (Store.ofBytes (makeRawprtHeader ++ (bank ++ (bank ++ (bank ++ storage))))).read (bootSectorOfs b + a) n =
      slice a n bank := by
  have header := length_makeRawprtHeader
  have some_ : 0 < bootSector := by decide
  have here := at_self (makeRawprtHeader ++ (bank ++ (bank ++ (bank ++ storage))))
  simp only [at_append, header, size] at here
  generalize makeRawprtHeader ++ _ = image at here ⊢
  have bankAt : At image (bootSectorOfs b) bank := by
    simp only [mem_cons, not_mem_nil, or_false] at hb
    rcases hb with rfl | rfl | rfl
    · exact here.2.1
    · exact here.2.2.1
    · exact here.2.2.2.1
  have whole := bankAt.inside (by rw [size]; exact some_)
  rw [Store.read_ofBytes (by omega), bankAt.slice_within (by omega)]

theorem mbrImage_of_sector {d : Store} {b ofs len : Nat} (img : Bytes) (fits : len ≤ fsblSector - 4)
    (stored : d.read (bootSectorOfs b + ofs) fsblSector = sector len img) :
    mbrImage d b ofs = (img ++ zeroPadding (fsblSector - 4 - img.length)).take len := by
  have small : fsblSector - 4 < 256 ^ 4 := by decide
  have sizes : 4 ≤ fsblSector := by decide
  have field : d.read (bootSectorOfs b + ofs) 4 = leBytes 4 len := by
    rw [← Nat.add_zero (bootSectorOfs b + ofs), ← Store.slice_read d _ fsblSector 0 4 (by omega), stored, sector,
      slice_append_left _ (by rw [length_leBytes]), slice_zero_of_length (length_leBytes ..)]
  rw [mbrImage, field, leNat_leBytes_of_lt (by omega), ← Store.slice_read d _ fsblSector 4 len (by omega), stored,
    sector, slice_append_right _ _ (by rw [length_leBytes]), length_leBytes, Nat.sub_self, slice, drop_zero]

theorem rawprt_images {fsbl ssbl image : Bytes} {certs : Certificates} (written : rawprt fsbl ssbl certs = some image)
    (hf : fsbl.length ≤ fsblSector - 4) (hs : ssbl.length ≤ fsblSector - 4) {b : Nat} (hb : b ∈ [1, 2, 3]) :
    mbrImage (Store.ofBytes image) b bootFsblOfs = fsbl ∧
      mbrImage (Store.ofBytes image) b bootSsblOfs =
        (fsbl ++ zeroPadding (fsblSector - 4 - fsbl.length)).take ssbl.length := by
  obtain ⟨bank, storage, made, -, rfl⟩ := rawprt_eq_some written
  obtain ⟨bank', made', size, front⟩ := makeFwImage_eq hf hs
  obtain rfl := Option.some.inj (made.symm.trans made')
  have inside : 2 * fsblSector ≤ bootSector := by decide
  have atFsbl : bootFsblOfs = 0 := rfl
  have atSsbl : bootSsblOfs = fsblSector := rfl
  constructor
  · rw [mbrImage_of_sector fsbl hf, take_left]
    rw [atFsbl, read_bank size hb (by omega), ← slice_take _ (by omega : 0 + fsblSector ≤ 2 * fsblSector), front]
    exact slice_middle [] _ _ rfl (length_sector hf).symm
  · rw [mbrImage_of_sector fsbl hs]
    rw [atSsbl, read_bank size hb (by omega), ← slice_take _ (by omega : fsblSector + fsblSector ≤ 2 * fsblSector),
      front, slice_append_right _ _ (le_of_eq (length_sector hf)), length_sector hf, Nat.sub_self,
      slice_zero_of_length (length_sector hf)]

theorem rawprt_not_recognised (written : rawprt fsbl ssbl certs = some image) (hdr : RawprtHdr) :
    blkIoScan (fun _ => Store.ofBytes image) [⟨true, true⟩] 0 .zero ≠ (.ok, some 0, hdr) := by
  obtain ⟨bank, storage, -, -, rfl⟩ := rawprt_eq_some written
  have magic := (ofStore_rawprt (bank ++ (bank ++ (bank ++ storage)))).1
  have other : (0x55AA55AA : UInt32) ≠ rawprtMagicId := by decide
  simp only [blkIoScan, Bool.not_true, Bool.false_eq_true, ↓reduceIte, magic, if_pos other]
  exact nofun

theorem partitionImage_never_roundTrips (fsbl ssbl : Bytes) (certs : Certificates) :
    ¬PartitionRoundTrips fsbl ssbl certs := by
  rintro ⟨image, written, readsBack⟩
  obtain ⟨hdr, found, -⟩ := readsBack.recognised
  exact rawprt_not_recognised written hdr found

/-- With an FSBL and an SSBL of one byte, the file is not recognised, and the SSBL that is read is the FSBL. -/
theorem one_byte_images_misread : ∃ image, rawprt [0x46] [0x53] ⟨[], [], [], []⟩ = some image ∧
      mbrImage (Store.ofBytes image) 1 bootSsblOfs = [0x46] ∧
      ¬PartitionReadsBack [0x46] [0x53] (Store.ofBytes image) := by
  obtain ⟨bank, made, -⟩ : ∃ bank, makeFwImage [0x46] [0x53] = some bank ∧ _ :=
    makeFwImage_eq (by decide) (by decide)
  obtain ⟨image, written⟩ : ∃ image, rawprt [0x46] [0x53] ⟨[], [], [], []⟩ = some image := by
    rw [rawprt, made]
    exact ⟨_, rfl⟩
  refine ⟨image, written, ?_, fun readsBack => ?_⟩
  · exact (rawprt_images written (by decide) (by decide) (by decide)).2
  · obtain ⟨hdr, found, -⟩ := readsBack.recognised
    exact rawprt_not_recognised written hdr found

/-! ### The system settings -/

def sysConfRootCaOfs : Nat := 0x80
def sysConfDevidCrtOfs : Nat := 0x880
def sysConfSwidCrtOfs : Nat := 0x1080
def sysConfOsidCrtOfs : Nat := 0x1880
def sysConfSwListOfs : Nat := 0x2080

/-- A certificate of the settings as `SBC_DeviceIdKyeVerify` reads it: four bytes of length, then the bytes. -/
def certAt (loadbuf : Bytes) (ofs : Nat) : Nat × Bytes :=
  let calen := leNat (slice ofs 4 loadbuf)
  (calen, slice (ofs + 4) calen loadbuf)

structure SettingsReadBack (certs : Certificates) (before storage : Bytes) : Prop where
  rootca : certAt storage sysConfRootCaOfs = (certs.rootca.length, certs.rootca)
  devidcrt : certAt storage sysConfDevidCrtOfs = (certs.devidcrt.length, certs.devidcrt)
  fwidcrt : certAt storage sysConfSwidCrtOfs = (certs.fwidcrt.length, certs.fwidcrt)
  osidcrt : certAt storage sysConfOsidCrtOfs = (certs.osidcrt.length, certs.osidcrt)
  swList : before.length = sysConfSwListOfs

/-- The settings that are written are the settings that are read, and the software list begins where it is looked for:
    `certStorage` is what is written before it. -/
def SettingsRoundTrip (certs : Certificates) : Prop :=
  ∃ before storage, certStorage certs = some before ∧ makeBootfwStorage certs = some storage ∧
    SettingsReadBack certs before storage

theorem certRecord_eq_some {crt record : Bytes} (h : certRecord crt = some record) :
    crt.length < 2 ^ 32 ∧ record = leBytes 4 crt.length ++ (crt ++ zeroPadding (2048 - crt.length)) := by
  simp only [certRecord, toBytes4, Option.bind_eq_bind, Option.bind_eq_some_iff, Option.ite_none_right_eq_some,
    Option.pure_def, Option.some.injEq] at h
  obtain ⟨_, ⟨small, rfl⟩, rfl⟩ := h
  exact ⟨small, append_assoc ..⟩

theorem length_certRecord {crt record : Bytes} (h : certRecord crt = some record) :
    record.length = 4 + max crt.length 2048 := by
  obtain ⟨-, rfl⟩ := certRecord_eq_some h
  simp only [length_append, length_leBytes, length_zeroPadding]
  omega

theorem certStorage_eq_some {before : Bytes} (h : certStorage certs = some before) :
    ∃ rootca devidcrt fwidcrt osidcrt, certRecord certs.rootca = some rootca ∧
      certRecord certs.devidcrt = some devidcrt ∧ certRecord certs.fwidcrt = some fwidcrt ∧
      certRecord certs.osidcrt = some osidcrt ∧
      before = zeroPadding 128 ++ (rootca ++ (devidcrt ++ (fwidcrt ++ osidcrt))) := by
  simp only [certStorage, Option.bind_eq_bind, Option.bind_eq_some_iff, Option.pure_def, Option.some.injEq] at h
  obtain ⟨rootca, h₁, devidcrt, h₂, fwidcrt, h₃, osidcrt, h₄, rfl⟩ := h
  exact ⟨rootca, devidcrt, fwidcrt, osidcrt, h₁, h₂, h₃, h₄, by simp only [append_assoc]⟩

theorem length_certStorage {before : Bytes} (h : certStorage certs = some before) :
    sysConfSwListOfs + 16 ≤ before.length := by
  obtain ⟨rootca, devidcrt, fwidcrt, osidcrt, h₁, h₂, h₃, h₄, rfl⟩ := certStorage_eq_some h
  simp only [length_append, length_zeroPadding, length_certRecord h₁, length_certRecord h₂, length_certRecord h₃,
    length_certRecord h₄, sysConfSwListOfs]
  omega

theorem settings_never_roundTrip (certs : Certificates) : ¬SettingsRoundTrip certs := by
  rintro ⟨before, storage, written, -, readBack⟩
  have long := length_certStorage written
  rw [readBack.swList] at long
  omega

/-- With certificates of one byte, no certificate is found at the device id's offset. -/
theorem one_byte_certificates_misread : ∃ storage, makeBootfwStorage ⟨[1], [2], [3], [4]⟩ = some storage ∧
      certAt storage sysConfDevidCrtOfs = (0, []) ∧ ¬SettingsRoundTrip ⟨[1], [2], [3], [4]⟩ := by
  refine ⟨_, rfl, by decide +kernel, ?_⟩
  rintro ⟨before, storage, written, -, readBack⟩
  have long := length_certStorage written
  rw [readBack.swList] at long
  omega

theorem certAt_record {bs crt record : Bytes} {ofs : Nat} (h : certRecord crt = some record) (here : At bs ofs record) :
    certAt bs ofs = (crt.length, crt) := by
  obtain ⟨small, rfl⟩ := certRecord_eq_some h
  rw [at_append, at_append, length_leBytes] at here
  rw [certAt, here.1.leNat_eq small, here.2.1.slice_eq rfl]

/-- Each certificate lies four bytes further behind its offset than the one before it. -/
theorem settings_drift {storage : Bytes} (written : makeBootfwStorage certs = some storage)
    (hr : certs.rootca.length ≤ 2048) (hd : certs.devidcrt.length ≤ 2048) (hf : certs.fwidcrt.length ≤ 2048) :
    certAt storage sysConfRootCaOfs = (certs.rootca.length, certs.rootca) ∧
      certAt storage (sysConfDevidCrtOfs + 4) = (certs.devidcrt.length, certs.devidcrt) ∧
      certAt storage (sysConfSwidCrtOfs + 8) = (certs.fwidcrt.length, certs.fwidcrt) ∧
      certAt storage (sysConfOsidCrtOfs + 12) = (certs.osidcrt.length, certs.osidcrt) := by
  simp only [makeBootfwStorage, Option.bind_eq_bind, Option.bind_eq_some_iff, Option.pure_def,
    Option.some.injEq] at written
  obtain ⟨before, area, rfl⟩ := written
  obtain ⟨rootca, devidcrt, fwidcrt, osidcrt, h₁, h₂, h₃, h₄, rfl⟩ := certStorage_eq_some area
  have l₁ := length_certRecord h₁
  have l₂ := length_certRecord h₂
  have l₃ := length_certRecord h₃
  have here := at_middle [] (zeroPadding 128 ++ (rootca ++ (devidcrt ++ (fwidcrt ++ osidcrt)))) (zeroPadding (8 <<< 10))
  rw [nil_append] at here
  generalize _ ++ zeroPadding (8 <<< 10) = storage at here ⊢
  simp only [at_append, length_zeroPadding, l₁, l₂, l₃, max_eq_right hr, max_eq_right hd, max_eq_right hf] at here
  obtain ⟨_, root, devid, fwid, osid⟩ := here
  exact ⟨certAt_record h₁ root, certAt_record h₂ devid, certAt_record h₃ fwid, certAt_record h₄ osid⟩

theorem settings_drift_one_byte : ∃ storage, makeBootfwStorage ⟨[1], [2], [3], [4]⟩ = some storage ∧
    certAt storage (sysConfOsidCrtOfs + 12) = (1, [4]) := by
  have written : makeBootfwStorage ⟨[1], [2], [3], [4]⟩ = some _ := rfl
  exact ⟨_, written, (settings_drift written (by decide) (by decide) (by decide)).2.2.2⟩

end LeoEdk.FwSign
