import LeoEdk.Theorems.DiceIdentity

/-! The migration key of an update has the current bank's SSBL and kernel in the place of the new ones. -/

set_option maxRecDepth 8000

namespace LeoEdk.Sbc.Migration

open Bytes Prog List

/-- The images the key is made of: those of bank `c` as the current and of bank `p` as the new firmware. -/
def images (d : Store) (c p : Nat) : List Bytes :=
  [mbrImage d c bootFsblOfs, mbrImage d c bootSsblOfs, mbrImage d c bootOsOfs, mbrImage d p bootSsblOfs,
    mbrImage d p bootOsOfs]

def keyMessage (e : Env) (d : Store) (c p : Nat) : Bytes :=
  ((e.hwInfo.bytes :: images d c p).map e.sha256).flatten

/-- The migration key as it is defined for the current bank `c` and the new bank `p`. -/
def key (e : Env) (d : Store) (c p : Nat) : Bytes := e.sha256 (keyMessage e d c p)

def keyMessages (e : Env) (d : Store) (c p : Nat) : List Bytes := e.hwInfo.bytes :: keyMessage e d c p :: images d c p

def Sound (d : Store) (bank ofs : Nat) : Prop :=
  ofs + 4 + (mbrImage d bank ofs).length ≤ bootFwImgmax ∧ mbrImage d bank ofs ≠ []

structure Ready (e : Env) (d : Store) (c : Nat) : Prop where
  pools : e.granted .migFwinfPool ∧ e.granted .migIntegbufPool ∧ e.granted .migHashPool
  serials : e.hwInfo.bytes ≠ []
  fsbl : Sound d c bootFsblOfs
  ssbl : Sound d c bootSsblOfs
  os : Sound d c bootOsOfs

def ReadsSucceed (e : Env) : Prop := e.granted .migCurrentRead ∧ e.granted .migNewRead

section Buffer

variable {e : Env} {w : World} {Q : Status × Bytes → World → Prop} {R : Halt → World → Prop} (d : Store)

@[simp] theorem length_mbrImage (bank ofs : Nat) :
    (mbrImage d bank ofs).length = leNat (d.read (bootSectorOfs bank + ofs) 4) := Store.length_read ..

theorem wp_hashMbrImage {bank ofs : Nat} (inside : ofs + 4 ≤ bootFwImgmax) :
    wp (hashMbrImage (d.read (bootSectorOfs bank) bootFwImgmax) ofs) e Q R w ↔
      if ofs + 4 + (mbrImage d bank ofs).length ≤ bootFwImgmax then
        wp (hashCompute (mbrImage d bank ofs)) e Q R w
      else R .fault w := by
  rw [hashMbrImage, wp_ite, wp_halt, Store.slice_read _ _ _ _ _ inside, Store.length_read, length_mbrImage]
  split_ifs with fits
  · rw [Store.slice_read _ _ _ _ _ fits, ← Nat.add_assoc, mbrImage]
  · exact Iff.rfl

theorem hashMbrImage_stale (base base' : Nat) {ofs : Nat} (behind : rawprtDfltBlkSz ≤ ofs) :
    hashMbrImage (overwrite 0 (d.read base' rawprtDfltBlkSz)
      (overwrite 0 (List.replicate 8 0) (d.read base bootFwImgmax))) ofs =
      hashMbrImage (d.read base bootFwImgmax) ofs := by
  have zeros : 0 + (List.replicate 8 (0 : UInt8)).length ≤ (d.read base bootFwImgmax).length := by
    rw [Store.length_read]
    decide
  have cleared : (overwrite 0 (List.replicate 8 0) (d.read base bootFwImgmax)).length = bootFwImgmax := by
    rw [length_overwrite zeros, Store.length_read]
  have block : 0 + (d.read base' rawprtDfltBlkSz).length ≤
      (overwrite 0 (List.replicate 8 0) (d.read base bootFwImgmax)).length := by
    rw [cleared, Store.length_read]
    decide
  have kept : ∀ a n, rawprtDfltBlkSz ≤ a → slice a n (overwrite 0 (d.read base' rawprtDfltBlkSz)
      (overwrite 0 (List.replicate 8 0) (d.read base bootFwImgmax))) = slice a n (d.read base bootFwImgmax) := by
    intro a n behind
    rw [slice_overwrite_of_le n block (by rwa [Store.length_read, Nat.zero_add]),
      slice_overwrite_of_le n zeros (le_trans (by decide) behind)]
  rw [hashMbrImage, hashMbrImage, kept ofs 4 behind, kept (ofs + 4) _ (le_trans behind (Nat.le_add_right ..)),
    length_overwrite block, cleared, Store.length_read]

end Buffer

theorem bankStartAddr_eq {bank : Nat} (h : bank = 1 ∨ bank = 2) :
    (bankStartAddr bank >>> rawprtDfltShift) * rawprtDfltBlkSz = bootSectorOfs bank := by
  rcases h with rfl | rfl <;> decide

theorem alignValue_bootFwImgmax : alignValue bootFwImgmax rawprtDfltBlkSz = bootFwImgmax := by decide

theorem alignValue_sizeofPtr : alignValue 8 rawprtDfltBlkSz = rawprtDfltBlkSz := by decide

theorem bootFwImgmax_ne_zero : bootFwImgmax ≠ 0 := by decide

theorem fsbl_inside : bootFsblOfs + 4 ≤ bootFwImgmax := by decide

theorem ssbl_inside : bootSsblOfs + 4 ≤ bootFwImgmax := by decide

theorem os_inside : bootOsOfs + 4 ≤ bootFwImgmax := by decide

theorem ssbl_behind : rawprtDfltBlkSz ≤ bootSsblOfs := by decide

theorem os_behind : rawprtDfltBlkSz ≤ bootOsOfs := by decide

/-- `SBC_GenMigrationKey` returns a key exactly when its services are granted and the current bank's images are sound,
    and the key is then that of a new bank with the current bank's SSBL and kernel. -/
theorem returned_iff {e : Env} {disk : Handle → Store} {h : Handle} {c p : Nat} (hc : c = 1 ∨ c = 2)
    (digest : (e.sha256 e.hwInfo.bytes).length = hashLen) (k : Bytes) :
    (genMigrationKey (some h) c p e ⟨disk, []⟩).1 = .ok (.ok, k) ↔
      ReadsSucceed e ∧ Ready e (disk h) c ∧ k = key e (disk h) c c := by
  have message : e.sha256 e.hwInfo.bytes ++ e.sha256 (mbrImage (disk h) c bootFsblOfs) ++
      e.sha256 (mbrImage (disk h) c bootSsblOfs) ++ e.sha256 (mbrImage (disk h) c bootOsOfs) ++
      e.sha256 (mbrImage (disk h) c bootSsblOfs) ++ e.sha256 (mbrImage (disk h) c bootOsOfs) =
      keyMessage e (disk h) c c := by simp [keyMessage, images]
  have nonempty : (keyMessage e (disk h) c c).length ≠ 0 := by
    rw [keyMessage, map_cons, flatten_cons, length_append, digest, hashLen]
    omega
  rw [returned_iff_wp]
  simp only [genMigrationKey, reduceCtorEq, ↓reduceIte, wp_bind, wp_ask, wp_granted, wp_ite, wp_pure, wp_hashCompute,
    wp_rawPrtReadBlock_some, alignValue_bootFwImgmax, alignValue_sizeofPtr, if_neg blkSz_ne_zero,
    if_neg bootFwImgmax_ne_zero, bankStartAddr_eq hc, World.note_disk, hashMbrImage_stale (disk h) _ _ ssbl_behind,
    hashMbrImage_stale (disk h) _ _ os_behind, wp_hashMbrImage (disk h) fsbl_inside,
    wp_hashMbrImage (disk h) ssbl_inside, wp_hashMbrImage (disk h) os_inside, ne_eq, not_true_eq_false,
    not_false_eq_true, Prod.mk.injEq, false_and, true_and, if_false_left, if_false_right, Bool.not_eq_true',
    Bool.not_eq_false]
  rw [message]
  constructor
  · rintro ⟨pool₁, pool₂, pool₃, serials, read, fsbl, fsbl', ssbl, ssbl', os, os', read', -, -, -, -, -, rfl⟩
    exact ⟨⟨read, read'⟩, ⟨⟨pool₁, pool₂, pool₃⟩, ne_nil_of_length_pos (Nat.pos_of_ne_zero serials),
      ⟨fsbl, ne_nil_of_length_pos (Nat.pos_of_ne_zero fsbl')⟩,
      ⟨ssbl, ne_nil_of_length_pos (Nat.pos_of_ne_zero ssbl')⟩,
      ⟨os, ne_nil_of_length_pos (Nat.pos_of_ne_zero os')⟩⟩, rfl⟩
  · rintro ⟨⟨read, read'⟩, ⟨⟨pool₁, pool₂, pool₃⟩, serials, ⟨fsbl, fsbl'⟩, ⟨ssbl, ssbl'⟩, ⟨os, os'⟩⟩, rfl⟩
    rw [ne_eq, ← length_eq_zero_iff] at serials fsbl' ssbl' os'
    exact ⟨pool₁, pool₂, pool₃, serials, read, fsbl, fsbl', ssbl, ssbl', os, os', read', ssbl, ssbl', os, os', nonempty,
      rfl⟩

theorem key_eq_iff {e : Env} {d : Store} {c p p' : Nat}
    (free : CollisionFree e.sha256 hashLen {m | m ∈ keyMessages e d c p ++ keyMessages e d c p'}) :
    key e d c p = key e d c p' ↔
      mbrImage d p bootSsblOfs = mbrImage d p' bootSsblOfs ∧ mbrImage d p bootOsOfs = mbrImage d p' bootOsOfs := by
  have left : ∀ m ∈ keyMessages e d c p, m ∈ {m | m ∈ keyMessages e d c p ++ keyMessages e d c p'} :=
    fun _ hm => mem_append_left _ hm
  have right : ∀ m ∈ keyMessages e d c p', m ∈ {m | m ∈ keyMessages e d c p ++ keyMessages e d c p'} :=
    fun _ hm => mem_append_right _ hm
  have digests : keyMessage e d c p = keyMessage e d c p' ↔
      e.hwInfo.bytes :: images d c p = e.hwInfo.bytes :: images d c p' := by
    have skips {m hw : Bytes} {key : Bytes} {rest : List Bytes} (mem : m ∈ hw :: rest) : m ∈ hw :: key :: rest := by
      rcases mem_cons.mp mem with rfl | mem <;> simp [*]
    exact free.digests_eq_iff (by simp [images]) (fun m mem => left m (skips mem)) fun m mem => right m (skips mem)
  rw [key, key, free.digest_eq_iff (left _ (by simp [keyMessages])) (right _ (by simp [keyMessages])), digests]
  simp only [images, List.cons.injEq, true_and, and_true]

def Correct (e : Env) (disk : Handle → Store) (h : Handle) (c p : Nat) : Prop :=
  ReadsSucceed e → (genMigrationKey (some h) c p e ⟨disk, []⟩).1 = .ok (.ok, key e (disk h) c p)

theorem migrationKey_correct_iff (e : Env) (disk : Handle → Store) (h : Handle) (c p : Nat) (hc : c = 1 ∨ c = 2)
    (free : CollisionFree e.sha256 hashLen
      {m | m ∈ keyMessages e (disk h) c p ++ keyMessages e (disk h) c c}) :
    Correct e disk h c p ↔
      (ReadsSucceed e → Ready e (disk h) c ∧ mbrImage (disk h) p bootSsblOfs = mbrImage (disk h) c bootSsblOfs ∧
        mbrImage (disk h) p bootOsOfs = mbrImage (disk h) c bootOsOfs) := by
  have digest := free.length e.hwInfo.bytes (by simp [keyMessages])
  rw [Correct, returned_iff hc digest, key_eq_iff free]
  exact ⟨fun h reads => (h reads).2, fun h reads => ⟨reads, h reads⟩⟩

/-! ### An update whose firmware does not change the key -/

def sampleDisk (ssbl os : UInt8) : Handle → Store := fun _ i =>
  if i = 0x200 ∨ i = 0x400200 ∨ i = 0x800200 ∨ i = 0x8400200 ∨ i = 0x8800200 then 1
  else if i = 0x204 then 0x46 else if i = 0x400204 then 0x53 else if i = 0x800204 then 0x4B
  else if i = 0x8400204 then ssbl else if i = 0x8800204 then os else 0

theorem key_misses_new_ssbl : ¬Correct (Env.refusing []) (sampleDisk 0x54 0x4B) 0 1 2 := by
  intro correct
  have key := (returned_iff (.inl rfl) (by decide) _).mp (correct ⟨by decide, by decide⟩)
  exact absurd key.2.2 (by decide)

theorem key_of_unchanged_firmware : Correct (Env.refusing []) (sampleDisk 0x53 0x4B) 0 1 2 :=
  (migrationKey_correct_iff (Env.refusing []) (sampleDisk 0x53 0x4B) 0 1 2 (.inl rfl)
    (collisionFree_of_nodup (by decide) (by decide))).mpr fun _ =>
    ⟨⟨⟨by decide, by decide, by decide⟩, by decide, ⟨by decide, by decide⟩, ⟨by decide, by decide⟩,
      ⟨by decide, by decide⟩⟩, by decide, by decide⟩

end LeoEdk.Sbc.Migration
