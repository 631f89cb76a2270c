import LeoEdk.Sbc.FsblVerify

/-! Which files keep `SBC_FSBL_Verify` inside its buffer; no length is checked against another. -/

namespace LeoEdk.Sbc

open Bytes Prog

variable {PublicKey : Type}

def trailerOf (content : Bytes) : FsblBsinfo :=
  .ofBytes (slice (content.length - fsblBnifoSize) fsblBnifoSize content)

/-- The file's length is a `UINT32`, and the trailer with the parts it announces is not longer than the file. -/
def PartsFit (content : Bytes) : Prop :=
  content.length < 2 ^ 32 ∧ fsblBnifoSize + (trailerOf content).len ≤ content.length

instance (content : Bytes) : Decidable (PartsFit content) := inferInstanceAs (Decidable (_ ∧ _))

theorem FsblBsinfo.len_ofBytes_lt (bs : Bytes) : (FsblBsinfo.ofBytes bs).len < 2 ^ 17 := by
  have byte (ofs : Nat) : leNat (slice ofs 1 bs) < 256 ^ 1 :=
    (leNat_lt _).trans_le (Nat.pow_le_pow_right (by norm_num) (List.length_take_le ..))
  have word : leNat (slice 2 2 bs) < 256 ^ 2 :=
    (leNat_lt _).trans_le (Nat.pow_le_pow_right (by norm_num) (List.length_take_le ..))
  have sig := byte 0
  have fw := byte 1
  have base := byte 4
  simp only [FsblBsinfo.len, FsblBsinfo.ofBytes]
  omega

/-! ### Pointers into the buffer -/

def Range.Inside (r : Range) (size : Nat) : Prop := r.offset + r.length ≤ size

instance (r : Range) (size : Nat) : Decidable (r.Inside size) := inferInstanceAs (Decidable (_ ≤ _))

/-- The ranges the verifier points to before it knows whether the certificate has a key. -/
def partRanges (lastOfFsbl : Nat) (bsinfo : FsblBsinfo) (info : PartOffsets) : List Range :=
  [⟨lastOfFsbl, fsblBnifoSize⟩, ⟨info.baseansw, bsinfo.banswlen⟩, ⟨info.fwinfo, bsinfo.fwinfolen⟩,
    ⟨info.certi, bsinfo.certlen⟩, ⟨info.signature, bsinfo.siglen⟩]

theorem wp_fsblVerifyParts (e : VerifyEnv PublicKey) (memory : Store) (lastOfFsbl : Nat) (bsinfo : FsblBsinfo)
    (info : PartOffsets) (w : List Range) :
    wp (fsblVerifyParts memory lastOfFsbl bsinfo info) e
      (fun _ w' => w' = w ++ partRanges lastOfFsbl bsinfo info ∨
        w' = w ++ partRanges lastOfFsbl bsinfo info ++ [⟨0, info.fsblLen⟩])
      (fun _ _ => False) w := by
  simp only [fsblVerifyParts, point, wp_bind, wp_modify, wp_ask]
  split
  case h_1 => simp [partRanges]
  case h_2 key found =>
    simp only [wp_bind, wp_modify, wp_ask, wp_ite, wp_pure]
    -- The hashed prefix has been pointed to, whatever the signature check says.
    split
    case isTrue => simp [partRanges]
    case isFalse => split <;> simp [partRanges]

/-- The ranges of a run over the given content: the read itself, the trailer and the parts, and the hashed prefix if the
    certificate has a key. -/
def Formed (memory : Store) (content : Bytes) (w : List Range) : Prop :=
  let length := content.length % 2 ^ 32
  let bsinfo := trailerAt length (memory.write 0 content)
  let ranges := ⟨0, content.length⟩ :: partRanges (sub32 length fsblBnifoSize) bsinfo (partOffsets length bsinfo)
  w = ranges ∨ w = ranges ++ [⟨0, (partOffsets length bsinfo).fsblLen⟩]

theorem wp_fsblVerifyBuffer (e : VerifyEnv PublicKey) (content : Bytes) :
    wp (fsblVerifyBuffer (content.length % 2 ^ 32) (e.memory.write 0 content)) e
      (fun _ w => Formed e.memory content w) (fun _ _ => False) [⟨0, content.length⟩] :=
  wp_fsblVerifyParts e ..

theorem wp_fsblVerify (e : VerifyEnv PublicKey) : wp fsblVerify e
      (fun r w => (e.content? = none ∧ r.1 ≠ .ok ∧ w = []) ∨
        ∃ content, e.content? = some content ∧ Formed e.memory content w)
      (fun _ _ => False) [] := by
  simp only [fsblVerify, wp_bind, wp_ask]
  split
  case h_1 none =>
    exact .inl ⟨by simp [VerifyEnv.content?, none], by decide, rfl⟩
  case h_2 file found =>
    simp only [wp_bind, wp_ask, wp_ite, wp_pure, point, wp_modify]
    split
    case isTrue closed => exact .inl ⟨by simp_all [VerifyEnv.content?], by decide, trivial⟩
    case isFalse opened =>
      split
      case isTrue pool => exact .inl ⟨by simp_all [VerifyEnv.content?], by decide, trivial⟩
      case isFalse pool =>
        split
        case isTrue unread => exact .inl ⟨by simp_all [VerifyEnv.content?], by decide, trivial⟩
        case isFalse reads =>
          have content : e.content? = some (file.take (if e.granted .sizeInfo then file.length else 0)) := by
            simp_all [VerifyEnv.content?]
            split <;> simp
          have size : (file.take (if e.granted .sizeInfo then file.length else 0)).length =
              if e.granted .sizeInfo then file.length else 0 := by
            split <;> simp
          have run := wp_fsblVerifyBuffer e (file.take (if e.granted .sizeInfo then file.length else 0))
          rw [size] at run
          exact wp_mono (fun _ _ formed => .inr ⟨_, content, formed⟩) (fun _ _ stop => stop) run

/-! ### Where the offsets lie -/

theorem sub32_of_le {a b : Nat} (le : b ≤ a) (lt : a < 2 ^ 32) : sub32 a b = a - b := by
  rw [sub32]
  omega

theorem le_sub32_of_lt {a b : Nat} (lt : a < b) (small : b < 2 ^ 32) : 2 ^ 32 - b ≤ sub32 a b := by
  rw [sub32]
  omega

theorem trailerAt_eq (memory : Store) {content : Bytes} (short : content.length < 2 ^ 32)
    (long : fsblBnifoSize ≤ content.length) :
    trailerAt content.length (memory.write 0 content) = trailerOf content := by
  have inside : content.length - fsblBnifoSize + fsblBnifoSize ≤ content.length := by omega
  have read := Store.read_write_within memory 0 inside
  rw [Nat.zero_add] at read
  rw [trailerAt, trailerOf, sub32_of_le long short, read]

theorem formed_inside {memory : Store} {content : Bytes} {w : List Range} (formed : Formed memory content w)
    (fits : PartsFit content) : ∀ r ∈ w, r.Inside (content.length % 2 ^ 32) := by
  obtain ⟨short, room⟩ := fits
  have trailer := trailerAt_eq memory short (Nat.le_of_add_right_le room)
  rw [Formed, Nat.mod_eq_of_lt short, trailer] at formed
  rw [Nat.mod_eq_of_lt short]
  have last : sub32 content.length fsblBnifoSize = content.length - fsblBnifoSize :=
    sub32_of_le (Nat.le_of_add_right_le room) short
  have start : sub32 (content.length - fsblBnifoSize) (trailerOf content).len =
      content.length - fsblBnifoSize - (trailerOf content).len := sub32_of_le (by omega) (by omega)
  -- The parts follow one another up to the trailer.
  simp only [partRanges, partOffsets, last, start] at formed
  simp only [FsblBsinfo.len] at formed room
  rcases formed with rfl | rfl <;> simp [Range.Inside] <;> omega

theorem formed_outside {memory : Store} {content : Bytes} {w : List Range} (formed : Formed memory content w)
    (unfit : ¬PartsFit content) : ∃ r ∈ w, ¬r.Inside (content.length % 2 ^ 32) := by
  rw [PartsFit, not_and] at unfit
  have ranges : ∀ r ∈ ⟨0, content.length⟩ :: partRanges (sub32 (content.length % 2 ^ 32) fsblBnifoSize)
      (trailerAt (content.length % 2 ^ 32) (memory.write 0 content))
      (partOffsets (content.length % 2 ^ 32) (trailerAt (content.length % 2 ^ 32) (memory.write 0 content))),
        r ∈ w := by
    intro r mem
    rcases formed with rfl | rfl
    · exact mem
    · exact List.mem_append_left _ mem
  rcases Nat.lt_or_ge content.length (2 ^ 32) with short | long
  case inr =>
    -- The whole file is read into a buffer for the low half of its length.
    refine ⟨_, ranges _ List.mem_cons_self, ?_⟩
    simp only [Range.Inside]
    omega
  rw [Nat.mod_eq_of_lt short] at ranges ⊢
  rcases Nat.lt_or_ge content.length fsblBnifoSize with empty | room
  case inl =>
    refine ⟨⟨sub32 content.length fsblBnifoSize, fsblBnifoSize⟩, ranges _ (by simp [partRanges]), ?_⟩
    have far := le_sub32_of_lt empty (by decide)
    simp only [Range.Inside, fsblBnifoSize] at far ⊢ empty
    omega
  case inr =>
    rw [trailerAt_eq memory short room] at ranges
    refine ⟨_, ranges _ (List.mem_cons_of_mem _ (List.mem_cons_of_mem _ List.mem_cons_self)), ?_⟩
    have bound := FsblBsinfo.len_ofBytes_lt (slice (content.length - fsblBnifoSize) fsblBnifoSize content)
    rw [← trailerOf] at bound
    have large := unfit short
    have far := le_sub32_of_lt (show content.length - fsblBnifoSize < (trailerOf content).len by omega) (by omega)
    simp only [Range.Inside, partOffsets, sub32_of_le room short]
    rw [fsblBnifoSize] at *
    omega

def VerifyEnv.bufferSize (e : VerifyEnv PublicKey) : Nat := (e.content?.getD []).length % 2 ^ 32

/-- Every range lies in the buffer, and a file whose parts do not fit is rejected. -/
def Confined (e : VerifyEnv PublicKey) : Prop :=
  wp fsblVerify e
    (fun r w => (∀ x ∈ w, x.Inside e.bufferSize) ∧ ∀ content, e.content? = some content → ¬PartsFit content → r.1 ≠ .ok)
    (fun _ _ => False) []

/-- The verifier stays in its buffer if and only if the file it reads has room for the trailer and for the parts the
    trailer announces. -/
theorem confined_iff (e : VerifyEnv PublicKey) :
    Confined e ↔ ∀ content, e.content? = some content → PartsFit content := by
  refine wp_iff_of_wp (wp_fsblVerify e) ?_ fun _ _ stop => stop.elim
  rintro r w (⟨unread, refused, rfl⟩ | ⟨content, found, formed⟩)
  · simp [unread]
  have size : e.bufferSize = content.length % 2 ^ 32 := by rw [VerifyEnv.bufferSize, found, Option.getD_some]
  simp only [found, size, Option.some.injEq, forall_eq']
  constructor
  · rintro ⟨inside, -⟩
    by_contra unfit
    obtain ⟨x, mem, outside⟩ := formed_outside formed unfit
    exact outside (inside x mem)
  · intro fits
    exact ⟨formed_inside formed fits, fun unfit => absurd fits unfit⟩

def VerifyEnv.sample (file : Bytes) : VerifyEnv Unit where
  fileSystems := 1
  fsblFile _ := some file
  granted _ := true
  memory _ := 0
  hashValue := List.replicate 256 0
  sha256 _ := some (List.replicate 32 0)
  ecGetPublicKeyFromX509 _ := none
  ecDsaVerify _ _ _ := false

/-- For an empty file the trailer is looked for at the end of the 32-bit range. -/
theorem empty_file_unconfined : ¬Confined (VerifyEnv.sample []) := by
  intro confined
  have inside : ∀ x ∈ fsblVerify.final (VerifyEnv.sample []) [], x.Inside (VerifyEnv.sample []).bufferSize :=
    wp_final.mp (wp_mono (fun _ _ within => within.1) (fun _ _ stop => stop.elim) confined)
  exact absurd inside (by decide)

end LeoEdk.Sbc
