import LeoEdk.Sbc.SystemControl
import LeoEdk.Sbc.SystemSettings

/-! What a store of the base answer changes of the system settings, and what a validation of it accepts. -/

namespace LeoEdk.Sbc

variable {iv tag encmsg : Bytes} {e : Env} {key : IdKey} {w w' : World} {h : Handle}

open Bytes Prog List

attribute [local irreducible] Prog.instMonad

/-- What is known of AES-GCM: the ciphertext is as long as the message, the tag has 16 bytes, and the IV has 12. -/
structure GcmLengths (e : Env) : Prop where
  iv : e.iv.length = baseAnsIvKeyStr
  encmsg : ∀ {key msg ct tag}, e.aesGcmEncrypt key msg = some (ct, tag) → ct.length = msg.length
  tag : ∀ {key msg ct tag}, e.aesGcmEncrypt key msg = some (ct, tag) → tag.length = baseAnsTagLen

def Stores (e : Env) (key : IdKey) : Prop :=
  (e.aesGcmEncrypt key e.baseAnswer).isSome ∧ e.granted .baseAnswerPool ∧ e.granted .baseAnswerRead ∧
    e.granted .baseAnswerWrite

def answerRecord (encmsg iv tag : Bytes) : Bytes :=
  leBytes 4 encmsg.length ++ encmsg ++ iv ++ tag ++ List.replicate 16 0

theorem length_answerRecord (encmsg : Bytes) (ivLength : iv.length = baseAnsIvKeyStr)
    (tagLength : tag.length = baseAnsTagLen) : (answerRecord encmsg iv tag).length = 48 + encmsg.length := by
  simp only [answerRecord, length_append, length_leBytes, length_replicate, ivLength, tagLength,
    baseAnsIvKeyStr, baseAnsTagLen]
  omega

theorem wp_baseAnswerEncryptStore_record (w : World) (h : Handle) (key : IdKey) (lengths : GcmLengths e)
    (short : e.baseAnswer.length ≤ baseAnsMaxLen) :
    wp (baseAnswerEncryptStore (some h) key) e
      (fun st w' => (st ≠ .ok ∧ ¬Stores e key) ∨
        st = .ok ∧ Stores e key ∧ ∃ encmsg tag, e.aesGcmEncrypt key e.baseAnswer = some (encmsg, tag) ∧
          w'.disk h = (w.disk h).write (sysConfStartOfs + sysConfResOfs) (answerRecord encmsg e.iv tag))
      (fun _ _ => False) w := by
  simp only [baseAnswerEncryptStore, wp_bind, wp_ask]
  cases enc : e.aesGcmEncrypt key e.baseAnswer with
  | none =>
    simp only [wp_pure]
    exact .inl ⟨by decide, by simp [Stores, enc]⟩
  | some pair =>
    obtain ⟨encmsg, tag⟩ := pair
    have size := length_answerRecord encmsg lengths.iv (lengths.tag enc)
    rw [lengths.encmsg enc] at size
    have fits : sysConfResOfs + (answerRecord encmsg e.iv tag).length ≤ 16896 := by
      rw [size, sysConfResOfs]
      rw [baseAnsMaxLen] at short
      omega
    have whole (d : Store) : (overwrite sysConfResOfs (answerRecord encmsg e.iv tag)
        (d.read sysConfStartOfs 16896)).length = 16896 := by
      rw [length_overwrite (by rwa [Store.length_read]), Store.length_read]
    have record : leBytes 4 encmsg.length ++ encmsg ++ e.iv ++ tag ++ List.replicate 16 0 =
      answerRecord encmsg e.iv tag :=
      rfl
    simp only [baseanswerStore, record, reduceCtorEq, ↓reduceIte, wp_bind, wp_granted, wp_ite, wp_pure,
      wp_rawPrtReadBlock_some, ne_eq, not_true_eq_false, not_false_eq_true, wp_rawPrtBlockWrite_some,
      settings_length, settings_offset, whole]
    split
    case isTrue pool => exact .inl ⟨trivial, fun stores => by simp_all [Stores]⟩
    case isFalse pool =>
      split
      case isFalse read => exact .inl ⟨trivial, fun stores => read stores.2.2.1⟩
      case isTrue read =>
        split
        case isFalse write => exact .inl ⟨trivial, fun stores => write ⟨stores.2.2.2, by decide⟩⟩
        case isTrue write =>
          refine .inr ⟨trivial, ⟨by simp [enc], by simpa using pool, read, write.1⟩, encmsg, tag, rfl, ?_⟩
          rw [World.write_disk_self, World.note_disk, World.note_disk, Store.write_overwrite_read _ _ fits]

/-! ### What a store changes -/

def sysConfRootCaOfs : Nat := 0x80

/-- Outside the slot of the base answer, the system settings are the same on both disks. -/
def FrameKept (d d' : Store) : Prop :=
  ∀ i < sysSettingStorageLen, ¬(sysConfResOfs ≤ i ∧ i < sysConfRootCaOfs) →
    d' (sysConfStartOfs + i) = d (sysConfStartOfs + i)

/-- Whatever the disk holds, a successful store of the answer stays inside the slot. -/
def StoreConfined (e : Env) (key : IdKey) (h : Handle) : Prop :=
  ∀ w w', baseAnswerEncryptStore (some h) key e w = (.ok .ok, w') → FrameKept (w.disk h) (w'.disk h)

theorem frameKept_of_length_le {d : Store} {record : Bytes} (short : record.length ≤ 64) :
    FrameKept d (d.write (sysConfStartOfs + sysConfResOfs) record) := by
  intro i _ outside
  rw [Store.write, if_neg]
  simp only [sysConfResOfs, sysConfRootCaOfs] at outside ⊢
  omega

theorem not_frameKept_of_long (ivLength : iv.length = baseAnsIvKeyStr)
    (tagLength : tag.length = baseAnsTagLen) (long : 16 < encmsg.length) (inside : encmsg.length ≤ baseAnsMaxLen) :
    ¬FrameKept (fun _ => 1) (Store.write (fun _ => 1) (sysConfStartOfs + sysConfResOfs)
      (answerRecord encmsg iv tag)) := by
  have size := length_answerRecord encmsg ivLength tagLength
  obtain ⟨front, zeros⟩ : ∃ front, answerRecord encmsg iv tag = front ++ [0] :=
    ⟨leBytes 4 encmsg.length ++ encmsg ++ iv ++ tag ++ List.replicate 15 0, by
      simp [answerRecord, replicate_succ']⟩
  have length : front.length = 47 + encmsg.length := by
    rw [zeros, length_append, length_singleton] at size
    omega
  intro kept
  have last := kept (sysConfResOfs + front.length)
    (by simp only [length, sysConfResOfs, sysSettingStorageLen, baseAnsMaxLen] at inside ⊢; omega)
    (by simp only [length, sysConfResOfs, sysConfRootCaOfs]; omega)
  have index : sysConfStartOfs + (sysConfResOfs + front.length) - (sysConfStartOfs + sysConfResOfs) = front.length := by
    omega
  rw [Store.write, if_pos (by omega), index, zeros, getD_eq_getElem?_getD, List.getElem?_concat_length] at last
  exact absurd last (by simp)

theorem exists_stored (w : World) (h : Handle) (lengths : GcmLengths e)
    (short : e.baseAnswer.length ≤ baseAnsMaxLen) (stores : Stores e key) :
    ∃ w' encmsg tag, baseAnswerEncryptStore (some h) key e w = (.ok .ok, w') ∧
      e.aesGcmEncrypt key e.baseAnswer = some (encmsg, tag) ∧
      w'.disk h = (w.disk h).write (sysConfStartOfs + sysConfResOfs) (answerRecord encmsg e.iv tag) := by
  obtain ⟨st, returned, outcome⟩ := exists_returned (wp_baseAnswerEncryptStore_record w h key lengths short)
  rcases outcome with ⟨-, refused⟩ | ⟨rfl, -, encmsg, tag, enc, disk⟩
  · exact absurd stores refused
  · exact ⟨_, encmsg, tag, Prod.ext returned rfl, enc, disk⟩

theorem disk_of_stored (lengths : GcmLengths e)
    (short : e.baseAnswer.length ≤ baseAnsMaxLen) (stored : baseAnswerEncryptStore (some h) key e w = (.ok .ok, w')) :
    Stores e key ∧ ∃ encmsg tag, e.aesGcmEncrypt key e.baseAnswer = some (encmsg, tag) ∧
      w'.disk h = (w.disk h).write (sysConfStartOfs + sysConfResOfs) (answerRecord encmsg e.iv tag) := by
  have outcome := wp_returned (wp_baseAnswerEncryptStore_record w h key lengths short) (congrArg Prod.fst stored)
  rw [Prog.final, stored] at outcome
  rcases outcome with ⟨failed, -⟩ | ⟨-, stores, left⟩
  · exact absurd rfl failed
  · exact ⟨stores, left⟩

theorem not_storeConfined_of_long (h : Handle) (lengths : GcmLengths e)
    (short : e.baseAnswer.length ≤ baseAnsMaxLen) (stores : Stores e key) (long : 16 < e.baseAnswer.length) :
    ¬StoreConfined e key h := by
  intro confined
  obtain ⟨w', encmsg, tag, stored, enc, disk⟩ := exists_stored ⟨fun _ _ => 1, []⟩ h lengths short stores
  have kept := confined _ _ stored
  rw [disk] at kept
  rw [← lengths.encmsg enc] at long short
  exact not_frameKept_of_long lengths.iv (lengths.tag enc) long short kept

/-- Whether a store stays inside the slot is a matter of the answer's length. -/
theorem storeConfined_iff {e : Env} {key : IdKey} {h : Handle} (lengths : GcmLengths e)
    (short : e.baseAnswer.length ≤ baseAnsMaxLen) :
    StoreConfined e key h ↔ (Stores e key → e.baseAnswer.length ≤ 16) := by
  constructor
  · intro confined stores
    by_contra long
    exact not_storeConfined_of_long h lengths short stores (Nat.lt_of_not_le long) confined
  · intro small w w' stored
    obtain ⟨stores, encmsg, tag, enc, disk⟩ := disk_of_stored lengths short stored
    have answer := small stores
    rw [disk]
    refine frameKept_of_length_le ?_
    rw [length_answerRecord encmsg lengths.iv (lengths.tag enc), lengths.encmsg enc]
    omega

def answering (answer : Bytes) : Env := { Env.refusing [] with baseAnswer := answer }

theorem gcmLengths_answering (answer : Bytes) : GcmLengths (answering answer) where
  iv := rfl
  encmsg enc := by
    cases enc
    rfl
  tag enc := by
    cases enc
    rfl

theorem stores_answering (answer : Bytes) (key : IdKey) : Stores (answering answer) key := ⟨rfl, rfl, rfl, rfl⟩

/-- An answer of one byte stays in its slot. -/
theorem storeConfined_one_byte : StoreConfined (answering [0x41]) .osid 0 :=
  (storeConfined_iff (gcmLengths_answering _) (by decide)).mpr fun _ => by decide

/-- An answer of seventeen bytes reaches the length of the root certificate. -/
theorem seventeen_bytes_spill : ¬StoreConfined (answering (List.replicate 17 0x41)) .osid 0 :=
  not_storeConfined_of_long 0 (gcmLengths_answering _) (by decide) (stores_answering _ _) (by decide)

/-! ### What a validation accepts -/

theorem extract_written {Key : Type} {f : SettingsEnv Key} (pool : f.pool) (read : f.read) (d : Store)
    (ivLength : iv.length = baseAnsIvKeyStr) (tagLength : tag.length = baseAnsTagLen) (nonempty : 0 < encmsg.length)
    (short : encmsg.length ≤ baseAnsMaxLen) :
    baseanswerExtractFromDisk f (d.write (sysConfStartOfs + sysConfResOfs) (answerRecord encmsg iv tag)) =
      .ok ⟨encmsg, iv, tag⟩ := by
  have size := length_answerRecord encmsg ivLength tagLength
  rw [baseanswerExtractFromDisk, SettingsEnv.load, settings_length, settings_offset]
  generalize stored : (d.write (sysConfStartOfs + sysConfResOfs) (answerRecord encmsg iv tag)).read sysConfStartOfs
    16896 = loadbuf
  have here : At loadbuf sysConfResOfs (answerRecord encmsg iv tag) := by
    rw [At, ← stored, Store.slice_read _ _ _ _ _ (by simp only [size, sysConfResOfs, baseAnsMaxLen] at short ⊢; omega),
      Store.read_write_self]
  simp only [answerRecord, at_append, length_append, length_leBytes, ivLength, ← Nat.add_assoc] at here
  obtain ⟨⟨⟨⟨length, message⟩, vector⟩, mark⟩, _⟩ := here
  simp [pool, read, bind, Except.bind, Nat.ne_of_gt nonempty, length.leNat_eq (short.trans_lt (by decide)),
    Nat.not_lt_of_le short, message.slice_eq rfl, vector.slice_eq ivLength, mark.slice_eq tagLength, pure, Except.pure]

/-- What the validation compares the candidate with: the answer, the zeros up to the end of `decbuf`, and the stack. -/
def paddedAnswer (stack : Store) (answer : Bytes) : Store := fun i =>
  if i < answer.length then answer.getD i 0 else if i < baseAnsStreamLen then 0 else stack i

theorem decbuf_eq {Key : Type} (f : SettingsEnv Key) {answer : Bytes} (short : answer.length ≤ baseAnsMaxLen) :
    f.decbuf answer = paddedAnswer f.stack answer := by
  rw [baseAnsMaxLen] at short
  have size : (overwrite 0 answer (List.replicate baseAnsStreamLen 0)).length = baseAnsStreamLen := by
    rw [length_overwrite (by rw [length_replicate, baseAnsStreamLen]; omega), length_replicate]
  funext i
  rw [SettingsEnv.decbuf, paddedAnswer, Store.write, size, overwrite, take_zero, nil_append, Nat.zero_add,
    Nat.zero_add, Nat.sub_zero, getD_eq_getElem?_getD, getD_eq_getElem?_getD, List.getElem?_append]
  by_cases inside : i < answer.length
  case pos =>
    have within : 0 ≤ i ∧ i < baseAnsStreamLen := ⟨Nat.zero_le i, by rw [baseAnsStreamLen]; omega⟩
    rw [if_pos within, if_pos inside, if_pos inside]
  case neg =>
    rw [if_neg inside, if_neg inside]
    by_cases within : i < baseAnsStreamLen
    · rw [if_pos ⟨Nat.zero_le i, within⟩, if_pos within, drop_replicate, List.getElem?_replicate]
      split <;> rfl
    · rw [if_neg (fun both => within both.2), if_neg within]

theorem validate_of_stored (lengths : GcmLengths e)
    (nonempty : 0 < e.baseAnswer.length) (short : e.baseAnswer.length ≤ baseAnsMaxLen)
    (stored : baseAnswerEncryptStore (some h) key e w = (.ok .ok, w')) {f : SettingsEnv IdKey} (pool : f.pool)
    (read : f.read) (decrypts : ∀ ct tag, e.aesGcmEncrypt key e.baseAnswer = some (ct, tag) →
      f.aesGcmDecrypt key e.iv ct tag = some e.baseAnswer) (candidate : Bytes) :
    baseAnswerValidate f (w'.disk h) (some candidate) key = .returned .ok ↔
      ∀ i < candidate.length, candidate.getD i 0 = paddedAnswer f.stack e.baseAnswer i := by
  obtain ⟨-, encmsg, tag, enc, disk⟩ := disk_of_stored lengths short stored
  have extracted : baseanswerExtractFromDisk f (w'.disk h) = .ok ⟨encmsg, e.iv, tag⟩ := by
    rw [disk]
    exact extract_written pool read _ lengths.iv (lengths.tag enc) (by rwa [lengths.encmsg enc])
      (by rwa [lengths.encmsg enc])
  simp only [baseAnswerValidate, extracted, decrypts _ _ enc, decbuf_eq f short]
  constructor
  · intro accepted i inside
    split at accepted
    case isTrue => cases accepted
    case isFalse same =>
      rw [not_not] at same
      conv_lhs => rw [← same]
      rw [Store.read_apply inside, Nat.zero_add]
  · intro same
    rw [if_neg (not_not.mpr ?_)]
    refine ext_getElem (Store.length_read ..) fun i inside inside' => ?_
    rw [Store.getElem_read, Nat.zero_add, ← same i inside', getD_eq_getElem?_getD, List.getElem?_eq_getElem inside',
      Option.getD_some]

/-- The validation tells a candidate from the stored answer if and only if it differs from it in one of its own
    bytes. -/
theorem validates_exactly_iff {e : Env} {w w' : World} {h : Handle} {key : IdKey} (lengths : GcmLengths e)
    (nonempty : 0 < e.baseAnswer.length) (short : e.baseAnswer.length ≤ baseAnsMaxLen)
    (stored : baseAnswerEncryptStore (some h) key e w = (.ok .ok, w')) {f : SettingsEnv IdKey} (pool : f.pool)
    (read : f.read) (decrypts : ∀ ct tag, e.aesGcmEncrypt key e.baseAnswer = some (ct, tag) →
      f.aesGcmDecrypt key e.iv ct tag = some e.baseAnswer) (candidate : Bytes) :
    (baseAnswerValidate f (w'.disk h) (some candidate) key = .returned .ok ↔ candidate = e.baseAnswer) ↔
      candidate = e.baseAnswer ∨ ∃ i < candidate.length, candidate.getD i 0 ≠ paddedAnswer f.stack e.baseAnswer i := by
  rw [validate_of_stored lengths nonempty short stored pool read decrypts]
  have self : ∀ i < e.baseAnswer.length, e.baseAnswer.getD i 0 = paddedAnswer f.stack e.baseAnswer i := by
    intro i inside
    rw [paddedAnswer, if_pos inside]
  constructor
  · intro exactly
    by_cases same : candidate = e.baseAnswer
    · exact .inl same
    · have differs := mt exactly.mp same
      simp only [not_forall, exists_prop] at differs
      exact .inr differs
  · rintro (rfl | ⟨i, inside, differs⟩)
    · exact ⟨fun _ => rfl, fun _ => self⟩
    · refine ⟨fun agrees => absurd (agrees i inside) differs, ?_⟩
      rintro rfl
      exact self

def answerReader : SettingsEnv IdKey where
  pool := true
  read := true
  aesGcmDecrypt _ _ ct _ := some ct
  stack _ := 0

theorem answerReader_decrypts (answer : Bytes) (ct tag : Bytes)
    (enc : (answering answer).aesGcmEncrypt .osid (answering answer).baseAnswer = some (ct, tag)) :
    answerReader.aesGcmDecrypt .osid (answering answer).iv ct tag = some (answering answer).baseAnswer := by
  cases enc
  rfl

/-- Another answer of the same length is told from the stored one. -/
theorem validates_other_byte :
    ∃ w', baseAnswerEncryptStore (some 0) .osid (answering [0x41]) ⟨fun _ _ => 0, []⟩ = (.ok .ok, w') ∧
    (baseAnswerValidate answerReader (w'.disk 0) (some [0x42]) .osid = .returned .ok ↔
      [0x42] = (answering [0x41]).baseAnswer) := by
  obtain ⟨w', -, -, stored, -⟩ :=
    exists_stored ⟨fun _ _ => 0, []⟩ 0 (gcmLengths_answering [0x41]) (by decide) (stores_answering [0x41] .osid)
  refine ⟨w', stored, (validates_exactly_iff (gcmLengths_answering [0x41]) (by decide) (by decide) stored rfl rfl
    (answerReader_decrypts [0x41]) [0x42]).mpr (.inr ⟨0, by decide, by decide⟩)⟩

/-- The first byte of a stored answer of two bytes is accepted in its place. -/
theorem first_byte_accepted : ∃ w', baseAnswerEncryptStore (some 0) .osid (answering [0x41, 0x42]) ⟨fun _ _ => 0, []⟩ =
    (.ok .ok, w') ∧ baseAnswerValidate answerReader (w'.disk 0) (some [0x41]) .osid = .returned .ok ∧
      [0x41] ≠ (answering [0x41, 0x42]).baseAnswer := by
  obtain ⟨w', -, -, stored, -⟩ :=
    exists_stored ⟨fun _ _ => 0, []⟩ 0 (gcmLengths_answering [0x41, 0x42]) (by decide) (stores_answering _ .osid)
  refine ⟨w', stored, (validate_of_stored (gcmLengths_answering _) (by decide) (by decide) stored rfl rfl
    (answerReader_decrypts _) [0x41]).mpr (by decide), by decide⟩

end LeoEdk.Sbc
