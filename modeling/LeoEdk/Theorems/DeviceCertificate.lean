import LeoEdk.Sbc.SystemSettings

/-!
The check of the device certificate. The buffer for the certificate's key is passed with the size 0, so the key is never
fetched; if it were, the two keys would be compared in different encodings.
-/

namespace LeoEdk.Sbc

open Bytes List

variable {Key : Type}

def seedKey (curve : Curve) (devid : Bytes) : Option EcKey :=
  (seedPoint curve devid).map fun point => ⟨256, point.1, point.2, by decide⟩

/-- The public key in the certificate that the disk holds, decrypted with the given key. -/
def certificateKey (e : DeviceEnv Key) (disk : Store) (deckey : Key) : Option EcKey :=
  match e.load disk with
  | .error _ => none
  | .ok loadbuf => (decryptDevidCrt e.toSettingsEnv loadbuf deckey).bind e.ecGetPublicKeyFromX509

def SameKey (e : DeviceEnv Key) (disk : Store) (devid : Bytes) (deckey : Key) : Prop :=
  ∃ key, certificateKey e disk deckey = some key ∧ seedKey e.curve devid = some key

theorem load_error_ne_ok {e : SettingsEnv Key} {disk : Store} {ending : Ending} (failed : e.load disk = .error ending) :
    ending ≠ .returned .ok := by
  rw [SettingsEnv.load] at failed
  rintro rfl
  split at failed
  · cases failed
  · split at failed <;> cases failed

theorem ecGetPubKey_zero (pool : Bool) (key : EcKey) : ecGetPubKey pool key 0 = none := by
  have := key.degree_pos
  rw [ecGetPubKey, if_pos]
  omega

theorem deviceIdKyeVerify_ne_ok (e : DeviceEnv Key) (disk : Store) (devid : Bytes) (deckey : Key) :
    deviceIdKyeVerify e disk devid deckey ≠ .returned .ok := by
  rw [deviceIdKyeVerify]
  split
  case h_1 => decide
  case h_2 q derived =>
    split
    case h_1 ending failed => exact load_error_ne_ok failed
    case h_2 loadbuf loaded =>
      simp only
      split
      case isTrue => decide
      case isFalse =>
        split
        case isTrue => decide
        case isFalse =>
          split
          case h_1 => decide
          case h_2 der decrypted =>
            split
            case isTrue => decide
            case isFalse =>
              split
              case h_1 => decide
              case h_2 ctx parsed => simp [ecGetPubKey_zero]

/-- The verification says whether the keys are the same if and only if they are not. -/
theorem device_exact_iff (e : DeviceEnv Key) (disk : Store) (devid : Bytes) (deckey : Key) :
    (deviceIdKyeVerify e disk devid deckey = .returned .ok ↔ SameKey e disk devid deckey) ↔
      ¬SameKey e disk devid deckey := by
  constructor
  · intro exactly same
    exact deviceIdKyeVerify_ne_ok e disk devid deckey (exactly.mpr same)
  · intro other
    exact iff_of_false (deviceIdKyeVerify_ne_ok e disk devid deckey) other

def DeviceEnv.sample : DeviceEnv Unit where
  pool := true
  read := true
  aesGcmDecrypt _ _ ct _ := some ct
  stack _ := 0
  curve := ⟨1, fun _ => some (1, 1), by rintro - x y ⟨⟩; decide⟩
  seedPool := true
  pubKeyPool := true
  ecGetPublicKeyFromX509 _ := some ⟨256, 1, 1, by decide⟩

def certificateDisk : Store := fun i => if i = sysConfStartOfs + sysConfDevidCrtOfs then 1 else 0

/-- The certificate has the key of the seed, and is refused. -/
theorem same_key_refused : SameKey DeviceEnv.sample certificateDisk [] () ∧
    deviceIdKyeVerify DeviceEnv.sample certificateDisk [] () ≠ .returned .ok := by
  refine ⟨⟨⟨256, 1, 1, by decide⟩, ?_, rfl⟩, deviceIdKyeVerify_ne_ok _ _ _ _⟩
  have loaded : DeviceEnv.sample.load certificateDisk = .ok (certificateDisk.read sysConfStartOfs 16896) := by
    rw [SettingsEnv.load, settings_length, settings_offset]
    rfl
  have calen : devidCrtLen (certificateDisk.read sysConfStartOfs 16896) = 1 := by
    rw [devidCrtLen, Store.slice_read _ _ _ _ _ (by decide)]
    decide
  simp only [certificateKey, loaded, decryptDevidCrt, calen, Store.length_read]
  rfl

/-! ### The two encodings -/

theorem bnBin_cons {n : Nat} (pos : 0 < n) : ∃ b bs, bnBin n = b :: bs ∧ b ≠ 0 := by
  have nonempty : Nat.digits 256 n ≠ [] := Nat.digits_ne_nil_iff_ne_zero.mpr (Nat.ne_of_gt pos)
  obtain ⟨low, top, split⟩ := (eq_nil_or_concat' (Nat.digits 256 n)).resolve_left nonempty
  have small : top < 256 := Nat.digits_lt_base (by decide) (show top ∈ Nat.digits 256 n by simp [split])
  have last := Nat.getLast_digit_ne_zero 256 (Nat.ne_of_gt pos)
  simp only [split, getLast_append_singleton] at last
  refine ⟨UInt8.ofNat top, (low.map UInt8.ofNat).reverse, by simp [bnBin, split], ?_⟩
  intro zero
  have value := congrArg UInt8.toNat zero
  rw [UInt8.toNat_ofNat_of_lt' small] at value
  exact last value

theorem front_eq_end_iff {bs : Bytes} {b : UInt8} (nonzero : b ≠ 0) (n : Nat) :
    b :: bs ++ List.replicate n 0 = List.replicate n 0 ++ b :: bs ↔ n = 0 := by
  constructor
  · intro same
    rcases n with - | n
    · rfl
    · rw [replicate_succ, cons_append, cons_append, List.cons.injEq] at same
      exact absurd same.1 nonzero
  · rintro rfl
    simp

theorem field_eq_iff {n : Nat} (nonzero : (bnBin n).length ≠ 0) (short : (bnBin n).length ≤ 32) :
    List.replicate (32 - (bnBin n).length) 0 ++ bnBin n = bnBin n ++ List.replicate (32 - (bnBin n).length) 0 ↔
      (bnBin n).length = 32 := by
  have pos : 0 < n := by
    rcases n with - | n
    · exact absurd rfl nonzero
    · exact n.succ_pos
  obtain ⟨b, bs, digits, top⟩ := bnBin_cons pos
  rw [eq_comm, digits, front_eq_end_iff top, ← digits]
  omega

theorem length_bnBin_le {n : Nat} (small : n < 256 ^ 32) : (bnBin n).length ≤ 32 := by
  rw [bnBin, length_reverse, length_map]
  exact (Nat.digits_length_le_iff (by decide) n).mpr small

theorem seed_encoding {a b : Bytes} (ha : a.length ≤ 32) (hb : b.length ≤ 32) :
    overwrite 32 b (overwrite 0 a (List.replicate 64 0)) =
      (a ++ List.replicate (32 - a.length) 0) ++ (b ++ List.replicate (32 - b.length) 0) := by
  have first := overwrite_zeros [] ha (List.replicate 32 0)
  have second := overwrite_zeros (a ++ List.replicate (32 - a.length) 0) hb []
  rw [replicate_append_replicate, nil_append, nil_append] at first
  rw [length_append, length_replicate, Nat.add_sub_cancel' ha, append_nil, append_nil] at second
  rw [← second, ← first]
  rfl

theorem pubKey_encoding {a b : Bytes} (ha : a.length ≤ 32) (hb : b.length ≤ 32) :
    overwrite (32 + 32 - b.length) b (overwrite (32 - a.length) a (List.replicate (32 * 2) 0)) =
      (List.replicate (32 - a.length) 0 ++ a) ++ (List.replicate (32 - b.length) 0 ++ b) := by
  have first := overwrite_zeros (List.replicate (32 - a.length) 0) (le_refl a.length) (List.replicate 32 0)
  rw [replicate_append_replicate, replicate_append_replicate, length_replicate, Nat.sub_self,
    replicate_zero, append_nil, ← append_assoc] at first
  have halves : List.replicate 32 (0 : UInt8) = List.replicate (32 - b.length) 0 ++
      (List.replicate b.length 0 ++ []) := by
    rw [append_nil, replicate_append_replicate, Nat.sub_add_cancel hb]
  have second := overwrite_zeros (List.replicate (32 - a.length) 0 ++ a ++ List.replicate (32 - b.length) 0)
    (le_refl b.length) []
  rw [append_assoc _ (List.replicate (32 - b.length) 0), ← halves, length_append, length_append,
    length_replicate, length_replicate, Nat.sub_add_cancel ha, Nat.sub_self, replicate_zero,
    append_nil, append_nil, append_assoc _ (List.replicate (32 - b.length) 0),
    ← Nat.add_sub_assoc hb] at second
  rw [show 32 * 2 = 32 - a.length + (a.length + 32) by omega, first, second]

/-- If it were fetched, the certificate's key would equal the derived one only without leading zeros. -/
theorem encodings_agree_iff {e : DeviceEnv Key} {devid q : Bytes} {x y : Nat}
    (point : seedPoint e.curve devid = some (x, y)) (derived : diceSeedKeyPair e devid = .ok q) :
    ecGetPubKey true ⟨256, x, y, by decide⟩ 64 = some q ↔ (bnBin x).length = 32 ∧ (bnBin y).length = 32 := by
  obtain ⟨hx, hy⟩ := e.curve.coordinate_lt _ x y point
  have lengthX := length_bnBin_le hx
  have lengthY := length_bnBin_le hy
  rw [diceSeedKeyPair, point] at derived
  split at derived
  · cases derived
  simp only at derived
  split at derived
  · cases derived
  case isFalse nonzero =>
    rw [not_or] at nonzero
    have fetched : ecGetPubKey true ⟨256, x, y, by decide⟩ 64 = some (overwrite (32 + 32 - (bnBin y).length) (bnBin y)
        (overwrite (32 - (bnBin x).length) (bnBin x) (List.replicate (32 * 2) 0))) := by
      simp [ecGetPubKey, nonzero]
    rw [fetched, Option.some.injEq, pubKey_encoding lengthX lengthY, ← Except.ok.inj derived,
      seed_encoding lengthX lengthY, ← field_eq_iff nonzero.1 lengthX, ← field_eq_iff nonzero.2 lengthY]
    constructor
    · intro same
      exact append_inj same (by simp [Nat.add_comm])
    · rintro ⟨first, second⟩
      rw [first, second]

theorem encodings_differ_sample : ∃ q, diceSeedKeyPair DeviceEnv.sample [] = .ok q ∧
    ecGetPubKey true ⟨256, 1, 1, by decide⟩ 64 ≠ some q := by
  have derived : diceSeedKeyPair DeviceEnv.sample [] = .ok _ := rfl
  exact ⟨_, derived, fun same => absurd ((encodings_agree_iff rfl derived).mp same).1 (by decide)⟩

end LeoEdk.Sbc
