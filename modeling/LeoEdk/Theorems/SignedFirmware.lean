import LeoEdk.FwSign.Images
import LeoEdk.Sbc.Trailer

/-! Where the signer and the verifier of the FSBL file agree on its parts. -/

namespace LeoEdk.FwSign

open Bytes Sbc List

def Ascii (s : String) : Prop := ∀ c ∈ s.toList, c.val ≤ 127

theorem length_flatMap_utf8 (cs : List Char) : cs.length ≤ (cs.flatMap String.utf8EncodeChar).length := by
  induction cs with
  | nil => exact le_refl _
  | cons c cs ih =>
    have pos := c.utf8Size_pos
    rw [flatMap_cons, length_append, String.length_utf8EncodeChar, length_cons]
    omega

theorem length_le_encode (s : String) : s.length ≤ (encode s).length := by
  rw [← String.length_toList]
  exact length_flatMap_utf8 s.toList

theorem length_encode_iff (s : String) : (encode s).length = s.length ↔ Ascii s := by
  rw [← String.length_toList, encode, Ascii]
  induction s.toList with
  | nil => simp
  | cons c cs ih =>
    have pos := c.utf8Size_pos
    have rest := length_flatMap_utf8 cs
    rw [flatMap_cons, length_append, String.length_utf8EncodeChar, length_cons, forall_mem_cons,
      ← ih, ← Char.utf8Size_eq_one_iff]
    omega

variable {baseAnswer fwInfo : String} {content certibytes signature file : Bytes}

def trailer (baseAnswer fwInfo : String) (certibytes signature : Bytes) : Bytes :=
  [UInt8.ofNat signature.length, UInt8.ofNat fwInfo.length] ++ leBytes 2 certibytes.length ++
    [UInt8.ofNat baseAnswer.length, 1, 35, 36]

structure Accepted (baseAnswer fwInfo : String) (certibytes signature : Bytes) : Prop where
  signature : signature.length ≤ 127
  fwInfo : fwInfo.length ≤ 127
  certificate : certibytes.length ≤ 32767
  baseAnswer : baseAnswer.length ≤ 127

def body (baseAnswer fwInfo : String) (certibytes signature : Bytes) : Bytes :=
  encode baseAnswer ++ (encode fwInfo ++ (certibytes ++ signature))

theorem makeFsblImage_eq_some : makeFsblImage baseAnswer fwInfo content certibytes signature = some file ↔
      Accepted baseAnswer fwInfo certibytes signature ∧
        file = content ++ body baseAnswer fwInfo certibytes signature ++
          trailer baseAnswer fwInfo certibytes signature := by
  simp only [makeFsblImage, arrayB, arrayH, forall_mem_cons, map_cons, map_nil,
    flatMap_cons, flatMap_nil, Option.bind_eq_bind, Option.bind_eq_some_iff, Option.ite_none_right_eq_some,
    Option.pure_def, Option.some.injEq]
  constructor
  · rintro ⟨_, ⟨⟨sig, fw, -⟩, rfl⟩, _, ⟨⟨cert, -⟩, rfl⟩, _, ⟨⟨base, -⟩, rfl⟩, rfl⟩
    exact ⟨⟨sig, fw, cert, base⟩, by simp [body, trailer]⟩
  · rintro ⟨⟨sig, fw, cert, base⟩, rfl⟩
    exact ⟨_, ⟨⟨sig, fw, nofun⟩, rfl⟩, _, ⟨⟨cert, nofun⟩, rfl⟩, _,
      ⟨⟨base, by decide, by decide, by decide, nofun⟩, rfl⟩, by simp [body, trailer]⟩

theorem ofBytes_trailer (accepted : Accepted baseAnswer fwInfo certibytes signature) :
    FsblBsinfo.ofBytes (trailer baseAnswer fwInfo certibytes signature) =
      ⟨signature.length, fwInfo.length, certibytes.length, baseAnswer.length, 1, 35, 36⟩ := by
  obtain ⟨sig, fw, cert, base⟩ := accepted
  have cut : ∀ n, n ≤ 127 → (UInt8.ofNat n).toNat = n := by
    intro n small
    rw [UInt8.toNat_ofNat', Nat.mod_eq_of_lt (by omega)]
  have width : leNat (leBytes 2 certibytes.length) = certibytes.length := leNat_leBytes_of_lt (by omega)
  have parts : leBytes 2 certibytes.length =
      [UInt8.ofNat certibytes.length, UInt8.ofNat (certibytes.length / 256)] := rfl
  rw [parts] at width
  simp [FsblBsinfo.ofBytes, trailer, parts, slice, cut _ sig, cut _ fw, cut _ base] at width ⊢
  exact width

theorem fsblParts_append {front tr : Bytes} {info : FsblBsinfo} (decoded : FsblBsinfo.ofBytes tr = info)
    (size : tr.length = fsblBnifoSize) (short : front.length + fsblBnifoSize < 2 ^ 32)
    (fits : info.len ≤ front.length) :
    fsblParts (front ++ tr) = some {
      fsbl := front.take (front.length - info.len)
      baseansw := slice 0 info.banswlen (front.drop (front.length - info.len))
      fwinfo := slice info.banswlen info.fwinfolen (front.drop (front.length - info.len))
      certi := slice (info.banswlen + info.fwinfolen) info.certlen (front.drop (front.length - info.len))
      signature := slice (info.banswlen + info.fwinfolen + info.certlen) info.siglen
        (front.drop (front.length - info.len)) } := by
  have total : (front ++ tr).length = front.length + fsblBnifoSize := by rw [length_append, size]
  have last : slice (front.length + fsblBnifoSize - fsblBnifoSize) fsblBnifoSize (front ++ tr) = tr := by
    rw [Nat.add_sub_cancel, slice_append_right _ _ (le_refl _), Nat.sub_self, slice_zero_of_length size]
  have inside : (front.drop (front.length - info.len)).length =
      info.siglen + info.fwinfolen + info.certlen + info.banswlen := by
    rw [length_drop, ← FsblBsinfo.len, Nat.sub_sub_self fits]
  rw [fsblParts, total, if_neg (by omega), last, decoded]
  simp only [Nat.add_sub_cancel]
  rw [if_neg (by omega), drop_append_of_le_length (Nat.sub_le ..), take_append_of_le_length (Nat.sub_le ..),
    slice_append_left _ (by omega), slice_append_left _ (by omega), slice_append_left _ (by omega),
    slice_append_left _ (by omega)]

/-- The verifier finds in the signer's file the firmware that was signed and the parts behind it. -/
def RoundTrips (baseAnswer fwInfo : String) (content certibytes signature file : Bytes) : Prop :=
  fsblParts file = some ⟨content, encode baseAnswer, encode fwInfo, certibytes, signature⟩

theorem slice_body {a b : Nat} (ha : (encode baseAnswer).length = a) (hb : (encode fwInfo).length = b) :
    slice 0 a (body baseAnswer fwInfo certibytes signature) = encode baseAnswer ∧
      slice a b (body baseAnswer fwInfo certibytes signature) = encode fwInfo ∧
      slice (a + b) certibytes.length (body baseAnswer fwInfo certibytes signature) = certibytes ∧
      slice (a + b + certibytes.length) signature.length (body baseAnswer fwInfo certibytes signature) = signature := by
  have here : At (body baseAnswer fwInfo certibytes signature) 0 _ := at_self _
  rw [body, at_append, at_append, at_append, ha, hb, Nat.zero_add] at here
  exact ⟨here.1.slice_eq ha, here.2.1.slice_eq hb, here.2.2.1.slice_eq rfl, here.2.2.2.slice_eq rfl⟩

theorem signedFirmware_roundTrips_iff (baseAnswer fwInfo : String) (content certibytes signature file : Bytes)
    (signed : makeFsblImage baseAnswer fwInfo content certibytes signature = some file) :
    RoundTrips baseAnswer fwInfo content certibytes signature file ↔
      Ascii baseAnswer ∧ Ascii fwInfo ∧ file.length < 2 ^ 32 := by
  obtain ⟨accepted, rfl⟩ := makeFsblImage_eq_some.mp signed
  have decoded := ofBytes_trailer accepted
  have base := length_le_encode baseAnswer
  have fw := length_le_encode fwInfo
  have size : (trailer baseAnswer fwInfo certibytes signature).length = fsblBnifoSize := by
    simp [trailer, fsblBnifoSize]
  have total : (body baseAnswer fwInfo certibytes signature).length =
      (encode baseAnswer).length + ((encode fwInfo).length + (certibytes.length + signature.length)) := by
    simp [body]
  rw [RoundTrips, ← length_encode_iff, ← length_encode_iff, length_append, size, length_append]
  by_cases short : content.length + (body baseAnswer fwInfo certibytes signature).length + fsblBnifoSize < 2 ^ 32
  · rw [fsblParts_append decoded size (by rwa [length_append])
      (by rw [length_append, FsblBsinfo.len]; simp only; omega), length_append]
    constructor
    · intro found
      -- the firmware that is found has the length of what was signed, so no byte of the strings is missing
      have front := congrArg List.length (FsblParts.mk.inj (Option.some.inj found)).1
      rw [length_take, length_append, FsblBsinfo.len] at front
      simp only at front
      omega
    · rintro ⟨ha, hb, -⟩
      have start : content.length + (body baseAnswer fwInfo certibytes signature).length - FsblBsinfo.len
          ⟨signature.length, fwInfo.length, certibytes.length, baseAnswer.length, 1, 35, 36⟩ = content.length := by
        rw [FsblBsinfo.len]
        simp only
        omega
      obtain ⟨base, fw, cert, sig⟩ := slice_body ha hb
      rw [start, take_left, drop_left, base, fw, cert, sig]
  · rw [fsblParts, length_append, length_append, size, if_pos (.inl (Nat.le_of_not_lt short))]
    exact iff_of_false nofun fun h => short h.2.2

/-- With the strings of `fw_sign.py`. -/
theorem shipped_strings_roundTrip :
    ∃ file, makeFsblImage "rlwlekqdksrlfdl." "bjadnpdjwjdqhrlf" [1, 2, 3] [4, 5] [6, 7] = some file ∧
      RoundTrips "rlwlekqdksrlfdl." "bjadnpdjwjdqhrlf" [1, 2, 3] [4, 5] [6, 7] file := by
  refine ⟨_, rfl, (signedFirmware_roundTrips_iff _ _ _ _ _ _ rfl).mpr ⟨?_, ?_, ?_⟩⟩
  · exact (length_encode_iff _).1 (by decide)
  · exact (length_encode_iff _).1 (by decide)
  · decide

theorem accented_baseAnswer_misread : ∃ file, makeFsblImage "é" "f" [1, 2, 3] [4, 5] [6, 7] = some file ∧
      ¬RoundTrips "é" "f" [1, 2, 3] [4, 5] [6, 7] file := by
  refine ⟨_, rfl, ?_⟩
  unfold RoundTrips
  decide

end LeoEdk.FwSign
