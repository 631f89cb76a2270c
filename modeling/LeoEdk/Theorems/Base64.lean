import LeoEdk.Sbc.Pem

/-! `Base64Decode` accepts, apart from white space, the texts that `Base64Encode` makes of the octets. -/

namespace LeoEdk.Sbc

open Bytes List

set_option maxRecDepth 4000

/-! ### Six-bit groups -/

def sextet (v : Nat) : UInt8 := encoded (.ofNat v)

theorem sextets_of_octet (s : UInt8) :
    (s &&& 0xfc) >>> 2 = .ofNat (s.toNat / 4) ∧ (s &&& 0x03) <<< 4 = .ofNat (s.toNat % 4 * 16) ∧
      (s &&& 0xf0) >>> 4 = .ofNat (s.toNat / 16) ∧ (s &&& 0x0f) <<< 2 = .ofNat (s.toNat % 16 * 4) ∧
      (s &&& 0xc0) >>> 6 = .ofNat (s.toNat / 64) ∧ s &&& 0x3f = .ofNat (s.toNat % 64) := by
  obtain ⟨⟨x⟩⟩ := s
  revert x
  decide

theorem base64Value_eq_some {c : UInt8} {v : Nat} : base64Value c = some v ↔ v < 64 ∧ c = sextet v := by
  refine ⟨fun value => ?_, ?_⟩
  · have all : ∀ c : UInt8, ∀ v ∈ base64Value c, v < 64 ∧ c = sextet v := by
      rintro ⟨⟨x⟩⟩
      revert x
      decide
    exact all c v value
  · rintro ⟨low, rfl⟩
    revert v
    decide

theorem base64Text_one (s0 : UInt8) :
    base64Text [s0] = [sextet (s0.toNat / 4), sextet (s0.toNat % 4 * 16), 0x3D, 0x3D] := by
  simp only [base64Text, sextet, sextets_of_octet]

theorem base64Text_two (s0 s1 : UInt8) : base64Text [s0, s1] =
    [sextet (s0.toNat / 4), sextet (s0.toNat % 4 * 16 + s1.toNat / 16), sextet (s1.toNat % 16 * 4), 0x3D] := by
  simp only [base64Text, sextet, sextets_of_octet, UInt8.ofNat_add]

theorem base64Text_cons (s0 s1 s2 : UInt8) (source : Bytes) : base64Text (s0 :: s1 :: s2 :: source) =
    sextet (s0.toNat / 4) :: sextet (s0.toNat % 4 * 16 + s1.toNat / 16) ::
      sextet (s1.toNat % 16 * 4 + s2.toNat / 64) :: sextet (s2.toNat % 64) :: base64Text source := by
  simp only [base64Text, sextet, sextets_of_octet, UInt8.ofNat_add]

theorem isSpace_sextet : ∀ v < 64, isSpace (sextet v) = false := by
  decide

/-! ### One character -/

section
variable {d d' : Decoding} {c : UInt8}

theorem char_sextet {v : Nat} (plain : d.paddingMode = false) (low : v < 64) : d.char (sextet v) = some (d.feed v) := by
  simp [Decoding.char, isSpace_sextet v low, plain, base64Value_eq_some.mpr ⟨low, rfl⟩]

theorem char_cases (text : isSpace c = false) (plain : d.paddingMode = false) (taken : d.char c = some d') :
    (∃ v < 64, c = sextet v ∧ d.feed v = d') ∨ c = 0x3D ∧ 2 ≤ d.sixBitGroupsConsumed ∧ d.accumulator = 0 ∧
      ⟨true, if d.sixBitGroupsConsumed = 2 then 3 else 0, d.accumulator, d.octets⟩ = d' := by
  rw [Decoding.char, text, plain] at taken
  cases value : base64Value c with
  | some v =>
    obtain ⟨low, symbol⟩ := base64Value_eq_some.mp value
    exact .inl ⟨v, low, symbol, by simpa [value] using taken⟩
  | none =>
    by_cases pad : c = 0x3D ∧ 2 ≤ d.sixBitGroupsConsumed ∧ d.accumulator = 0
    · exact .inr ⟨pad.1, pad.2.1, pad.2.2, by simpa [value, ← pad.1, ← pad.2.2, pad.2.1] using taken⟩
    · simp [value, pad] at taken

theorem char_padding (text : isSpace c = false) (padded : d.paddingMode = true) (taken : d.char c = some d') :
    c = 0x3D ∧ d.sixBitGroupsConsumed = 3 ∧ ⟨true, 0, d.accumulator, d.octets⟩ = d' := by
  rw [Decoding.char, text, padded] at taken
  by_cases pad : c = 0x3D ∧ d.sixBitGroupsConsumed = 3
  · exact ⟨pad.1, pad.2, by simpa [pad] using taken⟩
  · simp [pad] at taken

end

/-! ### One quantum -/

section
variable (o : Bytes) (x : UInt8)

theorem feed_first {k : Nat} (low : k < 16) :
    ((⟨false, 0, 0, o⟩ : Decoding).feed (x.toNat / 4)).feed (x.toNat % 4 * 16 + k) = ⟨false, 2, k, o ++ [x]⟩ := by
  have octet : (x.toNat / 4 * 64 + (x.toNat % 4 * 16 + k)) / 16 = x.toNat := by omega
  simp only [Decoding.feed, Nat.zero_mul, Nat.zero_add, octet, UInt8.ofNat_toNat, Decoding.mk.injEq, and_true, true_and]
  omega

theorem feed_second {m : Nat} (low : m < 4) :
    (⟨false, 2, x.toNat / 16, o⟩ : Decoding).feed (x.toNat % 16 * 4 + m) = ⟨false, 3, m, o ++ [x]⟩ := by
  have octet : (x.toNat / 16 * 64 + (x.toNat % 16 * 4 + m)) / 4 = x.toNat := by omega
  simp only [Decoding.feed, octet, UInt8.ofNat_toNat, Decoding.mk.injEq, and_true, true_and]
  omega

theorem feed_third : (⟨false, 3, x.toNat / 64, o⟩ : Decoding).feed (x.toNat % 64) = ⟨false, 0, 0, o ++ [x]⟩ := by
  have octet : x.toNat / 64 * 64 + x.toNat % 64 = x.toNat := by omega
  simp only [Decoding.feed, octet, UInt8.ofNat_toNat]

end

section
variable {v w : Nat}

theorem split_first (low : v < 64) (low' : w < 64) :
    ∃ x : UInt8, ∃ k < 16, v = x.toNat / 4 ∧ w = x.toNat % 4 * 16 + k := by
  refine ⟨.ofNat (v * 4 + w / 16), w % 16, by omega, ?_⟩
  rw [UInt8.toNat_ofNat']
  omega

theorem split_second (low : v < 16) (low' : w < 64) :
    ∃ x : UInt8, ∃ m < 4, v = x.toNat / 16 ∧ w = x.toNat % 16 * 4 + m := by
  refine ⟨.ofNat (v * 16 + w / 4), w % 4, by omega, ?_⟩
  rw [UInt8.toNat_ofNat']
  omega

theorem split_third (low : v < 4) (low' : w < 64) : ∃ x : UInt8, v = x.toNat / 64 ∧ w = x.toNat % 64 := by
  refine ⟨.ofNat (v * 64 + w), ?_⟩
  rw [UInt8.toNat_ofNat']
  omega

end

def Decodes (s y : Bytes) : Prop :=
  ∃ d, s.foldlM Decoding.char ⟨false, 0, 0, []⟩ = some d ∧ d.sixBitGroupsConsumed = 0 ∧ d.octets = y

theorem foldlM_filter (s : Bytes) (d : Decoding) :
    (s.filter (!isSpace ·)).foldlM Decoding.char d = s.foldlM Decoding.char d := by
  induction s generalizing d with
  | nil => rfl
  | cons c s ih =>
    cases space : isSpace c with
    | true => simp [space, ih, Decoding.char]
    | false => simp [space, ih]

theorem foldlM_sextet {d : Decoding} {v : Nat} (plain : d.paddingMode = false) (low : v < 64) (t : Bytes) :
    (sextet v :: t).foldlM Decoding.char d = t.foldlM Decoding.char (d.feed v) := by
  rw [foldlM_cons, char_sextet plain low]
  rfl

theorem decode_base64Text (y o : Bytes) : ∃ d, (base64Text y).foldlM Decoding.char ⟨false, 0, 0, o⟩ = some d ∧
    d.sixBitGroupsConsumed = 0 ∧ d.octets = o ++ y := by
  induction y using base64Text.induct generalizing o with
  | case1 => exact ⟨_, rfl, rfl, (append_nil o).symm⟩
  | case2 s0 =>
    have := s0.toNat_lt
    refine ⟨⟨true, 0, 0, o ++ [s0]⟩, ?_, rfl, rfl⟩
    rw [base64Text_one, foldlM_sextet rfl (by omega), foldlM_sextet rfl (by omega), ← Nat.add_zero (_ * 16),
      feed_first o s0 (by decide)]
    rfl
  | case3 s0 s1 =>
    have := s0.toNat_lt
    have := s1.toNat_lt
    refine ⟨⟨true, 0, 0, o ++ [s0] ++ [s1]⟩, ?_, rfl, by simp⟩
    rw [base64Text_two, foldlM_sextet rfl (by omega), foldlM_sextet rfl (by omega), feed_first o s0 (by omega),
      foldlM_sextet rfl (by omega), ← Nat.add_zero (_ * 4), feed_second _ s1 (by decide)]
    rfl
  | case4 s0 s1 s2 source ih =>
    have := s0.toNat_lt
    have := s1.toNat_lt
    have := s2.toNat_lt
    obtain ⟨d, taken, done, octets⟩ := ih (o ++ [s0] ++ [s1] ++ [s2])
    refine ⟨d, ?_, done, by simpa using octets⟩
    rw [base64Text_cons, foldlM_sextet rfl (by omega), foldlM_sextet rfl (by omega), feed_first o s0 (by omega),
      foldlM_sextet rfl (by omega), feed_second _ s1 (by omega), foldlM_sextet rfl (by omega), feed_third, taken]

theorem foldlM_cons_some {c : UInt8} {t : Bytes} {d d' : Decoding} (taken : (c :: t).foldlM Decoding.char d = some d') :
    ∃ d₁, d.char c = some d₁ ∧ t.foldlM Decoding.char d₁ = some d' := by
  rw [foldlM_cons] at taken
  exact Option.bind_eq_some_iff.mp taken

theorem padded_end {t o : Bytes} {a : Nat} {d : Decoding} (text : ∀ c ∈ t, isSpace c = false)
    (taken : t.foldlM Decoding.char ⟨true, 0, a, o⟩ = some d) : t = [] ∧ d.octets = o := by
  cases t with
  | nil =>
    cases taken
    exact ⟨rfl, rfl⟩
  | cons c t =>
    obtain ⟨_, taken, -⟩ := foldlM_cons_some taken
    exact absurd (char_padding (text c mem_cons_self) rfl taken).2.1 (by simp)

theorem text_of_decoded {t o : Bytes} {d : Decoding} (text : ∀ c ∈ t, isSpace c = false)
    (taken : t.foldlM Decoding.char ⟨false, 0, 0, o⟩ = some d) (done : d.sixBitGroupsConsumed = 0) :
    ∃ y, d.octets = o ++ y ∧ t = base64Text y := by
  -- Over whole quanta: every character of one is either a six-bit group or padding that ends the text.
  induction length : t.length using Nat.strong_induction_on generalizing t o with
  | h n ih =>
  rcases t with _ | ⟨c0, t⟩
  · cases taken
    exact ⟨[], (append_nil o).symm, rfl⟩
  rw [forall_mem_cons] at text
  obtain ⟨_, h0, taken⟩ := foldlM_cons_some taken
  obtain ⟨v0, low0, rfl, rfl⟩ | ⟨-, few, -⟩ := char_cases text.1 rfl h0
  rotate_left
  · exact absurd few (by simp)
  rcases t with _ | ⟨c1, t⟩
  · cases taken
    exact absurd done (by simp [Decoding.feed])
  rw [forall_mem_cons] at text
  obtain ⟨_, h1, taken⟩ := foldlM_cons_some taken
  obtain ⟨v1, low1, rfl, rfl⟩ | ⟨-, few, -⟩ := char_cases text.2.1 rfl h1
  rotate_left
  · exact absurd few (by simp [Decoding.feed])
  obtain ⟨x0, k, lowk, rfl, rfl⟩ := split_first low0 low1
  rw [feed_first o x0 lowk] at taken
  rcases t with _ | ⟨c2, t⟩
  · cases taken
    exact absurd done (by simp)
  rw [forall_mem_cons] at text
  obtain ⟨_, h2, taken⟩ := foldlM_cons_some taken
  rcases t with _ | ⟨c3, t⟩
  · cases taken
    obtain ⟨v2, -, -, rfl⟩ | ⟨-, -, -, rfl⟩ := char_cases text.2.2.1 rfl h2 <;> simp [Decoding.feed] at done
  rw [forall_mem_cons] at text
  obtain ⟨_, h3, taken⟩ := foldlM_cons_some taken
  obtain ⟨v2, low2, rfl, rfl⟩ | ⟨rfl, -, rfl, rfl⟩ := char_cases text.2.2.1 rfl h2
  · obtain ⟨x1, m, lowm, rfl, rfl⟩ := split_second lowk low2
    rw [feed_second _ x1 lowm] at h3
    obtain ⟨v3, low3, rfl, rfl⟩ | ⟨rfl, -, rfl, rfl⟩ := char_cases text.2.2.2.1 rfl h3
    · obtain ⟨x2, rfl, rfl⟩ := split_third lowm low3
      rw [feed_third] at taken
      have shorter : t.length < n := by
        rw [← length]
        simp only [length_cons]
        omega
      obtain ⟨y, octets, rfl⟩ := ih t.length shorter text.2.2.2.2 taken rfl
      exact ⟨x0 :: x1 :: x2 :: y, by simpa using octets, (base64Text_cons x0 x1 x2 y).symm⟩
    · obtain ⟨rfl, octets⟩ := padded_end text.2.2.2.2 taken
      exact ⟨[x0, x1], by simpa using octets, (base64Text_two x0 x1).symm⟩
  · obtain ⟨rfl, -, rfl⟩ := char_padding text.2.2.2.1 rfl h3
    obtain ⟨rfl, octets⟩ := padded_end text.2.2.2.2 taken
    exact ⟨[x0], octets, (base64Text_one x0).symm⟩

theorem decodes_iff {s y : Bytes} : Decodes s y ↔ s.filter (!isSpace ·) = base64Text y := by
  constructor
  · rintro ⟨d, taken, done, rfl⟩
    rw [← foldlM_filter] at taken
    obtain ⟨y, octets, text⟩ := text_of_decoded (by simp) taken done
    rw [octets, nil_append, text]
  · intro text
    obtain ⟨d, taken, done, octets⟩ := decode_base64Text y []
    exact ⟨d, by rw [← foldlM_filter, text, taken], done, octets⟩

theorem base64Encode_success {source size size' : Nat} {data out : Bytes} {destination : Option Nat}
    (ok : base64Encode source data destination size = (.success, size', out)) : out = base64Text data ++ [0] := by
  rw [base64Encode] at ok
  split_ifs at ok with empty <;> cases ok
  · rw [length_eq_zero_iff.mp empty]
    rfl
  · rfl

theorem base64Decode_of_decodes {s y : Bytes} (decodes : Decodes s y) {source destination : Option Nat} {size : Nat}
    (ok : decodable source s.length destination size) : base64Decode source s destination size =
      if y.length ≤ size then (.success, y.length, y) else (.bufferTooSmall, y.length, y.take size) := by
  obtain ⟨d, taken, done, rfl⟩ := decodes
  simp [base64Decode, ok, taken, done]

theorem decodes_of_status {s : Bytes} {source destination : Option Nat} {size : Nat}
    (ok : (base64Decode source s destination size).1 ≠ .invalidParameter) :
    decodable source s.length destination size ∧ ∃ y, Decodes s y := by
  rw [base64Decode] at ok
  split at ok
  · simp at ok
  next accepted =>
    refine ⟨by simpa using accepted, ?_⟩
    split at ok
    · simp at ok
    next d taken =>
      by_cases done : d.sixBitGroupsConsumed = 0
      · exact ⟨_, d, taken, done, rfl⟩
      · simp [done] at ok

end LeoEdk.Sbc
