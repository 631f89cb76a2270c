import LeoEdk.Sbc.Pem

/-! The text `SBC_ConvertRawKeyPem` makes of a key, with the terminator of the Base64 text in the middle of it. -/

namespace LeoEdk.Sbc

open Bytes List

theorem length_base64Text (data : Bytes) : (base64Text data).length = (data.length + 2) / 3 * 4 := by
  fun_induction base64Text data with
  | case1 => rfl
  | case2 => simp
  | case3 => simp
  | case4 s0 s1 s2 source ih =>
    simp only [length_cons, ih]
    omega

theorem length_pemLines {base64Size i j : Nat} {cs : Bytes} (rest : i + cs.length = base64Size) (line : j < 64) :
    (pemLines base64Size i j cs).length = cs.length + (j + cs.length - 1) / 64 := by
  induction cs generalizing i j with
  | nil =>
    simp only [pemLines, length_nil, Nat.add_zero, Nat.zero_add]
    omega
  | cons c cs ih =>
    rw [length_cons] at rest
    rw [pemLines]
    split
    case isTrue full =>
      rw [length_cons, length_cons, ih (by omega) (by omega), length_cons]
      omega
    case isFalse more =>
      -- Either the line goes on, or this was the last byte.
      rcases Nat.lt_or_ge (j + 1) 64 with short | long
      · rw [length_cons, ih (by omega) short, length_cons]
        omega
      · have last : cs = [] := by
          rw [← length_eq_zero_iff]
          omega
        subst last
        simp only [pemLines, length_cons, length_nil]
        omega

theorem newlineCount_eq {n : Nat} (pos : 0 < n) : newlineCount n = (n - 1) / 64 := by
  rw [newlineCount]
  split <;> omega

def pemText (der header footer : Bytes) : Bytes :=
  header ++ [newline] ++ pemLines (requiredSize der.length) 0 0 (base64Text der ++ [0]) ++ [newline] ++
    footer ++ [newline]

theorem length_pemText (der header footer : Bytes) :
    (pemText der header footer).length + 1 = totalSize header footer (requiredSize der.length) := by
  have size : (base64Text der ++ [0]).length = requiredSize der.length := by
    rw [length_append, length_base64Text, length_singleton, requiredSize]
  have lines := length_pemLines (i := 0) (j := 0) ((Nat.zero_add _).trans size) (by decide)
  rw [size, Nat.zero_add, ← newlineCount_eq (by simp [requiredSize])] at lines
  simp only [pemText, length_append, length_singleton, totalSize, lines]
  omega

theorem convertRawKeyPem_cases (e : PemEnv) {der : Bytes} (nonempty : der ≠ []) (header footer : Bytes) :
    (∃ st, convertRawKeyPem e der header footer = .returned st) ∨
      convertRawKeyPem e der header footer = .key (pemText der header footer ++
        [0]) (pemText der header footer).length := by
  have length : der.length ≠ 0 := fun zero => nonempty (length_eq_zero_iff.mp zero)
  rw [convertRawKeyPem]
  split
  · exact .inl ⟨_, rfl⟩
  by_cases far : maxAddress - e.derData ≤ der.length
  · have first : base64Encode e.derData der none 0 = (.invalidParameter, 0, []) := by
      rw [base64Encode, if_neg length, if_pos (.inl far)]
    have second : base64Encode e.derData der (some e.base64Encoded) 0 = (.invalidParameter, 0, []) := by
      rw [base64Encode, if_neg length, if_pos (.inl far)]
    simp [first, second]
  have first : base64Encode e.derData der none 0 = (.bufferTooSmall, requiredSize der.length, []) := by
    rw [base64Encode, if_neg length, if_neg (not_or.mpr ⟨far, by decide⟩), if_pos (.inl rfl)]
  rw [first]
  by_cases high : maxAddress - e.base64Encoded ≤ requiredSize der.length
  · have second : base64Encode e.derData der (some e.base64Encoded) (requiredSize der.length) =
        (.invalidParameter, requiredSize der.length, []) := by
      rw [base64Encode, if_neg length, if_pos (.inr high)]
    simp [second]
  have second : base64Encode e.derData der (some e.base64Encoded) (requiredSize der.length) =
      (.success, requiredSize der.length, base64Text der ++ [0]) := by
    rw [base64Encode, if_neg length, Option.getD_some, if_neg (not_or.mpr ⟨far, high⟩), if_neg (by simp)]
  simp only [second, ne_eq, not_true_eq_false, if_false]
  split
  · exact .inl ⟨_, rfl⟩
  · have room := length_pemText der header footer
    rw [← pemText, if_neg (by omega), ← room, Nat.add_sub_cancel_left]
    exact .inr rfl

theorem mem_pemLines {base64Size i j : Nat} {c : UInt8} {cs : Bytes} (mem : c ∈ cs) :
    c ∈ pemLines base64Size i j cs := by
  induction cs generalizing i j with
  | nil => cases mem
  | cons b bs ih =>
    rw [pemLines]
    rcases mem_cons.mp mem with rfl | behind
    · split <;> exact mem_cons_self
    · split
      · exact mem_cons_of_mem _ (mem_cons_of_mem _ (ih behind))
      · exact mem_cons_of_mem _ (ih behind)

theorem zero_mem_pemText (der header footer : Bytes) : 0 ∈ pemText der header footer := by
  have lines : 0 ∈ pemLines (requiredSize der.length) 0 0 (base64Text der ++ [0]) := mem_pemLines mem_concat_self
  simp [pemText, lines]

/-- The key that is returned: its first bytes are the boundaries around the Base64 text in lines of 64 characters, and
    there is no terminator among them. -/
def PemExact (result : PemResult) (der header footer : Bytes) : Prop :=
  ∃ buffer size, result = .key buffer size ∧ 0 ∉ buffer.take size ∧
    buffer.take size = header ++ [newline] ++ [newline].intercalate ((base64Text der).toChunks 64) ++
      [newline] ++ footer ++ [newline]

/-- No key is converted into proper text. -/
theorem not_pemExact (e : PemEnv) {der : Bytes} (nonempty : der ≠ []) (header footer : Bytes) :
    ¬PemExact (convertRawKeyPem e der header footer) der header footer := by
  rintro ⟨buffer, size, result, clean, -⟩
  rcases convertRawKeyPem_cases e nonempty header footer with ⟨st, failed⟩ | text
  · rw [failed] at result
    cases result
  · rw [text] at result
    cases result
    rw [take_left] at clean
    exact clean (zero_mem_pemText der header footer)

def PemEnv.sample : PemEnv := ⟨0x1000, 0x2000, true, true⟩

/-- A key of three bytes. -/
theorem not_pemExact_three_bytes :
    ¬PemExact (convertRawKeyPem .sample [1, 2, 3] (asciiBytes "B") (asciiBytes "E")) [1, 2, 3] (asciiBytes "B")
      (asciiBytes "E") :=
  not_pemExact .sample (by decide) _ _

/-- The text of a key of one byte: `B`, `MA==` with the terminator behind it, and `E`. -/
theorem one_byte_terminated : convertRawKeyPem .sample [0x30] (asciiBytes "B") (asciiBytes "E") =
        .key [0x42, 0x0A, 0x4D, 0x41, 0x3D, 0x3D, 0x00, 0x0A, 0x45, 0x0A, 0x00] 10 ∧
      ¬PemExact (convertRawKeyPem .sample [0x30] (asciiBytes "B") (asciiBytes "E")) [0x30] (asciiBytes "B")
        (asciiBytes "E") := by
  have text : convertRawKeyPem .sample [0x30] (asciiBytes "B") (asciiBytes "E") =
      .key [0x42, 0x0A, 0x4D, 0x41, 0x3D, 0x3D, 0x00, 0x0A, 0x45, 0x0A, 0x00] 10 := by decide
  refine ⟨text, ?_⟩
  rintro ⟨buffer, size, result, clean, -⟩
  rw [text] at result
  cases result
  exact clean (by decide)

end LeoEdk.Sbc
