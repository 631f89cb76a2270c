import LeoEdk.Variable.Language

/-! The two scanners over a list of RFC 4646 codes, of which one skips semicolons in front of a code and one behind.
    Each is described by the tags that it meets. -/

namespace LeoEdk.Variable

open Bytes List

/-- The language codes of a list: what stands between semicolons, where that is not empty. -/
def languageCodes (supported : Bytes) : List Bytes := ((asciiStr supported).splitOn semicolon).filter (· ≠ [])

/-! ### The codes and the tags that the loops meet -/

section Tags

variable {s lang : Bytes}

theorem drop_length_takeWhile (p : UInt8 → Bool) (s : Bytes) : s.drop (s.takeWhile p).length = s.dropWhile p := by
  have split := congrArg (List.drop (s.takeWhile p).length) (takeWhile_append_dropWhile (p := p) (l := s))
  rwa [drop_left, eq_comm] at split

theorem dropWhile_code (s : Bytes) :
    s.dropWhile (· != semicolon) = [] ∨ ∃ rest, s.dropWhile (· != semicolon) = semicolon :: rest := by
  cases h : s.dropWhile (· != semicolon) with
  | nil => exact .inl rfl
  | cons b rest =>
    have stops := head_dropWhile_not (· != semicolon) (l := s) (by rw [h]; exact cons_ne_nil b rest)
    simp only [h, head_cons, bne_eq_false_iff_eq] at stops
    exact .inr ⟨rest, by rw [stops]⟩

theorem mem_splitOn_cons_semicolon (nonempty : lang ≠ []) :
    lang ∈ (semicolon :: s).splitOn semicolon ↔ lang ∈ s.splitOn semicolon := by
  rw [splitOn_cons_eq_if_modifyHead, if_pos (beq_self_eq_true semicolon), mem_cons, or_iff_right nonempty]

theorem dropWhile_cons_semicolon (s : Bytes) :
    (semicolon :: s).dropWhile (· == semicolon) = s.dropWhile (· == semicolon) :=
  dropWhile_cons_of_pos (beq_self_eq_true semicolon)

theorem mem_splitOn_dropWhile (nonempty : lang ≠ []) :
    lang ∈ s.splitOn semicolon ↔ lang ∈ (s.dropWhile (· == semicolon)).splitOn semicolon := by
  induction s with
  | nil => rfl
  | cons b s ih =>
    by_cases same : b = semicolon
    · rw [same, mem_splitOn_cons_semicolon nonempty, ih, dropWhile_cons_semicolon]
    · rw [dropWhile_cons_of_neg (by simpa using same)]

theorem mem_splitOn_first (nonempty : lang ≠ []) (code : lang ∈ s.splitOn semicolon) :
    lang = s.takeWhile (· != semicolon) ∨ lang ∈ (s.dropWhile (· != semicolon)).splitOn semicolon := by
  have inner : ∀ b ∈ s.takeWhile (· != semicolon), (b == semicolon) = false := by
    intro b mem
    have := mem_takeWhile_imp mem
    simpa using this
  have split := takeWhile_append_dropWhile (p := (· != semicolon)) (l := s)
  obtain atEnd | ⟨rest, behind⟩ := dropWhile_code s
  · rw [atEnd, append_nil] at split
    rw [List.splitOn, ← split, splitOnP_eq_singleton inner, mem_singleton] at code
    exact .inl code
  · rw [behind] at split
    rw [List.splitOn, ← split, splitOnP_append_cons_of_forall_mem inner _ (beq_self_eq_true semicolon),
      mem_cons] at code
    rw [behind, mem_splitOn_cons_semicolon nonempty]
    exact code

theorem rfcTags_cons (fuel : Nat) (nonempty : s ≠ []) :
    rfcTags (fuel + 1) s = (s.dropWhile (· == semicolon)).takeWhile (· != semicolon) ::
      rfcTags fuel ((s.dropWhile (· == semicolon)).dropWhile (· != semicolon)) := by
  rw [rfcTags, if_neg (by simpa using nonempty)]
  dsimp only
  rw [drop_length_takeWhile]

theorem length_rest_lt (nonempty : s ≠ []) :
    ((s.dropWhile (· == semicolon)).dropWhile (· != semicolon)).length < s.length := by
  cases s with
  | nil => exact absurd rfl nonempty
  | cons b s =>
    have shorter (p : UInt8 → Bool) (t : Bytes) : (t.dropWhile p).length ≤ t.length := (dropWhile_sublist p).length_le
    rw [length_cons, Nat.lt_succ_iff]
    by_cases same : b = semicolon
    · rw [same, dropWhile_cons_semicolon]
      exact (shorter _ _).trans (shorter _ _)
    · rw [dropWhile_cons_of_neg (by simpa using same), dropWhile_cons_of_pos (by simpa using same)]
      exact shorter _ _

theorem mem_rfcTags {fuel : Nat} (enough : s.length ≤ fuel) (nonempty : lang ≠ [])
    (code : lang ∈ s.splitOn semicolon) : lang ∈ rfcTags fuel s := by
  induction fuel generalizing s with
  | zero =>
    rw [length_eq_zero_iff.mp (Nat.le_zero.mp enough)] at code
    exact absurd (mem_singleton.mp code) nonempty
  | succ fuel ih =>
    by_cases empty : s = []
    · rw [empty] at code
      exact absurd (mem_singleton.mp code) nonempty
    · have shorter := length_rest_lt empty
      rw [mem_splitOn_dropWhile nonempty] at code
      rw [rfcTags_cons fuel empty]
      obtain first | later := mem_splitOn_first nonempty code
      · exact first ▸ mem_cons_self
      · exact mem_cons_of_mem _ (ih (by omega) later)

theorem subset_of_mem_rfcTags {fuel : Nat} {tag : Bytes} (mem : tag ∈ rfcTags fuel s) : tag ⊆ s := by
  induction fuel generalizing s with
  | zero => exact absurd mem not_mem_nil
  | succ fuel ih =>
    by_cases empty : s = []
    · rw [rfcTags, if_pos (by simpa using empty)] at mem
      exact absurd mem not_mem_nil
    · have skip := (dropWhile_sublist (l := s) (· == semicolon)).subset
      rw [rfcTags_cons fuel empty] at mem
      obtain rfl | later := mem_cons.mp mem
      · exact fun b inside => skip ((takeWhile_sublist _).subset inside)
      · exact fun b inside => skip ((dropWhile_sublist _).subset (ih later inside))

end Tags

/-! ### The two scanners -/

theorem rfcLangAt_dropWhile {s : Bytes} (nonempty : s ≠ []) (index : Nat) {fuel fuel' : Nat} (enough : s.length ≤ fuel)
    (enough' : s.length ≤ fuel') :
    rfcLangAt fuel' (s.dropWhile (· == semicolon)) index = (rfcTags fuel s)[index]? := by
  have pos := length_pos_iff.mpr nonempty
  induction index generalizing s fuel fuel' with
  | zero =>
    obtain _ | fuel := fuel
    · omega
    obtain _ | fuel' := fuel'
    · omega
    rw [rfcTags_cons fuel nonempty]
    rfl
  | succ index ih =>
    obtain _ | fuel := fuel
    · omega
    obtain _ | fuel' := fuel'
    · omega
    have shorter := length_rest_lt nonempty
    rw [rfcTags_cons fuel nonempty, List.getElem?_cons_succ, rfcLangAt, drop_length_takeWhile]
    by_cases atEnd : (s.dropWhile (· == semicolon)).dropWhile (· != semicolon) = []
    · rw [if_pos (by simpa using atEnd), atEnd]
      cases fuel <;> rfl
    · rw [if_neg (by simpa using atEnd)]
      exact ih atEnd (by omega) (by omega) (length_pos_iff.mpr atEnd)

section RoundTrip

variable {supported lang : Bytes}

theorem mem_languageCodes : lang ∈ languageCodes supported ↔
    lang ∈ (asciiStr supported).splitOn semicolon ∧ lang ≠ [] := by
  rw [languageCodes, mem_filter, decide_eq_true_eq]

theorem length_asciiStr_le (s : Bytes) : (asciiStr s).length ≤ s.length := (takeWhile_sublist _).length_le

section Codes

variable (code : lang ∈ languageCodes supported)
include code

theorem mem_tags : lang ∈ rfcTags (asciiStr supported).length (asciiStr supported) := by
  obtain ⟨part, nonempty⟩ := mem_languageCodes.mp code
  exact mem_rfcTags le_rfl nonempty part

theorem asciiStr_code : asciiStr lang = lang := by
  refine takeWhile_eq_self_iff.mpr fun b mem => ?_
  exact mem_takeWhile_imp (p := (· != 0)) (subset_of_mem_rfcTags (mem_tags code) mem)

theorem getIndexFromSupportedLangCodes_code : getIndexFromSupportedLangCodes supported lang false =
      (rfcTags (asciiStr supported).length (asciiStr supported)).idxOf lang := by
  have mem := mem_tags code
  simp only [getIndexFromSupportedLangCodes, tagsOf, Bool.false_eq_true, if_false, asciiStr_code code, if_pos mem]

theorem asciiStr_ne_nil : asciiStr supported ≠ [] := by
  intro empty
  have mem := mem_tags code
  rw [empty] at mem
  exact absurd mem not_mem_nil

theorem getLang_of_code_first (front : (asciiStr supported).head? ≠ some semicolon) (index : Nat) :
    getLangFromSupportedLangCodes supported index false =
      (rfcTags (asciiStr supported).length (asciiStr supported))[index]? := by
  have whole : (asciiStr supported).dropWhile (· == semicolon) = asciiStr supported := by
    cases shape : asciiStr supported with
    | nil => rfl
    | cons b rest =>
      rw [shape, List.head?_cons] at front
      exact dropWhile_cons_of_neg (by simpa using fun same => front (congrArg some same))
  have short := length_asciiStr_le supported
  rw [getLangFromSupportedLangCodes, if_neg Bool.false_ne_true]
  conv_lhs => rw [← whole]
  exact rfcLangAt_dropWhile (asciiStr_ne_nil code) index le_rfl (by omega)

end Codes

theorem getLang_of_semicolon_first (front : (asciiStr supported).head? = some semicolon) (index : Nat) :
    getLangFromSupportedLangCodes supported index false =
      ([] :: rfcTags (asciiStr supported).length (asciiStr supported))[index]? := by
  obtain ⟨rest, shape⟩ : ∃ rest, asciiStr supported = semicolon :: rest := List.head?_eq_some_iff.mp front
  have none : (asciiStr supported).takeWhile (· != semicolon) = [] := by
    rw [shape]
    exact takeWhile_cons_of_neg (by simp)
  have short := length_asciiStr_le supported
  have nonempty : asciiStr supported ≠ [] := by
    rw [shape]
    exact cons_ne_nil _ _
  rw [getLangFromSupportedLangCodes, if_neg Bool.false_ne_true]
  cases index with
  | zero => exact congrArg some none
  | succ index =>
    rw [List.getElem?_cons_succ, rfcLangAt, none, length_nil, drop_zero, if_neg (by simpa using nonempty)]
    exact rfcLangAt_dropWhile nonempty index le_rfl short

/-- The index of a code leads back to the code exactly when the list does not begin with a semicolon. -/
theorem language_roundTrips_iff (supported lang : Bytes) (code : lang ∈ languageCodes supported) :
    getLangFromSupportedLangCodes supported (getIndexFromSupportedLangCodes supported lang false) false = some lang ↔
      (asciiStr supported).head? ≠ some semicolon := by
  have mem := mem_tags code
  have nonempty := (mem_languageCodes.mp code).2
  rw [getIndexFromSupportedLangCodes_code code]
  refine ⟨fun back front => ?_, fun front => ?_⟩
  · -- the code in front of the first one that equals `lang` is another one
    rw [getLang_of_semicolon_first front] at back
    cases first : (rfcTags (asciiStr supported).length (asciiStr supported)).idxOf lang with
    | zero =>
      rw [first] at back
      exact nonempty (Option.some.inj back).symm
    | succ index =>
      rw [first, List.getElem?_cons_succ] at back
      obtain ⟨inside, same⟩ := List.getElem?_eq_some_iff.mp back
      have before : index < (rfcTags (asciiStr supported).length (asciiStr supported)).idxOf lang := by omega
      have other := not_of_lt_findIdx before
      rw [same, beq_self_eq_true] at other
      cases other
  · rw [getLang_of_code_first code front, List.getElem?_eq_getElem (idxOf_lt_length_iff.mpr mem),
      getElem_idxOf]

/-- `fr` in `en;fr`. -/
theorem language_roundTrips_fr : [0x66, 0x72] ∈ languageCodes [0x65, 0x6e, 0x3b, 0x66, 0x72, 0] ∧
      getLangFromSupportedLangCodes [0x65, 0x6e, 0x3b, 0x66, 0x72, 0]
        (getIndexFromSupportedLangCodes [0x65, 0x6e, 0x3b, 0x66, 0x72, 0] [0x66, 0x72] false) false =
          some [0x66, 0x72] :=
  ⟨by decide, (language_roundTrips_iff _ _ (by decide)).mpr (by decide)⟩

/-- `en` in `;en` has the index 0, and that of the empty code in front is 0 too. -/
theorem language_lost_behind_semicolon : [0x65, 0x6e] ∈ languageCodes [0x3b, 0x65, 0x6e, 0] ∧
      getLangFromSupportedLangCodes [0x3b, 0x65, 0x6e, 0]
        (getIndexFromSupportedLangCodes [0x3b, 0x65, 0x6e, 0] [0x65, 0x6e] false) false ≠ some [0x65, 0x6e] := by
  decide

end RoundTrip

end LeoEdk.Variable
