import LeoEdk.Sbc.LogFormat

/-!
When the log formatter keeps to its format and its buffer. Only the branch for unknown specifiers, which is also that of
a directive cut off by the terminator, does not look for room.
-/

namespace LeoEdk.Sbc.LogFormat

/-! ### Reading the format -/

theorem length_parseFlags (zero left : Bool) (cs : List Wchar) : (parseFlags zero left cs).2.2.length ≤ cs.length := by
  induction cs generalizing zero left with
  | nil => rfl
  | cons c cs ih =>
    rw [parseFlags]
    split
    · exact (ih ..).trans (Nat.le_succ _)
    · split
      · exact (ih ..).trans (Nat.le_succ _)
      · rfl

theorem length_parseNumber (n : Nat) (cs : List Wchar) : (parseNumber n cs).2.length ≤ cs.length := by
  induction cs generalizing n with
  | nil => rfl
  | cons c cs ih =>
    rw [parseNumber]
    split
    · exact (ih _).trans (Nat.le_succ _)
    · rfl

theorem length_parseStar (va : VaList) (cur : Cursor) : (parseStar va cur).2.fmt.length ≤ cur.fmt.length := by
  rw [parseStar]
  split
  case h_1 => rfl
  case h_2 c cs fmt =>
    rw [fmt]
    split
    · exact Nat.le_succ _
    · exact length_parseNumber ..

theorem length_parsePrecision (va : VaList) (cur : Cursor) : (parsePrecision va cur).2.fmt.length ≤ cur.fmt.length := by
  rw [parsePrecision]
  split
  case h_1 => rfl
  case h_2 c cs fmt =>
    split
    · rw [fmt]
      exact (length_parseStar ..).trans (Nat.le_succ _)
    · rfl

theorem length_skipOne (c : UInt16) (cs : List Wchar) : (skipOne c cs).length ≤ cs.length := by
  rw [skipOne.eq_def]
  split
  · rfl
  · split
    · exact Nat.le_succ _
    · rfl

theorem length_parseLength (cs : List Wchar) : (parseLength cs).2.length ≤ cs.length := by
  rw [parseLength.eq_def]
  split
  · rfl
  · split
    · exact (length_skipOne ..).trans (Nat.le_succ _)
    · split
      · exact (length_skipOne ..).trans (Nat.le_succ _)
      · rfl

theorem length_parseDirective (va : VaList) (cur : Cursor) : (parseDirective va cur).2.fmt.length ≤ cur.fmt.length := by
  have flags := length_parseFlags false false cur.fmt
  have width := length_parseStar va ⟨(parseFlags false false cur.fmt).2.2, cur.arg⟩
  have precision := length_parsePrecision va (parseStar va ⟨(parseFlags false false cur.fmt).2.2, cur.arg⟩).2
  exact (length_parseLength _).trans (precision.trans (width.trans flags))

theorem length_next {va : VaList} {cur cur' : Cursor} {item : Item} (found : next va cur = some (item, cur')) :
    cur'.fmt.length < cur.fmt.length := by
  rw [next] at found
  split at found
  case h_1 => cases found
  case h_2 c cs fmt =>
    rw [fmt, List.length_cons, Nat.lt_succ_iff]
    have directive := length_parseDirective va ⟨cs, cur.arg⟩
    split at found
    case isTrue =>
      cases found
      exact le_refl _
    case isFalse =>
      simp only at found
      split at found
      case h_1 =>
        cases found
        exact directive
      case h_2 d ds rest =>
        cases found
        rw [rest, List.length_cons] at directive
        exact Nat.le_of_succ_le directive

def items (va : VaList) : Nat → Cursor → List Item
  | 0, _ => []
  | n + 1, cur =>
    match next va cur with
    | none => []
    | some (item, cur') => item :: items va n cur'

def Item.size (e : LogEnv) (printed remaining : Nat) : Item → Nat
  | .conversion conv => (e.unicodeSPrint conv remaining).length
  | .ascii d s => (e.asciiText d s ((e.asciiLen d s).getD 0) printed remaining).length
  | .unknown _ => 2
  | .literal _ | .char _ | .percent | .incomplete => 1

/-- The ASCII string does not fit the temporary buffer, and neither does the precision that would cut it. -/
def Oversized (e : LogEnv) (d : Directive) (s : Bytes) : Prop :=
  e.tempSize ≤ s.length ∧ e.tempSize ≤ d.precision ∧ d.precision < 2 ^ 63 + 5

/-- An item the code can handle with the given room: it is complete, an unknown specifier is not met with exactly two
    characters left, and no string and precision are oversized. -/
def Item.Sound (e : LogEnv) (remaining : Nat) : Item → Prop
  | .incomplete => False
  | .unknown _ => remaining ≠ 2
  | .ascii d s => ¬Oversized e d s
  | .literal _ | .conversion _ | .char _ | .percent => True

def Clean (e : LogEnv) : List Item → Nat → Nat → Prop
  | [], _, _ => True
  | item :: rest, printed, remaining =>
    remaining ≤ 1 ∨ item.Sound e remaining ∧
      Clean e rest (printed + item.size e printed remaining) (remaining - item.size e printed remaining)

variable {s : LogState} {e : LogEnv} {size : Nat}

theorem clean_of_full {rest : List Item} {printed remaining : Nat} (full : remaining ≤ 1) :
    Clean e rest printed remaining := by
  cases rest with
  | nil => trivial
  | cons item rest => exact .inl full

theorem asciiLen_eq_none_iff {d : Directive} {s : Bytes} : e.asciiLen d s = none ↔ Oversized e d s := by
  rw [LogEnv.asciiLen, LogEnv.asciiStrCpyS, Oversized]
  split
  case isTrue copied =>
    rw [if_neg (fun both => Nat.not_lt_zero _ both.2)]
    simp [copied]
  case isFalse long =>
    have top : maxUintn = 2 ^ 64 - 1 := rfl
    split
    case isTrue cut =>
      split
      case isTrue inside => simp [inside]
      case isFalse outside => exact iff_of_true rfl ⟨Nat.le_of_not_lt long, Nat.le_of_not_lt outside, cut.2⟩
    case isFalse uncut =>
      simp only [reduceCtorEq, false_iff]
      rintro ⟨-, -, small⟩
      exact uncut ⟨by omega, small⟩

theorem turns_lt (n printed : Nat) {count remaining : Nat} (room : count < remaining) :
    count + turns n printed remaining count < remaining := by
  rw [turns]
  omega

theorem length_asciiText_lt (e : LogEnv) (d : Directive) (s : Bytes) (asciiLen printed : Nat) {remaining : Nat}
    (room : 1 < remaining) : (e.asciiText d s asciiLen printed remaining).length < remaining := by
  simp only [LogEnv.asciiText, List.length_append, List.length_replicate, List.length_map, List.length_range]
  -- Each of the three loops stops while there is room for one more character.
  generalize first : (if asciiLen < d.width ∧ !d.leftJustify then turns (d.width - asciiLen) printed remaining 0
    else 0) = before
  have lead : before < remaining := by
    rw [← first]
    split
    · simpa using turns_lt (d.width - asciiLen) printed (Nat.zero_lt_of_lt room)
    · exact Nat.zero_lt_of_lt room
  have middle := turns_lt asciiLen printed lead
  split
  · exact turns_lt _ _ middle
  · exact middle

/-- What an item does when there is room for two characters: it stops the formatter, or it puts its characters, and
    then it is sound if and only if it leaves room for the terminator. -/
theorem perform_cases (e : LogEnv) (room : 1 < s.remainingBufChars) (item : Item) :
    ((∃ stop, perform e s item = .error stop) ∧ ¬item.Sound e s.remainingBufChars) ∨
      ∃ text terminated, perform e s item = .ok (s.put text terminated) ∧
        text.length = item.size e s.printedChars s.remainingBufChars ∧
        text.length + (if terminated then 1 else 0) ≤ s.remainingBufChars ∧
        (item.Sound e s.remainingBufChars ↔ text.length < s.remainingBufChars) := by
  cases item with
  | literal c => exact .inr ⟨[c.1], false, rfl, rfl, Nat.le_of_lt room, iff_of_true trivial room⟩
  | conversion conv =>
    have short := e.unicodeSPrint_lt conv s.remainingBufChars (Nat.zero_lt_of_lt room)
    exact .inr ⟨_, true, rfl, rfl, short, iff_of_true trivial short⟩
  | ascii d str =>
    cases len : e.asciiLen d str with
    | none =>
      have oversized := asciiLen_eq_none_iff.mp len
      exact .inl ⟨⟨.stackOverrun, by simp [perform, len]⟩, fun sound => sound oversized⟩
    | some asciiLen =>
      have short := length_asciiText_lt e d str asciiLen s.printedChars room
      have fits : ¬Oversized e d str := fun oversized => by
        rw [asciiLen_eq_none_iff.mpr oversized] at len
        cases len
      refine .inr ⟨_, false, by simp only [perform, len], ?_, Nat.le_of_lt short, iff_of_true fits short⟩
      rw [Item.size, len, Option.getD_some]
  | char c => exact .inr ⟨[c], false, rfl, rfl, Nat.le_of_lt room, iff_of_true trivial room⟩
  | percent => exact .inr ⟨[L '%'], false, rfl, rfl, Nat.le_of_lt room, iff_of_true trivial room⟩
  | unknown c =>
    refine .inr ⟨[L '%', c.1], false, rfl, rfl, room, ?_⟩
    exact ⟨fun other => Nat.lt_of_le_of_ne room (Ne.symm other), fun more => Nat.ne_of_gt more⟩
  | incomplete => exact .inl ⟨⟨.formatOverread, rfl⟩, id⟩

structure Kept (size : Nat) (s : LogState) : Prop where
  printed : s.printedChars = s.out.length
  remaining : s.printedChars + s.remainingBufChars = size
  extent : s.extent ≤ size

theorem Kept.put {text : List UInt16} {terminated : Bool} (kept : Kept size s)
    (room : text.length + (if terminated then 1 else 0) ≤ s.remainingBufChars) : Kept size (s.put text terminated) := by
  obtain ⟨printed, remaining, extent⟩ := kept
  refine ⟨?_, ?_, ?_⟩
  · simp [LogState.put, printed]
  · simp only [LogState.put]
    omega
  · simp only [LogState.put, max_le_iff]
    exact ⟨extent, by omega⟩

theorem Kept.moved (kept : Kept size s) (cur : Cursor) : Kept size { s with cur } :=
  ⟨kept.printed, kept.remaining, kept.extent⟩

theorem loop_none (fuel : Nat) (done : next e.va s.cur = none) : loop e fuel s = .ok s := by
  cases fuel <;> simp [loop, done]

theorem loop_full (fuel : Nat) (full : s.remainingBufChars ≤ 1) : loop e fuel s = .ok s := by
  cases found : next e.va s.cur with
  | none => exact loop_none fuel found
  | some pair => cases fuel <;> simp [loop, found, full]

theorem loop_succ {item : Item} {cur : Cursor} (fuel : Nat)
    (found : next e.va s.cur = some (item, cur)) (room : 1 < s.remainingBufChars) :
    loop e (fuel + 1) s = (perform e { s with cur } item).bind (loop e fuel) := by
  rw [loop, found]
  simp only [if_neg (Nat.not_le_of_lt room)]
  rfl

def LoopSpec (e : LogEnv) (size fuel : Nat) (s : LogState) : Prop :=
  (∀ s', loop e fuel s = .ok s' → Kept size s') ∧
    ((∃ s', loop e fuel s = .ok s' ∧ 0 < s'.remainingBufChars) ↔
      Clean e (items e.va fuel s.cur) s.printedChars s.remainingBufChars)

theorem LoopSpec.of_ended {fuel : Nat} (kept : Kept size s) (room : 0 < s.remainingBufChars)
    (ended : loop e fuel s = .ok s) (clean : Clean e (items e.va fuel s.cur) s.printedChars s.remainingBufChars) :
    LoopSpec e size fuel s := by
  rw [LoopSpec, ended]
  refine ⟨?_, iff_of_true ⟨s, rfl, room⟩ clean⟩
  rintro s' ⟨⟩
  exact kept

theorem loop_spec (e : LogEnv) {fuel : Nat} (fits : s.cur.fmt.length ≤ fuel) (kept : Kept size s)
    (room : 0 < s.remainingBufChars) : LoopSpec e size fuel s := by
  induction fuel generalizing s with
  | zero =>
    have done : next e.va s.cur = none := by
      rw [next, List.length_eq_zero_iff.mp (Nat.le_zero.mp fits)]
    exact .of_ended kept room (loop_none 0 done) trivial
  | succ fuel ih =>
    cases found : next e.va s.cur with
    | none => exact .of_ended kept room (loop_none _ found) (by simp [items, found, Clean])
    | some pair =>
      obtain ⟨item, cur⟩ := pair
      rcases Nat.lt_or_ge 1 s.remainingBufChars with more | full
      case inr => exact .of_ended kept room (loop_full _ full) (clean_of_full full)
      have shorter : cur.fmt.length ≤ fuel := Nat.le_of_lt_succ ((length_next found).trans_le fits)
      rw [LoopSpec, loop_succ fuel found more]
      simp only [items, found, Clean, Nat.not_le_of_lt more, false_or]
      rcases @perform_cases { s with cur } e more item with
        ⟨⟨stop, failed⟩, unsound⟩ | ⟨text, terminated, ok, length, inside, sound⟩
      case inl =>
        rw [failed]
        refine ⟨nofun, iff_of_false ?_ fun both => unsound both.1⟩
        rintro ⟨s', ⟨⟩, -⟩
      case inr =>
        have after := (kept.moved cur).put inside
        rw [ok, sound, ← length]
        change (∀ s', loop e fuel _ = _ → _) ∧ ((∃ s', loop e fuel _ = _ ∧ _) ↔ _)
        by_cases leaves : text.length < s.remainingBufChars
        · obtain ⟨counters, clean⟩ := ih shorter after (Nat.sub_pos_of_lt leaves)
          exact ⟨counters, clean.trans (and_iff_right leaves).symm⟩
        · -- The two characters of an unknown specifier took the last two places.
          have none_left : s.remainingBufChars - text.length = 0 := Nat.sub_eq_zero_of_le (Nat.le_of_not_lt leaves)
          rw [loop_full fuel (none_left.le.trans (Nat.zero_le 1))]
          refine ⟨?_, iff_of_false ?_ fun both => leaves both.1⟩
          · rintro s' ⟨⟩
            exact after
          · rintro ⟨s', ⟨⟩, left⟩
            exact absurd none_left (Nat.ne_of_gt left)

/-- The call returns, stays inside the buffer and returns the number of characters before the terminator; it has not
    read the format behind its end, which would have stopped it. -/
def Bounded (e : LogEnv) (format : List Wchar) (bufLenBytes : Nat) : Prop :=
  ∃ r, logFmtVPrint e format bufLenBytes = .ok r ∧ r.extent ≤ bufLenBytes / 2 ∧ r.returned = r.out.length

/-- The formatter keeps its bounds if and only if every item it reaches before the buffer is full is sound. -/
theorem bounded_iff (e : LogEnv) (format : List Wchar) (bufLenBytes : Nat) :
    Bounded e format bufLenBytes ↔ Clean e (items e.va format.length ⟨format, 0⟩) 0 (bufLenBytes / 2) := by
  rcases Nat.eq_zero_or_pos (bufLenBytes / 2) with none_left | room
  case inl =>
    refine iff_of_true ⟨⟨[], 0, 0⟩, ?_, Nat.zero_le _, rfl⟩ ?_
    · rw [logFmtVPrint, if_pos none_left]
    · rw [none_left]
      exact clean_of_full (Nat.zero_le 1)
  have start : Kept (bufLenBytes / 2) ⟨⟨format, 0⟩, [], 0, bufLenBytes / 2, 0⟩ :=
    ⟨rfl, Nat.zero_add _, Nat.zero_le _⟩
  obtain ⟨counters, clean⟩ := loop_spec e (le_refl format.length) start room
  rw [← clean, Bounded, logFmtVPrint, if_neg (Nat.ne_of_gt room)]
  constructor
  · rintro ⟨r, run, extent, -⟩
    cases ended : loop e format.length ⟨⟨format, 0⟩, [], 0, bufLenBytes / 2, 0⟩ with
    | error stop =>
      rw [ended] at run
      cases run
    | ok s =>
      obtain ⟨printed, remaining, -⟩ := counters s ended
      rw [ended] at run
      cases run
      have terminator := (max_le_iff.mp extent).2
      exact ⟨s, rfl, by omega⟩
  · rintro ⟨s, ended, left⟩
    obtain ⟨printed, remaining, extent⟩ := counters s ended
    rw [ended]
    exact ⟨_, rfl, max_le extent (by omega), printed⟩

def LogEnv.sample : LogEnv where
  va := ⟨fun _ => 0, fun _ => none, fun _ => none⟩
  unicodeSPrint _ _ := []
  unicodeSPrint_lt _ _ room := room
  tempSize := 321
  tempAsciiBuf _ := 0

/-- The format `%` alone is read behind its terminator, however large the buffer. -/
theorem lone_percent_overreads :
    logFmtVPrint .sample [⟨L '%', by decide⟩] 512 = .error .formatOverread ∧
      ¬Bounded .sample [⟨L '%', by decide⟩] 512 := by
  have run : logFmtVPrint .sample [⟨L '%', by decide⟩] 512 = .error .formatOverread := rfl
  refine ⟨run, ?_⟩
  rintro ⟨r, ok, -⟩
  rw [run] at ok
  cases ok

end LeoEdk.Sbc.LogFormat
