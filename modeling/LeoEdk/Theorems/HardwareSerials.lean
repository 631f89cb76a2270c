import LeoEdk.Sbc.Smbios

/-! When the serial numbers of the hardware are the strings that their indices denote. Each record of the type can be
    served or not (`Serves`), and the last one decides what is stored. -/

namespace LeoEdk.Sbc

open Bytes List

/-! ### The walk over the strings -/

section Strings

variable {pre post u : Bytes}

theorem terminator_append (clean : 0 ∉ u) :
    terminator (pre ++ (u ++ 0 :: post)) pre.length = .ok (pre.length + u.length) := by
  have none_ : u.findIdx? (· == 0) = none := by
    rw [List.findIdx?_eq_none_iff]
    intro b mem
    rw [beq_eq_false_iff_ne]
    rintro rfl
    exact clean mem
  rw [terminator, drop_left, List.findIdx?_append, none_, List.findIdx?_cons]
  simp

theorem readByte_append (b : UInt8) : readByte (pre ++ b :: post) pre.length = .ok b := by
  rw [readByte, List.getElem?_append_right (Nat.le_refl _), Nat.sub_self]
  rfl

theorem readByte_end : readByte pre pre.length = .error .outside := by
  rw [readByte, List.getElem?_eq_none (Nat.le_refl _)]

end Strings

def packed (us : List Bytes) : Bytes := us.flatMap (· ++ [0])

section Skip

variable {pre t post : Bytes} (printed n : Nat)

theorem skipStrings_succ {b : UInt8} (clean : 0 ∉ t) :
    skipStrings (pre ++ (t ++ 0 :: b :: post)) printed (n + 1) pre.length =
      if b = 0 ∧ post.length + 1 < printed then .error .outside
      else skipStrings (pre ++ (t ++ 0 :: b :: post)) printed n (pre ++ (t ++ [0])).length := by
  have next := @readByte_append (pre ++ (t ++ [0])) post b
  have shape : pre ++ (t ++ [0]) ++ b :: post = pre ++ (t ++ 0 :: b :: post) := by simp
  have stop : (pre ++ (t ++ [0])).length = pre.length + t.length + 1 := by
    rw [length_append, length_append, length_singleton, Nat.add_assoc]
  have behind : (pre ++ (t ++ 0 :: b :: post)).length < pre.length + t.length + 1 + printed ↔
      post.length + 1 < printed := by
    rw [length_append, length_append, length_cons, length_cons]
    omega
  rw [shape, stop] at next
  rw [skipStrings, terminator_append clean]
  change (readByte _ _ >>= _) = _
  rw [next, stop]
  change ite _ _ _ = _
  simp only [behind]

theorem skipStrings_end : skipStrings (pre ++ [0]) printed (n + 1) pre.length = .error .outside := by
  have first := @terminator_append pre [] [] not_mem_nil
  have past := @readByte_end (pre ++ [0])
  rw [nil_append] at first
  rw [length_append] at past
  rw [skipStrings, first]
  change (readByte _ (pre.length + [(0 : UInt8)].length) >>= _) = _
  rw [past]
  rfl

end Skip

theorem skipStrings_packed {pre t : Bytes} {ts : List Bytes} (clean : ∀ u ∈ t :: ts, 0 ∉ u)
    (nonempty : ∀ u ∈ ts, u ≠ []) (printed n : Nat) :
    skipStrings (pre ++ packed (t :: ts ++ [[]])) printed n pre.length =
      if n ≤ ts.length + 1 ∧ (n = ts.length + 1 → printed ≤ 1) then
        .ok (pre.length + (packed ((t :: ts).take n)).length)
      else .error .outside := by
  induction ts generalizing pre t n with
  | nil =>
    cases n with
    | zero => rfl
    | succ n =>
      have bytes : pre ++ packed ([t] ++ [[]]) = pre ++ (t ++ [0, 0]) := by simp [packed]
      have behind : pre ++ (t ++ [0, 0]) = pre ++ (t ++ [0]) ++ [0] := by simp
      rw [bytes, skipStrings_succ printed n (clean t mem_cons_self)]
      cases n with
      | zero =>
        have length : (pre ++ (t ++ [0])).length = pre.length + (packed [t]).length := by simp [packed]
        rw [skipStrings, length]
        by_cases long : 1 < printed
        · rw [if_pos ⟨rfl, long⟩, if_neg fun both => absurd (both.2 rfl) (Nat.not_le.mpr long)]
        · rw [if_neg fun both => long both.2, if_pos ⟨Nat.le_refl _, fun _ => Nat.not_lt.mp long⟩]
          rfl
      | succ n =>
        rw [behind, skipStrings_end, ite_self, if_neg fun both => absurd both.1 (by simp)]
  | cons u ts ih =>
    cases n with
    | zero => rfl
    | succ n =>
      obtain ⟨b, u', rfl⟩ := exists_cons_of_ne_nil (nonempty u mem_cons_self)
      have b_ne : b ≠ 0 := by
        rintro rfl
        exact clean _ (mem_cons_of_mem _ mem_cons_self) mem_cons_self
      have bytes : pre ++ packed (t :: (b :: u') :: ts ++ [[]]) = pre ++
          (t ++ 0 :: b :: (u' ++ 0 :: packed (ts ++ [[]]))) := by
        simp [packed]
      have rest : pre ++ (t ++ 0 :: b :: (u' ++ 0 :: packed (ts ++ [[]]))) =
          pre ++ (t ++ [0]) ++ packed ((b :: u') :: ts ++ [[]]) := by
        simp [packed]
      rw [bytes, skipStrings_succ printed n (clean t mem_cons_self), if_neg fun both => b_ne both.1, rest,
        ih (fun v mem => clean v (mem_cons_of_mem _ mem)) (fun v mem => nonempty v (mem_cons_of_mem _ mem)) n]
      simp only [length_cons, Nat.add_le_add_iff_right, Nat.add_right_cancel_iff, take_succ_cons]
      congr 2
      simp [packed]
      omega

namespace SmbiosRecord

variable (r : SmbiosRecord)

def entries : List Bytes := r.texts ++ [[]]

def denoted (k : Serial) : Option Bytes :=
  match r.formatted[k.indexOffset]? with
  | none => none
  | some index => if index = 0 then none else r.strings[index.toNat - 1]?

theorem bytes_eq : r.bytes = r.formatted ++ packed r.entries := by
  simp [bytes, stringSet, packed, entries]

theorem clean : ∀ u ∈ r.entries, 0 ∉ u := by
  intro u mem
  rw [entries, texts] at mem
  rcases mem_append.mp mem with mem | mem
  · split at mem
    · rw [mem_singleton.mp mem]
      exact not_mem_nil
    · exact (r.strings_ne u mem).2
  · rw [mem_singleton.mp mem]
    exact not_mem_nil

theorem texts_eq : ∃ t ts, r.texts = t :: ts ∧ ∀ u ∈ ts, u ≠ [] := by
  rw [texts]
  split
  · exact ⟨[], [], rfl, fun u mem => absurd mem not_mem_nil⟩
  · rename_i some_
    obtain ⟨t, ts, eq⟩ := exists_cons_of_ne_nil some_
    exact ⟨t, ts, eq, fun u mem => (r.strings_ne u (eq ▸ mem_cons_of_mem t mem)).1⟩

theorem entries_of_denoted {k : Serial} {s : Bytes} (denoted : r.denoted k = some s) :
    ∃ index, r.bytes[k.indexOffset]? = some index ∧ index ≠ 0 ∧ r.entries[index.toNat - 1]? = some s := by
  rw [SmbiosRecord.denoted] at denoted
  split at denoted
  · cases denoted
  · rename_i index found
    split_ifs at denoted with zero
    refine ⟨index, ?_, zero, ?_⟩
    · have inside := (List.getElem?_eq_some_iff.mp found).1
      rw [bytes, List.getElem?_append_left inside, found]
    · have inside := (List.getElem?_eq_some_iff.mp denoted).1
      have some_ : r.strings ≠ [] := fun empty => by
        rw [empty] at inside
        exact absurd inside (Nat.not_lt_zero _)
      rw [entries, texts, if_neg some_, List.getElem?_append_left inside, denoted]

theorem string_at {n : Nat} {s : Bytes} (entry : r.entries[n]? = some s) :
    terminator r.bytes (r.formatted.length + (packed (r.entries.take n)).length) =
        .ok (r.formatted.length + (packed (r.entries.take n)).length + s.length) ∧
      slice (r.formatted.length + (packed (r.entries.take n)).length) s.length r.bytes = s := by
  obtain ⟨inside, here⟩ := List.getElem?_eq_some_iff.mp entry
  have split : r.entries = r.entries.take n ++ s :: r.entries.drop (n + 1) := by
    rw [← here, cons_getElem_drop_succ, take_append_drop]
  have bytes : r.bytes = r.formatted ++ packed (r.entries.take n) ++ (s ++ 0 :: packed (r.entries.drop (n + 1))) := by
    rw [bytes_eq]
    conv_lhs => rw [split]
    simp [packed]
  rw [← length_append, bytes]
  exact ⟨terminator_append (r.clean s (mem_of_getElem? entry)), slice_middle _ _ _ rfl rfl⟩

end SmbiosRecord

def stored (k : Serial) (s info : Bytes) : Bytes :=
  overwrite k.field s (overwrite (k.field + 64) (leBytes 8 s.length) info)

section Stored

variable {k : Serial} {s info : Bytes} (whole : info.length = sizeOfHwUniqueinfo)

include whole

theorem length_stored (short : s.length ≤ 64) : (stored k s info).length = sizeOfHwUniqueinfo := by
  have room : k.field + 72 ≤ 216 := by cases k <;> decide
  have inner : (overwrite (k.field + 64) (leBytes 8 s.length) info).length = 216 := by
    rw [length_overwrite (by rw [length_leBytes, whole, sizeOfHwUniqueinfo]; omega), whole]
    rfl
  rw [stored, length_overwrite (by omega), inner]
  rfl

theorem serial_stored (short : s.length ≤ 64) :
    k.length (stored k s info) = s.length ∧ k.serial (stored k s info) = s := by
  have room : k.field + 72 ≤ 216 := by cases k <;> decide
  rw [sizeOfHwUniqueinfo] at whole
  have inner : (overwrite (k.field + 64) (leBytes 8 s.length) info).length = 216 := by
    rw [length_overwrite (by rw [length_leBytes]; omega), whole]
  have length : k.length (stored k s info) = s.length := by
    have own := @slice_overwrite_self (k.field + 64) (leBytes 8 s.length) info (by omega)
    rw [length_leBytes] at own
    rw [Serial.length, stored, slice_overwrite_of_le _ (by omega) (by omega), own,
      leNat_leBytes_of_lt (Nat.lt_of_le_of_lt short (by decide))]
  refine ⟨length, ?_⟩
  rw [Serial.serial, length, stored, slice_overwrite_self (by omega)]

end Stored

/-! ### The records of a table -/

/-- The record has the serial number `s` for the function, which has stored a length of `length` before. -/
def Serves (k : Serial) (length : Nat) (r : SmbiosRecord) (index : UInt8) (s : Bytes) : Prop :=
  r.entries[index.toNat - 1]? = some s ∧ (index.toNat = r.entries.length → k.printed length ≤ 1)

section Take

variable {k : Serial} {r : SmbiosRecord} {info : Bytes} {index : UInt8}

theorem skipStrings_record (nonzero : index ≠ 0) (printed : Nat) :
    skipStrings r.bytes printed (index.toNat - 1) r.formatted.length =
      if index.toNat - 1 < r.entries.length ∧ (index.toNat = r.entries.length → printed ≤ 1) then
        .ok (r.formatted.length + (packed (r.entries.take (index.toNat - 1))).length)
      else .error .outside := by
  obtain ⟨t, ts, texts, nonempty⟩ := r.texts_eq
  have clean : ∀ u ∈ t :: ts, 0 ∉ u := fun u mem => r.clean u (mem_append_left _ (texts ▸ mem))
  have walk := @skipStrings_packed r.formatted t ts clean nonempty printed (index.toNat - 1)
  have pos : 0 < index.toNat := Nat.pos_of_ne_zero fun zero => nonzero (UInt8.toNat_inj.mp zero)
  have length : r.entries.length = ts.length + 2 := by
    rw [SmbiosRecord.entries, texts, length_append]
    rfl
  have entries : r.entries = t :: ts ++ [[]] := by rw [SmbiosRecord.entries, texts]
  rw [r.bytes_eq, entries, walk, ← entries, length]
  by_cases served : index.toNat - 1 ≤ ts.length + 1 ∧ (index.toNat - 1 = ts.length + 1 → printed ≤ 1)
  · rw [if_pos served, if_pos ⟨by omega, fun last => served.2 (by omega)⟩, entries,
      take_append_of_le_length (by rw [length_cons]; omega)]
  · rw [if_neg served, if_neg fun both => served ⟨by omega, fun last => both.2 (by omega)⟩]

theorem takeSerial_outside (missing : r.bytes[k.indexOffset]? = none) :
    takeSerial k r.bytes info = .error .outside := by
  rw [takeSerial, readByte, missing]
  rfl

theorem takeSerial_zero (found : r.bytes[k.indexOffset]? = some 0) : takeSerial k r.bytes info = .ok (info, []) := by
  rw [takeSerial, readByte, found]
  rfl

variable (found : r.bytes[k.indexOffset]? = some index) (nonzero : index ≠ 0)

include found nonzero

theorem takeSerial_eq_bind : takeSerial k r.bytes info =
    skipStrings r.bytes (k.printed (k.length info)) (index.toNat - 1) r.formatted.length >>= fun p =>
      terminator r.bytes p >>= fun stop =>
        if (overwrite (k.field + 64) (leBytes 8 (stop - p)) info).length < k.field + (stop - p) then .error .overflow
        else .ok (overwrite k.field (slice p (stop - p) r.bytes)
          (overwrite (k.field + 64) (leBytes 8 (stop - p)) info), [stop - p]) := by
  have pos : 0 < index.toNat := Nat.pos_of_ne_zero fun zero => nonzero (UInt8.toNat_inj.mp zero)
  have length : readByte r.bytes 1 = .ok (r.formatted.getD 1 0) := by
    have inside : 1 < r.formatted.length := Nat.lt_of_lt_of_le (by decide) r.length_ge
    rw [readByte, SmbiosRecord.bytes, List.getElem?_append_left inside, getD_eq_getElem?_getD,
      List.getElem?_eq_getElem inside]
    rfl
  have index_ : readByte r.bytes k.indexOffset = .ok index := by rw [readByte, found]
  rw [takeSerial, index_]
  change ite _ _ _ = _
  rw [if_pos pos, length]
  change (skipStrings _ _ _ (r.formatted.getD 1 0).toNat >>= _) = _
  rw [r.length_eq]
  rfl

theorem takeSerial_eq (whole : info.length = sizeOfHwUniqueinfo) {s : Bytes}
    (serves : Serves k (k.length info) r index s) : takeSerial k r.bytes info =
      if info.length < k.field + s.length then .error .overflow else .ok (stored k s info, [s.length]) := by
  obtain ⟨stop, string⟩ := r.string_at serves.1
  have room : k.field + 64 + (leBytes 8 s.length).length ≤ info.length := by
    rw [whole, length_leBytes]
    cases k <;> decide
  rw [takeSerial_eq_bind found nonzero, skipStrings_record nonzero,
    if_pos ⟨(List.getElem?_eq_some_iff.mp serves.1).1, serves.2⟩]
  change (terminator _ _ >>= _) = _
  rw [stop]
  change ite _ _ _ = _
  rw [Nat.add_sub_cancel_left, string, length_overwrite room]
  rfl

theorem takeSerial_unserved (unserved : ¬ ∃ s, Serves k (k.length info) r index s) :
    takeSerial k r.bytes info = .error .outside := by
  rw [takeSerial_eq_bind found nonzero, skipStrings_record nonzero, if_neg]
  · rfl
  · rintro ⟨inside, printed⟩
    exact unserved ⟨_, List.getElem?_eq_getElem inside, printed⟩

end Take

/-- Every record that the function looks at has its index in the record, and no index or one of a string with room in
    the field; `length` is the length that was stored before. -/
def AllServed (k : Serial) : Nat → List SmbiosRecord → Prop
  | _, [] => True
  | length, r :: rs =>
    if r.type = k.recordType then
      r.bytes[k.indexOffset]? = some 0 ∧ AllServed k length rs ∨
        ∃ index s, r.bytes[k.indexOffset]? = some index ∧ index ≠ 0 ∧ Serves k length r index s ∧ s.length ≤ 64 ∧
          AllServed k s.length rs
    else AllServed k length rs

/-- What the function promises: it ends inside of the record and of the structure, stores no length above 64, and stores
    the string that the last record of the type denotes. -/
def Extracts (k : Serial) (records : List SmbiosRecord) (info : Bytes) : Prop :=
  ∃ info' lengths, serialNumber k (some records) info = .ok (.ok, info', lengths) ∧ (∀ n ∈ lengths, n ≤ 64) ∧
    ∀ r s, (records.filter (·.type == k.recordType)).getLast? = some r → r.denoted k = some s → s.length ≤ 64 →
      k.serial info' = s

section Table

variable {k : Serial} {rs : List SmbiosRecord} {info info' : Bytes} {lengths : List Nat} {r : SmbiosRecord}

theorem takeSerials_cons {info₁ : Bytes} {first : List Nat}
    (visited : visitRecord k r info = .ok (info₁, first)) : takeSerials k (r :: rs) info =
      takeSerials k rs info₁ >>= fun others => .ok (others.1, first ++ others.2) := by
  rw [takeSerials, visited]
  rfl

theorem takeSerials_cons_error {stop : SmbiosStop} (visited : visitRecord k r info = .error stop) :
    takeSerials k (r :: rs) info = .error stop := by
  rw [takeSerials, visited]
  rfl

def Taken (k : Serial) (rs : List SmbiosRecord) (info info' : Bytes) : Prop :=
  ∃ lengths, takeSerials k rs info = .ok (info', lengths) ∧ ∀ n ∈ lengths, n ≤ 64

theorem taken_cons_iff {info₁ : Bytes} {first : List Nat}
    (visited : visitRecord k r info = .ok (info₁, first)) :
    Taken k (r :: rs) info info' ↔ (∀ n ∈ first, n ≤ 64) ∧ Taken k rs info₁ info' := by
  rw [Taken, Taken, takeSerials_cons visited]
  rcases takeSerials k rs info₁ with stop | ⟨info₂, others⟩
  · exact iff_of_false (fun ⟨_, run, _⟩ => nomatch run) fun ⟨_, _, run, _⟩ => nomatch run
  · constructor
    · rintro ⟨_, run, short⟩
      cases run
      exact ⟨fun n mem => short n (mem_append_left _ mem), others, rfl, fun n mem => short n (mem_append_right _ mem)⟩
    · rintro ⟨shortFirst, _, run, short⟩
      cases run
      exact ⟨_, rfl, fun n mem => (mem_append.mp mem).elim (shortFirst n) (short n)⟩

theorem not_taken_cons {stop : SmbiosStop} (visited : visitRecord k r info = .error stop) :
    ¬ Taken k (r :: rs) info info' := by
  rintro ⟨_, run, _⟩
  rw [takeSerials_cons_error visited] at run
  cases run

theorem visitRecord_of_type (type : r.type = k.recordType) :
    visitRecord k r info = takeSerial k r.bytes info := if_pos type

theorem visitRecord_of_other (type : r.type ≠ k.recordType) : visitRecord k r info = .ok (info, []) :=
  if_neg type

variable (whole : info.length = sizeOfHwUniqueinfo)
include whole

theorem visitRecord_served {index : UInt8} {s : Bytes}
    (type : r.type = k.recordType) (found : r.bytes[k.indexOffset]? = some index) (nonzero : index ≠ 0)
    (serves : Serves k (k.length info) r index s) (short : s.length ≤ 64) :
    visitRecord k r info = .ok (stored k s info, [s.length]) := by
  have room : ¬ info.length < k.field + s.length := by
    have field : k.field + 64 ≤ 216 := by cases k <;> decide
    rw [whole, sizeOfHwUniqueinfo]
    omega
  rw [visitRecord_of_type type, takeSerial_eq found nonzero whole serves, if_neg room]

theorem taken_cons : Taken k (r :: rs) info info' ↔ if r.type = k.recordType then
      r.bytes[k.indexOffset]? = some 0 ∧ Taken k rs info info' ∨
        ∃ index s, r.bytes[k.indexOffset]? = some index ∧ index ≠ 0 ∧ Serves k (k.length info) r index s ∧
          s.length ≤ 64 ∧ Taken k rs (stored k s info) info' else Taken k rs info info' := by
  by_cases type : r.type = k.recordType
  · rw [if_pos type]
    rcases found : r.bytes[k.indexOffset]? with _ | index
    · refine iff_of_false (not_taken_cons ((visitRecord_of_type type).trans (takeSerial_outside found))) ?_
      rintro (⟨impossible, _⟩ | ⟨_, _, impossible, _⟩) <;> cases impossible
    by_cases zero : index = 0
    · subst zero
      rw [taken_cons_iff ((visitRecord_of_type type).trans (takeSerial_zero found))]
      constructor
      · exact fun taken => .inl ⟨rfl, taken.2⟩
      · rintro (⟨_, taken⟩ | ⟨_, _, same, nonzero, _⟩)
        · exact ⟨fun n mem => absurd mem not_mem_nil, taken⟩
        · exact absurd (Option.some.inj same).symm nonzero
    constructor
    · intro taken
      by_cases served : ∃ s, Serves k (k.length info) r index s
      · obtain ⟨s, serves⟩ := served
        by_cases short : s.length ≤ 64
        · exact .inr ⟨index, s, rfl, zero, serves, short,
            ((taken_cons_iff (visitRecord_served whole type found zero serves short)).mp taken).2⟩
        · -- a longer string leaves the structure, or its length is stored
          have visited := (visitRecord_of_type type).trans (takeSerial_eq found zero whole serves)
          split_ifs at visited with overflow
          · exact absurd taken (not_taken_cons visited)
          · exact absurd (((taken_cons_iff visited).mp taken).1 _ mem_cons_self) short
      · exact absurd taken (not_taken_cons ((visitRecord_of_type type).trans (takeSerial_unserved found zero served)))
    · rintro (⟨same, _⟩ | ⟨index', s, same, _, serves, short, taken⟩)
      · exact absurd (Option.some.inj same) zero
      · obtain rfl := Option.some.inj same
        refine (taken_cons_iff (visitRecord_served whole type found zero serves short)).mpr ⟨fun n mem => ?_, taken⟩
        rw [mem_singleton.mp mem]
        exact short
  · rw [if_neg type, taken_cons_iff (visitRecord_of_other type)]
    exact ⟨fun taken => taken.2, fun taken => ⟨fun n mem => absurd mem not_mem_nil, taken⟩⟩

theorem exists_taken_iff : (∃ info', Taken k rs info info') ↔ AllServed k (k.length info) rs := by
  induction rs generalizing info with
  | nil => exact iff_of_true ⟨info, [], rfl, fun n mem => absurd mem not_mem_nil⟩ trivial
  | cons r rs ih =>
    simp only [AllServed, taken_cons whole]
    split
    · rw [← ih whole]
      constructor
      · rintro ⟨info', ⟨found, taken⟩ | ⟨index, s, found, nonzero, serves, short, taken⟩⟩
        · exact .inl ⟨found, info', taken⟩
        · refine .inr ⟨index, s, found, nonzero, serves, short, ?_⟩
          rw [← (serial_stored whole short).1, ← ih (length_stored whole short)]
          exact ⟨info', taken⟩
      · rintro (⟨found, info', taken⟩ | ⟨index, s, found, nonzero, serves, short, all⟩)
        · exact ⟨info', .inl ⟨found, taken⟩⟩
        · rw [← (serial_stored whole short).1, ← ih (length_stored whole short)] at all
          obtain ⟨info', taken⟩ := all
          exact ⟨info', .inr ⟨index, s, found, nonzero, serves, short, taken⟩⟩
    · exact ih whole

theorem taken_of_none (none_ : rs.filter (·.type == k.recordType) = []) (taken : Taken k rs info info') :
    info' = info := by
  induction rs with
  | nil =>
    obtain ⟨_, run, _⟩ := taken
    cases run
    rfl
  | cons r rs ih =>
    rw [filter_eq_nil_iff] at none_
    have type : r.type ≠ k.recordType := fun type => none_ r mem_cons_self (beq_iff_eq.mpr type)
    rw [taken_cons whole, if_neg type] at taken
    exact ih (filter_eq_nil_iff.mpr fun u mem => none_ u (mem_cons_of_mem _ mem)) taken

theorem serial_of_taken (taken : Taken k rs info info')
    {s : Bytes} (last : (rs.filter (·.type == k.recordType)).getLast? = some r) (denoted : r.denoted k = some s) :
    k.serial info' = s := by
  induction rs generalizing info with
  | nil => cases last
  | cons r₀ rs ih =>
    rw [taken_cons whole] at taken
    rw [filter_cons] at last
    split at taken
    · rename_i type
      rw [if_pos (beq_iff_eq.mpr type)] at last
      by_cases others : rs.filter (·.type == k.recordType) = []
      · rw [others] at last
        obtain rfl : r₀ = r := Option.some.inj last
        obtain ⟨index, found, nonzero, entry⟩ := r₀.entries_of_denoted denoted
        rcases taken with ⟨zero, _⟩ | ⟨index', s', found', _, serves, short, taken⟩
        · rw [found] at zero
          exact absurd (Option.some.inj zero) nonzero
        · obtain rfl := Option.some.inj (found.symm.trans found')
          obtain rfl := Option.some.inj (entry.symm.trans serves.1)
          rw [taken_of_none (length_stored whole short) others taken]
          exact (serial_stored whole short).2
      · rw [List.getLast?_cons_of_ne_nil others] at last
        rcases taken with ⟨_, taken⟩ | ⟨_, _, _, _, _, short, taken⟩
        · exact ih whole taken last
        · exact ih (length_stored whole short) taken last
    · rename_i type
      rw [if_neg fun same => type (beq_iff_eq.mp same)] at last
      exact ih whole taken last

end Table

theorem length_clearMmsnl {info : Bytes} (whole : info.length = sizeOfHwUniqueinfo) :
    (clearMmsnl info).length = sizeOfHwUniqueinfo := by
  rw [clearMmsnl, length_overwrite (by rw [whole, length_leBytes]; decide), whole]

/-- The function extracts the serial number if and only if every record of its type can be served. -/
theorem extracts_iff (k : Serial) (records : List SmbiosRecord) {info : Bytes}
    (whole : info.length = sizeOfHwUniqueinfo) :
    Extracts k records info ↔ AllServed k (k.length (clearMmsnl info)) records := by
  rw [← exists_taken_iff (length_clearMmsnl whole), Extracts]
  constructor
  · rintro ⟨info', lengths, run, short, _⟩
    refine ⟨info', lengths, ?_, short⟩
    rw [serialNumber] at run
    rcases taken : takeSerials k records (clearMmsnl info) with stop | result
    · rw [taken] at run
      cases run
    · rw [taken] at run
      cases run
      rfl
  · rintro ⟨info', lengths, run, short⟩
    refine ⟨info', lengths, ?_, short, fun r s last denoted _ =>
      serial_of_taken (length_clearMmsnl whole) ⟨lengths, run, short⟩ last denoted⟩
    rw [serialNumber, run]
    rfl

def baseBoard (index : UInt8) : SmbiosRecord :=
  ⟨[2, 8, 0, 0, 1, 0, 0, index], [[0x41, 0x42]], by simp, rfl, by decide⟩

theorem extracts_baseBoard : Extracts .baseboard [baseBoard 1] (List.replicate 216 0) ∧
    (baseBoard 1).denoted .baseboard = some [0x41, 0x42] := by
  refine ⟨(extracts_iff .baseboard [baseBoard 1] length_replicate).mpr ?_, by decide⟩
  rw [AllServed, if_pos (by decide)]
  exact .inr ⟨1, [0x41, 0x42], by decide, by decide, ⟨by decide, fun last => absurd last (by decide)⟩, by decide,
    trivial⟩

/-- The index 3 in a record with one string leads behind the end of the set. -/
theorem baseBoard_read_behind_strings : ¬ Extracts .baseboard [baseBoard 3] (List.replicate 216 0) := by
  have run : serialNumber .baseboard (some [baseBoard 3]) (List.replicate 216 0) = .error .outside := by decide
  rintro ⟨_, _, returned, _⟩
  rw [run] at returned
  cases returned

end LeoEdk.Sbc
