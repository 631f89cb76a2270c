import LeoEdk.Theorems.VariableRecords
import LeoEdk.Variable.Conversion

/-! The conversion of a normal store to one with authenticated headers keeps the added variables. Both loops go over
    the variables and then over erased bytes; the copies end where the first has computed, and the walk over them
    meets them in order. -/

namespace LeoEdk.Variable

open Bytes List

/-! ### Normal stores -/

/-- A variable of a normal store, in any state; `pad` are the bytes up to the next header. The header announces the
    sizes while the state is still erased: an unfinished variable whose name and data are not written has neither here,
    and behind its header lie erased bytes or the next header. -/
structure NormalVariable where
  state : UInt8
  reserved : UInt8
  attributes : UInt32
  nameSize : UInt32
  dataSize : UInt32
  guid : Guid
  name : Bytes
  data : Bytes
  pad : Bytes
  sizes : state ≠ 0xff → nameSize.toNat = name.length ∧ dataSize.toNat = data.length
  length_pad : getVariableHeaderSize false + name.length + data.length + pad.length =
    headerAlign (getVariableHeaderSize false + name.length + data.length)

namespace NormalVariable

variable (v : NormalVariable)

def bytes : Bytes :=
  rawRecord v.state v.reserved v.attributes [] v.nameSize.toNat v.dataSize.toNat v.guid.bytes v.name v.data v.pad

def isAdded : Bool := v.state == varAdded

def contents : UInt32 × Bytes × Bytes × Bytes := (v.attributes, v.guid.bytes, v.name, v.data)

/-- The driver takes a variable whose state is still erased, or all of whose attributes are set, for a bare header: such
    a one is finished if it is no more than that. -/
def Finished : Prop := (v.state ≠ 0xff ∧ v.attributes ≠ 0xffffffff) ∨ (v.name = [] ∧ v.data = [])

def authSize : Nat := getVariableHeaderSize true + v.name.length + v.data.length

def authBytes : Bytes :=
  rawRecord v.state 0 v.attributes (List.replicate (sizesOffset true - 8) 0) v.name.length v.data.length v.guid.bytes
    v.name v.data []

theorem length_bytes :
    v.bytes.length = headerAlign (getVariableHeaderSize false + v.name.length + v.data.length) := by
  rw [bytes, length_rawRecord (a := false) rfl v.guid.length_eq]
  exact v.length_pad

theorem length_bytes_ge : getVariableHeaderSize false + v.name.length + v.data.length ≤ v.bytes.length := by
  rw [length_bytes]
  exact headerAlign_ge _

theorem dvd_length_bytes : 4 ∣ v.bytes.length := by
  rw [length_bytes]
  exact dvd_headerAlign _

theorem length_authBytes : v.authBytes.length = v.authSize := by
  rw [authBytes, length_rawRecord (a := true) length_replicate v.guid.length_eq]
  rfl

theorem written_of_isAdded {v : NormalVariable} (added : v.isAdded = true) : v.state ≠ 0xff := by
  rw [show v.state = varAdded from beq_iff_eq.mp added]
  decide

end NormalVariable

/-- A normal store: its header, the variables, and erased bytes up to `Size`. -/
structure NormalStore where
  head : Bytes
  vars : List NormalVariable
  free : Nat
  length_head : head.length = storeHeaderSize
  size_eq : field head 16 4 = storeHeaderSize + (vars.map (·.bytes)).flatten.length + free

namespace NormalStore

variable (s : NormalStore)

def bytes : Bytes := assemble s.head (s.vars.map (·.bytes)) (erased s.free)

def used : Nat := storeHeaderSize + (s.vars.map (·.bytes)).flatten.length
def size : Nat := s.used + s.free

theorem length_bytes : s.bytes.length = s.size := by
  rw [bytes, assemble, length_append, length_append, length_erased, s.length_head, ← Nat.add_assoc]
  rfl

theorem storeSize_eq : storeSize s.bytes = s.size := by
  rw [storeSize, field, bytes, assemble, slice_append_left _ (by rw [s.length_head]; decide)]
  exact s.size_eq

theorem end_eq : getEndPointer s.bytes = headerAlign s.size := by
  rw [getEndPointer, s.storeSize_eq]

theorem size_lt : s.size < 2 ^ 32 := by
  rw [← s.storeSize_eq]
  exact (leNat_lt _).trans_le (Nat.pow_le_pow_right (by decide) (length_take_le _ _))

theorem length_le_used {v : NormalVariable} (mem : v ∈ s.vars) : storeHeaderSize + v.bytes.length ≤ s.used :=
  Nat.add_le_add_left ((sublist_flatten_of_mem (mem_map_of_mem mem)).length_le) _

theorem sizes_lt {v : NormalVariable} (mem : v ∈ s.vars) : v.authSize < 2 ^ 32 := by
  have inside := s.length_le_used mem
  have ge := v.length_bytes_ge
  have lt := s.size_lt
  rw [size] at lt
  rw [NormalVariable.authSize]
  simp only [getVariableHeaderSize, storeHeaderSize, if_true, Bool.false_eq_true, if_false] at *
  omega

theorem seen {v : NormalVariable} (mem : v ∈ s.vars) (finished : v.Finished) :
    Seen v.state v.attributes v.name v.data := by
  have lt := s.sizes_lt mem
  rw [NormalVariable.authSize, getVariableHeaderSize, if_pos rfl] at lt
  exact ⟨by omega, by omega, finished⟩

end NormalStore

/-! ### The sizes and the layout of the copies -/

/-- Where the copies of the added variables end that are laid out from `o` on. -/
def convertedSize : Nat → List NormalVariable → Nat
  | o, [] => o
  | o, v :: vs => convertedSize (if v.isAdded then headerAlign o + v.authSize else o) vs

def converted : Nat → List NormalVariable → Bytes
  | _, [] => []
  | o, v :: vs =>
    if v.isAdded then
      List.replicate (headerAlign o - o) 0 ++ (v.authBytes ++ converted (headerAlign o + v.authSize) vs)
    else converted o vs

def convertedHeaders : Nat → List NormalVariable → List VariableHeader
  | _, [] => []
  | o, v :: vs =>
    if v.isAdded then
      { offset := headerAlign o, next := headerAlign o + headerAlign v.authSize, state := v.state,
        attributes := v.attributes, guid := v.guid.bytes, name := v.name, data := v.data } ::
        convertedHeaders (headerAlign o + v.authSize) vs
    else convertedHeaders o vs

section Layout

variable {o : Nat} {vs : List NormalVariable}

theorem length_converted : o + (converted o vs).length = convertedSize o vs := by
  induction vs generalizing o with
  | nil => rfl
  | cons v vs ih =>
    have ge := headerAlign_ge o
    rw [converted, convertedSize]
    by_cases added : v.isAdded = true
    · rw [if_pos added, if_pos added, ← ih, length_append, length_append, length_replicate,
        NormalVariable.length_authBytes]
      omega
    · rw [if_neg added, if_neg added, ih]

theorem convertedSize_ge : o ≤ convertedSize o vs := by
  rw [← length_converted]
  exact Nat.le_add_right _ _

theorem length_filter_le : (vs.filter (·.isAdded)).length ≤ (converted o vs).length := by
  induction vs generalizing o with
  | nil => exact Nat.le_refl _
  | cons v vs ih =>
    rw [converted, filter_cons]
    by_cases added : v.isAdded = true
    · have here : 0 < v.authBytes.length := by
        rw [NormalVariable.length_authBytes, NormalVariable.authSize, getVariableHeaderSize, if_pos rfl]
        omega
      have rest := @ih (headerAlign o + v.authSize)
      rw [if_pos added, if_pos added, length_cons, length_append, length_append]
      omega
    · rw [if_neg added, if_neg added]
      exact ih

def VariableHeader.contents (v : VariableHeader) : UInt32 × Bytes × Bytes × Bytes :=
  (v.attributes, v.guid, v.name, v.data)

theorem contents_convertedHeaders :
    (convertedHeaders o vs).map VariableHeader.contents = (vs.filter (·.isAdded)).map NormalVariable.contents := by
  induction vs generalizing o with
  | nil => rfl
  | cons v vs ih =>
    rw [convertedHeaders, filter_cons]
    by_cases added : v.isAdded = true
    · rw [if_pos added, if_pos added, map_cons, map_cons, ih]
      rfl
    · rw [if_neg added, if_neg added, ih]

theorem convertedSize_cases : convertedSize o vs = o ∨ ∃ h ∈ convertedHeaders o vs, 4 ∣ h.offset ∧
    ∃ v ∈ vs, convertedSize o vs = h.offset + v.authSize := by
  induction vs generalizing o with
  | nil => exact .inl rfl
  | cons v vs ih =>
    rw [convertedSize, convertedHeaders]
    by_cases added : v.isAdded = true
    · rw [if_pos added, if_pos added]
      rcases @ih (headerAlign o + v.authSize) with last | ⟨h, mem, aligned, u, inside, eq⟩
      · exact .inr ⟨_, mem_cons_self, dvd_headerAlign o, v, mem_cons_self, last⟩
      · exact .inr ⟨h, mem_cons_of_mem _ mem, aligned, u, mem_cons_of_mem _ inside, eq⟩
    · rw [if_neg added, if_neg added]
      rcases @ih o with none | ⟨h, mem, aligned, u, inside, eq⟩
      · exact .inl none
      · exact .inr ⟨h, mem, aligned, u, mem_cons_of_mem _ inside, eq⟩

theorem offset_lt_convertedSize {h : VariableHeader} (mem : h ∈ convertedHeaders o vs) :
    h.offset < convertedSize o vs := by
  induction vs generalizing o with
  | nil => exact absurd mem not_mem_nil
  | cons v vs ih =>
    rw [convertedHeaders] at mem
    rw [convertedSize]
    by_cases added : v.isAdded = true
    · rw [if_pos added] at mem ⊢
      rcases mem_cons.mp mem with rfl | mem
      · have ge := @convertedSize_ge (headerAlign o + v.authSize) vs
        have header : 60 ≤ v.authSize := (Nat.le_add_right ..).trans (Nat.le_add_right ..)
        dsimp only
        omega
      · exact ih mem
    · rw [if_neg added] at mem ⊢
      exact ih mem

end Layout

/-! ### The walk over the copies -/

theorem walkFrom_converted {store front : Bytes} {vs : List NormalVariable}
    (eq : store = front ++ converted front.length vs) (seen : ∀ v ∈ vs, Seen v.state v.attributes v.name v.data)
    {fuel : Nat} (enough : (vs.filter (·.isAdded)).length < fuel) :
    walkFrom true store fuel (headerAlign front.length) =
      (convertedHeaders front.length vs).takeWhile (fun h => decide (h.offset < getEndPointer store)) := by
  induction vs generalizing front fuel with
  | nil =>
    obtain _ | fuel := fuel
    · omega
    have behind : field store (headerAlign front.length) 2 = 0 := by
      rw [eq, converted, append_nil, field, slice, drop_eq_nil_of_le (headerAlign_ge _)]
      rfl
    rw [walkFrom, isValidVariableHeader, behind, if_neg]
    · rfl
    · rw [show (0 == variableData) = false from rfl, Bool.and_false]
      exact Bool.false_ne_true
  | cons v vs ih =>
    have rest := fun u mem => seen u (mem_cons_of_mem v mem)
    by_cases added : v.isAdded = true
    · rw [converted, if_pos added] at eq
      rw [filter_cons, if_pos added, length_cons] at enough
      obtain _ | fuel := fuel
      · omega
      have ge := headerAlign_ge front.length
      -- the copy is a record behind what has been copied and the zeros up to an aligned place
      obtain ⟨pre, hpre⟩ : ∃ pre, pre = front ++ List.replicate (headerAlign front.length - front.length) 0 := ⟨_, rfl⟩
      have length : pre.length = headerAlign front.length := by
        rw [hpre, length_append, length_replicate]
        omega
      have aligned : 4 ∣ pre.length := length ▸ dvd_headerAlign front.length
      have shape : store = pre ++ (v.authBytes ++ converted (headerAlign front.length + v.authSize) vs) := by
        rw [eq, hpre, append_assoc]
      have reads : Reads true store pre.length v.state v.attributes v.guid.bytes v.name v.data :=
        reads_rawRecord (shape ▸ at_middle ..) length_replicate v.guid.length_eq fun _ => ⟨rfl, rfl⟩
      have start : field store pre.length 2 = variableData := reads.startAt.leNat_eq (by decide)
      have here := reads.variableAt_eq (seen v mem_cons_self) aligned
      have next : getNextVariablePtr true store pre.length = headerAlign (pre.length + v.authSize) := by
        rw [headerAlign_add aligned]
        exact congrArg VariableHeader.next here
      have longer : (pre ++ v.authBytes).length = pre.length + v.authSize := by
        rw [length_append, NormalVariable.length_authBytes]
      have tail := @ih (pre ++ v.authBytes) (by rw [longer, length, shape, append_assoc]) rest fuel (by omega)
      rw [longer, length] at tail
      rw [length] at start here next
      rw [walkFrom, isValidVariableHeader, start, beq_self_eq_true, Bool.and_true, convertedHeaders, if_pos added,
        takeWhile_cons, here, next, tail]
      rfl
    · rw [converted, if_neg added] at eq
      rw [filter_cons, if_neg added] at enough
      rw [convertedHeaders, if_neg added]
      exact ih eq rest enough

/-! ### The loops over the variables -/

section Step

variable {store pre post : Bytes} {v : NormalVariable} (eq : store = pre ++ (v.bytes ++ post))
  (aligned : 4 ∣ pre.length)
  (seen : Seen v.state v.attributes v.name v.data)

include eq

theorem reads_variable : Reads false store pre.length v.state v.attributes v.guid.bytes v.name v.data :=
  reads_rawRecord (eq ▸ at_middle ..) rfl v.guid.length_eq v.sizes

include aligned seen in
theorem next_variable : getNextVariablePtr false store pre.length = pre.length + v.bytes.length := by
  rw [v.length_bytes]
  exact congrArg VariableHeader.next ((reads_variable eq).variableAt_eq seen aligned)

theorem readable_variable : readable store pre.length = true := by
  have ge := v.length_bytes_ge
  have length : store.length = pre.length + (v.bytes.length + post.length) := by
    rw [eq, length_append, length_append]
  rw [show getVariableHeaderSize false = 32 from rfl] at ge
  rw [readable, Bool.and_eq_true, Bool.or_eq_true, decide_eq_true_eq, decide_eq_true_eq, sizesOffset,
    if_neg Bool.false_ne_true]
  omega

variable (added : v.isAdded = true)
include seen added

theorem nameSize_variable : normalNameSize store pre.length = v.name.length :=
  (reads_variable eq).nameField seen (NormalVariable.written_of_isAdded added)

theorem dataSize_variable : normalDataSize store pre.length = v.data.length :=
  (reads_variable eq).dataField seen (NormalVariable.written_of_isAdded added)

theorem copyable_variable : copyable store pre.length = true := by
  have ge := v.length_bytes_ge
  have length : store.length = pre.length + (v.bytes.length + post.length) := by
    rw [eq, length_append, length_append]
  rw [copyable, getVariableDataPtr, getVariableNamePtr, (reads_variable eq).nameSize_eq seen,
    nameSize_variable eq seen added, dataSize_variable eq seen added, Bool.and_eq_true, decide_eq_true_eq,
    decide_eq_true_eq]
  omega

theorem authRecord_variable : authRecord store pre.length = v.authBytes := by
  have reads := reads_variable eq
  have sizes := reads.sizesAt (NormalVariable.written_of_isAdded added)
  rw [authRecord, nameSize_variable eq seen added, dataSize_variable eq seen added, getVariableDataPtr,
    getVariableNamePtr, reads.nameSize_eq seen, reads.startAt.slice_eq (n := 2) rfl,
    reads.stateAt.slice_eq (n := 1) rfl, reads.attributesAt.slice_eq (n := 4) rfl, sizes.slice_eq (n := 8) rfl,
    reads.guidAt.slice_eq reads.length_guid, reads.nameAt.slice_eq rfl, reads.dataAt.slice_eq rfl]
  simp [NormalVariable.authBytes, rawRecord]

end Step

section Run

variable {store post : Bytes} {vs : List NormalVariable} (seen : ∀ v ∈ vs, Seen v.state v.attributes v.name v.data)

include seen

theorem authVarStorageSize_variables {pre : Bytes} (eq : store = pre ++ ((vs.map (·.bytes)).flatten ++ post))
    (aligned : 4 ∣ pre.length) (fits : pre.length + (vs.map (·.bytes)).flatten.length ≤ getEndPointer store)
    (fuel o : Nat) : authVarStorageSize store (vs.length + fuel) pre.length o =
      authVarStorageSize store fuel (pre.length + (vs.map (·.bytes)).flatten.length) (convertedSize o vs) := by
  induction vs generalizing pre o with
  | nil =>
    rw [convertedSize, length_nil, Nat.zero_add]
    rfl
  | cons v vs ih =>
    rw [map_cons, flatten_cons, append_assoc] at eq
    rw [map_cons, flatten_cons, length_append] at fits ⊢
    have here := seen v mem_cons_self
    have ge := v.length_bytes_ge
    have header := header_ge false
    have longer : (pre ++ v.bytes).length = pre.length + v.bytes.length := length_append
    have size : (if v.state = varAdded then headerAlign o + getVariableHeaderSize true + normalNameSize store
        pre.length + normalDataSize store pre.length else o) = if v.isAdded then headerAlign o + v.authSize else o := by
      by_cases added : v.isAdded = true
      · rw [if_pos added, if_pos (beq_iff_eq.mp added), nameSize_variable eq here added,
          dataSize_variable eq here added, NormalVariable.authSize, Nat.add_assoc, Nat.add_assoc, Nat.add_assoc]
      · rw [if_neg added, if_neg fun state => added (beq_iff_eq.mpr state)]
    rw [length_cons, Nat.add_right_comm, authVarStorageSize, if_neg (by omega), readable_variable eq,
      (reads_variable eq).state_eq, next_variable eq aligned here, size, ← longer, ← Nat.add_assoc, ← longer,
      convertedSize, Bool.not_true, if_neg Bool.false_ne_true]
    exact @ih (fun u mem => seen u (mem_cons_of_mem v mem)) (pre ++ v.bytes) (by rw [eq, append_assoc])
      (longer ▸ aligned.add v.dvd_length_bytes) (by omega) _

theorem copyVariables_variables {pre front : Bytes} (eq : store = pre ++ ((vs.map (·.bytes)).flatten ++ post))
    (aligned : 4 ∣ pre.length) (fits : pre.length + (vs.map (·.bytes)).flatten.length ≤ getEndPointer store)
    (fuel : Nat) {m : Nat} (room : convertedSize front.length vs ≤ front.length + m) :
    copyVariables store (vs.length + fuel) pre.length front.length (front ++ List.replicate m 0) =
      copyVariables store fuel (pre.length + (vs.map (·.bytes)).flatten.length) (convertedSize front.length vs)
        (front ++ converted front.length vs ++
          List.replicate (front.length + m - convertedSize front.length vs) 0) := by
  induction vs generalizing pre front m with
  | nil =>
    rw [convertedSize, converted, length_nil, Nat.zero_add, append_nil, Nat.add_sub_cancel_left]
    rfl
  | cons v vs ih =>
    rw [map_cons, flatten_cons, append_assoc] at eq
    rw [map_cons, flatten_cons, length_append] at fits ⊢
    have here := seen v mem_cons_self
    have rest := fun u mem => seen u (mem_cons_of_mem v mem)
    have ge := v.length_bytes_ge
    have header := header_ge false
    have longer : (pre ++ v.bytes).length = pre.length + v.bytes.length := length_append
    have tail := @ih rest (pre ++ v.bytes)
    rw [length_cons, Nat.add_right_comm, copyVariables, if_neg (by omega), readable_variable eq,
      (reads_variable eq).state_eq, next_variable eq aligned here, ← longer, ← Nat.add_assoc, ← longer]
    rw [convertedSize] at room ⊢
    rw [converted]
    by_cases added : v.isAdded = true
    · have state : v.state = varAdded := beq_iff_eq.mp added
      rw [if_pos added] at room ⊢
      have up := headerAlign_ge front.length
      have inside := @convertedSize_ge (headerAlign front.length + v.authSize) vs
      -- the buffer behind the copy is still zero
      have written := @overwrite_zeros (front ++ List.replicate (headerAlign front.length - front.length) 0) v.authBytes
        (m - (headerAlign front.length - front.length)) (by rw [v.length_authBytes]; omega) []
      have stop : (front ++ List.replicate (headerAlign front.length - front.length) 0 ++ v.authBytes).length =
          headerAlign front.length + v.authSize := by
        rw [length_append, length_append, length_replicate, v.length_authBytes]
        omega
      rw [append_nil, append_assoc, replicate_append_replicate, length_append, length_replicate,
        Nat.add_sub_cancel' up, Nat.add_sub_cancel' (by omega), append_nil, v.length_authBytes,
        ← append_assoc] at written
      have copied := @tail (front ++ List.replicate (headerAlign front.length - front.length) 0 ++ v.authBytes)
        (by rw [eq, append_assoc]) (longer ▸ aligned.add v.dvd_length_bytes) (by omega)
        (m - (headerAlign front.length - front.length) - v.authSize) (by rw [stop]; omega)
      rw [stop, show headerAlign front.length + v.authSize + (m - (headerAlign front.length - front.length) -
        v.authSize) = front.length + m by omega] at copied
      rw [if_pos added, Bool.not_true, if_neg Bool.false_ne_true, if_pos state, nameSize_variable eq here added,
        dataSize_variable eq here added, copyable_variable eq here added, authRecord_variable eq here added]
      dsimp only
      rw [written, Nat.add_assoc, Nat.add_assoc, ← Nat.add_assoc _ v.name.length, if_neg]
      · rw [show headerAlign front.length + (getVariableHeaderSize true + v.name.length + v.data.length) =
          headerAlign front.length + v.authSize from rfl, copied]
        simp only [append_assoc]
      · rw [Bool.not_true, Bool.false_or, decide_eq_true_eq, length_append, length_replicate,
          show getVariableHeaderSize true + v.name.length + v.data.length = v.authSize from rfl]
        omega
    · have state : v.state ≠ varAdded := fun same => added (beq_iff_eq.mpr same)
      rw [if_neg added] at room ⊢
      rw [if_neg added, Bool.not_true, if_neg Bool.false_ne_true, if_neg state]
      exact tail (by rw [eq, append_assoc]) (longer ▸ aligned.add v.dvd_length_bytes) (by omega) room

end Run

/-! ### The loops over the erased bytes -/

/-- Where the loops go on from `p` in steps of a bare header, they read no state behind the store. -/
def Clear (store : Bytes) (p : Nat) : Prop := ∀ k, p + 32 * k < getEndPointer store → p + 32 * k + 3 ≤ store.length

section Erased

variable {store pre : Bytes} {n : Nat} (eq : store = pre ++ erased n)

include eq

theorem stateOf_erased {p : Nat} (behind : pre.length ≤ p) (inside : p + 3 ≤ store.length) :
    stateOf store p = 0xff := by
  refine stateOf_eq_of_slice ?_
  rw [eq, length_append, length_erased] at inside
  rw [eq, slice_append_right _ _ (by omega), slice, erased, drop_replicate, take_replicate,
    Nat.min_eq_left (by omega)]
  rfl

theorem next_erased {p : Nat} (aligned : 4 ∣ p) (behind : pre.length ≤ p) (inside : p + 3 ≤ store.length) :
    getNextVariablePtr false store p = p + 32 := by
  have unset : sizesUnset false store p = true := by
    rw [sizesUnset, stateOf_erased eq behind inside]
    rfl
  rw [getNextVariablePtr, getVariableDataPtr, getVariableNamePtr, nameSizeOfVariable, dataSizeOfVariable, if_pos unset,
    if_pos unset]
  exact headerAlign_of_dvd (aligned.add (by decide))

theorem readable_erased {p : Nat} (behind : pre.length ≤ p) : readable store p = true ↔ p + 3 ≤ store.length := by
  rw [readable, Bool.and_eq_true, decide_eq_true_eq]
  refine ⟨fun both => both.1, fun inside => ⟨inside, ?_⟩⟩
  rw [stateOf_erased eq behind inside]
  rfl

theorem loop_erased {β : Type} (loop : Nat → Nat → Except ConversionStop β) {result : β}
    (stop : ∀ fuel p, getEndPointer store ≤ p → loop (fuel + 1) p = .ok result)
    (outside : ∀ fuel p, p < getEndPointer store → readable store p = false → loop (fuel + 1) p = .error .outside)
    (next : ∀ fuel p, p < getEndPointer store → readable store p = true → stateOf store p = 0xff →
      loop (fuel + 1) p = loop fuel (getNextVariablePtr false store p))
    {fuel p : Nat} (aligned : 4 ∣ p) (behind : pre.length ≤ p) (enough : getEndPointer store < p + fuel)
    (some_ : 0 < fuel) : loop fuel p = .ok result ∧ Clear store p ∨ loop fuel p = .error .outside ∧
      ¬ Clear store p := by
  induction fuel generalizing p with
  | zero => exact absurd some_ (Nat.lt_irrefl 0)
  | succ fuel ih =>
    rcases Nat.lt_or_ge p (getEndPointer store) with below | past
    · by_cases inside : p + 3 ≤ store.length
      · rw [next fuel p below ((readable_erased eq behind).mpr inside) (stateOf_erased eq behind inside),
          next_erased eq aligned behind inside]
        have same : Clear store p ↔ Clear store (p + 32) := by
          refine ⟨fun clear k below => ?_, fun clear k below => ?_⟩
          · have := clear (k + 1)
            omega
          · cases k with
            | zero => exact inside
            | succ k =>
              have := clear k
              omega
        rw [same]
        exact ih (aligned.add (by decide)) (by omega) (by omega) (by omega)
      · refine .inr ⟨outside fuel p below ?_, fun clear => inside (clear 0 below)⟩
        rwa [← Bool.not_eq_true, readable_erased eq behind]
    · exact .inl ⟨stop fuel p past, fun k below => absurd below (by omega)⟩

end Erased

/-- The conversion returns a store whose walk meets the added variables, as they are and in their order. -/
def Converts (s : NormalStore) : Prop :=
  ∃ out, convertNormalVarStorageToAuthVarStorage (fun _ => true) s.bytes = .ok (some out) ∧
  (headers true out).map VariableHeader.contents = (s.vars.filter (·.isAdded)).map NormalVariable.contents

namespace NormalStore

variable (s : NormalStore) (finished : ∀ v ∈ s.vars, v.Finished)

def authHead : Bytes := authenticatedVariableGuid.bytes ++ leBytes 4 (convertedSize storeHeaderSize s.vars) ++
  slice 20 2 s.bytes ++ List.replicate 6 0

def authStore : Bytes := s.authHead ++ converted storeHeaderSize s.vars

theorem length_authFields : (authenticatedVariableGuid.bytes ++ leBytes 4 (convertedSize storeHeaderSize s.vars) ++
    slice 20 2 s.bytes).length = 22 := by
  have short : (slice 20 2 s.bytes).length = 2 := by
    refine length_slice ?_
    rw [s.length_bytes, size, used, storeHeaderSize]
    omega
  rw [length_append, length_append, length_leBytes, short, authenticatedVariableGuid.length_eq]

theorem length_authHead : s.authHead.length = storeHeaderSize := by
  rw [authHead, length_append, s.length_authFields, length_replicate]
  rfl

theorem bytes_eq : s.bytes = (s.head ++ (s.vars.map (·.bytes)).flatten) ++ erased s.free := (append_assoc ..).symm

theorem length_front : (s.head ++ (s.vars.map (·.bytes)).flatten).length = s.used := by
  rw [length_append, s.length_head]
  rfl

theorem used_le : s.head.length + (s.vars.map (·.bytes)).flatten.length ≤ getEndPointer s.bytes := by
  rw [s.length_head, s.end_eq]
  exact (Nat.le_add_right ..).trans (headerAlign_ge s.size)

theorem vars_le (vs : List NormalVariable) :
    4 ∣ (vs.map (·.bytes)).flatten.length ∧ vs.length ≤ (vs.map (·.bytes)).flatten.length := by
  induction vs with
  | nil => exact ⟨Nat.dvd_zero 4, Nat.le_refl 0⟩
  | cons v vs ih =>
    have ge := v.length_bytes_ge
    have header := header_ge false
    rw [map_cons, flatten_cons, length_append, length_cons]
    exact ⟨v.dvd_length_bytes.add ih.1, by omega⟩

theorem dvd_used : 4 ∣ s.used := Nat.dvd_add (by decide) (vars_le s.vars).1

theorem fuel_eq : ∃ rest, getEndPointer s.bytes + 1 = s.vars.length + rest ∧ 0 < rest ∧
    getEndPointer s.bytes < s.used + rest := by
  have le := s.used_le
  have vars := (vars_le s.vars).2
  rw [s.length_head] at le
  refine ⟨getEndPointer s.bytes + 1 - s.vars.length, ?_, ?_, ?_⟩
  · omega
  · omega
  · rw [used]
    omega

include finished

theorem allSeen : ∀ v ∈ s.vars, Seen v.state v.attributes v.name v.data := fun v mem => s.seen mem (finished v mem)

theorem authVarStorageSize_cases :
    authVarStorageSize s.bytes (getEndPointer s.bytes + 1) getStartPointer storeHeaderSize =
        .ok (convertedSize storeHeaderSize s.vars) ∧ Clear s.bytes s.used ∨
      authVarStorageSize s.bytes (getEndPointer s.bytes + 1) getStartPointer storeHeaderSize = .error .outside ∧
        ¬ Clear s.bytes s.used := by
  obtain ⟨rest, fuel, some_, enough⟩ := s.fuel_eq
  have start : getStartPointer = s.head.length := s.length_head.symm
  rw [fuel, start, @authVarStorageSize_variables s.bytes _ _ (s.allSeen finished) s.head rfl
    (s.length_head ▸ by decide) s.used_le, s.length_head]
  refine loop_erased s.bytes_eq (fun fuel p => authVarStorageSize s.bytes fuel p (convertedSize storeHeaderSize s.vars))
    (fun fuel p past => ?_) (fun fuel p below unread => ?_) (fun fuel p below read state => ?_)
    s.dvd_used (le_of_eq s.length_front) enough some_
  · rw [authVarStorageSize, if_pos past]
  · rw [authVarStorageSize, if_neg (Nat.not_le.mpr below), unread]
    rfl
  · rw [authVarStorageSize, if_neg (Nat.not_le.mpr below), read, state, Bool.not_true, if_neg Bool.false_ne_true]
    rfl

theorem copyVariables_eq (clear : Clear s.bytes s.used) :
    copyVariables s.bytes (getEndPointer s.bytes + 1) getStartPointer getStartPointer
        (List.replicate (convertedSize storeHeaderSize s.vars) 0) =
      .ok (convertedSize storeHeaderSize s.vars, List.replicate storeHeaderSize 0 ++
        converted storeHeaderSize s.vars) := by
  obtain ⟨rest, fuel, some_, enough⟩ := s.fuel_eq
  have start : getStartPointer = s.head.length := s.length_head.symm
  have ge := @convertedSize_ge storeHeaderSize s.vars
  have zeros : List.replicate (convertedSize storeHeaderSize s.vars) (0 : UInt8) =
      List.replicate storeHeaderSize 0 ++
        List.replicate (convertedSize storeHeaderSize s.vars - storeHeaderSize) 0 := by
    rw [replicate_append_replicate, Nat.add_sub_cancel' ge]
  have copied := @copyVariables_variables s.bytes _ _ (s.allSeen finished) s.head (List.replicate storeHeaderSize 0) rfl
    (s.length_head ▸ by decide) s.used_le rest (convertedSize storeHeaderSize s.vars - storeHeaderSize)
    (by rw [length_replicate]; omega)
  rw [length_replicate, Nat.add_sub_cancel' ge, Nat.sub_self, replicate_zero, append_nil] at copied
  rw [fuel, zeros, start, show s.head.length = storeHeaderSize from s.length_head] at *
  rw [copied]
  refine ((loop_erased s.bytes_eq (fun fuel p => copyVariables s.bytes fuel p
    (convertedSize storeHeaderSize s.vars) (List.replicate storeHeaderSize 0 ++ converted storeHeaderSize s.vars))
    (fun fuel p past => ?_) (fun fuel p below unread => ?_)
    (fun fuel p below read state => ?_) s.dvd_used (le_of_eq s.length_front) enough some_).resolve_right
      fun outside => outside.2 clear).1
  · rw [copyVariables, if_pos past]
  · rw [copyVariables, if_neg (Nat.not_le.mpr below), unread]
    rfl
  · rw [copyVariables, if_neg (Nat.not_le.mpr below), read, state, Bool.not_true, if_neg Bool.false_ne_true,
      if_neg (by decide)]

theorem convert_cases :
    convertNormalVarStorageToAuthVarStorage (fun _ => true) s.bytes = .ok (some s.authStore) ∧ Clear s.bytes s.used ∨
      convertNormalVarStorageToAuthVarStorage (fun _ => true) s.bytes = .error .outside ∧ ¬ Clear s.bytes s.used := by
  rw [convertNormalVarStorageToAuthVarStorage]
  rcases s.authVarStorageSize_cases finished with ⟨size, clear⟩ | ⟨size, clear⟩
  · refine .inl ⟨?_, clear⟩
    have written := @overwrite_zero_append _ (List.replicate 22 0)
      (List.replicate 6 0 ++ converted storeHeaderSize s.vars)
      (s.length_authFields.trans length_replicate.symm)
    rw [← append_assoc, replicate_append_replicate, ← append_assoc] at written
    rw [size]
    change (copyVariables _ _ _ _ _ >>= _) = _
    rw [s.copyVariables_eq finished clear]
    exact congrArg (fun out => Except.ok (some out)) written
  · refine .inr ⟨?_, clear⟩
    rw [size]
    rfl

omit finished in
theorem end_authStore : getEndPointer s.authStore = headerAlign (convertedSize storeHeaderSize s.vars % 2 ^ 32) := by
  have size : slice 16 4 s.authStore = leBytes 4 (convertedSize storeHeaderSize s.vars) := by
    rw [authStore, authHead, append_assoc, append_assoc, append_assoc]
    exact slice_middle _ _ _ authenticatedVariableGuid.length_eq.symm (length_leBytes ..).symm
  rw [getEndPointer, storeSize, field, size, leNat_leBytes]
  rfl

theorem headers_authStore : headers true s.authStore = (convertedHeaders storeHeaderSize s.vars).takeWhile
    (fun h => decide (h.offset < headerAlign (convertedSize storeHeaderSize s.vars % 2 ^ 32))) := by
  have length := s.length_authHead
  have long : (s.vars.filter (·.isAdded)).length < s.authStore.length := by
    have le := @length_filter_le storeHeaderSize s.vars
    rw [authStore, length_append, length]
    exact Nat.lt_of_le_of_lt le (Nat.lt_add_of_pos_left (by decide))
  have walk := @walkFrom_converted s.authStore s.authHead s.vars (by rw [length]; rfl) (s.allSeen finished) _ long
  rw [length, s.end_authStore] at walk
  exact walk

theorem headers_kept_iff : headers true s.authStore = convertedHeaders storeHeaderSize s.vars ↔
    convertedSize storeHeaderSize s.vars < 2 ^ 32 := by
  rw [s.headers_authStore finished, takeWhile_eq_self_iff]
  constructor
  · intro inside
    rcases @convertedSize_cases storeHeaderSize s.vars with none | ⟨h, mem, aligned, v, stored, last⟩
    · rw [none]
      decide
    · have below := of_decide_eq_true (inside h mem)
      have size := s.sizes_lt stored
      rw [headerAlign] at below
      omega
  · intro fits h mem
    rw [Nat.mod_eq_of_lt fits, decide_eq_true_eq]
    exact (offset_lt_convertedSize mem).trans_le (headerAlign_ge _)

end NormalStore

/-- Where the driver sees the whole of every variable, the conversion keeps the variables if and only if the copies fit
    the size field and no header position behind the variables reaches over the end of the store. -/
theorem converts_iff (s : NormalStore) (finished : ∀ v ∈ s.vars, v.Finished) :
    Converts s ↔ convertedSize storeHeaderSize s.vars < 2 ^ 32 ∧
      ∀ k, s.used + 32 * k < headerAlign s.size → s.used + 32 * k + 3 ≤ s.size := by
  have clear : Clear s.bytes s.used ↔ ∀ k, s.used + 32 * k < headerAlign s.size → s.used + 32 * k + 3 ≤ s.size := by
    rw [Clear, s.end_eq, s.length_bytes]
  have contents := @contents_convertedHeaders storeHeaderSize s.vars
  rw [← clear, ← s.headers_kept_iff finished]
  rcases s.convert_cases finished with ⟨returned, inside⟩ | ⟨returned, outside⟩
  · constructor
    · rintro ⟨out, again, same⟩
      obtain rfl : s.authStore = out := by
        rw [returned] at again
        exact Option.some.inj (Except.ok.inj again)
      refine ⟨?_, inside⟩
      -- the walk meets a first part of the copies, and as many as there are added variables
      have length := congrArg List.length (same.trans contents.symm)
      rw [length_map, length_map] at length
      rw [s.headers_authStore finished] at length ⊢
      refine List.IsPrefix.eq_of_length ?_ length
      exact takeWhile_prefix _
    · rintro ⟨kept, -⟩
      exact ⟨_, returned, by rw [kept, contents]⟩
  · refine iff_of_false ?_ fun both => outside both.2
    rintro ⟨out, again, -⟩
    rw [returned] at again
    cases again

def storeHead (size : Nat) : Bytes := List.replicate 16 0 ++ leBytes 4 size ++ [0x5a, 0xfe] ++ List.replicate 6 0

def variableA (state : UInt8) : NormalVariable :=
  ⟨state, 0, attributeNvBsRt, 4, 2, authenticatedVariableGuid, [0x41, 0, 0, 0], [1, 2], [0xff, 0xff],
    fun _ => ⟨rfl, rfl⟩, rfl⟩

/-- A variable of which only the header is written. -/
def headerA : NormalVariable :=
  ⟨0xff, 0, attributeNvBsRt, 4, 2, authenticatedVariableGuid, [], [], [], fun written => absurd rfl written, rfl⟩

def sampleStore : NormalStore :=
  ⟨storeHead 276, [variableA varDeleted, headerA, variableA varAdded, headerA], 104, rfl, by decide +kernel⟩

theorem converts_sampleStore : Converts sampleStore ∧ sampleStore.vars.length = 4 := by
  have finished : ∀ v ∈ sampleStore.vars, v.Finished := by
    refine forall_mem_cons.mpr ⟨.inl (by decide), forall_mem_cons.mpr ⟨.inr ⟨rfl, rfl⟩, ?_⟩⟩
    exact forall_mem_cons.mpr ⟨.inl (by decide), forall_mem_singleton.mpr (.inr ⟨rfl, rfl⟩)⟩
  refine ⟨(converts_iff sampleStore finished).mpr ⟨by decide, fun k below => ?_⟩, rfl⟩
  have size : sampleStore.size = 276 := by decide +kernel
  have used : sampleStore.used = 172 := by decide +kernel
  rw [size, used, headerAlign] at below
  rw [size, used]
  omega

/-- The state of the first variable is still erased, and its name begins with the bytes of an added header. -/
def unfinishedStore : NormalStore where
  head := storeHead 132
  vars := [⟨0xff, 0, attributeNvBsRt, 6, 26, authenticatedVariableGuid, [0x41, 0, 0x3f, 0, 0, 0],
    List.replicate 26 0, [], fun _ => ⟨rfl, rfl⟩, rfl⟩, variableA varAdded]
  free := 0
  length_head := rfl
  size_eq := by decide

theorem unfinishedStore_not_converted : ¬ Converts unfinishedStore := by
  have walk : (convertNormalVarStorageToAuthVarStorage (fun _ => true) unfinishedStore.bytes).toOption.join.map
      (headers true) = some [] := by decide +kernel
  rintro ⟨out, returned, same⟩
  rw [returned] at walk
  rw [Option.some.inj walk] at same
  exact absurd same (by decide)

end LeoEdk.Variable
