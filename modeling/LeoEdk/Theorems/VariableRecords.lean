import LeoEdk.Variable.Store

/-! What the driver reads where a record of a variable store lies: what stands at each field (`Reads`), and which
    sizes it takes from the header (`Seen`). -/

namespace LeoEdk.Variable

open Bytes List

/-! ### Places in a store -/

theorem headerAlign_ge (n : Nat) : n ≤ headerAlign n := by
  unfold headerAlign
  omega

theorem headerAlign_add {o : Nat} (aligned : 4 ∣ o) (n : Nat) : headerAlign (o + n) = o + headerAlign n := by
  unfold headerAlign
  omega

theorem headerAlign_of_dvd {n : Nat} (aligned : 4 ∣ n) : headerAlign n = n := by
  unfold headerAlign
  omega

theorem dvd_headerAlign (n : Nat) : 4 ∣ headerAlign n := by
  unfold headerAlign
  omega

theorem sizes_inside (a : Bool) : sizesOffset a + 24 = getVariableHeaderSize a := by
  cases a <;> rfl

theorem header_ge (a : Bool) : 32 ≤ getVariableHeaderSize a := by
  cases a <;> decide

def VariableHeader.shift (o : Nat) (v : VariableHeader) : VariableHeader :=
  { v with offset := o + v.offset, next := o + v.next }

def assemble (head : Bytes) (rs : List Bytes) (rest : Bytes) : Bytes := head ++ (rs.flatten ++ rest)

def erased (n : Nat) : Bytes := List.replicate n 0xff

@[simp] theorem length_erased (n : Nat) : (erased n).length = n := length_replicate

theorem stateOf_eq_of_slice {b : UInt8} {store : Bytes} {p : Nat} (h : slice (p + 2) 1 store = [b]) :
    stateOf store p = b := by
  rw [stateOf, field, h]
  simp

/-! ### Records in parts -/

/-- A record by its parts: `middle` are the fields between the attributes and the sizes, and `rest` follows the data.
    The sizes are those of the header, which announces the name and the data before they are written. -/
def rawRecord (state reserved : UInt8) (attributes : UInt32) (middle : Bytes) (nameSize dataSize : Nat)
    (guid name data rest : Bytes) : Bytes :=
  leBytes 2 variableData ++ ([state, reserved] ++ (leBytes 4 attributes.toNat ++ (middle ++ (leBytes 4 nameSize ++
    (leBytes 4 dataSize ++ (guid ++ (name ++ (data ++ rest))))))))

/-- A variable whose sizes the driver reads from its header: it takes the sizes for 0 where the state or the attributes
    are still erased. -/
structure Seen (state : UInt8) (attributes : UInt32) (name data : Bytes) : Prop where
  name_lt : name.length < 0xffffffff
  data_lt : data.length < 0xffffffff
  known : (state ≠ 0xff ∧ attributes ≠ 0xffffffff) ∨ (name = [] ∧ data = [])

/-- What can be read of a record at `p`; the sizes are those of the name and the data once the state is written. -/
structure Reads (a : Bool) (store : Bytes) (p : Nat) (state : UInt8) (attributes : UInt32)
    (guid name data : Bytes) : Prop where
  startAt : At store p (leBytes 2 variableData)
  stateAt : At store (p + 2) [state]
  attributesAt : At store (p + 4) (leBytes 4 attributes.toNat)
  sizesAt : state ≠ 0xff → At store (p + sizesOffset a) (leBytes 4 name.length ++ leBytes 4 data.length)
  guidAt : At store (p + sizesOffset a + 8) guid
  nameAt : At store (p + getVariableHeaderSize a) name
  dataAt : At store (p + getVariableHeaderSize a + name.length) data
  length_guid : guid.length = 16

section RawRecord

variable {a : Bool} {store : Bytes} {p nameSize dataSize : Nat} {state reserved : UInt8} {attributes : UInt32}
  {middle guid name data rest : Bytes}

theorem length_rawRecord (length : middle.length = sizesOffset a - 8) (guidLength : guid.length = 16) :
    (rawRecord state reserved attributes middle nameSize dataSize guid name data rest).length =
      getVariableHeaderSize a + name.length + data.length + rest.length := by
  have inside := sizes_inside a
  have offset : 8 ≤ sizesOffset a := by cases a <;> decide
  simp only [rawRecord, length_append, length_leBytes, length, guidLength, length_cons, length_nil]
  omega

theorem reads_rawRecord
    (here : At store p (rawRecord state reserved attributes middle nameSize dataSize guid name data rest))
    (length : middle.length = sizesOffset a - 8) (guidLength : guid.length = 16)
    (sizes : state ≠ 0xff → nameSize = name.length ∧ dataSize = data.length) :
    Reads a store p state attributes guid name data := by
  have offset : p + 2 + 2 + 4 + (sizesOffset a - 8) = p + sizesOffset a := by cases a <;> rfl
  have behind : p + sizesOffset a + 4 + 4 + 16 = p + getVariableHeaderSize a := by rw [← sizes_inside a]; omega
  simp only [rawRecord, at_append, length_leBytes, length, guidLength, length_cons, length_nil, Nat.zero_add, offset,
    behind] at here
  obtain ⟨start, stateAt, attributes, _, nameSizeAt, dataSizeAt, guid, nameAt, dataAt, _⟩ := here
  change At store (p + 2) ([_] ++ [_]) at stateAt
  refine ⟨start, (at_append.mp stateAt).1, attributes, fun written => ?_, guid, nameAt, dataAt, guidLength⟩
  obtain ⟨rfl, rfl⟩ := sizes written
  exact at_append.mpr ⟨nameSizeAt, by rwa [length_leBytes]⟩

variable (reads : Reads a store p state attributes guid name data)
include reads

theorem Reads.state_eq : stateOf store p = state := stateOf_eq_of_slice reads.stateAt

theorem Reads.attributes_eq : attributesOf store p = attributes := by
  rw [attributesOf, field, reads.attributesAt.leNat_eq attributes.toNat_lt]
  exact UInt32.ofNat_toNat

variable (seen : Seen state attributes name data)
include seen

theorem Reads.nameField (written : state ≠ 0xff) : field store (p + sizesOffset a) 4 = name.length :=
  (at_append.mp (reads.sizesAt written)).1.leNat_eq (Nat.lt_trans seen.name_lt (by decide))

theorem Reads.dataField (written : state ≠ 0xff) : field store (p + sizesOffset a + 4) 4 = data.length := by
  have here := (at_append.mp (reads.sizesAt written)).2
  rw [length_leBytes] at here
  exact here.leNat_eq (Nat.lt_trans seen.data_lt (by decide))

omit seen in
theorem Reads.written_of_set (set : ¬ sizesUnset a store p = true) : state ≠ 0xff := by
  rintro rfl
  rw [sizesUnset, reads.state_eq] at set
  exact set rfl

theorem Reads.empty_of_unset (unset : sizesUnset a store p = true) : name = [] ∧ data = [] := by
  refine seen.known.resolve_left fun known => ?_
  rw [sizesUnset, reads.state_eq, reads.attributes_eq, reads.nameField seen known.1,
    reads.dataField seen known.1] at unset
  simp only [Bool.or_eq_true, beq_iff_eq] at unset
  have name_ne := seen.name_lt.ne
  have data_ne := seen.data_lt.ne
  rcases unset with ((state | data) | name) | attributes
  · exact known.1 state
  · exact data_ne data
  · exact name_ne name
  · exact known.2 attributes

theorem Reads.nameSize_eq : nameSizeOfVariable a store p = name.length := by
  rw [nameSizeOfVariable]
  split_ifs with unset
  · rw [(reads.empty_of_unset seen unset).1]
    rfl
  · exact reads.nameField seen (reads.written_of_set unset)

theorem Reads.dataSize_eq : dataSizeOfVariable a store p = data.length := by
  rw [dataSizeOfVariable]
  split_ifs with unset
  · rw [(reads.empty_of_unset seen unset).2]
    rfl
  · exact reads.dataField seen (reads.written_of_set unset)

theorem Reads.variableAt_eq (aligned : 4 ∣ p) : variableAt a store p = VariableHeader.shift p
    { offset := 0, next := headerAlign (getVariableHeaderSize a + name.length + data.length), state := state,
      attributes := attributes, guid := guid, name := name, data := data } := by
  rw [variableAt, getNextVariablePtr, reads.state_eq, reads.attributes_eq, reads.guidAt.slice_eq reads.length_guid,
    getVariableDataPtr, getVariableNamePtr, reads.nameSize_eq seen, reads.dataSize_eq seen, reads.nameAt.slice_eq rfl,
    reads.dataAt.slice_eq rfl, Nat.add_assoc, Nat.add_assoc, ← Nat.add_assoc _ name.length, headerAlign_add aligned]
  rfl

end RawRecord

end LeoEdk.Variable
