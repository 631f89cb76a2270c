import LeoEdk.Theorems.PlatformMode

/-! Appending signature lists: what the filter leaves of new lists are their signatures that are not stored yet. Each
    loop reads the list that lies where it stands (`Lies`) and goes on behind it (`Read`). -/

namespace LeoEdk.AuthVariable

open Bytes Prog List
open SecureBoot (certSha256Guid)
open Variable (has appendWrite runtimeAccess bootserviceAccess)

/-- A complete list. -/
structure WholeList where
  signatureType : Bytes
  header : Bytes
  signatureSize : Nat
  signatures : List Bytes
  length_type : signatureType.length = 16
  length_signature : ∀ s ∈ signatures, s.length = signatureSize
  size_pos : signatureSize ≠ 0
  size_lt : signatureSize < 2 ^ 32
  fits : signatureListHeaderSize + header.length + signatures.length * signatureSize < 2 ^ 32

/-- Type, size and bytes of a signature. -/
abbrev Entry := Bytes × Nat × Bytes

namespace WholeList

variable (l : WholeList)

def size : Nat := signatureListHeaderSize + l.header.length + l.signatures.length * l.signatureSize

def front (size : Nat) : Bytes :=
  l.signatureType ++ (leBytes 4 size ++ (leBytes 4 l.header.length ++ (leBytes 4 l.signatureSize ++ l.header)))

def encode : Bytes := l.front l.size ++ l.signatures.flatten

def entries : List Entry := l.signatures.map fun s => (l.signatureType, l.signatureSize, s)

def without (known : Entry → Bool) : WholeList :=
  { l with
    signatures := l.signatures.filter fun s => !known (l.signatureType, l.signatureSize, s)
    length_signature := fun s mem => l.length_signature s (mem_of_mem_filter mem)
    fits := Nat.lt_of_le_of_lt (Nat.add_le_add_left (Nat.mul_le_mul_right _ (length_filter_le ..)) _) l.fits }

theorem length_front (size : Nat) : (l.front size).length = signatureListHeaderSize + l.header.length := by
  simp only [front, length_append, length_leBytes, l.length_type, signatureListHeaderSize]
  omega

theorem length_encode : l.encode.length = l.size := by
  have length : l.signatures.flatten.length = l.signatures.length * l.signatureSize := by
    rw [length_flatten, map_congr_left l.length_signature, map_const', sum_replicate]
    rfl
  rw [encode, length_append, length_front, length, size]

end WholeList

def encodeLists (lists : List WholeList) : Bytes := lists.flatMap WholeList.encode

def entriesOf (lists : List WholeList) : List Entry := lists.flatMap WholeList.entries

theorem entriesOf_append (a b : List WholeList) : entriesOf (a ++ b) = entriesOf a ++ entriesOf b := flatMap_append

def keptLists (known : Entry → Bool) (lists : List WholeList) : List WholeList :=
  lists.flatMap fun l => if (l.without known).signatures = [] then [] else [l.without known]

/-- What is kept of new lists beside stored ones. -/
structure Kept (stored new kept : List WholeList) : Prop where
  entries : entriesOf kept = (entriesOf new).filter fun x => x ∉ entriesOf stored
  shorter : (encodeLists kept).length ≤ (encodeLists new).length
  union : ∀ x, x ∈ entriesOf (stored ++ kept) ↔ x ∈ entriesOf stored ∨ x ∈ entriesOf new
  fresh : ∀ x ∈ entriesOf kept, x ∉ entriesOf stored

theorem entriesOf_keptLists (known : Entry → Bool) (lists : List WholeList) :
    entriesOf (keptLists known lists) = (entriesOf lists).filter fun x => !known x := by
  rw [entriesOf, keptLists, flatMap_assoc, entriesOf, filter_flatMap]
  refine flatMap_congr fun l _ => ?_
  have same : (l.without known).entries = l.entries.filter fun x => !known x := by
    rw [WholeList.entries, WholeList.entries, filter_map]
    rfl
  rw [← same]
  split
  next none_ => rw [WholeList.entries, none_]; rfl
  next => exact flatMap_singleton ..

theorem length_keptLists_le (known : Entry → Bool) (lists : List WholeList) :
    (encodeLists (keptLists known lists)).length ≤ (encodeLists lists).length := by
  rw [encodeLists, keptLists, flatMap_assoc, encodeLists, length_flatMap, length_flatMap]
  refine List.sum_le_sum fun l _ => ?_
  split
  · exact Nat.zero_le _
  · rw [flatMap_singleton, WholeList.length_encode, WholeList.length_encode]
    exact Nat.add_le_add_left (Nat.mul_le_mul_right _ (length_filter_le ..)) _

theorem kept_keptLists (stored new : List WholeList) :
    Kept stored new (keptLists (fun x => x ∈ entriesOf stored) new) := by
  have entries : entriesOf (keptLists (fun x => x ∈ entriesOf stored) new) =
      (entriesOf new).filter fun x => x ∉ entriesOf stored := by
    rw [entriesOf_keptLists]
    simp
  refine ⟨entries, length_keptLists_le _ _, fun x => ?_, fun x mem => ?_⟩
  · rw [entriesOf_append, mem_append, entries]
    by_cases there : x ∈ entriesOf stored <;> simp [there]
  · rw [entries] at mem
    simpa using (mem_filter.mp mem).2

/-! ### The lists in memory -/

def Lies (m : Store) (p : Nat) (bs : Bytes) : Prop := m.read p bs.length = bs

section Memory

variable {m : Store} {p fuel : Nat} {l : WholeList} {lists : List WholeList} {known : Entry → Bool}

theorem lies_append {as bs : Bytes} : Lies m p (as ++ bs) ↔ Lies m p as ∧ Lies m (p + as.length) bs := by
  rw [Lies, length_append, Store.read_append]
  exact ⟨fun same => append_inj same (Store.length_read ..), fun ⟨first, next⟩ => by rw [first, next]⟩

theorem lies_memoryFrom (data : Bytes) (behind : Store) : Lies (memoryFrom data behind) 0 data := by
  refine List.ext_getElem (Store.length_read ..) fun i _ lt => ?_
  rw [Store.getElem_read, Nat.zero_add, memoryFrom, List.getElem?_eq_getElem lt]

theorem Lies.read32At_eq {n : Nat} (lies : Lies m p (leBytes 4 n)) (lt : n < 2 ^ 32) : read32At m p = n := by
  rw [Lies, length_leBytes] at lies
  rw [read32At, lies, leNat_leBytes_of_lt lt]

/-- What the loops read of a list, and that they go on behind it. -/
structure Read (m : Store) (p : Nat) (l : WholeList) (lists : List WholeList) : Prop where
  fields : signatureListAt m p = ⟨l.signatureType, l.size, l.header.length, l.signatureSize⟩
  count : (signatureListAt m p).count = l.signatures.length
  front : m.read p (signatureListHeaderSize + l.header.length) = l.front l.size
  signatures : Lies m ((signatureListAt m p).firstAt p) l.signatures.flatten
  next : Lies m (p + l.size) (encodeLists lists)
  length : (encodeLists (l :: lists)).length = l.size + (encodeLists lists).length
  goes : ¬ (l.size + (encodeLists lists).length = 0 ∨ l.size + (encodeLists lists).length < l.size)

theorem read_cons (lies : Lies m p (encodeLists (l :: lists))) : Read m p l lists := by
  have fits := l.fits
  rw [encodeLists, flatMap_cons, lies_append, l.length_encode, WholeList.encode, lies_append, l.length_front] at lies
  obtain ⟨⟨front, signatures⟩, next⟩ := lies
  have fields : signatureListAt m p = ⟨l.signatureType, l.size, l.header.length, l.signatureSize⟩ := by
    simp only [WholeList.front, lies_append, l.length_type, length_leBytes] at front
    obtain ⟨type, size, headerSize, signatureSize, _⟩ := front
    rw [Lies, l.length_type] at type
    rw [signatureListAt, type, size.read32At_eq l.fits, headerSize.read32At_eq (by omega),
      signatureSize.read32At_eq l.size_lt]
  have inner : sub64 (sub64 l.size signatureListHeaderSize) l.header.length =
    l.signatures.length * l.signatureSize := by
    rw [sub64, sub64, WholeList.size]
    rw [signatureListHeaderSize] at fits ⊢
    omega
  rw [Lies, l.length_front] at front
  refine ⟨fields, ?_, front, ?_, next, ?_, ?_⟩
  · rw [fields, SignatureList.count, inner, Nat.mul_div_cancel _ (Nat.pos_of_ne_zero l.size_pos)]
  · rw [fields, SignatureList.firstAt, Nat.add_assoc]
    exact signatures
  · rw [encodeLists, flatMap_cons, length_append, l.length_encode]
    rfl
  · rw [WholeList.size, signatureListHeaderSize]
    omega

theorem holdsSignature_eq {size : Nat} {signature : Bytes} {signatures : List Bytes}
    (lies : Lies m p signatures.flatten) (length : ∀ s ∈ signatures, s.length = size) :
    holdsSignature m size signature signatures.length p = decide (signature ∈ signatures) := by
  induction signatures generalizing p with
  | nil => rfl
  | cons s signatures ih =>
    rw [flatten_cons, lies_append, Lies, length s mem_cons_self] at lies
    rw [length_cons, holdsSignature, lies.1, ih lies.2 fun s mem => length s (mem_cons_of_mem _ mem), Bool.eq_iff_iff]
    simp [eq_comm (a := signature)]

theorem isStored_eq {x : Entry} (lies : Lies m p (encodeLists lists)) (enough : lists.length < fuel) :
    isStored m x.1 x.2.1 x.2.2 fuel p (encodeLists lists).length = .ok (decide (x ∈ entriesOf lists)) := by
  obtain ⟨type, size, signature⟩ := x
  induction lists generalizing p fuel with
  | nil =>
    obtain _ | fuel := fuel
    · cases enough
    rfl
  | cons l lists ih =>
    obtain _ | fuel := fuel
    · cases enough
    obtain ⟨fields, count, _, signatures, next, length, goes⟩ := read_cons lies
    have here : (type, size, signature) ∈ entriesOf [l] ↔
        (l.signatureType = type ∧ l.signatureSize = size) ∧ signature ∈ l.signatures := by
      simp [entriesOf, WholeList.entries, and_assoc, and_comm]
    rw [isStored, length, count]
    generalize (signatureListAt m p).firstAt p = first at signatures
    rw [fields]
    dsimp only
    rw [if_neg goes, if_neg l.size_pos, Nat.add_sub_cancel_left, ih next (Nat.lt_of_succ_lt_succ enough)]
    rw [← singleton_append, entriesOf_append]
    simp only [mem_append, here]
    split
    next same =>
      obtain ⟨rfl, rfl⟩ := same
      rw [holdsSignature_eq signatures l.length_signature]
      by_cases there : signature ∈ l.signatures <;> simp [there]
    next other => simp [other]

theorem newSignatures_eq {stored : Bytes → Except Halt Bool} {known : Bytes → Bool} {size : Nat}
    {signatures : List Bytes} (answers : ∀ s, stored s = .ok (known s)) (lies : Lies m p signatures.flatten)
    (length : ∀ s ∈ signatures, s.length = size) :
    newSignatures stored m size signatures.length p = .ok (signatures.filter fun s => !known s) := by
  induction signatures generalizing p with
  | nil => rfl
  | cons s signatures ih =>
    rw [flatten_cons, lies_append, Lies, length s mem_cons_self] at lies
    rw [length_cons, newSignatures, lies.1, answers, ih lies.2 fun s mem => length s (mem_cons_of_mem _ mem),
      filter_cons]
    cases known s <;> rfl

theorem filterLists_eq {stored : SignatureList → Bytes → Except Halt Bool}
    (answers : ∀ l s, stored l s = .ok (known (l.signatureType, l.signatureSize, s)))
    (lies : Lies m p (encodeLists lists)) (enough : lists.length < fuel) :
    filterLists stored m fuel p (encodeLists lists).length = .ok (encodeLists (keptLists known lists)) := by
  induction lists generalizing p fuel with
  | nil =>
    obtain _ | fuel := fuel
    · cases enough
    rfl
  | cons l lists ih =>
    obtain _ | fuel := fuel
    · cases enough
    obtain ⟨fields, count, front, signatures, next, length, goes⟩ := read_cons lies
    have patched : ∀ n, overwrite 16 (leBytes 4 n) (l.front l.size) = l.front n := by
      intro n
      have place : 16 = l.signatureType.length + 0 := l.length_type.symm
      rw [place, WholeList.front, overwrite_append_right, overwrite_zero_append _ (by simp), WholeList.front]
    have kept : keptList m p (l.without known).signatures =
        encodeLists (if (l.without known).signatures = [] then [] else [l.without known]) := by
      rw [keptList, fields]
      dsimp only
      rw [front, patched]
      split
      · rfl
      · exact (append_nil _).symm
    rw [filterLists, length, count]
    generalize (signatureListAt m p).firstAt p = first at signatures
    rw [fields]
    dsimp only
    rw [if_neg goes, if_neg l.size_pos, Nat.add_sub_cancel_left, ih next (Nat.lt_of_succ_lt_succ enough),
      newSignatures_eq (answers _) signatures l.length_signature]
    change Except.ok (keptList m p (l.without known).signatures ++ _) = _
    rw [kept, encodeLists, encodeLists, ← flatMap_append]
    rfl

end Memory

section Append

variable {e : Env} {payload : Buffer} {stored new : List WholeList} (data : payload.data = encodeLists new)
  (room : payload.data.length ≤ e.scratchBufferSize) (enough : stored.length < e.fuel ∧ new.length < e.fuel)
include data room enough

theorem filterSignatureList_eq {original : Store} (value : Lies original 0 (encodeLists stored)) :
    filterSignatureList e original (encodeLists stored).length payload =
      .ok (encodeLists (keptLists (fun x => x ∈ entriesOf stored) new)) := by
  have lies := lies_memoryFrom payload.data payload.behind
  rw [filterSignatureList, Buffer.memory]
  split
  next nothing =>
    have empty : encodeLists new = [] := data.symm.trans (nothing.resolve_right (Nat.not_lt.mpr room))
    have le := (kept_keptLists stored new).shorter
    rw [empty] at le
    rw [data, empty, eq_nil_of_length_eq_zero (Nat.le_zero.mp le)]
  next =>
    rw [data] at lies ⊢
    exact filterLists_eq (fun l s => isStored_eq (x := (l.signatureType, l.signatureSize, s)) value enough.1)
      lies enough.2

/-- The filter keeps what is not stored, and an append stores the union. -/
theorem append_signatures_union : ∃ kept, Kept stored new kept ∧
    (∀ original, Lies original 0 (encodeLists stored) →
      filterSignatureList e original (encodeLists stored).length payload = .ok (encodeLists kept)) ∧
    ∀ name guid attributes timeStamp w r, (isImageSecurityDatabase name guid || isKeyExchangeKey name guid) = true →
      has attributes appendWrite = true → has attributes (runtimeAccess ||| bootserviceAccess) = true →
      w.vars name guid = some r → r.data = encodeLists stored → e.updateFails w.updates name guid = none →
      wp (authServiceInternalUpdateVariableWithTimeStamp name guid payload attributes timeStamp) e
        (fun status w' => status = .success ∧ ∃ r', w'.vars name guid = some r' ∧
          r'.data = encodeLists (stored ++ kept))
        (fun _ _ => False) w := by
  refine ⟨_, kept_keptLists stored new, fun _ => filterSignatureList_eq data room enough, ?_⟩
  intro name guid attributes timeStamp w r db append grants found value written
  have named : name.units ≠ [] := by
    simp only [isImageSecurityDatabase, isKeyExchangeKey, Bool.or_eq_true, decide_eq_true_eq] at db
    rcases db with ⟨_, rfl | rfl | rfl⟩ | ⟨_, rfl⟩ <;> decide
  have filtered := filterSignatureList_eq data room enough (value ▸ lies_memoryFrom r.data (e.behindVariable name guid))
  rw [← value] at filtered
  rw [authServiceInternalUpdateVariableWithTimeStamp, wp_bind, wp_find named, found]
  dsimp only
  rw [if_pos (by simp [append, db]), wp_bind, wp_ask, wp_bind]
  dsimp only [Env.variableMemory]
  rw [filtered]
  refine (wp_pure _).mpr (wp_updateVariable (fun status failed => ?_) fun _ => ?_)
  · rw [written] at failed
    cases failed
  · have stores : ∀ info : VariableInfo, info.appends = true → info.grantsAccess = true →
        info.update (some r) = (.success, some (info.stored (some r))) ∧ (info.stored (some r)).data = r.data ++
          info.data := by
      intro info appends access
      simp [VariableInfo.update, VariableInfo.stored, VariableInfo.storedData, appends, access]
    obtain ⟨done, stored'⟩ := stores ⟨name, guid, _, attributes, some timeStamp⟩ append grants
    rw [found, done]
    refine ⟨rfl, _, if_pos ⟨rfl, rfl⟩, ?_⟩
    rw [stored', value, encodeLists, encodeLists, encodeLists, flatMap_append]

end Append

/-- Digests of one repeated byte each. -/
def digestList (digests : Bytes) (few : digests.length ≤ 4) : WholeList where
  signatureType := certSha256Guid
  header := []
  signatureSize := 48
  signatures := digests.map (List.replicate 48)
  length_type := rfl
  length_signature := by simp
  size_pos := by decide
  size_lt := by decide
  fits := by
    simp [signatureListHeaderSize]
    omega

def oneDigest : List WholeList := [digestList [1] (by decide)]

def twoDigests : List WholeList := [digestList [1, 2] (by decide)]

theorem length_twoDigests : (encodeLists twoDigests).length = 124 := by
  rw [encodeLists, twoDigests, flatMap_singleton, WholeList.length_encode]
  rfl

def twoDigestsData : Buffer := ⟨encodeLists twoDigests, by rw [length_twoDigests]; decide, fun _ => 0⟩

def dbAttributesAppend : UInt32 := Variable.nonVolatile ||| bootserviceAccess ||| runtimeAccess ||| appendWrite

/-- "db" has the first digest only. -/
def dbRecord : Record :=
  ⟨Variable.nonVolatile ||| bootserviceAccess ||| runtimeAccess, encodeLists oneDigest, zeroTime⟩

def dbWorld : World :=
  { blankWorld with vars := blankWorld.vars.set imageSecurityDatabase imageSecurityDatabaseGuid (some dbRecord) }

set_option maxRecDepth 4096 in
/-- Both digests are appended, and "db" has what it had followed by what the filter kept. -/
theorem append_signatures_union_digests : ∃ kept, Kept oneDigest twoDigests kept ∧
    wp (authServiceInternalUpdateVariableWithTimeStamp imageSecurityDatabase imageSecurityDatabaseGuid twoDigestsData
        dbAttributesAppend zeroTime) plainEnv
      (fun status w' => status = .success ∧ ∃ r', w'.vars imageSecurityDatabase imageSecurityDatabaseGuid = some r' ∧
        r'.data = encodeLists (oneDigest ++ kept)) (fun _ _ => False) dbWorld := by
  have room : twoDigestsData.data.length ≤ plainEnv.scratchBufferSize := by
    rw [twoDigestsData, length_twoDigests]
    decide
  obtain ⟨kept, holds, -, appended⟩ :=
    @append_signatures_union plainEnv twoDigestsData oneDigest twoDigests rfl room (by decide)
  have found : dbWorld.vars imageSecurityDatabase imageSecurityDatabaseGuid = some dbRecord := by
    simp [dbWorld, Vars.set]
  have value : dbRecord.data = encodeLists oneDigest := rfl
  have written : plainEnv.updateFails dbWorld.updates imageSecurityDatabase imageSecurityDatabaseGuid = none := rfl
  have grants : has dbAttributesAppend appendWrite = true ∧
      has dbAttributesAppend (runtimeAccess ||| bootserviceAccess) = true := by decide
  have database : (isImageSecurityDatabase imageSecurityDatabase imageSecurityDatabaseGuid ||
      isKeyExchangeKey imageSecurityDatabase imageSecurityDatabaseGuid) = true := by decide
  exact ⟨kept, holds, appended _ _ _ zeroTime _ _ database grants.1 grants.2 found value written⟩

end LeoEdk.AuthVariable
