import LeoEdk.AuthVariable.SignatureFormat

/-! What `CheckSignatureListFormat` promises for the payload of a key variable, and when it keeps the promise. The
    check walks along the `SignatureListSize` fields, and the offsets it comes to (`Reached`) tell where it ends, how
    far it reads and what it answers. -/

namespace LeoEdk.AuthVariable

open Bytes Prog SecureBoot List
open Variable (Name Guid globalVariableGuid)

/-! ### The header of a list -/

namespace Input

variable (i : Input)

def field (ofs : Nat) : Nat := leNat (i.bytes ofs 4)

def sigType (o : Nat) : Bytes := i.bytes o 16
def listSize (o : Nat) : Nat := i.field (o + 16)
def headerSize (o : Nat) : Nat := i.field (o + 20)
def signatureSize (o : Nat) : Nat := i.field (o + 24)

def item (o : Nat) : Option SignatureItem := mSupportSigItem.find? fun item => item.sigType = i.sigType o

def fits (item : SignatureItem) (o : Nat) : Bool :=
  (item.sigDataSize = anySize ∨ sub64 (i.signatureSize o) ownerSize = item.sigDataSize) ∧ i.headerSize o = 0

def certificate (o : Nat) : Bytes := i.bytes (o + 44) (sub64 (i.signatureSize o) ownerSize)

/-- The list at `o` has the sizes of a row and, for X.509, an RSA key in its first certificate. -/
def admitted (o : Nat) : Bool :=
  match i.item o with
  | none => false
  | some item =>
    i.fits item o ∧ (item.sigDataSize = anySize → i.rsaNew ∧ i.rsaGetPublicKeyFromX509 (i.certificate o))

def bodySize (o : Nat) : Nat := sub64 (i.listSize o) signatureListHeaderSize

def passes (o : Nat) : Prop :=
  i.admitted o ∧ i.signatureSize o ≠ 0 ∧ i.bodySize o % i.signatureSize o = 0

instance (o : Nat) : Decidable (i.passes o) := inferInstanceAs (Decidable (_ ∧ _ ∧ _))

def signatures (o : Nat) : Nat := i.bodySize o / i.signatureSize o

def reach (o : Nat) : Nat :=
  match i.item o with
  | none => 20
  | some item =>
    if item.sigDataSize ≠ anySize then 28
    else if i.headerSize o ≠ 0 ∨ !i.rsaNew then 24
    else 44 + sub64 (i.signatureSize o) ownerSize

end Input

theorem mSupportSigItem_rows : ∀ item ∈ mSupportSigItem,
    item.sigHeaderSize = 0 ∧ (item.sigDataSize = anySize ↔ item.sigType = certX509Guid) := by
  decide

section Checks

variable {i : Input} {w : Nat} {R : Halt → Nat → Prop}

@[simp] theorem wp_read (ofs len : Nat) (Q : Bytes → Nat → Prop) :
    wp (read ofs len) i Q R w ↔ Q (i.bytes ofs len) (max w (ofs + len)) := Iff.rfl

@[simp] theorem wp_read32 (ofs : Nat) (Q : Nat → Nat → Prop) :
    wp (read32 ofs) i Q R w ↔ Q (i.field ofs) (max w (ofs + 4)) := Iff.rfl

theorem wp_readType (o : Nat) (past : o + 20 ≤ w) (Q : Bytes → Nat → Prop) :
    wp (read o 16) i Q R w ↔ Q (i.sigType o) w := by
  rw [wp_read, max_eq_left (by omega)]
  rfl

theorem wp_differs_any (size : Check Nat) (Q : Bool → Nat → Prop) : wp (differs anySize size) i Q R w ↔ Q false w := by
  rw [differs, if_pos rfl, wp_pure]

theorem wp_differs {column : Nat} (restricts : column ≠ anySize) (size : Check Nat) (Q : Bool → Nat → Prop) :
    wp (differs column size) i Q R w ↔ wp size i (fun n w' => Q (n ≠ column) w') R w := by
  rw [differs, if_neg restricts, wp_bind]
  rfl

theorem wp_matchItem (o : Nat) (Q : Option Bool → Nat → Prop) (items : List SignatureItem)
    (rows : ∀ item ∈ items, item.sigHeaderSize = 0) (past : o + 20 ≤ w) :
    wp (matchItem o items) i Q R w ↔
      match items.find? fun item => item.sigType = i.sigType o with
      | none => Q none w
      | some item => Q (some (i.fits item o)) (max w (o + if item.sigDataSize = anySize then 24 else 28)) := by
  induction items with
  | nil => rfl
  | cons item items ih =>
    have header : item.sigHeaderSize = 0 := rows item (mem_cons_self ..)
    have zero : (0 : Nat) ≠ anySize := by decide
    rw [matchItem, wp_bind, wp_readType o past, wp_ite]
    by_cases type : item.sigType = i.sigType o
    · rw [if_neg (not_not.mpr type.symm), List.find?_cons_of_pos (by simpa using type), header, wp_bind]
      have headerField : i.field (o + 20) = i.headerSize o := rfl
      have sizeField : i.field (o + 24) = i.signatureSize o := rfl
      by_cases size : item.sigDataSize = anySize
      · rw [size, wp_differs_any, if_neg (by decide), wp_bind, wp_differs zero, wp_read32]
        by_cases none : i.headerSize o = 0 <;> simp [headerField, none, Input.fits, size, Nat.add_assoc]
      · rw [wp_differs size, wp_bind, wp_read32, wp_pure]
        by_cases fits : sub64 (i.signatureSize o) ownerSize = item.sigDataSize
        · rw [sizeField, if_neg (by simpa using fits), wp_bind, wp_differs zero, wp_read32]
          by_cases none : i.headerSize o = 0 <;> simp [headerField, none, Input.fits, size, fits]
        · simp [sizeField, Input.fits, size, fits, Nat.add_assoc]
    · rw [if_pos (Ne.symm type), ih fun item mem => rows item (mem_cons_of_mem _ mem),
        List.find?_cons_of_neg (by simpa using type)]

theorem wp_checkCertificate_other {o : Nat} (type : i.sigType o ≠ certX509Guid) (past : o + 20 ≤ w)
    (Q : Bool → Nat → Prop) : wp (checkCertificate o) i Q R w ↔ Q true w := by
  rw [checkCertificate, wp_bind, wp_readType o past, if_pos type, wp_pure]

theorem wp_checkCertificate_x509 {o : Nat} (type : i.sigType o = certX509Guid) (header : i.headerSize o = 0)
    (past : o + 24 ≤ w) (Q : Bool → Nat → Prop) :
    wp (checkCertificate o) i Q R w ↔
      if i.rsaNew then
        Q (i.rsaGetPublicKeyFromX509 (i.certificate o)) (max w (o + (44 + sub64 (i.signatureSize o) ownerSize)))
      else Q false w := by
  rw [checkCertificate, wp_bind, wp_readType o (by omega), if_neg (not_not.mpr type), wp_bind, wp_ask]
  have headerField : i.field (o + 20) = 0 := header
  have sizeField : i.field (o + 24) = i.signatureSize o := rfl
  cases i.rsaNew with
  | false => simp
  | true =>
    have start : o + signatureListHeaderSize + 0 + ownerSize = o + 44 := rfl
    have furthest (n : Nat) : max (max (max w (o + 20 + 4)) (o + 24 + 4)) (o + 44 + n) = max w (o + (44 + n)) := by
      omega
    simp only [wp_bind, wp_read32, wp_read, wp_ask, headerField, sizeField, start, furthest, Bool.not_true, if_true,
      Bool.false_eq_true, if_false]
    rfl

theorem wp_countSignatures {o : Nat} (header : i.headerSize o = 0) (past : o + 20 ≤ w) (Q : Option Nat → Nat → Prop) :
    wp (countSignatures o) i Q R w ↔
      if i.signatureSize o = 0 then R .divideError (max w (o + 28))
      else Q (if i.bodySize o % i.signatureSize o = 0 then some (i.signatures o) else none) (max w (o + 28)) := by
  have headerField : i.field (o + 20) = 0 := header
  have sizeField : i.field (o + 24) = i.signatureSize o := rfl
  have listField : i.field (o + 16) = i.listSize o := rfl
  have furthest : max (max (max w (o + 16 + 4)) (o + 20 + 4)) (o + 24 + 4) = max w (o + 28) := by omega
  have body : sub64 (sub64 (i.listSize o) signatureListHeaderSize) 0 = i.bodySize o := by
    rw [Input.bodySize, sub64, sub64]
    omega
  rw [countSignatures]
  simp only [wp_bind, wp_read32, headerField, sizeField, listField, furthest, body, wp_ite, wp_halt, wp_pure]
  by_cases zero : i.signatureSize o = 0
  · rw [if_pos zero, if_pos zero]
  · rw [if_neg zero, if_neg zero]
    by_cases whole : i.bodySize o % i.signatureSize o = 0
    · rw [if_neg (not_not.mpr whole), if_pos whole]
      rfl
    · rw [if_pos whole, if_neg whole]

theorem wp_checkSignatureList {o : Nat} (past : o + 20 ≤ w) (Q : Option Nat → Nat → Prop) :
    wp (checkSignatureList o) i Q R w ↔
      if i.admitted o ∧ i.signatureSize o = 0 then R .divideError (max w (o + i.reach o))
      else Q (if i.passes o then some (i.signatures o) else none) (max w (o + i.reach o)) := by
  rw [checkSignatureList, wp_bind,
    wp_matchItem o _ mSupportSigItem (fun item mem => (mSupportSigItem_rows item mem).1) past]
  change (match i.item o with | none => _ | some item => _) ↔ _
  rcases row : i.item o with _ | item
  · simp [Input.passes, Input.admitted, Input.reach, row, max_eq_left past]
  · have mem : item ∈ mSupportSigItem := mem_of_find?_eq_some row
    have type : item.sigType = i.sigType o := by simpa using List.find?_some row
    have x509 := (mSupportSigItem_rows item mem).2
    have admitted : i.admitted o = decide (i.fits item o ∧
        (item.sigDataSize = anySize → i.rsaNew ∧ i.rsaGetPublicKeyFromX509 (i.certificate o))) := by
      rw [Input.admitted, row]
    by_cases fits : i.fits item o
    · have header : i.headerSize o = 0 := (of_decide_eq_true fits).2
      by_cases size : item.sigDataSize = anySize
      · have x509Type : i.sigType o = certX509Guid := type ▸ x509.mp size
        simp only [fits, size, if_true]
        rw [wp_bind, wp_checkCertificate_x509 x509Type header (by omega)]
        cases new : i.rsaNew with
        | false => simp [admitted, fits, size, new, Input.passes, Input.reach, row]
        | true =>
          have reach : i.reach o = 44 + sub64 (i.signatureSize o) ownerSize := by
            simp [Input.reach, row, size, header, new]
          rw [if_pos rfl, ← reach]
          have furthest : max (max w (o + 24)) (o + i.reach o) = max w (o + i.reach o) := by omega
          cases key : i.rsaGetPublicKeyFromX509 (i.certificate o) with
          | false => simp [admitted, fits, size, new, key, Input.passes, furthest]
          | true =>
            have behind : max (max w (o + i.reach o)) (o + 28) = max w (o + i.reach o) := by omega
            rw [if_pos rfl, furthest, wp_countSignatures header (by omega), behind]
            simp only [admitted, fits, size, new, key, Input.passes, and_self, true_and, implies_true, decide_true]
            by_cases zero : i.signatureSize o = 0 <;> simp [zero]
      · have reach : i.reach o = 28 := by simp [Input.reach, row, size]
        simp only [fits, size, if_false]
        rw [wp_bind, wp_checkCertificate_other (type ▸ mt x509.mpr size) (by omega), if_pos rfl,
          wp_countSignatures header (by omega), reach]
        simp only [admitted, fits, size, Input.passes, true_and, false_implies, and_true, decide_true,
          max_assoc, max_self]
        by_cases zero : i.signatureSize o = 0 <;> simp [zero]
    · have fails : i.fits item o = false := by simpa using fits
      have reach : i.reach o = if item.sigDataSize = anySize then 24 else 28 := by
        by_cases size : item.sigDataSize = anySize
        · have header : i.headerSize o ≠ 0 := fun header => fits (by simp [Input.fits, size, header])
          simp [Input.reach, row, size, header]
        · simp [Input.reach, row, size]
      simp [admitted, fails, Input.passes, reach]

end Checks

section Walk

variable {i : Input} {w : Nat}

namespace Input

variable (i : Input)

def enters (o : Nat) : Prop := o < i.dataSize ∧ o + i.listSize o ≤ i.dataSize

/-- How many bytes from `o` on the walk looks at before it moves on or ends. -/
def needed (o : Nat) : Nat := if o + i.listSize o ≤ i.dataSize then i.reach o else 20

def Step (s s' : Nat × Nat) : Prop :=
  i.enters s.1 ∧ i.passes s.1 ∧ s' = (s.1 + i.listSize s.1, s.2 + i.signatures s.1)

def Reached (s : Nat × Nat) : Prop := Relation.ReflTransGen i.Step (0, 0) s

end Input

theorem sigDataSize_le : ∀ item ∈ mSupportSigItem, item.sigDataSize ≤ anySize := by decide

theorem twenty_le_reach (i : Input) (o : Nat) : 20 ≤ i.reach o := by
  unfold Input.reach
  split
  · exact le_rfl
  · split_ifs <;> omega

theorem reach_of_zero {o : Nat} (admitted : i.admitted o) (zero : i.signatureSize o = 0) : 2 ^ 64 ≤ i.reach o := by
  have wrapped : sub64 0 ownerSize = 2 ^ 64 - 16 := rfl
  unfold Input.admitted at admitted
  unfold Input.reach
  split at admitted
  · cases admitted
  · rename_i item row
    obtain ⟨fits, key⟩ := of_decide_eq_true admitted
    obtain ⟨size, header⟩ := of_decide_eq_true fits
    have small := sigDataSize_le item (mem_of_find?_eq_some row)
    rw [zero, wrapped] at size
    have any : item.sigDataSize = anySize := size.resolve_right fun eq => absurd (eq ▸ small) (by decide)
    simp only [any, header, (key any).1, zero, wrapped, ne_eq, not_true_eq_false, if_false, Bool.not_true,
      Bool.false_eq_true, or_self]
    decide

theorem wp_walkLists_succ {R : Halt → Nat → Prop} {o : Nat} (fuel c : Nat) (Q : Option (Nat × Nat) → Nat → Prop)
    (le : o ≤ i.dataSize) :
    wp (walkLists (fuel + 1) o (i.dataSize - o) c) i Q R w ↔
      if o = i.dataSize then Q (some (o, c)) w
      else if i.dataSize < o + i.listSize o then Q (some (o, c)) (max w (o + 20))
      else if i.admitted o ∧ i.signatureSize o = 0 then R .divideError (max w (o + i.reach o))
      else if i.passes o then
        wp (walkLists fuel (o + i.listSize o) (i.dataSize - (o + i.listSize o)) ((c + i.signatures o) % 2 ^ 32)) i Q R
          (max w (o + i.reach o))
      else Q none (max w (o + i.reach o)) := by
  have listField : i.field (o + 16) = i.listSize o := rfl
  have reach := twenty_le_reach i o
  have furthest : max (max w (o + 16 + 4)) (o + i.reach o) = max w (o + i.reach o) := by omega
  rw [walkLists, wp_ite]
  by_cases done : o = i.dataSize
  · rw [if_pos (by omega), if_pos done, wp_pure]
  · rw [if_neg (by omega), if_neg done, wp_bind, wp_read32, listField, wp_ite]
    by_cases enters : i.dataSize < o + i.listSize o
    · rw [if_pos (by omega), if_pos enters, wp_pure]
    · rw [if_neg (by omega), if_neg enters, wp_bind, wp_checkSignatureList (by omega), furthest, Nat.sub_sub]
      by_cases zero : i.admitted o ∧ i.signatureSize o = 0
      · rw [if_pos zero, if_pos zero]
      · rw [if_neg zero, if_neg zero]
        by_cases passes : i.passes o
        · rw [if_pos passes, if_pos passes]
        · rw [if_neg passes, if_neg passes, wp_pure]

theorem Input.Reached.le {o q : Nat} (reached : i.Reached (o, q)) : o ≤ i.dataSize := by
  rcases Relation.ReflTransGen.cases_tail reached with start | ⟨s, -, enters, -, next⟩
  · cases start
    exact Nat.zero_le _
  · cases next
    exact enters.2

theorem Input.Reached.next {o q : Nat} (reached : i.Reached (o, q)) (enters : i.enters o) (passes : i.passes o) :
    i.Reached (o + i.listSize o, q + i.signatures o) :=
  reached.tail ⟨enters, passes, rfl⟩

theorem walkLists_reached {s : Nat × Nat} (reached : i.Reached s) :
    ∃ k w, ∀ fuel (Q : Option (Nat × Nat) → Nat → Prop) R,
      wp (walkLists (fuel + k) 0 i.dataSize 0) i Q R 0 ↔
        wp (walkLists fuel s.1 (i.dataSize - s.1) (s.2 % 2 ^ 32)) i Q R w := by
  induction reached with
  | refl => exact ⟨0, 0, fun _ _ _ => Iff.rfl⟩
  | @tail s _ before step ih =>
    obtain ⟨enters, passes, rfl⟩ := step
    obtain ⟨k, w, run⟩ := ih
    refine ⟨k + 1, max w (s.1 + i.reach s.1), fun fuel Q R => ?_⟩
    have more : fuel + (k + 1) = fuel + 1 + k := by omega
    rw [more, run, wp_walkLists_succ fuel _ _ enters.1.le, if_neg enters.1.ne, if_neg (not_lt.mpr enters.2),
      if_neg fun zero => passes.2.1 zero.2, if_pos passes, Nat.mod_add_mod]

theorem walkLists_mono {Q : Option (Nat × Nat) → Nat → Prop} (fuel o left c : Nat)
    (returns : wp (walkLists fuel o left c) i Q (fun _ _ => False) w) :
    wp (walkLists (fuel + 1) o left c) i Q (fun _ _ => False) w := by
  induction fuel generalizing o left c w with
  | zero => exact returns.elim
  | succ fuel ih =>
    rw [walkLists, wp_ite] at returns ⊢
    split_ifs at returns ⊢
    · exact returns
    · rw [wp_bind] at returns ⊢
      refine wp_mono (fun listSize w' rest => ?_) (fun _ _ stop => stop) returns
      rw [wp_ite] at rest ⊢
      split_ifs at rest ⊢
      · exact rest
      · rw [wp_bind] at rest ⊢
        refine wp_mono (fun count w'' rest => ?_) (fun _ _ stop => stop) rest
        cases count with
        | none => exact rest
        | some count => exact ih _ _ _ rest

theorem walkLists_mono_add {Q : Option (Nat × Nat) → Nat → Prop} {fuel o left c : Nat} (more : Nat)
    (returns : wp (walkLists fuel o left c) i Q (fun _ _ => False) w) :
    wp (walkLists (fuel + more) o left c) i Q (fun _ _ => False) w := by
  induction more with
  | zero => exact returns
  | succ more ih => exact walkLists_mono _ _ _ _ ih

theorem walkLists_endless {o : Nat} (enters : i.enters o) (passes : i.passes o) (zero : i.listSize o = 0)
    (fuel c : Nat) :
    wp (walkLists fuel o (i.dataSize - o) c) i (fun _ _ => False) (fun _ _ => True) w := by
  induction fuel generalizing c w with
  | zero => trivial
  | succ fuel ih =>
    rw [wp_walkLists_succ fuel _ _ enters.1.le, if_neg enters.1.ne, if_neg (not_lt.mpr enters.2),
      if_neg fun none => passes.2.1 none.2, if_pos passes, zero]
    exact ih _

theorem walkLists_inside (inside : ∀ o q, i.Reached (o, q) → o < i.dataSize → o + i.needed o ≤ i.dataSize)
    (advances : ∀ o q, i.Reached (o, q) → i.enters o → i.passes o → i.listSize o ≠ 0) (fuel : Nat) {o q : Nat}
    (reached : i.Reached (o, q)) (within : w ≤ i.dataSize) :
    wp (walkLists fuel o (i.dataSize - o) (q % 2 ^ 32)) i
      (fun r w' => w' ≤ i.dataSize ∧ ∀ o' c, r = some (o', c) → ∃ q', i.Reached (o', q') ∧ c = q' % 2 ^ 32)
      (fun _ w' => w' ≤ i.dataSize ∧ fuel ≤ i.dataSize - o) w := by
  induction fuel generalizing o q w with
  | zero => exact ⟨within, Nat.zero_le _⟩
  | succ fuel ih =>
    rw [wp_walkLists_succ fuel _ _ reached.le]
    have here : ∀ o' c, some (o, q % 2 ^ 32) = some (o', c) → ∃ q', i.Reached (o', q') ∧ c = q' % 2 ^ 32 := by
      rintro o' c ⟨⟩
      exact ⟨q, reached, rfl⟩
    by_cases done : o = i.dataSize
    · rw [if_pos done]
      exact ⟨within, here⟩
    · have left : o < i.dataSize := Nat.lt_of_le_of_ne reached.le done
      have need := inside o q reached left
      unfold Input.needed at need
      rw [if_neg done]
      by_cases beyond : i.dataSize < o + i.listSize o
      · rw [if_neg (by omega)] at need
        rw [if_pos beyond]
        exact ⟨max_le within need, here⟩
      · rw [if_pos (by omega)] at need
        have far : max w (o + i.reach o) ≤ i.dataSize := max_le within need
        have enters : i.enters o := ⟨left, by omega⟩
        rw [if_neg beyond, if_neg fun zero => by
          have := reach_of_zero zero.1 zero.2
          have := i.size_lt
          unfold Input.dataSize at need
          omega]
        by_cases passes : i.passes o
        · have size := advances o q reached enters passes
          rw [if_pos passes, Nat.mod_add_mod]
          refine wp_mono (fun _ _ post => post) (fun _ _ stop => ⟨stop.1, ?_⟩)
            (ih (reached.next enters passes) far)
          have := stop.2
          omega
        · rw [if_neg passes]
          exact ⟨far, nofun⟩

end Walk

/-! ### The accepted format -/

structure IsSignatureList (l : Bytes) : Prop where
  size : leNat (slice 16 4 l) = l.length
  header : signatureListHeaderSize + leNat (slice 20 4 l) ≤ l.length
  supported : ∃ item ∈ mSupportSigItem, slice 0 16 l = item.sigType ∧
    (item.sigDataSize ≠ anySize → leNat (slice 24 4 l) = ownerSize + item.sigDataSize)
  nonempty : 0 < leNat (slice 24 4 l)
  whole : leNat (slice 24 4 l) ∣ l.length - signatureListHeaderSize - leNat (slice 20 4 l)

def signatureCount (l : Bytes) : Nat :=
  (l.length - signatureListHeaderSize - leNat (slice 20 4 l)) / leNat (slice 24 4 l)

/-- The payload is a sequence of signature lists, with at most one signature for the platform key. -/
def WellFormed (data : Bytes) (isPk : Bool) : Prop :=
  ∃ lists : List Bytes, data = lists.flatten ∧ (∀ l ∈ lists, IsSignatureList l) ∧
    (isPk → (lists.map signatureCount).sum ≤ 1)

section Format

variable {i : Input}

theorem bytes_eq_slice {ofs len : Nat} (inside : ofs + len ≤ i.dataSize) : i.bytes ofs len = slice ofs len i.data := by
  rw [← Store.read_ofBytes inside]
  refine Store.read_congr fun k _ high => ?_
  have bound : k < i.data.length := Nat.lt_of_lt_of_le high inside
  simp [Input.memory, Store.ofBytes, List.getElem?_eq_getElem bound]

theorem bytes_of_drop {o ofs len : Nat} {l rest : Bytes} (at_o : i.data.drop o = l ++ rest)
    (inside : ofs + len ≤ l.length) (le : o ≤ i.dataSize) : i.bytes (o + ofs) len = slice ofs len l := by
  have length := congrArg List.length at_o
  rw [length_drop, length_append] at length
  rw [bytes_eq_slice (by unfold Input.dataSize at le ⊢; omega), slice, ← drop_drop, at_o]
  exact slice_append_left rest inside

theorem bodySize_of_le {o : Nat} (size : signatureListHeaderSize ≤ i.listSize o) :
    i.bodySize o = i.listSize o - signatureListHeaderSize := by
  have bound : i.listSize o < 256 ^ 4 := by
    have bound := leNat_lt (i.bytes (o + 16) 4)
    rwa [Input.bytes, Store.length_read] at bound
  unfold signatureListHeaderSize at size
  unfold Input.bodySize sub64 signatureListHeaderSize
  omega

theorem passes_row {o : Nat} (passes : i.passes o) : i.headerSize o = 0 ∧
    ∃ item ∈ mSupportSigItem, i.sigType o = item.sigType ∧
      (item.sigDataSize ≠ anySize → i.signatureSize o = ownerSize + item.sigDataSize) := by
  have admitted := passes.1
  unfold Input.admitted at admitted
  split at admitted
  · cases admitted
  · rename_i item row
    obtain ⟨size, header⟩ := of_decide_eq_true (of_decide_eq_true admitted).1
    refine ⟨header, item, mem_of_find?_eq_some row, ?_, fun restricts => ?_⟩
    · have type : item.sigType = i.sigType o := by simpa using List.find?_some row
      exact type.symm
    · have fixed := size.resolve_left restricts
      have small := sigDataSize_le item (mem_of_find?_eq_some row)
      have bound : i.signatureSize o < 256 ^ 4 := by
        have bound := leNat_lt (i.bytes (o + 24) 4)
        rwa [Input.bytes, Store.length_read] at bound
      unfold sub64 ownerSize at fixed
      unfold anySize at small
      unfold ownerSize
      omega

theorem isSignatureList_of_passes {o : Nat} {l rest : Bytes} (at_o : i.data.drop o = l ++ rest) (le : o ≤ i.dataSize)
    (size : l.length = i.listSize o) (long : signatureListHeaderSize ≤ i.listSize o) (passes : i.passes o) :
    IsSignatureList l ∧ signatureCount l = i.signatures o := by
  have fields {ofs len : Nat} (inside : ofs + len ≤ signatureListHeaderSize) :
      slice ofs len l = i.bytes (o + ofs) len :=
    (bytes_of_drop at_o (by omega) le).symm
  have type : slice 0 16 l = i.sigType o := fields (by decide)
  have listField : leNat (slice 16 4 l) = i.listSize o := congrArg leNat (fields (by decide))
  have headerField : leNat (slice 20 4 l) = i.headerSize o := congrArg leNat (fields (by decide))
  have sizeField : leNat (slice 24 4 l) = i.signatureSize o := congrArg leNat (fields (by decide))
  obtain ⟨header, item, mem, row, fixed⟩ := passes_row passes
  have body := bodySize_of_le long
  obtain ⟨-, nonzero, whole⟩ := passes
  rw [header] at headerField
  refine ⟨⟨listField.trans size.symm, ?_, ⟨item, mem, type.trans row, sizeField ▸ fixed⟩, ?_, ?_⟩, ?_⟩
  · rw [headerField, size]
    exact long
  · rw [sizeField]
    exact Nat.pos_of_ne_zero nonzero
  · rw [headerField, sizeField, size, Nat.sub_zero, ← body]
    exact Nat.dvd_of_mod_eq_zero whole
  · rw [signatureCount, headerField, sizeField, size, Nat.sub_zero, ← body]
    rfl

theorem reached_of_lists (lists : List Bytes) {s t : Nat × Nat} (at_s : i.data.drop s.1 = lists.flatten)
    (le : s.1 ≤ i.dataSize) (all : ∀ l ∈ lists, IsSignatureList l) (reached : Relation.ReflTransGen i.Step s t) :
    (t.1 < i.dataSize → signatureListHeaderSize ≤ i.listSize t.1) ∧
      (t.1 = i.dataSize → t.2 = s.2 + (lists.map signatureCount).sum) := by
  induction lists generalizing s with
  | nil =>
    have length := congrArg List.length at_s
    rw [length_drop, flatten_nil, length_nil] at length
    have stop : s.1 = i.dataSize := by
      unfold Input.dataSize at le ⊢
      omega
    rcases Relation.ReflTransGen.cases_head reached with rfl | ⟨_, step, -⟩
    · exact ⟨fun left => absurd stop left.ne, fun _ => rfl⟩
    · exact absurd stop step.1.1.ne
  | cons l lists ih =>
    rw [flatten_cons] at at_s
    have list := all l (mem_cons_self ..)
    have long : signatureListHeaderSize ≤ l.length := le_trans (Nat.le_add_right ..) list.header
    have size : i.listSize s.1 = l.length := by
      rw [← list.size]
      exact congrArg leNat (bytes_of_drop at_s (by unfold signatureListHeaderSize at long; omega) le)
    have length := congrArg List.length at_s
    rw [length_drop, length_append] at length
    rcases Relation.ReflTransGen.cases_head reached with rfl | ⟨_, step, rest⟩
    · refine ⟨fun _ => size ▸ long, fun stop => ?_⟩
      unfold signatureListHeaderSize at long
      unfold Input.dataSize at stop
      omega
    · obtain ⟨enters, passes, rfl⟩ := step
      have next := @ih (s.1 + i.listSize s.1, s.2 + i.signatures s.1)
        (by rw [← drop_drop, at_s, size, drop_left]) enters.2
        (fun l mem => all l (mem_cons_of_mem _ mem)) rest
      refine ⟨next.1, fun stop => ?_⟩
      rw [next.2 stop, (isSignatureList_of_passes at_s le size.symm (size ▸ long) passes).2.symm, map_cons,
        sum_cons, Nat.add_assoc]

theorem lists_of_reached {s : Nat × Nat} {q : Nat} (reached : Relation.ReflTransGen i.Step s (i.dataSize, q))
    (long : ∀ t, Relation.ReflTransGen i.Step s t → t.1 < i.dataSize → signatureListHeaderSize ≤ i.listSize t.1) :
    ∃ lists : List Bytes, i.data.drop s.1 = lists.flatten ∧ (∀ l ∈ lists, IsSignatureList l) ∧
      q = s.2 + (lists.map signatureCount).sum := by
  induction reached using Relation.ReflTransGen.head_induction_on with
  | refl => exact ⟨[], drop_eq_nil_of_le le_rfl, nofun, rfl⟩
  | @head s _ step rest ih =>
    obtain ⟨lists, split, all, sum⟩ := ih fun t reached => long t (.head step reached)
    obtain ⟨enters, passes, rfl⟩ := step
    have at_s : i.data.drop s.1 = slice s.1 (i.listSize s.1) i.data ++ lists.flatten := by
      rw [← split, ← drop_drop]
      exact (take_append_drop _ _).symm
    obtain ⟨list, count⟩ := isSignatureList_of_passes at_s enters.1.le (length_slice enters.2)
      (long s .refl enters.1) passes
    refine ⟨_ :: lists, at_s, forall_mem_cons.mpr ⟨list, all⟩, ?_⟩
    rw [sum, map_cons, sum_cons, count, Nat.add_assoc]

end Format

/-! ### The promise of the check -/

inductive KeyVariable where
  | pk | kek | db | dbx | dbt
  deriving DecidableEq, Repr

namespace KeyVariable

def name : KeyVariable → Name
  | pk => platformKeyName
  | kek => keyExchangeKeyName
  | db => imageSecurityDatabase
  | dbx => imageSecurityDatabase1
  | dbt => imageSecurityDatabase2

def guid : KeyVariable → Guid
  | pk | kek => globalVariableGuid
  | db | dbx | dbt => imageSecurityDatabaseGuid

def isPk (v : KeyVariable) : Bool := v = pk

end KeyVariable

def checkPayload (v : KeyVariable) (fuel : Nat) : Check Variable.EfiStatus :=
  checkSignatureListFormat fuel v.name v.guid

/-- The check ends, touches nothing outside the data, and succeeds only on well-formed data. -/
structure ChecksSoundly (v : KeyVariable) (i : Input) : Prop where
  terminates : ∃ fuel status, (checkPayload v fuel i 0).1 = .ok status
  reads : ∀ fuel, (checkPayload v fuel).final i 0 ≤ i.dataSize
  wellFormed : ∀ fuel, (checkPayload v fuel i 0).1 = .ok .success → WellFormed i.data v.isPk

/-- What the walk along the `SignatureListSize` fields may meet. -/
structure StaysInside (v : KeyVariable) (i : Input) : Prop where
  inside : ∀ o q, i.Reached (o, q) → o < i.dataSize → o + i.needed o ≤ i.dataSize
  advances : ∀ o q, i.Reached (o, q) → i.enters o → i.passes o → i.listSize o ≠ 0
  whole : ∀ q, i.Reached (i.dataSize, q) → (v.isPk → q % 2 ^ 32 ≤ 1) →
    (∀ s, i.Reached s → s.1 < i.dataSize → signatureListHeaderSize ≤ i.listSize s.1) ∧ (v.isPk → q < 2 ^ 32)

section Promise

variable {v : KeyVariable} {i : Input}

def verdict (v : KeyVariable) (i : Input) : Option (Nat × Nat) → Variable.EfiStatus
  | none => .invalidParameter
  | some (sigList, sigCount) =>
    if sigList ≠ i.dataSize then .invalidParameter
    else if v.isPk ∧ 1 < sigCount then .invalidParameter
    else .success

theorem wp_checkPayload {w fuel : Nat} (Q : Variable.EfiStatus → Nat → Prop) (R : Halt → Nat → Prop)
    (nonempty : i.dataSize ≠ 0) :
    wp (checkPayload v fuel) i Q R w ↔
      wp (walkLists fuel 0 i.dataSize 0) i (fun r w' => Q (verdict v i r) w') R w := by
  have checked : (isPlatformKey v.name v.guid || isKeyExchangeKey v.name v.guid ||
      isImageSecurityDatabase v.name v.guid) = true := by cases v <;> decide
  have isPk : isPlatformKey v.name v.guid = v.isPk := by cases v <;> decide
  rw [checkPayload, checkSignatureListFormat, wp_bind, wp_ask, if_neg nonempty, if_pos checked, wp_bind, isPk]
  refine iff_of_eq (congrArg (fun post => wp (walkLists fuel 0 i.dataSize 0) i post R w) ?_)
  funext r w'
  rcases r with _ | ⟨sigList, sigCount⟩
  · rfl
  · simp only [verdict, wp_ite, wp_pure]
    split_ifs <;> rfl

theorem inside_of_sound (sound : ChecksSoundly v i) (o q : Nat) (reached : i.Reached (o, q)) (left : o < i.dataSize) :
    o + i.needed o ≤ i.dataSize := by
  obtain ⟨k, w, run⟩ := walkLists_reached reached
  have reads : wp (checkPayload v (0 + 1 + k)) i (fun _ w' => w' ≤ i.dataSize) (fun _ w' => w' ≤ i.dataSize) 0 :=
    wp_final.mpr (sound.reads (0 + 1 + k))
  rw [wp_checkPayload _ _ (by omega), run, wp_walkLists_succ 0 _ _ left.le, if_neg left.ne] at reads
  unfold Input.needed
  by_cases beyond : i.dataSize < o + i.listSize o
  · rw [if_pos beyond] at reads
    rw [if_neg (by omega)]
    exact le_trans (le_max_right _ _) reads
  · rw [if_neg beyond] at reads
    rw [if_pos (by omega)]
    refine le_trans (le_max_right w _) ?_
    split_ifs at reads
    · exact reads
    · exact reads
    · exact reads

theorem advances_of_sound (sound : ChecksSoundly v i) (o q : Nat) (reached : i.Reached (o, q)) (enters : i.enters o)
    (passes : i.passes o) : i.listSize o ≠ 0 := by
  intro zero
  obtain ⟨k, w, run⟩ := walkLists_reached reached
  obtain ⟨fuel, status, returns⟩ := sound.terminates
  have nonempty : i.dataSize ≠ 0 := by
    have := enters.1
    omega
  have ends := returned_iff_wp.mp returns
  rw [wp_checkPayload _ _ nonempty] at ends
  have longer := (run fuel _ _).mp (walkLists_mono_add k ends)
  have both := wp_and.mpr ⟨longer, walkLists_endless enters passes zero fuel _⟩
  unfold wp at both
  split at both
  · exact both.2
  · exact both.1

theorem success_of_reached {q : Nat} (reached : i.Reached (i.dataSize, q)) (few : v.isPk → q % 2 ^ 32 ≤ 1)
    (nonempty : i.dataSize ≠ 0) : ∃ fuel, (checkPayload v fuel i 0).1 = .ok .success := by
  obtain ⟨k, w, run⟩ := walkLists_reached reached
  refine ⟨0 + 1 + k, returned_iff_wp.mpr ?_⟩
  rw [wp_checkPayload _ _ nonempty, run, wp_walkLists_succ 0 _ _ le_rfl, if_pos rfl]
  have accepted : ¬(v.isPk ∧ 1 < q % 2 ^ 32) := fun many => absurd (few many.1) (by omega)
  simp only [verdict, ne_eq, not_true_eq_false, if_false, if_neg accepted]

theorem whole_of_sound (sound : ChecksSoundly v i) (nonempty : i.dataSize ≠ 0) (q : Nat)
    (reached : i.Reached (i.dataSize, q)) (few : v.isPk → q % 2 ^ 32 ≤ 1) :
    (∀ s, i.Reached s → s.1 < i.dataSize → signatureListHeaderSize ≤ i.listSize s.1) ∧ (v.isPk → q < 2 ^ 32) := by
  obtain ⟨fuel, success⟩ := success_of_reached reached few nonempty
  obtain ⟨lists, split, all, one⟩ := sound.wellFormed fuel success
  have follows {s : Nat × Nat} (reached : i.Reached s) :=
    reached_of_lists lists (s := (0, 0)) split (Nat.zero_le _) all reached
  refine ⟨fun s reached => (follows reached).1, fun isPk => ?_⟩
  have total : q = 0 + (lists.map signatureCount).sum := (follows reached).2 rfl
  have := one isPk
  omega

theorem sound_and_inside_of_empty (empty : i.dataSize = 0) : ChecksSoundly v i ∧ StaysInside v i := by
  have run (fuel : Nat) : checkPayload v fuel i 0 = (.ok .success, 0) := by
    change (if i.dataSize = 0 then _ else _ : Check Variable.EfiStatus) i 0 = _
    rw [if_pos empty]
    rfl
  have still {s : Nat × Nat} (reached : i.Reached s) : s = (0, 0) := by
    rcases Relation.ReflTransGen.cases_head reached with start | ⟨_, step, -⟩
    · exact start.symm
    · exact absurd step.1.1 (by simp [empty])
  refine ⟨⟨⟨0, .success, by rw [run]⟩, fun fuel => ?_, fun _ _ => ?_⟩,
    ⟨fun o q _ left => ?_, fun o q _ enters => ?_, ?_⟩⟩
  · rw [final, run]
    exact Nat.zero_le _
  · exact ⟨[], eq_nil_of_length_eq_zero empty, forall_mem_nil _, fun _ => Nat.zero_le _⟩
  · omega
  · have := enters.1
    omega
  · intro q reached _
    refine ⟨fun s _ left => by omega, fun _ => ?_⟩
    have none : q = 0 := congrArg Prod.snd (still reached)
    rw [none]
    decide

theorem verdict_eq_success {r : Option (Nat × Nat)} (success : verdict v i r = .success) :
    ∃ c, r = some (i.dataSize, c) ∧ (v.isPk → c ≤ 1) := by
  rcases r with _ | ⟨sigList, c⟩
  · cases success
  · simp only [verdict] at success
    split_ifs at success with elsewhere many
    obtain rfl := not_not.mp elsewhere
    exact ⟨c, rfl, fun isPk => not_lt.mp fun lt => many ⟨isPk, lt⟩⟩

theorem sound_of_staysInside (stays : StaysInside v i) (nonempty : i.dataSize ≠ 0) : ChecksSoundly v i := by
  have walk (fuel : Nat) := @walkLists_inside i 0 stays.inside stays.advances fuel 0 0 .refl (Nat.zero_le _)
  refine ⟨⟨i.dataSize + 1, ?_⟩, fun fuel => ?_, fun fuel success => ?_⟩
  · have ends : wp (checkPayload v (i.dataSize + 1)) i (fun _ _ => True) (fun _ _ => False) 0 := by
      rw [wp_checkPayload _ _ nonempty]
      refine wp_mono (fun _ _ _ => trivial) (fun _ _ stop => ?_) (walk (i.dataSize + 1))
      have := stop.2
      omega
    obtain ⟨status, returns, -⟩ := exists_returned ends
    exact ⟨status, returns⟩
  · have reads : wp (checkPayload v fuel) i (fun _ w' => w' ≤ i.dataSize) (fun _ w' => w' ≤ i.dataSize) 0 := by
      rw [wp_checkPayload _ _ nonempty]
      exact wp_mono (fun _ _ post => post.1) (fun _ _ stop => stop.1) (walk fuel)
    exact wp_final.mp reads
  · have returns := returned_iff_wp.mp success
    rw [wp_checkPayload _ _ nonempty] at returns
    have both := wp_and.mpr ⟨returns, walk fuel⟩
    obtain ⟨r, -, accepted, -, ended⟩ := exists_returned (wp_mono (fun _ _ post => post) (fun _ _ stop => stop.1) both)
    obtain ⟨c, rfl, few⟩ := verdict_eq_success accepted
    obtain ⟨q, reached, rfl⟩ := ended _ _ rfl
    obtain ⟨long, unwrapped⟩ := stays.whole q reached few
    obtain ⟨lists, split, all, total⟩ := lists_of_reached reached long
    refine ⟨lists, split, all, fun isPk => ?_⟩
    have one := few isPk
    rw [Nat.mod_eq_of_lt (unwrapped isPk)] at one
    omega

/-- The check keeps its promise exactly on the payloads on which its walk stays inside. -/
theorem checkSignatureListFormat_sound_iff (v : KeyVariable) (i : Input) : ChecksSoundly v i ↔ StaysInside v i := by
  by_cases empty : i.dataSize = 0
  · have both := @sound_and_inside_of_empty v i empty
    exact ⟨fun _ => both.2, fun _ => both.1⟩
  · exact ⟨fun sound => ⟨inside_of_sound sound, advances_of_sound sound, whole_of_sound sound empty⟩,
      fun stays => sound_of_staysInside stays empty⟩

def strayList : Input where
  data := certSha256Guid.take 12
  size_lt := by decide
  behind k := (certSha256Guid.drop 12 ++ leBytes 4 12 ++ leBytes 4 0 ++ leBytes 4 48).getD k 0
  rsaNew := true
  rsaGetPublicKeyFromX509 _ := false

/-- Subtracting the 28 bytes of the header from a size of 12 gives a multiple of 48 in 64 bits: the twelve bytes are
    accepted as key exchange keys, after a look at 28. -/
theorem stray_list_accepted : checkPayload .kek 2 strayList 0 = (.ok .success, 28) ∧ strayList.dataSize = 12 ∧
    ¬ChecksSoundly .kek strayList := by
  have run : checkPayload .kek 2 strayList 0 = (.ok .success, 28) := by decide
  refine ⟨run, rfl, fun sound => ?_⟩
  have reads := sound.reads 2
  rw [final, run] at reads
  exact absurd reads (by decide)

end Promise

end LeoEdk.AuthVariable
