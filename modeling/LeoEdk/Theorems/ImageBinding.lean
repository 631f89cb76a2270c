import LeoEdk.Lib.Lockstep
import LeoEdk.Theorems.ImageAdmission
import LeoEdk.Theorems.ImageInfo

/-! How far the image digest binds what is loaded. Two loads are run side by side: the memories agree but for the two
    fields that are not hashed, until a step reads one of them or copies bytes that differ. Files with one hash stream
    (`OneStream`) agree on every byte that was hashed. -/

namespace LeoEdk.PeCoff

variable {file hdr : Bytes} {w : World} {info : ImageInfo} {addr : Nat}

open Bytes Prog List

/-! ### Two loads side by side -/

/-- `S` holds of the addresses at which the two memories may differ: a step that reads memory avoids them, and the bytes
    that it takes from the file are the same in both files. -/
def Sound (A B : Bytes) (S : Nat → Prop) : Access → Prop
  | .fetch addr len => ∀ x, addr ≤ x → x < addr + len → ¬S x
  | .file ofs len => slice ofs len A = slice ofs len B

def Parted (A B : Bytes) (S : Nat → Prop) (w : World) : Prop := ∃ a ∈ w.history, ¬Sound A B S a

structure Alike (S : Nat → Prop) (w w' : World) : Prop where
  ctx : w'.ctx = w.ctx
  mem : ∀ x, ¬S x → w'.mem x = w.mem x

abbrev Parallel {α : Type} (A B : Bytes) (S : Nat → Prop) (m : Loader α) : Prop :=
  Lockstep (Parted A B S) (Alike S) A B m

section Parallel

variable {A B : Bytes} {S : Nat → Prop} {α : Type}

theorem Alike.read {w w' : World} (alike : Alike S w w') {addr len : Nat}
    (safe : ∀ x, addr ≤ x → x < addr + len → ¬S x) :
    w'.mem.read addr len = w.mem.read addr len :=
  Store.read_congr fun x low high => alike.mem x (safe x low high)

theorem parallel_context : Parallel A B S context := .get fun _ _ alike => alike.ctx

theorem parallel_setContext {g : World → World} (hist : ∀ w, (g w).history = w.history) (mem : ∀ w, (g w).mem = w.mem)
    (ctx : ∀ w w', w'.ctx = w.ctx → (g w').ctx = (g w).ctx) : Parallel A B S (modify g) := by
  refine .modify (fun w parted => ?_) fun w w' alike => ⟨ctx w w' alike.ctx, fun x out => ?_⟩
  · obtain ⟨a, ha, unsound⟩ := parted
    exact ⟨a, hist w ▸ ha, unsound⟩
  · rw [mem, mem]
    exact alike.mem x out

theorem parallel_store (addr : Nat) (bs : Bytes) : Parallel A B S (store addr bs) := by
  refine .modify (fun w parted => parted) fun w w' alike => ⟨alike.ctx, fun x out => ?_⟩
  simp only [Store.write]
  rw [alike.mem x out]

theorem parallel_log {a : Access} {k : Unit → Loader α} (stays : ∀ w, Parted A B S w → Parted A B S ((k ()).final A w))
    (next : Sound A B S a → Parallel A B S (k ())) : Parallel A B S (log a >>= k) := by
  have logged : ∀ w, Parted A B S w → Parted A B S { w with history := w.history ++ [a] } := by
    rintro w ⟨b, hb, unsound⟩
    exact ⟨b, mem_append_left _ hb, unsound⟩
  refine ⟨fun w parted => stays _ (logged w parted), fun w w' alike => ?_⟩
  by_cases sound : Sound A B S a
  · exact (next sound).step _ _ ⟨alike.ctx, alike.mem⟩
  · exact .inl (stays _ ⟨a, mem_append_right _ (mem_singleton_self a), sound⟩)

theorem parallel_peek {addr len : Nat} (safe : ∀ x, addr ≤ x → x < addr + len → ¬S x) :
    Parallel A B S (peek addr len) :=
  .get fun _ _ alike => alike.read safe

theorem parallel_file {ofs len : Nat} {k : Bytes → Loader α} (next : ∀ bs, Parallel A B S (k bs)) :
    Parallel A B S (log (.file ofs len) >>= fun _ => ask (slice ofs len) >>= k) := by
  refine parallel_log (next (slice ofs len A)).stays fun same => ⟨(next (slice ofs len A)).stays, fun w w' alike => ?_⟩
  have step := (next (slice ofs len A)).step w w' alike
  have other : (ask (slice ofs len) >>= k) B w' = k (slice ofs len A) B w' := by
    rw [show slice ofs len A = slice ofs len B from same]
    rfl
  rw [Prog.final, Prog.final, other]
  exact step

theorem parallel : Reads fun _ m => Parallel A B S m where
  pure := .pure
  halt := .halt
  bind := .bind
  ite := .ite
  fetch _ _ := parallel_log (fun _ parted => parted) fun sound => parallel_peek sound
  imageAddress _ _ := parallel_context.bind fun _ =>
    .ite (.bind (parallel_setContext (fun _ => rfl) (fun _ => rfl) fun _ _ same => by rw [same]) fun _ => .pure _)
      (.pure _)
  note _ := parallel_setContext (fun _ => rfl) (fun _ => rfl) fun _ _ same => by rw [same]

theorem parallel_loadSection (te section' : Nat)
    (safe : ∀ x, section' ≤ x → x < section' + sectionHeaderSize → ¬S x) :
    Parallel A B S (loadSection te section') := by
  refine (parallel_peek safe).bind fun _ => (parallel.imageAddress _ _).bind fun base =>
    (parallel.imageAddress _ _).bind fun _ => (parallel.failIf _ _ _).bind fun _ => ?_
  cases base with
  | none => exact .pure ()
  | some base =>
    refine parallel_file fun data => (parallel_store _ _).bind fun _ => ?_
    exact (parallel_peek safe).bind fun _ => parallel_store _ _

theorem parallel_loadSections (te n section' : Nat)
    (safe : ∀ x, section' ≤ x → x < section' + n * sectionHeaderSize → ¬S x) :
    Parallel A B S (loadSections te n section') := by
  induction n generalizing section' with
  | zero => exact .pure ()
  | succ n ih =>
    rw [Nat.succ_mul] at safe
    refine (parallel_loadSection te section' fun x low high => safe x low (by omega)).bind fun _ => ?_
    exact ih _ fun x low high => safe x (by omega) (by omega)

theorem parallel_copyCodeView (te addr rva codeView : Nat) (entry : DebugEntry) :
    Parallel A B S (copyCodeView te addr rva codeView entry) :=
  .ite (parallel_file fun _ => (parallel_store _ _).bind fun _ => parallel_store _ _) (.pure ())

theorem parallel_loadDebug (te lastSection : Nat) : Parallel A B S (loadDebug te lastSection) := by
  refine parallel_context.bind fun ctx => .ite ((parallel.imageAddress _ _).bind fun addr => ?_) (.pure ())
  cases addr with
  | none => exact parallel.fail _ _
  | some addr =>
    refine (parallel.fetch _ _).bind fun _ => (parallel.debugDataRva _ _).bind fun rva => .ite ?_ (.pure ())
    refine (parallel.imageAddress _ _).bind fun codeView => .bind ?_ fun _ => ?_
    · exact parallel_setContext (fun _ => rfl) (fun _ => rfl) fun _ _ same => by rw [same]
    cases codeView with
    | none => exact parallel.fail _ _
    | some codeView => exact (parallel_copyCodeView _ _ _ _ _).bind fun _ => parallel.pdbPointer _ _

theorem parallel_ask {f : Bytes → α} {β : Type} {k : α → Loader β} (same : f B = f A)
    (next : Parallel A B S (k (f A))) :
    Parallel A B S (ask f >>= k) := by
  refine ⟨next.stays, fun w w' alike => ?_⟩
  have other : (ask f >>= k) B w' = k (f A) B w' := by
    rw [← same]
    rfl
  rw [Prog.final, Prog.final, other]
  exact next.step w w' alike

theorem parallel_checkContext (same : getImageInfo B = getImageInfo A) : Parallel A B S checkContext := by
  refine (parallel.setError _).bind fun _ => parallel_context.bind fun ctx => parallel_ask same ?_
  cases getImageInfo A with
  | error e => exact .halt _
  | ok check =>
    exact (parallel.failIf _ _ _).bind fun _ => (parallel.failIf _ _ _).bind fun _ =>
      (parallel.failIf _ _ _).bind fun _ => (parallel.failIf _ _ _).bind fun _ => parallel.failIf _ _ _

end Parallel

/-! ### The two fields -/

def directoryEntries (hdr : Bytes) : Nat := field hdr (numberOfRvaAndSizesOfs (field hdr 24 2)) 4

/-- The places of the checksum and of the security directory entry, with the header at `base`. -/
def Exempt (hdr : Bytes) (base x : Nat) : Prop :=
  (base + 88 ≤ x ∧ x < base + 92) ∨
    (securityEntry < directoryEntries hdr ∧ base + dataDirectoryOfs (field hdr 24 2) securityEntry ≤ x ∧
      x < base + dataDirectoryOfs (field hdr 24 2) securityEntry + 8)

section Fields

variable {A B hdr : Bytes} {base : Nat}

theorem not_exempt_of_lt {x : Nat} (h : x < base + 88) : ¬Exempt hdr base x := by
  unfold Exempt dataDirectoryOfs
  split <;> omega

theorem not_exempt_entries (magic : Nat) {x : Nat} (low : base + numberOfRvaAndSizesOfs magic ≤ x)
    (high : x < base + numberOfRvaAndSizesOfs magic + 4) : ¬Exempt hdr base x := by
  unfold numberOfRvaAndSizesOfs at low high
  unfold Exempt dataDirectoryOfs securityEntry
  split_ifs at low high ⊢ <;> omega

theorem not_exempt_relocSize (magic : Nat) {x : Nat} (low : base + (dataDirectoryOfs magic baseRelocEntry + 4) ≤ x)
    (high : x < base + (dataDirectoryOfs magic baseRelocEntry + 4) + 4) : ¬Exempt hdr base x := by
  unfold dataDirectoryOfs baseRelocEntry at low high
  unfold Exempt dataDirectoryOfs securityEntry
  split_ifs at low high ⊢ <;> omega

theorem parallel_loadEntryPoint (te : Nat) : Parallel A B (Exempt hdr base) (loadEntryPoint base te) := by
  refine parallel_context.bind fun ctx => .bind (parallel_peek fun x _ high => ?_) fun _ =>
    (parallel.imageAddress _ _).bind fun _ => .bind (parallel_peek fun x _ high => not_exempt_of_lt (by omega)) fun _ =>
    .bind (parallel_peek fun x => not_exempt_entries _) fun _ => .bind (parallel_peek fun x low high => ?_) fun _ => ?_
  · refine not_exempt_of_lt ?_
    split at high <;> omega
  · split at low
    · rw [if_pos ‹_›] at high
      exact not_exempt_of_lt (by omega)
    · rw [if_neg ‹_›] at high
      exact not_exempt_relocSize _ low high
  · exact parallel_setContext (fun _ => rfl) (fun _ => rfl) fun _ _ same => by rw [same]

theorem parallel_loadResources : Parallel A B (Exempt hdr base) (loadResources base) := by
  refine .bind ?_ fun _ => parallel_context.bind fun ctx => .ite ?_ (.pure ())
  · exact parallel_setContext (fun _ => rfl) (fun _ => rfl) fun _ _ same => by rw [same]
  refine .bind (parallel_peek fun x _ high => not_exempt_of_lt (by omega)) fun _ =>
    .bind (parallel_peek fun x => not_exempt_entries _) fun _ => (parallel.fetchNat _ _).bind fun _ =>
    (parallel.fetchNat _ _).bind fun _ => .ite ((parallel.imageAddress _ _).bind fun resources => ?_) (.pure ())
  cases resources with
  | none => exact .pure ()
  | some resources => exact (parallel.resourceDirectory _ _ _).bind fun _ => parallel.hiiEntries _ _ _ _ _ _

theorem parallel_loadBody {te n firstSection : Nat}
    (safe : ∀ x, firstSection ≤ x → x < firstSection + n * sectionHeaderSize → ¬Exempt hdr base x) :
    Parallel A B (Exempt hdr base) (loadBody base te n firstSection) :=
  (parallel_loadSections te n firstSection safe).bind fun _ => (parallel_loadEntryPoint te).bind fun _ =>
    (parallel_loadDebug _ _).bind fun _ => parallel_loadResources

end Fields

/-! ### The headers of a file that is accepted -/

def TableInHeaders (hdr : Bytes) (info : ImageInfo) : Prop :=
  info.peCoffHeaderOffset + 24 + field hdr 20 2 + field hdr 6 2 * sectionHeaderSize ≤ info.sizeOfHeaders

/-- What `PeCoffLoaderGetPeHeader` has checked of a file with NT headers. -/
structure NtFile (file hdr : Bytes) (info : ImageInfo) : Prop where
  dos : 64 ≤ file.length
  room : info.peCoffHeaderOffset + headerUnionSize ≤ file.length
  offset : info.peCoffHeaderOffset = headerOffset (slice 0 64 file)
  header : hdr = slice info.peCoffHeaderOffset headerUnionSize file
  filled : info = ntInfo hdr info.peCoffHeaderOffset
  magic : field hdr 24 2 = magic32 ∨ field hdr 24 2 = magic64
  entries : directoryEntries hdr ≤ 16
  optional : sub32 (field hdr 20 2) (dataDirectoryOfs (field hdr 24 2) 0 - 24) = directoryEntries hdr * 8
  headers : info.sizeOfHeaders ≤ file.length
  table : file.length < 2 ^ 32 → TableInHeaders hdr info

theorem ensures_ntFile : Ensures (fun r => r.2.isTeImage = false → NtFile file r.1 r.2) (getPeHeader file) := by
  refine ensures_readExact.bind fun dos readDos => ensures_readExact.bind fun hdr readHdr => ?_
  have header : Ensures (fun info => info.isTeImage = false → NtFile file hdr info)
      (getHeader file hdr (headerOffset dos)) := by
    unfold getHeader
    split
    · refine ensures_throwIf fun _ => ensures_throwIf fun _ => .skip fun _ => ensures_throwIf fun _ => .pure ?_
      exact fun nt => nomatch nt
    split
    · refine ensures_throwIf fun magic => ensures_throwIf fun entries => ensures_throwIf fun optional => ?_
      refine ensures_throwIf fun _ => ensures_throwIf fun _ => ensures_throwIf fun some' => ensures_throwIf fun _ => ?_
      refine ensures_throwIf fun count => ensures_readExact.bind fun _ readLast => .skip fun _ => .pure fun _ => ?_
      refine ⟨by simpa using readDos.2, readHdr.2, congrArg headerOffset readDos.1, readHdr.1, rfl, ?_,
        not_lt.mp entries, not_not.mp optional, ?_, fun small => ?_⟩
      · exact not_not.mp fun neither => magic (not_or.mp neither)
      · have := readLast.2
        dsimp only [ntInfo]
        omega
      · have room := readHdr.2
        have bounds := optionalHeader_bounds (field_lt hdr 20 2) entries optional
        rw [Nat.mod_eq_of_lt (by omega)] at count some'
        have count' := (Nat.le_div_iff_mul_le (by decide)).mp (not_lt.mp count)
        dsimp only [TableInHeaders, ntInfo]
        omega
    · exact .error _
  exact header.bind fun info nt => ensures_throwIf fun _ => .skip fun _ => .pure nt

/-! ### Files with one hash stream -/

/-- The size of the headers and of the sections: the offset of what is hashed behind them. -/
def sumOfBytesHashed (hdr : Bytes) (sections : List SecureBoot.Section) : Nat :=
  field hdr 84 4 + (sections.map (·.sizeOfRawData)).sum

section Streams

variable {ofs len i width : Nat} {file hdr m hdrA hdrB : Bytes} {info iA iB : ImageInfo}

open SecureBoot (PeImage gather headerRanges readSections sectionRanges trailingBytes imageMessage hashPeBytes)

variable {A B : Bytes}

theorem getElem?_of_slice_eq (same : slice ofs len A = slice ofs len B) (low : ofs ≤ i)
    (high : i < ofs + len) : A[i]? = B[i]? := by
  have at' : ∀ C : Bytes, (slice ofs len C)[i - ofs]? = C[i]? := by
    intro C
    rw [slice, List.getElem?_take, if_pos (by omega), List.getElem?_drop, Nat.add_sub_cancel' low]
  rw [← at' A, ← at' B, same]

theorem slice_congr (same : ∀ i, ofs ≤ i → i < ofs + len → A[i]? = B[i]?) : slice ofs len A = slice ofs len B := by
  apply ext_getElem?
  intro i
  simp only [slice, List.getElem?_take, List.getElem?_drop]
  split
  · exact same _ (by omega) (by omega)
  · rfl

theorem gather_cons {img g : Bytes} {r : Nat × Nat} {rs : List (Nat × Nat)} (h : gather img (r :: rs) = some g) :
    r.1 + r.2 ≤ img.length ∧ ∃ g', gather img rs = some g' ∧ g = slice r.1 r.2 img ++ g' := by
  simp only [gather, mapM_cons, Option.bind_eq_bind, Option.pure_def, Option.map_eq_some_iff,
    Option.bind_eq_some_iff, Option.some.injEq] at h
  obtain ⟨_, ⟨first, hfirst, parts, hparts, rfl⟩, rfl⟩ := h
  rw [slice?] at hfirst
  split at hfirst
  · cases hfirst
    exact ⟨‹_›, parts.flatten, by rw [gather, hparts, Option.map_some], rfl⟩
  · cases hfirst

theorem gather_le {img g : Bytes} {rs : List (Nat × Nat)} (h : gather img rs = some g) :
    ∀ r ∈ rs, r.1 + r.2 ≤ img.length := by
  induction rs generalizing g with
  | nil => exact nofun
  | cons r rs ih =>
    obtain ⟨len, g', rest, -⟩ := gather_cons h
    exact forall_mem_cons.mpr ⟨len, ih rest⟩

theorem gather_inj {rs : List (Nat × Nat)} {gA gB restA restB : Bytes} (hA : gather A rs = some gA)
    (hB : gather B rs = some gB) (same : gA ++ restA = gB ++ restB) :
    (∀ r ∈ rs, slice r.1 r.2 A = slice r.1 r.2 B) ∧ restA = restB := by
  induction rs generalizing gA gB with
  | nil =>
    cases hA
    cases hB
    exact ⟨nofun, same⟩
  | cons r rs ih =>
    obtain ⟨lenA, gA', hA', rfl⟩ := gather_cons hA
    obtain ⟨lenB, gB', hB', rfl⟩ := gather_cons hB
    rw [append_assoc, append_assoc] at same
    obtain ⟨first, rest⟩ := append_inj same (by rw [length_slice lenA, length_slice lenB])
    obtain ⟨all, tail⟩ := ih hA' hB' rest
    exact ⟨forall_mem_cons.mpr ⟨first, all⟩, tail⟩

theorem field_eq_some {bs : Bytes} {v : Nat} (h : SecureBoot.field bs ofs width = some v) :
    v = leNat (slice ofs width bs) := by
  rw [SecureBoot.field, slice?] at h
  split at h
  · exact (Option.some.inj h).symm
  · cases h

theorem slice_slice {a n : Nat} (bs : Bytes) (h : a + n ≤ len) :
    slice a n (slice ofs len bs) = slice (ofs + a) n bs := by
  rw [slice, slice, slice, drop_take, take_take, drop_drop, min_eq_left (by omega)]

theorem numberOfRvaAndSizesOfs_eq (p : PeImage) (magic : Nat) :
    p.numberOfRvaAndSizesOfs magic = p.peOfs + numberOfRvaAndSizesOfs magic := by
  have same : PeImage.magic32 = magic32 := rfl
  unfold PeImage.numberOfRvaAndSizesOfs PeImage.optOfs numberOfRvaAndSizesOfs
  rw [same]
  split <;> omega

theorem securityOfs_eq (p : PeImage) (magic : Nat) :
    p.securityOfs magic = p.peOfs + dataDirectoryOfs magic securityEntry := by
  have same : PeImage.magic32 = magic32 := rfl
  unfold PeImage.securityOfs PeImage.optOfs dataDirectoryOfs securityEntry
  rw [same]
  split <;> omega

section OneFile

variable (nt : NtFile file hdr info)
include nt

theorem NtFile.field (h : ofs + width ≤ headerUnionSize) :
    PeCoff.field hdr ofs width = leNat (slice (info.peCoffHeaderOffset + ofs) width file) := by
  rw [PeCoff.field, nt.header, slice_slice file h]

theorem NtFile.stream (h : imageMessage ⟨file, info.peCoffHeaderOffset⟩ = some m) : ∃ header sections body rest,
      gather file (headerRanges ⟨file, info.peCoffHeaderOffset⟩ (PeCoff.field hdr 24 2) (directoryEntries hdr)
        (PeCoff.field hdr 84 4)) = some header ∧ readSections ⟨file, info.peCoffHeaderOffset⟩ = some sections ∧
      gather file (sectionRanges sections) = some body ∧
      trailingBytes ⟨file, info.peCoffHeaderOffset⟩ (PeCoff.field hdr 24 2) (directoryEntries hdr)
        (sumOfBytesHashed hdr sections) = some rest ∧ m = header ++ (body ++ rest) := by
  simp only [imageMessage, Option.bind_eq_bind, Option.bind_eq_some_iff, Option.pure_def, Option.some.injEq] at h
  obtain ⟨magic, hmagic, -, -, entries, hentries, size, hsize, header, hheader, sections, hsections, body, hbody, rest,
    hrest, rfl⟩ := h
  have sameMagic : magic = PeCoff.field hdr 24 2 := by
    rw [field_eq_some hmagic, nt.field (by decide)]
    rfl
  have sameSize : size = PeCoff.field hdr 84 4 := by
    rw [field_eq_some hsize, nt.field (by decide)]
    rfl
  have sameEntries : entries = directoryEntries hdr := by
    rw [field_eq_some hentries, directoryEntries, ← sameMagic, nt.field, numberOfRvaAndSizesOfs_eq]
    unfold numberOfRvaAndSizesOfs
    split <;> decide
  subst sameMagic sameSize sameEntries
  exact ⟨header, sections, body, rest, hheader, hsections, hbody, hrest, append_assoc _ _ _⟩

theorem NtFile.take_stream
    (h : imageMessage ⟨file, info.peCoffHeaderOffset⟩ = some m) {k : Nat} (hk : k ≤ info.peCoffHeaderOffset + 88) :
    m.take k = file.take k := by
  obtain ⟨header, sections, body, rest, hheader, -, -, -, rfl⟩ := nt.stream h
  obtain ⟨len, tail, -, front⟩ := gather_cons hheader
  replace front : header = slice 0 (info.peCoffHeaderOffset + 88) file ++ tail := front
  replace len : 0 + (info.peCoffHeaderOffset + 88) ≤ file.length := len
  have long : k ≤ (slice 0 (info.peCoffHeaderOffset + 88) file).length := by
    rwa [length_slice len]
  rw [front, append_assoc, take_append_of_le_length long, slice, drop_zero, take_take, min_eq_left hk]

theorem NtFile.optionalHeader :
    24 + PeCoff.field hdr 20 2 = dataDirectoryOfs (PeCoff.field hdr 24 2) (directoryEntries hdr) := by
  have small : PeCoff.field hdr 20 2 < 2 ^ 16 := field_lt hdr 20 2
  have entries := nt.entries
  have optional := nt.optional
  unfold sub32 dataDirectoryOfs at optional
  unfold dataDirectoryOfs
  split_ifs at optional ⊢ <;> omega

theorem NtFile.not_exempt_table {base x : Nat} (h : base + 24 + PeCoff.field hdr 20 2 ≤ x) : ¬Exempt hdr base x := by
  have optional := nt.optionalHeader
  unfold Exempt securityEntry
  unfold dataDirectoryOfs at optional ⊢
  split_ifs at optional ⊢ <;> omega

theorem NtFile.field_eq (h : ofs + width ≤ headerUnionSize) :
    SecureBoot.field file (info.peCoffHeaderOffset + ofs) width = some (PeCoff.field hdr ofs width) := by
  have room := nt.room
  rw [SecureBoot.field, slice?, if_pos (by omega), nt.field h, Option.map_some]

theorem NtFile.readSections :
    readSections ⟨file, info.peCoffHeaderOffset⟩ = (List.range (PeCoff.field hdr 6 2)).mapM fun i =>
      (slice? (info.peCoffHeaderOffset + 24 + PeCoff.field hdr 20 2 + 40 * i) 40 file).map
        SecureBoot.Section.ofBytes := by
  rw [SecureBoot.readSections, nt.field_eq (by decide), Option.bind_eq_bind, Option.bind_some, nt.field_eq (by decide)]
  rfl

end OneFile

theorem entries_eq_of_optional {opt n n' magic : Nat} (h : sub32 opt (dataDirectoryOfs magic 0 - 24) = n * 8)
    (h' : sub32 opt (dataDirectoryOfs magic 0 - 24) = n' * 8) : n' = n := by omega

/-- Two files with NT headers and one hash stream; the section table of the first lies in its headers. -/
structure OneStream (A B hdrA hdrB m : Bytes) (iA iB : ImageInfo) : Prop where
  ntA : NtFile A hdrA iA
  ntB : NtFile B hdrB iB
  streamA : imageMessage ⟨A, iA.peCoffHeaderOffset⟩ = some m
  streamB : imageMessage ⟨B, iB.peCoffHeaderOffset⟩ = some m
  table : TableInHeaders hdrA iA

theorem mem_nonEmpty {r : Nat × Nat} (low : r.1 ≤ i) (high : i < r.1 + r.2) : r ∈ SecureBoot.nonEmpty r := by
  rw [SecureBoot.nonEmpty, if_pos (by omega)]
  exact mem_singleton_self r

theorem mem_headerRanges {p : PeImage} {size : Nat} (below : i < size) (covered : ¬Exempt hdr p.peOfs i) :
    ∃ r ∈ headerRanges p (PeCoff.field hdr 24 2) (directoryEntries hdr) size, r.1 ≤ i ∧ i < r.1 + r.2 := by
  have checkSum : p.checkSumOfs = p.peOfs + 88 := rfl
  have tail : ∀ ofs, ofs ≤ i → ofs ≤ i ∧ i < ofs + usub size ofs := by
    intro ofs low
    rw [usub_of_le (by omega)]
    omega
  rw [Exempt, ← securityOfs_eq] at covered
  rw [headerRanges, checkSum]
  by_cases front : i < p.peOfs + 88
  · exact ⟨_, mem_cons_self, Nat.zero_le _, by omega⟩
  by_cases few : directoryEntries hdr ≤ 4
  · rw [if_pos few]
    have range := tail (p.peOfs + 88 + 4) (by omega)
    exact ⟨_, mem_cons_of_mem _ (mem_nonEmpty range.1 range.2), range⟩
  rw [if_neg few]
  by_cases before : i < p.securityOfs (PeCoff.field hdr 24 2)
  · have range : p.peOfs + 88 + 4 ≤ i ∧
        i < p.peOfs + 88 + 4 + (p.securityOfs (PeCoff.field hdr 24 2) - (p.peOfs + 88 + 4)) := by omega
    exact ⟨_, mem_cons_of_mem _ (mem_append_left _ (mem_nonEmpty range.1 range.2)), range⟩
  · have entry : securityEntry < directoryEntries hdr := not_le.mp few
    have range := tail (p.securityOfs (PeCoff.field hdr 24 2) + 8) (by omega)
    exact ⟨_, mem_cons_of_mem _ (mem_append_right _ (mem_nonEmpty range.1 range.2)), range⟩

theorem mapM_congr {α β : Type} {f g : α → Option β} {l : List α} (h : ∀ a ∈ l, f a = g a) : l.mapM f = l.mapM g := by
  induction l with
  | nil => rfl
  | cons a l ih =>
    obtain ⟨head, tail⟩ := forall_mem_cons.mp h
    rw [mapM_cons, mapM_cons, head, ih tail]

theorem slice?_congr (lenA : ofs + len ≤ A.length) (lenB : ofs + len ≤ B.length)
    (same : slice ofs len A = slice ofs len B) : slice? ofs len B = slice? ofs len A := by
  rw [slice?, slice?, if_pos lenA, if_pos lenB, same]

namespace OneStream

variable (one : OneStream A B hdrA hdrB m iA iB)
include one

theorem offset : iB.peCoffHeaderOffset = iA.peCoffHeaderOffset := by
  have dos : slice 0 64 B = slice 0 64 A := by
    rw [slice, slice, drop_zero, drop_zero, ← one.ntA.take_stream one.streamA (by omega),
      ← one.ntB.take_stream one.streamB (by omega)]
  rw [one.ntA.offset, one.ntB.offset, dos]

theorem fields (ofs width : Nat) (h : ofs + width ≤ 88) :
    PeCoff.field hdrB ofs width = PeCoff.field hdrA ofs width := by
  have front : B.take (iA.peCoffHeaderOffset + 88) = A.take (iA.peCoffHeaderOffset + 88) := by
    rw [← one.ntA.take_stream one.streamA le_rfl, ← one.ntB.take_stream one.streamB (by rw [one.offset])]
  have room : ofs + width ≤ headerUnionSize := by
    unfold headerUnionSize
    omega
  have within' : iA.peCoffHeaderOffset + ofs + width ≤ iA.peCoffHeaderOffset + 88 := by omega
  rw [one.ntA.field room, one.ntB.field room, one.offset, ← slice_take B within', front, slice_take A within']

theorem entries : directoryEntries hdrB = directoryEntries hdrA := by
  have optB := one.ntB.optional
  rw [one.fields _ _ (by decide), one.fields _ _ (by decide)] at optB
  exact entries_eq_of_optional one.ntA.optional optB

/-- The bytes of the headers are the same but for the two exempt fields. -/
theorem bytes (below : i < iA.sizeOfHeaders) (covered : ¬Exempt hdrA iA.peCoffHeaderOffset i) : A[i]? = B[i]? := by
  obtain ⟨headerA, _, _, _, gatherA, -, -, -, rfl⟩ := one.ntA.stream one.streamA
  obtain ⟨headerB, _, _, _, gatherB, -, -, -, same⟩ := one.ntB.stream one.streamB
  rw [one.fields _ _ (by decide), one.fields _ _ (by decide), one.entries, one.offset] at gatherB
  obtain ⟨ranges, -⟩ := gather_inj gatherA gatherB same
  rw [one.ntA.filled] at below
  obtain ⟨r, mem, low, high⟩ := mem_headerRanges (p := ⟨A, iA.peCoffHeaderOffset⟩) below covered
  exact getElem?_of_slice_eq (ranges r mem) low high

/-- A field of the optional header that is none of the two exempt ones. -/
theorem field_eq (room : ofs + width ≤ headerUnionSize) (inside : ofs + width ≤ 24 + PeCoff.field hdrA 20 2)
    (apart : ∀ i, ofs ≤ i → i < ofs + width → ¬Exempt hdrA 0 i) :
    PeCoff.field hdrB ofs width = PeCoff.field hdrA ofs width := by
  have table := one.table
  rw [one.ntA.field room, one.ntB.field room, one.offset]
  refine congrArg leNat (slice_congr fun i low high => ?_).symm
  obtain ⟨k, rfl⟩ := Nat.exists_eq_add_of_le (show iA.peCoffHeaderOffset ≤ i by omega)
  unfold TableInHeaders at table
  refine one.bytes (by omega) ?_
  have := apart k (by omega) (by omega)
  unfold Exempt at this ⊢
  omega

theorem info_eq : iB = iA := by
  have optional := one.ntA.optionalHeader
  have subsystem : PeCoff.field hdrB 92 2 = PeCoff.field hdrA 92 2 := by
    refine one.field_eq (by decide) ?_ fun i low high => ?_
    · unfold dataDirectoryOfs at optional
      split_ifs at optional <;> omega
    · unfold Exempt dataDirectoryOfs
      split_ifs <;> omega
  have front {ofs width : Nat} (h : ofs + width ≤ 88) := one.fields ofs width h
  rw [one.ntA.filled, one.ntB.filled, one.offset]
  simp (disch := decide) only [ntInfo, subsystem, front]

theorem readSections : readSections ⟨B, iB.peCoffHeaderOffset⟩ = readSections ⟨A, iA.peCoffHeaderOffset⟩ := by
  have table := one.table
  have headersB := one.ntB.headers
  rw [one.info_eq] at headersB
  rw [one.ntA.readSections, one.ntB.readSections, one.offset, one.fields _ _ (by decide), one.fields _ _ (by decide)]
  refine mapM_congr fun i hi => congrArg _ (slice?_congr ?_ ?_ (slice_congr fun x low high => one.bytes ?_ ?_))
  all_goals have count := mem_range.mp hi
  all_goals unfold TableInHeaders sectionHeaderSize at table
  · exact le_trans (by omega) one.ntA.headers
  · exact le_trans (by omega) headersB
  · omega
  · exact one.ntA.not_exempt_table (by omega)

end OneStream

theorem mem_insertSection {s t : SecureBoot.Section} {table : List SecureBoot.Section} (h : s = t ∨ s ∈ table) :
    s ∈ SecureBoot.insertSection t table := by
  induction table with
  | nil => simpa [SecureBoot.insertSection] using h
  | cons u table ih =>
    rw [SecureBoot.insertSection]
    split
    · rcases h with rfl | h
      · exact mem_cons_of_mem u (ih (.inl rfl))
      · rcases mem_cons.mp h with rfl | h
        · exact mem_cons_self
        · exact mem_cons_of_mem u (ih (.inr h))
    · exact mem_cons.mpr h

theorem mem_sortSections {s : SecureBoot.Section} {sections : List SecureBoot.Section} (h : s ∈ sections) :
    s ∈ SecureBoot.sortSections sections := by
  rw [SecureBoot.sortSections, mem_reverse]
  -- the table that the loop has built so far keeps its entries
  suffices keeps : ∀ table, s ∈ sections ∨ s ∈ table →
      s ∈ sections.foldl (fun table s => SecureBoot.insertSection s table) table from keeps [] (.inl h)
  clear h
  induction sections with
  | nil => exact fun table h => h.resolve_left not_mem_nil
  | cons t sections ih =>
    intro table h
    refine ih _ ?_
    rcases h with h | h
    · rcases mem_cons.mp h with rfl | h
      · exact .inr (mem_insertSection (.inl rfl))
      · exact .inl h
    · exact .inr (mem_insertSection (.inr h))

theorem trailingBytes_eq {p : PeImage} {magic entries sum : Nat} {rest : Bytes}
    (h : trailingBytes p magic entries sum = some rest) : rest = slice sum rest.length p.bytes := by
  unfold trailingBytes at h
  split at h
  · cases h
    rfl
  simp only [Option.bind_eq_bind, Option.bind_eq_some_iff] at h
  obtain ⟨cert, -, ranges, range, gathered⟩ := h
  unfold SecureBoot.trailingRange at range
  split_ifs at range
  · cases range
    obtain ⟨-, rest', none, rfl⟩ := gather_cons gathered
    cases none
    rw [reverse_nil, flatten_nil, append_nil, length_slice (by dsimp only; omega)]
  · cases range
    cases gathered
    rfl

/-- `HashPeImage` feeds the byte to the hash: with the headers, with a section or with what follows them. -/
def HashedByte (p : PeImage) (hdr : Bytes) (i : Nat) : Prop :=
  (i < PeCoff.field hdr 84 4 ∧ ¬Exempt hdr p.peOfs i) ∨
    ∃ sections, readSections p = some sections ∧
      ((∃ s ∈ sections, s.pointerToRawData ≤ i ∧ i < s.pointerToRawData + s.sizeOfRawData) ∨
        ∃ rest, trailingBytes p (PeCoff.field hdr 24 2) (directoryEntries hdr) (sumOfBytesHashed hdr sections) =
        some rest ∧ sumOfBytesHashed hdr sections ≤ i ∧ i < sumOfBytesHashed hdr sections + rest.length)

def Hashed (p : PeImage) (hdr : Bytes) (ofs len : Nat) : Prop := ∀ i, ofs ≤ i → i < ofs + len → HashedByte p hdr i

theorem lt_length_of_slice {bs : Bytes} {n : Nat} (h : n = (slice ofs n bs).length) (low : ofs ≤ i)
    (high : i < ofs + n) :
    i < bs.length := by
  rw [slice, length_take, length_drop] at h
  omega

section Bytes

variable (one : OneStream A B hdrA hdrB m iA iB)
include one

theorem HashedByte.same (hashed : HashedByte ⟨A, iA.peCoffHeaderOffset⟩ hdrA i) : i < A.length ∧ A[i]? = B[i]? := by
  have headers := one.ntA.headers
  have size : iA.sizeOfHeaders = PeCoff.field hdrA 84 4 := by rw [one.ntA.filled]; rfl
  rcases hashed with ⟨below, covered⟩ | ⟨sections, read, inSections⟩
  · exact ⟨by omega, one.bytes (by omega) covered⟩
  obtain ⟨headerA, sectionsA, bodyA, restA, gatherA, readA, bodiesA, trailA, rfl⟩ := one.ntA.stream one.streamA
  obtain ⟨headerB, sectionsB, bodyB, restB, gatherB, readB, bodiesB, trailB, whole⟩ := one.ntB.stream one.streamB
  rw [one.readSections, read] at readB
  cases readB
  rw [read] at readA
  cases readA
  rw [one.fields _ _ (by decide), one.fields _ _ (by decide), one.entries, one.offset] at gatherB
  obtain ⟨-, bodies⟩ := gather_inj gatherA gatherB whole
  obtain ⟨ranges, rests⟩ := gather_inj bodiesA bodiesB bodies
  subst rests
  rcases inSections with ⟨s, mem, low, high⟩ | ⟨rest, trail, low, high⟩
  · have range : (s.pointerToRawData, s.sizeOfRawData) ∈ sectionRanges sections :=
      mem_flatMap.mpr ⟨s, mem_sortSections mem, mem_nonEmpty (i := i) low high⟩
    have data : slice s.pointerToRawData s.sizeOfRawData A = slice s.pointerToRawData s.sizeOfRawData B :=
      ranges _ range
    exact ⟨lt_of_lt_of_le high (gather_le bodiesA _ range), getElem?_of_slice_eq data low high⟩
  · rw [trailA] at trail
    cases trail
    have sliceA := trailingBytes_eq trailA
    have sliceB := trailingBytes_eq trailB
    rw [sumOfBytesHashed, one.fields _ _ (by decide), ← sumOfBytesHashed] at sliceB
    exact ⟨lt_length_of_slice (congrArg List.length sliceA) low high,
      getElem?_of_slice_eq (sliceA.symm.trans sliceB) low high⟩

theorem Hashed.slice_eq (hashed : Hashed ⟨A, iA.peCoffHeaderOffset⟩ hdrA ofs len) : slice ofs len A = slice ofs len B :=
  slice_congr fun i low high => ((hashed i low high).same one).2

theorem Hashed.readExact_eq (pos : 0 < len) (hashed : Hashed ⟨A, iA.peCoffHeaderOffset⟩ hdrA ofs len) :
    readExact B ofs len = readExact A ofs len := by
  obtain ⟨inA, last⟩ := (hashed (ofs + len - 1) (by omega) (by omega)).same one
  have inB : ofs + len - 1 < B.length := by
    rw [List.getElem?_eq_getElem inA] at last
    exact (List.getElem?_eq_some_iff.mp last.symm).1
  rw [readExact, readExact, if_pos (by omega), if_pos (by omega), hashed.slice_eq one]

end Bytes

end Streams

/-! ### The debug directory -/

/-- The ranges of the file that the loop over its debug directory reads. -/
def debugDirectoryReads (file : Bytes) (fileOffset size : Nat) : (fuel index : Nat) → List (Nat × Nat)
  | 0, _ => []
  | fuel + 1, index =>
    if size ≤ index then []
    else
      let entry := DebugEntry.ofBytes (slice (fileOffset + index) debugEntrySize file)
      let next := index + debugEntrySize
      (fileOffset + index, debugEntrySize) ::
        if entry.type = typeCodeView then
          if next < size ∧ entry.fileOffset = fileOffset + next then []
          else debugDirectoryReads file fileOffset size fuel next
        else if entry.type = typeExDllCharacteristics then
          (entry.fileOffset, 4) :: debugDirectoryReads file fileOffset size fuel next
        else debugDirectoryReads file fileOffset size fuel next

def debugReads (file hdr : Bytes) (info : ImageInfo) : List (Nat × Nat) :=
  let magic := field hdr 24 2
  let rva := field hdr (dataDirectoryOfs magic debugEntry) 4
  let size := field hdr (dataDirectoryOfs magic debugEntry + 4) 4
  if directoryEntries hdr ≤ debugEntry then []
  else
    match debugFileOffset file rva (field hdr 6 2) (info.peCoffHeaderOffset + 24 + field hdr 20 2) with
    | .error _ => []
    | .ok fileOffset => if fileOffset = 0 then [] else debugDirectoryReads file fileOffset size size 0

section Debug

variable {A B hdrA hdrB : Bytes} {iA iB : ImageInfo}

theorem debugFileOffset_congr (rva : Nat) {n table : Nat}
    (same : ∀ i < n, readExact B (table + i * sectionHeaderSize) sectionHeaderSize =
      readExact A (table + i * sectionHeaderSize) sectionHeaderSize) :
    debugFileOffset B rva n table = debugFileOffset A rva n table := by
  induction n generalizing table with
  | zero => rfl
  | succ n ih =>
    have first := same 0 (Nat.succ_pos n)
    rw [Nat.zero_mul, Nat.add_zero] at first
    have rest : debugFileOffset B rva n (table + sectionHeaderSize) =
      debugFileOffset A rva n (table + sectionHeaderSize) := by
      refine ih fun i lt => ?_
      have := same (i + 1) (Nat.succ_lt_succ lt)
      rwa [Nat.succ_mul, Nat.add_comm (i * _), ← Nat.add_assoc] at this
    rw [debugFileOffset, debugFileOffset, first, rest]

theorem debugDirectory_congr {rva fileOffset size fuel index : Nat} {info : ImageInfo}
    (same : ∀ r ∈ debugDirectoryReads A fileOffset size fuel index, 0 < r.2 →
      readExact B r.1 r.2 = readExact A r.1 r.2) :
    debugDirectory B rva fileOffset size fuel index info = debugDirectory A rva fileOffset size fuel index info := by
  induction fuel generalizing index info with
  | zero => rfl
  | succ fuel ih =>
    rw [debugDirectoryReads] at same
    rw [debugDirectory, debugDirectory]
    split
    · rfl
    rw [if_neg ‹_›] at same
    obtain ⟨first, rest⟩ := forall_mem_cons.mp same
    rw [first (Nat.succ_pos _)]
    by_cases inside : fileOffset + index + debugEntrySize ≤ A.length
    · rw [readExact, if_pos inside, pure_bind, pure_bind]
      refine ite_congr rfl (fun codeView => ite_congr rfl (fun _ => rfl) fun more => ?_) fun other =>
        ite_congr rfl (fun chars => ?_) fun plain => ?_
      · rw [if_pos codeView, if_neg more] at rest
        exact ih rest
      · rw [if_neg other, if_pos chars] at rest
        obtain ⟨second, rest⟩ := forall_mem_cons.mp rest
        rw [second (Nat.succ_pos _), ih rest]
      · rw [if_neg other, if_neg plain] at rest
        exact ih rest
    · rw [readExact, if_neg inside]
      rfl

section Same

variable {m : Bytes} (one : OneStream A B hdrA hdrB m iA iB)
include one

theorem readExact_table {i : Nat} (lt : i < field hdrA 6 2) :
    readExact B (iA.peCoffHeaderOffset + 24 + field hdrA 20 2 + i * sectionHeaderSize) sectionHeaderSize =
      readExact A (iA.peCoffHeaderOffset + 24 + field hdrA 20 2 + i * sectionHeaderSize) sectionHeaderSize := by
  have table := one.table
  have size : iA.sizeOfHeaders = field hdrA 84 4 := by rw [one.ntA.filled]; rfl
  refine Hashed.readExact_eq one (by decide) fun x low high => .inl ⟨?_, ?_⟩
  · unfold TableInHeaders sectionHeaderSize at table
    unfold sectionHeaderSize at high
    omega
  · exact one.ntA.not_exempt_table (by dsimp only; omega)

theorem debugField_eq (listed : debugEntry < directoryEntries hdrA) {k : Nat} (le : k ≤ 4) :
    field hdrB (dataDirectoryOfs (field hdrA 24 2) debugEntry + k) 4 =
      field hdrA (dataDirectoryOfs (field hdrA 24 2) debugEntry + k) 4 := by
  have optional := one.ntA.optionalHeader
  have entries := one.ntA.entries
  unfold debugEntry at listed
  refine one.field_eq ?_ ?_ fun i low high => ?_
  · unfold dataDirectoryOfs debugEntry headerUnionSize
    split_ifs <;> omega
  · rw [optional]
    unfold dataDirectoryOfs debugEntry
    omega
  · unfold Exempt dataDirectoryOfs securityEntry debugEntry at *
    split_ifs at * <;> omega

theorem ntDebugInfo_eq (hashed : ∀ r ∈ debugReads A hdrA iA, Hashed ⟨A, iA.peCoffHeaderOffset⟩ hdrA r.1 r.2) :
    ntDebugInfo B hdrB iA = ntDebugInfo A hdrA iA := by
  have entries := one.entries
  rw [directoryEntries, directoryEntries, one.fields 24 2 (by decide)] at entries
  rw [ntDebugInfo, ntDebugInfo, one.fields 24 2 (by decide), entries]
  refine ite_congr rfl (fun _ => rfl) fun listed => ?_
  have first := debugField_eq one (not_le.mp listed) (k := 0) (by decide)
  have second := debugField_eq one (not_le.mp listed) (k := 4) le_rfl
  rw [Nat.add_zero] at first
  have directory := debugFileOffset_congr (field hdrA (dataDirectoryOfs (field hdrA 24 2) debugEntry) 4) fun i lt =>
    readExact_table one lt
  dsimp only
  rw [first, second, one.fields 6 2 (by decide), one.fields 20 2 (by decide), directory]
  unfold debugReads directoryEntries at hashed
  dsimp only at hashed
  rw [if_neg listed] at hashed
  cases found : debugFileOffset A (field hdrA (dataDirectoryOfs (field hdrA 24 2) debugEntry) 4) (field hdrA 6 2)
    (iA.peCoffHeaderOffset + 24 + field hdrA 20 2) with
  | error e => rfl
  | ok fileOffset =>
    rw [found] at hashed
    dsimp only at hashed
    refine ite_congr rfl (fun _ => rfl) fun some' => debugDirectory_congr fun r mem pos => ?_
    rw [if_neg some'] at hashed
    exact (hashed r mem).readExact_eq one pos

theorem getImageInfo_eq (acceptsA : getPeHeader A = .ok (hdrA, iA)) (acceptsB : getPeHeader B = .ok (hdrB, iB))
    (nt : iA.isTeImage = false) (hashed : ∀ r ∈ debugReads A hdrA iA, Hashed ⟨A, iA.peCoffHeaderOffset⟩ hdrA r.1 r.2) :
    getImageInfo B = getImageInfo A := by
  have eq := ntDebugInfo_eq one hashed
  rw [getImageInfo, getImageInfo, acceptsA, acceptsB, one.info_eq]
  change (if iA.isTeImage = true then _ else ntDebugInfo B hdrB iA) = if iA.isTeImage = true then _
    else ntDebugInfo A hdrA iA
  rw [if_neg (by simp [nt]), if_neg (by simp [nt]), eq]

end Same

end Debug

/-! ### What `HashPeImage` feeds to the hash -/

section Feeding

open SecureBoot

variable {e : Env} {α β : Type}

def Feeds (e : Env) (m : Verify (Option α)) (o : Option α) : Prop :=
  ∀ w, wp m e (fun r _ => ∀ a, r = some a → o = some a) (fun _ _ => True) w

theorem feeds_pure (o : Option α) : Feeds e (pure o) o := fun _ _ result => result

theorem feeds_none (o : Option α) : Feeds e (pure none) o := fun _ => nofun

theorem feeds_orFault {o : Option β} {f : β → Verify (Option α)} {k : β → Option α} (next : ∀ b, Feeds e (f b) (k b)) :
    Feeds e (orFault o >>= f) (o.bind k) := by
  intro w
  rw [wp_bind]
  cases o with
  | none => trivial
  | some b => exact next b w

theorem feeds_bind {m : Verify (Option β)} {o : Option β} {f : Option β → Verify (Option α)} {k : β → Option α}
    (first : Feeds e m o) (stop : f none = pure none) (next : ∀ b, Feeds e (f (some b)) (k b)) :
    Feeds e (m >>= f) (o.bind k) := by
  intro w
  refine wp_seq (fun r w' result => ?_) (first w)
  cases r with
  | none =>
    rw [stop]
    exact feeds_none _ w'
  | some b =>
    rw [result b rfl]
    exact next b w'

theorem feeds_attempt {m : Verify (Option α)} {o : Option α} (next : Feeds e m o) :
    Feeds e (attempt >>= fun granted => if granted = false then return none else m) o := by
  intro w
  rw [wp_bind]
  change wp (if e.grants w.calls = false then _ else _) e _ _ _
  rw [wp_ite]
  split
  · exact feeds_none _ _
  · exact next _

theorem computes_feeds : Computes fun _ m o => Feeds e m o := ⟨feeds_pure, feeds_orFault, feeds_attempt, feeds_bind⟩

theorem imageMessage_of_fed {p : PeImage} {m : Bytes} {w : SecureBoot.World}
    (fed : (hashPeBytes p e w).1 = .ok (some m)) :
    imageMessage p = some m :=
  wp_returned (computes_feeds.hashPeBytes p w) fed m rfl

end Feeding

/-! ### The load of the headers -/

def headersLoaded (file : Bytes) (w : World) : World :=
  { w with
    mem := w.mem.write w.ctx.imageAddress (slice 0 w.ctx.sizeOfHeaders file)
    ctx.sizeOfHeaders := (slice 0 w.ctx.sizeOfHeaders file).length }

abbrev ntAddress (ctx : ImageContext) : Nat := ctx.imageAddress + ctx.peCoffHeaderOffset

theorem loadChecked_nt (nt : w.ctx.isTeImage = false) :
    loadChecked file w = loadBody (ntAddress w.ctx) 0
      (leNat ((headersLoaded file w).mem.read (ntAddress w.ctx + 6) 2))
      (ntAddress w.ctx +
        (24 + leNat ((headersLoaded file w).mem.read (ntAddress w.ctx + 20) 2)))
      file (headersLoaded file w) := by
  have run : loadChecked file w = loadBody (headerAddress w.ctx)
      (if w.ctx.isTeImage then sub32 (leNat ((headersLoaded file w).mem.read (headerAddress w.ctx + 6) 2)) teHeaderSize
        else 0)
      (leNat ((headersLoaded file w).mem.read (headerAddress w.ctx + if w.ctx.isTeImage then 4 else 6)
        (if w.ctx.isTeImage then 1 else 2)))
      (headerAddress w.ctx + if w.ctx.isTeImage then teHeaderSize
        else 24 + leNat ((headersLoaded file w).mem.read (headerAddress w.ctx + 20) 2))
      file (headersLoaded file w) := rfl
  rw [run, headerAddress, nt]
  rfl

theorem NtFile.read_loaded (nt : NtFile file hdr info) (table : TableInHeaders hdr info)
    (offset : w.ctx.peCoffHeaderOffset = info.peCoffHeaderOffset)
    (headers : w.ctx.sizeOfHeaders = info.sizeOfHeaders) {ofs width : Nat} (h : ofs + width ≤ 24) :
    leNat ((headersLoaded file w).mem.read (ntAddress w.ctx + ofs) width) =
      PeCoff.field hdr ofs width := by
  have room : info.peCoffHeaderOffset + ofs + width ≤ info.sizeOfHeaders := by
    unfold TableInHeaders at table
    omega
  have len : (slice 0 w.ctx.sizeOfHeaders file).length = info.sizeOfHeaders := by
    rw [headers, length_slice (by simpa using nt.headers)]
  rw [headersLoaded, ntAddress, offset, Nat.add_assoc, Store.read_write_within _ _ (by omega), slice_slice _ (by omega),
    Nat.zero_add, ← nt.field (by unfold headerUnionSize; omega)]

theorem exempt_shift {base i : Nat} : Exempt hdr (addr + base) (addr + i) ↔ Exempt hdr base i := by
  unfold Exempt
  omega

theorem alike_headersLoaded {A B hdrA hdrB m : Bytes} {iA iB : ImageInfo} (one : OneStream A B hdrA hdrB m iA iB)
    {w' : World} (offset : w.ctx.peCoffHeaderOffset = iA.peCoffHeaderOffset)
    (headers : w.ctx.sizeOfHeaders = iA.sizeOfHeaders) (alike : Alike (Exempt hdrA (ntAddress w.ctx)) w w') :
    Alike (Exempt hdrA (ntAddress w.ctx)) (headersLoaded A w) (headersLoaded B w') := by
  have lenA := one.ntA.headers
  have lenB := one.ntB.headers
  rw [one.info_eq] at lenB
  have lengths : (slice 0 w.ctx.sizeOfHeaders B).length = (slice 0 w.ctx.sizeOfHeaders A).length := by
    rw [headers, length_slice (by simpa using lenB), length_slice (by simpa using lenA)]
  refine ⟨?_, fun x out => ?_⟩
  · simp only [headersLoaded, alike.ctx, lengths]
  simp only [headersLoaded, Store.write, alike.ctx, lengths]
  split
  · rename_i range
    obtain ⟨i, rfl⟩ := Nat.exists_eq_add_of_le range.1
    have below : i < iA.sizeOfHeaders := by
      rw [← length_slice (by simpa using lenA : 0 + iA.sizeOfHeaders ≤ A.length), ← headers]
      omega
    rw [exempt_shift, offset] at out
    have byte := one.bytes below out
    rw [Nat.add_sub_cancel_left]
    simp only [slice, drop_zero, getD_eq_getElem?_getD, List.getElem?_take, byte]
  · exact alike.mem x out

theorem NtFile.loadChecked (nt : NtFile file hdr info) (table : TableInHeaders hdr info)
    (kind : w.ctx.isTeImage = false) (offset : w.ctx.peCoffHeaderOffset = info.peCoffHeaderOffset)
    (headers : w.ctx.sizeOfHeaders = info.sizeOfHeaders) :
    PeCoff.loadChecked file w = loadBody (ntAddress w.ctx) 0 (PeCoff.field hdr 6 2)
      (ntAddress w.ctx + (24 + PeCoff.field hdr 20 2)) file (headersLoaded file w) := by
  rw [loadChecked_nt kind, nt.read_loaded table offset headers (by decide), nt.read_loaded table offset headers
    (by decide)]

structure ContextOf (info : ImageInfo) (ctx : ImageContext) : Prop where
  isTeImage : ctx.isTeImage = false
  peCoffHeaderOffset : ctx.peCoffHeaderOffset = info.peCoffHeaderOffset
  sizeOfHeaders : ctx.sizeOfHeaders = info.sizeOfHeaders

theorem same_checkContext {file : Bytes} :
    Within (Same fun w : World => (w.ctx.toImageInfo, w.history)) file checkContext := by
  have failIf : ∀ (q : Prop) [Decidable q] e status,
      Within (Same fun w : World => (w.ctx.toImageInfo, w.history)) file (failIf q e status) :=
    fun q _ e status => .ite (.bind (.modify fun _ => rfl) fun _ => .halt status) (.pure ())
  refine .bind (.modify fun _ => rfl) fun _ => .bind (.bind .get fun _ => .pure _) fun ctx => .ask_bind ?_
  cases getImageInfo file with
  | error e => exact .halt _
  | ok check =>
    exact (failIf _ _ _).bind fun _ => (failIf _ _ _).bind fun _ => (failIf _ _ _).bind fun _ =>
      (failIf _ _ _).bind fun _ => failIf _ _ _

section Loads

variable {A B hdrA hdrB m : Bytes} {iA iB : ImageInfo} (one : OneStream A B hdrA hdrB m iA iB)
include one

theorem loadChecked_step {w w' : World} (ofA : ContextOf iA w.ctx)
    (alike : Alike (Exempt hdrA (ntAddress w.ctx)) w w') :
    Parted A B (Exempt hdrA (ntAddress w.ctx)) (loadChecked.final A w) ∨
      ((loadChecked B w').1 = (loadChecked A w).1 ∧
        Alike (Exempt hdrA (ntAddress w.ctx)) (loadChecked.final A w)
          (loadChecked.final B w')) := by
  have tableB : TableInHeaders hdrB iB := by
    rw [TableInHeaders, one.info_eq, one.fields _ _ (by decide), one.fields _ _ (by decide)]
    exact one.table
  have ofB : ContextOf iB w'.ctx := by rwa [alike.ctx, one.info_eq]
  rw [Prog.final, Prog.final, one.ntA.loadChecked one.table ofA.1 ofA.2 ofA.3,
    one.ntB.loadChecked tableB ofB.1 ofB.2 ofB.3, one.fields _ _ (by decide), one.fields _ _ (by decide), alike.ctx]
  refine (parallel_loadBody fun x low _ => one.ntA.not_exempt_table (by omega)).step _ _ ?_
  exact alike_headersLoaded one ofA.2 ofA.3 alike

theorem loadImage_step (sameInfo : getImageInfo B = getImageInfo A) {w : World} (ofA : ContextOf iA w.ctx)
    (fresh : w.history = []) :
    Parted A B (Exempt hdrA (ntAddress w.ctx)) (loadImage.final A w) ∨
      ((loadImage B w).1 = (loadImage A w).1 ∧
        Alike (Exempt hdrA (ntAddress w.ctx)) (loadImage.final A w)
          (loadImage.final B w)) := by
  have checks := (parallel_checkContext sameInfo).step w w
    (⟨rfl, fun _ _ => rfl⟩ : Alike (Exempt hdrA (ntAddress w.ctx)) w w)
  have kept : Same _ w (checkContext.final A w) := wp_final.mp (same_checkContext w)
  obtain ⟨info, hist⟩ := Prod.mk.inj kept
  have together : ¬Parted A B (Exempt hdrA (ntAddress w.ctx)) (checkContext.final A w) := by
    rintro ⟨a, ha, -⟩
    rw [hist, fresh] at ha
    cases ha
  obtain ⟨outcome, alike⟩ := checks.resolve_left together
  rw [Prog.final] at info
  rw [Prog.final, Prog.final] at alike ⊢
  rw [loadImage]
  rcases run : checkContext A w with ⟨status | u, v⟩ <;> rcases run' : checkContext B w with ⟨status' | u', v'⟩ <;>
    rw [run] at outcome alike info <;> rw [run'] at outcome alike
  · cases outcome
    rw [bind_error run, bind_error run']
    exact .inr ⟨rfl, alike⟩
  · cases outcome
  · cases outcome
  · have ofV : ContextOf iA v.ctx := by
      obtain ⟨kind, offset, headers⟩ := ofA
      exact ⟨by rw [info, kind], by rw [info, offset], by rw [info, headers]⟩
    rw [bind_ok run, bind_ok run', ntAddress, ← info]
    rw [ntAddress, ← info] at alike
    exact loadChecked_step one ofV alike

end Loads

/-- `PeCoffLoaderGetImageInfo`, and `PeCoffLoaderLoadImage` into a buffer at `addr`. -/
def getAndLoad (ctx : ImageContext) (addr : Nat) : Loader Unit := do
  match ← ask getImageInfo with
  | .error (status, _) => halt status
  | .ok info =>
    modify fun w => { w with ctx := { ctx.fill info with imageAddress := addr, fixupData := 0 } }
    loadImage

/-- The load of a file into fresh memory: the status and the world it ends in. -/
def load (file : Bytes) (ctx : ImageContext) (addr : Nat) (mem : Store) : Except ReturnStatus Unit × World :=
  getAndLoad ctx addr file { mem := mem, ctx := ctx, history := [] }

theorem load_eq (file : Bytes) (ctx : ImageContext) (addr : Nat) (mem : Store) : load file ctx addr mem =
    match getImageInfo file with
    | .error e => (.error e.1, { mem := mem, ctx := ctx, history := [] })
    | .ok info => loadImage file (start mem ctx info addr) := by
  rw [load, getAndLoad, bind_ok (rfl : ask getImageInfo file _ = (.ok (getImageInfo file), _))]
  cases getImageInfo file <;> rfl

section Binding

open SecureBoot (hashPeBytes)

variable {A B hdrA hdrB : Bytes} {iA iB : ImageInfo}

theorem getImageInfo_grows {file hdr : Bytes} {info i : ImageInfo} (accepts : getPeHeader file = .ok (hdr, i))
    (nt : i.isTeImage = false) (got : getImageInfo file = .ok info) : Grows i info := by
  rw [getImageInfo, accepts] at got
  change (if i.isTeImage = true then teDebugInfo file hdr i else ntDebugInfo file hdr i) = .ok info at got
  rw [nt, if_neg Bool.false_ne_true] at got
  exact ensures_ntDebugInfo i info got

theorem Grows.contextOf {i info : ImageInfo} (grows : Grows i info) (nt : i.isTeImage = false) (ctx : ImageContext)
    (addr : Nat) : ContextOf i { ctx.fill info with imageAddress := addr, fixupData := 0 } := by
  obtain ⟨-, eq⟩ := grows
  rw [eq]
  exact ⟨nt, rfl, rfl⟩

theorem tableInHeaders_of_lt {file hdr : Bytes} {info : ImageInfo} (accepts : getPeHeader file = .ok (hdr, info))
    (nt : info.isTeImage = false) (small : file.length < 2 ^ 32) : TableInHeaders hdr info :=
  (ensures_ntFile _ accepts nt).table small

/-- Two files with one hash stream are loaded alike, if the hash has taken in the debug directory of the one and
    all that is copied from it. -/
theorem digest_binds_load (acceptsA : getPeHeader A = .ok (hdrA, iA)) (acceptsB : getPeHeader B = .ok (hdrB, iB))
    (kindA : iA.isTeImage = false) (kindB : iB.isTeImage = false) {m : Bytes}
    (hashedA : ∃ e w, (hashPeBytes ⟨A, iA.peCoffHeaderOffset⟩ e w).1 = .ok (some m))
    (hashedB : ∃ e w, (hashPeBytes ⟨B, iB.peCoffHeaderOffset⟩ e w).1 = .ok (some m))
    (table : TableInHeaders hdrA iA)
    (debug : ∀ r ∈ debugReads A hdrA iA, Hashed ⟨A, iA.peCoffHeaderOffset⟩ hdrA r.1 r.2) (ctx : ImageContext)
    (addr : Nat) (mem : Store)
    (copies : ∀ ofs len, .file ofs len ∈ (load A ctx addr mem).2.history →
      Hashed ⟨A, iA.peCoffHeaderOffset⟩ hdrA ofs len)
    (reads : ∀ from' len, .fetch from' len ∈ (load A ctx addr mem).2.history →
      ∀ x, from' ≤ x → x < from' + len → ¬Exempt hdrA (addr + iA.peCoffHeaderOffset) x) :
    (load B ctx addr mem).1 = (load A ctx addr mem).1 ∧
      ∀ x, ¬Exempt hdrA (addr + iA.peCoffHeaderOffset) x →
        (load B ctx addr mem).2.mem x = (load A ctx addr mem).2.mem x := by
  obtain ⟨_, _, fedA⟩ := hashedA
  obtain ⟨_, _, fedB⟩ := hashedB
  have one : OneStream A B hdrA hdrB m iA iB := ⟨ensures_ntFile _ acceptsA kindA, ensures_ntFile _ acceptsB kindB,
    imageMessage_of_fed fedA, imageMessage_of_fed fedB, table⟩
  have sameInfo := getImageInfo_eq one acceptsA acceptsB kindA debug
  rw [load_eq] at copies reads
  rw [load_eq, load_eq, sameInfo]
  cases got : getImageInfo A with
  | error e => exact ⟨rfl, fun _ _ => rfl⟩
  | ok info =>
    rw [got] at copies reads
    have grows := getImageInfo_grows acceptsA kindA got
    have place : addr + info.peCoffHeaderOffset = addr + iA.peCoffHeaderOffset := by rw [grows.2]
    have step := loadImage_step one sameInfo (w := start mem ctx info addr) (grows.contextOf kindA ctx addr) rfl
    rw [← place] at reads ⊢
    rcases step with ⟨a, ha, unsound⟩ | ⟨outcome, alike⟩
    · refine absurd ?_ unsound
      cases a with
      | fetch from' len => exact reads from' len ha
      | file ofs len => exact (copies ofs len ha).slice_eq one
    · exact ⟨outcome, alike.mem⟩

/-- A signed PE32 image with one section, which begins with a CodeView entry for four bytes of the file. -/
def signedFile (checkSum resourceRva debugRva debugSize virtualSize codeView : Nat) (cert : Bytes) : Bytes :=
  [0x50, 0x45, 0, 0] ++ leBytes 2 0x14C ++ leBytes 2 1 ++ List.replicate 12 0 ++ leBytes 2 152 ++ leBytes 2 1
    ++ leBytes 2 magic32 ++ List.replicate 26 0 ++ leBytes 4 4096 ++ leBytes 4 1 ++ List.replicate 20 0 ++ leBytes 4 264
    ++ leBytes 4 216 ++ leBytes 4 checkSum ++ List.replicate 24 0 ++ leBytes 4 7
    -- the resource, security and debug directories
    ++ List.replicate 16 0 ++ leBytes 4 resourceRva ++ leBytes 4 16 ++ List.replicate 8 0
    ++ leBytes 4 256 ++ leBytes 4 cert.length ++ List.replicate 8 0 ++ leBytes 4 debugRva ++ leBytes 4 debugSize
    ++ List.replicate 8 0 ++ leBytes 4 virtualSize ++ leBytes 4 216 ++ leBytes 4 40 ++ leBytes 4 216
    ++ List.replicate 28 0 ++ leBytes 4 typeCodeView ++ leBytes 4 4 ++ leBytes 4 0 ++ leBytes 4 codeView
    ++ List.replicate 12 0 ++ cert

def SameStream (A B : Bytes) : Prop :=
  ∃ e w m, (hashPeBytes ⟨A, 0⟩ e w).1 = .ok (some m) ∧ (hashPeBytes ⟨B, 0⟩ e w).1 = .ok (some m)

def debugTable (type fileOffset : Nat) : Bytes :=
  List.replicate 12 0 ++ leBytes 4 type ++ List.replicate 8 0 ++ leBytes 4 fileOffset

/-- The CodeView data lies in the certificate table. -/
def codeViewInTable (data : UInt8) : Bytes := signedFile 0 0 216 28 40 256 (List.replicate 8 data)

/-- The debug directory lies in the certificate table. -/
def debugInTable (type fileOffset : Nat) : Bytes := signedFile 0 0 256 28 48 256 (debugTable type fileOffset)

/-- The resource directory lies over the checksum. -/
def resourcesInHeader (checkSum : Nat) : Bytes := signedFile checkSum 76 216 0 40 256 (List.replicate 8 1)

def loadSample (file : Bytes) : Except ReturnStatus Unit × World := load file noContext 4096 fun _ => 0

/-- CodeView data comes from the certificate table, a debug directory in the certificate table decides whether the image
    is loaded, and so does a resource directory over the checksum. -/
theorem unhashed_loaded :
    (SameStream (codeViewInTable 1) (codeViewInTable 2) ∧ (loadSample (codeViewInTable 1)).2.mem (4096 + 256) = 1 ∧
      (loadSample (codeViewInTable 2)).2.mem (4096 + 256) = 2) ∧
    (SameStream (debugInTable 0 0) (debugInTable 20 4096) ∧ (loadSample (debugInTable 0 0)).1 = .ok () ∧
      (loadSample (debugInTable 20 4096)).1 = .error .unsupported) ∧
    (SameStream (resourcesInHeader 0) (resourcesInHeader 1) ∧ (loadSample (resourcesInHeader 0)).1 = .ok () ∧
      (loadSample (resourcesInHeader 1)).1 = .error .unsupported) := by
  refine ⟨⟨⟨SecureBoot.sampleEnv none, SecureBoot.idle,
      (SecureBoot.imageMessage ⟨codeViewInTable 1, 0⟩).getD [], ?_, ?_⟩, ?_, ?_⟩,
    ⟨⟨SecureBoot.sampleEnv none, SecureBoot.idle,
      (SecureBoot.imageMessage ⟨debugInTable 0 0, 0⟩).getD [], ?_, ?_⟩, ?_, ?_⟩,
    ⟨⟨SecureBoot.sampleEnv none, SecureBoot.idle,
      (SecureBoot.imageMessage ⟨resourcesInHeader 0, 0⟩).getD [], ?_, ?_⟩, ?_, ?_⟩⟩ <;>
    decide +kernel

def signedInfo : ImageInfo := { oneSectionInfo with imageSize := 264, sizeOfHeaders := 216 }

def codeViewFile (checkSum : Nat) : Bytes := signedFile checkSum 0 216 28 40 244 (List.replicate 8 1)

theorem getPeHeader_codeViewFile (checkSum : Nat) (h : checkSum < 2) :
    getPeHeader (codeViewFile checkSum) = .ok ((codeViewFile checkSum).take 264, signedInfo) := by
  revert checkSum
  decide +kernel

/-- The debug directory and the CodeView data lie in the section: files that differ in the checksum are loaded alike. -/
theorem digest_binds_load_codeViewFile :
    debugReads (codeViewFile 0) ((codeViewFile 0).take 264) signedInfo = [(216, 28)] ∧
    (loadSample (codeViewFile 1)).1 = (loadSample (codeViewFile 0)).1 := by
  have debug : debugReads (codeViewFile 0) ((codeViewFile 0).take 264) signedInfo = [(216, 28)] := by decide +kernel
  have history : (load (codeViewFile 0) noContext 4096 fun _ => 0).2.history =
      [.file 216 40, .fetch 4312 28, .fetch 4272 40, .file 244 4, .fetch 4352 4, .fetch 4232 4, .fetch 4236 4,
        .fetch 4108 2, .fetch 4110 2, .fetch 4108 2] := by decide +kernel
  have sections : SecureBoot.readSections ⟨codeViewFile 0, 0⟩ = some [⟨216, 40⟩] := by decide +kernel
  have hashed : ∀ ofs len, 216 ≤ ofs → ofs + len ≤ 256 →
      Hashed ⟨codeViewFile 0, 0⟩ ((codeViewFile 0).take 264) ofs len := by
    intro ofs len low high i above below
    refine .inr ⟨_, sections, .inl ⟨⟨216, 40⟩, mem_singleton_self _, ?_, ?_⟩⟩
    · dsimp only
      omega
    · dsimp only
      omega
  refine ⟨debug, (digest_binds_load (getPeHeader_codeViewFile 0 (by decide)) (getPeHeader_codeViewFile 1 (by decide))
    rfl rfl (m := (SecureBoot.imageMessage ⟨codeViewFile 0, 0⟩).getD [])
    ⟨SecureBoot.sampleEnv none, SecureBoot.idle, by decide +kernel⟩
    ⟨SecureBoot.sampleEnv none, SecureBoot.idle, by decide +kernel⟩
    (tableInHeaders_of_lt (getPeHeader_codeViewFile 0 (by decide)) rfl (by decide +kernel))
    ?_ noContext 4096 _ ?_ ?_).1⟩
  · rw [debug]
    exact forall_mem_singleton.mpr (hashed 216 28 le_rfl (by decide))
  · rw [history]
    intro ofs len copied
    simp only [mem_cons, Access.file.injEq, reduceCtorEq, not_mem_nil, false_or, or_false] at copied
    rcases copied with ⟨rfl, rfl⟩ | ⟨rfl, rfl⟩
    · exact hashed 216 40 le_rfl le_rfl
    · exact hashed 244 4 (by decide) (by decide)
  · have security : dataDirectoryOfs (field ((codeViewFile 0).take 264) 24 2) securityEntry = 152 := by decide
    have offset : signedInfo.peCoffHeaderOffset = 0 := rfl
    rw [history]
    intro from' len read x low high
    rw [Exempt, security, offset]
    simp only [mem_cons, Access.fetch.injEq, reduceCtorEq, not_mem_nil, false_or, or_false] at read
    omega

end Binding

end LeoEdk.PeCoff
