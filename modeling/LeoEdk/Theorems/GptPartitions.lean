import LeoEdk.Theorems.GptRestore

/-!
The partitions that are installed come from a valid table.

Which table `PartitionInstallGptChildHandles` goes on with is decided by the two tables that it finds and by its attempt
to restore one from the other. What the restore writes may hit the table that is used, and where it fails the table is
used all the same; `Trusted` says where the writes have to lie and how they have to end for the table to be valid.
-/

namespace LeoEdk.Gpt

open Bytes List

/-! ### The table that is used -/

def Whole (header : Header) : Prop :=
  header.arraySize = header.numberOfPartitionEntries * header.sizeOfPartitionEntry

variable (env : Env) in
inductive Trusted (disk : Store) : Prop
  /-- Both tables are valid. -/
  | bothValid (primary : Header) (valid : tableAt env disk 1 = some primary)
    (alternate : tableAt env disk primary.alternateLba ≠ none) (whole : Whole primary)
  /-- The primary table is valid, and the restore of the backup writes neither to its header nor to its entries. -/
  | backupRestored (primary : Header) (valid : tableAt env disk 1 = some primary)
    (block : Spares env primary (blockOffset env 1) env.blockSize)
    (array : Spares env primary (arrayOffset env primary) primary.arraySize) (whole : Whole primary)
  /-- Only the backup table is valid; both writes of the restore succeed, can be read back, and the header meets neither
      the entries of the backup nor the entries that are written. -/
  | primaryRestored (backup : Header) (invalid : tableAt env disk 1 = none)
    (valid : tableAt env disk env.lastBlock = some backup)
    (headerDone : env.headerWritten = .done) (arrayDone : env.arrayWritten = .done)
    (readBlock : env.readable (blockOffset env backup.alternateLba) env.blockSize = true)
    (readArray : env.readable (blockOffset env (restoredEntryLba backup)) backup.arraySize = true)
    (source : Clear (blockOffset env backup.alternateLba) env.blockSize (arrayOffset env backup) backup.arraySize)
    (target : Clear (blockOffset env backup.alternateLba) env.blockSize (blockOffset env (restoredEntryLba backup))
      backup.arraySize)
    (whole : Whole backup)

variable (env : Env) in
/-- The primary table is not valid, and the disk refuses the header that the backup would put in its place. -/
inductive Unrestored (disk : Store) : Prop
  | intro (backup : Header) (left : Store) (invalid : tableAt env disk 1 = none)
    (valid : tableAt env disk env.lastBlock = some backup) (alternate : backup.alternateLba = 1)
    (refused : env.headerWritten = .failed left)
    (unchanged : left.read (blockOffset env 1) env.blockSize = disk.read (blockOffset env 1) env.blockSize)

variable {env : Env} {disk disk' : Store} {lba : Nat} {header : Header}

theorem partitionValidGptTable_of_tableAt (valid : tableAt env disk lba = some header) (buffer : Header) :
    partitionValidGptTable env disk lba buffer = (true, header) := by
  obtain ⟨checked, crc⟩ := tableAt_eq_some.mp valid
  rw [partitionValidGptTable, checked]
  simp [crc]

theorem partitionValidGptTable_of_none (invalid : tableAt env disk lba = none) (buffer : Header) :
    partitionValidGptTable env disk lba buffer = (false, (checkedHeader env disk lba).getD buffer) := by
  rw [partitionValidGptTable]
  cases checked : checkedHeader env disk lba with
  | none => rfl
  | some header => simp [tableAt_eq_none invalid checked]

theorem chooseTable_of_primary {p : Header} (primary : tableAt env disk 1 = some p) :
    chooseTable env disk = some (p, if tableAt env disk p.alternateLba = none then restored env disk p else disk) := by
  rw [chooseTable, partitionValidGptTable_of_tableAt primary]
  dsimp only
  cases alternate : tableAt env disk p.alternateLba with
  | none =>
    rw [partitionValidGptTable_of_none alternate]
    rfl
  | some a =>
    rw [partitionValidGptTable_of_tableAt alternate]
    rfl

/-- The header that is used is the one found where the backup was restored to, and else the one found first. -/
theorem chooseTable_of_backup {b : Header} (primary : tableAt env disk 1 = none)
    (backup : tableAt env disk env.lastBlock = some b) :
    chooseTable env disk = some ((checkedHeader env (restored env disk b) b.alternateLba).getD
      ((checkedHeader env disk 1).getD zeroHeader), restored env disk b) := by
  rw [chooseTable, partitionValidGptTable_of_none primary]
  dsimp only
  rw [partitionValidGptTable_of_tableAt backup]
  dsimp only
  rw [← restored, partitionValidGptTable]
  cases checkedHeader env (restored env disk b) b.alternateLba with
  | none => rfl
  | some h => rfl

/-- The restored header describes as many entries of the same size. -/
theorem whole_restoredHeader (length : header.length = headerBytes) (big : headerBytes ≤ env.blockSize)
    (whole : Whole header) : Whole ((restoredHeader env header).take headerBytes) := by
  obtain ⟨number, size⟩ := entries_restoredHeader length big
  rw [Whole, Header.arraySize, number, size]
  exact whole

theorem valid_of_trusted (big : headerBytes ≤ env.blockSize) (trusted : Trusted env disk)
    (chosen : chooseTable env disk = some (header, disk')) :
    tableAt env disk' header.myLba = some header ∧ Whole header := by
  rcases trusted with ⟨primary, valid, alternate, whole⟩ | ⟨primary, valid, block, array, whole⟩ |
    ⟨backup, invalid, valid, headerDone, arrayDone, readBlock, readArray, source, target, whole⟩
  · rw [chooseTable_of_primary valid, if_neg alternate] at chosen
    obtain ⟨rfl, rfl⟩ := Prod.mk.inj (Option.some.inj chosen)
    rw [myLba_checkedHeader (tableAt_eq_some.mp valid).1]
    exact ⟨valid, whole⟩
  · rw [chooseTable_of_primary valid] at chosen
    obtain ⟨rfl, rfl⟩ := Prod.mk.inj (Option.some.inj chosen)
    have length := length_checkedHeader (tableAt_eq_some.mp valid).1 big
    rw [myLba_checkedHeader (tableAt_eq_some.mp valid).1]
    refine ⟨?_, whole⟩
    split
    · exact tableAt_restored_of_spares length big valid block array
    · exact valid
  · have length := length_checkedHeader (tableAt_eq_some.mp valid).1 big
    have table := tableAt_restored big valid headerDone arrayDone readBlock readArray source target
    rw [chooseTable_of_backup invalid valid, (tableAt_eq_some.mp table).1] at chosen
    obtain ⟨rfl, rfl⟩ := Prod.mk.inj (Option.some.inj chosen)
    rw [Option.getD_some, myLba_checkedHeader (tableAt_eq_some.mp table).1]
    exact ⟨table, whole_restoredHeader length big whole⟩

theorem restored_of_refused {b : Header} {left : Store} (length : b.length = headerBytes)
    (big : headerBytes ≤ env.blockSize)
    (refused : env.headerWritten = .failed left) (unchanged : left.read (blockOffset env b.alternateLba) env.blockSize =
      disk.read (blockOffset env b.alternateLba) env.blockSize) : restored env disk b = disk := by
  have same : disk.write (blockOffset env b.alternateLba) (left.read (blockOffset env b.alternateLba) env.blockSize) =
      disk := by
    rw [unchanged]
    funext i
    rw [Store.write_read_apply]
    split
    next inside => rw [Nat.add_sub_cancel' inside.1]
    next => rfl
  rw [restored, partitionRestoreGptTable]
  split
  · rw [refused]
    simp only [writeDisk]
    rw [length_restoredHeader length big]
    exact same
  · rfl

/-- Without a restore the table that failed its check is used. -/
theorem invalid_of_unrestored (big : headerBytes ≤ env.blockSize) (unrestored : Unrestored env disk)
    (chosen : chooseTable env disk = some (header, disk')) (pos : 0 < header.numberOfPartitionEntries) :
    tableAt env disk' header.myLba ≠ some header := by
  obtain ⟨backup, left, invalid, valid, alternate, refused, unchanged⟩ := unrestored
  have length := length_checkedHeader (tableAt_eq_some.mp valid).1 big
  have same : restored env disk backup = disk := restored_of_refused length big refused (by rwa [alternate])
  rw [chooseTable_of_backup invalid valid, same, alternate] at chosen
  obtain ⟨eq, rfl⟩ := Prod.mk.inj (Option.some.inj chosen)
  cases first : checkedHeader env disk 1 with
  | none =>
    -- Nothing was copied to the buffer, so it describes no entries.
    rw [first] at eq
    subst eq
    exact absurd pos (by decide)
  | some h =>
    rw [first] at eq
    obtain rfl : h = header := eq
    rw [myLba_checkedHeader first, invalid]
    nofun

/-! ### The checks of the entries -/

def Keeps (status status' : Statuses) : Prop := ∀ i,
  ((status i).outOfRange = true → (status' i).outOfRange = true) ∧
    ((status i).overlap = true → (status' i).overlap = true)

theorem Keeps.refl (status : Statuses) : Keeps status status := fun _ => ⟨id, id⟩

theorem Keeps.trans {s t u : Statuses} (first : Keeps s t) (next : Keeps t u) : Keeps s u := fun i =>
  ⟨fun h => (next i).1 ((first i).1 h), fun h => (next i).2 ((first i).2 h)⟩

theorem Keeps.update {status : Statuses} {index : Nat} {mark : EntryStatus}
    (range : (status index).outOfRange = true → mark.outOfRange = true)
    (overlap : (status index).overlap = true → mark.overlap = true) :
    Keeps status (Function.update status index mark) := by
  intro i
  by_cases same : i = index
  · subst same
    rw [Function.update_self]
    exact ⟨range, overlap⟩
  · rw [Function.update_of_ne same]
    exact ⟨id, id⟩

theorem keeps_foldl {f : Statuses → Nat → Statuses} (step : ∀ s i, Keeps s (f s i)) (l : List Nat) (s : Statuses) :
    Keeps s (l.foldl f s) ∧ ∀ i ∈ l, ∃ s', Keeps (f s' i) (l.foldl f s) := by
  induction l generalizing s with
  | nil => exact ⟨.refl s, by simp⟩
  | cons first rest ih =>
    obtain ⟨kept, after⟩ := ih (f s first)
    exact ⟨(step s first).trans kept, forall_mem_cons.mpr ⟨⟨s, kept⟩, after⟩⟩

variable {array : Store} {i j : Nat}

theorem keeps_checkPair (header : Header) (array : Store) (index1 : Nat) (status : Statuses) (index2 : Nat) :
    Keeps status (checkPair header array index1 status index2) := by
  unfold checkPair
  dsimp only
  split
  · exact .refl status
  · split
    · have first : Keeps status (Function.update status index1 { status index1 with overlap := true }) :=
        .update (fun h => h) fun _ => rfl
      exact first.trans (.update (fun h => h) fun _ => rfl)
    · exact .refl status

theorem keeps_checkOne (header : Header) (array : Store) (status : Statuses) (index1 : Nat) :
    Keeps status (checkOne header array status index1) := by
  unfold checkOne
  dsimp only
  split
  · exact .refl status
  · split
    · exact .update (fun _ => rfl) id
    · refine Keeps.trans ?_ (keeps_foldl (keeps_checkPair header array index1) _ _).1
      split
      · exact .update id id
      · exact .refl status

theorem overlap_inner (status : Statuses) (lt : i < j) (bound : j < header.numberOfPartitionEntries)
    (used : ¬ (entryAt header array j).Unused) (overlaps : Overlaps (entryAt header array i) (entryAt header array j)) :
    ((List.range' (i + 1) (header.numberOfPartitionEntries - (i + 1))).foldl (checkPair header array i)
      status i).overlap = true := by
  obtain ⟨before, kept⟩ := (keeps_foldl (keeps_checkPair header array i)
    (List.range' (i + 1) (header.numberOfPartitionEntries - (i + 1))) status).2 j (by
      rw [mem_range'_1]
      omega)
  refine (kept i).2 ?_
  rw [checkPair]
  dsimp only
  rw [if_neg used, if_pos overlaps, Function.update_of_ne lt.ne, Function.update_self]

theorem outOfRange_partitionCheckGptEntry (bound : i < header.numberOfPartitionEntries)
    (used : ¬ (entryAt header array i).Unused) (out : OutOfRange header (entryAt header array i)) :
    (partitionCheckGptEntry header array i).outOfRange = true := by
  obtain ⟨before, kept⟩ := (keeps_foldl (keeps_checkOne header array) (List.range header.numberOfPartitionEntries)
    fun _ => noStatus).2 i (mem_range.mpr bound)
  refine (kept i).1 ?_
  rw [checkOne]
  dsimp only
  rw [if_neg used, if_pos out, Function.update_self]

theorem overlap_partitionCheckGptEntry (lt : i < j) (bound : j < header.numberOfPartitionEntries)
    (usedI : ¬ (entryAt header array i).Unused) (usedJ : ¬ (entryAt header array j).Unused)
    (inside : ¬ OutOfRange header (entryAt header array i))
    (overlaps : Overlaps (entryAt header array i) (entryAt header array j)) :
    (partitionCheckGptEntry header array i).overlap = true := by
  obtain ⟨before, kept⟩ := (keeps_foldl (keeps_checkOne header array) (List.range header.numberOfPartitionEntries)
    fun _ => noStatus).2 i (mem_range.mpr (lt.trans bound))
  refine (kept i).2 ?_
  rw [checkOne]
  dsimp only
  rw [if_neg usedI, if_neg inside]
  exact overlap_inner _ lt bound usedJ overlaps

structure Accepted (header : Header) (array : Store) (child : Child) : Prop where
  header_eq : child.header = header
  bound : child.index < header.numberOfPartitionEntries
  entry_eq : child.entry = entryAt header array child.index
  used : ¬ child.entry.Unused
  inside : ¬ OutOfRange header child.entry
  alone : (partitionCheckGptEntry header array child.index).overlap = false

theorem accepted_of_mem {child : Child}
    (mem : child ∈ createChildren header array (partitionCheckGptEntry header array)) :
    Accepted header array child := by
  obtain ⟨index, range, eq⟩ := mem_filterMap.mp mem
  have bound := mem_range.mp range
  dsimp only at eq
  split at eq
  · cases eq
  next clear =>
    obtain rfl := Option.some.inj eq
    push Not at clear
    obtain ⟨used, inRange, alone, _⟩ := clear
    exact ⟨rfl, bound, rfl, used, fun out => inRange (outOfRange_partitionCheckGptEntry bound used out),
      Bool.not_eq_true _ ▸ alone⟩

def Child.Apart (first second : Child) : Prop :=
  first.endingLba < second.startingLba ∨ second.endingLba < first.startingLba

theorem apart_of_accepted {first second : Child} (a : Accepted header array first) (b : Accepted header array second)
    (lt : first.index < second.index) : first.Apart second := by
  by_contra touching
  have overlaps : Overlaps first.entry second.entry := by
    unfold Child.Apart Child.endingLba Child.startingLba at touching
    unfold Overlaps
    omega
  have marked := overlap_partitionCheckGptEntry lt b.bound (a.entry_eq ▸ a.used) (b.entry_eq ▸ b.used)
    (a.entry_eq ▸ a.inside) (a.entry_eq ▸ b.entry_eq ▸ overlaps)
  rw [a.alone] at marked
  cases marked

theorem pairwise_apart (header : Header) (array : Store) :
    (createChildren header array (partitionCheckGptEntry header array)).Pairwise Child.Apart := by
  have sorted : (createChildren header array (partitionCheckGptEntry header array)).Pairwise
      fun first second => first.index < second.index := by
    refine List.Pairwise.filterMap _ ?_ pairwise_lt_range
    intro i j lt a memA b memB
    dsimp only at memA memB
    split at memA
    · cases memA
    · split at memB
      · cases memB
      · obtain rfl := Option.some.inj memA
        obtain rfl := Option.some.inj memB
        exact lt
  exact sorted.imp_of_mem fun memA memB lt => apart_of_accepted (accepted_of_mem memA) (accepted_of_mem memB) lt

def Child.InUsable (child : Child) : Prop :=
  child.header.firstUsableLba ≤ child.startingLba ∧ child.startingLba ≤ child.endingLba ∧
    child.endingLba ≤ child.header.lastUsableLba

variable (env) in
/-- The child is described by an entry of a table that is valid on the disk, whose array was read and checked as a
    whole. -/
structure FromValidTable (disk : Store) (child : Child) : Prop where
  valid : partitionValidGptTable env disk child.header.myLba zeroHeader = (true, child.header)
  bound : child.index < child.header.numberOfPartitionEntries
  whole : Whole child.header
  entry_eq : child.entry =
    disk.read (arrayOffset env child.header + child.index * child.header.sizeOfPartitionEntry) entryBytes

theorem partitionValidGptTable_iff {buffer : Header} :
    partitionValidGptTable env disk lba buffer = (true, header) ↔ tableAt env disk lba = some header := by
  constructor
  · intro valid
    cases found : tableAt env disk lba with
    | none =>
      rw [partitionValidGptTable_of_none found] at valid
      cases valid
    | some other =>
      rw [partitionValidGptTable_of_tableAt found] at valid
      rw [(Prod.mk.inj valid).2]
  · exact fun found => partitionValidGptTable_of_tableAt found buffer

theorem entryAt_memoryOf {offset size : Nat} (inside : i * header.sizeOfPartitionEntry + entryBytes ≤ size) :
    entryAt header (memoryOf env (disk.read offset size)) i =
      disk.read (offset + i * header.sizeOfPartitionEntry) entryBytes := by
  have prefixed : (memoryOf env (disk.read offset size)).read (i * header.sizeOfPartitionEntry) entryBytes =
      (Store.ofBytes (disk.read offset size)).read (i * header.sizeOfPartitionEntry) entryBytes := by
    refine Store.read_congr fun k _ upper => ?_
    rw [memoryOf, if_pos (by rw [Store.length_read]; omega), Store.ofBytes]
  rw [entryAt, prefixed, Store.read_ofBytes (by rw [Store.length_read]; exact inside),
    Store.slice_read _ _ _ _ _ inside]

theorem fromValidTable_iff {child : Child}
    (accepted : Accepted header (memoryOf env (disk.read (arrayOffset env header) header.arraySize)) child) :
    FromValidTable env disk child ↔ tableAt env disk header.myLba = some header ∧ Whole header := by
  constructor
  · rintro ⟨valid, _, whole, _⟩
    rw [accepted.header_eq] at valid whole
    exact ⟨partitionValidGptTable_iff.mp valid, whole⟩
  · rintro ⟨valid, whole⟩
    have size := size_checkedHeader (tableAt_eq_some.mp valid).1
    have inside : child.index * header.sizeOfPartitionEntry + entryBytes ≤ header.arraySize := by
      rw [whole]
      calc child.index * header.sizeOfPartitionEntry + entryBytes
          ≤ (child.index + 1) * header.sizeOfPartitionEntry := by rw [Nat.succ_mul]; omega
        _ ≤ _ := Nat.mul_le_mul_right _ accepted.bound
    refine ⟨?_, ?_, ?_, ?_⟩ <;> rw [accepted.header_eq]
    · exact partitionValidGptTable_iff.mpr valid
    · exact accepted.bound
    · exact whole
    · rw [accepted.entry_eq, entryAt_memoryOf inside]

variable (env) in
def childrenOf (disk : Store) (header : Header) : List Child :=
  let array := memoryOf env (disk.read (arrayOffset env header) header.arraySize)
  createChildren header array (partitionCheckGptEntry header array)

theorem installFrom_cases (env : Env) (disk : Store) (header : Header) : (installFrom env disk header).disk = disk ∧
      ((installFrom env disk header).children = [] ∨
        (installFrom env disk header).children = childrenOf env disk header) := by
  unfold installFrom readDisk
  by_cases readable : env.readable (arrayOffset env header) header.arraySize = true
  · rw [if_pos readable]
    dsimp only
    split_ifs
    · exact ⟨rfl, .inr rfl⟩
    · exact ⟨rfl, .inl rfl⟩
    · exact ⟨rfl, .inl rfl⟩
  · rw [if_neg readable]
    split
    · exact ⟨rfl, .inl rfl⟩
    · exact ⟨rfl, .inl rfl⟩

theorem partitionInstallGptChildHandles_cases (env : Env) (disk : Store) :
    (partitionInstallGptChildHandles env disk).children = [] ∨
    512 ≤ env.blockSize ∧ ∃ header,
      chooseTable env disk = some (header, (partitionInstallGptChildHandles env disk).disk) ∧
      (partitionInstallGptChildHandles env disk).children =
        childrenOf env (partitionInstallGptChildHandles env disk).disk header := by
  unfold partitionInstallGptChildHandles
  split
  · exact .inl rfl
  next large =>
    split
    · split
      · exact .inl rfl
      · split
        · split
          · cases chosen : chooseTable env disk with
            | none => exact .inl rfl
            | some pair =>
              obtain ⟨header, disk'⟩ := pair
              dsimp only
              obtain ⟨same, children | children⟩ := installFrom_cases env disk' header
              · exact .inl children
              · exact .inr ⟨Nat.not_lt.mp large, header, by rw [same], by rw [same, children]⟩
          · exact .inl rfl
        · exact .inl rfl
    · exact .inl rfl

def someEntry (first last : Nat) : Entry :=
  partTypeSystemPartGuid ++ List.replicate 16 1 ++ leBytes 8 first ++ leBytes 8 last ++ List.replicate 80 0

def someHeader (my alternate entries crc : Nat) : Header :=
  ptabHeaderId ++ leBytes 4 0x10000 ++ leBytes 4 92 ++ leBytes 4 crc ++ leBytes 4 0 ++ leBytes 8 my ++
    leBytes 8 alternate ++ leBytes 8 3 ++ leBytes 8 4 ++ List.replicate 16 0 ++ leBytes 8 entries ++ leBytes 4 1 ++
    leBytes 4 128 ++ leBytes 4 0x5faec25d

/-- The entry of the primary table at block 2 does not have the checksum of its header; the backup table at blocks 5 and
    6 is in order. -/
def tornDisk : Store :=
  let disk : Store := fun _ => 0
  let disk := disk.write 446 [0, 0, 2, 0, 0xee, 0xff, 0xff, 0xff, 1, 0, 0, 0, 6, 0, 0, 0]
  let disk := disk.write 512 (someHeader 1 6 2 0xf0bcf14e)
  let disk := disk.write 1024 (someEntry 3 4)
  let disk := disk.write 2560 (someEntry 3 3)
  disk.write 3072 (someHeader 6 1 5 0xe8903a1c)

def readOnly : Env where
  blockSize := 512
  lastBlock := 6
  readable := fun offset size => offset + size ≤ 3584
  allocatePool := fun _ => true
  headerWritten := .failed tornDisk
  arrayWritten := .failed tornDisk
  behind := fun _ => 0

/-- The disk can be written, and the restored table describes the partition that is installed. -/
def writable : Env := { readOnly with headerWritten := .done, arrayWritten := .done }

theorem trusted_writable : Trusted writable tornDisk := by
  refine .primaryRestored (someHeader 6 1 5 0xe8903a1c) ?_ ?_ rfl rfl ?_ ?_ ?_ ?_ ?_
  · decide +kernel
  · decide +kernel
  · decide +kernel
  · decide +kernel
  · exact .inl (by decide +kernel)
  · exact .inl (by decide +kernel)
  · show _ = _
    decide +kernel

end LeoEdk.Gpt
