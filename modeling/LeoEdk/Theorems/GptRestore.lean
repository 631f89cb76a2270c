import LeoEdk.Disk.Gpt

/-!
What the restore of a partition table leaves on the disk.

`PartitionRestoreGptTable` writes twice: a header at `AlternateLBA`, and, if that succeeds, the entries behind
`LastUsableLBA` or at block 2. A table that lies apart from both ranges is as valid as before, whatever a failed write
leaves; and if both writes succeed, the restored table passes the checks of `PartitionValidGptTable` itself.
-/

namespace LeoEdk.Gpt

open Bytes List

variable (env : Env)

def blockOffset (lba : Nat) : Nat := multU64x32 lba env.blockSize

/-- The header of the table at a block, if the table passes `PartitionValidGptTable`. -/
def tableAt (disk : Store) (lba : Nat) : Option Header :=
  (checkedHeader env disk lba).filter (partitionCheckGptEntryArrayCrc env disk)

def restored (disk : Store) (header : Header) : Store := (partitionRestoreGptTable env disk header).2

/-- The `n` bytes from `o` on and the `m` bytes from `x` on have none in common. -/
def Clear (o n x m : Nat) : Prop := o + n ≤ x ∨ x + m ≤ o

/-- Where the restore of a table writes: the header, and the entries only if the header could be written. The `m` bytes
    from `x` on lie elsewhere. -/
structure Spares (table : Header) (x m : Nat) : Prop where
  header : Clear (blockOffset env table.alternateLba) env.blockSize x m
  array : env.headerWritten = .done → Clear (blockOffset env (restoredEntryLba table)) table.arraySize x m

/-- What `PartitionValidGptTable` asks of the block of a header. -/
structure SoundBlock (lba : Nat) (block : Bytes) : Prop where
  signature : Header.signature block = ptabHeaderId
  crc : partitionCheckCrc env.blockSize block = true
  myLba : Header.myLba block = lba
  size : entryBytes ≤ Header.sizeOfPartitionEntry block
  number : Header.numberOfPartitionEntries block ≤ (2 ^ 64 - 1) / Header.sizeOfPartitionEntry block

variable {env} {disk disk' : Store} {lba : Nat} {header : Header}

/-! ### Valid tables -/

theorem tableAt_eq_some : tableAt env disk lba = some header ↔
    checkedHeader env disk lba = some header ∧ partitionCheckGptEntryArrayCrc env disk header = true :=
  Option.filter_eq_some_iff

theorem tableAt_eq_none (h : tableAt env disk lba = none) (checked : checkedHeader env disk lba = some header) :
    partitionCheckGptEntryArrayCrc env disk header = false := by
  rw [← Bool.not_eq_true]
  intro valid
  rw [tableAt_eq_some.mpr ⟨checked, valid⟩] at h
  cases h

theorem checkedHeader_iff : checkedHeader env disk lba = some header ↔
    env.allocatePool env.blockSize = true ∧ env.readable (blockOffset env lba) env.blockSize = true ∧
      SoundBlock env lba (disk.read (blockOffset env lba) env.blockSize) ∧
      (disk.read (blockOffset env lba) env.blockSize).take headerBytes = header := by
  rw [checkedHeader, readDisk, blockOffset]
  generalize disk.read (multU64x32 lba env.blockSize) env.blockSize = block
  by_cases pool : env.allocatePool env.blockSize = true
  · by_cases readable : env.readable (multU64x32 lba env.blockSize) env.blockSize = true
    · rw [if_pos pool, if_pos readable]
      dsimp only
      split_ifs with refused many
      · refine iff_of_false nofun fun ⟨_, _, sound, _⟩ => ?_
        rcases refused with signature | crc | myLba | size
        · exact signature sound.signature
        · exact absurd sound.crc (by simp [crc])
        · exact myLba sound.myLba
        · exact absurd sound.size (Nat.not_le.mpr size)
      · exact iff_of_false nofun fun ⟨_, _, sound, _⟩ => absurd sound.number (Nat.not_le.mpr many)
      · push Not at refused
        obtain ⟨signature, crc, myLba, size⟩ := refused
        have sound : SoundBlock env lba block := ⟨signature, by simpa using crc, myLba, size, Nat.not_lt.mp many⟩
        simp [pool, readable, sound]
    · simp [pool, readable]
  · simp [pool]

theorem checkedHeader_congr (same : disk'.read (blockOffset env lba) env.blockSize =
    disk.read (blockOffset env lba) env.blockSize) : checkedHeader env disk' lba = checkedHeader env disk lba := by
  rw [blockOffset] at same
  rw [checkedHeader, checkedHeader, readDisk, readDisk, same]

theorem arrayCrc_congr (same : disk'.read (arrayOffset env header) header.arraySize =
      disk.read (arrayOffset env header) header.arraySize) :
    partitionCheckGptEntryArrayCrc env disk' header = partitionCheckGptEntryArrayCrc env disk header := by
  rw [partitionCheckGptEntryArrayCrc, partitionCheckGptEntryArrayCrc, readDisk, readDisk, same]

theorem arrayCrc_iff : partitionCheckGptEntryArrayCrc env disk header = true ↔
    env.allocatePool header.arraySize = true ∧ env.readable (arrayOffset env header) header.arraySize = true ∧
      runtimeDriverCalculateCrc32 (disk.read (arrayOffset env header) header.arraySize) =
        some header.partitionEntryArrayCrc32 := by
  rw [partitionCheckGptEntryArrayCrc, readDisk]
  by_cases pool : env.allocatePool header.arraySize = true
  · by_cases readable : env.readable (arrayOffset env header) header.arraySize = true
    · rw [if_pos pool, if_pos readable]
      dsimp only
      cases crc : runtimeDriverCalculateCrc32 (disk.read (arrayOffset env header) header.arraySize) with
      | none => simp
      | some value => simp [pool, readable, eq_comm]
    · simp [pool, readable]
  · simp [pool]

theorem length_checkedHeader (checked : checkedHeader env disk lba = some header) (big : headerBytes ≤ env.blockSize) :
    header.length = headerBytes := by
  obtain ⟨_, _, _, rfl⟩ := checkedHeader_iff.mp checked
  rw [length_take, Store.length_read, Nat.min_eq_left big]

theorem field_take (block : Bytes) (ofs width : Nat) (inside : ofs + width ≤ headerBytes) :
    Header.field ofs width (block.take headerBytes) = Header.field ofs width block :=
  congrArg leNat (slice_take block inside)

theorem myLba_checkedHeader (checked : checkedHeader env disk lba = some header) : header.myLba = lba := by
  obtain ⟨_, _, sound, rfl⟩ := checkedHeader_iff.mp checked
  exact (field_take _ 24 8 (by decide)).trans sound.myLba

theorem size_checkedHeader (checked : checkedHeader env disk lba = some header) :
    entryBytes ≤ header.sizeOfPartitionEntry := by
  obtain ⟨_, _, sound, rfl⟩ := checkedHeader_iff.mp checked
  exact sound.size.trans_eq (field_take _ 84 4 (by decide)).symm

/-! ### The header that is written -/

theorem slice_overwrite_before {o ofs len : Nat} (new : Bytes) {bs : Bytes} (fits : o ≤ bs.length)
    (before : ofs + len ≤ o) :
    slice ofs len (overwrite o new bs) = slice ofs len bs := by
  rw [overwrite, append_assoc, slice_append_left _ (by rw [length_take]; omega), slice_take bs before]

theorem slice_overwrite_apart {o ofs len : Nat} {new bs : Bytes} (fits : o + new.length ≤ bs.length)
    (apart : ofs + len ≤ o ∨ o + new.length ≤ ofs) : slice ofs len (overwrite o new bs) = slice ofs len bs := by
  rcases apart with before | behind
  · exact slice_overwrite_before new (by omega) before
  · exact slice_overwrite_of_le len fits behind

theorem slice_overwrite_leBytes {o : Nat} (n v : Nat) {bs : Bytes} (fits : o ≤ bs.length) :
    slice o n (overwrite o (leBytes n v) bs) = leBytes n v := by
  have own := @slice_overwrite_self o (leBytes n v) bs fits
  rwa [length_leBytes] at own

theorem overwrite_overwrite {o : Nat} {new old bs : Bytes} (length : old.length = new.length)
    (fits : o + new.length ≤ bs.length) : overwrite o new (overwrite o old bs) = overwrite o new bs := by
  have front : (bs.take o).length = o := by
    rw [length_take]
    omega
  have whole : (bs.take o ++ old).length = o + new.length := by
    rw [length_append, front, length]
  rw [overwrite, overwrite, overwrite, drop_left' whole, append_assoc (bs.take o) old, take_left' front, length]

theorem headerSize_of_partitionCheckCrc {maxSize : Nat} {hdr : Bytes} (passed : partitionCheckCrc maxSize hdr = true)
    (pos : 0 < maxSize) : Header.headerSize hdr ≠ 0 ∧ Header.headerSize hdr ≤ maxSize := by
  rw [partitionCheckCrc, partitionCheckCrcAltSize] at passed
  split at passed
  · cases passed
  next zero =>
    split at passed
    · cases passed
    next larger => exact ⟨zero, by omega⟩

section SetCrc

variable {hdr : Bytes} (long : 20 ≤ hdr.length)
include long

theorem length_partitionSetCrc : (partitionSetCrc hdr).length = hdr.length := by
  have cleared : (overwrite 16 [0, 0, 0, 0] hdr).length = hdr.length := length_overwrite long
  rw [partitionSetCrc]
  split
  · exact cleared
  · rw [length_overwrite (by rw [cleared, length_leBytes]; exact long), cleared]

theorem slice_partitionSetCrc {ofs len : Nat} (apart : ofs + len ≤ 16 ∨ 20 ≤ ofs) :
    slice ofs len (partitionSetCrc hdr) = slice ofs len hdr := by
  have cleared : (overwrite 16 [0, 0, 0, 0] hdr).length = hdr.length := length_overwrite long
  have kept : slice ofs len (overwrite 16 [0, 0, 0, 0] hdr) = slice ofs len hdr := slice_overwrite_apart long apart
  rw [partitionSetCrc]
  split
  · exact kept
  · rw [slice_overwrite_apart (by rw [cleared, length_leBytes]; exact long) (by rw [length_leBytes]; exact apart), kept]

/-- A header that got its checksum passes the check. -/
theorem partitionCheckCrc_partitionSetCrc {maxSize : Nat} (some_ : Header.headerSize hdr ≠ 0)
    (le : Header.headerSize hdr ≤ maxSize) : partitionCheckCrc maxSize (partitionSetCrc hdr) = true := by
  have size : Header.headerSize (partitionSetCrc hdr) = Header.headerSize hdr :=
    congrArg leNat (slice_partitionSetCrc long (.inl (by decide)))
  have cleared : (overwrite 16 [0, 0, 0, 0] hdr).length = hdr.length := length_overwrite long
  have crc : runtimeDriverCalculateCrc32 ((overwrite 16 [0, 0, 0, 0] hdr).take (Header.headerSize hdr)) =
      some (calculateCrc32 ((overwrite 16 [0, 0, 0, 0] hdr).take (Header.headerSize hdr))).toNat := by
    rw [runtimeDriverCalculateCrc32, if_neg]
    rw [length_take, cleared]
    omega
  have value : partitionSetCrc hdr = overwrite 16
      (leBytes 4 (calculateCrc32 ((overwrite 16 [0, 0, 0, 0] hdr).take (Header.headerSize hdr))).toNat)
      (overwrite 16 [0, 0, 0, 0] hdr) := by
    rw [partitionSetCrc, crc]
  have again : overwrite 16 [0, 0, 0, 0] (partitionSetCrc hdr) = overwrite 16 [0, 0, 0, 0] hdr := by
    rw [value, overwrite_overwrite (by rw [length_leBytes]; rfl) (by rw [cleared]; exact long),
      overwrite_overwrite rfl long]
  have stored : Header.crc32 (partitionSetCrc hdr) =
      (calculateCrc32 ((overwrite 16 [0, 0, 0, 0] hdr).take (Header.headerSize hdr))).toNat := by
    rw [Header.crc32, Header.field, value, slice_overwrite_leBytes _ _ (by rw [cleared]; omega)]
    exact leNat_leBytes_of_lt (UInt32.toNat_lt _)
  rw [partitionCheckCrc, partitionCheckCrcAltSize, size, if_neg some_, if_neg (by omega), again, crc]
  simp [stored]

end SetCrc

attribute [local irreducible] partitionSetCrc partitionCheckCrc

section RestoredHeader

variable (length : header.length = headerBytes) (big : headerBytes ≤ env.blockSize)
include length big

/-- The block before it gets its checksum: its length, the fields that are set, and the others. -/
theorem restoredHeader_eq : ∃ block : Bytes, restoredHeader env header = partitionSetCrc block ∧
    block.length = env.blockSize ∧ slice 24 8 block = leBytes 8 header.alternateLba ∧
    slice 72 8 block = leBytes 8 (restoredEntryLba header) ∧
    ∀ ofs len, ofs + len ≤ headerBytes → (ofs + len ≤ 24 ∨ 40 ≤ ofs) → (ofs + len ≤ 72 ∨ 80 ≤ ofs) →
      slice ofs len block = slice ofs len header := by
  rw [headerBytes] at length big
  have start : (header ++ replicate (env.blockSize - headerBytes) 0).length = env.blockSize := by
    rw [length_append, length_replicate, length, headerBytes]
    omega
  have first : (overwrite 24 (leBytes 8 header.alternateLba)
      (header ++ replicate (env.blockSize - headerBytes) 0)).length = env.blockSize := by
    rw [length_overwrite (by rw [start, length_leBytes]; omega), start]
  have second : (overwrite 32 (leBytes 8 header.myLba) (overwrite 24 (leBytes 8 header.alternateLba)
      (header ++ replicate (env.blockSize - headerBytes) 0))).length = env.blockSize := by
    rw [length_overwrite (by rw [first, length_leBytes]; omega), first]
  refine ⟨_, rfl, ?_, ?_, ?_, fun ofs len inside lbas entries => ?_⟩
  · rw [length_overwrite (by rw [second, length_leBytes]; omega), second]
  · rw [slice_overwrite_before _ (by omega) (by omega), slice_overwrite_before _ (by omega) (by omega),
      slice_overwrite_leBytes _ _ (by omega)]
  · exact slice_overwrite_leBytes _ _ (by omega)
  · rw [headerBytes] at inside
    rw [slice_overwrite_apart (by rw [second, length_leBytes]; omega) (by rw [length_leBytes]; omega),
      slice_overwrite_apart (by rw [first, length_leBytes]; omega) (by rw [length_leBytes]; omega),
      slice_overwrite_apart (by rw [start, length_leBytes]; omega) (by rw [length_leBytes]; omega),
      slice_append_left _ (by omega)]

theorem length_restoredHeader : (restoredHeader env header).length = env.blockSize := by
  obtain ⟨block, eq, whole, -⟩ := restoredHeader_eq length big
  rw [headerBytes] at big
  rw [eq, length_partitionSetCrc (by omega), whole]

theorem slice_restoredHeader (ofs len : Nat)
    (other : ofs + len ≤ 16 ∨ (40 ≤ ofs ∧ ofs + len ≤ 72) ∨ (80 ≤ ofs ∧ ofs + len ≤ headerBytes)) :
    slice ofs len (restoredHeader env header) = slice ofs len header := by
  obtain ⟨block, eq, whole, -, -, kept⟩ := restoredHeader_eq length big
  rw [headerBytes] at big other
  rw [eq, slice_partitionSetCrc (by omega) (by omega), kept ofs len (by rw [headerBytes]; omega) (by omega) (by omega)]

theorem field_restoredHeader (ofs width : Nat)
    (other : ofs + width ≤ 16 ∨ (40 ≤ ofs ∧ ofs + width ≤ 72) ∨ (80 ≤ ofs ∧ ofs + width ≤ headerBytes)) :
    Header.field ofs width (restoredHeader env header) = Header.field ofs width header :=
  congrArg leNat (slice_restoredHeader length big ofs width other)

theorem partitionEntryLba_restoredHeader :
    Header.partitionEntryLba (restoredHeader env header) = restoredEntryLba header := by
  obtain ⟨block, eq, whole, -, entries, -⟩ := restoredHeader_eq length big
  rw [headerBytes] at big
  have small : restoredEntryLba header < 256 ^ 8 := by
    rw [restoredEntryLba]
    split
    · exact (Nat.mod_lt _ (by norm_num)).trans_eq (by norm_num)
    · norm_num
  rw [Header.partitionEntryLba, Header.field, eq, slice_partitionSetCrc (by omega) (.inr (by omega)), entries,
    leNat_leBytes_of_lt small]

/-- The restored header passes the checks where it is written. -/
theorem soundBlock_restoredHeader {block : Bytes} (sound : SoundBlock env lba block)
    (eq : block.take headerBytes = header) :
    SoundBlock env header.alternateLba (restoredHeader env header) := by
  have same (ofs width : Nat) (inside : ofs + width ≤ headerBytes) : Header.field ofs width header =
      Header.field ofs width block := by
    rw [← eq, field_take block ofs width inside]
  have signature : slice 0 8 (restoredHeader env header) = slice 0 8 block := by
    rw [slice_restoredHeader length big 0 8 (by decide), ← eq, slice_take _ (by decide)]
  have size : Header.sizeOfPartitionEntry (restoredHeader env header) = Header.sizeOfPartitionEntry block :=
    (field_restoredHeader length big 84 4 (by decide)).trans (same 84 4 (by decide))
  have number : Header.numberOfPartitionEntries (restoredHeader env header) = Header.numberOfPartitionEntries block :=
    (field_restoredHeader length big 80 4 (by decide)).trans (same 80 4 (by decide))
  obtain ⟨written, eqW, whole, alternate, -, kept⟩ := restoredHeader_eq length big
  have long : 20 ≤ written.length := by
    rw [whole]
    exact Nat.le_trans (by decide) big
  refine ⟨signature.trans sound.signature, ?_, ?_, sound.size.trans_eq size.symm, ?_⟩
  · have headerSize : Header.headerSize written = Header.headerSize block :=
      (congrArg leNat (kept 12 4 (by decide) (.inl (by decide)) (.inl (by decide)))).trans (same 12 4 (by decide))
    obtain ⟨some_, le⟩ := headerSize_of_partitionCheckCrc sound.crc (Nat.lt_of_lt_of_le (by decide) big)
    rw [eqW]
    exact partitionCheckCrc_partitionSetCrc long (headerSize ▸ some_) (headerSize ▸ le)
  · have small : header.alternateLba < 256 ^ 8 := by
      rw [Header.alternateLba, Header.field]
      exact (leNat_lt _).trans_eq (by rw [length_slice (by rw [length]; decide)])
    rw [Header.myLba, Header.field, eqW, slice_partitionSetCrc long (.inr (by decide)), alternate,
      leNat_leBytes_of_lt small]
  · rw [number, size]
    exact sound.number

theorem entries_restoredHeader :
    Header.numberOfPartitionEntries ((restoredHeader env header).take headerBytes) = header.numberOfPartitionEntries ∧
      Header.sizeOfPartitionEntry ((restoredHeader env header).take headerBytes) = header.sizeOfPartitionEntry :=
  ⟨(field_take _ 80 4 (by decide)).trans (field_restoredHeader length big 80 4 (by decide)),
    (field_take _ 84 4 (by decide)).trans (field_restoredHeader length big 84 4 (by decide))⟩

end RestoredHeader

/-! ### The disk after the restore -/

theorem read_writeDisk_of_clear (written : Written) {offset x m : Nat} {buffer : Bytes}
    (clear : Clear offset buffer.length x m) : (writeDisk disk written offset buffer).2.read x m = disk.read x m := by
  have apart : x + m ≤ offset ∨ offset + buffer.length ≤ x := clear.symm
  cases written with
  | done => exact Store.read_write_of_disjoint apart
  | failed left => exact Store.read_write_of_disjoint (by rwa [Store.length_read])

theorem read_restored {x m : Nat} (length : header.length = headerBytes) (big : headerBytes ≤ env.blockSize)
    (spares : Spares env header x m) : (restored env disk header).read x m = disk.read x m := by
  have first : Clear (multU64x32 header.alternateLba env.blockSize) (restoredHeader env header).length x m := by
    rw [length_restoredHeader length big]
    exact spares.header
  rw [restored, partitionRestoreGptTable]
  split
  · cases outcome : env.headerWritten with
    | failed left => exact read_writeDisk_of_clear (.failed left) first
    | done =>
      have kept : (disk.write (multU64x32 header.alternateLba env.blockSize) (restoredHeader env header)).read x m =
          disk.read x m := read_writeDisk_of_clear .done first
      simp only [writeDisk, readDisk]
      split
      · split
        next => exact kept
        next array read =>
          split at read
          · obtain rfl := Option.some.inj read
            refine Eq.trans (read_writeDisk_of_clear _ ?_) kept
            rw [Store.length_read]
            exact spares.array outcome
          · cases read
      · exact kept
  · rfl

/-- A table that lies apart from what the restore writes stays valid. -/
theorem tableAt_restored_of_spares {table : Header} (length : table.length = headerBytes)
    (big : headerBytes ≤ env.blockSize)
    (valid : tableAt env disk lba = some header) (block : Spares env table (blockOffset env lba) env.blockSize)
    (array : Spares env table (arrayOffset env header) header.arraySize) :
    tableAt env (restored env disk table) lba = some header := by
  obtain ⟨checked, crc⟩ := tableAt_eq_some.mp valid
  refine tableAt_eq_some.mpr ⟨?_, ?_⟩
  · rw [checkedHeader_congr (read_restored length big block), checked]
  · rw [arrayCrc_congr (read_restored length big array), crc]

/-- If both writes succeed and do not run into each other, the restored table is valid. -/
theorem tableAt_restored (big : headerBytes ≤ env.blockSize) (valid : tableAt env disk lba = some header)
    (headerDone : env.headerWritten = .done) (arrayDone : env.arrayWritten = .done)
    (block : env.readable (blockOffset env header.alternateLba) env.blockSize = true)
    (array : env.readable (blockOffset env (restoredEntryLba header)) header.arraySize = true)
    (source : Clear (blockOffset env header.alternateLba) env.blockSize (arrayOffset env header) header.arraySize)
    (target : Clear (blockOffset env header.alternateLba) env.blockSize (blockOffset env (restoredEntryLba header))
      header.arraySize) :
    tableAt env (restored env disk header) header.alternateLba =
      some ((restoredHeader env header).take headerBytes) := by
  obtain ⟨checked, crc⟩ := tableAt_eq_some.mp valid
  obtain ⟨pool, _, sound, eq⟩ := checkedHeader_iff.mp checked
  obtain ⟨poolArray, readableArray, digest⟩ := arrayCrc_iff.mp crc
  have length := length_checkedHeader checked big
  have whole := length_restoredHeader length big
  have disk' : restored env disk header = (disk.write (blockOffset env header.alternateLba)
    (restoredHeader env header)).write
      (blockOffset env (restoredEntryLba header)) (disk.read (arrayOffset env header) header.arraySize) := by
    have kept : (disk.write (blockOffset env header.alternateLba) (restoredHeader env header)).read
      (arrayOffset env header)
        header.arraySize = disk.read (arrayOffset env header) header.arraySize :=
      Store.read_write_of_disjoint (by rw [whole]; exact source.symm)
    rw [blockOffset] at kept
    simp [restored, partitionRestoreGptTable, pool, headerDone, arrayDone, writeDisk, readDisk, poolArray,
      readableArray, kept, blockOffset]
  have readBlock : (restored env disk header).read (blockOffset env header.alternateLba) env.blockSize =
      restoredHeader env header := by
    have self := Store.read_write_self disk (blockOffset env header.alternateLba) (restoredHeader env header)
    rw [whole] at self
    rw [disk', Store.read_write_of_disjoint (by rw [Store.length_read]; exact target), self]
  have readArray : (restored env disk header).read (blockOffset env (restoredEntryLba header)) header.arraySize =
      disk.read (arrayOffset env header) header.arraySize := by
    have self := Store.read_write_self (disk.write (blockOffset env header.alternateLba) (restoredHeader env header))
      (blockOffset env (restoredEntryLba header)) (disk.read (arrayOffset env header) header.arraySize)
    rw [Store.length_read] at self
    rw [disk', self]
  obtain ⟨number, entry⟩ := entries_restoredHeader length big
  have size : Header.arraySize ((restoredHeader env header).take headerBytes) = header.arraySize := by
    rw [Header.arraySize, Header.arraySize, number, entry]
  have checksum : Header.partitionEntryArrayCrc32 ((restoredHeader env header).take headerBytes) =
      header.partitionEntryArrayCrc32 :=
    (field_take _ 88 4 (by decide)).trans (field_restoredHeader length big 88 4 (by decide))
  have offset : arrayOffset env ((restoredHeader env header).take headerBytes) =
      blockOffset env (restoredEntryLba header) := by
    have lba : Header.partitionEntryLba ((restoredHeader env header).take headerBytes) = restoredEntryLba header :=
      (field_take _ 72 8 (by decide)).trans (partitionEntryLba_restoredHeader length big)
    rw [arrayOffset, lba, blockOffset]
  refine tableAt_eq_some.mpr ⟨checkedHeader_iff.mpr ⟨pool, block, ?_, ?_⟩, arrayCrc_iff.mpr ⟨?_, ?_, ?_⟩⟩
  · rw [readBlock]
    exact soundBlock_restoredHeader length big sound eq
  · rw [readBlock]
  · rw [size, poolArray]
  · rw [offset, size, array]
  · rw [offset, size, checksum, readArray, digest]

end LeoEdk.Gpt
