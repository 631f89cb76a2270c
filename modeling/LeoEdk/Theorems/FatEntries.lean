import LeoEdk.Fat.FileSpace

/-! The table of a FAT volume is an array of entries: after a write an entry holds what was written and every other
    one what it held, also where two entries share a byte. The search for free clusters is a loop over this array. -/

namespace LeoEdk.Fat

variable {index value i j : Nat} {v : Volume}

open Bytes

/-! ### Words of the table -/

theorem leNat_read_two (d : Store) (p : Nat) : leNat (d.read p 2) = (d p).toNat + 256 * (d (p + 1)).toNat := by
  simp [Store.read, List.range_succ, leNat_cons]

theorem write_two_first (d : Store) (p n : Nat) : (d.write p (leBytes 2 n) p).toNat = n % 256 := by
  simp [Store.write, leBytes]

theorem write_two_second (d : Store) (p n : Nat) : (d.write p (leBytes 2 n) (p + 1)).toNat = n / 256 % 256 := by
  simp [Store.write, leBytes]

theorem write_two_other (d : Store) {p q : Nat} (n : Nat) (first : q ≠ p) (second : q ≠ p + 1) :
    d.write p (leBytes 2 n) q = d q := by
  rw [Store.write, if_neg]
  rw [length_leBytes]
  omega

theorem and_f000 (n : Nat) : n &&& 0xF000 = n / 4096 % 16 * 4096 := and_field n 4 12

theorem and_fff (n : Nat) : n &&& 0xFFF = n % 4096 := Nat.and_two_pow_sub_one_eq_mod n 12

theorem and_f (n : Nat) : n &&& 0xF = n % 16 := Nat.and_two_pow_sub_one_eq_mod n 4

theorem mul_or {a b n : Nat} (small : b < 2 ^ n) : a * 2 ^ n ||| b = a * 2 ^ n + b := by
  rw [Nat.mul_comm, Nat.two_pow_add_eq_or_of_lt small]

/-! ### The bits of one entry -/

theorem encode_fat12_even (even : index % 2 = 0) (word value : Nat) :
    encodeEntry .fat12 index word value = word / 4096 % 16 * 4096 + value % 4096 := by
  have parity : ¬ index &&& 1 ≠ 0 := by
    rw [Nat.and_one_is_mod]
    omega
  simp only [encodeEntry, if_neg parity]
  rw [and_fff, and_f000, Nat.or_comm]
  exact mul_or (n := 12) (Nat.mod_lt _ (by norm_num))

theorem encode_fat12_odd (odd : index % 2 = 1) (word value : Nat) :
    encodeEntry .fat12 index word value = value % 4096 * 16 + word % 16 := by
  have parity : index &&& 1 ≠ 0 := by
    rw [Nat.and_one_is_mod]
    omega
  simp only [encodeEntry, if_pos parity]
  rw [and_fff, and_f, Nat.shiftLeft_eq]
  exact mul_or (n := 4) (Nat.mod_lt _ (by norm_num))

theorem encode_fat32 (index word value : Nat) :
    encodeEntry .fat32 index word value = word / 2 ^ 28 % 16 * 2 ^ 28 + value % 2 ^ 28 := by
  have low : value &&& 0x0FFFFFFF = value % 2 ^ 28 := Nat.and_two_pow_sub_one_eq_mod value 28
  have high : word &&& 0xF0000000 = word / 2 ^ 28 % 16 * 2 ^ 28 := and_field word 4 28
  simp only [encodeEntry, low, high]
  exact mul_or (Nat.mod_lt _ (by norm_num))

theorem bits_fat12_even (even : index % 2 = 0) (word : Nat) : entryBits .fat12 index word = word % 4096 := by
  have parity : ¬ index &&& 1 ≠ 0 := by
    rw [Nat.and_one_is_mod]
    omega
  simp only [entryBits, if_neg parity, and_fff]

theorem bits_fat12_odd (odd : index % 2 = 1) (word : Nat) : entryBits .fat12 index word = word / 16 := by
  have parity : index &&& 1 ≠ 0 := by
    rw [Nat.and_one_is_mod]
    omega
  simp only [entryBits, if_pos parity]
  exact Nat.shiftRight_eq_div_pow word 4

theorem bits_fat32 (index word : Nat) : entryBits .fat32 index word = word % 2 ^ 28 :=
  Nat.and_two_pow_sub_one_eq_mod word 28

def FatType.width : FatType → Nat
  | .fat12 => 12
  | .fat16 => 16
  | .fat32 => 28

theorem bits_encode (t : FatType) (index : Nat) {word : Nat} (value : Nat) :
    entryBits t index (leNat (leBytes t.entrySize (encodeEntry t index word value))) = value % 2 ^ t.width := by
  rw [leNat_leBytes]
  cases t with
  | fat12 =>
    rcases Nat.mod_two_eq_zero_or_one index with even | odd
    · rw [bits_fat12_even even, encode_fat12_even even, FatType.entrySize, FatType.width]
      omega
    · rw [bits_fat12_odd odd, encode_fat12_odd odd, FatType.entrySize, FatType.width]
      omega
  | fat16 =>
    simp only [entryBits, encodeEntry, FatType.entrySize, FatType.width]
    omega
  | fat32 =>
    rw [bits_fat32, encode_fat32, FatType.entrySize, FatType.width]
    omega

/-- What an entry can hold: the number of a cluster, 0, or the mark of the end. -/
def Storable (t : FatType) (value : Nat) : Prop := value < t.special ∨ value = clusterLast

theorem decode_of_bits {t : FatType} {word : Nat} (storable : Storable t value)
    (bits : entryBits t index word = value % 2 ^ t.width) : decodeEntry t index word = value := by
  rcases storable with small | rfl
  · have exact_ : value % 2 ^ t.width = value := by
      apply Nat.mod_eq_of_lt
      cases t <;> simp only [FatType.special, FatType.width] at small ⊢ <;> omega
    rw [exact_] at bits
    simp only [decodeEntry, bits, if_neg (Nat.not_le.mpr small), Nat.or_zero]
  · simp only [decodeEntry, bits]
    cases t <;> decide

/-! ### Reading after writing -/

theorem bits_write_fat12 (d : Store) (ne : j ≠ i) (value : Nat) : entryBits .fat12 j (leNat ((d.write (i * 3 / 2)
      (leBytes 2 (encodeEntry .fat12 i (leNat (d.read (i * 3 / 2) 2)) value))).read (j * 3 / 2) 2)) =
      entryBits .fat12 j (leNat (d.read (j * 3 / 2) 2)) := by
  have byte : ∀ p, (d p).toNat < 256 := fun p => (d p).toNat_lt
  by_cases apart : j * 3 / 2 + 2 ≤ i * 3 / 2 ∨ i * 3 / 2 + 2 ≤ j * 3 / 2
  · rw [Store.read_write_of_disjoint]
    rw [length_leBytes]
    exact apart
  · rcases Nat.mod_two_eq_zero_or_one i with even | odd
    · -- `j` is the odd entry after `i`: its low bits are the high half of the shared byte
      have after : j = i + 1 := by omega
      have odd : j % 2 = 1 := by omega
      have place : j * 3 / 2 = i * 3 / 2 + 1 := by omega
      rw [bits_fat12_odd odd, bits_fat12_odd odd, encode_fat12_even even, leNat_read_two, leNat_read_two,
        leNat_read_two, place, write_two_second, write_two_other _ _ (by omega) (by omega)]
      have := byte (i * 3 / 2)
      have := byte (i * 3 / 2 + 1)
      omega
    · -- `j` is the even entry before `i`: its high bits are the low half of the shared byte
      have before : i = j + 1 := by omega
      have even : j % 2 = 0 := by omega
      have place : i * 3 / 2 = j * 3 / 2 + 1 := by omega
      rw [bits_fat12_even even, bits_fat12_even even, encode_fat12_odd odd, leNat_read_two, leNat_read_two,
        leNat_read_two, place, write_two_first, write_two_other _ _ (by omega) (by omega)]
      have := byte (j * 3 / 2)
      have := byte (j * 3 / 2 + 1)
      omega

theorem bits_write_of_ne (t : FatType) (d : Store) (ne : j ≠ i) (value : Nat) : entryBits t j (leNat ((d.write (t.pos i)
      (leBytes t.entrySize (encodeEntry t i (leNat (d.read (t.pos i) t.entrySize)) value))).read (t.pos j)
        t.entrySize)) = entryBits t j (leNat (d.read (t.pos j) t.entrySize)) := by
  cases t with
  | fat12 => exact bits_write_fat12 d ne value
  | fat16 =>
    rw [Store.read_write_of_disjoint]
    simp only [length_leBytes, FatType.pos, FatType.entrySize]
    omega
  | fat32 =>
    rw [Store.read_write_of_disjoint]
    simp only [length_leBytes, FatType.pos, FatType.entrySize]
    omega

variable (g : Geometry)

def entry (fat : Store) (index : Nat) : Nat :=
  if index > g.maxCluster + 1 then 2 ^ 64 - 1
  else decodeEntry g.fatType index (leNat (fat.read (g.fatType.pos index) g.fatType.entrySize))

def InRange (c : Nat) : Prop := minCluster ≤ c ∧ c ≤ g.maxCluster + 1

instance (c : Nat) : Decidable (InRange g c) := inferInstanceAs (Decidable (_ ∧ _))

theorem entry_write {fat : Store} (inRange : InRange g i) (storable : Storable g.fatType value) (j : Nat) :
    entry g (fat.write (g.fatType.pos i) (leBytes g.fatType.entrySize (encodeEntry g.fatType i
      (leNat (fat.read (g.fatType.pos i) g.fatType.entrySize)) value))) j = if j = i then value else entry g fat j := by
  by_cases eq : j = i
  · subst eq
    rw [if_pos rfl, entry, if_neg (Nat.not_lt.mpr inRange.2)]
    apply decode_of_bits storable
    have self := Store.read_write_self fat (g.fatType.pos j) (leBytes g.fatType.entrySize (encodeEntry g.fatType j
      (leNat (fat.read (g.fatType.pos j) g.fatType.entrySize)) value))
    rw [length_leBytes] at self
    rw [self, bits_encode]
  · rw [if_neg eq, entry, entry]
    split
    · rfl
    · simp only [decodeEntry, bits_write_of_ne g.fatType fat eq value]

theorem read_dirty (v : Volume) (notFat12 : g.fatType ≠ .fat12) (two : minCluster ≤ j) :
    (fatAccessVolumeDirty g v).fat.read (g.fatType.pos j) g.fatType.entrySize =
      v.fat.read (g.fatType.pos j) g.fatType.entrySize := by
  apply Store.read_write_of_disjoint
  rw [length_leBytes]
  rw [minCluster] at two
  cases t : g.fatType with
  | fat12 => exact absurd t notFat12
  | fat16 =>
    simp only [FatType.pos, FatType.entrySize]
    omega
  | fat32 =>
    simp only [FatType.pos, FatType.entrySize]
    omega

theorem entry_dirty (v : Volume) (notFat12 : g.fatType ≠ .fat12) (two : minCluster ≤ j) :
    entry g (fatAccessVolumeDirty g v).fat j = entry g v.fat j := by
  rw [entry, entry, read_dirty g v notFat12 two]

/-! ### The functions on entries -/

variable {g}

theorem fatLoadFatEntry_of_inRange (v : Volume) (inRange : InRange g i) : fatLoadFatEntry g v i =
      (leNat (v.fat.read (g.fatType.pos i) g.fatType.entrySize), { v with fatEntryPos := g.fatType.pos i }) := by
  rw [fatLoadFatEntry, if_neg (Nat.not_lt.mpr inRange.2)]

theorem fatGetFatEntry_eq (v : Volume) (i : Nat) :
    ∃ p, fatGetFatEntry g v i = (entry g v.fat i, { v with fatEntryPos := p }) := by
  by_cases behind : i > g.maxCluster + 1
  · refine ⟨v.fatEntryPos, ?_⟩
    simp only [fatGetFatEntry, fatLoadFatEntry, entry, if_pos behind]
  · refine ⟨g.fatType.pos i, ?_⟩
    simp only [fatGetFatEntry, fatLoadFatEntry, entry, if_neg behind]

@[simp] theorem updateFreeInfo_fat (v : Volume) (i original value : Nat) :
    (updateFreeInfo v i original value).fat = v.fat := by
  rw [updateFreeInfo]
  split
  · rfl
  · split <;> rfl

theorem two_le_updateFreeInfo (original value : Nat) (two : minCluster ≤ i)
    (hint : minCluster ≤ v.nextCluster) : minCluster ≤ (updateFreeInfo v i original value).nextCluster := by
  rw [updateFreeInfo]
  split
  · dsimp only
    split
    · exact two
    · exact hint
  · split
    · exact hint
    · exact hint

theorem entry_fatSetFatEntry (v : Volume) (inRange : InRange g i)
    (storable : Storable g.fatType value) (two : minCluster ≤ j) :
    entry g (fatSetFatEntry g v i value).fat j = if j = i then value else entry g v.fat j := by
  obtain ⟨p, got⟩ := fatGetFatEntry_eq (g := g) v i
  rw [fatSetFatEntry, if_neg (Nat.not_lt.mpr inRange.1), got]
  dsimp only
  rw [fatLoadFatEntry_of_inRange _ inRange]
  dsimp only
  rw [updateFreeInfo_fat]
  split
  next dirty =>
    -- the entry was read before the mark was written, which does not touch it
    have mark : ∀ w : Volume, w.fat = v.fat → ∀ j, minCluster ≤ j →
        entry g ((fatAccessVolumeDirty g w).fat.write (g.fatType.pos i)
          (leBytes g.fatType.entrySize (encodeEntry g.fatType i
          (leNat (v.fat.read (g.fatType.pos i) g.fatType.entrySize)) value))) j =
          if j = i then value else entry g v.fat j := by
      intro w same j two
      have word := read_dirty g w dirty.2 inRange.1
      rw [same] at word
      rw [← word, entry_write g inRange storable j, entry_dirty g w dirty.2 two, same]
    exact mark _ rfl j two
  · exact entry_write g inRange storable j

theorem two_le_fatSetFatEntry (value : Nat) (hint : minCluster ≤ v.nextCluster) :
    minCluster ≤ (fatSetFatEntry g v i value).nextCluster := by
  rw [fatSetFatEntry]
  split
  · exact hint
  next two =>
    obtain ⟨p, got⟩ := fatGetFatEntry_eq (g := g) v i
    rw [got]
    dsimp only
    have kept := two_le_updateFreeInfo (v := { v with fatEntryPos := p }) (entry g v.fat i) value
      (Nat.not_lt.mp two) hint
    rw [fatLoadFatEntry]
    split <;> split <;> exact kept

/-! ### Counting and allocating free clusters -/

theorem countFree_spec (v : Volume) (i : Nat) : (countFree g v i).fat = v.fat ∧
    (countFree g v i).nextCluster = if entry g v.fat i = clusterFree then i else v.nextCluster := by
  obtain ⟨p, got⟩ := fatGetFatEntry_eq (g := g) v i
  rw [countFree, got]
  dsimp only
  split <;> exact ⟨rfl, rfl⟩

theorem foldl_countFree_spec (indices : List Nat) (v : Volume) :
    (indices.foldl (countFree g) v).fat = v.fat ∧
      (((indices.foldl (countFree g) v).nextCluster = v.nextCluster ∧ ∀ i ∈ indices, entry g v.fat i ≠ clusterFree) ∨
        ((indices.foldl (countFree g) v).nextCluster ∈ indices ∧
          entry g v.fat (indices.foldl (countFree g) v).nextCluster = clusterFree)) := by
  induction indices generalizing v with
  | nil => exact ⟨rfl, .inl ⟨rfl, nofun⟩⟩
  | cons i indices ih =>
    obtain ⟨same, hint⟩ := countFree_spec (g := g) v i
    obtain ⟨sameRest, rest⟩ := ih (countFree g v i)
    rw [same, hint] at rest
    rw [List.foldl_cons]
    refine ⟨sameRest.trans same, ?_⟩
    rcases rest with ⟨kept, none⟩ | ⟨mem, free⟩
    · rw [kept]
      split
      next free => exact .inr ⟨List.mem_cons_self, free⟩
      next used => exact .inl ⟨rfl, List.forall_mem_cons.mpr ⟨used, none⟩⟩
    · exact .inr ⟨List.mem_cons_of_mem i mem, free⟩

theorem fatComputeFreeInfo_spec (works : v.diskError = false) : (fatComputeFreeInfo g v).fat = v.fat ∧
    (((fatComputeFreeInfo g v).nextCluster = v.nextCluster ∧
        (v.freeInfoValid = true ∨ ∀ i, InRange g i → entry g v.fat i ≠ clusterFree)) ∨
      (InRange g (fatComputeFreeInfo g v).nextCluster ∧
        entry g v.fat (fatComputeFreeInfo g v).nextCluster = clusterFree)) := by
  have clusters (i : Nat) : i ∈ (List.range g.maxCluster).reverse.map (· + minCluster) ↔ InRange g i := by
    simp only [List.mem_map, List.mem_reverse, List.mem_range, InRange, minCluster]
    exact ⟨fun ⟨k, lt, eq⟩ => by omega, fun inRange => ⟨i - 2, by omega⟩⟩
  rw [fatComputeFreeInfo]
  split
  next valid => exact ⟨rfl, .inl ⟨rfl, .inl valid⟩⟩
  next =>
    simp only [works, Bool.false_eq_true, if_false]
    obtain ⟨same, found⟩ := foldl_countFree_spec (g := g) ((List.range g.maxCluster).reverse.map (· + minCluster))
      { v with freeInfoValid := true, clusterCount := 0, diskError := false }
    simp only [clusters] at found
    exact ⟨same, found.imp_left (And.imp_right .inr)⟩

variable (g) in
structure Allocated (v : Volume) (c : Nat) (v' : Volume) : Prop where
  fat : v'.fat = v.fat
  hint : minCluster ≤ v'.nextCluster
  cluster : c = clusterLast ∨ (InRange g c ∧ entry g v.fat c = clusterFree)

/-- The count of free clusters is taken as it is, and says that there is none. -/
def Volume.saysFull (v : Volume) : Bool := v.freeInfoValid && ! (0 < v.clusterCount.toInt32)

variable (g) in
/-- Why no cluster is given out. -/
def NoneFree (v : Volume) : Prop :=
  (∀ i, InRange g i → entry g v.fat i ≠ clusterFree) ∨
    (v.saysFull = true ∧ ∀ i, v.nextCluster ≤ i → i ≤ g.maxCluster + 1 → entry g v.fat i ≠ clusterFree)

variable (g) in
/-- The cluster is free, and lies behind the hint or is the first one that was found anew. -/
structure GivenOut (v : Volume) (c : Nat) (v' : Volume) : Prop where
  hint : v'.nextCluster = c + 1
  le : c ≤ g.maxCluster + 1
  free : entry g v.fat c = clusterFree
  from_ : v.nextCluster ≤ c ∨ minCluster ≤ c

section Allocate

-- `NextCluster` counts on behind the last cluster without a wrap.
variable (small : g.maxCluster + 2 < 2 ^ 32)
include small

theorem succ_mod {c : Nat} (inRange : c ≤ g.maxCluster + 1) : (c + 1) % 2 ^ 32 = c + 1 :=
  Nat.mod_eq_of_lt (by omega)

theorem allocateLoop_spec {fuel : Nat} (works : v.diskError = false)
    (enough : g.maxCluster + 2 - v.nextCluster < fuel) :
    ∃ c v', allocateLoop g fuel v = some (c, v') ∧ v'.fat = v.fat ∧
      ((c = clusterLast ∧ v.nextCluster ≤ v'.nextCluster ∧ NoneFree g v) ∨ GivenOut g v c v') := by
  induction fuel generalizing v with
  | zero => exact absurd enough (Nat.not_lt_zero _)
  | succ fuel ih =>
    rw [allocateLoop]
    by_cases behind : v.nextCluster > g.maxCluster + 1
    · rw [if_pos behind]
      obtain ⟨same, found⟩ := fatComputeFreeInfo_spec (g := g) (v := { v with freeInfoValid := v.saysFull }) works
      change (fatComputeFreeInfo g { v with freeInfoValid := v.saysFull }).fat = v.fat at same
      unfold Volume.saysFull at same found
      generalize fatComputeFreeInfo g _ = u at same found ⊢
      dsimp only at found
      rcases found with ⟨kept, full⟩ | ⟨inRange, free⟩
      · refine ⟨_, u, if_pos (kept ▸ behind), same, .inl ⟨rfl, kept.ge, ?_⟩⟩
        exact full.symm.imp_right fun valid => ⟨valid, fun i le le' => by omega⟩
      · obtain ⟨p, got⟩ := fatGetFatEntry_eq (g := g) u u.nextCluster
        have here : entry g u.fat u.nextCluster = clusterFree := same ▸ free
        simp only [if_neg (Nat.not_lt.mpr inRange.2), got, if_pos here]
        exact ⟨_, _, rfl, same, .inr ⟨succ_mod small inRange.2, inRange.2, free, .inr inRange.1⟩⟩
    · rw [if_neg behind, if_neg behind]
      have inside : v.nextCluster ≤ g.maxCluster + 1 := Nat.not_lt.mp behind
      obtain ⟨p, got⟩ := fatGetFatEntry_eq (g := g) v v.nextCluster
      simp only [got]
      by_cases free : entry g v.fat v.nextCluster = clusterFree
      · rw [if_pos free]
        exact ⟨_, _, rfl, rfl, .inr ⟨succ_mod small inside, inside, free, .inl (Nat.le_refl _)⟩⟩
      · rw [if_neg free, succ_mod small inside]
        obtain ⟨c, v', run, same, done⟩ := ih (v := { v with fatEntryPos := p, nextCluster := v.nextCluster + 1 })
          works (by dsimp only; omega)
        refine ⟨c, v', run, same, ?_⟩
        rcases done with ⟨last, le, none⟩ | ⟨hint, le, freeC, from_⟩
        · refine .inl ⟨last, Nat.le_of_succ_le le, none.imp_right fun ⟨full, none⟩ => ⟨full, fun i le le' => ?_⟩⟩
          rcases Nat.eq_or_lt_of_le le with rfl | lt
          · exact free
          · exact none i lt le'
        · exact .inr ⟨hint, le, freeC, from_.imp_left Nat.le_of_succ_le⟩

theorem fatAllocateCluster_spec (hint : minCluster ≤ v.nextCluster) :
    ∃ c v', fatAllocateCluster g v = some (c, v') ∧ Allocated g v c v' := by
  rw [fatAllocateCluster]
  split
  · exact ⟨_, _, rfl, rfl, hint, .inl rfl⟩
  next works =>
    obtain ⟨c, v', run, same, done⟩ := allocateLoop_spec small (Bool.not_eq_true _ ▸ works)
      (Nat.lt_succ_of_le (Nat.sub_le (g.maxCluster + 2) v.nextCluster))
    refine ⟨c, v', run, ?_⟩
    rcases done with ⟨last, le, _⟩ | ⟨next, le, free, from_⟩
    · exact ⟨same, hint.trans le, .inl last⟩
    · have two : minCluster ≤ c := from_.elim hint.trans id
      exact ⟨same, by omega, .inr ⟨⟨two, le⟩, free⟩⟩

/-- The search ends on every table. It is in vain only if no cluster is free, or none from the hint on and the count is
    taken for it that there is none before. -/
theorem fatAllocateCluster_full (works : v.diskError = false) : ∃ c v', fatAllocateCluster g v = some (c, v') ∧
    (endOfFatChain c → NoneFree g v) ∧ (¬ endOfFatChain c → c ≤ g.maxCluster + 1 ∧ entry g v.fat c = clusterFree ∧
      (minCluster ≤ v.nextCluster → minCluster ≤ c)) := by
  obtain ⟨c, v', run, _, done⟩ := allocateLoop_spec small works
    (Nat.lt_succ_of_le (Nat.sub_le (g.maxCluster + 2) v.nextCluster))
  refine ⟨c, v', ?_, ?_⟩
  · rw [fatAllocateCluster, works]
    exact run
  rcases done with ⟨rfl, _, none⟩ | ⟨_, le, free, from_⟩
  · exact ⟨fun _ => none, fun other => absurd (by decide) other⟩
  · refine ⟨fun last => ?_, fun _ => ⟨le, free, fun two => from_.elim two.trans id⟩⟩
    have special : clusterSpecial = 0xFFFFFFFFFFFFFFF7 := by decide
    rw [endOfFatChain, special] at last
    omega

end Allocate

/-- The smallest FAT32 volume. -/
def leastFat32 : Geometry := ⟨.fat32, 0xFFF5, 9, 0, by unfold FatType.Accepts; decide⟩

/-- Only the last cluster is in use. The information sector of the volume says that no cluster is free, and to go on
    from there. -/
def staleVolume : Volume where
  fat := Store.write (fun _ => 0) (4 * 0xFFF6) [0xFF, 0xFF, 0xFF, 0x0F]
  fatEntryPos := 0
  fatDirty := false
  freeInfoValid := true
  clusterCount := 0
  nextCluster := 0xFFF6
  diskError := false

theorem fatAllocateCluster_full_stale : ∃ c v', fatAllocateCluster leastFat32 staleVolume = some (c, v') ∧
    (endOfFatChain c → NoneFree leastFat32 staleVolume) ∧ (¬ endOfFatChain c → c ≤ 0xFFF6 ∧
      entry leastFat32 staleVolume.fat c = clusterFree ∧ (minCluster ≤ staleVolume.nextCluster → minCluster ≤ c)) :=
  fatAllocateCluster_full (g := leastFat32) (by decide) rfl

theorem stale_volume_full : staleVolume.diskError = false ∧ entry leastFat32 staleVolume.fat 2 = clusterFree ∧
    InRange leastFat32 2 ∧ ∃ c v', fatAllocateCluster leastFat32 staleVolume = some (c, v') ∧ endOfFatChain c :=
  ⟨rfl, by decide, by decide, _, _, rfl, by decide⟩

end LeoEdk.Fat
