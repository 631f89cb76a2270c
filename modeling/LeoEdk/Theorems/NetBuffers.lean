import LeoEdk.Network.NetBuffer

/-! The checksum of a net buffer and the fragments of it do not depend on the blocks that its bytes are divided into.
    Sums are compared by their `residue`, for which swapping the bytes of a word is a shift by one place. -/

namespace LeoEdk.Network

open Bytes List

/-- The little-endian words of a byte string, an odd last byte padded by zero. -/
def words : Bytes → List Nat
  | low :: high :: bulk => leNat [low, high] :: words bulk
  | [low] => [leNat [low, 0]]
  | [] => []

/-- The one's complement sum of two words: a carry is added at the low end. -/
def onesSum (a b : Nat) : Nat := if a + b < 2 ^ 16 then a + b else a + b - 2 ^ 16 + 1

/-- The sum of words with this sum of numbers; only 0 itself is written as 0. -/
def residue (sum : Nat) : Nat := if sum = 0 then 0 else (sum - 1) % 65535 + 1

def weigh : Nat → Bytes → Nat
  | _, [] => 0
  | offset, b :: bs => 256 ^ (offset % 2) * b.toNat + weigh (offset + 1) bs

section Weight

variable {offset sum total : Nat} {bs : Bytes}

theorem residue_spec (sum : Nat) :
    residue sum ≤ 65535 ∧ residue sum % 65535 = sum % 65535 ∧ (residue sum = 0 ↔ sum = 0) := by
  rw [residue]
  split <;> omega

theorem residue_le (sum : Nat) : residue sum ≤ 65535 := (residue_spec sum).1

theorem eq_residue {r : Nat} (le : r ≤ 65535) (same : r % 65535 = sum % 65535) (zero : r = 0 ↔ sum = 0) :
    r = residue sum := by
  rw [residue]
  split <;> omega

theorem residue_congr {sum' : Nat} (same : sum % 65535 = sum' % 65535) (zero : sum = 0 ↔ sum' = 0) :
    residue sum = residue sum' := by
  have := residue_spec sum
  exact eq_residue (by omega) (by omega) (by omega)

theorem residue_add_residue (a b : Nat) : residue (a + residue b) = residue (a + b) := by
  have := residue_spec b
  exact residue_congr (by omega) (by omega)

theorem weigh_append (xs ys : Bytes) : weigh offset (xs ++ ys) = weigh offset xs + weigh (offset + xs.length) ys := by
  induction xs generalizing offset with
  | nil => simp [weigh]
  | cons x xs ih => simp only [cons_append, weigh, ih, length_cons, Nat.add_assoc, Nat.add_comm 1]

theorem weigh_congr {offset' : Nat} (same : offset % 2 = offset' % 2) : weigh offset bs = weigh offset' bs := by
  induction bs generalizing offset offset' with
  | nil => rfl
  | cons b bs ih => rw [weigh, weigh, same, ih (by omega : (offset + 1) % 2 = (offset' + 1) % 2)]

theorem weigh_pair (a b : UInt8) : weigh 0 (a :: b :: bs) = leNat [a, b] + weigh 0 bs := by
  rw [weigh, weigh, weigh_congr (by decide : (0 + 1 + 1) % 2 = 0 % 2)]
  simp [Nat.add_assoc]

theorem weigh_succ (offset : Nat) (bs : Bytes) : weigh offset bs ≤ 65280 * bs.length ∧
    256 * weigh offset bs % 65535 = weigh (offset + 1) bs % 65535 ∧
      (weigh offset bs = 0 ↔ weigh (offset + 1) bs = 0) := by
  induction bs generalizing offset with
  | nil => exact ⟨Nat.le_refl 0, rfl, Iff.rfl⟩
  | cons b bs ih =>
    have byte := b.toNat_lt
    have rest := ih (offset + 1)
    rw [weigh, weigh, length_cons]
    rcases Nat.mod_two_eq_zero_or_one offset with even | odd
    · rw [even, (by omega : (offset + 1) % 2 = 1)]
      omega
    · rw [odd, (by omega : (offset + 1) % 2 = 0)]
      omega

theorem foldSum_eq (sum : Nat) : foldSum sum = residue sum := by
  induction sum using foldSum.induct with
  | case1 sum small =>
    rw [foldSum, if_pos small]
    exact eq_residue (by omega) rfl Iff.rfl
  | case2 sum big ih =>
    rw [foldSum, if_neg big, ih]
    exact residue_congr (by omega) (by omega)

theorem leftOver_pair (low high : UInt8) (bulk : Bytes) : leftOver (low :: high :: bulk) = leftOver bulk := by
  cases bulk with
  | nil => simp [leftOver]
  | cons b bulk =>
    have parity : ((b :: bulk).length + 1 + 1) % 2 = (b :: bulk).length % 2 := by omega
    rw [leftOver, leftOver, length_cons, length_cons, parity]
    rfl

theorem sumWords_eq (sum : Nat) (bulk : Bytes) (small : sum + weigh 0 bulk < 2 ^ 32) :
    sumWords sum bulk + leftOver bulk = sum + weigh 0 bulk := by
  induction sum, bulk using sumWords.induct with
  | case1 sum low high bulk ih =>
    rw [weigh_pair] at small
    rw [weigh_pair, leftOver_pair, sumWords]
    rw [Nat.mod_eq_of_lt (by omega)] at ih ⊢
    rw [ih (by omega), Nat.add_assoc]
  | case2 sum low => simp [sumWords, leftOver, weigh]
  | case3 sum => rfl

theorem netblockChecksum_eq (short : bs.length ≤ 65535) : netblockChecksum bs = residue (weigh 0 bs) := by
  have le := (weigh_succ 0 bs).1
  have byte : leftOver bs < 256 := by
    rw [leftOver]
    split
    · exact UInt8.toNat_lt _
    · decide
  have sum := sumWords_eq (leftOver bs) bs (by omega)
  rw [Nat.add_comm, Nat.add_left_cancel_iff] at sum
  rw [netblockChecksum, sum, foldSum_eq, Nat.mod_eq_of_lt (by have := residue_le (weigh 0 bs); omega)]

theorem onesSum_residue {w : Nat} (le : w ≤ 65535) : onesSum (residue total) w = residue (total + w) := by
  have := residue_spec total
  rw [onesSum]
  split <;> exact eq_residue (by omega) (by omega) (by omega)

theorem netAddChecksum_eq {a b : Nat} (le : a ≤ 65535) (le' : b ≤ 65535) : netAddChecksum a b = onesSum b a := by
  simp only [netAddChecksum, onesSum]
  split <;> split <;> omega

theorem swapBytes16_eq (sum : Nat) : swapBytes16 (residue sum) = residue (256 * sum) := by
  have := residue_spec sum
  rw [swapBytes16]
  exact eq_residue (by omega) (by omega) (by omega)

theorem blockSum_eq {block : Bytes} (short : block.length ≤ 65535) :
    (if offset % 2 ≠ 0 then swapBytes16 (netblockChecksum block) else netblockChecksum block) =
      residue (weigh offset block) := by
  rw [netblockChecksum_eq short]
  split
  next odd =>
    obtain ⟨_, same, zero⟩ := weigh_succ 0 block
    rw [swapBytes16_eq, weigh_congr (by omega : offset % 2 = (0 + 1) % 2)]
    exact residue_congr same (by omega)
  next even => rw [weigh_congr (by omega : offset % 2 = 0 % 2)]

theorem checksumBlocks_eq (blocks : List Bytes) (short : blocks.flatten.length ≤ 65535) :
    checksumBlocks offset (residue total) blocks = residue (total + weigh offset blocks.flatten) := by
  induction blocks generalizing offset total with
  | nil => rfl
  | cons block blocks ih =>
    rw [flatten_cons, length_append] at short
    rw [checksumBlocks, flatten_cons]
    split
    next empty =>
      rw [eq_nil_of_length_eq_zero empty, nil_append]
      exact ih (by omega)
    next =>
      dsimp only
      rw [blockSum_eq (by omega), netAddChecksum_eq (residue_le _) (residue_le _),
        onesSum_residue (residue_le _), residue_add_residue, ih (by omega), weigh_append, Nat.add_assoc,
        weigh_congr (by omega : (offset + block.length) % 2 ^ 32 % 2 = (offset + block.length) % 2)]

theorem foldl_onesSum (bs : Bytes) (total : Nat) :
    (words bs).foldl onesSum (residue total) = residue (total + weigh 0 bs) := by
  induction bs using words.induct generalizing total with
  | case1 low high bulk ih =>
    have word : leNat [low, high] < 256 ^ 2 := leNat_lt [low, high]
    rw [words, foldl_cons, onesSum_residue (by omega), ih, weigh_pair, Nat.add_assoc]
  | case2 low =>
    have word : leNat [low, 0] < 256 ^ 2 := leNat_lt [low, 0]
    rw [words, foldl_cons, onesSum_residue (by omega), foldl_nil]
    simp [weigh]
  | case3 => rfl

end Weight

/-- The checksum does not depend on the blocks, and is the one's complement sum of the words. -/
theorem netbufChecksum_eq (nbuf : NetBuf) (short : nbuf.bytes.length ≤ 65535) :
    netbufChecksum nbuf = netblockChecksum nbuf.bytes ∧
      netblockChecksum nbuf.bytes = (words nbuf.bytes).foldl onesSum 0 := by
  have blocks : checksumBlocks 0 (residue 0) nbuf.blockOp = _ := checksumBlocks_eq nbuf.blockOp short
  have whole := foldl_onesSum nbuf.bytes 0
  rw [Nat.zero_add] at blocks whole
  rw [netblockChecksum_eq short]
  exact ⟨blocks, whole.symm⟩

theorem netbufChecksum_eq_odd : netbufChecksum ⟨[[1], [2, 3], [], [4]], by decide⟩ = netblockChecksum [1, 2, 3, 4] ∧
    netblockChecksum [1, 2, 3, 4] = [0x201, 0x403].foldl onesSum 0 :=
  netbufChecksum_eq ⟨[[1], [2, 3], [], [4]], by decide⟩ (by decide)

section Fragments

variable {offset len cur stop index : Nat} {blocks : List Bytes}

theorem firstBlock_eq (le : cur ≤ offset) (lt : offset < cur + blocks.flatten.length) :
    ∃ first start block behind, firstBlock offset index cur blocks = some (first, start, block, behind) ∧
      start ≤ offset ∧
      offset < start + block.length ∧ blocks.flatten.drop (offset - cur) = block.drop (offset - start) ++
        behind.flatten := by
  induction blocks generalizing index cur with
  | nil => exact absurd lt (Nat.not_lt.mpr le)
  | cons block blocks ih =>
    rw [flatten_cons, length_append] at lt
    rw [firstBlock, flatten_cons]
    split
    next here => exact ⟨_, _, _, _, rfl, le, here, drop_append_of_le_length (by omega)⟩
    next behind =>
      have skip : offset - cur = block.length + (offset - (cur + block.length)) := by omega
      rw [skip, drop_length_add_append]
      exact ih (by omega) (by omega)

theorem lastBlock_eq (lt : cur < stop) (le : stop ≤ cur + blocks.flatten.length) (small : stop < 2 ^ 32) :
    ∃ between last lastLen, lastBlock stop cur blocks = some (between, last, lastLen) ∧ lastLen ≤ last.length ∧
      blocks.flatten.take (stop - cur) = between.flatten ++ last.take lastLen := by
  induction blocks generalizing cur with
  | nil => exact absurd lt (Nat.not_lt.mpr le)
  | cons block blocks ih =>
    rw [flatten_cons, length_append] at le
    rw [lastBlock, flatten_cons]
    split
    next here =>
      have taken : (stop + 2 ^ 32 - cur) % 2 ^ 32 = stop - cur := by omega
      rw [taken]
      exact ⟨_, _, _, rfl, by omega, take_append_of_le_length (by omega)⟩
    next behind =>
      obtain ⟨between, last, lastLen, found, le, rest⟩ := ih (Nat.not_le.mp behind) (by omega)
      have all : stop - cur = block.length + (stop - (cur + block.length)) := by omega
      refine ⟨block :: between, last, lastLen, by rw [found]; rfl, le, ?_⟩
      rw [all, take_length_add_append, rest, flatten_cons, append_assoc]

theorem fragmentBlocks_eq (pos : 0 < len) (le : offset + len ≤ blocks.flatten.length) (small : offset + len < 2 ^ 32) :
    ∃ cut, fragmentBlocks blocks offset len = .ok cut ∧ cut.flatten = slice offset len blocks.flatten := by
  obtain ⟨first, start, block, behind, found, le', lt, rest⟩ :=
    firstBlock_eq (Nat.zero_le offset) (by omega : offset < 0 + blocks.flatten.length)
  rw [Nat.sub_zero] at rest
  have left := congrArg List.length rest
  rw [length_append, length_drop, length_drop] at left
  rw [fragmentBlocks, found, slice, rest]
  dsimp only
  split
  next more =>
    have inside : offset + len ≤ start + block.length + behind.flatten.length := by omega
    obtain ⟨between, last, lastLen, found, le, rest⟩ := lastBlock_eq (by omega) inside small
    have share : offset + len - (start + block.length) = len - (block.drop (offset - start)).length := by
      rw [length_drop]
      omega
    rw [Nat.mod_eq_of_lt small, found, take_append, take_of_length_le (by rw [length_drop]; omega), ← share, rest]
    dsimp only
    rw [if_neg (Nat.not_lt.mpr le)]
    exact ⟨_, rfl, by simp⟩
  next whole =>
    rw [take_append_of_le_length (by rw [length_drop]; omega)]
    exact ⟨_, rfl, flatten_singleton⟩

/-- What a caller may expect of a fragment. -/
def ExactFragment (nbuf : NetBuf) (offset len : Nat) (r : Except FragmentFault (Option Child)) : Prop :=
  if len = 0 ∨ nbuf.totalSize < offset + len then r = .ok none
  else ∃ blocks, r = .ok (some ⟨len, blocks⟩) ∧ blocks.flatten = slice offset len nbuf.bytes

/-- A fragment is exact or refused unless the end of the range wraps around to a number that the buffer has room for. -/
theorem netbufGetFragment_exact_iff (nbuf : NetBuf) (offset len headSpace : UInt32) :
    ExactFragment nbuf offset.toNat len.toNat (netbufGetFragment true nbuf offset.toNat len.toNat headSpace.toNat) ↔
      ¬ (2 ^ 32 ≤ offset.toNat + len.toNat ∧ offset.toNat + len.toNat ≤ 2 ^ 32 + nbuf.totalSize) := by
  have total : nbuf.totalSize < 2 ^ 32 := nbuf.size_lt
  have offset_lt := offset.toNat_lt
  have len_lt := len.toNat_lt
  generalize offset.toNat = offset at *
  generalize len.toNat = len at *
  rw [ExactFragment]
  split
  next refused =>
    by_cases wraps : 2 ^ 32 ≤ offset + len ∧ offset + len ≤ 2 ^ 32 + nbuf.totalSize
    · refine iff_of_false ?_ (not_not.mpr wraps)
      rw [netbufGetFragment, if_neg (by omega)]
      cases fragmentBlocks nbuf.blockOp offset len <;> nofun
    · rw [netbufGetFragment, if_pos (by omega)]
      exact iff_of_true rfl wraps
  next inside =>
    have le : offset + len ≤ nbuf.blockOp.flatten.length := Nat.not_lt.mp (not_or.mp inside).2
    obtain ⟨cut, run, bytes⟩ := fragmentBlocks_eq (by omega) le (by omega)
    rw [netbufGetFragment, if_neg (by omega), run]
    refine iff_of_true ⟨_, rfl, ?_⟩ (by omega)
    split <;> exact bytes

theorem fragment_wraps : ¬ ExactFragment ⟨[[1, 2]], by decide⟩ 1 0xFFFFFFFF
    (netbufGetFragment true ⟨[[1, 2]], by decide⟩ 1 0xFFFFFFFF 0) := by
  rw [ExactFragment, if_pos (by decide)]
  nofun

end Fragments

end LeoEdk.Network
