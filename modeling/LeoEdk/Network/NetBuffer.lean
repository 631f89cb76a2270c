import LeoEdk.Lib.Bytes

/-!
Net buffers of `DxeNetLib`: blocks of bytes that are trimmed at either end and wrapped into a larger buffer.
-/

namespace LeoEdk.Network

open Bytes

def netblockTrim (block : Bytes) (len : Nat) (fromHead : Bool) : Bytes :=
  if fromHead then block.drop len else block.take (block.length - len)

def trimBlocks (fromHead : Bool) : Nat → List Bytes → List Bytes
  | _, [] => []
  | len, block :: blocks =>
    if block.length = 0 then block :: trimBlocks fromHead len blocks
    else if block.length < len then
      netblockTrim block block.length fromHead :: trimBlocks fromHead (len - block.length) blocks
    else netblockTrim block len fromHead :: blocks

theorem flatten_trimBlocks_head (len : Nat) (blocks : List Bytes) :
    (trimBlocks true len blocks).flatten = blocks.flatten.drop len := by
  induction blocks generalizing len with
  | nil => simp [trimBlocks]
  | cons block blocks ih =>
    rw [trimBlocks, List.flatten_cons, List.drop_append]
    split
    next empty => simp [ih, List.eq_nil_of_length_eq_zero empty]
    · split
      next less => simp [netblockTrim, ih, List.drop_eq_nil_of_le less.le]
      next whole => simp [netblockTrim, Nat.sub_eq_zero_of_le (Nat.le_of_not_lt whole)]

theorem flatten_trimBlocks_tail (len : Nat) (blocks : List Bytes) :
    (trimBlocks false len blocks).reverse.flatten = blocks.reverse.flatten.rdrop len := by
  induction blocks generalizing len with
  | nil => simp [trimBlocks]
  | cons block blocks ih =>
    have split_at : (block :: blocks).reverse.flatten.rdrop len =
        blocks.reverse.flatten.rdrop (len - block.length) ++ block.rdrop len := by
      rw [List.reverse_cons, List.flatten_append, List.flatten_singleton, List.rdrop, List.rdrop, List.rdrop,
        List.take_append, List.length_append]
      refine congrArg₂ _ (List.take_eq_take_iff.mpr (by omega)) (List.take_eq_take_iff.mpr (by omega))
    rw [split_at, trimBlocks]
    split
    next empty => simp [ih, List.eq_nil_of_length_eq_zero empty]
    · split
      next less => simp [netblockTrim, ih, List.rdrop, Nat.sub_eq_zero_of_le less.le]
      next whole => simp [netblockTrim, List.rdrop, Nat.sub_eq_zero_of_le (Nat.le_of_not_lt whole)]

/-- A `NET_BUF`: its blocks hold fewer bytes than `TotalSize` can count. -/
structure NetBuf where
  blockOp : List Bytes
  size_lt : blockOp.flatten.length < 2 ^ 32

namespace NetBuf

def bytes (nbuf : NetBuf) : Bytes := nbuf.blockOp.flatten

def totalSize (nbuf : NetBuf) : Nat := nbuf.bytes.length

end NetBuf

def netbufTrim (nbuf : NetBuf) (len : Nat) (fromHead : Bool) : NetBuf :=
  if len = 0 ∨ nbuf.totalSize = 0 then nbuf
  else
    let len := if nbuf.totalSize < len then nbuf.totalSize else len
    if fromHead then
      { blockOp := trimBlocks true len nbuf.blockOp
        size_lt := by
          rw [flatten_trimBlocks_head, List.length_drop]
          exact (Nat.sub_le _ _).trans_lt nbuf.size_lt }
    else
      { blockOp := (trimBlocks false len nbuf.blockOp.reverse).reverse
        size_lt := by
          rw [flatten_trimBlocks_tail, List.reverse_reverse]
          exact (List.length_take_le' _ _).trans_lt nbuf.size_lt }

theorem bytes_netbufTrim_head (nbuf : NetBuf) (len : Nat) : (netbufTrim nbuf len true).bytes = nbuf.bytes.drop len := by
  unfold netbufTrim
  split
  next idle =>
    rcases idle with rfl | empty
    · rfl
    · rw [List.eq_nil_of_length_eq_zero empty, List.drop_nil]
  · simp only [if_true]
    rw [NetBuf.bytes, flatten_trimBlocks_head]
    split
    next less =>
      rw [List.drop_eq_nil_of_le (Nat.le_of_lt less)]
      exact List.drop_length
    · rfl

theorem bytes_netbufTrim_tail (nbuf : NetBuf) (len : Nat) :
    (netbufTrim nbuf len false).bytes = nbuf.bytes.rdrop len := by
  unfold netbufTrim
  split
  next idle =>
    rcases idle with rfl | empty
    · rw [List.rdrop_zero]
    · rw [List.eq_nil_of_length_eq_zero empty, List.rdrop_nil]
  · simp only [Bool.false_eq_true, if_false]
    rw [NetBuf.bytes, flatten_trimBlocks_tail, List.reverse_reverse, ← NetBuf.bytes]
    split
    next less =>
      rw [NetBuf.totalSize] at less
      rw [List.rdrop, List.rdrop, NetBuf.totalSize, Nat.sub_self, Nat.sub_eq_zero_of_le (Nat.le_of_lt less)]
    · rfl

def filledBlocks (bufList : List NetBuf) : List Bytes :=
  (bufList.flatMap NetBuf.blockOp).filter fun block => block.length ≠ 0

def pullHeader : Nat → List Bytes → Bytes × List Bytes
  | _, [] => ([], [])
  | len, block :: blocks =>
    if block.length ≤ len then
      if len - block.length = 0 then (block, blocks)
      else
        let (copied, left) := pullHeader (len - block.length) blocks
        (block ++ copied, left)
    else (block.take len, block.drop len :: blocks)

def headerToCopy (ext : List Bytes) (headLen : Nat) : Nat :=
  if headLen ≤ (ext.head?.map List.length).getD 0 ∨ ext.length = 1 then 0 else headLen

def netbufFromExt (ext : List Bytes) (headSpace headLen : Nat) : List Bytes :=
  if headerToCopy ext headLen ≠ 0 then
    let (copied, left) := pullHeader (headerToCopy ext headLen) ext
    copied :: left
  else if headSpace ≠ 0 then [] :: ext
  else ext

def netbufFromBufList (bufList : List NetBuf) (headSpace headerLen : Nat) : List Bytes :=
  netbufFromExt (filledBlocks bufList) headSpace headerLen

theorem flatten_pullHeader (len : Nat) (blocks : List Bytes) :
    (pullHeader len blocks).1 ++ (pullHeader len blocks).2.flatten = blocks.flatten := by
  induction blocks generalizing len with
  | nil => rfl
  | cons block blocks ih =>
    rw [pullHeader]
    split
    · split
      · rfl
      · simp [ih]
    · rw [List.flatten_cons, ← List.append_assoc, List.take_append_drop, List.flatten_cons]

theorem flatten_filledBlocks (bufList : List NetBuf) :
    (filledBlocks bufList).flatten = (bufList.map NetBuf.bytes).flatten := by
  have dropEmpty (blocks : List Bytes) : (blocks.filter fun block => block.length ≠ 0).flatten = blocks.flatten := by
    induction blocks with
    | nil => rfl
    | cons block blocks ih =>
      rw [List.filter_cons]
      split
      · rw [List.flatten_cons, List.flatten_cons, ih]
      next empty =>
        have nil : block = [] := by simpa using empty
        rw [ih, nil, List.flatten_cons, List.nil_append]
  rw [filledBlocks, dropEmpty]
  induction bufList with
  | nil => rfl
  | cons nbuf bufList ih => simp [ih, NetBuf.bytes]

theorem flatten_netbufFromBufList (bufList : List NetBuf) (headSpace headerLen : Nat) :
    (netbufFromBufList bufList headSpace headerLen).flatten = (bufList.map NetBuf.bytes).flatten := by
  rw [← flatten_filledBlocks, netbufFromBufList]
  unfold netbufFromExt
  split_ifs
  · exact flatten_pullHeader _ _
  · rfl
  · rfl

inductive FragmentFault
  /-- `BlockOp` is read behind its last element. -/
  | noBlock
  | lastBeforeFirst
  /-- The new buffer reaches behind a block of the old one. -/
  | behindBlock
deriving DecidableEq

def firstBlock (offset : Nat) : Nat → Nat → List Bytes → Option (Nat × Nat × Bytes × List Bytes)
  | _, _, [] => none
  | index, cur, block :: blocks =>
    if offset < cur + block.length then some (index, cur, block, blocks)
    else firstBlock offset (index + 1) (cur + block.length) blocks

def lastBlock (stop : Nat) : Nat → List Bytes → Option (List Bytes × Bytes × Nat)
  | _, [] => none
  | cur, block :: blocks =>
    if stop ≤ cur + block.length then some ([], block, (stop + 2 ^ 32 - cur) % 2 ^ 32)
    else (lastBlock stop (cur + block.length) blocks).map fun (between, last) => (block :: between, last)

def fragmentBlocks (blockOp : List Bytes) (offset len : Nat) : Except FragmentFault (List Bytes) :=
  match firstBlock offset 0 0 blockOp with
  | none => .error .noBlock
  | some (first, cur, block, blocks) =>
    let firstSkip := offset - cur
    let firstLen := block.length - firstSkip
    if len > firstLen then
      match lastBlock ((offset + len) % 2 ^ 32) (cur + block.length) blocks with
      | none =>
        -- `Last` has stayed 0
        if first = 0 then .ok [block.drop firstSkip] else .error .lastBeforeFirst
      | some (between, last, lastLen) =>
        if last.length < lastLen then .error .behindBlock
        else .ok (block.drop firstSkip :: (between ++ [last.take lastLen]))
    else .ok [slice firstSkip len block]

structure Child where
  totalSize : Nat
  blockOp : List Bytes
deriving DecidableEq

/-- `granted` tells whether the memory for the child is there; `offset`, `len` and `headSpace` are of 32 bits. -/
def netbufGetFragment (granted : Bool) (nbuf : NetBuf) (offset len headSpace : Nat) :
    Except FragmentFault (Option Child) :=
  if len = 0 ∨ nbuf.totalSize < (offset + len) % 2 ^ 32 then .ok none
  else do
    let blocks ← fragmentBlocks nbuf.blockOp offset len
    if granted then return some ⟨len, if headSpace ≠ 0 then [] :: blocks else blocks⟩ else return none

/-! ### Checksums -/

def sumWords : Nat → Bytes → Nat
  | sum, low :: high :: bulk => sumWords ((sum + leNat [low, high]) % 2 ^ 32) bulk
  | sum, [_] => sum
  | sum, [] => sum

def foldSum (sum : Nat) : Nat :=
  if sum / 2 ^ 16 = 0 then sum else foldSum (sum % 2 ^ 16 + sum / 2 ^ 16)
termination_by sum

def leftOver (bulk : Bytes) : Nat := if bulk.length % 2 ≠ 0 then (bulk.getLastD 0).toNat else 0

def netblockChecksum (bulk : Bytes) : Nat := foldSum (sumWords (leftOver bulk) bulk) % 2 ^ 16

def netAddChecksum (checksum1 checksum2 : Nat) : Nat :=
  let sum := checksum1 + checksum2
  if sum / 2 ^ 16 ≠ 0 then (sum % 2 ^ 16 + 1) % 2 ^ 16 else sum % 2 ^ 16

def swapBytes16 (value : Nat) : Nat := value % 256 * 256 + value / 256

def checksumBlocks : Nat → Nat → List Bytes → Nat
  | _, totalSum, [] => totalSum
  | offset, totalSum, block :: blocks =>
    if block.length = 0 then checksumBlocks offset totalSum blocks
    else
      let blockSum := netblockChecksum block
      let blockSum := if offset % 2 ≠ 0 then swapBytes16 blockSum else blockSum
      checksumBlocks ((offset + block.length) % 2 ^ 32) (netAddChecksum blockSum totalSum) blocks

def netbufChecksum (nbuf : NetBuf) : Nat := checksumBlocks 0 0 nbuf.blockOp

end LeoEdk.Network
