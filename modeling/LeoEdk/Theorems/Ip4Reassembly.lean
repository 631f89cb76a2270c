import LeoEdk.Lib.Tiling
import LeoEdk.Network.Ip4Input

/-! Fragments of one datagram are put together to its payload in every order, as long as none has to be cut at its
    end: `Ip4TrimPacket` computes the length there with the wrong sign. The invariant is `Gathered`: the stored
    fragments are sorted and disjoint pieces of the payload that cover what has come. -/

namespace LeoEdk.Network

open Bytes List

/-! ### What the fragments of a payload are -/

abbrev Payload := { bytes : Bytes // bytes.length < 2 ^ 32 }

/-- The fragment has a place in the payload and holds the bytes of that place. -/
structure PieceOf (P : Payload) (f : Fragment) : Prop where
  start_nonneg : 0 ≤ f.info.start
  start_lt : f.info.start < f.info.stop
  stop_le : f.info.stop ≤ P.val.length
  length : f.info.length = f.info.stop - f.info.start
  bytes : f.buffer.bytes = slice f.info.start.toNat f.info.length.toNat P.val

structure Carries (P : Payload) (id : PacketId) (packet : Fragment) : Prop extends PieceOf P packet where
  id_eq : packet.head.toPacketId = id
  last_iff : ip4LastFragment packet.head.fragment = true ↔ packet.info.stop = P.val.length

def places : Layout Fragment Bytes where
  first f := f.info.start.toNat
  next f := f.info.stop.toNat
  value f := f.buffer.bytes

def Covered (P : Payload) (received : List Fragment) : Prop := ∀ i < P.val.length, ∃ p ∈ received, places.Covers p i

/-- The stored fragments are sorted and disjoint, and the lengths are those of the bytes. -/
structure EntrySound (entry : AssembleEntry) : Prop where
  sorted : entry.fragments.Pairwise fun f g => f.info.start < g.info.start ∧ f.info.stop ≤ g.info.start
  sizes : ∀ f ∈ entry.fragments, f.info.length = f.buffer.totalSize ∧ f.info.length = f.info.stop - f.info.start
  total : entry.curLen = (entry.fragments.map fun f => f.info.length).sum

def stored (table : AssembleTable) (id : PacketId) : Option AssembleEntry :=
  (table (ip4AssembleHash id)).find? fun entry => entry.id = id

def available : Memory := ⟨true, true⟩

def tableAfter (table : AssembleTable) (packets : List Fragment) : AssembleTable :=
  packets.foldl (fun table packet => (ip4Reassemble available table packet).2) table

structure Answers (P : Payload) (id : PacketId) (received : List Fragment) (result : Option Assembled × AssembleTable) :
    Prop where
  waits : ¬ Covered P received → result.1 = none ∧ ∃ entry, stored result.2 id = some entry ∧ EntrySound entry
  delivers : Covered P received → ∃ packet, result.1 = some packet ∧ packet.blockOp.flatten = P.val ∧
    packet.totalSize = P.val.length ∧ EntrySound packet.arg

/-- The packet ends inside a stored fragment that begins behind its start, and the fragment in which it starts does not
    reach up to that one. -/
def Overhangs (fragments : List Fragment) (packet : Fragment) : Prop :=
  ∃ node ∈ fragments, packet.info.start < node.info.start ∧ node.info.start < packet.info.stop ∧
    packet.info.stop < node.info.stop ∧
    ∀ prev ∈ fragments, prev.info.start ≤ packet.info.start → prev.info.stop < node.info.start

instance (fragments : List Fragment) (packet : Fragment) : Decidable (Overhangs fragments packet) :=
  inferInstanceAs (Decidable (∃ node ∈ fragments, _))

section Reassembly

variable {P : Payload} {id : PacketId} {packet kept node f : Fragment} {fragments before after : List Fragment}

namespace PieceOf

variable (piece : PieceOf P f)
include piece

theorem ends : (places.first f : Int) = f.info.start ∧ (places.next f : Int) = f.info.stop ∧
    f.info.start < f.info.stop ∧ f.info.stop ≤ P.val.length ∧ f.info.length = f.info.stop - f.info.start :=
  ⟨Int.toNat_of_nonneg piece.start_nonneg, Int.toNat_of_nonneg (piece.start_nonneg.trans piece.start_lt.le),
    piece.start_lt, piece.stop_le, piece.length⟩

theorem inside : f.info.start.toNat + f.info.length.toNat ≤ P.val.length := by
  have := piece.ends
  omega

theorem totalSize : f.info.length = f.buffer.totalSize := by
  have := piece.ends
  rw [NetBuf.totalSize, piece.bytes, length_slice piece.inside]
  omega

theorem extent : ((places.next f - places.first f : Nat) : Int) = f.info.length := by
  have := piece.ends
  omega

theorem covers_iff (i : Nat) : places.Covers f i ↔ f.info.start ≤ i ∧ (i : Int) < f.info.stop := by
  have := piece.ends
  rw [Layout.Covers]
  omega

end PieceOf

theorem toUint32_of_lt {len : Int} (nonneg : 0 ≤ len) (lt : len < 2 ^ 32) : toUint32 len = len.toNat := by
  rw [toUint32, Int.emod_eq_of_lt nonneg lt]

theorem trimStart_head (packet : Fragment) (start : Int) : (trimStart packet start).head = packet.head := by
  unfold trimStart
  split <;> rfl

theorem trimStart_stop (packet : Fragment) (start : Int) : (trimStart packet start).info.stop = packet.info.stop := by
  unfold trimStart
  split <;> rfl

theorem trimStart_start {start : Int} (lt : packet.info.start < start) :
    (trimStart packet start).info.start = start := by
  rw [trimStart, if_pos lt]

theorem PieceOf.trimStart (piece : PieceOf P packet) {start : Int} (lower : packet.info.start < start)
    (upper : start < packet.info.stop) : PieceOf P (trimStart packet start) := by
  have := piece.ends
  have size := P.property
  have cut : toUint32 (start - packet.info.start) = (start - packet.info.start).toNat :=
    toUint32_of_lt (by omega) (by omega)
  refine ⟨?_, ?_, ?_, ?_, ?_⟩ <;> simp only [Network.trimStart, if_pos lower]
  · omega
  · exact upper
  · exact piece.stop_le
  · omega
  · rw [bytes_netbufTrim_head, piece.bytes, cut, slice, slice, drop_take, drop_drop]
    congr 2 <;> omega

theorem ip4TrimPacket_stop (packet : Fragment) (start : Int) :
    ip4TrimPacket packet start packet.info.stop = trimStart packet start := by
  rw [ip4TrimPacket, trimStop, trimStart_stop, if_neg (lt_irrefl _)]

theorem length_ip4TrimPacket (packet : Fragment) {stop : Int} (lt : stop < packet.info.stop) :
    (ip4TrimPacket packet packet.info.start stop).info =
      { packet.info with stop, length := packet.info.length + (packet.info.stop - stop) } := by
  have keep : trimStart packet packet.info.start = packet := if_neg (lt_irrefl _)
  rw [ip4TrimPacket, keep, trimStop, if_pos lt]
  simp only [ClipInfo.mk.injEq, true_and]
  omega

/-! ### The fragment before the insertion point -/

structure Behind (P : Payload) (before : List Fragment) (packet kept : Fragment) : Prop where
  piece : PieceOf P kept
  head : kept.head = packet.head
  stop : kept.info.stop = packet.info.stop
  start_le : packet.info.start ≤ kept.info.start
  apart : ∀ f ∈ before, f.info.stop ≤ kept.info.start
  /-- What was cut off is stored already. -/
  covered : packet.info.start < kept.info.start → ∃ f ∈ before, f.info.start ≤ packet.info.start ∧
    kept.info.start = f.info.stop

theorem apart_of_last {last : Fragment} (spread : places.Spread 0 P.val.length before)
    (pieces : ∀ f ∈ before, PieceOf P f) (found : before.getLast? = some last) :
    last ∈ before ∧ ∀ f ∈ before, f.info.stop ≤ last.info.stop := by
  obtain ⟨front, rfl⟩ := List.getLast?_eq_some_iff.mp found
  have here : last ∈ front ++ [last] := by simp
  refine ⟨here, fun f mem => ?_⟩
  rcases mem_append.mp mem with mem | mem
  · have apart := (pairwise_append.mp spread.pairwise).2.2 f mem last (mem_singleton.mpr rfl)
    have := (pieces last here).ends
    have := (pieces f (mem_append_left _ mem)).ends
    omega
  · rw [mem_singleton.mp mem]

theorem trimToPrevious_cases (spread : places.Spread 0 P.val.length before) (pieces : ∀ f ∈ before, PieceOf P f)
    (starts : ∀ f ∈ before, f.info.start ≤ packet.info.start) (piece : PieceOf P packet) :
    (trimToPrevious before packet = none ∧
      ∃ f ∈ before, f.info.start ≤ packet.info.start ∧ packet.info.stop ≤ f.info.stop) ∨
    ∃ kept, trimToPrevious before packet = some kept ∧ Behind P before packet kept := by
  unfold trimToPrevious
  cases found : before.getLast? with
  | none =>
    have empty := List.getLast?_eq_none_iff.mp found
    subst empty
    exact .inr ⟨packet, rfl, piece, rfl, rfl, le_refl _, by simp, fun lt => absurd lt (lt_irrefl _)⟩
  | some last =>
    obtain ⟨here, stops⟩ := apart_of_last spread pieces found
    dsimp only
    split
    next overlaps =>
      split
      next inside => exact .inl ⟨rfl, last, here, starts last here, inside⟩
      next reaches =>
        refine .inr ⟨_, rfl, ?_⟩
        rw [ip4TrimPacket_stop]
        exact ⟨piece.trimStart overlaps (by omega), trimStart_head _ _, trimStart_stop _ _,
          by rw [trimStart_start overlaps]; exact overlaps.le, by rw [trimStart_start overlaps]; exact stops,
          fun _ => ⟨last, here, starts last here, trimStart_start overlaps⟩⟩
    next behind =>
      exact .inr ⟨packet, rfl, piece, rfl, rfl, le_refl _, fun f mem => (stops f mem).trans (by omega),
        fun lt => absurd lt (lt_irrefl _)⟩

/-! ### The fragments behind the insertion point -/

theorem removeOverlapped_cases (piece : PieceOf P kept) (pieces : ∀ f ∈ after, PieceOf P f)
    (spread : places.Spread kept.info.start.toNat P.val.length after)
    (fits : ∀ node ∈ after, kept.info.start < node.info.start → node.info.start < kept.info.stop →
      node.info.stop ≤ kept.info.stop) (curLen : Int) :
    (removeOverlapped kept after curLen = (none, after, curLen) ∧
      ∃ f ∈ after, f.info.start ≤ kept.info.start ∧ kept.info.stop ≤ f.info.stop) ∨
    ∃ gone rest, after = gone ++ rest ∧
      removeOverlapped kept after curLen = (some kept, rest, curLen - places.extent gone) ∧
      (∀ f ∈ gone, f.info.stop ≤ kept.info.stop) ∧ places.Spread kept.info.stop.toNat P.val.length rest := by
  induction after generalizing curLen with
  | nil =>
    refine .inr ⟨[], [], rfl, by simp [removeOverlapped, Layout.extent], by simp, ?_⟩
    exact Int.toNat_le.mpr piece.stop_le
  | cons node after ih =>
    have node_ends := (pieces node mem_cons_self).ends
    have kept_ends := piece.ends
    obtain ⟨start_le, lt, rest⟩ := spread
    rw [removeOverlapped]
    split
    next covered =>
      -- The fragment goes; what the loop does with the others is the induction hypothesis.
      rcases ih (fun f mem => pieces f (mem_cons_of_mem _ mem)) (rest.weaken (start_le.trans lt.le))
        (fun f mem => fits f (mem_cons_of_mem _ mem)) (curLen - node.info.length) with
        ⟨_, f, mem, le, _⟩ | ⟨gone, left, rfl, eq, gone_le, spread'⟩
      · have apart := (rest.bounds mem).1
        have := (pieces f (mem_cons_of_mem _ mem)).ends
        omega
      · refine .inr ⟨node :: gone, left, rfl, ?_, ?_, spread'⟩
        · rw [eq, Layout.extent_cons, Nat.cast_add, (pieces node mem_cons_self).extent, Int.sub_sub]
        · exact forall_mem_cons.mpr ⟨covered, gone_le⟩
    next sticks =>
      split
      next overlaps =>
        split
        next same => exact .inl ⟨rfl, node, mem_cons_self, same.ge, by omega⟩
        next behind => exact absurd (fits node mem_cons_self (by omega) overlaps) sticks
      next apart =>
        exact .inr ⟨[], node :: after, rfl, by simp [Layout.extent], by simp, by omega, lt, rest⟩

theorem removeOverlapped_overhang (piece : PieceOf P kept) (pieces : ∀ f ∈ after, PieceOf P f)
    (spread : places.Spread kept.info.start.toNat P.val.length after) (mem : node ∈ after)
    (behind : kept.info.start < node.info.start) (overlaps : node.info.start < kept.info.stop)
    (sticks : kept.info.stop < node.info.stop) (curLen : Int) :
    ∃ cut rest curLen', removeOverlapped kept after curLen = (some cut, rest, curLen') ∧
      cut.info.length ≠ cut.info.stop - cut.info.start := by
  induction after generalizing curLen with
  | nil => cases mem
  | cons first after ih =>
    obtain ⟨start_le, lt, rest⟩ := spread
    rw [removeOverlapped]
    rcases mem_cons.mp mem with rfl | mem
    · rw [if_neg (not_le.mpr sticks), if_pos overlaps, if_neg behind.ne]
      refine ⟨_, _, _, rfl, ?_⟩
      have length := piece.length
      rw [length_ip4TrimPacket _ overlaps]
      dsimp only
      omega
    · -- The fragments before the one that the packet ends in are covered by the packet.
      have apart := (rest.bounds mem).1
      have := (pieces first mem_cons_self).ends
      have := (pieces node (mem_cons_of_mem _ mem)).ends
      rw [if_pos (by omega)]
      exact ih (fun f mem => pieces f (mem_cons_of_mem _ mem)) (rest.weaken (start_le.trans lt.le)) mem _

structure Gathered (P : Payload) (id : PacketId) (received : List Fragment) (entry : AssembleEntry) : Prop where
  id_eq : entry.id = id
  arrived : ∀ p ∈ received, PieceOf P p
  pieces : ∀ f ∈ entry.fragments, PieceOf P f
  spread : places.Spread 0 P.val.length entry.fragments
  curLen : entry.curLen = places.extent entry.fragments
  covers : ∀ i, (∃ f ∈ entry.fragments, places.Covers f i) ↔ ∃ p ∈ received, places.Covers p i
  ended : (∃ p ∈ received, p.info.stop = P.val.length) → entry.totalLen = P.val.length
  open_ : (¬ ∃ p ∈ received, p.info.stop = P.val.length) → entry.totalLen = 0

theorem gathered_created (P : Payload) (id : PacketId) : Gathered P id [] (ip4CreateAssembleEntry id) where
  id_eq := rfl
  arrived := by simp
  pieces := by simp [ip4CreateAssembleEntry]
  spread := Nat.zero_le _
  curLen := rfl
  covers := by simp [ip4CreateAssembleEntry]
  ended := by simp
  open_ := fun _ => rfl

variable {received : List Fragment} {entry : AssembleEntry}

theorem before_append_after (entry : AssembleEntry) (packet : Fragment) :
    entry.before packet ++ entry.after packet = entry.fragments := takeWhile_append_dropWhile

theorem before_start (mem : f ∈ entry.before packet) : f.info.start ≤ packet.info.start := by
  simpa using mem_takeWhile_imp mem

theorem lt_of_mem_dropWhile {start : Int}
    (sorted : fragments.Pairwise fun f g => f.info.start < g.info.start ∧ f.info.stop ≤ g.info.start)
    (mem : f ∈ fragments.dropWhile fun node => node.info.start ≤ start) : start < f.info.start := by
  induction fragments with
  | nil => cases mem
  | cons first rest ih =>
    rw [dropWhile_cons] at mem
    obtain ⟨later, sorted⟩ := pairwise_cons.mp sorted
    split at mem
    · exact ih sorted mem
    next behind =>
      have first_start : start < first.info.start := by simpa using behind
      rcases mem_cons.mp mem with rfl | mem
      · exact first_start
      · exact first_start.trans (later f mem).1

section Arrived

variable (gathered : Gathered P id received entry)
include gathered

namespace Gathered

theorem sound : EntrySound entry where
  sorted := by
    refine gathered.spread.pairwise.imp_of_mem fun {f g} memF memG apart => ?_
    have := (gathered.pieces f memF).ends
    have := (gathered.pieces g memG).ends
    omega
  sizes f mem := ⟨(gathered.pieces f mem).totalSize, (gathered.pieces f mem).length⟩
  total := by
    rw [gathered.curLen, Layout.extent, Nat.cast_list_sum, map_map]
    exact congrArg List.sum (map_congr_left fun f mem => (gathered.pieces f mem).extent)

theorem after_start (mem : f ∈ entry.after packet) : packet.info.start < f.info.start :=
  lt_of_mem_dropWhile gathered.sound.sorted mem

theorem piece_before : ∀ f ∈ entry.before packet, PieceOf P f := fun f mem =>
  gathered.pieces f (by rw [← before_append_after entry packet]; exact mem_append_left _ mem)

theorem piece_after : ∀ f ∈ entry.after packet, PieceOf P f := fun f mem =>
  gathered.pieces f (by rw [← before_append_after entry packet]; exact mem_append_right _ mem)

theorem spread_split (packet : Fragment) :
    ∃ mid, places.Spread 0 mid (entry.before packet) ∧ places.Spread mid P.val.length (entry.after packet) := by
  refine Layout.Spread.split ?_
  rw [before_append_after]
  exact gathered.spread

theorem spread_before (packet : Fragment) : places.Spread 0 P.val.length (entry.before packet) := by
  obtain ⟨mid, left, right⟩ := gathered.spread_split packet
  exact left.shrink (fun f mem => (left.bounds mem).2.2.trans right.le) (Nat.zero_le _)

theorem spread_after (left : Behind P (entry.before packet) packet kept) :
    places.Spread kept.info.start.toNat P.val.length (entry.after packet) := by
  obtain ⟨mid, _, right⟩ := gathered.spread_split packet
  cases eq : entry.after packet with
  | nil =>
    exact Int.toNat_le.mpr (left.piece.start_lt.le.trans left.piece.stop_le)
  | cons first rest =>
    rw [eq] at right
    refine ⟨?_, right.2⟩
    have mem : first ∈ entry.after packet := eq ▸ mem_cons_self
    have behind := gathered.after_start mem
    have := (gathered.piece_after first mem).ends
    by_cases cut : packet.info.start < kept.info.start
    · obtain ⟨f, memF, _, stop⟩ := left.covered cut
      have sorted := gathered.sound.sorted
      rw [← before_append_after entry packet] at sorted
      have apart := (pairwise_append.mp sorted).2.2 f memF first mem
      omega
    · omega

end Gathered

theorem fits_of_not_overhangs
    (left : Behind P (entry.before packet) packet kept) (fits : ¬ Overhangs entry.fragments packet)
    (mem : node ∈ entry.after packet) (behind : kept.info.start < node.info.start)
    (overlaps : node.info.start < kept.info.stop) : node.info.stop ≤ kept.info.stop := by
  by_contra sticks
  have whole := before_append_after entry packet
  refine fits ⟨node, whole ▸ mem_append_right _ mem, gathered.after_start mem, left.stop ▸ overlaps,
    left.stop ▸ not_le.mp sticks, fun prev memPrev start => ?_⟩
  rw [← whole] at memPrev
  rcases mem_append.mp memPrev with memPrev | memPrev
  · exact (left.apart prev memPrev).trans_lt behind
  · exact absurd (gathered.after_start memPrev) (not_lt.mpr start)

namespace Gathered

theorem covers_append (i : Nat) :
    (∃ p ∈ received ++ [packet], places.Covers p i) ↔ (∃ f ∈ entry.fragments, places.Covers f i) ∨
      places.Covers packet i := by
  rw [gathered.covers]
  simp [or_and_right, exists_or]

theorem ended_iff (pos : 0 < P.val.length) :
    (∃ p ∈ received, p.info.stop = P.val.length) ↔ ∃ f ∈ entry.fragments, places.Covers f (P.val.length - 1) := by
  rw [gathered.covers]
  constructor
  · rintro ⟨p, mem, stop⟩
    have := (gathered.arrived p mem).start_lt
    exact ⟨p, mem, ((gathered.arrived p mem).covers_iff _).mpr (by omega)⟩
  · rintro ⟨p, mem, covers⟩
    have := (gathered.arrived p mem).stop_le
    have := ((gathered.arrived p mem).covers_iff _).mp covers
    exact ⟨p, mem, by omega⟩

variable (carries : Carries P id packet)
include carries

theorem arrived_append : ∀ p ∈ received ++ [packet], PieceOf P p :=
  forall_mem_append.mpr ⟨gathered.arrived, forall_mem_singleton.mpr carries.toPieceOf⟩

theorem drop (inside : ∀ i, places.Covers packet i → ∃ f ∈ entry.fragments, places.Covers f i) :
    Gathered P id (received ++ [packet]) entry := by
  have ended : (∃ p ∈ received ++ [packet], p.info.stop = P.val.length) →
      ∃ p ∈ received, p.info.stop = P.val.length := by
    rintro ⟨p, memP, ends⟩
    rcases mem_append.mp memP with memP | memP
    · exact ⟨p, memP, ends⟩
    · rw [mem_singleton.mp memP] at ends
      have := carries.ends
      refine (gathered.ended_iff (by omega)).mpr (inside _ ?_)
      rw [carries.covers_iff]
      omega
  exact
    { gathered with
      arrived := gathered.arrived_append carries
      covers := fun i => by rw [gathered.covers_append, or_iff_left_of_imp (inside i)]
      ended := fun h => gathered.ended (ended h)
      open_ := fun h => gathered.open_ fun ⟨p, memP, ends⟩ => h ⟨p, mem_append_left _ memP, ends⟩ }

theorem covers_queued (left : Behind P (entry.before packet) packet kept) {gone rest : List Fragment}
    (eq : entry.after packet = gone ++ rest) (covered : ∀ f ∈ gone, f.info.stop ≤ kept.info.stop) (i : Nat) :
    (∃ f ∈ entry.before packet ++ kept :: rest, places.Covers f i) ↔
      (∃ f ∈ entry.fragments, places.Covers f i) ∨ places.Covers packet i := by
  have whole : entry.fragments = entry.before packet ++ (gone ++ rest) := by rw [← eq, before_append_after]
  have start_le := left.start_le
  have stop := left.stop
  rw [whole, carries.covers_iff]
  constructor
  · rintro ⟨f, mem, covers⟩
    rcases mem_append.mp mem with mem | mem
    · exact .inl ⟨f, mem_append_left _ mem, covers⟩
    · rcases mem_cons.mp mem with rfl | mem
      · rw [left.piece.covers_iff] at covers
        exact .inr (by omega)
      · exact .inl ⟨f, mem_append_right _ (mem_append_right _ mem), covers⟩
  · rintro (⟨f, mem, covers⟩ | covers)
    · rcases mem_append.mp mem with mem | mem
      · exact ⟨f, mem_append_left _ mem, covers⟩
      · rcases mem_append.mp mem with mem | mem
        · -- A fragment that was removed lies in the packet.
          have memAfter : f ∈ entry.after packet := eq ▸ mem_append_left _ mem
          have from_start := ((gathered.spread_after left).bounds memAfter).1
          have piece := gathered.piece_after f memAfter
          have := piece.ends
          have := covered f mem
          rw [piece.covers_iff] at covers
          exact ⟨kept, by simp, (left.piece.covers_iff i).mpr (by omega)⟩
        · exact ⟨f, by simp [mem], covers⟩
    · by_cases new : kept.info.start ≤ i
      · exact ⟨kept, by simp, (left.piece.covers_iff i).mpr (by omega)⟩
      · obtain ⟨f, mem, start, stop⟩ := left.covered (by omega)
        exact ⟨f, mem_append_left _ mem, ((gathered.piece_before f mem).covers_iff i).mpr (by omega)⟩

theorem queue (left : Behind P (entry.before packet) packet kept) {gone rest : List Fragment}
    (eq : entry.after packet = gone ++ rest) (covered : ∀ f ∈ gone, f.info.stop ≤ kept.info.stop)
    (spread : places.Spread kept.info.stop.toNat P.val.length rest) :
    Gathered P id (received ++ [packet]) (AssembleEntry.noteQueued { entry with
        fragments := entry.before packet ++ kept :: rest
        curLen := entry.curLen - places.extent gone } kept) where
  id_eq := gathered.id_eq
  arrived := gathered.arrived_append carries
  pieces := by
    have later : ∀ f ∈ gone ++ rest, PieceOf P f := eq ▸ gathered.piece_after
    exact forall_mem_append.mpr ⟨gathered.piece_before,
      forall_mem_cons.mpr ⟨left.piece, (forall_mem_append.mp later).2⟩⟩
  spread := by
    have front : places.Spread 0 kept.info.start.toNat (entry.before packet) :=
      (gathered.spread_before packet).shrink
        (fun f mem => Int.toNat_le_toNat (left.apart f mem)) (Nat.zero_le _)
    have := left.piece.ends
    exact front.append ⟨le_refl _, by omega, spread⟩
  curLen := by
    have whole := before_append_after entry packet
    have length := left.piece.extent
    simp only [AssembleEntry.noteQueued, gathered.curLen, ← whole, eq, Layout.extent_append, Layout.extent_cons,
      Nat.cast_add, length]
    omega
  covers i := by
    rw [gathered.covers_append]
    exact gathered.covers_queued carries left eq covered i
  ended := by
    rintro ⟨p, mem, ends⟩
    simp only [AssembleEntry.noteQueued, left.head, carries.last_iff, left.stop]
    split
    next last => exact last.1
    next before =>
      by_cases earlier : ∃ p ∈ received, p.info.stop = P.val.length
      · exact gathered.ended earlier
      · have last : packet.info.stop = P.val.length := by
          rcases mem_append.mp mem with mem | mem
          · exact absurd ⟨p, mem, ends⟩ earlier
          · exact mem_singleton.mp mem ▸ ends
        exact absurd ⟨last, gathered.open_ earlier⟩ before
  open_ := by
    intro unended
    have notLast : packet.info.stop ≠ P.val.length := fun ends => unended ⟨packet, by simp, ends⟩
    simp only [AssembleEntry.noteQueued, left.head, carries.last_iff, notLast, false_and, if_false]
    exact gathered.open_ fun ⟨p, mem, ends⟩ => unended ⟨p, mem_append_left _ mem, ends⟩

end Gathered

theorem Gathered.insert (carries : Carries P id packet) (fits : ¬ Overhangs entry.fragments packet) :
    Gathered P id (received ++ [packet]) (entry.insert packet).1 ∧
      ((entry.insert packet).2 = false → Covered P (received ++ [packet]) → Covered P received) := by
  have dropped (inside : ∀ i, places.Covers packet i → ∃ f ∈ entry.fragments, places.Covers f i) :
      Gathered P id (received ++ [packet]) entry ∧ (false = false → Covered P (received ++ [packet]) →
        Covered P received) := by
    refine ⟨gathered.drop carries inside, fun _ covered i lt => ?_⟩
    rw [← gathered.covers, (gathered.drop carries inside).covers]
    exact covered i lt
  have whole := before_append_after entry packet
  unfold AssembleEntry.insert
  rcases trimToPrevious_cases (gathered.spread_before packet) gathered.piece_before (fun f mem => before_start mem)
    carries.toPieceOf with ⟨trimmed, f, mem, start, stop⟩ | ⟨kept, trimmed, left⟩ <;> rw [trimmed] <;> dsimp only
  · refine dropped fun i covers => ⟨f, whole ▸ mem_append_left _ mem, ?_⟩
    rw [carries.covers_iff] at covers
    rw [(gathered.piece_before f mem).covers_iff]
    omega
  · rcases removeOverlapped_cases left.piece gathered.piece_after (gathered.spread_after left)
      (fun node mem => fits_of_not_overhangs gathered left fits mem) entry.curLen with
      ⟨eq, f, mem, start, stop⟩ | ⟨gone, rest, parts, eq, covered, spread⟩ <;> rw [eq] <;> dsimp only
    · rw [whole]
      refine dropped fun i covers => ?_
      have ends := left.stop
      rw [carries.covers_iff] at covers
      by_cases new : kept.info.start ≤ i
      · exact ⟨f, whole ▸ mem_append_right _ mem, ((gathered.piece_after f mem).covers_iff i).mpr (by omega)⟩
      · obtain ⟨prev, memPrev, startPrev, stopPrev⟩ := left.covered (by omega)
        exact ⟨prev, whole ▸ mem_append_left _ memPrev,
          ((gathered.piece_before prev memPrev).covers_iff i).mpr (by omega)⟩
    · exact ⟨gathered.queue carries left parts covered spread, fun h => absurd h (by simp)⟩

theorem Gathered.insert_overhangs (carries : Carries P id packet) (overhangs : Overhangs entry.fragments packet) :
    (entry.insert packet).1.id = id ∧ (entry.insert packet).2 = true ∧ ¬ EntrySound (entry.insert packet).1 := by
  obtain ⟨node, mem, behind, overlaps, sticks, prevs⟩ := overhangs
  have whole := before_append_after entry packet
  have memAfter : node ∈ entry.after packet := by
    rw [← whole] at mem
    rcases mem_append.mp mem with mem | mem
    · exact absurd (before_start mem) (not_le.mpr behind)
    · exact mem
  unfold AssembleEntry.insert
  rcases trimToPrevious_cases (gathered.spread_before packet) gathered.piece_before (fun f mem => before_start mem)
    carries.toPieceOf with ⟨_, f, memF, start, stop⟩ | ⟨kept, trimmed, left⟩
  · have := prevs f (whole ▸ mem_append_left _ memF) start
    omega
  · have after_kept : kept.info.start < node.info.start := by
      rcases left.start_le.eq_or_lt with same | cut
      · exact same ▸ behind
      · obtain ⟨f, memF, start, stop⟩ := left.covered cut
        exact stop ▸ prevs f (whole ▸ mem_append_left _ memF) start
    obtain ⟨cut, rest, curLen, eq, length⟩ := removeOverlapped_overhang left.piece gathered.piece_after
      (gathered.spread_after left) memAfter after_kept (left.stop ▸ overlaps) (left.stop ▸ sticks) entry.curLen
    rw [trimmed]
    dsimp only
    rw [eq]
    refine ⟨gathered.id_eq, rfl, fun sound => length (sound.sizes cut ?_).2⟩
    simp [AssembleEntry.noteQueued]

/-! ### The datagram is complete -/

theorem Gathered.tiles_iff : places.Tiles 0 P.val.length entry.fragments ↔ Covered P received := by
  rw [gathered.spread.tiles_iff_covers]
  constructor
  · intro covered i lt
    exact (gathered.covers i).mp (covered i (Nat.zero_le i) lt)
  · intro covered i _ lt
    exact (gathered.covers i).mpr (covered i lt)

theorem Gathered.complete_iff (pos : 0 < P.val.length) :
    (entry.totalLen ≠ 0 ∧ entry.totalLen ≤ entry.curLen) ↔ Covered P received := by
  rw [← gathered.tiles_iff, gathered.spread.tiles_iff_extent, gathered.curLen]
  constructor
  · rintro ⟨known, le⟩
    have := gathered.ended (by_contra fun unended => known (gathered.open_ unended))
    omega
  · intro le
    have tiles := gathered.spread.tiles_iff_extent.mpr le
    have ended := gathered.ended ((gathered.ended_iff pos).mpr (tiles.exists_covers (Nat.zero_le _) (by omega)))
    omega

end Arrived

theorem flatten_of_tiles {lo hi : Nat} (tiles : places.Tiles lo hi fragments) (pieces : ∀ f ∈ fragments, PieceOf P f) :
    (fragments.map fun f => f.buffer.bytes).flatten = slice lo (hi - lo) P.val := by
  induction fragments generalizing lo with
  | nil =>
    have : lo = hi := tiles
    simp [this, slice]
  | cons f fragments ih =>
    obtain ⟨rfl, lt, rest⟩ := tiles
    have piece := pieces f mem_cons_self
    have := piece.ends
    have next := rest.le
    have parts : hi - places.first f = f.info.length.toNat + (hi - places.next f) := by omega
    have skip : places.next f = places.first f + f.info.length.toNat := by omega
    rw [map_cons, flatten_cons, ih rest fun g mem => pieces g (mem_cons_of_mem _ mem), piece.bytes, parts, skip,
      slice, slice, slice, take_add, drop_drop]
    rfl

theorem Gathered.wrap (gathered : Gathered P id received entry) (pos : 0 < P.val.length)
    (covered : Covered P received) :
    ∃ packet, entry.wrap available = some packet ∧ packet.blockOp.flatten = P.val ∧
      packet.totalSize = P.val.length ∧ EntrySound packet.arg := by
  have tiles := gathered.tiles_iff.mpr covered
  have ended := gathered.ended ((gathered.ended_iff pos).mpr (tiles.exists_covers (Nat.zero_le _) (by omega)))
  have payload : (netbufFromBufList (entry.fragments.map Fragment.buffer) 0 0).flatten = P.val := by
    rw [flatten_netbufFromBufList, map_map]
    exact (flatten_of_tiles tiles gathered.pieces).trans (slice_zero_of_length rfl)
  unfold AssembleEntry.wrap
  cases found : entry.fragments.getLast? with
  | none =>
    rw [List.getLast?_eq_none_iff.mp found] at tiles
    exact absurd tiles pos.ne
  | some last =>
    have stop : last.info.stop = entry.totalLen := by
      obtain ⟨front, eq⟩ := List.getLast?_eq_some_iff.mp found
      have := (gathered.pieces last (by simp [eq])).ends
      rw [eq] at tiles
      obtain ⟨mid, _, single⟩ := Layout.tiles_append.mp tiles
      have next := (Layout.tiles_singleton.mp single).2.2
      omega
    dsimp only
    rw [if_neg (not_not.mpr stop), if_pos (by rfl)]
    refine ⟨_, rfl, payload, ?_, gathered.sound⟩
    dsimp only
    rw [payload, Nat.mod_eq_of_lt P.property]

theorem wrap_arg {memory : Memory} {delivered : Assembled} (wrapped : entry.wrap memory = some delivered) :
    delivered.arg = entry := by
  unfold AssembleEntry.wrap at wrapped
  split at wrapped
  · cases wrapped
  · split_ifs at wrapped
    cases wrapped
    rfl

variable {table : AssembleTable}

def current (table : AssembleTable) (id : PacketId) : AssembleEntry :=
  (stored table id).getD (ip4CreateAssembleEntry id)

def Lone (table : AssembleTable) (id : PacketId) : Prop :=
  (table (ip4AssembleHash id)).countP (fun entry => entry.id = id) ≤ 1

theorem findEntry_available (lone : Lone table id) :
    ∃ front rest, findEntry available id (table (ip4AssembleHash id)) = some (front, current table id, rest) ∧
      (∀ entry ∈ front, entry.id ≠ id) ∧ ∀ entry ∈ rest, entry.id ≠ id := by
  unfold findEntry current stored
  unfold Lone at lone
  generalize table (ip4AssembleHash id) = bucket at lone ⊢
  have parts := takeWhile_append_dropWhile (p := fun entry : AssembleEntry => decide (entry.id ≠ id)) (l := bucket)
  have front : ∀ entry ∈ bucket.takeWhile fun entry => decide (entry.id ≠ id), entry.id ≠ id := fun entry mem => by
    simpa using mem_takeWhile_imp mem
  cases eq : bucket.dropWhile fun entry => decide (entry.id ≠ id) with
  | nil =>
    rw [eq, append_nil] at parts
    rw [parts] at front
    have missing : bucket.find? (fun entry => decide (entry.id = id)) = none := by
      rw [List.find?_eq_none]
      simpa using front
    rw [missing]
    exact ⟨[], bucket, rfl, by simp, front⟩
  | cons entry rest =>
    have isEntry : entry.id = id := by
      have fails := List.head?_dropWhile_not (fun entry : AssembleEntry => decide (entry.id ≠ id)) bucket
      rw [eq] at fails
      simpa using fails
    rw [eq] at parts
    have found : bucket.find? (fun entry => decide (entry.id = id)) = some entry := by
      rw [← parts, List.find?_append, List.find?_eq_none.mpr (by simpa using front)]
      simp [isEntry]
    rw [found]
    refine ⟨_, rest, rfl, front, fun other mem isId => ?_⟩
    have twice : 0 < rest.countP fun entry => decide (entry.id = id) := countP_pos_iff.mpr ⟨other, mem, by simpa⟩
    rw [← parts, countP_append, countP_cons] at lone
    simp only [isEntry, decide_true, if_true] at lone
    omega

def Completes (inserted : AssembleEntry × Bool) : Prop :=
  inserted.2 = true ∧ inserted.1.totalLen ≠ 0 ∧ inserted.1.totalLen ≤ inserted.1.curLen

theorem ip4Reassemble_cases (lone : Lone table id) (carries : packet.head.toPacketId = id)
    (keeps : ((current table id).insert packet).1.id = id) :
    (Completes ((current table id).insert packet) ∧
      (ip4Reassemble available table packet).1 = ((current table id).insert packet).1.wrap available ∧
      stored (ip4Reassemble available table packet).2 id = none) ∨
    (¬ Completes ((current table id).insert packet) ∧
      (ip4Reassemble available table packet).1 = none ∧
      stored (ip4Reassemble available table packet).2 id = some ((current table id).insert packet).1 ∧
      Lone (ip4Reassemble available table packet).2 id) := by
  obtain ⟨front, rest, found, outFront, outRest⟩ := findEntry_available lone
  unfold ip4Reassemble
  dsimp only
  rw [carries, found]
  dsimp only
  split
  next complete =>
    refine .inl ⟨complete, rfl, ?_⟩
    dsimp only
    rw [stored, Function.update_self, List.find?_eq_none]
    exact forall_mem_append.mpr ⟨by simpa using outFront, by simpa using outRest⟩
  next waiting =>
    refine .inr ⟨waiting, rfl, ?_, ?_⟩ <;> dsimp only
    · rw [stored, Function.update_self, List.find?_append, List.find?_eq_none.mpr (by simpa using outFront)]
      simp [keeps]
    · rw [Lone, Function.update_self, countP_append, countP_cons,
        countP_eq_zero.mpr (by simpa using outFront), countP_eq_zero.mpr (by simpa using outRest)]
      split <;> omega

/-! ### One call, and a run of calls -/

theorem Gathered.answers (gathered : Gathered P id received (current table id)) (lone : Lone table id)
    (carries : Carries P id packet) (uncovered : ¬ Covered P received)
    (fits : ¬ Overhangs (current table id).fragments packet) :
    Answers P id (received ++ [packet]) (ip4Reassemble available table packet) ∧
      (¬ Covered P (received ++ [packet]) →
        Gathered P id (received ++ [packet]) (current (ip4Reassemble available table packet).2 id) ∧
          Lone (ip4Reassemble available table packet).2 id) := by
  obtain ⟨next, dropped⟩ := gathered.insert carries fits
  have pos : 0 < P.val.length := by
    have := carries.ends
    omega
  rcases ip4Reassemble_cases lone carries.id_eq next.id_eq with
    ⟨complete, result, _⟩ | ⟨waiting, result, entry, alone⟩
  · have covered := (next.complete_iff pos).mp complete.2
    refine ⟨⟨fun h => absurd covered h, fun _ => ?_⟩, fun h => absurd covered h⟩
    rw [result]
    exact next.wrap pos covered
  · have open_ : ¬ Covered P (received ++ [packet]) := by
      intro covered
      refine waiting ⟨?_, (next.complete_iff pos).mpr covered⟩
      by_contra lost
      exact uncovered (dropped (Bool.not_eq_true _ ▸ lost) covered)
    refine ⟨⟨fun _ => ⟨result, _, entry, next.sound⟩, fun h => absurd h open_⟩, fun _ => ⟨?_, alone⟩⟩
    rw [current, entry]
    exact next

theorem Gathered.not_answers (gathered : Gathered P id received (current table id)) (lone : Lone table id)
    (carries : Carries P id packet) (overhangs : Overhangs (current table id).fragments packet) :
    ¬ Answers P id (received ++ [packet]) (ip4Reassemble available table packet) := by
  intro answers
  obtain ⟨keeps, _, unsound⟩ := gathered.insert_overhangs carries overhangs
  by_cases covered : Covered P (received ++ [packet])
  · obtain ⟨delivered, some_, _, _, sound⟩ := answers.delivers covered
    rcases ip4Reassemble_cases lone carries.id_eq keeps with ⟨_, result, _⟩ | ⟨_, result, _⟩
    · rw [result] at some_
      exact unsound (wrap_arg some_ ▸ sound)
    · rw [result] at some_
      cases some_
  · obtain ⟨_, entry, some_, sound⟩ := answers.waits covered
    rcases ip4Reassemble_cases lone carries.id_eq keeps with ⟨_, _, result⟩ | ⟨_, _, result, _⟩
    · rw [result] at some_
      cases some_
    · rw [result] at some_
      exact unsound (Option.some.inj some_ ▸ sound)

theorem tableAfter_append (table : AssembleTable) (sent : List Fragment) (packet : Fragment) :
    tableAfter table (sent ++ [packet]) = (ip4Reassemble available (tableAfter table sent) packet).2 := by
  rw [tableAfter, foldl_append]
  rfl

theorem Covered.append {sent : List Fragment} (covered : Covered P sent) : Covered P (sent ++ [packet]) := by
  intro i lt
  obtain ⟨p, mem, covers⟩ := covered i lt
  exact ⟨p, mem_append_left _ mem, covers⟩

variable {packets : List Fragment}

theorem gathered_run (fresh : stored table id = none) (carries : ∀ p ∈ packets, Carries P id p)
    (fits : ∀ sent packet, sent ++ [packet] <+: packets → ¬ Covered P sent →
      Gathered P id sent (current (tableAfter table sent) id) → Lone (tableAfter table sent) id →
      ¬ Overhangs (current (tableAfter table sent) id).fragments packet)
    (sent : List Fragment) (before : sent <+: packets) (uncovered : ¬ Covered P sent) :
    Gathered P id sent (current (tableAfter table sent) id) ∧ Lone (tableAfter table sent) id := by
  induction sent using List.reverseRecOn with
  | nil =>
    constructor
    · rw [tableAfter, foldl_nil, current, fresh]
      exact gathered_created P id
    · rw [stored, List.find?_eq_none] at fresh
      rw [tableAfter, foldl_nil, Lone, countP_eq_zero.mpr fresh]
      exact Nat.zero_le 1
  | append_singleton sent packet ih =>
    have uncovered' : ¬ Covered P sent := fun covered => uncovered covered.append
    obtain ⟨gathered, lone⟩ := ih ((prefix_append _ _).trans before) uncovered'
    have carried := carries packet (before.subset (by simp))
    rw [tableAfter_append]
    exact (gathered.answers lone carried uncovered' (fits sent packet before uncovered' gathered lone)).2 uncovered

/-- The fragments of a datagram are put together as they have to be until its payload is delivered if and only if none
    of them overhangs the fragments stored when it arrives. -/
theorem reassembles_iff (P : Payload) (id : PacketId) (table : AssembleTable) (packets : List Fragment)
    (fresh : stored table id = none) (carries : ∀ p ∈ packets, Carries P id p) :
    (∀ sent packet, sent ++ [packet] <+: packets → ¬ Covered P sent →
      Answers P id (sent ++ [packet]) (ip4Reassemble available (tableAfter table sent) packet)) ↔
    ∀ sent packet, sent ++ [packet] <+: packets → ¬ Covered P sent →
      ¬ Overhangs (current (tableAfter table sent) id).fragments packet := by
  have carried {sent : List Fragment} {packet : Fragment} (before : sent ++ [packet] <+: packets) :
      Carries P id packet :=
    carries packet (before.subset (by simp))
  constructor
  · intro answers sent packet before uncovered
    have fits := fun sent packet before uncovered gathered lone overhangs =>
      Gathered.not_answers gathered lone (carried before) overhangs (answers sent packet before uncovered)
    obtain ⟨gathered, lone⟩ :=
      gathered_run fresh carries fits sent ((prefix_append _ _).trans before) uncovered
    exact fits sent packet before uncovered gathered lone
  · intro fits sent packet before uncovered
    obtain ⟨gathered, lone⟩ := gathered_run fresh carries
      (fun sent packet before uncovered _ _ => fits sent packet before uncovered) sent
      ((prefix_append _ _).trans before) uncovered
    exact (gathered.answers lone (carried before) uncovered (fits sent packet before uncovered)).1

end Reassembly

/-! ### A datagram of four bytes -/

def fourBytes : Payload := ⟨[1, 2, 3, 4], by decide⟩

def someId : PacketId := ⟨1, 2, 3, 17⟩

theorem piece_size_lt (start stop : Nat) : [slice start (stop - start) [1, 2, 3, 4]].flatten.length < 2 ^ 32 := by
  simp [slice]
  omega

def pieceOfFour (start stop : Nat) : Fragment where
  buffer := ⟨[slice start (stop - start) [1, 2, 3, 4]], piece_size_lt start stop⟩
  head := { someId with fragment := if stop = 4 then 0 else 0x2000 }
  info := ⟨start, stop, stop - start⟩

theorem carries_pieceOfFour {start stop : Nat} (lt : start < stop) (le : stop ≤ 4) :
    Carries fourBytes someId (pieceOfFour start stop) where
  start_nonneg := Int.natCast_nonneg start
  start_lt := by simpa [pieceOfFour] using lt
  stop_le := by simpa [pieceOfFour, fourBytes] using le
  length := rfl
  bytes := by
    have length : (pieceOfFour start stop).info.length.toNat = stop - start := by
      change ((stop : Int) - start).toNat = _
      omega
    rw [length]
    exact flatten_singleton
  id_eq := rfl
  last_iff := by
    by_cases ends : stop = 4
    · subst ends
      have last : ip4LastFragment 0 = true := by decide
      exact ⟨fun _ => rfl, fun _ => last⟩
    · have fails : (stop : Int) ≠ 4 := by omega
      simp [pieceOfFour, ends, fourBytes, fails]
      decide

theorem reassembles_iff_halves : (∀ p ∈ [pieceOfFour 2 4, pieceOfFour 0 2], Carries fourBytes someId p) ∧
      ∀ sent packet, sent ++ [packet] <+: [pieceOfFour 2 4, pieceOfFour 0 2] → ¬ Covered fourBytes sent →
        Answers fourBytes someId (sent ++ [packet]) (ip4Reassemble available (tableAfter (fun _ => []) sent)
          packet) := by
  have carried : ∀ p ∈ [pieceOfFour 2 4, pieceOfFour 0 2], Carries fourBytes someId p :=
    forall_mem_cons.mpr ⟨carries_pieceOfFour (by decide) (by decide),
      forall_mem_singleton.mpr (carries_pieceOfFour (by decide) (by decide))⟩
  refine ⟨carried, (reassembles_iff fourBytes someId (fun _ => []) [pieceOfFour 2 4, pieceOfFour 0 2] rfl carried).mpr
    ?_⟩
  rintro sent packet ⟨rest, eq⟩ -
  match sent, eq with
  | [], eq =>
    obtain ⟨rfl, _⟩ := List.cons.inj eq
    decide
  | [_], eq =>
    obtain ⟨rfl, next⟩ := List.cons.inj eq
    obtain ⟨rfl, _⟩ := List.cons.inj next
    decide
  | _ :: _ :: _, eq => simp at eq

/-- The second fragment ends in the first one: its bytes are lost, and half of the payload is delivered. -/
theorem overlap_loses_bytes : (∀ p ∈ [pieceOfFour 2 4, pieceOfFour 0 3], Carries fourBytes someId p) ∧
      ¬ Covered fourBytes [pieceOfFour 2 4] ∧ Covered fourBytes [pieceOfFour 2 4, pieceOfFour 0 3] ∧
      ((ip4Reassemble available (tableAfter (fun _ => []) [pieceOfFour 2 4]) (pieceOfFour 0 3)).1.map
        fun packet => packet.blockOp.flatten) = some [3, 4] := by
  refine ⟨forall_mem_cons.mpr ⟨?_, forall_mem_singleton.mpr ?_⟩, ?_, ?_, by decide⟩
  · exact carries_pieceOfFour (by decide) (by decide)
  · exact carries_pieceOfFour (by decide) (by decide)
  · unfold Covered
    decide
  · unfold Covered
    decide

end LeoEdk.Network
