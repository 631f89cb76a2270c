import LeoEdk.Network.NetBuffer

/-!
The reassembly of IPv4 fragments (`Ip4Input.c`).

A fragment is a net buffer with its header and the place of its bytes in the datagram. The linked lists are lists, in
the order of their links. Places and lengths are integers, as the code's `INTN`.
-/

namespace LeoEdk.Network

structure PacketId where
  dst : UInt32
  src : UInt32
  id : UInt16
  protocol : UInt8
deriving DecidableEq

/-- The fields of an `IP4_HEAD` that the reassembly reads, in host order. -/
structure Ip4Head extends PacketId where
  fragment : UInt16
deriving DecidableEq

/-- `IP4_LAST_FRAGMENT`: the more-fragments bit is clear. -/
def ip4LastFragment (fragment : UInt16) : Bool := fragment &&& 0x2000 == 0

structure ClipInfo where
  start : Int
  stop : Int
  length : Int
deriving DecidableEq

structure Fragment where
  buffer : NetBuf
  head : Ip4Head
  info : ClipInfo

structure AssembleEntry where
  id : PacketId
  totalLen : Int
  curLen : Int
  fragments : List Fragment
  head : Option Ip4Head
  info : Option ClipInfo

def ip4CreateAssembleEntry (id : PacketId) : AssembleEntry :=
  { id, totalLen := 0, curLen := 0, fragments := [], head := none, info := none }

abbrev AssembleTable := Fin 31 → List AssembleEntry

def ip4AssembleHash (id : PacketId) : Fin 31 :=
  Fin.ofNat 31 (id.dst + id.src + (id.id.toUInt32 <<< 16) + id.protocol.toUInt32).toNat

def toUint32 (len : Int) : Nat := (len % 2 ^ 32).toNat

def trimStart (packet : Fragment) (start : Int) : Fragment :=
  if packet.info.start < start then
    let len := start - packet.info.start
    { packet with
      buffer := netbufTrim packet.buffer (toUint32 len) true
      info := { packet.info with start, length := packet.info.length - len } }
  else packet

/-- The second half of `Ip4TrimPacket`. The length is negative here. -/
def trimStop (packet : Fragment) (stop : Int) : Fragment :=
  if stop < packet.info.stop then
    let len := stop - packet.info.stop
    { packet with
      buffer := netbufTrim packet.buffer (toUint32 len) false
      info := { packet.info with stop, length := packet.info.length - len } }
  else packet

def ip4TrimPacket (packet : Fragment) (start stop : Int) : Fragment := trimStop (trimStart packet start) stop

def trimToPrevious (before : List Fragment) (packet : Fragment) : Option Fragment :=
  match before.getLast? with
  | none => some packet
  | some node =>
    if packet.info.start < node.info.stop then
      if packet.info.stop ≤ node.info.stop then none
      else some (ip4TrimPacket packet node.info.stop packet.info.stop)
    else some packet

/-- The loop over the fragments behind the insertion point, with `CurLen`; no packet if it is dropped. -/
def removeOverlapped (packet : Fragment) : List Fragment → Int → Option Fragment × List Fragment × Int
  | [], curLen => (some packet, [], curLen)
  | node :: after, curLen =>
    if node.info.stop ≤ packet.info.stop then removeOverlapped packet after (curLen - node.info.length)
    else if node.info.start < packet.info.stop then
      if packet.info.start = node.info.start then (none, node :: after, curLen)
      else (some (ip4TrimPacket packet packet.info.start node.info.start), node :: after, curLen)
    else (some packet, node :: after, curLen)

def AssembleEntry.noteQueued (entry : AssembleEntry) (packet : Fragment) : AssembleEntry :=
  { entry with
    curLen := entry.curLen + packet.info.length
    head := if packet.info.start = 0 then some packet.head else entry.head
    info := if packet.info.start = 0 then some packet.info else entry.info
    totalLen :=
      if ip4LastFragment packet.head.fragment ∧ entry.totalLen = 0 then packet.info.stop else entry.totalLen }

def AssembleEntry.before (entry : AssembleEntry) (packet : Fragment) : List Fragment :=
  entry.fragments.takeWhile fun node => node.info.start ≤ packet.info.start

def AssembleEntry.after (entry : AssembleEntry) (packet : Fragment) : List Fragment :=
  entry.fragments.dropWhile fun node => node.info.start ≤ packet.info.start

def AssembleEntry.insert (entry : AssembleEntry) (packet : Fragment) : AssembleEntry × Bool :=
  match trimToPrevious (entry.before packet) packet with
  | none => (entry, false)
  | some this =>
    match removeOverlapped this (entry.after packet) entry.curLen with
    | (none, after, curLen) => ({ entry with fragments := entry.before packet ++ after, curLen }, false)
    | (some this, after, curLen) =>
      (AssembleEntry.noteQueued { entry with fragments := entry.before packet ++ this :: after, curLen } this, true)

structure Assembled where
  blockOp : List Bytes
  totalSize : Nat
  head : Option Ip4Head
  info : Option ClipInfo
  arg : AssembleEntry

structure Memory where
  entry : Bool
  nbuf : Bool

def AssembleEntry.wrap (entry : AssembleEntry) (memory : Memory) : Option Assembled :=
  match entry.fragments.getLast? with
  | none => none
  | some last =>
    if last.info.stop ≠ entry.totalLen then none
    else if memory.nbuf then
      let blockOp := netbufFromBufList (entry.fragments.map Fragment.buffer) 0 0
      some
        { blockOp, totalSize := blockOp.flatten.length % 2 ^ 32, head := entry.head, info := entry.info, arg := entry }
    else none

def findEntry (memory : Memory) (id : PacketId) (bucket : List AssembleEntry) :
    Option (List AssembleEntry × AssembleEntry × List AssembleEntry) :=
  match bucket.dropWhile fun entry => entry.id ≠ id with
  | entry :: rest => some (bucket.takeWhile fun entry => entry.id ≠ id, entry, rest)
  | [] => if memory.entry then some ([], ip4CreateAssembleEntry id, bucket) else none

def ip4Reassemble (memory : Memory) (table : AssembleTable) (packet : Fragment) : Option Assembled × AssembleTable :=
  let index := ip4AssembleHash packet.head.toPacketId
  match findEntry memory packet.head.toPacketId (table index) with
  | none => (none, table)
  | some (front, entry, rest) =>
    let (entry, queued) := entry.insert packet
    if queued ∧ entry.totalLen ≠ 0 ∧ entry.totalLen ≤ entry.curLen then
      (entry.wrap memory, Function.update table index (front ++ rest))
    else (none, Function.update table index (front ++ entry :: rest))

end LeoEdk.Network
