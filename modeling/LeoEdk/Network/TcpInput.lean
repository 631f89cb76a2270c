import LeoEdk.Lib.SeqSpace
import LeoEdk.Network.NetBuffer

/-!
The receive side of TCP (`TcpInput.c`): a segment of a connected peer is trimmed to the receive window and queued, and
what is next in sequence is delivered to the socket.

Sequence numbers are `UINT32` and compared by the sign of their difference. The segment has lost its header
(`Nbuf->Tcp` is null); of the socket only what it is handed is kept. When an acknowledgement is due is not followed.
-/

namespace LeoEdk.Network.Tcp

open SeqSpace

structure Nbuf where
  seq : UInt32
  endSeq : UInt32
  syn : Bool
  fin : Bool
  urgFlag : Bool
  urg : UInt16
  data : NetBuf

def Bool.count (b : Bool) : Nat := if b then 1 else 0

def tcpVerifySegment (nbuf : Nbuf) : Bool :=
  nbuf.seq + UInt32.ofNat (nbuf.data.totalSize + Bool.count nbuf.syn + Bool.count nbuf.fin) == nbuf.endSeq

def truncate (nbuf : Nbuf) : Nbuf :=
  { nbuf with
    syn := false
    fin := false
    seq := nbuf.endSeq
    data := netbufTrim nbuf.data nbuf.data.totalSize true }

def trimHead (nbuf : Nbuf) (left : UInt32) : Nbuf :=
  if before nbuf.seq left then
    let drop := (left - nbuf.seq).toNat - Bool.count nbuf.syn
    let urgent := nbuf.seq + nbuf.urg.toUInt32
    { nbuf with
      seq := left
      syn := false
      urgFlag := nbuf.urgFlag && !before urgent left
      urg := if nbuf.urgFlag && !before urgent left then (urgent - left).toUInt16 else nbuf.urg
      data := if drop ≠ 0 then netbufTrim nbuf.data drop true else nbuf.data }
  else nbuf

def trimTail (nbuf : Nbuf) (right : UInt32) : Nbuf :=
  if before right nbuf.endSeq then
    let drop := (nbuf.endSeq - right).toNat - Bool.count nbuf.fin
    { nbuf with
      endSeq := right
      fin := false
      data := if drop ≠ 0 then netbufTrim nbuf.data drop false else nbuf.data }
  else nbuf

def tcpTrimSegment (nbuf : Nbuf) (left right : UInt32) : Nbuf × Bool :=
  if notAfter nbuf.endSeq left || notAfter right nbuf.seq then (truncate nbuf, true)
  else
    let nbuf := trimTail (trimHead nbuf left) right
    (nbuf, tcpVerifySegment nbuf)

/-! ### The reassembly queue -/

def settle (nbuf : Nbuf) : List Nbuf → Option Nbuf × List Nbuf × Bool
  | [] => (some nbuf, [], true)
  | node :: rest =>
    if notAfter node.endSeq nbuf.endSeq then settle nbuf rest
    else if before node.seq nbuf.endSeq then
      if notAfter node.seq nbuf.seq then (none, node :: rest, true)
      else
        let (nbuf, good) := tcpTrimSegment nbuf nbuf.seq node.seq
        (if good then some nbuf else none, node :: rest, good)
    else
      let (nbuf, rest, good) := settle nbuf rest
      (nbuf, node :: rest, good)

def insertBetween (front : List Nbuf) (nbuf : Nbuf) (rest : List Nbuf) : List Nbuf × Bool :=
  let (nbuf, rest, good) := settle nbuf rest
  (front ++ nbuf.toList ++ rest, good)

def tcpQueueData (que : List Nbuf) (nbuf : Nbuf) : List Nbuf × Bool :=
  match que with
  | [] => ([nbuf], true)
  | que =>
    let front := que.takeWhile fun node => !before nbuf.seq node.seq
    let rest := que.dropWhile fun node => !before nbuf.seq node.seq
    match front.getLast? with
    | none => insertBetween front nbuf rest
    | some node =>
      if before nbuf.seq node.endSeq then
        if notAfter nbuf.endSeq node.endSeq then (que, true)
        else
          let (nbuf, good) := tcpTrimSegment nbuf node.endSeq nbuf.endSeq
          if good then insertBetween front nbuf rest else (que, false)
      else insertBetween front nbuf rest

inductive State where
  | closed | listen | synSent | synRcvd | established | finWait1 | finWait2 | closing | timeWait | closeWait | lastAck
  deriving DecidableEq, Repr

namespace State

def connected : State → Bool
  | closed | listen | synSent | synRcvd => false
  | established | finWait1 | finWait2 | closing | timeWait | closeWait | lastAck => true

def finRcvd : State → Bool
  | closeWait | lastAck | closing | timeWait => true
  | closed | listen | synSent | synRcvd | established | finWait1 | finWait2 => false

def localClosed : State → Bool
  | finWait1 | finWait2 | closing | timeWait | lastAck => true
  | closed | listen | synSent | synRcvd | established | closeWait => false

end State

/-- What the socket is handed: data with the number of its urgent bytes, or the end of the data. -/
inductive SockEvent where
  | dataRcvd (data : Bytes) (urgent : Nat)
  | noMoreData
  deriving DecidableEq, Repr

structure Tcb where
  state : State
  rcvNxt : UInt32
  rcvWl2 : UInt32
  rcvWnd : UInt32
  rcvQue : List Nbuf
  /-- `TCP_CTRL_FIN_ACKED` and `TCP_CTRL_RCVD_URG` of `CtrlFlag`. -/
  finAcked : Bool
  rcvdUrg : Bool
  rcvUp : UInt32
  timeWaitTimeout : Nat
  sock : List SockEvent

def finState (tcb : Tcb) : Option State :=
  let waiting := if tcb.timeWaitTimeout ≠ 0 then State.timeWait else .closed
  match tcb.state with
  | .synRcvd | .established => some .closeWait
  | .finWait1 => if !tcb.finAcked then some .closing else some waiting
  | .finWait2 => some waiting
  | .closeWait | .closing | .lastAck | .timeWait => none
  | .closed | .listen | .synSent => some tcb.state

def urgentBytes (tcb : Tcb) (nbuf : Nbuf) (endSeq : UInt32) : Nat :=
  if tcb.rcvdUrg && notAfter nbuf.seq tcb.rcvUp then
    if notAfter endSeq tcb.rcvUp then nbuf.data.totalSize else ((tcb.rcvUp - nbuf.seq) + 1).toNat
  else 0

def handOver (tcb : Tcb) (nbuf : Nbuf) (endSeq : UInt32) : Tcb :=
  let tcb :=
    if nbuf.data.totalSize ≠ 0 then
      { tcb with sock := tcb.sock ++ [.dataRcvd nbuf.data.bytes (urgentBytes tcb nbuf endSeq)] }
    else tcb
  if tcb.state.finRcvd then { tcb with sock := tcb.sock ++ [.noMoreData] } else tcb

inductive Delivery where
  | done
  /-- A segment whose ends do not fit its data. -/
  | broken
  /-- Data or a second FIN behind a FIN. -/
  | junk
  deriving DecidableEq, Repr

def deliverLoop (tcb : Tcb) : List Nbuf → Tcb × Delivery
  | [] => ({ tcb with rcvQue := [] }, .done)
  | nbuf :: rest =>
    if !tcpVerifySegment nbuf then ({ tcb with rcvQue := nbuf :: rest }, .broken)
    else if before tcb.rcvNxt nbuf.seq then ({ tcb with rcvQue := nbuf :: rest }, .done)
    else
      let tcb := { tcb with rcvNxt := nbuf.endSeq, rcvQue := rest }
      if nbuf.fin then
        if !rest.isEmpty then (tcb, .junk)
        else match finState tcb with
          | none => (tcb, .junk)
          | some state => deliverLoop (handOver { tcb with state } nbuf (nbuf.endSeq - 1)) rest
      else deliverLoop (handOver tcb nbuf nbuf.endSeq) rest

def tcpDeliverData (tcb : Tcb) : Tcb × Delivery :=
  if tcb.rcvQue.isEmpty || !tcb.state.connected then (tcb, .done) else deliverLoop tcb tcb.rcvQue

def Tcb.rightEdge (tcb : Tcb) : UInt32 := tcb.rcvWl2 + tcb.rcvWnd

def tcpSeqAcceptable (tcb : Tcb) (nbuf : Nbuf) : Bool :=
  notAfter tcb.rcvNxt nbuf.endSeq && before nbuf.seq tcb.rightEdge

def tcpTrimInWnd (tcb : Tcb) (nbuf : Nbuf) : Nbuf × Bool := tcpTrimSegment nbuf tcb.rcvNxt tcb.rightEdge

def tcpRcvWinOld (tcb : Tcb) : UInt32 := if before tcb.rcvNxt tcb.rightEdge then tcb.rightEdge - tcb.rcvNxt else 0

/-- `TcpRcvWinNow`: the window to advertise, for a socket with the given free space and receive buffer. -/
def tcpRcvWinNow (tcb : Tcb) (freeSpace rcvBuffSize sndMss : UInt32) : UInt32 :=
  let oldWin := tcpRcvWinOld tcb
  let increase := if oldWin < freeSpace then freeSpace - oldWin else 0
  if sndMss < increase ∨ rcvBuffSize ≤ 2 * increase then freeSpace else oldWin

/-- What an outgoing segment does to the receive window (`TcpComputeWnd` and the end of `TcpTransmitSegment`). -/
def advertise (tcb : Tcb) (freeSpace rcvBuffSize sndMss : UInt32) : Tcb :=
  { tcb with rcvWnd := tcpRcvWinNow tcb freeSpace rcvBuffSize sndMss, rcvWl2 := tcb.rcvNxt }

inductive Outcome where
  /-- The segment was discarded or processed; the connection goes on. -/
  | continued
  /-- One of the exits for a broken segment. -/
  | broken
  | reset
  deriving DecidableEq, Repr

/-- The way of a segment through `TcpInput` in a connected state, as far as its data and FIN are concerned. -/
def tcpInputData (tcb : Tcb) (nbuf : Nbuf) : Tcb × Outcome :=
  if !tcpSeqAcceptable tcb nbuf then (tcb, .continued)
  else
    let (nbuf, good) := tcpTrimInWnd tcb nbuf
    if !good then (tcb, .broken)
    else if nbuf.endSeq = nbuf.seq then (tcb, .continued)
    else if tcb.state.finRcvd then (tcb, .reset)
    else if tcb.state.localClosed && nbuf.data.totalSize ≠ 0 then (tcb, .reset)
    else
      let (rcvQue, good) := tcpQueueData tcb.rcvQue nbuf
      if !good then ({ tcb with rcvQue }, .broken)
      else
        match tcpDeliverData { tcb with rcvQue } with
        | (tcb, .done) => (tcb, .continued)
        | (tcb, .broken) => (tcb, .broken)
        | (tcb, .junk) => (tcb, .reset)

end LeoEdk.Network.Tcp
