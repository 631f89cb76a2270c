import LeoEdk.Theorems.TcpSegments

/-! What the receive side of a connection hands to its socket. `Receiver` is the invariant: `RcvNxt` stands behind
    what the socket has, and the queue is a chain in the window. Segments that are near and local moves keep it. -/

namespace LeoEdk.Network.Tcp

open SeqSpace List

variable {stream : Bytes} {base : UInt32} {tcb : Tcb} {nbuf : Nbuf} {R W p q hi : Nat}

namespace State

def receiving : State → Bool
  | established | finWait1 | finWait2 => true
  | closed | listen | synSent | synRcvd | closing | timeWait | closeWait | lastAck => false

def finDelivered : State → Bool
  | closeWait | lastAck | closing | timeWait | closed => true
  | listen | synSent | synRcvd | established | finWait1 | finWait2 => false

theorem receiving_of_connected {state : State} (connected : state.connected = true) (fin : state.finRcvd = false) :
    state.receiving = true := by
  cases state <;> trivial

theorem finDelivered_eq_false {state : State} (receiving : state.receiving = true) : state.finDelivered = false := by
  cases state <;> trivial

end State

def SockEvent.bytes : SockEvent → Bytes
  | dataRcvd data _ => data
  | noMoreData => []

def Tcb.received (tcb : Tcb) : Bytes := tcb.sock.flatMap SockEvent.bytes

@[simp] theorem handOver_rcvNxt (tcb : Tcb) (nbuf : Nbuf) (endSeq : UInt32) :
    (handOver tcb nbuf endSeq).rcvNxt = tcb.rcvNxt := by
  unfold handOver
  dsimp only
  split_ifs <;> rfl

@[simp] theorem handOver_state (tcb : Tcb) (nbuf : Nbuf) (endSeq : UInt32) :
    (handOver tcb nbuf endSeq).state = tcb.state := by
  unfold handOver
  dsimp only
  split_ifs <;> rfl

@[simp] theorem handOver_rightEdge (tcb : Tcb) (nbuf : Nbuf) (endSeq : UInt32) :
    (handOver tcb nbuf endSeq).rightEdge = tcb.rightEdge := by
  unfold handOver
  dsimp only
  split_ifs <;> rfl

@[simp] theorem received_handOver (tcb : Tcb) (nbuf : Nbuf) (endSeq : UInt32) :
    (handOver tcb nbuf endSeq).received = tcb.received ++ nbuf.data.bytes := by
  have empty (none : ¬ nbuf.data.totalSize ≠ 0) : nbuf.data.bytes = [] :=
    length_eq_zero_iff.1 (Decidable.not_not.1 none)
  unfold handOver
  dsimp only
  by_cases none : nbuf.data.totalSize ≠ 0
  · simp only [if_pos none]
    split <;> simp [Tcb.received, SockEvent.bytes]
  · simp only [if_neg none]
    split <;> simp [Tcb.received, SockEvent.bytes, empty none]

theorem finState_of_receiving (receiving : tcb.state.receiving = true) :
    ∃ state, finState tcb = some state ∧ state.finDelivered = true := by
  unfold finState
  cases state : tcb.state <;> rw [state] at receiving <;> simp only <;> try cases receiving
  · exact ⟨_, rfl, rfl⟩
  · split
    · exact ⟨_, rfl, rfl⟩
    · exact ⟨_, rfl, by split <;> rfl⟩
  · exact ⟨_, rfl, by split <;> rfl⟩

/-- `R` is the position of `RcvNxt`, and the socket has what is in front of it. -/
structure InStep (stream : Bytes) (base : UInt32) (tcb : Tcb) (R : Nat) : Prop where
  next : tcb.rcvNxt = numberAt base R
  low : 1 ≤ R
  received : tcb.received = between stream 1 R
  state : tcb.state.receiving = true ∧ R ≤ stream.length + 1 ∨ tcb.state.finDelivered = true ∧ R = stream.length + 2

theorem InStep.handOver {state : State} {b : Nat} (step : InStep stream base tcb R) (rest : List Nbuf) (endSeq : UInt32)
    (spans : Spans stream base nbuf R b)
    (after : state.receiving = true ∧ b ≤ stream.length + 1 ∨ state.finDelivered = true ∧ b = stream.length + 2) :
    InStep stream base (handOver { tcb with rcvNxt := nbuf.endSeq, rcvQue := rest, state } nbuf endSeq) b := by
  refine ⟨?_, step.low.trans spans.le, ?_, ?_⟩
  · rw [handOver_rcvNxt, spans.endSeq]
  · rw [received_handOver, spans.data, ← between_append step.low spans.le, ← step.received]
    rfl
  · rw [handOver_state]
    exact after

theorem deliverLoop_inStep {que : List Nbuf} (step : InStep stream base tcb R) (receiving : tcb.state.receiving = true)
    (chain : Chain stream base R que hi) (near : hi < R + 2 ^ 31) :
    ∃ tcb' R', deliverLoop tcb que = (tcb', .done) ∧ R ≤ R' ∧ InStep stream base tcb' R' ∧
      Chain stream base R' tcb'.rcvQue hi ∧ tcb'.rightEdge = tcb.rightEdge := by
  induction que generalizing tcb R with
  | nil => exact ⟨_, R, rfl, le_refl R, ⟨step.next, step.low, step.received, step.state⟩, chain, rfl⟩
  | cons nbuf rest ih =>
    obtain ⟨a, b, spans, first, nonempty, behind⟩ := chain
    have last := behind.le
    rw [deliverLoop, spans.verify, step.next, spans.seq, before_numberAt (by omega) (by omega)]
    by_cases gap : R < a
    · rw [if_neg (by simp), if_pos (decide_eq_true gap)]
      exact ⟨_, R, rfl, le_refl R, ⟨rfl, step.low, step.received, step.state⟩, ⟨a, b, spans, first, nonempty, behind⟩,
        rfl⟩
    obtain rfl : a = R := by omega
    rw [if_neg (by simp), if_neg (by simp)]
    by_cases fin : b = stream.length + 2
    · -- Nothing of the stream is behind its FIN.
      have none : rest = [] := by
        cases rest with
        | nil => rfl
        | cons node rest =>
          obtain ⟨x, y, after, bx, xy, -⟩ := behind
          have inside := after.inside
          omega
      subst none
      rw [spans.fin, if_pos (decide_eq_true ⟨fin, nonempty⟩)]
      obtain ⟨state, after, delivered⟩ :=
        @finState_of_receiving { tcb with rcvNxt := nbuf.endSeq, rcvQue := [] } receiving
      simp only [isEmpty_nil, Bool.not_true, Bool.false_eq_true, ↓reduceIte, after]
      have stepped := step.handOver [] (nbuf.endSeq - 1) spans (.inr ⟨delivered, fin⟩)
      exact ⟨_, b, rfl, spans.le, ⟨stepped.next, stepped.low, stepped.received, stepped.state⟩, behind,
        handOver_rightEdge _ _ _⟩
    · have inside := spans.inside
      rw [spans.fin, if_neg (by simp [fin])]
      have stepped := step.handOver rest nbuf.endSeq spans (.inl ⟨receiving, by omega⟩)
      obtain ⟨tcb', R', run, le, step', chain', edge⟩ :=
        ih stepped (by rw [handOver_state]; exact receiving) behind (by omega)
      exact ⟨tcb', R', run, spans.le.trans le, step', chain', edge.trans (handOver_rightEdge _ _ _)⟩

/-- The receiver is in step, its window ends at `R + W`, and its queue lies in the window. -/
structure Receiver (stream : Bytes) (base : UInt32) (tcb : Tcb) (R W : Nat) :
    Prop extends InStep stream base tcb R where
  small : W < 2 ^ 31
  edge : tcb.rightEdge = numberAt base (R + W)
  queue : Chain stream base R tcb.rcvQue (R + W)

theorem Receiver.accept {a b : Nat} (receiver : Receiver stream base tcb R W) (receiving : tcb.state.receiving = true)
    (spans : Spans stream base nbuf a b) (first : R ≤ a) (nonempty : a < b) (inside : b ≤ R + W) :
    ∃ que tcb' R' W', tcpQueueData tcb.rcvQue nbuf = (que, true) ∧
      tcpDeliverData { tcb with rcvQue := que } = (tcb', .done) ∧ Receiver stream base tcb' R' W' := by
  have small := receiver.small
  obtain ⟨que, queued, chain⟩ := tcpQueueData_chain receiver.queue spans receiver.low first nonempty inside (by omega)
  have connected : tcb.state.connected = true := by
    cases state : tcb.state <;> rw [state] at receiving <;> trivial
  have step : InStep stream base { tcb with rcvQue := que } R :=
    ⟨receiver.next, receiver.low, receiver.received, receiver.state⟩
  obtain ⟨tcb', R', delivered, le, step', chain', edge⟩ := deliverLoop_inStep step receiving chain (by omega)
  have last := chain'.le
  have window : R' + (R + W - R') = R + W := by omega
  refine ⟨que, tcb', R', R + W - R', queued, ?_, ⟨step', by omega, ?_, ?_⟩⟩
  · rw [tcpDeliverData]
    by_cases empty : que = []
    · subst empty
      simp only [deliverLoop] at delivered
      simpa using delivered
    · rw [if_neg (by simp [empty, connected])]
      exact delivered
  · rw [edge, window]
    exact receiver.edge
  · rw [window]
    exact chain'

theorem lt_of_before {r : Nat} (left : p < r + 2 ^ 31) (right : r < p + 2 ^ 32)
    (acceptable : before (numberAt base p) (numberAt base r) = true) : p < r ∧ r ≤ p + 2 ^ 31 := by
  rw [before, toNat_numberAt_sub, decide_eq_true_eq] at acceptable
  omega

theorem Receiver.input (receiver : Receiver stream base tcb R W) (connected : tcb.state.connected = true)
    (spans : Spans stream base nbuf p q) (back : R < p + 2 ^ 31) (ahead : q < R + 2 ^ 31) :
    ∃ tcb' R' W', Receiver stream base tcb' R' W' ∧
      (tcpInputData tcb nbuf = (tcb', .continued) ∨ tcpInputData tcb nbuf = (tcb', .reset)) := by
  have low := receiver.low
  have small := receiver.small
  have le := spans.le
  have inside := spans.inside
  unfold tcpInputData
  by_cases acceptable : tcpSeqAcceptable tcb nbuf = true
  swap
  · rw [if_pos (by simpa using acceptable)]
    exact ⟨tcb, R, W, receiver, .inl rfl⟩
  rw [if_neg (by simp [acceptable])]
  rw [tcpSeqAcceptable, Bool.and_eq_true, spans.seq, spans.endSeq, receiver.edge, receiver.next,
    notAfter_numberAt (by omega) (by omega), decide_eq_true_eq] at acceptable
  obtain ⟨pr, rp⟩ := lt_of_before (by omega) (by omega) acceptable.2
  have window : tcpTrimInWnd tcb nbuf = tcpTrimSegment nbuf (numberAt base R) (numberAt base (R + W)) := by
    rw [tcpTrimInWnd, receiver.next, receiver.edge]
  rw [window]
  obtain trim | ⟨left, trim, -, lq, trimmed⟩ := spans.trimSegment low (Nat.le_add_right R W) (by omega) (by omega)
    (show R + W < q + 2 ^ 31 by omega) (by omega)
  · rw [trim]
    exact ⟨tcb, R, W, receiver, .inl (if_pos rfl)⟩
  rw [trim]
  simp only [trimmed.seq, trimmed.endSeq, Bool.not_true, Bool.false_eq_true, ↓reduceIte,
    numberAt_inj base (show min q (R + W) < max p R + 2 ^ 32 by omega) (show max p R < min q (R + W) + 2 ^ 32 by omega)]
  by_cases empty : min q (R + W) = max p R
  · rw [if_pos empty]
    exact ⟨tcb, R, W, receiver, .inl rfl⟩
  rw [if_neg empty]
  by_cases fin : tcb.state.finRcvd = true
  · rw [if_pos fin]
    exact ⟨tcb, R, W, receiver, .inr rfl⟩
  rw [if_neg fin]
  by_cases closed : (tcb.state.localClosed && decide (left.data.totalSize ≠ 0)) = true
  · rw [if_pos closed]
    exact ⟨tcb, R, W, receiver, .inr rfl⟩
  rw [if_neg closed]
  have receiving := State.receiving_of_connected connected (by simpa using fin)
  obtain ⟨que, tcb', R', W', queued, delivered, receiver'⟩ := receiver.accept receiving trimmed (le_max_right p R)
    (lt_of_le_of_ne trimmed.le (Ne.symm empty)) (min_le_right q (R + W))
  rw [queued]
  simp only [Bool.not_true, Bool.false_eq_true, ↓reduceIte, delivered]
  exact ⟨tcb', R', W', receiver', .inl rfl⟩

theorem tcpRcvWinOld_eq (receiver : Receiver stream base tcb R W) : (tcpRcvWinOld tcb).toNat = W := by
  have small := receiver.small
  rw [tcpRcvWinOld, receiver.next, receiver.edge, before_numberAt (by omega) (by omega)]
  by_cases none : W = 0
  · rw [if_neg (by simp [none]), none]
    rfl
  · rw [if_pos (by simpa using Nat.pos_of_ne_zero none), numberAt_sub_of_le (by omega) (by omega),
      Nat.add_sub_cancel_left]

theorem tcpRcvWinNow_cases (tcb : Tcb) {freeSpace rcvBuffSize : UInt32} (sndMss : UInt32) (buffer : 0 < rcvBuffSize) :
    tcpRcvWinNow tcb freeSpace rcvBuffSize sndMss = tcpRcvWinOld tcb ∨
      tcpRcvWinNow tcb freeSpace rcvBuffSize sndMss = freeSpace ∧ tcpRcvWinOld tcb < freeSpace := by
  unfold tcpRcvWinNow
  by_cases more : tcpRcvWinOld tcb < freeSpace
  · simp only [more, if_true]
    split
    · exact .inr ⟨rfl, trivial⟩
    · exact .inl rfl
  · simp only [more, if_false]
    rw [if_neg]
    · exact .inl rfl
    · rintro (grows | grows)
      · exact UInt32.not_lt_zero grows
      · exact UInt32.not_lt_zero (UInt32.lt_of_lt_of_le buffer grows)

theorem Receiver.advertise {freeSpace rcvBuffSize sndMss : UInt32} (receiver : Receiver stream base tcb R W)
    (buffer : 0 < rcvBuffSize) (small : freeSpace.toNat < 2 ^ 31) :
    ∃ W', Receiver stream base (advertise tcb freeSpace rcvBuffSize sndMss) R W' := by
  obtain ⟨grows, bound⟩ : W ≤ (tcpRcvWinNow tcb freeSpace rcvBuffSize sndMss).toNat ∧
      (tcpRcvWinNow tcb freeSpace rcvBuffSize sndMss).toNat < 2 ^ 31 := by
    have old := tcpRcvWinOld_eq receiver
    rcases @tcpRcvWinNow_cases tcb freeSpace rcvBuffSize sndMss buffer with stays | ⟨grows, more⟩
    · rw [stays, old]
      exact ⟨le_refl W, receiver.small⟩
    · rw [grows, ← old]
      exact ⟨(UInt32.lt_iff_toNat_lt.1 more).le, small⟩
  refine ⟨(tcpRcvWinNow tcb freeSpace rcvBuffSize sndMss).toNat, ⟨⟨receiver.next, receiver.low, receiver.received,
    receiver.state⟩, bound, ?_, receiver.queue.upper (Nat.add_le_add_left grows R)⟩⟩
  rw [Tcb.rightEdge, ← numberAt_add, ← receiver.next, UInt32.ofNat_toNat]
  rfl

inductive LocalMove : State → State → Prop where
  | stay (state : State) : LocalMove state state
  | close : LocalMove .established .finWait1
  | closeBehindPeer : LocalMove .closeWait .lastAck
  | finAcked : LocalMove .finWait1 .finWait2
  | closingAcked : LocalMove .closing .timeWait
  | lastAcked : LocalMove .lastAck .closed
  | timeout : LocalMove .timeWait .closed

/-- The states of a connection that the peer sends segments of `stream` to, whenever `admits` lets it. Whatever comes of
    a segment counts: behind one that resets the connection, the state is the one that `TcpClose` finds. -/
inductive Reached (stream : Bytes) (base : UInt32) (admits : Tcb → Nat → Nat → Prop) : Tcb → Prop where
  | start {tcb : Tcb} : tcb.state.receiving = true → tcb.rcvNxt = numberAt base 1 → tcb.rcvWl2 = tcb.rcvNxt →
      tcb.rcvWnd.toNat < 2 ^ 31 → tcb.rcvQue = [] → tcb.sock = [] → Reached stream base admits tcb
  | segment {tcb : Tcb} {nbuf : Nbuf} {p q : Nat} : Reached stream base admits tcb → tcb.state.connected = true →
      Spans stream base nbuf p q → admits tcb p q → Reached stream base admits (tcpInputData tcb nbuf).1
  | advertise {tcb : Tcb} {freeSpace rcvBuffSize sndMss : UInt32} : Reached stream base admits tcb → 0 < rcvBuffSize →
      freeSpace.toNat < 2 ^ 31 → Reached stream base admits (advertise tcb freeSpace rcvBuffSize sndMss)
  | move {tcb : Tcb} {state : State} {finAcked rcvdUrg : Bool} {rcvUp : UInt32} : Reached stream base admits tcb →
      LocalMove tcb.state state → Reached stream base admits { tcb with state, finAcked, rcvdUrg, rcvUp }

/-- The position of `RcvNxt`: behind the data passed to the socket, and behind the FIN once it was delivered. -/
def Tcb.position (tcb : Tcb) : Nat := 1 + tcb.received.length + Bool.count tcb.state.finDelivered

/-- The segment starts and ends less than half the sequence space from `RcvNxt`. -/
def Near (tcb : Tcb) (p q : Nat) : Prop := tcb.position < p + 2 ^ 31 ∧ q < tcb.position + 2 ^ 31

instance : Decidable (Near tcb p q) := inferInstanceAs (Decidable (_ ∧ _))

/-- The socket has a prefix of the stream, and `RcvNxt` is the number just after it. -/
def InOrder (stream : Bytes) (base : UInt32) (tcb : Tcb) : Prop :=
  tcb.received <+: stream ∧ tcb.rcvNxt = numberAt base tcb.position

theorem InStep.position (step : InStep stream base tcb R) : tcb.position = R := by
  have low := step.low
  rw [Tcb.position, step.received, length_between]
  rcases step.state with ⟨receiving, inside⟩ | ⟨fin, behind⟩
  · rw [State.finDelivered_eq_false receiving, Bool.count]
    simp only [Bool.false_eq_true, ↓reduceIte]
    omega
  · rw [fin, Bool.count]
    simp only [↓reduceIte]
    omega

theorem InStep.inOrder (step : InStep stream base tcb R) : InOrder stream base tcb := by
  refine ⟨?_, by rw [step.position, step.next]⟩
  rw [step.received, between_one]
  exact take_prefix _ _

theorem Reached.receiver (reached : Reached stream base Near tcb) : ∃ R W, Receiver stream base tcb R W := by
  induction reached with
  | @start tcb receiving next update small empty none =>
    refine ⟨1, tcb.rcvWnd.toNat, ⟨⟨next, le_refl 1, ?_, .inl ⟨receiving, by omega⟩⟩, small, ?_, ?_⟩⟩
    · rw [between_self, Tcb.received, none]
      rfl
    · rw [Tcb.rightEdge, update, next, ← numberAt_add, UInt32.ofNat_toNat]
    · rw [empty]
      exact Nat.le_add_right 1 _
  | @segment tcb nbuf p q _ connected spans near ih =>
    obtain ⟨R, W, receiver⟩ := ih
    rw [Near, receiver.position] at near
    obtain ⟨next, R', W', receiver', continued | reset⟩ := receiver.input connected spans near.1 near.2
    · rw [continued]
      exact ⟨R', W', receiver'⟩
    · rw [reset]
      exact ⟨R', W', receiver'⟩
  | @advertise tcb _ _ _ _ buffer small ih =>
    obtain ⟨R, W, receiver⟩ := ih
    obtain ⟨W', receiver'⟩ := receiver.advertise buffer small
    exact ⟨R, W', receiver'⟩
  | @move tcb state _ _ _ _ move ih =>
    obtain ⟨R, W, receiver⟩ := ih
    refine ⟨R, W, ⟨⟨receiver.next, receiver.low, receiver.received, ?_⟩, receiver.small, receiver.edge, receiver.queue⟩⟩
    have before := receiver.state
    generalize tcb.state = old at before move
    cases move <;> exact before

/-- The data passed to the socket is a prefix of the peer's stream, `RcvNxt` is the number just after it (plus one once
    the FIN was delivered), and no exit for a broken segment is taken. -/
theorem stream_in_order (reached : Reached stream base Near tcb) :
    InOrder stream base tcb ∧ ∀ nbuf p q, tcb.state.connected = true → Spans stream base nbuf p q → Near tcb p q →
      (tcpInputData tcb nbuf).2 ≠ .broken := by
  obtain ⟨R, W, receiver⟩ := reached.receiver
  refine ⟨receiver.inOrder, ?_⟩
  intro nbuf p q connected spans near
  rw [Near, receiver.position] at near
  obtain ⟨tcb', R', W', -, continued | reset⟩ := receiver.input connected spans near.1 near.2
  · rw [continued]
    nofun
  · rw [reset]
    nofun

def opened (base rcvWnd : UInt32) : Tcb where
  state := .established
  rcvNxt := numberAt base 1
  rcvWl2 := numberAt base 1
  rcvWnd
  rcvQue := []
  finAcked := false
  rcvdUrg := false
  rcvUp := 0
  timeWaitTimeout := 0
  sock := []

theorem reached_opened (stream : Bytes) (base rcvWnd : UInt32) (admits : Tcb → Nat → Nat → Prop)
    (small : rcvWnd.toNat < 2 ^ 31) : Reached stream base admits (opened base rcvWnd) :=
  .start rfl rfl rfl small rfl rfl

def sampleSegment (seq : UInt32) (bytes : Bytes) (fin : Bool) (small : bytes.length < 2 ^ 32) : Nbuf where
  seq
  endSeq := seq + UInt32.ofNat (bytes.length + Bool.count fin)
  syn := false
  fin
  urgFlag := false
  urg := 0
  data := { blockOp := [bytes], size_lt := by simpa using small }

theorem bytes_sampleSegment {seq : UInt32} {bytes : Bytes} {fin : Bool} (small : bytes.length < 2 ^ 32) :
    (sampleSegment seq bytes fin small).data.bytes = bytes := by
  simp [sampleSegment, NetBuf.bytes]

/-- A connection whose sequence numbers wrap inside the stream `[7, 8, 9, 10, 11]`, after the segments `[9, 10]`, then
    `[8, 9]`, then `[10, 11]` with the FIN: the socket has nothing yet. -/
def gathered : Tcb :=
  let tcb := opened 0xfffffffd 16
  let tcb := (tcpInputData tcb (sampleSegment 0 [9, 10] false (by decide))).1
  let tcb := (tcpInputData tcb (sampleSegment 0xffffffff [8, 9] false (by decide))).1
  (tcpInputData tcb (sampleSegment 1 [10, 11] true (by decide))).1

/-- The segment with the first byte comes last, and the whole stream is delivered. -/
theorem stream_in_order_gathered :
    let tcb := (tcpInputData gathered (sampleSegment 0xfffffffe [7, 8] false (by decide))).1
    gathered.received = [] ∧ tcb.received = [7, 8, 9, 10, 11] ∧ tcb.state = .closeWait ∧
      InOrder [7, 8, 9, 10, 11] 0xfffffffd tcb ∧ ∀ nbuf p q, tcb.state.connected = true →
        Spans [7, 8, 9, 10, 11] 0xfffffffd nbuf p q → Near tcb p q → (tcpInputData tcb nbuf).2 ≠ .broken := by
  intro tcb
  have third : Spans [7, 8, 9, 10, 11] 0xfffffffd (sampleSegment 0 [9, 10] false (by decide)) 3 5 :=
    ⟨by decide, by decide, by decide, by decide, by decide, by decide, bytes_sampleSegment _⟩
  have second : Spans [7, 8, 9, 10, 11] 0xfffffffd (sampleSegment 0xffffffff [8, 9] false (by decide)) 2 4 :=
    ⟨by decide, by decide, by decide, by decide, by decide, by decide, bytes_sampleSegment _⟩
  have last : Spans [7, 8, 9, 10, 11] 0xfffffffd (sampleSegment 1 [10, 11] true (by decide)) 4 7 :=
    ⟨by decide, by decide, by decide, by decide, by decide, by decide, bytes_sampleSegment _⟩
  have first : Spans [7, 8, 9, 10, 11] 0xfffffffd (sampleSegment 0xfffffffe [7, 8] false (by decide)) 1 3 :=
    ⟨by decide, by decide, by decide, by decide, by decide, by decide, bytes_sampleSegment _⟩
  have reached : Reached [7, 8, 9, 10, 11] 0xfffffffd Near gathered :=
    (((reached_opened _ _ 16 _ (by decide)).segment rfl third (by decide)).segment (by decide) second
      (by decide)).segment (by decide) last (by decide)
  exact ⟨by decide, by decide, by decide, stream_in_order (reached.segment (by decide) first (by decide))⟩

/-! ### A stream longer than the sequence space -/

def longStream : Bytes := List.replicate (2 ^ 32) 0 ++ [1]

theorem length_longStream : longStream.length = 2 ^ 32 + 1 := by
  rw [longStream, length_append, length_replicate]
  rfl

theorem last_longStream : between longStream (2 ^ 32 + 1) (2 ^ 32 + 2) = [1] := by
  have total := length_longStream
  rw [between, take_of_length_le (by omega), longStream]
  exact drop_left' length_replicate

/-- The last byte of the stream has the sequence number of the first one and is delivered in its place. -/
theorem far_segment_delivered : ∃ tcb, Reached longStream 0 (fun _ _ _ => True) tcb ∧ ¬ InOrder longStream 0 tcb := by
  have total := length_longStream
  have spans : Spans longStream 0 (sampleSegment 1 [1] false (by decide)) (2 ^ 32 + 1) (2 ^ 32 + 2) := by
    refine ⟨by decide, by decide, by omega, by omega, ?_, ?_, (bytes_sampleSegment _).trans last_longStream.symm⟩
    · exact (decide_eq_false (by omega)).symm
    · exact (decide_eq_false (by omega)).symm
  have received : (tcpInputData (opened 0 4) (sampleSegment 1 [1] false (by decide))).1.received = [1] := by decide
  refine ⟨_, (reached_opened longStream 0 4 _ (by decide)).segment rfl spans trivial, ?_⟩
  rintro ⟨⟨rest, whole⟩, -⟩
  have first := congrArg List.head? whole
  rw [received, longStream, head?_append, head?_append, head?_replicate, if_neg (by norm_num)] at first
  cases first

end LeoEdk.Network.Tcp
