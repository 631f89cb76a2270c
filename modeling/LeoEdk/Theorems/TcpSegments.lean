import LeoEdk.Network.TcpInput

/-! Segments of a stream, and what trimming and queueing make of them. A segment `Spans` two positions of the stream,
    and a queue is a `Chain` of such segments, which both keep. -/

namespace LeoEdk.Network.Tcp

open SeqSpace List

variable {stream : Bytes} {base : UInt32} {nbuf node : Nbuf} {p q l r lo hi : Nat} {que rest : List Nbuf} {a b : Nat}

def between (stream : Bytes) (p q : Nat) : Bytes := (stream.take (q - 1)).drop (p - 1)

theorem length_between (stream : Bytes) (p q : Nat) :
    (between stream p q).length = min (q - 1) stream.length - (p - 1) := by
  simp [between]

theorem between_self (stream : Bytes) (p : Nat) : between stream p p = [] := by
  rw [between, drop_eq_nil_iff, length_take]
  exact min_le_left _ _

theorem between_one (stream : Bytes) (q : Nat) : between stream 1 q = stream.take (q - 1) := rfl

theorem between_append (pq : p ≤ q) (qr : q ≤ r) : between stream p q ++ between stream q r = between stream p r := by
  have total : r - 1 - (p - 1) = q - 1 - (p - 1) + (r - 1 - (q - 1)) := by omega
  have start : p - 1 + (q - 1 - (p - 1)) = q - 1 := by omega
  rw [between, between, between, drop_take, drop_take, drop_take, total, take_add, drop_drop,
    start]

structure Spans (stream : Bytes) (base : UInt32) (nbuf : Nbuf) (p q : Nat) : Prop where
  seq : nbuf.seq = numberAt base p
  endSeq : nbuf.endSeq = numberAt base q
  le : p ≤ q
  inside : q ≤ stream.length + 2
  syn : nbuf.syn = decide (p = 0 ∧ p < q)
  fin : nbuf.fin = decide (q = stream.length + 2 ∧ p < q)
  data : nbuf.data.bytes = between stream p q

theorem bytes_dropHead (data : NetBuf) (n : Nat) :
    (if n ≠ 0 then netbufTrim data n true else data).bytes = data.bytes.drop n := by
  split
  · exact bytes_netbufTrim_head data n
  next none => rw [Decidable.not_not.1 none, drop_zero]

theorem bytes_dropTail (data : NetBuf) (n : Nat) :
    (if n ≠ 0 then netbufTrim data n false else data).bytes = data.bytes.rdrop n := by
  split
  · exact bytes_netbufTrim_tail data n
  next none => rw [Decidable.not_not.1 none, rdrop_zero]

section Spans

variable (spans : Spans stream base nbuf p q)
include spans

theorem Spans.size : p + (nbuf.data.totalSize + Bool.count nbuf.syn + Bool.count nbuf.fin) = q := by
  have le := spans.le
  have inside := spans.inside
  rw [NetBuf.totalSize, spans.data, spans.syn, spans.fin, length_between, Bool.count, Bool.count]
  simp only [decide_eq_true_eq]
  split <;> split <;> omega

theorem Spans.verify : tcpVerifySegment nbuf = true := by
  rw [tcpVerifySegment, spans.seq, numberAt_add, spans.size, spans.endSeq, beq_self_eq_true]

theorem Spans.trimHead (low : 1 ≤ l) (lq : l < q) (pl : p < l + 2 ^ 31)
    (lp : l ≤ p + 2 ^ 31) : Spans stream base (trimHead nbuf (numberAt base l)) (max p l) q := by
  have le := spans.le
  rw [Tcp.trimHead, spans.seq, before_numberAt pl lp]
  by_cases cut : p < l
  · rw [if_pos (decide_eq_true cut), max_eq_right cut.le]
    refine ⟨rfl, spans.endSeq, lq.le, spans.inside, ?_, ?_, ?_⟩
    · simp only [show ¬ (l = 0 ∧ l < q) by omega, decide_false]
    · simp only [spans.fin, lq, show p < q by omega]
    · rw [bytes_dropHead, spans.data, numberAt_sub_of_le cut.le (by omega), spans.syn, between, drop_drop, between,
        Bool.count]
      congr 1
      simp only [decide_eq_true_eq]
      split <;> omega
  · rw [if_neg (by simpa using cut), max_eq_left (not_lt.1 cut)]
    exact spans

theorem Spans.trimTail (low : 1 ≤ p) (pr : p ≤ r) (rq : r < q + 2 ^ 31)
    (qr : q ≤ r + 2 ^ 31) : Spans stream base (trimTail nbuf (numberAt base r)) p (min q r) := by
  have le := spans.le
  have inside := spans.inside
  rw [Tcp.trimTail, spans.endSeq, before_numberAt rq qr]
  by_cases cut : r < q
  · rw [if_pos (decide_eq_true cut), min_eq_right cut.le]
    refine ⟨spans.seq, rfl, pr, by omega, ?_, ?_, ?_⟩
    · simp only [spans.syn, show ¬ (p = 0 ∧ p < q) by omega, show ¬ (p = 0 ∧ p < r) by omega]
    · simp only [show ¬ (r = stream.length + 2 ∧ p < r) by omega, decide_false]
    · have dropped : q - r - Bool.count nbuf.fin + (r - p) = (between stream p q).length := by
        rw [length_between, spans.fin, Bool.count]
        simp only [decide_eq_true_eq]
        split <;> omega
      rw [bytes_dropTail, numberAt_sub_of_le cut.le (by omega), spans.data, List.rdrop, ← dropped,
        Nat.add_sub_cancel_left, ← between_append pr cut.le, take_append_of_le_length (by rw [length_between]; omega),
        take_of_length_le (by rw [length_between]; omega)]
  · rw [if_neg (by simpa using cut), min_eq_left (not_lt.1 cut)]
    exact spans

theorem Spans.trimSegment (low : 1 ≤ l) (lr : l ≤ r) (pl : p < l + 2 ^ 31)
    (lp : l ≤ p + 2 ^ 31) (rq : r < q + 2 ^ 31) (qr : q ≤ r + 2 ^ 31) :
    tcpTrimSegment nbuf (numberAt base l) (numberAt base r) = (truncate nbuf, true) ∨
      ∃ left, tcpTrimSegment nbuf (numberAt base l) (numberAt base r) = (left, true) ∧ p < r ∧ l < q ∧
        Spans stream base left (max p l) (min q r) := by
  have le := spans.le
  rw [tcpTrimSegment]
  split
  · exact .inl rfl
  next kept =>
    rw [Bool.or_eq_true, not_or] at kept
    obtain ⟨behind, infront⟩ := kept
    have lq : l < q := by
      by_contra outside
      rw [spans.endSeq, notAfter_numberAt (by omega) (by omega)] at behind
      exact behind (decide_eq_true (not_lt.1 outside))
    have pr : p < r := by
      by_contra outside
      rw [spans.seq, notAfter_numberAt (by omega) (by omega)] at infront
      exact infront (decide_eq_true (not_lt.1 outside))
    have trimmed := (spans.trimHead low lq pl lp).trimTail (le_max_of_le_right low) (max_le pr.le lr) rq qr
    exact .inr ⟨_, congrArg (Prod.mk _) trimmed.verify, pr, lq, trimmed⟩

theorem Spans.trimSegment_overlap (low : 1 ≤ l) (lr : l ≤ r) (lq : l < q)
    (pr : p < r) (pl : p < l + 2 ^ 31) (lp : l ≤ p + 2 ^ 31) (ql : q < l + 2 ^ 31) (rp : r < p + 2 ^ 31) :
    ∃ left, tcpTrimSegment nbuf (numberAt base l) (numberAt base r) = (left, true) ∧
      Spans stream base left (max p l) (min q r) := by
  have le := spans.le
  have trimmed := (spans.trimHead low lq pl lp).trimTail (le_max_of_le_right low) (max_le pr.le lr)
    (by omega) (by omega)
  refine ⟨_, ?_, trimmed⟩
  rw [tcpTrimSegment, spans.endSeq, spans.seq, notAfter_numberAt ql (by omega), notAfter_numberAt rp (by omega),
    decide_eq_false (by omega), decide_eq_false (by omega), Bool.or_false, if_neg Bool.false_ne_true]
  exact congrArg (Prod.mk _) trimmed.verify

end Spans

/-- The segments of a queue follow one another between two positions, with gaps or without. -/
def Chain (stream : Bytes) (base : UInt32) : Nat → List Nbuf → Nat → Prop
  | lo, [], hi => lo ≤ hi
  | lo, node :: rest, hi => ∃ a b, Spans stream base node a b ∧ lo ≤ a ∧ a < b ∧ Chain stream base b rest hi

theorem Chain.le (chain : Chain stream base lo que hi) : lo ≤ hi := by
  induction que generalizing lo with
  | nil => exact chain
  | cons node rest ih =>
    obtain ⟨a, b, -, first, nonempty, rest⟩ := chain
    exact (first.trans nonempty.le).trans (ih rest)

theorem Chain.lower {lo' : Nat} (chain : Chain stream base lo que hi) (le : lo' ≤ lo) :
    Chain stream base lo' que hi := by
  cases que with
  | nil => exact le.trans chain
  | cons node rest =>
    obtain ⟨a, b, spans, first, rest⟩ := chain
    exact ⟨a, b, spans, le.trans first, rest⟩

theorem chain_append {front : List Nbuf} :
    Chain stream base lo (front ++ rest) hi ↔ ∃ m, Chain stream base lo front m ∧ Chain stream base m rest hi := by
  induction front generalizing lo with
  | nil =>
    constructor
    · intro chain
      exact ⟨lo, le_refl lo, chain⟩
    · rintro ⟨m, le, chain⟩
      exact chain.lower le
  | cons node front ih =>
    simp only [cons_append, Chain, ih]
    constructor
    · rintro ⟨a, b, spans, first, nonempty, m, front, rest⟩
      exact ⟨m, ⟨a, b, spans, first, nonempty, front⟩, rest⟩
    · rintro ⟨m, ⟨a, b, spans, first, nonempty, front⟩, rest⟩
      exact ⟨a, b, spans, first, nonempty, m, front, rest⟩

theorem Chain.upper {hi' : Nat} (chain : Chain stream base lo que hi) (le : hi ≤ hi') :
    Chain stream base lo que hi' := by
  have longer := chain_append.2 ⟨hi, chain, (show Chain stream base hi [] hi' from le)⟩
  rwa [append_nil] at longer

theorem settle_infront (chain : Chain stream base lo rest hi)
    (spans : Spans stream base nbuf a b) (apart : b ≤ lo) (near : hi < b + 2 ^ 31) :
    settle nbuf rest = (some nbuf, rest, true) := by
  induction rest generalizing lo with
  | nil => rfl
  | cons node rest ih =>
    obtain ⟨x, y, next, first, nonempty, rest⟩ := chain
    have last := rest.le
    rw [settle, next.endSeq, next.seq, spans.endSeq, notAfter_numberAt (by omega) (by omega),
      before_numberAt (by omega) (by omega), if_neg (by simp; omega), if_neg (by simp; omega), ih rest (by omega)]

theorem settle_chain (chain : Chain stream base a rest hi)
    (spans : Spans stream base nbuf a b) (low : 1 ≤ a) (nonempty : a < b) (inside : b ≤ hi) (near : hi < a + 2 ^ 31) :
    ∃ kept rest', settle nbuf rest = (kept, rest', true) ∧ Chain stream base a (kept.toList ++ rest') hi := by
  induction rest with
  | nil => exact ⟨some nbuf, [], rfl, a, b, spans, le_refl a, nonempty, inside⟩
  | cons node rest ih =>
    obtain ⟨x, y, next, first, xy, behind⟩ := chain
    have last := behind.le
    rw [settle, next.endSeq, next.seq, spans.endSeq, spans.seq, notAfter_numberAt (by omega) (by omega),
      before_numberAt (by omega) (by omega), notAfter_numberAt (by omega) (by omega)]
    by_cases covered : y ≤ b
    · rw [if_pos (decide_eq_true covered)]
      exact ih (behind.lower (by omega))
    rw [if_neg (by simpa using covered)]
    by_cases overlaps : x < b
    · rw [if_pos (decide_eq_true overlaps)]
      by_cases same : x ≤ a
      · rw [if_pos (decide_eq_true same)]
        exact ⟨none, node :: rest, rfl, x, y, next, first, xy, behind⟩
      · rw [if_neg (by simpa using same)]
        obtain ⟨left, trim, trimmed⟩ := spans.trimSegment_overlap low first (by omega) (by omega) (by omega) (by omega)
          (by omega) (show x < a + 2 ^ 31 by omega)
        rw [max_self, min_eq_right overlaps.le] at trimmed
        rw [trim]
        exact ⟨some left, node :: rest, rfl, a, x, trimmed, le_refl a, not_le.1 same, x, y, next, le_refl x, xy, behind⟩
    · rw [if_neg (by simpa using overlaps), settle_infront behind spans (by omega) (by omega)]
      exact ⟨some nbuf, node :: rest, rfl, a, b, spans, le_refl a, nonempty, x, y, next, not_lt.1 overlaps, xy, behind⟩

theorem insertBetween_chain {front : List Nbuf} (before : Chain stream base lo front a)
    (behind : Chain stream base a rest hi) (spans : Spans stream base nbuf a b) (low : 1 ≤ a) (nonempty : a < b)
    (inside : b ≤ hi) (near : hi < a + 2 ^ 31) :
    ∃ que, insertBetween front nbuf rest = (que, true) ∧ Chain stream base lo que hi := by
  obtain ⟨kept, rest', settled, chain⟩ := settle_chain behind spans low nonempty inside near
  refine ⟨front ++ kept.toList ++ rest', by rw [insertBetween, settled], ?_⟩
  rw [append_assoc]
  exact chain_append.2 ⟨a, before, chain⟩

theorem chain_dropWhile {m : Nat}
    (chain : Chain stream base m (que.dropWhile fun node => !before (numberAt base a) node.seq) hi)
    (low : lo ≤ m) (inside : a ≤ hi) (alo : lo ≤ a) (near : hi < lo + 2 ^ 31) :
    Chain stream base a (que.dropWhile fun node => !before (numberAt base a) node.seq) hi := by
  cases rest : que.dropWhile fun node => !before (numberAt base a) node.seq with
  | nil => exact inside
  | cons node behind =>
    rw [rest] at chain
    obtain ⟨x, y, next, first, xy, behind⟩ := chain
    have last := behind.le
    have stops := List.head?_dropWhile_not (fun node => !before (numberAt base a) node.seq) que
    rw [rest, List.head?_cons] at stops
    simp only [next.seq, Bool.not_eq_false', before_numberAt (show a < x + 2 ^ 31 by omega)
      (show x ≤ a + 2 ^ 31 by omega), decide_eq_true_eq] at stops
    exact ⟨x, y, next, stops.le, xy, behind⟩

theorem tcpQueueData_chain (chain : Chain stream base lo que hi)
    (spans : Spans stream base nbuf a b) (low : 1 ≤ lo) (first : lo ≤ a) (nonempty : a < b) (inside : b ≤ hi)
    (near : hi < lo + 2 ^ 31) : ∃ que', tcpQueueData que nbuf = (que', true) ∧ Chain stream base lo que' hi := by
  by_cases empty : que = []
  · subst empty
    exact ⟨[nbuf], rfl, a, b, spans, first, nonempty, inside⟩
  rw [tcpQueueData]
  swap
  · exact empty
  have whole := takeWhile_append_dropWhile (p := fun node : Nbuf => !before nbuf.seq node.seq) (l := que)
  have parts := chain
  rw [← whole, chain_append] at parts
  obtain ⟨m, front, behind⟩ := parts
  rw [spans.seq] at front behind ⊢
  have later := chain_dropWhile behind front.le (by omega) first near
  generalize que.dropWhile (fun node => !before (numberAt base a) node.seq) = rest at *
  generalize que.takeWhile (fun node => !before (numberAt base a) node.seq) = prior at *
  cases last : prior.getLast? with
  | none =>
    rw [List.getLast?_eq_none_iff] at last
    subst last
    exact insertBetween_chain (show Chain stream base lo [] a from first) later spans (by omega)
      nonempty inside (by omega)
  | some prev =>
    obtain ⟨earlier, rfl⟩ := List.getLast?_eq_some_iff.1 last
    obtain ⟨k, early, u, v, prevSpans, ku, uv, vm⟩ := chain_append.1 front
    have upTo : Chain stream base lo (earlier ++ [prev]) v :=
      chain_append.2 ⟨k, early, u, v, prevSpans, ku, uv, le_refl v⟩
    have mhi := behind.le
    have lok := early.le
    change v ≤ m at vm
    simp only [prevSpans.endSeq, spans.endSeq, before_numberAt (show a < v + 2 ^ 31 by omega)
      (show v ≤ a + 2 ^ 31 by omega), notAfter_numberAt (show b < v + 2 ^ 31 by omega) (show v ≤ b + 2 ^ 31 by omega)]
    by_cases overlaps : a < v
    · rw [if_pos (decide_eq_true overlaps)]
      by_cases covered : b ≤ v
      · rw [if_pos (decide_eq_true covered)]
        exact ⟨que, rfl, chain⟩
      · rw [if_neg (by simpa using covered)]
        obtain ⟨left, trim, trimmed⟩ := spans.trimSegment_overlap (show 1 ≤ v by omega) (show v ≤ b by omega)
          (by omega) nonempty (by omega) (by omega) (by omega) (show b < a + 2 ^ 31 by omega)
        rw [max_eq_right overlaps.le, min_self] at trimmed
        rw [trim]
        exact insertBetween_chain upTo (behind.lower vm) trimmed (by omega) (by omega) inside (by omega)
    · rw [if_neg (by simpa using overlaps)]
      exact insertBetween_chain (upTo.upper (not_lt.1 overlaps)) later spans (by omega) nonempty inside (by omega)

end LeoEdk.Network.Tcp
