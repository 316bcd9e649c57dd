import Exchange.Processor.Runs

/-!
# Replies

Every request for a new order is answered once, by an acknowledgement or a rejection that
carries its id.  Which of the two it is depends on the request alone.  The trades of the
order come before the answer in the same message, and the notices to the counterparties
in messages of their own hold no answers.

## Main definitions

* `answersOf`, `answersTo` — the answers in a stream, and among outgoing messages.
* `Whole` — a stream ends with the end of a frame.
* `answerOf` — the answer to a request for a new order.

## Main results

* `answersOf_append`, `answersOf_prefix` — the answers of a stream that grows.
* `answerOf_id` — an answer carries the id of its request.
* `pushed_of_newOrder` — a request for a new order is answered once.
-/

namespace Exchange

open Bytes MatchingEngine

/-! ### Answers in a stream -/

/-- A frame that answers a request for a new order. -/
def isAnswer (f : Frame) : Bool :=
  f.type = MessageType.ORDER_ACK.byte || f.type = MessageType.REJECT.byte

/-- The answers among the complete frames of a stream. -/
def answersOf (bs : List UInt8) : List Frame := (splitFrames bs).1.filter isAnswer

/-- A stream ends with the end of a frame. -/
def Whole (bs : List UInt8) : Prop := (splitFrames bs).2 = []

theorem answersOf_append {bs : List UInt8} (h : Whole bs) (cs : List UInt8) :
    answersOf (bs ++ cs) = answersOf bs ++ answersOf cs := by
  rw [answersOf, splitFrames_append, h, List.nil_append, List.filter_append]
  rfl

/-- Part of a stream has part of its answers. -/
theorem answersOf_prefix {bs cs : List UInt8} (h : bs <+: cs) : answersOf bs <+: answersOf cs := by
  obtain ⟨ds, rfl⟩ := h
  rw [answersOf, answersOf, splitFrames_append, List.filter_append]
  exact List.prefix_append _ _

theorem splitFrames_single {f : Frame} (h : f.Short) : splitFrames f.bytes = ([f], []) := by
  have hsplit := splitFrames_bytes h []
  rw [List.append_nil, splitFrames_nil] at hsplit
  exact hsplit

/-- The answers among outgoing messages to a descriptor. -/
def answersTo (fd : Fd) (ms : List OutboundMessage) : List Frame :=
  ((ms.filter fun m => m.fd = fd).map fun m => answersOf m.payload).flatten

theorem answersTo_append (fd : Fd) (ms ms' : List OutboundMessage) :
    answersTo fd (ms ++ ms') = answersTo fd ms ++ answersTo fd ms' := by
  rw [answersTo, List.filter_append, List.map_append, List.flatten_append]
  rfl

theorem answersTo_singleton (fd : Fd) (m : OutboundMessage) :
    answersTo fd [m] = if m.fd = fd then answersOf m.payload else [] := by
  by_cases hfd : m.fd = fd
  · simp [answersTo, hfd]
  · simp [answersTo, hfd]

/-- The answers in what is sent to a descriptor. -/
theorem answersOf_payloads (fd : Fd) {ms : List OutboundMessage}
    (h : ∀ m ∈ ms, Whole m.payload) :
    answersOf ((ms.filter fun m => m.fd = fd).map OutboundMessage.payload).flatten
      = answersTo fd ms := by
  induction ms with
  | nil =>
    rw [answersTo, List.filter_nil, List.map_nil, List.map_nil, List.flatten_nil, answersOf,
      splitFrames_nil]
    rfl
  | cons m ms ih =>
    have hrest := ih fun m' hm' => h m' (List.mem_cons_of_mem m hm')
    by_cases hfd : m.fd = fd
    · rw [List.filter_cons_of_pos (by simp [hfd]), List.map_cons, List.flatten_cons,
        answersOf_append (h m List.mem_cons_self), hrest, answersTo, answersTo,
        List.filter_cons_of_pos (by simp [hfd])]
      rfl
    · rw [List.filter_cons_of_neg (by simp [hfd]), hrest, answersTo, answersTo,
        List.filter_cons_of_neg (by simp [hfd])]

/-! ### The answer to a request -/

/-- The answer to a request for a new order: the constructor of the order decides. -/
def answerOf (payload : List UInt8) : Frame :=
  match Order.create 0 (payloadId payload) (payloadPrice payload) (payloadQuantity payload)
      (payloadSide payload) (payloadOrderType payload) with
  | .ok _ => ackFrame (payloadId payload)
  | .error e => rejectFrame (payloadId payload) e.whatBytes

/-- An answer carries the id of its request. -/
theorem answerOf_id {payload : List UInt8} (h : 8 ≤ payload.length) :
    (answerOf payload).payload.take 8 = payload.take 8 := by
  unfold answerOf
  split
  · rw [ackFrame, u64Bytes_payloadId h, List.take_take, Nat.min_self]
  · rw [rejectFrame, List.take_left' (length_u64Bytes _), u64Bytes_payloadId h]

theorem isAnswer_answerOf (payload : List UInt8) : isAnswer (answerOf payload) = true := by
  unfold answerOf
  split
  · rfl
  · rfl

theorem short_answerOf (payload : List UInt8) : (answerOf payload).Short := by
  unfold answerOf
  split
  · exact short_ackFrame _
  · next e _ => exact short_rejectFrame _ (length_whatBytes e)

/-- The reading of the clock does not decide whether an order is accepted. -/
theorem create_now (now now' : Timestamp) (id : OrderId) (price : Price) (quantity : Quantity)
    (side : Side) (orderType : OrderType) :
    Order.create now' id price quantity side orderType
      = (Order.create now id price quantity side orderType).map
        fun o => { o with timestamp := now' } := by
  unfold Order.create
  split
  · rfl
  split
  · rfl
  split
  · rfl
  · rfl

section Answer

variable {now : Timestamp} {payload : List UInt8} (hlen : 22 ≤ payload.length)

include hlen

theorem answerOf_of_ok {order : Order} (h : deserializeOrder now payload = .ok order) :
    answerOf payload = ackFrame order.id := by
  rw [deserializeOrder_of_le now hlen] at h
  unfold answerOf
  rw [create_now now 0]
  cases hc : Order.create now (payloadId payload) (payloadPrice payload)
      (payloadQuantity payload) (payloadSide payload) (payloadOrderType payload) with
  | error e =>
    rw [hc] at h
    exact absurd h (by simp [Except.mapError])
  | ok o =>
    rw [hc] at h
    obtain rfl := Except.ok.inj h
    rw [(Order.create_eq_ok hc).1]
    rfl

theorem answerOf_of_error {e : Exn} (h : deserializeOrder now payload = .error (.exception e)) :
    answerOf payload = rejectFrame (payloadId payload) e.whatBytes := by
  rw [deserializeOrder_of_le now hlen] at h
  unfold answerOf
  rw [create_now now 0]
  cases hc : Order.create now (payloadId payload) (payloadPrice payload)
      (payloadQuantity payload) (payloadSide payload) (payloadOrderType payload) with
  | error e' =>
    rw [hc] at h
    obtain rfl := Fault.exception.inj (Except.error.inj h)
    rfl
  | ok o =>
    rw [hc] at h
    exact absurd h (by simp [Except.mapError])

end Answer

/-- A reply of trades and one answer. -/
theorem answersOf_reply (trades : List Trade) (payload : List UInt8) :
    Whole ((trades.map fun t => (tradeFrame t).bytes).flatten ++ (answerOf payload).bytes) ∧
      answersOf ((trades.map fun t => (tradeFrame t).bytes).flatten ++ (answerOf payload).bytes)
        = [answerOf payload] := by
  have hsplit := splitFrames_reply trades (short_answerOf payload)
  refine ⟨by rw [Whole, hsplit], ?_⟩
  have htrades : (trades.map tradeFrame).filter isAnswer = [] := by
    rw [List.filter_eq_nil_iff]
    intro f hf
    obtain ⟨t, -, rfl⟩ := List.mem_map.mp hf
    exact (by decide : ¬ (MessageType.TRADE.byte = MessageType.ORDER_ACK.byte ||
      MessageType.TRADE.byte = MessageType.REJECT.byte) = true)
  rw [answersOf, hsplit, List.filter_append, htrades,
    List.filter_cons_of_pos (isAnswer_answerOf payload)]
  rfl

/-- A trade notice is no answer. -/
theorem answersOf_notice (trade : Trade) :
    Whole (tradeFrame trade).bytes ∧ answersOf (tradeFrame trade).bytes = [] := by
  have hsplit := splitFrames_single (short_tradeFrame trade)
  refine ⟨by rw [Whole, hsplit], ?_⟩
  rw [answersOf, hsplit]
  rfl

theorem answersTo_notices (fd : Fd) (routes : OrderId → Option Fd) (side : Side)
    (trades : List Trade) : answersTo fd (notices routes side trades) = [] := by
  rw [answersTo, List.flatten_eq_nil_iff]
  intro fs hfs
  obtain ⟨m, hm, rfl⟩ := List.mem_map.mp hfs
  obtain ⟨t, -, rfl⟩ := List.mem_map.mp (List.mem_of_mem_filter hm)
  exact (answersOf_notice t).2

/-- **A request for a new order is answered once**, to the descriptor it came from. -/
theorem pushed_of_newOrder {failures : ℕ → ℕ} {s s' : Session} {i : Input}
    (ht : i.message.type = .NEW_ORDER) (hlen : 22 ≤ i.message.payload.length)
    (h : s.step failures i = .ok s') :
    ∃ ms, s'.pushed = s.pushed ++ ms ∧ (∀ m ∈ ms, Whole m.payload) ∧
      ∀ fd, answersTo fd ms
        = if i.message.fd = fd then [answerOf i.message.payload] else [] := by
  rcases deserializeOrder_cases i.times.received hlen with ⟨order, hd, hc, -⟩ | ⟨e, hd⟩
  · -- the trades of an order are added before its answer
    obtain ⟨mid, subs, -, -, hm⟩ := matchOrder_eq hc i.times.now s.processor.book []
    obtain ⟨missed, heq, -⟩ :=
      process_newOrder i.times failures s.processor s.pushed ht hlen hd hm
    rw [Session.step_of_process heq] at h
    rw [← congrArg Session.pushed (Except.ok.inj h)]
    rw [← answerOf_of_ok hlen hd]
    refine ⟨_, List.append_assoc _ _ _, fun m hmem => ?_, fun fd => ?_⟩
    · rcases List.mem_append.mp hmem with hmem | hmem
      · obtain ⟨t, -, rfl⟩ := List.mem_map.mp hmem
        exact (answersOf_notice t).1
      · rw [List.mem_singleton.mp hmem]
        exact (answersOf_reply _ _).1
    · rw [answersTo_append, answersTo_notices, List.nil_append, answersTo_singleton,
        (answersOf_reply _ _).2]
  · have heq := process_newOrder_refused i.times failures s.processor s.pushed ht hlen hd
    rw [Session.step_of_process heq] at h
    rw [← congrArg Session.pushed (Except.ok.inj h), ← answerOf_of_error hlen hd]
    refine ⟨_, rfl, fun m hmem => ?_, fun fd => ?_⟩
    · rw [List.mem_singleton.mp hmem]
      exact (answersOf_reply [] _).1
    · rw [answersTo_singleton, show answersOf (answerOf i.message.payload).bytes = _ from
        (answersOf_reply [] _).2]

end Exchange
