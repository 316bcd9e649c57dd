import Exchange.Book.Invariant
import Exchange.OrderProcessor

/-!
# One answer per request

A client that sends a request waits for one final answer: an acknowledgement or a
rejection, after the trades of a new order.  The processor gives it for every new order
and for every cancel of an order that is there.  A cancel that fails is answered twice,
because the acknowledgement is in the buffer when the book throws.

## Main definitions

* `InboundMessage.WellFormed` — the payload is long enough for its type.
* `HandedToMatch`, `CancelRemoves` — what a request achieves.
* `AnsweredOnce` — the reply is some trades and one final answer, the right one.
* `OrderBook.Points` — the index entry of an id points to a resting order.

## Main results

* `answeredOnce_iff` — a request is answered once if and only if it is a new order or
  the cancel of an id whose index entry points to a resting order.
-/

namespace Exchange

open Bytes MatchingEngine

/-- A request whose payload holds all that is read from it. -/
def InboundMessage.WellFormed (m : InboundMessage) : Prop :=
  m.type = .NEW_ORDER ∧ 22 ≤ m.payload.length ∨ m.type = .CANCEL_ORDER ∧ 8 ≤ m.payload.length

instance (m : InboundMessage) : Decidable m.WellFormed := inferInstanceAs (Decidable (_ ∨ _))

/-- The request is a new order that is handed to `match`. -/
def HandedToMatch (times : Times) (m : InboundMessage) : Prop :=
  m.type = .NEW_ORDER ∧ ∃ order, deserializeOrder times.received m.payload = .ok order

/-- The request is a cancel by which `cancel_order` removes an order from the book. -/
def CancelRemoves (book : OrderBook) (m : InboundMessage) : Prop :=
  m.type = .CANCEL_ORDER ∧ ∃ book', book.cancelOrder (payloadId m.payload) = .ok book' ∧
    book'.resting.length + 1 = book.resting.length

/-- The last message pushed goes to the requesting client and is cut into some `TRADE`
frames and one final frame, which carries the request's id and is an `ORDER_ACK` exactly
when the order was handed to `match`, a `CANCEL_ACK` exactly when an order was removed,
and a `REJECT` otherwise. -/
def AnsweredOnce (times : Times) (failures : ℕ → ℕ) (p : Processor)
    (pushed : List OutboundMessage) (m : InboundMessage) : Prop :=
  ∃ r reply trades final, process times failures p pushed m = .ok r ∧
    r.pushed.getLast? = some ⟨m.fd, reply⟩ ∧ splitFrames reply = (trades ++ [final], []) ∧
    (∀ f ∈ trades, f.type = MessageType.TRADE.byte) ∧
    final.payload.take 8 = m.payload.take 8 ∧
    (final.type = MessageType.ORDER_ACK.byte ↔ HandedToMatch times m) ∧
    (final.type = MessageType.CANCEL_ACK.byte ↔ CancelRemoves p.book m) ∧
    (final.type = MessageType.REJECT.byte ↔ ¬ HandedToMatch times m ∧ ¬ CancelRemoves p.book m)

/-- The index entry of an id points to a resting order. -/
def OrderBook.Points (book : OrderBook) (id : OrderId) : Prop :=
  ∃ loc n, book.orderMap id = some loc ∧ (loc.price, n) ∈ book.restingOn loc.side ∧
    n.pos = loc.listPosition

/-- `cancel_order` of an id whose index entry points to a resting order removes one
order. -/
theorem OrderBook.Points.cancelOrder {book : OrderBook} {id : OrderId} (h : book.Points id) :
    ∃ book', book.cancelOrder id = .ok book' ∧
      book'.resting.length + 1 = book.resting.length := by
  obtain ⟨loc, n, hloc, hn, hpos⟩ := h
  rcases OrderBook.cancelOrder_cases hloc (OrderBook.isProper_of_mem hn) with
    ⟨hdead, -⟩ | ⟨n', book', -, heq, hr⟩
  · exact absurd hpos (hdead n hn)
  · exact ⟨book', heq, (List.Perm.length_eq hr.resting_perm).symm⟩

/-- `cancel_order` of any other id throws, erases a dead position, or removes nothing. -/
theorem OrderBook.cancelOrder_of_not_points {book : OrderBook} {id : OrderId}
    (h : ¬ book.Points id) :
    book.cancelOrder id = .error (.exception .idNotFound) ∨
      book.cancelOrder id = .error .undefinedBehaviour ∨
      ∃ book', book.cancelOrder id = .ok book' ∧ book'.resting = book.resting := by
  cases hloc : book.orderMap id with
  | none => exact Or.inl (OrderBook.cancelOrder_of_none hloc)
  | some loc =>
    by_cases hs : loc.side.IsProper
    · rcases OrderBook.cancelOrder_cases hloc hs with ⟨-, hdead⟩ | ⟨n, book', hpos, -, hr⟩
      · exact Or.inr (Or.inl hdead)
      · obtain ⟨A, B, hA, -⟩ := hr.queue
        exact absurd ⟨loc, n, hloc, by rw [hA]; simp, hpos⟩ h
    · -- the side byte of the entry is neither of the two sides: only the entry is erased
      have hbid : loc.side ≠ .BID := fun hb => hs (Or.inl hb)
      have hask : loc.side ≠ .ASK := fun ha => hs (Or.inr ha)
      refine Or.inr (Or.inr ⟨{ book with orderMap := Function.update book.orderMap id none }, ?_,
        rfl⟩)
      simp only [OrderBook.cancelOrder, hloc, if_neg hbid, if_neg hask]

section

variable {times : Times} {failures : ℕ → ℕ} {p : Processor} {pushed : List OutboundMessage}
  {m : InboundMessage}

theorem not_cancelRemoves_of_newOrder (ht : m.type = .NEW_ORDER) (book : OrderBook) :
    ¬ CancelRemoves book m := by
  rintro ⟨hc, -⟩
  rw [ht] at hc
  exact absurd hc (by decide)

theorem not_handedToMatch_of_cancel (ht : m.type = .CANCEL_ORDER) : ¬ HandedToMatch times m := by
  rintro ⟨hn, -⟩
  rw [ht] at hn
  exact absurd hn (by decide)

/-- A reply of trades and one final frame is cut into these. -/
theorem splitFrames_reply (trades : List Trade) {final : Frame} (h : final.Short) :
    splitFrames ((trades.map fun t => (tradeFrame t).bytes).flatten ++ final.bytes)
      = (trades.map tradeFrame ++ [final], []) := by
  have hflat : (trades.map fun t => (tradeFrame t).bytes).flatten ++ final.bytes
      = ((trades.map tradeFrame ++ [final]).map Frame.bytes).flatten := by
    simp [Function.comp_def]
  rw [hflat]
  apply splitFrames_flatten
  intro f hf
  rcases List.mem_append.mp hf with hf | hf
  · obtain ⟨t, -, rfl⟩ := List.mem_map.mp hf
    exact short_tradeFrame t
  · rw [List.mem_singleton.mp hf]
    exact h

/-- A new order is answered once. -/
theorem answeredOnce_newOrder (ht : m.type = .NEW_ORDER) (hlen : 22 ≤ m.payload.length) :
    AnsweredOnce times failures p pushed m := by
  have hnot := not_cancelRemoves_of_newOrder ht p.book
  have htake := u64Bytes_payloadId (show 8 ≤ m.payload.length by omega)
  rcases deserializeOrder_cases times.received hlen with ⟨order, hd, hc, hid⟩ | ⟨e, hd⟩
  · -- the order is decoded, and handed to `match`
    obtain ⟨mid, subs, -, -, hm⟩ := matchOrder_eq hc times.now p.book []
    obtain ⟨missed, heq, -⟩ := process_newOrder times failures p pushed ht hlen hd hm
    have hhanded : HandedToMatch times m := ⟨ht, order, hd⟩
    refine ⟨_, _, _, ackFrame order.id, heq, List.getLast?_concat,
      splitFrames_reply _ (short_ackFrame _), ?_, ?_, ?_, ?_, ?_⟩
    · intro f hf
      obtain ⟨t, -, rfl⟩ := List.mem_map.mp hf
      rfl
    · rw [ackFrame, hid, htake, List.take_take, Nat.min_self]
    · exact iff_of_true rfl hhanded
    · exact iff_of_false (show MessageType.ORDER_ACK.byte ≠ MessageType.CANCEL_ACK.byte by decide)
        hnot
    · exact iff_of_false (show MessageType.ORDER_ACK.byte ≠ MessageType.REJECT.byte by decide)
        fun h => h.1 hhanded
  · -- the constructor refuses it
    have hnothanded : ¬ HandedToMatch times m := by
      rintro ⟨-, order, hok⟩
      rw [hd] at hok
      exact absurd hok (by simp)
    refine ⟨_, _, [], rejectFrame (payloadId m.payload) e.whatBytes,
      process_newOrder_refused times failures p pushed ht hlen hd, List.getLast?_concat,
      splitFrames_reply [] (short_rejectFrame _ (length_whatBytes e)), by simp, ?_, ?_, ?_, ?_⟩
    · rw [rejectFrame, List.take_left' (length_u64Bytes _), htake]
    · exact iff_of_false (show MessageType.REJECT.byte ≠ MessageType.ORDER_ACK.byte by decide)
        hnothanded
    · exact iff_of_false (show MessageType.REJECT.byte ≠ MessageType.CANCEL_ACK.byte by decide) hnot
    · exact iff_of_true rfl ⟨hnothanded, hnot⟩

/-- A cancel of a resting order is answered once. -/
theorem answeredOnce_cancel (ht : m.type = .CANCEL_ORDER) (hlen : 8 ≤ m.payload.length)
    (h : p.book.Points (payloadId m.payload)) : AnsweredOnce times failures p pushed m := by
  obtain ⟨book', hok, hlength⟩ := h.cancelOrder
  have hremoves : CancelRemoves p.book m := ⟨ht, book', hok, hlength⟩
  have hnothanded : ¬ HandedToMatch times m := not_handedToMatch_of_cancel ht
  refine ⟨_, _, [], cancelAckFrame (payloadId m.payload),
    process_cancel times failures p pushed ht hlen hok, List.getLast?_concat,
    splitFrames_reply [] (short_cancelAckFrame _), by simp, ?_, ?_, ?_, ?_⟩
  · rw [cancelAckFrame, u64Bytes_payloadId hlen, List.take_take, Nat.min_self]
  · exact iff_of_false (show MessageType.CANCEL_ACK.byte ≠ MessageType.ORDER_ACK.byte by decide)
      hnothanded
  · exact iff_of_true rfl hremoves
  · exact iff_of_false (show MessageType.CANCEL_ACK.byte ≠ MessageType.REJECT.byte by decide)
      fun h => h.2 hremoves

/-- **A cancel of any other id is not answered once.**  If the book throws, the reply is
a `CANCEL_ACK` and a `REJECT`. -/
theorem not_answeredOnce_cancel (ht : m.type = .CANCEL_ORDER) (hlen : 8 ≤ m.payload.length)
    (h : ¬ p.book.Points (payloadId m.payload)) : ¬ AnsweredOnce times failures p pushed m := by
  rintro ⟨r, reply, trades, final, hr, hlast, hsplit, htrades, -, -, hack, -⟩
  rcases OrderBook.cancelOrder_of_not_points h with hc | hc | ⟨book', hc, hsame⟩
  · rw [process_cancel_refused times failures p pushed ht hlen hc] at hr
    obtain rfl := Except.ok.inj hr
    rw [List.getLast?_concat, Option.some.injEq, OutboundMessage.mk.injEq] at hlast
    have htwo := splitFrames_bytes (short_cancelAckFrame (payloadId m.payload))
      (rejectFrame (payloadId m.payload) Exn.idNotFound.whatBytes).bytes
    rw [hlast.2, hsplit] at htwo
    -- the first of the two frames should be a trade, and is an acknowledgement
    have hfirst := (Prod.mk.inj htwo).1
    cases trades with
    | nil =>
      have hone := splitFrames_bytes
        (short_rejectFrame (payloadId m.payload) (length_whatBytes .idNotFound)) []
      rw [List.append_nil] at hone
      rw [hone] at hfirst
      exact absurd hfirst (by simp)
    | cons f trades =>
      rw [List.cons_append, List.cons.injEq] at hfirst
      have hf := htrades f List.mem_cons_self
      rw [hfirst.1] at hf
      exact absurd hf (show MessageType.CANCEL_ACK.byte ≠ MessageType.TRADE.byte by decide)
  · rw [process_cancel_undefined times failures p pushed ht hlen hc] at hr
    exact absurd hr (by simp)
  · rw [process_cancel times failures p pushed ht hlen hc] at hr
    obtain rfl := Except.ok.inj hr
    rw [List.getLast?_concat, Option.some.injEq, OutboundMessage.mk.injEq] at hlast
    have hone := splitFrames_bytes (short_cancelAckFrame (payloadId m.payload)) []
    rw [List.append_nil, hlast.2, hsplit, splitFrames_nil] at hone
    have hfinal : final = cancelAckFrame (payloadId m.payload) := by
      have hframes := (Prod.mk.inj hone).1
      rw [List.append_eq_singleton_iff] at hframes
      rcases hframes with ⟨-, hf⟩ | ⟨-, hf⟩
      · exact (List.cons.inj hf).1
      · exact absurd hf (by simp)
    obtain ⟨-, book'', hc', hlength⟩ := hack.mp (by rw [hfinal]; rfl)
    rw [hc] at hc'
    obtain rfl := Except.ok.inj hc'
    rw [hsame] at hlength
    omega

end

/-- **When a request is answered once.**  For every state of the processor and every
request that is long enough to be decoded, the reply is zero or more trades and one
final answer, the right one, if and only if the request is a new order or the cancel of
an id whose index entry points to a resting order. -/
theorem answeredOnce_iff (times : Times) (failures : ℕ → ℕ) (p : Processor)
    (pushed : List OutboundMessage) (m : InboundMessage) (hm : m.WellFormed) :
    AnsweredOnce times failures p pushed m ↔
      m.type = .NEW_ORDER ∨ p.book.Points (payloadId m.payload) := by
  constructor
  · intro h
    by_contra hne
    rcases hm with ⟨ht, -⟩ | ⟨ht, hlen⟩
    · exact hne (Or.inl ht)
    · exact not_answeredOnce_cancel ht hlen (fun hp => hne (Or.inr hp)) h
  · intro h
    rcases hm with ⟨ht, hlen⟩ | ⟨ht, hlen⟩
    · exact answeredOnce_newOrder ht hlen
    · rcases h with h | h
      · rw [ht] at h
        exact absurd h (by decide)
      · exact answeredOnce_cancel ht hlen h

/-- A new order of quantity zero. -/
theorem answeredOnce_iff_zero_quantity :
    AnsweredOnce ⟨0, fun _ => 0⟩ (fun _ => 0) .empty []
      ⟨4, .NEW_ORDER, [7, 0, 0, 0, 0, 0, 0, 0, 100, 0, 0, 0, 0, 0, 0, 0, 0, 0, 0, 0, 0, 0]⟩ :=
  (answeredOnce_iff _ _ _ _ _ (by decide)).mpr (Or.inl rfl)

/-- The cancel of an id that the empty book does not know. -/
theorem not_answeredOnce_unknown_id :
    ¬ AnsweredOnce ⟨0, fun _ => 0⟩ (fun _ => 0) .empty []
      ⟨4, .CANCEL_ORDER, [7, 0, 0, 0, 0, 0, 0, 0]⟩ := by
  apply not_answeredOnce_cancel rfl (by decide)
  rintro ⟨loc, n, hloc, -, -⟩
  exact absurd hloc (by simp [Processor.empty, OrderBook.empty])

end Exchange
