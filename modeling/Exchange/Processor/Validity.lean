import Exchange.Book.Execution
import Exchange.Processor.Answers

/-!
# Which new orders are accepted

The bytes of a payload become the fields of an order, the constructor checks quantity and
price by the type of the order, and `match` and `add_order` test for the sides and types
they know.  A side or type byte of another value passes all three: the order is
acknowledged, and it is neither traded nor put into the book as its type would have it.

## Main definitions

* `ValidPayload` — the payload of a valid order.
* `RefusedPayload` — one that the constructor refuses.
* `Accounted` — the quantity of an order is traded, rests, or is dropped.
* `AcceptsExactly` — a request is acknowledged exactly when it is valid.

## Main results

* `acceptsExactly_iff` — it is, for every payload of 22 bytes whose side and type bytes are
  known or that the constructor refuses, and for no other.
-/

namespace Exchange

open Bytes MatchingEngine

/-- The payload of a valid order: its side and type bytes are known, and so are its quantity
and price such as its type needs. -/
def ValidPayload (payload : List UInt8) : Prop :=
  (payloadSide payload = .BID ∨ payloadSide payload = .ASK) ∧
    (payloadOrderType payload = .LIMIT ∨ payloadOrderType payload = .MARKET) ∧
    payloadQuantity payload ≠ 0 ∧
    (payloadOrderType payload = .LIMIT → 0 < payloadPrice payload) ∧
    (payloadOrderType payload = .MARKET → payloadPrice payload = 0)

/-- The payload of an order that the constructor refuses. -/
def RefusedPayload (payload : List UInt8) : Prop :=
  payloadQuantity payload = 0 ∨
    payloadOrderType payload = .LIMIT ∧ payloadPrice payload = 0 ∨
    payloadOrderType payload = .MARKET ∧ 0 < payloadPrice payload

/-- The side and type bytes are known. -/
def KnownBytes (payload : List UInt8) : Prop :=
  (payloadSide payload = .BID ∨ payloadSide payload = .ASK) ∧
    (payloadOrderType payload = .LIMIT ∨ payloadOrderType payload = .MARKET)

/-- The quantity of an order is accounted for: what was not traded rests at the price of a
limit order, or is dropped for a market order, whose side stays as it was. -/
structure Accounted (book book' : OrderBook) (payload : List UInt8) (made : List Trade)
    (rest : ℕ) : Prop where
  total : (made.map fun t => t.quantity.toNat).sum + rest = (payloadQuantity payload).toNat
  resting : payloadOrderType payload = .LIMIT →
    book'.quantityAt (payloadSide payload) (payloadPrice payload)
      = book.quantityAt (payloadSide payload) (payloadPrice payload) + rest
  dropped : payloadOrderType payload = .MARKET →
    book'.restingOn (payloadSide payload) = book.restingOn (payloadSide payload)

/-- The reply to a request for a new order is its trades and an acknowledgement, with the
quantity of the order accounted for, exactly when the payload is valid, and a rejection for
every other payload. -/
def AcceptsExactly (times : Times) (failures : ℕ → ℕ) (p : Processor)
    (pushed : List OutboundMessage) (m : InboundMessage) : Prop :=
  ∃ r reply made final, process times failures p pushed m = .ok r ∧
    r.pushed.getLast? = some ⟨m.fd, reply⟩ ∧
    splitFrames reply = (made.map tradeFrame ++ [final], []) ∧
    (final.type = MessageType.ORDER_ACK.byte ↔ ValidPayload m.payload) ∧
    (final.type = MessageType.REJECT.byte ↔ ¬ ValidPayload m.payload) ∧
    (final.type = MessageType.ORDER_ACK.byte →
      ∃ rest, Accounted p.book r.processor.book m.payload made rest)

/-! ### The constructor decides -/

/-- A payload that is not refused passes the checks of the constructor. -/
theorem not_refusedPayload_iff {payload : List UInt8} :
    ¬ RefusedPayload payload ↔ (payloadOrderType payload = .LIMIT → 0 < payloadPrice payload) ∧
      (payloadOrderType payload = .MARKET → payloadPrice payload = 0) ∧
      0 < payloadQuantity payload := by
  rw [RefusedPayload, not_or, not_or]
  constructor
  · rintro ⟨hq, hl, hm⟩
    refine ⟨fun ht => ?_, fun ht => ?_, UInt32.pos_iff_ne_zero.mpr hq⟩
    · exact UInt64.pos_iff_ne_zero.mpr fun hp => hl ⟨ht, hp⟩
    · exact UInt64.le_zero_iff.mp (UInt64.not_lt.mp fun hp => hm ⟨ht, hp⟩)
  · rintro ⟨hl, hm, hq⟩
    refine ⟨UInt32.pos_iff_ne_zero.mp hq, ?_, ?_⟩
    · rintro ⟨ht, hp⟩
      exact UInt64.pos_iff_ne_zero.mp (hl ht) hp
    · rintro ⟨ht, hp⟩
      exact UInt64.pos_iff_ne_zero.mp hp (hm ht)

/-- A payload is valid when its bytes are known and the constructor does not refuse it. -/
theorem validPayload_iff {payload : List UInt8} :
    ValidPayload payload ↔ KnownBytes payload ∧ ¬ RefusedPayload payload := by
  rw [not_refusedPayload_iff, ValidPayload, KnownBytes, UInt32.pos_iff_ne_zero]
  tauto

/-- The constructor refuses a payload, or accepts the order of its fields. -/
theorem deserializeOrder_of_payload (now : Timestamp) {payload : List UInt8}
    (hlen : 22 ≤ payload.length) :
    (RefusedPayload payload ∧ ∃ e, deserializeOrder now payload = .error (.exception e)) ∨
      ¬ RefusedPayload payload ∧ ∃ order, deserializeOrder now payload = .ok order ∧
        order.Constructed ∧ order = ⟨now, payloadId payload, payloadPrice payload,
          payloadQuantity payload, payloadSide payload, payloadOrderType payload⟩ := by
  rcases deserializeOrder_cases now hlen with ⟨order, hd, hc, -⟩ | ⟨e, hd⟩
  · obtain ⟨hfields, -⟩ := deserializeOrder_eq_ok hlen hd
    refine Or.inr ⟨not_refusedPayload_iff.mpr ?_, order, hd, hc, hfields⟩
    rw [hfields] at hc
    exact Order.constructed_iff.mp hc
  · refine Or.inl ⟨?_, e, hd⟩
    by_contra hnot
    -- the checks would have passed
    have hc : Order.Constructed ⟨now, payloadId payload, payloadPrice payload,
        payloadQuantity payload, payloadSide payload, payloadOrderType payload⟩ :=
      Order.constructed_iff.mpr (not_refusedPayload_iff.mp hnot)
    rw [Order.Constructed] at hc
    rw [deserializeOrder_of_le now hlen, hc] at hd
    exact absurd hd (by simp [Except.mapError])

/-! ### The reply -/

section Reply

variable (times : Times) (failures : ℕ → ℕ) (p : Processor) (pushed : List OutboundMessage)
  {m : InboundMessage}

/-- A payload that the constructor refuses is rejected. -/
theorem acceptsExactly_of_refused (ht : m.type = .NEW_ORDER) (hlen : 22 ≤ m.payload.length)
    (h : RefusedPayload m.payload) : AcceptsExactly times failures p pushed m := by
  have hinvalid : ¬ ValidPayload m.payload := fun hv => (validPayload_iff.mp hv).2 h
  rcases deserializeOrder_of_payload times.received hlen with ⟨-, e, hd⟩ | ⟨hnot, -⟩
  · refine ⟨_, _, [], rejectFrame (payloadId m.payload) e.whatBytes,
      process_newOrder_refused times failures p pushed ht hlen hd, List.getLast?_concat,
      splitFrames_reply [] (short_rejectFrame _ (length_whatBytes e)), ?_, ?_, fun hack => ?_⟩
    · exact iff_of_false (show MessageType.REJECT.byte ≠ MessageType.ORDER_ACK.byte by decide)
        hinvalid
    · exact iff_of_true rfl hinvalid
    · exact absurd hack (show MessageType.REJECT.byte ≠ MessageType.ORDER_ACK.byte by decide)
  · exact absurd h hnot

/-- Any other payload is acknowledged. -/
theorem process_of_not_refused (ht : m.type = .NEW_ORDER) (hlen : 22 ≤ m.payload.length)
    (h : ¬ RefusedPayload m.payload) :
    ∃ order r q, order.Constructed ∧ order = ⟨times.received, payloadId m.payload,
        payloadPrice m.payload, payloadQuantity m.payload, payloadSide m.payload,
        payloadOrderType m.payload⟩ ∧
      matchOrder times.now p.book order [] = .ok q ∧
      process times failures p pushed m = .ok r ∧ r.processor.book = q.book ∧
      r.pushed.getLast? = some ⟨m.fd, (q.trades.map fun t => (tradeFrame t).bytes).flatten
        ++ (ackFrame (payloadId m.payload)).bytes⟩ := by
  rcases deserializeOrder_of_payload times.received hlen with
    ⟨href, -⟩ | ⟨-, order, hd, hc, hfields⟩
  · exact absurd href h
  · obtain ⟨mid, subs, -, -, hm⟩ := matchOrder_eq hc times.now p.book []
    obtain ⟨missed, heq, -⟩ := process_newOrder times failures p pushed ht hlen hd hm
    refine ⟨order, _, _, hc, hfields, hm, heq, rfl, ?_⟩
    rw [List.getLast?_concat, hfields]

/-- What is acknowledged, and not refused, must have known bytes. -/
theorem knownBytes_of_acceptsExactly (ht : m.type = .NEW_ORDER) (hlen : 22 ≤ m.payload.length)
    (hnot : ¬ RefusedPayload m.payload) (h : AcceptsExactly times failures p pushed m) :
    KnownBytes m.payload := by
  obtain ⟨r, reply, made, final, heq, hlast, hsplit, hack, -⟩ := h
  obtain ⟨order, r', q, -, -, -, heq', -, hlast'⟩ :=
    process_of_not_refused times failures p pushed ht hlen hnot
  obtain rfl := Except.ok.inj (heq.symm.trans heq')
  rw [hlast', Option.some.injEq, OutboundMessage.mk.injEq] at hlast
  rw [← hlast.2, splitFrames_reply _ (short_ackFrame _), Prod.mk.injEq] at hsplit
  -- the last frame of the reply is the acknowledgement
  have hfinal : ackFrame (payloadId m.payload) = final :=
    (List.cons.inj (List.append_inj' hsplit.1 rfl).2).1
  have hvalid : ValidPayload m.payload := hack.mp (by rw [← hfinal]; rfl)
  exact (validPayload_iff.mp hvalid).1

/-- A valid payload is acknowledged, and its quantity is accounted for. -/
theorem acceptsExactly_of_known (ht : m.type = .NEW_ORDER) (hlen : 22 ≤ m.payload.length)
    (hnot : ¬ RefusedPayload m.payload) (h : KnownBytes m.payload) :
    AcceptsExactly times failures p pushed m := by
  have hvalid : ValidPayload m.payload := validPayload_iff.mpr ⟨h, hnot⟩
  obtain ⟨order, r, q, hc, hfields, hm, heq, hbook, hlast⟩ :=
    process_of_not_refused times failures p pushed ht hlen hnot
  have hs : order.side.IsProper := by rw [hfields]; exact h.1
  obtain ⟨q', hm', hserves⟩ := matchOrder_serves hc hs times.now p.book []
  obtain rfl := Except.ok.inj (hm.symm.trans hm')
  refine ⟨r, _, q.trades, _, heq, hlast, splitFrames_reply _ (short_ackFrame _),
    iff_of_true rfl hvalid, ?_, fun _ => ⟨q.remaining.toNat, ?_, ?_, ?_⟩⟩
  · exact iff_of_false (show MessageType.ORDER_ACK.byte ≠ MessageType.REJECT.byte by decide)
      fun hinvalid => hinvalid hvalid
  · have hsum := hserves.sum_made 0
    rw [hfields] at hsum
    rw [hserves.trades, List.nil_append, hfields]
    exact hsum
  · intro hl
    have hrest := hserves.quantityAt_limit hs (by rw [hfields]; exact hl)
    rw [hfields] at hrest
    rw [hbook]
    exact hrest
  · intro hmarket
    have hdrop := hserves.restingOn_market hs (by rw [hfields]; exact hmarket)
    rw [hfields] at hdrop
    rw [hbook]
    exact hdrop

end Reply

/-- **When exactly the valid orders are accepted.**  For every state of the processor and
every payload of 22 bytes, the request is acknowledged and its quantity accounted for if it
is valid, and rejected if it is not, if and only if its side and type bytes are known or the
constructor refuses it: because its quantity is zero, because it is a limit order of price
zero, or because it is a market order with a price. -/
theorem acceptsExactly_iff (times : Times) (failures : ℕ → ℕ) (p : Processor)
    (pushed : List OutboundMessage) (m : InboundMessage) (ht : m.type = .NEW_ORDER)
    (hlen : m.payload.length = 22) :
    AcceptsExactly times failures p pushed m ↔
      KnownBytes m.payload ∨ RefusedPayload m.payload := by
  have hle : 22 ≤ m.payload.length := Nat.le_of_eq hlen.symm
  by_cases href : RefusedPayload m.payload
  · exact iff_of_true (acceptsExactly_of_refused times failures p pushed ht hle href) (Or.inr href)
  · rw [or_iff_left href]
    constructor
    · exact knownBytes_of_acceptsExactly times failures p pushed ht hle href
    · exact acceptsExactly_of_known times failures p pushed ht hle href

/-- A bid for 5 at 100 in the empty book. -/
theorem acceptsExactly_iff_bid :
    AcceptsExactly ⟨0, fun _ => 0⟩ (fun _ => 0) .empty []
      ⟨4, .NEW_ORDER, [7, 0, 0, 0, 0, 0, 0, 0, 100, 0, 0, 0, 0, 0, 0, 0, 5, 0, 0, 0, 0, 0]⟩ :=
  (acceptsExactly_iff _ _ _ _ _ rfl rfl).mpr
    (Or.inl ⟨Or.inl (by decide), Or.inl (by decide)⟩)

/-- An order whose side byte is 7 is acknowledged. -/
theorem not_acceptsExactly_unknown_side :
    ¬ AcceptsExactly ⟨0, fun _ => 0⟩ (fun _ => 0) .empty []
      ⟨4, .NEW_ORDER, [7, 0, 0, 0, 0, 0, 0, 0, 100, 0, 0, 0, 0, 0, 0, 0, 5, 0, 0, 0, 7, 0]⟩ := by
  intro h
  have hnot : ¬ RefusedPayload
      [7, 0, 0, 0, 0, 0, 0, 0, 100, 0, 0, 0, 0, 0, 0, 0, 5, 0, 0, 0, 7, 0] :=
    not_refusedPayload_iff.mpr ⟨by decide, by decide, by decide⟩
  have hknown := knownBytes_of_acceptsExactly _ _ _ _ rfl (by decide) hnot h
  exact absurd hknown.1 (by decide)

end Exchange
