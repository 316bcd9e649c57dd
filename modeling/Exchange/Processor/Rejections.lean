import Exchange.Processor.Faults

/-!
# A rejected request changes nothing

One `try` block covers decoding, matching, the update of the routing table and the notices
to the counterparties.  An exception after the first fill would leave trades that were made
and reported as rejected.  There is none: an order is rejected by its constructor, before
the book is touched, and a cancel by the lookup of its id.

## Main definitions

* `Rejects` — among the messages there is one with a `REJECT` frame.
* `ChangesNothing` — the members are as before, and nobody else is told.

## Main results

* `rejected_changes_nothing` — in every state that the processor can reach.
-/

namespace Exchange

open Bytes MatchingEngine

/-- One of the messages has a `REJECT` frame. -/
def Rejects (ms : List OutboundMessage) : Prop :=
  ∃ x ∈ ms, ∃ f ∈ (splitFrames x.payload).1, f.type = MessageType.REJECT.byte

/-- The members of the processor are as before, and what is pushed goes to the connection of
the request. -/
def ChangesNothing (p : Processor) (m : InboundMessage) (p' : Processor)
    (new : List OutboundMessage) : Prop :=
  p' = p ∧ ∀ x ∈ new, x.fd = m.fd

/-- A message of trades and one final frame rejects nothing when that frame does not. -/
theorem not_reject_of_mem_reply (trades : List Trade) {final f : Frame} (h : final.Short)
    (hne : final.type ≠ MessageType.REJECT.byte)
    (hf : f ∈ (splitFrames ((trades.map fun t => (tradeFrame t).bytes).flatten
      ++ final.bytes)).1) : f.type ≠ MessageType.REJECT.byte := by
  rw [splitFrames_reply trades h, List.mem_append] at hf
  rcases hf with hf | hf
  · obtain ⟨t, -, rfl⟩ := List.mem_map.mp hf
    exact show MessageType.TRADE.byte ≠ MessageType.REJECT.byte by decide
  · rw [List.mem_singleton.mp hf]
    exact hne

/-- The messages pushed for an order that is matched reject nothing. -/
theorem not_rejects_newOrder (routes : OrderId → Option Fd) (side : Side) (trades : List Trade)
    (fd : Fd) (id : OrderId) :
    ¬ Rejects (notices routes side trades
      ++ [⟨fd, (trades.map fun t => (tradeFrame t).bytes).flatten ++ (ackFrame id).bytes⟩]) := by
  rintro ⟨x, hx, f, hf, hreject⟩
  rcases List.mem_append.mp hx with hx | hx
  · -- the notice to a counterparty is one trade
    obtain ⟨t, -, rfl⟩ := List.mem_map.mp hx
    have hne : (tradeFrame t).type ≠ MessageType.REJECT.byte :=
      show MessageType.TRADE.byte ≠ MessageType.REJECT.byte by decide
    exact not_reject_of_mem_reply [] (short_tradeFrame t) hne hf hreject
  · obtain rfl := List.mem_singleton.mp hx
    have hne : (ackFrame id).type ≠ MessageType.REJECT.byte :=
      show MessageType.ORDER_ACK.byte ≠ MessageType.REJECT.byte by decide
    exact not_reject_of_mem_reply trades (short_ackFrame id) hne hf hreject

/-- The message pushed for a cancel that is carried out rejects nothing. -/
theorem not_rejects_cancel (fd : Fd) (id : OrderId) :
    ¬ Rejects [⟨fd, (cancelAckFrame id).bytes⟩] := by
  rintro ⟨x, hx, f, hf, hreject⟩
  obtain rfl := List.mem_singleton.mp hx
  have hne : (cancelAckFrame id).type ≠ MessageType.REJECT.byte :=
    show MessageType.CANCEL_ACK.byte ≠ MessageType.REJECT.byte by decide
  exact not_reject_of_mem_reply [] (short_cancelAckFrame id) hne hf hreject

/-- The message pushed for an order that the constructor refuses is a rejection. -/
theorem rejects_rejectFrame (fd : Fd) (id : OrderId) (e : Exn) :
    Rejects [⟨fd, (rejectFrame id e.whatBytes).bytes⟩] := by
  have hsplit := splitFrames_reply [] (short_rejectFrame id (length_whatBytes e))
  refine ⟨_, List.mem_singleton_self _, rejectFrame id e.whatBytes, ?_, rfl⟩
  rw [List.map_nil, List.flatten_nil, List.nil_append] at hsplit
  rw [hsplit]
  exact List.mem_singleton_self _

section

variable (times : Times) (failures : ℕ → ℕ) {p : Processor} (pushed : List OutboundMessage)
  {m : InboundMessage}

/-- A new order. -/
theorem changesNothing_newOrder (ht : m.type = .NEW_ORDER) (hlen : 22 ≤ m.payload.length) :
    ∃ r new, process times failures p pushed m = .ok r ∧ r.pushed = pushed ++ new ∧
      (Rejects new → ChangesNothing p m r.processor new) := by
  rcases deserializeOrder_cases times.received hlen with ⟨order, hd, hc, -⟩ | ⟨e, hd⟩
  · -- `match` returns, so that the order is acknowledged
    obtain ⟨mid, subs, -, -, hm⟩ := matchOrder_eq hc times.now p.book []
    obtain ⟨missed, heq, -⟩ := process_newOrder times failures p pushed ht hlen hd hm
    refine ⟨_, _, heq, List.append_assoc _ _ _, fun hreject => ?_⟩
    exact absurd hreject (not_rejects_newOrder _ _ _ _ _)
  · refine ⟨_, _, process_newOrder_refused times failures p pushed ht hlen hd, rfl, fun _ => ?_⟩
    exact ⟨rfl, fun x hx => by rw [List.mem_singleton.mp hx]⟩

/-- A cancel. -/
theorem changesNothing_cancel (h : p.book.Inv) (ht : m.type = .CANCEL_ORDER)
    (hlen : 8 ≤ m.payload.length) :
    ∃ r new, process times failures p pushed m = .ok r ∧ r.pushed = pushed ++ new ∧
      (Rejects new → ChangesNothing p m r.processor new) := by
  cases hloc : p.book.orderMap (payloadId m.payload) with
  | none =>
    have hc := OrderBook.cancelOrder_of_none hloc
    refine ⟨_, _, process_cancel_refused times failures p pushed ht hlen hc, rfl, fun _ => ?_⟩
    exact ⟨rfl, fun x hx => by rw [List.mem_singleton.mp hx]⟩
  | some loc =>
    -- the entry points to a resting order, which is erased
    obtain ⟨n, book', -, -, hc, -⟩ := h.cancelOrder_eq_ok hloc
    refine ⟨_, _, process_cancel times failures p pushed ht hlen hc, rfl, fun hreject => ?_⟩
    exact absurd hreject (not_rejects_cancel _ _)

end

/-- **A rejected request changes nothing.**  In every state that the processor can reach, a
well-formed request is processed, and if one of the messages it pushes is a rejection then
the book, its index and the routing table are as before and every message it pushes goes to
the connection of the request.  There `match` returns for every order that has been
constructed, so that no order is rejected after a part of it has been traded. -/
theorem rejected_changes_nothing {failures : ℕ → ℕ} {inputs : List Input} {s : Session}
    (hrun : Session.empty.run failures inputs = .ok s) :
    (∀ (times : Times) (m : InboundMessage), m.WellFormed →
      ∃ r new, process times failures s.processor s.pushed m = .ok r ∧
        r.pushed = s.pushed ++ new ∧ (Rejects new → ChangesNothing s.processor m r.processor new)) ∧
    ∀ (now : Clock) (order : Order) (trades : List Trade), order.Constructed →
      ∃ q, matchOrder now s.processor.book order trades = .ok q := by
  constructor
  · intro times m hw
    have hinv := Session.inv_run OrderBook.inv_empty hrun
    rcases hw with ⟨ht, hlen⟩ | ⟨ht, hlen⟩
    · exact changesNothing_newOrder times failures s.pushed ht hlen
    · exact changesNothing_cancel times failures s.pushed hinv ht hlen
  · intro now order trades hc
    obtain ⟨mid, subs, -, -, hm⟩ := matchOrder_eq hc now s.processor.book trades
    exact ⟨_, hm⟩

/-- After an ask from connection 4 has come to rest, a new order of quantity zero under its
id from connection 9. -/
theorem rejected_changes_nothing_zero_quantity :
    ∃ s r new, Session.empty.run (fun _ => 0) [askFive 4 100] = .ok s ∧
      process ⟨0, fun _ => 0⟩ (fun _ => 0) s.processor s.pushed ⟨9, .NEW_ORDER,
        [5, 0, 0, 0, 0, 0, 0, 0, 100, 0, 0, 0, 0, 0, 0, 0, 0, 0, 0, 0, 0, 0]⟩ = .ok r ∧
      r.pushed = s.pushed ++ new ∧ Rejects new ∧ r.processor = s.processor ∧
      ∀ x ∈ new, x.fd = 9 := by
  have heval : ((Session.empty.run (fun _ => 0) [askFive 4 100]).toOption.map
      fun s => s.pushed.length) = some 1 := by
    decide +kernel
  obtain ⟨s, hs, -⟩ := exists_ok_of_toOption heval
  obtain ⟨r, new, hr, hnew, hnothing⟩ := (rejected_changes_nothing hs).1 ⟨0, fun _ => 0⟩
    ⟨9, .NEW_ORDER, [5, 0, 0, 0, 0, 0, 0, 0, 100, 0, 0, 0, 0, 0, 0, 0, 0, 0, 0, 0, 0, 0]⟩
    (by decide)
  have hreject : Rejects new := by
    have heq := process_newOrder_refused _ _ _ _ rfl (by decide) rfl |>.symm.trans hr
    have hpushed := congrArg Processed.pushed (Except.ok.inj heq)
    rw [hnew] at hpushed
    rw [← List.append_cancel_left hpushed]
    exact rejects_rejectFrame _ _ _
  obtain ⟨hsame, hfd⟩ := hnothing hreject
  exact ⟨s, r, new, hs, hr, hnew, hreject, hsame, hfd⟩

end Exchange
