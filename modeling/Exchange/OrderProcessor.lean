import Exchange.Book.Operations
import Exchange.Serializer

/-!
# The order processor

`order_processor.cpp`.  The processor takes one request at a time, decodes it, hands it
to the engine or the book, and pushes the answers to the outbound ring.  The reply to
the requesting client is gathered in one buffer; an exception on the way adds a
rejection to whatever the buffer holds by then.

`order_to_client_fd_` is a `std::unordered_map`, read with `operator[]`, which makes an
entry of value 0 where there is none; such reads are recorded in the ghost
`missingReads`.

## Main definitions

* `Processor` — the book and the routing table.
* `tryPush`, `pushRetry` — a push to the outbound ring, repeated until it succeeds.
* `newOrder`, `cancel`, `process` — `OrderProcessor::process`.

## Main results

* `process_newOrder`, `process_newOrder_refused` — what a request for a new order comes
  to.
* `process_cancel`, `process_cancel_refused`, `process_cancel_undefined` — what a
  request to cancel comes to.
-/

namespace Exchange

open Bytes MatchingEngine

/-- The members of the processor that requests change. -/
structure Processor where
  book : OrderBook
  orderToClientFd : OrderId → Option Fd

namespace Processor

/-- A processor over an empty book. -/
def empty : Processor := ⟨.empty, fun _ => none⟩

end Processor

/-! ### The outbound ring -/

/-- `try_push`.  The item is passed by value: a push that finds the ring full loses
nothing but its own copy. -/
def tryPush (full : Bool) (pushed : List OutboundMessage) (item : OutboundMessage) :
    Bool × List OutboundMessage :=
  if full then (false, pushed) else (true, pushed ++ [item])

/-- `while (!outbound_queue_.try_push(o_message)) yield`, where the first `failures`
tries find the ring full. -/
def pushRetry : ℕ → List OutboundMessage → OutboundMessage → List OutboundMessage
  | 0, pushed, item => (tryPush false pushed item).2
  | failures + 1, pushed, item => pushRetry failures (tryPush true pushed item).2 item

/-- However often it fails before, a push in the end adds its message once. -/
@[simp] theorem pushRetry_eq (failures : ℕ) (pushed : List OutboundMessage)
    (item : OutboundMessage) : pushRetry failures pushed item = pushed ++ [item] := by
  induction failures with
  | zero => rfl
  | succ n ih => exact ih

/-! ### Processing a request -/

/-- The readings of the clock while a request is processed: in the constructor of the
decoded order, and during the match. -/
structure Times where
  received : Timestamp
  now : Clock

/-- What is written while a request is processed: the members, the messages pushed to
the outbound ring so far, and the buffer of the reply.  `missingReads` is a ghost: the
keys at which the routing table was read without having them. -/
structure Work where
  processor : Processor
  pushed : List OutboundMessage
  missingReads : List OrderId
  buffer : List UInt8

/-- `operator[]` of the routing table: a missing key is given the value 0. -/
def Work.route (w : Work) (key : OrderId) : Fd × Work :=
  match w.processor.orderToClientFd key with
  | some fd => (fd, w)
  | none =>
      (0, { w with
        processor := { w.processor with
          orderToClientFd := Function.update w.processor.orderToClientFd key (some 0) }
        missingReads := w.missingReads ++ [key] })

/-- The id of the order that was resting, given the side of the order that came in. -/
def Trade.counterparty (side : Side) (trade : Trade) : OrderId :=
  if side = .ASK then trade.buyerOrderId else trade.sellerOrderId

/-- The body of the loop over the trades: the trade is added to the reply, and sent to
the counterparty straight away. -/
def notify (failures : ℕ → ℕ) (side : Side) (w : Work) (trade : Trade) : Work :=
  let w := { w with buffer := serializeTrade trade w.buffer }
  let cpBuffer := serializeTrade trade []
  let (fd, w) := w.route (trade.counterparty side)
  { w with pushed := pushRetry (failures w.pushed.length) w.pushed ⟨fd, cpBuffer⟩ }

/-- The `try` block of `NEW_ORDER`. -/
def newOrder (times : Times) (failures : ℕ → ℕ) (message : InboundMessage) (w : Work) :
    Except (Fault × Work) Work :=
  match deserializeOrder times.received message.payload with
  | .error f => .error (f, w)
  | .ok order =>
      match matchOrder times.now w.processor.book order [] with
      | .error t =>
          .error (.exception t.exn,
            { w with processor := { w.processor with book := t.state.1 } })
      | .ok r =>
          let processor : Processor :=
            ⟨r.book, Function.update w.processor.orderToClientFd order.id (some message.fd)⟩
          let w := r.trades.foldl (notify failures order.side) { w with processor }
          .ok { w with buffer := serializeAcknowledgement ⟨order.id⟩ w.buffer }

/-- The `try` block of `CANCEL_ORDER`: the acknowledgement is written before the order
is cancelled. -/
def cancel (message : InboundMessage) (w : Work) : Except (Fault × Work) Work :=
  match deserializeCancel message.payload with
  | .error f => .error (f, w)
  | .ok id =>
      let w := { w with buffer := serializeCancelAck ⟨id⟩ w.buffer }
      match w.processor.book.cancelOrder id with
      | .error f => .error (f, w)
      | .ok book =>
          .ok { w with
            processor := ⟨book, Function.update w.processor.orderToClientFd id none⟩ }

/-- The bytes of the text of an exception. -/
def Exn.whatBytes (e : Exn) : List UInt8 := e.what.toUTF8.toList

/-- The `catch` block of both cases: a rejection is added to the buffer. -/
def catchRejection (rawId : OrderId) : Except (Fault × Work) Work → Except Fault Work
  | .ok w => .ok w
  | .error (.exception e, w) =>
      .ok { w with buffer := serializeRejection ⟨rawId, e.whatBytes⟩ w.buffer }
  | .error (.undefinedBehaviour, _) => .error .undefinedBehaviour

/-- What `process` leaves: the members, the messages pushed so far, and the ghost. -/
structure Processed where
  processor : Processor
  pushed : List OutboundMessage
  missingReads : List OrderId

/-- `OrderProcessor::process`.  `failures k` is the number of failed tries of a push
that follows `k` earlier ones, and `pushed` are the messages pushed by earlier calls. -/
def process (times : Times) (failures : ℕ → ℕ) (processor : Processor)
    (pushed : List OutboundMessage) (message : InboundMessage) : Except Fault Processed :=
  let w : Work := ⟨processor, pushed, [], []⟩
  let finish (w : Work) : Processed :=
    ⟨w.processor, pushRetry (failures w.pushed.length) w.pushed ⟨message.fd, w.buffer⟩,
      w.missingReads⟩
  if message.type = .NEW_ORDER then
    match readU64 message.payload 0 with
    | .error f => .error f
    | .ok rawId => (catchRejection rawId (newOrder times failures message w)).map finish
  else if message.type = .CANCEL_ORDER then
    match readU64 message.payload 0 with
    | .error f => .error f
    | .ok rawId => (catchRejection rawId (cancel message w)).map finish
  else .error (.exception .unknownMessageType)

/-! ### What a request comes to -/

/-- The messages to the counterparties of a list of trades, looked up in a table. -/
def notices (routes : OrderId → Option Fd) (side : Side) (trades : List Trade) :
    List OutboundMessage :=
  trades.map fun t => ⟨(routes (t.counterparty side)).getD 0, (tradeFrame t).bytes⟩

/-- The table after reads at the counterparties of a list of trades. -/
def readRoutes (routes : OrderId → Option Fd) (side : Side) (trades : List Trade) :
    OrderId → Option Fd := fun id =>
  if routes id = none ∧ id ∈ trades.map (Trade.counterparty side) then some 0 else routes id

theorem readRoutes_nil (routes : OrderId → Option Fd) (side : Side) :
    readRoutes routes side [] = routes := by
  funext id
  simp [readRoutes]

/-- One trade, and what it does to the work. -/
theorem notify_eq (failures : ℕ → ℕ) (side : Side) (w : Work) (trade : Trade) :
    ∃ missed, notify failures side w trade =
        ⟨{ w.processor with
            orderToClientFd := readRoutes w.processor.orderToClientFd side [trade] },
          w.pushed ++ notices w.processor.orderToClientFd side [trade], w.missingReads ++ missed,
          w.buffer ++ (tradeFrame trade).bytes⟩ ∧
      (w.processor.orderToClientFd (trade.counterparty side) ≠ none → missed = []) := by
  cases h : w.processor.orderToClientFd (trade.counterparty side) with
  | some fd =>
    refine ⟨[], ?_, fun _ => rfl⟩
    have hread : readRoutes w.processor.orderToClientFd side [trade]
        = w.processor.orderToClientFd := by
      funext id
      rw [readRoutes, if_neg]
      rintro ⟨hnone, hid⟩
      rw [List.map_singleton, List.mem_singleton] at hid
      rw [hid, h] at hnone
      exact absurd hnone (by simp)
    simp [notify, Work.route, h, hread, notices, serializeTrade_eq]
  | none =>
    -- `operator[]` makes an entry of value 0
    refine ⟨[trade.counterparty side], ?_, fun hne => absurd rfl hne⟩
    have hread : readRoutes w.processor.orderToClientFd side [trade]
        = Function.update w.processor.orderToClientFd (trade.counterparty side) (some 0) := by
      funext id
      by_cases hid : id = trade.counterparty side
      · subst hid
        simp [readRoutes, h]
      · simp [readRoutes, hid]
    simp [notify, Work.route, h, hread, notices, serializeTrade_eq]

theorem readRoutes_cons (routes : OrderId → Option Fd) (side : Side) (t : Trade)
    (trades : List Trade) :
    readRoutes (readRoutes routes side [t]) side trades = readRoutes routes side (t :: trades) := by
  funext id
  by_cases h : routes id = none <;> by_cases hid : id = t.counterparty side <;>
    by_cases hm : id ∈ trades.map (Trade.counterparty side) <;> simp [readRoutes, h, hid, hm] <;>
    simp_all

/-- Reads do not change what later reads find. -/
theorem notices_readRoutes (routes : OrderId → Option Fd) (side : Side) (t : Trade)
    (trades : List Trade) :
    notices (readRoutes routes side [t]) side trades = notices routes side trades := by
  unfold notices
  congr 1
  funext t'
  unfold readRoutes
  split
  · next h => rw [h.1]; rfl
  · rfl

/-- **The loop over the trades.** -/
theorem foldl_notify_eq (failures : ℕ → ℕ) (side : Side) (trades : List Trade) (w : Work) :
    ∃ missed, trades.foldl (notify failures side) w =
        ⟨{ w.processor with
            orderToClientFd := readRoutes w.processor.orderToClientFd side trades },
          w.pushed ++ notices w.processor.orderToClientFd side trades, w.missingReads ++ missed,
          w.buffer ++ (trades.map fun t => (tradeFrame t).bytes).flatten⟩ ∧
      ((∀ t ∈ trades, w.processor.orderToClientFd (t.counterparty side) ≠ none) →
        missed = []) := by
  induction trades generalizing w with
  | nil => exact ⟨[], by simp [readRoutes_nil, notices], fun _ => rfl⟩
  | cons t trades ih =>
    obtain ⟨missed, heq, hmissed⟩ := notify_eq failures side w t
    obtain ⟨missed', heq', hmissed'⟩ := ih (notify failures side w t)
    rw [heq] at heq' hmissed'
    refine ⟨missed ++ missed', ?_, fun hall => ?_⟩
    · rw [List.foldl_cons, heq, heq', readRoutes_cons, notices_readRoutes]
      simp [notices]
    · have hsame : readRoutes w.processor.orderToClientFd side [t]
          = w.processor.orderToClientFd := by
        funext id
        rw [readRoutes, if_neg]
        rintro ⟨hnone, hid⟩
        rw [List.map_singleton, List.mem_singleton] at hid
        exact hall t List.mem_cons_self (hid ▸ hnone)
      rw [hmissed (hall t List.mem_cons_self), hmissed' fun t' ht' => ?_, List.append_nil]
      rw [hsame]
      exact hall t' (List.mem_cons_of_mem t ht')

/-- The texts of the exceptions fit the length field of a rejection. -/
theorem length_whatBytes (e : Exn) : e.whatBytes.length < 2 ^ 32 - 12 := by
  cases e <;> decide +kernel

section Requests

variable (times : Times) (failures : ℕ → ℕ) (p : Processor) (pushed : List OutboundMessage)
  {m : InboundMessage}

/-- **A new order that is decoded** is matched and routed; its counterparties are
notified, and the reply is the trades and the acknowledgement. -/
theorem process_newOrder (ht : m.type = .NEW_ORDER) (hlen : 22 ≤ m.payload.length) {order : Order}
    (hd : deserializeOrder times.received m.payload = .ok order) {r : Matched}
    (hm : matchOrder times.now p.book order [] = .ok r) :
    ∃ missed, process times failures p pushed m = .ok
        ⟨⟨r.book, readRoutes (Function.update p.orderToClientFd order.id (some m.fd)) order.side
            r.trades⟩,
          pushed ++ notices (Function.update p.orderToClientFd order.id (some m.fd)) order.side
            r.trades
            ++ [⟨m.fd, (r.trades.map fun t => (tradeFrame t).bytes).flatten
              ++ (ackFrame order.id).bytes⟩], missed⟩ ∧
      ((∀ t ∈ r.trades, Function.update p.orderToClientFd order.id (some m.fd)
        (t.counterparty order.side) ≠ none) → missed = []) := by
  obtain ⟨missed, hfold, hmissed⟩ := foldl_notify_eq failures order.side r.trades
    ⟨⟨r.book, Function.update p.orderToClientFd order.id (some m.fd)⟩, pushed, [], []⟩
  refine ⟨missed, ?_, hmissed⟩
  unfold process
  simp only [if_pos ht, readU64_zero (show 8 ≤ m.payload.length by omega), newOrder, hd, hm,
    hfold, catchRejection, Except.map, pushRetry_eq, serializeAcknowledgement_eq, List.nil_append]

/-- A new order that the constructor refuses is rejected, and nothing else happens. -/
theorem process_newOrder_refused (ht : m.type = .NEW_ORDER) (hlen : 22 ≤ m.payload.length)
    {e : Exn} (hd : deserializeOrder times.received m.payload = .error (.exception e)) :
    process times failures p pushed m = .ok
      ⟨p, pushed ++ [⟨m.fd, (rejectFrame (payloadId m.payload) e.whatBytes).bytes⟩], []⟩ := by
  unfold process
  simp only [if_pos ht, readU64_zero (show 8 ≤ m.payload.length by omega), newOrder, hd,
    catchRejection, Except.map, pushRetry_eq, serializeRejection_eq _ (length_whatBytes e),
    List.nil_append]

variable (ht : m.type = .CANCEL_ORDER) (hlen : 8 ≤ m.payload.length)

include ht hlen

/-- A cancel that the book carries out is acknowledged, and its route is dropped. -/
theorem process_cancel {book : OrderBook}
    (hc : p.book.cancelOrder (payloadId m.payload) = .ok book) :
    process times failures p pushed m = .ok
      ⟨⟨book, Function.update p.orderToClientFd (payloadId m.payload) none⟩,
        pushed ++ [⟨m.fd, (cancelAckFrame (payloadId m.payload)).bytes⟩], []⟩ := by
  have hne : m.type ≠ .NEW_ORDER := by rw [ht]; decide
  unfold process
  simp only [if_neg hne, if_pos ht, readU64_zero hlen, cancel, deserializeCancel_of_le hlen, hc,
    catchRejection, Except.map, pushRetry_eq, serializeCancelAck_eq, List.nil_append]

/-- A cancel that the book refuses is acknowledged and rejected in one reply. -/
theorem process_cancel_refused {e : Exn}
    (hc : p.book.cancelOrder (payloadId m.payload) = .error (.exception e)) :
    process times failures p pushed m = .ok
      ⟨p, pushed ++ [⟨m.fd, (cancelAckFrame (payloadId m.payload)).bytes
        ++ (rejectFrame (payloadId m.payload) e.whatBytes).bytes⟩], []⟩ := by
  have hne : m.type ≠ .NEW_ORDER := by rw [ht]; decide
  unfold process
  simp only [if_neg hne, if_pos ht, readU64_zero hlen, cancel, deserializeCancel_of_le hlen, hc,
    catchRejection, Except.map, pushRetry_eq, serializeCancelAck_eq,
    serializeRejection_eq _ (length_whatBytes e), List.nil_append]

/-- A cancel that erases a dead position has undefined behaviour. -/
theorem process_cancel_undefined
    (hc : p.book.cancelOrder (payloadId m.payload) = .error .undefinedBehaviour) :
    process times failures p pushed m = .error .undefinedBehaviour := by
  have hne : m.type ≠ .NEW_ORDER := by rw [ht]; decide
  unfold process
  simp only [if_neg hne, if_pos ht, readU64_zero hlen, cancel, deserializeCancel_of_le hlen, hc,
    catchRejection, Except.map]

end Requests

end Exchange
