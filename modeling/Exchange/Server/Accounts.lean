import Exchange.Processor.Accounts
import Exchange.Server.Linearization

/-!
# What a client knows of its orders

From the bytes it is sent a client can work out what is left of its limit orders in the book.
It adds up the quantities in the trade frames that name the order; a trade with another order
of its own it counts half, since it is told of it twice.

## Main results

* `limit_order_told` — what a connection is told of a limit order, and what rests of it, add
  up to its quantity.
-/

namespace Exchange

open Bytes

/-- **A connection is told of all that happens to its limit orders.**  In every run in which
accepted orders have distinct ids and known sides and types, take an open connection that is
the first to have its descriptor, other than 0, and a limit order that has been processed for
it and that no cancel names.  In the bytes that the kernel has taken for the connection, those
still to be sent and those on their way to it, the trade frames that name the order on its side
add up: every trade with an order of another connection is there once, every trade with an
order of its own is there twice, and with what rests of the order in the book they give its
quantity. -/
theorem limit_order_told {reserved : Fd → Bool} {events : List Event} {sys : System}
    (hrun : System.run reserved events = some sys) (hids : (acceptedIds sys.processed).Nodup)
    (hproper : ∀ j ∈ sys.processed, ∀ order, j.accepted = some order → order.Proper) {fd : Fd}
    (hzero : fd ≠ 0) (hactive : (sys.server.client fd).active = true)
    (hfirst : events.countP (Event.accepts fd) ≤ 1) {i : Input} (hi : i ∈ sys.processed)
    (hfd : i.message.fd = fd) {order : Order} (ho : i.accepted = some order)
    (hlimit : order.orderType = .LIMIT)
    (hkept : ∀ j ∈ sys.processed, j.message.type = .CANCEL_ORDER →
      payloadId j.message.payload ≠ order.id) :
    ∃ within,
      toldIn (tradesWithin sys.processed fd order.side order.id)
          (sys.server.wire fd ++ (sys.server.unsent fd ++ sys.inFlight fd)) = 2 * within ∧
        order.quantity.toNat
          = toldIn (tradesOutside sys.processed fd order.side order.id)
              (sys.server.wire fd ++ (sys.server.unsent fd ++ sys.inFlight fd)) + within
            + restingTotal order.side order.id sys.session.processor.book := by
  obtain ⟨trades, htold⟩ := Session.Told.run (System.session_of_run hrun) hids hproper
  have hstream : ∀ p, toldIn p (sys.server.wire fd ++ (sys.server.unsent fd ++ sys.inFlight fd))
      = toldOf sys.processed fd p trades := by
    intro p
    have hattended := System.attended_of_run hrun hzero hactive hfirst
    rw [hattended.stream (System.OutInv.run hrun) hactive, toldIn_payloads p fd htold.whole,
      htold.told]
  have hown : submitterOf sys.processed order.id = some fd := by
    obtain ⟨done, rest, hsplit⟩ := List.append_of_mem hi
    rw [hsplit] at hids ⊢
    rw [submitterOf_mem hids ho, hfd]
  obtain ⟨within, htwice, htotal⟩ := toldOf_own (hproper i hi order ho).1 hown trades
  refine ⟨within, by rw [hstream, htwice], ?_⟩
  rw [hstream, ← htotal]
  exact htold.balanced i hi order ho hlimit hkept

/-- After another connection has bought four of the ten of an ask, the seller buys three of
what is left. -/
def ownTradeEvents : List Event :=
  historyEvents ++
    [.read 5 [.chunk 1 [0, 0, 0, 22, 9, 0, 0, 0, 0, 0, 0, 0, 100, 0, 0, 0, 0, 0, 0, 0, 3, 0, 0, 0,
      0, 0]] (fun _ => true), .process ⟨0, fun _ => 0⟩, .push, .drain]

/-- The seller is told of the four once and of the three twice, and three rest. -/
theorem limit_order_told_crossing :
    ∃ sys, System.run (fun fd => fd < 5) ownTradeEvents = some sys ∧ ∃ within,
      toldIn (tradesWithin sys.processed 5 .ASK 7)
          (sys.server.wire 5 ++ (sys.server.unsent 5 ++ sys.inFlight 5)) = 2 * within ∧
        10 = toldIn (tradesOutside sys.processed 5 .ASK 7)
              (sys.server.wire 5 ++ (sys.server.unsent 5 ++ sys.inFlight 5)) + within
            + restingTotal .ASK 7 sys.session.processor.book ∧
        within = 3 ∧ restingTotal .ASK 7 sys.session.processor.book = 3 := by
  have heval : (System.run (fun fd => fd < 5) ownTradeEvents).map (fun sys =>
      ((sys.server.client 5).active, acceptedIds sys.processed,
        sys.processed.all fun j => j.accepted.all fun order => decide order.Proper,
        sys.processed.map fun i => i.message.type))
      = some (true, [7, 8, 9], true, [.NEW_ORDER, .NEW_ORDER, .NEW_ORDER]) := by decide +kernel
  have horders : (System.run (fun fd => fd < 5) ownTradeEvents).map (fun sys =>
      sys.processed.map fun i => (i.message.fd, i.accepted))
      = some [(5, some ⟨0, 7, 100, 10, .ASK, .LIMIT⟩), (6, some ⟨0, 8, 100, 4, .BID, .LIMIT⟩),
        (5, some ⟨0, 9, 100, 3, .BID, .LIMIT⟩)] := by decide +kernel
  have htold : (System.run (fun fd => fd < 5) ownTradeEvents).map (fun sys =>
      (toldIn (tradesWithin sys.processed 5 .ASK 7)
        (sys.server.wire 5 ++ (sys.server.unsent 5 ++ sys.inFlight 5)),
        restingTotal .ASK 7 sys.session.processor.book)) = some (6, 3) := by decide +kernel
  obtain ⟨sys, hrun, hsys⟩ := Option.map_eq_some_iff.mp heval
  simp only [Prod.mk.injEq, List.all_eq_true, Option.all_eq_true, decide_eq_true_eq] at hsys
  obtain ⟨hactive, hids, hproper, htypes⟩ := hsys
  rw [hrun] at horders htold
  simp only [Option.map_some, Option.some.injEq] at horders
  obtain ⟨i, hi, hfields⟩ : ∃ i ∈ sys.processed, (i.message.fd, i.accepted)
      = (5, some ⟨0, 7, 100, 10, .ASK, .LIMIT⟩) := by
    rw [← List.mem_map, horders]
    exact List.mem_cons_self
  obtain ⟨hfd, hacc⟩ := Prod.mk.inj hfields
  obtain ⟨hsix, hrests⟩ := Prod.mk.inj (Option.some.inj htold)
  have hnocancel : ∀ j ∈ sys.processed, j.message.type ≠ .CANCEL_ORDER := by
    intro j hj ht
    have hmem := List.mem_map_of_mem (f := fun i : Input => i.message.type) hj
    rw [htypes, ht] at hmem
    exact absurd hmem (by decide)
  obtain ⟨within, htwice, htotal⟩ := limit_order_told hrun (by rw [hids]; decide)
    (fun j hj order ho => hproper j hj order ho) (by decide) hactive (by decide) hi hfd hacc rfl
    fun j hj ht => absurd ht (hnocancel j hj)
  have hwithin : 2 * within = 6 := htwice.symm.trans hsix
  exact ⟨sys, hrun, within, htwice, htotal, by omega, hrests⟩

end Exchange
