import Exchange.Processor.Runs
import Mathlib.Data.List.Forall2

/-!
# Routing of trade notices

A trade notice goes to the connection that the routing table holds for the id of the
resting order.  The table is written after matching, by id, and erased by cancels.  In
runs in which accepted orders have distinct ids it always holds the submitter of every
resting order, and so both sides of every trade are told, once, where they should be.

## Main definitions

* `acceptedIds`, `submitterOf` — the ids of the orders accepted in a run, and the
  connection an id was submitted from.
* `Routed` — every resting order is routed to its submitter.

## Main results

* `Routed.step` — one request keeps the table right.
* `trade_notices` — the messages pushed for an accepted order.
-/

namespace Exchange

open Bytes MatchingEngine

/-! ### The resting orders after a request -/

namespace OrderBook

variable {book : OrderBook}

/-- An order that rests after a match rested before it, or is the remainder of the
incoming order in a new node. -/
theorem mem_step_matchOrder {order : Order} (hc : order.Constructed) (now : Clock)
    {b : Price × Node} (hb : b ∈ (book.step (.matchOrder now order)).resting) :
    (∃ a ∈ book.resting, fixedPart a = fixedPart b) ∨
      b.2.pos = book.nextPos ∧ b.2.order.id = order.id := by
  obtain ⟨mid, ht, ⟨heq, -⟩ | ⟨ts, -, -, hs, hi⟩⟩ := step_matchOrder hc now book
  · rw [heq] at hb
    obtain ⟨side, hb⟩ := mem_resting_iff.mp hb
    obtain ⟨a, ha, hab, -⟩ := ht.exists_of_mem hb
    exact Or.inl ⟨a, mem_resting_iff.mpr ⟨side, ha⟩, hab⟩
  · rcases List.mem_cons.mp ((hi.resting_perm hs).mem_iff.mp hb) with rfl | hb
    · exact Or.inr ⟨ht.nextPos, rfl⟩
    · obtain ⟨side, hb⟩ := mem_resting_iff.mp hb
      obtain ⟨a, ha, hab, -⟩ := ht.exists_of_mem hb
      exact Or.inl ⟨a, mem_resting_iff.mpr ⟨side, ha⟩, hab⟩

/-- An order that rests after a removal rested before it, under another id. -/
theorem mem_of_removes {book' : OrderBook} {id : OrderId} {side : Side} {price : Price} {n : Node}
    (hr : book.Removes id side price n book') (hidx : book.Indexed) (hinv : book.Inv)
    (hn : n.order.id = id) {b : Price × Node} (hb : b ∈ book'.resting) :
    b ∈ book.resting ∧ b.2.order.id ≠ id := by
  obtain ⟨side', hb⟩ := mem_resting_iff.mp hb
  rw [hr.restingOn_eq_filter hidx hinv hn side', List.mem_filter] at hb
  exact ⟨mem_resting_iff.mpr ⟨side', hb.1⟩, by simpa using hb.2⟩

end OrderBook

/-- The counterparty of a trade is the resting order that was drawn on. -/
theorem counterparty_branchOf {order : Order} (hs : order.side.IsProper) (p : Price) (o : Order)
    (q : Quantity) (ts : Timestamp) :
    ((branchOf order).trade p o q ts).counterparty order.side = o.id := by
  rcases hs with hs | hs
  · rw [branchOf, if_pos hs, hs]
    rfl
  · rw [branchOf, if_neg (by rw [hs]; exact Side.ASK_ne_BID), hs]
    rfl

/-- The counterparties of the trades of an incoming order, in order. -/
theorem map_counterparty_tradesFrom {order : Order} (hs : order.side.IsProper) (now : Clock)
    (k : ℕ) (fills : List ((Price × Node) × ℕ)) :
    (tradesFrom now (branchOf order) k fills).map (Trade.counterparty order.side)
      = fills.map fun f => f.1.2.order.id := by
  induction fills generalizing k with
  | nil => rfl
  | cons f fills ih =>
    rw [tradesFrom, List.map_cons, List.map_cons, ih, counterparty_branchOf hs]

/-- What is drawn on rests opposite to an order of one of the two sides. -/
theorem fills_opposite {book : OrderBook} {order : Order} {f : (Price × Node) × ℕ}
    (hf : f ∈ (sweepOf book order).fills) :
    order.side.IsProper ∧ f.1 ∈ book.restingOn order.side.opposite := by
  have hmem : f.1 ∈ book.restingOn order.side.opposite := fst_mem_of_mem_fills _ _ _ hf
  refine ⟨?_, hmem⟩
  by_contra hs
  rw [Side.opposite_of_not_isProper hs, book.restingOn_of_not_isProper hs] at hmem
  exact absurd hmem List.not_mem_nil

/-- The counterparty of each trade of an incoming order is an order that rested. -/
theorem rests_counterparty {book : OrderBook} {i : Input} {order : Order}
    (ha : i.accepted = some order) {t : Trade} (ht : t ∈ tradesOf book i) :
    book.Rests (t.counterparty order.side) := by
  rw [tradesOf_of_accepted ha] at ht
  -- there is a trade only if something is drawn on
  have hs : order.side.IsProper := by
    cases hfills : (sweepOf book order).fills with
    | nil =>
      rw [hfills] at ht
      exact absurd ht List.not_mem_nil
    | cons f fills => exact (fills_opposite (hfills ▸ List.mem_cons_self)).1
  have hmem := List.mem_map_of_mem (f := Trade.counterparty order.side) ht
  rw [map_counterparty_tradesFrom hs] at hmem
  obtain ⟨f, hf, hid⟩ := List.mem_map.mp hmem
  exact ⟨f.1, OrderBook.mem_resting_iff.mpr ⟨_, (fills_opposite hf).2⟩, hid⟩

/-- An order that is drawn on is the counterparty of a trade. -/
theorem exists_counterparty {book : OrderBook} {i : Input} {order : Order}
    (ha : i.accepted = some order) {f : (Price × Node) × ℕ} (hf : f ∈ (sweepOf book order).fills) :
    ∃ t ∈ tradesOf book i, t.counterparty order.side = f.1.2.order.id := by
  have hmem := List.mem_map_of_mem (f := fun f : (Price × Node) × ℕ => f.1.2.order.id) hf
  rw [← map_counterparty_tradesFrom (fills_opposite hf).1 i.times.now 0,
    ← tradesOf_of_accepted ha] at hmem
  exact List.mem_map.mp hmem

/-- **An order that rests when another one comes in** keeps resting, or trades. -/
theorem rests_or_trades {book : OrderBook} (hinv : book.Inv) {i : Input} {order : Order}
    (ha : i.accepted = some order) (hc : order.Constructed) {id : OrderId} (h : book.Rests id) :
    (book.step (.matchOrder i.times.now order)).Rests id ∨
      ∃ t ∈ tradesOf book i, t.counterparty order.side = id := by
  obtain ⟨a, hmem, rfl⟩ := h
  by_cases hgone : a ∈ (sweepOf book order).gone
  · exact Or.inr (exists_counterparty ha (mem_fills_of_mem_gone _ _ _ hgone))
  · exact Or.inl ((hinv.rests_matchOrder_iff hc _).mpr (Or.inl ⟨a, hmem, rfl, hgone⟩))

/-! ### Who submitted what -/

/-- The ids of the orders accepted in a run. -/
def acceptedIds (inputs : List Input) : List OrderId :=
  inputs.filterMap fun i => i.accepted.map Order.id

/-- The connection that the order with an id was submitted from. -/
def submitterOf (inputs : List Input) (id : OrderId) : Option Fd :=
  (inputs.find? fun i => i.accepted.map Order.id = some id).map fun i => i.message.fd

theorem submitterOf_append (inputs : List Input) (i : Input) (id : OrderId) :
    submitterOf (inputs ++ [i]) id
      = (submitterOf inputs id).or (submitterOf [i] id) := by
  unfold submitterOf
  rw [List.find?_append]
  cases inputs.find? fun i => i.accepted.map Order.id = some id with
  | none => rfl
  | some j => rfl

theorem mem_acceptedIds_of_submitterOf {inputs : List Input} {id : OrderId} {fd : Fd}
    (h : submitterOf inputs id = some fd) : id ∈ acceptedIds inputs := by
  obtain ⟨i, hi, -⟩ := Option.map_eq_some_iff.mp h
  have hid := List.find?_some hi
  simp only [decide_eq_true_eq] at hid
  exact List.mem_filterMap.mpr ⟨i, List.mem_of_find?_eq_some hi, hid⟩

/-- Where the ids are distinct, an accepted order has an id that is new. -/
theorem notMem_acceptedIds {done rest : List Input} {i : Input}
    (hd : (acceptedIds (done ++ i :: rest)).Nodup) (order : Order)
    (ho : i.accepted = some order) : order.id ∉ acceptedIds done := by
  intro hmem
  have hsplit : acceptedIds (done ++ i :: rest)
      = acceptedIds done ++ order.id :: acceptedIds rest := by
    simp [acceptedIds, ho]
  rw [hsplit] at hd
  exact (List.nodup_append.mp hd).2.2 _ hmem _ List.mem_cons_self rfl

/-- Every resting order is routed to the connection it was submitted from, and the
table has not been read at a missing key. -/
structure Routed (inputs : List Input) (s : Session) : Prop where
  inv : s.processor.book.Inv
  indexed : s.processor.book.Indexed
  routes : ∀ a ∈ s.processor.book.resting, ∃ fd, submitterOf inputs a.2.order.id = some fd ∧
    s.processor.orderToClientFd a.2.order.id = some fd
  missingReads : s.missingReads = []

theorem routed_empty : Routed [] .empty where
  inv := OrderBook.inv_empty
  indexed := OrderBook.indexed_empty
  routes := fun _ ha => absurd ha List.not_mem_nil
  missingReads := rfl

namespace Routed

variable {inputs : List Input} {s s' : Session} {i : Input} {order : Order}

/-- An id under which no order has been accepted does not rest. -/
theorem not_rests (h : Routed inputs s) {id : OrderId} (hnew : id ∉ acceptedIds inputs) :
    ¬ s.processor.book.Rests id := by
  rintro ⟨a, ha, rfl⟩
  obtain ⟨fd, hfd, -⟩ := h.routes a ha
  exact hnew (mem_acceptedIds_of_submitterOf hfd)

/-- Each counterparty of an incoming order under a new id is routed to its submitter. -/
theorem route_counterparty (h : Routed inputs s) (hsub : s.Submits i order s')
    (hnew : order.id ∉ acceptedIds inputs) {t : Trade}
    (ht : t ∈ tradesOf s.processor.book i) :
    ∃ fd, submitterOf inputs (t.counterparty order.side) = some fd ∧
      Function.update s.processor.orderToClientFd order.id (some i.message.fd)
        (t.counterparty order.side) = some fd := by
  obtain ⟨a, ha, hid⟩ := rests_counterparty hsub.accepted ht
  obtain ⟨fd, hfd, hroute⟩ := h.routes a ha
  rw [← hid]
  refine ⟨fd, hfd, ?_⟩
  have hne : a.2.order.id ≠ order.id := fun heq => h.not_rests hnew ⟨a, ha, heq⟩
  rw [Function.update_of_ne hne]
  exact hroute

/-- An order that is accepted under a new id. -/
theorem submits (h : Routed inputs s) (hsub : s.Submits i order s')
    (hnew : order.id ∉ acceptedIds inputs) : Routed (inputs ++ [i]) s' := by
  have hrests : ∀ a ∈ s.processor.book.resting, a.2.order.id ≠ order.id :=
    fun a ha heq => h.not_rests hnew ⟨a, ha, heq⟩
  constructor
  · rw [hsub.book]
    exact OrderBook.Inv.step h.inv (show (Call.matchOrder i.times.now order).Accepted from
      hsub.constructed)
  · rw [hsub.book, h.indexed.step_matchOrder_iff h.inv hsub.constructed]
    rintro ⟨-, -, -, a, ha, hid, -⟩
    exact hrests a ha hid
  · intro b hb
    rw [hsub.book] at hb
    rw [hsub.routes, submitterOf_append]
    rcases OrderBook.mem_step_matchOrder hsub.constructed _ hb with ⟨a, ha, hab⟩ | ⟨-, hid⟩
    · -- an order that was there keeps its route
      obtain ⟨fd, hfd, hroute⟩ := h.routes a ha
      rw [← (fixedPart_inj hab).2.2.1]
      refine ⟨fd, by rw [hfd]; rfl, ?_⟩
      have hupdate : Function.update s.processor.orderToClientFd order.id (some i.message.fd)
          a.2.order.id = some fd := by
        rw [Function.update_of_ne (hrests a ha)]
        exact hroute
      rw [readRoutes, if_neg fun hnone => by rw [hupdate] at hnone; simp at hnone, hupdate]
    · -- the remainder is routed to the connection of the request
      have hnone : submitterOf inputs order.id = none := by
        cases hsome : submitterOf inputs order.id with
        | none => rfl
        | some fd => exact absurd (mem_acceptedIds_of_submitterOf hsome) hnew
      rw [hid, hnone]
      refine ⟨i.message.fd, ?_, ?_⟩
      · simp [submitterOf, hsub.accepted]
      · rw [readRoutes, if_neg fun hnone => by simp at hnone]
        exact Function.update_self _ _ _
  · rw [hsub.missingReads fun t ht => ?_, h.missingReads]
    obtain ⟨fd, -, hroute⟩ := h.route_counterparty hsub hnew ht
    rw [hroute]
    simp

/-- **One request keeps the table right**, when an order it submits has a new id. -/
theorem step (h : Routed inputs s) (failures : ℕ → ℕ) (hw : i.message.WellFormed)
    (hnew : ∀ order, i.accepted = some order → order.id ∉ acceptedIds inputs) :
    ∃ s', s.step failures i = .ok s' ∧ Routed (inputs ++ [i]) s' := by
  obtain ⟨s', hs', -, ⟨order, hsub⟩ | ⟨hacc, hsame, hmiss⟩ |
    ⟨loc, n, hacc, -, hmiss, -, hid, hr, hroutes⟩⟩ := step_cases failures h.inv hw
  · exact ⟨s', hs', h.submits hsub (hnew order hsub.accepted)⟩
  · refine ⟨s', hs', by rw [hsame]; exact h.inv, by rw [hsame]; exact h.indexed, ?_, ?_⟩
    · intro a ha
      rw [hsame] at ha ⊢
      obtain ⟨fd, hfd, hroute⟩ := h.routes a ha
      exact ⟨fd, by rw [submitterOf_append, hfd]; rfl, hroute⟩
    · rw [hmiss, h.missingReads]
  · refine ⟨s', hs', h.inv.removes hr hid, h.indexed.removes h.inv hr hid, ?_, ?_⟩
    -- the route that is dropped is that of the order that is removed
    · intro a ha
      obtain ⟨hmem, hne⟩ := OrderBook.mem_of_removes hr h.indexed h.inv hid ha
      obtain ⟨fd, hfd, hroute⟩ := h.routes a hmem
      refine ⟨fd, by rw [submitterOf_append, hfd]; rfl, ?_⟩
      rw [hroutes, Function.update_of_ne hne]
      exact hroute
    · rw [hmiss, h.missingReads]

end Routed

/-- The table is right after every run in which accepted orders have distinct ids. -/
theorem routed_run (failures : ℕ → ℕ) {inputs : List Input}
    (hw : ∀ i ∈ inputs, i.message.WellFormed) (hd : (acceptedIds inputs).Nodup) :
    ∃ s, Session.empty.run failures inputs = .ok s ∧ Routed inputs s := by
  -- the invariant speaks of the requests done, which with those to come are all
  have hrun : ∃ s, inputs.foldlM (Session.step failures) .empty = .ok s ∧
      ∃ done, done ++ [] = inputs ∧ Routed done s := by
    refine foldlM_invariant (P := fun rest s => ∃ done, done ++ rest = inputs ∧ Routed done s)
      ?_ inputs .empty ⟨[], rfl, routed_empty⟩
    rintro i rest s ⟨done, rfl, hrouted⟩
    obtain ⟨s', hs', hrouted'⟩ := hrouted.step failures
      (hw i (List.mem_append_right _ List.mem_cons_self)) (notMem_acceptedIds hd)
    exact ⟨s', hs', done ++ [i], by simp, hrouted'⟩
  obtain ⟨s, hs, done, hdone, hrouted⟩ := hrun
  rw [List.append_nil] at hdone
  exact ⟨s, hs, hdone ▸ hrouted⟩

/-- **Both sides of every trade are told, once, on the right connection.**  In every run
of well-formed requests in which accepted orders have distinct ids, and however often
pushes fail before they succeed, the messages pushed for an accepted order from
connection `c` are: for each trade of its match, in order, the frame of the trade to the
connection that submitted the resting order; then one message to `c` with the same frames
in order and the acknowledgement.  The routing table is not read at a missing key. -/
theorem trade_notices (failures : ℕ → ℕ) (inputs : List Input) (i : Input) (order : Order)
    (hw : ∀ j ∈ inputs ++ [i], j.message.WellFormed)
    (hd : (acceptedIds (inputs ++ [i])).Nodup) (ha : i.accepted = some order) :
    ∃ s s' r makers, Session.empty.run failures inputs = .ok s ∧ s.step failures i = .ok s' ∧
      matchOrder i.times.now s.processor.book order [] = .ok r ∧
      List.Forall₂ (fun t m => s.processor.book.Rests (t.counterparty order.side) ∧
        submitterOf inputs (t.counterparty order.side) = some m.fd ∧
        m.payload = (tradeFrame t).bytes) r.trades makers ∧
      s'.pushed = s.pushed ++ makers
        ++ [⟨i.message.fd, (r.trades.map fun t => (tradeFrame t).bytes).flatten
          ++ (ackFrame order.id).bytes⟩] ∧
      s'.missingReads = [] := by
  have hsplit : acceptedIds (inputs ++ [i]) = acceptedIds inputs ++ [order.id] := by
    simp [acceptedIds, ha]
  rw [hsplit, List.nodup_append] at hd
  obtain ⟨s, hs, hrouted⟩ := routed_run failures
    (fun j hj => hw j (List.mem_append_left _ hj)) hd.1
  have hnew : order.id ∉ acceptedIds inputs :=
    fun hmem => hd.2.2 _ hmem _ (List.mem_singleton_self _) rfl
  obtain ⟨s', hs', hend⟩ := hrouted.step failures
    (hw i (List.mem_append_right _ (List.mem_singleton_self _)))
    fun order' ho => by rw [← Option.some.inj (ha.symm.trans ho)]; exact hnew
  have hsub := submits_of_step hrouted.inv hs' ha
  obtain ⟨r, hr, htrades, -⟩ := hsub.matched
  refine ⟨s, s', r, _, hs, hs', hr, ?_, by rw [htrades]; exact hsub.pushed, hend.missingReads⟩
  -- one message for each trade, to the route of its resting order
  rw [htrades, notices, List.forall₂_map_right_iff, List.forall₂_same]
  intro t ht
  obtain ⟨fd, hfd, hroute⟩ := hrouted.route_counterparty hsub hnew ht
  refine ⟨rests_counterparty hsub.accepted ht, ?_, rfl⟩
  rw [hroute, hfd]
  rfl

/-- An ask from connection 4 and a bid from connection 9 that crosses it, the pushes for
which fail twice each. -/
theorem trade_notices_crossing_bid :
    ∃ s s' r makers, Session.empty.run (fun _ => 2) [askFive 4 100] = .ok s ∧
      s.step (fun _ => 2) ⟨⟨0, fun _ => 0⟩, ⟨9, .NEW_ORDER,
        [6, 0, 0, 0, 0, 0, 0, 0, 120, 0, 0, 0, 0, 0, 0, 0, 3, 0, 0, 0, 0, 0]⟩⟩ = .ok s' ∧
      matchOrder (fun _ => 0) s.processor.book ⟨0, 6, 120, 3, .BID, .LIMIT⟩ [] = .ok r ∧
      List.Forall₂ (fun t m => s.processor.book.Rests (t.counterparty .BID) ∧
        submitterOf [askFive 4 100] (t.counterparty .BID) = some m.fd ∧
        m.payload = (tradeFrame t).bytes) r.trades makers ∧
      s'.pushed = s.pushed ++ makers
        ++ [⟨9, (r.trades.map fun t => (tradeFrame t).bytes).flatten ++ (ackFrame 6).bytes⟩] ∧
      s'.missingReads = [] :=
  trade_notices (fun _ => 2) [askFive 4 100] ⟨⟨0, fun _ => 0⟩, ⟨9, .NEW_ORDER,
    [6, 0, 0, 0, 0, 0, 0, 0, 120, 0, 0, 0, 0, 0, 0, 0, 3, 0, 0, 0, 0, 0]⟩⟩
    ⟨0, 6, 120, 3, .BID, .LIMIT⟩ (by decide) (by decide +kernel) (by decide +kernel)

end Exchange
