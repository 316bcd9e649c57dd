import Exchange.Book.Levels
import Exchange.Book.Priority
import Exchange.Book.Uncrossed
import Mathlib.Algebra.Order.BigOperators.Group.List
import Mathlib.Algebra.Order.Group.Nat

/-!
# Waiting orders are whole

Fills take from the front of a level, and an order that has traded before it rests opens a
level of its own: the side it rests on is short of everything it has traded with, so that
nothing can wait at its price already.  Behind the front of a level there are therefore only
orders that have not traded at all.

## Main definitions

* `Untouched` — a resting order has the whole quantity of an order that was submitted.
* `OrderBook.WholeBehind` — every order that has another of its price before it is untouched.
* `Ledger.Queued` — the invariant of a run of requests.

## Main results

* `OrderBook.Uncrossed.price_ne_of_fills` — a limit order that trades finds nothing at its own
  price.
* `Ledger.Queued.run` — the invariant holds in every state that is reached.
* `waiting_untouched` — whoever waits behind another order has not traded.
-/

namespace Exchange

open MatchingEngine

/-- A resting order has the id, the side, the price and the whole quantity of one of
`orders`. -/
def Untouched (orders : List Order) (a : Price × Node) : Prop :=
  ∃ o ∈ orders, o.id = a.2.order.id ∧ o.side = a.2.order.side ∧ o.price = a.1 ∧
    o.orderType = .LIMIT ∧ o.quantity = a.2.order.quantity

theorem Untouched.append {orders : List Order} {a : Price × Node} (h : Untouched orders a)
    (orders' : List Order) : Untouched (orders ++ orders') a := by
  obtain ⟨o, ho, hsame⟩ := h
  exact ⟨o, List.mem_append_left _ ho, hsame⟩

namespace OrderBook

/-- Every order that has another of its price before it is untouched. -/
def WholeBehind (book : OrderBook) (orders : List Order) : Prop :=
  ∀ side, (book.restingOn side).Pairwise fun c a => c.1 = a.1 → Untouched orders a

variable {book : OrderBook} {orders : List Order}

theorem WholeBehind.append (h : book.WholeBehind orders) (orders' : List Order) :
    book.WholeBehind (orders ++ orders') := by
  intro side
  refine (h side).imp ?_
  intro c a hca heq
  exact (hca heq).append orders'

/-- A fill changes the front of a queue at most, and not its price. -/
theorem WholeBehind.takes (h : book.WholeBehind orders) {order : Order} {mid : OrderBook}
    (ht : Takes book order mid) : mid.WholeBehind orders := by
  intro side
  by_cases hside : side = order.side.opposite
  · subst hside
    rw [ht.queue]
    exact pairwise_left weight reduceBy _ (fun _ _ _ hab => hab) (h order.side.opposite) _
  · rw [ht.other side hside]
    exact h side

theorem WholeBehind.removes (h : book.WholeBehind orders) {id : OrderId} {side : Side}
    {price : Price} {n : Node} {book' : OrderBook} (hr : book.Removes id side price n book') :
    book'.WholeBehind orders := by
  intro side'
  by_cases hside : side' = side
  · subst hside
    obtain ⟨A, B, hA, hB⟩ := hr.queue
    have hbefore := h side'
    rw [hA] at hbefore
    rw [hB]
    exact hbefore.sublist ((List.sublist_cons_self _ _).append_left A)
  · rw [hr.other side' hside]
    exact h side'

/-- An order may rest if it is untouched, or nothing waits at its price. -/
theorem WholeBehind.inserts (h : book.WholeBehind orders) {order : Order} {book' : OrderBook}
    (hi : book.Inserts order book')
    (hfront : ∀ a ∈ book.restingOn order.side, a.1 = order.price →
      Untouched orders (order.price, ⟨book.nextPos, order⟩)) : book'.WholeBehind orders := by
  intro side
  by_cases hside : side = order.side
  · subst hside
    obtain ⟨A, B, hA, hB, -, hbehind⟩ := hi.queue
    have hbefore := h order.side
    rw [hA] at hbefore hfront
    rw [hB, List.pairwise_append, List.pairwise_cons]
    obtain ⟨hAA, hBB, hAB⟩ := List.pairwise_append.mp hbefore
    refine ⟨hAA, ⟨fun b hb heq => ?_, hBB⟩, fun a ha b hb => ?_⟩
    · -- everything behind the new order has a worse price
      have hprice : order.price = b.1 := heq
      have hahead := hbehind b hb
      rw [hprice] at hahead
      exact absurd hahead (irrefl_of order.side.Ahead b.1)
    · rcases List.mem_cons.mp hb with rfl | hb
      · exact hfront a (List.mem_append_left _ ha)
      · exact hAB a ha b hb
  · rw [hi.other side hside]
    exact h side

/-- **A limit order that trades finds nothing at its own price**: what it trades with would
cross an order that waits there. -/
theorem Uncrossed.price_ne_of_fills (h : book.Uncrossed) {order : Order}
    (hs : order.side.IsProper) (hlimit : order.orderType = .LIMIT)
    (hfills : (sweepOf book order).fills ≠ []) {a : Price × Node}
    (ha : a ∈ book.restingOn order.side) : a.1 ≠ order.price := by
  obtain ⟨f, hf⟩ := List.exists_mem_of_ne_nil _ hfills
  have hmaker : f.1 ∈ book.restingOn order.side.opposite :=
    fst_mem_of_mem_fills weight reduceBy _ hf
  have hreached : (branchOf order).blocked f.1.1 = false :=
    stop_of_mem_fills weight reduceBy (fun a => (branchOf order).blocked a.1) hf
  have hapart := (uncrossed_iff hs).mp h a ha f.1 hmaker
  intro heq
  rw [heq] at hapart
  rw [(blocked_branchOf hs f.1.1).mpr ⟨hlimit, hapart⟩] at hreached
  exact Bool.false_ne_true hreached.symm

end OrderBook

/-- What is left of an order that has not traded is the order. -/
theorem quantity_remainder {book : OrderBook} {order : Order}
    (hfills : (sweepOf book order).fills = []) (ts : Timestamp) :
    (remainder order ts (sweepOf book order).unmet).quantity = order.quantity := by
  have hsum : (((sweepOf book order).fills).map Prod.snd).sum + (sweepOf book order).unmet
      = order.quantity.toNat := sum_fills_add_unmet _ _ _ _ _
  rw [hfills, List.map_nil, List.sum_nil, Nat.zero_add] at hsum
  rw [remainder, hsum, UInt32.ofNat_toNat]

/-! ### Runs -/

namespace Ledger

/-- The invariant of a run of requests. -/
structure Queued (l : Ledger) : Prop where
  sound : l.Sound
  uncrossed : l.book.Uncrossed
  behind : l.book.WholeBehind l.submitted

theorem queued_empty : empty.Queued where
  sound := sound_empty
  uncrossed := fun _ hb => absurd hb List.not_mem_nil
  behind := by
    intro side
    by_cases hs : side.IsProper
    · rcases hs with rfl | rfl <;> exact List.Pairwise.nil
    · rw [OrderBook.restingOn_of_not_isProper _ hs]
      exact List.Pairwise.nil

theorem Queued.submit {l : Ledger} (h : l.Queued) (now : Clock) {order : Order}
    (hc : order.Constructed) (hp : order.Proper) : (l.step (.submit now order)).Queued := by
  have hsound := h.sound.submit now hc hp
  obtain ⟨mid, subs, ht, -, heq⟩ := matchOrder_eq hc now l.book l.trades
  have hs : order.side.IsProper := hp.1
  have hmid : mid.WholeBehind (l.submitted ++ [order]) := (h.behind.takes ht).append [order]
  refine ⟨hsound, ?_, ?_⟩
  · simp only [step, heq]
    split
    · next hrest =>
      exact (h.uncrossed.takes ht).inserts (addOrder_remainder mid hrest.2 hs _ _) hs
        fun a ha => ahead_of_unmet ht hs hrest.1 ha
    · exact h.uncrossed.takes ht
  · simp only [step, heq]
    split
    · next hrest =>
      refine hmid.inserts (addOrder_remainder mid hrest.2 hs _ _) fun a ha heq => ?_
      have hown : a ∈ l.book.restingOn order.side := by
        rw [← ht.other _ (OrderBook.opposite_ne_self hs).symm]
        exact ha
      -- the order has not traded, or it has opened its level
      by_cases hfills : (sweepOf l.book order).fills = []
      · exact ⟨order, List.mem_append_right _ List.mem_cons_self, rfl, rfl, rfl, hrest.2,
          (quantity_remainder hfills _).symm⟩
      · exact absurd heq (h.uncrossed.price_ne_of_fills hs hrest.2 hfills hown)
    · exact hmid

theorem Queued.cancel {l : Ledger} (h : l.Queued) (id : OrderId) :
    (l.step (.cancel id)).Queued := by
  have hsound := h.sound.cancel id
  cases hloc : l.book.orderMap id with
  | none =>
    simp only [step, OrderBook.cancelOrder_of_none hloc]
    exact h
  | some loc =>
    obtain ⟨n, book', -, -, heq, hr⟩ := h.sound.book.cancelOrder_eq_ok hloc
    simp only [step, heq] at hsound ⊢
    exact ⟨hsound, h.uncrossed.removes hr, h.behind.removes hr⟩

theorem Queued.run {l : Ledger} (h : l.Queued) {requests : List Request}
    (hv : ∀ r ∈ requests, r.Valid) : (l.run requests).Queued := by
  induction requests generalizing l with
  | nil => exact h
  | cons r requests ih =>
    refine ih ?_ fun r' hr' => hv r' (List.mem_cons_of_mem r hr')
    cases r with
    | submit now order =>
      obtain ⟨hc, hp⟩ := hv _ List.mem_cons_self
      exact h.submit now hc hp
    | cancel id => exact h.cancel id

/-- The orders submitted in a run. -/
theorem map_id_submitted_run (l : Ledger) (requests : List Request) :
    (l.run requests).submitted.map Order.id
      = l.submitted.map Order.id ++ submittedIds requests := by
  induction requests generalizing l with
  | nil => exact (List.append_nil _).symm
  | cons r requests ih =>
    rw [run, List.foldl_cons, ← run, ih]
    cases r with
    | submit now order =>
      have hstep : (l.step (.submit now order)).submitted = l.submitted ++ [order] := by
        rw [step]
        split <;> rfl
      simp [hstep, submittedIds]
    | cancel id =>
      have hstep : (l.step (.cancel id)).submitted = l.submitted := by
        rw [step]
        split <;> rfl
      simp [hstep, submittedIds]

end Ledger

/-- Where ids are distinct, the quantity submitted under an id is that of its one order. -/
theorem orderTotal_le {orders : List Order} (h : (orders.map Order.id).Nodup) {o : Order}
    (ho : o ∈ orders) (side : Side) : orderTotal side o.id orders ≤ o.quantity.toNat := by
  obtain ⟨A, B, rfl⟩ := List.append_of_mem ho
  rw [List.map_append, List.map_cons, List.nodup_middle, List.nodup_cons, List.mem_append,
    not_or] at h
  obtain ⟨⟨hA, hB⟩, -⟩ := h
  have hother : ∀ l : List Order, o.id ∉ l.map Order.id → orderTotal side o.id l = 0 := by
    intro l hl
    rw [orderTotal, List.sum_eq_zero]
    intro k hk
    obtain ⟨o', ho', rfl⟩ := List.mem_map.mp hk
    rw [if_neg]
    rintro ⟨-, hid⟩
    exact hl (hid ▸ List.mem_map_of_mem ho')
  have hsplit : A ++ o :: B = A ++ [o] ++ B := by simp
  rw [hsplit, orderTotal_append, orderTotal_append, hother A hA, hother B hB,
    orderTotal_singleton]
  split <;> omega

/-- What rests of an order counts towards its id. -/
theorem le_restingTotal {book : OrderBook} {side : Side} {a : Price × Node}
    (ha : a ∈ book.restingOn side) :
    a.2.order.quantity.toNat ≤ restingTotal side a.2.order.id book := by
  refine List.le_sum_of_mem (List.mem_map.mpr ⟨a, ha, ?_⟩)
  exact if_pos rfl

/-- A trade of an id counts towards its total. -/
theorem le_tradedTotal (side : Side) {trades : List Trade} {t : Trade} (ht : t ∈ trades) :
    t.quantity.toNat ≤ tradedTotal side (t.party side) trades := by
  refine List.le_sum_of_mem (List.mem_map.mpr ⟨t, ht, ?_⟩)
  exact if_pos rfl

/-- The queue of a level is in the queue of its side. -/
theorem OrderBook.sublist_of_mem_levelsOn {book : OrderBook} {side : Side} {price : Price}
    {list : List Node} (h : (price, list) ∈ book.levelsOn side) :
    (list.map fun n => (price, n)).Sublist (book.restingOn side) := by
  have hproper : side.IsProper := by
    by_contra hs
    rw [book.levelsOn_of_not_isProper hs] at h
    exact absurd h List.not_mem_nil
  rcases hproper with rfl | rfl
  · rw [← SortedMap.getD_of_mem (d := []) h, ← SortedMap.filter_flatten]
    exact List.filter_sublist
  · rw [← SortedMap.getD_of_mem (d := []) h, ← SortedMap.filter_flatten]
    exact List.filter_sublist

/-- **Whoever waits behind another order has not traded.**  In every state that submissions of
valid orders and cancels reach, with ids repeated or not, each order behind the first one of
its level has the whole quantity with which an order of its id, side and price was submitted.
Where the ids submitted are distinct, no trade of the run names it. -/
theorem waiting_untouched (requests : List Request) (h : ∀ r ∈ requests, r.Valid)
    {side : Side} {price : Price} {front n : Node} {rest : List Node}
    (hlevel : (price, front :: rest) ∈ (Ledger.empty.run requests).book.levelsOn side)
    (hn : n ∈ rest) :
    (∃ o ∈ (Ledger.empty.run requests).submitted, o.id = n.order.id ∧ o.side = side ∧
        o.price = price ∧ o.orderType = .LIMIT ∧ o.quantity = n.order.quantity) ∧
      ((submittedIds requests).Nodup →
        ∀ t ∈ (Ledger.empty.run requests).trades, t.party side ≠ n.order.id) := by
  have hqueued := Ledger.queued_empty.run h
  have hsub := OrderBook.sublist_of_mem_levelsOn hlevel
  have hpairs := (hqueued.behind side).sublist hsub
  rw [List.map_cons, List.pairwise_cons] at hpairs
  have hmem : (price, n) ∈ (Ledger.empty.run requests).book.restingOn side :=
    hsub.subset (List.mem_map_of_mem (List.mem_cons_of_mem front hn))
  have hside : n.order.side = side := (hqueued.sound.book.orders side _ hmem).2.1
  have hproper : side.IsProper := OrderBook.isProper_of_mem hmem
  obtain ⟨o, ho, hid, hos, hprice, hlimit, hquantity⟩ :=
    hpairs.1 (price, n) (List.mem_map_of_mem hn) rfl
  refine ⟨⟨o, ho, hid, hos.trans hside, hprice, hlimit, hquantity⟩, fun hids t ht hparty => ?_⟩
  -- all that was submitted under the id still rests, so that nothing is left for a trade
  have hnodup : ((Ledger.empty.run requests).submitted.map Order.id).Nodup := by
    rw [Ledger.map_id_submitted_run]
    exact hids
  have hbalanced := hqueued.sound.balanced side n.order.id hproper
  have hsubmitted := orderTotal_le hnodup ho side
  have hresting : n.order.quantity.toNat
      ≤ restingTotal side n.order.id (Ledger.empty.run requests).book := le_restingTotal hmem
  have htraded := le_tradedTotal side ht
  have hpos := UInt32.lt_iff_toNat_lt.mp (hqueued.sound.positive t ht)
  rw [hparty] at htraded
  have hwhole : orderTotal side n.order.id (Ledger.empty.run requests).submitted
      ≤ n.order.quantity.toNat := by
    rw [hid, hquantity] at hsubmitted
    exact hsubmitted
  unfold Ledger.Balanced at hbalanced
  simp only [UInt32.toNat_zero] at hpos
  omega

/-- Three of the first of two asks are traded. -/
def twoAskRequests : List Request :=
  [.submit (fun _ => 0) ⟨0, 1, 100, 5, .ASK, .LIMIT⟩,
    .submit (fun _ => 0) ⟨0, 2, 100, 6, .ASK, .LIMIT⟩,
    .submit (fun _ => 0) ⟨0, 3, 101, 3, .BID, .LIMIT⟩]

theorem waiting_untouched_second_ask :
    (Ledger.empty.run twoAskRequests).trades.length = 1 ∧
      (100, [⟨0, ⟨0, 1, 100, 2, .ASK, .LIMIT⟩⟩, ⟨1, ⟨0, 2, 100, 6, .ASK, .LIMIT⟩⟩])
        ∈ (Ledger.empty.run twoAskRequests).book.levelsOn .ASK ∧
      ∀ t ∈ (Ledger.empty.run twoAskRequests).trades, t.party .ASK ≠ 2 := by
  have hlevel : (100, [⟨0, ⟨0, 1, 100, 2, .ASK, .LIMIT⟩⟩, ⟨1, ⟨0, 2, 100, 6, .ASK, .LIMIT⟩⟩])
      ∈ (Ledger.empty.run twoAskRequests).book.levelsOn .ASK := by decide +kernel
  exact ⟨by decide +kernel, hlevel,
    (waiting_untouched twoAskRequests (by decide) hlevel List.mem_cons_self).2 (by decide)⟩

end Exchange
