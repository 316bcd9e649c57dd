import Exchange.Book.Conservation
import Exchange.Book.Index
import Exchange.Lib.Selection
import Exchange.Lib.Transducer

/-!
# Price-time priority

The engine refines a reference engine that keeps nothing but the list of open orders
in the order of their arrival.  To submit an order, the reference engine picks, again
and again, the best open order that may trade, the earliest of equals.  Levels, queues
and index are an implementation of this: the book holds, side by side and price by
price, the open orders in their order of arrival.

## Main definitions

* `OpenOrder`, `Deal` — an order and a trade without their timestamps.
* `Reference.submit`, `Reference.cancel`, `Reference.step` — the reference engine.
* `OrderBook.perform` — the engine of the source, with the outcome of a request.
* `Refines` — the simulation relation.

## Main results

* `Refines.submit`, `Refines.cancel` — one request, on both sides.
* `price_time_priority` — every run of requests with distinct order ids has the same
  outcomes in the two engines, and ends with the same open orders.
-/

namespace Exchange

open MatchingEngine

/-! ### The reference engine -/

/-- An open order. -/
structure OpenOrder where
  id : OrderId
  side : Side
  price : Price
  quantity : ℕ
  deriving DecidableEq, Repr

/-- A trade without its timestamp. -/
structure Deal where
  price : Price
  buyer : OrderId
  seller : OrderId
  quantity : ℕ
  deriving DecidableEq, Repr

/-- What a request comes to. -/
inductive Outcome
  | traded (deals : List Deal)
  | cancelled
  | failed (f : Fault)
  deriving DecidableEq, Repr

/-- An open order with part of its quantity taken. -/
def OpenOrder.reduce (o : OpenOrder) (k : ℕ) : OpenOrder := { o with quantity := o.quantity - k }

namespace Reference

/-- The open orders an incoming order may trade with: those of the opposite side, all of
them for a market order, those at the limit or better for a limit order. -/
def mayTrade (order : Order) (o : OpenOrder) : Bool :=
  o.side = order.side.opposite ∧ (order.orderType = .MARKET ∨
    if order.side = .BID then o.price ≤ order.price else order.price ≤ o.price)

/-- A trade of an incoming order with an open one, at the price of the open one. -/
def deal (order : Order) (fill : OpenOrder × ℕ) : Deal where
  price := fill.1.price
  buyer := if order.side = .BID then order.id else fill.1.id
  seller := if order.side = .BID then fill.1.id else order.id
  quantity := fill.2

/-- The selections made for an incoming order. -/
def served (orders : List OpenOrder) (order : Order) : Served OpenOrder :=
  serve OpenOrder.quantity OpenOrder.reduce (mayTrade order) OpenOrder.price
    order.side.opposite.Ahead orders order.quantity.toNat

/-- Submit an order: serve it by selection, then append what is left of a limit
order. -/
def submit (orders : List OpenOrder) (order : Order) : List OpenOrder × List Deal :=
  let r := served orders order
  (if 0 < r.unmet ∧ order.orderType = .LIMIT then
      r.kept ++ [⟨order.id, order.side, order.price, r.unmet⟩]
    else r.kept,
    r.fills.map (deal order))

/-- Cancel an id: delete the open order with that id, if there is one. -/
def cancel (orders : List OpenOrder) (id : OrderId) : Option (List OpenOrder) :=
  if id ∈ orders.map OpenOrder.id then some (orders.filter fun o => o.id ≠ id) else none

/-- One request to the reference engine. -/
def step (orders : List OpenOrder) : Request → List OpenOrder × Outcome
  | .submit _ order => ((submit orders order).1, .traded (submit orders order).2)
  | .cancel id =>
      match cancel orders id with
      | some orders' => (orders', .cancelled)
      | none => (orders, .failed (.exception .idNotFound))

end Reference

/-! ### The engine of the source -/

/-- A trade of the engine, without its timestamp. -/
def Trade.deal (t : Trade) : Deal := ⟨t.price, t.buyerOrderId, t.sellerOrderId, t.quantity.toNat⟩

/-- One request to the engine of the source. -/
def OrderBook.perform (book : OrderBook) : Request → OrderBook × Outcome
  | .submit now order =>
      match matchOrder now book order [] with
      | .ok r => (r.book, .traded (r.trades.map Trade.deal))
      | .error t => (t.state.1, .failed (.exception t.exn))
  | .cancel id =>
      match book.cancelOrder id with
      | .ok book' => (book', .cancelled)
      | .error f => (book, .failed f)

/-- A resting order as an open order. -/
def openOf (a : Price × Node) : OpenOrder :=
  ⟨a.2.order.id, a.2.order.side, a.1, a.2.order.quantity.toNat⟩

/-! ### The simulation relation -/

/-- The book holds, side by side and price by price, the open orders in their order of
arrival, and its index is complete. -/
structure Refines (book : OrderBook) (orders : List OpenOrder) : Prop where
  inv : book.Inv
  indexed : book.Indexed
  queues : ∀ side, side.IsProper → SameQueues (fun o => o.side = side) OpenOrder.price orders
    ((book.restingOn side).map openOf)
  sides : ∀ o ∈ orders, o.side.IsProper

theorem refines_empty : Refines .empty [] where
  inv := OrderBook.inv_empty
  indexed := OrderBook.indexed_empty
  queues := by
    rintro side (rfl | rfl)
    · exact fun _ => rfl
    · exact fun _ => rfl
  sides := fun _ ho => absurd ho List.not_mem_nil

namespace Refines

variable {book : OrderBook} {orders : List OpenOrder}

/-- An order is open exactly when it rests. -/
theorem mem_iff (h : Refines book orders) {o : OpenOrder} :
    o ∈ orders ↔ ∃ a ∈ book.resting, openOf a = o := by
  constructor
  · intro ho
    have hs := h.sides o ho
    have hmem := (h.queues o.side hs).mem_iff.mpr ⟨ho, by simp⟩
    obtain ⟨a, ha, rfl⟩ := List.mem_map.mp hmem
    exact ⟨a, OrderBook.mem_resting_iff.mpr ⟨_, ha⟩, rfl⟩
  · rintro ⟨a, ha, rfl⟩
    obtain ⟨side, ha⟩ := OrderBook.mem_resting_iff.mp ha
    exact ((h.queues side (OrderBook.isProper_of_mem ha)).mem_iff.mp
      (List.mem_map.mpr ⟨a, ha, rfl⟩)).1

theorem rests_iff (h : Refines book orders) {id : OrderId} :
    book.Rests id ↔ id ∈ orders.map OpenOrder.id := by
  rw [List.mem_map]
  constructor
  · rintro ⟨a, ha, rfl⟩
    exact ⟨openOf a, h.mem_iff.mpr ⟨a, ha, rfl⟩, rfl⟩
  · rintro ⟨o, ho, rfl⟩
    obtain ⟨a, ha, rfl⟩ := h.mem_iff.mp ho
    exact ⟨a, ha, rfl⟩

/-- The resting orders are the open orders. -/
theorem perm (h : Refines book orders) : (book.resting.map openOf).Perm orders := by
  have hasks : orders.filter (fun o => decide (o.side = .ASK))
      = orders.filter fun o => !decide (o.side = .BID) := by
    apply List.filter_congr
    intro o ho
    rcases h.sides o ho with hs | hs <;> rw [hs] <;> rfl
  rw [OrderBook.resting_eq, List.map_append]
  apply ((h.queues .BID (Or.inl rfl)).perm.append (h.queues .ASK (Or.inr rfl)).perm).trans
  rw [hasks]
  exact List.filter_append_perm _ orders

end Refines

/-! ### Submitting -/

/-- Whom an incoming order may trade with, in terms of the walk of its branch. -/
theorem mayTrade_eq {order : Order} (hp : order.Proper) :
    Reference.mayTrade order = eligible (fun o => o.side = order.side.opposite) OpenOrder.price
      (branchOf order).blocked := by
  have hs : order.side.IsProper := hp.1
  funext o
  rw [Bool.eq_iff_iff, eligible_eq_true_iff, ← Bool.not_eq_true, blocked_branchOf hs]
  simp only [Reference.mayTrade, decide_eq_true_eq, and_congr_right_iff]
  intro _
  rcases hp.2 with ht | ht
  · rcases hs with hs | hs <;> simp [ht, hs]
  · simp [ht]

/-- The walk of a branch goes on being blocked. -/
theorem blocked_mono {order : Order} (hs : order.side.IsProper) {p q : Price}
    (hpq : order.side.opposite.Ahead p q) (h : (branchOf order).blocked p = true) :
    (branchOf order).blocked q = true := by
  rw [blocked_branchOf hs] at h ⊢
  exact ⟨h.1, trans_of order.side.opposite.Ahead h.2 hpq⟩

/-- The walk over the resting orders, seen on the open orders. -/
theorem sweep_openOf (book : OrderBook) (order : Order) :
    sweep OpenOrder.quantity OpenOrder.reduce (fun o => (branchOf order).blocked o.price)
        ((book.restingOn order.side.opposite).map openOf) order.quantity.toNat
      = ⟨(sweepOf book order).fills.map fun f => (openOf f.1, f.2),
          (sweepOf book order).gone.map openOf, (sweepOf book order).left.map openOf,
          (sweepOf book order).unmet⟩ := by
  refine sweep_map weight reduceBy (fun a => (branchOf order).blocked a.1) openOf
    (fun _ => rfl) (fun a k hk => ?_) _ (fun _ _ => rfl) _
  show OpenOrder.mk _ _ _ (weight (reduceBy a k)) = _
  rw [weight_reduceBy hk]
  rfl

/-- The trades of a walk, without their timestamps. -/
theorem map_deal_tradesFrom (order : Order) (now : Clock) (k : ℕ)
    {fills : List ((Price × Node) × ℕ)} (hlt : ∀ f ∈ fills, f.2 < 2 ^ 32) :
    (tradesFrom now (branchOf order) k fills).map Trade.deal
      = (fills.map fun f => (openOf f.1, f.2)).map (Reference.deal order) := by
  induction fills generalizing k with
  | nil => rfl
  | cons f fills ih =>
    have hf : (UInt32.ofNat f.2).toNat = f.2 :=
      UInt32.toNat_ofNat_of_lt' (hlt f List.mem_cons_self)
    rw [tradesFrom, List.map_cons, List.map_cons, List.map_cons,
      ih _ fun f' hf' => hlt f' (List.mem_cons_of_mem f hf')]
    congr 1
    unfold branchOf Reference.deal Trade.deal
    split <;> simp [bidBranch, askBranch, openOf, hf]

namespace Refines

variable {book : OrderBook} {orders : List OpenOrder}

/-- **Serving an order**: selection from the open orders and the walk over the opposite
side draw the same amounts and leave related states. -/
theorem takes (h : Refines book orders) {order : Order} (hp : order.Proper) {mid : OrderBook}
    (ht : Takes book order mid) :
    (Reference.served orders order).fills
        = (sweepOf book order).fills.map (fun f => (openOf f.1, f.2)) ∧
      (Reference.served orders order).unmet = (sweepOf book order).unmet ∧
      Refines mid (Reference.served orders order).kept := by
  have hs : order.side.IsProper := hp.1
  have hopp : order.side.opposite.IsProper := by
    rcases hs with hs | hs <;> rw [hs]
    · exact Or.inr rfl
    · exact Or.inl rfl
  have hsorted : ((book.restingOn order.side.opposite).map openOf).Pairwise
      fun a b => ¬ order.side.opposite.Ahead b.price a.price :=
    List.pairwise_map.mpr (book.restingOn_sorted _)
  obtain ⟨hfills, hunmet, hkept⟩ := serve_eq_sweep OpenOrder.quantity OpenOrder.reduce
    (fun o => o.side = order.side.opposite) OpenOrder.price (branchOf order).blocked
    order.side.opposite.Ahead (fun _ _ => blocked_mono hs) (fun _ _ => rfl) (fun _ _ => rfl)
    order.quantity.toNat hsorted (h.queues _ hopp)
  rw [sweep_openOf] at hfills hunmet hkept
  unfold Reference.served
  rw [mayTrade_eq hp]
  refine ⟨hfills, hunmet, h.inv.takes ht, h.indexed.takes h.inv ht, fun side hside => ?_, ?_⟩
  · by_cases hown : side = order.side.opposite
    · subst hown
      rw [ht.queue]
      exact hkept
    · -- the other side is left alone by both
      intro price
      rw [ht.other side hown, h.queues side hside price, eq_comm]
      refine filter_kept OpenOrder.quantity OpenOrder.reduce _ OpenOrder.price
        order.side.opposite.Ahead (fun o ho => ?_) (fun _ _ => rfl) _ _
      have hoside : o.side = order.side.opposite := by
        simpa using ((eligible_eq_true_iff _ _ _).mp ho).1
      simp [hoside, Ne.symm hown]
  · intro o ho
    have hsub := map_kept_sublist OpenOrder.quantity OpenOrder.reduce
      (eligible (fun o => o.side = order.side.opposite) OpenOrder.price (branchOf order).blocked)
      OpenOrder.price order.side.opposite.Ahead OpenOrder.side (fun _ _ => rfl) orders
      order.quantity.toNat
    obtain ⟨o', ho', heq⟩ := List.mem_map.mp (hsub.subset (List.mem_map_of_mem ho))
    rw [← heq]
    exact h.sides o' ho'

/-- Appending an order on both sides. -/
theorem inserts (h : Refines book orders) {order : Order} {book' : OrderBook}
    (hi : book.Inserts order book') (hl : order.orderType = .LIMIT) (hs : order.side.IsProper)
    (hq : 0 < order.quantity) (hnew : ¬ book.Rests order.id) :
    Refines book' (orders ++ [⟨order.id, order.side, order.price, order.quantity.toNat⟩]) := by
  refine ⟨h.inv.inserts hi hl hs hq, h.indexed.inserts hi hnew, fun side hside => ?_, ?_⟩
  · by_cases hown : side = order.side
    · subst hown
      obtain ⟨A, B, hA, hB, -, hbehind⟩ := hi.queue
      have hqueue := h.queues order.side hside
      rw [hA, List.map_append] at hqueue
      rw [hB, List.map_append, List.map_cons]
      -- the orders behind the new one have worse prices
      refine hqueue.push (by simp) fun o ho => ?_
      obtain ⟨b, hb, rfl⟩ := List.mem_map.mp ho
      intro heq
      have hahead := hbehind b hb
      rw [show b.1 = order.price from heq] at hahead
      exact irrefl_of order.side.Ahead _ hahead
    · rw [hi.other side hown]
      exact (h.queues side hside).skip (by simpa using fun heq => hown heq.symm)
  · intro o ho
    rcases List.mem_append.mp ho with ho | ho
    · exact h.sides o ho
    · rw [List.mem_singleton.mp ho]
      exact hs

/-- **A submission**: the same trades, and related states afterwards. -/
theorem submit (h : Refines book orders) (now : Clock) {order : Order} (hc : order.Constructed)
    (hp : order.Proper) (hnew : order.id ∉ orders.map OpenOrder.id) :
    (book.perform (.submit now order)).2 = (Reference.step orders (.submit now order)).2 ∧
      Refines (book.perform (.submit now order)).1
        (Reference.step orders (.submit now order)).1 := by
  obtain ⟨mid, subs, ht, -, heq⟩ := matchOrder_eq hc now book []
  obtain ⟨hfills, hunmet, hmid⟩ := h.takes hp ht
  have hperform : book.perform (.submit now order)
      = (if 0 < (sweepOf book order).unmet ∧ order.orderType = .LIMIT then
          mid.addOrder (remainder order (now (0 + (sweepOf book order).fills.length))
            (sweepOf book order).unmet) else mid,
        .traded ((tradesFrom now (branchOf order) 0 (sweepOf book order).fills).map
          Trade.deal)) := by
    simp only [OrderBook.perform, heq]
    rfl
  rw [hperform]
  simp only [Reference.step, Reference.submit, hfills, hunmet]
  refine ⟨by rw [map_deal_tradesFrom order now 0 fun f hf => fill_lt hf], ?_⟩
  split
  · next hrest =>
    have hrem := OrderBook.toNat_remainder book order (now (0 + (sweepOf book order).fills.length))
    -- the id is new, so that the remainder does not take over another order's entry
    have hnot : ¬ mid.Rests order.id := by
      rintro ⟨b, hb, hid⟩
      obtain ⟨side, hb⟩ := OrderBook.mem_resting_iff.mp hb
      obtain ⟨a, ha, hab, -⟩ := ht.exists_of_mem hb
      refine hnew (h.rests_iff.mp ⟨a, OrderBook.mem_resting_iff.mpr ⟨side, ha⟩, ?_⟩)
      rw [(fixedPart_inj hab).2.2.1, hid]
    have hadd := addOrder_remainder mid hrest.2 hp.1
      (now (0 + (sweepOf book order).fills.length)) (sweepOf book order).unmet
    have hins := hmid.inserts hadd hrest.2 hp.1
      (by rw [UInt32.lt_iff_toNat_lt, hrem]; exact hrest.1) hnot
    rw [hrem] at hins
    exact hins
  · exact hmid

/-- **A cancel**: the same outcome, and related states afterwards. -/
theorem cancel (h : Refines book orders) (id : OrderId) :
    (book.perform (.cancel id)).2 = (Reference.step orders (.cancel id)).2 ∧
      Refines (book.perform (.cancel id)).1 (Reference.step orders (.cancel id)).1 := by
  have hrests : book.orderMap id ≠ none ↔ id ∈ orders.map OpenOrder.id :=
    (h.indexed.rests_iff h.inv).symm.trans h.rests_iff
  cases hloc : book.orderMap id with
  | none =>
    have hnot : id ∉ orders.map OpenOrder.id := fun hid => hrests.mpr hid hloc
    simp only [OrderBook.perform, OrderBook.cancelOrder_of_none hloc, Reference.step,
      Reference.cancel, if_neg hnot, true_and]
    exact h
  | some loc =>
    have hin : id ∈ orders.map OpenOrder.id := hrests.mp (by rw [hloc]; simp)
    obtain ⟨n, book', -, hid, heq, hr⟩ := h.inv.cancelOrder_eq_ok hloc
    simp only [OrderBook.perform, heq, Reference.step, Reference.cancel, if_pos hin, true_and]
    refine ⟨h.inv.removes hr hid, h.indexed.removes h.inv hr hid, fun side hside => ?_,
      fun o ho => h.sides o (List.mem_filter.mp ho).1⟩
    -- with distinct ids, removing the node of an id and filtering by the id is the same
    rw [hr.restingOn_eq_filter h.indexed h.inv hid side]
    have hfilter : ((book.restingOn side).filter fun a => a.2.order.id ≠ id).map openOf
        = ((book.restingOn side).map openOf).filter fun o => o.id ≠ id := by
      rw [List.filter_map]
      rfl
    rw [hfilter]
    exact (h.queues side hside).filter _

end Refines

/-! ### Runs -/

/-- The ids of the orders submitted by a list of requests. -/
def submittedIds (requests : List Request) : List OrderId :=
  requests.filterMap fun
    | .submit _ order => some order.id
    | .cancel _ => none

/-- The ids that are open after a request were open before it, or are submitted by it. -/
theorem ids_step_subset (orders : List OpenOrder) (r : Request) :
    ∀ id ∈ (Reference.step orders r).1.map OpenOrder.id,
      id ∈ orders.map OpenOrder.id ∨ id ∈ submittedIds [r] := by
  cases r with
  | submit now order =>
    have hsub := map_kept_sublist OpenOrder.quantity OpenOrder.reduce (Reference.mayTrade order)
      OpenOrder.price order.side.opposite.Ahead OpenOrder.id (fun _ _ => rfl) orders
      order.quantity.toNat
    intro id hid
    simp only [Reference.step, Reference.submit] at hid
    split at hid
    · rw [List.map_append, List.mem_append] at hid
      rcases hid with hid | hid
      · exact Or.inl (hsub.subset hid)
      · exact Or.inr (by simpa [submittedIds] using hid)
    · exact Or.inl (hsub.subset hid)
  | cancel id' =>
    intro id hid
    simp only [Reference.step, Reference.cancel] at hid
    split at hid
    · next h =>
      split at h
      · obtain rfl := Option.some.inj h
        obtain ⟨o, ho, rfl⟩ := List.mem_map.mp hid
        exact Or.inl (List.mem_map_of_mem (List.mem_filter.mp ho).1)
      · exact absurd h (by simp)
    · exact Or.inl hid

/-- The relation of the two engines before a list of requests: the requests are valid,
and no id is submitted twice or is already open. -/
structure Ready (requests : List Request) (book : OrderBook) (orders : List OpenOrder) : Prop where
  refines : Refines book orders
  valid : ∀ r ∈ requests, r.Valid
  distinct : (submittedIds requests).Nodup
  unused : ∀ id ∈ submittedIds requests, id ∉ orders.map OpenOrder.id

/-- One request keeps the two engines related. -/
theorem Ready.step {r : Request} {requests : List Request} {book : OrderBook}
    {orders : List OpenOrder} (h : Ready (r :: requests) book orders) :
    (book.perform r).2 = (Reference.step orders r).2 ∧
      Ready requests (book.perform r).1 (Reference.step orders r).1 := by
  have hsplit : submittedIds (r :: requests) = submittedIds [r] ++ submittedIds requests := by
    unfold submittedIds
    rw [← List.filterMap_append]
    rfl
  have hdistinct := h.distinct
  have hunused := h.unused
  rw [hsplit] at hdistinct hunused
  -- the id of the first request is used up, and the others stay distinct from it
  have hstep : (book.perform r).2 = (Reference.step orders r).2 ∧
      Refines (book.perform r).1 (Reference.step orders r).1 := by
    cases r with
    | submit now order =>
      obtain ⟨hc, hp⟩ := h.valid _ List.mem_cons_self
      exact h.refines.submit now hc hp (hunused order.id (by simp [submittedIds]))
    | cancel id => exact h.refines.cancel id
  refine ⟨hstep.1, hstep.2, fun r' hr' => h.valid r' (List.mem_cons_of_mem r hr'),
    (List.nodup_append.mp hdistinct).2.1, fun id hid hopen => ?_⟩
  rcases ids_step_subset orders r id hopen with hold | hnew
  · exact hunused id (List.mem_append_right _ hid) hold
  · exact (List.nodup_append.mp hdistinct).2.2 id hnew id hid rfl

/-- **Price-time priority.**  For every sequence of submissions of valid orders with
pairwise distinct ids and of cancels of any ids, from an empty book, the engine and the
reference engine have the same outcome for each request (the same trades in the same
order, and the same cancels fail), and they end with the same open orders: the queue of
a level is the list of the open orders of its side and price in their order of arrival. -/
theorem price_time_priority (requests : List Request) (hv : ∀ r ∈ requests, r.Valid)
    (hd : (submittedIds requests).Nodup) :
    (transduce OrderBook.perform .empty requests).2 = (transduce Reference.step [] requests).2 ∧
    (∀ side price, side = .BID ∨ side = .ASK →
      ((((transduce OrderBook.perform .empty requests).1.restingOn side).filter
          fun a => a.1 = price).map openOf)
        = (transduce Reference.step [] requests).1.filter
          fun o => o.side = side ∧ o.price = price) ∧
    ((transduce OrderBook.perform .empty requests).1.resting.map openOf).Perm
      (transduce Reference.step [] requests).1 := by
  have hready : Ready requests .empty [] :=
    ⟨refines_empty, hv, hd, fun _ _ h => absurd h List.not_mem_nil⟩
  obtain ⟨hout, hend⟩ := transduce_simulation (fun _ _ _ _ => Ready.step) requests .empty [] hready
  refine ⟨hout, fun side price hside => ?_, ?_⟩
  · have hq := hend.refines.queues side hside price
    rw [List.filter_map] at hq
    simp only [decide_eq_true_eq] at hq
    exact hq
  · exact hend.refines.perm

/-- Two asks at one price, a bid that uses up the first and part of the second, and
cancels of both. -/
theorem price_time_priority_two_asks :
    (transduce OrderBook.perform .empty
      [.submit (fun _ => 0) ⟨0, 1, 100, 5, .ASK, .LIMIT⟩,
        .submit (fun _ => 0) ⟨0, 2, 100, 5, .ASK, .LIMIT⟩,
        .submit (fun _ => 0) ⟨0, 3, 101, 7, .BID, .LIMIT⟩, .cancel 1, .cancel 2]).2
      = (transduce Reference.step []
        [.submit (fun _ => 0) ⟨0, 1, 100, 5, .ASK, .LIMIT⟩,
          .submit (fun _ => 0) ⟨0, 2, 100, 5, .ASK, .LIMIT⟩,
          .submit (fun _ => 0) ⟨0, 3, 101, 7, .BID, .LIMIT⟩, .cancel 1, .cancel 2]).2 :=
  (price_time_priority _ (by decide) (by decide)).1

end Exchange
