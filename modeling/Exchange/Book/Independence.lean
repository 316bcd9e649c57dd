import Exchange.Book.Priority

/-!
# Independent requests

The I/O thread reads the connections in some order, and so decides in which order two requests
that are sent at the same time reach the engine.  For many pairs of requests nobody can tell:
a limit order that rests without a trade and a request that leaves its price alone, a cancel
and an order that would not have traded with what is cancelled, two cancels.

The argument is made on the reference engine, where the two orders of such requests leave lists
of open orders that differ in the arrival of orders of different prices.  One book refines
both lists, so that nothing that comes later tells them apart either.

## Main definitions

* `Reference.Alike` — two lists have the same open orders, side by side and price by price.
* `Reference.Passive`, `Order.Apart`, `Reference.Spares` — a limit order meets nothing that it
  may trade with; two orders neither trade with each other nor wait for the same price; an
  order does not trade with what is cancelled.
* `Reference.Independent` — one of these holds of two requests.

## Main results

* `Refines.alike` — a book that refines a list refines every list like it.
* `Reference.Independent.commutes` — independent requests commute in the reference engine.
* `independent_requests_commute` — they do in the engine, for whatever is requested later.
-/

namespace Exchange

open MatchingEngine

namespace Reference

/-- The two lists have the same open orders of each side and price, in the same order. -/
def Alike (orders orders' : List OpenOrder) : Prop :=
  ∀ side price, orders.filter (fun o => o.side = side ∧ o.price = price)
    = orders'.filter fun o => o.side = side ∧ o.price = price

theorem Alike.mem_iff {orders orders' : List OpenOrder} (h : Alike orders orders')
    (o : OpenOrder) : o ∈ orders ↔ o ∈ orders' := by
  have hfilter := h o.side o.price
  have hmem : o ∈ orders.filter (fun o' => o'.side = o.side ∧ o'.price = o.price) ↔
      o ∈ orders'.filter fun o' => o'.side = o.side ∧ o'.price = o.price := by rw [hfilter]
  simpa using hmem

end Reference

/-- **A book does not tell lists that are alike.** -/
theorem Refines.alike {book : OrderBook} {orders orders' : List OpenOrder}
    (h : Refines book orders) (halike : Reference.Alike orders orders') : Refines book orders' where
  inv := h.inv
  indexed := h.indexed
  queues := by
    intro side hside price
    have hqueue := h.queues side hside price
    have hsame := halike side price
    simp only [decide_eq_true_eq] at hqueue ⊢
    rw [hqueue, hsame]
  sides := fun o ho => h.sides o ((halike.mem_iff o).mpr ho)

/-! ### Independence -/

/-- An order as it rests with all of its quantity. -/
def Order.toOpen (order : Order) : OpenOrder :=
  ⟨order.id, order.side, order.price, order.quantity.toNat⟩

/-- Another order neither trades with a resting order nor waits at its price. -/
def Order.Apart (order order' : Order) : Prop :=
  Reference.mayTrade order' order.toOpen = false ∧
    ¬ (order'.orderType = .LIMIT ∧ order'.side = order.side ∧ order'.price = order.price)

instance (order order' : Order) : Decidable (order.Apart order') :=
  inferInstanceAs (Decidable (_ ∧ ¬ _))

namespace Reference

/-- A limit order meets nothing that it may trade with. -/
def Passive (orders : List OpenOrder) (order : Order) : Prop :=
  order.orderType = .LIMIT ∧ ∀ o ∈ orders, mayTrade order o = false

instance (orders : List OpenOrder) (order : Order) : Decidable (Passive orders order) :=
  inferInstanceAs (Decidable (_ ∧ _))

/-- An order has another id than the one that is cancelled, and does not trade with it. -/
def Spares (orders : List OpenOrder) (order : Order) (id : OrderId) : Prop :=
  order.id ≠ id ∧ ∀ o ∈ orders, o.id = id → mayTrade order o = false

instance (orders : List OpenOrder) (order : Order) (id : OrderId) :
    Decidable (Spares orders order id) :=
  inferInstanceAs (Decidable (_ ∧ _))

/-- Two requests are independent where the open orders are `orders`. -/
def Independent (orders : List OpenOrder) : Request → Request → Prop
  | .submit _ order, .submit _ order' =>
      Passive orders order ∧ order.Apart order' ∨ Passive orders order' ∧ order'.Apart order
  | .submit _ order, .cancel id => Spares orders order id
  | .cancel id, .submit _ order => Spares orders order id
  | .cancel id, .cancel id' => id ≠ id'

instance (orders : List OpenOrder) (r r' : Request) : Decidable (Independent orders r r') :=
  match r, r' with
  | .submit _ _, .submit _ _ => inferInstanceAs (Decidable (_ ∨ _))
  | .submit _ order, .cancel id => inferInstanceAs (Decidable (Spares orders order id))
  | .cancel id, .submit _ order => inferInstanceAs (Decidable (Spares orders order id))
  | .cancel id, .cancel id' => inferInstanceAs (Decidable (id ≠ id'))

/-- Independence depends on which orders are open, and not on their arrival. -/
theorem Independent.of_mem {orders orders' : List OpenOrder} (hmem : ∀ o ∈ orders', o ∈ orders)
    {r r' : Request} (h : Independent orders r r') : Independent orders' r r' := by
  have hpassive : ∀ order, Passive orders order → Passive orders' order :=
    fun order hp => ⟨hp.1, fun o ho => hp.2 o (hmem o ho)⟩
  have hspares : ∀ order id, Spares orders order id → Spares orders' order id :=
    fun order id hs => ⟨hs.1, fun o ho => hs.2 o (hmem o ho)⟩
  cases r with
  | submit now order =>
    cases r' with
    | submit now' order' =>
      rcases h with ⟨hp, hapart⟩ | ⟨hp, hapart⟩
      · exact Or.inl ⟨hpassive order hp, hapart⟩
      · exact Or.inr ⟨hpassive order' hp, hapart⟩
    | cancel id => exact hspares order id h
  | cancel id =>
    cases r' with
    | submit now order => exact hspares order id h
    | cancel id' => exact h

/-! ### The steps of the reference engine -/

/-- Whom an order may trade with depends on side and price. -/
theorem mayTrade_congr (order : Order) {o o' : OpenOrder} (hside : o.side = o'.side)
    (hprice : o.price = o'.price) : mayTrade order o = mayTrade order o' := by
  rw [mayTrade, mayTrade, hside, hprice]

/-- Of two limit orders both may trade with the other or none. -/
theorem mayTrade_comm {order order' : Order} (hs : order.side.IsProper)
    (hs' : order'.side.IsProper) (hl : order.orderType = .LIMIT)
    (hl' : order'.orderType = .LIMIT) :
    mayTrade order order'.toOpen = mayTrade order' order.toOpen := by
  rcases hs with hs | hs <;> rcases hs' with hs' | hs' <;>
    simp [mayTrade, Order.toOpen, hs, hs', hl, hl']

/-- What is left to rest of an order. -/
def rest (order : Order) (unmet : ℕ) : List OpenOrder :=
  if 0 < unmet ∧ order.orderType = .LIMIT then [⟨order.id, order.side, order.price, unmet⟩] else []

theorem mem_rest {order : Order} {unmet : ℕ} {o : OpenOrder} (h : o ∈ rest order unmet) :
    order.orderType = .LIMIT ∧ o.id = order.id ∧ o.side = order.side ∧ o.price = order.price := by
  unfold rest at h
  split at h
  · next hrest =>
    rw [List.mem_singleton.mp h]
    exact ⟨hrest.2, rfl, rfl, rfl⟩
  · exact absurd h List.not_mem_nil

theorem step_submit (orders : List OpenOrder) (now : Clock) (order : Order) :
    step orders (.submit now order)
      = ((served orders order).kept ++ rest order (served orders order).unmet,
          .traded ((served orders order).fills.map (deal order))) := by
  simp only [step, submit, rest]
  split
  · rfl
  · rw [List.append_nil]

/-- A cancel deletes the open order with the id, if there is one. -/
theorem step_cancel (orders : List OpenOrder) (id : OrderId) :
    step orders (.cancel id)
      = (orders.filter (fun o => o.id ≠ id),
          if id ∈ orders.map OpenOrder.id then .cancelled
          else .failed (.exception .idNotFound)) := by
  by_cases h : id ∈ orders.map OpenOrder.id
  · simp only [step, cancel, if_pos h]
  · have hall : orders.filter (fun o => o.id ≠ id) = orders := by
      rw [List.filter_eq_self]
      intro o ho
      exact decide_eq_true fun heq => h (heq ▸ List.mem_map_of_mem ho)
    simp only [step, cancel, if_neg h, hall]

/-- A limit order that meets nothing rests. -/
theorem step_passive {orders : List OpenOrder} {order : Order} (h : Passive orders order)
    (hc : order.Constructed) (now : Clock) :
    step orders (.submit now order) = (orders ++ [order.toOpen], .traded []) := by
  have hcut : cutBest (mayTrade order) OpenOrder.price order.side.opposite.Ahead orders = none :=
    (cutBest_eq_none_iff _ _ _).mpr h.2
  have hserved : served orders order = ⟨[], orders, order.quantity.toNat⟩ :=
    serve_none _ _ _ _ _ hcut _
  have hpos : 0 < order.quantity.toNat :=
    UInt32.lt_iff_toNat_lt.mp (Order.constructed_iff.mp hc).2.2
  rw [step_submit, hserved]
  simp [rest, h.1, hpos, Order.toOpen]

/-- The open orders that are kept have the sides and prices that they had. -/
theorem exists_of_mem_kept {orders : List OpenOrder} {order : Order} {o : OpenOrder}
    (h : o ∈ (served orders order).kept) :
    ∃ o' ∈ orders, o'.side = o.side ∧ o'.price = o.price ∧ o'.id = o.id := by
  have hsub := map_kept_sublist OpenOrder.quantity OpenOrder.reduce (mayTrade order)
    OpenOrder.price order.side.opposite.Ahead (fun o => (o.side, o.price, o.id)) (fun _ _ => rfl)
    orders order.quantity.toNat
  obtain ⟨o', ho', heq⟩ := List.mem_map.mp (hsub.subset (List.mem_map_of_mem h))
  simp only [Prod.mk.injEq] at heq
  exact ⟨o', ho', heq⟩

/-! ### Commuting requests -/

/-- Two requests have the same outcomes in both orders, and leave lists that are alike. -/
structure Commutes (orders : List OpenOrder) (r r' : Request) : Prop where
  first : (step (step orders r').1 r).2 = (step orders r).2
  second : (step (step orders r).1 r').2 = (step orders r').2
  alike : Alike (step (step orders r).1 r').1 (step (step orders r').1 r).1

theorem Commutes.symm {orders : List OpenOrder} {r r' : Request} (h : Commutes orders r r') :
    Commutes orders r' r :=
  ⟨h.second, h.first, fun side price => (h.alike side price).symm⟩

/-- A limit order that rests, and an order that leaves it alone. -/
theorem Passive.commutes {orders : List OpenOrder} {order order' : Order}
    (h : Passive orders order) (hapart : order.Apart order') (hc : order.Constructed)
    (hp : order.Proper) (hp' : order'.Proper) (now now' : Clock) :
    Commutes orders (.submit now order) (.submit now' order') := by
  have hserved : served (orders ++ [order.toOpen]) order'
      = ⟨(served orders order').fills, (served orders order').kept ++ [order.toOpen],
          (served orders order').unmet⟩ :=
    serve_concat _ _ _ _ _ hapart.1 _ _
  -- the order still meets nothing after the other one
  have hafter : Passive ((served orders order').kept ++ rest order' (served orders order').unmet)
      order := by
    refine ⟨h.1, fun o ho => ?_⟩
    rcases List.mem_append.mp ho with ho | ho
    · obtain ⟨o', ho', hside, hprice, -⟩ := exists_of_mem_kept ho
      rw [← mayTrade_congr order hside hprice]
      exact h.2 o' ho'
    · obtain ⟨hlimit, -, hside, hprice⟩ := mem_rest ho
      rw [← hapart.1, ← mayTrade_comm hp.1 hp'.1 h.1 hlimit]
      exact mayTrade_congr order hside hprice
  refine ⟨?_, ?_, ?_⟩
  · rw [step_submit orders now', step_passive hafter hc, step_passive h hc]
  · rw [step_passive h hc, step_submit, step_submit, hserved]
  · rw [step_passive h hc, step_submit orders now', step_passive hafter hc, step_submit, hserved]
    intro side price
    simp only [List.filter_append, List.append_assoc]
    congr 1
    -- the two orders that arrive are of different sides or prices
    by_cases hclass : order.side = side ∧ order.price = price
    · have hnil : (rest order' (served orders order').unmet).filter
          (fun o => o.side = side ∧ o.price = price) = [] := by
        rw [List.filter_eq_nil_iff]
        intro o ho hboth
        obtain ⟨hlimit, -, hside, hprice⟩ := mem_rest ho
        rw [decide_eq_true_eq] at hboth
        exact hapart.2 ⟨hlimit, by rw [← hside, hboth.1, hclass.1],
          by rw [← hprice, hboth.2, hclass.2]⟩
      rw [hnil, List.append_nil, List.nil_append]
    · have hnil : [order.toOpen].filter (fun o => o.side = side ∧ o.price = price) = [] := by
        simp [Order.toOpen, hclass]
      rw [hnil, List.append_nil, List.nil_append]

/-- An order, and a cancel of what it does not trade with. -/
theorem Spares.commutes {orders : List OpenOrder} {order : Order} {id : OrderId}
    (h : Spares orders order id) (now : Clock) :
    Commutes orders (.submit now order) (.cancel id) := by
  have hserved : served (orders.filter fun o => o.id ≠ id) order
      = ⟨(served orders order).fills, (served orders order).kept.filter (fun o => o.id ≠ id),
          (served orders order).unmet⟩ := by
    refine serve_filter OpenOrder.quantity OpenOrder.reduce (mayTrade order) OpenOrder.price
      order.side.opposite.Ahead (fun _ _ => rfl) orders order.quantity.toNat ?_
    intro o ho hok
    refine decide_eq_true fun hid => ?_
    rw [h.2 o ho hid] at hok
    exact Bool.false_ne_true hok
  have hrest : (rest order (served orders order).unmet).filter (fun o => o.id ≠ id)
      = rest order (served orders order).unmet := by
    rw [List.filter_eq_self]
    intro o ho
    obtain ⟨-, hid, -, -⟩ := mem_rest ho
    rw [hid]
    exact decide_eq_true h.1
  -- the order leaves the open order with the id, if there is one
  have hmem : id ∈ ((served orders order).kept ++ rest order (served orders order).unmet).map
      OpenOrder.id ↔ id ∈ orders.map OpenOrder.id := by
    constructor
    · intro hid
      obtain ⟨o, ho, rfl⟩ := List.mem_map.mp hid
      rcases List.mem_append.mp ho with ho | ho
      · obtain ⟨o', ho', -, -, heq⟩ := exists_of_mem_kept ho
        exact heq ▸ List.mem_map_of_mem ho'
      · exact absurd (mem_rest ho).2.1.symm h.1
    · intro hid
      obtain ⟨o, ho, hoid⟩ := List.mem_map.mp hid
      have hkept := filter_kept OpenOrder.quantity OpenOrder.reduce (mayTrade order)
        OpenOrder.price order.side.opposite.Ahead (p := fun o => !mayTrade order o)
        (fun a ha => by rw [ha]; rfl) (fun _ _ => rfl) orders order.quantity.toNat
      have hin : o ∈ (served orders order).kept.filter fun o => !mayTrade order o := by
        rw [served, hkept, List.mem_filter, h.2 o ho hoid]
        exact ⟨ho, rfl⟩
      rw [← hoid]
      exact List.mem_map_of_mem (List.mem_append_left _ (List.mem_filter.mp hin).1)
  refine ⟨?_, ?_, ?_⟩
  · rw [step_cancel, step_submit, step_submit, hserved]
  · rw [step_submit, step_cancel, step_cancel, if_congr hmem rfl rfl]
  · rw [step_submit, step_cancel, step_cancel, step_submit, hserved, List.filter_append, hrest]
    exact fun _ _ => rfl

/-- Two cancels. -/
theorem cancels_commute (orders : List OpenOrder) {id id' : OrderId} (h : id ≠ id') :
    Commutes orders (.cancel id) (.cancel id') := by
  have hmem : ∀ {id id' : OrderId}, id ≠ id' →
      (id ∈ (orders.filter fun o => o.id ≠ id').map OpenOrder.id ↔
        id ∈ orders.map OpenOrder.id) := by
    intro id id' hne
    simp only [List.mem_map, List.mem_filter, decide_eq_true_eq]
    constructor
    · rintro ⟨o, ⟨ho, -⟩, hid⟩
      exact ⟨o, ho, hid⟩
    · rintro ⟨o, ho, hid⟩
      exact ⟨o, ⟨ho, fun heq => hne (hid.symm.trans heq)⟩, hid⟩
  refine ⟨?_, ?_, ?_⟩
  · rw [step_cancel orders id', step_cancel, step_cancel, if_congr (hmem h) rfl rfl]
  · rw [step_cancel orders id, step_cancel, step_cancel, if_congr (hmem h.symm) rfl rfl]
  · intro side price
    rw [step_cancel, step_cancel, step_cancel, step_cancel]
    exact congrArg _ (List.filter_comm _ _ orders)

/-- **Independent requests commute in the reference engine.** -/
theorem Independent.commutes {orders : List OpenOrder} {r r' : Request}
    (h : Independent orders r r') (hv : r.Valid) (hv' : r'.Valid) : Commutes orders r r' := by
  cases r with
  | submit now order =>
    cases r' with
    | submit now' order' =>
      rcases h with ⟨hpassive, hapart⟩ | ⟨hpassive, hapart⟩
      · exact hpassive.commutes hapart hv.1 hv.2 hv'.2 now now'
      · exact (hpassive.commutes hapart hv'.1 hv'.2 hv.2 now' now).symm
    | cancel id => exact Spares.commutes h now
  | cancel id =>
    cases r' with
    | submit now order => exact (Spares.commutes h now).symm
    | cancel id' => exact cancels_commute orders h

end Reference

/-! ### Runs -/

/-- The two engines are related wherever a run is cut. -/
theorem Ready.of_append {pre rest : List Request} (hv : ∀ r ∈ pre ++ rest, r.Valid)
    (hd : (submittedIds (pre ++ rest)).Nodup) :
    Ready rest (transduce OrderBook.perform .empty pre).1 (transduce Reference.step [] pre).1 := by
  have hready : Ready (pre ++ rest) .empty [] :=
    ⟨refines_empty, hv, hd, fun _ _ h => absurd h List.not_mem_nil⟩
  refine (transduce_simulation (R := fun rs book orders => Ready (rs ++ rest) book orders)
    ?_ pre .empty [] hready).2
  intro r rs book orders h
  rw [List.cons_append] at h
  exact h.step

theorem Ready.swap {r r' : Request} {rest : List Request} {book : OrderBook}
    {orders : List OpenOrder} (h : Ready (r :: r' :: rest) book orders) :
    Ready (r' :: r :: rest) book orders := by
  have hperm : (r' :: r :: rest).Perm (r :: r' :: rest) := List.Perm.swap r r' rest
  have hids : (submittedIds (r' :: r :: rest)).Perm (submittedIds (r :: r' :: rest)) :=
    hperm.filterMap _
  exact ⟨h.refines, fun r'' hr'' => h.valid r'' (hperm.mem_iff.mp hr''),
    hids.nodup_iff.mpr h.distinct, fun id hid => h.unused id (hids.mem_iff.mp hid)⟩

theorem Ready.alike {rest : List Request} {book : OrderBook} {orders orders' : List OpenOrder}
    (h : Ready rest book orders) (halike : Reference.Alike orders orders') :
    Ready rest book orders' := by
  refine ⟨h.refines.alike halike, h.valid, h.distinct, fun id hid hopen => ?_⟩
  obtain ⟨o, ho, hoid⟩ := List.mem_map.mp hopen
  exact h.unused id hid (List.mem_map.mpr ⟨o, (halike.mem_iff o).mpr ho, hoid⟩)

/-- **Nobody can tell which of two independent requests came first.**  In every run of
submissions of valid orders with distinct ids and of cancels, two neighbours that are
independent in the book they come to can be swapped: both have the outcome that they had, so
has every request after them, whatever it is, and in the end the same orders wait in the same
queues. -/
theorem independent_requests_commute {pre post : List Request} {r r' : Request}
    (hv : ∀ q ∈ pre ++ r :: r' :: post, q.Valid)
    (hd : (submittedIds (pre ++ r :: r' :: post)).Nodup)
    (hind : Reference.Independent
      ((transduce OrderBook.perform .empty pre).1.resting.map openOf) r r') :
    (∃ before o o' after, before.length = pre.length ∧
      (transduce OrderBook.perform .empty (pre ++ r :: r' :: post)).2
        = before ++ o :: o' :: after ∧
      (transduce OrderBook.perform .empty (pre ++ r' :: r :: post)).2
        = before ++ o' :: o :: after) ∧
    ∀ side price, side = .BID ∨ side = .ASK →
      (((transduce OrderBook.perform .empty (pre ++ r :: r' :: post)).1.restingOn side).map
          openOf).filter (fun o => o.price = price)
        = (((transduce OrderBook.perform .empty (pre ++ r' :: r :: post)).1.restingOn side).map
          openOf).filter fun o => o.price = price := by
  have hready := Ready.of_append hv hd
  have hlength : (transduce OrderBook.perform .empty pre).2.length = pre.length :=
    length_transduce _ _ _
  simp only [transduce_append]
  generalize transduce OrderBook.perform .empty pre = before at hready hind hlength ⊢
  generalize (transduce Reference.step [] pre).1 = orders at hready
  have hcomm := (hind.of_mem fun o ho => List.mem_map.mpr (hready.refines.mem_iff.mp ho)).commutes
    (hready.valid r (by simp)) (hready.valid r' (by simp))
  obtain ⟨hfirst, hready₁⟩ := hready.step
  obtain ⟨hsecond, hready₁₂⟩ := hready₁.step
  obtain ⟨hfirst', hready₂⟩ := hready.swap.step
  obtain ⟨hsecond', hready₂₁⟩ := hready₂.step
  -- after both orders the book is related to one and the same list of open orders
  obtain ⟨hafter, hend⟩ := transduce_simulation (fun _ _ _ _ => Ready.step) post _ _
    (hready₁₂.alike hcomm.alike)
  obtain ⟨hafter', hend'⟩ := transduce_simulation (fun _ _ _ _ => Ready.step) post _ _ hready₂₁
  refine ⟨⟨before.2, (before.1.perform r).2, (before.1.perform r').2,
    (transduce OrderBook.perform ((before.1.perform r).1.perform r').1 post).2,
    hlength, ?_, ?_⟩, ?_⟩
  · rw [transduce, transduce, hsecond, hcomm.second, ← hfirst']
  · rw [transduce, transduce, hsecond', hcomm.first, ← hfirst, hafter, ← hafter']
  · intro side price hside
    exact (hend.refines.queues side hside price).trans (hend'.refines.queues side hside price).symm

/-- A bid that trades with an ask of 100, and an ask of 105 that rests, in either order; the
ask of 105 trades later. -/
theorem independent_requests_commute_bid_ask :
    ∃ before o o' after,
      (transduce OrderBook.perform .empty
        [.submit (fun _ => 0) ⟨0, 1, 100, 5, .ASK, .LIMIT⟩,
          .submit (fun _ => 0) ⟨0, 2, 101, 7, .BID, .LIMIT⟩,
          .submit (fun _ => 0) ⟨0, 3, 105, 4, .ASK, .LIMIT⟩,
          .submit (fun _ => 0) ⟨0, 4, 0, 4, .BID, .MARKET⟩]).2 = before ++ o :: o' :: after ∧
      (transduce OrderBook.perform .empty
        [.submit (fun _ => 0) ⟨0, 1, 100, 5, .ASK, .LIMIT⟩,
          .submit (fun _ => 0) ⟨0, 3, 105, 4, .ASK, .LIMIT⟩,
          .submit (fun _ => 0) ⟨0, 2, 101, 7, .BID, .LIMIT⟩,
          .submit (fun _ => 0) ⟨0, 4, 0, 4, .BID, .MARKET⟩]).2 = before ++ o' :: o :: after := by
  obtain ⟨⟨before, o, o', after, -, hout, hout'⟩, -⟩ := @independent_requests_commute
    [.submit (fun _ => 0) ⟨0, 1, 100, 5, .ASK, .LIMIT⟩]
    [.submit (fun _ => 0) ⟨0, 4, 0, 4, .BID, .MARKET⟩]
    (.submit (fun _ => 0) ⟨0, 2, 101, 7, .BID, .LIMIT⟩)
    (.submit (fun _ => 0) ⟨0, 3, 105, 4, .ASK, .LIMIT⟩) (by decide) (by decide)
    (by decide +kernel)
  exact ⟨before, o, o', after, hout, hout'⟩

end Exchange
