import Exchange.Book.Invariant

/-!
# Conservation of quantity

A ledger follows the engine through a run of requests and keeps every quantity that
enters it, changes hands or leaves it.  Per side and id the ledger balances: what was
submitted is traded, still resting, cancelled, or dropped as the remainder of a market
order.

## Main definitions

* `Request` — the calls an engine is driven by: `match` and `cancel_order`.
* `Ledger`, `Ledger.step`, `Ledger.run` — the engine with its ledger.
* `orderTotal`, `tradedTotal`, `restingTotal`, `cancelledTotal` — the quantities of
  one id on one side: of a list of orders, of the trades, in the book, and removed.
* `Ledger.Sound` — the invariant that carries the balance through a run.

## Main results

* `Takes.balance` — what one incoming order does to the totals.
* `Ledger.Sound.step`, `Ledger.Sound.run` — one request, and a run of them.
* `quantity_conserved` — the ledger balances after every run, no 32-bit subtraction
  wraps, and no trade is empty.
-/

namespace Exchange

open MatchingEngine

/-- A request to the engine. -/
inductive Request
  | submit (now : Clock) (order : Order)
  | cancel (id : OrderId)

/-- The order of a request is accepted by the constructor and names one of the two
sides and one of the two types. -/
def Request.Valid : Request → Prop
  | .submit _ order => order.Constructed ∧ order.Proper
  | .cancel _ => True

instance (r : Request) : Decidable r.Valid :=
  match r with
  | .submit _ order => inferInstanceAs (Decidable (order.Constructed ∧ order.Proper))
  | .cancel _ => inferInstanceAs (Decidable True)

/-- A quantity taken off a side by a cancel of an id. -/
structure Removal where
  id : OrderId
  side : Side
  quantity : Quantity
  deriving DecidableEq, Repr

/-- What a successful cancel of `id` takes off the book: the quantity of the order
its index entry points to, on the entry's side. -/
def OrderBook.removalOf (book : OrderBook) (id : OrderId) : Option Removal :=
  (book.orderMap id).bind fun loc =>
    ((book.restingOn loc.side).find? fun a => a.1 = loc.price ∧ a.2.pos = loc.listPosition).map
      fun a => ⟨id, loc.side, a.2.order.quantity⟩

/-- The engine with a ledger: the orders submitted, the trades, what cancels removed,
the unfilled remainders of market orders, and the operands of all subtractions. -/
structure Ledger where
  book : OrderBook
  submitted : List Order
  trades : List Trade
  cancelled : List Removal
  dropped : List Order
  subtractions : List (Quantity × Quantity)

namespace Ledger

/-- An engine over an empty book. -/
def empty : Ledger := ⟨.empty, [], [], [], [], []⟩

/-- One request.  A submission hands the vector of trades on to `match`, and a market
order drops the final value of `remaining_quantity`. -/
def step (l : Ledger) : Request → Ledger
  | .submit now order =>
      match matchOrder now l.book order l.trades with
      | .ok r =>
          { l with
            book := r.book
            submitted := l.submitted ++ [order]
            trades := r.trades
            dropped := if order.orderType = .MARKET then
              l.dropped ++ [{ order with quantity := r.remaining }] else l.dropped
            subtractions := l.subtractions ++ r.subtractions }
      | .error t =>
          { l with
            book := t.state.1
            submitted := l.submitted ++ [order]
            trades := t.state.2 }
  | .cancel id =>
      match l.book.cancelOrder id with
      | .ok book =>
          { l with book, cancelled := l.cancelled ++ (l.book.removalOf id).toList }
      | .error _ => l

/-- The ledger after a run of requests. -/
def run (l : Ledger) (requests : List Request) : Ledger := requests.foldl step l

end Ledger

/-! ### The totals of an id on a side -/

/-- The party of a trade on a side. -/
def Trade.party (side : Side) (t : Trade) : OrderId :=
  if side = .BID then t.buyerOrderId else t.sellerOrderId

/-- The quantity of the orders among `orders` of a side with an id. -/
def orderTotal (side : Side) (id : OrderId) (orders : List Order) : ℕ :=
  (orders.map fun o => if o.side = side ∧ o.id = id then o.quantity.toNat else 0).sum

/-- The quantity of the trades that name an id as the party of a side. -/
def tradedTotal (side : Side) (id : OrderId) (trades : List Trade) : ℕ :=
  (trades.map fun t => if t.party side = id then t.quantity.toNat else 0).sum

/-- The quantity of the orders with an id that rest on a side. -/
def restingTotal (side : Side) (id : OrderId) (book : OrderBook) : ℕ :=
  ((book.restingOn side).map fun a => if a.2.order.id = id then a.2.order.quantity.toNat else 0).sum

/-- The quantity that cancels of an id removed from a side. -/
def cancelledTotal (side : Side) (id : OrderId) (removals : List Removal) : ℕ :=
  (removals.map fun r => if r.side = side ∧ r.id = id then r.quantity.toNat else 0).sum

/-- The ledger balances for an id on a side. -/
def Ledger.Balanced (l : Ledger) (side : Side) (id : OrderId) : Prop :=
  orderTotal side id l.submitted = tradedTotal side id l.trades + restingTotal side id l.book
    + cancelledTotal side id l.cancelled + orderTotal side id l.dropped

@[simp] theorem orderTotal_append (side : Side) (id : OrderId) (l l' : List Order) :
    orderTotal side id (l ++ l') = orderTotal side id l + orderTotal side id l' := by
  simp [orderTotal]

@[simp] theorem tradedTotal_append (side : Side) (id : OrderId) (l l' : List Trade) :
    tradedTotal side id (l ++ l') = tradedTotal side id l + tradedTotal side id l' := by
  simp [tradedTotal]

@[simp] theorem cancelledTotal_append (side : Side) (id : OrderId) (l l' : List Removal) :
    cancelledTotal side id (l ++ l') = cancelledTotal side id l + cancelledTotal side id l' := by
  simp [cancelledTotal]

theorem orderTotal_singleton (side : Side) (id : OrderId) (o : Order) :
    orderTotal side id [o] = if o.side = side ∧ o.id = id then o.quantity.toNat else 0 := by
  simp [orderTotal]

theorem cancelledTotal_singleton (side : Side) (id : OrderId) (r : Removal) :
    cancelledTotal side id [r] = if r.side = side ∧ r.id = id then r.quantity.toNat else 0 := by
  simp [cancelledTotal]

/-! ### What one operation does to the totals -/

/-- The quantity of an id on a side that a queue holds. -/
theorem restingTotal_of_queue {side : Side} {book : OrderBook} {q : List (Price × Node)}
    (h : book.restingOn side = q) (id : OrderId) :
    restingTotal side id book
      = (q.map fun a => if a.2.order.id = id then a.2.order.quantity.toNat else 0).sum := by
  rw [restingTotal, h]

theorem OrderBook.Inserts.restingTotal {book book' : OrderBook} {order : Order}
    (h : book.Inserts order book') (side : Side) (id : OrderId) :
    restingTotal side id book' = restingTotal side id book + orderTotal side id [order] := by
  rw [orderTotal_singleton]
  by_cases hside : order.side = side
  · subst hside
    obtain ⟨A, B, hA, hB, -, -⟩ := h.queue
    rw [restingTotal_of_queue hA, restingTotal_of_queue hB]
    simp only [List.map_append, List.map_cons, List.sum_append, List.sum_cons, true_and]
    omega
  · rw [restingTotal_of_queue (h.other side fun heq => hside heq.symm), if_neg fun h => hside h.1]
    rfl

theorem OrderBook.Removes.restingTotal {book book' : OrderBook} {id : OrderId} {side : Side}
    {price : Price} {n : Node} (h : book.Removes id side price n book') (hn : n.order.id = id)
    (side' : Side) (id' : OrderId) :
    restingTotal side' id' book = restingTotal side' id' book'
      + cancelledTotal side' id' [⟨id, side, n.order.quantity⟩] := by
  rw [cancelledTotal_singleton]
  by_cases hside : side = side'
  · subst hside
    obtain ⟨A, B, hA, hB⟩ := h.queue
    rw [restingTotal_of_queue hA, restingTotal_of_queue hB]
    simp only [List.map_append, List.map_cons, List.sum_append, List.sum_cons, true_and, hn]
    omega
  · rw [restingTotal_of_queue (h.other side' fun heq => hside heq.symm), if_neg fun h => hside h.1]
    rfl

/-- The trades of a walk name the incoming order on its own side and the resting
orders on the other one. -/
theorem party_branchOf {order : Order} (hs : order.side.IsProper) (p : Price) (o : Order)
    (q : Quantity) (ts : Timestamp) :
    ((branchOf order).trade p o q ts).party order.side = order.id ∧
      ((branchOf order).trade p o q ts).party order.side.opposite = o.id := by
  rcases hs with hs | hs
  · rw [branchOf, if_pos hs, hs]
    exact ⟨rfl, rfl⟩
  · rw [branchOf, if_neg (by rw [hs]; exact Side.ASK_ne_BID), hs]
    exact ⟨rfl, rfl⟩

theorem quantity_branchOf (order : Order) (p : Price) (o : Order) (q : Quantity)
    (ts : Timestamp) : ((branchOf order).trade p o q ts).quantity = q := by
  unfold branchOf
  split <;> rfl

/-- The quantities of the trades of a list of fills are the amounts drawn. -/
theorem tradedTotal_tradesFrom {order : Order} {side : Side} {party : Order → OrderId}
    (hparty : ∀ p o q ts, ((branchOf order).trade p o q ts).party side = party o)
    (id : OrderId) (now : Clock) (k : ℕ) {fills : List ((Price × Node) × ℕ)}
    (hlt : ∀ f ∈ fills, f.2 < 2 ^ 32) :
    tradedTotal side id (tradesFrom now (branchOf order) k fills)
      = (fills.map fun f => if party f.1.2.order = id then f.2 else 0).sum := by
  induction fills generalizing k with
  | nil => rfl
  | cons f fills ih =>
    have hf : (UInt32.ofNat f.2).toNat = f.2 :=
      UInt32.toNat_ofNat_of_lt' (hlt f List.mem_cons_self)
    have ih' := ih (k + 1) fun f' hf' => hlt f' (List.mem_cons_of_mem f hf')
    unfold tradedTotal at ih' ⊢
    simp only [tradesFrom, List.map_cons, List.sum_cons, hparty, quantity_branchOf, hf, ih']

/-- An amount drawn is a 32-bit quantity. -/
theorem fill_lt {book : OrderBook} {order : Order} {f : (Price × Node) × ℕ}
    (h : f ∈ (sweepOf book order).fills) : f.2 < 2 ^ 32 :=
  Nat.lt_of_le_of_lt (snd_le_weight _ _ _ h) f.1.2.order.quantity.toNat_lt

/-- **One incoming order**: what it trades, what rests afterwards and what is unmet of
it add up to what rested before and its own quantity. -/
theorem MatchingEngine.Takes.balance {book mid : OrderBook} {order : Order}
    (ht : Takes book order mid) (hs : order.side.IsProper) {side : Side} (hside : side.IsProper)
    (id : OrderId) (now : Clock) (k : ℕ) :
    tradedTotal side id (tradesFrom now (branchOf order) k (sweepOf book order).fills)
        + restingTotal side id mid
        + (if order.side = side ∧ order.id = id then (sweepOf book order).unmet else 0)
      = restingTotal side id book + orderTotal side id [order] := by
  rw [orderTotal_singleton]
  by_cases hown : side = order.side
  · -- the order's own side: nothing of the queue moves, and the fills are all its own
    subst hown
    have hsum := sum_fills_add_unmet weight reduceBy (fun a => (branchOf order).blocked a.1)
      (book.restingOn order.side.opposite) order.quantity.toNat
    have hrest : restingTotal order.side id mid = restingTotal order.side id book :=
      restingTotal_of_queue (ht.other _ (OrderBook.opposite_ne_self hs).symm) id
    rw [tradedTotal_tradesFrom (fun p o q ts => (party_branchOf hs p o q ts).1) id now k
      fun f hf => fill_lt hf, hrest]
    by_cases hid : order.id = id
    · simp only [hid, and_self, if_true]
      unfold sweepOf walk
      rw [Nat.add_right_comm, hsum, Nat.add_comm]
    · simp [hid]
  · -- the opposite side: what is drawn from an id is missing from its queue
    have hopp : side = order.side.opposite := by
      rcases hs with hs | hs <;> rcases hside with h | h <;> rw [hs, h] at hown ⊢ <;>
        first | rfl | exact absurd rfl hown
    subst hopp
    have hsum := sum_fills_add_left weight reduceBy (fun a => (branchOf order).blocked a.1)
      (fun a => a.2.order.id = id) (fun _ _ => Iff.rfl) (fun _ _ => weight_reduceBy)
      (book.restingOn order.side.opposite) order.quantity.toNat
    rw [tradedTotal_tradesFrom (fun p o q ts => (party_branchOf hs p o q ts).2) id now k
      fun f hf => fill_lt hf, restingTotal_of_queue ht.queue]
    rw [if_neg fun h => hown h.1.symm, if_neg fun h => hown h.1.symm]
    exact hsum

/-! ### Runs -/

namespace Ledger

/-- The invariant of a run of requests. -/
structure Sound (l : Ledger) : Prop where
  book : l.book.Inv
  balanced : ∀ side id, side.IsProper → l.Balanced side id
  exact : ∀ p ∈ l.subtractions, p.2 ≤ p.1
  positive : ∀ t ∈ l.trades, 0 < t.quantity

theorem sound_empty : empty.Sound where
  book := OrderBook.inv_empty
  balanced := by
    rintro side id (rfl | rfl)
    · rfl
    · rfl
  exact := fun _ hp => absurd hp List.not_mem_nil
  positive := fun _ ht => absurd ht List.not_mem_nil

end Ledger

/-- The trades of a walk over a book in order have a positive quantity. -/
theorem OrderBook.Inv.trades_pos {book : OrderBook} (h : book.Inv) (order : Order) (now : Clock)
    (k : ℕ) : ∀ t ∈ tradesFrom now (branchOf order) k (sweepOf book order).fills,
      0 < t.quantity := by
  have hpos : ∀ f ∈ (sweepOf book order).fills, 0 < f.2 ∧ f.2 < 2 ^ 32 := fun f hf =>
    ⟨fills_pos weight reduceBy _ (fun a ha =>
      UInt32.lt_iff_toNat_lt.mp (h.orders _ a ha).2.2.2) hf, fill_lt hf⟩
  -- the trades are made of the fills, one by one
  generalize (sweepOf book order).fills = fills at hpos
  induction fills generalizing k with
  | nil => exact fun t ht => absurd ht List.not_mem_nil
  | cons f fills ih =>
    intro t ht
    rcases List.mem_cons.mp ht with rfl | ht
    · obtain ⟨hf, hlt⟩ := hpos f List.mem_cons_self
      rw [quantity_branchOf, UInt32.lt_iff_toNat_lt, UInt32.toNat_ofNat_of_lt' hlt]
      exact hf
    · exact ih (k + 1) (fun f' hf' => hpos f' (List.mem_cons_of_mem f hf')) t ht

/-- The removal that a cancel books is the order that leaves the book. -/
theorem OrderBook.Inv.removalOf_eq {book : OrderBook} (h : book.Inv) {id : OrderId}
    {loc : OrderLocation} (hloc : book.orderMap id = some loc) {n : Node}
    (hn : (loc.price, n) ∈ book.restingOn loc.side) (hpos : n.pos = loc.listPosition) :
    book.removalOf id = some ⟨id, loc.side, n.order.quantity⟩ := by
  have hfind : (book.restingOn loc.side).find? (fun a => a.1 = loc.price ∧
      a.2.pos = loc.listPosition) = some (loc.price, n) := by
    -- positions are distinct, so that the first match is the only one
    cases hf : (book.restingOn loc.side).find? (fun a => a.1 = loc.price ∧
        a.2.pos = loc.listPosition) with
    | none =>
      have hnone := List.find?_eq_none.mp hf (loc.price, n) hn
      simp [hpos] at hnone
    | some a =>
      have ha := List.find?_some hf
      simp only [decide_eq_true_eq] at ha
      exact congrArg some (h.eq_of_pos (mem_resting_iff.mpr ⟨_, List.mem_of_find?_eq_some hf⟩)
        (mem_resting_iff.mpr ⟨_, hn⟩) (ha.2.trans hpos.symm))
  rw [removalOf, hloc, Option.bind_some, hfind]
  rfl

namespace Ledger

/-- A submission keeps the ledger sound. -/
theorem Sound.submit {l : Ledger} (h : l.Sound) (now : Clock) {order : Order}
    (hc : order.Constructed) (hp : order.Proper) : (l.step (.submit now order)).Sound := by
  obtain ⟨mid, subs, ht, hsubs, heq⟩ := matchOrder_eq hc now l.book l.trades
  have hs : order.side.IsProper := hp.1
  have hrem := OrderBook.toNat_remainder l.book order
  simp only [step, heq]
  constructor
  · -- the invariant of the book
    show OrderBook.Inv (if _ then _ else _)
    split
    · next hrest =>
      refine (h.book.takes ht).inserts (addOrder_remainder mid hrest.2 hs _ _) hrest.2 hs ?_
      rw [UInt32.lt_iff_toNat_lt, hrem]
      exact hrest.1
    · exact h.book.takes ht
  · intro side id hside
    have hbal := h.balanced side id hside
    have htake := ht.balance hs hside id now l.trades.length
    unfold Balanced at hbal ⊢
    simp only [orderTotal_append, tradedTotal_append]
    rcases hp.2 with hl | hm
    · -- a limit order: what is unmet of it rests
      have hm : ¬ order.orderType = .MARKET := by
        rw [hl]
        exact OrderType.LIMIT_ne_MARKET
      rw [if_neg hm]
      by_cases hpos : 0 < (sweepOf l.book order).unmet
      · have hins : ∀ ts, restingTotal side id
            (mid.addOrder (remainder order ts (sweepOf l.book order).unmet))
            = restingTotal side id mid
              + if order.side = side ∧ order.id = id then (sweepOf l.book order).unmet else 0 := by
          intro ts
          have h' := (addOrder_remainder mid hl hs ts (sweepOf l.book order).unmet).restingTotal
            side id
          rw [orderTotal_singleton, hrem] at h'
          exact h'
        rw [if_pos ⟨hpos, hl⟩, hins]
        omega
      · rw [if_neg fun h => hpos h.1]
        have hu : (sweepOf l.book order).unmet = 0 := by omega
        rw [hu, ite_self] at htake
        omega
    · -- a market order: what is unmet of it is dropped
      rw [if_pos hm, if_neg (by rw [hm]; exact fun h => OrderType.MARKET_ne_LIMIT h.2)]
      have hdrop : orderTotal side id
          [{ order with quantity := UInt32.ofNat (sweepOf l.book order).unmet }]
          = if order.side = side ∧ order.id = id then (sweepOf l.book order).unmet else 0 := by
        rw [orderTotal_singleton]
        congr 1
        exact hrem 0
      rw [orderTotal_append, hdrop]
      omega
  · intro p hp
    rcases List.mem_append.mp hp with hp | hp
    · exact h.exact p hp
    · exact hsubs p hp
  · intro t ht'
    rcases List.mem_append.mp ht' with ht' | ht'
    · exact h.positive t ht'
    · exact h.book.trades_pos order now _ t ht'

/-- A cancel keeps the ledger sound. -/
theorem Sound.cancel {l : Ledger} (h : l.Sound) (id : OrderId) : (l.step (.cancel id)).Sound := by
  cases hloc : l.book.orderMap id with
  | none =>
    simp only [step, OrderBook.cancelOrder_of_none hloc]
    exact h
  | some loc =>
    obtain ⟨n, book', hpos, hid, heq, hr⟩ := h.book.cancelOrder_eq_ok hloc
    obtain ⟨A, B, hA, -⟩ := hr.queue
    have hn : (loc.price, n) ∈ l.book.restingOn loc.side := by rw [hA]; simp
    simp only [step, heq, h.book.removalOf_eq hloc hn hpos, Option.toList_some]
    refine ⟨h.book.removes hr hid, fun side id' hside => ?_, h.exact, h.positive⟩
    have hbal := h.balanced side id' hside
    have hrest := hr.restingTotal hid side id'
    unfold Balanced at hbal ⊢
    simp only [cancelledTotal_append]
    omega

theorem Sound.step {l : Ledger} (h : l.Sound) {r : Request} (hr : r.Valid) : (l.step r).Sound := by
  cases r with
  | submit now order => exact h.submit now hr.1 hr.2
  | cancel id => exact h.cancel id

theorem Sound.run {l : Ledger} (h : l.Sound) {requests : List Request}
    (hv : ∀ r ∈ requests, r.Valid) : (l.run requests).Sound := by
  induction requests generalizing l with
  | nil => exact h
  | cons r requests ih =>
    exact ih (h.step (hv r List.mem_cons_self)) fun r' hr' => hv r' (List.mem_cons_of_mem r hr')

end Ledger

/-- **Quantity is conserved over every run**, per side and id, with repeated ids
allowed: what was submitted is traded, resting, cancelled or dropped as the unfilled
part of a market order.  No 32-bit subtraction of the run wraps, and every trade has a
positive quantity. -/
theorem quantity_conserved (requests : List Request) (h : ∀ r ∈ requests, r.Valid) :
    (∀ side id, side = .BID ∨ side = .ASK → (Ledger.empty.run requests).Balanced side id) ∧
    (∀ p ∈ (Ledger.empty.run requests).subtractions, p.2 ≤ p.1) ∧
    (∀ t ∈ (Ledger.empty.run requests).trades, 0 < t.quantity) := by
  have hsound := Ledger.sound_empty.run h
  exact ⟨hsound.balanced, hsound.exact, hsound.positive⟩

/-- An ask is used up by a market bid, whose remainder is dropped; a second ask under
the same id rests and is cancelled. -/
theorem quantity_conserved_repeated_id :
    (Ledger.empty.run [.submit (fun _ => 0) ⟨0, 7, 100, 5, .ASK, .LIMIT⟩,
        .submit (fun _ => 0) ⟨0, 8, 0, 9, .BID, .MARKET⟩,
        .submit (fun _ => 0) ⟨0, 7, 90, 3, .ASK, .LIMIT⟩, .cancel 7]).Balanced .ASK 7 :=
  (quantity_conserved _ (by decide)).1 .ASK 7 (Or.inr rfl)

end Exchange
