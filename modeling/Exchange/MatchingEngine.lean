import Exchange.OrderBook

/-!
# The matching engine

`matching_engine.cpp`.  `match` walks the opposite side of the book from its best
level, takes the orders of a level from the front of its queue until the incoming
order is filled, the side is empty or a limit price no longer crosses, and rests
the remainder of a limit order on its own side.

The source writes the walk twice, once per side.  The two copies are one
definition here, `matchLevels`, and `bidBranch` and `askBranch` give what differs
between them: the test that ends the walk and the fields of a trade.

## Main definitions

* `fillLevel`, `matchLevels` — the inner and the outer loop.
* `matchOrder` — `MatchingEngine::match`.

The loops are defined by well-founded recursion on what the source's loop tests
bring down: each inner iteration removes an order or uses up the remaining
quantity, each outer iteration removes a level or uses up the remaining quantity.
-/

namespace Exchange

namespace MatchingEngine

/-- `std::min` on quantities. -/
def stdMin (a b : Quantity) : Quantity := if b < a then b else a

@[simp] theorem toNat_stdMin (a b : Quantity) : (stdMin a b).toNat = min a.toNat b.toNat := by
  unfold stdMin
  split
  · next h => rw [UInt32.lt_iff_toNat_lt] at h; omega
  · next h => rw [UInt32.lt_iff_toNat_lt] at h; omega

/-- What the two copies of the walk do differently: when a limit order no longer
crosses a level, and which party of a trade is which. -/
structure Branch where
  blocked : Price → Bool
  trade : Price → Order → Quantity → Timestamp → Trade

/-- The walk of an incoming bid over the asks. -/
def bidBranch (order : Order) : Branch where
  blocked bestAsk := order.orderType = .LIMIT ∧ order.price < bestAsk
  trade bestAsk matchedOrder filledQuantity now :=
    { price := bestAsk
      buyerOrderId := order.id
      sellerOrderId := matchedOrder.id
      quantity := filledQuantity
      timestamp := now }

/-- The walk of an incoming ask over the bids. -/
def askBranch (order : Order) : Branch where
  blocked bestBid := order.orderType = .LIMIT ∧ order.price > bestBid
  trade bestBid matchedOrder filledQuantity now :=
    { price := bestBid
      buyerOrderId := matchedOrder.id
      sellerOrderId := order.id
      quantity := filledQuantity
      timestamp := now }

/-- The variables the loops write, apart from the levels.  `subtractions` is a
ghost: the operands of every 32-bit subtraction made so far. -/
structure Progress where
  orderMap : OrderId → Option OrderLocation
  trades : List Trade
  remaining : Quantity
  subtractions : List (Quantity × Quantity)

/-- Record a trade of `filled` and take it off the remaining quantity. -/
def Progress.record (s : Progress) (trade : Trade) (filled : Quantity) : Progress :=
  { s with
    trades := s.trades ++ [trade]
    remaining := s.remaining - filled
    subtractions := s.subtractions ++ [(s.remaining, filled)] }

theorem toNat_sub_stdMin (q remaining : Quantity) :
    (remaining - stdMin q remaining).toNat = remaining.toNat - min q.toNat remaining.toNat := by
  rw [UInt32.toNat_sub_of_le, toNat_stdMin]
  rw [UInt32.le_iff_toNat_le, toNat_stdMin]
  omega

/-- The inner loop: `while (remaining_quantity > 0 && !orders.empty())`. -/
def fillLevel (now : Clock) (branch : Branch) (best : Price) (orders : List Node) (s : Progress) :
    Except (Thrown (List Node × Progress)) (List Node × Progress) :=
  match orders with
  | [] => .ok ([], s)
  | matched :: rest =>
      if 0 < s.remaining then
        let filled := stdMin matched.order.quantity s.remaining
        let s' := s.record (branch.trade best matched.order filled (now s.trades.length)) filled
        if matched.order.quantity = filled then
          -- fully filled: drop the index entry of its id and the front of the queue
          fillLevel now branch best rest
            { s' with orderMap := Function.update s'.orderMap matched.order.id none }
        else
          match matched.order.reduceQuantity filled with
          | .error e => .error ⟨e, (matched :: rest, s')⟩
          | .ok order =>
              fillLevel now branch best ({ matched with order } :: rest)
                { s' with
                  subtractions := s'.subtractions ++ [(matched.order.quantity, filled)] }
      else .ok (matched :: rest, s)
termination_by orders.length + s.remaining.toNat
decreasing_by
  · simp only [List.length_cons, Progress.record, toNat_sub_stdMin]
    omega
  · next hpos hne =>
    have hpos' : 0 < s.remaining.toNat := UInt32.lt_iff_toNat_lt.mp hpos
    have hne' : matched.order.quantity.toNat
        ≠ min matched.order.quantity.toNat s.remaining.toNat := by
      intro h
      exact hne (UInt32.toNat_inj.mp (by rw [h, toNat_stdMin]))
    simp only [List.length_cons, Progress.record, toNat_sub_stdMin]
    omega

/-- The inner loop ends with the level empty or the incoming order filled, and
never raises the remaining quantity. -/
theorem fillLevel_progress (now : Clock) (branch : Branch) (best : Price) (orders : List Node)
    (s : Progress) {orders' : List Node} {s' : Progress}
    (h : fillLevel now branch best orders s = .ok (orders', s')) :
    s'.remaining.toNat ≤ s.remaining.toNat ∧ (orders' = [] ∨ s'.remaining = 0) := by
  fun_induction fillLevel now branch best orders s with
  | case1 s =>
    obtain ⟨rfl, rfl⟩ := Prod.mk.inj (Except.ok.inj h)
    exact ⟨Nat.le_refl _, Or.inl rfl⟩
  | case2 s matched rest hpos filled t hfull ih =>
    obtain ⟨hle, hend⟩ := ih h
    refine ⟨Nat.le_trans hle ?_, hend⟩
    simp only [t, filled, Progress.record, toNat_sub_stdMin]
    omega
  | case3 s matched rest hpos filled t hpart e he => exact absurd h (by simp)
  | case4 s matched rest hpos filled t hpart order he ih =>
    obtain ⟨hle, hend⟩ := ih h
    refine ⟨Nat.le_trans hle ?_, hend⟩
    simp only [t, filled, Progress.record, toNat_sub_stdMin]
    omega
  | case5 s matched rest hpos =>
    obtain ⟨rfl, rfl⟩ := Prod.mk.inj (Except.ok.inj h)
    exact ⟨Nat.le_refl _, Or.inr (UInt32.le_zero_iff.mp (UInt32.not_lt.mp hpos))⟩

/-- The outer loop: `while (remaining_quantity > 0 && !levels.empty())`. -/
def matchLevels {lt : Price → Price → Prop} [DecidableRel lt] [IsStrictTotalOrder Price lt]
    (now : Clock) (branch : Branch) (levels : Levels lt) (s : Progress) :
    Except (Thrown (Levels lt × Progress)) (Levels lt × Progress) :=
  if 0 < s.remaining then
    match _hbegin : levels.begin? with
    | none => .ok (levels, s)
    | some (best, _) =>
        if branch.blocked best then .ok (levels, s)
        else
          match _hfill : fillLevel now branch best (levels.getD best []) s with
          | .error t =>
              .error ⟨t.exn, (levels.modify best [] fun _ => t.state.1, t.state.2)⟩
          | .ok (orders, s') =>
              matchLevels now branch (OrderBook.putBack levels best orders) s'
  else .ok (levels, s)
termination_by levels.size + s.remaining.toNat
decreasing_by
  next hpos _ _ =>
    obtain ⟨l, hl, -⟩ := SortedMap.exists_toList_of_begin _hbegin
    have hpos' : 0 < s.remaining.toNat := UInt32.lt_iff_toNat_lt.mp hpos
    obtain ⟨hle, hend⟩ := fillLevel_progress _ _ _ _ _ _hfill
    have hput := OrderBook.toList_putBack_begin hl orders
    rw [SortedMap.size, SortedMap.size, hput, hl]
    cases orders with
    | nil =>
      simp only [List.isEmpty_nil, if_true, List.length_cons]
      omega
    | cons n orders =>
      have hzero : s'.remaining.toNat = 0 := by
        rcases hend with h | h
        · exact absurd h (by simp)
        · rw [h]; rfl
      simp only [List.isEmpty_cons, Bool.false_eq_true, if_false, List.length_cons, hzero]
      omega

/-- What a call of `match` returns: the book, the trades, and the final values of
the local `remaining_quantity` and of the ghost `subtractions`. -/
structure Matched where
  book : OrderBook
  trades : List Trade
  remaining : Quantity
  subtractions : List (Quantity × Quantity)

/-- The end of both branches: the unfilled remainder of a limit order is rebuilt
as a new order and added to the book. -/
def restRemainder (now : Clock) (order : Order) (book : OrderBook) (s : Progress) :
    Except (Thrown (OrderBook × List Trade)) Matched :=
  if 0 < s.remaining ∧ order.orderType = .LIMIT then
    match Order.create (now s.trades.length) order.id order.price s.remaining order.side
        order.orderType with
    | .error e => .error ⟨e, (book, s.trades)⟩
    | .ok remainingOrder =>
        .ok ⟨book.addOrder remainingOrder, s.trades, s.remaining, s.subtractions⟩
  else .ok ⟨book, s.trades, s.remaining, s.subtractions⟩

/-- `MatchingEngine::match`. -/
def matchOrder (now : Clock) (book : OrderBook) (order : Order) (trades : List Trade) :
    Except (Thrown (OrderBook × List Trade)) Matched :=
  let s : Progress := ⟨book.orderMap, trades, order.quantity, []⟩
  if order.side = .BID then
    match matchLevels now (bidBranch order) book.asks s with
    | .error t =>
        .error ⟨t.exn, ({ book with asks := t.state.1, orderMap := t.state.2.orderMap },
          t.state.2.trades)⟩
    | .ok (asks, s) => restRemainder now order { book with asks, orderMap := s.orderMap } s
  else if order.side = .ASK then
    match matchLevels now (askBranch order) book.bids s with
    | .error t =>
        .error ⟨t.exn, ({ book with bids := t.state.1, orderMap := t.state.2.orderMap },
          t.state.2.trades)⟩
    | .ok (bids, s) => restRemainder now order { book with bids, orderMap := s.orderMap } s
  -- no branch of the source is taken for another side byte
  else .ok ⟨book, trades, order.quantity, []⟩

end MatchingEngine

end Exchange
