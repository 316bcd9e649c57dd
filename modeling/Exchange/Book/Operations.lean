import Exchange.Book.Walk

/-!
# The operations on the book, as seen on the resting orders

Every operation of the book is described once, by what it does to the queue of
each side (`restingOn`), to the index and to the node counter.  Later proofs use
these descriptions and never look at the maps of levels again.

## Main definitions

* `Side.opposite`, `Side.Ahead` — the other side, and the price order of a side.
* `NoEmptyLevels` — no level of the book is empty.
* `Inserts`, `Removes`, `Takes` — an order joins its queue, an order leaves its
  queue, an incoming order is served from the opposite queue.

## Main results

* `addOrder_inserts` — `add_order` of a limit order inserts it.
* `cancelOrder_removes` — `cancel_order` of a located order removes it.
* `matchOrder_eq` — `match` of an order the constructor accepts returns: it takes
  from the opposite side and then inserts the remainder of a limit order.
-/

namespace Exchange

namespace Side

/-- The other side; a byte that is no side has none. -/
def opposite (side : Side) : Side :=
  if side = .BID then .ASK else if side = .ASK then .BID else side

/-- `p` comes strictly before `q` on a side: it is the better price. -/
def Ahead (side : Side) (p q : Price) : Prop := if side = .BID then q < p else p < q

instance (side : Side) : DecidableRel side.Ahead :=
  fun p q => inferInstanceAs (Decidable (if side = .BID then q < p else p < q))

instance (side : Side) : IsStrictTotalOrder Price side.Ahead := by
  by_cases h : side = .BID
  · have heq : side.Ahead = fun p q => p > q := by
      funext p q
      rw [Side.Ahead, if_pos h]
    rw [heq]
    exact instIsStrictTotalOrderGt
  · have heq : side.Ahead = fun p q => p < q := by
      funext p q
      rw [Side.Ahead, if_neg h]
    rw [heq]
    exact instIsStrictTotalOrderLt

/-- One of the two sides. -/
def IsProper (side : Side) : Prop := side = .BID ∨ side = .ASK

@[simp] theorem opposite_BID : Side.BID.opposite = .ASK := rfl

@[simp] theorem opposite_ASK : Side.ASK.opposite = .BID := rfl

theorem opposite_of_not_isProper {side : Side} (h : ¬ side.IsProper) : side.opposite = side := by
  unfold IsProper at h
  rw [opposite, if_neg fun hb => h (Or.inl hb), if_neg fun ha => h (Or.inr ha)]

@[simp] theorem opposite_opposite (side : Side) : side.opposite.opposite = side := by
  by_cases hs : side.IsProper
  · rcases hs with rfl | rfl <;> rfl
  · rw [opposite_of_not_isProper hs, opposite_of_not_isProper hs]

theorem IsProper.opposite {side : Side} (h : side.IsProper) : side.opposite.IsProper := by
  rcases h with rfl | rfl
  · exact Or.inr rfl
  · exact Or.inl rfl

@[simp] theorem ahead_BID {p q : Price} : Side.BID.Ahead p q ↔ q < p := by
  rw [Ahead, if_pos rfl]

@[simp] theorem ahead_ASK {p q : Price} : Side.ASK.Ahead p q ↔ p < q := by
  rw [Ahead, if_neg Side.ASK_ne_BID]

end Side

namespace OrderBook

/-- No level of the book is empty. -/
def NoEmptyLevels (book : OrderBook) : Prop := book.bids.NoEmpty ∧ book.asks.NoEmpty

theorem restingOn_of_not_isProper (book : OrderBook) {side : Side} (h : ¬ side.IsProper) :
    book.restingOn side = [] := by
  unfold Side.IsProper at h
  rw [restingOn, if_neg fun hb => h (Or.inl hb), if_neg fun ha => h (Or.inr ha)]

/-- Only the asks rest on the ask side. -/
theorem restingOn_congr_bids {book book' : OrderBook} (h : book'.bids = book.bids) {side : Side}
    (hs : side ≠ .ASK) : book'.restingOn side = book.restingOn side := by
  simp only [restingOn, if_neg hs, h]

/-- Only the bids rest on the bid side. -/
theorem restingOn_congr_asks {book book' : OrderBook} (h : book'.asks = book.asks) {side : Side}
    (hs : side ≠ .BID) : book'.restingOn side = book.restingOn side := by
  simp only [restingOn, if_neg hs, h]

/-- The queue of a side never goes from a worse price back to a better one. -/
theorem restingOn_sorted (book : OrderBook) (side : Side) :
    (book.restingOn side).Pairwise fun a b => ¬ side.Ahead b.1 a.1 := by
  by_cases hb : side = .BID
  · subst hb
    refine List.Pairwise.imp ?_ book.bids.flatten_sorted
    intro a b h hlt
    exact h (Side.ahead_BID.mp hlt)
  · by_cases ha : side = .ASK
    · subst ha
      refine List.Pairwise.imp ?_ book.asks.flatten_sorted
      intro a b h hlt
      exact h (Side.ahead_ASK.mp hlt)
    · rw [restingOn_of_not_isProper book fun h => h.elim hb ha]
      exact List.Pairwise.nil

/-! ### Adding an order -/

/-- `book'` is `book` with a node for `order` inserted behind every order at its
price or better, and the index entry of its id pointing to that node. -/
structure Inserts (book : OrderBook) (order : Order) (book' : OrderBook) : Prop where
  queue : ∃ A B, book.restingOn order.side = A ++ B ∧
    book'.restingOn order.side = A ++ (order.price, ⟨book.nextPos, order⟩) :: B ∧
    (∀ a ∈ A, ¬ order.side.Ahead order.price a.1) ∧ ∀ b ∈ B, order.side.Ahead order.price b.1
  other : ∀ side, side ≠ order.side → book'.restingOn side = book.restingOn side
  orderMap : book'.orderMap = Function.update book.orderMap order.id
    (some ⟨order.side, order.price, book.nextPos⟩)
  nextPos : book'.nextPos = book.nextPos + 1
  noEmpty : book.NoEmptyLevels → book'.NoEmptyLevels

section Levels

variable {lt : Price → Price → Prop} [DecidableRel lt] [IsStrictTotalOrder Price lt]

/-- Appending a node to a level inserts it in the flattened side. -/
theorem flatten_push (levels : Levels lt) (price : Price) (n : Node) :
    ∃ A B, levels.flatten = A ++ B ∧
      (levels.modify price [] fun list => list ++ [n]).flatten = A ++ (price, n) :: B ∧
      (∀ a ∈ A, ¬ lt price a.1) ∧ ∀ b ∈ B, lt price b.1 := by
  obtain ⟨A, B, hA, hB, hflat, hmod, -⟩ := levels.flatten_split price
  refine ⟨A ++ (levels.getD price []).map fun n => (price, n), B, hflat, ?_, ?_, hB⟩
  · rw [hmod]
    simp
  · intro a ha hlt
    rcases List.mem_append.mp ha with ha | ha
    · exact irrefl_of lt price (trans_of lt hlt (hA a ha))
    · obtain ⟨x, -, rfl⟩ := List.mem_map.mp ha
      exact irrefl_of lt price hlt

end Levels

/-- **`add_order` of a limit order inserts it.** -/
theorem addOrder_inserts (book : OrderBook) {order : Order} (hl : order.orderType = .LIMIT)
    (hs : order.side.IsProper) : book.Inserts order (book.addOrder order) := by
  rcases hs with hs | hs
  · have heq : book.addOrder order =
        { book with
          bids := book.bids.modify order.price [] fun list => list ++ [⟨book.nextPos, order⟩]
          orderMap := Function.update book.orderMap order.id
            (some ⟨.BID, order.price, book.nextPos⟩)
          nextPos := book.nextPos + 1 } := by
      rw [addOrder, if_pos hl, if_neg (by rw [hs]; exact Side.BID_ne_ASK), if_pos hs]
    rw [heq]
    -- the queue of the level is extended at its back, behind all orders of the price
    refine ⟨?_, ?_, by rw [hs], rfl, fun h => ⟨h.1.modify _ (by simp), h.2⟩⟩
    · obtain ⟨A, B, h1, h2, h3, h4⟩ := flatten_push book.bids order.price ⟨book.nextPos, order⟩
      rw [hs]
      exact ⟨A, B, h1, h2, fun a ha h => h3 a ha (Side.ahead_BID.mp h),
        fun b hb => Side.ahead_BID.mpr (h4 b hb)⟩
    · intro side hne
      exact restingOn_congr_asks (by rfl) (hs ▸ hne)
  · have heq : book.addOrder order =
        { book with
          asks := book.asks.modify order.price [] fun list => list ++ [⟨book.nextPos, order⟩]
          orderMap := Function.update book.orderMap order.id
            (some ⟨.ASK, order.price, book.nextPos⟩)
          nextPos := book.nextPos + 1 } := by
      rw [addOrder, if_pos hl, if_pos hs]
    rw [heq]
    refine ⟨?_, ?_, by rw [hs], rfl, fun h => ⟨h.1, h.2.modify _ (by simp)⟩⟩
    · obtain ⟨A, B, h1, h2, h3, h4⟩ := flatten_push book.asks order.price ⟨book.nextPos, order⟩
      rw [hs]
      exact ⟨A, B, h1, h2, fun a ha h => h3 a ha (Side.ahead_ASK.mp h),
        fun b hb => Side.ahead_ASK.mpr (h4 b hb)⟩
    · intro side hne
      exact restingOn_congr_bids (by rfl) (hs ▸ hne)

/-- `add_order` ignores an order that is not a limit order of one of the sides. -/
theorem addOrder_ignored (book : OrderBook) {order : Order}
    (h : ¬ (order.orderType = .LIMIT ∧ order.side.IsProper)) : book.addOrder order = book := by
  rw [addOrder]
  split
  · next hl =>
    have hs : ¬ order.side.IsProper := fun hs => h ⟨hl, hs⟩
    rw [if_neg fun ha => hs (Or.inr ha), if_neg fun hb => hs (Or.inl hb)]
  · rfl

/-! ### Cancelling an order -/

/-- `book'` is `book` without the node `n` of the level at `price` and without the
index entry of `id`. -/
structure Removes (book : OrderBook) (id : OrderId) (side : Side) (price : Price) (n : Node)
    (book' : OrderBook) : Prop where
  queue : ∃ A B, book.restingOn side = A ++ (price, n) :: B ∧ book'.restingOn side = A ++ B
  other : ∀ side', side' ≠ side → book'.restingOn side' = book.restingOn side'
  orderMap : book'.orderMap = Function.update book.orderMap id none
  nextPos : book'.nextPos = book.nextPos
  noEmpty : book.NoEmptyLevels → book'.NoEmptyLevels

/-- Erasing a live position cuts its node out of the list. -/
theorem eraseAt_eq_some {pos : ℕ} : ∀ {list list' : List Node}, eraseAt pos list = some list' →
    ∃ A n B, n.pos = pos ∧ list = A ++ n :: B ∧ list' = A ++ B := by
  intro list
  induction list with
  | nil => intro list' h; exact absurd h (by simp [eraseAt])
  | cons n list ih =>
    intro list' h
    rw [eraseAt] at h
    split at h
    · next hn =>
      obtain rfl := Option.some.inj h
      exact ⟨[], n, list, hn, rfl, rfl⟩
    · obtain ⟨l, hl, rfl⟩ := Option.map_eq_some_iff.mp h
      obtain ⟨A, n', B, hn', rfl, rfl⟩ := ih hl
      exact ⟨n :: A, n', B, hn', rfl, rfl⟩

/-- A position is live exactly when a node of the list has it. -/
theorem eraseAt_eq_none_iff {pos : ℕ} {list : List Node} :
    eraseAt pos list = none ↔ ∀ n ∈ list, n.pos ≠ pos := by
  induction list with
  | nil => simp [eraseAt]
  | cons n list ih =>
    rw [eraseAt]
    split
    · next hn => simp [hn]
    · next hn => simp [ih, hn]

section Levels

variable {lt : Price → Price → Prop} [DecidableRel lt] [IsStrictTotalOrder Price lt]

/-- Putting a changed queue back replaces its part of the flattened side. -/
theorem flatten_putBack (levels : Levels lt) (price : Price) :
    ∃ A B, levels.flatten = A ++ ((levels.getD price []).map fun n => (price, n)) ++ B ∧
      ∀ list, (putBack levels price list).flatten = A ++ (list.map fun n => (price, n)) ++ B := by
  obtain ⟨A, B, -, -, hflat, hmod, herase⟩ := levels.flatten_split price
  refine ⟨A, B, hflat, fun list => ?_⟩
  cases list with
  | nil =>
    rw [putBack, List.isEmpty_nil, if_pos rfl, SortedMap.erase_modify, herase]
    simp
  | cons n list => exact hmod fun _ => n :: list

theorem noEmpty_putBack {levels : Levels lt} (h : levels.NoEmpty) (price : Price)
    (list : List Node) : (putBack levels price list).NoEmpty := by
  cases list with
  | nil =>
    rw [putBack, List.isEmpty_nil, if_pos rfl, SortedMap.erase_modify]
    exact SortedMap.NoEmpty.erase fun e he _ => h e he
  | cons n list => exact h.modify price (List.cons_ne_nil n list)

/-- **Erasing a position from a level**, when it succeeds. -/
theorem eraseFrom_eq_some {levels levels' : Levels lt} {price : Price} {pos : ℕ}
    (h : eraseFrom levels price pos = some levels') :
    ∃ A n B, n.pos = pos ∧ levels.flatten = A ++ (price, n) :: B ∧ levels'.flatten = A ++ B ∧
      (levels.NoEmpty → levels'.NoEmpty) := by
  obtain ⟨list, hlist, rfl⟩ := Option.map_eq_some_iff.mp h
  obtain ⟨A', n, B', hn, hget, rfl⟩ := eraseAt_eq_some hlist
  obtain ⟨A, B, hflat, hput⟩ := flatten_putBack levels price
  refine ⟨A ++ A'.map fun n => (price, n), n, (B'.map fun n => (price, n)) ++ B, hn, ?_, ?_,
    fun hne => noEmpty_putBack hne price _⟩
  · rw [hflat, hget]
    simp
  · rw [hput]
    simp

/-- Erasing a position succeeds exactly when the level has a node of it. -/
theorem eraseFrom_eq_none_iff {levels : Levels lt} {price : Price} {pos : ℕ} :
    eraseFrom levels price pos = none ↔ ∀ n, (price, n) ∈ levels.flatten → n.pos ≠ pos := by
  rw [eraseFrom, Option.map_eq_none_iff, eraseAt_eq_none_iff]
  constructor
  · intro h n hn
    apply h n
    have hmem : (price, n) ∈ levels.flatten.filter fun a => a.1 = price :=
      List.mem_filter.mpr ⟨hn, by simp⟩
    rw [SortedMap.filter_flatten, List.mem_map] at hmem
    obtain ⟨x, hx, heq⟩ := hmem
    rw [← (Prod.mk.inj heq).2]
    exact hx
  · intro h n hn
    apply h n
    have hmem : (price, n) ∈ levels.flatten.filter fun a => a.1 = price := by
      rw [SortedMap.filter_flatten]
      exact List.mem_map.mpr ⟨n, hn, rfl⟩
    exact (List.mem_filter.mp hmem).1

end Levels

/-- **`cancel_order` of an id with an index entry**: the entry's position is dead,
and the behaviour undefined, or its node is removed. -/
theorem cancelOrder_cases {book : OrderBook} {id : OrderId} {loc : OrderLocation}
    (h : book.orderMap id = some loc) (hs : loc.side.IsProper) :
    ((∀ n, (loc.price, n) ∈ book.restingOn loc.side → n.pos ≠ loc.listPosition) ∧
        book.cancelOrder id = .error .undefinedBehaviour) ∨
      ∃ n book', n.pos = loc.listPosition ∧ book.cancelOrder id = .ok book' ∧
        book.Removes id loc.side loc.price n book' := by
  rcases hs with hs | hs
  · cases herase : eraseFrom book.bids loc.price loc.listPosition with
    | none =>
      have heq : book.cancelOrder id = .error .undefinedBehaviour := by
        simp only [cancelOrder, h, hs, Side.BID_ne_ASK, if_false, if_true, herase]
      rw [heq, hs]
      exact Or.inl ⟨eraseFrom_eq_none_iff.mp herase, rfl⟩
    | some bids =>
      have heq : book.cancelOrder id
          = .ok { book with bids, orderMap := Function.update book.orderMap id none } := by
        simp only [cancelOrder, h, hs, Side.BID_ne_ASK, if_false, if_true, herase]
      rw [heq, hs]
      obtain ⟨A, n, B, hn, hflat, hflat', hne⟩ := eraseFrom_eq_some herase
      exact Or.inr ⟨n, _, hn, rfl, ⟨A, B, hflat, hflat'⟩,
        fun side' hside => restingOn_congr_asks (by rfl) hside, rfl, rfl, fun h => ⟨hne h.1, h.2⟩⟩
  · cases herase : eraseFrom book.asks loc.price loc.listPosition with
    | none =>
      have heq : book.cancelOrder id = .error .undefinedBehaviour := by
        simp only [cancelOrder, h, hs, if_true, herase]
      rw [heq, hs]
      exact Or.inl ⟨eraseFrom_eq_none_iff.mp herase, rfl⟩
    | some asks =>
      have heq : book.cancelOrder id
          = .ok { book with asks, orderMap := Function.update book.orderMap id none } := by
        simp only [cancelOrder, h, hs, if_true, herase]
      rw [heq, hs]
      obtain ⟨A, n, B, hn, hflat, hflat', hne⟩ := eraseFrom_eq_some herase
      exact Or.inr ⟨n, _, hn, rfl, ⟨A, B, hflat, hflat'⟩,
        fun side' hside => restingOn_congr_bids (by rfl) hside, rfl, rfl, fun h => ⟨h.1, hne h.2⟩⟩

theorem cancelOrder_of_none {book : OrderBook} {id : OrderId} (h : book.orderMap id = none) :
    book.cancelOrder id = .error (.exception .idNotFound) := by
  rw [cancelOrder, h]

/-- The one exception of `cancel_order`. -/
theorem exn_of_cancelOrder {book : OrderBook} {id : OrderId} {e : Exn}
    (h : book.cancelOrder id = .error (.exception e)) : e = .idNotFound := by
  unfold cancelOrder at h
  split at h
  · split at h
    · split at h
      · exact absurd (Except.error.inj h) (by simp)
      · exact absurd h (by simp)
    · split at h
      · split at h
        · exact absurd (Except.error.inj h) (by simp)
        · exact absurd h (by simp)
      · exact absurd h (by simp)
  · exact (Fault.exception.inj (Except.error.inj h)).symm

end OrderBook

/-! ### Matching an order -/

namespace MatchingEngine

/-- The copy of the walk that an order takes. -/
def branchOf (order : Order) : Branch :=
  if order.side = .BID then bidBranch order else askBranch order

/-- What an order sweeps from the opposite side of a book. -/
def sweepOf (book : OrderBook) (order : Order) : Swept (Price × Node) :=
  walk (branchOf order) (book.restingOn order.side.opposite) order.quantity.toNat

/-- The walk is blocked at the prices that a limit order does not reach. -/
theorem blocked_branchOf {order : Order} (hs : order.side.IsProper) (p : Price) :
    (branchOf order).blocked p = true ↔
      order.orderType = .LIMIT ∧ order.side.opposite.Ahead order.price p := by
  rcases hs with hs | hs
  · rw [branchOf, if_pos hs, hs]
    simp [bidBranch]
  · rw [branchOf, if_neg (by rw [hs]; exact Side.ASK_ne_BID), hs]
    simp [askBranch]

/-- A bid that does not reach an ask does not reach the asks behind it. -/
theorem blocked_bidBranch_mono (order : Order) (p q : Price) (hpq : p < q)
    (h : (bidBranch order).blocked p = true) : (bidBranch order).blocked q = true := by
  simp only [bidBranch, decide_eq_true_eq] at h ⊢
  exact ⟨h.1, UInt64.lt_trans h.2 hpq⟩

/-- An ask that does not reach a bid does not reach the bids behind it. -/
theorem blocked_askBranch_mono (order : Order) (p q : Price) (hpq : p > q)
    (h : (askBranch order).blocked p = true) : (askBranch order).blocked q = true := by
  simp only [askBranch, decide_eq_true_eq] at h ⊢
  exact ⟨h.1, UInt64.lt_trans hpq h.2⟩

/-- `mid` is `book` after `order` has been served from the opposite side and before
any remainder of it rests. -/
structure Takes (book : OrderBook) (order : Order) (mid : OrderBook) : Prop where
  queue : mid.restingOn order.side.opposite = (sweepOf book order).left
  other : ∀ side, side ≠ order.side.opposite → mid.restingOn side = book.restingOn side
  orderMap : mid.orderMap
    = eraseAll book.orderMap ((sweepOf book order).gone.map fun a => a.2.order.id)
  nextPos : mid.nextPos = book.nextPos
  noEmpty : book.NoEmptyLevels → mid.NoEmptyLevels

/-- The order that rests when `unmet` of an incoming order is unfilled. -/
def remainder (order : Order) (now : Timestamp) (unmet : ℕ) : Order :=
  { order with timestamp := now, quantity := UInt32.ofNat unmet }

/-- The remainder of a limit order is inserted. -/
theorem addOrder_remainder (book : OrderBook) {order : Order} (hl : order.orderType = .LIMIT)
    (hs : order.side.IsProper) (now : Timestamp) (unmet : ℕ) :
    book.Inserts (remainder order now unmet) (book.addOrder (remainder order now unmet)) :=
  OrderBook.addOrder_inserts book hl hs

/-- The end of `match` for an order the constructor accepts: the remainder is
accepted too. -/
theorem restRemainder_eq {order : Order} (hc : order.Constructed) (now : Clock) (book : OrderBook)
    (s : Progress) :
    restRemainder now order book s = .ok
      ⟨if 0 < s.remaining.toNat ∧ order.orderType = .LIMIT then
          book.addOrder (remainder order (now s.trades.length) s.remaining.toNat) else book,
        s.trades, s.remaining, s.subtractions⟩ := by
  obtain ⟨hl, -, -⟩ := Order.constructed_iff.mp hc
  unfold restRemainder
  have hpos : 0 < s.remaining ↔ 0 < s.remaining.toNat := UInt32.lt_iff_toNat_lt
  by_cases h : 0 < s.remaining ∧ order.orderType = .LIMIT
  -- the constructor is called once more for the remainder, and accepts it
  · have hr : (remainder order (now s.trades.length) s.remaining.toNat).Constructed := by
      rw [Order.constructed_iff]
      refine ⟨fun _ => hl h.2, fun hm => ?_, ?_⟩
      · exact absurd (hm.symm.trans h.2) OrderType.MARKET_ne_LIMIT
      · simpa [remainder] using h.1
    unfold Order.Constructed remainder at hr
    simp only [UInt32.ofNat_toNat] at hr
    rw [if_pos h, if_pos ⟨hpos.mp h.1, h.2⟩, hr, remainder, UInt32.ofNat_toNat]
  · rw [if_neg h, if_neg fun h' => h ⟨hpos.mpr h'.1, h'.2⟩]

/-- The end of `match` after a walk. -/
theorem restRemainder_of_walks {order : Order} (hc : order.Constructed) {now : Clock}
    {branch : Branch} {q left : List (Price × Node)} {s s' : Progress}
    (hw : Walks now branch q s left s') (book : OrderBook) :
    restRemainder now order book s' = .ok
      ⟨if 0 < (walk branch q s.remaining.toNat).unmet ∧ order.orderType = .LIMIT then
          book.addOrder (remainder order
            (now (s.trades.length + (walk branch q s.remaining.toNat).fills.length))
            (walk branch q s.remaining.toNat).unmet)
        else book,
        s.trades ++ tradesFrom now branch s.trades.length (walk branch q s.remaining.toNat).fills,
        UInt32.ofNat (walk branch q s.remaining.toNat).unmet, s'.subtractions⟩ := by
  rw [restRemainder_eq hc, hw.length_trades, hw.remaining, ← hw.trades, ← hw.remaining,
    UInt32.ofNat_toNat]

/-- **`match` of an order that the constructor accepts**, whatever its side and
type bytes.  It does not throw; it serves the order from the opposite side, records
the trades of the fills, and adds what is left of a limit order to the book. -/
theorem matchOrder_eq {order : Order} (hc : order.Constructed) (now : Clock) (book : OrderBook)
    (trades : List Trade) :
    ∃ mid subs, Takes book order mid ∧ (∀ p ∈ subs, p.2 ≤ p.1) ∧
      matchOrder now book order trades = .ok
        ⟨if 0 < (sweepOf book order).unmet ∧ order.orderType = .LIMIT then
            mid.addOrder (remainder order
              (now (trades.length + (sweepOf book order).fills.length))
              (sweepOf book order).unmet)
          else mid,
          trades ++ tradesFrom now (branchOf order) trades.length (sweepOf book order).fills,
          UInt32.ofNat (sweepOf book order).unmet, subs⟩ := by
  by_cases hb : order.side = .BID
  · -- a bid walks over the asks
    obtain ⟨asks, s, heq, hw, hne⟩ := matchLevels_eq now (blocked_bidBranch_mono order) book.asks
      ⟨book.orderMap, trades, order.quantity, []⟩
    have hbr : branchOf order = bidBranch order := if_pos hb
    have hsweep : walk (bidBranch order) book.asks.flatten order.quantity.toNat
        = sweepOf book order := by rw [sweepOf, hbr, hb]; rfl
    obtain ⟨subs, hsubs, hle⟩ := hw.subtractions
    refine ⟨{ book with asks, orderMap := s.orderMap }, s.subtractions, ?_, ?_, ?_⟩
    · refine ⟨?_, fun side hside => ?_, ?_, rfl, fun h => ⟨h.1, hne h.2⟩⟩
      · rw [← hsweep, hb]; exact hw.left
      · rw [hb, Side.opposite_BID] at hside
        exact OrderBook.restingOn_congr_bids (by rfl) hside
      · rw [← hsweep]; exact hw.orderMap
    · rw [hsubs]; exact hle
    · unfold matchOrder
      simp only [if_pos hb, heq]
      rw [restRemainder_of_walks hc hw, hbr, ← hsweep]
  · by_cases ha : order.side = .ASK
    · -- an ask walks over the bids
      obtain ⟨bids, s, heq, hw, hne⟩ := matchLevels_eq now (blocked_askBranch_mono order)
        book.bids ⟨book.orderMap, trades, order.quantity, []⟩
      have hbr : branchOf order = askBranch order := if_neg hb
      have hsweep : walk (askBranch order) book.bids.flatten order.quantity.toNat
          = sweepOf book order := by rw [sweepOf, hbr, ha]; rfl
      obtain ⟨subs, hsubs, hle⟩ := hw.subtractions
      refine ⟨{ book with bids, orderMap := s.orderMap }, s.subtractions, ?_, ?_, ?_⟩
      · refine ⟨?_, fun side hside => ?_, ?_, rfl, fun h => ⟨hne h.1, h.2⟩⟩
        · rw [← hsweep, ha]; exact hw.left
        · rw [ha, Side.opposite_ASK] at hside
          exact OrderBook.restingOn_congr_asks (by rfl) hside
        · rw [← hsweep]; exact hw.orderMap
      · rw [hsubs]; exact hle
      · unfold matchOrder
        simp only [if_neg hb, if_pos ha, heq]
        rw [restRemainder_of_walks hc hw, hbr, ← hsweep]
    · -- a byte that is no side: no branch is taken
      have hs : ¬ order.side.IsProper := fun h => h.elim hb ha
      have hsweep : sweepOf book order = ⟨[], [], [], order.quantity.toNat⟩ := by
        rw [sweepOf, Side.opposite_of_not_isProper hs, book.restingOn_of_not_isProper hs]
        rfl
      refine ⟨book, [], ⟨?_, fun _ _ => rfl, ?_, rfl, id⟩, by simp, ?_⟩
      · rw [hsweep, Side.opposite_of_not_isProper hs, book.restingOn_of_not_isProper hs]
      · rw [hsweep]; rfl
      · unfold matchOrder
        have hadd : ∀ now unmet, book.addOrder (remainder order now unmet) = book :=
          fun _ _ => OrderBook.addOrder_ignored _ fun h => hs h.2
        simp only [if_neg hb, if_neg ha, hsweep, hadd, ite_self, tradesFrom_nil, List.append_nil,
          UInt32.ofNat_toNat]

end MatchingEngine

end Exchange
