import Exchange.Book.Invariant

/-!
# The levels of the book

The other modules look at a side of the book as one queue, `restingOn`.  Where a result is
about the maps themselves, this module leads back to them: a book without empty levels is
determined by its queues, its index and its node counter.

Orders are made by the constructor, so that an order in the book has more than the
invariant of the book says of it; `Valid` puts the two together.

## Main definitions

* `OrderBook.levelsOn` — the levels of a side, in order.
* `OrderBook.Valid` — the invariant of the book and of the orders in it.

## Main results

* `OrderBook.ext_resting` — the queues, the index and the counter determine the book.
* `OrderBook.Valid.run` — every book that is reached is valid.
-/

namespace Exchange

open MatchingEngine

namespace OrderBook

/-! ### From the queues back to the levels -/

/-- The levels of a side, in order. -/
def levelsOn (book : OrderBook) (side : Side) : List (Price × List Node) :=
  if side = .BID then book.bids.toList else if side = .ASK then book.asks.toList else []

theorem levelsOn_of_not_isProper (book : OrderBook) {side : Side} (h : ¬ side.IsProper) :
    book.levelsOn side = [] := by
  unfold Side.IsProper at h
  rw [levelsOn, if_neg fun hb => h (Or.inl hb), if_neg fun ha => h (Or.inr ha)]

variable {book book' : OrderBook}

/-- **A book without empty levels is determined by its queues**, its index and its
counter. -/
theorem ext_resting (h : book.NoEmptyLevels) (h' : book'.NoEmptyLevels)
    (hqueue : ∀ side, book.restingOn side = book'.restingOn side)
    (hmap : book.orderMap = book'.orderMap) (hpos : book.nextPos = book'.nextPos) :
    book = book' := by
  have hbids : book.bids = book'.bids := h.1.ext h'.1 (hqueue .BID)
  have hasks : book.asks = book'.asks := h.2.ext h'.2 (hqueue .ASK)
  cases book with
  | mk bids asks orderMap nextPos =>
    cases book' with
    | mk bids' asks' orderMap' nextPos' =>
      simp only at hbids hasks hmap hpos
      rw [hbids, hasks, hmap, hpos]

/-- The levels of a side without empty levels are determined by its queue. -/
theorem levelsOn_eq (h : book.NoEmptyLevels) (h' : book'.NoEmptyLevels) {side : Side}
    (hqueue : book.restingOn side = book'.restingOn side) :
    book.levelsOn side = book'.levelsOn side := by
  by_cases hs : side.IsProper
  · rcases hs with rfl | rfl
    · exact congrArg SortedMap.toList (h.1.ext h'.1 hqueue)
    · exact congrArg SortedMap.toList (h.2.ext h'.2 hqueue)
  · rw [levelsOn_of_not_isProper book hs, levelsOn_of_not_isProper book' hs]

/-- An inserted order stands behind all orders of its price or better. -/
theorem Inserts.queue_eq {order : Order} (h : book.Inserts order book') :
    book'.restingOn order.side
      = ((book.restingOn order.side).filter fun a => ¬ order.side.Ahead order.price a.1)
        ++ (order.price, ⟨book.nextPos, order⟩)
          :: (book.restingOn order.side).filter fun a => order.side.Ahead order.price a.1 := by
  obtain ⟨A, B, hA, hB, hfront, hback⟩ := h.queue
  have hfrontA : (A.filter fun a => ¬ order.side.Ahead order.price a.1) = A :=
    List.filter_eq_self.mpr fun a ha => decide_eq_true (hfront a ha)
  have hbackA : (A.filter fun a => order.side.Ahead order.price a.1) = [] :=
    List.filter_eq_nil_iff.mpr fun a ha hahead => hfront a ha (of_decide_eq_true hahead)
  have hfrontB : (B.filter fun a => ¬ order.side.Ahead order.price a.1) = [] :=
    List.filter_eq_nil_iff.mpr fun b hb hnot => of_decide_eq_true hnot (hback b hb)
  have hbackB : (B.filter fun a => order.side.Ahead order.price a.1) = B :=
    List.filter_eq_self.mpr fun b hb => decide_eq_true (hback b hb)
  rw [hB, hA, List.filter_append, List.filter_append, hfrontA, hfrontB, hbackA, hbackB,
    List.append_nil, List.nil_append]

/-! ### Valid books -/

/-- The book is in order, and so are the orders in it: each is one that the constructor
accepts. -/
structure Valid (book : OrderBook) : Prop where
  inv : book.Inv
  constructed : ∀ a ∈ book.resting, a.2.order.Constructed

/-- The prices of a valid book are positive. -/
theorem Valid.price_pos (h : book.Valid) {side : Side} {a : Price × Node}
    (ha : a ∈ book.restingOn side) : 0 < a.1 := by
  obtain ⟨hl, -, hprice, -⟩ := h.inv.orders side a ha
  rw [← hprice]
  exact (Order.constructed_iff.mp (h.constructed a (mem_resting_iff.mpr ⟨side, ha⟩))).1 hl

theorem valid_empty : OrderBook.empty.Valid :=
  ⟨inv_empty, fun _ ha => absurd ha List.not_mem_nil⟩

theorem Valid.takes (h : book.Valid) {order : Order} {mid : OrderBook}
    (ht : Takes book order mid) : mid.Valid := by
  refine ⟨h.inv.takes ht, fun b hb => ?_⟩
  obtain ⟨side, hb⟩ := mem_resting_iff.mp hb
  obtain ⟨a, ha, hab, hpos, -⟩ := ht.exists_of_mem hb
  obtain ⟨-, -, -, hprice, -, htype, -⟩ := fixedPart_inj hab
  obtain ⟨hl, hm, hq⟩ :=
    Order.constructed_iff.mp (h.constructed a (mem_resting_iff.mpr ⟨side, ha⟩))
  rw [hprice, htype] at hl hm
  exact Order.constructed_iff.mpr
    ⟨hl, hm, UInt32.lt_iff_toNat_lt.mpr (hpos (UInt32.lt_iff_toNat_lt.mp hq))⟩

theorem Valid.inserts (h : book.Valid) {order : Order} (hi : book.Inserts order book')
    (hc : order.Constructed) (hl : order.orderType = .LIMIT) (hs : order.side.IsProper) :
    book'.Valid := by
  refine ⟨h.inv.inserts hi hl hs (Order.constructed_iff.mp hc).2.2, fun b hb => ?_⟩
  rcases List.mem_cons.mp ((hi.resting_perm hs).mem_iff.mp hb) with rfl | hb
  · exact hc
  · exact h.constructed b hb

/-- The remainder of an order that the constructor accepts is accepted. -/
theorem constructed_remainder {order : Order} (hc : order.Constructed) (book : OrderBook)
    (ts : Timestamp) (hpos : 0 < (sweepOf book order).unmet) :
    (remainder order ts (sweepOf book order).unmet).Constructed := by
  obtain ⟨hl, hm, -⟩ := Order.constructed_iff.mp hc
  refine Order.constructed_iff.mpr ⟨hl, hm, UInt32.lt_iff_toNat_lt.mpr ?_⟩
  rw [toNat_remainder]
  exact hpos

/-- One call keeps the book valid. -/
theorem Valid.step (h : book.Valid) {c : Call} (hc : c.Accepted) : (book.step c).Valid := by
  cases c with
  | matchOrder now order =>
    obtain ⟨mid, ht, ⟨heq, -⟩ | ⟨ts, hpos, hl, hs, hi⟩⟩ := step_matchOrder hc now book
    · rw [heq]; exact h.takes ht
    · exact (h.takes ht).inserts hi (constructed_remainder hc book ts hpos) hl hs
  | addOrder order =>
    show (book.addOrder order).Valid
    rcases addOrder_cases book order with heq | ⟨hl, hs, hi⟩
    · rw [heq]; exact h
    · exact h.inserts hi hc hl hs
  | cancelOrder id =>
    rcases h.inv.step_cancelOrder id with heq | ⟨loc, n, -, hid, hr⟩
    · rw [heq]; exact h
    · refine ⟨h.inv.removes hr hid, fun b hb => h.constructed b ?_⟩
      exact hr.resting_perm.mem_iff.mpr (List.mem_cons_of_mem _ hb)

/-- **Every book that a run of calls reaches is valid.** -/
theorem Valid.run {calls : List Call} (h : ∀ c ∈ calls, c.Accepted) : (empty.run calls).Valid :=
  run_induction (fun _ _ h hc => h.step hc) calls empty valid_empty h

end OrderBook

end Exchange
