import Exchange.Book.Execution

/-!
# Limits

Two orders that differ in their limit meet the same queue.  The one with the more
aggressive limit walks at least as far as the other, and a market order walks as far as a
limit order with the most aggressive price there is.

## Main definitions

* `Side.extremePrice` — the most aggressive price of a side.

## Main results

* `MatchingEngine.fills_prefix_of_limit` — a more aggressive order starts with the fills of
  the other.
* `MatchingEngine.sweepOf_market` — a market order walks like a limit order at the extreme
  price.
* `limit_monotone` — both, for the trades of two calls of `match`.
-/

namespace Exchange

open MatchingEngine

namespace Side

/-- The most aggressive price of a side. -/
def extremePrice (side : Side) : Price := if side = .BID then 18446744073709551615 else 1

theorem extremePrice_pos (side : Side) : 0 < side.extremePrice := by
  unfold extremePrice
  split <;> decide

/-- No positive price is out of the reach of the most aggressive one. -/
theorem not_ahead_extremePrice {side : Side} (hs : side.IsProper) {p : Price} (hp : 0 < p) :
    ¬ side.opposite.Ahead side.extremePrice p := by
  rcases hs with rfl | rfl
  · have hlt := p.toNat_lt
    have hmax : Side.BID.extremePrice.toNat = 2 ^ 64 - 1 := rfl
    rw [opposite_BID, ahead_ASK, UInt64.lt_iff_toNat_lt, hmax]
    omega
  · have hone : Side.ASK.extremePrice.toNat = 1 := rfl
    have hpos : 0 < p.toNat := UInt64.lt_iff_toNat_lt.mp hp
    rw [opposite_ASK, ahead_BID, UInt64.lt_iff_toNat_lt, hone]
    omega

end Side

namespace MatchingEngine

variable {book : OrderBook} {order order' : Order}

/-- The trades of an order depend on its id and its side. -/
theorem trade_branchOf_congr (hid : order'.id = order.id) (hside : order'.side = order.side) :
    (branchOf order').trade = (branchOf order).trade := by
  unfold branchOf
  rw [hside]
  split
  · simp [bidBranch, hid]
  · simp [askBranch, hid]

/-- Two orders of a side that are served alike leave the same book behind. -/
theorem Takes.unique {mid mid' : OrderBook} (h : book.NoEmptyLevels)
    (hsweep : sweepOf book order' = sweepOf book order) (hside : order'.side = order.side)
    (ht : Takes book order mid) (ht' : Takes book order' mid') : mid' = mid := by
  refine OrderBook.ext_resting (ht'.noEmpty h) (ht.noEmpty h) (fun side => ?_) ?_
    (ht'.nextPos.trans ht.nextPos.symm)
  · by_cases hopp : side = order.side.opposite
    · rw [hopp, ht.queue, ← hside, ht'.queue, hsweep]
    · rw [ht.other side hopp, ht'.other side (by rw [hside]; exact hopp)]
  · rw [ht'.orderMap, ht.orderMap, hsweep]

/-- **A more aggressive limit** leads through the fills of the other and maybe further. -/
theorem fills_prefix_of_limit (hs : order.side.IsProper) (hside : order'.side = order.side)
    (hquantity : order'.quantity = order.quantity) (hl : order.orderType = .LIMIT)
    (hprice : ¬ order.side.opposite.Ahead order'.price order.price) :
    (sweepOf book order).fills <+: (sweepOf book order').fills := by
  rw [sweepOf, sweepOf, hside, hquantity]
  refine fills_prefix_of_stop weight reduceBy _ (fun a _ hblocked => ?_) _
  obtain ⟨-, hahead⟩ := (blocked_branchOf (by rw [hside]; exact hs) a.1).mp hblocked
  refine (blocked_branchOf hs a.1).mpr ⟨hl, ?_⟩
  rw [hside] at hahead
  -- the price is out of the reach of the second limit, and so of the first
  rcases trichotomous_of order.side.opposite.Ahead order.price order'.price with hlt | heq | hgt
  · exact trans_of order.side.opposite.Ahead hlt hahead
  · rw [heq]
    exact hahead
  · exact absurd hgt hprice

/-- **A market order** walks like a limit order at the extreme price. -/
theorem sweepOf_market (h : book.Valid) (hs : order.side.IsProper)
    (hside : order'.side = order.side) (hquantity : order'.quantity = order.quantity)
    (hm : order.orderType = .MARKET) (hprice : order'.price = order.side.extremePrice) :
    sweepOf book order' = sweepOf book order := by
  rw [sweepOf, sweepOf, hside, hquantity]
  refine sweep_congr weight reduceBy _ (fun a ha => ?_) _
  -- neither walk is ever blocked
  have hmarket : (branchOf order).blocked a.1 = false := by
    rw [Bool.eq_false_iff, Ne, blocked_branchOf hs]
    rintro ⟨hl, -⟩
    exact OrderType.MARKET_ne_LIMIT (hm.symm.trans hl)
  have hlimit : (branchOf order').blocked a.1 = false := by
    rw [Bool.eq_false_iff, Ne, blocked_branchOf (by rw [hside]; exact hs), hside, hprice]
    exact fun hblocked => Side.not_ahead_extremePrice hs (h.price_pos ha) hblocked.2
  rw [hmarket, hlimit]

/-- The same fills make the same trades, timestamps aside. -/
theorem tradesFrom_congr (hid : order'.id = order.id) (hside : order'.side = order.side)
    (now now' : Clock) (k : ℕ) (fills : List ((Price × Node) × ℕ)) :
    (tradesFrom now' (branchOf order') k fills).map Trade.untimed
      = (tradesFrom now (branchOf order) k fills).map Trade.untimed := by
  rw [map_untimed_tradesFrom, map_untimed_tradesFrom, trade_branchOf_congr hid hside]

theorem tradesFrom_prefix (hid : order'.id = order.id) (hside : order'.side = order.side)
    {fills fills' : List ((Price × Node) × ℕ)} (h : fills <+: fills') (now now' : Clock) (k : ℕ) :
    (tradesFrom now (branchOf order) k fills).map Trade.untimed
      <+: (tradesFrom now' (branchOf order') k fills').map Trade.untimed := by
  rw [tradesFrom_congr hid hside now' now', map_untimed_tradesFrom, map_untimed_tradesFrom]
  exact h.map _

/-- The book after a market order, and after a limit order that is served alike. -/
theorem Serves.book_eq {now now' : Clock} {trades : List Trade} {r r' : Matched}
    (h : book.NoEmptyLevels) (hsweep : sweepOf book order' = sweepOf book order)
    (hside : order'.side = order.side) (hm : order.orderType = .MARKET)
    (hl : order'.orderType = .LIMIT) (hr : Serves now book order trades r)
    (hr' : Serves now' book order' trades r') :
    ∃ ts, r'.book = if r.remaining = 0 then r.book else
      r.book.addOrder { order' with timestamp := ts, quantity := r.remaining } := by
  obtain ⟨mid, _, ht, hbook⟩ := hr.result
  obtain ⟨mid', ts, ht', hbook'⟩ := hr'.result
  obtain rfl := Takes.unique h hsweep hside ht ht'
  have hmarket : ¬ (0 < (sweepOf book order).unmet ∧ order.orderType = .LIMIT) :=
    fun hrest => OrderType.MARKET_ne_LIMIT (hm.symm.trans hrest.2)
  rw [if_neg hmarket] at hbook
  rw [hsweep, ← hr.remaining] at hbook'
  refine ⟨ts, ?_⟩
  rw [hbook', hbook]
  by_cases hzero : r.remaining = 0
  · rw [if_pos hzero, if_neg fun hrest => ?_]
    rw [hzero] at hrest
    exact absurd hrest.1 (Nat.lt_irrefl 0)
  · have hpos : 0 < r.remaining.toNat :=
      Nat.pos_of_ne_zero fun hz => hzero (UInt32.toNat_inj.mp hz)
    rw [if_neg hzero, if_pos ⟨hpos, hl⟩, remainder, UInt32.ofNat_toNat]

end MatchingEngine

/-! ### Two calls -/

section

variable {book : OrderBook} {side : Side} (hs : side.IsProper) (id : OrderId) {quantity : Quantity}
  (hq : 0 < quantity) (now now' : Clock) (ts ts' : Timestamp) (trades : List Trade)

include hs hq

/-- A limit that is at least as aggressive makes the same trades first. -/
theorem trades_prefix_of_limit {price price' : Price} (hp : 0 < price) (hp' : 0 < price')
    (haggressive : ¬ side.opposite.Ahead price' price) : ∃ r r' made made',
      matchOrder now book ⟨ts, id, price, quantity, side, .LIMIT⟩ trades = .ok r ∧
      matchOrder now' book ⟨ts', id, price', quantity, side, .LIMIT⟩ trades = .ok r' ∧
      r.trades = trades ++ made ∧ r'.trades = trades ++ made' ∧
      volume made + r.remaining.toNat = quantity.toNat ∧
      volume made' + r'.remaining.toNat = quantity.toNat ∧
      made.map Trade.untimed <+: made'.map Trade.untimed := by
  obtain ⟨r, heq, hr⟩ := matchOrder_serves (Order.constructed_limit hp hq) hs now book trades
  obtain ⟨r', heq', hr'⟩ := matchOrder_serves (Order.constructed_limit hp' hq) hs now' book trades
  refine ⟨r, r', _, _, heq, heq', hr.trades, hr'.trades, hr.sum_made _, hr'.sum_made _, ?_⟩
  have hprefix : (sweepOf book ⟨ts, id, price, quantity, side, .LIMIT⟩).fills
      <+: (sweepOf book ⟨ts', id, price', quantity, side, .LIMIT⟩).fills :=
    fills_prefix_of_limit hs rfl rfl rfl haggressive
  exact tradesFrom_prefix (by rfl) (by rfl) hprefix now now' _

/-- A market order trades like a limit order at the extreme price. -/
theorem market_like_limit (h : book.Valid) : ∃ r r' made made' ts'',
    matchOrder now book ⟨ts, id, 0, quantity, side, .MARKET⟩ trades = .ok r ∧
    matchOrder now' book ⟨ts', id, side.extremePrice, quantity, side, .LIMIT⟩ trades = .ok r' ∧
    r.trades = trades ++ made ∧ r'.trades = trades ++ made' ∧
    volume made + r.remaining.toNat = quantity.toNat ∧
    volume made' + r'.remaining.toNat = quantity.toNat ∧
    made.map Trade.untimed = made'.map Trade.untimed ∧
    r'.book.levelsOn side.opposite = r.book.levelsOn side.opposite ∧
    r'.remaining = r.remaining ∧
    r'.book = if r.remaining = 0 then r.book else
      r.book.addOrder ⟨ts'', id, side.extremePrice, r.remaining, side, .LIMIT⟩ := by
  obtain ⟨r, heq, hr⟩ := matchOrder_serves (Order.constructed_market hq) hs now book trades
  obtain ⟨r', heq', hr'⟩ :=
    matchOrder_serves (Order.constructed_limit side.extremePrice_pos hq) hs now' book trades
  have hsweep : sweepOf book ⟨ts', id, side.extremePrice, quantity, side, .LIMIT⟩
      = sweepOf book ⟨ts, id, 0, quantity, side, .MARKET⟩ := sweepOf_market h hs rfl rfl rfl rfl
  obtain ⟨ts'', hbook⟩ := hr.book_eq h.inv.noEmpty hsweep rfl rfl rfl hr'
  refine ⟨r, r', _, _, ts'', heq, heq', hr.trades, hr'.trades, hr.sum_made _, hr'.sum_made _,
    ?_, ?_, ?_, hbook⟩
  · rw [hsweep]
    exact (tradesFrom_congr (by rfl) (by rfl) now now' _ _).symm
  · -- the other side is what the sweep has left
    refine OrderBook.levelsOn_eq (hr'.noEmpty h.inv.noEmpty) (hr.noEmpty h.inv.noEmpty) ?_
    exact hr'.opposite.trans ((congrArg Swept.left hsweep).trans hr.opposite.symm)
  · refine UInt32.toNat_inj.mp ?_
    rw [hr'.remaining, hr.remaining, hsweep]

end

/-- **A more aggressive limit trades more, and a market order most.**  For every valid book,
id, quantity and side: the trades of a call with a limit are, timestamps aside, the first of
the trades of a call with a limit that is at least as aggressive; and a market order trades
like a limit order at the extreme price and leaves the same book, but for the remainder
of the limit order, which rests.  In every call what is traded and what remains add up to
the quantity. -/
theorem limit_monotone {book : OrderBook} (h : book.Valid) {side : Side}
    (hs : side = .BID ∨ side = .ASK) (id : OrderId) {quantity : Quantity} (hq : 0 < quantity)
    (now now' : Clock) (ts ts' : Timestamp) (trades : List Trade) :
    (∀ price price' : Price, 0 < price → 0 < price' → (side = .BID → price ≤ price') →
      (side = .ASK → price' ≤ price) → ∃ r r' made made',
        matchOrder now book ⟨ts, id, price, quantity, side, .LIMIT⟩ trades = .ok r ∧
        matchOrder now' book ⟨ts', id, price', quantity, side, .LIMIT⟩ trades = .ok r' ∧
        r.trades = trades ++ made ∧ r'.trades = trades ++ made' ∧
        volume made + r.remaining.toNat = quantity.toNat ∧
        volume made' + r'.remaining.toNat = quantity.toNat ∧
        made.map Trade.untimed <+: made'.map Trade.untimed) ∧
    ∃ r r' made made' ts'',
      matchOrder now book ⟨ts, id, 0, quantity, side, .MARKET⟩ trades = .ok r ∧
      matchOrder now' book ⟨ts', id, side.extremePrice, quantity, side, .LIMIT⟩ trades = .ok r' ∧
      r.trades = trades ++ made ∧ r'.trades = trades ++ made' ∧
      volume made + r.remaining.toNat = quantity.toNat ∧
      volume made' + r'.remaining.toNat = quantity.toNat ∧
      made.map Trade.untimed = made'.map Trade.untimed ∧
      r'.book.levelsOn side.opposite = r.book.levelsOn side.opposite ∧
      r'.remaining = r.remaining ∧
      r'.book = if r.remaining = 0 then r.book else
        r.book.addOrder ⟨ts'', id, side.extremePrice, r.remaining, side, .LIMIT⟩ := by
  refine ⟨fun price price' hp hp' hbid hask => ?_,
    market_like_limit hs id hq now now' ts ts' trades h⟩
  apply trades_prefix_of_limit hs id hq now now' ts ts' trades hp hp'
  rcases hs with rfl | rfl
  · rw [Side.opposite_BID, Side.ahead_ASK]
    exact UInt64.not_lt.mpr (hbid rfl)
  · rw [Side.opposite_ASK, Side.ahead_BID]
    exact UInt64.not_lt.mpr (hask rfl)

open OrderBook in
/-- A bid of nine at 100 takes the better of two asks, one at 101 takes both; and so do a
market bid and a bid at the extreme price, with one left. -/
theorem limit_monotone_bid :
    (∃ r r',
      matchOrder (fun _ => 0) twoAsks ⟨0, 3, 100, 9, .BID, .LIMIT⟩ [] = .ok r ∧
      matchOrder (fun _ => 1) twoAsks ⟨0, 3, 101, 9, .BID, .LIMIT⟩ [] = .ok r' ∧
      r.trades = [⟨100, 3, 2, 3, 0⟩] ∧ r'.trades = [⟨100, 3, 2, 3, 1⟩, ⟨101, 3, 1, 5, 1⟩] ∧
      volume r.trades + r.remaining.toNat = 9 ∧ volume r'.trades + r'.remaining.toNat = 9 ∧
      r.trades.map Trade.untimed <+: r'.trades.map Trade.untimed) ∧
    ∃ r r' ts,
      matchOrder (fun _ => 0) twoAsks ⟨0, 3, 0, 9, .BID, .MARKET⟩ [] = .ok r ∧
      matchOrder (fun _ => 1) twoAsks ⟨0, 3, Side.BID.extremePrice, 9, .BID, .LIMIT⟩ [] = .ok r' ∧
      r.trades = [⟨100, 3, 2, 3, 0⟩, ⟨101, 3, 1, 5, 0⟩] ∧ r.remaining = 1 ∧
      volume r.trades + r.remaining.toNat = 9 ∧
      r.trades.map Trade.untimed = r'.trades.map Trade.untimed ∧
      r'.book.levelsOn .ASK = r.book.levelsOn .ASK ∧
      r'.book = r.book.addOrder ⟨ts, 3, Side.BID.extremePrice, 1, .BID, .LIMIT⟩ := by
  have hq : (0 : Quantity) < 9 := by decide
  obtain ⟨hlimits, r, r', _, _, ts, heq, heq', rfl, rfl, hsum, -, hsame, hlevels, -, hbook⟩ :=
    limit_monotone twoAsks_valid (Or.inl rfl) 3 hq (fun _ => 0) (fun _ => 1) 0 0 []
  refine ⟨?_, r, r', ts, heq, heq', ?_⟩
  · obtain ⟨r, r', _, _, heq, heq', rfl, rfl, hsum, hsum', hfirst⟩ :=
      hlimits 100 101 (by decide) (by decide) (by decide) (by decide)
    have heval : (matchOrder (fun _ => 0) twoAsks ⟨0, 3, 100, 9, .BID, .LIMIT⟩ []).toOption.map
        (fun r => r.trades) = some [⟨100, 3, 2, 3, 0⟩] := by decide +kernel
    have heval' : (matchOrder (fun _ => 1) twoAsks ⟨0, 3, 101, 9, .BID, .LIMIT⟩ []).toOption.map
        (fun r => r.trades) = some [⟨100, 3, 2, 3, 1⟩, ⟨101, 3, 1, 5, 1⟩] := by decide +kernel
    rw [heq] at heval
    rw [heq'] at heval'
    exact ⟨r, r', heq, heq', Option.some.inj heval, Option.some.inj heval', hsum, hsum', hfirst⟩
  · have heval : (matchOrder (fun _ => 0) twoAsks ⟨0, 3, 0, 9, .BID, .MARKET⟩ []).toOption.map
        (fun r => (r.trades, r.remaining))
        = some ([⟨100, 3, 2, 3, 0⟩, ⟨101, 3, 1, 5, 0⟩], 1) := by decide +kernel
    rw [heq] at heval
    obtain ⟨htrades, hrem⟩ := Prod.mk.inj (Option.some.inj heval)
    rw [hrem] at hbook
    exact ⟨htrades, hrem, hsum, hsame, hlevels, hbook⟩

end Exchange
