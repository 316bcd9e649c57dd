import Exchange.Book.Limits

/-!
# Splitting an order

An order that is sent in two parts meets the book like the whole order: the second part
goes on where the first has stopped, which may be inside a resting order, between two of
them, or at the end of what the order can trade with.

## Main definitions

* `Order.Splits` — two orders are the parts of an order.
* `Trade.fill` — what a trade does to its maker.

## Main results

* `MatchingEngine.sweepOf_split` — the walks of the parts and the walk of the whole.
* `splitting_gives_nothing` — two calls with the parts and one call with the whole.
-/

namespace Exchange

open MatchingEngine

/-- Two orders are the parts of an order: they have its side, type and price, and their
quantities add up to its quantity. -/
structure Order.Splits (order order₁ order₂ : Order) : Prop where
  side₁ : order₁.side = order.side
  side₂ : order₂.side = order.side
  orderType₁ : order₁.orderType = order.orderType
  orderType₂ : order₂.orderType = order.orderType
  price₁ : order₁.price = order.price
  price₂ : order₂.price = order.price
  quantity : order₁.quantity.toNat + order₂.quantity.toNat = order.quantity.toNat

/-- The constructor accepts an order of which it accepts a part. -/
theorem Order.Splits.constructed {order order₁ order₂ : Order} (h : order.Splits order₁ order₂)
    (hc : order₁.Constructed) : order.Constructed := by
  obtain ⟨hl, hm, hq⟩ := Order.constructed_iff.mp hc
  rw [h.orderType₁, h.price₁] at hl hm
  refine Order.constructed_iff.mpr ⟨hl, hm, UInt32.lt_iff_toNat_lt.mpr ?_⟩
  rw [← h.quantity]
  exact Nat.add_pos_left (UInt32.lt_iff_toNat_lt.mp hq) _

/-- What a trade with an order of a side does to its maker: the maker's id, the price and
the quantity. -/
def Trade.fill (side : Side) (t : Trade) : (OrderId × Price) × ℕ :=
  ((t.party side.opposite, t.price), t.quantity.toNat)

namespace MatchingEngine

variable {book : OrderBook} {order order₁ order₂ : Order}

/-! ### Two walks in a row -/

theorem reduceBy_reduceBy (a : Price × Node) (j k : ℕ) :
    reduceBy (reduceBy a j) k = reduceBy a (j + k) := by
  have hsub : ∀ q x y : Quantity, q - x - y = q - (x + y) := by
    intro q x y
    grind
  simp only [reduceBy, UInt32.ofNat_add, hsub]

/-- What blocks a walk depends on the side, the type and the price of the order. -/
theorem blocked_branchOf_congr (hside : order₁.side = order.side)
    (htype : order₁.orderType = order.orderType) (hprice : order₁.price = order.price) :
    (branchOf order₁).blocked = (branchOf order).blocked := by
  unfold branchOf
  rw [hside]
  split
  · simp only [bidBranch, htype, hprice]
  · simp only [askBranch, htype, hprice]

/-- The maker of a fill and its price. -/
def makerOf (a : Price × Node) : OrderId × Price := (a.2.order.id, a.1)

/-- Resting orders with distinct ids are distinct makers. -/
theorem nodup_makerOf (hids : (book.resting.map fun a => a.2.order.id).Nodup) {side : Side}
    (hs : side.IsProper) : ((book.restingOn side.opposite).map makerOf).Nodup := by
  have hnodup := ((book.resting_perm hs).map fun a => a.2.order.id).nodup_iff.mp hids
  rw [List.map_append] at hnodup
  refine List.Nodup.of_map Prod.fst ?_
  rw [List.map_map]
  exact hnodup.of_append_right

/-- The trades of a walk, as they concern the makers. -/
theorem map_fill_tradesFrom (hs : order.side.IsProper) (now : Clock) (k : ℕ)
    (fills : List ((Price × Node) × ℕ)) (hlt : ∀ f ∈ fills, f.2 < 2 ^ 32) :
    (tradesFrom now (branchOf order) k fills).map (Trade.fill order.side)
      = fills.map fun f => (makerOf f.1, f.2) := by
  induction fills generalizing k with
  | nil => rfl
  | cons f fills ih =>
    have hf : (UInt32.ofNat f.2).toNat = f.2 :=
      UInt32.toNat_ofNat_of_lt' (hlt f List.mem_cons_self)
    rw [tradesFrom, List.map_cons, ih _ fun f' hf' => hlt f' (List.mem_cons_of_mem f hf'),
      List.map_cons, Trade.fill, (party_branchOf hs _ _ _ _).2, price_branchOf,
      quantity_branchOf, hf]
    rfl

/-- **The walks of two parts and the walk of the whole**, when the second part meets what the
first has left. -/
theorem sweepOf_split {book' : OrderBook} (hsplit : order.Splits order₁ order₂)
    (hkeys : ((book.restingOn order.side.opposite).map makerOf).Nodup)
    (hleft : book'.restingOn order.side.opposite = (sweepOf book order₁).left) :
    (sweepOf book order).left = (sweepOf book' order₂).left ∧
      (sweepOf book order).unmet = (sweepOf book order₁).unmet + (sweepOf book' order₂).unmet ∧
      ((sweepOf book order).fills.map fun f => (makerOf f.1, f.2))
        = mergeRuns (((sweepOf book order₁).fills ++ (sweepOf book' order₂).fills).map
            fun f => (makerOf f.1, f.2)) := by
  have hwalk₁ : sweepOf book order₁ = walk (branchOf order)
      (book.restingOn order.side.opposite) order₁.quantity.toNat := by
    rw [sweepOf, walk, walk, hsplit.side₁,
      blocked_branchOf_congr hsplit.side₁ hsplit.orderType₁ hsplit.price₁]
  have hwalk₂ : sweepOf book' order₂ = walk (branchOf order) (walk (branchOf order)
      (book.restingOn order.side.opposite) order₁.quantity.toNat).left
      order₂.quantity.toNat := by
    rw [sweepOf, hsplit.side₂, hleft, hwalk₁, walk, walk, walk,
      blocked_branchOf_congr hsplit.side₂ hsplit.orderType₂ hsplit.price₂]
  rw [hwalk₂, hwalk₁, sweepOf, ← hsplit.quantity]
  exact sweep_add weight reduceBy (fun a => (branchOf order).blocked a.1) makerOf
    (fun _ _ => rfl) (fun _ _ => weight_reduceBy) reduceBy_reduceBy (fun _ _ => rfl) hkeys _ _

end MatchingEngine

/-! ### Two calls and one -/

open OrderBook in
/-- **Splitting an order gives nothing.**  For every book in order whose resting orders have
distinct ids, two calls with the parts of an order leave the opposite side as one call with
the whole does; they fill the same makers by the same quantities at the same prices in the
same sequence, if two fills in a row of one maker count as one; what is traded and what
remains add up to the quantity of each call; and the same quantity is left, which rests at
the price of a limit order and is dropped for a market order. -/
theorem splitting_gives_nothing {book : OrderBook} (h : book.Inv)
    (hids : (book.resting.map fun a => a.2.order.id).Nodup) {order order₁ order₂ : Order}
    (hsplit : order.Splits order₁ order₂) (hp : order.Proper) (hc₁ : order₁.Constructed)
    (hc₂ : order₂.Constructed) (now now₁ now₂ : Clock) (trades : List Trade) :
    ∃ r r₁ r₂ made made₁ made₂,
      matchOrder now book order trades = .ok r ∧
      matchOrder now₁ book order₁ trades = .ok r₁ ∧
      matchOrder now₂ r₁.book order₂ r₁.trades = .ok r₂ ∧
      r.trades = trades ++ made ∧ r₁.trades = trades ++ made₁ ∧
      r₂.trades = r₁.trades ++ made₂ ∧
      volume made + r.remaining.toNat = order.quantity.toNat ∧
      volume made₁ + r₁.remaining.toNat = order₁.quantity.toNat ∧
      volume made₂ + r₂.remaining.toNat = order₂.quantity.toNat ∧
      r₂.book.levelsOn order.side.opposite = r.book.levelsOn order.side.opposite ∧
      made.map (Trade.fill order.side) = mergeRuns ((made₁ ++ made₂).map (Trade.fill order.side)) ∧
      r₁.remaining.toNat + r₂.remaining.toNat = r.remaining.toNat ∧
      (order.orderType = .LIMIT →
        r.book.quantityAt order.side order.price
            = book.quantityAt order.side order.price + r.remaining.toNat ∧
          r₂.book.quantityAt order.side order.price
            = book.quantityAt order.side order.price + r.remaining.toNat) ∧
      (order.orderType = .MARKET →
        r.book.levelsOn order.side = book.levelsOn order.side ∧
          r₂.book.levelsOn order.side = book.levelsOn order.side) := by
  have hs : order.side.IsProper := hp.1
  have hs₁ : order₁.side.IsProper := by rw [hsplit.side₁]; exact hs
  have hs₂ : order₂.side.IsProper := by rw [hsplit.side₂]; exact hs
  obtain ⟨r, heq, hr⟩ := matchOrder_serves (hsplit.constructed hc₁) hs now book trades
  obtain ⟨r₁, heq₁, hr₁⟩ := matchOrder_serves hc₁ hs₁ now₁ book trades
  obtain ⟨r₂, heq₂, hr₂⟩ := matchOrder_serves hc₂ hs₂ now₂ r₁.book r₁.trades
  have hkeys := nodup_makerOf hids hs
  have hleft : r₁.book.restingOn order.side.opposite = (sweepOf book order₁).left := by
    rw [← hsplit.side₁]
    exact hr₁.opposite
  obtain ⟨hsame, hunmet, hfills⟩ := sweepOf_split hsplit hkeys hleft
  have hremaining : r₁.remaining.toNat + r₂.remaining.toNat = r.remaining.toNat := by
    rw [hr.remaining, hr₁.remaining, hr₂.remaining, hunmet]
  refine ⟨r, r₁, r₂, _, _, _, heq, heq₁, heq₂, hr.trades, hr₁.trades, hr₂.trades,
    hr.sum_made _, hr₁.sum_made _, hr₂.sum_made _, ?_, ?_, hremaining, fun hl => ?_,
    fun hm => ?_⟩
  · refine levelsOn_eq (hr₂.noEmpty (hr₁.noEmpty h.noEmpty)) (hr.noEmpty h.noEmpty) ?_
    rw [hr.opposite, hsame, ← hr₂.opposite, hsplit.side₂]
  · have hmade₁ := map_fill_tradesFrom hs₁ now₁ trades.length
      (sweepOf book order₁).fills fun _ => fill_lt
    have hmade₂ := map_fill_tradesFrom hs₂ now₂ r₁.trades.length
      (sweepOf r₁.book order₂).fills fun _ => fill_lt
    rw [hsplit.side₁] at hmade₁
    rw [hsplit.side₂] at hmade₂
    rw [map_fill_tradesFrom hs now trades.length _ fun _ => fill_lt, hfills, List.map_append,
      List.map_append, hmade₁, hmade₂]
  · refine ⟨hr.quantityAt_limit hs hl, ?_⟩
    have hadd₁ := hr₁.quantityAt_limit hs₁ (hsplit.orderType₁.trans hl)
    have hadd₂ := hr₂.quantityAt_limit hs₂ (hsplit.orderType₂.trans hl)
    rw [hsplit.side₁, hsplit.price₁] at hadd₁
    rw [hsplit.side₂, hsplit.price₂] at hadd₂
    rw [hadd₂, hadd₁, ← hremaining, Nat.add_assoc]
  · have hown₁ := hr₁.restingOn_market hs₁ (hsplit.orderType₁.trans hm)
    have hown₂ := hr₂.restingOn_market hs₂ (hsplit.orderType₂.trans hm)
    rw [hsplit.side₁] at hown₁
    rw [hsplit.side₂, hown₁] at hown₂
    exact ⟨levelsOn_eq (hr.noEmpty h.noEmpty) h.noEmpty (hr.restingOn_market hs hm),
      levelsOn_eq (hr₂.noEmpty (hr₁.noEmpty h.noEmpty)) h.noEmpty hown₂⟩

open OrderBook in
/-- A bid of six over two asks, sent as four and two: the second part goes on inside the
order that the first has left with four. -/
theorem splitting_gives_nothing_bid :
    ∃ r r₁ r₂ made₂,
      matchOrder (fun _ => 0) twoAsks ⟨0, 3, 101, 6, .BID, .LIMIT⟩ [] = .ok r ∧
      matchOrder (fun _ => 0) twoAsks ⟨0, 4, 101, 4, .BID, .LIMIT⟩ [] = .ok r₁ ∧
      matchOrder (fun _ => 0) r₁.book ⟨0, 5, 101, 2, .BID, .LIMIT⟩ r₁.trades = .ok r₂ ∧
      r.trades = [⟨100, 3, 2, 3, 0⟩, ⟨101, 3, 1, 3, 0⟩] ∧
      r₁.trades = [⟨100, 4, 2, 3, 0⟩, ⟨101, 4, 1, 1, 0⟩] ∧
      r₂.trades = r₁.trades ++ made₂ ∧ made₂ = [⟨101, 5, 1, 2, 0⟩] ∧
      r.trades.map (Trade.fill .BID) = mergeRuns ((r₁.trades ++ made₂).map (Trade.fill .BID)) ∧
      volume r.trades + r.remaining.toNat = 6 ∧ volume r₁.trades + r₁.remaining.toNat = 4 ∧
      volume made₂ + r₂.remaining.toNat = 2 ∧
      r.book.levelsOn .ASK = [(101, [⟨0, 0, 1, 101, 2, .ASK, .LIMIT⟩])] ∧
      r₂.book.levelsOn .ASK = r.book.levelsOn .ASK := by
  have hsplit : (⟨0, 3, 101, 6, .BID, .LIMIT⟩ : Order).Splits ⟨0, 4, 101, 4, .BID, .LIMIT⟩
      ⟨0, 5, 101, 2, .BID, .LIMIT⟩ := ⟨rfl, rfl, rfl, rfl, rfl, rfl, rfl⟩
  obtain ⟨r, r₁, r₂, _, _, made₂, heq, heq₁, heq₂, rfl, rfl, hmade₂, hsum, hsum₁, hsum₂, hsame,
      hfills, -⟩ :=
    splitting_gives_nothing twoAsks_valid.inv (by decide +kernel) hsplit (by decide) (by decide)
      (by decide) (fun _ => 0) (fun _ => 0) (fun _ => 0) []
  have heval : (matchOrder (fun _ => 0) twoAsks ⟨0, 3, 101, 6, .BID, .LIMIT⟩ []).toOption.map
      (fun r => (r.trades, r.book.levelsOn .ASK))
      = some ([⟨100, 3, 2, 3, 0⟩, ⟨101, 3, 1, 3, 0⟩],
        [(101, [⟨0, 0, 1, 101, 2, .ASK, .LIMIT⟩])]) := by decide +kernel
  have hparts : ((matchOrder (fun _ => 0) twoAsks ⟨0, 4, 101, 4, .BID, .LIMIT⟩ []).toOption.bind
      fun r₁ => (matchOrder (fun _ => 0) r₁.book ⟨0, 5, 101, 2, .BID, .LIMIT⟩
        r₁.trades).toOption.map fun r₂ => (r₁.trades, r₂.trades))
      = some ([⟨100, 4, 2, 3, 0⟩, ⟨101, 4, 1, 1, 0⟩],
        [⟨100, 4, 2, 3, 0⟩, ⟨101, 4, 1, 1, 0⟩, ⟨101, 5, 1, 2, 0⟩]) := by decide +kernel
  rw [heq] at heval
  simp only [heq₁, Except.toOption, Option.bind_some, heq₂, Option.map_some] at hparts
  obtain ⟨htrades, hlevels⟩ := Prod.mk.inj (Option.some.inj heval)
  obtain ⟨htrades₁, htrades₂⟩ := Prod.mk.inj (Option.some.inj hparts)
  have hlast : made₂ = [⟨101, 5, 1, 2, 0⟩] := by
    rw [hmade₂, htrades₁] at htrades₂
    exact List.append_cancel_left htrades₂
  exact ⟨r, r₁, r₂, made₂, heq, heq₁, heq₂, htrades, htrades₁, hmade₂, hlast, hfills, hsum,
    hsum₁, hsum₂, hlevels, hsame⟩

end Exchange
