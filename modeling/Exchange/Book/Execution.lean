import Exchange.Book.Conservation
import Exchange.Book.Index
import Exchange.Book.Levels

/-!
# Executions

What a client may expect of one call of `match`: which resting orders its order trades
with, at which prices and in which order, and that it does not stop while there is
something left to trade with.

## Main definitions

* `OrderBook.quantityAt` — the quantity that rests at a price.
* `MatchingEngine.Serves` — what a call of `match` returns.
* `MatchingEngine.volume` — the quantity that changes hands in a list of trades.
* `MatchingEngine.executions` — the trades of a list of fills, each with its maker.
* `OrderBook.CrossesNothing` — a limit order meets nothing that it could trade with.

## Main results

* `MatchingEngine.matchOrder_serves` — `match` of an order of one of the sides.
* `limit_protection` — prices, makers and the end of an execution.
-/

namespace Exchange

open MatchingEngine

/-- The quantity that rests on a side at a price. -/
def OrderBook.quantityAt (book : OrderBook) (side : Side) (price : Price) : ℕ :=
  ((book.restingOn side).map fun a => if a.1 = price then weight a else 0).sum

namespace MatchingEngine

/-! ### What a call returns -/

/-- What a call of `match` does: it sweeps the opposite side, records the trades of the
fills, and adds what is left of a limit order to the book. -/
structure Serves (now : Clock) (book : OrderBook) (order : Order) (trades : List Trade)
    (r : Matched) : Prop where
  trades : r.trades
    = trades ++ tradesFrom now (branchOf order) trades.length (sweepOf book order).fills
  remaining : r.remaining.toNat = (sweepOf book order).unmet
  opposite : r.book.restingOn order.side.opposite = (sweepOf book order).left
  result : ∃ mid ts, Takes book order mid ∧ r.book =
    if 0 < (sweepOf book order).unmet ∧ order.orderType = .LIMIT then
      mid.addOrder (remainder order ts (sweepOf book order).unmet) else mid
  noEmpty : book.NoEmptyLevels → r.book.NoEmptyLevels

/-- **A call of `match`**, for an order of one of the two sides. -/
theorem matchOrder_serves {order : Order} (hc : order.Constructed) (hs : order.side.IsProper)
    (now : Clock) (book : OrderBook) (trades : List Trade) :
    ∃ r, matchOrder now book order trades = .ok r ∧ Serves now book order trades r := by
  obtain ⟨mid, subs, ht, -, heq⟩ := matchOrder_eq hc now book trades
  refine ⟨_, heq, rfl, OrderBook.toNat_remainder book order 0, ?_, ⟨mid, _, ht, rfl⟩, fun h => ?_⟩
  · rw [← ht.queue]
    split
    · next hrest =>
      exact (addOrder_remainder mid hrest.2 hs _ _).other _ (OrderBook.opposite_ne_self hs)
    · rfl
  · show OrderBook.NoEmptyLevels (if _ then _ else _)
    split
    · next hrest => exact (addOrder_remainder mid hrest.2 hs _ _).noEmpty (ht.noEmpty h)
    · exact ht.noEmpty h

theorem price_branchOf (order : Order) (p : Price) (o : Order) (q : Quantity) (ts : Timestamp) :
    ((branchOf order).trade p o q ts).price = p := by
  unfold branchOf
  split <;> rfl

/-- The quantity that changes hands in a list of trades. -/
def volume (trades : List Trade) : ℕ := (trades.map fun t => t.quantity.toNat).sum

/-- What is traded and what is left add up to the quantity of the order. -/
theorem Serves.sum_made {now : Clock} {book : OrderBook} {order : Order} {trades : List Trade}
    {r : Matched} (hr : Serves now book order trades r) (k : ℕ) :
    volume (tradesFrom now (branchOf order) k (sweepOf book order).fills) + r.remaining.toNat
      = order.quantity.toNat := by
  have hmap : ∀ (fills : List ((Price × Node) × ℕ)) (k : ℕ), (∀ f ∈ fills, f.2 < 2 ^ 32) →
      ((tradesFrom now (branchOf order) k fills).map fun t => t.quantity.toNat)
        = fills.map Prod.snd := by
    intro fills
    induction fills with
    | nil => intro k _; rfl
    | cons f fills ih =>
      intro k hlt
      have hf : (UInt32.ofNat f.2).toNat = f.2 :=
        UInt32.toNat_ofNat_of_lt' (hlt f List.mem_cons_self)
      rw [tradesFrom, List.map_cons, ih _ fun f' hf' => hlt f' (List.mem_cons_of_mem f hf'),
        List.map_cons, quantity_branchOf, hf]
  rw [volume, hmap _ k fun _ => fill_lt, hr.remaining]
  exact sum_fills_add_unmet _ _ _ _ _

/-! ### The own side -/

/-- A limit order adds what is left of it to the quantity at its price. -/
theorem Serves.quantityAt_limit {now : Clock} {book : OrderBook} {order : Order}
    {trades : List Trade} {r : Matched} (hr : Serves now book order trades r)
    (hs : order.side.IsProper) (hl : order.orderType = .LIMIT) :
    r.book.quantityAt order.side order.price
      = book.quantityAt order.side order.price + r.remaining.toNat := by
  obtain ⟨mid, ts, ht, hbook⟩ := hr.result
  have hown : mid.restingOn order.side = book.restingOn order.side :=
    ht.other _ (OrderBook.opposite_ne_self hs).symm
  rw [hbook, hr.remaining]
  by_cases hrest : 0 < (sweepOf book order).unmet
  · have hi := addOrder_remainder mid hl hs ts (sweepOf book order).unmet
    obtain ⟨A, B, hA, hB, -, -⟩ := hi.queue
    have hA' : book.restingOn order.side = A ++ B := hown.symm.trans hA
    have hB' : (mid.addOrder (remainder order ts (sweepOf book order).unmet)).restingOn order.side
        = A ++ (order.price, ⟨mid.nextPos, remainder order ts _⟩) :: B := hB
    have hweight : weight (order.price, ⟨mid.nextPos, remainder order ts
        (sweepOf book order).unmet⟩) = (sweepOf book order).unmet :=
      OrderBook.toNat_remainder book order ts
    rw [if_pos ⟨hrest, hl⟩, OrderBook.quantityAt, OrderBook.quantityAt, hA', hB']
    simp only [List.map_append, List.map_cons, List.sum_append, List.sum_cons, if_true, hweight]
    omega
  · rw [if_neg fun hboth => hrest hboth.1, OrderBook.quantityAt, hown, Nat.eq_zero_of_not_pos hrest]
    rfl

/-- A market order leaves its own side as it was. -/
theorem Serves.restingOn_market {now : Clock} {book : OrderBook} {order : Order}
    {trades : List Trade} {r : Matched} (hr : Serves now book order trades r)
    (hs : order.side.IsProper) (hm : order.orderType = .MARKET) :
    r.book.restingOn order.side = book.restingOn order.side := by
  obtain ⟨mid, _, ht, hbook⟩ := hr.result
  rw [hbook, if_neg fun hrest => OrderType.MARKET_ne_LIMIT (hm.symm.trans hrest.2)]
  exact ht.other _ (OrderBook.opposite_ne_self hs).symm

/-! ### Trades and their makers -/

/-- The trades of a list of fills, each with the resting order it was made with. -/
def executions (now : Clock) (branch : Branch) (k : ℕ) (fills : List ((Price × Node) × ℕ)) :
    List (Trade × (Price × Node)) :=
  (tradesFrom now branch k fills).zip (fills.map Prod.fst)

theorem map_fst_executions (now : Clock) (branch : Branch) (k : ℕ)
    (fills : List ((Price × Node) × ℕ)) :
    (executions now branch k fills).map Prod.fst = tradesFrom now branch k fills :=
  List.map_fst_zip (by simp)

theorem map_snd_executions (now : Clock) (branch : Branch) (k : ℕ)
    (fills : List ((Price × Node) × ℕ)) :
    (executions now branch k fills).map Prod.snd = fills.map Prod.fst :=
  List.map_snd_zip (by simp)

theorem executions_append (now : Clock) (branch : Branch) (k : ℕ)
    (fills fills' : List ((Price × Node) × ℕ)) :
    executions now branch k (fills ++ fills')
      = executions now branch k fills ++ executions now branch (k + fills.length) fills' := by
  rw [executions, tradesFrom_append, List.map_append, List.zip_append (by simp)]
  rfl

theorem executions_singleton (now : Clock) (branch : Branch) (k : ℕ)
    (f : (Price × Node) × ℕ) :
    executions now branch k [f]
      = [(branch.trade f.1.1 f.1.2.order (UInt32.ofNat f.2) (now k), f.1)] :=
  rfl

/-- Each execution is a fill. -/
theorem exists_of_mem_executions {now : Clock} {branch : Branch} {k : ℕ}
    {fills : List ((Price × Node) × ℕ)} {x : Trade × (Price × Node)}
    (h : x ∈ executions now branch k fills) :
    ∃ amount ts, (x.2, amount) ∈ fills ∧
      x.1 = branch.trade x.2.1 x.2.2.order (UInt32.ofNat amount) ts := by
  induction fills generalizing k with
  | nil => exact absurd h List.not_mem_nil
  | cons f fills ih =>
    rcases List.mem_cons.mp h with rfl | h
    · exact ⟨f.2, now k, List.mem_cons_self, rfl⟩
    · obtain ⟨amount, ts, hmem, hx⟩ := ih h
      exact ⟨amount, ts, List.mem_cons_of_mem f hmem, hx⟩

/-- The trades of a walk are its fills, but for their timestamps. -/
theorem map_untimed_tradesFrom (now : Clock) (order : Order) (k : ℕ)
    (fills : List ((Price × Node) × ℕ)) :
    (tradesFrom now (branchOf order) k fills).map Trade.untimed
      = fills.map fun f => (branchOf order).trade f.1.1 f.1.2.order (UInt32.ofNat f.2) 0 := by
  induction fills generalizing k with
  | nil => rfl
  | cons f fills ih =>
    rw [tradesFrom, List.map_cons, ih, List.map_cons]
    congr 1
    unfold branchOf
    split <;> rfl

/-- The trades follow the queue, from better prices to worse. -/
theorem tradesFrom_sorted (book : OrderBook) (order : Order) (now : Clock) (k : ℕ) :
    (tradesFrom now (branchOf order) k (sweepOf book order).fills).Pairwise
      fun t t' => ¬ order.side.opposite.Ahead t'.price t.price := by
  have hprices : ∀ (fills : List ((Price × Node) × ℕ)) (k : ℕ),
      (tradesFrom now (branchOf order) k fills).map Trade.price
        = (fills.map Prod.fst).map Prod.fst := by
    intro fills
    induction fills with
    | nil => intro k; rfl
    | cons f fills ih =>
      intro k
      rw [tradesFrom, List.map_cons, List.map_cons, List.map_cons, ih, price_branchOf]
  have hsorted := (book.restingOn_sorted order.side.opposite).sublist
    (prefix_map_fst_fills weight reduceBy (fun a => (branchOf order).blocked a.1)
      (book.restingOn order.side.opposite) order.quantity.toNat).sublist
  rw [← List.pairwise_map (f := Trade.price)
    (R := fun p p' => ¬ order.side.opposite.Ahead p' p), hprices, List.pairwise_map]
  exact hsorted

end MatchingEngine

namespace OrderBook

variable {book : OrderBook}

/-! ### The end of an execution -/

/-- The best order of the other side, if there is one, is out of the reach of a limit
order. -/
def CrossesNothing (book : OrderBook) (order : Order) : Prop :=
  (order.side = .BID → ∀ p, book.bestAsk = some p → order.price < p) ∧
    (order.side = .ASK → ∀ p, book.bestBid = some p → p < order.price)

/-- An order crosses nothing when the first order of the other side is out of its reach. -/
theorem crossesNothing_iff_head {order : Order} (hs : order.side.IsProper)
    (hne : book.NoEmptyLevels) :
    book.CrossesNothing order ↔ ∀ a ∈ (book.restingOn order.side.opposite).head?,
      order.side.opposite.Ahead order.price a.1 := by
  rw [CrossesNothing, bestAsk, bestBid, hne.1.begin_map_fst, hne.2.begin_map_fst]
  rcases hs with hs | hs
  · rw [hs, Side.opposite_BID, restingOn_ASK]
    simp [Side.ahead_ASK, Side.BID_ne_ASK]
  · rw [hs, Side.opposite_ASK, restingOn_BID]
    simp [Side.ahead_BID, Side.ASK_ne_BID]

/-- A limit order that crosses nothing is not served at all. -/
theorem CrossesNothing.sweepOf_eq {order : Order} (h : book.CrossesNothing order)
    (hne : book.NoEmptyLevels) (hl : order.orderType = .LIMIT) :
    sweepOf book order
      = ⟨[], [], book.restingOn order.side.opposite, order.quantity.toNat⟩ := by
  rw [sweepOf]
  cases hq : book.restingOn order.side.opposite with
  | nil => rfl
  | cons a q =>
    -- a byte that is no side has no opposite side with orders
    have hopp : order.side.opposite.IsProper :=
      isProper_of_mem (by rw [hq]; exact List.mem_cons_self)
    have hs : order.side.IsProper := by
      by_contra hs
      rw [Side.opposite_of_not_isProper hs] at hopp
      exact hs hopp
    apply walk_blocked
    rw [blocked_branchOf hs]
    exact ⟨hl, (crossesNothing_iff_head hs hne).mp h a (by rw [hq]; rfl)⟩

/-- A limit order crosses nothing exactly when it takes no order whole and is not filled. -/
theorem crossesNothing_iff_sweepOf {order : Order} (hc : order.Constructed)
    (hs : order.side.IsProper) (hl : order.orderType = .LIMIT) (hne : book.NoEmptyLevels) :
    book.CrossesNothing order ↔
      (sweepOf book order).gone = [] ∧ 0 < (sweepOf book order).unmet := by
  constructor
  · intro h
    rw [h.sweepOf_eq hne hl]
    exact ⟨rfl, UInt32.lt_iff_toNat_lt.mp (Order.constructed_iff.mp hc).2.2⟩
  · rintro ⟨hgone, hpos⟩
    have hleft : (sweepOf book order).left = book.restingOn order.side.opposite :=
      left_eq_of_gone _ _ _ hgone hpos
    rw [crossesNothing_iff_head hs hne, ← hleft]
    rcases left_of_unmet _ _ _ hpos with hnil | ⟨a, q, hq, ha⟩
    · rw [sweepOf, walk, hnil]
      simp
    · rw [sweepOf, walk, hq]
      rintro b hb
      obtain rfl := Option.some.inj hb
      exact ((blocked_branchOf hs _).mp ha).2

/-- An order that is not filled has met nothing more that it could trade with. -/
theorem crossesNothing_of_unmet {order : Order} (hs : order.side.IsProper) {now : Clock}
    {trades : List Trade} {r : Matched} (hr : Serves now book order trades r)
    (hne : book.NoEmptyLevels) (hpos : 0 < (sweepOf book order).unmet) :
    r.book.restingOn order.side.opposite = [] ∨
      order.orderType = .LIMIT ∧ r.book.CrossesNothing order := by
  rw [crossesNothing_iff_head hs (hr.noEmpty hne), hr.opposite]
  rcases left_of_unmet _ _ _ hpos with hnil | ⟨a, q, hq, ha⟩
  · exact Or.inl hnil
  · -- the walk has ended at an order that is out of reach, and it is the best one left
    obtain ⟨hl, hahead⟩ := (blocked_branchOf hs a.1).mp ha
    refine Or.inr ⟨hl, ?_⟩
    rw [sweepOf, walk, hq]
    rintro b hb
    obtain rfl := Option.some.inj hb
    exact hahead

/-- The trade is one of the order with this resting order, at the price of the latter. -/
structure Executed (book : OrderBook) (order : Order) (t : Trade) (a : Price × Node) : Prop where
  rested : a ∈ book.restingOn order.side.opposite
  taker : t.party order.side = order.id
  maker : t.party order.side.opposite = a.2.order.id
  price : t.price = a.2.order.price
  quantity : 0 < t.quantity ∧ t.quantity ≤ a.2.order.quantity

/-- The trade has filled the resting order completely, and it has left the book and the
index. -/
def FilledOut (book' : OrderBook) (t : Trade) (a : Price × Node) : Prop :=
  t.quantity = a.2.order.quantity ∧ ¬ book'.Rests a.2.order.id ∧
    book'.orderMap a.2.order.id = none

/-- The trade has filled the resting order in part: what is left of it is the first order of
its side. -/
def FilledInPart (book' : OrderBook) (side : Side) (t : Trade) (a : Price × Node) : Prop :=
  t.quantity < a.2.order.quantity ∧
    (book'.restingOn side).head? = some (reduceBy a t.quantity.toNat)

/-- An order that is filled has left the book and the index, if no other order has its
id. -/
theorem Inv.gone_of_serves (h : book.Inv)
    (hids : (book.resting.map fun a => a.2.order.id).Nodup) {order : Order}
    (hnew : ¬ book.Rests order.id) {now : Clock} {trades : List Trade} {r : Matched}
    (hr : Serves now book order trades r) {a : Price × Node}
    (ha : a ∈ (sweepOf book order).gone) :
    ¬ r.book.Rests a.2.order.id ∧ r.book.orderMap a.2.order.id = none := by
  obtain ⟨mid, ts, ht, heq⟩ := hr.result
  have hmem : a ∈ book.resting := mem_resting_iff.mpr ⟨_, mem_of_gone ha⟩
  have hne : a.2.order.id ≠ order.id := fun hid => hnew ⟨a, hmem, hid⟩
  have hrests : ¬ mid.Rests a.2.order.id := by
    rw [h.rests_takes_iff ht]
    rintro ⟨b, hb, hid, hnot⟩
    rw [List.inj_on_of_nodup_map hids hb hmem hid] at hnot
    exact hnot ha
  have hmap : mid.orderMap a.2.order.id = none := by
    rw [ht.orderMap]
    exact if_pos (List.mem_map.mpr ⟨a, ha, rfl⟩)
  rw [heq]
  split
  · -- the remainder rests under another id
    rcases addOrder_cases mid (remainder order ts (sweepOf book order).unmet) with
      hsame | ⟨-, hs, hi⟩
    · rw [hsame]
      exact ⟨hrests, hmap⟩
    · refine ⟨?_, (congrFun hi.orderMap _).trans ((Function.update_of_ne hne _ _).trans hmap)⟩
      rintro ⟨b, hb, hid⟩
      rcases List.mem_cons.mp ((hi.resting_perm hs).mem_iff.mp hb) with rfl | hb
      · exact hne hid.symm
      · exact hrests ⟨b, hb, hid⟩
  · exact ⟨hrests, hmap⟩

/-- Each execution is a trade with a resting order, at its price. -/
theorem Inv.executed (h : book.Inv) {order : Order} (hs : order.side.IsProper) {now : Clock}
    {k : ℕ} {x : Trade × (Price × Node)}
    (hx : x ∈ executions now (branchOf order) k (sweepOf book order).fills) :
    book.Executed order x.1 x.2 := by
  obtain ⟨amount, ts, hmem, hx'⟩ := exists_of_mem_executions hx
  have hrested : x.2 ∈ book.restingOn order.side.opposite := fst_mem_of_mem_fills _ _ _ hmem
  have hquantity : (UInt32.ofNat amount).toNat = amount := UInt32.toNat_ofNat_of_lt' (fill_lt hmem)
  have hpos : 0 < amount := fills_pos weight reduceBy _
    (fun a ha => UInt32.lt_iff_toNat_lt.mp (h.orders _ a ha).2.2.2) hmem
  have hle : amount ≤ x.2.2.order.quantity.toNat := snd_le_weight _ _ _ hmem
  rw [hx']
  refine ⟨hrested, (party_branchOf hs _ _ _ _).1, (party_branchOf hs _ _ _ _).2, ?_, ?_, ?_⟩
  · rw [price_branchOf]
    exact (h.orders _ _ hrested).2.2.1.symm
  · rw [quantity_branchOf, UInt32.lt_iff_toNat_lt, hquantity]
    exact hpos
  · rw [quantity_branchOf, UInt32.le_iff_toNat_le, hquantity]
    exact hle

/-- All makers but the last are filled completely; the last may be filled in part, and
then so is the incoming order. -/
theorem Inv.filledOut_or_part (h : book.Inv)
    (hids : (book.resting.map fun a => a.2.order.id).Nodup) {order : Order}
    (hnew : ¬ book.Rests order.id) {now : Clock} {trades : List Trade} {r : Matched}
    (hr : Serves now book order trades r) {k : ℕ} :
    (∀ x ∈ (executions now (branchOf order) k (sweepOf book order).fills).dropLast,
      FilledOut r.book x.1 x.2) ∧
    ∀ x ∈ executions now (branchOf order) k (sweepOf book order).fills,
      FilledOut r.book x.1 x.2 ∨
        FilledInPart r.book order.side.opposite x.1 x.2 ∧ r.remaining = 0 := by
  -- the executions with the makers that are gone
  have hgone : ∀ x ∈ executions now (branchOf order) k
      ((sweepOf book order).gone.map fun a => (a, weight a)), FilledOut r.book x.1 x.2 := by
    intro x hx
    obtain ⟨amount, ts, hmem, hx'⟩ := exists_of_mem_executions hx
    obtain ⟨a, ha, hxa⟩ := List.mem_map.mp hmem
    obtain ⟨rfl, rfl⟩ := Prod.mk.inj hxa
    refine ⟨?_, h.gone_of_serves hids hnew hr ha⟩
    rw [hx', quantity_branchOf]
    exact UInt32.ofNat_toNat
  rcases fills_eq weight reduceBy (fun a => (branchOf order).blocked a.1)
    (book.restingOn order.side.opposite) order.quantity.toNat with
    hall | ⟨a, m, hlt, hmet, hhead, hlast⟩
  · have hall' : (sweepOf book order).fills = _ := hall
    rw [hall']
    exact ⟨fun x hx => hgone x ((List.dropLast_sublist _).subset hx),
      fun x hx => Or.inl (hgone x hx)⟩
  · have hlast' : (sweepOf book order).fills = _ := hlast
    rw [hlast', executions_append]
    refine ⟨fun x hx => ?_, fun x hx => ?_⟩
    · rw [executions_singleton, List.dropLast_concat] at hx
      exact hgone x hx
    · rcases List.mem_append.mp hx with hx | hx
      · exact Or.inl (hgone x hx)
      · rw [executions_singleton, List.mem_singleton] at hx
        have hm : (UInt32.ofNat m).toNat = m :=
          UInt32.toNat_ofNat_of_lt' (Nat.lt_trans hlt a.2.order.quantity.toNat_lt)
        refine Or.inr ⟨⟨?_, ?_⟩, UInt32.toNat_inj.mp (hr.remaining.trans hmet)⟩
        · rw [hx, quantity_branchOf, UInt32.lt_iff_toNat_lt, hm]
          exact hlt
        · rw [hx, quantity_branchOf, hm, hr.opposite]
          exact hhead

end OrderBook

open OrderBook in
/-- **Limit protection and maximal execution.**  For every book in order whose resting
orders have distinct ids, and every valid order with an id that does not rest: each trade
is made at the price of its maker, within the limit, the makers are the first orders of the
other side, each once, and prices do not get better from one trade to the next; what is
traded and what remains add up to the quantity of the order; all makers but the last are
filled completely and leave book and index, and a maker that is filled in part stays first
of its side with the rest of its quantity and has filled the order; and if the order is not
filled, nothing is left that it could trade with. -/
theorem limit_protection {book : OrderBook} (h : book.Inv)
    (hids : (book.resting.map fun a => a.2.order.id).Nodup) {order : Order}
    (hc : order.Constructed) (hp : order.Proper) (hnew : ¬ book.Rests order.id) (now : Clock)
    (trades : List Trade) :
    ∃ (r : Matched) (made : List (Trade × (Price × Node))),
      matchOrder now book order trades = .ok r ∧ r.trades = trades ++ made.map Prod.fst ∧
      (∀ x ∈ made, Executed book order x.1 x.2) ∧
      made.map Prod.snd <+: book.restingOn order.side.opposite ∧
      (order.orderType = .LIMIT → ∀ x ∈ made, (order.side = .BID → x.1.price ≤ order.price) ∧
        (order.side = .ASK → order.price ≤ x.1.price)) ∧
      (order.side = .BID → (made.map Prod.fst).Pairwise fun t t' => t.price ≤ t'.price) ∧
      (order.side = .ASK → (made.map Prod.fst).Pairwise fun t t' => t'.price ≤ t.price) ∧
      volume (made.map Prod.fst) + r.remaining.toNat = order.quantity.toNat ∧
      (∀ x ∈ made.dropLast, FilledOut r.book x.1 x.2) ∧
      (∀ x ∈ made, FilledOut r.book x.1 x.2 ∨
        FilledInPart r.book order.side.opposite x.1 x.2 ∧ r.remaining = 0) ∧
      (r.remaining ≠ 0 → r.book.restingOn order.side.opposite = [] ∨
        order.orderType = .LIMIT ∧ r.book.CrossesNothing order) := by
  have hs : order.side.IsProper := hp.1
  obtain ⟨r, heq, hr⟩ := matchOrder_serves hc hs now book trades
  have hsorted := tradesFrom_sorted book order now trades.length
  rw [← map_fst_executions] at hsorted
  refine ⟨r, executions now (branchOf order) trades.length (sweepOf book order).fills, heq, ?_,
    fun x hx => h.executed hs hx, ?_, fun hl x hx => ?_, fun hb => ?_, fun hb => ?_, ?_, ?_, ?_,
    fun hrem => ?_⟩
  · rw [map_fst_executions]
    exact hr.trades
  · rw [map_snd_executions]
    exact prefix_map_fst_fills _ _ _ _ _
  · -- the walk was not blocked at the price of the trade
    obtain ⟨amount, ts, hmem, hx'⟩ := exists_of_mem_executions hx
    have hreach : ¬ order.side.opposite.Ahead order.price x.1.price := by
      rw [hx', price_branchOf]
      intro hahead
      have hblocked := (blocked_branchOf hs x.2.1).mpr ⟨hl, hahead⟩
      have hfree : (branchOf order).blocked x.2.1 = false := stop_of_mem_fills _ _ _ hmem
      rw [hfree] at hblocked
      exact absurd hblocked Bool.false_ne_true
    refine ⟨fun hb => ?_, fun hb => ?_⟩
    · rw [hb, Side.opposite_BID, Side.ahead_ASK] at hreach
      exact UInt64.not_lt.mp hreach
    · rw [hb, Side.opposite_ASK, Side.ahead_BID] at hreach
      exact UInt64.not_lt.mp hreach
  · refine hsorted.imp fun hnot => ?_
    rw [hb, Side.opposite_BID, Side.ahead_ASK] at hnot
    exact UInt64.not_lt.mp hnot
  · refine hsorted.imp fun hnot => ?_
    rw [hb, Side.opposite_ASK, Side.ahead_BID] at hnot
    exact UInt64.not_lt.mp hnot
  · rw [map_fst_executions]
    exact hr.sum_made trades.length
  · exact (h.filledOut_or_part hids hnew hr).1
  · exact (h.filledOut_or_part hids hnew hr).2
  · refine crossesNothing_of_unmet hs hr h.noEmpty ?_
    rw [← hr.remaining]
    exact Nat.pos_of_ne_zero fun hzero => hrem (UInt32.toNat_inj.mp hzero)

open OrderBook in
/-- An ask of five at 101 and one of three at 100. -/
def twoAsks : OrderBook :=
  empty.run [.matchOrder (fun _ => 0) ⟨0, 1, 101, 5, .ASK, .LIMIT⟩,
    .matchOrder (fun _ => 0) ⟨0, 2, 100, 3, .ASK, .LIMIT⟩]

theorem twoAsks_valid : twoAsks.Valid := OrderBook.Valid.run (by decide)

open OrderBook in
/-- A bid of six takes the three of the better of two asks and three of the five of the
other, which stays with two. -/
theorem limit_protection_bid :
    ∃ (r : Matched) (made : List (Trade × (Price × Node))),
      matchOrder (fun _ => 0) twoAsks ⟨0, 3, 101, 6, .BID, .LIMIT⟩ [] = .ok r ∧
      made.map Prod.fst = [⟨100, 3, 2, 3, 0⟩, ⟨101, 3, 1, 3, 0⟩] ∧
      ((made.map Prod.fst).Pairwise fun t t' => t.price ≤ t'.price) ∧
      volume (made.map Prod.fst) + r.remaining.toNat = 6 ∧ r.remaining = 0 ∧
      r.book.resting = [(101, ⟨0, 0, 1, 101, 2, .ASK, .LIMIT⟩)] ∧
      (∀ x ∈ made.dropLast, FilledOut r.book x.1 x.2) ∧
      ∀ x ∈ made, FilledOut r.book x.1 x.2 ∨
        FilledInPart r.book .ASK x.1 x.2 ∧ r.remaining = 0 := by
  have hc : (⟨0, 3, 101, 6, .BID, .LIMIT⟩ : Order).Constructed := by decide
  obtain ⟨r, made, heq, htrades, -, -, -, hsorted, -, hsum, hall, hpart, -⟩ :=
    limit_protection twoAsks_valid.inv (by decide +kernel) hc (by decide) (by decide +kernel)
      (fun _ => 0) []
  have heval : (matchOrder (fun _ => 0) twoAsks ⟨0, 3, 101, 6, .BID, .LIMIT⟩ []).toOption.map
      (fun r => (r.trades, r.remaining, r.book.resting))
      = some ([⟨100, 3, 2, 3, 0⟩, ⟨101, 3, 1, 3, 0⟩], 0,
        [(101, ⟨0, 0, 1, 101, 2, .ASK, .LIMIT⟩)]) := by decide +kernel
  rw [heq] at heval
  simp only [Except.toOption, Option.map_some, Option.some.injEq, Prod.mk.injEq] at heval
  obtain ⟨hmade, hrem, hrests⟩ := heval
  rw [htrades, List.nil_append] at hmade
  exact ⟨r, made, heq, hmade, hsorted rfl, hsum, hrem, hrests, hall, hpart⟩

end Exchange
