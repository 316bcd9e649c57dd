import Exchange.Book.Cancel

/-!
# The mirror image of the book

Every operation of the engine is written twice, for bids and for asks, with comparisons and
fields exchanged.  The mirror image of a book exchanges its sides and turns the order of its
prices around: a price `p` becomes `2^64 - p`.  The operations on the mirror image are the
mirror images of the operations.

## Main definitions

* `mirrorPrice`, `Order.mirror`, `Trade.mirror`, `OrderBook.mirror` — mirror images.
* `OrderBook.untimed` — a book without the timestamps of its orders.

## Main results

* `OrderBook.Valid.mirror_addOrder`, `OrderBook.Valid.mirror_cancelOrder` — `add_order` and
  `cancel_order` commute with the mirror.
* `MatchingEngine.sweepOf_mirror` — so does the walk over the opposite side.
* `mirror_image` — the two halves of the engine are mirror images.
-/

namespace Exchange

open MatchingEngine

/-! ### Mirror images -/

/-- The mirror image of a price: `2^64 - p`, and zero of zero. -/
def mirrorPrice (p : Price) : Price := -p

/-- The mirror image of an order. -/
def Order.mirror (o : Order) : Order :=
  { o with price := mirrorPrice o.price, side := o.side.opposite }

/-- The mirror image of a trade. -/
def Trade.mirror (t : Trade) : Trade :=
  { t with
    price := mirrorPrice t.price
    buyerOrderId := t.sellerOrderId
    sellerOrderId := t.buyerOrderId }

/-- The mirror image of a list node. -/
def Node.mirror (n : Node) : Node := { n with order := n.order.mirror }

/-- The mirror image of an index entry. -/
def OrderLocation.mirror (loc : OrderLocation) : OrderLocation :=
  { loc with side := loc.side.opposite, price := mirrorPrice loc.price }

/-- The mirror image of a resting order. -/
def mirrorEntry (a : Price × Node) : Price × Node := (mirrorPrice a.1, a.2.mirror)

@[simp] theorem mirrorPrice_mirrorPrice (p : Price) : mirrorPrice (mirrorPrice p) = p :=
  UInt64.neg_neg

theorem toNat_mirrorPrice {p : Price} (hp : 0 < p) :
    (mirrorPrice p).toNat = 2 ^ 64 - p.toNat := by
  have hpos : 0 < p.toNat := UInt64.lt_iff_toNat_lt.mp hp
  rw [mirrorPrice, UInt64.toNat_neg]
  exact Nat.mod_eq_of_lt (Nat.sub_lt (Nat.two_pow_pos 64) hpos)

theorem mirrorPrice_pos {p : Price} (hp : 0 < p) : 0 < mirrorPrice p := by
  rw [UInt64.lt_iff_toNat_lt, toNat_mirrorPrice hp]
  exact Nat.sub_pos_of_lt p.toNat_lt

/-- The mirror turns the order of prices around. -/
theorem mirrorPrice_lt_iff {p q : Price} (hp : 0 < p) (hq : 0 < q) :
    mirrorPrice p < mirrorPrice q ↔ q < p := by
  have hp' := p.toNat_lt
  have hq' := q.toNat_lt
  rw [UInt64.lt_iff_toNat_lt, toNat_mirrorPrice hp, toNat_mirrorPrice hq, UInt64.lt_iff_toNat_lt]
  omega

namespace Side

/-- A price is ahead on a side when its mirror image is on the other. -/
theorem ahead_opposite_iff {side : Side} (hs : side.IsProper) {p q : Price} (hp : 0 < p)
    (hq : 0 < q) : side.opposite.Ahead (mirrorPrice p) (mirrorPrice q) ↔ side.Ahead p q := by
  rcases hs with rfl | rfl
  · rw [opposite_BID, ahead_ASK, ahead_BID, mirrorPrice_lt_iff hp hq]
  · rw [opposite_ASK, ahead_ASK, ahead_BID, mirrorPrice_lt_iff hq hp]

end Side

@[simp] theorem OrderLocation.mirror_mirror (loc : OrderLocation) : loc.mirror.mirror = loc := by
  simp [OrderLocation.mirror]

/-- The mirror image of an entry points to the mirror image of an order exactly when the
entry points to the order. -/
theorem OrderLocation.mirror_eq_iff {loc : OrderLocation} {side : Side} {a : Price × Node} :
    loc.mirror = ⟨side, (mirrorEntry a).1, (mirrorEntry a).2.pos⟩ ↔
      loc = ⟨side.opposite, a.1, a.2.pos⟩ := by
  have hentry : (⟨side, (mirrorEntry a).1, (mirrorEntry a).2.pos⟩ : OrderLocation)
      = OrderLocation.mirror ⟨side.opposite, a.1, a.2.pos⟩ := by
    simp [OrderLocation.mirror, mirrorEntry, Node.mirror]
  have hinj : Function.Injective OrderLocation.mirror :=
    Function.Involutive.injective OrderLocation.mirror_mirror
  rw [hentry, hinj.eq_iff]

@[simp] theorem mirrorEntry_mirrorEntry (a : Price × Node) : mirrorEntry (mirrorEntry a) = a := by
  simp [mirrorEntry, Node.mirror, Order.mirror]

theorem Order.Constructed.mirror {order : Order} (h : order.Constructed) :
    order.mirror.Constructed := by
  obtain ⟨hl, hm, hq⟩ := Order.constructed_iff.mp h
  refine Order.constructed_iff.mpr ⟨fun ht => mirrorPrice_pos (hl ht), fun ht => ?_, hq⟩
  show mirrorPrice order.price = 0
  rw [hm ht]
  rfl

namespace OrderBook

/-- The mirror image of a book.  There is no mirror image of a level at price zero, which
no valid book has. -/
def mirror (book : OrderBook) : OrderBook where
  bids := book.asks.relabel (fun p => 0 < p) mirrorPrice
    (fun _ _ ha hb hlt =>
      (mirrorPrice_lt_iff (of_decide_eq_true hb) (of_decide_eq_true ha)).mpr hlt)
    (List.map Node.mirror)
  asks := book.bids.relabel (fun p => 0 < p) mirrorPrice
    (fun _ _ ha hb hlt =>
      (mirrorPrice_lt_iff (of_decide_eq_true ha) (of_decide_eq_true hb)).mpr hlt)
    (List.map Node.mirror)
  orderMap id := (book.orderMap id).map OrderLocation.mirror
  nextPos := book.nextPos

variable {book book' : OrderBook}

theorem NoEmptyLevels.mirror (h : book.NoEmptyLevels) : book.mirror.NoEmptyLevels :=
  ⟨h.2.relabel _ _ _ _, h.1.relabel _ _ _ _⟩

/-- **The queues of the mirror image** of a valid book. -/
theorem Valid.restingOn_mirror (h : book.Valid) (side : Side) :
    book.mirror.restingOn side = (book.restingOn side.opposite).map mirrorEntry := by
  have hpos : ∀ side, ∀ a ∈ book.restingOn side, 0 < a.1 := fun _ _ => h.price_pos
  by_cases hs : side.IsProper
  · rcases hs with rfl | rfl
    · refine SortedMap.flatten_relabel _ _ _ (fun a ha => ?_) _
      exact decide_eq_true (hpos .ASK a ha)
    · refine SortedMap.flatten_relabel _ _ _ (fun a ha => ?_) _
      exact decide_eq_true (hpos .BID a ha)
  · rw [restingOn_of_not_isProper _ hs, Side.opposite_of_not_isProper hs,
      restingOn_of_not_isProper _ hs]
    rfl

theorem Valid.resting_mirror_perm (h : book.Valid) :
    book.mirror.resting.Perm (book.resting.map mirrorEntry) := by
  rw [resting_eq, h.restingOn_mirror, h.restingOn_mirror, resting_eq, List.map_append]
  exact List.perm_append_comm

/-- The mirror image of a valid book is valid. -/
theorem Valid.mirror (h : book.Valid) : book.mirror.Valid := by
  refine ⟨⟨h.inv.noEmpty.mirror, fun side a ha => ?_, fun id loc hloc => ?_, fun a ha => ?_, ?_⟩,
    fun a ha => ?_⟩
  · rw [h.restingOn_mirror] at ha
    obtain ⟨b, hb, rfl⟩ := List.mem_map.mp ha
    obtain ⟨htype, hside, hprice, hquantity⟩ := h.inv.orders _ b hb
    refine ⟨htype, ?_, congrArg mirrorPrice hprice, hquantity⟩
    show b.2.order.side.opposite = side
    rw [hside, Side.opposite_opposite]
  · obtain ⟨loc', hloc', rfl⟩ := Option.map_eq_some_iff.mp hloc
    obtain ⟨n, hn, hpos, hid⟩ := h.inv.index id loc' hloc'
    refine ⟨n.mirror, ?_, hpos, hid⟩
    rw [h.restingOn_mirror]
    refine List.mem_map.mpr ⟨(loc'.price, n), ?_, rfl⟩
    show _ ∈ book.restingOn loc'.side.opposite.opposite
    rw [Side.opposite_opposite]
    exact hn
  · obtain ⟨b, hb, rfl⟩ := List.mem_map.mp (h.resting_mirror_perm.mem_iff.mp ha)
    exact h.inv.fresh b hb
  · rw [(h.resting_mirror_perm.map _).nodup_iff, List.map_map]
    exact h.inv.distinct
  · obtain ⟨b, hb, rfl⟩ := List.mem_map.mp (h.resting_mirror_perm.mem_iff.mp ha)
    exact (h.constructed b hb).mirror

/-- The mirror image of the mirror image is the book. -/
theorem Valid.mirror_mirror (h : book.Valid) : book.mirror.mirror = book := by
  refine ext_resting h.mirror.inv.noEmpty.mirror h.inv.noEmpty (fun side => ?_) ?_ rfl
  · rw [h.mirror.restingOn_mirror, h.restingOn_mirror, Side.opposite_opposite, List.map_map]
    simp [Function.comp_def]
  · funext id
    simp [OrderBook.mirror, Function.comp_def]

/-! ### The operations of the book -/

/-- The best bid of the mirror image is the mirror image of the best ask. -/
theorem Valid.bestBid_mirror (h : book.Valid) :
    book.mirror.bestBid = book.bestAsk.map mirrorPrice := by
  rw [bestBid, bestAsk, h.mirror.inv.noEmpty.1.begin_map_fst, h.inv.noEmpty.2.begin_map_fst,
    ← restingOn_BID, h.restingOn_mirror, List.head?_map, Option.map_map, Option.map_map]
  rfl

/-- The best ask of the mirror image is the mirror image of the best bid. -/
theorem Valid.bestAsk_mirror (h : book.Valid) :
    book.mirror.bestAsk = book.bestBid.map mirrorPrice := by
  rw [bestBid, bestAsk, h.mirror.inv.noEmpty.2.begin_map_fst, h.inv.noEmpty.1.begin_map_fst,
    ← restingOn_ASK, h.restingOn_mirror, List.head?_map, Option.map_map, Option.map_map]
  rfl

/-- **`add_order` commutes with the mirror.** -/
theorem Valid.mirror_addOrder (h : book.Valid) {order : Order} (hc : order.Constructed) :
    book.mirror.addOrder order.mirror = (book.addOrder order).mirror := by
  by_cases hadd : order.orderType = .LIMIT ∧ order.side.IsProper
  · obtain ⟨hl, hs⟩ := hadd
    have hi := addOrder_inserts book hl hs
    have hi' : book.mirror.Inserts order.mirror (book.mirror.addOrder order.mirror) :=
      addOrder_inserts book.mirror hl hs.opposite
    have hvalid := h.inserts hi hc hl hs
    have hprice : 0 < order.price := (Order.constructed_iff.mp hc).1 hl
    refine ext_resting (hi'.noEmpty h.mirror.inv.noEmpty) hvalid.inv.noEmpty.mirror
      (fun side => ?_) ?_ (hi'.nextPos.trans hi.nextPos.symm)
    · rw [hvalid.restingOn_mirror]
      by_cases hside : side = order.mirror.side
      · -- the two queues are cut at the same place
        have hahead : ∀ a ∈ book.restingOn order.side,
            order.mirror.side.Ahead order.mirror.price (mirrorEntry a).1
              ↔ order.side.Ahead order.price a.1 := fun a ha =>
          Side.ahead_opposite_iff hs hprice (h.price_pos ha)
        have hopp : order.mirror.side.opposite = order.side := Side.opposite_opposite order.side
        rw [hside, hi'.queue_eq, h.restingOn_mirror, hopp, hi.queue_eq, List.filter_map,
          List.filter_map, List.map_append, List.map_cons]
        congr 1
        · congr 1
          exact List.filter_congr fun a ha => decide_eq_decide.mpr (not_congr (hahead a ha))
        · congr 2
          exact List.filter_congr fun a ha => decide_eq_decide.mpr (hahead a ha)
      · rw [hi'.other side hside, h.restingOn_mirror, hi.other]
        intro hopp
        exact hside (by rw [← Side.opposite_opposite side, hopp]; rfl)
    · show _ = Option.map OrderLocation.mirror ∘ (book.addOrder order).orderMap
      rw [hi'.orderMap, hi.orderMap, Function.comp_update]
      rfl
  · have hadd' : ¬ (order.mirror.orderType = .LIMIT ∧ order.mirror.side.IsProper) := by
      rintro ⟨hl, hs⟩
      refine hadd ⟨hl, ?_⟩
      rw [← Side.opposite_opposite order.side]
      exact hs.opposite
    rw [addOrder_ignored _ hadd, addOrder_ignored _ hadd']

/-- **`cancel_order` commutes with the mirror.** -/
theorem Valid.mirror_cancelOrder (h : book.Valid) (id : OrderId) :
    book.mirror.cancelOrder id = (book.cancelOrder id).map OrderBook.mirror := by
  cases hloc : book.orderMap id with
  | none =>
    have hloc' : book.mirror.orderMap id = none := by
      show (book.orderMap id).map _ = none
      rw [hloc]
      rfl
    rw [cancelOrder_of_none hloc, cancelOrder_of_none hloc']
    rfl
  | some loc =>
    have hloc' : book.mirror.orderMap id = some loc.mirror := by
      show (book.orderMap id).map _ = _
      rw [hloc]
      rfl
    obtain ⟨-, b, -, -, heq, -⟩ := h.inv.cancelOrder_eq_ok hloc
    obtain ⟨-, b', -, -, heq', -⟩ := h.mirror.inv.cancelOrder_eq_ok hloc'
    have hstep : book.step (.cancelOrder id) = b := by
      rw [OrderBook.step, heq]
      rfl
    have hstep' : book.mirror.step (.cancelOrder id) = b' := by
      rw [OrderBook.step, heq']
      rfl
    -- each queue loses the one node that the entry points to
    obtain ⟨hqueue, hmap, hpos⟩ := h.inv.restingOn_cancel id
    obtain ⟨hqueue', hmap', hpos'⟩ := h.mirror.inv.restingOn_cancel id
    have hvalid : b.Valid := hstep ▸ h.step (c := .cancelOrder id) trivial
    have hvalid' : b'.Valid := hstep' ▸ h.mirror.step (c := .cancelOrder id) trivial
    rw [hstep] at hqueue hmap hpos
    rw [hstep'] at hqueue' hmap' hpos'
    rw [heq, heq']
    refine congrArg Except.ok (ext_resting hvalid'.inv.noEmpty hvalid.inv.noEmpty.mirror
      (fun side => ?_) ?_ (hpos'.trans hpos.symm))
    · rw [hqueue', hvalid.restingOn_mirror, hqueue, h.restingOn_mirror, List.filter_map]
      congr 1
      refine List.filter_congr fun a _ => decide_eq_decide.mpr (not_congr ?_)
      rw [hloc, hloc', Option.some.injEq, Option.some.injEq]
      exact OrderLocation.mirror_eq_iff
    · show b'.orderMap = Option.map OrderLocation.mirror ∘ b.orderMap
      rw [hmap', hmap, Function.comp_update]
      rfl

end OrderBook

/-! ### The walk -/

namespace MatchingEngine

variable {book : OrderBook}

/-- The walk of the mirror image of an order is blocked at the mirror images of prices. -/
theorem blocked_mirror {order : Order} (hc : order.Constructed) (hs : order.side.IsProper)
    {p : Price} (hp : 0 < p) :
    (branchOf order.mirror).blocked (mirrorPrice p) = (branchOf order).blocked p := by
  rw [Bool.eq_iff_iff, blocked_branchOf hs, blocked_branchOf hs.opposite]
  refine and_congr_right fun hl => ?_
  exact Side.ahead_opposite_iff hs.opposite ((Order.constructed_iff.mp hc).1 hl) hp

theorem trade_mirror {order : Order} (hs : order.side.IsProper) (p : Price) (o : Order)
    (q : Quantity) (ts : Timestamp) :
    (branchOf order.mirror).trade (mirrorPrice p) o.mirror q ts
      = ((branchOf order).trade p o q ts).mirror := by
  unfold branchOf
  rcases hs with hs | hs
  · have hs' : order.mirror.side = .ASK := by rw [Order.mirror, hs]; rfl
    rw [if_pos hs, if_neg (by rw [hs']; exact Side.ASK_ne_BID)]
    rfl
  · have hs' : order.mirror.side = .BID := by rw [Order.mirror, hs]; rfl
    rw [if_pos hs', if_neg (by rw [hs]; exact Side.ASK_ne_BID)]
    rfl

/-- The trades of the mirror image of a walk, timestamps aside. -/
theorem tradesFrom_mirror {order : Order} (hs : order.side.IsProper) (now now' : Clock)
    (k k' : ℕ) (fills : List ((Price × Node) × ℕ)) :
    (tradesFrom now' (branchOf order.mirror) k'
        (fills.map fun f => (mirrorEntry f.1, f.2))).map Trade.untimed
      = ((tradesFrom now (branchOf order) k fills).map Trade.mirror).map Trade.untimed := by
  have hcomm : ∀ trades : List Trade, (trades.map Trade.mirror).map Trade.untimed
      = (trades.map Trade.untimed).map Trade.mirror := by
    intro trades
    rw [List.map_map, List.map_map]
    rfl
  rw [hcomm, map_untimed_tradesFrom, map_untimed_tradesFrom, List.map_map, List.map_map]
  exact List.map_congr_left fun f _ => trade_mirror hs _ _ _ _

/-- **The walk over the mirror image** is the mirror image of the walk. -/
theorem sweepOf_mirror (h : book.Valid) {order : Order} (hc : order.Constructed)
    (hs : order.side.IsProper) :
    sweepOf book.mirror order.mirror =
      ⟨(sweepOf book order).fills.map fun f => (mirrorEntry f.1, f.2),
        (sweepOf book order).gone.map mirrorEntry, (sweepOf book order).left.map mirrorEntry,
        (sweepOf book order).unmet⟩ := by
  have hqueue : book.mirror.restingOn order.mirror.side.opposite
      = (book.restingOn order.side.opposite).map mirrorEntry := by
    rw [h.restingOn_mirror]
    show (book.restingOn order.side.opposite.opposite.opposite).map _ = _
    rw [Side.opposite_opposite]
  rw [sweepOf, hqueue]
  refine sweep_map weight reduceBy (fun a => (branchOf order).blocked a.1) mirrorEntry
    (fun _ => rfl) (fun _ _ _ => rfl) _ (fun a ha => ?_) _
  exact blocked_mirror hc hs (h.price_pos ha)

/-- The book between the walk and the remainder. -/
theorem Takes.mirror (h : book.Valid) {order : Order} (hc : order.Constructed)
    (hs : order.side.IsProper) {mid mid' : OrderBook} (ht : Takes book order mid)
    (ht' : Takes book.mirror order.mirror mid') : mid' = mid.mirror := by
  have hsweep := sweepOf_mirror h hc hs
  have hvalid := h.takes ht
  refine OrderBook.ext_resting (ht'.noEmpty h.mirror.inv.noEmpty) hvalid.inv.noEmpty.mirror
    (fun side => ?_) ?_ (ht'.nextPos.trans ht.nextPos.symm)
  · rw [hvalid.restingOn_mirror]
    by_cases hside : side = order.mirror.side.opposite
    · have hopp : order.mirror.side.opposite.opposite = order.side.opposite :=
        Side.opposite_opposite order.side.opposite
      rw [hside, ht'.queue, hsweep, hopp, ht.queue]
    · rw [ht'.other side hside, h.restingOn_mirror, ht.other]
      intro hopp
      refine hside ?_
      rw [← Side.opposite_opposite side, hopp]
      rfl
  · rw [ht'.orderMap, hsweep]
    funext id
    show _ = (mid.orderMap id).map OrderLocation.mirror
    rw [ht.orderMap]
    simp only [eraseAll, List.map_map]
    -- the ids that are erased are the same
    show (if id ∈ (sweepOf book order).gone.map (fun a => a.2.order.id) then none
      else (book.orderMap id).map OrderLocation.mirror) = _
    split <;> rfl

end MatchingEngine

/-! ### Timestamps -/

/-- A list node without the timestamp of its order. -/
def Node.untimed (n : Node) : Node := { n with order := n.order.untimed }

namespace OrderBook

variable {book : OrderBook}

/-- A book without the timestamps of its orders. -/
def untimed (book : OrderBook) : OrderBook where
  bids := book.bids.relabel (fun _ => true) id (fun _ _ _ _ h => h) (List.map Node.untimed)
  asks := book.asks.relabel (fun _ => true) id (fun _ _ _ _ h => h) (List.map Node.untimed)
  orderMap := book.orderMap
  nextPos := book.nextPos

theorem NoEmptyLevels.untimed (h : book.NoEmptyLevels) : book.untimed.NoEmptyLevels :=
  ⟨h.1.relabel _ _ _ _, h.2.relabel _ _ _ _⟩

theorem restingOn_untimed (book : OrderBook) (side : Side) :
    book.untimed.restingOn side
      = (book.restingOn side).map fun a => (a.1, a.2.untimed) := by
  by_cases hs : side.IsProper
  · rcases hs with rfl | rfl
    · exact SortedMap.flatten_relabel _ _ _ (fun _ _ => rfl) _
    · exact SortedMap.flatten_relabel _ _ _ (fun _ _ => rfl) _
  · rw [restingOn_of_not_isProper _ hs, restingOn_of_not_isProper _ hs]
    rfl

/-- `add_order` does not read timestamps. -/
theorem untimed_addOrder (h : book.NoEmptyLevels) (order : Order) :
    (book.addOrder order).untimed = book.untimed.addOrder order.untimed := by
  by_cases hadd : order.orderType = .LIMIT ∧ order.side.IsProper
  · have hi := addOrder_inserts book hadd.1 hadd.2
    have hi' : book.untimed.Inserts order.untimed (book.untimed.addOrder order.untimed) :=
      addOrder_inserts book.untimed hadd.1 hadd.2
    refine ext_resting (hi.noEmpty h).untimed (hi'.noEmpty h.untimed) (fun side => ?_)
      (hi.orderMap.trans hi'.orderMap.symm) (hi.nextPos.trans hi'.nextPos.symm)
    rw [restingOn_untimed]
    by_cases hside : side = order.side
    · rw [hside, hi.queue_eq]
      refine Eq.trans ?_ hi'.queue_eq.symm
      rw [restingOn_untimed, List.filter_map, List.filter_map, List.map_append, List.map_cons]
      rfl
    · rw [hi.other side hside, hi'.other side hside, restingOn_untimed]
  · have hadd' : ¬ (order.untimed.orderType = .LIMIT ∧ order.untimed.side.IsProper) := hadd
    rw [addOrder_ignored book hadd, addOrder_ignored book.untimed hadd']

end OrderBook

/-! ### The two halves of the engine -/

/-- **The bid half and the ask half of the engine are mirror images.**  On every valid book:
`match` of the mirror image of a valid order on the mirror image of the book gives the
mirror images of the trades and of the resulting book, timestamps aside; and so do
`add_order`, `cancel_order`, `best_bid` and `best_ask`. -/
theorem mirror_image {book : OrderBook} (h : book.Valid) :
    (∀ order : Order, order.Constructed → order.Proper → ∀ (now now' : Clock)
      (trades : List Trade), ∃ r r',
        matchOrder now book order trades = .ok r ∧
        matchOrder now' book.mirror order.mirror (trades.map Trade.mirror) = .ok r' ∧
        r'.trades.map Trade.untimed = (r.trades.map Trade.mirror).map Trade.untimed ∧
        r'.book.untimed = r.book.mirror.untimed ∧ r'.remaining = r.remaining) ∧
    (∀ order : Order, order.Constructed →
      book.mirror.addOrder order.mirror = (book.addOrder order).mirror) ∧
    (∀ id, book.mirror.cancelOrder id = (book.cancelOrder id).map OrderBook.mirror) ∧
    book.mirror.bestBid = book.bestAsk.map mirrorPrice ∧
    book.mirror.bestAsk = book.bestBid.map mirrorPrice := by
  refine ⟨fun order hc hp now now' trades => ?_, fun order hc => h.mirror_addOrder hc,
    h.mirror_cancelOrder, h.bestBid_mirror, h.bestAsk_mirror⟩
  have hs : order.side.IsProper := hp.1
  have hsweep := sweepOf_mirror h hc hs
  have hunmet : (sweepOf book.mirror order.mirror).unmet = (sweepOf book order).unmet := by
    rw [hsweep]
  obtain ⟨r, heq, hr⟩ := matchOrder_serves hc hs now book trades
  obtain ⟨r', heq', hr'⟩ :=
    matchOrder_serves hc.mirror hs.opposite now' book.mirror (trades.map Trade.mirror)
  refine ⟨r, r', heq, heq', ?_, ?_, ?_⟩
  · rw [hr'.trades, hr.trades, hsweep, List.map_append, List.map_append, List.map_append,
      tradesFrom_mirror hs]
  · obtain ⟨mid, ts, ht, hbook⟩ := hr.result
    obtain ⟨mid', ts', ht', hbook'⟩ := hr'.result
    obtain rfl := Takes.mirror h hc hs ht ht'
    have hmid := h.takes ht
    have htype : order.mirror.orderType = order.orderType := rfl
    rw [hunmet, htype] at hbook'
    by_cases hrest : 0 < (sweepOf book order).unmet ∧ order.orderType = .LIMIT
    · -- the two remainders differ in their timestamps only
      have hrem := OrderBook.constructed_remainder hc book ts hrest.1
      rw [hbook, hbook', if_pos hrest, if_pos hrest, ← hmid.mirror_addOrder hrem,
        OrderBook.untimed_addOrder hmid.inv.noEmpty.mirror,
        OrderBook.untimed_addOrder hmid.inv.noEmpty.mirror]
      rfl
    · rw [hbook, hbook', if_neg hrest, if_neg hrest]
  · refine UInt32.toNat_inj.mp ?_
    rw [hr'.remaining, hr.remaining, hunmet]

open OrderBook in
/-- An ask that takes from the mirror image of two asks. -/
theorem mirror_image_ask :
    ∃ r r',
      matchOrder (fun _ => 0) (empty.run
          [.matchOrder (fun _ => 0) ⟨0, 1, 101, 5, .ASK, .LIMIT⟩,
            .matchOrder (fun _ => 0) ⟨0, 2, 100, 3, .ASK, .LIMIT⟩])
        ⟨0, 3, 101, 6, .BID, .LIMIT⟩ [] = .ok r ∧
      matchOrder (fun _ => 1) (empty.run
          [.matchOrder (fun _ => 0) ⟨0, 1, 101, 5, .ASK, .LIMIT⟩,
            .matchOrder (fun _ => 0) ⟨0, 2, 100, 3, .ASK, .LIMIT⟩]).mirror
        ⟨0, 3, mirrorPrice 101, 6, .ASK, .LIMIT⟩ [] = .ok r' ∧
      r'.book.untimed = r.book.mirror.untimed := by
  have hvalid : (empty.run [.matchOrder (fun _ => 0) ⟨0, 1, 101, 5, .ASK, .LIMIT⟩,
      .matchOrder (fun _ => 0) ⟨0, 2, 100, 3, .ASK, .LIMIT⟩]).Valid := Valid.run (by decide)
  obtain ⟨r, r', heq, heq', -, hbook, -⟩ := (mirror_image hvalid).1
    ⟨0, 3, 101, 6, .BID, .LIMIT⟩ (by decide) (by decide) (fun _ => 0) (fun _ => 1) []
  exact ⟨r, r', heq, heq', hbook⟩

end Exchange
