import Exchange.Book.Execution

/-!
# Cancels

A cancel goes through the index entry of its id: one node leaves its level, the level
leaves with it if it was the last one, and the entry is dropped.  Everything else stays as
it is, so that a cancel undoes the match that has just put its order on the book, and
cancels of different ids do not get in each other's way.

## Main definitions

* `OrderBook.CutsOut` — one node leaves one level, with the index entry of its id.

## Main results

* `OrderBook.Inv.cancelOrder_cutsOut` — what a cancel does to the levels.
* `OrderBook.Inv.restingOn_cancel` — what it does to the queues.
* `cancel_removes_one` — a cancel removes one order or nothing, undoes a match without
  trades, and commutes with the cancels of other ids.
-/

namespace Exchange

open MatchingEngine

namespace OrderBook

/-! ### What a cancel does to the levels -/

/-- `book'` is `book` without the node `n`, which stood between `A` and `B` in the level
that `loc` names, and without the index entry of `id`.  The level stays if and only if it
had another node. -/
structure CutsOut (book : OrderBook) (id : OrderId) (loc : OrderLocation) (n : Node)
    (book' : OrderBook) : Prop where
  level : ∃ pre post A B, book.levelsOn loc.side = pre ++ (loc.price, A ++ n :: B) :: post ∧
    book'.levelsOn loc.side = pre ++ (if A ++ B = [] then post else (loc.price, A ++ B) :: post) ∧
    ((∀ list, (loc.price, list) ∉ book'.levelsOn loc.side) ↔ A ++ B = [])
  other : ∀ side, side ≠ loc.side → book'.levelsOn side = book.levelsOn side
  orderMap : ∀ id', book'.orderMap id' = if id' = id then none else book.orderMap id'

section Levels

variable {lt : Price → Price → Prop} [DecidableRel lt] [IsStrictTotalOrder Price lt]

/-- Putting a changed queue back replaces its level, or drops it. -/
theorem toList_putBack (levels : Levels lt) (price : Price) :
    ∃ pre post, (∀ e ∈ pre ++ post, e.1 ≠ price) ∧
      (levels.getD price [] ≠ [] → levels.toList = pre ++ (price, levels.getD price []) :: post) ∧
      ∀ list, (putBack levels price list).toList
        = pre ++ if list = [] then post else (price, list) :: post := by
  obtain ⟨pre, post, hpre, hpost, hcase, hmod, herase⟩ := levels.toList_split price
  refine ⟨pre, post, fun e he hk => ?_, fun hne => ?_, fun list => ?_⟩
  · rcases List.mem_append.mp he with he | he
    · exact irrefl_of lt price (hk ▸ hpre e he)
    · exact irrefl_of lt price (hk ▸ hpost e he)
  · exact hcase.resolve_right fun hnil => hne hnil.2
  · cases list with
    | nil => rw [putBack, List.isEmpty_nil, if_pos rfl, SortedMap.erase_modify, herase, if_pos rfl]
    | cons n list => exact hmod fun _ => n :: list

/-- Erasing the position of a node cuts it out of its level. -/
theorem toList_eraseFrom {levels : Levels lt} {price : Price} {n : Node}
    (hn : (price, n) ∈ levels.flatten)
    (hdistinct : ∀ n', (price, n') ∈ levels.flatten → n'.pos = n.pos → n' = n) :
    ∃ levels' pre post A B, eraseFrom levels price n.pos = some levels' ∧
      levels.toList = pre ++ (price, A ++ n :: B) :: post ∧
      levels'.toList = pre ++ (if A ++ B = [] then post else (price, A ++ B) :: post) ∧
      ((∀ list, (price, list) ∉ levels'.toList) ↔ A ++ B = []) := by
  cases herase : eraseFrom levels price n.pos with
  | none => exact absurd rfl (eraseFrom_eq_none_iff.mp herase n hn)
  | some levels' =>
    obtain ⟨list, hlist, rfl⟩ := Option.map_eq_some_iff.mp herase
    obtain ⟨A, n', B, hpos, hget, rfl⟩ := eraseAt_eq_some hlist
    obtain ⟨pre, post, hkeys, hlevel, hput⟩ := toList_putBack levels price
    have hlevel' : levels.toList = pre ++ (price, A ++ n' :: B) :: post := by
      rw [hlevel (by rw [hget]; simp), hget]
    obtain rfl : n' = n := by
      refine hdistinct n' (SortedMap.mem_flatten.mpr ⟨A ++ n' :: B, ?_, by simp⟩) hpos
      rw [hlevel']
      simp
    refine ⟨_, pre, post, A, B, rfl, hlevel', hput _, ?_⟩
    -- the other levels have other prices
    rw [hput]
    constructor
    · intro hgone
      by_contra hne
      rw [if_neg hne] at hgone
      exact hgone (A ++ B) (List.mem_append_right _ List.mem_cons_self)
    · intro hnil list hmem
      rw [if_pos hnil] at hmem
      exact hkeys _ hmem rfl

end Levels

variable {book book' : OrderBook}

/-- **What a cancel does to the levels**: the node that the index entry points to is cut
out of its level. -/
theorem Inv.cancelOrder_cutsOut (h : book.Inv) {id : OrderId} {loc : OrderLocation}
    (hloc : book.orderMap id = some loc) :
    ∃ n book', book.cancelOrder id = .ok book' ∧ n.pos = loc.listPosition ∧ n.order.id = id ∧
      book.CutsOut id loc n book' := by
  obtain ⟨n, hn, hpos, hid⟩ := h.index id loc hloc
  have hupdate : ∀ id', Function.update book.orderMap id none id'
      = if id' = id then none else book.orderMap id' := fun id' => Function.update_apply _ _ _ _
  -- positions tell nodes apart
  have hdistinct : ∀ n', (loc.price, n') ∈ book.restingOn loc.side → n'.pos = n.pos → n' = n :=
    fun n' hn' hpos' => (Prod.mk.inj (h.eq_of_pos (mem_resting_iff.mpr ⟨_, hn'⟩)
      (mem_resting_iff.mpr ⟨_, hn⟩) hpos')).2
  rcases isProper_of_mem hn with hs | hs
  · rw [hs] at hn hdistinct
    obtain ⟨bids, pre, post, A, B, herase, hlist, hlist', hgone⟩ := toList_eraseFrom hn hdistinct
    rw [hpos] at herase
    refine ⟨n, { book with bids, orderMap := Function.update book.orderMap id none }, ?_, hpos,
      hid, ⟨pre, post, A, B, ?_, ?_, ?_⟩, fun side hside => ?_, hupdate⟩
    · simp only [cancelOrder, hloc, hs, Side.BID_ne_ASK, if_false, if_true, herase]
    · rw [hs]; exact hlist
    · rw [hs]; exact hlist'
    · rw [hs]; exact hgone
    · rw [hs] at hside
      simp only [levelsOn, if_neg hside]
  · rw [hs] at hn hdistinct
    obtain ⟨asks, pre, post, A, B, herase, hlist, hlist', hgone⟩ := toList_eraseFrom hn hdistinct
    rw [hpos] at herase
    refine ⟨n, { book with asks, orderMap := Function.update book.orderMap id none }, ?_, hpos,
      hid, ⟨pre, post, A, B, ?_, ?_, ?_⟩, fun side hside => ?_, hupdate⟩
    · simp only [cancelOrder, hloc, hs, if_true, herase]
    · rw [hs]; exact hlist
    · rw [hs]; exact hlist'
    · rw [hs]; exact hgone
    · rw [hs] at hside
      simp only [levelsOn, if_neg hside]

/-! ### What a cancel does to the queues -/

/-- The removal of the node that an index entry points to leaves it out of the queues. -/
theorem Inv.restingOn_removes (h : book.Inv) {id : OrderId} {loc : OrderLocation} {n : Node}
    (hr : book.Removes id loc.side loc.price n book') (hpos : n.pos = loc.listPosition)
    (side : Side) :
    book'.restingOn side = (book.restingOn side).filter
      fun a => some loc ≠ some ⟨side, a.1, a.2.pos⟩ := by
  by_cases hside : side = loc.side
  · subst hside
    obtain ⟨A, B, hA, hB⟩ := hr.queue
    -- the other nodes of the side have other positions
    have hdistinct : ∀ a ∈ A ++ B, a.2.pos ≠ n.pos := by
      have hd := h.distinct
      rw [((hr.resting_perm).map _).nodup_iff, List.map_cons, List.nodup_cons] at hd
      intro a ha heq
      refine hd.1 (List.mem_map.mpr ⟨a, ?_, heq⟩)
      rw [← hB] at ha
      exact mem_resting_iff.mpr ⟨_, ha⟩
    have hkeep : ∀ a ∈ A ++ B, decide (some loc ≠ some ⟨loc.side, a.1, a.2.pos⟩) = true := by
      intro a ha
      rw [decide_eq_true_eq]
      intro heq
      refine hdistinct a ha ?_
      rw [hpos, congrArg OrderLocation.listPosition (Option.some.inj heq)]
    have hcut : decide (some loc ≠ some ⟨loc.side, loc.price, n.pos⟩) = false := by
      rw [decide_eq_false_iff_not, hpos]
      exact fun hne => hne rfl
    rw [hB, hA, List.filter_append, List.filter_cons_of_neg (by rw [hcut]; simp),
      ← List.filter_append, List.filter_eq_self.mpr hkeep]
  · rw [hr.other side hside, List.filter_eq_self.mpr fun a _ => ?_]
    rw [decide_eq_true_eq]
    exact fun heq => hside (congrArg OrderLocation.side (Option.some.inj heq)).symm

/-- **What a cancel does to the queues and to the index**: the order that the entry of the
id points to is left out, if there is one. -/
theorem Inv.restingOn_cancel (h : book.Inv) (id : OrderId) :
    (∀ side, (book.step (.cancelOrder id)).restingOn side = (book.restingOn side).filter
      fun a => book.orderMap id ≠ some ⟨side, a.1, a.2.pos⟩) ∧
    (book.step (.cancelOrder id)).orderMap = Function.update book.orderMap id none ∧
    (book.step (.cancelOrder id)).nextPos = book.nextPos := by
  have hstep : book.step (.cancelOrder id) = (book.cancelOrder id).toOption.getD book := rfl
  cases hloc : book.orderMap id with
  | none =>
    have heq : book.step (.cancelOrder id) = book := by
      rw [hstep, cancelOrder_of_none hloc]
      rfl
    rw [heq]
    refine ⟨fun side => ?_, ?_, rfl⟩
    · rw [List.filter_eq_self.mpr (by simp)]
    · rw [← hloc, Function.update_eq_self]
  | some loc =>
    obtain ⟨n, book', hpos, -, hok, hr⟩ := h.cancelOrder_eq_ok hloc
    have heq : book.step (.cancelOrder id) = book' := by
      rw [hstep, hok]
      rfl
    rw [heq]
    exact ⟨h.restingOn_removes hr hpos, hr.orderMap, hr.nextPos⟩

/-- Cancels of different ids commute. -/
theorem Inv.cancel_comm (h : book.Inv) {id id' : OrderId} (hne : id ≠ id') :
    (book.step (.cancelOrder id)).step (.cancelOrder id')
      = (book.step (.cancelOrder id')).step (.cancelOrder id) := by
  have hinv : ∀ id, (book.step (.cancelOrder id)).Inv := fun id => h.step trivial
  obtain ⟨hq, hmap, hpos⟩ := h.restingOn_cancel id
  obtain ⟨hq', hmap', hpos'⟩ := h.restingOn_cancel id'
  obtain ⟨hqq, hmm, hpp⟩ := (hinv id).restingOn_cancel id'
  obtain ⟨hqq', hmm', hpp'⟩ := (hinv id').restingOn_cancel id
  refine ext_resting ((hinv id).step (c := .cancelOrder id') trivial).noEmpty
    ((hinv id').step (c := .cancelOrder id) trivial).noEmpty (fun side => ?_) ?_ ?_
  · rw [hqq, hq, hqq', hq', hmap, hmap', Function.update_of_ne hne, Function.update_of_ne hne.symm,
      List.filter_filter, List.filter_filter]
    exact List.filter_congr fun a _ => Bool.and_comm _ _
  · rw [hmm, hmap, hmm', hmap', Function.update_comm hne]
  · rw [hpp, hpos, hpp', hpos']

/-- Whether a cancel succeeds does not depend on cancels of other ids. -/
theorem Inv.isOk_cancel_iff (h : book.Inv) (id : OrderId) :
    (book.cancelOrder id).isOk = true ↔ book.orderMap id ≠ none := by
  cases hloc : book.orderMap id with
  | none =>
    rw [cancelOrder_of_none hloc]
    simp [Except.isOk, Except.toBool]
  | some loc =>
    obtain ⟨n, book', -, -, heq, -⟩ := h.cancelOrder_eq_ok hloc
    rw [heq]
    simp [Except.isOk, Except.toBool]

/-! ### Undoing a match -/

/-- A limit order that crosses nothing is added to the book as it is. -/
theorem Inv.matchOrder_of_crossesNothing (h : book.Inv) {order : Order} (hc : order.Constructed)
    (hl : order.orderType = .LIMIT) (hcross : book.CrossesNothing order) (now : Clock) :
    ∃ ts, book.step (.matchOrder now order) = book.addOrder { order with timestamp := ts } := by
  have hsweep := hcross.sweepOf_eq h.noEmpty hl
  obtain ⟨mid, subs, ht, -, heq⟩ := matchOrder_eq hc now book []
  -- nothing is taken from the book
  have hmid : mid = book := by
    refine ext_resting (ht.noEmpty h.noEmpty) h.noEmpty (fun side => ?_) ?_ ht.nextPos
    · by_cases hside : side = order.side.opposite
      · rw [hside, ht.queue, hsweep]
      · exact ht.other side hside
    · rw [ht.orderMap, hsweep]
      rfl
  have hpos : 0 < order.quantity.toNat :=
    UInt32.lt_iff_toNat_lt.mp (Order.constructed_iff.mp hc).2.2
  refine ⟨now 0, ?_⟩
  rw [OrderBook.step, heq, afterMatch, hsweep, hmid, if_pos ⟨hpos, hl⟩, remainder,
    UInt32.ofNat_toNat]
  rfl

/-- A node that has just been added is the only one at its position. -/
theorem Inv.filter_inserts (h : book.Inv) {order : Order} {book' : OrderBook}
    (hi : book.Inserts order book') (side : Side) :
    (book'.restingOn side).filter (fun a => decide (some ⟨order.side, order.price, book.nextPos⟩
      ≠ some (⟨side, a.1, a.2.pos⟩ : OrderLocation))) = book.restingOn side := by
  -- the nodes that were there have smaller positions
  have hold : ∀ a ∈ book.restingOn side, decide (some ⟨order.side, order.price, book.nextPos⟩
      ≠ some (⟨side, a.1, a.2.pos⟩ : OrderLocation)) = true := by
    intro a ha
    rw [decide_eq_true_eq]
    intro heq
    have hlt := h.fresh a (mem_resting_iff.mpr ⟨side, ha⟩)
    exact Nat.ne_of_gt hlt (congrArg OrderLocation.listPosition (Option.some.inj heq))
  by_cases hown : side = order.side
  · subst hown
    obtain ⟨A, B, hA, hB, -, -⟩ := hi.queue
    rw [hB, List.filter_append, List.filter_cons_of_neg (by simp), ← List.filter_append, ← hA,
      List.filter_eq_self.mpr hold]
  · rw [hi.other side hown, List.filter_eq_self.mpr hold]

/-- A cancel undoes the addition of an order under an id without an entry. -/
theorem Inv.cancel_undoes_addOrder (h : book.Inv) {order : Order}
    (hinv : (book.addOrder order).Inv) (hnew : book.orderMap order.id = none) :
    (∀ side, ((book.addOrder order).step (.cancelOrder order.id)).restingOn side
        = book.restingOn side) ∧
      ((book.addOrder order).step (.cancelOrder order.id)).orderMap = book.orderMap := by
  obtain ⟨hqueue, hmap, -⟩ := hinv.restingOn_cancel order.id
  rcases addOrder_cases book order with heq | ⟨-, -, hi⟩
  · -- the order has been ignored, and so is the cancel
    rw [heq] at hqueue hmap ⊢
    refine ⟨fun side => ?_, ?_⟩
    · rw [hqueue, hnew, List.filter_eq_self.mpr (by simp)]
    · rw [hmap, ← hnew, Function.update_eq_self]
  · rw [hi.orderMap, Function.update_self] at hqueue
    refine ⟨fun side => (hqueue side).trans (h.filter_inserts hi side), ?_⟩
    rw [hmap, hi.orderMap, Function.update_idem, ← hnew, Function.update_eq_self]

/-- **A cancel undoes a match without trades**, whatever byte the side of the order is. -/
theorem Inv.cancel_undoes_match (h : book.Inv) {order : Order} (hc : order.Constructed)
    (hl : order.orderType = .LIMIT) (hnew : book.orderMap order.id = none)
    (hcross : book.CrossesNothing order) (now : Clock) :
    ((book.step (.matchOrder now order)).step (.cancelOrder order.id)).bids = book.bids ∧
    ((book.step (.matchOrder now order)).step (.cancelOrder order.id)).asks = book.asks ∧
    ((book.step (.matchOrder now order)).step (.cancelOrder order.id)).orderMap
      = book.orderMap := by
  have hinv : (book.step (.matchOrder now order)).Inv := h.step hc
  have hinv' := hinv.step (c := .cancelOrder order.id) trivial
  obtain ⟨ts, hadd⟩ := h.matchOrder_of_crossesNothing hc hl hcross now
  rw [hadd] at hinv hinv' ⊢
  obtain ⟨hside, hmap⟩ := h.cancel_undoes_addOrder hinv hnew
  exact ⟨hinv'.noEmpty.1.ext h.noEmpty.1 (hside .BID),
    hinv'.noEmpty.2.ext h.noEmpty.2 (hside .ASK), hmap⟩

/-- An order of one of the two sides that has come to rest without trades can be cancelled. -/
theorem Inv.isOk_cancel_of_crossesNothing (h : book.Inv) {order : Order} (hc : order.Constructed)
    (hl : order.orderType = .LIMIT) (hs : order.side.IsProper)
    (hcross : book.CrossesNothing order) (now : Clock) :
    ((book.step (.matchOrder now order)).cancelOrder order.id).isOk = true := by
  have hinv : (book.step (.matchOrder now order)).Inv := h.step hc
  obtain ⟨ts, hadd⟩ := h.matchOrder_of_crossesNothing hc hl hcross now
  have hi : book.Inserts { order with timestamp := ts } _ := addOrder_inserts book hl hs
  rw [hinv.isOk_cancel_iff, hadd, hi.orderMap, Function.update_self]
  simp

/-! ### Runs -/

/-- **A cancel removes one order or nothing.**  In every state reached through `match` and
`cancel_order`, with any ids: a cancel of an id without an index entry throws and changes
nothing; a cancel of any other id cuts out the order that the entry points to and nothing
else.  A match of a limit order that crosses nothing, under an id without an entry, is
undone by the cancel of its id; and the cancels of two ids commute. -/
theorem cancel_removes_one (calls : List Call) (h : ∀ c ∈ calls, c.Accepted ∧ c.IsEngine) :
    (∀ id, (empty.run calls).orderMap id = none →
      (empty.run calls).cancelOrder id = .error (.exception .idNotFound) ∧
        (empty.run calls).step (.cancelOrder id) = empty.run calls) ∧
    (∀ id loc, (empty.run calls).orderMap id = some loc →
      ∃ n book', (empty.run calls).cancelOrder id = .ok book' ∧ n.pos = loc.listPosition ∧
        n.order.id = id ∧ (empty.run calls).CutsOut id loc n book') ∧
    (∀ now order, order.Constructed → order.orderType = .LIMIT →
      (empty.run calls).orderMap order.id = none → (empty.run calls).CrossesNothing order →
      (empty.run (calls ++ [.matchOrder now order, .cancelOrder order.id])).bids
          = (empty.run calls).bids ∧
        (empty.run (calls ++ [.matchOrder now order, .cancelOrder order.id])).asks
          = (empty.run calls).asks ∧
        (empty.run (calls ++ [.matchOrder now order, .cancelOrder order.id])).orderMap
          = (empty.run calls).orderMap ∧
        (order.side = .BID ∨ order.side = .ASK →
          ((empty.run (calls ++ [.matchOrder now order])).cancelOrder order.id).isOk = true)) ∧
    ∀ id id', id ≠ id' →
      empty.run (calls ++ [.cancelOrder id, .cancelOrder id'])
          = empty.run (calls ++ [.cancelOrder id', .cancelOrder id]) ∧
        ((empty.run (calls ++ [.cancelOrder id])).cancelOrder id').isOk
          = ((empty.run calls).cancelOrder id').isOk := by
  have hinv : (empty.run calls).Inv := Inv.run fun c hc => (h c hc).1
  have hrun : ∀ rest, empty.run (calls ++ rest) = (empty.run calls).run rest := fun rest =>
    List.foldl_append
  simp only [hrun]
  generalize empty.run calls = book at hinv
  refine ⟨fun id hid => ⟨cancelOrder_of_none hid, ?_⟩, fun id loc hloc => ?_,
    fun now order hc hl hnew hcross => ?_, fun id id' hne => ⟨?_, ?_⟩⟩
  · rw [step, cancelOrder_of_none hid]
    rfl
  · exact hinv.cancelOrder_cutsOut hloc
  · obtain ⟨hbids, hasks, hmap⟩ := hinv.cancel_undoes_match hc hl hnew hcross now
    exact ⟨hbids, hasks, hmap, fun hs => hinv.isOk_cancel_of_crossesNothing hc hl hs hcross now⟩
  · exact hinv.cancel_comm hne
  · -- whether a cancel succeeds depends on the entry of its own id
    have hinv' : (book.step (.cancelOrder id)).Inv := hinv.step trivial
    obtain ⟨-, hmap, -⟩ := hinv.restingOn_cancel id
    rw [Bool.eq_iff_iff, hinv.isOk_cancel_iff]
    show ((book.step (.cancelOrder id)).cancelOrder id').isOk = true ↔ _
    rw [hinv'.isOk_cancel_iff, hmap, Function.update_of_ne hne.symm]

/-- A bid that crosses nothing and is cancelled, next to an ask. -/
theorem cancel_removes_one_bid :
    (empty.run [.matchOrder (fun _ => 0) ⟨0, 1, 100, 5, .ASK, .LIMIT⟩,
        .matchOrder (fun _ => 0) ⟨0, 2, 90, 5, .BID, .LIMIT⟩, .cancelOrder 2]).bids
      = (empty.run [.matchOrder (fun _ => 0) ⟨0, 1, 100, 5, .ASK, .LIMIT⟩]).bids := by
  have hbest : (empty.run [.matchOrder (fun _ => 0) ⟨0, 1, 100, 5, .ASK, .LIMIT⟩]).bestAsk
      = some 100 := by decide +kernel
  have hcross : (empty.run [.matchOrder (fun _ => 0) ⟨0, 1, 100, 5, .ASK, .LIMIT⟩]).CrossesNothing
      ⟨0, 2, 90, 5, .BID, .LIMIT⟩ := by
    refine ⟨fun _ p hp => ?_, fun hs => absurd hs Side.BID_ne_ASK⟩
    rw [hbest] at hp
    rw [← Option.some.inj hp]
    decide
  obtain ⟨-, -, hundo, -⟩ := cancel_removes_one
    [.matchOrder (fun _ => 0) ⟨0, 1, 100, 5, .ASK, .LIMIT⟩] (by decide)
  have hcancel := hundo (fun _ => 0) ⟨0, 2, 90, 5, .BID, .LIMIT⟩ (by decide) rfl
    (by decide +kernel) hcross
  exact hcancel.1

end OrderBook

end Exchange
