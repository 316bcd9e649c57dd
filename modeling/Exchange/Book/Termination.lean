import Exchange.Book.Operations
import Exchange.Lib.Loop

/-!
# The loops of `match` end

The nested loops of `match` are taken turn by turn here, cut off after a number of turns,
and shown to end within it: a turn of the inner loop removes the front order of the level
or uses up the remaining quantity, and a turn of the outer loop removes the best level or
uses up the remaining quantity.  Nothing is asked of the book, whose levels may be empty
and whose orders may have no quantity or share an id, nor of the order.

The remaining quantity alone is no measure, since an order of quantity zero leaves it as it
is.  What goes down is `workLeft`.

## Main definitions

* `workLeft` — the measure.
* `fillTurn`, `levelTurn` — one turn of the inner and of the outer loop.
* `fillWithin`, `matchWithin` — the loops, cut off after a number of turns.
* `LoopsEnd` — what a turn does, and that the loops end.

## Main results

* `fillWithin_eq`, `matchWithin_eq` — the loops end, with the results of `fillLevel` and
  `matchLevels`.
* `match_terminates` — the loops of `match` end on every book, and a call appends at most
  as many trades as there are orders on the opposite side.
-/

namespace Exchange

namespace MatchingEngine

/-! ### The measure -/

/-- What both loops bring down: the number of orders, or of levels, as long as there is a
quantity left to fill. -/
def workLeft (s : Progress) (k : ℕ) : ℕ := if 0 < s.remaining then k else 0

theorem workLeft_le (s : Progress) (k : ℕ) : workLeft s k ≤ k := by
  unfold workLeft
  split
  · exact Nat.le_refl k
  · exact Nat.zero_le k

theorem not_pos_of_filled {s : Progress} (h : s.remaining = 0) : ¬ 0 < s.remaining := by
  rw [h]
  exact UInt32.lt_irrefl 0

/-- Something is taken away, or nothing is left to fill. -/
theorem workLeft_lt {s s' : Progress} {k k' : ℕ} (hpos : 0 < s.remaining) (hk : 0 < k)
    (h : k' < k ∨ s'.remaining = 0) : workLeft s' k' < workLeft s k := by
  have hwork : workLeft s k = k := if_pos hpos
  rw [hwork]
  rcases h with hlt | hzero
  · exact Nat.lt_of_le_of_lt (workLeft_le s' k') hlt
  · rw [workLeft, if_neg (not_pos_of_filled hzero)]
    exact hk

/-! ### The inner loop -/

/-- One turn of the inner loop, its test included. -/
def fillTurn (now : Clock) (branch : Branch) (best : Price) : List Node × Progress →
    Turn (List Node × Progress) (Except (Thrown (List Node × Progress)) (List Node × Progress))
  | ([], s) => .done (.ok ([], s))
  | (matched :: rest, s) =>
      if 0 < s.remaining then
        let filled := stdMin matched.order.quantity s.remaining
        let s' := s.record (branch.trade best matched.order filled (now s.trades.length)) filled
        if matched.order.quantity = filled then
          .next (rest, { s' with
            orderMap := Function.update s'.orderMap matched.order.id none })
        else
          match matched.order.reduceQuantity filled with
          | .error e => .done (.error ⟨e, (matched :: rest, s')⟩)
          | .ok order =>
              .next ({ matched with order } :: rest, { s' with
                subtractions := s'.subtractions ++ [(matched.order.quantity, filled)] })
      else .done (.ok (matched :: rest, s))

/-- The inner loop, cut off after `n` turns. -/
def fillWithin (n : ℕ) (now : Clock) (branch : Branch) (best : Price) (orders : List Node)
    (s : Progress) : Option (Except (Thrown (List Node × Progress)) (List Node × Progress)) :=
  loopWithin (fillTurn now branch best) n (orders, s)

section Inner

variable (now : Clock) (branch : Branch) (best : Price)

/-- **A turn of the inner loop** does not throw; it records one trade, and removes the front
order or uses up the remaining quantity. -/
theorem fillTurn_next (matched : Node) (rest : List Node) {s : Progress}
    (hpos : 0 < s.remaining) :
    ∃ orders' s', fillTurn now branch best (matched :: rest, s) = .next (orders', s') ∧
      s'.trades.length = s.trades.length + 1 ∧ (orders' = rest ∨ s'.remaining = 0) := by
  rw [fillTurn, if_pos hpos]
  by_cases hfull : matched.order.quantity = stdMin matched.order.quantity s.remaining
  · simp only [if_pos hfull]
    exact ⟨_, _, rfl, by simp [Progress.record], Or.inl rfl⟩
  · -- the front order has more than is wanted, so that the rest of the quantity is filled
    have hfilled : stdMin matched.order.quantity s.remaining = s.remaining := by
      unfold stdMin at hfull ⊢
      split
      · rfl
      · next hge => rw [if_neg hge] at hfull; exact absurd rfl hfull
    have hle : ¬ s.remaining > matched.order.quantity := by
      intro hlt
      have hmin := toNat_stdMin matched.order.quantity s.remaining
      rw [hfilled] at hmin
      have hlt' := UInt32.lt_iff_toNat_lt.mp hlt
      omega
    rw [hfilled] at hfull
    simp only [hfilled, if_neg hfull, Order.reduceQuantity, if_neg hle]
    exact ⟨_, _, rfl, by simp [Progress.record], Or.inr (by simp [Progress.record])⟩

/-- The inner loop is its first turn and the loop from there. -/
theorem fillLevel_turn (orders : List Node) (s : Progress) :
    fillLevel now branch best orders s =
      match fillTurn now branch best (orders, s) with
      | .next t => fillLevel now branch best t.1 t.2
      | .done r => r := by
  cases orders with
  | nil => rw [fillLevel, fillTurn]
  | cons matched rest =>
    rw [fillLevel, fillTurn]
    by_cases hpos : 0 < s.remaining
    · simp only [if_pos hpos]
      by_cases hfull : matched.order.quantity = stdMin matched.order.quantity s.remaining
      · simp only [if_pos hfull]
      · simp only [if_neg hfull]
        cases matched.order.reduceQuantity (stdMin matched.order.quantity s.remaining) with
        | error e => rfl
        | ok order => rfl
    · simp only [if_neg hpos]

/-- **The inner loop ends** within one turn more than the level has orders. -/
theorem fillWithin_eq {n : ℕ} (orders : List Node) (s : Progress) (hn : orders.length < n) :
    fillWithin n now branch best orders s = some (fillLevel now branch best orders s) := by
  refine loopWithin_eq_some (P := fun _ => True) (m := fun t => workLeft t.2 t.1.length)
    (f := fun t => fillLevel now branch best t.1 t.2) ?_ ?_ n (orders, s) trivial
    (Nat.lt_of_le_of_lt (workLeft_le s _) hn)
  · rintro ⟨orders, s⟩ t - hturn
    refine ⟨trivial, ?_, by simp only [fillLevel_turn now branch best orders s, hturn]⟩
    cases orders with
    | nil => exact absurd hturn (by simp [fillTurn])
    | cons matched rest =>
      by_cases hpos : 0 < s.remaining
      · obtain ⟨orders', s', heq, -, hstep⟩ := fillTurn_next now branch best matched rest hpos
        rw [heq] at hturn
        obtain rfl := Turn.next.inj hturn
        refine workLeft_lt hpos (Nat.succ_pos rest.length) (hstep.imp (fun hrest => ?_) id)
        rw [hrest]
        exact Nat.lt_succ_self rest.length
      · rw [fillTurn, if_neg hpos] at hturn
        exact absurd hturn (by simp)
  · rintro ⟨orders, s⟩ r - hturn
    simp only [fillLevel_turn now branch best orders s, hturn]

end Inner

/-! ### The outer loop -/

section Outer

variable {lt : Price → Price → Prop} [DecidableRel lt] [IsStrictTotalOrder Price lt]

/-- One turn of the outer loop, its test included.  The inner loop is cut off after `n`
turns; if that is too early, the outer loop has no result either. -/
def levelTurn (n : ℕ) (now : Clock) (branch : Branch) : Levels lt × Progress →
    Turn (Levels lt × Progress)
      (Option (Except (Thrown (Levels lt × Progress)) (Levels lt × Progress)))
  | (levels, s) =>
      if 0 < s.remaining then
        match levels.begin? with
        | none => .done (some (.ok (levels, s)))
        | some (best, _) =>
            if branch.blocked best then .done (some (.ok (levels, s)))
            else
              match fillWithin n now branch best (levels.getD best []) s with
              | none => .done none
              | some (.error t) =>
                  .done (some (.error
                    ⟨t.exn, (levels.modify best [] fun _ => t.state.1, t.state.2)⟩))
              | some (.ok (orders, s')) => .next (OrderBook.putBack levels best orders, s')
      else .done (some (.ok (levels, s)))

/-- The nested loops, each cut off after `n` turns. -/
def matchWithin (n : ℕ) (now : Clock) (branch : Branch) (levels : Levels lt) (s : Progress) :
    Option (Except (Thrown (Levels lt × Progress)) (Levels lt × Progress)) :=
  (loopWithin (levelTurn n now branch) n (levels, s)).join

/-- The outer loop is left before its next turn: the order is filled, the side is empty, or
the best level is out of reach. -/
def Leaves (branch : Branch) (levels : Levels lt) (s : Progress) : Prop :=
  s.remaining = 0 ∨ levels.toList = [] ∨ ∃ e, levels.begin? = some e ∧ branch.blocked e.1 = true

omit [DecidableRel lt] [IsStrictTotalOrder Price lt] in
/-- Where the loop goes on, there is a quantity to fill and a level to fill it from. -/
theorem pos_of_not_leaves {branch : Branch} {levels : Levels lt} {s : Progress}
    (h : ¬ Leaves branch levels s) : 0 < s.remaining ∧ 0 < levels.size := by
  constructor
  · exact UInt32.not_le.mp fun hle => h (Or.inl (UInt32.le_zero_iff.mp hle))
  · exact List.length_pos_iff.mpr fun hnil => h (Or.inr (Or.inl hnil))

/-- No level has `n` orders or more. -/
def LevelsBelow (n : ℕ) (levels : Levels lt) : Prop := ∀ e ∈ levels.toList, e.2.length < n

theorem matchLevels_of_leaves {branch : Branch} {levels : Levels lt} {s : Progress}
    (h : Leaves branch levels s) (now : Clock) :
    matchLevels now branch levels s = .ok (levels, s) := by
  rw [matchLevels]
  split
  · next hpos =>
    split
    · rfl
    · next best v hbegin =>
      rcases h with hzero | hnil | ⟨e, he, hblocked⟩
      · exact absurd hpos (not_pos_of_filled hzero)
      · exact absurd hbegin (by simp [SortedMap.begin?, hnil])
      · obtain rfl := Option.some.inj (hbegin.symm.trans he)
        rw [if_pos hblocked]
  · rfl

theorem matchLevels_of_fillLevel {now : Clock} {branch : Branch} {levels : Levels lt}
    {s s' : Progress} {best : Price} {v orders : List Node} (hpos : 0 < s.remaining)
    (hbegin : levels.begin? = some (best, v)) (hblocked : ¬ branch.blocked best = true)
    (hfill : fillLevel now branch best (levels.getD best []) s = .ok (orders, s')) :
    matchLevels now branch levels s
      = matchLevels now branch (OrderBook.putBack levels best orders) s' := by
  rw [matchLevels, if_pos hpos]
  split
  · next hnone => exact absurd (hbegin.symm.trans hnone) (by simp)
  · next best' v' hbegin' =>
    obtain ⟨rfl, rfl⟩ := Prod.mk.inj (Option.some.inj (hbegin.symm.trans hbegin'))
    rw [if_neg hblocked]
    split
    · next t ht => exact absurd (hfill.symm.trans ht) (by simp)
    · next orders' t ht =>
      obtain ⟨rfl, rfl⟩ := Prod.mk.inj (Except.ok.inj (hfill.symm.trans ht))
      rfl

/-- The outer loop is left. -/
theorem levelTurn_of_leaves {branch : Branch} {levels : Levels lt} {s : Progress}
    (h : Leaves branch levels s) (n : ℕ) (now : Clock) :
    levelTurn n now branch (levels, s) = .done (some (.ok (levels, s))) := by
  rw [levelTurn]
  split
  · next hpos =>
    rcases h with hzero | hnil | ⟨e, he, hblocked⟩
    · exact absurd hpos (not_pos_of_filled hzero)
    · simp only [SortedMap.begin?, hnil, List.head?_nil]
    · simp only [he, if_pos hblocked]
  · rfl

/-- **A turn of the outer loop** that does not leave it removes the best level or uses up
the remaining quantity. -/
theorem levelTurn_next {n : ℕ} (now : Clock) {branch : Branch} {levels : Levels lt}
    (hn : LevelsBelow n levels) {s : Progress} (hstay : ¬ Leaves branch levels s) :
    ∃ levels' s', levelTurn n now branch (levels, s) = .next (levels', s') ∧
      matchLevels now branch levels s = matchLevels now branch levels' s' ∧
      (levels'.size + 1 = levels.size ∧ LevelsBelow n levels' ∨ s'.remaining = 0) := by
  obtain ⟨hpos, -⟩ := pos_of_not_leaves hstay
  cases hbegin : levels.begin? with
  | none => exact absurd (Or.inr (Or.inl (List.head?_eq_none_iff.mp hbegin))) hstay
  | some e =>
    obtain ⟨best, v⟩ := e
    have hblocked : ¬ branch.blocked best = true := fun h =>
      hstay (Or.inr (Or.inr ⟨(best, v), hbegin, h⟩))
    obtain ⟨l, hl, hget⟩ := SortedMap.exists_toList_of_begin hbegin
    have hget' : levels.getD best [] = v := hget []
    have hlen : v.length < n := hn (best, v) (by rw [hl]; exact List.mem_cons_self)
    obtain ⟨orders, s', hfill, -⟩ :=
      fillLevel_eq now (Bool.eq_false_iff.mpr hblocked) (levels.getD best []) s
    obtain ⟨-, hend⟩ := fillLevel_progress _ _ _ _ _ hfill
    have hwithin := fillWithin_eq now branch best (levels.getD best []) s
      (by rw [hget']; exact hlen)
    refine ⟨OrderBook.putBack levels best orders, s', ?_,
      matchLevels_of_fillLevel hpos hbegin hblocked hfill, ?_⟩
    · simp only [levelTurn, if_pos hpos, hbegin, if_neg hblocked, hwithin, hfill]
    · -- an empty level is erased; one that is not has filled the order
      refine hend.imp (fun hnil => ?_) id
      have hput : (OrderBook.putBack levels best orders).toList = l := by
        rw [OrderBook.toList_putBack_begin hl orders, hnil]
        rfl
      rw [SortedMap.size, SortedMap.size, LevelsBelow, hput, hl]
      exact ⟨rfl, fun e he => hn e (by rw [hl]; exact List.mem_cons_of_mem _ he)⟩

omit [DecidableRel lt] [IsStrictTotalOrder Price lt] in
/-- A level has no more orders than its side. -/
theorem length_le_flatten {levels : Levels lt} {e : Price × List Node} (he : e ∈ levels.toList) :
    e.2.length ≤ levels.flatten.length := by
  obtain ⟨l, l', hl⟩ := List.append_of_mem he
  rw [SortedMap.flatten, hl, SortedMap.flattenList_append, SortedMap.flattenList_cons]
  simp only [List.length_append, List.length_map]
  omega

/-- **The nested loops end** within more turns each than there are levels, and orders in a
level. -/
theorem matchWithin_eq {n : ℕ} (now : Clock) (branch : Branch) {levels : Levels lt}
    (hsize : levels.size < n) (hn : LevelsBelow n levels) (s : Progress) :
    matchWithin n now branch levels s = some (matchLevels now branch levels s) := by
  -- the bound on the levels matters only as long as there is something to fill
  have hloop : loopWithin (levelTurn n now branch) n (levels, s)
      = some (some (matchLevels now branch levels s)) := by
    refine loopWithin_eq_some (P := fun t => 0 < t.2.remaining → LevelsBelow n t.1)
      (m := fun t => workLeft t.2 t.1.size)
      (f := fun t => some (matchLevels now branch t.1 t.2)) ?_ ?_ n (levels, s) (fun _ => hn)
      (Nat.lt_of_le_of_lt (workLeft_le s _) hsize)
    · rintro ⟨levels, s⟩ t ht hturn
      by_cases hleave : Leaves branch levels s
      · rw [levelTurn_of_leaves hleave] at hturn
        exact absurd hturn (by simp)
      · obtain ⟨hpos, hlevel⟩ := pos_of_not_leaves hleave
        obtain ⟨levels', s', hnext, hf, hstep⟩ := levelTurn_next now (ht hpos) hleave
        obtain rfl := Turn.next.inj (hnext.symm.trans hturn)
        refine ⟨?_, workLeft_lt hpos hlevel (hstep.imp (fun h => ?_) id), by simp only [hf]⟩
        · intro hpos'
          rcases hstep with ⟨-, hbelow⟩ | hzero
          · exact hbelow
          · exact absurd hpos' (not_pos_of_filled hzero)
        · exact Nat.lt_of_succ_le (Nat.le_of_eq h.1)
    · rintro ⟨levels, s⟩ r ht hturn
      by_cases hleave : Leaves branch levels s
      · rw [levelTurn_of_leaves hleave] at hturn
        rw [← Turn.done.inj hturn, matchLevels_of_leaves hleave]
      · obtain ⟨hpos, -⟩ := pos_of_not_leaves hleave
        obtain ⟨levels', s', hnext, -⟩ := levelTurn_next now (ht hpos) hleave
        exact absurd (hnext.symm.trans hturn) (by simp)
  rw [matchWithin, hloop]
  rfl

/-- What a walk of `match` over the levels of a side comes to. -/
structure LoopsEnd (now : Clock) (branch : Branch) (levels : Levels lt) (s : Progress) :
    Prop where
  /-- A turn of the inner loop, on any level and with any values of the variables. -/
  inner : ∀ (best : Price) (matched : Node) (rest : List Node) (t : Progress), 0 < t.remaining →
    ∃ orders' t', fillTurn now branch best (matched :: rest, t) = .next (orders', t') ∧
      t'.trades.length = t.trades.length + 1 ∧ (orders' = rest ∨ t'.remaining = 0)
  /-- A turn of the outer loop that does not leave it, on any levels and with any values. -/
  outer : ∀ (n : ℕ) (levels : Levels lt) (t : Progress), LevelsBelow n levels →
    ¬ Leaves branch levels t →
    ∃ levels' t', levelTurn n now branch (levels, t) = .next (levels', t') ∧
      (levels'.size + 1 = levels.size ∨ t'.remaining = 0)
  /-- The nested loops end, by themselves and within a number of turns. -/
  ends : ∀ n, levels.size + levels.flatten.length < n →
    matchWithin n now branch levels s = some (matchLevels now branch levels s)

theorem loopsEnd (now : Clock) (branch : Branch) (levels : Levels lt) (s : Progress) :
    LoopsEnd now branch levels s where
  inner best matched rest _ hpos := fillTurn_next now branch best matched rest hpos
  outer _ _ _ hn hstay := by
    obtain ⟨levels', t', hnext, -, hstep⟩ := levelTurn_next now hn hstay
    exact ⟨levels', t', hnext, hstep.imp And.left id⟩
  ends n hn := by
    refine matchWithin_eq now branch (by omega) (fun e he => ?_) s
    have hle := length_le_flatten he
    omega

/-- The walk records at most one trade for each order of the side. -/
theorem matchLevels_trades (now : Clock) {branch : Branch}
    (hmono : ∀ p q, lt p q → branch.blocked p = true → branch.blocked q = true)
    (levels : Levels lt) (s : Progress) :
    ∃ levels' s' made, matchLevels now branch levels s = .ok (levels', s') ∧
      s'.trades = s.trades ++ made ∧ made.length ≤ levels.flatten.length := by
  obtain ⟨levels', s', heq, hwalk, -⟩ := matchLevels_eq now hmono levels s
  refine ⟨levels', s', _, heq, hwalk.trades, ?_⟩
  have hfills := (prefix_map_fst_fills weight reduceBy (fun a => branch.blocked a.1)
    levels.flatten s.remaining.toNat).length_le
  rw [List.length_map] at hfills
  rw [length_tradesFrom]
  exact hfills

end Outer

/-! ### Calls of `match` -/

/-- The trades after a call of `match`, whether it has returned or thrown. -/
def tradesAfter : Except (Thrown (OrderBook × List Trade)) Matched → List Trade
  | .ok r => r.trades
  | .error t => t.state.2

/-- The end of `match` records no trade. -/
theorem tradesAfter_restRemainder (now : Clock) (order : Order) (book : OrderBook)
    (s : Progress) : tradesAfter (restRemainder now order book s) = s.trades := by
  unfold restRemainder
  split
  · cases Order.create (now s.trades.length) order.id order.price s.remaining order.side
      order.orderType with
    | error e => rfl
    | ok remainingOrder => rfl
  · rfl

/-- **The loops of `match` end**, on every book and for every order, and a call appends at
most one trade for each order resting on the opposite side. -/
theorem match_terminates (now : Clock) (book : OrderBook) (order : Order)
    (trades : List Trade) :
    LoopsEnd now (bidBranch order) book.asks ⟨book.orderMap, trades, order.quantity, []⟩ ∧
    LoopsEnd now (askBranch order) book.bids ⟨book.orderMap, trades, order.quantity, []⟩ ∧
    ∃ made, tradesAfter (matchOrder now book order trades) = trades ++ made ∧
      made.length ≤ (book.restingOn order.side.opposite).length := by
  refine ⟨loopsEnd _ _ _ _, loopsEnd _ _ _ _, ?_⟩
  unfold matchOrder
  by_cases hb : order.side = .BID
  · obtain ⟨asks, s, made, heq, hmade, hle⟩ := matchLevels_trades now
      (blocked_bidBranch_mono order) book.asks ⟨book.orderMap, trades, order.quantity, []⟩
    simp only [if_pos hb, heq, tradesAfter_restRemainder]
    refine ⟨made, hmade, ?_⟩
    rw [hb]
    exact hle
  · by_cases ha : order.side = .ASK
    · obtain ⟨bids, s, made, heq, hmade, hle⟩ := matchLevels_trades now
        (blocked_askBranch_mono order) book.bids ⟨book.orderMap, trades, order.quantity, []⟩
      simp only [if_neg hb, if_pos ha, heq, tradesAfter_restRemainder]
      refine ⟨made, hmade, ?_⟩
      rw [ha]
      exact hle
    · simp only [if_neg hb, if_neg ha]
      exact ⟨[], (List.append_nil _).symm, Nat.zero_le _⟩

end MatchingEngine

end Exchange
