import Exchange.Lib.Sweep
import Exchange.MatchingEngine

/-!
# The walk over the opposite side is a sweep

The nested loops of `match` meet the incoming quantity from the front of the
opposite side, read as one queue: best level first, each level in queue order.
`matchLevels_eq` says so for every map of levels whatsoever, empty levels and
orders of quantity zero included, and shows on the way that neither loop throws
and that no 32-bit subtraction wraps.

## Main definitions

* `weight`, `reduceBy`, `walk` — the sweep of a queue of resting orders.
* `tradesFrom` — the trades of a list of fills, in order.
* `eraseAll` — the index without a list of ids.
* `Walks` — everything one walk does to the variables of `match`.

## Main results

* `fillLevel_eq`, `matchLevels_eq` — the two loops return, and make their walk.
-/

namespace Exchange

namespace MatchingEngine

/-! ### Fills and their effects -/

/-- The quantity a resting order has left. -/
def weight (a : Price × Node) : ℕ := a.2.order.quantity.toNat

/-- A resting order with part of its quantity taken. -/
def reduceBy (a : Price × Node) (k : ℕ) : Price × Node :=
  (a.1, { a.2 with
    order := { a.2.order with quantity := a.2.order.quantity - UInt32.ofNat k } })

/-- The sweep a branch makes of the opposite side. -/
def walk (branch : Branch) (q : List (Price × Node)) (d : ℕ) : Swept (Price × Node) :=
  sweep weight reduceBy (fun a => branch.blocked a.1) q d

theorem walk_zero (branch : Branch) (q : List (Price × Node)) :
    walk branch q 0 = ⟨[], [], q, 0⟩ := sweep_zero _ _ _ q

theorem walk_blocked {branch : Branch} {a : Price × Node} (h : branch.blocked a.1 = true)
    (q : List (Price × Node)) (d : ℕ) : walk branch (a :: q) d = ⟨[], [], a :: q, d⟩ :=
  sweep_stop weight reduceBy (fun a => branch.blocked a.1) h q d

/-- A resting order that is filled completely. -/
theorem walk_whole {branch : Branch} {a : Price × Node} (h : branch.blocked a.1 = false) {d : ℕ}
    (hd : d ≠ 0) (hw : weight a ≤ d) (q : List (Price × Node)) :
    walk branch (a :: q) d =
      ⟨(a, weight a) :: (walk branch q (d - weight a)).fills,
        a :: (walk branch q (d - weight a)).gone, (walk branch q (d - weight a)).left,
        (walk branch q (d - weight a)).unmet⟩ :=
  sweep_whole weight reduceBy (fun a => branch.blocked a.1) h hd hw q

/-- A resting order that is filled in part. -/
theorem walk_part {branch : Branch} {a : Price × Node} (h : branch.blocked a.1 = false) {d : ℕ}
    (hd : d ≠ 0) (hw : d < weight a) (q : List (Price × Node)) :
    walk branch (a :: q) d = ⟨[(a, d)], [], reduceBy a d :: q, 0⟩ :=
  sweep_part weight reduceBy (fun a => branch.blocked a.1) h hd hw q

/-- The trades of a list of fills, the first of them being trade number `k`. -/
def tradesFrom (now : Clock) (branch : Branch) : ℕ → List ((Price × Node) × ℕ) → List Trade
  | _, [] => []
  | k, f :: fills =>
      branch.trade f.1.1 f.1.2.order (UInt32.ofNat f.2) (now k) ::
        tradesFrom now branch (k + 1) fills

@[simp] theorem tradesFrom_nil (now : Clock) (branch : Branch) (k : ℕ) :
    tradesFrom now branch k [] = [] := rfl

@[simp] theorem length_tradesFrom (now : Clock) (branch : Branch) (k : ℕ)
    (fills : List ((Price × Node) × ℕ)) :
    (tradesFrom now branch k fills).length = fills.length := by
  induction fills generalizing k with
  | nil => rfl
  | cons f fills ih => rw [tradesFrom, List.length_cons, List.length_cons, ih]

theorem tradesFrom_append (now : Clock) (branch : Branch) (k : ℕ)
    (fills fills' : List ((Price × Node) × ℕ)) :
    tradesFrom now branch k (fills ++ fills')
      = tradesFrom now branch k fills ++ tradesFrom now branch (k + fills.length) fills' := by
  induction fills generalizing k with
  | nil => rfl
  | cons f fills ih =>
    rw [List.cons_append, tradesFrom, tradesFrom, ih, List.cons_append, List.length_cons]
    congr 3
    omega

/-- The index without the entries of some ids. -/
def eraseAll (orderMap : OrderId → Option OrderLocation) (ids : List OrderId) :
    OrderId → Option OrderLocation :=
  fun id => if id ∈ ids then none else orderMap id

@[simp] theorem eraseAll_nil (orderMap : OrderId → Option OrderLocation) :
    eraseAll orderMap [] = orderMap := rfl

theorem eraseAll_cons (orderMap : OrderId → Option OrderLocation) (id : OrderId)
    (ids : List OrderId) :
    eraseAll orderMap (id :: ids) = eraseAll (Function.update orderMap id none) ids := by
  funext k
  simp only [eraseAll, List.mem_cons, Function.update_apply]
  by_cases hk : k = id <;> by_cases hm : k ∈ ids <;> simp [hk, hm]

theorem eraseAll_append (orderMap : OrderId → Option OrderLocation) (ids ids' : List OrderId) :
    eraseAll orderMap (ids ++ ids') = eraseAll (eraseAll orderMap ids) ids' := by
  funext k
  simp only [eraseAll, List.mem_append]
  by_cases hm : k ∈ ids <;> by_cases hm' : k ∈ ids' <;> simp [hm, hm']

/-- `s'` is `s` after the walk of `branch` over the queue `q`, which leaves the
queue `left`. -/
structure Walks (now : Clock) (branch : Branch) (q : List (Price × Node)) (s : Progress)
    (left : List (Price × Node)) (s' : Progress) : Prop where
  left : left = (walk branch q s.remaining.toNat).left
  remaining : s'.remaining.toNat = (walk branch q s.remaining.toNat).unmet
  trades : s'.trades
    = s.trades ++ tradesFrom now branch s.trades.length (walk branch q s.remaining.toNat).fills
  orderMap : s'.orderMap
    = eraseAll s.orderMap ((walk branch q s.remaining.toNat).gone.map fun a => a.2.order.id)
  subtractions : ∃ subs, s'.subtractions = s.subtractions ++ subs ∧ ∀ p ∈ subs, p.2 ≤ p.1

namespace Walks

variable {now : Clock} {branch : Branch} {best : Price} {q q' left left' : List (Price × Node)}
  {s s' s'' : Progress}

/-- The walk over an empty queue. -/
theorem nil (now : Clock) (branch : Branch) (s : Progress) : Walks now branch [] s [] s where
  left := rfl
  remaining := rfl
  trades := (List.append_nil _).symm
  orderMap := rfl
  subtractions := ⟨[], (List.append_nil _).symm, fun _ hp => absurd hp List.not_mem_nil⟩

/-- A walk that stops before its first order. -/
theorem stop (h : s.remaining = 0 ∨ ∃ a q', q = a :: q' ∧ branch.blocked a.1 = true) :
    Walks now branch q s q s := by
  have hw : walk branch q s.remaining.toNat = ⟨[], [], q, s.remaining.toNat⟩ := by
    rcases h with h | ⟨a, q', rfl, hb⟩
    · rw [h]; exact walk_zero branch q
    · exact walk_blocked hb q' _
  constructor
  · rw [hw]
  · rw [hw]
  · rw [hw]; exact (List.append_nil _).symm
  · rw [hw]; rfl
  · exact ⟨[], (List.append_nil _).symm, fun _ hp => absurd hp List.not_mem_nil⟩

theorem length_trades (h : Walks now branch q s left s') :
    s'.trades.length = s.trades.length + (walk branch q s.remaining.toNat).fills.length := by
  rw [h.trades, List.length_append, length_tradesFrom]

/-- Two walks in a row: the first over a part of the queue, the second over what
it left followed by the rest. -/
theorem append (h : Walks now branch q s left s') (hend : left = [] ∨ s'.remaining = 0)
    (h' : Walks now branch (left ++ q') s' left' s'') : Walks now branch (q ++ q') s left' s'' := by
  -- the combined walk, from the rule for sweeping a concatenation
  have hw : walk branch (q ++ q') s.remaining.toNat =
      ⟨(walk branch q s.remaining.toNat).fills
          ++ (walk branch (left ++ q') s'.remaining.toNat).fills,
        (walk branch q s.remaining.toNat).gone
          ++ (walk branch (left ++ q') s'.remaining.toNat).gone,
        (walk branch (left ++ q') s'.remaining.toNat).left,
        (walk branch (left ++ q') s'.remaining.toNat).unmet⟩ := by
    have happ := sweep_append weight reduceBy (fun a => branch.blocked a.1) q s.remaining.toNat q'
    simp only [← walk.eq_1, ← h.left, ← h.remaining] at happ
    rw [happ]
    split
    · next hnil => rw [hnil, List.nil_append]
    · next hne =>
      have hzero : s'.remaining = 0 := hend.resolve_left hne
      have hz : s'.remaining.toNat = 0 := by rw [hzero]; rfl
      rw [hz, walk_zero]
      simp only [List.append_nil]
  constructor
  · rw [hw]; exact h'.left
  · rw [hw]; exact h'.remaining
  · rw [hw, tradesFrom_append, ← List.append_assoc, ← h.trades, ← h.length_trades]
    exact h'.trades
  · rw [hw, List.map_append, eraseAll_append, ← h.orderMap]
    exact h'.orderMap
  · obtain ⟨subs, hs, hle⟩ := h.subtractions
    obtain ⟨subs', hs', hle'⟩ := h'.subtractions
    refine ⟨subs ++ subs', by rw [hs', hs, List.append_assoc], fun p hp => ?_⟩
    rcases List.mem_append.mp hp with hp | hp
    · exact hle p hp
    · exact hle' p hp

/-- The walk over one order that is filled completely. -/
theorem whole (hb : branch.blocked best = false) (hpos : 0 < s.remaining) {n : Node}
    (hfull : n.order.quantity = stdMin n.order.quantity s.remaining) :
    Walks now branch [(best, n)] s []
      { s.record (branch.trade best n.order n.order.quantity (now s.trades.length))
          n.order.quantity with
        orderMap := Function.update s.orderMap n.order.id none } := by
  have hle : n.order.quantity.toNat ≤ s.remaining.toNat := by
    have h := congrArg UInt32.toNat hfull
    rw [toNat_stdMin] at h
    omega
  have hd : s.remaining.toNat ≠ 0 := Nat.ne_of_gt (UInt32.lt_iff_toNat_lt.mp hpos)
  have hw : walk branch [(best, n)] s.remaining.toNat =
      ⟨[((best, n), weight (best, n))], [(best, n)], [],
        s.remaining.toNat - weight (best, n)⟩ := by
    rw [walk_whole (a := (best, n)) hb hd hle]
    rfl
  -- the four parts: what is left of the level, the quantity, the trades, the index
  constructor
  · rw [hw]
  · rw [hw]
    exact UInt32.toNat_sub_of_le _ _ (UInt32.le_iff_toNat_le.mpr hle)
  · rw [hw]
    simp [tradesFrom, Progress.record, weight]
  · rw [hw, List.map_singleton, eraseAll_cons, eraseAll_nil]
  · refine ⟨[(s.remaining, n.order.quantity)], rfl, fun p hp => ?_⟩
    rw [List.mem_singleton.mp hp]
    exact UInt32.le_iff_toNat_le.mpr hle

/-- The walk over one order that is filled in part. -/
theorem part (hb : branch.blocked best = false) (hpos : 0 < s.remaining) {n : Node}
    (hpart : s.remaining < n.order.quantity) :
    Walks now branch [(best, n)] s
      [(best, { n with
        order := { n.order with quantity := n.order.quantity - s.remaining } })]
      { s.record (branch.trade best n.order s.remaining (now s.trades.length)) s.remaining with
        subtractions := s.subtractions ++ [(s.remaining, s.remaining)]
          ++ [(n.order.quantity, s.remaining)] } := by
  have hd : s.remaining.toNat ≠ 0 := Nat.ne_of_gt (UInt32.lt_iff_toNat_lt.mp hpos)
  have hw := walk_part hb hd (UInt32.lt_iff_toNat_lt.mp hpart : _ < weight (best, n)) []
  constructor
  · rw [hw]
    simp [reduceBy]
  · rw [hw]
    simp [Progress.record]
  · rw [hw]
    simp [tradesFrom, Progress.record]
  · rw [hw]
    rfl
  -- two subtractions: from the incoming order, which ends at zero, and from the maker
  · refine ⟨[(s.remaining, s.remaining), (n.order.quantity, s.remaining)], by simp, ?_⟩
    intro p hp
    rcases List.mem_cons.mp hp with rfl | hp
    · exact UInt32.le_refl _
    · rw [List.mem_singleton.mp hp]
      exact UInt32.le_of_lt hpart

end Walks

/-! ### The inner loop -/

/-- **The inner loop returns, and makes its walk over the level.** -/
theorem fillLevel_eq (now : Clock) {branch : Branch} {best : Price}
    (hb : branch.blocked best = false) (orders : List Node) (s : Progress) :
    ∃ orders' s', fillLevel now branch best orders s = .ok (orders', s') ∧
      Walks now branch (orders.map fun n => (best, n)) s (orders'.map fun n => (best, n)) s' := by
  fun_induction fillLevel now branch best orders s with
  | case1 s => exact ⟨[], s, rfl, Walks.nil now branch s⟩
  | case2 s matched rest hpos filled t hfull ih =>
    obtain ⟨orders', s', heq, hwalk⟩ := ih
    have hfilled : filled = matched.order.quantity := hfull.symm
    refine ⟨orders', s', heq, ?_⟩
    apply Walks.append (Walks.whole hb hpos hfull) (Or.inl rfl)
    simp only [t, hfilled] at hwalk
    exact hwalk
  | case3 s matched rest hpos filled t hpart e he =>
    -- `reduce_quantity` cannot throw: what is filled is at most what the order has
    have hle : filled ≤ matched.order.quantity := by
      rw [UInt32.le_iff_toNat_le]
      simp only [filled, toNat_stdMin]
      omega
    rw [Order.reduceQuantity, if_neg (UInt32.not_lt.mpr hle)] at he
    exact absurd he (by simp)
  | case4 s matched rest hpos filled t hpart order he ih =>
    obtain ⟨orders', s', heq, hwalk⟩ := ih
    -- the order has more than is wanted, so that all of the remaining quantity is filled
    have hlt : s.remaining < matched.order.quantity := by
      refine UInt32.not_le.mp fun hle => hpart ?_
      simp only [filled, stdMin]
      rw [if_neg (UInt32.not_lt.mpr hle)]
    have hfilled : filled = s.remaining := by
      simp only [filled, stdMin]
      rw [if_pos hlt]
    rw [Order.reduceQuantity, hfilled, if_neg (UInt32.not_lt.mpr (UInt32.le_of_lt hlt))] at he
    obtain rfl := Except.ok.inj he
    refine ⟨orders', s', heq, ?_⟩
    refine Walks.append (Walks.part hb hpos hlt) (Or.inr ?_) ?_
    · simp [Progress.record]
    · simp only [t, hfilled] at hwalk
      exact hwalk
  | case5 s matched rest hpos =>
    have hzero : s.remaining = 0 := UInt32.le_zero_iff.mp (UInt32.not_lt.mp hpos)
    exact ⟨matched :: rest, s, rfl, Walks.stop (Or.inl hzero)⟩

/-! ### The outer loop -/

section Levels

variable {lt : Price → Price → Prop} [DecidableRel lt] [IsStrictTotalOrder Price lt]

omit [DecidableRel lt] in
/-- When the best level is blocked, so is every order of the side. -/
theorem blocked_flatten {branch : Branch}
    (hmono : ∀ p q, lt p q → branch.blocked p = true → branch.blocked q = true)
    {levels : Levels lt} {e : Price × List Node} (hbegin : levels.begin? = some e)
    (hb : branch.blocked e.1 = true) {a : Price × Node} (ha : a ∈ levels.flatten) :
    branch.blocked a.1 = true := by
  obtain ⟨l, hl, -⟩ := SortedMap.exists_toList_of_begin hbegin
  have hs := levels.sorted
  rw [hl, List.pairwise_cons] at hs
  obtain ⟨e', he', hea⟩ := SortedMap.fst_mem_of_mem_flattenList ha
  rw [← hea]
  rw [hl] at he'
  rcases List.mem_cons.mp he' with rfl | he'
  · exact hb
  · exact hmono e.1 e'.1 (hs.1 e' he') hb

/-- **The outer loop returns, and makes its walk over the whole side.**  It leaves
no level empty when it found none empty. -/
theorem matchLevels_eq (now : Clock) {branch : Branch}
    (hmono : ∀ p q, lt p q → branch.blocked p = true → branch.blocked q = true)
    (levels : Levels lt) (s : Progress) :
    ∃ levels' s', matchLevels now branch levels s = .ok (levels', s') ∧
      Walks now branch levels.flatten s levels'.flatten s' ∧
      (levels.NoEmpty → levels'.NoEmpty) := by
  fun_induction matchLevels now branch levels s with
  | case1 levels s hpos hbegin =>
    have hnil : levels.flatten = [] := by
      rw [SortedMap.begin?, List.head?_eq_none_iff] at hbegin
      rw [SortedMap.flatten, hbegin, SortedMap.flattenList_nil]
    exact ⟨levels, s, rfl, by rw [hnil]; exact Walks.nil now branch s, id⟩
  | case2 levels s hpos best v hbegin hblocked =>
    refine ⟨levels, s, rfl, ?_, id⟩
    rcases hq : levels.flatten with _ | ⟨a, q⟩
    · exact Walks.nil now branch s
    · refine Walks.stop (Or.inr ⟨a, q, rfl, blocked_flatten hmono hbegin hblocked ?_⟩)
      rw [hq]
      exact List.mem_cons_self
  | case3 levels s hpos best v hbegin hblocked t hfill =>
    obtain ⟨orders', s', heq, -⟩ :=
      fillLevel_eq now (Bool.eq_false_iff.mpr hblocked) (levels.getD best []) s
    rw [heq] at hfill
    exact absurd hfill (by simp)
  | case4 levels s hpos best v hbegin hblocked orders t hfill ih =>
    obtain ⟨orders', s', heq, hwalk⟩ :=
      fillLevel_eq now (Bool.eq_false_iff.mpr hblocked) (levels.getD best []) s
    rw [hfill] at heq
    obtain ⟨rfl, rfl⟩ := Prod.mk.inj (Except.ok.inj heq)
    obtain ⟨levels', s'', heq', hwalk', hne⟩ := ih
    obtain ⟨l, hl, hget⟩ := SortedMap.exists_toList_of_begin hbegin
    have hget' : levels.getD best [] = v := hget []
    obtain ⟨-, hend⟩ := fillLevel_progress _ _ _ _ _ hfill
    have hput := OrderBook.toList_putBack_begin hl orders
    -- what is left of the level comes back in front of the other levels
    have hflat : (OrderBook.putBack levels best orders).flatten
        = (orders.map fun n => (best, n)) ++ SortedMap.flattenList l := by
      rw [SortedMap.flatten, hput]
      cases orders with
      | nil => rfl
      | cons n orders => rfl
    refine ⟨levels', s'', heq', ?_, fun h => hne ?_⟩
    · rw [SortedMap.flatten, hl, SortedMap.flattenList_cons]
      rw [hget'] at hwalk
      refine Walks.append hwalk ?_ (hflat ▸ hwalk')
      rcases hend with hend | hend
      · exact Or.inl (by rw [hend]; rfl)
      · exact Or.inr hend
    · intro e he
      rw [hput] at he
      cases orders with
      | nil => exact h e (by rw [hl]; exact List.mem_cons_of_mem _ he)
      | cons n orders =>
        rcases List.mem_cons.mp he with rfl | he
        · exact List.cons_ne_nil n orders
        · exact h e (by rw [hl]; exact List.mem_cons_of_mem _ he)
  | case5 levels s hpos =>
    have hzero : s.remaining = 0 := UInt32.le_zero_iff.mp (UInt32.not_lt.mp hpos)
    exact ⟨levels, s, rfl, Walks.stop (Or.inl hzero), id⟩

end Levels

end MatchingEngine

end Exchange
