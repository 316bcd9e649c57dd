import Exchange.Book.Operations
import Mathlib.Data.List.Nodup
import Mathlib.Data.List.Perm.Basic

/-!
# The representation invariant of the book

Levels, queues and index are written by separate statements of three operations,
and `match` drops index entries by id, not by position.  The invariant that
survives this for arbitrary ids is one-directional: an index entry refers to a live
node with its id, while a resting order need not have an entry.

## Main definitions

* `OrderBook.Inv` — the representation invariant.
* `Call`, `OrderBook.step`, `OrderBook.run` — runs of calls to the book.

## Main results

* `Inv.inserts`, `Inv.removes`, `Inv.takes` — the invariant survives each kind of
  change.
* `Inv.run` — the invariant holds in every state a run reaches.
* `cancelOrder_eq_ok` — under the invariant a cancel of an indexed id removes the
  order its entry points to.
* `representation_invariant` — what the invariant says of the maps themselves.
-/

namespace Exchange

open MatchingEngine

/-! ### What a fill does not touch -/

theorem weight_reduceBy {a : Price × Node} {k : ℕ} (h : k ≤ weight a) :
    weight (reduceBy a k) = weight a - k := by
  have hlt : k < 2 ^ 32 := Nat.lt_of_le_of_lt h a.2.order.quantity.toNat_lt
  have hk : (UInt32.ofNat k).toNat = k := UInt32.toNat_ofNat_of_lt' hlt
  have hle : UInt32.ofNat k ≤ a.2.order.quantity := by
    rw [UInt32.le_iff_toNat_le, hk]
    exact h
  show (a.2.order.quantity - UInt32.ofNat k).toNat = _
  rw [UInt32.toNat_sub_of_le _ _ hle, hk]
  rfl

/-- All of a resting order but its quantity. -/
def fixedPart (a : Price × Node) : Price × ℕ × Order :=
  (a.1, a.2.pos, { a.2.order with quantity := 0 })

theorem fixedPart_reduceBy (a : Price × Node) (k : ℕ) : fixedPart (reduceBy a k) = fixedPart a :=
  rfl

theorem fixedPart_inj {a b : Price × Node} (h : fixedPart a = fixedPart b) :
    a.1 = b.1 ∧ a.2.pos = b.2.pos ∧ a.2.order.id = b.2.order.id ∧
      a.2.order.price = b.2.order.price ∧ a.2.order.side = b.2.order.side ∧
      a.2.order.orderType = b.2.order.orderType ∧
      a.2.order.timestamp = b.2.order.timestamp := by
  simp only [fixedPart, Prod.mk.injEq, Order.mk.injEq] at h
  exact ⟨h.1, h.2.1, h.2.2.2.1, h.2.2.2.2.1, h.2.2.2.2.2.2.1, h.2.2.2.2.2.2.2, h.2.2.1⟩

/-- An order left by a walk was there before, but for its quantity, which is still
positive if it was. -/
theorem exists_of_mem_left {book : OrderBook} {order : Order} {b : Price × Node}
    (h : b ∈ (sweepOf book order).left) :
    ∃ a ∈ book.restingOn order.side.opposite, fixedPart a = fixedPart b ∧
      (0 < weight a → 0 < weight b) ∧ weight b ≤ weight a := by
  rcases mem_left_cases _ _ _ h with h | ⟨a, ha, k, hk, hlt, rfl⟩
  · exact ⟨b, h, rfl, id, Nat.le_refl _⟩
  · refine ⟨a, ha, rfl, fun _ => ?_, ?_⟩ <;> rw [weight_reduceBy (Nat.le_of_lt hlt)] <;> omega

/-- An order that is filled was resting on the opposite side. -/
theorem mem_of_gone {book : OrderBook} {order : Order}
    {a : Price × Node} (ha : a ∈ (sweepOf book order).gone) :
    a ∈ book.restingOn order.side.opposite := by
  obtain ⟨done, rest, hq, -, -, hdone, -⟩ := sweep_cases weight reduceBy
    (fun a => (branchOf order).blocked a.1) (book.restingOn order.side.opposite)
    order.quantity.toNat
  rw [hq, ← hdone]
  exact List.mem_append_left _ ha

namespace OrderBook

/-! ### The resting orders as a whole -/

theorem resting_eq (book : OrderBook) :
    book.resting = book.restingOn .BID ++ book.restingOn .ASK := rfl

theorem resting_perm (book : OrderBook) {side : Side} (h : side.IsProper) :
    book.resting.Perm (book.restingOn side ++ book.restingOn side.opposite) := by
  rcases h with rfl | rfl
  · exact List.Perm.refl _
  · exact List.perm_append_comm

theorem isProper_of_mem {book : OrderBook} {side : Side} {a : Price × Node}
    (h : a ∈ book.restingOn side) : side.IsProper := by
  by_contra hs
  rw [book.restingOn_of_not_isProper hs] at h
  exact absurd h List.not_mem_nil

theorem mem_resting_iff {book : OrderBook} {a : Price × Node} :
    a ∈ book.resting ↔ ∃ side, a ∈ book.restingOn side := by
  rw [resting_eq, List.mem_append]
  constructor
  · rintro (h | h)
    · exact ⟨_, h⟩
    · exact ⟨_, h⟩
  · rintro ⟨side, h⟩
    rcases isProper_of_mem h with rfl | rfl
    · exact Or.inl h
    · exact Or.inr h

theorem opposite_ne_self {side : Side} (h : side.IsProper) : side.opposite ≠ side := by
  rcases h with rfl | rfl <;> decide

theorem Inserts.resting_perm {book book' : OrderBook} {order : Order}
    (h : book.Inserts order book') (hs : order.side.IsProper) :
    book'.resting.Perm ((order.price, ⟨book.nextPos, order⟩) :: book.resting) := by
  obtain ⟨A, B, hA, hB, -, -⟩ := h.queue
  refine (book'.resting_perm hs).trans (List.Perm.trans ?_ ((book.resting_perm hs).symm.cons _))
  rw [hB, hA, h.other _ (opposite_ne_self hs), ← List.cons_append]
  exact List.Perm.append_right _ List.perm_middle

theorem Removes.resting_perm {book book' : OrderBook} {id : OrderId} {side : Side} {price : Price}
    {n : Node} (h : book.Removes id side price n book') :
    book.resting.Perm ((price, n) :: book'.resting) := by
  obtain ⟨A, B, hA, hB⟩ := h.queue
  have hmem : (price, n) ∈ book.restingOn side := by rw [hA]; simp
  have hs : side.IsProper := isProper_of_mem hmem
  refine (book.resting_perm hs).trans (List.Perm.trans ?_ ((book'.resting_perm hs).symm.cons _))
  rw [hB, hA, h.other _ (opposite_ne_self hs), ← List.cons_append]
  exact List.Perm.append_right _ List.perm_middle

end OrderBook

namespace MatchingEngine.Takes

/-- An order that rests after a walk was there before, up to its quantity. -/
theorem exists_of_mem {book mid : OrderBook} {order : Order} (h : Takes book order mid)
    {side : Side} {b : Price × Node} (hb : b ∈ mid.restingOn side) :
    ∃ a ∈ book.restingOn side, fixedPart a = fixedPart b ∧ (0 < weight a → 0 < weight b) ∧
      weight b ≤ weight a := by
  by_cases hside : side = order.side.opposite
  · subst hside
    rw [h.queue] at hb
    exact exists_of_mem_left hb
  · rw [h.other side hside] at hb
    exact ⟨b, hb, rfl, id, Nat.le_refl _⟩

/-- An order that was there before a walk has gone or still rests, up to its
quantity. -/
theorem gone_or_mem {book mid : OrderBook} {order : Order} (h : Takes book order mid)
    {side : Side} {a : Price × Node} (ha : a ∈ book.restingOn side) :
    (∃ b ∈ (sweepOf book order).gone, fixedPart b = fixedPart a) ∨
      ∃ b ∈ mid.restingOn side, fixedPart b = fixedPart a := by
  by_cases hside : side = order.side.opposite
  · subst hside
    have hcut := map_gone_append_left weight reduceBy (fun a => (branchOf order).blocked a.1)
      fixedPart fixedPart_reduceBy (book.restingOn order.side.opposite) order.quantity.toNat
    have hmem := List.mem_map_of_mem (f := fixedPart) ha
    rw [hcut, List.mem_append, List.mem_map, List.mem_map] at hmem
    rw [h.queue]
    exact hmem
  · exact Or.inr ⟨a, by rw [h.other side hside]; exact ha, rfl⟩

/-- The part of the book that fills do not touch, before and after a walk. -/
theorem map_resting_perm {book mid : OrderBook} {order : Order}
    (h : Takes book order mid) {β : Type} (f : Price × Node → β)
    (hf : ∀ a k, f (reduceBy a k) = f a) :
    (book.resting.map f).Perm ((sweepOf book order).gone.map f ++ mid.resting.map f) := by
  have hcut : (book.restingOn order.side.opposite).map f = (sweepOf book order).gone.map f
      ++ (mid.restingOn order.side.opposite).map f := by
    rw [h.queue]
    exact map_gone_append_left _ _ _ f hf _ _
  by_cases hs : order.side.opposite.IsProper
  · refine ((book.resting_perm hs).map f).trans
      (List.Perm.trans ?_ (((mid.resting_perm hs).map f).symm.append_left _))
    rw [List.map_append, List.map_append, hcut, h.other _ (OrderBook.opposite_ne_self hs),
      List.append_assoc]
  · -- no side is walked over
    have hgone : (sweepOf book order).gone.map f = [] := by
      rw [book.restingOn_of_not_isProper hs, List.map_nil] at hcut
      exact (List.append_eq_nil_iff.mp hcut.symm).1
    have hother : ∀ side, side.IsProper → mid.restingOn side = book.restingOn side :=
      fun side hside => h.other side fun heq => hs (heq ▸ hside)
    rw [hgone, OrderBook.resting_eq, OrderBook.resting_eq, hother _ (Or.inl rfl),
      hother _ (Or.inr rfl)]
    exact List.Perm.refl _

end MatchingEngine.Takes

/-! ### The invariant -/

namespace OrderBook

/-- The representation invariant of the book. -/
structure Inv (book : OrderBook) : Prop where
  /-- No level is empty. -/
  noEmpty : book.NoEmptyLevels
  /-- Only limit orders with some quantity left rest, on their own side and at the
  level of their own price. -/
  orders : ∀ side, ∀ a ∈ book.restingOn side, a.2.order.orderType = .LIMIT ∧
    a.2.order.side = side ∧ a.2.order.price = a.1 ∧ 0 < a.2.order.quantity
  /-- An index entry refers to a live node that carries its id. -/
  index : ∀ id loc, book.orderMap id = some loc →
    ∃ n, (loc.price, n) ∈ book.restingOn loc.side ∧ n.pos = loc.listPosition ∧ n.order.id = id
  /-- The node counter is ahead of every node. -/
  fresh : ∀ a ∈ book.resting, a.2.pos < book.nextPos
  /-- Nodes have different identities. -/
  distinct : (book.resting.map fun a => a.2.pos).Nodup

theorem inv_empty : OrderBook.empty.Inv where
  noEmpty := ⟨SortedMap.noEmpty_empty, SortedMap.noEmpty_empty⟩
  orders := by
    intro side a ha
    have hnil : OrderBook.empty.restingOn side = [] := by
      rw [restingOn]
      split
      · rfl
      · split <;> rfl
    rw [hnil] at ha
    exact absurd ha List.not_mem_nil
  index := fun _ _ h => absurd h (by simp [empty])
  fresh := fun _ ha => absurd ha List.not_mem_nil
  distinct := List.nodup_nil

variable {book book' : OrderBook}

/-- The nodes of a book are told apart by their identity. -/
theorem Inv.eq_of_pos {book : OrderBook} (h : book.Inv) {a b : Price × Node}
    (ha : a ∈ book.resting) (hb : b ∈ book.resting) (hpos : a.2.pos = b.2.pos) : a = b :=
  List.inj_on_of_nodup_map h.distinct ha hb hpos

/-- Adding a limit order keeps the invariant. -/
theorem Inv.inserts (h : book.Inv) {order : Order} (hi : book.Inserts order book')
    (hl : order.orderType = .LIMIT) (hs : order.side.IsProper) (hq : 0 < order.quantity) :
    book'.Inv := by
  have hperm := hi.resting_perm hs
  obtain ⟨A, B, hA, hB, -, -⟩ := hi.queue
  have hmem : ∀ side, ∀ a, a ∈ book'.restingOn side ↔
      a ∈ book.restingOn side ∨ side = order.side ∧ a = (order.price, ⟨book.nextPos, order⟩) := by
    intro side a
    by_cases hside : side = order.side
    · subst hside
      rw [hA, hB]
      simp only [List.mem_append, List.mem_cons, true_and]
      tauto
    · rw [hi.other side hside]
      simp [hside]
  constructor
  · exact hi.noEmpty h.noEmpty
  · intro side a ha
    rcases (hmem side a).mp ha with ha | ⟨rfl, rfl⟩
    · exact h.orders side a ha
    · exact ⟨hl, rfl, rfl, hq⟩
  · intro id loc hloc
    -- the new entry points to the new node; the others point where they did
    rw [hi.orderMap, Function.update_apply] at hloc
    split at hloc
    · next hid =>
      obtain rfl := Option.some.inj hloc
      exact ⟨⟨book.nextPos, order⟩, (hmem _ _).mpr (Or.inr ⟨rfl, rfl⟩), rfl, hid.symm⟩
    · obtain ⟨n, hn, hpos, hid⟩ := h.index id loc hloc
      exact ⟨n, (hmem _ _).mpr (Or.inl hn), hpos, hid⟩
  · intro a ha
    rw [hi.nextPos]
    rcases List.mem_cons.mp (hperm.mem_iff.mp ha) with rfl | ha
    · exact Nat.lt_succ_self _
    · exact Nat.lt_succ_of_lt (h.fresh a ha)
  -- the position of the new node has not been used before
  · rw [(hperm.map _).nodup_iff, List.map_cons, List.nodup_cons]
    refine ⟨fun hin => ?_, h.distinct⟩
    obtain ⟨a, ha, hpos⟩ := List.mem_map.mp hin
    exact absurd hpos (Nat.ne_of_lt (h.fresh a ha))

/-- Removing an order together with the index entry of its id keeps the invariant. -/
theorem Inv.removes (h : book.Inv) {id : OrderId} {side : Side} {price : Price} {n : Node}
    (hr : book.Removes id side price n book') (hn : n.order.id = id) : book'.Inv := by
  have hperm := hr.resting_perm
  obtain ⟨A, B, hA, hB⟩ := hr.queue
  have hsub : ∀ side', ∀ a ∈ book'.restingOn side', a ∈ book.restingOn side' := by
    intro side' a ha
    by_cases hside : side' = side
    · subst hside
      rw [hB] at ha
      rw [hA]
      simp only [List.mem_append, List.mem_cons] at ha ⊢
      tauto
    · rw [← hr.other side' hside]
      exact ha
  have hkeep : ∀ side', ∀ a ∈ book.restingOn side', a ≠ (price, n) → a ∈ book'.restingOn side' := by
    intro side' a ha hne
    by_cases hside : side' = side
    · subst hside
      rw [hA] at ha
      rw [hB]
      simp only [List.mem_append, List.mem_cons] at ha ⊢
      tauto
    · rw [hr.other side' hside]
      exact ha
  constructor
  · exact hr.noEmpty h.noEmpty
  · exact fun side' a ha => h.orders side' a (hsub side' a ha)
  · intro id' loc hloc
    rw [hr.orderMap, Function.update_apply] at hloc
    split at hloc
    · exact absurd hloc (by simp)
    · next hid =>
      obtain ⟨n', hn', hpos, hid'⟩ := h.index id' loc hloc
      -- an entry of another id does not point to the node that is removed
      refine ⟨n', hkeep _ _ hn' fun heq => hid ?_, hpos, hid'⟩
      rw [← hid', (Prod.mk.inj heq).2, hn]
  · intro a ha
    rw [hr.nextPos]
    exact h.fresh a (hperm.mem_iff.mpr (List.mem_cons_of_mem _ ha))
  · exact (List.nodup_cons.mp ((hperm.map _).nodup_iff.mp h.distinct)).2

/-- Serving an incoming order from the opposite side keeps the invariant. -/
theorem Inv.takes (h : book.Inv) {order : Order} {mid : OrderBook} (ht : Takes book order mid) :
    mid.Inv := by
  have hperm := ht.map_resting_perm (fun a => a.2.pos) fun _ _ => rfl
  constructor
  · exact ht.noEmpty h.noEmpty
  · intro side b hb
    obtain ⟨a, ha, hab, hpos, -⟩ := ht.exists_of_mem hb
    obtain ⟨hp, -, -, hprice, hside, htype, -⟩ := fixedPart_inj hab
    obtain ⟨h1, h2, h3, h4⟩ := h.orders side a ha
    refine ⟨htype ▸ h1, hside ▸ h2, hprice ▸ hp ▸ h3, ?_⟩
    exact UInt32.lt_iff_toNat_lt.mpr (hpos (UInt32.lt_iff_toNat_lt.mp h4))
  · intro id loc hloc
    rw [ht.orderMap, eraseAll] at hloc
    split at hloc
    · exact absurd hloc (by simp)
    · next hid =>
      -- an entry that is left belongs to no order that is gone, since entries are erased
      -- by id; so its node is still there, perhaps with a smaller quantity
      obtain ⟨n, hn, hpos, hnid⟩ := h.index id loc hloc
      rcases ht.gone_or_mem hn with ⟨b, hb, hab⟩ | ⟨b, hb, hab⟩
      · obtain ⟨-, -, hbid, -⟩ := fixedPart_inj hab
        exact absurd (List.mem_map.mpr ⟨b, hb, hbid.trans hnid⟩) hid
      · obtain ⟨hbp, hbpos, hbid, -⟩ := fixedPart_inj hab
        have hbp' : b.1 = loc.price := hbp
        exact ⟨b.2, hbp' ▸ hb, hbpos.trans hpos, hbid.trans hnid⟩
  · intro b hb
    obtain ⟨side, hb⟩ := mem_resting_iff.mp hb
    obtain ⟨a, ha, hab, -⟩ := ht.exists_of_mem hb
    rw [ht.nextPos, ← (fixedPart_inj hab).2.1]
    exact h.fresh a (mem_resting_iff.mpr ⟨side, ha⟩)
  · exact (List.nodup_append.mp (hperm.nodup_iff.mp h.distinct)).2.1

/-- Under the invariant, a cancel of an id with an index entry removes the order the
entry points to. -/
theorem Inv.cancelOrder_eq_ok (h : book.Inv) {id : OrderId} {loc : OrderLocation}
    (hloc : book.orderMap id = some loc) :
    ∃ n book', n.pos = loc.listPosition ∧ n.order.id = id ∧ book.cancelOrder id = .ok book' ∧
      book.Removes id loc.side loc.price n book' := by
  obtain ⟨n, hn, hpos, hid⟩ := h.index id loc hloc
  rcases cancelOrder_cases hloc (isProper_of_mem hn) with ⟨hdead, -⟩ | ⟨n', book', hpos', heq, hr⟩
  · exact absurd hpos (hdead n hn)
  · obtain ⟨A, B, hA, -⟩ := hr.queue
    have hn' : (loc.price, n') ∈ book.restingOn loc.side := by rw [hA]; simp
    have hsame : (loc.price, n') = (loc.price, n) :=
      h.eq_of_pos (mem_resting_iff.mpr ⟨_, hn'⟩) (mem_resting_iff.mpr ⟨_, hn⟩)
        (hpos'.trans hpos.symm)
    rw [(Prod.mk.inj hsame).2] at hr
    exact ⟨n, book', hpos, hid, heq, hr⟩

/-! ### Runs of calls -/

/-- The book after a call of `match` that returned or threw. -/
def afterMatch : Except (Thrown (OrderBook × List Trade)) Matched → OrderBook
  | .ok r => r.book
  | .error t => t.state.1

end OrderBook

/-- A call to the engine or to the book. -/
inductive Call
  | matchOrder (now : Clock) (order : Order)
  | addOrder (order : Order)
  | cancelOrder (id : OrderId)

/-- The order a call passes, if any, is one the constructor accepts. -/
def Call.Accepted : Call → Prop
  | .matchOrder _ order => order.Constructed
  | .addOrder order => order.Constructed
  | .cancelOrder _ => True

instance (c : Call) : Decidable c.Accepted :=
  match c with
  | .matchOrder _ order => inferInstanceAs (Decidable order.Constructed)
  | .addOrder order => inferInstanceAs (Decidable order.Constructed)
  | .cancelOrder _ => inferInstanceAs (Decidable True)

/-- The call goes to the engine or is a cancel: orders enter the book through
`match` alone. -/
def Call.IsEngine : Call → Prop
  | .addOrder _ => False
  | _ => True

instance (c : Call) : Decidable c.IsEngine :=
  match c with
  | .matchOrder _ _ => inferInstanceAs (Decidable True)
  | .addOrder _ => inferInstanceAs (Decidable False)
  | .cancelOrder _ => inferInstanceAs (Decidable True)

namespace OrderBook

variable {book : OrderBook}

/-- The book after one call.  A cancel that throws has changed nothing. -/
def step (book : OrderBook) : Call → OrderBook
  | .matchOrder now order => afterMatch (MatchingEngine.matchOrder now book order [])
  | .addOrder order => book.addOrder order
  | .cancelOrder id => (book.cancelOrder id).toOption.getD book

/-- The book after a run of calls. -/
def run (book : OrderBook) (calls : List Call) : OrderBook := calls.foldl step book

/-- **The rule for invariants of runs.** -/
theorem run_induction {P : OrderBook → Prop} {ok : Call → Prop}
    (hstep : ∀ book c, P book → ok c → P (book.step c)) :
    ∀ (calls : List Call) (book : OrderBook), P book → (∀ c ∈ calls, ok c) →
      P (book.run calls) := by
  intro calls
  induction calls with
  | nil => intro book h _; exact h
  | cons c calls ih =>
    intro book h hok
    exact ih (book.step c) (hstep book c h (hok c List.mem_cons_self))
      fun c' hc' => hok c' (List.mem_cons_of_mem c hc')

/-- A cancel changes nothing, or removes an order by its index entry. -/
theorem Inv.step_cancelOrder (h : book.Inv) (id : OrderId) :
    book.step (.cancelOrder id) = book ∨
      ∃ loc n, book.orderMap id = some loc ∧ n.order.id = id ∧
        book.Removes id loc.side loc.price n (book.step (.cancelOrder id)) := by
  have hstep : book.step (.cancelOrder id) = (book.cancelOrder id).toOption.getD book := rfl
  cases hloc : book.orderMap id with
  | none => exact Or.inl (by rw [hstep, cancelOrder_of_none hloc]; rfl)
  | some loc =>
    obtain ⟨n, book', -, hid, heq, hr⟩ := h.cancelOrder_eq_ok hloc
    exact Or.inr ⟨loc, n, rfl, hid, by rw [hstep, heq]; exact hr⟩

/-- Adding an order that the constructor accepts changes nothing, or inserts it. -/
theorem addOrder_cases (book : OrderBook) (order : Order) :
    book.addOrder order = book ∨ order.orderType = .LIMIT ∧ order.side.IsProper ∧
      book.Inserts order (book.addOrder order) := by
  by_cases h : order.orderType = .LIMIT ∧ order.side.IsProper
  · exact Or.inr ⟨h.1, h.2, book.addOrder_inserts h.1 h.2⟩
  · exact Or.inl (book.addOrder_ignored h)

/-- A call of `match` takes from the opposite side, and adds the remainder of a limit order
of one of the two sides. -/
theorem step_matchOrder {order : Order} (hc : order.Constructed) (now : Clock) (book : OrderBook) :
    ∃ mid, Takes book order mid ∧
      (book.step (.matchOrder now order) = mid ∧
          ¬ (0 < (sweepOf book order).unmet ∧ order.orderType = .LIMIT ∧ order.side.IsProper) ∨
        ∃ ts, 0 < (sweepOf book order).unmet ∧ order.orderType = .LIMIT ∧ order.side.IsProper ∧
          mid.Inserts (remainder order ts (sweepOf book order).unmet)
            (book.step (.matchOrder now order))) := by
  obtain ⟨mid, subs, ht, -, heq⟩ := matchOrder_eq hc now book []
  have hstep : book.step (.matchOrder now order)
      = afterMatch (MatchingEngine.matchOrder now book order []) := rfl
  refine ⟨mid, ht, ?_⟩
  rw [hstep, heq, afterMatch]
  split
  · next h =>
    by_cases hs : order.side.IsProper
    · exact Or.inr ⟨_, h.1, h.2, hs, addOrder_remainder mid h.2 hs _ _⟩
    · exact Or.inl ⟨addOrder_ignored mid fun hp => hs hp.2, fun hrest => hs hrest.2.2⟩
  · next h => exact Or.inl ⟨rfl, fun hrest => h ⟨hrest.1, hrest.2.1⟩⟩

/-- What is unmet of a quantity is a quantity. -/
theorem toNat_remainder (book : OrderBook) (order : Order) (ts : Timestamp) :
    (remainder order ts (sweepOf book order).unmet).quantity.toNat
      = (sweepOf book order).unmet := by
  have hsum := sum_fills_add_unmet weight reduceBy (fun a => (branchOf order).blocked a.1)
    (book.restingOn order.side.opposite) order.quantity.toNat
  have hlt := order.quantity.toNat_lt
  apply UInt32.toNat_ofNat_of_lt'
  show (sweepOf book order).unmet < 2 ^ 32
  unfold sweepOf walk
  omega

/-- One call keeps the invariant. -/
theorem Inv.step (h : book.Inv) {c : Call} (hc : c.Accepted) : (book.step c).Inv := by
  cases c with
  | matchOrder now order =>
    obtain ⟨mid, ht, ⟨heq, -⟩ | ⟨ts, hpos, hl, hs, hi⟩⟩ := step_matchOrder hc now book
    · rw [heq]; exact h.takes ht
    · refine (h.takes ht).inserts hi hl hs (UInt32.lt_iff_toNat_lt.mpr ?_)
      rw [toNat_remainder]
      exact hpos
  | addOrder order =>
    show (book.addOrder order).Inv
    rcases addOrder_cases book order with heq | ⟨hl, hs, hi⟩
    · rw [heq]; exact h
    · exact h.inserts hi hl hs (Order.constructed_iff.mp hc).2.2
  | cancelOrder id =>
    rcases h.step_cancelOrder id with heq | ⟨loc, n, -, hid, hr⟩
    · rw [heq]; exact h
    · exact h.removes hr hid

/-- **The invariant holds in every state that a run of calls reaches.** -/
theorem Inv.run {calls : List Call} (h : ∀ c ∈ calls, c.Accepted) : (empty.run calls).Inv :=
  run_induction (fun _ _ h hc => h.step hc) calls empty inv_empty h

/-! ### What the invariant says of the maps -/

/-- The levels of a side are in order: none is empty, and what a level stores are
limit orders of the side at the level's price with some quantity left. -/
def LevelsOk {lt : Price → Price → Prop} (side : Side) (levels : Levels lt) : Prop :=
  ∀ e ∈ levels.toList, e.2 ≠ [] ∧ ∀ n ∈ e.2, n.order.orderType = .LIMIT ∧
    n.order.side = side ∧ n.order.price = e.1 ∧ 0 < n.order.quantity

/-- A location is that of an order with the given id in an existing level. -/
def Locates {lt : Price → Price → Prop} (levels : Levels lt) (id : OrderId)
    (loc : OrderLocation) : Prop :=
  ∃ list, (loc.price, list) ∈ levels.toList ∧ ∃ n ∈ list, n.pos = loc.listPosition ∧
    n.order.id = id ∧ n.order.side = loc.side ∧ n.order.price = loc.price

theorem levelsOk_of_orders {lt : Price → Price → Prop} {side : Side} {levels : Levels lt}
    (hne : levels.NoEmpty)
    (h : ∀ a ∈ levels.flatten, a.2.order.orderType = .LIMIT ∧ a.2.order.side = side ∧
      a.2.order.price = a.1 ∧ 0 < a.2.order.quantity) : LevelsOk side levels := by
  intro e he
  refine ⟨hne e he, fun n hn => h (e.1, n) ?_⟩
  exact SortedMap.mem_flatten.mpr ⟨e.2, he, hn⟩

theorem locates_of_mem {lt : Price → Price → Prop} {levels : Levels lt} {id : OrderId}
    {loc : OrderLocation} {n : Node} (hn : (loc.price, n) ∈ levels.flatten)
    (hpos : n.pos = loc.listPosition) (hid : n.order.id = id) (hside : n.order.side = loc.side)
    (hprice : n.order.price = loc.price) : Locates levels id loc := by
  obtain ⟨list, hlist, hmem⟩ := SortedMap.mem_flatten.mp hn
  exact ⟨list, hlist, n, hmem, hpos, hid, hside, hprice⟩

/-- Under the invariant no cancel erases a dead position. -/
theorem Inv.cancelOrder_ne_undefined (h : book.Inv) (id : OrderId) :
    book.cancelOrder id ≠ .error .undefinedBehaviour := by
  cases hloc : book.orderMap id with
  | none => rw [cancelOrder_of_none hloc]; simp
  | some loc =>
    obtain ⟨n, book', -, -, heq, -⟩ := h.cancelOrder_eq_ok hloc
    rw [heq]
    simp

/-- **The book is well formed in every state that a run of calls reaches**, whatever
the ids: the levels are in order, every index entry locates an order of its id in an
existing level, no cancel erases a dead position, and the best prices are the
greatest bid and the least ask that rest. -/
theorem representation_invariant (calls : List Call) (h : ∀ c ∈ calls, c.Accepted) :
    LevelsOk .BID (empty.run calls).bids ∧ LevelsOk .ASK (empty.run calls).asks ∧
    (∀ id loc, (empty.run calls).orderMap id = some loc →
      loc.side = .BID ∧ Locates (empty.run calls).bids id loc ∨
        loc.side = .ASK ∧ Locates (empty.run calls).asks id loc) ∧
    (∀ id, (empty.run calls).cancelOrder id ≠ .error .undefinedBehaviour) ∧
    (∀ p, (empty.run calls).bestBid = some p ↔
      (∃ n, (p, n) ∈ (empty.run calls).bids.flatten) ∧
        ∀ a ∈ (empty.run calls).bids.flatten, a.1 ≤ p) ∧
    (∀ p, (empty.run calls).bestAsk = some p ↔
      (∃ n, (p, n) ∈ (empty.run calls).asks.flatten) ∧
        ∀ a ∈ (empty.run calls).asks.flatten, p ≤ a.1) ∧
    ((empty.run calls).bestBid = none ↔ (empty.run calls).bids.flatten = []) ∧
    ((empty.run calls).bestAsk = none ↔ (empty.run calls).asks.flatten = []) := by
  have hinv : (empty.run calls).Inv := Inv.run h
  generalize empty.run calls = book at hinv
  refine ⟨levelsOk_of_orders hinv.noEmpty.1 (hinv.orders .BID),
    levelsOk_of_orders hinv.noEmpty.2 (hinv.orders .ASK), ?_, hinv.cancelOrder_ne_undefined,
    fun p => ?_, fun p => ?_, hinv.noEmpty.1.begin_eq_none_iff, hinv.noEmpty.2.begin_eq_none_iff⟩
  · intro id loc hloc
    -- the side byte of an entry is one of the two sides, as an order rests there
    obtain ⟨n, hn, hpos, hid⟩ := hinv.index id loc hloc
    obtain ⟨-, hside, hprice, -⟩ := hinv.orders loc.side _ hn
    rcases isProper_of_mem hn with hs | hs
    · rw [hs] at hn
      exact Or.inl ⟨hs, locates_of_mem hn hpos hid hside hprice⟩
    · rw [hs] at hn
      exact Or.inr ⟨hs, locates_of_mem hn hpos hid hside hprice⟩
  · rw [bestBid, hinv.noEmpty.1.begin_eq_some_iff]
    simp only [gt_iff_lt, UInt64.not_lt]
  · rw [bestAsk, hinv.noEmpty.2.begin_eq_some_iff]
    simp only [UInt64.not_lt]

/-- Two orders under one id, a bid and an ask, and a cancel. -/
theorem representation_invariant_repeated_id :
    (empty.run [.matchOrder (fun _ => 0) ⟨0, 7, 100, 5, .BID, .LIMIT⟩,
        .addOrder ⟨0, 7, 90, 3, .ASK, .LIMIT⟩, .cancelOrder 7]).cancelOrder 7
      ≠ .error .undefinedBehaviour :=
  (representation_invariant _ (by decide)).2.2.2.1 7

end OrderBook

end Exchange
