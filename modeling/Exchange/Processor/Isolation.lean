import Exchange.Processor.Routing

/-!
# Isolation between connections

The processor does not know whose an order is: a request acts on whatever its id names,
and the routing table keeps the connection of the last order that came in under an id.
Connections are isolated from each other as long as no request names a resting order of
another connection and no order comes to rest under the id of one that keeps resting.

## Main definitions

* `KeepsApart` — the request keeps to the ids of its own connection.
* `AllKeepApart` — so do all the requests of a run.
* `Owned` — every resting order is routed to the connection it was submitted from.

## Main results

* `Owned.step` — one request keeps the routes with the owners.
* `Owned.untouched` — a request leaves the orders of other connections to trades alone.
* `connections_isolated` — both, for every run.
-/

namespace Exchange

open Bytes MatchingEngine

/-- The request names no resting order of another connection, unless it is refused, and
its order does not come to rest under the id of an order that keeps resting. -/
def KeepsApart (s : Session) (i : Input) : Prop :=
  (i.accepted ≠ none ∨ i.message.type = .CANCEL_ORDER →
      ∀ a ∈ s.processor.book.resting, a.2.order.id = payloadId i.message.payload →
        s.owner a.2.pos = i.message.fd) ∧
    ∀ order, i.accepted = some order → ¬ s.processor.book.Clashes order

/-- All the requests of a run keep apart. -/
def AllKeepApart (failures : ℕ → ℕ) : Session → List Input → Prop
  | _, [] => True
  | s, i :: is =>
      KeepsApart s i ∧ ∀ s', s.step failures i = .ok s' → AllKeepApart failures s' is

/-- Every resting order is routed to the connection it was submitted from. -/
structure Owned (s : Session) : Prop where
  inv : s.processor.book.Inv
  indexed : s.processor.book.Indexed
  routes : ∀ a ∈ s.processor.book.resting,
    s.processor.orderToClientFd a.2.order.id = some (s.owner a.2.pos)

theorem owned_empty : Owned .empty where
  inv := OrderBook.inv_empty
  indexed := OrderBook.indexed_empty
  routes := fun _ ha => absurd ha List.not_mem_nil

/-! ### The quantity of one order -/

/-- In a complete index an order is all that rests under its id. -/
theorem restingTotal_eq_quantity {book : OrderBook} (hinv : book.Inv) (hidx : book.Indexed)
    {side : Side} {a : Price × Node} (ha : a ∈ book.restingOn side) :
    restingTotal side a.2.order.id book = a.2.order.quantity.toNat := by
  obtain ⟨A, B, hAB⟩ := List.append_of_mem ha
  -- the other orders of the side have other ids, and add nothing to the sum
  have hother := hidx.id_ne hinv hAB
  have hzero : ∀ l : List (Price × Node), (∀ b ∈ l, b.2.order.id ≠ a.2.order.id) →
      (l.map fun b => if b.2.order.id = a.2.order.id then b.2.order.quantity.toNat else 0).sum
        = 0 := by
    intro l hl
    rw [List.sum_eq_zero]
    intro x hx
    obtain ⟨b, hb, rfl⟩ := List.mem_map.mp hx
    exact if_neg (hl b hb)
  rw [restingTotal_of_queue hAB, List.map_append, List.map_cons, List.sum_append, List.sum_cons,
    hzero A fun b hb => hother b (List.mem_append_left _ hb),
    hzero B fun b hb => hother b (List.mem_append_right _ hb), if_pos rfl]
  omega

/-- An id that does not rest has nothing resting. -/
theorem restingTotal_eq_zero {book : OrderBook} {id : OrderId} (h : ¬ book.Rests id)
    (side : Side) : restingTotal side id book = 0 := by
  rw [restingTotal, List.sum_eq_zero]
  intro x hx
  obtain ⟨b, hb, rfl⟩ := List.mem_map.mp hx
  exact if_neg fun hid => h ⟨b, OrderBook.mem_resting_iff.mpr ⟨side, hb⟩, hid⟩

/-- The order `a` of a side still rests with what `trades` left of its quantity, or they
took all of it. -/
def OrderBook.LeftTo (book' : OrderBook) (trades : List Trade) (side : Side) (a : Price × Node) :
    Prop :=
  (∃ b ∈ book'.restingOn side, fixedPart b = fixedPart a ∧
      b.2.order.quantity.toNat + tradedTotal side a.2.order.id trades
        = a.2.order.quantity.toNat) ∨
    tradedTotal side a.2.order.id trades = a.2.order.quantity.toNat

/-- **A match under another id leaves a resting order to its trades.** -/
theorem leftTo_matchOrder {book : OrderBook} (hinv : book.Inv) (hidx : book.Indexed)
    {i : Input} {order : Order} (hacc : i.accepted = some order) (hc : order.Constructed)
    {side : Side} {a : Price × Node} (ha : a ∈ book.restingOn side)
    (hne : order.id ≠ a.2.order.id) :
    (book.step (.matchOrder i.times.now order)).LeftTo (tradesOf book i) side a := by
  have hside : side.IsProper := OrderBook.isProper_of_mem ha
  obtain ⟨mid, ht, hcase⟩ := OrderBook.step_matchOrder hc i.times.now book
  -- what rests after the walk also rests after the remainder has been added
  have hkeep : ∀ b ∈ mid.restingOn side,
      b ∈ (book.step (.matchOrder i.times.now order)).restingOn side := by
    intro b hb
    rcases hcase with ⟨heq, -⟩ | ⟨ts, -, -, -, hi⟩
    · rw [heq]
      exact hb
    · by_cases hown : side = (remainder order ts (sweepOf book order).unmet).side
      · obtain ⟨A, B, hA, hB, -, -⟩ := hi.queue
        rw [hown] at hb ⊢
        rw [hA] at hb
        rw [hB]
        simp only [List.mem_append, List.mem_cons] at hb ⊢
        tauto
      · rw [hi.other side hown]
        exact hb
  rw [OrderBook.LeftTo, tradesOf_of_accepted hacc]
  by_cases hs : order.side.IsProper
  · have hbal := ht.balance hs hside a.2.order.id i.times.now 0
    rw [orderTotal_singleton, if_neg fun h => hne h.2, if_neg fun h => hne h.2,
      restingTotal_eq_quantity hinv hidx ha] at hbal
    by_cases hrests : mid.Rests a.2.order.id
    · obtain ⟨b, hb, hid⟩ := hrests
      -- the order of that id after the walk is what is left of this one
      obtain ⟨side', hb'⟩ := OrderBook.mem_resting_iff.mp hb
      obtain ⟨c, hc', hcb, -⟩ := ht.exists_of_mem hb'
      have hca : c = a := hidx.eq_of_id hinv (OrderBook.mem_resting_iff.mpr ⟨side', hc'⟩)
        (OrderBook.mem_resting_iff.mpr ⟨side, ha⟩) ((fixedPart_inj hcb).2.2.1.trans hid)
      subst hca
      have hsame : side' = side :=
        (hinv.orders side' c hc').2.1.symm.trans (hinv.orders side c ha).2.1
      subst hsame
      have hb_total := restingTotal_eq_quantity (hinv.takes ht) (hidx.takes hinv ht) hb'
      rw [hid] at hb_total
      rw [hb_total] at hbal
      exact Or.inl ⟨b, hkeep b hb', hcb.symm, by omega⟩
    · rw [restingTotal_eq_zero hrests] at hbal
      exact Or.inr (by omega)
  · -- a byte that is no side: nothing is traded
    have hsweep : (sweepOf book order).fills = [] := by
      rw [sweepOf, Side.opposite_of_not_isProper hs, book.restingOn_of_not_isProper hs]
      rfl
    have hopp : side ≠ order.side.opposite := by
      rw [Side.opposite_of_not_isProper hs]
      exact fun heq => hs (heq ▸ hside)
    refine Or.inl ⟨a, hkeep a (by rw [ht.other side hopp]; exact ha), rfl, ?_⟩
    rw [hsweep]
    rfl

/-! ### One request -/

namespace Owned

variable {s s' : Session} {i : Input}

/-- The routes after an order has come in. -/
theorem submits (h : Owned s) {order : Order} (hsub : s.Submits i order s')
    (howner : s'.owner = Function.update s.owner s.processor.book.nextPos i.message.fd)
    (hk : KeepsApart s i) : Owned s' := by
  have hroute : ∀ id, Function.update s.processor.orderToClientFd order.id (some i.message.fd) id
      ≠ none → s'.processor.orderToClientFd id
        = Function.update s.processor.orderToClientFd order.id (some i.message.fd) id := by
    intro id hne
    rw [hsub.routes, readRoutes, if_neg fun hnone => hne hnone.1]
  constructor
  · rw [hsub.book]
    exact OrderBook.Inv.step h.inv (show (Call.matchOrder i.times.now order).Accepted from
      hsub.constructed)
  · rw [hsub.book, h.indexed.step_matchOrder_iff h.inv hsub.constructed]
    exact hk.2 order hsub.accepted
  · intro b hb
    rw [hsub.book] at hb
    rcases OrderBook.mem_step_matchOrder hsub.constructed _ hb with ⟨a, ha, hab⟩ | ⟨hpos, hid⟩
    · obtain ⟨-, hpos, hid, -⟩ := fixedPart_inj hab
      have hold : s'.owner a.2.pos = s.owner a.2.pos := by
        rw [howner, Function.update_of_ne (Nat.ne_of_lt (h.inv.fresh a ha))]
      rw [← hid, ← hpos, hold]
      by_cases hsame : a.2.order.id = order.id
      · -- the order came in under the id of a resting order of the same connection
        have hfd : s.owner a.2.pos = i.message.fd :=
          hk.1 (Or.inl (by rw [hsub.accepted]; simp)) a ha (hsame.trans hsub.id_eq)
        have hup : Function.update s.processor.orderToClientFd order.id (some i.message.fd)
            a.2.order.id = some i.message.fd := by
          rw [hsame]
          exact Function.update_self _ _ _
        rw [hroute _ (by rw [hup]; simp), hup, hfd]
      · have hup : Function.update s.processor.orderToClientFd order.id (some i.message.fd)
            a.2.order.id = some (s.owner a.2.pos) := by
          rw [Function.update_of_ne hsame]
          exact h.routes a ha
        rw [hroute _ (by rw [hup]; simp), hup]
    · have hup : Function.update s.processor.orderToClientFd order.id (some i.message.fd)
          b.2.order.id = some i.message.fd := by
        rw [hid]
        exact Function.update_self _ _ _
      rw [hroute _ (by rw [hup]; simp), hup, howner, hpos, Function.update_self]

/-- **One request keeps the routes with the owners, and leaves the orders of other
connections to trades alone.** -/
theorem step (h : Owned s) (failures : ℕ → ℕ) (hw : i.message.WellFormed)
    (hk : KeepsApart s i) :
    ∃ s', s.step failures i = .ok s' ∧ Owned s' ∧
      ∀ side, ∀ a ∈ s.processor.book.restingOn side, s.owner a.2.pos ≠ i.message.fd →
        s'.processor.book.LeftTo (tradesOf s.processor.book i) side a ∧
        s'.processor.orderToClientFd a.2.order.id = some (s.owner a.2.pos) := by
  obtain ⟨s', hs', howner, ⟨order, hsub⟩ | ⟨hacc, hsame, -⟩ |
    ⟨loc, n, hacc, htype, -, hloc, hid, hr, hroutes⟩⟩ := step_cases failures h.inv hw
  · refine ⟨s', hs', h.submits hsub howner hk, fun side a ha hother => ?_⟩
    have hmem : a ∈ s.processor.book.resting := OrderBook.mem_resting_iff.mpr ⟨side, ha⟩
    have hne : order.id ≠ a.2.order.id := fun heq => hother
      (hk.1 (Or.inl (by rw [hsub.accepted]; simp)) a hmem (heq.symm.trans hsub.id_eq))
    refine ⟨?_, ?_⟩
    · rw [hsub.book]
      exact leftTo_matchOrder h.inv h.indexed hsub.accepted hsub.constructed ha hne
    · have hup : Function.update s.processor.orderToClientFd order.id (some i.message.fd)
          a.2.order.id = some (s.owner a.2.pos) := by
        rw [Function.update_of_ne (Ne.symm hne)]
        exact h.routes a hmem
      rw [hsub.routes, readRoutes, if_neg fun hnone => by rw [hup] at hnone; simp at hnone, hup]
  · -- a refused request
    have howned : ∀ a ∈ s.processor.book.resting, s'.owner a.2.pos = s.owner a.2.pos := by
      intro a ha
      rw [howner, Function.update_of_ne (Nat.ne_of_lt (h.inv.fresh a ha))]
    refine ⟨s', hs', ⟨by rw [hsame]; exact h.inv, by rw [hsame]; exact h.indexed, ?_⟩,
      fun side a ha _ => ⟨?_, ?_⟩⟩
    · intro a ha
      rw [hsame] at ha ⊢
      rw [howned a ha]
      exact h.routes a ha
    · rw [hsame, tradesOf_of_none hacc]
      exact Or.inl ⟨a, ha, rfl, rfl⟩
    · rw [hsame]
      exact h.routes a (OrderBook.mem_resting_iff.mpr ⟨side, ha⟩)
  · -- a cancel: what is left has other ids
    refine ⟨s', hs', ⟨h.inv.removes hr hid, h.indexed.removes h.inv hr hid, ?_⟩,
      fun side a ha hother => ?_⟩
    · intro a ha
      obtain ⟨hmem, hne⟩ := OrderBook.mem_of_removes hr h.indexed h.inv hid ha
      rw [hroutes, Function.update_of_ne hne, howner,
        Function.update_of_ne (Nat.ne_of_lt (h.inv.fresh a hmem))]
      exact h.routes a hmem
    · have hmem : a ∈ s.processor.book.resting := OrderBook.mem_resting_iff.mpr ⟨side, ha⟩
      have hne : a.2.order.id ≠ payloadId i.message.payload := fun heq => hother
        (hk.1 (Or.inr htype) a hmem heq)
      refine ⟨?_, ?_⟩
      · rw [tradesOf_of_none hacc]
        refine Or.inl ⟨a, ?_, rfl, rfl⟩
        rw [hr.restingOn_eq_filter h.indexed h.inv hid side, List.mem_filter]
        exact ⟨ha, by simpa using hne⟩
      · rw [hroutes, Function.update_of_ne hne]
        exact h.routes a hmem

/-- The routes are with the owners after every run that keeps apart. -/
theorem run (failures : ℕ → ℕ) (inputs rest : List Input) :
    ∀ s : Session, Owned s → (∀ i ∈ inputs, i.message.WellFormed) →
      AllKeepApart failures s (inputs ++ rest) →
      ∃ s', s.run failures inputs = .ok s' ∧ Owned s' ∧ AllKeepApart failures s' rest := by
  induction inputs with
  | nil => intro s h _ hk; exact ⟨s, rfl, h, hk⟩
  | cons i inputs ih =>
    intro s h hw hk
    obtain ⟨s', hs', howned, -⟩ := h.step failures (hw i List.mem_cons_self) hk.1
    obtain ⟨s'', hs'', hend⟩ := ih s' howned
      (fun j hj => hw j (List.mem_cons_of_mem i hj)) (hk.2 s' hs')
    refine ⟨s'', ?_, hend⟩
    rw [Session.run, List.foldlM_cons, hs']
    exact hs''

end Owned

/-- **Connections are isolated from each other**, in every run in which no accepted order
and no cancel names a resting order of another connection and no order comes to rest
under the id of an order that keeps resting: processing a message from `i.message.fd`
leaves every resting order submitted from another connection `A` in the book but for the
quantity taken from it by trades, and its trade notices go to `A` before and after. -/
theorem connections_isolated (failures : ℕ → ℕ) (inputs : List Input) (i : Input)
    (hw : ∀ j ∈ inputs ++ [i], j.message.WellFormed)
    (hk : AllKeepApart failures .empty (inputs ++ [i])) :
    ∃ s s', Session.empty.run failures inputs = .ok s ∧ s.step failures i = .ok s' ∧
      ∀ A, A ≠ i.message.fd → ∀ side, ∀ a ∈ s.processor.book.restingOn side,
        s.owner a.2.pos = A →
        s'.processor.book.LeftTo (tradesOf s.processor.book i) side a ∧
        s.processor.orderToClientFd a.2.order.id = some A ∧
        s'.processor.orderToClientFd a.2.order.id = some A := by
  obtain ⟨s, hs, howned, hkeep⟩ := Owned.run failures inputs [i] .empty owned_empty
    (fun j hj => hw j (List.mem_append_left _ hj)) hk
  obtain ⟨s', hs', -, hstep⟩ := howned.step failures
    (hw i (List.mem_append_right _ (List.mem_singleton_self i))) hkeep.1
  refine ⟨s, s', hs, hs', ?_⟩
  rintro A hA side a ha rfl
  obtain ⟨hleft, hroute⟩ := hstep side a ha hA
  exact ⟨hleft, howned.routes a (OrderBook.mem_resting_iff.mpr ⟨side, ha⟩), hroute⟩

/-- An ask from connection 4 and a bid from connection 9 that takes part of it. -/
theorem connections_isolated_crossing_bid :
    ∃ s s', Session.empty.run (fun _ => 0) [askFive 4 100] = .ok s ∧
      s.step (fun _ => 0) (bidSix 9) = .ok s' ∧
      ∀ A, A ≠ 9 → ∀ side, ∀ a ∈ s.processor.book.restingOn side, s.owner a.2.pos = A →
        s'.processor.book.LeftTo (tradesOf s.processor.book (bidSix 9)) side a ∧
        s.processor.orderToClientFd a.2.order.id = some A ∧
        s'.processor.orderToClientFd a.2.order.id = some A := by
  have hids : ((Session.empty.step (fun _ => 0) (askFive 4 100)).toOption.map
      fun s => s.processor.book.resting.map fun a => a.2.order.id) = some [5] := by
    decide +kernel
  refine connections_isolated (fun _ => 0) [askFive 4 100] (bidSix 9) (by decide) ⟨⟨?_, ?_⟩, ?_⟩
  · exact fun _ a ha => absurd ha List.not_mem_nil
  · rintro order - ⟨-, -, -, a, ha, -⟩
    exact absurd ha List.not_mem_nil
  · intro s hs
    -- the only id that rests is 5
    have hfive : ∀ a ∈ s.processor.book.resting, a.2.order.id = 5 := by
      rw [hs] at hids
      have hmap : (s.processor.book.resting.map fun a => a.2.order.id) = [5] :=
        Option.some.inj hids
      intro a ha
      have hmem := List.mem_map_of_mem (f := fun a : Price × Node => a.2.order.id) ha
      rw [hmap] at hmem
      exact List.mem_singleton.mp hmem
    have hacc : (bidSix 9).accepted = some ⟨0, 6, 120, 3, .BID, .LIMIT⟩ := by decide +kernel
    refine ⟨⟨fun _ a ha hid => ?_, ?_⟩, fun _ _ => trivial⟩
    · rw [hfive a ha] at hid
      exact absurd hid (by decide +kernel)
    · rintro order ho ⟨-, -, -, a, ha, hid, -⟩
      rw [← Option.some.inj (hacc.symm.trans ho), hfive a ha] at hid
      exact absurd hid (by decide)

/-- Connection 9 cancels the order that connection 4 has resting under id 5. -/
theorem foreign_cancel :
    (∀ j ∈ [askFive 4 100, cancelFive 9], j.message.WellFormed) ∧
      ∃ s s', Session.empty.run (fun _ => 0) [askFive 4 100] = .ok s ∧
        s.step (fun _ => 0) (cancelFive 9) = .ok s' ∧
        ∃ a ∈ s.processor.book.restingOn .ASK, s.owner a.2.pos = 4 ∧
          ¬ s'.processor.book.LeftTo (tradesOf s.processor.book (cancelFive 9)) .ASK a ∧
          s'.processor.orderToClientFd a.2.order.id ≠ some 4 := by
  refine ⟨by decide, ?_⟩
  have heval : ((Session.empty.run (fun _ => 0) [askFive 4 100]).toOption.bind fun s =>
      (s.step (fun _ => 0) (cancelFive 9)).toOption.map fun s' =>
        ((s.processor.book.restingOn .ASK, s.owner 0),
          (s'.processor.book.restingOn .ASK, s'.processor.orderToClientFd 5)))
      = some (([(100, ⟨0, ⟨0, 5, 100, 10, .ASK, .LIMIT⟩⟩)], 4), ([], none)) := by
    decide +kernel
  cases hrun : Session.empty.run (fun _ => 0) [askFive 4 100] with
  | error f =>
    rw [hrun] at heval
    exact absurd heval (by simp [Except.toOption])
  | ok s =>
    rw [hrun] at heval
    cases hstep : s.step (fun _ => 0) (cancelFive 9) with
    | error f =>
      simp only [Except.toOption, Option.bind_some, hstep] at heval
      exact absurd heval (by simp)
    | ok s' =>
      simp only [Except.toOption, Option.bind_some, hstep, Option.map_some, Option.some.injEq,
        Prod.mk.injEq] at heval
      obtain ⟨⟨hasks, howner⟩, hasks', hroute⟩ := heval
      -- the order is gone, although no trade has taken anything from it
      have htrades : tradesOf s.processor.book (cancelFive 9) = [] := tradesOf_of_none (by decide)
      refine ⟨s, s', rfl, hstep, _, by rw [hasks]; exact List.mem_singleton_self _, howner, ?_, ?_⟩
      · rw [OrderBook.LeftTo, htrades, hasks']
        rintro (⟨b, hb, -⟩ | hall)
        · exact absurd hb List.not_mem_nil
        · exact absurd hall (by decide)
      · show s'.processor.orderToClientFd 5 ≠ some 4
        rw [hroute]
        simp

end Exchange
