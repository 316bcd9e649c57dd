import Exchange.Book.Execution
import Exchange.Processor.Routing
import Mathlib.Data.Set.Card

/-!
# The size of the routing table

`process` writes the id of every accepted order into the routing table, and erases it only
when the order is cancelled.  An order that is filled when it comes in, a market order, and
an order that is filled as it rests leave the book, and their ids stay in the table.

## Main definitions

* `Processor.TableTight` — the keys of the table are ids of resting orders.
* `Session.RestsWhole` — an order that a request submits comes to rest as a whole.

## Main results

* `Routed.tableTight_submits_iff` — one order keeps the table tight exactly when it comes to
  rest as a whole.
* `tableTight_iff` — the table stays tight along a run if and only if every order that is
  accepted in it does.
-/

namespace Exchange

open MatchingEngine

/-- Every key of the routing table is the id of a resting order, and there are no more keys
than resting orders. -/
structure Processor.TableTight (p : Processor) : Prop where
  rests : ∀ id, p.orderToClientFd id ≠ none → p.book.Rests id
  size : {id | p.orderToClientFd id ≠ none}.encard ≤ p.book.resting.length

/-- The bound follows from the keys being ids of resting orders. -/
theorem Processor.tableTight_iff_rests {p : Processor} :
    p.TableTight ↔ ∀ id, p.orderToClientFd id ≠ none → p.book.Rests id := by
  constructor
  · exact TableTight.rests
  · intro h
    let ids := p.book.resting.map fun a => a.2.order.id
    have hsub : {id | p.orderToClientFd id ≠ none} ⊆ (ids.toFinset : Set OrderId) := by
      intro id hid
      obtain ⟨a, ha, rfl⟩ := h id hid
      exact List.mem_toFinset.mpr (List.mem_map.mpr ⟨a, ha, rfl⟩)
    refine ⟨h, ?_⟩
    calc {id | p.orderToClientFd id ≠ none}.encard
        ≤ (ids.toFinset : Set OrderId).encard := Set.encard_le_encard hsub
      _ = ids.toFinset.card := Set.encard_coe_eq_coe_finsetCard _
      _ ≤ ids.length := by exact_mod_cast ids.toFinset_card_le
      _ = p.book.resting.length := by rw [List.length_map]

/-- An order that the request submits is a limit order of one of the two sides, and the best
order of the other side, if there is one, is out of its reach. -/
def Session.RestsWhole (s : Session) (i : Input) : Prop :=
  ∀ order, i.accepted = some order →
    order.orderType = .LIMIT ∧ order.side.IsProper ∧ s.processor.book.CrossesNothing order

namespace Routed

variable {inputs : List Input} {s s' : Session} {i : Input} {order : Order}

/-- An order that is accepted under a new id adds its id to the keys of the table. -/
theorem routes_submits_iff (h : Routed inputs s) (hsub : s.Submits i order s')
    (hnew : order.id ∉ acceptedIds inputs) {id : OrderId} :
    s'.processor.orderToClientFd id ≠ none ↔
      order.id = id ∨ s.processor.orderToClientFd id ≠ none := by
  have hread : s'.processor.orderToClientFd id
      = Function.update s.processor.orderToClientFd order.id (some i.message.fd) id := by
    rw [hsub.routes, readRoutes, if_neg]
    -- no counterparty is read at a missing key
    rintro ⟨hnone, hmem⟩
    obtain ⟨t, ht, rfl⟩ := List.mem_map.mp hmem
    obtain ⟨fd, -, hroute⟩ := h.route_counterparty hsub hnew ht
    rw [hroute] at hnone
    exact absurd hnone (by simp)
  rw [hread]
  by_cases hid : order.id = id
  · rw [hid, Function.update_self]
    simp
  · rw [Function.update_of_ne (Ne.symm hid), or_iff_right hid]

/-- **An order that is accepted keeps the table tight exactly when it comes to rest as a
whole**: otherwise it is filled, is dropped or fills another order, and the id of what has
left the book stays. -/
theorem tableTight_submits_iff (h : Routed inputs s) (ht : s.processor.TableTight)
    (hsub : s.Submits i order s') (hnew : order.id ∉ acceptedIds inputs) :
    s'.processor.TableTight ↔ s.RestsWhole i := by
  have hnotrests : ¬ s.processor.book.Rests order.id := h.not_rests hnew
  have hwhole : s.RestsWhole i ↔ order.orderType = .LIMIT ∧ order.side.IsProper ∧
      s.processor.book.CrossesNothing order := by
    rw [Session.RestsWhole, hsub.accepted]
    exact ⟨fun hall => hall order rfl, fun hall o ho => Option.some.inj ho ▸ hall⟩
  rw [Processor.tableTight_iff_rests, hwhole, hsub.book]
  constructor
  · intro hrests
    -- the order itself rests, so that a part of it has been added
    have hown : 0 < (sweepOf s.processor.book order).unmet ∧ order.orderType = .LIMIT ∧
        order.side.IsProper := by
      rcases (h.inv.rests_matchOrder_iff hsub.constructed _).mp
        (hrests order.id ((h.routes_submits_iff hsub hnew).mpr (Or.inl rfl))) with
        ⟨a, ha, hid, -⟩ | ⟨-, hrest⟩
      · exact absurd ⟨a, ha, hid⟩ hnotrests
      · exact hrest
    -- an order that it had filled would have left its key behind
    have hgone : (sweepOf s.processor.book order).gone = [] := by
      refine List.eq_nil_iff_forall_not_mem.mpr fun a ha => ?_
      have hmem : a ∈ s.processor.book.resting :=
        OrderBook.mem_resting_iff.mpr ⟨_, mem_of_gone ha⟩
      obtain ⟨fd, -, hroute⟩ := h.routes a hmem
      have hkey := (h.routes_submits_iff hsub hnew).mpr (Or.inr (by rw [hroute]; simp))
      rcases (h.inv.rests_matchOrder_iff hsub.constructed _).mp (hrests a.2.order.id hkey) with
        ⟨b, hb, hid, hnot⟩ | ⟨hid, -⟩
      · rw [h.indexed.eq_of_id h.inv hb hmem hid] at hnot
        exact hnot ha
      · exact hnotrests ⟨a, hmem, hid.symm⟩
    exact ⟨hown.2.1, hown.2.2, (OrderBook.crossesNothing_iff_sweepOf hsub.constructed hown.2.2
      hown.2.1 h.inv.noEmpty).mpr ⟨hgone, hown.1⟩⟩
  · rintro ⟨hl, hs, hcross⟩ id hkey
    obtain ⟨hgone, hpos⟩ := (OrderBook.crossesNothing_iff_sweepOf hsub.constructed hs hl
      h.inv.noEmpty).mp hcross
    rw [h.inv.rests_matchOrder_iff hsub.constructed]
    rcases (h.routes_submits_iff hsub hnew).mp hkey with hid | hold
    · exact Or.inr ⟨hid, hpos, hl, hs⟩
    · obtain ⟨a, ha, hid⟩ := ht.rests id hold
      exact Or.inl ⟨a, ha, hid, by rw [hgone]; exact List.not_mem_nil⟩

/-- A cancel drops the key of the order that it removes. -/
theorem tableTight_removes (h : Routed inputs s) (ht : s.processor.TableTight) {id : OrderId}
    {side : Side} {price : Price} {n : Node} (hid : n.order.id = id)
    (hr : s.processor.book.Removes id side price n s'.processor.book)
    (hroutes : s'.processor.orderToClientFd
      = Function.update s.processor.orderToClientFd id none) :
    s'.processor.TableTight := by
  rw [Processor.tableTight_iff_rests]
  intro id' hkey
  rw [hroutes] at hkey
  have hne : id' ≠ id := by
    rintro rfl
    exact hkey (Function.update_self _ _ _)
  rw [Function.update_of_ne hne] at hkey
  obtain ⟨a, ha, rfl⟩ := ht.rests id' hkey
  obtain ⟨side', ha'⟩ := OrderBook.mem_resting_iff.mp ha
  refine ⟨a, OrderBook.mem_resting_iff.mpr ⟨side', ?_⟩, rfl⟩
  rw [hr.restingOn_eq_filter h.indexed h.inv hid side', List.mem_filter]
  exact ⟨ha', by simpa using hne⟩

/-- One request keeps the table tight exactly when an order it submits comes to rest as a
whole. -/
theorem step_tableTight (h : Routed inputs s) (ht : s.processor.TableTight) (failures : ℕ → ℕ)
    (hw : i.message.WellFormed)
    (hnew : ∀ order, i.accepted = some order → order.id ∉ acceptedIds inputs) :
    ∃ s', s.step failures i = .ok s' ∧ Routed (inputs ++ [i]) s' ∧
      (s'.processor.TableTight ↔ s.RestsWhole i) := by
  obtain ⟨s', hs', hrouted⟩ := h.step failures hw hnew
  refine ⟨s', hs', hrouted, ?_⟩
  obtain ⟨s₁, hs₁, -, hcases⟩ := step_cases failures h.inv hw
  obtain rfl := Except.ok.inj (hs'.symm.trans hs₁)
  have hnone : i.accepted = none → s.RestsWhole i :=
    fun hacc order ho => absurd (hacc.symm.trans ho) (by simp)
  rcases hcases with ⟨order, hsub⟩ | ⟨hacc, hsame, -⟩ | ⟨loc, n, hacc, -, -, -, hid, hr, hroutes⟩
  · exact h.tableTight_submits_iff ht hsub (hnew order hsub.accepted)
  · exact iff_of_true (by rw [hsame]; exact ht) (hnone hacc)
  · exact iff_of_true (h.tableTight_removes ht hid hr hroutes) (hnone hacc)

end Routed

/-- **The routing table does not outlive the orders if and only if every order comes to rest
as a whole.**  Along every run of well-formed requests from an empty book in which accepted
orders have distinct ids, every key of the table is in every state the id of a resting order,
and the table is no larger than the book, exactly when every order that is accepted is a
limit order of one of the two sides that crosses nothing in the book it comes into. -/
theorem tableTight_iff (failures : ℕ → ℕ) (inputs : List Input)
    (hw : ∀ i ∈ inputs, i.message.WellFormed) (hd : (acceptedIds inputs).Nodup) :
    (∀ pre, pre <+: inputs → ∃ s, Session.empty.run failures pre = .ok s ∧
        s.processor.TableTight) ↔
      AllAlong (Session.step failures) Session.RestsWhole .empty inputs := by
  -- the requests done, which with those to come are all, have left the table right
  refine foldlM_prefix_iff (J := fun rest s => ∃ done, done ++ rest = inputs ∧ Routed done s)
    ?_ inputs .empty ⟨[], rfl, routed_empty⟩ ?_
  · rintro i rest s ⟨done, rfl, hrouted⟩ htight
    obtain ⟨s', hs', hrouted', hiff⟩ := hrouted.step_tableTight htight failures
      (hw i (List.mem_append_right _ List.mem_cons_self)) (notMem_acceptedIds hd)
    exact ⟨s', hs', ⟨done ++ [i], by simp, hrouted'⟩, hiff⟩
  · exact Processor.tableTight_iff_rests.mpr fun id hkey => absurd rfl hkey

/-- An ask at 130 and a bid at 120 come to rest, and the ask is cancelled. -/
theorem tableTight_iff_cancelled_ask :
    AllAlong (Session.step fun _ => 0) Session.RestsWhole .empty
        [askFive 4 130, bidSix 9, cancelFive 4] ∧
      ∀ pre, pre <+: [askFive 4 130, bidSix 9, cancelFive 4] →
        ∃ s, Session.empty.run (fun _ => 0) pre = .ok s ∧ s.processor.TableTight := by
  have hwhole : AllAlong (Session.step fun _ => 0) Session.RestsWhole .empty
      [askFive 4 130, bidSix 9, cancelFive 4] := by
    refine ⟨fun order ho => ?_, fun s₁ hs₁ => ⟨fun order ho => ?_, fun _ _ =>
      ⟨fun order ho => ?_, fun _ _ => trivial⟩⟩⟩
    · have hacc : (askFive 4 130).accepted = some ⟨0, 5, 130, 10, .ASK, .LIMIT⟩ := by
        decide +kernel
      obtain rfl := Option.some.inj (hacc.symm.trans ho)
      refine ⟨rfl, Or.inr rfl, fun hb => absurd hb (by decide), fun _ p hp => ?_⟩
      exact absurd (show none = some p from hp) (by simp)
    · have hacc : (bidSix 9).accepted = some ⟨0, 6, 120, 3, .BID, .LIMIT⟩ := by decide +kernel
      obtain rfl := Option.some.inj (hacc.symm.trans ho)
      have hbest : ((Session.empty.step (fun _ => 0) (askFive 4 130)).toOption.map
          fun s => s.processor.book.bestAsk) = some (some 130) := by decide +kernel
      rw [hs₁] at hbest
      refine ⟨rfl, Or.inl rfl, fun _ p hp => ?_, fun ha => absurd ha (by decide)⟩
      obtain rfl := Option.some.inj ((Option.some.inj hbest).symm.trans hp)
      decide
    · have hacc : (cancelFive 4).accepted = none := by decide
      exact absurd (hacc.symm.trans ho) (by simp)
  exact ⟨hwhole, (tableTight_iff (fun _ => 0) _ (by decide) (by decide +kernel)).mpr hwhole⟩

/-- An ask of ten under id 5 and a bid of three under id 6 that is filled by it: the bid does
not rest, and its key stays in the table. -/
theorem not_tableTight_filled_bid :
    ∃ inputs : List Input, (∀ i ∈ inputs, i.message.WellFormed) ∧ (acceptedIds inputs).Nodup ∧
      ∃ s, Session.empty.run (fun _ => 0) inputs = .ok s ∧ ¬ s.processor.TableTight := by
  let inputs : List Input := [askFive 4 100, bidSix 9]
  have heval : ((Session.empty.run (fun _ => 0) inputs).toOption.map fun s =>
      (s.processor.orderToClientFd 6, decide (s.processor.book.Rests 6)))
        = some (some 9, false) := by
    decide +kernel
  refine ⟨inputs, by decide, by decide +kernel, ?_⟩
  obtain ⟨s, hrun, hs⟩ := exists_ok_of_toOption heval
  obtain ⟨hkey, hgone⟩ := Prod.mk.inj hs
  refine ⟨s, hrun, fun htight => ?_⟩
  exact of_decide_eq_false hgone (htight.rests 6 (by rw [hkey]; simp))

end Exchange
