import Exchange.Book.Invariant

/-!
# Completeness of the index

The index is complete when every resting order is the one its id's entry points to.
The book does not keep it so by itself: an order that arrives under the id of a
resting order takes over the entry.  As long as no order rests under the id of
another one, every operation keeps the index complete.

## Main definitions

* `OrderBook.Indexed` — the index is complete.

## Main results

* `Indexed.eq_of_id` — in a complete index an id has one resting order.
* `Indexed.inserts`, `Indexed.removes`, `Indexed.takes` — the operations keep the
  index complete.
* `Removes.restingOn_eq_filter` — a cancel removes the orders of its id, and no others.
* `Inv.rests_matchOrder_iff` — which orders rest after a call of `match`.
-/

namespace Exchange

open MatchingEngine

namespace OrderBook

/-- Every resting order is the one that its id's index entry points to. -/
def Indexed (book : OrderBook) : Prop :=
  ∀ side, ∀ a ∈ book.restingOn side, book.orderMap a.2.order.id = some ⟨side, a.1, a.2.pos⟩

/-- An order with this id rests on the book. -/
def Rests (book : OrderBook) (id : OrderId) : Prop := ∃ a ∈ book.resting, a.2.order.id = id

instance (book : OrderBook) (id : OrderId) : Decidable (book.Rests id) :=
  inferInstanceAs (Decidable (∃ a ∈ book.resting, a.2.order.id = id))

variable {book book' : OrderBook}

theorem indexed_empty : OrderBook.empty.Indexed := by
  intro side a ha
  have hmem : a ∈ OrderBook.empty.resting := mem_resting_iff.mpr ⟨side, ha⟩
  exact absurd hmem List.not_mem_nil

/-- In a complete index an id has one resting order. -/
theorem Indexed.eq_of_id (h : book.Indexed) (hinv : book.Inv) {a b : Price × Node}
    (ha : a ∈ book.resting) (hb : b ∈ book.resting) (hid : a.2.order.id = b.2.order.id) :
    a = b := by
  obtain ⟨side, ha'⟩ := mem_resting_iff.mp ha
  obtain ⟨side', hb'⟩ := mem_resting_iff.mp hb
  have heq := (h side a ha').symm.trans (hid ▸ h side' b hb')
  simp only [Option.some.injEq, OrderLocation.mk.injEq] at heq
  exact hinv.eq_of_pos ha hb heq.2.2

/-- Under the invariant and a complete index, an id rests exactly when it has an index
entry. -/
theorem Indexed.rests_iff (h : book.Indexed) (hinv : book.Inv) {id : OrderId} :
    book.Rests id ↔ book.orderMap id ≠ none := by
  constructor
  · rintro ⟨a, ha, rfl⟩
    obtain ⟨side, ha⟩ := mem_resting_iff.mp ha
    rw [h side a ha]
    simp
  · intro hne
    obtain ⟨loc, hloc⟩ := Option.ne_none_iff_exists'.mp hne
    obtain ⟨n, hn, -, hid⟩ := hinv.index id loc hloc
    exact ⟨_, mem_resting_iff.mpr ⟨_, hn⟩, hid⟩

/-- Adding an order under an id that does not rest keeps the index complete. -/
theorem Indexed.inserts (h : book.Indexed) {order : Order} (hi : book.Inserts order book')
    (hnew : ¬ book.Rests order.id) : book'.Indexed := by
  obtain ⟨A, B, hA, hB, -, -⟩ := hi.queue
  have hold : ∀ side, ∀ a ∈ book.restingOn side,
      book'.orderMap a.2.order.id = some ⟨side, a.1, a.2.pos⟩ := by
    intro side a ha
    have hne : a.2.order.id ≠ order.id := fun heq =>
      hnew ⟨a, mem_resting_iff.mpr ⟨side, ha⟩, heq⟩
    rw [hi.orderMap, Function.update_of_ne hne]
    exact h side a ha
  intro side a ha
  by_cases hside : side = order.side
  · subst hside
    rw [hB, List.mem_append, List.mem_cons] at ha
    rcases ha with ha | rfl | ha
    · exact hold _ a (by rw [hA]; exact List.mem_append_left _ ha)
    · rw [hi.orderMap]
      exact Function.update_self _ _ _
    · exact hold _ a (by rw [hA]; exact List.mem_append_right _ ha)
  · rw [hi.other side hside] at ha
    exact hold side a ha

/-- The other orders of the side of an order have other ids. -/
theorem Indexed.id_ne (h : book.Indexed) (hinv : book.Inv) {side : Side} {a : Price × Node}
    {A B : List (Price × Node)} (hA : book.restingOn side = A ++ a :: B) :
    ∀ b ∈ A ++ B, b.2.order.id ≠ a.2.order.id := by
  have ha : a ∈ book.restingOn side := by rw [hA]; simp
  have hnodup : (book.restingOn side).Nodup := by
    have hd := ((book.resting_perm (isProper_of_mem ha)).map _).nodup_iff.mp hinv.distinct
    rw [List.map_append] at hd
    exact (List.nodup_append.mp hd).1.of_map
  intro b hb hid
  have hmem : b ∈ book.restingOn side := by
    rw [hA]
    simp only [List.mem_append, List.mem_cons] at hb ⊢
    tauto
  have hsame : b = a := h.eq_of_id hinv (mem_resting_iff.mpr ⟨side, hmem⟩)
    (mem_resting_iff.mpr ⟨side, ha⟩) hid
  rw [hA] at hnodup
  exact (List.nodup_cons.mp (List.perm_middle.nodup_iff.mp hnodup)).1 (hsame ▸ hb)

/-- **A cancel removes the orders of its id, and no others.** -/
theorem Removes.restingOn_eq_filter {id : OrderId} {side : Side} {price : Price} {n : Node}
    (hr : book.Removes id side price n book') (h : book.Indexed) (hinv : book.Inv)
    (hn : n.order.id = id) (side' : Side) :
    book'.restingOn side' = (book.restingOn side').filter fun a => a.2.order.id ≠ id := by
  obtain ⟨A, B, hA, hB⟩ := hr.queue
  by_cases hside : side' = side
  · subst hside
    have hall : (A ++ B).filter (fun a => a.2.order.id ≠ id) = A ++ B := by
      rw [List.filter_eq_self]
      intro a ha
      simpa [hn] using h.id_ne hinv hA a ha
    rw [hB, hA, List.filter_append, List.filter_cons_of_neg (by simp [hn]), ← List.filter_append,
      hall]
  · rw [hr.other side' hside, eq_comm, List.filter_eq_self]
    intro a ha
    have hmem : (price, n) ∈ book.restingOn side := by rw [hA]; simp
    have hne : a.2.order.id ≠ id := by
      intro hid
      -- one order cannot rest on both sides
      have hsame : a = (price, n) := h.eq_of_id hinv (mem_resting_iff.mpr ⟨side', ha⟩)
        (mem_resting_iff.mpr ⟨side, hmem⟩) (hid.trans hn.symm)
      subst hsame
      exact hside ((hinv.orders side' _ ha).2.1.symm.trans (hinv.orders side _ hmem).2.1)
    simpa using hne

/-- Removing an order with the index entry of its id keeps the index complete. -/
theorem Indexed.removes (h : book.Indexed) (hinv : book.Inv) {id : OrderId} {side : Side}
    {price : Price} {n : Node} (hr : book.Removes id side price n book') (hn : n.order.id = id) :
    book'.Indexed := by
  intro side' a ha
  rw [hr.restingOn_eq_filter h hinv hn side', List.mem_filter] at ha
  have hne : a.2.order.id ≠ id := by simpa using ha.2
  rw [hr.orderMap, Function.update_of_ne hne]
  exact h side' a ha.1

/-- The orders that keep resting are those that are not filled completely. -/
theorem Inv.rests_takes_iff (h : book.Inv) {order : Order} {mid : OrderBook}
    (ht : Takes book order mid) {id : OrderId} :
    mid.Rests id ↔ ∃ a ∈ book.resting, a.2.order.id = id ∧ a ∉ (sweepOf book order).gone := by
  have hperm := ht.map_resting_perm (fun a => a.2.pos) fun _ _ => rfl
  have hdisj := (List.nodup_append.mp (hperm.nodup_iff.mp h.distinct)).2.2
  constructor
  · rintro ⟨b, hb, rfl⟩
    obtain ⟨side, hb'⟩ := mem_resting_iff.mp hb
    obtain ⟨a, ha, hab, -⟩ := ht.exists_of_mem hb'
    obtain ⟨-, hpos, hid, -⟩ := fixedPart_inj hab
    refine ⟨a, mem_resting_iff.mpr ⟨side, ha⟩, hid, fun hgone => ?_⟩
    exact hdisj a.2.pos (List.mem_map.mpr ⟨a, hgone, rfl⟩) b.2.pos
      (List.mem_map.mpr ⟨b, hb, rfl⟩) hpos
  · rintro ⟨a, ha, rfl, hgone⟩
    obtain ⟨side, ha'⟩ := mem_resting_iff.mp ha
    rcases ht.gone_or_mem ha' with ⟨b, hb, hab⟩ | ⟨b, hb, hab⟩
    · -- the node that is gone would be the same one
      have hbq : b ∈ book.resting := mem_resting_iff.mpr ⟨_, mem_of_gone hb⟩
      rw [h.eq_of_pos hbq ha (fixedPart_inj hab).2.1] at hb
      exact absurd hb hgone
    · exact ⟨b, mem_resting_iff.mpr ⟨side, hb⟩, (fixedPart_inj hab).2.2.1⟩

/-- The orders that rest after a call of `match`: those that are not filled completely, and
the incoming order itself when a part of it is added. -/
theorem Inv.rests_matchOrder_iff (h : book.Inv) {order : Order} (hc : order.Constructed)
    (now : Clock) {id : OrderId} :
    (book.step (.matchOrder now order)).Rests id ↔
      (∃ a ∈ book.resting, a.2.order.id = id ∧ a ∉ (sweepOf book order).gone) ∨
        order.id = id ∧ 0 < (sweepOf book order).unmet ∧ order.orderType = .LIMIT ∧
          order.side.IsProper := by
  obtain ⟨mid, ht, ⟨heq, hno⟩ | ⟨ts, hpos, hl, hs, hi⟩⟩ := step_matchOrder hc now book
  · rw [heq, h.rests_takes_iff ht, or_iff_left fun hrest => hno hrest.2]
  · rw [← h.rests_takes_iff ht]
    have hmem : ∀ b, b ∈ (book.step (.matchOrder now order)).resting ↔ _ :=
      fun b => (hi.resting_perm hs).mem_iff.trans List.mem_cons
    constructor
    · rintro ⟨b, hb, hid⟩
      rcases (hmem b).mp hb with rfl | hb
      · exact Or.inr ⟨hid, hpos, hl, hs⟩
      · exact Or.inl ⟨b, hb, hid⟩
    · rintro (⟨b, hb, hid⟩ | ⟨hid, -⟩)
      · exact ⟨b, (hmem b).mpr (Or.inr hb), hid⟩
      · exact ⟨_, (hmem _).mpr (Or.inl rfl), hid⟩

/-- Serving an incoming order keeps the index complete: `match` drops the entries of
the filled orders by id, and no other order has their ids. -/
theorem Indexed.takes (h : book.Indexed) (hinv : book.Inv) {order : Order} {mid : OrderBook}
    (ht : Takes book order mid) : mid.Indexed := by
  intro side b hb
  obtain ⟨a, ha, hab, -⟩ := ht.exists_of_mem hb
  obtain ⟨hprice, hpos, hid, -⟩ := fixedPart_inj hab
  have hgone : b.2.order.id ∉ (sweepOf book order).gone.map fun a => a.2.order.id := by
    intro hmem
    obtain ⟨c, hc, hcid⟩ := List.mem_map.mp hmem
    -- a filled order of that id would be the same node, and nodes are not both gone and left
    have hperm := ht.map_resting_perm (fun a => a.2.pos) fun _ _ => rfl
    have hcq : c ∈ book.resting := mem_resting_iff.mpr ⟨_, mem_of_gone hc⟩
    have hca : c = a :=
      h.eq_of_id hinv hcq (mem_resting_iff.mpr ⟨side, ha⟩) (hcid.trans hid.symm)
    have hdisj := (List.nodup_append.mp (hperm.nodup_iff.mp hinv.distinct)).2.2
    exact hdisj c.2.pos (List.mem_map.mpr ⟨c, hc, rfl⟩) b.2.pos
      (List.mem_map.mpr ⟨b, mem_resting_iff.mpr ⟨side, hb⟩, rfl⟩) (by rw [hca]; exact hpos)
  rw [ht.orderMap, eraseAll, if_neg hgone, ← hid, h side a ha, hprice, hpos]

end OrderBook

end Exchange
