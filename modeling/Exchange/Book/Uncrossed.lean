import Exchange.Book.Invariant

/-!
# The book is never crossed

`match` rests the remainder of a limit order only when it has exhausted what it may
trade with, so that its price stays short of every order on the other side.

## Main definitions

* `OrderBook.Uncrossed` — every resting bid is below every resting ask.

## Main results

* `ahead_of_unmet` — an order that is not filled is short of all that is left.
* `bestBid_lt_bestAsk` — the best prices never meet, in any state reached through
  `match` and `cancel_order`.
-/

namespace Exchange

open MatchingEngine

/-- A price ahead of one that is not behind another is ahead of that other. -/
theorem Side.Ahead.of_not_ahead {side : Side} {p q r : Price} (h : side.Ahead p q)
    (hr : ¬ side.Ahead r q) : side.Ahead p r := by
  unfold Side.Ahead at h hr ⊢
  split
  · next hs =>
    rw [if_pos hs] at h hr
    exact UInt64.lt_of_le_of_lt (UInt64.not_lt.mp hr) h
  · next hs =>
    rw [if_neg hs] at h hr
    exact UInt64.lt_of_lt_of_le h (UInt64.not_lt.mp hr)

/-- **An order that is not filled is short of everything left on the other
side.** -/
theorem ahead_of_unmet {book mid : OrderBook} {order : Order} (ht : Takes book order mid)
    (hs : order.side.IsProper)
    (hpos : 0 < (sweepOf book order).unmet) {a : Price × Node}
    (ha : a ∈ mid.restingOn order.side.opposite) :
    order.side.opposite.Ahead order.price a.1 := by
  have hsorted := mid.restingOn_sorted order.side.opposite
  rw [ht.queue] at ha hsorted
  -- the walk ended at an order that is blocked, and the others are no better
  rcases left_of_unmet _ _ _ hpos with hnil | ⟨b, q, hq, hb⟩
  · have hnil' : (sweepOf book order).left = [] := hnil
    rw [hnil'] at ha
    exact absurd ha List.not_mem_nil
  · have hq' : (sweepOf book order).left = b :: q := hq
    rw [hq', List.pairwise_cons] at hsorted
    rw [hq'] at ha
    obtain ⟨-, hahead⟩ := (blocked_branchOf hs b.1).mp hb
    rcases List.mem_cons.mp ha with rfl | ha
    · exact hahead
    · exact hahead.of_not_ahead (hsorted.1 a ha)

namespace OrderBook

variable {book : OrderBook}

/-- Every resting bid is below every resting ask. -/
def Uncrossed (book : OrderBook) : Prop :=
  ∀ b ∈ book.restingOn .BID, ∀ a ∈ book.restingOn .ASK, b.1 < a.1

/-- The two sides do not meet, seen from either of them. -/
theorem uncrossed_iff {side : Side} (hs : side.IsProper) :
    book.Uncrossed ↔ ∀ b ∈ book.restingOn side, ∀ a ∈ book.restingOn side.opposite,
      side.opposite.Ahead b.1 a.1 := by
  rcases hs with rfl | rfl
  · simp only [Uncrossed, Side.opposite_BID, Side.ahead_ASK]
  · simp only [Uncrossed, Side.opposite_ASK, Side.ahead_BID]
    constructor
    · intro h a ha b hb
      exact h b hb a ha
    · intro h b hb a ha
      exact h a ha b hb

/-- Fewer prices on both sides cannot cross. -/
theorem Uncrossed.mono {book' : OrderBook} (h : book.Uncrossed)
    (hsub : ∀ side, ∀ b ∈ book'.restingOn side, ∃ a ∈ book.restingOn side, a.1 = b.1) :
    book'.Uncrossed := by
  intro b hb a ha
  obtain ⟨b', hb', hbp⟩ := hsub .BID b hb
  obtain ⟨a', ha', hap⟩ := hsub .ASK a ha
  rw [← hbp, ← hap]
  exact h b' hb' a' ha'

theorem Uncrossed.takes (h : book.Uncrossed) {order : Order} {mid : OrderBook}
    (ht : Takes book order mid) : mid.Uncrossed := by
  apply h.mono
  intro side b hb
  obtain ⟨a, ha, hab, -⟩ := ht.exists_of_mem hb
  exact ⟨a, ha, (fixedPart_inj hab).1⟩

theorem Uncrossed.removes (h : book.Uncrossed) {id : OrderId} {side : Side} {price : Price}
    {n : Node} {book' : OrderBook} (hr : book.Removes id side price n book') : book'.Uncrossed := by
  refine h.mono fun side' b hb => ⟨b, ?_, rfl⟩
  obtain ⟨A, B, hA, hB⟩ := hr.queue
  by_cases hside : side' = side
  · subst hside
    rw [hB, List.mem_append] at hb
    rw [hA, List.mem_append, List.mem_cons]
    tauto
  · rw [← hr.other side' hside]
    exact hb

/-- An order short of the whole other side may rest. -/
theorem Uncrossed.inserts (h : book.Uncrossed) {order : Order} {book' : OrderBook}
    (hi : book.Inserts order book') (hs : order.side.IsProper)
    (hshort : ∀ a ∈ book.restingOn order.side.opposite,
      order.side.opposite.Ahead order.price a.1) : book'.Uncrossed := by
  rw [uncrossed_iff hs] at h ⊢
  obtain ⟨A, B, hA, hB, -, -⟩ := hi.queue
  intro b hb a ha
  rw [hi.other _ (opposite_ne_self hs)] at ha
  rw [hB, List.mem_append, List.mem_cons] at hb
  rw [hA] at h
  rcases hb with hb | rfl | hb
  · exact h b (List.mem_append_left _ hb) a ha
  · exact hshort a ha
  · exact h b (List.mem_append_right _ hb) a ha

/-- One call of `match` or `cancel_order` keeps the sides apart. -/
theorem Uncrossed.step (hinv : book.Inv) (h : book.Uncrossed) {c : Call} (hc : c.Accepted)
    (he : c.IsEngine) : (book.step c).Uncrossed := by
  cases c with
  | matchOrder now order =>
    obtain ⟨mid, ht, ⟨heq, -⟩ | ⟨ts, hpos, -, hs, hi⟩⟩ := step_matchOrder hc now book
    · rw [heq]; exact h.takes ht
    · exact (h.takes ht).inserts hi hs fun a ha => ahead_of_unmet ht hs hpos ha
  | addOrder order => exact absurd he id
  | cancelOrder id =>
    rcases hinv.step_cancelOrder id with heq | ⟨loc, n, -, -, hr⟩
    · rw [heq]; exact h
    · exact h.removes hr

theorem uncrossed_run {calls : List Call} (h : ∀ c ∈ calls, c.Accepted ∧ c.IsEngine) :
    (empty.run calls).Inv ∧ (empty.run calls).Uncrossed := by
  refine run_induction (P := fun book => book.Inv ∧ book.Uncrossed) ?_ calls empty ?_ h
  · intro book c hbook hc
    exact ⟨hbook.1.step hc.1, hbook.2.step hbook.1 hc.1 hc.2⟩
  · exact ⟨inv_empty, fun _ hb => absurd hb List.not_mem_nil⟩

/-- **The book is never crossed or locked**: in every state reached through `match`
of orders the constructor accepts and `cancel_order`, with any ids and any side and
type bytes, the best bid is strictly below the best ask. -/
theorem bestBid_lt_bestAsk (calls : List Call) (h : ∀ c ∈ calls, c.Accepted ∧ c.IsEngine)
    (b a : Price) (hb : (empty.run calls).bestBid = some b)
    (ha : (empty.run calls).bestAsk = some a) : b < a := by
  obtain ⟨hinv, hun⟩ := uncrossed_run h
  rw [bestBid, hinv.noEmpty.1.begin_eq_some_iff] at hb
  rw [bestAsk, hinv.noEmpty.2.begin_eq_some_iff] at ha
  obtain ⟨⟨n, hn⟩, -⟩ := hb
  obtain ⟨⟨n', hn'⟩, -⟩ := ha
  exact hun (b, n) hn (a, n') hn'

/-- A bid that crosses in part, an order whose side byte is no side, and a cancel. -/
theorem bestBid_lt_bestAsk_partial_cross :
    (empty.run [.matchOrder (fun _ => 0) ⟨0, 1, 100, 5, .ASK, .LIMIT⟩,
        .matchOrder (fun _ => 0) ⟨0, 1, 104, 5, .ASK, .LIMIT⟩,
        .matchOrder (fun _ => 0) ⟨0, 2, 102, 9, .BID, .LIMIT⟩,
        .matchOrder (fun _ => 0) ⟨0, 3, 200, 9, ⟨7⟩, ⟨9⟩⟩, .cancelOrder 5]).bestBid = some 102 ∧
      (102 : Price) < 104 :=
  ⟨by decide +kernel,
    bestBid_lt_bestAsk [.matchOrder (fun _ => 0) ⟨0, 1, 100, 5, .ASK, .LIMIT⟩,
        .matchOrder (fun _ => 0) ⟨0, 1, 104, 5, .ASK, .LIMIT⟩,
        .matchOrder (fun _ => 0) ⟨0, 2, 102, 9, .BID, .LIMIT⟩,
        .matchOrder (fun _ => 0) ⟨0, 3, 200, 9, ⟨7⟩, ⟨9⟩⟩, .cancelOrder 5] (by decide) 102 104
      (by decide +kernel) (by decide +kernel)⟩

end OrderBook

end Exchange
