import Exchange.Book.Levels

/-!
# The printed depth

`print_depth` adds up the quantities of a level in the 32-bit type of a quantity, and hands
a signed number to `reserve`.  This module says when it prints what it is meant to print:
the price and the exact quantity of the best levels of each side.

## Main definitions

* `OrderBook.depthText` — the text that is meant.
* `OrderBook.ReportsDepth` — `print_depth` completes and writes this text.
* `OrderBook.DepthFits` — no argument of `reserve` is negative, and the quantity of no
  printed level exceeds 32 bits.

## Main results

* `OrderBook.depthLines_inj` — the quantities in a list of lines can be read back.
* `OrderBook.reportsDepth_iff` — `print_depth` reports the depth exactly when it fits.
-/

namespace Exchange

/-! ### Reading numbers back -/

/-- A part without line breaks in front of a line break is determined. -/
theorem append_newline_inj {xs ys l l' : List Char} (hx : '\n' ∉ xs) (hy : '\n' ∉ ys)
    (h : xs ++ '\n' :: l = ys ++ '\n' :: l') : xs = ys ∧ l = l' := by
  induction xs generalizing ys with
  | nil =>
    cases ys with
    | nil => exact ⟨rfl, (List.cons.inj h).2⟩
    | cons y ys => exact absurd ((List.cons.inj h).1 ▸ List.mem_cons_self) hy
  | cons x xs ih =>
    cases ys with
    | nil => exact absurd ((List.cons.inj h).1 ▸ List.mem_cons_self) hx
    | cons y ys =>
      obtain ⟨rfl, hrest⟩ := List.cons.inj h
      obtain ⟨rfl, rfl⟩ := ih (fun hmem => hx (List.mem_cons_of_mem x hmem))
        (fun hmem => hy (List.mem_cons_of_mem x hmem)) hrest
      exact ⟨rfl, rfl⟩

theorem newline_notMem_toDigits (n : ℕ) : '\n' ∉ Nat.toDigits 10 n := by
  intro h
  have hdigit := Nat.isDigit_of_mem_toDigits (by decide) (by decide) h
  exact absurd hdigit (by decide)

theorem toDigits_injective {m n : ℕ} (h : Nat.toDigits 10 m = Nat.toDigits 10 n) : m = n := by
  rw [← Nat.ofDigitChars_ten_toDigits (n := m), h, Nat.ofDigitChars_ten_toDigits]

namespace OrderBook

theorem toList_depthLine (label : String) (price quantity : ℕ) :
    (depthLine label price quantity).toList
      = (label ++ toString price ++ " | ").toList ++ (Nat.toDigits 10 quantity ++ ['\n']) := by
  rw [depthLine, String.toList_append, String.toList_append, List.append_assoc]
  congr 2
  exact Nat.toList_repr

/-! ### The text that is meant -/

/-- The exact quantity of a level. -/
def exactQuantity (list : List Node) : ℕ := (list.map fun n => n.order.quantity.toNat).sum

/-- The levels that are shown of a side: the best ones, as many as there are and as are
asked for. -/
def shownLevels (levels : Int32) (l : List (Price × List Node)) : List (Price × List Node) :=
  l.take (min (max levels.toInt 0).toNat l.length)

/-- The lines of levels, with a way to give the quantity of a level. -/
def depthLines (label : String) (quantity : List Node → ℕ) (l : List (Price × List Node)) :
    List String :=
  l.map fun e => depthLine label e.1.toNat (quantity e.2)

/-- The text of the depth: the asks from the worst to the best of those shown, and the bids
from the best to the worst. -/
def depthTextWith (quantity : List Node → ℕ) (book : OrderBook) (levels : Int32) : String :=
  "---order book---" ++ "\n"
    ++ String.join (depthLines " ASK " quantity (shownLevels levels book.asks.toList).reverse)
    ++ ("--------------" ++ "\n")
    ++ String.join (depthLines " BID " quantity (shownLevels levels book.bids.toList))

/-- The text of the depth with exact quantities. -/
def depthText (book : OrderBook) (levels : Int32) : String :=
  depthTextWith exactQuantity book levels

/-- `print_depth` completes and writes the text of the depth. -/
def ReportsDepth (book : OrderBook) (levels : Int32) : Prop :=
  ∀ out, book.printDepth out levels = .ok (out ++ book.depthText levels)

/-- The number of levels asked for and the number of asks, as an `int`, are not negative,
and the exact quantity of every level shown is one of 32 bits. -/
def DepthFits (book : OrderBook) (levels : Int32) : Prop :=
  0 ≤ levels.toInt ∧ book.asks.size % 2 ^ 32 < 2 ^ 31 ∧
    (∀ e ∈ shownLevels levels book.asks.toList, exactQuantity e.2 < 2 ^ 32) ∧
    ∀ e ∈ shownLevels levels book.bids.toList, exactQuantity e.2 < 2 ^ 32

/-! ### What is printed -/

/-- A total is the exact quantity modulo `2^32`. -/
theorem toNat_totalQuantity (list : List Node) :
    (totalQuantity list).toNat = exactQuantity list % 2 ^ 32 := by
  have key : ∀ (list : List Node) (total : Quantity),
      (list.foldl (fun total n => total + n.order.quantity) total).toNat
        = (total.toNat + exactQuantity list) % 2 ^ 32 := by
    intro list
    induction list with
    | nil =>
      intro total
      exact (Nat.mod_eq_of_lt total.toNat_lt).symm
    | cons n list ih =>
      intro total
      have hcons : exactQuantity (n :: list) = n.order.quantity.toNat + exactQuantity list :=
        List.sum_cons
      rw [List.foldl_cons, ih, UInt32.toNat_add, hcons, Nat.mod_add_mod, Nat.add_assoc]
  rw [totalQuantity, key]
  simp

theorem collectAsks_eq (levels : Int32) (i : Int) (l : List (Price × List Node)) :
    collectAsks levels i l
      = (l.take (levels.toInt - i).toNat).map fun e => (e.1, totalQuantity e.2) := by
  induction l generalizing i with
  | nil => rw [collectAsks, List.take_nil]; rfl
  | cons e l ih =>
    rw [collectAsks]
    split
    · next hlt =>
      have hsucc : (levels.toInt - i).toNat = (levels.toInt - (i + 1)).toNat + 1 := by omega
      rw [hsucc, List.take_succ_cons, List.map_cons, ih]
    · next hge =>
      have hzero : (levels.toInt - i).toNat = 0 := by omega
      rw [hzero]
      rfl

theorem printBids_eq (levels : Int32) (i : Int) (l : List (Price × List Node)) (out : String) :
    printBids levels i l out = out ++ String.join (depthLines " BID "
      (fun list => (totalQuantity list).toNat) (l.take (levels.toInt - i).toNat)) := by
  induction l generalizing i out with
  | nil => rw [printBids, List.take_nil]; exact String.append_empty.symm
  | cons e l ih =>
    rw [printBids]
    split
    · next hlt =>
      have hsucc : (levels.toInt - i).toNat = (levels.toInt - (i + 1)).toNat + 1 := by omega
      rw [hsucc, List.take_succ_cons, ih, depthLines, depthLines, List.map_cons, String.join_cons,
        String.append_assoc]
    · next hge =>
      have hzero : (levels.toInt - i).toNat = 0 := by omega
      rw [hzero]
      exact String.append_empty.symm

theorem shownLevels_eq (levels : Int32) (l : List (Price × List Node)) :
    l.take (levels.toInt - 0).toNat = shownLevels levels l := by
  rw [shownLevels, List.take_eq_take_min]
  congr 1
  omega

/-- An `int` is too large for `reserve` when it is negative. -/
theorem maxSize_lt_iff (n : Int32) : maxSize < sizeOfInt n ↔ n.toInt < 0 := by
  have hle := n.le_toInt
  have hlt := n.toInt_lt
  rw [maxSize, sizeOfInt]
  omega

/-- The number of asks as an `int`. -/
theorem toInt_ofNat_nonneg_iff (n : ℕ) : 0 ≤ (Int32.ofNat n).toInt ↔ n % 2 ^ 32 < 2 ^ 31 := by
  rw [Int32.toInt_ofNat', Int.bmod]
  split <;> simp only [Int32.size] at * <;> omega

theorem reserve_throws_iff (book : OrderBook) (levels : Int32) :
    maxSize < sizeOfInt (book.reserveCount levels)
      ↔ ¬ (0 ≤ levels.toInt ∧ book.asks.size % 2 ^ 32 < 2 ^ 31) := by
  rw [maxSize_lt_iff, ← toInt_ofNat_nonneg_iff, reserveCount]
  split
  · next hlt =>
    rw [Int32.lt_iff_toInt_lt] at hlt
    omega
  · next hge =>
    rw [Int32.lt_iff_toInt_lt] at hge
    omega

theorem foldl_append_eq {α : Type} (f : α → String) (l : List α) (out : String) :
    l.foldl (fun out e => out ++ f e) out = out ++ String.join (l.map f) := by
  induction l generalizing out with
  | nil => exact String.append_empty.symm
  | cons e l ih => rw [List.foldl_cons, ih, List.map_cons, String.join_cons, String.append_assoc]

/-- **What `print_depth` writes**: the text of the depth with the totals for the
quantities, unless `reserve` throws. -/
theorem printDepth_eq (book : OrderBook) (out : String) (levels : Int32) :
    book.printDepth out levels =
      if 0 ≤ levels.toInt ∧ book.asks.size % 2 ^ 32 < 2 ^ 31 then
        .ok (out ++ depthTextWith (fun list => (totalQuantity list).toNat) book levels)
      else .error ⟨out ++ "---order book---" ++ "\n"⟩ := by
  have hthrow := reserve_throws_iff book levels
  have hasks : ∀ out, (collectAsks levels 0 book.asks.toList).reverse.foldl
      (fun out e => out ++ depthLine " ASK " e.1.toNat e.2.toNat) out
        = out ++ String.join (depthLines " ASK " (fun list => (totalQuantity list).toNat)
          (shownLevels levels book.asks.toList).reverse) := by
    intro out
    rw [collectAsks_eq, shownLevels_eq, ← List.map_reverse, foldl_append_eq, List.map_map]
    rfl
  simp only [printDepth, hasks, printBids_eq, shownLevels_eq]
  by_cases h : 0 ≤ levels.toInt ∧ book.asks.size % 2 ^ 32 < 2 ^ 31
  · have hsize : ¬ maxSize < sizeOfInt (book.reserveCount levels) := fun hsize => hthrow.mp hsize h
    rw [if_pos h, if_neg hsize]
    unfold depthTextWith
    simp only [String.append_assoc]
  · rw [if_neg h, if_pos (hthrow.mpr h)]

/-- **The quantities in a list of lines can be read back.** -/
theorem depthLines_inj {label : String} {quantity quantity' : List Node → ℕ}
    {l : List (Price × List Node)} {r r' : List Char}
    (h : (depthLines label quantity l).flatMap String.toList ++ r
      = (depthLines label quantity' l).flatMap String.toList ++ r') :
    (∀ e ∈ l, quantity e.2 = quantity' e.2) ∧ r = r' := by
  induction l with
  | nil => exact ⟨fun _ he => absurd he List.not_mem_nil, h⟩
  | cons e l ih =>
    -- the two first lines start with the same price
    simp only [depthLines, List.map_cons, List.flatMap_cons, toList_depthLine, List.append_assoc,
      List.append_cancel_left_eq, List.singleton_append] at h
    obtain ⟨hdigits, htail⟩ := append_newline_inj (newline_notMem_toDigits _)
      (newline_notMem_toDigits _) h
    obtain ⟨hrest, hr⟩ := ih htail
    refine ⟨fun e' he' => ?_, hr⟩
    rcases List.mem_cons.mp he' with rfl | he'
    · exact toDigits_injective hdigits
    · exact hrest e' he'

/-- A text of two parts, each behind a heading, can be read back. -/
theorem text_inj {heading heading' label label' : String} {quantity quantity' : List Node → ℕ}
    {l l' : List (Price × List Node)}
    (h : heading ++ String.join (depthLines label quantity l) ++ heading'
        ++ String.join (depthLines label' quantity l')
      = heading ++ String.join (depthLines label quantity' l) ++ heading'
        ++ String.join (depthLines label' quantity' l')) :
    (∀ e ∈ l, quantity e.2 = quantity' e.2) ∧ ∀ e ∈ l', quantity e.2 = quantity' e.2 := by
  have hchars := congrArg String.toList h
  simp only [String.toList_append, String.toList_join, List.append_assoc,
    List.append_cancel_left_eq] at hchars
  obtain ⟨hfirst, hrest⟩ := depthLines_inj hchars
  rw [List.append_cancel_left_eq, ← List.append_nil (List.flatMap _ (depthLines _ quantity _)),
    ← List.append_nil (List.flatMap _ (depthLines _ quantity' _))] at hrest
  exact ⟨hfirst, (depthLines_inj hrest).1⟩

/-! ### When the depth is reported -/

theorem depthFits_of_reportsDepth {book : OrderBook} {levels : Int32}
    (h : book.ReportsDepth levels) : book.DepthFits levels := by
  have hout := h ""
  rw [printDepth_eq] at hout
  split at hout
  · next hargs =>
    have htext := Except.ok.inj hout
    rw [String.empty_append, String.empty_append] at htext
    obtain ⟨hasks, hbids⟩ := text_inj htext
    have hexact : ∀ list, (totalQuantity list).toNat = exactQuantity list →
        exactQuantity list < 2 ^ 32 := by
      intro list hlist
      rw [← hlist]
      exact (totalQuantity list).toNat_lt
    exact ⟨hargs.1, hargs.2, fun e he => hexact e.2 (hasks e (List.mem_reverse.mpr he)),
      fun e he => hexact e.2 (hbids e he)⟩
  · exact absurd hout (by simp)

/-- **`print_depth` reports the depth exactly when it fits**: for every book and every
`int`, it completes and writes the prices and the exact quantities of the best levels if and
only if the number of levels asked for and the number of asks are not negative as `int`s and
no quantity shown exceeds 32 bits. -/
theorem reportsDepth_iff (book : OrderBook) (levels : Int32) :
    book.ReportsDepth levels ↔ book.DepthFits levels := by
  refine ⟨depthFits_of_reportsDepth, fun h out => ?_⟩
  obtain ⟨hlevels, hsize, hasks, hbids⟩ := h
  have hexact : ∀ list, exactQuantity list < 2 ^ 32 →
      (totalQuantity list).toNat = exactQuantity list := by
    intro list hlt
    rw [toNat_totalQuantity, Nat.mod_eq_of_lt hlt]
  have hlines : ∀ label l, (∀ e ∈ l, exactQuantity e.2 < 2 ^ 32) →
      depthLines label (fun list => (totalQuantity list).toNat) l
        = depthLines label exactQuantity l := by
    intro label l hl
    exact List.map_congr_left fun e he => congrArg _ (hexact e.2 (hl e he))
  have htext : depthTextWith (fun list => (totalQuantity list).toNat) book levels
      = book.depthText levels := by
    unfold depthText depthTextWith
    rw [hlines " BID " _ hbids, hlines " ASK " _ fun e he => hasks e (List.mem_reverse.mp he)]
  rw [printDepth_eq, if_pos ⟨hlevels, hsize⟩, htext]

/-- A book with two bids at a price, of quantities that add up to `2^32`, and the empty book
asked for a negative number of levels. -/
theorem not_reportsDepth :
    (∀ c ∈ ([.matchOrder (fun _ => 0) ⟨0, 1, 100, 4294967295, .BID, .LIMIT⟩,
        .matchOrder (fun _ => 0) ⟨0, 2, 100, 1, .BID, .LIMIT⟩] : List Call),
      c.Accepted ∧ c.IsEngine) ∧
    ¬ (empty.run [.matchOrder (fun _ => 0) ⟨0, 1, 100, 4294967295, .BID, .LIMIT⟩,
      .matchOrder (fun _ => 0) ⟨0, 2, 100, 1, .BID, .LIMIT⟩]).ReportsDepth 5 ∧
    ¬ (empty.run []).ReportsDepth (-1) := by
  refine ⟨by decide, fun h => ?_, fun h => ?_⟩
  · obtain ⟨-, -, -, hbids⟩ := depthFits_of_reportsDepth h
    exact absurd hbids (by decide +kernel)
  · exact absurd (depthFits_of_reportsDepth h).1 (by decide)

end OrderBook

end Exchange
