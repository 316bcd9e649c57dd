import Exchange.Lib.Sweep
import Mathlib.Order.Defs.Unbundled

/-!
# Serving a demand by repeated selection

A demand is served from a list in order of arrival: again and again the best item
that may be taken is selected, the earliest of equals, and drawn on.  This is the
same as one sweep of the list sorted by key, provided the sorted list holds the items
of each key in their order of arrival.

## Main definitions

* `cutBest` — cut a list at its best eligible item, the first of equals.
* `serve` — serve a demand by repeated selection.
* `SameQueues` — two lists hold the same items of each key in the same order.

## Main results

* `serve_eq_sweep` — **selection is a sweep**: over a list and its stable sort the two
  draw the same amounts from the same items and leave the same queues.
* `serve_filter`, `serve_concat` — items that are not eligible may be left out, or arrive,
  before the selection or after it.
-/

section Cut

variable {α κ : Type*} (ok : α → Bool) (key : α → κ) (lt : κ → κ → Prop) [DecidableRel lt]

/-- Cut a list at the best of its eligible items, the first of equals. -/
def cutBest : List α → Option (List α × α × List α)
  | [] => none
  | a :: l =>
      match cutBest l with
      | none => if ok a then some ([], a, l) else none
      | some (xs, b, ys) =>
          if ok a ∧ ¬ lt (key b) (key a) then some ([], a, l) else some (a :: xs, b, ys)

/-- Nothing is selected exactly when nothing is eligible. -/
theorem cutBest_eq_none_iff {l : List α} :
    cutBest ok key lt l = none ↔ ∀ a ∈ l, ok a = false := by
  induction l with
  | nil => simp [cutBest]
  | cons a l ih =>
    rw [cutBest]
    split
    · next h =>
      rw [ih] at h
      cases ha : ok a with
      | true => simp [ha]
      | false => simpa [ha] using h
    · next h =>
      have hne : ¬ ∀ a ∈ l, ok a = false := by
        rw [← ih, h]
        simp
      constructor
      · intro h'
        split at h' <;> exact absurd h' (by simp)
      · exact fun h' => absurd (fun b hb => h' b (List.mem_cons_of_mem a hb)) hne

variable [IsStrictTotalOrder κ lt]

/-- **The item selected**: it is eligible, better than every eligible item before it and
no worse than every eligible item behind it. -/
theorem cutBest_eq_some {l xs ys : List α} {b : α}
    (h : cutBest ok key lt l = some (xs, b, ys)) :
    l = xs ++ b :: ys ∧ ok b = true ∧ (∀ x ∈ xs, ok x = true → lt (key b) (key x)) ∧
      ∀ y ∈ ys, ok y = true → ¬ lt (key y) (key b) := by
  induction l generalizing xs b ys with
  | nil => exact absurd h (by simp [cutBest])
  | cons a l ih =>
    rw [cutBest] at h
    split at h
    · next hnone =>
      split at h
      · next ha =>
        simp only [Option.some.injEq, Prod.mk.injEq] at h
        obtain ⟨rfl, rfl, rfl⟩ := h
        refine ⟨rfl, ha, by simp, fun y hy hoky => ?_⟩
        rw [(cutBest_eq_none_iff ok key lt).mp hnone y hy] at hoky
        exact absurd hoky (by simp)
      · exact absurd h (by simp)
    · next xs' c ys' hsome =>
      obtain ⟨hl, hc, hbefore, hbehind⟩ := ih hsome
      split at h
      · -- the first item is no worse than the best of the others
        next ha =>
        simp only [Option.some.injEq, Prod.mk.injEq] at h
        obtain ⟨rfl, rfl, rfl⟩ := h
        refine ⟨rfl, ha.1, by simp, fun y hy hoky hlt => ha.2 ?_⟩
        rw [hl, List.mem_append, List.mem_cons] at hy
        rcases hy with hy | rfl | hy
        · exact trans_of lt (hbefore y hy hoky) hlt
        · exact hlt
        · rcases trichotomous_of lt (key y) (key c) with h | h | h
          · exact absurd h (hbehind y hy hoky)
          · exact h ▸ hlt
          · exact trans_of lt h hlt
      · next ha =>
        simp only [Option.some.injEq, Prod.mk.injEq] at h
        obtain ⟨rfl, rfl, rfl⟩ := h
        refine ⟨by rw [hl]; rfl, hc, fun x hx hokx => ?_, hbehind⟩
        rcases List.mem_cons.mp hx with rfl | hx
        · exact by_contra fun hlt => ha ⟨hokx, hlt⟩
        · exact hbefore x hx hokx

omit [IsStrictTotalOrder κ lt] in
/-- Items that are not eligible may be left out before the selection. -/
theorem cutBest_filter {p : α → Bool} {l : List α} (h : ∀ a ∈ l, ok a = true → p a = true) :
    cutBest ok key lt (l.filter p)
      = (cutBest ok key lt l).map fun (xs, b, ys) => (xs.filter p, b, ys.filter p) := by
  induction l with
  | nil => rfl
  | cons a l ih =>
    have ih' := ih fun b hb => h b (List.mem_cons_of_mem a hb)
    have ha := h a List.mem_cons_self
    cases hp : p a with
    | true =>
      rw [List.filter_cons_of_pos hp, cutBest, cutBest, ih']
      rcases cutBest ok key lt l with _ | ⟨xs, b, ys⟩
      · simp only [Option.map_none]
        split <;> rfl
      · simp only [Option.map_some]
        split
        · rfl
        · simp [hp]
    | false =>
      have hok : ok a = false := by
        cases hok : ok a with
        | true => exact absurd ((ha hok).symm.trans hp) (by simp)
        | false => rfl
      rw [List.filter_cons_of_neg (by simp [hp]), cutBest, ih']
      rcases cutBest ok key lt l with _ | ⟨xs, b, ys⟩
      · simp [hok]
      · simp [hok, hp]

omit [IsStrictTotalOrder κ lt] in
/-- An item that is not eligible may arrive last without being noticed. -/
theorem cutBest_concat {a : α} (ha : ok a = false) (l : List α) :
    cutBest ok key lt (l ++ [a])
      = (cutBest ok key lt l).map fun (xs, b, ys) => (xs, b, ys ++ [a]) := by
  induction l with
  | nil => simp [cutBest, ha]
  | cons b l ih =>
    rw [List.cons_append, cutBest, cutBest, ih]
    rcases cutBest ok key lt l with _ | ⟨xs, c, ys⟩
    · simp only [Option.map_none]
      split <;> rfl
    · simp only [Option.map_some]
      split <;> rfl

end Cut

/-- The outcome of serving a demand. -/
structure Served (α : Type*) where
  /-- The items drawn on, in order, each with the amount drawn. -/
  fills : List (α × ℕ)
  /-- The list afterwards. -/
  kept : List α
  /-- The demand that was not served. -/
  unmet : ℕ

section Serve

variable {α κ : Type*} (weight : α → ℕ) (reduce : α → ℕ → α) (ok : α → Bool) (key : α → κ)
  (lt : κ → κ → Prop) [DecidableRel lt]

theorem length_cutBest [IsStrictTotalOrder κ lt] {l xs ys : List α} {b : α}
    (h : cutBest ok key lt l = some (xs, b, ys)) : l.length = xs.length + ys.length + 1 := by
  rw [(cutBest_eq_some ok key lt h).1, List.length_append, List.length_cons]
  omega

/-- Serve a demand: while there is demand and an eligible item, draw what is possible
from the best one.  An item that is used up is deleted, any other keeps its place. -/
def serve [IsStrictTotalOrder κ lt] (l : List α) (d : ℕ) : Served α :=
  if d = 0 then ⟨[], l, d⟩
  else
    match _h : cutBest ok key lt l with
    | none => ⟨[], l, d⟩
    | some (xs, a, ys) =>
        let k := min (weight a) d
        let r := serve (if weight a = k then xs ++ ys else xs ++ reduce a k :: ys) (d - k)
        ⟨(a, k) :: r.fills, r.kept, r.unmet⟩
termination_by l.length + d
decreasing_by
  have hlen := length_cutBest ok key lt _h
  split
  · rw [List.length_append]
    omega
  · rw [List.length_append, List.length_cons]
    omega

variable [IsStrictTotalOrder κ lt]

@[simp] theorem serve_zero (l : List α) : serve weight reduce ok key lt l 0 = ⟨[], l, 0⟩ := by
  unfold serve
  rw [if_pos rfl]

theorem serve_none {l : List α} (h : cutBest ok key lt l = none) (d : ℕ) :
    serve weight reduce ok key lt l d = ⟨[], l, d⟩ := by
  unfold serve
  split
  · rfl
  · split
    · rfl
    · next h' => rw [h] at h'; exact absurd h' (by simp)

theorem serve_some {l xs ys : List α} {a : α} (h : cutBest ok key lt l = some (xs, a, ys)) {d : ℕ}
    (hd : d ≠ 0) :
    serve weight reduce ok key lt l d =
      let k := min (weight a) d
      let r := serve weight reduce ok key lt
        (if weight a = k then xs ++ ys else xs ++ reduce a k :: ys) (d - k)
      ⟨(a, k) :: r.fills, r.kept, r.unmet⟩ := by
  conv_lhs => unfold serve
  rw [if_neg hd]
  split
  · next h' => rw [h] at h'; exact absurd h' (by simp)
  · next h' =>
    rw [h] at h'
    simp only [Option.some.injEq, Prod.mk.injEq] at h'
    obtain ⟨rfl, rfl, rfl⟩ := h'
    rfl

/-- The best item is used up. -/
theorem serve_whole {l xs ys : List α} {a : α} (h : cutBest ok key lt l = some (xs, a, ys)) {d : ℕ}
    (hd : d ≠ 0) (hw : weight a ≤ d) :
    serve weight reduce ok key lt l d =
      let r := serve weight reduce ok key lt (xs ++ ys) (d - weight a)
      ⟨(a, weight a) :: r.fills, r.kept, r.unmet⟩ := by
  rw [serve_some weight reduce ok key lt h hd]
  simp only [Nat.min_eq_left hw, if_true]

/-- The demand runs out inside the best item. -/
theorem serve_part {l xs ys : List α} {a : α} (h : cutBest ok key lt l = some (xs, a, ys)) {d : ℕ}
    (hd : d ≠ 0) (hw : d < weight a) :
    serve weight reduce ok key lt l d = ⟨[(a, d)], xs ++ reduce a d :: ys, 0⟩ := by
  rw [serve_some weight reduce ok key lt h hd]
  simp only [Nat.min_eq_right (Nat.le_of_lt hw), Nat.sub_self, serve_zero,
    if_neg (Nat.ne_of_gt hw)]

/-- The items of a class without eligible members are left alone. -/
theorem filter_kept {p : α → Bool} (hp : ∀ a, ok a = true → p a = false)
    (hred : ∀ a k, p (reduce a k) = p a) (l : List α) (d : ℕ) :
    (serve weight reduce ok key lt l d).kept.filter p = l.filter p := by
  fun_induction serve weight reduce ok key lt l d with
  | case1 l => rfl
  | case2 l d hd hcut => rfl
  | case3 l d hd xs a ys hcut k r ih =>
    obtain ⟨rfl, ha, -, -⟩ := cutBest_eq_some ok key lt hcut
    have hpa := hp a ha
    show r.kept.filter p = _
    rw [ih]
    split
    · simp [hpa]
    · simp [hred, hpa]

/-- What a reduction does not touch is only thinned out. -/
theorem map_kept_sublist {β : Type*} (f : α → β) (hf : ∀ a k, f (reduce a k) = f a) (l : List α)
    (d : ℕ) : List.Sublist ((serve weight reduce ok key lt l d).kept.map f) (l.map f) := by
  fun_induction serve weight reduce ok key lt l d with
  | case1 l => exact List.Sublist.refl _
  | case2 l d hd hcut => exact List.Sublist.refl _
  | case3 l d hd xs a ys hcut k r ih =>
    obtain ⟨rfl, -, -, -⟩ := cutBest_eq_some ok key lt hcut
    apply ih.trans
    split
    · simp
    · simp [hf]

/-- **Items that are not eligible do not count**: leaving some of them out beforehand or
afterwards is the same. -/
theorem serve_filter {p : α → Bool} (hred : ∀ a k, p (reduce a k) = p a) (l : List α) (d : ℕ)
    (h : ∀ a ∈ l, ok a = true → p a = true) :
    serve weight reduce ok key lt (l.filter p) d
      = ⟨(serve weight reduce ok key lt l d).fills,
          (serve weight reduce ok key lt l d).kept.filter p,
          (serve weight reduce ok key lt l d).unmet⟩ := by
  fun_induction serve weight reduce ok key lt l d with
  | case1 l => rw [serve_zero]
  | case2 l d hd hcut =>
    rw [serve_none]
    rw [cutBest_filter ok key lt h, hcut]
    rfl
  | case3 l d hd xs a ys hcut k r ih =>
    obtain ⟨rfl, ha, -, -⟩ := cutBest_eq_some ok key lt hcut
    have hpa : p a = true := h a (by simp) ha
    have hcut' : cutBest ok key lt ((xs ++ a :: ys).filter p)
        = some (xs.filter p, a, ys.filter p) := by
      rw [cutBest_filter ok key lt h, hcut]
      rfl
    -- the item selected stays, whatever is left out
    have hrest : (if weight a = k then xs.filter p ++ ys.filter p
        else xs.filter p ++ reduce a k :: ys.filter p)
        = (if weight a = k then xs ++ ys else xs ++ reduce a k :: ys).filter p := by
      split
      · rw [List.filter_append]
      · rw [List.filter_append, List.filter_cons_of_pos (by rw [hred, hpa])]
    have hnext : ∀ b ∈ (if weight a = k then xs ++ ys else xs ++ reduce a k :: ys),
        ok b = true → p b = true := by
      intro b hb hok
      split at hb
      · exact h b (by simp only [List.mem_append, List.mem_cons] at hb ⊢; tauto) hok
      · rcases List.mem_append.mp hb with hb | hb
        · exact h b (List.mem_append_left _ hb) hok
        · rcases List.mem_cons.mp hb with rfl | hb
          · rw [hred, hpa]
          · exact h b (List.mem_append_right _ (List.mem_cons_of_mem a hb)) hok
    have hk : min (weight a) d = k := rfl
    simp only [dite_eq_ite] at ih
    rw [serve_some _ _ _ _ _ hcut' hd]
    simp only [hk, hrest, ih hnext]
    rfl

/-- **An item that is not eligible may arrive last** and stays where it is. -/
theorem serve_concat {x : α} (hx : ok x = false) (l : List α) (d : ℕ) :
    serve weight reduce ok key lt (l ++ [x]) d
      = ⟨(serve weight reduce ok key lt l d).fills,
          (serve weight reduce ok key lt l d).kept ++ [x],
          (serve weight reduce ok key lt l d).unmet⟩ := by
  fun_induction serve weight reduce ok key lt l d with
  | case1 l => rw [serve_zero]
  | case2 l d hd hcut =>
    rw [serve_none]
    rw [cutBest_concat ok key lt hx, hcut]
    rfl
  | case3 l d hd xs a ys hcut k r ih =>
    have hcut' : cutBest ok key lt (l ++ [x]) = some (xs, a, ys ++ [x]) := by
      rw [cutBest_concat ok key lt hx, hcut]
      rfl
    have hrest : (if weight a = k then xs ++ (ys ++ [x]) else xs ++ reduce a k :: (ys ++ [x]))
        = (if weight a = k then xs ++ ys else xs ++ reduce a k :: ys) ++ [x] := by
      split <;> simp
    have hk : min (weight a) d = k := rfl
    simp only [dite_eq_ite] at ih
    rw [serve_some _ _ _ _ _ hcut' hd]
    simp only [hk, hrest, ih]
    rfl

end Serve

section Stable

variable {α κ : Type*} [DecidableEq κ]

/-- `q` holds, key by key, the chosen items of `l` in the order of `l`. -/
def SameQueues (mine : α → Bool) (key : α → κ) (l q : List α) : Prop :=
  ∀ k, q.filter (fun a => key a = k) = l.filter fun a => mine a ∧ key a = k

variable {mine : α → Bool} {key : α → κ} {l q : List α}

theorem SameQueues.mem_iff (h : SameQueues mine key l q) {a : α} :
    a ∈ q ↔ a ∈ l ∧ mine a = true := by
  have hk : a ∈ q.filter (fun b => key b = key a) ↔
      a ∈ l.filter fun b => mine b ∧ key b = key a := by
    rw [h (key a)]
  simpa using hk

/-- The chosen items of a list and its queues are the same items. -/
theorem SameQueues.perm [DecidableEq α] (h : SameQueues mine key l q) :
    q.Perm (l.filter fun a => mine a) := by
  rw [List.perm_iff_count]
  intro a
  have hq : (q.filter fun b => key b = key a).count a = q.count a :=
    List.count_filter (by simp)
  have hl : (l.filter fun b => mine b ∧ key b = key a).count a
      = (l.filter fun b => mine b).count a := by
    cases hm : mine a with
    | true => rw [List.count_filter (by simp [hm]), List.count_filter (by simp [hm])]
    | false =>
      rw [List.count_eq_zero_of_not_mem (by simp [hm]),
        List.count_eq_zero_of_not_mem (by simp [hm])]
  rw [← hq, ← hl, h (key a)]

/-- Keeping the items of a class keeps the queues of the class. -/
theorem SameQueues.filter (h : SameQueues mine key l q) (p : α → Bool) :
    SameQueues mine key (l.filter p) (q.filter p) := by
  intro k
  rw [List.filter_comm, h k, List.filter_comm]

/-- An item that arrives last goes behind the items of its key. -/
theorem SameQueues.push {q' : List α} {a : α} (h : SameQueues mine key l (q ++ q'))
    (ha : mine a = true) (hq' : ∀ b ∈ q', key b ≠ key a) :
    SameQueues mine key (l ++ [a]) (q ++ a :: q') := by
  intro k
  have hk := h k
  rw [List.filter_append] at hk ⊢
  rw [List.filter_append, ← hk]
  by_cases hka : key a = k
  · have hnil : q'.filter (fun b => key b = k) = [] := by
      rw [List.filter_eq_nil_iff]
      intro b hb
      simpa [← hka] using hq' b hb
    simp [hka, ha, hnil]
  · simp [hka]

/-- An item that is not chosen may arrive unnoticed. -/
theorem SameQueues.skip {a : α} (h : SameQueues mine key l q) (ha : mine a = false) :
    SameQueues mine key (l ++ [a]) q := by
  intro k
  rw [h k, List.filter_append]
  simp [ha]

end Stable

section SelectionIsSweep

variable {α κ : Type*} [DecidableEq κ] (weight : α → ℕ) (reduce : α → ℕ → α) (mine : α → Bool)
  (key : α → κ) (stop : κ → Bool) (lt : κ → κ → Prop) [DecidableRel lt] [IsStrictTotalOrder κ lt]

/-- The items of a selection: the chosen ones whose key does not stop it. -/
def eligible (a : α) : Bool := mine a && !stop (key a)

omit [DecidableEq κ] in
theorem eligible_eq_true_iff {a : α} :
    eligible mine key stop a = true ↔ mine a = true ∧ stop (key a) = false := by
  simp [eligible]

omit [DecidableRel lt] in
/-- The first item of the queues is the chosen item that has no better one before it or
behind it and no equal one before it. -/
theorem head_eq_of_cut {q xs ys : List α} {a b : α}
    (hsort : (a :: q).Pairwise fun a b => ¬ lt (key b) (key a))
    (hsame : SameQueues mine key (xs ++ b :: ys) (a :: q)) (hb : mine b = true)
    (hxs : ∀ x ∈ xs, mine x = true → ¬ lt (key x) (key b) ∧ key x ≠ key b)
    (hys : ∀ y ∈ ys, mine y = true → ¬ lt (key y) (key b)) : a = b := by
  have hbq : b ∈ a :: q := hsame.mem_iff.mpr ⟨by simp, hb⟩
  obtain ⟨hal, ha⟩ := hsame.mem_iff.mp (List.mem_cons_self (a := a) (l := q))
  have hab : ¬ lt (key a) (key b) := by
    rw [List.mem_append, List.mem_cons] at hal
    rcases hal with hal | rfl | hal
    · exact (hxs a hal ha).1
    · exact irrefl_of lt _
    · exact hys a hal ha
  have hba : ¬ lt (key b) (key a) := by
    rcases List.mem_cons.mp hbq with rfl | hbq
    · exact irrefl_of lt _
    · exact (List.pairwise_cons.mp hsort).1 b hbq
  have hkey : key a = key b := by
    rcases trichotomous_of lt (key a) (key b) with h | h | h
    · exact absurd h hab
    · exact h
    · exact absurd h hba
  -- both are the first item of that key
  have hk := hsame (key b)
  have hnil : xs.filter (fun x => mine x ∧ key x = key b) = [] := by
    rw [List.filter_eq_nil_iff]
    intro x hx
    simpa using fun hm => (hxs x hx hm).2
  rw [List.filter_append, hnil, List.filter_cons_of_pos (by simpa using hkey),
    List.nil_append, List.filter_cons_of_pos (by simpa using hb)] at hk
  exact (List.cons.inj hk).1

/-- **The item selected is the first of the queues**, and no chosen item before it has
its key. -/
theorem cutBest_eq_head (hmono : ∀ p q, lt p q → stop p = true → stop q = true)
    {q l : List α} {a : α} (hsort : (a :: q).Pairwise fun a b => ¬ lt (key b) (key a))
    (hsame : SameQueues mine key l (a :: q)) (hstop : stop (key a) = false) :
    ∃ xs ys, cutBest (eligible mine key stop) key lt l = some (xs, a, ys) ∧ l = xs ++ a :: ys ∧
      mine a = true ∧ ∀ x ∈ xs, mine x = true → key x ≠ key a := by
  obtain ⟨hal, ha⟩ := hsame.mem_iff.mp (List.mem_cons_self (a := a) (l := q))
  cases hcut : cutBest (eligible mine key stop) key lt l with
  | none =>
    have hno := (cutBest_eq_none_iff _ key lt).mp hcut a hal
    rw [(eligible_eq_true_iff mine key stop).mpr ⟨ha, hstop⟩] at hno
    exact absurd hno (by simp)
  | some c =>
    obtain ⟨xs, b, ys⟩ := c
    obtain ⟨hl, hb, hbefore, hbehind⟩ := cutBest_eq_some _ key lt hcut
    obtain ⟨hbm, hbs⟩ := (eligible_eq_true_iff mine key stop).mp hb
    -- an item whose key stops the selection is worse than the one selected
    have hworse : ∀ x, stop (key x) = true → ¬ lt (key x) (key b) ∧ key x ≠ key b := by
      intro x hx
      refine ⟨fun hlt => ?_, fun heq => ?_⟩
      · rw [hmono _ _ hlt hx] at hbs
        exact absurd hbs (by simp)
      · rw [heq, hbs] at hx
        exact absurd hx (by simp)
    have hxs : ∀ x ∈ xs, mine x = true → ¬ lt (key x) (key b) ∧ key x ≠ key b := by
      intro x hx hm
      cases hs : stop (key x) with
      | true => exact hworse x hs
      | false =>
        have hlt := hbefore x hx ((eligible_eq_true_iff mine key stop).mpr ⟨hm, hs⟩)
        refine ⟨fun h => irrefl_of lt _ (trans_of lt h hlt), fun h => ?_⟩
        rw [h] at hlt
        exact irrefl_of lt _ hlt
    have hys : ∀ y ∈ ys, mine y = true → ¬ lt (key y) (key b) := by
      intro y hy hm
      cases hs : stop (key y) with
      | true => exact (hworse y hs).1
      | false => exact hbehind y hy ((eligible_eq_true_iff mine key stop).mpr ⟨hm, hs⟩)
    obtain rfl := head_eq_of_cut mine key lt hsort (hl ▸ hsame) hbm hxs hys
    exact ⟨xs, ys, rfl, hl, hbm, fun x hx hm => (hxs x hx hm).2⟩

/-- Nothing is selected when the first of the queues stops the sweep. -/
theorem cutBest_eq_none_of_stop (hmono : ∀ p q, lt p q → stop p = true → stop q = true)
    {q l : List α} {a : α} (hsort : (a :: q).Pairwise fun a b => ¬ lt (key b) (key a))
    (hsame : SameQueues mine key l (a :: q)) (hstop : stop (key a) = true) :
    cutBest (eligible mine key stop) key lt l = none := by
  rw [cutBest_eq_none_iff]
  intro x hx
  by_contra hne
  obtain ⟨hm, hs⟩ := (eligible_eq_true_iff mine key stop).mp (by simpa using hne)
  -- nothing in the queue is before the head, and so everything stops with it
  have hsx : stop (key x) = true := by
    rcases List.mem_cons.mp (hsame.mem_iff.mpr ⟨hx, hm⟩) with rfl | hxq
    · exact hstop
    · rcases trichotomous_of lt (key a) (key x) with h | h | h
      · exact hmono _ _ h hstop
      · exact h ▸ hstop
      · exact absurd h ((List.pairwise_cons.mp hsort).1 x hxq)
  rw [hsx] at hs
  exact absurd hs (by simp)

omit [DecidableRel lt] [IsStrictTotalOrder κ lt] in
/-- Deleting the first item of the queues. -/
theorem SameQueues.delete {q xs ys : List α} {a : α}
    (h : SameQueues mine key (xs ++ a :: ys) (a :: q)) (ha : mine a = true)
    (hxs : ∀ x ∈ xs, mine x = true → key x ≠ key a) : SameQueues mine key (xs ++ ys) q := by
  intro k
  have hk := h k
  by_cases hka : key a = k
  -- only the queue of the key of `a` changes, and `a` is its first item
  · have hnil : xs.filter (fun x => mine x ∧ key x = k) = [] := by
      rw [List.filter_eq_nil_iff]
      intro x hx
      simpa [← hka] using hxs x hx
    rw [List.filter_append, hnil, List.filter_cons_of_pos (by simpa using hka),
      List.nil_append, List.filter_cons_of_pos (by simpa [ha] using hka)] at hk
    rw [List.filter_append, hnil, List.nil_append]
    exact (List.cons.inj hk).2
  · rw [List.filter_append, List.filter_cons_of_neg (by simpa using hka),
      List.filter_cons_of_neg (by simp [hka])] at hk
    rw [List.filter_append]
    exact hk

omit [DecidableRel lt] [IsStrictTotalOrder κ lt] in
/-- Replacing the first item of the queues by one of its key. -/
theorem SameQueues.replace {q xs ys : List α} {a a' : α}
    (h : SameQueues mine key (xs ++ a :: ys) (a :: q)) (ha : mine a = true)
    (hxs : ∀ x ∈ xs, mine x = true → key x ≠ key a) (hkey : key a' = key a)
    (ha' : mine a' = true) : SameQueues mine key (xs ++ a' :: ys) (a' :: q) := by
  intro k
  have hk := h.delete mine key ha hxs k
  rw [List.filter_append] at hk
  by_cases hka : key a = k
  · have hnil : xs.filter (fun x => mine x ∧ key x = k) = [] := by
      rw [List.filter_eq_nil_iff]
      intro x hx
      simpa [← hka] using hxs x hx
    rw [hnil, List.nil_append] at hk
    rw [List.filter_append, hnil, List.filter_cons_of_pos (by simpa [hkey] using hka),
      List.nil_append, List.filter_cons_of_pos (by simpa [hkey, ha'] using hka), hk]
  · rw [List.filter_append, List.filter_cons_of_neg (by simpa [hkey] using hka),
      List.filter_cons_of_neg (by simp [hkey, hka]), hk]

variable (hmono : ∀ p q, lt p q → stop p = true → stop q = true)
  (hkey : ∀ a k, key (reduce a k) = key a) (hmine : ∀ a k, mine (reduce a k) = mine a)

include hmono hkey hmine

/-- **Selection is a sweep.**  Serving a demand from a list by selection draws the same
amounts from the same items as sweeping its queues, best key first, and leaves the same
queues. -/
theorem serve_eq_sweep {q l : List α} (d : ℕ)
    (hsort : q.Pairwise fun a b => ¬ lt (key b) (key a)) (hsame : SameQueues mine key l q) :
    (serve weight reduce (eligible mine key stop) key lt l d).fills
        = (sweep weight reduce (fun a => stop (key a)) q d).fills ∧
      (serve weight reduce (eligible mine key stop) key lt l d).unmet
        = (sweep weight reduce (fun a => stop (key a)) q d).unmet ∧
      SameQueues mine key (serve weight reduce (eligible mine key stop) key lt l d).kept
        (sweep weight reduce (fun a => stop (key a)) q d).left := by
  induction q generalizing l d with
  | nil =>
    have hcut : cutBest (eligible mine key stop) key lt l = none := by
      rw [cutBest_eq_none_iff]
      intro a ha
      by_contra hne
      obtain ⟨hm, -⟩ := (eligible_eq_true_iff mine key stop).mp (by simpa using hne)
      exact absurd (hsame.mem_iff.mpr ⟨ha, hm⟩) List.not_mem_nil
    rw [serve_none _ _ _ _ _ hcut, sweep_nil]
    exact ⟨rfl, rfl, hsame⟩
  | cons a q ih =>
    have hsort' := (List.pairwise_cons.mp hsort).2
    rcases sweep_step_cases weight (fun a => stop (key a)) a d with
      h | h | ⟨hs, hd, hw⟩ | ⟨hs, hd, hw⟩
    · subst h
      rw [serve_zero, sweep_zero]
      exact ⟨rfl, rfl, hsame⟩
    · have hcut := cutBest_eq_none_of_stop mine key stop lt hmono hsort hsame h
      rw [serve_none _ _ _ _ _ hcut, sweep_stop weight reduce _ h]
      exact ⟨rfl, rfl, hsame⟩
    · -- the first item is used up and deleted
      obtain ⟨xs, ys, hcut, rfl, ha, hxs⟩ :=
        cutBest_eq_head mine key stop lt hmono hsort hsame hs
      obtain ⟨hfills, hunmet, hkept⟩ := ih (d - weight a) hsort' (hsame.delete mine key ha hxs)
      rw [serve_whole _ _ _ _ _ hcut hd hw, sweep_whole weight reduce _ hs hd hw]
      exact ⟨congrArg ((a, weight a) :: ·) hfills, hunmet, hkept⟩
    · -- the demand runs out inside the first item, which keeps its place
      obtain ⟨xs, ys, hcut, rfl, ha, hxs⟩ :=
        cutBest_eq_head mine key stop lt hmono hsort hsame hs
      rw [serve_part _ _ _ _ _ hcut hd hw, sweep_part weight reduce _ hs hd hw]
      exact ⟨rfl, rfl, hsame.replace mine key ha hxs (hkey a d) (by rw [hmine, ha])⟩

end SelectionIsSweep
