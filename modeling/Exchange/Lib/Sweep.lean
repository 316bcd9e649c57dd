import Mathlib.Algebra.Ring.Nat
import Mathlib.Algebra.BigOperators.Group.List.Basic
import Mathlib.Data.List.Basic

/-!
# Sweeping a queue of weighted items

A demand is met from the front of a queue: an item is taken whole while the
demand is at least its weight, the item at which the demand runs out is reduced
and keeps its place, and the sweep halts at the first item it may not take.

## Main definitions

* `Swept` — what a sweep leaves behind.
* `sweep` — the sweep of a queue by a demand.
* `mergeRuns` — a list with the neighbours of one key merged.

## Main results

* `sweep_cases` — **the inversion of a sweep**: the queue is cut into the items
  taken whole and the rest, and at most the first item of the rest is reduced.
* `sweep_append` — the sweep of a concatenation, one part after the other.
* `sum_fills_add_unmet` — every unit of the demand is met or unmet.
* `fills_prefix_of_stop` — a sweep that may take more goes further.
* `sweep_add` — two demands in a row are met like their sum.
-/

/-- The outcome of a sweep. -/
structure Swept (α : Type*) where
  /-- The items drawn on, in order, each with the amount drawn. -/
  fills : List (α × ℕ)
  /-- The items taken whole, in order. -/
  gone : List α
  /-- The queue afterwards. -/
  left : List α
  /-- The demand that was not met. -/
  unmet : ℕ

section Sweep

variable {α : Type*} (weight : α → ℕ) (reduce : α → ℕ → α) (stop : α → Bool)

/-- Meet a demand from the front of a queue. -/
def sweep : List α → ℕ → Swept α
  | [], d => ⟨[], [], [], d⟩
  | a :: q, d =>
      if d = 0 ∨ stop a = true then ⟨[], [], a :: q, d⟩
      else if weight a ≤ d then
        let r := sweep q (d - weight a)
        ⟨(a, weight a) :: r.fills, a :: r.gone, r.left, r.unmet⟩
      else ⟨[(a, d)], [], reduce a d :: q, 0⟩

@[simp] theorem sweep_nil (d : ℕ) : sweep weight reduce stop [] d = ⟨[], [], [], d⟩ := rfl

@[simp] theorem sweep_zero (q : List α) : sweep weight reduce stop q 0 = ⟨[], [], q, 0⟩ := by
  cases q with
  | nil => rfl
  | cons a q => rw [sweep, if_pos (Or.inl rfl)]

theorem sweep_stop {a : α} (h : stop a = true) (q : List α) (d : ℕ) :
    sweep weight reduce stop (a :: q) d = ⟨[], [], a :: q, d⟩ := by
  rw [sweep, if_pos (Or.inr h)]

theorem sweep_whole {a : α} (h : stop a = false) {d : ℕ} (hd : d ≠ 0) (hw : weight a ≤ d)
    (q : List α) :
    sweep weight reduce stop (a :: q) d =
      ⟨(a, weight a) :: (sweep weight reduce stop q (d - weight a)).fills,
        a :: (sweep weight reduce stop q (d - weight a)).gone,
        (sweep weight reduce stop q (d - weight a)).left,
        (sweep weight reduce stop q (d - weight a)).unmet⟩ := by
  rw [sweep, if_neg (by simp [hd, h]), if_pos hw]

theorem sweep_part {a : α} (h : stop a = false) {d : ℕ} (hd : d ≠ 0) (hw : d < weight a)
    (q : List α) :
    sweep weight reduce stop (a :: q) d = ⟨[(a, d)], [], reduce a d :: q, 0⟩ := by
  rw [sweep, if_neg (by simp [hd, h]), if_neg (by omega)]

/-- The four ways a sweep can treat its first item, with the result of each. -/
theorem sweep_step_cases (weight : α → ℕ) (stop : α → Bool) (a : α) (d : ℕ) :
    d = 0 ∨ stop a = true ∨ (stop a = false ∧ d ≠ 0 ∧ weight a ≤ d) ∨
      (stop a = false ∧ d ≠ 0 ∧ d < weight a) := by
  rcases Nat.eq_zero_or_pos d with h | h
  · exact Or.inl h
  · cases hs : stop a with
    | true => exact Or.inr (Or.inl rfl)
    | false =>
      rcases Nat.lt_or_ge d (weight a) with hw | hw
      · exact Or.inr (Or.inr (Or.inr ⟨rfl, by omega, hw⟩))
      · exact Or.inr (Or.inr (Or.inl ⟨rfl, by omega, hw⟩))

/-- **The inversion of a sweep.**  The queue is the items taken whole followed by
the rest.  Either the rest is left as it was, because the demand is met, the
queue is empty or its first item may not be taken, or the demand runs out inside
the first item of the rest. -/
theorem sweep_cases : ∀ (q : List α) (d : ℕ),
    ∃ done rest, q = done ++ rest ∧ (∀ a ∈ done, stop a = false) ∧
      (done.map weight).sum ≤ d ∧ (sweep weight reduce stop q d).gone = done ∧
      ((sweep weight reduce stop q d =
            ⟨done.map fun a => (a, weight a), done, rest, d - (done.map weight).sum⟩ ∧
          (d = (done.map weight).sum ∨ rest = [] ∨
            ∃ a rest', rest = a :: rest' ∧ stop a = true)) ∨
        ∃ a rest', rest = a :: rest' ∧ stop a = false ∧ (done.map weight).sum < d ∧
          d - (done.map weight).sum < weight a ∧
          sweep weight reduce stop q d =
            ⟨(done.map fun a => (a, weight a)) ++ [(a, d - (done.map weight).sum)], done,
              reduce a (d - (done.map weight).sum) :: rest', 0⟩) := by
  intro q
  induction q with
  | nil =>
    intro d
    exact ⟨[], [], rfl, by simp, Nat.zero_le d, rfl, Or.inl ⟨rfl, Or.inr (Or.inl rfl)⟩⟩
  | cons a q ih =>
    intro d
    rcases sweep_step_cases weight stop a d with h | h | ⟨hs, hd, hw⟩ | ⟨hs, hd, hw⟩
    · subst h
      exact ⟨[], a :: q, rfl, by simp, Nat.le_refl 0, by rw [sweep_zero],
        Or.inl ⟨sweep_zero weight reduce stop _, Or.inl rfl⟩⟩
    · exact ⟨[], a :: q, rfl, by simp, Nat.zero_le d, by rw [sweep_stop weight reduce stop h],
        Or.inl ⟨sweep_stop weight reduce stop h q d, Or.inr (Or.inr ⟨a, q, rfl, h⟩)⟩⟩
    · -- the first item is taken whole, and the rest of the sweep is the induction's
      obtain ⟨done, rest, hq, hdone, hsum, hgone, hcase⟩ := ih (d - weight a)
      have hcons : ((a :: done).map weight).sum = weight a + (done.map weight).sum := by simp
      have hle : ((a :: done).map weight).sum ≤ d := by
        clear hcase
        omega
      have hsub : d - weight a - (done.map weight).sum = d - ((a :: done).map weight).sum := by
        clear hcase
        omega
      refine ⟨a :: done, rest, by rw [hq]; rfl, ?_, hle,
        by rw [sweep_whole weight reduce stop hs hd hw, hgone], ?_⟩
      · intro b hb
        rcases List.mem_cons.mp hb with rfl | hb
        · exact hs
        · exact hdone b hb
      · rw [sweep_whole weight reduce stop hs hd hw]
        rcases hcase with ⟨hr, hend⟩ | ⟨b, rest', hrest, hb, hlt, hpart, hr⟩
        · refine Or.inl ⟨by rw [hr, ← hsub]; rfl, ?_⟩
          rcases hend with hend | hend
          · exact Or.inl (by omega)
          · exact Or.inr hend
        · refine Or.inr ⟨b, rest', hrest, hb, ?_, ?_, ?_⟩
          · omega
          · rw [← hsub]; exact hpart
          · rw [hr, ← hsub]; rfl
    · refine ⟨[], a :: q, rfl, by simp, Nat.zero_le d,
        by rw [sweep_part weight reduce stop hs hd hw],
        Or.inr ⟨a, q, rfl, hs, Nat.pos_of_ne_zero hd, hw, ?_⟩⟩
      rw [sweep_part weight reduce stop hs hd hw]
      rfl

/-- The sweep of a concatenation goes on into the second part exactly when the
first part is used up. -/
theorem sweep_append (p : List α) (d : ℕ) (q : List α) :
    sweep weight reduce stop (p ++ q) d =
      if (sweep weight reduce stop p d).left = [] then
        let r := sweep weight reduce stop q (sweep weight reduce stop p d).unmet
        ⟨(sweep weight reduce stop p d).fills ++ r.fills,
          (sweep weight reduce stop p d).gone ++ r.gone, r.left, r.unmet⟩
      else
        { sweep weight reduce stop p d with left := (sweep weight reduce stop p d).left ++ q } := by
  induction p generalizing d with
  | nil => simp
  | cons a p ih =>
    rcases sweep_step_cases weight stop a d with h | h | ⟨hs, hd, hw⟩ | ⟨hs, hd, hw⟩
    · subst h; simp
    · simp [sweep_stop weight reduce stop h]
    · rw [List.cons_append, sweep_whole weight reduce stop hs hd hw,
        sweep_whole weight reduce stop hs hd hw, ih (d - weight a)]
      split <;> rfl
    · simp [sweep_part weight reduce stop hs hd hw]

/-- A sweep of an image is the image of the sweep. -/
theorem sweep_map {β : Type*} (f : α → β) {weight' : β → ℕ} {reduce' : β → ℕ → β}
    {stop' : β → Bool} (hw : ∀ a, weight' (f a) = weight a)
    (hr : ∀ a k, k ≤ weight a → f (reduce a k) = reduce' (f a) k) (q : List α)
    (hs : ∀ a ∈ q, stop' (f a) = stop a) (d : ℕ) :
    sweep weight' reduce' stop' (q.map f) d =
      ⟨(sweep weight reduce stop q d).fills.map fun x => (f x.1, x.2),
        (sweep weight reduce stop q d).gone.map f, (sweep weight reduce stop q d).left.map f,
        (sweep weight reduce stop q d).unmet⟩ := by
  induction q generalizing d with
  | nil => rfl
  | cons a q ih =>
    rw [List.map_cons]
    have ha : stop' (f a) = stop a := hs a List.mem_cons_self
    rcases sweep_step_cases weight stop a d with h | h | ⟨hsa, hd, hle⟩ | ⟨hsa, hd, hlt⟩
    · subst h
      rw [sweep_zero, sweep_zero]
      rfl
    · rw [sweep_stop weight reduce stop h, sweep_stop _ _ _ (ha.trans h)]
      rfl
    · rw [sweep_whole weight reduce stop hsa hd hle,
        sweep_whole _ _ _ (ha.trans hsa) hd (by rw [hw]; exact hle), hw,
        ih fun b hb => hs b (List.mem_cons_of_mem a hb)]
      rfl
    · rw [sweep_part weight reduce stop hsa hd hlt,
        sweep_part _ _ _ (ha.trans hsa) hd (by rw [hw]; exact hlt),
        ← hr a d (Nat.le_of_lt hlt)]
      rfl

/-- A sweep asks only whether the items of its queue may be taken. -/
theorem sweep_congr {stop' : α → Bool} {q : List α} (h : ∀ a ∈ q, stop' a = stop a) (d : ℕ) :
    sweep weight reduce stop' q d = sweep weight reduce stop q d := by
  have hmap := sweep_map weight reduce stop id (fun _ => rfl) (fun _ _ _ => rfl) q h d
  simpa using hmap

/-- **A sweep that may take more goes further**: it starts with the same fills. -/
theorem fills_prefix_of_stop {stop' : α → Bool} {q : List α}
    (h : ∀ a ∈ q, stop' a = true → stop a = true) (d : ℕ) :
    (sweep weight reduce stop q d).fills <+: (sweep weight reduce stop' q d).fills := by
  induction q generalizing d with
  | nil => exact List.prefix_refl _
  | cons a q ih =>
    have hfree : stop a = false → stop' a = false := fun hs =>
      Bool.eq_false_iff.mpr fun ht => Bool.eq_false_iff.mp hs (h a List.mem_cons_self ht)
    rcases sweep_step_cases weight stop a d with hz | hs | ⟨hs, hd, hw⟩ | ⟨hs, hd, hw⟩
    · subst hz
      have heq := (sweep_zero weight reduce stop (a :: q)).trans
        (sweep_zero weight reduce stop' (a :: q)).symm
      exact heq ▸ List.prefix_refl _
    · rw [sweep_stop weight reduce stop hs]
      exact List.nil_prefix
    · rw [sweep_whole weight reduce stop hs hd hw,
        sweep_whole weight reduce stop' (hfree hs) hd hw]
      exact List.cons_prefix_cons.mpr ⟨rfl, ih (fun b hb => h b (List.mem_cons_of_mem a hb)) _⟩
    · have heq := (sweep_part weight reduce stop hs hd hw q).trans
        (sweep_part weight reduce stop' (hfree hs) hd hw q).symm
      exact heq ▸ List.prefix_refl _

/-- What a reduction does not touch is cut in two by a sweep. -/
theorem map_gone_append_left {β : Type*} (f : α → β) (hf : ∀ a k, f (reduce a k) = f a)
    (q : List α) (d : ℕ) :
    q.map f = (sweep weight reduce stop q d).gone.map f
      ++ (sweep weight reduce stop q d).left.map f := by
  obtain ⟨done, rest, hq, -, -, -, ⟨hr, -⟩ | ⟨a, rest', hrest, -, -, -, hr⟩⟩ :=
    sweep_cases weight reduce stop q d
  · rw [hr, hq, List.map_append]
  · rw [hr, hq, hrest, List.map_append, List.map_cons, List.map_cons, hf]

/-- An item of the queue after a sweep was there before, or is what a reduction by
less than its weight left of one that was. -/
theorem mem_left_cases {q : List α} {d : ℕ} {b : α}
    (h : b ∈ (sweep weight reduce stop q d).left) :
    b ∈ q ∨ ∃ a ∈ q, ∃ k, 0 < k ∧ k < weight a ∧ b = reduce a k := by
  obtain ⟨done, rest, hq, -, -, -, ⟨hr, -⟩ | ⟨a, rest', hrest, -, hlt, hw, hr⟩⟩ :=
    sweep_cases weight reduce stop q d
  · rw [hr] at h
    exact Or.inl (by rw [hq]; exact List.mem_append_right _ h)
  · rw [hr] at h
    have hmem : ∀ c ∈ rest, c ∈ q := fun c hc => by rw [hq]; exact List.mem_append_right _ hc
    rw [hrest] at hmem
    rcases List.mem_cons.mp h with rfl | h
    · exact Or.inr ⟨a, hmem a List.mem_cons_self, _, by omega, hw, rfl⟩
    · exact Or.inl (hmem b (List.mem_cons_of_mem _ h))

/-- Demand is left unmet only when the queue is used up or its first item may not be
taken. -/
theorem left_of_unmet {q : List α} {d : ℕ} (h : 0 < (sweep weight reduce stop q d).unmet) :
    (sweep weight reduce stop q d).left = [] ∨
      ∃ a q', (sweep weight reduce stop q d).left = a :: q' ∧ stop a = true := by
  obtain ⟨done, rest, -, -, -, -, ⟨hr, hend⟩ | ⟨a, rest', -, -, -, -, hr⟩⟩ :=
    sweep_cases weight reduce stop q d
  · rw [hr] at h ⊢
    rcases hend with hend | hend | ⟨a, rest', hrest, ha⟩
    · have h' : 0 < d - (done.map weight).sum := h
      omega
    · exact Or.inl hend
    · exact Or.inr ⟨a, rest', hrest, ha⟩
  · rw [hr] at h
    exact absurd h (Nat.lt_irrefl 0)

/-- A sweep that takes nothing whole, and is left with a demand, leaves the queue. -/
theorem left_eq_of_gone {q : List α} {d : ℕ} (hgone : (sweep weight reduce stop q d).gone = [])
    (h : 0 < (sweep weight reduce stop q d).unmet) : (sweep weight reduce stop q d).left = q := by
  obtain ⟨done, rest, hq, -, -, hdone, ⟨hr, -⟩ | ⟨a, rest', -, -, -, -, hr⟩⟩ :=
    sweep_cases weight reduce stop q d
  · rw [← hdone, hgone] at hq
    rw [hr, hq]
    rfl
  · rw [hr] at h
    exact absurd h (Nat.lt_irrefl 0)

/-- What holds between the items of a queue still does after a sweep, when an item may be
reduced without harm to those behind it. -/
theorem pairwise_left {R : α → α → Prop} (hR : ∀ a b k, R a b → R (reduce a k) b) {q : List α}
    (h : q.Pairwise R) (d : ℕ) : (sweep weight reduce stop q d).left.Pairwise R := by
  obtain ⟨done, rest, hq, -, -, -, hcase⟩ := sweep_cases weight reduce stop q d
  rw [hq, List.pairwise_append] at h
  obtain ⟨-, hrest, -⟩ := h
  rcases hcase with ⟨hr, -⟩ | ⟨a, rest', rfl, -, -, -, hr⟩
  · rw [hr]
    exact hrest
  · rw [hr]
    rw [List.pairwise_cons] at hrest ⊢
    exact ⟨fun b hb => hR a b _ (hrest.1 b hb), hrest.2⟩

/-- Each fill but the last takes its item whole, and the last one does too when demand is
left unmet. -/
theorem length_fills_le (q : List α) (d : ℕ) :
    (sweep weight reduce stop q d).fills.length
        + (if 0 < (sweep weight reduce stop q d).unmet then 1 else 0)
      ≤ (sweep weight reduce stop q d).gone.length + 1 := by
  obtain ⟨done, rest, -, -, -, -, ⟨hr, -⟩ | ⟨a, rest', -, -, -, -, hr⟩⟩ :=
    sweep_cases weight reduce stop q d
  · rw [hr]
    simp only [List.length_map]
    split <;> omega
  · rw [hr]
    simp

/-- Every unit of the demand is met by a fill or left unmet. -/
theorem sum_fills_add_unmet (q : List α) (d : ℕ) :
    ((sweep weight reduce stop q d).fills.map Prod.snd).sum
      + (sweep weight reduce stop q d).unmet = d := by
  obtain ⟨done, rest, -, -, hsum, -, ⟨hr, -⟩ | ⟨a, rest', -, -, hlt, -, hr⟩⟩ :=
    sweep_cases weight reduce stop q d
  · have hmap : (done.map fun a => (a, weight a)).map Prod.snd = done.map weight := by simp
    rw [hr]
    simp only [hmap]
    omega
  · have hmap : (done.map fun a => (a, weight a)).map Prod.snd = done.map weight := by simp
    rw [hr]
    simp only [List.map_append, hmap, List.sum_append, List.map_cons, List.map_nil,
      List.sum_cons, List.sum_nil]
    omega

/-- A fill draws at most the weight of its item. -/
theorem snd_le_weight {q : List α} {d : ℕ} {f : α × ℕ}
    (h : f ∈ (sweep weight reduce stop q d).fills) : f.2 ≤ weight f.1 := by
  obtain ⟨done, rest, -, -, -, -, ⟨hr, -⟩ | ⟨a, rest', -, -, -, hw, hr⟩⟩ :=
    sweep_cases weight reduce stop q d
  · rw [hr, List.mem_map] at h
    obtain ⟨b, -, rfl⟩ := h
    exact Nat.le_refl _
  · rw [hr, List.mem_append, List.mem_map, List.mem_singleton] at h
    rcases h with ⟨b, -, rfl⟩ | rfl
    · exact Nat.le_refl _
    · exact Nat.le_of_lt hw

/-- The items drawn on are items of the queue. -/
theorem fst_mem_of_mem_fills {q : List α} {d : ℕ} {f : α × ℕ}
    (h : f ∈ (sweep weight reduce stop q d).fills) : f.1 ∈ q := by
  obtain ⟨done, rest, hq, -, -, -, ⟨hr, -⟩ | ⟨a, rest', hrest, -, -, -, hr⟩⟩ :=
    sweep_cases weight reduce stop q d
  · rw [hr, List.mem_map] at h
    obtain ⟨b, hb, rfl⟩ := h
    rw [hq]
    exact List.mem_append_left _ hb
  · rw [hr, List.mem_append, List.mem_map, List.mem_singleton] at h
    rw [hq, hrest]
    rcases h with ⟨b, hb, rfl⟩ | rfl
    · exact List.mem_append_left _ hb
    · exact List.mem_append_right _ List.mem_cons_self

/-- All fills but the last are those of the items taken whole; the last may draw on a part
of an item, and then the demand is met and the rest of the item heads what is left. -/
theorem fills_eq (q : List α) (d : ℕ) :
    (sweep weight reduce stop q d).fills
        = (sweep weight reduce stop q d).gone.map (fun a => (a, weight a)) ∨
      ∃ a k, k < weight a ∧ (sweep weight reduce stop q d).unmet = 0 ∧
        (sweep weight reduce stop q d).left.head? = some (reduce a k) ∧
        (sweep weight reduce stop q d).fills
          = (sweep weight reduce stop q d).gone.map (fun a => (a, weight a)) ++ [(a, k)] := by
  obtain ⟨done, rest, -, -, -, -, ⟨hr, -⟩ | ⟨a, rest', -, -, -, hw, hr⟩⟩ :=
    sweep_cases weight reduce stop q d
  · rw [hr]
    exact Or.inl rfl
  · rw [hr]
    exact Or.inr ⟨a, _, hw, rfl, rfl, rfl⟩

/-- The items taken whole are drawn on. -/
theorem mem_fills_of_mem_gone {q : List α} {d : ℕ} {a : α}
    (h : a ∈ (sweep weight reduce stop q d).gone) :
    (a, weight a) ∈ (sweep weight reduce stop q d).fills := by
  have hmem := List.mem_map_of_mem (f := fun a => (a, weight a)) h
  rcases fills_eq weight reduce stop q d with hall | ⟨b, k, -, -, -, hlast⟩
  · rw [hall]
    exact hmem
  · rw [hlast]
    exact List.mem_append_left _ hmem

/-- A demand draws on the first item, if it may be taken. -/
theorem exists_mem_fills {a : α} (h : stop a = false) {d : ℕ} (hd : d ≠ 0) (q : List α) :
    ∃ k, (a, k) ∈ (sweep weight reduce stop (a :: q) d).fills := by
  rcases Nat.lt_or_ge d (weight a) with hw | hw
  · rw [sweep_part weight reduce stop h hd hw]
    exact ⟨d, List.mem_singleton_self _⟩
  · rw [sweep_whole weight reduce stop h hd hw]
    exact ⟨weight a, List.mem_cons_self⟩

/-- The items drawn on stand at the front of the queue. -/
theorem prefix_map_fst_fills (q : List α) (d : ℕ) :
    (sweep weight reduce stop q d).fills.map Prod.fst <+: q := by
  obtain ⟨done, rest, hq, -, -, -, ⟨hr, -⟩ | ⟨a, rest', hrest, -, -, -, hr⟩⟩ :=
    sweep_cases weight reduce stop q d
  · rw [hr, hq]
    simp only [List.map_map, Function.comp_def, List.map_id']
    exact List.prefix_append done rest
  · rw [hr, hq, hrest]
    simp only [List.map_append, List.map_map, Function.comp_def, List.map_id', List.map_cons,
      List.map_nil]
    exact ⟨rest', by simp⟩

/-- The sweep does not draw on an item that it may not take. -/
theorem stop_of_mem_fills {q : List α} {d : ℕ} {f : α × ℕ}
    (h : f ∈ (sweep weight reduce stop q d).fills) : stop f.1 = false := by
  obtain ⟨done, rest, -, hdone, -, -, ⟨hr, -⟩ | ⟨a, rest', -, ha, -, -, hr⟩⟩ :=
    sweep_cases weight reduce stop q d
  · rw [hr, List.mem_map] at h
    obtain ⟨b, hb, rfl⟩ := h
    exact hdone b hb
  · rw [hr, List.mem_append, List.mem_map, List.mem_singleton] at h
    rcases h with ⟨b, hb, rfl⟩ | rfl
    · exact hdone b hb
    · exact ha

/-- No fill is empty when no item is. -/
theorem fills_pos {q : List α} (hq : ∀ a ∈ q, 0 < weight a) {d : ℕ} {f : α × ℕ}
    (h : f ∈ (sweep weight reduce stop q d).fills) : 0 < f.2 := by
  obtain ⟨done, rest, hcut, -, -, -, ⟨hr, -⟩ | ⟨a, rest', -, -, hlt, -, hr⟩⟩ :=
    sweep_cases weight reduce stop q d
  · rw [hr, List.mem_map] at h
    obtain ⟨b, hb, rfl⟩ := h
    exact hq b (by rw [hcut]; exact List.mem_append_left _ hb)
  · rw [hr, List.mem_append, List.mem_map, List.mem_singleton] at h
    rcases h with ⟨b, hb, rfl⟩ | rfl
    · exact hq b (by rw [hcut]; exact List.mem_append_left _ hb)
    · exact Nat.sub_pos_of_lt hlt

/-- **Conservation on the queue**: over any class of items that a reduction does not
leave, what is drawn and what is left add up to what was there. -/
theorem sum_fills_add_left (P : α → Prop) [DecidablePred P] (hP : ∀ a k, P (reduce a k) ↔ P a)
    (hw : ∀ a k, k ≤ weight a → weight (reduce a k) = weight a - k) (q : List α) (d : ℕ) :
    ((sweep weight reduce stop q d).fills.map fun f => if P f.1 then f.2 else 0).sum
        + ((sweep weight reduce stop q d).left.map fun a => if P a then weight a else 0).sum
      = (q.map fun a => if P a then weight a else 0).sum := by
  induction q generalizing d with
  | nil => simp
  | cons a q ih =>
    rcases sweep_step_cases weight stop a d with h | h | ⟨hs, hd, hle⟩ | ⟨hs, hd, hlt⟩
    · subst h; simp
    · simp [sweep_stop weight reduce stop h]
    · rw [sweep_whole weight reduce stop hs hd hle]
      simp only [List.map_cons, List.sum_cons]
      rw [← ih (d - weight a)]
      omega
    · rw [sweep_part weight reduce stop hs hd hlt]
      simp only [List.map_cons, List.map_nil, List.sum_cons, List.sum_nil, hP,
        hw a d (Nat.le_of_lt hlt)]
      split <;> omega

/-! ### Two demands in a row -/

/-- The fills of a queue with different keys have different keys. -/
theorem nodup_fills {β : Type*} {key : α → β} {q : List α} (hq : (q.map key).Nodup) (d : ℕ) :
    (((sweep weight reduce stop q d).fills.map fun f => (key f.1, f.2)).map Prod.fst).Nodup := by
  have hsub := (prefix_map_fst_fills weight reduce stop q d).sublist.map key
  rw [List.map_map] at hsub ⊢
  exact hq.sublist hsub

theorem key_notMem_fills {β : Type*} {key : α → β} {a : α} {q : List α}
    (h : key a ∉ q.map key) (d : ℕ) :
    key a ∉ ((sweep weight reduce stop q d).fills.map fun f => (key f.1, f.2)).map Prod.fst := by
  have hsub := (prefix_map_fst_fills weight reduce stop q d).sublist.map key
  rw [List.map_map] at hsub ⊢
  exact fun hmem => h (hsub.subset hmem)

/-- Merge the neighbours of a list that have the same key, adding up their amounts. -/
def mergeRuns {β : Type*} [DecidableEq β] : List (β × ℕ) → List (β × ℕ)
  | [] => []
  | x :: l =>
      match mergeRuns l with
      | [] => [x]
      | y :: l' => if x.1 = y.1 then (x.1, x.2 + y.2) :: l' else x :: y :: l'

section MergeRuns

variable {β : Type*} [DecidableEq β]

theorem mergeRuns_cons {x : β × ℕ} {l : List (β × ℕ)} (h : x.1 ∉ (mergeRuns l).map Prod.fst) :
    mergeRuns (x :: l) = x :: mergeRuns l := by
  rw [mergeRuns]
  split
  · next hl => rw [hl]
  · next y l' hl =>
    rw [hl, List.map_cons, List.mem_cons, not_or] at h
    rw [if_neg h.1, hl]

theorem mergeRuns_cons_cons (b : β) (m n : ℕ) (l : List (β × ℕ)) :
    mergeRuns ((b, m) :: (b, n) :: l) = mergeRuns ((b, m + n) :: l) := by
  rw [mergeRuns, mergeRuns, mergeRuns]
  cases mergeRuns l with
  | nil => simp
  | cons y l' =>
    by_cases hy : b = y.1
    · simp [hy, Nat.add_assoc]
    · simp [hy]

/-- A list with different keys has nothing to merge. -/
theorem mergeRuns_of_nodup {l : List (β × ℕ)} (h : (l.map Prod.fst).Nodup) :
    mergeRuns l = l := by
  induction l with
  | nil => rfl
  | cons x l ih =>
    obtain ⟨hx, hl⟩ := List.nodup_cons.mp h
    rw [mergeRuns_cons (by rw [ih hl]; exact hx), ih hl]

/-- **Two demands in a row are met like their sum.**  What is left and what is unmet are the
same, and so are the fills when two fills in a row of one item count as one; the items are
told apart by a key that a reduction does not touch. -/
theorem sweep_add (key : α → β) (hkey : ∀ a k, key (reduce a k) = key a)
    (hw : ∀ a k, k ≤ weight a → weight (reduce a k) = weight a - k)
    (hr : ∀ a j k, reduce (reduce a j) k = reduce a (j + k))
    (hs : ∀ a k, stop (reduce a k) = stop a) {q : List α} (hq : (q.map key).Nodup) (d d' : ℕ) :
    (sweep weight reduce stop q (d + d')).left
        = (sweep weight reduce stop (sweep weight reduce stop q d).left d').left ∧
      (sweep weight reduce stop q (d + d')).unmet
        = (sweep weight reduce stop q d).unmet
          + (sweep weight reduce stop (sweep weight reduce stop q d).left d').unmet ∧
      ((sweep weight reduce stop q (d + d')).fills.map fun f => (key f.1, f.2))
        = mergeRuns (((sweep weight reduce stop q d).fills
          ++ (sweep weight reduce stop (sweep weight reduce stop q d).left d').fills).map
            fun f => (key f.1, f.2)) := by
  induction q generalizing d with
  | nil => exact ⟨rfl, rfl, rfl⟩
  | cons a q ih =>
    obtain ⟨ha, hq'⟩ := List.nodup_cons.mp hq
    rcases sweep_step_cases weight stop a d with hz | hstop | ⟨hfree, hd, hle⟩ | ⟨hfree, hd, hlt⟩
    · subst hz
      rw [sweep_zero, Nat.zero_add]
      refine ⟨rfl, (Nat.zero_add _).symm, ?_⟩
      rw [List.nil_append, mergeRuns_of_nodup (nodup_fills weight reduce stop hq d')]
    · have hstop' := sweep_stop weight reduce stop hstop q
      rw [hstop', hstop', hstop']
      exact ⟨rfl, rfl, rfl⟩
    · -- the first demand takes the first item whole, and the sum does too
      obtain ⟨hleft, hunmet, hfills⟩ := ih hq' (d - weight a)
      have hsum : d + d' - weight a = d - weight a + d' := by omega
      rw [sweep_whole weight reduce stop hfree hd hle,
        sweep_whole weight reduce stop hfree (by omega) (by omega : weight a ≤ d + d'), hsum]
      refine ⟨hleft, hunmet, ?_⟩
      have hnot := key_notMem_fills weight reduce stop ha (d - weight a + d')
      rw [hfills] at hnot
      rw [List.map_cons, hfills, List.cons_append, List.map_cons, mergeRuns_cons hnot]
    · -- the first demand ends inside the first item, and the second goes on there
      rw [sweep_part weight reduce stop hfree hd hlt]
      have hfree' : stop (reduce a d) = false := (hs a d).trans hfree
      have hrest := hw a d (Nat.le_of_lt hlt)
      rcases sweep_step_cases weight stop (reduce a d) d' with hz | hstop | ⟨-, hd', hle⟩ |
        ⟨-, hd', hlt'⟩
      · subst hz
        rw [sweep_zero, Nat.add_zero, sweep_part weight reduce stop hfree hd hlt]
        exact ⟨rfl, rfl, rfl⟩
      · exact absurd hstop (Bool.eq_false_iff.mp hfree')
      · have hsum : d + d' - weight a = d' - weight (reduce a d) := by omega
        rw [sweep_whole weight reduce stop hfree' hd' hle,
          sweep_whole weight reduce stop hfree (by omega) (by omega : weight a ≤ d + d'), hsum]
        refine ⟨rfl, (Nat.zero_add _).symm, ?_⟩
        have hnot := key_notMem_fills weight reduce stop ha (d' - weight (reduce a d))
        have hnodup := nodup_fills weight reduce stop hq' (d' - weight (reduce a d))
        have hadd : d + weight (reduce a d) = weight a := by omega
        rw [List.singleton_append, List.map_cons, List.map_cons, List.map_cons, hkey,
          mergeRuns_cons_cons, hadd, mergeRuns_of_nodup]
        exact List.nodup_cons.mpr ⟨hnot, hnodup⟩
      · rw [sweep_part weight reduce stop hfree' hd' hlt',
          sweep_part weight reduce stop hfree (by omega) (by omega : d + d' < weight a), hr]
        refine ⟨rfl, rfl, ?_⟩
        show [(key a, d + d')] = mergeRuns [(key a, d), (key (reduce a d), d')]
        rw [hkey, mergeRuns_cons_cons]
        rfl

end MergeRuns

end Sweep
