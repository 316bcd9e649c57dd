import Mathlib.Data.List.Basic

/-!
# Runs of a transducer

A transducer reads inputs one after another, changes its state and answers each input.

## Main definitions

* `transduce` — the run of a transducer over a list of inputs.
* `AllAlong` — a condition on states and inputs is met at every step of a run.

## Main results

* `transduce_append` — a run in two parts.
* `transduce_simulation` — the rule for simulations: two transducers in related states
  give the same answers.
* `foldlM_invariant` — the rule for runs of a machine that may fail: a property that
  rules out failure and survives each step rules out failure of the run.
* `foldlM_prefix_iff` — a property that one step keeps under exactly a condition holds
  after every prefix of a run if and only if the condition is met at every step.
* `foldlM_some_invariant`, `foldlM_ok_invariant` — the rules for runs that have succeeded.
* `foldlM_simulation` — the rule for simulations of machines that may have no next state,
  where one step of a machine is any number of steps of the other.
* `foldlM_range_mul` — a loop in a loop is one loop.

The rules let the property speak of the inputs still to come, so that a property of
the whole input, such as that no key occurs twice, can be used up step by step.
-/

section Transducer

universe u v

variable {σ τ ι ο : Type*}

/-- The state and the answers after a list of inputs. -/
def transduce (step : σ → ι → σ × ο) : σ → List ι → σ × List ο
  | s, [] => (s, [])
  | s, i :: is =>
      ((transduce step (step s i).1 is).1, (step s i).2 :: (transduce step (step s i).1 is).2)

@[simp] theorem transduce_nil (step : σ → ι → σ × ο) (s : σ) : transduce step s [] = (s, []) := rfl

@[simp] theorem length_transduce (step : σ → ι → σ × ο) (s : σ) (is : List ι) :
    (transduce step s is).2.length = is.length := by
  induction is generalizing s with
  | nil => rfl
  | cons i is ih => rw [transduce, List.length_cons, ih, List.length_cons]

/-- A run is taken up where another has ended. -/
theorem transduce_append (step : σ → ι → σ × ο) (s : σ) (is js : List ι) :
    transduce step s (is ++ js)
      = ((transduce step (transduce step s is).1 js).1,
          (transduce step s is).2 ++ (transduce step (transduce step s is).1 js).2) := by
  induction is generalizing s with
  | nil => rfl
  | cons i is ih =>
    rw [List.cons_append, transduce, ih]
    rfl

/-- **The rule for simulations.** -/
theorem transduce_simulation {step : σ → ι → σ × ο} {step' : τ → ι → τ × ο}
    {R : List ι → σ → τ → Prop}
    (hstep : ∀ i is s t, R (i :: is) s t →
      (step s i).2 = (step' t i).2 ∧ R is (step s i).1 (step' t i).1) :
    ∀ (is : List ι) (s : σ) (t : τ), R is s t →
      (transduce step s is).2 = (transduce step' t is).2 ∧
        R [] (transduce step s is).1 (transduce step' t is).1 := by
  intro is
  induction is with
  | nil => intro s t h; exact ⟨rfl, h⟩
  | cons i is ih =>
    intro s t h
    obtain ⟨hout, hnext⟩ := hstep i is s t h
    obtain ⟨houts, hend⟩ := ih _ _ hnext
    exact ⟨by rw [transduce, transduce, hout, houts], hend⟩

/-- **The rule for runs that may fail.** -/
theorem foldlM_invariant {ε : Type*} {step : σ → ι → Except ε σ} {P : List ι → σ → Prop}
    (hstep : ∀ i is s, P (i :: is) s → ∃ s', step s i = .ok s' ∧ P is s') :
    ∀ (is : List ι) (s : σ), P is s → ∃ s', is.foldlM step s = .ok s' ∧ P [] s' := by
  intro is
  induction is with
  | nil => intro s h; exact ⟨s, rfl, h⟩
  | cons i is ih =>
    intro s h
    obtain ⟨s', hs', hnext⟩ := hstep i is s h
    obtain ⟨s'', hs'', hend⟩ := ih s' hnext
    exact ⟨s'', by rw [List.foldlM_cons, hs']; exact hs'', hend⟩

/-- The condition is met at every step of a run. -/
def AllAlong {ε : Type*} (step : σ → ι → Except ε σ) (C : σ → ι → Prop) : σ → List ι → Prop
  | _, [] => True
  | s, i :: is => C s i ∧ ∀ s', step s i = .ok s' → AllAlong step C s' is

/-- **The rule for properties that a condition keeps.**  `J` is what holds along the run in
any case, and may speak of the inputs still to come. -/
theorem foldlM_prefix_iff {ε : Type*} {step : σ → ι → Except ε σ} {C : σ → ι → Prop}
    {Good : σ → Prop} {J : List ι → σ → Prop}
    (hstep : ∀ i is s, J (i :: is) s → Good s →
      ∃ s', step s i = .ok s' ∧ J is s' ∧ (Good s' ↔ C s i)) :
    ∀ (is : List ι) (s : σ), J is s → Good s →
      ((∀ pre, pre <+: is → ∃ s', pre.foldlM step s = .ok s' ∧ Good s') ↔
        AllAlong step C s is) := by
  intro is
  induction is with
  | nil =>
    intro s _ hgood
    refine iff_of_true (fun pre hpre => ?_) trivial
    rw [List.prefix_nil.mp hpre]
    exact ⟨s, rfl, hgood⟩
  | cons i is ih =>
    intro s hJ hgood
    obtain ⟨s', hs', hJ', hiff⟩ := hstep i is s hJ hgood
    have hrun : ∀ pre, (i :: pre).foldlM step s = pre.foldlM step s' := by
      intro pre
      rw [List.foldlM_cons, hs']
      rfl
    constructor
    · intro hall
      -- the property after the first step gives the condition there
      obtain ⟨s₁, hs₁, hgood₁⟩ := hall [i] (List.prefix_append [i] is)
      rw [hrun] at hs₁
      obtain rfl := Except.ok.inj hs₁
      refine ⟨hiff.mp hgood₁, fun s₂ hs₂ => ?_⟩
      obtain rfl := Except.ok.inj (hs'.symm.trans hs₂)
      apply (ih _ hJ' hgood₁).mp
      intro pre hpre
      obtain ⟨s₃, hs₃, hgood₃⟩ := hall (i :: pre) (List.cons_prefix_cons.mpr ⟨rfl, hpre⟩)
      rw [hrun] at hs₃
      exact ⟨s₃, hs₃, hgood₃⟩
    · rintro ⟨hfirst, hrest⟩ pre hpre
      cases pre with
      | nil => exact ⟨s, rfl, hgood⟩
      | cons j pre =>
        obtain ⟨rfl, hpre'⟩ := List.cons_prefix_cons.mp hpre
        rw [hrun]
        exact (ih s' hJ' (hiff.mpr hfirst)).mpr (hrest s' hs') pre hpre'

/-- A run of which something has been evaluated has succeeded. -/
theorem exists_ok_of_toOption {ε α β : Type*} {x : Except ε α} {g : α → β} {b : β}
    (h : x.toOption.map g = some b) : ∃ a, x = .ok a ∧ g a = b := by
  cases x with
  | error e => exact absurd h (by simp [Except.toOption])
  | ok a => exact ⟨a, rfl, Option.some.inj h⟩

/-- **The rule for runs that have succeeded**, of a machine that may have no next state.
The step may use that the rest of the run ends in `t`. -/
theorem foldlM_some_invariant {step : σ → ι → Option σ} {P : List ι → σ → Prop} {t : σ}
    (hstep : ∀ i is s s', P (i :: is) s → step s i = some s' → is.foldlM step s' = some t →
      P is s') :
    ∀ (is : List ι) (s : σ), P is s → is.foldlM step s = some t → P [] t := by
  intro is
  induction is with
  | nil =>
    intro s h hrun
    obtain rfl := Option.some.inj hrun
    exact h
  | cons i is ih =>
    intro s h hrun
    rw [List.foldlM_cons] at hrun
    obtain ⟨s', hfirst, hrest⟩ := Option.bind_eq_some_iff.mp hrun
    exact ih s' (hstep i is s s' h hfirst hrest) hrest

/-- The same for a machine that may throw. -/
theorem foldlM_ok_invariant {ε : Type*} {step : σ → ι → Except ε σ} {P : List ι → σ → Prop}
    {t : σ} (hstep : ∀ i is s s', P (i :: is) s → step s i = .ok s' → P is s') :
    ∀ (is : List ι) (s : σ), P is s → is.foldlM step s = .ok t → P [] t := by
  intro is
  induction is with
  | nil =>
    intro s h hrun
    obtain rfl := Except.ok.inj hrun
    exact h
  | cons i is ih =>
    intro s h hrun
    rw [List.foldlM_cons] at hrun
    cases hfirst : step s i with
    | error e =>
      rw [hfirst] at hrun
      exact absurd hrun (by simp [bind, Except.bind])
    | ok s' =>
      rw [hfirst] at hrun
      exact ih s' (hstep i is s s' h hfirst) hrun

/-- **The rule for simulations of partial machines.**  A step of the machine below is
matched by any number of steps of the one above, none included.  The relation may speak of
the steps that have been taken above. -/
theorem foldlM_simulation {κ : Type*} {step : σ → ι → Option σ} {step' : τ → κ → Option τ}
    {R : List κ → σ → τ → Prop}
    (hstep : ∀ i s s' ks t, R ks s t → step s i = some s' →
      ∃ ks' t', ks'.foldlM step' t = some t' ∧ R (ks ++ ks') s' t') :
    ∀ (is : List ι) (s s' : σ) (ks : List κ) (t : τ), R ks s t → is.foldlM step s = some s' →
      ∃ ks' t', ks'.foldlM step' t = some t' ∧ R (ks ++ ks') s' t' := by
  intro is
  induction is with
  | nil =>
    intro s s' ks t h hrun
    obtain rfl := Option.some.inj hrun
    exact ⟨[], t, rfl, by rw [List.append_nil]; exact h⟩
  | cons i is ih =>
    intro s s' ks t h hrun
    rw [List.foldlM_cons] at hrun
    obtain ⟨s₁, hfirst, hrest⟩ := Option.bind_eq_some_iff.mp hrun
    obtain ⟨ks₁, t₁, ht₁, h₁⟩ := hstep i s s₁ ks t h hfirst
    obtain ⟨ks₂, t₂, ht₂, h₂⟩ := ih s₁ s' (ks ++ ks₁) t₁ h₁ hrest
    refine ⟨ks₁ ++ ks₂, t₂, ?_, by rw [← List.append_assoc]; exact h₂⟩
    rw [List.foldlM_append, ht₁]
    exact ht₂

/-- **A loop in a loop is one loop.** -/
theorem foldlM_range_mul {m : Type u → Type v} [Monad m] [LawfulMonad m] {σ : Type u}
    (step : σ → ℕ → m σ) (a b : ℕ) (s : σ) :
    (List.range a).foldlM (fun s i => (List.range b).foldlM (fun s j => step s (i * b + j)) s) s
      = (List.range (a * b)).foldlM step s := by
  induction a generalizing s with
  | zero => rw [Nat.zero_mul]; rfl
  | succ a ih =>
    rw [List.range_succ, List.foldlM_append, ih, Nat.succ_mul, List.range_add,
      List.foldlM_append]
    simp only [List.foldlM_cons, List.foldlM_nil, bind_pure, List.foldlM_map]

end Transducer
