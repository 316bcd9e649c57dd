import Mathlib.Data.Nat.Notation

/-!
# Loops that are cut off

A loop is given by its body: one turn either goes on with new values of the loop's
variables or leaves the loop with a result.  `loopWithin body n` runs it for at most `n`
turns.  That a loop ends is then a statement about a number of turns, and not about the
recursion by which a function that runs it to its end is defined.

## Main definitions

* `Turn` — what one turn of a loop does.
* `loopWithin` — the loop, cut off after a number of turns.

## Main results

* `loopWithin_spec` — the rule for loops with a measure: the loop ends within any number
  of turns greater than the measure.
* `loopWithin_eq_some` — the same for a loop whose turns determine its result.
-/

/-- One turn of a loop: go on, or leave the loop. -/
inductive Turn (σ ρ : Type*)
  | next (s : σ)
  | done (r : ρ)

section Loop

variable {σ ρ : Type*}

/-- The result of the loop, if it ends within `n` turns. -/
def loopWithin (body : σ → Turn σ ρ) : ℕ → σ → Option ρ
  | 0, _ => none
  | n + 1, s =>
      match body s with
      | .next s' => loopWithin body n s'
      | .done r => some r

/-- **The rule for loops with a measure.**  `P` is what holds of the variables at every
turn, and `Q` what holds of the result. -/
theorem loopWithin_spec {body : σ → Turn σ ρ} {P : σ → Prop} {Q : ρ → Prop} {m : σ → ℕ}
    (hnext : ∀ s s', P s → body s = .next s' → P s' ∧ m s' < m s)
    (hdone : ∀ s r, P s → body s = .done r → Q r) :
    ∀ (n : ℕ) (s : σ), P s → m s < n → ∃ r, loopWithin body n s = some r ∧ Q r := by
  intro n
  induction n with
  | zero => intro s _ hn; exact absurd hn (Nat.not_lt_zero _)
  | succ n ih =>
    intro s hs hn
    rw [loopWithin]
    cases hbody : body s with
    | done r => exact ⟨r, rfl, hdone s r hs hbody⟩
    | next s' =>
      obtain ⟨hs', hlt⟩ := hnext s s' hs hbody
      exact ih s' hs' (by omega)

/-- The same for a loop whose turns determine a result: the loop has that result. -/
theorem loopWithin_eq_some {body : σ → Turn σ ρ} {P : σ → Prop} {m : σ → ℕ} {f : σ → ρ}
    (hnext : ∀ s s', P s → body s = .next s' → P s' ∧ m s' < m s ∧ f s' = f s)
    (hdone : ∀ s r, P s → body s = .done r → r = f s) (n : ℕ) (s : σ) (hs : P s) (hn : m s < n) :
    loopWithin body n s = some (f s) := by
  have hspec : ∃ r, loopWithin body n s = some r ∧ r = f s := by
    refine loopWithin_spec (P := fun t => P t ∧ f t = f s) (m := m) ?_ ?_ n s ⟨hs, rfl⟩ hn
    · rintro t t' ⟨ht, hf⟩ hbody
      obtain ⟨ht', hlt, hf'⟩ := hnext t t' ht hbody
      exact ⟨⟨ht', hf'.trans hf⟩, hlt⟩
    · rintro t r ⟨ht, hf⟩ hbody
      exact (hdone t r ht hbody).trans hf
  obtain ⟨r, heq, hr⟩ := hspec
  rw [heq, hr]

end Loop
