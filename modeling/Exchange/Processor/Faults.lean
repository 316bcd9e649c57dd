import Exchange.ClientState
import Exchange.Processor.Runs

/-!
# What a request can do to the processor

`handle_read` forwards the type byte and the payload of a frame as they come, and
`process` decodes them.  In a state that the processor can reach, a request has one of
three outcomes: it is processed; or its type is unknown, and the exception leaves
`process`; or its payload is shorter than what its type needs, and memory outside of it
is read.

## Main results

* `Session.inv_run` — the invariant of the book holds in every state of every run.
* `process_outcomes` — the three outcomes.
* `process_returns_iff` — no exception leaves `process` exactly when the type is known.
* `process_inside_iff` — the reads stay inside the payload exactly when it is long enough
  for its type.
-/

namespace Exchange

open Bytes MatchingEngine

/-! ### The states of a run -/

/-- A request keeps the invariant of the book. -/
theorem Session.inv_step {failures : ℕ → ℕ} {s s' : Session} {i : Input}
    (h : s.processor.book.Inv) (hs : s.step failures i = .ok s') : s'.processor.book.Inv := by
  obtain ⟨s₁, hs₁, -, hcases⟩ := step_cases failures h (wellFormed_of_step hs)
  obtain rfl := Except.ok.inj (hs.symm.trans hs₁)
  rcases hcases with ⟨order, hsub⟩ | ⟨-, hsame, -⟩ | ⟨loc, n, -, -, -, -, hid, hr, -⟩
  · rw [hsub.book]
    exact h.step hsub.constructed
  · rw [hsame]
    exact h
  · exact h.removes hr hid

/-- **The invariant of the book holds along every run**, of requests of any kind. -/
theorem Session.inv_run {failures : ℕ → ℕ} {inputs : List Input} :
    ∀ {s s' : Session}, s.processor.book.Inv → s.run failures inputs = .ok s' →
      s'.processor.book.Inv := by
  induction inputs with
  | nil =>
    intro s s' h hrun
    obtain rfl := Except.ok.inj hrun
    exact h
  | cons i is ih =>
    intro s s' h hrun
    rw [Session.run, List.foldlM_cons] at hrun
    cases hs : s.step failures i with
    | error f => rw [hs] at hrun; exact absurd hrun (by simp [bind, Except.bind])
    | ok s₁ =>
      rw [hs] at hrun
      exact ih (s.inv_step h hs) hrun

/-! ### The three outcomes -/

/-- What becomes of a request. -/
inductive RequestOutcome (m : InboundMessage) : Except Fault Processed → Prop
  | returned (r : Processed) (h : m.WellFormed) : RequestOutcome m (.ok r)
  /-- The exception of the `default` case is thrown outside of the `try` blocks. -/
  | escaped (hn : m.type ≠ .NEW_ORDER) (hc : m.type ≠ .CANCEL_ORDER) :
      RequestOutcome m (.error (.exception .unknownMessageType))
  | overread (h : m.type = .NEW_ORDER ∧ m.payload.length < 22 ∨
      m.type = .CANCEL_ORDER ∧ m.payload.length < 8) : RequestOutcome m (.error .undefinedBehaviour)

section Outcomes

variable (times : Times) (failures : ℕ → ℕ) {p : Processor} (pushed : List OutboundMessage)
  {m : InboundMessage}

/-- A new order with a payload that is too short. -/
theorem process_newOrder_short (ht : m.type = .NEW_ORDER) (hlt : m.payload.length < 22) :
    process times failures p pushed m = .error .undefinedBehaviour := by
  unfold process
  rw [if_pos ht]
  cases hid : readU64 m.payload 0 with
  | error f => rw [readU64_error hid]
  | ok id => simp only [newOrder, deserializeOrder_of_lt _ hlt, catchRejection, Except.map]

/-- A cancel with a payload that is too short. -/
theorem process_cancel_short (ht : m.type = .CANCEL_ORDER) (hlt : m.payload.length < 8) :
    process times failures p pushed m = .error .undefinedBehaviour := by
  have hne : m.type ≠ .NEW_ORDER := by rw [ht]; decide
  unfold process
  rw [if_neg hne, if_pos ht, readU64_zero_of_lt hlt]

/-- A request that is neither a new order nor a cancel. -/
theorem process_unknown (hn : m.type ≠ .NEW_ORDER) (hc : m.type ≠ .CANCEL_ORDER) :
    process times failures p pushed m = .error (.exception .unknownMessageType) := by
  unfold process
  rw [if_neg hn, if_neg hc]

/-- A well-formed request is processed. -/
theorem process_wellFormed (h : p.book.Inv) (hw : m.WellFormed) :
    ∃ r, process times failures p pushed m = .ok r := by
  obtain ⟨s', hs', -⟩ := step_cases failures
    (s := ⟨p, pushed, [], fun _ => 0⟩) h (i := ⟨times, m⟩) hw
  rw [Session.step] at hs'
  cases hp : process times failures p pushed m with
  | ok r => exact ⟨r, rfl⟩
  | error f => rw [hp] at hs'; exact absurd hs' (by simp [Except.map])

/-- **The three outcomes of a request.** -/
theorem process_outcomes (h : p.book.Inv) (m : InboundMessage) :
    RequestOutcome m (process times failures p pushed m) := by
  by_cases hw : m.WellFormed
  · obtain ⟨r, hr⟩ := process_wellFormed times failures pushed h hw
    rw [hr]
    exact .returned r hw
  · by_cases hn : m.type = .NEW_ORDER
    · have hlt : m.payload.length < 22 := Nat.not_le.mp fun hle => hw (Or.inl ⟨hn, hle⟩)
      rw [process_newOrder_short times failures pushed hn hlt]
      exact .overread (Or.inl ⟨hn, hlt⟩)
    · by_cases hc : m.type = .CANCEL_ORDER
      · have hlt : m.payload.length < 8 := Nat.not_le.mp fun hle => hw (Or.inr ⟨hc, hle⟩)
        rw [process_cancel_short times failures pushed hc hlt]
        exact .overread (Or.inr ⟨hc, hlt⟩)
      · rw [process_unknown times failures pushed hn hc]
        exact .escaped hn hc

end Outcomes

/-! ### What follows for clients -/

/-- The outcomes in a state that a run from the empty book has reached. -/
theorem outcomes_of_run {failures : ℕ → ℕ} {inputs : List Input} {s : Session}
    (hrun : Session.empty.run failures inputs = .ok s) (times : Times) (m : InboundMessage) :
    RequestOutcome m (process times failures s.processor s.pushed m) :=
  process_outcomes times failures s.pushed (Session.inv_run OrderBook.inv_empty hrun) m

/-- **When no exception leaves `process`.**  In every state that the processor can reach,
a request whose payload has at least 22 bytes is processed to the end if and only if its
type is one of the two that are known. -/
theorem process_returns_iff {failures : ℕ → ℕ} {inputs : List Input} {s : Session}
    (hrun : Session.empty.run failures inputs = .ok s) (times : Times) (m : InboundMessage)
    (hlen : 22 ≤ m.payload.length) :
    (∃ r, process times failures s.processor s.pushed m = .ok r) ↔
      m.type = .NEW_ORDER ∨ m.type = .CANCEL_ORDER := by
  have hout := outcomes_of_run hrun times m
  constructor
  · rintro ⟨r, hr⟩
    rw [hr] at hout
    cases hout with
    | returned _ hw =>
      rcases hw with ⟨hn, -⟩ | ⟨hc, -⟩
      · exact Or.inl hn
      · exact Or.inr hc
  · intro htype
    cases hp : process times failures s.processor s.pushed m with
    | ok r => exact ⟨r, rfl⟩
    | error f =>
      rw [hp] at hout
      cases hout with
      | escaped hn hc => exact absurd htype (not_or.mpr ⟨hn, hc⟩)
      | overread hshort => omega

/-- With an ask of ten under id 5 resting, a bid that takes three of it and a cancel of it
with 22 bytes are processed, and a request of type 9 is not. -/
theorem process_returns_iff_cancel :
    ∃ s, Session.empty.run (fun _ => 0) [askFive 4 100] = .ok s ∧ s.processor.book.Rests 5 ∧
      (∃ r, process ⟨0, fun _ => 0⟩ (fun _ => 0) s.processor s.pushed (bidSix 9).message = .ok r) ∧
      (∃ r, process ⟨0, fun _ => 0⟩ (fun _ => 0) s.processor s.pushed
        ⟨4, .CANCEL_ORDER, 5 :: List.replicate 21 0⟩ = .ok r) ∧
      ¬ ∃ r, process ⟨0, fun _ => 0⟩ (fun _ => 0) s.processor s.pushed
        ⟨4, ⟨9⟩, 5 :: List.replicate 21 0⟩ = .ok r := by
  have heval : ((Session.empty.run (fun _ => 0) [askFive 4 100]).toOption.map
      fun s => decide (s.processor.book.Rests 5)) = some true := by decide +kernel
  obtain ⟨s, hrun, hrests⟩ := exists_ok_of_toOption heval
  refine ⟨s, hrun, of_decide_eq_true hrests, ?_, ?_, fun hr => ?_⟩
  · exact (process_returns_iff hrun _ _ (by decide)).mpr (Or.inl rfl)
  · exact (process_returns_iff hrun _ _ (by decide)).mpr (Or.inr rfl)
  · exact absurd ((process_returns_iff hrun _ _ (by decide)).mp hr) (by decide)

/-- A frame of type 9 is forwarded by `handle_read`, and its exception leaves `process`. -/
theorem process_throws_of_unknown_type :
    (handleRead (fun _ => true) 5
        (.start [.chunk 9 ([0, 0, 0, 22] ++ List.replicate 22 0)])).pushed
      = [⟨5, ⟨9⟩, List.replicate 22 0⟩] ∧
    process ⟨0, fun _ => 0⟩ (fun _ => 0) Session.empty.processor Session.empty.pushed
      ⟨5, ⟨9⟩, List.replicate 22 0⟩ = .error (.exception .unknownMessageType) :=
  ⟨by decide +kernel, process_unknown _ _ _ (by decide) (by decide)⟩

/-- **When the reads stay inside the payload.**  In every state that the processor can
reach no dead list position is erased, so that `process` is undefined only where it
reads outside of the payload.  It does not if and only if a new order has at least 22
bytes and a cancel at least 8. -/
theorem process_inside_iff {failures : ℕ → ℕ} {inputs : List Input} {s : Session}
    (hrun : Session.empty.run failures inputs = .ok s) (times : Times) (m : InboundMessage) :
    process times failures s.processor s.pushed m ≠ .error .undefinedBehaviour ↔
      (m.type = .NEW_ORDER → 22 ≤ m.payload.length) ∧
        (m.type = .CANCEL_ORDER → 8 ≤ m.payload.length) := by
  have hout := outcomes_of_run hrun times m
  constructor
  · intro hinside
    refine ⟨fun hn => Nat.not_lt.mp fun hlt => ?_, fun hc => Nat.not_lt.mp fun hlt => ?_⟩
    · exact hinside (process_newOrder_short times failures s.pushed hn hlt)
    · exact hinside (process_cancel_short times failures s.pushed hc hlt)
  · rintro ⟨hn, hc⟩ hp
    rw [hp] at hout
    cases hout with
    | overread hshort =>
      rcases hshort with ⟨ht, hlt⟩ | ⟨ht, hlt⟩
      · exact absurd (hn ht) (Nat.not_le.mpr hlt)
      · exact absurd (hc ht) (Nat.not_le.mpr hlt)

/-- With an ask under id 5 resting, a cancel of it with eight bytes stays inside, and one with
seven does not. -/
theorem process_inside_iff_cancel :
    ∃ s, Session.empty.run (fun _ => 0) [askFive 4 100] = .ok s ∧ s.processor.book.Rests 5 ∧
      process ⟨0, fun _ => 0⟩ (fun _ => 0) s.processor s.pushed (cancelFive 4).message
        ≠ .error .undefinedBehaviour ∧
      process ⟨0, fun _ => 0⟩ (fun _ => 0) s.processor s.pushed
        ⟨4, .CANCEL_ORDER, 5 :: List.replicate 6 0⟩ = .error .undefinedBehaviour := by
  have heval : ((Session.empty.run (fun _ => 0) [askFive 4 100]).toOption.map
      fun s => decide (s.processor.book.Rests 5)) = some true := by decide +kernel
  obtain ⟨s, hrun, hrests⟩ := exists_ok_of_toOption heval
  refine ⟨s, hrun, of_decide_eq_true hrests, ?_, ?_⟩
  · exact (process_inside_iff hrun _ _).mpr ⟨by decide, by decide⟩
  · by_contra hinside
    exact absurd (((process_inside_iff hrun _ _).mp hinside).2 rfl) (by decide)

/-- A new order of one byte is forwarded by `handle_read`, and read beyond its end. -/
theorem process_overreads_short_order :
    (handleRead (fun _ => true) 5 (.start [.chunk 1 [0, 0, 0, 1, 7]])).pushed
      = [⟨5, .NEW_ORDER, [7]⟩] ∧
    process ⟨0, fun _ => 0⟩ (fun _ => 0) Session.empty.processor Session.empty.pushed
      ⟨5, .NEW_ORDER, [7]⟩ = .error .undefinedBehaviour :=
  ⟨by decide +kernel, process_newOrder_short _ _ _ rfl (by decide)⟩

end Exchange
