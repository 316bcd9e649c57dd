import Exchange.EventLoop
import Exchange.Processor.Traffic
import Exchange.Server.Pipelining

/-!
# Working off a backlog

Suppose that at some moment nothing more is read from the clients.  What is in the two
rings by then is worked off by rounds of `drain_outbound_queue` and by the processor, in
any order, with the processor waiting whenever the outbound ring is full.  This ends, and
where it ends does not depend on the order: everything has been drained, and the requests
processed are those in front of the first one that stops the processor.

A request may be answered by any number of messages, so that the rings grow on the way.
The measure that goes down is again the one of amortisation, with the resting orders in it.

## Main definitions

* `Event.WorksOff` — the steps that work off a backlog.
* `System.backlog` — the measure.
* `System.Stuck` — none of these steps can be taken.

## Main results

* `backlog_step` — each of the steps lowers the measure.
* `backlog_worked_off` — the bound on their number, and the state they end in.
-/

namespace Exchange

open MatchingEngine

/-- A round of `drain_outbound_queue`, or a step of the processor. -/
def Event.WorksOff : Event → Prop
  | .drain => True
  | .process _ => True
  | .push => True
  | _ => False

namespace System

/-- A bound on the steps that work off what is in the rings.  A message to be pushed has to
be pushed and drained; a request has to be processed, and at most two messages, pushed and
drained, are its own; an order that rests may bring about one more message. -/
def backlog (sys : System) : ℕ :=
  sys.outbound.length + 2 * sys.outbox.length
    + 2 * sys.session.processor.book.resting.length + 5 * sys.inbound.length

/-- Nothing can be worked off: there is nothing to drain, nothing to push or no room for it,
and no request that the processor could finish. -/
structure Stuck (sys : System) : Prop where
  drain : sys.drain = none
  push : sys.push = none ∨ DEFAULT_RING_CAPACITY ≤ sys.outbound.length
  process : ∀ times, sys.process times = none

/-- The invariant of the book holds in every state of every run. -/
theorem inv_of_run {reserved : Fd → Bool} {events : List Event} {sys : System}
    (h : System.run reserved events = some sys) : sys.session.processor.book.Inv := by
  refine foldlM_some_invariant (P := fun _ (sys : System) => sys.session.processor.book.Inv) ?_
    events (.start reserved) OrderBook.inv_empty h
  intro e _ s s' hinv hs _
  cases System.steps hs with
  | process _ _ hp => exact Session.inv_step hinv hp
  | accept _ => exact hinv
  | read _ => exact hinv
  | drain _ => exact hinv
  | server _ _ => exact hinv
  | push _ => exact hinv

/-! ### One step -/

/-- What is known of a state on the way: the requests in `done` are processed. -/
structure WorkedOff (sys : System) (done : List Incoming) (sys' : System) : Prop where
  inv : sys'.session.processor.book.Inv
  inbound : sys.inbound = done ++ sys'.inbound
  processed : sys'.processed.map Input.message
    = sys.processed.map Input.message ++ done.map Incoming.message
  wellFormed : ∀ q ∈ done, q.message.WellFormed

theorem length_tagged (ms : List OutboundMessage) (origins : List (Option Conn)) :
    (tagged ms origins).length = ms.length := by
  rw [← List.length_map Outgoing.message, Ordered.map_message_tagged]

/-- The messages that are pushed for a request. -/
theorem length_pushed_drop {s s' : Session} {i : Input} (hinv : s.processor.book.Inv)
    (h : s.step (fun _ => 0) i = .ok s') :
    (s'.pushed.drop s.pushed.length).length + s'.processor.book.resting.length
      ≤ s.processor.book.resting.length + 2 := by
  have htraffic := (Session.traffic_step hinv h).1
  have hone : numAccepted [i] ≤ 1 := by
    rw [numAccepted]
    exact List.length_filterMap_le _ _
  have hgrows : s.pushed.length ≤ s'.pushed.length := by
    obtain ⟨s₁, hs₁, -, hcases⟩ := step_cases (fun _ => 0) hinv (wellFormed_of_step h)
    obtain rfl := Except.ok.inj (h.symm.trans hs₁)
    rcases hcases with ⟨order, hsub⟩ | ⟨hacc, -⟩ | ⟨_, _, hacc, -⟩
    · rw [hsub.pushed]
      simp only [List.length_append]
      omega
    · obtain ⟨reply, hreply⟩ := pushed_of_none h hacc
      simp [hreply]
    · obtain ⟨reply, hreply⟩ := pushed_of_none h hacc
      simp [hreply]
  rw [List.length_drop]
  omega

/-- **Each step lowers the measure**, and what has been worked off grows by the request of
the step, if it has one. -/
theorem backlog_step {sys s s' : System} {done : List Incoming} {e : Event}
    (h : sys.WorkedOff done s) (he : e.WorksOff) (hs : s.step e = some s') :
    s'.backlog + 1 ≤ s.backlog ∧ ∃ done', sys.WorkedOff done' s' := by
  cases e with
  | drain =>
    obtain ⟨d, outbound, hd, rfl⟩ := drain_cases hs
    refine ⟨?_, done, h.inv, h.inbound, h.processed, h.wellFormed⟩
    simp only [backlog, hd, List.length_cons]
    omega
  | push =>
    obtain ⟨d, outbox, hd, rfl⟩ := push_cases hs
    refine ⟨?_, done, h.inv, h.inbound, h.processed, h.wellFormed⟩
    simp only [backlog, hd, List.length_cons, List.length_append, List.length_nil]
    omega
  | process times =>
    obtain ⟨q, inbound, session, hout, hin, hp, rfl⟩ := process_cases hs
    constructor
    · have hpushed := length_pushed_drop h.inv hp
      simp only [backlog, hout, hin, length_tagged, List.length_cons, List.length_nil]
      omega
    · refine ⟨done ++ [q], Session.inv_step h.inv hp, ?_, ?_, ?_⟩
      · rw [h.inbound, hin, List.append_assoc, List.singleton_append]
      · simp only [List.map_append, h.processed, List.append_assoc]
        rfl
      · intro q' hq'
        rcases List.mem_append.mp hq' with hq' | hq'
        · exact h.wellFormed q' hq'
        · rw [List.mem_singleton.mp hq']
          exact wellFormed_of_step hp
  | accept _ => exact he.elim
  | read _ _ _ => exact he.elim
  | trySend _ _ => exact he.elim
  | flush _ => exact he.elim
  | write _ _ => exact he.elim
  | disconnect _ => exact he.elim

/-! ### The end -/

/-- Where nothing can be worked off, everything is drained, and the next request, if any, is
one that the processor does not survive. -/
theorem Stuck.cases {sys : System} (h : sys.Stuck) (hinv : sys.session.processor.book.Inv) :
    sys.outbound = [] ∧ sys.outbox = [] ∧
      ∀ q inbound, sys.inbound = q :: inbound → ¬ q.message.WellFormed := by
  have hdrained : sys.outbound = [] := by
    cases hout : sys.outbound with
    | nil => rfl
    | cons d outbound => exact absurd h.drain (by simp [System.drain, hout])
  have hpushed : sys.outbox = [] := by
    rcases h.push with hnone | hfull
    · cases hbox : sys.outbox with
      | nil => rfl
      | cons d outbox => exact absurd hnone (by simp [System.push, hbox])
    · rw [hdrained] at hfull
      exact absurd hfull (by decide)
  refine ⟨hdrained, hpushed, fun q inbound hin hw => ?_⟩
  obtain ⟨session, hs, -⟩ := step_cases (fun _ => 0) hinv (i := ⟨⟨0, fun _ => 0⟩, q.message⟩) hw
  have hstep := h.process ⟨0, fun _ => 0⟩
  simp [System.process, hpushed, hin, hs] at hstep

/-- **A backlog is worked off, in any order.**  From a state of any run of the exchange,
drains and steps of the processor alone number at most `backlog`.  Where none of them can be
taken any more, with the outbound ring bounded, everything has been drained and the requests
that were in the inbound ring have been processed up to the first one that is not
well-formed. -/
theorem backlog_worked_off {reserved : Fd → Bool} {events : List Event} {sys : System}
    (hrun : System.run reserved events = some sys) {work : List Event}
    (hwork : ∀ e ∈ work, e.WorksOff) {sys' : System}
    (hrest : work.foldlM System.step sys = some sys') :
    work.length + sys'.backlog ≤ sys.backlog ∧
      (sys'.Stuck → sys'.outbound = [] ∧ sys'.outbox = [] ∧
        sys'.inbound = sys.inbound.dropWhile (fun q => q.message.WellFormed) ∧
        sys'.processed.map Input.message = sys.processed.map Input.message
          ++ (sys.inbound.takeWhile fun q => q.message.WellFormed).map Incoming.message) := by
  have hend := foldlM_some_invariant
    (P := fun rest (s : System) => (∀ e ∈ rest, e.WorksOff) ∧
      work.length + s.backlog ≤ sys.backlog + rest.length ∧ ∃ done, sys.WorkedOff done s)
    ?_ work sys ⟨hwork, ?_, [], inv_of_run hrun, rfl, (List.append_nil _).symm, ?_⟩ hrest
  · obtain ⟨-, hlen, done, hdone⟩ := hend
    refine ⟨hlen, fun hstuck => ?_⟩
    obtain ⟨hout, hbox, hnext⟩ := hstuck.cases hdone.inv
    have hstop : sys'.inbound.takeWhile (fun q => q.message.WellFormed) = [] := by
      cases hin : sys'.inbound with
      | nil => rfl
      | cons q inbound => simp [hnext q inbound hin]
    have hall : ∀ q ∈ done, decide q.message.WellFormed = true :=
      fun q hq => decide_eq_true (hdone.wellFormed q hq)
    refine ⟨hout, hbox, ?_, ?_⟩
    · rw [hdone.inbound, List.dropWhile_append_of_pos hall, ← List.nil_append (List.dropWhile _ _),
        ← hstop, List.takeWhile_append_dropWhile]
    · rw [hdone.processed, hdone.inbound, List.takeWhile_append_of_pos hall, hstop,
        List.append_nil]
  · rintro e rest s s' ⟨hwork', hlen, done, hdone⟩ hs -
    obtain ⟨hless, hdone'⟩ := backlog_step hdone (hwork' e List.mem_cons_self) hs
    refine ⟨fun e' he' => hwork' e' (List.mem_cons_of_mem e he'), ?_, hdone'⟩
    rw [List.length_cons] at hlen
    omega
  · omega
  · exact fun q hq => absurd hq List.not_mem_nil

/-- A client has sent a request for an ask of ten. -/
def singleAskEvents : List Event :=
  [.accept 5, .read 5 [.chunk 1 [0, 0, 0, 22, 7, 0, 0, 0, 0, 0, 0, 0, 100, 0, 0, 0, 0, 0, 0, 0, 10,
    0, 0, 0, 1, 0]] (fun _ => true)]

theorem backlog_worked_off_single_ask :
    ∃ sys sys', System.run (fun fd => fd < 5) singleAskEvents = some sys ∧
      [Event.process ⟨0, fun _ => 0⟩, .push, .drain].foldlM System.step sys = some sys' ∧
      sys.backlog = 5 ∧ sys'.Stuck ∧ 3 + sys'.backlog ≤ sys.backlog ∧ sys'.outbound = [] := by
  have heval : ((System.run (fun fd => fd < 5) singleAskEvents).map fun sys =>
      (sys.backlog, ([Event.process ⟨0, fun _ => 0⟩, .push, .drain].foldlM System.step sys).map
        fun sys' => (sys'.inbound.length, sys'.outbox.length, sys'.outbound.length)))
      = some (5, some (0, 0, 0)) := by decide +kernel
  obtain ⟨sys, hrun, hsys⟩ := Option.map_eq_some_iff.mp heval
  obtain ⟨hback, hrest⟩ := Prod.mk.inj hsys
  obtain ⟨sys', hwork, hlens⟩ := Option.map_eq_some_iff.mp hrest
  obtain ⟨hin, hlens⟩ := Prod.mk.inj hlens
  obtain ⟨hbox, hout⟩ := Prod.mk.inj hlens
  have hin := List.eq_nil_of_length_eq_zero hin
  have hbox := List.eq_nil_of_length_eq_zero hbox
  have hout := List.eq_nil_of_length_eq_zero hout
  have hstuck : sys'.Stuck :=
    ⟨by rw [System.drain, hout], Or.inl (by rw [System.push, hbox]),
      fun times => by rw [System.process, hbox, hin]⟩
  have hsteps : ∀ e ∈ [Event.process ⟨0, fun _ => 0⟩, .push, .drain], e.WorksOff := by
    simp [Event.WorksOff]
  obtain ⟨hlen, hend⟩ := backlog_worked_off hrun hsteps hwork
  exact ⟨sys, sys', hrun, hwork, hback, hstuck, hlen, (hend hstuck).1⟩

end System

end Exchange
