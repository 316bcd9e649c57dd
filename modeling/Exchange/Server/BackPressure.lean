import Exchange.Server.Inbound
import Exchange.Server.Interest

/-!
# Back-pressure

A frame that is complete and finds no room in the inbound ring is kept in the state of its
connection, to be pushed by a later call of `handle_read`.  The loop calls `handle_read`
only for descriptors that epoll reports as readable, and a descriptor whose frames have
all been received is not: the frame stays where it is until its client sends something
else, however much room there is by then.

## Main definitions

* `Holds` — a connection is open and keeps a complete frame.
* `EventLoop.AtTop` — the thread is at the top of the loop.
* `IoStep.quiet` — the steps of a cycle before its end, in which nothing arrives.
* `EventLoop.Quiet` — no socket has anything to give, and no event says that one has.

## Main results

* `EventLoop.Quiet.step` — a step in which nothing arrives keeps the loop quiet.
* `EventLoop.Quiet.holds_step` — such a step gives no connection a frame to keep.
* `held_retried_iff` — what is kept is never retried while nothing arrives.
-/

namespace Exchange

open Bytes ExchangeServer

/-- A connection is open and keeps a complete frame. -/
def Holds (c : ClientState) : Prop := c.active = true ∧ Held c

/-- The steps of a cycle before its end, in which nothing arrives. -/
def IoStep.quiet : IoStep → Bool
  | .cycle => false
  | .arrive _ _ => false
  | _ => true

/-- A frame that is kept was kept. -/
theorem OutOnly.holds {s s' : ExchangeServer} {fd : Fd} (h : OutOnly s s')
    (hholds : Holds (s'.client fd)) : Holds (s.client fd) := by
  obtain ⟨-, buffer, sent, heq⟩ := h fd hholds.1
  rw [heq] at hholds
  exact hholds

/-! ### Cycles in which nothing arrives -/

namespace EventLoop

/-- The thread is at the top of the loop: nothing has been drained, and nothing is
pending. -/
def AtTop (s : EventLoop) : Prop := s.phase = .draining ∧ s.server.pendingWrites = []

/-- No socket has anything to give, and no event says that one has. -/
structure Quiet (s : EventLoop) : Prop where
  sockets : ∀ fd, (s.server.client fd).active = true → s.sockets fd = []
  events : ∀ events, s.phase = .handling events → ∀ fd writable,
    .client fd true writable ∉ events

namespace Quiet

variable {s s' : EventLoop} {e : IoStep}

/-- Nothing is reported as readable. -/
theorem not_reported (h : s.Quiet) (hinv : s.Inv) {events : List PollEvent}
    (hreports : ∀ e ∈ events, s.reports e = true) (fd : Fd) (writable : Bool) :
    .client fd true writable ∉ events := by
  intro hmem
  have hrep := hreports _ hmem
  rw [reports, Bool.and_eq_true, Bool.and_eq_true] at hrep
  have hactive : (s.server.client fd).active = true := by
    rw [← (hinv.slots fd).registered]
    exact hrep.1.1
  have hreadable := hrep.1.2
  rw [h.sockets fd hactive] at hreadable
  exact absurd hreadable (by decide)

/-- What a step does in which nothing arrives: a connection is accepted, or nothing but
the write buffers is touched; and no event says that a socket has something to give. -/
theorem cases (h : s.Quiet) (hinv : s.Inv) (he : ∀ fd a, e ≠ .arrive fd a)
    (hs : s.step e = some s') :
    ((∃ fd, s.server.acceptClient fd = some s'.server ∧
        s'.sockets = Function.update s.sockets fd []) ∨
      OutOnly s.server s'.server ∧ s'.sockets = s.sockets) ∧
    ∀ events, s'.phase = .handling events → ∀ fd writable, .client fd true writable ∉ events := by
  cases steps hs with
  | drain message hp =>
    refine ⟨Or.inr ⟨.drainMessage s.server message, rfl⟩, fun events hp' => ?_⟩
    exact absurd (hp.symm.trans hp') (by simp)
  | drained _ => exact ⟨Or.inr ⟨.refl _, rfl⟩, fun events hp' => absurd hp' (by simp)⟩
  | send _ hsend => exact ⟨Or.inr ⟨.trySend hsend, rfl⟩, fun events hp' => absurd hp' (by simp)⟩
  | flushed _ =>
    -- only the pending descriptors are cleared
    refine ⟨Or.inr ⟨.of_eq (fun _ => rfl) rfl, rfl⟩, fun events hp' => ?_⟩
    exact absurd hp' (by simp)
  | wait _ _ hreports =>
    refine ⟨Or.inr ⟨.refl _, rfl⟩, fun events hp' => ?_⟩
    obtain rfl := Phase.handling.inj hp'
    exact h.not_reported hinv hreports
  | @accept fd events server hp haccept =>
    exact ⟨Or.inl ⟨fd, haccept, rfl⟩, h.events⟩
  | accepted hp =>
    refine ⟨Or.inr ⟨.refl _, rfl⟩, fun events hp' fd writable hmem => ?_⟩
    obtain rfl := Phase.handling.inj hp'
    exact h.events _ hp fd writable (List.mem_cons_of_mem _ hmem)
  | @read pops fd writable events c r hp hc hr =>
    -- no event of the socket has been reported
    exact absurd List.mem_cons_self (h.events _ hp fd writable)
  | write hp hwrite =>
    refine ⟨Or.inr ⟨.handleWrite hwrite, rfl⟩, fun events hp' fd writable hmem => ?_⟩
    obtain rfl := Phase.handling.inj hp'
    rcases List.mem_cons.mp hmem with heq | hmem
    · exact absurd heq (by simp)
    · exact h.events _ hp fd writable (List.mem_cons_of_mem _ hmem)
  | handled hp =>
    refine ⟨Or.inr ⟨.refl _, rfl⟩, fun events hp' fd writable hmem => ?_⟩
    obtain rfl := Phase.handling.inj hp'
    exact h.events _ hp fd writable (List.mem_cons_of_mem _ hmem)
  | cycle _ => exact ⟨Or.inr ⟨.refl _, rfl⟩, fun events hp' => absurd hp' (by simp)⟩
  | arrive fd _ => exact absurd rfl (he fd _)
  | pop _ => exact ⟨Or.inr ⟨.refl _, rfl⟩, h.events⟩

/-- **A step in which nothing arrives** keeps the loop quiet. -/
theorem step (h : s.Quiet) (hinv : s.Inv) (he : ∀ fd a, e ≠ .arrive fd a)
    (hs : s.step e = some s') : s'.Quiet := by
  obtain ⟨hserver, hevents⟩ := h.cases hinv he hs
  refine ⟨fun fd hactive => ?_, hevents⟩
  rcases hserver with ⟨fd', haccept, hsockets⟩ | ⟨hout, hsockets⟩
  · rw [hsockets]
    by_cases hfd : fd = fd'
    · rw [hfd, Function.update_self]
    · rw [Function.update_of_ne hfd]
      rw [((acceptClient_client haccept).2.2 fd hfd).1] at hactive
      exact h.sockets fd hactive
  · rw [hsockets]
    exact h.sockets fd (hout.active hactive)

/-- **A step in which nothing arrives** gives no connection a frame to keep. -/
theorem holds_step (h : s.Quiet) (hinv : s.Inv) (he : ∀ fd a, e ≠ .arrive fd a)
    (hs : s.step e = some s') {fd : Fd} (hholds : Holds (s'.server.client fd)) :
    Holds (s.server.client fd) := by
  rcases (h.cases hinv he hs).1 with ⟨fd', haccept, -⟩ | ⟨hout, -⟩
  · by_cases hfd : fd = fd'
    · rw [hfd, (acceptClient_client haccept).1] at hholds
      exact absurd hholds.2 (not_held_of_header rfl)
    · rw [((acceptClient_client haccept).2.2 fd hfd).1] at hholds
      exact hholds
  · exact hout.holds hholds

/-- **A run in which nothing arrives** keeps the loop quiet, and gives no connection a frame
to keep. -/
theorem run {es : List IoStep} (h : s.Quiet) (hinv : s.Inv)
    (hes : ∀ e ∈ es, ∀ fd a, e ≠ .arrive fd a) (hrun : s.run es = some s') :
    s'.Quiet ∧ ∀ fd, Holds (s'.server.client fd) → Holds (s.server.client fd) := by
  have hend := foldlM_some_invariant (P := fun es t =>
    (t.Inv ∧ ∀ e ∈ es, ∀ fd a, e ≠ .arrive fd a) ∧ t.Quiet ∧
      ∀ fd, Holds (t.server.client fd) → Holds (s.server.client fd)) ?_ es s
    ⟨⟨hinv, hes⟩, h, fun _ hh => hh⟩ hrun
  · exact hend.2
  · intro e es t t' ⟨⟨hinv, hes⟩, hquiet, hholds⟩ hs _
    have he := hes e List.mem_cons_self
    refine ⟨⟨hinv.step hs, fun e' he' => hes e' (List.mem_cons_of_mem e he')⟩,
      hquiet.step hinv he hs, fun fd hh => ?_⟩
    exact hholds fd (hquiet.holds_step hinv he hs hh)

end Quiet

/-- The pending descriptors have been flushed. -/
def Flushed (s : EventLoop) : Prop :=
  s.phase = .waiting ∨ (∃ events, s.phase = .handling events) → s.server.pendingWrites = []

theorem flushed_step {s s' : EventLoop} {e : IoStep} (h : s.Flushed) (hs : s.step e = some s') :
    s'.Flushed := by
  intro hp'
  cases steps hs with
  | drain _ hp => exact absurd hp' (by simp [hp])
  | drained _ => exact absurd hp' (by simp)
  | send _ _ => exact absurd hp' (by simp)
  | flushed _ => rfl
  | wait hp _ _ => exact h (Or.inl hp)
  | accept hp haccept =>
    have hnil := h (Or.inr ⟨_, hp⟩)
    unfold acceptClient at haccept
    split at haccept
    · exact absurd haccept (by simp)
    · obtain rfl := Option.some.inj haccept
      exact hnil
  | accepted hp => exact h (Or.inr ⟨_, hp⟩)
  | read hp _ _ =>
    have hnil := h (Or.inr ⟨_, hp⟩)
    show (ite _ _ _ : ExchangeServer).pendingWrites = []
    split
    · exact hnil
    · exact hnil
  | write hp hwrite =>
    have hnil := h (Or.inr ⟨_, hp⟩)
    cases handlesWrite hwrite with
    | skip _ => exact hnil
    | again _ _ => exact hnil
    | close _ _ => exact hnil
    | complete _ _ _ _ => exact hnil
    | part _ _ _ => exact hnil
  | handled hp => exact h (Or.inr ⟨_, hp⟩)
  | cycle _ => exact absurd hp' (by simp)
  | arrive _ _ => exact h hp'
  | pop _ => exact h hp'

/-- **At the end of a cycle** the thread is at the top of the loop. -/
theorem atTop_of_cycle {reserved : Fd → Bool} {es : List IoStep} {s s' : EventLoop}
    (hrun : (start reserved).run es = some s) (hs : s.step .cycle = some s') : s'.AtTop := by
  have hflushed : s.Flushed := by
    refine foldlM_some_invariant (P := fun _ t => t.Flushed) ?_ es _ (fun _ => rfl) hrun
    intro e es t t' ht hs _
    exact flushed_step ht hs
  cases steps hs with
  | cycle hp => exact ⟨rfl, hflushed (Or.inr ⟨_, hp⟩)⟩

/-- A cycle in which nothing happens. -/
theorem idle_cycle {s : EventLoop} (htop : s.AtTop) :
    ∃ s', s.run ([.drained, .flushed, .wait []] ++ [.cycle]) = some s' ∧
      s'.server.clients = s.server.clients := by
  refine ⟨{ s with server := { s.server with pendingWrites := [] }, phase := .draining }, ?_, rfl⟩
  simp [run, step, htop.1, htop.2]

end EventLoop

/-- **Kept frames.**  In every state that is reached at the top of the loop and in which no
client has sent anything that has not been received: after every cycle in which nothing
arrives no client keeps a frame, if and only if none did before.  The room in the ring
does not matter. -/
theorem held_retried_iff {reserved : Fd → Bool} {steps : List IoStep} {s : EventLoop}
    (hrun : (EventLoop.start reserved).run steps = some s) (htop : s.AtTop)
    (hquiet : ∀ fd, (s.server.client fd).active = true → s.sockets fd = []) :
    (∀ es s', (∀ e ∈ es, e.quiet = true) → s.run (es ++ [.cycle]) = some s' →
        ∀ fd, ¬ Holds (s'.server.client fd)) ↔
      ∀ fd, ¬ Holds (s.server.client fd) := by
  have hinv : s.Inv := EventLoop.Inv.run hrun
  have hq : s.Quiet := ⟨hquiet, fun events hp => absurd (htop.1.symm.trans hp) (by simp)⟩
  constructor
  · intro h fd hholds
    obtain ⟨s', hrun', hclients⟩ := EventLoop.idle_cycle htop
    refine h _ s' (by decide) hrun' fd ?_
    rw [client, hclients]
    exact hholds
  · intro h es s' hes hrun' fd hholds
    refine h fd ((hq.run hinv ?_ hrun').2 fd hholds)
    intro e he fd' a heq
    rcases List.mem_append.mp he with hmem | hmem
    · have hquiet := hes e hmem
      rw [heq] at hquiet
      exact absurd hquiet Bool.false_ne_true
    · rw [List.mem_singleton.mp hmem] at heq
      exact absurd heq (by simp)

/-! ### A frame that is not retried -/

/-- The bytes of `n` requests to cancel the order with id 0. -/
def cancels : ℕ → List UInt8
  | 0 => []
  | n + 1 => 2 :: 0 :: 0 :: 0 :: 8 :: 0 :: 0 :: 0 :: 0 :: 0 :: 0 :: 0 :: 0 :: cancels n

/-- A socket that has them to give. -/
def cancelSocket (n : ℕ) : List Arrival :=
  match cancels n with
  | [] => []
  | b :: bs => [.chunk b bs]

/-- The socket behind a header. -/
def payloadSocket (n : ℕ) : List Arrival :=
  [.chunk 0 (0 :: 0 :: 0 :: 0 :: 0 :: 0 :: 0 :: cancels n)]

theorem recv_payloadSocket (n : ℕ) :
    recv 8 (payloadSocket n) = (.data (List.replicate 8 0), cancelSocket n) := by
  unfold cancelSocket payloadSocket
  cases cancels n with
  | nil => rfl
  | cons b bs => rfl

section Cancels

variable (room : ℕ → Bool) (fd : Fd)

/-- An iteration of the loop receives a request, and then tries to push it. -/
theorem readIteration_cancels {r : Reading} {n : ℕ} (hphase : r.client.readPhase = .HEADER)
    (hread : r.client.bytesRead = 0) (harrivals : r.arrivals = cancelSocket (n + 1)) :
    ∃ r₁, readIteration room fd r = pushFrame room fd r₁ ∧ Held r₁.client ∧
      r₁.client.active = r.client.active ∧ r₁.arrivals = cancelSocket n ∧
      r₁.attempts = r.attempts := by
  have hheader : recv 5 r.arrivals = (.data [2, 0, 0, 0, 8], payloadSocket n) := by
    rw [harrivals]
    rfl
  obtain ⟨r₁, hiter, hheld, -, -, hactive, harrivals₁, hattempts, -⟩ :=
    readIteration_whole (f := ⟨2, List.replicate 8 0⟩) room fd hphase hread
      (show 8 < 256 ^ 4 by decide) (by decide) hheader (recv_payloadSocket n)
  exact ⟨r₁, hiter, hheld, hactive, harrivals₁, hattempts⟩

/-- The loop pushes the requests that find room, and keeps the next one. -/
theorem readLoop_cancels {n : ℕ} : ∀ {r : Reading}, r.client.readPhase = .HEADER →
    r.client.bytesRead = 0 → r.client.active = true → r.arrivals = cancelSocket (n + 1) →
    (∀ i < n, room (r.attempts + i) = true) → room (r.attempts + n) = false →
    Holds (readLoop room fd r).client ∧ (readLoop room fd r).arrivals = [] ∧
      (readLoop room fd r).attempts = r.attempts + n + 1 := by
  induction n with
  | zero =>
    intro r hphase hread hactive harrivals _ hfull
    obtain ⟨r₁, hiter, hheld, hactive₁, harrivals₁, hattempts⟩ :=
      readIteration_cancels room fd hphase hread harrivals
    have hnone : ¬ room r₁.attempts = true := by
      rw [hattempts]
      exact Bool.eq_false_iff.mp hfull
    rw [pushFrame, if_neg hnone] at hiter
    rw [readLoop_of_done hiter]
    exact ⟨⟨hactive₁.trans hactive, hheld⟩, harrivals₁, by rw [← hattempts]; rfl⟩
  | succ n ih =>
    intro r hphase hread hactive harrivals hroom hfull
    obtain ⟨r₁, hiter, hheld, hactive₁, harrivals₁, hattempts⟩ :=
      readIteration_cancels room fd hphase hread harrivals
    have hfirst : room r₁.attempts = true := by
      rw [hattempts]
      exact hroom 0 (Nat.succ_pos n)
    rw [pushFrame, if_pos hfirst] at hiter
    cases hnext : readIteration room fd r with
    | done r' => exact absurd (hiter.symm.trans hnext) (by simp)
    | next r' =>
      rw [readLoop_of_next hnext]
      have heq := Flow.next.inj (hiter.symm.trans hnext)
      have hattempts' : r'.attempts = r.attempts + 1 := by
        rw [← heq, ← hattempts]
        rfl
      have hend := ih (r := r') (by rw [← heq]; rfl) (by rw [← heq]; rfl)
        (by rw [← heq]; exact hactive₁.trans hactive) (by rw [← heq]; exact harrivals₁)
        (fun i hi => by
          rw [hattempts', Nat.add_assoc, Nat.add_comm 1 i]
          exact hroom (i + 1) (Nat.succ_lt_succ hi))
        (by rw [hattempts', Nat.add_assoc, Nat.add_comm 1 n]; exact hfull)
      refine ⟨hend.1, hend.2.1, ?_⟩
      rw [hend.2.2, hattempts']
      omega

end Cancels

/-- The ring fills up while nothing is popped. -/
theorem ringAfter_of_le {k : ℕ} (h : k ≤ DEFAULT_RING_CAPACITY) :
    ringAfter (fun _ => 0) 0 k = k := by
  induction k with
  | zero => rfl
  | succ k ih =>
    rw [ringAfter, ih (Nat.le_of_succ_le h), Nat.sub_zero]
    exact if_pos h

/-- One request more than the ring holds: the last one is kept. -/
theorem handleRead_burst {fd : Fd} {r : Reading} {n : ℕ} (hn : n = DEFAULT_RING_CAPACITY)
    (hr : r = handleRead (ringRoom (fun _ => 0) 0) fd
      (.begin { active := true } (cancelSocket (n + 1)))) :
    Holds r.client ∧ r.arrivals = [] ∧ ringAfter (fun _ => 0) 0 r.attempts = n := by
  have hroom : ∀ i < n, ringRoom (fun _ => 0) 0 (0 + i) = true := by
    intro i hi
    rw [Nat.zero_add, ringRoom, ringAfter_of_le (hn ▸ Nat.le_of_lt hi)]
    exact decide_eq_true (hn ▸ hi)
  have hafter : ringAfter (fun _ => 0) 0 n = n := ringAfter_of_le (Nat.le_of_eq hn)
  have hfull : ringRoom (fun _ => 0) 0 (0 + n) = false := by
    rw [Nat.zero_add, ringRoom, hafter]
    exact decide_eq_false (Nat.not_lt.mpr (Nat.le_of_eq hn.symm))
  rw [handleRead, Reading.begin_client, if_pos rfl] at hr
  obtain ⟨hholds, harrivals, hattempts⟩ := readLoop_cancels _ fd
    (r := .begin { active := true } (cancelSocket (n + 1))) rfl rfl rfl rfl hroom hfull
  rw [← hr] at hholds harrivals hattempts
  refine ⟨hholds, harrivals, ?_⟩
  rw [hattempts, Reading.begin_attempts, Nat.zero_add, ringAfter, hafter]
  exact if_neg (Nat.not_lt.mpr (Nat.le_of_eq hn.symm))

/-- A client sends requests in one go, which are read, and afterwards the processor pops
everything. -/
def burstSteps (fd : Fd) (n : ℕ) : List IoStep :=
  [.drained, .flushed,
    .arrive fd (.chunk 2 (0 :: 0 :: 0 :: 8 :: 0 :: 0 :: 0 :: 0 :: 0 :: 0 :: 0 :: 0 :: cancels n)),
    .wait [.client fd true false], .read (fun _ => 0), .handled, .cycle, .pop n]

theorem run_burstSteps {s : EventLoop} {fd : Fd} {n : ℕ} (hn : n = DEFAULT_RING_CAPACITY)
    (htop : s.AtTop) (hc : s.server.clients[fd]? = some { active := true })
    (hepoll : s.server.epoll fd = some false) (hsocket : s.sockets fd = [])
    (hqueued : s.queued = 0) :
    ∃ s', s.run (burstSteps fd n) = some s' ∧ s'.AtTop ∧ Holds (s'.server.client fd) ∧
      s'.queued = 0 ∧ s'.sockets fd = [] ∧
      s'.server.clients.length = s.server.clients.length ∧
      ∀ fd', fd' ≠ fd → s'.server.client fd' = s.server.client fd' ∧
        s'.sockets fd' = s.sockets fd' := by
  obtain ⟨⟨clients, pendingWrites, openFds, epoll, wire⟩, phase, sockets, queued⟩ := s
  obtain ⟨rfl, rfl⟩ := htop
  obtain rfl : queued = 0 := hqueued
  generalize hr : handleRead (ringRoom (fun _ => 0) 0) fd
    (.begin { active := true } (cancelSocket (n + 1))) = r
  obtain ⟨hholds, harrivals, hring⟩ := handleRead_burst hn hr.symm
  -- the socket when the loop waits
  generalize hsocks : Function.update sockets fd (sockets fd ++ [.chunk 2 (0 :: 0 :: 0 :: 8 :: 0 ::
    0 :: 0 :: 0 :: 0 :: 0 :: 0 :: 0 :: cancels n)]) = sockets'
  have hsocket' : sockets' fd = cancelSocket (n + 1) := by
    rw [← hsocks, Function.update_self, show sockets fd = [] from hsocket]
    rfl
  have hwait : EventLoop.step ⟨⟨clients, [], openFds, epoll, wire⟩, .waiting, sockets', 0⟩
      (.wait [.client fd true false]) = some ⟨⟨clients, [], openFds, epoll, wire⟩,
        .handling [.client fd true false], sockets', 0⟩ := by
    have hreport : epoll fd = some false := hepoll
    simp [EventLoop.step, EventLoop.reports, hreport, hsocket', cancelSocket, cancels]
  rw [← hsocket'] at hr
  have hread := EventLoop.step_read (s := ⟨⟨clients, [], openFds, epoll, wire⟩,
    .handling [.client fd true false], sockets', 0⟩) rfl hc hr
  rw [if_pos hholds.1] at hread
  refine ⟨_, EventLoop.run_cons rfl (EventLoop.run_cons rfl (EventLoop.run_cons
    (by rw [EventLoop.step, if_neg (by simp), hsocks]) (EventLoop.run_cons hwait
      (EventLoop.run_cons hread (EventLoop.run_cons rfl (EventLoop.run_cons rfl
        (EventLoop.run_cons rfl rfl))))))), ⟨rfl, rfl⟩, ?_, ?_, ?_, ?_, fun fd' hfd => ⟨?_, ?_⟩⟩
  · show Holds ((ExchangeServer.setClient _ fd r.client).client fd)
    rw [client_setClient_self hc]
    exact hholds
  · show ringAfter (fun _ => 0) 0 r.attempts - n = 0
    rw [hring, Nat.sub_self]
  · show Function.update sockets' fd r.arrivals fd = []
    rw [Function.update_self, harrivals]
  · exact List.length_set
  · exact client_setClient_of_ne hfd _
  · show Function.update sockets' fd r.arrivals fd' = sockets fd'
    rw [Function.update_of_ne hfd, ← hsocks, Function.update_of_ne hfd]

/-- A client connects. -/
def connectSteps : List IoStep :=
  [.drained, .flushed, .wait [.listening], .accept 5, .accepted, .cycle]

/-- A state at the top of the loop in which a frame is kept, the ring is empty, and no
socket has anything to give. -/
theorem exists_holds :
    ∃ s, (EventLoop.start (fun fd => fd < 5)).run
        (connectSteps ++ burstSteps 5 DEFAULT_RING_CAPACITY) = some s ∧ s.AtTop ∧
      (∀ fd, (s.server.client fd).active = true → s.sockets fd = []) ∧
      s.queued = 0 ∧ s.server.clients.length = 1024 ∧ Holds (s.server.client 5) := by
  have heval : ((EventLoop.start (fun fd => fd < 5)).run connectSteps).map
      (fun s => ((s.phase, s.server.pendingWrites, s.server.epoll 5), s.server.clients[5]?,
        s.queued, s.server.clients.length))
      = some ((.draining, [], some false), some { active := true }, 0, 1024) := by
    decide +kernel
  obtain ⟨s₀, hrun₀, hs₀⟩ := Option.map_eq_some_iff.mp heval
  simp only [Prod.mk.injEq] at hs₀
  obtain ⟨⟨hphase, hpending, hepoll⟩, hc, hqueued, hlen⟩ := hs₀
  -- nothing has arrived by then
  have hquiet : s₀.Quiet := by
    refine (EventLoop.Quiet.run ⟨fun _ _ => rfl, fun events hp => ?_⟩
      (EventLoop.inv_start _) ?_ hrun₀).1
    · exact absurd hp (by simp [EventLoop.start])
    · intro e he fd a
      revert e
      simp [connectSteps]
  have hsocket : s₀.sockets 5 = [] := by
    apply hquiet.sockets
    rw [client_of_some hc]
  obtain ⟨s, hrun, htop, hholds, hq, hempty, hlength, hothers⟩ :=
    run_burstSteps rfl ⟨hphase, hpending⟩ hc hepoll hsocket hqueued
  refine ⟨s, ?_, htop, fun fd hactive => ?_, hq, hlength.trans hlen, hholds⟩
  · rw [EventLoop.run, List.foldlM_append]
    exact Option.bind_eq_some_iff.mpr ⟨s₀, hrun₀, hrun⟩
  · by_cases hfd : fd = 5
    · rw [hfd]
      exact hempty
    · obtain ⟨hclient, hsame⟩ := hothers fd hfd
      rw [hclient] at hactive
      rw [hsame]
      exact hquiet.sockets fd hactive

/-- A frame is kept at the top of the loop, and there is a cycle after which it still is. -/
theorem held_retried_iff_burst :
    ∃ s, (EventLoop.start (fun fd => fd < 5)).run
        (connectSteps ++ burstSteps 5 DEFAULT_RING_CAPACITY) = some s ∧
      Holds (s.server.client 5) ∧
      ¬ ∀ es s', (∀ e ∈ es, e.quiet = true) → s.run (es ++ [.cycle]) = some s' →
        ∀ fd, ¬ Holds (s'.server.client fd) := by
  obtain ⟨s, hrun, htop, hquiet, -, -, hholds⟩ := exists_holds
  exact ⟨s, hrun, hholds, fun h => (held_retried_iff hrun htop hquiet).mp h 5 hholds⟩

instance : DecidablePred Holds := fun c =>
  inferInstanceAs (Decidable (c.active = true ∧ c.readPhase = .PAYLOAD ∧
    c.bytesRead = c.payloadLength.toNat))

/-- A client sends one request more than the ring holds, and nothing else.  The last one
is still kept after a cycle that found the ring empty. -/
theorem held_not_retried :
    ¬ ∀ (reserved : Fd → Bool) (steps : List IoStep) (s : EventLoop),
      (EventLoop.start reserved).run steps = some s → s.AtTop →
      (∀ fd, (s.server.client fd).active = true → s.sockets fd = []) →
      s.server.clients.countP (fun c => Holds c) ≤ DEFAULT_RING_CAPACITY - s.queued →
      ∀ es s', (∀ e ∈ es, e.quiet = true) → s.run (es ++ [.cycle]) = some s' →
        ∀ fd, ¬ Holds (s'.server.client fd) := by
  intro h
  obtain ⟨s, hrun, htop, hquiet, hqueued, hlen, hholds⟩ := exists_holds
  obtain ⟨s', hrun', hclients⟩ := EventLoop.idle_cycle htop
  have hfree : s.server.clients.countP (fun c => Holds c) ≤ DEFAULT_RING_CAPACITY - s.queued := by
    refine Nat.le_trans List.countP_le_length ?_
    rw [hqueued, hlen]
    decide
  refine h _ _ s hrun htop hquiet hfree _ s' (by decide) hrun' 5 ?_
  rw [client, hclients]
  exact hholds

end Exchange
