import Exchange.ExchangeServer

/-!
# The event loop

`ExchangeServer::run`: the I/O thread drains the outbound ring, flushes the pending
writes, asks epoll for events and handles them, over and over.  The model takes the loop
step by step; between any two steps bytes may arrive on a socket and the processor may
pop from the inbound ring.

Epoll is level-triggered: a descriptor is reported readable only while its socket holds
unread bytes, the end of the stream or an error, and writable only while `EPOLLOUT` is
registered for it.  What the other side sends, what the processor has to say, how much a
socket takes and which of the possible events are reported are arguments of the steps.

## Main definitions

* `EventLoop`, `IoStep`, `EventLoop.step`, `EventLoop.run` — the loop and its runs.
* `PollEvent` — an event that epoll reports.
* `ringAfter`, `ringRoom` — the pushes of a call of `handle_read` to the bounded ring.

## Main results

* `EventLoop.steps` — what a step does.
* `EventLoop.step_read`, `EventLoop.run_cons` — how a run goes on.
-/

namespace Exchange

/-- `DEFAULT_RING_CAPACITY`. -/
def DEFAULT_RING_CAPACITY : ℕ := 8192

/-- How many messages the inbound ring holds after `k` pushes of a call.  The processor
pops `pops k` messages before the push that follows `k` others. -/
def ringAfter (pops : ℕ → ℕ) (queued : ℕ) : ℕ → ℕ
  | 0 => queued
  | k + 1 =>
      if ringAfter pops queued k - pops k < DEFAULT_RING_CAPACITY then
        ringAfter pops queued k - pops k + 1
      else ringAfter pops queued k - pops k

/-- Whether the push that follows `k` others finds room. -/
def ringRoom (pops : ℕ → ℕ) (queued : ℕ) (k : ℕ) : Bool :=
  ringAfter pops queued k - pops k < DEFAULT_RING_CAPACITY

/-- An event that epoll reports: of the listening socket, or of a client, with whether it
has `EPOLLIN` and `EPOLLOUT`. -/
inductive PollEvent
  | listening
  | client (fd : Fd) (readable writable : Bool)
  deriving DecidableEq, Repr

/-- The descriptor of a client. -/
def PollEvent.fd? : PollEvent → Option Fd
  | .listening => none
  | .client fd _ _ => some fd

/-- Where the I/O thread is in `run`: in `drain_outbound_queue`, in
`flush_pending_writes` with the descriptors that are left, before `epoll_wait`, or
handling the events that are left. -/
inductive Phase
  | draining
  | flushing (fds : List Fd)
  | waiting
  | handling (events : List PollEvent)
  deriving DecidableEq, Repr

/-- The I/O thread, with what is unread on each socket and the number of messages in the
inbound ring. -/
structure EventLoop where
  server : ExchangeServer
  phase : Phase
  sockets : Fd → List Arrival
  queued : ℕ

/-- The steps of the loop, of the other side and of the processor. -/
inductive IoStep
  /-- `drain_outbound_queue` pops a message. -/
  | drain (message : OutboundMessage)
  /-- The outbound ring is empty. -/
  | drained
  /-- `try_send` of the next pending descriptor. -/
  | send (writable : Writable)
  /-- No descriptor is pending. -/
  | flushed
  /-- `epoll_wait` returns. -/
  | wait (events : List PollEvent)
  /-- `accept` returns a descriptor. -/
  | accept (fd : Fd)
  /-- `accept` returns `EAGAIN`. -/
  | accepted
  /-- `handle_read`, while the processor pops. -/
  | read (pops : ℕ → ℕ)
  /-- `handle_write`. -/
  | write (writable : Writable)
  /-- The event of a client is done with. -/
  | handled
  /-- All events are done with. -/
  | cycle
  /-- Something arrives on a socket. -/
  | arrive (fd : Fd) (arrival : Arrival)
  /-- The processor pops messages. -/
  | pop (n : ℕ)

namespace EventLoop

/-- The loop after `start`. -/
def start (reserved : Fd → Bool) : EventLoop := ⟨.start reserved, .draining, fun _ => [], 0⟩

/-- Whether epoll may report an event. -/
def reports (s : EventLoop) : PollEvent → Bool
  | .listening => true
  | .client fd readable writable =>
      (s.server.epoll fd).isSome && (!readable || s.sockets fd ≠ [])
        && (!writable || s.server.epoll fd = some true)

/-- `handle_read`, which leaves what it has not received on the socket. -/
def read (s : EventLoop) (fd : Fd) (pops : ℕ → ℕ) : Option EventLoop :=
  (s.server.clients[fd]?).bind fun client =>
    (s.server.handleRead (ringRoom pops s.queued) (s.sockets fd) fd).map fun (server, _) =>
      let r := Exchange.handleRead (ringRoom pops s.queued) fd
        (.begin client (s.sockets fd))
      { s with
        server
        sockets := Function.update s.sockets fd r.arrivals
        queued := ringAfter pops s.queued r.attempts }

/-- One step, if the thread is there in its program. -/
def step (s : EventLoop) : IoStep → Option EventLoop
  | .drain message =>
      match s.phase with
      | .draining => some { s with server := s.server.drainMessage message }
      | _ => none
  | .drained =>
      match s.phase with
      | .draining => some { s with phase := .flushing s.server.pendingWrites }
      | _ => none
  | .send writable =>
      match s.phase with
      | .flushing (fd :: fds) =>
          (s.server.trySend writable fd).map fun server =>
            { s with server, phase := .flushing fds }
      | _ => none
  | .flushed =>
      match s.phase with
      | .flushing [] =>
          some { s with server := { s.server with pendingWrites := [] }, phase := .waiting }
      | _ => none
  | .wait events =>
      match s.phase with
      | .waiting =>
          -- the buffer for events has 64 places, and a descriptor is reported once
          if events.length ≤ 64 ∧ (events.map PollEvent.fd?).Nodup ∧ events.all s.reports then
            some { s with phase := .handling events }
          else none
      | _ => none
  | .accept fd =>
      match s.phase with
      | .handling (.listening :: _) =>
          (s.server.acceptClient fd).map fun server =>
            { s with server, sockets := Function.update s.sockets fd [] }
      | _ => none
  | .accepted =>
      match s.phase with
      | .handling (.listening :: events) => some { s with phase := .handling events }
      | _ => none
  | .read pops =>
      match s.phase with
      | .handling (.client fd true writable :: events) =>
          (s.read fd pops).map fun s =>
            { s with phase := .handling (.client fd false writable :: events) }
      | _ => none
  | .write writable =>
      match s.phase with
      | .handling (.client fd false true :: events) =>
          (s.server.handleWrite writable fd).map fun server =>
            { s with server, phase := .handling (.client fd false false :: events) }
      | _ => none
  | .handled =>
      match s.phase with
      | .handling (.client _ false false :: events) => some { s with phase := .handling events }
      | _ => none
  | .cycle =>
      match s.phase with
      | .handling [] => some { s with phase := .draining }
      | _ => none
  | .arrive fd arrival =>
      if arrival = .again then none
      else some { s with sockets := Function.update s.sockets fd (s.sockets fd ++ [arrival]) }
  | .pop n => some { s with queued := s.queued - n }

/-- A run of the loop. -/
def run (s : EventLoop) (steps : List IoStep) : Option EventLoop := steps.foldlM step s

end EventLoop

/-! ### What one step does -/

/-- What a step does, said once. -/
inductive LoopSteps (s : EventLoop) : IoStep → EventLoop → Prop
  | drain (message : OutboundMessage) (hp : s.phase = .draining) :
      LoopSteps s (.drain message) { s with server := s.server.drainMessage message }
  | drained (hp : s.phase = .draining) :
      LoopSteps s .drained { s with phase := .flushing s.server.pendingWrites }
  | send {w : Writable} {fd : Fd} {fds : List Fd} {server : ExchangeServer}
      (hp : s.phase = .flushing (fd :: fds)) (hs : s.server.trySend w fd = some server) :
      LoopSteps s (.send w) { s with server, phase := .flushing fds }
  | flushed (hp : s.phase = .flushing []) :
      LoopSteps s .flushed
        { s with server := { s.server with pendingWrites := [] }, phase := .waiting }
  | wait {events : List PollEvent} (hp : s.phase = .waiting)
      (hnodup : (events.map PollEvent.fd?).Nodup)
      (hreports : ∀ e ∈ events, s.reports e = true) :
      LoopSteps s (.wait events) { s with phase := .handling events }
  | accept {fd : Fd} {events : List PollEvent} {server : ExchangeServer}
      (hp : s.phase = .handling (.listening :: events))
      (hs : s.server.acceptClient fd = some server) :
      LoopSteps s (.accept fd) { s with server, sockets := Function.update s.sockets fd [] }
  | accepted {events : List PollEvent} (hp : s.phase = .handling (.listening :: events)) :
      LoopSteps s .accepted { s with phase := .handling events }
  | read {pops : ℕ → ℕ} {fd : Fd} {writable : Bool} {events : List PollEvent} {client : ClientState}
      {r : Reading} (hp : s.phase = .handling (.client fd true writable :: events))
      (hc : s.server.clients[fd]? = some client)
      (hr : r = handleRead (ringRoom pops s.queued) fd
        (.begin client (s.sockets fd))) :
      LoopSteps s (.read pops)
        { server := if r.client.active = client.active then s.server.setClient fd r.client
            else s.server.disconnectClient fd
          phase := .handling (.client fd false writable :: events)
          sockets := Function.update s.sockets fd r.arrivals
          queued := ringAfter pops s.queued r.attempts }
  | write {w : Writable} {fd : Fd} {events : List PollEvent} {server : ExchangeServer}
      (hp : s.phase = .handling (.client fd false true :: events))
      (hs : s.server.handleWrite w fd = some server) :
      LoopSteps s (.write w)
        { s with server, phase := .handling (.client fd false false :: events) }
  | handled {fd : Fd} {events : List PollEvent}
      (hp : s.phase = .handling (.client fd false false :: events)) :
      LoopSteps s .handled { s with phase := .handling events }
  | cycle (hp : s.phase = .handling []) : LoopSteps s .cycle { s with phase := .draining }
  | arrive {arrival : Arrival} (fd : Fd) (ha : arrival ≠ .again) :
      LoopSteps s (.arrive fd arrival)
        { s with sockets := Function.update s.sockets fd (s.sockets fd ++ [arrival]) }
  | pop (n : ℕ) : LoopSteps s (.pop n) { s with queued := s.queued - n }

theorem EventLoop.steps {s s' : EventLoop} {e : IoStep} (h : s.step e = some s') :
    LoopSteps s e s' := by
  cases e with
  | arrive fd arrival =>
    simp only [EventLoop.step] at h
    split at h
    · exact absurd h (by simp)
    · next ha =>
      obtain rfl := Option.some.inj h
      exact .arrive fd ha
  | pop n =>
    obtain rfl := Option.some.inj h
    exact .pop n
  | drain message =>
    simp only [EventLoop.step] at h
    split at h
    · next hp =>
      obtain rfl := Option.some.inj h
      exact .drain message hp
    · exact absurd h (by simp)
  | drained =>
    simp only [EventLoop.step] at h
    split at h
    · next hp =>
      obtain rfl := Option.some.inj h
      exact .drained hp
    · exact absurd h (by simp)
  | send w =>
    simp only [EventLoop.step] at h
    split at h
    · next fd fds hp =>
      obtain ⟨server, hs, rfl⟩ := Option.map_eq_some_iff.mp h
      exact .send hp hs
    · exact absurd h (by simp)
  | flushed =>
    simp only [EventLoop.step] at h
    split at h
    · next hp =>
      obtain rfl := Option.some.inj h
      exact .flushed hp
    · exact absurd h (by simp)
  | wait events =>
    simp only [EventLoop.step] at h
    split at h
    · next hp =>
      split at h
      · next hcond =>
        obtain rfl := Option.some.inj h
        exact .wait hp hcond.2.1 (List.all_eq_true.mp hcond.2.2)
      · exact absurd h (by simp)
    · exact absurd h (by simp)
  | accept fd =>
    simp only [EventLoop.step] at h
    split at h
    · next events hp =>
      obtain ⟨server, hs, rfl⟩ := Option.map_eq_some_iff.mp h
      exact .accept hp hs
    · exact absurd h (by simp)
  | accepted =>
    simp only [EventLoop.step] at h
    split at h
    · next events hp =>
      obtain rfl := Option.some.inj h
      exact .accepted hp
    · exact absurd h (by simp)
  | read pops =>
    simp only [EventLoop.step] at h
    split at h
    · next fd writable events hp =>
      obtain ⟨s₁, hs₁, rfl⟩ := Option.map_eq_some_iff.mp h
      obtain ⟨client, hc, hs₂⟩ := Option.bind_eq_some_iff.mp hs₁
      obtain ⟨⟨server, messages⟩, hread, rfl⟩ := Option.map_eq_some_iff.mp hs₂
      -- the slot that is read is the one that was looked up
      obtain ⟨client', hc', heq⟩ := Option.map_eq_some_iff.mp hread
      obtain rfl := Option.some.inj (hc.symm.trans hc')
      obtain ⟨rfl, -⟩ := Prod.mk.inj heq
      exact .read hp hc rfl
    · exact absurd h (by simp)
  | write w =>
    simp only [EventLoop.step] at h
    split at h
    · next fd events hp =>
      obtain ⟨server, hs, rfl⟩ := Option.map_eq_some_iff.mp h
      exact .write hp hs
    · exact absurd h (by simp)
  | handled =>
    simp only [EventLoop.step] at h
    split at h
    · next fd events hp =>
      obtain rfl := Option.some.inj h
      exact .handled hp
    · exact absurd h (by simp)
  | cycle =>
    simp only [EventLoop.step] at h
    split at h
    · next hp =>
      obtain rfl := Option.some.inj h
      exact .cycle hp
    · exact absurd h (by simp)

/-! ### Running the loop -/

namespace EventLoop

/-- The step in which `handle_read` is called. -/
theorem step_read {s : EventLoop} {pops : ℕ → ℕ} {fd : Fd} {writable : Bool}
    {events : List PollEvent} {c : ClientState} {r : Reading}
    (hp : s.phase = .handling (.client fd true writable :: events))
    (hc : s.server.clients[fd]? = some c)
    (hr : handleRead (ringRoom pops s.queued) fd (.begin c (s.sockets fd)) = r) :
    s.step (.read pops) = some
      { server := if r.client.active = c.active then s.server.setClient fd r.client
          else s.server.disconnectClient fd
        phase := .handling (.client fd false writable :: events)
        sockets := Function.update s.sockets fd r.arrivals
        queued := ringAfter pops s.queued r.attempts } := by
  subst hr
  simp only [step, hp, read, hc, ExchangeServer.handleRead, Option.map_some, Option.bind_some]

theorem run_cons {s s₁ s₂ : EventLoop} {e : IoStep} {es : List IoStep} (h : s.step e = some s₁)
    (h' : s₁.run es = some s₂) : s.run (e :: es) = some s₂ := by
  rw [run, List.foldlM_cons, h]
  exact h'

end EventLoop

end Exchange
