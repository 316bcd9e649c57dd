import Exchange.Machine.Parts
import Exchange.Server.Consistency

/-!
# The invariant of the threads

What each thread relies on while the other one goes on: the rings satisfy their invariant;
the slot that `handle_read` works on is open until the call returns, and the frame that it
pushes is the one in the slot; the processor pushes the first of its messages; and every
descriptor that is pending has a slot.

## Main definitions

* `Machine.ReaderKnows`, `Machine.WorkerKnows` — what the threads know where they are.
* `Machine.Inv` — the invariant of the states between steps.

## Main results

* `Machine.Inv.step` — a step of the threads keeps the invariant.
-/

namespace Exchange

open ExchangeServer

namespace Machine

/-- What the I/O thread knows in `handle_read`: the slot that it reads is open, and a frame
that is complete is the one that it is pushing. -/
def PointKnows (m : Machine) (fd : Fd) (client : ClientState) : ReadPoint → Prop
  | .push =>
      client.readPhase = .PAYLOAD ∧ ¬ client.bytesRead < client.payloadLength.toNat ∧
        m.inbound.producer.Holds (client.frame fd)
  | _ => m.inbound.producer = .idle

/-- What the I/O thread knows. -/
def ReaderKnows (m : Machine) : Prop :=
  match m.reading with
  | none => m.inbound.producer = .idle
  | some point => ∃ fd writable events client,
      m.phase = .handling (.client fd true writable :: events) ∧
        m.server.clients[fd]? = some client ∧ client.active = true ∧
        m.PointKnows fd client point

/-- What the processor knows: it pushes the first of its messages. -/
def WorkerKnows (m : Machine) : Prop :=
  match m.worker with
  | .pushing (message :: _) => m.outbound.producer.Holds message
  | _ => m.outbound.producer = .idle

/-- The invariant of the states between steps. -/
structure Inv (m : Machine) : Prop where
  inbound : m.inbound.Inv
  outbound : m.outbound.Inv
  pending : ∀ fd ∈ m.server.pendingWrites, fd < m.server.clients.length
  reader : m.ReaderKnows
  worker : m.WorkerKnows

variable {m : Machine}

theorem Inv.idle (h : m.Inv) (hr : m.reading = none) : m.inbound.producer = .idle := by
  have hknows := h.reader
  rw [ReaderKnows, hr] at hknows
  exact hknows

theorem readerKnows_none (hr : m.reading = none) (hidle : m.inbound.producer = .idle) :
    m.ReaderKnows := by
  rw [ReaderKnows, hr]
  exact hidle

/-- What the I/O thread knows where it is in `handle_read`. -/
theorem Inv.reading {point : ReadPoint} {fd : Fd} {writable : Bool} {events : List PollEvent}
    {client : ClientState} (h : m.Inv) (hr : m.reading = some point)
    (hp : m.phase = .handling (.client fd true writable :: events))
    (hc : m.server.clients[fd]? = some client) :
    client.active = true ∧ m.PointKnows fd client point := by
  have hknows := h.reader
  rw [ReaderKnows, hr] at hknows
  obtain ⟨fd', writable', events', client', hp', hc', hactive, hpoint⟩ := hknows
  -- the phase determines the descriptor, and the descriptor the slot
  rw [hp] at hp'
  simp only [Phase.handling.injEq, List.cons.injEq, PollEvent.client.injEq] at hp'
  obtain ⟨⟨rfl, -, -⟩, -⟩ := hp'
  obtain rfl := Option.some.inj (hc.symm.trans hc')
  exact ⟨hactive, hpoint⟩

theorem readerKnows_some {point : ReadPoint} {fd : Fd} {writable : Bool} {events : List PollEvent}
    {client : ClientState} (hr : m.reading = some point)
    (hp : m.phase = .handling (.client fd true writable :: events))
    (hc : m.server.clients[fd]? = some client) (hactive : client.active = true)
    (hpoint : m.PointKnows fd client point) : m.ReaderKnows := by
  rw [ReaderKnows, hr]
  exact ⟨fd, writable, events, client, hp, hc, hactive, hpoint⟩

/-- A call of `handle_read` is not under way where the thread drains. -/
theorem Inv.reading_of_draining (h : m.Inv) (hp : m.phase = .draining) : m.reading = none := by
  cases hr : m.reading with
  | none => rfl
  | some point =>
    have hknows := h.reader
    rw [ReaderKnows, hr] at hknows
    obtain ⟨fd, writable, events, client, hp', -⟩ := hknows
    exact absurd (hp.symm.trans hp') (by simp)

theorem inv_start (reserved : Fd → Bool) (inbound : Fin (2 ^ ringBits.val) → InboundMessage)
    (outbound : Fin (2 ^ ringBits.val) → OutboundMessage) :
    (start reserved inbound outbound).Inv where
  inbound := .start inbound
  outbound := .start outbound
  pending := fun _ hfd => absurd hfd List.not_mem_nil
  reader := rfl
  worker := rfl

/-- A step of the event loop. -/
theorem Inv.loop (h : m.Inv) {e : IoStep} {s : EventLoop}
    (hfree : m.reading = none ∧ e.isLocal = true ∨ e.isArrival = true)
    (hs : m.io.step e = some s) :
    Inv { m with server := s.server, phase := s.phase, sockets := s.sockets } := by
  -- outside `handle_read` it is enough to look at the pending descriptors
  have hidle : m.reading = none → ∀ s' : EventLoop,
      (∀ fd ∈ s'.server.pendingWrites, fd < s'.server.clients.length) →
      Inv { m with server := s'.server, phase := s'.phase, sockets := s'.sockets } := by
    intro hr s' hpending
    exact ⟨h.inbound, h.outbound, hpending,
      readerKnows_none hr (h.idle hr), h.worker⟩
  have htouch : ∀ {fd : Fd} {server : ExchangeServer}, Touches fd m.server server →
      ∀ fd' ∈ server.pendingWrites, fd' < server.clients.length := by
    intro fd server ht fd' hfd'
    rw [ht.pending] at hfd'
    rw [ht.length]
    exact h.pending fd' hfd'
  cases EventLoop.steps hs with
  | drain message hp => exact absurd hfree (by simp [IoStep.isLocal, IoStep.isArrival])
  | drained hp => exact absurd hfree (by simp [IoStep.isLocal, IoStep.isArrival])
  | read hp hc hr => exact absurd hfree (by simp [IoStep.isLocal, IoStep.isArrival])
  | pop n => exact absurd hfree (by simp [IoStep.isLocal, IoStep.isArrival])
  | send hp hsend =>
    obtain ⟨hr, -⟩ | harrive := hfree
    · exact hidle hr _ (htouch (.trySend hsend))
    · exact absurd harrive Bool.false_ne_true
  | flushed hp =>
    obtain ⟨hr, -⟩ | harrive := hfree
    · exact hidle hr _ fun fd hfd => absurd hfd List.not_mem_nil
    · exact absurd harrive Bool.false_ne_true
  | wait hp _ _ =>
    obtain ⟨hr, -⟩ | harrive := hfree
    · exact hidle hr _ h.pending
    · exact absurd harrive Bool.false_ne_true
  | accept hp haccept =>
    obtain ⟨hr, -⟩ | harrive := hfree
    · obtain ⟨-, hle, hpending⟩ := length_acceptClient haccept
      refine hidle hr _ fun fd hfd => ?_
      rw [hpending] at hfd
      exact Nat.lt_of_lt_of_le (h.pending fd hfd) hle
    · exact absurd harrive Bool.false_ne_true
  | accepted hp =>
    obtain ⟨hr, -⟩ | harrive := hfree
    · exact hidle hr _ h.pending
    · exact absurd harrive Bool.false_ne_true
  | write hp hwrite =>
    obtain ⟨hr, -⟩ | harrive := hfree
    · exact hidle hr _ (htouch (.handleWrite hwrite))
    · exact absurd harrive Bool.false_ne_true
  | handled hp =>
    obtain ⟨hr, -⟩ | harrive := hfree
    · exact hidle hr _ h.pending
    · exact absurd harrive Bool.false_ne_true
  | cycle hp =>
    obtain ⟨hr, -⟩ | harrive := hfree
    · exact hidle hr _ h.pending
    · exact absurd harrive Bool.false_ne_true
  | arrive fd ha => exact ⟨h.inbound, h.outbound, h.pending, h.reader, h.worker⟩

/-- A step of the processor at the inbound ring leaves the I/O thread alone. -/
theorem ReaderKnows.congr {inbound : Threads InboundMessage ringBits} {worker : Worker}
    (h : m.ReaderKnows) (hprod : inbound.producer = m.inbound.producer) :
    ReaderKnows { m with inbound, worker } := by
  unfold ReaderKnows at h ⊢
  cases hr : m.reading with
  | none =>
    rw [hr] at h
    exact hprod.trans h
  | some point =>
    rw [hr] at h
    obtain ⟨fd, writable, events, client, hp, hc, hactive, hpoint⟩ := h
    refine ⟨fd, writable, events, client, hp, hc, hactive, ?_⟩
    cases point with
    | header => exact hprod.trans hpoint
    | payload => exact hprod.trans hpoint
    | push =>
      refine ⟨hpoint.1, hpoint.2.1, ?_⟩
      show inbound.producer.Holds _
      rw [hprod]
      exact hpoint.2.2

/-- A step of the I/O thread at the outbound ring leaves the processor alone. -/
theorem WorkerKnows.congr {m' : Machine} (h : m.WorkerKnows) (hw : m'.worker = m.worker)
    (hprod : m'.outbound.producer = m.outbound.producer) : m'.WorkerKnows := by
  rw [WorkerKnows, hw, hprod]
  exact h

/-- A producer that is idle may push anything next. -/
theorem workerKnows_ofOutbox {outbox : List OutboundMessage}
    (hw : m.worker = .ofOutbox outbox) (hidle : m.outbound.producer = .idle) :
    m.WorkerKnows := by
  rw [WorkerKnows, hw]
  cases outbox with
  | nil => exact hidle
  | cons message outbox =>
    show m.outbound.producer.Holds message
    rw [hidle]
    trivial

/-- A message that is drained makes no descriptor pending that has no slot. -/
theorem pending_drainMessage {s : ExchangeServer}
    (h : ∀ fd ∈ s.pendingWrites, fd < s.clients.length) (message : OutboundMessage) :
    ∀ fd ∈ (s.drainMessage message).pendingWrites,
      fd < (s.drainMessage message).clients.length := by
  rcases drainMessage_cases s message with ⟨-, heq⟩ | ⟨client, hc, -, -, heq⟩
  · rw [heq]
    exact h
  · intro fd hfd
    rw [heq] at hfd ⊢
    show fd < (s.clients.set _ _).length
    rw [List.length_set]
    rcases List.mem_append.mp hfd with hfd | hfd
    · exact h fd hfd
    · rw [List.mem_singleton.mp hfd]
      exact (List.getElem?_eq_some_iff.mp hc).1

/-- A step of `drain_outbound_queue`. -/
theorem Inv.drained (h : m.Inv) {e : RingStep OutboundMessage}
    {outbound : Threads OutboundMessage ringBits} {result : Option (Reply OutboundMessage)}
    (hp : m.phase = .draining) (he : e.isPop = true)
    (hs : m.outbound.step e = some (outbound, result)) : (m.drained outbound result).Inv := by
  have hr := h.reading_of_draining hp
  have hidle := h.idle hr
  obtain ⟨hprod, ⟨rfl, -⟩ | ⟨rfl, -⟩ | ⟨message, rfl, -⟩⟩ := Threads.pop_cases h.outbound he hs
  · exact ⟨h.inbound, h.outbound.step hs, h.pending, readerKnows_none hr hidle,
      h.worker.congr rfl hprod⟩
  · exact ⟨h.inbound, h.outbound.step hs, h.pending, readerKnows_none hr hidle,
      h.worker.congr rfl hprod⟩
  · exact ⟨h.inbound, h.outbound.step hs, pending_drainMessage h.pending message,
      readerKnows_none hr hidle, h.worker.congr rfl hprod⟩

/-- What is received is written to a slot that is there. -/
theorem pending_received (h : m.Inv) (fd : Fd) (client : ClientState) (r : Reading) :
    ∀ fd' ∈ (m.received fd client r).server.pendingWrites,
      fd' < (m.received fd client r).server.clients.length := by
  have hkeep : (m.received fd client r).server.pendingWrites = m.server.pendingWrites ∧
      (m.received fd client r).server.clients.length = m.server.clients.length := by
    unfold received
    split
    · exact ⟨rfl, List.length_set⟩
    · exact ⟨rfl, List.length_set⟩
  rw [hkeep.1, hkeep.2]
  exact h.pending

/-- `handle_read` returns. -/
theorem Inv.returned (h : m.Inv) {fd : Fd} {writable : Bool} {events : List PollEvent}
    {client : ClientState} (r : Reading) (hidle : m.inbound.producer = .idle) :
    ((m.received fd client r).returned fd writable events).Inv :=
  ⟨h.inbound, h.outbound, pending_received h fd client r, readerKnows_none rfl hidle, h.worker⟩

/-- `handle_read` goes on with a slot that is open. -/
theorem Inv.goesOn (h : m.Inv) {fd : Fd} {writable : Bool} {events : List PollEvent}
    {client : ClientState} {r : Reading} {point : ReadPoint}
    (hp : m.phase = .handling (.client fd true writable :: events))
    (hc : m.server.clients[fd]? = some client) (hactive : client.active = true)
    (hopen : r.client.active = client.active) (hpoint : m.PointKnows fd r.client point) :
    Inv { m.received fd client r with reading := some point } := by
  have hlt : fd < m.server.clients.length := (List.getElem?_eq_some_iff.mp hc).1
  have hslot : (m.received fd client r).server.clients[fd]? = some r.client := by
    show (ite _ _ _ : ExchangeServer).clients[fd]? = some r.client
    rw [if_pos hopen, setClient, List.getElem?_set, if_pos rfl, if_pos hlt]
  exact ⟨h.inbound, h.outbound, pending_received h fd client r,
    readerKnows_some rfl hp hslot (hopen.trans hactive) hpoint, h.worker⟩

/-- A payload phase that comes to the push has a frame that is complete. -/
theorem payloadPhase_full {fd : Fd} {c : ClientState} {arrivals : List Arrival} {r : Reading}
    (h : payloadPhase (fun _ => false) fd (.begin c arrivals) = .done r)
    (hattempts : r.attempts ≠ 0) :
    r.client.active = c.active ∧ r.client.readPhase = c.readPhase ∧
      ¬ r.client.bytesRead < r.client.payloadLength.toNat := by
  unfold payloadPhase at h
  split at h
  · dsimp only at h
    split at h
    · split at h
      · obtain rfl := Flow.done.inj h
        exact absurd rfl hattempts
      · next hfull =>
        obtain rfl := Flow.done.inj h
        exact ⟨rfl, rfl, hfull⟩
    · obtain rfl := Flow.done.inj h
      exact absurd rfl hattempts
    · obtain rfl := Flow.done.inj h
      exact absurd rfl hattempts
    · obtain rfl := Flow.done.inj h
      exact absurd rfl hattempts
  · next hfull =>
    obtain rfl := Flow.done.inj h
    exact ⟨rfl, rfl, hfull⟩

/-- A step of the push in `handle_read`. -/
theorem Inv.pushed (h : m.Inv) {e : RingStep InboundMessage} {fd : Fd} {writable : Bool}
    {events : List PollEvent} {client : ClientState} {inbound : Threads InboundMessage ringBits}
    {result : Option (Reply InboundMessage)}
    (hp : m.phase = .handling (.client fd true writable :: events))
    (hr : m.reading = some .push) (hc : m.server.clients[fd]? = some client)
    (he : e.Pushes (client.frame fd)) (hs : m.inbound.step e = some (inbound, result)) :
    (m.pushed fd writable events client inbound result).Inv := by
  obtain ⟨hactive, hphase, hfull, hholds⟩ := h.reading hr hp hc
  have hlt : fd < m.server.clients.length := (List.getElem?_eq_some_iff.mp hc).1
  rcases Threads.push_cases h.inbound he hholds hs with
    ⟨rfl, -, hholds'⟩ | ⟨rfl, -, hidle, -⟩ | ⟨rfl, -, hidle⟩
  · exact ⟨h.inbound.step hs, h.outbound, h.pending,
      readerKnows_some hr hp hc hactive ⟨hphase, hfull, hholds'⟩, h.worker⟩
  · exact ⟨h.inbound.step hs, h.outbound, h.pending, readerKnows_none rfl hidle, h.worker⟩
  · have hslot : (m.server.setClient fd { client with
        readPhase := .HEADER, bytesRead := 0 }).clients[fd]?
        = some { client with readPhase := .HEADER, bytesRead := 0 } := by
      rw [setClient, List.getElem?_set, if_pos rfl, if_pos hlt]
    refine ⟨h.inbound.step hs, h.outbound, fun fd' hfd' => ?_,
      readerKnows_some rfl hp hslot hactive hidle, h.worker⟩
    show fd' < (m.server.clients.set _ _).length
    rw [List.length_set]
    exact h.pending fd' hfd'

/-- **A step of the threads keeps the invariant.** -/
theorem Inv.step {m' : Machine} {e : MachineStep} (h : m.Inv) (hstep : m.step e = some m') :
    m'.Inv := by
  cases Machine.steps hstep with
  | loop hfree hs => exact h.loop hfree hs
  | drain hp he hs => exact h.drained hp he hs
  | callOpen hp hr hc hactive =>
    exact ⟨h.inbound, h.outbound, h.pending,
      readerKnows_some rfl hp hc hactive (h.idle hr), h.worker⟩
  | callClosed hp hr hc hactive =>
    exact ⟨h.inbound, h.outbound, h.pending, readerKnows_none rfl (h.idle hr), h.worker⟩
  | headerDone hp hr hc hphase hdone => exact h.returned _ (h.reading hr hp hc).2
  | headerNext hp hr hc hphase hnext =>
    obtain ⟨hactive, hidle⟩ := h.reading hr hp hc
    obtain ⟨c₀, hc₀, hopen⟩ := exists_of_headerPhase_next hnext
    refine h.goesOn hp hc hactive ?_ hidle
    rw [hc₀, decodeHeader_active]
    exact hopen
  | headerSkip hp hr hc hphase =>
    obtain ⟨hactive, hidle⟩ := h.reading hr hp hc
    exact ⟨h.inbound, h.outbound, h.pending, readerKnows_some rfl hp hc hactive hidle, h.worker⟩
  | payloadDone hp hr hc hphase hdone _ => exact h.returned _ (h.reading hr hp hc).2
  | payloadFull hp hr hc hphase hdone hattempts =>
    obtain ⟨hactive, hidle⟩ := h.reading hr hp hc
    obtain ⟨hopen, hsame, hfull⟩ := payloadPhase_full hdone hattempts
    refine h.goesOn hp hc hactive hopen ⟨hsame.trans hphase, hfull, ?_⟩
    rw [show m.inbound.producer = .idle from hidle]
    trivial
  | payloadSkip hp hr hc hphase =>
    obtain ⟨hactive, hidle⟩ := h.reading hr hp hc
    exact ⟨h.inbound, h.outbound, h.pending, readerKnows_some rfl hp hc hactive hidle, h.worker⟩
  | push hp hr hc he hs => exact h.pushed hp hr hc he hs
  | pop hw he hs =>
    have hidle : m.outbound.producer = .idle := by
      have hknows := h.worker
      rw [WorkerKnows, hw] at hknows
      exact hknows
    obtain ⟨hprod, ⟨rfl, -⟩ | ⟨rfl, -⟩ | ⟨message, rfl, -⟩⟩ :=
      Threads.pop_cases h.inbound he hs
    · exact ⟨h.inbound.step hs, h.outbound, h.pending, h.reader.congr hprod,
        h.worker.congr rfl rfl⟩
    · exact ⟨h.inbound.step hs, h.outbound, h.pending, h.reader.congr hprod,
        h.worker.congr rfl rfl⟩
    · exact ⟨h.inbound.step hs, h.outbound, h.pending, h.reader.congr hprod, hidle⟩
  | process hw hs =>
    have hidle : m.outbound.producer = .idle := by
      have hknows := h.worker
      rw [WorkerKnows, hw] at hknows
      exact hknows
    exact ⟨h.inbound, h.outbound, h.pending, h.reader, workerKnows_ofOutbox rfl hidle⟩
  | @reply e message outbox outbound result hw he hs =>
    have hholds : m.outbound.producer.Holds message := by
      have hknows := h.worker
      rw [WorkerKnows, hw] at hknows
      exact hknows
    have hstill : outbound.producer.Holds message →
        WorkerKnows { m with outbound := outbound } := by
      intro hknows
      rw [WorkerKnows]
      simp only [hw]
      exact hknows
    rcases Threads.push_cases h.outbound he hholds hs with
      ⟨rfl, -, hholds'⟩ | ⟨rfl, -, hidle, -⟩ | ⟨rfl, -, hidle⟩
    · exact ⟨h.inbound, h.outbound.step hs, h.pending, h.reader, hstill hholds'⟩
    · -- the ring is full, and the push is tried again
      refine ⟨h.inbound, h.outbound.step hs, h.pending, h.reader, hstill ?_⟩
      rw [hidle]
      trivial
    · exact ⟨h.inbound, h.outbound.step hs, h.pending, h.reader, workerKnows_ofOutbox rfl hidle⟩

end Machine

end Exchange
