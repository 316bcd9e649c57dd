import Exchange.EventLoop
import Exchange.SPSCRingBuffer
import Exchange.System

/-!
# The two threads over shared memory

`main.cpp` runs `ExchangeServer::run` and `OrderProcessor::run` in two threads that share
two rings.  Here nothing of this is taken as one step that is not: a call of `try_push` or
`try_pop` is the loads and stores of `SPSCRingBuffer`, `handle_read` is its calls of `recv`
and `try_push`, and between any two steps of one thread the other may take any number of
its own, and anything may arrive on the sockets.

Of the I/O thread, the steps in which no ring is accessed are those of `EventLoop`.  The
processor keeps its book and its routes to itself, so that what it does between a pop and
the first push after it is one step.

## Main definitions

* `ReadPoint`, `Worker` — where the threads are in `handle_read` and `OrderProcessor::run`.
* `Machine`, `MachineStep`, `Machine.step`, `Machine.run` — the threads and their runs.

## Main results

* `Threads.pop_cases`, `Threads.push_cases` — what a step of a call does to the items.
* `Machine.steps` — what a step does.
-/

namespace Exchange

/-- Where the I/O thread is in the loop of `handle_read`: at its top, behind the header
phase, or in `try_push`. -/
inductive ReadPoint
  | header
  | payload
  | push
  deriving DecidableEq, Repr

/-- Where the processor is in its loop: in `try_pop`, with a request that it has popped, or
with messages that it has still to push. -/
inductive Worker
  | popping
  | holding (message : InboundMessage)
  | pushing (outbox : List OutboundMessage)

/-- The request that has been popped. -/
def Worker.held : Worker → List InboundMessage
  | .holding message => [message]
  | _ => []

/-- The messages that are still to be pushed. -/
def Worker.outbox : Worker → List OutboundMessage
  | .pushing outbox => outbox
  | _ => []

/-- The processor goes back to `try_pop` when everything is pushed. -/
def Worker.ofOutbox : List OutboundMessage → Worker
  | [] => .popping
  | m :: ms => .pushing (m :: ms)

/-- The capacity of the rings is `2 ^ ringBits`. -/
def ringBits : Fin 64 := 13

theorem two_pow_ringBits : 2 ^ ringBits.val = DEFAULT_RING_CAPACITY := rfl

/-- The threads, what they share, and what is unread on each socket.  `reading` says where
the I/O thread is in `handle_read`, if it is there; `taken` is a ghost, the bytes that
`recv` has returned for a descriptor so far. -/
structure Machine where
  server : ExchangeServer
  phase : Phase
  reading : Option ReadPoint
  sockets : Fd → List Arrival
  inbound : Threads InboundMessage ringBits
  outbound : Threads OutboundMessage ringBits
  session : Session
  worker : Worker
  taken : Fd → List UInt8

/-- The steps of the two threads and of the other side of the sockets. -/
inductive MachineStep
  /-- A step of `run` in which no ring is accessed, or something arrives on a socket. -/
  | loop (e : IoStep)
  /-- A step of `try_pop` in `drain_outbound_queue`. -/
  | drain (e : RingStep OutboundMessage)
  /-- `handle_read` is called. -/
  | call
  /-- The header phase of a turn of its loop, with its `recv`. -/
  | header
  /-- The payload phase, with its `recv` and up to `try_push`. -/
  | payload
  /-- A step of `try_push` in `handle_read`. -/
  | push (e : RingStep InboundMessage)
  /-- A step of `try_pop` in `OrderProcessor::run`. -/
  | pop (e : RingStep InboundMessage)
  /-- The request that was popped is processed, up to the pushes. -/
  | process (times : Times)
  /-- A step of `try_push` in `OrderProcessor::process`. -/
  | reply (e : RingStep OutboundMessage)

/-- A step of `try_pop`. -/
def RingStep.isPop {α : Type} : RingStep α → Bool
  | .popLoadTail => true
  | .popLoadHead => true
  | .popMove _ => true
  | .popStore => true
  | _ => false

/-- A step of `try_push` of an item. -/
def RingStep.Pushes {α : Type} (item : α) : RingStep α → Prop
  | .pushLoadHead item' => item' = item
  | .pushLoadTail => True
  | .pushWrite => True
  | .pushStore => True
  | _ => False

instance {α : Type} [DecidableEq α] (item : α) : DecidablePred (RingStep.Pushes item) := fun e =>
  match e with
  | .pushLoadHead item' => inferInstanceAs (Decidable (item' = item))
  | .pushLoadTail => isTrue trivial
  | .pushWrite => isTrue trivial
  | .pushStore => isTrue trivial
  | .popLoadTail => isFalse not_false
  | .popLoadHead => isFalse not_false
  | .popMove _ => isFalse not_false
  | .popStore => isFalse not_false

/-- A step of `run` in which no ring is accessed. -/
def IoStep.isLocal : IoStep → Bool
  | .send _ => true
  | .flushed => true
  | .wait _ => true
  | .accept _ => true
  | .accepted => true
  | .write _ => true
  | .handled => true
  | .cycle => true
  | _ => false

/-- Something arrives on a socket. -/
def IoStep.isArrival : IoStep → Bool
  | .arrive _ _ => true
  | _ => false

/-- The frame that `handle_read` pushes. -/
def ClientState.frame (client : ClientState) (fd : Fd) : InboundMessage :=
  ⟨fd, client.messageType, client.readBuffer⟩

namespace Machine

/-- The threads after `start`, over rings with whatever their slots hold. -/
def start (reserved : Fd → Bool) (inbound : Fin (2 ^ ringBits.val) → InboundMessage)
    (outbound : Fin (2 ^ ringBits.val) → OutboundMessage) : Machine where
  server := .start reserved
  phase := .draining
  reading := none
  sockets := fun _ => []
  inbound := .start inbound
  outbound := .start outbound
  session := .empty
  worker := .popping
  taken := fun _ => []

/-- The I/O thread as a state of the event loop. -/
def io (m : Machine) : EventLoop := ⟨m.server, m.phase, m.sockets, m.inbound.items.length⟩

/-- A step of the event loop. -/
def loop (m : Machine) (e : IoStep) : Option Machine :=
  if (m.reading = none ∧ e.isLocal) ∨ e.isArrival then
    (m.io.step e).map fun s =>
      { m with server := s.server, phase := s.phase, sockets := s.sockets }
  else none

/-- After a step of `try_pop` in `drain_outbound_queue`: the body of the loop, or its end. -/
def drained (m : Machine) (outbound : Threads OutboundMessage ringBits) :
    Option (Reply OutboundMessage) → Machine
  | some (.pop (some message)) => { m with outbound, server := m.server.drainMessage message }
  | some (.pop none) => { m with outbound, phase := .flushing m.server.pendingWrites }
  | _ => { m with outbound }

/-- `while (auto result = outbound_queue_.try_pop())`. -/
def drain (m : Machine) (e : RingStep OutboundMessage) : Option Machine :=
  match m.phase with
  | .draining =>
      if e.isPop then (m.outbound.step e).map fun (outbound, result) => m.drained outbound result
      else none
  | _ => none

/-- What `recv` has given is taken off the socket, and the slot is changed or the connection
closed. -/
def received (m : Machine) (fd : Fd) (client : ClientState) (r : Reading) : Machine :=
  { m with
    server := if r.client.active = client.active then m.server.setClient fd r.client
      else m.server.disconnectClient fd
    sockets := Function.update m.sockets fd r.arrivals
    taken := Function.update m.taken fd (m.taken fd ++ r.consumed) }

/-- `handle_read` returns, and the event is handled as far as reading goes. -/
def returned (m : Machine) (fd : Fd) (writable : Bool) (events : List PollEvent) : Machine :=
  { m with reading := none, phase := .handling (.client fd false writable :: events) }

/-- `handle_read` is called. -/
def call (m : Machine) : Option Machine :=
  match m.phase, m.reading with
  | .handling (.client fd true writable :: events), none =>
      (m.server.clients[fd]?).map fun client =>
        if client.active then { m with reading := some .header }
        else m.returned fd writable events
  | _, _ => none

/-- The header phase of `handle_read`. -/
def header (m : Machine) : Option Machine :=
  match m.phase, m.reading with
  | .handling (.client fd true writable :: events), some .header =>
      (m.server.clients[fd]?).map fun client =>
        if client.readPhase = .HEADER then
          match headerPhase (.begin client (m.sockets fd)) with
          | .done r => (m.received fd client r).returned fd writable events
          | .next r => { m.received fd client r with reading := some .payload }
        else { m with reading := some .payload }
  | _, _ => none

/-- The payload phase of `handle_read`, up to `try_push`: with no room in the ring the phase
would end there, after one attempt. -/
def payload (m : Machine) : Option Machine :=
  match m.phase, m.reading with
  | .handling (.client fd true writable :: events), some .payload =>
      (m.server.clients[fd]?).bind fun client =>
        if client.readPhase = .PAYLOAD then
          match payloadPhase (fun _ => false) fd (.begin client (m.sockets fd)) with
          | .done r =>
              if r.attempts = 0 then some ((m.received fd client r).returned fd writable events)
              else some { m.received fd client r with reading := some .push }
          | .next _ => none
        else some { m with reading := some .header }
  | _, _ => none

/-- After a step of `try_push` in `handle_read`: a frame that is pushed is done with, and
without room the call returns. -/
def pushed (m : Machine) (fd : Fd) (writable : Bool) (events : List PollEvent)
    (client : ClientState) (inbound : Threads InboundMessage ringBits) :
    Option (Reply InboundMessage) → Machine
  | some (.push _ true) =>
      { m with
        inbound
        server := m.server.setClient fd { client with readPhase := .HEADER, bytesRead := 0 }
        reading := some .header }
  | some (.push _ false) => returned { m with inbound } fd writable events
  | _ => { m with inbound }

/-- `if (!inbound_queue_.try_push(i_message)) return;`. -/
def push (m : Machine) (e : RingStep InboundMessage) : Option Machine :=
  match m.phase, m.reading with
  | .handling (.client fd true writable :: events), some .push =>
      (m.server.clients[fd]?).bind fun client =>
        if e.Pushes (client.frame fd) then
          (m.inbound.step e).map fun (inbound, result) =>
            m.pushed fd writable events client inbound result
        else none
  | _, _ => none

/-- After a step of `try_pop` in `OrderProcessor::run`. -/
def popped (m : Machine) (inbound : Threads InboundMessage ringBits) :
    Option (Reply InboundMessage) → Machine
  | some (.pop (some message)) => { m with inbound, worker := .holding message }
  | _ => { m with inbound }

/-- `inbound_queue_.try_pop()`. -/
def pop (m : Machine) (e : RingStep InboundMessage) : Option Machine :=
  match m.worker with
  | .popping =>
      if e.isPop then (m.inbound.step e).map fun (inbound, result) => m.popped inbound result
      else none
  | _ => none

/-- The request is processed.  There is no next state when `process` throws, or has no
defined behaviour. -/
def process (m : Machine) (times : Times) : Option Machine :=
  match m.worker with
  | .holding message =>
      match m.session.step (fun _ => 0) ⟨times, message⟩ with
      | .error _ => none
      | .ok session =>
          some { m with
            session
            worker := .ofOutbox (session.pushed.drop m.session.pushed.length) }
  | _ => none

/-- After a step of `try_push` in `OrderProcessor::process`. -/
def replied (m : Machine) (outbox : List OutboundMessage)
    (outbound : Threads OutboundMessage ringBits) : Option (Reply OutboundMessage) → Machine
  | some (.push _ true) => { m with outbound, worker := .ofOutbox outbox }
  | _ => { m with outbound }

/-- `while (!outbound_queue_.try_push(o_message)) yield`. -/
def reply (m : Machine) (e : RingStep OutboundMessage) : Option Machine :=
  match m.worker with
  | .pushing (message :: outbox) =>
      if e.Pushes message then
        (m.outbound.step e).map fun (outbound, result) => m.replied outbox outbound result
      else none
  | _ => none

/-- A step, if the thread is there in its program. -/
def step (m : Machine) : MachineStep → Option Machine
  | .loop e => m.loop e
  | .drain e => m.drain e
  | .call => m.call
  | .header => m.header
  | .payload => m.payload
  | .push e => m.push e
  | .pop e => m.pop e
  | .process times => m.process times
  | .reply e => m.reply e

/-- A run from the start. -/
def run (reserved : Fd → Bool) (inbound : Fin (2 ^ ringBits.val) → InboundMessage)
    (outbound : Fin (2 ^ ringBits.val) → OutboundMessage) (steps : List MachineStep) :
    Option Machine :=
  steps.foldlM step (start reserved inbound outbound)

end Machine

/-! ### The calls of the rings -/

/-- A producer that is in `try_push` is there with the item. -/
def Producer.Holds {α : Type} (item : α) : Producer α → Prop
  | .idle => True
  | .loaded item' _ => item' = item
  | .passed item' _ => item' = item
  | .written item' _ => item' = item

namespace Threads

variable {α : Type} {k : Fin 64} {s s' : Threads α k} {e : RingStep α} {result : Option (Reply α)}

/-- **A step of `try_pop`**: the call goes on, or finds the ring empty, or returns the first
item.  The producer is left alone. -/
theorem pop_cases (h : s.Inv) (he : e.isPop = true) (hs : s.step e = some (s', result)) :
    s'.producer = s.producer ∧
      (result = none ∧ s'.items = s.items ∨
        result = some (.pop none) ∧ s'.items = s.items ∨
        ∃ item, result = some (.pop (some item)) ∧ s.items = item :: s'.items) := by
  have hlin := h.linearized hs
  cases steps hs with
  | pushLoadHead item hp => exact absurd he Bool.false_ne_true
  | pushFull hp hfull => exact absurd he Bool.false_ne_true
  | pushPass hp hroom => exact absurd he Bool.false_ne_true
  | pushWrite hp => exact absurd he Bool.false_ne_true
  | pushStore hp => exact absurd he Bool.false_ne_true
  | popLoadTail hc => exact ⟨rfl, Or.inl ⟨rfl, rfl⟩⟩
  | popEmpty hc hempty => exact ⟨rfl, Or.inr (Or.inl ⟨rfl, rfl⟩)⟩
  | popPass hc hsome => exact ⟨rfl, Or.inl ⟨rfl, rfl⟩⟩
  | popMove residue hc => exact ⟨rfl, Or.inl ⟨rfl, rfl⟩⟩
  | @popStore tail item hc =>
    refine ⟨rfl, Or.inr (Or.inr ⟨item, rfl, ?_⟩)⟩
    cases hlin with
    | pop hpop =>
      cases hitems : s.items with
      | nil => rw [hitems] at hpop; exact absurd (Prod.mk.inj hpop).1 (by simp)
      | cons item' q =>
        rw [hitems] at hpop
        obtain ⟨hitem, hq⟩ := Prod.mk.inj hpop
        rw [Option.some.inj hitem, ← hq]

/-- **A step of `try_push`** of an item: the call goes on, or finds the ring full, or adds
the item. -/
theorem push_cases (h : s.Inv) {item : α} (he : e.Pushes item) (hp : s.producer.Holds item)
    (hs : s.step e = some (s', result)) :
    result = none ∧ s'.items = s.items ∧ s'.producer.Holds item ∨
      result = some (.push item false) ∧ s'.items = s.items ∧ s'.producer = .idle ∧
        s.items.length = 2 ^ k.val ∨
      result = some (.push item true) ∧ s'.items = s.items ++ [item] ∧ s'.producer = .idle := by
  have hlin := h.linearized hs
  cases steps hs with
  | pushLoadHead item' hidle => exact Or.inl ⟨rfl, rfl, he⟩
  | @pushFull item' head hloaded hfull =>
    rw [hloaded] at hp
    obtain rfl : item' = item := hp
    have heq := h.full hloaded hfull
    exact Or.inr (Or.inl ⟨rfl, rfl, rfl,
      by rw [Inv.length_items, heq, Nat.add_sub_cancel_left]⟩)
  | pushPass hloaded hroom =>
    rw [hloaded] at hp
    exact Or.inl ⟨rfl, rfl, hp⟩
  | pushWrite hpassed =>
    rw [hpassed] at hp
    exact Or.inl ⟨rfl, rfl, hp⟩
  | @pushStore item' head hwritten =>
    rw [hwritten] at hp
    obtain rfl : item' = item := hp
    refine Or.inr (Or.inr ⟨rfl, ?_, rfl⟩)
    cases hlin with
    | push hpush =>
      unfold BoundedQueue.push at hpush
      split at hpush
      · exact absurd (Prod.mk.inj hpush).1 (by simp)
      · exact (Prod.mk.inj hpush).2.symm
  | popLoadTail hc => exact he.elim
  | popEmpty hc hempty => exact he.elim
  | popPass hc hsome => exact he.elim
  | popMove residue hc => exact he.elim
  | popStore hc => exact he.elim

end Threads

/-! ### What one step does -/

/-- What a step does, said once. -/
inductive MachineSteps (m : Machine) : MachineStep → Machine → Prop
  | loop {e : IoStep} {s : EventLoop}
      (hfree : m.reading = none ∧ e.isLocal = true ∨ e.isArrival = true)
      (hs : m.io.step e = some s) :
      MachineSteps m (.loop e)
        { m with server := s.server, phase := s.phase, sockets := s.sockets }
  | drain {e : RingStep OutboundMessage} {outbound : Threads OutboundMessage ringBits}
      {result : Option (Reply OutboundMessage)} (hp : m.phase = .draining) (he : e.isPop = true)
      (hs : m.outbound.step e = some (outbound, result)) :
      MachineSteps m (.drain e) (m.drained outbound result)
  | callOpen {fd : Fd} {writable : Bool} {events : List PollEvent} {client : ClientState}
      (hp : m.phase = .handling (.client fd true writable :: events)) (hr : m.reading = none)
      (hc : m.server.clients[fd]? = some client) (hactive : client.active = true) :
      MachineSteps m .call { m with reading := some .header }
  | callClosed {fd : Fd} {writable : Bool} {events : List PollEvent} {client : ClientState}
      (hp : m.phase = .handling (.client fd true writable :: events)) (hr : m.reading = none)
      (hc : m.server.clients[fd]? = some client) (hactive : client.active = false) :
      MachineSteps m .call (m.returned fd writable events)
  | headerDone {fd : Fd} {writable : Bool} {events : List PollEvent} {client : ClientState}
      {r : Reading} (hp : m.phase = .handling (.client fd true writable :: events))
      (hr : m.reading = some .header) (hc : m.server.clients[fd]? = some client)
      (hphase : client.readPhase = .HEADER)
      (hdone : headerPhase (.begin client (m.sockets fd)) = .done r) :
      MachineSteps m .header ((m.received fd client r).returned fd writable events)
  | headerNext {fd : Fd} {writable : Bool} {events : List PollEvent} {client : ClientState}
      {r : Reading} (hp : m.phase = .handling (.client fd true writable :: events))
      (hr : m.reading = some .header) (hc : m.server.clients[fd]? = some client)
      (hphase : client.readPhase = .HEADER)
      (hnext : headerPhase (.begin client (m.sockets fd)) = .next r) :
      MachineSteps m .header { m.received fd client r with reading := some .payload }
  | headerSkip {fd : Fd} {writable : Bool} {events : List PollEvent} {client : ClientState}
      (hp : m.phase = .handling (.client fd true writable :: events))
      (hr : m.reading = some .header) (hc : m.server.clients[fd]? = some client)
      (hphase : client.readPhase ≠ .HEADER) :
      MachineSteps m .header { m with reading := some .payload }
  | payloadDone {fd : Fd} {writable : Bool} {events : List PollEvent} {client : ClientState}
      {r : Reading} (hp : m.phase = .handling (.client fd true writable :: events))
      (hr : m.reading = some .payload) (hc : m.server.clients[fd]? = some client)
      (hphase : client.readPhase = .PAYLOAD)
      (hdone : payloadPhase (fun _ => false) fd (.begin client (m.sockets fd)) = .done r)
      (hattempts : r.attempts = 0) :
      MachineSteps m .payload ((m.received fd client r).returned fd writable events)
  | payloadFull {fd : Fd} {writable : Bool} {events : List PollEvent} {client : ClientState}
      {r : Reading} (hp : m.phase = .handling (.client fd true writable :: events))
      (hr : m.reading = some .payload) (hc : m.server.clients[fd]? = some client)
      (hphase : client.readPhase = .PAYLOAD)
      (hdone : payloadPhase (fun _ => false) fd (.begin client (m.sockets fd)) = .done r)
      (hattempts : r.attempts ≠ 0) :
      MachineSteps m .payload { m.received fd client r with reading := some .push }
  | payloadSkip {fd : Fd} {writable : Bool} {events : List PollEvent} {client : ClientState}
      (hp : m.phase = .handling (.client fd true writable :: events))
      (hr : m.reading = some .payload) (hc : m.server.clients[fd]? = some client)
      (hphase : client.readPhase ≠ .PAYLOAD) :
      MachineSteps m .payload { m with reading := some .header }
  | push {e : RingStep InboundMessage} {fd : Fd} {writable : Bool} {events : List PollEvent}
      {client : ClientState} {inbound : Threads InboundMessage ringBits}
      {result : Option (Reply InboundMessage)}
      (hp : m.phase = .handling (.client fd true writable :: events))
      (hr : m.reading = some .push) (hc : m.server.clients[fd]? = some client)
      (he : e.Pushes (client.frame fd)) (hs : m.inbound.step e = some (inbound, result)) :
      MachineSteps m (.push e) (m.pushed fd writable events client inbound result)
  | pop {e : RingStep InboundMessage} {inbound : Threads InboundMessage ringBits}
      {result : Option (Reply InboundMessage)} (hw : m.worker = .popping) (he : e.isPop = true)
      (hs : m.inbound.step e = some (inbound, result)) :
      MachineSteps m (.pop e) (m.popped inbound result)
  | process {times : Times} {message : InboundMessage} {session : Session}
      (hw : m.worker = .holding message)
      (hs : m.session.step (fun _ => 0) ⟨times, message⟩ = .ok session) :
      MachineSteps m (.process times)
        { m with
          session, worker := .ofOutbox (session.pushed.drop m.session.pushed.length) }
  | reply {e : RingStep OutboundMessage} {message : OutboundMessage}
      {outbox : List OutboundMessage} {outbound : Threads OutboundMessage ringBits}
      {result : Option (Reply OutboundMessage)} (hw : m.worker = .pushing (message :: outbox))
      (he : e.Pushes message) (hs : m.outbound.step e = some (outbound, result)) :
      MachineSteps m (.reply e) (m.replied outbox outbound result)

theorem Machine.steps {m m' : Machine} {e : MachineStep} (h : m.step e = some m') :
    MachineSteps m e m' := by
  cases e with
  | loop e =>
    simp only [Machine.step, Machine.loop] at h
    split at h
    · next hfree =>
      obtain ⟨s, hs, rfl⟩ := Option.map_eq_some_iff.mp h
      exact .loop hfree hs
    · exact absurd h (by simp)
  | drain e =>
    simp only [Machine.step, Machine.drain] at h
    split at h
    · next hp =>
      split at h
      · next he =>
        obtain ⟨⟨outbound, result⟩, hs, rfl⟩ := Option.map_eq_some_iff.mp h
        exact .drain hp he hs
      · exact absurd h (by simp)
    · exact absurd h (by simp)
  | call =>
    simp only [Machine.step, Machine.call] at h
    split at h
    · next fd writable events hp hr =>
      obtain ⟨client, hc, rfl⟩ := Option.map_eq_some_iff.mp h
      cases hactive : client.active with
      | true => exact .callOpen hp hr hc hactive
      | false => exact .callClosed hp hr hc hactive
    · exact absurd h (by simp)
  | header =>
    simp only [Machine.step, Machine.header] at h
    split at h
    · next fd writable events hp hr =>
      obtain ⟨client, hc, rfl⟩ := Option.map_eq_some_iff.mp h
      by_cases hphase : client.readPhase = .HEADER
      · rw [if_pos hphase]
        cases hflow : headerPhase (.begin client (m.sockets fd)) with
        | done r => exact .headerDone hp hr hc hphase hflow
        | next r => exact .headerNext hp hr hc hphase hflow
      · rw [if_neg hphase]
        exact .headerSkip hp hr hc hphase
    · exact absurd h (by simp)
  | payload =>
    simp only [Machine.step, Machine.payload] at h
    split at h
    · next fd writable events hp hr =>
      obtain ⟨client, hc, h⟩ := Option.bind_eq_some_iff.mp h
      split at h
      · next hphase =>
        split at h
        · next r hflow =>
          split at h
          · next hattempts =>
            obtain rfl := Option.some.inj h
            exact .payloadDone hp hr hc hphase hflow hattempts
          · next hattempts =>
            obtain rfl := Option.some.inj h
            exact .payloadFull hp hr hc hphase hflow hattempts
        · exact absurd h (by simp)
      · next hphase =>
        obtain rfl := Option.some.inj h
        exact .payloadSkip hp hr hc hphase
    · exact absurd h (by simp)
  | push e =>
    simp only [Machine.step, Machine.push] at h
    split at h
    · next fd writable events hp hr =>
      obtain ⟨client, hc, h⟩ := Option.bind_eq_some_iff.mp h
      split at h
      · next he =>
        obtain ⟨⟨inbound, result⟩, hs, rfl⟩ := Option.map_eq_some_iff.mp h
        exact .push hp hr hc he hs
      · exact absurd h (by simp)
    · exact absurd h (by simp)
  | pop e =>
    simp only [Machine.step, Machine.pop] at h
    split at h
    · next hw =>
      split at h
      · next he =>
        obtain ⟨⟨inbound, result⟩, hs, rfl⟩ := Option.map_eq_some_iff.mp h
        exact .pop hw he hs
      · exact absurd h (by simp)
    · exact absurd h (by simp)
  | process times =>
    simp only [Machine.step, Machine.process] at h
    split at h
    · next message hw =>
      split at h
      · exact absurd h (by simp)
      · next session hs =>
        obtain rfl := Option.some.inj h
        exact .process hw hs
    · exact absurd h (by simp)
  | reply e =>
    simp only [Machine.step, Machine.reply] at h
    split at h
    · next message outbox hw =>
      split at h
      · next he =>
        obtain ⟨⟨outbound, result⟩, hs, rfl⟩ := Option.map_eq_some_iff.mp h
        exact .reply hw he hs
      · exact absurd h (by simp)
    · exact absurd h (by simp)

end Exchange
