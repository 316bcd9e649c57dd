import Exchange.ExchangeServer
import Exchange.Processor.Runs

/-!
# The exchange as a whole

The I/O thread and the processor thread, with the two rings between them.  A step is a
step of one of the threads, and a run is any sequence of steps.  The rings are the
messages in them, oldest first; a push that finds a ring full leaves everything as it
was and is no step.  The processor pushes the messages of a request one after another,
so that the I/O thread may come in between: those it has still to push are in `outbox`.

Everything in the rings, and every route, names a connection by its descriptor alone.
The ghosts say which connection is meant: connections are numbered as they are accepted,
a request carries the number of the connection it was read from, and an outgoing message
the number of the connection it belongs to.  This is the one the request came from for a
reply, and the one the resting order was submitted on for a trade notice.

## Main definitions

* `System`, `Event`, `System.step`, `System.run` — the exchange and its runs.
* `System.appended` — the bytes added to write buffers, with the connection that has the
  descriptor at that moment and the connection the bytes belong to.

## Main results

* `writeBuffer_step` — the log is complete: whatever a step adds to a write buffer is in
  the log.
-/

namespace Exchange

/-- The number of a connection, in the order in which they are accepted. -/
abbrev Conn := ℕ

/-- A message of the inbound ring, with the connection it was read from. -/
structure Incoming where
  message : InboundMessage
  conn : Conn

/-- An outgoing message, with the connection it belongs to, if there is one. -/
structure Outgoing where
  message : OutboundMessage
  origin : Option Conn

/-- Bytes added to a write buffer: the descriptor, the connection that has it, and the
connection the bytes belong to. -/
structure Appended where
  fd : Fd
  conn : Conn
  origin : Option Conn
  payload : List UInt8

/-- Outgoing messages with the connections they belong to. -/
def tagged : List OutboundMessage → List (Option Conn) → List Outgoing
  | [], _ => []
  | m :: ms, [] => ⟨m, none⟩ :: tagged ms []
  | m :: ms, origin :: origins => ⟨m, origin⟩ :: tagged ms origins

/-- The two threads and what is between them.  The ghosts are `connOf`, the connection
that has a descriptor or had it last; `numConns`, the number of connections so far;
`submittedOn`, the connection an order was submitted on; the requests processed; and the
log of the bytes added to write buffers. -/
structure System where
  server : ExchangeServer
  inbound : List Incoming
  session : Session
  outbox : List Outgoing
  outbound : List Outgoing
  connOf : Fd → Conn
  numConns : ℕ
  submittedOn : OrderId → Option Conn
  processed : List Input
  appended : List Appended

/-- The steps of the threads.  For the I/O thread: a round of `accept_client` in which
`fd` is accepted, `handle_read`, a round of `drain_outbound_queue`, `try_send`,
`flush_pending_writes`, `handle_write`, and `disconnect_client`.  For the processor: a
request is popped and processed, and a message is pushed. -/
inductive Event
  | accept (fd : Fd)
  | read (fd : Fd) (arrivals : List Arrival) (room : ℕ → Bool)
  | drain
  | trySend (fd : Fd) (writable : Writable)
  | flush (writable : ℕ → Writable)
  | write (fd : Fd) (writable : Writable)
  | disconnect (fd : Fd)
  | process (times : Times)
  | push

namespace System

/-- The exchange after `start`. -/
def start (reserved : Fd → Bool) : System where
  server := .start reserved
  inbound := []
  session := .empty
  outbox := []
  outbound := []
  connOf := fun _ => 0
  numConns := 0
  submittedOn := fun _ => none
  processed := []
  appended := []

/-- The connections that the messages pushed for a request belong to: those of the
resting orders it trades with, and the one it came from. -/
def origins (sys : System) (i : Input) (conn : Conn) : List (Option Conn) :=
  match i.accepted with
  | some order =>
      (tradesOf sys.session.processor.book i).map (fun t =>
        sys.submittedOn (t.counterparty order.side)) ++ [some conn]
  | none => [some conn]

/-- The connection that an order of a request is submitted on. -/
def submit (sys : System) (i : Input) (conn : Conn) : OrderId → Option Conn :=
  match i.accepted with
  | some order => Function.update sys.submittedOn order.id (some conn)
  | none => sys.submittedOn

/-- A connection is accepted. -/
def accept (sys : System) (fd : Fd) : Option System :=
  (sys.server.acceptClient fd).map fun server =>
    { sys with
      server
      connOf := Function.update sys.connOf fd sys.numConns
      numConns := sys.numConns + 1 }

/-- Frames are read from a connection and pushed. -/
def read (sys : System) (fd : Fd) (arrivals : List Arrival) (room : ℕ → Bool) : Option System :=
  (sys.server.handleRead room arrivals fd).map fun (server, messages) =>
    { sys with server, inbound := sys.inbound ++ messages.map fun m => ⟨m, sys.connOf fd⟩ }

/-- A message is popped from the outbound ring. -/
def drain (sys : System) : Option System :=
  match sys.outbound with
  | [] => none
  | d :: outbound =>
      some { sys with
        outbound
        server := sys.server.drainMessage d.message
        appended := sys.appended ++
          if sys.server.delivers d.message then
            [⟨d.message.fd, sys.connOf d.message.fd, d.origin, d.message.payload⟩] else [] }

/-- `disconnect_client`, which is called for slots that are active. -/
def disconnect (sys : System) (fd : Fd) : Option System :=
  match sys.server.clients[fd]? with
  | none => none
  | some client =>
      if client.active then some { sys with server := sys.server.disconnectClient fd } else none

/-- A request is popped and processed, when all messages of the one before are pushed.
There is no next state when `process` throws, or has no defined behaviour. -/
def process (sys : System) (times : Times) : Option System :=
  match sys.outbox, sys.inbound with
  | [], q :: inbound =>
      match sys.session.step (fun _ => 0) ⟨times, q.message⟩ with
      | .error _ => none
      | .ok session =>
          some { sys with
            inbound
            session
            outbox := tagged (session.pushed.drop sys.session.pushed.length)
              (sys.origins ⟨times, q.message⟩ q.conn)
            submittedOn := sys.submit ⟨times, q.message⟩ q.conn
            processed := sys.processed ++ [⟨times, q.message⟩] }
  | _, _ => none

/-- A message is pushed to the outbound ring. -/
def push (sys : System) : Option System :=
  match sys.outbox with
  | [] => none
  | d :: outbox => some { sys with outbox, outbound := sys.outbound ++ [d] }

/-- One step of one of the threads. -/
def step (sys : System) : Event → Option System
  | .accept fd => sys.accept fd
  | .read fd arrivals room => sys.read fd arrivals room
  | .drain => sys.drain
  | .trySend fd writable =>
      (sys.server.trySend writable fd).map fun server => { sys with server }
  | .flush writable =>
      (sys.server.flushPendingWrites writable).map fun server => { sys with server }
  | .write fd writable =>
      (sys.server.handleWrite writable fd).map fun server => { sys with server }
  | .disconnect fd => sys.disconnect fd
  | .process times => sys.process times
  | .push => sys.push

/-- A run from the start. -/
def run (reserved : Fd → Bool) (events : List Event) : Option System :=
  events.foldlM step (.start reserved)

end System

/-! ### What one step does -/

namespace System

variable {sys sys' : System}

theorem drain_cases (h : sys.drain = some sys') :
    ∃ d outbound, sys.outbound = d :: outbound ∧ sys' = { sys with
      outbound
      server := sys.server.drainMessage d.message
      appended := sys.appended ++
        if sys.server.delivers d.message then
          [⟨d.message.fd, sys.connOf d.message.fd, d.origin, d.message.payload⟩] else [] } := by
  unfold drain at h
  split at h
  · exact absurd h (by simp)
  · next d outbound hd => exact ⟨d, outbound, hd, (Option.some.inj h).symm⟩

/-- Only slots that are active are disconnected. -/
theorem disconnect_cases {fd : Fd} (h : sys.disconnect fd = some sys') :
    ∃ client, sys.server.clients[fd]? = some client ∧ client.active = true ∧
      sys' = { sys with server := sys.server.disconnectClient fd } := by
  unfold disconnect at h
  split at h
  · exact absurd h (by simp)
  · next client hc =>
    split at h
    · next hactive => exact ⟨client, hc, hactive, (Option.some.inj h).symm⟩
    · exact absurd h (by simp)

theorem process_cases {times : Times} (h : sys.process times = some sys') :
    ∃ q inbound session, sys.outbox = [] ∧ sys.inbound = q :: inbound ∧
      sys.session.step (fun _ => 0) ⟨times, q.message⟩ = .ok session ∧
      sys' = { sys with
        inbound
        session
        outbox := tagged (session.pushed.drop sys.session.pushed.length)
          (sys.origins ⟨times, q.message⟩ q.conn)
        submittedOn := sys.submit ⟨times, q.message⟩ q.conn
        processed := sys.processed ++ [⟨times, q.message⟩] } := by
  unfold process at h
  split at h
  · next q inbound hout hin =>
    split at h
    · exact absurd h (by simp)
    · next session hs => exact ⟨q, inbound, session, hout, hin, hs, (Option.some.inj h).symm⟩
  · exact absurd h (by simp)

theorem push_cases (h : sys.push = some sys') :
    ∃ d outbox, sys.outbox = d :: outbox ∧
      sys' = { sys with outbox, outbound := sys.outbound ++ [d] } := by
  unfold push at h
  split at h
  · exact absurd h (by simp)
  · next d outbox hd => exact ⟨d, outbox, hd, (Option.some.inj h).symm⟩

/-- The state after a message has been drained. -/
def drainTo (sys : System) (d : Outgoing) (outbound : List Outgoing) : System :=
  { sys with
    outbound
    server := sys.server.drainMessage d.message
    appended := sys.appended ++
      if sys.server.delivers d.message then
        [⟨d.message.fd, sys.connOf d.message.fd, d.origin, d.message.payload⟩] else [] }

theorem step_drain {d : Outgoing} {outbound : List Outgoing} (hd : sys.outbound = d :: outbound) :
    sys.step .drain = some (sys.drainTo d outbound) := by
  rw [step, drain, hd]
  rfl

/-- The state after a request has been processed. -/
def processedTo (sys : System) (i : Input) (conn : Conn) (inbound : List Incoming)
    (session : Session) : System :=
  { sys with
    inbound
    session
    outbox := tagged (session.pushed.drop sys.session.pushed.length) (sys.origins i conn)
    submittedOn := sys.submit i conn
    processed := sys.processed ++ [i] }

theorem step_process {times : Times} {q : Incoming} {inbound : List Incoming} {session : Session}
    (hout : sys.outbox = []) (hin : sys.inbound = q :: inbound)
    (hs : sys.session.step (fun _ => 0) ⟨times, q.message⟩ = .ok session) :
    sys.step (.process times)
      = some (sys.processedTo ⟨times, q.message⟩ q.conn inbound session) := by
  rw [step, process, hout, hin]
  simp only [hs]
  rfl

theorem step_push {d : Outgoing} {outbox : List Outgoing} (hd : sys.outbox = d :: outbox) :
    sys.step .push = some { sys with outbox, outbound := sys.outbound ++ [d] } := by
  rw [step, push, hd]

end System

/-- What a step does, said once. -/
inductive Steps (sys : System) : Event → System → Prop
  | accept {fd : Fd} {server : ExchangeServer} (hs : sys.server.acceptClient fd = some server) :
      Steps sys (.accept fd) { sys with
        server
        connOf := Function.update sys.connOf fd sys.numConns
        numConns := sys.numConns + 1 }
  | read {fd : Fd} {arrivals : List Arrival} {room : ℕ → Bool} {server : ExchangeServer}
      {messages : List InboundMessage}
      (hs : sys.server.handleRead room arrivals fd = some (server, messages)) :
      Steps sys (.read fd arrivals room) { sys with
        server, inbound := sys.inbound ++ messages.map fun m => ⟨m, sys.connOf fd⟩ }
  | drain {d : Outgoing} {outbound : List Outgoing} (hd : sys.outbound = d :: outbound) :
      Steps sys .drain { sys with
        outbound
        server := sys.server.drainMessage d.message
        appended := sys.appended ++
          if sys.server.delivers d.message then
            [⟨d.message.fd, sys.connOf d.message.fd, d.origin, d.message.payload⟩] else [] }
  /-- Bytes are sent, or a connection is closed. -/
  | server {e : Event} {server : ExchangeServer} (hs : sys.server.NothingAdded server)
      (hne : ∀ fd, e ≠ .accept fd) : Steps sys e { sys with server }
  | process {times : Times} {q : Incoming} {inbound : List Incoming} {session : Session}
      (hout : sys.outbox = []) (hin : sys.inbound = q :: inbound)
      (hs : sys.session.step (fun _ => 0) ⟨times, q.message⟩ = .ok session) :
      Steps sys (.process times) { sys with
        inbound
        session
        outbox := tagged (session.pushed.drop sys.session.pushed.length)
          (sys.origins ⟨times, q.message⟩ q.conn)
        submittedOn := sys.submit ⟨times, q.message⟩ q.conn
        processed := sys.processed ++ [⟨times, q.message⟩] }
  | push {d : Outgoing} {outbox : List Outgoing} (hd : sys.outbox = d :: outbox) :
      Steps sys .push { sys with outbox, outbound := sys.outbound ++ [d] }

theorem System.steps {sys sys' : System} {e : Event} (h : sys.step e = some sys') :
    Steps sys e sys' := by
  cases e with
  | accept fd =>
    obtain ⟨server, hs, rfl⟩ := Option.map_eq_some_iff.mp h
    exact .accept hs
  | read fd arrivals room =>
    obtain ⟨⟨server, messages⟩, hs, rfl⟩ := Option.map_eq_some_iff.mp h
    exact .read hs
  | trySend fd writable =>
    obtain ⟨server, hs, rfl⟩ := Option.map_eq_some_iff.mp h
    exact .server (.trySend hs) nofun
  | flush writable =>
    obtain ⟨server, hs, rfl⟩ := Option.map_eq_some_iff.mp h
    exact .server (.flushPendingWrites hs) nofun
  | write fd writable =>
    obtain ⟨server, hs, rfl⟩ := Option.map_eq_some_iff.mp h
    exact .server (.handleWrite hs) nofun
  | drain =>
    obtain ⟨d, outbound, hd, rfl⟩ := System.drain_cases h
    exact .drain hd
  | disconnect fd =>
    obtain ⟨client, hc, -, rfl⟩ := System.disconnect_cases h
    exact .server (.disconnectClient hc) nofun
  | process times =>
    obtain ⟨q, inbound, session, hout, hin, hs, rfl⟩ := System.process_cases h
    exact .process hout hin hs
  | push =>
    obtain ⟨d, outbox, hd, rfl⟩ := System.push_cases h
    exact .push hd

/-! ### The log -/

/-- The bytes that a part of the log has for a descriptor. -/
def loggedFor (fd : Fd) (log : List Appended) : List UInt8 :=
  ((log.filter fun a => a.fd = fd).map Appended.payload).flatten

/-- A step that logs nothing, and adds nothing to a write buffer. -/
theorem logged_nil {sys sys' : System} (hlog : sys'.appended = sys.appended)
    (h : sys.server.NothingAdded sys'.server) :
    ∃ log, sys'.appended = sys.appended ++ log ∧
      ∀ fd, sys'.server.writeBuffer fd = sys.server.writeBuffer fd ++ loggedFor fd log ∨
        sys'.server.writeBuffer fd = [] := by
  refine ⟨[], by rw [hlog, List.append_nil], fun fd => ?_⟩
  rw [show loggedFor fd [] = [] from rfl, List.append_nil]
  exact h fd

/-- **The log is complete**: what a step adds to a write buffer is what it logs for its
descriptor, unless the step empties the buffer. -/
theorem writeBuffer_step {sys sys' : System} {e : Event} (h : sys.step e = some sys') :
    ∃ log, sys'.appended = sys.appended ++ log ∧
      ∀ fd, sys'.server.writeBuffer fd = sys.server.writeBuffer fd ++ loggedFor fd log ∨
        sys'.server.writeBuffer fd = [] := by
  cases System.steps h with
  | accept hs => exact logged_nil rfl (.acceptClient hs)
  | read hs => exact logged_nil rfl (ExchangeServer.handleRead_spec hs).2
  | server hs => exact logged_nil rfl hs
  | process _ _ _ => exact logged_nil rfl (.refl _)
  | push _ => exact logged_nil rfl (.refl _)
  | @drain d outbound hd =>
    refine ⟨_, rfl, fun fd => Or.inl ?_⟩
    show (sys.server.drainMessage d.message).writeBuffer fd = _
    rw [ExchangeServer.writeBuffer_drainMessage]
    congr 1
    -- the one entry, if any, is for the descriptor of the message
    by_cases hdel : sys.server.delivers d.message = true
    · by_cases hfd : fd = d.message.fd
      · simp [loggedFor, hdel, hfd]
      · simp [loggedFor, hdel, hfd, Ne.symm hfd]
    · simp [loggedFor, hdel]

end Exchange
