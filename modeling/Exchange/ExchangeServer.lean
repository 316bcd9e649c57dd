import Exchange.ClientState
import Exchange.Lib.Transducer
import Mathlib.Logic.Function.Basic

/-!
# The exchange server

`exchange_server.cpp`: the I/O thread.  It keeps a slot for each descriptor, accepts
connections, reads frames from them, and moves the messages of the outbound ring to
their write buffers and from there to the sockets.

Of the kernel, the model has the descriptors that are open, the interest registered
with epoll, and the bytes that `send` has taken.  What the kernel decides comes in as an
argument: the descriptor that `accept` returns, what a socket gives to `recv`, and how
much it takes from `send`.  A slot outside the vector is undefined behaviour, and gives
`none`.

## Main definitions

* `ExchangeServer` — the members of the server, and the kernel.
* `acceptClient`, `disconnectClient` — connections come and go.
* `handleRead` — `handle_read`, on the slot of a descriptor.
* `drainMessage` — one round of `drain_outbound_queue`.
* `trySend`, `handleWrite`, `flushPendingWrites` — the write buffers are sent.
* `client` — the slot of a descriptor, which is that of a closed connection if the vector
  does not reach it.

## Main results

* `acceptClient_client`, `client_drainMessage` — the slots after a connection is accepted
  and a message is drained.
* `trySends`, `handlesWrite` — what sending does.
* `handleRead_spec` — what is pushed for a descriptor carries this descriptor.
* `writeBuffer_drainMessage` — a drained message is added to the write buffer of its slot
  if the slot is active, and to no other.
* `NothingAdded.trySend` and others — nothing else adds to a write buffer.
-/

namespace Exchange

/-- How much a socket takes from the next `send`: at most `k + 1` bytes, nothing for the
moment, or an error. -/
inductive Writable
  | room (k : ℕ)
  | again
  | failed
  deriving DecidableEq, Repr

/-- The result of `send`. -/
inductive SendResult
  | sent (n : ℕ)
  | again
  | failed
  deriving DecidableEq, Repr

/-- `send` of `n` bytes. -/
def send (n : ℕ) : Writable → SendResult
  | .room k => .sent (min (k + 1) n)
  | .again => .again
  | .failed => .failed

/-- The members of the server that calls change, and the kernel.  `epoll fd` is the
interest registered for a client: whether it includes `EPOLLOUT`. -/
structure ExchangeServer where
  clients : List ClientState
  pendingWrites : List Fd
  openFds : Fd → Bool
  epoll : Fd → Option Bool
  wire : Fd → List UInt8

namespace ExchangeServer

/-- `start`.  The descriptors that are open by then, that of the server and that of epoll
among them, are `reserved`. -/
def start (reserved : Fd → Bool) : ExchangeServer :=
  ⟨List.replicate 1024 {}, [], reserved, fun _ => none, fun _ => []⟩

/-- Assign a slot. -/
def setClient (s : ExchangeServer) (fd : Fd) (client : ClientState) : ExchangeServer :=
  { s with clients := s.clients.set fd client }

/-- `set_epoll_write`; `EPOLL_CTL_MOD` of a descriptor that is not registered fails. -/
def setEpollWrite (s : ExchangeServer) (fd : Fd) (enable : Bool) : ExchangeServer :=
  { s with epoll := Function.update s.epoll fd ((s.epoll fd).map fun _ => enable) }

/-- `disconnect_client`. -/
def disconnectClient (s : ExchangeServer) (fd : Fd) : ExchangeServer :=
  { s.setClient fd {} with
    openFds := Function.update s.openFds fd false
    epoll := Function.update s.epoll fd none }

/-- The slots after `clients_.resize`, which never makes the vector shorter here. -/
def growClients (clients : List ClientState) (fd : Fd) : List ClientState :=
  if clients.length ≤ fd then
    clients ++ List.replicate (max (clients.length * 2) (fd + 1) - clients.length)
      ({} : ClientState)
  else clients

/-- A round of the loop of `accept_client`, in which `accept` returns `fd`.  The kernel
hands out descriptors that are closed. -/
def acceptClient (s : ExchangeServer) (fd : Fd) : Option ExchangeServer :=
  if s.openFds fd then none
  else
    some { s with
      clients := (growClients s.clients fd).set fd { active := true }
      openFds := Function.update s.openFds fd true
      epoll := Function.update s.epoll fd (some false)
      wire := Function.update s.wire fd [] }

/-- `handle_read`, with what the socket gives during the call; the second component are
the messages pushed to the inbound ring. -/
def handleRead (room : ℕ → Bool) (arrivals : List Arrival) (s : ExchangeServer) (fd : Fd) :
    Option (ExchangeServer × List InboundMessage) :=
  (s.clients[fd]?).map fun client =>
    let r := Exchange.handleRead room fd (.begin client arrivals)
    -- a slot that is active no longer has gone through `disconnect_client`
    (if r.client.active = client.active then s.setClient fd r.client else s.disconnectClient fd,
      r.pushed)

/-- A round of the loop of `drain_outbound_queue`: a message for a slot that is not there,
or not active, is dropped. -/
def drainMessage (s : ExchangeServer) (message : OutboundMessage) : ExchangeServer :=
  match s.clients[message.fd]? with
  | none => s
  | some client =>
      if client.active then
        { s.setClient message.fd
            { client with writeBuffer := client.writeBuffer ++ message.payload } with
          pendingWrites := s.pendingWrites ++ [message.fd] }
      else s

/-- A drained message is added to a write buffer. -/
def delivers (s : ExchangeServer) (message : OutboundMessage) : Bool :=
  (s.clients[message.fd]?).any ClientState.active

/-- The socket has taken the next `n` of the unsent bytes. -/
def transmit (s : ExchangeServer) (fd : Fd) (client : ClientState) (n : ℕ) : ExchangeServer :=
  { s with
    wire := Function.update s.wire fd
      (s.wire fd ++ (client.writeBuffer.drop client.bytesSent).take n) }

/-- `try_send`. -/
def trySend (writable : Writable) (s : ExchangeServer) (fd : Fd) : Option ExchangeServer :=
  (s.clients[fd]?).map fun client =>
    if client.active = false then s
    else if client.writeBuffer = [] then s
    else
      match send (client.writeBuffer.length - client.bytesSent) writable with
      | .sent 0 => s.disconnectClient fd
      | .sent (n + 1) =>
          -- all is sent, or the rest waits for `EPOLLOUT`
          if client.bytesSent + (n + 1) = client.writeBuffer.length then
            (s.transmit fd client (n + 1)).setClient fd
              { client with writeBuffer := [], bytesSent := 0 }
          else
            ((s.transmit fd client (n + 1)).setClient fd
              { client with bytesSent := client.bytesSent + (n + 1) }).setEpollWrite fd true
      | .again => s
      | .failed => s.disconnectClient fd

/-- `handle_write`. -/
def handleWrite (writable : Writable) (s : ExchangeServer) (fd : Fd) : Option ExchangeServer :=
  (s.clients[fd]?).map fun client =>
    if client.active = false then s
    else
      match send (client.writeBuffer.length - client.bytesSent) writable with
      | .sent 0 => s.disconnectClient fd
      | .sent (n + 1) =>
          -- the interest in `EPOLLOUT` stays until all is sent
          if client.bytesSent + (n + 1) < client.writeBuffer.length then
            (s.transmit fd client (n + 1)).setClient fd
              { client with bytesSent := client.bytesSent + (n + 1) }
          else
            ((s.transmit fd client (n + 1)).setClient fd
              { client with writeBuffer := [], bytesSent := 0 }).setEpollWrite fd false
      | .again => s
      | .failed => s.disconnectClient fd

/-- `flush_pending_writes`; `writable k` is what the socket takes at the `k`-th
`try_send`. -/
def flushPendingWrites (writable : ℕ → Writable) (s : ExchangeServer) : Option ExchangeServer :=
  (s.pendingWrites.zipIdx.foldlM (fun (s : ExchangeServer) p =>
    s.trySend (writable p.2) p.1) s).map fun s => { s with pendingWrites := [] }

end ExchangeServer

/-! ### Slots -/

namespace ExchangeServer

/-- The slot of a descriptor. -/
def client (s : ExchangeServer) (fd : Fd) : ClientState := (s.clients[fd]?).getD {}

section Client

variable {s : ExchangeServer} {fd : Fd} {c : ClientState}

theorem client_of_some (h : s.clients[fd]? = some c) : s.client fd = c := by
  rw [client, h]
  rfl

/-- A slot that is active is there. -/
theorem getElem?_of_active (h : (s.client fd).active = true) :
    s.clients[fd]? = some (s.client fd) := by
  cases hc : s.clients[fd]? with
  | none =>
    rw [client, hc] at h
    exact absurd h Bool.false_ne_true
  | some c => rw [client_of_some hc]

/-- At the start no connection is open. -/
theorem client_start (reserved : Fd → Bool) (fd : Fd) : (start reserved).client fd = {} := by
  rw [start, client, List.getElem?_replicate]
  split
  · rfl
  · rfl

theorem client_setClient_self (h : s.clients[fd]? = some c) (c' : ClientState) :
    (s.setClient fd c').client fd = c' := by
  have hlt : fd < s.clients.length := (List.getElem?_eq_some_iff.mp h).1
  apply client_of_some
  rw [setClient, List.getElem?_set, if_pos rfl, if_pos hlt]

theorem client_setClient_of_ne {fd' : Fd} (h : fd' ≠ fd) (c' : ClientState) :
    (s.setClient fd c').client fd' = s.client fd' := by
  rw [client, setClient, List.getElem?_set, if_neg (Ne.symm h)]
  rfl

/-- A connection that has been closed. -/
theorem client_disconnectClient (h : s.clients[fd]? = some c) :
    (s.disconnectClient fd).client fd = {} := client_setClient_self h _

end Client

theorem lt_length_growClients (clients : List ClientState) (fd : ℕ) :
    fd < (growClients clients fd).length := by
  unfold growClients
  split
  · rw [List.length_append, List.length_replicate]
    omega
  · omega

/-- The slots that are added are those of closed connections. -/
theorem getD_growClients (clients : List ClientState) (fd fd' : Fd) :
    ((growClients clients fd)[fd']?).getD {} = (clients[fd']?).getD {} := by
  unfold growClients
  split
  · rcases Nat.lt_or_ge fd' clients.length with hlt | hge
    · rw [List.getElem?_append_left hlt]
    · rw [List.getElem?_append_right hge, List.getElem?_replicate, List.getElem?_eq_none hge]
      split
      · rfl
      · rfl
  · rfl

/-- A connection that is accepted starts with nothing sent and nothing to send, and the
others are left alone. -/
theorem acceptClient_client {s s' : ExchangeServer} {fd : Fd} (h : s.acceptClient fd = some s') :
    s'.client fd = { active := true } ∧ s'.wire fd = [] ∧
      ∀ fd', fd' ≠ fd → s'.client fd' = s.client fd' ∧ s'.wire fd' = s.wire fd' := by
  unfold acceptClient at h
  split at h
  · exact absurd h (by simp)
  · obtain rfl := Option.some.inj h
    refine ⟨?_, Function.update_self .., fun fd' hfd => ⟨?_, Function.update_of_ne hfd ..⟩⟩
    · apply client_of_some
      rw [List.getElem?_set, if_pos rfl, if_pos (lt_length_growClients s.clients fd)]
    · rw [client, List.getElem?_set, if_neg (Ne.symm hfd)]
      exact getD_growClients s.clients fd fd'

/-- The kernel hands out a descriptor that is closed, which is open and registered from
then on. -/
theorem acceptClient_kernel {s s' : ExchangeServer} {fd : Fd} (h : s.acceptClient fd = some s') :
    s.openFds fd = false ∧ s'.openFds fd = true ∧ s'.epoll fd = some false := by
  unfold acceptClient at h
  split at h
  · exact absurd h (by simp)
  · next hclosed =>
    obtain rfl := Option.some.inj h
    exact ⟨Bool.eq_false_iff.mpr hclosed, Function.update_self .., Function.update_self ..⟩

/-! ### What draining does -/

/-- What becomes of a drained message: it is dropped, or added to the write buffer of an
active slot. -/
theorem drainMessage_cases (s : ExchangeServer) (message : OutboundMessage) :
    (s.delivers message = false ∧ s.drainMessage message = s) ∨
      ∃ client, s.clients[message.fd]? = some client ∧ client.active = true ∧
        s.delivers message = true ∧
        s.drainMessage message =
          { s.setClient message.fd
              { client with writeBuffer := client.writeBuffer ++ message.payload } with
            pendingWrites := s.pendingWrites ++ [message.fd] } := by
  cases hc : s.clients[message.fd]? with
  | none => exact Or.inl ⟨by rw [delivers, hc]; rfl, by rw [drainMessage, hc]⟩
  | some client =>
    have hdelivers : s.delivers message = client.active := by rw [delivers, hc]; rfl
    cases hactive : client.active with
    | false =>
      refine Or.inl ⟨hdelivers.trans hactive, ?_⟩
      rw [drainMessage, hc]
      exact if_neg (by rw [hactive]; exact Bool.false_ne_true)
    | true =>
      refine Or.inr ⟨client, rfl, hactive, hdelivers.trans hactive, ?_⟩
      rw [drainMessage, hc]
      exact if_pos hactive

theorem active_of_delivers {s : ExchangeServer} {message : OutboundMessage}
    (h : s.delivers message = true) : (s.client message.fd).active = true := by
  rcases drainMessage_cases s message with ⟨hno, -⟩ | ⟨c, hc, hactive, -, -⟩
  · rw [h] at hno
    exact absurd hno (by simp)
  · rw [client_of_some hc]
    exact hactive

/-- A drained message goes to the end of the write buffer of its connection. -/
theorem client_drainMessage (s : ExchangeServer) (message : OutboundMessage) (fd : Fd) :
    (s.drainMessage message).client fd =
      { s.client fd with
        writeBuffer := (s.client fd).writeBuffer ++
          if s.delivers message ∧ fd = message.fd then message.payload else [] } := by
  rcases drainMessage_cases s message with ⟨hdelivers, heq⟩ | ⟨c, hc, -, hdelivers, heq⟩
  · rw [heq, hdelivers, if_neg (by simp), List.append_nil]
  · rw [heq, hdelivers]
    by_cases hfd : fd = message.fd
    · rw [if_pos ⟨rfl, hfd⟩, hfd, client_of_some hc]
      exact client_setClient_self hc _
    · rw [if_neg fun hand => hfd hand.2, List.append_nil]
      exact client_setClient_of_ne hfd _

theorem wire_drainMessage (s : ExchangeServer) (message : OutboundMessage) :
    (s.drainMessage message).wire = s.wire := by
  rcases drainMessage_cases s message with ⟨-, heq⟩ | ⟨c, -, -, -, heq⟩
  · rw [heq]
  · rw [heq]
    rfl

theorem epoll_drainMessage (s : ExchangeServer) (message : OutboundMessage) :
    (s.drainMessage message).epoll = s.epoll := by
  rcases drainMessage_cases s message with ⟨-, heq⟩ | ⟨c, -, -, -, heq⟩
  · rw [heq]
  · rw [heq]
    rfl

theorem openFds_drainMessage (s : ExchangeServer) (message : OutboundMessage) :
    (s.drainMessage message).openFds = s.openFds := by
  rcases drainMessage_cases s message with ⟨-, heq⟩ | ⟨c, -, -, -, heq⟩
  · rw [heq]
  · rw [heq]
    rfl

/-! ### What sending does -/

/-- The number of unsent bytes of a connection. -/
def rest (s : ExchangeServer) (fd : Fd) : ℕ :=
  (s.client fd).writeBuffer.length - (s.client fd).bytesSent

/-- What `try_send` does, said once: nothing, or it finds no room, or closes the
connection, or sends all that there is or part of it. -/
inductive TrySends (s : ExchangeServer) (fd : Fd) (w : Writable) : ExchangeServer → Prop
  | skip (h : (s.client fd).active = false ∨ (s.client fd).writeBuffer = []) : TrySends s fd w s
  | again (hactive : (s.client fd).active = true) (hne : (s.client fd).writeBuffer ≠ [])
      (hw : w = .again) : TrySends s fd w s
  | close (hactive : (s.client fd).active = true) (hne : (s.client fd).writeBuffer ≠ [])
      (hw : w = .failed ∨ s.rest fd = 0) : TrySends s fd w (s.disconnectClient fd)
  | complete {k : ℕ} (hactive : (s.client fd).active = true)
      (hne : (s.client fd).writeBuffer ≠ []) (hw : w = .room k) (hpos : 0 < s.rest fd)
      (hle : s.rest fd ≤ k + 1) :
      TrySends s fd w ((s.transmit fd (s.client fd) (s.rest fd)).setClient fd
        { s.client fd with writeBuffer := [], bytesSent := 0 })
  | part {k : ℕ} (hactive : (s.client fd).active = true) (hw : w = .room k)
      (hlt : k + 1 < s.rest fd) :
      TrySends s fd w (((s.transmit fd (s.client fd) (k + 1)).setClient fd
        { s.client fd with bytesSent := (s.client fd).bytesSent + (k + 1) }).setEpollWrite fd true)

/-- What `handle_write` does, said once. -/
inductive HandlesWrite (s : ExchangeServer) (fd : Fd) (w : Writable) : ExchangeServer → Prop
  | skip (h : (s.client fd).active = false) : HandlesWrite s fd w s
  | again (hactive : (s.client fd).active = true) (hw : w = .again) : HandlesWrite s fd w s
  | close (hactive : (s.client fd).active = true) (hw : w = .failed ∨ s.rest fd = 0) :
      HandlesWrite s fd w (s.disconnectClient fd)
  | complete {k : ℕ} (hactive : (s.client fd).active = true) (hw : w = .room k)
      (hpos : 0 < s.rest fd) (hle : s.rest fd ≤ k + 1) :
      HandlesWrite s fd w (((s.transmit fd (s.client fd) (s.rest fd)).setClient fd
        { s.client fd with writeBuffer := [], bytesSent := 0 }).setEpollWrite fd false)
  | part {k : ℕ} (hactive : (s.client fd).active = true) (hw : w = .room k)
      (hlt : k + 1 < s.rest fd) :
      HandlesWrite s fd w ((s.transmit fd (s.client fd) (k + 1)).setClient fd
        { s.client fd with bytesSent := (s.client fd).bytesSent + (k + 1) })

/-- The results of `send`. -/
theorem send_cases (m : ℕ) (w : Writable) :
    (send m w = .again ∧ w = .again) ∨ (send m w = .failed ∧ w = .failed) ∨
      ∃ k, w = .room k ∧ (m = 0 ∧ send m w = .sent 0 ∨
        (∃ n, m = n + 1 ∧ m ≤ k + 1 ∧ send m w = .sent (n + 1)) ∨
        k + 1 < m ∧ send m w = .sent (k + 1)) := by
  cases w with
  | again => exact Or.inl ⟨rfl, rfl⟩
  | failed => exact Or.inr (Or.inl ⟨rfl, rfl⟩)
  | room k =>
    refine Or.inr (Or.inr ⟨k, rfl, ?_⟩)
    cases m with
    | zero => exact Or.inl ⟨rfl, rfl⟩
    | succ n =>
      rcases Nat.lt_or_ge (k + 1) (n + 1) with hlt | hle
      · rw [send, Nat.min_eq_left (Nat.le_of_lt hlt)]
        exact Or.inr (Or.inr ⟨hlt, rfl⟩)
      · rw [send, Nat.min_eq_right hle]
        exact Or.inr (Or.inl ⟨n, rfl, hle, rfl⟩)

theorem trySends {s s' : ExchangeServer} {fd : Fd} {w : Writable}
    (h : s.trySend w fd = some s') : TrySends s fd w s' := by
  obtain ⟨c, hc, rfl⟩ := Option.map_eq_some_iff.mp h
  obtain rfl := client_of_some hc
  by_cases hactive : (s.client fd).active = true
  · rw [if_neg (by rw [hactive]; simp)]
    by_cases hne : (s.client fd).writeBuffer = []
    · rw [if_pos hne]
      exact .skip (Or.inr hne)
    · rw [if_neg hne]
      have hrest : s.rest fd = (s.client fd).writeBuffer.length - (s.client fd).bytesSent := rfl
      rw [← hrest]
      rcases send_cases (s.rest fd) w with ⟨hsend, hw⟩ | ⟨hsend, hw⟩ |
        ⟨k, hw, ⟨hzero, hsend⟩ | ⟨n, hn, hle, hsend⟩ | ⟨hlt, hsend⟩⟩
      · rw [hsend]
        exact .again hactive hne hw
      · rw [hsend]
        exact .close hactive hne (Or.inl hw)
      · rw [hsend]
        exact .close hactive hne (Or.inr hzero)
      · rw [hsend]
        simp only
        rw [if_pos (by omega), ← hn]
        exact .complete hactive hne hw (by omega) hle
      · rw [hsend]
        simp only
        rw [if_neg (by omega)]
        exact .part hactive hw hlt
  · rw [if_pos (Bool.eq_false_iff.mpr hactive)]
    exact .skip (Or.inl (Bool.eq_false_iff.mpr hactive))

theorem handlesWrite {s s' : ExchangeServer} {fd : Fd} {w : Writable}
    (h : s.handleWrite w fd = some s') : HandlesWrite s fd w s' := by
  obtain ⟨c, hc, rfl⟩ := Option.map_eq_some_iff.mp h
  obtain rfl := client_of_some hc
  by_cases hactive : (s.client fd).active = true
  · rw [if_neg (by rw [hactive]; simp)]
    have hrest : s.rest fd = (s.client fd).writeBuffer.length - (s.client fd).bytesSent := rfl
    rw [← hrest]
    rcases send_cases (s.rest fd) w with ⟨hsend, hw⟩ | ⟨hsend, hw⟩ |
      ⟨k, hw, ⟨hzero, hsend⟩ | ⟨n, hn, hle, hsend⟩ | ⟨hlt, hsend⟩⟩
    · rw [hsend]
      exact .again hactive hw
    · rw [hsend]
      exact .close hactive (Or.inl hw)
    · rw [hsend]
      exact .close hactive (Or.inr hzero)
    · rw [hsend]
      simp only
      rw [if_neg (by omega), ← hn]
      exact .complete hactive hw (by omega) hle
    · rw [hsend]
      simp only
      rw [if_pos (by omega)]
      exact .part hactive hw hlt
  · rw [if_pos (Bool.eq_false_iff.mpr hactive)]
    exact .skip (Bool.eq_false_iff.mpr hactive)

end ExchangeServer

/-! ### What `handle_read` leaves alone -/

/-- What is pushed carries the descriptor of the call, and the write buffer is as it was,
unless the connection has been closed. -/
structure Reading.Within (fd : Fd) (buffer : List UInt8) (r : Reading) : Prop where
  buffer : r.client.writeBuffer = buffer ∨ r.client.writeBuffer = []
  pushed : ∀ m ∈ r.pushed, m.fd = fd

namespace Reading.Within

variable {fd : Fd} {buffer : List UInt8} {r : Reading}

theorem completes {r₁ : Reading} (h : r.Within fd buffer) (hc : Completes r r₁) :
    r₁.Within fd buffer := by
  cases hc with
  | before _ => exact h
  | now _ _ _ => exact ⟨h.buffer, h.pushed⟩

/-- A step of the loop keeps to its descriptor. -/
theorem readStep {room : ℕ → Bool} {r' : Reading} (h : r.Within fd buffer)
    (hs : ReadStep room fd r r') : r'.Within fd buffer := by
  cases hs with
  | header => exact ⟨h.buffer, h.pushed⟩
  | @decode bs arrivals =>
    refine ⟨?_, h.pushed⟩
    show (decodeHeader (r.fillHeader bs arrivals).client).writeBuffer = buffer ∨
      (decodeHeader (r.fillHeader bs arrivals).client).writeBuffer = []
    rw [decodeHeader_writeBuffer]
    exact h.buffer
  | payload => exact ⟨h.buffer, h.pushed⟩
  | again => exact ⟨h.buffer, h.pushed⟩
  | disconnect => exact ⟨Or.inr rfl, h.pushed⟩
  | push _ _ hc =>
    have h₁ := h.completes hc
    refine ⟨h₁.buffer, fun m hm => ?_⟩
    rcases List.mem_append.mp hm with hm | hm
    · exact h₁.pushed m hm
    · rw [List.mem_singleton.mp hm]
  | keep _ _ hc => exact ⟨(h.completes hc).buffer, (h.completes hc).pushed⟩

theorem handleRead (h : r.Within fd buffer) (room : ℕ → Bool) :
    (handleRead room fd r).Within fd buffer :=
  handleRead_invariant (P := fun r => r.Within fd buffer)
    (fun _ _ h _ => ⟨h.buffer, h.pushed⟩) (fun _ _ h hs => h.readStep hs) h

end Reading.Within

/-! ### Who adds to a write buffer -/

namespace ExchangeServer

/-- The write buffer of a slot. -/
def writeBuffer (s : ExchangeServer) (fd : Fd) : List UInt8 :=
  ((s.clients[fd]?).map ClientState.writeBuffer).getD []

/-- No write buffer has been added to: each one is as it was, or empty. -/
def NothingAdded (s s' : ExchangeServer) : Prop :=
  ∀ fd, s'.writeBuffer fd = s.writeBuffer fd ∨ s'.writeBuffer fd = []

variable {s s' : ExchangeServer} {fd : Fd}

theorem writeBuffer_of_some {client : ClientState} (h : s.clients[fd]? = some client) :
    s.writeBuffer fd = client.writeBuffer := by
  rw [writeBuffer, h]
  rfl

theorem writeBuffer_setClient_self (hlt : fd < s.clients.length) (client : ClientState) :
    (s.setClient fd client).writeBuffer fd = client.writeBuffer := by
  apply writeBuffer_of_some
  rw [setClient, List.getElem?_set, if_pos rfl, if_pos hlt]

theorem writeBuffer_setClient_of_ne {fd' : Fd} (h : fd' ≠ fd) (client : ClientState) :
    (s.setClient fd client).writeBuffer fd' = s.writeBuffer fd' := by
  rw [writeBuffer, setClient, List.getElem?_set, if_neg (Ne.symm h)]
  rfl

theorem NothingAdded.refl (s : ExchangeServer) : NothingAdded s s := fun _ => Or.inl rfl

theorem NothingAdded.trans {s₁ s₂ s₃ : ExchangeServer} (h : NothingAdded s₁ s₂)
    (h' : NothingAdded s₂ s₃) : NothingAdded s₁ s₃ := by
  intro fd
  rcases h' fd with heq | hnil
  · rw [heq]
    exact h fd
  · exact Or.inr hnil

/-- A slot is assigned with a write buffer that is the one it had, or empty. -/
theorem NothingAdded.setClient {client client' : ClientState}
    (hc : s.clients[fd]? = some client)
    (h : client'.writeBuffer = client.writeBuffer ∨ client'.writeBuffer = []) :
    NothingAdded s (s.setClient fd client') := by
  intro fd'
  have hlt : fd < s.clients.length := (List.getElem?_eq_some_iff.mp hc).1
  by_cases hfd : fd' = fd
  · rw [hfd, writeBuffer_setClient_self hlt, writeBuffer_of_some hc]
    exact h
  · exact Or.inl (writeBuffer_setClient_of_ne hfd client')

theorem NothingAdded.disconnectClient {client : ClientState} (hc : s.clients[fd]? = some client) :
    NothingAdded s (s.disconnectClient fd) :=
  NothingAdded.setClient hc (Or.inr rfl)

/-- What `handle_read` does: it pushes messages of its descriptor, and adds to no write
buffer. -/
theorem handleRead_spec {room : ℕ → Bool} {arrivals : List Arrival}
    {messages : List InboundMessage} (h : s.handleRead room arrivals fd = some (s', messages)) :
    (∀ m ∈ messages, m.fd = fd) ∧ NothingAdded s s' := by
  obtain ⟨client, hc, heq⟩ := Option.map_eq_some_iff.mp h
  have hstart : Reading.Within fd client.writeBuffer (.begin client arrivals) :=
    ⟨Or.inl rfl, fun _ hm => absurd hm List.not_mem_nil⟩
  have hwithin := hstart.handleRead room
  obtain ⟨rfl, rfl⟩ := Prod.mk.inj heq
  refine ⟨hwithin.pushed, ?_⟩
  split
  · exact NothingAdded.setClient hc hwithin.buffer
  · exact NothingAdded.disconnectClient hc

theorem growClients_getElem? (clients : List ClientState) (fd fd' : Fd) :
    (growClients clients fd)[fd']? = clients[fd']? ∨
      (growClients clients fd)[fd']? = some {} := by
  unfold growClients
  split
  · rcases Nat.lt_or_ge fd' clients.length with hlt | hge
    · exact Or.inl (List.getElem?_append_left hlt)
    · rw [List.getElem?_append_right hge, List.getElem?_replicate]
      split
      · exact Or.inr rfl
      · exact Or.inl (List.getElem?_eq_none hge).symm
  · exact Or.inl rfl

/-- A connection that is accepted starts with an empty write buffer. -/
theorem NothingAdded.acceptClient (h : s.acceptClient fd = some s') : NothingAdded s s' := by
  unfold ExchangeServer.acceptClient at h
  split at h
  · exact absurd h (by simp)
  · obtain rfl := Option.some.inj h
    intro fd'
    -- the slot is assigned anew, and new slots are empty
    by_cases hfd : fd' = fd
    · right
      rw [hfd, writeBuffer, List.getElem?_set, if_pos rfl]
      split
      · rfl
      · rfl
    · rw [writeBuffer, List.getElem?_set, if_neg (Ne.symm hfd)]
      rcases growClients_getElem? s.clients fd fd' with heq | heq
      · exact Or.inl (by rw [heq]; rfl)
      · exact Or.inr (by rw [heq]; rfl)

/-- What a socket takes is taken from no write buffer. -/
theorem NothingAdded.transmit {client client' : ClientState} {n : ℕ}
    (hc : s.clients[fd]? = some client)
    (h : client'.writeBuffer = client.writeBuffer ∨ client'.writeBuffer = []) :
    NothingAdded s ((s.transmit fd client n).setClient fd client') :=
  NothingAdded.setClient (s := s.transmit fd client n) hc h

theorem NothingAdded.trySend {writable : Writable} (h : s.trySend writable fd = some s') :
    NothingAdded s s' := by
  cases trySends h with
  | skip _ => exact .refl s
  | again _ _ _ => exact .refl s
  | close hactive _ _ => exact .disconnectClient (getElem?_of_active hactive)
  | complete hactive _ _ _ _ => exact .transmit (getElem?_of_active hactive) (Or.inr rfl)
  | part hactive _ _ => exact .transmit (getElem?_of_active hactive) (Or.inl rfl)

theorem NothingAdded.handleWrite {writable : Writable} (h : s.handleWrite writable fd = some s') :
    NothingAdded s s' := by
  cases handlesWrite h with
  | skip _ => exact .refl s
  | again _ _ => exact .refl s
  | close hactive _ => exact .disconnectClient (getElem?_of_active hactive)
  | complete hactive _ _ _ => exact .transmit (getElem?_of_active hactive) (Or.inr rfl)
  | part hactive _ _ => exact .transmit (getElem?_of_active hactive) (Or.inl rfl)

theorem NothingAdded.flushPendingWrites {writable : ℕ → Writable}
    (h : s.flushPendingWrites writable = some s') : NothingAdded s s' := by
  obtain ⟨s₁, hrun, rfl⟩ := Option.map_eq_some_iff.mp h
  -- the pending descriptors are gone through one after another
  have hadded : NothingAdded s s₁ := by
    refine foldlM_some_invariant (P := fun _ s₂ => NothingAdded s s₂) ?_ _ s (.refl s) hrun
    intro p ps s₂ s₃ hadded hsend _
    exact hadded.trans (.trySend hsend)
  exact hadded

/-- **A drained message** is added to the write buffer of its slot, if this is active, and
to no other. -/
theorem writeBuffer_drainMessage (s : ExchangeServer) (message : OutboundMessage) (fd : Fd) :
    (s.drainMessage message).writeBuffer fd
      = s.writeBuffer fd
        ++ if s.delivers message ∧ fd = message.fd then message.payload else [] := by
  rcases drainMessage_cases s message with ⟨hdelivers, heq⟩ | ⟨client, hc, -, hdelivers, heq⟩
  · rw [heq, hdelivers, if_neg (by simp), List.append_nil]
  · have hlt : message.fd < s.clients.length := (List.getElem?_eq_some_iff.mp hc).1
    rw [heq, hdelivers]
    by_cases hfd : fd = message.fd
    · rw [if_pos ⟨rfl, hfd⟩, hfd, writeBuffer_of_some hc]
      exact writeBuffer_setClient_self hlt _
    · rw [if_neg fun hand => hfd hand.2, List.append_nil]
      exact writeBuffer_setClient_of_ne hfd _

end ExchangeServer

end Exchange
