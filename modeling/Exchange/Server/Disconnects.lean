import Exchange.Server.Wakeups

/-!
# Disconnects

`handle_write` takes a `send` that returns 0 for the end of the connection.  A `send` of
no bytes returns 0 too, and the function does not look whether there is anything to send:
it relies on `EPOLLOUT` being registered only while there is.  `try_send` breaks this when
it sends the rest of a buffer for which `EPOLLOUT` had been registered, since it does not
take the registration back.

## Main definitions

* `Remains`, `Reading.Left` — what `recv` has left of a socket.
* `EventLoop.overtakes` — the step that goes wrong.
* `EventLoop.Armed` — `EPOLLOUT` is registered only where something is to be sent.
* `EventLoop.EndsAt` — the socket of a connection has failed or come to its end.

## Main results

* `Reading.Left.readStep` — a step of `handle_read` closes a connection only at the end of
  the stream or at an error.
* `EventLoop.Armed.step` — a step that does not overtake keeps the registrations right.
* `registered_unsent` — without overtaking no healthy client is disconnected.
-/

namespace Exchange

open ExchangeServer

/-! ### What `recv` leaves -/

/-- What `recv` has left of a socket: its last arrivals, or these behind the rest of a
chunk. -/
def Remains (arrivals left : List Arrival) : Prop :=
  left <:+ arrivals ∨ ∃ b bs last, left = .chunk b bs :: last ∧ last <:+ arrivals

theorem Remains.recv {arrivals left left' : List Arrival} {n : ℕ} {res : Received}
    (h : Remains arrivals left) (hrecv : recv n left = (res, left')) : Remains arrivals left' := by
  cases left with
  | nil =>
    rw [Exchange.recv, Prod.mk.injEq] at hrecv
    rw [← hrecv.2]
    exact Or.inl List.nil_suffix
  | cons a last =>
    have hlast : last <:+ arrivals := by
      rcases h with hsuffix | ⟨b, bs, last', heq, hsuffix⟩
      · exact (List.suffix_cons a last).trans hsuffix
      · rw [(List.cons.inj heq).2]
        exact hsuffix
    cases a with
    | again => rw [Exchange.recv, Prod.mk.injEq] at hrecv; rw [← hrecv.2]; exact Or.inl hlast
    | closed => rw [Exchange.recv, Prod.mk.injEq] at hrecv; rw [← hrecv.2]; exact Or.inl hlast
    | failed => rw [Exchange.recv, Prod.mk.injEq] at hrecv; rw [← hrecv.2]; exact Or.inl hlast
    | chunk b bs =>
      cases n with
      | zero =>
        rw [Exchange.recv, Prod.mk.injEq] at hrecv
        rw [← hrecv.2]
        exact h
      | succ n =>
        -- the chunk is used up, or its rest stays
        rw [Exchange.recv] at hrecv
        split at hrecv
        · rw [← (Prod.mk.inj hrecv).2]
          exact Or.inl hlast
        · next c cs _ =>
          rw [← (Prod.mk.inj hrecv).2]
          exact Or.inr ⟨c, cs, last, rfl, hlast⟩

/-- A `recv` of at least one byte that returns 0 or an error has met the end of the stream
or the error. -/
theorem recv_ended {left left' : List Arrival} {n : ℕ} {res : Received} (hn : 0 < n)
    (hrecv : recv n left = (res, left')) (hres : res = .closed ∨ res = .failed) :
    ∃ a, (a = .closed ∨ a = .failed) ∧ left = a :: left' := by
  cases left with
  | nil =>
    rw [recv, Prod.mk.injEq] at hrecv
    rw [← hrecv.1] at hres
    exact absurd hres (by simp)
  | cons a last =>
    cases a with
    | again =>
      rw [recv, Prod.mk.injEq] at hrecv
      rw [← hrecv.1] at hres
      exact absurd hres (by simp)
    | closed =>
      rw [recv, Prod.mk.injEq] at hrecv
      exact ⟨.closed, Or.inl rfl, by rw [hrecv.2]⟩
    | failed =>
      rw [recv, Prod.mk.injEq] at hrecv
      exact ⟨.failed, Or.inr rfl, by rw [hrecv.2]⟩
    | chunk b bs =>
      obtain ⟨m, rfl⟩ : ∃ m, n = m + 1 := ⟨n - 1, by omega⟩
      rw [recv] at hrecv
      split at hrecv
      · rw [← (Prod.mk.inj hrecv).1] at hres
        exact absurd hres (by simp)
      · rw [← (Prod.mk.inj hrecv).1] at hres
        exact absurd hres (by simp)

/-- What a call has left of the socket: if it has closed the connection, everything behind
the end of the stream or an error. -/
structure Reading.Left (arrivals : List Arrival) (r : Reading) : Prop where
  header : r.client.readPhase = .HEADER → r.client.bytesRead < 5
  remains : r.client.active = true → Remains arrivals r.arrivals
  ended : r.client.active = false →
    ∃ a, (a = .closed ∨ a = .failed) ∧ a :: r.arrivals <:+ arrivals

namespace Reading.Left

variable {arrivals : List Arrival} {r : Reading}

/-- A connection that is still open. -/
theorem of_active (hheader : r.client.readPhase = .HEADER → r.client.bytesRead < 5)
    (hactive : r.client.active = true) (hremains : Remains arrivals r.arrivals) :
    r.Left arrivals :=
  ⟨hheader, fun _ => hremains, fun hclosed => absurd (hclosed.symm.trans hactive) (by decide)⟩

theorem completes {r₁ : Reading} (h : r.Left arrivals) (hactive : r.client.active = true)
    (hc : Completes r r₁) : r₁.client.active = true ∧ Remains arrivals r₁.arrivals := by
  cases hc with
  | before _ => exact ⟨hactive, h.remains hactive⟩
  | now _ hrecv _ => exact ⟨hactive, (h.remains hactive).recv hrecv⟩

theorem readStep {room : ℕ → Bool} {fd : Fd} {r' : Reading} (h : r.Left arrivals)
    (hs : ReadStep room fd r r') : r'.Left arrivals := by
  have hheader := readStep_header hs h.header
  cases hs with
  | header hactive _ hrecv _ =>
    exact of_active hheader hactive ((h.remains hactive).recv hrecv)
  | decode hactive _ hrecv _ =>
    exact of_active hheader ((decodeHeader_active _).trans hactive)
      ((h.remains hactive).recv hrecv)
  | payload hactive _ hrecv _ =>
    exact of_active hheader hactive ((h.remains hactive).recv hrecv)
  | again hactive _ hrecv => exact of_active hheader hactive ((h.remains hactive).recv hrecv)
  | disconnect hactive hwants hrecv hres =>
    refine ⟨hheader, fun hopen => absurd hopen Bool.false_ne_true, fun _ => ?_⟩
    obtain ⟨a, ha, hleft⟩ := recv_ended (hwants.pos h.header) hrecv hres
    refine ⟨a, ha, ?_⟩
    -- the end of the stream and an error are no rest of a chunk
    have hremains := h.remains hactive
    rw [hleft] at hremains
    rcases hremains with hsuffix | ⟨b, bs, last, heq, -⟩
    · exact hsuffix
    · rw [(List.cons.inj heq).1] at ha
      exact absurd ha (by simp)
  | push hactive _ hc _ =>
    obtain ⟨hactive₁, hremains⟩ := h.completes hactive hc
    exact of_active hheader hactive₁ hremains
  | keep hactive _ hc _ =>
    obtain ⟨hactive₁, hremains⟩ := h.completes hactive hc
    exact of_active hheader hactive₁ hremains

end Reading.Left

/-! ### The registrations -/

namespace EventLoop

/-- A `try_send` sends the rest of a write buffer while `EPOLLOUT` is registered. -/
def overtakes (s : EventLoop) : IoStep → Bool
  | .send (.room k) =>
      match s.phase with
      | .flushing (fd :: _) =>
          (s.server.client fd).active && !(s.server.client fd).writeBuffer.isEmpty
            && s.server.rest fd ≤ k + 1 && s.server.epoll fd = some true
      | _ => false
  | _ => false

/-- `EPOLLOUT` is registered only where something is to be sent. -/
def Armed (s : ExchangeServer) : Prop :=
  ∀ fd, (s.client fd).active = true → s.epoll fd = some true →
    (s.client fd).bytesSent < (s.client fd).writeBuffer.length

namespace Armed

variable {s s' : ExchangeServer} {fd : Fd}

theorem only (h : Armed s) (honly : OnlyAt fd s s')
    (hself : (s'.client fd).active = true → s'.epoll fd = some true →
      (s'.client fd).bytesSent < (s'.client fd).writeBuffer.length) : Armed s' :=
  honly.all (P := fun _ c e _ => c.active = true → e = some true →
    c.bytesSent < c.writeBuffer.length) (fun fd' _ => h fd') hself

/-- The write buffers only grow when a message is drained. -/
theorem drainMessage (h : Armed s) (message : OutboundMessage) :
    Armed (s.drainMessage message) := by
  intro fd hactive harmed
  rw [epoll_drainMessage] at harmed
  rw [client_drainMessage] at hactive ⊢
  have hlt := h fd hactive harmed
  simp only [List.length_append]
  omega

theorem disconnectClient (h : Armed s) (hactive : (s.client fd).active = true) :
    Armed (s.disconnectClient fd) := by
  refine h.only (onlyAt_disconnectClient s fd) fun hactive' => ?_
  rw [client_disconnectClient (getElem?_of_active hactive)] at hactive'
  exact absurd hactive' Bool.false_ne_true

/-- A `try_send` that does not overtake. -/
theorem trySend {w : Writable} (h : Armed s) (hs : s.trySend w fd = some s')
    (hfree : ∀ k, w = .room k → (s.client fd).active = true → (s.client fd).writeBuffer ≠ [] →
      s.rest fd ≤ k + 1 → s.epoll fd ≠ some true) : Armed s' := by
  have honly := onlyAt_trySend hs
  cases trySends hs with
  | skip _ => exact h
  | again _ _ _ => exact h
  | close hactive _ _ => exact h.disconnectClient hactive
  | complete hactive hne hw _ hle =>
    exact h.only honly fun _ hepoll => absurd hepoll (hfree _ hw hactive hne hle)
  | part hactive _ hlt =>
    refine h.only honly fun _ _ => ?_
    rw [rest] at hlt
    rw [client_setEpollWrite, client_advanced hactive]
    show (s.client fd).bytesSent + (_ + 1) < (s.client fd).writeBuffer.length
    omega

/-- `handle_write` takes the registration back when it has sent the rest. -/
theorem handleWrite {w : Writable} (h : Armed s) (hs : s.handleWrite w fd = some s') :
    Armed s' := by
  have honly := onlyAt_handleWrite hs
  cases handlesWrite hs with
  | skip _ => exact h
  | again _ _ => exact h
  | close hactive _ => exact h.disconnectClient hactive
  | complete _ _ _ _ =>
    refine h.only honly fun _ hepoll => ?_
    have hoff : Function.update s.epoll fd ((s.epoll fd).map fun _ => false) fd = some true :=
      hepoll
    rw [Function.update_self, Option.map_eq_some_iff] at hoff
    obtain ⟨_, -, hfalse⟩ := hoff
    exact absurd hfalse Bool.false_ne_true
  | part hactive _ hlt =>
    refine h.only honly fun _ _ => ?_
    rw [rest] at hlt
    rw [client_advanced hactive]
    show (s.client fd).bytesSent + (_ + 1) < (s.client fd).writeBuffer.length
    omega

/-- `handle_read` leaves the registration and the write buffer of an open connection
alone. -/
theorem handleRead {room : ℕ → Bool} {arrivals : List Arrival} {c : ClientState} {r : Reading}
    (h : Armed s) (hc : s.clients[fd]? = some c)
    (hr : r = handleRead room fd (.begin c arrivals)) :
    Armed (if r.client.active = c.active then s.setClient fd r.client
      else s.disconnectClient fd) := by
  refine h.only (onlyAt_handleRead s fd c r) fun hactive' hepoll => ?_
  obtain ⟨heq, hactive⟩ := handleRead_open hc hactive'
  rw [heq] at hepoll
  rw [heq, client_setClient_self hc] at hactive' ⊢
  have hkeeps : r.KeepsOut c := by
    rw [hr]
    exact keepsOut_handleRead room fd c arrivals
  obtain ⟨hbuffer, hsent⟩ := hkeeps hactive'
  rw [hbuffer, hsent]
  have hlt := h fd
  rw [client_of_some hc] at hlt
  exact hlt hactive hepoll

/-- **A step that does not overtake** keeps the registrations right. -/
theorem step {s s' : EventLoop} {e : IoStep} (h : Armed s.server) (hfree : s.overtakes e = false)
    (hs : s.step e = some s') : Armed s'.server := by
  cases steps hs with
  | drain message _ => exact h.drainMessage message
  | drained _ => exact h
  | send hp hsend =>
    refine h.trySend hsend fun k hw hactive hne hle hepoll => ?_
    rw [hw, overtakes, hp] at hfree
    simp [hactive, hne, hle, hepoll] at hfree
  | flushed _ => exact h
  | wait _ _ _ => exact h
  | accept _ haccept =>
    refine h.only (onlyAt_acceptClient haccept) fun _ hepoll => ?_
    rw [(acceptClient_kernel haccept).2.2] at hepoll
    exact absurd hepoll (by simp)
  | accepted _ => exact h
  | read _ hc hr => exact h.handleRead hc hr
  | write _ hwrite => exact h.handleWrite hwrite
  | handled _ => exact h
  | cycle _ => exact h
  | arrive _ _ => exact h
  | pop _ => exact h

end Armed

theorem armed_start (reserved : Fd → Bool) : Armed (start reserved).server :=
  fun _ _ hepoll => absurd hepoll.symm (Option.some_ne_none true)

/-! ### The end of a connection -/

/-- The socket of a connection has failed or come to its end in a step: a `send` has
returned an error, or a `recv` has taken the end of the stream or an error from it. -/
inductive EndsAt (s : EventLoop) (fd : Fd) : IoStep → EventLoop → Prop
  | send {fds : List Fd} {s' : EventLoop} (hp : s.phase = .flushing (fd :: fds)) :
      EndsAt s fd (.send .failed) s'
  | write {events : List PollEvent} {s' : EventLoop}
      (hp : s.phase = .handling (.client fd false true :: events)) : EndsAt s fd (.write .failed) s'
  | recv {pops : ℕ → ℕ} {writable : Bool} {events : List PollEvent} {a : Arrival} {s' : EventLoop}
      (hp : s.phase = .handling (.client fd true writable :: events))
      (ha : a = .closed ∨ a = .failed) (hrecv : a :: s'.sockets fd <:+ s.sockets fd) :
      EndsAt s fd (.read pops) s'

/-- What is unsent where an event is handled that epoll has reported. -/
theorem rest_of_handling {s : EventLoop} {fd : Fd} {readable : Bool} {events : List PollEvent}
    (hinv : s.Inv) (harmed : Armed s.server)
    (hp : s.phase = .handling (.client fd readable true :: events))
    (hactive : (s.server.client fd).active = true) : 0 < s.server.rest fd := by
  have hepoll := (hinv.events _ hp).armed fd readable List.mem_cons_self hactive
  have hlt := harmed fd hactive hepoll
  rw [rest]
  omega

section Closed

variable {s s' : ExchangeServer} {fd : Fd} (hactive : (s.client fd).active = true)

include hactive

/-- `try_send` closes a connection only when `send` returns an error: a write buffer that
is not empty has unsent bytes. -/
theorem failed_of_trySend {w : Writable} (hslot : s.SlotOk fd) (hs : s.trySend w fd = some s')
    (hclosed : (s'.client fd).active = false) : w = .failed := by
  cases trySends hs with
  | skip _ => exact absurd (hactive.symm.trans hclosed) (by simp)
  | again _ _ _ => exact absurd (hactive.symm.trans hclosed) (by simp)
  | close _ hne hw =>
    refine hw.resolve_right fun hzero => ?_
    rw [rest] at hzero
    rcases hslot.buffer with ⟨hnil, -⟩ | hlt
    · exact hne hnil
    · omega
  | complete _ _ _ _ _ =>
    rw [client_completed hactive] at hclosed
    exact absurd (hactive.symm.trans hclosed) (by simp)
  | part _ _ _ =>
    rw [client_setEpollWrite, client_advanced hactive] at hclosed
    exact absurd (hactive.symm.trans hclosed) (by simp)

/-- `handle_write` closes a connection that has unsent bytes only when `send` returns an
error. -/
theorem failed_of_handleWrite {w : Writable} (hpos : 0 < s.rest fd)
    (hs : s.handleWrite w fd = some s') (hclosed : (s'.client fd).active = false) :
    w = .failed := by
  cases handlesWrite hs with
  | skip _ => exact absurd (hactive.symm.trans hclosed) (by simp)
  | again _ _ => exact absurd (hactive.symm.trans hclosed) (by simp)
  | close _ hw => exact hw.resolve_right (Nat.pos_iff_ne_zero.mp hpos)
  | complete _ _ _ _ =>
    rw [client_setEpollWrite, client_completed hactive] at hclosed
    exact absurd (hactive.symm.trans hclosed) (by simp)
  | part _ _ _ =>
    rw [client_advanced hactive] at hclosed
    exact absurd (hactive.symm.trans hclosed) (by simp)

/-- `handle_read` closes a connection only at the end of the stream or at an error. -/
theorem ended_of_handleRead {room : ℕ → Bool} {arrivals : List Arrival} {c : ClientState}
    {r : Reading} (hslot : s.SlotOk fd) (hc : s.clients[fd]? = some c)
    (hr : r = handleRead room fd (.begin c arrivals))
    (hclosed : ((if r.client.active = c.active then s.setClient fd r.client
      else s.disconnectClient fd).client fd).active = false) :
    ∃ a, (a = .closed ∨ a = .failed) ∧ a :: r.arrivals <:+ arrivals := by
  have hopen : c.active = true := by
    rw [← client_of_some hc]
    exact hactive
  have hleft : r.Left arrivals := by
    rw [hr]
    refine handleRead_invariant (P := Reading.Left arrivals)
      (fun _ _ h _ => ⟨h.header, h.remains, h.ended⟩) (fun _ _ h hs => h.readStep hs) ?_
    refine Reading.Left.of_active ?_ hopen (Or.inl List.suffix_rfl)
    have hheader := hslot.header
    rw [client_of_some hc] at hheader
    exact hheader
  apply hleft.ended
  by_cases hsame : r.client.active = c.active
  · rw [if_pos hsame, client_setClient_self hc] at hclosed
    exact hclosed
  · rw [hopen] at hsame
    exact Bool.eq_false_iff.mpr hsame

end Closed

/-- **A step closes a connection** only when its socket has failed or come to its end. -/
theorem endsAt_of_closed {s s' : EventLoop} {e : IoStep} {fd : Fd} (hinv : s.Inv)
    (harmed : Armed s.server) (hs : s.step e = some s')
    (hactive : (s.server.client fd).active = true)
    (hclosed : (s'.server.client fd).active = false) : EndsAt s fd e s' := by
  -- a step that leaves the slot alone does not close the connection
  have hsame : s'.server.client fd ≠ s.server.client fd := by
    intro heq
    rw [heq, hactive] at hclosed
    exact absurd hclosed (by simp)
  have honly : ∀ fd', OnlyAt fd' s.server s'.server → fd = fd' := by
    intro fd' honly
    by_contra hfd
    exact hsame (honly fd hfd).1
  cases steps hs with
  | drain message _ =>
    have hopen : ((s.server.drainMessage message).client fd).active = true := by
      rw [client_drainMessage]
      exact hactive
    exact absurd (hopen.symm.trans hclosed) (by simp)
  | drained _ => exact absurd rfl hsame
  | send hp hsend =>
    obtain rfl := honly _ (onlyAt_trySend hsend)
    obtain rfl := failed_of_trySend hactive (hinv.slots fd) hsend hclosed
    exact .send hp
  | flushed _ => exact absurd rfl hsame
  | wait _ _ _ => exact absurd rfl hsame
  | accept _ haccept =>
    obtain rfl := honly _ (onlyAt_acceptClient haccept)
    rw [(acceptClient_client haccept).1] at hclosed
    exact absurd hclosed (by simp)
  | accepted _ => exact absurd rfl hsame
  | @read pops fd' writable events c r hp hc hr =>
    obtain rfl := honly _ (onlyAt_handleRead s.server fd' c r)
    obtain ⟨a, ha, hsuffix⟩ := ended_of_handleRead hactive (hinv.slots fd) hc hr hclosed
    refine .recv hp ha ?_
    show a :: Function.update s.sockets fd r.arrivals fd <:+ s.sockets fd
    rw [Function.update_self]
    exact hsuffix
  | write hp hwrite =>
    obtain rfl := honly _ (onlyAt_handleWrite hwrite)
    have hpos := rest_of_handling hinv harmed hp hactive
    obtain rfl := failed_of_handleWrite hactive hpos hwrite hclosed
    exact .write hp
  | handled _ => exact absurd rfl hsame
  | cycle _ => exact absurd rfl hsame
  | arrive _ _ => exact absurd rfl hsame
  | pop _ => exact absurd rfl hsame

end EventLoop

/-- **Healthy clients stay connected.**  In every run in which no `try_send` sends the rest
of a write buffer while `EPOLLOUT` is registered: `EPOLLOUT` is registered for an open
connection only while it has unsent bytes, `handle_write` never calls `send` with an empty
range, and a step closes a connection only when `send` on its descriptor has returned an
error, or `recv` 0 or an error. -/
theorem registered_unsent {reserved : Fd → Bool} {steps : List IoStep} {s : EventLoop}
    (hrun : (EventLoop.start reserved).run steps = some s)
    (hfree : (EventLoop.start reserved).avoids EventLoop.overtakes steps = true) :
    (∀ fd, (s.server.client fd).active = true → s.server.epoll fd = some true →
        (s.server.client fd).bytesSent < (s.server.client fd).writeBuffer.length) ∧
      (∀ fd events, s.phase = .handling (.client fd false true :: events) →
        (s.server.client fd).active = true → 0 < s.server.rest fd) ∧
      ∀ e s', s.step e = some s' → ∀ fd, (s.server.client fd).active = true →
        (s'.server.client fd).active = false → EventLoop.EndsAt s fd e s' := by
  have hinv : s.Inv ∧ EventLoop.Armed s.server := by
    refine EventLoop.run_invariant (P := fun s => s.Inv ∧ EventLoop.Armed s.server) ?_
      ⟨EventLoop.inv_start reserved, EventLoop.armed_start reserved⟩ hfree hrun
    intro t e t' ⟨hinv, harmed⟩ hstep hs
    exact ⟨hinv.step hs, harmed.step hstep hs⟩
  obtain ⟨hinv, harmed⟩ := hinv
  refine ⟨harmed, fun fd events hp hactive => ?_, fun e s' hs fd hactive hclosed => ?_⟩
  · exact EventLoop.rest_of_handling hinv harmed hp hactive
  · exact EventLoop.endsAt_of_closed hinv harmed hs hactive hclosed

/-- A client takes five bytes of an answer, and the rest of it after an event. -/
theorem registered_unsent_part :
    ∃ s, (EventLoop.start (fun fd => fd < 5)).run
        (orderSteps ++ [orderAnswer, .drained, .send (.room 4), .flushed,
          .wait [.client 5 false true]]) = some s ∧
      s.server.epoll 5 = some true ∧ 0 < s.server.rest 5 := by
  have heval : ((EventLoop.start (fun fd => fd < 5)).run
      (orderSteps ++ [orderAnswer, .drained, .send (.room 4), .flushed,
        .wait [.client 5 false true]])).map
        (fun s => (s.phase, (s.server.client 5).active, s.server.epoll 5))
      = some (.handling [.client 5 false true], true, some true) := by
    decide +kernel
  obtain ⟨s, hrun, hs⟩ := Option.map_eq_some_iff.mp heval
  simp only [Prod.mk.injEq] at hs
  obtain ⟨hp, hactive, hepoll⟩ := hs
  refine ⟨s, hrun, hepoll, (registered_unsent hrun ?_).2.1 5 [] hp hactive⟩
  decide +kernel

/-- A second order, after part of the first answer has been sent: the rest is sent with the
second answer, and `EPOLLOUT` stays registered. -/
def overtakingSteps : List IoStep :=
  orderSteps ++ [orderAnswer, .drained, .send (.room 4), .flushed, .arrive 5 (orderArrival 8),
    .wait [.client 5 true false], .read (fun _ => 0), .handled, .cycle, .pop 1,
    .drain ⟨5, (ackFrame 8).bytes⟩, .drained, .send (.room 20), .flushed]

/-- A client that has sent two orders and taken both answers is disconnected: `EPOLLOUT` is
registered for it when the loop waits, though nothing is left to send, and `handle_write`
takes the result of sending nothing for the end of the connection. -/
theorem registered_nothing_unsent :
    ∃ s s', (EventLoop.start (fun fd => fd < 5)).run overtakingSteps = some s ∧
      s.phase = .waiting ∧ (s.server.client 5).active = true ∧ s.server.epoll 5 = some true ∧
      s.server.rest 5 = 0 ∧
      s.run [.wait [.client 5 false true], .write (.room 0)] = some s' ∧
      (s'.server.client 5).active = false := by
  have heval : ((EventLoop.start (fun fd => fd < 5)).run overtakingSteps).map
      (fun s => (s.phase, (s.server.client 5).active, s.server.epoll 5, s.server.rest 5,
        (s.run [.wait [.client 5 false true], .write (.room 0)]).map
          fun s' => (s'.server.client 5).active))
      = some (.waiting, true, some true, 0, some false) := by
    decide +kernel
  obtain ⟨s, hrun, hs⟩ := Option.map_eq_some_iff.mp heval
  simp only [Prod.mk.injEq] at hs
  obtain ⟨hp, hactive, hepoll, hrest, hnext⟩ := hs
  obtain ⟨s', hrun', hclosed⟩ := Option.map_eq_some_iff.mp hnext
  exact ⟨s, s', hrun, hp, hactive, hepoll, hrest, hrun', hclosed⟩

end Exchange
