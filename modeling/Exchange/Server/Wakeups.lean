import Exchange.Server.Interest

/-!
# Wake-ups

What a socket did not take is sent when it is writable again, if `EPOLLOUT` is registered
by then.  `try_send` registers it when it has sent a part, and `handle_write` takes it
back when it has sent the rest.  A `try_send` that is refused with `EAGAIN` registers
nothing: its bytes wait for another message to the same client.

## Main definitions

* `EventLoop.pending` — the descriptors that are still to be flushed.
* `EventLoop.stalls` — the step that goes wrong.
* `EventLoop.Woken` — what has not been sent is sent later.

## Main results

* `EventLoop.Woken.step` — a step that does not stall leaves no reply without a wake-up.
* `unsent_registered` — without stalls every reply has a wake-up.
-/

namespace Exchange

open ExchangeServer

namespace EventLoop

/-- The descriptors that `flush_pending_writes` has still to go through. -/
def pending (s : EventLoop) : List Fd :=
  match s.phase with
  | .draining => s.server.pendingWrites
  | .flushing fds => fds
  | _ => []

/-- A connection is open and has unsent bytes. -/
def HasUnsent (c : ClientState) : Prop := c.active = true ∧ c.bytesSent < c.writeBuffer.length

/-- A `try_send` is refused with `EAGAIN`, and is the last one of its descriptor in this
flush, while `EPOLLOUT` is not registered. -/
def stalls (s : EventLoop) : IoStep → Bool
  | .send .again =>
      match s.phase with
      | .flushing (fd :: fds) =>
          (s.server.client fd).active && !(s.server.client fd).writeBuffer.isEmpty
            && s.server.epoll fd ≠ some true && fd ∉ fds
      | _ => false
  | _ => false

/-- What has not been sent is sent later: `EPOLLOUT` is registered, or a `try_send` is
pending. -/
def Woken (s : EventLoop) : Prop :=
  ∀ fd, HasUnsent (s.server.client fd) → s.server.epoll fd = some true ∨ fd ∈ s.pending

namespace Woken

variable {s s' : EventLoop}

theorem only {fd : Fd} (h : s.Woken) (honly : OnlyAt fd s.server s'.server)
    (hpending : ∀ fd', fd' ≠ fd → fd' ∈ s.pending → fd' ∈ s'.pending)
    (hself : HasUnsent (s'.server.client fd) → s'.server.epoll fd = some true ∨ fd ∈ s'.pending) :
    s'.Woken := by
  refine honly.all (P := fun fd' c e _ => HasUnsent c → e = some true ∨ fd' ∈ s'.pending) ?_ hself
  intro fd' hfd hunsent
  exact (h fd' hunsent).imp_right (hpending fd' hfd)

/-- Nothing is pending while the events are handled. -/
theorem registered (h : s.Woken) {events : List PollEvent} (hp : s.phase = .handling events)
    {fd : Fd} (hunsent : HasUnsent (s.server.client fd)) : s.server.epoll fd = some true := by
  refine (h fd hunsent).resolve_right ?_
  rw [pending, hp]
  exact List.not_mem_nil

/-- A `try_send` that does not stall. -/
theorem send {w : Writable} {fd : Fd} {fds : List Fd} {server : ExchangeServer} (h : s.Woken)
    (hinv : s.Inv) (hstall : s.stalls (.send w) = false) (hp : s.phase = .flushing (fd :: fds))
    (hs : s.server.trySend w fd = some server) :
    Woken { s with server, phase := .flushing fds } := by
  refine only h (onlyAt_trySend hs) ?_ ?_
  · intro fd' hfd hmem
    rw [pending, hp] at hmem
    exact List.mem_of_ne_of_mem hfd hmem
  · rintro ⟨hactive', hlt'⟩
    cases trySends hs with
    | skip hskip =>
      rcases hskip with hclosed | hnil
      · exact absurd (hclosed.symm.trans hactive') Bool.false_ne_true
      · rw [hnil] at hlt'
        exact absurd hlt' (Nat.not_lt_zero _)
    | again hactive hne hw =>
      -- the step does not stall: it is registered, or tried again
      rw [hw, stalls, hp] at hstall
      simp only [hactive, Bool.true_and, Bool.and_eq_false_iff, Bool.not_eq_false',
        List.isEmpty_iff, decide_eq_false_iff_not, not_not] at hstall
      exact hstall.imp_left fun hor => hor.resolve_left hne
    | close hactive _ _ =>
      rw [client_disconnectClient (getElem?_of_active hactive)] at hactive'
      exact absurd hactive' Bool.false_ne_true
    | complete hactive _ _ _ _ =>
      rw [client_completed hactive] at hlt'
      exact absurd hlt' (Nat.not_lt_zero _)
    | part hactive _ _ =>
      obtain ⟨b, hb⟩ := (hinv.slots fd).epoll_of_active hactive
      left
      show Function.update s.server.epoll fd ((s.server.epoll fd).map fun _ => true) fd = some true
      rw [Function.update_self, hb]
      rfl

/-- `handle_write` leaves the registration until everything is sent. -/
theorem write {w : Writable} {fd : Fd} {events : List PollEvent} {server : ExchangeServer}
    (h : s.Woken) (hp : s.phase = .handling (.client fd false true :: events))
    (hs : s.server.handleWrite w fd = some server) :
    Woken { s with server, phase := .handling (.client fd false false :: events) } := by
  refine only h (onlyAt_handleWrite hs) ?_ ?_
  · intro fd' _ hmem
    rw [pending, hp] at hmem
    exact absurd hmem List.not_mem_nil
  · rintro ⟨hactive', hlt'⟩
    cases handlesWrite hs with
    | skip hclosed => exact absurd (hclosed.symm.trans hactive') Bool.false_ne_true
    | again _ _ => exact Or.inl (h.registered hp ⟨hactive', hlt'⟩)
    | close hactive _ =>
      rw [client_disconnectClient (getElem?_of_active hactive)] at hactive'
      exact absurd hactive' Bool.false_ne_true
    | complete hactive _ _ _ =>
      rw [client_setEpollWrite, client_completed hactive] at hlt'
      exact absurd hlt' (Nat.not_lt_zero _)
    | part hactive _ hlt =>
      left
      refine h.registered hp ⟨hactive, ?_⟩
      rw [rest] at hlt
      omega

/-- `handle_read` leaves the write buffer of an open connection alone. -/
theorem read {room : ℕ → Bool} {fd : Fd} {arrivals : List Arrival} {c : ClientState} {r : Reading}
    {events : List PollEvent} (h : s.Woken) (hp : s.phase = .handling events)
    (hc : s.server.clients[fd]? = some c)
    (hr : r = handleRead room fd (.begin c arrivals))
    (hserver : s'.server = if r.client.active = c.active then s.server.setClient fd r.client
      else s.server.disconnectClient fd) : s'.Woken := by
  have honly := onlyAt_handleRead s.server fd c r
  rw [← hserver] at honly
  refine only h honly ?_ ?_
  · intro fd' _ hmem
    rw [pending, hp] at hmem
    exact absurd hmem List.not_mem_nil
  · rintro ⟨hactive', hlt'⟩
    rw [hserver] at hactive'
    obtain ⟨heq, hactive⟩ := handleRead_open hc hactive'
    rw [heq, client_setClient_self hc] at hactive'
    rw [hserver, heq, client_setClient_self hc] at hlt'
    have hkeeps : r.KeepsOut c := by
      rw [hr]
      exact keepsOut_handleRead room fd c arrivals
    obtain ⟨hbuffer, hsent⟩ := hkeeps hactive'
    rw [hbuffer, hsent] at hlt'
    left
    rw [hserver, heq]
    refine h.registered hp ?_
    rw [client_of_some hc]
    exact ⟨hactive, hlt'⟩

/-- The descriptor of a drained message is pending. -/
theorem drain {message : OutboundMessage} (h : s.Woken) (hp : s.phase = .draining) :
    Woken { s with server := s.server.drainMessage message } := by
  have hpending : ∀ server, pending { s with server } = server.pendingWrites := by
    intro server
    rw [pending, hp]
  have hor : ∀ fd, HasUnsent (s.server.client fd) →
      s.server.epoll fd = some true ∨ fd ∈ s.server.pendingWrites := by
    intro fd hunsent
    rw [← hpending s.server]
    exact h fd hunsent
  intro fd hunsent
  rw [hpending]
  rcases drainMessage_cases s.server message with ⟨-, heq⟩ | ⟨c, -, -, -, heq⟩
  · simp only [heq] at hunsent ⊢
    exact hor fd hunsent
  · by_cases hfd : fd = message.fd
    · right
      rw [heq, hfd]
      exact List.mem_append_right _ List.mem_cons_self
    · simp only [client_drainMessage, if_neg fun hand : _ ∧ fd = message.fd => hfd hand.2,
        List.append_nil] at hunsent
      rw [heq]
      exact (hor fd hunsent).imp_right fun hmem => List.mem_append_left _ hmem

/-- **A step that does not stall** leaves no reply without a wake-up. -/
theorem step {e : IoStep} (h : s.Woken) (hinv : s.Inv) (hstall : s.stalls e = false)
    (hs : s.step e = some s') : s'.Woken := by
  cases steps hs with
  | drain message hp => exact h.drain hp
  | drained hp =>
    intro fd hunsent
    have hor := h fd hunsent
    rw [pending, hp] at hor
    exact hor
  | send hp hsend => exact h.send hinv hstall hp hsend
  | flushed hp =>
    intro fd hunsent
    have hor := h fd hunsent
    rw [pending, hp] at hor
    exact hor
  | wait hp _ _ =>
    intro fd hunsent
    have hor := h fd hunsent
    rw [pending, hp] at hor
    exact hor
  | @accept fd events server hp haccept =>
    refine only h (onlyAt_acceptClient haccept) (fun _ _ hmem => ?_) ?_
    · rw [pending, hp] at hmem
      exact absurd hmem List.not_mem_nil
    · rintro ⟨-, hlt'⟩
      rw [(acceptClient_client haccept).1] at hlt'
      exact absurd hlt' (Nat.not_lt_zero _)
  | accepted hp => exact fun fd hunsent => Or.inl (h.registered hp hunsent)
  | read hp hc hr => exact h.read hp hc hr rfl
  | write hp hwrite => exact h.write hp hwrite
  | handled hp => exact fun fd hunsent => Or.inl (h.registered hp hunsent)
  | cycle hp => exact fun fd hunsent => Or.inl (h.registered hp hunsent)
  | arrive _ _ => exact h
  | pop _ => exact h

end Woken

theorem woken_start (reserved : Fd → Bool) : (start reserved).Woken := by
  intro fd hunsent
  have hreg := ((inv_start reserved).slots fd).registered
  rw [hunsent.1] at hreg
  exact absurd hreg Bool.false_ne_true

/-- A socket that has become writable is given the next of the unsent bytes. -/
theorem wait_write {s : EventLoop} {fd : Fd} (hp : s.phase = .waiting)
    (hunsent : HasUnsent (s.server.client fd)) (hepoll : s.server.epoll fd = some true) (k : ℕ) :
    ∃ s', s.run [.wait [.client fd false true], .write (.room k)] = some s' ∧
      s'.server.wire fd = s.server.wire fd ++ (s.server.unsent fd).take (k + 1) := by
  obtain ⟨hactive, hlt⟩ := hunsent
  have hc := getElem?_of_active hactive
  have hwait : s.step (.wait [.client fd false true])
      = some { s with phase := .handling [.client fd false true] } := by
    simp [step, hp, reports, hepoll]
  have hwrite : ∃ server, s.server.handleWrite (.room k) fd = some server := by
    rw [handleWrite, hc]
    exact ⟨_, rfl⟩
  obtain ⟨server, hserver⟩ := hwrite
  refine ⟨{ s with server, phase := .handling [.client fd false false] }, ?_, ?_⟩
  · rw [run, List.foldlM_cons, hwait]
    show ((s.server.handleWrite (.room k) fd).map _).bind _ = _
    rw [hserver]
    rfl
  · have hpos : 0 < s.server.rest fd := by
      rw [rest]
      omega
    have hlen : (s.server.unsent fd).length = s.server.rest fd := List.length_drop
    cases handlesWrite hserver with
    | skip hclosed => exact absurd (hclosed.symm.trans hactive) Bool.false_ne_true
    | again _ hw => exact absurd hw (by simp)
    | close _ hw => exact absurd hw (by simp; omega)
    | complete _ hw _ hle =>
      obtain rfl := Writable.room.inj hw
      show Function.update s.server.wire fd
        (s.server.wire fd ++ (s.server.unsent fd).take (s.server.rest fd)) fd = _
      rw [Function.update_self, List.take_of_length_le (Nat.le_of_eq hlen),
        List.take_of_length_le (by omega)]
    | part _ hw _ =>
      obtain rfl := Writable.room.inj hw
      show Function.update s.server.wire fd
        (s.server.wire fd ++ (s.server.unsent fd).take (k + 1)) fd = _
      rw [Function.update_self]

end EventLoop

/-- **Replies and wake-ups.**  In every run in which no last `try_send` of a flush is
refused with `EAGAIN` while `EPOLLOUT` is not registered: each time `flush_pending_writes`
has returned, every open connection with unsent bytes has `EPOLLOUT` registered, and once
its socket is writable it is given the next of them. -/
theorem unsent_registered {reserved : Fd → Bool} {steps : List IoStep} {s : EventLoop}
    (hrun : (EventLoop.start reserved).run steps = some s)
    (hstalls : (EventLoop.start reserved).avoids EventLoop.stalls steps = true)
    (hp : s.phase = .waiting) (fd : Fd) (hactive : (s.server.client fd).active = true)
    (hunsent : (s.server.client fd).bytesSent < (s.server.client fd).writeBuffer.length) :
    s.server.epoll fd = some true ∧
      ∀ k, ∃ s', s.run [.wait [.client fd false true], .write (.room k)] = some s' ∧
        s'.server.wire fd = s.server.wire fd ++ (s.server.unsent fd).take (k + 1) := by
  have hwoken : s.Inv ∧ s.Woken := by
    refine EventLoop.run_invariant (P := fun s => s.Inv ∧ s.Woken) ?_
      ⟨EventLoop.inv_start reserved, EventLoop.woken_start reserved⟩ hstalls hrun
    intro t e t' ⟨hinv, hwoken⟩ hstall hstep
    exact ⟨hinv.step hstep, hwoken.step hinv hstall hstep⟩
  have hepoll : s.server.epoll fd = some true := by
    refine (hwoken.2 fd ⟨hactive, hunsent⟩).resolve_right ?_
    rw [EventLoop.pending, hp]
    exact List.not_mem_nil
  exact ⟨hepoll, EventLoop.wait_write hp ⟨hactive, hunsent⟩ hepoll⟩

/-- A frame with an order. -/
def orderArrival (id : UInt8) : Arrival :=
  .chunk 1 [0, 0, 0, 22, id, 0, 0, 0, 0, 0, 0, 0, 100, 0, 0, 0, 0, 0, 0, 0, 10, 0, 0, 0, 1, 0]

/-- A client connects and sends an order, which is read and popped. -/
def orderSteps : List IoStep :=
  [.drained, .flushed, .wait [.listening], .accept 5, .accepted, .cycle,
    .arrive 5 (orderArrival 7), .drained, .flushed, .wait [.client 5 true false],
    .read (fun _ => 0), .handled, .cycle, .pop 1]

/-- The answer to the order. -/
def orderAnswer : IoStep := .drain ⟨5, (ackFrame 7).bytes⟩

/-- Five of the thirteen bytes of the answer are sent. -/
theorem unsent_registered_part :
    ∃ s, (EventLoop.start (fun fd => fd < 5)).run
        (orderSteps ++ [orderAnswer, .drained, .send (.room 4), .flushed]) = some s ∧
      (s.server.client 5).bytesSent = 5 ∧ (s.server.client 5).writeBuffer.length = 13 ∧
      s.server.epoll 5 = some true := by
  have heval : ((EventLoop.start (fun fd => fd < 5)).run
      (orderSteps ++ [orderAnswer, .drained, .send (.room 4), .flushed])).map
        (fun s => (s.phase, (s.server.client 5).active, (s.server.client 5).bytesSent,
          (s.server.client 5).writeBuffer.length)) = some (.waiting, true, 5, 13) := by
    decide +kernel
  obtain ⟨s, hrun, hs⟩ := Option.map_eq_some_iff.mp heval
  simp only [Prod.mk.injEq] at hs
  obtain ⟨hp, hactive, hsent, hlen⟩ := hs
  refine ⟨s, hrun, hsent, hlen, (unsent_registered hrun ?_ hp 5 hactive ?_).1⟩
  · decide +kernel
  · rw [hsent, hlen]
    decide

/-- The answer is refused with `EAGAIN`: it stays in the write buffer, and nothing will
wake the loop for it. -/
theorem unsent_not_registered :
    ¬ ∀ (reserved : Fd → Bool) (steps : List IoStep) (s : EventLoop),
      (EventLoop.start reserved).run steps = some s → s.phase = .waiting → ∀ fd,
      (s.server.client fd).active = true →
      (s.server.client fd).bytesSent < (s.server.client fd).writeBuffer.length →
      s.server.epoll fd = some true := by
  intro h
  have heval : ((EventLoop.start (fun fd => fd < 5)).run
      (orderSteps ++ [orderAnswer, .drained, .send .again, .flushed])).map
        (fun s => (s.phase, (s.server.client 5).active, (s.server.client 5).bytesSent,
          (s.server.client 5).writeBuffer.length, s.server.epoll 5))
      = some (.waiting, true, 0, 13, some false) := by
    decide +kernel
  obtain ⟨s, hrun, hs⟩ := Option.map_eq_some_iff.mp heval
  simp only [Prod.mk.injEq] at hs
  obtain ⟨hp, hactive, hsent, hlen, hepoll⟩ := hs
  have hregistered := h _ _ s hrun hp 5 hactive (by rw [hsent, hlen]; decide)
  rw [hepoll] at hregistered
  exact absurd hregistered (by decide)

end Exchange
