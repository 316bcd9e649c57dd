import Exchange.Server.Interest
import Exchange.Server.Reads

/-!
# The slots are consistent

`clients_` is indexed by descriptors, mostly without a look at its size, and the kernel
hands out descriptors again that have been closed.  Here the functions of the server are
called in any order: a connection is accepted on any descriptor that is closed, and the
other functions are called for any descriptor that was handed out at some time, whether or
not its connection is still open.  The event loop is one such order.

## Main definitions

* `ServerCall`, `ExchangeServer.call`, `ExchangeServer.Calls` — the calls, and what they do.
* `ServerCall.Allowed` — what the kernel and the callers see to.
* `ExchangeServer.Reachable` — the states that calls lead to, with the descriptors handed
  out so far.
* `ExchangeServer.Consistent` — the invariant.

## Main results

* `Consistent.call` — a call keeps the invariant.
* `Consistent.isSome_call` — no call looks at a slot that is not there.
* `slots_consistent` — what holds in every state that can be reached.
* `Reachable.readReachable` — the slot of an open connection is one that calls of
  `handle_read` lead to.
* `EventLoop.step_reachable`, `EventLoop.run_reachable` — the event loop makes calls that
  are allowed.
-/

namespace Exchange

open ExchangeServer

/-! ### Calls -/

/-- The largest `int`. -/
def INT_MAX : ℕ := 2 ^ 31 - 1

/-- The calls of the functions of the server; of `accept_client` and of
`drain_outbound_queue`, the rounds of their loops. -/
inductive ServerCall
  | accept (fd : Fd)
  | read (fd : Fd) (room : ℕ → Bool) (arrivals : List Arrival)
  | drain (message : OutboundMessage)
  | trySend (fd : Fd) (writable : Writable)
  | write (fd : Fd) (writable : Writable)
  | disconnect (fd : Fd)
  /-- The end of `flush_pending_writes`. -/
  | clear

namespace ServerCall

/-- The descriptor that the kernel hands out with a call. -/
def hands : ServerCall → List Fd
  | .accept fd => [fd]
  | _ => []

/-- What the kernel and the callers see to: a descriptor is handed out while it is closed,
and the functions are called for descriptors that have been handed out. -/
def Allowed (handed : List Fd) (s : ExchangeServer) : ServerCall → Prop
  | .accept fd => s.openFds fd = false ∧ fd < INT_MAX
  | .read fd _ _ => fd ∈ handed
  | .drain _ => True
  | .trySend fd _ => fd ∈ handed
  | .write fd _ => fd ∈ handed
  | .disconnect fd => fd ∈ handed
  | .clear => True

end ServerCall

namespace ExchangeServer

/-- A call; there is no next state where a slot is not there, or where `client_fd + 1` is
not an `int`. -/
def call (s : ExchangeServer) : ServerCall → Option ExchangeServer
  | .accept fd =>
      if s.clients.length ≤ fd ∧ INT_MAX < fd + 1 then none else s.acceptClient fd
  | .read fd room arrivals => (s.handleRead room arrivals fd).map Prod.fst
  | .drain message => some (s.drainMessage message)
  | .trySend fd writable => s.trySend writable fd
  | .write fd writable => s.handleWrite writable fd
  | .disconnect fd => if fd < s.clients.length then some (s.disconnectClient fd) else none
  | .clear => some { s with pendingWrites := [] }

/-- What a call does, said once. -/
inductive Calls (s : ExchangeServer) : ServerCall → ExchangeServer → Prop
  | accept {fd : Fd} {s' : ExchangeServer} (hs : s.acceptClient fd = some s') :
      Calls s (.accept fd) s'
  | read {fd : Fd} {room : ℕ → Bool} {arrivals : List Arrival} {c : ClientState} {r : Reading}
      (hc : s.clients[fd]? = some c)
      (hr : r = Exchange.handleRead room fd (.begin c arrivals)) :
      Calls s (.read fd room arrivals)
        (if r.client.active = c.active then s.setClient fd r.client else s.disconnectClient fd)
  | drain (message : OutboundMessage) : Calls s (.drain message) (s.drainMessage message)
  | trySend {fd : Fd} {w : Writable} {s' : ExchangeServer} (hs : s.trySend w fd = some s') :
      Calls s (.trySend fd w) s'
  | write {fd : Fd} {w : Writable} {s' : ExchangeServer} (hs : s.handleWrite w fd = some s') :
      Calls s (.write fd w) s'
  | disconnect {fd : Fd} {c : ClientState} (hc : s.clients[fd]? = some c) :
      Calls s (.disconnect fd) (s.disconnectClient fd)
  | clear : Calls s .clear { s with pendingWrites := [] }

theorem calls {s s' : ExchangeServer} {c : ServerCall} (h : s.call c = some s') :
    Calls s c s' := by
  cases c with
  | accept fd =>
    simp only [call] at h
    split at h
    · exact absurd h (by simp)
    · exact .accept h
  | read fd room arrivals =>
    obtain ⟨⟨s₁, messages⟩, hread, rfl⟩ := Option.map_eq_some_iff.mp h
    obtain ⟨c, hc, heq⟩ := Option.map_eq_some_iff.mp hread
    obtain ⟨rfl, -⟩ := Prod.mk.inj heq
    exact .read hc rfl
  | drain message =>
    obtain rfl := Option.some.inj h
    exact .drain message
  | trySend fd w => exact .trySend h
  | write fd w => exact .write h
  | disconnect fd =>
    simp only [call] at h
    split at h
    · next hlt =>
      obtain rfl := Option.some.inj h
      exact .disconnect (List.getElem?_eq_getElem hlt)
    · exact absurd h (by simp)
  | clear =>
    obtain rfl := Option.some.inj h
    exact .clear

/-- The states that calls lead to, with the descriptors that have been handed out. -/
inductive Reachable (reserved : Fd → Bool) : List Fd → ExchangeServer → Prop
  | start : Reachable reserved [] (start reserved)
  | call {handed : List Fd} {s s' : ExchangeServer} (c : ServerCall)
      (h : Reachable reserved handed s) (hallowed : c.Allowed handed s)
      (hs : s.call c = some s') : Reachable reserved (c.hands ++ handed) s'

/-! ### The invariant -/

/-- What holds of the slots: every descriptor that was handed out has one, and only these
are active or pending; and the slot of a closed connection is as it was made. -/
structure Consistent (handed : List Fd) (s : ExchangeServer) : Prop where
  slots : ∀ fd, s.SlotOk fd
  inRange : ∀ fd ∈ handed, fd < s.clients.length
  active : ∀ fd, (s.client fd).active = true → fd ∈ handed
  pending : ∀ fd ∈ s.pendingWrites, fd ∈ handed
  clean : ∀ fd, (s.client fd).active = false → s.client fd = {}

/-- A call that touches one descriptor: the vector stays as long as it was, and the slot is
left open, or as it was, or as it was made. -/
structure Touches (fd : Fd) (s s' : ExchangeServer) : Prop where
  only : OnlyAt fd s s'
  length : s'.clients.length = s.clients.length
  pending : s'.pendingWrites = s.pendingWrites
  clean : (s'.client fd).active = false → s'.client fd = {} ∨ s'.client fd = s.client fd

namespace Touches

variable {s s' : ExchangeServer} {fd : Fd} {c : ClientState}

theorem refl (fd : Fd) (s : ExchangeServer) : Touches fd s s :=
  ⟨onlyAt_refl fd s, rfl, rfl, fun _ => Or.inr rfl⟩

/-- The slot is assigned; one that is not active then is as it was. -/
theorem setClient (hc : s.clients[fd]? = some c) {c' : ClientState}
    (h : c'.active = false → c' = c) : Touches fd s (s.setClient fd c') := by
  refine ⟨onlyAt_setClient s fd c', List.length_set, rfl, fun hinactive => Or.inr ?_⟩
  rw [client_setClient_self hc] at hinactive ⊢
  rw [client_of_some hc]
  exact h hinactive

theorem disconnectClient (hc : s.clients[fd]? = some c) :
    Touches fd s (s.disconnectClient fd) :=
  ⟨onlyAt_disconnectClient s fd, List.length_set, rfl,
    fun _ => Or.inl (client_disconnectClient hc)⟩

theorem setEpollWrite (h : Touches fd s s') (enable : Bool) :
    Touches fd s (s'.setEpollWrite fd enable) :=
  ⟨onlyAt_setEpollWrite h.only enable, h.length, h.pending, h.clean⟩

/-- Bytes have been sent, and the slot is assigned. -/
theorem transmit (hactive : (s.client fd).active = true) (n : ℕ) {c' : ClientState}
    (h : c'.active = true) :
    Touches fd s ((s.transmit fd (s.client fd) n).setClient fd c') := by
  refine ⟨onlyAt_setClient (s.transmit fd (s.client fd) n) fd c', List.length_set, rfl, ?_⟩
  intro hinactive
  have hself : ((s.transmit fd (s.client fd) n).setClient fd c').client fd = c' :=
    client_setClient_self (s := s.transmit fd (s.client fd) n) (getElem?_of_active hactive) c'
  rw [hself, h] at hinactive
  exact absurd hinactive (by simp)

theorem trySend {w : Writable} (h : s.trySend w fd = some s') : Touches fd s s' := by
  cases trySends h with
  | skip _ => exact .refl fd s
  | again _ _ _ => exact .refl fd s
  | close hactive _ _ => exact .disconnectClient (getElem?_of_active hactive)
  | complete hactive _ _ _ _ => exact .transmit hactive _ hactive
  | part hactive _ _ =>
    refine .setEpollWrite (.transmit hactive _ ?_) true
    exact hactive

theorem handleWrite {w : Writable} (h : s.handleWrite w fd = some s') : Touches fd s s' := by
  cases handlesWrite h with
  | skip _ => exact .refl fd s
  | again _ _ => exact .refl fd s
  | close hactive _ => exact .disconnectClient (getElem?_of_active hactive)
  | complete hactive _ _ _ =>
    refine .setEpollWrite (.transmit hactive _ ?_) false
    exact hactive
  | part hactive _ _ => exact .transmit hactive _ hactive

/-- `handle_read` does not look at a slot that is not active. -/
theorem handleRead (hc : s.clients[fd]? = some c) {room : ℕ → Bool} {arrivals : List Arrival}
    {r : Reading} (hr : r = Exchange.handleRead room fd (.begin c arrivals)) :
    Touches fd s (if r.client.active = c.active then s.setClient fd r.client
      else s.disconnectClient fd) := by
  split
  · next hsame =>
    refine .setClient hc fun hinactive => ?_
    rw [hsame] at hinactive
    rw [hr, handleRead_of_closed hinactive, Reading.begin_client]
  · exact .disconnectClient hc

end Touches

/-- The vector reaches the descriptor after `accept_client`, and no descriptor is made
pending. -/
theorem length_acceptClient {s s' : ExchangeServer} {fd : Fd}
    (hs : s.acceptClient fd = some s') :
    fd < s'.clients.length ∧ s.clients.length ≤ s'.clients.length ∧
      s'.pendingWrites = s.pendingWrites := by
  unfold ExchangeServer.acceptClient at hs
  split at hs
  · exact absurd hs (by simp)
  · obtain rfl := Option.some.inj hs
    refine ⟨?_, ?_, rfl⟩
    · rw [List.length_set]
      exact lt_length_growClients s.clients fd
    · rw [List.length_set, growClients]
      split
      · rw [List.length_append]
        exact Nat.le_add_right _ _
      · exact Nat.le_refl _

namespace Consistent

variable {handed : List Fd} {s s' : ExchangeServer} {fd : Fd}

theorem start (reserved : Fd → Bool) : Consistent [] (start reserved) where
  slots fd := by
    rw [SlotOk, client_start]
    exact slotInv_closed _
  inRange _ hfd := absurd hfd List.not_mem_nil
  active fd h := by
    rw [client_start] at h
    exact absurd h Bool.false_ne_true
  pending _ hfd := absurd hfd List.not_mem_nil
  clean fd _ := client_start reserved fd

/-- A call for a descriptor that has been handed out. -/
theorem touches (h : Consistent handed s) (ht : Touches fd s s') (hfd : fd ∈ handed)
    (hslot : s'.SlotOk fd) : Consistent handed s' where
  slots := slots_of_onlyAt h.slots ht.only hslot
  inRange fd' hfd' := by
    rw [ht.length]
    exact h.inRange fd' hfd'
  active := ht.only.all (P := fun fd' c _ _ => c.active = true → fd' ∈ handed)
    (fun fd' _ => h.active fd') fun _ => hfd
  pending fd' hfd' := by
    rw [ht.pending] at hfd'
    exact h.pending fd' hfd'
  clean := by
    refine ht.only.all (P := fun _ c _ _ => c.active = false → c = {}) (fun fd' _ => h.clean fd') ?_
    intro hinactive
    rcases ht.clean hinactive with hnew | hold
    · exact hnew
    · rw [hold] at hinactive ⊢
      exact h.clean fd hinactive

/-- A connection is accepted: the vector has grown if it did not reach the descriptor. -/
theorem acceptClient (h : Consistent handed s) (hs : s.acceptClient fd = some s') :
    Consistent (fd :: handed) s' := by
  have honly := onlyAt_acceptClient hs
  have hclient := (acceptClient_client hs).1
  obtain ⟨hlt, hle, hpending⟩ := length_acceptClient hs
  refine ⟨slots_of_onlyAt h.slots honly (SlotOk.acceptClient hs), ?_, ?_, ?_, ?_⟩
  · intro fd' hfd'
    rcases List.mem_cons.mp hfd' with rfl | hfd'
    · exact hlt
    · exact Nat.lt_of_lt_of_le (h.inRange fd' hfd') hle
  · refine honly.all (P := fun fd' c _ _ => c.active = true → fd' ∈ fd :: handed) ?_ ?_
    · intro fd' _ hactive
      exact List.mem_cons_of_mem fd (h.active fd' hactive)
    · intro _
      exact List.mem_cons_self
  · intro fd' hfd'
    rw [hpending] at hfd'
    exact List.mem_cons_of_mem _ (h.pending fd' hfd')
  · refine honly.all (P := fun _ c _ _ => c.active = false → c = {}) (fun fd' _ => h.clean fd') ?_
    intro hinactive
    rw [hclient] at hinactive
    exact absurd hinactive (by simp)

/-- A message is drained to a slot that is active, or dropped. -/
theorem drainMessage (h : Consistent handed s) (message : OutboundMessage) :
    Consistent handed (s.drainMessage message) := by
  rcases drainMessage_cases s message with ⟨-, heq⟩ | ⟨c, hc, hactive, -, heq⟩
  · rw [heq]
    exact h
  · have hfd : message.fd ∈ handed := h.active _ (by rw [client_of_some hc]; exact hactive)
    have hslots := fun fd => SlotOk.drainMessage (h.slots fd) message
    rw [heq] at hslots ⊢
    -- but for the pending descriptors, the slot is assigned
    have ht : Touches message.fd s (s.setClient message.fd
        { c with writeBuffer := c.writeBuffer ++ message.payload }) :=
      .setClient hc fun hinactive => absurd (hactive.symm.trans hinactive) (by simp)
    have hassigned := h.touches ht hfd (hslots message.fd)
    refine ⟨hslots, hassigned.inRange, hassigned.active, fun fd' hfd' => ?_, hassigned.clean⟩
    rcases List.mem_append.mp hfd' with hfd' | hfd'
    · exact h.pending fd' hfd'
    · rw [List.mem_singleton.mp hfd']
      exact hfd

/-- **A call keeps the invariant.** -/
theorem call (h : Consistent handed s) {c : ServerCall} (hallowed : c.Allowed handed s)
    (hs : s.call c = some s') : Consistent (c.hands ++ handed) s' := by
  cases calls hs with
  | accept haccept => exact h.acceptClient haccept
  | read hc hr =>
    exact h.touches (.handleRead hc hr) hallowed (SlotOk.handleRead (h.slots _) hc hr)
  | drain message => exact h.drainMessage message
  | trySend hsend => exact h.touches (.trySend hsend) hallowed (SlotOk.trySend (h.slots _) hsend)
  | write hwrite =>
    exact h.touches (.handleWrite hwrite) hallowed (SlotOk.handleWrite (h.slots _) hwrite)
  | disconnect hc =>
    exact h.touches (.disconnectClient hc) hallowed (SlotOk.disconnectClient hc)
  | clear =>
    exact ⟨h.slots, h.inRange, h.active, fun _ hfd => absurd hfd List.not_mem_nil, h.clean⟩

/-- **No call looks at a slot that is not there.** -/
theorem isSome_call (h : Consistent handed s) {c : ServerCall} (hallowed : c.Allowed handed s) :
    (s.call c).isSome = true := by
  cases c with
  | accept fd =>
    obtain ⟨hclosed, hlt⟩ := hallowed
    rw [ExchangeServer.call, if_neg fun hover => Nat.not_lt.mpr hlt hover.2,
      ExchangeServer.acceptClient, if_neg (by rw [hclosed]; exact Bool.false_ne_true)]
    rfl
  | read fd room arrivals =>
    have hlt := h.inRange fd hallowed
    simp [ExchangeServer.call, ExchangeServer.handleRead, hlt]
  | drain message => rfl
  | trySend fd w =>
    have hlt := h.inRange fd hallowed
    simp [ExchangeServer.call, ExchangeServer.trySend, hlt]
  | write fd w =>
    have hlt := h.inRange fd hallowed
    simp [ExchangeServer.call, ExchangeServer.handleWrite, hlt]
  | disconnect fd =>
    rw [ExchangeServer.call, if_pos (h.inRange fd hallowed)]
    rfl
  | clear => rfl

end Consistent

/-- The invariant holds in every state that can be reached. -/
theorem Reachable.consistent {reserved : Fd → Bool} {handed : List Fd} {s : ExchangeServer}
    (h : Reachable reserved handed s) : Consistent handed s := by
  induction h with
  | start => exact .start reserved
  | call c _ hallowed hs ih => exact ih.call hallowed hs

/-- A call that only sends leaves an open connection as far in its frame as it was. -/
theorem readReachable_of_outOnly {s s' : ExchangeServer} (hout : OutOnly s s')
    (h : ∀ fd, (s.client fd).active = true → ReadReachable (s.client fd)) (fd : Fd)
    (hactive : (s'.client fd).active = true) : ReadReachable (s'.client fd) := by
  obtain ⟨-, buffer, sent, heq⟩ := hout fd hactive
  rw [heq]
  exact .write (h fd (hout.active hactive)) buffer sent

/-- The slot of an open connection is one that calls of `handle_read` lead to. -/
theorem Reachable.readReachable {reserved : Fd → Bool} {handed : List Fd} {s : ExchangeServer}
    (h : Reachable reserved handed s) :
    ∀ fd, (s.client fd).active = true → ReadReachable (s.client fd) := by
  induction h with
  | start =>
    intro fd hactive
    rw [client_start] at hactive
    exact absurd hactive Bool.false_ne_true
  | @call handed s s' c h hallowed hs ih =>
    cases calls hs with
    | @accept fd s' haccept =>
      refine (onlyAt_acceptClient haccept).all
        (P := fun _ c _ _ => c.active = true → ReadReachable c) (fun fd' _ => ih fd') ?_
      intro _
      rw [(acceptClient_client haccept).1]
      exact .accepted
    | @read fd room arrivals c r hc hr =>
      refine (onlyAt_handleRead s fd c r).all
        (P := fun _ c _ _ => c.active = true → ReadReachable c) (fun fd' _ => ih fd') ?_
      intro hactive
      obtain ⟨hserver, hopen⟩ := handleRead_open hc hactive
      have hold := ih fd (by rw [client_of_some hc]; exact hopen)
      rw [client_of_some hc] at hold
      rw [hserver, client_setClient_self hc, hr]
      exact .read hold room fd arrivals
    | drain message => exact readReachable_of_outOnly (.drainMessage s message) ih
    | trySend hsend => exact readReachable_of_outOnly (.trySend hsend) ih
    | write hwrite => exact readReachable_of_outOnly (.handleWrite hwrite) ih
    | disconnect hc => exact readReachable_of_outOnly (.disconnectClient hc) ih
    | clear => exact ih

/-- **The slots are consistent and start clean.** -/
theorem slots_consistent {reserved : Fd → Bool} {handed : List Fd} {s : ExchangeServer}
    (h : Reachable reserved handed s) :
    (∀ fd, (s.epoll fd).isSome = true ↔ ∃ c, s.clients[fd]? = some c ∧ c.active = true) ∧
    (∀ fd, (s.epoll fd).isSome = true → fd < s.clients.length) ∧
    (∀ fd ∈ s.pendingWrites, fd < s.clients.length) ∧
    (∀ c : ServerCall, c.Allowed handed s → (s.call c).isSome = true) ∧
    (∀ fd s', s.call (.accept fd) = some s' → ∃ c, s'.clients[fd]? = some c ∧
      c.readPhase = .HEADER ∧ c.bytesRead = 0 ∧ c.bytesSent = 0 ∧ c.readBuffer = [] ∧
      c.writeBuffer = [] ∧ c.active = true) ∧
    ∀ (fd : Fd) (c : ClientState), s.clients[fd]? = some c → c.active = false → c = {} := by
  have hcons := h.consistent
  have hactive : ∀ fd, (s.epoll fd).isSome = true → (s.client fd).active = true := by
    intro fd hreg
    exact (hcons.slots fd).registered.symm.trans hreg
  refine ⟨?_, ?_, ?_, ?_, ?_, ?_⟩
  · intro fd
    constructor
    · intro hreg
      exact ⟨s.client fd, getElem?_of_active (hactive fd hreg), hactive fd hreg⟩
    · rintro ⟨c, hc, hopen⟩
      rw [(hcons.slots fd).registered, client_of_some hc]
      exact hopen
  · intro fd hreg
    exact hcons.inRange fd (hcons.active fd (hactive fd hreg))
  · intro fd hfd
    exact hcons.inRange fd (hcons.pending fd hfd)
  · intro c hallowed
    exact hcons.isSome_call hallowed
  · intro fd s' hs
    cases calls hs with
    | accept haccept =>
      have hclient := (acceptClient_client haccept).1
      refine ⟨{ active := true }, ?_, rfl, rfl, rfl, rfl, rfl, rfl⟩
      rw [← hclient]
      exact getElem?_of_active (by rw [hclient])
  · intro fd c hc hinactive
    rw [← client_of_some hc] at hinactive ⊢
    exact hcons.clean fd hinactive

/-- A descriptor whose connection is closed while a byte for it is unsent, and that is
handed out again while it is still pending. -/
theorem slots_consistent_reused :
    ∃ s s', Reachable (fun fd => decide (fd < 5)) [5] s ∧ 5 ∈ s.pendingWrites ∧
      5 < s.clients.length ∧ s.call (.accept 5) = some s' ∧ ∃ c, s'.clients[5]? = some c ∧
        c.readPhase = .HEADER ∧ c.bytesRead = 0 ∧ c.bytesSent = 0 ∧ c.readBuffer = [] ∧
        c.writeBuffer = [] ∧ c.active = true := by
  have h₀ : Reachable (fun fd => decide (fd < 5)) [] _ := .start
  obtain ⟨s₁, hs₁⟩ := Option.isSome_iff_exists.mp
    (h₀.consistent.isSome_call (c := .accept 5) ⟨rfl, by decide⟩)
  have h₁ : Reachable (fun fd => decide (fd < 5)) [5] s₁ :=
    .call (.accept 5) h₀ ⟨rfl, by decide⟩ hs₁
  -- the slot is there and active, so that the message is delivered
  obtain ⟨c, hc, -, -, -, -, -, hactive⟩ := (slots_consistent h₀).2.2.2.2.1 5 s₁ hs₁
  have h₂ : Reachable (fun fd => decide (fd < 5)) [5] (s₁.drainMessage ⟨5, [7]⟩) :=
    .call (.drain ⟨5, [7]⟩) h₁ trivial rfl
  have hpending : 5 ∈ (s₁.drainMessage ⟨5, [7]⟩).pendingWrites := by
    simp [drainMessage, hc, hactive]
  have hlt := (slots_consistent h₂).2.2.1 5 hpending
  have h₃ : Reachable (fun fd => decide (fd < 5)) [5]
      ((s₁.drainMessage ⟨5, [7]⟩).disconnectClient 5) :=
    .call (.disconnect 5) h₂ List.mem_cons_self (if_pos hlt)
  have hclosed : ((s₁.drainMessage ⟨5, [7]⟩).disconnectClient 5).openFds 5 = false := by
    simp [disconnectClient]
  obtain ⟨s₄, hs₄⟩ := Option.isSome_iff_exists.mp
    (h₃.consistent.isSome_call (c := .accept 5) ⟨hclosed, by decide⟩)
  exact ⟨_, s₄, h₃, hpending, (slots_consistent h₃).2.2.1 5 hpending, hs₄,
    (slots_consistent h₃).2.2.2.2.1 5 s₄ hs₄⟩

end ExchangeServer

/-! ### The event loop -/

/-- The descriptors that the loop still has to call a function for. -/
def Phase.fds : Phase → List Fd
  | .flushing fds => fds
  | .handling events => events.filterMap PollEvent.fd?
  | _ => []

namespace EventLoop

variable {reserved : Fd → Bool} {handed : List Fd} {s s' : EventLoop}

/-- An event is taken off, or its descriptor stays. -/
theorem mem_fds_of_tail {e : PollEvent} {events : List PollEvent} {fd : Fd}
    (h : fd ∈ (Phase.handling events).fds) : fd ∈ (Phase.handling (e :: events)).fds := by
  obtain ⟨e', he', hfd⟩ := List.mem_filterMap.mp h
  exact List.mem_filterMap.mpr ⟨e', List.mem_cons_of_mem e he', hfd⟩

/-- **A step of the loop** is a call that is allowed, or none. -/
theorem step_reachable (h : Reachable reserved handed s.server)
    (hfds : ∀ fd ∈ s.phase.fds, fd ∈ handed) {e : IoStep}
    (haccept : ∀ fd, e = .accept fd → fd < INT_MAX) (hs : s.step e = some s') :
    ∃ handed', Reachable reserved handed' s'.server ∧ ∀ fd ∈ s'.phase.fds, fd ∈ handed' := by
  cases steps hs with
  | drain message _ => exact ⟨handed, .call (.drain message) h trivial rfl, hfds⟩
  | drained _ => exact ⟨handed, h, h.consistent.pending⟩
  | @send w fd fds server hp hsend =>
    rw [hp] at hfds
    refine ⟨handed, .call (.trySend fd w) h (hfds fd List.mem_cons_self) hsend, ?_⟩
    exact fun fd' hfd' => hfds fd' (List.mem_cons_of_mem fd hfd')
  | flushed _ =>
    exact ⟨handed, .call .clear h trivial rfl, fun _ hfd => absurd hfd List.not_mem_nil⟩
  | @wait events _ _ hreports =>
    refine ⟨handed, h, fun fd hfd => ?_⟩
    -- what is reported is registered
    obtain ⟨e, he, hfd'⟩ := List.mem_filterMap.mp hfd
    have hrep := hreports e he
    cases e with
    | listening => exact absurd hfd' (by simp [PollEvent.fd?])
    | client fd₁ readable writable =>
      obtain rfl : fd₁ = fd := Option.some.inj hfd'
      rw [reports, Bool.and_eq_true, Bool.and_eq_true] at hrep
      exact h.consistent.active fd₁ ((h.consistent.slots fd₁).registered.symm.trans hrep.1.1)
  | @accept fd events server hp hserver =>
    have hlt := haccept fd rfl
    refine ⟨fd :: handed, .call (.accept fd) h ⟨(acceptClient_kernel hserver).1, hlt⟩ ?_, ?_⟩
    · rw [call, if_neg fun hover => Nat.not_lt.mpr hlt hover.2]
      exact hserver
    · exact fun fd' hfd' => List.mem_cons_of_mem fd (hfds fd' hfd')
  | accepted hp =>
    rw [hp] at hfds
    exact ⟨handed, h, fun fd hfd => hfds fd (mem_fds_of_tail hfd)⟩
  | @read pops fd writable events client r hp hc hr =>
    rw [hp] at hfds
    refine ⟨handed, .call (.read fd (ringRoom pops s.queued) (s.sockets fd)) h
      (hfds fd List.mem_cons_self) ?_, hfds⟩
    rw [call, ExchangeServer.handleRead, hc, hr]
    rfl
  | @write w fd events server hp hwrite =>
    rw [hp] at hfds
    exact ⟨handed, .call (.write fd w) h (hfds fd List.mem_cons_self) hwrite, hfds⟩
  | handled hp =>
    rw [hp] at hfds
    exact ⟨handed, h, fun fd hfd => hfds fd (mem_fds_of_tail hfd)⟩
  | cycle _ => exact ⟨handed, h, fun _ hfd => absurd hfd List.not_mem_nil⟩
  | arrive _ _ => exact ⟨handed, h, hfds⟩
  | pop _ => exact ⟨handed, h, hfds⟩

/-- **The event loop** calls the functions in an order that is allowed. -/
theorem run_reachable {es : List IoStep} (haccept : ∀ fd, .accept fd ∈ es → fd < INT_MAX)
    (hrun : (start reserved).run es = some s) : ∃ handed, Reachable reserved handed s.server := by
  have hstart : ∃ handed, Reachable reserved handed (start reserved).server ∧
      ∀ fd ∈ (start reserved).phase.fds, fd ∈ handed :=
    ⟨[], .start, fun _ hfd => absurd hfd List.not_mem_nil⟩
  have hend : ∃ handed, Reachable reserved handed s.server ∧
      ∀ fd ∈ s.phase.fds, fd ∈ handed := by
    refine (foldlM_some_invariant (P := fun es t => (∀ fd, .accept fd ∈ es → fd < INT_MAX) ∧
      ∃ handed, Reachable reserved handed t.server ∧ ∀ fd ∈ t.phase.fds, fd ∈ handed) ?_ es _
      ⟨haccept, hstart⟩ hrun).2
    rintro e es t t' ⟨hes, handed, hreach, hfds⟩ hstep -
    refine ⟨fun fd hfd => hes fd (List.mem_cons_of_mem e hfd), ?_⟩
    exact step_reachable hreach hfds (fun fd he => hes fd (he ▸ List.mem_cons_self)) hstep
  obtain ⟨handed, hreach, -⟩ := hend
  exact ⟨handed, hreach⟩

end EventLoop

end Exchange
