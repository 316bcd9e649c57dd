import Exchange.ExchangeServer

/-!
# What the calls do to the slots

Every call of the I/O thread touches one descriptor.  The calls that send change nothing
there but the write buffer and the offset of what has been sent, unless they close the
connection.

## Main definitions

* `OnlyAt` — nothing but one descriptor is touched.
* `OutOnly` — of the connections that are open nothing but the write buffers has been
  touched.

## Main results

* `OnlyAt.all` — the rule for calls that touch one descriptor.
* `onlyAt_trySend`, `onlyAt_handleWrite`, `onlyAt_handleRead` and others — which
  descriptor a call touches.
* `OutOnly.trySend`, `OutOnly.handleWrite` and others — the calls that send touch the
  write buffers.
-/

namespace Exchange

open ExchangeServer

/-! ### One descriptor at a time -/

/-- Nothing but one descriptor is touched. -/
def OnlyAt (fd : Fd) (s s' : ExchangeServer) : Prop :=
  ∀ fd', fd' ≠ fd → s'.client fd' = s.client fd' ∧ s'.epoll fd' = s.epoll fd' ∧
    s'.openFds fd' = s.openFds fd'

section OnlyAt

variable {s s' : ExchangeServer} {fd : Fd}

/-- **The rule for calls that touch one descriptor**: what holds of the others before, and
of this one afterwards, holds of all. -/
theorem OnlyAt.all {P : Fd → ClientState → Option Bool → Bool → Prop} (honly : OnlyAt fd s s')
    (h : ∀ fd', fd' ≠ fd → P fd' (s.client fd') (s.epoll fd') (s.openFds fd'))
    (hself : P fd (s'.client fd) (s'.epoll fd) (s'.openFds fd)) (fd' : Fd) :
    P fd' (s'.client fd') (s'.epoll fd') (s'.openFds fd') := by
  by_cases hfd : fd' = fd
  · rw [hfd]
    exact hself
  · obtain ⟨hclient, hepoll, hopen⟩ := honly fd' hfd
    rw [hclient, hepoll, hopen]
    exact h fd' hfd

theorem onlyAt_refl (fd : Fd) (s : ExchangeServer) : OnlyAt fd s s := fun _ _ => ⟨rfl, rfl, rfl⟩

theorem onlyAt_setClient (s : ExchangeServer) (fd : Fd) (c : ClientState) :
    OnlyAt fd s (s.setClient fd c) := fun _ hfd => ⟨client_setClient_of_ne hfd c, rfl, rfl⟩

theorem onlyAt_disconnectClient (s : ExchangeServer) (fd : Fd) :
    OnlyAt fd s (s.disconnectClient fd) := fun _ hfd =>
  ⟨client_setClient_of_ne hfd _, Function.update_of_ne hfd _ _, Function.update_of_ne hfd _ _⟩

theorem onlyAt_setEpollWrite (h : OnlyAt fd s s') (enable : Bool) :
    OnlyAt fd s (s'.setEpollWrite fd enable) := by
  intro fd' hfd
  obtain ⟨hclient, hepoll, hopen⟩ := h fd' hfd
  exact ⟨hclient, (Function.update_of_ne hfd _ _).trans hepoll, hopen⟩

theorem onlyAt_acceptClient (h : s.acceptClient fd = some s') : OnlyAt fd s s' := by
  intro fd' hfd
  refine ⟨((acceptClient_client h).2.2 fd' hfd).1, ?_⟩
  unfold acceptClient at h
  split at h
  · exact absurd h (by simp)
  · obtain rfl := Option.some.inj h
    exact ⟨Function.update_of_ne hfd _ _, Function.update_of_ne hfd _ _⟩

theorem onlyAt_trySend {w : Writable} (h : s.trySend w fd = some s') : OnlyAt fd s s' := by
  cases trySends h with
  | skip _ => exact onlyAt_refl fd s
  | again _ _ _ => exact onlyAt_refl fd s
  | close _ _ _ => exact onlyAt_disconnectClient s fd
  | complete _ _ _ _ _ => exact onlyAt_setClient (s.transmit fd _ _) fd _
  | part _ _ _ => exact onlyAt_setEpollWrite (onlyAt_setClient (s.transmit fd _ _) fd _) true

theorem onlyAt_handleWrite {w : Writable} (h : s.handleWrite w fd = some s') :
    OnlyAt fd s s' := by
  cases handlesWrite h with
  | skip _ => exact onlyAt_refl fd s
  | again _ _ => exact onlyAt_refl fd s
  | close _ _ => exact onlyAt_disconnectClient s fd
  | complete _ _ _ _ =>
    exact onlyAt_setEpollWrite (onlyAt_setClient (s.transmit fd _ _) fd _) false
  | part _ _ _ => exact onlyAt_setClient (s.transmit fd _ _) fd _

end OnlyAt

/-! ### The slot of a descriptor that is sent to -/

section Slots

variable {s s' : ExchangeServer} {fd : Fd}

section Sent

variable (hactive : (s.client fd).active = true) (n : ℕ)

include hactive

theorem client_advanced :
    ((s.transmit fd (s.client fd) n).setClient fd
      { s.client fd with bytesSent := (s.client fd).bytesSent + n }).client fd
      = { s.client fd with bytesSent := (s.client fd).bytesSent + n } :=
  client_setClient_self (s := s.transmit fd (s.client fd) n) (getElem?_of_active hactive) _

theorem client_completed :
    ((s.transmit fd (s.client fd) n).setClient fd
      { s.client fd with writeBuffer := [], bytesSent := 0 }).client fd
      = { s.client fd with writeBuffer := [], bytesSent := 0 } :=
  client_setClient_self (s := s.transmit fd (s.client fd) n) (getElem?_of_active hactive) _

end Sent

theorem client_setEpollWrite (s : ExchangeServer) (fd fd' : Fd) (enable : Bool) :
    (s.setEpollWrite fd enable).client fd' = s.client fd' := rfl

end Slots

/-! ### The slot of a descriptor that is read -/

/-- The slot of the descriptor that is read, after `handle_read`. -/
theorem onlyAt_handleRead (s : ExchangeServer) (fd : Fd) (c : ClientState) (r : Reading) :
    OnlyAt fd s (if r.client.active = c.active then s.setClient fd r.client
      else s.disconnectClient fd) := by
  split
  · exact onlyAt_setClient s fd _
  · exact onlyAt_disconnectClient s fd

/-- A connection that is open after `handle_read` was open before, and only its slot has
changed. -/
theorem handleRead_open {s : ExchangeServer} {fd : Fd} {c : ClientState} {r : Reading}
    (hc : s.clients[fd]? = some c)
    (hactive : ((if r.client.active = c.active then s.setClient fd r.client
      else s.disconnectClient fd).client fd).active = true) :
    (if r.client.active = c.active then s.setClient fd r.client else s.disconnectClient fd)
      = s.setClient fd r.client ∧ c.active = true := by
  by_cases hsame : r.client.active = c.active
  · rw [if_pos hsame, client_setClient_self hc] at hactive
    exact ⟨if_pos hsame, hsame.symm.trans hactive⟩
  · rw [if_neg hsame, client_disconnectClient hc] at hactive
    exact absurd hactive Bool.false_ne_true

/-! ### What sending leaves alone -/

/-- Of the connections that are open nothing but the write buffers has been touched. -/
def OutOnly (s s' : ExchangeServer) : Prop :=
  ∀ fd, (s'.client fd).active = true → s'.openFds fd = s.openFds fd ∧
    ∃ buffer sent, s'.client fd = { s.client fd with writeBuffer := buffer, bytesSent := sent }

namespace OutOnly

variable {s s' : ExchangeServer} {fd : Fd}

theorem of_eq (h : ∀ fd, s'.client fd = s.client fd) (hopen : s'.openFds = s.openFds) :
    OutOnly s s' := fun fd _ =>
  ⟨congrFun hopen fd, (s.client fd).writeBuffer, (s.client fd).bytesSent, h fd⟩

theorem refl (s : ExchangeServer) : OutOnly s s := of_eq (fun _ => rfl) rfl

/-- A connection that is open was open. -/
theorem active (h : OutOnly s s') (hactive : (s'.client fd).active = true) :
    (s.client fd).active = true := by
  obtain ⟨-, buffer, sent, heq⟩ := h fd hactive
  rw [heq] at hactive
  exact hactive

theorem trans {s₁ s₂ s₃ : ExchangeServer} (h : OutOnly s₁ s₂) (h' : OutOnly s₂ s₃) :
    OutOnly s₁ s₃ := by
  intro fd hactive
  obtain ⟨hopen₁, buffer₁, sent₁, heq₁⟩ := h fd (h'.active hactive)
  obtain ⟨hopen, buffer, sent, heq⟩ := h' fd hactive
  exact ⟨hopen.trans hopen₁, buffer, sent, by rw [heq, heq₁]⟩

/-- It is enough to look at the descriptor that is touched. -/
theorem of_onlyAt (honly : OnlyAt fd s s')
    (hself : (s'.client fd).active = true → s'.openFds fd = s.openFds fd ∧ ∃ buffer sent,
      s'.client fd = { s.client fd with writeBuffer := buffer, bytesSent := sent }) :
    OutOnly s s' := by
  refine honly.all (P := fun fd' c _ o => c.active = true → o = s.openFds fd' ∧
    ∃ buffer sent, c = { s.client fd' with writeBuffer := buffer, bytesSent := sent }) ?_ hself
  intro fd' _ _
  exact ⟨rfl, (s.client fd').writeBuffer, (s.client fd').bytesSent, rfl⟩

theorem drainMessage (s : ExchangeServer) (message : OutboundMessage) :
    OutOnly s (s.drainMessage message) := by
  intro fd _
  refine ⟨?_, _, (s.client fd).bytesSent, client_drainMessage s message fd⟩
  rw [openFds_drainMessage]

theorem disconnectClient {c : ClientState} (hc : s.clients[fd]? = some c) :
    OutOnly s (s.disconnectClient fd) := by
  refine of_onlyAt (onlyAt_disconnectClient s fd) fun hactive => ?_
  rw [client_disconnectClient hc] at hactive
  exact absurd hactive Bool.false_ne_true

theorem trySend {w : Writable} (h : s.trySend w fd = some s') : OutOnly s s' := by
  have honly := onlyAt_trySend h
  cases trySends h with
  | skip _ => exact .refl s
  | again _ _ _ => exact .refl s
  | close hactive _ _ => exact .disconnectClient (getElem?_of_active hactive)
  | complete hactive _ _ _ _ =>
    exact of_onlyAt honly fun _ => ⟨rfl, [], 0, client_completed hactive _⟩
  | part hactive _ _ =>
    exact of_onlyAt honly fun _ =>
      ⟨rfl, (s.client fd).writeBuffer, _, client_advanced hactive _⟩

theorem handleWrite {w : Writable} (h : s.handleWrite w fd = some s') : OutOnly s s' := by
  have honly := onlyAt_handleWrite h
  cases handlesWrite h with
  | skip _ => exact .refl s
  | again _ _ => exact .refl s
  | close hactive _ => exact .disconnectClient (getElem?_of_active hactive)
  | complete hactive _ _ _ =>
    exact of_onlyAt honly fun _ => ⟨rfl, [], 0, client_completed hactive _⟩
  | part hactive _ _ =>
    exact of_onlyAt honly fun _ =>
      ⟨rfl, (s.client fd).writeBuffer, _, client_advanced hactive _⟩

theorem flushPendingWrites {writable : ℕ → Writable}
    (h : s.flushPendingWrites writable = some s') : OutOnly s s' := by
  obtain ⟨s₁, hrun, rfl⟩ := Option.map_eq_some_iff.mp h
  have hout : OutOnly s s₁ := by
    refine foldlM_some_invariant (P := fun _ s₂ => OutOnly s s₂) ?_ _ s (.refl s) hrun
    intro p ps s₂ s₃ hout hsend _
    exact hout.trans (.trySend hsend)
  exact hout

end OutOnly

end Exchange
