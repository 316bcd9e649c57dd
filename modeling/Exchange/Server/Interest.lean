import Exchange.EventLoop
import Exchange.Server.Outbound
import Exchange.Server.Slots

/-!
# The interest in events

The I/O thread sends what is pending before it waits, and relies on `EPOLLOUT` for what
a socket did not take.  Three functions change what is registered for a descriptor and
what is left to send: `try_send`, `handle_write` and `disconnect_client`.  Each of them
touches one descriptor, so that the invariant of the loop is one of every descriptor,
together with what holds of the events that have been reported and not yet handled.

## Main definitions

* `SlotInv`, `EventsOk`, `EventLoop.Inv` — what holds of every descriptor, of the events
  that are left, and of the loop.
* `EventLoop.avoids` — no step of a run is one of the given kind.

## Main results

* `SlotOk.trySend`, `SlotOk.handleWrite`, `SlotOk.handleRead` — the functions keep the
  invariant of a descriptor.
* `EventLoop.Inv.step` — a step keeps the invariant.
* `EventLoop.run_invariant` — the rule for runs.
-/

namespace Exchange

open ExchangeServer

/-! ### The slots -/

/-- What holds of a descriptor: it is registered with epoll exactly while its connection
is open; the write buffer is empty, or some of it is unsent; and a header is not complete
between calls. -/
structure SlotInv (c : ClientState) (interest : Option Bool) (opened : Bool) : Prop where
  registered : interest.isSome = c.active
  opened : interest.isSome = true → opened = true
  buffer : c.writeBuffer = [] ∧ c.bytesSent = 0 ∨ c.bytesSent < c.writeBuffer.length
  header : c.readPhase = .HEADER → c.bytesRead < 5

namespace ExchangeServer

/-- The invariant of the slot of a descriptor. -/
def SlotOk (s : ExchangeServer) (fd : Fd) : Prop :=
  SlotInv (s.client fd) (s.epoll fd) (s.openFds fd)

end ExchangeServer

/-- The slot of a closed connection. -/
theorem slotInv_closed (opened : Bool) : SlotInv {} none opened :=
  ⟨rfl, fun h => absurd h Bool.false_ne_true, Or.inl ⟨rfl, rfl⟩, fun _ => Nat.succ_pos 4⟩

namespace SlotInv

variable {c : ClientState} {interest : Option Bool} {opened : Bool}

theorem epoll_of_active (h : SlotInv c interest opened) (hactive : c.active = true) :
    ∃ b, interest = some b := by
  have hreg := h.registered
  rw [hactive] at hreg
  exact Option.isSome_iff_exists.mp hreg

end SlotInv

section Slots

variable {s s' : ExchangeServer} {fd : Fd}

theorem SlotOk.disconnectClient {c : ClientState} (hc : s.clients[fd]? = some c) :
    (s.disconnectClient fd).SlotOk fd := by
  have hepoll : (s.disconnectClient fd).epoll fd = none := Function.update_self ..
  rw [SlotOk, client_disconnectClient hc, hepoll]
  exact slotInv_closed _

theorem SlotOk.acceptClient (h : s.acceptClient fd = some s') : s'.SlotOk fd := by
  obtain ⟨-, hopen, hepoll⟩ := acceptClient_kernel h
  rw [SlotOk, (acceptClient_client h).1, hopen, hepoll]
  exact ⟨rfl, fun _ => rfl, Or.inl ⟨rfl, rfl⟩, fun _ => Nat.succ_pos 4⟩

/-- A drained message leaves some of the write buffer unsent, or everything as it was. -/
theorem SlotOk.drainMessage (h : s.SlotOk fd) (message : OutboundMessage) :
    (s.drainMessage message).SlotOk fd := by
  rw [SlotOk, client_drainMessage, epoll_drainMessage, openFds_drainMessage]
  refine ⟨h.registered, h.opened, ?_, h.header⟩
  generalize (if s.delivers message ∧ fd = message.fd then message.payload else []) = payload
  show (s.client fd).writeBuffer ++ payload = [] ∧ (s.client fd).bytesSent = 0 ∨
    (s.client fd).bytesSent < ((s.client fd).writeBuffer ++ payload).length
  rw [List.length_append]
  rcases h.buffer with ⟨hnil, hzero⟩ | hlt
  · cases payload with
    | nil => exact Or.inl ⟨by rw [hnil]; rfl, hzero⟩
    | cons b bs =>
      right
      rw [hzero, hnil, List.length_cons]
      omega
  · exact Or.inr (Nat.lt_add_right _ hlt)

theorem SlotOk.setEpollWrite (h : s.SlotOk fd) (enable : Bool) :
    (s.setEpollWrite fd enable).SlotOk fd := by
  have hepoll : (s.setEpollWrite fd enable).epoll fd = (s.epoll fd).map fun _ => enable :=
    Function.update_self ..
  rw [SlotOk, hepoll]
  refine ⟨?_, ?_, h.buffer, h.header⟩
  · rw [Option.isSome_map]
    exact h.registered
  · rw [Option.isSome_map]
    exact h.opened

/-- Part of the unsent bytes has been sent. -/
theorem SlotOk.advance (h : s.SlotOk fd) {n : ℕ} (hlt : n < s.rest fd)
    (hclient : s'.client fd = { s.client fd with bytesSent := (s.client fd).bytesSent + n })
    (hepoll : s'.epoll fd = s.epoll fd) (hopen : s'.openFds fd = s.openFds fd) :
    s'.SlotOk fd := by
  rw [SlotOk, hclient, hepoll, hopen]
  refine ⟨h.registered, h.opened, Or.inr ?_, h.header⟩
  show (s.client fd).bytesSent + n < (s.client fd).writeBuffer.length
  rw [rest] at hlt
  omega

/-- All of the unsent bytes have been sent. -/
theorem SlotOk.complete (h : s.SlotOk fd)
    (hclient : s'.client fd = { s.client fd with writeBuffer := [], bytesSent := 0 })
    (hepoll : s'.epoll fd = s.epoll fd) (hopen : s'.openFds fd = s.openFds fd) :
    s'.SlotOk fd := by
  rw [SlotOk, hclient, hepoll, hopen]
  exact ⟨h.registered, h.opened, Or.inl ⟨rfl, rfl⟩, h.header⟩

/-- `try_send`, on the slot that it is for. -/
theorem SlotOk.trySend (h : s.SlotOk fd) {w : Writable} (hs : s.trySend w fd = some s') :
    s'.SlotOk fd := by
  cases trySends hs with
  | skip _ => exact h
  | again _ _ _ => exact h
  | close hactive _ _ => exact SlotOk.disconnectClient (getElem?_of_active hactive)
  | complete hactive _ _ _ _ => exact SlotOk.complete h (client_completed hactive _) rfl rfl
  | part hactive _ hlt =>
    exact SlotOk.setEpollWrite (SlotOk.advance h hlt (client_advanced hactive _) rfl rfl) true

/-- `handle_write`, on the slot that it is for. -/
theorem SlotOk.handleWrite (h : s.SlotOk fd) {w : Writable}
    (hs : s.handleWrite w fd = some s') : s'.SlotOk fd := by
  cases handlesWrite hs with
  | skip _ => exact h
  | again _ _ => exact h
  | close hactive _ => exact SlotOk.disconnectClient (getElem?_of_active hactive)
  | complete hactive _ _ _ =>
    exact SlotOk.setEpollWrite (SlotOk.complete h (client_completed hactive _) rfl rfl) false
  | part hactive _ hlt => exact SlotOk.advance h hlt (client_advanced hactive _) rfl rfl

/-- A descriptor is touched, and its slot is as it should be. -/
theorem slots_of_onlyAt (h : ∀ fd, s.SlotOk fd) (honly : OnlyAt fd s s') (hself : s'.SlotOk fd) :
    ∀ fd', s'.SlotOk fd' :=
  honly.all (P := fun _ => SlotInv) (fun fd' _ => h fd') hself

end Slots

/-! ### Reading -/

/-- A call of `handle_read` on a slot: it is left open with the write buffer and the
registration it had, or it is closed. -/
theorem SlotOk.handleRead {s : ExchangeServer} {fd : Fd} {c : ClientState} {room : ℕ → Bool}
    {arrivals : List Arrival} {r : Reading} (h : s.SlotOk fd) (hc : s.clients[fd]? = some c)
    (hr : r = handleRead room fd (.begin c arrivals)) :
    (if r.client.active = c.active then s.setClient fd r.client
      else s.disconnectClient fd).SlotOk fd := by
  have hkeeps : r.KeepsOut c := by
    rw [hr]
    exact keepsOut_handleRead room fd c arrivals
  have hheader : r.client.readPhase = .HEADER → r.client.bytesRead < 5 := by
    rw [hr]
    refine handleRead_invariant
      (P := fun r => r.client.readPhase = .HEADER → r.client.bytesRead < 5)
      (fun _ _ h _ => h) (fun _ _ h hs => readStep_header hs h) ?_
    have hheader := h.header
    rw [client_of_some hc] at hheader
    exact hheader
  split
  · next hsame =>
    have hreg := h.registered
    have hbuffer := h.buffer
    rw [client_of_some hc] at hreg hbuffer
    rw [SlotOk, client_setClient_self hc]
    refine ⟨hreg.trans hsame.symm, h.opened, ?_, hheader⟩
    cases hactive : r.client.active with
    | true =>
      obtain ⟨hsb, hbs⟩ := hkeeps hactive
      rw [hsb, hbs]
      exact hbuffer
    | false =>
      -- a slot that is not active is not looked at
      have hinactive : c.active = false := hsame.symm.trans hactive
      rw [hr, handleRead_of_closed hinactive]
      exact hbuffer
  · exact SlotOk.disconnectClient hc

/-! ### The loop -/

/-- What holds of the events that are left: they are of different descriptors, none of
which has been closed but perhaps the first, and `EPOLLOUT` is registered where it has
been reported. -/
structure EventsOk (s : ExchangeServer) (events : List PollEvent) : Prop where
  nodup : (events.map PollEvent.fd?).Nodup
  opened : ∀ e ∈ events.tail, ∀ fd, e.fd? = some fd → s.openFds fd = true
  armed : ∀ fd readable, .client fd readable true ∈ events →
    (s.client fd).active = true → s.epoll fd = some true

namespace EventsOk

variable {s s' : ExchangeServer} {e e' : PollEvent} {events : List PollEvent} {fd : Fd}

/-- The first event is done with. -/
theorem tail (h : EventsOk s (e :: events)) : EventsOk s events := by
  refine ⟨(List.nodup_cons.mp h.nodup).2, fun e' he' => h.opened e' (List.mem_of_mem_tail he'), ?_⟩
  exact fun fd readable hmem => h.armed fd readable (List.mem_cons_of_mem e hmem)

/-- The descriptor of the first event is looked at. -/
theorem head (h : EventsOk s (e :: events)) (hfd : e.fd? = some fd) (hfd' : e'.fd? = some fd)
    (honly : OnlyAt fd s s') (harmed : ∀ readable, e' = .client fd readable true →
      (s'.client fd).active = true → s'.epoll fd = some true) : EventsOk s' (e' :: events) := by
  -- the other events are of other descriptors
  have hne : ∀ e₁ ∈ events, ∀ fd₁, e₁.fd? = some fd₁ → fd₁ ≠ fd := by
    intro e₁ he₁ fd₁ hfd₁ heq
    apply (List.nodup_cons.mp h.nodup).1
    rw [hfd, ← heq, ← hfd₁]
    exact List.mem_map_of_mem he₁
  refine ⟨?_, ?_, ?_⟩
  · have hnodup := h.nodup
    rw [List.map_cons, hfd] at hnodup
    rw [List.map_cons, hfd']
    exact hnodup
  · intro e₁ he₁ fd₁ hfd₁
    rw [(honly fd₁ (hne e₁ he₁ fd₁ hfd₁)).2.2]
    exact h.opened e₁ he₁ fd₁ hfd₁
  · intro fd₁ readable hmem hactive
    rcases List.mem_cons.mp hmem with heq | hmem
    · obtain rfl : fd₁ = fd := by
        rw [← heq] at hfd'
        exact Option.some.inj hfd'
      exact harmed readable heq.symm hactive
    · obtain ⟨hclient, hepoll, -⟩ := honly fd₁ (hne _ hmem fd₁ rfl)
      rw [hclient] at hactive
      rw [hepoll]
      exact h.armed fd₁ readable (List.mem_cons_of_mem e hmem) hactive

/-- A connection is accepted: its descriptor was closed, so no event of it is left. -/
theorem acceptClient (h : EventsOk s (.listening :: events)) (hs : s.acceptClient fd = some s') :
    EventsOk s' (.listening :: events) := by
  have honly := onlyAt_acceptClient hs
  have hclosed := (acceptClient_kernel hs).1
  have hne : ∀ e₁ ∈ events, ∀ fd₁, e₁.fd? = some fd₁ → fd₁ ≠ fd := by
    intro e₁ he₁ fd₁ hfd₁ heq
    have hopen := h.opened e₁ he₁ fd₁ hfd₁
    rw [heq, hclosed] at hopen
    exact absurd hopen Bool.false_ne_true
  refine ⟨h.nodup, fun e₁ he₁ fd₁ hfd₁ => ?_, fun fd₁ readable hmem hactive => ?_⟩
  · rw [(honly fd₁ (hne e₁ he₁ fd₁ hfd₁)).2.2]
    exact h.opened e₁ he₁ fd₁ hfd₁
  · rcases List.mem_cons.mp hmem with heq | hmem'
    · exact absurd heq (by simp)
    · obtain ⟨hclient, hepoll, -⟩ := honly fd₁ (hne _ hmem' fd₁ rfl)
      rw [hclient] at hactive
      rw [hepoll]
      exact h.armed fd₁ readable hmem hactive

end EventsOk

namespace EventLoop

/-- The invariant of the loop. -/
structure Inv (s : EventLoop) : Prop where
  slots : ∀ fd, s.server.SlotOk fd
  events : ∀ events, s.phase = .handling events → EventsOk s.server events

/-- What epoll reports is registered. -/
theorem eventsOk_reports {s : EventLoop} {events : List PollEvent} (h : ∀ fd, s.server.SlotOk fd)
    (hnodup : (events.map PollEvent.fd?).Nodup) (hreports : ∀ e ∈ events, s.reports e = true) :
    EventsOk s.server events := by
  have hreg : ∀ fd readable writable, .client fd readable writable ∈ events →
      (s.server.epoll fd).isSome = true ∧ (writable = true → s.server.epoll fd = some true) := by
    intro fd readable writable hmem
    have hrep := hreports _ hmem
    rw [reports, Bool.and_eq_true, Bool.and_eq_true] at hrep
    refine ⟨hrep.1.1, fun hw => ?_⟩
    have hout := hrep.2
    rw [hw] at hout
    simpa using hout
  refine ⟨hnodup, fun e he fd hfd => ?_, fun fd readable hmem _ => ?_⟩
  · cases e with
    | listening => exact absurd hfd (by simp [PollEvent.fd?])
    | client fd₁ readable writable =>
      obtain rfl : fd₁ = fd := Option.some.inj hfd
      exact (h fd₁).opened (hreg fd₁ readable writable (List.mem_of_mem_tail he)).1
  · exact (hreg fd readable true hmem).2 rfl

theorem inv_start (reserved : Fd → Bool) : (start reserved).Inv := by
  refine ⟨fun fd => ?_, fun events hp => absurd hp (by simp [start])⟩
  rw [SlotOk, show (start reserved).server.client fd = {} from client_start reserved fd]
  exact slotInv_closed _

namespace Inv

variable {s s' : EventLoop}

/-- **A step keeps the invariant.** -/
theorem step {e : IoStep} (h : s.Inv) (hs : s.step e = some s') : s'.Inv := by
  cases steps hs with
  | drain message hp =>
    refine ⟨fun fd => SlotOk.drainMessage (h.slots fd) message, fun events hp' => ?_⟩
    exact absurd (hp.symm.trans hp') (by simp)
  | drained _ => exact ⟨h.slots, fun events hp' => absurd hp' (by simp)⟩
  | @send w fd fds server _ hsend =>
    refine ⟨slots_of_onlyAt h.slots (onlyAt_trySend hsend) (SlotOk.trySend (h.slots fd) hsend), ?_⟩
    exact fun events hp' => absurd hp' (by simp)
  | flushed _ => exact ⟨h.slots, fun events hp' => absurd hp' (by simp)⟩
  | wait _ hnodup hreports =>
    refine ⟨h.slots, fun events hp' => ?_⟩
    obtain rfl := Phase.handling.inj hp'
    exact eventsOk_reports h.slots hnodup hreports
  | accept hp haccept =>
    refine ⟨slots_of_onlyAt h.slots (onlyAt_acceptClient haccept) (SlotOk.acceptClient haccept), ?_⟩
    intro events hp'
    obtain rfl := Phase.handling.inj (hp.symm.trans hp')
    exact (h.events _ hp).acceptClient haccept
  | accepted hp =>
    refine ⟨h.slots, fun events hp' => ?_⟩
    obtain rfl := Phase.handling.inj hp'
    exact (h.events _ hp).tail
  | @read pops fd writable events client r hp hc hr =>
    refine ⟨slots_of_onlyAt h.slots (onlyAt_handleRead s.server fd client r)
      (SlotOk.handleRead (h.slots fd) hc hr), fun events' hp' => ?_⟩
    obtain rfl := Phase.handling.inj hp'
    refine (h.events _ hp).head rfl rfl (onlyAt_handleRead s.server fd client r) ?_
    -- the registration stays, unless the connection is closed
    intro readable heq hactive
    obtain ⟨-, -, rfl⟩ := PollEvent.client.inj heq
    obtain ⟨hserver, hopen⟩ := handleRead_open hc hactive
    show (ite _ _ _ : ExchangeServer).epoll fd = some true
    rw [hserver]
    refine (h.events _ hp).armed fd true List.mem_cons_self ?_
    rw [client_of_some hc]
    exact hopen
  | @write w fd events server hp hwrite =>
    refine ⟨slots_of_onlyAt h.slots (onlyAt_handleWrite hwrite)
      (SlotOk.handleWrite (h.slots fd) hwrite), ?_⟩
    intro events' hp'
    obtain rfl := Phase.handling.inj hp'
    refine (h.events _ hp).head rfl rfl (onlyAt_handleWrite hwrite) ?_
    exact fun readable heq => absurd heq (by simp)
  | handled hp =>
    refine ⟨h.slots, fun events hp' => ?_⟩
    obtain rfl := Phase.handling.inj hp'
    exact (h.events _ hp).tail
  | cycle _ => exact ⟨h.slots, fun events hp' => absurd hp' (by simp)⟩
  | arrive _ _ => exact ⟨h.slots, h.events⟩
  | pop _ => exact ⟨h.slots, h.events⟩

end Inv

/-! ### Runs -/

/-- No step of a run is `bad`. -/
def avoids (bad : EventLoop → IoStep → Bool) : EventLoop → List IoStep → Bool
  | _, [] => true
  | s, e :: es =>
      !bad s e && match s.step e with
        | none => true
        | some s' => avoids bad s' es

/-- **A run** keeps the invariant. -/
theorem Inv.run {reserved : Fd → Bool} {es : List IoStep} {s : EventLoop}
    (hrun : (start reserved).run es = some s) : s.Inv := by
  refine foldlM_some_invariant (P := fun _ t => t.Inv) ?_ es _ (inv_start reserved) hrun
  intro e es t t' ht hs _
  exact ht.step hs

/-- **The rule for runs**: what every step keeps that is not bad holds after a run. -/
theorem run_invariant {bad : EventLoop → IoStep → Bool} {P : EventLoop → Prop} {s s' : EventLoop}
    {es : List IoStep}
    (hstep : ∀ s e s', P s → bad s e = false → s.step e = some s' → P s') (h : P s)
    (havoids : avoids bad s es = true) (hrun : s.run es = some s') : P s' := by
  refine (foldlM_some_invariant (P := fun es t => P t ∧ avoids bad t es = true) ?_ es s
    ⟨h, havoids⟩ hrun).1
  intro e es t t' ⟨ht, hgood⟩ hnext _
  rw [avoids, hnext, Bool.and_eq_true, Bool.not_eq_true'] at hgood
  exact ⟨hstep t e t' ht hgood.1 hnext, hgood.2⟩

end EventLoop

end Exchange
