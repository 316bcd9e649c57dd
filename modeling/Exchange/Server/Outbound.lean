import Exchange.System

/-!
# Outbound byte streams

What the processor has for a connection goes through its write buffer, from which two
functions send: `try_send` before the events of a cycle, and `handle_write` when the
socket is writable again.  They share the buffer and the offset of what has been sent.
At every moment the bytes that the kernel has taken and the unsent ones behind them are
the payloads that have been drained for the connection, in order.

## Main definitions

* `ExchangeServer.unsent`, `ExchangeServer.outStream` — the bytes that have still to be
  sent, and all bytes of a connection.
* `ExchangeServer.Carries` — a call sends, or closes connections, and loses nothing.
* `System.drainedFor` — the payloads drained for the connection that has a descriptor.

## Main results

* `Carries.trySend`, `Carries.handleWrite`, `Carries.flushPendingWrites`,
  `Carries.handleRead` — the calls of the I/O thread lose nothing.
* `outbound_stream_exact` — outbound streams are exact along every run.
-/

namespace Exchange

namespace ExchangeServer

/-- The bytes of a write buffer that have still to be sent. -/
def unsent (s : ExchangeServer) (fd : Fd) : List UInt8 :=
  (s.client fd).writeBuffer.drop (s.client fd).bytesSent

/-- The bytes that the kernel has taken for a connection and the unsent ones. -/
def outStream (s : ExchangeServer) (fd : Fd) : List UInt8 := s.wire fd ++ s.unsent fd

/-- No more has been sent than the write buffer holds. -/
def SentWithin (s : ExchangeServer) (fd : Fd) : Prop :=
  (s.client fd).bytesSent ≤ (s.client fd).writeBuffer.length

/-- A call of the I/O thread loses nothing: a connection that is open after it was open
before, its bytes are the same ones, and no more has been sent than there is. -/
def Carries (s s' : ExchangeServer) : Prop :=
  ∀ fd, (s'.client fd).active = true → (s.client fd).active = true ∧
    (s.SentWithin fd → s'.SentWithin fd ∧ s'.outStream fd = s.outStream fd)

namespace Carries

variable {s s' : ExchangeServer} {fd : Fd} {c : ClientState}

theorem refl (s : ExchangeServer) : Carries s s := fun _ h => ⟨h, fun hs => ⟨hs, rfl⟩⟩

theorem trans {s₁ s₂ s₃ : ExchangeServer} (h : Carries s₁ s₂) (h' : Carries s₂ s₃) :
    Carries s₁ s₃ := by
  intro fd hactive
  obtain ⟨hactive₂, hout₂⟩ := h' fd hactive
  obtain ⟨hactive₁, hout₁⟩ := h fd hactive₂
  refine ⟨hactive₁, fun hs => ?_⟩
  obtain ⟨hs₂, heq₂⟩ := hout₁ hs
  obtain ⟨hs₃, heq₃⟩ := hout₂ hs₂
  exact ⟨hs₃, heq₃.trans heq₂⟩

/-- One slot is assigned and its socket may take bytes; the other connections are left
alone. -/
theorem of_slot (hc : s.clients[fd]? = some c) {c' : ClientState}
    (hother : ∀ fd', fd' ≠ fd → s'.client fd' = s.client fd' ∧ s'.wire fd' = s.wire fd')
    (hself : s'.client fd = c')
    (hout : c'.active = true → c.active = true ∧ (c.bytesSent ≤ c.writeBuffer.length →
      c'.bytesSent ≤ c'.writeBuffer.length ∧
        s'.wire fd ++ c'.writeBuffer.drop c'.bytesSent
          = s.wire fd ++ c.writeBuffer.drop c.bytesSent)) : Carries s s' := by
  intro fd' hactive
  by_cases hfd : fd' = fd
  · subst hfd
    rw [SentWithin, SentWithin, outStream, outStream, unsent, unsent, client_of_some hc, hself]
    rw [hself] at hactive
    exact hout hactive
  · obtain ⟨hclient, hwire⟩ := hother fd' hfd
    rw [SentWithin, SentWithin, outStream, outStream, unsent, unsent, hclient, hwire]
    rw [hclient] at hactive
    exact ⟨hactive, fun hs => ⟨hs, rfl⟩⟩

/-- A connection is closed. -/
theorem disconnectClient (hc : s.clients[fd]? = some c) : Carries s (s.disconnectClient fd) :=
  of_slot hc (fun _ hfd => ⟨client_setClient_of_ne hfd _, rfl⟩) (client_setClient_self hc _)
    fun h => absurd h Bool.false_ne_true

/-- The socket takes some of the unsent bytes, and the offset moves behind them. -/
theorem advance (hc : s.clients[fd]? = some c) {n : ℕ}
    (hn : n ≤ c.writeBuffer.length - c.bytesSent) :
    Carries s ((s.transmit fd c n).setClient fd { c with bytesSent := c.bytesSent + n }) := by
  refine of_slot hc (fun _ hfd => ⟨client_setClient_of_ne hfd _, ?_⟩)
    (client_setClient_self (s := s.transmit fd c n) hc _) fun h => ⟨h, fun hs => ⟨?_, ?_⟩⟩
  · exact Function.update_of_ne hfd _ _
  · show c.bytesSent + n ≤ c.writeBuffer.length
    omega
  · show Function.update s.wire fd _ fd ++ c.writeBuffer.drop (c.bytesSent + n) = _
    rw [Function.update_self, List.append_assoc, ← List.drop_drop, List.take_append_drop]

/-- The socket takes all of the unsent bytes, and the buffer is emptied. -/
theorem complete (hc : s.clients[fd]? = some c) {n : ℕ}
    (hn : c.writeBuffer.length - c.bytesSent ≤ n) :
    Carries s ((s.transmit fd c n).setClient fd
      { c with writeBuffer := [], bytesSent := 0 }) := by
  refine of_slot hc (fun _ hfd => ⟨client_setClient_of_ne hfd _, ?_⟩)
    (client_setClient_self (s := s.transmit fd c n) hc _) fun h => ⟨h, fun hs => ⟨?_, ?_⟩⟩
  · exact Function.update_of_ne hfd _ _
  · exact Nat.le_refl 0
  · show Function.update s.wire fd _ fd ++ [] = _
    rw [Function.update_self, List.append_nil, List.take_of_length_le]
    rw [List.length_drop]
    exact hn

theorem setEpollWrite (h : Carries s s') (enable : Bool) :
    Carries s (s'.setEpollWrite fd enable) := h

/-- **`try_send` loses nothing.** -/
theorem trySend {writable : Writable} (h : s.trySend writable fd = some s') : Carries s s' := by
  cases trySends h with
  | skip _ => exact .refl s
  | again _ _ _ => exact .refl s
  | close hactive _ _ => exact .disconnectClient (getElem?_of_active hactive)
  | complete hactive _ _ _ _ => exact .complete (getElem?_of_active hactive) (Nat.le_refl _)
  | part hactive _ hlt =>
    exact (advance (getElem?_of_active hactive) (Nat.le_of_lt hlt)).setEpollWrite true

/-- **`handle_write` loses nothing.** -/
theorem handleWrite {writable : Writable} (h : s.handleWrite writable fd = some s') :
    Carries s s' := by
  cases handlesWrite h with
  | skip _ => exact .refl s
  | again _ _ => exact .refl s
  | close hactive _ => exact .disconnectClient (getElem?_of_active hactive)
  | complete hactive _ _ _ =>
    exact (complete (getElem?_of_active hactive) (Nat.le_refl _)).setEpollWrite false
  | part hactive _ hlt => exact .advance (getElem?_of_active hactive) (Nat.le_of_lt hlt)

/-- **`flush_pending_writes` loses nothing**, also when a descriptor is pending more than
once. -/
theorem flushPendingWrites {writable : ℕ → Writable}
    (h : s.flushPendingWrites writable = some s') : Carries s s' := by
  obtain ⟨s₁, hrun, rfl⟩ := Option.map_eq_some_iff.mp h
  have hcarries : Carries s s₁ := by
    refine foldlM_some_invariant (P := fun _ s₂ => Carries s s₂) ?_ _ s (.refl s) hrun
    intro p ps s₂ s₃ hcarries hsend _
    exact hcarries.trans (.trySend hsend)
  exact hcarries

end Carries

end ExchangeServer

/-! ### Reading leaves the write buffers alone -/

/-- A connection that is still open has the write buffer and the offset it had. -/
def Reading.KeepsOut (c : ClientState) (r : Reading) : Prop :=
  r.client.active = true →
    r.client.writeBuffer = c.writeBuffer ∧ r.client.bytesSent = c.bytesSent

theorem Reading.KeepsOut.completes {c : ClientState} {r r₁ : Reading} (h : r.KeepsOut c)
    (hc : Completes r r₁) : r₁.KeepsOut c := by
  cases hc with
  | before _ => exact h
  | now _ _ _ => exact h

theorem Reading.KeepsOut.readStep {c : ClientState} {room : ℕ → Bool} {fd : Fd} {r r' : Reading}
    (h : r.KeepsOut c) (hs : ReadStep room fd r r') : r'.KeepsOut c := by
  cases hs with
  | header => exact h
  | decode hactive =>
    intro _
    exact ⟨(decodeHeader_writeBuffer _).trans (h hactive).1,
      (decodeHeader_bytesSent _).trans (h hactive).2⟩
  | payload => exact h
  | again => exact h
  | disconnect => exact fun hopen => absurd hopen Bool.false_ne_true
  | push _ _ hc =>
    have h₁ := h.completes hc
    exact h₁
  | keep _ _ hc =>
    have h₁ := h.completes hc
    exact h₁

theorem keepsOut_handleRead (room : ℕ → Bool) (fd : Fd) (c : ClientState)
    (arrivals : List Arrival) :
    (handleRead room fd (.begin c arrivals)).KeepsOut c :=
  handleRead_invariant (P := Reading.KeepsOut c) (fun _ _ h _ => h)
    (fun _ _ h hs => h.readStep hs) fun _ => ⟨rfl, rfl⟩

namespace ExchangeServer

/-- **`handle_read` loses nothing.** -/
theorem Carries.handleRead {s s' : ExchangeServer} {fd : Fd} {room : ℕ → Bool}
    {arrivals : List Arrival} {messages : List InboundMessage}
    (h : s.handleRead room arrivals fd = some (s', messages)) : Carries s s' := by
  obtain ⟨c, hc, heq⟩ := Option.map_eq_some_iff.mp h
  have hkeeps := keepsOut_handleRead room fd c arrivals
  obtain ⟨rfl, -⟩ := Prod.mk.inj heq
  split
  · next hsame =>
    -- a slot that is not active is not looked at
    refine of_slot hc (fun _ hfd => ⟨client_setClient_of_ne hfd _, rfl⟩)
      (client_setClient_self hc _) fun hactive => ⟨hsame ▸ hactive, fun hs => ?_⟩
    obtain ⟨hbuffer, hsent⟩ := hkeeps hactive
    rw [hbuffer, hsent]
    exact ⟨hs, rfl⟩
  · exact .disconnectClient hc

end ExchangeServer

/-! ### Along a run -/

namespace System

/-- The payloads drained for the connection that has a descriptor, in the order in which
they were popped. -/
def drainedFor (sys : System) (fd : Fd) : List UInt8 :=
  ((sys.appended.filter fun a => a.fd = fd ∧ a.conn = sys.connOf fd).map
    Appended.payload).flatten

/-- The invariant of a run: connections that are open have a number, what is logged
belongs to connections that have a number, and outbound streams are exact. -/
structure OutInv (sys : System) : Prop where
  numbered : ∀ fd, (sys.server.client fd).active = true → sys.connOf fd < sys.numConns
  logged : ∀ a ∈ sys.appended, a.conn < sys.numConns
  within : ∀ fd, (sys.server.client fd).active = true → sys.server.SentWithin fd
  exact : ∀ fd, (sys.server.client fd).active = true →
    sys.server.outStream fd = sys.drainedFor fd

/-- What a step does to outbound streams: a connection is accepted, a message is drained,
or nothing is added to or taken from a stream. -/
theorem step_outbound {sys sys' : System} {e : Event} (h : sys.step e = some sys') :
    (∃ fd, sys.server.acceptClient fd = some sys'.server ∧
        sys'.connOf = Function.update sys.connOf fd sys.numConns ∧
        sys'.numConns = sys.numConns + 1 ∧ sys'.appended = sys.appended) ∨
      (∃ d : Outgoing, sys'.server = sys.server.drainMessage d.message ∧ sys'.connOf = sys.connOf ∧
        sys'.numConns = sys.numConns ∧
        sys'.appended = sys.appended ++ if sys.server.delivers d.message then
          [⟨d.message.fd, sys.connOf d.message.fd, d.origin, d.message.payload⟩] else []) ∨
      (sys.server.Carries sys'.server ∧ sys'.connOf = sys.connOf ∧
        sys'.numConns = sys.numConns ∧ sys'.appended = sys.appended) := by
  cases e with
  | accept fd =>
    obtain ⟨server, hs, rfl⟩ := Option.map_eq_some_iff.mp h
    exact Or.inl ⟨fd, hs, rfl, rfl, rfl⟩
  | read fd arrivals room =>
    obtain ⟨⟨server, messages⟩, hs, rfl⟩ := Option.map_eq_some_iff.mp h
    exact Or.inr (Or.inr ⟨.handleRead hs, rfl, rfl, rfl⟩)
  | trySend fd writable =>
    obtain ⟨server, hs, rfl⟩ := Option.map_eq_some_iff.mp h
    exact Or.inr (Or.inr ⟨.trySend hs, rfl, rfl, rfl⟩)
  | flush writable =>
    obtain ⟨server, hs, rfl⟩ := Option.map_eq_some_iff.mp h
    exact Or.inr (Or.inr ⟨.flushPendingWrites hs, rfl, rfl, rfl⟩)
  | write fd writable =>
    obtain ⟨server, hs, rfl⟩ := Option.map_eq_some_iff.mp h
    exact Or.inr (Or.inr ⟨.handleWrite hs, rfl, rfl, rfl⟩)
  | drain =>
    obtain ⟨d, outbound, -, rfl⟩ := drain_cases h
    exact Or.inr (Or.inl ⟨d, rfl, rfl, rfl, rfl⟩)
  | disconnect fd =>
    obtain ⟨c, hc, -, rfl⟩ := disconnect_cases h
    exact Or.inr (Or.inr ⟨.disconnectClient hc, rfl, rfl, rfl⟩)
  | process times =>
    obtain ⟨q, inbound, session, -, -, -, rfl⟩ := process_cases h
    exact Or.inr (Or.inr ⟨.refl _, rfl, rfl, rfl⟩)
  | push =>
    obtain ⟨d, outbox, -, rfl⟩ := push_cases h
    exact Or.inr (Or.inr ⟨.refl _, rfl, rfl, rfl⟩)

/-- At the start no connection is open. -/
theorem closed_start (reserved : Fd → Bool) (fd : Fd) :
    ((start reserved).server.client fd).active = false :=
  congrArg ClientState.active (ExchangeServer.client_start reserved fd)

namespace OutInv

variable {sys sys' : System}

theorem start (reserved : Fd → Bool) : (System.start reserved).OutInv := by
  have hclosed := closed_start reserved
  refine ⟨?_, fun a ha => absurd ha List.not_mem_nil, ?_, ?_⟩
  · exact fun fd hactive => absurd ((hclosed fd).symm.trans hactive) Bool.false_ne_true
  · exact fun fd hactive => absurd ((hclosed fd).symm.trans hactive) Bool.false_ne_true
  · exact fun fd hactive => absurd ((hclosed fd).symm.trans hactive) Bool.false_ne_true

/-- A connection is accepted: its number is new, so that nothing has been logged for it. -/
theorem accept (h : sys.OutInv) {fd : Fd} (hs : sys.server.acceptClient fd = some sys'.server)
    (hconn : sys'.connOf = Function.update sys.connOf fd sys.numConns)
    (hnum : sys'.numConns = sys.numConns + 1) (hlog : sys'.appended = sys.appended) :
    sys'.OutInv := by
  obtain ⟨hclient, hwire, hother⟩ := ExchangeServer.acceptClient_client hs
  have hsame : ∀ fd', fd' ≠ fd → sys'.connOf fd' = sys.connOf fd' := by
    intro fd' hfd
    rw [hconn, Function.update_of_ne hfd]
  have hnew : sys'.drainedFor fd = [] := by
    have hnone : sys.appended.filter (fun a => a.fd = fd ∧ a.conn = sys.numConns) = [] := by
      rw [List.filter_eq_nil_iff]
      intro a ha hand
      have hlt := h.logged a ha
      rw [(of_decide_eq_true hand).2] at hlt
      exact absurd hlt (Nat.lt_irrefl _)
    rw [drainedFor, hlog, hconn, Function.update_self, hnone]
    rfl
  refine ⟨fun fd' hactive => ?_, ?_, fun fd' hactive => ?_, fun fd' hactive => ?_⟩
  · by_cases hfd : fd' = fd
    · rw [hfd, hconn, Function.update_self, hnum]
      exact Nat.lt_succ_self _
    · rw [(hother fd' hfd).1] at hactive
      rw [hsame fd' hfd, hnum]
      exact Nat.lt_succ_of_lt (h.numbered fd' hactive)
  · rw [hlog, hnum]
    exact fun a ha => Nat.lt_succ_of_lt (h.logged a ha)
  · by_cases hfd : fd' = fd
    · rw [hfd, ExchangeServer.SentWithin, hclient]
      exact Nat.le_refl 0
    · rw [(hother fd' hfd).1] at hactive
      rw [ExchangeServer.SentWithin, (hother fd' hfd).1]
      exact h.within fd' hactive
  · by_cases hfd : fd' = fd
    · rw [hfd, ExchangeServer.outStream, ExchangeServer.unsent, hclient, hwire, hnew]
      rfl
    · rw [(hother fd' hfd).1] at hactive
      rw [ExchangeServer.outStream, ExchangeServer.unsent, (hother fd' hfd).1,
        (hother fd' hfd).2, drainedFor, hlog, hsame fd' hfd]
      exact h.exact fd' hactive

/-- A message is drained: it is logged for the connection to whose stream it is added. -/
theorem drain (h : sys.OutInv) {d : Outgoing}
    (hs : sys'.server = sys.server.drainMessage d.message) (hconn : sys'.connOf = sys.connOf)
    (hnum : sys'.numConns = sys.numConns)
    (hlog : sys'.appended = sys.appended ++ if sys.server.delivers d.message then
      [⟨d.message.fd, sys.connOf d.message.fd, d.origin, d.message.payload⟩] else []) :
    sys'.OutInv := by
  have hclient := ExchangeServer.client_drainMessage sys.server d.message
  have hdrained : ∀ fd, sys'.drainedFor fd = sys.drainedFor fd ++
      if sys.server.delivers d.message ∧ fd = d.message.fd then d.message.payload else [] := by
    intro fd
    rw [drainedFor, drainedFor, hlog, hconn]
    -- the one entry, if any, is for the connection that has the descriptor of the message
    by_cases hdel : sys.server.delivers d.message = true
    · by_cases hfd : fd = d.message.fd
      · simp [hdel, hfd]
      · simp [hdel, hfd, Ne.symm hfd]
    · simp [hdel]
  refine ⟨fun fd hactive => ?_, ?_, fun fd hactive => ?_, fun fd hactive => ?_⟩
  · rw [hs, hclient] at hactive
    rw [hconn, hnum]
    exact h.numbered fd hactive
  · rw [hlog, hnum]
    intro a ha
    rcases List.mem_append.mp ha with ha | ha
    · exact h.logged a ha
    · split at ha
      · next hdel =>
        rw [List.mem_singleton.mp ha]
        exact h.numbered _ (ExchangeServer.active_of_delivers hdel)
      · exact absurd ha List.not_mem_nil
  · rw [hs, hclient] at hactive
    rw [ExchangeServer.SentWithin, hs, hclient, List.length_append]
    exact Nat.le_trans (h.within fd hactive) (Nat.le_add_right _ _)
  · rw [hs, hclient] at hactive
    rw [ExchangeServer.outStream, ExchangeServer.unsent, hs, hclient,
      ExchangeServer.wire_drainMessage, hdrained, ← h.exact fd hactive,
      ExchangeServer.outStream, ExchangeServer.unsent, List.append_assoc]
    congr 1
    exact List.drop_append_of_le_length (h.within fd hactive)

/-- **A step** keeps the streams exact. -/
theorem step (h : sys.OutInv) {e : Event} (hs : sys.step e = some sys') : sys'.OutInv := by
  rcases step_outbound hs with ⟨fd, hserver, hconn, hnum, hlog⟩ | ⟨d, hserver, hconn, hnum, hlog⟩ |
    ⟨hcarries, hconn, hnum, hlog⟩
  · exact h.accept hserver hconn hnum hlog
  · exact h.drain hserver hconn hnum hlog
  · -- the number of a connection and the log are as they were
    have hdrained : ∀ fd, sys'.drainedFor fd = sys.drainedFor fd := by
      intro fd
      rw [drainedFor, drainedFor, hlog, hconn]
    refine ⟨fun fd hactive => ?_, ?_, fun fd hactive => ?_, fun fd hactive => ?_⟩
    · rw [hconn, hnum]
      exact h.numbered fd (hcarries fd hactive).1
    · rw [hlog, hnum]
      exact h.logged
    · obtain ⟨hactive₀, hout⟩ := hcarries fd hactive
      exact (hout (h.within fd hactive₀)).1
    · obtain ⟨hactive₀, hout⟩ := hcarries fd hactive
      rw [(hout (h.within fd hactive₀)).2, hdrained, h.exact fd hactive₀]

/-- **A run** keeps the streams exact. -/
theorem run {reserved : Fd → Bool} {events : List Event}
    (hrun : System.run reserved events = some sys) : sys.OutInv := by
  refine foldlM_some_invariant (P := fun _ t => t.OutInv) ?_ events _ (start reserved) hrun
  intro e es t t' ht hstep _
  exact ht.step hstep

end OutInv

end System

/-- **Outbound byte streams are exact.**  In every state of every run, whatever the order
of drains, `try_send`s, flushes and `handle_write`s and whatever the sockets took: for
every connection that is open, no more has been sent than its write buffer holds, and the
bytes that the kernel has taken since the connection was accepted, followed by the unsent
ones, are the payloads drained for it, in the order in which they were popped. -/
theorem outbound_stream_exact {reserved : Fd → Bool} {events : List Event} {sys : System}
    (hrun : System.run reserved events = some sys) (fd : Fd)
    (hactive : (sys.server.client fd).active = true) :
    (sys.server.client fd).bytesSent ≤ (sys.server.client fd).writeBuffer.length ∧
      sys.server.wire fd
          ++ (sys.server.client fd).writeBuffer.drop (sys.server.client fd).bytesSent
        = sys.drainedFor fd :=
  ⟨(System.OutInv.run hrun).within fd hactive, (System.OutInv.run hrun).exact fd hactive⟩

/-- A client sends an order, and five of the thirteen bytes of the answer are sent. -/
def partialSendEvents : List Event :=
  [.accept 5,
    .read 5 [.chunk 1 ([0, 0, 0, 22, 7, 0, 0, 0, 0, 0, 0, 0, 100, 0, 0, 0, 0, 0, 0, 0, 10, 0, 0, 0,
      1, 0])] (fun _ => true),
    .process ⟨0, fun _ => 0⟩, .push, .drain, .trySend 5 (.room 4)]

theorem outbound_stream_exact_partial :
    ∃ sys, System.run (fun fd => fd < 5) partialSendEvents = some sys ∧
      sys.server.wire 5 = [3, 0, 0, 0, 8] ∧
      sys.server.wire 5
          ++ (sys.server.client 5).writeBuffer.drop (sys.server.client 5).bytesSent
        = sys.drainedFor 5 := by
  have heval : (System.run (fun fd => fd < 5) partialSendEvents).map
      (fun sys => (sys.server.wire 5, (sys.server.client 5).active))
        = some ([3, 0, 0, 0, 8], true) := by decide +kernel
  obtain ⟨sys, hrun, hsys⟩ := Option.map_eq_some_iff.mp heval
  obtain ⟨hwire, hactive⟩ := Prod.mk.inj hsys
  exact ⟨sys, hrun, hwire, (outbound_stream_exact hrun 5 hactive).2⟩

end Exchange
