import Exchange.Machine.Invariant
import Exchange.Server.Pipelining

/-!
# The threads refine the exchange

A run of `System` moves whole messages between the threads, and reads from a connection in
one step.  The threads themselves do neither: a message goes through the loads and stores of
a ring, and a call of `handle_read` is interleaved with everything else.  Here every run of
the threads is shown to be a run of `System`, with the same server, the same processor and
the same messages in the rings, and with the same bytes received.

A message leaves the inbound ring when it is popped, and `System` takes it off when it is
processed.  A part of a call of `handle_read` is a whole call in which the socket has
nothing more to give.

## Main definitions

* `Simulates` — the relation between the threads and the exchange.

## Main results

* `Simulates.step` — a step of the threads is at most one step of the exchange.
* `threads_refine_system` — every run of the threads is a run of the exchange.
-/

namespace Exchange

open ExchangeServer

/-! ### Steps of the exchange -/

/-- A socket that takes nothing for the moment leaves `try_send` without effect. -/
theorem trySend_again {s : ExchangeServer} {fd : Fd} (h : fd < s.clients.length) :
    s.trySend .again fd = some s := by
  rw [trySend, List.getElem?_eq_getElem h, Option.map_some]
  congr 1
  split
  · rfl
  · split
    · rfl
    · rfl

/-- `flush_pending_writes` with sockets that take nothing only forgets what is pending. -/
theorem flushPendingWrites_again {s : ExchangeServer}
    (h : ∀ fd ∈ s.pendingWrites, fd < s.clients.length) :
    s.flushPendingWrites (fun _ => .again) = some { s with pendingWrites := [] } := by
  have hfold : ∀ l : List (Fd × ℕ), (∀ p ∈ l, p.1 < s.clients.length) →
      l.foldlM (fun (s : ExchangeServer) p => s.trySend .again p.1) s = some s := by
    intro l
    induction l with
    | nil => intro _; rfl
    | cons p l ih =>
      intro hl
      rw [List.foldlM_cons, trySend_again (hl p List.mem_cons_self)]
      exact ih fun q hq => hl q (List.mem_cons_of_mem p hq)
  rw [flushPendingWrites, hfold]
  · rfl
  · intro p hp
    exact h p.1 (List.mem_map_of_mem (f := Prod.fst) hp |> fun hmem => by
      rwa [List.zipIdx_map_fst] at hmem)

namespace System

/-- What is received in a run that goes on. -/
theorem received_append (fd : Fd) (es : List Event) {e : Event} {t : System} :
    ∀ {s : System}, es.foldlM step s = some t →
      received fd s (es ++ [e]) = received fd s es ++ t.receives fd e := by
  induction es with
  | nil =>
    intro s h
    obtain rfl := Option.some.inj h
    rw [List.nil_append, received, received, List.nil_append]
    cases s.step e with
    | none => exact List.append_nil _
    | some s' => exact List.append_nil _
  | cons e' es ih =>
    intro s h
    rw [List.foldlM_cons] at h
    obtain ⟨s₁, hs₁, hrest⟩ := Option.bind_eq_some_iff.mp h
    rw [List.cons_append, received, received, hs₁, List.append_assoc]
    simp only
    rw [ih hrest]

end System

/-- The threads and the exchange in related states, where `events` has led to the latter.
What is in the inbound ring of the exchange is what is in the ring of the threads, with the
request that the processor has popped, if any. -/
structure Simulates (reserved : Fd → Bool) (events : List Event) (m : Machine) (sys : System) :
    Prop where
  run : System.run reserved events = some sys
  server : sys.server = m.server
  session : sys.session = m.session
  inbound : sys.inbound.map Incoming.message = m.worker.held ++ m.inbound.items
  outbox : sys.outbox.map Outgoing.message = m.worker.outbox
  outbound : sys.outbound.map Outgoing.message = m.outbound.items
  received : ∀ fd, System.received fd (.start reserved) events = m.taken fd

namespace Simulates

variable {reserved : Fd → Bool} {events : List Event} {m m' : Machine} {sys sys' : System}

theorem start (reserved : Fd → Bool) (inbound : Fin (2 ^ ringBits.val) → InboundMessage)
    (outbound : Fin (2 ^ ringBits.val) → OutboundMessage) :
    Simulates reserved [] (.start reserved inbound outbound) (.start reserved) where
  run := rfl
  server := rfl
  session := rfl
  inbound := rfl
  outbox := rfl
  outbound := rfl
  received := fun _ => rfl

/-- The threads have taken a step that the exchange does not see. -/
theorem stay (h : Simulates reserved events m sys) (hserver : m'.server = m.server)
    (hsession : m'.session = m.session)
    (hinbound : m'.worker.held ++ m'.inbound.items = m.worker.held ++ m.inbound.items)
    (houtbox : m'.worker.outbox = m.worker.outbox)
    (houtbound : m'.outbound.items = m.outbound.items) (htaken : m'.taken = m.taken) :
    ∃ es sys', es.foldlM System.step sys = some sys' ∧
      Simulates reserved (events ++ es) m' sys' := by
  refine ⟨[], sys, rfl, ?_⟩
  rw [List.append_nil]
  exact ⟨h.run, h.server.trans hserver.symm, h.session.trans hsession.symm,
    h.inbound.trans hinbound.symm, h.outbox.trans houtbox.symm, h.outbound.trans houtbound.symm,
    fun fd => by rw [htaken]; exact h.received fd⟩

/-- The exchange takes the step with the threads. -/
theorem follow (h : Simulates reserved events m sys) {e : Event} (hs : sys.step e = some sys')
    (hserver : sys'.server = m'.server) (hsession : sys'.session = m'.session)
    (hinbound : sys'.inbound.map Incoming.message = m'.worker.held ++ m'.inbound.items)
    (houtbox : sys'.outbox.map Outgoing.message = m'.worker.outbox)
    (houtbound : sys'.outbound.map Outgoing.message = m'.outbound.items)
    (htaken : ∀ fd, m'.taken fd = m.taken fd ++ sys.receives fd e) :
    ∃ es sys', es.foldlM System.step sys = some sys' ∧
      Simulates reserved (events ++ es) m' sys' := by
  have hone : [e].foldlM System.step sys = some sys' := by
    rw [List.foldlM_cons, hs]
    rfl
  refine ⟨[e], sys', hone, ?_, hserver, hsession, hinbound, houtbox, houtbound, fun fd => ?_⟩
  · rw [System.run, List.foldlM_append]
    show System.run reserved events >>= _ = _
    rw [h.run]
    exact hone
  · rw [System.received_append fd events h.run, h.received, htaken]

/-- A step of the I/O thread on the server alone. -/
theorem serve (h : Simulates reserved events m sys) {e : Event} (hs : sys.step e = some sys')
    (hserver : sys'.server = m'.server) (hkeep : sys'.session = sys.session ∧
      sys'.inbound = sys.inbound ∧ sys'.outbox = sys.outbox ∧ sys'.outbound = sys.outbound)
    (hkeep' : m'.session = m.session ∧ m'.inbound = m.inbound ∧ m'.worker = m.worker ∧
      m'.outbound = m.outbound ∧ m'.taken = m.taken) (hnone : ∀ fd, sys.receives fd e = []) :
    ∃ es sys', es.foldlM System.step sys = some sys' ∧
      Simulates reserved (events ++ es) m' sys' := by
  obtain ⟨hsession, hinbound, houtbox, houtbound⟩ := hkeep
  obtain ⟨hsession', hinbound', hworker', houtbound', htaken'⟩ := hkeep'
  refine h.follow hs hserver ?_ ?_ ?_ ?_ fun fd => ?_
  · rw [hsession, hsession', h.session]
  · rw [hinbound, hinbound', hworker', h.inbound]
  · rw [houtbox, hworker', h.outbox]
  · rw [houtbound, houtbound', h.outbound]
  · rw [hnone, htaken', List.append_nil]

/-- A part of a call of `handle_read` that is a call. -/
theorem reads (h : Simulates reserved events m sys) {fd : Fd} {client : ClientState}
    (hc : m.server.clients[fd]? = some client) (room : ℕ → Bool) (given : List Arrival)
    {r : Reading} (hr : handleRead room fd (.begin client given) = r)
    (hserver : m'.server = if r.client.active = client.active then m.server.setClient fd r.client
      else m.server.disconnectClient fd)
    (hsession : m'.session = m.session)
    (hinbound : m'.worker.held ++ m'.inbound.items
      = m.worker.held ++ m.inbound.items ++ r.pushed)
    (houtbox : m'.worker.outbox = m.worker.outbox)
    (houtbound : m'.outbound.items = m.outbound.items)
    (htaken : m'.taken = Function.update m.taken fd (m.taken fd ++ r.consumed)) :
    ∃ es sys', es.foldlM System.step sys = some sys' ∧
      Simulates reserved (events ++ es) m' sys' := by
  have hcall : handleRead room fd (.begin client given) = r := hr
  have hc' : sys.server.clients[fd]? = some client := by rw [h.server]; exact hc
  have hs : sys.step (.read fd given room) = some { sys with
      server := if r.client.active = client.active then sys.server.setClient fd r.client
        else sys.server.disconnectClient fd
      inbound := sys.inbound ++ r.pushed.map fun m => ⟨m, sys.connOf fd⟩ } := by
    show sys.read fd given room = _
    rw [System.read, ExchangeServer.handleRead, hc', Option.map_some, Option.map_some]
    simp only [hcall]
  refine h.follow hs ?_ ?_ ?_ ?_ ?_ fun fd' => ?_
  · rw [hserver, h.server]
  · exact h.session.trans hsession.symm
  · rw [List.map_append, h.inbound, hinbound, List.map_map]
    congr 1
    exact List.map_id _
  · exact h.outbox.trans houtbox.symm
  · exact h.outbound.trans houtbound.symm
  · rw [htaken, System.receives]
    by_cases hfd : fd' = fd
    · subst hfd
      rw [Function.update_self, if_pos rfl, client_of_some hc', hcall]
    · rw [Function.update_of_ne hfd, if_neg (Ne.symm hfd), List.append_nil]

/-- A part of a call in which nothing is pushed. -/
theorem receives (h : Simulates reserved events m sys) {fd : Fd} {client : ClientState}
    (hc : m.server.clients[fd]? = some client) {r : Reading}
    (hpart : ∃ given, r.Same (handleRead (fun _ => false) fd (.begin client given)))
    (hm' : m'.server = (m.received fd client r).server ∧ m'.session = m.session ∧
      m'.worker = m.worker ∧ m'.inbound = m.inbound ∧ m'.outbound = m.outbound ∧
      m'.taken = (m.received fd client r).taken) :
    ∃ es sys', es.foldlM System.step sys = some sys' ∧
      Simulates reserved (events ++ es) m' sys' := by
  obtain ⟨given, hsame⟩ := hpart
  obtain ⟨hserver, hsession, hworker, hinbound, houtbound, htaken⟩ := hm'
  refine h.reads hc (fun _ => false) given rfl ?_ hsession ?_ (by rw [hworker])
    (by rw [houtbound]) ?_
  · rw [hserver, hsame.client]
    rfl
  · rw [hworker, hinbound, pushed_of_no_room, List.append_nil]
  · rw [htaken, hsame.consumed]
    rfl

/-- A step of the event loop. -/
theorem loop (h : Simulates reserved events m sys) (hinv : m.Inv) {e : IoStep} {s : EventLoop}
    (hfree : m.reading = none ∧ e.isLocal = true ∨ e.isArrival = true)
    (hs : m.io.step e = some s) :
    ∃ es sys', es.foldlM System.step sys = some sys' ∧ Simulates reserved (events ++ es)
      { m with server := s.server, phase := s.phase, sockets := s.sockets } sys' := by
  cases EventLoop.steps hs with
  | drain message hp => exact absurd hfree (by simp [IoStep.isLocal, IoStep.isArrival])
  | drained hp => exact absurd hfree (by simp [IoStep.isLocal, IoStep.isArrival])
  | read hp hc hr => exact absurd hfree (by simp [IoStep.isLocal, IoStep.isArrival])
  | pop n => exact absurd hfree (by simp [IoStep.isLocal, IoStep.isArrival])
  | @send w fd fds server hp hsend =>
    have hstep : sys.step (.trySend fd w) = some { sys with server } := by
      show (sys.server.trySend w fd).map _ = _
      rw [h.server, show m.server.trySend w fd = some server from hsend]
      rfl
    exact h.serve hstep rfl ⟨rfl, rfl, rfl, rfl⟩ ⟨rfl, rfl, rfl, rfl, rfl⟩ fun _ => rfl
  | flushed hp =>
    have hstep : sys.step (.flush fun _ => .again)
        = some { sys with server := { m.server with pendingWrites := [] } } := by
      show (sys.server.flushPendingWrites _).map _ = _
      rw [h.server, flushPendingWrites_again hinv.pending]
      rfl
    exact h.serve hstep rfl ⟨rfl, rfl, rfl, rfl⟩ ⟨rfl, rfl, rfl, rfl, rfl⟩ fun _ => rfl
  | @accept fd pollEvents server hp haccept =>
    have hstep : sys.step (.accept fd) = some { sys with
        server
        connOf := Function.update sys.connOf fd sys.numConns
        numConns := sys.numConns + 1 } := by
      show (sys.server.acceptClient fd).map _ = _
      rw [h.server, show m.server.acceptClient fd = some server from haccept]
      rfl
    exact h.serve hstep rfl ⟨rfl, rfl, rfl, rfl⟩ ⟨rfl, rfl, rfl, rfl, rfl⟩ fun _ => rfl
  | @write w fd pollEvents server hp hwrite =>
    have hstep : sys.step (.write fd w) = some { sys with server } := by
      show (sys.server.handleWrite w fd).map _ = _
      rw [h.server, show m.server.handleWrite w fd = some server from hwrite]
      rfl
    exact h.serve hstep rfl ⟨rfl, rfl, rfl, rfl⟩ ⟨rfl, rfl, rfl, rfl, rfl⟩ fun _ => rfl
  -- the other steps change nothing but where the thread is, or a socket
  | wait hp _ _ => exact h.stay rfl rfl rfl rfl rfl rfl
  | accepted hp => exact h.stay rfl rfl rfl rfl rfl rfl
  | handled hp => exact h.stay rfl rfl rfl rfl rfl rfl
  | cycle hp => exact h.stay rfl rfl rfl rfl rfl rfl
  | arrive fd ha => exact h.stay rfl rfl rfl rfl rfl rfl

theorem outbox_ofOutbox (outbox : List OutboundMessage) :
    (Worker.ofOutbox outbox).outbox = outbox ∧ (Worker.ofOutbox outbox).held = [] := by
  cases outbox with
  | nil => exact ⟨rfl, rfl⟩
  | cons message outbox => exact ⟨rfl, rfl⟩

/-- **A step of the threads is at most one step of the exchange.** -/
theorem step (h : Simulates reserved events m sys) (hinv : m.Inv) {e : MachineStep}
    (hstep : m.step e = some m') :
    ∃ es sys', es.foldlM System.step sys = some sys' ∧
      Simulates reserved (events ++ es) m' sys' := by
  cases Machine.steps hstep with
  | loop hfree hs => exact h.loop hinv hfree hs
  | @drain e outbound result hp he hs =>
    obtain ⟨-, ⟨rfl, hitems⟩ | ⟨rfl, hitems⟩ | ⟨message, rfl, hitems⟩⟩ :=
      Threads.pop_cases hinv.outbound he hs
    · exact h.stay rfl rfl rfl rfl hitems rfl
    · exact h.stay rfl rfl rfl rfl hitems rfl
    · -- a message has been popped
      have hout := h.outbound
      rw [hitems] at hout
      obtain ⟨d, rest, hd, rfl, hrest⟩ := List.map_eq_cons_iff.mp hout
      refine h.follow (System.step_drain hd) ?_ h.session h.inbound h.outbox hrest fun _ =>
        (List.append_nil _).symm
      rw [System.drainTo, h.server]
      rfl
  | callOpen hp hr hc hactive => exact h.stay rfl rfl rfl rfl rfl rfl
  | callClosed hp hr hc hactive => exact h.stay rfl rfl rfl rfl rfl rfl
  | headerDone hp hr hc hphase hdone =>
    exact h.receives hc
      (handleRead_header _ (hinv.reading hr hp hc).1 hphase (Or.inl hdone))
      ⟨rfl, rfl, rfl, rfl, rfl, rfl⟩
  | headerNext hp hr hc hphase hnext =>
    exact h.receives hc
      (handleRead_header _ (hinv.reading hr hp hc).1 hphase (Or.inr hnext))
      ⟨rfl, rfl, rfl, rfl, rfl, rfl⟩
  | headerSkip hp hr hc hphase => exact h.stay rfl rfl rfl rfl rfl rfl
  | payloadDone hp hr hc hphase hdone hattempts =>
    exact h.receives hc (handleRead_payload (hinv.reading hr hp hc).1 hphase hdone)
      ⟨rfl, rfl, rfl, rfl, rfl, rfl⟩
  | payloadFull hp hr hc hphase hdone hattempts =>
    exact h.receives hc (handleRead_payload (hinv.reading hr hp hc).1 hphase hdone)
      ⟨rfl, rfl, rfl, rfl, rfl, rfl⟩
  | payloadSkip hp hr hc hphase => exact h.stay rfl rfl rfl rfl rfl rfl
  | @push e fd writable pollEvents client inbound result hp hr hc he hs =>
    obtain ⟨hactive, hphase, hfull, hholds⟩ := hinv.reading hr hp hc
    rcases Threads.push_cases hinv.inbound he hholds hs with
      ⟨rfl, hitems, -⟩ | ⟨rfl, hitems, -, -⟩ | ⟨rfl, hitems, -⟩
    · exact h.stay rfl rfl (congrArg _ hitems) rfl rfl rfl
    · exact h.stay rfl rfl (congrArg _ hitems) rfl rfl rfl
    · -- the frame has been pushed
      obtain ⟨hclient, hconsumed, hpushed⟩ := handleRead_push fd hactive hphase hfull
      refine h.reads hc (fun k => k = 0) [] rfl ?_ rfl ?_ rfl rfl ?_
      · rw [hclient, if_pos rfl]
        rfl
      · rw [hpushed, List.append_assoc, ← hitems]
        rfl
      · rw [hconsumed, List.append_nil, Function.update_eq_self]
        rfl
  | @pop e inbound result hw he hs =>
    obtain ⟨-, ⟨rfl, hitems⟩ | ⟨rfl, hitems⟩ | ⟨message, rfl, hitems⟩⟩ :=
      Threads.pop_cases hinv.inbound he hs
    · exact h.stay rfl rfl (congrArg _ hitems) rfl rfl rfl
    · exact h.stay rfl rfl (congrArg _ hitems) rfl rfl rfl
    · -- the request is still in the inbound ring of the exchange
      refine h.stay rfl rfl ?_ ?_ rfl rfl
      · rw [hitems, hw]
        rfl
      · rw [hw]
        rfl
  | @process times message session hw hs =>
    have hin := h.inbound
    have hout := h.outbox
    rw [hw] at hin hout
    obtain ⟨q, rest, hq, rfl, hrest⟩ := List.map_eq_cons_iff.mp hin
    have hbox : sys.outbox = [] := List.map_eq_nil_iff.mp hout
    have hprocess := System.step_process hbox hq (h.session ▸ hs)
    obtain ⟨hbox', hheld⟩ := outbox_ofOutbox (session.pushed.drop m.session.pushed.length)
    refine h.follow hprocess h.server rfl ?_ ?_ h.outbound fun _ => (List.append_nil _).symm
    · show rest.map Incoming.message = (Worker.ofOutbox _).held ++ m.inbound.items
      rw [hheld, List.nil_append]
      exact hrest
    · show (tagged _ _).map Outgoing.message = (Worker.ofOutbox _).outbox
      rw [System.Ordered.map_message_tagged, h.session, hbox']
  | @reply e message outbox outbound result hw he hs =>
    have hholds : m.outbound.producer.Holds message := by
      have hknows := hinv.worker
      rw [Machine.WorkerKnows, hw] at hknows
      exact hknows
    rcases Threads.push_cases hinv.outbound he hholds hs with
      ⟨rfl, hitems, -⟩ | ⟨rfl, hitems, -, -⟩ | ⟨rfl, hitems, -⟩
    · exact h.stay rfl rfl rfl rfl hitems rfl
    · exact h.stay rfl rfl rfl rfl hitems rfl
    · -- the message has been pushed
      have hout := h.outbox
      rw [hw] at hout
      obtain ⟨d, rest, hd, rfl, hrest⟩ := List.map_eq_cons_iff.mp hout
      have hpush := System.step_push hd
      obtain ⟨hbox', hheld⟩ := outbox_ofOutbox outbox
      refine h.follow hpush h.server h.session ?_ ?_ ?_ fun _ => (List.append_nil _).symm
      · show sys.inbound.map Incoming.message = (Worker.ofOutbox outbox).held ++ m.inbound.items
        rw [h.inbound, hw, hheld]
        rfl
      · show rest.map Outgoing.message = (Worker.ofOutbox outbox).outbox
        rw [hbox']
        exact hrest
      · show (sys.outbound ++ [d]).map Outgoing.message = outbound.items
        rw [List.map_append, h.outbound, hitems]
        rfl

end Simulates

/-- **Every run of the threads is a run of the exchange.**  For every interleaving of the
loads and stores of the two threads, of the calls of `recv` and `send`, and of what arrives
on the sockets, with rings that wrap, fill up and run empty: there is a run of `System` that
has received the same bytes on every descriptor and has come to the same server, so that it
has sent the same bytes too, to the same processor, and to the same messages in the rings;
and no ring holds more than its capacity. -/
theorem threads_refine_system {reserved : Fd → Bool}
    {inbound : Fin (2 ^ ringBits.val) → InboundMessage}
    {outbound : Fin (2 ^ ringBits.val) → OutboundMessage} {steps : List MachineStep} {m : Machine}
    (h : Machine.run reserved inbound outbound steps = some m) :
    (∃ events sys, Simulates reserved events m sys) ∧
      m.inbound.items.length ≤ DEFAULT_RING_CAPACITY ∧
      m.outbound.items.length ≤ DEFAULT_RING_CAPACITY := by
  have hstep : ∀ e (m m' : Machine) events sys, m.Inv ∧ Simulates reserved events m sys →
      m.step e = some m' → ∃ es sys', es.foldlM System.step sys = some sys' ∧
        m'.Inv ∧ Simulates reserved (events ++ es) m' sys' := by
    rintro e m m' events sys ⟨hinv, hsim⟩ hs
    obtain ⟨es, sys', hes, hsim'⟩ := hsim.step hinv hs
    exact ⟨es, sys', hes, hinv.step hs, hsim'⟩
  obtain ⟨events, sys, -, hinv, hsim⟩ := foldlM_simulation
    (R := fun events m sys => m.Inv ∧ Simulates reserved events m sys) hstep steps
    (.start reserved inbound outbound) m [] (.start reserved)
    ⟨Machine.inv_start reserved inbound outbound, .start reserved inbound outbound⟩ h
  have hin := hinv.inbound.bounded
  have hout := hinv.outbound.bounded
  rw [two_pow_ringBits] at hin hout
  refine ⟨⟨_, sys, hsim⟩, ?_, ?_⟩
  · rw [Threads.Inv.length_items]
    omega
  · rw [Threads.Inv.length_items]
    omega

/-- A client connects and sends a request for an ask of ten.  The processor pops while the
request is being pushed, and its acknowledgement is in the outbound ring at the end. -/
def singleAskSteps : List MachineStep :=
  [.drain .popLoadTail, .drain .popLoadHead, .loop .flushed, .loop (.wait [.listening]),
    .loop (.accept 5), .loop .accepted, .loop .cycle, .drain .popLoadTail, .drain .popLoadHead,
    .loop .flushed,
    .loop (.arrive 5 (.chunk 1 [0, 0, 0, 22, 7, 0, 0, 0, 0, 0, 0, 0, 100, 0, 0, 0, 0, 0, 0, 0, 10,
      0, 0, 0, 1, 0])),
    .loop (.wait [.client 5 true false]), .call, .header, .payload,
    .push (.pushLoadHead ⟨5, .NEW_ORDER, [7, 0, 0, 0, 0, 0, 0, 0, 100, 0, 0, 0, 0, 0, 0, 0, 10, 0,
      0, 0, 1, 0]⟩),
    .push .pushLoadTail, .pop .popLoadTail, .push .pushWrite, .push .pushStore, .pop .popLoadHead,
    .header, .pop (.popMove ⟨0, .NEW_ORDER, []⟩), .pop .popStore, .process ⟨0, fun _ => 0⟩,
    .loop .handled, .reply (.pushLoadHead ⟨5, [3, 0, 0, 0, 8, 7, 0, 0, 0, 0, 0, 0, 0]⟩),
    .reply .pushLoadTail, .loop .cycle, .reply .pushWrite, .drain .popLoadTail, .reply .pushStore]

theorem threads_refine_system_single_ask :
    ∃ m, Machine.run (fun fd => fd < 5) (fun _ => ⟨0, .NEW_ORDER, []⟩) (fun _ => ⟨0, []⟩)
        singleAskSteps = some m ∧
      m.outbound.items = [⟨5, [3, 0, 0, 0, 8, 7, 0, 0, 0, 0, 0, 0, 0]⟩] ∧
      ∃ events sys, Simulates (fun fd => fd < 5) events m sys := by
  have heval : (Machine.run (fun fd => fd < 5) (fun _ => ⟨0, .NEW_ORDER, []⟩) (fun _ => ⟨0, []⟩)
      singleAskSteps).map (fun m => m.outbound.items)
      = some [⟨5, [3, 0, 0, 0, 8, 7, 0, 0, 0, 0, 0, 0, 0]⟩] := by decide +kernel
  obtain ⟨m, hrun, hitems⟩ := Option.map_eq_some_iff.mp heval
  exact ⟨m, hrun, hitems, (threads_refine_system hrun).1⟩

end Exchange
