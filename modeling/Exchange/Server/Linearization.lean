import Exchange.Processor.Faults
import Exchange.Server.Connections
import Exchange.Server.Reuse

/-!
# One history for all connections

The exchange reads, processes and writes concurrently, and every connection sees a part of
what it does only.  There is one history behind all of it: the requests in the order in which
the processor has taken them.  An exchange that does these requests one after another, and
nothing else, produces what every connection is sent, and it does the requests of a
connection in the order in which they were sent.  As time goes on the history is added to at
its end, so that a request that has been answered comes before every request sent later.

A connection that has a descriptor after another one may be sent messages of that one.  The
result is about connections that are the first to have their descriptor.

## Main definitions

* `Session.Addresses` — a descriptor occurs in the table or in what has been pushed.
* `System.inFlight` — the bytes for a descriptor that are on their way.
* `System.Unknown`, `System.Attended` — the invariant, before and after a descriptor is
  handed out.

## Main results

* `Session.addresses_step` — what is sent goes to connections that have sent something.
* `one_history` — the run of a concurrent exchange is a sequential one.
-/

namespace Exchange

open Bytes

/-! ### Who is addressed -/

/-- A descriptor occurs in the routing table or in what has been pushed. -/
def Session.Addresses (s : Session) (fd : Fd) : Prop :=
  (∃ id, s.processor.orderToClientFd id = some fd) ∨ ∃ m ∈ s.pushed, m.fd = fd

/-- The table with the route of a request. -/
theorem route_update {routes : OrderId → Option Fd} {id id' : OrderId} {fd fd' : Fd}
    (h : Function.update routes id (some fd) id' = some fd') :
    fd' = fd ∨ ∃ id, routes id = some fd' := by
  by_cases hid : id' = id
  · rw [hid, Function.update_self] at h
    exact Or.inl (Option.some.inj h).symm
  · rw [Function.update_of_ne hid] at h
    exact Or.inr ⟨id', h⟩

section Addresses

variable {failures : ℕ → ℕ} {s s' : Session} {i : Input}

/-- The routes are to connections that have sent something, or to the descriptor 0 for keys
that were missing. -/
theorem route_step (hinv : s.processor.book.Inv) (h : s.step failures i = .ok s') {id : OrderId}
    {fd : Fd} (hroute : s'.processor.orderToClientFd id = some fd) :
    fd = 0 ∨ fd = i.message.fd ∨ ∃ id, s.processor.orderToClientFd id = some fd := by
  obtain ⟨s₁, hs₁, -, hcases⟩ := step_cases failures hinv (wellFormed_of_step h)
  obtain rfl := Except.ok.inj (h.symm.trans hs₁)
  rcases hcases with ⟨order, hsub⟩ | ⟨-, hsame, -⟩ | ⟨_, _, -, -, -, -, -, -, hroutes⟩
  · rw [hsub.routes, readRoutes] at hroute
    split at hroute
    · exact Or.inl (Option.some.inj hroute).symm
    · exact Or.inr (route_update hroute)
  · rw [hsame] at hroute
    exact Or.inr (Or.inr ⟨id, hroute⟩)
  · rw [hroutes] at hroute
    by_cases hid : id = payloadId i.message.payload
    · rw [hid, Function.update_self] at hroute
      exact absurd hroute (by simp)
    · rw [Function.update_of_ne hid] at hroute
      exact Or.inr (Or.inr ⟨id, hroute⟩)

/-- What a request pushes goes to the connection it came from, to routes of the table, or to
the descriptor 0. -/
theorem pushed_step (hinv : s.processor.book.Inv) (h : s.step failures i = .ok s') :
    ∃ ms, s'.pushed = s.pushed ++ ms ∧ ∀ m ∈ ms, m.fd = 0 ∨ m.fd = i.message.fd ∨
      ∃ id, s.processor.orderToClientFd id = some m.fd := by
  obtain ⟨s₁, hs₁, -, hcases⟩ := step_cases failures hinv (wellFormed_of_step h)
  obtain rfl := Except.ok.inj (h.symm.trans hs₁)
  -- a request that submits nothing is answered
  have hnone : i.accepted = none → ∃ ms, s'.pushed = s.pushed ++ ms ∧
      ∀ m ∈ ms, m.fd = 0 ∨ m.fd = i.message.fd ∨
        ∃ id, s.processor.orderToClientFd id = some m.fd := by
    intro hacc
    obtain ⟨reply, hreply⟩ := pushed_of_none h hacc
    refine ⟨_, hreply, fun m hm => ?_⟩
    rw [List.mem_singleton.mp hm]
    exact Or.inr (Or.inl rfl)
  rcases hcases with ⟨order, hsub⟩ | ⟨hacc, -⟩ | ⟨_, _, hacc, -⟩
  · refine ⟨_, hsub.pushed.trans (List.append_assoc _ _ _), fun m hm => ?_⟩
    rcases List.mem_append.mp hm with hm | hm
    · obtain ⟨t, -, rfl⟩ := List.mem_map.mp hm
      cases hroute : Function.update s.processor.orderToClientFd order.id (some i.message.fd)
          (t.counterparty order.side) with
      | none => exact Or.inl rfl
      | some fd => exact Or.inr (route_update hroute)
    · rw [List.mem_singleton.mp hm]
      exact Or.inr (Or.inl rfl)
  · exact hnone hacc
  · exact hnone hacc

/-- **What is sent goes to connections that have sent something.** -/
theorem Session.addresses_step {fd : Fd} (hinv : s.processor.book.Inv)
    (h : s.step failures i = .ok s') (hfd : s'.Addresses fd) :
    fd = 0 ∨ fd = i.message.fd ∨ s.Addresses fd := by
  rcases hfd with ⟨id, hroute⟩ | ⟨m, hm, rfl⟩
  · rcases route_step hinv h hroute with hzero | hself | hold
    · exact Or.inl hzero
    · exact Or.inr (Or.inl hself)
    · exact Or.inr (Or.inr (Or.inl hold))
  · obtain ⟨ms, hpushed, hms⟩ := pushed_step hinv h
    rw [hpushed, List.mem_append] at hm
    rcases hm with hm | hm
    · exact Or.inr (Or.inr (Or.inr ⟨m, hm, rfl⟩))
    · rcases hms m hm with hzero | hself | hold
      · exact Or.inl hzero
      · exact Or.inr (Or.inl hself)
      · exact Or.inr (Or.inr (Or.inl hold))

end Addresses

/-! ### One step -/

/-- The descriptor is handed out. -/
def Event.accepts (fd : Fd) : Event → Bool
  | .accept fd' => fd' = fd
  | _ => false

namespace System

/-- The bytes for a descriptor that are on their way to its write buffer. -/
def inFlight (sys : System) (fd : Fd) : List UInt8 :=
  ((((sys.outbound ++ sys.outbox).map Outgoing.message).filter fun m => m.fd = fd).map
    OutboundMessage.payload).flatten

variable {sys sys' : System} {e : Event} {fd : Fd}

/-- A connection is opened by `accept_client` only. -/
theorem active_of_step (hs : sys.step e = some sys') (he : e.accepts fd = false)
    (hactive : (sys'.server.client fd).active = true) :
    (sys.server.client fd).active = true := by
  cases e with
  | accept fd' =>
    obtain ⟨server, hserver, rfl⟩ := Option.map_eq_some_iff.mp hs
    rw [← (onlyAt_acceptClient hserver fd (Ne.symm (of_decide_eq_false he))).1]
    exact hactive
  | read fd' arrivals room =>
    obtain ⟨⟨server, messages⟩, hserver, rfl⟩ := Option.map_eq_some_iff.mp hs
    obtain ⟨-, honly, hopen, -⟩ := handleRead_slot hserver
    by_cases hfd : fd = fd'
    · rw [hfd] at hactive ⊢
      exact (hopen hactive).1
    · rw [← (honly fd hfd).1]
      exact hactive
  | drain =>
    obtain ⟨d, outbound, -, rfl⟩ := drain_cases hs
    exact (OutOnly.drainMessage sys.server d.message).active hactive
  | trySend fd' writable =>
    obtain ⟨server, hserver, rfl⟩ := Option.map_eq_some_iff.mp hs
    exact (OutOnly.trySend hserver).active hactive
  | flush writable =>
    obtain ⟨server, hserver, rfl⟩ := Option.map_eq_some_iff.mp hs
    exact (OutOnly.flushPendingWrites hserver).active hactive
  | write fd' writable =>
    obtain ⟨server, hserver, rfl⟩ := Option.map_eq_some_iff.mp hs
    exact (OutOnly.handleWrite hserver).active hactive
  | disconnect fd' =>
    obtain ⟨client, hc, -, rfl⟩ := disconnect_cases hs
    exact (OutOnly.disconnectClient hc).active hactive
  | process times =>
    obtain ⟨q, inbound, session, -, -, -, rfl⟩ := process_cases hs
    exact hactive
  | push =>
    obtain ⟨d, outbox, -, rfl⟩ := push_cases hs
    exact hactive

theorem closed_of_step (hs : sys.step e = some sys') (he : e.accepts fd = false)
    (hclosed : (sys.server.client fd).active = false) :
    (sys'.server.client fd).active = false := by
  rw [Bool.eq_false_iff]
  intro hactive
  exact absurd ((active_of_step hs he hactive).symm.trans hclosed) (by simp)

/-- The number of a connection is that of its accept. -/
theorem connOf_step (hs : sys.step e = some sys') (he : e.accepts fd = false) :
    sys'.connOf fd = sys.connOf fd := by
  cases System.steps hs with
  | accept _ => exact Function.update_of_ne (Ne.symm (of_decide_eq_false he)) _ _
  | read _ => rfl
  | drain _ => rfl
  | server _ _ => rfl
  | process _ _ _ => rfl
  | push _ => rfl

/-- What is added to a write buffer is logged under the connection of its descriptor. -/
theorem appended_step (hs : sys.step e = some sys') {a : Appended} (ha : a ∈ sys'.appended) :
    a ∈ sys.appended ∨ a.conn = sys.connOf a.fd := by
  cases System.steps hs with
  | drain _ =>
    rcases List.mem_append.mp ha with ha | ha
    · exact Or.inl ha
    · split at ha
      · rw [List.mem_singleton.mp ha]
        exact Or.inr rfl
      · exact absurd ha List.not_mem_nil
  | accept _ => exact Or.inl ha
  | read _ => exact Or.inl ha
  | server _ _ => exact Or.inl ha
  | process _ _ _ => exact Or.inl ha
  | push _ => exact Or.inl ha

/-- What a step pushes was read from a connection that was open. -/
theorem mem_pushes (hs : sys.step e = some sys') {q : Incoming} (hq : q ∈ sys.pushes e) :
    (sys.server.client q.message.fd).active = true ∧ q.conn = sys.connOf q.message.fd := by
  cases e with
  | read fd' arrivals room =>
    obtain ⟨⟨server, messages⟩, hserver, -⟩ := Option.map_eq_some_iff.mp hs
    have hfds := (ExchangeServer.handleRead_spec hserver).1
    obtain ⟨rfl, -, -, hidle⟩ := handleRead_slot hserver
    obtain ⟨m, hm, rfl⟩ := List.mem_map.mp hq
    simp only [hfds m hm, and_true]
    by_contra hclosed
    rw [(hidle (Bool.eq_false_iff.mpr hclosed)).2] at hm
    exact absurd hm List.not_mem_nil
  | _ => exact absurd hq List.not_mem_nil

/-- What the processor pushes is on its way, and stays so until it is added to a write
buffer, unless it is for a connection that is closed. -/
theorem flow_step (hs : sys.step e = some sys') (hinv : sys.session.processor.book.Inv) :
    ∃ ms, sys'.session.pushed = sys.session.pushed ++ ms ∧
      (∀ fd, (sys.server.client fd).active = true → sys'.flow.filter (fun m => m.fd = fd)
        = sys.flow.filter (fun m => m.fd = fd) ++ ms.filter fun m => m.fd = fd) ∧
      ∀ m ∈ sys'.flow, m ∈ sys.flow ∨ m ∈ ms := by
  -- steps that do not touch it
  have hsame : sys'.flow = sys.flow → sys'.session = sys.session →
      ∃ ms, sys'.session.pushed = sys.session.pushed ++ ms ∧
        (∀ fd, (sys.server.client fd).active = true → sys'.flow.filter (fun m => m.fd = fd)
          = sys.flow.filter (fun m => m.fd = fd) ++ ms.filter fun m => m.fd = fd) ∧
        ∀ m ∈ sys'.flow, m ∈ sys.flow ∨ m ∈ ms := by
    intro hflow hsession
    refine ⟨[], by rw [hsession, List.append_nil], fun fd _ => ?_, fun m hm => Or.inl ?_⟩
    · rw [hflow, List.filter_nil, List.append_nil]
    · rw [← hflow]
      exact hm
  cases System.steps hs with
  | accept _ => exact hsame rfl rfl
  | read _ => exact hsame rfl rfl
  | server _ _ => exact hsame rfl rfl
  | @push d outbox hd =>
    refine hsame ?_ rfl
    rw [flow, flow, hd, List.append_assoc, List.singleton_append]
  | @process times q inbound session hout hin hp =>
    obtain ⟨ms, hpushed, -⟩ := pushed_step hinv hp
    have hflow : ({ sys with
        inbound
        session
        outbox := tagged (session.pushed.drop sys.session.pushed.length)
          (sys.origins ⟨times, q.message⟩ q.conn)
        submittedOn := sys.submit ⟨times, q.message⟩ q.conn
        processed := sys.processed ++ [⟨times, q.message⟩] } : System).flow = sys.flow ++ ms := by
      rw [flow, flow, hout, hpushed, List.drop_left, List.map_append, List.map_append,
        Ordered.map_message_tagged, List.map_nil, List.append_nil, List.append_assoc]
    refine ⟨ms, hpushed, fun fd _ => ?_, fun m hm => ?_⟩
    · rw [hflow, List.filter_append]
    · rw [hflow] at hm
      exact List.mem_append.mp hm
  | @drain d outbound hd =>
    have hbefore : sys.flow = sys.appended.map Appended.message
        ++ d.message :: (outbound ++ sys.outbox).map Outgoing.message := by
      rw [flow, hd]
      rfl
    by_cases hdel : sys.server.delivers d.message = true
    · refine hsame ?_ rfl
      rw [hbefore, flow, if_pos hdel, List.map_append, List.append_assoc]
      rfl
    · -- a message that is dropped is for a connection that is closed
      refine ⟨[], (List.append_nil _).symm, fun fd hactive => ?_, fun m hm => Or.inl ?_⟩
      · have hne : d.message.fd ≠ fd := by
          rintro rfl
          rw [ExchangeServer.delivers, ExchangeServer.getElem?_of_active hactive] at hdel
          exact hdel hactive
        rw [hbefore, flow, if_neg hdel]
        simp [hne]
      · rw [hbefore]
        rw [flow, if_neg hdel, List.append_nil] at hm
        rcases List.mem_append.mp hm with hm | hm
        · exact List.mem_append_left _ hm
        · exact List.mem_append_right _ (List.mem_cons_of_mem _ hm)

/-! ### The invariant -/

/-- The descriptor has not been handed out: nothing has come from it, and nothing is for
it. -/
structure Unknown (fd : Fd) (sys : System) : Prop where
  closed : (sys.server.client fd).active = false
  requests : ∀ m ∈ sys.requests, m.fd ≠ fd
  session : ¬ sys.session.Addresses fd
  flow : ∀ m ∈ sys.flow, m.fd ≠ fd

/-- The descriptor has been handed out once and is open: what the processor has pushed for it
is all there, and the requests of the descriptor are those of its connection. -/
structure Attended (fd : Fd) (log : List Incoming) (sys : System) : Prop where
  logged : ∀ a ∈ sys.appended, a.fd = fd → a.conn = sys.connOf fd
  flow : sys.flow.filter (fun m => m.fd = fd) = sys.session.pushed.filter fun m => m.fd = fd
  own : ∀ q ∈ log, q.message.fd = fd ↔ q.conn = sys.connOf fd

section Invariant

variable {bytes : Conn → List UInt8} {log : List Incoming}

/-- The descriptor is handed out for the first time. -/
theorem Unknown.accept (h : sys.Unknown fd) (hheard : sys.Heard bytes log)
    (hs : sys.step (.accept fd) = some sys') :
    sys'.Attended fd (log ++ sys.pushes (.accept fd)) := by
  obtain ⟨server, hserver, rfl⟩ := Option.map_eq_some_iff.mp hs
  constructor
  · intro a ha hfd
    have hmem : a.message ∈ sys.flow := List.mem_append_left _ (List.mem_map_of_mem ha)
    exact absurd hfd (h.flow a.message hmem)
  · have hflow : sys.flow.filter (fun m => m.fd = fd) = [] := by
      rw [List.filter_eq_nil_iff]
      exact fun m hm heq => h.flow m hm (of_decide_eq_true heq)
    have hpushed : sys.session.pushed.filter (fun m => m.fd = fd) = [] := by
      rw [List.filter_eq_nil_iff]
      exact fun m hm heq => h.session (Or.inr ⟨m, hm, of_decide_eq_true heq⟩)
    exact hflow.trans hpushed.symm
  · intro q hq
    have hq : q ∈ log := (List.mem_append.mp hq).resolve_right List.not_mem_nil
    have hmem : q.message ∈ sys.requests := by
      rw [hheard.logged]
      exact List.mem_map_of_mem hq
    refine iff_of_false (h.requests _ hmem) fun hconn => ?_
    have hnum : q.conn = sys.numConns := hconn.trans (Function.update_self ..)
    exact absurd (hheard.conn_lt hq) (Nat.not_lt_of_le (Nat.le_of_eq hnum.symm))

/-- The descriptor is not handed out. -/
theorem Unknown.step (h : sys.Unknown fd) (hheard : sys.Heard bytes log)
    (hinv : sys.session.processor.book.Inv) (hzero : fd ≠ 0) (hs : sys.step e = some sys')
    (he : e.accepts fd = false) : sys'.Unknown fd := by
  have hrequests : ∀ m ∈ sys'.requests, m.fd ≠ fd := by
    rw [(hheard.step hs).logged, List.map_append, ← hheard.logged]
    intro m hm
    rcases List.mem_append.mp hm with hm | hm
    · exact h.requests m hm
    · obtain ⟨q, hq, rfl⟩ := List.mem_map.mp hm
      rintro rfl
      exact absurd ((mem_pushes hs hq).1.symm.trans h.closed) (by simp)
  have hsession : ¬ sys'.session.Addresses fd := by
    cases System.steps hs with
    | @process times q inbound session hout hin hp =>
      intro haddr
      have hmem : q.message ∈ sys.requests := by
        rw [System.requests, hin]
        exact List.mem_append_right _ List.mem_cons_self
      rcases Session.addresses_step hinv hp haddr with hfd | hfd | hold
      · exact hzero hfd
      · exact h.requests _ hmem hfd.symm
      · exact h.session hold
    | accept _ => exact h.session
    | read _ => exact h.session
    | drain _ => exact h.session
    | server _ _ => exact h.session
    | push _ => exact h.session
  refine ⟨closed_of_step hs he h.closed, hrequests, hsession, fun m hm heq => ?_⟩
  · obtain ⟨ms, hpushed, -, hflow⟩ := flow_step hs hinv
    rcases hflow m hm with hm | hm
    · exact h.flow m hm heq
    · refine hsession (Or.inr ⟨m, ?_, heq⟩)
      rw [hpushed]
      exact List.mem_append_right _ hm

/-- The descriptor is open. -/
theorem Attended.step (h : sys.Attended fd log) (hheard : sys.Heard bytes log)
    (hinv : sys.session.processor.book.Inv) (hactive : (sys.server.client fd).active = true)
    (hs : sys.step e = some sys') (he : e.accepts fd = false) :
    sys'.Attended fd (log ++ sys.pushes e) := by
  have hconn := connOf_step hs he
  refine ⟨fun a ha hfd => ?_, ?_, fun q hq => ?_⟩
  · rw [hconn]
    rcases appended_step hs ha with ha | ha
    · exact h.logged a ha hfd
    · rw [ha, hfd]
  · obtain ⟨ms, hpushed, hflow, -⟩ := flow_step hs hinv
    rw [hflow fd hactive, h.flow, hpushed, List.filter_append]
  · rw [hconn]
    rcases List.mem_append.mp hq with hq | hq
    · exact h.own q hq
    · obtain ⟨hopen, hnum⟩ := mem_pushes hs hq
      rw [hnum]
      exact ⟨congrArg sys.connOf, hheard.distinct _ _ hopen hactive⟩

/-- A descriptor that is handed out at most once, in a run of which `es` is still to come. -/
inductive Once (fd : Fd) (log : List Incoming) (sys : System) (es : List Event) : Prop
  | unknown (h : sys.Unknown fd) (hleft : es.countP (Event.accepts fd) ≤ 1)
  | attended (h : sys.Attended fd log) (hleft : es.countP (Event.accepts fd) = 0)
  | closed (h : (sys.server.client fd).active = false)
      (hleft : es.countP (Event.accepts fd) = 0)

theorem not_accepts {es : List Event} (h : (e :: es).countP (Event.accepts fd) = 0) :
    e.accepts fd = false ∧ es.countP (Event.accepts fd) = 0 := by
  rw [List.countP_eq_zero] at h
  refine ⟨Bool.eq_false_iff.mpr (h e List.mem_cons_self), ?_⟩
  exact List.countP_eq_zero.mpr fun e' he' => h e' (List.mem_cons_of_mem e he')

/-- **A step keeps the invariant.** -/
theorem Once.step {es : List Event} (h : sys.Once fd log (e :: es)) (hheard : sys.Heard bytes log)
    (hinv : sys.session.processor.book.Inv) (hzero : fd ≠ 0) (hs : sys.step e = some sys') :
    sys'.Once fd (log ++ sys.pushes e) es := by
  cases h with
  | unknown h hleft =>
    rw [List.countP_cons] at hleft
    cases he : e.accepts fd with
    | false => exact .unknown (h.step hheard hinv hzero hs he) (by omega)
    | true =>
      rw [he, if_pos rfl] at hleft
      cases e with
      | accept fd' =>
        obtain rfl : fd' = fd := of_decide_eq_true he
        exact .attended (h.accept hheard hs) (by omega)
      | _ => exact absurd he Bool.false_ne_true
  | attended h hleft =>
    obtain ⟨he, hleft⟩ := not_accepts hleft
    cases hactive : (sys.server.client fd).active with
    | true => exact .attended (h.step hheard hinv hactive hs he) hleft
    | false => exact .closed (closed_of_step hs he hactive) hleft
  | closed h hleft =>
    obtain ⟨he, hleft⟩ := not_accepts hleft
    exact .closed (closed_of_step hs he h) hleft

theorem unknown_start (reserved : Fd → Bool) (fd : Fd) : (start reserved).Unknown fd where
  closed := closed_start reserved fd
  requests := fun _ hm => absurd hm List.not_mem_nil
  session := by
    rintro (⟨id, hroute⟩ | ⟨m, hm, -⟩)
    · exact absurd hroute (by simp [start, Session.empty, Processor.empty])
    · exact absurd hm List.not_mem_nil
  flow := fun _ hm => absurd hm List.not_mem_nil

/-- **A run keeps the invariant.** -/
theorem Once.run {reserved : Fd → Bool} {events : List Event}
    (hrun : System.run reserved events = some sys) (hzero : fd ≠ 0)
    (hfirst : events.countP (Event.accepts fd) ≤ 1) :
    sys.Once fd (incoming (start reserved) events) [] := by
  have hend := foldlM_some_invariant (P := fun es t => ∃ bytes log, t.Heard bytes log ∧
    log ++ incoming t es = incoming (start reserved) events ∧ t.session.processor.book.Inv ∧
      t.Once fd log es) ?_ events _
    ⟨_, [], Heard.heard_start reserved, rfl, OrderBook.inv_empty,
      .unknown (unknown_start reserved fd) hfirst⟩ hrun
  · obtain ⟨bytes, log, -, hlog, -, honce⟩ := hend
    rw [incoming, List.append_nil] at hlog
    rw [← hlog]
    exact honce
  · rintro e es t t' ⟨bytes, log, hheard, hlog, hinv, honce⟩ hs -
    rw [incoming, hs, ← List.append_assoc] at hlog
    refine ⟨_, _, hheard.step hs, hlog, ?_, honce.step hheard hinv hzero hs⟩
    cases System.steps hs with
    | process _ _ hp => exact Session.inv_step hinv hp
    | accept _ => exact hinv
    | read _ => exact hinv
    | drain _ => exact hinv
    | server _ _ => exact hinv
    | push _ => exact hinv

/-- The requests of a descriptor are those of its connection. -/
theorem Attended.requests (h : sys.Attended fd log) (hheard : sys.Heard bytes log) :
    sys.requests.filter (fun m => m.fd = fd) = fromConn (sys.connOf fd) log := by
  rw [hheard.logged, fromConn, List.filter_map]
  congr 1
  apply List.filter_congr
  intro q hq
  exact decide_eq_decide.mpr (h.own q hq)

/-- The requests of a descriptor that have been processed are the first frames received. -/
theorem Attended.processed (h : sys.Attended fd log) (hheard : sys.Heard bytes log)
    (hactive : (sys.server.client fd).active = true) :
    (sys.processed.map Input.message).filter (fun m => m.fd = fd)
      <+: messagesOf fd (splitFrames (bytes (sys.connOf fd))).1 := by
  -- the last frame may still be kept
  have hpart : sys.requests.filter (fun m => m.fd = fd)
      <+: messagesOf fd (splitFrames (bytes (sys.connOf fd))).1 := by
    rw [h.requests hheard]
    rcases (hheard.synced fd hactive).exact with hall | ⟨-, hkept⟩
    · exact ⟨[], (List.append_nil _).trans hall⟩
    · rw [← hkept]
      exact List.prefix_append _ _
  refine List.IsPrefix.trans ?_ hpart
  rw [System.requests, List.filter_append]
  exact List.prefix_append _ _

/-- What has been sent, what is in the write buffer and what is on its way are, one after
another, what the processor has pushed for the descriptor. -/
theorem Attended.stream (h : sys.Attended fd log) (hout : sys.OutInv)
    (hactive : (sys.server.client fd).active = true) :
    sys.server.wire fd ++ (sys.server.unsent fd ++ sys.inFlight fd)
      = ((sys.session.pushed.filter fun m => m.fd = fd).map OutboundMessage.payload).flatten := by
  have hdrained : sys.drainedFor fd = (((sys.appended.map Appended.message).filter
      fun m => m.fd = fd).map OutboundMessage.payload).flatten := by
    rw [drainedFor, List.filter_map, List.map_map]
    congr 2
    apply List.filter_congr
    intro a ha
    refine decide_eq_decide.mpr ⟨And.left, fun hfd => ⟨hfd, h.logged a ha hfd⟩⟩
  have hexact := hout.exact fd hactive
  rw [ExchangeServer.outStream] at hexact
  rw [← List.append_assoc, hexact, hdrained, inFlight, ← h.flow, System.flow,
    List.filter_append, ← List.flatten_append, ← List.map_append]

end Invariant

/-- An open connection that is the first to have its descriptor. -/
theorem attended_of_run {reserved : Fd → Bool} {events : List Event}
    (hrun : System.run reserved events = some sys) (hzero : fd ≠ 0)
    (hactive : (sys.server.client fd).active = true)
    (hfirst : events.countP (Event.accepts fd) ≤ 1) :
    sys.Attended fd (incoming (start reserved) events) := by
  cases Once.run hrun hzero hfirst with
  | attended h _ => exact h
  | unknown h _ => exact absurd (h.closed.symm.trans hactive) Bool.false_ne_true
  | closed h _ => exact absurd (h.symm.trans hactive) Bool.false_ne_true

end System

/-- **One history for all connections.**  In every run of the exchange, however the steps of
its threads follow each other, the processor has done the requests it has processed one after
another, and this history is only ever added to.  Whatever else is accepted and closed, for
every open connection that is the first to have its descriptor, other than 0: the requests that
the history has of it are the first frames of the bytes received on it, in the order in which
they were sent; and the bytes that the kernel has taken for it, those still to be sent and those
on their way to it are, one after another, what the sequential exchange pushes for it.
(Messages without a route are pushed for the descriptor 0.) -/
theorem one_history {reserved : Fd → Bool} {events : List Event} {sys : System}
    (hrun : System.run reserved events = some sys) :
    Session.empty.run (fun _ => 0) sys.processed = .ok sys.session ∧
      (∀ es sys₁, es <+: events → System.run reserved es = some sys₁ →
        sys₁.processed <+: sys.processed) ∧
      ∀ fd, fd ≠ 0 → (sys.server.client fd).active = true →
        events.countP (Event.accepts fd) ≤ 1 →
        (sys.processed.map Input.message).filter (fun m => m.fd = fd) <+: messagesOf fd
          (splitFrames (System.receivedOn (sys.connOf fd) (.start reserved) events)).1 ∧
        sys.server.wire fd ++ (sys.server.unsent fd ++ sys.inFlight fd)
          = ((sys.session.pushed.filter fun m => m.fd = fd).map
            OutboundMessage.payload).flatten := by
  refine ⟨System.session_of_run hrun, ?_, ?_⟩
  · rintro es sys₁ ⟨rest, rfl⟩ hfirst
    rw [System.run, List.foldlM_append, ← System.run, hfirst] at hrun
    exact processed_prefix_run hrun
  · intro fd hzero hactive hfirst
    have hattended := System.attended_of_run hrun hzero hactive hfirst
    exact ⟨hattended.processed (System.Heard.run hrun) hactive,
      hattended.stream (System.OutInv.run hrun) hactive⟩

/-- A bid meets an ask of another connection, which is closed before it is told. -/
def historyEvents : List Event :=
  [.accept 5, .accept 6,
    .read 5 [.chunk 1 [0, 0, 0, 22, 7, 0, 0, 0, 0, 0, 0, 0, 100, 0, 0, 0, 0, 0, 0, 0, 10, 0, 0, 0,
      1, 0]] (fun _ => true),
    .read 6 [.chunk 1 [0, 0, 0, 22, 8, 0, 0, 0, 0, 0, 0, 0, 100, 0, 0, 0, 0, 0, 0, 0, 4, 0, 0, 0,
      0, 0]] (fun _ => true),
    .process ⟨0, fun _ => 0⟩, .push, .process ⟨0, fun _ => 0⟩, .push, .drain, .trySend 5 (.room 9),
    .disconnect 6, .push, .drain, .drain]

theorem one_history_crossing :
    ∃ sys, System.run (fun fd => fd < 5) historyEvents = some sys ∧
      (sys.server.wire 5).length = 10 ∧ sys.processed.length = 2 ∧
      sys.server.wire 5 ++ (sys.server.unsent 5 ++ sys.inFlight 5)
        = ((sys.session.pushed.filter fun m => m.fd = 5).map OutboundMessage.payload).flatten := by
  have heval : (System.run (fun fd => fd < 5) historyEvents).map
      (fun sys => ((sys.server.wire 5).length, sys.processed.length,
        (sys.server.client 5).active)) = some (10, 2, true) := by decide +kernel
  obtain ⟨sys, hrun, hsys⟩ := Option.map_eq_some_iff.mp heval
  obtain ⟨hwire, hsys⟩ := Prod.mk.inj hsys
  obtain ⟨hdone, hactive⟩ := Prod.mk.inj hsys
  obtain ⟨-, -, hconn⟩ := one_history hrun
  exact ⟨sys, hrun, hwire, hdone, (hconn 5 (by decide) hactive (by decide)).2⟩

/-- Two orders are processed in this run, with distinct ids and with known sides and types. -/
theorem run_historyEvents :
    ∃ sys, System.run (fun fd => fd < 5) historyEvents = some sys ∧
      (sys.server.client 5).active = true ∧
      sys.processed.map (fun i => (i.message.fd, i.message.type, i.accepted))
        = [(5, .NEW_ORDER, some ⟨0, 7, 100, 10, .ASK, .LIMIT⟩),
          (6, .NEW_ORDER, some ⟨0, 8, 100, 4, .BID, .LIMIT⟩)] ∧
      (acceptedIds sys.processed).Nodup ∧
      ∀ j ∈ sys.processed, ∀ order, j.accepted = some order → order.Proper := by
  have heval : (System.run (fun fd => fd < 5) historyEvents).map (fun sys =>
      ((sys.server.client 5).active,
        sys.processed.map fun i => (i.message.fd, i.message.type, i.accepted)))
      = some (true, [(5, .NEW_ORDER, some ⟨0, 7, 100, 10, .ASK, .LIMIT⟩),
        (6, .NEW_ORDER, some ⟨0, 8, 100, 4, .BID, .LIMIT⟩)]) := by decide +kernel
  obtain ⟨sys, hrun, hsys⟩ := Option.map_eq_some_iff.mp heval
  obtain ⟨hactive, hprocessed⟩ := Prod.mk.inj hsys
  refine ⟨sys, hrun, hactive, hprocessed, ?_, fun j hj order ho => ?_⟩
  · have hids := congrArg (List.filterMap fun x => x.2.2.map Order.id) hprocessed
    rw [List.filterMap_map] at hids
    rw [show acceptedIds sys.processed = [7, 8] from hids]
    decide
  · have hmem := List.mem_map_of_mem (f := fun i : Input =>
      (i.message.fd, i.message.type, i.accepted)) hj
    rw [hprocessed, ho] at hmem
    simp only [List.mem_cons, Prod.mk.injEq, Option.some.injEq, List.not_mem_nil, or_false] at hmem
    rcases hmem with ⟨-, -, rfl⟩ | ⟨-, -, rfl⟩
    · decide
    · decide

end Exchange
