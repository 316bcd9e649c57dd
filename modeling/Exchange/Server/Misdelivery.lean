import Exchange.Server.Clients
import Exchange.Server.Reuse

/-!
# Traces that lead astray

A descriptor that is handed out while there are traces of it need not do harm at once.  But
the traces are those of an earlier connection, and sooner or later they can bring a reply
or a notice of that connection to the new one: there is a way to go on, without any other
connection being accepted and with distinct ids, in which they do.

What is in the rings is simply worked off.  A route does harm when the order trades: the new
connection cancels what stands in front of the order, and then trades with it.

## Main definitions

* `System.Leftover` — something left over from another connection names a descriptor.
* `System.Misdelivers` — some way to go on gives a connection what is not its own.

## Main results

* `System.Numbered.step` — whatever names a connection names one that has been accepted.
* `System.Leftover.process` — a request that is processed does not do away with what is
  left over.
* `System.Leftover.misdelivers` — what is left over is delivered to the connection that has
  the descriptor.
* `used_accept_misdelivers` — an accept that breaks the condition of `own_traffic`.
-/

namespace Exchange

open Bytes MatchingEngine

namespace System

/-! ### The numbers of connections -/

/-- Whatever names a connection names one that has been accepted. -/
structure Numbered (sys : System) : Prop where
  inbound : ∀ q ∈ sys.inbound, q.conn < sys.numConns
  outgoing : ∀ d ∈ sys.outbox ++ sys.outbound, ∀ conn, d.origin = some conn → conn < sys.numConns
  submitted : ∀ id conn, sys.submittedOn id = some conn → conn < sys.numConns

/-- An outgoing message belongs to a connection that is listed, or to none. -/
theorem origin_of_mem_tagged {ms : List OutboundMessage} {os : List (Option Conn)} {d : Outgoing}
    (h : d ∈ tagged ms os) : d.origin = none ∨ d.origin ∈ os := by
  induction ms generalizing os with
  | nil => exact absurd h List.not_mem_nil
  | cons m ms ih =>
    cases os with
    | nil =>
      rcases List.mem_cons.mp h with rfl | h
      · exact Or.inl rfl
      · exact ih h
    | cons o os =>
      rcases List.mem_cons.mp h with rfl | h
      · exact Or.inr List.mem_cons_self
      · exact (ih h).imp id (List.mem_cons_of_mem o)

theorem numbered_start (reserved : Fd → Bool) : (start reserved).Numbered where
  inbound := fun _ hq => absurd hq List.not_mem_nil
  outgoing := fun _ hd => absurd hd List.not_mem_nil
  submitted := fun _ _ h => absurd h (by simp [start])

/-- The connections of the messages of a request and of its order. -/
theorem Numbered.process {sys : System} (h : sys.Numbered) {i : Input} {conn : Conn}
    (hconn : conn < sys.numConns) :
    (∀ c, some c ∈ sys.origins i conn → c < sys.numConns) ∧
      ∀ id c, sys.submit i conn id = some c → c < sys.numConns := by
  cases hacc : i.accepted with
  | none =>
    rw [origins, submit, hacc]
    refine ⟨fun c hc => ?_, h.submitted⟩
    rw [Option.some.inj (List.mem_singleton.mp hc)]
    exact hconn
  | some order =>
    rw [origins, submit, hacc]
    refine ⟨fun c hc => ?_, fun id c hc => ?_⟩
    · rcases List.mem_append.mp hc with hc | hc
      · obtain ⟨t, -, ht⟩ := List.mem_map.mp hc
        exact h.submitted _ c ht
      · rw [Option.some.inj (List.mem_singleton.mp hc)]
        exact hconn
    · by_cases hid : id = order.id
      · simp only [hid, Function.update_self, Option.some.injEq] at hc
        rw [← hc]
        exact hconn
      · simp only [Function.update_of_ne hid] at hc
        exact h.submitted id c hc

/-- **A step keeps the numbers.**  A connection that is read from has one. -/
theorem Numbered.step {sys sys' : System} {e : Event} (h : sys.Numbered)
    (hopen : ∀ fd, (sys.server.client fd).active = true → sys.connOf fd < sys.numConns)
    (hs : sys.step e = some sys') : sys'.Numbered := by
  cases System.steps hs with
  | accept _ =>
    exact ⟨fun q hq => Nat.lt_succ_of_lt (h.inbound q hq),
      fun d hd conn hc => Nat.lt_succ_of_lt (h.outgoing d hd conn hc),
      fun id conn hc => Nat.lt_succ_of_lt (h.submitted id conn hc)⟩
  | server _ _ => exact ⟨h.inbound, h.outgoing, h.submitted⟩
  | @read fd arrivals room server messages hread =>
    refine ⟨fun q hq => ?_, h.outgoing, h.submitted⟩
    rcases List.mem_append.mp hq with hq | hq
    · exact h.inbound q hq
    · obtain ⟨m, hm, rfl⟩ := List.mem_map.mp hq
      obtain ⟨rfl, -, -, hidle⟩ := handleRead_slot hread
      -- nothing is read from a slot that is closed
      cases hactive : (sys.server.client fd).active with
      | true => exact hopen fd hactive
      | false =>
        rw [(hidle hactive).2] at hm
        exact absurd hm List.not_mem_nil
  | push hd =>
    refine ⟨h.inbound, fun d' hd' => h.outgoing d' ?_, h.submitted⟩
    rw [hd]
    simp only [List.mem_append, List.mem_cons, List.not_mem_nil] at hd' ⊢
    tauto
  | drain hd =>
    refine ⟨h.inbound, fun d' hd' => h.outgoing d' ?_, h.submitted⟩
    rw [hd]
    simp only [List.mem_append, List.mem_cons] at hd' ⊢
    tauto
  | @process times q inbound session hout hin hp =>
    have hq : q.conn < sys.numConns := h.inbound q (by rw [hin]; exact List.mem_cons_self)
    obtain ⟨horigins, hsubmit⟩ := h.process (i := ⟨times, q.message⟩) hq
    refine ⟨fun q' hq' => h.inbound q' (by rw [hin]; exact List.mem_cons_of_mem q hq'),
      fun d hd conn hc => ?_, hsubmit⟩
    rcases List.mem_append.mp hd with hd | hd
    · rcases origin_of_mem_tagged hd with hnone | hmem
      · rw [hc] at hnone
        exact absurd hnone (by simp)
      · exact horigins conn (hc ▸ hmem)
    · exact h.outgoing d (List.mem_append_right _ hd) conn hc

/-- In every state of every run the numbers are right. -/
theorem numbered_of_run {reserved : Fd → Bool} {events : List Event} {sys : System}
    (hrun : System.run reserved events = some sys) : sys.Numbered := by
  have hend : sys.Numbered ∧ ∃ bytes log, sys.Heard bytes log := by
    refine foldlM_some_invariant (P := fun _ (s : System) =>
      s.Numbered ∧ ∃ bytes log, s.Heard bytes log) ?_ events _
      ⟨numbered_start reserved, _, _, Heard.heard_start reserved⟩ hrun
    rintro e _ s s' ⟨hnum, bytes, log, hheard⟩ hs -
    exact ⟨hnum.step hheard.numbered hs, _, _, hheard.step hs⟩
  exact hend.1

/-! ### What is left over -/

/-- The requests that wait to be processed, at some time. -/
def pending (sys : System) (times : Times) : List Input :=
  sys.inbound.map fun q => ⟨times, q.message⟩

/-- An outgoing message that belongs to another connection, or to none, names a descriptor. -/
def Astray (sys : System) (fd : Fd) : Prop :=
  ∃ d ∈ sys.outbox ++ sys.outbound, d.message.fd = fd ∧ d.origin ≠ some (sys.connOf fd)

/-- Something left over from another connection names a descriptor: a request, an outgoing
message, or the route of a resting order that no waiting request cancels. -/
inductive Leftover (sys : System) (fd : Fd) : Prop
  | inbound {q : Incoming} (hq : q ∈ sys.inbound) (hfd : q.message.fd = fd)
      (hconn : q.conn ≠ sys.connOf fd)
  | outgoing (h : sys.Astray fd)
  | route (id : OrderId) (hrests : sys.session.processor.book.Rests id)
      (hroute : sys.session.processor.orderToClientFd id = some fd)
      (hsubmitted : sys.submittedOn id ≠ some (sys.connOf fd))
      (hkept : ∀ q ∈ sys.inbound, q.message.type = .CANCEL_ORDER →
        payloadId q.message.payload ≠ id)

/-- There is a way to go on to a state, without another connection being accepted. -/
def GoesTo (sys sys' : System) : Prop :=
  ∃ events : List Event, events.foldlM step sys = some sys' ∧ ∀ fd, .accept fd ∉ events

theorem GoesTo.refl (sys : System) : sys.GoesTo sys := ⟨[], rfl, fun _ => List.not_mem_nil⟩

theorem GoesTo.trans {sys sys₁ sys' : System} (h : sys.GoesTo sys₁) (h' : sys₁.GoesTo sys') :
    sys.GoesTo sys' := by
  obtain ⟨events, hrun, hnone⟩ := h
  obtain ⟨rest, hrest, hnone'⟩ := h'
  refine ⟨events ++ rest, ?_, fun fd hmem => (List.mem_append.mp hmem).elim (hnone fd) (hnone' fd)⟩
  rw [List.foldlM_append, hrun]
  exact hrest

theorem GoesTo.step {sys sys' : System} {e : Event} (hs : sys.step e = some sys')
    (hne : ∀ fd, e ≠ .accept fd) : sys.GoesTo sys' := by
  refine ⟨[e], ?_, fun fd hmem => hne fd (List.mem_singleton.mp hmem).symm⟩
  rw [List.foldlM_cons, hs]
  rfl

/-- There is a way to go on, with distinct ids, in which the connection of a descriptor is
given what is not its own. -/
def Misdelivers (sys : System) (fd : Fd) : Prop :=
  ∃ sys', sys.GoesTo sys' ∧ (acceptedIds sys'.processed).Nodup ∧
    ∃ a ∈ sys'.appended, a.fd = fd ∧ a.conn = sys.connOf fd ∧ a.origin ≠ some a.conn

theorem GoesTo.misdelivers {sys sys₁ : System} {fd : Fd} (h : sys.GoesTo sys₁)
    (hconn : sys₁.connOf = sys.connOf) (hmis : sys₁.Misdelivers fd) : sys.Misdelivers fd := by
  obtain ⟨sys', hgoes, hids, a, ha, hfd, hac, horigin⟩ := hmis
  exact ⟨sys', h.trans hgoes, hids, a, ha, hfd, by rw [hac, hconn], horigin⟩

/-- The slot of a descriptor is open and is at the beginning of a frame. -/
structure AtFrame (sys : System) (fd : Fd) : Prop where
  active : (sys.server.client fd).active = true
  header : (sys.server.client fd).readPhase = .HEADER
  nothing : (sys.server.client fd).bytesRead = 0

/-! ### Draining -/

/-- Everything that was on its way out has been drained, and nothing else has happened: what
was for a descriptor that is open has been given to its connection. -/
structure Drained (sys : System) (fd : Fd) (sys' : System) : Prop where
  outbox : sys'.outbox = []
  outbound : sys'.outbound = []
  session : sys'.session = sys.session
  inbound : sys'.inbound = sys.inbound
  processed : sys'.processed = sys.processed
  connOf : sys'.connOf = sys.connOf
  submittedOn : sys'.submittedOn = sys.submittedOn
  atFrame : sys'.AtFrame fd
  log : sys.appended ⊆ sys'.appended
  given : ∀ d ∈ sys.outbox ++ sys.outbound, d.message.fd = fd →
    ∃ a ∈ sys'.appended, a.fd = fd ∧ a.conn = sys.connOf fd ∧ a.origin = d.origin

section Drain

variable {sys : System} {fd : Fd} {d : Outgoing} {outbound : List Outgoing}

theorem AtFrame.drainTo (h : sys.AtFrame fd) : (sys.drainTo d outbound).AtFrame fd := by
  have hclient := ExchangeServer.client_drainMessage sys.server d.message fd
  refine ⟨?_, ?_, ?_⟩ <;> rw [System.drainTo, hclient]
  · exact h.active
  · exact h.header
  · exact h.nothing

/-- A message is drained first. -/
theorem Drained.of_drain {sys' : System} (hd : sys.outbound = d :: outbound)
    (hopen : sys.AtFrame fd) (h : (sys.drainTo d outbound).Drained fd sys') :
    sys.Drained fd sys' := by
  obtain ⟨hbox, hout, hsession, hin, hproc, hconn, hsub, hat, hlog, hgiven⟩ := h
  refine ⟨hbox, hout, hsession, hin, hproc, hconn, hsub, hat,
    fun a ha => hlog (List.mem_append_left _ ha), fun d' hd' hfd => ?_⟩
  rw [hd] at hd'
  by_cases heq : d' = d
  · subst heq
    -- the slot is open, so that the message is added to its write buffer
    have hdelivers : sys.server.delivers d'.message = true := by
      rw [ExchangeServer.delivers, hfd, ExchangeServer.getElem?_of_active hopen.active]
      exact hopen.active
    refine ⟨⟨d'.message.fd, sys.connOf d'.message.fd, d'.origin, d'.message.payload⟩, hlog ?_, hfd,
      congrArg sys.connOf hfd, rfl⟩
    rw [System.drainTo, if_pos hdelivers]
    exact List.mem_append_right _ (List.mem_singleton_self _)
  · refine hgiven d' ?_ hfd
    show d' ∈ sys.outbox ++ outbound
    simp only [List.mem_append, List.mem_cons] at hd' ⊢
    tauto

end Drain

/-- **Everything on its way out can be drained**, in rounds of the two threads that leave
room in the ring. -/
theorem exists_drained {fd : Fd} (n : ℕ) : ∀ {sys : System}, sys.AtFrame fd →
    2 * sys.outbox.length + sys.outbound.length = n →
    ∃ sys', sys.GoesTo sys' ∧ sys.Drained fd sys' := by
  -- a message in the outbox takes two steps, one to push it and one to drain it
  induction n using Nat.strong_induction_on with
  | _ n ih =>
    intro sys hopen hn
    cases hout : sys.outbound with
    | cons d outbound =>
      rw [hout, List.length_cons] at hn
      have hopen' : (sys.drainTo d outbound).AtFrame fd := hopen.drainTo
      obtain ⟨sys', hgoes, hend⟩ :=
        ih (2 * sys.outbox.length + outbound.length) (by omega) hopen' rfl
      exact ⟨sys', (GoesTo.step (step_drain hout) (by simp)).trans hgoes, hend.of_drain hout hopen⟩
    | nil =>
      cases hbox : sys.outbox with
      | nil =>
        refine ⟨sys, .refl sys, hbox, hout, rfl, rfl, rfl, rfl, rfl, hopen, List.Subset.refl _,
          fun d hd => ?_⟩
        rw [hbox, hout] at hd
        exact absurd hd List.not_mem_nil
      | cons d outbox =>
        have hstep := step_push hbox
        rw [hbox, hout, List.length_cons, List.length_nil] at hn
        have hopen' : AtFrame { sys with outbox, outbound := sys.outbound ++ [d] } fd :=
          ⟨hopen.active, hopen.header, hopen.nothing⟩
        obtain ⟨sys', hgoes, hend⟩ :=
          ih (2 * outbox.length + 1) (by omega) hopen' (by rw [hout]; rfl)
        refine ⟨sys', (GoesTo.step hstep (by simp)).trans hgoes, hend.outbox, hend.outbound,
          hend.session, hend.inbound, hend.processed, hend.connOf, hend.submittedOn,
          hend.atFrame, hend.log, fun d' hd' => hend.given d' ?_⟩
        rw [hbox] at hd'
        simp only [List.mem_append, List.mem_cons, List.not_mem_nil] at hd' ⊢
        tauto

/-! ### Processing -/

section Process

variable {sys : System} {fd : Fd} {i : Input} {conn : Conn} {inbound : List Incoming}
  {session : Session}

/-- The notice of a trade with an order that is routed to a descriptor. -/
theorem astray_of_trade {order : Order} (hrouted : Routed sys.processed sys.session)
    (hsub : sys.session.Submits i order session) (hnew : order.id ∉ acceptedIds sys.processed)
    {t : Trade} (ht : t ∈ tradesOf sys.session.processor.book i)
    (hroute : sys.session.processor.orderToClientFd (t.counterparty order.side) = some fd)
    (hsubmitted : sys.submittedOn (t.counterparty order.side) ≠ some (sys.connOf fd)) :
    (sys.processedTo i conn inbound session).Astray fd := by
  obtain ⟨reply, heq⟩ := tagged_of_submits hsub conn
  have hne : t.counterparty order.side ≠ order.id := by
    intro hsame
    have hrests := rests_counterparty hsub.accepted ht
    rw [hsame] at hrests
    exact hrouted.not_rests hnew hrests
  refine ⟨⟨⟨(Function.update sys.session.processor.orderToClientFd order.id
    (some i.message.fd) (t.counterparty order.side)).getD 0, (tradeFrame t).bytes⟩,
    sys.submittedOn (t.counterparty order.side)⟩, List.mem_append_left _ ?_, ?_, hsubmitted⟩
  · show _ ∈ tagged _ _
    rw [heq]
    exact List.mem_append_left _ (List.mem_map.mpr ⟨t, ht, rfl⟩)
  · simp only [Function.update_of_ne hne, hroute, Option.getD_some]

/-- The reply to a request names the descriptor that the request came from. -/
theorem astray_of_request (hinv : sys.session.processor.book.Inv)
    (hs : sys.session.step (fun _ => 0) i = .ok session) (hfd : i.message.fd = fd)
    (hconn : conn ≠ sys.connOf fd) : (sys.processedTo i conn inbound session).Astray fd := by
  have hreply : ∃ reply, (⟨⟨i.message.fd, reply⟩, some conn⟩ : Outgoing)
      ∈ tagged (session.pushed.drop sys.session.pushed.length) (sys.origins i conn) := by
    obtain ⟨s', hs', -, ⟨order, hsub⟩ | ⟨hacc, -⟩ | ⟨loc, n, hacc, -⟩⟩ :=
      step_cases (fun _ => 0) hinv (wellFormed_of_step hs)
    · obtain rfl := Except.ok.inj (hs.symm.trans hs')
      obtain ⟨reply, heq⟩ := tagged_of_submits hsub conn
      exact ⟨reply, heq ▸ List.mem_append_right _ (List.mem_singleton_self _)⟩
    all_goals
      obtain ⟨reply, heq⟩ := tagged_of_none hs hacc conn
      exact ⟨reply, heq ▸ List.mem_singleton_self _⟩
  obtain ⟨reply, hmem⟩ := hreply
  exact ⟨_, List.mem_append_left _ hmem, hfd, fun heq => hconn (Option.some.inj heq)⟩

/-- An order that rests keeps resting with its route, or trades, unless it is cancelled. -/
theorem leftover_of_route {id : OrderId} (hrouted : Routed sys.processed sys.session)
    (hs : sys.session.step (fun _ => 0) i = .ok session)
    (hnew : ∀ order, i.accepted = some order → order.id ∉ acceptedIds sys.processed)
    (hrests : sys.session.processor.book.Rests id)
    (hroute : sys.session.processor.orderToClientFd id = some fd)
    (hsubmitted : sys.submittedOn id ≠ some (sys.connOf fd))
    (hthis : i.message.type = .CANCEL_ORDER → payloadId i.message.payload ≠ id)
    (hkept : ∀ q ∈ inbound, q.message.type = .CANCEL_ORDER → payloadId q.message.payload ≠ id) :
    (sys.processedTo i conn inbound session).Leftover fd := by
  obtain ⟨s', hs', -, ⟨order, hsub⟩ | ⟨hacc, hsame, -⟩ |
    ⟨loc, n, hacc, htype, -, -, hid, hrem, hroutes⟩⟩ :=
    step_cases (fun _ => 0) hrouted.inv (wellFormed_of_step hs)
  all_goals obtain rfl := Except.ok.inj (hs.symm.trans hs')
  · -- an order comes in, and the resting order keeps resting or trades with it
    have hne : id ≠ order.id := by
      rintro rfl
      exact hrouted.not_rests (hnew order hsub.accepted) hrests
    rcases rests_or_trades hrouted.inv hsub.accepted hsub.constructed hrests with
      hstill | ⟨t, ht, rfl⟩
    · refine .route id ?_ ?_ ?_ hkept
      · show session.processor.book.Rests id
        rw [hsub.book]
        exact hstill
      · show session.processor.orderToClientFd id = some fd
        rw [hsub.routes, readRoutes, Function.update_of_ne hne, hroute,
          if_neg fun hnone => absurd hnone.1 (by simp)]
      · show sys.submit i conn id ≠ some (sys.connOf fd)
        rw [submit, hsub.accepted]
        simp only [Function.update_of_ne hne]
        exact hsubmitted
    · exact .outgoing (astray_of_trade hrouted hsub (hnew order hsub.accepted) ht hroute hsubmitted)
  all_goals
    have hsubmit : sys.submit i conn = sys.submittedOn := by rw [submit, hacc]
  · refine .route id ?_ ?_ (by rw [processedTo, hsubmit]; exact hsubmitted) hkept
    · show session.processor.book.Rests id
      rw [hsame]
      exact hrests
    · show session.processor.orderToClientFd id = some fd
      rw [hsame]
      exact hroute
  · -- another order is cancelled
    refine .route id ?_ ?_ (by rw [processedTo, hsubmit]; exact hsubmitted) hkept
    · obtain ⟨a, ha, rfl⟩ := hrests
      obtain ⟨side, ha⟩ := OrderBook.mem_resting_iff.mp ha
      refine ⟨a, OrderBook.mem_resting_iff.mpr ⟨side, ?_⟩, rfl⟩
      show a ∈ session.processor.book.restingOn side
      rw [hrem.restingOn_eq_filter hrouted.indexed hrouted.inv hid, List.mem_filter]
      exact ⟨ha, by simpa using Ne.symm (hthis htype)⟩
    · show session.processor.orderToClientFd id = some fd
      rw [hroutes, Function.update_of_ne (Ne.symm (hthis htype))]
      exact hroute

/-- **A request that is processed** does not do away with what is left over. -/
theorem Leftover.process {times : Times} {q : Incoming} (h : sys.Leftover fd)
    (hrouted : Routed sys.processed sys.session) (hout : sys.outbox = [])
    (hin : sys.inbound = q :: inbound)
    (hs : sys.session.step (fun _ => 0) ⟨times, q.message⟩ = .ok session)
    (hnew : ∀ order, Input.accepted ⟨times, q.message⟩ = some order →
      order.id ∉ acceptedIds sys.processed) :
    (sys.processedTo ⟨times, q.message⟩ q.conn inbound session).Leftover fd := by
  cases h with
  | inbound hq hfd hconn =>
    rw [hin] at hq
    rcases List.mem_cons.mp hq with rfl | hq
    · exact .outgoing (astray_of_request hrouted.inv hs hfd hconn)
    · exact .inbound hq hfd hconn
  | outgoing h =>
    obtain ⟨d, hd, hfd, horigin⟩ := h
    rw [hout] at hd
    exact .outgoing ⟨d, List.mem_append_right _ hd, hfd, horigin⟩
  | route id hrests hroute hsubmitted hkept =>
    rw [hin] at hkept
    exact leftover_of_route hrouted hs hnew hrests hroute hsubmitted
      (hkept q List.mem_cons_self) fun q' hq' => hkept q' (List.mem_cons_of_mem q hq')

end Process

/-! ### Going on -/

/-- What is known of a state in which a descriptor is open: the requests that wait can be
processed, at some time, and all ids are distinct. -/
structure Ready (sys : System) (times : Times) (fd : Fd) : Prop where
  routed : Routed sys.processed sys.session
  wellFormed : ∀ q ∈ sys.inbound, q.message.WellFormed
  ids : (acceptedIds (sys.processed ++ sys.pending times)).Nodup
  atFrame : sys.AtFrame fd

section Ready

variable {sys sys' : System} {times : Times} {fd : Fd}

theorem Ready.drained (h : sys.Ready times fd) (hd : sys.Drained fd sys') :
    sys'.Ready times fd where
  routed := by
    rw [hd.processed, hd.session]
    exact h.routed
  wellFormed := by
    rw [hd.inbound]
    exact h.wellFormed
  ids := by
    rw [pending, hd.processed, hd.inbound]
    exact h.ids
  atFrame := hd.atFrame

/-- Draining leaves what is left over, if it is not on its way out. -/
theorem Leftover.drained (h : sys.Leftover fd) (hd : sys.Drained fd sys') :
    sys.Astray fd ∨ sys'.Leftover fd := by
  cases h with
  | inbound hq hfd hconn =>
    exact Or.inr (.inbound (hd.inbound ▸ hq) hfd (by rw [hd.connOf]; exact hconn))
  | outgoing h => exact Or.inl h
  | route id hrests hroute hsubmitted hkept =>
    refine Or.inr (.route id ?_ ?_ ?_ ?_)
    · rw [hd.session]
      exact hrests
    · rw [hd.session]
      exact hroute
    · rw [hd.submittedOn, hd.connOf]
      exact hsubmitted
    · rw [hd.inbound]
      exact hkept

/-- What is on its way out is drained. -/
theorem Ready.misdelivers (h : sys.Ready times fd) (hastray : sys.Astray fd) :
    sys.Misdelivers fd := by
  obtain ⟨d, hd, hfd, horigin⟩ := hastray
  obtain ⟨sys', hgoes, hend⟩ := exists_drained _ h.atFrame rfl
  obtain ⟨a, ha, hafd, hconn, hsame⟩ := hend.given d hd hfd
  refine ⟨sys', hgoes, ?_, a, ha, hafd, hconn, by rw [hsame, hconn]; exact horigin⟩
  rw [hend.processed]
  exact acceptedIds_nodup_of_prefix (List.prefix_append _ _) h.ids

/-- A request that waits can be processed. -/
theorem Ready.process (h : sys.Ready times fd) {q : Incoming} {inbound : List Incoming}
    (hin : sys.inbound = q :: inbound) :
    ∃ session, sys.session.step (fun _ => 0) ⟨times, q.message⟩ = .ok session ∧
      (∀ order, Input.accepted ⟨times, q.message⟩ = some order →
        order.id ∉ acceptedIds sys.processed) ∧
      (sys.processedTo ⟨times, q.message⟩ q.conn inbound session).Ready times fd := by
  have hids := h.ids
  rw [pending, hin, List.map_cons] at hids
  obtain ⟨session, hs, hrouted⟩ := h.routed.step (fun _ => 0)
    (i := ⟨times, q.message⟩) (h.wellFormed q (by rw [hin]; exact List.mem_cons_self))
    (notMem_acceptedIds hids)
  refine ⟨session, hs, notMem_acceptedIds hids, hrouted, fun q' hq' => ?_, ?_, h.atFrame.1,
    h.atFrame.2, h.atFrame.3⟩
  · exact h.wellFormed q' (by rw [hin]; exact List.mem_cons_of_mem q hq')
  · show (acceptedIds (sys.processed ++ [_] ++ inbound.map _)).Nodup
    rw [List.append_assoc, List.singleton_append]
    exact hids

/-- **A request can be sent** on a connection that is open, and is then processed. -/
theorem exists_request (hat : sys.AtFrame fd) (hin : sys.inbound = []) (hout : sys.outbox = [])
    {i : Input} (hfd : i.message.fd = fd) (hshort : i.message.payload.length < 256 ^ 4)
    (hne : i.message.payload ≠ []) {session : Session}
    (hs : sys.session.step (fun _ => 0) i = .ok session) :
    ∃ server, sys.GoesTo ({ sys with server }.processedTo i (sys.connOf fd) [] session) ∧
      AtFrame { sys with server } fd := by
  subst hfd
  have hslot := ExchangeServer.getElem?_of_active hat.active
  generalize hr : Exchange.handleRead (fun _ => true) i.message.fd
    (.begin (sys.server.client i.message.fd) (frameOf i)) = r
  obtain ⟨hpushed, hactive, hheader, hnothing⟩ := handleRead_whole
    (f := ⟨i.message.type.byte, i.message.payload⟩) i.message.fd hat.active hat.header hat.nothing
    hshort hne hr.symm
  have hread : sys.server.handleRead (fun _ => true) (frameOf i) i.message.fd
      = some (sys.server.setClient i.message.fd r.client, [i.message]) := by
    rw [ExchangeServer.handleRead, hslot, Option.map_some, hr]
    simp only [hactive, hat.active, if_true, hpushed]
  refine ⟨sys.server.setClient i.message.fd r.client, ?_, ?_⟩
  · have hqueued : sys.step (.read i.message.fd (frameOf i) fun _ => true) = some { sys with
        server := sys.server.setClient i.message.fd r.client
        inbound := [⟨i.message, sys.connOf i.message.fd⟩] } := by
      rw [System.step, System.read, hread, hin]
      rfl
    refine (GoesTo.step hqueued (by simp)).trans (GoesTo.step (e := .process i.times) ?_ (by simp))
    exact step_process (q := ⟨i.message, sys.connOf i.message.fd⟩) hout rfl hs
  · have hclient := ExchangeServer.client_setClient_self hslot r.client
    exact ⟨by rw [hclient]; exact hactive, by rw [hclient]; exact hheader,
      by rw [hclient]; exact hnothing⟩

/-- The state after a request that has been sent. -/
theorem Ready.exists_request (h : sys.Ready times fd) (hin : sys.inbound = [])
    (hout : sys.outbox = []) {i : Input} (hfd : i.message.fd = fd) (hw : i.message.WellFormed)
    (hshort : i.message.payload.length < 256 ^ 4)
    (hids : (acceptedIds (sys.processed ++ [i])).Nodup) :
    ∃ server session, sys.session.step (fun _ => 0) i = .ok session ∧
      sys.GoesTo ({ sys with server }.processedTo i (sys.connOf fd) [] session) ∧
      ({ sys with server }.processedTo i (sys.connOf fd) [] session).Ready times fd := by
  obtain ⟨session, hs, hrouted⟩ := h.routed.step (fun _ => 0) hw (notMem_acceptedIds hids)
  have hne : i.message.payload ≠ [] := by
    apply List.ne_nil_of_length_pos
    rcases hw with ⟨-, hlen⟩ | ⟨-, hlen⟩
    · exact Nat.lt_of_lt_of_le (by decide) hlen
    · exact Nat.lt_of_lt_of_le (by decide) hlen
  obtain ⟨server, hgoes, hat⟩ := System.exists_request h.atFrame hin hout hfd hshort hne hs
  refine ⟨server, session, hs, hgoes, hrouted, fun _ hq => absurd hq List.not_mem_nil, ?_, hat.1,
    hat.2, hat.3⟩
  show (acceptedIds (sys.processed ++ [i] ++ [])).Nodup
  rw [List.append_nil]
  exact hids

end Ready

/-! ### Reaching a resting order -/

/-- A request with the frame of a client. -/
def requestOf (times : Times) (fd : Fd) (f : Frame) : Input := ⟨times, ⟨fd, ⟨f.type⟩, f.payload⟩⟩

/-- A market order of one unit, which trades with the order at the front of a side. -/
def unitOrder (now : Timestamp) (id : OrderId) (side : Side) : Order :=
  ⟨now, id, 0, 1, side.opposite, .MARKET⟩

section Front

variable {sys : System} {times : Times} {fd : Fd} {side : Side} {b : Price × Node}
  {rest : List (Price × Node)}

/-- It draws on the front of the side. -/
theorem exists_mem_fills_unitOrder {book : OrderBook} (now : Timestamp) (id : OrderId)
    (hqueue : book.restingOn side = b :: rest) :
    ∃ k, (b, k) ∈ (sweepOf book (unitOrder now id side)).fills := by
  have hside : side.IsProper := OrderBook.isProper_of_mem (hqueue ▸ List.mem_cons_self)
  have hopp : (unitOrder now id side).side.opposite = side := Side.opposite_opposite side
  have hopen : (branchOf (unitOrder now id side)).blocked b.1 = false := by
    rw [Bool.eq_false_iff]
    intro hblocked
    exact absurd ((blocked_branchOf hside.opposite b.1).mp hblocked).1 OrderType.MARKET_ne_LIMIT
  rw [sweepOf, hopp, hqueue]
  exact exists_mem_fills weight reduceBy (fun a => (branchOf (unitOrder now id side)).blocked a.1)
    hopen Nat.one_ne_zero rest

/-- The connection of a descriptor trades with an order that is routed there. -/
theorem Ready.misdelivers_of_front (h : sys.Ready times fd) (hin : sys.inbound = [])
    (hout : sys.outbox = []) {new : OrderId} (hnew : new ∉ acceptedIds sys.processed)
    (hqueue : sys.session.processor.book.restingOn side = b :: rest)
    (hroute : sys.session.processor.orderToClientFd b.2.order.id = some fd)
    (hsubmitted : sys.submittedOn b.2.order.id ≠ some (sys.connOf fd)) : sys.Misdelivers fd := by
  have hlen := length_payload_orderFrame (unitOrder times.received new side)
  have hacc : (requestOf times fd (orderFrame (unitOrder times.received new side))).accepted
      = some (unitOrder times.received new side) :=
    accepted_orderFrame (Order.constructed_market (by decide)) rfl rfl
  generalize hi : requestOf times fd (orderFrame (unitOrder times.received new side)) = i at hacc
  have hpayload : i.message.payload.length = 22 := by rw [← hi]; exact hlen
  have hids : (acceptedIds (sys.processed ++ [i])).Nodup := by
    have hold := h.ids
    rw [pending, hin, List.map_nil, List.append_nil] at hold
    have hsplit : acceptedIds (sys.processed ++ [i]) = acceptedIds sys.processed ++ [new] := by
      simp [acceptedIds, hacc, unitOrder]
    rw [hsplit, ← List.concat_eq_append]
    exact hold.concat hnew
  obtain ⟨server, session, hs, hgoes, hready⟩ := h.exists_request hin hout (by rw [← hi]; rfl)
    (Or.inl ⟨by rw [← hi]; rfl, Nat.le_of_eq hpayload.symm⟩) (by rw [hpayload]; decide) hids
  -- the notice of the trade with the order at the front goes astray
  obtain ⟨k, hfill⟩ := exists_mem_fills_unitOrder times.received new hqueue
  obtain ⟨t, ht, hid⟩ := exists_counterparty hacc hfill
  have hastray : ({ sys with server }.processedTo i (sys.connOf fd) [] session).Astray fd :=
    astray_of_trade h.routed (submits_of_step h.routed.inv hs hacc) hnew ht (hid ▸ hroute)
      (hid ▸ hsubmitted)
  exact hgoes.misdelivers rfl (hready.misdelivers hastray)

/-- The connection of a descriptor cancels the order at the front of a side. -/
theorem Ready.exists_cancelled (h : sys.Ready times fd) (hin : sys.inbound = [])
    (hout : sys.outbox = [])
    (hqueue : sys.session.processor.book.restingOn side = b :: rest) :
    ∃ sys', sys.GoesTo sys' ∧ sys'.Ready times fd ∧ sys'.inbound = [] ∧ sys'.outbox = [] ∧
      sys'.connOf = sys.connOf ∧ sys'.submittedOn = sys.submittedOn ∧
      acceptedIds sys'.processed = acceptedIds sys.processed ∧
      sys'.session.processor.book.restingOn side = rest ∧
      ∀ id ≠ b.2.order.id,
        sys'.session.processor.orderToClientFd id = sys.session.processor.orderToClientFd id := by
  have hpid : payloadId (cancelFrame b.2.order.id).payload = b.2.order.id :=
    payloadId_of_prefix (List.prefix_refl _)
  have hlen : (cancelFrame b.2.order.id).payload.length = 8 := length_u64Bytes _
  have hloc := h.routed.indexed side b (hqueue ▸ List.mem_cons_self)
  generalize hi : requestOf times fd (cancelFrame b.2.order.id) = i
  have htype : i.message.type = .CANCEL_ORDER := by rw [← hi]; rfl
  have hpayload : i.message.payload = (cancelFrame b.2.order.id).payload := by rw [← hi]; rfl
  have hacc : i.accepted = none := by rw [Input.accepted, if_neg (by rw [htype]; decide)]
  rw [← hpayload] at hpid hlen
  have hsame : acceptedIds (sys.processed ++ [i]) = acceptedIds sys.processed := by
    simp [acceptedIds, hacc]
  have hids : (acceptedIds (sys.processed ++ [i])).Nodup := by
    have hold := h.ids
    rw [pending, hin, List.map_nil, List.append_nil] at hold
    rw [hsame]
    exact hold
  obtain ⟨server, session, hs, hgoes, hready⟩ := h.exists_request hin hout (by rw [← hi]; rfl)
    (Or.inr ⟨htype, Nat.le_of_eq hlen.symm⟩) (by rw [hlen]; decide) hids
  obtain ⟨s', n, hs', -, -, hid, hrem, hroutes⟩ :=
    step_cancel (fun _ => 0) h.routed.inv htype (Nat.le_of_eq hlen.symm) (hpid.symm ▸ hloc)
  obtain rfl := Except.ok.inj (hs.symm.trans hs')
  rw [hpid] at hid hrem hroutes
  -- the acknowledgement is drained
  obtain ⟨sys', hgoes', hend⟩ := exists_drained _ hready.atFrame rfl
  refine ⟨sys', hgoes.trans hgoes', hready.drained hend, hend.inbound, hend.outbox, hend.connOf,
    hend.submittedOn.trans ?_, by rw [hend.processed]; exact hsame, ?_, fun id hne => ?_⟩
  · show sys.submit i (sys.connOf fd) = sys.submittedOn
    rw [submit, hacc]
  · rw [hend.session]
    show session.processor.book.restingOn side = rest
    rw [hrem.restingOn_eq_filter h.routed.indexed h.routed.inv hid, hqueue,
      List.filter_cons_of_neg (by simp), List.filter_eq_self]
    intro c hc
    simpa using h.routed.indexed.id_ne h.routed.inv (A := []) hqueue c hc
  · rw [hend.session]
    show session.processor.orderToClientFd id = _
    rw [hroutes, Function.update_of_ne hne]

/-- **A resting order is reached**: what stands in front of it is cancelled. -/
theorem Ready.misdelivers_of_route (queue : List (Price × Node)) : ∀ {sys : System},
    sys.Ready times fd → sys.inbound = [] → sys.outbox = [] → ∀ new ∉ acceptedIds sys.processed,
    sys.session.processor.book.restingOn side = queue → ∀ a ∈ queue,
    sys.session.processor.orderToClientFd a.2.order.id = some fd →
    sys.submittedOn a.2.order.id ≠ some (sys.connOf fd) → sys.Misdelivers fd := by
  induction queue with
  | nil => exact fun _ _ _ _ _ _ _ ha => absurd ha List.not_mem_nil
  | cons b rest ih =>
    intro sys h hin hout new hnew hqueue a ha hroute hsubmitted
    by_cases hid : a.2.order.id = b.2.order.id
    · -- it is at the front
      rw [hid] at hroute hsubmitted
      exact h.misdelivers_of_front hin hout hnew hqueue hroute hsubmitted
    · obtain ⟨sys', hgoes, hready, hin', hout', hconn, hsub, hids, hrest, hroutes⟩ :=
        h.exists_cancelled hin hout hqueue
      have hmem : a ∈ rest := by
        rcases List.mem_cons.mp ha with rfl | ha
        · exact absurd rfl hid
        · exact ha
      refine hgoes.misdelivers hconn (ih hready hin' hout' new ?_ hrest a hmem ?_ ?_)
      · rw [hids]
        exact hnew
      · rw [hroutes _ hid]
        exact hroute
      · rw [hsub, hconn]
        exact hsubmitted

end Front

/-! ### Everything that is left over -/

section Leftover

variable {times : Times} {fd : Fd}

/-- What is on its way out may be drained first. -/
theorem Ready.misdelivers_of_drained {sys : System} (h : sys.Ready times fd)
    (hleft : sys.Leftover fd)
    (hgo : ∀ sys₁ : System, sys₁.Ready times fd → sys₁.Leftover fd → sys₁.outbox = [] →
      sys₁.inbound = sys.inbound → sys₁.processed = sys.processed → sys₁.Misdelivers fd) :
    sys.Misdelivers fd := by
  obtain ⟨sys₁, hgoes, hend⟩ := exists_drained _ h.atFrame rfl
  rcases hleft.drained hend with hastray | hleft
  · exact h.misdelivers hastray
  · exact hgoes.misdelivers hend.connOf
      (hgo sys₁ (h.drained hend) hleft hend.outbox hend.inbound hend.processed)

/-- **What is left over is delivered**, by working off what waits and then, if it is a route,
by trading with the order. -/
theorem Leftover.misdelivers (inbound : List Incoming) : ∀ {sys : System},
    sys.inbound = inbound → sys.Ready times fd → sys.Leftover fd →
    ∀ new ∉ acceptedIds (sys.processed ++ sys.pending times),
    sys.Misdelivers fd := by
  induction inbound with
  | nil =>
    intro sys hin h hleft new hnew
    refine h.misdelivers_of_drained hleft fun sys₁ h₁ hleft₁ hout hin₁ hproc => ?_
    rw [pending, hin, List.map_nil, List.append_nil, ← hproc] at hnew
    rw [hin] at hin₁
    cases hleft₁ with
    | inbound hq _ _ =>
      rw [hin₁] at hq
      exact absurd hq List.not_mem_nil
    | outgoing hastray => exact h₁.misdelivers hastray
    | route id hrests hroute hsubmitted _ =>
      obtain ⟨a, ha, rfl⟩ := hrests
      obtain ⟨side, ha⟩ := OrderBook.mem_resting_iff.mp ha
      exact h₁.misdelivers_of_route _ hin₁ hout new hnew rfl a ha hroute hsubmitted
  | cons q inbound ih =>
    intro sys hin h hleft new hnew
    refine h.misdelivers_of_drained hleft fun sys₁ h₁ hleft₁ hout hin₁ hproc => ?_
    rw [pending, hin, List.map_cons, ← hproc] at hnew
    rw [hin] at hin₁
    -- the next request is processed
    obtain ⟨session, hs, hids, hready⟩ := h₁.process hin₁
    refine (GoesTo.step (step_process hout hin₁ hs) (by simp)).misdelivers rfl
      (ih rfl hready (hleft₁.process h₁.routed hout hin₁ hs hids) new ?_)
    show new ∉ acceptedIds (sys₁.processed ++ [_] ++ inbound.map _)
    rw [List.append_assoc]
    exact hnew

end Leftover

/-- A connection is accepted: what there are traces of is left over. -/
theorem Numbered.leftover {sys sys' : System} {fd : Fd} (h : sys.Numbered)
    (haccept : sys.step (.accept fd) = some sys') (hused : ¬ sys.Unused fd)
    (hkept : ∀ q ∈ sys.inbound, q.message.fd ≠ fd → q.message.type = .CANCEL_ORDER →
      sys.session.processor.orderToClientFd (payloadId q.message.payload) ≠ some fd) :
    sys'.Leftover fd := by
  obtain ⟨server, -, rfl⟩ := Option.map_eq_some_iff.mp haccept
  have hconn : Function.update sys.connOf fd sys.numConns fd = sys.numConns :=
    Function.update_self _ _ _
  by_contra hnone
  have hinbound : ∀ q ∈ sys.inbound, q.message.fd ≠ fd := fun q hq hfd =>
    hnone (.inbound hq hfd fun heq => Nat.ne_of_lt (h.inbound q hq) (heq.trans hconn))
  refine hused ⟨hinbound, fun d hd hfd => hnone ?_, fun a ha hroute => hnone ?_⟩
  · exact .outgoing ⟨d, hd, hfd, fun heq =>
      Nat.lt_irrefl _ (h.outgoing d hd _ (heq.trans (congrArg some hconn)))⟩
  · exact .route a.2.order.id ⟨a, ha, rfl⟩ hroute
      (fun heq => Nat.lt_irrefl _ (h.submitted _ _ (heq.trans (congrArg some hconn))))
      fun q hq htype hid => hkept q hq (hinbound q hq) htype (hid ▸ hroute)

end System

/-- The accept that breaks the condition. -/
theorem freshAccepts_append {events : List Event} {fd : Fd} {sys : System}
    (h : FreshAccepts sys events)
    (hend : ∀ sys', events.foldlM System.step sys = some sys' → sys'.Unused fd) :
    FreshAccepts sys (events ++ [.accept fd]) := by
  induction events generalizing sys with
  | nil => exact ⟨fun fd' heq => Event.accept.inj heq ▸ hend sys rfl, fun _ _ => trivial⟩
  | cons e events ih =>
    refine ⟨h.1, fun sys₁ hs => ih (h.2 sys₁ hs) fun sys' hrun => hend sys' ?_⟩
    rw [List.foldlM_cons, hs]
    exact hrun

/-- **An accept that breaks the condition can bring the new connection what is not its own.**
Let all accepts of a run but the last one be of descriptors of which there are no traces.
Suppose that, when this one is made, the requests that wait in the inbound ring are
well-formed, the ids of accepted orders stay distinct when they are processed and are not all
in use, and none that names another descriptor cancels an order routed to this one.  Then the
run can go on, without another accept and with distinct ids, to a state in which something has
been added to the write buffer of the new connection that is neither a reply to a request read
from it nor the notice of a trade of an order submitted on it. -/
theorem used_accept_misdelivers {reserved : Fd → Bool} {events : List Event} {fd : Fd}
    {sys : System} (hrun : System.run reserved (events ++ [.accept fd]) = some sys)
    (hfresh : FreshAccepts (.start reserved) events)
    (hbroken : ¬ FreshAccepts (.start reserved) (events ++ [.accept fd])) (times : Times)
    (hwell : ∀ q ∈ sys.inbound, q.message.WellFormed)
    (hids : (acceptedIds (sys.processed ++ sys.pending times)).Nodup)
    (hfree : ∃ id, id ∉ acceptedIds (sys.processed ++ sys.pending times))
    (hkept : ∀ q ∈ sys.inbound, q.message.fd ≠ fd → q.message.type = .CANCEL_ORDER →
      sys.session.processor.orderToClientFd (payloadId q.message.payload) ≠ some fd) :
    sys.Misdelivers fd := by
  have hsession := System.session_of_run hrun
  have hprocessed := acceptedIds_nodup_of_prefix (List.prefix_append _ _) hids
  obtain ⟨session, hs, hrouted⟩ :=
    routed_run (fun _ => 0) (wellFormed_of_run hsession) hprocessed
  obtain rfl := Except.ok.inj (hs.symm.trans hsession)
  -- the state before the last accept
  rw [System.run, List.foldlM_append] at hrun
  obtain ⟨before, hbefore, haccept⟩ := Option.bind_eq_some_iff.mp hrun
  replace haccept : before.step (.accept fd) = some sys := by
    simpa only [List.foldlM_cons, List.foldlM_nil, bind_pure] using haccept
  have hused : ¬ before.Unused fd := by
    intro hunused
    refine hbroken (freshAccepts_append hfresh fun sys' hsys' => ?_)
    rw [← Option.some.inj (hbefore.symm.trans hsys')]
    exact hunused
  obtain ⟨server, hserver, rfl⟩ := Option.map_eq_some_iff.mp haccept
  have hclient := (ExchangeServer.acceptClient_client hserver).1
  have hleft := (System.numbered_of_run hbefore).leftover haccept hused hkept
  obtain ⟨new, hnew⟩ := hfree
  exact hleft.misdelivers _ rfl ⟨hrouted, hwell, hids, by rw [hclient], by rw [hclient],
    by rw [hclient]⟩ new hnew

/-- A connection leaves an ask resting and is closed.  The connection that is given its
descriptor need only buy. -/
theorem used_accept_misdelivers_route :
    ∃ sys, System.run (fun fd => fd < 7) ([.accept 7] ++ exchangeEvents (askFive 7 100) 1
        ++ [.read 7 [.closed] (fun _ => true)] ++ [.accept 7]) = some sys ∧
      sys.Misdelivers 7 := by
  have heval : (System.run (fun fd => fd < 7) ([.accept 7] ++ exchangeEvents (askFive 7 100) 1
      ++ [.read 7 [.closed] (fun _ => true)] ++ [.accept 7])).map (fun sys =>
        (sys.inbound.length, acceptedIds sys.processed)) = some (0, [5]) := by
    decide +kernel
  obtain ⟨sys, hrun, hsys⟩ := Option.map_eq_some_iff.mp heval
  obtain ⟨hinbound, hids⟩ := Prod.mk.inj hsys
  have hin : sys.inbound = [] := List.eq_nil_of_length_eq_zero hinbound
  have hpending : sys.processed ++ sys.pending ⟨0, fun _ => 0⟩ = sys.processed := by
    rw [System.pending, hin, List.map_nil, List.append_nil]
  refine ⟨sys, hrun, used_accept_misdelivers hrun (by decide +kernel) (by decide +kernel)
    ⟨0, fun _ => 0⟩ (by simp [hin]) ?_ ⟨6, ?_⟩ (by simp [hin])⟩ <;> rw [hpending, hids] <;> decide

end Exchange
