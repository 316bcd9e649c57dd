import Exchange.Processor.Replies
import Exchange.Server.Outbound
import Exchange.Server.Requests
import Exchange.Server.Slots

/-!
# Pipelined requests

A client may send requests without waiting for the answers, and counts the answers as
they come.  It relies on them to come in the order of its requests.  On the way, requests
and answers go through the slot of the connection, the two rings, the buffer in which
the processor gathers a reply, and the write buffer, and in between the client gets the
trade notices of its resting orders.

As long as no connection is closed, everything that is under way for a connection is in
one line: the bytes it has been sent, its write buffer, the outbound ring and what the
processor has still to push hold the answers to the requests that have been processed,
and the inbound ring holds the requests that follow.

## Main definitions

* `System.received` — the bytes received on a connection in a run.
* `System.staysOpen` — no connection is closed in a run.
* `System.requests`, `System.flow` — the requests that have been pushed, and the messages
  that have been produced.
* `System.Ordered` — the invariant.

## Main results

* `System.Ordered.step` — a step keeps the invariant.
* `pipelined_replies_ordered` — answers come in the order of the requests.
-/

namespace Exchange

open Bytes

/-- The message whose bytes have been added to a write buffer. -/
def Appended.message (a : Appended) : OutboundMessage := ⟨a.fd, a.payload⟩

namespace System

/-! ### Runs in which no connection is closed -/

/-- The bytes that a step receives on the connection of a descriptor. -/
def receives (sys : System) (fd : Fd) : Event → List UInt8
  | .read fd' arrivals room =>
      if fd' = fd then
        (handleRead room fd (.begin (sys.server.client fd) arrivals)).consumed
      else []
  | _ => []

/-- The bytes that a run receives on the connection of a descriptor. -/
def received (fd : Fd) : System → List Event → List UInt8
  | _, [] => []
  | sys, e :: es =>
      sys.receives fd e ++ match sys.step e with
        | none => []
        | some sys' => received fd sys' es

/-- Every connection that was open is open. -/
def keepsOpen (sys sys' : System) : Bool :=
  sys.server.clients.zipIdx.all fun (client, fd) =>
    !client.active || (sys'.server.client fd).active

/-- No connection is closed in a run. -/
def staysOpen : System → List Event → Bool
  | _, [] => true
  | sys, e :: es =>
      match sys.step e with
      | none => true
      | some sys' => keepsOpen sys sys' && staysOpen sys' es

theorem active_of_keepsOpen {sys sys' : System} (h : keepsOpen sys sys' = true) {fd : Fd}
    (hactive : (sys.server.client fd).active = true) :
    (sys'.server.client fd).active = true := by
  have hmem : (sys.server.client fd, fd) ∈ sys.server.clients.zipIdx :=
    List.mem_zipIdx_iff_getElem?.mpr (ExchangeServer.getElem?_of_active hactive)
  have hfd := List.all_eq_true.mp h _ hmem
  simp only [hactive, Bool.not_true, Bool.false_or] at hfd
  exact hfd

/-- What `handle_read` does when it closes no connection: the slot is assigned, and nothing
is received on a connection that is not open. -/
theorem handleRead_kept {s server : ExchangeServer} {fd : Fd} {arrivals : List Arrival}
    {room : ℕ → Bool} {messages : List InboundMessage}
    (hs : s.handleRead room arrivals fd = some (server, messages))
    (hkeep : (s.client fd).active = true → (server.client fd).active = true) {r : Reading}
    (hr : r = handleRead room fd (.begin (s.client fd) arrivals)) :
    messages = r.pushed ∧ server.client fd = r.client ∧ server.openFds = s.openFds ∧
      (∀ fd', fd' ≠ fd → server.client fd' = s.client fd') ∧
      r.client.active = (s.client fd).active ∧
      ((s.client fd).active = false → r.consumed = [] ∧ r.pushed = []) := by
  obtain ⟨c, hc, heq⟩ := Option.map_eq_some_iff.mp hs
  obtain rfl := ExchangeServer.client_of_some hc
  simp only [← hr] at heq
  obtain ⟨hserver, rfl⟩ := Prod.mk.inj heq
  -- a closed connection is not read from
  have hidle : (s.client fd).active = false →
      r.client = s.client fd ∧ r.consumed = [] ∧ r.pushed = [] := by
    intro hclosed
    rw [hr, handleRead_of_closed hclosed]
    exact ⟨rfl, rfl, rfl⟩
  have hset : server = s.setClient fd r.client := by
    cases hactive : (s.client fd).active with
    | true =>
      have hopen := hkeep hactive
      rw [← hserver] at hopen ⊢
      exact (handleRead_open hc hopen).1
    | false => rw [← hserver, (hidle hactive).1, if_pos rfl]
  have hself : server.client fd = r.client := by
    rw [hset, ExchangeServer.client_setClient_self hc]
  refine ⟨rfl, hself, by rw [hset]; rfl, fun fd' hfd => ?_, ?_, fun hclosed => (hidle hclosed).2⟩
  · rw [hset, ExchangeServer.client_setClient_of_ne hfd]
  · cases hactive : (s.client fd).active with
    | true =>
      rw [← hself]
      exact hkeep hactive
    | false =>
      rw [(hidle hactive).1]
      exact hactive

/-! ### The invariant -/

/-- The requests that have been pushed, the processed ones first. -/
def requests (sys : System) : List InboundMessage :=
  sys.processed.map Input.message ++ sys.inbound.map Incoming.message

/-- The messages that have been produced: those added to write buffers, those in the
outbound ring, and those that are still to be pushed. -/
def flow (sys : System) : List OutboundMessage :=
  sys.appended.map Appended.message ++ (sys.outbound ++ sys.outbox).map Outgoing.message

/-- The invariant of a run in which no connection is closed, where `bytes fd` has been
received on the connection of `fd`. -/
structure Ordered (bytes : Fd → List UInt8) (sys : System) : Prop where
  opened : ∀ fd, (sys.server.client fd).active = true → sys.server.openFds fd = true
  closed : ∀ fd, (sys.server.client fd).active = false →
    bytes fd = [] ∧ ∀ m ∈ sys.requests, m.fd ≠ fd
  synced : ∀ fd, (sys.server.client fd).active = true →
    Synced fd (sys.server.client fd) (bytes fd) (sys.requests.filter fun m => m.fd = fd)
  logged : ∀ a ∈ sys.appended,
    (sys.server.client a.fd).active = true ∧ a.conn = sys.connOf a.fd
  whole : ∀ m ∈ sys.flow, Whole m.payload
  answers : ∀ fd, answersTo fd sys.flow
    = ((sys.processed.map Input.message).filter fun m => m.fd = fd).map
      fun m => answerOf m.payload

namespace Ordered

variable {sys : System} {bytes : Fd → List UInt8}

theorem ordered_start (reserved : Fd → Bool) : (start reserved).Ordered fun _ => [] := by
  have hclosed := closed_start reserved
  refine ⟨fun fd hactive => ?_, fun fd _ => ⟨rfl, fun m hm => absurd hm List.not_mem_nil⟩,
    fun fd hactive => ?_, fun a ha => absurd ha List.not_mem_nil,
    fun m hm => absurd hm List.not_mem_nil, fun _ => rfl⟩
  · exact absurd ((hclosed fd).symm.trans hactive) Bool.false_ne_true
  · exact absurd ((hclosed fd).symm.trans hactive) Bool.false_ne_true

/-- Bytes are sent. -/
theorem sends {server : ExchangeServer} (h : sys.Ordered bytes) (hout : OutOnly sys.server server)
    (hkeep : ∀ fd, (sys.server.client fd).active = true → (server.client fd).active = true) :
    Ordered bytes { sys with server } where
  opened := by
    intro fd hactive
    rw [(hout fd hactive).1]
    exact h.opened fd (hout.active hactive)
  closed := by
    intro fd hclosed
    apply h.closed fd
    rw [Bool.eq_false_iff] at hclosed ⊢
    exact fun hactive => hclosed (hkeep fd hactive)
  synced := by
    intro fd hactive
    obtain ⟨-, buffer, sent, heq⟩ := hout fd hactive
    show Synced fd (server.client fd) _ _
    rw [heq]
    exact (h.synced fd (hout.active hactive)).outOnly buffer sent
  logged := fun a ha => ⟨hkeep a.fd (h.logged a ha).1, (h.logged a ha).2⟩
  whole := h.whole
  answers := h.answers

/-- A connection is accepted: its descriptor was closed, so that nothing has been received
or produced for it. -/
theorem accept {fd : Fd} {server : ExchangeServer} (h : sys.Ordered bytes)
    (hs : sys.server.acceptClient fd = some server) :
    Ordered bytes { sys with
      server
      connOf := Function.update sys.connOf fd sys.numConns
      numConns := sys.numConns + 1 } := by
  have hclient := (ExchangeServer.acceptClient_client hs).1
  have honly := onlyAt_acceptClient hs
  obtain ⟨hfree, hopen, -⟩ := ExchangeServer.acceptClient_kernel hs
  have hinactive : (sys.server.client fd).active = false := by
    rw [Bool.eq_false_iff]
    intro hactive
    rw [h.opened fd hactive] at hfree
    exact absurd hfree (by simp)
  obtain ⟨hbytes, hnone⟩ := h.closed fd hinactive
  constructor
  · intro fd' hactive
    by_cases hfd : fd' = fd
    · rw [hfd]
      exact hopen
    · obtain ⟨heq, -, hsame⟩ := honly fd' hfd
      show server.openFds fd' = true
      rw [hsame]
      apply h.opened
      rw [← heq]
      exact hactive
  · intro fd' hclosed
    by_cases hfd : fd' = fd
    · rw [hfd] at hclosed
      exact absurd (hclosed.symm.trans (congrArg ClientState.active hclient)) (by simp)
    · apply h.closed
      rw [← (honly fd' hfd).1]
      exact hclosed
  · intro fd' hactive
    by_cases hfd : fd' = fd
    · rw [hfd]
      have hempty : sys.requests.filter (fun m => m.fd = fd) = [] := by
        rw [List.filter_eq_nil_iff]
        intro m hm
        simpa using hnone m hm
      show Synced fd (server.client fd) (bytes fd) (sys.requests.filter fun m => m.fd = fd)
      rw [hclient, hbytes, hempty]
      exact synced_accepted fd
    · show Synced fd' (server.client fd') _ _
      rw [(honly fd' hfd).1]
      apply h.synced
      rw [← (honly fd' hfd).1]
      exact hactive
  · intro a ha
    obtain ⟨hactive, hconn⟩ := h.logged a ha
    have hne : a.fd ≠ fd := by
      intro heq
      rw [heq, hinactive] at hactive
      exact absurd hactive Bool.false_ne_true
    refine ⟨?_, hconn.trans (Function.update_of_ne hne _ _).symm⟩
    show (server.client a.fd).active = true
    rw [(honly a.fd hne).1]
    exact hactive
  · exact h.whole
  · exact h.answers

/-- Requests of other descriptors do not count. -/
theorem filter_requests {ms : List InboundMessage} {fd : Fd} (h : ∀ m ∈ ms, m.fd = fd)
    (fd' : Fd) : ms.filter (fun m => m.fd = fd') = if fd' = fd then ms else [] := by
  by_cases hfd : fd' = fd
  · rw [if_pos hfd, List.filter_eq_self]
    intro m hm
    rw [h m hm, hfd]
    exact decide_eq_true rfl
  · rw [if_neg hfd, List.filter_eq_nil_iff]
    intro m hm heq
    rw [h m hm] at heq
    exact hfd (of_decide_eq_true heq).symm

/-- Frames are read: what is received and what is pushed for the connection grow
together. -/
theorem read {fd : Fd} {arrivals : List Arrival} {room : ℕ → Bool} {server : ExchangeServer}
    {messages : List InboundMessage} (h : sys.Ordered bytes)
    (hs : sys.server.handleRead room arrivals fd = some (server, messages))
    (hkeep : ∀ fd, (sys.server.client fd).active = true → (server.client fd).active = true) :
    Ordered (fun fd' => bytes fd' ++ sys.receives fd' (.read fd arrivals room)) { sys with
      server
      inbound := sys.inbound ++ messages.map fun m => ⟨m, sys.connOf fd⟩ } := by
  have hfds := (ExchangeServer.handleRead_spec hs).1
  generalize hr : handleRead room fd (.begin (sys.server.client fd) arrivals) = r
  obtain ⟨rfl, hself, hopen, hother, hactive, hidle⟩ := handleRead_kept hs (hkeep fd) hr.symm
  have hbytes : ∀ fd', sys.receives fd' (.read fd arrivals room)
      = if fd' = fd then r.consumed else [] := by
    intro fd'
    by_cases hfd : fd' = fd
    · rw [hfd, receives, if_pos rfl, if_pos rfl, hr]
    · rw [receives, if_neg (Ne.symm hfd), if_neg hfd]
  have hsame : ∀ fd', (server.client fd').active = (sys.server.client fd').active := by
    intro fd'
    by_cases hfd : fd' = fd
    · rw [hfd, hself, hactive]
    · rw [hother fd' hfd]
  generalize hsys : ({ sys with
    server
    inbound := sys.inbound ++ r.pushed.map fun m => ⟨m, sys.connOf fd⟩ } : System) = sys'
  have hrequests : sys'.requests = sys.requests ++ r.pushed := by
    rw [← hsys, requests, requests, List.map_append, List.append_assoc, List.map_map]
    congr 2
    exact List.map_id _
  subst hsys
  constructor
  · intro fd' hfd'
    show server.openFds fd' = true
    rw [hopen]
    exact h.opened fd' ((hsame fd').symm.trans hfd')
  · intro fd' hclosed
    have hclosed' := (hsame fd').symm.trans hclosed
    obtain ⟨hnil, hnone⟩ := h.closed fd' hclosed'
    rw [hrequests, hnil, hbytes]
    by_cases hfd : fd' = fd
    · rw [hfd] at hclosed' hnone ⊢
      rw [if_pos rfl, (hidle hclosed').1, (hidle hclosed').2, List.append_nil, List.append_nil]
      exact ⟨rfl, hnone⟩
    · rw [if_neg hfd]
      refine ⟨rfl, fun m hm => ?_⟩
      rcases List.mem_append.mp hm with hm | hm
      · exact hnone m hm
      · rw [hfds m hm]
        exact Ne.symm hfd
  · intro fd' hfd'
    have hsynced := h.synced fd' ((hsame fd').symm.trans hfd')
    rw [hrequests, List.filter_append, filter_requests hfds, hbytes]
    show Synced fd' (server.client fd') _ _
    by_cases hfd : fd' = fd
    · rw [hfd] at hsynced ⊢
      rw [if_pos rfl, if_pos rfl, hself]
      exact hsynced.handleRead room arrivals hr.symm
    · rw [if_neg hfd, if_neg hfd, List.append_nil, List.append_nil, hother fd' hfd]
      exact hsynced
  · exact fun a ha => ⟨hkeep a.fd (h.logged a ha).1, (h.logged a ha).2⟩
  · exact h.whole
  · exact h.answers

/-- A message that is dropped holds no answer: nothing has been requested on a connection
that is not open. -/
theorem answersTo_dropped {m : OutboundMessage} {ms ms' : List OutboundMessage}
    (h : sys.Ordered bytes) (hflow : sys.flow = ms ++ m :: ms')
    (hclosed : (sys.server.client m.fd).active = false) (fd : Fd) :
    answersTo fd (ms ++ ms') = answersTo fd sys.flow := by
  have hsplit : answersTo fd sys.flow
      = answersTo fd ms ++ (answersTo fd [m] ++ answersTo fd ms') := by
    rw [hflow, answersTo_append, ← List.singleton_append, answersTo_append]
  have hnone : answersTo fd [m] = [] := by
    by_cases hfd : m.fd = fd
    · have hempty : (sys.processed.map Input.message).filter (fun m => m.fd = fd) = [] := by
        rw [List.filter_eq_nil_iff]
        intro m' hm' heq
        rw [hfd] at hclosed
        exact (h.closed fd hclosed).2 m' (List.mem_append_left _ hm') (of_decide_eq_true heq)
      rw [h.answers fd, hempty] at hsplit
      have hnil := List.append_eq_nil_iff.mp hsplit.symm
      exact (List.append_eq_nil_iff.mp hnil.2).1
    · rw [answersTo_singleton, if_neg hfd]
  rw [hsplit, hnone, List.nil_append, answersTo_append]

/-- A message is drained. -/
theorem drain {d : Outgoing} {outbound : List Outgoing} (h : sys.Ordered bytes)
    (hd : sys.outbound = d :: outbound) :
    Ordered bytes { sys with
      outbound
      server := sys.server.drainMessage d.message
      appended := sys.appended ++
        if sys.server.delivers d.message then
          [⟨d.message.fd, sys.connOf d.message.fd, d.origin, d.message.payload⟩] else [] } := by
  have hactive : ∀ fd, ((sys.server.drainMessage d.message).client fd).active
      = (sys.server.client fd).active := by
    intro fd
    rw [ExchangeServer.client_drainMessage]
  have hsends := h.sends (.drainMessage sys.server d.message) fun fd hopen => by
    rw [hactive]
    exact hopen
  have hflow : sys.flow = sys.appended.map Appended.message
      ++ d.message :: (outbound ++ sys.outbox).map Outgoing.message := by
    rw [flow, hd]
    rfl
  cases hdel : sys.server.delivers d.message with
  | true =>
    -- the message goes from the ring to the write buffer
    have hsame : (sys.appended ++ [Appended.mk d.message.fd (sys.connOf d.message.fd) d.origin
        d.message.payload]).map Appended.message
        ++ (outbound ++ sys.outbox).map Outgoing.message = sys.flow := by
      rw [hflow, List.map_append, List.append_assoc]
      rfl
    rw [if_pos rfl]
    refine ⟨hsends.opened, hsends.closed, hsends.synced, fun a ha => ?_, ?_, fun fd => ?_⟩
    · rcases List.mem_append.mp ha with ha | ha
      · exact hsends.logged a ha
      · rw [List.mem_singleton.mp ha]
        refine ⟨?_, rfl⟩
        show ((sys.server.drainMessage d.message).client d.message.fd).active = true
        rw [hactive]
        exact ExchangeServer.active_of_delivers hdel
    · rw [flow, hsame]
      exact h.whole
    · rw [flow, hsame]
      exact h.answers fd
  | false =>
    have hclosed : (sys.server.client d.message.fd).active = false := by
      rw [Bool.eq_false_iff]
      intro hopen
      rw [ExchangeServer.delivers, ExchangeServer.getElem?_of_active hopen] at hdel
      exact absurd (hopen.symm.trans hdel) (by simp)
    rw [if_neg Bool.false_ne_true, List.append_nil]
    refine ⟨hsends.opened, hsends.closed, hsends.synced, hsends.logged, fun m hm => ?_,
      fun fd => ?_⟩
    · apply h.whole
      rw [hflow]
      rcases List.mem_append.mp hm with hm | hm
      · exact List.mem_append_left _ hm
      · exact List.mem_append_right _ (List.mem_cons_of_mem _ hm)
    · exact (h.answersTo_dropped hflow hclosed fd).trans (h.answers fd)

theorem map_message_tagged : ∀ (ms : List OutboundMessage) (origins : List (Option Conn)),
    (tagged ms origins).map Outgoing.message = ms
  | [], _ => rfl
  | m :: ms, [] => by rw [tagged, List.map_cons, map_message_tagged ms []]
  | m :: ms, _ :: origins => by rw [tagged, List.map_cons, map_message_tagged ms origins]

/-- A request for a new order is processed. -/
theorem process {times : Times} {q : Incoming} {inbound : List Incoming} {session : Session}
    {origins : List (Option Conn)} {submittedOn : OrderId → Option Conn} (h : sys.Ordered bytes)
    (hout : sys.outbox = []) (hin : sys.inbound = q :: inbound)
    (hs : sys.session.step (fun _ => 0) ⟨times, q.message⟩ = .ok session)
    (ht : q.message.type = .NEW_ORDER) (hlen : 22 ≤ q.message.payload.length) :
    Ordered bytes { sys with
      inbound
      session
      outbox := tagged (session.pushed.drop sys.session.pushed.length) origins
      submittedOn
      processed := sys.processed ++ [⟨times, q.message⟩] } := by
  obtain ⟨ms, hpushed, hwhole, hanswers⟩ := pushed_of_newOrder ht hlen hs
  generalize hsys : ({ sys with
    inbound
    session
    outbox := tagged (session.pushed.drop sys.session.pushed.length) origins
    submittedOn
    processed := sys.processed ++ [⟨times, q.message⟩] } : System) = sys'
  have hrequests : sys'.requests = sys.requests := by
    rw [← hsys, requests, requests, hin]
    simp
  have hflow : sys'.flow = sys.flow ++ ms := by
    rw [← hsys, flow, flow, hout, hpushed, List.drop_left, List.map_append, List.map_append,
      map_message_tagged, List.map_nil, List.append_nil, List.append_assoc]
  subst hsys
  refine ⟨h.opened, ?_, ?_, h.logged, fun m hm => ?_, fun fd => ?_⟩
  · rw [hrequests]
    exact h.closed
  · rw [hrequests]
    exact h.synced
  · rw [hflow] at hm
    rcases List.mem_append.mp hm with hm | hm
    · exact h.whole m hm
    · exact hwhole m hm
  · rw [hflow, answersTo_append, h.answers fd, hanswers, List.map_append, List.filter_append,
      List.map_append]
    congr 1
    by_cases hfd : q.message.fd = fd
    · simp [hfd]
    · simp [hfd]

/-- A message is pushed to the outbound ring. -/
theorem push {d : Outgoing} {outbox : List Outgoing} (h : sys.Ordered bytes)
    (hd : sys.outbox = d :: outbox) :
    Ordered bytes { sys with outbox, outbound := sys.outbound ++ [d] } := by
  have hflow : sys.appended.map Appended.message
      ++ (sys.outbound ++ [d] ++ outbox).map Outgoing.message = sys.flow := by
    rw [flow, hd, List.append_assoc, List.singleton_append]
  refine ⟨h.opened, h.closed, h.synced, h.logged, ?_, fun fd => ?_⟩
  · rw [flow, hflow]
    exact h.whole
  · rw [flow, hflow]
    exact h.answers fd

section Clients

variable {payloads : Fd → List (List UInt8)}
  (hlen : ∀ fd, ∀ payload ∈ payloads fd, payload.length = 22)

include hlen

/-- The requests are the ones that the clients have sent. -/
theorem requests_prefix (h : sys.Ordered bytes) {fd : Fd}
    (hsent : bytes fd <+: requestStream (payloads fd))
    (hactive : (sys.server.client fd).active = true) :
    sys.requests.filter (fun m => m.fd = fd) <+: requestsFrom fd (payloads fd) :=
  (h.synced fd hactive).requests (hlen fd) hsent

/-- The requests are for new orders. -/
theorem newOrder_of_mem (h : sys.Ordered bytes)
    (hsent : ∀ fd, bytes fd <+: requestStream (payloads fd)) {m : InboundMessage}
    (hm : m ∈ sys.requests) : m.type = .NEW_ORDER ∧ m.payload.length = 22 := by
  have hactive : (sys.server.client m.fd).active = true := by
    by_contra hclosed
    exact (h.closed m.fd (Bool.eq_false_iff.mpr hclosed)).2 m hm rfl
  have hmem : m ∈ requestsFrom m.fd (payloads m.fd) := by
    refine (h.requests_prefix hlen (hsent m.fd) hactive).subset ?_
    exact List.mem_filter.mpr ⟨hm, decide_eq_true rfl⟩
  obtain ⟨payload, hpayload, heq⟩ := List.mem_map.mp hmem
  rw [← heq]
  exact ⟨rfl, hlen m.fd payload hpayload⟩

/-- **A step that closes no connection** keeps the invariant. -/
theorem step {sys' : System} {e : Event} (h : sys.Ordered bytes)
    (hsent : ∀ fd, bytes fd <+: requestStream (payloads fd)) (hs : sys.step e = some sys')
    (hkeep : keepsOpen sys sys' = true) :
    sys'.Ordered fun fd => bytes fd ++ sys.receives fd e := by
  -- steps that read nothing
  have hnone : (∀ fd, sys.receives fd e = []) → sys'.Ordered bytes →
      sys'.Ordered fun fd => bytes fd ++ sys.receives fd e := by
    intro hnil hordered
    have hsame : (fun fd => bytes fd ++ sys.receives fd e) = bytes := by
      funext fd
      rw [hnil fd, List.append_nil]
    rw [hsame]
    exact hordered
  have hactive : ∀ fd, (sys.server.client fd).active = true →
      (sys'.server.client fd).active = true := fun _ => active_of_keepsOpen hkeep
  cases e with
  | accept fd =>
    obtain ⟨server, hserver, rfl⟩ := Option.map_eq_some_iff.mp hs
    exact hnone (fun _ => rfl) (h.accept hserver)
  | read fd arrivals room =>
    obtain ⟨⟨server, messages⟩, hserver, rfl⟩ := Option.map_eq_some_iff.mp hs
    exact h.read hserver hactive
  | drain =>
    obtain ⟨d, outbound, hd, rfl⟩ := drain_cases hs
    exact hnone (fun _ => rfl) (h.drain hd)
  | trySend fd writable =>
    obtain ⟨server, hserver, rfl⟩ := Option.map_eq_some_iff.mp hs
    exact hnone (fun _ => rfl) (h.sends (.trySend hserver) hactive)
  | flush writable =>
    obtain ⟨server, hserver, rfl⟩ := Option.map_eq_some_iff.mp hs
    exact hnone (fun _ => rfl) (h.sends (.flushPendingWrites hserver) hactive)
  | write fd writable =>
    obtain ⟨server, hserver, rfl⟩ := Option.map_eq_some_iff.mp hs
    exact hnone (fun _ => rfl) (h.sends (.handleWrite hserver) hactive)
  | disconnect fd =>
    obtain ⟨client, hc, -, rfl⟩ := disconnect_cases hs
    exact hnone (fun _ => rfl) (h.sends (.disconnectClient hc) hactive)
  | process times =>
    obtain ⟨q, inbound, session, hout, hin, hsession, rfl⟩ := process_cases hs
    have hmem : q.message ∈ sys.requests := by
      rw [requests, hin]
      exact List.mem_append_right _ List.mem_cons_self
    obtain ⟨ht, hsize⟩ := h.newOrder_of_mem hlen hsent hmem
    exact hnone (fun _ => rfl) (h.process hout hin hsession ht (Nat.le_of_eq hsize.symm))
  | push =>
    obtain ⟨d, outbox, hd, rfl⟩ := push_cases hs
    exact hnone (fun _ => rfl) (h.push hd)

/-- **A run in which no connection is closed** keeps the invariant. -/
theorem run {reserved : Fd → Bool} {events : List Event}
    (hrun : System.run reserved events = some sys)
    (hopen : staysOpen (start reserved) events = true)
    (hsent : ∀ fd, received fd (start reserved) events <+: requestStream (payloads fd)) :
    ∃ bytes, (∀ fd, bytes fd <+: requestStream (payloads fd)) ∧ sys.Ordered bytes := by
  have hend := foldlM_some_invariant (P := fun es t => ∃ bytes : Fd → List UInt8,
    (∀ fd, bytes fd ++ received fd t es <+: requestStream (payloads fd)) ∧
      staysOpen t es = true ∧ t.Ordered bytes) ?_ events _
    ⟨fun _ => [], hsent, hopen, ordered_start reserved⟩ hrun
  · obtain ⟨bytes, hsent, -, hordered⟩ := hend
    refine ⟨bytes, fun fd => ?_, hordered⟩
    have hfd := hsent fd
    rw [received, List.append_nil] at hfd
    exact hfd
  · intro e es t t' ⟨bytes, hsent, hopen, hordered⟩ hs _
    rw [staysOpen, hs, Bool.and_eq_true] at hopen
    refine ⟨fun fd => bytes fd ++ t.receives fd e, fun fd => ?_, hopen.2, ?_⟩
    · have hfd := hsent fd
      rw [received, hs, ← List.append_assoc] at hfd
      exact hfd
    · exact hordered.step hlen (fun fd => (List.prefix_append _ _).trans (hsent fd)) hs hopen.1

end Clients

end Ordered

end System

/-- What has been drained for the connection of a descriptor, when none has been closed. -/
theorem System.Ordered.drainedFor_eq {sys : System} {bytes : Fd → List UInt8}
    (h : sys.Ordered bytes) (fd : Fd) :
    sys.drainedFor fd = (((sys.appended.map Appended.message).filter fun m => m.fd = fd).map
      OutboundMessage.payload).flatten := by
  have hconn : sys.appended.filter (fun a => a.fd = fd ∧ a.conn = sys.connOf fd)
      = sys.appended.filter fun a => a.fd = fd := by
    apply List.filter_congr
    intro a ha
    by_cases hfd : a.fd = fd
    · have hnum := (h.logged a ha).2
      rw [hfd] at hnum
      simp [hfd, hnum]
    · simp [hfd]
  rw [System.drainedFor, hconn, List.filter_map, List.map_map]
  rfl

/-- **Pipelined replies come back in request order.**  Clients send requests for new orders
without waiting, valid ones or not.  In every run in which no connection is closed, at
every moment and for every connection: the acknowledgements and rejections among the bytes
that the kernel has taken for it are the answers to its first requests, one for each, in
the order in which they were sent, and each answer carries the id of its request. -/
theorem pipelined_replies_ordered {reserved : Fd → Bool} {events : List Event} {sys : System}
    (payloads : Fd → List (List UInt8))
    (hlen : ∀ fd, ∀ payload ∈ payloads fd, payload.length = 22)
    (hrun : System.run reserved events = some sys)
    (hopen : System.staysOpen (.start reserved) events = true)
    (hsent : ∀ fd, System.received fd (.start reserved) events <+: requestStream (payloads fd))
    (fd : Fd) (hactive : (sys.server.client fd).active = true) :
    answersOf (sys.server.wire fd) <+: (payloads fd).map answerOf ∧
      ∀ payload ∈ payloads fd, (answerOf payload).payload.take 8 = payload.take 8 := by
  refine ⟨?_, fun payload hmem => answerOf_id (by rw [hlen fd payload hmem]; decide)⟩
  obtain ⟨bytes, hbytes, h⟩ := System.Ordered.run hlen hrun hopen hsent
  -- what has been sent is part of what has been drained
  have hwire : answersOf (sys.server.wire fd)
      <+: answersTo fd (sys.appended.map Appended.message) := by
    have hprefix : sys.server.wire fd <+: sys.drainedFor fd := by
      rw [← (System.OutInv.run hrun).exact fd hactive]
      exact List.prefix_append _ _
    have hwhole : ∀ m ∈ sys.appended.map Appended.message, Whole m.payload := fun m hm =>
      h.whole m (List.mem_append_left _ hm)
    rw [h.drainedFor_eq fd] at hprefix
    rw [← answersOf_payloads fd hwhole]
    exact answersOf_prefix hprefix
  have hflow : answersTo fd (sys.appended.map Appended.message) <+: answersTo fd sys.flow := by
    rw [System.flow, answersTo_append]
    exact List.prefix_append _ _
  -- which is part of what has been answered, and this of what has been requested
  have hprocessed : (sys.processed.map Input.message).filter (fun m => m.fd = fd)
      <+: requestsFrom fd (payloads fd) := by
    refine List.IsPrefix.trans ?_ (h.requests_prefix hlen (hbytes fd) hactive)
    rw [System.requests, List.filter_append]
    exact List.prefix_append _ _
  have hanswers : answersTo fd sys.flow <+: (payloads fd).map answerOf := by
    have hmap := hprocessed.map fun m => answerOf m.payload
    rw [← h.answers fd, requestsFrom, List.map_map] at hmap
    exact hmap
  exact hwire.trans (hflow.trans hanswers)

/-- Nothing is received on a connection that is not read from. -/
theorem System.received_eq_nil {fd : Fd} {es : List Event}
    (h : ∀ e ∈ es, ∀ arrivals room, e ≠ .read fd arrivals room) :
    ∀ sys : System, received fd sys es = [] := by
  induction es with
  | nil => exact fun _ => rfl
  | cons e es ih =>
    intro sys
    have hnone : sys.receives fd e = [] := by
      cases e with
      | read fd' arrivals room =>
        refine if_neg fun hfd => ?_
        exact h _ List.mem_cons_self arrivals room (by rw [hfd])
      | _ => rfl
    rw [received, hnone, List.nil_append]
    cases sys.step e with
    | none => rfl
    | some sys' => exact ih (fun e' he' => h e' (List.mem_cons_of_mem e he')) sys'

/-- An order that rests, and one of quantity zero. -/
def pipelinedPayloads : List (List UInt8) :=
  [[7, 0, 0, 0, 0, 0, 0, 0, 100, 0, 0, 0, 0, 0, 0, 0, 10, 0, 0, 0, 1, 0],
    [8, 0, 0, 0, 0, 0, 0, 0, 100, 0, 0, 0, 0, 0, 0, 0, 0, 0, 0, 0, 1, 0]]

/-- A client sends both at once.  The second one is read in two parts and pushed in a second
try, and of the answers 21 bytes are sent. -/
def pipelinedEvents : List Event :=
  [.accept 5,
    .read 5 [.chunk 1 [0, 0, 0, 22, 7, 0, 0, 0, 0, 0, 0, 0, 100, 0, 0, 0, 0, 0, 0, 0, 10, 0, 0, 0,
      1, 0, 1, 0, 0, 0, 22, 8]] (fun _ => true),
    .read 5 [.chunk 0 [0, 0, 0, 0, 0, 0, 100, 0, 0, 0, 0, 0, 0, 0, 0, 0, 0, 0, 1, 0]]
      (fun _ => false),
    .process ⟨0, fun _ => 0⟩, .read 5 [] (fun _ => true), .push, .process ⟨0, fun _ => 0⟩, .drain,
    .push, .drain, .trySend 5 (.room 20)]

theorem pipelined_replies_ordered_two :
    ∃ sys, System.run (fun fd => fd < 5) pipelinedEvents = some sys ∧
      (sys.server.wire 5).length = 21 ∧
      answersOf (sys.server.wire 5) <+: pipelinedPayloads.map answerOf := by
  have heval : (System.run (fun fd => fd < 5) pipelinedEvents).map
      (fun sys => ((sys.server.wire 5).length, (sys.server.client 5).active))
        = some (21, true) := by decide +kernel
  obtain ⟨sys, hrun, hsys⟩ := Option.map_eq_some_iff.mp heval
  obtain ⟨hwire, hactive⟩ := Prod.mk.inj hsys
  have hanswers := pipelined_replies_ordered
    (fun fd => if fd = 5 then pipelinedPayloads else []) ?_ hrun ?_ ?_ 5 hactive
  · exact ⟨sys, hrun, hwire, hanswers.1⟩
  · intro fd payload hmem
    split at hmem
    · revert payload
      decide
    · exact absurd hmem List.not_mem_nil
  · decide +kernel
  · intro fd
    by_cases hfd : fd = 5
    · subst hfd
      decide +kernel
    · -- the other connections are not read from
      rw [System.received_eq_nil, if_neg hfd]
      · exact List.prefix_rfl
      · intro e he arrivals room heq
        rw [heq] at he
        simp [pipelinedEvents, hfd] at he

end Exchange
