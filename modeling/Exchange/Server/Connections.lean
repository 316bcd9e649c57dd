import Exchange.Server.Pipelining

/-!
# What is heard on a connection

Descriptors are used again: the requests of a descriptor may come from many connections, one
after another.  Here they are told apart.  In every run, whatever is closed and accepted in
it, what has been pushed for a connection are the frames of the bytes received on this
connection, also when it is closed and requests of it are still in the ring.

## Main definitions

* `System.receivedOn`, `System.incoming` — the bytes received on a connection in a run, and
  the requests pushed in it.
* `System.Heard` — the invariant.

## Main results

* `System.Heard.step`, `System.Heard.run` — a step and a run keep the invariant.
* `System.session_of_run` — the processor does not see that it is part of a system.
* `System.Heard.requests_of` — if a client sends requests for new orders, the requests that
  are pushed for its connection are its first ones.
-/

namespace Exchange

open Bytes

/-- The messages that came from a connection. -/
def fromConn (conn : Conn) (log : List Incoming) : List InboundMessage :=
  (log.filter fun q => q.conn = conn).map Incoming.message

theorem fromConn_append (conn : Conn) (log log' : List Incoming) :
    fromConn conn (log ++ log') = fromConn conn log ++ fromConn conn log' := by
  rw [fromConn, List.filter_append, List.map_append]
  rfl

/-- Messages that all came from one connection. -/
theorem fromConn_map (conn conn' : Conn) (ms : List InboundMessage) :
    fromConn conn (ms.map fun m => ⟨m, conn'⟩) = if conn' = conn then ms else [] := by
  by_cases h : conn' = conn
  · simp [fromConn, List.filter_map, Function.comp_def, h]
  · simp [fromConn, List.filter_map, Function.comp_def, h]

/-- What tells the requests of a connection from each other, and those of two connections,
tells all requests from each other. -/
theorem nodup_of_fromConn {κ : Type*} {f : InboundMessage → κ} {log : List Incoming}
    (hone : ∀ conn, ((fromConn conn log).map f).Nodup)
    (htwo : ∀ q ∈ log, ∀ q' ∈ log, f q.message = f q'.message → q.conn = q'.conn) :
    ((log.map Incoming.message).map f).Nodup := by
  induction log with
  | nil => exact List.nodup_nil
  | cons q log ih =>
    have hsplit : ∀ conn, fromConn conn (q :: log)
        = (if q.conn = conn then [q.message] else []) ++ fromConn conn log :=
      fun conn => (fromConn_append conn [q] log).trans
        (congrArg (· ++ _) (fromConn_map conn q.conn [q.message]))
    rw [List.map_cons, List.map_cons, List.nodup_cons]
    constructor
    · intro hmem
      obtain ⟨m, hm, heq⟩ := List.mem_map.mp hmem
      obtain ⟨q', hq', rfl⟩ := List.mem_map.mp hm
      -- the two are from one connection, where they are told from each other
      have hsame := htwo q' (List.mem_cons_of_mem q hq') q List.mem_cons_self heq
      have hnodup := hone q.conn
      rw [hsplit, if_pos rfl, List.singleton_append, List.map_cons, List.nodup_cons] at hnodup
      refine hnodup.1 (List.mem_map.mpr ⟨q'.message, ?_, heq⟩)
      exact List.mem_map_of_mem (List.mem_filter.mpr ⟨hq', decide_eq_true hsame⟩)
    · refine ih (fun conn => ?_) fun q₁ h₁ q₂ h₂ =>
        htwo q₁ (List.mem_cons_of_mem q h₁) q₂ (List.mem_cons_of_mem q h₂)
      have hnodup := hone conn
      rw [hsplit, List.map_append] at hnodup
      exact (List.nodup_append.mp hnodup).2.1

namespace System

/-- What `handle_read` does in a step. -/
def reading (sys : System) (fd : Fd) (arrivals : List Arrival) (room : ℕ → Bool) : Reading :=
  handleRead room fd (.begin (sys.server.client fd) arrivals)

/-- The bytes that a step receives on a connection. -/
def receivesOn (sys : System) (conn : Conn) : Event → List UInt8
  | .read fd arrivals room =>
      if sys.connOf fd = conn then (sys.reading fd arrivals room).consumed else []
  | _ => []

/-- The requests that a step pushes. -/
def pushes (sys : System) : Event → List Incoming
  | .read fd arrivals room =>
      (sys.reading fd arrivals room).pushed.map fun m => ⟨m, sys.connOf fd⟩
  | _ => []

/-- The bytes that a run receives on a connection. -/
def receivedOn (conn : Conn) : System → List Event → List UInt8
  | _, [] => []
  | sys, e :: es =>
      sys.receivesOn conn e ++ match sys.step e with
        | none => []
        | some sys' => receivedOn conn sys' es

/-- The requests that a run pushes. -/
def incoming : System → List Event → List Incoming
  | _, [] => []
  | sys, e :: es =>
      sys.pushes e ++ match sys.step e with
        | none => []
        | some sys' => incoming sys' es

/-- The invariant, where `bytes conn` has been received on a connection and the requests in
`log` have been pushed. -/
structure Heard (bytes : Conn → List UInt8) (log : List Incoming) (sys : System) : Prop where
  logged : sys.requests = log.map Incoming.message
  opened : ∀ fd, (sys.server.client fd).active = true → sys.server.openFds fd = true
  numbered : ∀ fd, (sys.server.client fd).active = true → sys.connOf fd < sys.numConns
  distinct : ∀ fd fd', (sys.server.client fd).active = true →
    (sys.server.client fd').active = true → sys.connOf fd = sys.connOf fd' → fd = fd'
  fresh : ∀ conn, sys.numConns ≤ conn → bytes conn = [] ∧ fromConn conn log = []
  synced : ∀ fd, (sys.server.client fd).active = true →
    Synced fd (sys.server.client fd) (bytes (sys.connOf fd)) (fromConn (sys.connOf fd) log)
  framed : ∀ conn, ∃ fd client, Synced fd client (bytes conn) (fromConn conn log)

/-- What `handle_read` does to the server: a connection that is open afterwards was open
before, and nothing is received on one that is not. -/
theorem handleRead_slot {sys : System} {server : ExchangeServer} {fd : Fd}
    {arrivals : List Arrival} {room : ℕ → Bool} {messages : List InboundMessage}
    (hs : sys.server.handleRead room arrivals fd = some (server, messages)) :
    messages = (sys.reading fd arrivals room).pushed ∧ OnlyAt fd sys.server server ∧
      ((server.client fd).active = true → (sys.server.client fd).active = true ∧
        server.client fd = (sys.reading fd arrivals room).client ∧
        server.openFds = sys.server.openFds) ∧
      ((sys.server.client fd).active = false →
        (sys.reading fd arrivals room).consumed = [] ∧
        (sys.reading fd arrivals room).pushed = []) := by
  obtain ⟨c, hc, heq⟩ := Option.map_eq_some_iff.mp hs
  obtain rfl := ExchangeServer.client_of_some hc
  obtain ⟨hserver, rfl⟩ := Prod.mk.inj heq
  refine ⟨rfl, ?_, fun hactive => ?_, fun hclosed => ?_⟩
  · rw [← hserver]
    exact onlyAt_handleRead _ _ _ _
  · rw [← hserver] at hactive ⊢
    obtain ⟨hset, hopen⟩ := handleRead_open hc hactive
    rw [hset]
    exact ⟨hopen, ExchangeServer.client_setClient_self hc _, rfl⟩
  · rw [reading, handleRead_of_closed hclosed]
    exact ⟨rfl, rfl⟩

namespace Heard

variable {sys : System} {bytes : Conn → List UInt8} {log : List Incoming}

theorem heard_start (reserved : Fd → Bool) : (start reserved).Heard (fun _ => []) [] := by
  have hclosed := closed_start reserved
  have habsurd : ∀ {fd}, ((start reserved).server.client fd).active = true → False :=
    fun {fd} hactive => Bool.false_ne_true ((hclosed fd).symm.trans hactive)
  exact ⟨rfl, fun _ h => (habsurd h).elim, fun _ h => (habsurd h).elim,
    fun _ _ h => (habsurd h).elim, fun _ _ => ⟨rfl, rfl⟩, fun _ h => (habsurd h).elim,
    fun _ => ⟨0, _, synced_accepted 0⟩⟩

/-- Bytes are sent, or a connection is closed. -/
theorem sends {server : ExchangeServer} (h : sys.Heard bytes log)
    (hout : OutOnly sys.server server) : Heard bytes log { sys with server } where
  logged := h.logged
  opened := by
    intro fd hactive
    rw [(hout fd hactive).1]
    exact h.opened fd (hout.active hactive)
  numbered := fun fd hactive => h.numbered fd (hout.active hactive)
  distinct := fun fd fd' hactive hactive' =>
    h.distinct fd fd' (hout.active hactive) (hout.active hactive')
  fresh := h.fresh
  synced := by
    intro fd hactive
    obtain ⟨-, buffer, sent, heq⟩ := hout fd hactive
    show Synced fd (server.client fd) _ _
    rw [heq]
    exact (h.synced fd (hout.active hactive)).outOnly buffer sent
  framed := h.framed

/-- A connection is accepted, with a number that is new. -/
theorem accept {fd : Fd} {server : ExchangeServer} (h : sys.Heard bytes log)
    (hs : sys.server.acceptClient fd = some server) :
    Heard bytes log { sys with
      server
      connOf := Function.update sys.connOf fd sys.numConns
      numConns := sys.numConns + 1 } := by
  have hclient := (ExchangeServer.acceptClient_client hs).1
  have honly := onlyAt_acceptClient hs
  obtain ⟨-, hopen, -⟩ := ExchangeServer.acceptClient_kernel hs
  -- the other connections keep their slots and their numbers
  have hold : ∀ {fd'}, fd' ≠ fd → (server.client fd').active = true →
      (sys.server.client fd').active = true := by
    intro fd' hfd hactive
    rw [← (honly fd' hfd).1]
    exact hactive
  have hconn : ∀ {fd'}, fd' ≠ fd →
      Function.update sys.connOf fd sys.numConns fd' = sys.connOf fd' :=
    fun hfd => Function.update_of_ne hfd _ _
  have hself : Function.update sys.connOf fd sys.numConns fd = sys.numConns :=
    Function.update_self ..
  constructor
  · exact h.logged
  · intro fd' hactive
    by_cases hfd : fd' = fd
    · rw [hfd]
      exact hopen
    · show server.openFds fd' = true
      rw [(honly fd' hfd).2.2]
      exact h.opened fd' (hold hfd hactive)
  · intro fd' hactive
    show Function.update sys.connOf fd sys.numConns fd' < sys.numConns + 1
    by_cases hfd : fd' = fd
    · rw [hfd, hself]
      exact Nat.lt_succ_self _
    · rw [hconn hfd]
      exact Nat.lt_succ_of_lt (h.numbered fd' (hold hfd hactive))
  · intro fd₁ fd₂ hactive₁ hactive₂ hsame
    simp only at hsame
    by_cases h₁ : fd₁ = fd
    · by_cases h₂ : fd₂ = fd
      · rw [h₁, h₂]
      · rw [h₁, hself, hconn h₂] at hsame
        exact absurd (h.numbered fd₂ (hold h₂ hactive₂)) (Nat.not_lt_of_le (Nat.le_of_eq hsame))
    · by_cases h₂ : fd₂ = fd
      · rw [h₂, hself, hconn h₁] at hsame
        exact absurd (h.numbered fd₁ (hold h₁ hactive₁)) 
          (Nat.not_lt_of_le (Nat.le_of_eq hsame.symm))
      · rw [hconn h₁, hconn h₂] at hsame
        exact h.distinct fd₁ fd₂ (hold h₁ hactive₁) (hold h₂ hactive₂) hsame
  · exact fun conn hge => h.fresh conn (Nat.le_of_succ_le hge)
  · intro fd' hactive
    show Synced fd' (server.client fd') (bytes (Function.update sys.connOf fd sys.numConns fd'))
      (fromConn (Function.update sys.connOf fd sys.numConns fd') log)
    by_cases hfd : fd' = fd
    · obtain ⟨hbytes, hnone⟩ := h.fresh sys.numConns (Nat.le_refl _)
      rw [hfd, hself, hbytes, hnone, hclient]
      exact synced_accepted fd
    · rw [hconn hfd, (honly fd' hfd).1]
      exact h.synced fd' (hold hfd hactive)
  · exact h.framed

/-- Frames are read: what is received and what is pushed for the connection grow
together. -/
theorem read {fd : Fd} {arrivals : List Arrival} {room : ℕ → Bool} {server : ExchangeServer}
    {messages : List InboundMessage} (h : sys.Heard bytes log)
    (hs : sys.server.handleRead room arrivals fd = some (server, messages)) :
    Heard (fun conn => bytes conn ++ sys.receivesOn conn (.read fd arrivals room))
      (log ++ sys.pushes (.read fd arrivals room)) { sys with
        server
        inbound := sys.inbound ++ messages.map fun m => ⟨m, sys.connOf fd⟩ } := by
  obtain ⟨rfl, honly, hopen, hidle⟩ := handleRead_slot hs
  generalize hr : sys.reading fd arrivals room = r at hopen hidle
  have hbytes : ∀ conn, sys.receivesOn conn (.read fd arrivals room)
      = if sys.connOf fd = conn then r.consumed else [] := by
    intro conn
    rw [receivesOn, hr]
  have hpushes : ∀ conn, fromConn conn (log ++ sys.pushes (.read fd arrivals room))
      = fromConn conn log ++ if sys.connOf fd = conn then r.pushed else [] := by
    intro conn
    rw [fromConn_append, pushes, fromConn_map, hr]
  -- the connection of the descriptor goes on where it was, if it is open
  have hself : (sys.server.client fd).active = true →
      Synced fd r.client (bytes (sys.connOf fd) ++ r.consumed)
        (fromConn (sys.connOf fd) log ++ r.pushed) :=
    fun hactive => (h.synced fd hactive).handleRead room arrivals hr.symm
  have hold : ∀ {fd'}, (server.client fd').active = true →
      (sys.server.client fd').active = true := by
    intro fd' hactive
    by_cases hfd : fd' = fd
    · rw [hfd] at hactive ⊢
      exact (hopen hactive).1
    · rw [← (honly fd' hfd).1]
      exact hactive
  constructor
  · show sys.processed.map Input.message ++ (sys.inbound ++ _).map Incoming.message = _
    rw [List.map_append, List.map_append, ← h.logged, ← List.append_assoc, pushes, hr]
    rfl
  · intro fd' hactive
    show server.openFds fd' = true
    by_cases hfd : fd' = fd
    · rw [hfd] at hactive ⊢
      rw [(hopen hactive).2.2]
      exact h.opened fd (hopen hactive).1
    · rw [(honly fd' hfd).2.2]
      exact h.opened fd' (hold hactive)
  · exact fun fd' hactive => h.numbered fd' (hold hactive)
  · exact fun fd₁ fd₂ hactive₁ hactive₂ => h.distinct fd₁ fd₂ (hold hactive₁) (hold hactive₂)
  · intro conn hge
    obtain ⟨hnil, hnone⟩ := h.fresh conn hge
    rw [hpushes, hnil, hnone, hbytes]
    by_cases hconn : sys.connOf fd = conn
    · -- a descriptor without a connection is not read from
      have hclosed : (sys.server.client fd).active = false := by
        rw [Bool.eq_false_iff]
        intro hactive
        have hlt := h.numbered fd hactive
        rw [hconn] at hlt
        exact absurd hge (Nat.not_le_of_lt hlt)
      rw [if_pos hconn, if_pos hconn, (hidle hclosed).1, (hidle hclosed).2]
      exact ⟨rfl, rfl⟩
    · rw [if_neg hconn, if_neg hconn]
      exact ⟨rfl, rfl⟩
  · intro fd' hactive
    show Synced fd' (server.client fd') (bytes (sys.connOf fd') ++ _) (fromConn (sys.connOf fd') _)
    rw [hpushes, hbytes]
    by_cases hfd : fd' = fd
    · rw [hfd] at hactive ⊢
      rw [if_pos rfl, if_pos rfl, (hopen hactive).2.1]
      exact hself (hopen hactive).1
    · rw [(honly fd' hfd).1]
      by_cases hconn : sys.connOf fd = sys.connOf fd'
      · -- two descriptors have one number only if the one that is read is closed
        have hclosed : (sys.server.client fd).active = false := by
          rw [Bool.eq_false_iff]
          exact fun hopened => hfd (h.distinct fd' fd (hold hactive) hopened hconn.symm)
        rw [if_pos hconn, if_pos hconn, (hidle hclosed).1, (hidle hclosed).2, List.append_nil,
          List.append_nil]
        exact h.synced fd' (hold hactive)
      · rw [if_neg hconn, if_neg hconn, List.append_nil, List.append_nil]
        exact h.synced fd' (hold hactive)
  · intro conn
    rw [hpushes, hbytes]
    by_cases hconn : sys.connOf fd = conn
    · rw [if_pos hconn, if_pos hconn]
      cases hactive : (sys.server.client fd).active with
      | true =>
        refine ⟨fd, r.client, ?_⟩
        rw [← hconn]
        exact hself hactive
      | false =>
        rw [(hidle hactive).1, (hidle hactive).2, List.append_nil, List.append_nil]
        exact h.framed conn
    · rw [if_neg hconn, if_neg hconn, List.append_nil, List.append_nil]
      exact h.framed conn

/-- The processor takes requests from the ring; none is lost. -/
theorem quiet {sys' : System} (h : sys.Heard bytes log) (hserver : sys'.server = sys.server)
    (hconn : sys'.connOf = sys.connOf) (hnum : sys'.numConns = sys.numConns)
    (hrequests : sys'.requests = sys.requests) : sys'.Heard bytes log := by
  obtain ⟨hlogged, hopened, hnumbered, hdistinct, hfresh, hsynced, hframed⟩ := h
  rw [← hserver, ← hconn] at hsynced hdistinct
  rw [← hserver] at hopened
  rw [← hserver, ← hconn, ← hnum] at hnumbered
  rw [← hnum] at hfresh
  exact ⟨hrequests.trans hlogged, hopened, hnumbered, hdistinct, hfresh, hsynced, hframed⟩

/-- **A step keeps the invariant.** -/
theorem step {sys' : System} {e : Event} (h : sys.Heard bytes log) (hs : sys.step e = some sys') :
    sys'.Heard (fun conn => bytes conn ++ sys.receivesOn conn e) (log ++ sys.pushes e) := by
  -- steps that read nothing
  have hnone : (∀ conn, sys.receivesOn conn e = []) → sys.pushes e = [] → sys'.Heard bytes log →
      sys'.Heard (fun conn => bytes conn ++ sys.receivesOn conn e) (log ++ sys.pushes e) := by
    intro hnil hpush hheard
    have hsame : (fun conn => bytes conn ++ sys.receivesOn conn e) = bytes := by
      funext conn
      rw [hnil conn, List.append_nil]
    rw [hsame, hpush, List.append_nil]
    exact hheard
  cases e with
  | accept fd =>
    obtain ⟨server, hserver, rfl⟩ := Option.map_eq_some_iff.mp hs
    exact hnone (fun _ => rfl) rfl (h.accept hserver)
  | read fd arrivals room =>
    obtain ⟨⟨server, messages⟩, hserver, rfl⟩ := Option.map_eq_some_iff.mp hs
    exact h.read hserver
  | drain =>
    obtain ⟨d, outbound, -, rfl⟩ := drain_cases hs
    have hsent := h.sends (.drainMessage sys.server d.message)
    exact hnone (fun _ => rfl) rfl (hsent.quiet rfl rfl rfl rfl)
  | trySend fd writable =>
    obtain ⟨server, hserver, rfl⟩ := Option.map_eq_some_iff.mp hs
    exact hnone (fun _ => rfl) rfl (h.sends (.trySend hserver))
  | flush writable =>
    obtain ⟨server, hserver, rfl⟩ := Option.map_eq_some_iff.mp hs
    exact hnone (fun _ => rfl) rfl (h.sends (.flushPendingWrites hserver))
  | write fd writable =>
    obtain ⟨server, hserver, rfl⟩ := Option.map_eq_some_iff.mp hs
    exact hnone (fun _ => rfl) rfl (h.sends (.handleWrite hserver))
  | disconnect fd =>
    obtain ⟨client, hc, -, rfl⟩ := disconnect_cases hs
    exact hnone (fun _ => rfl) rfl (h.sends (.disconnectClient hc))
  | process times =>
    obtain ⟨q, inbound, session, -, hin, -, rfl⟩ := process_cases hs
    refine hnone (fun _ => rfl) rfl (h.quiet rfl rfl rfl ?_)
    simp [requests, hin]
  | push =>
    obtain ⟨d, outbox, -, rfl⟩ := push_cases hs
    exact hnone (fun _ => rfl) rfl (h.quiet rfl rfl rfl rfl)

/-- **A run keeps the invariant.** -/
theorem run {reserved : Fd → Bool} {events : List Event}
    (hrun : System.run reserved events = some sys) :
    sys.Heard (fun conn => receivedOn conn (start reserved) events)
      (incoming (start reserved) events) := by
  have hend := foldlM_some_invariant (P := fun es t => ∃ bytes log, t.Heard bytes log ∧
    (∀ conn, bytes conn ++ receivedOn conn t es = receivedOn conn (start reserved) events) ∧
      log ++ incoming t es = incoming (start reserved) events) ?_ events _
    ⟨fun _ => [], [], heard_start reserved, fun _ => rfl, rfl⟩ hrun
  · obtain ⟨bytes, log, hheard, hbytes, hlog⟩ := hend
    rw [incoming, List.append_nil] at hlog
    have hall : bytes = fun conn => receivedOn conn (start reserved) events := by
      funext conn
      have hconn := hbytes conn
      rw [receivedOn, List.append_nil] at hconn
      exact hconn
    rw [← hlog, ← hall]
    exact hheard
  · rintro e es t t' ⟨bytes, log, hheard, hbytes, hlog⟩ hs -
    refine ⟨_, _, hheard.step hs, fun conn => ?_, ?_⟩
    · have hconn := hbytes conn
      rw [receivedOn, hs, ← List.append_assoc] at hconn
      exact hconn
    · rw [incoming, hs, ← List.append_assoc] at hlog
      exact hlog

/-- The requests pushed for a connection are the first ones that its client has sent. -/
theorem requests_of (h : sys.Heard bytes log) {conn : Conn} {payloads : List (List UInt8)}
    (hlen : ∀ payload ∈ payloads, payload.length = 22)
    (hsent : bytes conn <+: requestStream payloads) :
    ∃ fd, fromConn conn log <+: requestsFrom fd payloads := by
  obtain ⟨fd, client, hsynced⟩ := h.framed conn
  exact ⟨fd, hsynced.requests hlen hsent⟩

/-- The number of the connection of a request. -/
theorem conn_lt (h : sys.Heard bytes log) {q : Incoming} (hq : q ∈ log) :
    q.conn < sys.numConns := by
  by_contra hge
  have hnone := (h.fresh q.conn (Nat.le_of_not_lt hge)).2
  have hmem : q.message ∈ fromConn q.conn log :=
    List.mem_map_of_mem (List.mem_filter.mpr ⟨hq, decide_eq_true rfl⟩)
  rw [hnone] at hmem
  exact absurd hmem List.not_mem_nil

end Heard

/-! ### The processor -/

/-- The processor is where it would be had it done the requests one after another, alone. -/
theorem session_of_run {reserved : Fd → Bool} {events : List Event} {sys : System}
    (h : System.run reserved events = some sys) :
    Session.empty.run (fun _ => 0) sys.processed = .ok sys.session := by
  refine foldlM_some_invariant (P := fun _ (sys : System) =>
    Session.empty.run (fun _ => 0) sys.processed = .ok sys.session) ?_ events _ rfl h
  intro e _ s s' hsession hs _
  cases System.steps hs with
  | process _ _ hp =>
    rw [Session.run, List.foldlM_append, ← Session.run, hsession]
    show (Session.step _ s.session _ >>= pure : Except Fault Session) = _
    rw [bind_pure]
    exact hp
  | accept _ => exact hsession
  | read _ => exact hsession
  | drain _ => exact hsession
  | server _ _ => exact hsession
  | push _ => exact hsession

end System

end Exchange
