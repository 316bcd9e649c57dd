import Exchange.Processor.Routing
import Exchange.System

/-!
# Descriptors that are used again

A connection that is closed leaves traces: requests in the inbound ring, messages on
their way to the outbound ring and in it, and routes of orders that rest.  All of them
name the connection by its descriptor, and the kernel may hand out the descriptor again.
The check in `drain_outbound_queue` that the slot is active drops what is left over for
a descriptor that is closed, but not for one that is open again.

As long as no descriptor is handed out while there are traces of it, every connection
receives its own traffic only.  `Exchange.Server.Misdelivery` is about an accept that breaks
this.

## Main definitions

* `System.Unused` — there are no traces of a descriptor.
* `FreshAccepts` — no descriptor is handed out while there are traces of it.
* `Own` — the invariant: whatever names a descriptor means the connection that has it.

## Main results

* `Own.step` — a step keeps the invariant, when a descriptor it hands out is unused.
* `own_traffic` — every connection receives its own traffic only.
* `own_traffic_reused` — a run in which a descriptor without traces is handed out again.
* `foreign_reply` — a run in which a connection receives the reply to a request of the
  connection that had the descriptor before.
-/

namespace Exchange

open Bytes MatchingEngine

/-! ### The messages pushed for a request -/

theorem tagged_append {ms : List OutboundMessage} {os : List (Option Conn)}
    (h : ms.length = os.length) (ms' : List OutboundMessage) (os' : List (Option Conn)) :
    tagged (ms ++ ms') (os ++ os') = tagged ms os ++ tagged ms' os' := by
  induction ms generalizing os with
  | nil =>
    rw [List.length_nil] at h
    rw [List.eq_nil_of_length_eq_zero h.symm]
    rfl
  | cons m ms ih =>
    cases os with
    | nil => exact absurd h (by simp)
    | cons o os =>
      rw [List.cons_append, List.cons_append, tagged, tagged, ih (Nat.succ.inj h)]
      rfl

theorem tagged_map {α : Type*} (f : α → OutboundMessage) (g : α → Option Conn) (xs : List α) :
    tagged (xs.map f) (xs.map g) = xs.map fun x => ⟨f x, g x⟩ := by
  induction xs with
  | nil => rfl
  | cons x xs ih => rw [List.map_cons, List.map_cons, tagged, ih]; rfl

section Requests

variable {sys : System} {i : Input} {s' : Session}

/-- The outgoing messages of a request that submits no order. -/
theorem tagged_of_none {failures : ℕ → ℕ} (h : sys.session.step failures i = .ok s')
    (hacc : i.accepted = none) (conn : Conn) :
    ∃ reply, tagged (s'.pushed.drop sys.session.pushed.length) (sys.origins i conn)
      = [⟨⟨i.message.fd, reply⟩, some conn⟩] := by
  obtain ⟨reply, hpushed⟩ := pushed_of_none h hacc
  refine ⟨reply, ?_⟩
  rw [hpushed, List.drop_left, System.origins, hacc]
  rfl

/-- The outgoing messages of an order: the notices, each of which belongs to the
connection of the resting order, and the reply. -/
theorem tagged_of_submits {order : Order} (h : sys.session.Submits i order s') (conn : Conn) :
    ∃ reply, tagged (s'.pushed.drop sys.session.pushed.length) (sys.origins i conn)
      = (tradesOf sys.session.processor.book i).map (fun t =>
          ⟨⟨(Function.update sys.session.processor.orderToClientFd order.id (some i.message.fd)
              (t.counterparty order.side)).getD 0, (tradeFrame t).bytes⟩,
            sys.submittedOn (t.counterparty order.side)⟩)
        ++ [⟨⟨i.message.fd, reply⟩, some conn⟩] := by
  refine ⟨((tradesOf sys.session.processor.book i).map fun t => (tradeFrame t).bytes).flatten
    ++ (ackFrame order.id).bytes, ?_⟩
  rw [h.pushed, List.append_assoc, List.drop_left, System.origins, h.accepted]
  simp only
  rw [tagged_append (by rw [notices, List.length_map, List.length_map]), notices, tagged_map]
  rfl

/-- The id of an order that rests after a request is one that rested before, or that of
the order the request submits. -/
theorem id_of_mem_resting {failures : ℕ → ℕ} {inputs : List Input} {s : Session}
    (hr : Routed inputs s) (h : s.step failures i = .ok s') {b : Price × Node}
    (hb : b ∈ s'.processor.book.resting) :
    s.processor.book.Rests b.2.order.id ∨
      ∃ order, i.accepted = some order ∧ b.2.order.id = order.id := by
  obtain ⟨s₁, hs₁, -, ⟨order, hsub⟩ | ⟨-, hsame, -⟩ | ⟨loc, n, -, -, -, -, hid, hrem, -⟩⟩ :=
    step_cases failures hr.inv (wellFormed_of_step h)
  all_goals obtain rfl := Except.ok.inj (h.symm.trans hs₁)
  · rw [hsub.book] at hb
    rcases OrderBook.mem_step_matchOrder hsub.constructed _ hb with ⟨a, ha, hab⟩ | ⟨-, hnew⟩
    · exact Or.inl ⟨a, ha, (fixedPart_inj hab).2.2.1⟩
    · exact Or.inr ⟨order, hsub.accepted, hnew⟩
  · rw [hsame] at hb
    exact Or.inl ⟨b, hb, rfl⟩
  · exact Or.inl ⟨b, (OrderBook.mem_of_removes hrem hr.indexed hr.inv hid hb).1, rfl⟩

end Requests

/-! ### The invariant -/

/-- There are no traces of a descriptor: no message in a ring or on its way to one names
it, and no resting order is routed to it. -/
structure System.Unused (sys : System) (fd : Fd) : Prop where
  inbound : ∀ q ∈ sys.inbound, q.message.fd ≠ fd
  outgoing : ∀ d ∈ sys.outbox ++ sys.outbound, d.message.fd ≠ fd
  routes : ∀ a ∈ sys.session.processor.book.resting,
    sys.session.processor.orderToClientFd a.2.order.id ≠ some fd

instance (sys : System) (fd : Fd) : Decidable (sys.Unused fd) :=
  decidable_of_iff ((∀ q ∈ sys.inbound, q.message.fd ≠ fd) ∧
      (∀ d ∈ sys.outbox ++ sys.outbound, d.message.fd ≠ fd) ∧
      ∀ a ∈ sys.session.processor.book.resting,
        sys.session.processor.orderToClientFd a.2.order.id ≠ some fd)
    ⟨fun h => ⟨h.1, h.2.1, h.2.2⟩, fun h => ⟨h.inbound, h.outgoing, h.routes⟩⟩

/-- No step of a run hands out a descriptor of which there are traces. -/
def FreshAccepts : System → List Event → Prop
  | _, [] => True
  | sys, e :: es =>
      (∀ fd, e = .accept fd → sys.Unused fd) ∧
        ∀ sys', sys.step e = some sys' → FreshAccepts sys' es

instance decidableFreshAccepts :
    (sys : System) → (events : List Event) → Decidable (FreshAccepts sys events)
  | _, [] => .isTrue trivial
  | sys, e :: es =>
      haveI : Decidable (∀ fd, e = .accept fd → sys.Unused fd) :=
        match e with
        | .accept fd => decidable_of_iff (sys.Unused fd)
            ⟨fun h _ heq => Event.accept.inj heq ▸ h, fun h => h fd rfl⟩
        | .read _ _ _ | .drain | .trySend _ _ | .flush _ | .write _ _ | .disconnect _
        | .process _ | .push => .isTrue nofun
      haveI : Decidable (∀ sys', sys.step e = some sys' → FreshAccepts sys' es) :=
        match sys.step e with
        | none => .isTrue nofun
        | some sys' =>
            haveI := decidableFreshAccepts sys' es
            decidable_of_iff (FreshAccepts sys' es)
              ⟨fun h _ heq => Option.some.inj heq ▸ h, fun h => h sys' rfl⟩
      inferInstanceAs (Decidable (_ ∧ _))

/-- Whatever names a descriptor means the connection that has it, or had it last, and
what has been added to write buffers was the connection's own. -/
structure Own (sys : System) : Prop where
  routed : Routed sys.processed sys.session
  inbound : ∀ q ∈ sys.inbound, q.conn = sys.connOf q.message.fd
  outgoing : ∀ d ∈ sys.outbox ++ sys.outbound, d.origin = some (sys.connOf d.message.fd)
  resting : ∀ a ∈ sys.session.processor.book.resting, ∀ fd,
    submitterOf sys.processed a.2.order.id = some fd →
      sys.submittedOn a.2.order.id = some (sys.connOf fd)
  appended : ∀ a ∈ sys.appended, a.origin = some a.conn

theorem own_start (reserved : Fd → Bool) : Own (.start reserved) where
  routed := routed_empty
  inbound := fun _ hq => absurd hq List.not_mem_nil
  outgoing := fun _ hd => absurd hd List.not_mem_nil
  resting := fun _ ha => absurd ha List.not_mem_nil
  appended := fun _ ha => absurd ha List.not_mem_nil

namespace Own

variable {sys sys' : System}

/-- A descriptor of which there are no traces is handed out. -/
theorem accept (h : Own sys) {fd : Fd} (hu : sys.Unused fd) (server : ExchangeServer) :
    Own { sys with
      server
      connOf := Function.update sys.connOf fd sys.numConns
      numConns := sys.numConns + 1 } where
  routed := h.routed
  inbound := by
    intro q hq
    rw [h.inbound q hq]
    exact (Function.update_of_ne (hu.inbound q hq) _ _).symm
  outgoing := by
    intro d hd
    rw [h.outgoing d hd]
    exact congrArg some (Function.update_of_ne (hu.outgoing d hd) _ _).symm
  resting := by
    intro a ha fd' hfd'
    obtain ⟨fd₁, hsub, hroute⟩ := h.routed.routes a ha
    obtain rfl := Option.some.inj (hsub.symm.trans hfd')
    -- the order is routed to its submitter, and so not to the new descriptor
    have hne : fd₁ ≠ fd := fun heq => hu.routes a ha (heq ▸ hroute)
    rw [h.resting a ha fd₁ hsub]
    exact congrArg some (Function.update_of_ne hne _ _).symm
  appended := h.appended

/-- The order that a resting order's trade notice belongs to. -/
theorem notice_origin (h : Own sys) {i : Input} {order : Order} {s' : Session}
    (hsub : sys.session.Submits i order s') (hnew : order.id ∉ acceptedIds sys.processed)
    {t : Trade} (ht : t ∈ tradesOf sys.session.processor.book i) :
    sys.submittedOn (t.counterparty order.side)
      = some (sys.connOf ((Function.update sys.session.processor.orderToClientFd order.id
        (some i.message.fd) (t.counterparty order.side)).getD 0)) := by
  obtain ⟨fd, hfd, hroute⟩ := h.routed.route_counterparty hsub hnew ht
  obtain ⟨a, ha, hid⟩ := rests_counterparty hsub.accepted ht
  rw [hroute]
  rw [← hid] at hfd ⊢
  exact h.resting a ha fd hfd

/-- The messages pushed for a request. -/
theorem outbox_process (h : Own sys) {i : Input} {conn : Conn} {s' : Session}
    (hs : sys.session.step (fun _ => 0) i = .ok s')
    (hnew : ∀ order, i.accepted = some order → order.id ∉ acceptedIds sys.processed)
    (hconn : conn = sys.connOf i.message.fd) :
    ∀ d ∈ tagged (s'.pushed.drop sys.session.pushed.length) (sys.origins i conn),
      d.origin = some (sys.connOf d.message.fd) := by
  intro d hd
  obtain ⟨s₁, hs₁, -, ⟨order, hsub⟩ | ⟨hacc, -⟩ | ⟨loc, n, hacc, -⟩⟩ :=
    step_cases (fun _ => 0) h.routed.inv (wellFormed_of_step hs)
  · obtain rfl := Except.ok.inj (hs.symm.trans hs₁)
    obtain ⟨reply, heq⟩ := tagged_of_submits hsub conn
    rw [heq] at hd
    rcases List.mem_append.mp hd with hd | hd
    · obtain ⟨t, ht, rfl⟩ := List.mem_map.mp hd
      exact h.notice_origin hsub (hnew order hsub.accepted) ht
    · rw [List.mem_singleton.mp hd, hconn]
  -- a refused request and a cancel have one reply
  all_goals
    obtain ⟨reply, heq⟩ := tagged_of_none hs hacc conn
    rw [heq] at hd
    rw [List.mem_singleton.mp hd, hconn]

/-- The resting orders after a request. -/
theorem resting_process (h : Own sys) {i : Input} {conn : Conn} {s' : Session}
    (hs : sys.session.step (fun _ => 0) i = .ok s')
    (hnew : ∀ order, i.accepted = some order → order.id ∉ acceptedIds sys.processed)
    (hconn : conn = sys.connOf i.message.fd) :
    ∀ b ∈ s'.processor.book.resting, ∀ fd,
      submitterOf (sys.processed ++ [i]) b.2.order.id = some fd →
        sys.submit i conn b.2.order.id = some (sys.connOf fd) := by
  intro b hb fd hfd
  rw [submitterOf_append] at hfd
  rcases id_of_mem_resting h.routed hs hb with ⟨a, ha, hid⟩ | ⟨order, hacc, hid⟩
  · -- an order that was there belongs to the connection it belonged to
    obtain ⟨fd₁, hsub, -⟩ := h.routed.routes a ha
    rw [← hid, hsub] at hfd
    obtain rfl : fd₁ = fd := Option.some.inj hfd
    have hold := h.resting a ha fd₁ hsub
    rw [← hid]
    cases hacc : i.accepted with
    | some order =>
      have hne : a.2.order.id ≠ order.id := fun heq =>
        hnew order hacc (heq ▸ mem_acceptedIds_of_submitterOf hsub)
      rw [System.submit, hacc]
      exact (Function.update_of_ne hne _ _).trans hold
    | none =>
      rw [System.submit, hacc]
      exact hold
  · -- the order of the request belongs to the connection of the request
    have hnone : submitterOf sys.processed order.id = none := by
      cases hsome : submitterOf sys.processed order.id with
      | none => rfl
      | some fd' => exact absurd (mem_acceptedIds_of_submitterOf hsome) (hnew order hacc)
    have hself : submitterOf [i] order.id = some i.message.fd := by simp [submitterOf, hacc]
    rw [hid, hnone, hself] at hfd
    obtain rfl : i.message.fd = fd := Option.some.inj hfd
    rw [System.submit, hacc, hid, hconn]
    exact Function.update_self _ _ _

/-- **A step keeps the invariant**, when a descriptor it hands out is unused and the id
of an order it submits is new. -/
theorem step (h : Own sys) {e : Event} (hs : sys.step e = some sys')
    (hfresh : ∀ fd, e = .accept fd → sys.Unused fd) (hids : (acceptedIds sys'.processed).Nodup) :
    Own sys' := by
  cases System.steps hs with
  | accept _ => exact h.accept (hfresh _ rfl) _
  | server _ _ => exact ⟨h.routed, h.inbound, h.outgoing, h.resting, h.appended⟩
  | @read fd arrivals room server messages hread =>
    refine ⟨h.routed, fun q hq => ?_, h.outgoing, h.resting, h.appended⟩
    rcases List.mem_append.mp hq with hq | hq
    · exact h.inbound q hq
    · obtain ⟨m, hm, rfl⟩ := List.mem_map.mp hq
      rw [(ExchangeServer.handleRead_spec hread).1 m hm]
  | @push d outbox hd =>
    refine ⟨h.routed, h.inbound, fun d' hd' => h.outgoing d' ?_, h.resting, h.appended⟩
    rw [hd]
    simp only [List.mem_append, List.mem_cons, List.not_mem_nil] at hd' ⊢
    tauto
  | @drain d outbound hd =>
    -- the message drained is for the connection that has the descriptor now
    have hown := h.outgoing d (by rw [hd]; simp)
    refine ⟨h.routed, h.inbound, fun d' hd' => h.outgoing d' ?_, h.resting, fun a ha => ?_⟩
    · rw [hd]
      simp only [List.mem_append, List.mem_cons] at hd' ⊢
      tauto
    · rcases List.mem_append.mp ha with ha | ha
      · exact h.appended a ha
      · split at ha
        · rw [List.mem_singleton.mp ha]
          exact hown
        · exact absurd ha List.not_mem_nil
  | @process times q inbound session hout hin hproc =>
    -- the id of an accepted order is new, as the ids are distinct with this one
    have hmem : q ∈ sys.inbound := by rw [hin]; exact List.mem_cons_self
    have hnew : ∀ order, Input.accepted ⟨times, q.message⟩ = some order →
        order.id ∉ acceptedIds sys.processed := by
      intro order hacc hold
      have hsplit : acceptedIds (sys.processed ++ [⟨times, q.message⟩])
          = acceptedIds sys.processed ++ [order.id] := by
        simp [acceptedIds, hacc]
      simp only [hsplit] at hids
      exact (List.nodup_append.mp hids).2.2 _ hold _ (List.mem_singleton_self _) rfl
    obtain ⟨session', hs', hrouted⟩ :=
      h.routed.step (fun _ => 0) (wellFormed_of_step hproc) hnew
    obtain rfl := Except.ok.inj (hproc.symm.trans hs')
    have hconn := h.inbound q hmem
    refine ⟨hrouted, fun q' hq' => h.inbound q' ?_, fun d hd => ?_,
      h.resting_process hproc hnew hconn, h.appended⟩
    · rw [hin]
      exact List.mem_cons_of_mem q hq'
    · rcases List.mem_append.mp hd with hd | hd
      · exact h.outbox_process hproc hnew hconn d hd
      · exact h.outgoing d (List.mem_append_right _ hd)

end Own

/-! ### Runs -/

/-- The requests processed only grow in number. -/
theorem processed_prefix_step {sys sys' : System} {e : Event} (h : sys.step e = some sys') :
    sys.processed <+: sys'.processed := by
  cases System.steps h with
  | process _ _ _ => exact List.prefix_append _ _
  | accept _ => exact List.prefix_refl _
  | read _ => exact List.prefix_refl _
  | drain _ => exact List.prefix_refl _
  | server _ _ => exact List.prefix_refl _
  | push _ => exact List.prefix_refl _

theorem processed_prefix_run {events : List Event} {sys sys' : System}
    (h : events.foldlM System.step sys = some sys') : sys.processed <+: sys'.processed :=
  foldlM_some_invariant (P := fun _ sys₁ => sys.processed <+: sys₁.processed)
    (fun _ _ _ _ hpre hs _ => hpre.trans (processed_prefix_step hs)) events sys
    (List.prefix_refl _) h

/-- Distinct ids at the end of a run are distinct all along. -/
theorem acceptedIds_nodup_of_prefix {inputs inputs' : List Input} (h : inputs <+: inputs')
    (hd : (acceptedIds inputs').Nodup) : (acceptedIds inputs).Nodup := by
  obtain ⟨rest, rfl⟩ := h
  rw [acceptedIds, List.filterMap_append] at hd
  exact (List.nodup_append.mp hd).1

/-- **A run keeps the invariant.** -/
theorem Own.run {events : List Event} {sys sys' : System} (h : Own sys)
    (hrun : events.foldlM System.step sys = some sys') (hfresh : FreshAccepts sys events)
    (hids : (acceptedIds sys'.processed).Nodup) : Own sys' := by
  have hend : Own sys' ∧ FreshAccepts sys' [] := by
    refine foldlM_some_invariant (P := fun es sys₁ => Own sys₁ ∧ FreshAccepts sys₁ es)
      ?_ events sys ⟨h, hfresh⟩ hrun
    rintro e es sys₁ sys₂ ⟨hown, hacc, hnext⟩ hs hrest
    have hids₂ := acceptedIds_nodup_of_prefix (processed_prefix_run hrest) hids
    exact ⟨hown.step hs hacc hids₂, hnext sys₂ hs⟩
  exact hend.1

/-- **A connection receives its own traffic only**, in every run in which accepted orders
have distinct ids and no descriptor is handed out while a message in a ring, or on its
way to one, names it or a resting order is routed to it: whatever has been added to the
write buffer of a connection is a reply to a request read from this connection or the
notice of a trade of an order submitted on it. -/
theorem own_traffic (reserved : Fd → Bool) (events : List Event) (sys : System)
    (hrun : System.run reserved events = some sys) (hids : (acceptedIds sys.processed).Nodup)
    (hfresh : FreshAccepts (.start reserved) events) :
    ∀ a ∈ sys.appended, a.origin = some a.conn :=
  ((own_start reserved).run hrun hfresh hids).appended

/-- What a socket gives that has a frame with the payload of an input to be read. -/
def frameOf (i : Input) : List Arrival :=
  [.chunk i.message.type.byte
    (beBytes 4 i.message.payload.length ++ i.message.payload)]

/-- A request is read from a connection and processed, and `n` messages are pushed and
drained. -/
def exchangeEvents (i : Input) (n : ℕ) : List Event :=
  [.read i.message.fd (frameOf i) (fun _ => true), .process i.times]
    ++ List.replicate n .push ++ List.replicate n .drain

/-- An ask of three under id 7, from descriptor 7. -/
def askSeven : Input :=
  ⟨⟨0, fun _ => 0⟩, ⟨7, .NEW_ORDER,
    [7, 0, 0, 0, 0, 0, 0, 0, 100, 0, 0, 0, 0, 0, 0, 0, 3, 0, 0, 0, 1, 0]⟩⟩

/-- Connection 0 sells and connection 1 buys.  Connection 0 cancels the rest of its ask and is
closed, and its descriptor goes to connection 2. -/
def reusedEvents : List Event :=
  [.accept 7, .accept 8] ++ exchangeEvents (askFive 7 100) 1 ++ exchangeEvents (bidSix 8) 2
    ++ exchangeEvents (cancelFive 7) 1 ++ [.read 7 [.closed] (fun _ => true), .accept 7]
    ++ exchangeEvents askSeven 1

/-- A descriptor is used again when there are no traces of it. -/
theorem own_traffic_reused :
    ∃ sys, System.run (fun fd => fd < 7) reusedEvents = some sys ∧
      sys.appended.map (fun a => (a.fd, a.conn)) = [(7, 0), (7, 0), (8, 1), (7, 0), (7, 2)] ∧
      ∀ a ∈ sys.appended, a.origin = some a.conn := by
  have heval : (System.run (fun fd => fd < 7) reusedEvents).map (fun sys =>
      (sys.appended.map (fun a => (a.fd, a.conn)), acceptedIds sys.processed))
      = some ([(7, 0), (7, 0), (8, 1), (7, 0), (7, 2)], [5, 6, 7]) := by
    decide +kernel
  have hfresh : FreshAccepts (.start fun fd => fd < 7) reusedEvents := by decide +kernel
  obtain ⟨sys, hrun, hsys⟩ := Option.map_eq_some_iff.mp heval
  obtain ⟨happended, hids⟩ := Prod.mk.inj hsys
  refine ⟨sys, hrun, happended, own_traffic _ _ sys hrun ?_ hfresh⟩
  rw [hids]
  decide

/-- A connection sends an order and closes.  The descriptor is handed out again before
the acknowledgement is drained, and the new connection receives it. -/
theorem foreign_reply :
    ∃ sys, System.run (fun fd => fd < 7) [.accept 7,
        .read 7 (frameOf (askFive 7 100)) (fun _ => true), .process ⟨0, fun _ => 0⟩, .push,
        .read 7 [.closed] (fun _ => true), .accept 7, .drain] = some sys ∧
      (acceptedIds sys.processed).Nodup ∧ ∃ a ∈ sys.appended, a.origin ≠ some a.conn := by
  have heval : ((System.run (fun fd => fd < 7) [.accept 7,
      .read 7 (frameOf (askFive 7 100)) (fun _ => true), .process ⟨0, fun _ => 0⟩, .push,
      .read 7 [.closed] (fun _ => true), .accept 7, .drain]).map fun sys =>
        (sys.appended.map (fun a => (a.origin, a.conn)), acceptedIds sys.processed))
      = some ([(some 0, 1)], [5]) := by
    decide +kernel
  cases hrun : System.run (fun fd => fd < 7) [.accept 7,
      .read 7 (frameOf (askFive 7 100)) (fun _ => true), .process ⟨0, fun _ => 0⟩, .push,
      .read 7 [.closed] (fun _ => true), .accept 7, .drain] with
  | none =>
    rw [hrun] at heval
    exact absurd heval (by simp)
  | some sys =>
    rw [hrun, Option.map_some, Option.some.injEq, Prod.mk.injEq] at heval
    refine ⟨sys, rfl, by rw [heval.2]; decide, ?_⟩
    -- connection 1 has been given what belongs to connection 0
    have hmem : (some 0, 1) ∈ sys.appended.map (fun a => (a.origin, a.conn)) := by
      rw [heval.1]
      exact List.mem_singleton_self _
    obtain ⟨a, ha, heq⟩ := List.mem_map.mp hmem
    obtain ⟨horigin, hconn⟩ := Prod.mk.inj heq
    refine ⟨a, ha, ?_⟩
    rw [horigin, hconn]
    decide

end Exchange
