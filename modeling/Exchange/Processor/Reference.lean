import Exchange.Book.Priority
import Exchange.Processor.Replies
import Exchange.Processor.Routing
import Exchange.Serializer.RoundTrip

/-!
# The reference exchange

What the processor is for, with neither bytes nor a book: the open orders are a list in the
order of their arrival, served by selection, and each client is told what happens to its
orders.  The messages that the processor pushes are, read as a client reads them, the ones
that the reference exchange sends, one by one and to the same clients.

A cancel of an order that is not open is acknowledged before it is rejected, by the processor
and so by the reference exchange.

## Main definitions

* `Notice`, `Notice.ofFrame`, `noticesIn` — what a client is told, and what it reads.
* `Asked`, `Input.asked` — what a request asks for.
* `Reference.Market`, `Reference.Market.answer`, `Reference.Market.run` — the reference
  exchange.
* `Session.Mirrors` — the simulation relation.

## Main results

* `Session.Mirrors.step`, `Session.Mirrors.run` — a request and a run keep the relation.
* `Session.Mirrors.stream` — what is sent to a descriptor is what the reference exchange
  tells it.
-/

namespace Exchange

open Bytes MatchingEngine

/-! ### Notices -/

/-- What a client is told. -/
inductive Notice
  | trade (deal : Deal)
  | orderAck (id : OrderId)
  | cancelAck (id : OrderId)
  | reject (id : OrderId) (reason : List UInt8)
  deriving DecidableEq, Repr

/-- What a client reads from a frame. -/
def Notice.ofFrame (f : Frame) : Option Notice :=
  if f.type = MessageType.TRADE.byte then
    (deserializeTrade f.payload).toOption.map fun t => .trade t.deal
  else if f.type = MessageType.ORDER_ACK.byte then
    (deserializeAcknowledgement f.payload).toOption.map fun ack => .orderAck ack.id
  else if f.type = MessageType.CANCEL_ACK.byte then
    (deserializeCancelAck f.payload).toOption.map fun ack => .cancelAck ack.id
  else if f.type = MessageType.REJECT.byte then
    (deserializeRejection f.payload).toOption.map fun r => .reject r.id r.reason
  else none

/-- What a client reads from a stream. -/
def noticesIn (bs : List UInt8) : List (Option Notice) := (splitFrames bs).1.map Notice.ofFrame

theorem ofFrame_tradeFrame (t : Trade) : Notice.ofFrame (tradeFrame t) = some (.trade t.deal) := by
  have hread : deserializeTrade (tradeFrame t).payload = .ok t :=
    deserializeTrade_eq_ok_iff.mpr List.prefix_rfl
  have htype : (tradeFrame t).type = MessageType.TRADE.byte := rfl
  rw [Notice.ofFrame, if_pos htype, hread]
  rfl

theorem ofFrame_ackFrame (id : OrderId) : Notice.ofFrame (ackFrame id) = some (.orderAck id) := by
  have hread : deserializeAcknowledgement (ackFrame id).payload = .ok ⟨id⟩ :=
    deserializeAcknowledgement_eq_ok_iff.mpr List.prefix_rfl
  have htype : (ackFrame id).type = MessageType.ORDER_ACK.byte := rfl
  rw [Notice.ofFrame, if_neg (by rw [htype]; decide), if_pos htype, hread]
  rfl

theorem ofFrame_cancelAckFrame (id : OrderId) :
    Notice.ofFrame (cancelAckFrame id) = some (.cancelAck id) := by
  have hread : deserializeCancelAck (cancelAckFrame id).payload = .ok ⟨id⟩ :=
    deserializeCancelAck_eq_ok_iff.mpr List.prefix_rfl
  have htype : (cancelAckFrame id).type = MessageType.CANCEL_ACK.byte := rfl
  rw [Notice.ofFrame, if_neg (by rw [htype]; decide), if_neg (by rw [htype]; decide),
    if_pos htype, hread]
  rfl

theorem ofFrame_rejectFrame (id : OrderId) {reason : List UInt8} (h : reason.length < 2 ^ 32 - 12) :
    Notice.ofFrame (rejectFrame id reason) = some (.reject id reason) := by
  have hread : deserializeRejection (rejectFrame id reason).payload = .ok ⟨id, reason⟩ :=
    (deserializeRejection_eq_ok_iff h).mpr List.prefix_rfl
  have htype : (rejectFrame id reason).type = MessageType.REJECT.byte := rfl
  rw [Notice.ofFrame, if_neg (by rw [htype]; decide), if_neg (by rw [htype]; decide),
    if_neg (by rw [htype]; decide), if_pos htype, hread]
  rfl

/-- Part of a stream has part of its notices. -/
theorem noticesIn_prefix {bs cs : List UInt8} (h : bs <+: cs) : noticesIn bs <+: noticesIn cs := by
  obtain ⟨ds, rfl⟩ := h
  rw [noticesIn, noticesIn, splitFrames_append, List.map_append]
  exact List.prefix_append _ _

/-! ### The reference exchange -/

/-- What a request asks for: a new order, a new order that the constructor refuses, or a
cancel. -/
inductive Asked
  | submit (order : Order)
  | invalid (id : OrderId) (reason : Exn)
  | cancel (id : OrderId)

/-- What a well-formed request asks for. -/
def Input.asked (i : Input) : Option Asked :=
  if i.message.type = .NEW_ORDER then
    match deserializeOrder i.times.received i.message.payload with
    | .ok order => some (.submit order)
    | .error (.exception e) => some (.invalid (payloadId i.message.payload) e)
    | .error .undefinedBehaviour => none
  else if i.message.type = .CANCEL_ORDER then some (.cancel (payloadId i.message.payload))
  else none

/-- The order that was open, given the side of the order that came in. -/
def Deal.maker (side : Side) (d : Deal) : OrderId := if side = .ASK then d.buyer else d.seller

namespace Reference

/-- What is told to a client in one message. -/
structure Message where
  client : Option Fd
  notices : List Notice

/-- The open orders in the order of their arrival, and who has submitted an order. -/
structure Market where
  orders : List OpenOrder
  owner : OrderId → Option Fd

namespace Market

/-- Nothing is open. -/
def empty : Market := ⟨[], fun _ => none⟩

/-- What a client asks for is done, and the clients it concerns are told. -/
def answer (market : Market) (fd : Fd) : Asked → Market × List Message
  | .submit order =>
      (⟨(submit market.orders order).1, Function.update market.owner order.id (some fd)⟩,
        (submit market.orders order).2.map
            (fun d => ⟨market.owner (d.maker order.side), [.trade d]⟩)
          ++ [⟨some fd, (submit market.orders order).2.map .trade ++ [.orderAck order.id]⟩])
  | .invalid id reason => (market, [⟨some fd, [.reject id reason.whatBytes]⟩])
  | .cancel id =>
      match cancel market.orders id with
      | some orders => (⟨orders, market.owner⟩, [⟨some fd, [.cancelAck id]⟩])
      | none => (market, [⟨some fd, [.cancelAck id, .reject id Exn.idNotFound.whatBytes]⟩])

/-- One request. -/
def step (market : Market) (i : Input) : Market × List Message :=
  match i.asked with
  | some asked => market.answer i.message.fd asked
  | none => (market, [])

/-- The exchange and all its messages after a run of requests. -/
def run (inputs : List Input) : Market × List Message :=
  ((transduce step empty inputs).1, (transduce step empty inputs).2.flatten)

theorem run_append (inputs : List Input) (i : Input) :
    run (inputs ++ [i])
      = (((run inputs).1.step i).1, (run inputs).2 ++ ((run inputs).1.step i).2) := by
  simp [run, transduce_append, transduce]

end Market

/-- What a client is told in a run of requests. -/
def told (fd : Fd) (inputs : List Input) : List Notice :=
  (((Market.run inputs).2.filter fun m => m.client = some fd).map Message.notices).flatten

/-- A message as it is read. -/
def Message.sent (m : Message) : Option Fd × List (Option Notice) := (m.client, m.notices.map some)

end Reference

/-- A message that is pushed, as its receiver reads it. -/
def OutboundMessage.read (m : OutboundMessage) : Option Fd × List (Option Notice) :=
  (some m.fd, noticesIn m.payload)

/-! ### One request -/

/-- The messages pushed for a request are those that the reference exchange sends for it, and
the books stay related. -/
structure Session.Answers (s : Session) (i : Input) (market : Reference.Market) (s' : Session) :
    Prop where
  pushed : ∃ ms, s'.pushed = s.pushed ++ ms ∧ (∀ m ∈ ms, Whole m.payload) ∧
    ms.map OutboundMessage.read = (market.step i).2.map Reference.Message.sent
  refines : Refines s'.processor.book (market.step i).1.orders

section Requests

variable {done : List Input} {s s' : Session} {i : Input} {market : Reference.Market}

theorem Input.asked_of_accepted {order : Order} (h : i.accepted = some order) :
    i.asked = some (.submit order) := by
  unfold Input.accepted at h
  split at h
  · next ht =>
    rw [Input.asked, if_pos ht]
    cases hd : deserializeOrder i.times.received i.message.payload with
    | error f =>
      rw [hd] at h
      exact absurd h (by simp [Except.toOption])
    | ok order' =>
      rw [hd] at h
      rw [Option.some.inj h]
  · exact absurd h (by simp)

/-- The notices to the counterparties go to those who own the orders. -/
theorem Session.Submits.read_notices {order : Order} (hsub : s.Submits i order s')
    (hrouted : Routed done s) (howner : market.owner = submitterOf done)
    (hnew : order.id ∉ acceptedIds done) :
    (notices (Function.update s.processor.orderToClientFd order.id (some i.message.fd)) order.side
        (tradesOf s.processor.book i)).map OutboundMessage.read
      = (((tradesOf s.processor.book i).map Trade.deal).map fun d =>
          (⟨market.owner (d.maker order.side), [.trade d]⟩ : Reference.Message)).map
            Reference.Message.sent := by
  rw [notices, List.map_map, List.map_map, List.map_map]
  refine List.map_congr_left fun t ht => ?_
  obtain ⟨fd, hfd, hroute⟩ := hrouted.route_counterparty hsub hnew ht
  have hmaker : market.owner (t.deal.maker order.side) = some fd := by
    rw [howner]
    exact hfd
  simp [OutboundMessage.read, Reference.Message.sent, hroute, hmaker, noticesIn,
    splitFrames_single (short_tradeFrame t), ofFrame_tradeFrame]

/-- An accepted order. -/
theorem Session.Submits.answers {order : Order} (hsub : s.Submits i order s')
    (hrouted : Routed done s) (hrefines : Refines s.processor.book market.orders)
    (howner : market.owner = submitterOf done) (hnew : order.id ∉ acceptedIds done)
    (hp : order.Proper) : s.Answers i market s' := by
  have hstep : market.step i = market.answer i.message.fd (.submit order) := by
    rw [Reference.Market.step, Input.asked_of_accepted hsub.accepted]
  have hopen : order.id ∉ market.orders.map OpenOrder.id :=
    fun hmem => hrouted.not_rests hnew (hrefines.rests_iff.mpr hmem)
  -- the engine and the reference engine make the same deals
  obtain ⟨r, hr, htrades, hbook⟩ := hsub.matched
  obtain ⟨hout, hnext⟩ := hrefines.submit i.times.now hsub.constructed hp hopen
  have hperform : s.processor.book.perform (.submit i.times.now order)
      = (r.book, .traded (r.trades.map Trade.deal)) := by
    simp only [OrderBook.perform, hr]
  rw [hperform, htrades] at hout
  rw [hperform] at hnext
  have hdeals : (Reference.submit market.orders order).2
      = (tradesOf s.processor.book i).map Trade.deal := (Outcome.traded.inj hout).symm
  refine ⟨⟨_, (hsub.pushed.trans (List.append_assoc _ _ _)), ?_, ?_⟩, ?_⟩
  · intro m hm
    rcases List.mem_append.mp hm with hm | hm
    · obtain ⟨t, -, rfl⟩ := List.mem_map.mp hm
      rw [Whole, splitFrames_single (short_tradeFrame t)]
    · rw [List.mem_singleton.mp hm, Whole, splitFrames_reply _ (short_ackFrame order.id)]
  · have hreply : noticesIn (((tradesOf s.processor.book i).map fun t =>
        (tradeFrame t).bytes).flatten ++ (ackFrame order.id).bytes)
        = (((tradesOf s.processor.book i).map Trade.deal).map Notice.trade
          ++ [Notice.orderAck order.id]).map some := by
      rw [noticesIn, splitFrames_reply _ (short_ackFrame order.id)]
      simp [ofFrame_tradeFrame, ofFrame_ackFrame, Function.comp_def]
    rw [hstep, Reference.Market.answer, hdeals, List.map_append, List.map_append,
      hsub.read_notices hrouted howner hnew]
    simp only [List.map_cons, List.map_nil, OutboundMessage.read, Reference.Message.sent, hreply]
  · rw [hbook, hstep]
    exact hnext

/-- A request that is answered in one message and told to nobody else. -/
theorem Session.answers_of_reply {fs : List Frame} {ns : List Notice} (hshort : ∀ f ∈ fs, f.Short)
    (hpushed : s'.pushed = s.pushed ++ [⟨i.message.fd, (fs.map Frame.bytes).flatten⟩])
    (hread : fs.map Notice.ofFrame = ns.map some)
    (hsent : (market.step i).2 = [⟨some i.message.fd, ns⟩])
    (hrefines : Refines s'.processor.book (market.step i).1.orders) : s.Answers i market s' := by
  have hsplit := splitFrames_flatten hshort
  refine ⟨⟨_, hpushed, ?_, ?_⟩, hrefines⟩
  · intro m hm
    rw [List.mem_singleton.mp hm, Whole, hsplit]
  · rw [hsent]
    simp only [List.map_cons, List.map_nil, OutboundMessage.read, Reference.Message.sent, noticesIn,
      hsplit, hread]

/-- A cancel, by the reference exchange. -/
theorem Reference.Market.step_cancel (market : Reference.Market)
    (ht : i.message.type = .CANCEL_ORDER) :
    market.step i = market.answer i.message.fd (.cancel (payloadId i.message.payload)) := by
  have hne : i.message.type ≠ .NEW_ORDER := by rw [ht]; decide
  simp only [Reference.Market.step, Input.asked, if_neg hne, if_pos ht]

/-- A request that submits no order. -/
theorem Session.answers_of_none {failures : ℕ → ℕ} (h : s.step failures i = .ok s')
    (hacc : i.accepted = none) (hrefines : Refines s.processor.book market.orders) :
    s.Answers i market s' ∧ (market.step i).1.owner = market.owner := by
  obtain ⟨fs, hdeclines, hpushed⟩ := declines_of_none h hacc
  obtain ⟨hout, hnext⟩ := hrefines.cancel (payloadId i.message.payload)
  rw [Reference.step] at hout hnext
  have hshort := hdeclines.short
  cases hdeclines with
  | @refused e ht hd hbook =>
    have hstep : market.step i
        = market.answer i.message.fd (.invalid (payloadId i.message.payload) e) := by
      simp only [Reference.Market.step, Input.asked, if_pos ht, hd]
    refine ⟨Session.answers_of_reply hshort hpushed ?_ (congrArg Prod.snd hstep) ?_, ?_⟩
    · simp [ofFrame_rejectFrame _ (length_whatBytes e)]
    · rw [hstep, hbook]
      exact hrefines
    · rw [hstep]
      rfl
  | cancelled ht hc =>
    have hstep := market.step_cancel ht
    simp only [OrderBook.perform, hc] at hout hnext
    rw [Reference.Market.answer] at hstep
    cases hr : Reference.cancel market.orders (payloadId i.message.payload) with
    | none =>
      rw [hr] at hout
      exact absurd hout (by simp)
    | some orders =>
      rw [hr] at hnext
      simp only [hr] at hstep
      refine ⟨Session.answers_of_reply hshort hpushed ?_ (congrArg Prod.snd hstep) ?_,
        by rw [hstep]⟩
      · simp [ofFrame_cancelAckFrame]
      · rw [hstep]
        exact hnext
  | unknown ht hc hbook =>
    have hstep := market.step_cancel ht
    simp only [OrderBook.perform, hc] at hout hnext
    rw [Reference.Market.answer] at hstep
    cases hr : Reference.cancel market.orders (payloadId i.message.payload) with
    | some orders =>
      rw [hr] at hout
      exact absurd hout (by simp)
    | none =>
      simp only [hr] at hstep
      refine ⟨Session.answers_of_reply hshort hpushed ?_ (congrArg Prod.snd hstep) ?_,
        by rw [hstep]⟩
      · simp [ofFrame_cancelAckFrame, ofFrame_rejectFrame _ (length_whatBytes Exn.idNotFound)]
      · rw [hstep, hbook]
        exact hrefines

end Requests

/-! ### Runs of requests -/

/-- Under a new id an order has its first submitter. -/
theorem submitterOf_submit {done : List Input} {i : Input} {order : Order}
    (ho : i.accepted = some order) (hnew : order.id ∉ acceptedIds done) :
    submitterOf (done ++ [i])
      = Function.update (submitterOf done) order.id (some i.message.fd) := by
  funext id
  rw [submitterOf_append]
  by_cases hid : id = order.id
  · have hnone : submitterOf done order.id = none := by
      cases hsome : submitterOf done order.id with
      | none => rfl
      | some fd => exact absurd (mem_acceptedIds_of_submitterOf hsome) hnew
    rw [hid, Function.update_self, hnone]
    simp [submitterOf, ho]
  · have hother : submitterOf [i] id = none := by simp [submitterOf, ho, Ne.symm hid]
    rw [Function.update_of_ne hid, hother, Option.or_none]

theorem submitterOf_of_none {done : List Input} {i : Input} (ho : i.accepted = none) :
    submitterOf (done ++ [i]) = submitterOf done := by
  funext id
  have hother : submitterOf [i] id = none := by simp [submitterOf, ho]
  rw [submitterOf_append, hother, Option.or_none]

/-- The processor after the requests `done` is, to its clients, the reference exchange after
them. -/
structure Session.Mirrors (done : List Input) (s : Session) : Prop where
  routed : Routed done s
  refines : Refines s.processor.book (Reference.Market.run done).1.orders
  owner : (Reference.Market.run done).1.owner = submitterOf done
  whole : ∀ m ∈ s.pushed, Whole m.payload
  read : s.pushed.map OutboundMessage.read
    = (Reference.Market.run done).2.map Reference.Message.sent

namespace Session.Mirrors

variable {done : List Input} {s s' : Session} {i : Input}

theorem mirrors_empty : Session.Mirrors [] .empty where
  routed := routed_empty
  refines := refines_empty
  owner := rfl
  whole := fun _ hm => absurd hm List.not_mem_nil
  read := rfl

/-- A request that is answered as by the reference exchange. -/
theorem answers (h : Session.Mirrors done s)
    (hanswers : s.Answers i (Reference.Market.run done).1 s') (hrouted : Routed (done ++ [i]) s')
    (howner : ((Reference.Market.run done).1.step i).1.owner = submitterOf (done ++ [i])) :
    Session.Mirrors (done ++ [i]) s' := by
  obtain ⟨ms, hpushed, hwhole, hread⟩ := hanswers.pushed
  constructor
  · exact hrouted
  · rw [Reference.Market.run_append]
    exact hanswers.refines
  · rw [Reference.Market.run_append]
    exact howner
  · intro m hm
    rw [hpushed] at hm
    rcases List.mem_append.mp hm with hm | hm
    · exact h.whole m hm
    · exact hwhole m hm
  · rw [Reference.Market.run_append, hpushed, List.map_append, List.map_append, h.read, hread]

/-- **A request keeps the relation.** -/
theorem step (h : Session.Mirrors done s) {failures : ℕ → ℕ} (hs : s.step failures i = .ok s')
    (hnew : ∀ order, i.accepted = some order → order.id ∉ acceptedIds done)
    (hproper : ∀ order, i.accepted = some order → order.Proper) :
    Session.Mirrors (done ++ [i]) s' := by
  have hw := wellFormed_of_step hs
  have hrouted : Routed (done ++ [i]) s' := by
    obtain ⟨s₁, hs₁, hrouted⟩ := h.routed.step failures hw hnew
    obtain rfl := Except.ok.inj (hs.symm.trans hs₁)
    exact hrouted
  obtain ⟨s₁, hs₁, -, hcases⟩ := step_cases failures h.routed.inv hw
  obtain rfl := Except.ok.inj (hs.symm.trans hs₁)
  have hnone : i.accepted = none → Session.Mirrors (done ++ [i]) s' := by
    intro hacc
    obtain ⟨hanswers, howner⟩ := Session.answers_of_none hs hacc h.refines
    refine h.answers hanswers hrouted ?_
    rw [howner, h.owner, submitterOf_of_none hacc]
  rcases hcases with ⟨order, hsub⟩ | ⟨hacc, -⟩ | ⟨_, _, hacc, -⟩
  · have hid := hnew order hsub.accepted
    refine h.answers (hsub.answers h.routed h.refines h.owner hid
      (hproper order hsub.accepted)) hrouted ?_
    rw [submitterOf_submit hsub.accepted hid, ← h.owner, Reference.Market.step,
      Input.asked_of_accepted hsub.accepted]
    rfl
  · exact hnone hacc
  · exact hnone hacc

/-- **A run keeps the relation.** -/
theorem run {inputs : List Input} {failures : ℕ → ℕ}
    (hrun : Session.empty.run failures inputs = .ok s) (hids : (acceptedIds inputs).Nodup)
    (hproper : ∀ j ∈ inputs, ∀ order, j.accepted = some order → order.Proper) :
    Session.Mirrors inputs s := by
  have hend := foldlM_ok_invariant (P := fun rest (t : Session) => ∃ done,
    done ++ rest = inputs ∧ Session.Mirrors done t) ?_ inputs _ ⟨[], rfl, mirrors_empty⟩ hrun
  · obtain ⟨done, hdone, hmirrors⟩ := hend
    rw [List.append_nil] at hdone
    rw [hdone] at hmirrors
    exact hmirrors
  · rintro i rest t t' ⟨done, rfl, hmirrors⟩ hs
    refine ⟨done ++ [i], by simp, hmirrors.step hs (notMem_acceptedIds hids) ?_⟩
    exact hproper i (List.mem_append_right _ List.mem_cons_self)

end Session.Mirrors

/-! ### What a client reads -/

/-- **What is sent to a descriptor is what the reference exchange tells it.** -/
theorem Session.Mirrors.stream {done : List Input} {s : Session} (h : Session.Mirrors done s)
    (fd : Fd) :
    Whole ((s.pushed.filter fun m => m.fd = fd).map OutboundMessage.payload).flatten ∧
      noticesIn ((s.pushed.filter fun m => m.fd = fd).map OutboundMessage.payload).flatten
        = (Reference.told fd done).map some := by
  have hpieces : ∀ bs ∈ (s.pushed.filter fun m => m.fd = fd).map OutboundMessage.payload,
      (splitFrames bs).2 = [] := by
    intro bs hbs
    obtain ⟨m, hm, rfl⟩ := List.mem_map.mp hbs
    exact h.whole m (List.mem_filter.mp hm).1
  have hsplit := splitFrames_pieces hpieces
  refine ⟨congrArg Prod.snd hsplit, ?_⟩
  -- the messages to the descriptor, as they are read and as they are sent
  have hread := congrArg (fun l => ((l.filter fun r => r.1 = some fd).map Prod.snd).flatten) h.read
  simp only [List.filter_map, List.map_map] at hread
  have hto : ((fun r : Option Fd × List (Option Notice) => decide (r.1 = some fd)) ∘
      OutboundMessage.read) = fun m => decide (m.fd = fd) := by
    funext m
    simp [OutboundMessage.read]
  rw [hto] at hread
  rw [noticesIn, hsplit, List.map_flatten, List.map_map, List.map_map, Reference.told,
    List.map_flatten, List.map_map]
  exact hread

end Exchange
