import Exchange.Processor.Isolation
import Exchange.Processor.Replies
import Exchange.Processor.Routing
import Exchange.Serializer.RoundTrip

/-!
# What connections are told of their orders

The processor tells a connection of every trade of its orders: in a message of its own when
the order rested, and in the reply when the order came in.  A trade between two orders of one
connection is told twice.  The quantities in the frames of a stream are added up, and with
what rests in the book they give the quantity of the order.

## Main definitions

* `toldIn`, `toldTo` — the quantity told of the trades of a kind in a stream, and among
  outgoing messages to a descriptor.
* `ownSides` — how many of the two orders of a trade were submitted from a connection.
* `Session.Told` — the invariant, with the trades of a run as a ghost.

## Main results

* `Session.Told.step`, `Session.Told.run` — a request and a run keep the invariant.
-/

namespace Exchange

open Bytes MatchingEngine

/-! ### Quantities in a stream -/

/-- The quantity told by a frame, if it holds a trade of a kind. -/
def toldBy (p : Trade → Bool) (f : Frame) : ℕ :=
  if f.type = MessageType.TRADE.byte then
    match deserializeTrade f.payload with
    | .ok t => if p t then t.quantity.toNat else 0
    | .error _ => 0
  else 0

/-- The quantity told by the complete frames of a stream. -/
def toldIn (p : Trade → Bool) (bs : List UInt8) : ℕ := ((splitFrames bs).1.map (toldBy p)).sum

/-- The quantity told by the messages to a descriptor. -/
def toldTo (p : Trade → Bool) (fd : Fd) (ms : List OutboundMessage) : ℕ :=
  ((ms.filter fun m => m.fd = fd).map fun m => toldIn p m.payload).sum

section Told

variable (p : Trade → Bool) (fd : Fd)

theorem toldBy_tradeFrame (t : Trade) :
    toldBy p (tradeFrame t) = if p t then t.quantity.toNat else 0 := by
  have hread : deserializeTrade (tradeFrame t).payload = .ok t :=
    deserializeTrade_eq_ok_iff.mpr List.prefix_rfl
  have htype : (tradeFrame t).type = MessageType.TRADE.byte := rfl
  rw [toldBy, if_pos htype, hread]

theorem toldBy_of_ne {f : Frame} (h : f.type ≠ MessageType.TRADE.byte) : toldBy p f = 0 :=
  if_neg h

theorem toldTo_append (ms ms' : List OutboundMessage) :
    toldTo p fd (ms ++ ms') = toldTo p fd ms + toldTo p fd ms' := by
  rw [toldTo, List.filter_append, List.map_append, List.sum_append]
  rfl

theorem toldTo_singleton (m : OutboundMessage) :
    toldTo p fd [m] = if m.fd = fd then toldIn p m.payload else 0 := by
  by_cases hfd : m.fd = fd
  · simp [toldTo, hfd]
  · simp [toldTo, hfd]

/-- The quantities in what is sent to a descriptor. -/
theorem toldIn_payloads {ms : List OutboundMessage} (h : ∀ m ∈ ms, Whole m.payload) :
    toldIn p ((ms.filter fun m => m.fd = fd).map OutboundMessage.payload).flatten
      = toldTo p fd ms := by
  have hpieces : ∀ bs ∈ (ms.filter fun m => m.fd = fd).map OutboundMessage.payload,
      (splitFrames bs).2 = [] := by
    intro bs hbs
    obtain ⟨m, hm, rfl⟩ := List.mem_map.mp hbs
    exact h m (List.mem_filter.mp hm).1
  rw [toldIn, splitFrames_pieces hpieces, List.map_flatten, List.sum_flatten, List.map_map,
    List.map_map, List.map_map]
  rfl

/-- The quantity of the trades of a kind. -/
def quantityOf (trades : List Trade) : ℕ :=
  (trades.map fun t => if p t then t.quantity.toNat else 0).sum

/-- A reply tells its trades. -/
theorem toldIn_reply (trades : List Trade) {final : Frame} (hshort : final.Short)
    (hne : final.type ≠ MessageType.TRADE.byte) :
    Whole ((trades.map fun t => (tradeFrame t).bytes).flatten ++ final.bytes) ∧
      toldIn p ((trades.map fun t => (tradeFrame t).bytes).flatten ++ final.bytes)
        = quantityOf p trades := by
  have hsplit := splitFrames_reply trades hshort
  have htrades : trades.map (toldBy p ∘ tradeFrame)
      = trades.map fun t => if p t then t.quantity.toNat else 0 :=
    List.map_congr_left fun t _ => toldBy_tradeFrame p t
  refine ⟨by rw [Whole, hsplit], ?_⟩
  rw [toldIn, hsplit, List.map_append, List.sum_append, List.map_map, htrades, List.map_singleton,
    List.sum_singleton, toldBy_of_ne p hne, Nat.add_zero, quantityOf]

/-- A notice tells its trade. -/
theorem toldIn_notice (t : Trade) :
    Whole (tradeFrame t).bytes ∧
      toldIn p (tradeFrame t).bytes = if p t then t.quantity.toNat else 0 := by
  have hsplit := splitFrames_single (short_tradeFrame t)
  refine ⟨by rw [Whole, hsplit], ?_⟩
  rw [toldIn, hsplit, List.map_singleton, List.sum_singleton, toldBy_tradeFrame]

/-- The replies are made of acknowledgements of cancels and rejections. -/
theorem Session.Declines.type_ne {s s' : Session} {i : Input} {fs : List Frame}
    (h : s.Declines i s' fs) : ∀ f ∈ fs, f.type ≠ MessageType.TRADE.byte := by
  have hack : ∀ id, (cancelAckFrame id).type ≠ MessageType.TRADE.byte :=
    fun _ => (by decide : MessageType.CANCEL_ACK.byte ≠ MessageType.TRADE.byte)
  have hreject : ∀ id reason, (rejectFrame id reason).type ≠ MessageType.TRADE.byte :=
    fun _ _ => (by decide : MessageType.REJECT.byte ≠ MessageType.TRADE.byte)
  cases h with
  | refused ht hd hbook => simpa using hreject _ _
  | cancelled ht hc => simpa using hack _
  | unknown ht hc hbook => simpa using ⟨hack _, hreject _ _⟩

/-- A request that submits no order is answered, and no trade is told. -/
theorem told_of_none {failures : ℕ → ℕ} {s s' : Session} {i : Input}
    (h : s.step failures i = .ok s') (hacc : i.accepted = none) :
    ∃ reply, s'.pushed = s.pushed ++ [⟨i.message.fd, reply⟩] ∧ Whole reply ∧
      ∀ p, toldIn p reply = 0 := by
  obtain ⟨fs, hdeclines, hpushed⟩ := declines_of_none h hacc
  have hsplit := splitFrames_flatten hdeclines.short
  refine ⟨_, hpushed, congrArg Prod.snd hsplit, fun p => ?_⟩
  rw [toldIn, hsplit, List.sum_eq_zero]
  intro x hx
  obtain ⟨f, hf, rfl⟩ := List.mem_map.mp hx
  exact toldBy_of_ne p (hdeclines.type_ne f hf)

end Told

/-! ### One order that comes in -/

/-- How many of the two orders of a trade were submitted from a connection. -/
def ownSides (inputs : List Input) (fd : Fd) (t : Trade) : ℕ :=
  (if submitterOf inputs t.buyerOrderId = some fd then 1 else 0)
    + if submitterOf inputs t.sellerOrderId = some fd then 1 else 0

/-- The quantity of the trades of a kind, each as often as a connection is told of it. -/
def toldOf (inputs : List Input) (fd : Fd) (p : Trade → Bool) (trades : List Trade) : ℕ :=
  (trades.map fun t => if p t then t.quantity.toNat * ownSides inputs fd t else 0).sum

theorem toldOf_append (inputs : List Input) (fd : Fd) (p : Trade → Bool) (ts ts' : List Trade) :
    toldOf inputs fd p (ts ++ ts') = toldOf inputs fd p ts + toldOf inputs fd p ts' := by
  rw [toldOf, List.map_append, List.sum_append]
  rfl

theorem toldOf_cons (inputs : List Input) (fd : Fd) (p : Trade → Bool) (t : Trade)
    (ts : List Trade) : toldOf inputs fd p (t :: ts)
      = (if p t then t.quantity.toNat * ownSides inputs fd t else 0) + toldOf inputs fd p ts := by
  rw [toldOf, List.map_cons, List.sum_cons]
  rfl

/-- What a connection is told of the trades of an order that comes in from `sender`: once for
each counterparty of its own, and once more if it is the sender itself. -/
theorem toldTo_trades {inputs : List Input} {routes : OrderId → Option Fd} {side : Side}
    {sender : Fd} (p : Trade → Bool) (fd : Fd) {trades : List Trade}
    (hroute : ∀ t ∈ trades, ∃ fd', submitterOf inputs (t.counterparty side) = some fd' ∧
      routes (t.counterparty side) = some fd')
    (hown : ∀ t ∈ trades, ownSides inputs fd t
      = (if submitterOf inputs (t.counterparty side) = some fd then 1 else 0)
        + if sender = fd then 1 else 0) :
    toldTo p fd (notices routes side trades) + (if sender = fd then quantityOf p trades else 0)
      = toldOf inputs fd p trades := by
  induction trades with
  | nil => simp [toldTo, notices, quantityOf, toldOf]
  | cons t ts ih =>
    have hrest := ih (fun t' ht' => hroute t' (List.mem_cons_of_mem t ht'))
      fun t' ht' => hown t' (List.mem_cons_of_mem t ht')
    obtain ⟨fd', hsub, hto⟩ := hroute t List.mem_cons_self
    have htold : toldTo p fd (notices routes side (t :: ts))
        = (if fd' = fd then if p t then t.quantity.toNat else 0 else 0)
          + toldTo p fd (notices routes side ts) := by
      rw [notices, List.map_cons, ← List.singleton_append, toldTo_append, toldTo_singleton, hto,
        (toldIn_notice p t).2]
      rfl
    have hquantity : quantityOf p (t :: ts)
        = (if p t then t.quantity.toNat else 0) + quantityOf p ts := by
      rw [quantityOf, List.map_cons, List.sum_cons]
      rfl
    rw [htold, toldOf_cons, hquantity, hown t List.mem_cons_self, hsub, ← hrest]
    by_cases hp : p t = true
    · by_cases hfd : fd' = fd
      · by_cases hself : sender = fd
        · simp only [hp, hfd, hself, if_true]
          omega
        · simp [hp, hfd, hself]
      · by_cases hself : sender = fd
        · simp only [hp, hfd, hself, if_true, if_false, Option.some.injEq]
          omega
        · simp [hp, hfd, hself]
    · simp [hp]

/-- Who submitted an order is known once and for all. -/
theorem submitterOf_prefix {inputs rest : List Input} {id : OrderId} {fd : Fd}
    (h : submitterOf inputs id = some fd) : submitterOf (inputs ++ rest) id = some fd := by
  unfold submitterOf at h ⊢
  obtain ⟨i, hi, hfd⟩ := Option.map_eq_some_iff.mp h
  rw [List.find?_append, hi]
  exact congrArg some hfd

/-- With distinct ids, the submitter of an order is the connection of its request. -/
theorem submitterOf_mem {done rest : List Input} {i : Input} {order : Order}
    (hd : (acceptedIds (done ++ i :: rest)).Nodup) (ho : i.accepted = some order) :
    submitterOf (done ++ i :: rest) order.id = some i.message.fd := by
  have hnone : submitterOf done order.id = none := by
    cases hsome : submitterOf done order.id with
    | none => rfl
    | some fd =>
      exact absurd (mem_acceptedIds_of_submitterOf hsome) (notMem_acceptedIds hd order ho)
  have hself : submitterOf (done ++ [i]) order.id = some i.message.fd := by
    rw [submitterOf_append, hnone]
    simp [submitterOf, ho]
  rw [← List.singleton_append, ← List.append_assoc]
  exact submitterOf_prefix hself

theorem exists_of_mem_tradesFrom {now : Clock} {branch : Branch} {t : Trade}
    {fills : List ((Price × Node) × ℕ)} {k : ℕ} (h : t ∈ tradesFrom now branch k fills) :
    ∃ price o quantity ts, t = branch.trade price o quantity ts := by
  induction fills generalizing k with
  | nil => exact absurd h List.not_mem_nil
  | cons f fills ih =>
    rcases List.mem_cons.mp h with rfl | h
    · exact ⟨_, _, _, _, rfl⟩
    · exact ih h

section Submits

variable {s s' : Session} {i : Input} {order : Order}

/-- An order is the party of its trades on its own side. -/
theorem Session.Submits.party (h : s.Submits i order s') (hs : order.side.IsProper) {t : Trade}
    (ht : t ∈ tradesOf s.processor.book i) : t.party order.side = order.id := by
  rw [tradesOf_of_accepted h.accepted] at ht
  obtain ⟨price, o, quantity, ts, rfl⟩ := exists_of_mem_tradesFrom ht
  exact (party_branchOf hs price o quantity ts).1

/-- What an order trades, and what rests when it has come in, if it is not a market order. -/
theorem Session.Submits.balance (h : s.Submits i order s') (hs : order.side.IsProper) {side : Side}
    (hside : side.IsProper) (id : OrderId) (hid : order.id = id → order.orderType = .LIMIT) :
    tradedTotal side id (tradesOf s.processor.book i) + restingTotal side id s'.processor.book
      = restingTotal side id s.processor.book + orderTotal side id [order] := by
  obtain ⟨mid, ht, hcases⟩ := OrderBook.step_matchOrder h.constructed i.times.now s.processor.book
  have hbal := ht.balance hs hside id i.times.now 0
  rw [← tradesOf_of_accepted h.accepted] at hbal
  rw [h.book, ← hbal]
  rcases hcases with ⟨heq, hnot⟩ | ⟨ts, -, -, -, hins⟩
  · -- nothing is left of it
    rw [heq]
    by_cases hown : order.side = side ∧ order.id = id
    · have hzero : (sweepOf s.processor.book order).unmet = 0 := by
        by_contra hpos
        exact hnot ⟨Nat.pos_of_ne_zero hpos, hid hown.2, hs⟩
      rw [if_pos hown, hzero]
      omega
    · rw [if_neg hown]
      omega
  · rw [hins.restingTotal, orderTotal_singleton, OrderBook.toNat_remainder]
    show _ + (_ + if order.side = side ∧ order.id = id then _ else 0) = _
    omega

end Submits

theorem ack_ne_trade (id : OrderId) : (ackFrame id).type ≠ MessageType.TRADE.byte :=
  (by decide : MessageType.ORDER_ACK.byte ≠ MessageType.TRADE.byte)

section Parties

variable {order : Order} (hs : order.side.IsProper) {t : Trade}
  (hparty : t.party order.side = order.id)

include hs hparty

/-- The parties of a trade are the order that came in and its counterparty. -/
theorem party_or (side : Side) :
    t.party side = order.id ∨ t.party side = t.counterparty order.side := by
  by_cases hside : side = .BID
  · rcases hs with hs | hs
    · rw [hside, ← hs]
      exact Or.inl hparty
    · rw [hside, hs]
      exact Or.inr rfl
  · rcases hs with hs | hs
    · rw [Trade.party, if_neg hside, hs]
      exact Or.inr rfl
    · rw [Trade.party, if_neg hside]
      rw [hs] at hparty
      exact Or.inl hparty

theorem ownSides_eq (inputs : List Input) (fd : Fd) : ownSides inputs fd t
    = (if submitterOf inputs (t.counterparty order.side) = some fd then 1 else 0)
      + if submitterOf inputs order.id = some fd then 1 else 0 := by
  rw [← hparty, ownSides]
  rcases hs with hs | hs
  · rw [hs]
    exact Nat.add_comm _ _
  · rw [hs]
    rfl

end Parties

/-! ### The invariant -/

/-- What connections have been told after the requests in `done`, where `trades` are the
trades so far and `all` are the requests of the whole run. -/
structure Session.Told (all done : List Input) (trades : List Trade) (s : Session) : Prop where
  routed : Routed done s
  named : ∀ t ∈ trades, ∀ side, t.party side ∈ acceptedIds done
  whole : ∀ m ∈ s.pushed, Whole m.payload
  told : ∀ p fd, toldTo p fd s.pushed = toldOf all fd p trades
  balanced : ∀ i ∈ done, ∀ order, i.accepted = some order → order.orderType = .LIMIT →
    (∀ j ∈ done, j.message.type = .CANCEL_ORDER → payloadId j.message.payload ≠ order.id) →
    order.quantity.toNat = tradedTotal order.side order.id trades
      + restingTotal order.side order.id s.processor.book

namespace Session.Told

variable {all done rest : List Input} {trades : List Trade} {s s' : Session} {i : Input}

theorem told_empty (all : List Input) : Session.Told all [] [] .empty where
  routed := routed_empty
  named := fun _ ht => absurd ht List.not_mem_nil
  whole := fun _ hm => absurd hm List.not_mem_nil
  told := fun _ _ => rfl
  balanced := fun _ hi => absurd hi List.not_mem_nil

theorem mem_acceptedIds {inputs : List Input} {order : Order} (hi : i ∈ inputs)
    (ho : i.accepted = some order) : order.id ∈ acceptedIds inputs := by
  refine List.mem_filterMap.mpr ⟨i, hi, ?_⟩
  rw [ho]
  rfl

/-- A request that is answered, and trades nothing. -/
theorem answered (h : Session.Told all done trades s) {failures : ℕ → ℕ}
    (hs : s.step failures i = .ok s') (hacc : i.accepted = none)
    (hrouted : Routed (done ++ [i]) s')
    (hkeeps : ∀ side id, (i.message.type = .CANCEL_ORDER → payloadId i.message.payload ≠ id) →
      restingTotal side id s'.processor.book = restingTotal side id s.processor.book) :
    Session.Told all (done ++ [i]) trades s' := by
  obtain ⟨reply, hpushed, hwhole, hzero⟩ := told_of_none hs hacc
  have hids : acceptedIds (done ++ [i]) = acceptedIds done := by
    simp [acceptedIds, hacc]
  refine ⟨hrouted, ?_, fun m hm => ?_, fun p fd => ?_, fun j hj order ho hlimit hkept => ?_⟩
  · rw [hids]
    exact h.named
  · rw [hpushed, List.mem_append, List.mem_singleton] at hm
    rcases hm with hm | rfl
    · exact h.whole m hm
    · exact hwhole
  · rw [hpushed, toldTo_append, toldTo_singleton, hzero, ite_self, Nat.add_zero, h.told]
  · rcases List.mem_append.mp hj with hj | hj
    · rw [hkeeps _ _ (hkept i (List.mem_append_right _ List.mem_cons_self))]
      exact h.balanced j hj order ho hlimit fun j' hj' => hkept j' (List.mem_append_left _ hj')
    · rw [List.mem_singleton.mp hj, hacc] at ho
      exact absurd ho (by simp)

/-- A request that submits an order. -/
theorem submits (h : Session.Told all done trades s) (hall : all = done ++ i :: rest)
    (hids : (acceptedIds all).Nodup)
    (hproper : ∀ j ∈ all, ∀ order, j.accepted = some order → order.Proper) {order : Order}
    (hsub : s.Submits i order s') :
    Session.Told all (done ++ [i]) (trades ++ tradesOf s.processor.book i) s' := by
  rw [hall] at hids hproper
  have hmem : i ∈ done ++ i :: rest := List.mem_append_right _ List.mem_cons_self
  have hs : order.side.IsProper := (hproper i hmem order hsub.accepted).1
  have hnew := notMem_acceptedIds hids order hsub.accepted
  have hgrow : ∀ {id}, id ∈ acceptedIds done → id ∈ acceptedIds (done ++ [i]) := by
    intro id hid
    rw [acceptedIds, List.filterMap_append]
    exact List.mem_append_left _ hid
  -- the counterparties rested, and are routed to their submitters
  have hroute : ∀ t ∈ tradesOf s.processor.book i, ∃ fd,
      submitterOf done (t.counterparty order.side) = some fd ∧
      Function.update s.processor.orderToClientFd order.id (some i.message.fd)
        (t.counterparty order.side) = some fd :=
    fun t ht => h.routed.route_counterparty hsub hnew ht
  constructor
  · exact h.routed.submits hsub hnew
  · intro t ht side
    rcases List.mem_append.mp ht with ht | ht
    · exact hgrow (h.named t ht side)
    · rcases party_or hs (hsub.party hs ht) side with hself | hcounter
      · rw [hself]
        exact mem_acceptedIds (List.mem_append_right _ List.mem_cons_self) hsub.accepted
      · obtain ⟨fd, hfd, -⟩ := hroute t ht
        rw [hcounter]
        exact hgrow (mem_acceptedIds_of_submitterOf hfd)
  · intro m hm
    rw [hsub.pushed, List.mem_append, List.mem_append, List.mem_singleton] at hm
    rcases hm with (hm | hm) | rfl
    · exact h.whole m hm
    · obtain ⟨t, -, rfl⟩ := List.mem_map.mp hm
      exact (toldIn_notice (fun _ => true) t).1
    · exact (toldIn_reply (fun _ => true) _ (short_ackFrame order.id) (ack_ne_trade order.id)).1
  · intro p fd
    have hself : submitterOf all order.id = some i.message.fd := by
      rw [hall]
      exact submitterOf_mem hids hsub.accepted
    have htrades : toldTo p fd (notices (Function.update s.processor.orderToClientFd order.id
        (some i.message.fd)) order.side (tradesOf s.processor.book i))
        + (if i.message.fd = fd then quantityOf p (tradesOf s.processor.book i) else 0)
        = toldOf all fd p (tradesOf s.processor.book i) := by
      refine toldTo_trades p fd (fun t ht => ?_) fun t ht => ?_
      · obtain ⟨fd', hfd', hto⟩ := hroute t ht
        rw [hall]
        exact ⟨fd', submitterOf_prefix hfd', hto⟩
      · rw [ownSides_eq hs (hsub.party hs ht) all fd, hself]
        simp only [Option.some.injEq]
    rw [hsub.pushed, toldTo_append, toldTo_append, toldTo_singleton,
      (toldIn_reply p _ (short_ackFrame order.id) (ack_ne_trade order.id)).2, h.told,
      Nat.add_assoc, toldOf_append, htrades]
  · intro j hj order' ho' hlimit hkept
    rw [tradedTotal_append]
    rcases List.mem_append.mp hj with hj | hj
    · -- an order that was there before
      have hne : order.id ≠ order'.id := fun heq => hnew (heq ▸ mem_acceptedIds hj ho')
      have hs' : order'.side.IsProper := (hproper j (List.mem_append_left _ hj) order' ho').1
      have hbal := hsub.balance hs hs' order'.id fun heq => absurd heq hne
      have hzero : orderTotal order'.side order'.id [order] = 0 := by
        rw [orderTotal_singleton, if_neg fun heq => hne heq.2]
      have hold := h.balanced j hj order' ho' hlimit fun j' hj' =>
        hkept j' (List.mem_append_left _ hj')
      omega
    · -- the order that has come in
      rw [List.mem_singleton.mp hj, hsub.accepted] at ho'
      obtain rfl := Option.some.inj ho'
      have hbal := hsub.balance hs hs order.id fun _ => hlimit
      have hquantity : orderTotal order.side order.id [order] = order.quantity.toNat := by
        rw [orderTotal_singleton, if_pos ⟨rfl, rfl⟩]
      have hrests := restingTotal_eq_zero (h.routed.not_rests hnew) order.side
      have htraded : tradedTotal order.side order.id trades = 0 := by
        rw [tradedTotal, List.sum_eq_zero]
        intro x hx
        obtain ⟨t, ht, rfl⟩ := List.mem_map.mp hx
        refine if_neg fun heq => hnew ?_
        rw [← heq]
        exact h.named t ht order.side
      omega

/-- **A request keeps the invariant.** -/
theorem step (h : Session.Told all done trades s) (hall : all = done ++ i :: rest)
    (hids : (acceptedIds all).Nodup)
    (hproper : ∀ j ∈ all, ∀ order, j.accepted = some order → order.Proper) {failures : ℕ → ℕ}
    (hs : s.step failures i = .ok s') : ∃ trades', Session.Told all (done ++ [i]) trades' s' := by
  have hw := wellFormed_of_step hs
  have hrouted : Routed (done ++ [i]) s' := by
    obtain ⟨s₁, hs₁, hrouted⟩ := h.routed.step failures hw (notMem_acceptedIds (hall ▸ hids))
    obtain rfl := Except.ok.inj (hs.symm.trans hs₁)
    exact hrouted
  obtain ⟨s₁, hs₁, -, hcases⟩ := step_cases failures h.routed.inv hw
  obtain rfl := Except.ok.inj (hs.symm.trans hs₁)
  rcases hcases with ⟨order, hsub⟩ | ⟨hacc, hsame, -⟩ | ⟨loc, n, hacc, ht, -, -, hid, hr, -⟩
  · exact ⟨_, h.submits hall hids hproper hsub⟩
  · refine ⟨trades, h.answered hs hacc hrouted fun side id _ => ?_⟩
    rw [hsame]
  · -- a cancel takes away the order it names
    refine ⟨trades, h.answered hs hacc hrouted fun side id hne => ?_⟩
    have hrest := hr.restingTotal hid side id
    rw [cancelledTotal_singleton, if_neg fun heq => hne ht heq.2] at hrest
    exact hrest.symm

/-- **A run keeps the invariant.** -/
theorem run {inputs : List Input} {failures : ℕ → ℕ}
    (hrun : Session.empty.run failures inputs = .ok s) (hids : (acceptedIds inputs).Nodup)
    (hproper : ∀ j ∈ inputs, ∀ order, j.accepted = some order → order.Proper) :
    ∃ trades, Session.Told inputs inputs trades s := by
  have hend := foldlM_ok_invariant (P := fun rest (t : Session) => ∃ done trades,
    done ++ rest = inputs ∧ Session.Told inputs done trades t) ?_ inputs _
    ⟨[], [], rfl, told_empty inputs⟩ hrun
  · obtain ⟨done, trades, hdone, htold⟩ := hend
    rw [List.append_nil] at hdone
    rw [hdone] at htold
    exact ⟨trades, htold⟩
  · rintro i rest t t' ⟨done, trades, hdone, htold⟩ hs
    obtain ⟨trades', htold'⟩ := htold.step hdone.symm hids hproper hs
    exact ⟨done ++ [i], trades', by rw [List.append_assoc]; exact hdone, htold'⟩

end Session.Told

/-! ### Trades with other connections, and with the own one -/

/-- The trades of an order with orders of other connections. -/
def tradesOutside (inputs : List Input) (fd : Fd) (side : Side) (id : OrderId) (t : Trade) : Bool :=
  t.party side = id ∧ submitterOf inputs (t.party side.opposite) ≠ some fd

/-- The trades of an order with orders of its own connection. -/
def tradesWithin (inputs : List Input) (fd : Fd) (side : Side) (id : OrderId) (t : Trade) : Bool :=
  t.party side = id ∧ submitterOf inputs (t.party side.opposite) = some fd

/-- A connection is told once of a trade with another one, and twice of a trade with
itself. -/
theorem toldOf_own {inputs : List Input} {fd : Fd} {side : Side} (hs : side.IsProper)
    {id : OrderId} (hown : submitterOf inputs id = some fd) (trades : List Trade) :
    ∃ within, toldOf inputs fd (tradesWithin inputs fd side id) trades = 2 * within ∧
      tradedTotal side id trades
        = toldOf inputs fd (tradesOutside inputs fd side id) trades + within := by
  have hsides : ∀ t : Trade, t.party side = id → ownSides inputs fd t
      = 1 + if submitterOf inputs (t.party side.opposite) = some fd then 1 else 0 := by
    intro t ht
    rw [← ht] at hown
    rcases hs with rfl | rfl
    · rw [ownSides, show submitterOf inputs t.buyerOrderId = some fd from hown, if_pos rfl]
      rfl
    · rw [ownSides, show submitterOf inputs t.sellerOrderId = some fd from hown, if_pos rfl,
        Nat.add_comm]
      rfl
  induction trades with
  | nil => exact ⟨0, rfl, rfl⟩
  | cons t ts ih =>
    obtain ⟨within, htwice, htotal⟩ := ih
    have hcons : tradedTotal side id (t :: ts)
        = (if t.party side = id then t.quantity.toNat else 0) + tradedTotal side id ts := by
      rw [tradedTotal, List.map_cons, List.sum_cons]
      rfl
    rw [toldOf_cons, toldOf_cons, hcons, htwice, htotal]
    by_cases hid : t.party side = id
    · rw [if_pos hid, hsides t hid]
      by_cases hself : submitterOf inputs (t.party side.opposite) = some fd
      · have hin : tradesWithin inputs fd side id t = true := decide_eq_true ⟨hid, hself⟩
        refine ⟨t.quantity.toNat + within, ?_, ?_⟩
        · rw [if_pos hself, if_pos hin]
          omega
        · rw [if_neg fun h => (of_decide_eq_true h).2 hself]
          omega
      · have hout : tradesOutside inputs fd side id t = true := decide_eq_true ⟨hid, hself⟩
        refine ⟨within, ?_, ?_⟩
        · rw [if_neg fun h => hself (of_decide_eq_true h).2]
          omega
        · rw [if_neg hself, if_pos hout]
          omega
    · refine ⟨within, ?_, ?_⟩
      · rw [if_neg fun h => hid (of_decide_eq_true h).1]
        omega
      · rw [if_neg hid, if_neg fun h => hid (of_decide_eq_true h).1]
        omega

end Exchange
