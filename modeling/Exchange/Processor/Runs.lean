import Exchange.Book.Conservation
import Exchange.Book.Index
import Exchange.Lib.Transducer
import Exchange.Processor.Answers

/-!
# Runs of the processor

A session is the processor in the course of a run: its members, what it has pushed, and
as a ghost the connection that each list node of the book was submitted from.  What one
request can do to a session is said once, in `step_cases`, and the results about runs
follow from it.

## Main definitions

* `Session`, `Session.step`, `Session.run` — the processor in a run of requests.
* `Session.Declines` — what a request that submits no order does, and its reply.
* `OrderBook.Clashes` — an order comes to rest under the id of an order that keeps resting.
* `OrderBook.NoOrphan` — a cancel reaches every resting order.

## Main results

* `step_cases` — what one request does.
* `Indexed.step_matchOrder_iff` — a match keeps the index complete exactly when its order
  does not clash.
* `noOrphan_iff` — no order is orphaned along a run if and only if no order clashes.
-/

namespace Exchange

open Bytes MatchingEngine

/-- A request with the readings of the clock while it is processed. -/
structure Input where
  times : Times
  message : InboundMessage

/-- The order a request is decoded to, when it is a new order that the constructor
accepts. -/
def Input.accepted (i : Input) : Option Order :=
  if i.message.type = .NEW_ORDER then
    (deserializeOrder i.times.received i.message.payload).toOption else none

/-- The processor in the course of a run.  `owner` is a ghost: the connection that the
order in a list node was submitted from. -/
structure Session where
  processor : Processor
  pushed : List OutboundMessage
  missingReads : List OrderId
  owner : ℕ → Fd

namespace Session

/-- A processor over an empty book. -/
def empty : Session := ⟨.empty, [], [], fun _ => 0⟩

/-- One request.  The node that is made for the remainder of an order, if any, belongs
to the connection of the request. -/
def step (failures : ℕ → ℕ) (s : Session) (i : Input) : Except Fault Session :=
  (process i.times failures s.processor s.pushed i.message).map fun r =>
    ⟨r.processor, r.pushed, s.missingReads ++ r.missingReads,
      Function.update s.owner s.processor.book.nextPos i.message.fd⟩

theorem step_of_process {failures : ℕ → ℕ} {s : Session} {i : Input} {r : Processed}
    (h : process i.times failures s.processor s.pushed i.message = .ok r) :
    s.step failures i = .ok ⟨r.processor, r.pushed, s.missingReads ++ r.missingReads,
      Function.update s.owner s.processor.book.nextPos i.message.fd⟩ := by
  rw [step, h]
  rfl

/-- A run of requests. -/
def run (failures : ℕ → ℕ) (s : Session) (inputs : List Input) : Except Fault Session :=
  inputs.foldlM (step failures) s

end Session

/-- The trades a request brings about. -/
def tradesOf (book : OrderBook) (i : Input) : List Trade :=
  match i.accepted with
  | some order =>
      tradesFrom i.times.now (branchOf order) 0 (sweepOf book order).fills
  | none => []

theorem tradesOf_of_accepted {book : OrderBook} {i : Input} {order : Order}
    (h : i.accepted = some order) :
    tradesOf book i = tradesFrom i.times.now (branchOf order) 0 (sweepOf book order).fills := by
  rw [tradesOf, h]

theorem tradesOf_of_none {book : OrderBook} {i : Input} (h : i.accepted = none) :
    tradesOf book i = [] := by
  rw [tradesOf, h]

/-! ### What one request does -/

/-- A new order that is accepted, and what it does to a session. -/
structure Session.Submits (s : Session) (i : Input) (order : Order) (s' : Session) : Prop where
  accepted : i.accepted = some order
  constructed : order.Constructed
  id_eq : order.id = payloadId i.message.payload
  matched : ∃ r, matchOrder i.times.now s.processor.book order [] = .ok r ∧
    r.trades = tradesOf s.processor.book i ∧ s'.processor.book = r.book
  book : s'.processor.book = s.processor.book.step (.matchOrder i.times.now order)
  routes : s'.processor.orderToClientFd = readRoutes
    (Function.update s.processor.orderToClientFd order.id (some i.message.fd)) order.side
    (tradesOf s.processor.book i)
  pushed : s'.pushed = s.pushed
    ++ notices (Function.update s.processor.orderToClientFd order.id (some i.message.fd))
      order.side (tradesOf s.processor.book i)
    ++ [⟨i.message.fd, ((tradesOf s.processor.book i).map fun t => (tradeFrame t).bytes).flatten
      ++ (ackFrame order.id).bytes⟩]
  missingReads : (∀ t ∈ tradesOf s.processor.book i,
      Function.update s.processor.orderToClientFd order.id (some i.message.fd)
        (t.counterparty order.side) ≠ none) → s'.missingReads = s.missingReads

/-- A cancel removes the order that the index entry of its id points to, and its route. -/
theorem step_cancel (failures : ℕ → ℕ) {s : Session} (h : s.processor.book.Inv) {i : Input}
    (ht : i.message.type = .CANCEL_ORDER) (hlen : 8 ≤ i.message.payload.length)
    {loc : OrderLocation}
    (hloc : s.processor.book.orderMap (payloadId i.message.payload) = some loc) :
    ∃ s' n, s.step failures i = .ok s' ∧
      s'.owner = Function.update s.owner s.processor.book.nextPos i.message.fd ∧
      s'.missingReads = s.missingReads ∧ n.order.id = payloadId i.message.payload ∧
      s.processor.book.Removes (payloadId i.message.payload) loc.side loc.price n
        s'.processor.book ∧
      s'.processor.orderToClientFd = Function.update s.processor.orderToClientFd
        (payloadId i.message.payload) none := by
  obtain ⟨n, book', -, hid, hc, hr⟩ := h.cancelOrder_eq_ok hloc
  have heq := process_cancel i.times failures s.processor s.pushed ht hlen hc
  exact ⟨_, n, Session.step_of_process heq, rfl, List.append_nil _, hid, hr, rfl⟩

/-- **What one request does.**  Under the invariant of the book a well-formed request is
processed: it submits an order, or it is refused and changes nothing, or it cancels the
order its id's index entry points to. -/
theorem step_cases (failures : ℕ → ℕ) {s : Session} (h : s.processor.book.Inv) {i : Input}
    (hw : i.message.WellFormed) :
    ∃ s', s.step failures i = .ok s' ∧
      s'.owner = Function.update s.owner s.processor.book.nextPos i.message.fd ∧
      ((∃ order, s.Submits i order s') ∨
        (i.accepted = none ∧ s'.processor = s.processor ∧ s'.missingReads = s.missingReads) ∨
        ∃ loc n, i.accepted = none ∧ i.message.type = .CANCEL_ORDER ∧
          s'.missingReads = s.missingReads ∧
          s.processor.book.orderMap (payloadId i.message.payload) = some loc ∧
          n.order.id = payloadId i.message.payload ∧
          s.processor.book.Removes (payloadId i.message.payload) loc.side loc.price n
            s'.processor.book ∧
          s'.processor.orderToClientFd = Function.update s.processor.orderToClientFd
            (payloadId i.message.payload) none) := by
  rcases hw with ⟨ht, hlen⟩ | ⟨ht, hlen⟩
  · rcases deserializeOrder_cases i.times.received hlen with ⟨order, hd, hc, hid⟩ | ⟨e, hd⟩
    · -- a new order that the constructor accepts
      have hacc : i.accepted = some order := by
        rw [Input.accepted, if_pos ht, hd]
        rfl
      obtain ⟨mid, subs, htake, -, hm⟩ := matchOrder_eq hc i.times.now s.processor.book []
      obtain ⟨missed, heq, hmissed⟩ :=
        process_newOrder i.times failures s.processor s.pushed ht hlen hd hm
      have htrades : tradesOf s.processor.book i = _ := tradesOf_of_accepted hacc
      refine ⟨_, Session.step_of_process heq, rfl, Or.inl ⟨order, ?_⟩⟩
      rw [List.length_nil, List.nil_append, ← htrades] at hmissed
      refine ⟨hacc, hc, hid, ⟨_, hm, ?_, rfl⟩, ?_, ?_, ?_, fun hall => ?_⟩
      · exact htrades.symm
      · rw [OrderBook.step, hm]
        rfl
      · rw [htrades]
        rfl
      · rw [htrades]
        rfl
      · show s.missingReads ++ missed = s.missingReads
        rw [hmissed hall, List.append_nil]
    · -- one that it refuses
      have hacc : i.accepted = none := by
        rw [Input.accepted, if_pos ht, hd]
        rfl
      have heq := process_newOrder_refused i.times failures s.processor s.pushed ht hlen hd
      exact ⟨_, Session.step_of_process heq, rfl,
        Or.inr (Or.inl ⟨hacc, rfl, List.append_nil _⟩)⟩
  · have hacc : i.accepted = none := by
      rw [Input.accepted, if_neg (by rw [ht]; decide)]
    cases hloc : s.processor.book.orderMap (payloadId i.message.payload) with
    | none =>
      have heq := process_cancel_refused i.times failures s.processor s.pushed ht hlen
        (OrderBook.cancelOrder_of_none hloc)
      exact ⟨_, Session.step_of_process heq, rfl,
        Or.inr (Or.inl ⟨hacc, rfl, List.append_nil _⟩)⟩
    | some loc =>
      obtain ⟨s', n, hs', howner, hmissing, hid, hr, hroutes⟩ := step_cancel failures h ht hlen hloc
      exact ⟨s', hs', howner,
        Or.inr (Or.inr ⟨loc, n, hacc, ht, hmissing, rfl, hid, hr, hroutes⟩)⟩

/-- A request that is processed at all is well-formed: of another type it is refused by
an exception that is not caught, and of a shorter payload the bounds are overrun. -/
theorem wellFormed_of_step {failures : ℕ → ℕ} {s s' : Session} {i : Input}
    (h : s.step failures i = .ok s') : i.message.WellFormed := by
  rw [Session.step, process] at h
  by_cases hn : i.message.type = .NEW_ORDER
  · refine Or.inl ⟨hn, Nat.not_lt.mp fun hlt => ?_⟩
    rw [if_pos hn] at h
    cases hid : readU64 i.message.payload 0 with
    | error f =>
      rw [hid] at h
      exact absurd h (by simp [Except.map])
    | ok id =>
      rw [hid] at h
      -- the id may be there, but a later field is not
      simp only [newOrder, deserializeOrder_of_lt _ hlt, catchRejection] at h
      exact absurd h (by simp [Except.map])
  · rw [if_neg hn] at h
    by_cases hc : i.message.type = .CANCEL_ORDER
    · refine Or.inr ⟨hc, Nat.not_lt.mp fun hlt => ?_⟩
      rw [if_pos hc, readU64_zero_of_lt hlt] at h
      exact absurd h (by simp [Except.map])
    · rw [if_neg hc] at h
      exact absurd h (by simp [Except.map])

theorem wellFormed_of_run {failures : ℕ → ℕ} {inputs : List Input} : ∀ {s s' : Session},
    s.run failures inputs = .ok s' → ∀ i ∈ inputs, i.message.WellFormed := by
  induction inputs with
  | nil => exact fun _ _ hi => absurd hi List.not_mem_nil
  | cons j inputs ih =>
    intro s s' h
    rw [Session.run, List.foldlM_cons] at h
    cases hs : s.step failures j with
    | error f =>
      rw [hs] at h
      exact absurd h nofun
    | ok s₁ =>
      rw [hs] at h
      intro i hi
      rcases List.mem_cons.mp hi with rfl | hi
      · exact wellFormed_of_step hs
      · exact ih h i hi

/-- A request for an order that the constructor accepts submits it. -/
theorem submits_of_step {failures : ℕ → ℕ} {s s' : Session} (h : s.processor.book.Inv) {i : Input}
    {order : Order} (hs : s.step failures i = .ok s') (hacc : i.accepted = some order) :
    s.Submits i order s' := by
  obtain ⟨s₁, hs₁, -, ⟨order', hsub⟩ | ⟨hnone, -⟩ | ⟨_, _, hnone, -⟩⟩ :=
    step_cases failures h (wellFormed_of_step hs)
  · obtain rfl := Except.ok.inj (hs.symm.trans hs₁)
    obtain rfl := Option.some.inj (hsub.accepted.symm.trans hacc)
    exact hsub
  · exact absurd (hnone.symm.trans hacc) (by simp)
  · exact absurd (hnone.symm.trans hacc) (by simp)

/-- A request that submits no order pushes one message, to the connection it came from. -/
theorem pushed_of_none {failures : ℕ → ℕ} {s s' : Session} {i : Input}
    (h : s.step failures i = .ok s') (hacc : i.accepted = none) :
    ∃ reply, s'.pushed = s.pushed ++ [⟨i.message.fd, reply⟩] := by
  rcases wellFormed_of_step h with ⟨ht, hlen⟩ | ⟨ht, hlen⟩
  · rcases deserializeOrder_cases i.times.received hlen with ⟨order, hd, -⟩ | ⟨e, hd⟩
    · rw [Input.accepted, if_pos ht, hd] at hacc
      exact absurd hacc (by simp [Except.toOption])
    · have heq := process_newOrder_refused i.times failures s.processor s.pushed ht hlen hd
      rw [Session.step_of_process heq] at h
      exact ⟨_, congrArg Session.pushed (Except.ok.inj h).symm⟩
  · cases hc : s.processor.book.cancelOrder (payloadId i.message.payload) with
    | ok book =>
      have heq := process_cancel i.times failures s.processor s.pushed ht hlen hc
      rw [Session.step_of_process heq] at h
      exact ⟨_, congrArg Session.pushed (Except.ok.inj h).symm⟩
    | error f =>
      cases f with
      | exception e =>
        have heq := process_cancel_refused i.times failures s.processor s.pushed ht hlen hc
        rw [Session.step_of_process heq] at h
        exact ⟨_, congrArg Session.pushed (Except.ok.inj h).symm⟩
      | undefinedBehaviour =>
        have heq := process_cancel_undefined i.times failures s.processor s.pushed ht hlen hc
        rw [Session.step, heq] at h
        exact absurd h (by simp [Except.map])

/-- What a request that submits no order does to a session, and the frames of its reply: a
new order is refused, a cancel is carried out, or a cancel names no order. -/
inductive Session.Declines (s : Session) (i : Input) (s' : Session) : List Frame → Prop
  | refused {e : Exn} (ht : i.message.type = .NEW_ORDER)
      (hd : deserializeOrder i.times.received i.message.payload = .error (.exception e))
      (hbook : s'.processor.book = s.processor.book) :
      Declines s i s' [rejectFrame (payloadId i.message.payload) e.whatBytes]
  | cancelled (ht : i.message.type = .CANCEL_ORDER)
      (hc : s.processor.book.cancelOrder (payloadId i.message.payload) = .ok s'.processor.book) :
      Declines s i s' [cancelAckFrame (payloadId i.message.payload)]
  | unknown (ht : i.message.type = .CANCEL_ORDER)
      (hc : s.processor.book.cancelOrder (payloadId i.message.payload)
        = .error (.exception .idNotFound))
      (hbook : s'.processor.book = s.processor.book) :
      Declines s i s' [cancelAckFrame (payloadId i.message.payload),
        rejectFrame (payloadId i.message.payload) Exn.idNotFound.whatBytes]

/-- The reply to a request that submits no order. -/
theorem declines_of_none {failures : ℕ → ℕ} {s s' : Session} {i : Input}
    (h : s.step failures i = .ok s') (hacc : i.accepted = none) :
    ∃ fs, s.Declines i s' fs ∧
      s'.pushed = s.pushed ++ [⟨i.message.fd, (fs.map Frame.bytes).flatten⟩] := by
  rcases wellFormed_of_step h with ⟨ht, hlen⟩ | ⟨ht, hlen⟩
  · rcases deserializeOrder_cases i.times.received hlen with ⟨order, hd, -⟩ | ⟨e, hd⟩
    · rw [Input.accepted, if_pos ht, hd] at hacc
      exact absurd hacc (by simp [Except.toOption])
    · have heq := process_newOrder_refused i.times failures s.processor s.pushed ht hlen hd
      rw [Session.step_of_process heq] at h
      obtain rfl := Except.ok.inj h
      exact ⟨_, .refused ht hd rfl, by simp⟩
  · cases hc : s.processor.book.cancelOrder (payloadId i.message.payload) with
    | ok book =>
      have heq := process_cancel i.times failures s.processor s.pushed ht hlen hc
      rw [Session.step_of_process heq] at h
      obtain rfl := Except.ok.inj h
      exact ⟨_, .cancelled ht hc, by simp⟩
    | error f =>
      cases f with
      | exception e =>
        obtain rfl := OrderBook.exn_of_cancelOrder hc
        have heq := process_cancel_refused i.times failures s.processor s.pushed ht hlen hc
        rw [Session.step_of_process heq] at h
        obtain rfl := Except.ok.inj h
        exact ⟨_, .unknown ht hc rfl, by simp⟩
      | undefinedBehaviour =>
        have heq := process_cancel_undefined i.times failures s.processor s.pushed ht hlen hc
        rw [Session.step, heq] at h
        exact absurd h (by simp [Except.map])

theorem Session.Declines.short {s s' : Session} {i : Input} {fs : List Frame}
    (h : s.Declines i s' fs) : ∀ f ∈ fs, f.Short := by
  cases h with
  | @refused e ht hd hbook =>
    simpa using short_rejectFrame _ (length_whatBytes e)
  | cancelled ht hc => simpa using short_cancelAckFrame _
  | unknown ht hc hbook =>
    simpa using ⟨short_cancelAckFrame _, short_rejectFrame _ (length_whatBytes .idNotFound)⟩

/-! ### Orphans -/

namespace OrderBook

/-- Every resting order is the one its id's index entry points to, so that a cancel of
its id removes it. -/
def NoOrphan (book : OrderBook) : Prop :=
  ∀ side, ∀ a ∈ book.restingOn side,
    book.orderMap a.2.order.id = some ⟨side, a.1, a.2.pos⟩ ∧
      ∃ book', book.cancelOrder a.2.order.id = .ok book' ∧
        book.Removes a.2.order.id side a.1 a.2 book'

/-- Under the invariant of the book, a complete index leaves no orphans. -/
theorem Inv.noOrphan_iff_indexed {book : OrderBook} (h : book.Inv) :
    book.NoOrphan ↔ book.Indexed := by
  constructor
  · exact fun hno side a ha => (hno side a ha).1
  · intro hidx side a ha
    have hloc := hidx side a ha
    obtain ⟨n, book', hpos, -, hc, hr⟩ := h.cancelOrder_eq_ok hloc
    obtain ⟨A, B, hA, -⟩ := hr.queue
    have hn : (a.1, n) ∈ book.restingOn side := by rw [hA]; simp
    have hsame : (a.1, n) = a :=
      h.eq_of_pos (mem_resting_iff.mpr ⟨side, hn⟩) (mem_resting_iff.mpr ⟨side, ha⟩) hpos
    have hna : n = a.2 := congrArg Prod.snd hsame
    rw [hna] at hr
    exact ⟨hloc, book', hc, hr⟩

/-- An order comes to rest under the id of an order that keeps resting: it is a limit
order that is not filled completely when it comes in, and its own trades do not fill
the resting order of its id completely. -/
def Clashes (book : OrderBook) (order : Order) : Prop :=
  order.orderType = .LIMIT ∧ order.side.IsProper ∧ 0 < (sweepOf book order).unmet ∧
    ∃ a ∈ book.resting, a.2.order.id = order.id ∧ a ∉ (sweepOf book order).gone

variable {book : OrderBook} {order : Order}

/-- **The index stays complete exactly when the order does not clash.** -/
theorem Indexed.step_matchOrder_iff (h : book.Indexed) (hinv : book.Inv) (hc : order.Constructed)
    (now : Clock) : (book.step (.matchOrder now order)).Indexed ↔ ¬ book.Clashes order := by
  obtain ⟨mid, ht, ⟨heq, hno⟩ | ⟨ts, hpos, hl, hs, hi⟩⟩ := step_matchOrder hc now book
  · rw [heq]
    exact iff_of_true (h.takes hinv ht) fun hcl => hno ⟨hcl.2.2.1, hcl.1, hcl.2.1⟩
  · -- a remainder is added
    have hclash : book.Clashes order ↔ mid.Rests order.id := by
      rw [hinv.rests_takes_iff ht]
      exact ⟨fun hcl => hcl.2.2.2, fun hr => ⟨hl, hs, hpos, hr⟩⟩
    rw [hclash]
    constructor
    · -- the new node and the old one would have one index entry
      rintro hidx ⟨b, hb, hid⟩
      have hperm := hi.resting_perm hs
      have hnew := hperm.mem_iff.mpr List.mem_cons_self
      have hold := hperm.mem_iff.mpr (List.mem_cons_of_mem _ hb)
      have hinv' := (hinv.takes ht).inserts hi hl hs (by
        rw [UInt32.lt_iff_toNat_lt, toNat_remainder]
        exact hpos)
      have hsame := hidx.eq_of_id hinv' hold hnew hid
      have hfresh := (hinv.takes ht).fresh b hb
      rw [hsame] at hfresh
      exact absurd hfresh (Nat.lt_irrefl _)
    · intro hnot
      exact (h.takes hinv ht).inserts hi hnot

end OrderBook

/-- No order of a run clashes when it comes in. -/
def NoClash (failures : ℕ → ℕ) : Session → List Input → Prop
  | _, [] => True
  | s, i :: is =>
      (∀ order, i.accepted = some order → ¬ s.processor.book.Clashes order) ∧
        ∀ s', s.step failures i = .ok s' → NoClash failures s' is

/-- One request keeps the invariant of the book, and keeps the index complete exactly
when its order does not clash. -/
theorem step_indexed (failures : ℕ → ℕ) {s : Session} (h : s.processor.book.Inv)
    (hidx : s.processor.book.Indexed) {i : Input} (hw : i.message.WellFormed) :
    ∃ s', s.step failures i = .ok s' ∧ s'.processor.book.Inv ∧
      (s'.processor.book.Indexed ↔
        ∀ order, i.accepted = some order → ¬ s.processor.book.Clashes order) := by
  obtain ⟨s', hs', -, ⟨order, hsub⟩ | ⟨hacc, hsame, -⟩ |
    ⟨loc, n, hacc, -, -, -, hid, hr, -⟩⟩ := step_cases failures h hw
  -- only a request that submits an order can clash
  · have hinv : (s.processor.book.step (.matchOrder i.times.now order)).Inv :=
      h.step hsub.constructed
    refine ⟨s', hs', by rw [hsub.book]; exact hinv, ?_⟩
    rw [hsub.book, hidx.step_matchOrder_iff h hsub.constructed, hsub.accepted]
    exact ⟨fun hno o ho => Option.some.inj ho ▸ hno, fun hno => hno order rfl⟩
  · refine ⟨s', hs', by rw [hsame]; exact h, ?_⟩
    rw [hsame]
    exact iff_of_true hidx fun order ho => absurd (hacc.symm.trans ho) (by simp)
  · refine ⟨s', hs', h.removes hr hid, ?_⟩
    exact iff_of_true (hidx.removes h hr hid) fun order ho => absurd (hacc.symm.trans ho) (by simp)

/-- No order clashes when the condition of `step_indexed` is met at every step. -/
theorem noClash_iff_allAlong (failures : ℕ → ℕ) (inputs : List Input) (s : Session) :
    NoClash failures s inputs ↔ AllAlong (Session.step failures) (fun s i =>
      ∀ order, i.accepted = some order → ¬ s.processor.book.Clashes order) s inputs := by
  induction inputs generalizing s with
  | nil => exact Iff.rfl
  | cons i is ih =>
    exact and_congr_right fun _ => forall_congr' fun s' => imp_congr_right fun _ => ih s'

/-- **No order is orphaned if and only if no order clashes.**  Along every run of
well-formed requests from an empty book, with ids of any kind, every resting order is in
every state the one its id's index entry points to, and a cancel removes it, exactly
when no limit order comes to rest under the id of an order that keeps resting. -/
theorem noOrphan_iff (failures : ℕ → ℕ) (inputs : List Input)
    (hw : ∀ i ∈ inputs, i.message.WellFormed) :
    (∀ pre, pre <+: inputs → ∃ s, Session.empty.run failures pre = .ok s ∧
        s.processor.book.NoOrphan) ↔ NoClash failures .empty inputs := by
  rw [noClash_iff_allAlong]
  refine foldlM_prefix_iff (J := fun rest (s : Session) => s.processor.book.Inv ∧
    ∀ i ∈ rest, i.message.WellFormed) ?_ inputs Session.empty ⟨OrderBook.inv_empty, hw⟩
    (OrderBook.inv_empty.noOrphan_iff_indexed.mpr OrderBook.indexed_empty)
  rintro i rest s ⟨hinv, hwf⟩ hno
  obtain ⟨s', hs', hinv', hiff⟩ := step_indexed failures hinv
    (hinv.noOrphan_iff_indexed.mp hno) (hwf i List.mem_cons_self)
  refine ⟨s', hs', ⟨hinv', fun j hj => hwf j (List.mem_cons_of_mem i hj)⟩, ?_⟩
  rw [hinv'.noOrphan_iff_indexed]
  exact hiff

/-- A request for an ask of ten under id 5, at a price given by its low byte. -/
def askFive (fd : Fd) (price : UInt8) : Input :=
  ⟨⟨0, fun _ => 0⟩, ⟨fd, .NEW_ORDER,
    [5, 0, 0, 0, 0, 0, 0, 0, price, 0, 0, 0, 0, 0, 0, 0, 10, 0, 0, 0, 1, 0]⟩⟩

/-- A request for a bid of three at 120 under id 6. -/
def bidSix (fd : Fd) : Input :=
  ⟨⟨0, fun _ => 0⟩, ⟨fd, .NEW_ORDER,
    [6, 0, 0, 0, 0, 0, 0, 0, 120, 0, 0, 0, 0, 0, 0, 0, 3, 0, 0, 0, 0, 0]⟩⟩

/-- A request to cancel id 5. -/
def cancelFive (fd : Fd) : Input :=
  ⟨⟨0, fun _ => 0⟩, ⟨fd, .CANCEL_ORDER, [5, 0, 0, 0, 0, 0, 0, 0]⟩⟩

/-- An ask under id 5 that is cancelled, and another one under the same id. -/
theorem noOrphan_iff_id_again :
    NoClash (fun _ => 0) .empty [askFive 4 100, cancelFive 4, askFive 7 101] ∧
      ∀ pre, pre <+: [askFive 4 100, cancelFive 4, askFive 7 101] →
        ∃ s, Session.empty.run (fun _ => 0) pre = .ok s ∧ s.processor.book.NoOrphan := by
  have hclash : NoClash (fun _ => 0) .empty [askFive 4 100, cancelFive 4, askFive 7 101] := by
    refine ⟨?_, fun s₁ hs₁ => ⟨fun order ho => ?_, fun s₂ hs₂ => ⟨?_, fun _ _ => trivial⟩⟩⟩
    · rintro order - ⟨-, -, -, a, ha, -⟩
      exact absurd ha List.not_mem_nil
    · have hacc : (cancelFive 4).accepted = none := by decide
      exact absurd (hacc.symm.trans ho) (by simp)
    · -- nothing rests when the second ask comes in
      have heval : ((Session.empty.step (fun _ => 0) (askFive 4 100)).toOption.bind fun s₁ =>
          (s₁.step (fun _ => 0) (cancelFive 4)).toOption.map fun s₂ => s₂.processor.book.resting)
          = some [] := by decide +kernel
      simp only [hs₁, hs₂, Except.toOption, Option.bind_some, Option.map_some,
        Option.some.injEq] at heval
      rintro order - ⟨-, -, -, a, ha, -⟩
      rw [heval] at ha
      exact absurd ha List.not_mem_nil
  exact ⟨hclash, (noOrphan_iff (fun _ => 0) _ (by decide)).mpr hclash⟩

/-- Two asks under id 5 at different prices: the first one is orphaned. -/
theorem orphan_of_repeated_id :
    (∀ i ∈ [askFive 4 100, askFive 4 101], i.message.WellFormed) ∧
      ∃ s, Session.empty.run (fun _ => 0) [askFive 4 100, askFive 4 101] = .ok s ∧
        ¬ s.processor.book.NoOrphan := by
  refine ⟨by decide, ?_⟩
  have heval : ((Session.empty.run (fun _ => 0) [askFive 4 100, askFive 4 101]).toOption.map
      fun s => (s.processor.book.restingOn .ASK, s.processor.book.orderMap 5))
      = some ([(100, ⟨0, ⟨0, 5, 100, 10, .ASK, .LIMIT⟩⟩),
        (101, ⟨1, ⟨0, 5, 101, 10, .ASK, .LIMIT⟩⟩)], some ⟨.ASK, 101, 1⟩) := by
    decide +kernel
  obtain ⟨s, hrun, hs⟩ := exists_ok_of_toOption heval
  obtain ⟨hasks, hentry⟩ := Prod.mk.inj hs
  refine ⟨s, hrun, fun hno => ?_⟩
  -- the entry of id 5 points to the second ask, at 101
  have hfirst := (hno .ASK (100, ⟨0, ⟨0, 5, 100, 10, .ASK, .LIMIT⟩⟩) (by rw [hasks]; simp)).1
  rw [hentry] at hfirst
  exact absurd hfirst (by decide)

end Exchange
