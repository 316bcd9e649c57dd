import Exchange.Processor.Faults

/-!
# The traffic of a run

One request may bring about as many trades as there are orders in the book, and each of
them is told to both parties.  Over a run the outgoing traffic is bounded all the same:
a trade that takes a resting order whole is paid for by the request that brought this
order to rest, and a request has at most one other trade.  Orders that rest are the
potential of this argument.

## Main definitions

* `bytesOf` — the bytes of a list of messages.
* `numAccepted` — the number of orders that a list of requests submits.
* `Session.Paid` — the invariant: the requests done have paid for the traffic.

## Main results

* `length_trades_add_resting_le` — the trades of a request are paid for by the orders
  that leave the book.
* `Session.traffic_step` — what a request adds to the traffic and to the potential.
* `traffic_amortized` — the bounds on messages and bytes, over every run.
-/

namespace Exchange

open Bytes MatchingEngine

/-- The bytes of a list of messages. -/
def bytesOf (messages : List OutboundMessage) : ℕ := (messages.map fun m => m.payload.length).sum

@[simp] theorem bytesOf_append (l l' : List OutboundMessage) :
    bytesOf (l ++ l') = bytesOf l + bytesOf l' := by
  simp [bytesOf]

@[simp] theorem bytesOf_singleton (m : OutboundMessage) : bytesOf [m] = m.payload.length := by
  simp [bytesOf]

/-- The number of orders that a list of requests submits. -/
def numAccepted (inputs : List Input) : ℕ := (inputs.filterMap Input.accepted).length

/-! ### The sizes of the frames -/

theorem length_bytes (f : Frame) : f.bytes.length = 5 + f.payload.length := by
  simp [Frame.bytes]
  omega

theorem length_bytes_tradeFrame (t : Trade) : (tradeFrame t).bytes.length = 41 := by
  simp [length_bytes, tradeFrame]

/-- The bytes of the trades of a reply. -/
theorem length_flatten_trades (trades : List Trade) :
    ((trades.map fun t => (tradeFrame t).bytes).flatten).length = 41 * trades.length := by
  induction trades with
  | nil => rfl
  | cons t trades ih =>
    rw [List.map_cons, List.flatten_cons, List.length_append, length_bytes_tradeFrame, ih,
      List.length_cons]
    omega

/-- The bytes of the notices to the counterparties. -/
theorem bytesOf_notices (routes : OrderId → Option Fd) (side : Side) (trades : List Trade) :
    bytesOf (notices routes side trades) = 41 * trades.length := by
  induction trades with
  | nil => rfl
  | cons t trades ih =>
    have hcons : notices routes side (t :: trades)
        = [⟨(routes (t.counterparty side)).getD 0, (tradeFrame t).bytes⟩]
          ++ notices routes side trades := rfl
    rw [hcons, bytesOf_append, bytesOf_singleton, length_bytes_tradeFrame, ih, List.length_cons]
    omega

/-- The texts of the exceptions are short. -/
theorem length_whatBytes_le (e : Exn) : e.whatBytes.length ≤ 43 := by
  cases e <;> decide +kernel

/-! ### One request -/

/-- **The trades of an order are paid for by the orders that leave the book.**  With the
orders that rest afterwards they are at most one more than the orders that rested before:
either the last trade leaves its order in the book, and then nothing of the incoming order
comes to rest, or every trade takes its order whole. -/
theorem length_trades_add_resting_le {order : Order} (hc : order.Constructed) (now : Clock)
    (book : OrderBook) :
    (sweepOf book order).fills.length + (book.step (.matchOrder now order)).resting.length
      ≤ book.resting.length + 1 := by
  have hfills := length_fills_le weight reduceBy (fun a => (branchOf order).blocked a.1)
    (book.restingOn order.side.opposite) order.quantity.toNat
  change (sweepOf book order).fills.length + (if 0 < (sweepOf book order).unmet then 1 else 0)
    ≤ (sweepOf book order).gone.length + 1 at hfills
  obtain ⟨mid, ht, hcases⟩ := OrderBook.step_matchOrder hc now book
  have hcut : book.resting.length = (sweepOf book order).gone.length + mid.resting.length := by
    simpa using (ht.map_resting_perm (fun _ => ()) fun _ _ => rfl).length_eq
  rcases hcases with ⟨heq, -⟩ | ⟨ts, hpos, -, hs, hi⟩
  · rw [heq]
    omega
  · -- the remainder rests
    have hlen := (hi.resting_perm hs).length_eq
    rw [List.length_cons] at hlen
    rw [if_pos hpos] at hfills
    omega

/-- The reply to a request that submits no order is short. -/
theorem Session.Declines.length_le {s s' : Session} {i : Input} {fs : List Frame}
    (h : s.Declines i s' fs) : (fs.map Frame.bytes).flatten.length ≤ 60 := by
  cases h with
  | @refused e ht hd hbook =>
    have hwhat := length_whatBytes_le e
    simp only [List.map_cons, List.map_nil, List.flatten_cons, List.flatten_nil, List.append_nil,
      length_bytes, rejectFrame, List.length_append, length_u64Bytes, length_leBytes]
    omega
  | cancelled ht hc => simp [length_bytes, cancelAckFrame]
  | unknown ht hc hbook =>
    have hwhat : Exn.idNotFound.whatBytes.length = 30 := by decide +kernel
    simp only [List.map_cons, List.map_nil, List.flatten_cons, List.flatten_nil, List.append_nil,
      List.length_append, length_bytes, cancelAckFrame, rejectFrame, length_u64Bytes,
      length_leBytes, hwhat]
    omega

/-- What a request that submits no order adds to the traffic. -/
theorem bytesOf_pushed_of_none {failures : ℕ → ℕ} {s s' : Session} {i : Input}
    (h : s.step failures i = .ok s') (hacc : i.accepted = none) :
    s'.pushed.length = s.pushed.length + 1 ∧ bytesOf s'.pushed ≤ bytesOf s.pushed + 60 := by
  obtain ⟨fs, hdeclines, hpushed⟩ := declines_of_none h hacc
  rw [hpushed, bytesOf_append, bytesOf_singleton, List.length_append]
  exact ⟨rfl, Nat.add_le_add_left hdeclines.length_le _⟩

/-- **What a request adds** to the messages and bytes pushed, with the resting orders as
potential.  Each trade is told twice, in the reply and to the counterparty. -/
theorem Session.traffic_step {failures : ℕ → ℕ} {s s' : Session} {i : Input}
    (hinv : s.processor.book.Inv) (h : s.step failures i = .ok s') :
    s'.pushed.length + s'.processor.book.resting.length
        ≤ s.pushed.length + s.processor.book.resting.length + 1 + numAccepted [i] ∧
      bytesOf s'.pushed + 82 * s'.processor.book.resting.length
        ≤ bytesOf s.pushed + 82 * s.processor.book.resting.length + 60 + 35 * numAccepted [i] := by
  obtain ⟨s₁, hs₁, -, hcases⟩ := step_cases failures hinv (wellFormed_of_step h)
  obtain rfl := Except.ok.inj (h.symm.trans hs₁)
  rcases hcases with ⟨order, hsub⟩ | ⟨hacc, hsame, -⟩ | ⟨loc, n, hacc, -, -, -, -, hr, -⟩
  · have hpaid := length_trades_add_resting_le hsub.constructed i.times.now s.processor.book
    have htrades : (tradesOf s.processor.book i).length
        = (sweepOf s.processor.book order).fills.length := by
      rw [tradesOf_of_accepted hsub.accepted, length_tradesFrom]
    have hacc : numAccepted [i] = 1 := by simp [numAccepted, hsub.accepted]
    have hack : (ackFrame order.id).bytes.length = 13 := by simp [length_bytes, ackFrame]
    have hnotices : ∀ routes, (notices routes order.side (tradesOf s.processor.book i)).length
        = (tradesOf s.processor.book i).length := fun routes => List.length_map _
    rw [← hsub.book] at hpaid
    rw [hacc, hsub.pushed]
    constructor
    · simp only [List.length_append, hnotices, List.length_singleton]
      omega
    · simp only [bytesOf_append, bytesOf_notices, bytesOf_singleton, List.length_append,
        length_flatten_trades, hack]
      omega
  · obtain ⟨hlen, hbytes⟩ := bytesOf_pushed_of_none h hacc
    rw [hsame]
    omega
  · obtain ⟨hlen, hbytes⟩ := bytesOf_pushed_of_none h hacc
    have hfewer := hr.resting_perm.length_eq
    rw [List.length_cons] at hfewer
    omega

/-! ### Runs -/

/-- A session in a run with `rest` still to come, whose messages and bytes, with what the
resting orders and the rest of the run may add, stay within the bounds. -/
structure Session.Paid (messages bytes : ℕ) (rest : List Input) (s : Session) : Prop where
  inv : s.processor.book.Inv
  wellFormed : ∀ i ∈ rest, i.message.WellFormed
  messages : s.pushed.length + s.processor.book.resting.length + rest.length + numAccepted rest
    ≤ messages
  bytes : bytesOf s.pushed + 82 * s.processor.book.resting.length + 60 * rest.length
    + 35 * numAccepted rest ≤ bytes

theorem numAccepted_cons (i : Input) (is : List Input) :
    numAccepted (i :: is) = numAccepted [i] + numAccepted is := by
  rw [numAccepted, ← List.singleton_append, List.filterMap_append, List.length_append]
  rfl

theorem Session.Paid.step {messages bytes : ℕ} {i : Input} {is : List Input} {s : Session}
    (h : s.Paid messages bytes (i :: is)) (failures : ℕ → ℕ) :
    ∃ s', s.step failures i = .ok s' ∧ s'.Paid messages bytes is := by
  obtain ⟨s', hs', -⟩ := step_cases failures h.inv (h.wellFormed i List.mem_cons_self)
  obtain ⟨hmessages', hbytes'⟩ := Session.traffic_step h.inv hs'
  have hmessages := h.messages
  have hbytes := h.bytes
  rw [numAccepted_cons, List.length_cons] at hmessages hbytes
  refine ⟨s', hs', Session.inv_step h.inv hs',
    fun j hj => h.wellFormed j (List.mem_cons_of_mem i hj), ?_, ?_⟩
  · omega
  · omega

/-- **The traffic of every run is linear in its requests**, whatever their ids.  A request
adds one message of at most 60 bytes, and the order it submits, if any, one message and 35
bytes more: this pays for all trades with the order, when it comes in and while it rests.
The orders that rest at the end have not used theirs up. -/
theorem traffic_amortized (failures : ℕ → ℕ) (inputs : List Input)
    (hw : ∀ i ∈ inputs, i.message.WellFormed) :
    ∃ s, Session.empty.run failures inputs = .ok s ∧
      s.pushed.length + s.processor.book.resting.length ≤ inputs.length + numAccepted inputs ∧
      bytesOf s.pushed + 82 * s.processor.book.resting.length
        ≤ 60 * inputs.length + 35 * numAccepted inputs := by
  have hstart : Session.empty.Paid (inputs.length + numAccepted inputs)
      (60 * inputs.length + 35 * numAccepted inputs) inputs := by
    refine ⟨OrderBook.inv_empty, hw, ?_, ?_⟩
    · show 0 + 0 + inputs.length + numAccepted inputs ≤ _
      omega
    · show 0 + 82 * 0 + 60 * inputs.length + 35 * numAccepted inputs ≤ _
      omega
  obtain ⟨s, hrun, hpaid⟩ :=
    foldlM_invariant (fun _ _ _ h => h.step failures) inputs Session.empty hstart
  exact ⟨s, hrun, hpaid.messages, hpaid.bytes⟩

/-- Two asks, of which the second repeats the id of the first. -/
theorem traffic_amortized_two_asks :
    (∀ i ∈ [askFive 4 100, askFive 4 101], i.message.WellFormed) ∧
      ∃ s, Session.empty.run (fun _ => 0) [askFive 4 100, askFive 4 101] = .ok s ∧
        s.pushed.length + s.processor.book.resting.length
          ≤ 2 + numAccepted [askFive 4 100, askFive 4 101] ∧
        bytesOf s.pushed + 82 * s.processor.book.resting.length
          ≤ 60 * 2 + 35 * numAccepted [askFive 4 100, askFive 4 101] :=
  ⟨by decide, traffic_amortized (fun _ => 0) [askFive 4 100, askFive 4 101] (by decide)⟩

end Exchange
