import Exchange.Serializer
import Mathlib.Logic.Relation

/-!
# Reading from a client

`client_state.hpp` and `ExchangeServer::handle_read`: the state kept for a connection,
and the loop that reads frames from its socket.  A frame is read in two phases, the
header and the payload, each of which may take several calls; a frame that is complete
and cannot be pushed because the inbound ring is full is kept and retried.

The socket is a list of arrivals: chunks of bytes, of which one `recv` takes as much as
it asks for, and the other results that `recv` may give.  What `handle_read` does in
between is recorded in ghosts: the calls of `recv`, the bytes consumed, the result of the
last push, and the moments of the call, one after each `recv`, each decoded header and each
push.

## Main definitions

* `ClientState` — the state of a connection.
* `Arrival`, `recv` — the socket.
* `RecvCall` — where a `recv` writes, and how much it asks for.
* `Reading` — what `handle_read` reads and writes.
* `headerPhase`, `payloadPhase`, `readIteration`, `handleRead` — `handle_read`.
* `ReadStep`, `LoopStep` — what the loop does at a time, and with its `recv` recorded.

## Main results

* `lt_of_readIteration` — an iteration that goes on has used up some of the socket, or
  has pushed a frame that was kept.
* `readLoop_steps` — the loop takes steps of `LoopStep`, one after the other.
* `handleRead_invariant` — what every such step keeps, a call of `handle_read` keeps.
-/

namespace Exchange

open Bytes

/-- `enum class ReadPhase`. -/
inductive ReadPhase
  | HEADER
  | PAYLOAD
  deriving DecidableEq, Repr

/-- The state of a connection.  The default values are those of `ClientState{}`; of the
members that it leaves uninitialised none is read before it is written. -/
structure ClientState where
  readPhase : ReadPhase := .HEADER
  messageType : MessageType := ⟨0⟩
  headerBuffer : List UInt8 := List.replicate 5 0
  readBuffer : List UInt8 := []
  writeBuffer : List UInt8 := []
  payloadLength : UInt32 := 0
  bytesRead : ℕ := 0
  bytesSent : ℕ := 0
  active : Bool := false
  deriving DecidableEq, Repr

/-! ### The socket -/

/-- What a socket has to give: a chunk of at least one byte, nothing for the moment, the
end of the stream, or an error. -/
inductive Arrival
  | chunk (b : UInt8) (bs : List UInt8)
  | again
  | closed
  | failed
  deriving DecidableEq, Repr

/-- The result of `recv`. -/
inductive Received
  | data (bs : List UInt8)
  | again
  | closed
  | failed
  deriving DecidableEq, Repr

/-- `recv` of at most `n` bytes: from a chunk, as many as are there and asked for.  A
socket that has nothing left to give answers `EAGAIN`, and a `recv` of no bytes returns
0, as at the end of the stream. -/
def recv (n : ℕ) : List Arrival → Received × List Arrival
  | [] => (.again, [])
  | .again :: arrivals => (.again, arrivals)
  | .closed :: arrivals => (.closed, arrivals)
  | .failed :: arrivals => (.failed, arrivals)
  | .chunk b bs :: arrivals =>
      match n with
      | 0 => (.closed, .chunk b bs :: arrivals)
      | n + 1 =>
          match bs.drop n with
          | [] => (.data (b :: bs.take n), arrivals)
          | c :: cs => (.data (b :: bs.take n), .chunk c cs :: arrivals)

/-- The bytes a socket has to give. -/
def streamBytes : List Arrival → List UInt8
  | [] => []
  | .chunk b bs :: arrivals => b :: bs ++ streamBytes arrivals
  | _ :: arrivals => streamBytes arrivals

/-- The bytes and the other results that a socket has to give, counted. -/
def arrivalSize : List Arrival → ℕ
  | [] => 0
  | .chunk _ bs :: arrivals => bs.length + 1 + arrivalSize arrivals
  | _ :: arrivals => arrivalSize arrivals + 1

/-- What `recv` returns: at least one byte and at most as many as were asked for, the
next ones of the stream. -/
theorem recv_data {n : ℕ} {arrivals arrivals' : List Arrival} {bs : List UInt8}
    (h : recv n arrivals = (.data bs, arrivals')) :
    0 < bs.length ∧ bs.length ≤ n ∧ streamBytes arrivals = bs ++ streamBytes arrivals' ∧
      arrivalSize arrivals' < arrivalSize arrivals := by
  cases arrivals with
  | nil => exact absurd h (by simp [recv])
  | cons a arrivals =>
    cases a with
    | again => exact absurd h (by simp [recv])
    | closed => exact absurd h (by simp [recv])
    | failed => exact absurd h (by simp [recv])
    | chunk b cs =>
      cases n with
      | zero => exact absurd h (by simp [recv])
      | succ n =>
        have hcut : cs.take n ++ cs.drop n = cs := List.take_append_drop n cs
        have hlen : (cs.take n).length ≤ n := List.length_take_le n cs
        have htake : (cs.take n).length ≤ cs.length := List.length_take_le' n cs
        -- the chunk is used up, or its rest stays for the next call
        rw [recv] at h
        split at h
        · next hdrop =>
          simp only [Prod.mk.injEq, Received.data.injEq] at h
          obtain ⟨rfl, rfl⟩ := h
          rw [hdrop, List.append_nil] at hcut
          refine ⟨Nat.succ_pos _, by rw [List.length_cons]; omega, ?_, ?_⟩
          · rw [streamBytes, hcut]
          · rw [arrivalSize]
            omega
        · next c cs' hdrop =>
          simp only [Prod.mk.injEq, Received.data.injEq] at h
          obtain ⟨rfl, rfl⟩ := h
          have hsize := congrArg List.length hcut
          rw [List.length_append, hdrop, List.length_cons] at hsize
          refine ⟨Nat.succ_pos _, by rw [List.length_cons]; omega, ?_, ?_⟩
          · rw [hdrop] at hcut
            rw [streamBytes, streamBytes]
            conv_lhs => rw [← hcut]
            simp
          · rw [arrivalSize, arrivalSize]
            omega

/-- The other results of `recv` take no bytes. -/
theorem recv_other {n : ℕ} {arrivals arrivals' : List Arrival} {res : Received}
    (h : recv n arrivals = (res, arrivals')) (hres : ∀ bs, res ≠ .data bs) :
    streamBytes arrivals = streamBytes arrivals' := by
  cases arrivals with
  | nil =>
    rw [recv, Prod.mk.injEq] at h
    rw [← h.2]
  | cons a arrivals =>
    cases a with
    | again => rw [recv, Prod.mk.injEq] at h; rw [← h.2]; rfl
    | closed => rw [recv, Prod.mk.injEq] at h; rw [← h.2]; rfl
    | failed => rw [recv, Prod.mk.injEq] at h; rw [← h.2]; rfl
    | chunk b cs =>
      cases n with
      | zero => rw [recv, Prod.mk.injEq] at h; rw [← h.2]
      | succ n =>
        rw [recv] at h
        split at h
        · exact absurd (Prod.mk.inj h).1.symm (hres _)
        · exact absurd (Prod.mk.inj h).1.symm (hres _)

/-! ### One call of `handle_read` -/

/-- A moment of a call: the state of the connection, the bytes consumed from its socket
and the messages pushed for it by then. -/
structure Moment where
  client : ClientState
  consumed : List UInt8
  pushed : List InboundMessage

/-- A call of `recv`: how large the buffer is that it writes into, from where on it writes,
and how many bytes it asks for. -/
structure RecvCall where
  capacity : ℕ
  offset : ℕ
  length : ℕ
  deriving DecidableEq, Repr

/-- What `handle_read` reads and writes.  `attempts` counts the pushes tried, and
`consumed`, `lastPush`, `moments` and `calls` are ghosts. -/
structure Reading where
  client : ClientState
  arrivals : List Arrival
  pushed : List InboundMessage
  attempts : ℕ
  consumed : List UInt8
  lastPush : Bool
  moments : List Moment
  calls : List RecvCall

namespace Reading

/-- What a call starts from. -/
def begin (client : ClientState) (arrivals : List Arrival) : Reading :=
  ⟨client, arrivals, [], 0, [], true, [], []⟩

@[simp] theorem begin_client (client : ClientState) (arrivals : List Arrival) :
    (begin client arrivals).client = client := rfl

@[simp] theorem begin_arrivals (client : ClientState) (arrivals : List Arrival) :
    (begin client arrivals).arrivals = arrivals := rfl

@[simp] theorem begin_attempts (client : ClientState) (arrivals : List Arrival) :
    (begin client arrivals).attempts = 0 := rfl

/-- Record a call of `recv`. -/
def calling (r : Reading) (call : RecvCall) : Reading := { r with calls := r.calls ++ [call] }

/-- Record a moment. -/
def mark (r : Reading) : Reading :=
  { r with moments := r.moments ++ [⟨r.client, r.consumed, r.pushed⟩] }

/-- `disconnect_client`, as far as the state of the connection goes. -/
def disconnect (r : Reading) : Reading := mark { r with client := {} }

/-- Bytes received into the header buffer, behind those already there. -/
def fillHeader (r : Reading) (bs : List UInt8) (arrivals : List Arrival) : Reading :=
  mark { r with
    client := { r.client with
      headerBuffer := writeAt r.client.headerBuffer r.client.bytesRead bs
      bytesRead := r.client.bytesRead + bs.length }
    arrivals
    consumed := r.consumed ++ bs }

/-- Bytes received into the read buffer, behind those already there. -/
def fillPayload (r : Reading) (bs : List UInt8) (arrivals : List Arrival) : Reading :=
  mark { r with
    client := { r.client with
      readBuffer := writeAt r.client.readBuffer r.client.bytesRead bs
      bytesRead := r.client.bytesRead + bs.length }
    arrivals
    consumed := r.consumed ++ bs }

end Reading

/-- The end of the header phase: the five bytes of the header are decoded. -/
def decodeHeader (client : ClientState) : ClientState :=
  let payloadLength :=
    ntohl (UInt32.ofNat (ofLeBytes ((client.headerBuffer.drop 1).take 4)))
  { client with
    messageType := ⟨client.headerBuffer.headD 0⟩
    payloadLength
    readBuffer := resize client.readBuffer payloadLength.toNat
    bytesRead := 0
    readPhase := if payloadLength ≠ 0 then .PAYLOAD else .HEADER }

theorem decodeHeader_active (client : ClientState) :
    (decodeHeader client).active = client.active := by
  unfold decodeHeader
  rfl

theorem decodeHeader_headerBuffer (client : ClientState) :
    (decodeHeader client).headerBuffer = client.headerBuffer := by
  unfold decodeHeader
  rfl

theorem decodeHeader_writeBuffer (client : ClientState) :
    (decodeHeader client).writeBuffer = client.writeBuffer := by
  unfold decodeHeader
  rfl

theorem decodeHeader_bytesSent (client : ClientState) :
    (decodeHeader client).bytesSent = client.bytesSent := by
  unfold decodeHeader
  rfl

theorem decodeHeader_bytesRead (client : ClientState) : (decodeHeader client).bytesRead = 0 := by
  unfold decodeHeader
  rfl

theorem decodeHeader_readPhase (client : ClientState) :
    (decodeHeader client).readPhase
      = if (decodeHeader client).payloadLength ≠ 0 then .PAYLOAD else .HEADER := by
  unfold decodeHeader
  rfl

/-- A part of the loop ends the call or lets it go on. -/
inductive Flow
  | done (r : Reading)
  | next (r : Reading)

/-- The `recv` of the header phase: into the header buffer, behind the bytes already there. -/
def headerRecv (client : ClientState) : RecvCall :=
  ⟨client.headerBuffer.length, client.bytesRead, 5 - client.bytesRead⟩

/-- The header phase. -/
def headerPhase (r : Reading) : Flow :=
  let received := recv (headerRecv r.client).length r.arrivals
  let r := r.calling (headerRecv r.client)
  match received with
  | (.data bs, arrivals) =>
      if (r.fillHeader bs arrivals).client.bytesRead < 5 then .done (r.fillHeader bs arrivals)
      else
        .next (Reading.mark { r.fillHeader bs arrivals with
          client := decodeHeader (r.fillHeader bs arrivals).client })
  | (.again, arrivals) => .done { r with arrivals }
  | (.closed, arrivals) => .done (Reading.disconnect { r with arrivals })
  | (.failed, arrivals) => .done (Reading.disconnect { r with arrivals })

/-- `try_push` of the frame that is complete; `room k` says whether the push that follows
`k` earlier tries finds room in the inbound ring. -/
def pushFrame (room : ℕ → Bool) (fd : Fd) (r : Reading) : Flow :=
  if room r.attempts then
    .next (Reading.mark { r with
      pushed := r.pushed ++ [⟨fd, r.client.messageType, r.client.readBuffer⟩]
      attempts := r.attempts + 1
      lastPush := true
      client := { r.client with readPhase := .HEADER, bytesRead := 0 } })
  else .done (Reading.mark { r with attempts := r.attempts + 1, lastPush := false })

/-- The `recv` of the payload phase: into the read buffer, behind the bytes already there. -/
def payloadRecv (client : ClientState) : RecvCall :=
  ⟨client.readBuffer.length, client.bytesRead,
    client.payloadLength.toNat - client.bytesRead⟩

/-- The payload phase: receive what is missing, then push. -/
def payloadPhase (room : ℕ → Bool) (fd : Fd) (r : Reading) : Flow :=
  if r.client.bytesRead < r.client.payloadLength.toNat then
    let received := recv (payloadRecv r.client).length r.arrivals
    let r := r.calling (payloadRecv r.client)
    match received with
    | (.data bs, arrivals) =>
        if (r.fillPayload bs arrivals).client.bytesRead < r.client.payloadLength.toNat then
          .done (r.fillPayload bs arrivals)
        else pushFrame room fd (r.fillPayload bs arrivals)
    | (.again, arrivals) => .done { r with arrivals }
    | (.closed, arrivals) => .done (Reading.disconnect { r with arrivals })
    | (.failed, arrivals) => .done (Reading.disconnect { r with arrivals })
  else pushFrame room fd r

/-- One iteration of the loop. -/
def readIteration (room : ℕ → Bool) (fd : Fd) (r : Reading) : Flow :=
  match if r.client.readPhase = .HEADER then headerPhase r else .next r with
  | .done r => .done r
  | .next r => if r.client.readPhase = .PAYLOAD then payloadPhase room fd r else .next r

/-- What the loop uses up. -/
def Reading.size (r : Reading) : ℕ :=
  arrivalSize r.arrivals + if r.client.readPhase = .PAYLOAD then 1 else 0

/-- A header phase after which the loop goes on has received some bytes. -/
theorem headerPhase_next {r r' : Reading} (h : headerPhase r = .next r') :
    arrivalSize r'.arrivals < arrivalSize r.arrivals := by
  rw [headerPhase] at h
  split at h
  · next bs arrivals hrecv =>
    split at h
    · exact absurd h (by simp)
    · rw [← Flow.next.inj h]
      exact (recv_data hrecv).2.2.2
  · exact absurd h (by simp)
  · exact absurd h (by simp)
  · exact absurd h (by simp)

/-- After a push the loop goes on with the header of the next frame. -/
theorem pushFrame_next {room : ℕ → Bool} {fd : Fd} {r r' : Reading}
    (h : pushFrame room fd r = .next r') :
    r'.client.readPhase = .HEADER ∧ r'.arrivals = r.arrivals := by
  unfold pushFrame at h
  split at h
  · rw [← Flow.next.inj h]
    exact ⟨rfl, rfl⟩
  · exact absurd h (by simp)

/-- A payload phase after which the loop goes on has pushed its frame. -/
theorem payloadPhase_next {room : ℕ → Bool} {fd : Fd} {r r' : Reading}
    (h : payloadPhase room fd r = .next r') :
    r'.client.readPhase = .HEADER ∧ arrivalSize r'.arrivals ≤ arrivalSize r.arrivals := by
  unfold payloadPhase at h
  split at h
  · dsimp only at h
    split at h
    · next bs arrivals hrecv =>
      split at h
      · exact absurd h (by simp)
      · obtain ⟨hphase, harrivals⟩ := pushFrame_next h
        refine ⟨hphase, ?_⟩
        rw [harrivals]
        exact Nat.le_of_lt (recv_data hrecv).2.2.2
    · exact absurd h (by simp)
    · exact absurd h (by simp)
    · exact absurd h (by simp)
  · obtain ⟨hphase, harrivals⟩ := pushFrame_next h
    exact ⟨hphase, Nat.le_of_eq (by rw [harrivals])⟩

/-- **An iteration that goes on has used something up**: bytes of the socket, or the
frame that was kept. -/
theorem lt_of_readIteration {room : ℕ → Bool} {fd : Fd} {r r' : Reading}
    (h : readIteration room fd r = .next r') : r'.size < r.size := by
  unfold readIteration at h
  split at h
  · exact absurd h (by simp)
  · next r₁ hfirst =>
    by_cases hp : r.client.readPhase = .HEADER
    · -- the header phase has received bytes, and at most one frame is pushed after it
      rw [if_pos hp] at hfirst
      have hlt := headerPhase_next hfirst
      split at h
      · next hpay =>
        obtain ⟨hheader, hle⟩ := payloadPhase_next h
        unfold Reading.size
        rw [hheader, hp, if_neg (by decide)]
        omega
      · next hpay =>
        obtain rfl := Flow.next.inj h
        unfold Reading.size
        rw [if_neg hpay]
        omega
    · rw [if_neg hp] at hfirst
      obtain rfl := Flow.next.inj hfirst
      have hpay : r.client.readPhase = .PAYLOAD := by
        cases hphase : r.client.readPhase with
        | HEADER => exact absurd hphase hp
        | PAYLOAD => rfl
      rw [if_pos hpay] at h
      -- the frame that was kept has been pushed
      obtain ⟨hheader, hle⟩ := payloadPhase_next h
      unfold Reading.size
      rw [hheader, hpay, if_neg (by decide), if_pos rfl]
      omega

/-- The loop of `handle_read`. -/
def readLoop (room : ℕ → Bool) (fd : Fd) (r : Reading) : Reading :=
  match _h : readIteration room fd r with
  | .done r' => r'
  | .next r' => readLoop room fd r'
termination_by r.size
decreasing_by exact lt_of_readIteration _h

theorem readLoop_of_done {room : ℕ → Bool} {fd : Fd} {r r' : Reading}
    (h : readIteration room fd r = .done r') : readLoop room fd r = r' := by
  rw [readLoop]
  split
  · next heq => exact Flow.done.inj (heq.symm.trans h)
  · next heq => exact absurd (heq.symm.trans h) (by simp)

theorem readLoop_of_next {room : ℕ → Bool} {fd : Fd} {r r' : Reading}
    (h : readIteration room fd r = .next r') : readLoop room fd r = readLoop room fd r' := by
  rw [readLoop]
  split
  · next heq => exact absurd (heq.symm.trans h) (by simp)
  · next heq => rw [Flow.next.inj (heq.symm.trans h)]

/-- `ExchangeServer::handle_read`. -/
def handleRead (room : ℕ → Bool) (fd : Fd) (r : Reading) : Reading :=
  if r.client.active then readLoop room fd r else r

/-- A slot that is not active is not looked at. -/
theorem handleRead_of_closed {room : ℕ → Bool} {fd : Fd} {r : Reading}
    (h : r.client.active = false) : handleRead room fd r = r :=
  if_neg (by rw [h]; exact Bool.false_ne_true)

/-! ### What the loop does -/

/-- The next `recv` of the loop. -/
inductive Wants (client : ClientState) : RecvCall → Prop
  | header (hphase : client.readPhase = .HEADER) : Wants client (headerRecv client)
  | payload (hphase : client.readPhase = .PAYLOAD)
      (hlt : client.bytesRead < client.payloadLength.toNat) : Wants client (payloadRecv client)

/-- The payload is complete: it was before, or what is received completes it. -/
inductive Completes (r : Reading) : Reading → Prop
  | before (hfull : ¬ r.client.bytesRead < r.client.payloadLength.toNat) : Completes r r
  | now {bs : List UInt8} {arrivals : List Arrival}
      (hlt : r.client.bytesRead < r.client.payloadLength.toNat)
      (hrecv : recv (r.client.payloadLength.toNat - r.client.bytesRead) r.arrivals
        = (.data bs, arrivals))
      (hfull : ¬ r.client.bytesRead + bs.length < r.client.payloadLength.toNat) :
      Completes r (r.fillPayload bs arrivals)

/-- What the loop does between two looks at the read phase, said once. -/
inductive ReadStep (room : ℕ → Bool) (fd : Fd) (r : Reading) : Reading → Prop
  | header {bs : List UInt8} {arrivals : List Arrival} (hactive : r.client.active = true)
      (hphase : r.client.readPhase = .HEADER)
      (hrecv : recv (5 - r.client.bytesRead) r.arrivals = (.data bs, arrivals))
      (hlt : r.client.bytesRead + bs.length < 5) : ReadStep room fd r (r.fillHeader bs arrivals)
  | decode {bs : List UInt8} {arrivals : List Arrival} (hactive : r.client.active = true)
      (hphase : r.client.readPhase = .HEADER)
      (hrecv : recv (5 - r.client.bytesRead) r.arrivals = (.data bs, arrivals))
      (hge : ¬ r.client.bytesRead + bs.length < 5) :
      ReadStep room fd r (Reading.mark { r.fillHeader bs arrivals with
        client := decodeHeader (r.fillHeader bs arrivals).client })
  | payload {bs : List UInt8} {arrivals : List Arrival} (hactive : r.client.active = true)
      (hphase : r.client.readPhase = .PAYLOAD)
      (hrecv : recv (r.client.payloadLength.toNat - r.client.bytesRead) r.arrivals
        = (.data bs, arrivals))
      (hlt : r.client.bytesRead + bs.length < r.client.payloadLength.toNat) :
      ReadStep room fd r (r.fillPayload bs arrivals)
  | again {call : RecvCall} {arrivals : List Arrival} (hactive : r.client.active = true)
      (hwants : Wants r.client call)
      (hrecv : recv call.length r.arrivals = (.again, arrivals)) :
      ReadStep room fd r { r with arrivals }
  | disconnect {call : RecvCall} {res : Received} {arrivals : List Arrival}
      (hactive : r.client.active = true) (hwants : Wants r.client call)
      (hrecv : recv call.length r.arrivals = (res, arrivals))
      (hres : res = .closed ∨ res = .failed) :
      ReadStep room fd r (Reading.disconnect { r with arrivals })
  | push {r₁ : Reading} (hactive : r.client.active = true)
      (hphase : r.client.readPhase = .PAYLOAD) (hc : Completes r r₁)
      (hroom : room r₁.attempts = true) :
      ReadStep room fd r (Reading.mark { r₁ with
        pushed := r₁.pushed ++ [⟨fd, r₁.client.messageType, r₁.client.readBuffer⟩]
        attempts := r₁.attempts + 1
        lastPush := true
        client := { r₁.client with readPhase := .HEADER, bytesRead := 0 } })
  | keep {r₁ : Reading} (hactive : r.client.active = true)
      (hphase : r.client.readPhase = .PAYLOAD) (hc : Completes r r₁)
      (hroom : room r₁.attempts = false) :
      ReadStep room fd r (Reading.mark { r₁ with attempts := r₁.attempts + 1, lastPush := false })

/-- A step of the loop, before which the `recv` that it makes is recorded. -/
inductive LoopStep (room : ℕ → Bool) (fd : Fd) (r : Reading) : Reading → Prop
  | receive {call : RecvCall} {r' : Reading} (hwants : Wants r.client call)
      (hs : ReadStep room fd (r.calling call) r') : LoopStep room fd r r'
  | kept {r' : Reading} (hs : ReadStep room fd r r') : LoopStep room fd r r'

/-- A part of the loop takes a step, and goes on only with a connection that is open. -/
def StepFlow (step : Reading → Reading → Prop) (r : Reading) : Flow → Prop
  | .done r' => step r r'
  | .next r' => step r r' ∧ r'.client.active = true

theorem StepFlow.imp {step step' : Reading → Reading → Prop} {r₀ r : Reading}
    (himp : ∀ r', step r r' → step' r₀ r') {flow : Flow} (h : StepFlow step r flow) :
    StepFlow step' r₀ flow := by
  cases flow with
  | done r' => exact himp r' h
  | next r' => exact ⟨himp r' h.1, h.2⟩

section Steps

variable (room : ℕ → Bool) (fd : Fd) {r r₁ : Reading}

theorem stepFlow_headerPhase (hactive : r.client.active = true)
    (hphase : r.client.readPhase = .HEADER) :
    StepFlow (LoopStep room fd) r (headerPhase r) := by
  refine StepFlow.imp (fun _ => .receive (.header hphase)) ?_
  unfold headerPhase
  cases hrecv : recv (headerRecv r.client).length r.arrivals with
  | mk res arrivals =>
    cases res with
    | again => exact .again hactive (.header hphase) hrecv
    | closed => exact .disconnect hactive (.header hphase) hrecv (Or.inl rfl)
    | failed => exact .disconnect hactive (.header hphase) hrecv (Or.inr rfl)
    | data bs =>
      simp only
      split
      · next hlt => exact .header hactive hphase hrecv hlt
      · next hge =>
        exact ⟨.decode hactive hphase hrecv hge, (decodeHeader_active _).trans hactive⟩

theorem stepFlow_pushFrame (hactive : r.client.active = true)
    (hphase : r.client.readPhase = .PAYLOAD) (hc : Completes r r₁) :
    StepFlow (ReadStep room fd) r (pushFrame room fd r₁) := by
  have hactive₁ : r₁.client.active = true := by
    cases hc with
    | before _ => exact hactive
    | now _ _ _ => exact hactive
  unfold pushFrame
  split
  · next hroom => exact ⟨.push hactive hphase hc hroom, hactive₁⟩
  · next hroom => exact .keep hactive hphase hc (Bool.eq_false_iff.mpr hroom)

theorem stepFlow_payloadPhase (hactive : r.client.active = true)
    (hphase : r.client.readPhase = .PAYLOAD) :
    StepFlow (LoopStep room fd) r (payloadPhase room fd r) := by
  unfold payloadPhase
  split
  · next hlt =>
    refine StepFlow.imp (fun _ => .receive (.payload hphase hlt)) ?_
    cases hrecv : recv (payloadRecv r.client).length r.arrivals with
    | mk res arrivals =>
      cases res with
      | again => exact .again hactive (.payload hphase hlt) hrecv
      | closed => exact .disconnect hactive (.payload hphase hlt) hrecv (Or.inl rfl)
      | failed => exact .disconnect hactive (.payload hphase hlt) hrecv (Or.inr rfl)
      | data bs =>
        simp only
        split
        · next hpart => exact .payload hactive hphase hrecv hpart
        · next hfull => exact stepFlow_pushFrame room fd hactive hphase (.now hlt hrecv hfull)
  · next hfull =>
    exact (stepFlow_pushFrame room fd hactive hphase (.before hfull)).imp fun _ => .kept

theorem ReadPhase.eq_payload {phase : ReadPhase} (h : phase ≠ .HEADER) : phase = .PAYLOAD := by
  cases phase with
  | HEADER => exact absurd rfl h
  | PAYLOAD => rfl

/-- An iteration takes one step or two, and goes on only with a connection that is
open. -/
theorem readIteration_steps (hactive : r.client.active = true) :
    match readIteration room fd r with
    | .done r' => Relation.TransGen (LoopStep room fd) r r'
    | .next r' => Relation.TransGen (LoopStep room fd) r r' ∧ r'.client.active = true := by
  unfold readIteration
  by_cases hphase : r.client.readPhase = .HEADER
  · rw [if_pos hphase]
    have hflow := stepFlow_headerPhase room fd hactive hphase
    cases hheader : headerPhase r with
    | done r' =>
      rw [hheader] at hflow
      exact .single hflow
    | next r' =>
      rw [hheader] at hflow
      obtain ⟨hstep, hactive'⟩ := hflow
      simp only
      split
      · next r'' hr'' =>
        split at hr''
        · next hpayload =>
          have hflow' := stepFlow_payloadPhase room fd hactive' hpayload
          rw [hr''] at hflow'
          exact .tail (.single hstep) hflow'
        · exact absurd hr'' (by simp)
      · next r'' hr'' =>
        split at hr''
        · next hpayload =>
          have hflow' := stepFlow_payloadPhase room fd hactive' hpayload
          rw [hr''] at hflow'
          exact ⟨.tail (.single hstep) hflow'.1, hflow'.2⟩
        · obtain rfl := Flow.next.inj hr''
          exact ⟨.single hstep, hactive'⟩
  · rw [if_neg hphase]
    have hpayload := ReadPhase.eq_payload hphase
    have hflow := stepFlow_payloadPhase room fd hactive hpayload
    simp only [if_pos hpayload]
    cases hpay : payloadPhase room fd r with
    | done r' =>
      rw [hpay] at hflow
      exact .single hflow
    | next r' =>
      rw [hpay] at hflow
      exact ⟨.single hflow.1, hflow.2⟩

/-- **The loop takes steps**, at least one. -/
theorem readLoop_steps (hactive : r.client.active = true) :
    Relation.TransGen (LoopStep room fd) r (readLoop room fd r) := by
  fun_induction readLoop room fd r with
  | case1 r r' hiter =>
    have hsteps := readIteration_steps room fd hactive
    rw [hiter] at hsteps
    exact hsteps
  | case2 r r' hiter ih =>
    have hsteps := readIteration_steps room fd hactive
    rw [hiter] at hsteps
    exact hsteps.1.trans (ih hsteps.2)

/-- **The rule for `handle_read`**: what the record of a `recv` and every step of the loop
keep, a call keeps. -/
theorem handleRead_invariant {room : ℕ → Bool} {fd : Fd} {P : Reading → Prop}
    (hcall : ∀ r call, P r → Wants r.client call → P (r.calling call))
    (hstep : ∀ r r', P r → ReadStep room fd r r' → P r') (h : P r) :
    P (handleRead room fd r) := by
  unfold handleRead
  split
  · next hactive =>
    have hsteps := (readLoop_steps room fd hactive).to_reflTransGen
    generalize readLoop room fd r = r' at hsteps ⊢
    induction hsteps with
    | refl => exact h
    | tail _ hs ih =>
      cases hs with
      | receive hwants hs => exact hstep _ _ (hcall _ _ ih hwants) hs
      | kept hs => exact hstep _ _ ih hs
  · exact h

end Steps

/-- Between steps of the loop a header is not complete. -/
theorem readStep_header {room : ℕ → Bool} {fd : Fd} {r r' : Reading}
    (hs : ReadStep room fd r r') :
    (r.client.readPhase = .HEADER → r.client.bytesRead < 5) →
      r'.client.readPhase = .HEADER → r'.client.bytesRead < 5 := by
  intro h hphase'
  cases hs with
  | header _ _ _ hlt => exact hlt
  | decode =>
    show (decodeHeader _).bytesRead < 5
    rw [decodeHeader_bytesRead]
    exact Nat.succ_pos 4
  | payload _ hphase =>
    rw [show r.client.readPhase = .HEADER from hphase'] at hphase
    exact absurd hphase (by decide)
  | again => exact h hphase'
  | disconnect => exact Nat.succ_pos 4
  | push => exact Nat.succ_pos 4
  | keep _ hphase hc =>
    cases hc with
    | before _ => exact h hphase'
    | now _ _ _ =>
      rw [show r.client.readPhase = .HEADER from hphase'] at hphase
      exact absurd hphase (by decide)

/-- The loop asks `recv` for at least one byte. -/
theorem Wants.pos {c : ClientState} {call : RecvCall} (h : Wants c call)
    (hheader : c.readPhase = .HEADER → c.bytesRead < 5) : 0 < call.length := by
  cases h with
  | header hphase => exact Nat.sub_pos_of_lt (hheader hphase)
  | payload _ hlt => exact Nat.sub_pos_of_lt hlt

/-- Several calls of `handle_read`, one after another. -/
def readCalls (room : ℕ → Bool) (fd : Fd) : ℕ → Reading → Reading
  | 0, r => r
  | n + 1, r => readCalls room fd n (handleRead room fd r)

/-- A connection that has just been accepted. -/
def Reading.start (arrivals : List Arrival) : Reading :=
  .begin { active := true } arrivals

end Exchange
