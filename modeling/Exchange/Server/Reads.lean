import Exchange.ClientState
import Exchange.Lib.Loop

/-!
# Every `recv` stays inside its buffer

`handle_read` receives into the five bytes of the header buffer or into the read buffer,
which it has resized to the length that the header gives.  The two phases share
`bytes_read`, and a `recv` of no bytes would be taken for the end of the stream, so that
both the place and the length of each `recv` rest on an invariant of the state of a
connection.

The loop is taken turn by turn, and cut off after a number of turns.  A turn may receive
nothing of a payload, or nothing at all when it is entered with a frame that was kept; what
goes down is the size of the socket together with the phase.

## Main definitions

* `ReadOk` — the invariant of the state of a connection.
* `RecvCall.InBounds`, `RecvsOk` — a `recv`, and all of those made, stay inside their buffers.
* `readTurn`, `readWithin` — a turn of the loop, and `handle_read`, cut off.
* `ReadReachable` — the states that calls of `handle_read` lead to.

## Main results

* `ReadOk.readStep`, `ReadOk.handleRead` — steps of the loop, and calls of it, keep the
  invariant.
* `RecvsOk.calling`, `RecvsOk.handleRead` — the calls of `recv` stay inside their buffers.
* `readWithin_eq` — the loop ends.
* `recv_in_bounds` — both hold of every state that can be reached.
-/

namespace Exchange

open Bytes

/-! ### The invariant -/

/-- What holds of the state of a connection whenever the loop looks at the read phase. -/
structure ReadOk (c : ClientState) : Prop where
  header : c.readPhase = .HEADER → c.bytesRead < 5
  payload : c.readPhase = .PAYLOAD → 0 < c.payloadLength ∧
    c.readBuffer.length = c.payloadLength.toNat ∧ c.bytesRead ≤ c.payloadLength.toNat
  headerBuffer : c.headerBuffer.length = 5

theorem header_ne_payload : ReadPhase.HEADER ≠ .PAYLOAD := by decide

namespace ReadOk

variable {room : ℕ → Bool} {fd : Fd} {r r' r₁ : Reading}

/-- A slot as it is made, or reset. -/
theorem fresh (active : Bool) : ReadOk { active } where
  header _ := Nat.succ_pos 4
  payload h := absurd h header_ne_payload
  headerBuffer := rfl

/-- What is received of a header fits. -/
theorem length_fillHeader (h : ReadOk r.client) (hphase : r.client.readPhase = .HEADER)
    {bs : List UInt8} {arrivals : List Arrival}
    (hrecv : recv (5 - r.client.bytesRead) r.arrivals = (.data bs, arrivals)) :
    (r.fillHeader bs arrivals).client.headerBuffer.length = 5 := by
  have hread := h.header hphase
  have hbs := (recv_data hrecv).2.1
  have hlength := h.headerBuffer
  rw [← hlength]
  exact length_writeAt (by omega)

/-- What is received of a payload fits. -/
theorem fillPayload (h : ReadOk r.client) (hphase : r.client.readPhase = .PAYLOAD)
    {bs : List UInt8} {arrivals : List Arrival}
    (hrecv : recv (r.client.payloadLength.toNat - r.client.bytesRead) r.arrivals
      = (.data bs, arrivals)) : ReadOk (r.fillPayload bs arrivals).client := by
  obtain ⟨hpos, hlength, hread⟩ := h.payload hphase
  have hbs := (recv_data hrecv).2.1
  refine ⟨fun hp => ?_, fun _ => ⟨hpos, ?_, ?_⟩, h.headerBuffer⟩
  · exact absurd (hp.symm.trans hphase) header_ne_payload
  · exact (length_writeAt (by omega)).trans hlength
  · show r.client.bytesRead + bs.length ≤ r.client.payloadLength.toNat
    omega

theorem completes (h : ReadOk r.client) (hphase : r.client.readPhase = .PAYLOAD)
    (hc : Completes r r₁) : ReadOk r₁.client := by
  cases hc with
  | before _ => exact h
  | now _ hrecv _ => exact h.fillPayload hphase hrecv

/-- **A step of the loop keeps the invariant.** -/
theorem readStep (h : ReadOk r.client) (hs : ReadStep room fd r r') : ReadOk r'.client := by
  have hheader := readStep_header hs h.header
  cases hs with
  | header _ hphase hrecv _ =>
    refine ⟨hheader, fun hp => ?_, h.length_fillHeader hphase hrecv⟩
    exact absurd (hphase.symm.trans hp) header_ne_payload
  | @decode bs arrivals _ hphase hrecv _ =>
    refine ⟨hheader, fun hp => ?_, ?_⟩
    · -- the payload phase is entered only for a length that is not zero
      change (decodeHeader (r.fillHeader bs arrivals).client).readPhase = .PAYLOAD at hp
      rw [decodeHeader_readPhase] at hp
      split at hp
      · next hne => exact ⟨UInt32.pos_iff_ne_zero.mpr hne, length_resize _ _, Nat.zero_le _⟩
      · exact absurd hp header_ne_payload
    · exact (congrArg List.length (decodeHeader_headerBuffer _)).trans
        (h.length_fillHeader hphase hrecv)
  | payload _ hphase hrecv _ => exact h.fillPayload hphase hrecv
  | again => exact h
  | disconnect => exact fresh false
  | push _ hphase hc _ =>
    exact ⟨hheader, fun hp => absurd hp header_ne_payload, (h.completes hphase hc).headerBuffer⟩
  | keep _ hphase hc _ =>
    have hok := h.completes hphase hc
    exact hok

/-- A call keeps the invariant. -/
theorem handleRead (h : ReadOk r.client) (room : ℕ → Bool) (fd : Fd) :
    ReadOk (handleRead room fd r).client :=
  handleRead_invariant (P := fun r => ReadOk r.client) (fun _ _ h _ => h)
    (fun _ _ h hs => h.readStep hs) h

end ReadOk

/-! ### The calls of `recv` -/

/-- The call asks for at least one byte, and for at most the space left in its buffer. -/
def RecvCall.InBounds (call : RecvCall) : Prop :=
  0 < call.length ∧ call.offset + call.length ≤ call.capacity

/-- A `recv` that the loop makes in a state that is right stays inside its buffer. -/
theorem ReadOk.inBounds {c : ClientState} (h : ReadOk c) {call : RecvCall}
    (hwants : Wants c call) : call.InBounds := by
  refine ⟨hwants.pos h.header, ?_⟩
  cases hwants with
  | header hphase =>
    have hread := h.header hphase
    have hlength := h.headerBuffer
    show c.bytesRead + (5 - c.bytesRead) ≤ c.headerBuffer.length
    omega
  | payload hphase hlt =>
    obtain ⟨-, hlength, -⟩ := h.payload hphase
    show c.bytesRead + (c.payloadLength.toNat - c.bytesRead) ≤ c.readBuffer.length
    omega

/-- A step of the loop makes no `recv` other than the one that is recorded before it. -/
theorem readStep_calls {room : ℕ → Bool} {fd : Fd} {r r' : Reading}
    (hs : ReadStep room fd r r') : r'.calls = r.calls := by
  have hcompletes : ∀ r₁, Completes r r₁ → r₁.calls = r.calls := by
    intro r₁ hc
    cases hc with
    | before _ => rfl
    | now _ _ _ => rfl
  cases hs with
  | header => rfl
  | decode => rfl
  | payload => rfl
  | again => rfl
  | disconnect => rfl
  | push _ _ hc _ =>
    have hsame := hcompletes _ hc
    exact hsame
  | keep _ _ hc _ =>
    have hsame := hcompletes _ hc
    exact hsame

/-- The state of the connection is right, and the calls of `recv` so far have stayed inside
their buffers. -/
structure RecvsOk (r : Reading) : Prop where
  client : ReadOk r.client
  calls : ∀ call ∈ r.calls, call.InBounds

namespace RecvsOk

variable {room : ℕ → Bool} {fd : Fd} {r r' : Reading}

/-- **The next `recv` of the loop** stays inside its buffer. -/
theorem calling (h : RecvsOk r) {call : RecvCall} (hwants : Wants r.client call) :
    RecvsOk (r.calling call) := by
  refine ⟨h.client, fun call' hcall => ?_⟩
  rcases List.mem_append.mp hcall with hcall | hcall
  · exact h.calls call' hcall
  · rw [List.mem_singleton.mp hcall]
    exact h.client.inBounds hwants

theorem readStep (h : RecvsOk r) (hs : ReadStep room fd r r') : RecvsOk r' :=
  ⟨h.client.readStep hs, by rw [readStep_calls hs]; exact h.calls⟩

/-- **A call of `handle_read` receives inside its buffers.** -/
theorem handleRead (h : RecvsOk r) (room : ℕ → Bool) (fd : Fd) :
    RecvsOk (handleRead room fd r) :=
  handleRead_invariant (fun _ _ h hwants => h.calling hwants) (fun _ _ h hs => h.readStep hs) h

end RecvsOk

/-! ### The loop, cut off -/

/-- One turn of the loop. -/
def readTurn (room : ℕ → Bool) (fd : Fd) (r : Reading) : Turn Reading Reading :=
  match readIteration room fd r with
  | .next r' => .next r'
  | .done r' => .done r'

/-- `handle_read`, its loop cut off after `n` turns. -/
def readWithin (n : ℕ) (room : ℕ → Bool) (fd : Fd) (r : Reading) : Option Reading :=
  if r.client.active then loopWithin (readTurn room fd) n r else some r

/-- **The loop ends.** -/
theorem readWithin_eq {room : ℕ → Bool} {fd : Fd} {r : Reading} {n : ℕ} (hn : r.size < n) :
    readWithin n room fd r = some (handleRead room fd r) := by
  unfold readWithin handleRead
  split
  · refine loopWithin_eq_some (P := fun _ => True) (m := Reading.size) (f := readLoop room fd)
      (fun r r' _ hturn => ?_) (fun r r' _ hturn => ?_) n r trivial hn
    · unfold readTurn at hturn
      split at hturn
      · next r₁ hiter =>
        obtain rfl := Turn.next.inj hturn
        exact ⟨trivial, lt_of_readIteration hiter, (readLoop_of_next hiter).symm⟩
      · exact absurd hturn (by simp)
    · unfold readTurn at hturn
      split at hturn
      · exact absurd hturn (by simp)
      · next r₁ hiter =>
        obtain rfl := Turn.done.inj hturn
        exact (readLoop_of_done hiter).symm
  · rfl

/-! ### Every state that can be reached -/

/-- The states of a connection that calls of `handle_read` lead to from where it is
accepted: any results of `recv`, any outcomes of the pushes.  In between, what is sent to
the connection changes its write buffer. -/
inductive ReadReachable : ClientState → Prop
  | accepted : ReadReachable { active := true }
  | read {c : ClientState} (h : ReadReachable c) (room : ℕ → Bool) (fd : Fd)
      (arrivals : List Arrival) :
      ReadReachable (handleRead room fd (.begin c arrivals)).client
  | write {c : ClientState} (h : ReadReachable c) (buffer : List UInt8) (sent : ℕ) :
      ReadReachable { c with writeBuffer := buffer, bytesSent := sent }

/-- The invariant holds of every state that can be reached. -/
theorem ReadReachable.readOk {c : ClientState} (h : ReadReachable c) : ReadOk c := by
  induction h with
  | accepted => exact ReadOk.fresh true
  | read _ room fd _ ih => exact ReadOk.handleRead ih room fd
  | write _ _ _ ih => exact ⟨ih.header, ih.payload, ih.headerBuffer⟩

/-- **Every `recv` stays inside its buffer, and `handle_read` ends.**  From any state that
can be reached, each `recv` that a call makes asks for at least one byte and for at most the
space left in its buffer, and the call ends within two turns more than the socket has bytes
and other results to give. -/
theorem recv_in_bounds {c : ClientState} (h : ReadReachable c) :
    ReadOk c ∧ ∀ (room : ℕ → Bool) (fd : Fd) (arrivals : List Arrival),
      (∀ call ∈ (handleRead room fd (.begin c arrivals)).calls, call.InBounds) ∧
      ∀ n, arrivalSize arrivals + 2 ≤ n →
        readWithin n room fd (.begin c arrivals)
          = some (handleRead room fd (.begin c arrivals)) := by
  refine ⟨h.readOk, fun room fd arrivals => ⟨?_, fun n hn => readWithin_eq ?_⟩⟩
  · have hstart : RecvsOk (.begin c arrivals) := ⟨h.readOk, fun _ hc => absurd hc List.not_mem_nil⟩
    exact (hstart.handleRead room fd).calls
  · have hsize : Reading.size (.begin c arrivals) ≤ arrivalSize arrivals + 1 := by
      simp only [Reading.size, Reading.begin_arrivals]
      split <;> omega
    omega

/-- A connection with a complete frame, kept because the ring was full. -/
def keptFrame : ClientState where
  readPhase := .PAYLOAD
  messageType := ⟨1⟩
  headerBuffer := [1, 0, 0, 0, 1]
  readBuffer := [7]
  payloadLength := 1
  bytesRead := 1
  active := true

theorem readReachable_keptFrame : ReadReachable keptFrame := by
  have hread : (handleRead (fun _ => false) 5 (.start [.chunk 1 [0, 0, 0, 1, 7]])).client
      = keptFrame := by
    rw [handleRead, if_pos (by rfl), readLoop_of_done (by rfl)]
    rfl
  rw [← hread]
  exact .read .accepted (fun _ => false) 5 [.chunk 1 [0, 0, 0, 1, 7]]

/-- The call that is entered with the kept frame and finds two frames without a payload
behind it, and then the end of the stream. -/
theorem recv_in_bounds_keptFrame :
    ∃ r, readWithin 13 (fun _ => true) 5
        (.begin keptFrame [.chunk 2 [0, 0, 0, 0, 2, 0, 0, 0, 0], .closed]) = some r ∧
      r = handleRead (fun _ => true) 5
        (.begin keptFrame [.chunk 2 [0, 0, 0, 0, 2, 0, 0, 0, 0], .closed]) ∧
      r.calls = [⟨5, 0, 5⟩, ⟨5, 0, 5⟩, ⟨5, 0, 5⟩] ∧ r.pushed = [⟨5, ⟨1⟩, [7]⟩] ∧
      ∀ call ∈ r.calls, call.InBounds := by
  obtain ⟨hbounds, hends⟩ := (recv_in_bounds readReachable_keptFrame).2 (fun _ => true) 5
    [.chunk 2 [0, 0, 0, 0, 2, 0, 0, 0, 0], .closed]
  have heval : (readWithin 13 (fun _ => true) 5
      (.begin keptFrame [.chunk 2 [0, 0, 0, 0, 2, 0, 0, 0, 0], .closed])).map
        (fun r => (r.calls, r.pushed))
      = some ([⟨5, 0, 5⟩, ⟨5, 0, 5⟩, ⟨5, 0, 5⟩], [⟨5, ⟨1⟩, [7]⟩]) := by decide
  rw [hends 13 (by decide)] at heval
  obtain ⟨hcalls, hpushed⟩ := Prod.mk.inj (Option.some.inj heval)
  exact ⟨_, hends 13 (by decide), rfl, hcalls, hpushed, hbounds⟩

example : (readWithin 4 (fun _ => true) 5 (.start [.chunk 1 [0, 0, 0, 2, 7, 8, 1]])).map
    Reading.calls = some [⟨5, 0, 5⟩, ⟨2, 0, 2⟩, ⟨5, 0, 5⟩] := by decide

end Exchange
