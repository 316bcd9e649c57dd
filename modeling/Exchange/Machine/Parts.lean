import Exchange.Machine
import Exchange.Server.Inbound

/-!
# The parts of a call of `handle_read`

A call of `handle_read` alternates calls of `recv` with pushes.  Each part of it, taken by
itself, leaves the connection as a whole call would on a socket that gives what the part has
received, and then nothing more.

## Main definitions

* `Received.arrivals` — a socket that gives one result and nothing more.
* `Reading.Same` — two readings that leave the connection in the same state.

## Main results

* `handleRead_header` — the header phase is a call.
* `handleRead_payload` — the payload phase up to the push is a call that finds no room.
* `handleRead_push` — the push is a call on a socket that has nothing to give.
-/

namespace Exchange

open Bytes

/-! ### A socket that gives one result -/

/-- A socket that gives one result and nothing more. -/
def Received.arrivals : Received → List Arrival
  | .data [] => []
  | .data (b :: bs) => [.chunk b bs]
  | .again => []
  | .closed => [.closed]
  | .failed => [.failed]

/-- The result of a `recv` can be had from a socket that gives nothing more. -/
theorem recv_arrivals {n : ℕ} {arrivals arrivals' : List Arrival} {res : Received}
    (h : recv n arrivals = (res, arrivals')) : recv n res.arrivals = (res, []) := by
  cases res with
  | again => rfl
  | closed => rfl
  | failed => rfl
  | data bs =>
    obtain ⟨hpos, hle, -, -⟩ := recv_data h
    cases bs with
    | nil => exact absurd hpos (Nat.lt_irrefl 0)
    | cons b bs =>
      cases n with
      | zero => exact absurd hle (Nat.not_succ_le_zero _)
      | succ n =>
        have hlen : bs.length ≤ n := Nat.le_of_succ_le_succ hle
        rw [Received.arrivals, recv, List.drop_eq_nil_of_le hlen, List.take_of_length_le hlen]

/-- Where the loop has to receive something and the socket has nothing to give, it ends. -/
theorem readLoop_idle {room : ℕ → Bool} {fd : Fd} {r : Reading} {call : RecvCall}
    (hwants : Wants r.client call) (hnone : r.arrivals = []) :
    readLoop room fd r = r.calling call := by
  have hkeep : { r.calling call with arrivals := [] } = r.calling call := by
    rw [Reading.calling, ← hnone]
  apply readLoop_of_done
  unfold readIteration
  cases hwants with
  | header hphase =>
    have hdone : headerPhase r = .done (r.calling (headerRecv r.client)) := by
      rw [headerPhase, hnone]
      exact congrArg Flow.done hkeep
    rw [if_pos hphase, hdone]
  | payload hphase hlt =>
    have hheader : r.client.readPhase ≠ .HEADER := by rw [hphase]; decide
    rw [if_neg hheader]
    simp only [if_pos hphase]
    rw [payloadPhase, if_pos hlt, hnone]
    exact congrArg Flow.done hkeep

/-- Two readings of which the second could be what a call with another socket leads to. -/
structure Reading.Same (r r' : Reading) : Prop where
  client : r'.client = r.client
  consumed : r'.consumed = r.consumed

section Parts

variable {fd : Fd} {c : ClientState} {arrivals : List Arrival} {r : Reading}

/-- The header phase, on a socket that has given all it has to give. -/
theorem headerPhase_alone (c : ClientState) (arrivals : List Arrival) :
    ∃ given, (∀ r, headerPhase (.begin c arrivals) = .done r →
        ∃ r', headerPhase (.begin c given) = .done r' ∧ r.Same r') ∧
      ∀ r, headerPhase (.begin c arrivals) = .next r →
        ∃ r', headerPhase (.begin c given) = .next r' ∧ r.Same r' ∧ r'.arrivals = [] := by
  cases hrecv : recv (headerRecv c).length arrivals with
  | mk res arrivals' =>
    have hgiven := recv_arrivals hrecv
    refine ⟨res.arrivals, fun r h => ?_, fun r h => ?_⟩
    · rw [headerPhase, Reading.begin_client, Reading.begin_arrivals, hrecv] at h
      rw [headerPhase, Reading.begin_client, Reading.begin_arrivals, hgiven]
      cases res with
      | data bs =>
        simp only at h ⊢
        split at h
        · next hlt =>
          obtain rfl := Flow.done.inj h
          exact ⟨_, if_pos hlt, rfl, rfl⟩
        · exact absurd h (by simp)
      | again =>
        obtain rfl := Flow.done.inj h
        exact ⟨_, rfl, rfl, rfl⟩
      | closed =>
        obtain rfl := Flow.done.inj h
        exact ⟨_, rfl, rfl, rfl⟩
      | failed =>
        obtain rfl := Flow.done.inj h
        exact ⟨_, rfl, rfl, rfl⟩
    · rw [headerPhase, Reading.begin_client, Reading.begin_arrivals, hrecv] at h
      rw [headerPhase, Reading.begin_client, Reading.begin_arrivals, hgiven]
      cases res with
      | data bs =>
        simp only at h ⊢
        split at h
        · exact absurd h (by simp)
        · next hge =>
          obtain rfl := Flow.next.inj h
          exact ⟨_, if_neg hge, ⟨rfl, rfl⟩, rfl⟩
      | again => exact absurd h (by simp)
      | closed => exact absurd h (by simp)
      | failed => exact absurd h (by simp)

/-- A header that is complete has been decoded. -/
theorem exists_of_headerPhase_next {r₀ : Reading} (h : headerPhase r₀ = .next r) :
    ∃ c₀ : ClientState, r.client = decodeHeader c₀ ∧ c₀.active = r₀.client.active := by
  rw [headerPhase] at h
  split at h
  · split at h
    · exact absurd h (by simp)
    · obtain rfl := Flow.next.inj h
      exact ⟨_, rfl, rfl⟩
  · exact absurd h (by simp)
  · exact absurd h (by simp)
  · exact absurd h (by simp)

/-- After a header the loop has to receive something. -/
theorem wants_decodeHeader (c₀ : ClientState) : ∃ call, Wants (decodeHeader c₀) call := by
  by_cases hzero : (decodeHeader c₀).payloadLength = 0
  · exact ⟨_, .header (readPhase_of_zero hzero)⟩
  · refine ⟨_, .payload (readPhase_of_ne_zero hzero) ?_⟩
    rw [decodeHeader_bytesRead]
    exact Nat.pos_of_ne_zero fun h => hzero (UInt32.toNat_inj.mp h)

/-- The loop goes on behind the header. -/
theorem readLoop_of_headerPhase {room : ℕ → Bool} {r₀ : Reading}
    (hphase : r₀.client.readPhase = .HEADER) (h : headerPhase r₀ = .next r) :
    readLoop room fd r₀ = readLoop room fd r := by
  by_cases hpay : r.client.readPhase = .PAYLOAD
  · -- the payload phase ends the turn, as it would a turn of its own
    have hheader : r.client.readPhase ≠ .HEADER := by rw [hpay]; decide
    have hsame : readIteration room fd r₀ = readIteration room fd r := by
      rw [readIteration, if_pos hphase, h, readIteration, if_neg hheader]
    cases hit : readIteration room fd r with
    | done r' => rw [readLoop_of_done (hsame.trans hit), readLoop_of_done hit]
    | next r' => rw [readLoop_of_next (hsame.trans hit), readLoop_of_next hit]
  · apply readLoop_of_next
    rw [readIteration, if_pos hphase, h]
    exact if_neg hpay

/-- **The header phase is a call**, in which the socket has nothing more to give than what
the phase has received. -/
theorem handleRead_header (fd : Fd) (hactive : c.active = true) (hphase : c.readPhase = .HEADER)
    (h : headerPhase (.begin c arrivals) = .done r ∨ headerPhase (.begin c arrivals) = .next r) :
    ∃ given, r.Same (handleRead (fun _ => false) fd (.begin c given)) := by
  obtain ⟨given, hdone, hnext⟩ := headerPhase_alone c arrivals
  have hcall : handleRead (fun _ => false) fd (.begin c given)
      = readLoop (fun _ => false) fd (.begin c given) := if_pos hactive
  have hphase' : (Reading.begin c given).client.readPhase = .HEADER := hphase
  refine ⟨given, ?_⟩
  rw [hcall]
  rcases h with h | h
  · obtain ⟨r', hr', hsame⟩ := hdone r h
    have hit : readIteration (fun _ => false) fd (.begin c given) = .done r' := by
      rw [readIteration, if_pos hphase', hr']
    rw [readLoop_of_done hit]
    exact hsame
  · obtain ⟨r', hr', hsame, hnone⟩ := hnext r h
    obtain ⟨c₀, hc₀, -⟩ := exists_of_headerPhase_next hr'
    obtain ⟨call, hwants⟩ := wants_decodeHeader c₀
    rw [readLoop_of_headerPhase hphase' hr', readLoop_idle (hc₀ ▸ hwants) hnone]
    exact ⟨hsame.client, hsame.consumed⟩

/-- The turn of a loop that is at a payload is its payload phase. -/
theorem readIteration_payload (room : ℕ → Bool) (fd : Fd) {r : Reading}
    (hphase : r.client.readPhase = .PAYLOAD) :
    readIteration room fd r = payloadPhase room fd r := by
  have hheader : r.client.readPhase ≠ .HEADER := by rw [hphase]; decide
  rw [readIteration, if_neg hheader]
  exact if_pos hphase

/-- The payload phase up to the push, on a socket that has given all it has to give. -/
theorem payloadPhase_alone
    (h : payloadPhase (fun _ => false) fd (.begin c arrivals) = .done r) :
    ∃ given r', payloadPhase (fun _ => false) fd (.begin c given) = .done r' ∧ r.Same r' := by
  by_cases hlt : c.bytesRead < c.payloadLength.toNat
  · cases hrecv : recv (payloadRecv c).length arrivals with
    | mk res arrivals' =>
      have hgiven := recv_arrivals hrecv
      rw [payloadPhase, Reading.begin_client, Reading.begin_arrivals, if_pos hlt, hrecv] at h
      refine ⟨res.arrivals, ?_⟩
      rw [payloadPhase, Reading.begin_client, Reading.begin_arrivals, if_pos hlt, hgiven]
      cases res with
      | data bs =>
        simp only at h ⊢
        split at h
        · next hless =>
          obtain rfl := Flow.done.inj h
          exact ⟨_, if_pos hless, rfl, rfl⟩
        · next hfull =>
          obtain rfl := Flow.done.inj h
          exact ⟨_, if_neg hfull, rfl, rfl⟩
      | again =>
        obtain rfl := Flow.done.inj h
        exact ⟨_, rfl, rfl, rfl⟩
      | closed =>
        obtain rfl := Flow.done.inj h
        exact ⟨_, rfl, rfl, rfl⟩
      | failed =>
        obtain rfl := Flow.done.inj h
        exact ⟨_, rfl, rfl, rfl⟩
  · -- the frame was kept, and nothing is received
    rw [payloadPhase, Reading.begin_client, if_neg hlt] at h
    obtain rfl := Flow.done.inj h
    refine ⟨[], ?_⟩
    rw [payloadPhase, Reading.begin_client, if_neg hlt]
    exact ⟨_, rfl, rfl, rfl⟩

/-- **The payload phase up to the push is a call** that finds no room. -/
theorem handleRead_payload (hactive : c.active = true) (hphase : c.readPhase = .PAYLOAD)
    (h : payloadPhase (fun _ => false) fd (.begin c arrivals) = .done r) :
    ∃ given, r.Same (handleRead (fun _ => false) fd (.begin c given)) := by
  obtain ⟨given, r', hr', hsame⟩ := payloadPhase_alone h
  have hcall : handleRead (fun _ => false) fd (.begin c given)
      = readLoop (fun _ => false) fd (.begin c given) := if_pos hactive
  have hit := (readIteration_payload (fun _ => false) fd
    (show (Reading.begin c given).client.readPhase = .PAYLOAD from hphase)).trans hr'
  refine ⟨given, ?_⟩
  rw [hcall, readLoop_of_done hit]
  exact hsame

/-- A call that finds no room pushes nothing. -/
theorem pushed_of_no_room (fd : Fd) (c : ClientState) (given : List Arrival) :
    (handleRead (fun _ => false) fd (.begin c given)).pushed = [] := by
  refine handleRead_invariant (P := fun r => r.pushed = []) (fun _ _ h _ => h) ?_ rfl
  intro r r' h hs
  have hcompletes : ∀ r₁, Completes r r₁ → r₁.pushed = r.pushed := by
    intro r₁ hc
    cases hc with
    | before _ => rfl
    | now _ _ _ => rfl
  cases hs with
  | header _ _ _ _ => exact h
  | decode _ _ _ _ => exact h
  | payload _ _ _ _ => exact h
  | again _ _ _ => exact h
  | disconnect _ _ _ _ => exact h
  | push _ _ _ hroom => exact absurd hroom Bool.false_ne_true
  | keep _ _ hc _ => exact (hcompletes _ hc).trans h

/-- **The push of a frame that is complete is a call** on a socket with nothing to give. -/
theorem handleRead_push (fd : Fd) (hactive : c.active = true) (hphase : c.readPhase = .PAYLOAD)
    (hfull : ¬ c.bytesRead < c.payloadLength.toNat) :
    (handleRead (fun k => k = 0) fd (.begin c [])).client
        = { c with readPhase := .HEADER, bytesRead := 0 } ∧
      (handleRead (fun k => k = 0) fd (.begin c [])).consumed = [] ∧
      (handleRead (fun k => k = 0) fd (.begin c [])).pushed = [c.frame fd] := by
  have hcall : handleRead (fun k => k = 0) fd (.begin c [])
      = readLoop (fun k => k = 0) fd (.begin c []) := if_pos hactive
  have hit := (readIteration_payload (fun k => k = 0) fd
    (show (Reading.begin c []).client.readPhase = .PAYLOAD from hphase)).trans (if_neg hfull)
  rw [hcall, readLoop_of_next hit, readLoop_idle (.header rfl) rfl]
  exact ⟨rfl, rfl, rfl⟩

end Parts

end Exchange
