import Exchange.Server.Inbound

/-!
# The requests of a connection

What `handle_read` pushes in one call depends on what earlier calls have left in the slot.
Over all calls on a connection, what has been pushed for it are the frames of the bytes
received on it.  If these are the beginning of a stream of requests, then so is what has
been pushed.

## Main definitions

* `Reading.shift` — a call that is looked at together with those before it.
* `requestFrame`, `requestStream` — the frames of requests for new orders, as a client
  sends them.

## Main results

* `Synced.handleRead` — a call goes on where the calls before it have stopped.
* `Synced.requests` — what is pushed for a connection are its first requests.
-/

namespace Exchange

open Bytes

/-! ### One call after another -/

/-- A moment, with what earlier calls have consumed and pushed. -/
def Moment.shift (consumed : List UInt8) (pushed : List InboundMessage) (m : Moment) : Moment :=
  ⟨m.client, consumed ++ m.consumed, pushed ++ m.pushed⟩

/-- A call, with what earlier calls have consumed and pushed.  Before its first push the
last one of an earlier call may have failed. -/
def Reading.shift (consumed : List UInt8) (pushed : List InboundMessage) (r : Reading) :
    Reading :=
  { r with
    pushed := pushed ++ r.pushed
    consumed := consumed ++ r.consumed
    lastPush := 0 < r.attempts && r.lastPush
    moments := r.moments.map (Moment.shift consumed pushed) }

section Shift

variable (consumed : List UInt8) (pushed : List InboundMessage) (r : Reading)

theorem shift_mark : r.mark.shift consumed pushed = (r.shift consumed pushed).mark := by
  unfold Reading.mark Reading.shift
  rw [List.map_append]
  rfl

theorem shift_fillHeader (bs : List UInt8) (arrivals : List Arrival) :
    (r.fillHeader bs arrivals).shift consumed pushed
      = (r.shift consumed pushed).fillHeader bs arrivals := by
  rw [Reading.fillHeader, shift_mark]
  simp [Reading.fillHeader, Reading.shift]

theorem shift_fillPayload (bs : List UInt8) (arrivals : List Arrival) :
    (r.fillPayload bs arrivals).shift consumed pushed
      = (r.shift consumed pushed).fillPayload bs arrivals := by
  rw [Reading.fillPayload, shift_mark]
  simp [Reading.fillPayload, Reading.shift]

variable {consumed pushed r}

theorem Completes.shift {r₁ : Reading} (h : Completes r r₁) :
    Completes (r.shift consumed pushed) (r₁.shift consumed pushed) := by
  cases h with
  | before hfull => exact .before hfull
  | now hlt hrecv hfull =>
    rw [shift_fillPayload]
    exact .now hlt hrecv hfull

/-- A step does not depend on what earlier calls have done. -/
theorem ReadStep.shift {room : ℕ → Bool} {fd : Fd} {r' : Reading} (h : ReadStep room fd r r') :
    ReadStep room fd (r.shift consumed pushed) (r'.shift consumed pushed) := by
  cases h with
  | header hactive hphase hrecv hlt =>
    rw [shift_fillHeader]
    exact .header hactive hphase hrecv hlt
  | @decode bs arrivals hactive hphase hrecv hge =>
    have hstep : ReadStep room fd (r.shift consumed pushed) _ := .decode hactive hphase hrecv hge
    rw [← shift_fillHeader] at hstep
    rw [shift_mark]
    exact hstep
  | payload hactive hphase hrecv hlt =>
    rw [shift_fillPayload]
    exact .payload hactive hphase hrecv hlt
  | again hactive hwants hrecv => exact .again hactive hwants hrecv
  | disconnect hactive hwants hrecv hres =>
    have hstep : ReadStep room fd (r.shift consumed pushed) _ :=
      .disconnect hactive hwants hrecv hres
    rw [Reading.disconnect, shift_mark]
    exact hstep
  | push hactive hphase hc hroom =>
    have hstep : ReadStep room fd (r.shift consumed pushed) _ := .push hactive hphase hc.shift hroom
    rw [shift_mark]
    simpa [Reading.shift] using hstep
  | keep hactive hphase hc hroom =>
    have hstep : ReadStep room fd (r.shift consumed pushed) _ := .keep hactive hphase hc.shift hroom
    rw [shift_mark]
    simpa [Reading.shift] using hstep

end Shift

/-- **A call goes on** where the calls before it have stopped. -/
theorem Synced.handleRead {fd : Fd} {c : ClientState} {consumed : List UInt8}
    {pushed : List InboundMessage} (h : Synced fd c consumed pushed) (room : ℕ → Bool)
    (arrivals : List Arrival) {r : Reading}
    (hr : r = handleRead room fd (.begin c arrivals)) :
    Synced fd r.client (consumed ++ r.consumed) (pushed ++ r.pushed) := by
  have hgood : Good fd (consumed ++ streamBytes arrivals) (r.shift consumed pushed) := by
    rw [hr]
    refine handleRead_invariant
      (P := fun r => Good fd (consumed ++ streamBytes arrivals) (r.shift consumed pushed))
      (fun _ call h _ => h.calling call) (fun _ _ h hs => h.readStep hs.shift) ?_
    refine ⟨⟨?_, fun m hm => absurd hm List.not_mem_nil, ?_⟩, fun _ => rfl⟩
    · show Synced fd c (consumed ++ []) (pushed ++ [])
      rw [List.append_nil, List.append_nil]
      exact h
    · show (consumed ++ []) ++ streamBytes arrivals = _
      rw [List.append_nil]
  exact hgood.synced

/-- The write buffer has no part in reading. -/
theorem Synced.outOnly {fd : Fd} {c : ClientState} {consumed : List UInt8}
    {pushed : List InboundMessage} (h : Synced fd c consumed pushed) (buffer : List UInt8)
    (sent : ℕ) : Synced fd { c with writeBuffer := buffer, bytesSent := sent } consumed pushed := by
  obtain ⟨frames, bs, hconsumed, hshort, hpushed, hpend⟩ := h
  refine ⟨frames, bs, hconsumed, hshort, hpushed, ?_⟩
  cases hpend with
  | closed hactive hphase hrest => exact .closed hactive hphase hrest
  | header hactive hphase hread hbuffer hbytes =>
    exact .header hactive hphase hread hbuffer hbytes
  | payload hactive hphase hlength hbuffer hread hpayload hbytes =>
    exact .payload hactive hphase hlength hbuffer hread hpayload hbytes

/-- A connection that has just been accepted. -/
theorem synced_accepted (fd : Fd) : Synced fd { active := true } [] [] :=
  (Good.start fd []).synced

/-! ### Requests for new orders -/

/-- The frame of a request for a new order. -/
def requestFrame (payload : List UInt8) : Frame := ⟨MessageType.NEW_ORDER.byte, payload⟩

/-- The bytes of requests for new orders, one after another. -/
def requestStream (payloads : List (List UInt8)) : List UInt8 :=
  (payloads.map fun payload => (requestFrame payload).bytes).flatten

/-- The messages of requests for new orders. -/
def requestsFrom (fd : Fd) (payloads : List (List UInt8)) : List InboundMessage :=
  payloads.map fun payload => ⟨fd, .NEW_ORDER, payload⟩

section Requests

variable {payloads : List (List UInt8)} (hlen : ∀ payload ∈ payloads, payload.length = 22)

include hlen

theorem splitFrames_requestStream :
    splitFrames (requestStream payloads) = (payloads.map requestFrame, []) := by
  have hflat : requestStream payloads = ((payloads.map requestFrame).map Frame.bytes).flatten := by
    rw [requestStream, List.map_map]
    rfl
  rw [hflat]
  apply splitFrames_flatten
  intro f hf
  obtain ⟨payload, hmem, rfl⟩ := List.mem_map.mp hf
  show payload.length < 256 ^ 4
  rw [hlen payload hmem]
  decide

theorem messagesOf_requestFrames (fd : Fd) :
    messagesOf fd (payloads.map requestFrame) = requestsFrom fd payloads := by
  have hall : (payloads.map requestFrame).filter (fun f => f.payload ≠ [])
      = payloads.map requestFrame := by
    rw [List.filter_eq_self]
    intro f hf
    obtain ⟨payload, hmem, rfl⟩ := List.mem_map.mp hf
    have hne : payload ≠ [] := List.ne_nil_of_length_pos (by rw [hlen payload hmem]; decide)
    exact decide_eq_true hne
  rw [messagesOf, hall, List.map_map]
  rfl

/-- **What is pushed for a connection are its first requests**, if what has been received
is the beginning of a stream of requests. -/
theorem Synced.requests {fd : Fd} {c : ClientState} {consumed : List UInt8}
    {pushed : List InboundMessage} (h : Synced fd c consumed pushed)
    (hsent : consumed <+: requestStream payloads) : pushed <+: requestsFrom fd payloads := by
  obtain ⟨frames, bs, hconsumed, hshort, hpushed, -⟩ := h
  obtain ⟨rest, hrest⟩ := hsent
  -- the frames that have been received are the first ones of the stream
  have hframes : frames <+: payloads.map requestFrame := by
    have hsplit := splitFrames_requestStream hlen
    rw [← hrest, hconsumed, List.append_assoc, splitFrames_done hshort] at hsplit
    exact ⟨_, (Prod.mk.inj hsplit).1⟩
  obtain ⟨more, hmore⟩ := hframes
  refine ⟨messagesOf fd more, ?_⟩
  rw [hpushed, ← messagesOf_append, hmore, messagesOf_requestFrames hlen]

end Requests

end Exchange
