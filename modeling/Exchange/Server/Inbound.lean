import Exchange.ClientState

/-!
# Inbound framing

Whatever way the bytes of a stream come in, and however often the inbound ring is full,
what `handle_read` pushes are the frames of the bytes it has consumed: in order, each
once, frames without a payload left out.  Only the last complete frame may still be
kept, after a push that failed.

## Main definitions

* `messagesOf` — the messages of a list of frames.
* `Held` — a complete frame is kept in the state of a connection.
* `Exact` — what has been pushed is what has been consumed.
* `Synced`, `Good` — the invariant of the loop.

## Main results

* `Synced.exact` — the invariant says that what has been pushed is exact.
* `Good.readStep`, `Good.readCalls` — steps of the loop, and calls of it, keep the invariant.
* `inbound_framing_exact` — every moment of every sequence of calls is exact.
-/

namespace Exchange

open Bytes

/-! ### What should be pushed -/

/-- The messages of a list of frames; a frame without a payload has none. -/
def messagesOf (fd : Fd) (frames : List Frame) : List InboundMessage :=
  (frames.filter fun f => f.payload ≠ []).map fun f => ⟨fd, ⟨f.type⟩, f.payload⟩

/-- A complete frame is kept in the state of a connection. -/
def Held (client : ClientState) : Prop :=
  client.readPhase = .PAYLOAD ∧ client.bytesRead = client.payloadLength.toNat

/-- What has been pushed are the frames of what has been consumed, but for the last one
if it is kept. -/
def Exact (fd : Fd) (m : Moment) : Prop :=
  m.pushed = messagesOf fd (splitFrames m.consumed).1 ∨
    Held m.client ∧ m.pushed ++ [⟨fd, m.client.messageType, m.client.readBuffer⟩]
      = messagesOf fd (splitFrames m.consumed).1

theorem messagesOf_append (fd : Fd) (fs gs : List Frame) :
    messagesOf fd (fs ++ gs) = messagesOf fd fs ++ messagesOf fd gs := by
  simp [messagesOf]

theorem messagesOf_empty (fd : Fd) (t : UInt8) : messagesOf fd [⟨t, []⟩] = [] := rfl

theorem messagesOf_singleton (fd : Fd) {f : Frame} (h : f.payload ≠ []) :
    messagesOf fd [f] = [⟨fd, ⟨f.type⟩, f.payload⟩] := by
  simp [messagesOf, h]

/-! ### Streams that end within a frame -/

/-- The frames of a stream of complete frames and something behind them. -/
theorem splitFrames_done {frames : List Frame} (h : ∀ f ∈ frames, f.Short) (bs : List UInt8) :
    splitFrames ((frames.map Frame.bytes).flatten ++ bs)
      = (frames ++ (splitFrames bs).1, (splitFrames bs).2) := by
  rw [splitFrames_append, splitFrames_flatten h]
  rfl

/-- No frame is shorter than its header. -/
theorem nextFrame_of_length_lt {bs : List UInt8} (h : bs.length < 5) : nextFrame bs = none := by
  cases hn : nextFrame bs with
  | none => rfl
  | some x =>
    obtain ⟨f, rest⟩ := x
    obtain ⟨rfl, -⟩ := nextFrame_eq_some_iff.mp hn
    simp only [Frame.bytes, List.length_append, List.length_cons, length_beBytes] at h
    omega

/-- A frame is not complete before its payload is. -/
theorem nextFrame_of_payload_lt (t : UInt8) {n : ℕ} (hn : n < 256 ^ 4) {bs : List UInt8}
    (h : bs.length < n) : nextFrame (t :: (beBytes 4 n ++ bs)) = none := by
  have htake : (beBytes 4 n ++ bs).take 4 = beBytes 4 n := List.take_left' (length_beBytes 4 n)
  rw [nextFrame, htake, ofBeBytes_beBytes hn, if_neg]
  rw [List.length_append, length_beBytes]
  omega

theorem short_empty (t : UInt8) : (Frame.mk t []).Short := by
  show 0 < 256 ^ 4
  decide

/-- A header alone has no message: at most it is a frame without a payload. -/
theorem messagesOf_header (fd : Fd) (t : UInt8) {bs : List UInt8} (h : bs.length = 4) :
    messagesOf fd (splitFrames (t :: bs)).1 = [] := by
  cases hn : nextFrame (t :: bs) with
  | none =>
    rw [splitFrames_none hn]
    rfl
  | some x =>
    obtain ⟨⟨t', payload⟩, rest⟩ := x
    have hlen := congrArg List.length (nextFrame_eq_some_iff.mp hn).1
    simp only [Frame.bytes, List.length_append, List.length_cons, length_beBytes] at hlen
    have hpayload : payload = [] := List.eq_nil_of_length_eq_zero (by omega)
    have hrest : rest = [] := List.eq_nil_of_length_eq_zero (by omega)
    rw [splitFrames_some hn, hpayload, hrest, splitFrames_nil]
    rfl

/-! ### The invariant -/

/-- How the state of a connection stands to the bytes of the frame it is reading. -/
inductive Pending (client : ClientState) (bs : List UInt8) : Prop
  /-- The connection is closed; the rest of the stream is no complete frame. -/
  | closed (hactive : client.active = false) (hphase : client.readPhase = .HEADER)
      (hrest : nextFrame bs = none)
  /-- Part of a header has been received. -/
  | header (hactive : client.active = true) (hphase : client.readPhase = .HEADER)
      (hread : client.bytesRead < 5) (hbuffer : client.headerBuffer.length = 5)
      (hbytes : bs = client.headerBuffer.take client.bytesRead)
  /-- The header and part of the payload have been received. -/
  | payload (hactive : client.active = true) (hphase : client.readPhase = .PAYLOAD)
      (hlength : 0 < client.payloadLength.toNat) (hbuffer : client.headerBuffer.length = 5)
      (hread : client.bytesRead ≤ client.payloadLength.toNat)
      (hpayload : client.readBuffer.length = client.payloadLength.toNat)
      (hbytes : bs = client.messageType.byte ::
        (beBytes 4 client.payloadLength.toNat ++ client.readBuffer.take client.bytesRead))

/-- What has been consumed is a list of frames, which have been pushed, and part of
another one, which is pending. -/
def Synced (fd : Fd) (client : ClientState) (consumed : List UInt8)
    (pushed : List InboundMessage) : Prop :=
  ∃ frames bs, consumed = (frames.map Frame.bytes).flatten ++ bs ∧ (∀ f ∈ frames, f.Short) ∧
    pushed = messagesOf fd frames ∧ Pending client bs

theorem payloadLength_lt (client : ClientState) : client.payloadLength.toNat < 256 ^ 4 :=
  client.payloadLength.toNat_lt

/-- **The invariant says that what has been pushed is exact.** -/
theorem Synced.exact {fd : Fd} {client : ClientState} {consumed : List UInt8}
    {pushed : List InboundMessage} (h : Synced fd client consumed pushed) :
    Exact fd ⟨client, consumed, pushed⟩ := by
  obtain ⟨frames, bs, rfl, hshort, rfl, hpend⟩ := h
  rw [Exact, splitFrames_done hshort]
  cases hpend with
  | closed hactive hphase hrest =>
    left
    rw [splitFrames_none hrest, List.append_nil]
  | header hactive hphase hread hbuffer hbytes =>
    left
    have hlen : bs.length < 5 := by
      rw [hbytes, List.length_take]
      omega
    rw [splitFrames_none (nextFrame_of_length_lt hlen), List.append_nil]
  | payload hactive hphase hlength hbuffer hread hpayload hbytes =>
    rcases Nat.lt_or_ge client.bytesRead client.payloadLength.toNat with hlt | hge
    · left
      have hlen : (client.readBuffer.take client.bytesRead).length
          < client.payloadLength.toNat := by
        rw [List.length_take]
        omega
      rw [hbytes, splitFrames_none (nextFrame_of_payload_lt _ (payloadLength_lt client) hlen),
        List.append_nil]
    · -- the payload is complete: the frame is kept
      right
      have hall : client.bytesRead = client.payloadLength.toNat := Nat.le_antisymm hread hge
      have hframe : bs = Frame.bytes ⟨client.messageType.byte, client.readBuffer⟩ ++ [] := by
        rw [List.append_nil, hbytes, hall, ← hpayload, List.take_length]
        rfl
      have hne : client.readBuffer ≠ [] := by
        intro hnil
        rw [hnil] at hpayload
        simp only [List.length_nil] at hpayload
        omega
      have hsh : (Frame.mk client.messageType.byte client.readBuffer).Short := by
        show client.readBuffer.length < 256 ^ 4
        rw [hpayload]
        exact payloadLength_lt client
      refine ⟨⟨hphase, hall⟩, ?_⟩
      rw [hframe, splitFrames_bytes hsh, splitFrames_nil, messagesOf_append,
        messagesOf_singleton fd hne]

/-- The invariant within the loop. -/
structure Tracked (fd : Fd) (stream : List UInt8) (r : Reading) : Prop where
  synced : Synced fd r.client r.consumed r.pushed
  moments : ∀ m ∈ r.moments, Exact fd m
  stream : r.consumed ++ streamBytes r.arrivals = stream

/-- The invariant between iterations: a frame is kept only after a push that failed. -/
structure Good (fd : Fd) (stream : List UInt8) (r : Reading) : Prop extends
    Tracked fd stream r where
  settled : Held r.client → r.lastPush = false

/-- A moment that is exact may be recorded. -/
theorem moments_mark {fd : Fd} {r : Reading} (hm : ∀ m ∈ r.moments, Exact fd m)
    (h : Exact fd ⟨r.client, r.consumed, r.pushed⟩) : ∀ m ∈ r.mark.moments, Exact fd m := by
  intro m hmem
  rcases List.mem_append.mp hmem with hmem | hmem
  · exact hm m hmem
  · rw [List.mem_singleton.mp hmem]
    exact h

theorem not_held_of_header {client : ClientState} (h : client.readPhase = .HEADER) :
    ¬ Held client := by
  rintro ⟨hp, -⟩
  rw [h] at hp
  exact absurd hp (by decide)

namespace Good

variable {fd : Fd} {stream : List UInt8} {r : Reading}

/-- A `recv` is recorded. -/
theorem calling (h : Good fd stream r) (call : RecvCall) : Good fd stream (r.calling call) :=
  ⟨⟨h.synced, h.moments, h.stream⟩, h.settled⟩

/-- A `recv` that takes no bytes. -/
theorem skip (h : Good fd stream r) {arrivals : List Arrival}
    (hs : streamBytes r.arrivals = streamBytes arrivals) : Good fd stream { r with arrivals } :=
  ⟨⟨h.synced, h.moments, by rw [← h.stream, hs]⟩, h.settled⟩

/-- A connection that is closed before a frame is complete. -/
theorem disconnect (h : Good fd stream r) (hheld : ¬ Held r.client) :
    Good fd stream r.disconnect := by
  obtain ⟨frames, bs, hconsumed, hshort, hpushed, hpend⟩ := h.synced
  -- what was pending is no complete frame
  have hrest : nextFrame bs = none := by
    cases hpend with
    | closed hactive hphase hrest => exact hrest
    | header hactive hphase hread hbuffer hbytes =>
      apply nextFrame_of_length_lt
      rw [hbytes, List.length_take]
      omega
    | payload hactive hphase hlength hbuffer hread hpayload hbytes =>
      have hlt : r.client.bytesRead < r.client.payloadLength.toNat :=
        Nat.lt_of_le_of_ne hread fun heq => hheld ⟨hphase, heq⟩
      rw [hbytes]
      apply nextFrame_of_payload_lt _ (payloadLength_lt _)
      rw [List.length_take]
      omega
  have hsynced : Synced fd {} r.consumed r.pushed :=
    ⟨frames, bs, hconsumed, hshort, hpushed, .closed rfl rfl hrest⟩
  exact ⟨⟨hsynced, moments_mark h.moments hsynced.exact, h.stream⟩,
    fun hh => absurd hh (not_held_of_header rfl)⟩

end Good

/-! ### The header phase -/

/-- A header buffer that is full. -/
theorem header_eq_cons {buffer : List UInt8} (h : buffer.length = 5) :
    ∃ t bs, buffer = t :: bs ∧ bs.length = 4 := by
  cases buffer with
  | nil => exact absurd h (by simp)
  | cons t bs => exact ⟨t, bs, rfl, by rw [List.length_cons] at h; omega⟩

/-- The header, decoded. -/
theorem decodeHeader_eq {client : ClientState} {t : UInt8} {bs tail : List UInt8}
    (h : client.headerBuffer = t :: (bs ++ tail)) (hbs : bs.length = 4) :
    (decodeHeader client).messageType = ⟨t⟩ ∧
      (decodeHeader client).payloadLength.toNat = ofBeBytes bs ∧
      (decodeHeader client).readBuffer.length = ofBeBytes bs := by
  have hbytes : (client.headerBuffer.drop 1).take 4 = bs := by
    rw [h, List.drop_one, List.tail_cons, ← hbs, List.take_left]
  have hlen : (ntohl (UInt32.ofNat (ofLeBytes ((client.headerBuffer.drop 1).take 4)))).toNat
      = ofBeBytes bs := by
    rw [hbytes]
    exact toNat_ntohl hbs
  refine ⟨by rw [decodeHeader, h]; rfl, hlen, ?_⟩
  show (resize client.readBuffer _).length = _
  rw [hlen, length_resize]

/-- A header without a payload leaves the header phase to the next frame. -/
theorem readPhase_of_zero {client : ClientState} (h : (decodeHeader client).payloadLength = 0) :
    (decodeHeader client).readPhase = .HEADER := by
  rw [decodeHeader_readPhase, if_neg (not_not_intro h)]

theorem readPhase_of_ne_zero {client : ClientState}
    (h : (decodeHeader client).payloadLength ≠ 0) :
    (decodeHeader client).readPhase = .PAYLOAD := by
  rw [decodeHeader_readPhase, if_pos h]

/-- After the header no byte of the payload has been received. -/
theorem not_held_decodeHeader (client : ClientState) : ¬ Held (decodeHeader client) := by
  rintro ⟨hphase, hread⟩
  by_cases hzero : (decodeHeader client).payloadLength = 0
  · exact not_held_of_header (readPhase_of_zero hzero) ⟨hphase, hread⟩
  · exact hzero (UInt32.toNat_inj.mp hread.symm)

section Header

variable {fd : Fd} {stream : List UInt8} {r : Reading}

/-- Bytes received into the header buffer: the frames before are those pushed, and the
bytes of this one are in the buffer. -/
theorem Good.header_received (h : Good fd stream r) (hactive : r.client.active = true)
    (hphase : r.client.readPhase = .HEADER) {cs : List UInt8}
    (hle : cs.length ≤ 5 - r.client.bytesRead) :
    ∃ frames, r.consumed ++ cs = (frames.map Frame.bytes).flatten ++
        (writeAt r.client.headerBuffer r.client.bytesRead cs).take
          (r.client.bytesRead + cs.length) ∧
      (∀ f ∈ frames, f.Short) ∧ r.pushed = messagesOf fd frames ∧
      (writeAt r.client.headerBuffer r.client.bytesRead cs).length = 5 := by
  obtain ⟨frames, bs, hconsumed, hshort, hpushed, hpend⟩ := h.synced
  cases hpend with
  | closed hinactive => rw [hactive] at hinactive; exact absurd hinactive (by simp)
  | payload _ hp => rw [hphase] at hp; exact absurd hp (by decide)
  | header _ _ hread hbuffer hbytes =>
    -- the new bytes are written behind those of the header that are there
    refine ⟨frames, ?_, hshort, hpushed, ?_⟩
    · rw [take_writeAt (by omega), ← hbytes, hconsumed, List.append_assoc]
    · rw [length_writeAt (by omega), hbuffer]

/-- The header is not complete yet. -/
theorem Good.fillHeader (h : Good fd stream r) (hactive : r.client.active = true)
    (hphase : r.client.readPhase = .HEADER) {cs : List UInt8} {arrivals : List Arrival}
    (hle : cs.length ≤ 5 - r.client.bytesRead)
    (hstream : streamBytes r.arrivals = cs ++ streamBytes arrivals)
    (hlt : r.client.bytesRead + cs.length < 5) : Good fd stream (r.fillHeader cs arrivals) := by
  obtain ⟨frames, hcons, hshort, hpushed, hbuf⟩ := h.header_received hactive hphase hle
  have hsynced : Synced fd (r.fillHeader cs arrivals).client (r.consumed ++ cs) r.pushed :=
    ⟨frames, _, hcons, hshort, hpushed, .header hactive hphase hlt hbuf rfl⟩
  refine ⟨⟨hsynced, moments_mark h.moments hsynced.exact, ?_⟩, ?_⟩
  · show (r.consumed ++ cs) ++ streamBytes arrivals = stream
    rw [List.append_assoc, ← hstream, h.stream]
  · exact fun hheld => absurd hheld (not_held_of_header hphase)

/-- The header is complete, and is decoded. -/
theorem Good.decode (h : Good fd stream r) (hactive : r.client.active = true)
    (hphase : r.client.readPhase = .HEADER) {cs : List UInt8} {arrivals : List Arrival}
    (hle : cs.length ≤ 5 - r.client.bytesRead)
    (hstream : streamBytes r.arrivals = cs ++ streamBytes arrivals)
    (hge : 5 ≤ r.client.bytesRead + cs.length) :
    Good fd stream (Reading.mark { r.fillHeader cs arrivals with
      client := decodeHeader (r.fillHeader cs arrivals).client }) := by
  obtain ⟨frames, hcons, hshort, hpushed, hbuf⟩ := h.header_received hactive hphase hle
  obtain ⟨t, lb, hhead, hlb⟩ := header_eq_cons hbuf
  rw [List.take_of_length_le (by omega), hhead] at hcons
  have hback : beBytes 4 (ofBeBytes lb) = lb := by
    rw [← hlb]
    exact beBytes_ofBeBytes lb
  have hbuffer : (r.fillHeader cs arrivals).client.headerBuffer = t :: (lb ++ []) := by
    rw [List.append_nil]
    exact hhead
  obtain ⟨htype, hlength, hreadBuffer⟩ := decodeHeader_eq hbuffer hlb
  have hon := (decodeHeader_active (r.fillHeader cs arrivals).client).trans hactive
  have hfive := congrArg List.length (decodeHeader_headerBuffer (r.fillHeader cs arrivals).client)
  have hnone := decodeHeader_bytesRead (r.fillHeader cs arrivals).client
  rw [show (r.fillHeader cs arrivals).client.headerBuffer.length = 5 from hbuf] at hfive
  have hsynced : Synced fd (decodeHeader (r.fillHeader cs arrivals).client) (r.consumed ++ cs)
      r.pushed := by
    by_cases hzero : (decodeHeader (r.fillHeader cs arrivals).client).payloadLength = 0
    · -- a frame without a payload is done with
      have hnil : ofBeBytes lb = 0 := by
        rw [← hlength, hzero]
        rfl
      have hframe : t :: lb = Frame.bytes ⟨t, []⟩ := by
        rw [← hback, hnil]
        rfl
      refine ⟨frames ++ [⟨t, []⟩], [], ?_, ?_, ?_, ?_⟩
      · rw [hcons, hframe]
        simp
      · intro f hf
        rcases List.mem_append.mp hf with hf | hf
        · exact hshort f hf
        · rw [List.mem_singleton.mp hf]
          exact short_empty t
      · rw [messagesOf_append, messagesOf_empty, List.append_nil]
        exact hpushed
      · refine .header hon (readPhase_of_zero hzero) ?_ hfive ?_
        · rw [hnone]
          exact Nat.succ_pos 4
        · rw [hnone, List.take_zero]
    · refine ⟨frames, t :: lb, hcons, hshort, hpushed, ?_⟩
      refine .payload hon (readPhase_of_ne_zero hzero) ?_ hfive ?_
        (hreadBuffer.trans hlength.symm) ?_
      · exact Nat.pos_of_ne_zero fun h0 => hzero (UInt32.toNat_inj.mp h0)
      · rw [hnone]
        exact Nat.zero_le _
      · rw [htype, hlength, hback, hnone, List.take_zero, List.append_nil]
  -- the moment before: the header alone is at most a frame without a payload
  have hbefore : Exact fd ⟨(r.fillHeader cs arrivals).client, r.consumed ++ cs, r.pushed⟩ := by
    left
    show r.pushed = messagesOf fd (splitFrames (r.consumed ++ cs)).1
    rw [hcons, splitFrames_done hshort, messagesOf_append, ← hpushed,
      messagesOf_header fd t hlb, List.append_nil]
  refine ⟨⟨hsynced, ?_, ?_⟩, ?_⟩
  · exact moments_mark (moments_mark h.moments hbefore) hsynced.exact
  · show (r.consumed ++ cs) ++ streamBytes arrivals = stream
    rw [List.append_assoc, ← hstream, h.stream]
  · exact fun hheld => absurd hheld (not_held_decodeHeader _)

end Header

/-! ### The payload phase -/

section Payload

variable {fd : Fd} {stream : List UInt8} {r : Reading}

/-- **A push that finds room**: the frame that is complete is pushed. -/
theorem Tracked.push (h : Tracked fd stream r) (hactive : r.client.active = true)
    (hheld : Held r.client) :
    Good fd stream (Reading.mark { r with
      pushed := r.pushed ++ [⟨fd, r.client.messageType, r.client.readBuffer⟩]
      attempts := r.attempts + 1
      lastPush := true
      client := { r.client with readPhase := .HEADER, bytesRead := 0 } }) := by
  obtain ⟨frames, bs, hconsumed, hshort, hpushed, hpend⟩ := h.synced
  cases hpend with
  | closed hinactive => rw [hactive] at hinactive; exact absurd hinactive (by simp)
  | header _ hp => exact absurd hheld (not_held_of_header hp)
  | payload _ _ hlength hbuffer hread hpayload hbytes =>
    -- the pending bytes are the whole frame, which joins those that have been pushed
    have hframe : bs = Frame.bytes ⟨r.client.messageType.byte, r.client.readBuffer⟩ := by
      rw [hbytes, hheld.2, ← hpayload, List.take_length]
      rfl
    have hne : r.client.readBuffer ≠ [] := List.ne_nil_of_length_pos (by omega)
    have hsynced : Synced fd { r.client with readPhase := .HEADER, bytesRead := 0 } r.consumed
        (r.pushed ++ [⟨fd, r.client.messageType, r.client.readBuffer⟩]) := by
      refine ⟨frames ++ [⟨r.client.messageType.byte, r.client.readBuffer⟩], [], ?_, ?_, ?_, ?_⟩
      · rw [hconsumed, hframe]
        simp
      · intro f hf
        rcases List.mem_append.mp hf with hf | hf
        · exact hshort f hf
        · rw [List.mem_singleton.mp hf]
          show r.client.readBuffer.length < 256 ^ 4
          rw [hpayload]
          exact payloadLength_lt r.client
      · rw [messagesOf_append, messagesOf_singleton fd hne, ← hpushed]
      · exact .header hactive rfl (Nat.succ_pos 4) hbuffer rfl
    refine ⟨⟨hsynced, moments_mark h.moments hsynced.exact, h.stream⟩, ?_⟩
    exact fun hh => absurd hh (not_held_of_header rfl)

/-- **A push that finds the ring full**: the frame that is complete is kept. -/
theorem Tracked.keep (h : Tracked fd stream r) :
    Good fd stream (Reading.mark { r with attempts := r.attempts + 1, lastPush := false }) :=
  ⟨⟨h.synced, moments_mark h.moments h.synced.exact, h.stream⟩, fun _ => rfl⟩

/-- Bytes received into the read buffer. -/
theorem Good.fillPayload (h : Good fd stream r) (hactive : r.client.active = true)
    (hphase : r.client.readPhase = .PAYLOAD) {cs : List UInt8} {arrivals : List Arrival}
    (hle : cs.length ≤ r.client.payloadLength.toNat - r.client.bytesRead)
    (hstream : streamBytes r.arrivals = cs ++ streamBytes arrivals) :
    Tracked fd stream (r.fillPayload cs arrivals) := by
  obtain ⟨frames, bs, hconsumed, hshort, hpushed, hpend⟩ := h.synced
  cases hpend with
  | closed hinactive => rw [hactive] at hinactive; exact absurd hinactive (by simp)
  | header _ hp => rw [hphase] at hp; exact absurd hp (by decide)
  | payload _ _ hlength hbuffer hread hpayload hbytes =>
    have hsynced : Synced fd (r.fillPayload cs arrivals).client (r.consumed ++ cs) r.pushed := by
      refine ⟨frames, bs ++ cs, ?_, hshort, hpushed, ?_⟩
      · rw [hconsumed, List.append_assoc]
      · refine .payload hactive hphase hlength hbuffer ?_ ?_ ?_
        · show r.client.bytesRead + cs.length ≤ r.client.payloadLength.toNat
          omega
        · exact (length_writeAt (by omega)).trans hpayload
        · rw [hbytes, List.cons_append, List.append_assoc, ← take_writeAt (by omega)]
          rfl
    refine ⟨hsynced, moments_mark h.moments hsynced.exact, ?_⟩
    show (r.consumed ++ cs) ++ streamBytes arrivals = stream
    rw [List.append_assoc, ← hstream, h.stream]

/-- No more of a payload than its length is received. -/
theorem Tracked.bytesRead_le (h : Tracked fd stream r) (hphase : r.client.readPhase = .PAYLOAD) :
    r.client.bytesRead ≤ r.client.payloadLength.toNat := by
  obtain ⟨frames, bs, -, -, -, hpend⟩ := h.synced
  cases hpend with
  | closed _ hp => rw [hphase] at hp; exact absurd hp (by decide)
  | header _ hp => rw [hphase] at hp; exact absurd hp (by decide)
  | payload _ _ _ _ hread => exact hread

/-- The payload is complete, and the invariant holds but for the push that follows. -/
theorem Good.completes {r₁ : Reading} (h : Good fd stream r) (hactive : r.client.active = true)
    (hphase : r.client.readPhase = .PAYLOAD) (hc : Completes r r₁) :
    Tracked fd stream r₁ ∧ r₁.client.active = true ∧ Held r₁.client := by
  cases hc with
  | before hfull =>
    -- the frame was kept by an earlier call
    have hle := h.bytesRead_le hphase
    exact ⟨h.toTracked, hactive, hphase, Nat.le_antisymm hle (Nat.not_lt.mp hfull)⟩
  | now _ hrecv hfull =>
    obtain ⟨-, hle, hstream, -⟩ := recv_data hrecv
    have htracked := h.fillPayload hactive hphase hle hstream
    have hle' := htracked.bytesRead_le hphase
    exact ⟨htracked, hactive, hphase, Nat.le_antisymm hle' (Nat.not_lt.mp hfull)⟩

end Payload

/-! ### A frame that is there as a whole -/

section Whole

variable {r : Reading} {f : Frame} {arrivals arrivals' : List Arrival}

/-- The header phase receives a header and decodes it. -/
theorem headerPhase_whole (hread : r.client.bytesRead = 0) (hshort : f.Short)
    (hne : f.payload ≠ [])
    (hrecv : recv 5 r.arrivals = (.data (f.type :: beBytes 4 f.payload.length), arrivals)) :
    ∃ r₀, headerPhase r = .next r₀ ∧ r₀.client.readPhase = .PAYLOAD ∧
      r₀.client.messageType = ⟨f.type⟩ ∧ r₀.client.payloadLength.toNat = f.payload.length ∧
      r₀.client.readBuffer.length = f.payload.length ∧ r₀.client.bytesRead = 0 ∧
      r₀.client.active = r.client.active ∧ r₀.arrivals = arrivals ∧
      r₀.attempts = r.attempts ∧ r₀.pushed = r.pushed := by
  have hlen : (beBytes 4 f.payload.length).length = 4 := length_beBytes 4 _
  have hback : ofBeBytes (beBytes 4 f.payload.length) = f.payload.length := ofBeBytes_beBytes hshort
  generalize beBytes 4 f.payload.length = bs at hrecv hlen hback
  have hrecv' : recv (headerRecv r.client).length r.arrivals
      = (.data (f.type :: bs), arrivals) := by
    show recv (5 - r.client.bytesRead) r.arrivals = _
    rw [hread]
    exact hrecv
  generalize hr : (r.calling (headerRecv r.client)).fillHeader (f.type :: bs) arrivals = r'
  have hbuffer : r'.client.headerBuffer = f.type :: (bs ++ r.client.headerBuffer.drop 5) := by
    rw [← hr]
    show writeAt r.client.headerBuffer r.client.bytesRead (f.type :: bs) = _
    rw [hread, writeAt, List.take_zero, List.nil_append, List.length_cons, hlen]
    rfl
  have hfull : ¬ r'.client.bytesRead < 5 := by
    rw [← hr]
    show ¬ r.client.bytesRead + (f.type :: bs).length < 5
    rw [List.length_cons, hlen]
    omega
  obtain ⟨htype, hlength, hroom⟩ := decodeHeader_eq hbuffer hlen
  rw [hback] at hlength hroom
  refine ⟨Reading.mark { r' with client := decodeHeader r'.client }, ?_, ?_, htype, hlength, hroom,
    decodeHeader_bytesRead _, (decodeHeader_active _).trans ?_, ?_, ?_, ?_⟩
  · rw [headerPhase, hrecv']
    simp only [hr]
    exact if_neg hfull
  · apply readPhase_of_ne_zero
    intro hzero
    rw [hzero] at hlength
    exact hne (List.eq_nil_of_length_eq_zero hlength.symm)
  -- the other members are those of `r`
  · rw [← hr]
    rfl
  · rw [← hr]
    rfl
  · rw [← hr]
    rfl
  · rw [← hr]
    rfl

/-- **An iteration receives a frame**, and then tries to push it. -/
theorem readIteration_whole (room : ℕ → Bool) (fd : Fd) (hphase : r.client.readPhase = .HEADER)
    (hread : r.client.bytesRead = 0) (hshort : f.Short) (hne : f.payload ≠ [])
    (hheader : recv 5 r.arrivals = (.data (f.type :: beBytes 4 f.payload.length), arrivals))
    (hpayload : recv f.payload.length arrivals = (.data f.payload, arrivals')) :
    ∃ r₁, readIteration room fd r = pushFrame room fd r₁ ∧ Held r₁.client ∧
      r₁.client.messageType = ⟨f.type⟩ ∧ r₁.client.readBuffer = f.payload ∧
      r₁.client.active = r.client.active ∧ r₁.arrivals = arrivals' ∧
      r₁.attempts = r.attempts ∧ r₁.pushed = r.pushed := by
  obtain ⟨r₀, hnext, hphase₀, htype, hlength, hroom, hread₀, hactive, harrivals, hattempts,
    hpushed⟩ := headerPhase_whole hread hshort hne hheader
  have hpos : 0 < f.payload.length := List.length_pos_of_ne_nil hne
  have hrecv : recv (payloadRecv r₀.client).length r₀.arrivals = (.data f.payload, arrivals') := by
    show recv (r₀.client.payloadLength.toNat - r₀.client.bytesRead) r₀.arrivals = _
    rw [hread₀, hlength, harrivals]
    exact hpayload
  have hbytes : r₀.client.bytesRead + f.payload.length = r₀.client.payloadLength.toNat := by
    rw [hread₀, hlength, Nat.zero_add]
  have hphase₁ : payloadPhase room fd r₀ = pushFrame room fd
      ((r₀.calling (payloadRecv r₀.client)).fillPayload f.payload arrivals') := by
    have hfull : ¬ ((r₀.calling (payloadRecv r₀.client)).fillPayload f.payload
        arrivals').client.bytesRead < r₀.client.payloadLength.toNat :=
      Nat.not_lt.mpr (Nat.le_of_eq hbytes.symm)
    rw [payloadPhase, if_pos (by omega), hrecv]
    exact if_neg hfull
  refine ⟨(r₀.calling (payloadRecv r₀.client)).fillPayload f.payload arrivals', ?_,
    ⟨hphase₀, hbytes⟩, htype, ?_, hactive, rfl, hattempts, hpushed⟩
  · rw [readIteration, if_pos hphase, hnext]
    exact (if_pos hphase₀).trans hphase₁
  · -- the payload fills the read buffer
    show writeAt r₀.client.readBuffer r₀.client.bytesRead f.payload = f.payload
    rw [hread₀, writeAt, List.take_zero, List.nil_append, Nat.zero_add, ← hroom, List.drop_length,
      List.append_nil]

/-- A socket with one frame gives its header, and then its payload. -/
theorem recv_whole (f : Frame) (hne : f.payload ≠ []) :
    ∃ arrivals, recv 5 [.chunk f.type (beBytes 4 f.payload.length ++ f.payload)]
        = (.data (f.type :: beBytes 4 f.payload.length), arrivals) ∧
      recv f.payload.length arrivals = (.data f.payload, []) := by
  obtain ⟨c, cs, hpayload⟩ := List.exists_cons_of_ne_nil hne
  have hlen : (beBytes 4 f.payload.length).length = 4 := length_beBytes 4 _
  generalize beBytes 4 f.payload.length = bs at hlen ⊢
  have hdrop : (bs ++ f.payload).drop 4 = c :: cs := by
    rw [← hlen, List.drop_left, hpayload]
  have htake : (bs ++ f.payload).take 4 = bs := by
    rw [← hlen, List.take_left]
  refine ⟨[.chunk c cs], ?_, ?_⟩
  · simp only [recv, hdrop, htake]
  · rw [hpayload, List.length_cons]
    simp only [recv, List.drop_length, List.take_length]

/-- **A call that receives one frame** pushes it, when there is room, and is ready for the next
one. -/
theorem handleRead_whole (fd : Fd) {client : ClientState} (hactive : client.active = true)
    (hphase : client.readPhase = .HEADER) (hread : client.bytesRead = 0) (hshort : f.Short)
    (hne : f.payload ≠ []) {r' : Reading}
    (hr : r' = handleRead (fun _ => true) fd
      (.begin client [.chunk f.type (beBytes 4 f.payload.length ++ f.payload)])) :
    r'.pushed = [⟨fd, ⟨f.type⟩, f.payload⟩] ∧ r'.client.active = true ∧
      r'.client.readPhase = .HEADER ∧ r'.client.bytesRead = 0 := by
  obtain ⟨arrivals, hheader, hpayload⟩ := recv_whole f hne
  obtain ⟨r₁, hiter, -, htype, hbuffer, hactive₁, harrivals, -, hpushed⟩ :=
    readIteration_whole (r := .begin client
      [.chunk f.type (beBytes 4 f.payload.length ++ f.payload)]) (fun _ => true) fd hphase hread
      hshort hne hheader hpayload
  rw [pushFrame, if_pos rfl] at hiter
  rw [handleRead, Reading.begin_client, if_pos hactive, readLoop_of_next hiter] at hr
  -- in the next iteration nothing is left to receive
  generalize hr₂ : Reading.mark _ = r₂ at hr
  have hphase₂ : r₂.client.readPhase = .HEADER := by rw [← hr₂]; rfl
  have hempty : r₂.arrivals = [] := by rw [← hr₂]; exact harrivals
  have hdone : readIteration (fun _ => true) fd r₂
      = .done { r₂.calling (headerRecv r₂.client) with arrivals := [] } := by
    rw [readIteration, if_pos hphase₂, headerPhase, hempty]
    rfl
  rw [readLoop_of_done hdone] at hr
  rw [hr]
  refine ⟨?_, ?_, hphase₂, ?_⟩
  · show r₂.pushed = _
    rw [← hr₂]
    show r₁.pushed ++ _ = _
    rw [hpushed, htype, hbuffer]
    rfl
  · show r₂.client.active = true
    rw [← hr₂]
    exact hactive₁.trans hactive
  · show r₂.client.bytesRead = 0
    rw [← hr₂]
    rfl

end Whole

/-! ### The loop -/

section Loop

variable {fd : Fd} {stream : List UInt8} {r : Reading}

/-- A connection of which bytes are wanted keeps no frame. -/
theorem not_held_of_wants {client : ClientState} {call : RecvCall} (h : Wants client call) :
    ¬ Held client := by
  cases h with
  | header hphase => exact not_held_of_header hphase
  | payload hphase hlt => exact fun hheld => Nat.ne_of_lt hlt hheld.2

/-- **A step of the loop** keeps the invariant. -/
theorem Good.readStep {room : ℕ → Bool} {r' : Reading} (h : Good fd stream r)
    (hs : ReadStep room fd r r') : Good fd stream r' := by
  cases hs with
  | header hactive hphase hrecv hlt =>
    obtain ⟨-, hle, hstream, -⟩ := recv_data hrecv
    exact h.fillHeader hactive hphase hle hstream hlt
  | decode hactive hphase hrecv hge =>
    obtain ⟨-, hle, hstream, -⟩ := recv_data hrecv
    exact h.decode hactive hphase hle hstream (Nat.not_lt.mp hge)
  | payload hactive hphase hrecv hlt =>
    obtain ⟨-, hle, hstream, -⟩ := recv_data hrecv
    exact ⟨h.fillPayload hactive hphase hle hstream, fun hh => absurd hh.2 (Nat.ne_of_lt hlt)⟩
  | again hactive hwants hrecv => exact h.skip (recv_other hrecv (by simp))
  | @disconnect n res arrivals hactive hwants hrecv hres =>
    have hno : ∀ bs, res ≠ .data bs := by
      rintro bs rfl
      rcases hres with hres | hres
      · exact absurd hres (by simp)
      · exact absurd hres (by simp)
    exact (h.skip (recv_other hrecv hno)).disconnect (not_held_of_wants hwants)
  | push hactive hphase hc hroom =>
    obtain ⟨htracked, hactive₁, hheld⟩ := h.completes hactive hphase hc
    exact htracked.push hactive₁ hheld
  | keep hactive hphase hc hroom => exact (h.completes hactive hphase hc).1.keep

/-- A call of `handle_read` keeps the invariant. -/
theorem Good.handleRead (h : Good fd stream r) (room : ℕ → Bool) :
    Good fd stream (handleRead room fd r) :=
  handleRead_invariant (P := Good fd stream) (fun _ _ h _ => h.calling _)
    (fun _ _ h hs => h.readStep hs) h

/-- **Any number of calls** keeps the invariant. -/
theorem Good.readCalls (h : Good fd stream r) (room : ℕ → Bool) (n : ℕ) :
    Good fd stream (readCalls room fd n r) := by
  induction n generalizing r with
  | zero => exact h
  | succ n ih => exact ih (h.handleRead room)

/-- A connection that has just been accepted. -/
theorem Good.start (fd : Fd) (arrivals : List Arrival) :
    Good fd (streamBytes arrivals) (Reading.start arrivals) := by
  refine ⟨⟨⟨[], [], rfl, ?_, rfl, ?_⟩, ?_, rfl⟩, ?_⟩
  · intro f hf
    exact absurd hf List.not_mem_nil
  · exact .header rfl rfl (Nat.succ_pos 4) rfl rfl
  · intro m hm
    exact absurd hm List.not_mem_nil
  · exact fun hheld => absurd hheld (not_held_of_header rfl)

end Loop

/-- The moments of calls of `handle_read` on a connection, and the state after them. -/
def callMoments (room : ℕ → Bool) (fd : Fd) (n : ℕ) (arrivals : List Arrival) : List Moment :=
  let r := readCalls room fd n (.start arrivals)
  r.moments ++ [⟨r.client, r.consumed, r.pushed⟩]

theorem exact_callMoments (room : ℕ → Bool) (fd : Fd) (n : ℕ) (arrivals : List Arrival) :
    ∀ m ∈ callMoments room fd n arrivals, Exact fd m := by
  have hgood := (Good.start fd arrivals).readCalls room n
  intro m hm
  rcases List.mem_append.mp hm with hm | hm
  · exact hgood.moments m hm
  · rw [List.mem_singleton.mp hm]
    exact hgood.synced.exact

/-- What has been pushed, when no frame is kept. -/
theorem Exact.pushed_eq {fd : Fd} {m : Moment} (h : Exact fd m) (hheld : ¬ Held m.client) :
    m.pushed = messagesOf fd (splitFrames m.consumed).1 := by
  rcases h with heq | ⟨hh, -⟩
  · exact heq
  · exact absurd hh hheld

/-- **Inbound framing is exact.**  For every socket, every number of calls of
`handle_read` and every pattern of pushes that fail: what is consumed is a part of the
stream; at every moment what has been pushed are the complete frames of what has been
consumed, but for the last one if it is kept; after a call one is kept only if the last
push failed; and at a moment of any other run, on whatever socket, that has consumed the
same bytes the same has been pushed, if neither keeps a frame. -/
theorem inbound_framing_exact (room : ℕ → Bool) (fd : Fd) (n : ℕ) (arrivals : List Arrival) :
    (readCalls room fd n (.start arrivals)).consumed
        ++ streamBytes (readCalls room fd n (.start arrivals)).arrivals = streamBytes arrivals ∧
    (∀ m ∈ callMoments room fd n arrivals, Exact fd m) ∧
    (Held (readCalls room fd n (.start arrivals)).client →
      (readCalls room fd n (.start arrivals)).lastPush = false) ∧
    ∀ (room' : ℕ → Bool) (n' : ℕ) (arrivals' : List Arrival),
      ∀ m ∈ callMoments room fd n arrivals, ∀ m' ∈ callMoments room' fd n' arrivals',
        m.consumed = m'.consumed → ¬ Held m.client → ¬ Held m'.client → m.pushed = m'.pushed := by
  have hgood := (Good.start fd arrivals).readCalls room n
  refine ⟨hgood.stream, exact_callMoments room fd n arrivals, hgood.settled, ?_⟩
  intro room' n' arrivals' m hm m' hm' hconsumed hheld hheld'
  rw [(exact_callMoments room fd n arrivals m hm).pushed_eq hheld,
    (exact_callMoments room' fd n' arrivals' m' hm').pushed_eq hheld', hconsumed]

end Exchange
