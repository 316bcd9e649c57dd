import Exchange.ClientState

/-!
# Blocking reads

`network_utils.cpp`: the way in which a client reads messages.  The socket is blocking,
so that a `recv` waits for bytes and returns none only at the end of the stream.

## Main definitions

* `readExact`, `readMessage` — `read_exact` and `read_message`.
* `readMessages` — `read_message` is called until it returns `false`.
* `arriving` — a socket that gives chunks, or nothing for the moment, and then the end of
  the stream.

## Main results

* `readMessage_some`, `readMessage_none` — `read_message` returns the next frame of the
  stream, if there is one that is complete.
* `readMessages_eq` — the messages are the frames of the stream, however it is cut.
-/

namespace Exchange

open Bytes

/-- A message as it is read from a socket. -/
structure Message where
  type : MessageType
  payload : List UInt8
  deriving DecidableEq, Repr

/-! ### The functions -/

/-- The loop of `read_exact`, when `totalRead` bytes have been read into the buffer: the
result, the buffer and the socket. -/
def readExact (n totalRead : ℕ) (buffer : List UInt8) (arrivals : List Arrival) :
    Bool × List UInt8 × List Arrival :=
  if totalRead < n then
    match _h : recv (n - totalRead) arrivals with
    | (.data bs, arrivals) =>
        readExact n (totalRead + bs.length) (writeAt buffer totalRead bs) arrivals
    | (_, arrivals) => (false, buffer, arrivals)
  else (true, buffer, arrivals)
termination_by n - totalRead
decreasing_by
  have hpos := (recv_data _h).1
  omega

/-- `read_message`.  The payload is resized to its length before it is read. -/
def readMessage (message : Message) (arrivals : List Arrival) :
    Bool × Message × List Arrival :=
  match readExact 5 0 (List.replicate 5 0) arrivals with
  | (false, _, arrivals) => (false, message, arrivals)
  | (true, header, arrivals) =>
      let payloadLength := ntohl (UInt32.ofNat (ofLeBytes ((header.drop 1).take 4)))
      match readExact payloadLength.toNat 0 (resize message.payload payloadLength.toNat)
          arrivals with
      | (ok, payload, arrivals) => (ok, ⟨⟨header.headD 0⟩, payload⟩, arrivals)

/-- What is left of the socket. -/
theorem arrivalSize_readExact (n totalRead : ℕ) (buffer : List UInt8) (arrivals : List Arrival)
    (h : (readExact n totalRead buffer arrivals).1 = true) :
    arrivalSize (readExact n totalRead buffer arrivals).2.2 ≤ arrivalSize arrivals ∧
      (totalRead < n →
        arrivalSize (readExact n totalRead buffer arrivals).2.2 < arrivalSize arrivals) := by
  fun_induction readExact n totalRead buffer arrivals with
  | case1 totalRead buffer arrivals hlt bs arrivals' hrecv ih =>
    have hsize := (recv_data hrecv).2.2.2
    obtain ⟨hle, -⟩ := ih h
    exact ⟨by omega, fun _ => by omega⟩
  | case2 => exact absurd h (by simp)
  | case3 totalRead buffer arrivals hge => exact ⟨Nat.le_refl _, fun hlt => absurd hlt hge⟩

/-- A message that has been read has used up some of the socket. -/
theorem arrivalSize_readMessage {message message' : Message} {arrivals arrivals' : List Arrival}
    (h : readMessage message arrivals = (true, message', arrivals')) :
    arrivalSize arrivals' < arrivalSize arrivals := by
  unfold readMessage at h
  cases hheader : readExact 5 0 (List.replicate 5 0) arrivals with
  | mk ok x =>
    obtain ⟨header, arrivals₁⟩ := x
    rw [hheader] at h
    cases ok with
    | false => exact absurd h (by simp)
    | true =>
      have hlt := (arrivalSize_readExact 5 0 (List.replicate 5 0) arrivals (by rw [hheader])).2
        (by omega)
      rw [hheader] at hlt
      -- the payload takes no bytes back
      simp only [Prod.mk.injEq] at h
      have hle := (arrivalSize_readExact _ 0 _ arrivals₁ h.1).1
      rw [h.2.2] at hle
      exact Nat.lt_of_le_of_lt hle hlt

/-- `read_message` is called until it returns `false`. -/
def readMessages (message : Message) (arrivals : List Arrival) : List Message :=
  match _h : readMessage message arrivals with
  | (true, message, arrivals) => message :: readMessages message arrivals
  | (false, _, _) => []
termination_by arrivalSize arrivals
decreasing_by exact arrivalSize_readMessage _h

/-! ### Streams that end -/

/-- A socket that gives chunks, or nothing for the moment, and then the end of the
stream. -/
def arriving (items : List (Option (UInt8 × List UInt8))) : List Arrival :=
  items.map (fun item =>
    match item with
    | some (b, bs) => .chunk b bs
    | none => .again) ++ [.closed]

/-- What `recv` leaves of a socket that ends: its end has been reached, or it goes on.  It
has nothing for the moment only if it is said to. -/
theorem recv_arriving {n : ℕ} (hn : 0 < n) {items : List (Option (UInt8 × List UInt8))}
    {res : Received} {arrivals : List Arrival} (h : recv n (arriving items) = (res, arrivals)) :
    (res = .closed ∧ arrivals = [] ∧ streamBytes (arriving items) = []) ∨
      (((∃ bs, res = .data bs) ∨ res = .again ∧ none ∈ items) ∧
        ∃ items', arrivals = arriving items' ∧ (none ∈ items' → none ∈ items)) := by
  cases items with
  | nil =>
    rw [arriving, List.map_nil, List.nil_append, recv, Prod.mk.injEq] at h
    exact Or.inl ⟨h.1.symm, h.2.symm, rfl⟩
  | cons item items =>
    right
    cases item with
    | none =>
      rw [show arriving (none :: items) = .again :: arriving items from rfl, recv,
        Prod.mk.injEq] at h
      exact ⟨Or.inr ⟨h.1.symm, List.mem_cons_self⟩, items, h.2.symm, fun _ => List.mem_cons_self⟩
    | some c =>
      obtain ⟨b, cs⟩ := c
      obtain ⟨n, rfl⟩ := Nat.exists_eq_succ_of_ne_zero (Nat.ne_of_gt hn)
      rw [show arriving (some (b, cs) :: items) = .chunk b cs :: arriving items from rfl,
        recv] at h
      -- the chunk is used up, or its rest stays
      split at h
      · rw [Prod.mk.injEq] at h
        exact ⟨Or.inl ⟨_, h.1.symm⟩, items, h.2.symm, List.mem_cons_of_mem _⟩
      · next c cs' _ =>
        rw [Prod.mk.injEq] at h
        refine ⟨Or.inl ⟨_, h.1.symm⟩, some (c, cs') :: items, h.2.symm, fun hmem => ?_⟩
        rcases List.mem_cons.mp hmem with hx | hx
        · exact absurd hx (by simp)
        · exact List.mem_cons_of_mem _ hx

/-! ### What is read from them -/

/-- `read_exact` on a stream that has the bytes. -/
theorem readExact_of_le (n totalRead : ℕ) (buffer : List UInt8)
    {items : List (Option (UInt8 × List UInt8))} (hblock : none ∉ items)
    (hbuffer : buffer.length = n) (htotal : totalRead ≤ n)
    (hle : n - totalRead ≤ (streamBytes (arriving items)).length) :
    ∃ items', none ∉ items' ∧
      readExact n totalRead buffer (arriving items)
        = (true, buffer.take totalRead ++ (streamBytes (arriving items)).take (n - totalRead),
          arriving items') ∧
      streamBytes (arriving items') = (streamBytes (arriving items)).drop (n - totalRead) := by
  generalize harr : arriving items = arrivals at hle ⊢
  fun_induction readExact n totalRead buffer arrivals generalizing items with
  | case1 totalRead buffer arrivals hlt bs arrivals' hrecv ih =>
    subst harr
    obtain ⟨-, hbs, hstream, -⟩ := recv_data hrecv
    rcases recv_arriving (by omega) hrecv with ⟨hclosed, -⟩ | ⟨-, items₁, rfl, hnone⟩
    · exact absurd hclosed (by simp)
    · rw [hstream, List.length_append] at hle
      have hlen : (writeAt buffer totalRead bs).length = n :=
        (length_writeAt (by omega)).trans hbuffer
      obtain ⟨items', hblock', heq, hrest⟩ := ih (fun hmem => hblock (hnone hmem)) hlen
        (by omega) rfl (by omega)
      refine ⟨items', hblock', ?_, ?_⟩
      · rw [heq, take_writeAt (by omega), hstream, List.take_append, List.take_of_length_le hbs,
          List.append_assoc, Nat.sub_sub]
      · rw [hrest, hstream, List.drop_append, List.drop_eq_nil_of_le hbs, List.nil_append,
          Nat.sub_sub]
  | case2 totalRead buffer arrivals hlt res arrivals' hres hrecv =>
    -- neither is there nothing for the moment, nor has the end been reached
    subst harr
    rcases recv_arriving (by omega) hrecv with ⟨-, -, hnil⟩ | ⟨⟨bs, hdata⟩ | ⟨-, hmem⟩, -⟩
    · rw [hnil, List.length_nil] at hle
      omega
    · exact absurd hdata (hres bs)
    · exact absurd hmem hblock
  | case3 totalRead buffer arrivals hge =>
    obtain rfl : totalRead = n := by omega
    refine ⟨items, hblock, ?_, ?_⟩
    · rw [Nat.sub_self, List.take_zero, List.append_nil, ← hbuffer, List.take_length, harr]
    · rw [Nat.sub_self, List.drop_zero, harr]

/-- `read_exact` on a stream that ends before. -/
theorem readExact_of_lt (n totalRead : ℕ) (buffer : List UInt8)
    {items : List (Option (UInt8 × List UInt8))} (hblock : none ∉ items)
    (hlt : (streamBytes (arriving items)).length < n - totalRead) :
    (readExact n totalRead buffer (arriving items)).1 = false := by
  generalize harr : arriving items = arrivals at hlt ⊢
  fun_induction readExact n totalRead buffer arrivals generalizing items with
  | case1 totalRead buffer arrivals hlt' bs arrivals' hrecv ih =>
    subst harr
    obtain ⟨-, -, hstream, -⟩ := recv_data hrecv
    rcases recv_arriving (by omega) hrecv with ⟨hclosed, -⟩ | ⟨-, items₁, rfl, hnone⟩
    · exact absurd hclosed (by simp)
    · rw [hstream, List.length_append] at hlt
      exact ih (fun hmem => hblock (hnone hmem)) rfl (by omega)
  | case2 => rfl
  | case3 totalRead buffer arrivals hge => omega

/-- `read_message` returns the next frame of the stream, if it is complete. -/
theorem readMessage_some (message : Message) {items : List (Option (UInt8 × List UInt8))}
    (hblock : none ∉ items) {f : Frame} {rest : List UInt8}
    (hnext : nextFrame (streamBytes (arriving items)) = some (f, rest)) :
    ∃ items', none ∉ items' ∧ streamBytes (arriving items') = rest ∧
      readMessage message (arriving items) = (true, ⟨⟨f.type⟩, f.payload⟩, arriving items') := by
  obtain ⟨hbytes, hshort⟩ := nextFrame_eq_some_iff.mp hnext
  have hheader : (f.type :: beBytes 4 f.payload.length).length = 5 := by
    rw [List.length_cons, length_beBytes]
  have hsplit : streamBytes (arriving items)
      = (f.type :: beBytes 4 f.payload.length) ++ (f.payload ++ rest) := by
    rw [hbytes, Frame.bytes]
    simp
  -- the header
  obtain ⟨items₁, hblock₁, hread₁, hrest₁⟩ := readExact_of_le 5 0
    (List.replicate 5 0) hblock List.length_replicate (Nat.zero_le _) (by
      rw [hsplit, List.length_append]
      omega)
  rw [Nat.sub_zero, hsplit, List.take_left' hheader, List.take_zero, List.nil_append] at hread₁
  rw [Nat.sub_zero, hsplit, List.drop_left' hheader] at hrest₁
  have hlen : (ntohl (UInt32.ofNat (ofLeBytes
      (((f.type :: beBytes 4 f.payload.length).drop 1).take 4)))).toNat = f.payload.length := by
    have hfield : ((f.type :: beBytes 4 f.payload.length).drop 1).take 4
        = beBytes 4 f.payload.length := by
      rw [List.drop_one, List.tail_cons]
      exact List.take_of_length_le (Nat.le_of_eq (length_beBytes 4 _))
    rw [hfield, toNat_ntohl (length_beBytes 4 _), ofBeBytes_beBytes hshort]
  -- the payload
  obtain ⟨items₂, hblock₂, hread₂, hrest₂⟩ := readExact_of_le f.payload.length 0
    (resize message.payload f.payload.length) hblock₁
    (by rw [resize, List.length_append, List.length_take, List.length_replicate]; omega)
    (Nat.zero_le _) (by rw [hrest₁, List.length_append]; omega)
  rw [Nat.sub_zero, hrest₁, List.take_left, List.take_zero, List.nil_append] at hread₂
  rw [Nat.sub_zero, hrest₁, List.drop_left] at hrest₂
  refine ⟨items₂, hblock₂, hrest₂, ?_⟩
  rw [readMessage, hread₁]
  simp only [hlen, hread₂]
  rfl

/-- `read_message` returns `false` if no complete frame is left. -/
theorem readMessage_none (message : Message) {items : List (Option (UInt8 × List UInt8))}
    (hblock : none ∉ items) (hnext : nextFrame (streamBytes (arriving items)) = none) :
    (readMessage message (arriving items)).1 = false := by
  rcases Nat.lt_or_ge (streamBytes (arriving items)).length 5 with hlt | hge
  · -- the stream ends in the header
    have hfail := readExact_of_lt 5 0 (List.replicate 5 0) hblock (by omega)
    rw [readMessage]
    cases hread : readExact 5 0 (List.replicate 5 0) (arriving items) with
    | mk ok x =>
      rw [hread] at hfail
      rw [show ok = false from hfail]
  · obtain ⟨items₁, hblock₁, hread₁, hrest₁⟩ := readExact_of_le 5 0
      (List.replicate 5 0) hblock List.length_replicate (Nat.zero_le _) (by omega)
    rw [Nat.sub_zero, List.take_zero, List.nil_append] at hread₁
    cases hstream : streamBytes (arriving items) with
    | nil =>
      rw [hstream] at hge
      exact absurd hge (by simp)
    | cons t bs =>
      rw [hstream, List.length_cons] at hge
      rw [hstream] at hread₁ hrest₁ hnext
      have htake : (bs.take 4).length = 4 := by
        rw [List.length_take]
        omega
      have hlen : (ntohl (UInt32.ofNat (ofLeBytes ((((t :: bs).take 5).drop 1).take 4)))).toNat
          = ofBeBytes (bs.take 4) := by
        have hfield : (((t :: bs).take 5).drop 1).take 4 = bs.take 4 := by
          rw [List.take_succ_cons, List.drop_one, List.tail_cons, List.take_take, Nat.min_self]
        rw [hfield, toNat_ntohl htake]
      -- the stream ends in the payload
      have hshort : ¬ 4 + ofBeBytes (bs.take 4) ≤ bs.length := by
        intro hle
        rw [nextFrame, if_pos hle] at hnext
        exact absurd hnext (by simp)
      have hrest : (streamBytes (arriving items₁)).length = bs.length - 4 := by
        rw [hrest₁, Nat.sub_zero, List.length_drop, List.length_cons]
        omega
      have hfail := readExact_of_lt (ofBeBytes (bs.take 4)) 0
        (resize message.payload (ofBeBytes (bs.take 4))) hblock₁ (by omega)
      rw [readMessage, hread₁]
      simp only [hlen]
      exact hfail

/-- **The messages are the frames of the stream**, however it is cut. -/
theorem readMessages_eq (message : Message) {items : List (Option (UInt8 × List UInt8))}
    (hblock : none ∉ items) :
    readMessages message (arriving items)
      = (splitFrames (streamBytes (arriving items))).1.map fun f => ⟨⟨f.type⟩, f.payload⟩ := by
  generalize hbytes : streamBytes (arriving items) = bs
  fun_induction splitFrames bs generalizing items message with
  | case1 bs hnext =>
    rw [← hbytes] at hnext
    have hfalse := readMessage_none message hblock hnext
    unfold readMessages
    split
    · next h =>
      rw [h] at hfalse
      exact absurd hfalse (by simp)
    · rfl
  | case2 bs f rest hnext ih =>
    rw [← hbytes] at hnext
    obtain ⟨items', hblock', hrest, hread⟩ := readMessage_some message hblock hnext
    unfold readMessages
    split
    · next message' arrivals' h =>
      rw [hread, Prod.mk.injEq, Prod.mk.injEq] at h
      obtain ⟨-, rfl, rfl⟩ := h
      rw [ih _ hblock' hrest]
      rfl
    · next h =>
      rw [hread] at h
      exact absurd h (by simp)

end Exchange
