import Exchange.NetworkUtils
import Exchange.Server.Inbound

/-!
# The two decoders agree

A client reads messages with a blocking loop, and the server with a state machine that
is resumed at every call.  On one stream, cut in any two ways, they find the same
messages, but that the server drops those without a payload.

## Main definitions

* `Ending` — the socket of an open connection ends, and that of a closed one has ended.

## Main results

* `inactive_readCalls` — after enough calls the end of the stream has been reached.
* `decoders_agree` — both decoders find the frames of the stream.
-/

namespace Exchange

open Bytes

/-- The socket of an open connection will end, and that of a closed one has. -/
def Ending (r : Reading) : Prop :=
  (r.client.active = true → ∃ items, r.arrivals = arriving items) ∧
    (r.client.active = false → r.arrivals = [])

/-- The state between steps when every push finds room. -/
structure Flowing (fd : Fd) (stream : List UInt8) (r : Reading) : Prop extends
    Good fd stream r where
  ending : Ending r
  pushing : r.lastPush = true

variable {fd : Fd} {stream : List UInt8} {r r' : Reading}

theorem Flowing.not_held (h : Flowing fd stream r) : ¬ Held r.client := by
  intro hheld
  have hfalse := h.settled hheld
  rw [h.pushing] at hfalse
  exact absurd hfalse (by simp)

/-- The loop never asks for no bytes. -/
theorem Good.wants_pos (h : Good fd stream r) (hactive : r.client.active = true)
    {call : RecvCall} (hw : Wants r.client call) : 0 < call.length := by
  apply hw.pos
  intro hphase
  obtain ⟨frames, bs, -, -, -, hpend⟩ := h.synced
  cases hpend with
  | closed hinactive => rw [hactive] at hinactive; exact absurd hinactive (by simp)
  | header _ _ hread => exact hread
  | payload _ hp => rw [hphase] at hp; exact absurd hp (by decide)

/-- A `recv` uses some of the socket up. -/
theorem arrivalSize_recv {n : ℕ} (hn : 0 < n) {arrivals : List Arrival} (hne : arrivals ≠ []) :
    arrivalSize (recv n arrivals).2 < arrivalSize arrivals := by
  cases hrecv : recv n arrivals with
  | mk res arrivals' =>
    cases arrivals with
    | nil => exact absurd rfl hne
    | cons a arrivals =>
      cases a with
      | again => rw [recv, Prod.mk.injEq] at hrecv; rw [← hrecv.2]; exact Nat.lt_succ_self _
      | closed => rw [recv, Prod.mk.injEq] at hrecv; rw [← hrecv.2]; exact Nat.lt_succ_self _
      | failed => rw [recv, Prod.mk.injEq] at hrecv; rw [← hrecv.2]; exact Nat.lt_succ_self _
      | chunk b bs =>
        cases res with
        | data cs => exact (recv_data hrecv).2.2.2
        | again =>
          obtain ⟨n, rfl⟩ := Nat.exists_eq_succ_of_ne_zero (Nat.ne_of_gt hn)
          rw [recv] at hrecv
          split at hrecv <;> exact absurd hrecv (by simp)
        | closed =>
          obtain ⟨n, rfl⟩ := Nat.exists_eq_succ_of_ne_zero (Nat.ne_of_gt hn)
          rw [recv] at hrecv
          split at hrecv <;> exact absurd hrecv (by simp)
        | failed =>
          obtain ⟨n, rfl⟩ := Nat.exists_eq_succ_of_ne_zero (Nat.ne_of_gt hn)
          rw [recv] at hrecv
          split at hrecv <;> exact absurd hrecv (by simp)

namespace Flowing

/-- A `recv` of the loop: the end is reached and no bytes are left, or the socket goes
on. -/
theorem recv_cases (h : Flowing fd stream r) (hactive : r.client.active = true)
    {call : RecvCall} (hw : Wants r.client call) {res : Received} {arrivals : List Arrival}
    (hrecv : recv call.length r.arrivals = (res, arrivals)) :
    arrivalSize arrivals < arrivalSize r.arrivals ∧
      (res = .closed ∧ arrivals = [] ∨
        ((∃ bs, res = .data bs) ∨ res = .again) ∧ ∃ items, arrivals = arriving items) := by
  have hpos := h.wants_pos hactive hw
  obtain ⟨items, hitems⟩ := h.ending.1 hactive
  have hne : r.arrivals ≠ [] := by
    rw [hitems, arriving]
    exact List.append_ne_nil_of_right_ne_nil _ (by simp)
  have hlt := arrivalSize_recv hpos hne
  rw [hrecv] at hlt
  rw [hitems] at hrecv
  refine ⟨hlt, ?_⟩
  rcases recv_arriving hpos hrecv with ⟨hclosed, hnil, -⟩ | ⟨hres, items', hitems', -⟩
  · exact Or.inl ⟨hclosed, hnil⟩
  · exact Or.inr ⟨hres.imp id And.left, items', hitems'⟩

/-- Bytes are received: the socket goes on. -/
theorem recv_data (h : Flowing fd stream r) (hactive : r.client.active = true)
    {call : RecvCall} (hw : Wants r.client call) {bs : List UInt8} {arrivals : List Arrival}
    (hrecv : recv call.length r.arrivals = (.data bs, arrivals)) :
    arrivalSize arrivals < arrivalSize r.arrivals ∧ ∃ items, arrivals = arriving items := by
  obtain ⟨hlt, ⟨hclosed, -⟩ | ⟨-, hitems⟩⟩ := h.recv_cases hactive hw hrecv
  · exact absurd hclosed (by simp)
  · exact ⟨hlt, hitems⟩

/-- A step that leaves the connection open. -/
theorem of_open (hgood : Good fd stream r') (hactive : r'.client.active = true)
    (hitems : ∃ items, r'.arrivals = arriving items) (hpushing : r'.lastPush = true) :
    Flowing fd stream r' := by
  refine ⟨hgood, ⟨fun _ => hitems, fun hinactive => ?_⟩, hpushing⟩
  rw [hactive] at hinactive
  exact absurd hinactive (by simp)

/-- **A step of the loop** keeps the invariant, and uses some of the socket up. -/
theorem readStep (h : Flowing fd stream r) (hs : ReadStep (fun _ => true) fd r r') :
    Flowing fd stream r' ∧ arrivalSize r'.arrivals < arrivalSize r.arrivals := by
  have hgood := h.toGood.readStep hs
  cases hs with
  | header hactive hphase hrecv hlt =>
    obtain ⟨hsize, hitems⟩ := h.recv_data hactive (.header hphase) hrecv
    exact ⟨of_open hgood hactive hitems h.pushing, hsize⟩
  | decode hactive hphase hrecv hge =>
    obtain ⟨hsize, hitems⟩ := h.recv_data hactive (.header hphase) hrecv
    exact ⟨of_open hgood ((decodeHeader_active _).trans hactive) hitems h.pushing, hsize⟩
  | payload hactive hphase hrecv hlt =>
    obtain ⟨hsize, hitems⟩ := h.recv_data hactive (.payload hphase (by omega)) hrecv
    exact ⟨of_open hgood hactive hitems h.pushing, hsize⟩
  | again hactive hwants hrecv =>
    obtain ⟨hsize, ⟨hclosed, -⟩ | ⟨-, hitems⟩⟩ := h.recv_cases hactive hwants hrecv
    · exact absurd hclosed (by simp)
    · exact ⟨of_open hgood hactive hitems h.pushing, hsize⟩
  | disconnect hactive hwants hrecv hres =>
    obtain ⟨hsize, ⟨-, hnil⟩ | ⟨hdata, -⟩⟩ := h.recv_cases hactive hwants hrecv
    · exact ⟨⟨hgood, ⟨fun hopen => absurd hopen Bool.false_ne_true, fun _ => hnil⟩, h.pushing⟩,
        hsize⟩
    · -- only the end of the stream closes the connection
      rcases hres with rfl | rfl <;> rcases hdata with ⟨bs, hdata⟩ | hdata <;>
        exact absurd hdata (by simp)
  | push hactive hphase hc hroom =>
    cases hc with
    | before hfull =>
      have hle := h.bytesRead_le hphase
      exact absurd ⟨hphase, Nat.le_antisymm hle (Nat.not_lt.mp hfull)⟩ h.not_held
    | now hlt hrecv hfull =>
      obtain ⟨hsize, hitems⟩ := h.recv_data hactive (.payload hphase hlt) hrecv
      exact ⟨of_open hgood hactive hitems rfl, hsize⟩
  | keep hactive hphase hc hroom => exact absurd hroom (by simp)

/-- With the record of its `recv`, too. -/
theorem loopStep (h : Flowing fd stream r) (hs : LoopStep (fun _ => true) fd r r') :
    Flowing fd stream r' ∧ arrivalSize r'.arrivals < arrivalSize r.arrivals := by
  cases hs with
  | @receive call _ _ hs =>
    have hcalling : Flowing fd stream (r.calling call) := ⟨h.calling call, h.ending, h.pushing⟩
    exact hcalling.readStep hs
  | kept hs => exact h.readStep hs

/-- A call uses some of the socket of an open connection up. -/
theorem handleRead (h : Flowing fd stream r) :
    Flowing fd stream (handleRead (fun _ => true) fd r) ∧
      (r.client.active = true → arrivalSize (Exchange.handleRead (fun _ => true) fd r).arrivals
        < arrivalSize r.arrivals) := by
  unfold Exchange.handleRead
  split
  · next hactive =>
    have hsteps := readLoop_steps (fun _ => true) fd hactive
    generalize readLoop (fun _ => true) fd r = r' at hsteps ⊢
    -- every step does
    have hboth : Flowing fd stream r' ∧ arrivalSize r'.arrivals < arrivalSize r.arrivals := by
      induction hsteps with
      | single hs => exact h.loopStep hs
      | tail _ hs ih =>
        obtain ⟨hflow, hlt⟩ := ih.1.loopStep hs
        exact ⟨hflow, Nat.lt_trans hlt ih.2⟩
    exact ⟨hboth.1, fun _ => hboth.2⟩
  · next hinactive => exact ⟨h, fun hactive => absurd hactive hinactive⟩

/-- **After enough calls** the end of the stream has been reached. -/
theorem readCalls (n : ℕ) : ∀ {r : Reading}, Flowing fd stream r → arrivalSize r.arrivals ≤ n →
    Flowing fd stream (readCalls (fun _ => true) fd n r) ∧
      (Exchange.readCalls (fun _ => true) fd n r).client.active = false := by
  induction n with
  | zero =>
    intro r h hsize
    refine ⟨h, Bool.eq_false_iff.mpr fun hactive => ?_⟩
    have hlt := h.handleRead.2 hactive
    omega
  | succ n ih =>
    intro r h hsize
    obtain ⟨hflow, hlt⟩ := h.handleRead
    apply ih hflow
    cases hactive : r.client.active with
    | true =>
      have hless := hlt hactive
      omega
    | false =>
      -- a closed connection is left alone, and its socket has ended
      rw [handleRead_of_closed hactive, h.ending.2 hactive]
      exact Nat.zero_le n

theorem start (fd : Fd) (items : List (Option (UInt8 × List UInt8))) :
    Flowing fd (streamBytes (arriving items)) (.start (arriving items)) :=
  of_open (.start fd _) rfl ⟨items, rfl⟩ rfl

/-- What has been pushed when the end of the stream has been reached. -/
theorem pushed_eq (h : Flowing fd stream r) (hinactive : r.client.active = false) :
    r.pushed = messagesOf fd (splitFrames stream).1 := by
  have hconsumed := h.stream
  rw [h.ending.2 hinactive, streamBytes, List.append_nil] at hconsumed
  rw [← hconsumed]
  exact h.synced.exact.pushed_eq h.not_held

end Flowing

/-- **The two decoders agree.**  A stream is cut in any two ways: into chunks for blocking
reads, and into chunks and moments without bytes for reads that do not block.  When every
push finds room, then after enough calls `handle_read` has closed the connection at the
end of the stream, and has pushed the messages with a payload that `read_message` returns
until it first returns `false`.  Both are the complete frames of the stream. -/
theorem decoders_agree (fd : Fd) (message : Message) (chunks : List (UInt8 × List UInt8))
    (items : List (Option (UInt8 × List UInt8)))
    (hsame : streamBytes (arriving items) = streamBytes (arriving (chunks.map some))) (n : ℕ)
    (hn : arrivalSize (arriving items) ≤ n) :
    (readCalls (fun _ => true) fd n (.start (arriving items))).client.active = false ∧
    (readCalls (fun _ => true) fd n (.start (arriving items))).pushed
      = ((readMessages message (arriving (chunks.map some))).filter
          fun m => m.payload ≠ []).map (fun m => ⟨fd, m.type, m.payload⟩) ∧
    readMessages message (arriving (chunks.map some))
      = (splitFrames (streamBytes (arriving items))).1.map fun f => ⟨⟨f.type⟩, f.payload⟩ := by
  obtain ⟨hflow, hinactive⟩ := (Flowing.start fd items).readCalls n hn
  have hblock : none ∉ chunks.map some := by simp
  have hread := readMessages_eq message hblock
  rw [← hsame] at hread
  refine ⟨hinactive, ?_, hread⟩
  rw [hflow.pushed_eq hinactive, hread, messagesOf, List.filter_map, List.map_map]
  rfl

/-- A keep-alive, a message of one byte and a frame that is cut off, in two chunks and in
three with a pause. -/
theorem decoders_agree_cut_off :
    (readCalls (fun _ => true) 5 17 (.start (arriving [some (1, [0, 0, 0]), none,
      some (0, [2, 0, 0, 0, 1, 7]), some (1, [0, 0])]))).pushed = [⟨5, .CANCEL_ORDER, [7]⟩] ∧
    (readMessages ⟨.TRADE, []⟩ (arriving ([(1, [0, 0, 0, 0, 2]),
      (0, [0, 0, 1, 7, 1, 0, 0])].map some))).length = 2 := by
  obtain ⟨-, hpushed, hread⟩ := decoders_agree 5 ⟨.TRADE, []⟩
    [(1, [0, 0, 0, 0, 2]), (0, [0, 0, 1, 7, 1, 0, 0])]
    [some (1, [0, 0, 0]), none, some (0, [2, 0, 0, 0, 1, 7]), some (1, [0, 0])] rfl 17
    (by decide)
  have hframes : (splitFrames (streamBytes (arriving [some (1, [0, 0, 0]), none,
      some (0, [2, 0, 0, 0, 1, 7]), some (1, [0, 0])]))).1 = [⟨1, []⟩, ⟨2, [7]⟩] := by
    decide +kernel
  rw [hpushed, hread, hframes]
  exact ⟨rfl, rfl⟩

end Exchange
