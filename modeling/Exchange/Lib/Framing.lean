import Exchange.Lib.Bytes

/-!
# Frames on a byte stream

A frame is a type byte, the length of the payload as four bytes, high byte first, and
the payload.  A stream is cut into its complete frames and an incomplete rest.

## Main definitions

* `Frame`, `Frame.bytes` — frames, and how they are written.
* `nextFrame` — the frame a stream begins with, when it is complete.
* `splitFrames` — the complete frames of a stream, and the rest.

## Main results

* `nextFrame_eq_some_iff` — a complete frame is one that was written.
* `splitFrames_append` — **frames do not depend on chunking**: the frames of a stream
  that grows are the frames it had, followed by those of its rest as it grows.
* `splitFrames_flatten`, `splitFrames_pieces` — a stream of written frames, or of pieces that
  are whole, is cut into these frames, or piece by piece.
-/

namespace Bytes

/-- The `n` low bytes of a number, high byte first. -/
def beBytes (n x : ℕ) : List UInt8 := (leBytes n x).reverse

/-- The number with the given bytes, high byte first. -/
def ofBeBytes (bs : List UInt8) : ℕ := ofLeBytes bs.reverse

@[simp] theorem length_beBytes (n x : ℕ) : (beBytes n x).length = n := by
  rw [beBytes, List.length_reverse, length_leBytes]

theorem ofBeBytes_lt (bs : List UInt8) : ofBeBytes bs < 256 ^ bs.length := by
  rw [ofBeBytes, ← List.length_reverse]
  exact ofLeBytes_lt _

theorem ofBeBytes_beBytes {n x : ℕ} (h : x < 256 ^ n) : ofBeBytes (beBytes n x) = x := by
  rw [ofBeBytes, beBytes, List.reverse_reverse, ofLeBytes_leBytes h]

theorem beBytes_ofBeBytes (bs : List UInt8) : beBytes bs.length (ofBeBytes bs) = bs := by
  rw [beBytes, ofBeBytes, ← List.length_reverse, leBytes_ofLeBytes, List.reverse_reverse]

/-- A frame. -/
structure Frame where
  type : UInt8
  payload : List UInt8
  deriving DecidableEq, Repr

/-- A frame as it is written. -/
def Frame.bytes (f : Frame) : List UInt8 := f.type :: (beBytes 4 f.payload.length ++ f.payload)

/-- The payload is short enough for the length field. -/
def Frame.Short (f : Frame) : Prop := f.payload.length < 256 ^ 4

/-- The frame a stream begins with and the stream behind it, when the frame is
complete. -/
def nextFrame : List UInt8 → Option (Frame × List UInt8)
  | [] => none
  | t :: bs =>
      if 4 + ofBeBytes (bs.take 4) ≤ bs.length then
        some (⟨t, (bs.drop 4).take (ofBeBytes (bs.take 4))⟩,
          (bs.drop 4).drop (ofBeBytes (bs.take 4)))
      else none

/-- A written frame is read back. -/
theorem nextFrame_bytes {f : Frame} (h : f.Short) (bs : List UInt8) :
    nextFrame (f.bytes ++ bs) = some (f, bs) := by
  have htake : (beBytes 4 f.payload.length ++ (f.payload ++ bs)).take 4
      = beBytes 4 f.payload.length := List.take_left' (length_beBytes 4 _)
  have hdrop : (beBytes 4 f.payload.length ++ (f.payload ++ bs)).drop 4 = f.payload ++ bs :=
    List.drop_left' (length_beBytes 4 _)
  have hlen : ofBeBytes (beBytes 4 f.payload.length) = f.payload.length := ofBeBytes_beBytes h
  rw [Frame.bytes, List.cons_append, List.append_assoc, nextFrame, htake, hdrop, hlen,
    List.take_left, List.drop_left, if_pos]
  simp only [List.length_append, length_beBytes]
  omega

/-- **A stream begins with a complete frame exactly when one was written there.** -/
theorem nextFrame_eq_some_iff {bs rest : List UInt8} {f : Frame} :
    nextFrame bs = some (f, rest) ↔ bs = f.bytes ++ rest ∧ f.Short := by
  constructor
  · intro h
    cases bs with
    | nil => exact absurd h (by simp [nextFrame])
    | cons t bs =>
      rw [nextFrame] at h
      split at h
      · next hle =>
        simp only [Option.some.injEq, Prod.mk.injEq] at h
        obtain ⟨rfl, rfl⟩ := h
        -- the length field can be written back, since it has four bytes
        have htake : (bs.take 4).length = 4 := by
          rw [List.length_take]
          omega
        have hpay : ((bs.drop 4).take (ofBeBytes (bs.take 4))).length = ofBeBytes (bs.take 4) := by
          rw [List.length_take, List.length_drop]
          omega
        have hlt := ofBeBytes_lt (bs.take 4)
        have hback := beBytes_ofBeBytes (bs.take 4)
        rw [htake] at hlt hback
        refine ⟨?_, ?_⟩
        · rw [Frame.bytes, hpay, hback, List.cons_append, List.append_assoc,
            List.take_append_drop, List.take_append_drop]
        · unfold Frame.Short
          rw [hpay]
          exact hlt
      · exact absurd h (by simp)
  · rintro ⟨rfl, hshort⟩
    exact nextFrame_bytes hshort rest

theorem length_of_nextFrame {bs rest : List UInt8} {f : Frame}
    (h : nextFrame bs = some (f, rest)) : rest.length < bs.length := by
  rw [(nextFrame_eq_some_iff.mp h).1, Frame.bytes, List.length_append, List.length_cons]
  omega

/-- A complete frame is not changed by what follows. -/
theorem nextFrame_append {bs rest : List UInt8} {f : Frame} (h : nextFrame bs = some (f, rest))
    (cs : List UInt8) : nextFrame (bs ++ cs) = some (f, rest ++ cs) := by
  obtain ⟨rfl, hshort⟩ := nextFrame_eq_some_iff.mp h
  rw [List.append_assoc]
  exact nextFrame_bytes hshort _

/-- The complete frames of a stream, and the incomplete rest. -/
def splitFrames (bs : List UInt8) : List Frame × List UInt8 :=
  match _h : nextFrame bs with
  | none => ([], bs)
  | some (f, rest) => (f :: (splitFrames rest).1, (splitFrames rest).2)
termination_by bs.length
decreasing_by
  exact length_of_nextFrame _h

theorem splitFrames_none {bs : List UInt8} (h : nextFrame bs = none) :
    splitFrames bs = ([], bs) := by
  unfold splitFrames
  split
  · rfl
  · next h' => rw [h] at h'; exact absurd h' (by simp)

theorem splitFrames_some {bs rest : List UInt8} {f : Frame} (h : nextFrame bs = some (f, rest)) :
    splitFrames bs = (f :: (splitFrames rest).1, (splitFrames rest).2) := by
  conv_lhs => unfold splitFrames
  split
  · next h' => rw [h] at h'; exact absurd h' (by simp)
  · next h' =>
    rw [h] at h'
    simp only [Option.some.injEq, Prod.mk.injEq] at h'
    obtain ⟨rfl, rfl⟩ := h'
    rfl

@[simp] theorem splitFrames_nil : splitFrames [] = ([], []) := splitFrames_none rfl

/-- A written frame comes first. -/
theorem splitFrames_bytes {f : Frame} (h : f.Short) (bs : List UInt8) :
    splitFrames (f.bytes ++ bs) = (f :: (splitFrames bs).1, (splitFrames bs).2) :=
  splitFrames_some (nextFrame_bytes h bs)

/-- **The frames of a stream that grows** are the frames it had, followed by those of its
rest as it grows. -/
theorem splitFrames_append (bs cs : List UInt8) :
    splitFrames (bs ++ cs)
      = ((splitFrames bs).1 ++ (splitFrames ((splitFrames bs).2 ++ cs)).1,
        (splitFrames ((splitFrames bs).2 ++ cs)).2) := by
  fun_induction splitFrames bs with
  | case1 bs h => rfl
  | case2 bs f rest h ih =>
    rw [splitFrames_some (nextFrame_append h cs), ih]
    rfl

/-- Pieces of whole frames are cut one by one. -/
theorem splitFrames_pieces {pieces : List (List UInt8)}
    (h : ∀ bs ∈ pieces, (splitFrames bs).2 = []) :
    splitFrames pieces.flatten = ((pieces.map fun bs => (splitFrames bs).1).flatten, []) := by
  induction pieces with
  | nil => exact splitFrames_nil
  | cons bs pieces ih =>
    rw [List.flatten_cons, splitFrames_append, h bs List.mem_cons_self, List.nil_append,
      ih fun bs' hbs' => h bs' (List.mem_cons_of_mem bs hbs')]
    rfl

/-- A stream of written frames is cut into these frames. -/
theorem splitFrames_flatten {fs : List Frame} (h : ∀ f ∈ fs, f.Short) :
    splitFrames (fs.map Frame.bytes).flatten = (fs, []) := by
  induction fs with
  | nil => exact splitFrames_nil
  | cons f fs ih =>
    rw [List.map_cons, List.flatten_cons, splitFrames_bytes (h f List.mem_cons_self),
      ih fun f' hf' => h f' (List.mem_cons_of_mem f hf')]

end Bytes
