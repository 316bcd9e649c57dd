import Mathlib.Algebra.Ring.Nat
import Mathlib.Data.List.Basic
import Mathlib.Data.Nat.Notation

/-!
# Bytes

Numbers as byte strings, and byte buffers that are written and read at an offset.

## Main definitions

* `leBytes n x`, `ofLeBytes` — the `n` low bytes of a number, low byte first, and back.
* `writeAt`, `writeFrom` — copy bytes into a buffer, once or several times in a row.
* `readAt` — copy bytes out of a buffer, when they lie inside it.

## Main results

* `ofLeBytes_leBytes`, `leBytes_ofLeBytes` — the two directions of the encoding.
* `writeFrom_resize` — writing a list of fields, one after another, into the space that
  a buffer has just been extended by appends them.
-/

namespace Bytes

/-! ### Numbers -/

/-- The `n` low bytes of a number, low byte first. -/
def leBytes : ℕ → ℕ → List UInt8
  | 0, _ => []
  | n + 1, x => UInt8.ofNat x :: leBytes n (x / 256)

/-- The number with the given bytes, low byte first. -/
def ofLeBytes : List UInt8 → ℕ
  | [] => 0
  | b :: bs => b.toNat + 256 * ofLeBytes bs

@[simp] theorem length_leBytes (n x : ℕ) : (leBytes n x).length = n := by
  induction n generalizing x with
  | zero => rfl
  | succ n ih => rw [leBytes, List.length_cons, ih]

theorem ofLeBytes_lt (bs : List UInt8) : ofLeBytes bs < 256 ^ bs.length := by
  induction bs with
  | nil => exact Nat.zero_lt_one
  | cons b bs ih =>
    have hb : b.toNat < 256 := b.toNat_lt
    rw [ofLeBytes, List.length_cons, Nat.pow_succ]
    omega

theorem ofLeBytes_leBytes {n x : ℕ} (h : x < 256 ^ n) : ofLeBytes (leBytes n x) = x := by
  induction n generalizing x with
  | zero => rw [Nat.pow_zero] at h; rw [leBytes, ofLeBytes]; omega
  | succ n ih =>
    have hlow : (UInt8.ofNat x).toNat = x % 256 := UInt8.toNat_ofNat'
    have hhigh : x / 256 < 256 ^ n := by
      rw [Nat.pow_succ] at h
      omega
    rw [leBytes, ofLeBytes, ih hhigh, hlow]
    omega

theorem leBytes_ofLeBytes (bs : List UInt8) : leBytes bs.length (ofLeBytes bs) = bs := by
  induction bs with
  | nil => rfl
  | cons b bs ih =>
    have hb : b.toNat < 256 := b.toNat_lt
    have hdiv : (b.toNat + 256 * ofLeBytes bs) / 256 = ofLeBytes bs := by omega
    have hmod : UInt8.ofNat (b.toNat + 256 * ofLeBytes bs) = b := by
      apply UInt8.toNat_inj.mp
      rw [UInt8.toNat_ofNat']
      show (b.toNat + 256 * ofLeBytes bs) % 256 = b.toNat
      omega
    rw [List.length_cons, ofLeBytes, leBytes, hdiv, hmod, ih]

/-! ### Buffers -/

/-- Two fields in a row stand at the front of a buffer. -/
theorem append_prefix_iff {xs ys buf : List UInt8} :
    xs ++ ys <+: buf ↔ xs <+: buf ∧ ys <+: buf.drop xs.length := by
  constructor
  · rintro ⟨zs, rfl⟩
    rw [List.append_assoc, List.drop_left]
    exact ⟨List.prefix_append _ _, List.prefix_append _ _⟩
  · rintro ⟨⟨zs, rfl⟩, hys⟩
    rw [List.drop_left] at hys
    exact (List.prefix_append_right_inj xs).mpr hys

/-- `resize`, for a buffer that grows: the new bytes are zero. -/
def resize (buf : List UInt8) (n : ℕ) : List UInt8 :=
  buf.take n ++ List.replicate (n - buf.length) 0

@[simp] theorem length_resize (buf : List UInt8) (n : ℕ) : (resize buf n).length = n := by
  rw [resize, List.length_append, List.length_take, List.length_replicate]
  omega

/-- Copy `bs` over the bytes of a buffer from an offset on. -/
def writeAt (buf : List UInt8) (offset : ℕ) (bs : List UInt8) : List UInt8 :=
  buf.take offset ++ bs ++ buf.drop (offset + bs.length)

/-- Copy fields into a buffer one after another, moving the offset behind each. -/
def writeFrom (buf : List UInt8) (offset : ℕ) : List (List UInt8) → List UInt8
  | [] => buf
  | bs :: fields => writeFrom (writeAt buf offset bs) (offset + bs.length) fields

/-- Copy `n` bytes out of a buffer from an offset on, if they lie inside it. -/
def readAt (buf : List UInt8) (offset n : ℕ) : Option (List UInt8) :=
  if offset + n ≤ buf.length then some ((buf.drop offset).take n) else none

theorem length_writeAt {buf bs : List UInt8} {offset : ℕ} (h : offset + bs.length ≤ buf.length) :
    (writeAt buf offset bs).length = buf.length := by
  simp only [writeAt, List.length_append, List.length_take, List.length_drop]
  omega

/-- Up to the end of what was written, a buffer holds what it held and what was
written. -/
theorem take_writeAt {buf bs : List UInt8} {offset : ℕ} (h : offset ≤ buf.length) :
    (writeAt buf offset bs).take (offset + bs.length) = buf.take offset ++ bs := by
  have hlen : (buf.take offset ++ bs).length = offset + bs.length := by
    rw [List.length_append, List.length_take]
    omega
  rw [writeAt, ← hlen, List.take_left]

/-- Writing fields over the space behind a buffer. -/
theorem writeFrom_append (fields : List (List UInt8)) :
    ∀ (buf space : List UInt8), space.length = fields.flatten.length →
      writeFrom (buf ++ space) buf.length fields = buf ++ fields.flatten := by
  induction fields with
  | nil =>
    intro buf space h
    rw [List.flatten_nil, List.length_nil] at h
    rw [List.length_eq_zero_iff.mp h]
    rfl
  | cons bs fields ih =>
    intro buf space h
    rw [List.flatten_cons, List.length_append] at h
    -- the first field takes its own length off the space
    have hwrite : writeAt (buf ++ space) buf.length bs = (buf ++ bs) ++ space.drop bs.length := by
      rw [writeAt, List.take_left, List.drop_append, List.drop_eq_nil_of_le (by omega),
        List.nil_append]
      congr 2
      omega
    have hlen : (space.drop bs.length).length = fields.flatten.length := by
      rw [List.length_drop]
      omega
    rw [writeFrom, hwrite, ← List.length_append, ih (buf ++ bs) (space.drop bs.length) hlen,
      List.flatten_cons, List.append_assoc]

/-- **Writing fields into the space a buffer has been extended by appends them.** -/
theorem writeFrom_resize (buf : List UInt8) (fields : List (List UInt8)) {n : ℕ}
    (h : n = fields.flatten.length) :
    writeFrom (resize buf (buf.length + n)) buf.length fields = buf ++ fields.flatten := by
  have hresize : resize buf (buf.length + n) = buf ++ List.replicate n 0 := by
    rw [resize, List.take_of_length_le (by omega), Nat.add_sub_cancel_left]
  rw [hresize]
  apply writeFrom_append
  rw [List.length_replicate, h]

/-- **A read succeeds exactly on the bytes that stand at its offset.** -/
theorem readAt_eq_some_iff {buf bs : List UInt8} {offset n : ℕ} (h : offset ≤ buf.length) :
    readAt buf offset n = some bs ↔ bs.length = n ∧ bs <+: buf.drop offset := by
  unfold readAt
  constructor
  · intro hread
    split at hread
    · next hle =>
      obtain rfl := Option.some.inj hread
      refine ⟨?_, List.take_prefix _ _⟩
      rw [List.length_take, List.length_drop]
      omega
    · exact absurd hread (by simp)
  · rintro ⟨rfl, hpre⟩
    have hle := hpre.length_le
    rw [List.length_drop] at hle
    rw [if_pos (by omega), ← List.prefix_iff_eq_take.mp hpre]

theorem readAt_of_le {buf : List UInt8} {offset n : ℕ} (h : offset + n ≤ buf.length) :
    readAt buf offset n = some ((buf.drop offset).take n) := if_pos h

end Bytes
