import Mathlib.Algebra.Ring.Nat
import Mathlib.Data.Nat.Notation

/-!
# Counters that wrap

A machine counter of `w` bits that has been incremented `n` times holds `n` modulo
`2 ^ w`.  Two counters that are never further apart than the width allows can be compared
as if they did not wrap, and a power of two below the width cuts their values into slots.

## Main results

* `ofNat_sub_ofNat_of_le` — the wrapping difference of two counters is their distance.
* `ofNat_inj_of_lt` — counters that are less than a full turn apart are equal only if
  they have been incremented equally often.
* `toNat_mask_ofNat` — masking with `2 ^ k - 1` gives the slot `n % 2 ^ k`.
* `mod_ne_of_lt` — less than a full turn of slots apart, slots are different.
-/

namespace Counter

variable {w m n : ℕ}

/-- The wrapping difference of two counters is their distance. -/
theorem ofNat_sub_ofNat_of_le (h : m ≤ n) :
    BitVec.ofNat w n - BitVec.ofNat w m = BitVec.ofNat w (n - m) := by
  have hadd : BitVec.ofNat w n = BitVec.ofNat w (n - m) + BitVec.ofNat w m := by
    rw [← BitVec.ofNat_add, Nat.sub_add_cancel h]
  rw [hadd, BitVec.add_sub_cancel]

/-- The difference is a given number exactly when the distance is. -/
theorem ofNat_sub_eq_iff {d : ℕ} (h : m ≤ n) (hlt : n - m < 2 ^ w) (hd : d < 2 ^ w) :
    BitVec.ofNat w n - BitVec.ofNat w m = BitVec.ofNat w d ↔ n = m + d := by
  rw [ofNat_sub_ofNat_of_le h]
  constructor
  · intro heq
    have hnat := congrArg BitVec.toNat heq
    rw [BitVec.toNat_ofNat, BitVec.toNat_ofNat, Nat.mod_eq_of_lt hlt, Nat.mod_eq_of_lt hd] at hnat
    omega
  · intro heq
    rw [heq, Nat.add_sub_cancel_left]

/-- Counters that are less than a full turn apart are equal only if they have been
incremented equally often. -/
theorem ofNat_inj_of_lt (h : m ≤ n) (hlt : n - m < 2 ^ w) :
    BitVec.ofNat w m = BitVec.ofNat w n ↔ n = m := by
  have hdiff := ofNat_sub_eq_iff h hlt (Nat.two_pow_pos w)
  constructor
  · intro heq
    apply hdiff.mp
    rw [heq, BitVec.sub_self]
  · intro heq
    rw [heq]

/-- Masking with a power of two less one is the remainder. -/
theorem toNat_mask {k : ℕ} (hk : k < w) (x : BitVec w) :
    (x &&& (BitVec.ofNat w (2 ^ k) - 1)).toNat = x.toNat % 2 ^ k := by
  have hpow : 2 ^ k < 2 ^ w := Nat.pow_lt_pow_right (by omega) hk
  have hpos := Nat.two_pow_pos k
  have hone : (BitVec.ofNat w (2 ^ k) - 1).toNat = 2 ^ k - 1 := by
    have hsub := ofNat_sub_ofNat_of_le (w := w) (Nat.succ_le_of_lt hpos)
    rw [show (1 : BitVec w) = BitVec.ofNat w 1 from rfl, hsub, BitVec.toNat_ofNat,
      Nat.mod_eq_of_lt (by omega)]
  rw [BitVec.toNat_and, hone, Nat.and_two_pow_sub_one_eq_mod]

/-- **Masking a counter gives its slot**, also after the counter has wrapped. -/
theorem toNat_mask_ofNat {k : ℕ} (hk : k < w) (n : ℕ) :
    (BitVec.ofNat w n &&& (BitVec.ofNat w (2 ^ k) - 1)).toNat = n % 2 ^ k := by
  rw [toNat_mask hk, BitVec.toNat_ofNat]
  exact Nat.mod_mod_of_dvd n (Nat.pow_dvd_pow 2 (Nat.le_of_lt hk))

/-- Less than a full turn apart, slots are different. -/
theorem mod_ne_of_lt {c : ℕ} (h : m < n) (hlt : n < m + c) : m % c ≠ n % c := by
  intro heq
  have hdvd : c ∣ n - m := Nat.dvd_of_mod_eq_zero (Nat.sub_mod_eq_zero_of_mod_eq heq.symm)
  have hle := Nat.le_of_dvd (by omega) hdvd
  omega

end Counter
