import Mathlib

/-!
# Rounding with masks

Kernels round addresses with the mask `2 ^ a - 1`: `x & mask` is the remainder, `x & ~mask` rounds
down, and `(x + mask) & ~mask` rounds up as long as the sum does not wrap around.  Two addresses lie
in the same block of `2 ^ b` units if their difference as words, `x ^ y`, has no bit above the mask.
-/

namespace FreeBSDSys.Rounding

open BitVec Nat

variable {w a : ℕ} {x y m : BitVec w}

/-- The mask below a power of two. -/
theorem toNat_sub_one (h : x.toNat = 2 ^ a) : (x - 1).toNat = 2 ^ a - 1 := by
  have hpos : 0 < 2 ^ a := Nat.two_pow_pos a
  have hlt := x.isLt
  have hw : 0 < w := Nat.pos_of_ne_zero fun h0 => by
    subst h0
    omega
  have hone : (1 : BitVec w).toNat = 1 := toNat_one hw
  rw [toNat_sub_of_le, h, hone]
  rw [le_def, h, hone]
  exact hpos

theorem getLsbD_mask (hm : m.toNat = 2 ^ a - 1) (i : ℕ) : m.getLsbD i = decide (i < a) := by
  rw [← testBit_toNat, hm, testBit_two_pow_sub_one]

theorem toNat_and_mask (hm : m.toNat = 2 ^ a - 1) : (x &&& m).toNat = x.toNat % 2 ^ a := by
  rw [toNat_and, hm, and_two_pow_sub_one_eq_mod]

theorem toNat_and_not_mask (hm : m.toNat = 2 ^ a - 1) :
    (x &&& ~~~m).toNat = x.toNat / 2 ^ a * 2 ^ a := by
  refine eq_of_testBit_eq fun i => ?_
  rw [testBit_toNat, getLsbD_and, getLsbD_not, getLsbD_mask hm,
    testBit_mul_two_pow, testBit_div_two_pow, ← testBit_toNat]
  by_cases ha : a ≤ i
  · have hidx : i - a + a = i := by omega
    by_cases hi : i < w
    · simp [hi, ha]
    · have hx : x.toNat.testBit i = false := by
        rw [testBit_toNat, getLsbD_of_ge x i (by omega)]
      simp [hx, hidx]
  · simp [Nat.lt_of_not_le ha]

/-- The next multiple of `2 ^ a`. -/
def roundUp (a n : ℕ) : ℕ := (n + (2 ^ a - 1)) / 2 ^ a * 2 ^ a

theorem le_roundUp (a n : ℕ) : n ≤ roundUp a n := by
  have hdiv := div_add_mod (n + (2 ^ a - 1)) (2 ^ a)
  rw [Nat.mul_comm] at hdiv
  unfold roundUp
  omega

/-- A multiple above `n` is above the next multiple. -/
theorem roundUp_le {n k : ℕ} (h : n ≤ k * 2 ^ a) : roundUp a n ≤ k * 2 ^ a := by
  have hpos : 0 < 2 ^ a := Nat.two_pow_pos a
  refine Nat.mul_le_mul_right _ (Nat.lt_succ_iff.mp ?_)
  rw [Nat.div_lt_iff_lt_mul hpos, Nat.succ_mul]
  omega

/-- **Rounding up** a word, when the sum does not wrap around. -/
theorem toNat_add_and_not_mask (hm : m.toNat = 2 ^ a - 1) (hx : x.toNat + m.toNat < 2 ^ w) :
    ((x + m) &&& ~~~m).toNat = roundUp a x.toNat := by
  rw [toNat_and_not_mask hm, toNat_add, mod_eq_of_lt hx, hm, roundUp]

/-- A multiple of `2 ^ a` is rounded to itself. -/
theorem add_and_not_mask_of_mod (ha : a ≤ w) (hm : m.toNat = 2 ^ a - 1)
    (hx : x.toNat % 2 ^ a = 0) : (x + m) &&& ~~~m = x := by
  obtain ⟨k, hk⟩ := dvd_of_mod_eq_zero hx
  have hsplit : 2 ^ w = 2 ^ a * 2 ^ (w - a) := by rw [← Nat.pow_add, Nat.add_sub_cancel' ha]
  have hlt : k + 1 ≤ 2 ^ (w - a) := by
    refine succ_le_of_lt (Nat.lt_of_mul_lt_mul_left (a := 2 ^ a) ?_)
    rw [← hk, ← hsplit]
    exact x.isLt
  have hroom : x.toNat + 2 ^ a ≤ 2 ^ w := by
    rw [hk, hsplit]
    exact Nat.mul_le_mul_left _ hlt
  refine eq_of_toNat_eq ?_
  rw [toNat_add_and_not_mask hm (by omega)]
  refine le_antisymm ?_ (le_roundUp a x.toNat)
  have hle : x.toNat ≤ k * 2 ^ a := by rw [hk, Nat.mul_comm]
  calc roundUp a x.toNat ≤ k * 2 ^ a := roundUp_le hle
    _ = x.toNat := by rw [hk, Nat.mul_comm]

/-- Words of the same block. -/
theorem xor_and_not_mask_eq_zero (hm : m.toNat = 2 ^ a - 1) :
    (x ^^^ y) &&& ~~~m = 0 ↔ x.toNat / 2 ^ a = y.toNat / 2 ^ a := by
  constructor
  · intro h
    refine eq_of_testBit_eq fun i => ?_
    rw [testBit_div_two_pow, testBit_div_two_pow, testBit_toNat, testBit_toNat]
    by_cases hi : i + a < w
    · have hbit := congrArg (fun z => z.getLsbD (i + a)) h
      simp only [getLsbD_and, getLsbD_not, getLsbD_mask hm] at hbit
      have hna : ¬ i + a < a := by omega
      simpa [hi, hna] using hbit
    · rw [getLsbD_of_ge x _ (by omega), getLsbD_of_ge y _ (by omega)]
  · intro h
    refine eq_of_getLsbD_eq fun i hi => ?_
    rw [getLsbD_and, getLsbD_xor, getLsbD_not, getLsbD_mask hm]
    by_cases ha : i < a
    · simp [ha]
    · have hbit := congrArg (fun n => n.testBit (i - a)) h
      have hidx : i - a + a = i := by omega
      simp only [testBit_div_two_pow, hidx, testBit_toNat] at hbit
      rw [hbit]
      simp

end FreeBSDSys.Rounding
