import Mathlib

/-!
# Runs of bits

A word whose set bits are exactly those of a range is a *run*.  Bitmap allocators build runs with
shifts, test a bitmap against them, and set or clear them.  This file has the facts about runs, the
two loops that look at single bits, and counting on ranges.

* `IsRun.and_eq_self_iff`, `IsRun.and_eq_zero_iff`: what the tests of a bitmap say.
* `lowBit_spec`: the binary search for a set bit finds one.
* `popLoop_eq`: clearing the lowest set bit until nothing is left counts the set bits.
* `count_exchange`: two predicates that agree outside a range are counted alike up to that range.
-/

namespace FreeBSDSys.BitRange

open BitVec Nat

/-! ## Counting -/

section Counting

variable {p q : ℕ → Prop} [DecidablePred p] [DecidablePred q] {lo n cap : ℕ}

theorem count_congr (h : ∀ i < n, p i ↔ q i) : count p n = count q n :=
  le_antisymm (count_mono_left fun i hi => (h i hi).mp) (count_mono_left fun i hi => (h i hi).mpr)

/-- **Exchange.**  Two predicates that agree outside a range. -/
theorem count_exchange (hcap : lo + n ≤ cap)
    (h : ∀ i < cap, ¬ (lo ≤ i ∧ i < lo + n) → (p i ↔ q i)) :
    count p cap + count (fun j => q (lo + j)) n = count q cap + count (fun j => p (lo + j)) n := by
  obtain ⟨rest, rfl⟩ := Nat.exists_eq_add_of_le hcap
  have hlow : count p lo = count q lo := count_congr fun i hi => h i (by omega) (by omega)
  have hhigh : count (fun j => p (lo + n + j)) rest = count (fun j => q (lo + n + j)) rest :=
    count_congr fun i hi => h _ (by omega) (by omega)
  rw [count_add p (lo + n) rest, count_add q (lo + n) rest, count_add p lo n, count_add q lo n]
  omega

end Counting

/-! ## Runs -/

variable {w : ℕ} {x m : BitVec w} {lo n i : ℕ}

/-- The set bits of `m` are those of the range of `n` bits from `lo` on. -/
def IsRun (m : BitVec w) (lo n : ℕ) : Prop :=
  ∀ i, m.getLsbD i = decide (lo ≤ i ∧ i < lo + n)

/-- The run that two shifted words of ones have in common. -/
theorem isRun_and_shift (h : lo + n ≤ w) :
    IsRun ((allOnes w <<< lo) &&& (allOnes w >>> (w - n - lo))) lo n := by
  intro i
  rw [getLsbD_and, getLsbD_shiftLeft, getLsbD_ushiftRight,
    getLsbD_allOnes, getLsbD_allOnes, Bool.eq_iff_iff]
  simp only [Bool.and_eq_true, Bool.not_eq_true', decide_eq_true_eq, decide_eq_false_iff_not]
  omega

/-- The lowest `n` bits. -/
theorem isRun_low (h : n ≤ w) : IsRun (allOnes w >>> (w - n)) 0 n := by
  intro i
  rw [getLsbD_ushiftRight, getLsbD_allOnes, Bool.eq_iff_iff]
  simp only [decide_eq_true_eq]
  omega

theorem isRun_one (h : lo < w) : IsRun (1#w <<< lo) lo 1 := by
  intro i
  rw [getLsbD_shiftLeft, getLsbD_one, Bool.eq_iff_iff]
  simp only [Bool.and_eq_true, Bool.not_eq_true', decide_eq_true_eq, decide_eq_false_iff_not]
  omega

namespace IsRun

theorem shiftLeft (h : IsRun m lo n) (hw : lo + 1 + n ≤ w) : IsRun (m <<< 1) (lo + 1) n := by
  intro i
  rw [getLsbD_shiftLeft, h (i - 1), Bool.eq_iff_iff]
  simp only [Bool.and_eq_true, Bool.not_eq_true', decide_eq_true_eq, decide_eq_false_iff_not]
  omega

theorem shiftRight (h : IsRun m 0 n) (j : ℕ) : IsRun (m >>> j) 0 (n - j) := by
  intro i
  rw [getLsbD_ushiftRight, h (j + i), Bool.eq_iff_iff]
  simp only [decide_eq_true_eq]
  omega

/-- All bits of the run are set. -/
theorem and_eq_self_iff (h : IsRun m lo n) :
    x &&& m = m ↔ ∀ i, lo ≤ i → i < lo + n → x.getLsbD i = true := by
  constructor
  · intro he i hlo hn
    have hi : (x &&& m).getLsbD i = m.getLsbD i := by rw [he]
    rw [getLsbD_and, h i, decide_eq_true ⟨hlo, hn⟩, Bool.and_true] at hi
    exact hi
  · intro hset
    refine eq_of_getLsbD_eq fun i _ => ?_
    rw [getLsbD_and, h i]
    by_cases hi : lo ≤ i ∧ i < lo + n
    · rw [hset i hi.1 hi.2, Bool.true_and]
    · rw [decide_eq_false hi, Bool.and_false]

/-- No bit of the run is set. -/
theorem and_eq_zero_iff (h : IsRun m lo n) :
    x &&& m = 0 ↔ ∀ i, lo ≤ i → i < lo + n → x.getLsbD i = false := by
  constructor
  · intro he i hlo hn
    have hi : (x &&& m).getLsbD i = (0 : BitVec w).getLsbD i := by rw [he]
    rw [getLsbD_and, h i, decide_eq_true ⟨hlo, hn⟩, Bool.and_true] at hi
    rw [hi]
    exact getLsbD_zero
  · intro hclear
    refine eq_of_getLsbD_eq fun i _ => ?_
    rw [getLsbD_and, h i]
    by_cases hi : lo ≤ i ∧ i < lo + n
    · rw [hclear i hi.1 hi.2]
      exact BitVec.getLsbD_zero.symm
    · rw [decide_eq_false hi, Bool.and_false]
      exact BitVec.getLsbD_zero.symm

/-- Setting the bits of a run. -/
theorem getLsbD_or (h : IsRun m lo n) :
    (x ||| m).getLsbD i = (x.getLsbD i || decide (lo ≤ i ∧ i < lo + n)) := by
  rw [BitVec.getLsbD_or, h i]

/-- Clearing the bits of a run. -/
theorem getLsbD_and_not (h : IsRun m lo n) :
    (x &&& ~~~m).getLsbD i = (x.getLsbD i && !decide (lo ≤ i ∧ i < lo + n)) := by
  rw [getLsbD_and, getLsbD_not, h i]
  by_cases hi : i < w
  · rw [decide_eq_true hi, Bool.true_and]
  · rw [getLsbD_of_ge x i (Nat.le_of_not_lt hi), Bool.false_and, Bool.false_and]

end IsRun

/-- The test of a single bit. -/
theorem and_bit_ne_zero_iff (hlo : lo < w) : x &&& 1#w <<< lo ≠ 0 ↔ x.getLsbD lo = true := by
  rw [ne_eq, (isRun_one hlo).and_eq_zero_iff]
  constructor
  · intro hne
    by_contra hclear
    rw [Bool.not_eq_true] at hclear
    refine hne fun i hle hlt => ?_
    rwa [show i = lo by omega]
  · intro hset hall
    rw [hall lo (Nat.le_refl _) (by omega)] at hset
    cases hset

/-! ## Looking for a set bit -/

/-- The binary search for a set bit: while the low half of what is left has none, shift it out.
The list holds the widths of the halves. -/
def lowBit : List ℕ → BitVec w → BitVec w → ℕ → ℕ
  | [], _, _, r => r
  | j :: js, mask, orig, r =>
    if orig &&& mask = 0 then lowBit js (mask >>> (j >>> 1)) (orig >>> j) (r + j)
    else lowBit js (mask >>> (j >>> 1)) orig r

/-- The widths of a search in `2 ^ k` bits. -/
def halves : ℕ → List ℕ
  | 0 => []
  | k + 1 => 2 ^ k :: halves k

/-- **The search finds a set bit.** -/
theorem lowBit_spec (k : ℕ) : ∀ {mask : BitVec w} {r : ℕ}, (k ≠ 0 → IsRun mask 0 (2 ^ k / 2)) →
      (∃ i < 2 ^ k, x.getLsbD (r + i) = true) →
      ∃ i < 2 ^ k, lowBit (halves k) mask (x >>> r) r = r + i ∧ x.getLsbD (r + i) = true := by
  induction k with
  | zero =>
    intro mask r _ hset
    obtain ⟨i, hi, hbit⟩ := hset
    rw [pow_zero, Nat.lt_one_iff] at hi
    subst hi
    exact ⟨0, Nat.one_pos, rfl, hbit⟩
  | succ k ih =>
    intro mask r hmask hset
    have hpow : 2 ^ (k + 1) / 2 = 2 ^ k := by omega
    have hrun : IsRun mask 0 (2 ^ k) := hpow ▸ hmask (succ_ne_zero k)
    have hnext : k ≠ 0 → IsRun (mask >>> (2 ^ k >>> 1)) 0 (2 ^ k / 2) := by
      intro hk
      obtain ⟨k, rfl⟩ := exists_eq_succ_of_ne_zero hk
      have hwidth : 2 ^ (k + 1) - 2 ^ (k + 1) >>> 1 = 2 ^ (k + 1) / 2 := by
        omega
      rw [← hwidth]
      exact hrun.shiftRight _
    obtain ⟨i, hi, hbit⟩ := hset
    rw [halves, lowBit]
    split
    · -- the low half is empty, so the bit is in the high half
      rename_i hzero
      rw [hrun.and_eq_zero_iff] at hzero
      have hge : 2 ^ k ≤ i := by
        by_contra hlt
        have hclear := hzero i (Nat.zero_le _) (by omega)
        rw [getLsbD_ushiftRight, hbit] at hclear
        exact Bool.noConfusion hclear
      have hset' : ∃ i' < 2 ^ k, x.getLsbD (r + 2 ^ k + i') = true :=
        ⟨i - 2 ^ k, by omega, by rw [show r + 2 ^ k + (i - 2 ^ k) = r + i by omega]; exact hbit⟩
      obtain ⟨i', hi', heq, hbit'⟩ := ih hnext hset'
      rw [← BitVec.shiftRight_add]
      exact ⟨2 ^ k + i', by omega, by omega, by rw [← Nat.add_assoc]; exact hbit'⟩
    · rename_i hne
      have hset' : ∃ i' < 2 ^ k, x.getLsbD (r + i') = true := by
        by_contra hno
        push Not at hno
        refine hne (hrun.and_eq_zero_iff.mpr fun i' _ hi' => ?_)
        rw [getLsbD_ushiftRight]
        exact Bool.eq_false_iff.mpr (hno i' (by omega))
      obtain ⟨i', hi', heq, hbit'⟩ := ih hnext hset'
      exact ⟨i', by omega, heq, hbit'⟩

/-! ## Counting set bits -/

/-- Clear the lowest set bit until nothing is left, and count. -/
def popLoop : ℕ → BitVec w → ℕ
  | 0, _ => 0
  | fuel + 1, x => if x = 0 then 0 else popLoop fuel (x &&& (x - 1)) + 1

/-- A number that is not zero has a lowest set bit. -/
theorem exists_low_bit {a : ℕ} (ha : a ≠ 0) : ∃ t q, a = 2 ^ (t + 1) * q + 2 ^ t := by
  induction a using Nat.strongRecOn with
  | ind a ih =>
    rcases even_or_odd' a with ⟨c, hc | hc⟩
    · obtain ⟨t, q, hq⟩ := ih c (by omega) (by omega)
      refine ⟨t + 1, q, ?_⟩
      rw [hc, hq]
      ring
    · exact ⟨0, c, by rw [hc]; ring⟩

/-- Clearing the lowest set bit clears one bit. -/
theorem getLsbD_and_sub_one (hx : x ≠ 0) : ∃ t < w, x.getLsbD t = true ∧
      ∀ i, (x &&& (x - 1)).getLsbD i = (x.getLsbD i && decide (i ≠ t)) := by
  have hne : x.toNat ≠ 0 := fun he => hx (eq_of_toNat_eq (by simpa using he))
  obtain ⟨t, q, hq⟩ := exists_low_bit hne
  have hlt : 2 ^ t < 2 ^ (t + 1) := Nat.pow_lt_pow_right (by decide) (lt_succ_self t)
  have hbit : ∀ i, x.getLsbD i = if i < t + 1 then decide (t = i) else q.testBit (i - (t + 1)) := by
    intro i
    rw [← testBit_toNat, hq, testBit_two_pow_mul_add _ hlt, testBit_two_pow]
  have hsub : ∀ i, (x - 1).getLsbD i =
      if i < t + 1 then decide (i < t) else q.testBit (i - (t + 1)) := by
    intro i
    have hone : (1 : BitVec w).toNat = 1 := by
      refine mod_eq_of_lt (Nat.one_lt_two_pow ?_)
      rintro rfl
      exact hne (Nat.lt_one_iff.mp x.isLt)
    have hle : 1 ≤ x := by
      rw [le_def, hone]
      exact Nat.one_le_iff_ne_zero.mpr hne
    have hnat : (x - 1).toNat = 2 ^ (t + 1) * q + (2 ^ t - 1) := by
      rw [toNat_sub_of_le hle]
      omega
    rw [← testBit_toNat, hnat, testBit_two_pow_mul_add _ (by omega), testBit_two_pow_sub_one]
  have htt : x.getLsbD t = true := by
    rw [hbit t, if_pos (lt_succ_self t), decide_eq_true rfl]
  refine ⟨t, lt_of_getLsbD htt, htt, fun i => ?_⟩
  rw [getLsbD_and, hsub i, hbit i]
  split
  · rw [Bool.eq_iff_iff]
    simp only [Bool.and_eq_true, decide_eq_true_eq]
    omega
  · rw [Bool.and_self, decide_eq_true (by omega), Bool.and_true]

/-- **The loop counts the set bits.** -/
theorem popLoop_eq (fuel : ℕ) : ∀ {x : BitVec w}, count (fun i => x.getLsbD i = true) w ≤ fuel →
      popLoop fuel x = count (fun i => x.getLsbD i = true) w := by
  induction fuel with
  | zero =>
    intro x hle
    exact (Nat.le_zero.mp hle).symm
  | succ fuel ih =>
    intro x hle
    rw [popLoop]
    split_ifs with hx
    · refine (count_of_forall_not fun i _ => ?_).symm
      rw [hx]
      simp
    · obtain ⟨t, ht, hset, hclear⟩ := getLsbD_and_sub_one hx
      have hex : count (fun i => x.getLsbD i = true) w + 0 =
          count (fun i => (x &&& (x - 1)).getLsbD i = true) w + 1 := by
        have hle : t + 1 ≤ w := ht
        have hraw := count_exchange
          (q := fun i => (x &&& (x - 1)).getLsbD i = true) hle fun i _ hi => by
            have hne : i ≠ t := by omega
            rw [hclear i, decide_eq_true hne, Bool.and_true]
        have hclear' : ¬ (x &&& (x - 1)).getLsbD t = true := by
          rw [hclear t, decide_eq_false (not_not_intro rfl), Bool.and_false]
          exact Bool.false_ne_true
        rw [count_one, count_one, Nat.add_zero, if_pos hset, if_neg hclear'] at hraw
        exact hraw
      rw [ih (by omega)]
      omega

end FreeBSDSys.BitRange
