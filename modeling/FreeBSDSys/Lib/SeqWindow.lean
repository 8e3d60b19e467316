import Mathlib

/-!
# Numbers on a circle, seen through a window

Protocol sequence numbers are machine words that wrap.  They are compared by the sign of their
difference, which is not an order on all words; it is one on every window shorter than half the
circle.  A window is given by its first number `b`, and a number is read as its distance from `b`.
Inside a window every comparison and every difference is one of natural numbers.

* `off b x`, `InWindow b x`: the distance from the window's start, and lying in the window.
* `toInt_sub`: the signed difference of two numbers of a window.
* `toNat_sub`, `off_add`, `off_add_base`: unsigned differences and sums.
* `off_between`: what the comparisons put between two numbers of a window lies between them.
-/

namespace FreeBSDSys.SeqWindow

variable {w : ℕ} {b x y z n : BitVec w}

/-- The distance of `x` from the start of the window. -/
def off (b x : BitVec w) : ℕ := (x - b).toNat

/-- `x` is less than half the circle away from the start. -/
def InWindow (b x : BitVec w) : Prop := off b x < 2 ^ (w - 1)

instance : Decidable (InWindow b x) := inferInstanceAs (Decidable (_ < _))

theorem off_injective (h : off b x = off b y) : x = y :=
  sub_left_injective (BitVec.eq_of_toNat_eq h : x - b = y - b)

@[simp] theorem off_self : off b b = 0 := by simp [off]

theorem off_lt_two_pow : off b x < 2 ^ w := (x - b).isLt

/-- A difference does not depend on where the window starts. -/
theorem toNat_sub_eq (b x y : BitVec w) : (x - y).toNat = (2 ^ w - off b y + off b x) % 2 ^ w := by
  rw [show x - y = (x - b) - (y - b) from (sub_sub_sub_cancel_right x y b).symm]
  rfl

/-- **Unsigned differences** of numbers in order. -/
theorem toNat_sub (h : off b y ≤ off b x) : (x - y).toNat = off b x - off b y := by
  have hx : off b x < 2 ^ w := off_lt_two_pow
  rw [toNat_sub_eq b, show 2 ^ w - off b y + off b x = 2 ^ w + (off b x - off b y) by omega,
    Nat.add_mod_left, Nat.mod_eq_of_lt (by omega)]

theorem toNat_sub_of_lt (h : off b x < off b y) : (x - y).toNat = 2 ^ w + off b x - off b y := by
  have hy : off b y < 2 ^ w := off_lt_two_pow
  rw [toNat_sub_eq b, Nat.mod_eq_of_lt (by omega)]
  omega

theorem InWindow.two_mul_lt (h : InWindow b x) : 2 * off b x < 2 ^ w := by
  cases w with
  | zero => exact Nat.lt_of_le_of_lt (Nat.mul_le_mul_left 2 (Nat.lt_succ_iff.mp h)) (by decide)
  | succ k =>
    have h' : off b x < 2 ^ k := h
    omega

/-- **Signed differences** inside a window are differences of distances. -/
theorem toInt_sub (hx : InWindow b x) (hy : InWindow b y) :
    (x - y).toInt = (off b x : ℤ) - (off b y : ℤ) := by
  have hx' := hx.two_mul_lt
  have hy' := hy.two_mul_lt
  rw [BitVec.toInt_eq_toNat_cond]
  obtain h | h := Nat.lt_or_ge (off b x) (off b y)
  · rw [toNat_sub_of_lt h]
    omega
  · rw [toNat_sub h]
    omega

/-- **Between.**  A number not before `x` and not behind `y`, by the sign of the differences, lies
between them. -/
theorem off_between (hx : InWindow b x) (hy : InWindow b y) (hxy : off b x ≤ off b y)
    (hxz : 0 ≤ (z - x).toInt) (hzy : (z - y).toInt ≤ 0) : off b x ≤ off b z ∧ off b z ≤ off b y := by
  have hx' := hx.two_mul_lt
  have hy' := hy.two_mul_lt
  have hz : off b z < 2 ^ w := off_lt_two_pow
  rw [BitVec.toInt_eq_toNat_cond] at hxz hzy
  have hle : off b x ≤ off b z := by
    by_contra hlt
    rw [toNat_sub_of_lt (not_le.mp hlt)] at hxz
    split at hxz <;> omega
  rw [toNat_sub hle] at hxz
  refine ⟨hle, ?_⟩
  by_contra hlt
  rw [toNat_sub (not_le.mp hlt).le] at hzy
  split at hxz <;> split at hzy <;> omega

/-- **Sums** that stay below the circle's length. -/
theorem off_add (h : off b x + n.toNat < 2 ^ w) : off b (x + n) = off b x + n.toNat := by
  unfold off at h ⊢
  rw [show x + n - b = (x - b) + n from add_sub_right_comm x n b, BitVec.toNat_add,
    Nat.mod_eq_of_lt h]

/-- The distance from a later start. -/
theorem off_add_base (h : n.toNat ≤ off b x) : off (b + n) x = off b x - n.toNat := by
  unfold off at h ⊢
  rw [show x - (b + n) = (x - b) - n from sub_add_eq_sub_sub x b n]
  exact BitVec.toNat_sub_of_le h

end FreeBSDSys.SeqWindow
