import FreeBSDSys.Lib.SeqWindow

/-!
# Sequence numbers

The macros of `tcp_seq.h`: two 32-bit sequence numbers are compared by the sign of their difference
as an `int`.  Inside a window of less than `2 ^ 31` numbers they are comparisons of distances.
-/

namespace FreeBSDSys.Tcp

open SeqWindow

abbrev TcpSeq := BitVec 32

/-- `SEQ_LT`. -/
def seqLt (a b : TcpSeq) : Prop := (a - b).toInt < 0

/-- `SEQ_LEQ`. -/
def seqLeq (a b : TcpSeq) : Prop := (a - b).toInt ≤ 0

/-- `SEQ_GT`. -/
def seqGt (a b : TcpSeq) : Prop := 0 < (a - b).toInt

/-- `SEQ_GEQ`. -/
def seqGeq (a b : TcpSeq) : Prop := 0 ≤ (a - b).toInt

instance (a b : TcpSeq) : Decidable (seqLt a b) := inferInstanceAs (Decidable (_ < _))
instance (a b : TcpSeq) : Decidable (seqLeq a b) := inferInstanceAs (Decidable (_ ≤ _))
instance (a b : TcpSeq) : Decidable (seqGt a b) := inferInstanceAs (Decidable (_ < _))
instance (a b : TcpSeq) : Decidable (seqGeq a b) := inferInstanceAs (Decidable (_ ≤ _))

/-- `SEQ_MIN`. -/
def seqMin (a b : TcpSeq) : TcpSeq := if seqLt a b then a else b

/-- `SEQ_MAX`. -/
def seqMax (a b : TcpSeq) : TcpSeq := if seqGt a b then a else b

section Window

variable {b x y : TcpSeq}

section

variable (hx : InWindow b x) (hy : InWindow b y)

include hx hy

theorem seqLt_iff : seqLt x y ↔ off b x < off b y := by
  rw [seqLt, toInt_sub hx hy]
  omega

theorem seqLeq_iff : seqLeq x y ↔ off b x ≤ off b y := by
  rw [seqLeq, toInt_sub hx hy]
  omega

theorem seqGt_iff : seqGt x y ↔ off b y < off b x := by
  rw [seqGt, toInt_sub hx hy]
  omega

theorem seqGeq_iff : seqGeq x y ↔ off b y ≤ off b x := by
  rw [seqGeq, toInt_sub hx hy]
  omega

theorem off_seqMin : off b (seqMin x y) = min (off b x) (off b y) := by
  simp only [seqMin, seqLt_iff hx hy]
  split <;> omega

theorem off_seqMax : off b (seqMax x y) = max (off b x) (off b y) := by
  simp only [seqMax, seqGt_iff hx hy]
  split <;> omega

end

end Window

end FreeBSDSys.Tcp
