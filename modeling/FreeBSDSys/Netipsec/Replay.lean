import FreeBSDSys.Lib.BitRange

/-!
# Anti-replay window of IPsec

`ipsec_updatereplay` decides whether a received sequence number is accepted and marks it in a
bitmap of `wsize` bytes; `ipsec_chkreplay` decides the same without marking.  The bitmap is one
number of `8 * wsize` bits with the most significant byte first.  Bit `d` stands for `lastseq - d`,
so a larger sequence number shifts the whole bitmap to the left, byte by byte.

A window is compared with the list of the numbers accepted so far.  Nothing else is said about the
bitmap: the numbers that were never received and those that fell out of the window look alike.

* `bit_vshiftl`: the shift moves bit `d` to bit `d + nbit`.
* `updatereplay_spec`: one call, against the history.
* `ipsec_replay`: runs of calls.

The largest window a security association can have is 255 bytes, the range of `sadb_sa_replay`; the
results hold as long as the number of bits fits the `int` that `vshiftl` counts with.
-/

namespace FreeBSDSys.Ipsec

open BitVec Function List

/-! ## The source -/

/-- The bytes of a replay bitmap -/
abbrev Bitmap := ℕ → BitVec 8

/-- `struct secreplay` -/
structure SecReplay where
  /-- The number of accepted packets, 32 bits wide -/
  count : ℕ
  /-- The size of the bitmap in bytes -/
  wsize : ℕ
  lastseq : ℕ
  bitmap : Bitmap
  overflow : ℕ

/-- The inner loop of `vshiftl`, with `n` bytes to go at index `i` -/
def vshiftlBytes (s : ℕ) : ℕ → ℕ → Bitmap → Bitmap
  | 0, _, bitmap => bitmap
  | n + 1, i, bitmap =>
    let carry := bitmap i >>> (8 - s)
    let bitmap := update bitmap i (bitmap i <<< s)
    vshiftlBytes s n (i + 1) (update bitmap (i - 1) (bitmap (i - 1) ||| carry))

/-- One round of the outer loop of `vshiftl` -/
def vshiftlRound (bitmap : Bitmap) (s wsize : ℕ) : Bitmap :=
  vshiftlBytes s (wsize - 1) 1 (update bitmap 0 (bitmap 0 <<< s))

/-- The outer loop of `vshiftl` at `j` -/
def vshiftlFrom (bitmap : Bitmap) (nbit wsize j : ℕ) : Bitmap :=
  if j < nbit then
    let s := if nbit - j < 8 then nbit - j else 8
    vshiftlFrom (vshiftlRound bitmap s wsize) nbit wsize (j + 8)
  else bitmap
termination_by nbit - j

/-- `vshiftl` -/
def vshiftl (bitmap : Bitmap) (nbit wsize : ℕ) : Bitmap := vshiftlFrom bitmap nbit wsize 0

/-- `ipsec_chkreplay`: 0 if the packet is disallowed, 1 if it is permitted -/
def ipsecChkreplay (seq : ℕ) (replay : SecReplay) : ℕ :=
  if replay.wsize = 0 then 1
  else
    let frlast := replay.wsize - 1
    let wsizeb := (replay.wsize <<< 3) % 2 ^ 32
    if seq = 0 then 0
    else if replay.count = 0 then 1
    else if seq > replay.lastseq then 1
    else
      let diff := replay.lastseq - seq
      if diff ≥ wsizeb then 0
      else if replay.bitmap (frlast - diff / 8) &&& 1#8 <<< (diff % 8) ≠ 0#8 then 0
      else 1

/-- The end of `ipsec_updatereplay`, at the label `ok`; `cycseq` is the flag
`SADB_X_EXT_CYCSEQ` of the association -/
def updatereplayOk (cycseq : Bool) (replay : SecReplay) : ℕ × SecReplay :=
  let next := fun r : SecReplay => (0, { r with count := (r.count + 1) % 2 ^ 32 })
  if replay.count = 2 ^ 32 - 1 then
    let replay := { replay with overflow := replay.overflow + 1 }
    if !cycseq then (1, replay) else next replay
  else next replay

/-- The bitmap of `wsize` bytes with bit 0 set alone -/
def onlyLast (wsize : ℕ) (bitmap : Bitmap) : Bitmap :=
  update (fun i => if i < wsize then 0#8 else bitmap i) (wsize - 1) 1#8

/-- `ipsec_updatereplay`: 0 if the packet is accepted, 1 if not -/
def ipsecUpdatereplay (cycseq : Bool) (seq : ℕ) (replay : SecReplay) : ℕ × SecReplay :=
  if replay.wsize = 0 then updatereplayOk cycseq replay
  else
    let frlast := replay.wsize - 1
    let wsizeb := (replay.wsize <<< 3) % 2 ^ 32
    if seq = 0 then (1, replay)
    else if replay.count = 0 then
      updatereplayOk cycseq { replay with
        lastseq := seq
        bitmap := onlyLast replay.wsize replay.bitmap }
    else if seq > replay.lastseq then
      let diff := seq - replay.lastseq
      if diff < wsizeb then
        let bitmap := vshiftl replay.bitmap diff replay.wsize
        updatereplayOk cycseq { replay with
          lastseq := seq
          bitmap := update bitmap frlast (bitmap frlast ||| 1#8) }
      else
        updatereplayOk cycseq { replay with
          lastseq := seq
          bitmap := onlyLast replay.wsize replay.bitmap }
    else
      let diff := replay.lastseq - seq
      if diff ≥ wsizeb then (1, replay)
      else
        let fr := frlast - diff / 8
        if replay.bitmap fr &&& 1#8 <<< (diff % 8) ≠ 0#8 then (1, replay)
        else
          updatereplayOk cycseq { replay with
            bitmap := update replay.bitmap fr (replay.bitmap fr ||| 1#8 <<< (diff % 8)) }

variable {m : Bitmap} {wsize s nbit d i j n seq : ℕ} {replay : SecReplay} {cycseq : Bool}
  {seen : List ℕ}

/-! ## The bitmap as one number -/

/-- Bit `d` of the bitmap. -/
def bit (m : Bitmap) (wsize d : ℕ) : Bool := (m (wsize - 1 - d / 8)).getLsbD (d % 8)

/-- The inner loop does not touch the bytes before `i - 1`. -/
theorem vshiftlBytes_below (s : ℕ) : ∀ (n i : ℕ) (m : Bitmap) (k : ℕ), k + 1 < i →
    vshiftlBytes s n i m k = m k := by
  intro n
  induction n with
  | zero => exact fun _ _ _ _ => rfl
  | succ n ih =>
    intro i m k hk
    rw [vshiftlBytes, ih _ _ _ (by omega), update_of_ne (by omega), update_of_ne (by omega)]

/-- What the inner loop leaves.  Byte `i - 1` has been shifted before; the bytes from `i` on are
shifted, and each hands its upper bits to the one before it. -/
theorem vshiftlBytes_apply (s : ℕ) : ∀ (n i : ℕ) (m : Bitmap) (k : ℕ), 1 ≤ i → i ≤ k + 1 →
    k < i + n → vshiftlBytes s n i m k = (if k + 1 = i then m k else m k <<< s) |||
      if k + 1 < i + n then m (k + 1) >>> (8 - s) else 0#8 := by
  intro n
  induction n with
  | zero =>
    intro i m k hi hk hlt
    rw [vshiftlBytes, if_pos (by omega), if_neg (by omega), or_zero]
  | succ n ih =>
    intro i m k hi hk hlt
    rw [vshiftlBytes]
    by_cases hki : k + 1 = i
    · subst hki
      rw [vshiftlBytes_below _ _ _ _ _ (by omega), if_pos rfl, if_pos (by omega)]
      simp only [Nat.add_sub_cancel, update_self]
      rw [update_of_ne (by omega)]
    · rw [ih _ _ _ (by omega) (by omega) (by omega), if_neg hki]
      congr 1
      · rw [update_of_ne (by omega)]
        by_cases hk' : k = i
        · rw [if_pos (by omega), hk', update_self]
        · rw [if_neg (by omega), update_of_ne hk']
      · rw [update_of_ne (by omega), update_of_ne (by omega)]
        exact if_congr (by omega) rfl rfl

/-- The bytes after one round of the shift. -/
theorem vshiftlRound_apply (hi : i < wsize) : vshiftlRound m s wsize i =
    m i <<< s ||| if i + 1 < wsize then m (i + 1) >>> (8 - s) else 0#8 := by
  rw [vshiftlRound, vshiftlBytes_apply _ _ _ _ _ (Nat.le_refl _) (by omega) (by omega)]
  congr 1
  · by_cases hzero : i = 0
    · rw [if_pos (by omega), hzero, update_self]
    · rw [if_neg (by omega), update_of_ne hzero]
  · exact if_congr (by omega) rfl rfl

theorem bit_vshiftlRound (hs : s ≤ 8) (hd : d < 8 * wsize) :
    bit (vshiftlRound m s wsize) wsize d = (decide (s ≤ d) && bit m wsize (d - s)) := by
  have hbyte : wsize - 1 - d / 8 < wsize := by omega
  rw [bit, vshiftlRound_apply hbyte, getLsbD_or, getLsbD_shiftLeft]
  by_cases hin : s ≤ d % 8
  · -- the bit stays in its byte
    have hout : (if wsize - 1 - d / 8 + 1 < wsize then m (wsize - 1 - d / 8 + 1) >>> (8 - s)
        else 0#8).getLsbD (d % 8) = false := by
      split
      · rw [getLsbD_ushiftRight]
        exact getLsbD_of_ge _ _ (by omega)
      · exact getLsbD_zero
    rw [hout, Bool.or_false, decide_eq_true (by omega), decide_eq_false (by omega),
      decide_eq_true (by omega), bit, show (d - s) / 8 = d / 8 by omega,
      show (d - s) % 8 = d % 8 - s by omega]
    rfl
  · rw [decide_eq_true (show d % 8 < s by omega), Bool.not_true, Bool.and_false, Bool.false_and,
      Bool.false_or]
    by_cases hlow : s ≤ d
    · -- it comes from the byte behind
      rw [if_pos (by omega), getLsbD_ushiftRight, decide_eq_true hlow, Bool.true_and, bit,
        show (d - s) / 8 = d / 8 - 1 by omega, show (d - s) % 8 = 8 - s + d % 8 by omega,
        show wsize - 1 - (d / 8 - 1) = wsize - 1 - d / 8 + 1 by omega]
    · rw [if_neg (by omega), decide_eq_false hlow, getLsbD_zero, Bool.false_and]

theorem bit_vshiftlFrom (m : Bitmap) (nbit j : ℕ) (hd : d < 8 * wsize) :
    bit (vshiftlFrom m nbit wsize j) wsize d =
      (decide (nbit - j ≤ d) && bit m wsize (d - (nbit - j))) := by
  fun_induction vshiftlFrom m nbit wsize j with
  | case1 m j hj s ih =>
    have hs : s = min 8 (nbit - j) := by
      change (if nbit - j < 8 then nbit - j else 8) = _
      split <;> omega
    rw [ih]
    by_cases hrest : nbit - (j + 8) ≤ d
    · rw [bit_vshiftlRound (by omega) (by omega), decide_eq_true hrest, Bool.true_and]
      congr 1
      · refine decide_eq_decide.mpr ?_
        omega
      · congr 1
        omega
    · rw [decide_eq_false hrest, decide_eq_false (by omega), Bool.false_and, Bool.false_and]
  | case2 m j hj =>
    rw [decide_eq_true (by omega), Bool.true_and, show d - (nbit - j) = d by omega]

/-- **The shift** moves bit `d` to bit `d + nbit`. -/
theorem bit_vshiftl (m : Bitmap) (nbit : ℕ) (hd : d < 8 * wsize) :
    bit (vshiftl m nbit wsize) wsize d = (decide (nbit ≤ d) && bit m wsize (d - nbit)) := by
  rw [vshiftl, bit_vshiftlFrom m nbit 0 hd, Nat.sub_zero]

/-- A bit is set by setting it in its byte. -/
theorem bit_update_or (he : j < 8 * wsize) (hd : d < 8 * wsize) :
    bit (update m (wsize - 1 - j / 8) (m (wsize - 1 - j / 8) ||| 1#8 <<< (j % 8)))
      wsize d = (bit m wsize d || decide (d = j)) := by
  rw [bit]
  by_cases hbyte : d / 8 = j / 8
  · rw [hbyte, update_self, getLsbD_or, bit, hbyte, getLsbD_shiftLeft, getLsbD_one]
    congr 1
    rw [Bool.eq_iff_iff]
    simp only [Bool.and_eq_true, decide_eq_true_eq, Bool.not_eq_true', decide_eq_false_iff_not]
    omega
  · rw [update_of_ne (by omega), decide_eq_false (by rintro rfl; exact hbyte rfl),
      Bool.or_false, bit]

theorem bit_onlyLast (m : Bitmap) (hd : d < 8 * wsize) :
    bit (onlyLast wsize m) wsize d = decide (d = 0) := by
  rw [bit, onlyLast]
  by_cases hbyte : d / 8 = 0
  · rw [hbyte, Nat.sub_zero, update_self, getLsbD_one]
    rw [Bool.eq_iff_iff]
    simp only [Bool.and_eq_true, decide_eq_true_eq]
    omega
  · rw [update_of_ne (by omega), if_pos (by omega), getLsbD_zero, decide_eq_false (by omega)]

/-- The test of a bit in its byte. -/
theorem and_ne_zero_iff (m : Bitmap) (wsize d : ℕ) :
    m (wsize - 1 - d / 8) &&& 1#8 <<< (d % 8) ≠ 0#8 ↔ bit m wsize d = true :=
  BitRange.and_bit_ne_zero_iff (Nat.mod_lt d (by decide))

/-! ## The window and the history -/

/-- The largest number of a history, 0 if there is none. -/
def largest (seen : List ℕ) : ℕ := seen.foldr max 0

/-- The numbers that a window of `wsize` bytes lets through. -/
def Fresh (wsize : ℕ) (seen : List ℕ) (seq : ℕ) : Prop :=
  seq ≠ 0 ∧ seq ∉ seen ∧ largest seen < seq + 8 * wsize

theorem le_largest {a : ℕ} (ha : a ∈ seen) : a ≤ largest seen := by
  induction seen with
  | nil => exact absurd ha not_mem_nil
  | cons b seen ih =>
    rcases mem_cons.mp ha with rfl | ha
    · exact Nat.le_max_left _ _
    · exact (ih ha).trans (Nat.le_max_right _ _)

/-- The window records the numbers in `seen`, which are those accepted so far. -/
structure Window (replay : SecReplay) (seen : List ℕ) : Prop where
  count : replay.count = seen.length
  zero : 0 ∉ seen
  nodup : seen.Nodup
  last : seen ≠ [] → replay.lastseq = largest seen
  bits : seen ≠ [] → ∀ d < 8 * replay.wsize,
    bit replay.bitmap replay.wsize d = true ↔ replay.lastseq - d ∈ seen

/-- The number of packets is counted while it fits the counter. -/
theorem updatereplayOk_eq (hcount : replay.count < 2 ^ 32 - 1) :
    updatereplayOk cycseq replay = (0, { replay with count := replay.count + 1 }) := by
  rw [updatereplayOk]
  dsimp only
  rw [if_neg (by omega), Nat.mod_eq_of_lt (by omega)]

theorem shiftLeft_three (hsize : wsize < 2 ^ 28) : wsize <<< 3 % 2 ^ 32 = 8 * wsize := by
  omega

/-- A number is accepted and marked. -/
theorem Window.accept {lastseq : ℕ} {bitmap : Bitmap} (h : Window replay seen) (hseq : seq ≠ 0)
    (hnew : seq ∉ seen) (hlast : lastseq = max seq (largest seen))
    (hbits : ∀ d < 8 * replay.wsize, bit bitmap replay.wsize d = true ↔ lastseq - d ∈ seq :: seen) :
    Window { replay with lastseq := lastseq, bitmap := bitmap, count := replay.count + 1 }
      (seq :: seen) where
  count := by rw [length_cons, ← h.count]
  zero := fun hmem => (mem_cons.mp hmem).elim (Ne.symm hseq) h.zero
  nodup := nodup_cons.mpr ⟨hnew, h.nodup⟩
  last _ := hlast
  bits _ := hbits

/-- The window after a number that leaves all the others behind. -/
theorem bits_onlyLast (hseq : seq ≠ 0) (hzero : 0 ∉ seen)
    (hfar : seen = [] ∨ largest seen + 8 * wsize ≤ seq) (hd : d < 8 * wsize) :
    bit (onlyLast wsize m) wsize d = true ↔ seq - d ∈ seq :: seen := by
  rw [bit_onlyLast m hd, decide_eq_true_eq, mem_cons]
  constructor
  · rintro rfl
    exact .inl rfl
  · rintro (heq | hmem)
    · omega
    · rcases hfar with rfl | hfar
      · exact absurd hmem not_mem_nil
      · have hle := le_largest hmem
        omega

/-- The window after a number that is larger than the others. -/
theorem bits_shifted (h : Window replay seen) (hseen : seen ≠ []) (hlarge : replay.lastseq < seq)
    (hd : d < 8 * replay.wsize) :
    bit (update (vshiftl replay.bitmap (seq - replay.lastseq) replay.wsize)
      (replay.wsize - 1) (vshiftl replay.bitmap (seq - replay.lastseq) replay.wsize
        (replay.wsize - 1) ||| 1#8)) replay.wsize d = true ↔ seq - d ∈ seq :: seen := by
  have hpos : 0 < 8 * replay.wsize := by omega
  have hset := bit_update_or hpos hd
    (m := vshiftl replay.bitmap (seq - replay.lastseq) replay.wsize)
  rw [Nat.sub_zero, shiftLeft_zero] at hset
  rw [hset, bit_vshiftl _ _ hd, Bool.or_eq_true, Bool.and_eq_true, decide_eq_true_eq,
    decide_eq_true_eq, h.bits hseen _ (by omega), mem_cons]
  constructor
  · rintro (⟨hle, hmem⟩ | rfl)
    · rw [show replay.lastseq - (d - (seq - replay.lastseq)) = seq - d by omega] at hmem
      exact .inr hmem
    · exact .inl rfl
  · rintro (heq | hmem)
    · exact .inr (by omega)
    · have hle := le_largest hmem
      rw [← h.last hseen] at hle
      refine .inl ⟨by omega, ?_⟩
      rwa [show replay.lastseq - (d - (seq - replay.lastseq)) = seq - d by omega]

/-- The window after a number that is not the largest. -/
theorem bits_marked (h : Window replay seen) (hseen : seen ≠ []) (hseq : seq ≠ 0)
    (hle : seq ≤ replay.lastseq) (hin : replay.lastseq - seq < 8 * replay.wsize)
    (hd : d < 8 * replay.wsize) :
    bit (update replay.bitmap (replay.wsize - 1 - (replay.lastseq - seq) / 8)
      (replay.bitmap (replay.wsize - 1 - (replay.lastseq - seq) / 8) |||
        1#8 <<< ((replay.lastseq - seq) % 8))) replay.wsize d = true ↔
      replay.lastseq - d ∈ seq :: seen := by
  rw [bit_update_or hin hd, Bool.or_eq_true, decide_eq_true_eq, h.bits hseen d hd, mem_cons]
  constructor
  · rintro (hmem | rfl)
    · exact .inr hmem
    · exact .inl (by omega)
  · rintro (heq | hmem)
    · exact .inr (by omega)
    · exact .inl hmem

/-! ## One call -/

/-- **`ipsec_updatereplay`** accepts the fresh numbers and marks them. -/
theorem updatereplay_spec (h : Window replay seen) (hpos : 0 < replay.wsize)
    (hsize : replay.wsize < 2 ^ 28) (hlen : seen.length < 2 ^ 32 - 1) (cycseq : Bool) (seq : ℕ) :
    (Fresh replay.wsize seen seq ∧ ∃ replay', ipsecUpdatereplay cycseq seq replay = (0, replay') ∧
      replay'.wsize = replay.wsize ∧ Window replay' (seq :: seen)) ∨
    (¬Fresh replay.wsize seen seq ∧ ipsecUpdatereplay cycseq seq replay = (1, replay)) := by
  have hcount : replay.count < 2 ^ 32 - 1 := h.count ▸ hlen
  rw [ipsecUpdatereplay, if_neg (by omega)]
  simp only [shiftLeft_three hsize]
  by_cases hseq : seq = 0
  · rw [if_pos hseq]
    exact .inr ⟨fun hfresh => hfresh.1 hseq, rfl⟩
  rw [if_neg hseq]
  by_cases hzero : replay.count = 0
  · -- the first number
    have hseen : seen = [] := length_eq_zero_iff.mp (h.count ▸ hzero)
    subst hseen
    rw [if_pos hzero, updatereplayOk_eq (by exact hcount)]
    refine .inl ⟨⟨hseq, not_mem_nil, by change 0 < _; omega⟩, _, rfl, rfl,
      h.accept hseq not_mem_nil (Nat.max_zero seq).symm fun d hd =>
        bits_onlyLast hseq h.zero (.inl rfl) hd⟩
  rw [if_neg hzero]
  have hseen : seen ≠ [] := by
    rintro rfl
    exact hzero h.count
  have hlast := h.last hseen
  by_cases hlarge : seq > replay.lastseq
  · have hnew : seq ∉ seen := fun hmem => by
      have := le_largest hmem
      omega
    have hfresh : Fresh replay.wsize seen seq := ⟨hseq, hnew, by omega⟩
    have hmax : seq = max seq (largest seen) := by omega
    rw [if_pos hlarge]
    by_cases hnear : seq - replay.lastseq < 8 * replay.wsize
    · rw [if_pos hnear, updatereplayOk_eq (by exact hcount)]
      exact .inl ⟨hfresh, _, rfl, rfl, h.accept hseq hnew hmax fun _ => bits_shifted h hseen hlarge⟩
    · rw [if_neg hnear, updatereplayOk_eq (by exact hcount)]
      exact .inl ⟨hfresh, _, rfl, rfl, h.accept hseq hnew hmax fun d hd =>
          bits_onlyLast hseq h.zero (.inr (by omega)) hd⟩
  · rw [if_neg hlarge]
    by_cases hold : replay.lastseq - seq ≥ 8 * replay.wsize
    · rw [if_pos hold]
      exact .inr ⟨fun hfresh => by have := hfresh.2.2; omega, rfl⟩
    rw [if_neg hold]
    have hback : replay.lastseq - (replay.lastseq - seq) = seq := by omega
    have hbit := h.bits hseen (replay.lastseq - seq) (by omega)
    rw [hback] at hbit
    by_cases hset : bit replay.bitmap replay.wsize (replay.lastseq - seq) = true
    · rw [if_pos ((and_ne_zero_iff _ _ _).mpr hset)]
      exact .inr ⟨fun hfresh => hfresh.2.1 (hbit.mp hset), rfl⟩
    · have hnew : seq ∉ seen := fun hmem => hset (hbit.mpr hmem)
      have hmax : replay.lastseq = max seq (largest seen) := by omega
      rw [if_neg fun hne => hset ((and_ne_zero_iff _ _ _).mp hne),
        updatereplayOk_eq (by exact hcount)]
      exact .inl ⟨⟨hseq, hnew, by omega⟩, _, rfl, rfl, h.accept hseq hnew hmax fun d hd =>
          bits_marked h hseen hseq (by omega) (by omega) hd⟩

theorem updatereplayOk_fst (hcount : replay.count < 2 ^ 32 - 1) :
    (updatereplayOk cycseq replay).1 = 0 := by
  rw [updatereplayOk_eq hcount]

/-- **`ipsec_chkreplay`** gives the verdict that `ipsec_updatereplay` would give. -/
theorem chkreplay_eq_one_iff (hcount : replay.count < 2 ^ 32 - 1) (cycseq : Bool) (seq : ℕ) :
    ipsecChkreplay seq replay = 1 ↔ (ipsecUpdatereplay cycseq seq replay).1 = 0 := by
  rw [ipsecChkreplay, ipsecUpdatereplay]
  dsimp only
  -- the two functions take the same decisions
  split_ifs
  all_goals first
    | exact iff_of_true rfl (updatereplayOk_fst (by exact hcount))
    | exact iff_of_false (by decide) (by decide)

/-! ## Runs -/

/-- A run of `ipsec_updatereplay` over received numbers, with the accepted ones, newest first -/
def receive (cycseq : Bool) : List ℕ → SecReplay → List ℕ → SecReplay × List ℕ
  | [], replay, seen => (replay, seen)
  | seq :: seqs, replay, seen =>
    let r := ipsecUpdatereplay cycseq seq replay
    receive cycseq seqs r.2 (if r.1 = 0 then seq :: seen else seen)

/-- The window records the accepted numbers all along a run. -/
theorem receive_window (cycseq : Bool) : ∀ (seqs : List ℕ) (replay : SecReplay) (seen : List ℕ),
    Window replay seen → 0 < replay.wsize → replay.wsize < 2 ^ 28 →
    seen.length + seqs.length < 2 ^ 32 - 1 →
    Window (receive cycseq seqs replay seen).1 (receive cycseq seqs replay seen).2 ∧
    (receive cycseq seqs replay seen).1.wsize = replay.wsize ∧
    (receive cycseq seqs replay seen).2.length ≤ seen.length + seqs.length := by
  intro seqs
  induction seqs with
  | nil => exact fun replay seen h _ _ _ => ⟨h, rfl, Nat.le_refl _⟩
  | cons seq seqs ih =>
    intro replay seen h hpos hsize hlen
    rw [length_cons] at hlen
    rw [receive]
    rcases updatereplay_spec h hpos hsize (by omega) cycseq seq with
      ⟨-, replay', heq, hsame, hwindow⟩ | ⟨-, heq⟩
    · rw [heq, if_pos rfl]
      dsimp only
      rw [← hsame] at hpos hsize
      obtain ⟨hw, hs, hl⟩ := ih replay' (seq :: seen) hwindow hpos hsize
        (by rw [length_cons]; omega)
      rw [length_cons] at hl ⊢
      exact ⟨hw, hs.trans hsame, by omega⟩
    · rw [heq, if_neg Nat.one_ne_zero]
      dsimp only
      obtain ⟨hw, hs, hl⟩ := ih replay seen h hpos hsize (by omega)
      rw [length_cons]
      exact ⟨hw, hs, by omega⟩

/-- **Anti-replay.**  On an association that has not received anything, in a run of fewer than
`2 ^ 32 - 1` numbers, a number is accepted exactly when it is not 0, was not accepted before and is
larger than the largest accepted number less the size of the window.  So no number is accepted
twice, and `ipsec_chkreplay` gives the verdict of `ipsec_updatereplay`. -/
theorem ipsec_replay (hpos : 0 < replay.wsize) (hsize : replay.wsize < 2 ^ 28)
    (hcount : replay.count = 0) (cycseq : Bool) (seqs : List ℕ) (seq : ℕ)
    (hlen : (seqs ++ [seq]).length < 2 ^ 32 - 1) :
    ((ipsecUpdatereplay cycseq seq (receive cycseq seqs replay []).1).1 = 0 ↔
      seq ≠ 0 ∧ seq ∉ (receive cycseq seqs replay []).2 ∧
        largest (receive cycseq seqs replay []).2 < seq + 8 * replay.wsize) ∧
    (receive cycseq seqs replay []).2.Nodup ∧
    (ipsecChkreplay seq (receive cycseq seqs replay []).1 = 1 ↔
      (ipsecUpdatereplay cycseq seq (receive cycseq seqs replay []).1).1 = 0) := by
  have hstart : Window replay [] :=
    ⟨hcount, not_mem_nil, nodup_nil, absurd rfl, fun h => absurd rfl h⟩
  rw [length_append] at hlen
  obtain ⟨hwindow, hsame, hle⟩ := receive_window cycseq seqs replay [] hstart hpos hsize
    (by rw [length_nil]; omega)
  rw [length_nil] at hle
  generalize receive cycseq seqs replay [] = r at hwindow hsame hle ⊢
  rw [← hsame] at hpos hsize ⊢
  refine ⟨?_, hwindow.nodup, chkreplay_eq_one_iff ?_ cycseq seq⟩
  · rcases updatereplay_spec hwindow hpos hsize (by omega) cycseq seq with
      ⟨hfresh, replay', heq, -⟩ | ⟨hfresh, heq⟩
    · rw [heq]
      exact iff_of_true rfl hfresh
    · rw [heq]
      exact iff_of_false Nat.one_ne_zero hfresh
  · rw [hwindow.count]
    omega

/-- An unused window of one byte. -/
def oneByte : SecReplay := ⟨0, 1, 0, fun _ => 0#8, 0⟩

/-- After 9, 3 and 9 the window of one byte accepts 8 and does not accept 1. -/
theorem ipsec_replay_oneByte :
    (ipsecUpdatereplay false 8 (receive false [9, 3, 9] oneByte []).1).1 = 0 ∧
    ¬(ipsecUpdatereplay false 1 (receive false [9, 3, 9] oneByte []).1).1 = 0 := by
  have hpos : 0 < oneByte.wsize := by decide
  have hsize : oneByte.wsize < 2 ^ 28 := by decide
  have h := fun seq => ipsec_replay hpos hsize rfl false [9, 3, 9] seq
    (show 4 < 2 ^ 32 - 1 by decide)
  exact ⟨(h 8).1.mpr (by decide), fun hzero => absurd ((h 1).1.mp hzero) (by decide)⟩

end FreeBSDSys.Ipsec
