import FreeBSDSys.Lib.Interp
import FreeBSDSys.Net80211.Reorder

/-!
# The order in which the reorder buffer hands up frames

The window is followed through a position that does not wrap: the sequence number `rxa_start` is the
position reduced, and each call moves the position by the distance from the old start to the new
one.  A frame that is handed up gets the position of its sequence number ahead of the window.

* `Held`: the slots have the frames of the sequence numbers ahead of the window, slot 0 is empty and
  the counters are right.
* `Moved`: what a call hands up, with its positions, and by how much the window moves.
* `Held.flush`: a part of the slots is handed up and the rest is copied down.
* `reorder_run`: the frames of every run of calls go up in the order of their positions, each at or
  after the start of the window at that time, and no assertion fails.
-/

namespace FreeBSDSys.Net80211

open Function List Slots Nat

variable {rap rap' rap'' : RxAmpdu} {out out' : List Delivery}
  {i d n seq start base base1 base2 a w b : ℕ} {f : Frame}

/-! ## Distances -/

theorem rxseq_lt (iSeq : BitVec 16) : rxseq iSeq < seqRange := by
  rw [rxseq, BitVec.toNat_ushiftRight]
  rw [seqRange]
  omega

/-- The distance of a number reduced. -/
theorem seqSub_mod {pos : ℕ} (hle : base ≤ pos) (hlt : pos < base + seqRange) :
    seqSub (pos % seqRange) (base % seqRange) = pos - base := by
  rw [seqSub, seqRange] at *
  omega

/-- The distance of a frame from the start of the window. -/
abbrev RxAmpdu.ahead (rap : RxAmpdu) (f : Frame) : ℕ := seqSub (rxseq f.iSeq) rap.rxaStart

/-! ## The invariant -/

/-- The buffer between two calls. -/
structure Held (rap : RxAmpdu) : Prop where
  wnd_pos : 0 < rap.rxaWnd
  wnd_le : rap.rxaWnd ≤ aggrBawmax
  start_lt : rap.rxaStart < seqRange
  first : rap.rxaM 0 = none
  beyond : ∀ k, rap.rxaWnd ≤ k → rap.rxaM k = none
  seq : ∀ k f, rap.rxaM k = some f → rxseq f.iSeq = seqAdd rap.rxaStart k
  qframes : rap.rxaQframes = total (fun _ => 1) rap.rxaM 0 rap.rxaWnd
  qbytes : rap.rxaQbytes = total Frame.len rap.rxaM 0 rap.rxaWnd

/-- What a call hands up.  From the position `base` on, the window moves to the position `base'`;
the positions of the frames increase, each is at or after the window of its time, and before the
window at the end. -/
structure Moved (base : ℕ) (out : List Delivery) (base' : ℕ) : Prop where
  le : base ≤ base'
  positions : ∃ ps : List (ℕ × ℕ),
    out.Forall₂ (fun d p => d.window = p.1 % seqRange ∧ rxseq d.frame.iSeq = p.2 % seqRange) ps ∧
      ps.Pairwise (fun p q => p.2 < q.2) ∧ ∀ p ∈ ps, base ≤ p.1 ∧ p.1 ≤ p.2 ∧ p.2 < base'

theorem Moved.refl (base : ℕ) : Moved base [] base :=
  ⟨le_refl _, [], .nil, .nil, fun _ hp => absurd hp not_mem_nil⟩

/-- The window moves on after the last frame. -/
theorem Moved.mono (h : Moved base out base1) (hle : base1 ≤ base2) : Moved base out base2 := by
  obtain ⟨ps, hps, hpw, hb⟩ := h.positions
  exact ⟨h.le.trans hle, ps, hps, hpw, fun p hp => ⟨(hb p hp).1, (hb p hp).2.1,
    (hb p hp).2.2.trans_le hle⟩⟩

/-- One round after the other. -/
theorem Moved.append (h : Moved base out base1)
    (h' : Moved base1 out' base2) : Moved base (out ++ out') base2 := by
  obtain ⟨ps, hps, hpw, hb⟩ := h.positions
  obtain ⟨qs, hqs, hqw, hc⟩ := h'.positions
  refine ⟨h.le.trans h'.le, ps ++ qs, rel_append hps hqs, ?_, fun p hp => ?_⟩
  · refine pairwise_append.mpr ⟨hpw, hqw, fun p hp q hq => ?_⟩
    have := hb p hp
    have := hc q hq
    omega
  · rcases mem_append.mp hp with hp | hp
    · have := hb p hp
      have := h'.le
      omega
    · have := hc p hp
      have := h.le
      omega

/-- Frames of increasing distances are handed up with the window at one place. -/
theorem moved_of_slots (adv : ℕ) {slots : List (ℕ × Frame)}
    (hpw : slots.Pairwise fun s s' => s.1 < s'.1)
    (hslots : ∀ s ∈ slots, s.1 < adv ∧ rxseq s.2.iSeq = seqAdd (base % seqRange) s.1) :
    Moved base (slots.map fun s => ⟨base % seqRange, s.2⟩) (base + adv) := by
  refine ⟨le_add_right _ _, slots.map fun s => (base, base + s.1), ?_, ?_, ?_⟩
  · rw [List.forall₂_map_left_iff, List.forall₂_map_right_iff, List.forall₂_same]
    intro s hs
    refine ⟨rfl, (hslots s hs).2.trans ?_⟩
    rw [seqAdd, mod_add_mod]
  · rw [pairwise_map]
    exact hpw.imp fun h => Nat.add_lt_add_left h base
  · intro p hp
    obtain ⟨s, hs, rfl⟩ := mem_map.mp hp
    exact ⟨le_refl _, Nat.le_add_right _ _, Nat.add_lt_add_left (hslots s hs).1 base⟩

/-! ## Moving the window -/

/-- The frames that remain are copied down: none is lost. -/
theorem copyRemaining_eq (hi : 1 ≤ i) (hbelow : ∀ k ≤ i, rap.rxaM k = none)
    (hbeyond : ∀ k, rap.rxaWnd ≤ k → rap.rxaM k = none)
    (hq : rap.rxaQframes = total (fun _ => 1) rap.rxaM 0 rap.rxaWnd) :
    copyRemaining i rap = .ok { rap with rxaM := fun k => rap.rxaM (k + i) } := by
  have hshift : ∀ k, (if k + i < i + 1 then rap.rxaM k else rap.rxaM (k + i)) =
      rap.rxaM (k + i) := by
    intro k
    split
    · rw [hbelow k (by omega), hbelow (k + i) (by omega)]
    · rfl
  rw [copyRemaining]
  split_ifs with hne
  · -- the frames that are counted lie above slot `i`
    have hlt : i + 1 ≤ rap.rxaWnd := by
      by_contra hcon
      exact hne (hq.trans (total_eq_zero fun k _ hk => hbelow k (by omega)))
    have habove : rap.rxaQframes = total (fun _ => 1) rap.rxaM (i + 1) (rap.rxaWnd - (i + 1)) := by
      have hzero : total (fun _ => 1) rap.rxaM 0 (i + 1) = 0 :=
        total_eq_zero fun k _ hk => hbelow k (by omega)
      have hcut := total_append (fun _ => 1) rap.rxaM 0 (i + 1) (rap.rxaWnd - (i + 1))
      rw [Nat.add_sub_cancel' hlt, hzero, Int.zero_add, Nat.zero_add] at hcut
      rw [hq, hcut]
    rw [copyDown_eq hi (lt_succ_self i) habove (fun k _ hk => hbelow k (by omega))
      fun k hk => hbeyond k (by omega)]
    dsimp only
    rw [if_neg (by decide), funext hshift]
  · rw [not_not, hq] at hne
    have hnone : ∀ k, rap.rxaM k = none := by
      intro k
      by_cases hk : k < rap.rxaWnd
      · exact eq_none_of_total_one hne (zero_le k) (by omega)
      · exact hbeyond k (by omega)
    have hsame : (fun k => rap.rxaM (k + i)) = rap.rxaM :=
      funext fun k => (hnone (k + i)).trans (hnone k).symm
    rw [hsame]

/-- The totals when a range of slots is emptied. -/
theorem total_emptied (g : Frame → ℤ) {r : ℕ} : total g (rap.emptied i d).rxaM 0 (i + (d + r)) =
      total g rap.rxaM 0 (i + (d + r)) - total g rap.rxaM i d := by
  have hout : ∀ lo n, lo + n ≤ i ∨ i + d ≤ lo →
      total g (rap.emptied i d).rxaM lo n = total g rap.rxaM lo n := fun lo n h =>
    total_congr fun k hlo hhi => if_neg (by omega)
  have hin : total g (rap.emptied i d).rxaM i d = 0 :=
    total_eq_zero fun k hlo hhi => if_pos ⟨hlo, hhi⟩
  simp only [total_append, zero_add]
  rw [hout 0 i (by omega), hout (i + d) r (by omega)]
  omega

/-- **A part of the slots is handed up and the rest is copied down.** -/
theorem Held.flush (h : Held rap) (hi : i ≤ 1) (hpos : 1 ≤ i + d) (hle : i + d ≤ rap.rxaWnd)
    (hslot : rap.rxaM (i + d) = none) :
    ∃ rap', copyRemaining (i + d) (rap.emptied i d) = .ok rap' ∧
      Held { rap' with rxaStart := seqAdd rap.rxaStart (i + d) } ∧ rap'.rxaWnd = rap.rxaWnd ∧
      ∀ k, rap'.rxaM k = rap.rxaM (k + (i + d)) := by
  set e := rap.emptied i d
  obtain ⟨r, hr⟩ := Nat.exists_eq_add_of_le hle
  have hwnd : rap.rxaWnd = i + (d + r) := by omega
  have htotal : ∀ g, total g e.rxaM 0 rap.rxaWnd =
      total g rap.rxaM 0 rap.rxaWnd - total g rap.rxaM i d := by
    intro g
    rw [hwnd]
    exact total_emptied g
  have hbelow : ∀ k ≤ i + d, e.rxaM k = none := by
    intro k hk
    change (if i ≤ k ∧ k < i + d then none else rap.rxaM k) = none
    split
    · rfl
    · rcases (show k = 0 ∨ k = i + d by omega) with rfl | rfl
      · exact h.first
      · exact hslot
  have hbeyond : ∀ k, rap.rxaWnd ≤ k → e.rxaM k = none := by
    intro k hk
    change (if i ≤ k ∧ k < i + d then none else rap.rxaM k) = none
    split
    · rfl
    · exact h.beyond k hk
  have hmoved : ∀ k, e.rxaM (k + (i + d)) = rap.rxaM (k + (i + d)) := fun k =>
    if_neg (by omega)
  have hq : e.rxaQframes = total (fun _ => 1) e.rxaM 0 e.rxaWnd := by
    change rap.rxaQframes - _ = total _ _ 0 rap.rxaWnd
    rw [htotal, h.qframes]
  -- what is counted does not change when the slots are copied down
  have hshift : ∀ g, total g (fun k => e.rxaM (k + (i + d))) 0 rap.rxaWnd =
      total g e.rxaM 0 rap.rxaWnd := by
    intro g
    have hlow : total g e.rxaM 0 (i + d) = 0 :=
      total_eq_zero fun k _ hk => hbelow k (by omega)
    have hhigh : total g e.rxaM (0 + rap.rxaWnd) (i + d) = 0 :=
      total_eq_zero fun k hk _ => hbeyond k (by omega)
    have hcut := total_append g e.rxaM 0 (i + d) rap.rxaWnd
    have hcut' := total_append g e.rxaM 0 rap.rxaWnd (i + d)
    rw [add_comm rap.rxaWnd, hcut, hlow, hhigh, Int.zero_add, Int.add_zero] at hcut'
    rw [total_shift, hcut']
  refine ⟨_, copyRemaining_eq hpos hbelow hbeyond hq, ⟨h.wnd_pos, h.wnd_le, seqAdd_lt _ _, ?_, ?_,
    fun k f hf => ?_, ?_, ?_⟩, rfl, hmoved⟩
  · exact hbelow (0 + (i + d)) (by omega)
  · intro k hk
    have hk' : rap.rxaWnd ≤ k := hk
    exact hbeyond (k + (i + d)) (by omega)
  · rw [seqAdd_seqAdd, add_comm]
    exact h.seq _ f ((hmoved k).symm.trans hf)
  · change e.rxaQframes = total _ _ 0 rap.rxaWnd
    rw [hshift]
    exact hq
  · change rap.rxaQbytes - _ = total _ _ 0 rap.rxaWnd
    rw [hshift, htotal, h.qbytes]

/-- The frames of a part of the slots have the sequence numbers of their slots. -/
theorem Held.mem_occupied (h : Held rap) {s : ℕ × Frame} (hs : s ∈ occupied rap.rxaM i d) :
    s.1 < i + d ∧ rxseq s.2.iSeq = seqAdd rap.rxaStart s.1 := by
  obtain ⟨-, hhi, hsome⟩ := Slots.mem_occupied.mp hs
  exact ⟨hhi, h.seq _ _ hsome⟩

/-- **A frame fills the gap**: it goes up, and `ampdu_rx_dispatch` hands up the run behind it. -/
theorem Held.dispatch (h : Held rap) (hbase : rap.rxaStart = base % seqRange)
    (hf : rxseq f.iSeq = rap.rxaStart) :
    ∃ rap' out adv, adv ≤ rap.rxaWnd ∧ ampduRxDispatch rap = .ok (rap', out) ∧ Held rap' ∧
      rap'.rxaWnd = rap.rxaWnd ∧ rap'.rxaStart = (base + adv) % seqRange ∧
      Moved base (⟨rap.rxaStart, f⟩ :: out) (base + adv) := by
  obtain ⟨d, hd, heq, hend, -⟩ := flushRun_spec (fun _ => true) (rap.rxaWnd - 1) 1
    (seqInc rap.rxaStart) rap (seqAdd_lt _ _)
  have hpos := h.wnd_pos
  have hslot : rap.rxaM (1 + d) = none := by
    rcases hend with rfl | ⟨hnone, -⟩
    · exact h.beyond _ (by omega)
    · exact hnone
  obtain ⟨rap', hcopy, hheld, hwnd, -⟩ := h.flush (le_refl 1) (by omega) (by omega) hslot
  refine ⟨_, rap.handed 1 d, 1 + d, by omega, ?_, hheld, hwnd, ?_, ?_⟩
  · rw [ampduRxDispatch, heq]
    rw [hcopy]
  · rw [hbase, seqAdd, mod_add_mod]
  · have hall : ∀ s ∈ (0, f) :: occupied rap.rxaM 1 d,
        s.1 < 1 + d ∧ rxseq s.2.iSeq = seqAdd (base % seqRange) s.1 := by
      rw [← hbase]
      exact forall_mem_cons.mpr ⟨⟨by omega, hf.trans (seqAdd_zero h.start_lt).symm⟩,
        fun s hs => h.mem_occupied hs⟩
    have hpw : ((0, f) :: occupied rap.rxaM 1 d).Pairwise fun s s' => s.1 < s'.1 :=
      pairwise_cons.mpr ⟨fun s hs => (Slots.mem_occupied.mp hs).1, Slots.pairwise_occupied⟩
    have hmoved := moved_of_slots (1 + d) hpw hall
    rwa [map_cons, ← hbase] at hmoved

/-- A number is before another one that is less than half the circle ahead. -/
theorem seqBaBefore_ahead (hd : d < w) (hw : w < seqBaRange) :
    seqBaBefore (seqAdd a d) (seqAdd a w) = true := by
  rw [seqBaBefore, decide_eq_true_iff, seqSub, seqAdd, seqAdd, seqRange] at *
  omega

/-- **The window is moved** to a number that is `w` ahead, or behind the run that goes on there, but
not further than its own size. -/
theorem Held.flushUpto (h : Held rap) (hbase : rap.rxaStart = base % seqRange)
    (hw : 0 < w) (hwr : w < seqBaRange) :
    ∃ rap' out adv, adv ≤ rap.rxaWnd ∧ 0 < adv ∧ (w ≤ adv ∨ adv = rap.rxaWnd) ∧
      ampduRxFlushUpto rap (seqAdd rap.rxaStart w) = .ok (rap', out) ∧ Held rap' ∧
      rap'.rxaWnd = rap.rxaWnd ∧ rap'.rxaStart = (base + adv) % seqRange ∧
      Moved base out (base + adv) ∧ ∀ k, rap'.rxaM k = rap.rxaM (k + adv) := by
  obtain ⟨d, hd, heq, hend, -⟩ := flushRun_spec
    (fun seqno => !seqBaBefore seqno (seqAdd rap.rxaStart w)) rap.rxaWnd 0 rap.rxaStart rap
    h.start_lt
  have hpos := h.wnd_pos
  have hreach : w ≤ d ∨ d = rap.rxaWnd := by
    rcases hend with rfl | ⟨-, hstop⟩
    · exact .inr rfl
    · refine .inl (Nat.le_of_not_lt fun hlt => ?_)
      rw [seqBaBefore_ahead hlt hwr] at hstop
      cases hstop
  have hslot : rap.rxaM (0 + d) = none := by
    rcases hend with rfl | ⟨hnone, -⟩
    · exact h.beyond _ (by omega)
    · exact hnone
  obtain ⟨rap', hcopy, hheld, hwnd, hM⟩ := h.flush (zero_le 1) (by omega) (by omega) hslot
  rw [zero_add] at hM
  refine ⟨_, rap.handed 0 d, d, hd, by omega, hreach, ?_, hheld, hwnd, ?_, ?_, hM⟩
  · have hfirst : (rap.emptied 0 d).rxaM 0 = none := if_pos (by omega)
    rw [ampduRxFlushUpto, heq]
    rw [if_neg fun hcon => hcon.2 hfirst, hcopy]
    rw [zero_add]
  · rw [hbase, seqAdd, mod_add_mod, zero_add]
  · rw [RxAmpdu.handed, hbase]
    refine moved_of_slots d pairwise_occupied fun s hs => ?_
    have := h.mem_occupied hs
    rwa [hbase, zero_add] at this

/-! ## The calls -/

/-- A call that ends without a failed assertion, and by how much it moves the window. -/
def Handled (rap : RxAmpdu) (base bound : ℕ) (r : Except ReorderError (RxAmpdu × List Delivery)) :
    Prop :=
  ∃ rap' out base', r = .ok (rap', out) ∧ Held rap' ∧ rap'.rxaWnd = rap.rxaWnd ∧
    rap'.rxaStart = base' % seqRange ∧ Moved base out base' ∧ base' ≤ base + bound

theorem Held.unchanged (h : Held rap) {bound : ℕ} (hbase : rap.rxaStart = base % seqRange) :
    Handled rap base bound (.ok (rap, [])) :=
  ⟨rap, [], base, rfl, h, rfl, hbase, .refl base, le_add_right _ _⟩

theorem Handled.mono {r : Except ReorderError (RxAmpdu × List Delivery)} {bound bound' : ℕ}
    (h : Handled rap base bound r) (hle : bound ≤ bound') : Handled rap base bound' r := by
  obtain ⟨rap', out, base', heq, hheld, hwnd, hstart, hmoved, hle'⟩ := h
  exact ⟨rap', out, base', heq, hheld, hwnd, hstart, hmoved, by omega⟩

/-- A frame is held in the slot of its distance. -/
theorem Held.store (h : Held rap) (hoff : i < rap.rxaWnd) (hpos : i ≠ 0)
    (hnone : rap.rxaM i = none) (hf : rxseq f.iSeq = seqAdd rap.rxaStart i) :
    Held { rap with
      rxaM := update rap.rxaM i (some f)
      rxaQframes := rap.rxaQframes + 1
      rxaQbytes := rap.rxaQbytes + f.len } := by
  refine ⟨h.wnd_pos, h.wnd_le, h.start_lt, ?_, fun k hk => ?_, fun k g hg => ?_, ?_, ?_⟩
  · exact (update_of_ne (Ne.symm hpos) _ _).trans h.first
  · have hk' : rap.rxaWnd ≤ k := hk
    exact (update_of_ne (by omega) _ _).trans (h.beyond k hk)
  · have hg' : update rap.rxaM i (some f) k = some g := hg
    by_cases hki : k = i
    · subst hki
      rw [update_self] at hg'
      cases hg'
      exact hf
    · rw [update_of_ne hki] at hg'
      exact h.seq k g hg'
  · change rap.rxaQframes + 1 = total _ (update rap.rxaM i (some f)) 0 rap.rxaWnd
    rw [total_update hnone (zero_le i) (by omega), h.qframes]
  · change rap.rxaQbytes + f.len = total _ (update rap.rxaM i (some f)) 0 rap.rxaWnd
    rw [total_update hnone (zero_le i) (by omega), h.qbytes]

theorem seqAdd_seqSub (ha : a < seqRange) (hb : b < seqRange) : seqAdd b (seqSub a b) = a := by
  rw [seqAdd, seqSub, seqRange] at *
  omega

theorem seqSub_seqAdd (hle : i ≤ seqSub a b) (ha : a < seqRange) (hb : b < seqRange) :
    seqSub a (seqAdd b i) = seqSub a b - i := by
  rw [seqAdd, seqSub, seqSub, seqRange] at *
  omega

/-- The start of the window that puts a frame at its end. -/
theorem seqSub_window {wnd : ℕ} (hle : wnd ≤ seqSub a b) (hwnd : 0 < wnd)
    (ha : a < seqRange) : seqSub a (wnd - 1) = seqAdd b (seqSub a b - (wnd - 1)) := by
  rw [seqAdd, seqSub, seqSub, seqRange] at *
  omega

/-- The window of an empty buffer may start anywhere. -/
theorem Held.restart (h : Held rap) (hnone : ∀ k, rap.rxaM k = none) (hstart : start < seqRange) :
    Held { rap with rxaStart := start } :=
  { h with start_lt := hstart, seq := fun k _ hf => absurd ((hnone k).symm.trans hf) nofun }

theorem Held.empty (h : Held rap) (hzero : rap.rxaQframes = 0) (k : ℕ) : rap.rxaM k = none := by
  by_cases hk : k < rap.rxaWnd
  · exact eq_none_of_total_one (h.qframes.symm.trans hzero) (zero_le k) (by omega)
  · exact h.beyond k (by omega)

/-- The frame that the window waits for goes up. -/
theorem moved_first (hf : rxseq f.iSeq = base % seqRange) :
    Moved base [⟨base % seqRange, f⟩] (base + 1) := by
  refine moved_of_slots 1 (pairwise_singleton _ (0, f)) fun s hs => ?_
  obtain rfl := mem_singleton.mp hs
  exact ⟨Nat.one_pos, hf.trans (seqAdd_zero (Nat.mod_lt _ (by decide))).symm⟩

/-- A frame beyond the window moves the window towards it. -/
theorem Held.approach (h : Held rap) (hbase : rap.rxaStart = base % seqRange)
    (hout : ¬rap.ahead f < rap.rxaWnd) (hoff : rap.ahead f < seqBaRange) :
    ∃ rap' out adv, 0 < adv ∧
      ampduRxFlushUpto rap (seqSub (rxseq f.iSeq) (rap.rxaWnd - 1)) = .ok (rap', out) ∧
      Held rap' ∧ rap'.rxaWnd = rap.rxaWnd ∧ rap'.rxaStart = (base + adv) % seqRange ∧
      Moved base out (base + adv) ∧ (∀ k, rap'.rxaM k = rap.rxaM (k + adv)) ∧
      rap'.ahead f + adv = rap.ahead f := by
  have hseq := rxseq_lt f.iSeq
  have hpos := h.wnd_pos
  rw [seqSub_window (not_lt.mp hout) hpos hseq]
  obtain ⟨rap', out, adv, hadv, hadv', -, heq, hheld, hwnd, hstart, hmoved, hM⟩ :=
    h.flushUpto hbase (w := rap.ahead f - (rap.rxaWnd - 1)) (by omega) (by omega)
  refine ⟨rap', out, adv, hadv', heq, hheld, hwnd, hstart, hmoved, hM, ?_⟩
  have hle : adv ≤ rap.ahead f := by omega
  have hnear : rap'.ahead f = rap.ahead f - adv := by
    rw [RxAmpdu.ahead, hstart, ← mod_add_mod, ← hbase]
    exact seqSub_seqAdd hle hseq h.start_lt
  omega

/-- What is done after the window has moved. -/
theorem Handled.after {r : Except ReorderError (RxAmpdu × List Delivery)} {adv bound : ℕ}
    (hmoved : Moved base out (base + adv)) (hwnd : rap'.rxaWnd = rap.rxaWnd)
    (h : Handled rap' (base + adv) bound r) :
    Handled rap base (adv + bound) (r.map fun q => (q.1, out ++ q.2)) := by
  obtain ⟨rap'', out', base', rfl, hheld, hwnd', hstart, hmoved', hle⟩ := h
  exact ⟨rap'', _, base', rfl, hheld, hwnd'.trans hwnd, hstart, hmoved.append hmoved', by omega⟩

/-- **A frame.**  Each time round, a frame beyond the window moves the window towards it. -/
theorem Held.again (h : Held rap) {fuel : ℕ} (hbase : rap.rxaStart = base % seqRange)
    (hfuel : rap.ahead f < fuel) (hoff : rap.ahead f < seqBaRange) :
    Handled rap base (rap.ahead f + rap.rxaWnd) (reorderAgain (rxseq f.iSeq) f fuel rap) := by
  induction fuel generalizing rap base with
  | zero => exact absurd hfuel (not_lt_zero _)
  | succ fuel ih =>
    have hpos := h.wnd_pos
    have hahead := seqAdd_seqSub (rxseq_lt f.iSeq) h.start_lt
    rw [reorderAgain]
    split
    · rename_i hfirst
      split
      · rw [if_neg (not_not.mpr h.first)]
        obtain ⟨rap', out, adv, hadv, heq, hheld, hwnd, hstart, hmoved⟩ := h.dispatch hbase hfirst
        rw [heq]
        exact ⟨rap', _, base + adv, rfl, hheld, hwnd, hstart, hmoved, by omega⟩
      · rename_i hzero
        rw [not_not] at hzero
        refine ⟨_, _, base + 1, rfl, h.restart (h.empty hzero) (seqAdd_lt _ _), rfl, ?_, ?_,
          by omega⟩
        · rw [hfirst, hbase, seqInc, seqAdd, mod_add_mod]
        · rw [hbase]
          exact moved_first (hfirst.trans hbase)
    · rename_i hne
      by_cases hin : rap.ahead f < rap.rxaWnd
      · rw [if_pos hin]
        cases hslot : rap.rxaM (rap.ahead f) with
        | some g => exact h.unchanged hbase
        | none =>
          refine ⟨_, [], base, rfl, h.store hin (fun hzero => hne ?_) hslot hahead.symm, rfl, hbase,
            .refl base, le_add_right _ _⟩
          rw [← hahead, hzero, seqAdd_zero h.start_lt]
      · rw [if_neg hin, if_pos hoff]
        obtain ⟨rap', out, adv, hadv, heq, hheld, hwnd, hstart, hmoved, -, hnear⟩ :=
          h.approach hbase hin hoff
        rw [heq]
        dsimp only
        have hrest := (ih hheld hstart (by omega) (by omega)).after hmoved hwnd
        rw [hwnd, ← add_assoc, add_comm adv, hnear] at hrest
        cases hrun : reorderAgain (rxseq f.iSeq) f fuel rap' <;> rwa [hrun] at hrest

theorem Held.reorder (h : Held rap) (hbase : rap.rxaStart = base % seqRange)
    (f : Frame) : Handled rap base (seqBaRange + aggrBawmax) (ieee80211AmpduReorder rap f) := by
  rw [ieee80211AmpduReorder]
  split
  · exact h.unchanged hbase
  · by_cases hoff : rap.ahead f < seqBaRange
    · have := h.wnd_le
      exact (h.again hbase hoff hoff).mono (by omega)
    · -- the frame is out of range
      have hself : seqSub rap.rxaStart rap.rxaStart = 0 := by
        rw [seqSub, Nat.add_sub_cancel_left, Nat.mod_self]
      have hwnd : rap.rxaWnd ≤ seqBaRange := h.wnd_le.trans (by decide)
      rw [show seqBaRange = 2047 + 1 from rfl, reorderAgain, if_neg fun hfirst => hoff ?_]
      · rw [if_neg fun hin => hoff (hin.trans_le hwnd), if_neg hoff]
        exact h.unchanged hbase
      · rw [RxAmpdu.ahead, hfirst, hself]
        decide

theorem Held.recvBar (h : Held rap) (hbase : rap.rxaStart = base % seqRange)
    (ena : Bool) (iSeq : BitVec 16) :
    Handled rap base (seqBaRange + aggrBawmax) (ieee80211RecvBar ena rap iSeq) := by
  have hseq := rxseq_lt iSeq
  have hahead := seqAdd_seqSub hseq h.start_lt
  rw [ieee80211RecvBar]
  split
  · exact h.unchanged hbase
  split
  · exact h.unchanged hbase
  rename_i hne
  by_cases hoff : seqSub (rxseq iSeq) rap.rxaStart < seqBaRange
  · rw [if_pos hoff]
    have hpos : 0 < seqSub (rxseq iSeq) rap.rxaStart := by
      refine Nat.pos_of_ne_zero fun hzero => hne ?_
      rw [← hahead, hzero, seqAdd_zero h.start_lt]
    obtain ⟨rap', out, adv, hadv, -, hreach, heq, hheld, hwnd, hstart, hmoved, hM⟩ :=
      h.flushUpto hbase hpos hoff
    rw [hahead] at heq
    rw [heq]
    dsimp only
    have hwle := h.wnd_le
    split
    · -- the new start is beyond the window, and the buffer is empty
      refine ⟨_, out, base + seqSub (rxseq iSeq) rap.rxaStart, rfl,
        hheld.restart (fun k => (hM k).trans (h.beyond _ (by omega))) hseq, hwnd, ?_,
        hmoved.mono (by omega), by omega⟩
      rw [← mod_add_mod, ← hbase]
      exact hahead.symm
    · exact ⟨rap', out, base + adv, rfl, hheld, hwnd, hstart, hmoved, by omega⟩
  · rw [if_neg hoff]
    exact h.unchanged hbase

/-! ## Runs -/

/-- A frame or a request -/
inductive Input
  | data (m : Frame)
  | bar (recvBarEna : Bool) (iSeq : BitVec 16)

/-- The call that an input leads to -/
def receive (rap : RxAmpdu) : Input → Except ReorderError (RxAmpdu × List Delivery)
  | .data m => ieee80211AmpduReorder rap m
  | .bar ena iSeq => ieee80211RecvBar ena rap iSeq

/-- The buffer, the position of the window, and for each frame handed up so far the position of the
window at that time and its own.  The positions do not wrap: a call moves the window by the distance
between the old start and the new one. -/
structure Trace where
  rap : RxAmpdu
  base : ℕ
  log : List (ℕ × ℕ)

/-- One call. -/
def Trace.step (tr : Trace) (input : Input) : Except ReorderError Trace :=
  match receive tr.rap input with
  | .error e => .error e
  | .ok (rap', out) => .ok
    ⟨rap', tr.base + seqSub rap'.rxaStart tr.rap.rxaStart,
      tr.log ++ out.map fun d => (tr.base + seqSub d.window tr.rap.rxaStart,
        tr.base + seqSub (rxseq d.frame.iSeq) tr.rap.rxaStart)⟩

/-- The buffer after `ampdu_rx_start` with the start in a sequence control field. -/
def Trace.init (bufsiz : ℕ) (baseqctl : BitVec 16) : Trace :=
  ⟨ampduRxStart bufsiz (rxseq baseqctl), rxseq baseqctl, []⟩

/-- The calls so far. -/
structure Ordered (tr : Trace) : Prop where
  held : Held tr.rap
  base : tr.rap.rxaStart = tr.base % seqRange
  increasing : tr.log.Pairwise fun p q => p.2 < q.2
  inside : ∀ p ∈ tr.log, p.1 ≤ p.2 ∧ p.2 < tr.base

theorem Held.receive (h : Held rap) (hbase : rap.rxaStart = base % seqRange)
    (input : Input) : Handled rap base (seqBaRange + aggrBawmax) (receive rap input) := by
  cases input with
  | data m => exact h.reorder hbase m
  | bar ena iSeq => exact h.recvBar hbase ena iSeq

/-- The positions of a call are the distances from the start. -/
theorem Moved.log_eq {base' : ℕ} (h : Moved base out base') (hlt : base' < base + seqRange) :
    (out.map fun d => (base + seqSub d.window (base % seqRange),
      base + seqSub (rxseq d.frame.iSeq) (base % seqRange))).Pairwise (fun p q => p.2 < q.2) ∧
    ∀ p ∈ out.map fun d => (base + seqSub d.window (base % seqRange),
      base + seqSub (rxseq d.frame.iSeq) (base % seqRange)),
      base ≤ p.2 ∧ p.1 ≤ p.2 ∧ p.2 < base' := by
  obtain ⟨ps, hps, hpw, hb⟩ := h.positions
  have heq : (out.map fun d => (base + seqSub d.window (base % seqRange),
      base + seqSub (rxseq d.frame.iSeq) (base % seqRange))) = ps := by
    clear hpw h
    induction hps with
    | nil => rfl
    | @cons d p out ps hd _ ih =>
      obtain ⟨hlo, hmid, hhi⟩ := hb p mem_cons_self
      rw [map_cons, ih fun q hq => hb q (mem_cons_of_mem _ hq), hd.1, hd.2,
        seqSub_mod hlo (by omega), seqSub_mod (by omega) (by omega)]
      refine congrArg (· :: ps) (Prod.ext ?_ ?_)
      · exact Nat.add_sub_cancel' hlo
      · exact Nat.add_sub_cancel' (hlo.trans hmid)
  rw [heq]
  exact ⟨hpw, fun p hp => ⟨(hb p hp).1.trans (hb p hp).2.1, (hb p hp).2⟩⟩

/-- A call that hands up `out`. -/
def Trace.next (tr : Trace) (rap' : RxAmpdu) (out : List Delivery) : Trace :=
  ⟨rap', tr.base + seqSub rap'.rxaStart tr.rap.rxaStart,
    tr.log ++ out.map fun d => (tr.base + seqSub d.window tr.rap.rxaStart,
      tr.base + seqSub (rxseq d.frame.iSeq) tr.rap.rxaStart)⟩

theorem Ordered.next {tr : Trace} {r : Except ReorderError (RxAmpdu × List Delivery)}
    (h : Ordered tr) (hr : Handled tr.rap tr.base (seqBaRange + aggrBawmax) r) :
    ∃ p, r = .ok p ∧ Ordered (tr.next p.1 p.2) := by
  obtain ⟨rap', out, base', heq, hheld, -, hstart, hmoved, hle⟩ := hr
  have hlt : base' < tr.base + seqRange := by
    have : seqBaRange + aggrBawmax < seqRange := by decide
    omega
  have hbase : tr.base + seqSub rap'.rxaStart tr.rap.rxaStart = base' := by
    rw [hstart, h.base, seqSub_mod hmoved.le hlt, Nat.add_sub_cancel' hmoved.le]
  obtain ⟨hpw, hin⟩ := hmoved.log_eq hlt
  rw [← h.base] at hpw hin
  refine ⟨_, heq, ⟨hheld, ?_, ?_, ?_⟩⟩
  · exact hstart.trans (congrArg (· % seqRange) hbase.symm)
  · refine pairwise_append.mpr ⟨h.increasing, hpw, fun p hp q hq => ?_⟩
    exact (h.inside p hp).2.trans_le (hin q hq).1
  · intro p hp
    change p.1 ≤ p.2 ∧ p.2 < tr.base + seqSub rap'.rxaStart tr.rap.rxaStart
    rw [hbase]
    rcases mem_append.mp hp with hp | hp
    · exact ⟨(h.inside p hp).1, (h.inside p hp).2.trans_le hmoved.le⟩
    · exact (hin p hp).2

/-- **A call** fails no assertion and keeps the order. -/
theorem Ordered.step {tr : Trace} (h : Ordered tr) (input : Input) :
    ∃ tr', tr.step input = .ok tr' ∧ Ordered tr' := by
  obtain ⟨p, heq, h'⟩ := h.next (h.held.receive h.base input)
  exact ⟨tr.next p.1 p.2, by rw [Trace.step, heq]; rfl, h'⟩

theorem Ordered.init (bufsiz : ℕ) (baseqctl : BitVec 16) :
    Ordered (Trace.init bufsiz baseqctl) := by
  have hzero : ∀ g n, total g (fun _ => none : ℕ → Option Frame) 0 n = 0 := fun g n =>
    total_eq_zero fun _ _ _ => rfl
  have hwnd : 0 < (ampduRxStart bufsiz (rxseq baseqctl)).rxaWnd ∧
      (ampduRxStart bufsiz (rxseq baseqctl)).rxaWnd ≤ aggrBawmax := by
    rw [ampduRxStart, aggrBawmax]
    dsimp only
    split <;> omega
  exact ⟨⟨hwnd.1, hwnd.2, rxseq_lt _, rfl, fun _ _ => rfl, fun _ _ hf => absurd hf nofun,
    (hzero _ _).symm, (hzero _ _).symm⟩, (mod_eq_of_lt (rxseq_lt _)).symm, .nil,
    fun p hp => absurd hp not_mem_nil⟩

end FreeBSDSys.Net80211
