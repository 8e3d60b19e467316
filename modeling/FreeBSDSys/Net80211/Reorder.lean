import FreeBSDSys.Lib.Slots

/-!
# The reorder buffer of aggregated frames

Frames of one traffic identifier carry 12-bit sequence numbers.  The receiver keeps a window of
them: `rxa_start` is the sequence number it waits for, and a frame that is ahead of it by less than
the size of the window is held in the slot of its distance.  Three functions move the window by
copying the slots down: a frame that fills the gap, a frame beyond the window, and a request of the
sender.

* `ampduRxDispatch`, `ampduRxFlushUpto`: the functions that move the window.
* `ieee80211AmpduReorder`, `ieee80211RecvBar`: a frame and a request.
* `copyDown_eq`: the loop that copies the slots down does so.
* `flushRun_spec`: the loop that hands up the frames of the slots.
-/

namespace FreeBSDSys.Net80211

open Function Slots Nat

/-! ## The source -/

/-- `IEEE80211_AGGR_BAWMAX` -/
def aggrBawmax : ℕ := 64

/-- `IEEE80211_SEQ_RANGE` -/
def seqRange : ℕ := 4096

/-- `IEEE80211_SEQ_BA_RANGE` -/
def seqBaRange : ℕ := 2048

/-- `IEEE80211_SEQ_ADD` -/
def seqAdd (seq incr : ℕ) : ℕ := (seq + incr) % seqRange

/-- `IEEE80211_SEQ_INC` -/
def seqInc (seq : ℕ) : ℕ := seqAdd seq 1

/-- `IEEE80211_SEQ_SUB` -/
def seqSub (a b : ℕ) : ℕ := (a + seqRange - b) % seqRange

/-- `IEEE80211_SEQ_BA_BEFORE` -/
def seqBaBefore (a b : ℕ) : Bool := seqSub b (a + 1) < seqBaRange - 1

/-- A frame: the sequence control field and the length -/
structure Frame where
  iSeq : BitVec 16
  len : ℤ
  deriving DecidableEq

/-- The sequence number of a sequence control field -/
def rxseq (iSeq : BitVec 16) : ℕ := (iSeq >>> 4).toNat

/-- `struct ieee80211_rx_ampdu` -/
structure RxAmpdu where
  rxaQbytes : ℤ
  rxaQframes : ℤ
  rxaStart : ℕ
  rxaWnd : ℕ
  rxaM : ℕ → Option Frame

/-- The assertions of the functions, and a `goto again` that is taken for ever -/
inductive ReorderError
  | lostFrames
  | unexpectedDup
  | slotOccupied
  | endless
  deriving DecidableEq

/-- A frame that is handed up, with `rxa_start` at that time -/
structure Delivery where
  window : ℕ
  frame : Frame
  deriving DecidableEq

/-- `ampdu_rx_start` -/
def ampduRxStart (bufsiz start : ℕ) : RxAmpdu :=
  ⟨0, 0, start, if bufsiz = 0 then aggrBawmax else min bufsiz aggrBawmax, fun _ => none⟩

/-- What the loop over the slots leaves -/
structure Flushed where
  i : ℕ
  seqno : ℕ
  rap : RxAmpdu
  out : List Delivery

/-- The loop that hands up the frames of the slots from `i` on: `stop` says whether it ends at an
empty slot -/
def flushRun (stop : ℕ → Bool) : ℕ → ℕ → ℕ → RxAmpdu → Flushed
  | 0, i, seqno, rap => ⟨i, seqno, rap, []⟩
  | n + 1, i, seqno, rap =>
    match rap.rxaM i with
    | some m =>
      let r := flushRun stop n (i + 1) (seqInc seqno)
        { rap with
          rxaM := update rap.rxaM i none
          rxaQbytes := rap.rxaQbytes - m.len
          rxaQframes := rap.rxaQframes - 1 }
      { r with out := ⟨rap.rxaStart, m⟩ :: r.out }
    | none =>
      if stop seqno then ⟨i, seqno, rap, []⟩ else flushRun stop n (i + 1) (seqInc seqno) rap

/-- The loop that copies the slots down by `i`, until `n` frames are copied -/
def copyDown (i : ℕ) : ℕ → ℕ → ℤ → (ℕ → Option Frame) → ℤ × (ℕ → Option Frame)
  | 0, _, n, rxaM => (n, rxaM)
  | fuel + 1, j, n, rxaM =>
    match rxaM j with
    | some m =>
      let rxaM := update (update rxaM (j - i) (some m)) j none
      if n - 1 = 0 then (n - 1, rxaM) else copyDown i fuel (j + 1) (n - 1) rxaM
    | none => copyDown i fuel (j + 1) n rxaM

/-- The frames that remain are copied down -/
def copyRemaining (i : ℕ) (rap : RxAmpdu) : Except ReorderError RxAmpdu :=
  if rap.rxaQframes ≠ 0 then
    let r := copyDown i (rap.rxaWnd - (i + 1)) (i + 1) rap.rxaQframes rap.rxaM
    if r.1 ≠ 0 then .error .lostFrames else .ok { rap with rxaM := r.2 }
  else .ok rap

/-- `ampdu_rx_dispatch` -/
def ampduRxDispatch (rap : RxAmpdu) : Except ReorderError (RxAmpdu × List Delivery) :=
  let r := flushRun (fun _ => true) (rap.rxaWnd - 1) 1 (seqInc rap.rxaStart) rap
  match copyRemaining r.i r.rap with
  | .error e => .error e
  | .ok rap' => .ok ({ rap' with rxaStart := seqAdd rap.rxaStart r.i }, r.out)

/-- `ampdu_rx_flush_upto` -/
def ampduRxFlushUpto (rap : RxAmpdu) (winstart : ℕ) :
    Except ReorderError (RxAmpdu × List Delivery) :=
  let r := flushRun (fun seqno => !seqBaBefore seqno winstart) rap.rxaWnd 0 rap.rxaStart rap
  if r.rap.rxaQframes ≠ 0 ∧ r.rap.rxaM 0 ≠ none then .error .slotOccupied
  else
    match copyRemaining r.i r.rap with
    | .error e => .error e
    | .ok rap' => .ok ({ rap' with rxaStart := r.seqno }, r.out)

/-- `ieee80211_ampdu_reorder` from the label `again` on -/
def reorderAgain (rxseq : ℕ) (m : Frame) :
    ℕ → RxAmpdu → Except ReorderError (RxAmpdu × List Delivery)
  | 0, _ => .error .endless
  | fuel + 1, rap =>
    if rxseq = rap.rxaStart then
      if rap.rxaQframes ≠ 0 then
        if rap.rxaM 0 ≠ none then .error .unexpectedDup
        else
          match ampduRxDispatch rap with
          | .error e => .error e
          | .ok (rap', out) => .ok (rap', ⟨rap.rxaStart, m⟩ :: out)
      else .ok ({ rap with rxaStart := seqInc rxseq }, [⟨rap.rxaStart, m⟩])
    else
      let off := seqSub rxseq rap.rxaStart
      if off < rap.rxaWnd then
        match rap.rxaM off with
        | none =>
          .ok ({ rap with
            rxaM := update rap.rxaM off (some m)
            rxaQframes := rap.rxaQframes + 1
            rxaQbytes := rap.rxaQbytes + m.len }, [])
        | some _ => .ok (rap, [])
      else if off < seqBaRange then
        match ampduRxFlushUpto rap (seqSub rxseq (rap.rxaWnd - 1)) with
        | .error e => .error e
        | .ok (rap', out) =>
          match reorderAgain rxseq m fuel rap' with
          | .error e => .error e
          | .ok (rap'', out') => .ok (rap'', out ++ out')
      else .ok (rap, [])

/-- `ieee80211_ampdu_reorder`: a fragment is tossed -/
def ieee80211AmpduReorder (rap : RxAmpdu) (m : Frame) :
    Except ReorderError (RxAmpdu × List Delivery) :=
  if m.iSeq &&& 0x000f#16 ≠ 0 then .ok (rap, [])
  else reorderAgain (rxseq m.iSeq) m seqBaRange rap

/-- `ieee80211_recv_bar` -/
def ieee80211RecvBar (recvBarEna : Bool) (rap : RxAmpdu) (iSeq : BitVec 16) :
    Except ReorderError (RxAmpdu × List Delivery) :=
  if !recvBarEna then .ok (rap, [])
  else if rxseq iSeq = rap.rxaStart then .ok (rap, [])
  else
    let off := seqSub (rxseq iSeq) rap.rxaStart
    if off < seqBaRange then
      match ampduRxFlushUpto rap (rxseq iSeq) with
      | .error e => .error e
      | .ok (rap', out) =>
        if off ≥ rap.rxaWnd then .ok ({ rap' with rxaStart := rxseq iSeq }, out)
        else .ok (rap', out)
    else .ok (rap, [])

open RxAmpdu

/-! ## The loops -/

section Loops

variable {m : ℕ → Option Frame} {rap : RxAmpdu} {stop : ℕ → Bool} {fuel i j n seqno d : ℕ}
  {f : Frame}

theorem seqAdd_zero (h : seqno < seqRange) : seqAdd seqno 0 = seqno := mod_eq_of_lt h

theorem seqAdd_lt (seq incr : ℕ) : seqAdd seq incr < seqRange := mod_lt _ (by decide)

theorem seqAdd_seqAdd (seq a b : ℕ) : seqAdd (seqAdd seq a) b = seqAdd seq (a + b) := by
  rw [seqAdd, seqAdd, seqAdd, mod_add_mod, add_assoc]

theorem copyDown_none {left : ℤ} (h : ∀ k, j ≤ k → k < j + fuel → m k = none) :
    copyDown i fuel j left m = (left, m) := by
  induction fuel generalizing j with
  | zero => rfl
  | succ fuel ih =>
    rw [copyDown, h j (Nat.le_refl j) (by omega)]
    exact ih fun k hk hkf => h k (by omega) (by omega)

/-- **The slots are copied down.**  The slots that are copied to are empty, and the count says how
many frames there are; the loop may end early, when it has copied the last one. -/
theorem copyDown_eq {left : ℤ} (hi : 1 ≤ i) (hij : i < j)
    (hleft : left = total (fun _ => 1) m j fuel)
    (hgap : ∀ k, j ≤ k + i → k < j → m k = none) (hend : ∀ k, j + fuel ≤ k → m k = none) :
    copyDown i fuel j left m = (0, fun k => if k + i < j then m k else m (k + i)) := by
  induction fuel generalizing j left m with
  | zero =>
    have hall : ∀ k, j ≤ k + i → m k = none ∧ m (k + i) = none := by
      intro k hk
      refine ⟨?_, hend _ hk⟩
      by_cases hkj : k < j
      · exact hgap k hk hkj
      · exact hend k (by omega)
    refine Prod.ext hleft (funext fun k => ?_)
    change m k = if k + i < j then m k else m (k + i)
    split
    · rfl
    · rw [(hall k (by omega)).1, (hall k (by omega)).2]
  | succ fuel ih =>
    rw [copyDown]
    cases hm : m j with
    | none =>
      rw [total_none hm] at hleft
      rw [ih (by omega) hleft (fun k hk hkj => ?_) fun k hk => hend k (by omega)]
      · refine Prod.ext rfl (funext fun k => ?_)
        change (if k + i < j + 1 then m k else m (k + i)) = if k + i < j then m k else m (k + i)
        by_cases hk : k + i = j
        · rw [if_pos (by omega), if_neg (by omega), hk, hm]
          exact hgap k (by omega) (by omega)
        · by_cases hlt : k + i < j
          · rw [if_pos (by omega), if_pos hlt]
          · rw [if_neg (by omega), if_neg hlt]
      · by_cases hkj' : k = j
        · rw [hkj', hm]
        · exact hgap k (by omega) (by omega)
    | some f =>
      rw [total_some hm] at hleft
      -- the slots after the copy of the frame at `j`
      change (if left - 1 = 0 then (left - 1, _) else copyDown i fuel (j + 1) (left - 1)
        (update (update m (j - i) (some f)) j none)) = _
      generalize hm' : update (update m (j - i) (some f)) j none = m'
      have hcopy : ∀ k, m' k = if k = j then none else if k = j - i then some f else m k := by
        intro k
        rw [← hm', update_apply, update_apply]
      have hrest : total (fun _ => 1) m' (j + 1) fuel = total (fun _ => 1) m (j + 1) fuel :=
        total_congr fun k hk _ => by rw [hcopy, if_neg (by omega), if_neg (by omega)]
      have hvalue : ∀ k, (if k + i < j + 1 then m' k else m' (k + i)) =
          if k + i < j then m k else m (k + i) := by
        intro k
        rcases Nat.lt_trichotomy (k + i) j with hlt | heq | hgt
        · rw [if_pos (by omega), if_pos hlt, hcopy, if_neg (by omega), if_neg (by omega)]
        · rw [if_pos (by omega), if_neg (by omega), hcopy, if_neg (by omega), if_pos (by omega),
            heq, hm]
        · rw [if_neg (by omega), if_neg (by omega), hcopy, if_neg (by omega), if_neg (by omega)]
      have hgap' : ∀ k, j + 1 ≤ k + i → k < j + 1 → m' k = none := by
        intro k hk hkj
        rw [hcopy]
        by_cases hkj' : k = j
        · rw [if_pos hkj']
        · rw [if_neg hkj', if_neg (by omega)]
          exact hgap k (by omega) (by omega)
      have hleft' : left - 1 = total (fun _ => 1) m' (j + 1) fuel := by omega
      have hloop := ih (by omega) hleft' hgap' fun k hk => by
        rw [hcopy, if_neg (by omega), if_neg (by omega)]
        exact hend k (by omega)
      rw [funext hvalue] at hloop
      rw [← hloop]
      split
      · -- no frame is left behind the one just copied
        exact (copyDown_none fun _ => eq_none_of_total_one (by omega)).symm
      · rfl

/-- The slots from `i` to `i + d` are emptied, and their frames handed up. -/
def RxAmpdu.emptied (rap : RxAmpdu) (i d : ℕ) : RxAmpdu :=
  { rap with
    rxaM := fun k => if i ≤ k ∧ k < i + d then none else rap.rxaM k
    rxaQbytes := rap.rxaQbytes - total Frame.len rap.rxaM i d
    rxaQframes := rap.rxaQframes - total (fun _ => 1) rap.rxaM i d }

/-- The frames of a range of slots, as they are handed up. -/
def RxAmpdu.handed (rap : RxAmpdu) (i d : ℕ) : List Delivery :=
  (occupied rap.rxaM i d).map fun s => ⟨rap.rxaStart, s.2⟩

theorem emptied_zero : rap.emptied i 0 = rap := by
  have hM : (fun k => if i ≤ k ∧ k < i + 0 then none else rap.rxaM k) = rap.rxaM :=
    funext fun k => if_neg (by omega)
  rw [emptied, hM, total_eq_zero fun k _ _ => by omega,
    total_eq_zero fun k _ _ => by omega, Int.sub_zero, Int.sub_zero]

/-- The slots at the front of the range are emptied one at a time. -/
theorem emptied_slots (m : ℕ → Option Frame) (i d : ℕ) :
    (fun k => if i + 1 ≤ k ∧ k < i + 1 + d then none else update m i none k) =
      fun k => if i ≤ k ∧ k < i + (d + 1) then none else m k := by
  funext k
  by_cases hk : k = i
  · subst hk
    rw [if_neg (by omega), if_pos (by omega), update_self]
  · rw [update_of_ne hk]
    exact if_congr (by omega) rfl rfl

theorem emptied_succ_some (h : rap.rxaM i = some f) : emptied { rap with
      rxaM := update rap.rxaM i none
      rxaQbytes := rap.rxaQbytes - f.len
      rxaQframes := rap.rxaQframes - 1 } (i + 1) d = rap.emptied i (d + 1) := by
  have hsame : ∀ g, total g (update rap.rxaM i none) (i + 1) d =
      total g rap.rxaM (i + 1) d := fun g =>
    total_congr fun k hk _ => update_of_ne (by omega) _ _
  rw [emptied, emptied, total_some h, total_some h]
  rw [emptied_slots, hsame, hsame, Int.sub_sub, Int.sub_sub]

theorem handed_succ_some {bytes frames : ℤ} (h : rap.rxaM i = some f) :
    ⟨rap.rxaStart, f⟩ :: handed { rap with
      rxaM := update rap.rxaM i none
      rxaQbytes := bytes
      rxaQframes := frames } (i + 1) d = rap.handed i (d + 1) := by
  have hsame : occupied (update rap.rxaM i none) (i + 1) d = occupied rap.rxaM (i + 1) d :=
    occupied_congr fun k hk _ => update_of_ne (by omega) _ _
  rw [handed, handed, occupied_some h, hsame, List.map_cons]

theorem emptied_succ_none (h : rap.rxaM i = none) :
    rap.emptied (i + 1) d = rap.emptied i (d + 1) := by
  rw [emptied, emptied, ← emptied_slots, ← h, update_eq_self, total_none h, total_none h]

/-- **The loop over the slots** hands up the frames of the slots it passes.  It passes an empty slot
only if it need not stop there, and ends at the last slot or at an empty one. -/
theorem flushRun_spec (stop : ℕ → Bool) (n i seqno : ℕ) (rap : RxAmpdu) (hseq : seqno < seqRange) :
    ∃ d ≤ n, flushRun stop n i seqno rap =
        ⟨i + d, seqAdd seqno d, rap.emptied i d, rap.handed i d⟩ ∧
      (d = n ∨ rap.rxaM (i + d) = none ∧ stop (seqAdd seqno d) = true) ∧
      ∀ e < d, rap.rxaM (i + e) = none → stop (seqAdd seqno e) = false := by
  induction n generalizing i seqno rap with
  | zero =>
    refine ⟨0, Nat.le_refl 0, ?_, .inl rfl, fun e he => absurd he (Nat.not_lt_zero e)⟩
    rw [emptied_zero, seqAdd_zero hseq]
    rfl
  | succ n ih =>
    have hinc : ∀ e, seqAdd (seqInc seqno) e = seqAdd seqno (e + 1) := by
      intro e
      rw [seqInc, seqAdd_seqAdd, add_comm]
    have hi : ∀ e, i + 1 + e = i + (e + 1) := by
      intro e
      omega
    rw [flushRun]
    cases hm : rap.rxaM i with
    | some f =>
      obtain ⟨d, hd, heq, hend, hpass⟩ := ih (i + 1) (seqInc seqno)
        { rap with
          rxaM := update rap.rxaM i none
          rxaQbytes := rap.rxaQbytes - f.len
          rxaQframes := rap.rxaQframes - 1 } (seqAdd_lt _ _)
      have hslot : ∀ e, update rap.rxaM i none (i + 1 + e) = rap.rxaM (i + (e + 1)) := by
        intro e
        rw [hi, update_of_ne (by omega)]
      refine ⟨d + 1, by omega, ?_, ?_, fun e he hnone => ?_⟩
      · dsimp only
        rw [heq, emptied_succ_some hm, hinc, hi]
        rw [handed_succ_some hm]
      · rcases hend with rfl | ⟨hnone, hstop⟩
        · exact .inl rfl
        · rw [hinc] at hstop
          exact .inr ⟨(hslot d).symm.trans hnone, hstop⟩
      · cases e with
        | zero => exact absurd (hm.symm.trans hnone) nofun
        | succ e =>
          rw [← hinc]
          exact hpass e (by omega) ((hslot e).trans hnone)
    | none =>
      by_cases hstop : stop seqno = true
      · refine ⟨0, zero_le _, ?_, .inr ⟨hm, ?_⟩, fun e he => absurd he (not_lt_zero e)⟩
        · rw [if_pos hstop, emptied_zero, seqAdd_zero hseq]
          rfl
        · rwa [seqAdd_zero hseq]
      · obtain ⟨d, hd, heq, hend, hpass⟩ := ih (i + 1) (seqInc seqno) rap (seqAdd_lt _ _)
        refine ⟨d + 1, by omega, ?_, ?_, fun e he hnone => ?_⟩
        · rw [if_neg hstop, heq, emptied_succ_none hm, hinc, hi, handed, handed, occupied_none hm]
        · rcases hend with rfl | ⟨hnone, hstop⟩
          · exact .inl rfl
          · rw [hi] at hnone
            rw [hinc] at hstop
            exact .inr ⟨hnone, hstop⟩
        · cases e with
          | zero =>
            rw [seqAdd_zero hseq]
            exact (Bool.not_eq_true _).mp hstop
          | succ e =>
            rw [← hinc]
            rw [← hi] at hnone
            exact hpass e (by omega) hnone

end Loops

end FreeBSDSys.Net80211
