import FreeBSDSys.Kern.LockRequest

/-!
# All files

The invariant of the whole lock manager: every file on `lf_lock_states` has the shape of
`LockQueue`, and the table of owners shows the sum over these files.  The sum needs one more
number: `lf_purgelocks` throws the active locks of a file away without freeing them, so their
owners keep references that no entry accounts for.  `SysInv sys leak` records them in `leak`.

* `LockStep.inv`: every operation keeps the invariant; only a purge can add to `leak`.
* `lockf_invariant`: the invariant of each file, in every reachable state.
* `no_deadlock`: no owner waits for itself, through any number of others and files.
* `loRefs_eq_entries`: if files are purged only without active locks, `lo_refs` counts entries.
  `purge_keeps_reference` is a run where it does not.
-/

namespace FreeBSDSys.Lockf

open Function List LockSystem LockfState Nat

/-! ## The invariant -/

/-- The number of entries, active or pending, of an owner in a list of files. -/
def LockSystem.refsSum (sys : LockSystem) (files : List VnodeId) (o : OwnerId) : ℕ :=
  (files.map fun f => (sys.state f).refsOf ((sys.state f).lsActive ++ (sys.state f).lsPending)
    o).sum

/-- The number of lock edges between two owners in a list of files. -/
def LockSystem.waitsSum (sys : LockSystem) (files : List VnodeId) (u v : OwnerId) : ℕ :=
  (files.map fun f => (sys.state f).waitsOf u v).sum

/-- The invariant of the lock manager. -/
structure SysInv (sys : LockSystem) (leak : OwnerId → ℕ) : Prop where
  nodup : sys.lockStates.Nodup
  shape : ∀ f ∈ sys.lockStates, LfShape (sys.state f) [] [] fun _ _ => False
  tally : sys.toOwnerTable.Tally (fun o => leak o + sys.refsSum sys.lockStates o)
    (sys.waitsSum sys.lockStates)

variable {sys sys' : LockSystem} {leak : OwnerId → ℕ} {f : VnodeId} {s : LfState} {b : Base}
  {fs : List VnodeId} {active : List LockId}

theorem all_nil (l : LockfState) : l.all [] [] = l.lsActive ++ l.lsPending := by
  simp [LockfState.all]

theorem refsSum_erase (hf : f ∈ fs) (o : OwnerId) : sys.refsSum fs o = sys.refsSum (fs.erase f) o +
      (sys.state f).refsOf ((sys.state f).lsActive ++ (sys.state f).lsPending) o :=
  ((perm_cons_erase hf).map _).sum_eq.trans (add_comm ..)

theorem waitsSum_erase (hf : f ∈ fs) (u v : OwnerId) :
    sys.waitsSum fs u v = sys.waitsSum (fs.erase f) u v + (sys.state f).waitsOf u v :=
  ((perm_cons_erase hf).map _).sum_eq.trans (add_comm ..)

/-- The sums depend on the states of the files in the list only. -/
theorem sums_congr (h : ∀ f ∈ fs, sys'.state f = sys.state f) :
    (∀ o, sys'.refsSum fs o = sys.refsSum fs o) ∧
      ∀ u v, sys'.waitsSum fs u v = sys.waitsSum fs u v := by
  refine ⟨fun o => ?_, fun u v => ?_⟩
  · refine congrArg List.sum (map_congr_left fun f hf => ?_)
    rw [h f hf]
  · refine congrArg List.sum (map_congr_left fun f hf => ?_)
    rw [h f hf]

/-- Owners at the ends of lock edges have entries. -/
theorem refsSum_pos (h : ∀ f ∈ fs, LfShape (sys.state f) [] [] fun _ _ => False) {u v : OwnerId}
    (hw : 0 < sys.waitsSum fs u v) : 0 < sys.refsSum fs u ∧ 0 < sys.refsSum fs v := by
  obtain ⟨f, hf, hpos⟩ : ∃ f ∈ fs, 0 < (sys.state f).waitsOf u v := by
    by_contra hno
    push Not at hno
    have hzero : sys.waitsSum fs u v = 0 := by
      refine sum_eq_zero fun n hn => ?_
      obtain ⟨f, hf, rfl⟩ := mem_map.mp hn
      exact le_zero.mp (hno f hf)
    omega
  obtain ⟨e, he, rfl, rfl⟩ := waitsOf_pos_iff.mp hpos
  have hmem := (h f hf).edges_all e he
  rw [all_nil] at hmem
  have hle : ∀ o, (sys.state f).refsOf ((sys.state f).lsActive ++ (sys.state f).lsPending) o ≤
      sys.refsSum fs o := fun o => single_le_sum (fun _ _ => zero_le _) _
    (mem_map.mpr ⟨f, hf, rfl⟩)
  exact ⟨(refsOf_pos hmem.1).trans_le (hle _), (refsOf_pos hmem.2).trans_le (hle _)⟩

namespace SysInv

/-- What the files other than `f` contribute. -/
def base (h : SysInv sys leak) (f : VnodeId) : Base where
  refs := fun o => leak o + sys.refsSum (sys.lockStates.erase f) o
  waits := sys.waitsSum (sys.lockStates.erase f)
  waits_refs := fun _ _ hw =>
    have hpos := refsSum_pos (fun f' hf' => h.shape f' (mem_of_mem_erase hf')) hw
    ⟨Nat.add_pos_right _ hpos.1, Nat.add_pos_right _ hpos.2⟩

/-- The invariant, seen from one file. -/
theorem file (h : SysInv sys leak) (hf : f ∈ sys.lockStates) :
    LfInv ⟨sys.state f, sys.toOwnerTable⟩ (h.base f) [] [] := by
  refine ⟨h.shape f hf, h.tally.congr (fun o => ?_) (waitsSum_erase hf)⟩
  rw [refsSum_erase hf, all_nil]
  exact (add_assoc ..).symm

/-- The operations that leave the tables of the other files alone. -/
theorem sums_update (sys' : LockSystem) {l : LockfState}
    (hstate : sys'.state = update sys.state f l) (hf : f ∉ fs) :
    (∀ o, sys'.refsSum fs o = sys.refsSum fs o) ∧
      ∀ u v, sys'.waitsSum fs u v = sys.waitsSum fs u v := by
  refine sums_congr fun f' hf' => ?_
  have hne : f' ≠ f := fun he => hf (he ▸ hf')
  rw [hstate, update_of_ne hne]

/-- A file gets a new state that is good for the rest of the system. -/
theorem leave (h : SysInv sys leak) (hf : f ∈ sys.lockStates) (hs : LfInv s (h.base f) [] []) :
    SysInv (sys.leave f s) leak := by
  have hrest : f ∉ sys.lockStates.erase f := h.nodup.not_mem_erase
  have hstate : (sys.leave f s).state = update sys.state f s.toLockfState := rfl
  obtain ⟨hr, hw⟩ := sums_update _ hstate hrest
  have hshape : ∀ f' ∈ sys.lockStates, LfShape ((sys.leave f s).state f') [] [] fun _ _ => False := by
    intro f' hf'
    rw [hstate]
    by_cases he : f' = f
    · rw [he, update_self]
      exact hs.toLfShape
    · rw [update_of_ne he]
      exact h.shape f' hf'
  have htally := hs.tally
  rw [all_nil] at htally
  by_cases hact : s.lsActive = []
  · -- without active locks there are no pending locks, so the file contributes nothing
    have hlist : (sys.leave f s).lockStates = sys.lockStates.erase f := if_pos hact
    have hpend : s.lsPending = [] := hs.queue.eq_nil (by simp [hact])
    have hedges : s.edges = [] := by
      refine eq_nil_iff_forall_not_mem.mpr fun e he => ?_
      have := (hs.edge_mem he).1
      rw [hpend] at this
      exact not_mem_nil this
    refine ⟨?_, ?_, htally.congr (fun o => ?_) fun u v => ?_⟩
    · rw [hlist]
      exact h.nodup.erase f
    · intro f' hf'
      rw [hlist] at hf'
      exact hshape f' (mem_of_mem_erase hf')
    · rw [hlist, hr o, hact, hpend]
      rfl
    · rw [hlist, hw u v, waitsOf, hedges]
      rfl
  · have hlist : (sys.leave f s).lockStates = sys.lockStates := if_neg hact
    refine ⟨hlist ▸ h.nodup, hlist ▸ hshape, htally.congr (fun o => ?_) fun u v => ?_⟩
    · rw [hlist, refsSum_erase hf, hr o, hstate, update_self]
      exact add_assoc ..
    · rw [hlist, waitsSum_erase hf, hw u v, hstate, update_self]
      rfl

/-- The state of a file is created when there is none. -/
theorem enter (h : SysInv sys leak) (f : VnodeId) :
    SysInv (sys.enter f) leak ∧ f ∈ (sys.enter f).lockStates ∧
      (sys.enter f).toOwnerTable = sys.toOwnerTable := by
  rw [LockSystem.enter]
  split_ifs with hf
  · exact ⟨h, hf, rfl⟩
  · set sys' : LockSystem := { sys with
      lockStates := f :: sys.lockStates
      state := update sys.state f empty } with hsys'
    obtain ⟨hr, hw⟩ := sums_update sys' rfl hf
    refine ⟨⟨nodup_cons.mpr ⟨hf, h.nodup⟩, ?_, h.tally.congr (fun o => ?_) fun u v => ?_⟩,
      mem_cons_self, rfl⟩
    · intro f' hf'
      show LfShape (update sys.state f empty f') [] [] _
      by_cases he : f' = f
      · rw [he, update_self]
        exact LfShape.empty
      · rw [update_of_ne he]
        exact h.shape f' ((mem_cons.mp hf').resolve_left he)
    · rw [← hr o]
      simp [hsys', refsSum, refsOf, empty]
    · rw [← hw u v]
      simp [hsys', waitsSum, waitsOf, empty]

/-- Only the table matters to the files. -/
theorem setTable (h : SysInv sys leak) {t : OwnerTable} {leak' : OwnerId → ℕ}
    (ht : t.Tally (fun o => leak' o + sys.refsSum sys.lockStates o) (sys.waitsSum sys.lockStates)) :
    SysInv { sys with toOwnerTable := t } leak' :=
  ⟨h.nodup, h.shape, ht⟩

end SysInv

theorem enter_setTable (t : OwnerTable) (f : VnodeId) : enter { sys with toOwnerTable := t } f =
      { sys.enter f with toOwnerTable := t } := by
  rw [enter, enter]
  split
  · rfl
  · rfl

/-! ## Requests -/

/-- The range of a request is not empty. -/
theorem lfRange_le {fl : Flock} {size start last : ℤ} (h : lfRange fl size = .ok (start, last)) :
    start.toNat ≤ last.toNat := by
  have hmax : fl.lStart ≤ offMax := fl.lStart_le
  have hcond : ∀ st : ℤ, st ≤ offMax → (if st < 0 then (.error .EINVAL : Except Errno (ℤ × ℤ))
      else if fl.lLen < 0 then
        if st = 0 then .error .EINVAL
        else if st + fl.lLen < 0 then .error .EINVAL
        else .ok (st + fl.lLen, st - 1)
      else if fl.lLen = 0 then .ok (st, offMax)
      else if fl.lLen - 1 > offMax - st then .error .EOVERFLOW
      else .ok (st, st + (fl.lLen - 1))) = .ok (start, last) → start.toNat ≤ last.toNat := by
    intro st hst hrun
    split_ifs at hrun <;> (simp only [Except.ok.injEq, Prod.mk.injEq] at hrun; omega)
  rw [lfRange] at h
  cases hw : fl.lWhence with
  | seekSet | seekCur =>
    simp only [hw] at h
    exact hcond _ hmax h
  | seekEnd =>
    simp only [hw] at h
    split at h
    · cases h
    · rename_i hst
      split_ifs at hst
      simp only [Except.ok.injEq] at hst
      refine hcond _ ?_ h
      omega
  | other => simp [hw] at h

/-- **Every request keeps the invariant.** -/
theorem lfAdvlockasync_inv (h : SysInv sys leak) {ap : AdvlockArgs} (size : ℤ) (doomed : Bool)
    (hty : ap.aOp.TypeOk ap.aFl.lType) : SysInv (lfAdvlockasync sys ap size doomed).2 leak := by
  rw [lfAdvlockasync]
  cases hr : lfRange ap.aFl size with
  | error e => exact h
  | ok r =>
    obtain ⟨start, last⟩ := r
    simp only
    split
    · exact h
    · set lock : LockfEntry :=
        { lfStart := start.toNat
          lfEnd := last.toNat
          lfType := ap.aFl.lType
          lfOwner := ap.aId
          lfVnode := ap.aVp
          lfWait := ap.aWait
          lfFlock := ap.aFlock
          lfAsyncTask := ap.aTask } with hlock
      split
      · have href := h.tally.refOwner (o := ap.aId) ap.aFl.lPid ap.aFl.lSysid
        refine h.setTable ((href.freeLock lock ?_ ?_).congr (fun o => ?_) fun u v => rfl)
        · simp [hlock]
        · -- an owner that waits had a reference before
          intro hone v
          simp only [hlock, if_true] at hone
          have hz : ∀ u v, ap.aId = u ∨ ap.aId = v → sys.waitsSum sys.lockStates u v = 0 := by
            intro u v huv
            by_contra hw
            have hpos := h.tally.refs_pos (pos_of_ne_zero hw)
            rcases huv with rfl | rfl <;> omega
          exact ⟨hz _ _ (.inl rfl), hz _ _ (.inr rfl)⟩
        · exact Nat.add_sub_cancel ..
      · obtain ⟨h1, hmem, htab⟩ := h.enter ap.aVp
        have hnew := (h1.file hmem).newLock lock (lfRange_le hr) ap.aFl.lPid ap.aFl.lSysid
        have hent : (((sys.enter ap.aVp).state ap.aVp).newLock lock).entry
            ((sys.enter ap.aVp).state ap.aVp).nextLock = lock := update_self ..
        have hty' : ap.aOp.TypeOk lock.lfType := hty
        rw [← hent] at hty'
        have hop := lfDoOp_inv hnew hty'
        rw [enter_setTable]
        simp only [htab] at hop
        exact h1.leave hmem hop

/-- **An interrupted sleeper keeps the invariant.** -/
theorem lfInterrupt_inv (h : SysInv sys leak) (vp : VnodeId) (lock : LockId) :
    SysInv (lfInterrupt sys vp lock) leak := by
  rw [lfInterrupt]
  split_ifs with hc
  · exact h.leave hc.1 (lfCancelLock_inv (h.file hc.1) hc.2.1)
  · exact h

/-! ## Purging a file -/

/-- The state of `lf_purgelocks` with the pending locks `W` left. -/
structure Purging (s : LfState) (b : Base) (active W : List LockId) : Prop where
  pending : s.lsPending = W
  edges_nodup : s.edges.Nodup
  edges_mem : ∀ e ∈ s.edges, e.1 ∈ W ∧ e.2 ∈ active ++ W
  tally : s.Tallied b (active ++ W)

/-- One pending lock is purged. -/
theorem lfPurgePending_spec {W : List LockId} {x : LockId} (h : Purging s b active (x :: W)) :
    Purging (lfPurgePending s x) b active W ∧ (lfPurgePending s x).entry = s.entry := by
  have hperm : (active ++ x :: W).Perm (x :: (active ++ W)) := perm_middle
  have herase : s.lsPending.erase x = W := by
    rw [h.pending, erase_cons_head]
  have h0 : LfState.Tallied { s with lsPending := W } b (active ++ x :: W) := h.tally
  obtain ⟨g1, hrun1, h1⟩ :=
    lfRemoveOutgoing_spec (s := { s with lsPending := W }) h.edges_nodup h0 x
  obtain ⟨g2, hrun2, h2⟩ := lfRemoveIncoming_spec (h.edges_nodup.filter _) h1 x
  have hedge : ∀ e ∈ (s.edges.filter fun e => e.1 ≠ x).filter (fun e => e.2 ≠ x),
      e.1 ∈ W ∧ e.2 ∈ active ++ W := by
    intro e he
    simp only [mem_filter, decide_eq_true_eq] at he
    obtain ⟨hm1, hm2⟩ := h.edges_mem e he.1.1
    exact ⟨(mem_cons.mp hm1).resolve_left he.1.2,
      (mem_cons.mp (hperm.mem_iff.mp hm2)).resolve_left he.2⟩
  have hfree := freeLock_tallied (h2.perm hperm) fun e he =>
    ⟨mem_append_right active (hedge e he).1, (hedge e he).2⟩
  rw [lfPurgePending]
  simp only [herase, hrun1, hrun2]
  exact ⟨⟨rfl, (h.edges_nodup.filter _).filter _, hedge, hfree⟩, rfl⟩

theorem foldl_lfPurgePending : ∀ (W : List LockId) {s : LfState}, Purging s b active W →
      Purging (W.foldl lfPurgePending s) b active [] ∧
        (W.foldl lfPurgePending s).entry = s.entry := by
  intro W
  induction W with
  | nil => exact fun h => ⟨h, rfl⟩
  | cons x W ih =>
    intro s h
    obtain ⟨h', hent⟩ := lfPurgePending_spec h
    obtain ⟨h'', hent'⟩ := ih h'
    exact ⟨h'', hent'.trans hent⟩

/-- **A purge leaves the references of the active locks behind.** -/
theorem lfPurgelocks_inv (h : SysInv sys leak) (hf : f ∈ sys.lockStates) :
    SysInv (lfPurgelocks sys f)
      fun o => leak o + (sys.state f).refsOf (sys.state f).lsActive o := by
  have hfile := h.file hf
  have hall := all_nil (sys.state f)
  have hstart : Purging ⟨sys.state f, sys.toOwnerTable⟩ (h.base f) (sys.state f).lsActive
      (sys.state f).lsPending := by
    refine ⟨rfl, hfile.queue.edges_nodup, fun e he => ?_, ?_⟩
    · rw [← hall]
      exact hfile.edge_mem he
    · rw [← hall]
      exact hfile.tally
  obtain ⟨hend, hent⟩ := foldl_lfPurgePending _ hstart
  have hedges : ((sys.state f).lsPending.foldl lfPurgePending
      ⟨sys.state f, sys.toOwnerTable⟩).edges = [] :=
    eq_nil_iff_forall_not_mem.mpr fun e he => not_mem_nil (hend.edges_mem e he).1
  rw [lfPurgelocks, if_pos hf]
  simp only [hend.pending]
  refine ⟨h.nodup.erase f, fun f' hf' => h.shape f' (mem_of_mem_erase hf'),
    hend.tally.congr (fun o => ?_) fun u v => ?_⟩
  · simp only [append_nil, refsOf, hent]
    exact add_right_comm ..
  · rw [waitsOf, hedges]
    rfl

/-! ## Runs -/

/-- The operations of the lock manager.  Callers of `VOP_ADVLOCK` pass the type `F_UNLCK` with
`F_UNLCK` and another type with `F_SETLK`.  A purge is made only if `mayPurge` allows it. -/
inductive LockStep (mayPurge : LockSystem → VnodeId → Prop) : LockSystem → LockSystem → Prop
  | advlock (sys : LockSystem) (ap : AdvlockArgs) (size : ℤ) (doomed : Bool)
      (hty : ap.aOp.TypeOk ap.aFl.lType) :
      LockStep mayPurge sys (lfAdvlockasync sys ap size doomed).2
  | interrupt (sys : LockSystem) (vp : VnodeId) (lock : LockId) :
      LockStep mayPurge sys (lfInterrupt sys vp lock)
  | purge (sys : LockSystem) (vp : VnodeId) (h : mayPurge sys vp) :
      LockStep mayPurge sys (lfPurgelocks sys vp)

/-- The states of the lock manager. -/
abbrev LockReachable (mayPurge : LockSystem → VnodeId → Prop) (sys : LockSystem) : Prop :=
  Reachable (· = lfInit) (LockStep mayPurge) sys

theorem lfInit_inv : SysInv lfInit fun _ => 0 :=
  ⟨nodup_nil, fun _ hf => absurd hf not_mem_nil, OwnerTable.Tally.empty⟩

variable {mayPurge : LockSystem → VnodeId → Prop}

/-- **Every step keeps the invariant**, with some references leaked by purges. -/
theorem LockStep.inv (hstep : LockStep mayPurge sys sys') (h : SysInv sys leak) :
    ∃ leak', SysInv sys' leak' := by
  cases hstep with
  | advlock ap size doomed hty => exact ⟨leak, lfAdvlockasync_inv h size doomed hty⟩
  | interrupt vp lock => exact ⟨leak, lfInterrupt_inv h vp lock⟩
  | purge vp hmay =>
    by_cases hf : vp ∈ sys.lockStates
    · exact ⟨_, lfPurgelocks_inv h hf⟩
    · rw [lfPurgelocks, if_neg hf]
      exact ⟨leak, h⟩

/-- Nothing leaks while files are purged without active locks only. -/
theorem LockStep.inv_clean (hstep : LockStep (fun sys vp => (sys.state vp).lsActive = []) sys sys')
    (h : SysInv sys fun _ => 0) : SysInv sys' fun _ => 0 := by
  cases hstep with
  | advlock ap size doomed hty => exact lfAdvlockasync_inv h size doomed hty
  | interrupt vp lock => exact lfInterrupt_inv h vp lock
  | purge vp hmay =>
    by_cases hf : vp ∈ sys.lockStates
    · have hinv := lfPurgelocks_inv h hf
      simp only [hmay, refsOf, countP_nil] at hinv
      exact hinv
    · rw [lfPurgelocks, if_neg hf]
      exact h

theorem inv_of_reachable (h : LockReachable mayPurge sys) : ∃ leak, SysInv sys leak := by
  refine Reachable.invariant (I := fun sys => ∃ leak, SysInv sys leak) ?_
    (fun s s' hs hstep => ?_) h
  · rintro s rfl
    exact ⟨_, lfInit_inv⟩
  · obtain ⟨leak, hinv⟩ := hs
    exact hstep.inv hinv

/-- **The invariant of a file's locks**, in every reachable state: the active list is ordered by
start, active locks do not block each other, those of one owner do not overlap, and a pending lock
has an edge exactly to the active locks and the older pending locks that block it.  Pending locks
are listed newest first. -/
theorem lockf_invariant (h : LockReachable (fun _ _ => True) sys) (hf : f ∈ sys.lockStates) :
    let l := sys.state f
    l.lsActive.Pairwise (fun x y => (l.entry x).lfStart ≤ (l.entry y).lfStart) ∧
    (∀ x ∈ l.lsActive, ∀ y ∈ l.lsActive, ¬ lfBlocks (l.entry x) (l.entry y)) ∧
    (∀ x ∈ l.lsActive, ∀ y ∈ l.lsActive, x ≠ y →
      (l.entry x).lfOwner = (l.entry y).lfOwner → ¬ lfOverlaps (l.entry x) (l.entry y)) ∧
    ∀ x ∈ l.lsPending, (∀ y, y ∈ l.lfOutedges x ↔ lfBlocks (l.entry x) (l.entry y) ∧
        (y ∈ l.lsActive ∨ [x, y].Sublist l.lsPending)) ∧
      l.lfOutedges x ≠ [] := by
  obtain ⟨leak, hinv⟩ := inv_of_reachable h
  have hshape := hinv.shape f hf
  have hqueue := hshape.queue
  simp only [append_nil] at hqueue
  have hmem : ∀ x y, y ∈ (sys.state f).lfOutedges x ↔ (x, y) ∈ (sys.state f).edges := by
    intro x y
    simp [lfOutedges]
  refine ⟨hshape.sorted, fun x hx y => hqueue.holders x y hx, hshape.disjoint,
    fun x hx => ⟨fun y => ?_, ?_⟩⟩
  · rw [hmem, hqueue.mem_edges]
    exact ⟨fun hd => hd.2, fun hd => ⟨hx, hd⟩⟩
  · obtain ⟨y, hy⟩ := hqueue.blocked x hx
    exact ne_nil_of_mem ((hmem x y).mpr hy)

/-- A request to lock the whole file. -/
def lockAll (vp : VnodeId) (o : OwnerId) (wait : Bool) : AdvlockArgs where
  aVp := vp
  aId := o
  aOp := .setlk
  aFl := ⟨.seekSet, 0, 0, .wrlck, o, 0, by decide, by decide⟩
  aWait := wait
  aFlock := false
  aTask := false

theorem lockAll_reachable (h : LockReachable mayPurge sys) (vp : VnodeId) (o : OwnerId)
    (wait : Bool) : LockReachable mayPurge (lfAdvlockasync sys (lockAll vp o wait) 0 false).2 :=
  h.tail (LockStep.advlock _ _ _ _ ⟨fun _ => by simp [lockAll], fun hc => by cases hc⟩)

/-- A second request for the whole file waits, and has an edge. -/
theorem lockf_invariant_two_writers :
    let sys := (lfAdvlockasync (lfAdvlockasync lfInit (lockAll 0 0 false) 0 false).2
      (lockAll 0 1 true) 0 false).2
    1 ∈ (sys.state 0).lsPending ∧ (sys.state 0).lfOutedges 1 ≠ [] := by
  have h : LockReachable (fun _ _ => True) lfInit := Reachable.of_init rfl
  have h2 := lockAll_reachable (lockAll_reachable h 0 0 false) 0 1 true
  refine ⟨by decide, ((lockf_invariant h2 (by decide)).2.2.2 1 (by decide)).2⟩

/-- A request of `u` waits for `v`: a lock of `v`, held or asked for before, blocks it. -/
def LockSystem.WaitsFor (sys : LockSystem) (u v : OwnerId) : Prop :=
  ∃ f ∈ sys.lockStates, let l := sys.state f
    ∃ x ∈ l.lsPending, ∃ y, (lfBlocks (l.entry x) (l.entry y) ∧
        (y ∈ l.lsActive ∨ [x, y].Sublist l.lsPending)) ∧
      (l.entry x).lfOwner = u ∧ (l.entry y).lfOwner = v

/-- **There is no deadlock** in any reachable state: following the owners from one that waits to one
that it waits for, over all files, never leads back. -/
theorem no_deadlock (h : LockReachable (fun _ _ => True) sys) (o : OwnerId) :
    ¬ Relation.TransGen sys.WaitsFor o o := by
  obtain ⟨leak, hinv⟩ := inv_of_reachable h
  refine fun ho => hinv.tally.acyclic (Relation.TransGen.mono ?_ _ _ ho)
  rintro u v ⟨f, hf, x, hx, y, hb, rfl, rfl⟩
  have hqueue := (hinv.shape f hf).queue
  simp only [append_nil] at hqueue
  have hpos := waitsOf_pos_iff.mpr ⟨_, hqueue.mem_edges.mpr ⟨hx, hb⟩, rfl, rfl⟩
  rw [waitsSum_erase hf]
  exact hpos.trans_le (Nat.le_add_left ..)

/-- The second of two writers waits for the first one, and so not for itself. -/
theorem no_deadlock_two_writers :
    let sys := (lfAdvlockasync (lfAdvlockasync lfInit (lockAll 0 0 false) 0 false).2
      (lockAll 0 1 true) 0 false).2
    sys.WaitsFor 1 0 ∧ ¬ Relation.TransGen sys.WaitsFor 1 1 :=
  ⟨⟨0, by decide, 1, by decide, 0, by decide, rfl, rfl⟩,
    no_deadlock (lockAll_reachable (lockAll_reachable (.of_init rfl) 0 0 false) 0 1 true) 1⟩

/-- The number of entries, active or pending, of an owner in all files. -/
def LockSystem.entriesOf (sys : LockSystem) (o : OwnerId) : ℕ := sys.refsSum sys.lockStates o

/-- **References are entries**, and owners without entries are gone, as long as no file with active
locks is purged. -/
theorem loRefs_eq_entries
    (h : LockReachable (fun sys vp => (sys.state vp).lsActive = []) sys) (o : OwnerId) :
    sys.toOwnerTable.loRefs o = sys.entriesOf o ∧ (sys.owners o = none ↔ sys.entriesOf o = 0) := by
  have hinv : SysInv sys fun _ => 0 := by
    refine Reachable.invariant (I := fun sys => SysInv sys fun _ => 0) ?_
      (fun s s' hs hstep => hstep.inv_clean hs) h
    rintro s rfl
    exact lfInit_inv
  have htally := hinv.tally
  simp only [zero_add] at htally
  exact ⟨htally.refs_eq o, htally.owners_eq_none_iff⟩

/-- One lock is set, and another file purged. -/
theorem loRefs_eq_entries_one_lock :
    let sys := lfPurgelocks (lfAdvlockasync lfInit (lockAll 0 0 false) 0 false).2 1
    sys.entriesOf 0 = 1 ∧ sys.toOwnerTable.loRefs 0 = sys.entriesOf 0 := by
  have h : LockReachable (fun sys vp => (sys.state vp).lsActive = []) lfInit :=
    Reachable.of_init rfl
  have h2 := (lockAll_reachable h 0 0 false).tail (LockStep.purge _ 1 (by decide))
  exact ⟨by decide, (loRefs_eq_entries h2 0).1⟩

/-- One lock is set, and its file purged: the owner keeps the reference of a lock that is gone. -/
theorem purge_keeps_reference : ∃ sys, LockReachable (fun _ _ => True) sys ∧ sys.entriesOf 0 = 0 ∧
      sys.toOwnerTable.loRefs 0 = 1 ∧ sys.owners 0 ≠ none :=
  ⟨lfPurgelocks (lfAdvlockasync lfInit (lockAll 0 0 false) 0 false).2 0,
    (lockAll_reachable (Reachable.of_init rfl) 0 0 false).tail (LockStep.purge _ _ trivial),
    by decide, by decide, by decide⟩

end FreeBSDSys.Lockf
