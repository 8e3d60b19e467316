import FreeBSDSys.Kern.LockActivate

/-!
# Requests on one file

Every request keeps the invariant of its file.  A request is an entry in flight until it becomes
active or pending, or is freed.

* `lfCancelLock_inv`: a pending lock is cancelled, and what it blocked is activated.
* `lfSetlock_inv`, `lfClearlock_inv`, `lfCancel_inv`, and `lfDoOp_inv` for any request.
* `flock_still_blocked`: an exclusive `flock` that gives up the shared locks of its owner before it
  sleeps is still blocked afterwards, since no other owner loses a byte.
-/

namespace FreeBSDSys.Lockf

open Function List

variable {s s' : LfState} {b : Base} {held other : List LockId} {lock x : LockId}

/-- Activating a list of locks in flight, one after the other. -/
theorem foldl_lfActivateLock_inv (granted : List LockId) :
    ∀ {s : LfState}, LfInv s b granted other → LfInv (granted.foldl lfActivateLock s) b [] other := by
  induction granted with
  | nil => exact fun h => h
  | cons lock granted ih =>
    intro s h
    have hty : (s.entry lock).lfType ≠ .unlck := h.locked lock (by rw [mem_all_nil]; simp)
    have hready : Ready s b granted other lock := by
      rw [Ready, if_neg hty]
      exact h
    obtain ⟨-, hinv, -⟩ := lfActivateLock_spec hready
    rw [remaining, if_neg hty] at hinv
    exact ih hinv

/-- `lf_cancel_lock`. -/
theorem lfCancelLock_inv (h : LfInv s b [] other) (hx : x ∈ s.lsPending) :
    LfInv (lfCancelLock s x) b [] other := by
  obtain ⟨g, E, hrun, hvalid⟩ := h.removePending hx
  obtain ⟨s2, new, hrun2, -, hinv⟩ := hvalid.updateDependancies [] true (by simp)
    (.inl ⟨rfl, mem_cons_self⟩)
  rw [lfCancelLock]
  simp only [hrun, hrun2]
  rw [append_nil] at hinv ⊢
  exact foldl_lfActivateLock_inv new hinv.freeLock

/-! ## Setting a lock -/

theorem foldl_set_isSome {entry : LockId → LockfEntry} {o : OwnerId} {byte : ℕ}
    (acts : List LockId) :
    ∀ {H : LockTable}, (∀ i ∈ acts, (entry i).lfType ≠ .unlck) → (H o byte).isSome →
      (acts.foldl (fun H i => H.set (entry i)) H o byte).isSome := by
  induction acts with
  | nil => exact fun _ hs => hs
  | cons i acts ih =>
    intro H hty hs
    refine ih (fun j hj => hty j (mem_cons_of_mem _ hj)) ?_
    simp only [LockTable.set, if_neg (hty i mem_cons_self)]
    split
    · rfl
    · exact hs

/-- Giving up the owner's own locks does not unblock an exclusive request: the bytes of other
owners stay locked. -/
theorem flock_still_blocked {s2 : LfState} (h : LfInv s b held (lock :: other))
    (hs2 : lfActivateLock (s.setType lock .unlck) lock = s2)
    (hty : (s.entry lock).lfType = .wrlck) (hblocked : ∃ y ∈ s.lsActive, s.Blocks lock y) :
    LfInv (s2.setType lock .wrlck) b held (lock :: other) ∧
      ((s2.setType lock .wrlck).entry lock).lfType = .wrlck ∧
      ∃ y ∈ (s2.setType lock .wrlck).lsActive, (s2.setType lock .wrlck).Blocks lock y := by
  have h1 := h.setType mem_cons_self .unlck
  have hself : (s.setType lock .unlck).entry lock = { s.entry lock with lfType := .unlck } :=
    update_self ..
  have hty1 : ((s.setType lock .unlck).entry lock).lfType = .unlck := by rw [hself]
  have hready : Ready (s.setType lock .unlck) b held other lock := by
    rw [Ready, if_pos hty1]
    exact h1
  obtain ⟨-, hinv, acts, hall, -, hentry, hacts⟩ := lfActivateLock_spec hready
  rw [remaining, if_pos hty1] at hinv
  rw [hs2] at hinv hall hentry
  have hentry2 : s2.entry lock = { s.entry lock with lfType := .unlck } := (hentry hty1).trans hself
  have hself3 : (s2.setType lock .wrlck).entry lock = s.entry lock := by
    rw [show (s2.setType lock .wrlck).entry lock = { s2.entry lock with lfType := .wrlck } from
      update_self .., hentry2, ← hty]
  refine ⟨hinv.setType mem_cons_self .wrlck, by rw [hself3, hty], ?_⟩
  -- a byte of the blocking lock inside the request
  obtain ⟨y, hy, hb⟩ := hblocked
  have hylt : y ≠ lock := by
    rintro rfl
    exact hb.1 rfl
  have hykeep : (s.setType lock .unlck).entry y = s.entry y := update_of_ne hylt _ _
  have hry := h.range y (mem_all.mpr (.inl hy))
  have hrl := h.range lock (by rw [mem_all]; simp)
  obtain ⟨byte, hcl, hcy⟩ : ∃ byte, (s.entry lock).Covers byte ∧ (s.entry y).Covers byte := by
    refine ⟨max (s.entry lock).lfStart (s.entry y).lfStart, ⟨le_max_left _ _, ?_⟩,
      le_max_right _ _, ?_⟩
    · exact max_le hrl hb.2.2.2
    · exact max_le hb.2.2.1 hry
  have hbefore : ((s.setType lock .unlck).table (s.entry y).lfOwner byte).isSome := by
    have hsome := h1.table_eq_some_iff.mpr ⟨y, hy, by rw [hykeep], by rw [hykeep]; exact hcy, rfl⟩
    rw [hsome]
    rfl
  have hafter : (s2.table (s.entry y).lfOwner byte).isSome := by
    rw [hall.table, foldl_cons]
    refine foldl_set_isSome acts (fun i hi => (hacts i hi).1) ?_
    rw [LockTable.set_of_ne]
    · exact hbefore
    · rw [hself]
      exact hb.1.symm
  obtain ⟨ty, hty'⟩ := Option.isSome_iff_exists.mp hafter
  obtain ⟨i, hi, ho, hc, -⟩ := hinv.table_eq_some_iff.mp hty'
  have hil : i ≠ lock := fun he => (hinv.off_active (by simp)).2 (he ▸ hi)
  refine ⟨i, hi, ?_⟩
  rw [LockfState.Blocks, hself3,
    show (s2.setType lock .wrlck).entry i = s2.entry i from update_of_ne hil _ _]
  refine ⟨by rw [ho]; exact hb.1, .inl hty, ?_, ?_⟩
  · exact hcl.1.trans hc.2
  · exact hc.1.trans hcl.2

section

variable (h : LfInv s b [] (lock :: other)) (hty : (s.entry lock).lfType ≠ .unlck)

include h hty

/-- The blocked branch of `lf_setlock`, once the request may be queued. -/
theorem queue_inv (hblocked : ∃ y ∈ s.lsActive, s.Blocks lock y) : LfInv (match lfAddOutgoing s lock with
      | (.ok, s') =>
        let s' := { s' with lsPending := lock :: s'.lsPending }
        if (s'.entry lock).lfWait = false then (LockReply.inProgress lock, s') else (.sleep, s')
      | (error, s') => (.done error, s'.freeLock lock)).2 b [] other := by
  rcases h.addOutgoing hty hblocked with ⟨g, E, hrun, hinv⟩ | ⟨g, hrun, hinv⟩
  · simp only [hrun]
    split
    · exact hinv
    · exact hinv
  · simp only [hrun]
    exact hinv.freeLock

/-- `lf_setlock`. -/
theorem lfSetlock_inv : LfInv (lfSetlock s lock).2 b [] other := by
  rw [lfSetlock]
  cases hget : lfGetblock s lock with
  | some y =>
    have hblocked : ∃ y ∈ s.lsActive, s.Blocks lock y := by
      by_contra hno
      push Not at hno
      rw [(lfGetblock_eq_none_iff h.sorted).mpr hno] at hget
      cases hget
    simp only
    split
    · exact h.freeLock
    · by_cases hflock : (s.entry lock).lfFlock = true ∧ (s.entry lock).lfType = .wrlck
      · rw [if_pos hflock]
        obtain ⟨hinv, hty', hblocked'⟩ := flock_still_blocked h rfl hflock.2 hblocked
        exact queue_inv hinv (by rw [hty']; decide) hblocked'
      · rw [if_neg hflock]
        exact queue_inv h hty hblocked
  | none =>
    have hfree := (lfGetblock_eq_none_iff h.sorted).mp hget
    rcases h.addIncoming hty (by simpa using hfree) with ⟨g, E, hrun, -, hinv⟩ | ⟨g, hrun, -, hinv⟩
    · simp only [hrun]
      exact foldl_lfActivateLock_inv [lock] hinv
    · simp only [hrun]
      exact hinv.freeLock

end

/-! ## The other requests -/

/-- `lf_clearlock`. -/
theorem lfClearlock_inv (h : LfInv s b [] (lock :: other)) (hty : (s.entry lock).lfType = .unlck) :
    LfInv (lfClearlock s lock) b [] (lock :: other) := by
  rw [lfClearlock]
  split
  · exact h
  · have hready : Ready s b [] other lock := by
      rw [Ready, if_pos hty]
      exact h
    obtain ⟨-, hinv, -⟩ := lfActivateLock_spec hready
    rw [remaining, if_pos hty] at hinv
    exact hinv

/-- `lf_cancel`. -/
theorem lfCancel_inv (h : LfInv s b [] (lock :: other)) (cookie : LockId) :
    LfInv (lfCancel s lock cookie).2 b [] (lock :: other) := by
  rw [lfCancel]
  split_ifs with hmem
  · simp only
    split
    · exact h
    · split
      · exact h
      · exact lfCancelLock_inv h hmem
  · exact h

/-- What the callers of `lf_advlockasync` promise about the type of a request. -/
def AdvOp.TypeOk (aOp : AdvOp) (ty : LockType) : Prop :=
  (aOp = .setlk → ty ≠ .unlck) ∧ (aOp = .unlck → ty = .unlck)

/-- **Every request keeps the invariant of its file.** -/
theorem lfDoOp_inv (h : LfInv s b [] [lock]) {aOp : AdvOp}
    (hty : aOp.TypeOk (s.entry lock).lfType) : LfInv (lfDoOp s lock aOp).2 b [] [] := by
  cases aOp with
  | setlk => exact lfSetlock_inv h (hty.1 rfl)
  | unlck => exact (lfClearlock_inv h (hty.2 rfl)).freeLock
  | getlk => exact h.freeLock
  | cancel cookie =>
    cases cookie with
    | some cookie => exact (lfCancel_inv h cookie).freeLock
    | none => exact h.freeLock

end FreeBSDSys.Lockf
