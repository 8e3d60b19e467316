import FreeBSDSys.Kern.LockOverlap

/-!
# Activation as an update of a table of bytes

What a file's active locks are for is a table: which owner holds which byte, and how.
`LockTable.set` is the abstract operation, and `lf_activate_lock` performs it, once for its own
lock and once for every pending lock it grants on the way.

* `lfActivateOne_spec`: one round of the outer loop is one `LockTable.set`, and keeps the
  invariant.  `granted_iff`: a pending lock leaves the queue in a round exactly when nothing that
  remains blocks it.
* `lfActivateLock_spec`: the whole call.  The locks it grants belong to owners that waited for the
  owner of `lock`, directly or through others; since the owner graph has no cycles, none of them
  belongs to that owner.
* `lfActivateLock_table`: the refinement statement.
-/

namespace FreeBSDSys.Lockf

open List Relation

/-! ## The table -/

/-- For each owner and byte, the type of the lock held, if any. -/
abbrev LockTable := OwnerId → ℕ → Option LockType

/-- The owner of `e` gets its type on the bytes of its range; an unlock request takes them away. -/
def LockTable.set (H : LockTable) (e : LockfEntry) : LockTable := fun o byte =>
  if o = e.lfOwner ∧ e.Covers byte then if e.lfType = .unlck then none else some e.lfType
  else H o byte

/-- The table that the active locks of a file show. -/
def LockfState.table (s : LockfState) : LockTable := fun o byte =>
  (s.lsActive.find? fun i => (s.entry i).lfOwner = o ∧ (s.entry i).Covers byte).map
    fun i => (s.entry i).lfType

variable {s s' s1 : LfState} {b : Base} {held other granted new other' : List LockId}
  {lock x y : LockId} {o : OwnerId} {byte : ℕ} {ty : LockType}

/-- The locks of one owner do not overlap, so any of them that covers the byte is the one the table
shows. -/
theorem LfValid.table_eq_some_iff {S : LockId → LockId → Prop} (h : LfValid s b held other S) :
    s.table o byte = some ty ↔ s.Holds o byte ty := by
  constructor
  · intro ht
    obtain ⟨i, hi, hty⟩ := Option.map_eq_some_iff.mp ht
    have hp := find?_some hi
    simp only [decide_eq_true_eq] at hp
    exact ⟨i, mem_of_find?_eq_some hi, hp.1, hp.2, hty⟩
  · rintro ⟨i, hi, h1, h2, h3⟩
    rw [LockfState.table]
    cases hf : s.lsActive.find? fun j => (s.entry j).lfOwner = o ∧ (s.entry j).Covers byte with
    | none =>
      refine absurd (find?_eq_none.mp hf i hi) ?_
      simp [h1, h2]
    | some j =>
      have hp := find?_some hf
      simp only [decide_eq_true_eq] at hp
      have hij : j = i := by
        by_contra hne
        refine h.disjoint j (mem_of_find?_eq_some hf) i hi hne (hp.1.trans h1.symm) ?_
        exact ⟨hp.2.1.trans h2.2, h2.1.trans hp.2.2⟩
      rw [hij, Option.map_some, h3]

/-! ## One round -/

/-- The requests in flight that remain once `lock` is activated: an unlock request is not
inserted. -/
def remaining (e : LockfEntry) (lock : LockId) (other : List LockId) : List LockId :=
  if e.lfType = .unlck then lock :: other else other

/-- The file is ready to activate `lock`: it is an unlock request in flight, or a lock in flight
that holds. -/
def Ready (s : LfState) (b : Base) (held other : List LockId) (lock : LockId) : Prop :=
  if (s.entry lock).lfType = .unlck then LfInv s b held (lock :: other)
  else LfInv s b (lock :: held) other

theorem Ready.inv (h : Ready s b held other lock) : ∃ held' other', LfInv s b held' other' := by
  rw [Ready] at h
  split at h <;> exact ⟨_, _, h⟩

/-- What activating `lock` does; `new` are the locks it woke. -/
structure Activated (lock : LockId) (s s' : LfState) (new : List LockId) : Prop where
  entry_eq : ∀ i < s.nextLock, i ∉ s.lsActive → s'.entry i = s.entry i
  owner_eq : ∀ i < s.nextLock, (s'.entry i).lfOwner = (s.entry i).lfOwner
  next_le : s.nextLock ≤ s'.nextLock
  active_sub : ∀ i < s.nextLock, i ∈ s'.lsActive → i ∈ s.lsActive ∨ i = lock
  pending : s.lsPending.Perm (new ++ s'.lsPending)
  sublist : s'.lsPending.Sublist s.lsPending
  edges : ∀ x, ∀ y < s.nextLock, (x, y) ∈ s'.edges → (x, y) ∈ s.edges
  waits : ∀ u v, 0 < s'.waitsOf u v → 0 < s.waitsOf u v
  woken : ∀ x ∈ new, 0 < s.waitsOf (s.entry x).lfOwner (s.entry lock).lfOwner
  table : s'.table = s.table.set (s.entry lock)

/-- The table after the range was cut out, and before and after the lock is inserted. -/
theorem set_table_of_carved {new' held' : List LockId} (h : LfInv s b held other)
    (h' : LfInv s' b held' other')
    (hcarved : Carved (s.entry lock).lfOwner (s.entry lock).Covers s s1 new')
    (hclear : s1.Clear lock) (hlock : s1.entry lock = s.entry lock)
    (hHolds : ∀ o byte ty, s'.Holds o byte ty ↔ s1.Holds o byte ty ∨
      ((s.entry lock).lfType ≠ .unlck ∧ o = (s.entry lock).lfOwner ∧
        (s.entry lock).Covers byte ∧ (s.entry lock).lfType = ty)) :
    s'.table = s.table.set (s.entry lock) := by
  funext o byte
  refine Option.ext fun ty => ?_
  rw [h'.table_eq_some_iff, hHolds, LockTable.set]
  by_cases hin : o = (s.entry lock).lfOwner ∧ (s.entry lock).Covers byte
  · rw [if_pos hin]
    have hno : ¬ s1.Holds o byte ty := by
      rintro ⟨i, hi, h1, h2, -⟩
      refine hclear i hi (by rw [h1, hin.1, hlock]) ?_
      rw [hlock]
      exact ⟨h2.1.trans hin.2.2, hin.2.1.trans h2.2⟩
    by_cases hty : (s.entry lock).lfType = .unlck
    · simp [hty, hno]
    · rw [if_neg hty, Option.some_inj]
      constructor
      · rintro (hh | ⟨-, -, -, heq⟩)
        · exact absurd hh hno
        · exact heq
      · exact fun heq => .inr ⟨hty, hin.1, hin.2, heq⟩
  · rw [if_neg hin, hcarved.table o byte ty hin, h.table_eq_some_iff]
    constructor
    · rintro (hh | ⟨-, h1, h2, -⟩)
      · exact hh
      · exact absurd ⟨h1, h2⟩ hin
    · exact .inl

/-- **One round of `lf_activate_lock`.** -/
theorem lfActivateOne_spec (granted : List LockId) (h : Ready s b held other lock)
    (hgranted : ∀ i ∈ granted, i ∈ held) :
    ∃ s' new, lfActivateOne lock s granted = (s', new ++ granted) ∧
      LfInv s' b (new ++ held) (remaining (s.entry lock) lock other) ∧
      Activated lock s s' new := by
  rw [Ready] at h
  rw [lfActivateOne, remaining]
  by_cases hty : (s.entry lock).lfType = .unlck
  · rw [if_pos hty] at h ⊢
    have hlock : lock ∈ held ++ lock :: other := by simp
    obtain ⟨s', new, hrun, hinv, hcarved, hclear⟩ := lfOverlapLoop_spec (s.lsActive.length + 1)
      granted (Nat.lt_succ_self _) (nil_append _).symm (by simp) h hgranted hlock
    obtain ⟨hlt, hna⟩ := h.off_active (mem_append_right _ hlock)
    have hentry := hcarved.entry_eq lock hlt hna
    refine ⟨s', new, ?_, hinv, hcarved.entry_eq, hcarved.owner_eq, hcarved.next_le,
      fun i hi hm => .inl (hcarved.active_sub i hi hm), hcarved.pending, hcarved.sublist,
      hcarved.edges, hcarved.waits, hcarved.woken, ?_⟩
    · rw [hrun]
      simp [hentry, hty]
    · refine set_table_of_carved h hinv hcarved hclear hentry fun o byte ty => ?_
      simp [hty]
  · rw [if_neg hty] at h ⊢
    have hlock : lock ∈ (lock :: held) ++ other := by simp
    obtain ⟨s1, new, hrun, hinv, hcarved, hclear⟩ := lfOverlapLoop_spec (s.lsActive.length + 1)
      granted (Nat.lt_succ_self _) (nil_append _).symm (by simp) h
      (fun i hi => mem_cons_of_mem _ (hgranted i hi)) hlock
    obtain ⟨hlt, hna⟩ := h.off_active (mem_append_right _ hlock)
    have hentry := hcarved.entry_eq lock hlt hna
    have hinv' : LfInv (lfInsertLock s1 lock) b (new ++ held) other :=
      LfInv.insertLock (hinv.perm perm_middle (Perm.refl _)) hclear
    refine ⟨lfInsertLock s1 lock, new, ?_, hinv', hcarved.entry_eq, hcarved.owner_eq,
      hcarved.next_le, ?_, hcarved.pending, hcarved.sublist, hcarved.edges, hcarved.waits,
      hcarved.woken, ?_⟩
    · rw [hrun]
      simp [hentry, hty]
    · intro i hi hm
      rcases mem_lfInsertLock.mp hm with rfl | hm
      · exact .inr rfl
      · exact .inl (hcarved.active_sub i hi hm)
    · refine set_table_of_carved h hinv' hcarved hclear hentry fun o byte ty => ?_
      rw [holds_lfInsertLock, hentry, or_comm]
      refine or_congr_right ⟨?_, ?_⟩
      · rintro ⟨h1, h2, h3⟩
        exact ⟨hty, h1.symm, h2, h3⟩
      · rintro ⟨-, h1, h2, h3⟩
        exact ⟨h1.symm, h2, h3⟩

/-- **What a round grants.**  A pending lock leaves the queue exactly when no active or granted
lock and no older lock that stays in the queue blocks it. -/
theorem Activated.granted_iff (h : LfInv s b held other) (h' : LfInv s' b (new ++ granted) other')
    (hact : Activated lock s s' new) (hx : x ∈ s.lsPending) :
    x ∉ s'.lsPending ↔ ∀ y, (y ∈ s'.lsActive ++ (new ++ granted) ∨
      (y ∈ s'.lsPending ∧ [x, y].Sublist s.lsPending)) → ¬ s'.Blocks x y := by
  have hxlt := h.pending_lt hx
  constructor
  · intro hgone y hy hb
    have hxnew : x ∈ new :=
      (mem_append.mp (hact.pending.mem_iff.mp hx)).resolve_right hgone
    have hxh : x ∈ s'.lsActive ++ (new ++ granted) :=
      mem_append_right _ (mem_append_left _ hxnew)
    rcases hy with hy | ⟨hy, hsub⟩
    · exact h'.queue.holders x y hxh hy hb
    · -- the older lock would wait for `x` now, but it never had an edge to it
      have hedge : (y, x) ∈ s'.edges := h'.queue.mem_edges.mpr ⟨hy, lfBlocks_symm hb, .inl hxh⟩
      have hd := h.queue.mem_edges.mp (hact.edges y x hxlt hedge)
      rcases hd.2.2 with hh | hsub'
      · exact h.queue.not_holder x hx hh
      · have hne : x ≠ y := by
          rintro rfl
          exact h.queue.irrefl x hd.2.1
        have hlen := h.queue.waiters_nodup
        exact WaitQueue.not_sublist_swap hlen hne hsub hsub'
  · intro hfree hstay
    obtain ⟨y, hy⟩ := h'.queue.blocked x hstay
    have hd := h'.queue.mem_edges.mp hy
    refine hfree y ?_ hd.2.1
    rcases hd.2.2 with hh | hsub
    · exact .inl hh
    · exact .inr ⟨hsub.subset (by simp), hsub.trans hact.sublist⟩

/-! ## The whole call -/

/-- Some request of owner `u` waits for a lock of owner `v` in this file. -/
def LockfState.Waits (s : LockfState) (u v : OwnerId) : Prop := 0 < s.waitsOf u v

/-- What activating the locks of a list one after the other did: `acts` are all locks that were
activated, in order. -/
structure ActivatedAll (granted : List LockId) (s s' : LfState) (acts : List LockId) : Prop where
  entry_eq : ∀ i < s.nextLock, i ∉ s.lsActive → i ∉ acts → s'.entry i = s.entry i
  next_le : s.nextLock ≤ s'.nextLock
  pending : (granted ++ s.lsPending).Perm (acts ++ s'.lsPending)
  sublist : s'.lsPending.Sublist s.lsPending
  waited : ∀ i ∈ acts, ∃ j ∈ granted, ReflTransGen s.Waits (s.entry i).lfOwner (s.entry j).lfOwner
  table : s'.table = acts.foldl (fun H i => H.set (s.entry i)) s.table

theorem ActivatedAll.refl (s : LfState) : ActivatedAll [] s s [] :=
  ⟨fun _ _ _ _ => rfl, le_rfl, Perm.refl _, Sublist.refl _, by simp, rfl⟩

/-- One round followed by the rest. -/
theorem Activated.cons (granted : List LockId) {acts : List LockId}
    (hflight : ∀ i ∈ lock :: granted ++ s.lsPending, i < s.nextLock ∧ i ∉ s.lsActive)
    (h1 : Activated lock s s1 new) (h : ActivatedAll (new ++ granted) s1 s' acts) :
    ActivatedAll (lock :: granted) s s' (lock :: acts) := by
  have hsub : ∀ i ∈ new ++ granted ++ s1.lsPending, i ∈ granted ++ s.lsPending := by
    intro i hi
    have hm := h1.pending.mem_iff (a := i)
    simp only [mem_append] at hi hm ⊢
    tauto
  have hacts : ∀ i ∈ acts, i ∈ granted ++ s.lsPending := fun i hi =>
    hsub i (h.pending.mem_iff.mpr (mem_append_left _ hi))
  have hentry : ∀ i ∈ granted ++ s.lsPending, s1.entry i = s.entry i := by
    intro i hi
    obtain ⟨hlt, hna⟩ := hflight i (mem_cons_of_mem _ hi)
    exact h1.entry_eq i hlt hna
  refine ⟨?_, h1.next_le.trans h.next_le, ?_, h.sublist.trans h1.sublist, ?_, ?_⟩
  · intro i hi hia hin
    rw [mem_cons, not_or] at hin
    have hia' : i ∉ s1.lsActive := fun hm => (h1.active_sub i hi hm).elim hia hin.1
    rw [h.entry_eq i (hi.trans_le h1.next_le) hia' hin.2, h1.entry_eq i hi hia]
  · refine Perm.cons lock ?_
    refine (h1.pending.append_left granted).trans ?_
    rw [← append_assoc]
    refine (perm_append_comm.append_right _).trans ?_
    exact h.pending
  · intro i hi
    rcases mem_cons.mp hi with rfl | hi
    · exact ⟨i, mem_cons_self, ReflTransGen.refl⟩
    · obtain ⟨j, hj, hreach⟩ := h.waited i hi
      rw [hentry i (hacts i hi), hentry j (hsub j (mem_append_left _ hj))] at hreach
      have hreach' : ReflTransGen s.Waits (s.entry i).lfOwner (s.entry j).lfOwner :=
        ReflTransGen.mono h1.waits _ _ hreach
      rcases mem_append.mp hj with hj | hj
      · exact ⟨lock, mem_cons_self, hreach'.tail (h1.woken j hj)⟩
      · exact ⟨j, mem_cons_of_mem _ hj, hreach'⟩
  · rw [h.table, h1.table]
    refine foldl_ext _ _ _ fun H i hi => ?_
    rw [hentry i (hacts i hi)]

/-- The entries of a list of locks in flight, and the pending locks, are old and not active. -/
theorem LfInv.flight (granted : List LockId) (h : LfInv s b (granted ++ held) other) :
    ∀ i ∈ granted ++ s.lsPending, i < s.nextLock ∧ i ∉ s.lsActive := by
  intro i hi
  rcases mem_append.mp hi with hi | hi
  · exact h.off_active (mem_append_right _ (mem_append_left _ (mem_append_left _ hi)))
  · exact h.off_active (mem_append_left _ hi)

/-- **The outer loop** activates all granted locks, and those that they grant.  The bound is
enough, since every lock is taken out of `granted` once. -/
theorem lfActivateLoop_spec : ∀ (bound : ℕ) {s : LfState} {granted : List LockId},
      granted.length + s.lsPending.length ≤ bound → LfInv s b (granted ++ held) other →
      ∃ s' acts, lfActivateLoop bound s granted = (s', []) ∧ LfInv s' b held other ∧
        ActivatedAll granted s s' acts := by
  intro bound
  induction bound with
  | zero =>
    intro s granted hlen h
    have hnil : granted = [] := length_eq_zero_iff.mp (by omega)
    subst hnil
    exact ⟨s, [], rfl, h, .refl s⟩
  | succ bound ih =>
    intro s granted hlen h
    cases granted with
    | nil => exact ⟨s, [], rfl, h, .refl s⟩
    | cons lock granted =>
      have hty : (s.entry lock).lfType ≠ .unlck := h.locked lock (by rw [mem_all_nil]; simp)
      have hready : Ready s b (granted ++ held) other lock := by
        rw [Ready, if_neg hty]
        exact h
      obtain ⟨s1, new, hrun, hinv, hact⟩ := lfActivateOne_spec granted hready
        fun _ => mem_append_left _
      rw [remaining, if_neg hty, ← append_assoc] at hinv
      have hlen1 : (new ++ granted).length + s1.lsPending.length ≤ bound := by
        have hp := hact.pending.length_eq
        simp only [length_append, length_cons] at hp hlen ⊢
        omega
      obtain ⟨s', acts, hrun', hinv', hall⟩ := ih hlen1 hinv
      have hflight := LfInv.flight (lock :: granted) h
      refine ⟨s', lock :: acts, ?_, hinv', ?_⟩
      · rw [lfActivateLoop, hrun]
        exact hrun'
      · exact hact.cons granted hflight hall

/-- **`lf_activate_lock`.** -/
theorem lfActivateLock_spec (h : Ready s b held other lock) :
    (lfActivateLoop (s.lsPending.length + 1) s [lock]).2 = [] ∧
    LfInv (lfActivateLock s lock) b held (remaining (s.entry lock) lock other) ∧
      ∃ acts, ActivatedAll [lock] s (lfActivateLock s lock) (lock :: acts) ∧
        s.lsPending.Perm (acts ++ (lfActivateLock s lock).lsPending) ∧
        ((s.entry lock).lfType = .unlck → (lfActivateLock s lock).entry lock = s.entry lock) ∧
        ∀ i ∈ acts, (s.entry i).lfType ≠ .unlck ∧
          TransGen s.Waits (s.entry i).lfOwner (s.entry lock).lfOwner := by
  obtain ⟨s1, new, hrun, hinv, hact⟩ := lfActivateOne_spec [] h (by simp)
  rw [append_nil] at hrun
  have hflight : ∀ i ∈ [lock] ++ s.lsPending, i < s.nextLock ∧ i ∉ s.lsActive := by
    rw [Ready] at h
    split at h
    · intro i hi
      rcases mem_append.mp hi with hi | hi
      · rw [mem_singleton.mp hi]
        exact h.off_active (by simp)
      · exact h.off_active (mem_append_left _ hi)
    · exact LfInv.flight [lock] h
  obtain ⟨held0, other0, hinv0⟩ := h.inv
  have hlen : new.length + s1.lsPending.length ≤ s.lsPending.length := by
    have hp := hact.pending.length_eq
    rw [length_append] at hp
    omega
  obtain ⟨s', acts, hrun', hinv', hall⟩ := lfActivateLoop_spec s.lsPending.length hlen hinv
  have hloop : lfActivateLoop (s.lsPending.length + 1) s [lock] = (s', []) := by
    rw [lfActivateLoop, hrun]
    exact hrun'
  have hfinal : lfActivateLock s lock = s' := by rw [lfActivateLock, hloop]
  have hcons := hact.cons [] hflight (by rwa [append_nil])
  have hpending : s.lsPending.Perm (acts ++ s'.lsPending) := hcons.pending.cons_inv
  rw [hfinal]
  refine ⟨by rw [hloop], hinv', acts, hcons, hpending, ?_, ?_⟩
  · intro hty
    rw [remaining, if_pos hty] at hinv hinv'
    obtain ⟨hlt, hna⟩ := hflight lock (by simp)
    have hna1 : lock ∉ s1.lsActive := (hinv.off_active (by simp)).2
    have hnacts : lock ∉ acts := by
      intro hm
      rcases mem_append.mp (hall.pending.mem_iff.mpr (mem_append_left _ hm)) with hc | hc
      · exact hinv.not_other mem_cons_self (mem_all_nil.mpr (.inr (.inr (mem_append_left _ hc))))
      · exact hinv.not_other (mem_cons_self ..) (mem_all_nil.mpr (.inr (.inl hc)))
    rw [hall.entry_eq lock (hlt.trans_le hact.next_le) hna1 hnacts, hact.entry_eq lock hlt hna]
  · intro i hi
    have hip : i ∈ s.lsPending := hpending.mem_iff.mpr (mem_append_left _ hi)
    refine ⟨hinv0.locked i (mem_all_nil.mpr (.inr (.inl hip))), ?_⟩
    -- a lock that was granted waited for one that the first round woke, and that one for `lock`
    obtain ⟨j, hj, hreach⟩ := hall.waited i hi
    have hjp : j ∈ s.lsPending := hact.pending.mem_iff.mpr (mem_append_left _ hj)
    have hentry : ∀ k ∈ s.lsPending, s1.entry k = s.entry k := fun k hk =>
      hact.entry_eq k (hflight k (mem_append_right _ hk)).1 (hflight k (mem_append_right _ hk)).2
    rw [hentry i hip, hentry j hjp] at hreach
    exact TransGen.tail' (ReflTransGen.mono hact.waits _ _ hreach) (hact.woken j hj)

/-! ## The refinement -/

/-- One round of the outer loop, on the state and the list `granted`. -/
def Round (p p' : LfState × List LockId) : Prop :=
  ∃ lock granted, p.2 = lock :: granted ∧ p' = lfActivateOne lock p.1 granted

/-- The loop is a sequence of rounds. -/
theorem lfActivateLoop_rounds : ∀ (bound : ℕ) (s : LfState) (granted : List LockId),
      ReflTransGen Round (s, granted) (lfActivateLoop bound s granted) := by
  intro bound
  induction bound with
  | zero => exact fun s granted => ReflTransGen.refl
  | succ bound ih =>
    intro s granted
    cases granted with
    | nil => exact ReflTransGen.refl
    | cons lock granted =>
      refine ReflTransGen.head ⟨lock, granted, rfl, rfl⟩ ?_
      exact ih (lfActivateOne lock s granted).1 (lfActivateOne lock s granted).2

/-- Whatever is next in `granted` is ready to be activated. -/
def RoundReady (b : Base) (held : List LockId) (p : LfState × List LockId) : Prop :=
  ∃ other, ∀ lock granted, p.2 = lock :: granted → Ready p.1 b (granted ++ held) other lock

theorem Round.spec {p p' : LfState × List LockId} (h : RoundReady b held p) (hr : Round p p') :
    ∃ lock new granted other', p.2 = lock :: granted ∧ p'.2 = new ++ granted ∧
      Activated lock p.1 p'.1 new ∧ LfInv p'.1 b (p'.2 ++ held) other' ∧ RoundReady b held p' := by
  obtain ⟨other, h⟩ := h
  obtain ⟨lock, granted, hp, rfl⟩ := hr
  obtain ⟨s', new, hrun, hinv, hact⟩ := lfActivateOne_spec granted (h lock granted hp)
    fun _ => mem_append_left _
  rw [hrun]
  rw [← append_assoc] at hinv
  refine ⟨lock, new, granted, _, hp, rfl, hact, hinv, remaining (p.1.entry lock) lock other, ?_⟩
  intro next rest heq
  change new ++ granted = next :: rest at heq
  rw [heq] at hinv
  have hty : (s'.entry next).lfType ≠ .unlck := hinv.locked next (by rw [mem_all_nil]; simp)
  rw [Ready, if_neg hty]
  exact hinv

theorem RoundReady.of_rounds {p p' : LfState × List LockId} (h : RoundReady b held p)
    (hr : ReflTransGen Round p p') : RoundReady b held p' := by
  induction hr with
  | refl => exact h
  | tail _ hstep ih =>
    obtain ⟨-, -, -, -, -, -, -, -, hready⟩ := Round.spec ih hstep
    exact hready

theorem LockTable.set_of_ne {H : LockTable} {e : LockfEntry} (hne : o ≠ e.lfOwner) :
    H.set e o byte = H o byte := if_neg fun hc => hne hc.1

theorem foldl_set_of_ne {entry : LockId → LockfEntry} (acts : List LockId) :
    ∀ {H : LockTable}, (∀ i ∈ acts, o ≠ (entry i).lfOwner) →
      acts.foldl (fun H i => H.set (entry i)) H o byte = H o byte := by
  induction acts with
  | nil => exact fun _ => rfl
  | cons i acts ih =>
    intro H hne
    rw [foldl_cons, ih fun j hj => hne j (mem_cons_of_mem _ hj)]
    exact LockTable.set_of_ne (hne i mem_cons_self)

/-- An owner that waits for the owner of `lock` is not that owner. -/
theorem Ready.owner_ne (h : Ready s b held other lock)
    (hw : TransGen s.Waits o (s.entry lock).lfOwner) : o ≠ (s.entry lock).lfOwner := by
  obtain ⟨held', other', hinv⟩ := h.inv
  rintro rfl
  exact OwnerTable.Tally.acyclic hinv.tally (TransGen.mono (fun _ _ => Nat.add_pos_right _) _ _ hw)

/-- **`lf_activate_lock` implements the table of bytes.**

* The call is a sequence of rounds and leaves nothing to activate.
* The table after it is the table before it with the request set, and then each granted lock set
  in the order of activation, with the range and type it asked for.  None of these locks belongs
  to the owner of the request.
* So the owner has the requested type exactly on the requested bytes, and what it had elsewhere.
* In every round a pending lock is granted exactly when no active or granted lock, and no older
  lock that stays pending, blocks it; in particular every lock that is still pending after the
  call is blocked. -/
theorem lfActivateLock_table (h : Ready s b held other lock) :
    ReflTransGen Round (s, [lock]) (lfActivateLock s lock, []) ∧
    (∃ acts, s.lsPending.Perm (acts ++ (lfActivateLock s lock).lsPending) ∧
      (lfActivateLock s lock).table =
        acts.foldl (fun H i => H.set (s.entry i)) (s.table.set (s.entry lock)) ∧
      ∀ i ∈ acts, (s.entry i).lfOwner ≠ (s.entry lock).lfOwner) ∧
    (∀ byte, (lfActivateLock s lock).table (s.entry lock).lfOwner byte =
      if (s.entry lock).Covers byte then
        if (s.entry lock).lfType = .unlck then none else some (s.entry lock).lfType
      else s.table (s.entry lock).lfOwner byte) ∧
    (∀ p p', ReflTransGen Round (s, [lock]) p → Round p p' → ∀ x ∈ p.1.lsPending,
      (x ∈ p'.2 ↔ ∀ y, (y ∈ p'.1.lsActive ++ (p'.2 ++ held) ∨
        (y ∈ p'.1.lsPending ∧ [x, y].Sublist p.1.lsPending)) → ¬ p'.1.Blocks x y)) ∧
    (∀ x ∈ (lfActivateLock s lock).lsPending, ∃ y, (lfActivateLock s lock).Blocks x y ∧
      (y ∈ (lfActivateLock s lock).lsActive ++ held ∨
        [x, y].Sublist (lfActivateLock s lock).lsPending)) := by
  obtain ⟨hempty, hinv, acts, hall, hpending, -, hwaits⟩ := lfActivateLock_spec h
  have hready : RoundReady b held (s, [lock]) := by
    refine ⟨other, fun lock' granted heq => ?_⟩
    obtain ⟨rfl, rfl⟩ := List.cons.inj heq
    exact h
  have hne : ∀ i ∈ acts, (s.entry i).lfOwner ≠ (s.entry lock).lfOwner := fun i hi =>
    h.owner_ne (hwaits i hi).2
  refine ⟨?_, ⟨acts, hpending, hall.table, hne⟩, fun byte => ?_, ?_, ?_⟩
  · have hrounds := lfActivateLoop_rounds (s.lsPending.length + 1) s [lock]
    rw [show lfActivateLoop (s.lsPending.length + 1) s [lock] = (lfActivateLock s lock, []) from
      Prod.ext rfl hempty] at hrounds
    exact hrounds
  · rw [hall.table, foldl_cons, foldl_set_of_ne acts fun i hi => (hne i hi).symm, LockTable.set]
    simp
  · intro p p' hp hr x hx
    have hreadyp := hready.of_rounds hp
    obtain ⟨lock', new, granted, other', hp2, hp2', hact, hinv', -⟩ := Round.spec hreadyp hr
    obtain ⟨oth, hr'⟩ := hreadyp
    obtain ⟨held0, other₀, hinv0⟩ := (hr' lock' granted hp2).inv
    rw [hp2', append_assoc] at hinv'
    have hmem : x ∈ p'.2 ↔ x ∉ p'.1.lsPending := by
      rw [hp2']
      constructor
      · intro hm hm'
        refine hinv'.queue.not_holder x hm' (mem_append_right _ ?_)
        rw [← append_assoc]
        exact mem_append_left _ hm
      · intro hm
        exact mem_append_left _ ((mem_append.mp (hact.pending.mem_iff.mp hx)).resolve_right hm)
    rw [hmem, hact.granted_iff hinv0 hinv' hx, hp2', append_assoc]
  · intro x hx
    obtain ⟨y, hy⟩ := hinv.queue.blocked x hx
    have hd := hinv.queue.mem_edges.mp hy
    exact ⟨y, hd.2.1, hd.2.2⟩

/-- Write-locking bytes 2 to 5 of a file that is not locked. -/
theorem lfActivateLock_table_write :
    let lock : LockfEntry := ⟨2, 5, .wrlck, 0, 0, false, false, false⟩
    let s : LfState := ⟨LockfState.empty.newLock lock, lfRefOwner ⟨fun _ => none, graphInit⟩ 0 0 0⟩
    let b : Base := ⟨fun _ => 0, fun _ _ => 0, fun _ _ h => absurd h (lt_irrefl 0)⟩
    Ready s b [] [] 0 ∧ (lfActivateLock s 0).table 0 3 = some .wrlck ∧
      (lfActivateLock s 0).table 0 6 = s.table 0 6 := by
  intro lock s b
  have hempty : LfInv ⟨LockfState.empty, ⟨fun _ => none, graphInit⟩⟩ b [] [] :=
    ⟨LfShape.empty, OwnerTable.Tally.empty⟩
  have hnew : LfInv s b [] [0] := hempty.newLock lock (by decide) 0 0
  have hready : Ready s b [] [] 0 := by
    rcases hnew.addIncoming (by decide) (by decide) with ⟨g, E, hrun, -, hinv⟩ | ⟨g, hrun, -⟩
    · rw [Prod.mk.injEq] at hrun
      rw [← hrun.2] at hinv
      exact hinv
    · rw [Prod.mk.injEq] at hrun
      exact nomatch hrun.1
  have htable := (lfActivateLock_table hready).2.2.1
  exact ⟨hready, (htable 3).trans rfl, (htable 6).trans rfl⟩

end FreeBSDSys.Lockf
