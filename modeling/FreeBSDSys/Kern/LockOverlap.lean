import FreeBSDSys.Kern.LockQueue

/-!
# Cutting a range out of an owner's locks

Before `lf_activate_lock` inserts a lock, its inner loop takes the range of that lock out of the
locks the same owner already has: it removes, shortens or splits them, and wakes what they blocked.

`Carved o R s s' new` is what a step does that takes bytes of the range `R` from owner `o`: outside
the range and for other owners every byte is held as before, no entry in flight or pending changes,
and `new` are the locks that were woken.  It composes, so the loop has it because its steps have
it.

* `lfRemoveOverlap_spec`, `lfSetEnd_spec`, `lfSetStart_spec`, `lfSplit_spec`: the steps;
* `lfOverlapLoop_spec`: after the loop no active lock of the owner overlaps the range.
-/

namespace FreeBSDSys.Lockf

open Function List

/-! ## What a lock covers -/

/-- The lock covers the byte. -/
def LockfEntry.Covers (e : LockfEntry) (byte : ℕ) : Prop := e.lfStart ≤ byte ∧ byte ≤ e.lfEnd

instance (e : LockfEntry) (byte : ℕ) : Decidable (e.Covers byte) :=
  inferInstanceAs (Decidable (_ ∧ _))

/-- An active lock of the owner covers the byte, with that type. -/
def LockfState.Holds (s : LockfState) (o : OwnerId) (byte : ℕ) (ty : LockType) : Prop :=
  ∃ i ∈ s.lsActive, (s.entry i).lfOwner = o ∧ (s.entry i).Covers byte ∧ (s.entry i).lfType = ty

/-- No active lock of the owner of `lock` overlaps it. -/
def LockfState.Clear (s : LockfState) (lock : LockId) : Prop :=
  ∀ i ∈ s.lsActive, (s.entry i).lfOwner = (s.entry lock).lfOwner →
    ¬ lfOverlaps (s.entry i) (s.entry lock)

/-- A lock of the owner of `l` does not overlap it. -/
def Apart (entry : LockId → LockfEntry) (l : LockfEntry) (i : LockId) : Prop :=
  (entry i).lfOwner = l.lfOwner → ¬ lfOverlaps (entry i) l

/-- What a step that takes bytes of the range `R` from the locks of owner `o` does. -/
structure Carved (o : OwnerId) (R : ℕ → Prop) (s s' : LfState) (new : List LockId) : Prop where
  entry_eq : ∀ i < s.nextLock, i ∉ s.lsActive → s'.entry i = s.entry i
  owner_eq : ∀ i < s.nextLock, (s'.entry i).lfOwner = (s.entry i).lfOwner
  next_le : s.nextLock ≤ s'.nextLock
  active_sub : ∀ i < s.nextLock, i ∈ s'.lsActive → i ∈ s.lsActive
  pending : s.lsPending.Perm (new ++ s'.lsPending)
  sublist : s'.lsPending.Sublist s.lsPending
  edges : ∀ x, ∀ y < s.nextLock, (x, y) ∈ s'.edges → (x, y) ∈ s.edges
  waits : ∀ u v, 0 < s'.waitsOf u v → 0 < s.waitsOf u v
  woken : ∀ x ∈ new, 0 < s.waitsOf (s.entry x).lfOwner o
  table : ∀ u byte ty, ¬ (u = o ∧ R byte) → (s'.Holds u byte ty ↔ s.Holds u byte ty)

variable {s s' s'' s2 : LfState} {b : Base} {held other granted new new' : List LockId}
  {lock lf i : LockId} {o u : OwnerId} {R : ℕ → Prop} {l : LockfEntry}

theorem Carved.refl (o : OwnerId) (R : ℕ → Prop) (s : LfState) : Carved o R s s [] :=
  ⟨fun _ _ _ => rfl, fun _ _ => rfl, le_rfl, fun _ _ hi => hi, Perm.refl _,
    Sublist.refl _, fun _ _ _ he => he, fun _ _ hw => hw, by simp, fun _ _ _ _ => Iff.rfl⟩

theorem Carved.trans (hpend : ∀ x ∈ s.lsPending, x < s.nextLock) (h : Carved o R s s' new)
    (h' : Carved o R s' s'' new') : Carved o R s s'' (new' ++ new) := by
  refine ⟨?_, ?_, h.next_le.trans h'.next_le, ?_, ?_, h'.sublist.trans h.sublist, ?_, ?_, ?_, ?_⟩
  · intro i hi hna
    rw [h'.entry_eq i (hi.trans_le h.next_le) fun hm => hna (h.active_sub i hi hm),
      h.entry_eq i hi hna]
  · intro i hi
    rw [h'.owner_eq i (hi.trans_le h.next_le), h.owner_eq i hi]
  · intro i hi hm
    exact h.active_sub i hi (h'.active_sub i (hi.trans_le h.next_le) hm)
  · refine h.pending.trans ?_
    rw [append_assoc]
    refine (h'.pending.append_left new).trans ?_
    rw [← append_assoc, ← append_assoc]
    exact perm_append_comm.append_right _
  · intro x y hy he
    exact h.edges x y hy (h'.edges x y (hy.trans_le h.next_le) he)
  · intro u v hw
    exact h.waits u v (h'.waits u v hw)
  · intro x hx
    rcases mem_append.mp hx with hx | hx
    · have hxp : x ∈ s.lsPending := h.sublist.subset (h'.pending.mem_iff.mpr (mem_append_left _ hx))
      have hw := h.waits _ _ (h'.woken x hx)
      rw [h.owner_eq x (hpend x hxp)] at hw
      exact hw
    · exact h.woken x hx
  · intro u byte ty hout
    rw [← h.table u byte ty hout]
    exact h'.table u byte ty hout

/-! ## The steps -/

/-- A change of the edges and of ranges cannot add a wait. -/
theorem waitsOf_pos_of_edges (ho : ∀ i < s.nextLock, (s'.entry i).lfOwner = (s.entry i).lfOwner)
    (hlt : ∀ e ∈ s.edges, e.1 < s.nextLock ∧ e.2 < s.nextLock) (hsub : ∀ e ∈ s'.edges, e ∈ s.edges)
    {v : OwnerId} (hw : 0 < s'.waitsOf u v) : 0 < s.waitsOf u v := by
  obtain ⟨e, he, h1, h2⟩ := waitsOf_pos_iff.mp hw
  have he' := hsub e he
  rw [ho e.1 (hlt e he').1] at h1
  rw [ho e.2 (hlt e he').2] at h2
  exact waitsOf_pos_iff.mpr ⟨e, he', h1, h2⟩

theorem LfInv.edges_lt (h : LfInv s b held other) :
    ∀ e ∈ s.edges, e.1 < s.nextLock ∧ e.2 < s.nextLock := fun e he =>
  ⟨h.lt_next _ (h.edges_all e he).1, h.lt_next _ (h.edges_all e he).2⟩

theorem LfInv.active_lt (h : LfInv s b held other) (hi : i ∈ s.lsActive) :
    i < s.nextLock := h.lt_next i (mem_all.mpr (.inl hi))

theorem LfInv.pending_lt (h : LfInv s b held other) (hi : i ∈ s.lsPending) :
    i < s.nextLock := h.lt_next i (mem_all.mpr (.inr (.inl hi)))

theorem setRange_entry_self (s : LfState) (lf : LockId) (first last : ℕ) :
    (s.setRange lf first last).entry lf = { s.entry lf with lfStart := first, lfEnd := last } :=
  update_self ..

theorem setRange_entry_of_ne (s : LfState) {lf : LockId} (hi : i ≠ lf) (first last : ℕ) :
    (s.setRange lf first last).entry i = s.entry i :=
  update_of_ne hi _ _

theorem Woke.freeLock (h : Woke lf s s' new) (x : LockId) : Woke lf s (s'.freeLock x) new :=
  ⟨h.entry_eq, h.active_eq, h.next_eq, h.pending, h.sublist, h.edges, h.edge⟩

/-- A change of `lf` alone, followed by the wakeups. -/
theorem Woke.carved {s0 : LfState} (hwoke : Woke lf s0 s' new) (h : LfInv s b held other)
    (hlf : lf ∈ s.lsActive) (howner : (s.entry lf).lfOwner = o)
    (hnext : s0.nextLock = s.nextLock) (hpend : s0.lsPending = s.lsPending)
    (hedges : s0.edges = s.edges) (hactive : ∀ i ∈ s0.lsActive, i ∈ s.lsActive)
    (hself : (s0.entry lf).lfOwner = (s.entry lf).lfOwner)
    (hkeep : ∀ i, i ≠ lf → s0.entry i = s.entry i)
    (htable : ∀ u byte ty, ¬ (u = o ∧ R byte) → (s'.Holds u byte ty ↔ s.Holds u byte ty)) :
    Carved o R s s' new := by
  have hentry : ∀ i, i ≠ lf → s'.entry i = s.entry i := by
    intro i hi
    rw [hwoke.entry_eq, hkeep i hi]
  have hown : ∀ i < s.nextLock, (s'.entry i).lfOwner = (s.entry i).lfOwner := by
    intro i _
    by_cases hi : i = lf
    · rw [hi, hwoke.entry_eq, hself]
    · rw [hentry i hi]
  have hsub : ∀ e ∈ s'.edges, e ∈ s.edges := fun e he => hedges ▸ hwoke.edges.subset he
  refine ⟨fun i _ hi => hentry i fun he => hi (he ▸ hlf), hown, ?_, fun i _ hi => ?_,
    hpend ▸ hwoke.pending, hpend ▸ hwoke.sublist, fun _ _ _ => hsub _,
    fun u v => waitsOf_pos_of_edges hown h.edges_lt hsub, fun x hx => ?_, htable⟩
  · rw [hwoke.next_eq, hnext]
  · exact hactive i (hwoke.active_eq ▸ hi)
  · rw [← howner]
    exact waitsOf_pos (hedges ▸ hwoke.edge x hx)

section Overlap

variable (h : LfInv s b held other) (hgranted : ∀ i ∈ granted, i ∈ held) (hlf : lf ∈ s.lsActive)
  (howner : (s.entry lf).lfOwner = o)

include h hgranted hlf howner

/-- Removing an overlap that lies inside the range. -/
theorem lfRemoveOverlap_spec (hin : ∀ byte, (s.entry lf).Covers byte → R byte) :
    ∃ s' new, lfRemoveOverlap s lf granted = (s', new ++ granted) ∧
      LfInv s' b (new ++ held) other ∧ Carved o R s s' new ∧
      s'.lsActive = s.lsActive.erase lf ∧ s'.entry = s.entry := by
  obtain ⟨s1, new, hrun, hwoke, hinv⟩ :=
    (h.removeActive hlf).updateDependancies granted true hgranted (.inl ⟨rfl, mem_cons_self⟩)
  replace hwoke := hwoke.freeLock lf
  have hactive : (s1.freeLock lf).lsActive = s.lsActive.erase lf := hwoke.active_eq
  have hentry : (s1.freeLock lf).entry = s.entry := hwoke.entry_eq
  refine ⟨s1.freeLock lf, new, by rw [lfRemoveOverlap, hrun], hinv.freeLock, ?_, hactive, hentry⟩
  refine hwoke.carved h hlf howner rfl rfl rfl (fun _ => mem_of_mem_erase) rfl (fun _ _ => rfl)
    fun u byte ty hout => exists_congr fun i => ?_
  rw [hactive, hentry]
  by_cases hi : i = lf
  · subst hi
    exact ⟨fun h' => absurd rfl (h.active_nodup.mem_erase_iff.mp h'.1).1,
      fun h' => absurd ⟨h'.2.1.symm.trans howner, hin byte h'.2.2.1⟩ hout⟩
  · rw [mem_erase_of_ne hi]

/-- Giving an overlap a smaller range, when only bytes of the range go. -/
theorem shrink_spec {first last : ℕ} (hfirst : (s.entry lf).lfStart ≤ first)
    (hlast : last ≤ (s.entry lf).lfEnd) (hle : first ≤ last) {active : List LockId}
    (hactive : active.Perm s.lsActive)
    (hsorted : StartSorted (s.setRange lf first last).entry active)
    (hcut : ∀ byte, (s.entry lf).Covers byte → ¬ R byte → first ≤ byte ∧ byte ≤ last) :
    ∃ s' new, lfUpdateDependancies { s.setRange lf first last with lsActive := active } lf false
        granted = (s', new ++ granted) ∧
      LfInv s' b (new ++ held) other ∧ Carved o R s s' new ∧ s'.lsActive = active ∧
      s'.entry = (s.setRange lf first last).entry := by
  obtain ⟨s', new, hrun, hwoke, hinv⟩ :=
    (h.shrinkActive hlf hfirst hlast hle hactive hsorted).updateDependancies granted false
      hgranted (.inr ⟨rfl, mem_append_left _ (hactive.mem_iff.mpr hlf)⟩)
  have hentry : s'.entry = (s.setRange lf first last).entry := hwoke.entry_eq
  refine ⟨s', new, hrun, hinv, ?_, hwoke.active_eq, hentry⟩
  refine hwoke.carved h hlf howner rfl rfl rfl (fun _ => hactive.mem_iff.mp)
    (congrArg LockfEntry.lfOwner (setRange_entry_self s lf first last) :)
    (fun i hi => setRange_entry_of_ne s hi first last)
    fun u byte ty hout => exists_congr fun i => ?_
  rw [hwoke.active_eq, hactive.mem_iff, hentry]
  by_cases hi : i = lf
  · subst hi
    rw [setRange_entry_self]
    refine and_congr_right fun _ => and_congr_right fun h1 => and_congr_left fun _ =>
      ⟨fun h2 => ⟨hfirst.trans h2.1, h2.2.trans hlast⟩, fun h2 => hcut byte h2 fun hc => ?_⟩
    exact hout ⟨h1.symm.trans howner, hc⟩
  · rw [setRange_entry_of_ne s hi]

/-- Shortening an overlap at its end. -/
theorem lfSetEnd_spec (last : ℕ)
    (hle : (s.entry lf).lfStart ≤ last) (hlast : last ≤ (s.entry lf).lfEnd)
    (hcut : ∀ byte, (s.entry lf).Covers byte → ¬ R byte → byte ≤ last) :
    ∃ s' new, lfSetEnd s lf last granted = (s', new ++ granted) ∧
      LfInv s' b (new ++ held) other ∧ Carved o R s s' new ∧ s'.lsActive = s.lsActive ∧
      s'.entry = (s.setRange lf (s.entry lf).lfStart last).entry := by
  refine shrink_spec h hgranted hlf howner le_rfl hlast hle (Perm.refl _) ?_
    fun byte hc hn => ⟨hc.1, hcut byte hc hn⟩
  have hstart : ∀ i, ((s.setRange lf (s.entry lf).lfStart last).entry i).lfStart =
      (s.entry i).lfStart := by
    intro i
    by_cases hi : i = lf
    · rw [hi, setRange_entry_self]
    · rw [setRange_entry_of_ne s hi]
  refine h.sorted.imp fun {i j} hij => ?_
  rw [hstart i, hstart j]
  exact hij

/-- Shortening an overlap at its start. -/
theorem lfSetStart_spec (first : ℕ)
    (hfirst : (s.entry lf).lfStart ≤ first) (hle : first ≤ (s.entry lf).lfEnd)
    (hcut : ∀ byte, (s.entry lf).Covers byte → ¬ R byte → first ≤ byte) :
    ∃ s' new, lfSetStart s lf first granted = (s', new ++ granted) ∧
      LfInv s' b (new ++ held) other ∧ Carved o R s s' new ∧
      (∀ i, i ∈ s'.lsActive ↔ i ∈ s.lsActive) ∧
      s'.entry = (s.setRange lf first (s.entry lf).lfEnd).entry := by
  set t := s.setRange lf first (s.entry lf).lfEnd
  have hperm := (lfInsert_perm t.entry lf (s.lsActive.erase lf)).trans (perm_cons_erase hlf).symm
  have hsorted : StartSorted t.entry (s.lsActive.erase lf) := by
    refine (h.sorted.sublist erase_sublist).imp_of_mem fun {i j} hi hj hij => ?_
    have hne : ∀ k ∈ s.lsActive.erase lf, t.entry k = s.entry k := fun k hk =>
      update_of_ne (h.active_nodup.mem_erase_iff.mp hk).1 _ _
    rw [hne i hi, hne j hj]
    exact hij
  obtain ⟨s', new, hrun, hinv, hcarved, hact, hentry⟩ :=
    shrink_spec h hgranted hlf howner hfirst le_rfl hle hperm (lfInsert_sorted lf hsorted)
      fun byte hc hn => ⟨hcut byte hc hn, hc.2⟩
  refine ⟨s', new, hrun, hinv, hcarved, fun i => ?_, hentry⟩
  rw [hact]
  exact hperm.mem_iff

end Overlap

/-! ## Splitting -/

/-- The state once the tail of a lock that is split is a lock of its own, in flight. -/
def splitTail (s : LfState) (lf : LockId) (first : ℕ) : LfState :=
  (lfAddIncoming ⟨s.newLock { s.entry lf with lfStart := first },
    lfRefOwner s.toOwnerTable (s.entry lf).lfOwner 0 0⟩ s.nextLock).2

/-- The tail of a lock that is split, as a new entry in flight that holds: the edges it needs can
always be added, since the whole lock has them. -/
theorem splitTail_spec (h : LfInv s b held other) (hlf : lf ∈ s.lsActive) (first : ℕ)
    (hfirst : (s.entry lf).lfStart ≤ first) (hle : first ≤ (s.entry lf).lfEnd)
    (hs2 : s2 = splitTail s lf first) :
    LfInv s2 b (s.nextLock :: held) other ∧ Carved o R s s2 [] ∧ s2.lsActive = s.lsActive ∧
      (∀ i < s.nextLock, s2.entry i = s.entry i) ∧
      s2.entry s.nextLock = { s.entry lf with lfStart := first } := by
  have hinv := h.newLock { s.entry lf with lfStart := first } hle 0 0
  set s1 : LfState := ⟨s.newLock { s.entry lf with lfStart := first },
    lfRefOwner s.toOwnerTable (s.entry lf).lfOwner 0 0⟩ with hs1
  have hnew : s1.entry s.nextLock = { s.entry lf with lfStart := first } := update_self ..
  have hkeep : ∀ i < s.nextLock, s1.entry i = s.entry i := fun i hi =>
    update_of_ne hi.ne _ _
  -- whatever the tail blocks, the whole lock blocks
  have hblocks : ∀ i < s.nextLock, s1.Blocks s.nextLock i → s.Blocks lf i := by
    intro i hi hb
    rw [LockfState.Blocks, hnew, hkeep i hi] at hb
    exact ⟨hb.1, hb.2.1, hfirst.trans hb.2.2.1, hb.2.2.2⟩
  have hedge : ∀ c ∈ s.lsPending, s1.Blocks s.nextLock c → (c, lf) ∈ s.edges := fun c hc hb =>
    h.queue.mem_edges.mpr
      ⟨hc, lfBlocks_symm (hblocks c (h.pending_lt hc) hb), .inl (mem_append_left _ hlf)⟩
  have hfree : ∀ y ∈ s1.lsActive ++ held, ¬ s1.Blocks s.nextLock y := by
    intro y hy hb
    have hylt := h.lt_next y (mem_all_of_holder hy)
    exact h.queue.holders lf y (mem_append_left _ hlf) hy (hblocks y hylt hb)
  have hty : (s1.entry s.nextLock).lfType ≠ .unlck := by
    rw [hnew]
    exact h.locked lf (mem_all_nil.mpr (.inl hlf))
  rcases hinv.addIncoming hty hfree with ⟨g, E, hrun, hmem, hinv'⟩ | ⟨g, -, ⟨c, hc, hb, hz⟩, -⟩
  · rw [splitTail, hrun] at hs2
    subst hs2
    refine ⟨hinv', ⟨fun i hi _ => hkeep i hi, fun i hi => by rw [← hkeep i hi],
      Nat.le_succ _, fun _ _ hi => hi, Perm.refl _, Sublist.refl _, fun x y hy he => ?_,
      fun u v hw => ?_, by simp, fun u byte ty _ => ?_⟩, rfl, hkeep, hnew⟩
    · rcases (hmem _).mp he with he | ⟨c, -, -, heq⟩
      · exact he
      · exact absurd (Prod.mk.inj heq).2 hy.ne
    · obtain ⟨e, he, h1, h2⟩ := waitsOf_pos_iff.mp hw
      rcases (hmem e).mp he with he | ⟨c, hc, hb, rfl⟩
      · rw [hkeep _ (h.edges_lt e he).1] at h1
        rw [hkeep _ (h.edges_lt e he).2] at h2
        exact waitsOf_pos_iff.mpr ⟨e, he, h1, h2⟩
      · rw [hkeep c (h.pending_lt hc)] at h1
        rw [hnew] at h2
        exact waitsOf_pos_iff.mpr ⟨(c, lf), hedge c hc hb, h1, h2⟩
    · refine exists_congr fun i => and_congr_right fun hi => ?_
      rw [hkeep i (h.active_lt hi)]
  · -- a refused edge would be one that the whole lock does not have
    have hpos : 0 < s1.waitsOf (s1.entry c).lfOwner (s1.entry lf).lfOwner :=
      waitsOf_pos (hedge c hc hb)
    rw [hkeep lf (h.active_lt hlf)] at hpos
    rw [hnew] at hz
    exact absurd hz hpos.ne'

/-- Only one lock of the owner was near the range, and it is out of the way. -/
theorem LockfState.Clear.of_others {t t' : LockfState} (lf : LockId) (hlock : t'.entry lock = l)
    (hkeep : ∀ i ∈ t'.lsActive, i ≠ lf → i ∈ t.lsActive ∧ t'.entry i = t.entry i)
    (hself : lf ∈ t'.lsActive → ¬ lfOverlaps (t'.entry lf) l)
    (hapart : ∀ i ∈ t.lsActive, i ≠ lf → Apart t.entry l i) : t'.Clear lock := by
  intro i hi ho hov
  rw [hlock] at ho hov
  by_cases hi' : i = lf
  · subst hi'
    exact hself hi hov
  · obtain ⟨hit, he⟩ := hkeep i hi hi'
    rw [he] at ho hov
    exact hapart i hit hi' ho hov

/-- The same when that lock has been given another range. -/
theorem clear_of_setRange {first last : ℕ} (hentry : s'.entry = (s.setRange lf first last).entry)
    (hact : ∀ i ∈ s'.lsActive, i ∈ s.lsActive) (hl : s.entry lock = l) (hne : lock ≠ lf)
    (hself : last < l.lfStart ∨ l.lfEnd < first)
    (hapart : ∀ i ∈ s.lsActive, i ≠ lf → Apart s.entry l i) : s'.Clear lock := by
  refine .of_others lf ?_ (fun i hi hi' => ⟨hact i hi, ?_⟩) (fun _ hov => ?_) hapart
  · rw [hentry, setRange_entry_of_ne s hne, hl]
  · rw [hentry, setRange_entry_of_ne s hi']
  · rw [hentry, setRange_entry_self] at hov
    have h1 : first ≤ l.lfEnd := hov.1
    have h2 : l.lfStart ≤ last := hov.2
    omega

theorem mem_lfInsertLock : i ∈ (lfInsertLock s lock).lsActive ↔ i = lock ∨ i ∈ s.lsActive := by
  rw [← mem_cons]
  exact (lfInsert_perm s.entry lock s.lsActive).mem_iff

theorem holds_lfInsertLock {byte : ℕ} {ty : LockType} :
    (lfInsertLock s lock).Holds u byte ty ↔ ((s.entry lock).lfOwner = u ∧
      (s.entry lock).Covers byte ∧ (s.entry lock).lfType = ty) ∨ s.Holds u byte ty := by
  simp only [LockfState.Holds, mem_lfInsertLock, or_and_right, exists_or, exists_eq_left]
  rfl

/-- A new lock is inserted after a step. -/
theorem Carved.insertLock {R' : ℕ → Prop} (h : Carved o R' s s' new) (hx : s.nextLock ≤ lock)
    (htable : ∀ u byte ty, ¬ (u = o ∧ R byte) →
      ((lfInsertLock s' lock).Holds u byte ty ↔ s.Holds u byte ty)) :
    Carved o R s (lfInsertLock s' lock) new := by
  refine ⟨h.entry_eq, h.owner_eq, h.next_le, fun i hi hm => ?_, h.pending, h.sublist, h.edges,
    h.waits, h.woken, htable⟩
  exact h.active_sub i hi ((mem_lfInsertLock.mp hm).resolve_left (hi.trans_le hx).ne)

section

variable (h : LfInv s b held other) (hgranted : ∀ i ∈ granted, i ∈ held) (hlf : lf ∈ s.lsActive)

include h hgranted hlf

/-- The last case of `lf_split`: the range lies strictly inside the lock, whose tail becomes a lock
of its own. -/
theorem splitMiddle_spec (howner : (s.entry lf).lfOwner = l.lfOwner)
    (hl : s.entry lock = l) (hlock : lock ∉ s.lsActive) (hlt : lock < s.nextLock)
    (hrange : l.lfStart ≤ l.lfEnd) (hstart : (s.entry lf).lfStart < l.lfStart)
    (hend : l.lfEnd < (s.entry lf).lfEnd) (hs2 : s2 = splitTail s lf (l.lfEnd + 1)) :
    ∃ s3 new, lfSetEnd s2 lf (l.lfStart - 1) granted = (s3, new ++ granted) ∧
      LfInv (lfInsertLock s3 s.nextLock) b (new ++ held) other ∧
      Carved l.lfOwner l.Covers s (lfInsertLock s3 s.nextLock) new ∧
      (lfInsertLock s3 s.nextLock).Clear lock := by
  obtain ⟨hinv2, hcarved2, hactive2, hkeep2, hnew2⟩ :=
    splitTail_spec (R := fun byte => l.lfStart ≤ byte) h hlf (l.lfEnd + 1)
      (by omega) (by omega) hs2
  have hlflt := h.active_lt hlf
  have hlf2 := hkeep2 lf hlflt
  obtain ⟨s3, new, hrun, hinv3, hcarved3, hact, hentry⟩ :=
    lfSetEnd_spec (R := fun byte => l.lfStart ≤ byte) hinv2
      (fun i hi => mem_cons_of_mem _ (hgranted i hi)) (hactive2.symm ▸ hlf)
      (hlf2.symm ▸ howner) (l.lfStart - 1) (by rw [hlf2]; omega) (by rw [hlf2]; omega)
      (by intro byte _ hn; omega)
  rw [hactive2] at hact
  have hcarved := hcarved2.trans (fun x => h.pending_lt) hcarved3
  rw [append_nil] at hcarved
  -- the three kinds of entries after the cut
  have hself : s3.entry lf = { s.entry lf with lfEnd := l.lfStart - 1 } := by
    rw [hentry, setRange_entry_self, hlf2]
  have htail : s3.entry s.nextLock = { s.entry lf with lfStart := l.lfEnd + 1 } := by
    rw [hentry, setRange_entry_of_ne _ hlflt.ne', hnew2]
  have hkeep : ∀ i < s.nextLock, i ≠ lf → s3.entry i = s.entry i := by
    intro i hi hne
    rw [hentry, setRange_entry_of_ne _ hne, hkeep2 i hi]
  have hactive : ∀ i ∈ s3.lsActive, i ≠ lf → i ∈ s.lsActive ∧ s3.entry i = s.entry i := by
    intro i hi hne
    rw [hact] at hi
    exact ⟨hi, hkeep i (h.active_lt hi) hne⟩
  have hapart : ∀ i ∈ s.lsActive, i ≠ lf → (s.entry i).lfOwner = l.lfOwner →
      ¬ lfOverlaps (s.entry i) (s.entry lf) := fun i hi hne ho =>
    h.disjoint i hi lf hlf hne (ho.trans howner.symm)
  refine ⟨s3, new, hrun, LfInv.insertLock (hinv3.perm perm_middle (Perm.refl _)) ?_,
    hcarved.insertLock le_rfl fun u byte ty hout => ?_, ?_⟩
  · refine LockfState.Clear.of_others lf htail hactive (fun _ hov => ?_) ?_
    · rw [hself] at hov
      have h2 : l.lfEnd + 1 ≤ l.lfStart - 1 := hov.2
      omega
    · intro i hi hne ho hov
      have h2 : l.lfEnd + 1 ≤ (s.entry i).lfEnd := hov.2
      exact hapart i hi hne (ho.trans howner) ⟨hov.1, by omega⟩
  · rw [holds_lfInsertLock, htail]
    by_cases hR : u = l.lfOwner ∧ l.lfStart ≤ byte
    · -- behind the range the tail has taken the place of the lock
      obtain ⟨rfl, hb⟩ := hR
      have hgt : l.lfEnd + 1 ≤ byte := not_le.mp fun hc => hout ⟨rfl, hb, hc⟩
      constructor
      · rintro (hc | ⟨i, hi, hc⟩)
        · exact ⟨lf, hlf, hc.1, ⟨by omega, hc.2.1.2⟩, hc.2.2⟩
        · by_cases hne : i = lf
          · rw [hne, hself] at hc
            have h2 : byte ≤ l.lfStart - 1 := hc.2.1.2
            omega
          · obtain ⟨hi, he⟩ := hactive i hi hne
            exact ⟨i, hi, he ▸ hc⟩
      · rintro ⟨i, hi, hc⟩
        by_cases hne : i = lf
        · subst hne
          exact .inl ⟨hc.1, ⟨hgt, hc.2.1.2⟩, hc.2.2⟩
        · exact .inr ⟨i, hact ▸ hi, by rwa [hkeep i (h.active_lt hi) hne]⟩
    · rw [or_iff_right fun hc => hR ⟨hc.1.symm.trans howner, ?_⟩]
      · exact hcarved.table u byte ty hR
      · have h1 : l.lfEnd + 1 ≤ byte := hc.2.1.1
        omega
  · refine .of_others (t := s3.toLockfState) s.nextLock
      ((hkeep lock hlt fun he => hlock (he ▸ hlf)).trans hl) (fun i hi hne => ?_)
      (fun _ hov => ?_) fun i hi _ ho hov => ?_
    · exact ⟨(mem_lfInsertLock.mp hi).resolve_left hne, rfl⟩
    · change lfOverlaps (s3.entry s.nextLock) l at hov
      rw [htail] at hov
      have h1 : l.lfEnd + 1 ≤ l.lfEnd := hov.1
      omega
    · by_cases hne : i = lf
      · rw [hne, hself] at hov
        have h2 : l.lfStart ≤ l.lfStart - 1 := hov.2
        omega
      · obtain ⟨hi, he⟩ := hactive i hi hne
        rw [he] at ho hov
        exact hapart i hi hne ho ⟨hov.1.trans hend.le, hstart.le.trans hov.2⟩

/-- `lf_split` of a lock that contains the range, and more. -/
theorem lfSplit_spec (howner : (s.entry lf).lfOwner = l.lfOwner) (hl : s.entry lock = l)
    (hlock : lock ∉ s.lsActive) (hlt : lock < s.nextLock) (hrange : l.lfStart ≤ l.lfEnd)
    (hstart : (s.entry lf).lfStart ≤ l.lfStart) (hend : l.lfEnd ≤ (s.entry lf).lfEnd)
    (hne : ¬ ((s.entry lf).lfStart = l.lfStart ∧ (s.entry lf).lfEnd = l.lfEnd)) :
    ∃ s' new, lfSplit s lf lock granted = (s', new ++ granted) ∧
      LfInv s' b (new ++ held) other ∧ Carved l.lfOwner l.Covers s s' new ∧ s'.Clear lock := by
  have hlflock : lock ≠ lf := fun he => hlock (he ▸ hlf)
  -- the other locks of the owner are apart from the lock that is split
  have hapart : ∀ i ∈ s.lsActive, i ≠ lf → Apart s.entry l i := by
    rintro i hi hilf ho ⟨h1, h2⟩
    exact h.disjoint i hi lf hlf hilf (ho.trans howner.symm) ⟨h1.trans hend, hstart.trans h2⟩
  rw [lfSplit, hl]
  by_cases h1 : (s.entry lf).lfStart = l.lfStart
  · rw [if_pos h1]
    obtain ⟨s', new, hrun, hinv, hcarved, hact, hentry⟩ :=
      lfSetStart_spec (R := l.Covers) h hgranted hlf howner (l.lfEnd + 1)
        (by omega) (by omega) (by intro byte hc hn; unfold LockfEntry.Covers at hc hn; omega)
    exact ⟨s', new, hrun, hinv, hcarved, clear_of_setRange hentry (fun i => (hact i).mp) hl hlflock
      (by omega) hapart⟩
  rw [if_neg h1]
  by_cases h2 : (s.entry lf).lfEnd = l.lfEnd
  · rw [if_pos h2]
    obtain ⟨s', new, hrun, hinv, hcarved, hact, hentry⟩ :=
      lfSetEnd_spec (R := l.Covers) h hgranted hlf howner (l.lfStart - 1) (by omega) (by omega)
        (by intro byte hc hn; unfold LockfEntry.Covers at hc hn; omega)
    exact ⟨s', new, hrun, hinv, hcarved, clear_of_setRange hentry (fun i => hact ▸ id) hl hlflock
      (by omega) hapart⟩
  rw [if_neg h2]
  obtain ⟨s3, new, hrun, hinv, hcarved, hclear⟩ := splitMiddle_spec h hgranted hlf howner hl hlock
    hlt hrange (by omega) (by omega) rfl
  rw [splitTail] at hrun
  exact ⟨lfInsertLock s3 s.nextLock, new, by simp [hrun], hinv, hcarved, hclear⟩

end

/-! ## The loop -/

section Search

variable {entry : LockId → LockfEntry} {l : LockfEntry} {overlap : List LockId}

/-- What a search finds: nothing that overlaps, or the first lock of the owner that does. -/
def Found (entry : LockId → LockfEntry) (l : LockfEntry) (overlap : List LockId)
    (r : OvCase × List LockId) : Prop :=
  (r.1 = .noOverlap ∧ ∀ i ∈ overlap, Apart entry l i) ∨
  ∃ pre lf rest, overlap = pre ++ lf :: rest ∧ r = (lfClassify (entry lf) l, lf :: rest) ∧
    (entry lf).lfOwner = l.lfOwner ∧ lfOverlaps (entry lf) l ∧ ∀ i ∈ pre, Apart entry l i

/-- The search passes over a lock. -/
theorem Found.cons {r : OvCase × List LockId} (h : Found entry l overlap r)
    (hno : Apart entry l lf) : Found entry l (lf :: overlap) r := by
  rcases h with ⟨h1, h2⟩ | ⟨pre, lf', rest', h1, h2, h3, h4, h5⟩
  · exact .inl ⟨h1, forall_mem_cons.mpr ⟨hno, h2⟩⟩
  · exact .inr ⟨lf :: pre, lf', rest', by rw [h1, cons_append], h2, h3, h4,
      forall_mem_cons.mpr ⟨hno, h5⟩⟩

/-- The list must be sorted, since `lf_findoverlap` stops at the first lock behind the range. -/
theorem lfFindoverlap_spec (hs : StartSorted entry overlap) :
    Found entry l overlap (lfFindoverlap entry l overlap) := by
  induction overlap with
  | nil => exact .inl ⟨rfl, by simp⟩
  | cons lf rest ih =>
    obtain ⟨hlf, hrest⟩ := pairwise_cons.mp hs
    by_cases h1 : (entry lf).lfStart > l.lfEnd
    · refine .inl ⟨by rw [lfFindoverlap, if_pos h1], ?_⟩
      rintro i hi - ⟨h2, -⟩
      rcases mem_cons.mp hi with rfl | hi
      · omega
      · have := hlf i hi
        omega
    · by_cases h2 : (entry lf).lfOwner ≠ l.lfOwner
      · rw [lfFindoverlap, if_neg h1, if_pos h2]
        exact (ih hrest).cons fun he => absurd he h2
      · by_cases h3 : l.lfStart > (entry lf).lfEnd
        · rw [lfFindoverlap, if_neg h1, if_neg h2, if_pos h3]
          refine (ih hrest).cons ?_
          rintro - ⟨-, h4⟩
          omega
        · refine .inr ⟨[], lf, rest, rfl, ?_, not_not.mp h2, ⟨not_lt.mp h1, not_lt.mp h3⟩, by simp⟩
          rw [lfFindoverlap, if_neg h1, if_neg h2, if_neg h3]

end Search

/-- The cases of `lf_findoverlap` for a lock that overlaps: its `panic` is not one of them. -/
theorem lfClassify_cases {e : LockfEntry} (hov : lfOverlaps e l) :
    (lfClassify e l = .equal ∧ e.lfStart = l.lfStart ∧ e.lfEnd = l.lfEnd) ∨
    (lfClassify e l = .overlapContains ∧ e.lfStart ≤ l.lfStart ∧ l.lfEnd ≤ e.lfEnd ∧
      ¬ (e.lfStart = l.lfStart ∧ e.lfEnd = l.lfEnd)) ∨
    (lfClassify e l = .lockContains ∧ l.lfStart ≤ e.lfStart ∧ e.lfEnd ≤ l.lfEnd) ∨
    (lfClassify e l = .startsBefore ∧ e.lfStart < l.lfStart ∧ l.lfStart ≤ e.lfEnd ∧
      e.lfEnd < l.lfEnd) ∨
    lfClassify e l = .endsAfter ∧ l.lfStart < e.lfStart ∧ l.lfEnd < e.lfEnd := by
  unfold lfOverlaps at hov
  unfold lfClassify
  split_ifs with c1 c2 c3 c4 c5
  · exact .inl ⟨rfl, c1⟩
  · exact .inr (.inl ⟨rfl, c2.1, c2.2, c1⟩)
  · exact .inr (.inr (.inl ⟨rfl, c3⟩))
  · exact .inr (.inr (.inr (.inl ⟨rfl, c4.1, c4.2, by omega⟩)))
  · exact .inr (.inr (.inr (.inr ⟨rfl, c5⟩)))
  · omega

/-- **The loop over the owner's locks** cuts the range of `lock` out of them. -/
theorem lfOverlapLoop_spec :
    ∀ (bound : ℕ) (granted : List LockId) {overlap pre held : List LockId} {s : LfState},
      overlap.length < bound → s.lsActive = pre ++ overlap →
      (∀ i ∈ pre, Apart s.entry (s.entry lock) i) →
      LfInv s b held other → (∀ i ∈ granted, i ∈ held) → lock ∈ held ++ other →
      ∃ s' new, lfOverlapLoop lock bound overlap s granted = (s', new ++ granted) ∧
        LfInv s' b (new ++ held) other ∧
        Carved (s.entry lock).lfOwner (s.entry lock).Covers s s' new ∧ s'.Clear lock := by
  intro bound
  induction bound with
  | zero =>
    intro granted overlap pre held s hlen
    omega
  | succ bound ih =>
    intro granted overlap pre held s hlen hsplit hpre h hgranted hlock
    obtain ⟨hlt, hna⟩ := h.off_active (mem_append_right _ hlock)
    have hrange := h.range lock (mem_all.mpr (.inr (.inr (mem_append.mp hlock))))
    have hsorted : StartSorted s.entry overlap := by
      have hs := h.sorted
      rw [hsplit] at hs
      exact (pairwise_append.mp hs).2.1
    rw [lfOverlapLoop]
    generalize hl : s.entry lock = l at hpre hrange ⊢
    rcases lfFindoverlap_spec hsorted with
      ⟨hno, hrest⟩ | ⟨skip, lf, rest, heq, hfind, howner, hov, hskip⟩
    · -- no overlap
      refine ⟨s, [], ?_, h, Carved.refl _ _ _, fun i hi => ?_⟩
      · generalize lfFindoverlap s.entry l overlap = r at hno
        obtain ⟨c, rest⟩ := r
        subst hno
        rfl
      · rw [hsplit] at hi
        rw [hl]
        exact (mem_append.mp hi).elim (hpre i) (hrest i)
    rw [hfind]
    have hact' : s.lsActive = (pre ++ skip) ++ lf :: rest := by
      rw [hsplit, heq, append_assoc]
    have hlf : lf ∈ s.lsActive := by
      rw [hact']
      exact mem_append_right _ mem_cons_self
    have hlock_ne : lock ≠ lf := fun he => hna (he ▸ hlf)
    have hpre' : ∀ i ∈ pre ++ skip, Apart s.entry l i := fun i hi =>
      (mem_append.mp hi).elim (hpre i) (hskip i)
    have hlfpre : lf ∉ pre ++ skip := by
      have hnodup := h.active_nodup
      rw [hact'] at hnodup
      exact fun hm => (nodup_append.mp hnodup).2.2 lf hm lf mem_cons_self rfl
    have hdisj : ∀ i ∈ s.lsActive, i ≠ lf → (s.entry i).lfOwner = l.lfOwner →
        ¬ lfOverlaps (s.entry i) (s.entry lf) := fun i hi hne ho =>
      h.disjoint i hi lf hlf hne (ho.trans howner.symm)
    -- going on behind `lf`, in a state where `lf` is out of the way
    have hgo : ∀ active1 {s1 : LfState} {new1 : List LockId},
        LfInv s1 b (new1 ++ held) other → Carved l.lfOwner l.Covers s s1 new1 →
        s1.lsActive = active1 ++ rest →
        (∀ i ∈ active1, Apart s1.entry l i) →
        ∃ s' new, lfOverlapLoop lock bound rest s1 (new1 ++ granted) = (s', new ++ granted) ∧
          LfInv s' b (new ++ held) other ∧ Carved l.lfOwner l.Covers s s' new ∧
          s'.Clear lock := by
      intro active1 s1 new1 hinv1 hcarved1 hsplit1 hclear1
      have hentry := (hcarved1.entry_eq lock hlt hna).trans hl
      have hlen' : rest.length < bound := by
        rw [heq, length_append, length_cons] at hlen
        omega
      obtain ⟨s', new, hrun, hinv, hcarved, hclear⟩ := ih (new1 ++ granted) hlen' hsplit1
        (hentry.symm ▸ hclear1) hinv1
        (fun i hi => mem_append.mpr ((mem_append.mp hi).imp_right (hgranted i)))
        (mem_append.mpr ((mem_append.mp hlock).imp_left (mem_append_right _)))
      rw [hentry] at hcarved
      refine ⟨s', new ++ new1, ?_, ?_, hcarved1.trans (fun x => h.pending_lt) hcarved, hclear⟩
      · rw [hrun, append_assoc]
      · rw [append_assoc]
        exact hinv
    rcases lfClassify_cases hov with ⟨hc, c1⟩ | ⟨hc, c2, c2', hne⟩ | ⟨hc, c3⟩ | ⟨hc, c4⟩ | ⟨hc, c5⟩
    · -- overlap == lock
      rw [hc]
      obtain ⟨s', new, hrun, hinv, hcarved, hactive, hentry⟩ := lfRemoveOverlap_spec
        (R := l.Covers) h hgranted hlf howner
        fun byte hb => ⟨c1.1 ▸ hb.1, c1.2 ▸ hb.2⟩
      refine ⟨s', new, hrun, hinv, hcarved, .of_others (t := s.toLockfState) (l := l) lf ?_ ?_ ?_ ?_⟩
      · rw [hentry, hl]
      · intro i hi _
        rw [hactive] at hi
        exact ⟨mem_of_mem_erase hi, by rw [hentry]⟩
      · intro hm
        rw [hactive] at hm
        exact absurd rfl (h.active_nodup.mem_erase_iff.mp hm).1
      · rintro i hi hne ho ⟨h1, h2⟩
        exact hdisj i hi hne ho ⟨c1.2.symm ▸ h1, c1.1.symm ▸ h2⟩
    · -- overlap contains lock
      rw [hc]
      exact lfSplit_spec h hgranted hlf howner hl hna hlt hrange c2 c2' hne
    · -- lock contains overlap
      rw [hc]
      obtain ⟨s1, new1, hrun1, hinv1, hcarved1, hactive, hentry⟩ := lfRemoveOverlap_spec
        (R := l.Covers) h hgranted hlf howner
        fun byte hb => ⟨c3.1.trans hb.1, hb.2.trans c3.2⟩
      simp only [hrun1]
      refine hgo (pre ++ skip) hinv1 hcarved1 ?_ (hentry.symm ▸ hpre')
      rw [hactive, hact', erase_append_right _ hlfpre, erase_cons_head]
    · -- overlap starts before lock
      rw [hc]
      obtain ⟨s1, new1, hrun1, hinv1, hcarved1, hactive, hentry⟩ := lfSetEnd_spec
        (R := l.Covers) h hgranted hlf howner (l.lfStart - 1) (by omega) (by omega)
        (by intro byte hc hn; unfold LockfEntry.Covers at hc hn; omega)
      simp only [hrun1]
      refine hgo (pre ++ skip ++ [lf]) hinv1 hcarved1 ?_ fun i hi ho => ?_
      · rw [hactive, hact', append_assoc _ [lf] rest]
        rfl
      · rw [hentry] at ho ⊢
        rcases mem_append.mp hi with hi | hi
        · have hne : i ≠ lf := fun he => hlfpre (he ▸ hi)
          rw [setRange_entry_of_ne s hne] at ho ⊢
          exact hpre' i hi ho
        · rw [mem_singleton.mp hi, setRange_entry_self]
          intro hov'
          have h2 : l.lfStart ≤ l.lfStart - 1 := hov'.2
          omega
    · -- overlap ends after lock
      rw [hc]
      obtain ⟨s', new, hrun, hinv, hcarved, hactive, hentry⟩ := lfSetStart_spec
        (R := l.Covers) h hgranted hlf howner (l.lfEnd + 1)
        (by have := hov.1; omega) (by omega)
        (by intro byte hc hn; unfold LockfEntry.Covers at hc hn; omega)
      refine ⟨s', new, hrun, hinv, hcarved, clear_of_setRange hentry (fun i => (hactive i).mp) hl
        hlock_ne (by omega) fun i hi hne ho hov' => ?_⟩
      -- what overlaps besides `lf` comes behind it
      have hir : i ∈ rest := by
        rw [hact'] at hi
        rcases mem_append.mp hi with hi | hi
        · exact absurd hov' (hpre' i hi ho)
        · exact (mem_cons.mp hi).resolve_left hne
      rw [heq] at hsorted
      have hle := (pairwise_cons.mp (pairwise_append.mp hsorted).2.1).1 i hir
      have hd := hdisj i hi hne ho
      have hri := h.range i (mem_all.mpr (.inl hi))
      unfold lfOverlaps at hd hov'
      omega

end FreeBSDSys.Lockf
