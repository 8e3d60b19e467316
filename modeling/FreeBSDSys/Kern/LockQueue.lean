import FreeBSDSys.Kern.LockOwners
import FreeBSDSys.Lib.WaitQueue

/-!
# The invariant of a file's locks

`LfValid s b held other S` is the invariant of one file in the middle of an operation.  Besides the
two lists of the file there are entries in flight: `held` are locks that have been granted, so they
block others, but are not yet in the active list; `other` are requests that block nobody.  The
edges are exact for the holders (active or held) and the pending locks, apart from the stale edges
`S`.  `LfInv` is the case without stale edges; between two operations nothing is in flight.

The lemmas of this file say how the small operations of the lock manager keep it:

* `LfInv.newLock`, `LfInv.freeLock`: an entry comes and goes;
* `LfInv.addIncoming`, `LfInv.addOutgoing`: a request gets its edges and is granted, or queued;
* `LfInv.shrinkActive`, `LfInv.removeActive`, `LfInv.insertLock`: the active list changes;
* `LfValid.updateDependancies`: stale edges go, and locks are woken.
-/

namespace FreeBSDSys.Lockf

open Function LfState List LockfState WaitQueue

/-! ## The invariant -/

/-- `lf_blocks` on the entries of a file. -/
def LockfState.Blocks (s : LockfState) (x y : LockId) : Prop := lfBlocks (s.entry x) (s.entry y)

instance (s : LockfState) (x y : LockId) : Decidable (s.Blocks x y) :=
  inferInstanceAs (Decidable (lfBlocks _ _))

/-- All entries of a file. -/
def LockfState.all (s : LockfState) (held other : List LockId) : List LockId :=
  s.lsActive ++ s.lsPending ++ held ++ other

/-- The list is ordered by the starts of its locks. -/
abbrev StartSorted (entry : LockId → LockfEntry) (l : List LockId) : Prop :=
  l.Pairwise fun i j => (entry i).lfStart ≤ (entry j).lfStart

/-- The lists and edges of a file with the entries `held` and `other` in flight and the stale edges
`S`. -/
structure LfShape (l : LockfState) (held other : List LockId) (S : LockId → LockId → Prop) :
    Prop where
  nodup : (l.all held other).Nodup
  lt_next : ∀ i ∈ l.all held other, i < l.nextLock
  range : ∀ i ∈ l.all held other, (l.entry i).lfStart ≤ (l.entry i).lfEnd
  locked : ∀ i ∈ l.all held [], (l.entry i).lfType ≠ .unlck
  sorted : l.lsActive.Pairwise fun i j => (l.entry i).lfStart ≤ (l.entry j).lfStart
  disjoint : ∀ i ∈ l.lsActive, ∀ j ∈ l.lsActive, i ≠ j →
    (l.entry i).lfOwner = (l.entry j).lfOwner → ¬ lfOverlaps (l.entry i) (l.entry j)
  queue : Valid l.Blocks (· ∈ l.lsActive ++ held) l.lsPending l.edges S
  stale_all : ∀ x y, S x y → y ∈ l.all held other

/-- The invariant of a file: its shape, and the table shows its entries and edges. -/
structure LfValid (s : LfState) (b : Base) (held other : List LockId) (S : LockId → LockId → Prop) :
    Prop extends LfShape s.toLockfState held other S where
  tally : s.Tallied b (s.all held other)

/-- The invariant without stale edges. -/
abbrev LfInv (s : LfState) (b : Base) (held other : List LockId) : Prop :=
  LfValid s b held other fun _ _ => False

/-- The edges into a lock. -/
def LockfState.EdgeInto (s : LockfState) (lock : LockId) (x z : LockId) : Prop :=
  z = lock ∧ (x, lock) ∈ s.edges

theorem lfBlocks_irrefl (x : LockfEntry) : ¬ lfBlocks x x := fun h => h.1 rfl

theorem lfBlocks_symm {x y : LockfEntry} (h : lfBlocks x y) : lfBlocks y x :=
  ⟨h.1.symm, h.2.1.symm, h.2.2.2, h.2.2.1⟩

variable {s s' : LfState} {b : Base} {held other held' other' granted cs : List LockId}
  {S : LockId → LockId → Prop} {lock x y i : LockId} {e : LockId × LockId}
  {edge : LockId → LockId × LockId} {entry : LockId → LockfEntry}

theorem mem_all {l : LockfState} : i ∈ l.all held other ↔
    i ∈ l.lsActive ∨ i ∈ l.lsPending ∨ i ∈ held ∨ i ∈ other := by
  simp only [LockfState.all, mem_append]
  tauto

theorem mem_all_nil {l : LockfState} : i ∈ l.all held [] ↔
    i ∈ l.lsActive ∨ i ∈ l.lsPending ∨ i ∈ held := by
  rw [mem_all]
  simp

theorem mem_all_of_holder {l : LockfState} (hi : i ∈ l.lsActive ++ held) :
    i ∈ l.all held other := by
  rw [mem_all]
  rw [mem_append] at hi
  tauto

theorem LfShape.edge_mem {l : LockfState} (h : LfShape l held other S) (he : e ∈ l.edges) :
    e.1 ∈ l.lsPending ∧ e.2 ∈ l.all held other := by
  rcases (h.queue.edges_iff e.1 e.2).mp he with hd | hs
  · refine ⟨hd.1, ?_⟩
    rcases hd.mem_or with hh | hp
    · exact mem_all_of_holder hh
    · exact mem_all.mpr (.inr (.inl hp))
  · exact ⟨h.queue.stale_mem _ _ hs, h.stale_all _ _ hs⟩

theorem LfShape.edges_all {l : LockfState} (h : LfShape l held other S) :
    ∀ e ∈ l.edges, e.1 ∈ l.all held other ∧ e.2 ∈ l.all held other := fun _ he =>
  ⟨mem_all.mpr (.inr (.inl (h.edge_mem he).1)), (h.edge_mem he).2⟩

/-- The same entries in other lists; those that are no longer requests must be locks. -/
theorem LfShape.reorder {l l' : LockfState} {S' : LockId → LockId → Prop}
    (h : LfShape l held other S) (hentry : l'.entry = l.entry) (hnext : l'.nextLock = l.nextLock)
    (hperm : (l.all held other).Perm (l'.all held' other'))
    (hlocked : ∀ i ∈ other, i ∉ other' → (l.entry i).lfType ≠ .unlck)
    (hsorted : StartSorted l.entry l'.lsActive)
    (hdisjoint : ∀ i ∈ l'.lsActive, ∀ j ∈ l'.lsActive, i ≠ j →
      (l.entry i).lfOwner = (l.entry j).lfOwner → ¬ lfOverlaps (l.entry i) (l.entry j))
    (hqueue : Valid l'.Blocks (· ∈ l'.lsActive ++ held') l'.lsPending l'.edges S')
    (hstale : ∀ x y, S' x y → y ∈ l'.all held' other') : LfShape l' held' other' S' := by
  have hnodup := hperm.nodup_iff.mp h.nodup
  refine ⟨hnodup, fun i hi => ?_, fun i hi => ?_, fun i hi => ?_, ?_, ?_, hqueue, hstale⟩
  · rw [hnext]
    exact h.lt_next i (hperm.mem_iff.mpr hi)
  · rw [hentry]
    exact h.range i (hperm.mem_iff.mpr hi)
  · rw [LockfState.all, append_nil] at hi
    rw [hentry]
    rcases mem_append.mp (hperm.mem_iff.mpr (mem_append_left other' hi)) with hl | ho
    · exact h.locked i (mem_append_left [] hl)
    · exact hlocked i ho fun ho' => (nodup_append.mp hnodup).2.2 i hi i ho' rfl
  · rw [hentry]
    exact hsorted
  · rw [hentry]
    exact hdisjoint

namespace LfValid

section

variable (h : LfValid s b held other S)

include h

/-- A request in flight neither holds nor waits. -/
theorem not_other (hx : x ∈ other) : x ∉ s.all held [] := by
  rw [LockfState.all, append_nil]
  exact fun hi => (nodup_append.mp h.nodup).2.2 x hi x hx rfl

/-- The entries besides the active locks. -/
theorem off_active (hi : i ∈ s.lsPending ++ (held ++ other)) : i < s.nextLock ∧ i ∉ s.lsActive := by
  have hall : s.all held other = s.lsActive ++ (s.lsPending ++ (held ++ other)) := by
    simp [LockfState.all]
  have hn := h.nodup
  have hlt := h.lt_next i
  rw [hall] at hn hlt
  exact ⟨hlt (mem_append_right _ hi), fun hm => (nodup_append.mp hn).2.2 i hm i hi rfl⟩

theorem active_nodup : s.lsActive.Nodup := by
  have hn := h.nodup
  simp only [LockfState.all, append_assoc] at hn
  exact (nodup_append.mp hn).1

/-- The order of the entries in flight does not matter. -/
theorem perm (hh : held.Perm held') (ho : other.Perm other') : LfValid s b held' other' S := by
  have hall : (s.all held other).Perm (s.all held' other') := (hh.append_left _).append ho
  refine ⟨h.reorder rfl rfl hall (fun _ hi => absurd (ho.mem_iff.mp hi)) h.sorted h.disjoint
    ?_ fun x y hs => hall.mem_iff.mp (h.stale_all x y hs), h.tally.perm hall⟩
  refine h.queue.congr h.queue.irrefl h.queue.symm (fun i => ?_) fun i j _ _ => Iff.rfl
  exact (hh.append_left _).mem_iff

end

end LfValid

/-- Requests in flight that block nobody have no edges. -/
theorem LfInv.edge_ne (h : LfInv s b held other) (hx : x ∈ other) :
    ∀ e ∈ s.edges, e.1 ≠ x ∧ e.2 ≠ x := by
  intro e he
  have hd := h.queue.mem_edges.mp he
  constructor
  · rintro rfl
    exact h.not_other hx (mem_all_nil.mpr (.inr (.inl hd.1)))
  · rintro rfl
    rcases hd.mem_or with hh | hp
    · exact h.not_other hx (mem_all_of_holder hh)
    · exact h.not_other hx (mem_all_nil.mpr (.inr (.inl hp)))

/-- A change of entries that keeps those of holders and waiters. -/
theorem LfShape.keep {l m : LockfState} (h : LfShape l held other S)
    (hkeep : ∀ i ∈ l.all held [], m.entry i = l.entry i) :
    (∀ i ∈ l.all held [], (m.entry i).lfType ≠ .unlck) ∧
    StartSorted m.entry l.lsActive ∧
    (∀ i ∈ l.lsActive, ∀ j ∈ l.lsActive, i ≠ j → (m.entry i).lfOwner = (m.entry j).lfOwner →
      ¬ lfOverlaps (m.entry i) (m.entry j)) ∧
    Valid m.Blocks (· ∈ l.lsActive ++ held) l.lsPending l.edges S := by
  have hact : ∀ i ∈ l.lsActive, m.entry i = l.entry i := fun i hi =>
    hkeep i (mem_all_nil.mpr (.inl hi))
  have hmem : ∀ i, (i ∈ l.lsActive ++ held ∨ i ∈ l.lsPending) → m.entry i = l.entry i := by
    intro i hi
    rcases hi with hi | hi
    · exact hkeep i (mem_all_of_holder hi)
    · exact hkeep i (mem_all_nil.mpr (.inr (.inl hi)))
  refine ⟨fun i hi => ?_, h.sorted.imp_of_mem fun {i j} hi hj hle => ?_,
    fun i hi j hj hne => ?_, ?_⟩
  · rw [hkeep i hi]
    exact h.locked i hi
  · rw [hact i hi, hact j hj]
    exact hle
  · rw [hact i hi, hact j hj]
    exact h.disjoint i hi j hj hne
  · refine h.queue.congr (fun x => lfBlocks_irrefl _) (fun x y => lfBlocks_symm) (fun i => Iff.rfl)
      fun i j hi hj => ?_
    rw [Blocks, Blocks, hmem i hi, hmem j hj]

/-! ## Entries come and go -/

/-- A file without locks. -/
theorem LfShape.empty : LfShape empty [] [] fun _ _ => False := by
  refine ⟨nodup_nil, by simp [LockfState.all, LockfState.empty],
    by simp [LockfState.all, LockfState.empty], by simp [LockfState.all, LockfState.empty],
    Pairwise.nil, by simp [LockfState.empty], ?_, nofun⟩
  exact ⟨fun x => lfBlocks_irrefl _, fun x y => lfBlocks_symm, nodup_nil, nodup_nil,
    by simp [LockfState.empty], by simp [LockfState.empty, Dep], nofun,
    by simp [LockfState.empty], by simp [LockfState.empty]⟩

/-- `lf_alloc_lock`: the new entry is in flight. -/
theorem LfInv.newLock (h : LfInv s b held other) (e : LockfEntry) (he : e.lfStart ≤ e.lfEnd)
    (pid sysid : ℤ) :
    LfInv ⟨s.newLock e, lfRefOwner s.toOwnerTable e.lfOwner pid sysid⟩ b held
      (s.nextLock :: other) := by
  have hfresh : ∀ i ∈ s.all held other, i ≠ s.nextLock := fun i hi => (h.lt_next i hi).ne
  have hkeep : ∀ i ∈ s.all held other, (s.newLock e).entry i = s.entry i := fun i hi =>
    update_of_ne (hfresh i hi) _ _
  have hnil : ∀ i ∈ s.all held [], i ∈ s.all held other := by
    intro i hi
    rw [mem_all]
    rw [mem_all_nil] at hi
    tauto
  obtain ⟨hlocked, hsorted, hdisjoint, hqueue⟩ := h.keep fun i hi => hkeep i (hnil i hi)
  have hperm : ((s.newLock e).all held (s.nextLock :: other)).Perm
      (s.nextLock :: s.all held other) := perm_middle
  have hmem : ∀ i, i ∈ (s.newLock e).all held (s.nextLock :: other) ↔
      i = s.nextLock ∨ i ∈ s.all held other := by
    intro i
    rw [hperm.mem_iff, mem_cons]
  refine ⟨⟨?_, ?_, ?_, hlocked, hsorted, hdisjoint, hqueue, nofun⟩, ?_⟩
  · exact hperm.nodup_iff.mpr (nodup_cons.mpr ⟨fun hm => hfresh _ hm rfl, h.nodup⟩)
  · intro i hi
    rcases (hmem i).mp hi with rfl | hi
    · exact Nat.lt_succ_self _
    · exact Nat.lt_succ_of_lt (h.lt_next i hi)
  · intro i hi
    rcases (hmem i).mp hi with rfl | hi
    · rw [show (s.newLock e).entry s.nextLock = e from update_self ..]
      exact he
    · rw [hkeep i hi]
      exact h.range i hi
  · exact (newLock_tallied h.tally e pid sysid hfresh h.edges_all).perm hperm.symm

/-- `lf_free_lock` on a request in flight. -/
theorem LfInv.freeLock (h : LfInv s b held (x :: other)) : LfInv (s.freeLock x) b held other := by
  have hperm : (s.all held (x :: other)).Perm (x :: s.all held other) := perm_middle
  have hsub : ∀ i, i ∈ s.all held other → i ∈ s.all held (x :: other) := fun i hi =>
    hperm.mem_iff.mpr (mem_cons_of_mem _ hi)
  have hne := h.edge_ne mem_cons_self
  refine ⟨⟨(nodup_cons.mp (hperm.nodup_iff.mp h.nodup)).2, fun i hi => h.lt_next i (hsub i hi),
    fun i hi => h.range i (hsub i hi), h.locked, h.sorted, h.disjoint, h.queue,
    nofun⟩, freeLock_tallied (h.tally.perm hperm) fun e he => ?_⟩
  obtain ⟨h1, h2⟩ := h.edges_all e he
  rw [hperm.mem_iff, mem_cons] at h1 h2
  exact ⟨h1.resolve_left (hne e he).1, h2.resolve_left (hne e he).2⟩

/-- A request in flight may change its type. -/
theorem LfInv.setType (h : LfInv s b held other) (hx : x ∈ other) (ty : LockType) :
    LfInv (s.setType x ty) b held other := by
  have hne : ∀ i ∈ s.all held [], i ≠ x := fun i hi he => h.not_other hx (he ▸ hi)
  obtain ⟨hlocked, hsorted, hdisjoint, hqueue⟩ := h.keep (m := (s.setType x ty).toLockfState)
    fun i hi => update_of_ne (hne i hi) _ _
  have hsame : ∀ i, ((s.setType x ty).entry i).lfStart = (s.entry i).lfStart ∧
      ((s.setType x ty).entry i).lfEnd = (s.entry i).lfEnd ∧
      ((s.setType x ty).entry i).lfOwner = (s.entry i).lfOwner := by
    intro i
    by_cases hi : i = x
    · subst hi
      simp [setType]
    · simp [LfState.setType, update_of_ne hi]
  refine ⟨⟨h.nodup, h.lt_next, ?_, hlocked, hsorted, hdisjoint, hqueue, nofun⟩, ?_⟩
  · intro i hi
    rw [(hsame i).1, (hsame i).2.1]
    exact h.range i hi
  · exact h.tally.frame rfl rfl (fun i _ => (hsame i).2.2) h.edges_all

/-! ## Removing edges -/

/-- Only the edges change, and the table shows them. -/
def LfState.EdgesTo (s : LfState) (b : Base) (all : List LockId) (E : List (LockId × LockId))
    (s' : LfState) : Prop :=
  ∃ g, s' = { s with graph := g, edges := E } ∧ Tallied { s with graph := g, edges := E } b all

variable {all : List LockId}

/-- Removing a list of lock edges. -/
theorem foldl_lfRemoveEdge :
    ∀ (l : List (LockId × LockId)) {s : LfState}, l.Nodup → (∀ e ∈ l, e ∈ s.edges) →
      s.Tallied b all → s.EdgesTo b all (s.edges.diff l)
        (l.foldl (fun s e => lfRemoveEdge s e.1 e.2) s) := by
  intro l
  induction l with
  | nil =>
    intro s _ _ h
    exact ⟨s.graph, rfl, h⟩
  | cons e l ih =>
    intro s hnodup hmem h
    obtain ⟨he, hnodup⟩ := nodup_cons.mp hnodup
    have h' := lfRemoveEdge_tallied h (hmem e mem_cons_self)
    have hmem' : ∀ e' ∈ l, e' ∈ (lfRemoveEdge s e.1 e.2).edges := by
      intro e' he'
      have hne : e' ≠ e := fun heq => he (heq ▸ he')
      exact (mem_erase_of_ne hne).mpr (hmem e' (mem_cons_of_mem _ he'))
    obtain ⟨g, hrun, ht⟩ := ih hnodup hmem' h'
    refine ⟨g, ?_, ?_⟩
    · rw [foldl_cons, hrun, diff_cons]
      rfl
    · rw [diff_cons]
      exact ht

section

variable (hE : s.edges.Nodup) (h : s.Tallied b all)

include hE h

/-- Removing the edges that have a property. -/
theorem filter_lfRemoveEdge (p : LockId × LockId → Prop) [DecidablePred p] :
    s.EdgesTo b all (s.edges.filter fun e => ¬ p e)
      ((s.edges.filter fun e => p e).foldl (fun s e => lfRemoveEdge s e.1 e.2) s) := by
  have hdiff : s.edges.diff (s.edges.filter p) = s.edges.filter fun e => ¬ p e := by
    rw [hE.sdiff_eq_filter]
    refine filter_congr fun e he => ?_
    by_cases hp : p e <;> simp [he]
  rw [← hdiff]
  exact foldl_lfRemoveEdge _ (hE.filter _) (fun _ => mem_of_mem_filter) h

/-- `lf_remove_outgoing`. -/
theorem lfRemoveOutgoing_spec (x : LockId) :
    s.EdgesTo b all (s.edges.filter fun e => e.1 ≠ x) (lfRemoveOutgoing s x) := by
  obtain ⟨g, hrun, ht⟩ := filter_lfRemoveEdge hE h fun e => e.1 = x
  refine ⟨g, ?_, ht⟩
  rw [← hrun, lfRemoveOutgoing, lfOutedges, foldl_map]
  refine foldl_ext _ _ _ fun s' e he => ?_
  have he' : e.1 = x := by simpa using (mem_filter.mp he).2
  rw [he']

/-- `lf_remove_incoming`. -/
theorem lfRemoveIncoming_spec (x : LockId) :
    s.EdgesTo b all (s.edges.filter fun e => e.2 ≠ x) (lfRemoveIncoming s x) := by
  obtain ⟨g, hrun, ht⟩ := filter_lfRemoveEdge hE h fun e => e.2 = x
  refine ⟨g, ?_, ht⟩
  rw [← hrun, lfRemoveIncoming, lfInedges, foldl_map]
  refine foldl_ext _ _ _ fun s' e he => ?_
  have he' : e.2 = x := by simpa using (mem_filter.mp he).2
  rw [he']

end

/-! ## Adding edges -/

/-- The edges that `lf_add_outgoing` or `lf_add_incoming` adds, last first. -/
def LockfState.newEdges (s : LockfState) (lock : LockId) (edge : LockId → LockId × LockId)
    (cs : List LockId) : List (LockId × LockId) :=
  ((cs.filter fun c => lfBlocks (s.entry lock) (s.entry c)).map edge).reverse

/-- The loop of `lf_add_outgoing` and `lf_add_incoming`: all edges are added, or some of them and
then one is refused. -/
theorem lfAddEdges_spec (edge : LockId → LockId × LockId)
    (hedge : ∀ c, edge c = (lock, c) ∨ edge c = (c, lock)) (hlock : lock ∈ all) :
    ∀ (cs : List LockId) {s : LfState}, (∀ c ∈ cs, c ∈ all) → s.Tallied b all →
      (∃ g, lfAddEdges lock edge cs s =
          (.ok, { s with graph := g, edges := s.newEdges lock edge cs ++ s.edges }) ∧
        Tallied { s with graph := g, edges := s.newEdges lock edge cs ++ s.edges } b all) ∨
      (∃ g new, lfAddEdges lock edge cs s =
          (.EDEADLK, { s with graph := g, edges := new ++ s.edges }) ∧
        new.Sublist (s.newEdges lock edge cs) ∧
        Tallied { s with graph := g, edges := new ++ s.edges } b all ∧
        ∃ c ∈ cs, s.Blocks lock c ∧
          s.waitsOf (s.entry (edge c).1).lfOwner (s.entry (edge c).2).lfOwner = 0) := by
  intro cs
  induction cs with
  | nil =>
    intro s _ h
    exact .inl ⟨s.graph, rfl, h⟩
  | cons c cs ih =>
    intro s hmem h
    have hmem' : ∀ c ∈ cs, c ∈ all := fun c hc => hmem c (mem_cons_of_mem _ hc)
    have hc := hmem c mem_cons_self
    rw [lfAddEdges]
    by_cases hb : lfBlocks (s.entry lock) (s.entry c)
    · rw [if_neg (not_not.mpr hb)]
      have hnew : s.newEdges lock edge (c :: cs) = s.newEdges lock edge cs ++ [edge c] := by
        simp [newEdges, hb]
      have hends : (edge c).1 ∈ all ∧ (edge c).2 ∈ all ∧
          (s.entry (edge c).1).lfOwner ≠ (s.entry (edge c).2).lfOwner := by
        rcases hedge c with he | he
        · rw [he]
          exact ⟨hlock, hc, hb.1⟩
        · rw [he]
          exact ⟨hc, hlock, hb.1.symm⟩
      rcases lfAddEdge_tallied h hends.1 hends.2.1 hends.2.2 with ⟨g, hrun, ht⟩ | ⟨g, hrun, hz, ht⟩
      · simp only [hrun]
        rcases ih hmem' ht with ⟨g', hrun', ht'⟩ | ⟨g', new, hrun', hsub, ht', c', hc', hb', hz'⟩
        · left
          refine ⟨g', ?_, ?_⟩
          · rw [hrun', hnew]
            simp [newEdges]
          · rw [hnew]
            simpa [newEdges] using ht'
        · right
          refine ⟨g', new ++ [edge c], ?_, ?_, ?_, c', mem_cons_of_mem _ hc', hb', ?_⟩
          · rw [hrun']
            simp
          · rw [hnew]
            exact hsub.append (Sublist.refl _)
          · simpa using ht'
          · refine Nat.eq_zero_of_le_zero (le_trans ?_ hz'.le)
            exact Sublist.countP_le (sublist_cons_self _ _)
      · right
        refine ⟨g, [], ?_, nil_sublist _, ?_, c, mem_cons_self, hb, hz⟩
        · simp only [hrun]
          rfl
        · exact ht
    · rw [if_pos hb]
      have hnew : s.newEdges lock edge (c :: cs) = s.newEdges lock edge cs := by
        simp [newEdges, hb]
      rw [hnew]
      rcases ih hmem' h with hok | ⟨g, new, hrun, hsub, ht, c', hc', hb', hz⟩
      · exact .inl hok
      · exact .inr ⟨g, new, hrun, hsub, ht, c', mem_cons_of_mem _ hc', hb', hz⟩

theorem mem_newEdges : e ∈ s.newEdges lock edge cs ↔ ∃ c ∈ cs, s.Blocks lock c ∧ e = edge c := by
  simp only [newEdges, mem_reverse, mem_map, mem_filter, decide_eq_true_eq]
  constructor
  · rintro ⟨c, ⟨hc, hb⟩, rfl⟩
    exact ⟨c, hc, hb, rfl⟩
  · rintro ⟨c, hc, hb, rfl⟩
    exact ⟨c, ⟨hc, hb⟩, rfl⟩

theorem newEdges_nodup (hcs : cs.Nodup) (hinj : Injective edge) : (s.newEdges lock edge cs).Nodup :=
  nodup_reverse.mpr ((hcs.filter _).map hinj)

/-- New edges at the end `lock`, which no edge has had there, and their removal. -/
theorem newEdges_append (new : List (LockId × LockId)) (at' : LockId × LockId → LockId)
    (hcs : cs.Nodup) (hinj : Injective edge) (hat : ∀ c, at' (edge c) = lock) (hE : s.edges.Nodup)
    (hne : ∀ e ∈ s.edges, at' e ≠ lock) (hsub : new.Sublist (s.newEdges lock edge cs)) :
    (new ++ s.edges).Nodup ∧ (new ++ s.edges).filter (fun e => at' e ≠ lock) = s.edges := by
  have hnew : ∀ e ∈ new, at' e = lock := by
    intro e he
    obtain ⟨c, -, -, rfl⟩ := mem_newEdges.mp (hsub.subset he)
    exact hat c
  constructor
  · refine nodup_append.mpr ⟨hsub.nodup (newEdges_nodup hcs hinj), hE, ?_⟩
    intro e he e' he' heq
    exact hne e' he' (heq ▸ hnew e he)
  · rw [filter_append, filter_eq_nil_iff.mpr, nil_append, filter_eq_self.mpr]
    · intro e he
      simpa using hne e he
    · intro e he
      simpa using hnew e he

/-- Only the graph changed, and it shows the same numbers. -/
theorem LfValid.setGraph (h : LfValid s b held other S) {g : OwnerGraph OwnerId}
    (ht : Tallied { s with graph := g } b (s.all held other)) :
    LfValid { s with graph := g } b held other S :=
  ⟨h.toLfShape, ht⟩

/-- `lf_add_incoming` on a request that nothing blocks: it holds from then on, or it is refused
and nothing changed. -/
theorem LfInv.addIncoming (h : LfInv s b held (x :: other))
    (hty : (s.entry x).lfType ≠ .unlck) (hfree : ∀ y ∈ s.lsActive ++ held, ¬ s.Blocks x y) :
    (∃ g E, lfAddIncoming s x = (.ok, { s with graph := g, edges := E }) ∧
      (∀ e, e ∈ E ↔ e ∈ s.edges ∨ ∃ c ∈ s.lsPending, s.Blocks x c ∧ e = (c, x)) ∧
      LfInv { s with graph := g, edges := E } b (x :: held) other) ∨
    (∃ g, lfAddIncoming s x = (.EDEADLK, { s with graph := g }) ∧ (∃ c ∈ s.lsPending, s.Blocks x c ∧
        s.waitsOf (s.entry c).lfOwner (s.entry x).lfOwner = 0) ∧
      LfInv { s with graph := g } b held (x :: other)) := by
  have hxall : x ∈ s.all held (x :: other) := by
    rw [mem_all]
    simp
  have hxp : x ∉ s.lsPending := fun hm =>
    h.not_other mem_cons_self (mem_all_nil.mpr (.inr (.inl hm)))
  have hne := h.edge_ne mem_cons_self
  have hinj : Injective fun c : LockId => (c, x) := fun i j hij => (Prod.mk.inj hij).1
  have hadd := fun new => newEdges_append new Prod.snd h.queue.waiters_nodup hinj
    (fun _ => rfl) h.queue.edges_nodup fun e he => (hne e he).2
  rw [lfAddIncoming]
  rcases lfAddEdges_spec (fun c => (c, x)) (fun c => .inr rfl) hxall s.lsPending
    (fun c hc => mem_all.mpr (.inr (.inl hc))) h.tally with
    ⟨g, hrun, ht⟩ | ⟨g, new, hrun, hsub, ht, c, hc, hb, hz⟩
  · left
    refine ⟨g, _, by rw [hrun], ?_, ?_⟩
    · intro e
      rw [mem_append, mem_newEdges, or_comm]
    · have hperm : (s.all held (x :: other)).Perm (s.all (x :: held) other) := by
        simp only [LockfState.all, append_assoc]
        exact Perm.append_left _ (Perm.append_left _ perm_middle)
      refine ⟨h.reorder rfl rfl hperm (fun i hi hn => ?_) h.sorted h.disjoint ?_
        nofun, ht.perm hperm⟩
      · rw [(mem_cons.mp hi).resolve_right hn]
        exact hty
      · have hmem : ∀ a c, (a, c) ∈ s.newEdges x (fun c => (c, x)) s.lsPending ++ s.edges ↔
            (a, c) ∈ s.edges ∨ (c = x ∧ a ∈ s.lsPending ∧ s.Blocks a x) := by
          intro a c
          rw [mem_append, mem_newEdges, or_comm]
          refine or_congr_right ⟨?_, ?_⟩
          · rintro ⟨c', hc', hb', heq⟩
            cases heq
            exact ⟨rfl, hc', lfBlocks_symm hb'⟩
          · rintro ⟨rfl, ha, hb'⟩
            exact ⟨a, ha, lfBlocks_symm hb', rfl⟩
        have henter := h.queue.enter hxp hfree (hadd _ (Sublist.refl _)).1 hmem
        refine henter.congr henter.irrefl henter.symm (fun i => ?_) fun i j _ _ => Iff.rfl
        simp only [mem_append, mem_cons]
        tauto
  · right
    obtain ⟨hE, hfilter⟩ := hadd new hsub
    obtain ⟨g', hrun', ht'⟩ := lfRemoveIncoming_spec hE ht x
    simp only [hfilter] at hrun' ht'
    refine ⟨g', ?_, ⟨c, hc, hb, hz⟩, h.setGraph ht'⟩
    simp [hrun, hrun']

theorem mem_takeWhile_of_sorted {l : List LockId} {n : ℕ}
    (hs : StartSorted entry l) (hi : i ∈ l) (hle : (entry i).lfStart ≤ n) :
    i ∈ l.takeWhile fun j => (entry j).lfStart ≤ n := by
  induction l with
  | nil => cases hi
  | cons j l ih =>
    obtain ⟨hj, hs⟩ := pairwise_cons.mp hs
    rcases mem_cons.mp hi with rfl | hi
    · simp [hle]
    · have hjle : (entry j).lfStart ≤ n := (hj i hi).trans hle
      rw [takeWhile_cons_of_pos (by simpa using hjle)]
      exact mem_cons_of_mem _ (ih hs hi)

/-- `lf_getblock` finds a blocking active lock if there is one. -/
theorem lfGetblock_eq_none_iff (hs : StartSorted s.entry s.lsActive) :
    lfGetblock s lock = none ↔ ∀ y ∈ s.lsActive, ¬ s.Blocks lock y := by
  rw [lfGetblock, find?_eq_none]
  constructor
  · intro hnone y hy hb
    exact hnone y (mem_takeWhile_of_sorted hs hy hb.2.2.2) (decide_eq_true hb)
  · intro hfree y hy hb
    exact hfree y ((takeWhile_sublist _).subset hy) (of_decide_eq_true hb)

/-- `lf_add_outgoing` on a blocked request: the request can be queued, or it is refused and
nothing changed. -/
theorem LfInv.addOutgoing (h : LfInv s b [] (x :: other))
    (hty : (s.entry x).lfType ≠ .unlck) (hblocked : ∃ y ∈ s.lsActive, s.Blocks x y) :
    (∃ g E, lfAddOutgoing s x = (.ok, { s with graph := g, edges := E }) ∧
      LfInv { s with graph := g, edges := E, lsPending := x :: s.lsPending } b [] other) ∨
    (∃ g, lfAddOutgoing s x = (.EDEADLK, { s with graph := g }) ∧
      LfInv { s with graph := g } b [] (x :: other)) := by
  have hxall : x ∈ s.all [] (x :: other) := by
    rw [mem_all]
    simp
  have hxp : x ∉ s.lsPending := fun hm =>
    h.not_other mem_cons_self (mem_all_nil.mpr (.inr (.inl hm)))
  have hxa : x ∉ s.lsActive := fun hm =>
    h.not_other (mem_cons_self ..) (mem_all_nil.mpr (.inl hm))
  have hne := h.edge_ne mem_cons_self
  set front := s.lsActive.takeWhile fun i => (s.entry i).lfStart ≤ (s.entry x).lfEnd with hfront
  have hfsub : ∀ c ∈ front, c ∈ s.lsActive := fun c hc => (takeWhile_sublist _).subset hc
  have hcs : (front ++ s.lsPending).Nodup := by
    refine nodup_append.mpr ⟨h.active_nodup.sublist (takeWhile_sublist _),
      h.queue.waiters_nodup, ?_⟩
    intro c hc c' hc' heq
    exact (h.off_active (mem_append_left _ hc')).2 (heq ▸ hfsub c hc)
  have hmemall : ∀ c ∈ front ++ s.lsPending, c ∈ s.all [] (x :: other) := by
    intro c hc
    rw [mem_all]
    rcases mem_append.mp hc with hc | hc
    · exact .inl (hfsub c hc)
    · exact .inr (.inl hc)
  have hinj : Injective fun c : LockId => (x, c) := fun i j hij => (Prod.mk.inj hij).2
  have hadd := fun new => newEdges_append new Prod.fst hcs hinj (fun _ => rfl)
    h.queue.edges_nodup fun e he => (hne e he).1
  have hcand : ∀ c, c ∈ front ++ s.lsPending ∧ s.Blocks x c ↔
      s.Blocks x c ∧ (c ∈ s.lsActive ++ [] ∨ c ∈ s.lsPending) := by
    intro c
    rw [append_nil, mem_append]
    constructor
    · rintro ⟨hc, hb⟩
      exact ⟨hb, hc.imp_left (hfsub c)⟩
    · rintro ⟨hb, hc⟩
      exact ⟨hc.imp_left fun ha => mem_takeWhile_of_sorted h.sorted ha hb.2.2.2, hb⟩
  rw [lfAddOutgoing]
  rcases lfAddEdges_spec (fun c => (x, c)) (fun c => .inl rfl) hxall (front ++ s.lsPending)
    hmemall h.tally with ⟨g, hrun, ht⟩ | ⟨g, new, hrun, hsub, ht, -⟩
  · left
    refine ⟨g, s.newEdges x (fun c => (x, c)) (front ++ s.lsPending) ++ s.edges,
      by simp [← hfront, hrun], ?_⟩
    have hmem : ∀ a c, (a, c) ∈ s.newEdges x (fun c => (x, c)) (front ++ s.lsPending) ++ s.edges ↔
        (a, c) ∈ s.edges ∨ (a = x ∧ s.Blocks x c ∧ (c ∈ s.lsActive ++ [] ∨ c ∈ s.lsPending)) := by
      intro a c
      rw [mem_append, mem_newEdges, or_comm, ← hcand c]
      refine or_congr_right ⟨?_, ?_⟩
      · rintro ⟨c', hc', hb', heq⟩
        cases heq
        exact ⟨rfl, hc', hb'⟩
      · rintro ⟨rfl, hc', hb'⟩
        exact ⟨c, hc', hb', rfl⟩
    obtain ⟨y, hy, hb⟩ := hblocked
    have hjoin := h.queue.join hxp (by simpa using hxa) (hadd _ (Sublist.refl _)).1 hmem
      ⟨y, hb, .inl (mem_append_left _ hy)⟩
    have hperm : (s.all [] (x :: other)).Perm
        (all { s.toLockfState with lsPending := x :: s.lsPending } [] other) := by
      simp only [LockfState.all, append_assoc]
      exact Perm.append_left _ perm_middle
    refine ⟨h.reorder rfl rfl hperm (fun i hi hn => ?_) h.sorted h.disjoint hjoin
      nofun, ht.perm hperm⟩
    rw [(mem_cons.mp hi).resolve_right hn]
    exact hty
  · right
    obtain ⟨hE, hfilter⟩ := hadd new hsub
    obtain ⟨g', hrun', ht'⟩ := lfRemoveOutgoing_spec hE ht x
    simp only [hfilter] at hrun' ht'
    refine ⟨g', ?_, h.setGraph ht'⟩
    simp [← hfront, hrun, hrun']

/-! ## Waking locks -/

/-- `lf_update_dependancies` takes the edges away that the abstract queue does. -/
theorem lfUpdateLoop_relax {entries : List LockId} (lock : LockId) (all : Bool) :
    ∀ (todo granted : List LockId) {s : LfState}, todo.Nodup →
      (∀ x ∈ todo, (x, lock) ∈ s.edges) → s.Tallied b entries →
      ∃ q g, q = relax lock (fun dep => decide (all ∨ ¬ lfBlocks (s.entry lock) (s.entry dep))) todo
          ⟨s.lsPending, s.edges, granted⟩ ∧
        lfUpdateLoop lock all todo s granted =
          ({ s with graph := g, edges := q.edges, lsPending := q.waiters }, q.woken) ∧
        Tallied { s with graph := g, edges := q.edges, lsPending := q.waiters } b entries := by
  intro todo
  induction todo with
  | nil =>
    intro granted s _ _ h
    exact ⟨_, s.graph, rfl, rfl, h⟩
  | cons x todo ih =>
    intro granted s hnodup hmem h
    obtain ⟨hx, hnodup⟩ := nodup_cons.mp hnodup
    have hmem' : ∀ a ∈ todo, (a, lock) ∈ s.edges := fun a ha => hmem a (mem_cons_of_mem _ ha)
    rw [lfUpdateLoop, relax]
    by_cases hdrop : all ∨ ¬ lfBlocks (s.entry lock) (s.entry x)
    · rw [if_pos hdrop, if_pos (by simpa using hdrop)]
      have h' := lfRemoveEdge_tallied h (hmem x mem_cons_self)
      have hmem1 : ∀ a ∈ todo, (a, lock) ∈ s.edges.erase (x, lock) := by
        intro a ha
        refine (mem_erase_of_ne fun he => hx ?_).mpr (hmem' a ha)
        rw [← (Prod.mk.inj he).1]
        exact ha
      have hout : (lfRemoveEdge s x lock).lfOutedges x = [] ↔
          ((s.edges.erase (x, lock)).filter fun e => e.1 = x) = [] := map_eq_nil_iff
      rw [dropEdge]
      by_cases hlast : ((s.edges.erase (x, lock)).filter fun e => e.1 = x) = []
      · rw [if_pos hlast]
        simp only [if_pos (hout.mpr hlast)]
        obtain ⟨q, g, hq, hrun, ht⟩ := ih (x :: granted)
          (s := lfWakeupLock (lfRemoveEdge s x lock) x) hnodup hmem1 h'
        exact ⟨q, g, hq, hrun, ht⟩
      · rw [if_neg hlast]
        simp only [if_neg fun hc => hlast (hout.mp hc)]
        obtain ⟨q, g, hq, hrun, ht⟩ := ih granted hnodup hmem1 h'
        exact ⟨q, g, hq, hrun, ht⟩
    · rw [if_neg hdrop, if_neg (by simpa using hdrop)]
      exact ih granted hnodup hmem' h

theorem mem_lfInedges : x ∈ s.lfInedges y ↔ (x, y) ∈ s.edges := by
  simp [lfInedges]

theorem lfInedges_nodup (hE : s.edges.Nodup) : (s.lfInedges lock).Nodup := by
  refine Nodup.map_on ?_ (hE.filter _)
  intro e he e' he' heq
  have h1 : e.2 = lock := by simpa using (mem_filter.mp he).2
  have h2 : e'.2 = lock := by simpa using (mem_filter.mp he').2
  exact Prod.ext heq (h1.trans h2.symm)

/-- What waking locks changed: `new` are the locks that were woken, all of them waiting for
`lock`. -/
structure Woke (lock : LockId) (s s' : LfState) (new : List LockId) : Prop where
  entry_eq : s'.entry = s.entry
  active_eq : s'.lsActive = s.lsActive
  next_eq : s'.nextLock = s.nextLock
  pending : s.lsPending.Perm (new ++ s'.lsPending)
  sublist : s'.lsPending.Sublist s.lsPending
  edges : s'.edges.Sublist s.edges
  edge : ∀ x ∈ new, (x, lock) ∈ s.edges

/-- **`lf_update_dependancies`** takes the stale edges into `lock` away.  The locks it wakes are
in flight and hold. -/
theorem LfValid.updateDependancies (h : LfValid s b held other (s.EdgeInto lock))
    (granted : List LockId) (all : Bool) (hgranted : ∀ i ∈ granted, i ∈ held)
    (hlock : (all = true ∧ lock ∈ other) ∨ (all = false ∧ lock ∈ s.lsActive ++ held)) :
    ∃ s' new, lfUpdateDependancies s lock all granted = (s', new ++ granted) ∧
      Woke lock s s' new ∧ LfInv s' b (new ++ held) other := by
  obtain ⟨q, g, hq, hrun, ht⟩ := lfUpdateLoop_relax lock all (s.lfInedges lock)
    granted (lfInedges_nodup h.queue.edges_nodup)
    (fun _ => mem_lfInedges.mp) h.tally
  have hvalid : Valid s.Blocks (Queue.held ⟨s.lsPending, s.edges, granted⟩ (· ∈ s.lsActive ++ held))
      s.lsPending s.edges (fun x z => z = lock ∧ x ∈ s.lfInedges lock) := by
    have hS : (fun x z => z = lock ∧ x ∈ s.lfInedges lock) = s.EdgeInto lock := by
      funext x z
      rw [mem_lfInedges]
      rfl
    rw [hS]
    refine h.queue.congr h.queue.irrefl h.queue.symm (fun i => ?_) fun i j _ _ => Iff.rfl
    constructor
    · exact .inl
    · rintro (hi | hi)
      · exact hi
      · exact mem_append_right _ (hgranted i hi)
  have hkeep : ∀ x ∈ s.lfInedges lock,
      decide (all ∨ ¬ lfBlocks (s.entry lock) (s.entry x)) = false →
      s.Blocks x lock ∧ lock ∈ s.lsActive ++ held := by
    intro x _ hd
    simp only [decide_eq_false_iff_not, not_or, not_not] at hd
    rcases hlock with ⟨hall, -⟩ | ⟨-, hm⟩
    · exact absurd hall hd.1
    · exact ⟨lfBlocks_symm hd.2, hm⟩
  have hdrop : ∀ x ∈ s.lfInedges lock,
      decide (all ∨ ¬ lfBlocks (s.entry lock) (s.entry x)) = true → ¬ s.Blocks x lock ∨
      (¬ Queue.held ⟨s.lsPending, s.edges, granted⟩ (· ∈ s.lsActive ++ held) lock ∧
        lock ∉ s.lsPending) := by
    intro x _ hd
    simp only [decide_eq_true_eq] at hd
    rcases hlock with ⟨-, hm⟩ | ⟨hall, -⟩
    · refine .inr ⟨?_, fun hp => h.not_other hm (mem_all_nil.mpr (.inr (.inl hp)))⟩
      rintro (hc | hc)
      · exact h.not_other hm (mem_all_of_holder hc)
      · exact h.not_other hm (mem_all_nil.mpr (.inr (.inr (hgranted lock hc))))
    · left
      intro hb
      rcases hd with hd | hd
      · rw [hall] at hd
        cases hd
      · exact hd (lfBlocks_symm hb)
  obtain ⟨hex, new, hrel⟩ := relax_spec (s.lfInedges lock)
    (lfInedges_nodup h.queue.edges_nodup) hvalid hkeep hdrop
  rw [← hq] at hex hrel
  refine ⟨{ s with graph := g, edges := q.edges, lsPending := q.waiters }, new, ?_,
    ⟨rfl, rfl, rfl, hrel.waiters, hrel.sublist, hrel.edges, hrel.edge⟩, ?_⟩
  · rw [lfUpdateDependancies, hrun, hrel.woken]
  · have hperm : (s.all held other).Perm
        (LockfState.all { s.toLockfState with lsPending := q.waiters } (new ++ held) other) := by
      rw [perm_iff_count]
      intro i
      have hc := hrel.waiters.count_eq i
      simp only [LockfState.all, count_append] at hc ⊢
      omega
    refine ⟨h.reorder rfl rfl hperm (fun _ => absurd) h.sorted h.disjoint ?_ nofun, ht.perm hperm⟩
    refine hex.congr hex.irrefl hex.symm (fun i => ?_) fun i j _ _ => Iff.rfl
    rw [Queue.held, hrel.woken]
    simp only [mem_append]
    tauto

/-! ## The active list -/

theorem lfInsert_perm (entry : LockId → LockfEntry) (x : LockId) (l : List LockId) :
    (lfInsert entry x l).Perm (x :: l) := by
  induction l with
  | nil => exact Perm.refl _
  | cons i l ih =>
    rw [lfInsert]
    split
    · exact Perm.refl _
    · exact (ih.cons i).trans (Perm.swap x i l)

theorem lfInsert_sorted {l : List LockId} (x : LockId) (h : StartSorted entry l) :
    StartSorted entry (lfInsert entry x l) := by
  induction l with
  | nil => exact pairwise_singleton _ _
  | cons i l ih =>
    obtain ⟨hi, hl⟩ := pairwise_cons.mp h
    rw [lfInsert]
    split_ifs with hgt
    · exact pairwise_cons.mpr
        ⟨forall_mem_cons.mpr ⟨hgt.le, fun j hj => hgt.le.trans (hi j hj)⟩, h⟩
    · refine pairwise_cons.mpr ⟨fun j hj => ?_, ih hl⟩
      rcases mem_cons.mp ((lfInsert_perm entry x l).mem_iff.mp hj) with rfl | hj
      · exact not_lt.mp hgt
      · exact hi j hj

/-- A lock in flight enters the active list, once it overlaps no active lock of its owner. -/
theorem LfInv.insertLock (h : LfInv s b (x :: held) other)
    (hfree : ∀ i ∈ s.lsActive, (s.entry i).lfOwner = (s.entry x).lfOwner →
      ¬ lfOverlaps (s.entry i) (s.entry x)) : LfInv (lfInsertLock s x) b held other := by
  have hins := lfInsert_perm s.entry x s.lsActive
  have hperm : (s.all (x :: held) other).Perm ((lfInsertLock s x).all held other) := by
    rw [perm_iff_count]
    intro i
    have hc := hins.count_eq i
    simp only [LockfState.all, lfInsertLock, count_append, count_cons] at hc ⊢
    omega
  have hmem : ∀ i, i ∈ (lfInsertLock s x).lsActive ↔ i = x ∨ i ∈ s.lsActive := by
    intro i
    rw [← mem_cons]
    exact hins.mem_iff
  refine ⟨h.reorder rfl rfl hperm (fun _ => absurd) (lfInsert_sorted x h.sorted) ?_ ?_
    nofun, .perm (h.tally.frame rfl rfl (fun _ _ => rfl) h.edges_all) hperm⟩
  · intro i hi j hj hne howner
    rcases (hmem i).mp hi with rfl | hi'
    · rcases (hmem j).mp hj with rfl | hj'
      · exact absurd rfl hne
      · intro hov
        exact hfree j hj' howner.symm ⟨hov.2, hov.1⟩
    · rcases (hmem j).mp hj with rfl | hj'
      · exact hfree i hi' howner
      · exact h.disjoint i hi' j hj' hne howner
  · refine h.queue.congr h.queue.irrefl h.queue.symm (fun i => ?_) fun i j _ _ => Iff.rfl
    rw [mem_append, mem_append, mem_cons, hmem i]
    tauto

/-- An active lock is taken out; the edges into it are stale. -/
theorem LfInv.removeActive (h : LfInv s b held other) (hx : x ∈ s.lsActive) :
    LfValid { s with lsActive := s.lsActive.erase x } b held (x :: other) (s.EdgeInto x) := by
  have hperm : (s.all held other).Perm
      (all { s.toLockfState with lsActive := s.lsActive.erase x } held (x :: other)) := by
    rw [perm_iff_count]
    intro i
    have hc := (perm_cons_erase hx).count_eq i
    simp only [LockfState.all, count_append, count_cons] at hc ⊢
    omega
  have hsub : ∀ i ∈ s.lsActive.erase x, i ∈ s.lsActive := fun _ => mem_of_mem_erase
  refine ⟨h.reorder rfl rfl hperm (fun _ hi => absurd (mem_cons_of_mem x hi))
    (h.sorted.sublist erase_sublist)
    (fun i hi j hj => h.disjoint i (hsub i hi) j (hsub j hj)) ?_ ?_, ?_⟩
  · refine h.queue.loosen (mem_append_left held hx) h.queue.irrefl h.queue.symm
      (fun i hi => ?_) (fun i hne hi => ?_) (fun i j _ _ hb => hb) fun i j _ _ hb => hb
    · exact mem_append.mpr ((mem_append.mp hi).imp_left (hsub i))
    · exact mem_append.mpr ((mem_append.mp hi).imp_left (mem_erase_of_ne hne).mpr)
  · rintro a c ⟨rfl, -⟩
    exact mem_all.mpr (.inr (.inr (.inr mem_cons_self)))
  · exact .perm (h.tally.frame rfl rfl (fun _ _ => rfl) h.edges_all) hperm

/-- An active lock gets a smaller range, and its place in the list changes accordingly; edges into
it may be stale. -/
theorem LfInv.shrinkActive (h : LfInv s b held other) (hx : x ∈ s.lsActive) {first last : ℕ}
    (hfirst : (s.entry x).lfStart ≤ first) (hlast : last ≤ (s.entry x).lfEnd)
    (hle : first ≤ last) {active : List LockId} (hactive : active.Perm s.lsActive)
    (hsorted : StartSorted (s.setRange x first last).entry active) :
    LfValid { s.setRange x first last with lsActive := active } b held other (s.EdgeInto x) := by
  set t := s.setRange x first last
  have hperm : (s.all held other).Perm (all { t.toLockfState with lsActive := active }
        held other) := by
    exact ((hactive.symm.append_right _).append_right _).append_right _
  have hself : t.entry x =
      { s.entry x with lfStart := first, lfEnd := last } := update_self ..
  have hkeep : ∀ i, i ≠ x → t.entry i = s.entry i := fun i hi =>
    update_of_ne hi _ _
  -- what the new range keeps of the old one
  have hsame : ∀ i, (t.entry i).lfOwner = (s.entry i).lfOwner ∧
      (t.entry i).lfType = (s.entry i).lfType ∧
      (s.entry i).lfStart ≤ (t.entry i).lfStart ∧
      (t.entry i).lfEnd ≤ (s.entry i).lfEnd := by
    intro i
    by_cases hi : i = x
    · subst hi
      rw [hself]
      exact ⟨rfl, rfl, hfirst, hlast⟩
    · rw [hkeep i hi]
      exact ⟨rfl, rfl, le_rfl, le_rfl⟩
  have hover : ∀ i j, lfOverlaps (t.entry i) (t.entry j) → lfOverlaps (s.entry i) (s.entry j) := by
    rintro i j ⟨h1, h2⟩
    obtain ⟨-, -, hi1, hi2⟩ := hsame i
    obtain ⟨-, -, hj1, hj2⟩ := hsame j
    exact ⟨(hi1.trans h1).trans hj2, (hj1.trans h2).trans hi2⟩
  have hblocks : ∀ i j, t.Blocks i j → s.Blocks i j := by
    rintro i j ⟨h1, h2, h3⟩
    refine ⟨?_, ?_, hover i j h3⟩
    · rw [← (hsame i).1, ← (hsame j).1]
      exact h1
    · rw [← (hsame i).2.1, ← (hsame j).2.1]
      exact h2
  refine ⟨⟨hperm.nodup_iff.mp h.nodup, fun i hi => h.lt_next i (hperm.mem_iff.mpr hi), ?_, ?_,
    hsorted, ?_, ?_, ?_⟩, ?_⟩
  · intro i hi
    by_cases hix : i = x
    · rw [hix, hself]
      exact hle
    · rw [hkeep i hix]
      exact h.range i (hperm.mem_iff.mpr hi)
  · intro i hi
    rw [(hsame i).2.1]
    refine h.locked i (mem_all_nil.mpr ?_)
    rw [← hactive.mem_iff]
    exact mem_all_nil.mp hi
  · intro i hi j hj hne howner hov
    rw [(hsame i).1, (hsame j).1] at howner
    exact h.disjoint i (hactive.mem_iff.mp hi) j (hactive.mem_iff.mp hj) hne howner (hover i j hov)
  · have hrest : ∀ i j, i ≠ x → j ≠ x → s.Blocks i j → t.Blocks i j := by
      intro i j hi hj hb
      rw [Blocks, hkeep i hi, hkeep j hj]
      exact hb
    have hmem : ∀ i, i ∈ active ++ held ↔ i ∈ s.lsActive ++ held := fun i =>
      (hactive.append_right held).mem_iff
    exact h.queue.loosen (mem_append_left held hx) (fun i => lfBlocks_irrefl _)
      (fun i j => lfBlocks_symm) (fun i => (hmem i).mp) (fun i _ => (hmem i).mpr)
      (fun i j _ _ => hblocks i j) hrest
  · rintro a c ⟨rfl, -⟩
    exact hperm.mem_iff.mp (mem_all.mpr (.inl hx))
  · exact .perm (h.tally.frame rfl rfl (fun i _ => (hsame i).1) h.edges_all) hperm

/-- A pending lock is taken out with its own edges; the edges into it are stale. -/
theorem LfInv.removePending (h : LfInv s b held other) (hx : x ∈ s.lsPending) :
    ∃ g E, lfRemoveOutgoing { s with lsPending := s.lsPending.erase x } x =
        { s with graph := g, edges := E, lsPending := s.lsPending.erase x } ∧
      LfValid { s with graph := g, edges := E, lsPending := s.lsPending.erase x } b held
        (x :: other) (EdgeInto { s.toLockfState with edges := E } x) := by
  have hperm : (s.all held other).Perm
      (all { s.toLockfState with lsPending := s.lsPending.erase x } held (x :: other)) := by
    rw [perm_iff_count]
    intro i
    have hc := (perm_cons_erase hx).count_eq i
    simp only [LockfState.all, count_append, count_cons] at hc ⊢
    omega
  have htally : Tallied { s with lsPending := s.lsPending.erase x } b
      (all { s.toLockfState with lsPending := s.lsPending.erase x } held (x :: other)) :=
    .perm (h.tally.frame rfl rfl (fun _ _ => rfl) h.edges_all) hperm
  obtain ⟨g, hrun, ht⟩ := lfRemoveOutgoing_spec
    (s := { s with lsPending := s.lsPending.erase x }) h.queue.edges_nodup htally x
  refine ⟨g, s.edges.filter fun e => e.1 ≠ x, hrun, h.reorder rfl rfl hperm
    (fun _ hi => absurd (mem_cons_of_mem x hi)) h.sorted h.disjoint ?_ ?_, ht⟩
  · have hcancel := h.queue.cancel hx
    have hS : (fun a c => c = x ∧ a ≠ x ∧ (a, x) ∈ s.edges) = EdgeInto
        { s.toLockfState with edges := s.edges.filter fun e => e.1 ≠ x } x := by
      funext a c
      simp only [EdgeInto, mem_filter, decide_eq_true_eq, eq_iff_iff]
      tauto
    rw [hS] at hcancel
    exact hcancel
  · rintro a c ⟨rfl, -⟩
    exact mem_all.mpr (.inr (.inr (.inr mem_cons_self)))

end FreeBSDSys.Lockf
