import FreeBSDSys.Kern.LockManager
import FreeBSDSys.Kern.OwnerGraphCorrect

/-!
# Counting references and waits

Two numbers are kept about lock owners: `lo_refs`, the number of entries of an owner, and the count
of an edge of the owner graph, the number of lock edges from entries of one owner to entries of
the other.  `OwnerTable.Tally t refs waits` says that the table `t` shows the numbers `refs` and
`waits`; the lemmas of the first part say how each operation on the table changes them.

Operations on one file see the other files only through these numbers.  `Base` is what the other
files contribute, and `LfState.Tallied s b all` says that the table shows the sum of `b` and of
the entries `all` and the lock edges of the file.

* `OwnerTable.Tally.acyclic`: no owner waits for itself, through any number of others.
* `lfAddEdge_tallied`, `lfRemoveEdge_tallied`, `freeLock_tallied`: the operations of the lock
  manager that touch the table.
-/

namespace FreeBSDSys.Lockf

open Function List LockfState Option OwnerTable Nat

/-! ## The table -/

/-- `lo_refs` of an owner, and 0 when there is no such owner. -/
def OwnerTable.loRefs (t : OwnerTable) (o : OwnerId) : ℕ :=
  ((t.owners o).map LockOwner.loRefs).getD 0

/-- The table shows the numbers `refs` and `waits`. -/
structure OwnerTable.Tally (t : OwnerTable) (refs : OwnerId → ℕ) (waits : OwnerId → OwnerId → ℕ) :
    Prop where
  wf : t.graph.WF
  waits_eq : ∀ u v, t.graph.edgeRefs u v = waits u v
  refs_eq : ∀ o, t.loRefs o = refs o
  owner_pos : ∀ o lo, t.owners o = some lo → 0 < lo.loRefs
  vertex : ∀ o ∈ t.graph.gVertices, t.owners o ≠ none

variable {t : OwnerTable} {refs refs' : OwnerId → ℕ} {waits waits' : OwnerId → OwnerId → ℕ}
  {o u v : OwnerId} {l : LockfState}

namespace OwnerTable.Tally

/-- No owners. -/
theorem empty : Tally ⟨fun _ => none, graphInit⟩ (fun _ => 0) fun _ _ => 0 := by
  refine ⟨graphInit_wf, fun _ _ => rfl, fun _ => rfl, fun o lo ho => ?_, fun o ho => ?_⟩
  · cases ho
  · exact absurd ho not_mem_nil

section

variable (h : t.Tally refs waits)

include h

theorem congr (hr : ∀ o, refs o = refs' o)
    (hw : ∀ u v, waits u v = waits' u v) : t.Tally refs' waits' := by
  refine ⟨h.wf, fun u v => ?_, fun o => ?_, h.owner_pos, h.vertex⟩
  · rw [h.waits_eq, hw]
  · rw [h.refs_eq, hr]

theorem owners_eq_none_iff : t.owners o = none ↔ refs o = 0 := by
  rw [← h.refs_eq, loRefs]
  cases ho : t.owners o with
  | none => simp
  | some lo =>
    have hpos := h.owner_pos o lo ho
    simp only [map_some, getD_some]
    constructor
    · intro hc
      cases hc
    · intro hc
      omega

theorem hasEdge_iff : t.graph.HasEdge u v ↔ 0 < waits u v := by
  rw [← h.waits_eq, h.wf.edgeRefs_pos_iff]

/-- Owners that wait, or are waited for, have a reference. -/
theorem refs_pos (huv : 0 < waits u v) : 0 < refs u ∧ 0 < refs v := by
  obtain ⟨hu, hv⟩ := h.wf.hasEdge_mem (h.hasEdge_iff.mpr huv)
  have hu' : refs u ≠ 0 := fun he => h.vertex u hu (h.owners_eq_none_iff.mpr he)
  have hv' : refs v ≠ 0 := fun he => h.vertex v hv (h.owners_eq_none_iff.mpr he)
  exact ⟨pos_of_ne_zero hu', pos_of_ne_zero hv'⟩

/-- **Nobody waits for itself**, through any number of others. -/
theorem acyclic : ¬ Relation.TransGen (fun u v => 0 < waits u v) o o := by
  have hlt : ∀ {u v}, Relation.TransGen (fun u v => 0 < waits u v) u v →
      t.graph.vOrder u < t.graph.vOrder v := by
    intro u v huv
    induction huv with
    | single hw => exact h.wf.hasEdge_lt (h.hasEdge_iff.mpr hw)
    | tail _ hw ih => exact ih.trans (h.wf.hasEdge_lt (h.hasEdge_iff.mpr hw))
  intro hoo
  exact lt_irrefl _ (hlt hoo)

/-- An owner has another number of references. -/
theorem setOwner {lo : LockOwner} (hpos : 0 < lo.loRefs)
    (hself : refs' o = lo.loRefs) (hkeep : ∀ p, p ≠ o → refs' p = refs p) :
    Tally { t with owners := update t.owners o (some lo) } refs' waits := by
  refine ⟨h.wf, h.waits_eq, fun p => ?_, fun p lo' hp => ?_, fun p hp => ?_⟩
  · by_cases hpo : p = o
    · subst hpo
      simp [loRefs, hself]
    · rw [hkeep p hpo, ← h.refs_eq p]
      simp [loRefs, update_of_ne hpo]
  · by_cases hpo : p = o
    · subst hpo
      simp only [update_self, some.injEq] at hp
      exact hp ▸ hpos
    · simp only [update_of_ne hpo] at hp
      exact h.owner_pos p lo' hp
  · by_cases hpo : p = o
    · simp [hpo]
    · simp only [update_of_ne hpo]
      exact h.vertex p hp

/-- Taking a reference. -/
theorem refOwner (pid sysid : ℤ) :
    (lfRefOwner t o pid sysid).Tally (fun p => refs p + if p = o then 1 else 0) waits := by
  have hupd : ∀ lo : LockOwner, lo.loRefs = refs o + 1 →
      Tally { t with owners := update t.owners o (some lo) }
        (fun p => refs p + if p = o then 1 else 0) waits := fun lo hlo =>
    h.setOwner (hlo ▸ succ_pos _) (by simp [hlo]) fun p hp => by simp [hp]
  have hrefs := h.refs_eq o
  rw [lfRefOwner]
  cases ho : t.owners o with
  | none | some lo =>
    rw [loRefs, ho] at hrefs
    exact hupd _ (congrArg (· + 1) hrefs)

/-- Dropping a reference.  With the last one the owner goes, and must not wait or be waited
for. -/
theorem freeLock (lock : LockfEntry) (hpos : 0 < refs lock.lfOwner)
    (hlast : refs lock.lfOwner = 1 → ∀ v, waits lock.lfOwner v = 0 ∧ waits v lock.lfOwner = 0) :
    (lfFreeLock t lock).Tally (fun p => refs p - if p = lock.lfOwner then 1 else 0) waits := by
  have hrefs := h.refs_eq lock.lfOwner
  cases ho : t.owners lock.lfOwner with
  | none =>
    rw [loRefs, ho] at hrefs
    simp only [map_none, getD_none] at hrefs
    omega
  | some lo =>
    rw [loRefs, ho] at hrefs
    simp only [map_some, getD_some] at hrefs
    rw [lfFreeLock, ho]
    simp only
    split
    · have hiso := hlast (by omega)
      have hwf : lock.lfOwner ∈ t.graph.gVertices → (graphFreeVertex t.graph lock.lfOwner).WF := by
        intro hm
        refine graphFreeVertex_wf h.wf hm ?_ ?_
        · intro w hw
          have := h.hasEdge_iff.mp hw
          have := (hiso w).1
          omega
        · intro w hw
          have := h.hasEdge_iff.mp hw
          have := (hiso w).2
          omega
      refine ⟨?_, ?_, ?_, ?_, ?_⟩
      · split_ifs with hm
        · exact hwf hm
        · exact h.wf
      · intro u v
        rw [← h.waits_eq u v]
        split
        · rfl
        · rfl
      · intro p
        by_cases hp : p = lock.lfOwner
        · subst hp
          simp only [loRefs, update_self, map_none, getD_none, if_true]
          omega
        · rw [if_neg hp, Nat.sub_zero, ← h.refs_eq p]
          simp [loRefs, update_of_ne hp]
      · intro p lo' hp
        by_cases hpo : p = lock.lfOwner
        · simp [hpo] at hp
        · simp only [update_of_ne hpo] at hp
          exact h.owner_pos p lo' hp
      · intro p hp
        have hp' : p ∈ t.graph.gVertices ∧ p ≠ lock.lfOwner := by
          split_ifs at hp with hm
          · have hp1 : p ∈ t.graph.gVertices.eraseIdx (t.graph.vOrder lock.lfOwner) := hp
            refine ⟨mem_of_mem_eraseIdx hp1, ?_⟩
            rintro rfl
            obtain ⟨i, hi, hne⟩ := mem_eraseIdx_iff_getElem?.mp hp1
            exact hi (h.wf.order_index i _ hne).symm
          · exact ⟨hp, fun he => hm (he ▸ hp)⟩
        show update t.owners lock.lfOwner none p ≠ none
        rw [update_of_ne hp'.2]
        exact h.vertex p hp'.1
    · rename_i hmore
      refine h.setOwner (pos_of_ne_zero hmore) ?_ fun p hp => by simp [hp]
      rw [if_pos rfl, hrefs]

/-- Dropping one wait. -/
theorem removeEdge (x y : OwnerId) : Tally { t with graph := graphRemoveEdge t.graph x y } refs
      (fun u v => waits u v - if u = x ∧ v = y then 1 else 0) := by
  obtain ⟨hwf, hrefs⟩ := graphRemoveEdge_spec h.wf
  refine ⟨hwf, fun u v => ?_, h.refs_eq, h.owner_pos, h.vertex⟩
  rw [hrefs u v, h.waits_eq]

/-- `lf_alloc_vertex` on an owner of the table. -/
theorem allocVertex (ho : 0 < refs o) :
    Tally { t with graph := lfAllocVertex t.graph o } refs waits ∧
      o ∈ (lfAllocVertex t.graph o).gVertices ∧
      ∀ p ∈ t.graph.gVertices, p ∈ (lfAllocVertex t.graph o).gVertices := by
  rw [lfAllocVertex]
  split_ifs with hm
  · exact ⟨h, hm, fun p hp => hp⟩
  · refine ⟨⟨graphAllocVertex_wf h.wf hm, h.waits_eq, h.refs_eq, h.owner_pos, ?_⟩, ?_, ?_⟩
    · intro p hp
      rcases mem_append.mp hp with hp | hp
      · exact h.vertex p hp
      · rw [mem_singleton.mp hp]
        intro hnone
        have := h.owners_eq_none_iff.mp hnone
        omega
    · exact mem_append_right _ (mem_singleton.mpr rfl)
    · exact fun _ => mem_append_left _

/-- Adding a wait between two owners of the table: it is counted, or it would close a cycle and
is refused.  A wait that was there before is never refused. -/
theorem addEdge (hne : u ≠ v) (hu : 0 < refs u) (hv : 0 < refs v) :
    (∃ g, graphAddEdge (lfAllocVertex (lfAllocVertex t.graph u) v) u v = (.ok, g) ∧
      Tally { t with graph := g } refs (fun a b => waits a b + if a = u ∧ b = v then 1 else 0)) ∨
    (∃ g, graphAddEdge (lfAllocVertex (lfAllocVertex t.graph u) v) u v = (.EDEADLK, g) ∧
      waits u v = 0 ∧ Tally { t with graph := g } refs waits) := by
  obtain ⟨h1, hu1, -⟩ := h.allocVertex hu
  obtain ⟨h2, hv2, hkeep⟩ := h1.allocVertex hv
  have hu2 := hkeep u hu1
  rcases graphAddEdge_cases h2.wf hu2 hv2 hne with ⟨g, hrun, -, hadd⟩ | ⟨gen, vGen, hrun, hr, hwf⟩
  · left
    refine ⟨g, hrun, hadd.wf, fun a b => ?_, h.refs_eq, h.owner_pos, fun p hp => ?_⟩
    · rw [hadd.refs, h2.waits_eq]
    · exact h2.vertex p ((hadd.vertices p).mp hp)
  · right
    refine ⟨_, hrun, ?_, hwf, h2.waits_eq, h.refs_eq, h.owner_pos, h2.vertex⟩
    by_contra hpos
    have hlt := h2.wf.hasEdge_lt (h2.hasEdge_iff.mpr (pos_of_ne_zero hpos))
    have hle := h2.wf.reach_le hr
    omega

end

end OwnerTable.Tally

/-! ## One file and the rest -/

/-- What the other files contribute to the table. -/
structure Base where
  refs : OwnerId → ℕ
  waits : OwnerId → OwnerId → ℕ
  waits_refs : ∀ u v, 0 < waits u v → 0 < refs u ∧ 0 < refs v

/-- The number of entries of a list that belong to an owner. -/
def LockfState.refsOf (s : LockfState) (all : List LockId) (o : OwnerId) : ℕ :=
  all.countP fun i => (s.entry i).lfOwner = o

/-- The number of lock edges of the file from one owner to another. -/
def LockfState.waitsOf (s : LockfState) (u v : OwnerId) : ℕ :=
  s.edges.countP fun e => (s.entry e.1).lfOwner = u ∧ (s.entry e.2).lfOwner = v

/-- The table shows the entries `all` and the lock edges of the file, on top of `b`. -/
def LfState.Tallied (s : LfState) (b : Base) (all : List LockId) : Prop :=
  s.toOwnerTable.Tally (fun o => b.refs o + s.refsOf all o) (fun u v => b.waits u v + s.waitsOf u v)

variable {s s' : LfState} {b : Base} {all all' : List LockId} {x y : LockId}

theorem LfState.Tallied.perm (h : s.Tallied b all) (hp : all.Perm all') : s.Tallied b all' :=
  h.congr (fun o => by rw [refsOf, hp.countP_eq, refsOf]) fun _ _ => rfl

/-- The numbers depend on the owners of the entries, the edges and the table only. -/
theorem LfState.Tallied.frame (h : s.Tallied b all) (ht : s'.toOwnerTable = s.toOwnerTable)
    (he : s'.edges = s.edges) (ho : ∀ i ∈ all, (s'.entry i).lfOwner = (s.entry i).lfOwner)
    (hmem : ∀ e ∈ s.edges, e.1 ∈ all ∧ e.2 ∈ all) : s'.Tallied b all := by
  rw [LfState.Tallied, ht]
  refine h.congr (fun o => ?_) fun u v => ?_
  · rw [refsOf, add_left_cancel_iff]
    refine countP_congr fun i hi => ?_
    rw [ho i hi]
  · rw [waitsOf, waitsOf, he, add_left_cancel_iff]
    refine countP_congr fun e hm => ?_
    rw [ho e.1 (hmem e hm).1, ho e.2 (hmem e hm).2]

theorem refsOf_pos (hx : x ∈ all) : 0 < l.refsOf all (l.entry x).lfOwner :=
  countP_pos_iff.mpr ⟨x, hx, by simp⟩

theorem waitsOf_pos_iff {u v : OwnerId} : 0 < l.waitsOf u v ↔
    ∃ e ∈ l.edges, (l.entry e.1).lfOwner = u ∧ (l.entry e.2).lfOwner = v := by
  rw [waitsOf]
  simp

theorem waitsOf_pos (he : (x, y) ∈ s.edges) :
    0 < s.waitsOf (s.entry x).lfOwner (s.entry y).lfOwner :=
  waitsOf_pos_iff.mpr ⟨(x, y), he, rfl, rfl⟩

/-- `lf_remove_edge` keeps the tally. -/
theorem lfRemoveEdge_tallied (h : s.Tallied b all) (he : (x, y) ∈ s.edges) :
    (lfRemoveEdge s x y).Tallied b all := by
  have hwaits : ∀ u v, s.waitsOf u v = (lfRemoveEdge s x y).waitsOf u v +
      if u = (s.entry x).lfOwner ∧ v = (s.entry y).lfOwner then 1 else 0 := by
    intro u v
    rw [waitsOf, (perm_cons_erase he).countP_eq, countP_cons]
    simp only [decide_eq_true_eq]
    exact congrArg (_ + ·) (if_congr (and_congr eq_comm eq_comm) rfl rfl)
  refine (Tally.removeEdge h _ _).congr (fun o => rfl) fun u v => ?_
  rw [hwaits u v]
  omega

/-- `lf_add_edge` between entries of different owners: the edge is added and counted, or the
edges stay as they are. -/
theorem lfAddEdge_tallied (h : s.Tallied b all) (hx : x ∈ all) (hy : y ∈ all)
    (hne : (s.entry x).lfOwner ≠ (s.entry y).lfOwner) :
    (∃ g, lfAddEdge s x y = (.ok, { s with graph := g, edges := (x, y) :: s.edges }) ∧
      LfState.Tallied { s with graph := g, edges := (x, y) :: s.edges } b all) ∨
    (∃ g, lfAddEdge s x y = (.EDEADLK, { s with graph := g }) ∧
      s.waitsOf (s.entry x).lfOwner (s.entry y).lfOwner = 0 ∧
      LfState.Tallied { s with graph := g } b all) := by
  have hx' := refsOf_pos (l := s.toLockfState) hx
  have hy' := refsOf_pos (l := s.toLockfState) hy
  rcases Tally.addEdge h hne (by omega) (by omega) with
    ⟨g, hrun, htally⟩ | ⟨g, hrun, hzero, htally⟩
  · left
    refine ⟨g, ?_, htally.congr (fun o => rfl) fun u v => ?_⟩
    · simp [lfAddEdge, hrun]
    · simp only [waitsOf, countP_cons, decide_eq_true_eq, add_assoc, add_left_cancel_iff]
      exact if_congr (and_congr eq_comm eq_comm) rfl rfl
  · right
    refine ⟨g, ?_, by omega, htally⟩
    simp only [lfAddEdge, hrun]

/-- A new entry, with a reference on its owner. -/
theorem newLock_tallied (h : s.Tallied b all) (e : LockfEntry) (pid sysid : ℤ)
    (hfresh : ∀ i ∈ all, i ≠ s.nextLock) (hedges : ∀ e ∈ s.edges, e.1 ∈ all ∧ e.2 ∈ all) :
    LfState.Tallied ⟨s.newLock e, lfRefOwner s.toOwnerTable e.lfOwner pid sysid⟩ b
      (s.nextLock :: all) := by
  have hkeep : ∀ i ∈ all, (s.newLock e).entry i = s.entry i := fun i hi =>
    update_of_ne (hfresh i hi) _ _
  refine (Tally.refOwner h pid sysid).congr (fun o => ?_) fun u v => ?_
  · have hnew : (s.newLock e).entry s.nextLock = e := update_self ..
    have hall : (s.newLock e).refsOf all o = s.refsOf all o :=
      countP_congr fun i hi => by rw [hkeep i hi]
    have hcons : (s.newLock e).refsOf (s.nextLock :: all) o =
        (s.newLock e).refsOf all o + if o = e.lfOwner then 1 else 0 := by
      rw [refsOf, countP_cons, hnew]
      simp only [decide_eq_true_eq]
      exact congrArg (_ + ·) (if_congr eq_comm rfl rfl)
    rw [hcons, hall, add_assoc]
  · refine congrArg (_ + ·) (countP_congr fun e' he => ?_).symm
    rw [hkeep _ (hedges e' he).1, hkeep _ (hedges e' he).2]

/-- Freeing an entry without edges. -/
theorem freeLock_tallied (h : s.Tallied b (x :: all))
    (hedges : ∀ e ∈ s.edges, e.1 ∈ all ∧ e.2 ∈ all) : (s.freeLock x).Tallied b all := by
  have hcons : ∀ o, s.refsOf (x :: all) o =
      s.refsOf all o + if o = (s.entry x).lfOwner then 1 else 0 := by
    intro o
    rw [refsOf, countP_cons]
    simp only [decide_eq_true_eq]
    exact congrArg (_ + ·) (if_congr eq_comm rfl rfl)
  have hfree := Tally.freeLock h (s.entry x) (by rw [hcons, if_pos rfl]; omega) ?_
  · refine hfree.congr (fun o => ?_) fun u v => rfl
    rw [hcons]
    show _ = b.refs o + s.refsOf all o
    omega
  · intro hone v
    rw [hcons, if_pos rfl] at hone
    have hedge : ∀ e ∈ s.edges, (s.entry e.1).lfOwner ≠ (s.entry x).lfOwner ∧
        (s.entry e.2).lfOwner ≠ (s.entry x).lfOwner := by
      intro e he
      have h1 := refsOf_pos (l := s.toLockfState) (hedges e he).1
      have h2 := refsOf_pos (l := s.toLockfState) (hedges e he).2
      constructor
      · intro heq
        rw [heq] at h1
        omega
      · intro heq
        rw [heq] at h2
        omega
    have hbase : ∀ u w, 0 < b.waits u w → u ≠ (s.entry x).lfOwner ∧ w ≠ (s.entry x).lfOwner := by
      intro u w hw
      obtain ⟨h1, h2⟩ := b.waits_refs u w hw
      constructor
      · rintro rfl
        omega
      · rintro rfl
        omega
    have hzero : ∀ u w, (u = (s.entry x).lfOwner ∨ w = (s.entry x).lfOwner) →
        b.waits u w + s.waitsOf u w = 0 := by
      intro u w huw
      by_contra hpos
      rcases Nat.eq_zero_or_pos (b.waits u w) with hb | hb
      · obtain ⟨e, he, h1, h2⟩ := waitsOf_pos_iff.mp (show 0 < s.waitsOf u w by omega)
        rcases huw with rfl | rfl
        · exact (hedge e he).1 h1
        · exact (hedge e he).2 h2
      · rcases huw with rfl | rfl
        · exact (hbase _ _ hb).1 rfl
        · exact (hbase _ _ hb).2 rfl
    exact ⟨hzero _ _ (.inl rfl), hzero _ _ (.inr rfl)⟩

end FreeBSDSys.Lockf
