import FreeBSDSys.Kern.OwnerGraphReorder

/-!
# The operations of the owner graph

Each operation keeps the invariant of `OwnerGraphOrder`, and its effect on the edge counts is an
equation.  The lock manager uses the operations through these results only.

* `graphAddEdge_cases`: adding an edge succeeds and counts it, or finds a cycle and changes
  neither the edges nor the orders.  `graphAddEdge_of_hasEdge`: an edge that is there already is
  only counted once more.
* `graphRemoveEdge_spec`, `graphAllocVertex_wf`, `graphFreeVertex_wf`.
* `GraphStep`: what the lock manager may do with the graph; every reachable graph satisfies the
  invariant (`wf_of_reachable`).
* `graphAddEdge_correct`: in every reachable graph the deadlock test is exact.
-/

namespace FreeBSDSys.Lockf

open Function List

universe u

open OwnerGraph

variable {V : Type u} [DecidableEq V] {g : OwnerGraph V} {x y v : V}

/-! ## Counting edges -/

theorem OwnerGraph.WF.mem_edges_iff (h : g.WF) {u : V} {n : ℕ} :
    ⟨u, v, n⟩ ∈ g.edges ↔ 0 < n ∧ n = g.edgeRefs u v := by
  constructor
  · intro he
    exact ⟨h.edge_refs _ he, (h.edgeRefs_eq he).symm⟩
  · rintro ⟨hpos, rfl⟩
    obtain ⟨e, he, rfl, rfl⟩ := h.edgeRefs_pos_iff.mp hpos
    rw [h.edgeRefs_eq he]
    exact he

/-- A list with one record for every positive count, all along the order, is a good edge list. -/
theorem OwnerGraph.WF.recount (h : g.WF) {edges : List (OwnerEdge V)} {refs : V → V → ℕ}
    (hmem : ∀ u v n, ⟨u, v, n⟩ ∈ edges ↔ 0 < n ∧ n = refs u v)
    (hone : edges.Pairwise fun e e' => ¬ (e.eFrom = e'.eFrom ∧ e.eTo = e'.eTo))
    (hrefs : ∀ u v, 0 < refs u v → (u ∈ g.gVertices ∧ v ∈ g.gVertices) ∧ g.vOrder u < g.vOrder v) :
    { g with edges := edges }.WF ∧ ∀ u v, { g with edges := edges }.edgeRefs u v = refs u v := by
  have hpos : ∀ e ∈ edges, 0 < e.eRefs ∧ 0 < refs e.eFrom e.eTo := by
    intro e he
    obtain ⟨hpos, heq⟩ := (hmem _ _ _).mp he
    exact ⟨hpos, heq ▸ hpos⟩
  have hwf : { g with edges := edges }.WF :=
    ⟨h.order_index, fun e he => (hrefs _ _ (hpos e he).2).1,
      fun e he => (hrefs _ _ (hpos e he).2).2, fun e he => (hpos e he).1, hone, h.gen_le, h.space,
      h.space_pos⟩
  refine ⟨hwf, fun u v => ?_⟩
  rcases Nat.eq_zero_or_pos (refs u v) with h0 | h0
  · rw [h0]
    refine edgeRefs_eq_zero_of_not_hasEdge ?_
    rintro ⟨e, he, rfl, rfl⟩
    have hpos' := (hpos e he).2
    omega
  · exact hwf.edgeRefs_eq ((hmem u v _).mpr ⟨h0, rfl⟩)

/-- One more reference keeps the invariant, and raises one count. -/
theorem bumpEdge_wf (h : g.WF) (hxy : g.HasEdge x y) : (g.bumpEdge x y).WF ∧
      ∀ u v, (g.bumpEdge x y).edgeRefs u v = g.edgeRefs u v + if u = x ∧ v = y then 1 else 0 := by
  have hhas : ∀ u v, 0 < g.edgeRefs u v + (if u = x ∧ v = y then 1 else 0) → g.HasEdge u v := by
    intro u v hpos
    split_ifs at hpos with huv
    · rw [huv.1, huv.2]
      exact hxy
    · exact h.edgeRefs_pos_iff.mp hpos
  refine h.recount ?_ ?_ fun u v hpos => ⟨h.hasEdge_mem (hhas u v hpos), h.hasEdge_lt (hhas u v hpos)⟩
  · intro u v n
    rw [mem_map]
    constructor
    · rintro ⟨e, he, heq⟩
      have hpos := h.edge_refs e he
      have hrefs := h.edgeRefs_eq he
      split_ifs at heq with hc
      · obtain ⟨rfl, rfl, rfl⟩ := OwnerEdge.mk.inj heq
        rw [if_pos hc, hrefs]
        exact ⟨Nat.succ_pos _, rfl⟩
      · subst heq
        rw [if_neg hc]
        exact ⟨hpos, hrefs.symm⟩
    · rintro ⟨hpos, rfl⟩
      obtain ⟨e, he, rfl, rfl⟩ := hhas u v hpos
      refine ⟨e, he, ?_⟩
      rw [h.edgeRefs_eq he]
      split <;> simp
  · refine pairwise_map.mpr (h.edge_unique.imp fun {a b} hab => ?_)
    split <;> split <;> simpa using hab

/-- A new edge along the order keeps the invariant, and raises one count. -/
theorem insertEdge_wf (h : g.WF) (hx : x ∈ g.gVertices) (hy : y ∈ g.gVertices)
    (hlt : g.vOrder x < g.vOrder y) (hno : ¬ g.HasEdge x y) :
    (g.insertEdge x y).WF ∧
      ∀ u v, (g.insertEdge x y).edgeRefs u v = g.edgeRefs u v + if u = x ∧ v = y then 1 else 0 := by
  have h0 : g.edgeRefs x y = 0 := edgeRefs_eq_zero_of_not_hasEdge hno
  refine h.recount ?_ ?_ ?_
  · intro u v n
    rw [mem_cons, h.mem_edges_iff, OwnerEdge.mk.injEq, ← and_assoc]
    by_cases hc : u = x ∧ v = y
    · rw [if_pos hc, hc.1, hc.2]
      simp only [true_and]
      omega
    · rw [if_neg hc]
      simp [hc]
  · refine pairwise_cons.mpr ⟨?_, h.edge_unique⟩
    rintro e he ⟨h1, h2⟩
    exact hno ⟨e, he, h1.symm, h2.symm⟩
  · intro u v hpos
    split at hpos
    · rename_i huv
      rw [huv.1, huv.2]
      exact ⟨⟨hx, hy⟩, hlt⟩
    · have huv := h.edgeRefs_pos_iff.mp hpos
      exact ⟨h.hasEdge_mem huv, h.hasEdge_lt huv⟩

/-! ## Adding an edge -/

/-- A successful `graph_add_edge`. -/
structure EdgeAdded (g : OwnerGraph V) (x y : V) (g' : OwnerGraph V) : Prop where
  wf : g'.WF
  refs : ∀ u v, g'.edgeRefs u v = g.edgeRefs u v + if u = x ∧ v = y then 1 else 0
  vertices : ∀ v, v ∈ g'.gVertices ↔ v ∈ g.gVertices

/-- An edge that is there already is counted once more; nothing else changes. -/
theorem graphAddEdge_of_hasEdge (h : g.WF) (hxy : g.HasEdge x y) :
    ∃ edges, graphAddEdge g x y = (.ok, { g with edges := edges }) ∧
      EdgeAdded g x y { g with edges := edges } := by
  cases hf : g.findEdge x y with
  | none => exact absurd hxy (findEdge_eq_none_iff.mp hf)
  | some e =>
    obtain ⟨hwf, hrefs⟩ := bumpEdge_wf h hxy
    refine ⟨(g.bumpEdge x y).edges, ?_, hwf, hrefs, fun v => Iff.rfl⟩
    rw [graphAddEdge, hf]
    rfl

/-- **What `graph_add_edge` can do.** -/
theorem graphAddEdge_cases (h : g.WF) (hx : x ∈ g.gVertices) (hy : y ∈ g.gVertices) (hne : x ≠ y) :
    (∃ g', graphAddEdge g x y = (.ok, g') ∧ ¬ Relation.ReflTransGen g.HasEdge y x ∧
      EdgeAdded g x y g') ∨
    (∃ gen vGen, graphAddEdge g x y = (.EDEADLK, { g with gGen := gen, vGen := vGen }) ∧
      Relation.ReflTransGen g.HasEdge y x ∧ { g with gGen := gen, vGen := vGen }.WF) := by
  by_cases hxy : g.HasEdge x y
  · left
    obtain ⟨edges, hrun, hadd⟩ := graphAddEdge_of_hasEdge h hxy
    refine ⟨_, hrun, fun hreach => ?_, hadd⟩
    have h1 := h.reach_le hreach
    have h2 := h.hasEdge_lt hxy
    omega
  · have hf := findEdge_eq_none_iff.mpr hxy
    by_cases hlt : g.vOrder y < g.vOrder x
    · rcases graphReorder_spec h hx hy hlt with ⟨gen, vGen, hrun, hreach, hwf⟩ |
        ⟨g', hrun, hno, hwf, hedges, hverts, hlt'⟩
      · right
        refine ⟨gen, vGen, ?_, hreach, hwf⟩
        rw [graphAddEdge, hf]
        simp only [if_pos hlt, hrun]
      · left
        have hedge' : ¬ g'.HasEdge x y := by
          rintro ⟨e, he, h1, h2⟩
          exact hxy ⟨e, hedges ▸ he, h1, h2⟩
        obtain ⟨hwf', hrefs⟩ :=
          insertEdge_wf hwf ((hverts x).mpr hx) ((hverts y).mpr hy) hlt' hedge'
        refine ⟨g'.insertEdge x y, ?_, hno, hwf', fun u v => ?_, hverts⟩
        · rw [graphAddEdge, hf]
          simp only [if_pos hlt, hrun]
        · rw [hrefs u v, edgeRefs, edgeRefs, findEdge_eq, findEdge_eq, hedges]
    · left
      have hlt' : g.vOrder x < g.vOrder y :=
        lt_of_le_of_ne (not_lt.mp hlt) fun he => hne (h.order_inj hx hy he)
      obtain ⟨hwf', hrefs⟩ := insertEdge_wf h hx hy hlt' hxy
      refine ⟨g.insertEdge x y, ?_, fun hreach => ?_, hwf', hrefs, fun v => Iff.rfl⟩
      · rw [graphAddEdge, hf]
        simp only [if_neg hlt]
      · exact absurd (h.reach_le hreach) (not_le.mpr hlt')

/-! ## The other operations -/

/-- `graph_remove_edge` drops one reference. -/
theorem graphRemoveEdge_spec (h : g.WF) :
    (graphRemoveEdge g x y).WF ∧ ∀ u v, (graphRemoveEdge g x y).edgeRefs u v =
      g.edgeRefs u v - if u = x ∧ v = y then 1 else 0 := by
  -- the record an edge leaves behind
  have hleft : ∀ e ∈ g.edges, ∀ e', (if e.eFrom = x ∧ e.eTo = y then
      if e.eRefs - 1 = 0 then none else some { e with eRefs := e.eRefs - 1 } else some e) = some e' ↔
        0 < e.eRefs - (if e.eFrom = x ∧ e.eTo = y then 1 else 0) ∧
          ⟨e.eFrom, e.eTo, e.eRefs - if e.eFrom = x ∧ e.eTo = y then 1 else 0⟩ = e' := by
    intro e he e'
    have hpos := h.edge_refs e he
    split
    · rw [Option.ite_none_left_eq_some, Option.some.injEq, Nat.pos_iff_ne_zero]
    · simp [hpos]
  have hhas : ∀ u v, 0 < g.edgeRefs u v - (if u = x ∧ v = y then 1 else 0) → g.HasEdge u v :=
    fun u v hpos => h.edgeRefs_pos_iff.mp (hpos.trans_le (Nat.sub_le _ _))
  refine h.recount ?_ ?_ fun u v hpos => ⟨h.hasEdge_mem (hhas u v hpos), h.hasEdge_lt (hhas u v hpos)⟩
  · intro u v n
    rw [mem_filterMap]
    constructor
    · rintro ⟨e, he, heq⟩
      obtain ⟨hpos, heq⟩ := (hleft e he _).mp heq
      obtain ⟨rfl, rfl, rfl⟩ := OwnerEdge.mk.inj heq
      rw [h.edgeRefs_eq he]
      exact ⟨hpos, rfl⟩
    · rintro ⟨hpos, rfl⟩
      obtain ⟨e, he, rfl, rfl⟩ := hhas u v hpos
      rw [h.edgeRefs_eq he] at hpos ⊢
      exact ⟨e, he, (hleft e he _).mpr ⟨hpos, rfl⟩⟩
  · refine pairwise_filterMap.mpr (h.edge_unique.imp_of_mem ?_)
    intro a b ha hb hab a' ha' b' hb'
    rw [← ((hleft a ha _).mp ha').2, ← ((hleft b hb _).mp hb').2]
    exact hab

/-- `graph_alloc_vertex` keeps the invariant. -/
theorem graphAllocVertex_wf (h : g.WF) (hv : v ∉ g.gVertices) : (graphAllocVertex g v).WF := by
  have hne : ∀ w ∈ g.gVertices, w ≠ v := fun w hw he => hv (he ▸ hw)
  have hkeep : ∀ w ∈ g.gVertices, (graphAllocVertex g v).vOrder w = g.vOrder w := fun w hw =>
    update_of_ne (hne w hw) _ _
  refine ⟨?_, ?_, ?_, h.edge_refs, h.edge_unique, ?_, ?_, ?_⟩
  · intro i w hi
    have hi' : (g.gVertices ++ [v])[i]? = some w := hi
    rcases lt_or_ge i g.gVertices.length with hlt | hge
    · rw [getElem?_append_left hlt] at hi'
      rw [hkeep w (mem_of_getElem? hi')]
      exact h.order_index i w hi'
    · rw [getElem?_append_right hge, getElem?_singleton] at hi'
      split_ifs at hi'
      rw [← Option.some.inj hi']
      show update g.vOrder v _ v = i
      rw [update_self]
      omega
  · intro e he
    obtain ⟨h1, h2⟩ := h.edge_mem e he
    exact ⟨mem_append_left _ h1, mem_append_left _ h2⟩
  · intro e he
    obtain ⟨h1, h2⟩ := h.edge_mem e he
    rw [hkeep _ h1, hkeep _ h2]
    exact h.edge_lt e he
  · intro w hw
    show update g.vGen v g.gGen w ≤ g.gGen
    rcases mem_append.mp hw with hw | hw
    · rw [update_of_ne (hne w hw)]
      exact h.gen_le w hw
    · rw [mem_singleton.mp hw, update_self]
      exact BitVec.le_refl _
  · show (g.gVertices ++ [v]).length ≤ if g.gVertices.length = g.gSpace then 2 * g.gSpace
      else g.gSpace
    have h1 := h.space
    have h2 := h.space_pos
    rw [length_append, length_singleton]
    split <;> omega
  · show 0 < if g.gVertices.length = g.gSpace then 2 * g.gSpace else g.gSpace
    have h2 := h.space_pos
    split <;> omega

/-- The orders after `graph_free_vertex` closed the gap at `v`. -/
theorem graphFreeVertex_vOrder (h : g.WF) {w : V}
    (hw : w ∈ g.gVertices) : (graphFreeVertex g v).vOrder w =
      if g.vOrder v < g.vOrder w then g.vOrder w - 1 else g.vOrder w := by
  have hiff : w ∈ g.gVertices.drop (g.vOrder v + 1) ↔ g.vOrder v < g.vOrder w := by
    constructor
    · intro hm
      obtain ⟨i, hi⟩ := getElem?_of_mem hm
      rw [getElem?_drop] at hi
      rw [h.order_index _ w hi]
      omega
    · intro hlt
      refine mem_of_getElem? (i := g.vOrder w - (g.vOrder v + 1)) ?_
      rw [getElem?_drop, show g.vOrder v + 1 + (g.vOrder w - (g.vOrder v + 1)) = g.vOrder w
        by omega]
      exact h.getElem?_order hw
  show (if w ∈ g.gVertices.drop (g.vOrder v + 1) then g.vOrder w - 1 else g.vOrder w) = _
  simp [hiff]

/-- `graph_free_vertex` keeps the invariant when the vertex has no edges. -/
theorem graphFreeVertex_wf (h : g.WF) (hv : v ∈ g.gVertices)
    (hout : ∀ w, ¬ g.HasEdge v w) (hin : ∀ w, ¬ g.HasEdge w v) : (graphFreeVertex g v).WF := by
  have hget : ∀ i w, (graphFreeVertex g v).gVertices[i]? = some w →
      w ∈ g.gVertices ∧ g.vOrder w = if i < g.vOrder v then i else i + 1 := by
    intro i w hi
    have hi' : (g.gVertices.eraseIdx (g.vOrder v))[i]? = some w := hi
    rw [getElem?_eraseIdx] at hi'
    split_ifs at hi' with hlt
    · rw [if_pos hlt]
      exact ⟨mem_of_getElem? hi', h.order_index i w hi'⟩
    · rw [if_neg hlt]
      exact ⟨mem_of_getElem? hi', h.order_index (i + 1) w hi'⟩
  have hmem : ∀ w ∈ g.gVertices, w ≠ v → w ∈ (graphFreeVertex g v).gVertices := by
    intro w hw hne
    have hord : g.vOrder w ≠ g.vOrder v := fun he => hne (h.order_inj hw hv he)
    rcases lt_or_gt_of_ne hord with hlt | hgt
    · refine mem_of_getElem? (i := g.vOrder w) ?_
      show (g.gVertices.eraseIdx (g.vOrder v))[g.vOrder w]? = some w
      rw [getElem?_eraseIdx, if_pos hlt]
      exact h.getElem?_order hw
    · refine mem_of_getElem? (i := g.vOrder w - 1) ?_
      show (g.gVertices.eraseIdx (g.vOrder v))[g.vOrder w - 1]? = some w
      rw [getElem?_eraseIdx, if_neg (by omega),
        show g.vOrder w - 1 + 1 = g.vOrder w by omega]
      exact h.getElem?_order hw
  have hends : ∀ e ∈ g.edges, e.eFrom ≠ v ∧ e.eTo ≠ v := by
    intro e he
    exact ⟨fun heq => hout e.eTo ⟨e, he, heq, rfl⟩, fun heq => hin e.eFrom ⟨e, he, rfl, heq⟩⟩
  refine ⟨?_, ?_, ?_, h.edge_refs, h.edge_unique, ?_, ?_, h.space_pos⟩
  · intro i w hi
    obtain ⟨hw, hord⟩ := hget i w hi
    rw [graphFreeVertex_vOrder h hw, hord]
    split <;> split <;> omega
  · intro e he
    obtain ⟨h1, h2⟩ := h.edge_mem e he
    exact ⟨hmem _ h1 (hends e he).1, hmem _ h2 (hends e he).2⟩
  · intro e he
    obtain ⟨h1, h2⟩ := h.edge_mem e he
    have hlt := h.edge_lt e he
    have hne : g.vOrder e.eFrom ≠ g.vOrder v := fun heq =>
      (hends e he).1 (h.order_inj h1 hv heq)
    rw [graphFreeVertex_vOrder h h1, graphFreeVertex_vOrder h h2]
    split <;> split <;> omega
  · intro w hw
    obtain ⟨i, hi⟩ := getElem?_of_mem hw
    exact h.gen_le w (hget i w hi).1
  · show (g.gVertices.eraseIdx (g.vOrder v)).length ≤ g.gSpace
    have hlen := h.space
    rw [length_eraseIdx]
    split <;> omega

/-! ## Reachable graphs -/

/-- One operation on the owner graph, under the conditions its callers guarantee: `malloc` returns
a new pointer, an edge joins two vertices of the graph, and the assertions of `graph_remove_edge`
and `graph_free_vertex` hold. -/
inductive GraphStep : OwnerGraph V → OwnerGraph V → Prop where
  | alloc {g : OwnerGraph V} {v : V} (hv : v ∉ g.gVertices) : GraphStep g (graphAllocVertex g v)
  | add {g : OwnerGraph V} {x y : V} (hx : x ∈ g.gVertices) (hy : y ∈ g.gVertices)
      (hne : x ≠ y) : GraphStep g (graphAddEdge g x y).2
  | remove {g : OwnerGraph V} {x y : V} (hxy : g.HasEdge x y) : GraphStep g (graphRemoveEdge g x y)
  | free {g : OwnerGraph V} {v : V} (hv : v ∈ g.gVertices) (hout : g.vOutedges v = [])
      (hin : g.vInedges v = []) : GraphStep g (graphFreeVertex g v)

/-- The owner graphs the lock manager can build. -/
def GraphReachable (g : OwnerGraph V) : Prop :=
  Reachable (fun g => g = graphInit) GraphStep g

omit [DecidableEq V] in
theorem graphInit_wf : (graphInit : OwnerGraph V).WF := by
  refine ⟨?_, ?_, ?_, ?_, ?_, ?_, ?_, ?_⟩ <;> simp [graphInit]

theorem GraphStep.wf {g g' : OwnerGraph V} (h : g.WF) (hstep : GraphStep g g') : g'.WF := by
  cases hstep with
  | alloc hv => exact graphAllocVertex_wf h hv
  | add hx hy hne =>
    rcases graphAddEdge_cases h hx hy hne with ⟨g', hrun, -, hadd⟩ | ⟨gen, vGen, hrun, -, hwf⟩
    · rw [hrun]
      exact hadd.wf
    · rw [hrun]
      exact hwf
  | remove hxy => exact (graphRemoveEdge_spec h).1
  | free hv hout hin =>
    refine graphFreeVertex_wf h hv ?_ ?_
    · rintro w ⟨e, he, h1, -⟩
      have hm : e ∈ g.vOutedges _ := mem_vOutedges.mpr ⟨he, h1⟩
      rw [hout] at hm
      cases hm
    · rintro w ⟨e, he, -, h2⟩
      have hm : e ∈ g.vInedges _ := mem_vInedges.mpr ⟨he, h2⟩
      rw [hin] at hm
      cases hm

theorem wf_of_reachable (h : GraphReachable g) : g.WF := by
  refine Reachable.invariant ?_ (fun s s' hs hstep => hstep.wf hs) h
  rintro s rfl
  exact graphInit_wf

/-- **The deadlock test is exact.**  In every reachable owner graph, adding an edge between two
different vertices fails if and only if it would close a cycle.  When it succeeds the edge is
counted once more, the array agrees with the orders, and every edge follows the order; when it
fails, edges and orders are as before. -/
theorem graphAddEdge_correct (hg : GraphReachable g) (hx : x ∈ g.gVertices)
    (hy : y ∈ g.gVertices) (hne : x ≠ y) :
    ((graphAddEdge g x y).1 = .EDEADLK ↔ Relation.ReflTransGen g.HasEdge y x) ∧
    ((graphAddEdge g x y).1 = .ok ∨ (graphAddEdge g x y).1 = .EDEADLK) ∧
    ((graphAddEdge g x y).1 = .ok → (graphAddEdge g x y).2.HasEdge x y ∧
      (∀ u v, (graphAddEdge g x y).2.edgeRefs u v =
        g.edgeRefs u v + if u = x ∧ v = y then 1 else 0) ∧
      (∀ i v, (graphAddEdge g x y).2.gVertices[i]? = some v → (graphAddEdge g x y).2.vOrder v = i) ∧
      (∀ u v, (graphAddEdge g x y).2.HasEdge u v →
        (graphAddEdge g x y).2.vOrder u < (graphAddEdge g x y).2.vOrder v)) ∧
    ((graphAddEdge g x y).1 = .EDEADLK → (graphAddEdge g x y).2.edges = g.edges ∧
      (graphAddEdge g x y).2.gVertices = g.gVertices ∧
      (graphAddEdge g x y).2.vOrder = g.vOrder) := by
  have h := wf_of_reachable hg
  rcases graphAddEdge_cases h hx hy hne with ⟨g', hrun, hno, hadd⟩ | ⟨gen, vGen, hrun, hreach, -⟩
  · rw [hrun]
    refine ⟨⟨fun he => (by cases he), fun hr => absurd hr hno⟩, .inl rfl, fun _ => ?_,
      fun he => (by cases he)⟩
    refine ⟨?_, hadd.refs, hadd.wf.order_index, fun u v => hadd.wf.hasEdge_lt⟩
    rw [← hadd.wf.edgeRefs_pos_iff, hadd.refs, if_pos ⟨rfl, rfl⟩]
    exact Nat.succ_pos _
  · rw [hrun]
    exact ⟨⟨fun _ => hreach, fun _ => rfl⟩, .inr rfl, fun he => (by cases he),
      fun _ => ⟨rfl, rfl, rfl⟩⟩

/-- Owner `1` waits for owner `0`; the converse edge is a deadlock. -/
theorem graphAddEdge_correct_pair :
    (graphAddEdge (graphAddEdge (graphAllocVertex (graphAllocVertex graphInit 0) 1) 1 0).2
      0 1).1 = .EDEADLK := by
  have h0 : GraphReachable (graphInit : OwnerGraph ℕ) := Reachable.of_init rfl
  have h1 : GraphReachable (graphAllocVertex graphInit 0) := h0.tail (.alloc (by decide))
  have h2 : GraphReachable (graphAllocVertex (graphAllocVertex graphInit 0) 1) :=
    h1.tail (.alloc (by decide))
  have h3 := h2.tail (.add (x := 1) (y := 0) (by decide) (by decide) (by decide))
  refine (graphAddEdge_correct h3 (by decide) (by decide) (by decide)).1.mpr ?_
  exact Relation.ReflTransGen.single ⟨⟨1, 0, 1⟩, by decide, rfl, rfl⟩

end FreeBSDSys.Lockf
