import FreeBSDSys.Kern.OwnerGraph

/-!
# The invariant of the owner graph, and the searches of a reordering

`OwnerGraph.WF` is the invariant of the owner graph: `g_vertices[i]->v_order` is `i`, every edge
goes from a smaller to a larger order, between any two vertices there is at most one edge record,
and no vertex carries a stamp of a generation that is still to come.

The second part of the file is about the two searches `graph_add_edge` makes before it reorders.
Both are instances of the stamped search of `Lib.StampSearch`, with the same generation; since the
generation is new, the stamps met by the forward search are its own, and those met by the backward
search are its own and those of the forward search.

* `WF.nextGen`, `graphNextGen_fresh`: the generation step, wrapped or not.
* `graphDeltaForward_ok`, `graphDeltaForward_error`: the forward search finds `x`, or a set closed
  under edges below the order of `x`; `ForwardSet.not_reach` draws the conclusion.
* `graphDeltaBackward_spec`: the backward search finds a set closed under edges above the order
  of `y`.
-/

namespace FreeBSDSys.Lockf

open List OwnerEdge Relation StampSearch

universe u

variable {V : Type u} [DecidableEq V] {e : OwnerEdge V} {g' : OwnerGraph V} {deltaF : List V}

/-! ## Edges and their counts -/

namespace OwnerGraph

variable {g : OwnerGraph V} {x y u v : V}

theorem findEdge_eq (g : OwnerGraph V) (x y : V) :
    g.findEdge x y = g.edges.find? fun e => decide (e.eFrom = x ∧ e.eTo = y) := by
  rw [findEdge, vOutedges, find?_filter]
  congr 1
  funext e
  simp

theorem mem_vOutedges : e ∈ g.vOutedges v ↔ e ∈ g.edges ∧ e.eFrom = v := by
  simp [vOutedges]

theorem mem_vInedges : e ∈ g.vInedges v ↔ e ∈ g.edges ∧ e.eTo = v := by
  simp [vInedges]

theorem edge_vOutedges_iff : Edge (fun v => (g.vOutedges v).map eTo) u v ↔ g.HasEdge u v := by
  simp only [Edge, mem_map, mem_vOutedges, HasEdge, and_assoc]

theorem edge_vInedges_iff : Edge (fun v => (g.vInedges v).map eFrom) u v ↔ g.HasEdge v u := by
  simp only [Edge, mem_map, mem_vInedges, and_assoc]
  exact exists_congr fun e => and_congr_right fun _ => and_comm

theorem findEdge_eq_none_iff : g.findEdge x y = none ↔ ¬ g.HasEdge x y := by
  rw [findEdge_eq, find?_eq_none]
  simp only [decide_eq_true_eq]
  constructor
  · rintro h ⟨e, he, hxy⟩
    exact h e he hxy
  · intro h e he hxy
    exact h ⟨e, he, hxy⟩

theorem edgeRefs_eq_zero_of_not_hasEdge (h : ¬ g.HasEdge x y) : g.edgeRefs x y = 0 := by
  rw [edgeRefs, findEdge_eq_none_iff.mpr h]
  rfl

/-! ## The invariant -/

/-- The invariant of the owner graph. -/
structure WF (g : OwnerGraph V) : Prop where
  order_index : ∀ i v, g.gVertices[i]? = some v → g.vOrder v = i
  edge_mem : ∀ e ∈ g.edges, e.eFrom ∈ g.gVertices ∧ e.eTo ∈ g.gVertices
  edge_lt : ∀ e ∈ g.edges, g.vOrder e.eFrom < g.vOrder e.eTo
  edge_refs : ∀ e ∈ g.edges, 0 < e.eRefs
  edge_unique : g.edges.Pairwise fun e e' => ¬ (e.eFrom = e'.eFrom ∧ e.eTo = e'.eTo)
  gen_le : ∀ v ∈ g.gVertices, g.vGen v ≤ g.gGen
  space : g.gVertices.length ≤ g.gSpace
  space_pos : 0 < g.gSpace

namespace WF

section

variable (h : g.WF)

include h

section

omit [DecidableEq V]

theorem getElem?_order (hv : v ∈ g.gVertices) : g.gVertices[g.vOrder v]? = some v := by
  obtain ⟨i, hi⟩ := getElem?_of_mem hv
  rw [h.order_index i v hi]
  exact hi

theorem order_lt_length (hv : v ∈ g.gVertices) : g.vOrder v < g.gVertices.length := by
  have hget := h.getElem?_order hv
  by_contra hlt
  rw [getElem?_eq_none (not_lt.mp hlt)] at hget
  cases hget

theorem order_inj (hu : u ∈ g.gVertices) (hv : v ∈ g.gVertices)
    (he : g.vOrder u = g.vOrder v) : u = v := by
  have h1 := h.getElem?_order hu
  rw [he, h.getElem?_order hv] at h1
  exact (Option.some.inj h1).symm

theorem hasEdge_lt (huv : g.HasEdge u v) : g.vOrder u < g.vOrder v := by
  obtain ⟨e, he, rfl, rfl⟩ := huv
  exact h.edge_lt e he

theorem hasEdge_mem (huv : g.HasEdge u v) : u ∈ g.gVertices ∧ v ∈ g.gVertices := by
  obtain ⟨e, he, rfl, rfl⟩ := huv
  exact h.edge_mem e he

theorem reach_le (huv : ReflTransGen g.HasEdge u v) : g.vOrder u ≤ g.vOrder v := by
  induction huv with
  | refl => exact le_rfl
  | tail _ hst ih => exact ih.trans (h.hasEdge_lt hst).le

theorem reach_mem (hu : u ∈ g.gVertices) (huv : ReflTransGen g.HasEdge u v) : v ∈ g.gVertices := by
  cases huv with
  | refl => exact hu
  | tail _ hst => exact (h.hasEdge_mem hst).2

theorem coreach_mem (hv : v ∈ g.gVertices)
    (huv : ReflTransGen g.HasEdge u v) : u ∈ g.gVertices := by
  rcases huv.cases_head with rfl | ⟨w, hw, -⟩
  · exact hv
  · exact (h.hasEdge_mem hw).1

theorem edge_eq {e' : OwnerEdge V} (he : e ∈ g.edges) (he' : e' ∈ g.edges)
    (hfrom : e.eFrom = e'.eFrom) (hto : e.eTo = e'.eTo) : e = e' := by
  by_contra hne
  have : Std.Symm fun e e' : OwnerEdge V => ¬ (e.eFrom = e'.eFrom ∧ e.eTo = e'.eTo) :=
    ⟨fun _ _ hn hc => hn ⟨hc.1.symm, hc.2.symm⟩⟩
  exact h.edge_unique.forall he he' hne ⟨hfrom, hto⟩

end

theorem edgeRefs_pos_iff : 0 < g.edgeRefs x y ↔ g.HasEdge x y := by
  constructor
  · intro hpos
    by_contra hno
    rw [edgeRefs_eq_zero_of_not_hasEdge hno] at hpos
    exact absurd hpos (lt_irrefl 0)
  · intro hxy
    cases hf : g.findEdge x y with
    | none => exact absurd hxy (findEdge_eq_none_iff.mp hf)
    | some e =>
      rw [edgeRefs, hf]
      rw [findEdge_eq] at hf
      exact h.edge_refs e (mem_of_find?_eq_some hf)

/-- The count of a pair is the count of any edge record between the two. -/
theorem edgeRefs_eq (he : e ∈ g.edges) : g.edgeRefs e.eFrom e.eTo = e.eRefs := by
  cases hf : g.findEdge e.eFrom e.eTo with
  | none => exact absurd ⟨e, he, rfl, rfl⟩ (findEdge_eq_none_iff.mp hf)
  | some e' =>
    rw [edgeRefs, hf]
    rw [findEdge_eq] at hf
    have hp : e'.eFrom = e.eFrom ∧ e'.eTo = e.eTo := by simpa using find?_some hf
    rw [h.edge_eq he (mem_of_find?_eq_some hf) hp.1.symm hp.2.symm]
    rfl

end

end WF

omit [DecidableEq V] in
/-- Changing the stamps keeps the invariant as long as none is from the future. -/
theorem WF.setGen (h : g.WF) {gen : BitVec 32} {vGen : V → BitVec 32}
    (hgen : ∀ v ∈ g.gVertices, vGen v ≤ gen) : { g with gGen := gen, vGen := vGen }.WF :=
  ⟨h.order_index, h.edge_mem, h.edge_lt, h.edge_refs, h.edge_unique, hgen, h.space, h.space_pos⟩

end OwnerGraph

open OwnerGraph

variable {g : OwnerGraph V} {x y : V}

/-! ## The searches -/

/-- After the generation step no vertex carries the current stamp. -/
theorem graphNextGen_fresh (h : g.WF) :
    ∀ v ∈ g.gVertices, (graphNextGen g).vGen v < (graphNextGen g).gGen := by
  intro v hv
  have hle := h.gen_le v hv
  rw [graphNextGen]
  split_ifs with hwrap
  · show (if v ∈ g.gVertices then 0 else g.vGen v) < g.gGen + 1 + 1
    rw [if_pos hv, hwrap]
    decide
  · show g.vGen v < g.gGen + 1
    rw [BitVec.lt_def]
    rw [BitVec.le_def] at hle
    have hne : (g.gGen + 1).toNat ≠ 0 := fun h0 => hwrap (BitVec.eq_of_toNat_eq (by simpa using h0))
    rw [BitVec.toNat_add] at hne ⊢
    have hone : (1 : BitVec 32).toNat = 1 := rfl
    omega

theorem graphNextGen_eq (g : OwnerGraph V) :
    ∃ gen vGen, graphNextGen g = { g with gGen := gen, vGen := vGen } := by
  rw [graphNextGen]
  split <;> exact ⟨_, _, rfl⟩

theorem OwnerGraph.WF.nextGen (h : g.WF) : (graphNextGen g).WF := by
  have hfresh := graphNextGen_fresh h
  obtain ⟨gen, vGen, heq⟩ := graphNextGen_eq g
  rw [heq] at hfresh ⊢
  exact h.setGen fun v hv => BitVec.le_of_lt (hfresh v hv)

/-- A path along the out-edges of the search is a path of the graph. -/
theorem reach_outedges {u v : V} : ReflTransGen (Edge fun v => (g.vOutedges v).map eTo) u v ↔
      ReflTransGen g.HasEdge u v := by
  have he : (Edge fun v => (g.vOutedges v).map eTo) = g.HasEdge := by
    funext a b
    exact propext edge_vOutedges_iff
  rw [he]

/-- A path along the in-edges of the search is a path of the graph, backwards. -/
theorem reach_inedges {u v : V} : ReflTransGen (Edge fun v => (g.vInedges v).map eFrom) u v ↔
      ReflTransGen g.HasEdge v u := by
  have he : (Edge fun v => (g.vInedges v).map eFrom) = Function.swap g.HasEdge := by
    funext a b
    exact propext edge_vInedges_iff
  rw [he, reflTransGen_swap]

/-- What a forward search that met no loop found. -/
structure ForwardSet (g : OwnerGraph V) (x y : V) (deltaF : List V) : Prop where
  root_mem : y ∈ deltaF
  nodup : deltaF.Nodup
  reach : ∀ v ∈ deltaF, ReflTransGen g.HasEdge y v
  lt : ∀ v ∈ deltaF, g.vOrder v < g.vOrder x
  closed : ∀ u ∈ deltaF, ∀ v, g.HasEdge u v → v ∈ deltaF ∨ g.vOrder x < g.vOrder v

/-- `graph_delta_forward` without a loop: the set it returns, and the stamps it leaves. -/
theorem graphDeltaForward_ok (h : g.WF) (hx : x ∈ g.gVertices) (hy : y ∈ g.gVertices)
    (hlt : g.vOrder y < g.vOrder x) (hfresh : ∀ v ∈ g.gVertices, g.vGen v ≠ g.gGen)
    (hrun : graphDeltaForward g x y = .ok (g', deltaF)) :
    ∃ vGen', g' = { g with vGen := vGen' } ∧ ForwardSet g x y deltaF ∧
      ∀ w, vGen' w = if w ∈ deltaF ∧ w ≠ y then g.gGen else g.vGen w := by
  rw [graphDeltaForward] at hrun
  split at hrun
  · cases hrun
  · rename_i vGen' delta hsearch
    cases hrun
    have hspec := search_spec g.gVertices ?_ ?_ le_rfl hsearch
    · refine ⟨vGen', rfl, ⟨hspec.root_mem, hspec.nodup, ?_, ?_, ?_⟩, hspec.stamp_eq⟩
      · intro v hv
        exact reach_outedges.mp (hspec.reach v hv)
      · intro v hv
        by_cases hvy : v = y
        · rw [hvy]
          exact hlt
        · exact of_decide_eq_true (hspec.region v hv hvy).1
      · intro u hu v huv
        obtain ⟨hstop, hregion⟩ := hspec.closed u hu v (edge_vOutedges_iff.mpr huv)
        have hvx : v ≠ x := of_decide_eq_false hstop
        have hv : v ∈ g.gVertices := (h.hasEdge_mem huv).2
        rcases lt_trichotomy (g.vOrder v) (g.vOrder x) with hc | hc | hc
        · exact .inl ((hregion (decide_eq_true hc)).resolve_right (hfresh v hv))
        · exact absurd (h.order_inj hv hx hc) hvx
        · exact .inr hc
    · -- the order grows along edges, so no path comes back to `y`
      intro v hv hmem
      have h1 := h.reach_le (reach_outedges.mp hv)
      have h2 := h.hasEdge_lt (edge_vOutedges_iff.mp hmem)
      omega
    · intro v hv
      exact h.reach_mem hy (reach_outedges.mp hv)

/-- `graph_delta_forward` with a loop: `x` is reachable from `y`, and only stamps changed. -/
theorem graphDeltaForward_error (hrun : graphDeltaForward g x y = .error g') :
    ReflTransGen g.HasEdge y x ∧
      ∃ vGen', g' = { g with vGen := vGen' } ∧ ∀ w, vGen' w = g.gGen ∨ vGen' w = g.vGen w := by
  rw [graphDeltaForward] at hrun
  split at hrun
  · rename_i vGen' hsearch
    simp only [Except.error.injEq] at hrun
    obtain ⟨⟨w, hw, hreach⟩, hst⟩ := search_error y _
      (fun v hv => by rw [mem_singleton.mp hv]) hsearch
    have hwx : w = x := of_decide_eq_true hw
    rw [hwx] at hreach
    exact ⟨reach_outedges.mp hreach, vGen', hrun.symm, hst⟩
  · cases hrun

omit [DecidableEq V] in
/-- If the forward search met no loop, there is none. -/
theorem ForwardSet.not_reach (h : g.WF) (hF : ForwardSet g x y deltaF) :
    ¬ ReflTransGen g.HasEdge y x := by
  have hall : ∀ v, ReflTransGen g.HasEdge y v → v ∈ deltaF ∨ g.vOrder x < g.vOrder v := by
    intro v hv
    induction hv with
    | refl => exact .inl hF.root_mem
    | tail _ hst ih =>
      rcases ih with hm | hgt
      · exact hF.closed _ hm _ hst
      · exact .inr (hgt.trans (h.hasEdge_lt hst))
  intro hreach
  rcases hall x hreach with hm | hgt
  · exact absurd (hF.lt x hm) (lt_irrefl _)
  · exact absurd hgt (lt_irrefl _)

/-- What a backward search found. -/
structure BackwardSet (g : OwnerGraph V) (x y : V) (deltaB : List V) : Prop where
  root_mem : x ∈ deltaB
  nodup : deltaB.Nodup
  reach : ∀ v ∈ deltaB, ReflTransGen g.HasEdge v x
  gt : ∀ v ∈ deltaB, g.vOrder y < g.vOrder v
  closed : ∀ v ∈ deltaB, ∀ u, g.HasEdge u v → u ∈ deltaB ∨ g.vOrder u < g.vOrder y

/-- `graph_delta_backward`, after a forward search without a loop.  The stamps of the forward
search keep its vertices out of the result, and no path would lead to them anyway. -/
theorem graphDeltaBackward_spec {vGen0 : V → BitVec 32} (h : g.WF)
    (hx : x ∈ g.gVertices) (hy : y ∈ g.gVertices) (hlt : g.vOrder y < g.vOrder x)
    (hfresh : ∀ v ∈ g.gVertices, vGen0 v ≠ g.gGen) (hF : ForwardSet g x y deltaF)
    (hst : ∀ w, g.vGen w = if w ∈ deltaF ∧ w ≠ y then g.gGen else vGen0 w) :
    ∃ vGen', (graphDeltaBackward g x y).1 = { g with vGen := vGen' } ∧
      BackwardSet g x y (graphDeltaBackward g x y).2 ∧
      ∀ w, vGen' w = g.gGen ∨ vGen' w = g.vGen w := by
  have hno := hF.not_reach h
  rw [graphDeltaBackward]
  split
  · rename_i vGen' hsearch
    obtain ⟨⟨w, hw, -⟩, -⟩ := search_error x _ (fun v hv => by rw [mem_singleton.mp hv]) hsearch
    cases hw
  · rename_i vGen' delta hsearch
    have hspec := search_spec g.gVertices ?_ ?_ le_rfl hsearch
    · have hreach : ∀ v ∈ delta, ReflTransGen g.HasEdge v x := fun v hv =>
        reach_inedges.mp (hspec.reach v hv)
      refine ⟨vGen', rfl, ⟨?_, ?_, ?_, ?_, ?_⟩, ?_⟩
      · exact mem_reverse.mpr hspec.root_mem
      · exact nodup_reverse.mpr hspec.nodup
      · intro v hv
        exact hreach v (mem_reverse.mp hv)
      · intro v hv
        by_cases hvx : v = x
        · rw [hvx]
          exact hlt
        · exact of_decide_eq_true (hspec.region v (mem_reverse.mp hv) hvx).1
      · intro v hv u huv
        have hv' := mem_reverse.mp hv
        have hux : ReflTransGen g.HasEdge u x := (hreach v hv').head huv
        have hu : u ∈ g.gVertices := (h.hasEdge_mem huv).1
        obtain ⟨-, hregion⟩ := hspec.closed v hv' u (edge_vInedges_iff.mpr huv)
        rcases lt_trichotomy (g.vOrder u) (g.vOrder y) with hc | hc | hc
        · exact .inr hc
        · rw [h.order_inj hu hy hc] at hux
          exact absurd hux hno
        · rcases hregion (decide_eq_true hc) with hm | hg
          · exact .inl (mem_reverse.mpr hm)
          · -- a stamped vertex would be reachable from `y`
            rw [hst u] at hg
            split_ifs at hg with huF
            · exact absurd ((hF.reach u huF.1).trans hux) hno
            · exact absurd hg (hfresh u hu)
      · intro w
        rw [hspec.stamp_eq w]
        split
        · exact .inl rfl
        · exact .inr rfl
    · intro v hv hmem
      have h1 := h.reach_le (reach_inedges.mp hv)
      have h2 := h.hasEdge_lt (edge_vInedges_iff.mp hmem)
      omega
    · intro v hv
      exact h.coreach_mem hx (reach_inedges.mp hv)

end FreeBSDSys.Lockf
