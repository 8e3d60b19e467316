import FreeBSDSys.Kern.OwnerGraphOrder

/-!
# Reordering the owner graph

After its two searches `graph_add_edge` pools the orders of the vertices it found, sorts them by
insertion, and hands them out again: first to the vertices that reach `x`, then to those reachable
from `y`.

* `graphAddIndices_spec`: the pool is sorted and holds every order once.
* `graphAssignIndices_spec`: the vertices are picked in the order they had; the result is
  `setOrders` for the list of picks and indices.
* `graphReorder_spec`: either `x` is reachable from `y` and only stamps changed, or the graph is
  well formed again with `x` before `y`.
-/

namespace FreeBSDSys.Lockf

open Function List Renumber

universe u

open OwnerGraph

variable {V : Type u} [DecidableEq V] {g : OwnerGraph V} {x y v : V} {l deltaF deltaB : List V}
  {k i j : ℕ}

/-! ## The pool of orders -/

omit [DecidableEq V] in
theorem graphAddIndices_spec (g : OwnerGraph V) (set : List V) :
    ∀ indices : List ℕ, indices.Pairwise (· < ·) → (set.map g.vOrder).Nodup →
      (∀ v ∈ set, g.vOrder v ∉ indices) →
      (graphAddIndices g indices set).Pairwise (· < ·) ∧
        (graphAddIndices g indices set).Perm (set.map g.vOrder ++ indices) := by
  induction set with
  | nil =>
    intro indices hsorted _ _
    exact ⟨hsorted, Perm.refl _⟩
  | cons v set ih =>
    intro indices hsorted hnodup hfresh
    rw [map_cons, nodup_cons] at hnodup
    have hv : g.vOrder v ∉ indices := hfresh v mem_cons_self
    have hperm := insertBack_perm indices (g.vOrder v)
    have hfresh' : ∀ w ∈ set, g.vOrder w ∉ insertBack indices (g.vOrder v) := by
      intro w hw hmem
      rcases mem_cons.mp (hperm.mem_iff.mp hmem) with he | hm
      · exact hnodup.1 (he ▸ mem_map_of_mem hw)
      · exact hfresh w (mem_cons_of_mem _ hw) hm
    obtain ⟨h1, h2⟩ := ih _ (insertBack_sorted hsorted hv) hnodup.2 hfresh'
    exact ⟨h1, h2.trans ((Perm.append_left _ hperm).trans perm_middle)⟩

/-! ## Handing the orders out -/

/-- The vertices of a list get the orders they are paired with. -/
def OwnerGraph.setOrders (g : OwnerGraph V) (l : List (V × ℕ)) : OwnerGraph V :=
  l.foldl (fun g p => g.setOrder p.1 p.2) g

theorem OwnerGraph.setOrders_append (g : OwnerGraph V) (l l' : List (V × ℕ)) :
    g.setOrders (l ++ l') = (g.setOrders l).setOrders l' := by
  simp [setOrders]

/-- `setOrders` writes the orders and the array `g_vertices`, and nothing else. -/
theorem OwnerGraph.setOrders_frame (l : List (V × ℕ)) :
    ∀ g : OwnerGraph V, (g.setOrders l).edges = g.edges ∧ (g.setOrders l).vGen = g.vGen ∧
      (g.setOrders l).gGen = g.gGen ∧ (g.setOrders l).gSpace = g.gSpace ∧
      (g.setOrders l).gVertices.length = g.gVertices.length := by
  induction l with
  | nil => intro g; exact ⟨rfl, rfl, rfl, rfl, rfl⟩
  | cons p l ih =>
    intro g
    obtain ⟨h1, h2, h3, h4, h5⟩ := ih (g.setOrder p.1 p.2)
    exact ⟨h1, h2, h3, h4, h5.trans length_set⟩

theorem OwnerGraph.setOrders_vOrder_of_notMem (l : List (V × ℕ)) :
    ∀ (g : OwnerGraph V) {v : V}, v ∉ l.map Prod.fst → (g.setOrders l).vOrder v = g.vOrder v := by
  induction l with
  | nil => intro g v _; rfl
  | cons p l ih =>
    intro g v hv
    rw [map_cons, mem_cons, not_or] at hv
    calc (g.setOrders (p :: l)).vOrder v = (g.setOrder p.1 p.2).vOrder v := ih _ hv.2
      _ = g.vOrder v := update_of_ne hv.1 _ _

theorem OwnerGraph.setOrders_vOrder_of_mem (l : List (V × ℕ)) :
    ∀ (g : OwnerGraph V) {v : V} {i : ℕ}, (l.map Prod.fst).Nodup → (v, i) ∈ l →
      (g.setOrders l).vOrder v = i := by
  induction l with
  | nil => intro g v i _ h; cases h
  | cons p l ih =>
    intro g v i hnodup hmem
    rw [map_cons, nodup_cons] at hnodup
    rcases mem_cons.mp hmem with rfl | hmem
    · calc (g.setOrders ((v, i) :: l)).vOrder v = (g.setOrder v i).vOrder v :=
            setOrders_vOrder_of_notMem l _ hnodup.1
        _ = i := update_self ..
    · exact ih _ hnodup.2 hmem

theorem OwnerGraph.setOrders_getElem?_of_notMem (l : List (V × ℕ)) :
    ∀ (g : OwnerGraph V) {i : ℕ}, i ∉ l.map Prod.snd →
      (g.setOrders l).gVertices[i]? = g.gVertices[i]? := by
  induction l with
  | nil => intro g i _; rfl
  | cons p l ih =>
    intro g i hi
    rw [map_cons, mem_cons, not_or] at hi
    calc (g.setOrders (p :: l)).gVertices[i]? = (g.setOrder p.1 p.2).gVertices[i]? := ih _ hi.2
      _ = g.gVertices[i]? := getElem?_set_ne (Ne.symm hi.1)

theorem OwnerGraph.setOrders_getElem?_of_mem (l : List (V × ℕ)) :
    ∀ (g : OwnerGraph V) {v : V} {i : ℕ}, (l.map Prod.snd).Nodup → i < g.gVertices.length →
      (v, i) ∈ l → (g.setOrders l).gVertices[i]? = some v := by
  induction l with
  | nil => intro g v i _ _ h; cases h
  | cons p l ih =>
    intro g v i hnodup hi hmem
    rw [map_cons, nodup_cons] at hnodup
    rcases mem_cons.mp hmem with rfl | hmem
    · calc (g.setOrders ((v, i) :: l)).gVertices[i]? = (g.setOrder v i).gVertices[i]? :=
            setOrders_getElem?_of_notMem l _ hnodup.1
        _ = some v := getElem?_set_self hi
    · refine ih _ hnodup.2 ?_ hmem
      exact hi.trans_eq length_set.symm

/-- **`graph_assign_indices`** picks the vertices of the set in the order they have and pairs
them with the next unused indices. -/
theorem graphAssignIndices_spec (indices : List ℕ) :
    ∀ {set : List V} {g : OwnerGraph V}, (set.map g.vOrder).Nodup → set.length ≤ indices.length →
      ∃ picks : List V, picks.Perm set ∧ picks.Pairwise (fun u v => g.vOrder u < g.vOrder v) ∧
        graphAssignIndices indices set g =
          (g.setOrders (picks.zip indices), indices.drop set.length) := by
  induction indices with
  | nil =>
    intro set g _ hlen
    have hset : set = [] := eq_nil_of_length_eq_zero (by simpa using hlen)
    subst hset
    exact ⟨[], Perm.refl _, Pairwise.nil, rfl⟩
  | cons i indices ih =>
    intro set g hnodup hlen
    cases set with
    | nil => exact ⟨[], Perm.refl _, Pairwise.nil, rfl⟩
    | cons v set =>
      set vl := lowest g.vOrder v set with hvl
      have hmem : vl ∈ v :: set := lowest_mem g.vOrder set v
      have hperm : (v :: set).Perm (vl :: (v :: set).erase vl) := perm_cons_erase hmem
      have hnodup' : (g.vOrder vl :: ((v :: set).erase vl).map g.vOrder).Nodup :=
        (hperm.map g.vOrder).nodup_iff.mp hnodup
      rw [nodup_cons] at hnodup'
      have hne : ∀ w ∈ (v :: set).erase vl, w ≠ vl := by
        rintro w hw rfl
        exact hnodup'.1 (mem_map_of_mem hw)
      have hkeep : ∀ w ∈ (v :: set).erase vl, (g.setOrder vl i).vOrder w = g.vOrder w :=
        fun w hw => update_of_ne (hne w hw) _ _
      have hrest : (((v :: set).erase vl).map (g.setOrder vl i).vOrder).Nodup := by
        rw [map_congr_left hkeep]
        exact hnodup'.2
      have hlen' : ((v :: set).erase vl).length ≤ indices.length := by
        rw [length_erase_of_mem hmem]
        simpa using hlen
      obtain ⟨picks, hp, hsorted, heq⟩ := ih hrest hlen'
      refine ⟨vl :: picks, (hp.cons vl).trans hperm.symm, ?_, ?_⟩
      · refine pairwise_cons.mpr ⟨?_, ?_⟩
        · intro w hw
          have hw' := hp.mem_iff.mp hw
          have hle := lowest_le g.vOrder set v w (mem_of_mem_erase hw')
          refine lt_of_le_of_ne hle fun he => hnodup'.1 ?_
          rw [he]
          exact mem_map_of_mem hw'
        · refine hsorted.imp_of_mem fun {a b} ha hb hab => ?_
          rwa [hkeep a (hp.mem_iff.mp ha), hkeep b (hp.mem_iff.mp hb)] at hab
      · rw [graphAssignIndices, heq, length_erase_of_mem hmem]
        rfl

/-! ## The reordering -/

omit [DecidableEq V] in
/-- The orders of two disjoint lists of vertices are distinct. -/
theorem nodup_map_vOrder (h : g.WF) (hl : l.Nodup) (hmem : ∀ v ∈ l, v ∈ g.gVertices) :
    (l.map g.vOrder).Nodup :=
  hl.map_on fun u hu v hv => h.order_inj (hmem u hu) (hmem v hv)

omit [DecidableEq V] in
/-- The vertices of the two searches. -/
theorem mem_of_search (h : g.WF) (hF : ForwardSet g x y deltaF)
    (hB : BackwardSet g x y deltaB) (hx : x ∈ g.gVertices) (hy : y ∈ g.gVertices) :
    ∀ v, v ∈ deltaB ∨ v ∈ deltaF → v ∈ g.gVertices := by
  rintro v (hv | hv)
  · exact h.coreach_mem hx (hB.reach v hv)
  · exact h.reach_mem hy (hF.reach v hv)

/-- The new orders after the two assignments of `graph_add_edge`: `bs` and `fs` are the vertices
of the two sets in their old order, `pool` the sorted list of all their orders. -/
structure Reassigned (g g' : OwnerGraph V) (deltaB deltaF bs fs : List V) (pool : List ℕ) :
    Prop where
  permB : bs.Perm deltaB
  permF : fs.Perm deltaF
  sortedB : bs.Pairwise fun u v => g.vOrder u < g.vOrder v
  sortedF : fs.Pairwise fun u v => g.vOrder u < g.vOrder v
  pool_sorted : pool.Pairwise (· < ·)
  pool_perm : pool.Perm ((bs ++ fs).map g.vOrder)
  nodup : (bs ++ fs).Nodup
  eq : g' = g.setOrders ((bs ++ fs).zip pool)

theorem reassigned_of_assign (h : g.WF) (hF : ForwardSet g x y deltaF)
    (hB : BackwardSet g x y deltaB) (hx : x ∈ g.gVertices)
    (hy : y ∈ g.gVertices) : let indices := graphAddIndices g (graphAddIndices g [] deltaF) deltaB
    let a := graphAssignIndices indices deltaB g
    ∃ bs fs pool, Reassigned g (graphAssignIndices a.2 deltaF a.1).1 deltaB deltaF bs fs pool := by
  have hno := hF.not_reach h
  have hdisj : List.Disjoint deltaB deltaF := fun v hvB hvF =>
    hno ((hF.reach v hvF).trans (hB.reach v hvB))
  have hmem := mem_of_search h hF hB hx hy
  have hndF := nodup_map_vOrder h hF.nodup fun v hv => hmem v (.inr hv)
  have hndB := nodup_map_vOrder h hB.nodup fun v hv => hmem v (.inl hv)
  obtain ⟨hs1, hp1⟩ := graphAddIndices_spec g deltaF [] Pairwise.nil hndF (fun _ _ => not_mem_nil)
  rw [append_nil] at hp1
  have hfresh : ∀ v ∈ deltaB, g.vOrder v ∉ graphAddIndices g [] deltaF := by
    intro v hv hm
    obtain ⟨w, hw, he⟩ := mem_map.mp (hp1.mem_iff.mp hm)
    rw [h.order_inj (hmem w (.inr hw)) (hmem v (.inl hv)) he] at hw
    exact hdisj hv hw
  obtain ⟨hs2, hp2⟩ := graphAddIndices_spec g deltaB _ hs1 hndB hfresh
  intro indices a
  have hpool : indices.Perm (deltaB.map g.vOrder ++ deltaF.map g.vOrder) :=
    hp2.trans (Perm.append_left _ hp1)
  have hlen : indices.length = deltaB.length + deltaF.length := by
    simpa using hpool.length_eq
  obtain ⟨bs, hbs, hbsorted, ha⟩ := graphAssignIndices_spec indices hndB (by omega)
  have ha1 : a.1 = g.setOrders (bs.zip indices) := by
    show (graphAssignIndices indices deltaB g).1 = _
    rw [ha]
  have ha2 : a.2 = indices.drop deltaB.length := by
    show (graphAssignIndices indices deltaB g).2 = _
    rw [ha]
  -- the first assignment leaves the orders of the second set alone
  have hkeep : ∀ v ∈ deltaF, a.1.vOrder v = g.vOrder v := by
    intro v hv
    rw [ha1]
    refine setOrders_vOrder_of_notMem _ _ fun hm => ?_
    rw [map_fst_zip (by rw [hbs.length_eq]; omega)] at hm
    exact hdisj (hbs.mem_iff.mp hm) hv
  have hndF' : (deltaF.map a.1.vOrder).Nodup := by
    rw [map_congr_left hkeep]
    exact hndF
  obtain ⟨fs, hfs, hfsorted, hf⟩ := graphAssignIndices_spec a.2 hndF'
    (by rw [ha2, length_drop]; omega)
  refine ⟨bs, fs, indices, hbs, hfs, hbsorted, ?_, hs2, ?_, ?_, ?_⟩
  · refine hfsorted.imp_of_mem fun {u v} hu hv huv => ?_
    rwa [hkeep u (hfs.mem_iff.mp hu), hkeep v (hfs.mem_iff.mp hv)] at huv
  · rw [map_append]
    exact hpool.trans ((hbs.map _).symm.append (hfs.map _).symm)
  · exact (hbs.nodup_iff.mpr hB.nodup).append (hfs.nodup_iff.mpr hF.nodup) fun v hv hv' =>
      hdisj (hbs.mem_iff.mp hv) (hfs.mem_iff.mp hv')
  · rw [hf, ha1, ha2, ← setOrders_append, ← hbs.length_eq]
    conv_rhs => rw [← take_append_drop bs.length indices]
    rw [zip_append (by rw [length_take, hbs.length_eq]; omega)]
    conv_lhs => rw [zip_eq_zip_take_min]
    rw [Nat.min_eq_left (by rw [hbs.length_eq]; omega), take_length]

omit [DecidableEq V] in
theorem mem_zip {pool : List ℕ} (hk : k < l.length) (hk' : k < pool.length) :
    (l[k], pool[k]) ∈ l.zip pool := by
  rw [← getElem_zip (h := length_zip ▸ lt_min hk hk')]
  exact getElem_mem _

namespace Reassigned

variable {g' : OwnerGraph V} {deltaB deltaF bs fs : List V} {pool : List ℕ}
  (hR : Reassigned g g' deltaB deltaF bs fs pool)

include hR

theorem length_pool : pool.length = (bs ++ fs).length := by
  rw [hR.pool_perm.length_eq, length_map]

/-- The vertex picked at position `k` gets the `k`-th order of the pool. -/
theorem vOrder_getElem (hk : k < (bs ++ fs).length) (hk' : k < pool.length) :
    g'.vOrder (bs ++ fs)[k] = pool[k] := by
  rw [hR.eq]
  refine setOrders_vOrder_of_mem _ _ ?_ (mem_zip hk hk')
  rw [map_fst_zip hR.length_pool.ge]
  exact hR.nodup

theorem vOrder_of_notMem (hB : v ∉ deltaB) (hF : v ∉ deltaF) : g'.vOrder v = g.vOrder v := by
  rw [hR.eq]
  refine setOrders_vOrder_of_notMem _ _ fun hm => ?_
  rw [map_fst_zip hR.length_pool.ge] at hm
  rcases mem_append.mp hm with hm | hm
  · exact hB (hR.permB.mem_iff.mp hm)
  · exact hF (hR.permF.mem_iff.mp hm)

/-- A vertex of the first set, its position and its new order. -/
theorem exists_posB (hv : v ∈ deltaB) : ∃ (k : ℕ) (hk : k < bs.length) (hk' : k < pool.length),
      bs[k] = v ∧ g'.vOrder v = pool[k] := by
  obtain ⟨k, hk, rfl⟩ := getElem_of_mem (hR.permB.mem_iff.mpr hv)
  have hka : k < (bs ++ fs).length := by
    rw [length_append]
    omega
  refine ⟨k, hk, hR.length_pool ▸ hka, rfl, ?_⟩
  rw [← hR.vOrder_getElem hka (hR.length_pool ▸ hka), getElem_append_left hk]

/-- A vertex of the second set, its position and its new order. -/
theorem exists_posF (hv : v ∈ deltaF) :
    ∃ (k : ℕ) (hk : k < fs.length) (hk' : bs.length + k < pool.length),
      fs[k] = v ∧ g'.vOrder v = pool[bs.length + k] := by
  obtain ⟨k, hk, rfl⟩ := getElem_of_mem (hR.permF.mem_iff.mpr hv)
  have hka : bs.length + k < (bs ++ fs).length := by
    rw [length_append]
    omega
  refine ⟨k, hk, hR.length_pool ▸ hka, rfl, ?_⟩
  rw [← hR.vOrder_getElem hka (hR.length_pool ▸ hka)]
  simp

/-- The old orders of a sorted part of the vertices form a sublist of the pool. -/
theorem sublist_pool (hl : l.Pairwise fun u v => g.vOrder u < g.vOrder v)
    (hsub : l.Sublist (bs ++ fs)) : (l.map g.vOrder).Sublist pool := by
  refine sublist_of_subperm_of_pairwise (r := (· ≤ ·)) ?_ ?_ ?_
  · exact (hsub.map g.vOrder).subperm.trans hR.pool_perm.symm.subperm
  · exact pairwise_map.mpr (hl.imp fun huv => huv.le)
  · exact hR.pool_sorted.imp fun hij => hij.le

/-- The first set moves down. -/
theorem vOrder_le (hv : v ∈ deltaB) : g'.vOrder v ≤ g.vOrder v := by
  obtain ⟨k, hk, hk', rfl, heq⟩ := hR.exists_posB hv
  have hdom := forall₂_take_le
    (hR.sublist_pool hR.sortedB (sublist_append_left bs fs)) hR.pool_sorted
  rw [length_map] at hdom
  have hget := hdom.get (i := k) (by rw [length_take]; omega) (by simpa using hk)
  simpa [heq] using hget

/-- The second set moves up. -/
theorem le_vOrder (hv : v ∈ deltaF) : g.vOrder v ≤ g'.vOrder v := by
  obtain ⟨k, hk, hk', rfl, heq⟩ := hR.exists_posF hv
  have hdom := forall₂_le_drop
    (hR.sublist_pool hR.sortedF (sublist_append_right bs fs)) hR.pool_sorted
  have hlen : pool.length - (fs.map g.vOrder).length = bs.length := by
    rw [hR.length_pool, length_append, length_map]
    omega
  rw [hlen] at hdom
  have hget := hdom.get (by simpa using hk) (by rw [length_drop]; omega)
  simpa [heq] using hget

omit [DecidableEq V] hR in
/-- Positions of a sorted list follow the orders. -/
theorem pos_lt (hl : l.Pairwise fun u v => g.vOrder u < g.vOrder v) (hi : i < l.length)
    (hj : j < l.length) (hij : g.vOrder l[i] < g.vOrder l[j]) : i < j := by
  by_contra hle
  rcases Nat.eq_or_lt_of_le (not_lt.mp hle) with he | hlt
  · subst he
    exact absurd hij (lt_irrefl _)
  · exact absurd (pairwise_iff_getElem.mp hl j i hj hi hlt) (not_lt.mpr hij.le)

theorem pool_lt (hi : i < pool.length) (hj : j < pool.length) (hij : i < j) : pool[i] < pool[j] :=
  pairwise_iff_getElem.mp hR.pool_sorted i j hi hj hij

theorem vOrder_lt_of_mem {u : V}
    (hu : u ∈ deltaB) (hv : v ∈ deltaF) : g'.vOrder u < g'.vOrder v := by
  obtain ⟨i, hi, hi', -, hiu⟩ := hR.exists_posB hu
  obtain ⟨j, hj, hj', -, hjv⟩ := hR.exists_posF hv
  rw [hiu, hjv]
  exact hR.pool_lt hi' hj' (by omega)

/-- Every order of the pool belongs to a vertex of one of the two sets. -/
theorem exists_of_mem_pool (hi : i ∈ pool) : ∃ v, (v ∈ deltaB ∨ v ∈ deltaF) ∧ g.vOrder v = i := by
  obtain ⟨v, hv, he⟩ := mem_map.mp (hR.pool_perm.mem_iff.mp hi)
  refine ⟨v, ?_, he⟩
  rcases mem_append.mp hv with hv | hv
  · exact .inl (hR.permB.mem_iff.mp hv)
  · exact .inr (hR.permF.mem_iff.mp hv)

/-- The array slots of the pool hold the vertices that were given these orders. -/
theorem getElem?_pool (h : g.WF) (hmem : ∀ v, v ∈ deltaB ∨ v ∈ deltaF → v ∈ g.gVertices)
    (hk : k < (bs ++ fs).length) (hk' : k < pool.length) :
    g'.gVertices[pool[k]]? = some (bs ++ fs)[k] := by
  rw [hR.eq]
  refine setOrders_getElem?_of_mem _ _ ?_ ?_ (mem_zip hk hk')
  · rw [map_snd_zip hR.length_pool.le]
    exact hR.pool_sorted.imp fun hij => hij.ne
  · obtain ⟨v, hv, he⟩ := hR.exists_of_mem_pool (getElem_mem hk')
    rw [← he]
    exact h.order_lt_length (hmem v hv)

theorem getElem?_of_notMem (hi : i ∉ pool) : g'.gVertices[i]? = g.gVertices[i]? := by
  rw [hR.eq]
  refine setOrders_getElem?_of_notMem _ _ fun hm => hi ?_
  rwa [map_snd_zip hR.length_pool.le] at hm

theorem vOrder_mem_pool (hv : v ∈ deltaB ∨ v ∈ deltaF) : g.vOrder v ∈ pool := by
  refine hR.pool_perm.mem_iff.mpr (mem_map_of_mem (mem_append.mpr ?_))
  exact hv.imp hR.permB.mem_iff.mpr hR.permF.mem_iff.mpr

theorem order_index (h : g.WF) (hmem : ∀ v, v ∈ deltaB ∨ v ∈ deltaF → v ∈ g.gVertices) :
    ∀ i v, g'.gVertices[i]? = some v → g'.vOrder v = i := by
  intro i v hi
  by_cases hip : i ∈ pool
  · obtain ⟨k, hk', rfl⟩ := getElem_of_mem hip
    have hk : k < (bs ++ fs).length := hR.length_pool ▸ hk'
    rw [hR.getElem?_pool h hmem hk hk'] at hi
    rw [← Option.some.inj hi]
    exact hR.vOrder_getElem hk hk'
  · rw [hR.getElem?_of_notMem hip] at hi
    have hvi := h.order_index i v hi
    have hnot : ¬ (v ∈ deltaB ∨ v ∈ deltaF) := fun hv => hip (hvi ▸ hR.vOrder_mem_pool hv)
    rw [not_or] at hnot
    rw [hR.vOrder_of_notMem hnot.1 hnot.2]
    exact hvi

theorem mem_gVertices_iff (h : g.WF) (hmem : ∀ v, v ∈ deltaB ∨ v ∈ deltaF → v ∈ g.gVertices) :
    v ∈ g'.gVertices ↔ v ∈ g.gVertices := by
  constructor
  · intro hv
    obtain ⟨i, hi⟩ := getElem?_of_mem hv
    by_cases hip : i ∈ pool
    · obtain ⟨k, hk', rfl⟩ := getElem_of_mem hip
      have hk : k < (bs ++ fs).length := hR.length_pool ▸ hk'
      rw [hR.getElem?_pool h hmem hk hk'] at hi
      rw [← Option.some.inj hi]
      refine hmem _ ((mem_append.mp (getElem_mem hk)).imp ?_ ?_)
      · exact hR.permB.mem_iff.mp
      · exact hR.permF.mem_iff.mp
    · rw [hR.getElem?_of_notMem hip] at hi
      exact mem_of_getElem? hi
  · intro hv
    by_cases hd : v ∈ deltaB ∨ v ∈ deltaF
    · have hvl : v ∈ bs ++ fs := mem_append.mpr (hd.imp hR.permB.mem_iff.mpr hR.permF.mem_iff.mpr)
      obtain ⟨k, hk, rfl⟩ := getElem_of_mem hvl
      exact mem_of_getElem? (hR.getElem?_pool h hmem hk (hR.length_pool ▸ hk))
    · have hip : g.vOrder v ∉ pool := by
        intro hm
        obtain ⟨w, hw, he⟩ := hR.exists_of_mem_pool hm
        rw [h.order_inj (hmem w hw) hv he] at hw
        exact hd hw
      refine mem_of_getElem? (i := g.vOrder v) ?_
      rw [hR.getElem?_of_notMem hip]
      exact h.getElem?_order hv

/-- **The new orders sort the graph.** -/
theorem wf (h : g.WF) (hF : ForwardSet g x y deltaF) (hB : BackwardSet g x y deltaB)
    (hx : x ∈ g.gVertices) (hy : y ∈ g.gVertices) : g'.WF := by
  have hmem := mem_of_search h hF hB hx hy
  obtain ⟨hedges, hvgen, hgen, hspace, hlen⟩ := setOrders_frame ((bs ++ fs).zip pool) g
  rw [← hR.eq] at hedges hvgen hgen hspace hlen
  -- every order of the pool lies between the orders of `y` and `x`
  have hrange : ∀ i ∈ pool, g.vOrder y ≤ i ∧ i ≤ g.vOrder x := by
    intro i hi
    obtain ⟨v, hv, rfl⟩ := hR.exists_of_mem_pool hi
    rcases hv with hv | hv
    · exact ⟨(hB.gt v hv).le, h.reach_le (hB.reach v hv)⟩
    · exact ⟨h.reach_le (hF.reach v hv), (hF.lt v hv).le⟩
  have htop : ∀ u v, g.HasEdge u v → g'.vOrder u < g'.vOrder v := by
    refine topological_of_renumber (B := (· ∈ deltaB)) (F := (· ∈ deltaF))
      (g.vOrder y) (g.vOrder x) (fun u v => h.hasEdge_lt)
      (fun v => hR.vOrder_of_notMem) (fun v => hR.vOrder_le) (fun v => hR.le_vOrder)
      ?_ ?_ (fun u v => hR.vOrder_lt_of_mem) ?_ ?_ (fun v hv => h.reach_le (hB.reach v hv))
      (fun u v hu => hF.closed u hu v) (fun u v hv => hB.closed v hv u)
    · intro u v hu hv huv
      obtain ⟨i, hi, hi', rfl, hiu⟩ := hR.exists_posB hu
      obtain ⟨j, hj, hj', rfl, hjv⟩ := hR.exists_posB hv
      rw [hiu, hjv]
      exact hR.pool_lt hi' hj' (pos_lt hR.sortedB hi hj huv)
    · intro u v hu hv huv
      obtain ⟨i, hi, hi', rfl, hiu⟩ := hR.exists_posF hu
      obtain ⟨j, hj, hj', rfl, hjv⟩ := hR.exists_posF hv
      rw [hiu, hjv]
      exact hR.pool_lt hi' hj' (Nat.add_lt_add_left (pos_lt hR.sortedF hi hj huv) _)
    · intro v hv
      obtain ⟨k, -, hk', -, heq⟩ := hR.exists_posB hv
      rw [heq]
      exact (hrange _ (getElem_mem hk')).1
    · intro v hv
      obtain ⟨k, -, hk', -, heq⟩ := hR.exists_posF hv
      rw [heq]
      exact (hrange _ (getElem_mem hk')).2
  refine ⟨hR.order_index h hmem, ?_, ?_, ?_, ?_, ?_, ?_, ?_⟩
  · rw [hedges]
    intro e he
    obtain ⟨h1, h2⟩ := h.edge_mem e he
    exact ⟨(hR.mem_gVertices_iff h hmem).mpr h1, (hR.mem_gVertices_iff h hmem).mpr h2⟩
  · rw [hedges]
    exact fun e he => htop _ _ ⟨e, he, rfl, rfl⟩
  · rw [hedges]; exact h.edge_refs
  · rw [hedges]; exact h.edge_unique
  · rw [hvgen, hgen]
    exact fun v hv => h.gen_le v ((hR.mem_gVertices_iff h hmem).mp hv)
  · rw [hlen, hspace]; exact h.space
  · rw [hspace]; exact h.space_pos

end Reassigned

/-- **The reordering branch of `graph_add_edge`.**  It fails exactly when `x` is reachable from
`y`, and then only stamps changed; otherwise the graph is well formed with `x` before `y`. -/
theorem graphReorder_spec (h : g.WF) (hx : x ∈ g.gVertices) (hy : y ∈ g.gVertices)
    (hlt : g.vOrder y < g.vOrder x) :
    (∃ gen vGen, graphReorder g x y = (.EDEADLK, { g with gGen := gen, vGen := vGen }) ∧
      Relation.ReflTransGen g.HasEdge y x ∧ { g with gGen := gen, vGen := vGen }.WF) ∨
    (∃ g', graphReorder g x y = (.ok, g') ∧ ¬ Relation.ReflTransGen g.HasEdge y x ∧ g'.WF ∧
      g'.edges = g.edges ∧ (∀ v, v ∈ g'.gVertices ↔ v ∈ g.gVertices) ∧
      g'.vOrder x < g'.vOrder y) := by
  have h1 := h.nextGen
  have hfresh1 := graphNextGen_fresh h
  obtain ⟨gen, vGen1, hg1⟩ := graphNextGen_eq g
  rw [graphReorder]
  rw [hg1] at h1 hfresh1 ⊢
  have hfresh : ∀ v ∈ g.gVertices, vGen1 v ≠ gen := fun v hmem => BitVec.ne_of_lt (hfresh1 v hmem)
  cases hrun : graphDeltaForward { g with gGen := gen, vGen := vGen1 } x y with
  | error g2 =>
    left
    obtain ⟨hreach, vGen', rfl, hst⟩ := graphDeltaForward_error hrun
    refine ⟨gen, vGen', rfl, hreach, h.setGen fun v hmem => ?_⟩
    rcases hst v with hw | hw
    · rw [hw]; exact BitVec.le_refl _
    · rw [hw]; exact h1.gen_le v hmem
  | ok r =>
    right
    obtain ⟨g2, deltaF⟩ := r
    obtain ⟨vGen2, rfl, hF, hst⟩ := graphDeltaForward_ok h1 hx hy hlt hfresh hrun
    have h2 : { g with gGen := gen, vGen := vGen2 }.WF := by
      refine h.setGen fun v hmem => ?_
      rw [hst v]
      split
      · exact BitVec.le_refl _
      · exact h1.gen_le v hmem
    obtain ⟨vGen3, hg3, hB, hst3⟩ := graphDeltaBackward_spec h2 hx hy hlt hfresh
      ⟨hF.root_mem, hF.nodup, hF.reach, hF.lt, hF.closed⟩ hst
    have h3 : { g with gGen := gen, vGen := vGen3 }.WF := by
      refine h.setGen fun v hmem => ?_
      rcases hst3 v with hw | hw
      · rw [hw]; exact BitVec.le_refl _
      · rw [hw]; exact h2.gen_le v hmem
    have hF3 : ForwardSet { g with gGen := gen, vGen := vGen3 } x y deltaF :=
      ⟨hF.root_mem, hF.nodup, hF.reach, hF.lt, hF.closed⟩
    generalize hback : graphDeltaBackward { g with gGen := gen, vGen := vGen2 } x y = back at hg3 hB
    obtain ⟨g3, deltaB⟩ := back
    subst hg3
    have hB3 : BackwardSet { g with gGen := gen, vGen := vGen3 } x y deltaB :=
      ⟨hB.root_mem, hB.nodup, hB.reach, hB.gt, hB.closed⟩
    obtain ⟨bs, fs, pool, hR⟩ := reassigned_of_assign h3 hF3 hB3 hx hy
    obtain ⟨hedges, -⟩ := setOrders_frame ((bs ++ fs).zip pool)
      { g with gGen := gen, vGen := vGen3 }
    rw [← hR.eq] at hedges
    have hno := hF.not_reach h1
    refine ⟨_, ?_, hno, hR.wf h3 hF3 hB3 hx hy, hedges, fun v => ?_, ?_⟩
    · simp [hback]
    · exact hR.mem_gVertices_iff h3 (mem_of_search h3 hF3 hB3 hx hy)
    · exact hR.vOrder_lt_of_mem hB3.root_mem hF3.root_mem

end FreeBSDSys.Lockf
