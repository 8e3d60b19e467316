import Mathlib

/-!
# Searching a graph with generation stamps

A worklist search that marks a vertex by writing the current generation number into it, so that
no clearing pass is needed before the next search.  The worklist only grows at its end; a vertex
is appended when it lies in the region of interest and does not carry the current stamp.  The
search gives up as soon as it meets a vertex it was told to stop at.

The root of the search is on the worklist from the start but is *not* stamped.  That is harmless
exactly when no search path returns to the root, and the hypothesis `hroot` of the results says so.

* `StampSearch.scan`, `StampSearch.search`: the inner and the outer loop.
* `scan_spec`, `scan_error`: what one pass over a successor list does.
* `search_spec`: with fuel for every vertex once, a search that was not stopped returns a
  duplicate-free list of vertices, reachable from the root and closed under successors in the
  region.
* `search_error`: a search that was stopped has a path to a vertex it had to stop at.
-/

namespace FreeBSDSys.StampSearch

open Function List Relation

universe u v

variable {V : Type u} {γ : Type v} [DecidableEq V] [DecidableEq γ] {root : V} {stamp₀ stamp : V → γ}

/-- One pass over a list of successors: an error, with the stamps written so far, at the first
vertex to stop at; otherwise every vertex of the region without the stamp is stamped and
appended. -/
def scan (stop inRegion : V → Bool) (gen : γ) :
    List V → (V → γ) → List V → Except (V → γ) ((V → γ) × List V)
  | [], stamp, todo => .ok (stamp, todo)
  | w :: ws, stamp, todo =>
    if stop w then .error stamp
    else if inRegion w = true ∧ stamp w ≠ gen then
      scan stop inRegion gen ws (update stamp w gen) (todo ++ [w])
    else scan stop inRegion gen ws stamp todo

/-- The search: process the worklist in order until nothing is left. -/
def search (stop inRegion : V → Bool) (succ : V → List V) (gen : γ) :
    Nat → (V → γ) → List V → List V → Except (V → γ) ((V → γ) × List V)
  | 0, stamp, done, todo => .ok (stamp, done ++ todo)
  | _ + 1, stamp, done, [] => .ok (stamp, done)
  | fuel + 1, stamp, done, v :: todo =>
    match scan stop inRegion gen (succ v) stamp todo with
    | .error stamp' => .error stamp'
    | .ok (stamp', todo') => search stop inRegion succ gen fuel stamp' (done ++ [v]) todo'

variable {stop inRegion : V → Bool} {succ : V → List V} {gen : γ}

/-! ## One pass -/

/-- What a pass that was not stopped did: `new` is the list of vertices it appended. -/
structure ScanResult (stop inRegion : V → Bool) (gen : γ) (ws : List V) (stamp : V → γ)
    (new : List V) (stamp' : V → γ) : Prop where
  nodup : new.Nodup
  mem : ∀ w ∈ new, w ∈ ws ∧ inRegion w = true ∧ stamp w ≠ gen
  stamp_eq : ∀ w, stamp' w = if w ∈ new then gen else stamp w
  closed : ∀ w ∈ ws, stop w = false ∧ (inRegion w = true → stamp' w = gen)

theorem scan_spec (ws : List V) : ∀ {stamp stamp' : V → γ} {todo todo' : List V},
      scan stop inRegion gen ws stamp todo = .ok (stamp', todo') →
      ∃ new, todo' = todo ++ new ∧ ScanResult stop inRegion gen ws stamp new stamp' := by
  induction ws with
  | nil =>
    intro stamp stamp' todo todo' h
    obtain ⟨rfl, rfl⟩ := h
    exact ⟨[], by simp, ⟨by simp, by simp, by simp, by simp⟩⟩
  | cons w ws ih =>
    intro stamp stamp' todo todo' h
    rw [scan] at h
    split at h
    · simp at h
    · rename_i hstop
      have hstop' : stop w = false := by simpa using hstop
      split at h
      · -- `w` is stamped and appended
        rename_i hw
        obtain ⟨new, rfl, hnew⟩ := ih h
        have hwnew : w ∉ new := fun hmem =>
          (hnew.mem w hmem).2.2 (by rw [update_self])
        refine ⟨w :: new, by simp, ?_, ?_, ?_, ?_⟩
        · exact nodup_cons.mpr ⟨hwnew, hnew.nodup⟩
        · intro z hz
          rcases mem_cons.mp hz with rfl | hz
          · exact ⟨mem_cons_self, hw⟩
          · obtain ⟨h1, h2, h3⟩ := hnew.mem z hz
            have hne : z ≠ w := fun he => hwnew (he ▸ hz)
            rw [update_of_ne hne] at h3
            exact ⟨mem_cons_of_mem _ h1, h2, h3⟩
        · intro z
          rw [hnew.stamp_eq z]
          by_cases hz : z ∈ new
          · simp [hz]
          · by_cases he : z = w
            · subst he; simp
            · simp [he]
        · intro z hz
          rcases mem_cons.mp hz with rfl | hz
          · refine ⟨hstop', fun _ => ?_⟩
            rw [hnew.stamp_eq]
            simp
          · exact hnew.closed z hz
      · -- `w` is outside the region or stamped already
        rename_i hw
        obtain ⟨new, rfl, hnew⟩ := ih h
        refine ⟨new, rfl, hnew.nodup, ?_, hnew.stamp_eq, ?_⟩
        · intro z hz
          obtain ⟨h1, h2⟩ := hnew.mem z hz
          exact ⟨mem_cons_of_mem _ h1, h2⟩
        · intro z hz
          rcases mem_cons.mp hz with rfl | hz
          · refine ⟨hstop', fun hr => ?_⟩
            have hg : stamp z = gen := by
              by_contra hne
              exact hw ⟨hr, hne⟩
            rw [hnew.stamp_eq]
            split
            · rfl
            · exact hg
          · exact hnew.closed z hz

/-- What a stopped pass leaves behind: it met a vertex to stop at, and it only wrote stamps of
the current generation. -/
theorem scan_error (ws : List V) : ∀ {stamp stamp' : V → γ} {todo : List V},
      scan stop inRegion gen ws stamp todo = .error stamp' →
      (∃ w ∈ ws, stop w = true) ∧ ∀ w, stamp' w = gen ∨ stamp' w = stamp w := by
  induction ws with
  | nil =>
    intro stamp stamp' todo h
    simp [scan] at h
  | cons w ws ih =>
    intro stamp stamp' todo h
    rw [scan] at h
    split at h
    · rename_i hstop
      have he : stamp = stamp' := by simpa using h
      exact ⟨⟨w, mem_cons_self, hstop⟩, fun z => .inr (by rw [he])⟩
    · split at h
      · obtain ⟨⟨z, hz, hs⟩, hst⟩ := ih h
        refine ⟨⟨z, mem_cons_of_mem _ hz, hs⟩, fun y => ?_⟩
        rcases hst y with hy | hy
        · exact .inl hy
        · by_cases hyw : y = w
          · rw [hyw, update_self] at hy
            exact .inl (by rw [hyw, hy])
          · rw [update_of_ne hyw] at hy
            exact .inr hy
      · obtain ⟨⟨z, hz, hs⟩, hst⟩ := ih h
        exact ⟨⟨z, mem_cons_of_mem _ hz, hs⟩, hst⟩

/-! ## The whole search -/

/-- The edge relation of the successor lists. -/
def Edge (succ : V → List V) (v w : V) : Prop := w ∈ succ v

/-- The state of a search from `root`: the vertices found so far are `done ++ todo`, and the
successors of the processed ones are accounted for. -/
structure Inv (stop inRegion : V → Bool) (succ : V → List V) (gen : γ) (root : V) (stamp₀ : V → γ)
    (stamp : V → γ) (done todo : List V) : Prop where
  root_mem : root ∈ done ++ todo
  nodup : (done ++ todo).Nodup
  reach : ∀ v ∈ done ++ todo, ReflTransGen (Edge succ) root v
  region : ∀ v ∈ done ++ todo, v ≠ root → inRegion v = true ∧ stamp₀ v ≠ gen
  stamp_eq : ∀ w, stamp w = if w ∈ done ++ todo ∧ w ≠ root then gen else stamp₀ w
  closed : ∀ v ∈ done, ∀ w ∈ succ v,
    stop w = false ∧ (inRegion w = true → w ∈ done ++ todo ∨ stamp₀ w = gen)

omit [DecidableEq γ] in
theorem Inv.start (stop inRegion : V → Bool) (succ : V → List V) (gen : γ) (root : V)
    (stamp₀ : V → γ) : Inv stop inRegion succ gen root stamp₀ stamp₀ [] [root] := by
  refine ⟨by simp, by simp, ?_, ?_, ?_, by simp⟩
  · intro v hv
    have hv' : v = root := by simpa using hv
    rw [hv']
  · intro v hv hne
    exact absurd (by simpa using hv) hne
  · intro w
    rw [if_neg]
    rintro ⟨hw, hne⟩
    exact hne (by simpa using hw)

/-- One vertex of the worklist is processed. -/
theorem Inv.step {v : V} {stamp' : V → γ} {done todo todo' : List V}
    (hroot : ∀ v, ReflTransGen (Edge succ) root v → root ∉ succ v)
    (hI : Inv stop inRegion succ gen root stamp₀ stamp done (v :: todo))
    (hscan : scan stop inRegion gen (succ v) stamp todo = .ok (stamp', todo')) :
    Inv stop inRegion succ gen root stamp₀ stamp' (done ++ [v]) todo' := by
  obtain ⟨new, rfl, hnew⟩ := scan_spec _ hscan
  have hsplit : (done ++ [v]) ++ (todo ++ new) = (done ++ v :: todo) ++ new := by simp
  have hvreach : ReflTransGen (Edge succ) root v := hI.reach v (by simp)
  have hnewroot : ∀ w ∈ new, w ≠ root := by
    rintro w hw rfl
    exact hroot v hvreach (hnew.mem w hw).1
  have hnewold : ∀ w ∈ new, w ∉ done ++ v :: todo := by
    intro w hw hmem
    apply (hnew.mem w hw).2.2
    rw [hI.stamp_eq, if_pos ⟨hmem, hnewroot w hw⟩]
  have hstamp0 : ∀ w ∈ new, stamp₀ w ≠ gen := by
    intro w hw
    have h := (hnew.mem w hw).2.2
    rwa [hI.stamp_eq, if_neg (fun hc => hnewold w hw hc.1)] at h
  have hstampEq : ∀ w, stamp' w =
      if w ∈ (done ++ v :: todo) ++ new ∧ w ≠ root then gen else stamp₀ w := by
    intro w
    rw [hnew.stamp_eq, hI.stamp_eq]
    by_cases hw : w ∈ new
    · rw [if_pos hw, if_pos ⟨mem_append_right _ hw, hnewroot w hw⟩]
    · rw [if_neg hw]
      by_cases hw' : w ∈ done ++ v :: todo
      · simp only [hw', mem_append_left _ hw']
      · rw [if_neg (fun hc => hw' hc.1), if_neg]
        rintro ⟨hc, -⟩
        rcases mem_append.mp hc with hc | hc
        · exact hw' hc
        · exact hw hc
  constructor
  · rw [hsplit]
    exact mem_append_left _ hI.root_mem
  · rw [hsplit]
    refine Nodup.append hI.nodup hnew.nodup ?_
    intro w hw hw'
    exact hnewold w hw' hw
  · rw [hsplit]
    intro w hw
    rcases mem_append.mp hw with hw | hw
    · exact hI.reach w hw
    · exact hvreach.tail (hnew.mem w hw).1
  · rw [hsplit]
    intro w hw hne
    rcases mem_append.mp hw with hw | hw
    · exact hI.region w hw hne
    · exact ⟨(hnew.mem w hw).2.1, hstamp0 w hw⟩
  · rw [hsplit]
    exact hstampEq
  · rw [hsplit]
    intro u hu w hw
    rcases mem_append.mp hu with hu | hu
    · obtain ⟨h1, h2⟩ := hI.closed u hu w hw
      refine ⟨h1, fun hr => ?_⟩
      rcases h2 hr with h2 | h2
      · exact .inl (mem_append_left _ h2)
      · exact .inr h2
    · have huv : u = v := by simpa using hu
      subst huv
      obtain ⟨h1, h2⟩ := hnew.closed w hw
      refine ⟨h1, fun hr => ?_⟩
      have hg := h2 hr
      rw [hstampEq w] at hg
      by_cases hmem : w ∈ (done ++ u :: todo) ++ new ∧ w ≠ root
      · exact .inl hmem.1
      · rw [if_neg hmem] at hg
        exact .inr hg

/-- What a search from `root` that was not stopped returns. -/
structure SearchResult (stop inRegion : V → Bool) (succ : V → List V) (gen : γ) (root : V)
    (stamp₀ : V → γ) (stamp : V → γ) (delta : List V) : Prop where
  root_mem : root ∈ delta
  nodup : delta.Nodup
  reach : ∀ v ∈ delta, ReflTransGen (Edge succ) root v
  region : ∀ v ∈ delta, v ≠ root → inRegion v = true ∧ stamp₀ v ≠ gen
  stamp_eq : ∀ w, stamp w = if w ∈ delta ∧ w ≠ root then gen else stamp₀ w
  closed : ∀ v ∈ delta, ∀ w ∈ succ v,
    stop w = false ∧ (inRegion w = true → w ∈ delta ∨ stamp₀ w = gen)

theorem search_spec_aux {univ : List V}
    (hroot : ∀ v, ReflTransGen (Edge succ) root v → root ∉ succ v)
    (huniv : ∀ v, ReflTransGen (Edge succ) root v → v ∈ univ) :
    ∀ (fuel : ℕ) {stamp stamp' : V → γ} {done todo delta : List V},
      univ.length ≤ done.length + fuel →
      Inv stop inRegion succ gen root stamp₀ stamp done todo →
      search stop inRegion succ gen fuel stamp done todo = .ok (stamp', delta) →
      SearchResult stop inRegion succ gen root stamp₀ stamp' delta := by
  intro fuel
  induction fuel with
  | zero =>
    intro stamp stamp' done todo delta hfuel hI h
    -- every vertex found is in `univ`, so nothing is left on the worklist
    have hlen : (done ++ todo).length ≤ univ.length :=
      (subperm_of_subset hI.nodup fun v hv => huniv v (hI.reach v hv)).length_le
    have htodo : todo = [] := by
      rw [length_append] at hlen
      exact eq_nil_of_length_eq_zero (by omega)
    obtain ⟨rfl, rfl⟩ := h
    subst htodo
    refine ⟨hI.root_mem, hI.nodup, hI.reach, hI.region, hI.stamp_eq, ?_⟩
    simpa using hI.closed
  | succ fuel ih =>
    intro stamp stamp' done todo delta hfuel hI h
    cases todo with
    | nil =>
      obtain ⟨rfl, rfl⟩ := h
      have hI' : Inv stop inRegion succ gen root stamp₀ stamp done [] := hI
      refine ⟨by simpa using hI'.root_mem, by simpa using hI'.nodup, by simpa using hI'.reach,
        by simpa using hI'.region, by simpa using hI'.stamp_eq, by simpa using hI'.closed⟩
    | cons v todo =>
      rw [search] at h
      split at h
      · simp at h
      · rename_i stamp'' todo'' hscan
        refine ih ?_ (hI.step hroot hscan) h
        rw [length_append, length_singleton]
        omega

/-- **A search that was not stopped.**  With fuel for every reachable vertex once, the result is
closed under successors in the region. -/
theorem search_spec {delta : List V} {fuel : ℕ} (univ : List V)
    (hroot : ∀ v, ReflTransGen (Edge succ) root v → root ∉ succ v)
    (huniv : ∀ v, ReflTransGen (Edge succ) root v → v ∈ univ) (hfuel : univ.length ≤ fuel)
    (h : search stop inRegion succ gen fuel stamp₀ [] [root] = .ok (stamp, delta)) :
    SearchResult stop inRegion succ gen root stamp₀ stamp delta :=
  search_spec_aux hroot huniv fuel (by simpa using hfuel)
    (Inv.start stop inRegion succ gen root stamp₀) h

/-- **A search that was stopped** has a path to a vertex it had to stop at, and it only wrote
stamps of the current generation. -/
theorem search_error (root : V) : ∀ (fuel : ℕ) {stamp stamp' : V → γ} {done todo : List V},
      (∀ v ∈ todo, ReflTransGen (Edge succ) root v) →
      search stop inRegion succ gen fuel stamp done todo = .error stamp' →
      (∃ w, stop w = true ∧ ReflTransGen (Edge succ) root w) ∧
        ∀ w, stamp' w = gen ∨ stamp' w = stamp w := by
  intro fuel
  induction fuel with
  | zero =>
    intro stamp stamp' done todo _ h
    simp [search] at h
  | succ fuel ih =>
    intro stamp stamp' done todo hreach h
    cases todo with
    | nil => simp [search] at h
    | cons v todo =>
      have hv : ReflTransGen (Edge succ) root v := hreach v mem_cons_self
      rw [search] at h
      split at h
      · rename_i stamp'' hscan
        have he : stamp'' = stamp' := by simpa using h
        subst he
        obtain ⟨⟨w, hw, hs⟩, hst⟩ := scan_error _ hscan
        exact ⟨⟨w, hs, hv.tail hw⟩, hst⟩
      · rename_i stamp'' todo' hscan
        obtain ⟨new, rfl, hnew⟩ := scan_spec _ hscan
        have hreach' : ∀ w ∈ todo ++ new, ReflTransGen (Edge succ) root w := by
          intro w hw
          rcases mem_append.mp hw with hw | hw
          · exact hreach w (mem_cons_of_mem _ hw)
          · exact hv.tail (hnew.mem w hw).1
        obtain ⟨hstop, hst⟩ := ih hreach' h
        refine ⟨hstop, fun w => ?_⟩
        rcases hst w with hw | hw
        · exact .inl hw
        · rw [hnew.stamp_eq] at hw
          split at hw
          · exact .inl hw
          · exact .inr hw

end FreeBSDSys.StampSearch
