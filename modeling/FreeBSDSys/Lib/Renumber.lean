import Mathlib

/-!
# Renumbering part of a topological order

A topological order of a graph is changed on two disjoint sets of vertices `B` and `F` only: the
numbers the two sets used are pooled, sorted, and handed out again, first to `B` and then to `F`,
each in its old relative order.  This file holds what that operation rests on.

* `insertBack`: insertion into a sorted list by a scan from its end, with `insertBack_perm` and
  `insertBack_sorted`.
* `lowest`: the first entry of least key, with `lowest_mem` and `lowest_le`.
* `forall₂_take_le`, `forall₂_le_drop`: among the numbers of a sorted pool, a sublist dominates
  the first ones and is dominated by the last ones.  So `B` only moves down and `F` only up.
* `topological_of_renumber`: when `F` is closed under successors below an upper bound and `B`
  under predecessors above a lower bound, the new numbering is again a topological order.
-/

namespace FreeBSDSys.Renumber

open List

universe u v

variable {α : Type u} [LinearOrder α] {p : List α}

/-! ## Insertion from the end -/

/-- Insert `a` after the last entry that is not larger, looking for the place from the end. -/
def insertBack (l : List α) (a : α) : List α :=
  l.rdropWhile (fun b => decide (a < b)) ++ a :: l.rtakeWhile (fun b => decide (a < b))

theorem insertBack_perm (l : List α) (a : α) : (insertBack l a).Perm (a :: l) := by
  have hsplit := rdropWhile_append_rtakeWhile (p := fun b => decide (a < b)) (l := l)
  calc (insertBack l a).Perm (a :: (l.rdropWhile (fun b => decide (a < b)) ++
          l.rtakeWhile (fun b => decide (a < b)))) := perm_middle
    _ = a :: l := by rw [hsplit]

theorem insertBack_sorted {l : List α} {a : α} (hl : l.Pairwise (· < ·)) (ha : a ∉ l) :
    (insertBack l a).Pairwise (· < ·) := by
  induction l using List.reverseRecOn with
  | nil => simp [insertBack]
  | append_singleton l b ih =>
    have hlb := pairwise_append.mp hl
    have hne : a ≠ b := fun h => ha (by simp [h])
    rcases lt_or_gt_of_ne hne with hab | hab
    · -- `b` stays behind `a`
      have hrec : insertBack (l ++ [b]) a = insertBack l a ++ [b] := by
        simp [insertBack, hab]
      rw [hrec]
      have hal : a ∉ l := fun h => ha (mem_append_left _ h)
      refine pairwise_append.mpr ⟨ih hlb.1 hal, pairwise_singleton _ _, ?_⟩
      intro x hx y hy
      have hyb : y = b := by simpa using hy
      subst hyb
      rcases mem_cons.mp ((insertBack_perm l a).mem_iff.mp hx) with rfl | hxl
      · exact hab
      · exact hlb.2.2 x hxl y (by simp)
    · -- the scan stops at once
      have hrec : insertBack (l ++ [b]) a = (l ++ [b]) ++ [a] := by
        simp [insertBack, not_lt.mpr hab.le]
      rw [hrec]
      refine pairwise_append.mpr ⟨hl, pairwise_singleton _ _, ?_⟩
      intro x hx y hy
      have hya : y = a := by simpa using hy
      subst hya
      rcases mem_append.mp hx with hxl | hxb
      · exact (hlb.2.2 x hxl b (by simp)).trans hab
      · have hxb' : x = b := by simpa using hxb
        rwa [hxb']

/-! ## The least entry -/

variable {V : Type v}

/-- The first entry of least key among `v` and the list. -/
def lowest (key : V → α) (v : V) (l : List V) : V :=
  l.foldl (fun best w => if key w < key best then w else best) v

theorem lowest_mem (key : V → α) (l : List V) : ∀ v, lowest key v l ∈ v :: l := by
  induction l with
  | nil => intro v; simp [lowest]
  | cons w l ih =>
    intro v
    by_cases h : key w < key v
    · have hrec : lowest key v (w :: l) = lowest key w l := by simp [lowest, h]
      rw [hrec]
      exact mem_cons_of_mem _ (ih w)
    · have hrec : lowest key v (w :: l) = lowest key v l := by simp [lowest, h]
      rw [hrec]
      rcases mem_cons.mp (ih v) with he | hm
      · rw [he]; exact mem_cons_self
      · exact mem_cons_of_mem _ (mem_cons_of_mem _ hm)

theorem lowest_le (key : V → α) (l : List V) : ∀ v, ∀ w ∈ v :: l, key (lowest key v l) ≤ key w := by
  induction l with
  | nil => intro v w hw; simp [lowest] at hw ⊢; rw [hw]
  | cons z l ih =>
    intro v w hw
    by_cases h : key z < key v
    · have hrec : lowest key v (z :: l) = lowest key z l := by simp [lowest, h]
      rw [hrec]
      rcases mem_cons.mp hw with rfl | hw
      · exact (ih z z mem_cons_self).trans h.le
      · exact ih z w hw
    · have hrec : lowest key v (z :: l) = lowest key v l := by simp [lowest, h]
      rw [hrec]
      rcases mem_cons.mp hw with rfl | hw
      · exact ih w w mem_cons_self
      · rcases mem_cons.mp hw with rfl | hw
        · exact (ih v v mem_cons_self).trans (not_lt.mp h)
        · exact ih v w (mem_cons_of_mem _ hw)

/-! ## A sublist of a sorted pool -/

/-- The first entries of a sorted list lie below the entries of any sublist. -/
theorem forall₂_take_le : ∀ {l : List α}, l.Sublist p → p.Pairwise (· < ·) →
      List.Forall₂ (· ≤ ·) (p.take l.length) l := by
  induction p with
  | nil =>
    intro l h _
    rw [sublist_nil.mp h]
    simp
  | cons a p ih =>
    intro l h hp
    have hp' := pairwise_cons.mp hp
    cases l with
    | nil => simp
    | cons b l =>
      have hb : b ∈ a :: p := h.subset mem_cons_self
      have hab : a ≤ b := by
        rcases mem_cons.mp hb with rfl | hb
        · exact le_rfl
        · exact (hp'.1 b hb).le
      exact List.Forall₂.cons hab (ih h.tail hp'.2)

/-- The last entries of a sorted list lie above the entries of any sublist. -/
theorem forall₂_le_drop : ∀ {l : List α}, l.Sublist p → p.Pairwise (· < ·) →
      List.Forall₂ (· ≤ ·) l (p.drop (p.length - l.length)) := by
  induction p with
  | nil =>
    intro l h _
    rw [sublist_nil.mp h]
    simp
  | cons a p ih =>
    intro l h hp
    have hp' := pairwise_cons.mp hp
    cases h with
    | cons _ h =>
      have hlen := h.length_le
      have hdrop : (a :: p).drop ((a :: p).length - l.length) = p.drop (p.length - l.length) := by
        rw [length_cons, show p.length + 1 - l.length = (p.length - l.length) + 1 by omega,
          drop_succ_cons]
      rw [hdrop]
      exact ih h hp'.2
    | cons_cons _ h =>
      rename_i l
      have hlen := h.length_le
      have hk : (a :: p).length - (a :: l).length = p.length - l.length := by simp
      rw [hk]
      rcases Nat.eq_zero_or_pos (p.length - l.length) with h0 | h0
      · have hlp : l = p := h.eq_of_length (by omega)
        rw [h0, hlp]
        exact List.forall₂_same.mpr fun _ _ => le_rfl
      · -- `a` is compared with the entry of `p` just before the dropped ones
        have hlt : p.length - l.length - 1 < p.length := by omega
        have hdrop : (a :: p).drop (p.length - l.length) =
            p[p.length - l.length - 1] :: p.drop (p.length - l.length) := by
          conv_lhs => rw [show p.length - l.length = (p.length - l.length - 1) + 1 by omega]
          rw [drop_succ_cons, drop_eq_getElem_cons hlt]
          congr 2
          omega
        rw [hdrop]
        exact List.Forall₂.cons (hp'.1 _ (getElem_mem hlt)).le (ih h hp'.2)

/-! ## The new numbering -/

/-- **Renumbering keeps a topological order.**  `order` is a topological order of `E`; the new
numbering moves `B` down and `F` up inside the interval from `lo` to `hi`, keeps the relative
order inside each set, and puts `B` before `F`.  If `F` is closed under successors up to `hi`
and `B` under predecessors down to `lo`, the new numbering is a topological order as well. -/
theorem topological_of_renumber {E : V → V → Prop} {order order' : V → α} {B F : V → Prop}
    (lo hi : α) (htop : ∀ u v, E u v → order u < order v)
    (hkeep : ∀ v, ¬ B v → ¬ F v → order' v = order v) (hdown : ∀ v, B v → order' v ≤ order v)
    (hup : ∀ v, F v → order v ≤ order' v)
    (hBB : ∀ u v, B u → B v → order u < order v → order' u < order' v)
    (hFF : ∀ u v, F u → F v → order u < order v → order' u < order' v)
    (hBF : ∀ u v, B u → F v → order' u < order' v) (hlo : ∀ v, B v → lo ≤ order' v)
    (hhi : ∀ v, F v → order' v ≤ hi) (hBhi : ∀ v, B v → order v ≤ hi)
    (hclosedF : ∀ u v, F u → E u v → F v ∨ hi < order v)
    (hclosedB : ∀ u v, B v → E u v → B u ∨ order u < lo) : ∀ u v, E u v → order' u < order' v := by
  intro u v huv
  have hlt := htop u v huv
  by_cases hBu : B u
  · by_cases hBv : B v
    · exact hBB u v hBu hBv hlt
    · by_cases hFv : F v
      · exact hBF u v hBu hFv
      · rw [hkeep v hBv hFv]
        exact (hdown u hBu).trans_lt hlt
  · by_cases hBv : B v
    · -- a predecessor of `B` outside `B` is below the interval, so it was not moved up
      have hu : order u < lo := (hclosedB u v hBv huv).resolve_left hBu
      by_cases hFu : F u
      · rcases hclosedF u v hFu huv with hFv | hgt
        · exact hFF u v hFu hFv hlt
        · exact absurd (hBhi v hBv) (not_le.mpr hgt)
      · rw [hkeep u hBu hFu]
        exact hu.trans_le (hlo v hBv)
    · by_cases hFu : F u
      · rcases hclosedF u v hFu huv with hFv | hgt
        · exact hFF u v hFu hFv hlt
        · by_cases hFv : F v
          · exact hFF u v hFu hFv hlt
          · rw [hkeep v hBv hFv]
            exact (hhi u hFu).trans_lt hgt
      · rw [hkeep u hBu hFu]
        by_cases hFv : F v
        · exact hlt.trans_le (hup v hFv)
        · rw [hkeep v hBv hFv]
          exact hlt

end FreeBSDSys.Renumber
