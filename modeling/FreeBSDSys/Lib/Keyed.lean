import Mathlib

/-!
# Lists of records with different keys

A linked list of records that are told apart by their addresses is a list with a function `key`
that is injective on it.  Such a list is taken apart at one record, `L ++ d :: R`; an assignment to
the record and its removal are then done at that place.

* `find?_split`: looking up a key takes the list apart.
* `replace_split`, `remove_split`: the assignment and the removal.
-/

namespace FreeBSDSys.Keyed

open List

universe u v

variable {α : Type u} {κ : Type v} {key : α → κ} {L R l : List α} {d d' e : α} {k : κ}

theorem ne_of_mem_left (hk : ((L ++ d :: R).map key).Nodup) (he : e ∈ L) : key e ≠ key d := by
  rw [map_append, nodup_append] at hk
  exact hk.2.2 _ (mem_map_of_mem he) _ mem_cons_self

theorem ne_of_mem_right (hk : ((L ++ d :: R).map key).Nodup) (he : e ∈ R) : key e ≠ key d := by
  rw [map_append, map_cons, nodup_append, nodup_cons] at hk
  exact fun heq => hk.2.1.1 (heq ▸ mem_map_of_mem he)

variable [DecidableEq κ]

/-- A record that is found is at one place of the list. -/
theorem find?_split (h : l.find? (fun e => key e = k) = some d) :
    key d = k ∧ ∃ L R, l = L ++ d :: R := by
  obtain ⟨hd, L, R, hl, -⟩ := find?_eq_some_iff_append.mp h
  exact ⟨of_decide_eq_true hd, L, R, hl⟩

/-- A key that occurs is found. -/
theorem exists_find? (h : k ∈ l.map key) : ∃ d, l.find? (fun e => key e = k) = some d := by
  obtain ⟨d, hd, rfl⟩ := mem_map.mp h
  exact Option.isSome_iff_exists.mp (find?_isSome.mpr ⟨d, hd, decide_eq_true rfl⟩)

/-- **Assignment** to the record. -/
theorem replace_split (hk : ((L ++ d :: R).map key).Nodup) (hd : key d' = key d) :
    (L ++ d :: R).map (fun e => if key e = key d' then d' else e) = L ++ d' :: R := by
  have hL : L.map (fun e => if key e = key d' then d' else e) = L :=
    map_congr_left (fun e he => if_neg (hd ▸ ne_of_mem_left hk he)) |>.trans L.map_id
  have hR : R.map (fun e => if key e = key d' then d' else e) = R :=
    map_congr_left (fun e he => if_neg (hd ▸ ne_of_mem_right hk he)) |>.trans R.map_id
  rw [map_append, map_cons, hL, hR, if_pos hd.symm]

/-- **Removal** of the record. -/
theorem remove_split (hk : ((L ++ d :: R).map key).Nodup) :
    (L ++ d :: R).filter (fun e => key e ≠ key d) = L ++ R := by
  have hL : L.filter (fun e => key e ≠ key d) = L :=
    filter_eq_self.mpr fun e he => decide_eq_true (ne_of_mem_left hk he)
  have hR : R.filter (fun e => key e ≠ key d) = R :=
    filter_eq_self.mpr fun e he => decide_eq_true (ne_of_mem_right hk he)
  rw [filter_append, filter_cons_of_neg (by simp), hL, hR]

end FreeBSDSys.Keyed
