import Mathlib

/-!
# Slots

A buffer of slots is a function from the numbers of the slots; a slot has an entry or is empty.  The
occupied slots of a range, in order, and the sum of a measure over their entries.

* `occupied_append`, `total_append`: a range is cut in two.
* `total_shift`: the entries are moved to lower slots.
* `total_update`: an entry is put into an empty slot.
-/

namespace FreeBSDSys.Slots

open Function List

universe u

variable {α : Type u} {m m' : ℕ → Option α} {lo n k i : ℕ} {a : α} {g : α → ℤ}

/-- The occupied slots of a range, with their entries. -/
def occupied (m : ℕ → Option α) (lo n : ℕ) : List (ℕ × α) :=
  (range' lo n).filterMap fun k => (m k).map (k, ·)

/-- The sum of a measure over the entries of a range. -/
def total (g : α → ℤ) (m : ℕ → Option α) (lo n : ℕ) : ℤ :=
  ((occupied m lo n).map fun s => g s.2).sum

theorem mem_occupied {s : ℕ × α} :
    s ∈ occupied m lo n ↔ lo ≤ s.1 ∧ s.1 < lo + n ∧ m s.1 = some s.2 := by
  rw [occupied, mem_filterMap]
  constructor
  · rintro ⟨k, hk, hs⟩
    obtain ⟨b, hb, rfl⟩ := Option.map_eq_some_iff.mp hs
    rw [mem_range'_1] at hk
    exact ⟨hk.1, hk.2, hb⟩
  · rintro ⟨hlo, hhi, hs⟩
    exact ⟨s.1, mem_range'_1.mpr ⟨hlo, hhi⟩, Option.map_eq_some_iff.mpr ⟨s.2, hs, rfl⟩⟩

/-- The occupied slots stand in order. -/
theorem pairwise_occupied : (occupied m lo n).Pairwise fun s s' => s.1 < s'.1 := by
  refine Pairwise.filterMap _ (fun x y hxy s hs s' hs' => ?_) pairwise_lt_range'
  obtain ⟨b, -, rfl⟩ := Option.map_eq_some_iff.mp hs
  obtain ⟨b', -, rfl⟩ := Option.map_eq_some_iff.mp hs'
  exact hxy

theorem occupied_append (m : ℕ → Option α) (lo n k : ℕ) :
    occupied m lo (n + k) = occupied m lo n ++ occupied m (lo + n) k := by
  have h : range' lo (n + k) = range' lo n ++ range' (lo + n) k := by
    rw [range'_append_1]
  rw [occupied, h, filterMap_append]
  rfl

theorem total_append (g : α → ℤ) (m : ℕ → Option α) (lo n k : ℕ) :
    total g m lo (n + k) = total g m lo n + total g m (lo + n) k := by
  rw [total, occupied_append, map_append, sum_append]
  rfl

theorem occupied_congr (h : ∀ k, lo ≤ k → k < lo + n → m k = m' k) :
    occupied m lo n = occupied m' lo n := by
  refine filterMap_congr fun k hk => ?_
  rw [mem_range'_1] at hk
  rw [h k hk.1 hk.2]

theorem total_congr (h : ∀ k, lo ≤ k → k < lo + n → m k = m' k) :
    total g m lo n = total g m' lo n := by
  rw [total, occupied_congr h, total]

theorem occupied_eq_nil (h : ∀ k, lo ≤ k → k < lo + n → m k = none) : occupied m lo n = [] := by
  rw [eq_nil_iff_forall_not_mem]
  intro s hs
  obtain ⟨hlo, hhi, hsome⟩ := mem_occupied.mp hs
  rw [h s.1 hlo hhi] at hsome
  cases hsome

theorem total_eq_zero (h : ∀ k, lo ≤ k → k < lo + n → m k = none) : total g m lo n = 0 := by
  rw [total, occupied_eq_nil h]
  rfl

theorem occupied_some (h : m lo = some a) :
    occupied m lo (n + 1) = (lo, a) :: occupied m (lo + 1) n := by
  rw [occupied, range'_succ, filterMap_cons_some (by rw [h]; rfl)]
  rfl

theorem occupied_none (h : m lo = none) : occupied m lo (n + 1) = occupied m (lo + 1) n := by
  rw [occupied, range'_succ, filterMap_cons_none (by rw [h]; rfl)]
  rfl

theorem total_some (h : m lo = some a) : total g m lo (n + 1) = g a + total g m (lo + 1) n := by
  rw [total, occupied_some h, map_cons]
  rfl

theorem total_none (h : m lo = none) : total g m lo (n + 1) = total g m (lo + 1) n := by
  rw [total, occupied_none h, total]

/-- The number of the entries is zero only when there are none. -/
theorem eq_none_of_total_one (h : total (fun _ => 1) m lo n = 0) (hlo : lo ≤ k)
    (hhi : k < lo + n) : m k = none := by
  have hlen : ((occupied m lo n).length : ℤ) = 0 := by
    rw [← h, total]
    simp
  have hnil : occupied m lo n = [] := eq_nil_of_length_eq_zero (Int.ofNat_eq_zero.mp hlen)
  by_contra hne
  obtain ⟨b, hb⟩ := Option.ne_none_iff_exists'.mp hne
  have hmem : (k, b) ∈ occupied m lo n := mem_occupied.mpr ⟨hlo, hhi, hb⟩
  rw [hnil] at hmem
  exact absurd hmem not_mem_nil

/-- **The entries are moved down.** -/
theorem total_shift (g : α → ℤ) (m : ℕ → Option α) (lo n i : ℕ) :
    total g (fun k => m (k + i)) lo n = total g m (lo + i) n := by
  induction n generalizing lo with
  | zero => rfl
  | succ n ih =>
    have hnext : lo + i + 1 = lo + 1 + i := by omega
    cases h : m (lo + i) with
    | none => rw [total_none h, total_none (m := fun k => m (k + i)) h, ih, hnext]
    | some b => rw [total_some h, total_some (m := fun k => m (k + i)) h, ih, hnext]

/-- **An entry is put into an empty slot.** -/
theorem total_update (h : m k = none) (hlo : lo ≤ k) (hhi : k < lo + n) :
    total g (update m k (some a)) lo n = total g m lo n + g a := by
  obtain ⟨d, rfl⟩ := Nat.exists_eq_add_of_le hlo
  obtain ⟨e, rfl⟩ : ∃ e, n = d + (e + 1) := ⟨n - d - 1, by omega⟩
  have hbelow : total g (update m (lo + d) (some a)) lo d = total g m lo d :=
    total_congr fun j _ hj => update_of_ne (by omega) _ _
  have habove : total g (update m (lo + d) (some a)) (lo + d + 1) e = total g m (lo + d + 1) e :=
    total_congr fun j hj _ => update_of_ne (by omega) _ _
  rw [total_append g _ lo d, total_append g _ lo d, total_some (update_self ..), total_none h]
  omega

end FreeBSDSys.Slots
