import Mathlib

/-!
# Walks around a ring of slots

The slots `0, …, n - 1` form a ring.  A walk goes from a slot to the next one as long as a condition
holds at the slots that it leaves; in a table with open addressing the walks over slots that are not
empty are the probe sequences.

* `Walk.join`: of two slots on one walk, the one at which a search stops first comes first.
* `Walk.update_of_go`, `Walk.update_of_next`: changes of the table that cut no walk.
* `scan_spec`: a search stops at the first slot of its walk at which it may.
-/

namespace FreeBSDSys.Probe

open Function Nat

universe u

variable {n i j h s r t : ℕ} {stop : ℕ → Bool}

/-- The next slot of the ring. -/
def wrapIncr (i n : ℕ) : ℕ := if i + 1 = n then 0 else i + 1

/-- The slot before. -/
def wrapDecr (i n : ℕ) : ℕ := if i = 0 then n - 1 else i - 1

theorem wrapIncr_lt (hi : i < n) : wrapIncr i n < n := by
  unfold wrapIncr
  split <;> omega

theorem wrapDecr_lt (hi : i < n) : wrapDecr i n < n := by
  unfold wrapDecr
  split <;> omega

theorem wrapIncr_wrapDecr (hi : i < n) : wrapIncr (wrapDecr i n) n = i := by
  unfold wrapIncr wrapDecr
  split <;> split <;> omega

theorem wrapDecr_wrapIncr (i n : ℕ) : wrapDecr (wrapIncr i n) n = i := by
  unfold wrapIncr wrapDecr
  split
  · rw [if_pos rfl]
    omega
  · exact Nat.add_sub_cancel _ _

theorem wrapIncr_eq (hi : i < n) : wrapIncr i n = (i + 1) % n := by
  unfold wrapIncr
  split_ifs with heq
  · rw [heq, mod_self]
  · rw [mod_eq_of_lt (by omega)]

/-! ## Walks -/

/-- From one slot to another, over slots at which a condition holds. -/
def Walk (n : ℕ) (go : ℕ → Prop) : ℕ → ℕ → Prop :=
  Relation.ReflTransGen fun a b => go a ∧ b = wrapIncr a n

namespace Walk

variable {go go' : ℕ → Prop} {stop : ℕ → Bool}

theorem refl (go : ℕ → Prop) (i : ℕ) : Walk n go i i := Relation.ReflTransGen.refl

theorem head (hgo : go i) (hw : Walk n go (wrapIncr i n) j) : Walk n go i j :=
  Relation.ReflTransGen.head ⟨hgo, rfl⟩ hw

section

variable (hw : Walk n go i j)

include hw

/-- Induction on the slots of a walk, from its end. -/
theorem induction {motive : ℕ → Prop} (hend : motive j)
    (hstep : ∀ a, go a → Walk n go (wrapIncr a n) j → motive (wrapIncr a n) → motive a) :
    motive i := by
  refine Relation.ReflTransGen.head_induction_on hw hend ?_
  rintro a b ⟨hgo, rfl⟩ hw ih
  exact hstep a hgo hw ih

theorem cases : i = j ∨ go i ∧ Walk n go (wrapIncr i n) j := by
  rcases Relation.ReflTransGen.cases_head hw with rfl | ⟨b, ⟨hgo, rfl⟩, hw⟩
  · exact .inl rfl
  · exact .inr ⟨hgo, hw⟩

theorem mono (himp : ∀ a, go a → go' a) : Walk n go' i j :=
  Relation.ReflTransGen.mono (fun _ _ hab => ⟨himp _ hab.1, hab.2⟩) _ _ hw

theorem lt (hi : i < n) : j < n := by
  induction hw with
  | refl => exact hi
  | tail _ hstep ih =>
    obtain ⟨-, rfl⟩ := hstep
    exact wrapIncr_lt ih

/-- A walk stays where it may not leave. -/
theorem eq_of_not (hno : ¬ go i) : i = j :=
  hw.cases.resolve_right fun h => hno h.1

end

/-- A search that goes along a walk stops before its end, or there. -/
theorem join (hs : Walk n go h s) (hr : Walk n (fun a => stop a = false) h r)
    (hstop : stop s = true) : Walk n go r s := by
  revert hs
  refine hr.induction (motive := fun a => Walk n go a s → Walk n go r s) id fun a hgo _ ih hs => ?_
  rcases hs.cases with rfl | ⟨-, hs⟩
  · exact absurd (hgo.symm.trans hstop) Bool.false_ne_true
  · exact ih hs

end Walk

/-! ## Changes of a table -/

section Table

variable {α : Type u} {T : ℕ → α} {empty a : α}

/-- The walk over slots that are not empty. -/
def Chain (n : ℕ) (T : ℕ → α) (empty : α) : ℕ → ℕ → Prop :=
  Walk n fun i => T i ≠ empty

/-- A slot is filled. -/
theorem Chain.update_of_ne (hc : Chain n T empty h s) (ha : a ≠ empty) :
    Chain n (update T t a) empty h s := by
  refine Walk.mono hc fun i hi => ?_
  by_cases hit : i = t
  · rw [hit, update_self]
    exact ha
  · rw [Function.update_of_ne hit]
    exact hi

/-- A slot is emptied whose next slot is empty.  No chain to an entry leads through it. -/
theorem Chain.update_empty (hc : Chain n T empty h s) (hnext : T (wrapIncr t n) = empty)
    (hs : T s ≠ empty) : Chain n (Function.update T t empty) empty h s := by
  refine Walk.induction (motive := fun i => Chain n (update T t empty) empty i s) hc
    (Walk.refl _ _) fun i hi hw ih => Walk.head ?_ ih
  have hit : i ≠ t := by
    rintro rfl
    obtain rfl := hw.eq_of_not (not_not.mpr hnext)
    exact hs hnext
  rw [Function.update_of_ne hit]
  exact hi

end Table

/-! ## Searching -/

/-- The first slot from `i` on at which a search may stop.  The length of the ring is enough
fuel. -/
def scan (n : ℕ) (stop : ℕ → Bool) : ℕ → ℕ → ℕ
  | 0, i => i
  | fuel + 1, i => if stop i then i else scan n stop fuel (wrapIncr i n)

theorem iterate_wrapIncr (hi : i < n) (k : ℕ) : (fun a => wrapIncr a n)^[k] i = (i + k) % n := by
  induction k with
  | zero => exact (mod_eq_of_lt hi).symm
  | succ k ih =>
    rw [iterate_succ_apply', ih]
    rw [wrapIncr_eq (mod_lt _ (by omega)), mod_add_mod, Nat.add_assoc]

/-- Every slot is met within one turn of the ring. -/
theorem exists_iterate (hi : i < n) (hs : s < n) : ∃ k < n, (fun a => wrapIncr a n)^[k] i = s := by
  refine ⟨(s + n - i) % n, mod_lt _ (by omega), ?_⟩
  rw [iterate_wrapIncr hi, add_mod_mod, show i + (s + n - i) = s + n by omega,
    add_mod_right, mod_eq_of_lt hs]

/-- The same, going backwards. -/
theorem exists_iterate_wrapDecr (hi : i < n) (hs : s < n) :
    ∃ k < n, (fun a => wrapDecr a n)^[k] i = s := by
  obtain ⟨k, hk, rfl⟩ := exists_iterate hs hi
  have hback : LeftInverse (fun a => wrapDecr a n) fun a => wrapIncr a n :=
    fun a => wrapDecr_wrapIncr a n
  exact ⟨k, hk, hback.iterate k s⟩

theorem scan_walk (fuel i : ℕ) : Walk n (fun a => stop a = false) i (scan n stop fuel i) := by
  induction fuel generalizing i with
  | zero => exact Walk.refl _ _
  | succ fuel ih =>
    unfold scan
    split_ifs with hgo
    · exact Walk.refl _ _
    · exact Walk.head (Bool.eq_false_iff.mpr hgo) (ih _)

theorem scan_stop {k fuel : ℕ} (hk : k < fuel)
    (hstop : stop ((fun a => wrapIncr a n)^[k] i) = true) : stop (scan n stop fuel i) = true := by
  induction fuel generalizing i k with
  | zero => exact absurd hk (Nat.not_lt_zero k)
  | succ fuel ih =>
    unfold scan
    split_ifs with hgo
    · assumption
    · cases k with
      | zero => exact absurd hstop hgo
      | succ k => exact ih (lt_of_succ_lt_succ hk) hstop

/-- **A search stops** at a slot where it may, and nowhere before. -/
theorem scan_spec (stop : ℕ → Bool) (hi : i < n) (hs : s < n) (hstop : stop s = true) :
    scan n stop n i < n ∧ stop (scan n stop n i) = true ∧
      Walk n (fun a => stop a = false) i (scan n stop n i) := by
  obtain ⟨k, hk, hks⟩ := exists_iterate hi hs
  have hw : Walk n (fun a => stop a = false) i (scan n stop n i) := scan_walk n i
  exact ⟨hw.lt hi, scan_stop hk (hks ▸ hstop), hw⟩

end FreeBSDSys.Probe
