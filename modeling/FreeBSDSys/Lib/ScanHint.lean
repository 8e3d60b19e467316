import Mathlib

/-!
# A hint into a list that is scanned for unfinished elements

A list is searched again and again for its first element that is not done.  A hint saves the search
from starting over: it is the key of some element such that all elements before it are done, or no
key at all when every element is done.  Elements are changed, removed and inserted while the hint
stays, or moves to the next element when its own is removed.  The rules of this file say when it is
still valid, and that a search from a valid hint finds what a search from the front finds.

* `Valid key done p l`: `p` is a valid hint into `l`.
* `Valid.change`, `Valid.remove`, `Valid.insert`: what keeps it valid.
* `Valid.find`, `valid_of_find`: searching from the hint.
-/

namespace FreeBSDSys.ScanHint

open List

variable {α κ : Type*} (key : α → κ) (done : α → Prop) {f : α → Bool}

/-- `p` is the key of an element with only finished elements before it. -/
def At (p : Option κ) : List α → Prop
  | [] => False
  | a :: l => p = some (key a) ∨ (done a ∧ At p l)

/-- `p` is a valid hint into `l`. -/
def Valid (p : Option κ) (l : List α) : Prop :=
  At key done p l ∨ (∀ a ∈ l, done a) ∧ p = none

variable {key done} {p : Option κ} {l m r : List α} {a a' : α}

theorem at_append :
    At key done p (l ++ m) ↔ At key done p l ∨ (∀ a ∈ l, done a) ∧ At key done p m := by
  induction l with
  | nil => simp [At]
  | cons a l ih =>
    simp only [cons_append, At, forall_mem_cons]
    tauto

theorem at_cons : At key done p (a :: l) ↔ p = some (key a) ∨ done a ∧ At key done p l := Iff.rfl

/-- A hint that is a key is the key of an element. -/
theorem At.split (h : At key done p l) :
    ∃ m a r, l = m ++ a :: r ∧ (∀ b ∈ m, done b) ∧ p = some (key a) := by
  induction l with
  | nil => exact absurd h id
  | cons b l ih =>
    obtain rfl | ⟨hb, h⟩ := h
    · exact ⟨[], b, l, rfl, by simp, rfl⟩
    · obtain ⟨m, a, r, rfl, hm, rfl⟩ := ih h
      exact ⟨b :: m, a, r, rfl, by simpa using ⟨hb, hm⟩, rfl⟩

theorem valid_append :
    Valid key done p (l ++ m) ↔ At key done p l ∨ (∀ a ∈ l, done a) ∧ Valid key done p m := by
  simp only [Valid, at_append, forall_mem_append]
  tauto

theorem valid_cons :
    Valid key done p (a :: l) ↔ p = some (key a) ∨ done a ∧ Valid key done p l := by
  simp only [Valid, at_cons, forall_mem_cons]
  tauto

theorem Valid.nil (h : Valid key done p []) : p = none := by
  obtain h | h := h
  · exact absurd h id
  · exact h.2

/-- **Change** of an element that keeps its key and stays done if it was. -/
theorem Valid.change (h : Valid key done p (l ++ a :: r)) (hk : key a' = key a)
    (hd : done a → done a') : Valid key done p (l ++ a' :: r) := by
  rw [valid_append, valid_cons] at h ⊢
  rw [hk]
  exact h.imp_right (And.imp_right (Or.imp_right (And.imp_left hd)))

/-- The hint at the first element. -/
theorem valid_head (l : List α) : Valid key done (l.head?.map key) l := by
  cases l with
  | nil => exact .inr ⟨by simp, rfl⟩
  | cons a l => exact .inl (.inl rfl)

/-- **Removal** of an element; a hint at it moves to the next one. -/
theorem Valid.remove [DecidableEq κ] (h : Valid key done p (l ++ a :: r))
    (hl : ∀ b ∈ l, key b ≠ key a) (hr : ∀ b ∈ r, key b ≠ key a) :
    Valid key done (if p = some (key a) then r.head?.map key else p) (l ++ r) := by
  rw [valid_append, valid_cons] at h
  rw [valid_append]
  obtain h | ⟨hdone, rfl | ⟨-, h⟩⟩ := h
  · obtain ⟨m, b, r, rfl, -, rfl⟩ := h.split
    rw [if_neg (by simpa using hl b (by simp))]
    exact .inl h
  · rw [if_pos rfl]
    exact .inr ⟨hdone, valid_head r⟩
  · refine .inr ⟨hdone, ?_⟩
    rwa [if_neg]
    rintro rfl
    obtain h | h := h
    · obtain ⟨m, b, r, rfl, -, heq⟩ := h.split
      exact hr b (by simp) (Option.some.inj heq).symm
    · cases h.2

/-- **Insertion** of an element; without a hint it becomes the hint.  In front of others it has to be
done if all before it are. -/
theorem Valid.insert [DecidableEq κ] (h : Valid key done p (l ++ r))
    (hd : r ≠ [] → (∀ b ∈ l, done b) → done a) :
    Valid key done (if p = none then some (key a) else p) (l ++ a :: r) := by
  rw [valid_append] at h
  rw [valid_append, valid_cons]
  obtain h | ⟨hdone, h⟩ := h
  · obtain ⟨m, b, r, rfl, -, rfl⟩ := h.split
    exact .inl h
  · refine .inr ⟨hdone, ?_⟩
    split
    · exact .inl rfl
    next hp =>
      have hne : r ≠ [] := fun hnil => hp (by subst hnil; exact h.nil)
      exact .inr ⟨hd hne hdone, h⟩

/-- **Searching from the hint** finds the first element that is not done, and leads to a valid hint
at it. -/
theorem Valid.find [DecidableEq κ] (h : Valid key done p l)
    (hnodup : l.Pairwise fun a b => key a ≠ key b) (hf : ∀ a ∈ l, f a = true ↔ ¬ done a) :
    (p = none → l.find? f = none) ∧
    ∀ k, p = some k → ∃ m a r, l = m ++ a :: r ∧ (l.dropWhile fun b => key b ≠ k) = a :: r ∧
      key a = k ∧ (∀ b ∈ m, done b) ∧ l.find? f = (a :: r).find? f := by
  constructor
  · rintro rfl
    obtain h | h := h
    · obtain ⟨m, a, r, rfl, -, heq⟩ := h.split
      cases heq
    · exact find?_eq_none.mpr fun a ha hfa => (hf a ha).mp hfa (h.1 a ha)
  · rintro k rfl
    obtain h | h := h
    · obtain ⟨m, a, r, rfl, hm, heq⟩ := h.split
      cases heq
      have hne : ∀ b ∈ m, key b ≠ key a :=
        fun b hb => (pairwise_append.mp hnodup).2.2 b hb a mem_cons_self
      refine ⟨m, a, r, rfl, ?_, rfl, hm, ?_⟩
      · rw [dropWhile_append_of_pos (by simpa using hne), dropWhile_cons_of_neg (by simp)]
      · rw [find?_append, find?_eq_none.mpr, Option.none_or]
        exact fun b hb hfb => (hf b (by simp [hb])).mp hfb (hm b hb)
    · cases h.2

/-- What a search from the front finds is a valid hint. -/
theorem valid_of_find (hf : ∀ a ∈ l, f a = true ↔ ¬ done a)
    (h : l.find? f = some a) : Valid key done (some (key a)) l := by
  obtain ⟨-, m, r, rfl, hm⟩ := find?_eq_some_iff_append.mp h
  refine .inl (at_append.mpr (.inr ⟨fun b hb => ?_, .inl rfl⟩))
  by_contra hb'
  simpa [(hf b (by simp [hb])).mpr hb'] using hm b hb

end FreeBSDSys.ScanHint
