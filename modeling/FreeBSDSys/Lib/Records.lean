import Mathlib

/-!
# Queues of records

A queue of records takes in new elements at the end of its last record, or as a record of their own,
and gives up elements at the front.  A record that has given up its last element is gone.

* `push`, `drop`: the two ends of the queue.
* `push_fresh`, `push_concat`, `drop_cons_of_le`, `drop_cons_of_lt`: what they do to the record
  there.
-/

namespace FreeBSDSys.Records

variable {α : Type*} {n : ℕ} {r : List α} {q : List (List α)}

/-- New elements go to the end of the last record; `fresh` makes them a record of their own. -/
def push (fresh : Bool) (new : List α) : List (List α) → List (List α)
  | [] => [new]
  | [r] => if fresh then [r, new] else [r ++ new]
  | r :: s :: q => r :: push fresh new (s :: q)

/-- Elements at the front are given up, and the records that end with them. -/
def drop (n : ℕ) : List (List α) → List (List α)
  | [] => []
  | r :: q =>
    if n < r.length then r.drop n :: q
    else if r.length = n then q
    else drop (n - r.length) q

@[simp] theorem push_fresh (new : List α) (q : List (List α)) : push true new q = q ++ [new] := by
  fun_induction push true new q with
  | case1 => rfl
  | case2 r h => rfl
  | case3 r h => exact absurd rfl h
  | case4 r s q ih =>
    rw [ih]
    rfl

@[simp] theorem push_concat (new : List α) (q : List (List α)) (r : List α) :
    push false new (q ++ [r]) = q ++ [r ++ new] := by
  induction q with
  | nil => rfl
  | cons s q ih =>
    cases q with
    | nil => rfl
    | cons t q => rw [List.cons_append, List.cons_append, push, ← List.cons_append, ih]; rfl

theorem drop_cons_of_le (h : n ≤ r.length) :
    drop n (r :: q) = if r.drop n = [] then q else r.drop n :: q := by
  rw [drop]
  obtain h | h := Nat.lt_or_eq_of_le h
  · rw [if_pos h, if_neg fun hnil => absurd (List.drop_eq_nil_iff.mp hnil) (Nat.not_le.mpr h)]
  · rw [if_neg (Nat.not_lt.mpr (Nat.le_of_eq h.symm)), if_pos h.symm,
      if_pos (List.drop_eq_nil_of_le (Nat.le_of_eq h.symm))]

theorem drop_cons_of_lt (h : r.length < n) : drop n (r :: q) = drop (n - r.length) q := by
  rw [drop, if_neg (Nat.not_lt.mpr (Nat.le_of_lt h)), if_neg (Nat.ne_of_lt h)]

end FreeBSDSys.Records
