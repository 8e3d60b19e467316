import Mathlib

/-!
# Chains of checks

A check answers yes or no, or fails to answer.  A function that admits a request makes a chain of
checks, each with the error it ends with.  The lemmas peel a chain that has admitted its request.
-/

namespace FreeBSDSys

universe u v

variable {ε : Type u} {α : Type v} {x y : Except ε Bool} {e : ε} {rest : Except ε α} {a : α}

/-- The second check is made if the first says yes. -/
def andThen (x y : Except ε Bool) : Except ε Bool :=
  match x with
  | .ok true => y
  | r => r

/-- A check that ends the chain with `e` if it says no. -/
def require (cond : Except ε Bool) (e : ε) (rest : Except ε α) : Except ε α :=
  match cond with
  | .error p => .error p
  | .ok false => .error e
  | .ok true => rest

theorem andThen_eq_true_iff : andThen x y = .ok true ↔ x = .ok true ∧ y = .ok true := by
  rcases x with p | r
  · exact iff_of_false nofun nofun
  · cases r
    · exact iff_of_false nofun nofun
    · exact ⟨fun h => ⟨rfl, h⟩, fun h => h.2⟩

theorem require_eq_ok_iff : require x e rest = .ok a ↔ x = .ok true ∧ rest = .ok a := by
  rcases x with p | r
  · exact iff_of_false nofun nofun
  · cases r
    · exact iff_of_false nofun nofun
    · exact ⟨fun h => ⟨rfl, h⟩, fun h => h.2⟩

theorem ite_ok_true_iff {p : Prop} [Decidable p] :
    (if p then x else .ok true) = .ok true ↔ (p → x = .ok true) := by
  by_cases hp : p
  · rw [if_pos hp]
    exact ⟨fun h _ => h, fun h => h hp⟩
  · rw [if_neg hp]
    exact ⟨fun _ h => absurd h hp, fun _ => rfl⟩

end FreeBSDSys
