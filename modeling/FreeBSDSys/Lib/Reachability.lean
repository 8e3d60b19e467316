import Mathlib

/-!
# Reachable states

A system is a predicate of initial states together with a step relation.  Everything said about
"every state the system can reach" is proved by the one rule of this file: a property that holds
initially and survives every step holds at every reachable state.

* `Reachable init step s`: a run of `step` leads from an initial state to `s`.
* `Reachable.invariant`: the induction rule.
* `Reachable.tail`: a run may be prolonged.
-/

namespace FreeBSDSys

universe u

variable {σ : Type u} {init : σ → Prop} {step : σ → σ → Prop} {s s' : σ}

/-- A run of `step` leads from an initial state to `s`. -/
def Reachable (init : σ → Prop) (step : σ → σ → Prop) (s : σ) : Prop :=
  ∃ s₀, init s₀ ∧ Relation.ReflTransGen step s₀ s

theorem Reachable.of_init (h : init s) : Reachable init step s :=
  ⟨s, h, .refl⟩

theorem Reachable.tail (h : Reachable init step s) (hs : step s s') : Reachable init step s' := by
  obtain ⟨s0, h0, hrun⟩ := h
  exact ⟨s0, h0, hrun.tail hs⟩

/-- A run of fewer steps is a run. -/
theorem Reachable.mono {step' : σ → σ → Prop} (hstep : ∀ s s', step s s' → step' s s')
    (h : Reachable init step s) : Reachable init step' s := by
  obtain ⟨s0, h0, hrun⟩ := h
  exact ⟨s0, h0, Relation.ReflTransGen.mono hstep _ _ hrun⟩

/-- **The invariant rule.**  What holds initially and survives every step holds at every
reachable state. -/
theorem Reachable.invariant {I : σ → Prop} (hinit : ∀ s, init s → I s)
    (hstep : ∀ s s', I s → step s s' → I s') (h : Reachable init step s) : I s := by
  obtain ⟨s0, h0, hrun⟩ := h
  induction hrun with
  | refl => exact hinit s0 h0
  | tail _ hst ih => exact hstep _ _ ih hst

end FreeBSDSys
