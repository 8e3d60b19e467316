import Mathlib

/-!
# Interpreters with a one-step function

An interpreter is a function `step : σ → Except ε σ`: it goes on with a new state or stops with an
outcome.  `runFor step n s` executes at most `n` steps from `s`.  Two rules are all that is used of
it, and one of a step that takes an input.

* `runFor_stops`: if every good state either stops well or goes on to a good state of smaller
  measure, then a run from a good state with as much fuel as its measure stops, and stops well.
* `runFor_congr`: two interpreters whose steps keep two states related, or stop with one outcome,
  have the same runs from related states.
* `exists_foldlM_ok`: if every step from a good state goes on to a good state, no run stops.
-/

namespace FreeBSDSys

universe u

variable {σ τ ε : Type u} {step : σ → Except ε σ} {s : σ} {P : ε → Prop} {I : σ → Prop}
  {r : Except ε σ} {R : σ → τ → Prop}

/-- At most `n` steps from `s`: the outcome, or `none` if the fuel does not suffice. -/
def runFor (step : σ → Except ε σ) : ℕ → σ → Option ε
  | 0, _ => none
  | n + 1, s =>
    match step s with
    | .error e => some e
    | .ok s' => runFor step n s'

theorem runFor_error {e : ε} (h : step s = .error e) (n : ℕ) : runFor step (n + 1) s = some e := by
  simp [runFor, h]

theorem runFor_ok {s' : σ} (h : step s = .ok s') (n : ℕ) :
    runFor step (n + 1) s = runFor step n s' := by
  simp [runFor, h]

/-- What a result of one step must satisfy: `P` of the outcome, or `I` of the next state. -/
def Result (P : ε → Prop) (I : σ → Prop) : Except ε σ → Prop
  | .error e => P e
  | .ok s => I s

@[simp] theorem result_error {P : ε → Prop} {I : σ → Prop} {e : ε} :
    Result P I (.error e) ↔ P e := Iff.rfl

@[simp] theorem result_ok {P : ε → Prop} {I : σ → Prop} {s : σ} :
    Result P I (.ok s) ↔ I s := Iff.rfl

theorem Result.mono {Q : ε → Prop} {J : σ → Prop} (h : Result P I r)
    (hP : ∀ e, P e → Q e) (hI : ∀ s, I s → J s) : Result Q J r := by
  cases r with
  | error e => exact hP e h
  | ok s => exact hI s h

/-- The rule of composition: what the first part delivers is what the second part starts from. -/
theorem Result.bind {J : τ → Prop} {f : σ → Except ε τ} (h : Result P I r)
    (hf : ∀ s, I s → Result P J (f s)) : Result P J (r >>= f) := by
  cases r with
  | error e => exact h
  | ok s => exact hf s h

/-- **Termination with a good outcome.** -/
theorem runFor_stops {μ : σ → ℕ}
    (hstep : ∀ s, I s → Result P (fun s' => I s' ∧ μ s' < μ s) (step s)) (hpos : ∀ s, I s → 0 < μ s)
    {n : ℕ} (hs : I s) (hn : μ s ≤ n) : ∃ e, runFor step n s = some e ∧ P e := by
  induction n generalizing s with
  | zero => exact absurd (hpos s hs) (by omega)
  | succ n ih =>
    have h := hstep s hs
    cases hr : step s with
    | error e => exact ⟨e, runFor_error hr n, by simpa only [hr, result_error] using h⟩
    | ok s' =>
      rw [hr, result_ok] at h
      rw [runFor_ok hr]
      exact ih h.1 (by omega)

/-- **A run over inputs.**  What is good may depend on the inputs that are left. -/
theorem exists_foldlM_ok {α : Type u} {step : σ → α → Except ε σ} {I : σ → List α → Prop}
    (hstep : ∀ s x xs, I s (x :: xs) → ∃ s', step s x = .ok s' ∧ I s' xs) (xs : List α)
    (h : I s xs) : ∃ s', xs.foldlM step s = .ok s' ∧ I s' [] := by
  induction xs generalizing s with
  | nil => exact ⟨s, rfl, h⟩
  | cons x xs ih =>
    obtain ⟨s', hrun, h'⟩ := hstep s x xs h
    rw [List.foldlM_cons, hrun]
    exact ih h'

/-- Two results are **matched** by `R`: the same outcome, or next states related by `R`. -/
def Matched (R : σ → τ → Prop) : Except ε σ → Except ε τ → Prop
  | .error e, .error e' => e = e'
  | .ok s, .ok t => R s t
  | _, _ => False

@[simp] theorem matched_error {R : σ → τ → Prop} {e e' : ε} :
    Matched R (.error e) (.error e') ↔ e = e' := Iff.rfl

@[simp] theorem matched_ok {R : σ → τ → Prop} {s : σ} {t : τ} :
    Matched R (.ok s : Except ε σ) (.ok t) ↔ R s t := Iff.rfl

theorem Matched.mono {S : σ → τ → Prop} {r' : Except ε τ} (h : Matched R r r')
    (hRS : ∀ s t, R s t → S s t) : Matched S r r' := by
  cases r with
  | error e =>
    cases r' with
    | error e' => exact h
    | ok t => exact h
  | ok s =>
    cases r' with
    | error e' => exact h
    | ok t => exact hRS s t h

/-- Equal results of a first part, followed by matched second parts, are matched. -/
theorem Matched.bind_eq {α : Type u} {r : Except ε α} {f : α → Except ε σ} {g : α → Except ε τ}
    (h : ∀ a, Matched R (f a) (g a)) : Matched R (r >>= f) (r >>= g) := by
  cases r with
  | error e => exact rfl
  | ok a => exact h a

/-- **Runs of matched interpreters agree.** -/
theorem runFor_congr {step' : τ → Except ε τ} (hstep : ∀ s t, R s t → Matched R (step s) (step' t))
    (n : ℕ) {t : τ} (h : R s t) : runFor step n s = runFor step' n t := by
  induction n generalizing s t with
  | zero => rfl
  | succ n ih =>
    have hm := hstep s t h
    cases hs : step s with
    | error e =>
      cases ht : step' t with
      | error e' => rw [runFor_error hs, runFor_error ht, show e = e' by simpa [hs, ht] using hm]
      | ok t' => simp [hs, ht, Matched] at hm
    | ok s' =>
      cases ht : step' t with
      | error e' => simp [hs, ht, Matched] at hm
      | ok t' =>
        rw [runFor_ok hs, runFor_ok ht]
        exact ih (by simpa [hs, ht] using hm)

end FreeBSDSys
