import FreeBSDSys.Lib.Reachability

/-!
# Threads that share a state

Any number of threads run the same code and share a state.  A thread is known by the place at which
it is, so the threads are a multiset of places.  The code is given by three relations: how a thread
begins, how it goes from one place to the next, and how it ends.  Each is one atomic section.

* `ThreadStep`: one thread does one section.
* `ThreadStep.invariant`: a property of the shared state and the threads that each section keeps,
  whatever the other threads are, holds in every state reached.
-/

namespace FreeBSDSys

universe u v

/-- The sections of the code. -/
structure Program (σ : Type u) (π : Type v) where
  enter : σ → σ → π → Prop
  move : σ → π → σ → π → Prop
  leave : σ → π → σ → Prop

/-- The shared state and the places of the threads. -/
structure Threads (σ : Type u) (π : Type v) where
  shared : σ
  places : Multiset π

variable {σ : Type u} {π : Type v}

/-- One thread does one section. -/
inductive ThreadStep (code : Program σ π) : Threads σ π → Threads σ π → Prop
  | enter {s s' : σ} {p : π} {others : Multiset π} (h : code.enter s s' p) :
      ThreadStep code ⟨s, others⟩ ⟨s', p ::ₘ others⟩
  | move {s s' : σ} {p p' : π} {others : Multiset π} (h : code.move s p s' p') :
      ThreadStep code ⟨s, p ::ₘ others⟩ ⟨s', p' ::ₘ others⟩
  | leave {s s' : σ} {p : π} {others : Multiset π} (h : code.leave s p s') :
      ThreadStep code ⟨s, p ::ₘ others⟩ ⟨s', others⟩

/-- **The invariant rule for threads.** -/
theorem ThreadStep.invariant (code : Program σ π) {init : Threads σ π → Prop}
    {I : σ → Multiset π → Prop} {s : Threads σ π} (hinit : ∀ s, init s → I s.shared s.places)
    (henter : ∀ s s' p others, code.enter s s' p → I s others → I s' (p ::ₘ others))
    (hmove : ∀ s p s' p' others, code.move s p s' p' → I s (p ::ₘ others) → I s' (p' ::ₘ others))
    (hleave : ∀ s p s' others, code.leave s p s' → I s (p ::ₘ others) → I s' others)
    (h : Reachable init (ThreadStep code) s) : I s.shared s.places := by
  refine h.invariant (I := fun s => I s.shared s.places) hinit fun s s' hs hstep => ?_
  cases hstep with
  | enter h => exact henter _ _ _ _ h hs
  | move h => exact hmove _ _ _ _ _ h hs
  | leave h => exact hleave _ _ _ _ h hs

end FreeBSDSys
