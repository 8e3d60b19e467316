import Mathlib

/-!
# Ordered lists of spans

Free lists, reassembly queues and address maps keep pieces of a line in a list: each element `a`
takes the half-open span from `lo a` to `hi a`, and the spans come in order and do not meet.  Every
operation on such a list replaces a few neighbours by others.  The one fact behind all of them is
`Ordered.replace`: what lies inside the replaced neighbours fits in their place.

* `Ordered lo hi l`, `cover lo hi l`: the order of a list and the points it covers.
* `Ordered.replace`: replacing neighbours by pieces of them.
* `Ordered.insert`: a new element in a gap.
-/

namespace FreeBSDSys.Spans

open List

variable {α β : Type*} [LinearOrder β] (lo hi : α → β)

/-- The points of one element. -/
def span (a : α) : Set β := Set.Ico (lo a) (hi a)

/-- The points of all elements. -/
def cover (l : List α) : Set β := {x | ∃ a ∈ l, x ∈ span lo hi a}

/-- The elements are not empty, come in order and do not meet. -/
structure Ordered (l : List α) : Prop where
  nonempty : ∀ a ∈ l, lo a < hi a
  apart : l.Pairwise fun a b => hi a ≤ lo b

variable {lo hi} {a b : α} {l m r : List α} {x : β}

theorem mem_span : x ∈ span lo hi a ↔ lo a ≤ x ∧ x < hi a := Iff.rfl

theorem mem_cover : x ∈ cover lo hi l ↔ ∃ a ∈ l, x ∈ span lo hi a := Iff.rfl

@[simp] theorem cover_nil : cover lo hi [] = ∅ := by
  ext x
  simp [mem_cover]

@[simp] theorem cover_cons : cover lo hi (a :: l) = span lo hi a ∪ cover lo hi l := by
  ext x
  simp [mem_cover]

@[simp] theorem cover_append : cover lo hi (l ++ m) = cover lo hi l ∪ cover lo hi m := by
  ext x
  simp [mem_cover, or_and_right, exists_or]

theorem mem_cover_nil : x ∈ cover lo hi [] ↔ False := by simp

theorem mem_cover_cons : x ∈ cover lo hi (a :: l) ↔ x ∈ span lo hi a ∨ x ∈ cover lo hi l := by
  simp

theorem span_subset_cover (h : a ∈ l) : span lo hi a ⊆ cover lo hi l :=
  fun _ hx => ⟨a, h, hx⟩

theorem Ordered.nil : Ordered lo hi [] := ⟨by simp, by simp⟩

theorem ordered_singleton : Ordered lo hi [a] ↔ lo a < hi a :=
  ⟨fun h => h.nonempty a (by simp), fun h => ⟨by simpa using h, by simp⟩⟩

theorem ordered_append : Ordered lo hi (l ++ m) ↔
      Ordered lo hi l ∧ Ordered lo hi m ∧ ∀ a ∈ l, ∀ b ∈ m, hi a ≤ lo b := by
  constructor
  · rintro ⟨hne, hap⟩
    obtain ⟨hl, hm, hlm⟩ := pairwise_append.mp hap
    exact ⟨⟨fun a ha => hne a (mem_append_left _ ha), hl⟩,
      ⟨fun a ha => hne a (mem_append_right _ ha), hm⟩, hlm⟩
  · rintro ⟨⟨hnl, hl⟩, ⟨hnm, hm⟩, hlm⟩
    refine ⟨fun a ha => ?_, pairwise_append.mpr ⟨hl, hm, hlm⟩⟩
    obtain ha | ha := mem_append.mp ha
    · exact hnl a ha
    · exact hnm a ha

theorem ordered_cons :
    Ordered lo hi (a :: l) ↔ lo a < hi a ∧ Ordered lo hi l ∧ ∀ b ∈ l, hi a ≤ lo b := by
  rw [← singleton_append, ordered_append, ordered_singleton]
  simp

theorem ordered_map {γ : Type*} {f : γ → α} {l : List γ} :
    Ordered lo hi (l.map f) ↔ Ordered (lo ∘ f) (hi ∘ f) l :=
  ⟨fun h => ⟨fun a ha => h.nonempty _ (mem_map_of_mem ha), pairwise_map.mp h.apart⟩,
    fun h => ⟨by simpa using h.nonempty, pairwise_map.mpr h.apart⟩⟩

/-- **Replacement.**  Neighbours may be replaced by elements that lie inside them. -/
theorem Ordered.replace {m' : List α} (h : Ordered lo hi (l ++ m ++ r)) (hm' : Ordered lo hi m')
    (hsub : cover lo hi m' ⊆ cover lo hi m) : Ordered lo hi (l ++ m' ++ r) := by
  obtain ⟨hlm, hr, hlmr⟩ := ordered_append.mp h
  obtain ⟨hl, hm, hlm⟩ := ordered_append.mp hlm
  have hinside : ∀ b ∈ m', ∀ x, lo b ≤ x → x < hi b → ∃ a ∈ m, lo a ≤ x ∧ x < hi a :=
    fun b hb x h1 h2 => hsub (span_subset_cover hb ⟨h1, h2⟩)
  refine ordered_append.mpr ⟨ordered_append.mpr ⟨hl, hm', fun a ha b hb => ?_⟩, hr, ?_⟩
  · obtain ⟨c, hc, hle, -⟩ := hinside b hb (lo b) le_rfl (hm'.nonempty b hb)
    exact (hlm a ha c hc).trans hle
  · intro b hb c hc
    obtain hb | hb := mem_append.mp hb
    · exact hlmr b (mem_append_left _ hb) c hc
    · by_contra hlt
      -- a point of `b` at or behind the start of `c`
      obtain ⟨d, hd, -, hlt'⟩ := hinside b hb (max (lo b) (lo c)) (le_max_left _ _)
        (max_lt (hm'.nonempty b hb) (not_le.mp hlt))
      have := hlmr d (mem_append_right _ hd) c hc
      exact absurd (hlt'.trans_le this) (not_lt.mpr (le_max_right _ _))

/-- Elements that cover nothing outside `[x, y)` lie inside. -/
theorem Ordered.le_of_cover {y : β} (h : Ordered lo hi l) (hlo : ∀ z ∈ cover lo hi l, x ≤ z)
    (hhi : ∀ z ∈ cover lo hi l, z < y) : ∀ a ∈ l, x ≤ lo a ∧ hi a ≤ y := by
  intro a ha
  have hne := h.nonempty a ha
  refine ⟨hlo _ (span_subset_cover ha ⟨le_rfl, hne⟩), ?_⟩
  by_contra hlt
  have hlt' : max (lo a) y < hi a := max_lt hne (not_le.mp hlt)
  exact absurd (hhi _ (span_subset_cover ha ⟨le_max_left _ _, hlt'⟩)) (not_lt.mpr (le_max_right _ _))

/-- **Insertion** of an element into a gap. -/
theorem Ordered.insert (h : Ordered lo hi (l ++ r)) (ha : lo a < hi a)
    (hl : ∀ b ∈ l, hi b ≤ lo a) (hr : ∀ b ∈ r, hi a ≤ lo b) : Ordered lo hi (l ++ a :: r) := by
  obtain ⟨hol, hor, hlr⟩ := ordered_append.mp h
  exact ordered_append.mpr ⟨hol, ordered_cons.mpr ⟨ha, hor, hr⟩, fun b hb =>
    forall_mem_cons.mpr ⟨hl b hb, hlr b hb⟩⟩

/-- Elements between `m` and `n` have room for no more than `n - m` points. -/
theorem Ordered.sum_le {lo hi : α → ℕ} {m n : ℕ} {l : List α} (h : Ordered lo hi l)
    (hm : ∀ a ∈ l, m ≤ lo a) (hn : ∀ a ∈ l, hi a ≤ n) :
    (l.map fun a => hi a - lo a).sum ≤ n - m := by
  induction l generalizing m with
  | nil => simp
  | cons a l ih =>
    obtain ⟨hlt, hl, hap⟩ := ordered_cons.mp h
    have hrest := ih hl hap fun b hb => hn b (mem_cons_of_mem _ hb)
    have hma := hm a mem_cons_self
    have hna := hn a mem_cons_self
    simp only [map_cons, sum_cons]
    omega

end FreeBSDSys.Spans
