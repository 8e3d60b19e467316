import Mathlib

/-!
# Queues of waiters with explicit waits-for edges

Some objects hold, others wait.  A symmetric relation `B` says which pairs exclude each other.
The queue is kept newest first, and the bookkeeping is a list of edges: a waiter has an edge to
every holder that excludes it and to every older waiter that excludes it.  A waiter whose last
edge goes away stops waiting and becomes a holder at once.

`Valid B H W E S` says that the edges `E` are exact for the holders `H` and the waiters `W`, up to
the edges `S` that are stale and have still to be taken away.  The rules of this file say how it
is kept:

* `Valid.enter`, `Valid.join`: a new holder, a new waiter;
* `Valid.loosen`, `Valid.cancel`: a holder goes or excludes less, a waiter gives up.  The edges
  into it become stale;
* `relax_spec`: taking the stale edges away one by one, waking every waiter that loses its last
  edge, ends with exact edges.
-/

namespace FreeBSDSys.WaitQueue

open List

universe u

variable {α : Type u} {l : List α}

/-- `x` waits for `y`: it is queued, `y` excludes it, and `y` holds or was queued before. -/
def Dep (B : α → α → Prop) (H : α → Prop) (W : List α) (x y : α) : Prop :=
  x ∈ W ∧ B x y ∧ (H y ∨ [x, y].Sublist W)

/-- The edges are exact, apart from those of `S`; nobody waits for nothing; holders do not exclude
each other. -/
structure Valid (B : α → α → Prop) (H : α → Prop) (W : List α) (E : List (α × α))
    (S : α → α → Prop) : Prop where
  irrefl : ∀ x, ¬ B x x
  symm : ∀ x y, B x y → B y x
  waiters_nodup : W.Nodup
  edges_nodup : E.Nodup
  not_holder : ∀ x ∈ W, ¬ H x
  edges_iff : ∀ x y, (x, y) ∈ E ↔ Dep B H W x y ∨ S x y
  stale_mem : ∀ x y, S x y → x ∈ W
  blocked : ∀ x ∈ W, ∃ y, (x, y) ∈ E
  holders : ∀ x y, H x → H y → ¬ B x y

/-- No edge is stale. -/
abbrev Exact (B : α → α → Prop) (H : α → Prop) (W : List α) (E : List (α × α)) : Prop :=
  Valid B H W E fun _ _ => False

variable {B B' : α → α → Prop} {H H' : α → Prop} {W : List α} {E E' : List (α × α)}
  {S : α → α → Prop} {n w x y : α}

theorem Dep.mem_or (h : Dep B H W x y) : H y ∨ y ∈ W := by
  obtain ⟨-, -, hy | hs⟩ := h
  · exact .inl hy
  · exact .inr (hs.subset (by simp))

theorem Valid.mem_edges (h : Exact B H W E) : (x, y) ∈ E ↔ Dep B H W x y := by
  rw [h.edges_iff x y, or_false]

theorem Valid.mem_of_edge (h : Valid B H W E S) (he : (x, y) ∈ E) : x ∈ W := by
  rcases (h.edges_iff x y).mp he with hd | hs
  · exact hd.1
  · exact h.stale_mem x y hs

/-- The edges can be divided into exact and stale ones in another way. -/
theorem Valid.restale {S' : α → α → Prop} (h : Valid B H W E S)
    (hS : ∀ x y, Dep B H W x y ∨ S x y ↔ Dep B H W x y ∨ S' x y) : Valid B H W E S' := by
  have hE : ∀ x y, (x, y) ∈ E ↔ Dep B H W x y ∨ S' x y := fun x y =>
    (h.edges_iff x y).trans (hS x y)
  exact ⟨h.irrefl, h.symm, h.waiters_nodup, h.edges_nodup, h.not_holder, hE,
    fun x y hs => h.mem_of_edge ((hE x y).mpr (.inr hs)), h.blocked, h.holders⟩

/-- Two different members of a list stand one behind the other. -/
theorem sublist_or_sublist (hx : x ∈ l) (hy : y ∈ l) (hne : x ≠ y) :
    [x, y].Sublist l ∨ [y, x].Sublist l := by
  obtain ⟨l1, l2, rfl⟩ := append_of_mem hx
  rcases mem_append.mp hy with hy | hy
  · right
    exact (singleton_sublist.mpr hy).append (singleton_sublist.mpr (by simp))
  · left
    have hy2 : y ∈ l2 := (mem_cons.mp hy).resolve_left (Ne.symm hne)
    exact ((singleton_sublist.mpr hy2).cons_cons x).trans (sublist_append_right l1 _)

theorem not_sublist_swap (hl : l.Nodup) (hne : x ≠ y) (h : [x, y].Sublist l)
    (h' : [y, x].Sublist l) : False := by
  induction l with
  | nil => cases h
  | cons z l ih =>
    obtain ⟨hz, hl⟩ := nodup_cons.mp hl
    cases h with
    | cons _ h =>
      cases h' with
      | cons _ h' => exact ih hl h h'
      | cons_cons _ _ => exact hz (h.subset (by simp))
    | cons_cons _ h =>
      cases h' with
      | cons _ h' => exact hz (h'.subset (by simp))
      | cons_cons _ _ => exact hne rfl

theorem pair_sublist_cons : [x, y].Sublist (n :: W) ↔ [x, y].Sublist W ∨ (x = n ∧ y ∈ W) := by
  constructor
  · intro h
    cases h with
    | cons _ h => exact .inl h
    | cons_cons _ h => exact .inr ⟨rfl, singleton_sublist.mp h⟩
  · rintro (h | ⟨rfl, hy⟩)
    · exact h.cons n
    · exact (singleton_sublist.mpr hy).cons_cons x

/-- Without holders nobody waits: the oldest waiter would wait for nothing. -/
theorem Valid.eq_nil (h : Exact B H W E) (hH : ∀ x, ¬ H x) : W = [] := by
  by_contra hne
  have hsplit := dropLast_concat_getLast hne
  set x := W.getLast hne
  obtain ⟨y, hy⟩ := h.blocked x (getLast_mem hne)
  rcases (h.mem_edges.mp hy).2.2 with hh | hsub
  · exact hH y hh
  · have hnodup := h.waiters_nodup
    rw [← hsplit] at hnodup hsub
    have hx : x ∉ W.dropLast := fun hm =>
      (nodup_append.mp hnodup).2.2 x hm x (mem_singleton.mpr rfl) rfl
    obtain ⟨l1, l2, heq, hs1, hs2⟩ := sublist_append_iff.mp hsub
    cases l1 with
    | nil =>
      have hlen := hs2.length_le
      rw [nil_append] at heq
      rw [← heq] at hlen
      simp at hlen
    | cons a l1 =>
      obtain ⟨rfl, -⟩ := List.cons.inj heq
      exact hx (hs1.subset mem_cons_self)

/-! ## Changing what holds and what excludes -/

/-- Only the relation on holders and waiters matters. -/
theorem Valid.congr (h : Valid B H W E S) (hirr : ∀ x, ¬ B' x x)
    (hsymm : ∀ x y, B' x y → B' y x) (hH : ∀ x, H x ↔ H' x)
    (hB : ∀ x y, (H x ∨ x ∈ W) → (H y ∨ y ∈ W) → (B x y ↔ B' x y)) : Valid B' H' W E S := by
  have hdep : ∀ x y, Dep B H W x y ↔ Dep B' H' W x y := by
    intro x y
    rw [Dep, Dep, ← hH y]
    refine and_congr_right fun hx => and_congr_left fun hy => hB x y (.inr hx) ?_
    exact hy.imp_right fun hs => hs.subset (by simp)
  refine ⟨hirr, hsymm, h.waiters_nodup, h.edges_nodup, ?_, ?_, h.stale_mem, h.blocked, ?_⟩
  · intro x hx hh
    exact h.not_holder x hx ((hH x).mpr hh)
  · intro x y
    rw [h.edges_iff x y, hdep x y]
  · intro x y hx hy hb
    have hx' := (hH x).mpr hx
    have hy' := (hH y).mpr hy
    exact h.holders x y hx' hy' ((hB x y (.inl hx') (.inl hy')).mpr hb)

/-- **A new holder.**  It must not exclude a holder, and every waiter that it excludes gets an
edge to it. -/
theorem Valid.enter (h : Exact B H W E) (hn : n ∉ W) (hfree : ∀ y, H y → ¬ B n y)
    (hnodup : E'.Nodup) (hE : ∀ x y, (x, y) ∈ E' ↔ (x, y) ∈ E ∨ (y = n ∧ x ∈ W ∧ B x n)) :
    Exact B (fun z => z = n ∨ H z) W E' := by
  refine ⟨h.irrefl, h.symm, h.waiters_nodup, hnodup, ?_, ?_, nofun, ?_, ?_⟩
  · rintro x hx (rfl | hh)
    · exact hn hx
    · exact h.not_holder x hx hh
  · intro x y
    rw [hE x y, h.mem_edges, or_false]
    constructor
    · rintro (hd | ⟨rfl, hx, hb⟩)
      · exact ⟨hd.1, hd.2.1, hd.2.2.imp_left .inr⟩
      · exact ⟨hx, hb, .inl (.inl rfl)⟩
    · rintro ⟨hx, hb, (rfl | hh) | hs⟩
      · exact .inr ⟨rfl, hx, hb⟩
      · exact .inl ⟨hx, hb, .inl hh⟩
      · exact .inl ⟨hx, hb, .inr hs⟩
  · intro x hx
    obtain ⟨y, hy⟩ := h.blocked x hx
    exact ⟨y, (hE x y).mpr (.inl hy)⟩
  · rintro x y (rfl | hx) (rfl | hy) hb
    · exact h.irrefl _ hb
    · exact hfree y hy hb
    · exact hfree x hx (h.symm _ _ hb)
    · exact h.holders x y hx hy hb

/-- **A new waiter.**  It gets an edge to everything that excludes it, and there is such a
thing. -/
theorem Valid.join (h : Exact B H W E) (hn : n ∉ W) (hH : ¬ H n) (hnodup : E'.Nodup)
    (hE : ∀ x y, (x, y) ∈ E' ↔ (x, y) ∈ E ∨ (x = n ∧ B n y ∧ (H y ∨ y ∈ W)))
    (hblocked : ∃ y, B n y ∧ (H y ∨ y ∈ W)) : Exact B H (n :: W) E' := by
  refine ⟨h.irrefl, h.symm, nodup_cons.mpr ⟨hn, h.waiters_nodup⟩, hnodup, ?_, ?_,
    nofun, ?_, h.holders⟩
  · exact forall_mem_cons.mpr ⟨hH, h.not_holder⟩
  · intro x y
    rw [hE x y, h.mem_edges, or_false]
    constructor
    · rintro (hd | ⟨rfl, hb, hy⟩)
      · exact ⟨mem_cons_of_mem _ hd.1, hd.2.1, hd.2.2.imp_right (·.cons n)⟩
      · exact ⟨mem_cons_self, hb, hy.imp_right fun hy => pair_sublist_cons.mpr (.inr ⟨rfl, hy⟩)⟩
    · rintro ⟨hx, hb, hy⟩
      rcases mem_cons.mp hx with rfl | hxW
      · refine .inr ⟨rfl, hb, hy.imp_right fun hs => ?_⟩
        rcases pair_sublist_cons.mp hs with hs | hs
        · exact hs.subset (by simp)
        · exact hs.2
      · refine .inl ⟨hxW, hb, hy.imp_right fun hs => ?_⟩
        rcases pair_sublist_cons.mp hs with hs | ⟨rfl, -⟩
        · exact hs
        · exact absurd hxW hn
  · intro x hx
    rcases mem_cons.mp hx with rfl | hx
    · obtain ⟨y, hb, hy⟩ := hblocked
      exact ⟨y, (hE x y).mpr (.inr ⟨rfl, hb, hy⟩)⟩
    · obtain ⟨y, hy⟩ := h.blocked x hx
      exact ⟨y, (hE x y).mpr (.inl hy)⟩

/-- **A holder lets go.**  It stops holding or excludes less, and the edges into it may be
stale. -/
theorem Valid.loosen (h : Exact B H W E) (hy : H y) (hirr : ∀ x, ¬ B' x x)
    (hsymm : ∀ x y, B' x y → B' y x) (hH : ∀ z, H' z → H z) (hH' : ∀ z, z ≠ y → H z → H' z)
    (hless : ∀ x z, (H x ∨ x ∈ W) → (H z ∨ z ∈ W) → B' x z → B x z)
    (hsame : ∀ x z, x ≠ y → z ≠ y → B x z → B' x z) :
    Valid B' H' W E fun x z => z = y ∧ (x, y) ∈ E := by
  refine ⟨hirr, hsymm, h.waiters_nodup, h.edges_nodup,
    fun x hx hh => h.not_holder x hx (hH x hh), ?_, fun x z hs => h.mem_of_edge hs.2, h.blocked,
    fun x z hx hz hb => h.holders x z (hH x hx) (hH z hz)
      (hless x z (.inl (hH x hx)) (.inl (hH z hz)) hb)⟩
  intro x z
  rw [h.mem_edges]
  constructor
  · intro hd
    by_cases hz : z = y
    · subst hz
      exact .inr ⟨rfl, h.mem_edges.mpr hd⟩
    · have hx : x ≠ y := fun he => h.not_holder x hd.1 (he ▸ hy)
      exact .inl ⟨hd.1, hsame x z hx hz hd.2.1, hd.2.2.imp_left (hH' z hz)⟩
  · rintro (hd | ⟨rfl, he⟩)
    · have hz : H z ∨ z ∈ W := hd.mem_or.imp_left (hH z)
      exact ⟨hd.1, hless x z (.inr hd.1) hz hd.2.1, hd.2.2.imp_left (hH z)⟩
    · exact h.mem_edges.mp he

variable [DecidableEq α]

theorem pair_sublist_erase (hW : W.Nodup) (hx : x ≠ w) (hy : y ≠ w)
    (h : [x, y].Sublist W) : [x, y].Sublist (W.erase w) := by
  rw [hW.erase_eq_filter]
  have hf := h.filter (· != w)
  simpa [hx, hy] using hf

/-- **A waiter gives up.**  Its own edges go with it, those into it are stale. -/
theorem Valid.cancel (h : Exact B H W E) (hw : w ∈ W) :
    Valid B H (W.erase w) (E.filter fun e => e.1 ≠ w) fun x z => z = w ∧ x ≠ w ∧ (x, w) ∈ E := by
  have hmem : ∀ x z, (x, z) ∈ E.filter (fun e => e.1 ≠ w) ↔ (x, z) ∈ E ∧ x ≠ w := by
    intro x z
    simp
  have herase : ∀ x, x ∈ W.erase w ↔ x ≠ w ∧ x ∈ W := fun x => h.waiters_nodup.mem_erase_iff
  refine ⟨h.irrefl, h.symm, h.waiters_nodup.erase w, h.edges_nodup.filter _,
    fun x hx => h.not_holder x (mem_of_mem_erase hx), ?_, ?_, ?_, h.holders⟩
  · intro x z
    rw [hmem x z, h.mem_edges]
    constructor
    · rintro ⟨hd, hx⟩
      by_cases hz : z = w
      · subst hz
        exact .inr ⟨rfl, hx, h.mem_edges.mpr hd⟩
      · refine .inl ⟨(herase x).mpr ⟨hx, hd.1⟩, hd.2.1, hd.2.2.imp_right fun hs => ?_⟩
        exact pair_sublist_erase h.waiters_nodup hx hz hs
    · rintro (⟨hx, hb, hy⟩ | ⟨rfl, hx, he⟩)
      · obtain ⟨hxw, hx⟩ := (herase x).mp hx
        exact ⟨⟨hx, hb, hy.imp_right fun hs => hs.trans erase_sublist⟩, hxw⟩
      · exact ⟨h.mem_edges.mp he, hx⟩
  · rintro x z ⟨-, hx, he⟩
    exact (herase x).mpr ⟨hx, h.mem_of_edge he⟩
  · intro x hx
    obtain ⟨hxw, hx⟩ := (herase x).mp hx
    obtain ⟨y, hy⟩ := h.blocked x hx
    exact ⟨y, (hmem x y).mpr ⟨hy, hxw⟩⟩

/-! ## Taking stale edges away -/

/-- The waiters, the edges, and the waiters that were woken, last first. -/
structure Queue (α : Type u) where
  waiters : List α
  edges : List (α × α)
  woken : List α

/-- Take one edge away, and wake its waiter if that was the last. -/
def dropEdge (q : Queue α) (x y : α) : Queue α :=
  if ((q.edges.erase (x, y)).filter fun e => e.1 = x) = [] then
    ⟨q.waiters.erase x, q.edges.erase (x, y), x :: q.woken⟩
  else ⟨q.waiters, q.edges.erase (x, y), q.woken⟩

/-- Visit the waiters of `todo`, which have an edge to `y`, and take the edges away that `drop`
says. -/
def relax (y : α) (drop : α → Bool) : List α → Queue α → Queue α
  | [], q => q
  | x :: todo, q => relax y drop todo (if drop x then dropEdge q x y else q)

/-- Everything that holds or was woken. -/
def Queue.held (q : Queue α) (H : α → Prop) (z : α) : Prop := H z ∨ z ∈ q.woken

/-- One stale edge less. -/
theorem dropEdge_valid {q : Queue α} (h : Valid B (q.held H) q.waiters q.edges S)
    (hs : S x y) (hd : ¬ Dep B (q.held H) q.waiters x y) :
    Valid B ((dropEdge q x y).held H) (dropEdge q x y).waiters (dropEdge q x y).edges
      fun a b => S a b ∧ (a, b) ≠ (x, y) := by
  have hmem : ∀ a b, (a, b) ∈ q.edges.erase (x, y) ↔ (a, b) ∈ q.edges ∧ (a, b) ≠ (x, y) := by
    intro a b
    rw [h.edges_nodup.mem_erase_iff, and_comm]
  rw [dropEdge]
  split_ifs with hlast
  · have hout : ∀ b, (x, b) ∈ q.edges → b = y := by
      intro b hb
      by_contra hne
      have hm : (x, b) ∈ (q.edges.erase (x, y)).filter fun e => e.1 = x := by
        refine mem_filter.mpr ⟨(hmem x b).mpr ⟨hb, ?_⟩, by simp⟩
        intro he
        exact hne (Prod.mk.inj he).2
      rw [hlast] at hm
      cases hm
    have hxW : x ∈ q.waiters := h.stale_mem x y hs
    have herase : ∀ a, a ∈ q.waiters.erase x ↔ a ≠ x ∧ a ∈ q.waiters :=
      fun a => h.waiters_nodup.mem_erase_iff
    -- a waiter without edges is not excluded by any holder or older waiter
    have hfree : ∀ b, Dep B (q.held H) q.waiters x b → False := by
      intro b hb
      have hby := hout b ((h.edges_iff x b).mpr (.inl hb))
      rw [hby] at hb
      exact hd hb
    have hheld : ∀ z, Queue.held ⟨q.waiters.erase x, q.edges.erase (x, y), x :: q.woken⟩ H z ↔
        q.held H z ∨ z = x := by
      intro z
      simp only [Queue.held, mem_cons]
      tauto
    refine ⟨h.irrefl, h.symm, h.waiters_nodup.erase x, h.edges_nodup.erase _, ?_, ?_, ?_, ?_, ?_⟩
    · intro a ha hh
      obtain ⟨hax, ha⟩ := (herase a).mp ha
      exact h.not_holder a ha (((hheld a).mp hh).resolve_right hax)
    · intro a b
      rw [hmem a b, h.edges_iff a b, or_and_right]
      refine or_congr_left ⟨?_, ?_⟩
      · rintro ⟨hab, -⟩
        have hax : a ≠ x := by
          rintro rfl
          exact hfree b hab
        refine ⟨(herase a).mpr ⟨hax, hab.1⟩, hab.2.1, ?_⟩
        rcases hab.2.2 with hh | hsub
        · exact .inl ((hheld b).mpr (.inl hh))
        · by_cases hbx : b = x
          · exact .inl ((hheld b).mpr (.inr hbx))
          · exact .inr (pair_sublist_erase h.waiters_nodup hax hbx hsub)
      · rintro ⟨ha', hb, hh⟩
        obtain ⟨hax, ha⟩ := (herase a).mp ha'
        refine ⟨⟨ha, hb, ?_⟩, fun he => hax (Prod.mk.inj he).1⟩
        rcases hh with hh | hsub
        · rcases (hheld b).mp hh with hh | rfl
          · exact .inl hh
          · -- `b` was woken; an older waiter would have blocked it
            rcases sublist_or_sublist ha hxW hax with hsub | hsub
            · exact .inr hsub
            · exact absurd ⟨hxW, h.symm _ _ hb, .inr hsub⟩ (hfree a)
        · exact .inr (hsub.trans erase_sublist)
    · rintro a b ⟨hab, hne⟩
      refine (herase a).mpr ⟨?_, h.stale_mem a b hab⟩
      rintro rfl
      exact hne (by rw [hout b ((h.edges_iff a b).mpr (.inr hab))])
    · intro a ha
      obtain ⟨hax, ha⟩ := (herase a).mp ha
      obtain ⟨b, hb⟩ := h.blocked a ha
      exact ⟨b, (hmem a b).mpr ⟨hb, fun he => hax (Prod.mk.inj he).1⟩⟩
    · intro a b ha hb hab
      rcases (hheld a).mp ha with ha' | rfl
      · rcases (hheld b).mp hb with hb' | rfl
        · exact h.holders a b ha' hb' hab
        · exact hfree a ⟨hxW, h.symm _ _ hab, .inl ha'⟩
      · rcases (hheld b).mp hb with hb' | rfl
        · exact hfree b ⟨hxW, hab, .inl hb'⟩
        · exact h.irrefl _ hab
  · refine ⟨h.irrefl, h.symm, h.waiters_nodup, h.edges_nodup.erase _, h.not_holder, ?_,
      fun a b hab => h.stale_mem a b hab.1, ?_, h.holders⟩
    · intro a b
      rw [hmem a b, h.edges_iff a b, or_and_right]
      refine or_congr_left (and_iff_left_of_imp fun hab he => hd ?_)
      rw [← (Prod.mk.inj he).1, ← (Prod.mk.inj he).2]
      exact hab
    · intro a ha
      by_cases hax : a = x
      · subst hax
        obtain ⟨⟨a', b⟩, hb⟩ := exists_mem_of_ne_nil _ hlast
        obtain ⟨hb, ha'⟩ := mem_filter.mp hb
        have ha' : a' = a := by simpa using ha'
        exact ⟨b, ha' ▸ hb⟩
      · obtain ⟨b, hb⟩ := h.blocked a ha
        exact ⟨b, (hmem a b).mpr ⟨hb, fun he => hax (Prod.mk.inj he).1⟩⟩

/-- What taking edges into `y` away does to the lists: `new` are the waiters that were woken. -/
structure Relaxed (y : α) (q q' : Queue α) (new : List α) : Prop where
  woken : q'.woken = new ++ q.woken
  waiters : q.waiters.Perm (new ++ q'.waiters)
  sublist : q'.waiters.Sublist q.waiters
  edges : q'.edges.Sublist q.edges
  edge : ∀ x ∈ new, (x, y) ∈ q.edges

omit [DecidableEq α] in
theorem Relaxed.refl (y : α) (q : Queue α) : Relaxed y q q [] :=
  ⟨rfl, Perm.refl _, Sublist.refl _, Sublist.refl _, by simp⟩

omit [DecidableEq α] in
theorem Relaxed.trans {q1 q2 q3 : Queue α} {l1 l2 : List α} (h1 : Relaxed y q1 q2 l1)
    (h2 : Relaxed y q2 q3 l2) : Relaxed y q1 q3 (l2 ++ l1) := by
  refine ⟨?_, ?_, h2.sublist.trans h1.sublist, h2.edges.trans h1.edges, ?_⟩
  · rw [h2.woken, h1.woken, append_assoc]
  · refine h1.waiters.trans ?_
    refine ((Perm.refl l1).append h2.waiters).trans ?_
    rw [← append_assoc]
    exact perm_append_comm.append (Perm.refl _)
  · intro x hx
    rcases mem_append.mp hx with hx | hx
    · exact h1.edges.subset (h2.edge x hx)
    · exact h1.edge x hx

theorem dropEdge_relaxed {q : Queue α} (hx : x ∈ q.waiters) (he : (x, y) ∈ q.edges) :
    ∃ new, Relaxed y q (dropEdge q x y) new := by
  rw [dropEdge]
  split
  · exact ⟨[x], rfl, perm_cons_erase hx, erase_sublist, erase_sublist, by simpa using he⟩
  · exact ⟨[], rfl, Perm.refl _, Sublist.refl _, erase_sublist, by simp⟩

/-- **Taking stale edges away makes the edges exact.** -/
theorem relax_spec {drop : α → Bool} : ∀ (todo : List α) {q : Queue α}, todo.Nodup →
      Valid B (q.held H) q.waiters q.edges (fun x z => z = y ∧ x ∈ todo) →
      (∀ x ∈ todo, drop x = false → B x y ∧ H y) →
      (∀ x ∈ todo, drop x = true → ¬ B x y ∨ (¬ q.held H y ∧ y ∉ q.waiters)) →
      Exact B ((relax y drop todo q).held H) (relax y drop todo q).waiters
        (relax y drop todo q).edges ∧
      ∃ new, Relaxed y q (relax y drop todo q) new := by
  intro todo
  induction todo with
  | nil =>
    intro q _ h _ _
    exact ⟨h.restale (by simp), [], Relaxed.refl y q⟩
  | cons x todo ih =>
    intro q hnodup h hkeep hdrop
    obtain ⟨hx, hnodup⟩ := nodup_cons.mp hnodup
    have hstale : (x, y) ∈ q.edges :=
      (h.edges_iff x y).mpr (.inr ⟨rfl, mem_cons_self⟩)
    have hxW := h.mem_of_edge hstale
    rw [relax]
    by_cases hdx : drop x = true
    · rw [if_pos hdx]
      have hno := hdrop x mem_cons_self hdx
      have hdep : ¬ Dep B (q.held H) q.waiters x y := by
        intro hd
        rcases hno with hb | ⟨h1, h2⟩
        · exact hb hd.2.1
        · exact hd.mem_or.elim h1 h2
      have hv := dropEdge_valid h ⟨rfl, mem_cons_self⟩ hdep
      obtain ⟨new, hrel⟩ := dropEdge_relaxed hxW hstale
      have hv' : Valid B ((dropEdge q x y).held H) (dropEdge q x y).waiters
          (dropEdge q x y).edges fun a z => z = y ∧ a ∈ todo := by
        refine hv.restale fun a z => or_congr_right ⟨?_, ?_⟩
        · rintro ⟨⟨rfl, ha⟩, hne⟩
          refine ⟨rfl, (mem_cons.mp ha).resolve_left ?_⟩
          rintro rfl
          exact hne rfl
        · rintro ⟨rfl, ha⟩
          refine ⟨⟨rfl, mem_cons_of_mem _ ha⟩, fun he => hx ?_⟩
          rw [← (Prod.mk.inj he).1]
          exact ha
      have hdrop' : ∀ a ∈ todo, drop a = true → ¬ B a y ∨
          (¬ (dropEdge q x y).held H y ∧ y ∉ (dropEdge q x y).waiters) := by
        intro a ha hda
        refine (hdrop a (mem_cons_of_mem _ ha) hda).imp_right ?_
        rintro ⟨h1, h2⟩
        refine ⟨?_, fun hm => h2 (hrel.sublist.subset hm)⟩
        rintro (hh | hm)
        · exact h1 (.inl hh)
        · rw [hrel.woken] at hm
          rcases mem_append.mp hm with hm | hm
          · exact h2 (hrel.waiters.mem_iff.mpr (mem_append_left _ hm))
          · exact h1 (.inr hm)
      obtain ⟨hex, new', hrel'⟩ := ih hnodup hv' (fun a ha => hkeep a (mem_cons_of_mem _ ha)) hdrop'
      exact ⟨hex, _, hrel.trans hrel'⟩
    · rw [if_neg hdx]
      have hdep : Dep B (q.held H) q.waiters x y := by
        obtain ⟨hb, hh⟩ := hkeep x mem_cons_self (by simpa using hdx)
        exact ⟨hxW, hb, .inl (.inl hh)⟩
      refine ih hnodup (h.restale fun a z => ?_) (fun a ha => hkeep a (mem_cons_of_mem _ ha))
        (fun a ha => hdrop a (mem_cons_of_mem _ ha))
      refine ⟨fun hd => hd.elim .inl ?_, Or.imp_right (And.imp_right (mem_cons_of_mem _))⟩
      rintro ⟨rfl, ha⟩
      rcases mem_cons.mp ha with rfl | ha
      · exact .inl hdep
      · exact .inr ⟨rfl, ha⟩

end FreeBSDSys.WaitQueue
