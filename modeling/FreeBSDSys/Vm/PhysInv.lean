import FreeBSDSys.Vm.Phys

/-!
# The invariant of the page allocator

All operations of the allocator are made of three: a block is put on a queue, a block is taken off
its queue, and the pool of pages that are not free is set.  This file states the invariant and
proves that these three keep it, with their effect on the set of free pages.

* `Inv`: the blocks on the queues are the blocks of a coalesced tiling of the segments, each in the
  queue of its free list, pool and order.
* `Loose`: a block of pages that are not free, of one pool and inside a segment.
* `Inv.insert`, `Inv.remove`, `Inv.setPool`: the three basic steps.
* `Moves`: what an operation does to the free pages and to the pools.
-/

namespace FreeBSDSys.VmPhys

open Buddy Function List

/-- Two segments have no page in common. -/
def Seg.Apart (seg seg' : Seg) : Prop := ∀ p, ¬ (seg.Contains p ∧ seg'.Contains p)

instance : Std.Symm Seg.Apart := ⟨fun _ _ h p hp => h p hp.symm⟩

namespace Phys

/-- The segments are disjoint, end below `2 ^ 52` bytes, and belong to free lists in use. -/
structure SegsOk (segs : List Seg) (nfreelists : ℕ) : Prop where
  disjoint : segs.Pairwise Seg.Apart
  stop_le : ∀ seg ∈ segs, seg.stop ≤ 2 ^ 40
  flind_lt : ∀ seg ∈ segs, seg.flind < nfreelists

/-- The free pages. -/
def frees (s : Phys) : Set ℕ := covered vmNfreeorder s.order

/-- **The invariant.** -/
structure Inv (s : Phys) : Prop where
  segs : SegsOk s.segs s.nfreelists
  tiling : Tiling vmNfreeorder s.segOf s.order
  coalesced : Coalesced vmNfreeorder s.segOf s.order
  uniform : ∀ p, s.order p < vmNfreeorder → ∀ q ∈ block p (s.order p), s.pool q = s.pool p
  pool_lt : ∀ p, s.pool p < vmNfreepool
  mem_queue : ∀ flind pool o p, p ∈ (s.queues flind pool o).pl ↔
    (s.order p = o ∧ o < vmNfreeorder) ∧ s.pool p = pool ∧ (s.segOf p).map Seg.flind = some flind
  nodup : ∀ flind pool o, (s.queues flind pool o).pl.Nodup
  lcnt : ∀ flind pool o, (s.queues flind pool o).lcnt = (s.queues flind pool o).pl.length

variable {s s' : Phys} {seg : Seg} {m p q o : ℕ}

/-! ## Segments -/

theorem segOf_iff (h : SegsOk s.segs s.nfreelists) :
    s.segOf p = some seg ↔ seg ∈ s.segs ∧ seg.Contains p := by
  unfold segOf
  constructor
  · intro hf
    exact ⟨mem_of_find?_eq_some hf, by simpa using find?_some hf⟩
  · rintro ⟨hmem, hp⟩
    cases hf : s.segs.find? fun seg => seg.Contains p with
    | none =>
      rw [find?_eq_none] at hf
      exact absurd hp (by simpa using hf seg hmem)
    | some seg' =>
      have hp' : seg'.Contains p := by simpa using find?_some hf
      by_contra hne
      have hapart := h.disjoint.forall (mem_of_find?_eq_some hf) hmem
        fun heq => hne (congrArg some heq)
      exact hapart p ⟨hp', hp⟩

/-- A block in one segment, in the words of the tiling. -/
theorem within_of_contains (h : SegsOk s.segs s.nfreelists) (hseg : seg ∈ s.segs)
    (hin : ∀ q ∈ block p o, seg.Contains q) : Within s.segOf p o :=
  ⟨seg, fun q hq => (segOf_iff h).mpr ⟨hseg, hin q hq⟩⟩

theorem contains_of_within (h : SegsOk s.segs s.nfreelists) (hw : Within s.segOf p o)
    (hseg : s.segOf p = some seg) (hq : q ∈ block p o) : seg.Contains q := by
  have : s.segOf q = some seg := (hw.eq hq).trans hseg
  exact ((segOf_iff h).mp this).2

/-! ## Frames -/

@[simp] theorem setQueue_order (flind pool oind : ℕ) (f : Freelist → Freelist) :
    (s.setQueue flind pool oind f).order = s.order := rfl

theorem setQueue_queues (flind pool oind : ℕ) (f : Freelist → Freelist) (fl pl o : ℕ) :
    (s.setQueue flind pool oind f).queues fl pl o =
      if fl = flind ∧ pl = pool ∧ o = oind then f (s.queues fl pl o) else s.queues fl pl o := rfl

theorem setOrder_queues : (s.setOrder p o).queues = s.queues := rfl

theorem remove_queues (flind pool fl pl o' : ℕ) : (s.remove flind pool o p).queues fl pl o' =
      if fl = flind ∧ pl = pool ∧ o' = o then
        ⟨(s.queues fl pl o').pl.erase p, (s.queues fl pl o').lcnt - 1⟩
      else s.queues fl pl o' := rfl

@[simp] theorem setOrder_order : (s.setOrder p o).order = update s.order p o := rfl

/-- The segments in use never change. -/
def SameSegs (s s' : Phys) : Prop := s'.segs = s.segs ∧ s'.nfreelists = s.nfreelists

theorem SameSegs.segOf (h : SameSegs s s') : s'.segOf = s.segOf := by
  funext p
  simp [Phys.segOf, h.1]

/-! ## The three basic steps -/

/-- A block of order `o` at `p` inside the segment `seg`, of pages that are not free and belong to
one pool. -/
structure Loose (s : Phys) (seg : Seg) (p o : ℕ) : Prop where
  order_lt : o < vmNfreeorder
  dvd : 2 ^ o ∣ p
  seg_mem : seg ∈ s.segs
  inside : ∀ q ∈ block p o, seg.Contains q
  not_free : ∀ q ∈ block p o, q ∉ s.frees
  uniform : ∀ q ∈ block p o, s.pool q = s.pool p

theorem Loose.segOf (h : Loose s seg p o) (hs : SegsOk s.segs s.nfreelists) (hq : q ∈ block p o) :
    s.segOf q = some seg :=
  (segOf_iff hs).mpr ⟨h.seg_mem, h.inside q hq⟩

/-- **A block is put on its queue**, at either end. -/
theorem Inv.insert (h : Inv s) (hl : Loose s seg p o)
    (hbuddy : o + 1 < vmNfreeorder → seg.Contains (buddy p o) → s.order (buddy p o) ≠ o)
    {f : Freelist → Freelist} (hperm : ∀ l, (f l).pl.Perm (p :: l.pl))
    (hcnt : ∀ l, (f l).lcnt = l.lcnt + 1) :
    Inv ((s.setOrder p o).setQueue seg.flind (s.pool p) o f) := by
  have hp : s.segOf p = some seg := hl.segOf h.segs (self_mem_block ..)
  have hhead : s.order p = vmNfreeorder :=
    not_head_of_notMem h.tiling (hl.not_free p (self_mem_block ..))
  have hout (fl pl o' : ℕ) : p ∉ (s.queues fl pl o').pl := fun hmem => by
    have := ((h.mem_queue ..).mp hmem).1
    omega
  refine ⟨h.segs,
    h.tiling.put hl.order_lt hl.dvd (within_of_contains h.segs hl.seg_mem hl.inside) hl.not_free,
    h.coalesced.put hl.dvd fun hlt hreg => hbuddy hlt ?_, ?_, h.pool_lt, ?_, ?_, ?_⟩
  · exact ((segOf_iff h.segs).mp (hreg.trans hp)).2
  · intro q hq x hx
    by_cases hqp : q = p
    · subst hqp
      rw [setQueue_order, setOrder_order, update_self] at hx
      exact hl.uniform x hx
    · rw [setQueue_order, setOrder_order, update_of_ne hqp] at hq hx
      exact h.uniform q hq x hx
  · intro fl pl o' q
    change _ ↔ (update s.order p o q = o' ∧ _) ∧ s.pool q = pl ∧ (s.segOf q).map Seg.flind = some fl
    rw [setQueue_queues]
    by_cases hqp : q = p
    · subst hqp
      rw [update_self, hp, Option.map_some, Option.some.injEq]
      split_ifs with hrow
      · obtain ⟨rfl, rfl, rfl⟩ := hrow
        exact iff_of_true ((hperm _).mem_iff.mpr mem_cons_self) ⟨⟨rfl, hl.order_lt⟩, rfl, rfl⟩
      · refine iff_of_false (hout _ _ _) fun hr => hrow ⟨hr.2.2.symm, hr.2.1.symm, hr.1.1.symm⟩
    · rw [update_of_ne hqp, ← h.mem_queue]
      split
      · rw [(hperm _).mem_iff, mem_cons]
        exact or_iff_right hqp
      · exact Iff.rfl
  · intro fl pl o'
    rw [setQueue_queues]
    split
    · exact (hperm _).nodup_iff.mpr (nodup_cons.mpr ⟨hout _ _ _, h.nodup ..⟩)
    · exact h.nodup ..
  · intro fl pl o'
    rw [setQueue_queues, setOrder_queues]
    split
    · rw [hcnt, (hperm _).length_eq, h.lcnt]
      rfl
    · exact h.lcnt ..

theorem frees_insert (hl : Loose s seg p o) (flind pool : ℕ) (f : Freelist → Freelist) :
    ((s.setOrder p o).setQueue flind pool o f).frees = s.frees ∪ block p o :=
  covered_put hl.order_lt fun hlt =>
    hl.not_free p (self_mem_block ..) (mem_covered_of_head hlt)

/-- **A block is taken off its queue.** -/
theorem Inv.remove (h : Inv s) (hp : s.order p < vmNfreeorder) (hseg : s.segOf p = some seg) :
    Inv (s.remove seg.flind (s.pool p) (s.order p) p) := by
  have hmem : p ∈ (s.queues seg.flind (s.pool p) (s.order p)).pl :=
    (h.mem_queue ..).mpr ⟨⟨rfl, hp⟩, rfl, by rw [hseg, Option.map_some]⟩
  refine ⟨h.segs, h.tiling.take p, h.coalesced.take p, ?_, h.pool_lt, ?_, ?_, ?_⟩
  · intro q hq x hx
    obtain ⟨hqp, hq⟩ := head_of_take hq
    change x ∈ block q (update s.order p vmNfreeorder q) at hx
    rw [update_of_ne hqp] at hx
    exact h.uniform q hq x hx
  · intro fl pl o' q
    change _ ↔ (update s.order p vmNfreeorder q = o' ∧ _) ∧ s.pool q = pl ∧
      (s.segOf q).map Seg.flind = some fl
    rw [remove_queues]
    by_cases hqp : q = p
    · subst hqp
      rw [update_self]
      refine iff_of_false ?_ (by omega)
      split_ifs with hrow
      · exact (h.nodup ..).not_mem_erase
      · intro hq
        obtain ⟨⟨rfl, -⟩, rfl, hfl⟩ := (h.mem_queue ..).mp hq
        rw [hseg, Option.map_some, Option.some.injEq] at hfl
        exact hrow ⟨hfl.symm, rfl, rfl⟩
    · rw [update_of_ne hqp, ← h.mem_queue]
      split
      · exact mem_erase_of_ne hqp
      · exact Iff.rfl
  · intro fl pl o'
    rw [remove_queues]
    split
    · exact (h.nodup ..).erase _
    · exact h.nodup ..
  · intro fl pl o'
    rw [remove_queues]
    split_ifs with hrow
    · obtain ⟨rfl, rfl, rfl⟩ := hrow
      have hpos := length_pos_of_mem hmem
      simp only [h.lcnt, length_erase_of_mem hmem]
      omega
    · exact h.lcnt ..

theorem frees_remove (h : Inv s) (hp : s.order p < vmNfreeorder) (flind pool : ℕ) :
    (s.remove flind pool (s.order p) p).frees = s.frees \ block p (s.order p) :=
  h.tiling.covered_take hp

/-- **The pool of pages that are not free is set.** -/
theorem Inv.setPool (h : Inv s) {pool : ℕ} (hpool : pool < vmNfreepool)
    (hnf : ∀ q ∈ block p o, q ∉ s.frees) : Inv (s.vmPhysSetPool pool p o) := by
  have hkeep q hq : (s.vmPhysSetPool pool p o).pool q = s.pool q := if_neg fun hmem => hnf q hmem hq
  refine ⟨h.segs, h.tiling, h.coalesced, ?_, ?_, ?_, h.nodup, h.lcnt⟩
  · intro q hq x hx
    rw [hkeep x ⟨q, hq, hx⟩, hkeep q (mem_covered_of_head hq)]
    exact h.uniform q hq x hx
  · intro q
    show (if _ then _ else _) < _
    split
    · exact hpool
    · exact h.pool_lt q
  · intro fl pl o' q
    show q ∈ (s.queues fl pl o').pl ↔ (s.order q = o' ∧ _) ∧ _ ∧ (s.segOf q).map Seg.flind = some fl
    rw [h.mem_queue]
    refine and_congr_right fun hq => and_congr_left fun _ => ?_
    rw [hkeep q (mem_covered_of_head (hq.1 ▸ hq.2))]

end Phys

end FreeBSDSys.VmPhys
