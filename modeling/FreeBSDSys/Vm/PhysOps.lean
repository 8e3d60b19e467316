import FreeBSDSys.Vm.PhysInv

/-!
# What the operations of the page allocator do

One specification for each operation: it keeps the invariant, and its effect on the set of free
pages is as its name says.  The loops that split a block and take out one page go down the orders,
the loop that frees a block goes up, and each is a sequence of the three basic steps.

* `freePages_spec`: freeing a loose block adds its pages.
* `split_spec`: splitting gives back all but the first `2 ^ order` pages.
* `allocPages_spec`, `allocPages_eq_none_iff`: allocation takes an aligned block of free pages, and
  fails only if there is none.
* `unfreePage_spec`: taking out one page.
* `allocContig_spec`: taking a run of pages.
-/

namespace FreeBSDSys.VmPhys

open Buddy Function List Option Set

namespace Phys

variable {s s' s1 : Phys} {seg : Seg} {m p q o n order oind pool flind pind mSet : ℕ} {F F1 : Set ℕ}

/-- **What an operation may do**: the invariant holds after it, the free pages are `F`, and pages
that are free neither before nor after keep their pool. -/
structure Moves (s s' : Phys) (F : Set ℕ) : Prop where
  inv : Inv s'
  frees : s'.frees = F
  same : SameSegs s s'
  pool : ∀ q, q ∉ s.frees → q ∉ F → s'.pool q = s.pool q

theorem Moves.refl (h : Inv s) : Moves s s s.frees := ⟨h, rfl, ⟨rfl, rfl⟩, fun _ _ _ => rfl⟩

theorem Moves.trans (h1 : Moves s s1 F1) (h2 : Moves s1 s' F) (hsub : F1 ⊆ s.frees ∪ F) :
    Moves s s' F := by
  refine ⟨h2.inv, h2.frees, ⟨h2.same.1.trans h1.same.1, h2.same.2.trans h1.same.2⟩, fun q hq hF => ?_⟩
  have hq1 : q ∉ F1 := fun hmem => (hsub hmem).elim hq hF
  rw [h2.pool q (h1.frees ▸ hq1) hF, h1.pool q hq hq1]

/-- Two sets of pages become free, one after the other. -/
theorem Moves.put {A B C : Set ℕ} (h1 : Moves s s1 (s.frees ∪ A)) (h2 : Moves s1 s' (s1.frees ∪ B))
    (hC : A ∪ B = C) : Moves s s' (s.frees ∪ C) := by
  rw [h1.frees, union_assoc, hC] at h2
  exact h1.trans h2 fun x hx => .inr (hx.imp_right fun hA => hC ▸ .inl hA)

section

variable (h : Inv s) (hl : Loose s seg p o)
  (hbuddy : o + 1 < vmNfreeorder → seg.Contains (buddy p o) → s.order (buddy p o) ≠ o)

include h hl hbuddy

/-- The basic steps as moves. -/
theorem Inv.insertHead (hpool : s.pool p = pool) :
    Moves s (s.insertHead seg.flind pool o p) (s.frees ∪ block p o) := by
  subst hpool
  exact ⟨h.insert hl hbuddy (fun _ => .refl _) fun _ => rfl, frees_insert hl .., ⟨rfl, rfl⟩,
    fun _ _ _ => rfl⟩

theorem Inv.insertTail : Moves s (s.insertTail seg.flind (s.pool p) o p) (s.frees ∪ block p o) :=
  ⟨h.insert hl hbuddy (fun _ => perm_append_singleton ..) fun _ => rfl, frees_insert hl ..,
    ⟨rfl, rfl⟩, fun _ _ _ => rfl⟩

end

theorem Inv.remove_moves (h : Inv s) (hp : s.order p < vmNfreeorder) (hseg : s.segOf p = some seg) :
    Moves s (s.remove seg.flind (s.pool p) (s.order p) p) (s.frees \ block p (s.order p)) :=
  ⟨h.remove hp hseg, frees_remove h hp .., ⟨rfl, rfl⟩, fun _ _ _ => rfl⟩

/-- Setting the pool of pages that are not free, seen from a state in which they were free. -/
theorem Moves.setPool (h : Moves s s1 F) (hpool : pool < vmNfreepool)
    (hwas : ∀ q ∈ block p o, q ∈ s.frees) (hnf : ∀ q ∈ block p o, q ∉ F) :
    Moves s (s1.vmPhysSetPool pool p o) F := by
  refine ⟨h.inv.setPool hpool fun q hq => h.frees ▸ hnf q hq, h.frees, h.same, fun q hq hF => ?_⟩
  rw [← h.pool q hq hF]
  exact if_neg fun hmem => hq (hwas q hmem)

/-! ## Loose blocks -/

theorem Loose.sub (h : Loose s seg p o) {a : ℕ} (ha : a ≤ o) (hq : 2 ^ a ∣ q)
    (hsub : block q a ⊆ block p o) : Loose s seg q a where
  order_lt := ha.trans_lt h.order_lt
  dvd := hq
  seg_mem := h.seg_mem
  inside x hx := h.inside x (hsub hx)
  not_free x hx := h.not_free x (hsub hx)
  uniform x hx := (h.uniform x (hsub hx)).trans (h.uniform q (hsub (self_mem_block ..))).symm

/-- A loose block stays loose when other pages become free. -/
theorem Loose.frame (h : Loose s seg p o) (hm : Moves s s' F) (hF : ∀ q ∈ block p o, q ∉ F) :
    Loose s' seg p o where
  order_lt := h.order_lt
  dvd := h.dvd
  seg_mem := hm.same.1 ▸ h.seg_mem
  inside := h.inside
  not_free q hq := hm.frees ▸ hF q hq
  uniform q hq := by
    rw [hm.pool q (h.not_free q hq) (hF q hq),
      hm.pool p (h.not_free p (self_mem_block ..)) (hF p (self_mem_block ..)), h.uniform q hq]

theorem Loose.order_eq (h : Loose s seg p o) (hi : Inv s) (hq : q ∈ block p o) :
    s.order q = vmNfreeorder :=
  not_head_of_notMem hi.tiling (h.not_free q hq)

/-- The halves of a loose block. -/
theorem Loose.halves (hl : Loose s seg p (o + 1)) :
    Loose s seg p o ∧ Loose s seg (buddy p o) o ∧ s.pool (buddy p o) = s.pool p ∧
      block p o ∪ block (buddy p o) o = block p (o + 1) := by
  have hbuddy : buddy p o = p + 2 ^ o := buddy_of_dvd hl.dvd
  have hdvd : 2 ^ o ∣ p := (Nat.pow_dvd_pow 2 (Nat.le_succ o)).trans hl.dvd
  have hunion : block p o ∪ block (buddy p o) o = block p (o + 1) := by
    ext x
    simp only [mem_union, mem_block]
    omega
  refine ⟨hl.sub (Nat.le_succ o) hdvd (hunion ▸ subset_union_left),
    hl.sub (Nat.le_succ o) (buddy_dvd hdvd) (hunion ▸ subset_union_right), hl.uniform _ ?_, hunion⟩
  rw [← hunion]
  exact .inr (self_mem_block ..)

/-- One half of a loose block becomes free, and then the other one but for `X`. -/
theorem Inv.half (h : Inv s) {r : ℕ} (hq : Loose s seg q o) (hr : Loose s seg r o)
    (hb : buddy r o = q) (hlt : o + 1 < vmNfreeorder) (hpool : s.pool r = pool) :
    Inv (s.insertHead seg.flind pool o r) ∧ Loose (s.insertHead seg.flind pool o r) seg q o ∧
      ∀ {s' : Phys} {X : Set ℕ}, (∀ x ∈ block r o, x ∉ X) →
        Moves (s.insertHead seg.flind pool o r) s'
          ((s.insertHead seg.flind pool o r).frees ∪ (block q o \ X)) →
        Moves s s' (s.frees ∪ ((block q o ∪ block r o) \ X)) := by
  subst hb
  -- the buddy of the half that is inserted is the other one, whose pages are not free
  have hins := h.insertHead hr (fun _ _ => by rw [hq.order_eq h (self_mem_block ..)]; omega) hpool
  refine ⟨hins.inv, hq.frame hins fun x hx hmem => ?_, fun hX hrest => hins.put hrest ?_⟩
  · exact hmem.elim (hq.not_free x hx) fun hx' => notMem_block_buddy hr.dvd hx' hx
  · ext x
    have := hX x
    simp only [mem_union, mem_sdiff]
    tauto

/-- A free block, once off its queue, is loose. -/
theorem Inv.loose_of_head (h : Inv s) (hp : s.order p < vmNfreeorder) (hseg : s.segOf p = some seg) :
    Loose (s.remove seg.flind (s.pool p) (s.order p) p) seg p (s.order p) where
  order_lt := hp
  dvd := h.tiling.aligned p hp
  seg_mem := ((segOf_iff h.segs).mp hseg).1
  inside q hq := contains_of_within h.segs (h.tiling.within p hp) hseg hq
  not_free q hq := by
    rw [frees_remove h hp]
    exact fun hmem => hmem.2 hq
  uniform q hq := h.uniform p hp q hq

/-- After a block has been taken off its queue, its pages are given the pool `pool`, unless they
have it already. -/
theorem Moves.repool (hm : Moves s s1 F) (hl : Loose s1 seg p o) (hwas : block p o ⊆ s.frees)
    (hpool : pool < vmNfreepool) (s' : Phys)
    (hs : s' = s1.vmPhysSetPool pool p o ∨ s' = s1 ∧ s1.pool p = pool) :
    Moves s s' F ∧ Loose s' seg p o ∧ (∀ q ∈ block p o, s'.pool q = pool) ∧
      ∀ q, q ∉ block p o → s'.pool q = s1.pool q := by
  rcases hs with rfl | ⟨rfl, hsame⟩
  · have hset : ∀ q ∈ block p o, (s1.vmPhysSetPool pool p o).pool q = pool := fun q hq => if_pos hq
    refine ⟨hm.setPool hpool hwas fun q hq => hm.frees ▸ hl.not_free q hq, ?_, hset,
      fun q hq => if_neg hq⟩
    exact ⟨hl.order_lt, hl.dvd, hl.seg_mem, hl.inside, hl.not_free,
      fun q hq => (hset q hq).trans (hset p (self_mem_block ..)).symm⟩
  · exact ⟨hm, hl, fun q hq => (hl.uniform q hq).trans hsame, fun _ _ => rfl⟩

/-! ## Freeing -/

section

variable (h : Inv s) (hl : Loose s seg m order)

include h hl

/-- The free buddy of a loose block is taken off its queue, given the same pool, and joined. -/
theorem Inv.join (hlt : order + 1 < vmNfreeorder)
    (hin : seg.Contains (buddy m order)) (hord : s.order (buddy m order) = order) (s' : Phys)
    (hs : s' = (s.remove seg.flind (s.pool (buddy m order)) order (buddy m order)).vmPhysSetPool
        (s.pool m) (buddy m order) order ∨
      s' = s.remove seg.flind (s.pool (buddy m order)) order (buddy m order) ∧
        s.pool (buddy m order) = s.pool m) :
    Moves s s' (s.frees \ block (buddy m order) order) ∧ block (buddy m order) order ⊆ s.frees ∧
      Loose s' seg (base m (order + 1)) (order + 1) := by
  have hhead : s.order (buddy m order) < vmNfreeorder := by omega
  have hseg : s.segOf (buddy m order) = some seg := (segOf_iff h.segs).mpr ⟨hl.seg_mem, hin⟩
  have hrem := h.remove_moves hhead hseg
  have hlb := h.loose_of_head hhead hseg
  rw [hord] at hrem hlb
  have hwas : block (buddy m order) order ⊆ s.frees := fun q hq =>
    ⟨buddy m order, hhead, by rwa [hord]⟩
  obtain ⟨hmov, -, hpin, hpout⟩ := hrem.repool hlb hwas (h.pool_lt m) s' hs
  have hpool q (hq : q ∈ block (base m (order + 1)) (order + 1)) : s'.pool q = s.pool m := by
    rcases (mem_block_base hl.dvd).mp hq with hq | hq
    · rw [hpout q (notMem_block_buddy hl.dvd hq)]
      exact hl.uniform q hq
    · exact hpin q hq
  refine ⟨hmov, hwas, ⟨hlt, base_dvd .., hmov.same.1 ▸ hl.seg_mem, fun q hq => ?_, fun q hq => ?_,
    fun q hq => ?_⟩⟩
  · rcases (mem_block_base hl.dvd).mp hq with hq | hq
    · exact hl.inside q hq
    · exact hlb.inside q hq
  · rw [hmov.frees]
    rcases (mem_block_base hl.dvd).mp hq with hq | hq
    · exact fun hmem => hl.not_free q hq hmem.1
    · exact fun hmem => hmem.2 hq
  · rw [hpool q hq, hpool _ (self_mem_block ..)]

theorem freeLoop_spec (hn : order + n + 1 = vmNfreeorder) :
    Moves s (freeLoop seg n m order s) (s.frees ∪ block m order) := by
  induction n generalizing s m order with
  | zero => exact h.insertTail hl fun hlt => absurd hlt (by omega)
  | succ n ih =>
    unfold freeLoop
    dsimp only
    split
    · rename_i hout
      exact h.insertTail hl fun _ hin => absurd hin hout
    · rename_i hin
      rw [not_not] at hin
      split
      · rename_i hne
        exact h.insertTail hl fun _ _ => hne
      · rename_i hord
        rw [not_not] at hord
        rw [hord]
        obtain ⟨hmov, hsub, hloose⟩ := h.join hl (by omega) hin hord (if _ then _ else _)
          (by
            split
            · exact .inl rfl
            · rename_i hsame
              exact .inr ⟨rfl, not_not.mp hsame⟩)
        have hrec := ih hmov.inv hloose (by omega)
        -- what the join took off the queues comes back with the larger block
        have hset : s.frees \ block (buddy m order) order ∪ block (base m (order + 1)) (order + 1) =
            s.frees ∪ block m order := by
          ext x
          have := @hsub x
          simp only [mem_union, mem_sdiff, mem_block_base hl.dvd]
          tauto
        rw [hmov.frees, hset] at hrec
        exact hmov.trans hrec fun x hx => .inl hx.1

/-- **Freeing** a loose block makes its pages free. -/
theorem freePages_spec : Moves s (s.vmPhysFreePages m order) (s.frees ∪ block m order) := by
  have hlt := hl.order_lt
  have hseg : s.segOf m = some seg := hl.segOf h.segs (self_mem_block ..)
  simp only [vmPhysFreePages, hseg]
  exact freeLoop_spec h hl (by unfold vmNfreeorder at hlt ⊢; omega)

end

/-- A single page that is not free is a loose block. -/
theorem loose_page (hseg : seg ∈ s.segs) (hin : seg.Contains p) (hnf : p ∉ s.frees) :
    Loose s seg p 0 :=
  ⟨by decide, one_dvd _, hseg, fun q hq => mem_block_zero.mp hq ▸ hin,
    fun q hq => mem_block_zero.mp hq ▸ hnf, fun q hq => mem_block_zero.mp hq ▸ rfl⟩

theorem addPage_spec (h : Inv s) (hnf : p ∉ s.frees) (hadd : s.vmPhysAddPage p = some s') :
    Moves s s' (s.frees ∪ block p 0) := by
  unfold vmPhysAddPage at hadd
  split at hadd
  · cases hadd
  · rename_i seg hseg
    obtain ⟨hmem, hin⟩ := (segOf_iff h.segs).mp hseg
    cases hadd
    have hset : { s with pool := update s.pool p vmFreepoolDefault } =
        s.vmPhysSetPool vmFreepoolDefault p 0 := by
      congr
      funext q
      by_cases hq : q = p
      · rw [hq, update_self, if_pos (by simp)]
      · rw [update_of_ne hq, if_neg (by simp; omega)]
    have hinv : Inv (s.vmPhysSetPool vmFreepoolDefault p 0) :=
      h.setPool (by decide) fun q hq => mem_block_zero.mp hq ▸ hnf
    rw [hset]
    have hfree := freePages_spec hinv (loose_page hmem hin hnf)
    refine ⟨hfree.inv, hfree.frees, hfree.same, fun q hq hF => ?_⟩
    rw [hfree.pool q hq hF]
    exact if_neg fun hmem => hF (.inr hmem)

/-- Freeing a run of pages one by one. -/
theorem freeRun_spec (h : Inv s) (hseg : seg ∈ s.segs)
    (hrun : ∀ q, m ≤ q → q < m + n → seg.Contains q ∧ q ∉ s.frees) :
    Moves s (freeRun n m s) (s.frees ∪ Set.Ico m (m + n)) := by
  induction n generalizing s m with
  | zero => simpa [freeRun] using Moves.refl h
  | succ n ih =>
    obtain ⟨hin, hnf⟩ := hrun m le_rfl (by omega)
    have hfree := freePages_spec h (loose_page hseg hin hnf)
    have hrest := ih hfree.inv (hfree.same.1 ▸ hseg) (m := m + 1) fun q hle hlt => by
      obtain ⟨hin, hnf⟩ := hrun q (by omega) (by omega)
      rw [hfree.frees]
      refine ⟨hin, fun hmem => hmem.elim hnf fun hq => ?_⟩
      rw [mem_block_zero] at hq
      omega
    refine hfree.put hrest ?_
    ext x
    simp only [mem_union, mem_Ico, mem_block_zero]
    omega

/-! ## Splitting and allocation -/

/-- **Splitting** a loose block gives back all of it but its first `2 ^ order` pages. -/
theorem split_spec (h : Inv s) (hl : Loose s seg m oind) (hpool : s.pool m = pool) (order : ℕ) :
    Moves s (vmPhysSplitPages m seg.flind pool order oind s)
      (s.frees ∪ (block m oind \ block m order)) := by
  induction oind generalizing s with
  | zero =>
    rw [sdiff_eq_empty.mpr (block_mono m (Nat.zero_le order)), union_empty]
    exact Moves.refl h
  | succ oind ih =>
    unfold vmPhysSplitPages
    split_ifs with hgt
    · obtain ⟨hlow, hhigh, hsame, hunion⟩ := hl.halves
      obtain ⟨hinv, hlow', hrest⟩ :=
        h.half hlow hhigh (buddy_buddy ..) hl.order_lt (hsame.trans hpool)
      rw [← buddy_of_dvd hl.dvd, ← hunion]
      refine hrest (fun x hx hx' => ?_) (ih hinv hlow' hpool)
      exact notMem_block_buddy hlow.dvd (block_mono m (Nat.le_of_lt_succ hgt) hx') hx
    · rw [sdiff_eq_empty.mpr (block_mono m (not_lt.mp hgt)), union_empty]
      exact Moves.refl h

theorem mem_orders {o order : ℕ} : o ∈ orders order ↔ order ≤ o ∧ o < vmNfreeorder := by
  unfold orders
  rw [mem_range'_1]
  omega

/-- What the search for a block finds is the first page of a queue of that free list. -/
theorem mem_of_findBlock (hf : s.findBlock pool order flind = some (pind, oind, m)) :
    m ∈ (s.queues flind pind oind).pl ∧ order ≤ oind := by
  unfold findBlock at hf
  rw [or_eq_some_iff] at hf
  rcases hf with hf | ⟨-, hf⟩
  · obtain ⟨o, ho, hm⟩ := exists_of_findSome?_eq_some hf
    rw [map_eq_some_iff] at hm
    obtain ⟨x, hx, heq⟩ := hm
    obtain ⟨rfl, rfl, rfl⟩ := heq
    exact ⟨mem_of_mem_head? hx, (mem_orders.mp ho).1⟩
  · obtain ⟨o, ho, hm⟩ := exists_of_findSome?_eq_some hf
    obtain ⟨pl, -, hm⟩ := exists_of_findSome?_eq_some hm
    rw [map_eq_some_iff] at hm
    obtain ⟨x, hx, heq⟩ := hm
    obtain ⟨rfl, rfl, rfl⟩ := heq
    exact ⟨mem_of_mem_head? hx, (mem_orders.mp (mem_reverse.mp ho)).1⟩

/-- The search fails only if all queues of the free list for the orders asked for are empty. -/
theorem queue_of_findBlock_none (hpind : pind < vmNfreepool)
    (hf : s.findBlock pool order flind = none) (hle : order ≤ oind) (hlt : oind < vmNfreeorder) :
    (s.queues flind pind oind).pl = [] := by
  unfold findBlock at hf
  rw [or_eq_none_iff] at hf
  have ho := findSome?_eq_none_iff.mp hf.2 oind (mem_reverse.mpr (mem_orders.mpr ⟨hle, hlt⟩))
  have hp := findSome?_eq_none_iff.mp ho pind (mem_range.mpr hpind)
  rwa [map_eq_none_iff, head?_eq_none_iff] at hp

/-- **Allocation** takes an aligned block of free pages in one segment and leaves the rest free; the
pages have the pool asked for. -/
theorem allocPages_spec (h : Inv s) (hpool : pool < vmNfreepool)
    (ha : s.vmPhysAllocPages pool order = some (m, s')) :
    2 ^ order ∣ m ∧ Within s.segOf m order ∧ block m order ⊆ s.frees ∧
      Moves s s' (s.frees \ block m order) ∧ ∀ q ∈ block m order, s'.pool q = pool := by
  unfold vmPhysAllocPages at ha
  rw [map_eq_some_iff] at ha
  obtain ⟨⟨flind, pind, oind, m'⟩, hfind, heq⟩ := ha
  obtain ⟨flind', -, hmap⟩ := exists_of_findSome?_eq_some hfind
  rw [map_eq_some_iff] at hmap
  obtain ⟨found, hfound, hpair⟩ := hmap
  cases hpair
  obtain ⟨hmem, hle⟩ := mem_of_findBlock hfound
  obtain ⟨⟨hord, hlt⟩, hpl, hfl⟩ := (h.mem_queue ..).mp hmem
  obtain ⟨seg, hseg, rfl⟩ := Option.map_eq_some_iff.mp hfl
  subst hord hpl
  have hrem := h.remove_moves hlt hseg
  have hlb := h.loose_of_head hlt hseg
  have hwas : block m' (s.order m') ⊆ s.frees := fun q hq => ⟨m', hlt, hq⟩
  obtain ⟨hmov, hloose, hpin, -⟩ := hrem.repool hlb hwas hpool (if _ then _ else _)
    (by
      split
      · rename_i hsame
        exact .inr ⟨rfl, hsame⟩
      · exact .inl rfl)
  have hsplit := split_spec hmov.inv hloose (hpin m' (self_mem_block ..)) order
  have hsub : block m' order ⊆ block m' (s.order m') := block_mono m' hle
  rw [hmov.frees, sdiff_union_sdiff_cancel hwas hsub] at hsplit
  obtain ⟨rfl, rfl⟩ := Prod.mk.inj heq
  refine ⟨(Nat.pow_dvd_pow 2 hle).trans (h.tiling.aligned m' hlt), (h.tiling.within m' hlt).mono hsub,
    hsub.trans hwas, hmov.trans hsplit fun x hx => .inl hx.1, fun q hq => ?_⟩
  have hkeep := hsplit.pool q (hloose.not_free q (hsub hq)) fun hmem => hmem.2 hq
  exact hkeep.trans (hpin q (hsub hq))

/-- Allocation fails only if no aligned block of free pages of that order lies in one segment. -/
theorem allocPages_eq_none_iff (h : Inv s) (hpool : pool < vmNfreepool)
    (horder : order < vmNfreeorder) :
    s.vmPhysAllocPages pool order = none ↔
      ¬ ∃ p, 2 ^ order ∣ p ∧ Within s.segOf p order ∧ block p order ⊆ s.frees := by
  constructor
  · rintro hnone ⟨p, hdvd, hin, hfree⟩
    -- by coalescing the pages lie in one block, whose queue is not empty
    obtain ⟨q, hle, hlt, hmem⟩ := exists_large_block h.tiling h.coalesced horder hdvd hin hfree
    obtain ⟨seg, hseg⟩ := h.tiling.within q hlt
    have hq : s.segOf q = some seg := hseg q (self_mem_block ..)
    have hqueue : q ∈ (s.queues seg.flind (s.pool q) (s.order q)).pl :=
      (h.mem_queue ..).mpr ⟨⟨rfl, hlt⟩, rfl, by rw [hq, map_some]⟩
    unfold vmPhysAllocPages at hnone
    rw [map_eq_none_iff] at hnone
    have hflind := h.segs.flind_lt seg ((segOf_iff h.segs).mp hq).1
    have hfind := findSome?_eq_none_iff.mp hnone seg.flind (mem_range.mpr hflind)
    rw [map_eq_none_iff] at hfind
    rw [queue_of_findBlock_none (h.pool_lt q) hfind hle hlt] at hqueue
    exact absurd hqueue not_mem_nil
  · intro hno
    cases ha : s.vmPhysAllocPages pool order with
    | none => rfl
    | some r =>
      obtain ⟨hdvd, hin, hfree, -⟩ := allocPages_spec h hpool ha
      exact absurd ⟨r.1, hdvd, hin, hfree⟩ hno

/-! ## Taking out one page -/

/-- Where the search for the block around `m` ends: at the start of an aligned block around `m`. -/
theorem findSet_spec (hm : seg.Contains m) (hbase : seg.start ≤ base m order)
    (hf : s.findSet seg m n (base m order) order = some (mSet, o)) :
    mSet = base m o ∧ seg.Contains mSet := by
  have hle : base m o ≤ m := (mem_block_base_self m o).1
  induction n generalizing order with
  | zero =>
    cases hf
    exact ⟨rfl, hbase, hle.trans_lt hm.2⟩
  | succ n ih =>
    unfold findSet at hf
    split at hf
    · split_ifs at hf with hge
      exact ih hge hf
    · cases hf
      exact ⟨rfl, hbase, hle.trans_lt hm.2⟩

/-- The halves without `m` of a loose block around `m` become free. -/
theorem shrinkSet_spec (h : Inv s) (hl : Loose s seg mSet order) (hpool : s.pool mSet = pool)
    (hm : m ∈ block mSet order) :
    Moves s (shrinkSet seg.flind pool m order mSet s) (s.frees ∪ (block mSet order \ {m})) := by
  induction order generalizing s mSet with
  | zero =>
    have hone : block mSet 0 ⊆ {m} := fun x hx =>
      (mem_block_zero.mp hx).trans (mem_block_zero.mp hm).symm
    rw [sdiff_eq_empty.mpr hone, union_empty]
    exact Moves.refl h
  | succ order ih =>
    obtain ⟨hlow, hhigh, hsame, hunion⟩ := hl.halves
    rw [← hunion] at hm ⊢
    unfold shrinkSet
    dsimp only
    split_ifs with hhalf
    · have hin : m ∈ block mSet order := hm.resolve_right fun hx => absurd hx.1 (not_le.mpr hhalf)
      obtain ⟨hinv, hlow', hrest⟩ :=
        h.half hlow hhigh (buddy_buddy ..) hl.order_lt (hsame.trans hpool)
      refine hrest (fun x hx heq => ?_) (ih hinv hlow' hpool hin)
      exact notMem_block_buddy hlow.dvd hin (heq ▸ hx)
    · rw [buddy_of_dvd hl.dvd] at hhalf
      have hin : m ∈ block (buddy mSet order) order := hm.resolve_left fun hx => hhalf hx.2
      obtain ⟨hinv, hhigh', hrest⟩ := h.half hhigh hlow rfl hl.order_lt hpool
      rw [union_comm (block mSet order)]
      refine hrest (fun x hx heq => ?_) (ih hinv hhigh' (hsame.trans hpool) hin)
      exact notMem_block_buddy hlow.dvd hx (heq ▸ hin)

/-- **Taking out one page**: if it succeeds, the page was free and is the only one that no longer
is. -/
theorem unfreePage_spec (h : Inv s) (hu : s.vmPhysUnfreePage m = (s', true)) :
    m ∈ s.frees ∧ Moves s s' (s.frees \ {m}) := by
  unfold vmPhysUnfreePage at hu
  split at hu
  · cases hu
  · rename_i seg hseg
    obtain ⟨hsegm, hm⟩ := (segOf_iff h.segs).mp hseg
    split at hu
    · cases hu
    · rename_i mSet order hfind
      have hfind' : s.findSet seg m (vmNfreeorder - 1) (base m 0) 0 = some (mSet, order) := by
        rwa [base_of_dvd (by simp)]
      obtain ⟨rfl, hin⟩ := findSet_spec hm (by rw [base_of_dvd (by simp)]; exact hm.1) hfind'
      split at hu
      · cases hu
      · rename_i hge
        split_ifs at hu with hne
        · cases hu
        · obtain rfl : _ = s' := (Prod.mk.inj hu).1
          have hlt : s.order (base m order) < vmNfreeorder := lt_of_le_of_ne (h.tiling.le _) hne
          have hmem : m ∈ block (base m order) (s.order (base m order)) :=
            block_mono _ (not_lt.mp hge) (mem_block_base_self m order)
          have hwas : block (base m order) (s.order (base m order)) ⊆ s.frees :=
            fun q hq => ⟨_, hlt, hq⟩
          have hsegb : s.segOf (base m order) = some seg := (segOf_iff h.segs).mpr ⟨hsegm, hin⟩
          have hrem := h.remove_moves hlt hsegb
          have hshrink := shrinkSet_spec hrem.inv (h.loose_of_head hlt hsegb) rfl hmem
          rw [hrem.frees, sdiff_union_sdiff_cancel hwas (singleton_subset_iff.mpr hmem)] at hshrink
          exact ⟨hwas hmem, hrem.trans hshrink fun x hx => .inl hx.1⟩

/-- The search meets the head of the free block around `m`, and no other head before it. -/
theorem findSet_finds (h : Inv s) (hp : s.order p < vmNfreeorder) (hm : m ∈ block p (s.order p))
    (hseg : seg.start ≤ p) (hn : order + n + 1 = vmNfreeorder) (hle : order ≤ s.order p) :
    ∃ o ≤ s.order p, s.findSet seg m n (base m order) order = some (p, o) := by
  have hdvd := h.tiling.aligned p hp
  have hin {o : ℕ} (ho : o ≤ s.order p) : base m o ∈ block p (s.order p) :=
    block_subset (base_dvd m o) hdvd ho (mem_block_base_self m o) hm (self_mem_block ..)
  induction n generalizing order with
  | zero =>
    obtain rfl : order = s.order p := by omega
    exact ⟨_, le_rfl, by rw [findSet, base_eq hdvd hm]⟩
  | succ n ih =>
    rw [findSet]
    by_cases hhead : s.order (base m order) = vmNfreeorder
    · have hlt : order < s.order p := by
        refine hle.lt_of_ne fun heq => ?_
        rw [heq, base_eq hdvd hm] at hhead
        omega
      rw [if_pos hhead, if_pos (hseg.trans (hin hlt).1)]
      exact ih (by omega) hlt
    · have hbase : base m order = p := not_imp_comm.mp (h.tiling.lone p hp _ (hin hle)) hhead
      rw [if_neg hhead, hbase]
      exact ⟨order, hle, rfl⟩

theorem unfreePage_of_mem (h : Inv s) (hm : m ∈ s.frees) : (s.vmPhysUnfreePage m).2 = true := by
  obtain ⟨p, hp, hmem⟩ := hm
  obtain ⟨seg, hseg⟩ := h.tiling.within p hp
  obtain ⟨-, hcp⟩ := (segOf_iff h.segs).mp (hseg p (self_mem_block ..))
  have hn : 0 + (vmNfreeorder - 1) + 1 = vmNfreeorder := rfl
  obtain ⟨o, ho, hfind⟩ := findSet_finds h hp hmem hcp.1 hn (Nat.zero_le _)
  rw [base_of_dvd (by simp)] at hfind
  rw [vmPhysUnfreePage, hseg m hmem]
  simp only [hfind]
  rw [if_neg (by omega), if_neg (by omega)]

theorem unfreePage_false :
    (s.vmPhysUnfreePage m).2 = false → (s.vmPhysUnfreePage m).1 = s := by
  rw [vmPhysUnfreePage]
  split
  · exact fun _ => rfl
  · split
    · exact fun _ => rfl
    · split_ifs
      · exact fun _ => rfl
      · exact fun _ => rfl
      · nofun

end Phys

end FreeBSDSys.VmPhys
