import FreeBSDSys.Lib.Reachability
import FreeBSDSys.Vm.PhysContig

/-!
# Runs of the page allocator

The allocator starts with empty queues, pages are added, and then allocated and freed in any order.
Which pages may be freed depends on what was allocated before: a state carries, besides the
allocator, a *tag* for every page that is allocated, the same for all pages handed out by one call.
A block may be freed if it is aligned and all its pages have one tag, that is, as it was allocated
or in smaller blocks.

* `PhysStep`: the calls.
* `TagOk`: allocated pages are not free, those of one call lie in one segment and, within a block of
  the largest order, in one pool.
* `Reachable` states satisfy `BlocksOk` (`phys_blocks_ok`), and allocation in them fails only if
  there is no suitable run of free pages (`allocPages_complete`).
* `unfreePage_complete`, `allocContig_correct`: taking out one page, or a run of pages.
-/

namespace FreeBSDSys.VmPhys

open Buddy List Option Phys

/-! ## The system -/

/-- The allocator, and for each page that is allocated the call that returned it. -/
structure Sys where
  phys : Phys
  tag : ℕ → Option ℕ

open Classical in
/-- The state after a call that returns the pages `taken` under the tag `t`.  Pages that are free
now have no tag. -/
noncomputable def Sys.after (s : Sys) (phys : Phys) (taken : Set ℕ) (t : ℕ) : Sys where
  phys := phys
  tag q := if q ∈ taken then some t else if q ∈ phys.frees then none else s.tag q

/-- A tag that is not in use. -/
def Sys.Fresh (s : Sys) (t : ℕ) : Prop := ∀ p, s.tag p ≠ some t

/-- The calls of the allocator.  A call that finds nothing changes nothing. -/
inductive PhysStep (s : Sys) : Sys → Prop
  /-- `vm_phys_add_page` for a page that was not added before: neither free nor allocated. -/
  | addPage {p : ℕ} {phys : Phys} (hnew : s.tag p = none) (hnf : p ∉ s.phys.frees)
      (h : s.phys.vmPhysAddPage p = some phys) : PhysStep s (s.after phys ∅ 0)
  | allocPages {pool order m t : ℕ} {phys : Phys} (hpool : pool < vmNfreepool)
      (horder : order < vmNfreeorder) (ht : s.Fresh t)
      (h : s.phys.vmPhysAllocPages pool order = some (m, phys)) :
      PhysStep s (s.after phys (block m order) t)
  /-- `vm_phys_free_pages` for an aligned block of pages returned by one call. -/
  | freePages {m order t : ℕ} (horder : order < vmNfreeorder) (hdvd : 2 ^ order ∣ m)
      (ht : ∀ q ∈ block m order, s.tag q = some t) :
      PhysStep s (s.after (s.phys.vmPhysFreePages m order) ∅ 0)
  | unfreePage {m t : ℕ} {phys : Phys} (ht : s.Fresh t)
      (h : s.phys.vmPhysUnfreePage m = (phys, true)) : PhysStep s (s.after phys {m} t)
  /-- `vm_phys_alloc_contig`, with what reservations give back: pages that are allocated. -/
  | allocContig {a : ContigArgs} {reclaimed : List (List ℕ)} {r : Option ℕ} {t : ℕ} {phys : Phys}
      (hsize : a.size ≠ 0) (ht : s.Fresh t) (hnodup : reclaimed.flatten.Nodup)
      (htag : ∀ p ∈ reclaimed.flatten, s.tag p ≠ none)
      (h : s.phys.vmPhysAllocContig a reclaimed = some (r, phys)) :
      PhysStep s (s.after phys (taken a r) t)

/-- `phys_avail` as the machine-dependent code leaves it: disjoint ranges in ascending order, within
the 52 bits of a physical address. -/
def PhysAvailOk (physAvail : List (ℕ × ℕ)) : Prop :=
  physAvail.Pairwise (fun x y => x.2 ≤ y.1) ∧ ∀ x ∈ physAvail, x.2 ≤ 2 ^ 40

/-- The state after `vm_phys_init`. -/
def Initial (s : Sys) : Prop :=
  ∃ physAvail, PhysAvailOk physAvail ∧ s = ⟨vmPhysInit physAvail, fun _ => none⟩

/-! ## The invariant of runs -/

/-- Allocated pages are not free and lie in a segment; those returned by one call lie in one segment
and, within a block of the largest order, in one pool. -/
structure TagOk (s : Sys) : Prop where
  not_free : ∀ p, s.tag p ≠ none → p ∉ s.phys.frees
  in_seg : ∀ p, s.tag p ≠ none → s.phys.segOf p ≠ none
  seg : ∀ p q t, s.tag p = some t → s.tag q = some t → s.phys.segOf p = s.phys.segOf q
  pool : ∀ p q t, s.tag p = some t → s.tag q = some t →
    base p (vmNfreeorder - 1) = base q (vmNfreeorder - 1) → s.phys.pool p = s.phys.pool q

variable {s : Sys} {phys : Phys} {t order : ℕ} {taken F : Set ℕ} {physAvail : List (ℕ × ℕ)}

/-- What a call must satisfy for the tags to stay as they should be. -/
theorem TagOk.after (h : TagOk s) (hsame : SameSegs s.phys phys) (ht : taken.Nonempty → s.Fresh t)
    (hnf : ∀ q ∈ taken, q ∉ phys.frees)
    (hseg : ∃ seg, ∀ q ∈ taken, s.phys.segOf q = some seg)
    (hpool : ∀ q ∈ taken, ∀ q' ∈ taken, base q (vmNfreeorder - 1) = base q' (vmNfreeorder - 1) →
      phys.pool q = phys.pool q')
    (hkeep : ∀ q, q ∉ taken → q ∉ phys.frees → s.tag q ≠ none → phys.pool q = s.phys.pool q) :
    TagOk (s.after phys taken t) := by
  -- a page that has a tag afterwards was returned now, or kept its tag
  have hcases {q t' : ℕ} (hq : (s.after phys taken t).tag q = some t') :
      q ∈ taken ∧ t' = t ∨ q ∉ taken ∧ q ∉ phys.frees ∧ s.tag q = some t' := by
    simp only [Sys.after] at hq
    split_ifs at hq with hmem hfree
    · exact .inl ⟨hmem, (some.inj hq).symm⟩
    · exact .inr ⟨hmem, hfree, hq⟩
  have hsegOf : (s.after phys taken t).phys.segOf = s.phys.segOf := hsame.segOf
  obtain ⟨seg, hseg⟩ := hseg
  refine ⟨fun p hp => ?_, fun p hp => ?_, fun p q t' hp hq => ?_, fun p q t' hp hq hbase => ?_⟩
  · obtain ⟨t', ht'⟩ := Option.ne_none_iff_exists'.mp hp
    rcases hcases ht' with ⟨hmem, -⟩ | ⟨-, hfree, -⟩
    · exact hnf p hmem
    · exact hfree
  · obtain ⟨t', ht'⟩ := Option.ne_none_iff_exists'.mp hp
    rw [hsegOf]
    rcases hcases ht' with ⟨hmem, -⟩ | ⟨-, -, htag⟩
    · rw [hseg p hmem]
      exact some_ne_none _
    · exact h.in_seg p (by rw [htag]; exact some_ne_none _)
  · rw [hsegOf]
    rcases hcases hp with ⟨hpm, rfl⟩ | ⟨-, -, hpt⟩
    · rcases hcases hq with ⟨hqm, -⟩ | ⟨-, -, hqt⟩
      · rw [hseg p hpm, hseg q hqm]
      · exact absurd hqt (ht ⟨p, hpm⟩ q)
    · rcases hcases hq with ⟨hqm, rfl⟩ | ⟨-, -, hqt⟩
      · exact absurd hpt (ht ⟨q, hqm⟩ p)
      · exact h.seg p q t' hpt hqt
  · rcases hcases hp with ⟨hpm, rfl⟩ | ⟨hpm, hpf, hpt⟩
    · rcases hcases hq with ⟨hqm, -⟩ | ⟨-, -, hqt⟩
      · exact hpool p hpm q hqm hbase
      · exact absurd hqt (ht ⟨p, hpm⟩ q)
    · rcases hcases hq with ⟨hqm, rfl⟩ | ⟨hqm, hqf, hqt⟩
      · exact absurd hpt (ht ⟨q, hqm⟩ p)
      · rw [show (s.after phys taken t).phys = phys from rfl,
          hkeep p hpm hpf (by rw [hpt]; exact some_ne_none _),
          hkeep q hqm hqf (by rw [hqt]; exact some_ne_none _)]
        exact h.pool p q t' hpt hqt hbase

/-- The case of the calls whose effect is a set of moves. -/
theorem TagOk.moves (h : TagOk s) (hm : Moves s.phys phys F) (ht : taken.Nonempty → s.Fresh t)
    (hnf : ∀ q ∈ taken, q ∉ F)
    (hseg : ∃ seg, ∀ q ∈ taken, s.phys.segOf q = some seg)
    (hpool : ∀ q ∈ taken, ∀ q' ∈ taken, base q (vmNfreeorder - 1) = base q' (vmNfreeorder - 1) →
      phys.pool q = phys.pool q') :
    TagOk (s.after phys taken t) :=
  h.after hm.same ht (hm.frees ▸ hnf) hseg hpool fun q _ hq htag =>
    hm.pool q (h.not_free q htag) (hm.frees ▸ hq)

theorem TagOk.moves_none (h : TagOk s) (hm : Moves s.phys phys F) : TagOk (s.after phys ∅ 0) :=
  h.moves hm (fun hne => absurd hne Set.not_nonempty_empty) (fun q hq => absurd hq (Set.notMem_empty q))
    ⟨⟨0, 0, 0⟩, fun q hq => absurd hq (Set.notMem_empty q)⟩
    fun q hq => absurd hq (Set.notMem_empty q)

/-- An aligned block of pages returned by one call is loose. -/
theorem loose_of_tag (hi : Inv s.phys) (h : TagOk s) {m : ℕ} (horder : order < vmNfreeorder)
    (hdvd : 2 ^ order ∣ m) (ht : ∀ q ∈ block m order, s.tag q = some t) :
    ∃ seg, Loose s.phys seg m order := by
  have hm := ht m (self_mem_block ..)
  have hsome {q : ℕ} (hq : q ∈ block m order) : s.tag q ≠ none := by
    rw [ht q hq]
    exact some_ne_none _
  obtain ⟨seg, hseg⟩ := Option.ne_none_iff_exists'.mp (h.in_seg m (hsome (self_mem_block ..)))
  refine ⟨seg, horder, hdvd, ((segOf_iff hi.segs).mp hseg).1, fun q hq => ?_,
    fun q hq => h.not_free q (hsome hq), fun q hq => ?_⟩
  · have := h.seg q m t (ht q hq) hm
    exact ((segOf_iff hi.segs).mp (this.trans hseg)).2
  · -- an aligned block lies in one block of the largest order
    refine h.pool q m t (ht q hq) hm ?_
    have hsub := block_subset hdvd (base_dvd m (vmNfreeorder - 1)) (by omega : order ≤ vmNfreeorder - 1)
      (self_mem_block m order) (mem_block_base_self ..)
    exact base_eq (base_dvd ..) (hsub hq)

/-- **One call** keeps the invariant and the tags. -/
theorem PhysStep.preserves {s' : Sys} (hi : Inv s.phys) (h : TagOk s) (hs : PhysStep s s') :
    Inv s'.phys ∧ TagOk s' := by
  cases hs with
  | addPage hnew hnf hadd =>
    have hm := addPage_spec hi hnf hadd
    exact ⟨hm.inv, h.moves_none hm⟩
  | allocPages hpool horder ht ha =>
    obtain ⟨hdvd, ⟨seg, hseg⟩, hfree, hm, hpl⟩ := allocPages_spec hi hpool ha
    refine ⟨hm.inv, h.moves hm (fun _ => ht) (fun q hq hmem => hmem.2 hq) ⟨seg, hseg⟩ ?_⟩
    intro q hq q' hq' _
    rw [hpl q hq, hpl q' hq']
  | freePages horder hdvd ht =>
    obtain ⟨seg, hl⟩ := loose_of_tag hi h horder hdvd ht
    have hm := freePages_spec hi hl
    exact ⟨hm.inv, h.moves_none hm⟩
  | unfreePage ht hu =>
    obtain ⟨hfree, hm⟩ := unfreePage_spec hi hu
    obtain ⟨p, hp, hmem⟩ := hfree
    obtain ⟨seg, hseg⟩ := hi.tiling.within p hp
    refine ⟨hm.inv, h.moves hm (fun _ => ht) (fun q hq hmem => hmem.2 hq) ⟨seg, fun q hq => ?_⟩ ?_⟩
    · exact hq ▸ hseg _ hmem
    · intro q hq q' hq' _
      rw [hq, hq']
  | @allocContig a reclaimed r t phys hsize ht hnodup htag ha =>
    obtain ⟨R, hR, hc⟩ := allocContig_spec hi (npages_pos hsize) hnodup
      (fun p hp => ⟨h.not_free p (htag p hp), h.in_seg p (htag p hp)⟩) ha
    refine ⟨hc.inv, h.after hc.same (fun _ => ht) (fun q hq hmem => ?_) hc.taken_seg hc.taken_pool
      fun q hq hqf hqt => ?_⟩
    · rw [hc.frees] at hmem
      exact hmem.2 hq
    · -- a page that was given back is free now, or was returned
      refine hc.pool q (h.not_free q hqt) fun hqR => hqf ?_
      rw [hc.frees]
      exact ⟨.inr hqR, hq⟩

/-! ## The initial state -/

theorem createSegs_bounds {x : ℕ × ℕ} {seg : Seg} (h : seg ∈ createSegs x) :
    x.1 ≤ seg.start ∧ seg.stop ≤ x.2 ∧ (seg.flind = vmFreelistIsadma ∧ x.1 < 4096 ∨
      seg.flind = vmFreelistDefault) := by
  unfold createSegs at h
  split at h
  · rename_i hlt
    split at h
    · simp only [mem_cons, not_mem_nil, or_false] at h
      rcases h with rfl | rfl
      · exact ⟨le_rfl, by dsimp only; omega, .inl ⟨rfl, hlt⟩⟩
      · exact ⟨by dsimp only; omega, le_rfl, .inr rfl⟩
    · rw [mem_singleton] at h
      subst h
      exact ⟨le_rfl, le_rfl, .inl ⟨rfl, hlt⟩⟩
  · rw [mem_singleton] at h
    subst h
    exact ⟨le_rfl, le_rfl, .inr rfl⟩

theorem createSegs_apart (x : ℕ × ℕ) : (createSegs x).Pairwise Seg.Apart := by
  unfold createSegs
  split
  · split
    · rw [pairwise_pair]
      intro p hp
      have h1 := hp.1.2
      have h2 := hp.2.1
      dsimp only at h1 h2
      omega
    · exact pairwise_singleton ..
  · exact pairwise_singleton ..

theorem segsOk_init (h : PhysAvailOk physAvail) :
    SegsOk (vmPhysInit physAvail).segs (vmPhysInit physAvail).nfreelists := by
  refine ⟨?_, fun seg hseg => ?_, fun seg hseg => ?_⟩
  · rw [vmPhysInit, pairwise_flatMap]
    refine ⟨fun x _ => createSegs_apart x, h.1.imp fun {x y} hxy seg hseg seg' hseg' p hp => ?_⟩
    have h1 := (createSegs_bounds hseg).2.1
    have h2 := (createSegs_bounds hseg').1
    have h3 := hp.1.2
    have h4 := hp.2.1
    omega
  · obtain ⟨x, hx, hmem⟩ := mem_flatMap.mp hseg
    exact (createSegs_bounds hmem).2.1.trans (h.2 x hx)
  · obtain ⟨x, hx, hmem⟩ := mem_flatMap.mp hseg
    rcases (createSegs_bounds hmem).2.2 with ⟨hfl, hlt⟩ | hfl
    · have : (physAvail.any fun avail => avail.1 < 4096) = true :=
        any_eq_true.mpr ⟨x, hx, by simpa using hlt⟩
      rw [hfl, vmPhysInit, if_pos this]
      exact Nat.lt_succ_self _
    · rw [hfl, vmPhysInit]
      dsimp only
      split <;> decide

theorem inv_init (h : PhysAvailOk physAvail) : Inv (vmPhysInit physAvail) where
  segs := segsOk_init h
  tiling := ⟨fun _ => le_rfl, fun _ hp => absurd hp (lt_irrefl _), fun _ hp => absurd hp (lt_irrefl _),
    fun _ hp => absurd hp (lt_irrefl _)⟩
  coalesced _ hp := absurd hp (by simp [vmPhysInit])
  uniform _ hp := absurd hp (lt_irrefl _)
  pool_lt _ := (by decide : vmFreepoolDefault < vmNfreepool)
  mem_queue flind pool o p := by
    refine iff_of_false not_mem_nil fun hp => ?_
    have : vmNfreeorder = o := hp.1.1
    omega
  nodup _ _ _ := nodup_nil
  lcnt _ _ _ := rfl

/-- Every reachable state satisfies the invariant. -/
theorem Reachable.inv (h : Reachable Initial PhysStep s) : Inv s.phys ∧ TagOk s := by
  refine Reachable.invariant (I := fun s => Inv s.phys ∧ TagOk s) ?_ ?_ h
  · rintro _ ⟨physAvail, hok, rfl⟩
    exact ⟨inv_init hok, ⟨fun _ => absurd rfl, fun _ hp => absurd rfl hp,
      fun _ _ _ hp => absurd hp (by simp), fun _ _ _ hp => absurd hp (by simp)⟩⟩
  · rintro s s' ⟨hi, ht⟩ hs
    exact hs.preserves hi ht

/-! ## The results -/

/-- **The blocks on the free queues are as they should be.** -/
structure BlocksOk (s : Phys) : Prop where
  /-- Two places in the queues hold disjoint blocks, … -/
  disjoint : ∀ flind pool o p flind' pool' o' p', p ∈ (s.queues flind pool o).pl →
    p' ∈ (s.queues flind' pool' o').pl → (flind, pool, o, p) ≠ (flind', pool', o', p') →
    Disjoint (block p o) (block p' o')
  /-- … and no queue holds a block twice. -/
  nodup : ∀ flind pool o, (s.queues flind pool o).pl.Nodup
  /-- A block is aligned and lies inside one segment, of the free list of the queue. -/
  inside : ∀ flind pool o p, p ∈ (s.queues flind pool o).pl →
    2 ^ o ∣ p ∧ ∃ seg ∈ s.segs, seg.flind = flind ∧ ∀ q ∈ block p o, seg.Contains q
  /-- The head names the queue, and no other page of the block does. -/
  order : ∀ flind pool o p, p ∈ (s.queues flind pool o).pl →
    s.order p = o ∧ ∀ q ∈ block p o, q ≠ p → s.order q = vmNfreeorder
  /-- All pages of the block carry the pool of the queue. -/
  pool : ∀ flind pool o p, p ∈ (s.queues flind pool o).pl → ∀ q ∈ block p o, s.pool q = pool
  lcnt : ∀ flind pool o, (s.queues flind pool o).lcnt = (s.queues flind pool o).pl.length
  /-- Two buddies inside a segment are not both free blocks of one order below the largest. -/
  coalesced : ∀ flind pool o p, p ∈ (s.queues flind pool o).pl → o < vmNfreeorder - 1 →
    ∀ seg ∈ s.segs, seg.Contains p → seg.Contains (buddy p o) →
      ∀ flind' pool', buddy p o ∉ (s.queues flind' pool' o).pl

theorem Phys.Inv.blocksOk {s : Phys} (h : Inv s) : BlocksOk s where
  disjoint flind pool o p flind' pool' o' p' hp hp' hne := by
    obtain ⟨⟨rfl, hlt⟩, rfl, hfl⟩ := (h.mem_queue ..).mp hp
    obtain ⟨⟨rfl, hlt'⟩, rfl, hfl'⟩ := (h.mem_queue ..).mp hp'
    rw [Set.disjoint_left]
    intro x hx hx'
    obtain rfl := h.tiling.eq_of_mem hlt hlt' hx hx'
    rw [hfl, some.injEq] at hfl'
    exact hne (by rw [hfl'])
  nodup := h.nodup
  inside flind pool o p hp := by
    obtain ⟨⟨rfl, hlt⟩, rfl, hfl⟩ := (h.mem_queue ..).mp hp
    obtain ⟨seg, hseg, rfl⟩ := Option.map_eq_some_iff.mp hfl
    exact ⟨h.tiling.aligned p hlt, seg, ((segOf_iff h.segs).mp hseg).1, rfl,
      fun _ => contains_of_within h.segs (h.tiling.within p hlt) hseg⟩
  order flind pool o p hp := by
    obtain ⟨⟨rfl, hlt⟩, -⟩ := (h.mem_queue ..).mp hp
    exact ⟨rfl, h.tiling.lone p hlt⟩
  pool flind pool o p hp q hq := by
    obtain ⟨⟨rfl, hlt⟩, rfl, -⟩ := (h.mem_queue ..).mp hp
    exact h.uniform p hlt q hq
  lcnt := h.lcnt
  coalesced flind pool o p hp hlt seg hseg hin hinb flind' pool' hb := by
    obtain ⟨⟨rfl, -⟩, -⟩ := (h.mem_queue ..).mp hp
    obtain ⟨⟨hob, -⟩, -⟩ := (h.mem_queue ..).mp hb
    refine h.coalesced p (by omega) ?_ hob
    rw [(segOf_iff h.segs).mpr ⟨hseg, hinb⟩, (segOf_iff h.segs).mpr ⟨hseg, hin⟩]

/-! A concrete run: two pages that are buddies are added, and one of them is allocated. -/

/-- One segment of eight pages. -/
def eightPages : Phys := vmPhysInit [(4096, 4104)]

def onePageFree : Phys := (eightPages.vmPhysAddPage 4096).getD eightPages

def twoPagesFree : Phys := (onePageFree.vmPhysAddPage 4097).getD onePageFree

def onePageTaken : Phys := ((twoPagesFree.vmPhysAllocPages 1 0).map Prod.snd).getD twoPagesFree

theorem reachable_twoPagesFree :
    ∃ s, Reachable Initial PhysStep s ∧ s.phys = twoPagesFree ∧ ∀ p, s.tag p = none := by
  have h0 : Reachable Initial PhysStep ⟨eightPages, fun _ => none⟩ :=
    .of_init ⟨[(4096, 4104)], ⟨by simp, by simp⟩, rfl⟩
  have hi0 := (Reachable.inv h0).1
  have hnf0 : ∀ p, p ∉ eightPages.frees := fun p ⟨q, hq, _⟩ => absurd hq (lt_irrefl _)
  have hadd : eightPages.vmPhysAddPage 4096 = some onePageFree := rfl
  have h1 := h0.tail (PhysStep.addPage rfl (hnf0 _) hadd)
  have hf1 := (addPage_spec hi0 (hnf0 4096) hadd).frees
  have hadd' : onePageFree.vmPhysAddPage 4097 = some twoPagesFree := rfl
  have hnf1 : 4097 ∉ onePageFree.frees := by
    rw [hf1]
    exact fun hmem => hmem.elim (hnf0 _) fun hb => absurd hb.2 (by decide)
  have hno {s : Sys} phys (hs : ∀ p, s.tag p = none) :
      ∀ p, (s.after phys ∅ 0).tag p = none := fun p => by simp [Sys.after, hs]
  have htag1 := hno onePageFree (s := ⟨eightPages, fun _ => none⟩) fun _ => rfl
  exact ⟨_, h1.tail (PhysStep.addPage (htag1 _) hnf1 hadd'), rfl, hno twoPagesFree htag1⟩

/-- **The invariant of the page allocator.** -/
theorem phys_blocks_ok (h : Reachable Initial PhysStep s) : BlocksOk s.phys :=
  (Reachable.inv h).1.blocksOk

theorem phys_blocks_ok_taken : onePageTaken.queues 0 1 0 = ⟨[4097], 1⟩ ∧ BlocksOk onePageTaken := by
  obtain ⟨s, hr, hs, htag⟩ := reachable_twoPagesFree
  have halloc : s.phys.vmPhysAllocPages 1 0 = some (4096, onePageTaken) := by rw [hs]; rfl
  have hr' := hr.tail (PhysStep.allocPages (t := 0) (by decide) (by decide)
    (fun p => by simp [htag]) halloc)
  exact ⟨by decide, phys_blocks_ok hr'⟩

/-- The pages of the blocks on the free queues. -/
def Phys.queued (s : Phys) : Set ℕ :=
  {q | ∃ flind pool o p, p ∈ (s.queues flind pool o).pl ∧ q ∈ block p o}

theorem Phys.Inv.queued_eq {s : Phys} (h : Inv s) : s.queued = s.frees := by
  ext q
  constructor
  · rintro ⟨flind, pool, o, p, hp, hq⟩
    obtain ⟨⟨rfl, hlt⟩, -⟩ := (h.mem_queue ..).mp hp
    exact ⟨p, hlt, hq⟩
  · rintro ⟨p, hlt, hq⟩
    obtain ⟨seg, hseg⟩ := h.tiling.within p hlt
    exact ⟨seg.flind, s.pool p, s.order p, p, (h.mem_queue ..).mpr
      ⟨⟨rfl, hlt⟩, rfl, by rw [hseg p (self_mem_block ..), map_some]⟩, hq⟩

/-- `2 ^ order` contiguous free pages of one segment, aligned to their number. -/
def FreeRun (s : Phys) (order p : ℕ) : Prop :=
  2 ^ order ∣ p ∧ ∃ seg ∈ s.segs, ∀ q ∈ block p order, seg.Contains q ∧ q ∈ s.queued

theorem freeRun_iff {s : Phys} (h : Inv s) {p : ℕ} :
    FreeRun s order p ↔ 2 ^ order ∣ p ∧ Within s.segOf p order ∧ block p order ⊆ s.frees := by
  rw [FreeRun, h.queued_eq]
  refine and_congr_right fun _ => ⟨?_, ?_⟩
  · rintro ⟨seg, hseg, hq⟩
    exact ⟨within_of_contains h.segs hseg fun q hmem => (hq q hmem).1, fun q hmem => (hq q hmem).2⟩
  · rintro ⟨⟨seg, hseg⟩, hfree⟩
    exact ⟨seg, ((segOf_iff h.segs).mp (hseg p (self_mem_block ..))).1,
      fun q hmem => ⟨((segOf_iff h.segs).mp (hseg q hmem)).2, hfree hmem⟩⟩

/-- **Allocation is complete.**  It fails exactly if no segment holds an aligned run of `2 ^ order`
free pages; otherwise it returns the first page of such a run, and the set of free pages shrinks by
exactly the pages of the run. -/
theorem allocPages_complete (h : Reachable Initial PhysStep s) (pool order : ℕ)
    (hpool : pool < vmNfreepool) (horder : order < vmNfreeorder) :
    (s.phys.vmPhysAllocPages pool order = none ↔ ¬ ∃ p, FreeRun s.phys order p) ∧
      ∀ m phys, s.phys.vmPhysAllocPages pool order = some (m, phys) →
        FreeRun s.phys order m ∧ phys.queued = s.phys.queued \ block m order := by
  have hi := (Reachable.inv h).1
  refine ⟨?_, fun m phys ha => ?_⟩
  · rw [allocPages_eq_none_iff hi hpool horder]
    simp [freeRun_iff hi]
  · obtain ⟨hdvd, hin, hfree, hm, -⟩ := allocPages_spec hi hpool ha
    rw [freeRun_iff hi, hm.inv.queued_eq, hi.queued_eq]
    exact ⟨⟨hdvd, hin, hfree⟩, hm.frees⟩

theorem allocPages_complete_two :
    twoPagesFree.vmPhysAllocPages 1 2 = none ∧ (¬ ∃ p, FreeRun twoPagesFree 2 p) ∧
      FreeRun twoPagesFree 0 4096 := by
  obtain ⟨s, hr, hs, -⟩ := reachable_twoPagesFree
  have h2 := allocPages_complete hr 1 2 (by decide) (by decide)
  have h0 := allocPages_complete hr 1 0 (by decide) (by decide)
  rw [hs] at h2 h0
  have hnone : twoPagesFree.vmPhysAllocPages 1 2 = none := rfl
  exact ⟨hnone, h2.1.mp hnone, (h0.2 4096 onePageTaken rfl).1⟩

/-- **Taking out one page** succeeds exactly if the page is free.  Then it is the only one that is
no longer free, and the others of its block are in smaller blocks. -/
theorem unfreePage_complete (h : Reachable Initial PhysStep s) (m : ℕ) :
    ((s.phys.vmPhysUnfreePage m).2 = true ↔ m ∈ s.phys.queued) ∧
      ((s.phys.vmPhysUnfreePage m).2 = false → (s.phys.vmPhysUnfreePage m).1 = s.phys) ∧
      ∀ phys, s.phys.vmPhysUnfreePage m = (phys, true) →
        phys.queued = s.phys.queued \ {m} ∧ BlocksOk phys ∧
          ∀ flind pool o p, p ∈ (s.phys.queues flind pool o).pl → m ∈ block p o →
            ∀ flind' pool' o' p', p' ∈ (phys.queues flind' pool' o').pl →
              ∀ q ∈ block p o, q ∈ block p' o' → o' < o := by
  have hi := (Reachable.inv h).1
  refine ⟨⟨fun hu => ?_, fun hm => unfreePage_of_mem hi (hi.queued_eq ▸ hm)⟩, unfreePage_false,
    fun phys hu => ?_⟩
  · rw [hi.queued_eq]
    exact (unfreePage_spec hi (Prod.ext rfl hu)).1
  · obtain ⟨-, hmov⟩ := unfreePage_spec hi hu
    rw [hmov.inv.queued_eq, hi.queued_eq]
    refine ⟨hmov.frees, hmov.inv.blocksOk, ?_⟩
    intro flind pool o p hp hm flind' pool' o' p' hp' q hq hq'
    obtain ⟨hdvd, -⟩ := hi.blocksOk.inside _ _ _ _ hp
    obtain ⟨hdvd', -⟩ := hmov.inv.blocksOk.inside _ _ _ _ hp'
    by_contra hle
    have hmem : m ∈ phys.queued := ⟨_, _, _, _, hp', block_subset hdvd hdvd' (not_lt.mp hle) hq hq' hm⟩
    rw [hmov.inv.queued_eq, hmov.frees] at hmem
    exact hmem.2 rfl

theorem unfreePage_complete_two : (twoPagesFree.vmPhysUnfreePage 4096).2 = true ∧
    4096 ∈ twoPagesFree.queued := by
  obtain ⟨s, hr, hs, -⟩ := reachable_twoPagesFree
  have hu : (twoPagesFree.vmPhysUnfreePage 4096).2 = true := by decide
  exact ⟨hu, hs ▸ (unfreePage_complete hr 4096).1.mp (hs ▸ hu)⟩

/-- **Contiguous allocation.**  `R` are the pages that broken reservations have given back; there
are none if reclamation leaves the free pages alone.  The pages returned were free, they lie in one
segment and within the limits of the request, and they are the only ones that are no longer free. -/
theorem allocContig_correct (h : Reachable Initial PhysStep s) {a : ContigArgs} (hpos : a.npages ≠ 0)
    (halign : ∃ k, a.alignment.toNat = 2 ^ k)
    (hbound : a.boundary = 0 ∨ ∃ k, a.boundary.toNat = 2 ^ k) {reclaimed : List (List ℕ)}
    (hnodup : reclaimed.flatten.Nodup) (htag : ∀ p ∈ reclaimed.flatten, s.tag p ≠ none)
    {r : Option ℕ} (hrun : s.phys.vmPhysAllocContig a reclaimed = some (r, phys)) :
    ∃ R : Set ℕ, (∀ p ∈ R, p ∈ reclaimed.flatten) ∧
      (r = none → phys.queued = s.phys.queued ∪ R) ∧
      ∀ m, r = some m →
        (∃ seg ∈ s.phys.segs, ∀ q ∈ Set.Ico m (m + a.npages.toNat),
          seg.Contains q ∧ q ∈ s.phys.queued ∪ R) ∧
        a.low.toNat ≤ m * 4096 ∧ (m + a.npages.toNat) * 4096 ≤ a.high.toNat ∧
        a.alignment.toNat ∣ m * 4096 ∧
        (a.boundary ≠ 0 → m * 4096 / a.boundary.toNat =
          ((m + a.npages.toNat) * 4096 - 1) / a.boundary.toNat) ∧
        phys.queued = (s.phys.queued ∪ R) \ Set.Ico m (m + a.npages.toNat) := by
  obtain ⟨hi, ht⟩ := Reachable.inv h
  have hn : 0 < a.npages.toNat := Nat.pos_of_ne_zero fun h0 => hpos (BitVec.eq_of_toNat_eq h0)
  obtain ⟨R, hR, hc⟩ := allocContig_spec hi hn hnodup
    (fun p hp => ⟨ht.not_free p (htag p hp), ht.in_seg p (htag p hp)⟩) hrun
  rw [hc.inv.queued_eq, hi.queued_eq, hc.frees]
  refine ⟨R, hR, ?_, ?_⟩
  · rintro rfl
    exact Set.sdiff_empty
  · rintro m rfl
    obtain ⟨seg, hseg⟩ := hc.taken_seg
    have hin q hq := (segOf_iff hi.segs).mp (hseg q hq)
    have hmem : seg ∈ s.phys.segs := (hin m ⟨le_rfl, by omega⟩).1
    -- the last page lies below the end of the segment
    have hlast := (hin (m + a.npages.toNat - 1) ⟨by omega, by omega⟩).2.2
    have hstop := hi.segs.stop_le seg hmem
    obtain ⟨hlow, hhigh, hal, hbd⟩ := fits_spec (allocContig_fits hrun) hn (by omega)
    obtain ⟨k, hk⟩ := halign
    refine ⟨⟨seg, hmem, fun q hq => ⟨(hin q hq).2, hc.taken_free hq⟩⟩, hlow, hhigh, hk ▸ hal k hk,
      fun hne => ?_, rfl⟩
    obtain ⟨b, hb⟩ := hbound.resolve_left hne
    exact hb ▸ hbd b hb

theorem allocContig_correct_two : ∃ phys,
    twoPagesFree.vmPhysAllocContig ⟨2, 0, 0x2000000, 0x2000, 0⟩ [] = some (some 4096, phys) ∧
      phys.queued = twoPagesFree.queued \ Set.Ico 4096 4098 := by
  obtain ⟨s, hr, hs, -⟩ := reachable_twoPagesFree
  have hsome : (twoPagesFree.vmPhysAllocContig ⟨2, 0, 0x2000000, 0x2000, 0⟩ []).map Prod.fst =
      some (some 4096) := by decide +kernel
  obtain ⟨⟨r, phys⟩, hrun, rfl⟩ := Option.map_eq_some_iff.mp hsome
  obtain ⟨R, hR, -, hres⟩ := allocContig_correct hr (by decide) ⟨13, rfl⟩ (.inl rfl)
    (by simp) (by simp) (hs ▸ hrun)
  obtain rfl : R = ∅ := Set.eq_empty_of_forall_notMem fun p hp => absurd (hR p hp) (by simp)
  obtain ⟨-, -, -, -, -, hq⟩ := hres 4096 rfl
  exact ⟨phys, hrun, by rw [hq, hs, Set.union_empty]; rfl⟩

end FreeBSDSys.VmPhys
