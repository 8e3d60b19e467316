import FreeBSDSys.Lib.Rounding
import FreeBSDSys.Vm.PhysOps

/-!
# Contiguous allocation

`vm_phys_alloc_contig` takes a run of pages: from a single block if one is large enough, and from
several consecutive blocks of the largest order otherwise.  What the blocks have in excess goes
back, by splitting the block and page by page.

* `contig_blocks`: the blocks the search has settled on are free blocks of the queue's order.
* `contigTake_spec`: exactly the pages of the run stop being free.
* `allocContig_spec`: the same for the whole call, with the pages given back by broken reservations.

The size of a request is computed modulo `2 ^ 64`.  A request so large that it wraps around passes
the tests of the search, but the loop over its blocks then leaves the segment.
-/

namespace FreeBSDSys.VmPhys

open Buddy List Set Nat

namespace Phys

variable {s s' s1 : Phys} {seg : Seg} {m p q o n oind j : ℕ} {F F1 : Set ℕ} {a : ContigArgs}
  {r : Option ℕ}

/-! ## The search -/

theorem npages_le_of_order (h : a.order < 31) : a.npages.toNat ≤ 2 ^ a.order := by
  unfold ContigArgs.order at h ⊢
  cases hf : (List.range 31).find? fun order => a.npages.toNat ≤ 2 ^ order with
  | none => simp [hf] at h
  | some o => simpa using find?_some hf

/-- The scan for the following blocks: all up to the last address are free blocks of the largest
order. -/
theorem blocksFollow_spec {paLast : ℕ} (h : s.blocksFollow seg paLast n (m * 2 ^ pageShift) = true)
    (hlast : (m + (j + 1) * 2 ^ (vmNfreeorder - 1)) * 2 ^ pageShift < paLast) :
    s.order (m + (j + 1) * 2 ^ (vmNfreeorder - 1)) = vmNfreeorder - 1 := by
  induction n generalizing m j with
  | zero => simp [blocksFollow] at h
  | succ n ih =>
    have hpa : m * 2 ^ pageShift + 2 ^ (pageShift + vmNfreeorder - 1) =
        (m + 2 ^ (vmNfreeorder - 1)) * 2 ^ pageShift := by
      unfold pageShift vmNfreeorder
      omega
    unfold blocksFollow at h
    rw [hpa] at h
    have hmono : (m + 2 ^ (vmNfreeorder - 1)) * 2 ^ pageShift ≤
        (m + (j + 1) * 2 ^ (vmNfreeorder - 1)) * 2 ^ pageShift :=
      mul_le_mul_right _ (by unfold vmNfreeorder; omega)
    rw [if_neg (by omega)] at h
    split at h
    · cases h
    · split_ifs at h with hord
      cases j with
      | zero => simpa using hord
      | succ j =>
        have heq : m + (j + 1 + 1) * 2 ^ (vmNfreeorder - 1) =
            m + 2 ^ (vmNfreeorder - 1) + (j + 1) * 2 ^ (vmNfreeorder - 1) := by
          unfold vmNfreeorder
          omega
        rw [heq] at hlast ⊢
        exact ih h hlast

/-- What the search finds: a block on a queue that passes the tests. -/
theorem contigSearch_spec (h : s.contigSearch a = some (oind, m)) :
    min a.order (vmNfreeorder - 1) ≤ oind ∧ s.contigAt a m = true ∧
      ∃ flind pind, m ∈ (s.queues flind pind oind).pl := by
  obtain ⟨flind, -, h⟩ := exists_of_findSome?_eq_some h
  obtain ⟨o, ho, h⟩ := exists_of_findSome?_eq_some h
  obtain ⟨pind, -, h⟩ := exists_of_findSome?_eq_some h
  obtain ⟨x, hx, heq⟩ := Option.map_eq_some_iff.mp h
  cases heq
  exact ⟨(mem_orders.mp ho).1, find?_some hx, flind, pind, mem_of_find?_eq_some hx⟩

/-! ## The blocks of the run -/

theorem add_blocks (m j d : ℕ) : m + d + j * d = m + (j + 1) * d := by
  rw [succ_mul]
  omega

theorem contains_of_removeRun (h : removeRun seg oind n m s = some s') (hj : j < n) :
    seg.Contains (m + j * 2 ^ oind) := by
  induction n generalizing s m j with
  | zero => omega
  | succ n ih =>
    unfold removeRun at h
    split_ifs at h with hm
    cases j with
    | zero => simpa using hm.1
    | succ j =>
      rw [← add_blocks]
      exact ih h (by omega)

/-- Taking `n` consecutive free blocks of one order off their queues. -/
theorem removeRun_spec (h : Inv s) (hseg : seg ∈ s.segs) (ho : oind < vmNfreeorder)
    (hrun : ∀ j < n, seg.Contains (m + j * 2 ^ oind) ∧ s.order (m + j * 2 ^ oind) = oind)
    (hr : removeRun seg oind n m s = some s') :
    Moves s s' (s.frees \ Set.Ico m (m + n * 2 ^ oind)) ∧ s'.pool = s.pool := by
  induction n generalizing s m with
  | zero =>
    cases hr
    simpa using Moves.refl h
  | succ n ih =>
    obtain ⟨hin, hord⟩ := hrun 0 (by omega)
    rw [zero_mul, add_zero] at hin hord
    unfold removeRun at hr
    rw [if_pos ⟨hin, by omega⟩, hord] at hr
    have hsegm : s.segOf m = some seg := (segOf_iff h.segs).mpr ⟨hseg, hin⟩
    have hrem := h.remove_moves (by omega) hsegm
    rw [hord] at hrem
    have hpos := Nat.two_pow_pos oind
    obtain ⟨hrest, hpool⟩ := ih hrem.inv hseg (fun j hj => by
      obtain ⟨hin, hord⟩ := hrun (j + 1) (by omega)
      rw [add_blocks]
      refine ⟨hin, ?_⟩
      change Function.update s.order m vmNfreeorder _ = _
      rwa [Function.update_of_ne]
      have := Nat.le_mul_of_pos_left (2 ^ oind) (show 0 < j + 1 by omega)
      omega) hr
    have hset : (s.frees \ block m oind) \ Set.Ico (m + 2 ^ oind) (m + 2 ^ oind + n * 2 ^ oind) =
        s.frees \ Set.Ico m (m + (n + 1) * 2 ^ oind) := by
      ext x
      simp only [mem_sdiff, mem_Ico, mem_block, ← add_blocks m n, and_assoc]
      refine and_congr_right fun _ => ?_
      omega
    rw [hrem.frees, hset] at hrest
    exact ⟨hrem.trans hrest fun x hx => .inl hx.1, hpool⟩

/-- The number of blocks the loop at `done` goes over. -/
def runBlocks (a : ContigArgs) (oind : ℕ) : ℕ := (a.npages.toNat + 2 ^ oind - 1) / 2 ^ oind

theorem lt_runBlocks : j < runBlocks a o ↔ j * 2 ^ o < a.npages.toNat := by
  have hpos := Nat.two_pow_pos o
  rw [runBlocks, ← Nat.succ_le_iff, Nat.le_div_iff_mul_le hpos, Nat.succ_mul]
  omega

theorem npages_le_runBlocks (a : ContigArgs) (o : ℕ) : a.npages.toNat ≤ runBlocks a o * 2 ^ o := by
  have := (lt_runBlocks (j := runBlocks a o)).not.mp (lt_irrefl _)
  omega

theorem npages_pos (hsize : a.size ≠ 0) : 0 < a.npages.toNat := by
  refine Nat.pos_of_ne_zero fun h0 => hsize ?_
  have : a.npages = 0 := BitVec.eq_of_toNat_eq h0
  simp [ContigArgs.size, this]

/-- **The run consists of free blocks.**  If the loop over the blocks stays inside the segment, the
size of the request has not wrapped around, and what the search has seen are free blocks of order
`oind`. -/
theorem contig_blocks (h : Inv s) (hf : s.contigSearch a = some (oind, m))
    (hseg : s.segOf m = some seg) (hr : removeRun seg oind (runBlocks a oind) m s = some s') :
    oind < vmNfreeorder ∧ ∀ j < runBlocks a oind,
      seg.Contains (m + j * 2 ^ oind) ∧ s.order (m + j * 2 ^ oind) = oind := by
  obtain ⟨hle, hat, flind, pind, hq⟩ := contigSearch_spec hf
  obtain ⟨⟨hord, hlt⟩, -⟩ := (h.mem_queue ..).mp hq
  refine ⟨hlt, fun j hj => ⟨contains_of_removeRun hr hj, ?_⟩⟩
  cases j with
  | zero => simpa using hord
  | succ j =>
    have hj' := lt_runBlocks.mp hj
    have hsz : 2 ^ oind ≤ (j + 1) * 2 ^ oind := Nat.le_mul_of_pos_left _ (Nat.succ_pos j)
    -- the request is for more than one block
    have hbig : vmNfreeorder ≤ a.order := by
      by_contra hsmall
      have hfew := npages_le_of_order (a := a) (by unfold vmNfreeorder at hsmall; omega)
      have : 2 ^ a.order ≤ 2 ^ oind := Nat.pow_le_pow_right (by decide) (by omega)
      omega
    have hoind : oind = vmNfreeorder - 1 := by omega
    -- so the last block lies below the end of the segment, and nothing wraps around
    have hstop := h.segs.stop_le seg ((segOf_iff h.segs).mp hseg).1
    have hlast := contains_of_removeRun hr (j := runBlocks a oind - 1) (by omega)
    have hnp := npages_le_runBlocks a oind
    have hmul : runBlocks a oind * 2 ^ oind = (runBlocks a oind - 1) * 2 ^ oind + 2 ^ oind := by
      rw [← Nat.succ_mul, Nat.succ_eq_add_one, Nat.sub_add_cancel (by omega)]
    have hbound : m + a.npages.toNat < 2 ^ 40 + 2 ^ 12 := by
      have h2 : 2 ^ oind = 2 ^ 12 := by rw [hoind]; rfl
      have := hlast.2
      omega
    have hpa : (ContigArgs.paddr m + a.size).toNat = (m + a.npages.toNat) * 2 ^ pageShift := by
      simp only [ContigArgs.paddr, ContigArgs.size, BitVec.toNat_add, BitVec.toNat_ofNat,
        BitVec.toNat_shiftLeft, pageShift]
      omega
    unfold contigAt at hat
    rw [hseg] at hat
    simp only [hpa, Bool.and_eq_true, Bool.or_eq_true, Bool.not_eq_true', decide_eq_false_iff_not] at hat
    have hfollow := hat.1.2.resolve_left (by omega)
    subst hoind
    exact blocksFollow_spec hfollow (Nat.mul_lt_mul_of_pos_right (by omega) (Nat.two_pow_pos _))

/-! ## The excess -/

/-- How many pages are left after splitting: `npages`, rounded up. -/
def kept (a : ContigArgs) (oind : ℕ) : ℕ :=
  runBlocks a (min oind a.order) * 2 ^ min oind a.order

theorem runBlocks_eq_one (hpos : 0 < a.npages.toNat) (h : a.npages.toNat ≤ 2 ^ o) :
    runBlocks a o = 1 := by
  have h0 := (lt_runBlocks (o := o) (j := 0)).mpr (by simpa using hpos)
  have h1 := (lt_runBlocks (a := a) (o := o) (j := 1)).not.mpr (by omega)
  omega

/-- The pages of all blocks of the run. -/
def run (a : ContigArgs) (m oind : ℕ) : Set ℕ := Set.Ico m (m + runBlocks a oind * 2 ^ oind)

/-- What remains of the blocks of the run after the first one is split. -/
theorem kept_spec (hpos : 0 < a.npages.toNat) (hlt : oind < vmNfreeorder) (m : ℕ) :
    Set.Ico m (m + kept a oind) ⊆ run a m oind ∧
      run a m oind \ Set.Ico m (m + kept a oind) = block m oind \ block m a.order := by
  rw [run, kept]
  rcases lt_or_ge oind a.order with hgt | hle'
  · -- several blocks of the largest order: nothing is split
    rw [Nat.min_eq_left hgt.le, sdiff_self, sdiff_eq_empty.mpr (block_mono m hgt.le)]
    exact ⟨subset_rfl, rfl⟩
  · -- one block
    have hpow : 2 ^ a.order ≤ 2 ^ oind := Nat.pow_le_pow_right (by decide) hle'
    have hnp : a.npages.toNat ≤ 2 ^ a.order :=
      npages_le_of_order (by unfold vmNfreeorder at hlt; omega)
    rw [min_eq_right hle', runBlocks_eq_one hpos hnp, runBlocks_eq_one hpos (hnp.trans hpow)]
    simp only [one_mul]
    exact ⟨block_mono m hle', rfl⟩

theorem npages_le_kept (a : ContigArgs) (oind : ℕ) : a.npages.toNat ≤ kept a oind :=
  npages_le_runBlocks ..

/-- Every page of a run of free blocks is free and lies in the segment. -/
theorem run_cells (h : Inv s) (ho : oind < vmNfreeorder) (hseg : seg ∈ s.segs)
    (hrun : ∀ j < n, seg.Contains (m + j * 2 ^ oind) ∧ s.order (m + j * 2 ^ oind) = oind) :
    ∀ q ∈ Set.Ico m (m + n * 2 ^ oind), seg.Contains q ∧ q ∈ s.frees := by
  intro q hq
  obtain ⟨j, hj, hmem⟩ := exists_block_of_mem_run hq
  obtain ⟨hin, hord⟩ := hrun j hj
  have hhead : s.order (m + j * 2 ^ oind) < vmNfreeorder := by omega
  have hsegj : s.segOf (m + j * 2 ^ oind) = some seg := (segOf_iff h.segs).mpr ⟨hseg, hin⟩
  have hmem' : q ∈ block (m + j * 2 ^ oind) (s.order (m + j * 2 ^ oind)) := by rwa [hord]
  exact ⟨contains_of_within h.segs (h.tiling.within _ hhead) hsegj hmem', _, hhead, hmem'⟩

/-- Pages of a run that lie in one block of the largest order lie in one block of the run. -/
theorem run_same_block (h : Inv s) (hpos : 0 < a.npages.toNat)
    (hle : min a.order (vmNfreeorder - 1) ≤ oind) (ho : oind < vmNfreeorder)
    (hrun : ∀ j < runBlocks a oind, s.order (m + j * 2 ^ oind) = oind) {q q' : ℕ}
    (hq : q ∈ Set.Ico m (m + runBlocks a oind * 2 ^ oind))
    (hq' : q' ∈ Set.Ico m (m + runBlocks a oind * 2 ^ oind))
    (hbase : base q (vmNfreeorder - 1) = base q' (vmNfreeorder - 1)) :
    ∃ p, s.order p = oind ∧ q ∈ block p oind ∧ q' ∈ block p oind := by
  obtain ⟨j, hj, hmem⟩ := exists_block_of_mem_run hq
  obtain ⟨j', hj', hmem'⟩ := exists_block_of_mem_run hq'
  have hdvd j (hj : j < runBlocks a oind) : 2 ^ oind ∣ m + j * 2 ^ oind := by
    have := h.tiling.aligned (m + j * 2 ^ oind) (by rw [hrun j hj]; exact ho)
    rwa [hrun j hj] at this
  refine ⟨m + j * 2 ^ oind, hrun j hj, hmem, ?_⟩
  rcases lt_or_ge oind (vmNfreeorder - 1) with hsmall | hlarge
  · -- the run is a single block
    have hord : a.order ≤ oind := by omega
    have hnp : a.npages.toNat ≤ 2 ^ oind :=
      (npages_le_of_order (by unfold vmNfreeorder at ho; omega)).trans
        (Nat.pow_le_pow_right (by decide) hord)
    rw [runBlocks_eq_one hpos hnp] at hj hj'
    rwa [show j = j' by omega]
  · -- the blocks of the run are of the largest order
    obtain rfl : oind = vmNfreeorder - 1 := by omega
    rwa [← base_eq (hdvd j hj) hmem, hbase, base_eq (hdvd j' hj') hmem']

theorem first_subset_run (hpos : 0 < a.npages.toNat) (m oind : ℕ) : block m oind ⊆ run a m oind := by
  intro q hq
  have hN : 0 < runBlocks a oind := lt_runBlocks.mpr (by simpa using hpos)
  have := Nat.le_mul_of_pos_left (2 ^ oind) hN
  rw [mem_block] at hq
  exact ⟨hq.1, by omega⟩

/-- After the blocks of the run are off their queues, what the first has in excess goes back by
splitting and the rest of the excess page by page. -/
theorem contig_excess (h : Inv s) (hpos : 0 < a.npages.toNat) (hloose : Loose s seg m oind)
    (hin : ∀ q ∈ run a m oind, seg.Contains q) (hfree : s.frees = F \ run a m oind)
    (hF : run a m oind ⊆ F) :
    Moves s (freeRun (kept a oind - a.npages.toNat) (m + a.npages.toNat)
        (vmPhysSplitPages m seg.flind (s.pool m) a.order oind s))
      (F \ Set.Ico m (m + a.npages.toNat)) := by
  have hlt := hloose.order_lt
  have hkept := npages_le_kept a oind
  obtain ⟨hsub, hrest⟩ := kept_spec hpos hlt m
  have hsplit := split_spec h hloose rfl a.order
  rw [hfree, ← hrest, sdiff_union_sdiff_cancel hF hsub] at hsplit
  have hfreed := freeRun_spec (m := m + a.npages.toNat) (n := kept a oind - a.npages.toNat)
    hsplit.inv (hsplit.same.1 ▸ hloose.seg_mem) fun q hge hlt => by
      have hq : q ∈ Set.Ico m (m + kept a oind) := ⟨by omega, by omega⟩
      rw [hsplit.frees]
      exact ⟨hin q (hsub hq), fun hmem => hmem.2 hq⟩
  have hexcess : Set.Ico (m + a.npages.toNat) (m + a.npages.toNat + (kept a oind - a.npages.toNat)) =
      Set.Ico m (m + kept a oind) \ Set.Ico m (m + a.npages.toNat) := by
    ext x
    simp only [mem_sdiff, mem_Ico]
    omega
  rw [hsplit.frees, hexcess, sdiff_union_sdiff_cancel (hsub.trans hF)
    (Ico_subset_Ico_right (by omega))] at hfreed
  refine hsplit.trans hfreed fun x hx => .inr ⟨hx.1, fun hmem => hx.2 ⟨hmem.1, ?_⟩⟩
  have := hmem.2
  omega

/-- **The run is taken.**  The pages of the run were free and lie in one segment; they are the only
ones that are no longer free; those in one block of the largest order have one pool. -/
theorem contigTake_spec (h : Inv s) (hpos : 0 < a.npages.toNat) (hf : s.contigSearch a = some (oind, m))
    (ht : s.contigTake a oind m = some s') :
    ∃ seg ∈ s.segs, (∀ q ∈ Set.Ico m (m + a.npages.toNat), seg.Contains q ∧ q ∈ s.frees) ∧
      Moves s s' (s.frees \ Set.Ico m (m + a.npages.toNat)) ∧
      ∀ q ∈ Set.Ico m (m + a.npages.toNat), ∀ q' ∈ Set.Ico m (m + a.npages.toNat),
        base q (vmNfreeorder - 1) = base q' (vmNfreeorder - 1) → s'.pool q = s'.pool q' := by
  unfold contigTake at ht
  cases hseg : s.segOf m with
  | none => simp [hseg] at ht
  | some seg =>
    rw [hseg] at ht
    obtain ⟨s1, hr, hs'⟩ := Option.map_eq_some_iff.mp ht
    have hsegm := ((segOf_iff h.segs).mp hseg).1
    obtain ⟨hlt, hrun⟩ := contig_blocks h hf hseg hr
    obtain ⟨hmov1, hpool1⟩ := removeRun_spec h hsegm hlt hrun hr
    have hcell : ∀ q ∈ run a m oind, seg.Contains q ∧ q ∈ s.frees := run_cells h hlt hsegm hrun
    have hfirst := first_subset_run hpos m oind
    obtain ⟨-, hordm⟩ := hrun 0 (lt_runBlocks.mpr (by simpa using hpos))
    rw [zero_mul, add_zero] at hordm
    have hloose1 : Loose s1 seg m oind := by
      refine ⟨hlt, ?_, hmov1.same.1 ▸ hsegm, fun q hq => (hcell q (hfirst hq)).1, fun q hq => ?_,
        fun q hq => ?_⟩
      · have := h.tiling.aligned m (by omega)
        rwa [hordm] at this
      · rw [hmov1.frees]
        exact fun hmem => hmem.2 (hfirst hq)
      · rw [hpool1]
        exact h.uniform m (by omega) q (by rwa [hordm])
    obtain ⟨hmov2, hloose2, hpin, hpout⟩ := hmov1.repool hloose1
      (fun q hq => (hcell q (hfirst hq)).2) (by decide : vmFreepoolDefault < vmNfreepool)
      (if _ then _ else _)
      (by
        split
        · exact .inl rfl
        · rename_i hsame
          exact .inr ⟨rfl, not_not.mp hsame⟩)
    have hfin := contig_excess hmov2.inv hpos hloose2 (fun q hq => (hcell q hq).1) hmov2.frees
      fun q hq => (hcell q hq).2
    have hnp {q : ℕ} (hq : q ∈ Set.Ico m (m + a.npages.toNat)) : q ∈ run a m oind :=
      ⟨hq.1, hq.2.trans_le (Nat.add_le_add_left (npages_le_runBlocks a oind) m)⟩
    refine ⟨seg, hsegm, fun q hq => hcell q (hnp hq), ?_, ?_⟩
    · rw [← hs']
      exact hmov2.trans hfin fun x hx => .inl hx.1
    · intro q hq q' hq' hbase
      -- the pages of one block of the run have one pool before the excess is freed, and keep it
      have hkeep {q : ℕ} hq :=
        hfin.pool q (by rw [hmov2.frees]; exact fun hmem => hmem.2 (hnp hq)) fun hmem => hmem.2 hq
      obtain ⟨p, hp, hqp, hqp'⟩ := run_same_block h hpos (contigSearch_spec hf).1 hlt
        (fun j hj => (hrun j hj).2) (hnp hq) (hnp hq') hbase
      rw [← hs']
      refine (hkeep hq).trans (Eq.trans ?_ (hkeep hq').symm)
      by_cases hpm : p = m
      · subst hpm
        rw [hpin q hqp, hpin q' hqp']
      · have hother {x : ℕ} (hx : x ∈ block p oind) : x ∉ block m oind := fun hx' =>
          hpm (h.tiling.eq_of_mem (by omega) (by omega) (by rwa [hp]) (by rwa [hordm]))
        have hhead : s.order p < vmNfreeorder := by omega
        rw [hpout q (hother hqp), hpout q' (hother hqp'), hpool1,
          h.uniform p hhead q (by rwa [hp]), h.uniform p hhead q' (by rwa [hp])]

/-! ## The call -/

/-- Freeing single pages, one after the other. -/
theorem freeAll_spec (h : Inv s) {pages : List ℕ} (hnodup : pages.Nodup)
    (hpages : ∀ p ∈ pages, p ∉ s.frees ∧ s.segOf p ≠ none) :
    Moves s (pages.foldl (fun s m => s.vmPhysFreePages m 0) s) (s.frees ∪ {p | p ∈ pages}) := by
  induction pages generalizing s with
  | nil => simpa using Moves.refl h
  | cons p pages ih =>
    obtain ⟨hnf, hne⟩ := hpages p mem_cons_self
    obtain ⟨seg, hseg⟩ := Option.ne_none_iff_exists'.mp hne
    obtain ⟨hsegm, hin⟩ := (segOf_iff h.segs).mp hseg
    have hfree := freePages_spec h (loose_page hsegm hin hnf)
    obtain ⟨hp, hnodup⟩ := nodup_cons.mp hnodup
    have hrest := ih hfree.inv hnodup fun q hq => by
      obtain ⟨hqf, hqs⟩ := hpages q (mem_cons_of_mem _ hq)
      rw [hfree.same.segOf, hfree.frees]
      refine ⟨fun hmem => hmem.elim hqf fun hb => hp ?_, hqs⟩
      rwa [← mem_block_zero.mp hb]
    refine hfree.put hrest ?_
    ext x
    simp only [mem_union, mem_ofPred_eq, mem_cons, mem_block_zero]

/-- The pages a call returns. -/
def taken (a : ContigArgs) : Option ℕ → Set ℕ
  | none => ∅
  | some m => Set.Ico m (m + a.npages.toNat)

/-- **What a call does** that returns `r`, after reservations have given back the pages `R`. -/
structure ContigMoves (a : ContigArgs) (r : Option ℕ) (R : Set ℕ) (s s' : Phys) : Prop where
  inv : Inv s'
  same : SameSegs s s'
  /-- The pages returned were free, … -/
  taken_free : taken a r ⊆ s.frees ∪ R
  /-- … and are the only ones that are no longer free. -/
  frees : s'.frees = (s.frees ∪ R) \ taken a r
  /-- They lie in one segment. -/
  taken_seg : ∃ seg, ∀ q ∈ taken a r, s.segOf q = some seg
  /-- Those in one block of the largest order have one pool. -/
  taken_pool : ∀ q ∈ taken a r, ∀ q' ∈ taken a r,
    base q (vmNfreeorder - 1) = base q' (vmNfreeorder - 1) → s'.pool q = s'.pool q'
  pool : ∀ q, q ∉ s.frees → q ∉ R → s'.pool q = s.pool q

theorem contigMoves_of_take (h : Inv s) (hpos : 0 < a.npages.toNat)
    (hf : s.contigSearch a = some (oind, m)) (ht : s.contigTake a oind m = some s') :
    ContigMoves a (some m) ∅ s s' := by
  obtain ⟨seg, hseg, hrun, hmov, hpool⟩ := contigTake_spec h hpos hf ht
  refine ⟨hmov.inv, hmov.same, fun q hq => .inl (hrun q hq).2, ?_, ?_, hpool, fun q hq _ => ?_⟩
  · rw [union_empty]
    exact hmov.frees
  · exact ⟨seg, fun q hq => (segOf_iff h.segs).mpr ⟨hseg, (hrun q hq).1⟩⟩
  · exact hmov.pool q hq fun hmem => hq hmem.1

theorem ContigMoves.fail (h : Inv s) (a : ContigArgs) : ContigMoves a none ∅ s s := by
  refine ⟨h, ⟨rfl, rfl⟩, empty_subset _, ?_, ?_, ?_, fun _ _ _ => rfl⟩
  · simp [taken]
  · exact ⟨⟨0, 0, 0⟩, fun q hq => absurd hq (notMem_empty q)⟩
  · exact fun q hq => absurd hq (notMem_empty q)

/-- A round in which a reservation gives back the pages `P` comes first. -/
theorem ContigMoves.after {P R : Set ℕ} (hm : Moves s s1 (s.frees ∪ P))
    (hc : ContigMoves a r R s1 s') : ContigMoves a r (P ∪ R) s s' := by
  have hset : s.frees ∪ (P ∪ R) = s1.frees ∪ R := by rw [hm.frees, union_assoc]
  refine ⟨hc.inv, ⟨hc.same.1.trans hm.same.1, hc.same.2.trans hm.same.2⟩, ?_, ?_, ?_,
    hc.taken_pool, fun q hq hPR => ?_⟩
  · rw [hset]
    exact hc.taken_free
  · rw [hset]
    exact hc.frees
  · rw [← hm.same.segOf]
    exact hc.taken_seg
  · have hqF : q ∉ s.frees ∪ P := fun hmem => hmem.elim hq fun hP => hPR (.inl hP)
    rw [hc.pool q (hm.frees ▸ hqF) fun hR => hPR (.inr hR), hm.pool q hq hqF]

/-- **Contiguous allocation** with any number of broken reservations. -/
theorem allocContig_spec (h : Inv s) (hpos : 0 < a.npages.toNat) {reclaimed : List (List ℕ)}
    (hnodup : reclaimed.flatten.Nodup)
    (hpages : ∀ p ∈ reclaimed.flatten, p ∉ s.frees ∧ s.segOf p ≠ none)
    (ha : vmPhysAllocContig a reclaimed s = some (r, s')) :
    ∃ R : Set ℕ, (∀ p ∈ R, p ∈ reclaimed.flatten) ∧ ContigMoves a r R s s' := by
  fun_induction vmPhysAllocContig a reclaimed s with
  | case1 reclaimed s oind m hf =>
    obtain ⟨s1, ht, heq⟩ := Option.map_eq_some_iff.mp ha
    cases heq
    exact ⟨∅, fun p hp => absurd hp (notMem_empty p), contigMoves_of_take h hpos hf ht⟩
  | case2 s hf =>
    cases ha
    exact ⟨∅, fun p hp => absurd hp (notMem_empty p), .fail h a⟩
  | case3 s hf pages rest ih =>
    rw [flatten_cons, nodup_append] at hnodup
    obtain ⟨hnd, hnd', hdisj⟩ := hnodup
    have hmov := freeAll_spec h hnd fun p hp => hpages p (by simp [hp])
    obtain ⟨R, hR, hc⟩ := ih hmov.inv hnd' (fun p hp => by
      obtain ⟨hnf, hne⟩ := hpages p (by simp [hp])
      rw [hmov.same.segOf, hmov.frees]
      exact ⟨fun hmem => hmem.elim hnf fun hp' => hdisj p hp' p hp rfl, hne⟩) ha
    refine ⟨{p | p ∈ pages} ∪ R, fun p hp => ?_, hc.after hmov⟩
    rw [flatten_cons, mem_append]
    exact hp.imp id (hR p)

/-- The page returned has passed the tests of the search. -/
theorem allocContig_fits {reclaimed : List (List ℕ)}
    (ha : vmPhysAllocContig a reclaimed s = some (some m, s')) : a.Fits m = true := by
  fun_induction vmPhysAllocContig a reclaimed s with
  | case1 reclaimed s oind m hf =>
    obtain ⟨s1, -, heq⟩ := Option.map_eq_some_iff.mp ha
    cases heq
    have hat := (contigSearch_spec hf).2.1
    unfold contigAt at hat
    split at hat
    · cases hat
    · exact (Bool.and_eq_true_iff.mp hat).2
  | case2 s hf => cases ha
  | case3 s hf pages rest ih => exact ih ha

/-- The tests, in bytes, for a run below `2 ^ 40` pages. -/
theorem fits_spec (h : a.Fits m = true) (hpos : 0 < a.npages.toNat)
    (hend : m + a.npages.toNat ≤ 2 ^ 40) :
    a.low.toNat ≤ m * 4096 ∧ (m + a.npages.toNat) * 4096 ≤ a.high.toNat ∧
      (∀ k, a.alignment.toNat = 2 ^ k → 2 ^ k ∣ m * 4096) ∧
      ∀ k, a.boundary.toNat = 2 ^ k →
        m * 4096 / 2 ^ k = ((m + a.npages.toNat) * 4096 - 1) / 2 ^ k := by
  have hm : (ContigArgs.paddr m).toNat = m * 4096 := by
    simp only [ContigArgs.paddr, BitVec.toNat_ofNat, pageShift]
    omega
  have hsize : a.size.toNat = a.npages.toNat * 4096 := by
    simp only [ContigArgs.size, BitVec.toNat_shiftLeft, pageShift]
    omega
  have hlast : (ContigArgs.paddr m + a.size).toNat = (m + a.npages.toNat) * 4096 := by
    rw [BitVec.toNat_add, hm, hsize]
    omega
  have hlast' : (ContigArgs.paddr m + a.size - 1).toNat = (m + a.npages.toNat) * 4096 - 1 := by
    bv_omega
  simp only [ContigArgs.Fits, Bool.and_eq_true, decide_eq_true_eq, beq_iff_eq] at h
  obtain ⟨⟨⟨hlow, hhigh⟩, hal⟩, hbd⟩ := h
  refine ⟨hm ▸ BitVec.le_def.mp hlow, hlast ▸ BitVec.le_def.mp hhigh, fun k hk => ?_, fun k hk => ?_⟩
  · have hmod := Rounding.toNat_and_mask (x := ContigArgs.paddr m) (Rounding.toNat_sub_one hk)
    rw [hal, hm] at hmod
    exact Nat.dvd_of_mod_eq_zero hmod.symm
  · have := (Rounding.xor_and_not_mask_eq_zero (Rounding.toNat_sub_one hk)).mp hbd
    rwa [hm, hlast'] at this

end Phys

end FreeBSDSys.VmPhys
