import FreeBSDSys.Ufs.FfsAlloc

/-!
# The counters of a cylinder group

What the counters of a group should be is a recount of its free map, block by block: a wholly free
block counts for `cs_nbfree`, and the free fragments and the maximal runs of any other block count
for `cs_nffree` and for `cg_frsum`.  A change of the map inside one block changes the recount by what
the block is worth afterwards less what it was worth before.

* `Counted`: the counters are the recount.
* `Counted.take`: the first fragments of a maximal run are taken.  This is every allocation: of a
  block, of a part of a block, of a part of a smaller run, and the extension of a piece.
* `Counted.give`: a piece of a block is freed.
-/

namespace FreeBSDSys.Ffs

open Finset Runs Nat

/-! ## What a block is worth -/

/-- What a block counts for `cs_nbfree`. -/
def nbOf (frag : Frag) (f : ℕ → Bool) : ℕ := if Full f frag.num then 1 else 0

/-- What a block counts for `cs_nffree`. -/
def nfOf (frag : Frag) (f : ℕ → Bool) : ℕ := if Full f frag.num then 0 else ones f frag.num

/-- What a block counts for `cg_frsum[k]`. -/
def frOf (frag : Frag) (k : ℕ) (f : ℕ → Bool) : ℕ :=
  if Full f frag.num then 0 else runs f frag.num k

/-- The recount over the blocks of a map. -/
def total (F : (ℕ → Bool) → ℕ) (frag : Frag) (m : Map) (nblk : ℕ) : ℕ :=
  ∑ b ∈ range nblk, F (blk frag m b)

/-- The counters of a group are the recount of its map. -/
structure Counted (frag : Frag) (nblk : ℕ) (c : Cg) : Prop where
  nb : c.cgCs.csNbfree = total (nbOf frag) frag c.blksfree nblk
  nf : c.cgCs.csNffree = total (nfOf frag) frag c.blksfree nblk
  fr : ∀ k, 0 < k → k < frag.num → c.cgFrsum k = total (frOf frag k) frag c.blksfree nblk

variable {frag : Frag} {m m' : Map} {c c' : Cg} {nblk b q a n bno k : ℕ} {f g : ℕ → Bool}

/-- A change inside one block. -/
theorem total_add (F : (ℕ → Bool) → ℕ) (hb : b < nblk)
    (hother : ∀ x, x ≠ b → blk frag m' x = blk frag m x) :
    total F frag m' nblk + F (blk frag m b) = total F frag m nblk + F (blk frag m' b) := by
  have hmem : b ∈ range nblk := mem_range.mpr hb
  have hrest : ∑ x ∈ (range nblk).erase b, F (blk frag m' x) =
      ∑ x ∈ (range nblk).erase b, F (blk frag m x) :=
    sum_congr rfl fun x hx => by rw [hother x (ne_of_mem_erase hx)]
  rw [total, total, ← add_sum_erase _ _ hmem, ← add_sum_erase _ _ hmem]
  omega

/-! ## Taking fragments -/

/-- The map after `n` fragments from `bno` on are taken. -/
def TakeBits (m m' : Map) (bno n : ℕ) : Prop :=
  ∀ j, isset m' j = (isset m j && !decide (bno ≤ j ∧ j < bno + n))

theorem TakeBits.blk_other (h : TakeBits m m' (b * frag.num + q) n) (hle : q + n ≤ frag.num)
    {x : ℕ} (hx : x ≠ b) : blk frag m' x = blk frag m x := by
  funext j
  by_cases hj : j < frag.num
  · rw [blk_of_lt m' x hj, blk_of_lt m x hj, h, decide_eq_false, Bool.not_false, Bool.and_true]
    -- the fragments of another block lie outside
    rintro ⟨hlo, hhi⟩
    rcases lt_or_gt_of_ne hx with hlt | hlt
    · have := mul_le_mul_right frag.num hlt
      rw [succ_mul] at this
      omega
    · have := mul_le_mul_right frag.num hlt
      rw [succ_mul] at this
      omega
  · rw [blk_of_le m' x (not_lt.mp hj), blk_of_le m x (not_lt.mp hj)]

theorem TakeBits.cleared (h : TakeBits m m' (b * frag.num + q) n) (hle : q + n ≤ frag.num) :
    Cleared (blk frag m b) (blk frag m' b) q n := by
  refine ⟨fun i hlo hhi => ?_, fun i hi => ?_⟩
  · rw [blk_of_lt m' b (by omega), h, decide_eq_true (by omega), Bool.not_true, Bool.and_false]
  · by_cases hif : i < frag.num
    · rw [blk_of_lt m' b hif, blk_of_lt m b hif, h, decide_eq_false (by omega), Bool.not_false,
        Bool.and_true]
    · rw [blk_of_le m' b (not_lt.mp hif), blk_of_le m b (not_lt.mp hif)]

/-- A block is free exactly when its maximal runs are the whole block. -/
theorem full_iff_of_maxRun (hrun : MaxRun f frag.num q a) : Full f frag.num ↔ a = frag.num := by
  obtain ⟨hpos, hle, -, hleft, -⟩ := id hrun
  constructor
  · intro hfull
    have hq : q = 0 := by
      rcases hleft with hzero | hclear
      · exact hzero
      · rw [hfull (q - 1) (by omega)] at hclear
        cases hclear
    subst hq
    exact hrun.eq_of_start (hfull.maxRun frag.num_pos)
  · intro ha i hi
    exact hrun.set (by omega) (by omega)

theorem runs_of_full (hfull : Full f frag.num) (hk : k < frag.num) : runs f frag.num k = 0 := by
  refine count_iff_forall_not.mpr fun p _ hrun => ?_
  have := (full_iff_of_maxRun hrun).mp hfull
  omega

theorem frOf_eq_runs (hk : k < frag.num) : frOf frag k f = runs f frag.num k := by
  rw [frOf]
  split
  · exact (runs_of_full ‹_› hk).symm
  · rfl

/-- One block changes. -/
theorem Counted.change (h : Counted frag nblk c) (hb : b < nblk)
    (hother : ∀ x, x ≠ b → blk frag c'.blksfree x = blk frag c.blksfree x)
    (hnb : c'.cgCs.csNbfree =
      c.cgCs.csNbfree - nbOf frag (blk frag c.blksfree b) + nbOf frag (blk frag c'.blksfree b))
    (hnf : c'.cgCs.csNffree =
      c.cgCs.csNffree - nfOf frag (blk frag c.blksfree b) + nfOf frag (blk frag c'.blksfree b))
    (hfr : ∀ k, 0 < k → k < frag.num → c'.cgFrsum k = c.cgFrsum k -
      runs (blk frag c.blksfree b) frag.num k + runs (blk frag c'.blksfree b) frag.num k) :
    Counted frag nblk c' := by
  refine ⟨?_, ?_, fun k hk hlt => ?_⟩
  · have hsum := total_add (nbOf frag) hb hother
    rw [hnb, h.nb]
    omega
  · have hsum := total_add (nfOf frag) hb hother
    rw [hnf, h.nf]
    omega
  · have hsum := total_add (frOf frag k) hb hother
    rw [frOf_eq_runs hlt, frOf_eq_runs hlt] at hsum
    rw [hfr k hk hlt, h.fr k hk hlt]
    omega

/-- A block that has lost fragments is not free. -/
theorem not_full_of_cleared (hc : Cleared f g q n) (hn : 0 < n) (hle : q + n ≤ frag.num) :
    ¬ Full g frag.num := by
  intro hf
  have := hf q (by omega)
  rw [hc.inside q (le_refl _) (by omega)] at this
  cases this

/-- **The first fragments of a maximal run are taken.** -/
theorem Counted.take (h : Counted frag nblk c)
    (hbits : TakeBits c.blksfree c'.blksfree (b * frag.num + q) n) (hb : b < nblk)
    (hrun : MaxRun (blk frag c.blksfree b) frag.num q a) (hn : 0 < n) (hna : n ≤ a)
    (hnb : c'.cgCs.csNbfree = c.cgCs.csNbfree - if a = frag.num then 1 else 0)
    (hnf : c'.cgCs.csNffree = c.cgCs.csNffree + if a = frag.num then (frag.num : ℤ) - n else -n)
    (hfr : ∀ k, 0 < k → k < frag.num → c'.cgFrsum k = c.cgFrsum k - (if k = a then 1 else 0) +
      if k = a - n ∧ n < a then 1 else 0) : Counted frag nblk c' := by
  obtain ⟨hpos, hle, -⟩ := id hrun
  have hqn : q + n ≤ frag.num := by omega
  have hc := hbits.cleared hqn
  have hfull := full_iff_of_maxRun hrun
  have hnot := not_full_of_cleared hc hn hqn
  have hones := hc.ones_add hqn fun i hlo hhi => hrun.set hlo (by omega)
  refine h.change hb (fun _ => hbits.blk_other hqn) ?_ ?_ fun k hk hlt => ?_
  · rw [nbOf, nbOf, if_congr hfull rfl rfl]
    split <;> omega
  · rw [hnf, nfOf, nfOf, if_neg hnot]
    by_cases ha : a = frag.num
    · have hall := full_iff_ones.mp (hfull.mpr ha)
      rw [if_pos (hfull.mpr ha)]
      omega
    · rw [if_neg fun hf => ha (hfull.mp hf)]
      omega
  · have hcount := hrun.count_clear hc hn hna k
    rw [hfr k hk hlt]
    split_ifs at hcount ⊢ <;> omega

/-! ## Giving fragments back -/

/-- **A piece of a block is freed.** -/
theorem Counted.give (h : Counted frag nblk c)
    (hbits : TakeBits c'.blksfree c.blksfree (b * frag.num + q) n) (hb : b < nblk) (hn : 0 < n)
    (hle : q + n ≤ frag.num)
    (hset : ∀ i, q ≤ i → i < q + n → blk frag c'.blksfree b i = true)
    (hnb : c'.cgCs.csNbfree =
      c.cgCs.csNbfree + if Full (blk frag c'.blksfree b) frag.num then 1 else 0)
    (hnf : c'.cgCs.csNffree = c.cgCs.csNffree + n -
      if Full (blk frag c'.blksfree b) frag.num then (frag.num : ℤ) else 0)
    (hfr : ∀ k, 0 < k → k < frag.num → c'.cgFrsum k = c.cgFrsum k -
      runs (blk frag c.blksfree b) frag.num k + runs (blk frag c'.blksfree b) frag.num k) :
    Counted frag nblk c' := by
  have hc := hbits.cleared hle
  have hnot := not_full_of_cleared hc hn hle
  have hones := hc.ones_add hle hset
  refine h.change hb (fun x hx => (hbits.blk_other hle hx).symm) ?_ ?_ hfr
  · rw [hnb, nbOf, nbOf]
    split <;> omega
  · rw [hnf, nfOf, nfOf]
    split
    · have hall := full_iff_ones.mp ‹_›
      omega
    · omega

end FreeBSDSys.Ffs
