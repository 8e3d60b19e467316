import FreeBSDSys.Lib.Reachability
import FreeBSDSys.Ufs.FfsGroup

/-!
# Runs of allocations and frees

`ffs_fragextend`, `ffs_clusteralloc` and `ffs_blkfree` on a consistent set of cylinder groups, and
runs of all allocations and frees.

A piece that is extended or freed is a run of fragments of one block that are in use.  This is more
than the pieces that an allocation has returned: the part of a piece that a file gives up when it is
truncated is a piece as well.

* `fragextend_spec`, `clusteralloc_spec`, `blkfree_spec`: each function keeps consistency and does
  not panic.
* `ffs_counters`: the counters of the groups and of the superblock, in every run.
-/

namespace FreeBSDSys.Ffs

open Nat Runs Bool

variable {fs fs' : Fs} {c c' : Cg} {i b q n r bno bpref bprev frags osize nsize len : ℕ} {nb nf : ℤ}
  {maxcluster : ℕ → ℕ} {frag : Frag} {m : Map}

/-! ## Extending a piece -/

/-- A piece of one block that is in use. -/
structure Piece (fs : Fs) (bno n : ℕ) : Prop where
  pos : 0 < n
  inGroup : fs.dtog bno < fs.fsNcg
  inBlock : fs.fragnum bno + n ≤ fs.fsFrag.num
  used : ∀ j, fs.dtogd bno ≤ j → j < fs.dtogd bno + n →
    isset (fs.cg (fs.dtog bno)).blksfree j = false

theorem allFree_iff (m : Map) : ∀ n bno,
    allFree m n bno = true ↔ ∀ j, bno ≤ j → j < bno + n → isset m j = true := by
  intro n
  induction n with
  | zero => exact fun bno => ⟨fun _ j hlo hhi => absurd hhi (Nat.not_lt.mpr hlo), fun _ => rfl⟩
  | succ n ih =>
    intro bno
    rw [allFree, and_eq_true, ih]
    constructor
    · rintro ⟨hfirst, hrest⟩ j hlo hhi
      by_cases hj : j = bno
      · exact hj ▸ hfirst
      · exact hrest j (by omega) (by omega)
    · intro hall
      exact ⟨hall bno (le_refl _) (by omega), fun j hlo hhi => hall j (by omega) (by omega)⟩

theorem extendTo_spec (m : Map) (bno : ℕ) : ∀ n i,
    i ≤ extendTo m bno n i ∧ extendTo m bno n i ≤ i + n ∧
    (∀ j, i ≤ j → j < extendTo m bno n i → isset m (bno + j) = true) ∧
    (extendTo m bno n i = i + n ∨ isset m (bno + extendTo m bno n i) = false) := by
  intro n
  induction n with
  | zero =>
    intro i
    exact ⟨le_refl _, le_refl _, fun j hlo hhi => absurd hhi (Nat.not_lt.mpr hlo), .inl rfl⟩
  | succ n ih =>
    intro i
    rw [extendTo]
    split_ifs with hset
    · obtain ⟨hlo, hhi, hall, hend⟩ := ih (i + 1)
      refine ⟨by omega, by omega, fun j hj hjlt => ?_, ?_⟩
      · by_cases hji : j = i
        · exact hji ▸ hset
        · exact hall j (by omega) hjlt
      · rcases hend with heq | hclear
        · exact .inl (by omega)
        · exact .inr hclear
    · exact ⟨le_refl _, by omega, fun j hlo hhi => absurd hhi (Nat.not_lt.mpr hlo),
        .inr (eq_false_iff.mpr hset)⟩

/-- The block of a fragment and its number in the block. -/
theorem Geometry.dtogd_eq (hgeo : Geometry fs) (bno : ℕ) :
    fs.dtogd bno = fs.fragstoblks (fs.dtogd bno) * fs.fsFrag.num + fs.fragnum bno ∧
      fs.fragnum (fs.dtogd bno) = fs.fragnum bno ∧ fs.fragstoblks (fs.dtogd bno) < fs.nblk := by
  have hmod : fs.dtogd bno % fs.fsFrag.num = bno % fs.fsFrag.num := mod_mod_of_dvd bno hgeo.dvd
  have hdiv := div_add_mod (fs.dtogd bno) fs.fsFrag.num
  have hlt : fs.dtogd bno < fs.fsFpg := mod_lt _ hgeo.fpg_pos
  rw [hmod, Nat.mul_comm] at hdiv
  refine ⟨hdiv.symm, hmod, hgeo.lt_nblk ?_⟩
  rw [Fs.fragstoblks]
  omega

/-- The test of `ffs_fragextend` for the end of the block. -/
theorem inBlock_of_fragnum (hpos : 0 < nsize) (hle : nsize ≤ fs.fsFrag.num)
    (h : ¬fs.fragnum bprev > fs.fragnum (bprev + nsize - 1)) :
    fs.fragnum bprev + nsize ≤ fs.fsFrag.num := by
  by_contra hcon
  refine h ?_
  have hq : bprev % fs.fsFrag.num < fs.fsFrag.num := mod_lt _ fs.fsFrag.num_pos
  simp only [Fs.fragnum] at hcon ⊢
  -- the last fragment would be in the next block, at a lower number
  have hlast : bprev + nsize - 1 = fs.fsFrag.num * (bprev / fs.fsFrag.num) +
      (bprev % fs.fsFrag.num + nsize - 1) := by
    have := div_add_mod bprev fs.fsFrag.num
    omega
  rw [hlast, mul_add_mod]
  generalize bprev % fs.fsFrag.num = q at hq hcon ⊢
  rw [mod_eq_sub_mod (by omega), mod_eq_of_lt (by omega)]
  omega

/-- The run of free fragments behind a piece. -/
theorem maxRun_extend {base q0 : ℕ} (hbase : base = b * frag.num + q0)
    (hpos : 0 < osize) (hlt : osize < nsize) (hblock : q0 + nsize ≤ frag.num)
    (hused : isset m (base + osize - 1) = false)
    (hfree : ∀ j, base + osize ≤ j → j < base + osize + (nsize - osize) → isset m j = true) :
    ∃ e, extendTo m base (frag.num - q0 - nsize) nsize = e ∧ nsize ≤ e ∧ e ≤ frag.num - q0 ∧
      MaxRun (blk frag m b) frag.num (q0 + osize) (e - osize) := by
  obtain ⟨hlo, hhi, hall, hend⟩ := extendTo_spec m base (frag.num - q0 - nsize) nsize
  generalize extendTo m base (frag.num - q0 - nsize) nsize = e at hlo hhi hall hend
  refine ⟨e, rfl, hlo, by omega, by omega, by omega, fun j hj => ?_, .inr ?_, ?_⟩
  · rw [blk_of_lt m b (by omega)]
    by_cases hj' : osize + j < nsize
    · exact hfree _ (by omega) (by omega)
    · have := hall (osize + j) (by omega) (by omega)
      rwa [hbase, show b * frag.num + q0 + (osize + j) = b * frag.num + (q0 + osize + j) by omega]
        at this
  · rw [blk_of_lt m b (by omega), show b * frag.num + (q0 + osize - 1) = base + osize - 1 by omega]
    exact hused
  · rw [show q0 + osize + (e - osize) = q0 + e by omega]
    rcases hend with heq | hclear
    · exact .inl (by omega)
    · by_cases hlast : q0 + e = frag.num
      · exact .inl hlast
      · refine .inr ?_
        rw [blk_of_lt m b (by omega), show b * frag.num + (q0 + e) = base + e by omega]
        exact hclear

/-- **`ffs_fragextend` takes the fragments behind a piece**, or changes nothing. -/
theorem fragextend_spec (h : Consistent fs) (hpiece : Piece fs bprev osize) (hlt : osize < nsize)
    (hle : nsize ≤ fs.fsFrag.num) (hi : fs.dtog bprev = i) (hc : fs.cg i = c) :
    ffsFragextend fs i bprev osize nsize = (0, fs) ∨
    ∃ c' maxcluster, ffsFragextend fs i bprev osize nsize =
        (bprev, fs.put i c' 0 (-((nsize - osize : ℕ) : ℤ)) maxcluster) ∧
      Taken fs i (fs.dtogd bprev + osize) (nsize - osize) c c' 0 (-((nsize - osize : ℕ) : ℤ)) := by
  subst hc
  obtain ⟨hpos, hgroup, hin, hused⟩ := hpiece
  rw [hi] at hgroup hused
  have hok := h.group i hgroup
  rw [ffsFragextend]
  dsimp only
  split
  · exact .inl rfl
  split
  · exact .inl rfl
  rename_i hbase
  split
  · exact .inl rfl
  rename_i hfree
  rw [not_eq_true', not_eq_false, allFree_iff] at hfree
  obtain ⟨hbno, -, hb⟩ := h.toGeometry.dtogd_eq bprev
  have hblock := inBlock_of_fragnum (by omega) hle hbase
  obtain ⟨e, heq, hlo, hhi, hrun⟩ := maxRun_extend hbno hpos hlt hblock
    (hused _ (by omega) (by omega)) hfree
  rw [heq]
  refine .inr ⟨_, fs.fsMaxcluster, rfl, ?_⟩
  rw [show fs.dtogd bprev + osize =
    fs.fragstoblks (fs.dtogd bprev) * fs.fsFrag.num + (fs.fragnum bprev + osize) by omega]
  refine Taken.part h.toGeometry hok hb hrun (by omega) (by omega) (by omega) rfl rfl hok.frotor rfl
    ?_ rfl fun k => ?_
  · rw [show fs.fragstoblks (fs.dtogd bprev) * fs.fsFrag.num + (fs.fragnum bprev + osize) =
      fs.dtogd bprev + osize by omega]
  · rw [← addAt_take (fs.cg i).cgFrsum (r := e - nsize) (by omega) (by omega) k]
    by_cases he : e = nsize
    · rw [if_neg (not_not.mpr he), if_neg (not_not.mpr (by omega))]
    · rw [if_pos he, if_pos (by omega)]

/-! ## Taking a cluster -/

theorem clusterScan_spec (m : Map) {len : ℕ} : ∀ n run got0, run < len → run ≤ got0 →
    (∀ j, got0 - run ≤ j → j < got0 → isset m j = true) →
    ∀ got, clusterScan m len n run got0 = some got → got0 ≤ got ∧ got < got0 + n ∧ len ≤ got + 1 ∧
        ∀ j, got + 1 - len ≤ j → j < got + 1 → isset m j = true := by
  intro n
  induction n with
  | zero => exact fun run got0 _ _ _ got h => absurd h nofun
  | succ n ih =>
    intro run got0 hrun hle hset got h
    rw [clusterScan] at h
    split at h
    · rename_i hbit
      have hset' : ∀ j, got0 - run ≤ j → j < got0 + 1 → isset m j = true := by
        intro j hlo hhi
        by_cases hj : j = got0
        · exact hj ▸ hbit
        · exact hset j hlo (by omega)
      split at h
      · cases h
        exact ⟨le_refl _, by omega, by omega, fun j _ => hset' j (by omega)⟩
      · obtain ⟨hge, hlt, hlen, hall⟩ := ih (run + 1) (got0 + 1) (by omega) (by omega)
          (fun j hlo hhi => hset' j (by omega) hhi) got h
        exact ⟨by omega, by omega, hlen, hall⟩
    · obtain ⟨hge, hlt, hlen, hall⟩ := ih 0 (got0 + 1) (by omega) (by omega)
        (fun j hlo hhi => absurd hhi (by omega)) got h
      exact ⟨by omega, by omega, hlen, hall⟩

theorem clusterCheck_eq_true : ∀ n b,
    (∀ j, b ≤ j → j < b + n → ffsIsblock frag m j = true) → clusterCheck frag m n b = true := by
  intro n
  induction n with
  | zero => exact fun b _ => rfl
  | succ n ih =>
    intro b hall
    rw [clusterCheck, hall b (le_refl _) (by omega)]
    exact ih (b + 1) fun j hlo hhi => hall j (by omega) (by omega)

/-- A block of a group, by its number in the file system. -/
theorem Geometry.block_number (hgeo : Geometry fs) (hb : b < fs.nblk) (i : ℕ) :
    fs.dtog (fs.cgbase i + b * fs.fsFrag.num) = i ∧
    fs.fragstoblks (fs.dtogd (fs.blknum (fs.cgbase i + b * fs.fsFrag.num))) = b := by
  have hpos := fs.fsFrag.num_pos
  have hlt := hgeo.lt_fpg hb hpos
  have hnum : fs.blknum (fs.cgbase i + b * fs.fsFrag.num) = fs.cgbase i + b * fs.fsFrag.num := by
    refine Nat.div_mul_cancel (Nat.dvd_add ?_ (Nat.dvd_mul_left _ _))
    exact Dvd.dvd.mul_right hgeo.dvd i
  refine ⟨?_, ?_⟩
  · rw [Fs.dtog, Fs.cgbase, mul_add_div hgeo.fpg_pos, div_eq_of_lt (by omega), Nat.add_zero]
  · rw [hnum, Fs.dtogd, Fs.cgbase, mul_add_mod, mod_eq_of_lt (by omega), Fs.fragstoblks,
      Nat.mul_div_cancel b hpos]

/-- The blocks of a cluster are taken one by one. -/
theorem clusterTake_spec : ∀ n b (fs : Fs), Consistent fs → i < fs.fsNcg → b + n ≤ fs.nblk →
    (∀ j, b ≤ j → j < b + n → Full (blk fs.fsFrag (fs.cg i).blksfree j) fs.fsFrag.num) →
    ∃ fs', clusterTake i n (fs.cgbase i + b * fs.fsFrag.num) fs = .ok fs' ∧ Consistent fs' := by
  intro n
  induction n with
  | zero => exact fun b fs h _ _ _ => ⟨fs, rfl, h⟩
  | succ n ih =>
    intro b fs h hi hle hfull
    have hpos := fs.fsFrag.num_pos
    have hb : b < fs.nblk := by omega
    have hblock := hfull b (le_refl _) (by omega)
    obtain ⟨hdtog, hnumber⟩ := h.toGeometry.block_number hb i
    have hnb : (fs.cg i).cgCs.csNbfree ≠ 0 := by
      rw [(h.group i hi).counted.nb, cast_ne_zero]
      refine total_ne_zero hb ?_
      rw [nbOf, if_pos hblock]
      exact Nat.one_ne_zero
    -- the block is not the first one of the file system, which holds the boot block
    have hne : fs.cgbase i + b * fs.fsFrag.num ≠ 0 := by
      intro hzero
      have hb0 : b = 0 := by
        have : b * fs.fsFrag.num = 0 := by omega
        rcases Nat.mul_eq_zero.mp this with h0 | h0
        · exact h0
        · omega
      have hi0 : i = 0 := by
        rw [← hdtog, hzero, Fs.dtog, Nat.zero_div]
      have hset := hblock 0 hpos
      rw [blk_of_lt _ b hpos, hb0, hi0, Nat.zero_mul, h.boot] at hset
      cases hset
    obtain ⟨b', c', maxcluster, heq, htaken, hpref⟩ :=
      alloccgblk_spec h.toGeometry rfl (h.group i hi) hnb (fs.cgbase i + b * fs.fsFrag.num)
    obtain rfl : b' = b := by
      rw [hnumber] at hpref
      exact hpref hne hdtog hblock
    have hbits : TakeBits (fs.cg i).blksfree c'.blksfree (b' * fs.fsFrag.num + 0) fs.fsFrag.num :=
      htaken.bits
    have hconsistent : Consistent (fs.put i c' (-1) 0 maxcluster) :=
      (Taken.of_run h.toGeometry htaken.lt (hblock.maxRun hpos) (le_refl _) hbits htaken.ok
        htaken.cs).consistent h hi
    rw [clusterTake, heq]
    dsimp only
    rw [if_neg (fun hcon => hcon rfl)]
    have hnext := ih (b' + 1) (fs.put i c' (-1) 0 maxcluster) hconsistent hi
      (by change b' + 1 + n ≤ fs.nblk; omega) fun j hlo hhi => ?_
    · rw [succ_mul, ← Nat.add_assoc] at hnext
      exact hnext
    · rw [put_self]
      change Full (blk fs.fsFrag c'.blksfree j) fs.fsFrag.num
      rw [hbits.blk_other (Nat.zero_add _).le (by omega)]
      exact hfull j (by omega) (by omega)

/-- The largest cluster of a group is only a hint. -/
theorem Consistent.setMaxcluster (h : Consistent fs) (maxcluster : ℕ → ℕ) :
    Consistent { fs with fsMaxcluster := maxcluster } := by
  refine ⟨⟨h.fpg_pos, h.dvd, h.size_le⟩, fun i hi => ?_, h.summary, h.totalNb, h.totalNf, h.boot⟩
  have hok := h.group i hi
  exact ⟨hok.cgx, hok.counted, hok.beyond, hok.frotor, hok.cluster, hok.nclusterblks⟩

/-- **`ffs_clusteralloc` takes a cluster**, or takes nothing. -/
theorem clusteralloc_spec (h : Consistent fs) (hi : i < fs.fsNcg) (bpref : ℕ) (hlen : 0 < len) :
    ∃ r fs', ffsClusteralloc fs i bpref len = .ok (r, fs') ∧ Consistent fs' := by
  have hok := h.group i hi
  rw [ffsClusteralloc]
  dsimp only
  split
  · exact ⟨0, fs, rfl, h⟩
  split
  · exact ⟨0, _, rfl, h.setMaxcluster _⟩
  rename_i hhas
  have hcontig : fs.fsContigsumsize ≠ 0 := by
    intro hzero
    rw [hzero, show 0 + 1 - len = 0 by omega] at hhas
    exact hhas rfl
  generalize (if fs.dtog bpref ≠ i then 0
    else fs.fragstoblks (fs.dtogd (fs.blknum bpref))) = start
  split
  · exact ⟨0, fs, rfl, h⟩
  rename_i got hscan
  obtain ⟨hge, hlt, hle, hall⟩ := clusterScan_spec _ _ 0 start hlen (Nat.zero_le _)
    (fun j hlo hhi => absurd hhi (by omega)) got hscan
  have hnblk := hok.nclusterblks
  -- the cluster map has the wholly free blocks
  have hblocks : ∀ j, got + 1 - len ≤ j → j < got + 1 - len + len →
      ffsIsblock fs.fsFrag (fs.cg i).blksfree j = true := by
    intro j hlo hhi
    rw [← hok.cluster hcontig j (by omega)]
    exact hall j hlo (by omega)
  rw [if_neg (by rw [clusterCheck_eq_true _ _ hblocks]; decide), Fs.blkstofrags]
  have hdtog := (h.toGeometry.block_number (b := got + 1 - len) (by omega) i).1
  rw [if_neg (not_not.mpr hdtog)]
  obtain ⟨fs', heq, hfs'⟩ := clusterTake_spec len (got + 1 - len) fs h hi (by omega)
    fun j hlo hhi => (isblock_iff ..).mp (hblocks j hlo hhi)
  rw [heq]
  exact ⟨_, fs', rfl, hfs'⟩

/-! ## Freeing a piece -/

/-- The fragments of a piece are freed one by one. -/
theorem freeBits_eq : ∀ (n : ℕ) (m : Map) (bno : ℕ),
    (∀ j, bno ≤ j → j < bno + n → isset m j = false) →
    freeBits m n bno = .ok (setBits m n bno) := by
  intro n
  induction n with
  | zero => exact fun m bno _ => rfl
  | succ n ih =>
    intro m bno hclear
    rw [freeBits, hclear bno (le_refl _) (by omega)]
    refine ih (setbit m bno) (bno + 1) fun j hlo hhi => ?_
    rw [isset_setbit, hclear j (by omega) (by omega), decide_eq_false (by omega), Bool.or_false]

/-- What is freed can be taken again. -/
theorem takeBits_of_free {m' : Map} (hclear : ∀ j, bno ≤ j → j < bno + n → isset m j = false)
    (hbits : ∀ j, isset m' j = (isset m j || decide (bno ≤ j ∧ j < bno + n))) :
    TakeBits m' m bno n := by
  intro j
  rw [hbits]
  by_cases hj : bno ≤ j ∧ j < bno + n
  · rw [hclear j hj.1 hj.2, decide_eq_true hj, Bool.not_true, Bool.and_false]
  · rw [decide_eq_false hj, Bool.or_false, Bool.not_false, Bool.and_true]

/-- A group after a piece of a block is freed. -/
theorem GroupOk.give (hgeo : Geometry fs) (h : GroupOk fs i c) (hcgx : c'.cgCgx = c.cgCgx)
    (hncl : c'.nclusterblks = c.nclusterblks) (hfrotor : c'.cgFrotor = c.cgFrotor)
    (hcounted : Counted fs.fsFrag fs.nblk c')
    (hbits : TakeBits c'.blksfree c.blksfree (b * fs.fsFrag.num + q) n) (hb : b < fs.nblk)
    (hn : 0 < n) (hle : q + n ≤ fs.fsFrag.num)
    (hcluster : fs.fsContigsumsize ≠ 0 → ∀ j, isset c'.clustersfree j =
      if j = b ∧ Full (blk fs.fsFrag c'.blksfree b) fs.fsFrag.num then true
      else isset c.clustersfree j) : GroupOk fs i c' := by
  refine ⟨hcgx.trans h.cgx, hcounted, fun j hj => ?_, ?_, fun hne j hj => ?_, ?_⟩
  · have hlt := hgeo.lt_fpg hb (q := q + n - 1) (by omega)
    have hsame := hbits j
    rw [h.beyond j hj, decide_eq_false (by omega), Bool.not_false, Bool.and_true] at hsame
    exact hsame.symm
  · rw [hfrotor]
    exact h.frotor
  · rw [hncl] at hj
    -- the block was not free before
    rw [hcluster hne j, h.cluster hne j hj, hbits.isblock hn hle]
    by_cases hjb : j = b
    · simp [hjb, ← isblock_iff]
    · rw [if_neg (fun hcon => hjb hcon.1), if_neg hjb]
  · rw [hncl]
    exact h.nclusterblks

theorem put_put_put (fs : Fs) (i : ℕ) (c c' : Cg) (nb nf nb' nf' : ℤ) (maxcluster max' : ℕ → ℕ) :
    (fs.put i c nb nf maxcluster).put i c' nb' nf' max' =
      fs.put i c' (nb + nb') (nf + nf') max' := by
  rw [Fs.put, put_put]
  rfl

/-- **A piece of a block is freed.** -/
theorem Consistent.give (h : Consistent fs) (hgroup : i < fs.fsNcg) (hc : fs.cg i = c)
    (hcgx : c'.cgCgx = c.cgCgx) (hncl : c'.nclusterblks = c.nclusterblks)
    (hfrotor : c'.cgFrotor = c.cgFrotor) (hcs : c'.cgCs = c.cgCs.add nb nf)
    (hnb : nb = if Full (blk fs.fsFrag c'.blksfree b) fs.fsFrag.num then 1 else 0)
    (hnf : nf = n - if Full (blk fs.fsFrag c'.blksfree b) fs.fsFrag.num then
      (fs.fsFrag.num : ℤ) else 0)
    (hfr : ∀ k, 0 < k → k < fs.fsFrag.num → c'.cgFrsum k = c.cgFrsum k -
      runs (blk fs.fsFrag c.blksfree b) fs.fsFrag.num k +
      runs (blk fs.fsFrag c'.blksfree b) fs.fsFrag.num k)
    (hbits : ∀ j, isset c'.blksfree j = (isset c.blksfree j ||
      decide (b * fs.fsFrag.num + q ≤ j ∧ j < b * fs.fsFrag.num + q + n)))
    (hused : ∀ j, b * fs.fsFrag.num + q ≤ j → j < b * fs.fsFrag.num + q + n →
      isset c.blksfree j = false)
    (hb : b < fs.nblk) (hn : 0 < n) (hle : q + n ≤ fs.fsFrag.num)
    (hcluster : fs.fsContigsumsize ≠ 0 → ∀ j, isset c'.clustersfree j =
      if j = b ∧ Full (blk fs.fsFrag c'.blksfree b) fs.fsFrag.num then true
      else isset c.clustersfree j)
    (hzero : i = 0 → b * fs.fsFrag.num + q ≠ 0) :
    Consistent (fs.put i c' nb nf maxcluster) := by
  have htake := takeBits_of_free hused hbits
  have hok := h.group i hgroup
  rw [hc] at hok
  refine h.put hgroup ?_ (hcs.trans (by rw [hc])) fun hi0 => ?_
  · refine hok.give h.toGeometry hcgx hncl hfrotor ?_ htake hb hn hle hcluster
    refine hok.counted.give htake hb hn hle (fun j hlo hhi => ?_) ?_ ?_ hfr
    · rw [blk_of_lt _ b (by omega), hbits, decide_eq_true (by omega), Bool.or_true]
    · rw [hcs, ← hnb]
      rfl
    · rw [hcs, Int.add_sub_assoc, ← hnf]
      rfl
  · -- the first fragment of the file system is not freed
    rw [hbits, decide_eq_false (by omega), Bool.or_false, ← hc, hi0]
    exact h.boot

/-- The account of a block that has become free. -/
theorem blockFreed_eq (fs : Fs) (i b : ℕ) (hc : fs.cg i = c) : ∃ map sum maxcluster,
    ((ffsClusteracct fs i b 1).setCg i { (ffsClusteracct fs i b 1).cg i with
      cgCs := ((ffsClusteracct fs i b 1).cg i).cgCs.add 1 0 }).addSummary i 1 0 =
    fs.put i { c with
      clustersfree := map
      clustersum := sum
      cgCs := c.cgCs.add 1 0 } 1 0 maxcluster ∧
    (fs.fsContigsumsize ≠ 0 → ∀ j, isset map j =
      if j = b then true else isset c.clustersfree j) := by
  obtain ⟨map, sum, maxcluster, heq, hbits⟩ := clusteracct_eq fs i b 1 hc
  refine ⟨map, sum, maxcluster, ?_, hbits⟩
  rw [heq]
  simp [Fs.setCg, Fs.put, Fs.addSummary]

/-- A block that is in use has no runs. -/
theorem runs_of_used {f : ℕ → Bool} (h : ∀ j < frag.num, f j = false) (k : ℕ) :
    runs f frag.num k = 0 := by
  refine Nat.count_iff_forall_not.mpr fun p hp hrun => ?_
  have := hrun.not_clear (h p hp)
  have := hrun.1
  omega

/-- The bits that `ffs_setblock` sets. -/
theorem isset_setblock_range (frag : Frag) (m : Map) (b j : ℕ) : isset (ffsSetblock frag m b) j =
      (isset m j || decide (b * frag.num ≤ j ∧ j < b * frag.num + frag.num)) := by
  rw [isset_setblock]
  congr 1
  refine decide_eq_decide.mpr ?_
  rw [Nat.div_eq_iff frag.num_pos]
  have := frag.num_pos
  omega

/-- **`ffs_blkfree` frees a piece.** -/
theorem blkfree_spec (h : Consistent fs) (hpiece : Piece fs bno frags) (hne : bno ≠ 0) :
    ∃ fs', ffsBlkfree fs bno frags = .ok fs' ∧ Consistent fs' := by
  obtain ⟨hpos, hgroup, hin, hused⟩ := hpiece
  obtain ⟨hbno, hnum, hb⟩ := h.toGeometry.dtogd_eq bno
  rw [ffsBlkfree]
  dsimp only
  rw [if_neg (by omega)]
  split
  · exact ⟨fs, rfl, h⟩
  generalize hi : fs.dtog bno = i at hgroup hused
  obtain ⟨c, hc⟩ : ∃ c, fs.cg i = c := ⟨_, rfl⟩
  rw [hc] at hused ⊢
  have hzero : i = 0 → fs.dtogd bno ≠ 0 := by
    intro hi0 hd0
    refine hne ?_
    rw [← div_add_mod bno fs.fsFpg, show bno / fs.fsFpg = 0 from hi.trans hi0,
      show bno % fs.fsFpg = 0 from hd0, Nat.mul_zero]
  generalize fs.fragstoblks (fs.dtogd bno) = b at hbno hb ⊢
  split
  · rename_i hblock
    have hstart : fs.fragnum bno = 0 := by omega
    rw [hbno, hstart, hblock] at hused
    have hfree : ∀ j < fs.fsFrag.num, blk fs.fsFrag c.blksfree b j = false := by
      intro j hj
      rw [blk_of_lt _ b hj]
      exact hused _ (by omega) (by omega)
    rw [(isfreeblock_iff fs.fsFrag c.blksfree b).mpr hfree]
    obtain ⟨map, sum, maxcluster, heq, hmap⟩ := blockFreed_eq (fs.setCg i { c with
      blksfree := ffsSetblock fs.fsFrag c.blksfree b }) i b (setCg_self ..)
    rw [setCg_put] at heq
    refine ⟨_, rfl, ?_⟩
    rw [heq]
    have hfull : Full (blk fs.fsFrag (ffsSetblock fs.fsFrag c.blksfree b) b) fs.fsFrag.num := by
      intro j hj
      rw [blk_of_lt _ b hj, isset_setblock_range, decide_eq_true (by omega), Bool.or_true]
    refine h.give hgroup hc rfl rfl rfl rfl ?_ ?_
      (fun k hk hlt => ?_) (isset_setblock_range fs.fsFrag c.blksfree b) hused hb (by omega)
      (by omega) (fun hne j => ?_) fun hi0 => ?_
    · rw [if_pos hfull]
    · rw [if_pos hfull, Int.sub_self]
    · change c.cgFrsum k = _
      rw [runs_of_used hfree, runs_of_full hfull hlt]
      omega
    · simp only [hmap hne j, and_iff_left hfull]
    · omega
  · have heq := freeBits_eq frags c.blksfree (fs.dtogd bno) hused
    have hm := isset_setBits frags c.blksfree (fs.dtogd bno)
    generalize setBits c.blksfree frags (fs.dtogd bno) = m at heq hm
    have hbase : fs.dtogd bno - fs.fragnum (fs.dtogd bno) = b * fs.fsFrag.num := by omega
    rw [heq, hbase]
    dsimp only
    generalize hfrsum : ffsFragacct fs.fsFrag (blkmap fs.fsFrag m (b * fs.fsFrag.num))
      (ffsFragacct fs.fsFrag (blkmap fs.fsFrag c.blksfree (b * fs.fsFrag.num)) c.cgFrsum (-1)) 1 =
      frsum
    have hfr : ∀ k, 0 < k → k < fs.fsFrag.num → frsum k = c.cgFrsum k -
        runs (blk fs.fsFrag c.blksfree b) fs.fsFrag.num k +
        runs (blk fs.fsFrag m b) fs.fsFrag.num k := by
      intro k hk hlt
      rw [← hfrsum, fragacct_eq _ _ _ _ _ hk hlt, fragacct_eq _ _ _ _ _ hk hlt]
      omega
    rw [hbno] at hm hused hzero
    generalize hc1 : Cg.mk c.cgCgx (c.cgCs.add 0 frags) frsum c.cgRotor c.cgFrotor m
      c.nclusterblks c.clustersfree c.clustersum = c1
    generalize hfs1 : (fs.setCg i c1).addSummary i 0 frags = fs1
    have hcg : fs1.cg i = c1 := by
      rw [← hfs1]
      exact put_self fs i c1 0 frags fs.fsMaxcluster
    have hblkno : fs1.fragstoblks (b * fs.fsFrag.num) = b := by
      rw [← hfs1]
      exact Nat.mul_div_cancel _ fs.fsFrag.num_pos
    rw [hblkno, hcg]
    split
    · -- the last piece of its block is freed
      rename_i hfull
      rw [isblock_iff] at hfull
      obtain ⟨map, sum, maxcluster, heq, hmap⟩ := blockFreed_eq ((fs1.setCg i { c1 with
        cgCs := c1.cgCs.add 0 (-fs.fsFrag.num) }).addSummary i 0 (-fs.fsFrag.num)) i b
        (put_self fs1 i _ 0 _ fs1.fsMaxcluster)
      refine ⟨_, rfl, ?_⟩
      have hput : (fs.setCg i c1).addSummary i 0 frags = fs.put i c1 0 frags fs.fsMaxcluster := rfl
      rw [heq, ← hfs1, hput, put_put, put_put_put, ← hc1]
      refine h.give hgroup hc rfl rfl rfl ?_ ?_ ?_ hfr hm hused hb hpos hin (fun hne j => ?_) hzero
      · rw [Csum.add_add, Csum.add_add, Int.add_assoc]
      · rw [if_pos hfull]
        rfl
      · rw [if_pos hfull]
        omega
      · rw [← hfs1, ← hc1] at hmap
        simp only [hmap hne j, and_iff_left hfull]
    · rename_i hfull
      rw [isblock_iff] at hfull
      refine ⟨_, rfl, ?_⟩
      rw [← hfs1, ← hc1]
      refine h.give hgroup hc rfl rfl rfl rfl ?_ ?_ hfr hm hused hb hpos hin (fun _ j => ?_) hzero
      · rw [if_neg hfull]
      · rw [if_neg hfull, Int.sub_zero]
      · rw [if_neg fun hcon => hfull hcon.2]

/-! ## Runs -/

/-- One call on the groups: an allocation of a block or of a part of one, the extension of a piece,
the allocation of a cluster, or the free of a piece. -/
inductive FfsStep (fs : Fs) : Fs → Prop
  | alloccg {i bpref frags r : ℕ} {fs' : Fs} (hi : i < fs.fsNcg) (hpos : 1 ≤ frags)
      (hle : frags ≤ fs.fsFrag.num) (h : ffsAlloccg fs i bpref frags = .ok (r, fs')) :
      FfsStep fs fs'
  | fragextend {bprev osize nsize : ℕ} (hpiece : Piece fs bprev osize) (hlt : osize < nsize)
      (hle : nsize ≤ fs.fsFrag.num) :
      FfsStep fs (ffsFragextend fs (fs.dtog bprev) bprev osize nsize).2
  | clusteralloc {i bpref len r : ℕ} {fs' : Fs} (hi : i < fs.fsNcg) (hlen : 0 < len)
      (h : ffsClusteralloc fs i bpref len = .ok (r, fs')) : FfsStep fs fs'
  | blkfree {bno frags : ℕ} {fs' : Fs} (hpiece : Piece fs bno frags) (hne : bno ≠ 0)
      (h : ffsBlkfree fs bno frags = .ok fs') : FfsStep fs fs'

theorem FfsStep.consistent (hstep : FfsStep fs fs') (h : Consistent fs) : Consistent fs' := by
  cases hstep with
  | @alloccg i bpref frags r fs' hi hpos hle hcall =>
    rcases alloccg_spec h.toGeometry rfl (h.group i hi) (h.summary i hi) bpref hpos hle with
      ⟨heq, -⟩ | ⟨bno, c', nb, nf, maxcluster, heq, htaken⟩
    · rw [heq] at hcall
      cases hcall
      exact h
    · rw [heq] at hcall
      cases hcall
      exact htaken.consistent h hi
  | @fragextend bprev osize nsize hpiece hlt hle =>
    rcases fragextend_spec h hpiece hlt hle rfl rfl with heq | ⟨c', maxcluster, heq, htaken⟩
    · rw [heq]
      exact h
    · rw [heq]
      exact htaken.consistent h hpiece.inGroup
  | @clusteralloc i bpref len r fs' hi hlen hcall =>
    obtain ⟨r1, fs1, heq, hcons⟩ := clusteralloc_spec h hi bpref hlen
    rw [heq] at hcall
    cases hcall
    exact hcons
  | @blkfree bno frags fs' hpiece hne hcall =>
    obtain ⟨fs1, heq, hcons⟩ := blkfree_spec h hpiece hne
    rw [heq] at hcall
    cases hcall
    exact hcons

/-- **The counters of the groups and of the superblock.**  In every state that allocations and
frees reach from a consistent one, `cs_nbfree` of a group is the number of its wholly free blocks,
`cs_nffree` is the number of the free fragments of the other blocks, and `cg_frsum[k]` is the number
of their maximal runs of `k` free fragments.  The superblock holds the same counters for each group,
and their sums. -/
theorem ffs_counters (h : Reachable Consistent FfsStep fs) : (∀ i < fs.fsNcg,
      ((fs.cg i).cgCs.csNbfree = total (nbOf fs.fsFrag) fs.fsFrag (fs.cg i).blksfree fs.nblk ∧
        (fs.cg i).cgCs.csNffree = total (nfOf fs.fsFrag) fs.fsFrag (fs.cg i).blksfree fs.nblk ∧
        ∀ k, 0 < k → k < fs.fsFrag.num → (fs.cg i).cgFrsum k =
          total (frOf fs.fsFrag k) fs.fsFrag (fs.cg i).blksfree fs.nblk) ∧
      fs.fsCs i = (fs.cg i).cgCs) ∧
    fs.fsCstotal.csNbfree = ∑ i ∈ Finset.range fs.fsNcg, (fs.fsCs i).csNbfree ∧
    fs.fsCstotal.csNffree = ∑ i ∈ Finset.range fs.fsNcg, (fs.fsCs i).csNffree := by
  have hcons : Consistent fs :=
    h.invariant (fun _ hinit => hinit) fun _ _ hfs hstep => hstep.consistent hfs
  refine ⟨fun i hi => ⟨?_, hcons.summary i hi⟩, hcons.totalNb, hcons.totalNf⟩
  have hcounted := (hcons.group i hi).counted
  exact ⟨hcounted.nb, hcounted.nf, hcounted.fr⟩

theorem ffs_counters_oneGroup : ∃ fs, FfsStep oneGroup fs ∧
    (fs.cg 0).cgCs.csNffree = total (nfOf fs.fsFrag) fs.fsFrag (fs.cg 0).blksfree fs.nblk := by
  have hcons := consistent_oneGroup
  obtain ⟨fs, heq⟩ : ∃ fs, ffsAlloccg oneGroup 0 5 1 = .ok (3, fs) := ⟨_, rfl⟩
  have hstep : FfsStep oneGroup fs := .alloccg (by decide) (by decide) (by decide) heq
  have hreach : Reachable Consistent FfsStep fs := (Reachable.of_init hcons).tail hstep
  have hncg : 0 < fs.fsNcg := by
    have heq' := heq
    cases heq'
    decide
  exact ⟨fs, hstep, ((ffs_counters hreach).1 0 hncg).1.2.1⟩

end FreeBSDSys.Ffs
