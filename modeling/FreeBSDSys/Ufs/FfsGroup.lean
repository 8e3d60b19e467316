import FreeBSDSys.Ufs.FfsCount

/-!
# Allocation in a consistent cylinder group

A cylinder group is consistent when its counters are the recount of its free map and its cluster map
has the wholly free blocks.  Every allocation writes one group and adds the same numbers to the
counters of the group, to those of the superblock for the group and to the totals (`Fs.put`).

* `GroupOk`, `Consistent`: a consistent group, and a consistent set of groups.
* `mapsearch_spec`: when the counters promise a maximal run of the size, `ffs_mapsearch` finds one.
* `alloccgblk_spec`: `ffs_alloccgblk` takes a free block, the preferred one if that is free.
* `alloccg_spec`: `ffs_alloccg` takes fragments in one block, or the group has no room for them.
-/

namespace FreeBSDSys.Ffs

open Finset Function Nat Runs

/-! ## Consistency -/

/-- The blocks of a group. -/
def Fs.nblk (fs : Fs) : ℕ := fs.fsFpg / fs.fsFrag.num

/-- A consistent group. -/
structure GroupOk (fs : Fs) (i : ℕ) (c : Cg) : Prop where
  cgx : c.cgCgx = i
  counted : Counted fs.fsFrag fs.nblk c
  /-- Nothing is free behind the end of the group. -/
  beyond : ∀ j, fs.fsFpg ≤ j → isset c.blksfree j = false
  frotor : c.cgFrotor < fs.fsFpg
  cluster : fs.fsContigsumsize ≠ 0 → ∀ b < c.nclusterblks,
    isset c.clustersfree b = ffsIsblock fs.fsFrag c.blksfree b
  nclusterblks : c.nclusterblks ≤ fs.nblk

/-- The groups are made of whole blocks. -/
structure Geometry (fs : Fs) : Prop where
  fpg_pos : 0 < fs.fsFpg
  dvd : fs.fsFrag.num ∣ fs.fsFpg
  size_le : fs.fsSize ≤ fs.fsNcg * fs.fsFpg

/-- A consistent set of cylinder groups. -/
structure Consistent (fs : Fs) : Prop extends Geometry fs where
  group : ∀ i < fs.fsNcg, GroupOk fs i (fs.cg i)
  summary : ∀ i < fs.fsNcg, fs.fsCs i = (fs.cg i).cgCs
  totalNb : fs.fsCstotal.csNbfree = ∑ i ∈ range fs.fsNcg, (fs.fsCs i).csNbfree
  totalNf : fs.fsCstotal.csNffree = ∑ i ∈ range fs.fsNcg, (fs.fsCs i).csNffree
  /-- The first fragment holds the boot block. -/
  boot : isset (fs.cg 0).blksfree 0 = false

/-- The store of a group, with what it adds to the counters of the superblock. -/
def Fs.put (fs : Fs) (i : ℕ) (c : Cg) (nb nf : ℤ) (maxcluster : ℕ → ℕ) : Fs :=
  { (fs.setCg i c).addSummary i nb nf with fsMaxcluster := maxcluster }

variable {fs : Fs} {c c' : Cg} {i b q a n bno bpref frags j nblk : ℕ} {nb nf : ℤ}
  {maxcluster : ℕ → ℕ} {F : (ℕ → Bool) → ℕ} {frag : Frag} {m : Map}

theorem Geometry.nblk_mul (h : Geometry fs) : fs.nblk * fs.fsFrag.num = fs.fsFpg :=
  Nat.div_mul_cancel h.dvd

/-- A fragment of a block of the group. -/
theorem Geometry.lt_nblk (h : Geometry fs) (hlt : b * fs.fsFrag.num < fs.fsFpg) : b < fs.nblk := by
  rw [← h.nblk_mul] at hlt
  exact Nat.lt_of_mul_lt_mul_right hlt

theorem Geometry.lt_fpg (h : Geometry fs) (hb : b < fs.nblk) (hq : q < fs.fsFrag.num) :
    b * fs.fsFrag.num + q < fs.fsFpg := by
  have := Nat.mul_le_mul_right fs.fsFrag.num hb
  rw [h.nblk_mul, succ_mul] at this
  omega

theorem sum_update_range {g : ℕ → Csum} (pr : Csum → ℤ) (x : Csum) (hi : i < n) :
    ∑ j ∈ range n, pr (update g i x j) = (∑ j ∈ range n, pr (g j)) + (pr x - pr (g i)) := by
  have hmem : i ∈ range n := mem_range.mpr hi
  have hrest : ∑ j ∈ (range n).erase i, pr (update g i x j) = ∑ j ∈ (range n).erase i, pr (g j) :=
    sum_congr rfl fun j hj => by rw [update_of_ne (ne_of_mem_erase hj)]
  rw [← add_sum_erase _ _ hmem, ← add_sum_erase _ _ hmem, update_self]
  omega

theorem GroupOk.put (h : GroupOk fs j c') : GroupOk (fs.put i c nb nf maxcluster) j c' :=
  ⟨h.cgx, h.counted, h.beyond, h.frotor, h.cluster, h.nclusterblks⟩

/-- **The store of a consistent group** whose counters have changed by what is added to those of the
superblock. -/
theorem Consistent.put (h : Consistent fs) (hi : i < fs.fsNcg) (hok : GroupOk fs i c)
    (hcs : c.cgCs = (fs.cg i).cgCs.add nb nf) (hboot : i = 0 → isset c.blksfree 0 = false) :
    Consistent (fs.put i c nb nf maxcluster) := by
  refine ⟨⟨h.fpg_pos, h.dvd, h.size_le⟩, fun j hj => ?_, fun j hj => ?_, ?_, ?_, ?_⟩
  · change GroupOk _ j (update fs.cg i c j)
    refine GroupOk.put ?_
    by_cases hji : j = i
    · subst hji
      rw [update_self]
      exact hok
    · rw [update_of_ne hji]
      exact h.group j hj
  · change update fs.fsCs i ((fs.fsCs i).add nb nf) j = (update fs.cg i c j).cgCs
    by_cases hji : j = i
    · subst hji
      rw [update_self, update_self, hcs, h.summary j hj]
    · rw [update_of_ne hji, update_of_ne hji]
      exact h.summary j hj
  · change fs.fsCstotal.csNbfree + nb = ∑ j ∈ range fs.fsNcg,
      (update fs.fsCs i ((fs.fsCs i).add nb nf) j).csNbfree
    rw [sum_update_range Csum.csNbfree _ hi, h.totalNb]
    change _ = _ + ((fs.fsCs i).csNbfree + nb - (fs.fsCs i).csNbfree)
    omega
  · change fs.fsCstotal.csNffree + nf = ∑ j ∈ range fs.fsNcg,
      (update fs.fsCs i ((fs.fsCs i).add nb nf) j).csNffree
    rw [sum_update_range Csum.csNffree _ hi, h.totalNf]
    change _ = _ + ((fs.fsCs i).csNffree + nf - (fs.fsCs i).csNffree)
    omega
  · change isset (update fs.cg i c 0).blksfree 0 = false
    by_cases hi0 : 0 = i
    · subst hi0
      exact hboot rfl
    · rw [update_of_ne hi0]
      exact h.boot

/-! ## The search -/

theorem Frag.perByte_mul (frag : Frag) : frag.perByte * frag.num = nbby := by cases frag <;> rfl

section

variable (hgeo : Geometry fs) (hbeyond : ∀ j, fs.fsFpg ≤ j → isset c.blksfree j = false)

include hgeo hbeyond

/-- The byte that `scanc` has found holds a maximal run of the size. -/
theorem mapsearchByte_spec (ha : 0 < a) (hle : a ≤ fs.fsFrag.num) {byte : ℕ}
    (hbyte : fragtbl fs.fsFrag (c.blksfree byte).toNat &&& scanMask fs.fsFrag a ≠ 0) :
    ∃ b q frotor, mapsearchByte fs c a byte =
        .ok (b * fs.fsFrag.num + q, { c with cgFrotor := frotor }) ∧
      frotor < fs.fsFpg ∧ b < fs.nblk ∧ MaxRun (blk fs.fsFrag c.blksfree b) fs.fsFrag.num q a := by
  obtain ⟨b', hb', q', hrun'⟩ := (table_iff fs.fsFrag c.blksfree byte ha hle).mp hbyte
  have hbase : byte * nbby = byte * fs.fsFrag.perByte * fs.fsFrag.num := by
    rw [Nat.mul_assoc, Frag.perByte_mul]
  have hper : 0 < fs.fsFrag.perByte := by cases fs.fsFrag <;> decide
  have hdiv := div_add_mod b' fs.fsFrag.perByte
  have hmod := mod_lt b' hper
  rw [show b' / fs.fsFrag.perByte = byte from hb', Nat.mul_comm] at hdiv
  rcases sift_spec fs.fsFrag c.blksfree ha hle fs.fsFrag.perByte (byte * fs.fsFrag.perByte) with
    ⟨-, hnone⟩ | ⟨b, q, hsome, hlo, hhi, hrun⟩
  · exact absurd hrun' (hnone b' (by omega) (by omega) q')
  · refine ⟨b, q, byte * nbby, ?_, ?_⟩
    · rw [mapsearchByte, hbase, hsome]
    · -- the first fragment of the run is free, so it lies in the group
      have hq := hrun.2.1
      have hset := hrun.set (Nat.le_refl _) (by omega)
      rw [blk_of_lt c.blksfree b (by omega)] at hset
      have hlt : b * fs.fsFrag.num + q < fs.fsFpg := by
        by_contra hcon
        rw [hbeyond _ (Nat.not_lt.mp hcon)] at hset
        cases hset
      have hmul := Nat.mul_le_mul_right fs.fsFrag.num hlo
      exact ⟨by omega, hgeo.lt_nblk (by omega), hrun⟩

/-- **`ffs_mapsearch` finds a maximal run of the size** when there is one. -/
theorem mapsearch_spec (hfrotor : c.cgFrotor < fs.fsFpg)
    (bpref : ℕ) (ha : 0 < a) (hle : a ≤ fs.fsFrag.num)
    (hex : ∃ b < fs.nblk, ∃ q, MaxRun (blk fs.fsFrag c.blksfree b) fs.fsFrag.num q a) :
    ∃ b q frotor, ffsMapsearch fs c bpref a =
        .ok (b * fs.fsFrag.num + q, { c with cgFrotor := frotor }) ∧
      frotor < fs.fsFpg ∧ b < fs.nblk ∧ MaxRun (blk fs.fsFrag c.blksfree b) fs.fsFrag.num q a := by
  obtain ⟨b, hb, q, hrun⟩ := hex
  have hhit := (table_iff fs.fsFrag c.blksfree _ ha hle).mpr ⟨b, rfl, q, hrun⟩
  have hblk := hgeo.lt_fpg hb fs.fsFrag.num_pos
  -- the byte of the block and the byte where the scan starts are bytes of the map
  have hbyte : blkByte fs.fsFrag b < (fs.fsFpg + (nbby - 1)) / nbby := by
    have := mul_div_nbby fs.fsFrag b
    simp only [nbby] at this ⊢
    omega
  have hmod := mod_lt bpref hgeo.fpg_pos
  have hstart : (if bpref ≠ 0 then fs.dtogd bpref / nbby else c.cgFrotor / nbby) <
      (fs.fsFpg + (nbby - 1)) / nbby := by
    simp only [Fs.dtogd, nbby]
    split <;> omega
  rw [ffsMapsearch]
  generalize (if bpref ≠ 0 then fs.dtogd bpref / nbby else c.cgFrotor / nbby) = start at hstart ⊢
  split
  · rcases scanc_spec (fragtbl fs.fsFrag) (scanMask fs.fsFrag a) c.blksfree
      ((fs.fsFpg + (nbby - 1)) / nbby - start) start with ⟨-, hnone⟩ | ⟨hpos, -⟩
    · -- the byte of the run is before the start
      have hbefore : blkByte fs.fsFrag b < start := by
        by_contra hcon
        exact hhit (hnone _ (by omega) (by omega))
      rcases scanc_spec (fragtbl fs.fsFrag) (scanMask fs.fsFrag a) c.blksfree (start + 1) 0 with
        ⟨-, hnone'⟩ | ⟨hpos, -, hfound⟩
      · exact absurd (hnone' _ (by omega) (by omega)) hhit
      · rw [Nat.zero_add] at hfound
        rw [if_neg (by omega)]
        exact mapsearchByte_spec hgeo hbeyond ha hle hfound
    · omega
  · rcases scanc_spec (fragtbl fs.fsFrag) (scanMask fs.fsFrag a) c.blksfree
      ((fs.fsFpg + (nbby - 1)) / nbby - start) start with ⟨hzero, -⟩ | ⟨-, -, hfound⟩
    · exact absurd hzero ‹_›
    · exact mapsearchByte_spec hgeo hbeyond ha hle hfound

end

/-- A counter that is not zero promises a block of the kind. -/
theorem exists_of_total (h : total F frag m nblk ≠ 0) : ∃ b < nblk, F (blk frag m b) ≠ 0 := by
  by_contra hcon
  push Not at hcon
  exact h (sum_eq_zero fun b hb => hcon b (mem_range.mp hb))

theorem total_ne_zero (hb : b < nblk) (h : F (blk frag m b) ≠ 0) : total F frag m nblk ≠ 0 := by
  intro hzero
  exact h (sum_eq_zero_iff.mp hzero b (mem_range.mpr hb))

/-! ## Taking a block -/

@[simp] theorem setCg_self (fs : Fs) (i : ℕ) (c : Cg) : (fs.setCg i c).cg i = c :=
  update_self ..

/-- `ffs_clusteracct` writes the cluster map of the group and the size of the largest cluster. -/
theorem clusteracct_eq (fs : Fs) (i b : ℕ) (cnt : ℤ) {c : Cg} (hc : fs.cg i = c) :
    ∃ map sum maxcluster, ffsClusteracct fs i b cnt =
      { fs.setCg i { c with clustersfree := map, clustersum := sum } with
        fsMaxcluster := maxcluster } ∧
    (fs.fsContigsumsize ≠ 0 → ∀ j, isset map j =
      if j = b then decide (cnt > 0) else isset c.clustersfree j) := by
  subst hc
  rw [ffsClusteracct]
  split
  · rename_i hzero
    refine ⟨(fs.cg i).clustersfree, (fs.cg i).clustersum, fs.fsMaxcluster, ?_, absurd hzero⟩
    rw [Fs.setCg, update_eq_self]
  · refine ⟨_, _, _, rfl, fun _ j => ?_⟩
    split_ifs with hcnt hj hj
    · rw [isset_setbit, decide_eq_true hj, Bool.or_true, decide_eq_true hcnt]
    · rw [isset_setbit, decide_eq_false hj, Bool.or_false]
    · rw [isset_clrbit, decide_eq_true hj, Bool.not_true, Bool.and_false, decide_eq_false hcnt]
    · rw [isset_clrbit, decide_eq_false hj, Bool.not_false, Bool.and_true]

/-- What the end of `ffs_alloccgblk` writes. -/
theorem gotit_eq (fs : Fs) (i bno : ℕ) {c : Cg} (hc : fs.cg i = c) (hcgx : c.cgCgx = i) :
    ∃ map sum maxcluster, alloccgblkGotit fs i bno = (fs.cgbase i + bno, fs.put i { c with
      blksfree := ffsClrblock fs.fsFrag c.blksfree (fs.fragstoblks bno)
      clustersfree := map
      clustersum := sum
      cgCs := c.cgCs.add (-1) 0 } (-1) 0 maxcluster) ∧
    (fs.fsContigsumsize ≠ 0 → ∀ j, isset map j =
      if j = fs.fragstoblks bno then false else isset c.clustersfree j) := by
  obtain ⟨map, sum, maxcluster, heq, hbits⟩ := clusteracct_eq (fs.setCg i { c with
    blksfree := ffsClrblock fs.fsFrag c.blksfree (fs.fragstoblks bno) }) i
    (fs.fragstoblks bno) (-1) (setCg_self ..)
  refine ⟨map, sum, maxcluster, ?_, hbits⟩
  rw [alloccgblkGotit, hc, heq]
  simp [Fs.setCg, hcgx, Fs.put, Fs.addSummary, Fs.cgbase]

theorem setCg_put (fs : Fs) (i : ℕ) (c c' : Cg) (nb nf : ℤ) (maxcluster : ℕ → ℕ) :
    (fs.setCg i c).put i c' nb nf maxcluster = fs.put i c' nb nf maxcluster := by
  simp [Fs.put, Fs.setCg]

/-- Where fragments are taken, the block is no longer wholly free. -/
theorem TakeBits.isblock {m' : Map} (hbits : TakeBits m m' (b * frag.num + q) n) (hn : 0 < n)
    (hle : q + n ≤ frag.num) (j : ℕ) :
    ffsIsblock frag m' j = if j = b then false else ffsIsblock frag m j := by
  split_ifs with hjb
  · subst hjb
    rw [Bool.eq_false_iff, ne_eq, isblock_iff]
    exact not_full_of_cleared (hbits.cleared hle) hn hle
  · rw [Bool.eq_iff_iff, isblock_iff, isblock_iff, hbits.blk_other hle hjb]

/-- A group after fragments of one block are taken. -/
theorem GroupOk.take (h : GroupOk fs i c) (hcgx : c'.cgCgx = c.cgCgx)
    (hncl : c'.nclusterblks = c.nclusterblks) (hfrotor : c'.cgFrotor < fs.fsFpg)
    (hcounted : Counted fs.fsFrag fs.nblk c')
    (hbits : TakeBits c.blksfree c'.blksfree (b * fs.fsFrag.num + q) n) (hn : 0 < n)
    (hle : q + n ≤ fs.fsFrag.num)
    (hcluster : fs.fsContigsumsize ≠ 0 → ∀ j < c.nclusterblks, isset c'.clustersfree j =
      if j = b then false else isset c.clustersfree j) : GroupOk fs i c' := by
  refine ⟨hcgx.trans h.cgx, hcounted, fun j hj => ?_, hfrotor, fun hne j hj => ?_, ?_⟩
  · rw [hbits, h.beyond j hj, Bool.false_and]
  · rw [hncl] at hj
    rw [hcluster hne j hj, hbits.isblock hn hle, h.cluster hne j hj]
  · rw [hncl]
    exact h.nclusterblks

/-- A block of the group is taken, and nothing else. -/
structure BlockTaken (fs : Fs) (i b : ℕ) (c c' : Cg) : Prop where
  lt : b < fs.nblk
  full : Full (blk fs.fsFrag c.blksfree b) fs.fsFrag.num
  ok : GroupOk fs i c'
  cs : c'.cgCs = c.cgCs.add (-1) 0
  frsum : c'.cgFrsum = c.cgFrsum
  nclusterblks : c'.nclusterblks = c.nclusterblks
  bits : TakeBits c.blksfree c'.blksfree (b * fs.fsFrag.num) fs.fsFrag.num

theorem takeBits_clrblock (frag : Frag) (m : Map) (b : ℕ) :
    TakeBits m (ffsClrblock frag m b) (b * frag.num) frag.num := by
  intro j
  have hpos := frag.num_pos
  rw [isset_clrblock]
  congr 2
  refine decide_eq_decide.mpr ?_
  rw [Nat.div_eq_iff hpos]
  omega

/-- The end of `ffs_alloccgblk` takes the block. -/
theorem gotit_spec (hc : fs.cg i = c) (h : GroupOk fs i c) (hb : b < fs.nblk)
    (hfull : Full (blk fs.fsFrag c.blksfree b) fs.fsFrag.num) : ∃ c' maxcluster,
    alloccgblkGotit fs i (b * fs.fsFrag.num) =
      (fs.cgbase i + b * fs.fsFrag.num, fs.put i c' (-1) 0 maxcluster) ∧
    BlockTaken fs i b c c' := by
  have hpos := fs.fsFrag.num_pos
  obtain ⟨map, sum, maxcluster, heq, hmap⟩ := gotit_eq fs i (b * fs.fsFrag.num) hc h.cgx
  rw [Fs.fragstoblks, Nat.mul_div_cancel b hpos] at heq hmap
  refine ⟨_, maxcluster, heq, hb, hfull, ?_, rfl, rfl, rfl, takeBits_clrblock _ _ b⟩
  have hbits := takeBits_clrblock fs.fsFrag c.blksfree b
  have hrun := hfull.maxRun hpos
  refine h.take rfl rfl h.frotor ?_ hbits hpos (Nat.zero_add _).le fun hne j _ => hmap hne j
  refine h.counted.take hbits hb hrun hpos (Nat.le_refl _) ?_ ?_ fun k hk hlt => ?_
  · rw [if_pos rfl]
    rfl
  · rw [if_pos rfl, Int.sub_self]
    rfl
  · rw [if_neg (by omega), if_neg (by omega)]
    change c.cgFrsum k = c.cgFrsum k - 0 + 0
    omega

/-- The group with other rotors. -/
theorem GroupOk.rotors (h : GroupOk fs i c) {frotor : ℕ} (hfrotor : frotor < fs.fsFpg)
    (rotor : ℕ) : GroupOk fs i { c with cgFrotor := frotor, cgRotor := rotor } :=
  ⟨h.cgx, ⟨h.counted.nb, h.counted.nf, h.counted.fr⟩, h.beyond, hfrotor, h.cluster, h.nclusterblks⟩

/-- The group in a file system with the same geometry. -/
theorem GroupOk.setCg (h : GroupOk fs i c) : GroupOk (fs.setCg j c') i c :=
  ⟨h.cgx, h.counted, h.beyond, h.frotor, h.cluster, h.nclusterblks⟩

/-- The search of `ffs_alloccgblk` takes a free block. -/
theorem searchBlock_spec (hgeo : Geometry fs) (h : GroupOk fs i c)
    (hnb : c.cgCs.csNbfree ≠ 0) (pref : ℕ) : ∃ b c' maxcluster,
    (match ffsMapsearch fs c pref fs.fsFrag.num with
      | .error e => .error e
      | .ok (bno, cgp) =>
        .ok (alloccgblkGotit (fs.setCg i { cgp with cgRotor := bno }) i bno)) =
      Except.ok (fs.cgbase i + b * fs.fsFrag.num, fs.put i c' (-1) 0 maxcluster) ∧
    BlockTaken fs i b c c' := by
  have hpos := fs.fsFrag.num_pos
  have hex : ∃ b < fs.nblk, ∃ q,
      MaxRun (blk fs.fsFrag c.blksfree b) fs.fsFrag.num q fs.fsFrag.num := by
    rw [h.counted.nb, cast_ne_zero] at hnb
    obtain ⟨b, hb, hne⟩ := exists_of_total hnb
    refine ⟨b, hb, 0, Full.maxRun ?_ hpos⟩
    by_contra hnot
    exact hne (if_neg hnot)
  obtain ⟨b, q, frotor, heq, hfrotor, hb, hrun⟩ :=
    mapsearch_spec hgeo h.beyond h.frotor pref hpos (Nat.le_refl _) hex
  have hq : q = 0 := by
    have := hrun.2.1
    omega
  subst hq
  rw [heq]
  obtain ⟨c', maxcluster, hgot, htaken⟩ := gotit_spec (setCg_self fs i _)
    (h.rotors hfrotor (b * fs.fsFrag.num)).setCg hb ((full_iff_of_maxRun hrun).mpr rfl)
  refine ⟨b, c', maxcluster, ?_, htaken.lt, htaken.full, ?_, htaken.cs, htaken.frsum,
    htaken.nclusterblks, htaken.bits⟩
  · rw [setCg_put] at hgot
    exact congrArg Except.ok hgot
  · exact ⟨htaken.ok.cgx, htaken.ok.counted, htaken.ok.beyond, htaken.ok.frotor, htaken.ok.cluster,
      htaken.ok.nclusterblks⟩

/-- **`ffs_alloccgblk` takes a free block**, the preferred one if that is free. -/
theorem alloccgblk_spec (hgeo : Geometry fs) (hc : fs.cg i = c) (h : GroupOk fs i c)
    (hnb : c.cgCs.csNbfree ≠ 0) (bpref : ℕ) : ∃ b c' maxcluster,
    ffsAlloccgblk fs i bpref =
      .ok (fs.cgbase i + b * fs.fsFrag.num, fs.put i c' (-1) 0 maxcluster) ∧
    BlockTaken fs i b c c' ∧
    (bpref ≠ 0 → fs.dtog bpref = i →
      Full (blk fs.fsFrag c.blksfree (fs.fragstoblks (fs.dtogd (fs.blknum bpref)))) fs.fsFrag.num →
      b = fs.fragstoblks (fs.dtogd (fs.blknum bpref))) := by
  rw [ffsAlloccgblk]
  dsimp only
  rw [hc]
  split
  · rename_i hpref
    obtain ⟨b, c', maxcluster, heq, htaken⟩ := searchBlock_spec hgeo h hnb c.cgRotor
    refine ⟨b, c', maxcluster, heq, htaken, fun hne hdtog => ?_⟩
    rcases hpref with hzero | hcg
    · exact absurd hzero hne
    · exact absurd (hdtog.trans h.cgx.symm) hcg
  · split_ifs with hblock
    · rw [isblock_iff] at hblock
      -- the preferred block starts at a multiple of `fs_frag` in the group
      have hmul : fs.fragstoblks (fs.dtogd (fs.blknum bpref)) * fs.fsFrag.num =
          fs.dtogd (fs.blknum bpref) := by
        refine Nat.div_mul_cancel ?_
        rw [Fs.dtogd, dvd_mod_iff hgeo.dvd]
        exact Nat.dvd_mul_left _ _
      have hlt : fs.dtogd (fs.blknum bpref) < fs.fsFpg := mod_lt _ hgeo.fpg_pos
      obtain ⟨c', maxcluster, hgot, htaken⟩ :=
        gotit_spec hc h (hgeo.lt_nblk (by rw [hmul]; exact hlt)) hblock
      rw [hmul] at hgot
      exact ⟨_, c', maxcluster, by rw [hgot, hmul], htaken, fun _ _ _ => rfl⟩
    · obtain ⟨b, c', maxcluster, heq, htaken⟩ := searchBlock_spec hgeo h hnb (fs.blknum bpref)
      exact ⟨b, c', maxcluster, heq, htaken, fun _ _ hfull =>
        absurd ((isblock_iff ..).mpr hfull) hblock⟩

/-! ## Taking fragments -/

theorem takeBits_clrBits : ∀ (n : ℕ) (m : Map) (bno : ℕ), TakeBits m (clrBits m n bno) bno n := by
  intro n
  induction n with
  | zero =>
    intro m bno j
    rw [clrBits, decide_eq_false (by omega), Bool.not_false, Bool.and_true]
  | succ n ih =>
    intro m bno j
    rw [clrBits, ih, isset_clrbit, Bool.and_assoc, ← Bool.not_or, ← Bool.decide_or]
    congr 2
    refine decide_eq_decide.mpr ?_
    omega

theorem isset_setBits : ∀ (n : ℕ) (m : Map) (bno j : ℕ),
    isset (setBits m n bno) j = (isset m j || decide (bno ≤ j ∧ j < bno + n)) := by
  intro n
  induction n with
  | zero =>
    intro m bno j
    rw [setBits, decide_eq_false (by omega), Bool.or_false]
  | succ n ih =>
    intro m bno j
    rw [setBits, ih, isset_setbit, Bool.or_assoc, ← Bool.decide_or]
    congr 1
    refine decide_eq_decide.mpr ?_
    omega

theorem firstSize_spec (frsum : ℕ → ℤ) : ∀ n a,
    a ≤ firstSize frsum n a ∧ firstSize frsum n a ≤ a + n ∧
    (firstSize frsum n a < a + n → frsum (firstSize frsum n a) ≠ 0) ∧
    ∀ k, a ≤ k → k < firstSize frsum n a → frsum k = 0 := by
  intro n
  induction n with
  | zero =>
    intro a
    exact ⟨Nat.le_refl _, Nat.le_refl _, fun h => absurd h (Nat.lt_irrefl _),
      fun k hlo hhi => absurd hhi (Nat.not_lt.mpr hlo)⟩
  | succ n ih =>
    intro a
    rw [firstSize]
    split
    · rename_i hne
      exact ⟨Nat.le_refl _, by omega, fun _ => hne,
        fun k hlo hhi => absurd hhi (Nat.not_lt.mpr hlo)⟩
    · rename_i hzero
      rw [not_not] at hzero
      obtain ⟨hlo, hhi, hne, hall⟩ := ih (a + 1)
      refine ⟨by omega, by omega, fun hlt => hne (by omega), fun k hk hlt => ?_⟩
      by_cases hka : k = a
      · exact hka ▸ hzero
      · exact hall k (by omega) hlt

/-- The group has so many free fragments in a row in one block. -/
def HasRoom (frag : Frag) (nblk : ℕ) (m : Map) (frags : ℕ) : Prop :=
  ∃ b < nblk, ∃ q, q + frags ≤ frag.num ∧ ∀ j, q ≤ j → j < q + frags → blk frag m b j = true

/-- Fragments in one block of the group are taken, and nothing else. -/
structure Taken (fs : Fs) (i bno n : ℕ) (c c' : Cg) (nb nf : ℤ) : Prop where
  inBlock : bno % fs.fsFrag.num + n ≤ fs.fsFrag.num
  inGroup : bno + n ≤ fs.fsFpg
  free : ∀ j, bno ≤ j → j < bno + n → isset c.blksfree j = true
  bits : TakeBits c.blksfree c'.blksfree bno n
  ok : GroupOk fs i c'
  cs : c'.cgCs = c.cgCs.add nb nf

/-- The first fragments of a maximal run are taken. -/
theorem Taken.of_run (hgeo : Geometry fs) (hb : b < fs.nblk)
    (hrun : MaxRun (blk fs.fsFrag c.blksfree b) fs.fsFrag.num q a) (hna : n ≤ a)
    (hbits : TakeBits c.blksfree c'.blksfree (b * fs.fsFrag.num + q) n) (hok : GroupOk fs i c')
    (hcs : c'.cgCs = c.cgCs.add nb nf) : Taken fs i (b * fs.fsFrag.num + q) n c c' nb nf := by
  obtain ⟨hpos, hle, -⟩ := id hrun
  have hlt := hgeo.lt_fpg hb (q := q + a - 1) (by omega)
  refine ⟨?_, by omega, fun j hlo hhi => ?_, hbits, hok, hcs⟩
  · rw [Nat.mul_comm, mul_add_mod, mod_eq_of_lt (by omega)]
    omega
  · have hset := hrun.set (i := j - b * fs.fsFrag.num) (by omega) (by omega)
    rwa [blk_of_lt c.blksfree b (by omega), Nat.add_sub_cancel' (by omega)] at hset

/-- The groups stay consistent. -/
theorem Taken.consistent (h : Consistent fs) (hi : i < fs.fsNcg)
    (ht : Taken fs i bno n (fs.cg i) c' nb nf) : Consistent (fs.put i c' nb nf maxcluster) := by
  refine h.put hi ht.ok ht.cs fun hi0 => ?_
  rw [ht.bits, hi0, h.boot, Bool.false_and]

theorem Csum.add_add (c : Csum) (nb nf nb' nf' : ℤ) :
    (c.add nb nf).add nb' nf' = c.add (nb + nb') (nf + nf') := by
  simp only [Csum.add, Int.add_assoc]

theorem put_put (fs : Fs) (i : ℕ) (c c' : Cg) (nb nf nb' nf' : ℤ) (maxcluster : ℕ → ℕ) :
    ((fs.put i c nb nf maxcluster).setCg i c').addSummary i nb' nf' =
      fs.put i c' (nb + nb') (nf + nf') maxcluster := by
  simp [Fs.put, Fs.setCg, Fs.addSummary, Csum.add_add]

@[simp] theorem put_self (fs : Fs) (i : ℕ) (c : Cg) (nb nf : ℤ) (maxcluster : ℕ → ℕ) :
    (fs.put i c nb nf maxcluster).cg i = c :=
  update_self ..

/-- Without a wholly free block and a counted run of the size or more, there is no room. -/
theorem not_hasRoom (h : GroupOk fs i c) (hfrags : 0 < frags) (hnb : c.cgCs.csNbfree = 0)
    (hfr : ∀ k, frags ≤ k → k < fs.fsFrag.num → c.cgFrsum k = 0) :
    ¬HasRoom fs.fsFrag fs.nblk c.blksfree frags := by
  rintro ⟨b, hb, q, hle, hset⟩
  obtain ⟨p, k, hpq, hqk, hrun⟩ := MaxRun.exists_of_range hfrags hle hset
  have hk := hrun.2.1
  by_cases hfull : k = fs.fsFrag.num
  · rw [h.counted.nb, cast_eq_zero] at hnb
    refine total_ne_zero hb ?_ hnb
    rw [nbOf, if_pos ((full_iff_of_maxRun hrun).mpr hfull)]
    exact Nat.one_ne_zero
  · have hzero := hfr k (by omega) (by omega)
    rw [h.counted.fr k (by omega) (by omega), cast_eq_zero] at hzero
    refine total_ne_zero hb ?_ hzero
    rw [frOf_eq_runs (by omega)]
    exact Nat.count_ne_iff_exists.mpr ⟨p, by omega, hrun⟩

/-- The counts of the runs after the first fragments of one are taken. -/
theorem addAt_take (frsum : ℕ → ℤ) {r : ℕ} (hna : n ≤ a) (hr : r = a - n) (k : ℕ) :
    (if n ≠ a then addAt (addAt frsum a (-1)) r 1 else addAt frsum a (-1)) k =
      frsum k - (if k = a then 1 else 0) + if k = a - n ∧ n < a then 1 else 0 := by
  have hadd : ∀ g x d, addAt g x d k = g k + if k = x then d else 0 := by
    intro g x d
    rw [addAt]
    by_cases hkx : k = x
    · rw [hkx, update_self, if_pos rfl]
    · rw [update_of_ne hkx, if_neg hkx, Int.add_zero]
  split
  · rw [hadd, hadd]
    split_ifs <;> omega
  · rw [hadd]
    split_ifs <;> omega

/-- **A part of a smaller run is taken.** -/
theorem Taken.part (hgeo : Geometry fs) (h : GroupOk fs i c) (hb : b < fs.nblk)
    (hrun : MaxRun (blk fs.fsFrag c.blksfree b) fs.fsFrag.num q a) (hn : 0 < n) (hna : n ≤ a)
    (ha : a < fs.fsFrag.num) (hcgx : c'.cgCgx = c.cgCgx)
    (hncl : c'.nclusterblks = c.nclusterblks) (hfrotor : c'.cgFrotor < fs.fsFpg)
    (hcl : c'.clustersfree = c.clustersfree)
    (hblks : c'.blksfree = clrBits c.blksfree n (b * fs.fsFrag.num + q))
    (hcs : c'.cgCs = c.cgCs.add 0 (-n))
    (hfr : ∀ k, c'.cgFrsum k = c.cgFrsum k - (if k = a then 1 else 0) +
      if k = a - n ∧ n < a then 1 else 0) :
    Taken fs i (b * fs.fsFrag.num + q) n c c' 0 (-n) := by
  have hqa := hrun.2.1
  have hbits : TakeBits c.blksfree c'.blksfree (b * fs.fsFrag.num + q) n := by
    rw [hblks]
    exact takeBits_clrBits n c.blksfree _
  refine Taken.of_run hgeo hb hrun hna hbits ?_ hcs
  refine h.take hcgx hncl hfrotor ?_ hbits hn (by omega) fun hne j hj => ?_
  · refine h.counted.take hbits hb hrun hn hna ?_ ?_ fun k _ _ => hfr k
    · rw [hcs, if_neg (by omega), Int.sub_zero]
      exact Int.add_zero _
    · rw [hcs, if_neg (by omega)]
      rfl
  · -- the block was not wholly free before
    rw [hcl]
    split_ifs with hjb
    · subst hjb
      rw [h.cluster hne j hj, Bool.eq_false_iff, ne_eq, isblock_iff, full_iff_of_maxRun hrun]
      omega
    · rfl

/-- A block is taken, and the fragments that are not asked for are given back. -/
theorem Taken.hack (hgeo : Geometry fs) (h : GroupOk fs i c) {c1 : Cg}
    (htaken : BlockTaken fs i b c c1) (hn : 0 < n) (hlt : n < fs.fsFrag.num) :
    Taken fs i (b * fs.fsFrag.num) n c { c1 with
      blksfree := setBits c1.blksfree (fs.fsFrag.num - n) (b * fs.fsFrag.num + n)
      cgCs := c1.cgCs.add 0 ((fs.fsFrag.num - n : ℕ) : ℤ)
      cgFrsum := addAt c1.cgFrsum (fs.fsFrag.num - n) 1 } (-1) ((fs.fsFrag.num - n : ℕ) : ℤ) := by
  have hrun := htaken.full.maxRun fs.fsFrag.num_pos
  have hbits : TakeBits c.blksfree
      (setBits c1.blksfree (fs.fsFrag.num - n) (b * fs.fsFrag.num + n)) (b * fs.fsFrag.num) n := by
    intro j
    rw [isset_setBits, htaken.bits]
    by_cases hj : b * fs.fsFrag.num ≤ j ∧ j < b * fs.fsFrag.num + fs.fsFrag.num
    · -- in the block, all fragments were free
      have hset := htaken.full (j - b * fs.fsFrag.num) (by omega)
      rw [blk_of_lt c.blksfree b (by omega), Nat.add_sub_cancel' hj.1] at hset
      rw [hset, decide_eq_true hj, Bool.not_true, Bool.and_false, ← decide_not]
      refine decide_eq_decide.mpr ?_
      omega
    · rw [decide_eq_false hj, decide_eq_false (by omega), decide_eq_false (by omega), Bool.or_false]
  refine Taken.of_run hgeo htaken.lt hrun hlt.le hbits ?_ ?_
  · refine h.take (q := 0) ?_ htaken.nclusterblks htaken.ok.frotor ?_ hbits hn
      (by omega) fun hne j hj => ?_
    · exact htaken.ok.cgx.trans h.cgx.symm
    · refine h.counted.take hbits htaken.lt hrun hn hlt.le ?_ ?_ fun k hk hkl => ?_
      · rw [htaken.cs, if_pos rfl]
        exact Int.add_zero _
      · rw [htaken.cs]
        change c.cgCs.csNffree + 0 + ((fs.fsFrag.num - n : ℕ) : ℤ) = _
        omega
      · change addAt c1.cgFrsum (fs.fsFrag.num - n) 1 k = _
        rw [htaken.frsum, addAt, if_neg (by omega)]
        by_cases hkn : k = fs.fsFrag.num - n
        · rw [hkn, update_self]
          omega
        · rw [update_of_ne hkn]
          omega
    · -- the cluster map has lost the block
      have hj1 : j < c1.nclusterblks := by
        rw [htaken.nclusterblks]
        exact hj
      have hbits1 : TakeBits c.blksfree c1.blksfree (b * fs.fsFrag.num + 0) fs.fsFrag.num :=
        htaken.bits
      rw [htaken.ok.cluster hne j hj1, h.cluster hne j hj,
        hbits1.isblock fs.fsFrag.num_pos (Nat.zero_add _).le]
  · rw [htaken.cs, Csum.add_add, Int.zero_add, Int.add_zero]

/-- **`ffs_alloccg` takes fragments in one block of the group**, or the group has no room. -/
theorem alloccg_spec (hgeo : Geometry fs) (hc : fs.cg i = c) (h : GroupOk fs i c)
    (hsum : fs.fsCs i = c.cgCs) (bpref : ℕ) (hpos : 0 < frags) (hle : frags ≤ fs.fsFrag.num) :
    (ffsAlloccg fs i bpref frags = .ok (0, fs) ∧ ¬HasRoom fs.fsFrag fs.nblk c.blksfree frags) ∨
    ∃ bno c' nb nf maxcluster, ffsAlloccg fs i bpref frags =
        .ok (fs.cgbase i + bno, fs.put i c' nb nf maxcluster) ∧
      Taken fs i bno frags c c' nb nf := by
  rw [ffsAlloccg]
  dsimp only
  rw [hsum, hc]
  by_cases hblock : frags = fs.fsFrag.num
  · by_cases hnb : c.cgCs.csNbfree = 0
    · rw [if_pos ⟨hnb, hblock⟩]
      exact .inl ⟨rfl, not_hasRoom h hpos hnb fun k hlo hhi => absurd hhi (by omega)⟩
    · rw [if_neg (fun hcon => hnb hcon.1), if_neg (fun hcon => hnb hcon.1), if_pos hblock]
      obtain ⟨b, c', maxcluster, heq, htaken, -⟩ := alloccgblk_spec hgeo hc h hnb bpref
      refine .inr ⟨_, c', _, _, maxcluster, heq, ?_⟩
      have hrun := htaken.full.maxRun fs.fsFrag.num_pos
      exact Taken.of_run hgeo htaken.lt hrun hle (hblock ▸ htaken.bits) htaken.ok htaken.cs
  · rw [if_neg (fun hcon => hblock hcon.2), if_neg (fun hcon => hblock hcon.2), if_neg hblock]
    obtain ⟨hlo, hhi, hne, hzero⟩ := firstSize_spec c.cgFrsum (fs.fsFrag.num - frags) frags
    generalize firstSize c.cgFrsum (fs.fsFrag.num - frags) frags = a at hlo hhi hne hzero ⊢
    split
    · split_ifs with hnb
      · exact .inl ⟨rfl, not_hasRoom h hpos hnb fun k hk hlt => hzero k hk (by omega)⟩
      · obtain ⟨b, c1, maxcluster, heq, htaken, -⟩ := alloccgblk_spec hgeo hc h hnb bpref
        rw [heq]
        dsimp only
        -- the fragment number in the group
        have hbno : (fs.put i c1 (-1) 0 maxcluster).dtogd (fs.cgbase i + b * fs.fsFrag.num) =
            b * fs.fsFrag.num := by
          have hlt := hgeo.lt_fpg htaken.lt fs.fsFrag.num_pos
          change (fs.fsFpg * i + b * fs.fsFrag.num) % fs.fsFpg = _
          rw [mul_add_mod, mod_eq_of_lt (by omega)]
        rw [hbno, put_self, put_put, Int.zero_add]
        exact .inr ⟨_, _, _, _, maxcluster, rfl, Taken.hack hgeo h htaken hpos (by omega)⟩
    · have hfr := hne (by omega)
      have hex : ∃ b < fs.nblk, ∃ q, MaxRun (blk fs.fsFrag c.blksfree b) fs.fsFrag.num q a := by
        rw [h.counted.fr a (by omega) (by omega), cast_ne_zero] at hfr
        obtain ⟨b, hb, hb'⟩ := exists_of_total hfr
        rw [frOf_eq_runs (by omega)] at hb'
        obtain ⟨q, -, hrun⟩ := Nat.count_ne_iff_exists.mp hb'
        exact ⟨b, hb, q, hrun⟩
      obtain ⟨b, q, frotor, heq, hfrotor, hb, hrun⟩ :=
        mapsearch_spec hgeo h.beyond h.frotor bpref (by omega) (by omega) hex
      rw [heq]
      refine .inr ⟨_, _, _, _, fs.fsMaxcluster, rfl, ?_⟩
      exact Taken.part hgeo h hb hrun hpos hlo (by omega) rfl rfl hfrotor rfl rfl rfl
        fun k => addAt_take c.cgFrsum hlo rfl k

/-! ## A small file system -/

/-- One group of four blocks of two fragments: the first block is in use, half of the second one is
free, and the last two are free. -/
def oneGroup : Fs where
  fsFrag := .two
  fsFpg := 8
  fsNcg := 1
  fsSize := 8
  fsContigsumsize := 2
  fsCs := fun _ => ⟨2, 1⟩
  fsCstotal := ⟨2, 1⟩
  fsMaxcluster := fun _ => 2
  cg := fun _ =>
    { cgCgx := 0
      cgCs := ⟨2, 1⟩
      cgFrsum := fun k => if k = 1 then 1 else 0
      cgRotor := 0
      cgFrotor := 0
      blksfree := fun k => if k = 0 then 0xf8#8 else 0#8
      nclusterblks := 4
      clustersfree := fun k => if k = 0 then 0x0c#8 else 0#8
      clustersum := fun k => if k = 2 then 1 else 0 }

theorem consistent_oneGroup : Consistent oneGroup := by
  refine ⟨⟨by decide, by decide, by decide⟩, fun i hi => ?_, fun _ _ => rfl, rfl, rfl, by decide⟩
  obtain rfl : i = 0 := Nat.lt_one_iff.mp hi
  refine ⟨rfl, ⟨by decide, by decide, fun k hk hlt => ?_⟩, fun j hj => ?_, by decide, fun _ => ?_,
    by decide⟩
  · obtain rfl : k = 1 := by
      change k < 2 at hlt
      omega
    decide
  · have hbyte : j / nbby ≠ 0 := by
      change 8 ≤ j at hj
      simp only [nbby]
      omega
    rw [isset_eq]
    change (if j / nbby = 0 then 0xf8#8 else 0#8).getLsbD _ = false
    rw [if_neg hbyte]
    exact BitVec.getLsbD_zero
  · decide

end FreeBSDSys.Ffs
