import FreeBSDSys.Kern.BlistTree

/-!
# Freeing and filling

Both go down into the subtrees that a range of blocks meets.  `Cursor` describes where their loops
stand.

* `freeNode_spec`: freeing allocated blocks of a subtree frees exactly these.  The hints stay right
  unless a meta node becomes ALL-FREE whose hint is low, for then `blst_meta_free` returns before
  it raises the hint (`FullSafe`, `FreeSafe`).
* `fillNode_spec`: filling takes blocks out and counts those that were free.  It panics only if
  the range is not in one leaf.
-/

namespace FreeBSDSys.Blst

open BitRange BlTree Nat

variable {root root' root1 : BlTree} {h scan blk cap k lo n b v : ℕ}
  {sub : BlTree → ℕ → ℕ → ℕ → ℕ → Except BlPanic BlTree} {m : ℤ}

/-! ## Ranges and subtrees -/

/-- A range, when the loop over the subtrees is at number `k`: nothing is left, or what is left
starts in subtree `k`. -/
def Cursor (h k lo n : ℕ) : Prop :=
  (n = 0 ∧ lo ≤ k * treeRadix h) ∨ (0 < n ∧ k * treeRadix h ≤ lo ∧ lo < k * treeRadix h + treeRadix h)

/-- The number of blocks of a range in subtree `k`. -/
def subLen (h lo n k : ℕ) : ℕ :=
  min (lo + n) (k * treeRadix h + treeRadix h) - max lo (k * treeRadix h)

theorem Cursor.start (h : ℕ) (hn : 0 < n) : Cursor h (lo / treeRadix h) lo n := by
  have hpos : 0 < treeRadix h := (by decide : 0 < 32).trans_le (le_treeRadix h)
  have hmod := mod_lt lo hpos
  have hdiv := div_add_mod' lo (treeRadix h)
  exact Or.inr ⟨hn, by omega, by omega⟩

theorem start_lt (hcap : lo + n ≤ treeRadix (h + 1)) (hn : 0 < n) : lo / treeRadix h < 16 := by
  rw [Nat.div_lt_iff_lt_mul ((by decide : 0 < 32).trans_le (le_treeRadix h)), ← treeRadix_succ]
  omega

/-- Nothing is left behind the last subtree. -/
theorem Cursor.done (hc : Cursor h k lo n) (hk : k = 16) (hcap : lo + n ≤ treeRadix (h + 1)) :
    n = 0 := by
  rcases hc with hc | hc
  · exact hc.1
  · subst hk
    rw [treeRadix_succ] at hcap
    omega

theorem Cursor.le_of_zero (hc : Cursor h k lo 0) : lo ≤ k * treeRadix h := by
  rcases hc with hc | hc
  · exact hc.2
  · omega

section

variable (hc : Cursor h k lo n) (hn : 0 < n)

include hc hn

/-- The part of the range in subtree `k`, and what is left. -/
theorem Cursor.step :
    k * treeRadix h ≤ lo ∧ min (k * treeRadix h + treeRadix h - lo) n = subLen h lo n k ∧
      0 < subLen h lo n k ∧ subLen h lo n k ≤ n ∧ lo + subLen h lo n k ≤ k * treeRadix h + treeRadix h ∧
      Cursor h (k + 1) (lo + subLen h lo n k) (n - subLen h lo n k) := by
  obtain ⟨-, hle, hlt⟩ := hc.resolve_left (by omega)
  have hmul : (k + 1) * treeRadix h = k * treeRadix h + treeRadix h := succ_mul ..
  rw [Cursor, subLen]
  omega

/-- The range of subtree `k`, as the loops compute it from the block numbers. -/
theorem Cursor.down (blk : ℕ) :
    min (blk + k * treeRadix h + treeRadix h - (blk + lo)) n = subLen h lo n k ∧
      k * treeRadix h + (lo - k * treeRadix h) = lo ∧
      blk + k * treeRadix h + (lo - k * treeRadix h) = blk + lo ∧
      blk + k * treeRadix h + treeRadix h = blk + (k + 1) * treeRadix h := by
  obtain ⟨hle, hmin, -⟩ := hc.step hn
  rw [succ_mul]
  omega

/-- The later subtrees meet what is left as they met the range. -/
theorem subLen_next {j : ℕ} (hj : 0 < subLen h (lo + subLen h lo n k) (n - subLen h lo n k) j) :
    j ≠ k ∧ subLen h (lo + subLen h lo n k) (n - subLen h lo n k) j = subLen h lo n j ∧
      lo + subLen h lo n k - j * treeRadix h = lo - j * treeRadix h := by
  obtain ⟨hle, hmin, -, hvn, hvR, -⟩ := hc.step hn
  -- what is left starts at the end of the range or of subtree `k`
  generalize subLen h lo n k = v at *
  have hrest : subLen h (lo + v) (n - v) j =
      min (lo + n) (j * treeRadix h + treeRadix h) - max (lo + v) (j * treeRadix h) := by
    rw [subLen, Nat.add_assoc, add_sub_of_le hvn]
  rw [hrest] at hj ⊢
  rcases Nat.lt_or_ge k j with hkj | hjk
  · have hmul : (k + 1) * treeRadix h ≤ j * treeRadix h := Nat.mul_le_mul_right _ hkj
    rw [succ_mul] at hmul
    refine ⟨hkj.ne', ?_, by omega⟩
    rw [subLen, max_eq_right (hvR.trans hmul), max_eq_right (by omega)]
  · have hmul : j * treeRadix h ≤ k * treeRadix h := Nat.mul_le_mul_right _ hjk
    omega

/-- The part of the range in subtree `k`, seen from the subtree. -/
theorem Cursor.kid_le (hcap : lo + n ≤ cap) :
    lo - k * treeRadix h + subLen h lo n k ≤ kidCap h cap k ∧ k * treeRadix h < cap := by
  obtain ⟨hle, -, -, hv, hvR, -⟩ := hc.step hn
  rw [kidCap]
  omega

end

theorem inRange_eq_false (hb : b < lo ∨ lo + n ≤ b) : inRange lo n b = false := by
  rw [Bool.eq_false_iff, Ne, inRange_iff]
  omega

theorem inRange_append (hv : v ≤ n) :
    (inRange lo v b || inRange (lo + v) (n - v) b) = inRange lo n b := by
  rw [Bool.eq_iff_iff, Bool.or_eq_true, inRange_iff, inRange_iff, inRange_iff]
  omega

/-- The mask of a range of a leaf. -/
theorem leafMask_isRun (hblk : 32 ∣ blk) (hn : lo + n ≤ 32) (hpos : 0 < n) :
    IsRun (leafMask (blk + lo) n) lo n := by
  have hmod : (blk + lo) % blistBmapRadix = lo := by
    obtain ⟨c, rfl⟩ := hblk
    rw [blistBmapRadix, mul_add_mod]
    exact mod_eq_of_lt (by omega)
  rw [leafMask, hmod]
  exact isRun_and_shift hn

theorem dvd_add_mul (hblk : 32 ∣ blk) (h k : ℕ) : 32 ∣ blk + k * treeRadix h :=
  (Nat.dvd_add_right hblk).mpr (Dvd.dvd.mul_left (dvd_treeRadix h) k)

/-- The hint of a node covers the runs of its subtrees. -/
def OpenBig (root : BlTree) (h scan cap : ℕ) : Prop :=
  ∀ m, 0 < m → LeafRun (openFree root h scan) cap m → (m : ℤ) ≤ (root.node scan).bmBighint

/-! ## Freeing -/

/-- The free of `n` blocks does not make a meta node ALL-FREE whose hint is low. -/
def FullSafe (root : BlTree) (h scan n : ℕ) : Prop :=
  h ≠ 0 → (root.node scan).bmuAvail ≠ 0 → (root.node scan).bmuAvail + n = treeRadix h →
    blistBmapRadix ≤ (root.node scan).bmBighint

/-- The same for the nodes below a node that the free reaches. -/
def FreeSafe (root : BlTree) : ℕ → ℕ → ℕ → ℕ → Prop
  | 0, _, _, _ => True
  | h + 1, scan, lo, n => (root.node scan).bmuAvail ≠ 0 →
      (root.node scan).bmuAvail + n ≠ treeRadix (h + 1) →
      ∀ k < 16, 0 < subLen h lo n k → FullSafe root h (kid h scan k) (subLen h lo n k) ∧
        FreeSafe root h (kid h scan k) (lo - k * treeRadix h) (subLen h lo n k)

/-- The same for a node of height `h + 1`, through its subtrees. -/
def KidsSafe (root : BlTree) (h scan lo n : ℕ) : Prop :=
  ∀ k < 16, 0 < subLen h lo n k → FullSafe root h (kid h scan k) (subLen h lo n k) ∧
    FreeSafe root h (kid h scan k) (lo - k * treeRadix h) (subLen h lo n k)

theorem FullSafe.congr (hs : FullSafe root h scan n) (ha : Agree root root' h scan) :
    FullSafe root' h scan n := by
  rw [FullSafe, ha.node]
  exact hs

theorem FreeSafe.congr (hs : FreeSafe root h scan lo n) (ha : Agree root root' h scan) :
    FreeSafe root' h scan lo n := by
  induction h generalizing scan lo n with
  | zero => trivial
  | succ h ih =>
    intro h0 hR k hk hlen
    rw [ha.node] at h0 hR
    obtain ⟨h1, h2⟩ := hs h0 hR k hk hlen
    exact ⟨h1.congr (ha.kid hk), ih h2 (ha.kid hk)⟩

/-- The result of freeing `n` blocks from `lo` on in a subtree. -/
structure FreePost (root root' : BlTree) (h scan cap lo n : ℕ) : Prop where
  outside : Outside root root' h scan
  good : Good root' h scan cap
  free : ∀ b < cap, freeAt root' h scan b = (freeAt root h scan b || inRange lo n b)
  hinted : Hinted root h scan cap → FreeSafe root h scan lo n → Hinted root' h scan cap
  big : Hinted root h scan cap → FreeSafe root h scan lo n → HintBig root h scan cap →
    FullSafe root h scan n → HintBig root' h scan cap

/-- `free` frees allocated blocks of subtrees of height `h`. -/
def FreeSpec (h : ℕ) (free : BlTree → ℕ → ℕ → ℕ → ℕ → Except BlPanic BlTree) : Prop :=
  ∀ root scan blk cap lo n, Good root h scan cap → 32 ∣ blk → 0 < n → lo + n ≤ cap →
    (∀ b, inRange lo n b = true → freeAt root h scan b = false) →
    ∃ root', free root scan (blk + lo) n blk = .ok root' ∧ FreePost root root' h scan cap lo n

/-- **`blst_leaf_free`.** -/
theorem blstLeafFree_spec :
    FreeSpec 0 fun root scan freeBlk n _ => blstLeafFree root scan freeBlk n := by
  intro root scan blk cap lo n hg hblk hn hcap halloc
  have hcap32 : cap ≤ 32 := hg.shape.1
  have hmask := leafMask_isRun hblk (hcap.trans hcap32) hn
  have hzero : (root.node scan).bmuBitmap &&& leafMask (blk + lo) n = 0 :=
    hmask.and_eq_zero_iff.mpr fun i h1 h2 => halloc i (inRange_iff.mpr ⟨h1, h2⟩)
  refine ⟨_, if_neg (not_not_intro hzero), ?_⟩
  generalize hroot1 : (root.setBitmap scan ((root.node scan).bmuBitmap |||
    leafMask (blk + lo) n)).setBighint scan blistBmapRadix = root1
  have hother : Besides root root1 scan := hroot1 ▸ (besides_set _).trans (besides_set _)
  have hnode : root1.node scan = { root.node scan with
      bmuBitmap := (root.node scan).bmuBitmap ||| leafMask (blk + lo) n
      bmBighint := blistBmapRadix } := by
    rw [← hroot1, node_setBighint, node_setBitmap]
  have hfree : ∀ b, freeAt root1 0 scan b = (freeAt root 0 scan b || inRange lo n b) := by
    intro b
    rw [freeAt, hnode]
    exact hmask.getLsbD_or
  refine ⟨hother.outside 0, ⟨⟨hg.shape.1, ?_⟩, fun b hb => ?_⟩, fun b _ => hfree b,
    fun _ _ => trivial, fun _ _ _ _ m _ hr => ?_⟩
  · rw [hnode]
    exact Int.natCast_nonneg _
  · have hb' := hfree b
    rw [inRange_eq_false (by omega), Bool.or_false] at hb'
    exact hb'.trans (hg.live b hb)
  · rw [hnode]
    exact Int.ofNat_le.mpr hr.le_radix

/-- The result of the loop over the subtrees. -/
structure FreeKids (root root' : BlTree) (h scan cap lo n : ℕ) : Prop where
  outside : Outside root root' (h + 1) scan
  kids : Kids root' h scan cap
  avail : (root'.node scan).bmuAvail = (root.node scan).bmuAvail
  hint : 0 ≤ (root'.node scan).bmBighint
  free : ∀ b < cap, openFree root' h scan b = (openFree root h scan b || inRange lo n b)
  hinted : KidsHinted root h scan cap → KidsSafe root h scan lo n → KidsHinted root' h scan cap ∧
    (OpenBig root h scan cap → OpenBig root' h scan cap)

/-- The end of the loop. -/
theorem Kids.free_end (hK : Kids root h scan cap) (hhint : 0 ≤ (root.node scan).bmBighint) (lo : ℕ) :
    FreeKids root root h scan cap lo 0 := by
  refine ⟨fun _ _ => rfl, hK, rfl, hhint, fun b _ => ?_, fun hh _ => ⟨hh, id⟩⟩
  rw [inRange_eq_false (by omega), Bool.or_false]

/-- **The loop over the subtrees.** -/
theorem metaFreeLoop_spec (hsub : FreeSpec h sub) (hblk : 32 ∣ blk) (hR : cap ≤ treeRadix (h + 1)) :
    ∀ (left k : ℕ) (root : BlTree) (lo n : ℕ), left + k = 16 → Kids root h scan cap →
      0 ≤ (root.node scan).bmBighint → Cursor h k lo n → lo + n ≤ cap →
      (∀ b, inRange lo n b = true → openFree root h scan b = false) →
      ∃ root', metaFreeLoop sub scan (treeRadix h) (treeSkip h + 1) left k root (blk + lo) n
          (blk + k * treeRadix h) = .ok root' ∧ FreeKids root root' h scan cap lo n := by
  intro left
  induction left with
  | zero =>
    intro k root lo n hk hK hhint hc hcap _
    obtain rfl := hc.done (by omega) (hcap.trans hR)
    exact ⟨root, rfl, hK.free_end hhint lo⟩
  | succ left ih =>
    intro k root lo n hk hK hhint hc hcap halloc
    have hk16 : k < 16 := by omega
    have hidx : scan + (k * (treeSkip h + 1) + 1) = kid h scan k := rfl
    simp only [metaFreeLoop, hidx]
    rcases Nat.eq_zero_or_pos n with rfl | hn
    · have hle := hc.le_of_zero
      rw [if_neg (by omega)]
      exact ⟨root, rfl, hK.free_end hhint lo⟩
    · obtain ⟨hle, -, hvpos, hvn, hvR, hc'⟩ := hc.step hn
      obtain ⟨hkcap, hklt⟩ := hc.kid_le hn hcap
      obtain ⟨hv, hlo, hstart, hnext⟩ := hc.down hn blk
      have hkalloc : ∀ b, inRange (lo - k * treeRadix h) (subLen h lo n k) b = true →
          freeAt root h (kid h scan k) b = false := by
        intro b hb
        obtain ⟨h1, h2⟩ := inRange_iff.mp hb
        rw [← openFree_kid (by omega)]
        exact halloc _ (inRange_iff.mpr (by omega))
      obtain ⟨root1, hrun, hpost⟩ := hsub root (kid h scan k) (blk + k * treeRadix h) _
        (lo - k * treeRadix h) (subLen h lo n k) (hK.good k hk16 hklt) (dvd_add_mul hblk h k) hvpos
        hkcap hkalloc
      rw [hstart] at hrun
      have hK1 := hK.step hk16 hklt hpost.outside hpost.good
      have hopen1 := openFree_lift hR hpost.outside (fun x y => x || y) Bool.or_false _ _
        hkcap hpost.free
      rw [hlo] at hopen1
      generalize hroot2 : (if (root1.node scan).bmBighint < (root1.node (kid h scan k)).bmBighint then
        root1.setBighint scan (root1.node (kid h scan k)).bmBighint else root1) = root2
      obtain ⟨hother, hnode2⟩ := setBighint_if hroot2
      rw [← max_def_lt, hpost.outside.node hk16] at hnode2
      have hopen2 : ∀ b < cap, openFree root2 h scan b =
          (openFree root h scan b || inRange lo (subLen h lo n k) b) := fun b hb =>
        (openFree_setNode hother (hb.trans_le hR)).trans (hopen1 b hb)
      have halloc2 : ∀ b, inRange (lo + subLen h lo n k) (n - subLen h lo n k) b = true →
          openFree root2 h scan b = false := by
        intro b hb
        obtain ⟨h1, h2⟩ := inRange_iff.mp hb
        rw [hopen2 b (by omega), inRange_eq_false (by omega), Bool.or_false]
        exact halloc b (inRange_iff.mpr (by omega))
      have hhint2 : 0 ≤ (root2.node scan).bmBighint := by
        rw [hnode2]
        exact le_max_of_le_left hhint
      obtain ⟨root', hrun', hrest⟩ :=
        ih (k + 1) root2 _ _ (by omega) (hK1.setNode hother) hhint2 hc' (by omega) halloc2
      refine ⟨root', ?_, ((hpost.outside.parent hk16).trans (hother.outside _)).trans
        hrest.outside, hrest.kids, by rw [hrest.avail, hnode2], hrest.hint, fun b hb => ?_,
        fun hh hsafe => ?_⟩
      · have hne : (root.node scan).bmBighint ≠ -1 := by omega
        rw [if_pos (by omega), hv, if_neg hne, hrun]
        simp only [hroot2, hnext, Nat.add_assoc blk lo]
        exact hrun'
      · rw [hrest.free b hb, hopen2 b hb, Bool.or_assoc, inRange_append hvn]
      · obtain ⟨hkh, hki⟩ := hh k hk16 hklt
        obtain ⟨hfull, hsub'⟩ := hsafe k hk16 hvpos
        have hbig1 := hpost.big hki hsub' hkh hfull
        have hH2 : KidsHinted root2 h scan cap :=
          (hh.step hpost.outside ⟨hbig1, hpost.hinted hki hsub'⟩).setNode hother
        have hsafe2 : KidsSafe root2 h scan (lo + subLen h lo n k) (n - subLen h lo n k) := by
          intro j hj hlen
          obtain ⟨hjk, hlen', hlo'⟩ := subLen_next hc hn hlen
          have ha1 := hpost.outside.agree hjk
          have ha2 := hother.kid h j
          rw [hlen'] at hlen
          obtain ⟨h1, h2⟩ := hsafe j hj hlen
          rw [hlen', hlo']
          exact ⟨(h1.congr ha1).congr ha2, (h2.congr ha1).congr ha2⟩
        obtain ⟨hH', hbig'⟩ := hrest.hinted hH2 hsafe2
        refine ⟨hH', fun hob => hbig' fun m hm hr => ?_⟩
        rw [hnode2]
        obtain ⟨j, hj, hjlt, hrj⟩ := hr.exists_kid hR hm
        have hrj1 := hrj.agree (hother.kid h j) (kidCap_le ..)
        by_cases hjk : j = k
        · subst hjk
          exact le_max_of_le_right (hbig1 m hm hrj1)
        · have hrj0 := hrj1.agree (hpost.outside.agree hjk) (kidCap_le ..)
          exact le_max_of_le_left (hob m hm hrj0.of_kid)

/-- The freeing in a subtree of height `h`. -/
def freeNode : ℕ → BlTree → ℕ → ℕ → ℕ → ℕ → Except BlPanic BlTree
  | 0, root, scan, freeBlk, n, _ => blstLeafFree root scan freeBlk n
  | h + 1, root, scan, freeBlk, n, blk =>
    blstMetaFree (h + 1) root scan freeBlk n (treeRadix (h + 1)) (treeSkip (h + 1)) blk

/-- The choice between a leaf and a meta node in `blst_meta_free`. -/
theorem freeNode_eq (h : ℕ) :
    (fun root i freeBlk v blk => if treeSkip h + 1 = 1 then blstLeafFree root i freeBlk v
      else blstMetaFree h root i freeBlk v (treeRadix h) (treeSkip h + 1 - 1) blk) = freeNode h := by
  funext root i freeBlk v blk
  cases h with
  | zero => rfl
  | succ h =>
    rfl

/-- The loop, started on a range, and the node closed behind it. -/
theorem metaFree_close {p : ℕ → Bool}
    (hsub : FreeSpec h sub) (hblk : 32 ∣ blk) (hR : cap ≤ treeRadix (h + 1))
    (hK : Kids root h scan cap) (hhint : 0 ≤ (root.node scan).bmBighint) (hn : 0 < n)
    (hcap : lo + n ≤ cap) (hp : ∀ b < cap, openFree root h scan b = p b)
    (halloc : ∀ b, inRange lo n b = true → p b = false)
    (havail : (root.node scan).bmuAvail = freeCount p cap + n) :
    ∃ root', metaFreeLoop sub scan (treeRadix h) (treeSkip h + 1)
        (blistMetaRadix - (blk + lo - blk) / treeRadix h) ((blk + lo - blk) / treeRadix h) root
        (blk + lo) n (blk + (blk + lo - blk) / treeRadix h * treeRadix h) = .ok root' ∧
      Outside root root' (h + 1) scan ∧ Good root' (h + 1) scan cap ∧
      (∀ b < cap, freeAt root' (h + 1) scan b = (p b || inRange lo n b)) ∧
      (KidsHinted root h scan cap → KidsSafe root h scan lo n → Hinted root' (h + 1) scan cap ∧
        (OpenBig root h scan cap → HintBig root' (h + 1) scan cap)) := by
  have hk := start_lt (hcap.trans hR) hn
  have hopen0 : ∀ b, inRange lo n b = true → openFree root h scan b = false := by
    intro b hb
    have hlt := inRange_iff.mp hb
    rw [hp b (by omega)]
    exact halloc b hb
  rw [Nat.add_sub_cancel_left]
  obtain ⟨root', hrun, hkids⟩ :=
    metaFreeLoop_spec hsub hblk hR (16 - lo / treeRadix h) (lo / treeRadix h) root lo n (by omega) hK
      hhint (Cursor.start h hn) hcap hopen0
  have hcount := freeCount_put hcap hopen0 hkids.free
  obtain ⟨hgood, hclose⟩ := hkids.kids.close hR hkids.hint (by
    rw [hkids.avail, havail, hcount, freeCount_congr hp]
    rfl)
  refine ⟨root', hrun, hkids.outside, hgood, fun b hb => ?_, fun hh hsafe => ?_⟩
  · rw [hclose b hb, hkids.free b hb, hp b hb]
  · obtain ⟨hH', hbig'⟩ := hkids.hinted hh hsafe
    refine ⟨fun _ _ => hH', fun hob m hm hr => ?_⟩
    exact hbig' hob m hm ((leafRun_congr hclose).mp hr)

/-- Both fields of a meta node are set. -/
theorem Shape.restart {a : ℤ} {c : ℕ} (hs : Shape root (h + 1) scan cap)
    (hroot : (root.setAvail scan a).setBighint scan c = root1) :
    Besides root root1 scan ∧ (root1.node scan).bmuAvail = a ∧ (root1.node scan).bmBighint = c ∧
      Shape root1 (h + 1) scan cap := by
  subst hroot
  have hother : Besides root ((root.setAvail scan a).setBighint scan c) scan :=
    (besides_set _).trans (besides_set _)
  have hshape := hs.setNode (fun j hj _ => hother j hj.ne') (by
    rw [node_setBighint]
    exact Int.natCast_nonneg _)
  rw [node_setBighint, node_setAvail]
  exact ⟨hother, rfl, rfl, hshape⟩

/-- A meta node becomes ALL-FREE. -/
theorem Shape.free_full (hs : Shape root1 (h + 1) scan (treeRadix (h + 1)))
    (hother : Besides root root1 scan) (havail : (root1.node scan).bmuAvail = treeRadix (h + 1))
    (hall : ∀ b < treeRadix (h + 1), (freeAt root (h + 1) scan b || inRange lo n b) = true)
    (hbig : FullSafe root (h + 1) scan n → 32 ≤ (root1.node scan).bmBighint) :
    FreePost root root1 (h + 1) scan (treeRadix (h + 1)) lo n := by
  obtain ⟨hgood, hfree⟩ := hs.free (absurd · (Nat.succ_ne_zero _)) fun _ => havail
  refine ⟨hother.outside _, hgood, fun b hb => (hfree b hb).trans (hall b hb).symm,
    fun _ _ => hinted_of_collapsed fun _ => Or.inr havail, fun _ _ _ hsafe m _ hr => ?_⟩
  have h1 : m ≤ 32 := hr.le_radix
  have h2 := hbig hsafe
  omega

/-- **Freeing in a subtree.** -/
theorem freeNode_spec (h : ℕ) : FreeSpec h (freeNode h) := by
  induction h with
  | zero => exact blstLeafFree_spec
  | succ h ih =>
    intro root scan blk cap lo n hg hblk hn hcap halloc
    have hR := hg.shape.cap_le
    have hhint := hg.shape.hint_nonneg
    simp only [freeNode, blstMetaFree, treeSkip_div, treeRadix_div, freeNode_eq]
    by_cases h0 : (root.node scan).bmuAvail = 0
    · have hfree : ∀ b, freeAt root (h + 1) scan b = false := fun b => by rw [freeAt, if_pos h0]
      generalize hroot1 : (root.setAvail scan n).setBighint scan n = root1
      obtain ⟨hother, havail, hbig, hshape1⟩ := hg.shape.restart hroot1
      rw [if_pos h0]
      by_cases hfull : n = treeRadix (h + 1)
      · -- ALL-ALLOCATED becomes ALL-FREE
        obtain rfl : cap = treeRadix (h + 1) := by omega
        have h32 := le_treeRadix (h + 1)
        rw [if_neg (not_not_intro hfull), if_pos (by omega)]
        refine ⟨root1, rfl, hshape1.free_full hother (by omega) (fun b hb => ?_) (by omega)⟩
        rw [hfree b, Bool.false_or, inRange_iff]
        omega
      · rw [if_pos hfull]
        obtain ⟨⟨hK, hH, hnode, hout, hopen⟩, hcleared⟩ := hshape1.open_allocated
        generalize initKids scan (treeSkip h + 1) (allAllocated (treeSkip h + 1)) blistMetaRadix 0
          root1 = root2 at hK hH hnode hout hopen hcleared ⊢
        rw [← hnode] at havail hbig
        have hne : (root2.node scan).bmuAvail ≠ treeRadix (h + 1) := by omega
        rw [if_neg hne, if_neg (by omega)]
        have hzero : freeCount (fun _ => false) cap = 0 := count_of_forall_not fun _ _ => Bool.false_ne_true
        obtain ⟨root', hrun, hout', hgood, hfree', hhints⟩ := metaFree_close ih hblk hR hK
          (by omega) hn hcap hopen (fun _ _ => rfl) (by rw [havail, hzero]; simp)
        have hsafe : KidsSafe root2 h scan lo n := by
          intro k hk hlen
          have hlt : k * treeRadix h < cap := by
            simp only [subLen] at hlen
            omega
          have hz := hcleared k hk hlt
          refine ⟨fun hh0 => absurd (hz hh0), ?_⟩
          cases h with
          | zero => trivial
          | succ h => exact absurd (hz (succ_ne_zero h))
        obtain ⟨hH', hbig'⟩ := hhints hH hsafe
        refine ⟨root', hrun, ((hother.outside _).trans hout).trans hout', hgood, fun b hb => ?_,
          fun _ _ => hH', fun _ _ _ _ => hbig' fun m hm hr => ?_⟩
        · rw [hfree' b hb, hfree b]
        · exact absurd hr (not_leafRun_of_free hopen hm)
    · rw [if_neg h0]
      have havail := hg.live.1
      generalize hroot1 : root.setAvail scan ((root.node scan).bmuAvail + n) = root1
      have hother : Besides root root1 scan := hroot1 ▸ besides_set _
      have hrec : (root1.node scan).bmuAvail = freeCount (freeAt root (h + 1) scan) cap + n ∧
          (root1.node scan).bmBighint = (root.node scan).bmBighint := by
        rw [← hroot1, node_setAvail]
        exact ⟨by rw [havail], rfl⟩
      have hput : freeCount (fun b => freeAt root (h + 1) scan b || inRange lo n b) cap =
          freeCount (freeAt root (h + 1) scan) cap + n := freeCount_put hcap halloc fun _ _ => rfl
      have hle : freeCount (fun b => freeAt root (h + 1) scan b || inRange lo n b) cap ≤ cap :=
        count_le _
      have hshape1 : Shape root1 (h + 1) scan cap :=
        hg.shape.setNode (fun j hj _ => hother j hj.ne') (by rw [hrec.2]; exact hhint)
      by_cases hfull : (root1.node scan).bmuAvail = treeRadix (h + 1)
      · -- the node becomes ALL-FREE, and its hint stays as it is
        rw [if_pos hfull]
        obtain rfl : cap = treeRadix (h + 1) := by omega
        refine ⟨root1, rfl, hshape1.free_full hother hfull
          (Nat.count_iff_forall.mp (hput.trans (by omega))) fun hsafe => ?_⟩
        rw [hrec.2]
        exact hsafe (succ_ne_zero h) h0 (by omega)
      · have hRne : (root.node scan).bmuAvail ≠ treeRadix (h + 1) := by omega
        rw [if_neg hfull, if_neg (by omega)]
        have hK := hg.kids h0 hRne
        have hopen : ∀ b < cap, openFree root1 h scan b = freeAt root (h + 1) scan b := fun b hb =>
          (openFree_setNode hother (hb.trans_le hR)).trans (freeAt_open h0 hRne).symm
        obtain ⟨root', hrun, hout', hgood, hfree', hhints⟩ := metaFree_close ih hblk hR
          (hK.setNode hother) (hrec.2 ▸ hhint) hn hcap hopen halloc hrec.1
        have hsafe1 : FreeSafe root (h + 1) scan lo n → KidsSafe root1 h scan lo n := by
          intro hsafe k hk hlen
          obtain ⟨h1, h2⟩ := hsafe h0 (by omega) k hk hlen
          have ha := hother.kid h k
          exact ⟨h1.congr ha, h2.congr ha⟩
        refine ⟨root', hrun, (hother.outside _).trans hout', hgood, hfree',
          fun hh hsafe => ?_, fun hh hsafe hbig _ => ?_⟩
        · exact (hhints (KidsHinted.setNode (hh h0 hRne) hother) (hsafe1 hsafe)).1
        · refine (hhints (KidsHinted.setNode (hh h0 hRne) hother) (hsafe1 hsafe)).2
            fun m hm hr => ?_
          rw [hrec.2]
          exact hbig m hm ((leafRun_congr hopen).mp hr)

/-! ## Filling -/

/-- The result of filling `n` blocks from `lo` on in a subtree; `m` of them were free. -/
structure FillPost (root root' : BlTree) (h scan cap lo n : ℕ) (m : ℤ) : Prop where
  outside : Outside root root' h scan
  good : Good root' h scan cap
  free : ∀ b < cap, freeAt root' h scan b = (freeAt root h scan b && !inRange lo n b)
  count : m = freeCount (fun j => freeAt root h scan (lo + j)) n
  hinted : Hinted root h scan cap → Hinted root' h scan cap
  big : HintBig root h scan cap → HintBig root' h scan cap

/-- A fill succeeds, or its range is not in one leaf. -/
def FillOutcome (root : BlTree) (h scan cap lo n : ℕ) : Except BlPanic (ℤ × BlTree) → Prop
  | .error _ => blistBmapRadix < lo % blistBmapRadix + n
  | .ok (m, root') => FillPost root root' h scan cap lo n m

/-- `fill` fills blocks of subtrees of height `h`. -/
def FillSpec (h : ℕ) (fill : BlTree → ℕ → ℕ → ℕ → ℕ → Except BlPanic (ℤ × BlTree)) : Prop :=
  ∀ root scan blk cap lo n, Good root h scan cap → 32 ∣ blk → 0 < n → lo + n ≤ cap →
    FillOutcome root h scan cap lo n (fill root scan (blk + lo) n blk)

/-- Fewer free blocks need no higher hint. -/
theorem HintBig.mono (hb : HintBig root h scan cap)
    (hsub : ∀ b < cap, freeAt root' h scan b = true → freeAt root h scan b = true)
    (hhint : (root'.node scan).bmBighint = (root.node scan).bmBighint) :
    HintBig root' h scan cap := by
  intro m hm hr
  rw [hhint]
  exact hb m hm (hr.mono hsub)

/-- **`blst_leaf_fill`.** -/
theorem blstLeafFill_spec : FillSpec 0 fun root scan allocBlk n _ =>
    .ok (((blstLeafFill root scan allocBlk n).1 : ℤ), (blstLeafFill root scan allocBlk n).2) := by
  intro root scan blk cap lo n hg hblk hn hcap
  have hcap32 : cap ≤ 32 := hg.shape.1
  have hmask := leafMask_isRun hblk (hcap.trans hcap32) hn
  have hfree : ∀ b, freeAt (blstLeafFill root scan (blk + lo) n).2 0 scan b =
      (freeAt root 0 scan b && !inRange lo n b) := by
    intro b
    rw [blstLeafFill, freeAt, node_setBitmap]
    exact hmask.getLsbD_and_not
  have hhint : ((blstLeafFill root scan (blk + lo) n).2.node scan).bmBighint =
      (root.node scan).bmBighint := by
    rw [blstLeafFill, node_setBitmap]
  have hsub : ∀ b < cap, freeAt (blstLeafFill root scan (blk + lo) n).2 0 scan b = true →
      freeAt root 0 scan b = true := by
    intro b _ ht
    rw [hfree b, Bool.and_eq_true] at ht
    exact ht.1
  refine ⟨(besides_set _).outside 0, ⟨⟨hg.shape.1, ?_⟩, fun b hb => ?_⟩,
    fun b _ => hfree b, ?_, fun _ => trivial, fun hb => hb.mono hsub hhint⟩
  · rw [hhint]
    exact hg.shape.hint_nonneg
  · have hb' := hfree b
    have hclear : freeAt root 0 scan b = false := hg.live b hb
    rw [hclear] at hb'
    exact hb'
  · -- the bits under the mask are the free blocks of the range
    have hbits : ∀ i, ((root.node scan).bmuBitmap &&& leafMask (blk + lo) n).getLsbD i =
        (freeAt root 0 scan i && inRange lo n i) := by
      intro i
      rw [BitVec.getLsbD_and, hmask i]
      rfl
    have hcount : count (fun i => ((root.node scan).bmuBitmap &&&
        leafMask (blk + lo) n).getLsbD i = true) 32 =
        freeCount (fun j => freeAt root 0 scan (lo + j)) n := by
      have hin : freeCount (fun b => freeAt root 0 scan b && inRange lo n b) 32 =
          freeCount (fun j => freeAt root 0 scan (lo + j) && inRange lo n (lo + j)) n := by
        have hclear := freeCount_clear (p := fun b => freeAt root 0 scan b && inRange lo n b)
          (q := fun _ => false) (hcap.trans hcap32) fun b _ => by
            cases inRange lo n b <;> simp
        have hzero : freeCount (fun _ => false) 32 = 0 := count_of_forall_not fun _ _ => Bool.false_ne_true
        rw [hzero, Nat.zero_add] at hclear
        exact hclear.symm
      calc count (fun i => ((root.node scan).bmuBitmap &&&
            leafMask (blk + lo) n).getLsbD i = true) 32
          = freeCount (fun b => freeAt root 0 scan b && inRange lo n b) 32 :=
            count_congr fun i _ => by rw [hbits i]
        _ = freeCount (fun j => freeAt root 0 scan (lo + j) && inRange lo n (lo + j)) n := hin
        _ = freeCount (fun j => freeAt root 0 scan (lo + j)) n := freeCount_congr fun j hj => by
            have hr : inRange lo n (lo + j) = true := inRange_iff.mpr (by omega)
            rw [hr, Bool.and_true]
    rw [← hcount]
    exact congrArg _ (popLoop_eq 32 (count_le _))

/-- The result of the loop over the subtrees, which returns `m` and had counted `nblks` before. -/
structure FillKids (root root' : BlTree) (h scan cap lo n : ℕ) (nblks m : ℤ) : Prop where
  outside : Outside root root' (h + 1) scan
  kids : Kids root' h scan cap
  count : m = nblks + freeCount (fun j => openFree root h scan (lo + j)) n
  avail : (root'.node scan).bmuAvail = (root.node scan).bmuAvail - m
  hint : (root'.node scan).bmBighint = (root.node scan).bmBighint
  free : ∀ b < cap, openFree root' h scan b = (openFree root h scan b && !inRange lo n b)
  hinted : KidsHinted root h scan cap → KidsHinted root' h scan cap

/-- The end of the loop. -/
theorem Kids.fill_end (hK : Kids root h scan cap) (hR : cap ≤ treeRadix (h + 1)) (lo : ℕ)
    (nblks : ℤ) : FillKids root (root.setAvail scan ((root.node scan).bmuAvail - nblks)) h scan cap lo
      0 nblks nblks := by
  have hother : Besides root (root.setAvail scan ((root.node scan).bmuAvail - nblks)) scan :=
    besides_set _
  refine ⟨hother.outside _, hK.setNode hother, by simp [freeCount], ?_, ?_, fun b hb => ?_,
    fun hh => hh.setNode hother⟩
  · rw [node_setAvail]
  · rw [node_setAvail]
  · rw [openFree_setNode hother (hb.trans_le hR), inRange_eq_false (by omega), Bool.not_false,
      Bool.and_true]

/-- One subtree, and then the loop over the others. -/
theorem FillKids.cons {nblks m' : ℤ} (hR : cap ≤ treeRadix (h + 1))
    (hk : k < 16) (hklt : k * treeRadix h < cap) (hle : k * treeRadix h ≤ lo)
    (hkcap : lo - k * treeRadix h + v ≤ kidCap h cap k) (hvn : v ≤ n) (hcap : lo + n ≤ cap)
    (hpost : FillPost root root1 h (kid h scan k) (kidCap h cap k) (lo - k * treeRadix h) v m)
    (hrest : FillKids root1 root' h scan cap (lo + v) (n - v) (nblks + m) m') :
    FillKids root root' h scan cap lo n nblks m' := by
  have hnode := hpost.outside.node hk
  have hlo : k * treeRadix h + (lo - k * treeRadix h) = lo := by omega
  have hkR := kidCap_le h cap k
  have hopen1 := openFree_lift hR hpost.outside (fun x y => x && !y) (fun x => by simp) _ _ hkcap
    hpost.free
  rw [hlo] at hopen1
  have hm : m = freeCount (fun j => openFree root h scan (lo + j)) v := by
    rw [hpost.count]
    refine congrArg _ (freeCount_congr fun j hj => ?_)
    rw [← openFree_kid (by omega), ← Nat.add_assoc, hlo]
  refine ⟨(hpost.outside.parent hk).trans hrest.outside, hrest.kids, ?_, ?_, ?_, fun b hb => ?_,
    fun hh => hrest.hinted (hh.step hpost.outside ?_)⟩
  · have hsplit : freeCount (fun j => openFree root h scan (lo + j)) n =
        freeCount (fun j => openFree root h scan (lo + j)) v +
        freeCount (fun j => openFree root1 h scan (lo + v + j)) (n - v) := by
      obtain ⟨r, hr⟩ := Nat.exists_eq_add_of_le hvn
      have hlast : freeCount (fun j => openFree root1 h scan (lo + v + j)) r =
          freeCount (fun j => openFree root h scan (lo + (v + j))) r := by
        refine freeCount_congr fun j hj => ?_
        rw [hopen1 _ (by omega), inRange_eq_false (by omega), Bool.not_false, Bool.and_true,
          Nat.add_assoc]
      rw [show n - v = r by omega, hlast]
      conv_lhs => rw [hr]
      exact count_add (fun j => openFree root h scan (lo + j) = true) _ r
    rw [hrest.count, hm, hsplit]
    push_cast
    ring
  · rw [hrest.avail, hnode]
  · rw [hrest.hint, hnode]
  · rw [hrest.free b hb, hopen1 b hb, ← inRange_append hvn, Bool.not_or, Bool.and_assoc]
  · exact ⟨hpost.big (hh k hk hklt).1, hpost.hinted (hh k hk hklt).2⟩

/-- **The loop over the subtrees.** -/
theorem metaFillLoop_spec {sub : BlTree → ℕ → ℕ → ℕ → ℕ → Except BlPanic (ℤ × BlTree)}
    (hsub : FillSpec h sub) (hblk : 32 ∣ blk) (hR : cap ≤ treeRadix (h + 1)) :
    ∀ (left k : ℕ) (root : BlTree) (lo n : ℕ) (nblks : ℤ), left + k = 16 → Kids root h scan cap →
      0 ≤ (root.node scan).bmBighint → Cursor h k lo n → lo + n ≤ cap →
      match metaFillLoop sub scan (treeRadix h) (treeSkip h + 1) left k root (blk + lo) n
          (blk + k * treeRadix h) nblks with
      | .error _ => blistBmapRadix < lo % blistBmapRadix + n
      | .ok (m, root') => FillKids root root' h scan cap lo n nblks m := by
  intro left
  induction left with
  | zero =>
    intro k root lo n nblks hk hK hhint hc hcap
    obtain rfl := hc.done (by omega) (hcap.trans hR)
    exact hK.fill_end hR lo nblks
  | succ left ih =>
    intro k root lo n nblks hk hK hhint hc hcap
    have hk16 : k < 16 := by omega
    have hidx : scan + (k * (treeSkip h + 1) + 1) = kid h scan k := rfl
    simp only [metaFillLoop, hidx]
    rcases Nat.eq_zero_or_pos n with rfl | hn
    · have hle := hc.le_of_zero
      rw [if_neg (by omega)]
      exact hK.fill_end hR lo nblks
    · obtain ⟨hle, -, hvpos, hvn, hvR, hc'⟩ := hc.step hn
      obtain ⟨hkcap, hklt⟩ := hc.kid_le hn hcap
      obtain ⟨hv, hlo, hstart, hnext⟩ := hc.down hn blk
      have hout := hsub root (kid h scan k) (blk + k * treeRadix h) _ (lo - k * treeRadix h)
        (subLen h lo n k) (hK.good k hk16 hklt) (dvd_add_mul hblk h k) hvpos hkcap
      rw [hstart] at hout
      have hne : (root.node scan).bmBighint ≠ -1 := by omega
      rw [if_pos (by omega), hv, if_neg hne]
      cases hrun : sub root (kid h scan k) (blk + lo) (subLen h lo n k) (blk + k * treeRadix h) with
      | error e =>
        rw [hrun] at hout
        have hmod := block_mod h k (lo - k * treeRadix h)
        rw [hlo] at hmod
        change blistBmapRadix < _ at hout ⊢
        omega
      | ok r =>
        obtain ⟨m, root1⟩ := r
        rw [hrun] at hout
        have hpost : FillPost root root1 h (kid h scan k) (kidCap h cap k) (lo - k * treeRadix h)
          (subLen h lo n k) m := hout
        have hnode := hpost.outside.node hk16
        have hrest := ih (k + 1) root1 (lo + subLen h lo n k) (n - subLen h lo n k) (nblks + m)
          (by omega) (hK.step hk16 hklt hpost.outside hpost.good) (hnode ▸ hhint) hc' (by omega)
        simp only [hnext, Nat.add_assoc blk lo]
        split at hrest
        · -- an error further on: the range goes beyond this subtree
          rcases hc' with hc' | hc'
          · have hmod : (lo + subLen h lo n k) % blistBmapRadix < blistBmapRadix :=
              mod_lt _ (by decide)
            omega
          · have hend : lo + subLen h lo n k = (k + 1) * treeRadix h := by
              omega
            have hmod := block_mod h (k + 1) 0
            rw [Nat.add_zero] at hmod
            rw [hend, hmod] at hrest
            change 32 < 0 + _ at hrest
            change 32 < _
            omega
        · exact hrest.cons hR hk16 hklt hle hkcap hvn hcap hpost

/-- The filling in a subtree of height `h`. -/
def fillNode : ℕ → BlTree → ℕ → ℕ → ℕ → ℕ → Except BlPanic (ℤ × BlTree)
  | 0, root, scan, allocBlk, n, _ =>
    .ok (((blstLeafFill root scan allocBlk n).1 : ℤ), (blstLeafFill root scan allocBlk n).2)
  | h + 1, root, scan, allocBlk, n, blk =>
    blstMetaFill (h + 1) root scan allocBlk n (treeRadix (h + 1)) (treeSkip (h + 1)) blk

/-- The choice between a leaf and a meta node in `blst_meta_fill`. -/
theorem fillNode_eq (h : ℕ) : (fun root i allocBlk v blk => if treeSkip h + 1 = 1 then
        .ok (((blstLeafFill root i allocBlk v).1 : ℤ), (blstLeafFill root i allocBlk v).2)
      else blstMetaFill h root i allocBlk v (treeRadix h) (treeSkip h + 1 - 1) blk) = fillNode h := by
  funext root i allocBlk v blk
  cases h with
  | zero => rfl
  | succ h =>
    rfl

/-- A meta node without free blocks outside the range is collapsed. -/
theorem Good.fill_collapsed (hg : Good root (h + 1) scan cap) (hcap : lo + n ≤ cap)
    (hnone : ∀ b < cap, (freeAt root (h + 1) scan b && !inRange lo n b) = false) (c : ℕ) :
    FillPost root ((root.setAvail scan 0).setBighint scan c) (h + 1) scan cap lo n
      (root.node scan).bmuAvail := by
  generalize hroot1 : (root.setAvail scan 0).setBighint scan c = root1
  obtain ⟨hother, havail, -, hshape⟩ := hg.shape.restart hroot1
  obtain ⟨hgood, hfree⟩ := hshape.allocated nofun fun _ => havail
  have hcount : freeCount (freeAt root (h + 1) scan) cap =
      freeCount (fun j => freeAt root (h + 1) scan (lo + j)) n := by
    rw [← freeCount_clear hcap fun b hb => (hnone b hb).symm]
    rw [Nat.add_eq_right]
    exact count_of_forall_not fun _ _ => Bool.false_ne_true
  refine ⟨hother.outside _, hgood, fun b hb => ?_, ?_, fun _ => ?_, fun _ m hm hr => ?_⟩
  · rw [hfree b, hnone b hb]
  · rw [hg.live.1, hcount]
  · exact hinted_of_collapsed fun _ => Or.inl havail
  · exact absurd hr (not_leafRun_of_free (fun b _ => hfree b) hm)

/-- The loop over the subtrees of an opened node has filled in the node. -/
theorem Good.fill_close (hg : Good root (h + 1) scan cap) (hcap : lo + n ≤ cap)
    (h0 : (root.node scan).bmuAvail ≠ 0)
    (hkids : FillKids (openNode root h scan) root' h scan cap lo n 0 m) :
    FillPost root root' (h + 1) scan cap lo n m := by
  have hR := hg.shape.cap_le
  obtain ⟨hK, hH, hnode, hout, hopen⟩ := hg.open h0
  have hopen' : ∀ b < cap, openFree root' h scan b =
      (freeAt root (h + 1) scan b && !inRange lo n b) := fun b hb => by
    rw [hkids.free b hb, hopen b hb]
  have hcount : m = freeCount (fun j => freeAt root (h + 1) scan (lo + j)) n := by
    rw [hkids.count, zero_add]
    exact congrArg _ (freeCount_congr fun j hj => hopen _ (by omega))
  have hclear := freeCount_clear hcap hopen'
  obtain ⟨hgood, hclose⟩ := hkids.kids.close hR
    (by rw [hkids.hint, hnode]; exact hg.shape.hint_nonneg) (by
      rw [hkids.avail, hnode, hg.live.1, hcount, ← hclear]
      push_cast
      ring)
  have hfree : ∀ b < cap, freeAt root' (h + 1) scan b =
      (freeAt root (h + 1) scan b && !inRange lo n b) := fun b hb =>
    (hclose b hb).trans (hopen' b hb)
  refine ⟨hout.trans hkids.outside, hgood, hfree, hcount, fun hh _ _ => hkids.hinted (hH hh),
    fun hb => hb.mono (fun b hb ht => ?_) ?_⟩
  · rw [hfree b hb, Bool.and_eq_true] at ht
    exact ht.1
  · rw [hkids.hint, hnode]

/-- **Filling in a subtree.** -/
theorem fillNode_spec (h : ℕ) : FillSpec h (fillNode h) := by
  induction h with
  | zero => exact blstLeafFill_spec
  | succ h ih =>
    intro root scan blk cap lo n hg hblk hn hcap
    have hR := hg.shape.cap_le
    have hhint := hg.shape.hint_nonneg
    simp only [fillNode, blstMetaFill, treeSkip_div, treeRadix_div, fillNode_eq]
    split
    · -- ALL-ALLOCATED, before or after
      rename_i hcase
      refine hg.fill_collapsed hcap (fun b hb => ?_) n
      rcases hcase with hfull | h0
      · have hin : inRange lo n b = true := inRange_iff.mpr (by omega)
        rw [hin, Bool.not_true, Bool.and_false]
      · rw [freeAt, if_pos h0, Bool.false_and]
    · rename_i hcase
      rw [not_or] at hcase
      split
      · have h2 := le_treeRadix h
        show 32 < _
        omega
      · obtain ⟨hK, -, hnode, -, -⟩ := hg.open hcase.2
        have hk := start_lt (hcap.trans hR) hn
        rw [Nat.add_sub_cancel_left]
        have hloop := metaFillLoop_spec ih hblk hR (16 - lo / treeRadix h) (lo / treeRadix h)
          (openNode root h scan) lo n 0 (by omega) hK (by rw [hnode]; exact hhint)
          (Cursor.start h hn) hcap
        change FillOutcome root (h + 1) scan cap lo n (metaFillLoop (fillNode h) scan (treeRadix h)
          (treeSkip h + 1) (16 - lo / treeRadix h) (lo / treeRadix h) (openNode root h scan)
          (blk + lo) n (blk + lo / treeRadix h * treeRadix h) 0)
        revert hloop
        cases metaFillLoop (fillNode h) scan (treeRadix h) (treeSkip h + 1) (16 - lo / treeRadix h)
          (lo / treeRadix h) (openNode root h scan) (blk + lo) n
          (blk + lo / treeRadix h * treeRadix h) 0 with
        | error e => exact id
        | ok r =>
          intro hloop
          exact hg.fill_close hcap hcase.2 hloop

end FreeBSDSys.Blst
