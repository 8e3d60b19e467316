import FreeBSDSys.Kern.BlistCorrect

/-!
# Filling a blist leaf by leaf

A caller that fills in all blocks of a blist, `BLIST_BMAP_RADIX` at a time, names more blocks in the
last leaf than the blist has, and may go on behind it.

* `fillNode_leaf`: a fill of one whole leaf, the last one included, fills in the blocks it has.
* `BlistInv.fillLeaf`: the same of the set of free blocks, and for leaves behind the last one once
  nothing is free any more.
-/

namespace FreeBSDSys.Blst

open Finset Nat

variable {root : BlTree} {h scan cap blk lo : ℕ}

/-- The blocks of a leaf that exist, from a range of the whole leaf. -/
theorem FillPost.of_leaf {root' : BlTree} {m : ℤ} (hg : Good root 0 scan cap)
    (hpost : FillPost root root' 0 scan 32 0 32 m) : FillPost root root' 0 scan cap 0 cap m := by
  have hcap : cap ≤ 32 := hg.shape.1
  have hnone : ∀ b < 32, freeAt root' 0 scan b = false := by
    intro b hb
    have hin : inRange 0 32 b = true := inRange_iff.mpr (by omega)
    rw [hpost.free b hb, hin, Bool.not_true, Bool.and_false]
  refine ⟨hpost.outside, ⟨⟨hcap, hpost.good.shape.hint_nonneg⟩, fun b _ => ?_⟩, fun b hb => ?_, ?_,
    fun _ => trivial, fun _ m hm hr => ?_⟩
  · rcases lt_or_ge b 32 with hb | hb
    · exact hnone b hb
    · exact hpost.good.live b hb
  · have hin : inRange 0 cap b = true := inRange_iff.mpr (by omega)
    rw [hnone b (by omega), hin, Bool.not_true, Bool.and_false]
  · -- the bits behind the last block are clear
    obtain ⟨r, hr⟩ := Nat.exists_eq_add_of_le hcap
    have hrest : Nat.count (fun j => freeAt root 0 scan (0 + (cap + j)) = true) r = 0 := by
      refine count_of_forall_not fun j _ => ?_
      have hclear : freeAt root 0 scan (cap + j) = false := hg.live _ (by omega)
      rw [zero_add, hclear]
      exact nofun
    rw [hpost.count, hr]
    have hadd := count_add (fun j => freeAt root 0 scan (0 + j) = true) cap r
    rw [hrest] at hadd
    exact congrArg _ hadd
  · exact absurd hr (not_leafRun_of_free (fun b hb => hnone b (by omega)) hm)

/-- Filling one whole leaf. -/
theorem Good.fill_leaf (hg : Good root 0 scan cap) (hblk : 32 ∣ blk) (x : ℕ) :
    ∃ m root', fillNode 0 root scan blk 32 x = .ok (m, root') ∧
      FillPost root root' 0 scan cap 0 cap m := by
  have hcap : cap ≤ 32 := hg.shape.1
  have hwhole : Good root 0 scan 32 :=
    ⟨⟨le_rfl, hg.shape.hint_nonneg⟩, fun b hb => hg.live b (hcap.trans hb)⟩
  exact ⟨_, _, rfl, .of_leaf hg
    (blstLeafFill_spec root scan blk 32 0 32 hwhole hblk (by decide) le_rfl)⟩

/-- **Filling in one leaf**, of which the subtree may have a part only. -/
theorem fillNode_leaf (h : ℕ) : ∀ (root : BlTree) (scan blk cap lo : ℕ), Good root h scan cap →
    32 ∣ blk → 32 ∣ lo → lo < cap → ∃ m root',
      fillNode h root scan (blk + lo) 32 blk = .ok (m, root') ∧
      FillPost root root' h scan cap lo (min 32 (cap - lo)) m := by
  induction h with
  | zero =>
    intro root scan blk cap lo hg hblk hlo hlt
    have hcap : cap ≤ 32 := hg.shape.1
    obtain rfl : lo = 0 := by omega
    rw [Nat.sub_zero, min_eq_right hcap]
    exact hg.fill_leaf hblk blk
  | succ h ih =>
    intro root scan blk cap lo hg hblk hlo hlt
    have hR := hg.shape.cap_le
    have h32 := le_treeRadix h
    have hsucc := treeRadix_succ h
    simp only [fillNode, blstMetaFill, treeSkip_div, treeRadix_div, fillNode_eq]
    by_cases h0 : (root.node scan).bmuAvail = 0
    · rw [if_pos (.inr h0)]
      refine ⟨_, _, rfl, hg.fill_collapsed (by omega) (fun b _ => ?_) 32⟩
      rw [freeAt, if_pos h0, Bool.false_and]
    · rw [if_neg (by omega), ← openNode, if_neg (by omega), Nat.add_sub_cancel_left]
      obtain ⟨hK, -, hnode, -, -⟩ := hg.open h0
      generalize hk : lo / treeRadix h = k
      have hpos : 0 < treeRadix h := (by decide : 0 < 32).trans_le h32
      have hk16 : k < 16 := by
        rw [← hk, div_lt_iff_lt_mul hpos]
        omega
      have hle : k * treeRadix h ≤ lo := hk ▸ div_mul_le_self lo _
      have hmod : lo - k * treeRadix h < treeRadix h := by
        have := lt_div_mul_add (a := lo) hpos
        rw [hk] at this
        omega
      -- the leaf lies in subtree `k`
      have hsub : lo - k * treeRadix h + 32 ≤ treeRadix h := by
        obtain ⟨r, hr⟩ := dvd_treeRadix h
        obtain ⟨q, hq⟩ := dvd_sub hlo ((dvd_treeRadix h).mul_left k)
        omega
      have hkcap : kidCap h cap k = min (treeRadix h) (cap - k * treeRadix h) := rfl
      obtain ⟨m, root1, hrun, hpost⟩ := ih (openNode root h scan) (kid h scan k)
        (blk + k * treeRadix h) (kidCap h cap k) (lo - k * treeRadix h)
        (hK.good k hk16 (by omega)) (dvd_add_mul hblk h k)
        (dvd_sub hlo ((dvd_treeRadix h).mul_left k)) (by omega)
      have hstart : blk + k * treeRadix h + (lo - k * treeRadix h) = blk + lo := by omega
      have hlen : min 32 (kidCap h cap k - (lo - k * treeRadix h)) = min 32 (cap - lo) := by omega
      rw [hstart] at hrun
      rw [hlen] at hpost
      have hK1 := hK.step hk16 (by omega) hpost.outside hpost.good
      have hend := hK1.fill_end hR (lo + min 32 (cap - lo)) (0 + m)
      refine ⟨0 + m, _, ?_, hg.fill_close (by omega) h0 (FillKids.cons hR hk16 (by omega) hle
        (by omega) le_rfl (by omega) hpost (by rw [Nat.sub_self]; exact hend))⟩
      -- one subtree, then the loop is at its end
      have hv : min (blk + k * treeRadix h + treeRadix h - (blk + lo)) 32 = 32 := by omega
      have hhint : ((openNode root h scan).node scan).bmBighint ≠ -1 := by
        have := hg.shape.hint_nonneg
        rw [hnode]
        omega
      have hidx : scan + (k * (treeSkip h + 1) + 1) = kid h scan k := rfl
      obtain ⟨left, hleft⟩ : ∃ left, blistMetaRadix - k = left + 1 :=
        ⟨15 - k, by rw [blistMetaRadix]; omega⟩
      rw [hleft, metaFillLoop, if_pos (by omega)]
      simp only [hv, hidx, if_neg hhint, hrun]
      cases left with
      | zero => rfl
      | succ left => rw [metaFillLoop, if_neg (by omega)]

/-- **Filling behind the last leaf** of a subtree without free blocks. -/
theorem fillNode_empty (hg : Good root h scan cap) (hnone : ∀ b < cap, freeAt root h scan b = false)
    (hblk : 32 ∣ blk) : ∃ m root', fillNode h root scan blk 32 0 = .ok (m, root') ∧
      FillPost root root' h scan cap 0 cap m := by
  cases h with
  | zero =>
    exact hg.fill_leaf hblk 0
  | succ h =>
    have h0 : (root.node scan).bmuAvail = 0 := by
      rw [hg.live.1]
      exact_mod_cast count_of_forall_not fun b hb => by rw [hnone b hb]; exact nofun
    simp only [fillNode, blstMetaFill]
    rw [if_pos (.inr h0)]
    refine ⟨_, _, rfl, hg.fill_collapsed (zero_add _).le (fun b hb => ?_) 32⟩
    rw [hnone b hb, Bool.false_and]

variable {bl : Blist} {n blkno : ℕ}

theorem BlistInv.lt_of_mem (hi : BlistInv bl n h) {b : ℕ} (hb : b ∈ bl.freeBlocks) : b < n :=
  (hi.mem_iff.mp hb).1

/-- **Filling in one leaf of a blist**, or one behind it when no block is free. -/
theorem BlistInv.fillLeaf (hi : BlistInv bl n h) (hblk : 32 ∣ blkno)
    (hempty : n ≤ blkno → bl.freeBlocks = ∅) :
    ∃ filled bl', blistFill bl blkno 32 = .ok (filled, bl') ∧ BlistInv bl' n h ∧
      filled = (bl.freeBlocks ∩ Ico blkno (blkno + 32)).card ∧
      bl'.freeBlocks = bl.freeBlocks \ Ico blkno (blkno + 32) := by
  rw [hi.fill_call]
  rcases lt_or_ge blkno n with hlt | hge
  · obtain ⟨m, root', hrun, hpost⟩ := fillNode_leaf h bl.blRoot 0 0 n blkno hi.good
      (dvd_zero 32) hblk hlt
    obtain ⟨hinv, hm, hset⟩ := hi.filled (by omega) hpost
    rw [zero_add] at hrun
    -- the range ends with the blist or with the leaf
    have hmem : ∀ b ∈ bl.freeBlocks, b ∈ Ico blkno (blkno + min 32 (n - blkno)) ↔
        b ∈ Ico blkno (blkno + 32) := by
      intro b hb
      have := hi.lt_of_mem hb
      rw [mem_Ico, mem_Ico]
      omega
    refine ⟨m, _, by rw [hrun], hinv, ?_, ?_⟩
    · rw [hm, ← filter_mem_eq_inter, ← filter_mem_eq_inter, filter_congr hmem]
    · rw [hset, sdiff_eq_filter, sdiff_eq_filter]
      exact filter_congr fun b hb => not_congr (hmem b hb)
  · have hnone : ∀ b < n, freeAt bl.blRoot h 0 b = false := by
      intro b hb
      rw [Bool.eq_false_iff]
      intro ht
      have : b ∈ bl.freeBlocks := hi.mem_iff.mpr ⟨hb, ht⟩
      rw [hempty hge] at this
      exact absurd this (notMem_empty b)
    obtain ⟨m, root', hrun, hpost⟩ := fillNode_empty hi.good hnone hblk
    obtain ⟨hinv, hm, hset⟩ := hi.filled (zero_add n).le hpost
    simp only [hempty hge, empty_sdiff, empty_inter] at hset hm ⊢
    exact ⟨m, _, by rw [hrun], hinv, hm, hset⟩

end FreeBSDSys.Blst
