import FreeBSDSys.Vm.Swap

/-!
# The bitmap of a swap device

`Holds bl n F` says that `bl` is the bitmap of a device of `n` pages, of which those in `F` are free.
The bitmap is a blist in the sense of `BlistInv`, but on a device of one page the call of
`blist_free` with the count `-1` makes `bl_free` one less than the number of free blocks.

* `Holds.alloc`, `Holds.free`, `Holds.fillLoop`: the three uses of a bitmap.
* `exists_holds`: the bitmap of a new device, whose first two pages are not free.
-/

namespace FreeBSDSys.Swap

open Blst Finset Nat

/-- The blist with another value of `bl_free`. -/
def addFree (bl : Blist) (k : ℕ) : Blist := { bl with blFree := bl.blFree + k }

/-- The bitmap of a device of `n` pages, of which those in `F` are free. -/
structure Holds (bl : Blist) (n : ℕ) (F : Finset ℕ) : Prop where
  inv : ∃ h, BlistInv (addFree bl (2 - n)) n h
  free : bl.freeBlocks = F

variable {bl bl' : Blist} {n c k b : ℕ} {F : Finset ℕ} {d : Swdevt}

theorem addFree_zero (bl : Blist) : addFree bl 0 = bl := by
  rw [addFree, cast_zero, Int.add_zero]

/-- A call that is made with another counter succeeds if the call itself does. -/
theorem exists_of_map {α β : Type} {f : α → β} {r : Except BlPanic α} {y : β}
    (h : r.map f = .ok y) : ∃ x, r = .ok x ∧ f x = y := by
  cases r with
  | error e => cases h
  | ok x => exact ⟨x, rfl, Except.ok.inj h⟩

theorem blistAlloc_addFree (bl : Blist) (k c : ℕ) : blistAlloc (addFree bl k) c =
    (blistAlloc bl c).map fun r => (r.1, addFree r.2 k) := by
  have hfree : bl.blFree + k - c = bl.blFree - c + k := by omega
  rw [addFree]
  simp only [blistAlloc, hfree]
  rcases (ite (bl.blRadix = blistBmapRadix) _ _ : Except BlPanic (Option ℕ × BlTree)) with
    e | ⟨_ | blk, root⟩ <;> rfl

theorem blistFree_addFree (bl : Blist) (k b c : ℕ) :
    blistFree (addFree bl k) b c = (blistFree bl b c).map fun bl' => addFree bl' k := by
  have hfree : bl.blFree + k + c = bl.blFree + c + k := by omega
  rw [addFree]
  simp only [blistFree, hfree]
  rcases (ite (bl.blRadix = blistBmapRadix) _ _ : Except BlPanic BlTree) with e | root <;> rfl

theorem blistFill_addFree (bl : Blist) (k b c : ℕ) : blistFill (addFree bl k) b c =
    (blistFill bl b c).map fun r => (r.1, addFree r.2 k) := by
  have hfree : ∀ filled : ℤ, bl.blFree + k - filled = bl.blFree - filled + k := by omega
  rw [addFree]
  simp only [blistFill, hfree]
  rcases (ite (bl.blRadix = blistBmapRadix) _ _ : Except BlPanic (ℤ × BlTree)) with
    e | ⟨filled, root⟩ <;> rfl

section

variable (hb : Holds bl n F)

include hb

/-- The counter of the bitmap. -/
theorem Holds.blFree : bl.blFree + (2 - n : ℕ) = F.card := by
  obtain ⟨h, hi⟩ := hb.inv
  have hcard := hi.card
  rw [← hb.free]
  exact hcard

theorem Holds.lt (hF : b ∈ F) : b < n := by
  obtain ⟨h, hi⟩ := hb.inv
  rw [← hb.free] at hF
  exact hi.lt_of_mem hF

/-- **Allocation.** -/
theorem Holds.alloc (h1 : 0 < c) (h32 : c ≤ blistMaxAlloc) :
    ∃ res bl', blistAlloc bl c = .ok (res, bl') ∧ (res = none → Holds bl' n F) ∧
      ∀ r, res = some r → Ico r (r + c) ⊆ F ∧ Holds bl' n (F \ Ico r (r + c)) := by
  obtain ⟨h, hi⟩ := hb.inv
  obtain ⟨res, bl1, hrun, hinv, htaken, hfailed, -⟩ := hi.alloc h1 h32
  rw [blistAlloc_addFree] at hrun
  obtain ⟨⟨res', bl'⟩, hbl, heq⟩ := exists_of_map hrun
  cases heq
  refine ⟨res', bl', hbl, fun hnone => ⟨⟨h, hinv⟩, (hfailed hnone).trans hb.free⟩, fun r hr => ?_⟩
  obtain ⟨hsub, hset⟩ := htaken r hr
  rw [← hb.free]
  exact ⟨hsub, ⟨h, hinv⟩, hset⟩

/-- **Freeing.** -/
theorem Holds.freed (h1 : 0 < c) (hn : b + c ≤ n) (hF : ∀ x ∈ F, x ∉ Ico b (b + c)) :
    ∃ bl', blistFree bl b c = .ok bl' ∧ Holds bl' n (F ∪ Ico b (b + c)) := by
  obtain ⟨h, hi⟩ := hb.inv
  obtain ⟨bl1, hrun, hinv, hset, -⟩ := hi.free h1 hn fun x hx => hF x (hb.free ▸ hx)
  rw [blistFree_addFree] at hrun
  obtain ⟨bl', hbl, rfl⟩ := exists_of_map hrun
  exact ⟨bl', hbl, ⟨h, hinv⟩, hb.free ▸ hset⟩

/-- **Filling in one leaf.** -/
theorem Holds.fillLeaf (hblk : 32 ∣ b) (hF : ∀ x ∈ F, b ≤ x) :
    ∃ bl', blistFill bl b dmmax = .ok (((F.filter (· < b + 32)).card : ℤ), bl') ∧
      Holds bl' n (F.filter fun x => ¬ x < b + 32) := by
  obtain ⟨h, hi⟩ := hb.inv
  have hmem : ∀ x ∈ F, x ∈ Ico b (b + 32) ↔ x < b + 32 := by
    intro x hx
    rw [mem_Ico]
    exact and_iff_right (hF x hx)
  have hinter : F ∩ Ico b (b + 32) = F.filter (· < b + 32) := by
    rw [← filter_mem_eq_inter]
    exact filter_congr hmem
  have hdiff : F \ Ico b (b + 32) = F.filter fun x => ¬ x < b + 32 := by
    rw [sdiff_eq_filter]
    exact filter_congr fun x hx => not_congr (hmem x hx)
  obtain ⟨filled, bl1, hrun, hinv, hm, hset⟩ := hi.fillLeaf hblk fun hle => by
    refine eq_empty_of_forall_notMem fun x hx => ?_
    have hx' : x ∈ F := hb.free ▸ hx
    have := hb.lt hx'
    have := hF x hx'
    omega
  rw [blistFill_addFree] at hrun
  have hfree : (addFree bl (2 - n)).freeBlocks = F := hb.free
  rw [hfree, hinter] at hm
  rw [hfree, hdiff] at hset
  obtain ⟨⟨filled', bl'⟩, hbl, heq⟩ := exists_of_map hrun
  cases heq
  exact ⟨bl', hm ▸ hbl, ⟨h, hinv⟩, hset⟩

end

/-- **The loop over the leaves** fills in all pages, when it comes to all of them. -/
theorem Holds.fillRange (len : ℕ) : ∀ (b : ℕ) (bl : Blist) (F : Finset ℕ) (avail : ℤ),
    Holds bl n F → 32 ∣ b → (∀ x ∈ F, b ≤ x ∧ x < b + 32 * len) →
    ∃ bl', fillLoop (List.range' b len dmmax) bl avail = .ok (bl', avail - F.card) ∧
      Holds bl' n ∅ := by
  induction len with
  | zero =>
    intro b bl F avail hb _ hF
    obtain rfl : F = ∅ := eq_empty_of_forall_notMem fun x hx => by
      have := hF x hx
      omega
    refine ⟨bl, ?_, hb⟩
    rw [card_empty, cast_zero, Int.sub_zero]
    rfl
  | succ len ih =>
    intro b bl F avail hb hblk hF
    obtain ⟨bl1, hrun, hb1⟩ := hb.fillLeaf hblk fun x hx => (hF x hx).1
    obtain ⟨bl', hrest, hb'⟩ := ih (b + 32) bl1 _ (avail - ((F.filter (· < b + 32)).card : ℤ)) hb1
      (Nat.dvd_add hblk (Nat.dvd_refl 32)) fun x hx => by
        rw [mem_filter] at hx
        have := hF x hx.1
        omega
    refine ⟨bl', ?_, hb'⟩
    have hcard := card_filter_add_card_filter_not (s := F) (· < b + 32)
    rw [List.range'_succ, fillLoop, hrun]
    refine hrest.trans ?_
    congr 2
    omega

/-- **The loop of `swapoff_one`** leaves no free page. -/
theorem Holds.fillLoop (hb : Holds d.swBlist d.swNblks F) (hend : d.swNblks ≤ d.swEnd)
    (avail : ℤ) : ∃ bl', fillLoop (fillCalls d) d.swBlist avail = .ok (bl', avail - F.card) ∧
      Holds bl' d.swNblks ∅ := by
  refine Holds.fillRange _ 0 d.swBlist F avail hb (dvd_zero 32) fun x hx => ?_
  have := hb.lt hx
  rw [dmmax]
  omega

/-- The calls of `blist_fill` are made for the multiples of `dmmax` below `sw_end`. -/
theorem mem_fillCalls : b ∈ fillCalls d ↔ dmmax ∣ b ∧ b < d.swEnd := by
  rw [fillCalls, List.mem_range']
  constructor
  · rintro ⟨i, hi, rfl⟩
    rw [zero_add]
    refine ⟨dvd_mul_right _ _, ?_⟩
    rw [dmmax] at hi ⊢
    omega
  · rintro ⟨⟨i, rfl⟩, hlt⟩
    refine ⟨i, ?_, (zero_add _).symm⟩
    rw [dmmax] at hlt ⊢
    omega

/-! ## New devices -/

/-- A device of one or two pages has a bitmap of one leaf, in which only the hint is written. -/
theorem BlistInv.touch (hi : BlistInv bl n 0) {bitmap : BitVec 32}
    (hbitmap : bitmap = (bl.blRoot.node 0).bmuBitmap) :
    let bl' := { bl with blRoot := (bl.blRoot.setBitmap 0 bitmap).setBighint 0 blistBmapRadix }
    BlistInv bl' n 0 ∧ bl'.freeBlocks = bl.freeBlocks := by
  intro bl'
  have hnode : bl'.blRoot.node 0 = ⟨(bl.blRoot.node 0).bmuAvail, bitmap, blistBmapRadix⟩ := by
    rw [BlTree.node_setBighint, BlTree.node_setBitmap]
  have hfree : ∀ b, freeAt bl'.blRoot 0 0 b = freeAt bl.blRoot 0 0 b := by
    intro b
    rw [freeAt, freeAt, hnode, hbitmap]
  have hinv : BlistInv bl' n 0 := by
    refine ⟨hi.blocks, hi.radix, hi.skip, ⟨⟨hi.good.shape.1, ?_⟩, fun b hb => ?_⟩, ?_⟩
    · exact Int.natCast_nonneg _
    · exact (hfree b).trans (hi.good.live b hb)
    · rw [freeCount_congr fun b _ => hfree b]
      exact hi.count
  refine ⟨hinv, ?_⟩
  ext b
  rw [hinv.mem_iff, hi.mem_iff, hfree b]

theorem blistCreate_leaf (hn : n ≤ 32) {mem : BlTree} (hrun : blistCreate n mem = some bl) :
    bl.blRadix = blistBmapRadix := by
  have hloop : radixLoop n 31 blistBmapRadix 0 = some (blistBmapRadix, 0) := by
    rw [radixLoop, if_neg (by rw [blistBmapRadix]; omega)]
  rw [blistCreate, hloop] at hrun
  exact (Option.some.inj hrun) ▸ rfl

/-- **The bitmap of a new device.** -/
theorem exists_holds (hpos : 0 < n) (hn : n ≤ 2 ^ 26) (mem : BlTree) :
    ∃ bl bl', blistCreate n mem = some bl ∧ freeBehindLabel bl n = .ok bl' ∧
      Holds bl' n (Ico 2 n) := by
  obtain ⟨bl, h, hrun, hinv, -, hempty⟩ := blistCreate_spec hn mem
  have hleaf : n ≤ 32 → h = 0 := by
    intro hle
    have hradix := blistCreate_leaf hle hrun
    rw [hinv.radix] at hradix
    exact treeRadix_eq_iff.mp hradix
  match n, hpos with
  | 1, _ =>
    obtain rfl := hleaf (by decide)
    obtain ⟨htouch, hfree⟩ := BlistInv.touch hinv rfl
    have hmask : (BitVec.allOnes 32 <<< 2) &&& (BitVec.allOnes 32 >>> (blistBmapRadix + 1 - 2)) =
        0#32 := by decide
    refine ⟨bl, { bl with
      blRoot := (bl.blRoot.setBitmap 0 (bl.blRoot.node 0).bmuBitmap).setBighint 0 blistBmapRadix
      blFree := bl.blFree - 1 }, hrun, ?_, ⟨0, ?_⟩, hfree.trans hempty⟩
    · simp only [freeBehindLabel, hmask, BitVec.and_zero, BitVec.or_zero]
      rfl
    · rw [addFree, show bl.blFree - 1 + ((2 - 1 : ℕ) : ℤ) = bl.blFree by omega]
      exact htouch
  | 2, _ =>
    obtain rfl := hleaf (by decide)
    obtain ⟨htouch, hfree⟩ := BlistInv.touch hinv rfl
    have hmask : leafMask 2 0 = 0#32 := by decide
    refine ⟨bl, { bl with
      blRoot := (bl.blRoot.setBitmap 0 (bl.blRoot.node 0).bmuBitmap).setBighint 0 blistBmapRadix },
      hrun, ?_, ⟨0, ?_⟩, hfree.trans hempty⟩
    · rw [freeBehindLabel, blistFree, if_pos (blistCreate_leaf (by decide) hrun)]
      simp only [blstLeafFree, hmask, BitVec.and_zero, BitVec.or_zero, cast_zero, Int.add_zero]
      rfl
    · rw [addFree_zero]
      exact htouch
  | m + 3, _ =>
    obtain ⟨bl', hrun', hinv', hset, -⟩ := hinv.free (succ_pos m)
      (show 2 + (m + 1) ≤ m + 3 by omega) (by simp [hempty])
    refine ⟨bl, bl', hrun, by rw [freeBehindLabel, hrun'], ⟨h, ?_⟩, ?_⟩
    · rw [show 2 - (m + 3) = 0 by omega, addFree_zero]
      exact hinv'
    · rw [hset, hempty, empty_union]
      congr 1
      omega

end FreeBSDSys.Swap
