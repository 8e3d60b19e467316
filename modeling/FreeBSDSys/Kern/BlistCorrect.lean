import FreeBSDSys.Kern.BlistAlloc
import FreeBSDSys.Kern.BlistFree
import FreeBSDSys.Lib.Reachability

/-!
# A blist is a set of free blocks

`Blist.freeBlocks` is the set that a blist denotes.  A blist made by `blist_create` keeps the
invariant of its tree through every operation, so the operations do to the set what they should.

* `blist_refines`: the set after each operation, and that nothing panics.
* `blistAlloc_finds`: an allocation finds a run in a leaf, in runs where no free completes a meta
  node whose hint is low.  `blistAlloc_misses` is a run in which a free does, and the space is lost
  to larger allocations.
-/

namespace FreeBSDSys.Blst

open BlTree Finset Nat

/-! ## Creation -/

section Creation

variable {h : ℕ}

/-- `init` initializes subtrees of height `h`. -/
def InitSpec (h : ℕ) (init : BlTree → ℕ → ℕ → ℕ × BlTree) : Prop :=
  ∀ root scan cap, cap ≤ treeRadix h → Outside root (init root scan cap).2 h scan ∧
    Shape (init root scan cap).2 h scan cap ∧
    (h = 0 → ((init root scan cap).2.node scan).bmuBitmap = 0) ∧
    (h ≠ 0 → ((init root scan cap).2.node scan).bmuAvail = 0)

/-- The result of the loop over the subtrees from number `k` on. -/
structure InitPost (root root' : BlTree) (h scan cap k : ℕ) : Prop where
  node : root'.node scan = root.node scan
  outside : Outside root root' (h + 1) scan
  agree : ∀ j < k, Agree root root' h (kid h scan j)
  shape : ∀ i < 16, k ≤ i → i * treeRadix h < cap → Shape root' h (kid h scan i) (kidCap h cap i)
  term : ∀ i < 16, k ≤ i → cap ≤ i * treeRadix h → (∀ j < i, j * treeRadix h < cap) →
    (root'.node (kid h scan i)).bmBighint = -1

/-- A subtree is initialized, whole or in part, and the loop goes on. -/
theorem InitPost.cons {root root1 root' : BlTree} {scan cap k : ℕ} (hk : k < 16)
    (hlt : k * treeRadix h < cap) (hout : Outside root root1 h (kid h scan k))
    (hshape : Shape root1 h (kid h scan k) (kidCap h cap k))
    (hrest : InitPost root1 root' h scan cap (k + 1)) : InitPost root root' h scan cap k := by
  refine ⟨hrest.node.trans (hout.node hk), (hout.parent hk).trans hrest.outside, fun j hj => ?_,
    fun i hi hki hil => ?_, fun i hi hki hil hall => ?_⟩
  · intro x hx hx'
    rw [hrest.agree j (by omega) x hx hx', hout.agree (by omega) x hx hx']
  · rcases eq_or_lt_of_le hki with rfl | hki
    · exact shape_congr (hrest.agree k (lt_succ_self k)) hshape
    · exact hrest.shape i hi hki hil
  · have hne : k ≠ i := by
      rintro rfl
      omega
    exact hrest.term i hi (by omega) hil hall

theorem radixInitLoop_spec {sub : BlTree → ℕ → ℕ → ℕ × BlTree} (hsub : InitSpec h sub)
    (scan cap : ℕ) :
    ∀ (left k : ℕ) (root : BlTree) (memindex : ℕ), left + k = 16 →
      (∀ j < k, j * treeRadix h < cap) →
      InitPost root (radixInitLoop sub true scan (treeRadix h) (treeSkip h + 1) left k root
        (cap - k * treeRadix h) memindex).2 h scan cap k := by
  intro left
  induction left with
  | zero =>
    intro k root memindex hk _
    refine ⟨rfl, fun _ _ => rfl, fun _ _ _ _ _ => rfl, fun i hi hki => ?_, fun i hi hki => ?_⟩
    · omega
    · omega
  | succ left ih =>
    intro k root memindex hk hpresent
    have hk16 : k < 16 := by omega
    have hpos := le_treeRadix h
    have hidx : scan + (k * (treeSkip h + 1) + 1) = kid h scan k := rfl
    have hmul : (k + 1) * treeRadix h = k * treeRadix h + treeRadix h := succ_mul ..
    simp only [radixInitLoop, hidx]
    have hnext := fun hlt root memindex => ih (k + 1) root memindex (by omega)
      (forall_lt_succ_right.mpr ⟨hpresent, hlt⟩)
    split
    · have hcap : kidCap h cap k = treeRadix h := by
        rw [kidCap]
        omega
      obtain ⟨hout, hshape, -, -⟩ := hsub root (kid h scan k) (treeRadix h) le_rfl
      rw [hmul, ← Nat.sub_sub] at hnext
      exact (hnext (by omega) _ _).cons hk16 (by omega) hout (by rw [hcap]; exact hshape)
    · split
      · have hcap : kidCap h cap k = cap - k * treeRadix h := by
          rw [kidCap]
          omega
        obtain ⟨hout, hshape, -, -⟩ := hsub root (kid h scan k) (cap - k * treeRadix h) (by omega)
        rw [show cap - (k + 1) * treeRadix h = 0 by omega] at hnext
        exact (hnext (by omega) _ _).cons hk16 (by omega) hout (by rw [hcap]; exact hshape)
      · have hother : Besides root (root.setBighint (kid h scan k) (-1)) (kid h scan k) :=
          besides_set _
        have hbounds := kid_bounds h scan hk16
        refine ⟨hother scan (by omega), fun j hj => hother j (by omega), fun j hj x hx hx' => ?_,
          fun i hi hki hil => ?_, fun i hi hki hil hall => ?_⟩
        · have := kid_lt h scan hj
          exact hother x (by omega)
        · have : k * treeRadix h ≤ i * treeRadix h := mul_le_mul_right _ hki
          omega
        · rcases eq_or_lt_of_le hki with rfl | hki
          · simp only [if_true]
            rw [node_setBighint]
          · have := hall k hki
            omega

/-- **`blst_radix_init`** makes a tree of the right shape without free blocks. -/
theorem blstRadixInit_spec (h : ℕ) : InitSpec h fun root scan cap =>
    blstRadixInit true h root scan (treeRadix h) (treeSkip h) cap := by
  induction h with
  | zero =>
    intro root scan cap hcap
    have hrun : (blstRadixInit true 0 root scan (treeRadix 0) (treeSkip 0) cap).2 =
        (root.setBighint scan 0).setBitmap scan 0 := rfl
    have hnode : ((root.setBighint scan 0).setBitmap scan 0).node scan =
        { root.node scan with bmuBitmap := 0, bmBighint := 0 } := by
      rw [node_setBitmap, node_setBighint]
    simp only [hrun]
    refine ⟨((besides_set _).trans (besides_set _)).outside 0, ⟨hcap, ?_⟩, fun _ => ?_, absurd rfl⟩
    · rw [hnode]
    · rw [hnode]
  | succ h ih =>
    intro root scan cap hcap
    have hne : treeRadix (h + 1) ≠ blistBmapRadix := by
      have := le_treeRadix h
      rw [treeRadix_succ]
      show 16 * treeRadix h ≠ 32
      omega
    generalize hroot1 : (root.setBighint scan 0).setAvail scan 0 = root1
    have hother : Besides root root1 scan := hroot1 ▸ (besides_set _).trans (besides_set _)
    have hnode1 : root1.node scan = { root.node scan with bmuAvail := 0, bmBighint := 0 } := by
      rw [← hroot1, node_setAvail, node_setBighint]
    have hrun : (blstRadixInit true (h + 1) root scan (treeRadix (h + 1)) (treeSkip (h + 1)) cap).2 =
        (radixInitLoop (fun root i count =>
          blstRadixInit true h root i (treeRadix h) (treeSkip h) count) true scan (treeRadix h)
          (treeSkip h + 1) 16 0 root1 cap 0).2 := by
      rw [blstRadixInit, if_neg hne, ← hroot1]
      simp only [treeRadix_div, treeSkip_div]
      rfl
    obtain ⟨hnode, hout, -, hshape, hterm⟩ :=
      radixInitLoop_spec ih scan cap 16 0 root1 0 rfl (fun j hj => by omega)
    rw [Nat.zero_mul, Nat.sub_zero, ← hrun] at hnode hout hshape hterm
    refine ⟨(hother.outside _).trans hout, ⟨hcap, ?_, fun i hi => hshape i hi (zero_le _),
        fun i hi => hterm i hi (zero_le _)⟩,
      fun h0 => absurd h0 (succ_ne_zero h), fun _ => ?_⟩
    · rw [hnode, hnode1]
    · rw [hnode, hnode1]

theorem metaLevels_treeRadix (h : ℕ) : metaLevels (treeRadix h) = h := by
  rw [metaLevels, treeRadix, Nat.mul_div_cancel_left _ (by decide)]
  exact Nat.log_pow (by decide) h

/-- The loop of `blist_create` finds a height. -/
theorem radixLoop_spec {blocks : ℕ} (hb : blocks ≤ 2 ^ 26) (fuel : ℕ) :
    ∀ h, blocks ≤ treeRadix (h + fuel) →
      ∃ h', radixLoop blocks (fuel + 1) (treeRadix h) (treeSkip h) =
        some (treeRadix h', treeSkip h') ∧ blocks ≤ treeRadix h' := by
  induction fuel with
  | zero =>
    intro h hle
    rw [add_zero] at hle
    refine ⟨h, ?_, hle⟩
    rw [radixLoop, if_neg (not_lt.mpr hle)]
  | succ fuel ih =>
    intro h hle
    rw [radixLoop]
    split
    · have hsucc : treeRadix h * blistMetaRadix = treeRadix (h + 1) := by
        rw [treeRadix_succ, mul_comm, blistMetaRadix]
      have hsmall : treeRadix h * blistMetaRadix < 2 ^ 31 := by
        rw [blistMetaRadix]
        omega
      rw [if_pos hsmall, hsucc]
      exact ih (h + 1) (by rw [add_right_comm]; exact hle)
    · rename_i hge
      exact ⟨h, rfl, Nat.le_of_not_lt hge⟩

end Creation

/-! ## The set of free blocks -/

/-- The free blocks of a blist. -/
def Blist.freeBlocks (bl : Blist) : Finset ℕ :=
  (range bl.blBlocks).filter fun b => freeAt bl.blRoot (metaLevels bl.blRadix) 0 b = true

/-- The invariant of a blist: a good tree of some height, and the counter. -/
structure BlistInv (bl : Blist) (n h : ℕ) : Prop where
  blocks : bl.blBlocks = n
  radix : bl.blRadix = treeRadix h
  skip : bl.blSkip = treeSkip h
  good : Good bl.blRoot h 0 n
  count : bl.blFree = freeCount (freeAt bl.blRoot h 0) n

/-- The free does not complete a meta node below the root whose hint is low. -/
def Blist.HintSafe (bl : Blist) (blkno count : ℕ) : Prop :=
  FreeSafe bl.blRoot (metaLevels bl.blRadix) 0 blkno count

variable {bl bl' : Blist} {n h count blkno b : ℕ}

theorem BlistInv.mem_iff (hi : BlistInv bl n h) :
    b ∈ bl.freeBlocks ↔ b < n ∧ freeAt bl.blRoot h 0 b = true := by
  rw [Blist.freeBlocks, mem_filter, mem_range, hi.blocks, hi.radix, metaLevels_treeRadix]

theorem BlistInv.card (hi : BlistInv bl n h) : bl.blFree = bl.freeBlocks.card := by
  rw [hi.count, Blist.freeBlocks, hi.blocks, hi.radix, metaLevels_treeRadix, freeCount,
    count_eq_card_filter_range]

/-- A leaf is a tree of height 0. -/
theorem treeRadix_eq_iff : treeRadix h = blistBmapRadix ↔ h = 0 := by
  cases h with
  | zero => exact iff_of_true rfl rfl
  | succ h =>
    have := le_treeRadix h
    rw [treeRadix_succ]
    show 16 * treeRadix h = 32 ↔ _
    omega

/-- **`blist_create`.** -/
theorem blistCreate_spec (hn : n ≤ 2 ^ 26) (mem : BlTree) :
    ∃ bl h, blistCreate n mem = some bl ∧ BlistInv bl n h ∧ Hinted bl.blRoot h 0 n ∧
      bl.freeBlocks = ∅ := by
  obtain ⟨h, hrun, hle⟩ := radixLoop_spec hn 30 0 (hn.trans (by decide))
  change radixLoop n 31 blistBmapRadix 0 = _ at hrun
  obtain ⟨-, hshape, hleaf, hmeta⟩ := blstRadixInit_spec h mem 0 n hle
  obtain ⟨hgood, hnone⟩ := hshape.allocated hleaf hmeta
  rw [blistCreate, hrun]
  simp only [metaLevels_treeRadix]
  have hzero : freeCount (freeAt (blstRadixInit true h mem 0 (treeRadix h) (treeSkip h) n).2 h 0) n =
      0 := count_of_forall_not fun b _ => by
    rw [hnone b]
    exact Bool.false_ne_true
  have hinv : BlistInv ⟨n, treeRadix h, treeSkip h, 0,
      (blstRadixInit true h mem 0 (treeRadix h) (treeSkip h) n).2,
      1 + (blstRadixInit false h mem 0 (treeRadix h) (treeSkip h) n).1⟩ n h :=
    ⟨rfl, rfl, rfl, hgood, by rw [hzero]; rfl⟩
  refine ⟨_, h, rfl, hinv, hinted_of_collapsed fun hne => .inl (hmeta hne), ?_⟩
  refine eq_empty_of_forall_notMem fun b hb => ?_
  have hfree := (hinv.mem_iff.mp hb).2
  rw [hnone b] at hfree
  exact Bool.noConfusion hfree

section

variable (hi : BlistInv bl n h)

include hi

/-- A range of blocks is taken out. -/
theorem BlistInv.freeBlocks_clear (hi' : BlistInv bl' n h)
    (hnow : ∀ b < n, freeAt bl'.blRoot h 0 b = (freeAt bl.blRoot h 0 b && !inRange blkno count b)) :
    bl'.freeBlocks = bl.freeBlocks \ Ico blkno (blkno + count) := by
  ext b
  rw [hi'.mem_iff, mem_sdiff, hi.mem_iff, mem_Ico, and_assoc]
  refine and_congr_right fun hb => ?_
  rw [hnow b hb, Bool.and_eq_true, Bool.not_eq_true', Bool.eq_false_iff, Ne, inRange_iff]

/-- **`blist_alloc`.** -/
theorem BlistInv.alloc (h1 : 0 < count) (h32 : count ≤ blistMaxAlloc) :
    ∃ res bl', blistAlloc bl count = .ok (res, bl') ∧ BlistInv bl' n h ∧
      (∀ r, res = some r → Ico r (r + count) ⊆ bl.freeBlocks ∧
        bl'.freeBlocks = bl.freeBlocks \ Ico r (r + count)) ∧
      (res = none → bl'.freeBlocks = bl.freeBlocks) ∧
      (Hinted bl.blRoot h 0 n → Hinted bl'.blRoot h 0 n ∧
        (res = none → ¬ LeafRun (freeAt bl.blRoot h 0) n count)) := by
  obtain ⟨res, root', hrun, -, hpost, hhints⟩ := allocNode_spec h1 h32 h bl.blRoot 0 0 n hi.good
  have hcall : (if bl.blRadix = blistBmapRadix then .ok (blstLeafAlloc bl.blRoot 0 0 count)
      else blstMetaAlloc (metaLevels bl.blRadix) bl.blRoot 0 0 count bl.blRadix bl.blSkip) =
      .ok (res, root') := by
    rw [hi.radix, hi.skip, metaLevels_treeRadix, ← hrun]
    cases h with
    | zero => rfl
    | succ h =>
      rw [if_neg (mt treeRadix_eq_iff.mp (succ_ne_zero h))]
      rfl
  rw [blistAlloc, hcall]
  cases res with
  | none =>
    have hsame := hpost.failed rfl
    have hinv : BlistInv { bl with blRoot := root' } n h :=
      ⟨hi.blocks, hi.radix, hi.skip, hpost.good, by rw [freeCount_congr hsame]; exact hi.count⟩
    refine ⟨none, _, rfl, hinv, nofun, fun _ => ?_, fun hh => ⟨(hhints hh).hinted, ?_⟩⟩
    · ext b
      rw [hinv.mem_iff, hi.mem_iff]
      refine and_congr_right fun hb => ?_
      rw [hsame b hb]
    · exact fun _ => (hhints hh).complete rfl
  | some r =>
    obtain ⟨lo, hr, hlo, hwas, hnow⟩ := hpost.taken r rfl
    rw [zero_add] at hr
    subst hr
    have hcount := freeCount_take hlo hwas hnow
    have hinv : BlistInv { bl with blRoot := root', blFree := bl.blFree - count } n h := by
      refine ⟨hi.blocks, hi.radix, hi.skip, hpost.good, ?_⟩
      rw [hi.count, ← hcount]
      push_cast
      ring
    refine ⟨some r, _, rfl, hinv, fun r' hr' => ?_, nofun, fun hh => ⟨(hhints hh).hinted, nofun⟩⟩
    cases hr'
    refine ⟨fun b hb => ?_, hi.freeBlocks_clear hinv hnow⟩
    rw [mem_Ico] at hb
    exact hi.mem_iff.mpr ⟨by omega, hwas b (inRange_iff.mpr hb)⟩

/-- **`blist_free`.** -/
theorem BlistInv.free (h1 : 0 < count) (hn : blkno + count ≤ n)
    (halloc : ∀ b ∈ bl.freeBlocks, b ∉ Ico blkno (blkno + count)) :
    ∃ bl', blistFree bl blkno count = .ok bl' ∧ BlistInv bl' n h ∧
      bl'.freeBlocks = bl.freeBlocks ∪ Ico blkno (blkno + count) ∧
      (Hinted bl.blRoot h 0 n → bl.HintSafe blkno count → Hinted bl'.blRoot h 0 n) := by
  have halloc' : ∀ b, inRange blkno count b = true → freeAt bl.blRoot h 0 b = false := by
    intro b hb
    have hlt := inRange_iff.mp hb
    refine Bool.eq_false_iff.mpr fun ht => ?_
    exact halloc b (hi.mem_iff.mpr ⟨by omega, ht⟩) (mem_Ico.mpr hlt)
  obtain ⟨root', hrun, hpost⟩ :=
    freeNode_spec h bl.blRoot 0 0 n blkno count hi.good (dvd_zero 32) h1 hn halloc'
  rw [zero_add] at hrun
  have hcall : (if bl.blRadix = blistBmapRadix then blstLeafFree bl.blRoot 0 blkno count
      else blstMetaFree (metaLevels bl.blRadix) bl.blRoot 0 blkno count bl.blRadix bl.blSkip 0) =
      .ok root' := by
    rw [hi.radix, hi.skip, metaLevels_treeRadix, ← hrun]
    cases h with
    | zero => rfl
    | succ h =>
      rw [if_neg (mt treeRadix_eq_iff.mp (succ_ne_zero h))]
      rfl
  have hcount := freeCount_put hn halloc' hpost.free
  have hinv : BlistInv { bl with blRoot := root', blFree := bl.blFree + count } n h := by
    refine ⟨hi.blocks, hi.radix, hi.skip, hpost.good, ?_⟩
    rw [hi.count, hcount]
    rfl
  rw [blistFree, hcall]
  refine ⟨_, rfl, hinv, ?_, fun hh hsafe => hpost.hinted hh ?_⟩
  · ext b
    rw [hinv.mem_iff, mem_union, hi.mem_iff, mem_Ico]
    by_cases hb : b < n
    · rw [hpost.free b hb, Bool.or_eq_true, inRange_iff, and_iff_right hb, and_iff_right hb]
    · simp only [hb, false_and, false_or, false_iff]
      omega
  · rw [Blist.HintSafe, hi.radix, metaLevels_treeRadix] at hsafe
    exact hsafe

/-- `blist_fill` fills at the root. -/
theorem BlistInv.fill_call (blkno count : ℕ) :
    blistFill bl blkno count = match fillNode h bl.blRoot 0 blkno count 0 with
      | .error e => .error e
      | .ok (filled, root) =>
        .ok (filled, { bl with blRoot := root, blFree := bl.blFree - filled }) := by
  have hcall : (if bl.blRadix = blistBmapRadix then
        .ok (((blstLeafFill bl.blRoot 0 blkno count).1 : ℤ), (blstLeafFill bl.blRoot 0 blkno count).2)
      else blstMetaFill (metaLevels bl.blRadix) bl.blRoot 0 blkno count bl.blRadix bl.blSkip 0) =
      fillNode h bl.blRoot 0 blkno count 0 := by
    rw [hi.radix, hi.skip, metaLevels_treeRadix]
    cases h with
    | zero => rfl
    | succ h =>
      rw [if_neg (mt treeRadix_eq_iff.mp (succ_ne_zero h))]
      rfl
  rw [← hcall]
  rfl

/-- The blist whose tree has been filled. -/
theorem BlistInv.filled {root' : BlTree} {m : ℤ} (hn : blkno + count ≤ n)
    (hpost : FillPost bl.blRoot root' h 0 n blkno count m) :
    BlistInv { bl with blRoot := root', blFree := bl.blFree - m } n h ∧
      m = (bl.freeBlocks ∩ Ico blkno (blkno + count)).card ∧
      ({ bl with blRoot := root', blFree := bl.blFree - m } : Blist).freeBlocks =
        bl.freeBlocks \ Ico blkno (blkno + count) := by
  have hclear := freeCount_clear hn hpost.free
  have hinv : BlistInv { bl with blRoot := root', blFree := bl.blFree - m } n h := by
    refine ⟨hi.blocks, hi.radix, hi.skip, hpost.good, ?_⟩
    rw [hi.count, hpost.count, ← hclear]
    push_cast
    ring
  have hset : ({ bl with blRoot := root', blFree := bl.blFree - m } : Blist).freeBlocks =
      bl.freeBlocks \ Ico blkno (blkno + count) := hi.freeBlocks_clear hinv hpost.free
  refine ⟨hinv, ?_, hset⟩
  have hcard := card_sdiff_add_card_inter bl.freeBlocks (Ico blkno (blkno + count))
  have h1 : bl.blFree = bl.freeBlocks.card := hi.card
  have h2 : bl.blFree - m =
      (({ bl with blRoot := root', blFree := bl.blFree - m } : Blist).freeBlocks.card : ℤ) :=
    hinv.card
  rw [hset] at h2
  omega

/-- **`blist_fill`.** -/
theorem BlistInv.fill (h1 : 0 < count) (hn : blkno + count ≤ n) :
    (blkno % blistBmapRadix + count ≤ blistBmapRadix →
      ∃ filled bl', blistFill bl blkno count = .ok (filled, bl')) ∧
    ∀ filled bl', blistFill bl blkno count = .ok (filled, bl') → BlistInv bl' n h ∧
      filled = (bl.freeBlocks ∩ Ico blkno (blkno + count)).card ∧
      bl'.freeBlocks = bl.freeBlocks \ Ico blkno (blkno + count) ∧
      (Hinted bl.blRoot h 0 n → Hinted bl'.blRoot h 0 n) := by
  have hout := fillNode_spec h bl.blRoot 0 0 n blkno count hi.good (dvd_zero 32) h1 hn
  rw [zero_add] at hout
  rw [hi.fill_call]
  cases hrun : fillNode h bl.blRoot 0 blkno count 0 with
  | error e =>
    rw [hrun] at hout
    change blistBmapRadix < _ at hout
    exact ⟨fun hleaf => by omega, nofun⟩
  | ok r =>
    obtain ⟨m, root'⟩ := r
    rw [hrun] at hout
    have hpost : FillPost bl.blRoot root' h 0 n blkno count m := hout
    refine ⟨fun _ => ⟨m, _, rfl⟩, fun filled bl' heq => ?_⟩
    cases heq
    obtain ⟨hinv, hcard, hset⟩ := hi.filled hn hpost
    exact ⟨hinv, hcard, hset, hpost.hinted⟩

end

/-! ## Runs -/

/-- The operations on a blist.  Callers free allocated ranges only, and only if `mayFree` allows
it; an operation that panics has no successor. -/
inductive BlStep (mayFree : Blist → ℕ → ℕ → Prop) : Blist → Blist → Prop
  | alloc (bl bl' : Blist) (count : ℕ) (res : Option ℕ) (h1 : 0 < count)
      (h32 : count ≤ blistMaxAlloc) (hrun : blistAlloc bl count = .ok (res, bl')) :
      BlStep mayFree bl bl'
  | free (bl bl' : Blist) (blkno count : ℕ) (h1 : 0 < count) (hn : blkno + count ≤ bl.blBlocks)
      (halloc : ∀ b ∈ bl.freeBlocks, b ∉ Ico blkno (blkno + count))
      (hmay : mayFree bl blkno count) (hrun : blistFree bl blkno count = .ok bl') :
      BlStep mayFree bl bl'
  | fill (bl bl' : Blist) (blkno count : ℕ) (filled : ℤ) (h1 : 0 < count)
      (hn : blkno + count ≤ bl.blBlocks) (hrun : blistFill bl blkno count = .ok (filled, bl')) :
      BlStep mayFree bl bl'

variable {mayFree : Blist → ℕ → ℕ → Prop}

/-- **Every step keeps the invariant**, and the hints if every free is safe. -/
theorem BlStep.inv (hs : BlStep mayFree bl bl') (hi : BlistInv bl n h) : BlistInv bl' n h ∧
    ((∀ bl b c, mayFree bl b c → bl.HintSafe b c) → Hinted bl.blRoot h 0 n →
      Hinted bl'.blRoot h 0 n) := by
  cases hs with
  | alloc count res h1 h32 hrun =>
    obtain ⟨res', bl'', hrun', hinv, -, -, hhint⟩ := hi.alloc h1 h32
    rw [hrun'] at hrun
    cases hrun
    exact ⟨hinv, fun _ hh => (hhint hh).1⟩
  | free blkno count h1 hn halloc hmay hrun =>
    rw [hi.blocks] at hn
    obtain ⟨bl'', hrun', hinv, -, hhint⟩ := hi.free h1 hn halloc
    rw [hrun'] at hrun
    cases hrun
    exact ⟨hinv, fun hsafe hh => hhint hh (hsafe bl blkno count hmay)⟩
  | fill blkno count filled h1 hn hrun =>
    rw [hi.blocks] at hn
    obtain ⟨hinv, -, -, hhint⟩ := (hi.fill h1 hn).2 filled bl' hrun
    exact ⟨hinv, fun _ => hhint⟩

/-- **A blist implements a set of free blocks.**  For every size that the swap pager passes, and in
every state that the operations reach: `bl_free` is the size of the set, an allocation takes a free
range out or changes nothing, a free puts its range in, a fill of blocks of one leaf takes them out
and returns how many were free; and none of them panics. -/
theorem blist_refines (hn : n ≤ 2 ^ 26) (mem : BlTree) :
    ∃ bl₀, blistCreate n mem = some bl₀ ∧ bl₀.freeBlocks = ∅ ∧
      ∀ bl, Reachable (· = bl₀) (BlStep fun _ _ _ => True) bl →
        bl.blFree = bl.freeBlocks.card ∧ bl.freeBlocks ⊆ range n ∧
        (∀ count, 0 < count → count ≤ blistMaxAlloc →
          ∃ res bl', blistAlloc bl count = .ok (res, bl') ∧
            match res with
            | some r => Ico r (r + count) ⊆ bl.freeBlocks ∧
              bl'.freeBlocks = bl.freeBlocks \ Ico r (r + count)
            | none => bl'.freeBlocks = bl.freeBlocks) ∧
        (∀ blkno count, 0 < count → blkno + count ≤ n →
          (∀ b ∈ bl.freeBlocks, b ∉ Ico blkno (blkno + count)) →
          ∃ bl', blistFree bl blkno count = .ok bl' ∧
            bl'.freeBlocks = bl.freeBlocks ∪ Ico blkno (blkno + count)) ∧
        (∀ blkno count, 0 < count → blkno + count ≤ n →
          blkno % blistBmapRadix + count ≤ blistBmapRadix →
          ∃ bl', blistFill bl blkno count =
              .ok (((bl.freeBlocks ∩ Ico blkno (blkno + count)).card : ℤ), bl') ∧
            bl'.freeBlocks = bl.freeBlocks \ Ico blkno (blkno + count)) := by
  obtain ⟨bl₀, h, hrun, hinv0, -, hempty⟩ := blistCreate_spec hn mem
  refine ⟨bl₀, hrun, hempty, fun bl hreach => ?_⟩
  have hi : BlistInv bl n h := by
    refine Reachable.invariant (I := fun bl => BlistInv bl n h) ?_ (fun s s' hs hstep => ?_) hreach
    · rintro s rfl
      exact hinv0
    · exact (hstep.inv hs).1
  refine ⟨hi.card, fun b hb => mem_range.mpr (hi.mem_iff.mp hb).1, ?_, ?_, ?_⟩
  · intro count h1 h32
    obtain ⟨res, bl', hrun', -, hsome, hnone, -⟩ := hi.alloc h1 h32
    refine ⟨res, bl', hrun', ?_⟩
    cases res with
    | some r => exact hsome r rfl
    | none => exact hnone rfl
  · intro blkno count h1 hle halloc
    obtain ⟨bl', hrun', -, hset, -⟩ := hi.free h1 hle halloc
    exact ⟨bl', hrun', hset⟩
  · intro blkno count h1 hle hleaf
    obtain ⟨hok, hpost⟩ := hi.fill h1 hle
    obtain ⟨filled, bl', hrun'⟩ := hok hleaf
    obtain ⟨-, hfilled, hset, -⟩ := hpost filled bl' hrun'
    exact ⟨bl', hfilled ▸ hrun', hset⟩

/-- Memory of zeros. -/
def zeroMem : BlTree := ⟨fun _ => ⟨0, 0, 0⟩⟩

theorem blist_refines_two_subtrees :
    ∃ bl₀, blistCreate 1024 zeroMem = some bl₀ ∧ bl₀.freeBlocks = ∅ := by
  obtain ⟨bl₀, hrun, hempty, -⟩ := blist_refines (n := 1024) (by decide) zeroMem
  exact ⟨bl₀, hrun, hempty⟩

/-- **Allocations find runs**, in every run whose frees are safe: if some leaf has `count` free
blocks in a row, `blist_alloc` returns some. -/
theorem blistAlloc_finds (hn : n ≤ 2 ^ 26) {mem : BlTree} {bl₀ : Blist}
    (hcreate : blistCreate n mem = some bl₀)
    (hreach : Reachable (· = bl₀) (BlStep Blist.HintSafe) bl) (h1 : 0 < count)
    (h32 : count ≤ blistMaxAlloc) {a : ℕ} (hleaf : a % blistBmapRadix + count ≤ blistBmapRadix)
    (hfree : Ico a (a + count) ⊆ bl.freeBlocks) :
    ∃ r bl', blistAlloc bl count = .ok (some r, bl') := by
  obtain ⟨bl₁, h, hrun, hinv0, hhint0, -⟩ := blistCreate_spec hn mem
  rw [hcreate] at hrun
  cases hrun
  have hi : BlistInv bl n h ∧ Hinted bl.blRoot h 0 n := by
    refine Reachable.invariant (I := fun bl => BlistInv bl n h ∧ Hinted bl.blRoot h 0 n) ?_
      (fun s s' hs hstep => ?_) hreach
    · rintro s rfl
      exact ⟨hinv0, hhint0⟩
    · exact (hstep.inv hs.1).imp_right fun hhint => hhint (fun _ _ _ => id) hs.2
  obtain ⟨res, bl', hrun', -, -, -, hhint⟩ := hi.1.alloc h1 h32
  cases res with
  | some r => exact ⟨r, bl', hrun'⟩
  | none =>
    refine absurd ⟨a, hleaf, fun j hj => ?_⟩ ((hhint hi.2).2 rfl)
    exact hi.1.mem_iff.mp (hfree (mem_Ico.mpr (by omega)))

section Examples

/-- The result of an operation that does not panic. -/
def unwrap {α : Type} (d : α) : Except BlPanic α → α
  | .ok a => a
  | .error _ => d

theorem eq_ok_unwrap {α : Type} {d : α} {e : Except BlPanic α} (he : e.isOk = true) :
    e = .ok (unwrap d e) := by
  cases e with
  | ok a => rfl
  | error e => cases he

/-- A new blist of two subtrees with 512 blocks each. -/
def twoSubtrees : Blist := (blistCreate 1024 zeroMem).getD ⟨0, 0, 0, 0, zeroMem, 0⟩

theorem twoSubtrees_eq : blistCreate 1024 zeroMem = some twoSubtrees := by
  rfl

theorem twoSubtrees_reachable {mayFree : Blist → ℕ → ℕ → Prop} :
    Reachable (· = twoSubtrees) (BlStep mayFree) twoSubtrees := Reachable.of_init rfl

/-- The first subtree is freed at once, and then found. -/
theorem blistAlloc_finds_subtree : let bl := unwrap twoSubtrees (blistFree twoSubtrees 0 512)
    Ico 0 2 ⊆ bl.freeBlocks ∧ ∃ r bl', blistAlloc bl 2 = .ok (some r, bl') := by
  intro bl
  have hstep : BlStep Blist.HintSafe twoSubtrees bl :=
    BlStep.free _ _ 0 512 (by decide) (by decide) (by decide +kernel) (absurd rfl)
      (eq_ok_unwrap (by decide +kernel))
  have hfree : Ico 0 2 ⊆ bl.freeBlocks := by decide +kernel
  exact ⟨hfree, blistAlloc_finds (by decide) twoSubtrees_eq
    (twoSubtrees_reachable.tail hstep) (by decide) (by decide) (by decide) hfree⟩

/-- Block 511 is freed alone. -/
def lastBlockFree : Blist := unwrap twoSubtrees (blistFree twoSubtrees 511 1)

/-- An allocation of two blocks fails, which lowers the hint of the first subtree to 1. -/
def hintLowered : Blist := (unwrap (none, lastBlockFree) (blistAlloc lastBlockFree 2)).2

/-- The blocks before are freed: the subtree is ALL-FREE, and its hint is still 1. -/
def lowHint : Blist := unwrap hintLowered (blistFree hintLowered 0 511)

/-- There are 512 free blocks in a row, and an allocation of two blocks fails. -/
theorem blistAlloc_misses : ∃ bl, Reachable (· = twoSubtrees) (BlStep fun _ _ _ => True) bl ∧
      Ico 0 2 ⊆ bl.freeBlocks ∧ ∃ bl', blistAlloc bl 2 = .ok (none, bl') := by
  have h1 : BlStep (fun _ _ _ => True) twoSubtrees lastBlockFree :=
    BlStep.free _ _ 511 1 (by decide) (by decide +kernel) (by decide +kernel) trivial
      (eq_ok_unwrap (by decide +kernel))
  have hok2 : blistAlloc lastBlockFree 2 =
      .ok (unwrap (none, lastBlockFree) (blistAlloc lastBlockFree 2)) :=
    eq_ok_unwrap (by decide +kernel)
  have h2 : BlStep (fun _ _ _ => True) lastBlockFree hintLowered :=
    BlStep.alloc _ _ 2 (unwrap (none, lastBlockFree) (blistAlloc lastBlockFree 2)).1 (by decide)
      (by decide) hok2
  have h3 : BlStep (fun _ _ _ => True) hintLowered lowHint :=
    BlStep.free _ _ 0 511 (by decide) (by decide +kernel) (by decide +kernel) trivial
      (eq_ok_unwrap (by decide +kernel))
  have hok : blistAlloc lowHint 2 = .ok (unwrap (none, lowHint) (blistAlloc lowHint 2)) :=
    eq_ok_unwrap (by decide +kernel)
  have hnone : (unwrap (none, lowHint) (blistAlloc lowHint 2)).1 = none := by decide +kernel
  exact ⟨lowHint, ((twoSubtrees_reachable.tail h1).tail h2).tail h3, by decide +kernel, _,
    hok.trans (congrArg _ (Prod.ext hnone rfl))⟩

end Examples

end FreeBSDSys.Blst
