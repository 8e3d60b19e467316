import FreeBSDSys.Ufs.DirhashSlots

/-!
# Free space of a hashed directory

For each block the table has the number of free words; for each class of such numbers it has the
first block of the class.  When the number of a block changes, the block leaves one class and joins
another: if it was the first of the old class the next one is searched for, and it is the first of
the new class if it comes before the present one.

* `isFirst_moveClass`: the first blocks after a change.
* `FreeOk.adjfree`: the change of a number.
* `FreeOk.newblk`, `FreeOk.dirtrunc`: the directory grows and shrinks.
-/

namespace FreeBSDSys.Dirhash

open Function Nat

variable {dh : Table} {blkfree : ℕ → ℕ} {n i block b k : ℕ} {x : ℤ} {P Q : ℕ → Prop} {used : ℕ → ℕ}

/-! ## The first block of a class -/

/-- The first of `n` numbers with a property, or -1. -/
def IsFirst (P : ℕ → Prop) (n : ℕ) (x : ℤ) : Prop :=
  (x = -1 ∧ ∀ b < n, ¬ P b) ∨ ∃ b < n, x = b ∧ P b ∧ ∀ c < b, ¬ P c

theorem IsFirst.congr (h : IsFirst P n x) (hiff : ∀ b < n, P b ↔ Q b) : IsFirst Q n x := by
  rcases h with ⟨hx, hno⟩ | ⟨b, hb, hx, hPb, hno⟩
  · exact .inl ⟨hx, fun c hc => mt (hiff c hc).mpr (hno c hc)⟩
  · exact .inr ⟨b, hb, hx, (hiff b hb).mp hPb, fun c hc =>
      mt (hiff c (hc.trans hb)).mpr (hno c hc)⟩

/-- A number with the property is not before the first. -/
theorem IsFirst.le (h : IsFirst P n x) (hb : b < n) (hPb : P b) :
    ∃ c ≤ b, x = c ∧ P c ∧ ∀ a < c, ¬ P a := by
  rcases h with ⟨-, hno⟩ | ⟨c, -, hx, hPc, hno⟩
  · exact absurd hPb (hno b hb)
  · exact ⟨c, not_lt.mp fun hlt => hno b hlt hPb, hx, hPc, hno⟩

theorem nextInClass_spec (blkfree : ℕ → ℕ) (idx n i : ℕ) (hno : ∀ c < i,
    blkfree2idx (blkfree c) ≠ idx) :
    IsFirst (fun b => blkfree2idx (blkfree b) = idx) (i + n) (nextInClass blkfree idx n i) := by
  induction n generalizing i with
  | zero => exact .inl ⟨rfl, hno⟩
  | succ n ih =>
    unfold nextInClass
    split_ifs with hclass
    · exact .inr ⟨i, by omega, rfl, hclass, hno⟩
    · rw [show i + (n + 1) = i + 1 + n by omega]
      exact ih (i + 1) (forall_lt_succ_right.mpr ⟨hno, hclass⟩)

/-- A number that is not the first loses the property. -/
theorem IsFirst.leave (h : IsFirst P n x) (hx : x ≠ block) (hiff : ∀ b, b ≠ block → (P b ↔ Q b))
    (hQ : ¬ Q block) : IsFirst Q n x := by
  have hno : ∀ b, ¬ P b → ¬ Q b := by
    intro b hb
    rcases eq_or_ne b block with rfl | hne
    · exact hQ
    · exact mt (hiff b hne).mpr hb
  rcases h with ⟨hx', hnone⟩ | ⟨b, hb, rfl, hPb, hfirst⟩
  · exact .inl ⟨hx', fun c hc => hno c (hnone c hc)⟩
  · have hne : b ≠ block := fun heq => hx (congrArg Nat.cast heq)
    exact .inr ⟨b, hb, rfl, (hiff b hne).mp hPb, fun c hc => hno c (hfirst c hc)⟩

/-- A number gets the property. -/
theorem IsFirst.join (h : IsFirst P n x) (hblock : block < n) (hP : ¬ P block) (hQ : Q block)
    (hiff : ∀ b, b ≠ block → (P b ↔ Q b)) :
    IsFirst Q n (if x > block ∨ x = -1 then block else x) := by
  split_ifs with hearly
  · refine .inr ⟨block, hblock, rfl, hQ, fun c hc => mt (hiff c hc.ne).mpr ?_⟩
    rcases h with ⟨-, hnone⟩ | ⟨b, -, rfl, -, hfirst⟩
    · exact hnone c (hc.trans hblock)
    · exact hfirst c (by omega)
  · rcases h with ⟨hx, -⟩ | ⟨b, hb, rfl, hPb, hfirst⟩
    · exact absurd (.inr hx) hearly
    · have hne : b ≠ block := by
        rintro rfl
        exact hP hPb
      exact .inr ⟨b, hb, rfl, (hiff b hne).mp hPb,
        fun c hc => mt (hiff c (by omega)).mpr (hfirst c hc)⟩

section MoveClass

variable {ofidx nfidx : ℕ}

theorem moveClass_old (dh : Table) (block : ℕ) (hne : ofidx ≠ nfidx) :
    moveClass dh block ofidx nfidx ofidx = if dh.firstfree ofidx = block then
      nextInClass dh.blkfree ofidx (dh.dirblks - (block + 1)) (block + 1)
      else dh.firstfree ofidx := by
  unfold moveClass
  split <;> split <;> simp [hne]

theorem moveClass_new (dh : Table) (block : ℕ) (hne : ofidx ≠ nfidx) :
    moveClass dh block ofidx nfidx nfidx =
      if dh.firstfree nfidx > block ∨ dh.firstfree nfidx = -1 then (block : ℤ)
      else dh.firstfree nfidx := by
  have hsame : (if dh.firstfree ofidx = block then update dh.firstfree ofidx
      (nextInClass dh.blkfree ofidx (dh.dirblks - (block + 1)) (block + 1))
      else dh.firstfree) nfidx = dh.firstfree nfidx := by
    split
    · exact update_of_ne hne.symm _ _
    · rfl
  unfold moveClass
  rw [hsame]
  split
  · exact update_self _ _ _
  · exact hsame

theorem moveClass_other (dh : Table) (block : ℕ) (hof : i ≠ ofidx) (hnf : i ≠ nfidx) :
    moveClass dh block ofidx nfidx i = dh.firstfree i := by
  unfold moveClass
  split <;> split <;> simp [hof, hnf]

/-- **The first blocks** after a block has changed its class. -/
theorem isFirst_moveClass (hblock : block < dh.dirblks)
    (hof : blkfree2idx (blkfree block) = ofidx) (hnf : blkfree2idx (dh.blkfree block) = nfidx)
    (hne : ofidx ≠ nfidx) (hoff : ∀ b, b ≠ block → dh.blkfree b = blkfree b)
    (hfirst : IsFirst (fun b => blkfree2idx (blkfree b) = i) dh.dirblks (dh.firstfree i)) :
    IsFirst (fun b => blkfree2idx (dh.blkfree b) = i) dh.dirblks
      (moveClass dh block ofidx nfidx i) := by
  have hiff : ∀ b, b ≠ block → (blkfree2idx (blkfree b) = i ↔ blkfree2idx (dh.blkfree b) = i) := by
    intro b hb
    rw [hoff b hb]
  rcases eq_or_ne i ofidx with rfl | hi
  · rw [moveClass_old dh block hne]
    split
    · -- the first block has left: the others before it were not in the class
      rename_i hblk
      obtain ⟨c, -, hc, -, hno⟩ := hfirst.le hblock hof
      obtain rfl : c = block := Int.ofNat.inj (hc.symm.trans hblk)
      have hnext := nextInClass_spec dh.blkfree i (dh.dirblks - (c + 1)) (c + 1) ?_
      · rwa [show c + 1 + (dh.dirblks - (c + 1)) = dh.dirblks by omega] at hnext
      · intro a ha
        rcases Nat.lt_succ_iff_lt_or_eq.mp ha with hlt | rfl
        · exact mt (hiff a hlt.ne).mpr (hno a hlt)
        · exact fun h => hne (h.symm.trans hnf)
    · rename_i hblk
      exact hfirst.leave hblk hiff fun h => hne (h.symm.trans hnf)
  · rcases eq_or_ne i nfidx with rfl | hi'
    · rw [moveClass_new dh block hne]
      exact hfirst.join hblock (fun h => hne (hof.symm.trans h)) hnf hiff
    · rw [moveClass_other dh block hi hi']
      refine hfirst.congr fun b _ => ?_
      rcases eq_or_ne b block with rfl | hb
      · exact iff_of_false (fun h => hi (h.symm.trans hof)) fun h => hi' (h.symm.trans hnf)
      · exact hiff b hb

end MoveClass

/-! ## The numbers of free words -/

/-- The free space of a table, for blocks with so many bytes in use. -/
structure FreeOk (used : ℕ → ℕ) (dh : Table) : Prop where
  blocks : dh.dirblks ≤ dh.nblk
  free : ∀ b < dh.dirblks, dh.blkfree b * diralign + used b = dirblksiz
  first : ∀ i ≤ dhNfstats,
    IsFirst (fun b => blkfree2idx (dh.blkfree b) = i) dh.dirblks (dh.firstfree i)

theorem blkfree2idx_le (n : ℕ) : blkfree2idx n ≤ dhNfstats := by
  unfold blkfree2idx
  split <;> omega

/-- **The number of a block changes.** -/
theorem FreeOk.adjfree {offset blk : ℕ} {diff : ℤ} (hf : FreeOk used dh) (used' : ℕ → ℕ)
    (hblk : offset / dirblksiz = blk) (hblock : blk < dh.dirblks) (hdiff : (diralign : ℤ) ∣ diff)
    (hused : (used' blk : ℤ) = used blk - diff) (hfits : used' blk ≤ dirblksiz)
    (hother : ∀ b, b ≠ blk → used' b = used b) :
    ∃ blkfree firstfree, ufsdirhashAdjfree dh offset diff =
        some { dh with blkfree := blkfree, firstfree := firstfree } ∧
      FreeOk used' { dh with blkfree := blkfree, firstfree := firstfree } := by
  obtain ⟨k, rfl⟩ := hdiff
  have hdiv : (diralign * k).tdiv diralign = k := Int.mul_tdiv_cancel_left _ (by decide)
  have hold := hf.free _ hblock
  have hfree : ((dh.blkfree blk : ℤ) + k).toNat * diralign + used' blk = dirblksiz ∧
      (((dh.blkfree blk : ℤ) + k) % 256).toNat = ((dh.blkfree blk : ℤ) + k).toNat := by
    simp only [diralign, dirblksiz] at hold hused hfits ⊢
    omega
  have hnew : ∀ b < dh.dirblks, update dh.blkfree blk
      (((dh.blkfree blk : ℤ) + k).toNat) b * diralign + used' b = dirblksiz := by
    intro b hb
    rcases eq_or_ne b blk with rfl | hne
    · rw [update_self]
      exact hfree.1
    · rw [update_of_ne hne, hother b hne]
      exact hf.free b hb
  unfold ufsdirhashAdjfree
  simp only [hblk]
  rw [if_pos ⟨hblock.trans_le hf.blocks, hblock⟩, hdiv, hfree.2]
  split_ifs with hclass
  · refine ⟨_, _, rfl, hf.blocks, hnew, fun i hi => ?_⟩
    exact isFirst_moveClass hblock rfl (congrArg blkfree2idx (update_self _ _ _)) hclass
      (fun b hb => update_of_ne hb _ _) (hf.first i hi)
  · refine ⟨_, dh.firstfree, rfl, hf.blocks, hnew, fun i hi => (hf.first i hi).congr fun b _ => ?_⟩
    change _ ↔ blkfree2idx (update dh.blkfree _ _ b) = i
    rcases eq_or_ne b blk with rfl | hne
    · rw [update_self, ← not_not.mp hclass]
    · rw [update_of_ne hne]

/-! ## The directory grows and shrinks -/

theorem IsFirst.extend (h : IsFirst P n x) (hn : ¬ P n) : IsFirst P (n + 1) x := by
  rcases h with ⟨hx, hno⟩ | ⟨b, hb, hx, hPb, hno⟩
  · exact .inl ⟨hx, forall_lt_succ_right.mpr ⟨hno, hn⟩⟩
  · exact .inr ⟨b, hb.trans (lt_succ_self n), hx, hPb, hno⟩

theorem IsFirst.extend_new (h : IsFirst P n x) (hn : P n) :
    IsFirst P (n + 1) (if x = -1 then n else x) := by
  rcases h with ⟨rfl, hno⟩ | ⟨b, hb, rfl, hPb, hno⟩
  · exact .inr ⟨n, lt_succ_self n, rfl, hn, hno⟩
  · exact .inr ⟨b, hb.trans (lt_succ_self n), rfl, hPb, hno⟩

theorem IsFirst.shrink (h : IsFirst P n x) (hk : k ≤ n) :
    IsFirst P k (if x ≥ k then -1 else x) := by
  rcases h with ⟨rfl, hno⟩ | ⟨b, hb, rfl, hPb, hno⟩
  · rw [if_neg (by omega)]
    exact .inl ⟨rfl, fun b hb => hno b (hb.trans_le hk)⟩
  · split
    · exact .inl ⟨rfl, fun c hc => hno c (by omega)⟩
    · exact .inr ⟨b, by omega, rfl, hPb, hno⟩

theorem blkfree2idx_free : blkfree2idx (dirblksiz / diralign) = dhNfstats := rfl

/-- A block without entries is completely free. -/
theorem FreeOk.blkfree_of_unused (hf : FreeOk used dh) (hb : b < dh.dirblks)
    (hunused : used b = 0) : dh.blkfree b = dirblksiz / diralign := by
  have hfree := hf.free b hb
  simp only [diralign] at hfree ⊢
  omega

/-- **A new block.** -/
theorem FreeOk.newblk (hf : FreeOk used dh) (hunused : used dh.dirblks = 0) :
    ∃ r, ufsdirhashNewblk dh (dh.dirblks * dirblksiz) = some r ∧ ∀ dh', r = some dh' →
      ∃ blkfree firstfree, dh' = { dh with
        dirblks := dh.dirblks + 1, blkfree := blkfree, firstfree := firstfree } ∧
        FreeOk used dh' := by
  have hdiv : dh.dirblks * dirblksiz / dirblksiz = dh.dirblks := Nat.mul_div_cancel _ (by decide)
  unfold ufsdirhashNewblk
  rw [if_pos rfl, hdiv]
  simp only
  split
  · exact ⟨none, rfl, nofun⟩
  · rename_i hroom
    refine ⟨_, rfl, ?_⟩
    rintro dh' ⟨⟩
    refine ⟨_, _, rfl, not_le.mp hroom, fun b hb => ?_, fun i hi => ?_⟩
    · change update dh.blkfree _ _ b * diralign + used b = dirblksiz
      rcases Nat.lt_succ_iff_lt_or_eq.mp hb with hlt | rfl
      · rw [update_of_ne hlt.ne]
        exact hf.free b hlt
      · rw [update_self, hunused]
        rfl
    · -- the new block is in the last class
      have hold : IsFirst (fun b => blkfree2idx (update dh.blkfree dh.dirblks
          (dirblksiz / diralign) b) = i) dh.dirblks (dh.firstfree i) := by
        refine (hf.first i hi).congr fun b hb => ?_
        rw [update_of_ne hb.ne]
      rcases eq_or_ne i dhNfstats with rfl | hne
      · have hnew := hold.extend_new (by rw [update_self, blkfree2idx_free])
        split_ifs with hnone
        · rwa [if_pos hnone] at hnew
        · rwa [if_neg hnone] at hnew
      · have hsame : (if dh.firstfree dhNfstats = -1 then
            update dh.firstfree dhNfstats dh.dirblks else dh.firstfree) i =
            dh.firstfree i := by
          split
          · exact update_of_ne hne _ _
          · rfl
        dsimp only
        rw [hsame]
        refine hold.extend ?_
        rw [update_self]
        exact hne.symm

/-- **Blocks without entries are cut off.** -/
theorem FreeOk.dirtrunc (hf : FreeOk used dh) (hk : k ≤ dh.dirblks)
    (hunused : ∀ b, k ≤ b → used b = 0) :
    ∃ r, ufsdirhashDirtrunc dh (k * dirblksiz) = some r ∧ ∀ dh', r = some dh' →
      ∃ firstfree, dh' = { dh with firstfree := firstfree, dirblks := k } ∧ FreeOk used dh' := by
  have hmany : howmany (k * dirblksiz) dirblksiz = k := by
    simp only [howmany, dirblksiz]
    omega
  have hlast : ∀ b, k ≤ b → b < dh.dirblks → blkfree2idx (dh.blkfree b) = dhNfstats := by
    intro b hkb hb
    rw [hf.blkfree_of_unused hb (hunused b hkb), blkfree2idx_free]
  -- the other classes have no block from `k` on
  have hother : ∀ i < dhNfstats, dh.firstfree i < k := by
    intro i hi
    rcases hf.first i hi.le with ⟨hx, -⟩ | ⟨b, hb, hx, hclass, -⟩
    · omega
    · by_contra hge
      exact hi.ne (hclass.symm.trans (hlast b (by omega) hb))
  have hsame : ∀ i < dhNfstats, (if dh.firstfree dhNfstats ≥ k then
      update dh.firstfree dhNfstats (-1) else dh.firstfree) i = dh.firstfree i := by
    intro i hi
    split
    · exact update_of_ne hi.ne _ _
    · rfl
  unfold ufsdirhashDirtrunc
  rw [if_pos (mul_le_mul_right _ hk), hmany]
  simp only
  split
  · exact ⟨none, rfl, nofun⟩
  · rw [if_neg, if_neg]
    · refine ⟨_, rfl, ?_⟩
      rintro dh' ⟨⟩
      refine ⟨_, rfl, hk.trans hf.blocks, fun b hb => hf.free b (hb.trans_le hk), fun i hi => ?_⟩
      have hshrink := (hf.first i hi).shrink hk
      rcases eq_or_ne i dhNfstats with rfl | hne
      · split_ifs with hge
        · rwa [if_pos hge, ← update_self dhNfstats (-1 : ℤ) dh.firstfree] at hshrink
        · rwa [if_neg hge] at hshrink
      · have hlt := lt_of_le_of_ne hi hne
        dsimp only
        rw [hsame i hlt]
        rwa [if_neg (not_le.mpr (hother i hlt))] at hshrink
    · rintro ⟨i, hi, hge⟩
      rw [hsame i (List.mem_range.mp hi)] at hge
      exact absurd (hother i (List.mem_range.mp hi)) (not_lt.mpr hge)
    · rintro ⟨i, hi, hge, hfree⟩
      exact hfree (hf.blkfree_of_unused (List.mem_range.mp hi) (hunused i hge))

/-- The table of a directory before its entries are met. -/
theorem freeOk_emptyTable (addr : ℕ) (hn : 0 < n) :
    FreeOk (fun _ => 0) (emptyTable addr (n * dirblksiz)) ∧
      (emptyTable addr (n * dirblksiz)).dirblks = n := by
  have hmany : howmany (n * dirblksiz) dirblksiz = n := by
    simp only [howmany, dirblksiz]
    omega
  have hblks : (emptyTable addr (n * dirblksiz)).dirblks = n := hmany
  refine ⟨⟨?_, fun _ _ => rfl, fun i hi => ?_⟩, hblks⟩
  · change howmany (n * dirblksiz) dirblksiz ≤ (howmany (n * dirblksiz) dirblksiz * 3 + 1) / 2
    omega
  · rw [hblks]
    change IsFirst (fun _ => blkfree2idx (dirblksiz / diralign) = i) n
      (if i = dhNfstats then 0 else -1)
    split_ifs with hlast
    · exact .inr ⟨0, hn, rfl, hlast.symm, nofun⟩
    · exact .inl ⟨rfl, fun _ _ h => hlast h.symm⟩

end FreeBSDSys.Dirhash
