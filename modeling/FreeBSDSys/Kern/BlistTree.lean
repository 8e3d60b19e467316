import FreeBSDSys.Kern.Blist

/-!
# The blocks that a radix tree denotes

The subtree of height `h` at index `scan` covers `treeRadix h` blocks and occupies the records from
`scan` to `scan + treeSkip h`.  `freeAt root h scan b` says whether block `b` of it is free: a meta
node without available blocks, or with all of them, speaks for the whole subtree, whatever lies
below.  Only the first `cap` blocks of a subtree exist.

* `Shape`: the terminators are in place; this holds below collapsed nodes too.
* `Live`: the counters of the nodes that are not below a collapsed one are right.
* `Kids`: an open view of a meta node, through its subtrees; `Good.kids` and `Kids.close` pass from
  one view to the other.
* `Hinted`: no hint below the node is too low.
-/

namespace FreeBSDSys.Blst

open BitRange Nat

/-! ## Layout -/

/-- The number of blocks under a node of height `h`. -/
def treeRadix (h : ℕ) : ℕ := blistBmapRadix * blistMetaRadix ^ h

/-- The number of records behind a node of height `h`. -/
def treeSkip : ℕ → ℕ
  | 0 => 0
  | h + 1 => (treeSkip h + 1) * blistMetaRadix

/-- The index of subtree `k` of a node of height `h + 1`. -/
def kid (h scan k : ℕ) : ℕ := scan + (k * (treeSkip h + 1) + 1)

/-- The number of blocks of subtree `k`. -/
def kidCap (h cap k : ℕ) : ℕ := min (treeRadix h) (cap - k * treeRadix h)

theorem treeRadix_succ (h : ℕ) : treeRadix (h + 1) = 16 * treeRadix h := by
  rw [treeRadix, treeRadix, blistMetaRadix]
  ring

theorem le_treeRadix (h : ℕ) : 32 ≤ treeRadix h :=
  Nat.le_mul_of_pos_right _ (Nat.pow_pos (by decide))

theorem dvd_treeRadix (h : ℕ) : 32 ∣ treeRadix h := Nat.dvd_mul_right _ _

theorem treeRadix_div (h : ℕ) : treeRadix (h + 1) / blistMetaRadix = treeRadix h := by
  rw [treeRadix_succ]
  exact Nat.mul_div_cancel_left _ (by decide)

theorem treeSkip_succ (h : ℕ) : treeSkip (h + 1) = 16 * (treeSkip h + 1) := Nat.mul_comm _ _

theorem treeSkip_div (h : ℕ) : treeSkip (h + 1) / blistMetaRadix = treeSkip h + 1 :=
  Nat.mul_div_cancel _ (by decide)

variable {h scan k j cap b b' : ℕ}

/-- A subtree lies behind its node. -/
theorem kid_bounds (h scan : ℕ) (hk : k < 16) :
    scan < kid h scan k ∧ kid h scan k + treeSkip h ≤ scan + treeSkip (h + 1) := by
  have hmul : (k + 1) * (treeSkip h + 1) ≤ 16 * (treeSkip h + 1) := Nat.mul_le_mul_right _ hk
  rw [succ_mul] at hmul
  rw [kid, treeSkip_succ]
  omega

/-- Subtrees lie behind each other. -/
theorem kid_lt (h scan : ℕ) (hjk : j < k) : kid h scan j + treeSkip h < kid h scan k := by
  have hmul : (j + 1) * (treeSkip h + 1) ≤ k * (treeSkip h + 1) := Nat.mul_le_mul_right _ hjk
  rw [succ_mul] at hmul
  rw [kid, kid]
  omega

theorem kid_apart (h scan : ℕ) (hjk : j ≠ k) :
    kid h scan j + treeSkip h < kid h scan k ∨ kid h scan k + treeSkip h < kid h scan j :=
  (Nat.lt_or_gt_of_ne hjk).imp (kid_lt h scan) (kid_lt h scan)

/-- A block of a node belongs to a subtree. -/
theorem exists_kid (hcap : cap ≤ treeRadix (h + 1)) (hb : b < cap) :
    ∃ k b', k < 16 ∧ b = k * treeRadix h + b' ∧ k * treeRadix h < cap ∧ b' < kidCap h cap k ∧
      b' < treeRadix h := by
  have hpos : 0 < treeRadix h := (by decide : 0 < 32).trans_le (le_treeRadix h)
  have hmod := mod_lt b hpos
  have hdiv : b = b / treeRadix h * treeRadix h + b % treeRadix h := (div_add_mod' b _).symm
  refine ⟨b / treeRadix h, b % treeRadix h, ?_, hdiv, by omega, ?_, hmod⟩
  · rw [Nat.div_lt_iff_lt_mul hpos, ← treeRadix_succ]
    omega
  · rw [kidCap]
    omega

theorem lt_cap_of_kidCap (hb : b' < kidCap h cap k) :
    b' < treeRadix h ∧ k * treeRadix h + b' < cap := by
  rw [kidCap] at hb
  omega

theorem kidCap_le (h cap k : ℕ) : kidCap h cap k ≤ treeRadix h := min_le_left _ _

/-- Different subtrees have different blocks. -/
theorem block_inj {b1 b2 : ℕ} (h1 : b1 < treeRadix h) (h2 : b2 < treeRadix h)
    (heq : j * treeRadix h + b1 = k * treeRadix h + b2) : j = k ∧ b1 = b2 := by
  have hpos : 0 < treeRadix h := (Nat.zero_le _).trans_lt h1
  have hj : (j * treeRadix h + b1) / treeRadix h = j := by
    rw [Nat.mul_comm, mul_add_div hpos, div_eq_of_lt h1, Nat.add_zero]
  have hk : (k * treeRadix h + b2) / treeRadix h = k := by
    rw [Nat.mul_comm, mul_add_div hpos, div_eq_of_lt h2, Nat.add_zero]
  have hjk : j = k := by rw [← hj, heq, hk]
  subst hjk
  exact ⟨rfl, Nat.add_left_cancel heq⟩

/-! ## Free blocks -/

/-- Is block `b` of the subtree free? -/
def freeAt (root : BlTree) : ℕ → ℕ → ℕ → Bool
  | 0, scan, b => (root.node scan).bmuBitmap.getLsbD b
  | h + 1, scan, b =>
    if (root.node scan).bmuAvail = 0 then false
    else if (root.node scan).bmuAvail = treeRadix (h + 1) then true
    else freeAt root h (kid h scan (b / treeRadix h)) (b % treeRadix h)

/-- The same for a node of height `h + 1`, through its subtrees. -/
def openFree (root : BlTree) (h scan b : ℕ) : Bool :=
  freeAt root h (kid h scan (b / treeRadix h)) (b % treeRadix h)

/-- The number of the first `cap` blocks that are free according to `p`. -/
def freeCount (p : ℕ → Bool) (cap : ℕ) : ℕ := count (fun b => p b = true) cap

variable {root root' : BlTree}

theorem openFree_kid (hb : b' < treeRadix h) :
    openFree root h scan (k * treeRadix h + b') = freeAt root h (kid h scan k) b' := by
  have hpos : 0 < treeRadix h := (Nat.zero_le _).trans_lt hb
  rw [openFree, Nat.mul_comm, mul_add_div hpos, div_eq_of_lt hb, Nat.add_zero,
    mul_add_mod, mod_eq_of_lt hb]

theorem freeAt_open (h0 : (root.node scan).bmuAvail ≠ 0)
    (hR : (root.node scan).bmuAvail ≠ treeRadix (h + 1)) :
    freeAt root (h + 1) scan b = openFree root h scan b := by
  rw [freeAt, if_neg h0, if_neg hR, openFree]

/-! ## The invariant -/

/-- The hints of existing nodes are not negative, and the first missing subtree of a meta node has
the hint `-1`. -/
def Shape (root : BlTree) : ℕ → ℕ → ℕ → Prop
  | 0, scan, cap => cap ≤ treeRadix 0 ∧ 0 ≤ (root.node scan).bmBighint
  | h + 1, scan, cap => cap ≤ treeRadix (h + 1) ∧ 0 ≤ (root.node scan).bmBighint ∧
      (∀ k < 16, k * treeRadix h < cap → Shape root h (kid h scan k) (kidCap h cap k)) ∧
      ∀ k < 16, cap ≤ k * treeRadix h → (∀ j < k, j * treeRadix h < cap) →
        (root.node (kid h scan k)).bmBighint = -1

/-- Bitmaps have no bits for missing blocks, and `bmu_avail` is the number of free blocks, down to
the first collapsed nodes. -/
def Live (root : BlTree) : ℕ → ℕ → ℕ → Prop
  | 0, scan, cap => ∀ b, cap ≤ b → (root.node scan).bmuBitmap.getLsbD b = false
  | h + 1, scan, cap => (root.node scan).bmuAvail = freeCount (freeAt root (h + 1) scan) cap ∧
      ((root.node scan).bmuAvail ≠ 0 → (root.node scan).bmuAvail ≠ treeRadix (h + 1) →
        ∀ k < 16, k * treeRadix h < cap → Live root h (kid h scan k) (kidCap h cap k))

/-- The invariant of a subtree. -/
structure Good (root : BlTree) (h scan cap : ℕ) : Prop where
  shape : Shape root h scan cap
  live : Live root h scan cap

/-- The subtrees of a node of height `h + 1` satisfy the invariant. -/
structure Kids (root : BlTree) (h scan cap : ℕ) : Prop where
  good : ∀ k < 16, k * treeRadix h < cap → Good root h (kid h scan k) (kidCap h cap k)
  term : ∀ k < 16, cap ≤ k * treeRadix h → (∀ j < k, j * treeRadix h < cap) →
    (root.node (kid h scan k)).bmBighint = -1

theorem Shape.cap_le (hs : Shape root h scan cap) : cap ≤ treeRadix h := by
  cases h with
  | zero => exact hs.1
  | succ h => exact hs.1

theorem Shape.hint_nonneg (hs : Shape root h scan cap) : 0 ≤ (root.node scan).bmBighint := by
  cases h with
  | zero => exact hs.2
  | succ h => exact hs.2.1

/-! ## Locality -/

/-- Two arrays agree on a subtree. -/
def Agree (root root' : BlTree) (h scan : ℕ) : Prop :=
  ∀ j, scan ≤ j → j ≤ scan + treeSkip h → root'.node j = root.node j

/-- Two arrays agree outside a subtree. -/
def Outside (root root' : BlTree) (h scan : ℕ) : Prop :=
  ∀ j, j < scan ∨ scan + treeSkip h < j → root'.node j = root.node j

/-- Two arrays agree besides one record. -/
def Besides (root root' : BlTree) (scan : ℕ) : Prop := ∀ j, j ≠ scan → root'.node j = root.node j

theorem Agree.node (ha : Agree root root' h scan) : root'.node scan = root.node scan :=
  ha scan le_rfl (Nat.le_add_right _ _)

theorem Agree.kid (ha : Agree root root' (h + 1) scan) (hk : k < 16) :
    Agree root root' h (kid h scan k) := by
  intro i hi hi'
  obtain ⟨h1, h2⟩ := kid_bounds h scan hk
  exact ha i (by omega) (by omega)

theorem Outside.trans {root'' : BlTree} (h1 : Outside root root' h scan)
    (h2 : Outside root' root'' h scan) : Outside root root'' h scan := fun j hj =>
  (h2 j hj).trans (h1 j hj)

section

variable (ho : Outside root root' h (kid h scan k))

include ho

/-- What changes only a subtree changes only its parent. -/
theorem Outside.parent (hk : k < 16) : Outside root root' (h + 1) scan := by
  obtain ⟨h1, h2⟩ := kid_bounds h scan hk
  intro j hj
  exact ho j (by omega)

theorem Outside.node (hk : k < 16) : root'.node scan = root.node scan :=
  ho scan (.inl (kid_bounds h scan hk).1)

/-- What changes only a subtree leaves the others alone. -/
theorem Outside.agree (hjk : j ≠ k) : Agree root root' h (kid h scan j) := by
  intro i hi hi'
  have := kid_apart h scan hjk
  exact ho i (by omega)

end

theorem besides_set (node : BlMeta) : Besides root (root.set scan node) scan :=
  fun _ => BlTree.node_set_of_ne _

theorem Besides.trans {root'' : BlTree} (h1 : Besides root root' scan)
    (h2 : Besides root' root'' scan) : Besides root root'' scan := fun j hj =>
  (h2 j hj).trans (h1 j hj)

/-- The hint of a node is set under a condition. -/
theorem setBighint_if {c : Prop} [Decidable c] {x : ℤ}
    (hroot : (if c then root.setBighint scan x else root) = root') : Besides root root' scan ∧
      root'.node scan = { root.node scan with
        bmBighint := if c then x else (root.node scan).bmBighint } := by
  subst hroot
  split_ifs
  · exact ⟨besides_set _, BlTree.node_setBighint _⟩
  · exact ⟨fun _ _ => rfl, rfl⟩

theorem Besides.outside (ho : Besides root root' scan) (h : ℕ) : Outside root root' h scan :=
  fun j hj => ho j (by omega)

theorem Besides.kid (ho : Besides root root' scan) (h k : ℕ) :
    Agree root root' h (kid h scan k) := by
  intro j hj _
  refine ho j ?_
  rw [Blst.kid] at hj
  omega

section Congr

/-- `freeAt` reads below its node only blocks of existing subtrees. -/
theorem freeAt_congr (ha : Agree root root' h scan) (hb : b < treeRadix h) :
    freeAt root' h scan b = freeAt root h scan b := by
  induction h generalizing scan b with
  | zero => rw [freeAt, freeAt, ha.node]
  | succ h ih =>
    obtain ⟨k, b', hk, rfl, -, -, hb'⟩ := exists_kid le_rfl hb
    have hkid : openFree root' h scan (k * treeRadix h + b') =
        openFree root h scan (k * treeRadix h + b') := by
      rw [openFree_kid hb', openFree_kid hb']
      exact ih (ha.kid hk) hb'
    rw [freeAt, freeAt, ha.node]
    split_ifs
    · rfl
    · rfl
    · exact hkid

theorem freeCount_congr {p q : ℕ → Bool} (hpq : ∀ b < cap, p b = q b) :
    freeCount p cap = freeCount q cap := count_congr fun i hi => by rw [hpq i hi]

theorem shape_congr (ha : Agree root root' h scan) (hs : Shape root h scan cap) :
    Shape root' h scan cap := by
  induction h generalizing scan cap with
  | zero =>
    rw [Shape, ha.node]
    exact hs
  | succ h ih =>
    obtain ⟨hcap, hhint, hkids, hterm⟩ := hs
    refine ⟨hcap, ha.node ▸ hhint, fun k hk hlt => ih (ha.kid hk) (hkids k hk hlt), ?_⟩
    intro k hk hge hall
    rw [(ha.kid hk).node]
    exact hterm k hk hge hall

theorem live_congr (ha : Agree root root' h scan) (hcap : cap ≤ treeRadix h)
    (hl : Live root h scan cap) : Live root' h scan cap := by
  induction h generalizing scan cap with
  | zero =>
    rw [Live, ha.node]
    exact hl
  | succ h ih =>
    rw [Live, ha.node]
    refine ⟨hl.1.trans ?_, fun h0 hR k hk hlt => ih (ha.kid hk) (kidCap_le ..) (hl.2 h0 hR k hk hlt)⟩
    exact congrArg _ (freeCount_congr fun b hb => (freeAt_congr ha (hb.trans_le hcap)).symm)

theorem Good.congr (hg : Good root h scan cap) (ha : Agree root root' h scan) :
    Good root' h scan cap :=
  ⟨shape_congr ha hg.shape, live_congr ha hg.shape.cap_le hg.live⟩

end Congr

/-! ## Opening and closing a meta node -/

theorem Good.kids (hg : Good root (h + 1) scan cap) (h0 : (root.node scan).bmuAvail ≠ 0)
    (hR : (root.node scan).bmuAvail ≠ treeRadix (h + 1)) : Kids root h scan cap :=
  ⟨fun k hk hlt => ⟨hg.shape.2.2.1 k hk hlt, hg.live.2 h0 hR k hk hlt⟩, hg.shape.2.2.2⟩

section

variable (hK : Kids root h scan cap)

include hK

/-- A present subtree has no terminator. -/
theorem Kids.hint_nonneg (hk : k < 16) (hlt : k * treeRadix h < cap) :
    0 ≤ (root.node (kid h scan k)).bmBighint := (hK.good k hk hlt).shape.hint_nonneg

/-- A node whose counter is right may be collapsed or not: seen from outside it is the same. -/
theorem Kids.close (hcap : cap ≤ treeRadix (h + 1)) (hhint : 0 ≤ (root.node scan).bmBighint)
    (havail : (root.node scan).bmuAvail = freeCount (openFree root h scan) cap) :
    Good root (h + 1) scan cap ∧
      ∀ b < cap, freeAt root (h + 1) scan b = openFree root h scan b := by
  have hfree : ∀ b < cap, freeAt root (h + 1) scan b = openFree root h scan b := by
    intro b hb
    rw [freeAt]
    split_ifs with h0 hR
    · have hnone : freeCount (openFree root h scan) cap = 0 := by omega
      exact (Bool.eq_false_iff.mpr (Nat.count_iff_forall_not.mp hnone b hb)).symm
    · have hle : freeCount (openFree root h scan) cap ≤ cap := count_le _
      have hall : freeCount (openFree root h scan) cap = cap := by omega
      exact (Nat.count_iff_forall.mp hall b hb).symm
    · rfl
  refine ⟨⟨⟨hcap, hhint, fun k hk hlt => (hK.good k hk hlt).shape, hK.term⟩, ?_, ?_⟩, hfree⟩
  · rw [havail, freeCount_congr hfree]
  · exact fun _ _ k hk hlt => (hK.good k hk hlt).live

/-- One subtree changes. -/
theorem Kids.step (hk : k < 16) (hlt : k * treeRadix h < cap)
    (ho : Outside root root' h (kid h scan k)) (hg : Good root' h (kid h scan k) (kidCap h cap k)) :
    Kids root' h scan cap := by
  refine ⟨fun j hj hjlt => ?_, fun j hj hge hall => ?_⟩
  · by_cases hjk : j = k
    · subst hjk
      exact hg
    · exact (hK.good j hj hjlt).congr (ho.agree hjk)
  · have hjk : j ≠ k := by
      rintro rfl
      omega
    rw [(ho.agree hjk).node]
    exact hK.term j hj hge hall

/-- The record of the node changes. -/
theorem Kids.setNode (ho : Besides root root' scan) : Kids root' h scan cap := by
  refine ⟨fun k hk hlt => (hK.good k hk hlt).congr (ho.kid h k), fun k hk hge hall => ?_⟩
  rw [(ho.kid h k).node]
  exact hK.term k hk hge hall

end

theorem openFree_setNode (ho : Besides root root' scan) (hb : b < treeRadix (h + 1)) :
    openFree root' h scan b = openFree root h scan b := by
  obtain ⟨k, b', hk, rfl, -, -, hb'⟩ := exists_kid le_rfl hb
  rw [openFree_kid hb', openFree_kid hb']
  exact freeAt_congr (ho.kid h k) hb'

/-- The blocks of the other subtrees stay as they are. -/
theorem openFree_step (ho : Outside root root' h (kid h scan k)) (hjk : j ≠ k)
    (hb : b' < treeRadix h) :
    openFree root' h scan (j * treeRadix h + b') = openFree root h scan (j * treeRadix h + b') := by
  rw [openFree_kid hb, openFree_kid hb]
  exact freeAt_congr (ho.agree hjk) hb

/-- Block `b` belongs to the range of `n` blocks from `lo` on. -/
def inRange (lo n b : ℕ) : Bool := decide (lo ≤ b ∧ b < lo + n)

theorem inRange_iff {lo n : ℕ} : inRange lo n b = true ↔ lo ≤ b ∧ b < lo + n := decide_eq_true_iff

/-- A change of one subtree, seen from its parent. -/
theorem openFree_lift (hcap : cap ≤ treeRadix (h + 1)) (ho : Outside root root' h (kid h scan k))
    (f : Bool → Bool → Bool) (hf : ∀ x, f x false = x) (lo n : ℕ) (hn : lo + n ≤ kidCap h cap k)
    (hkid : ∀ b < kidCap h cap k,
      freeAt root' h (kid h scan k) b = f (freeAt root h (kid h scan k) b) (inRange lo n b)) :
    ∀ b < cap, openFree root' h scan b =
      f (openFree root h scan b) (inRange (k * treeRadix h + lo) n b) := by
  intro b hb
  obtain ⟨j, b', hj, rfl, -, hb', hbR⟩ := exists_kid hcap hb
  have hle := kidCap_le h cap k
  by_cases hjk : j = k
  · subst hjk
    have hrange : inRange (j * treeRadix h + lo) n (j * treeRadix h + b') = inRange lo n b' := by
      rw [inRange, inRange, decide_eq_decide]
      omega
    rw [openFree_kid hbR, openFree_kid hbR, hkid b' hb', hrange]
  · have hrange : inRange (k * treeRadix h + lo) n (j * treeRadix h + b') = false := by
      rw [Bool.eq_false_iff, Ne, inRange_iff]
      rintro ⟨h1, h2⟩
      have hlt : j * treeRadix h + b' - k * treeRadix h < treeRadix h := by omega
      exact hjk (block_inj hbR hlt (by omega)).1
    rw [openFree_step ho hjk hbR, hrange, hf]

section FreeCount

variable {p q : ℕ → Bool} {lo n : ℕ}

/-- A range is taken out. -/
theorem freeCount_clear (hcap : lo + n ≤ cap) (hq : ∀ b < cap, q b = (p b && !inRange lo n b)) :
    freeCount q cap + freeCount (fun j => p (lo + j)) n = freeCount p cap := by
  have hex := count_exchange (p := fun b => q b = true) hcap fun b hb hout => by
      have hr : inRange lo n b = false := Bool.eq_false_iff.mpr (mt inRange_iff.mp hout)
      rw [hq b hb, hr, Bool.not_false, Bool.and_true]
  have hzero : count (fun j => q (lo + j) = true) n = 0 := by
    refine count_of_forall_not fun j hj => ?_
    have hr : inRange lo n (lo + j) = true := inRange_iff.mpr (by omega)
    rw [hq _ (by omega), hr, Bool.not_true, Bool.and_false]
    exact Bool.false_ne_true
  rw [hzero] at hex
  exact hex

/-- A free range is taken out. -/
theorem freeCount_take (hcap : lo + n ≤ cap) (hp : ∀ b, inRange lo n b = true → p b = true)
    (hq : ∀ b < cap, q b = (p b && !inRange lo n b)) : freeCount q cap + n = freeCount p cap := by
  rw [← freeCount_clear hcap hq]
  congr 1
  exact (count_of_forall fun j hj => hp _ (inRange_iff.mpr (by omega))).symm

/-- An allocated range is put in. -/
theorem freeCount_put (hcap : lo + n ≤ cap) (hp : ∀ b, inRange lo n b = true → p b = false)
    (hq : ∀ b < cap, q b = (p b || inRange lo n b)) : freeCount q cap = freeCount p cap + n := by
  refine (freeCount_take hcap (fun b hb => ?_) fun b hb => ?_).symm
  · have hlt := inRange_iff.mp hb
    rw [hq b (by omega), hb, Bool.or_true]
  · rw [hq b hb]
    cases hr : inRange lo n b with
    | true => rw [hp b hr]; rfl
    | false => simp

end FreeCount

/-! ## Collapsed nodes -/

theorem treeSkip_eq_zero_iff : treeSkip h + 1 = 1 ↔ h = 0 := by
  cases h with
  | zero => simp [treeSkip]
  | succ h =>
    rw [treeSkip_succ]
    omega

/-- A node that changes its own record only keeps its shape. -/
theorem Shape.setNode (hs : Shape root h scan cap)
    (ho : ∀ j, scan < j → j ≤ scan + treeSkip h → root'.node j = root.node j)
    (hhint : 0 ≤ (root'.node scan).bmBighint) : Shape root' h scan cap := by
  cases h with
  | zero => exact ⟨hs.1, hhint⟩
  | succ h =>
    have ha : ∀ k < 16, Agree root root' h (kid h scan k) := by
      intro k hk j hj hj'
      obtain ⟨h1, h2⟩ := kid_bounds h scan hk
      exact ho j (by omega) (by omega)
    refine ⟨hs.1, hhint, fun k hk hlt => shape_congr (ha k hk) (hs.2.2.1 k hk hlt), ?_⟩
    intro k hk hge hall
    rw [(ha k hk).node]
    exact hs.2.2.2 k hk hge hall

/-- ALL-ALLOCATED. -/
theorem Shape.allocated (hs : Shape root h scan cap) (hleaf : h = 0 → (root.node scan).bmuBitmap = 0)
    (hmeta : h ≠ 0 → (root.node scan).bmuAvail = 0) :
    Good root h scan cap ∧ ∀ b, freeAt root h scan b = false := by
  cases h with
  | zero =>
    have hb : ∀ b, (root.node scan).bmuBitmap.getLsbD b = false := by
      intro b
      rw [hleaf rfl]
      exact BitVec.getLsbD_zero
    exact ⟨⟨hs, fun b _ => hb b⟩, hb⟩
  | succ h =>
    have h0 := hmeta (succ_ne_zero h)
    have hfree : ∀ b, freeAt root (h + 1) scan b = false := fun b => by rw [freeAt, if_pos h0]
    refine ⟨⟨hs, ?_, absurd h0⟩, hfree⟩
    have hz : freeCount (freeAt root (h + 1) scan) cap = 0 :=
      count_of_forall_not fun b _ => by simp [hfree b]
    rw [h0, hz]
    rfl

/-- ALL-FREE. -/
theorem Shape.free (hs : Shape root h scan (treeRadix h))
    (hleaf : h = 0 → (root.node scan).bmuBitmap = BitVec.allOnes 32)
    (hmeta : h ≠ 0 → (root.node scan).bmuAvail = treeRadix h) :
    Good root h scan (treeRadix h) ∧ ∀ b < treeRadix h, freeAt root h scan b = true := by
  cases h with
  | zero =>
    refine ⟨⟨hs, fun _ => BitVec.getLsbD_of_ge _ _⟩, fun b hb => ?_⟩
    rw [freeAt, hleaf rfl, BitVec.getLsbD_allOnes]
    exact decide_eq_true hb
  | succ h =>
    have hR := hmeta (succ_ne_zero h)
    have hpos := le_treeRadix (h + 1)
    have h0 : (root.node scan).bmuAvail ≠ 0 := by omega
    have hfree : ∀ b, freeAt root (h + 1) scan b = true := fun b => by
      rw [freeAt, if_neg h0, if_pos hR]
    refine ⟨⟨hs, ?_, fun _ => absurd hR⟩, fun b _ => hfree b⟩
    have hall : freeCount (freeAt root (h + 1) scan) (treeRadix (h + 1)) = treeRadix (h + 1) :=
      count_of_forall fun b _ => hfree b
    rw [hR, hall]

/-! ## Initializing the subtrees -/

/-- **`initKids`** writes the records of the subtrees that exist, and nothing else. -/
theorem initKids_spec (h scan cap : ℕ) (set : BlMeta → BlMeta) :
    ∀ (left k : ℕ) (root : BlTree), left + k = 16 → (∀ j < k, j * treeRadix h < cap) →
      (∀ i < 16, k ≤ i → i * treeRadix h < cap → 0 ≤ (root.node (kid h scan i)).bmBighint) →
      (∀ i < 16, k ≤ i → cap ≤ i * treeRadix h → (∀ j < i, j * treeRadix h < cap) →
        (root.node (kid h scan i)).bmBighint = -1) →
      (∀ i < 16, k ≤ i → i * treeRadix h < cap →
        (initKids scan (treeSkip h + 1) set left k root).node (kid h scan i) =
          set (root.node (kid h scan i))) ∧
      ∀ j, (∀ i < 16, k ≤ i → i * treeRadix h < cap → j ≠ kid h scan i) →
        (initKids scan (treeSkip h + 1) set left k root).node j = root.node j := by
  intro left
  induction left with
  | zero =>
    intro k root hk _ _ _
    exact ⟨fun i hi hki _ => by omega, fun _ _ => rfl⟩
  | succ left ih =>
    intro k root hk hpresent hhint hterm
    have hrun : initKids scan (treeSkip h + 1) set (left + 1) k root =
        if (root.node (kid h scan k)).bmBighint = -1 then root
        else initKids scan (treeSkip h + 1) set left (k + 1)
          (root.set (kid h scan k) (set (root.node (kid h scan k)))) := rfl
    rw [hrun]
    split_ifs with hne
    · -- the terminator: no further subtree exists
      have hmissing : ∀ i < 16, k ≤ i → ¬ i * treeRadix h < cap := by
        intro i _ hki hlt
        have hle : k * treeRadix h ≤ i * treeRadix h := Nat.mul_le_mul_right _ hki
        have := hhint k (by omega) le_rfl (by omega)
        omega
      exact ⟨fun i hi hki hlt => absurd hlt (hmissing i hi hki), fun _ _ => rfl⟩
    · have hlt : k * treeRadix h < cap := by
        by_contra hge
        exact hne (hterm k (by omega) le_rfl (by omega) hpresent)
      have hother : ∀ i, k < i → kid h scan i ≠ kid h scan k := fun i hi he => by
        have := kid_lt h scan hi
        omega
      have hkeep : Besides root (root.set (kid h scan k) (set (root.node (kid h scan k)))) _ :=
        besides_set _
      obtain ⟨h1, h2⟩ := ih (k + 1) (root.set (kid h scan k) (set (root.node (kid h scan k))))
        (by omega) (Nat.forall_lt_succ_right.mpr ⟨hpresent, hlt⟩)
        (fun i hi hki hl => by rw [hkeep _ (hother i hki)]; exact hhint i hi (by omega) hl)
        (fun i hi hki hge hall => by
          rw [hkeep _ (hother i hki)]
          exact hterm i hi (by omega) hge hall)
      refine ⟨fun i hi hki hl => ?_, fun j hj => ?_⟩
      · by_cases hik : i = k
        · subst hik
          rw [h2 _ fun i' _ hi' _ he => hother i' hi' he.symm]
          exact Function.update_self ..
        · have hlt' : k < i := by omega
          rw [h1 i hi hlt' hl, hkeep _ (hother i hlt')]
      · rw [h2 j fun i hi _ => hj i hi (by omega)]
        exact hkeep j (hj k (by omega) le_rfl hlt)

/-- The loop from the start. -/
theorem Shape.init_spec (hs : Shape root (h + 1) scan cap) (set : BlMeta → BlMeta) :
    (∀ k < 16, k * treeRadix h < cap →
      (initKids scan (treeSkip h + 1) set blistMetaRadix 0 root).node (kid h scan k) =
        set (root.node (kid h scan k))) ∧
    ∀ j, (∀ k < 16, k * treeRadix h < cap → j ≠ kid h scan k) →
      (initKids scan (treeSkip h + 1) set blistMetaRadix 0 root).node j = root.node j := by
  obtain ⟨h1, h2⟩ := initKids_spec h scan cap set 16 0 root rfl
    (fun j hj => absurd hj (Nat.not_lt_zero j))
    (fun i hi _ hl => (hs.2.2.1 i hi hl).hint_nonneg) (fun i hi _ => hs.2.2.2 i hi)
  exact ⟨fun k hk => h1 k hk (Nat.zero_le _), fun j hj => h2 j fun i hi _ => hj i hi⟩

/-! ## Hints -/

/-- Some leaf has `n` free blocks in a row. -/
def LeafRun (p : ℕ → Bool) (cap n : ℕ) : Prop :=
  ∃ a, a % blistBmapRadix + n ≤ blistBmapRadix ∧ ∀ j < n, a + j < cap ∧ p (a + j) = true

/-- The hint of a node is not too low. -/
def HintBig (root : BlTree) (h scan cap : ℕ) : Prop :=
  ∀ n, 0 < n → LeafRun (freeAt root h scan) cap n → (n : ℤ) ≤ (root.node scan).bmBighint

/-- No hint below the node is too low, down to the first collapsed nodes. -/
def Hinted (root : BlTree) : ℕ → ℕ → ℕ → Prop
  | 0, _, _ => True
  | h + 1, scan, cap => (root.node scan).bmuAvail ≠ 0 →
      (root.node scan).bmuAvail ≠ treeRadix (h + 1) →
      ∀ k < 16, k * treeRadix h < cap →
        HintBig root h (kid h scan k) (kidCap h cap k) ∧ Hinted root h (kid h scan k) (kidCap h cap k)

/-- The same for a node of height `h + 1`, through its subtrees. -/
def KidsHinted (root : BlTree) (h scan cap : ℕ) : Prop :=
  ∀ k < 16, k * treeRadix h < cap →
    HintBig root h (kid h scan k) (kidCap h cap k) ∧ Hinted root h (kid h scan k) (kidCap h cap k)

section LeafRun

variable {p q : ℕ → Bool} {n m : ℕ}

theorem LeafRun.mono (hr : LeafRun p cap n) (hpq : ∀ b < cap, p b = true → q b = true) :
    LeafRun q cap n := by
  obtain ⟨a, ha, hrun⟩ := hr
  exact ⟨a, ha, fun j hj => ⟨(hrun j hj).1, hpq _ (hrun j hj).1 (hrun j hj).2⟩⟩

theorem leafRun_congr (hpq : ∀ b < cap, p b = q b) : LeafRun p cap n ↔ LeafRun q cap n :=
  ⟨fun hr => hr.mono fun b hb ht => hpq b hb ▸ ht, fun hr => hr.mono fun b hb ht => hpq b hb ▸ ht⟩

theorem LeafRun.agree (hr : LeafRun (freeAt root' h scan) cap n) (ha : Agree root root' h scan)
    (hcap : cap ≤ treeRadix h) : LeafRun (freeAt root h scan) cap n :=
  (leafRun_congr fun _ hb => freeAt_congr ha (hb.trans_le hcap)).mp hr

theorem LeafRun.le (hr : LeafRun p cap n) (hmn : m ≤ n) : LeafRun p cap m := by
  obtain ⟨a, ha, hrun⟩ := hr
  exact ⟨a, by omega, fun j hj => hrun j (by omega)⟩

theorem LeafRun.le_radix (hr : LeafRun p cap n) : n ≤ blistBmapRadix := by
  obtain ⟨a, ha, -⟩ := hr
  omega

/-- A run has at most as many blocks as there are free ones. -/
theorem LeafRun.le_freeCount (hr : LeafRun p cap n) (hn : 0 < n) : n ≤ freeCount p cap := by
  obtain ⟨a, -, hrun⟩ := hr
  have hcap : a + n ≤ cap := by
    have := (hrun (n - 1) (by omega)).1
    omega
  calc n = count (fun j => p (a + j) = true) n := (count_of_forall fun j hj => (hrun j hj).2).symm
    _ ≤ count (fun b => p b = true) (a + n) := by
        rw [count_add]
        exact Nat.le_add_left _ _
    _ ≤ freeCount p cap := count_monotone _ hcap

theorem not_leafRun_of_free (hp : ∀ b < cap, p b = false) (hn : 0 < n) : ¬ LeafRun p cap n := by
  rintro ⟨a, -, hrun⟩
  obtain ⟨hlt, htrue⟩ := hrun 0 hn
  rw [hp _ hlt] at htrue
  exact Bool.noConfusion htrue

/-- Subtrees start on a leaf boundary. -/
theorem block_mod (h k b : ℕ) : (k * treeRadix h + b) % blistBmapRadix = b % blistBmapRadix := by
  obtain ⟨c, hc⟩ := dvd_treeRadix h
  rw [hc, Nat.mul_left_comm]
  exact mul_add_mod _ _ _

/-- A run of a subtree is a run of the node. -/
theorem LeafRun.of_kid (hr : LeafRun (freeAt root h (kid h scan k)) (kidCap h cap k) n) :
    LeafRun (openFree root h scan) cap n := by
  obtain ⟨a, ha, hrun⟩ := hr
  refine ⟨k * treeRadix h + a, by rw [block_mod]; exact ha, fun j hj => ?_⟩
  obtain ⟨hlt, htrue⟩ := hrun j hj
  obtain ⟨hR, hcap⟩ := lt_cap_of_kidCap hlt
  rw [Nat.add_assoc, openFree_kid hR]
  exact ⟨hcap, htrue⟩

/-- A run lies in one subtree. -/
theorem LeafRun.exists_kid (hcap : cap ≤ treeRadix (h + 1)) (hn : 0 < n)
    (hr : LeafRun (openFree root h scan) cap n) :
    ∃ k < 16, k * treeRadix h < cap ∧ LeafRun (freeAt root h (kid h scan k)) (kidCap h cap k) n := by
  obtain ⟨a, ha, hrun⟩ := hr
  obtain ⟨k, a', hk, rfl, hklt, -, haR⟩ := Blst.exists_kid hcap (hrun 0 hn).1
  obtain ⟨c, hc⟩ := dvd_treeRadix h
  have hmod := block_mod h k a'
  have hin : a' + n ≤ treeRadix h := by
    rw [hmod] at ha
    change a' % 32 + n ≤ 32 at ha
    omega
  refine ⟨k, hk, hklt, a', hmod ▸ ha, fun j hj => ?_⟩
  obtain ⟨hlt, htrue⟩ := hrun j hj
  rw [Nat.add_assoc] at hlt htrue
  rw [openFree_kid (by omega)] at htrue
  refine ⟨?_, htrue⟩
  rw [kidCap]
  omega

end LeafRun

theorem HintBig.congr (hh : HintBig root h scan cap) (ha : Agree root root' h scan)
    (hcap : cap ≤ treeRadix h) : HintBig root' h scan cap := by
  intro n hn hrun
  rw [ha.node]
  exact hh n hn (hrun.agree ha hcap)

theorem Hinted.congr (hh : Hinted root h scan cap) (ha : Agree root root' h scan) :
    Hinted root' h scan cap := by
  induction h generalizing scan cap with
  | zero => trivial
  | succ h ih =>
    intro h0 hR k hk hlt
    rw [ha.node] at h0 hR
    obtain ⟨h1, h2⟩ := hh h0 hR k hk hlt
    exact ⟨h1.congr (ha.kid hk) (kidCap_le ..), ih h2 (ha.kid hk)⟩

/-- One subtree changes. -/
theorem KidsHinted.step (hh : KidsHinted root h scan cap) (ho : Outside root root' h (kid h scan k))
    (hkid : HintBig root' h (kid h scan k) (kidCap h cap k) ∧
      Hinted root' h (kid h scan k) (kidCap h cap k)) : KidsHinted root' h scan cap := by
  intro j hj hlt
  by_cases hjk : j = k
  · subst hjk
    exact hkid
  · obtain ⟨h1, h2⟩ := hh j hj hlt
    exact ⟨h1.congr (ho.agree hjk) (kidCap_le ..), h2.congr (ho.agree hjk)⟩

theorem KidsHinted.setNode (hh : KidsHinted root h scan cap) (ho : Besides root root' scan) :
    KidsHinted root' h scan cap := by
  intro k hk hlt
  obtain ⟨h1, h2⟩ := hh k hk hlt
  exact ⟨h1.congr (ho.kid h k) (kidCap_le ..), h2.congr (ho.kid h k)⟩

/-- Nothing is wrong below a collapsed node. -/
theorem hinted_of_collapsed (hc : h ≠ 0 → (root.node scan).bmuAvail = 0 ∨
    (root.node scan).bmuAvail = treeRadix h) : Hinted root h scan cap := by
  cases h with
  | zero => trivial
  | succ h =>
    intro h0 hR
    exact absurd (hc (succ_ne_zero h)) (by rw [not_or]; exact ⟨h0, hR⟩)

/-! ## Opening a collapsed node -/

section

variable (hs : Shape root (h + 1) scan cap)

include hs

/-- What the initialization of the subtrees leaves alone. -/
theorem Shape.init_frame (set : BlMeta → BlMeta) :
    let root' := initKids scan (treeSkip h + 1) set blistMetaRadix 0 root
    root'.node scan = root.node scan ∧ Outside root root' (h + 1) scan ∧
    (∀ k < 16, k * treeRadix h < cap → ∀ j, kid h scan k < j → j ≤ kid h scan k + treeSkip h →
      root'.node j = root.node j) ∧
    ∀ k < 16, cap ≤ k * treeRadix h → (∀ j < k, j * treeRadix h < cap) →
      (root'.node (kid h scan k)).bmBighint = -1 := by
  intro root'
  have hkeep := (hs.init_spec set).2
  refine ⟨hkeep scan fun k hk _ => ?_, fun j hj => hkeep j fun k hk _ => ?_, ?_, ?_⟩
  · exact ((kid_bounds h scan hk).1).ne
  · obtain ⟨h1, h2⟩ := kid_bounds h scan hk
    omega
  · intro k hk _ j hj hj'
    refine hkeep j fun i _ _ => ?_
    rcases eq_or_ne i k with rfl | hik
    · omega
    · have := kid_apart h scan hik
      omega
  · intro k hk hge hall
    rw [hkeep _ fun i hi hlt => ?_]
    · exact hs.2.2.2 k hk hge hall
    · have hik : i ≠ k := by
        rintro rfl
        omega
      have := kid_apart h scan hik
      omega

/-- **Opening a collapsed node**: `set` writes records of subtrees that are all free or all
allocated, as `x` tells. -/
theorem Shape.open_kids (set : BlMeta → BlMeta) {x : Bool} (hhint : ∀ m, 0 ≤ (set m).bmBighint)
    (hset : ∀ k < 16, ∀ (root' : BlTree) (m : BlMeta), root'.node (kid h scan k) = set m →
      Shape root' h (kid h scan k) (kidCap h cap k) →
      Good root' h (kid h scan k) (kidCap h cap k) ∧
        (∀ b < treeRadix h, freeAt root' h (kid h scan k) b = x) ∧
        HintBig root' h (kid h scan k) (kidCap h cap k) ∧
        Hinted root' h (kid h scan k) (kidCap h cap k)) :
    let root' := initKids scan (treeSkip h + 1) set blistMetaRadix 0 root
    Kids root' h scan cap ∧ KidsHinted root' h scan cap ∧ root'.node scan = root.node scan ∧
      Outside root root' (h + 1) scan ∧ ∀ b < cap, openFree root' h scan b = x := by
  intro root'
  obtain ⟨hnode, hout, hbelow, hterm⟩ := hs.init_frame set
  have hkid := fun k hk hlt =>
    have hnew := (hs.init_spec set).1 k hk hlt
    hset k hk root' _ hnew ((hs.2.2.1 k hk hlt).setNode (hbelow k hk hlt) (hnew ▸ hhint _))
  refine ⟨⟨fun k hk hlt => (hkid k hk hlt).1, hterm⟩, fun k hk hlt => (hkid k hk hlt).2.2, hnode,
    hout, fun b hb => ?_⟩
  obtain ⟨k, b', hk, rfl, hlt, -, hbR⟩ := exists_kid hs.1 hb
  rw [openFree_kid hbR]
  exact (hkid k hk hlt).2.1 b' hbR

/-- The subtrees of a node that was ALL-ALLOCATED. -/
theorem Shape.open_allocated :
    let root' := initKids scan (treeSkip h + 1) (allAllocated (treeSkip h + 1)) blistMetaRadix 0 root
    (Kids root' h scan cap ∧ KidsHinted root' h scan cap ∧ root'.node scan = root.node scan ∧
      Outside root root' (h + 1) scan ∧ ∀ b < cap, openFree root' h scan b = false) ∧
      ∀ k < 16, k * treeRadix h < cap → h ≠ 0 → (root'.node (kid h scan k)).bmuAvail = 0 := by
  have hmeta : ∀ m, h ≠ 0 → (allAllocated (treeSkip h + 1) m).bmuAvail = 0 := by
    intro m h0
    rw [allAllocated, if_neg (mt treeSkip_eq_zero_iff.mp h0)]
  refine ⟨hs.open_kids _ (fun m => ?_) fun k _ root' m hm hshape => ?_, fun k hk hlt => ?_⟩
  · rw [allAllocated]
    split <;> exact le_rfl
  · obtain ⟨hgood, hfree⟩ := hshape.allocated
      (fun h0 => by rw [hm, allAllocated, if_pos (treeSkip_eq_zero_iff.mpr h0)]) (hm ▸ hmeta m)
    refine ⟨hgood, fun b _ => hfree b, fun n hn hrun => ?_, ?_⟩
    · exact absurd hrun (not_leafRun_of_free (fun b _ => hfree b) hn)
    · exact hinted_of_collapsed fun h0 => .inl (hm ▸ hmeta m h0)
  · rw [(hs.init_spec _).1 k hk hlt]
    exact hmeta _

end

/-- The subtrees of a node that was ALL-FREE. -/
theorem Shape.open_free (hs : Shape root (h + 1) scan (treeRadix (h + 1))) :
    let root' := initKids scan (treeSkip h + 1) (allFree (treeSkip h + 1) (treeRadix h))
      blistMetaRadix 0 root
    Kids root' h scan (treeRadix (h + 1)) ∧ KidsHinted root' h scan (treeRadix (h + 1)) ∧
      root'.node scan = root.node scan ∧ Outside root root' (h + 1) scan ∧
      ∀ b < treeRadix (h + 1), openFree root' h scan b = true := by
  have hhint : ∀ m, 32 ≤ (allFree (treeSkip h + 1) (treeRadix h) m).bmBighint := by
    intro m
    rw [allFree]
    split
    · exact le_rfl
    · exact Int.ofNat_le.mpr (le_treeRadix h)
  refine hs.open_kids _ (fun m => (by decide : (0 : ℤ) ≤ 32).trans (hhint m))
    fun k hk root' m hm hshape => ?_
  have hcap : kidCap h (treeRadix (h + 1)) k = treeRadix h := by
    have hmul : (k + 1) * treeRadix h ≤ 16 * treeRadix h := Nat.mul_le_mul_right _ hk
    rw [succ_mul] at hmul
    rw [kidCap, treeRadix_succ]
    omega
  have hmeta : h ≠ 0 → (root'.node (kid h scan k)).bmuAvail = treeRadix h := by
    intro h0
    rw [hm, allFree, if_neg (mt treeSkip_eq_zero_iff.mp h0)]
  rw [hcap] at hshape ⊢
  obtain ⟨hgood, hfree⟩ := hshape.free
    (fun h0 => by rw [hm, allFree, if_pos (treeSkip_eq_zero_iff.mpr h0)]) hmeta
  refine ⟨hgood, hfree, fun n hn hrun => ?_, hinted_of_collapsed fun h0 => .inr (hmeta h0)⟩
  have h1 : n ≤ 32 := hrun.le_radix
  have h2 := hhint m
  rw [hm]
  omega

/-- The array after `blst_meta_alloc` or `blst_meta_fill` has prepared the subtrees of a node. -/
def openNode (root : BlTree) (h scan : ℕ) : BlTree :=
  if (root.node scan).bmuAvail = treeRadix (h + 1) then
    initKids scan (treeSkip h + 1) (allFree (treeSkip h + 1) (treeRadix h)) blistMetaRadix 0 root
  else root

/-- **Opening** a node with free blocks. -/
theorem Good.open (hg : Good root (h + 1) scan cap) (h0 : (root.node scan).bmuAvail ≠ 0) :
    Kids (openNode root h scan) h scan cap ∧
      (Hinted root (h + 1) scan cap → KidsHinted (openNode root h scan) h scan cap) ∧
      (openNode root h scan).node scan = root.node scan ∧
      Outside root (openNode root h scan) (h + 1) scan ∧
      ∀ b < cap, openFree (openNode root h scan) h scan b = freeAt root (h + 1) scan b := by
  rw [openNode]
  split_ifs with hR
  · have hcap : cap = treeRadix (h + 1) := by
      have hle : freeCount (freeAt root (h + 1) scan) cap ≤ cap := count_le _
      have hcap := hg.shape.1
      have havail := hg.live.1
      rw [hR] at havail
      omega
    subst hcap
    obtain ⟨hK, hH, hnode, hout, hfree⟩ := hg.shape.open_free
    refine ⟨hK, fun _ => hH, hnode, hout, fun b hb => ?_⟩
    rw [hfree b hb, freeAt, if_neg h0, if_pos hR]
  · exact ⟨hg.kids h0 hR, fun hh => hh h0 hR, rfl, fun _ _ => rfl, fun b _ => (freeAt_open h0 hR).symm⟩

end FreeBSDSys.Blst
