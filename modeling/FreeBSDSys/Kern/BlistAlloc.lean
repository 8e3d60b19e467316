import FreeBSDSys.Kern.BlistTree

/-!
# Allocation

`AllocPost` says what an allocation in a subtree does to its free blocks, and `AllocHints` what it
does to the hints if they were right before: it then finds a run if there is one.

* `blstLeafAlloc_spec`: a leaf.
* `metaAllocLoop_spec`: the search through the subtrees of a meta node.
* `allocNode_spec`: a subtree of any height.
-/

namespace FreeBSDSys.Blst

open BitRange BlTree Nat

/-! ## Specification -/

/-- The result of an allocation in a subtree whose free blocks were `p`. -/
structure AllocPost (p : ℕ → Bool) (root' : BlTree) (h scan blk cap count : ℕ) (res : Option ℕ) :
    Prop where
  good : Good root' h scan cap
  failed : res = none → ∀ b < cap, freeAt root' h scan b = p b
  taken : ∀ r, res = some r → ∃ lo, r = blk + lo ∧ lo + count ≤ cap ∧
    (∀ b, inRange lo count b = true → p b = true) ∧
    ∀ b < cap, freeAt root' h scan b = (p b && !inRange lo count b)

/-- What happens to the hints; `hint` is that of the node before. -/
structure AllocHints (p : ℕ → Bool) (hint : ℤ) (root' : BlTree) (h scan cap count : ℕ)
    (res : Option ℕ) : Prop where
  hinted : Hinted root' h scan cap
  complete : res = none → ¬ LeafRun p cap count
  big : (∀ n, 0 < n → LeafRun p cap n → (n : ℤ) ≤ hint) → HintBig root' h scan cap

/-- `alloc` allocates `count` blocks in subtrees of height `h`. -/
def AllocSpec (h count : ℕ) (alloc : BlTree → ℕ → ℕ → Except BlPanic (Option ℕ × BlTree)) : Prop :=
  ∀ root scan blk cap, Good root h scan cap → ∃ res root', alloc root scan blk = .ok (res, root') ∧
    Outside root root' h scan ∧ AllocPost (freeAt root h scan) root' h scan blk cap count res ∧
    (Hinted root h scan cap →
      AllocHints (freeAt root h scan) (root.node scan).bmBighint root' h scan cap count res)

/-- Both together; the hints were right if `H` holds. -/
def AllocDone (H : Prop) (p : ℕ → Bool) (root root' : BlTree) (h scan blk cap count : ℕ)
    (res : Option ℕ) : Prop :=
  Outside root root' h scan ∧ AllocPost p root' h scan blk cap count res ∧
    (H → AllocHints p (root.node scan).bmBighint root' h scan cap count res)

variable {p q : ℕ → Bool} {root root' : BlTree} {h scan blk cap count k : ℕ} {res : Option ℕ}
  {hint : ℤ} {H : Prop}

theorem AllocPost.congr (hp : AllocPost p root' h scan blk cap count res)
    (hpq : ∀ b < cap, p b = q b) : AllocPost q root' h scan blk cap count res := by
  refine ⟨hp.good, fun hn b hb => (hp.failed hn b hb).trans (hpq b hb), fun r hr => ?_⟩
  obtain ⟨lo, hlo, hcap, hfree, hafter⟩ := hp.taken r hr
  refine ⟨lo, hlo, hcap, fun b hb => ?_, fun b hb => ?_⟩
  · have hlt := inRange_iff.mp hb
    rw [← hpq b (by omega)]
    exact hfree b hb
  · rw [hafter b hb, hpq b hb]

theorem AllocHints.congr (hp : AllocHints p hint root' h scan cap count res)
    (hpq : ∀ b < cap, p b = q b) : AllocHints q hint root' h scan cap count res :=
  ⟨hp.hinted, fun hn hr => hp.complete hn ((leafRun_congr hpq).mpr hr),
    fun hb => hp.big fun n hn hr => hb n hn ((leafRun_congr hpq).mp hr)⟩

/-! ## Leaves -/

/-- The loop over the positions finds the first run, if there is one. -/
theorem leafScan_spec (orig : BitVec 32) :
    ∀ (left j : ℕ) (mask : BitVec 32), IsRun mask j count → j + left + count = 33 →
      (∃ j' m, leafScan orig left j mask = some (j', m) ∧ j' + count ≤ 32 ∧ IsRun m j' count ∧
        ∀ i, j' ≤ i → i < j' + count → orig.getLsbD i = true) ∨
      (leafScan orig left j mask = none ∧ ∀ j', j ≤ j' → j' < j + left →
        ¬ ∀ i, j' ≤ i → i < j' + count → orig.getLsbD i = true) := by
  intro left
  induction left with
  | zero =>
    intro j mask _ _
    exact .inr ⟨rfl, fun j' hj hj' => by omega⟩
  | succ left ih =>
    intro j mask hmask hsum
    rw [leafScan]
    split_ifs with hall
    · exact .inl ⟨j, mask, rfl, by omega, hmask, hmask.and_eq_self_iff.mp hall⟩
    · rw [hmask.and_eq_self_iff] at hall
      by_cases hleft : left = 0
      · subst hleft
        refine .inr ⟨rfl, fun j' hj hj' => ?_⟩
        obtain rfl : j' = j := by omega
        exact hall
      · rcases ih (j + 1) (mask <<< 1) (hmask.shiftLeft (by omega)) (by omega) with hfound | hnone
        · exact .inl hfound
        · refine .inr ⟨hnone.1, fun j' hj hj' => ?_⟩
          rcases eq_or_lt_of_le hj with rfl | hlt
          · exact hall
          · exact hnone.2 j' hlt (by omega)

/-- A run of a leaf. -/
theorem leafRun_zero {n : ℕ} (hr : LeafRun (freeAt root 0 scan) cap n) (hcap : cap ≤ 32)
    (hn : 0 < n) : ∃ a, a + n ≤ 32 ∧
      ∀ i, a ≤ i → i < a + n → (root.node scan).bmuBitmap.getLsbD i = true := by
  obtain ⟨a, ha, hrun⟩ := hr
  have hlt := (hrun 0 hn).1
  have hmod : a % blistBmapRadix = a := mod_eq_of_lt (show a < 32 by omega)
  rw [hmod] at ha
  refine ⟨a, ha, fun i hi hi' => ?_⟩
  have hbit := (hrun (i - a) (by omega)).2
  rw [show a + (i - a) = i by omega] at hbit
  exact hbit

/-- Bits of a leaf are taken. -/
theorem leaf_take (hg : Good root 0 scan cap) {lo : ℕ} {mask : BitVec 32}
    (hmask : IsRun mask lo count) (hcount : 0 < count)
    (hset : ∀ i, lo ≤ i → i < lo + count → (root.node scan).bmuBitmap.getLsbD i = true) :
    let root' := root.setBitmap scan ((root.node scan).bmuBitmap &&& ~~~mask)
    AllocDone H (freeAt root 0 scan) root root' 0 scan blk cap count (some (blk + lo)) := by
  intro root'
  have hfree : ∀ b, freeAt root' 0 scan b = (freeAt root 0 scan b && !inRange lo count b) := by
    intro b
    rw [freeAt, node_setBitmap]
    exact hmask.getLsbD_and_not
  have hcap : lo + count ≤ cap := by
    by_contra hgt
    have hclear := hg.live (lo + count - 1) (by omega)
    rw [hset _ (by omega) (by omega)] at hclear
    exact Bool.noConfusion hclear
  refine ⟨(besides_set _).outside 0, ⟨⟨?_, fun b hb => ?_⟩, fun h => (by cases h), ?_⟩,
    fun _ => ⟨trivial, fun h => (by cases h), fun hb n hn hr => ?_⟩⟩
  · rw [Shape, node_setBitmap]
    exact hg.shape
  · have hclear := hg.live b hb
    have := hfree b
    rw [freeAt, freeAt, hclear] at this
    exact this
  · intro r hr
    refine ⟨lo, (Option.some.inj hr).symm, hcap, fun b hb => ?_, fun b _ => hfree b⟩
    obtain ⟨h1, h2⟩ := inRange_iff.mp hb
    exact hset b h1 h2
  · rw [node_setBitmap]
    refine hb n hn (hr.mono fun b _ ht => ?_)
    rw [hfree b, Bool.and_eq_true] at ht
    exact ht.1

/-- Nothing fits into a leaf. -/
theorem leaf_fail (hg : Good root 0 scan cap) (hhint : 0 ≤ hint)
    (hno : ∀ n, 0 < n → LeafRun (freeAt root 0 scan) cap n → (n : ℤ) ≤ hint) (hlt : hint < count)
    (hcount : 0 < count) : let root' := root.setBighint scan hint
    AllocDone H (freeAt root 0 scan) root root' 0 scan blk cap count none := by
  intro root'
  have hfree : ∀ b, freeAt root' 0 scan b = freeAt root 0 scan b := by
    intro b
    rw [freeAt, freeAt, node_setBighint]
  refine ⟨(besides_set _).outside 0,
    ⟨⟨⟨hg.shape.1, ?_⟩, fun b hb => ?_⟩, fun _ b _ => hfree b, fun r h => (by cases h)⟩,
    fun _ => ⟨trivial, fun _ hr => ?_, fun _ n hn hr => ?_⟩⟩
  · rw [node_setBighint]
    exact hhint
  · exact (hfree b).trans (hg.live b hb)
  · have := hno count hcount hr
    omega
  · rw [node_setBighint]
    exact hno n hn (hr.mono fun b _ ht => hfree b ▸ ht)

/-- **`blst_leaf_alloc`.** -/
theorem blstLeafAlloc_spec (h1 : 0 < count) (h32 : count ≤ blistMaxAlloc) :
    AllocSpec 0 count fun root scan blk => .ok (blstLeafAlloc root scan blk count) := by
  intro root scan blk cap hg
  have hcap : cap ≤ 32 := hg.shape.1
  have h32' : count ≤ 32 := h32
  suffices hmain : AllocDone (Hinted root 0 scan cap) (freeAt root 0 scan) root
      (blstLeafAlloc root scan blk count).2 0 scan blk cap count
      (blstLeafAlloc root scan blk count).1 from ⟨_, _, rfl, hmain⟩
  rw [blstLeafAlloc]
  simp only
  split
  · rename_i hzero
    refine leaf_fail hg le_rfl (fun n hn hr => ?_) (by omega) h1
    refine absurd hr (not_leafRun_of_free (fun b _ => ?_) hn)
    rw [freeAt, hzero]
    exact BitVec.getLsbD_zero
  · rename_i hne
    split
    · rename_i hone
      subst hone
      have hbit : ∃ i < 2 ^ 5, (root.node scan).bmuBitmap.getLsbD (0 + i) = true := by
        by_contra hno
        push Not at hno
        refine hne (BitVec.eq_of_getLsbD_eq fun i hi => ?_)
        rw [← zero_add i, Bool.eq_false_iff.mpr (hno i hi)]
        exact BitVec.getLsbD_zero.symm
      obtain ⟨i, hi, hrun, hset⟩ := lowBit_spec 5 (fun _ => isRun_low (by decide)) hbit
      rw [zero_add] at hrun
      rw [zero_add] at hset
      have hlow : lowBit [16, 8, 4, 2, 1] (BitVec.allOnes 32 >>> (blistBmapRadix / 2))
          (root.node scan).bmuBitmap 0 = i := hrun
      rw [hlow]
      refine leaf_take hg (isRun_one hi) h1 fun j hj hj' => ?_
      obtain rfl : j = i := by omega
      exact hset
    · rw [if_pos (show count ≤ blistBmapRadix from h32)]
      rcases leafScan_spec (root.node scan).bmuBitmap (blistBmapRadix - count + 1) 0
        (BitVec.allOnes 32 >>> (blistBmapRadix - count)) (isRun_low h32')
        (show 0 + (32 - count + 1) + count = 33 by omega)
        with ⟨j, m, hrun, hj, hmask, hset⟩ | ⟨hrun, hno⟩
      · rw [hrun]
        exact leaf_take hg hmask h1 hset
      · rw [hrun]
        refine leaf_fail hg (by omega) (fun n hn hr => ?_) (by omega) h1
        by_contra hlt
        obtain ⟨a, ha, hall⟩ := leafRun_zero (hr.le (by omega)) hcap h1
        exact hno a (zero_le _) (show a < 0 + (32 - count + 1) by omega) hall

/-! ## Meta nodes -/

/-- Nothing fits into any subtree. -/
theorem meta_fail (blk : ℕ) (hK : Kids root h scan cap) (hcap : cap ≤ treeRadix (h + 1))
    (hhint : 0 ≤ (root.node scan).bmBighint)
    (havail : (root.node scan).bmuAvail = freeCount (openFree root h scan) cap) (h1 : 0 < count)
    (hH : H → KidsHinted root h scan cap)
    (hno : H → ∀ j < 16, j * treeRadix h < cap →
      ¬ LeafRun (freeAt root h (kid h scan j)) (kidCap h cap j) count) :
    let root' := if (root.node scan).bmBighint ≥ count then root.setBighint scan (count - 1) else root
    AllocDone H (openFree root h scan) root root' (h + 1) scan blk cap count none := by
  intro root'
  obtain ⟨hother, hnode⟩ : Besides root root' scan ∧ _ := setBighint_if rfl
  have hhint' : 0 ≤ (root'.node scan).bmBighint := by
    rw [hnode]
    dsimp only
    split_ifs
    · omega
    · exact hhint
  have hopen : ∀ b < cap, openFree root' h scan b = openFree root h scan b := fun b hb =>
    openFree_setNode hother (hb.trans_le hcap)
  obtain ⟨hgood, hclose⟩ := (hK.setNode hother).close hcap hhint' (by
    rw [hnode, havail, freeCount_congr hopen])
  have hfree : ∀ b < cap, freeAt root' (h + 1) scan b = openFree root h scan b := fun b hb =>
    (hclose b hb).trans (hopen b hb)
  refine ⟨hother.outside _, ⟨hgood, fun _ => hfree, nofun⟩, fun hh => ?_⟩
  have hnone : ¬ LeafRun (openFree root h scan) cap count := by
    intro hr
    obtain ⟨k, hk, hlt, hrk⟩ := hr.exists_kid hcap h1
    exact hno hh k hk hlt hrk
  refine ⟨fun _ _ => (hH hh).setNode hother, fun _ => hnone, fun hbig n hn hr => ?_⟩
  have hr' := (leafRun_congr hfree).mp hr
  rw [hnode]
  dsimp only
  split_ifs
  · have hlt : n < count := by
      by_contra hge
      exact hnone (hr'.le (by omega))
    omega
  · exact hbig n hn hr'

/-- A subtree had room. -/
theorem meta_take (hK : Kids root h scan cap) (hcap : cap ≤ treeRadix (h + 1))
    (hhint : 0 ≤ (root.node scan).bmBighint)
    (havail : (root.node scan).bmuAvail = freeCount (openFree root h scan) cap) (hk : k < 16)
    (hlt : k * treeRadix h < cap) {root1 : BlTree} {r : ℕ}
    (hout : Outside root root1 h (kid h scan k))
    (hpost : AllocPost (freeAt root h (kid h scan k)) root1 h (kid h scan k)
      (blk + k * treeRadix h) (kidCap h cap k) count (some r)) (hH : H → KidsHinted root1 h scan cap) :
    let avail := (root1.node scan).bmuAvail - count
    let root2 := root1.setAvail scan avail
    let root' := if (root2.node scan).bmBighint > avail then root2.setBighint scan avail else root2
    AllocDone H (openFree root h scan) root root' (h + 1) scan blk cap count (some r) := by
  intro avail root2 root'
  obtain ⟨lo, hr, hlo, hwas, hnow⟩ := hpost.taken r rfl
  have hnode := hout.node hk
  have hopen1 := openFree_lift hcap hout (fun x y => x && !y) (fun x => by simp) lo count hlo hnow
  have hrange : k * treeRadix h + lo + count ≤ cap := by
    have hle : lo + count ≤ cap - k * treeRadix h := hlo.trans (min_le_right _ _)
    omega
  have hwas' : ∀ b, inRange (k * treeRadix h + lo) count b = true → openFree root h scan b = true := by
    intro b hb
    obtain ⟨h1, h2⟩ := inRange_iff.mp hb
    have hle := hlo.trans (kidCap_le h cap k)
    rw [show b = k * treeRadix h + (b - k * treeRadix h) by omega, openFree_kid (by omega)]
    exact hwas _ (inRange_iff.mpr (by omega))
  have hcount := freeCount_take hrange hwas' hopen1
  obtain ⟨hother, hnode'⟩ : Besides root2 root' scan ∧ _ := setBighint_if rfl
  rw [← min_def_lt, node_setAvail, hnode] at hnode'
  replace hother := (besides_set _).trans hother
  have hopen : ∀ b < cap, openFree root' h scan b =
      (openFree root h scan b && !inRange (k * treeRadix h + lo) count b) := fun b hb =>
    (openFree_setNode hother (hb.trans_le hcap)).trans (hopen1 b hb)
  have havail' : avail = freeCount (openFree root' h scan) cap := by
    show (root1.node scan).bmuAvail - count = _
    rw [hnode, havail, ← hcount, freeCount_congr hopen, freeCount_congr hopen1]
    push_cast
    ring
  have hK1 := hK.step hk hlt hout hpost.good
  obtain ⟨hgood, hclose⟩ := (hK1.setNode hother).close hcap
    (by rw [hnode', havail']; exact le_min (Int.natCast_nonneg _) hhint)
    (by rw [hnode']; exact havail')
  have hfree : ∀ b < cap, freeAt root' (h + 1) scan b =
      (openFree root h scan b && !inRange (k * treeRadix h + lo) count b) := fun b hb =>
    (hclose b hb).trans (hopen b hb)
  refine ⟨(hout.parent hk).trans (hother.outside _), ⟨hgood, nofun, fun r' hr' => ?_⟩, ?_⟩
  · refine ⟨k * treeRadix h + lo, ?_, hrange, hwas', hfree⟩
    rw [← Option.some.inj hr', hr, add_assoc]
  · intro hh
    refine ⟨fun _ _ => (hH hh).setNode hother, nofun, fun hbig n hn hrun => ?_⟩
    rw [hnode', le_min_iff]
    constructor
    · rw [havail', ← freeCount_congr hclose]
      exact_mod_cast hrun.le_freeCount hn
    · refine hbig n hn (hrun.mono fun b hb ht => ?_)
      rw [hfree b hb, Bool.and_eq_true] at ht
      exact ht.1

/-- **The search through the subtrees.** -/
theorem metaAllocLoop_spec (blk : ℕ) {sub : BlTree → ℕ → ℕ → Except BlPanic (Option ℕ × BlTree)}
    (hsub : AllocSpec h count sub) (h1 : 0 < count) (h32 : count ≤ blistMaxAlloc)
    (hcap : cap ≤ treeRadix (h + 1)) :
    ∀ (left k : ℕ) (root : BlTree), left + k = 16 → Kids root h scan cap →
      0 ≤ (root.node scan).bmBighint →
      (root.node scan).bmuAvail = freeCount (openFree root h scan) cap →
      (∀ j < k, j * treeRadix h < cap) → (H → KidsHinted root h scan cap) →
      (H → ∀ j < k, ¬ LeafRun (freeAt root h (kid h scan j)) (kidCap h cap j) count) →
      ∃ res root', metaAllocLoop sub scan count (treeRadix h) (treeSkip h + 1) left k root
          (blk + k * treeRadix h) = .ok (res, root') ∧
        AllocDone H (openFree root h scan) root root' (h + 1) scan blk cap count res := by
  intro left
  induction left with
  | zero =>
    intro k root hk hK hhint havail _ hH hno
    have hfail := meta_fail blk hK hcap hhint havail h1 hH fun hh j hj _ =>
      hno hh j (by omega)
    exact ⟨none, _, rfl, hfail⟩
  | succ left ih =>
    intro k root hk hK hhint havail hpresent hH hno
    have hk16 : k < 16 := by omega
    have hR := le_treeRadix h
    have h32' : count ≤ 32 := h32
    have hpresent' : k * treeRadix h < cap → ∀ j < k + 1, j * treeRadix h < cap := fun hlt =>
      forall_lt_succ_right.mpr ⟨hpresent, hlt⟩
    have hnext : blk + k * treeRadix h + treeRadix h = blk + (k + 1) * treeRadix h := by ring
    have hidx : scan + (k * (treeSkip h + 1) + 1) = kid h scan k := rfl
    simp only [metaAllocLoop, hidx]
    split
    · have hlt : k * treeRadix h < cap := by
        by_contra hge
        have := hK.term k hk16 (by omega) hpresent
        omega
      obtain ⟨res, root1, hrun, hout, hpost, hhints⟩ :=
        hsub root (kid h scan k) (blk + k * treeRadix h) _ (hK.good k hk16 hlt)
      have hH1 : H → KidsHinted root1 h scan cap := fun hh =>
        (hH hh).step hout ⟨(hhints (hH hh k hk16 hlt).2).big (hH hh k hk16 hlt).1,
          (hhints (hH hh k hk16 hlt).2).hinted⟩
      cases res with
      | some r =>
        have htake := meta_take hK hcap hhint havail hk16 hlt hout hpost hH1
        rw [hrun]
        exact ⟨some r, _, rfl, htake⟩
      | none =>
        have hsame : ∀ b < cap, openFree root1 h scan b = openFree root h scan b :=
          openFree_lift hcap hout (fun x _ => x) (fun _ => rfl) 0 0 (zero_le _) (hpost.failed rfl)
        have hnode := hout.node hk16
        obtain ⟨res, root', hrun', hout', hpost', hhints'⟩ := ih (k + 1) root1 (by omega)
          (hK.step hk16 hlt hout hpost.good) (hnode ▸ hhint)
          (by rw [hnode, havail, freeCount_congr hsame]) (hpresent' hlt) hH1 (fun hh j hj => by
            rcases Nat.lt_succ_iff_lt_or_eq.mp hj with hj | rfl
            · rw [leafRun_congr fun b hb => freeAt_congr (hout.agree (by omega))
                (hb.trans_le (kidCap_le ..))]
              exact hno hh j hj
            · rw [leafRun_congr (hpost.failed rfl)]
              exact (hhints (hH hh j hk16 hlt).2).complete rfl)
        rw [hrun]
        simp only [hnext]
        refine ⟨res, root', hrun', (hout.parent hk16).trans hout', hpost'.congr hsame, fun hh => ?_⟩
        have hhints'' := (hhints' hh).congr hsame
        rw [hnode] at hhints''
        exact hhints''
    · rename_i hsmall
      split
      · have hge : cap ≤ k * treeRadix h := by
          by_contra hlt
          have := hK.hint_nonneg hk16 (by omega)
          omega
        have hfail := meta_fail blk hK hcap hhint havail h1 hH fun hh j hj hjlt =>
          hno hh j (by
            by_contra hjk
            have : k * treeRadix h ≤ j * treeRadix h := mul_le_mul_right _ (by omega)
            omega)
        exact ⟨none, _, rfl, hfail⟩
      · rename_i hpos
        have hlt : k * treeRadix h < cap := by
          by_contra hge
          exact hpos (hK.term k hk16 (by omega) hpresent)
        rw [if_neg (by omega), hnext]
        refine ih (k + 1) root (by omega) hK hhint havail (hpresent' hlt) hH fun hh =>
          forall_lt_succ_right.mpr ⟨hno hh, ?_⟩
        exact fun hr => hsmall ((hH hh k hk16 hlt).1 count h1 hr)

/-! ## Subtrees -/

/-- The allocation in a subtree of height `h`. -/
def allocNode (count : ℕ) : ℕ → BlTree → ℕ → ℕ → Except BlPanic (Option ℕ × BlTree)
  | 0, root, scan, blk => .ok (blstLeafAlloc root scan blk count)
  | h + 1, root, scan, blk =>
    blstMetaAlloc (h + 1) root scan blk count (treeRadix (h + 1)) (treeSkip (h + 1))

/-- The choice between a leaf and a meta node in `blst_meta_alloc`. -/
theorem allocNode_eq (count h : ℕ) :
    (fun root i blk => if treeSkip h + 1 = 1 then .ok (blstLeafAlloc root i blk count)
      else blstMetaAlloc h root i blk count (treeRadix h) (treeSkip h + 1 - 1)) =
      allocNode count h := by
  funext root i blk
  cases h with
  | zero => rfl
  | succ h =>
    rfl

/-- **Allocation in a subtree.** -/
theorem allocNode_spec (h1 : 0 < count) (h32 : count ≤ blistMaxAlloc) (h : ℕ) :
    AllocSpec h count (allocNode count h) := by
  induction h with
  | zero => exact blstLeafAlloc_spec h1 h32
  | succ h ih =>
    intro root scan blk cap hg
    have hhint := hg.shape.hint_nonneg
    simp only [allocNode, blstMetaAlloc, treeSkip_div, treeRadix_div, allocNode_eq]
    by_cases h0 : (root.node scan).bmuAvail = 0
    · -- ALL-ALLOCATED: the hint goes up, which does no harm
      rw [if_pos h0]
      have hother : Besides root (root.setBighint scan count) scan := besides_set _
      have havail : ((root.setBighint scan count).node scan).bmuAvail = 0 := by
        rw [node_setBighint]
        exact h0
      have hshape : Shape (root.setBighint scan count) (h + 1) scan cap :=
        hg.shape.setNode (fun j hj _ => hother j hj.ne') (by
          rw [node_setBighint]
          exact Int.natCast_nonneg _)
      obtain ⟨hgood, hnone⟩ := hshape.allocated (absurd · (Nat.succ_ne_zero _)) fun _ => havail
      have hfree : ∀ b, freeAt root (h + 1) scan b = false := fun b => by rw [freeAt, if_pos h0]
      refine ⟨none, _, rfl, hother.outside _,
        ⟨hgood, fun _ b _ => (hnone b).trans (hfree b).symm, fun r h => (by cases h)⟩, fun _ =>
        ⟨hinted_of_collapsed fun _ => .inl havail,
          fun _ => not_leafRun_of_free (fun b _ => hfree b) h1,
          fun _ n hn hr => absurd hr (not_leafRun_of_free (fun b _ => hnone b) hn)⟩⟩
    · rw [if_neg h0]
      obtain ⟨hK, hH, hnode, hout, hopen⟩ := hg.open h0
      have havail := hg.live.1
      rw [← freeCount_congr hopen, ← hnode] at havail
      obtain ⟨res, root', hrun, hout', hpost, hhints⟩ :=
        metaAllocLoop_spec blk ih h1 h32 hg.shape.cap_le 16 0 _ rfl hK (by rw [hnode]; exact hhint)
          havail (fun j hj => absurd hj (not_lt_zero j)) hH
          (fun _ j hj => absurd hj (not_lt_zero j))
      rw [zero_mul] at hrun
      refine ⟨res, root', hrun, hout.trans hout', hpost.congr hopen, fun hh => ?_⟩
      rw [← hnode]
      exact (hhints hh).congr hopen

end FreeBSDSys.Blst
