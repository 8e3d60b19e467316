import FreeBSDSys.Kern.Rman
import FreeBSDSys.Lib.Spans
import FreeBSDSys.Lib.Rounding

/-!
# The invariant of the resource manager

The regions of `rm_list` are in order and do not meet, records that share a region cover the same
range, and a region that is reserved for one client has none of the flags that allow sharing.
Managing, reserving and releasing replace a few neighbours of the list by others that cover the
same units, so everything rests on `Spans.Ordered.replace`.

* `RmOk`: the invariant.
* `manageWalk_spec`, `Request.take_spec`, `Request.join_ok`, `releaseAlone_spec`: the list after
  each operation.
* `Request.adjust_spec`: the adjustment of a start moves up, if nothing can wrap around.
-/

namespace FreeBSDSys.Rman

open List Spans Nat

/-! ## Flags -/

section Flags

variable {a b m : BitVec 32}

@[simp] theorem has_or : has (a ||| b) m = (has a m || has b m) := by
  have hdistrib : (a ||| b) &&& m = (a &&& m) ||| (b &&& m) := by
    ext i hi
    simp [Bool.and_or_distrib_right]
  rw [Bool.eq_iff_iff]
  simp only [has, hdistrib, bne_iff_ne, Bool.or_eq_true]
  exact BitVec.or_eq_zero_iff.not.trans not_and_or

@[simp] theorem has_zero : has 0#32 m = false := by simp [has]

theorem has_and_not (h : ~~~b &&& m = m) : has (a &&& ~~~b) m = has a m := by
  rw [has, BitVec.and_assoc, h, ← has]

theorem has_and (h : b &&& m = m) : has (a &&& b) m = has a m := by
  rw [has, BitVec.and_assoc, h, ← has]

theorem has_and_eq_false (h : b &&& m = 0) : has (a &&& b) m = false := by
  rw [has, BitVec.and_assoc, h]
  simp

/-- A record with all the flags of a request has its flags for sharing. -/
theorem has_of_and_eq (h : a &&& b = b) (hb : has b m = true) : has a m = true := by
  rw [has, bne_iff_ne] at hb ⊢
  intro h0
  refine hb ?_
  rw [← h, BitVec.and_comm a b, BitVec.and_assoc, h0]
  simp

end Flags

theorem eq_ulongMax_iff {x : ULong} : x = ulongMax ↔ x.toNat = 18446744073709551615 := by
  rw [← BitVec.toNat_inj]
  rfl

/-! ## The invariant -/

/-- The first unit of a region. -/
def lo (s : Region) : ℕ := s.main.rStart.toNat

/-- The unit after a region. -/
def hi (s : Region) : ℕ := s.main.rEnd.toNat + 1

/-- A record that shares the region of `main`. -/
structure SharerOk (main r : ResourceI) : Prop where
  start : r.rStart = main.rStart
  stop : r.rEnd = main.rEnd
  req : has r.req rfShare = true
  allocated : has r.rFlags rfAllocated = true
  notFirst : has r.rFlags rfFirstshare = false

/-- The records of a region.  A region that several clients share was reserved for sharing by all
of them, and so was a reserved region with a flag that allows sharing. -/
structure RegionOk (s : Region) : Prop where
  free : has s.main.rFlags rfAllocated = false → s.others = []
  first : s.others ≠ [] → has s.main.rFlags rfFirstshare = true
  shared : s.others ≠ [] → has s.main.req rfShare = true
  stale : has s.main.rFlags rfAllocated = true → has s.main.rFlags rfShare = true →
    has s.main.req rfShare = true
  others : ∀ r ∈ s.others, SharerOk s.main r

/-- **The invariant** of `rm_list`. -/
structure RmOk (rm : List Region) : Prop where
  ordered : Ordered lo hi rm
  each : ∀ s ∈ rm, RegionOk s

/-- A region that nobody has reserved. -/
theorem regionOk_free {main : ResourceI} (h : has main.rFlags rfAllocated = false) :
    RegionOk ⟨main, []⟩ :=
  ⟨fun _ => rfl, by simp, by simp, by simp [h], by simp⟩

/-- A free region stays one when its ends move. -/
theorem RegionOk.move {s : Region} {main : ResourceI} (h : RegionOk s)
    (hfree : has s.main.rFlags rfAllocated = false) (hflags : main.rFlags = s.main.rFlags) :
    RegionOk ⟨main, s.others⟩ := by
  rw [h.free hfree]
  exact regionOk_free (hflags ▸ hfree)

section List

variable {rm l m r : List Region} {s u : Region}

theorem RmOk.nil : RmOk [] := ⟨.nil, by simp⟩

/-- Neighbours are replaced by regions that cover the same units. -/
theorem RmOk.replace {m' : List Region} (h : RmOk (l ++ (m ++ r))) (hord : Ordered lo hi m')
    (hcover : cover lo hi m' = cover lo hi m) (heach : ∀ s ∈ m', RegionOk s) :
    RmOk (l ++ (m' ++ r)) ∧ cover lo hi (l ++ (m' ++ r)) = cover lo hi (l ++ (m ++ r)) := by
  have hordered := h.ordered
  rw [← append_assoc] at hordered
  refine ⟨⟨?_, fun s hs => ?_⟩, by simp [hcover]⟩
  · rw [← append_assoc]
    exact hordered.replace hord hcover.subset
  · simp only [mem_append] at hs
    obtain hs | hs | hs := hs
    · exact h.each s (by simp [hs])
    · exact heach s hs
    · exact h.each s (by simp [hs])

/-- Neighbours that touch become one region. -/
theorem RmOk.join (h : RmOk (l ++ (m ++ r))) (hu : RegionOk u) (hlt : lo u < hi u)
    (hcover : span lo hi u = cover lo hi m) :
    RmOk (l ++ u :: r) ∧ cover lo hi (l ++ u :: r) = cover lo hi (l ++ (m ++ r)) := by
  have hord : Ordered lo hi [u] := ordered_singleton.mpr hlt
  exact h.replace hord (by simpa using hcover) (by simpa using hu)

theorem RmOk.lt (h : RmOk rm) (hs : s ∈ rm) : lo s < hi s := h.ordered.nonempty s hs

theorem RmOk.joinTwo {t : Region} (h : RmOk (l ++ s :: t :: r)) (hu : RegionOk u)
    (hlo : lo u = lo s) (hhi : hi u = hi t) (hadj : hi s = lo t) :
    RmOk (l ++ u :: r) ∧ cover lo hi (l ++ u :: r) = cover lo hi (l ++ s :: t :: r) := by
  have hs := h.lt (s := s) (by simp)
  have ht := h.lt (s := t) (by simp)
  refine RmOk.join (m := [s, t]) h hu (by omega) ?_
  ext x
  simp only [cover_cons, cover_nil, Set.union_empty, Set.mem_union, mem_span]
  omega

end List

/-! ## `rman_manage_region` -/

section Manage

variable {r : ResourceI} {s : Region} {l rest rm rm' : List Region}

theorem not_overlaps_iff {r s : ResourceI} :
    overlaps r s = false ↔ s.rEnd < r.rStart ∨ r.rEnd < s.rStart := by
  rw [overlaps, Bool.and_eq_false_iff]
  simp

/-- The new region lies right behind `s`. -/
theorem manageAt_behind (h : RmOk (l ++ s :: ⟨r, []⟩ :: rest)) (hr : r.rStart ≤ r.rEnd)
    (hadj : s.main.rEnd.toNat + 1 = r.rStart.toNat) (hrun : manageAt r s rest = some rm') :
    RmOk (l ++ rm') ∧ cover lo hi (l ++ rm') = cover lo hi (l ++ s :: ⟨r, []⟩ :: rest) := by
  have hlt : s.main.rEnd < r.rStart := by bv_omega
  have hbeside : RmOk (l ++ manageBeside r s rest) ∧ cover lo hi (l ++ manageBeside r s rest) =
      cover lo hi (l ++ s :: ⟨r, []⟩ :: rest) := by
    unfold manageBeside
    split_ifs with hmerge
    · exact h.joinTwo ((h.each s (by simp)).move (by simp [hmerge.2]) rfl) rfl rfl hadj
    · exact ⟨h, rfl⟩
  unfold manageAt at hrun
  split at hrun
  · simp at hrun
  · split at hrun
    · cases hrun
      exact hbeside
    · rename_i t rest'
      split at hrun
      · simp at hrun
      · split at hrun
        · cases hrun
          exact hbeside
        · rename_i hnot
          simp only [not_or, not_not] at hnot
          have hrt : r.rEnd.toNat < t.main.rStart.toNat := by
            have hor := (ordered_append.mp h.ordered).2.1
            have := (ordered_cons.mp (ordered_cons.mp hor).2.1).2.2 t (by simp)
            simp only [lo, hi] at this
            omega
          have hadj' : r.rEnd.toNat + 1 = t.main.rStart.toNat := by bv_omega
          split_ifs at hrun with hmerge
          · cases hrun
            have hsok : ∀ e, RegionOk (s.setEnd e) := fun e =>
              (h.each s (by simp)).move (by simp [hmerge.2]) rfl
            obtain ⟨htwo, hcover⟩ := h.joinTwo (hsok r.rEnd) rfl rfl hadj
            obtain ⟨hthree, hcover'⟩ := htwo.joinTwo (hsok t.main.rEnd) rfl rfl hadj'
            exact ⟨hthree, hcover'.trans hcover⟩
          · cases hrun
            have h' : RmOk ((l ++ [s]) ++ ⟨r, []⟩ :: t :: rest') := by simpa using h
            have hjoin := h'.joinTwo (u := t.setStart r.rStart)
              ((h.each t (by simp)).move (by simp [hnot.2]) rfl) rfl rfl hadj'
            simpa using hjoin

/-- The new region lies before `s`. -/
theorem manageAt_before (h : RmOk (l ++ s :: rest)) (hr : r.rStart ≤ r.rEnd)
    (hlt : r.rEnd < s.main.rStart) (hwrap : s.main.rEnd + 1 ≠ r.rStart ∨ s.main.rFlags ≠ 0)
    (hrun : manageAt r s rest = some rm') : rm' = ⟨r, []⟩ :: s :: rest := by
  have hs : lo s < hi s := h.lt (by simp)
  simp only [lo, hi] at hs
  have hbeside : manageBeside r s rest = ⟨r, []⟩ :: s :: rest := by
    unfold manageBeside
    rw [if_neg (by tauto), if_neg (by bv_omega)]
  unfold manageAt at hrun
  split at hrun
  · simp at hrun
  · split at hrun
    · cases hrun
      exact hbeside
    · rename_i t rest'
      have hst : hi s ≤ lo t := (ordered_cons.mp (ordered_append.mp h.ordered).2.1).2.2 t (by simp)
      simp only [lo, hi] at hst
      split at hrun
      · simp at hrun
      · split at hrun
        · cases hrun
          exact hbeside
        · rename_i hnot
          simp only [not_or] at hnot
          bv_omega

/-- A region at address zero beside a free region that ends at `ULONG_MAX`: the test for touching
regions wraps around. -/
def ManageWraps (rm : List Region) (start : ULong) : Prop :=
  start = 0 ∧ ∃ s, rm = [s] ∧ s.main.rEnd = ulongMax ∧ s.main.rFlags = 0

/-- **`rman_manage_region`** adds the units of the new region. -/
theorem manageWalk_spec (h : RmOk (l ++ rm)) (hr : r.rStart ≤ r.rEnd) (hflags : r.rFlags = 0)
    (hl : ∀ b ∈ l, hi b ≤ r.rStart.toNat) (hwrap : ¬ ManageWraps (l ++ rm) r.rStart)
    (hrun : manageWalk r rm = some rm') :
    RmOk (l ++ rm') ∧ cover lo hi (l ++ rm') = cover lo hi (l ++ rm) ∪ span lo hi ⟨r, []⟩ := by
  have hnew : RegionOk ⟨r, []⟩ := regionOk_free (by simp [hflags])
  have hlt : lo ⟨r, []⟩ < hi ⟨r, []⟩ := by
    simp only [lo, hi]
    bv_omega
  -- the new region in a gap of the list
  have hinsert : ∀ a b : List Region, RmOk (a ++ b) → (∀ x ∈ a, hi x ≤ r.rStart.toNat) →
      (∀ x ∈ b, r.rEnd.toNat + 1 ≤ lo x) → RmOk (a ++ ⟨r, []⟩ :: b) ∧
      cover lo hi (a ++ ⟨r, []⟩ :: b) = cover lo hi (a ++ b) ∪ span lo hi ⟨r, []⟩ := by
    intro a b hab ha hb
    refine ⟨⟨hab.ordered.insert hlt ha hb, fun x hx => ?_⟩, ?_⟩
    · simp only [mem_append, mem_cons] at hx
      obtain hx | rfl | hx := hx
      · exact hab.each x (by simp [hx])
      · exact hnew
      · exact hab.each x (by simp [hx])
    · simp only [cover_append, cover_cons]
      rw [Set.union_left_comm, Set.union_comm (span lo hi _)]
  induction rm generalizing l rm' with
  | nil =>
    cases hrun
    simpa using hinsert l [] (by simpa using h) hl (by simp)
  | cons s rest ih =>
    have hs : lo s < hi s := h.lt (by simp)
    have hsrest : ∀ t ∈ rest, hi s ≤ lo t :=
      (ordered_cons.mp (ordered_append.mp h.ordered).2.1).2.2
    have hls : RmOk ((l ++ [s]) ++ rest) := by simpa using h
    rw [manageWalk] at hrun
    split_ifs at hrun with hadj
    · have hno : overlaps r s.main = false := by
        by_contra hov
        simp [manageAt, hov] at hrun
      obtain hbehind | hbefore := not_overlaps_iff.mp hno
      · -- the new region touches the end of `s`
        have hadj' : s.main.rEnd.toNat + 1 = r.rStart.toNat := by
          obtain hmax | hge := hadj
          · rw [eq_ulongMax_iff] at hmax
            bv_omega
          · bv_omega
        have hrest : ∀ x ∈ rest, r.rEnd.toNat + 1 ≤ lo x := by
          cases rest with
          | nil => simp
          | cons t rest =>
            have hnt : overlaps r t.main = false := by
              by_contra hov
              simp [manageAt, hov] at hrun
            have hst := hsrest t (by simp)
            have htt : lo t < hi t := h.lt (by simp)
            simp only [lo, hi] at hst htt
            have hrt : r.rEnd.toNat + 1 ≤ lo t := by
              simp only [lo]
              obtain h' | h' := not_overlaps_iff.mp hnt <;> bv_omega
            have htrest : ∀ x ∈ rest, hi t ≤ lo x :=
              (ordered_cons.mp (ordered_append.mp hls.ordered).2.1).2.2
            refine forall_mem_cons.mpr ⟨hrt, fun x hx => ?_⟩
            have := htrest x hx
            simp only [lo, hi] at this hrt ⊢
            omega
        obtain ⟨hok, hcover⟩ := hinsert (l ++ [s]) rest hls (fun x hx => by
          obtain hx | hx := mem_append.mp hx
          · exact hl x hx
          · obtain rfl := mem_singleton.mp hx
            exact hadj'.le) hrest
        have hbase : RmOk (l ++ s :: ⟨r, []⟩ :: rest) := by simpa using hok
        have hmerge := manageAt_behind hbase hr hadj' hrun
        exact ⟨hmerge.1, hmerge.2.trans (by simpa using hcover)⟩
      · have hnowrap : s.main.rEnd + 1 ≠ r.rStart ∨ s.main.rFlags ≠ 0 := by
          by_contra hbad
          simp only [not_or, not_not] at hbad
          simp only [lo, hi] at hs
          have hmax : s.main.rEnd = ulongMax := by
            rw [eq_ulongMax_iff]
            bv_omega
          have hzero : r.rStart = 0 := by rw [← hbad.1, hmax]; rfl
          have hnil : l = [] := by
            cases l with
            | nil => rfl
            | cons b l =>
              have hb := hl b (by simp)
              simp [hzero, hi] at hb
          have hrest : rest = [] := by
            cases rest with
            | nil => rfl
            | cons t rest =>
              have := hsrest t (by simp)
              simp only [lo, hi] at this
              bv_omega
          exact hwrap ⟨hzero, s, by simp [hnil, hrest], hmax, hbad.2⟩
        rw [manageAt_before h hr hbefore hnowrap hrun]
        refine hinsert l (s :: rest) h hl (forall_mem_cons.mpr ⟨?_, fun x hx => ?_⟩)
        · simp only [lo]
          bv_omega
        · have := hsrest x hx
          simp only [lo] at this hs ⊢
          bv_omega
    · obtain ⟨rm1, hrun1, rfl⟩ := Option.map_eq_some_iff.mp hrun
      rw [eq_ulongMax_iff] at hadj
      have := ih hls (fun b hb => ?_) (by simpa using hwrap) hrun1
      · simpa using this
      · obtain hb | hb := mem_append.mp hb
        · exact hl b hb
        · obtain rfl := mem_singleton.mp hb
          simp only [hi]
          bv_omega

end Manage

/-! ## The adjustment of the start -/

namespace Request

open Rounding

variable {q : Request} {s : ResourceI} {x y : ULong}

theorem rfAlignment_lt (flags : BitVec 32) : rfAlignment flags < 64 := by
  have hle : (flags &&& rfAlignmentMask).toNat ≤ 0xfc00 := and_le_right
  rw [rfAlignment, BitVec.toNat_ushiftRight]
  omega

theorem toNat_amask (q : Request) : q.amask.toNat = 2 ^ rfAlignment q.keep - 1 := by
  have hlt := rfAlignment_lt q.keep
  have hpow : 2 ^ rfAlignment q.keep < 2 ^ 64 := Nat.pow_lt_pow_right (by omega) hlt
  have hshift : ((1 : ULong) <<< rfAlignment q.keep).toNat = 2 ^ rfAlignment q.keep := by
    rw [BitVec.toNat_shiftLeft, shiftLeft_eq]
    simpa using mod_eq_of_lt hpow
  exact toNat_sub_one hshift

/-- Powers of two, or zero. -/
def PowBound (q : Request) : Prop := q.bound = 0 ∨ ∃ b < 64, q.bound.toNat = 2 ^ b

/-- The larger of the alignment and the bound. -/
def grain (q : Request) : ℕ := max (2 ^ rfAlignment q.keep) q.bound.toNat

/-- Everything below the last block of the address space has a multiple of the grain above it. -/
theorem grain_dvd (hq : q.PowBound) {a : ℕ}
    (ha : 2 ^ a = 2 ^ rfAlignment q.keep ∨ 2 ^ a = q.bound.toNat) :
    ∃ k, 2 ^ 64 = k * 2 ^ a + q.grain := by
  have hlt := rfAlignment_lt q.keep
  obtain ⟨c, hc, hgrain⟩ : ∃ c ≤ 64, q.grain = 2 ^ c := by
    obtain h0 | ⟨b, hb, hbound⟩ := hq
    · refine ⟨rfAlignment q.keep, hlt.le, ?_⟩
      simp [grain, h0]
    · obtain hab | hab := le_total (rfAlignment q.keep) b
      · refine ⟨b, hb.le, ?_⟩
        rw [grain, hbound, max_eq_right (Nat.pow_le_pow_right (by omega) hab)]
      · refine ⟨rfAlignment q.keep, hlt.le, ?_⟩
        rw [grain, hbound, max_eq_left (Nat.pow_le_pow_right (by omega) hab)]
  have hle : 2 ^ a ≤ 2 ^ c := by
    rw [← hgrain, grain]
    obtain ha | ha := ha <;> omega
  have hac : a ≤ c := (Nat.pow_le_pow_iff_right (by omega)).mp hle
  refine ⟨2 ^ (64 - a) - 2 ^ (c - a), ?_⟩
  rw [Nat.sub_mul, ← pow_add, ← pow_add, hgrain, Nat.sub_add_cancel (hac.trans hc),
    Nat.sub_add_cancel hac, Nat.sub_add_cancel (Nat.pow_le_pow_right (by omega) hc)]

theorem block_of_bmask (hq : q.PowBound) (h : (x ^^^ y) &&& q.bmask = 0) (hne : q.bound ≠ 0) :
    x.toNat / q.bound.toNat = y.toNat / q.bound.toNat := by
  obtain ⟨b, -, hb⟩ := hq.resolve_left hne
  rw [hb]
  exact (xor_and_not_mask_eq_zero (toNat_sub_one hb)).mp h

/-- Units from a multiple of the bound on lie in one block. -/
theorem fits_block {b : ℕ} {r : ULong} (hbound : q.bound.toNat = 2 ^ b)
    (hcount : q.count.toNat ≤ 2 ^ b) (hpos : q.count ≠ 0) (hr : 2 ^ b ∣ r.toNat)
    (hlt : r.toNat + q.count.toNat ≤ 2 ^ 64) : (r ^^^ (r + q.count - 1)) &&& q.bmask = 0 := by
  refine (xor_and_not_mask_eq_zero (toNat_sub_one hbound)).mpr ?_
  have hBpos : 0 < 2 ^ b := Nat.two_pow_pos b
  have hlast : (r + q.count - 1).toNat = r.toNat + q.count.toNat - 1 := by bv_omega
  have : q.count.toNat ≠ 0 := by simpa [← BitVec.toNat_inj] using hpos
  obtain ⟨d, hd⟩ := hr
  rw [hlast, hd, Nat.mul_div_cancel_left _ hBpos]
  symm
  rw [Nat.div_eq_iff hBpos]
  constructor <;> rw [mul_comm d] <;> omega

section

variable (hq : q.PowBound) (hcount : q.bound = 0 ∨ q.count ≤ q.bound) (hpos : q.count ≠ 0)

include hq hcount hpos

/-- One round of the adjustment goes up to a place that will do, if the grain fits above the
start. -/
theorem adjustOnce_spec (hx : x.toNat + q.grain ≤ 2 ^ 64) :
    x ≤ q.adjustOnce x ∧ 2 ^ rfAlignment q.keep ∣ (q.adjustOnce x).toNat ∧
      (q.adjustOnce x ^^^ (q.adjustOnce x + q.count - 1)) &&& q.bmask = 0 := by
  have hmask := q.toNat_amask
  have hA : 2 ^ rfAlignment q.keep ≤ q.grain := le_max_left _ _
  obtain ⟨k, hk⟩ := grain_dvd hq (.inl rfl)
  have hround := toNat_add_and_not_mask hmask (x := x) (by omega)
  have hle := le_roundUp (rfAlignment q.keep) x.toNat
  have hup : roundUp (rfAlignment q.keep) x.toNat ≤ k * 2 ^ rfAlignment q.keep :=
    roundUp_le (by omega)
  have hdvd : 2 ^ rfAlignment q.keep ∣ roundUp (rfAlignment q.keep) x.toNat :=
    Nat.dvd_mul_left ..
  unfold adjustOnce
  generalize (x + q.amask) &&& ~~~q.amask = r at hround
  rw [← hround] at hle hup hdvd
  simp only
  split_ifs with hcross
  · obtain h0 | ⟨b, hb, hbound⟩ := hq
    · simp [bmask, h0] at hcross
    · have hBpos : 0 < 2 ^ b := Nat.two_pow_pos b
      have hcount' : q.count.toNat ≤ 2 ^ b := by
        obtain h0 | hle := hcount
        · simp [h0] at hbound
          omega
        · exact hbound ▸ BitVec.le_def.mp hle
      have hB : 2 ^ b ≤ q.grain := by
        rw [← hbound]
        exact le_max_right _ _
      obtain ⟨k', hk'⟩ := grain_dvd (.inr ⟨b, hb, hbound⟩) (.inr hbound.symm)
      -- a start on a multiple of the bound does not cross the next one
      have hmod : r.toNat % 2 ^ b ≠ 0 := fun h0 =>
        hcross (fits_block hbound hcount' hpos (Nat.dvd_of_mod_eq_zero h0) (by omega))
      have hAb : rfAlignment q.keep ≤ b := by
        by_contra hgt
        exact hmod (Nat.mod_eq_zero_of_dvd ((Nat.pow_dvd_pow 2 (not_le.mp hgt).le).trans hdvd))
      have hlow : (r &&& ~~~q.bmask).toNat = r.toNat % 2 ^ b := by
        rw [bmask, BitVec.not_not]
        exact toNat_and_mask (toNat_sub_one hbound)
      have hdiv := div_add_mod r.toNat (2 ^ b)
      have hblock : r.toNat / 2 ^ b + 1 ≤ k' := by
        rw [succ_le_iff, div_lt_iff_lt_mul hBpos]
        by_contra hge
        have : r.toNat = k' * 2 ^ b := by omega
        exact hmod (by rw [this, mul_mod_left])
      have hnext : 2 ^ b * (r.toNat / 2 ^ b + 1) ≤ k' * 2 ^ b := by
        rw [mul_comm k']
        exact mul_le_mul_left _ hblock
      have hsum : (r + (q.bound - (r &&& ~~~q.bmask))).toNat = 2 ^ b * (r.toNat / 2 ^ b + 1) := by
        rw [mul_succ] at hnext ⊢
        bv_omega
      have hup' : 2 ^ b ∣ (r + (q.bound - (r &&& ~~~q.bmask))).toNat := ⟨_, hsum⟩
      refine ⟨?_, (Nat.pow_dvd_pow 2 hAb).trans hup', fits_block hbound hcount' hpos hup' (by omega)⟩
      rw [BitVec.le_def, hsum, mul_succ]
      have := mod_lt r.toNat hBpos
      omega
  · exact ⟨BitVec.le_def.mpr (by omega), hdvd, not_not.mp hcross⟩

/-- **The adjustment** moves the start up to a place that will do. -/
theorem adjust_spec {fuel : ℕ} (hx : x.toNat + q.grain ≤ 2 ^ 64) (h : q.adjust s fuel x = some y) :
    x ≤ y ∧ 2 ^ rfAlignment q.keep ∣ y.toNat ∧ (y ^^^ (y + q.count - 1)) &&& q.bmask = 0 := by
  cases fuel with
  | zero => simp [adjust] at h
  | succ fuel =>
    have hspec := adjustOnce_spec hq hcount hpos hx
    have hmask : q.adjustOnce x &&& q.amask = 0 := by
      refine BitVec.eq_of_toNat_eq ?_
      rw [toNat_and_mask q.toNat_amask]
      exact Nat.mod_eq_zero_of_dvd hspec.2.1
    simp only [adjust, hmask, ne_eq, not_true, false_and, if_false] at h
    cases h
    exact hspec

end

end Request

end FreeBSDSys.Rman
