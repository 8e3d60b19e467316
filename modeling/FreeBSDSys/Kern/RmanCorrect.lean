import FreeBSDSys.Kern.RmanReserve
import FreeBSDSys.Lib.Reachability

/-!
# Runs of the resource manager

The list stays in order in every run whose calls do not wrap around the end of the address space
and do not reserve a region that still has the flags of an earlier, shared use.

* `releaseMain_spec`, `releaseOther_spec`: a release keeps the units of the list.
* `reserve_spec`: what a call of `rman_reserve_resource_bound` does.
* `rman_invariant`, `exclusive_not_shared`: the runs, and what reservations may overlap.
* `reserve_as_requested`, `reserve_past_end`: the range of a reservation.
* `manage_any_order`, `manage_order_matters`: the order in which regions are added.
* `reserve_wraps_around`, `exclusive_gets_shared`: runs that do not meet the condition.
-/

namespace FreeBSDSys.Rman

open List Place Region Request Spans

/-! ## Releases -/

section Release

variable {p : Place} {rm rm' : List Region} {s : Region}

theorem mergeable_iff {adjacent : Bool} :
    mergeable s adjacent = true ↔ has s.main.rFlags rfAllocated = false ∧ adjacent = true := by
  simp [mergeable]

/-- The neighbour that a filter leaves. -/
theorem head_filter {l : List Region} {f : Region → Bool} (h : l.head?.filter f = some s) :
    ∃ rest, l = s :: rest ∧ f s = true := by
  obtain ⟨hhead, hf⟩ := Option.filter_eq_some_iff.mp h
  obtain ⟨rest, rfl⟩ := head?_eq_some_iff.mp hhead
  exact ⟨rest, rfl, hf⟩

/-- **The release of a region that is not shared** merges it with its free neighbours. -/
theorem releaseAlone_spec (h : RmOk p.regions) (hnil : p.here.others = []) :
    RmOk (releaseAlone p) ∧ cover lo hi (releaseAlone p) = cover lo hi p.regions := by
  obtain ⟨left, ⟨r, others⟩, right⟩ := p
  subst hnil
  -- free neighbours touch the region
  have hbehind : ∀ {s : Region}, s ∈ left → s.main.rEnd + 1 = r.rStart → hi s = lo ⟨r, []⟩ := by
    intro s hs hadj
    have hsr : hi s ≤ lo ⟨r, []⟩ :=
      (ordered_append.mp h.ordered).2.2 s (mem_reverse.mpr hs) ⟨r, []⟩ (by simp)
    simp only [lo, hi] at hsr ⊢
    bv_omega
  have hbefore : ∀ {t : Region}, t ∈ right → r.rEnd + 1 = t.main.rStart → hi ⟨r, []⟩ = lo t := by
    intro t ht hadj
    have hrt : hi ⟨r, []⟩ ≤ lo t :=
      (ordered_cons.mp (ordered_append.mp h.ordered).2.1).2.2 t ht
    simp only [lo, hi] at hrt ⊢
    bv_omega
  unfold releaseAlone
  simp only
  split
  · -- three regions become one
    rename_i s t hs ht
    obtain ⟨left, rfl, hback⟩ := head_filter hs
    obtain ⟨right, rfl, hnext⟩ := head_filter ht
    simp only [mergeable_iff, beq_iff_eq] at hback hnext
    have h' : RmOk (left.reverse ++ s :: ⟨r, []⟩ :: t :: right) := by
      simpa [regions] using h
    have hsok : ∀ e, RegionOk (s.setEnd e) := fun e => (h'.each s (by simp)).move hback.1 rfl
    obtain ⟨htwo, hcover⟩ := h'.joinTwo (hsok r.rEnd) rfl rfl (hbehind (by simp) hback.2)
    obtain ⟨hthree, hcover'⟩ := htwo.joinTwo (hsok t.main.rEnd) rfl rfl (hbefore (by simp) hnext.2)
    simpa [regions] using And.intro hthree (hcover'.trans hcover)
  · rename_i s hs ht
    obtain ⟨left, rfl, hback⟩ := head_filter hs
    simp only [mergeable_iff, beq_iff_eq] at hback
    have h' : RmOk (left.reverse ++ s :: ⟨r, []⟩ :: right) := by
      simpa [regions] using h
    have hjoin := h'.joinTwo (u := s.setEnd r.rEnd)
      ((h'.each s (by simp)).move hback.1 rfl) rfl rfl (hbehind (by simp) hback.2)
    simpa [regions] using hjoin
  · rename_i t hs ht
    obtain ⟨right, rfl, hnext⟩ := head_filter ht
    simp only [mergeable_iff, beq_iff_eq] at hnext
    have hjoin := h.joinTwo (u := t.setStart r.rStart)
      ((h.each t (by simp [regions])).move hnext.1 rfl) rfl rfl (hbefore (by simp) hnext.2)
    simpa [regions] using hjoin
  · exact RmOk.change h (regionOk_free (has_and_eq_false (by decide))) rfl rfl

/-- A sharing list with one member left goes away. -/
theorem dissolve_ok (main : ResourceI) (others : List ResourceI)
    (hall : has main.rFlags rfAllocated = true) (hreq : has main.req rfShare = true)
    (hfirst : has main.rFlags rfFirstshare = true) (hoth : ∀ r ∈ others, SharerOk main r) :
    RegionOk (dissolve ⟨main, others⟩) ∧ lo (dissolve ⟨main, others⟩) = lo ⟨main, others⟩ ∧
      hi (dissolve ⟨main, others⟩) = hi ⟨main, others⟩ := by
  unfold dissolve
  split_ifs with hnil
  · obtain rfl : others = [] := isEmpty_iff.mp hnil
    exact ⟨⟨fun _ => rfl, by simp [setFlags], by simp [setFlags], fun _ _ => hreq,
      by simp [setFlags]⟩, rfl, rfl⟩
  · exact ⟨⟨by simp [hall], fun _ => hfirst, fun _ => hreq, fun _ _ => hreq, hoth⟩, rfl, rfl⟩

/-- **The release of the record on `rm_list`.** -/
theorem releaseMain_spec (h : RmOk p.regions) :
    ∃ rm', releaseMain p = some rm' ∧ RmOk rm' ∧ cover lo hi rm' = cover lo hi p.regions := by
  have hhere : RegionOk p.here := h.each _ (by simp [regions])
  obtain ⟨r, hr, hsame⟩ : ∃ r, r = (if has p.here.main.rFlags rfActive then
      intRmanDeactivateResource p.here.main else p.here.main) ∧ Same p.here.main r := by
    refine ⟨_, rfl, ?_⟩
    split
    · exact same_deactivate _
    · exact Same.refl _
  unfold releaseMain
  simp only [← hr]
  split
  · rename_i hnil
    have hmain : RegionOk ⟨p.here.main, []⟩ := hnil ▸ hhere
    obtain ⟨hok, hcover⟩ := h.change (hmain.same hsame) (by simp [lo, hsame.start])
      (by simp [hi, hsame.stop])
    obtain ⟨hok', hcover'⟩ := releaseAlone_spec hok rfl
    exact ⟨_, rfl, hok', hcover'.trans hcover⟩
  · rename_i s others hoth
    have hne : p.here.others ≠ [] := by simp [hoth]
    rw [hsame.first, if_pos (hhere.first hne)]
    have hs : SharerOk p.here.main s := hhere.others s (by simp [hoth])
    obtain ⟨hok, hlo, hhi⟩ := dissolve_ok { s with rFlags := s.rFlags ||| rfFirstshare } others
      (by simp [hs.allocated]) hs.req
      (by simp [show has rfFirstshare rfFirstshare = true by decide]) (fun t ht => by
        have ht' := hhere.others t (by simp [hoth, ht])
        exact ⟨ht'.start.trans hs.start.symm, ht'.stop.trans hs.stop.symm, ht'.req, ht'.allocated,
          ht'.notFirst⟩)
    obtain ⟨hok', hcover⟩ := h.change hok (hlo.trans (by simp [lo, hs.start]))
      (hhi.trans (by simp [hi, hs.stop]))
    exact ⟨_, rfl, hok', hcover⟩

/-- **The release of another record of a sharing list.** -/
theorem releaseOther_spec (main : ResourceI) (before : List ResourceI) (r : ResourceI)
    (after : List ResourceI) (h : RmOk p.regions) (hhere : p.here = ⟨main, before ++ r :: after⟩) :
    ∃ s, releaseOther main before r after = some s ∧ RmOk { p with here := s }.regions ∧
      cover lo hi { p with here := s }.regions = cover lo hi p.regions := by
  have hok : RegionOk ⟨main, before ++ r :: after⟩ := hhere ▸ h.each _ (by simp [regions])
  have hr : SharerOk main r := hok.others r (by simp)
  have hnotFirst : has (if has r.rFlags rfActive then intRmanDeactivateResource r else r).rFlags
      rfFirstshare = false := by
    split
    · exact (same_deactivate r).first.trans hr.notFirst
    · exact hr.notFirst
  have hall : has main.rFlags rfAllocated = true := by
    by_contra hf
    simpa using hok.free (by simpa using hf)
  obtain ⟨hok', hlo, hhi⟩ := dissolve_ok main (before ++ after) hall (hok.shared (by simp))
    (hok.first (by simp)) (fun t ht => hok.others t (by
      simp only [mem_append] at ht ⊢
      tauto))
  obtain ⟨hok'', hcover⟩ := h.change hok' (hlo.trans (by simp [lo, hhere]))
    (hhi.trans (by simp [hi, hhere]))
  exact ⟨_, by simp [releaseOther, hnotFirst], hok'', hcover⟩

end Release

/-! ## Reservations -/

section Reserve

variable {q : Request} {rm rm' : List Region} {p : Place} {rv : ResourceI}

theorem skipBelow_spec (start : ULong) (left right : List Region) :
    (skipBelow start left right).1.reverse ++ (skipBelow start left right).2 =
      left.reverse ++ right := by
  induction right generalizing left with
  | nil => rfl
  | cons r right ih =>
    rw [skipBelow]
    split
    · rw [ih]
      simp
    · rfl

/-- The range of a granted reservation: inside a free region, or that of a region which allows
sharing. -/
def Granted (rm : List Region) (rv : ResourceI) : Prop :=
  (∃ s ∈ rm, has s.main.rFlags rfAllocated = false ∧ s.main.rStart ≤ rv.rStart ∧
      rv.rStart ≤ rv.rEnd ∧ rv.rEnd ≤ s.main.rEnd) ∨
    ∃ s ∈ rm, has s.main.rFlags rfAllocated = true ∧ has s.main.rFlags rfShare = true ∧
      rv.rStart = s.main.rStart ∧ rv.rEnd = s.main.rEnd

/-- What holds after a call. -/
def ReserveResult.Keeps (rm : List Region) : ReserveResult → Prop
  | .granted rv rm' => RmOk rm' ∧ cover lo hi rm' = cover lo hi rm ∧ Granted rm rv
  | .refused rm' => RmOk rm' ∧ cover lo hi rm' = cover lo hi rm
  | .hangs => True
  | .corrupted => False

theorem outMain_keeps (h : RmOk p.regions) (hcover : cover lo hi p.regions = cover lo hi rm)
    (hgrant : Granted rm p.here.main) : (q.outMain p).Keeps rm := by
  unfold outMain
  split
  · split
    · rename_i rv hact
      have hsame := same_activate hact
      obtain ⟨hok, hcover'⟩ := h.changeMain hsame
      refine ⟨hok, hcover'.trans hcover, ?_⟩
      simpa only [Granted, hsame.start, hsame.stop] using hgrant
    · obtain ⟨rm', hrel, hok, hcover'⟩ := releaseMain_spec h
      rw [hrel]
      exact ⟨hok, hcover'.trans hcover⟩
  · exact ⟨h, hcover, hgrant⟩

theorem outShared_keeps {others : List ResourceI} (h : RmOk p.regions)
    (hcover : cover lo hi p.regions = cover lo hi rm) (hoth : p.here.others = rv :: others)
    (hgrant : Granted rm rv) : (q.outShared p).Keeps rm := by
  unfold outShared
  rw [hoth]
  simp only
  split
  · split
    · rename_i rv' hact
      have hsame := same_activate hact
      obtain ⟨hok', hcover'⟩ := h.changeOther (hoth.trans (nil_append _).symm) hsame
      refine ⟨hok', hcover'.trans hcover, ?_⟩
      simpa only [Granted, hsame.start, hsame.stop] using hgrant
    · obtain ⟨s, hrel, hok, hcover'⟩ := releaseOther_spec p.here.main [] rv others h
        (by rw [nil_append, ← hoth])
      rw [hrel]
      exact ⟨hok, hcover'.trans hcover⟩
  · exact ⟨h, hcover, hgrant⟩

theorem outMain_range (h : q.outMain p = .granted rv rm') :
    rv.rStart = p.here.main.rStart ∧ rv.rEnd = p.here.main.rEnd := by
  unfold outMain at h
  split at h
  · split at h
    · rename_i hact
      cases h
      exact ⟨(same_activate hact).start, (same_activate hact).stop⟩
    · split at h <;> cases h
  · cases h
    exact ⟨rfl, rfl⟩

theorem outShared_range {r : ResourceI} {others : List ResourceI} (hoth : p.here.others = r :: others)
    (h : q.outShared p = .granted rv rm') : rv.rStart = r.rStart ∧ rv.rEnd = r.rEnd := by
  unfold outShared at h
  rw [hoth] at h
  simp only at h
  split at h
  · split at h
    · rename_i hact
      cases h
      exact ⟨(same_activate hact).start, (same_activate hact).stop⟩
    · split at h <;> cases h
  · cases h
    exact ⟨rfl, rfl⟩

section

variable (fuel : ℕ) (h : RmOk rm) (hq : q.PowBound) (hpos : q.count ≠ 0) (hwrap : q.NoWrap rm)
  (hstale : ∀ s ∈ rm, has s.main.rFlags rfAllocated = false → q.NotStale s)

include h hq hpos hwrap hstale

/-- What a call comes to: a free region, a region to share, or neither. -/
theorem reserve_cases :
    (∃ p, rmanReserveResourceBound fuel rm q = q.outMain p ∧ RmOk p.regions ∧
      cover lo hi p.regions = cover lo hi rm ∧ ∃ s ∈ rm, has s.main.rFlags rfAllocated = false ∧
        s.main.rStart ≤ p.here.main.rStart ∧ p.here.main.rEnd ≤ s.main.rEnd ∧
        q.Meets p.here.main) ∨
    (∃ p r others, rmanReserveResourceBound fuel rm q = q.outShared p ∧ RmOk p.regions ∧
      cover lo hi p.regions = cover lo hi rm ∧ p.here.others = r :: others ∧
      ∃ s ∈ rm, has s.main.rFlags rfAllocated = true ∧ has s.main.rFlags rfShare = true ∧
        r.rStart = s.main.rStart ∧ r.rEnd = s.main.rEnd ∧ q.fits s.main = true) ∨
    rmanReserveResourceBound fuel rm q = .refused rm ∨
    rmanReserveResourceBound fuel rm q = .hangs := by
  have hsplit := skipBelow_spec q.start [] rm
  unfold rmanReserveResourceBound
  generalize skipBelow q.start [] rm = lr at *
  obtain ⟨left, right⟩ := lr
  simp only [reverse_nil, nil_append] at hsplit ⊢
  have hmem : ∀ s ∈ right, s ∈ rm := fun s hs => hsplit ▸ mem_append_right _ hs
  have hrm : RmOk (left.reverse ++ right) := by rwa [hsplit]
  split
  · rename_i p hfound
    obtain ⟨hok, hcover, s, hs, hrest⟩ := firstFit_spec hrm hq hpos
      ⟨hwrap.count_le, fun s hs => hwrap.room s (hmem s hs)⟩
      (fun s hs => hstale s (hmem s hs)) hfound
    exact .inl ⟨p, rfl, hok, hsplit ▸ hcover, s, hmem s hs, hrest⟩
  · exact .inr (.inr (.inl rfl))
  · exact .inr (.inr (.inr rfl))
  · rename_i hexh
    split_ifs with hshare
    · split
      · rename_i p hfound
        obtain ⟨s, l, r, hregs, hs, hflags, hfit, rfl⟩ := shareFit_found hfound
        have hall := firstFit_exhausted hrm hpos hexh hs hfit
        have hsflags := has_of_and_eq hflags hshare
        rw [has_keep _ (by decide)] at hshare
        have hsok := h.each s (hmem s hs)
        obtain ⟨hok, hlo, hhi, rv, others, hoth, hstart, hstop⟩ := join_ok hsok hall hsflags hshare
        have hregs' : RmOk (mk l s r).regions := hregs ▸ hrm
        obtain ⟨hok', hcover⟩ := hregs'.change hok hlo hhi
        rw [← hregs, hsplit] at hcover
        exact .inr (.inl ⟨_, rv, others, rfl, hok', hcover, hoth, s, hmem s hs, hall, hsflags,
          hstart, hstop, hfit⟩)
      · exact .inr (.inr (.inl rfl))
    · exact .inr (.inr (.inl rfl))

/-- **A reservation** keeps the invariant and the units of the list. -/
theorem reserve_spec : (rmanReserveResourceBound fuel rm q).Keeps rm := by
  obtain ⟨p, hrun, hok, hcover, s, hs, hfree, hstart, hstop, hmeets⟩ |
    ⟨p, r, others, hrun, hok, hcover, hoth, s, hs, hall, hshare, hstart, hstop, -⟩ | hrun | hrun :=
    reserve_cases fuel h hq hpos hwrap hstale
  · have hsize := hmeets.size
    rw [hrun]
    exact outMain_keeps hok hcover (.inl ⟨s, hs, hfree, hstart, by bv_omega, hstop⟩)
  · rw [hrun]
    exact outShared_keeps hok hcover hoth (.inr ⟨s, hs, hall, hshare, hstart, hstop⟩)
  · rw [hrun]
    exact ⟨h, rfl⟩
  · rw [hrun]
    trivial

/-- The range of a granted reservation is as requested. -/
theorem reserve_meets (hrun : rmanReserveResourceBound fuel rm q = .granted rv rm')
    (hend : ∀ s ∈ rm, has s.main.rFlags rfAllocated = false → s.main.rEnd ≤ q.stop) :
    q.Meets rv ∧ rv.rEnd ≤ q.stop := by
  obtain ⟨p, hout, -, -, s, hs, hfree, -, hstop, hmeets⟩ |
    ⟨p, r, others, hout, -, -, hoth, s, hs, -, -, hstart, hstop, hfit⟩ | hout | hout :=
    reserve_cases fuel h hq hpos hwrap hstale
  · obtain ⟨h1, h2⟩ := outMain_range (hout.symm.trans hrun)
    exact ⟨hmeets.of_range h1 h2, h2 ▸ BitVec.le_trans hstop (hend s hs hfree)⟩
  · obtain ⟨h1, h2⟩ := outShared_range hoth (hout.symm.trans hrun)
    have hlt := h.lt hs
    simp only [lo, hi] at hlt
    obtain ⟨hmeets, hle⟩ := meets_of_fits hq hfit (by bv_omega) hpos
    rw [← hstop, ← h2] at hle
    exact ⟨hmeets.of_range (h1.trans hstart) (h2.trans hstop), hle⟩
  · cases hout.symm.trans hrun
  · cases hout.symm.trans hrun

end

end Reserve

/-! ## Live reservations -/

/-- The reservations of a region. -/
def Region.holders (s : Region) : List ResourceI :=
  if has s.main.rFlags rfAllocated then s.main :: s.others else []

/-- The reservations that were granted and not released. -/
def live (rm : List Region) : List ResourceI := rm.flatMap holders

/-- Two records with a common unit. -/
def Overlap (r r' : ResourceI) : Prop := r.rStart ≤ r'.rEnd ∧ r'.rStart ≤ r.rEnd

instance (r r' : ResourceI) : Decidable (Overlap r r') := inferInstanceAs (Decidable (_ ∧ _))

/-- Two reservations that were both made for sharing, of the same range. -/
structure Shared (r r' : ResourceI) : Prop where
  left : has r.req rfShare = true
  right : has r'.req rfShare = true
  start : r.rStart = r'.rStart
  stop : r.rEnd = r'.rEnd

section Live

variable {rm : List Region} {s : Region} {r : ResourceI}

theorem RegionOk.range (h : RegionOk s) (hr : r ∈ s.holders) :
    r.rStart = s.main.rStart ∧ r.rEnd = s.main.rEnd := by
  unfold holders at hr
  split at hr
  · obtain rfl | hr := mem_cons.mp hr
    · exact ⟨rfl, rfl⟩
    · exact ⟨(h.others r hr).start, (h.others r hr).stop⟩
  · simp at hr

theorem RegionOk.share (h : RegionOk s) (hall : has s.main.rFlags rfAllocated = true)
    (hflag : has s.main.rFlags rfShare = true) (hr : r ∈ s.holders) : has r.req rfShare = true := by
  rw [holders, if_pos hall] at hr
  obtain rfl | hr := mem_cons.mp hr
  · exact h.stale hall hflag
  · exact (h.others r hr).req

/-- **Overlapping reservations** of a list in order are shared. -/
theorem RmOk.live_shared (h : RmOk rm) :
    (live rm).Pairwise fun r r' => Overlap r r' → Shared r r' := by
  refine pairwise_flatMap.mpr ⟨fun s hs => ?_, ?_⟩
  · have hok := h.each s hs
    unfold holders
    split
    · refine pairwise_cons.mpr ⟨fun r hr _ => ?_, ?_⟩
      · have hoth := hok.others r hr
        exact ⟨hok.shared (ne_nil_of_mem hr), hoth.req, hoth.start.symm, hoth.stop.symm⟩
      · refine Pairwise.imp_of_mem (R := fun _ _ => True) ?_ (pairwise_of_forall (by simp))
        intro r r' hr hr' _ _
        have hoth := hok.others r hr
        have hoth' := hok.others r' hr'
        exact ⟨hoth.req, hoth'.req, hoth.start.trans hoth'.start.symm,
          hoth.stop.trans hoth'.stop.symm⟩
    · exact Pairwise.nil
  · refine h.ordered.apart.imp_of_mem fun {s t} hs ht hle r hr r' hr' hov => ?_
    obtain ⟨hstart, hstop⟩ := (h.each s hs).range hr
    obtain ⟨hstart', hstop'⟩ := (h.each t ht).range hr'
    simp only [Overlap, lo, hi] at *
    bv_omega

/-- A granted reservation meets no reservation that was made for one client. -/
theorem RmOk.granted_apart {rv : ResourceI} (h : RmOk rm) (hg : Granted rm rv) (hr : r ∈ live rm)
    (hex : has r.req rfShare = false) : ¬ Overlap rv r := by
  obtain ⟨t, ht, hrt⟩ := mem_flatMap.mp hr
  obtain ⟨hstart, hstop⟩ := (h.each t ht).range hrt
  have hall : has t.main.rFlags rfAllocated = true := by
    by_contra hf
    simp [holders, hf] at hrt
  -- the region of the reservation is another one
  have hapart : ∀ s ∈ rm, s ≠ t → hi s ≤ lo t ∨ hi t ≤ lo s := by
    intro s hs hne
    obtain ⟨l, r, rfl⟩ := append_of_mem hs
    obtain ⟨-, hsr, hlr⟩ := ordered_append.mp h.ordered
    simp only [mem_append, mem_cons] at ht
    obtain ht | rfl | ht := ht
    · exact .inr (hlr t ht s (by simp))
    · exact absurd rfl hne
    · exact .inl ((ordered_cons.mp hsr).2.2 t ht)
  intro hov
  obtain ⟨s, hs, hfree, hs1, hs2, hs3⟩ | ⟨s, hs, hsall, hflag, hs1, hs2⟩ := hg
  · have hne : s ≠ t := by
      rintro rfl
      rw [hfree] at hall
      exact absurd hall (by simp)
    have hcase := hapart s hs hne
    simp only [Overlap, lo, hi] at *
    bv_omega
  · by_cases hst : s = t
    · subst hst
      have hshare := (h.each s hs).share hsall hflag hrt
      rw [hex] at hshare
      exact absurd hshare (by simp)
    · have hcase := hapart s hs hst
      simp only [Overlap, lo, hi] at *
      bv_omega

end Live

/-! ## Runs -/

/-- The calls whose arguments matter. -/
inductive Call where
  | manage (start stop : ULong)
  | reserve (q : Request)

/-- The condition on a call: nothing wraps around, and an exclusive request does not get a region
with flags left over from sharing. -/
def Safe (rm : List Region) : Call → Prop
  | .manage start stop => start ≤ stop ∧ ¬ ManageWraps rm start
  | .reserve q => q.NoWrap rm ∧
      ∀ s ∈ rm, has s.main.rFlags rfAllocated = false → q.NotStale s

/-- The calls on a manager, as far as they return, with the set of the managed units.  Reservations
are activated, deactivated and released only while they are live. -/
inductive RmStep (may : List Region → Call → Prop) :
    List Region × Set ℕ → List Region × Set ℕ → Prop
  | manage (rm rm' : List Region) (units : Set ℕ) (start stop : ULong)
      (hmay : may rm (.manage start stop))
      (hrun : rmanManageRegion true rm start stop = .done rm') :
      RmStep may (rm, units) (rm', units ∪ Set.Icc start.toNat stop.toNat)
  | granted (rm rm' : List Region) (units : Set ℕ) (q : Request) (fuel : ℕ) (rv : ResourceI)
      (hq : q.PowBound) (hpos : q.count ≠ 0) (hmay : may rm (.reserve q))
      (hrun : rmanReserveResourceBound fuel rm q = .granted rv rm') :
      RmStep may (rm, units) (rm', units)
  | refused (rm rm' : List Region) (units : Set ℕ) (q : Request) (fuel : ℕ) (hq : q.PowBound)
      (hpos : q.count ≠ 0) (hmay : may rm (.reserve q))
      (hrun : rmanReserveResourceBound fuel rm q = .refused rm') :
      RmStep may (rm, units) (rm', units)
  | activateMain (p : Place) (units : Set ℕ) (r : ResourceI)
      (hall : has p.here.main.rFlags rfAllocated = true)
      (hrun : intRmanActivateResource p.here.main p.here.others = some r) :
      RmStep may (p.regions, units) ({ p with here := { p.here with main := r } }.regions, units)
  | activateOther (p : Place) (units : Set ℕ) (before after : List ResourceI) (r r' : ResourceI)
      (hoth : p.here.others = before ++ r :: after)
      (hrun : intRmanActivateResource r (p.here.main :: (before ++ after)) = some r') :
      RmStep may (p.regions, units)
        ({ p with here := { p.here with others := before ++ r' :: after } }.regions, units)
  | deactivateMain (p : Place) (units : Set ℕ)
      (hall : has p.here.main.rFlags rfAllocated = true) :
      RmStep may (p.regions, units) ({ p with here :=
          { p.here with main := intRmanDeactivateResource p.here.main } }.regions, units)
  | deactivateOther (p : Place) (units : Set ℕ) (before after : List ResourceI) (r : ResourceI)
      (hoth : p.here.others = before ++ r :: after) :
      RmStep may (p.regions, units) ({ p with here :=
          { p.here with others := before ++ intRmanDeactivateResource r :: after } }.regions, units)
  | releaseMain (p : Place) (units : Set ℕ) (rm' : List Region)
      (hall : has p.here.main.rFlags rfAllocated = true) (hrun : releaseMain p = some rm') :
      RmStep may (p.regions, units) (rm', units)
  | releaseOther (p : Place) (units : Set ℕ) (before after : List ResourceI) (r : ResourceI)
      (s : Region) (hoth : p.here.others = before ++ r :: after)
      (hrun : releaseOther p.here.main before r after = some s) :
      RmStep may (p.regions, units) ({ p with here := s }.regions, units)

section Run

variable {rm : List Region} {units : Set ℕ}

/-- **Every safe call keeps the invariant** and the managed units. -/
theorem RmStep.keeps {st st' : List Region × Set ℕ} (hs : RmStep Safe st st')
    (h : RmOk st.1 ∧ cover lo hi st.1 = st.2) : RmOk st'.1 ∧ cover lo hi st'.1 = st'.2 := by
  obtain ⟨hok, hunits⟩ := h
  cases hs with
  | manage rm rm' units start stop hmay hrun =>
    have hwalk : manageWalk ⟨start, stop, 0, 0⟩ rm = some rm' := by
      unfold rmanManageRegion at hrun
      split at hrun
      · simp at hrun
      · split at hrun
        · cases hrun
          assumption
        · simp at hrun
    obtain ⟨hok', hcover⟩ := manageWalk_spec (l := []) (r := ⟨start, stop, 0, 0⟩) hok hmay.1 rfl
      (by simp) hmay.2 hwalk
    refine ⟨hok', hcover.trans ?_⟩
    congr 1
    ext x
    simp only [mem_span, lo, hi, Set.mem_Icc]
    omega
  | granted rm rm' units q fuel rv hq hpos hmay hrun =>
    have hkeep := reserve_spec fuel hok hq hpos hmay.1 hmay.2
    rw [hrun] at hkeep
    exact ⟨hkeep.1, hkeep.2.1.trans hunits⟩
  | refused rm rm' units q fuel hq hpos hmay hrun =>
    have hkeep := reserve_spec fuel hok hq hpos hmay.1 hmay.2
    rw [hrun] at hkeep
    exact ⟨hkeep.1, hkeep.2.trans hunits⟩
  | activateMain p units r hall hrun =>
    obtain ⟨hok', hcover⟩ := hok.changeMain (same_activate hrun)
    exact ⟨hok', hcover.trans hunits⟩
  | activateOther p units before after r r' hoth hrun =>
    obtain ⟨hok', hcover⟩ := hok.changeOther hoth (same_activate hrun)
    exact ⟨hok', hcover.trans hunits⟩
  | deactivateMain p units hall =>
    obtain ⟨hok', hcover⟩ := hok.changeMain (same_deactivate p.here.main)
    exact ⟨hok', hcover.trans hunits⟩
  | deactivateOther p units before after r hoth =>
    obtain ⟨hok', hcover⟩ := hok.changeOther hoth (same_deactivate r)
    exact ⟨hok', hcover.trans hunits⟩
  | releaseMain p units rm' hall hrun =>
    obtain ⟨rm'', hrel, hok', hcover⟩ := releaseMain_spec hok
    rw [hrun] at hrel
    cases hrel
    exact ⟨hok', hcover.trans hunits⟩
  | releaseOther p units before after r s hoth hrun =>
    obtain ⟨s', hrel, hok', hcover⟩ := releaseOther_spec p.here.main before r
      after hok (by rw [← hoth])
    rw [hrun] at hrel
    cases hrel
    exact ⟨hok', hcover.trans hunits⟩

theorem reachable_ok (h : Reachable (· = ([], ∅)) (RmStep Safe) (rm, units)) :
    RmOk rm ∧ cover lo hi rm = units :=
  Reachable.invariant (I := fun st => RmOk st.1 ∧ cover lo hi st.1 = st.2)
    (by rintro _ rfl; exact ⟨.nil, cover_nil⟩) (fun _ _ hst hs => hs.keeps hst) h

/-- **The list of a resource manager.**  In every run of safe calls the regions are in order and
do not meet, they cover exactly the managed units, and two live reservations overlap only if both
were made for sharing and have the same range. -/
theorem rman_invariant (h : Reachable (· = ([], ∅)) (RmStep Safe) (rm, units)) :
    Ordered lo hi rm ∧ cover lo hi rm = units ∧
      (live rm).Pairwise fun r r' => Overlap r r' → Shared r r' := by
  obtain ⟨hok, hcover⟩ := reachable_ok h
  exact ⟨hok.ordered, hcover, hok.live_shared⟩

/-- **An exclusive reservation is not shared.**  In every run of safe calls, a reservation that is
granted does not overlap a live one that was made for one client. -/
theorem exclusive_not_shared {rm' : List Region} {q : Request} {fuel : ℕ} {r rv : ResourceI}
    (h : Reachable (· = ([], ∅)) (RmStep Safe) (rm, units)) (hq : q.PowBound) (hpos : q.count ≠ 0)
    (hsafe : Safe rm (.reserve q)) (hrun : rmanReserveResourceBound fuel rm q = .granted rv rm')
    (hr : r ∈ live rm) (hex : has r.req rfShare = false) : ¬ Overlap rv r := by
  obtain ⟨hok, -⟩ := reachable_ok h
  have hkeep := reserve_spec fuel hok hq hpos hsafe.1 hsafe.2
  rw [hrun] at hkeep
  exact hok.granted_apart hkeep.2.2 hr hex

end Run

/-! ## The order in which regions are added -/

/-- The list after a call of `rman_manage_region`, and whether `rm_mtx` is held: the returns with
`EBUSY` are in the locked section. -/
def ManageResult.after (rm : List Region) : ManageResult → List Region × Bool
  | .done rm' => (rm', false)
  | .enomem => (rm, false)
  | .ebusy => (rm, true)

/-- Regions are added one after the other, `none` when a call does not succeed. -/
def manageAll (rm : List Region) : List (ULong × ULong) → Option (List Region)
  | [] => some rm
  | x :: l =>
      match rmanManageRegion true rm x.1 x.2 with
      | .done rm' => manageAll rm' l
      | _ => none

/-- Two ranges that neither meet nor touch.  For the code the last address and zero touch. -/
def Gap (x y : ULong × ULong) : Prop :=
  (x.2 < y.1 ∨ y.2 < x.1) ∧ x.2 + 1 ≠ y.1 ∧ y.2 + 1 ≠ x.1

/-- A region that was added. -/
def added (x : ULong × ULong) : Region := ⟨⟨x.1, x.2, 0, 0⟩, []⟩

def Region.ends (s : Region) : ULong × ULong := (s.main.rStart, s.main.rEnd)

section Order

variable {rm : List Region} {x : ULong × ULong} {l l' : List (ULong × ULong)}

theorem Gap.symm {x y : ULong × ULong} (h : Gap x y) : Gap y x := ⟨h.1.symm, h.2.2, h.2.1⟩

/-- A region that touches no other is put into its place. -/
theorem manageWalk_gap (h : Ordered lo hi rm) (hx : x.1 ≤ x.2) (hgap : ∀ s ∈ rm, Gap x s.ends) :
    ∃ a b, rm = a ++ b ∧ manageWalk (added x).main rm = some (a ++ added x :: b) ∧
      (∀ s ∈ a, hi s ≤ lo (added x)) ∧ ∀ s ∈ b, hi (added x) ≤ lo s := by
  induction rm with
  | nil => exact ⟨[], [], rfl, rfl, by simp, by simp⟩
  | cons s rest ih =>
    obtain ⟨hs, hrest, hsr⟩ := ordered_cons.mp h
    simp only [lo, hi] at hs hsr
    obtain ⟨hapart, hne, hne'⟩ := hgap s mem_cons_self
    simp only [ends] at hapart hne hne'
    rw [manageWalk]
    obtain hlt | hlt := hapart
    · -- before `s`, and so before all that follow
      have hall : ∀ t ∈ s :: rest, x.2 < t.main.rStart := by
        refine forall_mem_cons.mpr ⟨hlt, fun t ht => ?_⟩
        have := hsr t ht
        bv_omega
      have hge : ¬ s.main.rEnd < x.1 := by bv_omega
      have hbeside : manageBeside (added x).main s rest = added x :: s :: rest :=
        (if_neg fun hc => hne' hc.1).trans (if_neg hge)
      have hno : ∀ t ∈ s :: rest, overlaps (added x).main t.main = false := fun t ht =>
        not_overlaps_iff.mpr (.inr (hall t ht))
      have hstop : s.main.rEnd = ulongMax ∨ s.main.rEnd + 1 ≥ x.1 := by
        rw [eq_ulongMax_iff]
        bv_omega
      refine ⟨[], s :: rest, rfl, ?_, by simp, fun t ht => ?_⟩
      · refine (if_pos hstop).trans ?_
        cases rest with
        | nil => simp [manageAt, hno s mem_cons_self, hbeside]
        | cons t rest =>
          have hnt : (added x).main.rEnd + 1 ≠ t.main.rStart := (hgap t (by simp)).2.1
          rw [manageAt, hno s mem_cons_self, hno t (by simp)]
          simp only [Bool.false_eq_true, if_false]
          rw [if_pos (.inl hnt), hbeside]
          rfl
      · have := hall t ht
        simp only [lo, hi, added]
        bv_omega
    · obtain ⟨a, b, rfl, hrun, ha, hb⟩ := ih hrest fun t ht => hgap t (mem_cons_of_mem _ ht)
      have hgo : ¬ (s.main.rEnd = ulongMax ∨ s.main.rEnd + 1 ≥ x.1) := by
        rw [eq_ulongMax_iff]
        bv_omega
      refine ⟨s :: a, b, rfl, ?_, forall_mem_cons.mpr ⟨?_, ha⟩, hb⟩
      · exact (if_neg hgo).trans (congrArg (Option.map (s :: ·)) hrun)
      · simp only [lo, hi, added]
        bv_omega

theorem manageAll_spec (h : Ordered lo hi rm) (hle : ∀ x ∈ l, x.1 ≤ x.2) (hgap : l.Pairwise Gap)
    (hfree : ∀ x ∈ l, ∀ s ∈ rm, Gap x s.ends) : ∃ rm', manageAll rm l = some rm' ∧
      Ordered lo hi rm' ∧ rm'.Perm (l.map added ++ rm) := by
  induction l generalizing rm with
  | nil => exact ⟨rm, rfl, h, .refl _⟩
  | cons x l ih =>
    obtain ⟨hxl, hgap⟩ := pairwise_cons.mp hgap
    have hx := hle x mem_cons_self
    obtain ⟨a, b, rfl, hrun, ha, hb⟩ := manageWalk_gap h hx (hfree x mem_cons_self)
    have hlt : lo (added x) < hi (added x) := by
      simp only [lo, hi, added]
      bv_omega
    obtain ⟨rm', hrun', hord, hperm⟩ := ih (h.insert hlt ha hb)
      (fun y hy => hle y (mem_cons_of_mem _ hy)) hgap fun y hy s hs => by
        simp only [mem_append, mem_cons] at hs
        obtain hs | rfl | hs := hs
        · exact hfree y (mem_cons_of_mem _ hy) s (by simp [hs])
        · exact (hxl y hy).symm
        · exact hfree y (mem_cons_of_mem _ hy) s (by simp [hs])
    refine ⟨rm', ?_, hord, hperm.trans ?_⟩
    · have hcall : rmanManageRegion true (a ++ b) x.1 x.2 = .done (a ++ added x :: b) := by
        simp only [rmanManageRegion, show ResourceI.mk x.1 x.2 0 0 = (added x).main from rfl, hrun]
        rfl
      rw [manageAll, hcall]
      exact hrun'
    · rw [← append_assoc, map_cons, cons_append, ← append_assoc]
      exact perm_middle

end Order

/-! ## Runs on fixed calls -/

section Examples

/-- A request for `count` units in `[start, stop]`, with enough memory and no bound. -/
def plain (start stop count : ULong) (flags : BitVec 32) : Request :=
  ⟨start, stop, count, 0, flags, true, true⟩

theorem plain_powBound (start stop count : ULong) (flags : BitVec 32) :
    (plain start stop count flags).PowBound := .inl rfl

/-- A manager of ten units. -/
def tenUnits : List Region := [⟨⟨0, 9, 0, 0⟩, []⟩]

/-- Ten units, of which the first four are reserved. -/
def fourOfTen : List Region := [⟨⟨0, 3, rfAllocated, 0⟩, []⟩, ⟨⟨4, 9, 0, 0⟩, []⟩]

theorem tenUnits_reachable {may : List Region → Call → Prop} (hmay : may [] (.manage 0 9)) :
    Reachable (· = ([], ∅)) (RmStep may) (tenUnits, ∅ ∪ Set.Icc 0 9) := by
  have h0 : Reachable (· = ([], ∅)) (RmStep may) ([], ∅) := .of_init rfl
  exact h0.tail (RmStep.manage [] tenUnits ∅ 0 9 hmay rfl)

theorem manage_ten_safe : Safe [] (.manage 0 9) := by
  refine ⟨by decide, ?_⟩
  rintro ⟨-, s, hs, -⟩
  simp at hs

theorem reserve_four_safe : Safe tenUnits (.reserve (plain 0 9 4 0)) := by
  refine ⟨⟨.inl rfl, ?_⟩, ?_⟩
  · decide
  · simp only [tenUnits, mem_singleton, forall_eq]
    exact fun _ _ _ => rfl

theorem fourOfTen_reachable : Reachable (· = ([], ∅)) (RmStep Safe) (fourOfTen, ∅ ∪ Set.Icc 0 9) :=
  (tenUnits_reachable manage_ten_safe).tail
    (RmStep.granted tenUnits fourOfTen _ (plain 0 9 4 0) 1 ⟨0, 3, rfAllocated, 0⟩
      (plain_powBound _ _ _ _) (by decide) reserve_four_safe (by decide +kernel))

theorem rman_invariant_four : Ordered lo hi fourOfTen ∧ cover lo hi fourOfTen = ∅ ∪ Set.Icc 0 9 ∧
      (live fourOfTen).Pairwise fun r r' => Overlap r r' → Shared r r' :=
  rman_invariant fourOfTen_reachable

theorem reserve_two_safe : Safe fourOfTen (.reserve (plain 0 9 2 rfShareable)) := by
  refine ⟨⟨.inl rfl, ?_⟩, fun s _ _ hex => absurd hex (by decide)⟩
  decide

theorem reserve_two : rmanReserveResourceBound 1 fourOfTen (plain 0 9 2 rfShareable) =
    .granted ⟨4, 5, rfShareable ||| rfAllocated, rfShareable⟩ [⟨⟨0, 3, rfAllocated, 0⟩, []⟩,
      ⟨⟨4, 5, rfShareable ||| rfAllocated, rfShareable⟩, []⟩, ⟨⟨6, 9, 0, 0⟩, []⟩] := by
  decide +kernel

theorem exclusive_not_shared_four :
    ¬ Overlap ⟨4, 5, rfShareable ||| rfAllocated, rfShareable⟩ ⟨0, 3, rfAllocated, 0⟩ :=
  exclusive_not_shared fourOfTen_reachable (plain_powBound _ _ _ _) (by decide) reserve_two_safe
    reserve_two (by decide) (by decide)

/-- The last page of the address space but its first byte. -/
def lastPage : ResourceI := ⟨0xfffffffffffff001, ulongMax, 0, 0⟩

/-- A request for one unit of the last page, aligned to a page: rounding up the start wraps around
to zero, and the unit is taken from the reservation there. -/
theorem reserve_wraps_around :
    ∃ rm units r r', Reachable (· = ([], ∅)) (RmStep fun _ _ => True) (rm, units) ∧
      [r, r'].Sublist (live rm) ∧ Overlap r r' ∧ has r.req rfShare = false ∧
      has r'.req rfShare = false := by
  have h1 : Reachable (· = ([], ∅)) (RmStep fun _ _ => True) (tenUnits, ∅ ∪ Set.Icc 0 9) :=
    tenUnits_reachable trivial
  have h2 := h1.tail (RmStep.manage tenUnits (tenUnits ++ [⟨lastPage, []⟩]) _ lastPage.rStart ulongMax
    trivial (by decide +kernel))
  have h3 := h2.tail (RmStep.granted _ [⟨⟨0, 9, rfAllocated, 0⟩, []⟩, ⟨lastPage, []⟩] _
    (plain 0 9 10 0) 1 ⟨0, 9, rfAllocated, 0⟩ (plain_powBound _ _ _ _) (by decide) trivial
    (by decide +kernel))
  have h4 := h3.tail (RmStep.granted _ [⟨⟨0, 9, rfAllocated, 0⟩, []⟩, ⟨lastPage, []⟩,
    ⟨⟨0, 0, 0x3001, 0x3000⟩, []⟩] _ (plain lastPage.rStart 0xfffffffffffffffe 1 0x3000) 1
    ⟨0, 0, 0x3001, 0x3000⟩ (plain_powBound _ _ _ _) (by decide) trivial (by decide +kernel))
  exact ⟨_, _, ⟨0, 9, rfAllocated, 0⟩, ⟨0, 0, 0x3001, 0x3000⟩, h4, by decide +kernel, by decide,
    by decide, by decide⟩

/-- The ten units are reserved for sharing and released, then reserved for one client: the region
still has the flag, and a second client gets a share of it. -/
theorem exclusive_gets_shared :
    ∃ rm rm' units fuel q r rv, Reachable (· = ([], ∅)) (RmStep fun _ _ => True) (rm, units) ∧
      r ∈ live rm ∧ has r.req rfShare = false ∧
      rmanReserveResourceBound fuel rm q = .granted rv rm' ∧ has q.flags rfShare = true ∧
      Overlap rv r := by
  have h1 : Reachable (· = ([], ∅)) (RmStep fun _ _ => True) (tenUnits, ∅ ∪ Set.Icc 0 9) :=
    tenUnits_reachable trivial
  have h2 := h1.tail (RmStep.granted _ [⟨⟨0, 9, 5, rfShareable⟩, []⟩] _ (plain 0 9 10 rfShareable) 1
    ⟨0, 9, 5, rfShareable⟩ (plain_powBound _ _ _ _) (by decide) trivial (by decide +kernel))
  have h3 := h2.tail (RmStep.releaseMain ⟨[], ⟨⟨0, 9, 5, rfShareable⟩, []⟩, []⟩ _
    [⟨⟨0, 9, 4, rfShareable⟩, []⟩] (by decide) (by decide +kernel))
  have h4 := h3.tail (RmStep.granted _ [⟨⟨0, 9, 5, 0⟩, []⟩] _ (plain 0 9 10 0) 1 ⟨0, 9, 5, 0⟩
    (plain_powBound _ _ _ _) (by decide) trivial (by decide +kernel))
  exact ⟨_, [⟨⟨0, 9, 0x25, 0⟩, [⟨0, 9, 5, rfShareable⟩]⟩], _, 1, plain 0 9 10 rfShareable,
    ⟨0, 9, 5, 0⟩, ⟨0, 9, 5, rfShareable⟩, h4, by decide, by decide, by decide +kernel, by decide,
    by decide⟩

end Examples

end FreeBSDSys.Rman
