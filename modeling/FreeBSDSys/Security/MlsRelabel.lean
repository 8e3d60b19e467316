import FreeBSDSys.Security.Mls

/-!
# Relabelling of credentials under multi-level security

A request carries an effective element, a range or both; `mls_cred_check_relabel` checks what the
request carries, and `mls_copy` stores it part by part.  A new range is compared with the old one,
and a new effective element with the old range and with a new range of the same request.  A new
range that comes alone is not compared with the effective element that stays.

* `mls_relabel`: along every run of accepted requests of an unprivileged subject the ranges shrink,
  and the effective element stays in the range as long as no request moves the range away from it.
* `mls_relabel_leaves_range`: a request that does.
-/

namespace FreeBSDSys.Mls

/-! ## The source -/

/-- `MAC_MLS_FLAGS_BOTH` -/
def macMlsFlagsBoth : Finset MmFlag := {.effective, .range}

/-- `mls_atmostflags` -/
def mlsAtmostflags (mm : MacMls) (flags : Finset MmFlag) : Except MlsError Unit :=
  if mm.mmFlags ∩ flags ≠ mm.mmFlags then .error .einval else .ok ()

/-- `mls_contains_equal` -/
def mlsContainsEqual (mm : MacMls) : Bool :=
  if .effective ∈ mm.mmFlags ∧ mm.mmEffective.mmeType = .equal then true
  else if .range ∈ mm.mmFlags ∧
      (mm.mmRangelow.mmeType = .equal ∨ mm.mmRangehigh.mmeType = .equal) then true
  else false

/-- `mls_subject_privileged` -/
def mlsSubjectPrivileged (mm : MacMls) : Except MlsError Unit :=
  if mm.mmEffective.mmeType = .equal then .ok ()
  else if mm.mmRangelow.mmeType = .equal ∨ mm.mmRangehigh.mmeType = .equal then .ok ()
  else if mm.mmRangelow.mmeType = .low ∧ mm.mmRangehigh.mmeType = .high then .ok ()
  else .error .eperm

/-- `mls_cred_check_relabel` -/
def mlsCredCheckRelabel (subj new : MacMls) : Except MlsError Unit :=
  match mlsAtmostflags new macMlsFlagsBoth with
  | .error e => .error e
  | .ok () =>
    if new.mmFlags ∩ macMlsFlagsBoth ≠ ∅ then
      require (if new.mmFlags ∩ macMlsFlagsBoth = macMlsFlagsBoth then mlsEffectiveInRange new new
        else .ok true) .einval <|
      require
          (if .effective ∈ new.mmFlags then mlsEffectiveInRange new subj else .ok true) .eperm <|
      require (if .range ∈ new.mmFlags then mlsRangeInRange new subj else .ok true) .eperm <|
      if mlsContainsEqual new then mlsSubjectPrivileged subj else .ok ()
    else .ok ()

/-- `mls_copy_effective` -/
def mlsCopyEffective (labelfrom labelto : MacMls) : MacMls :=
  { labelto with
    mmEffective := labelfrom.mmEffective
    mmFlags := insert .effective labelto.mmFlags }

/-- `mls_copy_range` -/
def mlsCopyRange (labelfrom labelto : MacMls) : MacMls :=
  { labelto with
    mmRangelow := labelfrom.mmRangelow
    mmRangehigh := labelfrom.mmRangehigh
    mmFlags := insert .range labelto.mmFlags }

/-- `mls_copy` -/
def mlsCopy (source dest : MacMls) : MacMls :=
  let dest := if .effective ∈ source.mmFlags then mlsCopyEffective source dest else dest
  if .range ∈ source.mmFlags then mlsCopyRange source dest else dest

/-! ## The checks -/

variable {s s' s₀ new : MacMls}

theorem rangeInRange_iff : mlsRangeInRange s' s = .ok true ↔
    Dominates s.mmRangehigh s'.mmRangehigh ∧ Dominates s'.mmRangelow s.mmRangelow :=
  andThen_eq_true_iff

theorem effectiveInRange_iff : mlsEffectiveInRange s' s = .ok true ↔
    Dominates s.mmRangehigh s'.mmEffective ∧ Dominates s'.mmEffective s.mmRangelow :=
  andThen_eq_true_iff

/-- What an accepted request has passed. -/
structure Accepted (s new : MacMls) : Prop where
  both : .effective ∈ new.mmFlags → .range ∈ new.mmFlags → mlsEffectiveInRange new new = .ok true
  effective : .effective ∈ new.mmFlags → mlsEffectiveInRange new s = .ok true
  range : .range ∈ new.mmFlags → mlsRangeInRange new s = .ok true
  equal : mlsContainsEqual new = true → mlsSubjectPrivileged s = .ok ()

theorem accepted_of_check (h : mlsCredCheckRelabel s new = .ok ()) : Accepted s new := by
  rw [mlsCredCheckRelabel] at h
  split at h
  · cases h
  split at h
  · rw [require_eq_ok_iff, require_eq_ok_iff, require_eq_ok_iff, ite_ok_true_iff, ite_ok_true_iff,
      ite_ok_true_iff] at h
    obtain ⟨hboth, heff, hrange, hequal⟩ := h
    refine ⟨fun he hr => hboth ?_, heff, hrange, fun hcon => ?_⟩
    · refine Finset.inter_eq_right.mpr fun flag _ => ?_
      cases flag
      · exact he
      · exact hr
    · rwa [if_pos hcon] at hequal
  · rename_i hnone
    rw [not_not] at hnone
    have hno : ∀ flag, flag ∉ new.mmFlags := by
      intro flag hmem
      have : flag ∈ new.mmFlags ∩ macMlsFlagsBoth :=
        Finset.mem_inter.mpr ⟨hmem, by cases flag <;> decide⟩
      rw [hnone] at this
      exact absurd this (Finset.notMem_empty flag)
    refine ⟨fun he => absurd he (hno _), fun he => absurd he (hno _),
      fun hr => absurd hr (hno _), fun hcon => ?_⟩
    rw [mlsContainsEqual, if_neg fun h => hno _ h.1, if_neg fun h => hno _ h.1] at hcon
    exact absurd hcon Bool.false_ne_true

/-! ## One request -/

/-- A subject whose label is complete, without `equal`, and not privileged. -/
structure Subject (s : MacMls) : Prop where
  effective : Proper s.mmEffective
  low : Proper s.mmRangelow
  high : Proper s.mmRangehigh
  narrow : ¬(s.mmRangelow.mmeType = .low ∧ s.mmRangehigh.mmeType = .high)

theorem Subject.not_privileged (h : Subject s) : mlsSubjectPrivileged s = .error .eperm := by
  rw [mlsSubjectPrivileged, if_neg h.effective.2, if_neg (not_or.mpr ⟨h.low.2, h.high.2⟩),
    if_neg h.narrow]

/-- Nothing but `high` dominates `high`. -/
theorem high_of_dominates {a b : MacMlsElement} (ha : Proper a) (hb : Proper b)
    (h : Dominates a b) (htype : b.mmeType = .high) : a.mmeType = .high := by
  rw [dominates_iff ha hb, place_high htype, top_le_iff] at h
  rcases ha.cases with hta | ⟨hta | hta, -⟩
  · rw [place_level hta] at h
    cases h
  · rw [place_low hta] at h
    cases h
  · exact hta

/-- `low` dominates nothing but `low`. -/
theorem low_of_dominates {a b : MacMlsElement} (ha : Proper a) (hb : Proper b)
    (h : Dominates a b) (htype : a.mmeType = .low) : b.mmeType = .low := by
  rw [dominates_iff ha hb, place_low htype] at h
  rcases hb.cases with htb | ⟨htb | htb, -⟩
  · rw [place_level htb] at h
    cases h
  · exact htb
  · rw [place_high htb] at h
    cases h

/-- The parts of a valid label that its flags announce. -/
theorem elementValid_of_valid (h : mlsValid new = .ok ()) :
    (.effective ∈ new.mmFlags → elementValid new.mmEffective = true) ∧
    (.range ∈ new.mmFlags →
      elementValid new.mmRangelow = true ∧ elementValid new.mmRangehigh = true) := by
  rw [mlsValid] at h
  split_ifs at h with heff _ hrange hlow hhigh
  · exact ⟨fun hmem => by simpa [hmem] using heff,
      fun _ => ⟨by simpa using hlow, by simpa using hhigh⟩⟩
  · exact ⟨fun hmem => by simpa [hmem] using heff, fun hmem => absurd hmem hrange⟩

/-- The parts of an accepted request are proper. -/
theorem Accepted.proper (hacc : Accepted s new) (h : Subject s) (hvalid : mlsValid new = .ok ()) :
    (.effective ∈ new.mmFlags → Proper new.mmEffective) ∧
    (.range ∈ new.mmFlags → Proper new.mmRangelow ∧ Proper new.mmRangehigh) := by
  -- an unprivileged subject cannot ask for `equal`
  have hequal : mlsContainsEqual new = false := by
    rw [← Bool.not_eq_true]
    intro hcon
    have hpriv := hacc.equal hcon
    rw [h.not_privileged] at hpriv
    cases hpriv
  rw [mlsContainsEqual] at hequal
  split_ifs at hequal with heff hrange
  obtain ⟨hve, hvr⟩ := elementValid_of_valid hvalid
  exact ⟨fun hmem => ⟨hve hmem, fun htype => heff ⟨hmem, htype⟩⟩, fun hmem =>
    ⟨⟨(hvr hmem).1, fun htype => hrange ⟨hmem, .inl htype⟩⟩,
      (hvr hmem).2, fun htype => hrange ⟨hmem, .inr htype⟩⟩⟩

theorem copy_effective : (mlsCopy new s).mmEffective =
    if .effective ∈ new.mmFlags then new.mmEffective else s.mmEffective := by
  rw [mlsCopy]
  split
  · split <;> rfl
  · split <;> rfl

theorem copy_range (s : MacMls) (h : .range ∈ new.mmFlags) :
    (mlsCopy new s).mmRangelow = new.mmRangelow ∧
      (mlsCopy new s).mmRangehigh = new.mmRangehigh := by
  rw [mlsCopy, if_pos h]
  exact ⟨rfl, rfl⟩

theorem copy_no_range (s : MacMls) (h : .range ∉ new.mmFlags) :
    (mlsCopy new s).mmRangelow = s.mmRangelow ∧ (mlsCopy new s).mmRangehigh = s.mmRangehigh := by
  rw [mlsCopy, if_neg h]
  split <;> exact ⟨rfl, rfl⟩

/-- **One accepted request** leaves an unprivileged subject, with a range inside the old one. -/
theorem Subject.relabel (h : Subject s) (hvalid : mlsValid new = .ok ()) (hacc : Accepted s new) :
    Subject (mlsCopy new s) ∧ mlsRangeInRange (mlsCopy new s) s = .ok true := by
  obtain ⟨hpe, hpr⟩ := hacc.proper h hvalid
  have heff : Proper (mlsCopy new s).mmEffective := by
    rw [copy_effective]
    split
    · exact hpe ‹_›
    · exact h.effective
  rw [rangeInRange_iff]
  by_cases hrange : MmFlag.range ∈ new.mmFlags
  · obtain ⟨hplow, hphigh⟩ := hpr hrange
    obtain ⟨hhigh, hlow⟩ := rangeInRange_iff.mp (hacc.range hrange)
    obtain ⟨hl, hh⟩ := copy_range s hrange
    refine ⟨⟨heff, hl ▸ hplow, hh ▸ hphigh, fun hwide => ?_⟩, hh ▸ hhigh, hl ▸ hlow⟩
    rw [hl, hh] at hwide
    exact h.narrow ⟨low_of_dominates hplow h.low hlow hwide.1,
      high_of_dominates h.high hphigh hhigh hwide.2⟩
  · obtain ⟨hl, hh⟩ := copy_no_range s hrange
    rw [hl, hh]
    exact ⟨⟨heff, hl ▸ h.low, hh ▸ h.high, hl ▸ hh ▸ h.narrow⟩, .refl h.high, .refl h.low⟩

/-- A request for a range alone that does not hold the effective element. -/
def LeavesEffective (s new : MacMls) : Prop :=
  .range ∈ new.mmFlags ∧ .effective ∉ new.mmFlags ∧
    mlsEffectiveInRange { new with mmEffective := s.mmEffective } new ≠ .ok true

/-- The effective element after an accepted request. -/
theorem Accepted.effectiveInRange (hacc : Accepted s new)
    (hold : mlsEffectiveInRange s s = .ok true) (hkeep : ¬LeavesEffective s new) :
    mlsEffectiveInRange (mlsCopy new s) (mlsCopy new s) = .ok true := by
  rw [effectiveInRange_iff, copy_effective]
  by_cases hrange : MmFlag.range ∈ new.mmFlags
  · obtain ⟨hl, hh⟩ := copy_range s hrange
    rw [hl, hh]
    split_ifs with heff
    · exact effectiveInRange_iff.mp (hacc.both heff hrange)
    · by_contra hout
      exact hkeep ⟨hrange, heff, fun hin => hout (effectiveInRange_iff.mp hin)⟩
  · obtain ⟨hl, hh⟩ := copy_no_range s hrange
    rw [hl, hh]
    split_ifs with heff
    · exact effectiveInRange_iff.mp (hacc.effective heff)
    · exact effectiveInRange_iff.mp hold

/-! ## Runs -/

/-- A request that is accepted and applied.  Requests come from `mls_parse`, which admits valid
labels only. -/
inductive Relabel (s : MacMls) : MacMls → Prop
  | apply (new : MacMls) (hvalid : mlsValid new = .ok ())
      (hcheck : mlsCredCheckRelabel s new = .ok ()) : Relabel s (mlsCopy new s)

/-- A request that does not move the range away from the effective element. -/
inductive RelabelInside (s : MacMls) : MacMls → Prop
  | apply (new : MacMls) (hvalid : mlsValid new = .ok ())
      (hcheck : mlsCredCheckRelabel s new = .ok ()) (hkeep : ¬LeavesEffective s new) :
      RelabelInside s (mlsCopy new s)

theorem rangeInRange_trans {r t u : MacMls} (hr : Subject r) (ht : Subject t) (hu : Subject u)
    (hrt : mlsRangeInRange r t = .ok true) (htu : mlsRangeInRange t u = .ok true) :
    mlsRangeInRange r u = .ok true := by
  rw [rangeInRange_iff] at *
  exact ⟨.trans hu.high ht.high hr.high htu.1 hrt.1, .trans hr.low ht.low hu.low hrt.2 htu.2⟩

/-- The ranges shrink along a run. -/
theorem Subject.run (h : Subject s) (hrun : Relation.ReflTransGen Relabel s s') :
    Subject s' ∧ mlsRangeInRange s' s = .ok true := by
  induction hrun with
  | refl => exact ⟨h, rangeInRange_iff.mpr ⟨.refl h.high, .refl h.low⟩⟩
  | tail _ hstep ih =>
    obtain ⟨hsubject, hin⟩ := ih
    obtain ⟨new, hvalid, hcheck⟩ := hstep
    obtain ⟨hnext, hnin⟩ := hsubject.relabel hvalid (accepted_of_check hcheck)
    exact ⟨hnext, rangeInRange_trans hnext hsubject h hnin hin⟩

theorem subject_of_valid (hvalid : mlsValid s = .ok ()) (hflags : s.mmFlags = macMlsFlagsBoth)
    (hpriv : mlsSubjectPrivileged s = .error .eperm) : Subject s := by
  obtain ⟨hve, hvr⟩ := elementValid_of_valid hvalid
  have hmem : ∀ flag, flag ∈ s.mmFlags := by
    intro flag
    rw [hflags]
    cases flag <;> decide
  rw [mlsSubjectPrivileged] at hpriv
  split_ifs at hpriv with heff hends hnarrow
  rw [not_or] at hends
  exact ⟨⟨hve (hmem _), heff⟩, ⟨(hvr (hmem _)).1, hends.1⟩, ⟨(hvr (hmem _)).2, hends.2⟩, hnarrow⟩

/-- **Relabelling.**  From a valid label that is not privileged, and so without `equal`, and has its
effective element in its range, along every run of accepted requests every later range lies in every
earlier one.  In the runs in which no request for a range alone leaves the effective element out,
the effective element lies in the range all along. -/
theorem mls_relabel (hvalid : mlsValid s₀ = .ok ()) (hflags : s₀.mmFlags = macMlsFlagsBoth)
    (hpriv : mlsSubjectPrivileged s₀ = .error .eperm)
    (heff : mlsEffectiveInRange s₀ s₀ = .ok true) :
    (∀ s s', Relation.ReflTransGen Relabel s₀ s → Relation.ReflTransGen Relabel s s' →
      mlsRangeInRange s' s = .ok true) ∧
    ∀ s, Relation.ReflTransGen RelabelInside s₀ s → mlsEffectiveInRange s s = .ok true := by
  have h0 := subject_of_valid hvalid hflags hpriv
  refine ⟨fun s s' hrun hrun' => ((h0.run hrun).1.run hrun').2, fun s hrun => ?_⟩
  induction hrun with
  | refl => exact heff
  | tail _ hstep ih =>
    obtain ⟨new, -, hcheck, hkeep⟩ := hstep
    exact (accepted_of_check hcheck).effectiveInRange ih hkeep

/-- A level without compartments. -/
def level (n : ℕ) : MacMlsElement := ⟨.level, n, fun _ => 0#8⟩

/-- A subject at level 5 with the range of the levels from 0 to 10. -/
def levelFive : MacMls := ⟨macMlsFlagsBoth, level 5, level 0, level 10⟩

/-- A request for the range of the levels from 7 to 10. -/
def rangeSeven : MacMls := ⟨{.range}, ⟨.undef, 0, fun _ => 0#8⟩, level 7, level 10⟩

/-- A request for the effective level 7. -/
def effectiveSeven : MacMls :=
  ⟨{.effective}, level 7, ⟨.undef, 0, fun _ => 0#8⟩, ⟨.undef, 0, fun _ => 0#8⟩⟩

theorem mls_relabel_effectiveSeven :
    mlsEffectiveInRange (mlsCopy effectiveSeven levelFive) (mlsCopy effectiveSeven levelFive) =
      .ok true := by
  have hvalid : mlsValid levelFive = .ok () := by decide +kernel
  have heff : mlsEffectiveInRange levelFive levelFive = .ok true := by decide +kernel
  have hstep : RelabelInside levelFive (mlsCopy effectiveSeven levelFive) :=
    ⟨effectiveSeven, by decide, by decide +kernel, fun hleaves => absurd hleaves.1 (by decide)⟩
  exact (mls_relabel hvalid rfl (by decide) heff).2 _ (.single hstep)

/-- The range from 7 to 10 is accepted by the subject at level 5, which is then below its range. -/
theorem mls_relabel_leaves_range :
    mlsValid rangeSeven = .ok () ∧ mlsCredCheckRelabel levelFive rangeSeven = .ok () ∧
    mlsEffectiveInRange levelFive levelFive = .ok true ∧
    mlsSubjectPrivileged levelFive = .error .eperm ∧
    mlsEffectiveInRange (mlsCopy rangeSeven levelFive) (mlsCopy rangeSeven levelFive) =
      .ok false := by
  decide +kernel

end FreeBSDSys.Mls
