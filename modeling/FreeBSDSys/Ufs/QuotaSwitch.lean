import FreeBSDSys.Lib.Threads
import FreeBSDSys.Ufs.Quota

/-!
# Turning quotas on and off

A model of `quotaon` and `quotaoff`, with their sections under the lock of the mount.  A call is at
a phase between two sections.  What it does outside of the sections is the store of `um_quotas` by
`quotaon`, which is a section of its own here, and the calls that may fail: their results are
choices of the steps.  A call that finds the flags set, or fails before it sets them, changes
nothing and is left out.

* `Consistent`: the flags belong to the one call that is changing the type.  This holds in every run.
* `Announced`: `MNT_QUOTA` is set while a quota file is stored or about to be.
* `quota_switch`: what is claimed of the two functions, for runs in which no `quotaon` fails behind
  the section that clears `QTF_CLOSING`, and `MNT_QUOTA` is not cleared under a `quotaon` that has
  not stored its file yet.  `quotaon_asserts` is a run of each other kind.
-/

namespace FreeBSDSys.Quota

open Function Multiset

/-- The quota fields of `struct ufsmount`, and the flag `MNT_QUOTA` of the mount. -/
structure Ump where
  /-- The flags `QTF_OPENING` -/
  opening : QuotaType → Bool
  /-- The flags `QTF_CLOSING` -/
  closing : QuotaType → Bool
  quotas : QuotaType → Option ℕ
  mntQuota : Bool

/-- Where a call is. -/
inductive Phase where
  /-- `quotaon`: the flags are set; `quotaoff1` comes next unless the file is stored already -/
  | opened (vp : ℕ)
  /-- `quotaon`: in `quotaoff1` for the old file -/
  | openedOff (vp : ℕ)
  /-- `quotaon`: before the store of the file -/
  | storing (vp : ℕ)
  | stored
  /-- `quotaon`: `QTF_CLOSING` is clear; the root quota and the inodes are read -/
  | reading
  /-- `quotaon`: at `bad` with an error; `quotaoff1` comes next -/
  | failed
  | failedOff
  | failedFix
  /-- `quotaon`: before the last section -/
  | last
  /-- `quotaoff`: the flag is set; `quotaoff1` comes next -/
  | closing
  | closingOff
  | closingFix
  deriving DecidableEq, Repr

/-- A call of `quotaon` or `quotaoff` for a type. -/
structure Place where
  type : QuotaType
  phase : Phase
  deriving DecidableEq, Repr

namespace Ump

variable (u : Ump) (type : QuotaType)

/-- Assignment to the flags of a type. -/
def setFlags (opening closing : Bool) : Ump :=
  { u with
    opening := update u.opening type opening
    closing := update u.closing type closing }

/-- Assignment to `um_quotas[type]`. -/
def setQuotas (vp : Option ℕ) : Ump := { u with quotas := update u.quotas type vp }

/-- Whether no quota file is stored. -/
def noQuotas : Bool := quotaTypes.all fun type => (u.quotas type).isNone

/-- The last section of `quotaoff_inchange`. -/
def quotaoffInchange : Ump :=
  let u := u.setFlags type (u.opening type) false
  if u.noQuotas then { u with mntQuota := false } else u

end Ump

/-- The first sections. -/
inductive QuotaEnter : Ump → Ump → Place → Prop
  | quotaon {u : Ump} (type : QuotaType) (vp : ℕ) (hopening : u.opening type = false)
      (hclosing : u.closing type = false) :
      QuotaEnter u { u.setFlags type true true with mntQuota := true } ⟨type, .opened vp⟩
  | quotaoff {u : Ump} (type : QuotaType) (hopening : u.opening type = false)
      (hclosing : u.closing type = false) :
      QuotaEnter u (u.setFlags type false true) ⟨type, .closing⟩

/-- The sections in between. -/
inductive QuotaMove : Ump → Place → Ump → Place → Prop
  | onSame {u : Ump} {type : QuotaType} {vp : ℕ} (h : u.quotas type = some vp) :
      QuotaMove u ⟨type, .opened vp⟩ u ⟨type, .storing vp⟩
  | onNone {u : Ump} {type : QuotaType} {vp : ℕ} (h : u.quotas type = none) :
      QuotaMove u ⟨type, .opened vp⟩ u ⟨type, .storing vp⟩
  | onOther {u : Ump} {type : QuotaType} {vp qvp : ℕ} (h : u.quotas type = some qvp)
      (hne : qvp ≠ vp) : QuotaMove u ⟨type, .opened vp⟩ u ⟨type, .openedOff vp⟩
  | onOff {u : Ump} {type : QuotaType} {vp : ℕ} :
      QuotaMove u ⟨type, .openedOff vp⟩ (u.setQuotas type none) ⟨type, .storing vp⟩
  | onStore {u : Ump} {type : QuotaType} {vp : ℕ} :
      QuotaMove u ⟨type, .storing vp⟩ (u.setQuotas type (some vp)) ⟨type, .stored⟩
  | onAllow {u : Ump} {type : QuotaType} :
      QuotaMove u ⟨type, .stored⟩ (u.setFlags type (u.opening type) false) ⟨type, .reading⟩
  | onRead {u : Ump} {type : QuotaType} : QuotaMove u ⟨type, .reading⟩ u ⟨type, .last⟩
  | onFail {u : Ump} {type : QuotaType} : QuotaMove u ⟨type, .reading⟩ u ⟨type, .failed⟩
  | failNone {u : Ump} {type : QuotaType} (h : u.quotas type = none) :
      QuotaMove u ⟨type, .failed⟩ u ⟨type, .failedFix⟩
  | failSome {u : Ump} {type : QuotaType} {qvp : ℕ} (h : u.quotas type = some qvp) :
      QuotaMove u ⟨type, .failed⟩ u ⟨type, .failedOff⟩
  | failOff {u : Ump} {type : QuotaType} :
      QuotaMove u ⟨type, .failedOff⟩ (u.setQuotas type none) ⟨type, .failedFix⟩
  | failFix {u : Ump} {type : QuotaType} :
      QuotaMove u ⟨type, .failedFix⟩ (u.quotaoffInchange type) ⟨type, .last⟩
  | offNone {u : Ump} {type : QuotaType} (h : u.quotas type = none) :
      QuotaMove u ⟨type, .closing⟩ u ⟨type, .closingFix⟩
  | offSome {u : Ump} {type : QuotaType} {qvp : ℕ} (h : u.quotas type = some qvp) :
      QuotaMove u ⟨type, .closing⟩ u ⟨type, .closingOff⟩
  | offOff {u : Ump} {type : QuotaType} :
      QuotaMove u ⟨type, .closingOff⟩ (u.setQuotas type none) ⟨type, .closingFix⟩

/-- The last sections. -/
inductive QuotaLeave : Ump → Place → Ump → Prop
  | quotaon {u : Ump} {type : QuotaType} :
      QuotaLeave u ⟨type, .last⟩ (u.setFlags type false (u.closing type))
  | quotaoff {u : Ump} {type : QuotaType} :
      QuotaLeave u ⟨type, .closingFix⟩ (u.quotaoffInchange type)

/-- The code of `quotaon` and `quotaoff`. -/
def quotaSwitch : Program Ump Place := ⟨QuotaEnter, QuotaMove, QuotaLeave⟩

/-- A mount without quotas. -/
def noQuota : Threads Ump Place := ⟨⟨fun _ => false, fun _ => false, fun _ => none, false⟩, 0⟩

/-! ## The flags -/

/-- The flag `QTF_OPENING` at a phase. -/
def Phase.opens : Phase → Bool
  | .closing | .closingOff | .closingFix => false
  | _ => true

/-- The flag `QTF_CLOSING` at a phase. -/
def Phase.closes : Phase → Bool
  | .reading | .failed | .failedOff | .failedFix | .last => false
  | _ => true

/-- The flags are those of the call that is changing the type. -/
structure Consistent (u : Ump) (places : Multiset Place) : Prop where
  flags : ∀ p ∈ places, u.opening p.type = p.phase.opens ∧ u.closing p.type = p.phase.closes
  one : ∀ type, places.countP (fun p => p.type = type) =
    if u.opening type || u.closing type then 1 else 0

variable {u u' : Ump} {p p' : Place} {others : Multiset Place} {s : Threads Ump Place}
  {type : QuotaType}

theorem Phase.opens_or_closes (ph : Phase) : (ph.opens || ph.closes) = true := by
  cases ph <;> rfl

/-- No other call is changing the type. -/
theorem Consistent.other (h : Consistent u (p ::ₘ others)) {q : Place} (hq : q ∈ others) :
    q.type ≠ p.type := by
  obtain ⟨ho, hc⟩ := h.flags p (mem_cons_self p others)
  have hone := h.one p.type
  rw [ho, hc, Phase.opens_or_closes, if_pos rfl, countP_cons, if_pos rfl] at hone
  have hzero : others.countP (fun q => q.type = p.type) = 0 := by omega
  exact countP_eq_zero.mp hzero q hq

/-- The flags of the other types are kept. -/
def Ump.SameFlags (u u' : Ump) (type : QuotaType) : Prop :=
  ∀ type', type' ≠ type → u'.opening type' = u.opening type' ∧ u'.closing type' = u.closing type'

theorem setFlags_other (u : Ump) (type : QuotaType) (opening closing : Bool) :
    u.SameFlags (u.setFlags type opening closing) type :=
  fun _ hne => ⟨update_of_ne hne _ _, update_of_ne hne _ _⟩

theorem setFlags_own (u : Ump) (type : QuotaType) (opening closing : Bool) :
    (u.setFlags type opening closing).opening type = opening ∧
      (u.setFlags type opening closing).closing type = closing :=
  ⟨update_self .., update_self ..⟩

/-- **A call begins** when no other is changing the type. -/
theorem Consistent.enter (h : Consistent u others) (hopening : u.opening p.type = false)
    (hclosing : u.closing p.type = false)
    (hown : u'.opening p.type = p.phase.opens ∧ u'.closing p.type = p.phase.closes)
    (hframe : u.SameFlags u' p.type) : Consistent u' (p ::ₘ others) := by
  have hnone : others.countP (fun q => q.type = p.type) = 0 := by
    have := h.one p.type
    rwa [hopening, hclosing] at this
  refine ⟨fun q hq => ?_, fun type => ?_⟩
  · rcases mem_cons.mp hq with rfl | hq
    · exact hown
    · obtain ⟨ho, hc⟩ := hframe q.type (countP_eq_zero.mp hnone q hq)
      rw [ho, hc]
      exact h.flags q hq
  · rw [countP_cons]
    by_cases heq : type = p.type
    · subst heq
      rw [hnone, hown.1, hown.2, Phase.opens_or_closes, if_pos rfl, if_pos rfl]
    · rw [(hframe type heq).1, (hframe type heq).2, if_neg (Ne.symm heq)]
      exact h.one type

section

variable (h : Consistent u (p ::ₘ others))

include h

/-- **A call ends** and clears its flags. -/
theorem Consistent.leave (hown : u'.opening p.type = false ∧ u'.closing p.type = false)
    (hframe : u.SameFlags u' p.type) : Consistent u' others := by
  refine ⟨fun q hq => ?_, fun type => ?_⟩
  · obtain ⟨ho, hc⟩ := hframe q.type (h.other hq)
    rw [ho, hc]
    exact h.flags q (mem_cons_of_mem hq)
  · by_cases heq : type = p.type
    · subst heq
      rw [hown.1, hown.2]
      exact countP_eq_zero.mpr fun _ => h.other
    · have hone := h.one type
      rw [countP_cons, if_neg (Ne.symm heq)] at hone
      rw [(hframe type heq).1, (hframe type heq).2]
      exact hone

/-- **The call moves on** and sets its flags: it ends, and another one begins. -/
theorem Consistent.move (htype : p'.type = p.type)
    (hown : u'.opening p.type = p'.phase.opens ∧ u'.closing p.type = p'.phase.closes)
    (hframe : u.SameFlags u' p.type) : Consistent u' (p' ::ₘ others) := by
  obtain ⟨_, phase⟩ := p
  obtain ⟨type, phase'⟩ := p'
  obtain rfl := htype
  obtain ⟨ho, hc⟩ := setFlags_own u type false false
  have hsame := setFlags_other u type false false
  refine (h.leave ⟨ho, hc⟩ hsame).enter ho hc hown fun type' hne => ?_
  rw [(hsame type' hne).1, (hsame type' hne).2]
  exact hframe type' hne

/-- The store of `um_quotas` and other changes that leave the flags. -/
theorem Consistent.keep (htype : p'.type = p.type)
    (hopens : p'.phase.opens = p.phase.opens) (hcloses : p'.phase.closes = p.phase.closes)
    (hframe : u'.opening = u.opening ∧ u'.closing = u.closing) : Consistent u' (p' ::ₘ others) := by
  refine h.move htype ?_ fun type _ => by rw [hframe.1, hframe.2]; exact ⟨rfl, rfl⟩
  rw [hopens, hcloses, hframe.1, hframe.2]
  exact h.flags p (mem_cons_self p others)

end

theorem quotaoffInchange_flags (u : Ump) (type : QuotaType) :
    ((u.quotaoffInchange type).opening type = u.opening type ∧
      (u.quotaoffInchange type).closing type = false) ∧
    u.SameFlags (u.quotaoffInchange type) type := by
  simp only [Ump.quotaoffInchange]
  split <;> exact ⟨setFlags_own .., setFlags_other u _ _ _⟩

theorem QuotaMove.consistent (hmove : QuotaMove u p u' p') (h : Consistent u (p ::ₘ others)) :
    Consistent u' (p' ::ₘ others) := by
  obtain ⟨ho, hc⟩ := h.flags p (mem_cons_self p others)
  cases hmove with
  | onAllow =>
    refine h.move rfl ?_ (setFlags_other u _ _ _)
    exact ⟨(setFlags_own ..).1.trans ho, (setFlags_own ..).2⟩
  | @failFix type =>
    obtain ⟨⟨ho', hc'⟩, hother⟩ := quotaoffInchange_flags u type
    exact h.move rfl ⟨ho'.trans ho, hc'⟩ hother
  | _ => exact h.keep rfl rfl rfl ⟨rfl, rfl⟩

/-- **The flags belong to the one call that is changing the type**, in every run. -/
theorem reachable_consistent (h : Reachable (· = noQuota) (ThreadStep quotaSwitch) s) :
    Consistent s.shared s.places := by
  refine ThreadStep.invariant quotaSwitch ?_ ?_ ?_ ?_ h
  · rintro s rfl
    exact ⟨nofun, fun _ => rfl⟩
  · intro u u' p others hstep hu
    cases hstep with
    | quotaon type vp hopening hclosing | quotaoff type hopening hclosing =>
      exact hu.enter hopening hclosing (setFlags_own ..) (setFlags_other u _ _ _)
  · exact fun _ _ _ _ _ => QuotaMove.consistent
  · intro u p u' others hstep hu
    obtain ⟨ho, hc⟩ := hu.flags p (mem_cons_self p others)
    cases hstep with
    | quotaon =>
      refine hu.leave ⟨(setFlags_own ..).1, ?_⟩ (setFlags_other u _ _ _)
      exact (setFlags_own ..).2.trans hc
    | @quotaoff type =>
      obtain ⟨⟨ho', hc'⟩, hother⟩ := quotaoffInchange_flags u type
      exact hu.leave ⟨ho'.trans ho, hc'⟩ hother

/-! ## The flag of the mount -/

/-- `quotaon` has set `MNT_QUOTA` and not stored its file yet. -/
def Phase.pending : Phase → Bool
  | .opened _ | .openedOff _ | .storing _ => true
  | _ => false

/-- The last section of `quotaoff_inchange` comes next. -/
def Phase.fixes : Phase → Bool
  | .failedFix | .closingFix => true
  | _ => false

/-- `MNT_QUOTA` is set while a file is stored or about to be, and is set without a file only while a
call is about to store one or to clear the flag. -/
structure Announced (u : Ump) (places : Multiset Place) : Prop where
  stored : ∀ type, u.quotas type ≠ none → u.mntQuota = true
  pending : ∀ p ∈ places, p.phase.pending = true → u.mntQuota = true
  cleared : u.mntQuota = true → (∃ type, u.quotas type ≠ none) ∨
    ∃ p ∈ places, p.phase.pending = true ∨ p.phase.fixes = true

/-- `MNT_QUOTA` is not cleared under a call that is about to store a file. -/
def Unpending (u u' : Ump) (places : Multiset Place) : Prop :=
  u.mntQuota = true → u'.mntQuota = false → ∀ p ∈ places, p.phase.pending = false

theorem setQuotas_own (u : Ump) (type : QuotaType) (vp : Option ℕ) :
    (u.setQuotas type vp).quotas type = vp := update_self ..

theorem setQuotas_other (u : Ump) {type' : QuotaType} (vp : Option ℕ) (hne : type' ≠ type) :
    (u.setQuotas type vp).quotas type' = u.quotas type' := update_of_ne hne _ _

theorem noQuotas_iff (u : Ump) : u.noQuotas = true ↔ ∀ type, u.quotas type = none := by
  simp only [Ump.noQuotas, List.all_eq_true, Option.isNone_iff_eq_none]
  refine ⟨fun h type => h type ?_, fun h type _ => h type⟩
  cases type <;> decide

/-- A section that leaves `MNT_QUOTA`: the call stays pending or has stored a file, or it comes to
the section that clears the flag, or it does not matter. -/
theorem Announced.move (h : Announced u (p ::ₘ others)) (hmnt : u'.mntQuota = u.mntQuota)
    (hstored : ∀ type, u'.quotas type ≠ none → u.quotas type ≠ none ∨ p.phase.pending = true)
    (hpending : p'.phase.pending = true → p.phase.pending = true)
    (hcleared : (∃ type, u'.quotas type ≠ none) ∨ p'.phase.pending = true ∨ p'.phase.fixes = true ∨
      (u'.quotas = u.quotas ∧ p.phase.pending = false ∧ p.phase.fixes = false)) :
    Announced u' (p' ::ₘ others) := by
  have hp := h.pending p (mem_cons_self p others)
  refine ⟨fun type hq => ?_, fun q hq hqp => ?_, fun hset => ?_⟩
  · rw [hmnt]
    exact (hstored type hq).elim (h.stored type) hp
  · rw [hmnt]
    rcases mem_cons.mp hq with rfl | hq
    · exact hp (hpending hqp)
    · exact h.pending q (mem_cons_of_mem hq) hqp
  · rcases hcleared with hq | hp' | hp' | ⟨hq, hnp, hnf⟩
    · exact .inl hq
    · exact .inr ⟨p', mem_cons_self p' others, .inl hp'⟩
    · exact .inr ⟨p', mem_cons_self p' others, .inr hp'⟩
    · rcases h.cleared (hmnt ▸ hset) with hex | ⟨q, hq', hqp⟩
      · exact .inl (hq ▸ hex)
      · rcases mem_cons.mp hq' with rfl | hq'
        · rw [hnp, hnf] at hqp
          exact absurd hqp (by decide)
        · exact .inr ⟨q, mem_cons_of_mem hq', hqp⟩

/-- **The last section of `quotaoff_inchange`.** -/
theorem Announced.fix {places : Multiset Place} (h : Announced u places)
    (hun : Unpending u (u.quotaoffInchange type) places) {places' : Multiset Place}
    (hsub : ∀ q ∈ places', q.phase.pending = true → q ∈ places) :
    Announced (u.quotaoffInchange type) places' := by
  have hnone := noQuotas_iff (u.setFlags type (u.opening type) false)
  simp only [Ump.quotaoffInchange] at hun ⊢
  split_ifs at hun with hno
  · rw [if_pos hno]
    refine ⟨fun type => absurd (hnone.mp hno type), fun q hq hqp => ?_, nofun⟩
    have hset := h.pending q (hsub q hq hqp) hqp
    exact absurd (hun hset rfl q (hsub q hq hqp)) (by rw [hqp]; decide)
  · rw [if_neg hno]
    have hex : ∃ type, u.quotas type ≠ none := by
      by_contra hall
      exact hno (hnone.mpr fun type => by_contra fun hq => hall ⟨type, hq⟩)
    exact ⟨h.stored, fun q hq hqp => h.pending q (hsub q hq hqp) hqp, fun _ => .inl hex⟩

theorem QuotaMove.announced (hmove : QuotaMove u p u' p') (hun : Unpending u u' (p ::ₘ others))
    (h : Announced u (p ::ₘ others)) : Announced u' (p' ::ₘ others) := by
  have hnone : ∀ {type type' : QuotaType}, (u.setQuotas type none).quotas type' ≠ none →
      u.quotas type' ≠ none := by
    intro type type' hq
    by_cases heq : type' = type
    · subst heq
      exact absurd (setQuotas_own ..) hq
    · rwa [setQuotas_other u _ heq] at hq
  cases hmove with
  | onSame | onNone | onOther => exact h.move rfl (fun _ => .inl) (fun _ => rfl) (.inr (.inl rfl))
  | onOff => exact h.move rfl (fun _ hq => .inl (hnone hq)) (fun _ => rfl) (.inr (.inl rfl))
  | @onStore type vp =>
    refine h.move rfl (fun _ _ => .inr rfl) nofun (.inl ⟨type, ?_⟩)
    rw [setQuotas_own]
    exact nofun
  | onAllow | onRead | onFail | failSome | offSome =>
    exact h.move rfl (fun _ hq => .inl hq) nofun (.inr (.inr (.inr ⟨rfl, rfl, rfl⟩)))
  | failNone | offNone => exact h.move rfl (fun _ hq => .inl hq) nofun (.inr (.inr (.inl rfl)))
  | failOff | offOff =>
    exact h.move rfl (fun _ hq => .inl (hnone hq)) nofun (.inr (.inr (.inl rfl)))
  | failFix =>
    refine h.fix hun fun q hq hqp => ?_
    rcases mem_cons.mp hq with rfl | hq
    · cases hqp
    · exact mem_cons_of_mem hq

/-- The condition on a step: no `quotaon` fails behind the section that clears `QTF_CLOSING`, and
`MNT_QUOTA` is not cleared under a `quotaon` that has not stored its file. -/
def Undisturbed (s s' : Threads Ump Place) : Prop :=
  (∀ p ∈ s'.places, p.phase ≠ .failed) ∧ Unpending s.shared s'.shared s.places

/-- **`MNT_QUOTA` is right**, in runs that meet the condition. -/
theorem reachable_announced
    (h : Reachable (· = noQuota) (fun s s' => ThreadStep quotaSwitch s s' ∧ Undisturbed s s') s) :
    Announced s.shared s.places ∧ ∀ p ∈ s.places, p.phase ≠ .failed := by
  refine h.invariant (I := fun s => Announced s.shared s.places ∧ ∀ p ∈ s.places, p.phase ≠ .failed)
    ?_ fun s s' hs hstep => ⟨?_, hstep.2.1⟩
  · rintro s rfl
    exact ⟨⟨fun _ => absurd rfl, nofun, nofun⟩, nofun⟩
  · obtain ⟨hthread, -, hun⟩ := hstep
    obtain ⟨hs, -⟩ := hs
    cases hthread with
    | @enter u u' p others hstep =>
      cases hstep with
      | quotaon type vp hopening hclosing =>
        exact ⟨fun _ _ => rfl, fun _ _ _ => rfl,
          fun _ => .inr ⟨_, mem_cons_self _ others, .inl rfl⟩⟩
      | quotaoff type hopening hclosing =>
        refine ⟨hs.stored, fun q hq hqp => ?_, fun hset => (hs.cleared hset).imp_right ?_⟩
        · rcases mem_cons.mp hq with rfl | hq
          · cases hqp
          · exact hs.pending q hq hqp
        · exact fun ⟨q, hq, hqp⟩ => ⟨q, mem_cons_of_mem hq, hqp⟩
    | move hstep => exact QuotaMove.announced hstep hun hs
    | @leave u u' p others hstep =>
      cases hstep with
      | quotaon =>
        refine ⟨hs.stored, fun q hq => hs.pending q (mem_cons_of_mem hq), fun hset => ?_⟩
        refine (hs.cleared hset).imp_right fun ⟨q, hq, hqp⟩ => ?_
        rcases mem_cons.mp hq with rfl | hq
        · exact absurd hqp (by rintro (h | h) <;> cases h)
        · exact ⟨q, hq, hqp⟩
      | quotaoff => exact hs.fix hun fun q hq _ => mem_cons_of_mem hq

/-! ## The assertions -/

/-- `quotaoff1` is entered next. -/
def Phase.entersQuotaoff1 : Phase → Bool
  | .opened _ | .failed | .closing => true
  | _ => false

/-- **Turning quotas on and off**, in every run that meets the condition: the assertions hold, one
call at most is changing a type, and without a call the flags are clear and `MNT_QUOTA` tells
whether there are quotas. -/
theorem quota_switch {s : Threads Ump Place}
    (h : Reachable (· = noQuota) (fun s s' => ThreadStep quotaSwitch s s' ∧ Undisturbed s s') s) :
    (∀ p ∈ s.places, p.phase.entersQuotaoff1 = true → s.shared.closing p.type = true) ∧
    (∀ p ∈ s.places, p.phase = .last → s.shared.closing p.type = false) ∧
    (∀ type, s.places.countP (fun p => p.type = type) ≤ 1) ∧
    (s.places = 0 → (∀ type, s.shared.opening type = false ∧ s.shared.closing type = false) ∧
      (s.shared.mntQuota = true ↔ ∃ type, s.shared.quotas type ≠ none)) := by
  obtain ⟨hannounced, hfailed⟩ := reachable_announced h
  have hflags := reachable_consistent (h.mono fun _ _ hstep => hstep.1)
  refine ⟨fun p hp henters => ?_, fun p hp hlast => ?_, fun type => ?_, fun hnone => ⟨fun type => ?_,
    ⟨fun hset => ?_, fun ⟨type, hq⟩ => hannounced.stored type hq⟩⟩⟩
  · rw [(hflags.flags p hp).2]
    have hne := hfailed p hp
    revert henters hne
    cases p.phase <;> simp [Phase.entersQuotaoff1, Phase.closes]
  · rw [(hflags.flags p hp).2, hlast]
    rfl
  · rw [hflags.one type]
    split <;> omega
  · have hone := hflags.one type
    rw [hnone] at hone
    revert hone
    cases s.shared.opening type <;> cases s.shared.closing type <;> simp
  · refine (hannounced.cleared hset).resolve_right ?_
    rintro ⟨p, hp, -⟩
    rw [hnone] at hp
    exact absurd hp (notMem_zero p)

/-- A `quotaon` that has set the flags. -/
theorem opened_reachable : Reachable (· = noQuota)
    (fun s s' => ThreadStep quotaSwitch s s' ∧ Undisturbed s s')
    ⟨{ noQuota.shared.setFlags .usrquota true true with mntQuota := true },
      {⟨.usrquota, .opened 1⟩}⟩ := by
  have hstart : Reachable (· = noQuota)
    (fun s s' => ThreadStep quotaSwitch s s' ∧ Undisturbed s s') noQuota := .of_init rfl
  refine hstart.tail ⟨.enter (.quotaon .usrquota 1 rfl rfl), fun p hp => ?_, nofun⟩
  rw [mem_singleton.mp hp]
  exact nofun

theorem quota_switch_opened :
    (noQuota.shared.setFlags .usrquota true true).closing .usrquota = true :=
  (quota_switch opened_reachable).1 ⟨.usrquota, .opened 1⟩ (mem_singleton_self _) rfl

/-- A `quotaon` that cannot read the quota of root enters `quotaoff1` without `QTF_CLOSING`; and a
`quotaoff` of the user quotas clears `MNT_QUOTA` under a `quotaon` of the group quotas, which then
are on without it. -/
theorem quotaon_asserts :
    (∃ u, Reachable (· = noQuota) (ThreadStep quotaSwitch) ⟨u, {⟨.usrquota, .failed⟩}⟩ ∧
      u.closing .usrquota = false) ∧
    ∃ u, Reachable (· = noQuota) (ThreadStep quotaSwitch) ⟨u, 0⟩ ∧ u.mntQuota = false ∧
      u.quotas .grpquota = some 1 := by
  have hstart : Reachable (· = noQuota) (ThreadStep quotaSwitch) noQuota := .of_init rfl
  constructor
  · have hopened := hstart.tail (.enter (.quotaon .usrquota 1 rfl rfl))
    have hread := ((hopened.tail (.move (.onNone rfl))).tail (.move .onStore)).tail (.move .onAllow)
    exact ⟨_, hread.tail (.move .onFail), rfl⟩
  · have hopened := hstart.tail (.enter (.quotaon .grpquota 1 rfl rfl))
    have hclosing := hopened.tail (.enter (.quotaoff .usrquota rfl rfl))
    have hclosed := (hclosing.tail (.move (.offNone rfl))).tail (.leave .quotaoff)
    have hread := ((hclosed.tail (.move (.onNone rfl))).tail (.move .onStore)).tail (.move .onAllow)
    exact ⟨_, (hread.tail (.move .onRead)).tail (.leave .quotaon), rfl, rfl⟩

end FreeBSDSys.Quota
