import FreeBSDSys.Lib.Checks

/-!
# Labels of the low-watermark policy

A label of the low-watermark policy has a single element, a range of elements and an auxiliary
element, each there if its flag is set.  A process has a credential with a label, and a second label
in which a demotion waits until a thread returns to user mode.

The elements other than `equal` are read as members of a linear order: a grade, with a bottom and a
top added.  Dominance is this order.

* `dominates_iff`: dominance is the order of the places.
* `maybeDemote_cases`: a demotion is dropped, or replaces the one that waits.
* `relabel_cases`: what an accepted request of a subject has passed.
* `lomac_vnode_relabel`: what an accepted request does to the label of a vnode.  A request without a
  single element gets that of the subject, not that of the vnode, and the label of the vnode is
  replaced as a whole.
-/

namespace FreeBSDSys.Lomac

open Finset

/-! ## The source -/

/-- `MAC_LOMAC_TYPE_*` -/
inductive MleType
  | undef
  | grade
  | low
  | high
  | equal
  deriving DecidableEq

/-- `MAC_LOMAC_FLAG_*` -/
inductive MlFlag
  | single
  | range
  | aux
  | update
  deriving DecidableEq

/-- `struct mac_lomac_element` -/
structure MacLomacElement where
  mleType : MleType
  mleGrade : ℕ
  deriving DecidableEq

/-- `struct mac_lomac`, with the set of the flags -/
structure MacLomac where
  mlFlags : Finset MlFlag
  mlSingle : MacLomacElement
  mlRangelow : MacLomacElement
  mlRangehigh : MacLomacElement
  mlAuxsingle : MacLomacElement
  deriving DecidableEq

/-- `MAC_LOMAC_FLAGS_BOTH` -/
def macLomacFlagsBoth : Finset MlFlag := {.single, .range}

/-- What a function of the policy ends with other than success -/
inductive LomacError
  | panicA
  | panicB
  | einval
  | eperm
  deriving DecidableEq

/-- `bzero` of an element -/
def bzeroElement : MacLomacElement := ⟨.undef, 0⟩

/-- `bzero` of a label -/
def bzero : MacLomac := ⟨∅, bzeroElement, bzeroElement, bzeroElement, bzeroElement⟩

/-- `lomac_dominate_element` -/
def lomacDominateElement (a b : MacLomacElement) : Except LomacError Bool :=
  match a.mleType with
  | .equal | .high => .ok true
  | .low =>
    match b.mleType with
    | .grade | .high => .ok false
    | .equal | .low => .ok true
    | .undef => .error .panicB
  | .grade =>
    match b.mleType with
    | .equal | .low => .ok true
    | .high => .ok false
    | .grade => .ok (decide (a.mleGrade ≥ b.mleGrade))
    | .undef => .error .panicB
  | .undef => .error .panicA

/-- `lomac_range_in_range` -/
def lomacRangeInRange (rangea rangeb : MacLomac) : Except LomacError Bool :=
  andThen (lomacDominateElement rangeb.mlRangehigh rangea.mlRangehigh)
    (lomacDominateElement rangea.mlRangelow rangeb.mlRangelow)

/-- `lomac_single_in_range` -/
def lomacSingleInRange (single range : MacLomac) : Except LomacError Bool :=
  andThen (lomacDominateElement range.mlRangehigh single.mlSingle)
    (lomacDominateElement single.mlSingle range.mlRangelow)

/-- `lomac_auxsingle_in_range` -/
def lomacAuxsingleInRange (single range : MacLomac) : Except LomacError Bool :=
  andThen (lomacDominateElement range.mlRangehigh single.mlAuxsingle)
    (lomacDominateElement single.mlAuxsingle range.mlRangelow)

/-- `lomac_dominate_single` -/
def lomacDominateSingle (a b : MacLomac) : Except LomacError Bool :=
  lomacDominateElement a.mlSingle b.mlSingle

/-- `lomac_contains_equal` -/
def lomacContainsEqual (ml : MacLomac) : Bool :=
  if .single ∈ ml.mlFlags ∧ ml.mlSingle.mleType = .equal then true
  else if .aux ∈ ml.mlFlags ∧ ml.mlAuxsingle.mleType = .equal then true
  else if .range ∈ ml.mlFlags ∧ ml.mlRangelow.mleType = .equal then true
  else decide (.range ∈ ml.mlFlags ∧ ml.mlRangehigh.mleType = .equal)

/-- `lomac_subject_privileged`, whether it returns 0 -/
def lomacSubjectPrivileged (ml : MacLomac) : Bool :=
  if ml.mlSingle.mleType = .equal then true
  else if ml.mlRangelow.mleType = .equal ∨ ml.mlRangehigh.mleType = .equal then true
  else decide (ml.mlRangelow.mleType = .low ∧ ml.mlRangehigh.mleType = .high)

/-- The check of one element in `lomac_valid` -/
def elementValid (e : MacLomacElement) : Bool :=
  match e.mleType with
  | .grade | .equal | .high | .low => true
  | .undef => false

/-- `lomac_valid` -/
def lomacValid (ml : MacLomac) : Except LomacError Unit :=
  if .single ∈ ml.mlFlags ∧ !elementValid ml.mlSingle then .error .einval
  else if .single ∉ ml.mlFlags ∧ ml.mlSingle.mleType ≠ .undef then .error .einval
  else if .aux ∈ ml.mlFlags ∧ !elementValid ml.mlAuxsingle then .error .einval
  else if .aux ∉ ml.mlFlags ∧ ml.mlAuxsingle.mleType ≠ .undef then .error .einval
  else if .range ∈ ml.mlFlags then
    if !elementValid ml.mlRangelow then .error .einval
    else if !elementValid ml.mlRangehigh then .error .einval
    else require (lomacDominateElement ml.mlRangehigh ml.mlRangelow) .einval (.ok ())
  else if ml.mlRangelow.mleType ≠ .undef ∨ ml.mlRangehigh.mleType ≠ .undef then .error .einval
  else .ok ()

/-- `lomac_copy_range` -/
def lomacCopyRange (labelfrom labelto : MacLomac) : MacLomac :=
  { labelto with
    mlRangelow := labelfrom.mlRangelow
    mlRangehigh := labelfrom.mlRangehigh
    mlFlags := insert .range labelto.mlFlags }

/-- `lomac_copy_single` -/
def lomacCopySingle (labelfrom labelto : MacLomac) : MacLomac :=
  { labelto with
    mlSingle := labelfrom.mlSingle
    mlFlags := insert .single labelto.mlFlags }

/-- `lomac_copy_auxsingle` -/
def lomacCopyAuxsingle (labelfrom labelto : MacLomac) : MacLomac :=
  { labelto with
    mlAuxsingle := labelfrom.mlAuxsingle
    mlFlags := insert .aux labelto.mlFlags }

/-- `lomac_copy` -/
def lomacCopy (source dest : MacLomac) : MacLomac :=
  let dest := if .single ∈ source.mlFlags then lomacCopySingle source dest else dest
  let dest := if .aux ∈ source.mlFlags then lomacCopyAuxsingle source dest else dest
  if .range ∈ source.mlFlags then lomacCopyRange source dest else dest

/-- The label `maybe_demote` records: the single element of the object, and the range of the subject
with each end that the object does not dominate replaced -/
def demoted (subjlabel objlabel : MacLomac) : Except LomacError MacLomac :=
  let subj := lomacCopyRange subjlabel (lomacCopySingle objlabel bzero)
  match lomacDominateElement objlabel.mlSingle subj.mlRangelow with
  | .error e => .error e
  | .ok dominates =>
    let subj := if !dominates then { subj with mlRangelow := objlabel.mlSingle } else subj
    .ok { subj with
      mlRangehigh := objlabel.mlSingle
      mlFlags := insert .update subj.mlFlags }

/-- `maybe_demote`: the label that waits, and whether the thread is marked with `TDF_MACPEND` -/
def maybeDemote (subjlabel objlabel subj : MacLomac) : Except LomacError (MacLomac × Bool) :=
  let record : Except LomacError (MacLomac × Bool) :=
    match demoted subjlabel objlabel with
    | .error e => .error e
    | .ok ml => .ok (ml, true)
  if .update ∈ subj.mlFlags then
    match lomacDominateSingle objlabel subj with
    | .error e => .error e
    | .ok true => .ok (subj, false)
    | .ok false => record
  else record

/-- `try_relabel` -/
def tryRelabel (labelfrom labelto : MacLomac) : MacLomac :=
  if .single ∈ labelfrom.mlFlags then lomacCopy labelfrom bzero else labelto

/-- The parts that a request leaves out, filled in from the label of the subject -/
def fillIn (subj new : MacLomac) : MacLomac :=
  let new := if .single ∉ new.mlFlags then lomacCopySingle subj new else new
  if .range ∉ new.mlFlags then lomacCopyRange subj new else new

/-- `lomac_cred_check_relabel`, with the request as it leaves it -/
def lomacCredCheckRelabel (subj new : MacLomac) : Except LomacError MacLomac :=
  if new.mlFlags ∩ macLomacFlagsBoth ≠ new.mlFlags then .error .einval
  else if new.mlFlags ∩ macLomacFlagsBoth ≠ ∅ then
    let new := fillIn subj new
    require (lomacRangeInRange new subj) .eperm <| require (lomacSingleInRange new new) .eperm <|
        require (.ok (!lomacContainsEqual new || lomacSubjectPrivileged subj)) .eperm <| .ok new
  else .ok new

/-- `lomac_vnode_check_relabel` authorizes a new part: it must be in the range of the subject, and
`equal` needs privilege -/
def authorize (inRange : Except LomacError Bool) (subj new : MacLomac)
    (rest : Except LomacError MacLomac) : Except LomacError MacLomac :=
  require inRange .eperm <|
    require (.ok (!lomacContainsEqual new || lomacSubjectPrivileged subj)) .eperm rest

/-- `lomac_vnode_check_relabel`, with the request as it leaves it -/
def lomacVnodeCheckRelabel (old subj new : MacLomac) : Except LomacError MacLomac :=
  if new.mlFlags ∩ {.single, .aux} ≠ new.mlFlags then .error .einval
  else
    let auxiliary :=
      if .aux ∈ new.mlFlags then
        let new := if .single ∉ new.mlFlags then lomacCopySingle subj new else new
        authorize (lomacAuxsingleInRange new subj) subj new (.ok new)
      else .ok new
    require (lomacSingleInRange old subj) .eperm <|
      if .single ∈ new.mlFlags then authorize (lomacSingleInRange new subj) subj new auxiliary
      else auxiliary

/-- `lomac_vnode_relabel` -/
def lomacVnodeRelabel (vplabel newlabel : MacLomac) : MacLomac := tryRelabel newlabel vplabel

/-! ## The order of the elements -/

variable {a b : MacLomacElement} {s s' old new new' obj pending pending' : MacLomac}

/-- Dominance, decided without a panic. -/
def Dominates (a b : MacLomacElement) : Prop := lomacDominateElement a b = .ok true

instance : Decidable (Dominates a b) := inferInstanceAs (Decidable (_ = _))

/-- An element that stands for a place in the order. -/
def Proper (e : MacLomacElement) : Prop := elementValid e = true ∧ e.mleType ≠ .equal

instance : Decidable (Proper a) := inferInstanceAs (Decidable (_ ∧ _))

/-- The place of an element in the order of the grades. -/
def place (e : MacLomacElement) : WithBot (WithTop ℕ) :=
  match e.mleType with
  | .grade => (e.mleGrade : WithTop ℕ)
  | .high => ⊤
  | _ => ⊥

/-- What dominance decides on proper elements. -/
theorem dominateElement_eq (ha : Proper a) (hb : Proper b) :
    lomacDominateElement a b = .ok (decide (place b ≤ place a)) := by
  obtain ⟨ta, ga⟩ := a
  obtain ⟨tb, gb⟩ := b
  cases ta with
  | undef => exact absurd ha.1 Bool.false_ne_true
  | equal => exact absurd rfl ha.2
  | high => simp [lomacDominateElement, place]
  | low | grade =>
    cases tb with
    | undef => exact absurd hb.1 Bool.false_ne_true
    | equal => exact absurd rfl hb.2
    | high | low | grade => simp [lomacDominateElement, place]

/-- **Dominance is the order of the places.** -/
theorem dominates_iff (ha : Proper a) (hb : Proper b) : Dominates a b ↔ place b ≤ place a := by
  rw [Dominates, dominateElement_eq ha hb, Except.ok.injEq, decide_eq_true_iff]

theorem not_dominates_iff (ha : Proper a) (hb : Proper b) :
    lomacDominateElement a b = .ok false ↔ place a < place b := by
  rw [dominateElement_eq ha hb, Except.ok.injEq, decide_eq_false_iff_not, not_le]

/-- An element that fails to dominate is proper: `equal` dominates everything. -/
theorem proper_of_not_dominates (h : lomacDominateElement a b = .ok false) : Proper a := by
  obtain ⟨ta, ga⟩ := a
  cases ta with
  | undef | equal | high => cases h
  | low | grade => exact ⟨rfl, nofun⟩

/-! ## Demotion -/

theorem demoted_spec {ml : MacLomac} (h : demoted s obj = .ok ml) :
    ml.mlFlags = {.update, .range, .single} ∧ ml.mlSingle = obj.mlSingle ∧
      ml.mlRangehigh = obj.mlSingle := by
  rw [demoted] at h
  split at h
  · cases h
  · rename_i dominates _
    cases h
    cases dominates <;> exact ⟨rfl, rfl, rfl⟩

/-- **A demotion is dropped or recorded**: it is dropped if the one that waits is as severe. -/
theorem maybeDemote_cases {mark : Bool} (h : maybeDemote s obj pending = .ok (pending', mark)) :
    (.update ∈ pending.mlFlags ∧ Dominates obj.mlSingle pending.mlSingle ∧ pending' = pending ∧
        mark = false) ∨
      ((.update ∈ pending.mlFlags →
          lomacDominateElement obj.mlSingle pending.mlSingle = .ok false) ∧
        demoted s obj = .ok pending' ∧ mark = true) := by
  rw [maybeDemote] at h
  split_ifs at h with hup
  · split at h
    · cases h
    · rename_i hdom
      cases h
      exact .inl ⟨hup, hdom, rfl, rfl⟩
    · rename_i hdom
      split at h
      · cases h
      · rename_i hml
        cases h
        exact .inr ⟨fun _ => hdom, hml, rfl⟩
  · split at h
    · cases h
    · rename_i hml
      cases h
      exact .inr ⟨fun hup' => absurd hup' hup, hml, rfl⟩

/-- A label with both flags is taken over by a copy. -/
theorem lomacCopy_both (s' : MacLomac) (hsingle : .single ∈ s.mlFlags)
    (hrange : .range ∈ s.mlFlags) :
    (lomacCopy s s').mlSingle = s.mlSingle ∧ (lomacCopy s s').mlRangehigh = s.mlRangehigh := by
  rw [lomacCopy, if_pos hrange]
  split <;> exact ⟨rfl, rfl⟩

/-! ## Relabelling -/

/-- A valid label without `equal` has proper elements. -/
theorem proper_of_valid (hvalid : lomacValid new = .ok ())
    (hequal : lomacContainsEqual new = false) :
    (.single ∈ new.mlFlags → Proper new.mlSingle) ∧
      (.range ∈ new.mlFlags → Proper new.mlRangehigh) := by
  refine ⟨fun hs => ⟨?_, fun he => ?_⟩, fun hr => ⟨?_, fun he => ?_⟩⟩
  · by_contra hv
    rw [lomacValid, if_pos ⟨hs, by rw [Bool.eq_false_of_not_eq_true hv]; rfl⟩] at hvalid
    cases hvalid
  · rw [lomacContainsEqual, if_pos ⟨hs, he⟩] at hequal
    cases hequal
  · by_contra hv
    rw [Bool.not_eq_true] at hv
    simp only [lomacValid, hv] at hvalid
    iterate 5
      split at hvalid
      · cases hvalid
    cases hvalid
  · simp [lomacContainsEqual, hr, he] at hequal

theorem fillIn_spec (s new : MacLomac) :
    (.single ∈ (fillIn s new).mlFlags ∧ .range ∈ (fillIn s new).mlFlags) ∧
      (fillIn s new).mlSingle = (if .single ∈ new.mlFlags then new.mlSingle else s.mlSingle) ∧
      (fillIn s new).mlRangehigh =
        if .range ∈ new.mlFlags then new.mlRangehigh else s.mlRangehigh := by
  by_cases hs : .single ∈ new.mlFlags <;> by_cases hr : .range ∈ new.mlFlags <;>
    simp [fillIn, lomacCopySingle, lomacCopyRange, hs, hr]

/-- **What an accepted request has passed.**  The credential takes over the request, with the parts
it leaves out filled in. -/
theorem relabel_cases (h : lomacCredCheckRelabel s new = .ok new') : tryRelabel new' s = s ∨
      ((tryRelabel new' s).mlSingle = (fillIn s new).mlSingle ∧
        (tryRelabel new' s).mlRangehigh = (fillIn s new).mlRangehigh ∧
        Dominates s.mlRangehigh (fillIn s new).mlRangehigh ∧
        Dominates (fillIn s new).mlRangehigh (fillIn s new).mlSingle) := by
  rw [lomacCredCheckRelabel] at h
  split at h
  · cases h
  · split at h
    · rw [require_eq_ok_iff, require_eq_ok_iff, require_eq_ok_iff, lomacRangeInRange,
        lomacSingleInRange, andThen_eq_true_iff, andThen_eq_true_iff] at h
      obtain ⟨⟨hhigh, -⟩, ⟨hsingle, -⟩, -, hnew⟩ := h
      cases hnew
      have hflags := (fillIn_spec s new).1
      rw [tryRelabel, if_pos hflags.1]
      obtain ⟨hs, hr⟩ := lomacCopy_both bzero hflags.1 hflags.2
      exact .inr ⟨hs, hr, hhigh, hsingle⟩
    · rename_i hsub hnone
      cases h
      rw [not_not] at hsub hnone
      rw [hnone] at hsub
      rw [tryRelabel, ← hsub]
      exact .inl rfl

/-! ## Relabelling of vnodes -/

/-- The elements of a part, if the label has it. -/
def part (ml : MacLomac) (f : MlFlag) : Option (List MacLomacElement) :=
  if f ∉ ml.mlFlags then none
  else match f with
    | .single => some [ml.mlSingle]
    | .range => some [ml.mlRangelow, ml.mlRangehigh]
    | .aux => some [ml.mlAuxsingle]
    | .update => some []

/-- A request that names an auxiliary element alone also gets the single element of the subject. -/
theorem vnodeCheckRelabel_eq (h : lomacVnodeCheckRelabel old s new = .ok new') :
    new.mlFlags ⊆ {.single, .aux} ∧
      new' = if .aux ∈ new.mlFlags ∧ .single ∉ new.mlFlags then lomacCopySingle s new
        else new := by
  rw [lomacVnodeCheckRelabel] at h
  split at h
  · cases h
  · rename_i hflags
    refine ⟨inter_eq_left.mp (not_not.mp hflags), ?_⟩
    by_cases hsingle : .single ∈ new.mlFlags <;> by_cases haux : .aux ∈ new.mlFlags <;>
      simp only [hsingle, haux, authorize, require_eq_ok_iff, not_true, not_false_iff, if_true,
        if_false, Except.ok.injEq] at h ⊢
    · exact h.2.2.2.2.2.symm
    · exact h.2.2.2.symm
    · exact h.2.2.2.symm
    · exact h.2.symm

/-- The label after a request that names something: what the request names, and nothing else but a
single element. -/
theorem part_vnodeRelabel (h : lomacVnodeCheckRelabel old s new = .ok new')
    (hne : new.mlFlags ≠ ∅) (f : MlFlag) :
    part (lomacVnodeRelabel old new') f =
      if f ∈ new.mlFlags then part new f else if f = .single then some [s.mlSingle] else none := by
  obtain ⟨hflags, rfl⟩ := vnodeCheckRelabel_eq h
  have hnot : ∀ {f}, f ≠ .single → f ≠ .aux → f ∉ new.mlFlags := fun hs ha hf => by
    simpa [hs, ha] using hflags hf
  have hrange : .range ∉ new.mlFlags := hnot nofun nofun
  have hupdate : .update ∉ new.mlFlags := hnot nofun nofun
  by_cases hsingle : .single ∈ new.mlFlags
  · by_cases haux : .aux ∈ new.mlFlags <;> cases f <;>
      simp [lomacVnodeRelabel, tryRelabel, lomacCopy, lomacCopySingle, lomacCopyAuxsingle, part,
        bzero, hsingle, haux, hrange, hupdate]
  · have haux : .aux ∈ new.mlFlags := by
      obtain ⟨f, hf⟩ := nonempty_iff_ne_empty.mpr hne
      by_contra ha
      exact hnot (fun hfs => hsingle (hfs ▸ hf)) (fun hfa => ha (hfa ▸ hf)) hf
    cases f <;>
      simp [lomacVnodeRelabel, tryRelabel, lomacCopy, lomacCopySingle, lomacCopyAuxsingle, part,
        bzero, hsingle, haux, hrange, hupdate]

/-- **Relabelling of a vnode.**  An accepted request stores what it names.  What it does not name
stays exactly if it names nothing, or if the vnode has nothing else but the single element of the
subject. -/
theorem lomac_vnode_relabel (h : lomacVnodeCheckRelabel old s new = .ok new') :
    (∀ f ∈ new.mlFlags, part (lomacVnodeRelabel old new') f = part new f) ∧
      ((∀ f ∉ new.mlFlags, part (lomacVnodeRelabel old new') f = part old f) ↔
        new.mlFlags = ∅ ∨ ∀ f ∉ new.mlFlags,
          part old f = if f = .single then some [s.mlSingle] else none) := by
  by_cases hne : new.mlFlags = ∅
  · have hkeep : lomacVnodeRelabel old new' = old := by
      obtain ⟨-, rfl⟩ := vnodeCheckRelabel_eq h
      simp [lomacVnodeRelabel, tryRelabel, hne]
    simp [hne, hkeep]
  · have hpart := part_vnodeRelabel h hne
    refine ⟨fun f hf => (hpart f).trans (if_pos hf), ?_⟩
    rw [or_iff_right hne]
    refine forall₂_congr fun f hf => ?_
    rw [hpart f, if_neg hf, eq_comm]

/-- The label of a subject of a grade, with the grades up to its own as its range -/
def gradeLabel (grade : ℕ) : MacLomac :=
  ⟨macLomacFlagsBoth, ⟨.grade, grade⟩, ⟨.grade, 0⟩, ⟨.grade, grade⟩, bzeroElement⟩

/-- A label of a vnode, or a request for one -/
def vnodeLabel (flags : Finset MlFlag) (single aux : MacLomacElement) : MacLomac :=
  ⟨flags, single, bzeroElement, bzeroElement, aux⟩

theorem lomac_vnode_relabel_both :
    let old := vnodeLabel {.single} ⟨.grade, 5⟩ bzeroElement
    let new := vnodeLabel {.single, .aux} ⟨.grade, 6⟩ ⟨.grade, 7⟩
    ∀ f ∉ new.mlFlags, part (lomacVnodeRelabel old new) f = part old f :=
  (lomac_vnode_relabel (s := gradeLabel 10) rfl).2.mpr (.inr fun f => by cases f <;> decide)

/-- A subject of grade 10 gives a vnode of grade 5 an auxiliary element, and the vnode gets the
grade 10; a request for a single element takes the auxiliary element away. -/
theorem lomac_vnode_relabel_overwrites :
    let old := vnodeLabel {.single, .aux} ⟨.grade, 5⟩ ⟨.grade, 4⟩
    (∃ new', lomacVnodeCheckRelabel old (gradeLabel 10)
        (vnodeLabel {.aux} bzeroElement ⟨.grade, 7⟩) = .ok new' ∧
      part (lomacVnodeRelabel old new') .single = some [⟨.grade, 10⟩]) ∧
    ∃ new', lomacVnodeCheckRelabel old (gradeLabel 10)
        (vnodeLabel {.single} ⟨.grade, 7⟩ bzeroElement) = .ok new' ∧
      part (lomacVnodeRelabel old new') .aux = none :=
  ⟨⟨_, rfl, rfl⟩, _, rfl, rfl⟩

end FreeBSDSys.Lomac
