import FreeBSDSys.Security.Lomac

/-!
# Demotion of the processes of the low-watermark policy

A thread that reads, maps or executes an object below it records a demotion in the label that waits
at the process, and is marked.  When a marked thread returns to user mode, `lomac_thread_userret`
puts the record into the credential of the process.  Between its two sections it allocates the new
credential with no lock held.

The record is never taken back.  A thread that was marked together with another one puts it into the
credential again, however long after the other, and undoes what the process has given up in
between.  The result is about the runs in which this does not happen: a request keeps the range at
or above the record, and a thread that records a demotion has a credential that is not outdated and
does not rely on a record that still waits.

* `LomacStep`: one section of the code of one thread, with the objects that have demoted it.
* `Watermark.step`: the invariant is kept and the range does not rise in a step that is calm.
* `lomac_watermark`: the three properties in every run of calm steps.
-/

namespace FreeBSDSys.Lomac

open Function List Relation

variable {T : Type} [DecidableEq T] {td : LomacThread} {obj : MacLomac}

/-! ## The system -/

/-- The part of a thread the policy looks at.  `triggered` has the objects that have demoted it
since it was in user mode. -/
structure LomacThread where
  tdUcred : MacLomac
  macpend : Bool
  allocating : Bool
  triggered : List MacLomacElement
  deriving DecidableEq

/-- A process with its threads.  `returned` has the objects whose threads have returned to user
mode. -/
structure LomacProc (T : Type) where
  pUcred : MacLomac
  pending : MacLomac
  threads : T → LomacThread
  returned : List MacLomacElement

/-- The process before the policy has done anything to it -/
def freshProc (label : MacLomac) : LomacProc T :=
  ⟨label, bzero, fun _ => ⟨label, false, false, []⟩, []⟩

/-- A thread is replaced. -/
def LomacProc.setThread (p : LomacProc T) (t : T) (td : LomacThread) : LomacProc T :=
  { p with threads := update p.threads t td }

/-- The thread goes to user mode. -/
def LomacProc.userMode (p : LomacProc T) (t : T) : LomacProc T :=
  { p.setThread t { p.threads t with macpend := false, allocating := false, triggered := [] } with
    returned := (p.threads t).triggered ++ p.returned }

/-- A request of the process or a section of the code of a thread -/
inductive LomacEvent (T : Type)
  | refresh (t : T)
  | access (t : T) (objlabel : MacLomac)
  | execve (robj : MacLomac)
  | userret (t : T)
  | install (t : T)
  | leave (t : T)
  | relabel (new : MacLomac)

/-- One section of the code. -/
inductive LomacStep : LomacProc T → LomacEvent T → LomacProc T → Prop
  /-- The thread takes over the credential of the process. -/
  | refresh {p : LomacProc T} (t : T) :
      LomacStep p (.refresh t) (p.setThread t { p.threads t with tdUcred := p.pUcred })
  /-- The object does not dominate the thread: `maybe_demote`. -/
  | access {p : LomacProc T} {t : T} {obj pending : MacLomac} {mark : Bool}
      (hkernel : (p.threads t).allocating = false)
      (hcheck : lomacDominateSingle obj (p.threads t).tdUcred = .ok false)
      (hdemote : maybeDemote (p.threads t).tdUcred obj p.pending = .ok (pending, mark)) :
      LomacStep p (.access t obj)
        { p.setThread t { p.threads t with
            macpend := (p.threads t).macpend || mark
            triggered := obj.mlSingle :: (p.threads t).triggered } with
          pending := pending }
  /-- The auxiliary label of an executed file, in `lomac_vnode_execve_transition`. -/
  | execve {p : LomacProc T} {robj : MacLomac} (hflag : .aux ∈ robj.mlFlags)
      (hcheck : lomacDominateElement robj.mlAuxsingle p.pUcred.mlSingle = .ok false)
      (hrange : lomacAuxsingleInRange robj p.pUcred = .ok true) :
      LomacStep p (.execve robj)
        { p with pUcred := { p.pUcred with mlSingle := robj.mlAuxsingle } }
  /-- `ast` clears the mark; the first section of `lomac_thread_userret`. -/
  | userret {p : LomacProc T} {t : T} (hpend : (p.threads t).macpend = true)
      (hkernel : (p.threads t).allocating = false) :
      LomacStep p (.userret t) (if .update ∈ p.pending.mlFlags then
          p.setThread t { p.threads t with macpend := false, allocating := true }
        else p.userMode t)
  /-- The second section of `lomac_thread_userret`. -/
  | install {p : LomacProc T} {t : T} (hkernel : (p.threads t).allocating = true) :
      LomacStep p (.install t) (if .update ∈ p.pending.mlFlags then
          { p.userMode t with pUcred := lomacCopy p.pending p.pUcred }
        else p.userMode t)
  /-- A thread without a mark returns to user mode. -/
  | leave {p : LomacProc T} {t : T} (hpend : (p.threads t).macpend = false)
      (hkernel : (p.threads t).allocating = false) :
      LomacStep p (.leave t) (p.userMode t)
  /-- An accepted request: `lomac_cred_check_relabel` and `lomac_cred_relabel`. -/
  | relabel {p : LomacProc T} {new new' : MacLomac} (hvalid : lomacValid new = .ok ())
      (hcheck : lomacCredCheckRelabel p.pUcred new = .ok new') :
      LomacStep p (.relabel new) { p with pUcred := tryRelabel new' p.pUcred }

/-- A step that does not meet a record at a bad time.  A request has no `equal`, and a range that
comes with it reaches up to the record.  An object that demotes is not above the range, and if a
record as severe is there it is in force. -/
def Calm (p : LomacProc T) : LomacEvent T → Prop
  | .access _ obj =>
      Dominates p.pUcred.mlRangehigh obj.mlSingle ∧
        (.update ∈ p.pending.mlFlags → Dominates obj.mlSingle p.pending.mlSingle →
          Dominates p.pending.mlSingle p.pUcred.mlRangehigh)
  | .relabel new =>
      lomacContainsEqual new = false ∧ (.update ∈ p.pending.mlFlags → .range ∈ new.mlFlags →
          Dominates new.mlRangehigh p.pending.mlSingle)
  | _ => True

/-- One step of any kind. -/
def AnyStep (p p' : LomacProc T) : Prop := ∃ e, LomacStep p e p'

/-- One calm step. -/
def CalmStep (p p' : LomacProc T) : Prop := ∃ e, Calm p e ∧ LomacStep p e p'

/-! ## The invariant -/

/-- What the record is, if there is one. -/
structure Record (pending : MacLomac) (high : MacLomacElement) : Prop where
  flags : pending.mlFlags = {.update, .range, .single}
  proper : Proper pending.mlSingle
  high_eq : pending.mlRangehigh = pending.mlSingle
  below : place pending.mlSingle ≤ place high

/-- An object that has demoted a thread binds the range already, or the thread will put a record
into the credential that does. -/
def Bound (p : LomacProc T) (td : LomacThread) (o : MacLomacElement) : Prop :=
  place p.pUcred.mlRangehigh ≤ place o ∨
    (.update ∈ p.pending.mlFlags ∧ place p.pending.mlSingle ≤ place o ∧
      (td.macpend = true ∨ td.allocating = true))

/-- The invariant of the process. -/
structure Watermark (p : LomacProc T) : Prop where
  single_proper : Proper p.pUcred.mlSingle
  high_proper : Proper p.pUcred.mlRangehigh
  single_le : place p.pUcred.mlSingle ≤ place p.pUcred.mlRangehigh
  record : .update ∈ p.pending.mlFlags → Record p.pending p.pUcred.mlRangehigh
  triggered : ∀ t, ∀ o ∈ (p.threads t).triggered, Proper o ∧ Bound p (p.threads t) o
  returned : ∀ o ∈ p.returned, Proper o ∧ place p.pUcred.mlRangehigh ≤ place o

variable {p p' p0 : LomacProc T} {t : T} {e : LomacEvent T}

omit [DecidableEq T] in
theorem Bound.mono {td' : LomacThread} {o : MacLomacElement} (h : Bound p td o)
    (hhigh : place p'.pUcred.mlRangehigh ≤ place p.pUcred.mlRangehigh)
    (hpending : .update ∈ p.pending.mlFlags →
      .update ∈ p'.pending.mlFlags ∧ place p'.pending.mlSingle ≤ place p.pending.mlSingle)
    (hmark : td.macpend = true ∨ td.allocating = true →
      td'.macpend = true ∨ td'.allocating = true) : Bound p' td' o := by
  rcases h with hle | ⟨hup, hle, hm⟩
  · exact .inl (hhigh.trans hle)
  · exact .inr ⟨(hpending hup).1, (hpending hup).2.trans hle, hmark hm⟩

section

variable (h : Watermark p)

include h

/-- A thread changes, and what has triggered it stays bound. -/
theorem Watermark.setThread (htd : ∀ o ∈ td.triggered, Proper o ∧ Bound p td o) :
    Watermark (p.setThread t td) := by
  refine ⟨h.single_proper, h.high_proper, h.single_le, h.record, fun t' o ho => ?_, h.returned⟩
  have hthread : (p.setThread t td).threads t' = update p.threads t td t' := rfl
  rw [hthread] at ho ⊢
  by_cases ht : t' = t
  · subst ht
    rw [update_self] at ho ⊢
    exact htd o ho
  · rw [update_of_ne ht] at ho ⊢
    exact h.triggered t' o ho

/-- A thread goes to user mode when everything that has triggered it binds the range. -/
theorem Watermark.userMode
    (hbound : ∀ o ∈ (p.threads t).triggered, place p.pUcred.mlRangehigh ≤ place o) :
    Watermark (p.userMode t) := by
  have hset : Watermark (p.setThread t
      { p.threads t with macpend := false, allocating := false, triggered := [] }) :=
    h.setThread fun o ho => absurd ho not_mem_nil
  refine { hset with returned := fun o ho => ?_ }
  rcases mem_append.mp ho with hnew | hold
  · exact ⟨(h.triggered t o hnew).1, hbound o hnew⟩
  · exact h.returned o hold

omit [DecidableEq T] in
/-- What has triggered an unmarked thread binds the range. -/
theorem Watermark.bound_of_unmarked (hpend : (p.threads t).macpend = false)
    (hkernel : (p.threads t).allocating = false) :
    ∀ o ∈ (p.threads t).triggered, place p.pUcred.mlRangehigh ≤ place o := by
  intro o ho
  refine (h.triggered t o ho).2.resolve_right fun hm => absurd hm.2.2 ?_
  rw [hpend, hkernel]
  decide

omit [DecidableEq T] in
/-- The same for every thread if there is no record. -/
theorem Watermark.bound_of_no_record (hno : .update ∉ p.pending.mlFlags) :
    ∀ o ∈ (p.threads t).triggered, place p.pUcred.mlRangehigh ≤ place o := by
  intro o ho
  exact (h.triggered t o ho).2.resolve_right fun hup => hno hup.1

omit [DecidableEq T] in
/-- The label of the credential changes, and its range does not rise nor leave the record. -/
theorem Watermark.lower {ml : MacLomac} (hsingle : Proper ml.mlSingle)
    (hhigh : Proper ml.mlRangehigh) (hle : place ml.mlSingle ≤ place ml.mlRangehigh)
    (hdown : place ml.mlRangehigh ≤ place p.pUcred.mlRangehigh)
    (hrec : .update ∈ p.pending.mlFlags → place p.pending.mlSingle ≤ place ml.mlRangehigh) :
    Watermark { p with pUcred := ml } := by
  refine ⟨hsingle, hhigh, hle, fun hup => ?_, fun t o ho => ?_, fun o ho => ?_⟩
  · exact { h.record hup with below := hrec hup }
  · exact (h.triggered t o ho).imp_right fun hbound =>
      hbound.mono hdown (fun hup => ⟨hup, le_refl _⟩) id
  · exact ⟨(h.returned o ho).1, hdown.trans (h.returned o ho).2⟩

end

/-! ## The steps -/

section

variable (h : Watermark p)

include h

/-- A demotion that is dropped: the one that waits is in force. -/
theorem Watermark.access_dropped (hobj : Proper obj.mlSingle)
    (hup : .update ∈ p.pending.mlFlags) (hdom : Dominates obj.mlSingle p.pending.mlSingle)
    (hforce : Dominates p.pending.mlSingle p.pUcred.mlRangehigh) :
    Watermark (p.setThread t { p.threads t with
      triggered := obj.mlSingle :: (p.threads t).triggered }) := by
  have hrec := h.record hup
  rw [dominates_iff hobj hrec.proper] at hdom
  rw [dominates_iff hrec.proper h.high_proper] at hforce
  exact h.setThread
    (forall_mem_cons.mpr ⟨⟨hobj, .inl (hforce.trans hdom)⟩, h.triggered t⟩)

/-- A demotion that is recorded. -/
theorem Watermark.access_recorded {pending : MacLomac}
    (hobj : Proper obj.mlSingle) (hhigh : Dominates p.pUcred.mlRangehigh obj.mlSingle)
    (hsevere : .update ∈ p.pending.mlFlags →
      lomacDominateElement obj.mlSingle p.pending.mlSingle = .ok false)
    (hdem : demoted (p.threads t).tdUcred obj = .ok pending) :
    Watermark { p.setThread t { p.threads t with
        macpend := true
        triggered := obj.mlSingle :: (p.threads t).triggered } with
      pending := pending } := by
  obtain ⟨hflags, hsingle, hrange⟩ := demoted_spec hdem
  have hup : .update ∈ pending.mlFlags := by
    rw [hflags]
    exact Finset.mem_insert_self _ _
  rw [dominates_iff h.high_proper hobj] at hhigh
  -- the record is more severe than the one it replaces
  have hpending : ∀ q : LomacProc T, q.pending = pending → .update ∈ p.pending.mlFlags →
      .update ∈ q.pending.mlFlags ∧ place q.pending.mlSingle ≤ place p.pending.mlSingle := by
    rintro q rfl hold
    have hlt := hsevere hold
    rw [not_dominates_iff hobj (h.record hold).proper] at hlt
    exact ⟨hup, hsingle ▸ hlt.le⟩
  refine ⟨h.single_proper, h.high_proper, h.single_le, fun _ => ?_, fun t' o ho => ?_, h.returned⟩
  · exact ⟨hflags, hsingle ▸ hobj, hrange.trans hsingle.symm, hsingle ▸ hhigh⟩
  · by_cases ht : t' = t
    · subst ht
      simp only [LomacProc.setThread, update_self] at ho ⊢
      rcases mem_cons.mp ho with rfl | ho
      · exact ⟨hobj, .inr ⟨hup, hsingle ▸ le_refl _, .inl rfl⟩⟩
      · exact (h.triggered t' o ho).imp_right fun hbound =>
          hbound.mono (le_refl _) (hpending _ rfl) fun _ => .inl rfl
    · simp only [LomacProc.setThread, update_of_ne ht] at ho ⊢
      exact (h.triggered t' o ho).imp_right fun hbound =>
        hbound.mono (le_refl _) (hpending _ rfl) id

/-- The record is put into the credential, and the thread returns to user mode. -/
theorem Watermark.install (hup : .update ∈ p.pending.mlFlags) :
    Watermark { p.userMode t with pUcred := lomacCopy p.pending p.pUcred } ∧
      place (lomacCopy p.pending p.pUcred).mlRangehigh ≤ place p.pUcred.mlRangehigh := by
  have hrec := h.record hup
  obtain ⟨hsingle, hhigh⟩ := lomacCopy_both p.pUcred
    (by rw [hrec.flags]; decide : .single ∈ p.pending.mlFlags) (by rw [hrec.flags]; decide)
  rw [hrec.high_eq] at hhigh
  have hdown : place (lomacCopy p.pending p.pUcred).mlRangehigh ≤ place p.pUcred.mlRangehigh :=
    hhigh ▸ hrec.below
  have hlow : Watermark { p with pUcred := lomacCopy p.pending p.pUcred } :=
    h.lower (hsingle ▸ hrec.proper) (hhigh ▸ hrec.proper) (by rw [hsingle, hhigh]) hdown
      fun _ => by rw [hhigh]
  refine ⟨hlow.userMode fun o ho => ?_, hdown⟩
  rcases (h.triggered t o ho).2 with hle | ⟨-, hle, -⟩
  · exact hdown.trans hle
  · exact (congrArg place hhigh).trans_le hle

omit [DecidableEq T] in
/-- An accepted request without `equal` that stays at or above the record. -/
theorem Watermark.relabel {new new' : MacLomac} (hvalid : lomacValid new = .ok ())
    (hcheck : lomacCredCheckRelabel p.pUcred new = .ok new')
    (hequal : lomacContainsEqual new = false)
    (hreach : .update ∈ p.pending.mlFlags → .range ∈ new.mlFlags →
      Dominates new.mlRangehigh p.pending.mlSingle) :
    Watermark { p with pUcred := tryRelabel new' p.pUcred } ∧
      place (tryRelabel new' p.pUcred).mlRangehigh ≤ place p.pUcred.mlRangehigh := by
  obtain ⟨hsingle, hrange⟩ := proper_of_valid hvalid hequal
  rcases relabel_cases hcheck with hsame | ⟨hs, hr, hdown, hle⟩
  · rw [hsame]
    exact ⟨h, le_refl _⟩
  · obtain ⟨-, hfs, hfr⟩ := fillIn_spec p.pUcred new
    have hsp : Proper (fillIn p.pUcred new).mlSingle := by
      rw [hfs]
      split
      · exact hsingle ‹_›
      · exact h.single_proper
    have hrp : Proper (fillIn p.pUcred new).mlRangehigh := by
      rw [hfr]
      split
      · exact hrange ‹_›
      · exact h.high_proper
    rw [dominates_iff h.high_proper hrp] at hdown
    rw [dominates_iff hrp hsp] at hle
    refine ⟨h.lower (hs ▸ hsp) (hr ▸ hrp) (by rw [hs, hr]; exact hle) (hr ▸ hdown) fun hup => ?_,
      hr ▸ hdown⟩
    rw [hr, hfr]
    split_ifs with hrange'
    · exact (dominates_iff (hrange hrange') (h.record hup).proper).mp (hreach hup hrange')
    · exact (h.record hup).below

/-- **A calm step** keeps the invariant, and the range does not rise. -/
theorem Watermark.step (hcalm : Calm p e) (hstep : LomacStep p e p') :
    Watermark p' ∧ place p'.pUcred.mlRangehigh ≤ place p.pUcred.mlRangehigh := by
  cases hstep with
  | refresh t => exact ⟨h.setThread fun o ho => h.triggered t o ho, le_refl _⟩
  | @access t obj pending mark hkernel hcheck hdemote =>
    have hobj := proper_of_not_dominates hcheck
    rcases maybeDemote_cases hdemote with ⟨hup, hdom, rfl, rfl⟩ | ⟨hsevere, hdem, rfl⟩
    · rw [Bool.or_false]
      exact ⟨h.access_dropped hobj hup hdom (hcalm.2 hup hdom), le_refl _⟩
    · rw [Bool.or_true]
      exact ⟨h.access_recorded hobj hcalm.1 hsevere hdem, le_refl _⟩
  | @execve robj hflag hcheck hrange =>
    have haux := proper_of_not_dominates hcheck
    rw [lomacAuxsingleInRange, andThen_eq_true_iff] at hrange
    exact ⟨h.lower haux h.high_proper ((dominates_iff h.high_proper haux).mp hrange.1) (le_refl _)
      fun hup => (h.record hup).below, le_refl _⟩
  | @userret t hpend hkernel =>
    by_cases hup : .update ∈ p.pending.mlFlags
    · rw [if_pos hup]
      refine ⟨h.setThread fun o ho => (h.triggered t o ho).imp_right fun hbound => ?_, le_refl _⟩
      exact hbound.mono (le_refl _) (fun hup => ⟨hup, le_refl _⟩) fun _ => .inr rfl
    · rw [if_neg hup]
      exact ⟨h.userMode (h.bound_of_no_record hup), le_refl _⟩
  | @install t hkernel =>
    by_cases hup : .update ∈ p.pending.mlFlags
    · rw [if_pos hup]
      exact h.install hup
    · rw [if_neg hup]
      exact ⟨h.userMode (h.bound_of_no_record hup), le_refl _⟩
  | leave hpend hkernel => exact ⟨h.userMode (h.bound_of_unmarked hpend hkernel), le_refl _⟩
  | relabel hvalid hcheck => exact h.relabel hvalid hcheck hcalm.1 hcalm.2

/-- The invariant along a run. -/
theorem Watermark.run (hrun : ReflTransGen CalmStep p p') :
    Watermark p' ∧ place p'.pUcred.mlRangehigh ≤ place p.pUcred.mlRangehigh := by
  induction hrun with
  | refl => exact ⟨h, le_refl _⟩
  | tail _ hstep ih =>
    obtain ⟨e, hcalm, hstep⟩ := hstep
    obtain ⟨hw, hle⟩ := ih.1.step hcalm hstep
    exact ⟨hw, hle.trans ih.2⟩

end

omit [DecidableEq T] in
theorem Watermark.fresh {label : MacLomac} (hvalid : lomacValid label = .ok ())
    (hflags : macLomacFlagsBoth ⊆ label.mlFlags) (hequal : lomacContainsEqual label = false)
    (hrange : lomacSingleInRange label label = .ok true) :
    Watermark (freshProc (T := T) label) := by
  obtain ⟨hs, hr⟩ := proper_of_valid hvalid hequal
  have hsp := hs (hflags (by decide))
  have hrp := hr (hflags (by decide))
  rw [lomacSingleInRange, andThen_eq_true_iff] at hrange
  exact ⟨hsp, hrp, (dominates_iff hrp hsp).mp hrange.1,
    fun hup => absurd hup (Finset.notMem_empty _), fun t o ho => absurd ho not_mem_nil,
    fun o ho => absurd ho not_mem_nil⟩

/-- **Low-watermark integrity.**  In every run of calm steps of a process with a valid label without
`equal`, whose single element is in its range, the high end of the range never rises, the single
element is never above it, and both are dominated by every object that has demoted a thread that has
returned to user mode since. -/
theorem lomac_watermark {label : MacLomac} (hvalid : lomacValid label = .ok ())
    (hflags : macLomacFlagsBoth ⊆ label.mlFlags) (hequal : lomacContainsEqual label = false)
    (hrange : lomacSingleInRange label label = .ok true)
    (hrun : ReflTransGen CalmStep (freshProc label) p) (hlater : ReflTransGen CalmStep p p') :
    Dominates p.pUcred.mlRangehigh p'.pUcred.mlRangehigh ∧
      Dominates p'.pUcred.mlRangehigh p'.pUcred.mlSingle ∧
      ∀ o ∈ p'.returned, Dominates o p'.pUcred.mlSingle ∧ Dominates o p'.pUcred.mlRangehigh := by
  have h := ((Watermark.fresh hvalid hflags hequal hrange).run hrun).1
  obtain ⟨h', hle⟩ := h.run hlater
  refine ⟨(dominates_iff h.high_proper h'.high_proper).mpr hle,
    (dominates_iff h'.high_proper h'.single_proper).mpr h'.single_le, fun o ho => ?_⟩
  obtain ⟨hproper, hbound⟩ := h'.returned o ho
  exact ⟨(dominates_iff hproper h'.single_proper).mpr (h'.single_le.trans hbound),
    (dominates_iff hproper h'.high_proper).mpr hbound⟩

/-- A demotion, and the return of its thread. -/
theorem lomac_watermark_grade : ∃ p p' : LomacProc Bool, p'.returned = [⟨.grade, 8⟩] ∧
      Dominates p.pUcred.mlRangehigh p'.pUcred.mlRangehigh ∧
      Dominates p'.pUcred.mlRangehigh p'.pUcred.mlSingle ∧
      ∀ o ∈ p'.returned, Dominates o p'.pUcred.mlSingle ∧ Dominates o p'.pUcred.mlRangehigh := by
  have hrun : ReflTransGen CalmStep (freshProc (T := Bool) (gradeLabel 10)) _ :=
    .single ⟨.access true (gradeLabel 8), ⟨by decide, fun hup => absurd hup (by decide)⟩,
      .access rfl rfl rfl⟩
  have hmarked := hrun.tail ⟨.userret true, trivial, .userret rfl rfl⟩
  refine ⟨_, _, ?_, lomac_watermark (by decide) (by decide) (by decide) (by decide) hmarked
    (.single ⟨.install true, trivial, .install rfl⟩)⟩
  rfl

/-- Two threads are demoted, the first one returns and the process gives up more of its range.  The
second one returns and the range rises. -/
theorem lomac_record_undoes_relabel : ∃ p p' : LomacProc Bool,
      ReflTransGen AnyStep (freshProc (gradeLabel 10)) p ∧ AnyStep p p' ∧
      p.pUcred.mlRangehigh = ⟨.grade, 5⟩ ∧ p'.pUcred.mlRangehigh = ⟨.grade, 8⟩ ∧
      ¬Dominates p.pUcred.mlRangehigh p'.pUcred.mlRangehigh := by
  have hmarked : ReflTransGen AnyStep (freshProc (T := Bool) (gradeLabel 10)) _ :=
    (ReflTransGen.single ⟨.access false (gradeLabel 9), .access rfl rfl rfl⟩).tail
      ⟨.access true (gradeLabel 8), .access rfl rfl rfl⟩
  have hfirst := (hmarked.tail ⟨.userret true, .userret rfl rfl⟩).tail ⟨.install true, .install rfl⟩
  have hlower := (hfirst.tail ⟨.relabel (gradeLabel 5), .relabel rfl rfl⟩).tail
    ⟨.userret false, .userret rfl rfl⟩
  exact ⟨_, _, hlower, ⟨.install false, .install rfl⟩, rfl, rfl, by decide⟩

end FreeBSDSys.Lomac
