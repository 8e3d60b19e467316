import FreeBSDSys.Netinet.DummynetBooks

/-!
# The sum of the weights

The sum of the weights is that of the flows in the heaps, until a queue is deleted while one of its
flows is idle: its weight is subtracted for each backlogged flow only, and the idle ones are taken
out of their heap as well.

* `Deleted.sumOk_iff`: the deletion of a queue.
* `Effect.sumOk`: the other steps keep the sum.
* `wf2q_sum`: the sum in every run in which no queue is deleted with idle flows.
-/

namespace FreeBSDSys.Dummynet

open Function Multiset State

variable {s s' : State} {q : FlowId} {fs fs' : FlowSet} {k : ℕ} {m m' : Multiset FlowId}
  {flowSet flowSet' : ℕ → Option FlowSet} {a : Act}

/-! ## The weights -/

def weightOf (flowSet : ℕ → Option FlowSet) (q : FlowId) : ℤ :=
  ((flowSet q.fs).map FlowSet.weight).getD 0

/-- The weights of some flows, summed up. -/
def totalWeight (flowSet : ℕ → Option FlowSet) (m : Multiset FlowId) : ℤ :=
  (m.map (weightOf flowSet)).sum

/-- The sum of the pipe is that of the weights of the flows in its three heaps. -/
def State.SumOk (s : State) : Prop :=
  s.sum = totalWeight s.flowSet (s.active + s.idle.members)

instance (s : State) : Decidable s.SumOk := inferInstanceAs (Decidable (_ = _))

theorem weightOf_eq (hfs : flowSet q.fs = some fs) : weightOf flowSet q = fs.weight := by
  rw [weightOf, hfs]
  rfl

theorem weightOf_update (hfs : flowSet k = some fs) (hw : fs'.weight = fs.weight) :
    weightOf (update flowSet k (some fs')) = weightOf flowSet := by
  funext r
  by_cases hk : r.fs = k
  · rw [weightOf, weightOf, hk, update_self, hfs, Option.map_some, Option.map_some, hw]
  · rw [weightOf, weightOf, update_of_ne hk]

theorem totalWeight_update (hfs : flowSet k = some fs) (hw : fs'.weight = fs.weight) :
    totalWeight (update flowSet k (some fs')) m = totalWeight flowSet m := by
  rw [totalWeight, weightOf_update hfs hw]
  rfl

theorem totalWeight_cons : totalWeight flowSet (q ::ₘ m) =
    weightOf flowSet q + totalWeight flowSet m := by
  rw [totalWeight, totalWeight, map_cons, sum_cons]

theorem totalWeight_add : totalWeight flowSet (m + m') =
    totalWeight flowSet m + totalWeight flowSet m' := by
  rw [totalWeight, totalWeight, totalWeight, map_add, sum_add]

theorem totalWeight_congr (hweight : ∀ q ∈ m, weightOf flowSet q = weightOf flowSet' q) :
    totalWeight flowSet m = totalWeight flowSet' m := by
  rw [totalWeight, totalWeight, map_congr rfl hweight]

/-- The flows of one queue, apart from the others. -/
theorem totalWeight_filter (hfs : flowSet k = some fs) (m : Multiset FlowId) :
    totalWeight flowSet m = fs.weight * m.countP (fun q => q.fs = k) +
      totalWeight flowSet (m.filter fun q => q.fs ≠ k) := by
  induction m using Multiset.induction with
  | empty => simp
  | cons q m ih =>
    rw [totalWeight_cons, ih]
    by_cases hk : q.fs = k
    · subst hk
      rw [countP_fs_cons_self, weightOf_eq hfs,
        filter_cons_of_neg (p := fun r : FlowId => r.fs ≠ q.fs) _ (not_not.mpr rfl)]
      push_cast
      ring
    · rw [countP_fs_cons_of_ne m (Ne.symm hk),
        filter_cons_of_pos (p := fun r : FlowId => r.fs ≠ k) _ hk, totalWeight_cons]
      ring

theorem SameFlows.sumOk (h : SameFlows s s') (hs : s.SumOk) : s'.SumOk := by
  rw [SumOk, h.active, h.idle, h.flowSet, h.sum]
  exact hs

/-! ## The steps -/

/-- After the deletion of a queue the sum is right exactly when none of its flows was idle. -/
theorem Deleted.sumOk_iff (hd : Deleted k fs s s') (hb : s.Books) (hs : s.SumOk)
    (hfs : s.flowSet k = some fs) : s'.SumOk ↔ ∀ q ∈ s.idle.members, q.fs ≠ k := by
  have hrest : totalWeight s'.flowSet (s'.active + s'.idle.members) =
      totalWeight s.flowSet (s.active.filter fun q => q.fs ≠ k) +
        totalWeight s.flowSet (s.idle.members.filter fun q => q.fs ≠ k) := by
    rw [hd.active, hd.idle, ← totalWeight_add]
    refine totalWeight_congr fun q hq => ?_
    rw [← filter_add, mem_filter] at hq
    rw [weightOf, weightOf, hd.flowSet, update_of_ne hq.2]
  have hsplit := hs
  rw [SumOk, totalWeight_add, totalWeight_filter hfs s.active,
    totalWeight_filter hfs s.idle.members, ← hb.backlogged k fs hfs] at hsplit
  have hdiff : s'.SumOk ↔ fs.weight * (s.idle.members.countP fun q => q.fs = k : ℤ) = 0 := by
    rw [SumOk, hd.sum]
    omega
  rw [hdiff, mul_eq_zero, or_iff_right (hb.weight k fs hfs), Nat.cast_eq_zero, countP_eq_zero]

/-- A queue is not made with a negative weight, and not deleted while one of its flows is idle. -/
def Clean (s : State) : Act → Prop
  | .event (.configQueue _ w) => 0 ≤ w
  | .event (.delete k) => ∀ q ∈ s.idle.members, q.fs ≠ k
  | _ => True

theorem Effect.sumOk (he : Effect a s s') (hb : s.Books) (hclean : Clean s a)
    (hs : s.SumOk) : s'.SumOk := by
  cases he with
  | same hsame => exact hsame.sumOk hs
  | linked k fs hfs hactive hidle hqueue hflowSet hsum
  | appended q fs pkts hfs hq hpkts hactive hidle hqueue hflowSet hsum =>
    rw [SumOk, hactive, hidle, hflowSet, hsum, totalWeight_update hfs (by rfl)]
    exact hs
  | requeued q pkts S F hq hpkts hactive hidle hqueue hflowSet hsum
  | expired q hempty hS hactive hidle hqueue hflowSet hsum =>
    rw [SumOk, hactive, hidle, hflowSet, hsum]
    exact hs
  | retired q fs key F hfs hactive hidle hqueue hflowSet hsum =>
    rw [SumOk, hidle, hflowSet, hsum, totalWeight_update hfs (by rfl),
      members_heapInsert, add_cons, ← cons_add, hactive]
    exact hs
  | activated q fs len S F hempty hfs hactive hidle hqueue hflowSet =>
    rw [SumOk, hactive, hflowSet, totalWeight_update hfs (by rfl)]
    rcases hidle with ⟨hsum, hidle, -⟩ | ⟨hsum, hidle, -⟩
    · rw [hsum, hidle, cons_add, totalWeight_cons, weightOf_eq hfs, hs, add_comm]
    · rw [hsum, cons_add, ← add_cons, hidle]
      exact hs
  | forgotten q fs hfs hactive hidle hplaced hqueue hflowSet hsum =>
    rw [SumOk, hactive, hflowSet, hsum, hs, ← hidle, add_cons, totalWeight_cons,
      weightOf_eq hfs, add_sub_cancel_left]
  | dropped hnone hactive hidle hqueue hflowSet hsum =>
    rw [SumOk, hactive, hidle, hsum, hnone]
    rfl
  | created k w ha hnone hactive hidle hqueue hflowSet hsum =>
    rw [SumOk, hactive, hidle, hsum, hs]
    refine totalWeight_congr fun q hq => ?_
    obtain ⟨fs, hfs, -⟩ := hb.owner q (mem_add.mp hq)
    have hk : q.fs ≠ k := by
      rintro rfl
      rw [hnone] at hfs
      cases hfs
    rw [weightOf, weightOf, hflowSet, update_of_ne hk]
  | deleted k fs ha hfs hdeleted =>
    subst ha
    exact (hdeleted.sumOk_iff hb hs hfs).mpr hclean

/-- The weights are positive. -/
def State.Positive (s : State) : Prop :=
  ∀ k fs, s.flowSet k = some fs → 0 < fs.weight

theorem positive_of_update (hp : s.Positive) (hfs : s.flowSet k = some fs)
    (hflowSet : s'.flowSet = update s.flowSet k (some fs'))
    (hw : fs'.weight = fs.weight) : s'.Positive := by
  intro j fs1 hj
  rw [hflowSet] at hj
  obtain ⟨rfl, ⟨⟩⟩ | ⟨-, hj⟩ := update_eq_some hj
  · rw [hw]
    exact hp j fs hfs
  · exact hp j fs1 hj

theorem Effect.positive (he : Effect a s s') (hclean : Clean s a)
    (hp : s.Positive) : s'.Positive := by
  cases he with
  | same hsame => exact fun k fs hk => hp k fs (hsame.flowSet ▸ hk)
  | linked k fs hfs hactive hidle hqueue hflowSet => exact positive_of_update hp hfs hflowSet rfl
  | appended q fs pkts hfs hq hpkts hactive hidle hqueue hflowSet =>
    exact positive_of_update hp hfs hflowSet rfl
  | requeued q pkts S F hq hpkts hactive hidle hqueue hflowSet =>
    exact fun k fs hk => hp k fs (hflowSet ▸ hk)
  | retired q fs key F hfs hactive hidle hqueue hflowSet
  | activated q fs len S F hempty hfs hactive hidle hqueue hflowSet =>
    exact positive_of_update hp hfs hflowSet rfl
  | forgotten q fs hfs hactive hidle hplaced hqueue hflowSet
  | expired q hempty hS hactive hidle hqueue hflowSet =>
    exact fun k fs hk => hp k fs (hflowSet ▸ hk)
  | dropped hnone hactive hidle hqueue hflowSet => exact fun k fs hk => hp k fs (hflowSet ▸ hk)
  | created k w ha hnone hactive hidle hqueue hflowSet =>
    subst ha
    intro j fs hj
    rw [hflowSet] at hj
    obtain ⟨-, ⟨⟩⟩ | ⟨-, hj⟩ := update_eq_some hj
    · change 0 < configWeight w
      have hw : 0 ≤ w := hclean
      unfold configWeight
      split
      · decide
      · split
        · decide
        · omega
    · exact hp j fs hj
  | deleted k fs ha hfs hdeleted =>
    intro j fs1 hj
    rw [hdeleted.flowSet] at hj
    obtain ⟨-, ⟨⟩⟩ | ⟨-, hj⟩ := update_eq_some hj
    exact hp j fs1 hj

/-- `ready_event_wfq` is about to divide by the sum of the weights. -/
def State.Dividing (s : State) : Prop :=
  ∃ n, s.running = some n ∧ more s n ∧ 0 < s.sch.elements

theorem State.SumOk.pos (hs : s.SumOk) (hb : s.Books) (hp : s.Positive)
    (hpos : 0 < s.sch.elements) : 0 < s.sum := by
  have hnonneg : ∀ q ∈ s.active + s.idle.members, 0 < weightOf s.flowSet q := by
    intro q hq
    obtain ⟨fs, hfs, -⟩ := hb.owner q (mem_add.mp hq)
    rw [weightOf_eq hfs]
    exact hp _ fs hfs
  obtain ⟨rest, hrest⟩ := exists_cons_of_mem
    (mem_add.mpr (.inl (mem_add.mpr (.inl (top_mem hpos)))) :
      (s.sch.p 0).object ∈ s.active + s.idle.members)
  rw [hs, hrest, totalWeight_cons]
  rw [hrest] at hnonneg
  refine add_pos_of_pos_of_nonneg (hnonneg _ (mem_cons_self _ _)) ?_
  refine sum_nonneg fun w hw => ?_
  obtain ⟨q, hq, rfl⟩ := mem_map.mp hw
  exact (hnonneg q (mem_cons_of_mem hq)).le

/-- A step in which no queue with idle flows is deleted. -/
def CleanStep (hz : ℕ) (s s' : State) : Prop :=
  ∃ a, step hz s a = some s' ∧ Clean s a

/-- **The sum of the weights.**  In every run in which no queue gets a negative weight and none is
deleted while one of its flows is idle, the sum of the pipe is that of the weights of the flows in
its three heaps, and it is positive whenever `ready_event_wfq` divides by it.  Deleting a queue
keeps it right exactly when none of its flows is idle. -/
theorem wf2q_sum (hz : ℕ) (hrun : Reachable Init (CleanStep hz) s) :
    s.SumOk ∧ (s.Dividing → 0 < s.sum) ∧
      ∀ k, (deleteQueue s k).SumOk ↔ ∀ q ∈ s.idle.members, q.fs ≠ k := by
  have hinv : s.Books ∧ s.SumOk ∧ s.Positive := by
    refine hrun.invariant (I := fun s => s.Books ∧ s.SumOk ∧ s.Positive)
      (fun s hinit => ⟨init_books hinit, ?_, fun k fs hk => ?_⟩)
      ?_
    · rw [SumOk, active, members_eq_zero hinit.sch, members_eq_zero hinit.neh,
        members_eq_zero hinit.idle, hinit.sum]
      rfl
    · rw [hinit.flowSet k] at hk
      cases hk
    · rintro s s' ⟨hb, hs, hp⟩ ⟨a, hstep, hclean⟩
      have he := step_effect hb hstep
      exact ⟨he.books hb, he.sumOk hb hclean hs, he.positive hclean hp⟩
  obtain ⟨hb, hs, hp⟩ := hinv
  refine ⟨hs, fun hdiv => ?_, fun k => ?_⟩
  · obtain ⟨_, _, _, hpos⟩ := hdiv
    exact hs.pos hb hp hpos
  cases hfs : s.flowSet k with
  | none =>
    rw [deleteQueue_of_none hfs]
    refine iff_of_true hs fun q hq hk => ?_
    obtain ⟨fs, hfs', -⟩ := hb.owner q (.inr hq)
    rw [hk, hfs] at hfs'
    cases hfs'
  | some fs => exact (deleteQueue_spec hb hfs).sumOk_iff hb hs hfs

/-- A packet arrives at an idle pipe, and `ready_event_wfq` is about to send it. -/
theorem wf2q_sum_first_packet : ∃ s : State, s.SumOk ∧ 0 < s.sum ∧ s.Dividing := by
  let acts : List Act := [.event (.configQueue 0 1), .event (.io ⟨0, 0⟩ 100 false false)]
  have hrun : (runActs 1000 (newPipe 1000) acts).any (fun s =>
      s.running = some 0 ∧ 0 < s.sch.elements) = true := by decide
  obtain ⟨s, hs, hstate⟩ := (Option.any_eq_true _ _).mp hrun
  obtain ⟨hrunning, hpos⟩ := of_decide_eq_true hstate
  have hreach : Reachable Init (CleanStep 1000) s := by
    refine reachable_runActs (fun a ha s s' hstep => ⟨a, hstep, ?_⟩)
      (.of_init (init_newPipe 1000)) hs
    simp only [acts, List.mem_cons, List.not_mem_nil, or_false] at ha
    rcases ha with rfl | rfl
    · exact Int.one_nonneg
    · trivial
  have hdiv : s.Dividing := ⟨0, hrunning, ⟨le_rfl, .inl hpos⟩, hpos⟩
  have hall := wf2q_sum 1000 hreach
  exact ⟨s, hall.1, hall.2.1 hdiv, hdiv⟩

/-- A queue is deleted after its only packet has been sent.  The flow is idle; its weight stays in
the sum although it is taken out of the idle heap. -/
theorem wf2q_sum_keeps_deleted :
    ∃ s, Reachable Init (fun s s' => ∃ a, step 1000 s a = some s') s ∧ s.running = none ∧
      s.sum = 1 ∧ s.active + s.idle.members = 0 ∧ ¬ s.SumOk := by
  let acts : List Act :=
    [.event (.configQueue 0 1), .event (.io ⟨0, 0⟩ 100 false false), .round, .finish,
      .event (.delete 0)]
  have hrun : (runActs 1000 (newPipe 1000) acts).any (fun s =>
      s.running = none ∧ s.sum = 1 ∧ s.active + s.idle.members = 0 ∧ ¬ s.SumOk) = true := by
    decide
  obtain ⟨s, hs, hstate⟩ := (Option.any_eq_true _ _).mp hrun
  exact ⟨s, reachable_runActs (fun a _ s s' hstep => ⟨a, hstep⟩) (.of_init (init_newPipe 1000)) hs,
    of_decide_eq_true hstate⟩

end FreeBSDSys.Dummynet
