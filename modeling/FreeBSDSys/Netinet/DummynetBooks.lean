import FreeBSDSys.Netinet.Dummynet

/-!
# Which flows are in the heaps

`Books` says for each flow in which of the heaps of the pipe it is, from its queue and its time
stamps alone; with it go the number of backlogged flows of each queue and the slots that are
recorded for the idle heap.  Every step keeps the books, whatever the times are.

* `step_effect`: what a step may do to the flows, in one place.
* `Effect.books`: the books are kept.
-/

namespace FreeBSDSys.Dummynet

open ArrayHeap ArrayHeap.Heap Function Multiset State

variable {s s' : State} {h idle idle' : Heap ℕ FlowId} {q : FlowId} {fs fs' : FlowSet}
  {key k len S F hz V : ℕ} {m m' : Multiset FlowId} {queue queue' : FlowId → FlowQueue}
  {flowSet : ℕ → Option FlowSet} {a : Act}

/-- The queues that are there when one queue has changed. -/
theorem update_eq_some {j : ℕ} {o : Option FlowSet} (h : update flowSet k o j = some fs) :
    j = k ∧ o = some fs ∨ j ≠ k ∧ flowSet j = some fs := by
  by_cases hk : j = k
  · subst hk
    rw [update_self] at h
    exact .inl ⟨rfl, h⟩
  · rw [update_of_ne hk] at h
    exact .inr ⟨hk, h⟩

/-! ## The heaps -/

theorem card_members : h.members.card = h.elements := by
  rw [members, entries, contents, card_map, card_map, card_range]

theorem members_eq_zero (hzero : h.elements = 0) : h.members = 0 :=
  card_eq_zero.mp (card_members.trans hzero)

theorem top_mem (hpos : 0 < h.elements) : (h.p 0).object ∈ h.members :=
  mem_map_of_mem _ (mem_contents.mpr ⟨0, hpos, rfl⟩)

theorem members_heapInsert : (heapInsert h key q).members = q ::ₘ h.members := by
  rw [heapInsert, members, entries_insert]
  rfl

theorem members_extractAt {i : ℕ} (hi : i < h.elements) :
    (h.p i).object ::ₘ (h.extractAt dnKeyLt i).members = h.members := by
  have hentries : h.p i ::ₘ (h.extractAt dnKeyLt i).entries = h.entries := entries_extractAt hi
  rw [members, members, ← hentries, map_cons]

theorem heapExtract_eq (hpos : 0 < h.elements) : heapExtract h = h.extractAt dnKeyLt 0 :=
  if_neg hpos.ne'

theorem members_heapExtract (hpos : 0 < h.elements) :
    (h.p 0).object ::ₘ (heapExtract h).members = h.members := by
  rw [heapExtract_eq hpos]
  exact members_extractAt hpos

theorem placed_heapExtract (hpos : 0 < h.elements) (hp : Placed h.elements h) :
    Placed (heapExtract h).elements (heapExtract h) := by
  rw [heapExtract_eq hpos]
  exact hp.extractAt hpos

/-- An idle flow is taken out at its recorded slot. -/
theorem heapExtractObj_spec (hp : Placed h.elements h) (hq : q ∈ h.members) :
    ∃ h', heapExtractObj h q = some h' ∧ q ::ₘ h'.members = h.members ∧ Placed h'.elements h' := by
  obtain ⟨i, hi, hpos, rfl⟩ := hp.object_at hq
  refine ⟨h.extractAt dnKeyLt i, ?_, members_extractAt hi, hp.extractAt hi⟩
  rw [heapExtractObj, if_neg (by omega), if_pos (by omega), hpos, Int.toNat_natCast]

theorem members_fsRemove : (fsRemoveFromHeap h k).members = h.members.filter fun q => q.fs ≠ k := by
  rw [fsRemoveFromHeap, members, entries_removeAll, members, filter_map]
  congr 1
  refine filter_congr fun e _ => ?_
  simp

/-! ## The time stamps -/

theorem dnKeyGt_succ (F : ℕ) : dnKeyGt (keyAdd F 1) F = true := by
  have hdiff : keyDiff (keyAdd F 1) F = 1 := by
    rw [keyDiff, keyAdd, Int.natCast_mod]
    have hmod : (((F + 1 : ℕ) : ℤ) % ((2 ^ 64 : ℕ) : ℤ) - F).bmod (2 ^ 64) =
        (((F + 1 : ℕ) : ℤ) - F).bmod (2 ^ 64) := Int.emod_sub_bmod _ _
    rw [hmod, show ((F + 1 : ℕ) : ℤ) - F = 1 by omega]
    rfl
  rw [dnKeyGt, hdiff]
  rfl

theorem dnKeyGt_self (F : ℕ) : dnKeyGt F F = false := by
  rw [dnKeyGt, keyDiff, sub_self]
  rfl

theorem ne_keyAdd_one (F : ℕ) : F ≠ keyAdd F 1 := by
  intro heq
  have hgt := dnKeyGt_succ F
  rw [← heq, dnKeyGt_self] at hgt
  exact Bool.false_ne_true hgt

/-! ## The books -/

theorem countP_fs_cons_self (q : FlowId) (m : Multiset FlowId) :
    (q ::ₘ m).countP (fun r => r.fs = q.fs) = m.countP (fun r => r.fs = q.fs) + 1 :=
  countP_cons_of_pos m rfl

theorem countP_fs_cons_of_ne {k : ℕ} {q : FlowId} (m : Multiset FlowId) (hk : k ≠ q.fs) :
    (q ::ₘ m).countP (fun r => r.fs = k) = m.countP fun r => r.fs = k :=
  countP_cons_of_neg m (Ne.symm hk)

/-- The flows of the scheduler heap and of the not-eligible heap. -/
def State.active (s : State) : Multiset FlowId := s.sch.members + s.neh.members

/-- What the books say about one flow: how often it is in the two heaps, and whether it is in the
idle heap. -/
def FlowOk (n : ℕ) (resting : Prop) (f : FlowQueue) : Prop :=
  (n = if f.pkts = [] then 0 else 1) ∧ (resting → f.pkts = [] ∧ f.S = f.F) ∧
    (f.pkts = [] → ¬resting → f.S = keyAdd f.F 1)

/-- A flow with packets is once in one of the two heaps.  A flow without is in the idle heap as long
as its time stamps are valid.  Each queue knows how many flows it has in the two heaps. -/
structure Books (m : Multiset FlowId) (idle : Heap ℕ FlowId) (queue : FlowId → FlowQueue)
    (flowSet : ℕ → Option FlowSet) : Prop where
  count : ∀ q, m.count q = if (queue q).pkts = [] then 0 else 1
  resting : ∀ q ∈ idle.members, (queue q).pkts = [] ∧ (queue q).S = (queue q).F
  expired : ∀ q, (queue q).pkts = [] → q ∉ idle.members → (queue q).S = keyAdd (queue q).F 1
  placed : Placed idle.elements idle
  owner : ∀ q, q ∈ m ∨ q ∈ idle.members → ∃ fs, flowSet q.fs = some fs ∧ fs.linked = true
  backlogged : ∀ k fs, flowSet k = some fs → fs.backlogged = m.countP fun q => q.fs = k
  weight : ∀ k fs, flowSet k = some fs → fs.weight ≠ 0

namespace Books

variable (hb : Books m idle queue flowSet)

include hb

theorem mem_iff : q ∈ m ↔ (queue q).pkts ≠ [] := by
  rw [← count_pos, hb.count]
  split
  · exact ⟨fun h => absurd h (lt_irrefl 0), absurd ‹_›⟩
  · exact ⟨fun _ => ‹_›, fun _ => Nat.zero_lt_one⟩

/-- The time stamps tell whether a flow without packets is in the idle heap. -/
theorem mem_idle_iff (hempty : (queue q).pkts = []) :
    q ∈ idle.members ↔ dnKeyGt (queue q).S (queue q).F = false := by
  constructor
  · intro hq
    rw [(hb.resting q hq).2]
    exact dnKeyGt_self _
  · intro hgt
    by_contra hq
    rw [hb.expired q hempty hq, dnKeyGt_succ] at hgt
    exact Bool.false_ne_true hgt.symm

theorem flowOk (q : FlowId) : FlowOk (m.count q) (q ∈ idle.members) (queue q) :=
  ⟨hb.count q, hb.resting q, hb.expired q⟩

/-- One flow changes. -/
theorem flow {f : FlowQueue} (hf : FlowOk (m'.count q) (q ∈ idle'.members) f)
    (hcount : ∀ r, r ≠ q → m'.count r = m.count r)
    (hidle : ∀ r, r ≠ q → (r ∈ idle'.members ↔ r ∈ idle.members)) (r : FlowId) :
    FlowOk (m'.count r) (r ∈ idle'.members) (update queue q f r) := by
  rcases eq_or_ne r q with rfl | hne
  · rw [update_self]
    exact hf
  · rw [update_of_ne hne, hcount r hne, hidle r hne]
    exact hb.flowOk r

/-- The record of one queue changes together with its flows. -/
theorem update (hfs : flowSet k = some fs) (hw : fs'.weight = fs.weight)
    (hlinked : fs'.linked = true) (hback : fs'.backlogged = m'.countP fun q => q.fs = k)
    (hother : ∀ j ≠ k, m'.countP (fun q => q.fs = j) = m.countP fun q => q.fs = j)
    (hmem : ∀ q, q ∈ m' ∨ q ∈ idle'.members → q.fs ≠ k → q ∈ m ∨ q ∈ idle.members)
    (hflow : ∀ q, FlowOk (m'.count q) (q ∈ idle'.members) (queue' q))
    (hplaced : Placed idle'.elements idle') :
    Books m' idle' queue' (update flowSet k (some fs')) := by
  refine ⟨fun q => (hflow q).1, fun q => (hflow q).2.1, fun q => (hflow q).2.2, hplaced,
    fun q hq => ?_, fun j fs1 hj => ?_, fun j fs1 hj => ?_⟩
  · by_cases hk : q.fs = k
    · rw [hk, update_self]
      exact ⟨fs', rfl, hlinked⟩
    · rw [update_of_ne hk]
      exact hb.owner q (hmem q hq hk)
  · obtain ⟨rfl, ⟨⟩⟩ | ⟨hk, hj⟩ := update_eq_some hj
    · exact hback
    · rw [hother j hk]
      exact hb.backlogged j fs1 hj
  · obtain ⟨rfl, ⟨⟩⟩ | ⟨-, hj⟩ := update_eq_some hj
    · rw [hw]
      exact hb.weight j fs hfs
    · exact hb.weight j fs1 hj

/-- The pipe of a queue is found. -/
theorem link (hfs : flowSet k = some fs) :
    Books m idle queue (Function.update flowSet k (some { fs with linked := true })) :=
  hb.update hfs rfl rfl (hb.backlogged k fs hfs) (fun _ _ => rfl) (fun _ hq _ => hq) hb.flowOk
    hb.placed

/-- One flow changes in place. -/
theorem setFlow {f : FlowQueue} (hf : FlowOk (m.count q) (q ∈ idle.members) f) :
    Books m idle (Function.update queue q f) flowSet := by
  have hflow := hb.flow hf (fun _ _ => rfl) fun _ _ => Iff.rfl
  exact ⟨fun r => (hflow r).1, fun r => (hflow r).2.1, fun r => (hflow r).2.2, hb.placed, hb.owner,
    hb.backlogged, hb.weight⟩

/-- A flow that has packets has other packets and other times. -/
theorem repack {pkts : List ℕ} (hq : (queue q).pkts ≠ []) (hpkts : pkts ≠ []) :
    Books m idle (Function.update queue q ⟨pkts, S, F⟩) flowSet := by
  refine hb.setFlow
    ⟨?_, fun hidle => absurd (hb.resting q hidle).1 hq, fun h => absurd h hpkts⟩
  rw [hb.count, if_neg hq, if_neg hpkts]

/-- A flow without packets gets one. -/
theorem activate (hempty : (queue q).pkts = []) (hfs : flowSet q.fs = some fs)
    (hidle : ∀ r, r ∈ idle'.members ↔ r ∈ idle.members ∧ r ≠ q)
    (hplaced : Placed idle'.elements idle') :
    Books (q ::ₘ m) idle' (Function.update queue q ⟨[len], S, F⟩) (Function.update flowSet q.fs
        (some { fs with backlogged := fs.backlogged + 1, linked := true })) := by
  have hone : FlowOk ((q ::ₘ m).count q) (q ∈ idle'.members) ⟨[len], S, F⟩ := by
    refine ⟨?_, fun hq => absurd rfl ((hidle q).mp hq).2, fun h => absurd h (List.cons_ne_nil _ _)⟩
    rw [count_cons_self, hb.count, if_pos hempty, if_neg (List.cons_ne_nil _ _)]
  refine hb.update hfs rfl rfl ?_ (fun j hj => ?_) (fun r hr hk => ?_) (hb.flow hone
    (fun r hr => count_cons_of_ne hr _) fun r hr => ?_) hplaced
  · have hback := hb.backlogged _ _ hfs
    rw [countP_fs_cons_self]
    change fs.backlogged + 1 = _
    omega
  · exact countP_fs_cons_of_ne m hj
  · have hrq : r ≠ q := fun h => hk (congrArg FlowId.fs h)
    refine hr.imp (fun h => ?_) fun h => ((hidle r).mp h).1
    exact (mem_cons.mp h).resolve_left hrq
  · rw [hidle r, and_iff_left hr]

/-- A flow has sent its last packet. -/
theorem retire (hm : q ::ₘ m' = m) (hfs : flowSet q.fs = some fs) :
    Books m' (heapInsert idle key q) (Function.update queue q ⟨[], F, F⟩)
      (Function.update flowSet q.fs (some { fs with backlogged := fs.backlogged - 1 })) := by
  subst hm
  have hmem : q ∈ q ::ₘ m' := mem_cons_self q m'
  have hidle : q ∉ idle.members := fun hq => hb.mem_iff.mp hmem (hb.resting q hq).1
  obtain ⟨fs1, hfs1, hlinked⟩ := hb.owner q (.inl hmem)
  cases hfs.symm.trans hfs1
  have hin : ∀ r, r ∈ (heapInsert idle key q).members ↔ r = q ∨ r ∈ idle.members := by
    intro r
    rw [members_heapInsert, mem_cons]
  have hone : FlowOk (m'.count q) (q ∈ (heapInsert idle key q).members) ⟨[], F, F⟩ := by
    refine ⟨?_, fun _ => ⟨rfl, rfl⟩, fun _ => absurd ((hin q).mpr (.inl rfl))⟩
    have hcount := hb.count q
    rw [count_cons_self, if_neg (hb.mem_iff.mp hmem)] at hcount
    rw [if_pos rfl]
    omega
  refine hb.update hfs rfl hlinked ?_ (fun j hj => ?_) (fun r hr hk => ?_) (hb.flow hone
    (fun r hr => (count_cons_of_ne hr m').symm) fun r hr => ?_)
    (Placed.insert hidle hb.placed)
  · have hback := hb.backlogged _ _ hfs
    rw [countP_fs_cons_self] at hback
    change fs.backlogged - 1 = _
    omega
  · exact (countP_fs_cons_of_ne m' hj).symm
  · have hrq : r ≠ q := fun h => hk (congrArg FlowId.fs h)
    exact hr.imp mem_cons_of_mem fun h => ((hin r).mp h).resolve_left hrq
  · rw [hin r, or_iff_right hr]

/-- An idle flow is taken out of the idle heap. -/
theorem mem_rest (hidle : q ::ₘ idle'.members = idle.members) (r : FlowId) :
    r ∈ idle'.members ↔ r ∈ idle.members ∧ r ≠ q := by
  have hnodup := hb.placed.nodup
  rw [← hidle, nodup_cons] at hnodup
  rw [← hidle, mem_cons]
  constructor
  · exact fun hr => ⟨.inr hr, ne_of_mem_of_not_mem hr hnodup.1⟩
  · exact fun hr => hr.1.resolve_left hr.2

/-- An idle flow is forgotten. -/
theorem forget (hidle : q ::ₘ idle'.members = idle.members)
    (hplaced : Placed idle'.elements idle') :
    Books m idle' (Function.update queue q { queue q with S := keyAdd (queue q).F 1 }) flowSet := by
  have hmem := hb.mem_rest hidle
  have hone : FlowOk (m.count q) (q ∈ idle'.members)
      { queue q with S := keyAdd (queue q).F 1 } :=
    ⟨hb.count q, fun hq => absurd rfl ((hmem q).mp hq).2, fun _ _ => rfl⟩
  have hflow := hb.flow hone (fun _ _ => rfl) fun r hr => by rw [hmem r, and_iff_left hr]
  refine ⟨fun r => (hflow r).1, fun r => (hflow r).2.1, fun r => (hflow r).2.2, hplaced,
    fun r hr => ?_, hb.backlogged, hb.weight⟩
  exact hb.owner r (hr.imp_right fun h => ((hmem r).mp h).1)

/-- All idle flows are forgotten. -/
theorem forgetAll : Books m { idle with elements := 0 }
    (fun q => if q ∈ idle.members then { queue q with S := keyAdd 0 1, F := 0 } else queue q)
    flowSet := by
  refine ⟨fun q => ?_, fun q hq => ?_, fun q hq _ => ?_, ?_, fun q hq => ?_, hb.backlogged,
    hb.weight⟩
  · have hpkts : (if q ∈ idle.members then { queue q with S := keyAdd 0 1, F := 0 }
        else queue q).pkts = (queue q).pkts := by
      split <;> rfl
    rw [hpkts, hb.count]
  · exact absurd hq (notMem_zero q)
  · split_ifs with hidle
    · rfl
    · rw [if_neg hidle] at hq
      exact hb.expired q hq hidle
  · exact fun i hi => absurd hi (Nat.not_lt_zero i)
  · exact hb.owner q (.inl (hq.resolve_right (notMem_zero q)))

/-- The queue of a flow without time stamps is freed. -/
theorem expire (hempty : (queue q).pkts = []) (hS : (queue q).S = keyAdd (queue q).F 1) :
    Books m idle (Function.update queue q .fresh) flowSet := by
  have hidle : q ∉ idle.members := by
    intro hq
    rw [(hb.resting q hq).2] at hS
    exact ne_keyAdd_one _ hS
  refine hb.setFlow ⟨?_, fun hq => absurd hq hidle, fun _ _ => rfl⟩
  rw [hb.count, if_pos hempty]
  rfl

/-- A queue is made. -/
theorem create (hnone : flowSet k = none) {w : ℤ} (hw : w ≠ 0) :
    Books m idle queue (Function.update flowSet k (some ⟨w, 0, false⟩)) := by
  have hne : ∀ q, q ∈ m ∨ q ∈ idle.members → q.fs ≠ k := by
    intro q hq heq
    obtain ⟨fs, hfs, -⟩ := hb.owner q hq
    rw [heq, hnone] at hfs
    cases hfs
  refine ⟨hb.count, hb.resting, hb.expired, hb.placed, fun q hq => ?_, fun j fs hj => ?_,
    fun j fs hj => ?_⟩
  · rw [update_of_ne (hne q hq)]
    exact hb.owner q hq
  · obtain ⟨rfl, ⟨⟩⟩ | ⟨-, hj⟩ := update_eq_some hj
    · have hzero : m.countP (fun q => q.fs = j) = 0 :=
        countP_eq_zero.mpr fun q hq => hne q (.inl hq)
      rw [hzero]
      rfl
    · exact hb.backlogged j fs hj
  · obtain ⟨-, ⟨⟩⟩ | ⟨-, hj⟩ := update_eq_some hj
    · exact hw
    · exact hb.weight j fs hj

/-- A queue is deleted with all its flows. -/
theorem delete (hplaced : Placed idle'.elements idle') (hm : m' = m.filter fun q => q.fs ≠ k)
    (hidle : idle'.members = idle.members.filter fun q => q.fs ≠ k) :
    Books m' idle' (fun q => if q.fs = k then .fresh else queue q)
      (Function.update flowSet k none) := by
  subst hm
  refine ⟨fun q => ?_, fun q hq => ?_, fun q hq hqi => ?_, hplaced, fun q hq => ?_,
    fun j fs hj => ?_, fun j fs hj => ?_⟩
  · rw [count_filter]
    by_cases hk : q.fs = k
    · rw [if_neg (not_not.mpr hk), if_pos hk]
      rfl
    · rw [if_pos hk, if_neg hk, hb.count]
  · rw [hidle, mem_filter] at hq
    rw [if_neg hq.2]
    exact hb.resting q hq.1
  · by_cases hk : q.fs = k
    · rw [if_pos hk]
      rfl
    · rw [if_neg hk] at hq ⊢
      rw [hidle, mem_filter] at hqi
      exact hb.expired q hq fun h => hqi ⟨h, hk⟩
  · rw [hidle, mem_filter, mem_filter] at hq
    have hk : q.fs ≠ k := hq.elim And.right And.right
    rw [update_of_ne hk]
    exact hb.owner q (hq.imp And.left And.left)
  · obtain ⟨-, ⟨⟩⟩ | ⟨hk, hj⟩ := update_eq_some hj
    rw [hb.backlogged j fs hj, countP_filter]
    congr 1
    exact countP_congr rfl fun q _ => by grind
  · obtain ⟨-, ⟨⟩⟩ | ⟨-, hj⟩ := update_eq_some hj
    exact hb.weight j fs hj

end Books

/-! ## What the steps do to the heaps -/

/-- Flows may have moved between the two heaps, and `V` may have changed. -/
structure SameFlows (s s' : State) : Prop where
  active : s'.active = s.active
  idle : s'.idle = s.idle
  queue : s'.queue = s.queue
  flowSet : s'.flowSet = s.flowSet
  sum : s'.sum = s.sum

theorem SameFlows.refl (s : State) : SameFlows s s := ⟨rfl, rfl, rfl, rfl, rfl⟩

theorem SameFlows.trans {s'' : State} (h : SameFlows s s') (h' : SameFlows s' s'') :
    SameFlows s s'' :=
  ⟨h'.active.trans h.active, h'.idle.trans h.idle, h'.queue.trans h.queue,
    h'.flowSet.trans h.flowSet, h'.sum.trans h.sum⟩

/-- The books of a state. -/
def State.Books (s : State) : Prop := Dummynet.Books s.active s.idle s.queue s.flowSet

theorem SameFlows.books (h : SameFlows s s') (hb : s.Books) : s'.Books := by
  rw [State.Books, h.active, h.idle, h.queue, h.flowSet]
  exact hb

theorem sameFlows_advance (s : State) : SameFlows s (advance s) := by
  unfold advance
  split
  · exact ⟨rfl, rfl, rfl, rfl, rfl⟩
  · exact .refl s

theorem sameFlows_promote (fuel : ℕ) (s : State) : SameFlows s (promote fuel s) := by
  induction fuel generalizing s with
  | zero => exact .refl s
  | succ fuel ih =>
    unfold promote
    split_ifs with hmore
    · refine SameFlows.trans ?_ (ih _)
      refine ⟨?_, rfl, rfl, rfl, rfl⟩
      change (heapInsert s.sch _ (s.neh.p 0).object).members + (heapExtract s.neh).members = _
      rw [members_heapInsert, active, ← members_heapExtract hmore.1, cons_add, add_cons]
    · exact .refl s

theorem sameFlows_settle (r : State × ℤ) : SameFlows r.1 (settle r) := by
  have h := (sameFlows_advance r.1).trans (sameFlows_promote r.1.neh.elements (advance r.1))
  exact ⟨h.active, h.idle, h.queue, h.flowSet, h.sum⟩

theorem sameFlows_wfqStart (busy : Bool) (s : State) : SameFlows s (wfqStart busy s) := by
  unfold wfqStart
  split
  · split
    · exact .refl s
    · exact ⟨rfl, rfl, rfl, rfl, rfl⟩
  · exact ⟨rfl, rfl, rfl, rfl, rfl⟩

/-- What a round does before flows are moved: the flow at the top has sent its last packet, or has
more. -/
theorem serve_cases {n : ℤ} {r : State × ℤ} (hserve : serve hz s n = some r) :
    ∃ len rest fs, (s.queue (s.sch.p 0).object).pkts = len :: rest ∧
      s.flowSet (s.sch.p 0).object.fs = some fs ∧
      ((rest = [] ∧ r.1 = retire s (s.sch.p 0).object fs (keyAdd s.V (scaled len s.sum))) ∨
        ∃ len' tail, rest = len' :: tail ∧
          r.1 = requeue s (s.sch.p 0).object rest (keyAdd s.V (scaled len s.sum))
            (keyAdd (s.queue (s.sch.p 0).object).F (scaled len' fs.weight))) := by
  unfold serve at hserve
  simp only at hserve
  split at hserve
  · rename_i len rest fs hpkts hfs
    split at hserve
    · cases hserve
    · refine ⟨len, rest, fs, hpkts, hfs, ?_⟩
      split at hserve
      · cases hserve
        exact .inl ⟨rfl, rfl⟩
      · rename_i len' tail
        split_ifs at hserve
        cases hserve
        exact .inr ⟨len', tail, rfl, rfl⟩
  · cases hserve

theorem active_retire (hpos : 0 < s.sch.elements) :
    (s.sch.p 0).object ::ₘ (retire s (s.sch.p 0).object fs V).active = s.active := by
  change (s.sch.p 0).object ::ₘ ((heapExtract s.sch).members + s.neh.members) = _
  rw [← cons_add, members_heapExtract hpos]
  rfl

theorem active_requeue {rest : List ℕ} (hpos : 0 < s.sch.elements) :
    (requeue s (s.sch.p 0).object rest V F).active = s.active := by
  rw [active, active, ← members_heapExtract hpos]
  unfold requeue
  split
  · rw [members_heapInsert, cons_add, add_cons]
  · rw [members_heapInsert]

/-- The start time of a flow tells whether it comes from the idle heap. -/
theorem startTime_cases {sum : ℤ} (hb : s.Books) (hempty : (s.queue q).pkts = [])
    (hstart : startTime s q fs = some (S, sum, idle')) :
    (S = s.V ∧ sum = s.sum + fs.weight ∧ idle' = s.idle ∧ q ∉ s.idle.members) ∨
      (S = max64 (s.queue q).F s.V ∧ sum = s.sum ∧ q ::ₘ idle'.members = s.idle.members ∧
        Placed idle'.elements idle') := by
  have hiff := hb.mem_idle_iff hempty
  unfold startTime at hstart
  split_ifs at hstart with hgt
  · cases hstart
    refine .inl ⟨rfl, rfl, rfl, fun hq => ?_⟩
    rw [hiff.mp hq] at hgt
    exact Bool.false_ne_true hgt
  · obtain ⟨h', hextract, hmembers, hplaced⟩ :=
      heapExtractObj_spec hb.placed (hiff.mpr (Bool.eq_false_iff.mpr hgt))
    rw [hextract] at hstart
    cases hstart
    exact .inr ⟨rfl, rfl, hmembers, hplaced⟩

/-- The new flow joins the two heaps. -/
structure Joined (q : FlowId) (s s' : State) : Prop where
  active : s'.active = q ::ₘ s.active
  idle : s'.idle = s.idle
  queue : s'.queue = s.queue
  flowSet : s'.flowSet = s.flowSet
  sum : s'.sum = s.sum

theorem joined_schedule (s : State) (q : FlowId) (S F : ℕ) (busy : Bool) :
    Joined q s (schedule s q S F busy) := by
  have hsch : (heapInsert s.sch F q).members + s.neh.members = q ::ₘ s.active := by
    rw [members_heapInsert]
    rfl
  unfold schedule
  split
  · refine ⟨?_, rfl, rfl, rfl, rfl⟩
    change s.sch.members + (heapInsert s.neh S q).members = _
    rw [members_heapInsert, add_cons]
    rfl
  · split
    · have hstart := sameFlows_wfqStart busy
        { s with sch := heapInsert s.sch F q, schedTime := s.currTime }
      exact ⟨hstart.active.trans hsch, hstart.idle, hstart.queue, hstart.flowSet, hstart.sum⟩
    · exact ⟨hsch, rfl, rfl, rfl, rfl⟩

/-- A queue has been deleted with its flows. -/
structure Deleted (k : ℕ) (fs : FlowSet) (s s' : State) : Prop where
  active : s'.active = s.active.filter fun q => q.fs ≠ k
  idle : s'.idle.members = s.idle.members.filter fun q => q.fs ≠ k
  placed : Placed s'.idle.elements s'.idle
  queue : s'.queue = fun q => if q.fs = k then .fresh else s.queue q
  flowSet : s'.flowSet = update s.flowSet k none
  sum : s'.sum = s.sum - fs.weight * fs.backlogged

/-- What a step may do to the flows.  Queues are made and deleted by their own events. -/
inductive Effect (a : Act) (s s' : State) : Prop where
  | same (hsame : SameFlows s s')
  | linked (k : ℕ) (fs : FlowSet) (hfs : s.flowSet k = some fs) (hactive : s'.active = s.active)
      (hidle : s'.idle = s.idle) (hqueue : s'.queue = s.queue)
      (hflowSet : s'.flowSet = update s.flowSet k (some { fs with linked := true }))
      (hsum : s'.sum = s.sum)
  | appended (q : FlowId) (fs : FlowSet) (pkts : List ℕ) (hfs : s.flowSet q.fs = some fs)
      (hq : (s.queue q).pkts ≠ []) (hpkts : pkts ≠ []) (hactive : s'.active = s.active)
      (hidle : s'.idle = s.idle)
      (hqueue : s'.queue = update s.queue q { s.queue q with pkts := pkts })
      (hflowSet : s'.flowSet = update s.flowSet q.fs (some { fs with linked := true }))
      (hsum : s'.sum = s.sum)
  | requeued (q : FlowId) (pkts : List ℕ) (S F : ℕ) (hq : (s.queue q).pkts ≠ [])
      (hpkts : pkts ≠ []) (hactive : s'.active = s.active) (hidle : s'.idle = s.idle)
      (hqueue : s'.queue = update s.queue q ⟨pkts, S, F⟩)
      (hflowSet : s'.flowSet = s.flowSet) (hsum : s'.sum = s.sum)
  | retired (q : FlowId) (fs : FlowSet) (key F : ℕ) (hfs : s.flowSet q.fs = some fs)
      (hactive : q ::ₘ s'.active = s.active) (hidle : s'.idle = heapInsert s.idle key q)
      (hqueue : s'.queue = update s.queue q ⟨[], F, F⟩)
      (hflowSet : s'.flowSet = update s.flowSet q.fs
        (some { fs with backlogged := fs.backlogged - 1 }))
      (hsum : s'.sum = s.sum)
  | activated (q : FlowId) (fs : FlowSet) (len S F : ℕ) (hempty : (s.queue q).pkts = [])
      (hfs : s.flowSet q.fs = some fs) (hactive : s'.active = q ::ₘ s.active)
      (hidle : (s'.sum = s.sum + fs.weight ∧ s'.idle = s.idle ∧ q ∉ s.idle.members) ∨
        (s'.sum = s.sum ∧ q ::ₘ s'.idle.members = s.idle.members ∧ Placed s'.idle.elements s'.idle))
      (hqueue : s'.queue = update s.queue q ⟨[len], S, F⟩)
      (hflowSet : s'.flowSet = update s.flowSet q.fs
        (some { fs with backlogged := fs.backlogged + 1, linked := true }))
  | forgotten (q : FlowId) (fs : FlowSet) (hfs : s.flowSet q.fs = some fs)
      (hactive : s'.active = s.active) (hidle : q ::ₘ s'.idle.members = s.idle.members)
      (hplaced : Placed s'.idle.elements s'.idle)
      (hqueue : s'.queue = update s.queue q
        { s.queue q with S := keyAdd (s.queue q).F 1 })
      (hflowSet : s'.flowSet = s.flowSet) (hsum : s'.sum = s.sum - fs.weight)
  | dropped (hnone : s.active = 0) (hactive : s'.active = s.active)
      (hidle : s'.idle = { s.idle with elements := 0 })
      (hqueue : s'.queue = fun q =>
        if q ∈ s.idle.members then { s.queue q with S := keyAdd 0 1, F := 0 } else s.queue q)
      (hflowSet : s'.flowSet = s.flowSet) (hsum : s'.sum = 0)
  | expired (q : FlowId) (hempty : (s.queue q).pkts = [])
      (hS : (s.queue q).S = keyAdd (s.queue q).F 1) (hactive : s'.active = s.active)
      (hidle : s'.idle = s.idle) (hqueue : s'.queue = update s.queue q .fresh)
      (hflowSet : s'.flowSet = s.flowSet) (hsum : s'.sum = s.sum)
  | created (k : ℕ) (w : ℤ) (ha : a = .event (.configQueue k w)) (hnone : s.flowSet k = none)
      (hactive : s'.active = s.active) (hidle : s'.idle = s.idle) (hqueue : s'.queue = s.queue)
      (hflowSet : s'.flowSet = update s.flowSet k (some ⟨configWeight w, 0, false⟩))
      (hsum : s'.sum = s.sum)
  | deleted (k : ℕ) (fs : FlowSet) (ha : a = .event (.delete k)) (hfs : s.flowSet k = some fs)
      (hdeleted : Deleted k fs s s')

/-- A round sends a packet, unless no flow is eligible. -/
theorem wfqRound_cases (hround : wfqRound hz s = some s') : ∃ r : State × ℤ, s' = settle r ∧
    (r.1 = s ∨ 0 < s.sch.elements ∧ ∃ n, serve hz s n = some r) := by
  unfold wfqRound at hround
  split at hround
  · split at hround
    · obtain ⟨r, hr, rfl⟩ := Option.map_eq_some_iff.mp hround
      refine ⟨r, rfl, ?_⟩
      split_ifs at hr with hpos
      · exact .inr ⟨hpos, _, hr⟩
      · cases hr
        exact .inl rfl
    · cases hround
  · cases hround

theorem requeue_frame (s : State) (q : FlowId) (rest : List ℕ) (V F : ℕ) :
    let t := requeue s q rest V F
    t.idle = s.idle ∧ t.queue = update s.queue q ⟨rest, (s.queue q).F, F⟩ ∧
      t.flowSet = s.flowSet ∧ t.sum = s.sum := by
  unfold requeue
  split <;> exact ⟨rfl, rfl, rfl, rfl⟩

theorem wfqRound_effect (hb : s.Books) (hround : wfqRound hz s = some s') : Effect .round s s' := by
  obtain ⟨r, rfl, hr | ⟨hpos, n, hr⟩⟩ := wfqRound_cases hround
  · exact .same (hr ▸ sameFlows_settle r)
  · have hsettle := sameFlows_settle r
    have hq := hb.mem_iff.mp (mem_add.mpr (.inl (top_mem hpos)))
    obtain ⟨len, rest, fs, hpkts, hfs, ⟨rfl, hr'⟩ | ⟨len', tail, rfl, hr'⟩⟩ := serve_cases hr
    · rw [hr'] at hsettle
      refine .retired _ fs _ _ hfs ?_ hsettle.idle hsettle.queue hsettle.flowSet hsettle.sum
      rw [hsettle.active]
      exact active_retire hpos
    · rw [hr'] at hsettle
      obtain ⟨hidle, hqueue, hflowSet, hsum⟩ := requeue_frame s (s.sch.p 0).object (len' :: tail) _ _
      exact .requeued _ _ _ _ hq (List.cons_ne_nil _ _) (hsettle.active.trans (active_requeue hpos))
        (hsettle.idle.trans hidle) (hsettle.queue.trans hqueue) (hsettle.flowSet.trans hflowSet)
        (hsettle.sum.trans hsum)

/-- The idle heap is given up when nothing is left to send. -/
theorem wfqFinish_cases (hfinish : wfqFinish s = some s') : ∃ t schedTime numbytes,
    (t = s ∨ s.sch.elements = 0 ∧ s.neh.elements = 0 ∧ t = dropIdle s) ∧
      s' = { t with schedTime := schedTime, numbytes := numbytes, running := none } := by
  unfold wfqFinish at hfinish
  split at hfinish
  · split at hfinish
    · cases hfinish
    · cases hfinish
      refine ⟨_, _, _, ?_, rfl⟩
      split_ifs with hdrop
      · exact .inr ⟨hdrop.1, hdrop.2.1, rfl⟩
      · exact .inl rfl
  · cases hfinish

theorem wfqFinish_effect (hfinish : wfqFinish s = some s') : Effect .finish s s' := by
  obtain ⟨t, _, _, rfl | ⟨hsch, hneh, rfl⟩, rfl⟩ := wfqFinish_cases hfinish
  · exact .same ⟨rfl, rfl, rfl, rfl, rfl⟩
  · have hnone : s.active = 0 := by
      rw [active, members_eq_zero hsch, members_eq_zero hneh]
      rfl
    exact .dropped hnone rfl rfl rfl rfl rfl

theorem dummynetIo_effect {drop busy : Bool} (hb : s.Books)
    (hio : dummynetIo s q len drop busy = some s') :
    Effect (.event (.io q len drop busy)) s s' := by
  unfold dummynetIo at hio
  split at hio
  · cases hio
    exact .same (.refl s)
  · rename_i fs hfs
    split at hio
    · cases hio
      exact .linked _ fs hfs rfl rfl rfl rfl rfl
    · split at hio
      · rename_i hq
        cases hio
        exact .appended q fs _ hfs hq (List.append_ne_nil_of_right_ne_nil _ (List.cons_ne_nil _ _))
          rfl rfl rfl rfl rfl
      · rename_i hempty
        rw [not_not] at hempty
        split at hio
        · rename_i S sum idle' hstart
          split_ifs at hio
          cases hio
          have hjoin := joined_schedule (activate s q fs len S (keyAdd S (scaled len fs.weight))
            sum idle') q S (keyAdd S (scaled len fs.weight)) busy
          refine .activated q fs len S (keyAdd S (scaled len fs.weight)) hempty hfs
            hjoin.active ?_ hjoin.queue hjoin.flowSet
          rw [hjoin.sum, hjoin.idle]
          rcases startTime_cases hb hempty hstart with ⟨-, rfl, rfl, hq⟩ | ⟨-, rfl, hq, hp⟩
          · exact .inl ⟨rfl, rfl, hq⟩
          · exact .inr ⟨rfl, hq, hp⟩
        · cases hio

theorem sweep_effect (hb : s.Books) (hsweep : sweep s = some s') : Effect (.event .sweep) s s' := by
  unfold sweep at hsweep
  simp only at hsweep
  split_ifs at hsweep with hpos
  · split at hsweep
    · rename_i fs hfs
      cases hsweep
      exact .forgotten _ fs hfs rfl (members_heapExtract hpos.1)
        (placed_heapExtract hpos.1 hb.placed) rfl rfl rfl
    · cases hsweep
  · cases hsweep
    exact .same (.refl s)

theorem deleteQueue_spec (hb : s.Books) (hfs : s.flowSet k = some fs) :
    Deleted k fs s (deleteQueue s k) := by
  have hdelete : deleteQueue s k =
      purgeFlowSet (if fs.linked then unlinkFlows s k fs else s) k := by
    unfold deleteQueue
    rw [hfs]
  rw [hdelete]
  split_ifs with hlinked
  · refine ⟨?_, members_fsRemove, hb.placed.removeAll, rfl, rfl, rfl⟩
    change (fsRemoveFromHeap s.sch k).members + (fsRemoveFromHeap s.neh k).members = _
    rw [members_fsRemove, members_fsRemove, active, filter_add]
  · -- a queue that was never linked has no flows
    have hne : ∀ q, q ∈ s.active ∨ q ∈ s.idle.members → q.fs ≠ k := by
      rintro q hq rfl
      obtain ⟨fs', hfs', hlinked'⟩ := hb.owner q hq
      cases hfs.symm.trans hfs'
      exact hlinked hlinked'
    have hzero : fs.backlogged = 0 := by
      rw [hb.backlogged k fs hfs, countP_eq_zero.mpr fun q hq => hne q (.inl hq)]
      rfl
    refine ⟨?_, ?_, hb.placed, rfl, rfl, ?_⟩
    · exact (filter_eq_self.mpr fun q hq => hne q (.inl hq)).symm
    · exact (filter_eq_self.mpr fun q hq => hne q (.inr hq)).symm
    · rw [hzero, Int.mul_zero, Int.sub_zero]
      rfl

theorem deleteQueue_of_none (hnone : s.flowSet k = none) : deleteQueue s k = s := by
  unfold deleteQueue
  rw [hnone]

theorem deleteQueue_effect (hb : s.Books) (k : ℕ) :
    Effect (.event (.delete k)) s (deleteQueue s k) := by
  cases hfs : s.flowSet k with
  | none =>
    rw [deleteQueue_of_none hfs]
    exact .same (.refl s)
  | some fs => exact .deleted k fs rfl hfs (deleteQueue_spec hb hfs)

theorem handle_effect {e : Event} (hb : s.Books) (hhandle : handle s e = some s') :
    Effect (.event e) s s' := by
  cases e with
  | io q len drop busy => exact dummynetIo_effect hb hhandle
  | ready busy =>
    cases hhandle
    exact .same (sameFlows_wfqStart busy s)
  | clock t | configPipe bandwidth ifName =>
    cases hhandle
    exact .same ⟨rfl, rfl, rfl, rfl, rfl⟩
  | sweep => exact sweep_effect hb hhandle
  | expire q =>
    cases hhandle
    unfold expireQueue
    split_ifs with hq
    · exact .expired q hq.1 hq.2 rfl rfl rfl rfl rfl
    · exact .same (.refl s)
  | configQueue k w =>
    cases hhandle
    unfold configQueue
    split
    · rename_i hnone
      exact .created k w rfl hnone rfl rfl rfl rfl rfl
    · exact .same (.refl s)
  | delete k =>
    cases hhandle
    exact deleteQueue_effect hb k

/-- **What a step may do to the flows**, in one place. -/
theorem step_effect (hb : s.Books) (hstep : step hz s a = some s') : Effect a s s' := by
  cases a with
  | event e => exact handle_effect hb (Option.ite_none_right_eq_some.mp hstep).2
  | round => exact wfqRound_effect hb hstep
  | finish => exact wfqFinish_effect hstep

theorem configWeight_ne_zero (w : ℤ) : configWeight w ≠ 0 := by
  unfold configWeight
  split
  · decide
  · split
    · decide
    · assumption

/-- **Every step keeps the books.** -/
theorem Effect.books (he : Effect a s s') (hb : s.Books) : s'.Books := by
  cases he with
  | same hsame => exact hsame.books hb
  | linked k fs hfs hactive hidle hqueue hflowSet =>
    rw [State.Books, hactive, hidle, hqueue, hflowSet]
    exact hb.link hfs
  | appended q fs pkts hfs hq hpkts hactive hidle hqueue hflowSet =>
    rw [State.Books, hactive, hidle, hqueue, hflowSet]
    exact (hb.link hfs).repack hq hpkts
  | requeued q pkts S F hq hpkts hactive hidle hqueue hflowSet =>
    rw [State.Books, hactive, hidle, hqueue, hflowSet]
    exact hb.repack hq hpkts
  | retired q fs key F hfs hactive hidle hqueue hflowSet =>
    rw [State.Books, hidle, hqueue, hflowSet]
    exact hb.retire hactive hfs
  | activated q fs len S F hempty hfs hactive hidle hqueue hflowSet =>
    rw [State.Books, hactive, hqueue, hflowSet]
    rcases hidle with ⟨-, hidle, hq⟩ | ⟨-, hidle, hplaced⟩
    · rw [hidle]
      refine hb.activate hempty hfs (fun r => ?_) hb.placed
      exact (and_iff_left_of_imp fun hr => ne_of_mem_of_not_mem hr hq).symm
    · exact hb.activate hempty hfs (hb.mem_rest hidle) hplaced
  | forgotten q fs hfs hactive hidle hplaced hqueue hflowSet =>
    rw [State.Books, hactive, hqueue, hflowSet]
    exact hb.forget hidle hplaced
  | dropped hnone hactive hidle hqueue hflowSet =>
    rw [State.Books, hactive, hidle, hqueue, hflowSet]
    exact hb.forgetAll
  | expired q hempty hS hactive hidle hqueue hflowSet =>
    rw [State.Books, hactive, hidle, hqueue, hflowSet]
    exact hb.expire hempty hS
  | created k w ha hnone hactive hidle hqueue hflowSet =>
    rw [State.Books, hactive, hidle, hqueue, hflowSet]
    exact hb.create hnone (configWeight_ne_zero w)
  | deleted k fs ha hfs hdeleted =>
    rw [State.Books, hdeleted.queue, hdeleted.flowSet]
    exact hb.delete hdeleted.placed hdeleted.active hdeleted.idle

theorem init_books (hinit : Init s) : s.Books := by
  have hactive : s.active = 0 := by
    rw [active, members_eq_zero hinit.sch, members_eq_zero hinit.neh]
    rfl
  have hidle : s.idle.members = 0 := members_eq_zero hinit.idle
  rw [State.Books, hactive]
  refine ⟨fun q => ?_, fun q hq => ?_, fun q _ _ => ?_, fun i hi => ?_, fun q hq => ?_,
    fun k fs hk => ?_, fun k fs hk => ?_⟩
  · rw [hinit.queue q]
    rfl
  · rw [hidle] at hq
    exact absurd hq (notMem_zero q)
  · rw [hinit.queue q]
    rfl
  · rw [hinit.idle] at hi
    exact absurd hi (Nat.not_lt_zero i)
  · rw [hidle, or_self] at hq
    exact absurd hq (notMem_zero q)
  · rw [hinit.flowSet k] at hk
    cases hk
  · rw [hinit.flowSet k] at hk
    cases hk

end FreeBSDSys.Dummynet
