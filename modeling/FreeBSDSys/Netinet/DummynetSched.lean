import FreeBSDSys.Netinet.DummynetBooks

/-!
# Eligible flows

A flow is eligible when its start time is not after the virtual time.  The comments in the source
say that the scheduler heap has the eligible flows, keyed by finish time, and the not-eligible heap
the others, keyed by start time.

A flow that has been served and has more packets goes to the not-eligible heap if it is eligible and
to the scheduler heap if it is not.  The first does no harm, since the flow is moved on in the same
round; the second breaks the rule.  So the rule holds as long as a served flow that has more packets
is eligible at once, and no time gets so large that the signed comparison fails.

* `Pending.promote`: the round ends with all eligible flows in the scheduler heap, because the top
  of the not-eligible heap is the least start time.
* `wf2q_eligibility`: the rule in every run whose steps meet the condition.
-/

namespace FreeBSDSys.Dummynet

open ArrayHeap ArrayHeap.Heap Function Multiset Option

variable {s s' : State} {h idle' : Heap ℕ FlowId} {q : FlowId} {fs : FlowSet}
  {key a b hz len S F : ℕ} {e : Entry ℕ FlowId} {r : State × ℤ} {sum : ℤ} {busy : Bool}

/-! ## Times that do not wrap -/

section

variable (ha : a < 2 ^ 63) (hb : b < 2 ^ 63)

include ha hb

theorem keyDiff_eq : keyDiff a b = a - b := by
  refine Int.bmod_eq_of_le ?_ ?_ <;> omega

theorem dnKeyLt_iff : dnKeyLt a b = true ↔ a < b := by
  rw [dnKeyLt, keyDiff_eq ha hb, decide_eq_true_iff]
  omega

theorem dnKeyLeq_iff : dnKeyLeq a b = true ↔ a ≤ b := by
  rw [dnKeyLeq, keyDiff_eq ha hb, decide_eq_true_iff]
  omega

theorem dnKeyGt_iff : dnKeyGt a b = true ↔ b < a := by
  rw [dnKeyGt, keyDiff_eq ha hb, decide_eq_true_iff]
  omega

theorem max64_eq : max64 a b = max a b := by
  rw [max64, keyDiff_eq hb ha]
  split <;> omega

end

theorem keyAdd_eq (h : a + b < 2 ^ 63) : keyAdd a b = a + b :=
  Nat.mod_eq_of_lt (by omega)

theorem agrees_dnKeyLt : Agrees dnKeyLt (· < 2 ^ 63) :=
  fun _ _ => dnKeyLt_iff

/-! ## The entries of the heaps -/

theorem entries_heapInsert : (heapInsert h key q).entries = ⟨key, q⟩ ::ₘ h.entries :=
  entries_insert

theorem forall_heapInsert {P : Entry ℕ FlowId → Prop} : (∀ e ∈ (heapInsert h key q).entries, P e) ↔
    P ⟨key, q⟩ ∧ ∀ e ∈ h.entries, P e := by
  rw [entries_heapInsert, forall_mem_cons]

theorem entries_heapExtract (hpos : 0 < h.elements) :
    h.p 0 ::ₘ (heapExtract h).entries = h.entries := by
  rw [heapExtract_eq hpos]
  exact entries_extractAt hpos

theorem top_mem_entries (hpos : 0 < h.elements) : h.p 0 ∈ h.entries :=
  mem_contents.mpr ⟨0, hpos, rfl⟩

theorem notMem_entries (hzero : h.elements = 0) (e : Entry ℕ FlowId) : e ∉ h.entries := by
  intro he
  obtain ⟨i, hi, -⟩ := mem_contents.mp he
  exact Nat.not_lt_zero i (hzero ▸ hi)

theorem object_mem (he : e ∈ h.entries) : e.object ∈ h.members :=
  mem_map_of_mem _ he

theorem mem_of_mem_heapExtract (hpos : 0 < h.elements)
    (he : e ∈ (heapExtract h).entries) : e ∈ h.entries := by
  rw [← entries_heapExtract hpos]
  exact mem_cons_of_mem he

theorem ordered_heapInsert (hk : ∀ e ∈ h.entries, e.key < 2 ^ 63) (hkey : key < 2 ^ 63)
    (ho : Ordered h.elements h.p) : Ordered (heapInsert h key q).elements (heapInsert h key q).p :=
  ho.insert agrees_dnKeyLt hk hkey

theorem ordered_heapExtract (hpos : 0 < h.elements) (hk : ∀ e ∈ h.entries, e.key < 2 ^ 63)
    (ho : Ordered h.elements h.p) : Ordered (heapExtract h).elements (heapExtract h).p := by
  rw [heapExtract_eq hpos]
  exact ho.extractAt agrees_dnKeyLt hk hpos

/-! ## The rule -/

/-- The rule: the scheduler heap has eligible flows, keyed by finish time, and the not-eligible heap
has flows that are not, keyed by start time; each flow with packets is in one of them. -/
structure Eligible (s : State) : Prop where
  sch : ∀ e ∈ s.sch.entries, dnKeyLeq (s.queue e.object).S s.V = true ∧ e.key = (s.queue e.object).F
  neh : ∀ e ∈ s.neh.entries, dnKeyGt (s.queue e.object).S s.V = true ∧ e.key = (s.queue e.object).S
  backlogged : ∀ q, (s.queue q).pkts ≠ [] → s.sch.members.count q + s.neh.members.count q = 1

/-- A flow of the scheduler heap. -/
structure Ready (V key : ℕ) (f : FlowQueue) : Prop where
  key : key = f.F
  start : f.S ≤ V
  finish : f.F < 2 ^ 63

/-- A flow of the not-eligible heap. -/
structure Waiting (key : ℕ) (f : FlowQueue) : Prop where
  key : key = f.S
  start : f.S < 2 ^ 63
  finish : f.F < 2 ^ 63

/-- The state in the middle of a round: eligible flows may still be in the not-eligible heap. -/
structure Pending (s : State) : Prop where
  V : s.V < 2 ^ 63
  sch : ∀ e ∈ s.sch.entries, Ready s.V e.key (s.queue e.object)
  neh : ∀ e ∈ s.neh.entries, Waiting e.key (s.queue e.object)
  ordered : Ordered s.neh.elements s.neh.p
  idle : ∀ q ∈ s.idle.members, (s.queue q).F < 2 ^ 63

/-- The rule, with times that do not wrap and the order of the not-eligible heap. -/
structure Sched (s : State) : Prop extends Pending s where
  later : ∀ e ∈ s.neh.entries, s.V < (s.queue e.object).S

theorem Pending.nehKey (hp : Pending s) : ∀ e ∈ s.neh.entries, e.key < 2 ^ 63 := by
  intro e he
  rw [(hp.neh e he).key]
  exact (hp.neh e he).start

theorem Sched.eligible (hs : Sched s) (hb : s.Books) : Eligible s := by
  refine ⟨fun e he => ?_, fun e he => ?_, fun q hq => ?_⟩
  · obtain ⟨hkey, hS, -⟩ := hs.sch e he
    exact ⟨(dnKeyLeq_iff (hS.trans_lt hs.V) hs.V).mpr hS, hkey⟩
  · obtain ⟨hkey, hS, -⟩ := hs.neh e he
    exact ⟨(dnKeyGt_iff hS hs.V).mpr (hs.later e he), hkey⟩
  · rw [← count_add]
    exact (hb.count q).trans (if_neg hq)

/-- The heaps are empty. -/
theorem Sched.of_empty (hV : s.V < 2 ^ 63) (hsch : s.sch.elements = 0) (hneh : s.neh.elements = 0)
    (hidle : s.idle.elements = 0) : Sched s := by
  refine ⟨⟨hV, fun e he => ?_, fun e he => ?_, fun i _ hi => ?_, fun q hq => ?_⟩, fun e he => ?_⟩
  · exact absurd he (notMem_entries hsch e)
  · exact absurd he (notMem_entries hneh e)
  · exact absurd (hneh ▸ hi) (Nat.not_lt_zero i)
  · rw [members_eq_zero hidle] at hq
    exact absurd hq (notMem_zero q)
  · exact absurd he (notMem_entries hneh e)

/-- The rule does not read the other fields. -/
theorem Sched.frame (hs : Sched s) (hV : s'.V = s.V) (hsch : s'.sch = s.sch) (hneh : s'.neh = s.neh)
    (hidle : s'.idle = s.idle) (hqueue : s'.queue = s.queue) : Sched s' := by
  cases s'
  subst hV hsch hneh hidle hqueue
  exact ⟨⟨hs.V, hs.sch, hs.neh, hs.ordered, hs.idle⟩, hs.later⟩

/-- Flows may leave the heaps, and what is left keeps its times. -/
structure Shrinks (s s' : State) : Prop where
  sch : ∀ e ∈ s'.sch.entries, e ∈ s.sch.entries
  neh : ∀ e ∈ s'.neh.entries, e ∈ s.neh.entries
  ordered : Ordered s'.neh.elements s'.neh.p
  idle : ∀ r ∈ s'.idle.members, r ∈ s.idle.members
  times : ∀ r, r ∈ s'.active ∨ r ∈ s'.idle.members →
    (s'.queue r).S = (s.queue r).S ∧ (s'.queue r).F = (s.queue r).F

theorem Pending.shrink (hp : Pending s) (hshrink : Shrinks s s') (hV : s.V ≤ s'.V)
    (hbound : s'.V < 2 ^ 63) : Pending s' := by
  refine ⟨hbound, fun e he => ?_, fun e he => ?_, hshrink.ordered, fun r hr => ?_⟩
  · obtain ⟨hkey, hS, hF⟩ := hp.sch e (hshrink.sch e he)
    obtain ⟨hS', hF'⟩ := hshrink.times _ (.inl (mem_add.mpr (.inl (object_mem he))))
    exact ⟨hF' ▸ hkey, hS' ▸ hS.trans hV, hF' ▸ hF⟩
  · obtain ⟨hkey, hS, hF⟩ := hp.neh e (hshrink.neh e he)
    obtain ⟨hS', hF'⟩ := hshrink.times _ (.inl (mem_add.mpr (.inr (object_mem he))))
    exact ⟨hS' ▸ hkey, hS' ▸ hS, hF' ▸ hF⟩
  · rw [(hshrink.times r (.inr hr)).2]
    exact hp.idle r (hshrink.idle r hr)

theorem Sched.shrink (hs : Sched s) (hshrink : Shrinks s s') (hV : s'.V = s.V) : Sched s' := by
  refine ⟨hs.toPending.shrink hshrink hV.ge (hV ▸ hs.V), fun e he => ?_⟩
  rw [hV, (hshrink.times _ (.inl (mem_add.mpr (.inr (object_mem he))))).1]
  exact hs.later e (hshrink.neh e he)

/-- The queue of a flow that is in none of the heaps changes. -/
theorem Pending.shrinks_update {f : FlowQueue} (hp : Pending s)
    (hsch : ∀ e ∈ s'.sch.entries, e ∈ s.sch.entries) (hneh : s'.neh = s.neh)
    (hidle : ∀ r ∈ s'.idle.members, r ∈ s.idle.members) (hqueue : s'.queue = update s.queue q f)
    (hq : ¬ (q ∈ s'.active ∨ q ∈ s'.idle.members)) : Shrinks s s' := by
  refine ⟨hsch, fun e he => hneh ▸ he, hneh ▸ hp.ordered, hidle, fun r hr => ?_⟩
  have hne : r ≠ q := by
    rintro rfl
    exact hq hr
  rw [hqueue, update_of_ne hne]
  exact ⟨rfl, rfl⟩

/-! ## A flow joins a heap -/

theorem Pending.insertSch (hp : Pending s) (hkey : key = (s.queue q).F) (hS : (s.queue q).S ≤ s.V)
    (hF : (s.queue q).F < 2 ^ 63) : Pending { s with sch := heapInsert s.sch key q } :=
  ⟨hp.V, forall_heapInsert.mpr ⟨⟨hkey, hS, hF⟩, hp.sch⟩, hp.neh, hp.ordered, hp.idle⟩

theorem Pending.insertNeh (hp : Pending s) (hkey : key = (s.queue q).S)
    (hS : (s.queue q).S < 2 ^ 63) (hF : (s.queue q).F < 2 ^ 63) :
    Pending { s with neh := heapInsert s.neh key q } :=
  ⟨hp.V, hp.sch, forall_heapInsert.mpr ⟨⟨hkey, hS, hF⟩, hp.neh⟩,
    ordered_heapInsert hp.nehKey (hkey ▸ hS) hp.ordered, hp.idle⟩

theorem Sched.insertSch (hs : Sched s) (hkey : key = (s.queue q).F) (hS : (s.queue q).S ≤ s.V)
    (hF : (s.queue q).F < 2 ^ 63) : Sched { s with sch := heapInsert s.sch key q } :=
  ⟨hs.toPending.insertSch hkey hS hF, hs.later⟩

theorem Sched.insertNeh (hs : Sched s) (hkey : key = (s.queue q).S)
    (hV : s.V < (s.queue q).S) (hS : (s.queue q).S < 2 ^ 63) (hF : (s.queue q).F < 2 ^ 63) :
    Sched { s with neh := heapInsert s.neh key q } :=
  ⟨hs.toPending.insertNeh hkey hS hF, forall_heapInsert.mpr ⟨hV, hs.later⟩⟩

/-! ## The rest of a round -/

theorem Pending.advance (hp : Pending s) : Pending (advance s) := by
  unfold Dummynet.advance
  split_ifs with hnone
  · obtain ⟨hkey, hS, -⟩ := hp.neh _ (top_mem_entries hnone.2)
    have htop : (s.neh.p 0).key < 2 ^ 63 := hkey ▸ hS
    have hV : max64 s.V (s.neh.p 0).key = max s.V (s.neh.p 0).key := max64_eq hp.V htop
    refine ⟨?_, fun e he => ?_, hp.neh, hp.ordered, hp.idle⟩
    · rw [hV]
      exact max_lt hp.V htop
    · obtain ⟨hkey, hS, hF⟩ := hp.sch e he
      refine ⟨hkey, ?_, hF⟩
      rw [hV]
      exact hS.trans (le_max_left _ _)
  · exact hp

/-- The flow at the top of the not-eligible heap is eligible and is moved. -/
theorem Pending.moveTop (hp : Pending s) (hpos : 0 < s.neh.elements)
    (hle : dnKeyLeq (s.neh.p 0).key s.V = true) :
    Pending { s with
      neh := heapExtract s.neh
      sch := heapInsert s.sch (s.queue (s.neh.p 0).object).F (s.neh.p 0).object } := by
  obtain ⟨hkey, hS, hF⟩ := hp.neh _ (top_mem_entries hpos)
  rw [hkey] at hle
  have hrest : Pending { s with neh := heapExtract s.neh } :=
    ⟨hp.V, hp.sch, fun e he => hp.neh e (mem_of_mem_heapExtract hpos he),
      ordered_heapExtract hpos hp.nehKey hp.ordered, hp.idle⟩
  exact hrest.insertSch rfl ((dnKeyLeq_iff hS hp.V).mp hle) hF

/-- **All eligible flows are moved.** -/
theorem Pending.promote {fuel : ℕ} (hp : Pending s) (hfuel : s.neh.elements ≤ fuel) :
    Sched (promote fuel s) := by
  induction fuel generalizing s with
  | zero =>
    exact ⟨hp, fun e he => absurd he (notMem_entries (Nat.le_zero.mp hfuel) e)⟩
  | succ fuel ih =>
    unfold Dummynet.promote
    split_ifs with hmore
    · refine ih (hp.moveTop hmore.1 hmore.2) ?_
      rw [heapExtract_eq hmore.1, elements_extractAt]
      omega
    · refine ⟨hp, fun e he => ?_⟩
      obtain ⟨i, hi, rfl⟩ := mem_contents.mp he
      have hpos : 0 < s.neh.elements := (Nat.zero_le i).trans_lt hi
      have htop := hp.nehKey _ (top_mem_entries hpos)
      have hlt : s.V < (s.neh.p 0).key :=
        not_le.mp fun hle => hmore ⟨hpos, (dnKeyLeq_iff htop hp.V).mpr hle⟩
      rw [← (hp.neh _ he).key]
      exact hlt.trans_le (hp.ordered.top_le i hi)

theorem Pending.settle (hp : Pending r.1) : Sched (settle r) := by
  have hneh : (Dummynet.advance r.1).neh = r.1.neh := by
    unfold Dummynet.advance
    split <;> rfl
  have hs : Sched (Dummynet.promote r.1.neh.elements (Dummynet.advance r.1)) :=
    hp.advance.promote (by rw [hneh])
  exact hs.frame rfl rfl rfl rfl rfl

/-! ## A packet is sent -/

/-- A flow is not twice in the heaps. -/
theorem top_notMem (hb : s.Books) (hpos : 0 < s.sch.elements) :
    (s.sch.p 0).object ∉ (heapExtract s.sch).members ∧ (s.sch.p 0).object ∉ s.neh.members ∧
      (s.sch.p 0).object ∉ s.idle.members := by
  have hmem : (s.sch.p 0).object ∈ s.active := mem_add.mpr (.inl (top_mem hpos))
  have hpkts := hb.mem_iff.mp hmem
  have hcount := (hb.count (s.sch.p 0).object).trans (if_neg hpkts)
  rw [State.active, ← members_heapExtract hpos, count_add, count_cons_self] at hcount
  refine ⟨count_eq_zero.mp (by omega), count_eq_zero.mp (by omega), ?_⟩
  exact fun hidle => hpkts (hb.resting _ hidle).1

/-- The flow at the top has left the scheduler heap, and the virtual time has grown. -/
theorem Sched.extractTop {V : ℕ} (hs : Sched s) (hb : s.Books) (hpos : 0 < s.sch.elements)
    (hV : s.V ≤ V) (hbound : V < 2 ^ 63) (f : FlowQueue) :
    Pending { s with
      sch := heapExtract s.sch
      V := V
      queue := update s.queue (s.sch.p 0).object f } := by
  obtain ⟨hsch, hneh, hidle⟩ := top_notMem hb hpos
  refine hs.toPending.shrink (hs.toPending.shrinks_update
    (fun _ => mem_of_mem_heapExtract hpos) rfl (fun r hr => hr) rfl ?_) hV hbound
  rintro (hq | hq)
  · exact (mem_add.mp hq).elim hsch hneh
  · exact hidle hq

/-- The condition.  Times do not wrap, and a flow that is served and has more packets is eligible at
once. -/
def Calm (s : State) : Act → Prop
  | .event (.io q len false _) => (s.queue q).pkts = [] → ∀ fs, s.flowSet q.fs = some fs →
      max (s.queue q).F s.V + scaled len fs.weight < 2 ^ 63
  | .round => 0 < s.sch.elements → ∀ len rest fs,
      (s.queue (s.sch.p 0).object).pkts = len :: rest →
      s.flowSet (s.sch.p 0).object.fs = some fs →
      s.V + scaled len s.sum < 2 ^ 63 ∧ ∀ len' tail, rest = len' :: tail →
        (s.queue (s.sch.p 0).object).F + scaled len' fs.weight < 2 ^ 63 ∧
        (s.queue (s.sch.p 0).object).F ≤ s.V + scaled len s.sum
  | _ => True

theorem Sched.serve {n : ℤ} (hs : Sched s) (hb : s.Books) (hcalm : Calm s .round)
    (hpos : 0 < s.sch.elements) (hserve : serve hz s n = some r) : Pending r.1 := by
  obtain ⟨-, -, hF⟩ := hs.sch _ (top_mem_entries hpos)
  obtain ⟨len, rest, fs, hpkts, hfs, hcases⟩ := serve_cases hserve
  obtain ⟨hV, hmore⟩ := hcalm hpos len rest fs hpkts hfs
  rw [keyAdd_eq hV] at hcases
  rcases hcases with ⟨-, hr⟩ | ⟨len', tail, hrest, hr⟩
  · rw [hr]
    have hp := hs.extractTop hb hpos (Nat.le_add_right _ _) hV
      ⟨[], (s.queue (s.sch.p 0).object).F, (s.queue (s.sch.p 0).object).F⟩
    refine ⟨hp.V, hp.sch, hp.neh, hp.ordered, fun q hq => ?_⟩
    change q ∈ (heapInsert s.idle _ _).members at hq
    rw [members_heapInsert, mem_cons] at hq
    rcases hq with rfl | hq
    · change (update s.queue _ _ _).F < _
      rw [update_self]
      exact hF
    · exact hp.idle q hq
  · obtain ⟨hF', hle⟩ := hmore len' tail hrest
    rw [keyAdd_eq hF', requeue, if_pos ((dnKeyLeq_iff hF hV).mpr hle)] at hr
    rw [hr]
    have hp := hs.extractTop hb hpos (Nat.le_add_right _ _) hV
      ⟨rest, (s.queue (s.sch.p 0).object).F, (s.queue (s.sch.p 0).object).F + scaled len' fs.weight⟩
    refine hp.insertNeh ?_ ?_ ?_
    · change _ = (update s.queue _ _ _).S
      rw [update_self]
    · change (update s.queue _ _ _).S < _
      rw [update_self]
      exact hF
    · change (update s.queue _ _ _).F < _
      rw [update_self]
      exact hF'

theorem Sched.wfqRound (hs : Sched s) (hb : s.Books) (hcalm : Calm s .round)
    (hround : wfqRound hz s = some s') : Sched s' := by
  obtain ⟨r, rfl, hr | ⟨hpos, n, hr⟩⟩ := wfqRound_cases hround
  · exact Pending.settle (hr ▸ hs.toPending)
  · exact (hs.serve hb hcalm hpos hr).settle

/-! ## A packet arrives -/

theorem Sched.wfqStart (hs : Sched s) (busy : Bool) : Sched (wfqStart busy s) := by
  unfold Dummynet.wfqStart
  split
  · split
    · exact hs
    · exact hs.frame rfl rfl rfl rfl rfl
  · exact hs.frame rfl rfl rfl rfl rfl

theorem Sched.activate (hs : Sched s) (hb : s.Books) (hempty : (s.queue q).pkts = [])
    (hS : S < 2 ^ 63) (hidle : ∀ r, r ∈ idle'.members → r ∈ s.idle.members ∧ r ≠ q) :
    Sched (activate s q fs len S F sum idle') := by
  have hq : q ∉ s.active := fun hq => hb.mem_iff.mp hq hempty
  have hshrinks : Shrinks s (Dummynet.activate s q fs len S F sum idle') :=
    hs.toPending.shrinks_update (fun e he => he) rfl (fun r hr => (hidle r hr).1) rfl
      fun hmem => hmem.elim hq fun hr => (hidle q hr).2 rfl
  -- the virtual time changes only while both heaps are empty
  have hVcases : (Dummynet.activate s q fs len S F sum idle').V = s.V ∨ s.neh.elements = 0 ∧
      (Dummynet.activate s q fs len S F sum idle').V = max S s.V := by
    change (if _ then _ else _) = _ ∨ _ ∧ (if _ then _ else _) = _
    split_ifs with hnone
    · exact .inr ⟨hnone.1, max64_eq hS hs.V⟩
    · exact .inl rfl
  rcases hVcases with hV | ⟨hnone, hV⟩
  · exact hs.shrink hshrinks hV
  · refine ⟨hs.toPending.shrink hshrinks ?_ ?_, fun e he => ?_⟩
    · rw [hV]
      exact le_max_right _ _
    · rw [hV]
      exact max_lt hS hs.V
    · exact absurd he (notMem_entries hnone e)

theorem Sched.schedule (hs : Sched s) (hS : (s.queue q).S = S) (hF : (s.queue q).F = F)
    (hSlt : S < 2 ^ 63) (hFlt : F < 2 ^ 63) : Sched (schedule s q S F busy) := by
  unfold Dummynet.schedule
  split
  · rename_i hgt
    have hlt : s.V < (s.queue q).S := hS ▸ (dnKeyGt_iff hSlt hs.V).mp hgt
    exact hs.insertNeh hS.symm hlt (hS ▸ hSlt) (hF ▸ hFlt)
  · rename_i hgt
    have hle : (s.queue q).S ≤ s.V :=
      hS ▸ not_lt.mp fun hlt => hgt ((dnKeyGt_iff hSlt hs.V).mpr hlt)
    have hin := hs.insertSch hF.symm hle (hF ▸ hFlt)
    split
    · refine Sched.wfqStart ?_ busy
      exact hin.frame rfl rfl rfl rfl rfl
    · exact hin

/-- The start time is not beyond the old finish time and the virtual time. -/
theorem Sched.startTime (hs : Sched s) (hb : s.Books) (hempty : (s.queue q).pkts = [])
    (hF : (s.queue q).F < 2 ^ 63) (hstart : startTime s q fs = some (S, sum, idle')) :
    S ≤ max (s.queue q).F s.V ∧ ∀ r, r ∈ idle'.members → r ∈ s.idle.members ∧ r ≠ q := by
  rcases startTime_cases hb hempty hstart with ⟨rfl, -, rfl, hq⟩ | ⟨rfl, -, hidle, -⟩
  · exact ⟨le_max_right _ _, fun r hr => ⟨hr, ne_of_mem_of_not_mem hr hq⟩⟩
  · exact ⟨(max64_eq hF hs.V).le, fun r => (hb.mem_rest hidle r).mp⟩

/-! ## The other steps -/

section

variable (hs : Sched s)

include hs

/-- A queue changes, and not its times. -/
theorem Sched.append {flowSet : ℕ → Option FlowSet} (pkts : List ℕ) : Sched { s with
      flowSet := flowSet
      queue := update s.queue q { s.queue q with pkts := pkts } } := by
  refine hs.shrink ⟨fun _ he => he, fun _ he => he, hs.ordered, fun _ hr => hr, fun r _ => ?_⟩ rfl
  change (update s.queue q _ r).S = _ ∧ (update s.queue q _ r).F = _
  rcases eq_or_ne r q with rfl | hr
  · rw [update_self]
    exact ⟨rfl, rfl⟩
  · rw [update_of_ne hr]
    exact ⟨rfl, rfl⟩

theorem Sched.wfqFinish (hfinish : wfqFinish s = some s') : Sched s' := by
  obtain ⟨t, _, _, rfl | ⟨hsch, hneh, rfl⟩, rfl⟩ := wfqFinish_cases hfinish
  · exact hs.frame rfl rfl rfl rfl rfl
  · exact .of_empty (Nat.two_pow_pos 63) hsch hneh rfl

theorem Sched.sweep (hb : s.Books) (hsweep : sweep s = some s') : Sched s' := by
  unfold Dummynet.sweep at hsweep
  simp only at hsweep
  split_ifs at hsweep with hpos
  · split at hsweep
    · cases hsweep
      have hmem := hb.mem_rest (members_heapExtract hpos.1)
      refine hs.shrink (hs.toPending.shrinks_update (fun _ he => he) rfl
        (fun r hr => ((hmem r).mp hr).1) rfl fun hq => hq.elim (fun hq => ?_) fun hq => ?_) rfl
      · exact hb.mem_iff.mp hq (hb.resting _ (top_mem hpos.1)).1
      · exact ((hmem _).mp hq).2 rfl
    · cases hsweep
  · cases hsweep
    exact hs

theorem Sched.expireQueue (hb : s.Books) (q : FlowId) : Sched (expireQueue s q) := by
  unfold Dummynet.expireQueue
  split_ifs with hq
  · refine hs.shrink (hs.toPending.shrinks_update (fun _ he => he) rfl (fun _ hr => hr) rfl
      fun h => h.elim (fun h => hb.mem_iff.mp h hq.1) fun hidle => ?_) rfl
    have hS := hq.2
    rw [(hb.resting q hidle).2] at hS
    exact ne_keyAdd_one _ hS
  · exact hs

theorem Sched.deleteQueue (hb : s.Books) (k : ℕ) : Sched (deleteQueue s k) := by
  cases hfs : s.flowSet k with
  | none =>
    rw [deleteQueue_of_none hfs]
    exact hs
  | some fs =>
    have hd := deleteQueue_spec hb hfs
    set t := Dummynet.deleteQueue s k with ht
    have hleft : ∀ r, r ∈ t.active ∨ r ∈ t.idle.members → t.queue r = s.queue r := by
      intro r hr
      rw [hd.active, hd.idle, mem_filter, mem_filter] at hr
      rw [hd.queue]
      exact if_neg (hr.elim And.right And.right)
    have hheaps : t.V = s.V ∧ (∀ e ∈ t.sch.entries, e ∈ s.sch.entries) ∧
        (∀ e ∈ t.neh.entries, e ∈ s.neh.entries) ∧
        Ordered t.neh.elements t.neh.p := by
      rw [ht, Dummynet.deleteQueue, hfs]
      simp only
      split
      · refine ⟨rfl, fun e he => ?_, fun e he => ?_, hs.ordered.removeAll agrees_dnKeyLt hs.nehKey⟩
        · change e ∈ (fsRemoveFromHeap s.sch k).entries at he
          rw [fsRemoveFromHeap, entries_removeAll] at he
          exact mem_of_mem_filter he
        · change e ∈ (fsRemoveFromHeap s.neh k).entries at he
          rw [fsRemoveFromHeap, entries_removeAll] at he
          exact mem_of_mem_filter he
      · exact ⟨rfl, fun _ he => he, fun _ he => he, hs.ordered⟩
    obtain ⟨hV, hsch, hneh, hordered⟩ := hheaps
    refine hs.shrink ⟨hsch, hneh, hordered, fun r hr => ?_, fun r hr => ?_⟩ hV
    · rw [hd.idle] at hr
      exact mem_of_mem_filter hr
    · rw [hleft r hr]
      exact ⟨rfl, rfl⟩

theorem Sched.dummynetIo {drop : Bool} (hb : s.Books)
    (hcalm : Calm s (.event (.io q len drop busy)))
    (hio : dummynetIo s q len drop busy = some s') : Sched s' := by
  unfold Dummynet.dummynetIo at hio
  split at hio
  · cases hio
    exact hs
  · rename_i fs hfs
    split at hio
    · cases hio
      exact hs.frame rfl rfl rfl rfl rfl
    · rename_i hdrop
      obtain rfl := Bool.eq_false_iff.mpr hdrop
      split at hio
      · cases hio
        exact hs.append _
      · rename_i hempty
        rw [not_not] at hempty
        have hbound := hcalm hempty fs hfs
        split at hio
        · rename_i S sum idle' hstart
          split_ifs at hio
          cases hio
          obtain ⟨hS, hidle⟩ := hs.startTime hb hempty (by omega) hstart
          have hF : S + scaled len fs.weight < 2 ^ 63 := by omega
          rw [keyAdd_eq hF]
          refine (hs.activate hb hempty (by omega) hidle).schedule ?_ ?_ (by omega) hF
          · change (update s.queue q _ q).S = S
            rw [update_self]
          · change (update s.queue q _ q).F = _
            rw [update_self]
        · cases hio

end

/-! ## Every run -/

theorem Sched.handle {e : Event} (hs : Sched s) (hb : s.Books) (hcalm : Calm s (.event e))
    (hhandle : handle s e = some s') : Sched s' := by
  cases e with
  | io q len drop busy => exact hs.dummynetIo hb hcalm hhandle
  | ready busy =>
    cases hhandle
    exact hs.wfqStart busy
  | clock t | configPipe bandwidth ifName =>
    cases hhandle
    exact hs.frame rfl rfl rfl rfl rfl
  | sweep => exact hs.sweep hb hhandle
  | expire q =>
    cases hhandle
    exact hs.expireQueue hb q
  | configQueue k w =>
    cases hhandle
    unfold configQueue
    split
    · exact hs.frame rfl rfl rfl rfl rfl
    · exact hs
  | delete k =>
    cases hhandle
    exact hs.deleteQueue hb k

theorem Sched.step {a : Act} (hs : Sched s) (hb : s.Books) (hcalm : Calm s a)
    (hstep : step hz s a = some s') : Sched s' := by
  cases a with
  | event e => exact hs.handle hb hcalm (Option.ite_none_right_eq_some.mp hstep).2
  | round => exact hs.wfqRound hb hcalm hstep
  | finish => exact hs.wfqFinish hstep

theorem init_sched (hinit : Init s) : Sched s :=
  .of_empty (hinit.V ▸ Nat.two_pow_pos 63) hinit.sch hinit.neh hinit.idle

/-- A step that meets the condition. -/
def CalmStep (hz : ℕ) (s s' : State) : Prop :=
  ∃ a, Dummynet.step hz s a = some s' ∧ Calm s a

/-- **Eligible flows.**  In every run in which times do not wrap and a flow that is served and has
more packets is eligible at once, the scheduler heap has the eligible flows and the not-eligible
heap the others, with the right keys. -/
theorem wf2q_eligibility (hz : ℕ) (hrun : Reachable Init (CalmStep hz) s) : Eligible s := by
  have hinv : s.Books ∧ Sched s := by
    refine hrun.invariant (I := fun s => s.Books ∧ Sched s)
      (fun s hinit => ⟨init_books hinit, init_sched hinit⟩)
      fun s s' ⟨hb, hs⟩ ⟨a, hstep, hcalm⟩ => ?_
    exact ⟨(step_effect hb hstep).books hb, hs.step hb hcalm hstep⟩
  exact hinv.2.eligible hinv.1

/-- A packet arrives at a new pipe. -/
theorem wf2q_eligibility_first_packet : ∃ s : State, 0 < s.sch.elements ∧ Eligible s := by
  have hio : (Dummynet.step 1000 (configQueue (newPipe 1000) 0 1)
      (.event (.io ⟨0, 0⟩ 100 false false))).any (fun s => 0 < s.sch.elements) = true := by decide
  obtain ⟨s, hs, hpos⟩ := (any_eq_true _ _).mp hio
  have hfirst : Reachable Init (CalmStep 1000) (configQueue (newPipe 1000) 0 1) :=
    (Reachable.of_init (init_newPipe 1000)).tail ⟨.event (.configQueue 0 1), rfl, trivial⟩
  have hsecond : Reachable Init (CalmStep 1000) s := by
    refine hfirst.tail ⟨_, hs, fun _ fs hfs => ?_⟩
    cases hfs
    decide
  exact ⟨s, of_decide_eq_true hpos, wf2q_eligibility 1000 hsecond⟩

/-- Two flows have packets, and one of them is served and has more.  It stays in the scheduler heap
with a start time after the virtual time. -/
theorem wf2q_keeps_ineligible :
    ∃ s, Reachable Init (fun s s' => ∃ a, Dummynet.step 1000 s a = some s') s ∧
      s.running = none ∧ ¬ Eligible s := by
  let acts : List Act :=
    [.event (.configQueue 0 1), .event (.configQueue 1 1),
      .event (.io ⟨0, 0⟩ 100 false false), .round, .finish,
      .event (.io ⟨0, 0⟩ 100 false false), .event (.io ⟨0, 0⟩ 100 false false),
      .event (.io ⟨1, 0⟩ 200 false false),
      .event (.clock 800), .event (.ready false), .round, .finish]
  have hrun : (runActs 1000 (newPipe 1000) acts).any (fun s => s.running = none ∧
      ⟨0, 0⟩ ∈ s.sch.members ∧ dnKeyLeq (s.queue ⟨0, 0⟩).S s.V = false) = true := by decide
  obtain ⟨s, hs, hstate⟩ := (any_eq_true _ _).mp hrun
  obtain ⟨hnone, hmem, hS⟩ := of_decide_eq_true hstate
  obtain ⟨e, he, hq⟩ := mem_map.mp hmem
  rw [← hq] at hS
  refine ⟨s, reachable_runActs (fun a _ s s' hstep => ⟨a, hstep⟩)
    (.of_init (init_newPipe 1000)) hs, hnone, fun hel => ?_⟩
  exact absurd (hel.sch e he).1 (Bool.eq_false_iff.mp hS)

end FreeBSDSys.Dummynet
