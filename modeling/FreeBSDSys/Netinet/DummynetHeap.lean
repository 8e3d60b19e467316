import FreeBSDSys.Lib.ArrayHeap

/-!
# The heaps of dummynet

A heap of dummynet sorts objects by 64-bit keys, which are compared by the sign of their difference.
This is an order only among keys that lie within half of the circle of keys, and the half may move
while the heap is in use.  The order of a heap is therefore stated by the comparison itself; in one
call it is the order of the distances from a base (`fromBase`).

A heap with an offset stores in each object the slot it is in, so an object is in it once at most.

* `dummynet_heap`: along every run the heap is in order, the stored slots are right, and the next
  call changes what is in the heap as `Effect` says.
-/

namespace FreeBSDSys.DnHeaps

open ArrayHeap Heap Function Multiset

universe u

abbrev Pair (α : Type u) := Entry (BitVec 64) α

abbrev DnHeap (α : Type u) := Heap (BitVec 64) α

variable {α : Type u} [DecidableEq α]

/-- `DN_KEY_LT` -/
def dnKeyLt (a b : BitVec 64) : Bool := (a - b).slt 0#64

/-- A call; an insertion fails if the heap is full and there is no memory to enlarge it -/
inductive HeapOp (α : Type u)
  | insert (e : Pair α) (fails : Bool)
  | extract (obj : Option α)
  | fsRemove (ofFs : α → Bool)
  | pipeRemove (p : α)

/-- `heap_extract`, of the top if there is no object.  It may panic. -/
def heapExtract (offset : Bool) (h : DnHeap α) : Option α → Option (DnHeap α)
  | none => some (if h.elements = 0 then h else h.extractAt dnKeyLt 0)
  | some obj =>
    if h.elements = 0 then some h
    else if offset = true ∧ 0 ≤ h.pos obj ∧ h.pos obj < h.elements then
      some (h.extractAt dnKeyLt (h.pos obj).toNat)
    else none

/-- The last entry takes the place of another one. -/
def drop (h : DnHeap α) (i : ℕ) : DnHeap α :=
  { h with elements := h.elements - 1, p := update h.p i (h.p (h.elements - 1)) }

/-- `pipe_remove_from_heap` -/
def pipeRemoveFromHeap (h : DnHeap α) (p : α) : DnHeap α :=
  match (List.range h.elements).find? fun i => (h.p i).object = p with
  | none => h
  | some i => heapify dnKeyLt (drop h i)

/-- The slots are stored in the objects if `offset` is set; otherwise `pos` is a record of the model
that no call reads. -/
def heapOp (offset : Bool) (h : DnHeap α) : HeapOp α → Option (DnHeap α)
  | .insert e fails => some (if fails then h else h.insert dnKeyLt e)
  | .extract obj => heapExtract offset h obj
  | .fsRemove ofFs => some (h.removeAll dnKeyLt ofFs)
  | .pipeRemove p => some (pipeRemoveFromHeap h p)

/-! ## What the calls are for -/

/-- The keys lie within half of the circle, from a base on. -/
def Within (b : BitVec 64) (s : Multiset (Pair α)) : Prop := ∀ e ∈ s, (e.key - b).toNat < 2 ^ 63

/-- A heap with an offset gets only objects that it does not have, and gives only objects that it
has. -/
def Allowed (offset : Bool) (s : Multiset (Pair α)) : HeapOp α → Prop
  | .insert e _ => (∃ b, Within b (e ::ₘ s)) ∧ (offset = true → ∀ e' ∈ s, e'.object ≠ e.object)
  | .extract (some obj) => offset = true ∧ ∃ e ∈ s, e.object = obj
  | _ => True

/-- What a call does to the pairs in the heap. -/
def Effect (s s' : Multiset (Pair α)) : HeapOp α → Prop
  | .insert e fails => s' = if fails then s else e ::ₘ s
  | .extract none => s = 0 ∧ s' = 0 ∨ ∃ e, s = e ::ₘ s' ∧ ∀ e' ∈ s, dnKeyLt e'.key e.key = false
  | .extract (some obj) => ∃ e, e.object = obj ∧ s = e ::ₘ s'
  | .fsRemove ofFs => s' = s.filter fun e => ofFs e.object = false
  | .pipeRemove p => s' = s ∧ (∀ e ∈ s, e.object ≠ p) ∨ ∃ e, e.object = p ∧ s = e ::ₘ s'

/-- A heap that a run of allowed calls has made from an empty one. -/
inductive Run (offset : Bool) : DnHeap α → Prop
  | init {h} : h.elements = 0 → Run offset h
  | step {h op h'} : Run offset h → Allowed offset h.entries op → heapOp offset h op = some h' →
      Run offset h'

/-- No key is below the key of its father. -/
def InOrder (h : DnHeap α) : Prop :=
  ∀ i, 0 < i → i < h.elements → dnKeyLt (h.p i).key (h.p (father i)).key = false

/-! ## The order in one call -/

variable {h : DnHeap α} {b : BitVec 64} {offset : Bool} {op : HeapOp α} {i : ℕ}

/-- The order of the distances from a base. -/
abbrev fromBase (b : BitVec 64) : LinearOrder (BitVec 64) :=
  LinearOrder.lift' (fun k => (k - b).toNat) fun a c (heq : (a - b).toNat = (c - b).toNat) => by
    bv_omega

theorem agrees (b : BitVec 64) :
    @Agrees _ (fromBase b) dnKeyLt fun k => (k - b).toNat < 2 ^ 63 := by
  intro a c ha hc
  change _ ↔ (a - b).toNat < (c - b).toNat
  rw [dnKeyLt, BitVec.slt_zero_eq_msb, BitVec.msb_eq_decide, decide_eq_true_iff]
  bv_omega

/-- What holds of a heap between the calls. -/
structure Good (offset : Bool) (h : DnHeap α) : Prop where
  order : InOrder h
  placed : offset = true → Placed h.elements h
  within : ∃ b, Within b h.entries

section

omit [DecidableEq α]

theorem Within.of_cons {e : Pair α} {s s' : Multiset (Pair α)} (hb : Within b s)
    (heq : e ::ₘ s' = s) : Within b s' :=
  fun e' he' => hb e' (heq ▸ mem_cons_of_mem he')

theorem inOrder_iff (hb : Within b h.entries) :
    InOrder h ↔ @Ordered _ _ (fromBase b) h.elements h.p := by
  let := fromBase b
  have hkey : Keyed (fun k => (k - b).toNat < 2 ^ 63) h.elements h.p := keyed_iff.mpr hb
  refine forall₃_congr fun i hpos hi => ?_
  rw [← Bool.not_eq_true, agrees b _ _ (hkey i hi) (hkey _ ((father_lt hpos).trans hi))]
  exact not_lt

theorem Good.top_le (hg : Good offset h) : ∀ e ∈ h.entries, dnKeyLt e.key (h.p 0).key = false := by
  intro e he
  obtain ⟨b, hb⟩ := hg.within
  obtain ⟨i, hi, rfl⟩ := mem_contents.mp he
  let := fromBase b
  rw [← Bool.not_eq_true, agrees b _ _ (hb _ he) (hb _ (mem_contents.mpr ⟨0, by omega, rfl⟩))]
  exact not_lt.mpr (((inOrder_iff hb).mp hg.order).top_le i hi)

end

/-! ## Runs -/

theorem Good.extractAt (hg : Good offset h) (hi : i < h.elements) :
    Good offset (h.extractAt dnKeyLt i) := by
  obtain ⟨b, hb⟩ := hg.within
  have hb' : Within b (h.extractAt dnKeyLt i).entries := hb.of_cons (entries_extractAt hi)
  refine ⟨(inOrder_iff hb').mpr ?_, fun ho => (hg.placed ho).extractAt hi, b, hb'⟩
  exact @Ordered.extractAt _ _ _ _ _ _ (fromBase b) _ (agrees b) hb hi
    ((inOrder_iff hb).mp hg.order)

theorem Good.insert {e : Pair α} (hg : Good offset h) (hb : Within b (e ::ₘ h.entries))
    (hnew : offset = true → ∀ e' ∈ h.entries, e'.object ≠ e.object) :
    Good offset (h.insert dnKeyLt e) := by
  have hold : Within b h.entries := hb.of_cons rfl
  have hb' : Within b (h.insert dnKeyLt e).entries := by
    rw [entries_insert]
    exact hb
  refine ⟨(inOrder_iff hb').mpr ?_, fun ho => (hg.placed ho).insert fun hmem => ?_, b, hb'⟩
  · exact @Ordered.insert _ _ _ _ _ _ (fromBase b) _ (agrees b) hold (hb e (mem_cons_self _ _))
      ((inOrder_iff hold).mp hg.order)
  · obtain ⟨e', he', heq⟩ := mem_map.mp hmem
    exact hnew ho e' he' heq

theorem Good.removeAll (hg : Good offset h) (bad : α → Bool) :
    Good offset (h.removeAll dnKeyLt bad) := by
  obtain ⟨b, hb⟩ := hg.within
  have hb' : Within b (h.removeAll dnKeyLt bad).entries := fun e he => by
    rw [entries_removeAll] at he
    exact hb e (mem_filter.mp he).1
  refine ⟨(inOrder_iff hb').mpr ?_, fun ho => (hg.placed ho).removeAll, b, hb'⟩
  exact @Ordered.removeAll _ _ _ _ _ _ (fromBase b) _ (agrees b) hb ((inOrder_iff hb).mp hg.order)

theorem entries_remove (hi : i < h.elements) :
    h.p i ::ₘ (heapify dnKeyLt (drop h i)).entries = h.entries := by
  obtain ⟨max, hmax⟩ : ∃ max, h.elements = max + 1 := ⟨h.elements - 1, by omega⟩
  rw [heapify, entries_heapifyFrom (Nat.zero_add _).le, entries, entries, drop, hmax,
    Nat.add_sub_cancel, contents_succ]
  rcases Nat.lt_or_eq_of_le (show i ≤ max by omega) with hlt | rfl
  · exact contents_update hlt _
  · rw [update_eq_self]

theorem Good.remove (hg : Good offset h) (hi : i < h.elements) :
    Good offset (heapify dnKeyLt (drop h i)) := by
  obtain ⟨b, hb⟩ := hg.within
  have hsame : (heapify dnKeyLt (drop h i)).entries = (drop h i).entries :=
    entries_heapifyFrom (Nat.zero_add _).le
  have hb' := hb.of_cons (entries_remove hi)
  have hb'' : Within b (drop h i).entries := hsame ▸ hb'
  refine ⟨(inOrder_iff hb').mpr ?_, fun ho => .heapify ?_, b, hb'⟩
  · exact @Ordered.heapify _ _ _ _ _ (fromBase b) _ (agrees b) (keyed_iff.mpr hb'')
  · have hnodup := (hg.placed ho).nodup
    rw [members, ← entries_remove hi, map_cons, hsame] at hnodup
    exact nodup_objects_iff.mp (nodup_cons.mp hnodup).2

/-- **One call.** -/
theorem Good.step (hg : Good offset h) (ha : Allowed offset h.entries op) :
    ∃ h', heapOp offset h op = some h' ∧ Effect h.entries h'.entries op ∧ Good offset h' := by
  cases op with
  | insert e fails =>
    cases fails with
    | true => exact ⟨h, rfl, rfl, hg⟩
    | false =>
      obtain ⟨⟨b, hb⟩, hnew⟩ := ha
      exact ⟨h.insert dnKeyLt e, rfl, entries_insert, hg.insert hb hnew⟩
  | extract obj =>
    rw [heapOp]
    cases obj with
    | none =>
      rw [heapExtract]
      by_cases h0 : h.elements = 0
      · have hempty : h.entries = 0 := by rw [entries, h0]; rfl
        rw [if_pos h0]
        exact ⟨h, rfl, .inl ⟨hempty, hempty⟩, hg⟩
      · have hi : 0 < h.elements := by omega
        rw [if_neg h0]
        exact ⟨_, rfl, .inr ⟨_, (entries_extractAt hi).symm, hg.top_le⟩, hg.extractAt hi⟩
    | some obj =>
      obtain ⟨hoff, e, he, hobj⟩ := ha
      obtain ⟨i, hi, hpos, hobj⟩ := (hg.placed hoff).object_at (mem_map.mpr ⟨e, he, hobj⟩)
      rw [heapExtract, if_neg (by omega), if_pos ⟨hoff, by omega, by omega⟩, hpos]
      exact ⟨_, rfl, ⟨_, hobj, (entries_extractAt hi).symm⟩, hg.extractAt hi⟩
  | fsRemove ofFs => exact ⟨_, rfl, entries_removeAll, hg.removeAll ofFs⟩
  | pipeRemove p =>
    rw [heapOp, pipeRemoveFromHeap]
    split
    · rename_i hnone
      refine ⟨h, rfl, .inl ⟨rfl, fun e he => ?_⟩, hg⟩
      obtain ⟨i, hi, rfl⟩ := mem_contents.mp he
      simpa using List.find?_eq_none.mp hnone i (List.mem_range.mpr hi)
    · rename_i i hfind
      have hi : i < h.elements := List.mem_range.mp (List.mem_of_find?_eq_some hfind)
      have hobj : (h.p i).object = p := by simpa using List.find?_some hfind
      exact ⟨_, rfl, .inr ⟨_, hobj, (entries_remove hi).symm⟩, hg.remove hi⟩

theorem Run.good (hrun : Run offset h) : Good offset h := by
  induction hrun with
  | init h0 =>
    refine ⟨fun i _ hi => ?_, fun _ i hi => ?_, 0, fun e he => ?_⟩
    · omega
    · omega
    · obtain ⟨i, hi, -⟩ := mem_contents.mp he
      omega
  | step _ ha hop ih =>
    obtain ⟨h', hop', -, hg⟩ := ih.step ha
    cases hop.symm.trans hop'
    exact hg

/-- **The heaps of dummynet.**  After every run of allowed calls the heap is in order and the stored
slots are right.  Every further call that is allowed ends without a panic and does to the pairs what
it is for; in particular the top is a pair with the smallest key. -/
theorem dummynet_heap (hrun : Run offset h) : InOrder h ∧ (offset = true → Placed h.elements h) ∧
      ∀ op, Allowed offset h.entries op →
        ∃ h', heapOp offset h op = some h' ∧ Effect h.entries h'.entries op := by
  have hg := hrun.good
  refine ⟨hg.order, hg.placed, fun op ha => ?_⟩
  obtain ⟨h', hop, heff, -⟩ := hg.step ha
  exact ⟨h', hop, heff⟩

def emptyHeap : DnHeap ℕ := { p := fun _ => ⟨0, 0⟩, elements := 0, pos := fun _ => -1 }

/-- A key at the top of the circle goes above one that follows it. -/
theorem dummynet_heap_wraps :
    InOrder ((emptyHeap.insert dnKeyLt ⟨4, 1⟩).insert dnKeyLt ⟨-4, 2⟩) := by
  have hone : Allowed true emptyHeap.entries (.insert ⟨4, 1⟩ false) :=
    ⟨⟨0, by unfold Within; decide⟩, by decide⟩
  have htwo : Allowed true (emptyHeap.insert dnKeyLt ⟨4, 1⟩).entries (.insert ⟨-4, 2⟩ false) :=
    ⟨⟨-8, by unfold Within; decide⟩, by decide⟩
  exact (dummynet_heap (.step (.step (.init rfl) hone rfl) htwo rfl)).1

/-- An object that is inserted again has two slots. -/
theorem dummynet_heap_twice : ∃ h, (heapOp true emptyHeap (.insert ⟨4, 1⟩ false)).bind
    (heapOp true · (.insert ⟨5, 1⟩ false)) = some h ∧ ¬ Placed h.elements h :=
  ⟨_, rfl, by unfold Placed; decide⟩

end FreeBSDSys.DnHeaps
