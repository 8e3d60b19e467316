import Mathlib

/-!
# Binary heaps in an array

A heap is an array of entries, each a key with an object; the children of slot `i` are the slots
`2 * i + 1` and `2 * i + 2`.  The heap also records at which slot each object is, so that an entry
can be taken from the middle.

Keys are compared by a function `lt`.  What is in a heap never depends on it; the order does, and it
is right as long as `lt` is the order on the keys that are in the heap (`Agrees`).

* `entries_insert`, `entries_extractAt`, `entries_removeAll`: what is in the heap.
* `Ordered.insert`, `Ordered.extractAt`, `Ordered.removeAll`: no child is below its father.
* `Placed.insert`, `Placed.extractAt`, `Placed.removeAll`: the recorded slots are right.
* `Ordered.top_le`: the entry at the top is the least.
-/

namespace FreeBSDSys.ArrayHeap

open Function Multiset Nat

universe u v

/-- A sorting key with its object. -/
structure Entry (κ : Type u) (α : Type v) where
  key : κ
  object : α

/-- An array of entries, and the slot of each object. -/
structure Heap (κ : Type u) (α : Type v) where
  p : ℕ → Entry κ α
  elements : ℕ
  pos : α → ℤ

variable {κ : Type u} {α : Type v} {i j : ℕ}

def father (i : ℕ) : ℕ := (i - 1) / 2

def left (i : ℕ) : ℕ := 2 * i + 1

theorem father_lt (hi : 0 < i) : father i < i := by
  unfold father
  omega

theorem father_eq_iff (hi : 0 < i) : father i = j ↔ i = left j ∨ i = left j + 1 := by
  unfold father left
  omega

/-! ## Contents -/

/-- The entries of the first `n` slots. -/
def contents (n : ℕ) (p : ℕ → Entry κ α) : Multiset (Entry κ α) :=
  (Multiset.range n).map p

/-- The objects of the first `n` slots. -/
def objects (n : ℕ) (p : ℕ → Entry κ α) : Multiset α :=
  (contents n p).map Entry.object

section Contents

variable {n i : ℕ} {p q : ℕ → Entry κ α} {e : Entry κ α}

theorem contents_succ (n : ℕ) (p : ℕ → Entry κ α) : contents (n + 1) p = p n ::ₘ contents n p := by
  rw [contents, range_succ]
  rfl

theorem mem_contents : e ∈ contents n p ↔ ∃ i < n, p i = e := by
  simp [contents]

theorem contents_congr (h : ∀ i < n, p i = q i) : contents n p = contents n q :=
  map_congr rfl fun i hi => h i (mem_range.mp hi)

/-- One slot is overwritten. -/
theorem contents_update (hi : i < n) (e : Entry κ α) :
    p i ::ₘ contents n (update p i e) = e ::ₘ contents n p := by
  induction n with
  | zero => exact absurd hi (not_lt_zero i)
  | succ n ih =>
    rw [contents_succ, contents_succ]
    rcases Nat.lt_succ_iff_lt_or_eq.mp hi with hlt | rfl
    · rw [update_of_ne hlt.ne', cons_swap, ih hlt, cons_swap]
    · have hrest : contents i (update p i e) = contents i p :=
        contents_congr fun k hk => update_of_ne hk.ne _ _
      rw [update_self, hrest, cons_swap]

/-- Different slots have different objects. -/
def Distinct (n : ℕ) (p : ℕ → Entry κ α) : Prop :=
  ∀ i < n, ∀ j < n, (p i).object = (p j).object → i = j

theorem nodup_objects_iff : (objects n p).Nodup ↔ Distinct n p := by
  rw [Distinct, objects, contents, map_map, nodup_map_iff_inj_on (nodup_range n)]
  simp

end Contents

namespace Heap

/-- The entries of a heap. -/
def entries (h : Heap κ α) : Multiset (Entry κ α) :=
  contents h.elements h.p

/-- The objects of a heap. -/
def members (h : Heap κ α) : Multiset α :=
  h.entries.map Entry.object

def swap (h : Heap κ α) (i j : ℕ) : Heap κ α :=
  { h with p := update (update h.p i (h.p j)) j (h.p i) }

def set (h : Heap κ α) (i : ℕ) (e : Entry κ α) : Heap κ α :=
  { h with p := update h.p i e }

section Slots

variable {h : Heap κ α} {i j k : ℕ} {e : Entry κ α}

theorem p_set_self : (h.set i e).p i = e :=
  update_self _ _ _

theorem p_set_of_ne (hk : k ≠ i) : (h.set i e).p k = h.p k :=
  update_of_ne hk _ _

theorem p_swap_left (hij : i ≠ j) : (h.swap i j).p i = h.p j := by
  change update (update h.p i _) j _ i = _
  rw [update_of_ne hij, update_self]

theorem p_swap_of_ne (hi : k ≠ i) (hj : k ≠ j) : (h.swap i j).p k = h.p k := by
  change update (update h.p i _) j _ k = _
  rw [update_of_ne hj, update_of_ne hi]

/-- A new entry whose object is in none of the other slots `S`. -/
theorem distinct_set {S : ℕ → Prop} (hnew : ∀ k, S k → k ≠ i → (h.p k).object ≠ e.object)
    (hdistinct : ∀ k, S k → ∀ j, S j → k ≠ i → j ≠ i → (h.p k).object = (h.p j).object → k = j)
    (hk : S k) (hj : S j) (heq : ((h.set i e).p k).object = ((h.set i e).p j).object) : k = j := by
  by_cases hki : k = i
  · by_cases hji : j = i
    · rw [hki, hji]
    · rw [hki, p_set_self, p_set_of_ne hji] at heq
      exact absurd heq.symm (hnew j hj hji)
  · by_cases hji : j = i
    · rw [hji, p_set_self, p_set_of_ne hki] at heq
      exact absurd heq (hnew k hk hki)
    · rw [p_set_of_ne hki, p_set_of_ne hji] at heq
      exact hdistinct k hk j hj hki hji heq

end Slots

variable [DecidableEq α]

/-- The slot of an entry is recorded. -/
def setOffset (h : Heap κ α) (i : ℕ) : Heap κ α :=
  { h with pos := update h.pos (h.p i).object i }

/-- The record is made invalid. -/
def resetOffset (h : Heap κ α) (i : ℕ) : Heap κ α :=
  { h with pos := update h.pos (h.p i).object (-1) }

/-! ## The operations -/

variable (lt : κ → κ → Bool)

/-- An entry goes up until its father is below it.  The slot number is enough fuel. -/
def bubbleUp : ℕ → Heap κ α → ℕ → Heap κ α
  | 0, h, son => h.setOffset son
  | fuel + 1, h, son =>
    if son = 0 then h.setOffset son
    else if lt (h.p (father son)).key (h.p son).key then h.setOffset son
    else bubbleUp fuel ((h.swap son (father son)).setOffset son) (father son)

/-- A new entry at the end, moved up to its place. -/
def insert (h : Heap κ α) (e : Entry κ α) : Heap κ α :=
  bubbleUp lt h.elements { h.set h.elements e with elements := h.elements + 1 } h.elements

/-- The smaller child of a slot whose left child is in use. -/
def child (h : Heap κ α) (max i : ℕ) : ℕ :=
  if left i ≠ max ∧ lt (h.p (left i + 1)).key (h.p (left i)).key then left i + 1 else left i

/-- A hole goes down, the smaller child going up each time, until it has no child. -/
def sink (max : ℕ) : ℕ → Heap κ α → ℕ → Heap κ α × ℕ
  | 0, h, i => (h, i)
  | fuel + 1, h, i =>
    if left i ≤ max then
      sink max fuel ((h.set i (h.p (h.child lt max i))).setOffset i) (h.child lt max i)
    else (h, i)

/-- The hole is filled with the last entry, which is moved up to its place. -/
def fill (max : ℕ) (h : Heap κ α) (hole : ℕ) : Heap κ α :=
  if hole = max then { h with elements := max }
  else bubbleUp lt hole { h.set hole (h.p max) with elements := max } hole

/-- The entry of a slot is taken out. -/
def extractAt (h : Heap κ α) (i : ℕ) : Heap κ α :=
  let (h', hole) := sink lt (h.elements - 1) h.elements (h.resetOffset i) i
  fill lt (h.elements - 1) h' hole

/-- Each entry in turn is moved up to its place. -/
def heapifyFrom : ℕ → Heap κ α → ℕ → Heap κ α
  | 0, h, _ => h
  | n + 1, h, i => heapifyFrom n (bubbleUp lt i h i) (i + 1)

def heapify (h : Heap κ α) : Heap κ α :=
  heapifyFrom lt h.elements h 0

omit [DecidableEq α] in
/-- The entries whose object is bad are overwritten by the last ones.  The second result is the
number of them. -/
def compact (bad : α → Bool) : ℕ → Heap κ α → ℕ → ℕ → Heap κ α × ℕ
  | 0, h, _, found => (h, found)
  | fuel + 1, h, i, found =>
    if i < h.elements then
      if bad (h.p i).object then
        compact bad fuel
          { h with elements := h.elements - 1, p := update h.p i (h.p (h.elements - 1)) }
          i (found + 1)
      else compact bad fuel h (i + 1) found
    else (h, found)

/-- The entries whose object is bad are taken out. -/
def removeAll (bad : α → Bool) (h : Heap κ α) : Heap κ α :=
  let (h', found) := compact bad h.elements h 0 0
  if found = 0 then h' else heapify lt h'

/-! ## What is in the heap -/

variable {lt} {n max fuel son i : ℕ} {h : Heap κ α} {e : Entry κ α} {bad : α → Bool}

omit [DecidableEq α] in
theorem contents_swap (hi : i < n) (hj : j < n) (hij : j ≠ i) :
    contents n (h.swap i j).p = contents n h.p := by
  have hfirst := contents_update (p := h.p) hi (h.p j)
  have hsecond := contents_update (p := update h.p i (h.p j)) hj (h.p i)
  rw [update_of_ne hij, hfirst] at hsecond
  exact (cons_inj_right _).mp hsecond

theorem elements_bubbleUp : (bubbleUp lt fuel h son).elements = h.elements := by
  fun_induction bubbleUp with
  | case4 _ _ _ _ _ ih => exact ih
  | _ => rfl

theorem contents_bubbleUp (hson : son < n) :
    contents n (bubbleUp lt fuel h son).p = contents n h.p := by
  fun_induction bubbleUp with
  | case4 fuel h son hne _ ih =>
    have hlt : father son < son := father_lt (Nat.pos_of_ne_zero hne)
    rw [ih (hlt.trans hson)]
    exact contents_swap hson (hlt.trans hson) hlt.ne
  | _ => rfl

theorem entries_bubbleUp (hson : son < h.elements) :
    (bubbleUp lt fuel h son).entries = h.entries := by
  rw [entries, elements_bubbleUp, contents_bubbleUp hson]
  rfl

theorem elements_insert : (h.insert lt e).elements = h.elements + 1 :=
  elements_bubbleUp

/-- **Insertion** adds the entry. -/
theorem entries_insert : (h.insert lt e).entries = e ::ₘ h.entries := by
  rw [insert, entries_bubbleUp (lt_succ_self _)]
  change contents (h.elements + 1) (update h.p h.elements e) = e ::ₘ h.entries
  rw [contents_succ, update_self]
  congr 1
  exact contents_congr fun k hk => update_of_ne hk.ne _ _

section

omit [DecidableEq α]

theorem lt_child (lt : κ → κ → Bool) (h : Heap κ α) (max i : ℕ) : i < h.child lt max i := by
  unfold child left
  split <;> omega

theorem child_le (lt : κ → κ → Bool) (h : Heap κ α) (hleft : left i ≤ max) :
    h.child lt max i ≤ max := by
  unfold child
  split
  · omega
  · exact hleft

theorem father_child : father (h.child lt max i) = i := by
  unfold child father left
  split <;> omega

end

theorem sink_le (lt : κ → κ → Bool) (fuel : ℕ) (h : Heap κ α) (hi : i ≤ max) :
    (sink lt max fuel h i).2 ≤ max := by
  fun_induction sink with
  | case2 _ h _ hleft ih => exact ih (child_le lt h hleft)
  | _ => exact hi

/-- The hole ends where there is no child. -/
theorem max_lt_left_sink (lt : κ → κ → Bool) (h : Heap κ α) (hfuel : max < i + fuel) :
    max < left (sink lt max fuel h i).2 := by
  induction fuel generalizing h i with
  | zero =>
    change max < 2 * i + 1
    omega
  | succ fuel ih =>
    unfold sink
    split_ifs with hleft
    · refine ih _ ?_
      have := lt_child lt h max i
      omega
    · exact Nat.lt_of_not_le hleft

/-- Only the entry of the hole is lost. -/
theorem contents_sink (lt : κ → κ → Bool) (fuel : ℕ) (h : Heap κ α) (hi : i ≤ max) :
    h.p i ::ₘ contents (max + 1) (sink lt max fuel h i).1.p =
      (sink lt max fuel h i).1.p (sink lt max fuel h i).2 ::ₘ contents (max + 1) h.p := by
  induction fuel generalizing h i with
  | zero => rfl
  | succ fuel ih =>
    unfold sink
    split_ifs with hleft
    · have hstep := contents_update (p := h.p) (lt_succ_of_le hi) (h.p (h.child lt max i))
      have hrest := ih ((h.set i (h.p (h.child lt max i))).setOffset i) (child_le lt h hleft)
      have hc : ((h.set i (h.p (h.child lt max i))).setOffset i).p (h.child lt max i) =
          h.p (h.child lt max i) := update_of_ne (lt_child lt h max i).ne' _ _
      rw [hc] at hrest
      refine (cons_inj_right (h.p (h.child lt max i))).mp ?_
      rw [cons_swap, hrest, cons_swap, cons_swap (h.p _)]
      exact congrArg _ hstep
    · rfl

theorem elements_fill : (fill lt max h i).elements = max := by
  unfold fill
  split
  · rfl
  · exact elements_bubbleUp

theorem contents_fill (lt : κ → κ → Bool) (h : Heap κ α) (hi : i ≤ max) :
    h.p i ::ₘ contents max (fill lt max h i).p = contents (max + 1) h.p := by
  rw [contents_succ]
  unfold fill
  split_ifs with hmax
  · rw [hmax]
  · have hlt : i < max := lt_of_le_of_ne hi hmax
    rw [contents_bubbleUp hlt]
    exact contents_update hlt (h.p max)

theorem elements_extractAt : (h.extractAt lt i).elements = h.elements - 1 :=
  elements_fill

/-- **Extraction** takes out the entry of the slot. -/
theorem entries_extractAt (hi : i < h.elements) :
    h.p i ::ₘ (h.extractAt lt i).entries = h.entries := by
  obtain ⟨max, hmax⟩ : ∃ max, h.elements = max + 1 := ⟨h.elements - 1, by omega⟩
  have hle : i ≤ max := by omega
  rw [entries, elements_extractAt, extractAt, hmax]
  have hsink := contents_sink lt (max + 1) (h.resetOffset i) hle
  have hfill := contents_fill lt (sink lt max (max + 1) (h.resetOffset i) i).1
    (sink_le lt (max + 1) (h.resetOffset i) hle)
  rw [← hfill, cons_swap] at hsink
  rw [entries, hmax]
  exact (cons_inj_right _).mp hsink

theorem elements_heapifyFrom : (heapifyFrom lt n h i).elements = h.elements := by
  induction n generalizing h i with
  | zero => rfl
  | succ n ih => exact ih.trans elements_bubbleUp

theorem entries_heapifyFrom (hle : i + n ≤ h.elements) :
    (heapifyFrom lt n h i).entries = h.entries := by
  induction n generalizing h i with
  | zero => rfl
  | succ n ih =>
    rw [heapifyFrom, ih (by rw [elements_bubbleUp]; omega), entries_bubbleUp (by omega)]

section

omit [DecidableEq α]

/-- What is left is what is not bad. -/
theorem entries_compact (bad : α → Bool) (found : ℕ) (hfuel : h.elements ≤ i + fuel)
    (hdone : ∀ k < i, bad (h.p k).object = false) :
    (compact bad fuel h i found).1.entries = h.entries.filter fun e => bad e.object = false := by
  fun_induction compact bad fuel h i found with
  | case2 fuel h i found hi hbad ih =>
    obtain ⟨max, hmax⟩ : ∃ max, h.elements = max + 1 := ⟨h.elements - 1, by omega⟩
    have hle : i ≤ max := by omega
    have hlast : h.p i ::ₘ contents max (update h.p i (h.p max)) = h.entries := by
      rw [entries, hmax, contents_succ]
      rcases lt_or_eq_of_le hle with hlt | rfl
      · exact contents_update hlt _
      · rw [update_eq_self]
    rw [ih (by change h.elements - 1 ≤ _; omega)]
    · rw [← hlast, filter_cons_of_neg _ (by simp [hbad])]
      simp only [hmax]
      rfl
    · intro k hk
      change bad (update h.p i _ k).object = false
      rw [update_of_ne hk.ne]
      exact hdone k hk
  | case3 fuel h i found hi hbad ih =>
    exact ih (by omega) (forall_lt_succ_right.mpr ⟨hdone, Bool.eq_false_iff.mpr hbad⟩)
  | _ =>
    symm
    refine filter_eq_self.mpr fun e he => ?_
    obtain ⟨k, hk, rfl⟩ := mem_contents.mp he
    exact hdone k (by omega)

theorem entries_compact_all (bad : α → Bool) : (compact bad h.elements h 0 0).1.entries =
    h.entries.filter fun e => bad e.object = false :=
  entries_compact bad 0 (zero_add h.elements).ge fun k hk => absurd hk (not_lt_zero k)

theorem compact_found_le (bad : α → Bool) (fuel : ℕ) (h : Heap κ α) (i found : ℕ) :
    found ≤ (compact bad fuel h i found).2 := by
  fun_induction compact with
  | case2 _ _ _ found _ _ ih => exact (le_succ found).trans ih
  | case3 _ _ _ _ _ _ ih => exact ih
  | _ => exact le_rfl

/-- Nothing moves when nothing is bad. -/
theorem compact_eq_self {found : ℕ} (hnone : (compact bad fuel h i found).2 = found) :
    (compact bad fuel h i found).1 = h := by
  fun_induction compact bad fuel h i found with
  | case2 fuel h i found hi hbad ih =>
    have hgrow := compact_found_le bad fuel { h with
      elements := h.elements - 1, p := update h.p i (h.p (h.elements - 1)) } i (found + 1)
    omega
  | case3 _ _ _ _ _ _ ih => exact ih hnone
  | _ => rfl

end

/-- **Removal** leaves the entries whose object is not bad. -/
theorem entries_removeAll :
    (h.removeAll lt bad).entries = h.entries.filter fun e => bad e.object = false := by
  unfold removeAll
  simp only
  split
  · exact entries_compact_all bad
  · rw [heapify, entries_heapifyFrom (by omega)]
    exact entries_compact_all bad

/-! ## The order -/

section Order

variable [LinearOrder κ] {G : κ → Prop} {p : ℕ → Entry κ α}

omit [DecidableEq α] in
/-- The comparison is the order on the keys of a set. -/
def Agrees (lt : κ → κ → Bool) (G : κ → Prop) : Prop :=
  ∀ a b, G a → G b → (lt a b = true ↔ a < b)

/-- The keys of the first `n` slots are in a set. -/
def Keyed (G : κ → Prop) (n : ℕ) (p : ℕ → Entry κ α) : Prop :=
  ∀ i < n, G (p i).key

/-- No child is below its father. -/
def Ordered (n : ℕ) (p : ℕ → Entry κ α) : Prop :=
  ∀ i, 0 < i → i < n → (p (father i)).key ≤ (p i).key

/-- The order before the entry of a slot has gone up: only that entry may be below its father. -/
structure UpOrdered (n son : ℕ) (p : ℕ → Entry κ α) : Prop where
  other : ∀ i, 0 < i → i < n → i ≠ son → (p (father i)).key ≤ (p i).key
  grand : 0 < son → ∀ i, 0 < i → i < n → father i = son → (p (father son)).key ≤ (p i).key

/-- The order around a hole. -/
structure HoleOrdered (n hole : ℕ) (p : ℕ → Entry κ α) : Prop where
  other : ∀ i, 0 < i → i < n → i ≠ hole → father i ≠ hole → (p (father i)).key ≤ (p i).key
  grand : 0 < hole → ∀ i, 0 < i → i < n → father i = hole → (p (father hole)).key ≤ (p i).key

omit [DecidableEq α] in
/-- **The top is the least.** -/
theorem Ordered.top_le (ho : Ordered n p) : ∀ i, i < n → (p 0).key ≤ (p i).key := by
  intro i
  induction i using Nat.strong_induction_on with
  | _ i ih =>
    intro hi
    rcases Nat.eq_zero_or_pos i with rfl | hpos
    · exact le_rfl
    · have hlt := father_lt hpos
      exact (ih _ hlt (hlt.trans hi)).trans (ho i hpos hi)

omit [LinearOrder κ] [DecidableEq α] in
theorem keyed_iff : Keyed G n p ↔ ∀ e ∈ contents n p, G e.key := by
  constructor
  · intro hk e he
    obtain ⟨i, hi, rfl⟩ := mem_contents.mp he
    exact hk i hi
  · intro hk i hi
    exact hk _ (mem_contents.mpr ⟨i, hi, rfl⟩)

omit [LinearOrder κ] [DecidableEq α] in
theorem Keyed.set (he : G e.key) (hk : ∀ k < n, k ≠ i → G (h.p k).key) :
    Keyed G n (h.set i e).p := by
  intro k hkn
  by_cases hki : k = i
  · rw [hki, p_set_self]
    exact he
  · rw [p_set_of_ne hki]
    exact hk k hkn hki

omit [DecidableEq α] in
theorem UpOrdered.swap (ho : UpOrdered n son h.p) (hpos : 0 < son) (hson : son < n)
    (hle : (h.p son).key ≤ (h.p (father son)).key) :
    UpOrdered n (father son) (h.swap son (father son)).p := by
  have hlt : father son < son := father_lt hpos
  have hat : (h.swap son (father son)).p son = h.p (father son) := p_swap_left hlt.ne'
  have htop : (h.swap son (father son)).p (father son) = h.p son := update_self _ _ _
  constructor
  · intro i hi hin hne
    by_cases his : i = son
    · rw [his, hat, htop]
      exact hle
    · rw [p_swap_of_ne his hne]
      by_cases hfs : father i = son
      · rw [hfs, hat]
        exact ho.grand hpos i hi hin hfs
      · have hold := ho.other i hi hin his
        by_cases hff : father i = father son
        · rw [hff, htop]
          exact hle.trans (hff ▸ hold)
        · rw [p_swap_of_ne hfs hff]
          exact hold
  · intro hfpos i hi hin hfi
    have hff : father (father son) < father son := father_lt hfpos
    have hup := ho.other (father son) hfpos (hlt.trans hson) hlt.ne
    rw [p_swap_of_ne (hff.trans hlt).ne hff.ne]
    by_cases his : i = son
    · rw [his, hat]
      exact hup
    · have hne : i ≠ father son := by
        rintro rfl
        exact hff.ne hfi
      rw [p_swap_of_ne his hne]
      exact hup.trans (hfi ▸ ho.other i hi hin his)

/-- An entry that goes up until its father is below it restores the order. -/
theorem UpOrdered.bubbleUp (hlt : Agrees lt G) (hfuel : son ≤ fuel) (hson : son < n)
    (hk : Keyed G n h.p) (ho : UpOrdered n son h.p) :
    Ordered n (Heap.bubbleUp lt fuel h son).p := by
  have hdone : ∀ {h : Heap κ α} {son : ℕ}, UpOrdered n son h.p →
      (0 < son → (h.p (father son)).key ≤ (h.p son).key) → Ordered n h.p := by
    intro h son ho hle i hi hin
    by_cases his : i = son
    · exact his ▸ hle (his ▸ hi)
    · exact ho.other i hi hin his
  have hcmp : ∀ {h : Heap κ α} {son : ℕ}, Keyed G n h.p → son < n → son ≠ 0 → (_ ↔ _) :=
    fun {h son} hk hson hne => hlt _ _
      (hk (father son) ((father_lt (Nat.pos_of_ne_zero hne)).trans hson)) (hk son hson)
  fun_induction Heap.bubbleUp with
  | case1 => exact hdone ho fun hpos => absurd hfuel (not_le.mpr hpos)
  | case2 => exact hdone ho fun hpos => absurd rfl hpos.ne
  | case3 fuel h son hne hless => exact hdone ho fun _ => ((hcmp hk hson hne).mp hless).le
  | case4 fuel h son hne hless ih =>
    have hpos := Nat.pos_of_ne_zero hne
    have hf := father_lt hpos
    refine ih (by omega) (hf.trans hson) ?_
      (ho.swap hpos hson (not_lt.mp (mt (hcmp hk hson hne).mpr hless)))
    refine keyed_iff.mpr fun e he => ?_
    exact keyed_iff.mp hk e ((contents_swap hson (hf.trans hson) hf.ne) ▸ he)

omit [DecidableEq α] in
/-- A slot without children holds an entry that has gone nowhere yet. -/
theorem UpOrdered.of_leaf (ho : ∀ i, 0 < i → i < n → i ≠ son → father i ≠ son →
    (p (father i)).key ≤ (p i).key) (hleaf : n ≤ left son) : UpOrdered n son p := by
  have hno : ∀ i, 0 < i → i < n → father i ≠ son := by
    intro i hi hin hf
    rcases (father_eq_iff hi).mp hf with h | h <;> omega
  exact ⟨fun i hi hin hne => ho i hi hin hne (hno i hi hin),
    fun _ i hi hin hf => absurd hf (hno i hi hin)⟩

/-- **Insertion keeps the order.** -/
theorem Ordered.insert (hlt : Agrees lt G) (hk : ∀ e ∈ h.entries, G e.key) (he : G e.key)
    (ho : Ordered h.elements h.p) : Ordered (h.insert lt e).elements (h.insert lt e).p := by
  rw [elements_insert]
  refine UpOrdered.bubbleUp hlt le_rfl (lt_succ_self _) ?_ (.of_leaf ?_ ?_)
  · exact .set he fun i hi hne => keyed_iff.mpr hk i (by omega)
  · intro i hi hin hne hfne
    change (update h.p h.elements e (father i)).key ≤ (update h.p h.elements e i).key
    rw [update_of_ne hfne, update_of_ne hne]
    exact ho i hi (by omega)
  · unfold left
    omega

omit [DecidableEq α] in
theorem HoleOrdered.move (hlt : Agrees lt G) (hk : Keyed G (max + 1) h.p) (hi : i ≤ max)
    (hleft : left i ≤ max) (ho : HoleOrdered (max + 1) i h.p) :
    HoleOrdered (max + 1) (h.child lt max i) (h.set i (h.p (h.child lt max i))).p := by
  have hc := lt_child lt h max i
  -- the child that goes up is the smaller one
  have hmin : ∀ k, 0 < k → k < max + 1 → father k = i →
      (h.p (h.child lt max i)).key ≤ (h.p k).key := by
    intro k hkpos hkn hfk
    have hcases := (father_eq_iff hkpos).mp hfk
    unfold child
    split_ifs with hright
    · rcases hcases with rfl | rfl
      · exact ((hlt _ _ (hk _ (by omega)) (hk _ hkn)).mp hright.2).le
      · exact le_rfl
    · rcases hcases with rfl | rfl
      · exact le_rfl
      · refine not_lt.mp fun hless => hright ⟨by omega, ?_⟩
        exact (hlt _ _ (hk _ hkn) (hk _ (by omega))).mpr hless
  constructor
  · intro k hkpos hkn hne hfne
    by_cases hki : k = i
    · subst hki
      rw [p_set_self, p_set_of_ne (father_lt hkpos).ne]
      exact ho.grand hkpos _ (by omega) (by have := child_le lt h hleft; omega) father_child
    · rw [p_set_of_ne hki]
      by_cases hfi : father k = i
      · rw [hfi, p_set_self]
        exact hmin k hkpos hkn hfi
      · rw [p_set_of_ne hfi]
        exact ho.other k hkpos hkn hki hfi
  · intro _ k hkpos hkn hfk
    have hck := father_lt hkpos
    rw [father_child, p_set_self, p_set_of_ne (by omega)]
    have := ho.other k hkpos hkn (by omega) (by omega)
    rwa [hfk] at this

theorem HoleOrdered.sink (fuel : ℕ) (hlt : Agrees lt G) (hk : Keyed G (max + 1) h.p) (hi : i ≤ max)
    (ho : HoleOrdered (max + 1) i h.p) :
    HoleOrdered (max + 1) (Heap.sink lt max fuel h i).2 (Heap.sink lt max fuel h i).1.p ∧
      Keyed G (max + 1) (Heap.sink lt max fuel h i).1.p := by
  induction fuel generalizing h i with
  | zero => exact ⟨ho, hk⟩
  | succ fuel ih =>
    unfold Heap.sink
    split_ifs with hleft
    · have hc := child_le lt h hleft
      exact ih (.set (hk _ (lt_succ_of_le hc)) fun k hkn _ => hk k hkn) hc (ho.move hlt hk hi hleft)
    · exact ⟨ho, hk⟩

section

variable (hlt : Agrees lt G)

include hlt

theorem HoleOrdered.fill (hk : Keyed G (max + 1) h.p) (hi : i ≤ max)
    (hleaf : max < left i) (ho : HoleOrdered (max + 1) i h.p) :
    Ordered max (Heap.fill lt max h i).p := by
  have hno : ∀ k, 0 < k → k < max + 1 → father k ≠ i := by
    intro k hkpos hkn hf
    rcases (father_eq_iff hkpos).mp hf with h | h <;> omega
  unfold Heap.fill
  split_ifs with hmax
  · exact fun k hkpos hkn => ho.other k hkpos (by omega) (by omega) (hno k hkpos (by omega))
  · refine UpOrdered.bubbleUp hlt le_rfl (lt_of_le_of_ne hi hmax) ?_ (.of_leaf ?_ (by omega))
    · exact .set (hk max (lt_succ_self max)) fun k hkn _ => hk k (by omega)
    · intro k hkpos hkn hki hfk
      change (update h.p i _ (father k)).key ≤ (update h.p i _ k).key
      rw [update_of_ne hki, update_of_ne hfk]
      exact ho.other k hkpos (by omega) hki hfk

/-- **Extraction keeps the order.** -/
theorem Ordered.extractAt (hk : ∀ e ∈ h.entries, G e.key) (hi : i < h.elements)
    (ho : Ordered h.elements h.p) : Ordered (h.extractAt lt i).elements (h.extractAt lt i).p := by
  obtain ⟨max, hmax⟩ : ∃ max, h.elements = max + 1 := ⟨h.elements - 1, by omega⟩
  have hle : i ≤ max := by omega
  rw [elements_extractAt, Heap.extractAt, hmax]
  have hkeys : Keyed G (max + 1) (h.resetOffset i).p := hmax ▸ keyed_iff.mpr hk
  have hhole : HoleOrdered (max + 1) i (h.resetOffset i).p := by
    constructor
    · exact fun k hkpos hkn _ _ => ho k hkpos (by omega)
    · intro hpos k hkpos hkn hfk
      have hup := ho i hpos hi
      have hdown := ho k hkpos (by omega)
      rw [hfk] at hdown
      exact hup.trans hdown
  obtain ⟨hsunk, hkeys'⟩ := hhole.sink (max + 1) hlt hkeys hle
  have hstop := sink_le lt (max + 1) (h.resetOffset i) hle
  have hleaf : max < left (sink lt max (max + 1) (h.resetOffset i) i).2 :=
    max_lt_left_sink lt _ (by omega)
  exact HoleOrdered.fill hlt hkeys' hstop hleaf hsunk

/-- After the entries of the first slots have gone up they are in order. -/
theorem Ordered.heapifyFrom (hk : Keyed G (i + n) h.p)
    (ho : Ordered i h.p) : Ordered (i + n) (Heap.heapifyFrom lt n h i).p := by
  induction n generalizing h i with
  | zero => exact ho
  | succ n ih =>
    rw [show i + (n + 1) = i + 1 + n by omega]
    refine ih ?_ (UpOrdered.bubbleUp hlt le_rfl (lt_succ_self i)
      (fun k hki => hk k (by omega)) (.of_leaf ?_ (by unfold left; omega)))
    · refine keyed_iff.mpr fun e he => keyed_iff.mp hk e ?_
      rw [contents_bubbleUp (by omega)] at he
      rwa [show i + (n + 1) = i + 1 + n by omega]
    · exact fun k hkpos hkn hki _ => ho k hkpos (by omega)

theorem Ordered.heapify (hk : Keyed G h.elements h.p) :
    Ordered (Heap.heapify lt h).elements (Heap.heapify lt h).p := by
  have hall : Ordered (0 + h.elements) (Heap.heapifyFrom lt h.elements h 0).p :=
    Ordered.heapifyFrom hlt (by rwa [zero_add]) fun k _ hk => absurd hk (not_lt_zero k)
  rw [zero_add] at hall
  rwa [Heap.heapify, elements_heapifyFrom]

/-- **Removal keeps the order.** -/
theorem Ordered.removeAll (hk : ∀ e ∈ h.entries, G e.key) (ho : Ordered h.elements h.p) :
    Ordered (h.removeAll lt bad).elements (h.removeAll lt bad).p := by
  unfold Heap.removeAll
  simp only
  split_ifs with hfound
  · rw [compact_eq_self hfound]
    exact ho
  · have hkeys : Keyed G (compact bad h.elements h 0 0).1.elements
        (compact bad h.elements h 0 0).1.p := by
      refine keyed_iff.mpr fun e he => hk e ?_
      change e ∈ (compact bad h.elements h 0 0).1.entries at he
      rw [entries_compact_all] at he
      exact (mem_filter.mp he).1
    exact Ordered.heapify hlt hkeys

end

end Order

/-! ## The recorded slots -/

/-- The recorded slot of each object is where it is. -/
def Placed (n : ℕ) (h : Heap κ α) : Prop :=
  ∀ i < n, h.pos (h.p i).object = i

/-- The same, apart from one slot. -/
structure PlacedExcept (n hole : ℕ) (h : Heap κ α) : Prop where
  placed : ∀ i < n, i ≠ hole → h.pos (h.p i).object = i
  distinct : ∀ i < n, ∀ j < n, i ≠ hole → j ≠ hole → (h.p i).object = (h.p j).object → i = j

omit [DecidableEq α] in
theorem Placed.distinct (hp : Placed n h) : Distinct n h.p := by
  intro i hi j hj heq
  have hpos := hp i hi
  rw [heq, hp j hj] at hpos
  exact (Int.ofNat.inj hpos).symm

omit [DecidableEq α] in
theorem Placed.nodup (hp : Placed h.elements h) : h.members.Nodup :=
  nodup_objects_iff.mpr hp.distinct

theorem PlacedExcept.setOffset (hp : PlacedExcept n i h)
    (hnew : ∀ j < n, j ≠ i → (h.p j).object ≠ (h.p i).object) : Placed n (h.setOffset i) := by
  intro j hj
  change update h.pos (h.p i).object i (h.p j).object = j
  by_cases hji : j = i
  · rw [hji, update_self]
  · rw [update_of_ne (hnew j hj hji)]
    exact hp.placed j hj hji

theorem Placed.bubbleUp (hson : son < n) (hdistinct : Distinct n h.p)
    (hp : ∀ i < n, i ≠ son → h.pos (h.p i).object = i) :
    Placed n (Heap.bubbleUp lt fuel h son) := by
  have hdone : ∀ {h : Heap κ α} {son : ℕ}, son < n → Distinct n h.p →
      (∀ i < n, i ≠ son → h.pos (h.p i).object = i) → Placed n (h.setOffset son) := by
    intro h son hson hdistinct hp
    refine PlacedExcept.setOffset ⟨hp, fun i hi j hj _ _ => hdistinct i hi j hj⟩ ?_
    exact fun j hj hne heq => hne (hdistinct j hj son hson heq)
  fun_induction Heap.bubbleUp with
  | case4 fuel h son hne _ ih =>
    have hf := father_lt (Nat.pos_of_ne_zero hne)
    have hfn := hf.trans hson
    have hat : (h.swap son (father son)).p son = h.p (father son) := p_swap_left hf.ne'
    have hnodup : (objects n (h.swap son (father son)).p).Nodup := by
      rw [objects, contents_swap hson hfn hf.ne]
      exact nodup_objects_iff.mpr hdistinct
    refine ih hfn (nodup_objects_iff.mp hnodup) fun k hk hkf => ?_
    change update h.pos ((h.swap son (father son)).p son).object son
      ((h.swap son (father son)).p k).object = k
    rw [hat]
    by_cases hks : k = son
    · rw [hks, hat, update_self]
    · rw [p_swap_of_ne hks hkf, update_of_ne fun heq => hkf (hdistinct k hk _ hfn heq)]
      exact hp k hk hks
  | _ => exact hdone hson hdistinct hp

/-- **Insertion keeps the slots.** -/
theorem Placed.insert (hnew : e.object ∉ h.members) (hp : Placed h.elements h) :
    Placed (h.insert lt e).elements (h.insert lt e) := by
  rw [elements_insert]
  have hoff : ∀ k < h.elements, update h.p h.elements e k = h.p k :=
    fun k hk => update_of_ne hk.ne _ _
  refine Placed.bubbleUp (lt_succ_self _) ?_ fun k hk hne => ?_
  · refine nodup_objects_iff.mp ?_
    change ((contents (h.elements + 1) (update h.p h.elements e)).map Entry.object).Nodup
    rw [contents_succ, update_self, contents_congr hoff]
    exact nodup_cons.mpr ⟨hnew, hp.nodup⟩
  · have hlt : k < h.elements := by omega
    change h.pos (update h.p h.elements e k).object = k
    rw [hoff k hlt]
    exact hp k hlt

theorem PlacedExcept.sink (fuel : ℕ) (hi : i ≤ max) (hp : PlacedExcept (max + 1) i h) :
    PlacedExcept (max + 1) (Heap.sink lt max fuel h i).2 (Heap.sink lt max fuel h i).1 := by
  induction fuel generalizing h i with
  | zero => exact hp
  | succ fuel ih =>
    unfold Heap.sink
    split_ifs with hleft
    · have hc := lt_child lt h max i
      have hcn := lt_succ_of_le (child_le lt h hleft)
      have hother : ∀ k, k < max + 1 ∧ k ≠ h.child lt max i → k ≠ i →
          (h.p k).object ≠ (h.p (h.child lt max i)).object :=
        fun k hk hki heq => hk.2 (hp.distinct k hk.1 _ hcn hki hc.ne' heq)
      refine ih (child_le lt h hleft) ⟨fun k hk hkc => ?_, fun k hk j hj hkc hjc heq => ?_⟩
      · change update h.pos ((h.set i (h.p (h.child lt max i))).p i).object i
          ((h.set i (h.p (h.child lt max i))).p k).object = k
        rw [p_set_self]
        by_cases hki : k = i
        · rw [hki, p_set_self, update_self]
        · rw [p_set_of_ne hki, update_of_ne (hother k ⟨hk, hkc⟩ hki)]
          exact hp.placed k hk hki
      · exact distinct_set hother (fun k hk j hj => hp.distinct k hk.1 j hj.1) ⟨hk, hkc⟩
          ⟨hj, hjc⟩ heq
    · exact hp

theorem PlacedExcept.fill (hi : i ≤ max) (hp : PlacedExcept (max + 1) i h) :
    Placed max (Heap.fill lt max h i) := by
  unfold Heap.fill
  split_ifs with hmax
  · exact fun k hk => hp.placed k (by omega) (by omega)
  · have hlast : ∀ k < max, k ≠ i → (h.p k).object ≠ (h.p max).object :=
      fun k hk hki heq => hk.ne (hp.distinct k (by omega) max (by omega) hki (Ne.symm hmax) heq)
    refine Placed.bubbleUp (lt_of_le_of_ne hi hmax) (fun k hk j hj heq => ?_) fun k hk hki => ?_
    · exact distinct_set hlast (fun k hk j hj => hp.distinct k (by omega) j (by omega)) hk hj heq
    · rw [p_set_of_ne hki]
      exact hp.placed k (by omega) hki

/-- **Extraction keeps the slots.** -/
theorem Placed.extractAt (hi : i < h.elements) (hp : Placed h.elements h) :
    Placed (h.extractAt lt i).elements (h.extractAt lt i) := by
  obtain ⟨max, hmax⟩ : ∃ max, h.elements = max + 1 := ⟨h.elements - 1, by omega⟩
  have hle : i ≤ max := by omega
  rw [elements_extractAt, Heap.extractAt, hmax]
  have hhole : PlacedExcept (max + 1) i (h.resetOffset i) := by
    constructor
    · intro k hk hki
      change update h.pos (h.p i).object (-1) (h.p k).object = k
      rw [update_of_ne fun heq => hki (hp.distinct k (by omega) i hi heq)]
      exact hp k (by omega)
    · exact fun k _ j _ _ _ => hp.distinct k (by omega) j (by omega)
  have hsunk : PlacedExcept (max + 1) (Heap.sink lt max (max + 1) (h.resetOffset i) i).2
      (Heap.sink lt max (max + 1) (h.resetOffset i) i).1 := hhole.sink (max + 1) hle
  exact PlacedExcept.fill (sink_le lt (max + 1) (h.resetOffset i) hle) hsunk

theorem Placed.heapifyFrom (hdistinct : Distinct (i + n) h.p) (hp : Placed i h) :
    Placed (i + n) (Heap.heapifyFrom lt n h i) := by
  induction n generalizing h i with
  | zero => exact hp
  | succ n ih =>
    rw [show i + (n + 1) = i + 1 + n by omega]
    refine ih ?_ (Placed.bubbleUp (lt_succ_self i) (fun k hk j hj =>
      hdistinct k (by omega) j (by omega)) fun k hk hki => hp k (by omega))
    refine nodup_objects_iff.mp ?_
    rw [objects, contents_bubbleUp (by omega), show i + 1 + n = i + (n + 1) by omega]
    exact nodup_objects_iff.mpr hdistinct

theorem Placed.heapify (hdistinct : Distinct h.elements h.p) :
    Placed (Heap.heapify lt h).elements (Heap.heapify lt h) := by
  have hall : Placed (0 + h.elements) (Heap.heapifyFrom lt h.elements h 0) :=
    Placed.heapifyFrom (by rwa [zero_add]) fun k hk => absurd hk (not_lt_zero k)
  rw [zero_add] at hall
  rwa [Heap.heapify, elements_heapifyFrom]

/-- **Removal keeps the slots.** -/
theorem Placed.removeAll (hp : Placed h.elements h) :
    Placed (h.removeAll lt bad).elements (h.removeAll lt bad) := by
  unfold Heap.removeAll
  simp only
  split_ifs with hfound
  · rw [compact_eq_self hfound]
    exact hp
  · have hnodup : (compact bad h.elements h 0 0).1.members.Nodup := by
      rw [members, entries_compact_all]
      exact nodup_of_le (map_le_map (filter_le _ _)) hp.nodup
    exact Placed.heapify (nodup_objects_iff.mp hnodup)

omit [DecidableEq α] in
/-- An object that is in the heap is found at its slot. -/
theorem Placed.object_at (hp : Placed h.elements h) {a : α} (ha : a ∈ h.members) :
    ∃ i < h.elements, h.pos a = i ∧ (h.p i).object = a := by
  obtain ⟨e, he, rfl⟩ := mem_map.mp ha
  obtain ⟨i, hi, rfl⟩ := mem_contents.mp he
  exact ⟨i, hi, hp i hi, rfl⟩

end Heap

end FreeBSDSys.ArrayHeap
