import FreeBSDSys.Lib.Spans

/-!
# Queues of pieces of a stream

Transport and network protocols receive pieces of a stream in any order, twice, and overlapping, and
keep those they cannot use yet in a queue sorted by position.  A new piece is cut at the end of its
predecessor, or dropped if that has all of it, and the pieces behind it are cut at its end, or
removed if it has all of them.  Pieces at the front of the queue that follow on each other are taken
off and joined.

* `slice f p n`: the `n` elements of the stream `f` from position `p` on.
* `Piece`, `Sorted`, `Piece.Carries`: pieces, queues that are in order, pieces that agree with the
  stream.
* `trimAfter`, `place`: the insertion, with `place_eq_none`, `place_sorted`, `place_cover`,
  `place_forall`.
* `present`: the front of the queue, with `present_slice`.
* `joins`: whether the whole queue follows on, with `joins_slice`, `joins_getLast`,
  `joins_of_cover`.

A piece may be empty; protocols use such pieces to carry an end mark.
-/

namespace FreeBSDSys.Reassembly

open List Option Spans

variable {β τ : Type*} {n e : ℕ}

/-! ## Slices -/

/-- The `n` elements of the stream `f` from position `p` on. -/
def slice (f : ℕ → β) (p n : ℕ) : List β := (List.range' p n).map f

variable {f : ℕ → β} {p m n : ℕ}

@[simp] theorem length_slice : (slice f p n).length = n := by simp [slice]

@[simp] theorem slice_zero : slice f p 0 = [] := rfl

theorem slice_append : slice f p m ++ slice f (p + m) n = slice f p (m + n) := by
  rw [slice, slice, slice, ← map_append, range'_append_1]

theorem drop_slice : (slice f p n).drop m = slice f (p + m) (n - m) := by
  rw [slice, slice, ← map_drop, drop_range', Nat.mul_one]

/-! ## Pieces -/

/-- A piece of a stream at position `lo`. -/
structure Piece (β τ : Type*) where
  lo : ℕ
  data : List β
  tag : τ

/-- The position behind a piece. -/
def Piece.hi (a : Piece β τ) : ℕ := a.lo + a.data.length

/-- A piece without its first `i` elements. -/
def Piece.trim (a : Piece β τ) (i : ℕ) : Piece β τ := ⟨a.lo + i, a.data.drop i, a.tag⟩

/-- A piece agrees with the stream. -/
def Piece.Carries (f : ℕ → β) (a : Piece β τ) : Prop := a.data = slice f a.lo a.data.length

instance [DecidableEq β] (f : ℕ → β) (a : Piece β τ) : Decidable (a.Carries f) :=
  inferInstanceAs (Decidable (_ = _))

/-- The pieces come in order and do not meet. -/
def Sorted (l : List (Piece β τ)) : Prop := l.Pairwise fun a b => a.hi ≤ b.lo

open Piece

variable {a b x : Piece β τ} {l r : List (Piece β τ)} {e i : ℕ}

theorem Piece.lo_le_hi : a.lo ≤ a.hi := Nat.le_add_right _ _

@[simp] theorem Piece.lo_trim : (a.trim i).lo = a.lo + i := rfl

theorem Piece.hi_trim (h : i ≤ a.data.length) : (a.trim i).hi = a.hi := by
  simp only [trim, hi, length_drop]
  omega

/-- What is said of pieces so that cutting off a front does not matter. -/
def Trimmable (P : Piece β τ → Prop) : Prop := ∀ a i, i ≤ a.data.length → P a → P (a.trim i)

theorem trimmable_carries : Trimmable (Carries (τ := τ) f) := by
  intro a i hi ha
  unfold Carries at ha ⊢
  rw [trim, ha, drop_slice, length_slice]

theorem sorted_append :
    Sorted (l ++ r) ↔ Sorted l ∧ Sorted r ∧ ∀ a ∈ l, ∀ b ∈ r, a.hi ≤ b.lo := pairwise_append

theorem sorted_cons : Sorted (a :: l) ↔ (∀ b ∈ l, a.hi ≤ b.lo) ∧ Sorted l := pairwise_cons

/-! ## Cutting the pieces behind -/

/-- Cut what lies before `e` off the pieces. -/
def trimAfter (e : ℕ) : List (Piece β τ) → List (Piece β τ)
  | [] => []
  | q :: l =>
    if e ≤ q.lo then q :: l else if e < q.hi then q.trim (e - q.lo) :: l else trimAfter e l

/-- The pieces left are pieces of before, cut or not. -/
theorem trimAfter_mem (h : a ∈ trimAfter e l) : ∃ b ∈ l, ∃ i, i ≤ b.data.length ∧ a = b.trim i := by
  induction l with
  | nil => cases h
  | cons q l ih =>
    unfold trimAfter at h
    split at h
    · exact ⟨a, h, 0, Nat.zero_le _, by simp [trim]⟩
    · split at h
      next hlt =>
        obtain rfl | h := mem_cons.mp h
        · exact ⟨q, mem_cons_self, e - q.lo, by unfold hi at hlt; omega, rfl⟩
        · exact ⟨a, mem_cons_of_mem _ h, 0, Nat.zero_le _, by simp [trim]⟩
      · obtain ⟨b, hb, i, hi, rfl⟩ := ih h
        exact ⟨b, mem_cons_of_mem _ hb, i, hi, rfl⟩

theorem trimAfter_forall {P : Piece β τ → Prop} (hP : Trimmable P) (h : ∀ a ∈ l, P a) :
    ∀ a ∈ trimAfter e l, P a := by
  intro a ha
  obtain ⟨b, hb, i, hi, rfl⟩ := trimAfter_mem ha
  exact hP b i hi (h b hb)

theorem trimAfter_sorted (h : Sorted l) :
    Sorted (trimAfter e l) ∧ ∀ a ∈ trimAfter e l, e ≤ a.lo := by
  induction l with
  | nil => exact ⟨.nil, by simp [trimAfter]⟩
  | cons q l ih =>
    obtain ⟨hq, hl⟩ := sorted_cons.mp h
    unfold trimAfter
    split
    next hle =>
      exact ⟨h, forall_mem_cons.mpr
        ⟨hle, fun a ha => hle.trans (lo_le_hi.trans (hq a ha))⟩⟩
    · split
      next hlt =>
        have hi : e - q.lo ≤ q.data.length := by unfold hi at hlt; omega
        refine ⟨sorted_cons.mpr ⟨?_, hl⟩, forall_mem_cons.mpr
          ⟨?_, fun a ha => hlt.le.trans (hq a ha)⟩⟩
        · rwa [hi_trim hi]
        · rw [lo_trim]
          omega
      · exact ih hl

theorem trimAfter_cover (h : Sorted l) :
    cover lo hi (trimAfter e l) = cover lo hi l \ {y | y < e} := by
  induction l with
  | nil => simp [trimAfter]
  | cons q l ih =>
    obtain ⟨hq, hl⟩ := sorted_cons.mp h
    have hbehind : ∀ y ∈ cover lo hi l, q.hi ≤ y := by
      rintro y ⟨a, ha, hy⟩
      exact (hq a ha).trans hy.1
    have hqq : q.lo ≤ q.hi := lo_le_hi
    unfold trimAfter
    split
    · ext y
      simp only [Set.mem_sdiff, mem_cover_cons, mem_span]
      grind
    · split
      next hlt =>
        have hi : e - q.lo ≤ q.data.length := by unfold hi at hlt; omega
        ext y
        simp only [Set.mem_sdiff, mem_cover_cons, mem_span, hi_trim hi, lo_trim]
        grind
      · ext y
        simp only [Set.mem_sdiff, mem_cover_cons, mem_span]
        grind

/-! ## Placing a new piece -/

/-- What is left of a new piece behind its predecessor, the last of the pieces before it. -/
def cutBefore (l : List (Piece β τ)) (x : Piece β τ) : Option (Piece β τ) :=
  match l.getLast? with
  | none => some x
  | some p =>
    if p.hi ≤ x.lo then some x
    else if x.hi ≤ p.hi then none
    else some (x.trim (p.hi - x.lo))

/-- The queue with a new piece, or nothing if the queue has all of it. -/
def place (x : Piece β τ) (l : List (Piece β τ)) : Option (List (Piece β τ)) :=
  (cutBefore (l.takeWhile fun a => a.lo ≤ x.lo) x).map fun y =>
    (l.takeWhile fun a => a.lo ≤ x.lo) ++ y :: trimAfter x.hi (l.dropWhile fun a => a.lo ≤ x.lo)

theorem cutBefore_none (h : cutBefore l x = none) (hl : ∀ a ∈ l, a.lo ≤ x.lo) :
    span lo hi x ⊆ cover lo hi l := by
  unfold cutBefore at h
  split at h
  · cases h
  next p hp =>
    obtain ⟨m, rfl⟩ := getLast?_eq_some_iff.mp hp
    split_ifs at h with hlo hle
    intro y hy
    exact ⟨p, by simp, (hl p (by simp)).trans hy.1, hy.2.trans_le hle⟩

/-- The new piece starts behind all pieces before it, and only what they have is cut off. -/
theorem cutBefore_some {y : Piece β τ} (h : cutBefore l x = some y) (hs : Sorted l)
    (hl : ∀ a ∈ l, a.lo ≤ x.lo) :
    (∃ i ≤ x.data.length, y = x.trim i) ∧ (∀ a ∈ l, a.hi ≤ y.lo) ∧ x.lo ≤ y.lo ∧
      ∀ z, x.lo ≤ z → z < y.lo → z ∈ cover lo hi l := by
  unfold cutBefore at h
  split at h
  next hnil =>
    cases h
    rw [getLast?_eq_none_iff.mp hnil]
    exact ⟨⟨0, Nat.zero_le _, by simp [trim]⟩, by simp, le_rfl, fun z h1 h2 => by omega⟩
  next p hp =>
    obtain ⟨m, rfl⟩ := getLast?_eq_some_iff.mp hp
    have hlast : ∀ a ∈ m ++ [p], a.hi ≤ p.hi := by
      intro a ha
      obtain ha | ha := mem_append.mp ha
      · exact ((sorted_append.mp hs).2.2 a ha p (by simp)).trans lo_le_hi
      · obtain rfl := mem_singleton.mp ha
        exact le_rfl
    split_ifs at h with hle hlt
    · cases h
      exact ⟨⟨0, Nat.zero_le _, by simp [trim]⟩, fun a ha => (hlast a ha).trans hle, le_rfl,
        fun z h1 h2 => by omega⟩
    · cases h
      have hx : x.hi = x.lo + x.data.length := rfl
      have hlo : (x.trim (p.hi - x.lo)).lo = p.hi := by
        rw [lo_trim]
        omega
      refine ⟨⟨p.hi - x.lo, by omega, rfl⟩, ?_, by omega, fun z h1 h2 => ⟨p, by simp, ?_, ?_⟩⟩
      · rwa [hlo]
      · exact (hl p (by simp)).trans h1
      · rwa [hlo] at h2

section Place

variable {l' : List (Piece β τ)}

theorem lo_le_of_mem_takeWhile : ∀ a ∈ l.takeWhile fun a => a.lo ≤ x.lo, a.lo ≤ x.lo :=
  fun _ ha => by simpa using mem_takeWhile_imp ha

theorem lt_lo_of_mem_dropWhile (h : Sorted l) :
    ∀ a ∈ l.dropWhile fun a => a.lo ≤ x.lo, x.lo < a.lo := by
  induction l with
  | nil => simp
  | cons q l ih =>
    obtain ⟨hq, hl⟩ := sorted_cons.mp h
    rw [dropWhile_cons]
    split
    · exact ih hl
    next hlt =>
      have hlt' : x.lo < q.lo := by simpa using hlt
      exact forall_mem_cons.mpr
        ⟨hlt', fun a ha => hlt'.trans_le (lo_le_hi.trans (hq a ha))⟩

theorem takeWhile_sorted (h : Sorted l) :
    Sorted (l.takeWhile fun a => a.lo ≤ x.lo) ∧ Sorted (l.dropWhile fun a => a.lo ≤ x.lo) :=
  ⟨h.sublist (takeWhile_sublist _), h.sublist (dropWhile_sublist _)⟩

/-- **A piece that is dropped** is in the queue already. -/
theorem place_eq_none (h : place x l = none) : span lo hi x ⊆ cover lo hi l := by
  have hcut := cutBefore_none (Option.map_eq_none_iff.mp h) lo_le_of_mem_takeWhile
  intro y hy
  obtain ⟨a, ha, hya⟩ := hcut hy
  exact ⟨a, (takeWhile_sublist _).subset ha, hya⟩

/-- **The queue stays in order.** -/
theorem place_sorted (h : Sorted l) (hp : place x l = some l') : Sorted l' := by
  obtain ⟨y, hy, rfl⟩ := Option.map_eq_some_iff.mp hp
  obtain ⟨hL, hA⟩ := takeWhile_sorted h
  obtain ⟨⟨i, hi, rfl⟩, hbefore, -, -⟩ := cutBefore_some hy hL lo_le_of_mem_takeWhile
  obtain ⟨hT, hTlo⟩ := trimAfter_sorted hA
  have hlt : (x.trim i).lo ≤ (x.trim i).hi := lo_le_hi
  rw [hi_trim hi] at hlt
  refine sorted_append.mpr ⟨hL, sorted_cons.mpr ⟨?_, hT⟩, fun a ha => forall_mem_cons.mpr
    ⟨hbefore a ha, fun b hb => (hbefore a ha).trans (hlt.trans (hTlo b hb))⟩⟩
  rwa [hi_trim hi]

/-- **The queue gains the elements of the piece**, and loses none. -/
theorem place_cover (h : Sorted l) (hp : place x l = some l') :
    cover lo hi l' = cover lo hi l ∪ span lo hi x := by
  obtain ⟨y, hy, rfl⟩ := Option.map_eq_some_iff.mp hp
  obtain ⟨hL, hA⟩ := takeWhile_sorted h
  obtain ⟨⟨i, hi, rfl⟩, -, hle, hcut⟩ := cutBefore_some hy hL lo_le_of_mem_takeWhile
  have hlo : ∀ z ∈ cover Piece.lo Piece.hi (l.dropWhile fun a => a.lo ≤ x.lo), x.lo ≤ z := by
    rintro z ⟨a, ha, hz⟩
    exact (lt_lo_of_mem_dropWhile h a ha).le.trans hz.1
  have hsplit : cover Piece.lo Piece.hi l =
      cover Piece.lo Piece.hi (l.takeWhile fun a => a.lo ≤ x.lo) ∪
        cover Piece.lo Piece.hi (l.dropWhile fun a => a.lo ≤ x.lo) := by
    rw [← cover_append, takeWhile_append_dropWhile]
  rw [cover_append, cover_cons, trimAfter_cover hA]
  ext z
  have hz := hcut z
  simp only [Set.mem_union, Set.mem_sdiff, mem_span, hi_trim hi] at hz ⊢
  grind

/-- **What cutting does not change holds of the whole queue.** -/
theorem place_forall {P : Piece β τ → Prop} (hP : Trimmable P) (h : ∀ a ∈ l, P a) (hx : P x)
    (hs : Sorted l) (hp : place x l = some l') : ∀ a ∈ l', P a := by
  obtain ⟨y, hy, rfl⟩ := Option.map_eq_some_iff.mp hp
  obtain ⟨⟨i, hi, rfl⟩, -⟩ := cutBefore_some hy (takeWhile_sorted hs).1 lo_le_of_mem_takeWhile
  refine forall_mem_append.mpr ⟨fun a ha => h a ((takeWhile_sublist _).subset ha),
    forall_mem_cons.mpr ⟨hP x i hi hx, trimAfter_forall hP fun b hb => ?_⟩⟩
  exact h b ((dropWhile_sublist _).subset hb)

end Place

/-! ## The front of the queue -/

/-- Take pieces off the front as long as they follow on each other from `n` on: where they end, what
they hold, and what is left. -/
def present (n : ℕ) : List (Piece β τ) → ℕ × List β × List (Piece β τ)
  | [] => (n, [], [])
  | q :: l =>
    if q.lo = n then
      ((present q.hi l).1, q.data ++ (present q.hi l).2.1, (present q.hi l).2.2)
    else
      (n, [], q :: l)

theorem present_suffix (n : ℕ) (l : List (Piece β τ)) : (present n l).2.2 <:+ l := by
  induction l generalizing n with
  | nil => exact suffix_refl _
  | cons q l ih =>
    unfold present
    split
    · exact (ih q.hi).trans (suffix_cons _ _)
    · exact suffix_refl _

theorem le_present (n : ℕ) (l : List (Piece β τ)) : n ≤ (present n l).1 := by
  induction l generalizing n with
  | nil => exact le_rfl
  | cons q l ih =>
    unfold present
    split
    next heq => exact (heq.symm.le.trans lo_le_hi).trans (ih q.hi)
    next => exact le_rfl

theorem present_le (hn : n ≤ m) (hm : ∀ a ∈ l, a.hi ≤ m) : (present n l).1 ≤ m := by
  induction l generalizing n with
  | nil => exact hn
  | cons q l ih =>
    unfold present
    split
    · exact ih (hm q mem_cons_self) fun a ha => hm a (mem_cons_of_mem _ ha)
    · exact hn

/-- **The pieces taken off hold the stream** from `n` to where they end, and the others lie behind.
-/
theorem present_slice (hs : Sorted l) (hc : ∀ a ∈ l, a.Carries f) (hn : ∀ a ∈ l, n ≤ a.lo) :
    (present n l).2.1 = slice f n ((present n l).1 - n) ∧
      ∀ a ∈ (present n l).2.2, (present n l).1 ≤ a.lo := by
  induction l generalizing n with
  | nil => exact ⟨by simp [present], by simp [present]⟩
  | cons q l ih =>
    obtain ⟨hq, hl⟩ := sorted_cons.mp hs
    unfold present
    split
    next heq =>
      have hle := le_present q.hi l
      obtain ⟨hdata, hrest⟩ := ih hl (fun a ha => hc a (mem_cons_of_mem _ ha)) hq
      have hhi : n + q.data.length = q.hi := by rw [hi, heq]
      have hqc : q.data = slice f n q.data.length := heq ▸ hc q mem_cons_self
      have happ := slice_append (f := f) (p := n) (m := q.data.length)
        (n := (present q.hi l).1 - q.hi)
      rw [hhi, ← hqc] at happ
      refine ⟨?_, hrest⟩
      simp only [hdata, happ]
      congr 1
      omega
    next => exact ⟨by simp, hn⟩

/-! ## Complete queues -/

/-- Where the pieces end if each follows on the one before, from `n` on. -/
def joins (n : ℕ) : List (Piece β τ) → Option ℕ
  | [] => some n
  | q :: l => if q.lo = n then joins q.hi l else none

theorem joins_cons (h : joins n (a :: l) = some e) : a.lo = n ∧ joins a.hi l = some e := by
  unfold joins at h
  exact ite_none_right_eq_some.mp h

theorem le_joins (h : joins n l = some e) : n ≤ e := by
  induction l generalizing n with
  | nil => exact (some.inj h).le
  | cons q l ih =>
    obtain ⟨rfl, hl⟩ := joins_cons h
    exact lo_le_hi.trans (ih hl)

/-- **Pieces that follow on each other hold the stream** up to where they end. -/
theorem joins_slice (hc : ∀ a ∈ l, a.Carries f) (h : joins n l = some e) :
    l.flatMap data = slice f n (e - n) := by
  induction l generalizing n with
  | nil =>
    cases h
    simp
  | cons q l ih =>
    obtain ⟨rfl, hl⟩ := joins_cons h
    have hle := le_joins hl
    have hhi : q.hi = q.lo + q.data.length := rfl
    have hq : q.data = slice f q.lo q.data.length := hc q mem_cons_self
    have happ := slice_append (f := f) (p := q.lo) (m := q.data.length) (n := e - q.hi)
    rw [← hhi, ← hq] at happ
    rw [flatMap_cons, ih (fun a ha => hc a (mem_cons_of_mem _ ha)) hl, happ]
    congr 1
    omega

theorem joins_getLast (h : joins n l = some e) (ha : l.getLast? = some a) : a.hi = e := by
  induction l generalizing n with
  | nil => cases ha
  | cons q l ih =>
    obtain ⟨rfl, hl⟩ := joins_cons h
    cases l with
    | nil =>
      cases ha
      exact some.inj hl
    | cons r l => exact ih hl (by simpa using ha)

/-- **A queue that has all elements from `n` to `e`** follows on. -/
theorem joins_of_cover (hs : Sorted l) (hn : ∀ a ∈ l, n ≤ a.lo) (he : ∀ a ∈ l, a.hi ≤ e)
    (hne : n ≤ e) (h : ∀ x, n ≤ x → x < e → x ∈ cover lo hi l) : joins n l = some e := by
  induction l generalizing n with
  | nil =>
    have hle : ¬ n < e := fun hlt => by simpa using h n le_rfl hlt
    exact congrArg some (by omega)
  | cons q l ih =>
    obtain ⟨hq, hl⟩ := sorted_cons.mp hs
    have hqe := he q mem_cons_self
    have hqq : q.lo ≤ q.hi := lo_le_hi
    have hlo : q.lo = n := by
      by_contra hne'
      have hlt : n < q.lo := lt_of_le_of_ne (hn q mem_cons_self) (Ne.symm hne')
      obtain ⟨b, hb, hnb, -⟩ := h n le_rfl (by omega)
      obtain rfl | hb := mem_cons.mp hb
      · omega
      · have := hq b hb
        omega
    unfold joins
    rw [if_pos hlo]
    refine ih hl hq (fun a ha => he a (mem_cons_of_mem _ ha)) hqe fun x hx hxe => ?_
    obtain hin | hin := mem_cover_cons.mp (h x (by omega) hxe)
    · rw [mem_span] at hin
      omega
    · exact hin

end FreeBSDSys.Reassembly
