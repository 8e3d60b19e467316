import FreeBSDSys.Lib.BitRange

/-!
# Maximal runs of set bits

A piece of a bitmap is a function on the numbers below `size`.  A *maximal run* of it is a range of
set bits that cannot be made longer.  An allocator that keeps, for each length, the number of
maximal runs of that length has to change two of these numbers when it clears the first bits of a
run.

* `MaxRun.eq_of_start`: a maximal run is known by where it starts.
* `MaxRun.exists_of_range`: every range of set bits lies in a maximal run.
* `MaxRun.clear_iff`, `MaxRun.count_clear`: the runs after the first bits of one run are cleared.
* `Cleared.ones_add`: the set bits after that.
* `testBit_lenMask`: one pass over the bits finds the lengths of the runs.
-/

namespace FreeBSDSys.Runs

open Finset Nat

variable {f g : ℕ → Bool} {size p q k a n i s c : ℕ}

/-- The range of `k` bits from `p` on is set, and the bits next to it are not. -/
def MaxRun (f : ℕ → Bool) (size p k : ℕ) : Prop :=
  0 < k ∧ p + k ≤ size ∧ (∀ i < k, f (p + i) = true) ∧ (p = 0 ∨ f (p - 1) = false) ∧
    (p + k = size ∨ f (p + k) = false)

instance : Decidable (MaxRun f size p k) := by
  unfold MaxRun
  infer_instance

/-- The number of maximal runs of a length. -/
def runs (f : ℕ → Bool) (size k : ℕ) : ℕ := count (fun p => MaxRun f size p k) size

/-- The number of set bits. -/
def ones (f : ℕ → Bool) (size : ℕ) : ℕ := count (fun i => f i = true) size

theorem MaxRun.set (h : MaxRun f size p k) (hlo : p ≤ i) (hhi : i < p + k) : f i = true := by
  have hset := h.2.2.1 (i - p) (by omega)
  rwa [Nat.add_sub_cancel' hlo] at hset

theorem MaxRun.not_clear (h : MaxRun f size p k) (hclear : f i = false) : i < p ∨ p + k ≤ i := by
  by_contra hcon
  have hset := h.set (i := i) (by omega) (by omega)
  rw [hclear] at hset
  cases hset

/-- **A maximal run is known by where it starts.** -/
theorem MaxRun.eq_of_start (h : MaxRun f size p k) (h' : MaxRun f size p a) : k = a := by
  obtain ⟨-, hle, -, -, hright⟩ := id h
  obtain ⟨-, hle', -, -, hright'⟩ := id h'
  rcases lt_trichotomy k a with hlt | heq | hlt
  · rcases hright with heq | hclear
    · omega
    · have := h'.not_clear hclear
      omega
  · exact heq
  · rcases hright' with heq | hclear
    · omega
    · have := h.not_clear hclear
      omega

/-- The bits are the same at and around a range. -/
theorem MaxRun.congr (hset : ∀ i, p ≤ i + 1 → i ≤ p + k → g i = f i) :
    MaxRun g size p k ↔ MaxRun f size p k := by
  have hbits : (∀ i < k, g (p + i) = true) ↔ ∀ i < k, f (p + i) = true :=
    forall₂_congr fun i hi => by rw [hset (p + i) (by omega) (by omega)]
  have hleft : g (p - 1) = f (p - 1) := hset _ (by omega) (by omega)
  have hright : g (p + k) = f (p + k) := hset _ (by omega) (by omega)
  rw [MaxRun, MaxRun, hbits, hleft, hright]

theorem MaxRun.congr_below (hset : ∀ i < size, g i = f i) :
    MaxRun g size p k ↔ MaxRun f size p k := by
  by_cases hle : p + k < size
  · exact MaxRun.congr fun i _ hi => hset i (by omega)
  · refine and_congr_right fun hk => and_congr_right fun hpk => and_congr ?_ (and_congr ?_ ?_)
    · exact forall₂_congr fun i hi => by rw [hset (p + i) (by omega)]
    · rw [hset (p - 1) (by omega)]
    · exact ⟨fun _ => .inl (by omega), fun _ => .inl (by omega)⟩

/-- Every range of set bits lies in a maximal run. -/
theorem MaxRun.exists_of_range (hn : 0 < n) (hle : q + n ≤ size)
    (hset : ∀ i, q ≤ i → i < q + n → f i = true) :
    ∃ p k, p ≤ q ∧ q + n ≤ p + k ∧ MaxRun f size p k := by
  classical
  -- the lowest start and then the highest end of a range of set bits around the given one
  have hlow : ∃ p, p ≤ q ∧ ∀ i, p ≤ i → i < q + n → f i = true := ⟨q, le_refl q, hset⟩
  have hhigh : ∃ m, ∃ e, m = size - e ∧ q + n ≤ e ∧ e ≤ size ∧
      ∀ i, Nat.find hlow ≤ i → i < e → f i = true :=
    ⟨size - (q + n), q + n, rfl, Nat.le_refl _, hle, (Nat.find_spec hlow).2⟩
  obtain ⟨hpq, -⟩ := Nat.find_spec hlow
  obtain ⟨e, hfind, hqe, hes, hbits⟩ := Nat.find_spec hhigh
  refine ⟨Nat.find hlow, e - Nat.find hlow, hpq, by omega, by omega, by omega, ?_, ?_, ?_⟩
  · intro i hi
    exact hbits _ (by omega) (by omega)
  · by_contra hcon
    rw [not_or, Bool.not_eq_false] at hcon
    refine Nat.find_min hlow (m := Nat.find hlow - 1) (by omega) ⟨by omega, fun i hlo hhi => ?_⟩
    by_cases hi : i = Nat.find hlow - 1
    · exact hi ▸ hcon.2
    · exact (Nat.find_spec hlow).2 i (by omega) hhi
  · rw [Nat.add_sub_cancel' (by omega)]
    by_contra hcon
    rw [not_or, Bool.not_eq_false] at hcon
    refine Nat.find_min hhigh (by omega) ⟨e + 1, rfl, by omega, by omega, fun i hlo hhi => ?_⟩
    by_cases hi : i = e
    · exact hi ▸ hcon.2
    · exact hbits i hlo (by omega)

/-! ## Clearing the first bits of a run -/

/-- The first `n` bits of a range are cleared. -/
structure Cleared (f g : ℕ → Bool) (q n : ℕ) : Prop where
  inside : ∀ i, q ≤ i → i < q + n → g i = false
  outside : ∀ i, ¬(q ≤ i ∧ i < q + n) → g i = f i

/-- What is left of the run. -/
theorem MaxRun.rest (h : MaxRun f size q a) (hc : Cleared f g q n) (hn : 0 < n) (hlt : n < a) :
    MaxRun g size (q + n) (a - n) := by
  obtain ⟨-, hle, -, -, hright⟩ := id h
  refine ⟨by omega, by omega, fun i hi => ?_, .inr (hc.inside _ (by omega) (by omega)), ?_⟩
  · rw [hc.outside _ (by omega)]
    exact h.set (by omega) (by omega)
  · rw [hc.outside _ (by omega), show q + n + (a - n) = q + a by omega]
    exact hright

/-- **The runs after the first bits of one are cleared**: the others, and what is left of it. -/
theorem MaxRun.clear_iff (h : MaxRun f size q a) (hc : Cleared f g q n) (hn : 0 < n)
    (hna : n ≤ a) : MaxRun g size p k ↔
      (MaxRun f size p k ∧ p ≠ q) ∨ (p = q + n ∧ k = a - n ∧ n < a) := by
  obtain ⟨-, hle, -, hleft, hright⟩ := id h
  constructor
  · intro hg
    obtain ⟨hk, hpk, -, hpleft, hpright⟩ := id hg
    -- the run does not meet the cleared bits
    have hapart : p + k ≤ q ∨ q + n ≤ p := by
      by_contra hcon
      have := hg.not_clear (hc.inside (max p q) (by omega) (by omega))
      omega
    rcases hapart with hbelow | habove
    · -- and it does not end at `q`, since the bit below `q` is clear
      have hne : p + k ≠ q := by
        intro heq
        rcases hleft with hzero | hclear
        · omega
        · rw [← hc.outside _ (by omega)] at hclear
          have := hg.not_clear hclear
          omega
      refine .inl ⟨?_, by omega⟩
      exact (MaxRun.congr fun i hlo hhi => hc.outside i (by omega)).mp hg
    · by_cases hp : p = q + n
      · subst hp
        by_cases hlt : n < a
        · exact .inr ⟨rfl, hg.eq_of_start (h.rest hc hn hlt), hlt⟩
        · -- nothing is left of the run, and the bit behind it is clear
          rcases hright with hend | hclear
          · omega
          · rw [← hc.outside _ (by omega)] at hclear
            have := hg.not_clear hclear
            omega
      · refine .inl ⟨?_, by omega⟩
        exact (MaxRun.congr fun i hlo hhi => hc.outside i (by omega)).mp hg
  · rintro (⟨hf, hne⟩ | ⟨rfl, rfl, hlt⟩)
    · obtain ⟨hk, hpk, -, hpleft, hpright⟩ := id hf
      have hapart : p + k < q ∨ q + n < p := by
        by_contra hcon
        by_cases hpq : p < q
        · rcases hleft with hzero | hclear
          · omega
          · have := hf.not_clear hclear
            omega
        · rcases hpleft with hzero | hclear
          · omega
          · have := h.not_clear hclear
            omega
      exact (MaxRun.congr fun i hlo hhi => hc.outside i (by omega)).mpr hf
    · exact h.rest hc hn hlt

theorem runs_eq_card (f : ℕ → Bool) (size k : ℕ) :
    runs f size k = {p ∈ range size | MaxRun f size p k}.card :=
  count_eq_card_filter_range _ size

/-- **The count of the runs** after the first bits of one are cleared. -/
theorem MaxRun.count_clear (h : MaxRun f size q a) (hc : Cleared f g q n) (hn : 0 < n)
    (hna : n ≤ a) (k : ℕ) : runs g size k + (if k = a then 1 else 0) =
      runs f size k + if k = a - n ∧ n < a then 1 else 0 := by
  have hle := h.2.1
  -- without the run and what is left of it, the runs are the same
  have hrest : ({p ∈ range size | MaxRun g size p k}).erase (q + n) =
      ({p ∈ range size | MaxRun f size p k}).erase q := by
    ext p
    simp only [mem_erase, mem_filter, h.clear_iff hc hn hna]
    constructor
    · rintro ⟨hne, hp, ⟨hf, hpq⟩ | ⟨heq, -⟩⟩
      · exact ⟨hpq, hp, hf⟩
      · exact absurd heq hne
    · rintro ⟨hpq, hp, hf⟩
      refine ⟨?_, hp, .inl ⟨hf, hpq⟩⟩
      rintro rfl
      -- a run that starts behind cleared bits of the run would meet it
      rcases hf.2.2.2.1 with hzero | hclear
      · omega
      · have := h.not_clear hclear
        omega
  have hg : (q + n ∈ {p ∈ range size | MaxRun g size p k}) ↔ k = a - n ∧ n < a := by
    simp only [mem_filter, mem_range, h.clear_iff hc hn hna]
    constructor
    · rintro ⟨-, ⟨hf, -⟩ | ⟨-, hka, hlt⟩⟩
      · rcases hf.2.2.2.1 with hzero | hclear
        · omega
        · have := h.not_clear hclear
          omega
      · exact ⟨hka, hlt⟩
    · rintro ⟨hka, hlt⟩
      exact ⟨by omega, .inr ⟨trivial, hka, hlt⟩⟩
  have hf : (q ∈ {p ∈ range size | MaxRun f size p k}) ↔ k = a := by
    simp only [mem_filter, mem_range]
    constructor
    · rintro ⟨-, hrun⟩
      exact hrun.eq_of_start h
    · rintro rfl
      exact ⟨by omega, h⟩
  have hcard := congrArg Finset.card hrest
  rw [card_erase_eq_ite, card_erase_eq_ite] at hcard
  rw [runs_eq_card, runs_eq_card]
  simp only [hg, hf] at hcard
  have hgpos : k = a - n ∧ n < a → 0 < ({p ∈ range size | MaxRun g size p k}).card :=
    fun hka => card_pos.mpr ⟨_, hg.mpr hka⟩
  have hfpos : k = a → 0 < ({p ∈ range size | MaxRun f size p k}).card :=
    fun hka => card_pos.mpr ⟨_, hf.mpr hka⟩
  split at hcard <;> split at hcard <;> rename_i h1 h2
  · omega
  · rw [if_pos h1, if_neg h2]
    omega
  · rw [if_neg h1, if_pos h2]
    omega
  · rw [if_neg h1, if_neg h2]
    omega

/-- The number of maximal runs of a length that start at `s` or above. -/
def runsFrom (f : ℕ → Bool) (size k s : ℕ) : ℕ :=
  {p ∈ Finset.Ico s size | MaxRun f size p k}.card

theorem runsFrom_zero (f : ℕ → Bool) (size k : ℕ) : runsFrom f size k 0 = runs f size k := by
  rw [runsFrom, runs_eq_card, range_eq_Ico]

/-- Behind a run, the next one starts after the bit that ends it. -/
theorem runsFrom_of_run (h : MaxRun f size s k) :
    runsFrom f size k s = 1 + runsFrom f size k (s + k + 1) := by
  have hk := h.1
  have hle := h.2.1
  have hsplit : {p ∈ Finset.Ico s size | MaxRun f size p k} =
      insert s {p ∈ Finset.Ico (s + k + 1) size | MaxRun f size p k} := by
    ext p
    simp only [mem_filter, mem_insert, mem_Ico]
    constructor
    · rintro ⟨⟨hlo, hhi⟩, hrun⟩
      by_cases hp : p = s
      · exact .inl hp
      · refine .inr ⟨⟨?_, hhi⟩, hrun⟩
        rcases hrun.2.2.2.1 with hzero | hclear
        · omega
        · have := h.not_clear hclear
          omega
    · rintro (rfl | ⟨⟨hlo, hhi⟩, hrun⟩)
      · exact ⟨⟨le_refl _, by omega⟩, h⟩
      · exact ⟨⟨by omega, hhi⟩, hrun⟩
  rw [runsFrom, hsplit, card_insert_of_notMem, add_comm, runsFrom]
  simp only [mem_filter, mem_Ico]
  omega

theorem runsFrom_of_not (h : ¬MaxRun f size s k) :
    runsFrom f size k s = runsFrom f size k (s + 1) := by
  rw [runsFrom]
  congr 1
  ext p
  simp only [mem_filter, mem_Ico]
  constructor
  · rintro ⟨⟨hlo, hhi⟩, hrun⟩
    have hne : p ≠ s := fun hp => h (hp ▸ hrun)
    exact ⟨⟨by omega, hhi⟩, hrun⟩
  · rintro ⟨⟨hlo, hhi⟩, hrun⟩
    exact ⟨⟨by omega, hhi⟩, hrun⟩

theorem runsFrom_end (h : size < s + k) : runsFrom f size k s = 0 := by
  rw [runsFrom, Finset.card_eq_zero, filter_eq_empty_iff]
  intro p hp hrun
  have := hrun.2.1
  have := (mem_Ico.mp hp).1
  omega

/-- **The set bits** after some of them are cleared. -/
theorem Cleared.ones_add (hc : Cleared f g q n) (hle : q + n ≤ size)
    (hset : ∀ i, q ≤ i → i < q + n → f i = true) : ones g size + n = ones f size := by
  have hexchange := BitRange.count_exchange (p := fun i => g i = true)
    hle fun i _ hi => by rw [hc.outside i hi]
  have hall : count (fun j => f (q + j) = true) n = n :=
    count_iff_forall.mpr fun j hj => hset _ (by omega) (by omega)
  have hnone : count (fun j => g (q + j) = true) n = 0 := by
    refine count_iff_forall_not.mpr fun j hj => ?_
    rw [hc.inside _ (by omega) (by omega)]
    decide
  rw [hall, hnone] at hexchange
  exact hexchange

/-- All bits are set. -/
def Full (f : ℕ → Bool) (size : ℕ) : Prop := ∀ i < size, f i = true

instance : Decidable (Full f size) := by
  unfold Full
  infer_instance

theorem Full.maxRun (h : Full f size) (hsize : 0 < size) : MaxRun f size 0 size :=
  ⟨hsize, by omega, fun i hi => h _ (by omega), .inl rfl, .inl (zero_add size)⟩

theorem full_iff_ones : Full f size ↔ ones f size = size := count_iff_forall.symm

/-! ## The lengths of the runs -/

/-- The mask of one length. -/
def lenBit (c : ℕ) : ℕ := if c = 0 then 0 else 1 <<< (c - 1)

/-- The lengths of the maximal runs as a mask, by one pass over the bits from `i` on, the last `c`
of those before being set. -/
def lenMask (f : ℕ → Bool) : ℕ → ℕ → ℕ → ℕ
  | 0, _, c => lenBit c
  | n + 1, i, c => if f i then lenMask f n (i + 1) (c + 1) else lenBit c ||| lenMask f n (i + 1) 0

theorem testBit_lenBit : (lenBit c).testBit k = true ↔ c = k + 1 := by
  rw [lenBit]
  split
  · rw [zero_testBit]
    exact ⟨nofun, by omega⟩
  · rw [one_shiftLeft, testBit_two_pow, decide_eq_true_eq]
    omega

/-- The run that ends at a clear bit or at the end. -/
theorem maxRun_end_iff (hc : c ≤ i) (hi : i ≤ size) (hset : ∀ j, i - c ≤ j → j < i → f j = true)
    (hleft : i - c = 0 ∨ f (i - c - 1) = false) (hright : i = size ∨ f i = false) (hk : 0 < k) :
    (∃ p, i - c ≤ p ∧ p ≤ i ∧ MaxRun f size p k) ↔ c = k := by
  constructor
  · rintro ⟨p, hlo, hhi, hrun⟩
    have hple := hrun.2.1
    have hpi : p + k ≤ i := by
      rcases hright with hend | hclear
      · omega
      · have := hrun.not_clear hclear
        omega
    have hp : p = i - c := by
      rcases hrun.2.2.2.1 with hzero | hclear
      · omega
      · by_contra hne
        rw [hset (p - 1) (by omega) (by omega)] at hclear
        cases hclear
    rcases hrun.2.2.2.2 with hend | hclear
    · omega
    · by_contra hne
      rw [hset (p + k) (by omega) (by omega)] at hclear
      cases hclear
  · rintro rfl
    refine ⟨i - c, le_refl _, by omega, hk, by omega, fun j hj => ?_, hleft, ?_⟩
    · exact hset _ (by omega) (by omega)
    · rw [Nat.sub_add_cancel hc]
      exact hright

/-- **The pass finds the lengths of the maximal runs.** -/
theorem testBit_lenMask : ∀ (n i c : ℕ), i + n = size → c ≤ i →
    (∀ j, i - c ≤ j → j < i → f j = true) → (i - c = 0 ∨ f (i - c - 1) = false) →
    ((lenMask f n i c).testBit k = true ↔ ∃ p, i - c ≤ p ∧ MaxRun f size p (k + 1)) := by
  intro n
  induction n with
  | zero =>
    intro i c hi hc hset hleft
    rw [lenMask, testBit_lenBit, ← maxRun_end_iff hc (by omega) hset hleft (.inl hi) k.succ_pos]
    refine exists_congr fun p => ⟨fun ⟨hlo, _, hrun⟩ => ⟨hlo, hrun⟩, fun ⟨hlo, hrun⟩ => ?_⟩
    have := hrun.2.1
    exact ⟨hlo, by omega, hrun⟩
  | succ n ih =>
    intro i c hi hc hset hleft
    rw [lenMask]
    split_ifs with hbit
    · have hsub : i + 1 - (c + 1) = i - c := by omega
      have hnext := ih (i + 1) (c + 1) (by omega) (by omega)
      rw [hsub] at hnext
      refine hnext (fun j hlo hhi => ?_) hleft
      by_cases hj : j = i
      · exact hj ▸ hbit
      · exact hset j hlo (by omega)
    · rw [Bool.not_eq_true] at hbit
      have hile : i ≤ size := by omega
      rw [testBit_or, Bool.or_eq_true, testBit_lenBit,
        ih (i + 1) 0 (by omega) (by omega) (fun j hlo hhi => by omega) (.inr hbit),
        ← maxRun_end_iff hc hile hset hleft (.inr hbit) k.succ_pos]
      constructor
      · rintro (⟨p, hlo, -, hrun⟩ | ⟨p, hlo, hrun⟩)
        · exact ⟨p, hlo, hrun⟩
        · exact ⟨p, by omega, hrun⟩
      · rintro ⟨p, hlo, hrun⟩
        by_cases hp : p ≤ i
        · exact .inl ⟨p, hlo, hp, hrun⟩
        · exact .inr ⟨p, by omega, hrun⟩

end FreeBSDSys.Runs
