import Mathlib

/-!
# Aligned blocks and buddies

The arithmetic and the invariant of a buddy system, without the queues.  A block of order `o` at `p`
is the interval of `2 ^ o` numbers from `p`, and it is aligned if `2 ^ o` divides `p`.  The numbers
are divided into regions that blocks must not cross.  A function `ord` says which numbers head a
block: those with `ord p < N`, and the order of the block is then `ord p`.

* `mem_block_iff`, `block_subset`: aligned blocks that meet are nested.
* `mem_block_base`: the block of the next order is a block and its buddy.
* `Tiling`: the blocks are aligned, lie in one region each, and contain no other head.
* `Tiling.put`, `Tiling.take`: adding a block of uncovered numbers, and removing a block.
* `Coalesced`: no two buddies of one order in one region are both blocks.
* `exists_large_block`: if the blocks are coalesced, every covered aligned interval that lies in one
  region is part of a single block.
-/

namespace FreeBSDSys.Buddy

open Function Nat

/-! ## Blocks -/

/-- The block of order `o` at `p`. -/
def block (p o : ℕ) : Set ℕ := Set.Ico p (p + 2 ^ o)

/-- The other half of the block of the next order. -/
def buddy (p o : ℕ) : ℕ := p ^^^ 2 ^ o

/-- The first number of the block of order `o` around `p`. -/
def base (p o : ℕ) : ℕ := p / 2 ^ o * 2 ^ o

variable {p q x o a b : ℕ}

theorem mem_block : x ∈ block p o ↔ p ≤ x ∧ x < p + 2 ^ o := Iff.rfl

theorem mem_block_zero : x ∈ block p 0 ↔ x = p := by
  rw [mem_block]
  omega

theorem block_mono (p : ℕ) (hab : a ≤ b) : block p a ⊆ block p b :=
  Set.Ico_subset_Ico_right (Nat.add_le_add_left (Nat.pow_le_pow_right (by decide) hab) p)

theorem self_mem_block (p o : ℕ) : p ∈ block p o :=
  ⟨le_rfl, Nat.lt_add_of_pos_right (Nat.two_pow_pos o)⟩

theorem mem_block_iff (hp : 2 ^ o ∣ p) : x ∈ block p o ↔ x / 2 ^ o = p / 2 ^ o := by
  obtain ⟨u, rfl⟩ := hp
  rw [mem_block, Nat.mul_div_cancel_left u (Nat.two_pow_pos o), Nat.div_eq_iff (Nat.two_pow_pos o)]
  have := Nat.two_pow_pos o
  rw [mul_comm u]
  omega

theorem div_two_pow_of_le (hab : a ≤ b) (x : ℕ) : x / 2 ^ b = x / 2 ^ a / 2 ^ (b - a) := by
  rw [Nat.div_div_eq_div_mul, ← Nat.pow_add, Nat.add_sub_cancel' hab]

/-- Aligned blocks that meet are nested. -/
theorem block_subset (hp : 2 ^ a ∣ p) (hq : 2 ^ b ∣ q) (hab : a ≤ b) (hx : x ∈ block p a)
    (hx' : x ∈ block q b) : block p a ⊆ block q b := by
  intro y hy
  rw [mem_block_iff hp] at hx hy
  rw [mem_block_iff hq, div_two_pow_of_le hab] at hx' ⊢
  rw [hy, ← hx]
  exact hx'

theorem eq_of_mem_block (hp : 2 ^ o ∣ p) (hq : 2 ^ o ∣ q) (hx : x ∈ block p o)
    (hx' : x ∈ block q o) : p = q := by
  rw [mem_block_iff hp] at hx
  rw [mem_block_iff hq] at hx'
  exact (Nat.div_left_inj hp hq).mp (hx.symm.trans hx')

/-- A run of blocks of one order, number by number. -/
theorem exists_block_of_mem_run {m n : ℕ} (hx : x ∈ Set.Ico m (m + n * 2 ^ o)) :
    ∃ j < n, x ∈ block (m + j * 2 ^ o) o := by
  obtain ⟨hle, hlt⟩ := hx
  have hdiv : (x - m) / 2 ^ o < n := Nat.div_lt_of_lt_mul (by rw [Nat.mul_comm]; omega)
  have hmod := Nat.div_add_mod' (x - m) (2 ^ o)
  refine ⟨(x - m) / 2 ^ o, hdiv, ?_⟩
  rw [mem_block]
  omega

theorem base_dvd (p o : ℕ) : 2 ^ o ∣ base p o := dvd_mul_left ..

theorem base_div (p o : ℕ) : base p o / 2 ^ o = p / 2 ^ o :=
  Nat.mul_div_cancel _ (Nat.two_pow_pos o)

theorem mem_block_base_iff : x ∈ block (base p o) o ↔ x / 2 ^ o = p / 2 ^ o := by
  rw [mem_block_iff (base_dvd p o), base_div]

theorem mem_block_base_self (p o : ℕ) : p ∈ block (base p o) o := mem_block_base_iff.mpr rfl

/-- An aligned block around `p` starts at `base p o`. -/
theorem base_eq (hq : 2 ^ o ∣ q) (hp : p ∈ block q o) : base p o = q :=
  eq_of_mem_block (base_dvd p o) hq (mem_block_base_self p o) hp

/-! ## Buddies -/

theorem xor_one_div_two (u : ℕ) : (u ^^^ 1) / 2 = u / 2 := by
  rw [xor_div_two]
  simp

theorem xor_one_ne (u : ℕ) : u ^^^ 1 ≠ u := fun h => by
  have hmod : (u ^^^ 1) % 2 = (u + 1) % 2 := xor_mod_two_eq
  omega

theorem div_two_eq_iff {u v : ℕ} : v / 2 = u / 2 ↔ v = u ∨ v = u ^^^ 1 := by
  have h1 := xor_one_div_two u
  have h2 := xor_one_ne u
  omega

theorem buddy_eq (hp : 2 ^ o ∣ p) : buddy p o = (p / 2 ^ o ^^^ 1) * 2 ^ o := by
  obtain ⟨u, rfl⟩ := hp
  rw [Nat.mul_div_cancel_left u (Nat.two_pow_pos o), ← Nat.shiftLeft_eq, Nat.shiftLeft_xor_distrib,
    Nat.shiftLeft_eq, Nat.shiftLeft_eq, Nat.one_mul, Nat.mul_comm u, buddy]

theorem buddy_dvd (hp : 2 ^ o ∣ p) : 2 ^ o ∣ buddy p o := by
  rw [buddy_eq hp]
  exact dvd_mul_left ..

theorem buddy_div (hp : 2 ^ o ∣ p) : buddy p o / 2 ^ o = p / 2 ^ o ^^^ 1 := by
  rw [buddy_eq hp, Nat.mul_div_cancel _ (Nat.two_pow_pos o)]

theorem buddy_buddy (p o : ℕ) : buddy (buddy p o) o = p := by
  rw [buddy, buddy, Nat.xor_assoc, Nat.xor_self, Nat.xor_zero]

theorem buddy_ne (hp : 2 ^ o ∣ p) : buddy p o ≠ p := fun h => by
  have := buddy_div hp
  rw [h] at this
  exact xor_one_ne _ this.symm

/-- The block of the next order is a block and its buddy. -/
theorem mem_block_base (hp : 2 ^ o ∣ p) :
    x ∈ block (base p (o + 1)) (o + 1) ↔ x ∈ block p o ∨ x ∈ block (buddy p o) o := by
  rw [mem_block_base_iff, mem_block_iff hp, mem_block_iff (buddy_dvd hp), buddy_div hp,
    Nat.pow_succ, ← Nat.div_div_eq_div_mul, ← Nat.div_div_eq_div_mul, div_two_eq_iff]

theorem notMem_block_buddy (hp : 2 ^ o ∣ p) (hx : x ∈ block p o) : x ∉ block (buddy p o) o :=
  fun hx' => buddy_ne hp (eq_of_mem_block hp (buddy_dvd hp) hx hx').symm

/-- The upper half of a block is the buddy of the lower half. -/
theorem buddy_of_dvd (hp : 2 ^ (o + 1) ∣ p) : buddy p o = p + 2 ^ o := by
  have hp' : 2 ^ o ∣ p := (Nat.pow_dvd_pow 2 (Nat.le_succ o)).trans hp
  obtain ⟨u, rfl⟩ := hp
  rw [buddy_eq hp', Nat.pow_succ, Nat.mul_assoc, Nat.mul_div_cancel_left _ (Nat.two_pow_pos o)]
  have h1 := xor_one_div_two (2 * u)
  have h2 := xor_one_ne (2 * u)
  rw [show 2 * u ^^^ 1 = 2 * u + 1 by omega, add_mul, one_mul, mul_comm (2 ^ o)]

theorem base_of_dvd (hp : 2 ^ o ∣ p) : base p o = p :=
  base_eq hp (self_mem_block p o)

/-! ## Tilings -/

section tiling

variable {ρ : Type*} {N : ℕ} {region : ℕ → Option ρ} {ord : ℕ → ℕ}

/-- The block of order `o` at `p` lies in one region. -/
def Within (region : ℕ → Option ρ) (p o : ℕ) : Prop :=
  ∃ r, ∀ q ∈ block p o, region q = some r

/-- The numbers that lie in a block. -/
def covered (N : ℕ) (ord : ℕ → ℕ) : Set ℕ := {x | ∃ p, ord p < N ∧ x ∈ block p (ord p)}

/-- The blocks headed by the numbers with `ord p < N` are aligned, lie in one region each, and
contain no other head. -/
structure Tiling (N : ℕ) (region : ℕ → Option ρ) (ord : ℕ → ℕ) : Prop where
  le : ∀ p, ord p ≤ N
  aligned : ∀ p, ord p < N → 2 ^ ord p ∣ p
  within : ∀ p, ord p < N → Within region p (ord p)
  lone : ∀ p, ord p < N → ∀ q ∈ block p (ord p), q ≠ p → ord q = N

/-- No two buddies of one order in one region are both blocks. -/
def Coalesced (N : ℕ) (region : ℕ → Option ρ) (ord : ℕ → ℕ) : Prop :=
  ∀ p, ord p + 1 < N → region (buddy p (ord p)) = region p → ord (buddy p (ord p)) ≠ ord p

theorem Within.mono (h : Within region q b) (hsub : block p a ⊆ block q b) : Within region p a := by
  obtain ⟨r, hr⟩ := h
  exact ⟨r, fun x hx => hr x (hsub hx)⟩

theorem Within.eq (h : Within region p o) (hx : x ∈ block p o) : region x = region p := by
  obtain ⟨r, hr⟩ := h
  rw [hr x hx, hr p (self_mem_block p o)]

theorem mem_covered_of_head (hp : ord p < N) : p ∈ covered N ord :=
  ⟨p, hp, self_mem_block ..⟩

/-- Two blocks that meet are the same. -/
theorem Tiling.eq_of_mem (h : Tiling N region ord) (hp : ord p < N) (hq : ord q < N)
    (hx : x ∈ block p (ord p)) (hx' : x ∈ block q (ord q)) : p = q := by
  by_contra hne
  rcases le_total (ord p) (ord q) with hle | hle
  · have hsub := block_subset (h.aligned p hp) (h.aligned q hq) hle hx hx'
    have := h.lone q hq p (hsub (self_mem_block ..)) hne
    omega
  · have hsub := block_subset (h.aligned q hq) (h.aligned p hp) hle hx' hx
    have := h.lone p hp q (hsub (self_mem_block ..)) (Ne.symm hne)
    omega

theorem not_head_of_notMem (h : Tiling N region ord) (hp : p ∉ covered N ord) : ord p = N :=
  le_antisymm (h.le p) (not_lt.mp fun hlt => hp (mem_covered_of_head hlt))

/-- **Adding a block** of uncovered numbers. -/
theorem Tiling.put (h : Tiling N region ord) (ho : o < N) (hp : 2 ^ o ∣ p)
    (hin : Within region p o) (hfree : ∀ x ∈ block p o, x ∉ covered N ord) :
    Tiling N region (update ord p o) where
  le := (forall_update_iff ord fun _ o => o ≤ N).mpr ⟨ho.le, fun q _ => h.le q⟩
  aligned := (forall_update_iff ord fun q o => o < N → 2 ^ o ∣ q).mpr
    ⟨fun _ => hp, fun q _ => h.aligned q⟩
  within := (forall_update_iff ord fun q o => o < N → Within region q o).mpr
    ⟨fun _ => hin, fun q _ => h.within q⟩
  lone q hlt x hx hne := by
    by_cases hq : q = p
    · subst hq
      rw [update_self] at hx
      rw [update_of_ne hne]
      exact not_head_of_notMem h (hfree x hx)
    · rw [update_of_ne hq] at hlt hx
      have hxp : x ≠ p := by
        rintro rfl
        exact hfree x (self_mem_block ..) ⟨q, hlt, hx⟩
      rw [update_of_ne hxp]
      exact h.lone q hlt x hx hne

theorem covered_put (ho : o < N) (hp : ¬ ord p < N) :
    covered N (update ord p o) = covered N ord ∪ block p o := by
  ext x
  constructor
  · rintro ⟨q, hlt, hx⟩
    by_cases hq : q = p
    · subst hq
      rw [update_self] at hx
      exact .inr hx
    · rw [update_of_ne hq] at hlt hx
      exact .inl ⟨q, hlt, hx⟩
  · rintro (⟨q, hlt, hx⟩ | hx)
    · have hq : q ≠ p := by
        rintro rfl
        exact hp hlt
      exact ⟨q, by rwa [update_of_ne hq], by rwa [update_of_ne hq]⟩
    · exact ⟨p, by rwa [update_self], by rwa [update_self]⟩

/-- A head after a block was removed is another head. -/
theorem head_of_take (hlt : update ord p N q < N) : q ≠ p ∧ ord q < N := by
  by_cases hq : q = p
  · rw [hq, update_self] at hlt
    omega
  · rw [update_of_ne hq] at hlt
    exact ⟨hq, hlt⟩

/-- **Removing a block.** -/
theorem Tiling.take (h : Tiling N region ord) (p : ℕ) : Tiling N region (update ord p N) where
  le := (forall_update_iff ord fun _ o => o ≤ N).mpr ⟨le_rfl, fun q _ => h.le q⟩
  aligned q hlt := by
    obtain ⟨hq, hlt⟩ := head_of_take hlt
    rw [update_of_ne hq]
    exact h.aligned q hlt
  within q hlt := by
    obtain ⟨hq, hlt⟩ := head_of_take hlt
    rw [update_of_ne hq]
    exact h.within q hlt
  lone q hlt x hx hne := by
    obtain ⟨hq, hlt⟩ := head_of_take hlt
    rw [update_of_ne hq] at hx
    by_cases hxp : x = p
    · rw [hxp, update_self]
    · rw [update_of_ne hxp]
      exact h.lone q hlt x hx hne

theorem Tiling.covered_take (h : Tiling N region ord) (hp : ord p < N) :
    covered N (update ord p N) = covered N ord \ block p (ord p) := by
  ext x
  constructor
  · rintro ⟨q, hlt, hx⟩
    obtain ⟨hq, hlt⟩ := head_of_take hlt
    rw [update_of_ne hq] at hx
    exact ⟨⟨q, hlt, hx⟩, fun hx' => hq (h.eq_of_mem hlt hp hx hx')⟩
  · rintro ⟨⟨q, hlt, hx⟩, hx'⟩
    have hq : q ≠ p := by
      rintro rfl
      exact hx' hx
    exact ⟨q, by rwa [update_of_ne hq], by rwa [update_of_ne hq]⟩

theorem Coalesced.take (h : Coalesced N region ord) (p : ℕ) :
    Coalesced N region (update ord p N) := by
  intro q hlt hreg
  by_cases hq : q = p
  · rw [hq, update_self] at hlt
    omega
  · rw [update_of_ne hq] at hlt hreg ⊢
    by_cases hb : buddy q (ord q) = p
    · rw [hb, update_self]
      omega
    · rw [update_of_ne hb]
      exact h q hlt hreg

/-- A block may be added if its buddy is not a block of the same order. -/
theorem Coalesced.put (h : Coalesced N region ord) (hp : 2 ^ o ∣ p)
    (hbuddy : o + 1 < N → region (buddy p o) = region p → ord (buddy p o) ≠ o) :
    Coalesced N region (update ord p o) := by
  intro q hlt hreg
  by_cases hq : q = p
  · subst hq
    rw [update_self] at hlt hreg ⊢
    rw [update_of_ne (buddy_ne hp)]
    exact hbuddy hlt hreg
  · rw [update_of_ne hq] at hlt hreg ⊢
    by_cases hb : buddy q (ord q) = p
    · rw [hb, update_self]
      -- then `q` is the buddy of the new block
      intro ho
      have hqb : buddy p o = q := by rw [← hb, ho, buddy_buddy]
      refine hbuddy (by omega) ?_ ?_
      · rw [hqb, ← hreg, hb]
      · rw [hqb, ho]
    · rw [update_of_ne hb]
      exact h q hlt hreg

/-- **Coalesced blocks are as large as they can be.**  An aligned interval in one region all of
whose numbers are covered is part of a single block. -/
theorem exists_large_block (h : Tiling N region ord) (hc : Coalesced N region ord) (ho : o < N)
    (hp : 2 ^ o ∣ p) (hin : Within region p o) (hcov : ∀ x ∈ block p o, x ∈ covered N ord) :
    ∃ q, o ≤ ord q ∧ ord q < N ∧ p ∈ block q (ord q) := by
  induction o generalizing p with
  | zero =>
    obtain ⟨q, hq, hx⟩ := hcov p (self_mem_block ..)
    exact ⟨q, zero_le _, hq, hx⟩
  | succ o ih =>
    have hp' : 2 ^ o ∣ p := (pow_dvd_pow 2 (le_succ o)).trans hp
    have hhalves {x : ℕ} : x ∈ block p (o + 1) ↔ x ∈ block p o ∨ x ∈ block (buddy p o) o := by
      rw [← mem_block_base hp', base_of_dvd hp]
    have hlow : block p o ⊆ block p (o + 1) := fun x hx => hhalves.mpr (.inl hx)
    have hhigh : block (buddy p o) o ⊆ block p (o + 1) := fun x hx => hhalves.mpr (.inr hx)
    obtain ⟨q1, hle1, hlt1, hmem1⟩ := ih (by omega) hp' (hin.mono hlow) fun x hx => hcov x (hlow hx)
    obtain ⟨q2, hle2, hlt2, hmem2⟩ :=
      ih (by omega) (buddy_dvd hp') (hin.mono hhigh) fun x hx => hcov x (hhigh hx)
    rcases lt_or_ge o (ord q1) with hlt | hge1
    · exact ⟨q1, hlt, hlt1, hmem1⟩
    rcases lt_or_ge o (ord q2) with hlt | hge2
    · -- a block of larger order around the upper half contains the lower half
      have hsub := block_subset hp (h.aligned q2 hlt2) hlt (hhigh (self_mem_block ..)) hmem2
      exact ⟨q2, hlt, hlt2, hsub (self_mem_block ..)⟩
    · -- both halves are blocks of order `o`, against coalescing
      have ho1 : ord q1 = o := le_antisymm hge1 hle1
      have ho2 : ord q2 = o := le_antisymm hge2 hle2
      have hq1 : q1 = p :=
        eq_of_mem_block (ho1 ▸ h.aligned q1 hlt1) hp' (ho1 ▸ hmem1) (self_mem_block ..)
      have hq2 : q2 = buddy p o := eq_of_mem_block (ho2 ▸ h.aligned q2 hlt2) (buddy_dvd hp')
        (ho2 ▸ hmem2) (self_mem_block ..)
      subst hq1 hq2
      rw [← ho1] at ho2
      refine absurd ho2 (hc q1 (by omega) ?_)
      rw [ho1]
      exact hin.eq (hhigh (self_mem_block ..))

end tiling

end FreeBSDSys.Buddy
