import FreeBSDSys.Ufs.FfsGroup

/-!
# The search for free space over the cylinder groups

`ffs_hashalloc` tries the preferred group, then a few groups by a quadratic rehash, then every group
from the second one behind the preferred one on.  The first step of the rehash is the group next to
the preferred one, so no group is left out.

* `quadratic_spec`, `brute_spec`: what the two loops have tried when they find nothing.
* `hashalloc_finds`: the allocation succeeds unless no group has room, and no panic happens.
-/

namespace FreeBSDSys.Ffs

open Nat

variable {fs fs' : Fs} {i cg icg frags r n : ℕ}

/-- Fragments in one block are taken, and no other bit of any map changes. -/
structure Allocated (fs fs' : Fs) (r n : ℕ) : Prop where
  ne_zero : r ≠ 0
  inGroup : fs.dtog r < fs.fsNcg
  inBlock : fs.fragnum r + n ≤ fs.fsFrag.num
  free : ∀ j, fs.dtogd r ≤ j → j < fs.dtogd r + n → isset (fs.cg (fs.dtog r)).blksfree j = true
  used : ∀ j, fs.dtogd r ≤ j → j < fs.dtogd r + n → isset (fs'.cg (fs.dtog r)).blksfree j = false
  other : ∀ i j, ¬(i = fs.dtog r ∧ fs.dtogd r ≤ j ∧ j < fs.dtogd r + n) →
    isset (fs'.cg i).blksfree j = isset (fs.cg i).blksfree j
  consistent : Consistent fs'

/-- No group has room for the request. -/
def NoRoom (fs : Fs) (frags i : ℕ) : Prop :=
  ¬HasRoom fs.fsFrag fs.nblk (fs.cg i).blksfree frags

/-- A group of a consistent set. -/
theorem Consistent.alloccg (h : Consistent fs) (hi : i < fs.fsNcg) (bpref : ℕ) (hpos : 0 < frags)
    (hle : frags ≤ fs.fsFrag.num) :
    (ffsAlloccg fs i bpref frags = .ok (0, fs) ∧ NoRoom fs frags i) ∨
    ∃ r fs', ffsAlloccg fs i bpref frags = .ok (r, fs') ∧ Allocated fs fs' r frags := by
  rcases alloccg_spec h.toGeometry rfl (h.group i hi) (h.summary i hi) bpref hpos hle with
    hfail | ⟨bno, c', nb, nf, maxcluster, heq, htaken⟩
  · exact .inl hfail
  · refine .inr ⟨_, _, heq, ?_⟩
    have hbno : bno < fs.fsFpg := by
      have := htaken.inGroup
      omega
    have hdtog : fs.dtog (fs.cgbase i + bno) = i := by
      rw [Fs.dtog, Fs.cgbase, mul_add_div h.fpg_pos, div_eq_of_lt hbno, Nat.add_zero]
    have hdtogd : fs.dtogd (fs.cgbase i + bno) = bno := by
      rw [Fs.dtogd, Fs.cgbase, mul_add_mod, mod_eq_of_lt hbno]
    have hbits : ∀ j, isset ((fs.put i c' nb nf maxcluster).cg i).blksfree j =
        (isset (fs.cg i).blksfree j && !decide (bno ≤ j ∧ j < bno + frags)) := by
      rw [put_self]
      exact htaken.bits
    refine ⟨?_, ?_, ?_, ?_, ?_, ?_, ?_⟩
    · -- the first fragment of the first group is in use
      intro hzero
      have hi0 : i = 0 := by
        rw [← hdtog, hzero, Fs.dtog, Nat.zero_div]
      have hfree := htaken.free 0 (by omega) (by omega)
      rw [hi0, h.boot] at hfree
      cases hfree
    · rw [hdtog]
      exact hi
    · rw [Fs.fragnum, Fs.cgbase, add_mod, mod_eq_zero_of_dvd (Dvd.dvd.mul_right h.dvd i),
        Nat.zero_add, mod_mod]
      exact htaken.inBlock
    · rw [hdtog, hdtogd]
      exact htaken.free
    · intro j hlo hhi
      rw [hdtogd] at hlo hhi
      rw [hdtog, hbits, decide_eq_true ⟨hlo, hhi⟩, Bool.not_true, Bool.and_false]
    · intro i' j hnot
      rw [hdtog, hdtogd] at hnot
      by_cases hii : i' = i
      · subst hii
        rw [hbits, decide_eq_false (fun hin => hnot ⟨rfl, hin⟩), Bool.not_false, Bool.and_true]
      · change isset (Function.update fs.cg i c' i').blksfree j = _
        rw [Function.update_of_ne hii]
    · exact htaken.consistent h hi

/-- The quadratic rehash finds fragments, or the group it tries first has no room. -/
theorem quadratic_spec (h : Consistent fs) (hpos : 0 < frags) (hle : frags ≤ fs.fsFrag.num) :
    ∀ k i cg, fs.fsNcg - i ≤ k → cg < fs.fsNcg →
    (hashallocQuadratic fs.fsNcg frags i cg fs = .ok (0, fs) ∧
      (0 < i → i < fs.fsNcg → NoRoom fs frags ((cg + i) % fs.fsNcg))) ∨
    ∃ r fs', hashallocQuadratic fs.fsNcg frags i cg fs = .ok (r, fs') ∧
      Allocated fs fs' r frags := by
  intro k
  induction k with
  | zero =>
    intro i cg hk hcg
    rw [hashallocQuadratic, dif_neg (by omega)]
    exact .inl ⟨rfl, fun _ hi => absurd hi (by omega)⟩
  | succ k ih =>
    intro i cg hk hcg
    rw [hashallocQuadratic]
    split
    · -- the group that is tried, wrapped around at the end
      have hnext : (if cg + i ≥ fs.fsNcg then cg + i - fs.fsNcg else cg + i) =
          (cg + i) % fs.fsNcg := by
        split
        · rw [mod_eq_sub_mod ‹_›, mod_eq_of_lt (by omega)]
        · rw [mod_eq_of_lt (by omega)]
      dsimp only
      rw [hnext]
      have hlt : (cg + i) % fs.fsNcg < fs.fsNcg := mod_lt _ (by omega)
      rcases h.alloccg hlt 0 hpos hle with ⟨heq, hroom⟩ | ⟨r, fs', heq, halloc⟩
      · rw [heq]
        rcases ih (i * 2) _ (by omega) hlt with ⟨hzero, -⟩ | hfound
        · exact .inl ⟨hzero, fun _ _ => hroom⟩
        · exact .inr hfound
      · rw [heq]
        dsimp only
        rw [if_pos halloc.ne_zero]
        exact .inr ⟨r, fs', rfl, halloc⟩
    · rename_i hi
      exact .inl ⟨rfl, fun h1 h2 => absurd ⟨h1, h2⟩ hi⟩

/-- The brute force search finds fragments, or the groups it tries have no room. -/
theorem brute_spec (h : Consistent fs) (hpos : 0 < frags) (hle : frags ≤ fs.fsFrag.num) :
    ∀ n cg, cg < fs.fsNcg →
    (hashallocBrute fs.fsNcg frags n cg fs = .ok (0, fs) ∧
      ∀ t < n, NoRoom fs frags ((cg + t) % fs.fsNcg)) ∨
    ∃ r fs', hashallocBrute fs.fsNcg frags n cg fs = .ok (r, fs') ∧ Allocated fs fs' r frags := by
  intro n
  induction n with
  | zero => exact fun cg _ => .inl ⟨rfl, nofun⟩
  | succ n ih =>
    intro cg hcg
    have hnext : (if cg + 1 = fs.fsNcg then 0 else cg + 1) = (cg + 1) % fs.fsNcg := by
      split_ifs with hend
      · rw [hend, mod_self]
      · rw [mod_eq_of_lt (by omega)]
    rw [hashallocBrute, hnext]
    rcases h.alloccg hcg 0 hpos hle with ⟨heq, hroom⟩ | ⟨r, fs', heq, halloc⟩
    · rw [heq]
      rcases ih _ (mod_lt (cg + 1) (by omega)) with ⟨hzero, hrest⟩ | hfound
      · refine .inl ⟨hzero, fun t ht => ?_⟩
        by_cases ht0 : t = 0
        · rw [ht0, Nat.add_zero, mod_eq_of_lt hcg]
          exact hroom
        · have := hrest (t - 1) (by omega)
          rwa [mod_add_mod, show cg + 1 + (t - 1) = cg + t by omega] at this
      · exact .inr hfound
    · rw [heq]
      dsimp only
      rw [if_pos halloc.ne_zero]
      exact .inr ⟨r, fs', rfl, halloc⟩

/-- Every group is so far from the preferred one, going round. -/
theorem exists_distance (hicg : icg < n) (hi : i < n) : ∃ t < n, (icg + t) % n = i := by
  by_cases hle : icg ≤ i
  · exact ⟨i - icg, by omega, by rw [Nat.add_sub_cancel' hle, mod_eq_of_lt hi]⟩
  · refine ⟨n + i - icg, by omega, ?_⟩
    rw [show icg + (n + i - icg) = n + i by omega, add_mod_left, mod_eq_of_lt hi]

/-- A group without room has no wholly free block. -/
theorem NoRoom.isblock (h : NoRoom fs frags i) (hle : frags ≤ fs.fsFrag.num) {b : ℕ}
    (hb : b < fs.nblk) : ffsIsblock fs.fsFrag (fs.cg i).blksfree b = false := by
  rw [Bool.eq_false_iff, ne_eq, isblock_iff]
  intro hfull
  exact h ⟨b, hb, 0, by omega, fun j _ hj => hfull j (by omega)⟩

/-- **`ffs_hashalloc` finds free space.**  For a consistent set of groups, a preference and a request
of up to a block, it returns fragments of one block that were free and are in use afterwards, no
other bit changing, or it returns 0, changes nothing, and no group has so many free fragments in a
row in one block or a free block.  It does not panic. -/
theorem hashalloc_finds (h : Consistent fs) (hicg : icg < fs.fsNcg) (pref : ℕ) (hpos : 1 ≤ frags)
    (hle : frags ≤ fs.fsFrag.num) : ∃ r fs',
    ffsHashalloc fs icg pref frags = .ok (r, fs') ∧
    ((r = 0 ∧ fs' = fs ∧ ∀ i < fs.fsNcg, ¬HasRoom fs.fsFrag fs.nblk (fs.cg i).blksfree frags ∧
        ∀ b < fs.nblk, ffsIsblock fs.fsFrag (fs.cg i).blksfree b = false) ∨
      Allocated fs fs' r frags) := by
  rw [ffsHashalloc]
  rcases h.alloccg hicg pref hpos hle with ⟨heq, hroom⟩ | ⟨r, fs', heq, halloc⟩
  · rw [heq]
    dsimp only
    rcases quadratic_spec h hpos hle _ 1 icg (Nat.le_refl _) hicg with
      ⟨hquad, hroom1⟩ | ⟨r, fs', hquad, halloc⟩
    · rw [hquad]
      have hlt : (icg + 2) % fs.fsNcg < fs.fsNcg := mod_lt _ (by omega)
      rcases brute_spec h hpos hle (fs.fsNcg - 2) _ hlt with
        ⟨hbrute, hroom2⟩ | ⟨r, fs', hbrute, halloc⟩
      · refine ⟨0, fs, hbrute, .inl ⟨rfl, rfl, fun i hi => ?_⟩⟩
        suffices hno : NoRoom fs frags i from ⟨hno, fun _ => hno.isblock hle⟩
        obtain ⟨t, ht, rfl⟩ := exists_distance hicg hi
        rcases t with _ | _ | t
        · rw [Nat.add_zero, mod_eq_of_lt hicg]
          exact hroom
        · exact hroom1 Nat.one_pos (by omega)
        · have := hroom2 t (by omega)
          rwa [mod_add_mod, Nat.add_assoc, Nat.add_comm 2 t] at this
      · exact ⟨r, fs', hbrute, .inr halloc⟩
    · rw [hquad]
      dsimp only
      rw [if_pos halloc.ne_zero]
      exact ⟨r, fs', rfl, .inr halloc⟩
  · rw [heq]
    dsimp only
    rw [if_pos halloc.ne_zero]
    exact ⟨r, fs', rfl, .inr halloc⟩

theorem hashalloc_finds_oneGroup : ∃ r fs', ffsHashalloc oneGroup 0 5 1 = .ok (r, fs') ∧
    Allocated oneGroup fs' r 1 := by
  obtain ⟨r, fs', heq, hor⟩ :=
    hashalloc_finds consistent_oneGroup (show 0 < 1 by decide) 5 (Nat.le_refl 1) (by decide)
  refine ⟨r, fs', heq, hor.resolve_left fun hzero => ?_⟩
  exact absurd ((hzero.2.2 0 (by decide)).2 2 (by decide)) (by decide)

end FreeBSDSys.Ffs
