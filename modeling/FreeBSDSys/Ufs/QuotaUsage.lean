import FreeBSDSys.Ufs.Quota

/-!
# Usage is exact and limits are enforced

What one call of `chkdq` does to the dquots of an inode, whatever the other dquots hold.

* `reduceAll_dq`: the reduction of usage reaches each dquot of the inode once.
* `Charged`, `Restored`: a dquot that was charged, and one that was given its charge back.  The
  loop over the types (`chargeLoop_spec`) ends with all dquots charged or with all restored.
* `chkdq_exact`: the three statements about sequences of calls.  Usage is exact for the files
  that quotas are kept for and while it is below `2 ^ 63`: above, the signed `ncurblocks` is
  negative and the usage is set to 0.
-/

namespace FreeBSDSys.Quota

open Account BitVec List

variable {ip : Inode} {change x : BitVec 64} {cred : Ucred} {type : QuotaType} {n : ℕ}
  {now grace : ℤ} {dq dq' : Dquot} {t t₀ : Table} {doCheck : Bool} {done : List QuotaType}
  {um : Mount} {c : Call}

theorem Table.set_dq (t : Table) (type type' : QuotaType) (n n' : ℕ) (dq : Dquot) :
    (t.set type n dq).dq type' n' = if type' = type ∧ n' = n then dq else t.dq type' n' := rfl

/-- A type whose dquot is another one makes no difference. -/
theorem mem_cons_and {type' : QuotaType} (hne : ip.dquot type' = some n → type' ≠ type) :
    type' ∈ type :: done ∧ ip.dquot type' = some n ↔ type' ∈ done ∧ ip.dquot type' = some n :=
  and_congr_left fun hsome => by rw [mem_cons, or_iff_right (hne hsome)]

/-! ## Reductions -/

/-- **The reduction** of the dquots of an inode. -/
theorem reduceAll_dq (a : Account) (types : List QuotaType) (hnodup : types.Nodup) : ∀ t : Table,
    ∀ type n, (a.reduceAll ip change types t).dq type n =
      if type ∈ types ∧ ip.dquot type = some n then a.reduce change (t.dq type n)
      else t.dq type n := by
  induction types with
  | nil =>
    intro t type n
    rfl
  | cons type0 types ih =>
    intro t type n
    obtain ⟨hnot, hnodup⟩ := nodup_cons.mp hnodup
    rw [reduceAll, foldl_cons]
    refine (ih hnodup _ type n).trans ?_
    cases hdq : ip.dquot type0 with
    | none =>
      have hne : ip.dquot type = some n → type ≠ type0 := by
        rintro h rfl
        exact absurd (hdq.symm.trans h) nofun
      simp only [mem_cons_and hne]
    | some n0 =>
      simp only [Table.set_dq]
      by_cases heq : type = type0
      · subst heq
        rw [if_neg fun h => hnot h.1]
        by_cases hn : n = n0
        · rw [if_pos ⟨rfl, hn⟩, if_pos ⟨mem_cons_self, hdq.trans (hn ▸ rfl)⟩, hn]
        · rw [if_neg fun h => hn h.2, if_neg]
          rintro ⟨-, h⟩
          rw [hdq] at h
          exact hn (Option.some.inj h).symm
      · simp [heq]

/-! ## Charges -/

/-- The dquot was charged: within the hard limit if there was a check. -/
structure Charged (change : BitVec 64) (doCheck : Bool) (dq dq' : Dquot) : Prop where
  cur : dq'.dqb.curblocks = dq.dqb.curblocks + change
  hard : dq'.dqb.bhardlimit = dq.dqb.bhardlimit
  time : dq.dqb.bsoftlimit ≤ dq.dqb.curblocks → dq'.dqb.btime = dq.dqb.btime
  bound : doCheck = true → dq.dqb.bhardlimit ≠ 0 → dq'.dqb.curblocks < dq.dqb.bhardlimit

/-- The dquot is as it was, or its usage of `2 ^ 63` or more was set to 0. -/
structure Restored (dq dq' : Dquot) : Prop where
  cur : dq'.dqb.curblocks = dq.dqb.curblocks ∨ dq.dqb.curblocks.toInt < 0 ∧ dq'.dqb.curblocks = 0
  hard : dq'.dqb.bhardlimit = dq.dqb.bhardlimit
  time : dq.dqb.bsoftlimit ≤ dq.dqb.curblocks → dq'.dqb.btime = dq.dqb.btime

theorem refuse_dqb (a : Account) (ip : Inode) (cred : Ucred) (dq : Dquot) (msg : QuotaMsg) :
    (a.refuse ip cred dq msg).dq.dqb = dq.dqb ∧ (a.refuse ip cred dq msg).error = true := by
  rw [refuse]
  split <;> exact ⟨rfl, rfl⟩

/-- **`chkdqchg`.**  A refusal leaves the record; otherwise the hard limit is kept, and only
the grace time of a dquot that comes to its soft limit is new. -/
theorem chkchg_blocks (ip : Inode) (change : BitVec 64) (cred : Ucred) (type : QuotaType)
    (now grace : ℤ) (dq : Dquot) : let chg := blocks.chkchg ip change cred type now grace dq
    (chg.error = true → chg.dq.dqb = dq.dqb) ∧
    (chg.error = false → chg.dq.dqb.curblocks = dq.dqb.curblocks ∧
      chg.dq.dqb.bhardlimit = dq.dqb.bhardlimit ∧ chg.dq.dqb.bsoftlimit = dq.dqb.bsoftlimit ∧
      (dq.dqb.bsoftlimit ≤ dq.dqb.curblocks → chg.dq.dqb.btime = dq.dqb.btime) ∧
      (dq.dqb.bhardlimit ≠ 0 → dq.dqb.curblocks + change < dq.dqb.bhardlimit)) := by
  intro chg
  have hhard : ¬ (blocks.hard dq.dqb ≤ blocks.next (blocks.cur dq.dqb) change ∧
      blocks.hard dq.dqb ≠ 0) → dq.dqb.bhardlimit ≠ 0 →
      dq.dqb.curblocks + change < dq.dqb.bhardlimit :=
    fun h hne => BitVec.not_le.mp fun hle => h ⟨hle, hne⟩
  simp only [chg, chkchg]
  split
  · have h := refuse_dqb blocks ip cred dq (.limitReached type)
    exact ⟨fun _ => h.1, fun herr => absurd (h.2.symm.trans herr) nofun⟩
  · rename_i hh
    split
    · split
      · rename_i hlt
        refine ⟨nofun, fun _ => ⟨rfl, rfl, rfl, fun hle => ?_, hhard hh⟩⟩
        exact absurd hlt (BitVec.not_lt.mpr hle)
      · split
        · have h := refuse_dqb blocks ip cred dq (.tooLong type)
          exact ⟨fun _ => h.1, fun herr => absurd (h.2.symm.trans herr) nofun⟩
        · exact ⟨nofun, fun _ => ⟨rfl, rfl, rfl, fun _ => rfl, hhard hh⟩⟩
    · exact ⟨nofun, fun _ => ⟨rfl, rfl, rfl, fun _ => rfl, hhard hh⟩⟩

/-- The charge behind the check. -/
theorem charge_blocks (change : BitVec 64) (now grace : ℤ) (dq : Dquot) :
    (blocks.charge change now grace dq).dqb.curblocks = dq.dqb.curblocks + change ∧
    (blocks.charge change now grace dq).dqb.bhardlimit = dq.dqb.bhardlimit ∧
    (dq.dqb.bsoftlimit ≤ dq.dqb.curblocks →
      (blocks.charge change now grace dq).dqb.btime = dq.dqb.btime) := by
  refine ⟨rfl, ?_, fun hle => ?_⟩
  · show (if _ then _ else dq.dqb : Dqblk).bhardlimit = _
    split <;> rfl
  · show (if _ then _ else dq.dqb : Dqblk).btime = _
    rw [if_neg fun h => absurd h.2 (BitVec.not_lt.mpr hle)]

/-- Taking back a charge. -/
theorem Charged.restore (hc : Charged change doCheck dq dq') :
    Restored dq (blocks.reduce (-change) dq') := by
  have hback : dq'.dqb.curblocks + -change = dq.dqb.curblocks := by
    rw [hc.cur, BitVec.add_assoc, add_right_neg, BitVec.add_zero]
  refine ⟨?_, hc.hard, hc.time⟩
  show (if 0 ≤ (dq'.dqb.curblocks + -change).toInt then dq'.dqb.curblocks + -change else 0) = _ ∨
    _ ∧ (if 0 ≤ (dq'.dqb.curblocks + -change).toInt then dq'.dqb.curblocks + -change else 0) = 0
  rw [hback]
  split_ifs with hneg
  · exact .inl rfl
  · exact .inr ⟨Int.not_le.mp hneg, rfl⟩

/-- The dquots of the inode for the types `done` were charged, and no others. -/
def ChargedUpto (ip : Inode) (change : BitVec 64) (doCheck : Bool) (t₀ t : Table)
    (done : List QuotaType) : Prop :=
  ∀ type n, if type ∈ done ∧ ip.dquot type = some n then
    Charged change doCheck (t₀.dq type n) (t.dq type n) else t.dq type n = t₀.dq type n

section

variable (h : ChargedUpto ip change doCheck t₀ t done)

include h

theorem ChargedUpto.skip (hnone : ip.dquot type = none) :
    ChargedUpto ip change doCheck t₀ t (type :: done) := by
  intro type' n
  have hne : ip.dquot type' = some n → type' ≠ type := by
    rintro hsome rfl
    exact absurd (hnone.symm.trans hsome) nofun
  simp only [mem_cons_and hne]
  exact h type' n

/-- One more dquot is charged. -/
theorem ChargedUpto.charge (hnot : type ∉ done)
    (hsome : ip.dquot type = some n) (hdq : Charged change doCheck (t.dq type n) dq) :
    ChargedUpto ip change doCheck t₀ (t.set type n dq) (type :: done) := by
  intro type' n'
  have hsame : t.dq type n = t₀.dq type n := by
    have := h type n
    rwa [if_neg fun hin => hnot hin.1] at this
  rw [Table.set_dq]
  by_cases heq : type' = type ∧ n' = n
  · obtain ⟨rfl, rfl⟩ := heq
    rw [if_pos ⟨mem_cons_self, hsome⟩, if_pos ⟨rfl, rfl⟩]
    exact hsame ▸ hdq
  · rw [if_neg heq]
    have hne : ip.dquot type' = some n' → type' ≠ type := by
      rintro hsome' rfl
      exact heq ⟨rfl, Option.some.inj (hsome'.symm.trans hsome)⟩
    simp only [mem_cons_and hne]
    exact h type' n'

/-- **The rollback** restores all dquots. -/
theorem ChargedUpto.rollback (hnodup : done.Nodup)
    (hnot : type ∉ done) (hdq : dq.dqb = (t.dq type n).dqb) (type' : QuotaType) (n' : ℕ) :
    Restored (t₀.dq type' n')
      ((blocks.reduceAll ip (-change) done (t.set type n dq)).dq type' n') := by
  have hsame : ∀ {dq0 dq1 : Dquot}, dq1.dqb = dq0.dqb → Restored dq0 dq1 := fun heq => by
    refine ⟨.inl ?_, ?_, fun _ => ?_⟩ <;> rw [heq]
  have h' := h type' n'
  rw [reduceAll_dq _ _ hnodup, Table.set_dq]
  by_cases hin : type' ∈ done ∧ ip.dquot type' = some n'
  · have hne : ¬ (type' = type ∧ n' = n) := fun heq => hnot (heq.1 ▸ hin.1)
    rw [if_pos hin] at h'
    rw [if_pos hin, if_neg hne]
    exact h'.restore
  · rw [if_neg hin] at h'
    rw [if_neg hin]
    split_ifs with heq
    · obtain ⟨rfl, rfl⟩ := heq
      exact hsame (hdq.trans (congrArg _ h'))
    · exact hsame (congrArg _ h')

end

/-- **The loop over the types.** -/
theorem chargeLoop_spec (ip : Inode) (change : BitVec 64) (cred : Ucred) (doCheck : Bool) (now : ℤ)
    (grace : QuotaType → ℤ) (t₀ : Table) (rest : List QuotaType) :
    ∀ (done : List QuotaType) (t : Table), (rest ++ done).Nodup →
      ChargedUpto ip change doCheck t₀ t done →
      let r := blocks.chargeLoop ip change cred doCheck now grace rest done t
      (r.1 = false → ChargedUpto ip change doCheck t₀ r.2.2 (rest.reverse ++ done)) ∧
      (r.1 = true → ∀ type n, Restored (t₀.dq type n) (r.2.2.dq type n)) := by
  induction rest with
  | nil => exact fun done t _ h => ⟨fun _ => h, nofun⟩
  | cons type rest ih =>
    intro done t hnodup h
    have hmid : (rest ++ type :: done).Nodup := perm_middle.nodup_iff.mpr hnodup
    have hnot : type ∉ done := fun hin =>
      (nodup_cons.mp hnodup).1 (mem_append_right _ hin)
    have hdone : done.Nodup := (nodup_append.mp (nodup_cons.mp hnodup).2).2.1
    have hreverse : rest.reverse ++ type :: done = (type :: rest).reverse ++ done := by simp
    rw [← hreverse]
    simp only [chargeLoop]
    cases hsome : ip.dquot type with
    | none => exact ih (type :: done) t hmid (h.skip hsome)
    | some n =>
      dsimp only
      generalize hchg : (if doCheck = true then
        blocks.chkchg ip change cred type now (grace type) (t.dq type n)
        else ⟨false, false, [], t.dq type n⟩ : Chg) = chg
      -- what is known of the check, whether it was made or not
      have hspec : (chg.error = true → chg.dq.dqb = (t.dq type n).dqb) ∧
          (chg.error = false → Charged change doCheck (t.dq type n)
            (blocks.charge change now (grace type) chg.dq)) := by
        have hcharge := charge_blocks change now (grace type) chg.dq
        cases doCheck with
        | false =>
          subst hchg
          exact ⟨nofun, fun _ => ⟨hcharge.1, hcharge.2.1, hcharge.2.2, nofun⟩⟩
        | true =>
          rw [if_pos rfl] at hchg
          obtain ⟨herr, hok⟩ := chkchg_blocks ip change cred type now (grace type) (t.dq type n)
          rw [hchg] at herr hok
          refine ⟨herr, fun he => ?_⟩
          obtain ⟨hcur, hhard, hsoft, htime, hbound⟩ := hok he
          refine ⟨by rw [hcharge.1, hcur], by rw [hcharge.2.1, hhard], fun hle => ?_,
            fun _ hne => by rw [hcharge.1, hcur]; exact hbound hne⟩
          rw [hcharge.2.2 (by rw [hcur, hsoft]; exact hle), htime hle]
      split
      · rename_i herr
        exact ⟨nofun, fun _ => h.rollback hdone hnot (hspec.1 herr)⟩
      · rename_i hok
        exact ih (type :: done) _ hmid (h.charge hnot hsome (hspec.2 (Bool.eq_false_iff.mpr hok)))

/-! ## Calls -/

/-- The arguments of a call of `chkdq`, and the time. -/
structure Call where
  ip : Inode
  change : BitVec 64
  cred : Ucred
  force : Bool
  now : ℤ

/-- The call. -/
def Call.run (um : Mount) (c : Call) (t : Table) : Bool × List QuotaMsg × Table :=
  chkdq c.ip c.change c.cred c.force c.now um t

/-- The dquots after a sequence of calls. -/
def runCalls (um : Mount) (calls : List Call) (t : Table) : Table :=
  calls.foldl (fun t c => (c.run um t).2.2) t

/-- The call is checked against the limits. -/
def Call.checked (c : Call) : Prop := c.force = false ∧ c.cred.exceed = false

/-- No usage has come to a hard limit. -/
def Table.BelowHard (t : Table) : Prop :=
  ∀ type n, (t.dq type n).dqb.bhardlimit ≠ 0 →
    (t.dq type n).dqb.curblocks < (t.dq type n).dqb.bhardlimit

theorem quotaTypes_nodup : quotaTypes.Nodup := by decide

theorem mem_quotaTypes (type : QuotaType) : type ∈ quotaTypes := by
  cases type <;> decide

/-- The loop from its start. -/
theorem chargeLoop_start (ip : Inode) (change : BitVec 64) (cred : Ucred) (doCheck : Bool) (now : ℤ)
    (grace : QuotaType → ℤ) (t : Table) :
    let r := blocks.chargeLoop ip change cred doCheck now grace quotaTypes [] t
    (r.1 = false → ChargedUpto ip change doCheck t r.2.2 quotaTypes.reverse) ∧
    (r.1 = true → ∀ type n, Restored (t.dq type n) (r.2.2.dq type n)) := by
  intro r
  obtain ⟨hok, herr⟩ := chargeLoop_spec ip change cred doCheck now grace t quotaTypes [] t
    (by decide) fun type n => by simp
  exact ⟨append_nil quotaTypes.reverse ▸ hok, herr⟩

/-- **A refused call** restores all dquots. -/
theorem Call.refused (h : (c.run um t).1 = true) (type : QuotaType) (n : ℕ) :
    Restored (t.dq type n) ((c.run um t).2.2.dq type n) := by
  revert h
  simp only [Call.run, chkdq, chk]
  split
  · exact nofun
  · split
    · exact nofun
    · split
      · exact nofun
      · exact fun h => (chargeLoop_start _ _ _ _ _ _ t).2 h type n

theorem toInt_of_lt (h : x.toNat < 2 ^ 63) : x.toInt = x.toNat := by
  rw [toInt_eq_toNat_cond, if_pos (by omega)]

/-- A sum that is not negative does not wrap, when the usage was below `2 ^ 63`. -/
theorem toNat_add_of_nonneg {change : BitVec 64} (hx : x.toNat < 2 ^ 63)
    (hnonneg : 0 ≤ x.toNat + change.toInt) : ((x + change).toNat : ℤ) = x.toNat + change.toInt := by
  rw [toNat_add]
  rw [toInt_eq_toNat_cond] at hnonneg ⊢
  split_ifs at hnonneg with hsmall
  · rw [if_pos hsmall, Nat.mod_eq_of_lt (by omega)]
    rfl
  · omega

/-- A reduction whose result is not negative as a signed number does not wrap. -/
theorem add_lt_of_neg {change : BitVec 64} (hneg : change.toInt < 0)
    (hsign : 0 ≤ (x + change).toInt) : x + change < x := by
  rw [toInt_eq_toNat_cond] at hneg hsign
  rw [lt_def]
  rw [toNat_add] at hsign ⊢
  split at hneg <;> split at hsign <;> omega

theorem pos_of_ne_zero (hne : x ≠ 0) : 0 < x := by
  bv_omega

/-- **A call that is granted** charges the dquots of the inode. -/
theorem Call.granted (h : (c.run um t).1 = false) (hip : c.ip.exempt = false)
    (hdq : c.ip.dquot type = some n) (hlt : (t.dq type n).dqb.curblocks.toNat < 2 ^ 63)
    (hnonneg : 0 ≤ (t.dq type n).dqb.curblocks.toNat + c.change.toInt) :
    (((c.run um t).2.2.dq type n).dqb.curblocks.toNat : ℤ) =
      (t.dq type n).dqb.curblocks.toNat + c.change.toInt := by
  have hsum := toNat_add_of_nonneg hlt hnonneg
  revert h
  simp only [Call.run, chkdq, chk, hip, Bool.false_eq_true, if_false]
  split
  · rename_i hzero
    intro _
    rw [hzero]
    exact (Int.add_zero _).symm
  · split
    · intro _
      rw [reduceAll_dq _ _ quotaTypes_nodup, if_pos ⟨mem_quotaTypes type, hdq⟩]
      -- the sum is below the old usage, hence not negative as a signed number
      have hsign : 0 ≤ ((t.dq type n).dqb.curblocks + c.change).toInt := by
        rw [toInt_of_lt (by omega)]
        omega
      show ((if 0 ≤ ((t.dq type n).dqb.curblocks + c.change).toInt then
        (t.dq type n).dqb.curblocks + c.change else 0).toNat : ℤ) = _
      rw [if_pos hsign, hsum]
    · intro h
      have hcharged := (chargeLoop_start _ _ _ _ _ _ t).1 h type n
      rw [if_pos ⟨mem_reverse.mpr (mem_quotaTypes type), hdq⟩] at hcharged
      rw [hcharged.cur, hsum]

/-- **A checked call** brings no usage to a hard limit. -/
theorem Call.belowHard (hc : c.checked) (ht : t.BelowHard) : (c.run um t).2.2.BelowHard := by
  intro type n
  cases herr : (c.run um t).1 with
  | true =>
    have hr := c.refused herr type n
    rw [hr.hard]
    intro hne
    rcases hr.cur with hcur | ⟨-, hcur⟩
    · rw [hcur]
      exact ht type n hne
    · rw [hcur]
      exact pos_of_ne_zero hne
  | false =>
    revert herr
    simp only [Call.run, chkdq, chk, hc.1, hc.2]
    split
    · exact fun _ => ht type n
    · split
      · exact fun _ => ht type n
      · split_ifs with hneg
        · intro _
          rw [reduceAll_dq _ _ quotaTypes_nodup]
          split
          · intro hne
            have hold := ht type n hne
            show (if 0 ≤ ((t.dq type n).dqb.curblocks + c.change).toInt then
              (t.dq type n).dqb.curblocks + c.change else 0) < (t.dq type n).dqb.bhardlimit
            split_ifs with hsign
            · exact BitVec.lt_trans (add_lt_of_neg hneg hsign) hold
            · exact pos_of_ne_zero hne
          · exact ht type n
        · intro h
          have hcharged := (chargeLoop_start _ _ _ _ _ _ t).1 h type n
          split at hcharged
          · intro hne
            rw [hcharged.hard] at hne ⊢
            exact hcharged.bound rfl hne
          · rw [hcharged]
            exact ht type n

/-- **Usage is exact and limits are enforced**, in every sequence of calls.

* A call that is refused leaves every usage below `2 ^ 63`, and the grace time of every dquot at or
  over its soft limit.
* A call that is granted, for a file that is not exempt, changes a usage below `2 ^ 63` by exactly
  `change` as long as the sum is not negative.
* Calls that are checked bring no usage to a hard limit. -/
theorem chkdq_exact (um : Mount) (calls : List Call) (t₀ : Table) :
    (∀ (c : Call) (type : QuotaType) (n : ℕ),
      let t := runCalls um calls t₀
      let dqb := (t.dq type n).dqb
      let dqb' := ((c.run um t).2.2.dq type n).dqb
      ((c.run um t).1 = true → (dqb.curblocks.toNat < 2 ^ 63 → dqb'.curblocks = dqb.curblocks) ∧
        (dqb.bsoftlimit ≤ dqb.curblocks → dqb'.btime = dqb.btime)) ∧
      ((c.run um t).1 = false → c.ip.exempt = false → c.ip.dquot type = some n →
        dqb.curblocks.toNat < 2 ^ 63 → 0 ≤ dqb.curblocks.toNat + c.change.toInt →
        dqb'.curblocks.toNat = dqb.curblocks.toNat + c.change.toInt)) ∧
    (t₀.BelowHard → (∀ c ∈ calls, c.checked) → (runCalls um calls t₀).BelowHard) := by
  refine ⟨fun c type n => ⟨fun herr => ?_, fun hok hip hdq hlt hnonneg => ?_⟩, ?_⟩
  · have hr := c.refused herr type n
    refine ⟨fun hlt => hr.cur.resolve_right fun h => ?_, hr.time⟩
    have := toInt_of_lt hlt
    omega
  · exact c.granted hok hip hdq hlt hnonneg
  · -- by induction on the calls, for every table
    induction calls generalizing t₀ with
    | nil => exact fun ht _ => ht
    | cons c calls ih =>
      intro ht hcalls
      exact ih _ (Call.belowHard (hcalls c mem_cons_self) ht)
        fun c' hc' => hcalls c' (mem_cons_of_mem _ hc')

/-- One user, with limits of 80 and 100 and a grace time of 50. -/
def oneUser (cur : BitVec 64) : Table :=
  ⟨fun _ _ => ⟨⟨false, false, false, false⟩, 1001, ⟨100, 80, cur, 0, 0, 0, 50, 0⟩⟩⟩

/-- The default grace periods, a week. -/
def week : Mount := ⟨fun _ => 604800, fun _ => 604800⟩

/-- A call by the owner of a file, at time 10. -/
def userCall (system : Bool) (change : BitVec 64) : Call :=
  ⟨⟨1001, 1001, system, fun type => if type = .usrquota then some 0 else none⟩, change,
    ⟨1001, false⟩, false, 10⟩

theorem oneUser_belowHard : (oneUser 90).BelowHard := fun _ _ _ => show 90 < 100 by decide

/-- The user is refused 20 blocks, and granted 5. -/
theorem chkdq_exact_oneUser : ((userCall false 20).run week (oneUser 90)).1 = true ∧
    (((userCall false 20).run week (oneUser 90)).2.2.dq .usrquota 0).dqb.curblocks = 90 ∧
    ((userCall false 5).run week (oneUser 90)).1 = false ∧
    ((((userCall false 5).run week (oneUser 90)).2.2.dq .usrquota 0).dqb.curblocks.toNat : ℤ) = 95 ∧
    (runCalls week [userCall false 20, userCall false 5] (oneUser 90)).BelowHard := by
  have hcalls := (chkdq_exact week [] (oneUser 90)).1
  refine ⟨by decide, ((hcalls (userCall false 20) .usrquota 0).1 (by decide)).1 (by decide),
    by decide, (hcalls (userCall false 5) .usrquota 0).2 (by decide) (by decide) rfl (by decide)
      (by decide), (chkdq_exact week _ (oneUser 90)).2 oneUser_belowHard ?_⟩
  exact forall_mem_cons.mpr ⟨⟨rfl, rfl⟩, forall_mem_singleton.mpr ⟨rfl, rfl⟩⟩

/-- A granted call for a system file charges nobody; and a usage of more than `2 ^ 63` blocks from
which one block is taken is 0. -/
theorem chkdq_not_exact : ((userCall true 5).run week (oneUser 90)).1 = false ∧
    (((userCall true 5).run week (oneUser 90)).2.2.dq .usrquota 0).dqb.curblocks = 90 ∧
    ((userCall false (-1)).run week (oneUser 0x8000000000000001)).1 = false ∧
    (((userCall false (-1)).run week (oneUser 0x8000000000000001)).2.2.dq .usrquota 0).dqb.curblocks =
      0 := by
  decide

end FreeBSDSys.Quota
