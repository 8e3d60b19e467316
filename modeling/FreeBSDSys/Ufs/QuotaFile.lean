import FreeBSDSys.Ufs.QuotaUsage

/-!
# Writing a quota record and reading it back

`dqsync` writes the record of a dquot that was modified, `dqget` reads it into a new dquot.  A UFS1
file system keeps records with fields of 32 bits (`Dqblk1`), a UFS2 file system keeps the record as
it is; a quota file maps ids to the records of its file system.  A record that lies behind the end of
the file is read as zero.  Errors of the disk are left out.

* `Changed.mod`: every change of a record marks the dquot as modified, so it will be written.
* `dqsync_dqget`: the record comes back as it was exactly on UFS2 and, on UFS1, if all fields
  fit into 32 bits.  `hardlimit_lost` is a hard limit that becomes no limit.
-/

namespace FreeBSDSys.Quota

/-- `struct ufs1_dqblk`. -/
structure Dqblk1 where
  bhardlimit : BitVec 32
  bsoftlimit : BitVec 32
  curblocks : BitVec 32
  ihardlimit : BitVec 32
  isoftlimit : BitVec 32
  curinodes : BitVec 32
  btime : ℤ
  itime : ℤ
  deriving DecidableEq, Repr

/-- The conversion of a number to `int32_t`. -/
def int32 (x : ℤ) : ℤ := x.bmod (2 ^ 32)

/-- The conversion of `dqsync` for UFS1. -/
def Dqblk.toUfs1 (dqb : Dqblk) : Dqblk1 where
  bhardlimit := dqb.bhardlimit.setWidth 32
  bsoftlimit := dqb.bsoftlimit.setWidth 32
  curblocks := dqb.curblocks.setWidth 32
  ihardlimit := dqb.ihardlimit.setWidth 32
  isoftlimit := dqb.isoftlimit.setWidth 32
  curinodes := dqb.curinodes.setWidth 32
  btime := int32 dqb.btime
  itime := int32 dqb.itime

/-- The conversion of `dqget` for UFS1. -/
def Dqblk1.toUfs2 (dqb : Dqblk1) : Dqblk where
  bhardlimit := dqb.bhardlimit.setWidth 64
  bsoftlimit := dqb.bsoftlimit.setWidth 64
  curblocks := dqb.curblocks.setWidth 64
  ihardlimit := dqb.ihardlimit.setWidth 64
  isoftlimit := dqb.isoftlimit.setWidth 64
  curinodes := dqb.curinodes.setWidth 64
  btime := dqb.btime
  itime := dqb.itime

/-- A record as it is on the disk. -/
def Stored : FsType → Type
  | .ufs1 => Dqblk1
  | .ufs2 => Dqblk

/-- What `dqsync` writes. -/
def store : (fs : FsType) → Dqblk → Stored fs
  | .ufs1, dqb => dqb.toUfs1
  | .ufs2, dqb => dqb

/-- What `dqget` reads. -/
def load : (fs : FsType) → Stored fs → Dqblk
  | .ufs1, r => Dqblk1.toUfs2 r
  | .ufs2, r => r

/-- A quota file; there is no record behind its end. -/
def QuotaFile (fs : FsType) : Type := ℕ → Option (Stored fs)

/-- The record of zeros. -/
def Dqblk.zero : Dqblk := ⟨0, 0, 0, 0, 0, 0, 0, 0⟩

/-- `dqsync`: the dquot and the file afterwards. -/
def dqsync (fs : FsType) (dq : Dquot) (file : QuotaFile fs) : Dquot × QuotaFile fs :=
  if dq.flags.mod then
    ({ dq with flags := { dq.flags with mod := false } },
      Function.update file dq.id (some (store fs dq.dqb)))
  else (dq, file)

/-- The part of `dqget` that fills a new dquot from the file. -/
def dqget (fs : FsType) (file : QuotaFile fs) (id : ℕ) (type : QuotaType) (now : ℤ) (um : Mount) :
    Dquot :=
  let dqb :=
    match file id with
    | none => Dqblk.zero
    | some r => load fs r
  let dq : Dquot := ⟨⟨false, dqb.unlimited, false, false⟩, id, dqb⟩
  -- Initialize time values if necessary
  let dq :=
    if id ≠ 0 ∧ dqb.btime = 0 then
      { dq with
        dqb := { dq.dqb with btime := now + um.btime type }
        flags := { dq.flags with
          mod := dq.flags.mod || (dqb.bsoftlimit ≠ 0 && dqb.bsoftlimit ≤ dqb.curblocks : Bool) } }
    else dq
  if id ≠ 0 ∧ dqb.itime = 0 then
    { dq with
      dqb := { dq.dqb with itime := now + um.itime type }
      flags := { dq.flags with
        mod := dq.flags.mod || (dqb.isoftlimit ≠ 0 && dqb.isoftlimit ≤ dqb.curinodes : Bool) } }
  else dq

/-! ## Modified records -/

/-- The assignments to a record: those of `setquota` and `setuse`, and the charges and reductions of
`chkdq` and `chkiq`. -/
inductive Changed (um : Mount) : Dquot → Dquot → Prop
  | setquota (fs : FsType) (type : QuotaType) (newlim : Dqblk) (now : ℤ) (dq : Dquot) :
      Changed um dq (setquota fs type newlim now um dq)
  | setuse (type : QuotaType) (usage : Dqblk) (now : ℤ) (dq : Dquot) :
      Changed um dq (setuse type usage now um dq)
  | charge (a : Account) (change : BitVec 64) (now grace : ℤ) (dq : Dquot) :
      Changed um dq (a.charge change now grace dq)
  | reduce (a : Account) (change : BitVec 64) (dq : Dquot) : Changed um dq (a.reduce change dq)

/-- A record that was changed is marked. -/
theorem Changed.mod {um : Mount} {dq dq' : Dquot} (h : Changed um dq dq') :
    dq'.flags.mod = true := by
  cases h <;> rfl

/-! ## The round trip -/

/-- The same limits and usage, and the same grace times where they are not zero. -/
structure SameQuota (dqb dqb' : Dqblk) : Prop where
  bhardlimit : dqb'.bhardlimit = dqb.bhardlimit
  bsoftlimit : dqb'.bsoftlimit = dqb.bsoftlimit
  curblocks : dqb'.curblocks = dqb.curblocks
  ihardlimit : dqb'.ihardlimit = dqb.ihardlimit
  isoftlimit : dqb'.isoftlimit = dqb.isoftlimit
  curinodes : dqb'.curinodes = dqb.curinodes
  btime : dqb.btime ≠ 0 → dqb'.btime = dqb.btime
  itime : dqb.itime ≠ 0 → dqb'.itime = dqb.itime

/-- The number is in the range of `int32_t`. -/
def FitsInt32 (x : ℤ) : Prop := -2 ^ 31 ≤ x ∧ x < 2 ^ 31

/-- All fields fit into 32 bits. -/
structure Dqblk.Fits (dqb : Dqblk) : Prop where
  bhardlimit : dqb.bhardlimit.toNat < 2 ^ 32
  bsoftlimit : dqb.bsoftlimit.toNat < 2 ^ 32
  curblocks : dqb.curblocks.toNat < 2 ^ 32
  ihardlimit : dqb.ihardlimit.toNat < 2 ^ 32
  isoftlimit : dqb.isoftlimit.toNat < 2 ^ 32
  curinodes : dqb.curinodes.toNat < 2 ^ 32
  btime : FitsInt32 dqb.btime
  itime : FitsInt32 dqb.itime

theorem int32_eq_iff (x : ℤ) : int32 x = x ↔ FitsInt32 x := by
  rw [int32, FitsInt32, Int.bmod]
  split <;> omega

theorem setWidth_setWidth_eq_iff (x : BitVec 64) : (x.setWidth 32).setWidth 64 = x ↔
    x.toNat < 2 ^ 32 := by
  rw [← BitVec.toNat_inj, BitVec.toNat_setWidth, BitVec.toNat_setWidth]
  omega

/-- The record that `dqget` reads, before and behind the initialization of the times. -/
theorem dqget_dqb {fs : FsType} {file : QuotaFile fs} {id : ℕ} {r : Stored fs}
    (hr : file id = some r) (type : QuotaType) (now : ℤ) (um : Mount) :
    (dqget fs file id type now um).dqb = { load fs r with
      btime := if id ≠ 0 ∧ (load fs r).btime = 0 then now + um.btime type else (load fs r).btime
      itime := if id ≠ 0 ∧ (load fs r).itime = 0 then now + um.itime type else (load fs r).itime } := by
  simp only [dqget, hr]
  split <;> split <;> rfl

/-- A grace time comes back, at whatever time it is read, if and only if it fits. -/
theorem time_iff {load : ℤ} {x grace : ℤ} {id : ℕ} :
    (∀ now, x ≠ 0 → (if id ≠ 0 ∧ load = 0 then now + grace else load) = x) ↔ (x ≠ 0 → load = x) := by
  constructor
  · intro h hx
    by_cases hinit : id ≠ 0 ∧ load = 0
    · have := h (x - grace + 1) hx
      omega
    · have := h 0 hx
      rwa [if_neg hinit] at this
  · intro h now hx
    rw [if_neg fun hinit => hx ((h hx).symm.trans hinit.2)]
    exact h hx

/-- **A quota record comes back** from the file with the same limits, usage and grace times, at
whatever time it is read: always on UFS2, and on UFS1 if all fields fit into 32 bits. -/
theorem dqsync_dqget (fs : FsType) (dq : Dquot) (hmod : dq.flags.mod = true) (file : QuotaFile fs)
    (type : QuotaType) (um : Mount) :
    (∀ now, SameQuota dq.dqb (dqget fs (dqsync fs dq file).2 dq.id type now um).dqb) ↔
      fs = .ufs2 ∨ dq.dqb.Fits := by
  have hr : (dqsync fs dq file).2 dq.id = some (store fs dq.dqb) := by
    rw [dqsync, if_pos hmod]
    exact Function.update_self ..
  simp only [dqget_dqb hr]
  have hsame : (∀ now, SameQuota dq.dqb { load fs (store fs dq.dqb) with
      btime := if dq.id ≠ 0 ∧ (load fs (store fs dq.dqb)).btime = 0 then now + um.btime type
        else (load fs (store fs dq.dqb)).btime
      itime := if dq.id ≠ 0 ∧ (load fs (store fs dq.dqb)).itime = 0 then now + um.itime type
        else (load fs (store fs dq.dqb)).itime }) ↔
      SameQuota dq.dqb (load fs (store fs dq.dqb)) := by
    constructor
    · intro h
      obtain ⟨h1, h2, h3, h4, h5, h6, -, -⟩ := h 0
      exact ⟨h1, h2, h3, h4, h5, h6, time_iff.mp fun now => (h now).btime,
        time_iff.mp fun now => (h now).itime⟩
    · rintro ⟨h1, h2, h3, h4, h5, h6, h7, h8⟩ now
      exact ⟨h1, h2, h3, h4, h5, h6, time_iff.mpr h7 now, time_iff.mpr h8 now⟩
  rw [hsame]
  cases fs with
  | ufs2 =>
    exact iff_of_true ⟨rfl, rfl, rfl, rfl, rfl, rfl, fun _ => rfl, fun _ => rfl⟩ (.inl rfl)
  | ufs1 =>
    rw [or_iff_right nofun]
    have hw := setWidth_setWidth_eq_iff
    have htime : ∀ x : ℤ, (x ≠ 0 → int32 x = x) ↔ FitsInt32 x := by
      intro x
      rw [← int32_eq_iff]
      refine ⟨fun h => ?_, fun h _ => h⟩
      by_cases hx : x = 0
      · rw [hx]
        rfl
      · exact h hx
    constructor
    · rintro ⟨h1, h2, h3, h4, h5, h6, h7, h8⟩
      exact ⟨(hw _).mp h1, (hw _).mp h2, (hw _).mp h3, (hw _).mp h4, (hw _).mp h5, (hw _).mp h6,
        (htime _).mp h7, (htime _).mp h8⟩
    · rintro ⟨h1, h2, h3, h4, h5, h6, h7, h8⟩
      exact ⟨(hw _).mpr h1, (hw _).mpr h2, (hw _).mpr h3, (hw _).mpr h4,
        (hw _).mpr h5, (hw _).mpr h6,
        (htime _).mpr h7, (htime _).mpr h8⟩

/-- A new dquot of a file without records. -/
def newDquot (fs : FsType) : Dquot := dqget fs (fun _ => none) 1001 .usrquota 0 week

/-- A dquot for which `setquota` has set a hard limit of blocks. -/
def limited (fs : FsType) (bhardlimit : BitVec 64) : Dquot :=
  setquota fs .usrquota { Dqblk.zero with bhardlimit := bhardlimit } 0 week (newDquot fs)

/-- On UFS2 a limit of `2 ^ 32` blocks comes back. -/
theorem dqsync_dqget_limited : SameQuota (limited .ufs2 0x100000000).dqb
    (dqget .ufs2 (dqsync .ufs2 (limited .ufs2 0x100000000) fun _ => none).2 1001 .usrquota 10
      week).dqb :=
  (dqsync_dqget .ufs2 (limited .ufs2 0x100000000) (Changed.setquota ..).mod (fun _ => none)
    .usrquota week).mpr (.inl rfl) 10

/-- On UFS1 it comes back as 0, which is no limit. -/
theorem hardlimit_lost : (limited .ufs1 0x100000000).dqb.bhardlimit = 0x100000000 ∧
    (dqget .ufs1 (dqsync .ufs1 (limited .ufs1 0x100000000) fun _ => none).2 1001 .usrquota 10
      week).dqb.bhardlimit = 0 := by
  decide

end FreeBSDSys.Quota
