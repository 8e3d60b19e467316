import Mathlib

/-!
# Disk quotas: the usage of a user or group

A model of the accounting of `ufs/ufs/ufs_quota.c`.  The blocks and the inodes are charged by two
pairs of functions that do the same to other fields; `Account` holds what differs, and each function
is the common one at its account.  The fields of a quota record are 64 bits wide; their sums wrap,
`ncurblocks` is signed and `ncurinodes` has 32 bits only.

A dquot is found by its type and a number that stands for the pointer, so the user and the group
dquot of an inode differ.  The locks of the dquots are left out: the calls are made one by one.
-/

namespace FreeBSDSys.Quota

/-- The quota types. -/
inductive QuotaType where
  | usrquota
  | grpquota
  deriving DecidableEq, Repr

/-- The types in the order of the loops, `MAXQUOTAS` in number. -/
def quotaTypes : List QuotaType := [.usrquota, .grpquota]

/-- `struct ufs2_dqblk`. -/
structure Dqblk where
  bhardlimit : BitVec 64
  bsoftlimit : BitVec 64
  curblocks : BitVec 64
  ihardlimit : BitVec 64
  isoftlimit : BitVec 64
  curinodes : BitVec 64
  btime : ℤ
  itime : ℤ
  deriving DecidableEq, Repr

/-- The flags of a dquot that are not about its locks. -/
structure DqFlags where
  mod : Bool
  fake : Bool
  blks : Bool
  inods : Bool
  deriving DecidableEq, Repr

/-- `struct dquot`. -/
structure Dquot where
  flags : DqFlags
  id : ℕ
  dqb : Dqblk
  deriving DecidableEq, Repr

/-- All dquots, by type and pointer. -/
structure Table where
  dq : QuotaType → ℕ → Dquot

/-- Assignment to a dquot. -/
def Table.set (t : Table) (type : QuotaType) (n : ℕ) (dq : Dquot) : Table :=
  ⟨fun type' n' => if type' = type ∧ n' = n then dq else t.dq type' n'⟩

/-- The inode, with the flag `VV_SYSTEM` of its vnode. -/
structure Inode where
  uid : BitVec 32
  gid : BitVec 32
  system : Bool
  dquot : QuotaType → Option ℕ

/-- The credential, and whether it has `PRIV_VFS_EXCEEDQUOTA`. -/
structure Ucred where
  uid : BitVec 32
  exceed : Bool
  deriving DecidableEq, Repr

/-- The grace periods of the mount, `um_btime` and `um_itime`. -/
structure Mount where
  btime : QuotaType → ℤ
  itime : QuotaType → ℤ

/-- What is printed on the terminal of the user. -/
inductive QuotaMsg where
  /-- Text: "write failed, %s disk limit reached" or "write failed, %s inode limit reached" -/
  | limitReached (type : QuotaType)
  /-- Text: "write failed, %s disk quota exceeded for too long" or "... inode quota ..." -/
  | tooLong (type : QuotaType)
  /-- Text: "warning, %s disk quota exceeded" or "... inode quota ..." -/
  | warning (type : QuotaType)
  deriving DecidableEq, Repr

/-! ## Accounts -/

/-- What differs between the functions for blocks and for inodes. -/
structure Account where
  cur : Dqblk → BitVec 64
  hard : Dqblk → BitVec 64
  soft : Dqblk → BitVec 64
  time : Dqblk → ℤ
  setCur : BitVec 64 → Dqblk → Dqblk
  setTime : ℤ → Dqblk → Dqblk
  /-- `DQ_BLKS` or `DQ_INODS` -/
  warned : DqFlags → Bool
  setWarned : Bool → DqFlags → DqFlags
  /-- The new usage in the type of the local variable -/
  next : BitVec 64 → BitVec 64 → BitVec 64
  /-- The usage after a reduction -/
  lower : BitVec 64 → BitVec 64 → BitVec 64
  /-- Whether a new grace time sets `DQ_MOD` at once -/
  marks : Bool

/-- The blocks.  `ncurblocks` is a signed number. -/
def blocks : Account where
  cur := Dqblk.curblocks
  hard := Dqblk.bhardlimit
  soft := Dqblk.bsoftlimit
  time := Dqblk.btime
  setCur v dqb := { dqb with curblocks := v }
  setTime v dqb := { dqb with btime := v }
  warned := DqFlags.blks
  setWarned v flags := { flags with blks := v }
  next cur change := cur + change
  lower cur change := if 0 ≤ (cur + change).toInt then cur + change else 0
  marks := true

/-- The inodes.  `ncurinodes` is an unsigned number of 32 bits. -/
def inodes : Account where
  cur := Dqblk.curinodes
  hard := Dqblk.ihardlimit
  soft := Dqblk.isoftlimit
  time := Dqblk.itime
  setCur v dqb := { dqb with curinodes := v }
  setTime v dqb := { dqb with itime := v }
  warned := DqFlags.inods
  setWarned v flags := { flags with inods := v }
  next cur change := ((cur + change).setWidth 32).setWidth 64
  lower cur change := if cur ≠ 0 then ((cur + change).setWidth 32).setWidth 64 else 0
  marks := false

/-- What a check of one dquot returns; `error` is `EDQUOT`. -/
structure Chg where
  error : Bool
  warn : Bool
  msgs : List QuotaMsg
  dq : Dquot

namespace Account

variable (a : Account)

/-- The refusal of a change; the owner is told once. -/
def refuse (ip : Inode) (cred : Ucred) (dq : Dquot) (msg : QuotaMsg) : Chg :=
  if a.warned dq.flags = false ∧ ip.uid = cred.uid then
    ⟨true, false, [msg], { dq with flags := a.setWarned true dq.flags }⟩
  else ⟨true, false, [], dq⟩

/-- The check of a change against the limits. -/
def chkchg (ip : Inode) (change : BitVec 64) (cred : Ucred) (type : QuotaType) (now grace : ℤ)
    (dq : Dquot) : Chg :=
  let ncur := a.next (a.cur dq.dqb) change
  if a.hard dq.dqb ≤ ncur ∧ a.hard dq.dqb ≠ 0 then a.refuse ip cred dq (.limitReached type)
  else if a.soft dq.dqb ≤ ncur ∧ a.soft dq.dqb ≠ 0 then
    if a.cur dq.dqb < a.soft dq.dqb then
      ⟨false, ip.uid = cred.uid, [],
        { dq with
          dqb := a.setTime (now + grace) dq.dqb
          flags := if a.marks then { dq.flags with mod := true } else dq.flags }⟩
    else if now > a.time dq.dqb then a.refuse ip cred dq (.tooLong type)
    else ⟨false, false, [], dq⟩
  else ⟨false, false, [], dq⟩

/-- The change of a dquot behind the check. -/
def charge (change : BitVec 64) (now grace : ℤ) (dq : Dquot) : Dquot :=
  -- Reset timer when crossing soft limit
  let dqb :=
    if a.soft dq.dqb ≤ a.cur dq.dqb + change ∧ a.cur dq.dqb < a.soft dq.dqb then
      a.setTime (now + grace) dq.dqb
    else dq.dqb
  { dq with
    dqb := a.setCur (a.cur dq.dqb + change) dqb
    flags := { dq.flags with mod := true } }

/-- A reduction of the usage, or the return of a charge. -/
def reduce (change : BitVec 64) (dq : Dquot) : Dquot :=
  { dq with
    dqb := a.setCur (a.lower (a.cur dq.dqb) change) dq.dqb
    flags := { a.setWarned false dq.flags with mod := true } }

/-- The reduction of the dquots of the inode, for the types of a list. -/
def reduceAll (ip : Inode) (change : BitVec 64) (types : List QuotaType) (t : Table) : Table :=
  types.foldl (fun t type =>
      match ip.dquot type with
      | none => t
      | some n => t.set type n (a.reduce change (t.dq type n))) t

/-- The loop over the types for a positive change.  `done` has the types before, the last one
first; they are rolled back when a check fails. -/
def chargeLoop (ip : Inode) (change : BitVec 64) (cred : Ucred) (doCheck : Bool) (now : ℤ)
    (grace : QuotaType → ℤ) :
    List QuotaType → List QuotaType → Table → Bool × List QuotaMsg × Table
  | [], _, t => (false, [], t)
  | type :: rest, done, t =>
    match ip.dquot type with
    | none => chargeLoop ip change cred doCheck now grace rest (type :: done) t
    | some n =>
      let dq := t.dq type n
      let chg :=
        if doCheck then a.chkchg ip change cred type now (grace type) dq
        else ⟨false, false, [], dq⟩
      if chg.error then
        (true, chg.msgs, a.reduceAll ip (-change) done (t.set type n chg.dq))
      else
        let r := chargeLoop ip change cred doCheck now grace rest (type :: done)
          (t.set type n (a.charge change now (grace type) chg.dq))
        (r.1, chg.msgs ++ (if chg.warn then [.warning type] else []) ++ r.2.1, r.2.2)

/-- The common part of `chkdq` and `chkiq`. -/
def chk (ip : Inode) (change : BitVec 64) (cred : Ucred) (force : Bool) (now : ℤ)
    (grace : QuotaType → ℤ) (t : Table) : Bool × List QuotaMsg × Table :=
  if change = 0 then (false, [], t)
  else if change.toInt < 0 then (false, [], a.reduceAll ip change quotaTypes t)
  else
    let doCheck := !force && !cred.exceed
    a.chargeLoop ip change cred doCheck now grace quotaTypes [] t

end Account

/-! ## The functions -/

/-- `chkdqchg`. -/
def chkdqchg : Inode → BitVec 64 → Ucred → QuotaType → ℤ → ℤ → Dquot → Chg := blocks.chkchg

/-- `chkiqchg`. -/
def chkiqchg : Inode → BitVec 64 → Ucred → QuotaType → ℤ → ℤ → Dquot → Chg := inodes.chkchg

/-- Disk quotas are turned off for system files and for files with a negative uid or gid. -/
def Inode.exempt (ip : Inode) : Bool := ip.system || ip.uid.toInt < 0 || ip.gid.toInt < 0

/-- `chkdq`; it returns whether the error is `EDQUOT`, the messages and the dquots. -/
def chkdq (ip : Inode) (change : BitVec 64) (cred : Ucred) (force : Bool) (now : ℤ) (um : Mount)
    (t : Table) : Bool × List QuotaMsg × Table :=
  if ip.exempt then (false, [], t) else blocks.chk ip change cred force now um.btime t

/-- `chkiq`. -/
def chkiq (ip : Inode) (change : BitVec 32) (cred : Ucred) (force : Bool) (now : ℤ) (um : Mount)
    (t : Table) : Bool × List QuotaMsg × Table :=
  inodes.chk ip (change.signExtend 64) cred force now um.itime t

/-- Whether there are no limits, `DQ_FAKE`. -/
def Dqblk.unlimited (dqb : Dqblk) : Bool :=
  dqb.isoftlimit = 0 && dqb.bsoftlimit = 0 && dqb.ihardlimit = 0 && dqb.bhardlimit = 0

/-- The warnings are forgotten below the soft limits. -/
def Dquot.forget (dq : Dquot) : Dquot :=
  { dq with flags :=
    { dq.flags with
      blks := dq.flags.blks && !(dq.dqb.curblocks < dq.dqb.bsoftlimit : Bool)
      inods := dq.flags.inods && !(dq.dqb.curinodes < dq.dqb.isoftlimit : Bool) } }

/-- The file system types. -/
inductive FsType where
  | ufs1
  | ufs2
  deriving DecidableEq, Repr

/-- `QUOTA_VERSION_UFS2`; the version number is stored in the field `bhardlimit` of record 0. -/
def quotaVersionUfs2 : BitVec 64 := 0xDEC0DE0518197900

/-- The assignment of `setquota` to the dquot. -/
def setquota (fs : FsType) (type : QuotaType) (newlim : Dqblk) (now : ℤ) (um : Mount) (dq : Dquot) :
    Dquot :=
  let newlim := { newlim with curblocks := dq.dqb.curblocks, curinodes := dq.dqb.curinodes }
  let newlim :=
    if dq.id ≠ 0 then { newlim with btime := dq.dqb.btime, itime := dq.dqb.itime } else newlim
  let newlim :=
    if dq.id = 0 ∧ fs = .ufs2 ∧ newlim.bhardlimit ≠ quotaVersionUfs2 then
      { newlim with bhardlimit := quotaVersionUfs2 }
    else newlim
  let newlim :=
    if newlim.bsoftlimit ≠ 0 ∧ newlim.bsoftlimit ≤ dq.dqb.curblocks ∧
        (dq.dqb.bsoftlimit = 0 ∨ dq.dqb.curblocks < dq.dqb.bsoftlimit) then
      { newlim with btime := now + um.btime type }
    else newlim
  let newlim :=
    if newlim.isoftlimit ≠ 0 ∧ newlim.isoftlimit ≤ dq.dqb.curinodes ∧
        (dq.dqb.isoftlimit = 0 ∨ dq.dqb.curinodes < dq.dqb.isoftlimit) then
      { newlim with itime := now + um.itime type }
    else newlim
  let dq := { dq with dqb := newlim }.forget
  { dq with flags := { dq.flags with fake := newlim.unlimited, mod := true } }

/-- The assignment of `setuse` to the dquot. -/
def setuse (type : QuotaType) (usage : Dqblk) (now : ℤ) (um : Mount) (dq : Dquot) : Dquot :=
  let dqb := dq.dqb
  let dqb :=
    if dqb.bsoftlimit ≠ 0 ∧ dqb.curblocks < dqb.bsoftlimit ∧ dqb.bsoftlimit ≤ usage.curblocks then
      { dqb with btime := now + um.btime type }
    else dqb
  let dqb :=
    if dqb.isoftlimit ≠ 0 ∧ dqb.curinodes < dqb.isoftlimit ∧ dqb.isoftlimit ≤ usage.curinodes then
      { dqb with itime := now + um.itime type }
    else dqb
  let dqb := { dqb with curblocks := usage.curblocks, curinodes := usage.curinodes }
  let dq := { dq with dqb := dqb }.forget
  { dq with flags := { dq.flags with mod := true } }

end FreeBSDSys.Quota
