import FreeBSDSys.Kern.OwnerGraph

/-!
# The byte-range lock manager of `kern_lockf.c`

A file has a list of active locks, sorted by their start, and a list of pending locks, newest
first.  Lock edges say which pending lock waits for which other lock; each of them is also counted
in the owner graph.  The file embeds the whole path of a request: `lf_advlockasync` with
`lf_setlock`, `lf_clearlock`, `lf_getlock` and `lf_cancel`, the activation loop
`lf_activate_lock` with everything it calls, `lf_cancel_lock` for an interrupted sleeper, and
`lf_purgelocks`.

## How the structures are read

* A pointer is a number: `LockId`, `OwnerId`, `VnodeId`.  `malloc` returns a number that was not
  used before in that file; a freed entry keeps its last contents and is in no list.
* The entries of a file, its two lists and its lock edges make one `LockfState`.  A lock edge is
  linked into `le_from->lf_outedges` and `le_to->lf_inedges` at the same moment, so one list,
  newest first, holds both.
* The table of owners and the owner graph are shared by all files.  An owner has a vertex exactly
  when it is in `gVertices`.
* A byte offset that passed the checks of `lf_advlockasync` is a natural number.
* The locks `ls_lock`, `lf_lock_owners_lock` and so on are left out: every operation below is one
  critical section of `ls_lock`.  A thread that sleeps is a pending lock without `lf_async_task`,
  and it goes on when it is granted, interrupted or purged.
* Left out as well: the vnode references taken for `F_REMOTE` locks, `priority`, and
  `F_UNLCKSYS`, which is a sequence of unlock requests.
-/

namespace FreeBSDSys.Lockf

open Function

abbrev LockId := ℕ
abbrev OwnerId := ℕ
abbrev VnodeId := ℕ

/-- `F_RDLCK`, `F_UNLCK`, `F_WRLCK`. -/
inductive LockType where
  | rdlck
  | unlck
  | wrlck
  deriving DecidableEq, Repr, Inhabited

/-- `struct lockf_entry`.  `lfWait` and `lfFlock` are the flags `F_WAIT` and `F_FLOCK` of
`lf_flags`, and `lfAsyncTask` says that `lf_async_task` is set. -/
structure LockfEntry where
  lfStart : ℕ
  lfEnd : ℕ
  lfType : LockType
  lfOwner : OwnerId
  lfVnode : VnodeId
  lfWait : Bool
  lfFlock : Bool
  lfAsyncTask : Bool
  deriving DecidableEq, Repr, Inhabited

/-- `struct lockf` of one file, with its entries and the lock edges between them. -/
structure LockfState where
  entry : LockId → LockfEntry
  nextLock : LockId
  lsActive : List LockId
  lsPending : List LockId
  edges : List (LockId × LockId)

/-- A new `struct lockf`. -/
def LockfState.empty : LockfState where
  entry := fun _ => default
  nextLock := 0
  lsActive := []
  lsPending := []
  edges := []

/-- `struct lock_owner`. -/
structure LockOwner where
  loRefs : ℕ
  loPid : ℤ
  loSysid : ℤ
  deriving DecidableEq, Repr

/-- `lf_lock_owners` and `lf_owner_graph`. -/
structure OwnerTable where
  owners : OwnerId → Option LockOwner
  graph : OwnerGraph OwnerId

/-- What an operation on one file works on. -/
structure LfState extends LockfState, OwnerTable

/-! ## Locks and edges -/

/-- `lf_overlaps`. -/
def lfOverlaps (x y : LockfEntry) : Prop :=
  x.lfStart ≤ y.lfEnd ∧ x.lfEnd ≥ y.lfStart

instance (x y : LockfEntry) : Decidable (lfOverlaps x y) := by
  unfold lfOverlaps
  infer_instance

/-- `lf_blocks`. -/
def lfBlocks (x y : LockfEntry) : Prop :=
  x.lfOwner ≠ y.lfOwner ∧ (x.lfType = .wrlck ∨ y.lfType = .wrlck) ∧ lfOverlaps x y

instance (x y : LockfEntry) : Decidable (lfBlocks x y) := by
  unfold lfBlocks
  infer_instance

/-- The targets of `x->lf_outedges`. -/
def LockfState.lfOutedges (s : LockfState) (x : LockId) : List LockId :=
  (s.edges.filter fun e => e.1 = x).map Prod.snd

/-- The sources of `x->lf_inedges`. -/
def LockfState.lfInedges (s : LockfState) (x : LockId) : List LockId :=
  (s.edges.filter fun e => e.2 = x).map Prod.fst

/-- The reference that `lf_advlockasync` or `lf_alloc_lock` takes on an owner, which is created
when it is not there. -/
def lfRefOwner (t : OwnerTable) (o : OwnerId) (pid sysid : ℤ) : OwnerTable :=
  match t.owners o with
  | none => { t with owners := update t.owners o (some ⟨1, pid, sysid⟩) }
  | some lo =>
    { t with owners := update t.owners o (some { lo with loRefs := lo.loRefs + 1 }) }

/-- `lf_free_lock`: drop the entry's reference on its owner, and the owner with the last one. -/
def lfFreeLock (t : OwnerTable) (lock : LockfEntry) : OwnerTable :=
  match t.owners lock.lfOwner with
  | none => t
  | some lo =>
    if lo.loRefs - 1 = 0 then
      { owners := update t.owners lock.lfOwner none
        graph := if lock.lfOwner ∈ t.graph.gVertices then graphFreeVertex t.graph lock.lfOwner
          else t.graph }
    else
      { t with owners := update t.owners lock.lfOwner (some { lo with loRefs := lo.loRefs - 1 }) }

/-- `lf_free_lock` on an entry of the file. -/
def LfState.freeLock (s : LfState) (lock : LockId) : LfState :=
  { s with toOwnerTable := lfFreeLock s.toOwnerTable (s.entry lock) }

/-- A new entry; its owner has its reference already. -/
def LockfState.newLock (s : LockfState) (lock : LockfEntry) : LockfState :=
  { s with entry := update s.entry s.nextLock lock, nextLock := s.nextLock + 1 }

/-- `lf_alloc_vertex`. -/
def lfAllocVertex (g : OwnerGraph OwnerId) (o : OwnerId) : OwnerGraph OwnerId :=
  if o ∈ g.gVertices then g else graphAllocVertex g o

/-- `lf_add_edge`. -/
def lfAddEdge (s : LfState) (x y : LockId) : Errno × LfState :=
  let ox := (s.entry x).lfOwner
  let oy := (s.entry y).lfOwner
  match graphAddEdge (lfAllocVertex (lfAllocVertex s.graph ox) oy) ox oy with
  | (.ok, g) => (.ok, { s with graph := g, edges := (x, y) :: s.edges })
  | (error, g) => (error, { s with graph := g })

/-- `lf_remove_edge`. -/
def lfRemoveEdge (s : LfState) (x y : LockId) : LfState :=
  { s with
    graph := graphRemoveEdge s.graph (s.entry x).lfOwner (s.entry y).lfOwner
    edges := s.edges.erase (x, y) }

/-- `lf_remove_outgoing`. -/
def lfRemoveOutgoing (s : LfState) (x : LockId) : LfState :=
  (s.lfOutedges x).foldl (fun s => lfRemoveEdge s x) s

/-- `lf_remove_incoming`. -/
def lfRemoveIncoming (s : LfState) (x : LockId) : LfState :=
  (s.lfInedges x).foldl (fun s y => lfRemoveEdge s y x) s

/-- The loop that `lf_add_outgoing` and `lf_add_incoming` share: an edge for every lock of a list
that blocks `lock`, up to the first error. -/
def lfAddEdges (lock : LockId) (edge : LockId → LockId × LockId) :
    List LockId → LfState → Errno × LfState
  | [], s => (.ok, s)
  | overlap :: rest, s =>
    if ¬ lfBlocks (s.entry lock) (s.entry overlap) then lfAddEdges lock edge rest s
    else
      match lfAddEdge s (edge overlap).1 (edge overlap).2 with
      | (.ok, s') => lfAddEdges lock edge rest s'
      | (error, s') => (error, s')

/-- `lf_add_outgoing`.  The first loop leaves the sorted active list at the first lock behind the
end of `lock`, the second one goes over all pending locks. -/
def lfAddOutgoing (s : LfState) (lock : LockId) : Errno × LfState :=
  let front := s.lsActive.takeWhile fun overlap =>
    (s.entry overlap).lfStart ≤ (s.entry lock).lfEnd
  match lfAddEdges lock (fun overlap => (lock, overlap)) (front ++ s.lsPending) s with
  | (.ok, s') => (.ok, s')
  | (error, s') => (error, lfRemoveOutgoing s' lock)

/-- `lf_add_incoming`. -/
def lfAddIncoming (s : LfState) (lock : LockId) : Errno × LfState :=
  match lfAddEdges lock (fun overlap => (overlap, lock)) s.lsPending s with
  | (.ok, s') => (.ok, s')
  | (error, s') => (error, lfRemoveIncoming s' lock)

/-! ## Activation -/

/-- The place `lf_insert_lock` gives a lock. -/
def lfInsert (entry : LockId → LockfEntry) (lock : LockId) : List LockId → List LockId
  | [] => [lock]
  | lf :: rest =>
    if (entry lf).lfStart > (entry lock).lfStart then lock :: lf :: rest
    else lf :: lfInsert entry lock rest

/-- `lf_insert_lock`. -/
def lfInsertLock (s : LfState) (lock : LockId) : LfState :=
  { s with lsActive := lfInsert s.entry lock s.lsActive }

/-- `lf_wakeup_lock`. -/
def lfWakeupLock (s : LfState) (wakelock : LockId) : LfState :=
  { s with lsPending := s.lsPending.erase wakelock }

/-- The loop of `lf_update_dependancies` over the in-edges of `lock`, here the list of their
sources. -/
def lfUpdateLoop (lock : LockId) (all : Bool) :
    List LockId → LfState → List LockId → LfState × List LockId
  | [], s, granted => (s, granted)
  | deplock :: rest, s, granted =>
    if all ∨ ¬ lfBlocks (s.entry lock) (s.entry deplock) then
      let s' := lfRemoveEdge s deplock lock
      if s'.lfOutedges deplock = [] then
        lfUpdateLoop lock all rest (lfWakeupLock s' deplock) (deplock :: granted)
      else lfUpdateLoop lock all rest s' granted
    else lfUpdateLoop lock all rest s granted

/-- `lf_update_dependancies`: the new state, and `granted` with the locks that were woken. -/
def lfUpdateDependancies (s : LfState) (lock : LockId) (all : Bool) (granted : List LockId) :
    LfState × List LockId :=
  lfUpdateLoop lock all (s.lfInedges lock) s granted

/-- The assignment of a new range to an entry. -/
def LfState.setRange (s : LfState) (lock : LockId) (lfStart lfEnd : ℕ) : LfState :=
  { s with entry := update s.entry lock { s.entry lock with lfStart := lfStart, lfEnd := lfEnd } }

/-- `lf_set_start`. -/
def lfSetStart (s : LfState) (lock : LockId) (newStart : ℕ) (granted : List LockId) :
    LfState × List LockId :=
  let s := s.setRange lock newStart (s.entry lock).lfEnd
  let s := lfInsertLock { s with lsActive := s.lsActive.erase lock } lock
  lfUpdateDependancies s lock false granted

/-- `lf_set_end`. -/
def lfSetEnd (s : LfState) (lock : LockId) (newEnd : ℕ) (granted : List LockId) :
    LfState × List LockId :=
  lfUpdateDependancies (s.setRange lock (s.entry lock).lfStart newEnd) lock false granted

/-- `lf_split`. -/
def lfSplit (s : LfState) (lock1 lock2 : LockId) (granted : List LockId) :
    LfState × List LockId :=
  let l1 := s.entry lock1
  let l2 := s.entry lock2
  if l1.lfStart = l2.lfStart then lfSetStart s lock1 (l2.lfEnd + 1) granted
  else if l1.lfEnd = l2.lfEnd then lfSetEnd s lock1 (l2.lfStart - 1) granted
  else
    let splitlock := s.nextLock
    -- the owner is there, so `lf_alloc_lock` only counts a reference
    let s : LfState :=
      { toLockfState := s.newLock { l1 with lfStart := l2.lfEnd + 1 }
        toOwnerTable := lfRefOwner s.toOwnerTable l1.lfOwner 0 0 }
    let s := (lfAddIncoming s splitlock).2
    let r := lfSetEnd s lock1 (l2.lfStart - 1) granted
    (lfInsertLock r.1 splitlock, r.2)

/-- The six cases of `lf_findoverlap`, and its panic. -/
inductive OvCase where
  | noOverlap
  | equal
  | overlapContains
  | lockContains
  | startsBefore
  | endsAfter
  | panic
  deriving DecidableEq, Repr

/-- How an overlapping lock lies to `lock`: the tests of `lf_findoverlap` from case 1 on. -/
def lfClassify (lf lock : LockfEntry) : OvCase :=
  if lf.lfStart = lock.lfStart ∧ lf.lfEnd = lock.lfEnd then .equal
  else if lf.lfStart ≤ lock.lfStart ∧ lf.lfEnd ≥ lock.lfEnd then .overlapContains
  else if lock.lfStart ≤ lf.lfStart ∧ lock.lfEnd ≥ lf.lfEnd then .lockContains
  else if lf.lfStart < lock.lfStart ∧ lf.lfEnd ≥ lock.lfStart then .startsBefore
  else if lf.lfStart > lock.lfStart ∧ lf.lfEnd > lock.lfEnd then .endsAfter
  else .panic

/-- `lf_findoverlap` with `SELF`.  The pointer `*overlap` into the active list is the rest of the
list from there. -/
def lfFindoverlap (entry : LockId → LockfEntry) (lock : LockfEntry) :
    List LockId → OvCase × List LockId
  | [] => (.noOverlap, [])
  | lf :: rest =>
    if (entry lf).lfStart > lock.lfEnd then (.noOverlap, lf :: rest)
    else if (entry lf).lfOwner ≠ lock.lfOwner then lfFindoverlap entry lock rest
    else if lock.lfStart > (entry lf).lfEnd then lfFindoverlap entry lock rest
    else (lfClassify (entry lf) lock, lf :: rest)

/-- `LIST_REMOVE(overlap)`, `lf_update_dependancies`, `lf_free_lock`. -/
def lfRemoveOverlap (s : LfState) (overlap : LockId) (granted : List LockId) :
    LfState × List LockId :=
  let r := lfUpdateDependancies { s with lsActive := s.lsActive.erase overlap } overlap true granted
  (r.1.freeLock overlap, r.2)

/-- The `for (;;)` loop of `lf_activate_lock` over the locks of the same owner.  The bound is the
number of times it may go round. -/
def lfOverlapLoop (lock : LockId) :
    ℕ → List LockId → LfState → List LockId → LfState × List LockId
  | 0, _, s, granted => (s, granted)
  | bound + 1, overlap, s, granted =>
    match lfFindoverlap s.entry (s.entry lock) overlap with
    | (.equal, lf :: _) => lfRemoveOverlap s lf granted
    | (.overlapContains, lf :: _) => lfSplit s lf lock granted
    | (.lockContains, lf :: rest) =>
      let r := lfRemoveOverlap s lf granted
      lfOverlapLoop lock bound rest r.1 r.2
    | (.startsBefore, lf :: rest) =>
      let r := lfSetEnd s lf ((s.entry lock).lfStart - 1) granted
      lfOverlapLoop lock bound rest r.1 r.2
    | (.endsAfter, lf :: _) => lfSetStart s lf ((s.entry lock).lfEnd + 1) granted
    | (_, _) => (s, granted)

/-- One round of the outer loop of `lf_activate_lock`, for the lock taken from `granted`. -/
def lfActivateOne (lock : LockId) (s : LfState) (granted : List LockId) : LfState × List LockId :=
  let r := lfOverlapLoop lock (s.lsActive.length + 1) s.lsActive s granted
  if (r.1.entry lock).lfType ≠ .unlck then (lfInsertLock r.1 lock, r.2) else r

/-- The outer loop of `lf_activate_lock`, with a bound on its rounds. -/
def lfActivateLoop : ℕ → LfState → List LockId → LfState × List LockId
  | 0, s, granted => (s, granted)
  | _ + 1, s, [] => (s, [])
  | bound + 1, s, lock :: granted =>
    let r := lfActivateOne lock s granted
    lfActivateLoop bound r.1 r.2

/-- `lf_activate_lock`.  A pending lock is granted at most once, so the rounds are bounded. -/
def lfActivateLock (s : LfState) (lock : LockId) : LfState :=
  (lfActivateLoop (s.lsPending.length + 1) s [lock]).1

/-- `lf_cancel_lock`. -/
def lfCancelLock (s : LfState) (lock : LockId) : LfState :=
  let s := lfRemoveOutgoing { s with lsPending := s.lsPending.erase lock } lock
  let r := lfUpdateDependancies s lock true []
  r.2.foldl lfActivateLock (r.1.freeLock lock)

/-! ## Requests on one file -/

/-- `lf_getblock`. -/
def lfGetblock (s : LfState) (lock : LockId) : Option LockId :=
  (s.lsActive.takeWhile fun overlap => (s.entry overlap).lfStart ≤ (s.entry lock).lfEnd).find?
    fun overlap => lfBlocks (s.entry lock) (s.entry overlap)

/-- What `lf_getlock` writes into the caller's `struct flock`: the blocking lock, or only the type
`F_UNLCK`. -/
inductive GetlkReply where
  | blocked (lType : LockType) (lStart lLen : ℕ) (lPid lSysid : ℤ)
  | unlocked
  deriving DecidableEq, Repr

/-- How a request ends: it returns, with a reply for `F_GETLK`, or `*cookiep` is set and it
returns `EINPROGRESS`, or its thread sleeps. -/
inductive LockReply where
  | done (error : Errno)
  | getlk (fl : GetlkReply)
  | inProgress (cookie : LockId)
  | sleep
  deriving DecidableEq, Repr

/-- The assignment of a new type to an entry. -/
def LfState.setType (s : LfState) (lock : LockId) (lfType : LockType) : LfState :=
  { s with entry := update s.entry lock { s.entry lock with lfType := lfType } }

/-- `lf_setlock` until it returns or sleeps. -/
def lfSetlock (s : LfState) (lock : LockId) : LockReply × LfState :=
  match lfGetblock s lock with
  | some _ =>
    if (s.entry lock).lfWait = false ∧ (s.entry lock).lfAsyncTask = false then
      (.done .EAGAIN, s.freeLock lock)
    else
      -- an exclusive `flock` first gives up the shared locks of its owner
      let s :=
        if (s.entry lock).lfFlock = true ∧ (s.entry lock).lfType = .wrlck then
          (lfActivateLock (s.setType lock .unlck) lock).setType lock .wrlck
        else s
      match lfAddOutgoing s lock with
      | (.ok, s') =>
        let s' := { s' with lsPending := lock :: s'.lsPending }
        if (s'.entry lock).lfWait = false then (.inProgress lock, s') else (.sleep, s')
      | (error, s') => (.done error, s'.freeLock lock)
  | none =>
    match lfAddIncoming s lock with
    | (.ok, s') => (.done .ok, lfActivateLock s' lock)
    | (error, s') => (.done error, s'.freeLock lock)

/-- `lf_clearlock`. -/
def lfClearlock (s : LfState) (unlock : LockId) : LfState :=
  if s.lsActive = [] then s else lfActivateLock s unlock

/-- `OFF_MAX`. -/
def offMax : ℕ := 2 ^ 63 - 1

/-- `lf_getlock`. -/
def lfGetlock (s : LfState) (lock : LockId) : GetlkReply :=
  match lfGetblock s lock with
  | some block =>
    let b := s.entry block
    let lo := (s.owners b.lfOwner).getD ⟨0, 0, 0⟩
    .blocked b.lfType b.lfStart (if b.lfEnd = offMax then 0 else b.lfEnd - b.lfStart + 1)
      lo.loPid lo.loSysid
  | none => .unlocked

/-- `lf_cancel`. -/
def lfCancel (s : LfState) (lock cookie : LockId) : Errno × LfState :=
  if cookie ∈ s.lsPending then
    let reallock := s.entry cookie
    if ¬ (reallock.lfVnode = (s.entry lock).lfVnode ∧
        reallock.lfStart = (s.entry lock).lfStart ∧ reallock.lfEnd = (s.entry lock).lfEnd) then
      (.ENOENT, s)
    else if reallock.lfAsyncTask = false then (.ENOENT, s)
    else (.ok, lfCancelLock s cookie)
  else (.ENOENT, s)

/-! ## Requests on the system -/

/-- `SEEK_SET`, `SEEK_CUR`, `SEEK_END`, and every other value. -/
inductive Whence where
  | seekSet
  | seekCur
  | seekEnd
  | other
  deriving DecidableEq, Repr

/-- `struct flock`; `l_start` and `l_len` are 64-bit offsets. -/
structure Flock where
  lWhence : Whence
  lStart : ℤ
  lLen : ℤ
  lType : LockType
  lPid : ℤ
  lSysid : ℤ
  lStart_le : lStart ≤ offMax
  lLen_le : lLen ≤ offMax

/-- The conversion of a `struct flock` into a first and a last byte in `lf_advlockasync`. -/
def lfRange (fl : Flock) (size : ℤ) : Except Errno (ℤ × ℤ) :=
  let start : Except Errno ℤ :=
    match fl.lWhence with
    | .seekSet | .seekCur => .ok fl.lStart
    | .seekEnd =>
      if size > offMax ∨ (fl.lStart > 0 ∧ size > offMax - fl.lStart) then .error .EOVERFLOW
      else .ok (size + fl.lStart)
    | .other => .error .EINVAL
  match start with
  | .error e => .error e
  | .ok start =>
    if start < 0 then .error .EINVAL
    else if fl.lLen < 0 then
      if start = 0 then .error .EINVAL
      else if start + fl.lLen < 0 then .error .EINVAL
      else .ok (start + fl.lLen, start - 1)
    else if fl.lLen = 0 then .ok (start, offMax)
    else if fl.lLen - 1 > offMax - start then .error .EOVERFLOW
    else .ok (start, start + (fl.lLen - 1))

/-- The operation `a_op` of a request. -/
inductive AdvOp where
  | setlk
  | unlck
  | getlk
  | cancel (cookie : Option LockId)
  deriving DecidableEq, Repr

/-- `struct vop_advlockasync_args`; `aId` is the owner that `lf_owner_matches` finds for the
request, or that it will get. -/
structure AdvlockArgs where
  aVp : VnodeId
  aId : OwnerId
  aOp : AdvOp
  aFl : Flock
  aWait : Bool
  aFlock : Bool
  aTask : Bool

/-- All lock states: `lf_lock_states`, the state that each vnode on that list points to, and the
owners. -/
structure LockSystem extends OwnerTable where
  lockStates : List VnodeId
  state : VnodeId → LockfState

/-- `lf_init`. -/
def lfInit : LockSystem where
  owners := fun _ => none
  graph := graphInit
  lockStates := []
  state := fun _ => LockfState.empty

/-- The operation on the file's state, once `lock` is allocated. -/
def lfDoOp (s : LfState) (lock : LockId) (aOp : AdvOp) : LockReply × LfState :=
  match aOp with
  | .setlk => lfSetlock s lock
  | .unlck => (.done .ok, (lfClearlock s lock).freeLock lock)
  | .getlk => (.getlk (lfGetlock s lock), s.freeLock lock)
  | .cancel (some cookie) =>
    let r := lfCancel s lock cookie
    (.done r.1, r.2.freeLock lock)
  | .cancel none => (.done .EINVAL, s.freeLock lock)

/-- The end of a request: the state of a file without active locks is freed.  No lock is pending
then, so no other thread is in the file. -/
def LockSystem.leave (sys : LockSystem) (vp : VnodeId) (s : LfState) : LockSystem where
  toOwnerTable := s.toOwnerTable
  lockStates := if s.lsActive = [] then sys.lockStates.erase vp else sys.lockStates
  state := update sys.state vp s.toLockfState

/-- The state of a file, created when there is none. -/
def LockSystem.enter (sys : LockSystem) (vp : VnodeId) : LockSystem :=
  if vp ∈ sys.lockStates then sys
  else
    { sys with
      lockStates := vp :: sys.lockStates
      state := update sys.state vp LockfState.empty }

/-- `lf_advlockasync`; `doomed` is the flag `VI_DOOMED` of the vnode. -/
def lfAdvlockasync (sys : LockSystem) (ap : AdvlockArgs) (size : ℤ) (doomed : Bool) :
    LockReply × LockSystem :=
  match lfRange ap.aFl size with
  | .error e => (.done e, sys)
  | .ok (start, last) =>
    if ap.aVp ∉ sys.lockStates ∧ ap.aOp ≠ .setlk then
      (if ap.aOp = .getlk then .getlk .unlocked else .done .ok, sys)
    else
      let lock : LockfEntry :=
        { lfStart := start.toNat
          lfEnd := last.toNat
          lfType := ap.aFl.lType
          lfOwner := ap.aId
          lfVnode := ap.aVp
          lfWait := ap.aWait
          lfFlock := ap.aFlock
          lfAsyncTask := ap.aTask }
      let t := lfRefOwner sys.toOwnerTable ap.aId ap.aFl.lPid ap.aFl.lSysid
      if doomed then (.done .ENOENT, { sys with toOwnerTable := lfFreeLock t lock })
      else
        let sys := { sys with toOwnerTable := t }.enter ap.aVp
        let ls := sys.state ap.aVp
        let r := lfDoOp ⟨ls.newLock lock, t⟩ ls.nextLock ap.aOp
        (r.1, sys.leave ap.aVp r.2)

/-- A sleeping request of the file is interrupted: the part of `lf_setlock` behind `sx_sleep`, and
the end of its `lf_advlockasync`.  A lock that was granted before is not pending any more and is
left alone. -/
def lfInterrupt (sys : LockSystem) (vp : VnodeId) (lock : LockId) : LockSystem :=
  let ls := sys.state vp
  if vp ∈ sys.lockStates ∧ lock ∈ ls.lsPending ∧ (ls.entry lock).lfAsyncTask = false then
    sys.leave vp (lfCancelLock ⟨ls, sys.toOwnerTable⟩ lock)
  else sys

/-- The first loop of `lf_purgelocks`, and the sleeping threads it wakes: each lock is unlinked,
its edges are removed, and it is freed, here or by its own thread. -/
def lfPurgePending (s : LfState) (lock : LockId) : LfState :=
  let s := { s with lsPending := s.lsPending.erase lock }
  (lfRemoveIncoming (lfRemoveOutgoing s lock) lock).freeLock lock

/-- `lf_purgelocks`.  The second loop, which is there for the active locks, goes over `ls_pending`
as well. -/
def lfPurgelocks (sys : LockSystem) (vp : VnodeId) : LockSystem :=
  if vp ∈ sys.lockStates then
    let s : LfState := ⟨sys.state vp, sys.toOwnerTable⟩
    let s := s.lsPending.foldl lfPurgePending s
    let s := s.lsPending.foldl
      (fun s lock => { s with lsPending := s.lsPending.erase lock }.freeLock lock) s
    { sys with toOwnerTable := s.toOwnerTable, lockStates := sys.lockStates.erase vp }
  else sys

end FreeBSDSys.Lockf
