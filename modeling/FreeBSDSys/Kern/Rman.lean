import Mathlib

/-!
# The resource manager

A model of `kern/subr_rman.c`.  A manager keeps the regions it was given in the list `rm_list`,
sorted by address.  A region is free, reserved by one client, or reserved by several clients that
share it; a reservation splits a region, and a release merges it with its free neighbours.

`u_long` has 64 bits.  Of the clients that share a region one is on `rm_list`, and all of them are
on a sharing list.  Here an element of the list is the record on `rm_list` together with the other
records of its sharing list in their order; `r_sharehead` is `NULL` when there are none.  The place
of an element is given by the elements to its left, nearest first, and to its right.  Whether an
allocation with `M_NOWAIT` succeeds is an argument.  `r_dev` and `r_rm` are left out, since they
are only stored.
-/

namespace FreeBSDSys.Rman

abbrev ULong := BitVec 64

/-- `ULONG_MAX`. -/
def ulongMax : ULong := BitVec.allOnes 64

/-- `ulmax`. -/
def ulmax (a b : ULong) : ULong := if a > b then a else b

/-- `ulmin`. -/
def ulmin (a b : ULong) : ULong := if a < b then a else b

/-! ## Flags -/

def rfAllocated : BitVec 32 := 0x0001
def rfActive : BitVec 32 := 0x0002
def rfShareable : BitVec 32 := 0x0004
def rfTimeshare : BitVec 32 := 0x0008
def rfWanted : BitVec 32 := 0x0010
def rfFirstshare : BitVec 32 := 0x0020
def rfAlignmentMask : BitVec 32 := 0xfc00

/-- `RF_SHAREABLE | RF_TIMESHARE`. -/
def rfShare : BitVec 32 := rfShareable ||| rfTimeshare

/-- `RF_ALIGNMENT`. -/
def rfAlignment (flags : BitVec 32) : ℕ := ((flags &&& rfAlignmentMask) >>> 10).toNat

/-- The test `flags & mask`. -/
def has (flags mask : BitVec 32) : Bool := flags &&& mask != 0

/-! ## Records and regions -/

/-- `struct resource_i`.  The member `req` is not in the source: it keeps the flags of the call
that made the reservation. -/
structure ResourceI where
  rStart : ULong
  rEnd : ULong
  rFlags : BitVec 32
  req : BitVec 32
  deriving DecidableEq, Repr

/-- A record on `rm_list`, with the other records of its sharing list. -/
structure Region where
  main : ResourceI
  others : List ResourceI
  deriving DecidableEq, Repr

/-- A place on `rm_list`. -/
structure Place where
  left : List Region
  here : Region
  right : List Region
  deriving DecidableEq, Repr

/-- The list around a place. -/
def Place.regions (p : Place) : List Region := p.left.reverse ++ p.here :: p.right

namespace Region

variable (s : Region)

def setStart (x : ULong) : Region := { s with main := { s.main with rStart := x } }

def setEnd (x : ULong) : Region := { s with main := { s.main with rEnd := x } }

def setFlags (x : BitVec 32) : Region := { s with main := { s.main with rFlags := x } }

end Region

/-! ## `rman_manage_region` -/

/-- The test whether two records overlap. -/
def overlaps (r s : ResourceI) : Bool := r.rStart ≤ s.rEnd && r.rEnd ≥ s.rStart

/-- The region `r` is merged with `s`, or put behind or before it. -/
def manageBeside (r : ResourceI) (s : Region) (rest : List Region) : List Region :=
  if s.main.rEnd + 1 = r.rStart ∧ s.main.rFlags = 0 then s.setEnd r.rEnd :: rest
  else if s.main.rEnd < r.rStart then s :: ⟨r, []⟩ :: rest
  else ⟨r, []⟩ :: s :: rest

/-- The region `r` at the first region `s` that does not lie before it, `none` for `EBUSY`. -/
def manageAt (r : ResourceI) (s : Region) (rest : List Region) : Option (List Region) :=
  if overlaps r s.main then none
  else
    match rest with
    | [] => some (manageBeside r s [])
    | t :: rest' =>
        if overlaps r t.main then none
        else if r.rEnd + 1 ≠ t.main.rStart ∨ t.main.rFlags ≠ 0 then some (manageBeside r s rest)
        else if s.main.rEnd + 1 = r.rStart ∧ s.main.rFlags = 0 then
          some (s.setEnd t.main.rEnd :: rest')
        else some (s :: t.setStart r.rStart :: rest')

/-- The walk over `rm_list`. -/
def manageWalk (r : ResourceI) : List Region → Option (List Region)
  | [] => some [⟨r, []⟩]
  | s :: rest =>
      if s.main.rEnd = ulongMax ∨ s.main.rEnd + 1 ≥ r.rStart then manageAt r s rest
      else (manageWalk r rest).map (s :: ·)

/-- The results of `rman_manage_region`. -/
inductive ManageResult where
  /-- Zero. -/
  | done (regions : List Region)
  | enomem
  /-- The list is as it was, and the mutex is still held. -/
  | ebusy
  deriving DecidableEq, Repr

/-- `rman_manage_region`. -/
def rmanManageRegion (mem : Bool) (rm : List Region) (start stop : ULong) : ManageResult :=
  if !mem then .enomem
  else
    match manageWalk ⟨start, stop, 0, 0⟩ rm with
    | some rm' => .done rm'
    | none => .ebusy

/-! ## `rman_reserve_resource_bound` -/

/-- The arguments of a call, with the allocations that succeed. -/
structure Request where
  start : ULong
  stop : ULong
  count : ULong
  bound : ULong
  flags : BitVec 32
  mem₁ : Bool
  mem₂ : Bool
  deriving DecidableEq, Repr

namespace Request

variable (q : Request)

/-- The flags without `RF_ACTIVE`. -/
def keep : BitVec 32 := q.flags &&& ~~~rfActive

/-- `amask`. -/
def amask : ULong := ((1 : ULong) <<< rfAlignment q.keep) - 1

/-- `bmask`. -/
def bmask : ULong := ~~~(q.bound - 1)

/-- One round of the adjustment to alignment and boundary. -/
def adjustOnce (rstart : ULong) : ULong :=
  let rstart := (rstart + q.amask) &&& ~~~q.amask
  if (rstart ^^^ (rstart + q.count - 1)) &&& q.bmask ≠ 0 then
    rstart + (q.bound - (rstart &&& ~~~q.bmask))
  else rstart

/-- The loop around it, `none` when `fuel` rounds are not enough. -/
def adjust (s : ResourceI) : ℕ → ULong → Option ULong
  | 0, _ => none
  | fuel + 1, rstart =>
      let rstart := q.adjustOnce rstart
      if rstart &&& q.amask ≠ 0 ∧ rstart < q.stop ∧ rstart < s.rEnd then adjust s fuel rstart
      else some rstart

/-- The record of a new reservation. -/
def record (rstart : ULong) : ResourceI :=
  ⟨rstart, rstart + q.count - 1, q.keep ||| rfAllocated, q.flags⟩

/-- What the search for a region ends with. -/
inductive Search where
  | found (p : Place)
  /-- `goto out` with `rv == NULL`. -/
  | failed
  /-- No region of the list will do. -/
  | exhausted
  /-- The adjustment did not end. -/
  | hangs
  deriving DecidableEq, Repr

/-- The candidate `s` is taken as a whole or split around the new reservation. -/
def take (left : List Region) (s : Region) (right : List Region) (rstart : ULong) : Search :=
  let rv := q.record rstart
  if s.main.rEnd - s.main.rStart + 1 = q.count then
    .found ⟨left, ⟨{ s.main with
      rFlags := s.main.rFlags ||| (rfAllocated ||| q.keep), req := q.flags }, s.others⟩, right⟩
  else if !q.mem₁ then .failed
  else if s.main.rStart < rv.rStart ∧ s.main.rEnd > rv.rEnd then
    if !q.mem₂ then .failed
    else
      .found ⟨s.setEnd (rv.rStart - 1) :: left, ⟨rv, []⟩,
        ⟨⟨rv.rEnd + 1, s.main.rEnd, s.main.rFlags, 0⟩, []⟩ :: right⟩
  else if s.main.rStart = rv.rStart then .found ⟨left, ⟨rv, []⟩, s.setStart (rv.rEnd + 1) :: right⟩
  else .found ⟨s.setEnd (rv.rStart - 1) :: left, ⟨rv, []⟩, right⟩

/-- The first loop: an unshared region. -/
def firstFit (fuel : ℕ) (left : List Region) : List Region → Search
  | [] => .exhausted
  | s :: right =>
      if s.main.rStart + q.count - 1 > q.stop then .exhausted
      else if has s.main.rFlags rfAllocated then firstFit fuel (s :: left) right
      else
        match q.adjust s.main fuel (ulmax s.main.rStart q.start) with
        | none => .hangs
        | some rstart =>
            let rend := ulmin s.main.rEnd (ulmax (rstart + q.count - 1) q.stop)
            if rstart > rend then firstFit fuel (s :: left) right
            else if rend - rstart + 1 ≥ q.count then q.take left s right rstart
            else firstFit fuel (s :: left) right

/-- The test for a region that can be shared. -/
def fits (s : ResourceI) : Bool :=
  s.rStart ≥ q.start && s.rEnd ≤ q.stop && s.rEnd - s.rStart + 1 == q.count &&
    s.rStart &&& q.amask == 0 && (s.rStart ^^^ s.rEnd) &&& q.bmask == 0

/-- The client joins the sharing list of `s`, as its first member. -/
def join (s : Region) : Region :=
  let rv : ResourceI := ⟨s.main.rStart, s.main.rEnd,
    s.main.rFlags &&& (rfAllocated ||| rfShareable ||| rfTimeshare), q.flags⟩
  if s.others.isEmpty then ⟨{ s.main with rFlags := s.main.rFlags ||| rfFirstshare }, [rv]⟩
  else ⟨s.main, rv :: s.others⟩

/-- The second loop: a region to share. -/
def shareFit (left : List Region) : List Region → Search
  | [] => .exhausted
  | s :: right =>
      if s.main.rStart > q.stop then .exhausted
      else if s.main.rFlags &&& q.keep ≠ q.keep then shareFit (s :: left) right
      else if q.fits s.main then
        if !q.mem₁ || s.others.isEmpty && !q.mem₂ then .failed
        else .found ⟨left, q.join s, right⟩
      else shareFit (s :: left) right

end Request

/-! ## Activation -/

/-- `int_rman_activate_resource` for the record `r` with the other records of its sharing list,
`none` for `EBUSY`. -/
def intRmanActivateResource (r : ResourceI) (others : List ResourceI) : Option ResourceI :=
  if !has r.rFlags rfTimeshare || has r.rFlags rfActive || others.isEmpty then
    some { r with rFlags := r.rFlags ||| rfActive }
  else if others.any (fun s => has s.rFlags rfActive) then none
  else some { r with rFlags := r.rFlags ||| rfActive }

/-- `int_rman_deactivate_resource`. -/
def intRmanDeactivateResource (r : ResourceI) : ResourceI :=
  if has (r.rFlags &&& ~~~rfActive) rfWanted then
    { r with rFlags := (r.rFlags &&& ~~~rfActive) &&& ~~~rfWanted }
  else { r with rFlags := r.rFlags &&& ~~~rfActive }

/-! ## `int_rman_release_resource` -/

/-- A neighbour that the released region can be merged with. -/
def mergeable (s : Region) (adjacent : Bool) : Bool := !has s.main.rFlags rfAllocated && adjacent

/-- The release of a region that is not shared. -/
def releaseAlone (p : Place) : List Region :=
  let r := p.here
  let back (s : Region) : Bool := mergeable s (s.main.rEnd + 1 == r.main.rStart)
  let next (t : Region) : Bool := mergeable t (r.main.rEnd + 1 == t.main.rStart)
  match p.left.head?.filter back, p.right.head?.filter next with
  | some s, some t => p.left.tail.reverse ++ s.setEnd t.main.rEnd :: p.right.tail
  | some s, none => p.left.tail.reverse ++ s.setEnd r.main.rEnd :: p.right
  | none, some t => p.left.reverse ++ t.setStart r.main.rStart :: p.right.tail
  | none, none => p.left.reverse ++ r.setFlags (r.main.rFlags &&& ~~~rfAllocated) :: p.right

/-- The region after a record has left its sharing list: the list goes away when one is left. -/
def dissolve (s : Region) : Region :=
  if s.others.isEmpty then s.setFlags (s.main.rFlags &&& ~~~rfFirstshare) else s

/-- The release of the record on `rm_list`.  `none` when a record would be freed that is still on
the list. -/
def releaseMain (p : Place) : Option (List Region) :=
  let r := if has p.here.main.rFlags rfActive then intRmanDeactivateResource p.here.main
    else p.here.main
  match p.here.others with
  | [] => some (releaseAlone { p with here := ⟨r, []⟩ })
  | s :: others =>
      if has r.rFlags rfFirstshare then
        let s : ResourceI := { s with rFlags := s.rFlags ||| rfFirstshare }
        some (p.left.reverse ++ dissolve ⟨s, others⟩ :: p.right)
      else none

/-- The release of the record `r` between the records `before` and `after` of a sharing list.
`none` when the code would take it for the record on `rm_list`. -/
def releaseOther (main : ResourceI) (before : List ResourceI) (r : ResourceI)
    (after : List ResourceI) : Option Region :=
  let r := if has r.rFlags rfActive then intRmanDeactivateResource r else r
  if has r.rFlags rfFirstshare then none
  else some (dissolve ⟨main, before ++ after⟩)

/-! ## The calls -/

/-- The results of `rman_reserve_resource_bound`. -/
inductive ReserveResult where
  | granted (rv : ResourceI) (regions : List Region)
  /-- `NULL`. -/
  | refused (regions : List Region)
  | hangs
  /-- A record of the list was freed. -/
  | corrupted
  deriving DecidableEq, Repr

/-- The end of the call for a reservation that is the record on `rm_list`. -/
def Request.outMain (q : Request) (p : Place) : ReserveResult :=
  if has q.flags rfActive then
    match intRmanActivateResource p.here.main p.here.others with
    | some rv => .granted rv { p with here := { p.here with main := rv } }.regions
    | none =>
        match releaseMain p with
        | some regions => .refused regions
        | none => .corrupted
  else .granted p.here.main p.regions

/-- The end of the call for a reservation that is the first of the others on a sharing list. -/
def Request.outShared (q : Request) (p : Place) : ReserveResult :=
  match p.here.others with
  | [] => .refused p.regions
  | rv :: others =>
      if has q.flags rfActive then
        match intRmanActivateResource rv (p.here.main :: others) with
        | some rv => .granted rv { p with here := { p.here with others := rv :: others } }.regions
        | none =>
            match releaseOther p.here.main [] rv others with
            | some s => .refused { p with here := s }.regions
            | none => .corrupted
      else .granted rv p.regions

/-- The regions that end before the start of the request, nearest first, and the others. -/
def skipBelow (start : ULong) (left : List Region) : List Region → List Region × List Region
  | [] => (left, [])
  | r :: right =>
      if r.main.rEnd < start then skipBelow start (r :: left) right else (left, r :: right)

/-- `rman_reserve_resource_bound`. -/
def rmanReserveResourceBound (fuel : ℕ) (rm : List Region) (q : Request) : ReserveResult :=
  let (left, right) := skipBelow q.start [] rm
  match q.firstFit fuel left right with
  | .found p => q.outMain p
  | .failed => .refused rm
  | .hangs => .hangs
  | .exhausted =>
      if has q.keep rfShare then
        match q.shareFit left right with
        | .found p => q.outShared p
        | _ => .refused rm
      else .refused rm

end FreeBSDSys.Rman
