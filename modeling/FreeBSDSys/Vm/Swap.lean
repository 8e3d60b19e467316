import FreeBSDSys.Kern.BlistFill

/-!
# The swap devices

A model of the accounting of swap space in `vm/swap_pager.c`.  A device has a bitmap allocator
(`Kern/Blist`) for its pages; its pages have the numbers from `sw_first` up to `sw_end` in one
address space for all devices.  A pointer to a device is its number `swId`, `NULL` being `none`;
`swtailq` is the list of the devices.

`swaponsomething` gets the size in sectors and the memory for the new records.  `swapoff_one` is cut
where it gives up the lock: `swapoffClose` is the part that marks the device and fills its bitmap,
`swapoffRemove` the part behind `swap_pager_swapoff`, which returns once `sw_used` is 0.
-/

namespace FreeBSDSys.Swap

open Blst

/-- `dmmax`, which is `SWB_NPAGES * 2`. -/
def dmmax : ℕ := 16 * 2

/-- The number of sectors of a page, `ctodb(1)`. -/
def ctodb1 : ℕ := 8

/-- `struct swdevt`. -/
structure Swdevt where
  swId : ℕ
  swNblks : ℕ
  swFirst : ℕ
  swEnd : ℕ
  swUsed : ℤ
  /-- The flag `SW_CLOSING` -/
  swClosing : Bool
  swBlist : Blist

/-- The state under `sw_dev_mtx`. -/
structure Pager where
  swtailq : List Swdevt
  swdevhd : Option ℕ
  nswapdev : ℕ
  swapPagerAvail : ℤ

/-- The ways in which the functions fail. -/
inductive SwPanic where
  | blist (e : BlPanic)
  /-- Text: "Swapdev not found" -/
  | noSwapdev
  /-- A null pointer is followed -/
  | nullPointer
  /-- An arithmetic operation of C without a defined result -/
  | undefined
  deriving DecidableEq, Repr

/-! ## Lists of devices -/

/-- The device behind a pointer. -/
def device (l : List Swdevt) (id : ℕ) : Option Swdevt := l.find? fun d => d.swId = id

/-- Assignment to a device. -/
def setDevice (l : List Swdevt) (d : Swdevt) : List Swdevt :=
  l.map fun e => if e.swId = d.swId then d else e

/-- `TAILQ_NEXT`. -/
def tailqNext : List Swdevt → ℕ → Option ℕ
  | [], _ => none
  | d :: rest, id => if d.swId = id then rest.head?.map Swdevt.swId else tailqNext rest id

/-- `TAILQ_FIRST`. -/
def tailqFirst (l : List Swdevt) : Option ℕ := l.head?.map Swdevt.swId

/-! ## Adding a device -/

/-- The call `blist_free(sp->sw_blist, 2, nblks - 2)`.  On a device of one page `count` is `-1`: the
two shifts of `blst_leaf_free` are by 2 and by 31 and leave no bit.  On a device of no page the
second shift is by 32, which has no defined result. -/
def freeBehindLabel (bl : Blist) : ℕ → Except SwPanic Blist
  | 0 => .error .undefined
  | 1 =>
    let mask := (BitVec.allOnes 32 <<< 2) &&& (BitVec.allOnes 32 >>> (blistBmapRadix + 1 - 2))
    if (bl.blRoot.node 0).bmuBitmap &&& mask ≠ 0 then .error (.blist .freeingFreeBlock)
    else
      .ok { bl with
        blRoot := (bl.blRoot.setBitmap 0 ((bl.blRoot.node 0).bmuBitmap ||| mask)).setBighint 0
          blistBmapRadix
        blFree := bl.blFree - 1 }
  | nblks + 2 =>
    match blistFree bl 2 nblks with
    | .error e => .error (.blist e)
    | .ok bl => .ok bl

/-- The number of pages of a device of `nblks` sectors. -/
def pages (nblks : ℕ) : ℕ :=
  let mblocks := 0x40000000 / blistMetaRadix
  let nblks := if nblks > mblocks then mblocks else nblks
  nblks / ctodb1

/-- The loop of `swaponsomething` that finds the first page number behind all devices. -/
def dvbase (l : List Swdevt) : ℕ :=
  l.foldl (fun base tsp => if tsp.swEnd ≥ base then tsp.swEnd + 1 else base) 0

/-- `swaponsomething`; `id` is the address of the new device, `mem` the memory of its bitmap. -/
def swaponsomething (p : Pager) (id nblks : ℕ) (mem : BlTree) : Except SwPanic Pager :=
  let nblks := pages nblks
  match blistCreate nblks mem with
  | none => .error .undefined
  | some bl =>
    match freeBehindLabel bl nblks with
    | .error e => .error e
    | .ok bl =>
      let sp : Swdevt :=
        { swId := id
          swNblks := nblks
          swFirst := dvbase p.swtailq
          swEnd := dvbase p.swtailq + nblks
          swUsed := 0
          swClosing := false
          swBlist := bl }
      .ok { p with
        swtailq := p.swtailq ++ [sp]
        nswapdev := p.nswapdev + 1
        swapPagerAvail := p.swapPagerAvail + nblks }

/-! ## Allocating and freeing -/

/-- The loop of `swp_pager_getswapspace` over the devices; the first argument counts the rounds that
are left. -/
def getswapspaceLoop (npages : ℕ) : ℕ → Option ℕ → Pager → Except SwPanic (Option ℕ × Pager)
  | 0, _, p => .ok (none, { p with swdevhd := none })
  | left + 1, sp, p =>
    match (sp <|> tailqFirst p.swtailq).bind (device p.swtailq) with
    | none => .error .nullPointer
    | some d =>
      let next := tailqNext p.swtailq d.swId
      if d.swClosing then getswapspaceLoop npages left next p
      else
        match blistAlloc d.swBlist npages with
        | .error e => .error (.blist e)
        | .ok (some blk, bl) =>
          .ok (some (blk + d.swFirst),
            { p with
              swtailq := setDevice p.swtailq { d with swBlist := bl, swUsed := d.swUsed + npages }
              swapPagerAvail := p.swapPagerAvail - npages
              swdevhd := next })
        | .ok (none, bl) =>
          getswapspaceLoop npages left next
            { p with swtailq := setDevice p.swtailq { d with swBlist := bl } }

/-- `swp_pager_getswapspace`. -/
def swpPagerGetswapspace (p : Pager) (npages : ℕ) : Except SwPanic (Option ℕ × Pager) :=
  getswapspaceLoop npages p.nswapdev p.swdevhd p

/-- `swp_pager_isondev`. -/
def swpPagerIsondev (blk : ℕ) (sp : Swdevt) : Bool := blk ≥ sp.swFirst && blk < sp.swEnd

/-- `swp_pager_freeswapspace`. -/
def swpPagerFreeswapspace (p : Pager) (blk npages : ℕ) : Except SwPanic Pager :=
  match p.swtailq.find? (swpPagerIsondev blk) with
  | none => .error .noSwapdev
  | some d =>
    let d := { d with swUsed := d.swUsed - npages }
    if d.swClosing then .ok { p with swtailq := setDevice p.swtailq d }
    else
      match blistFree d.swBlist (blk - d.swFirst) npages with
      | .error e => .error (.blist e)
      | .ok bl =>
        .ok { p with
          swtailq := setDevice p.swtailq { d with swBlist := bl }
          swapPagerAvail := p.swapPagerAvail + npages }

/-! ## Removing a device -/

/-- The values of `dvbase` for which the loop of `swapoff_one` calls `blist_fill`. -/
def fillCalls (sp : Swdevt) : List ℕ := List.range' 0 ((sp.swEnd + (dmmax - 1)) / dmmax) dmmax

/-- The loop of `swapoff_one`; it returns the bitmap and `swap_pager_avail`. -/
def fillLoop : List ℕ → Blist → ℤ → Except BlPanic (Blist × ℤ)
  | [], bl, avail => .ok (bl, avail)
  | dvbase :: rest, bl, avail =>
    match blistFill bl dvbase dmmax with
    | .error e => .error e
    | .ok (filled, bl) => fillLoop rest bl (avail - filled)

/-- The part of `swapoff_one` that prevents further allocations. -/
def swapoffClose (p : Pager) (id : ℕ) : Except SwPanic Pager :=
  match device p.swtailq id with
  | none => .error .nullPointer
  | some d =>
    match fillLoop (fillCalls d) d.swBlist p.swapPagerAvail with
    | .error e => .error (.blist e)
    | .ok (bl, avail) =>
      .ok { p with
        swtailq := setDevice p.swtailq { d with swClosing := true, swBlist := bl }
        swapPagerAvail := avail }

/-- The part of `swapoff_one` that takes the device out of the list. -/
def swapoffRemove (p : Pager) (id : ℕ) : Pager :=
  { p with
    swtailq := p.swtailq.filter fun d => d.swId ≠ id
    nswapdev := p.nswapdev - 1
    swdevhd := if p.swdevhd = some id then none else p.swdevhd }

end FreeBSDSys.Swap
