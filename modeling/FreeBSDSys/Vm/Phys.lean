import FreeBSDSys.Lib.Buddy

/-!
# The physical page allocator

`vm_phys.c` keeps the free physical pages in queues of blocks of `2 ^ order` pages, one queue for
each free list, pool and order.  This file embeds its operations.

Pages are named by their frame number: the physical address divided by the page size.  Within a
segment this is also the distance of page structures from each other, so that `m[1 << order]` is `m
+ 2 ^ order`.  The fields `segind` and `phys_addr` of a page are set by `vm_phys_add_page` to the
segment found by `vm_phys_paddr_to_segind` and to the address, and never change; here they are
functions of the frame number.  Of the other fields only `order` and `pool` are used by the
allocator.

* `Phys`: segments, page fields and free queues.
* `vmPhysInit`, `vmPhysAddPage`, `vmPhysAllocPages`, `vmPhysFreePages`, `vmPhysUnfreePage`,
  `vmPhysAllocContig`: the operations.

The values are those of the amd64 port; its segments are cut at 16 MB for the sake of ISA DMA.
-/

namespace FreeBSDSys.VmPhys

open Buddy (buddy base)

def vmNfreeorder : ℕ := 13
def vmNfreepool : ℕ := 3
def vmFreepoolDefault : ℕ := 0
def vmFreelistDefault : ℕ := 0
def vmFreelistIsadma : ℕ := 1
def pageShift : ℕ := 12

/-! ## State -/

/-- `struct vm_phys_seg`, with `start` and `end` as frame numbers. -/
structure Seg where
  start : ℕ
  stop : ℕ
  flind : ℕ
  deriving DecidableEq, Repr

def Seg.Contains (seg : Seg) (p : ℕ) : Prop := seg.start ≤ p ∧ p < seg.stop

instance (seg : Seg) (p : ℕ) : Decidable (seg.Contains p) :=
  inferInstanceAs (Decidable (_ ∧ _))

/-- `struct vm_freelist`: the blocks of one order, by their first pages, and their number. -/
structure Freelist where
  pl : List ℕ
  lcnt : ℤ
  deriving DecidableEq, Repr

/-- The state of the allocator. -/
structure Phys where
  segs : List Seg
  nfreelists : ℕ
  order : ℕ → ℕ
  pool : ℕ → ℕ
  /-- `vm_phys_free_queues[flind][pool][oind]`. -/
  queues : ℕ → ℕ → ℕ → Freelist

namespace Phys

variable (s : Phys)

/-- `vm_phys_paddr_to_segind`; the source panics where this is `none`. -/
def segOf (p : ℕ) : Option Seg :=
  s.segs.find? fun seg => seg.Contains p

def setOrder (p o : ℕ) : Phys := { s with order := Function.update s.order p o }

def setQueue (flind pool oind : ℕ) (f : Freelist → Freelist) : Phys :=
  { s with queues := fun fl pl o =>
      if fl = flind ∧ pl = pool ∧ o = oind then f (s.queues fl pl o) else s.queues fl pl o }

/-- `m->order = oind; TAILQ_INSERT_HEAD(&fl[oind].pl, m, pageq); fl[oind].lcnt++`, where `fl` is the
row of queues of a free list and a pool. -/
def insertHead (flind pool oind m : ℕ) : Phys :=
  (s.setOrder m oind).setQueue flind pool oind fun q => ⟨m :: q.pl, q.lcnt + 1⟩

/-- The same with `TAILQ_INSERT_TAIL`. -/
def insertTail (flind pool oind m : ℕ) : Phys :=
  (s.setOrder m oind).setQueue flind pool oind fun q => ⟨q.pl ++ [m], q.lcnt + 1⟩

/-- `TAILQ_REMOVE(&fl[oind].pl, m, pageq); fl[oind].lcnt--; m->order = VM_NFREEORDER`. -/
def remove (flind pool oind m : ℕ) : Phys :=
  (s.setQueue flind pool oind fun q => ⟨q.pl.erase m, q.lcnt - 1⟩).setOrder m vmNfreeorder

/-- `vm_phys_set_pool`. -/
def vmPhysSetPool (pool m order : ℕ) : Phys :=
  { s with pool := fun p => if m ≤ p ∧ p < m + 2 ^ order then pool else s.pool p }

end Phys

/-! ## Initialisation -/

/-- The segments `vm_phys_init` makes of one entry of `phys_avail`. -/
def createSegs (avail : ℕ × ℕ) : List Seg :=
  if avail.1 < 4096 then
    if avail.2 > 4096 then
      [⟨avail.1, 4096, vmFreelistIsadma⟩, ⟨4096, avail.2, vmFreelistDefault⟩]
    else
      [⟨avail.1, avail.2, vmFreelistIsadma⟩]
  else
    [⟨avail.1, avail.2, vmFreelistDefault⟩]

/-- `vm_phys_init` on `phys_avail`, given as pairs of frame numbers.  The page structures have been
set up before: all orders are `VM_NFREEORDER`. -/
def vmPhysInit (physAvail : List (ℕ × ℕ)) : Phys where
  segs := physAvail.flatMap createSegs
  nfreelists := if physAvail.any fun avail => avail.1 < 4096 then vmFreelistIsadma + 1
    else vmFreelistDefault + 1
  order _ := vmNfreeorder
  pool _ := vmFreepoolDefault
  queues _ _ _ := ⟨[], 0⟩

namespace Phys

variable (s : Phys)

/-! ## Splitting and freeing -/

/-- `vm_phys_split_pages`; `fl` is the row of queues of `flind` and `pool`. -/
def vmPhysSplitPages (m flind pool order : ℕ) : ℕ → Phys → Phys
  | 0, s => s
  | oind + 1, s =>
    if oind + 1 > order then
      vmPhysSplitPages m flind pool order oind (s.insertHead flind pool oind (m + 2 ^ oind))
    else
      s

/-- The loop of `vm_phys_free_pages` for the block at `m`; the first argument is the number of
orders left below the largest. -/
def freeLoop (seg : Seg) : ℕ → ℕ → ℕ → Phys → Phys
  | 0, m, order, s => s.insertTail seg.flind (s.pool m) order m
  | n + 1, m, order, s =>
    let mBuddy := buddy m order
    if ¬ seg.Contains mBuddy then
      s.insertTail seg.flind (s.pool m) order m
    else if s.order mBuddy ≠ order then
      s.insertTail seg.flind (s.pool m) order m
    else
      let s' := s.remove seg.flind (s.pool mBuddy) (s.order mBuddy) mBuddy
      let s' := if s'.pool mBuddy ≠ s'.pool m then s'.vmPhysSetPool (s'.pool m) mBuddy order else s'
      freeLoop seg n (base m (order + 1)) (order + 1) s'

/-- `vm_phys_free_pages`.  It is called for pages that were added, which lie in a segment. -/
def vmPhysFreePages (m order : ℕ) : Phys :=
  match s.segOf m with
  | none => s
  | some seg => freeLoop seg (vmNfreeorder - 1 - order) m order s

/-- `vm_phys_add_page`; `none` is the panic for an address in no segment. -/
def vmPhysAddPage (m : ℕ) : Option Phys :=
  match s.segOf m with
  | none => none
  | some _ =>
    some (vmPhysFreePages { s with pool := Function.update s.pool m vmFreepoolDefault } m 0)

/-! ## Allocation -/

/-- The orders from `order` up to the largest. -/
def orders (order : ℕ) : List ℕ := List.range' order (vmNfreeorder - order)

/-- The block that `vm_phys_alloc_pages` takes from free list `flind`: its pool, its order and its
first page.  First comes the smallest block of the given pool that is large enough, then the largest
of any pool. -/
def findBlock (pool order flind : ℕ) : Option (ℕ × ℕ × ℕ) :=
  ((orders order).findSome? fun oind =>
      (s.queues flind pool oind).pl.head?.map fun m => (pool, oind, m)).or
    ((orders order).reverse.findSome? fun oind =>
      (List.range vmNfreepool).findSome? fun pind =>
        (s.queues flind pind oind).pl.head?.map fun m => (pind, oind, m))

/-- `vm_phys_alloc_pages`: the first page of the block allocated, or `none` for `NULL`.  The pool is
set when the block comes from the search in all pools, where it is that of another pool: the queues
of the given one were empty. -/
def vmPhysAllocPages (pool order : ℕ) : Option (ℕ × Phys) :=
  ((List.range s.nfreelists).findSome? fun flind =>
      (s.findBlock pool order flind).map fun found => (flind, found)).map
    fun (flind, pind, oind, m) =>
      let s' := s.remove flind pind oind m
      let s' := if pind = pool then s' else s'.vmPhysSetPool pool m oind
      (m, vmPhysSplitPages m flind pool order oind s')

/-! ## Taking out one page -/

/-- The search of `vm_phys_unfree_page` for the block that holds `m`: where the loop ends, or `none`
if it leaves the segment.  The first argument is the number of orders left below the largest. -/
def findSet (seg : Seg) (m : ℕ) : ℕ → ℕ → ℕ → Option (ℕ × ℕ)
  | 0, mSet, order => some (mSet, order)
  | n + 1, mSet, order =>
    if s.order mSet = vmNfreeorder then
      if base m (order + 1) ≥ seg.start then
        findSet seg m n (base m (order + 1)) (order + 1)
      else
        none
    else
      some (mSet, order)

/-- The loop of `vm_phys_unfree_page` that returns the halves without `m` to the queues. -/
def shrinkSet (flind pool m : ℕ) : ℕ → ℕ → Phys → Phys
  | 0, _, s => s
  | order + 1, mSet, s =>
    let half := buddy mSet order
    if m < half then
      shrinkSet flind pool m order mSet (s.insertHead flind pool order half)
    else
      shrinkSet flind pool m order half (s.insertHead flind pool order mSet)

/-- `vm_phys_unfree_page`: the new state and the value returned. -/
def vmPhysUnfreePage (m : ℕ) : Phys × Bool :=
  match s.segOf m with
  | none => (s, false)
  | some seg =>
    match s.findSet seg m (vmNfreeorder - 1) m 0 with
    | none => (s, false)
    | some (mSet, order) =>
      if s.order mSet < order then
        (s, false)
      else if s.order mSet = vmNfreeorder then
        (s, false)
      else
        let pool := s.pool mSet
        let order := s.order mSet
        (shrinkSet seg.flind pool m order mSet (s.remove seg.flind pool order mSet), true)

/-! ## Contiguous allocation -/

/-- The arguments of `vm_phys_alloc_contig`. -/
structure ContigArgs where
  npages : BitVec 64
  low : BitVec 64
  high : BitVec 64
  alignment : BitVec 64
  boundary : BitVec 64
  deriving DecidableEq, Repr

namespace ContigArgs

variable (a : ContigArgs)

/-- `size`, in bytes. -/
def size : BitVec 64 := a.npages <<< pageShift

/-- The smallest order with `1 << order >= npages`.  The shift is one of `int`: at 31 the result is
negative and becomes, as an `unsigned long`, larger than any number of pages. -/
def order : ℕ := ((List.range 31).find? fun order => a.npages.toNat ≤ 2 ^ order).getD 31

/-- The physical address of a page. -/
def paddr (m : ℕ) : BitVec 64 := BitVec.ofNat 64 (m * 2 ^ pageShift)

/-- Whether a segment meets the range asked for. -/
def MeetsSeg (seg : Seg) : Bool :=
  !(paddr seg.start > a.high || a.low ≥ paddr seg.stop)

/-- Whether the pages from `m` on are within the range, aligned, and do not cross the boundary. -/
def Fits (m : ℕ) : Bool :=
  paddr m ≥ a.low && paddr m + a.size ≤ a.high && (paddr m &&& (a.alignment - 1)) == 0 &&
    ((paddr m ^^^ (paddr m + a.size - 1)) &&& ~~~(a.boundary - 1)) == 0

end ContigArgs

/-- The scan for subsequent blocks of the largest order, starting after the block at address `pa`,
up to the address `paLast`.  The first argument bounds the number of rounds; every round advances by
a block and the scan stops at the end of the segment. -/
def blocksFollow (seg : Seg) (paLast : ℕ) : ℕ → ℕ → Bool
  | 0, _ => false
  | n + 1, pa =>
    let pa := pa + 2 ^ (pageShift + vmNfreeorder - 1)
    if pa ≥ paLast then
      true
    else if pa / 2 ^ pageShift < seg.start || pa / 2 ^ pageShift ≥ seg.stop then
      false
    else if s.order (pa / 2 ^ pageShift) ≠ vmNfreeorder - 1 then
      false
    else
      blocksFollow seg paLast n pa

/-- Whether the block at `m` is where `vm_phys_alloc_contig` stops searching. -/
def contigAt (a : ContigArgs) (m : ℕ) : Bool :=
  match s.segOf m with
  | none => false
  | some seg =>
    a.MeetsSeg seg &&
      (!(a.order ≥ vmNfreeorder) || s.blocksFollow seg (ContigArgs.paddr m + a.size).toNat
        (seg.stop + 1) (m * 2 ^ pageShift)) &&
      a.Fits m

/-- The search of `vm_phys_alloc_contig`: the order of the queue and the first page. -/
def contigSearch (a : ContigArgs) : Option (ℕ × ℕ) :=
  (List.range s.nfreelists).findSome? fun flind =>
    (orders (min a.order (vmNfreeorder - 1))).findSome? fun oind =>
      (List.range vmNfreepool).findSome? fun pind =>
        ((s.queues flind pind oind).pl.find? fun m => s.contigAt a m).map fun m => (oind, m)

/-- The loop at the label `done`, which takes `n` blocks of order `oind` off their queues.  It is
`none` where the loop runs out of the segment or over a page that heads no free block, which is
undefined. -/
def removeRun (seg : Seg) (oind : ℕ) : ℕ → ℕ → Phys → Option Phys
  | 0, _, s => some s
  | n + 1, m, s =>
    if seg.Contains m ∧ s.order m < vmNfreeorder then
      removeRun seg oind n (m + 2 ^ oind) (s.remove seg.flind (s.pool m) (s.order m) m)
    else
      none

/-- `n` pages from `m` on are freed one by one. -/
def freeRun : ℕ → ℕ → Phys → Phys
  | 0, _, s => s
  | n + 1, m, s => freeRun n (m + 1) (s.vmPhysFreePages m 0)

/-- What follows the label `done`.  The pages in excess of `npages` are freed. -/
def contigTake (a : ContigArgs) (oind m : ℕ) : Option Phys :=
  match s.segOf m with
  | none => none
  | some seg =>
    let npages := a.npages.toNat
    let unit := 2 ^ min oind a.order
    (s.removeRun seg oind ((npages + 2 ^ oind - 1) / 2 ^ oind) m).map fun s' =>
      let s' := if s'.pool m ≠ vmFreepoolDefault then s'.vmPhysSetPool vmFreepoolDefault m oind
        else s'
      let s' := vmPhysSplitPages m seg.flind (s'.pool m) a.order oind s'
      freeRun ((npages + unit - 1) / unit * unit - npages) (m + npages) s'

/-- `vm_phys_alloc_contig`: the page returned (`none` for `NULL`) and the new state.  Each element
of `reclaimed` is what one successful call of `vm_reserv_reclaim_contig` gives back: the pages of a
broken reservation, freed one by one. -/
def vmPhysAllocContig (a : ContigArgs) : List (List ℕ) → Phys → Option (Option ℕ × Phys)
  | reclaimed, s =>
    match s.contigSearch a with
    | some (oind, m) => (s.contigTake a oind m).map fun s' => (some m, s')
    | none =>
      match reclaimed with
      | [] => some (none, s)
      | pages :: rest =>
        vmPhysAllocContig a rest (pages.foldl (fun s m => s.vmPhysFreePages m 0) s)

end Phys

end FreeBSDSys.VmPhys
