import FreeBSDSys.Lib.BitRange

/-!
# The radix-tree bitmap allocator

A model of `kern/subr_blist.c`.  The tree lies in one array: a meta node is followed by its
`BLIST_META_RADIX` subtrees, each `next_skip` records long, and the functions get the index `scan`
of a node with the number of blocks (`radix`) and of further records (`skip`) under it.  Leaves are
bitmaps of `BLIST_BMAP_RADIX` blocks, a set bit being a free block.

The array maps indices to records; each function returns the new array.
`SWAPBLK_NONE` is `none` and a panic is an error.  The recursion is on the number of levels of meta
nodes; the loops run over the number `k` of a subtree, `i = k * next_skip + 1` being its index, and
their first argument counts the subtrees that are left (`i <= skip` when it is positive, since
`skip = BLIST_META_RADIX * next_skip`).
-/

namespace FreeBSDSys.Blst

/-- `BLIST_META_RADIX`. -/
def blistMetaRadix : ℕ := 16

/-- `BLIST_BMAP_RADIX`, the number of bits of `u_daddr_t`. -/
def blistBmapRadix : ℕ := 32

/-- `BLIST_MAX_ALLOC`. -/
def blistMaxAlloc : ℕ := blistBmapRadix

/-- `blmeta_t`.  The two members of the union are never used for the same record. -/
structure BlMeta where
  bmuAvail : ℤ
  bmuBitmap : BitVec 32
  bmBighint : ℤ
  deriving DecidableEq, Repr

/-- The array of records. -/
structure BlTree where
  node : ℕ → BlMeta

/-- The panics, and the end of a recursion that goes deeper than the tree. -/
inductive BlPanic where
  /-- Text: "blist_meta_alloc: allocation too large" -/
  | allocTooLarge
  /-- Text: "blst_radix_free: freeing free block" -/
  | freeingFreeBlock
  /-- Text: "blst_meta_free: freeing already free blocks (%lld) %lld/%lld" -/
  | freeingAlreadyFree
  /-- Text: "blst_meta_free: freeing unexpected range" -/
  | freeingUnexpectedRange
  /-- Text: "blist_meta_fill: allocation too large" -/
  | fillTooLarge
  /-- Text: "blst_meta_fill: filling unexpected range" -/
  | fillingUnexpectedRange
  | tooDeep
  deriving DecidableEq, Repr

namespace BlTree

variable (root : BlTree) (scan : ℕ)

/-- Assignment to a record. -/
def set (node : BlMeta) : BlTree := ⟨Function.update root.node scan node⟩

/-- Assignment to `bm_bighint`. -/
def setBighint (hint : ℤ) : BlTree := root.set scan { root.node scan with bmBighint := hint }

/-- Assignment to `bmu_avail`. -/
def setAvail (avail : ℤ) : BlTree := root.set scan { root.node scan with bmuAvail := avail }

/-- Assignment to `bmu_bitmap`. -/
def setBitmap (bitmap : BitVec 32) : BlTree :=
  root.set scan { root.node scan with bmuBitmap := bitmap }

variable {root scan}

@[simp]
theorem node_set_self (node : BlMeta) : (root.set scan node).node scan = node :=
  Function.update_self ..

theorem node_set_of_ne (node : BlMeta) {j : ℕ} (hj : j ≠ scan) :
    (root.set scan node).node j = root.node j := Function.update_of_ne hj _ _

@[simp]
theorem node_setBighint (hint : ℤ) :
    (root.setBighint scan hint).node scan = { root.node scan with bmBighint := hint } :=
  node_set_self _

@[simp]
theorem node_setAvail (avail : ℤ) :
    (root.setAvail scan avail).node scan = { root.node scan with bmuAvail := avail } :=
  node_set_self _

@[simp]
theorem node_setBitmap (bitmap : BitVec 32) :
    (root.setBitmap scan bitmap).node scan = { root.node scan with bmuBitmap := bitmap } :=
  node_set_self _

end BlTree

/-! ## Allocation -/

/-- The loop over the positions of `blst_leaf_alloc`; the first argument counts them. -/
def leafScan (orig : BitVec 32) : ℕ → ℕ → BitVec 32 → Option (ℕ × BitVec 32)
  | 0, _, _ => none
  | left + 1, j, mask =>
    if orig &&& mask = mask then some (j, mask) else leafScan orig left (j + 1) (mask <<< 1)

/-- `blst_leaf_alloc`. -/
def blstLeafAlloc (root : BlTree) (scan blk count : ℕ) : Option ℕ × BlTree :=
  let orig := (root.node scan).bmuBitmap
  if orig = 0 then (none, root.setBighint scan 0)
  else if count = 1 then
    let r := BitRange.lowBit [16, 8, 4, 2, 1] (BitVec.allOnes 32 >>> (blistBmapRadix / 2)) orig 0
    (some (blk + r), root.setBitmap scan (orig &&& ~~~(1#32 <<< r)))
  else
    let n := blistBmapRadix - count
    match if count ≤ blistBmapRadix then leafScan orig (n + 1) 0 (BitVec.allOnes 32 >>> n) else none
    with
    | some (j, mask) => (some (blk + j), root.setBitmap scan (orig &&& ~~~mask))
    | none => (none, root.setBighint scan (count - 1))

/-- The loop that initializes the subtrees of a node, up to the terminator. -/
def initKids (scan nextSkip : ℕ) (set : BlMeta → BlMeta) : ℕ → ℕ → BlTree → BlTree
  | 0, _, root => root
  | left + 1, k, root =>
    let i := scan + (k * nextSkip + 1)
    if (root.node i).bmBighint = -1 then root
    else initKids scan nextSkip set left (k + 1) (root.set i (set (root.node i)))

/-- What `initKids` writes below a node that was ALL-FREE. -/
def allFree (nextSkip radix : ℕ) (node : BlMeta) : BlMeta :=
  if nextSkip = 1 then { node with bmuBitmap := BitVec.allOnes 32, bmBighint := blistBmapRadix }
  else { node with bmuAvail := radix, bmBighint := radix }

/-- What `initKids` writes below a node that was ALL-ALLOCATED. -/
def allAllocated (nextSkip : ℕ) (node : BlMeta) : BlMeta :=
  if nextSkip = 1 then { node with bmuBitmap := 0, bmBighint := 0 }
  else { node with bmuAvail := 0, bmBighint := 0 }

/-- The search of `blst_meta_alloc`; `sub` is the allocation in a subtree. -/
def metaAllocLoop (sub : BlTree → ℕ → ℕ → Except BlPanic (Option ℕ × BlTree))
    (scan count radix nextSkip : ℕ) :
    ℕ → ℕ → BlTree → ℕ → Except BlPanic (Option ℕ × BlTree)
  | 0, _, root, _ =>
    .ok (none, if (root.node scan).bmBighint ≥ count then root.setBighint scan (count - 1) else root)
  | left + 1, k, root, blk =>
    let i := scan + (k * nextSkip + 1)
    if (count : ℤ) ≤ (root.node i).bmBighint then
      match sub root i blk with
      | .error e => .error e
      | .ok (some r, root) =>
        let avail := (root.node scan).bmuAvail - count
        let root := root.setAvail scan avail
        .ok (some r, if (root.node scan).bmBighint > avail then root.setBighint scan avail else root)
      | .ok (none, root) => metaAllocLoop sub scan count radix nextSkip left (k + 1) root (blk + radix)
    else if (root.node i).bmBighint = -1 then
      .ok (none, if (root.node scan).bmBighint ≥ count then root.setBighint scan (count - 1) else root)
    else if count > radix then .error .allocTooLarge
    else metaAllocLoop sub scan count radix nextSkip left (k + 1) root (blk + radix)

/-- `blst_meta_alloc`. -/
def blstMetaAlloc : ℕ → BlTree → ℕ → ℕ → ℕ → ℕ → ℕ → Except BlPanic (Option ℕ × BlTree)
  | 0, _, _, _, _, _, _ => .error .tooDeep
  | levels + 1, root, scan, blk, count, radix, skip =>
    let nextSkip := skip / blistMetaRadix
    if (root.node scan).bmuAvail = 0 then .ok (none, root.setBighint scan count)
    else
      let subRadix := radix / blistMetaRadix
      let root :=
        if (root.node scan).bmuAvail = radix then
          initKids scan nextSkip (allFree nextSkip subRadix) blistMetaRadix 0 root
        else root
      metaAllocLoop (fun root i blk =>
          if nextSkip = 1 then .ok (blstLeafAlloc root i blk count)
          else blstMetaAlloc levels root i blk count subRadix (nextSkip - 1))
        scan count subRadix nextSkip blistMetaRadix 0 root blk

/-! ## Freeing -/

/-- The bits of `count` blocks from `blk` on in their leaf. -/
def leafMask (blk count : ℕ) : BitVec 32 :=
  let n := blk % blistBmapRadix
  (BitVec.allOnes 32 <<< n) &&& (BitVec.allOnes 32 >>> (blistBmapRadix - count - n))

/-- `blst_leaf_free`. -/
def blstLeafFree (root : BlTree) (scan blk count : ℕ) : Except BlPanic BlTree :=
  let mask := leafMask blk count
  if (root.node scan).bmuBitmap &&& mask ≠ 0 then .error .freeingFreeBlock
  else
    .ok ((root.setBitmap scan ((root.node scan).bmuBitmap ||| mask)).setBighint scan blistBmapRadix)

/-- The loop of `blst_meta_free` over the subtrees; `sub` frees in one of them. -/
def metaFreeLoop (sub : BlTree → ℕ → ℕ → ℕ → ℕ → Except BlPanic BlTree)
    (scan radix nextSkip : ℕ) : ℕ → ℕ → BlTree → ℕ → ℕ → ℕ → Except BlPanic BlTree
  | 0, _, root, _, _, _ => .ok root
  | left + 1, k, root, freeBlk, count, blk =>
    let i := scan + (k * nextSkip + 1)
    if blk < freeBlk + count then
      let v := min (blk + radix - freeBlk) count
      if (root.node scan).bmBighint = -1 then .error .freeingUnexpectedRange
      else
        match sub root i freeBlk v blk with
        | .error e => .error e
        | .ok root =>
          let root :=
            if (root.node scan).bmBighint < (root.node i).bmBighint then
              root.setBighint scan (root.node i).bmBighint
            else root
          metaFreeLoop sub scan radix nextSkip left (k + 1) root (freeBlk + v) (count - v)
            (blk + radix)
    else .ok root

/-- `blst_meta_free`. -/
def blstMetaFree : ℕ → BlTree → ℕ → ℕ → ℕ → ℕ → ℕ → ℕ → Except BlPanic BlTree
  | 0, _, _, _, _, _, _, _ => .error .tooDeep
  | levels + 1, root, scan, freeBlk, count, radix, skip, blk =>
    let nextSkip := skip / blistMetaRadix
    let root :=
      if (root.node scan).bmuAvail = 0 then
        let root := (root.setAvail scan count).setBighint scan count
        if count ≠ radix then initKids scan nextSkip (allAllocated nextSkip) blistMetaRadix 0 root
        else root
      else root.setAvail scan ((root.node scan).bmuAvail + count)
    if (root.node scan).bmuAvail = radix then .ok root
    else if (root.node scan).bmuAvail > radix then .error .freeingAlreadyFree
    else
      let subRadix := radix / blistMetaRadix
      let k := (freeBlk - blk) / subRadix
      metaFreeLoop (fun root i freeBlk v blk =>
          if nextSkip = 1 then blstLeafFree root i freeBlk v
          else blstMetaFree levels root i freeBlk v subRadix (nextSkip - 1) blk)
        scan subRadix nextSkip (blistMetaRadix - k) k root freeBlk count (blk + k * subRadix)

/-! ## Filling -/

/-- `blst_leaf_fill`. -/
def blstLeafFill (root : BlTree) (scan blk count : ℕ) : ℕ × BlTree :=
  let mask := leafMask blk count
  let bitmap := (root.node scan).bmuBitmap
  (BitRange.popLoop blistBmapRadix (bitmap &&& mask), root.setBitmap scan (bitmap &&& ~~~mask))

/-- The loop of `blst_meta_fill` over the subtrees; `sub` fills in one of them. -/
def metaFillLoop (sub : BlTree → ℕ → ℕ → ℕ → ℕ → Except BlPanic (ℤ × BlTree))
    (scan radix nextSkip : ℕ) : ℕ → ℕ → BlTree → ℕ → ℕ → ℕ → ℤ → Except BlPanic (ℤ × BlTree)
  | 0, _, root, _, _, _, nblks => .ok (nblks, root.setAvail scan ((root.node scan).bmuAvail - nblks))
  | left + 1, k, root, allocBlk, count, blk, nblks =>
    let i := scan + (k * nextSkip + 1)
    if blk < allocBlk + count then
      let v := min (blk + radix - allocBlk) count
      if (root.node scan).bmBighint = -1 then .error .fillingUnexpectedRange
      else
        match sub root i allocBlk v blk with
        | .error e => .error e
        | .ok (n, root) =>
          metaFillLoop sub scan radix nextSkip left (k + 1) root (allocBlk + v) (count - v)
            (blk + radix) (nblks + n)
    else .ok (nblks, root.setAvail scan ((root.node scan).bmuAvail - nblks))

/-- `blst_meta_fill`. -/
def blstMetaFill : ℕ → BlTree → ℕ → ℕ → ℕ → ℕ → ℕ → ℕ → Except BlPanic (ℤ × BlTree)
  | 0, _, _, _, _, _, _, _ => .error .tooDeep
  | levels + 1, root, scan, allocBlk, count, radix, skip, blk =>
    let nextSkip := skip / blistMetaRadix
    if count = radix ∨ (root.node scan).bmuAvail = 0 then
      .ok ((root.node scan).bmuAvail, (root.setAvail scan 0).setBighint scan count)
    else
      let subRadix := radix / blistMetaRadix
      let root :=
        if (root.node scan).bmuAvail = radix then
          initKids scan nextSkip (allFree nextSkip subRadix) blistMetaRadix 0 root
        else root
      if count > subRadix then .error .fillTooLarge
      else
        let k := (allocBlk - blk) / subRadix
        metaFillLoop (fun root i allocBlk v blk =>
            if nextSkip = 1 then
              let r := blstLeafFill root i allocBlk v
              .ok (r.1, r.2)
            else blstMetaFill levels root i allocBlk v subRadix (nextSkip - 1) blk)
          scan subRadix nextSkip (blistMetaRadix - k) k root allocBlk count (blk + k * subRadix) 0

/-! ## Creation -/

/-- The loop of `blst_radix_init` over the subtrees; `sub` initializes one of them and returns the
number of records behind its node.  The result is `memindex`. -/
def radixInitLoop (sub : BlTree → ℕ → ℕ → ℕ × BlTree) (write : Bool) (scan radix nextSkip : ℕ) :
    ℕ → ℕ → BlTree → ℕ → ℕ → ℕ × BlTree
  | 0, k, root, _, memindex => (max memindex (k * nextSkip + 1), root)
  | left + 1, k, root, count, memindex =>
    let i := k * nextSkip + 1
    if count ≥ radix then
      let r := sub root (scan + i) radix
      radixInitLoop sub write scan radix nextSkip left (k + 1) r.2 (count - radix) (i + r.1)
    else if count > 0 then
      let r := sub root (scan + i) count
      radixInitLoop sub write scan radix nextSkip left (k + 1) r.2 0 (i + r.1)
    else (max memindex i, if write then root.setBighint (scan + i) (-1) else root)

/-- `blst_radix_init`; without `write` (a null `scan`) it only measures. -/
def blstRadixInit (write : Bool) : ℕ → BlTree → ℕ → ℕ → ℕ → ℕ → ℕ × BlTree
  | levels, root, scan, radix, skip, count =>
    if radix = blistBmapRadix then
      (0, if write then (root.setBighint scan 0).setBitmap scan 0 else root)
    else
      match levels with
      | 0 => (0, root)
      | levels + 1 =>
        let subRadix := radix / blistMetaRadix
        let nextSkip := skip / blistMetaRadix
        radixInitLoop (fun root i => blstRadixInit write levels root i subRadix (nextSkip - 1))
          write scan subRadix nextSkip blistMetaRadix 0
          (if write then (root.setBighint scan 0).setAvail scan 0 else root) count 0

/-- `struct blist`. -/
structure Blist where
  blBlocks : ℕ
  blRadix : ℕ
  blSkip : ℕ
  blFree : ℤ
  blRoot : BlTree
  blRootblks : ℕ

/-- The number of levels of meta nodes in a tree for `radix` blocks. -/
def metaLevels (radix : ℕ) : ℕ := Nat.log blistMetaRadix (radix / blistBmapRadix)

/-- The loop of `blist_create` that finds `radix` and `skip`.  Both are of type `int`; an overflow
is undefined. -/
def radixLoop (blocks : ℕ) : ℕ → ℕ → ℕ → Option (ℕ × ℕ)
  | 0, _, _ => none
  | fuel + 1, radix, skip =>
    if radix < blocks then
      if radix * blistMetaRadix < 2 ^ 31 then
        radixLoop blocks fuel (radix * blistMetaRadix) ((skip + 1) * blistMetaRadix)
      else none
    else some (radix, skip)

/-- `blist_create`; `mem` is the memory that `malloc` returns.  A `radix` of type `int` can
be multiplied less than 31 times. -/
def blistCreate (blocks : ℕ) (mem : BlTree) : Option Blist :=
  match radixLoop blocks 31 blistBmapRadix 0 with
  | none => none
  | some (radix, skip) =>
    some
      { blBlocks := blocks
        blRadix := radix
        blSkip := skip
        blFree := 0
        blRoot := (blstRadixInit true (metaLevels radix) mem 0 radix skip blocks).2
        blRootblks := 1 + (blstRadixInit false (metaLevels radix) mem 0 radix skip blocks).1 }

/-! ## The interface -/

/-- `blist_alloc`. -/
def blistAlloc (bl : Blist) (count : ℕ) : Except BlPanic (Option ℕ × Blist) :=
  match if bl.blRadix = blistBmapRadix then .ok (blstLeafAlloc bl.blRoot 0 0 count)
    else blstMetaAlloc (metaLevels bl.blRadix) bl.blRoot 0 0 count bl.blRadix bl.blSkip with
  | .error e => .error e
  | .ok (some blk, root) => .ok (some blk, { bl with blRoot := root, blFree := bl.blFree - count })
  | .ok (none, root) => .ok (none, { bl with blRoot := root })

/-- `blist_free`. -/
def blistFree (bl : Blist) (blkno count : ℕ) : Except BlPanic Blist :=
  match if bl.blRadix = blistBmapRadix then blstLeafFree bl.blRoot 0 blkno count
    else blstMetaFree (metaLevels bl.blRadix) bl.blRoot 0 blkno count bl.blRadix bl.blSkip 0 with
  | .error e => .error e
  | .ok root => .ok { bl with blRoot := root, blFree := bl.blFree + count }

/-- `blist_fill`. -/
def blistFill (bl : Blist) (blkno count : ℕ) : Except BlPanic (ℤ × Blist) :=
  match if bl.blRadix = blistBmapRadix then
      let r := blstLeafFill bl.blRoot 0 blkno count
      .ok ((r.1 : ℤ), r.2)
    else blstMetaFill (metaLevels bl.blRadix) bl.blRoot 0 blkno count bl.blRadix bl.blSkip 0 with
  | .error e => .error e
  | .ok (filled, root) => .ok (filled, { bl with blRoot := root, blFree := bl.blFree - filled })

end FreeBSDSys.Blst
