import FreeBSDSys.Ufs.FfsMap

/-!
# Allocation in cylinder groups

A model of `ffs_hashalloc`, `ffs_alloccg`, `ffs_alloccgblk`, `ffs_mapsearch`, `ffs_fragextend`,
`ffs_clusteralloc`, `ffs_clusteracct` and `ffs_blkfree`.

Sizes are numbers of fragments: the callers pass multiples of `fs_fsize`, so that `size == fs_bsize`
is `frags = fs_frag`.  The read of the cylinder group succeeds and finds a good magic number; when
it does not, the functions return 0 and change nothing.  An allocation function returns the
fragment and the new state, or 0 and a state in which nothing is allocated; a panic is an error.
-/

namespace FreeBSDSys.Ffs

open Function

/-- The panics. -/
inductive FfsPanic where
  /-- `ffs_alloccg: map corrupted` -/
  | mapCorrupted
  /-- `ffs_alloccg: block not in map` -/
  | blockNotInMap
  /-- `ffs_clusteralloc: map mismatch` -/
  | mapMismatch
  /-- `ffs_clusteralloc: allocated out of group` -/
  | outOfGroup
  /-- `ffs_clusteralloc: lost block` -/
  | lostBlock
  /-- `ffs_blkfree: bad size` -/
  | badSize
  /-- `ffs_blkfree: freeing free block` -/
  | freeingFreeBlock
  /-- `ffs_blkfree: freeing free frag` -/
  | freeingFreeFrag
  deriving DecidableEq, Repr

/-- The counters of free space in `struct csum` -/
structure Csum where
  csNbfree : ℤ
  csNffree : ℤ
  deriving DecidableEq, Repr

/-- Addition to the counters. -/
def Csum.add (c : Csum) (nb nf : ℤ) : Csum := ⟨c.csNbfree + nb, c.csNffree + nf⟩

/-- `struct cg` -/
structure Cg where
  cgCgx : ℕ
  cgCs : Csum
  cgFrsum : ℕ → ℤ
  cgRotor : ℕ
  cgFrotor : ℕ
  blksfree : Map
  nclusterblks : ℕ
  clustersfree : Map
  clustersum : ℕ → ℤ

/-- `struct fs` with its cylinder groups -/
structure Fs where
  fsFrag : Frag
  fsFpg : ℕ
  fsNcg : ℕ
  fsSize : ℕ
  fsContigsumsize : ℕ
  fsCs : ℕ → Csum
  fsCstotal : Csum
  fsMaxcluster : ℕ → ℕ
  cg : ℕ → Cg

namespace Fs

variable (fs : Fs)

/-- `cgbase` -/
def cgbase (c : ℕ) : ℕ := fs.fsFpg * c

/-- `dtog` -/
def dtog (d : ℕ) : ℕ := d / fs.fsFpg

/-- `dtogd` -/
def dtogd (d : ℕ) : ℕ := d % fs.fsFpg

/-- `fragstoblks` -/
def fragstoblks (frags : ℕ) : ℕ := frags / fs.fsFrag.num

/-- `blkstofrags` -/
def blkstofrags (blks : ℕ) : ℕ := blks * fs.fsFrag.num

/-- `fragnum` -/
def fragnum (fsb : ℕ) : ℕ := fsb % fs.fsFrag.num

/-- `blknum` -/
def blknum (fsb : ℕ) : ℕ := fsb / fs.fsFrag.num * fs.fsFrag.num

/-- The store of a cylinder group. -/
def setCg (i : ℕ) (c : Cg) : Fs := { fs with cg := update fs.cg i c }

/-- Addition to the counters of the superblock, for the group and in total. -/
def addSummary (i : ℕ) (nb nf : ℤ) : Fs :=
  { fs with
    fsCstotal := fs.fsCstotal.add nb nf
    fsCs := update fs.fsCs i ((fs.fsCs i).add nb nf) }

end Fs

/-! ## The cluster map -/

/-- The set bits from `i` on, at most `n`. -/
def clusterForw (map : Map) : ℕ → ℕ → ℕ
  | 0, _ => 0
  | n + 1, i => if isset map i then 1 + clusterForw map n (i + 1) else 0

/-- The set bits below `i`, at most `n`. -/
def clusterBack (map : Map) : ℕ → ℕ → ℕ
  | 0, _ => 0
  | n + 1, i => if isset map (i - 1) then 1 + clusterBack map n (i - 1) else 0

/-- The largest size up to `i` with a cluster. -/
def lastCluster (sum : ℕ → ℤ) : ℕ → ℕ
  | 0 => 0
  | i + 1 => if sum (i + 1) > 0 then i + 1 else lastCluster sum i

/-- Addition to a counter of an array. -/
def addAt (a : ℕ → ℤ) (i : ℕ) (d : ℤ) : ℕ → ℤ := update a i (a i + d)

/-- `ffs_clusteracct` -/
def ffsClusteracct (fs : Fs) (i blkno : ℕ) (cnt : ℤ) : Fs :=
  if fs.fsContigsumsize = 0 then fs
  else
    let cgp := fs.cg i
    let freemap := if cnt > 0 then setbit cgp.clustersfree blkno else clrbit cgp.clustersfree blkno
    let start := blkno + 1
    let last := min (start + fs.fsContigsumsize) cgp.nclusterblks
    let forw := clusterForw freemap (last - start) start
    let back := clusterBack freemap (min fs.fsContigsumsize blkno) blkno
    let sum := addAt cgp.clustersum (min (back + forw + 1) fs.fsContigsumsize) cnt
    let sum := if back > 0 then addAt sum back (-cnt) else sum
    let sum := if forw > 0 then addAt sum forw (-cnt) else sum
    { fs.setCg i { cgp with clustersfree := freemap, clustersum := sum } with
      fsMaxcluster := update fs.fsMaxcluster cgp.cgCgx (lastCluster sum fs.fsContigsumsize) }

/-! ## Blocks and fragments -/

/-- The end of `ffs_mapsearch`: the byte is found. -/
def mapsearchByte (fs : Fs) (cgp : Cg) (allocsiz byte : ℕ) : Except FfsPanic (ℕ × Cg) :=
  let bno := byte * nbby
  match sift fs.fsFrag cgp.blksfree allocsiz bno fs.fsFrag.perByte with
  | some r => .ok (r, { cgp with cgFrotor := bno })
  | none => .error .blockNotInMap

/-- `ffs_mapsearch` -/
def ffsMapsearch (fs : Fs) (cgp : Cg) (bpref allocsiz : ℕ) : Except FfsPanic (ℕ × Cg) :=
  let start := if bpref ≠ 0 then fs.dtogd bpref / nbby else cgp.cgFrotor / nbby
  let len := (fs.fsFpg + (nbby - 1)) / nbby - start
  let scan := scanc (fragtbl fs.fsFrag) (scanMask fs.fsFrag allocsiz) cgp.blksfree
  let loc := scan len start
  if loc = 0 then
    let len := start + 1
    let loc := scan len 0
    if loc = 0 then .error .mapCorrupted else mapsearchByte fs cgp allocsiz (len - loc)
  else mapsearchByte fs cgp allocsiz (start + len - loc)

/-- The end of `ffs_alloccgblk`, at `gotit` -/
def alloccgblkGotit (fs : Fs) (i bno : ℕ) : ℕ × Fs :=
  let blkno := fs.fragstoblks bno
  let cgp := fs.cg i
  let fs := fs.setCg i { cgp with blksfree := ffsClrblock fs.fsFrag cgp.blksfree blkno }
  let fs := ffsClusteracct fs i blkno (-1)
  let cgp := fs.cg i
  let fs := fs.setCg i { cgp with cgCs := cgp.cgCs.add (-1) 0 }
  (fs.cgbase cgp.cgCgx + bno, fs.addSummary cgp.cgCgx (-1) 0)

/-- `ffs_alloccgblk` -/
def ffsAlloccgblk (fs : Fs) (i bpref : ℕ) : Except FfsPanic (ℕ × Fs) :=
  let cgp := fs.cg i
  let search (bpref : ℕ) : Except FfsPanic (ℕ × Fs) :=
    match ffsMapsearch fs cgp bpref fs.fsFrag.num with
    | .error e => .error e
    | .ok (bno, cgp) => .ok (alloccgblkGotit (fs.setCg i { cgp with cgRotor := bno }) i bno)
  if bpref = 0 ∨ fs.dtog bpref ≠ cgp.cgCgx then search cgp.cgRotor
  else
    let bpref := fs.blknum bpref
    let bno := fs.dtogd bpref
    if ffsIsblock fs.fsFrag cgp.blksfree (fs.fragstoblks bno) then .ok (alloccgblkGotit fs i bno)
    else search bpref

/-- The loop of `ffs_alloccg` for the size to allocate -/
def firstSize (frsum : ℕ → ℤ) : ℕ → ℕ → ℕ
  | 0, allocsiz => allocsiz
  | n + 1, allocsiz => if frsum allocsiz ≠ 0 then allocsiz else firstSize frsum n (allocsiz + 1)

/-- The loop of `setbit` over `n` bits -/
def setBits (map : Map) : ℕ → ℕ → Map
  | 0, _ => map
  | n + 1, bno => setBits (setbit map bno) n (bno + 1)

/-- The loop of `clrbit` over `n` bits -/
def clrBits (map : Map) : ℕ → ℕ → Map
  | 0, _ => map
  | n + 1, bno => clrBits (clrbit map bno) n (bno + 1)

/-- `ffs_alloccg` -/
def ffsAlloccg (fs : Fs) (i bpref frags : ℕ) : Except FfsPanic (ℕ × Fs) :=
  let frag := fs.fsFrag.num
  let cgp := fs.cg i
  if (fs.fsCs i).csNbfree = 0 ∧ frags = frag then .ok (0, fs)
  else if cgp.cgCs.csNbfree = 0 ∧ frags = frag then .ok (0, fs)
  else if frags = frag then ffsAlloccgblk fs i bpref
  else
    let allocsiz := firstSize cgp.cgFrsum (frag - frags) frags
    if allocsiz = frag then
      if cgp.cgCs.csNbfree = 0 then .ok (0, fs)
      else
        match ffsAlloccgblk fs i bpref with
        | .error e => .error e
        | .ok (blkno, fs) =>
          let bno := fs.dtogd blkno
          let cgp := fs.cg i
          let rest := frag - frags
          .ok (blkno, (fs.setCg i { cgp with
            blksfree := setBits cgp.blksfree rest (bno + frags)
            cgCs := cgp.cgCs.add 0 rest
            cgFrsum := addAt cgp.cgFrsum rest 1 }).addSummary i 0 rest)
    else
      match ffsMapsearch fs cgp bpref allocsiz with
      | .error e => .error e
      | .ok (bno, cgp) =>
        let frsum := addAt cgp.cgFrsum allocsiz (-1)
        let frsum := if frags ≠ allocsiz then addAt frsum (allocsiz - frags) 1 else frsum
        .ok (fs.cgbase i + bno, (fs.setCg i { cgp with
          blksfree := clrBits cgp.blksfree frags bno
          cgCs := cgp.cgCs.add 0 (-frags)
          cgFrsum := frsum }).addSummary i 0 (-frags))

/-- The first `n` fragments from `bno` on are free. -/
def allFree (map : Map) : ℕ → ℕ → Bool
  | 0, _ => true
  | n + 1, bno => isset map bno && allFree map n (bno + 1)

/-- The loop of `ffs_fragextend` over the free fragments behind the extension: the index of the first
one in use, `n` at most being left -/
def extendTo (map : Map) (bno : ℕ) : ℕ → ℕ → ℕ
  | 0, i => i
  | n + 1, i => if isset map (bno + i) then extendTo map bno n (i + 1) else i

/-- `ffs_fragextend` -/
def ffsFragextend (fs : Fs) (i bprev osize nsize : ℕ) : ℕ × Fs :=
  let frag := fs.fsFrag.num
  if (fs.fsCs i).csNffree < nsize - osize then (0, fs)
  else
    let bbase := fs.fragnum bprev
    if bbase > fs.fragnum (bprev + nsize - 1) then (0, fs)
    else
      let cgp := fs.cg i
      let bno := fs.dtogd bprev
      if !allFree cgp.blksfree (nsize - osize) (bno + osize) then (0, fs)
      else
        let e := extendTo cgp.blksfree bno (frag - bbase - nsize) nsize
        let frsum := addAt cgp.cgFrsum (e - osize) (-1)
        let frsum := if e ≠ nsize then addAt frsum (e - nsize) 1 else frsum
        let nffree := nsize - osize
        (bprev, (fs.setCg i { cgp with
          blksfree := clrBits cgp.blksfree nffree (bno + osize)
          cgCs := cgp.cgCs.add 0 (-nffree)
          cgFrsum := frsum }).addSummary i 0 (-nffree))

/-! ## Clusters -/

/-- The loop of `ffs_clusteralloc` over the cluster map: the last block of the first `len` free ones
in a row, `n` blocks being left -/
def clusterScan (map : Map) (len : ℕ) : ℕ → ℕ → ℕ → Option ℕ
  | 0, _, _ => none
  | n + 1, run, got =>
    if isset map got then
      if run + 1 = len then some got else clusterScan map len n (run + 1) (got + 1)
    else clusterScan map len n 0 (got + 1)

/-- The loop of `ffs_clusteralloc` that checks the blocks -/
def clusterCheck (frag : Frag) (map : Map) : ℕ → ℕ → Bool
  | 0, _ => true
  | n + 1, b => ffsIsblock frag map b && clusterCheck frag map n (b + 1)

/-- The loop of `ffs_clusteralloc` that takes the blocks -/
def clusterTake (i : ℕ) : ℕ → ℕ → Fs → Except FfsPanic Fs
  | 0, _, fs => .ok fs
  | n + 1, bno, fs =>
    match ffsAlloccgblk fs i bno with
    | .error e => .error e
    | .ok (r, fs) => if r ≠ bno then .error .lostBlock else clusterTake i n (bno + fs.fsFrag.num) fs

/-- Whether there is a cluster of a size from `i` on, `n` sizes being left. -/
def hasCluster (sum : ℕ → ℤ) : ℕ → ℕ → Bool
  | 0, _ => false
  | n + 1, i => sum i > 0 || hasCluster sum n (i + 1)

/-- `ffs_clusteralloc` -/
def ffsClusteralloc (fs : Fs) (i bpref len : ℕ) : Except FfsPanic (ℕ × Fs) :=
  if fs.fsMaxcluster i < len then .ok (0, fs)
  else
    let cgp := fs.cg i
    if !hasCluster cgp.clustersum (fs.fsContigsumsize + 1 - len) len then
      .ok (0, { fs with
        fsMaxcluster := update fs.fsMaxcluster i (lastCluster cgp.clustersum (len - 1)) })
    else
      let bpref := if fs.dtog bpref ≠ i then 0 else fs.fragstoblks (fs.dtogd (fs.blknum bpref))
      match clusterScan cgp.clustersfree len (cgp.nclusterblks - bpref) 0 bpref with
      | none => .ok (0, fs)
      | some got =>
        if !clusterCheck fs.fsFrag cgp.blksfree len (got + 1 - len) then .error .mapMismatch
        else
          let bno := fs.cgbase i + fs.blkstofrags (got + 1 - len)
          if fs.dtog bno ≠ i then .error .outOfGroup
          else
            match clusterTake i len bno fs with
            | .error e => .error e
            | .ok fs => .ok (bno, fs)

/-! ## Freeing -/

/-- The loop of `ffs_blkfree` over the fragments -/
def freeBits (map : Map) : ℕ → ℕ → Except FfsPanic Map
  | 0, _ => .ok map
  | n + 1, bno =>
    if isset map bno then .error .freeingFreeFrag else freeBits (setbit map bno) n (bno + 1)

/-- `ffs_blkfree` -/
def ffsBlkfree (fs : Fs) (bno frags : ℕ) : Except FfsPanic Fs :=
  let frag := fs.fsFrag
  let i := fs.dtog bno
  if frags > frag.num ∨ fs.fragnum bno + frags > frag.num then .error .badSize
  else if bno ≥ fs.fsSize then .ok fs
  else
    let cgp := fs.cg i
    let cgbno := fs.dtogd bno
    if frags = frag.num then
      let fragno := fs.fragstoblks cgbno
      if !ffsIsfreeblock frag cgp.blksfree fragno then .error .freeingFreeBlock
      else
        let fs := fs.setCg i { cgp with blksfree := ffsSetblock frag cgp.blksfree fragno }
        let fs := ffsClusteracct fs i fragno 1
        let cgp := fs.cg i
        .ok ((fs.setCg i { cgp with cgCs := cgp.cgCs.add 1 0 }).addSummary i 1 0)
    else
      let bbase := cgbno - fs.fragnum cgbno
      let frsum := ffsFragacct frag (blkmap frag cgp.blksfree bbase) cgp.cgFrsum (-1)
      match freeBits cgp.blksfree frags cgbno with
      | .error e => .error e
      | .ok blksfree =>
        let frsum := ffsFragacct frag (blkmap frag blksfree bbase) frsum 1
        let fs := (fs.setCg i { cgp with
          blksfree := blksfree
          cgCs := cgp.cgCs.add 0 frags
          cgFrsum := frsum }).addSummary i 0 frags
        let fragno := fs.fragstoblks bbase
        if ffsIsblock frag blksfree fragno then
          let cgp := fs.cg i
          let fs := fs.setCg i { cgp with cgCs := cgp.cgCs.add 0 (-frag.num) }
          let fs := ffsClusteracct (fs.addSummary i 0 (-frag.num)) i fragno 1
          let cgp := fs.cg i
          .ok ((fs.setCg i { cgp with cgCs := cgp.cgCs.add 1 0 }).addSummary i 1 0)
        else .ok fs

/-! ## The search over the groups -/

/-- The quadratic rehash of `ffs_hashalloc` -/
def hashallocQuadratic (ncg frags i cg : ℕ) (fs : Fs) : Except FfsPanic (ℕ × Fs) :=
  if _h : 0 < i ∧ i < ncg then
    let cg := if cg + i ≥ ncg then cg + i - ncg else cg + i
    match ffsAlloccg fs cg 0 frags with
    | .error e => .error e
    | .ok (r, fs) => if r ≠ 0 then .ok (r, fs) else hashallocQuadratic ncg frags (i * 2) cg fs
  else .ok (0, fs)
termination_by ncg - i
decreasing_by omega

/-- The brute force search of `ffs_hashalloc`, `n` groups being left -/
def hashallocBrute (ncg frags : ℕ) : ℕ → ℕ → Fs → Except FfsPanic (ℕ × Fs)
  | 0, _, fs => .ok (0, fs)
  | n + 1, cg, fs =>
    match ffsAlloccg fs cg 0 frags with
    | .error e => .error e
    | .ok (r, fs) =>
      if r ≠ 0 then .ok (r, fs)
      else hashallocBrute ncg frags n (if cg + 1 = ncg then 0 else cg + 1) fs

/-- `ffs_hashalloc` with `ffs_alloccg` -/
def ffsHashalloc (fs : Fs) (icg pref frags : ℕ) : Except FfsPanic (ℕ × Fs) :=
  match ffsAlloccg fs icg pref frags with
  | .error e => .error e
  | .ok (r, fs) =>
    if r ≠ 0 then .ok (r, fs)
    else
      match hashallocQuadratic fs.fsNcg frags 1 icg fs with
      | .error e => .error e
      | .ok (r, fs) =>
        if r ≠ 0 then .ok (r, fs)
        else hashallocBrute fs.fsNcg frags (fs.fsNcg - 2) ((icg + 2) % fs.fsNcg) fs

end FreeBSDSys.Ffs
