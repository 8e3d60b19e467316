import FreeBSDSys.Lib.Probe

/-!
# The hash of a directory

A model of `ufs/ufs/ufs_dirhash.c`.  For a large directory the kernel keeps a hash table from names
to the offsets of the entries, with open addressing: a slot has an offset, is empty, or is a deleted
entry that a probe has to pass.  With it go the number of free words of each block of the directory
and, for each number of free words, the first block that has so many.

The directory itself is kept as the list of its entries with their offsets.  The size of an entry
is that of its name.  The hash value of a name is an arbitrary function of the name and of the
address of the table (`fnv`).

A function of the source that can run into a panic or an assertion has no result then; a table that
is given up (`ufsdirhash_free_locked`) is `none` inside the result.
-/

namespace FreeBSDSys.Dirhash

open Function Probe

/-! ## Directories -/

abbrev Name := List UInt8

def dirblksiz : ℕ := 512

def diralign : ℕ := 4

def maxnamlen : ℕ := 255

/-- `DIRECTSIZ`: the header, the name and its end, rounded up to a word -/
def directsiz (namlen : ℕ) : ℕ := (8 + (namlen + 1) + 3) / 4 * 4

/-- `DIRSIZ` of an entry -/
def dirsiz (name : Name) : ℕ := directsiz name.length

structure DirEntry where
  name : Name
  off : ℕ
deriving DecidableEq

def DirEntry.block (e : DirEntry) : ℕ := e.off / dirblksiz

structure Dir where
  nblk : ℕ
  entries : List DirEntry

/-- The bytes that the entries of a block take -/
def Dir.usedBytes (d : Dir) (b : ℕ) : ℕ :=
  ((d.entries.filter fun e => e.block = b).map fun e => dirsiz e.name).sum

/-- The name that is found at an offset -/
def Dir.nameAt (d : Dir) (off : ℤ) : Option Name :=
  (d.entries.find? fun e => (e.off : ℤ) = off).map DirEntry.name

/-- Names and offsets are unique, and the entries of a block fit into it. -/
structure Dir.WellFormed (d : Dir) : Prop where
  nonempty : 0 < d.nblk
  names : (d.entries.map DirEntry.name).Nodup
  offs : (d.entries.map DirEntry.off).Nodup
  inside : ∀ e ∈ d.entries, e.block < d.nblk
  fits : ∀ b, d.usedBytes b ≤ dirblksiz

/-! ## The table -/

/-- An unused slot -/
def dirhashEmpty : ℤ := -1

/-- A deleted entry, which may be part of a chain -/
def dirhashDel : ℤ := -2

/-- The largest number of words in an entry -/
def dhNfstats : ℕ := directsiz (maxnamlen + 1) / diralign

def dhNblkoff : ℕ := 256

structure Table where
  /-- The address of the table, which goes into the hash value -/
  addr : ℕ
  hash : ℕ → ℤ
  narrays : ℕ
  hlen : ℕ
  hused : ℤ
  blkfree : ℕ → ℕ
  nblk : ℕ
  dirblks : ℕ
  firstfree : ℕ → ℤ
  seqopt : Bool
  seqoff : ℤ

def blkfree2idx (n : ℕ) : ℕ := if dhNfstats < n then dhNfstats else n

def howmany (x y : ℕ) : ℕ := (x + (y - 1)) / y

variable (fnv : ℕ → Name → ℕ)

def ufsdirhashHash (dh : Table) (name : Name) : ℕ := fnv dh.addr name % dh.hlen

/-! ## Free space -/

/-- The first block from `i` on, of `n` blocks, that is in a class -/
def nextInClass (blkfree : ℕ → ℕ) (idx : ℕ) : ℕ → ℕ → ℤ
  | 0, _ => -1
  | n + 1, i => if blkfree2idx (blkfree i) = idx then i else nextInClass blkfree idx n (i + 1)

/-- The lists of first free blocks, when a block goes from one class to another -/
def moveClass (dh : Table) (block ofidx nfidx : ℕ) : ℕ → ℤ :=
  let firstfree :=
    if dh.firstfree ofidx = block then
      update dh.firstfree ofidx
        (nextInClass dh.blkfree ofidx (dh.dirblks - (block + 1)) (block + 1))
    else dh.firstfree
  if firstfree nfidx > block ∨ firstfree nfidx = -1 then
    update firstfree nfidx block
  else firstfree

/-- The number of free bytes in the block of an offset changes -/
def ufsdirhashAdjfree (dh : Table) (offset : ℕ) (diff : ℤ) : Option Table :=
  let block := offset / dirblksiz
  if block < dh.nblk ∧ block < dh.dirblks then
    let ofidx := blkfree2idx (dh.blkfree block)
    let free := ((dh.blkfree block + diff.tdiv diralign) % 256).toNat
    let dh := { dh with blkfree := update dh.blkfree block free }
    let nfidx := blkfree2idx free
    if ofidx ≠ nfidx then some { dh with firstfree := moveClass dh block ofidx nfidx }
    else some dh
  else none

/-! ## Slots -/

/-- The slot of an entry, which has to be there -/
def ufsdirhashFindslot (dh : Table) (name : Name) (offset : ℕ) : Option ℕ :=
  if dh.hused < dh.hlen then
    let slot := scan dh.hlen (fun s => dh.hash s = offset ∨ dh.hash s = dirhashEmpty) dh.hlen
      (ufsdirhashHash fnv dh name)
    if dh.hash slot = offset then some slot else none
  else none

/-- Deleted slots before an empty one become empty.  The length of the table is enough fuel. -/
def clearBack (hlen : ℕ) : ℕ → ℕ → (ℕ → ℤ) → ℤ → (ℕ → ℤ) × ℤ
  | 0, _, hash, hused => (hash, hused)
  | fuel + 1, i, hash, hused =>
    if hash i = dirhashDel then
      clearBack hlen fuel (wrapDecr i hlen) (update hash i dirhashEmpty) (hused - 1)
    else (hash, hused)

/-- A slot is marked as deleted, and made empty again if it is the end of a chain -/
def ufsdirhashDelslot (dh : Table) (slot : ℕ) : Option Table :=
  let hash := update dh.hash slot dirhashDel
  let i := scan dh.hlen (fun s => hash s ≠ dirhashDel) dh.hlen slot
  if hash i = dirhashEmpty then
    let (hash, hused) := clearBack dh.hlen dh.hlen (wrapDecr i dh.hlen) hash dh.hused
    if 0 ≤ hused then some { dh with hash := hash, hused := hused } else none
  else some { dh with hash := hash }

/-! ## Changes of the directory -/

/-- A new entry is put into an empty slot; a part of `ufsdirhash_build` -/
def buildEntry (dh : Table) (e : DirEntry) : Option Table :=
  let slot := scan dh.hlen (fun s => dh.hash s = dirhashEmpty) dh.hlen
    (ufsdirhashHash fnv dh e.name)
  ufsdirhashAdjfree
    { dh with hused := dh.hused + 1, hash := update dh.hash slot e.off }
    e.off (-dirsiz e.name)

/-- The table without entries, for a directory of a size -/
def emptyTable (addr size : ℕ) : Table :=
  let nslots := (size / directsiz 1 * 3 + 1) / 2
  let narrays := howmany nslots dhNblkoff
  let dirblocks := howmany size dirblksiz
  { addr := addr
    hash := fun _ => dirhashEmpty
    narrays := narrays
    hlen := narrays * dhNblkoff
    hused := 0
    blkfree := fun _ => dirblksiz / diralign
    nblk := (dirblocks * 3 + 1) / 2
    dirblks := dirblocks
    firstfree := fun i => if i = dhNfstats then 0 else -1
    seqopt := false
    seqoff := 0 }

/-- `ufsdirhash_build` of a directory whose entries are met in the order of a list -/
def ufsdirhashBuild (addr size : ℕ) (es : List DirEntry) : Option Table :=
  if dirblksiz ≤ size then es.foldlM (buildEntry fnv) (emptyTable addr size) else none

def ufsdirhashAdd (dh : Table) (name : Name) (offset : ℕ) : Option (Option Table) :=
  if offset < dh.dirblks * dirblksiz then
    if dh.hused ≥ (dh.hlen * 3 / 4 : ℕ) then some none
    else
      let slot := scan dh.hlen (fun s => dh.hash s < 0) dh.hlen (ufsdirhashHash fnv dh name)
      let hused := if dh.hash slot = dirhashEmpty then dh.hused + 1 else dh.hused
      (ufsdirhashAdjfree { dh with hused := hused, hash := update dh.hash slot offset }
        offset (-dirsiz name)).map some
  else none

def ufsdirhashRemove (dh : Table) (name : Name) (offset : ℕ) : Option (Option Table) :=
  if offset < dh.dirblks * dirblksiz then
    (ufsdirhashFindslot fnv dh name offset).bind fun slot =>
      (ufsdirhashDelslot dh slot).bind fun dh =>
        (ufsdirhashAdjfree dh offset (dirsiz name)).map some
  else none

def ufsdirhashMove (dh : Table) (name : Name) (oldoff newoff : ℕ) : Option (Option Table) :=
  if oldoff < dh.dirblks * dirblksiz ∧ newoff < dh.dirblks * dirblksiz then
    (ufsdirhashFindslot fnv dh name oldoff).map fun slot =>
      some { dh with hash := update dh.hash slot newoff }
  else none

def ufsdirhashNewblk (dh : Table) (offset : ℕ) : Option (Option Table) :=
  if offset = dh.dirblks * dirblksiz then
    let block := offset / dirblksiz
    if block ≥ dh.nblk then some none
    else
      some (some { dh with
        dirblks := block + 1
        blkfree := update dh.blkfree block (dirblksiz / diralign)
        firstfree :=
          if dh.firstfree dhNfstats = -1 then update dh.firstfree dhNfstats block
          else dh.firstfree })
  else none

def ufsdirhashDirtrunc (dh : Table) (offset : ℕ) : Option (Option Table) :=
  if offset ≤ dh.dirblks * dirblksiz then
    let block := howmany offset dirblksiz
    if block < dh.nblk / 8 ∧ dh.narrays > 1 then some none
    else
      let firstfree :=
        if dh.firstfree dhNfstats ≥ block then update dh.firstfree dhNfstats (-1)
        else dh.firstfree
      if ∃ i ∈ List.range dh.dirblks, block ≤ i ∧ dh.blkfree i ≠ dirblksiz / diralign then none
      else if ∃ i ∈ List.range dhNfstats, firstfree i ≥ block then none
      else some (some { dh with firstfree := firstfree, dirblks := block })
  else none

/-! ## Lookup -/

inductive Found where
  | found (offset : ℤ)
  | enoent
deriving DecidableEq

/-- The end of a lookup that has found the entry -/
def lookupFound (dh : Table) (name : Name) (offset : ℤ) : Found × Table :=
  (.found offset, { dh with
    seqopt := if dh.seqopt = false ∧ dh.seqoff = offset then true else dh.seqopt
    seqoff := offset + dirsiz name })

/-- An offset of the table has to be one of the directory -/
def badOffset (d : Dir) (offset : ℤ) : Prop := offset < 0 ∨ (d.nblk * dirblksiz : ℕ) ≤ offset

instance (d : Dir) (offset : ℤ) : Decidable (badOffset d offset) :=
  inferInstanceAs (Decidable (_ ∨ _))

/-- The search along the chain of a name, without the shortcut -/
def lookupChain (d : Dir) (dh : Table) (name : Name) : Option (Found × Table) :=
  let slot := scan dh.hlen (fun s => dh.hash s = dirhashEmpty ∨ dh.hash s ≠ dirhashDel ∧
      (badOffset d (dh.hash s) ∨ d.nameAt (dh.hash s) = some name))
    dh.hlen (ufsdirhashHash fnv dh name)
  if dh.hash slot = dirhashEmpty then some (.enoent, dh)
  else if badOffset d (dh.hash slot) then none
  else some (lookupFound dh name (dh.hash slot))

/-- `ufsdirhash_lookup`, when no other lookup runs.  The entry after the last one that was looked up
is tried first if it is in the chain of the name. -/
def ufsdirhashLookup (d : Dir) (dh : Table) (name : Name) : Option (Found × Table) :=
  if dh.seqopt then
    let i := scan dh.hlen (fun s => dh.hash s = dirhashEmpty ∨ dh.hash s = dh.seqoff) dh.hlen
      (ufsdirhashHash fnv dh name)
    if dh.hash i = dh.seqoff then
      if badOffset d (dh.hash i) then none
      else if d.nameAt (dh.hash i) = some name then some (lookupFound dh name (dh.hash i))
      else lookupChain fnv d { dh with seqopt := false } name
    else lookupChain fnv d { dh with seqopt := false } name
  else lookupChain fnv d dh name

/-! ## The records of a block -/

/-- A record of a block: its length, and the name if its inode number is not zero -/
structure Rec where
  reclen : ℕ
  name : Option Name

/-- The bytes of a record that its entry takes -/
def Rec.used (r : Rec) : ℕ := (r.name.map dirsiz).getD 0

/-- The entries of the records from a position on -/
def recEntries : ℕ → List Rec → List DirEntry
  | _, [] => []
  | pos, r :: recs =>
    (r.name.map fun name => (⟨name, pos⟩ : DirEntry)).toList ++ recEntries (pos + r.reclen) recs

/-- The records fill the block and have its entries. -/
structure Dir.Layout (d : Dir) (b : ℕ) (recs : List Rec) : Prop where
  total : (recs.map Rec.reclen).sum = dirblksiz
  pos : ∀ r ∈ recs, 0 < r.reclen
  fits : ∀ r ∈ recs, r.used ≤ r.reclen
  entries : (recEntries (b * dirblksiz) recs).Perm (d.entries.filter fun e => e.block = b)

/-- The records of a block from position `i` on: their entries have to be in the table, and the
free bytes are counted -/
def checkRecs (dh : Table) (offset : ℕ) : ℕ → List Rec → Option ℤ
  | i, [] => if i = dirblksiz then some 0 else none
  | i, r :: recs =>
    if i < dirblksiz then
      if r.reclen = 0 ∨ i + r.reclen > dirblksiz then none
      else
        match r.name with
        | none => (checkRecs dh offset (i + r.reclen) recs).map (r.reclen + ·)
        | some name =>
          (ufsdirhashFindslot fnv dh name (offset + i)).bind fun _ =>
            (checkRecs dh offset (i + r.reclen) recs).map ((r.reclen : ℤ) - dirsiz name + ·)
    else if i = dirblksiz then some 0 else none

def ufsdirhashCheckblock (dh : Table) (recs : List Rec) (offset : ℕ) : Option Unit :=
  let block := offset / dirblksiz
  if offset % dirblksiz ≠ 0 ∨ block ≥ dh.dirblks then none
  else
    (checkRecs fnv dh offset 0 recs).bind fun nfree =>
      if ((dh.blkfree block * diralign : ℕ) : ℤ) ≠ nfree then none
      else
        let ffslot := blkfree2idx (nfree.toNat / diralign)
        if (List.range (dhNfstats + 1)).any fun i => dh.firstfree i = block ∧ i ≠ ffslot then none
        else if dh.firstfree ffslot = -1 then none
        else some ()

/-- The first block of the `n` classes from `i` on -/
def firstFrom (firstfree : ℕ → ℤ) : ℕ → ℕ → ℤ
  | 0, _ => -1
  | n + 1, i => if firstfree i ≠ -1 then firstfree i else firstFrom firstfree n (i + 1)

/-- The records from the first one with free space on -/
def skipFull : ℕ → List Rec → Option (ℕ × List Rec)
  | i, [] => some (i, [])
  | i, r :: recs =>
    if i < dirblksiz then
      if r.reclen = 0 then none
      else if r.name = none ∨ r.reclen > r.used then some (i, r :: recs)
      else skipFull (i + r.reclen) recs
    else some (i, r :: recs)

/-- The records that are needed to get enough space -/
def gather (slotneeded : ℕ) : ℕ → ℤ → List Rec → Option (ℕ × ℤ)
  | i, freebytes, [] => some (i, freebytes)
  | i, freebytes, r :: recs =>
    if i < dirblksiz ∧ freebytes < slotneeded then
      if r.reclen = 0 then none
      else gather slotneeded (i + r.reclen) (freebytes + r.reclen - r.used) recs
    else some (i, freebytes)

/-- A place with so many free bytes in the block that the records are of: where the space begins
and how long the records there are.  No result inside means -1. -/
def ufsdirhashFindfree (dh : Table) (recs : ℕ → List Rec) (slotneeded : ℕ) :
    Option (Option (ℕ × ℕ)) :=
  let first := howmany slotneeded diralign
  let dirblock := firstFrom dh.firstfree (dhNfstats + 1 - first) first
  if dirblock = -1 then some none
  else if dirblock < dh.nblk ∧ first ≤ dh.blkfree dirblock.toNat then
    match skipFull 0 (recs dirblock.toNat) with
    | none => some none
    | some (i, rest) =>
      if i > dirblksiz then some none
      else
        match gather slotneeded i 0 rest with
        | none => some none
        | some (j, freebytes) =>
          if j > dirblksiz then some none
          else if freebytes < slotneeded then none
          else some (some (dirblock.toNat * dirblksiz + i, j - i))
  else none

/-- The position of the record before `entrypos`, from position `i` on -/
def prevRec (entrypos : ℕ) : ℕ → ℕ → List Rec → Option ℕ
  | i, prev, [] => if i < entrypos then none else some prev
  | i, prev, r :: recs =>
    if i < entrypos then
      if r.reclen = 0 ∨ i + r.reclen > entrypos then none
      else prevRec entrypos (i + r.reclen) i recs
    else some prev

/-- The offset of the entry before the one at an offset of the block -/
def ufsdirhashGetprev (recs : List Rec) (offset : ℕ) : Option ℕ :=
  let entrypos := offset % dirblksiz
  if entrypos = 0 then none
  else (prevRec entrypos 0 0 recs).map (offset / dirblksiz * dirblksiz + ·)

/-- The start of the unused blocks at the end of a directory, of which `n` blocks are left to
look at -/
def endUseful (blkfree : ℕ → ℕ) : ℕ → ℕ
  | 0 => 0
  | n + 1 => if blkfree n ≠ dirblksiz / diralign then n + 1 else endUseful blkfree n

def ufsdirhashEnduseful (dh : Table) : Option ℕ :=
  if dh.blkfree (dh.dirblks - 1) ≠ dirblksiz / diralign then none
  else some (endUseful dh.blkfree dh.dirblks * dirblksiz)

end FreeBSDSys.Dirhash
