import FreeBSDSys.Lib.Reachability
import FreeBSDSys.Ufs.DirhashOps

/-!
# A hashed directory over time

A directory is changed entry by entry and block by block; its table is built, told about every
change, asked for names, and given up at any time.  The table is that of the directory in every
state that is reached, so that no panic and no assertion of the module is ever met.

* `Hashed.checkblock`, `Hashed.findfree`: what the table says about a block agrees with its records.
* `Dir.Layout.getprev`: the entry before another one is found, so that a lookup can ask for it.
* `Hashed.enduseful`: the unused blocks at the end may be cut off.
* `hashed_of_reachable`: the invariant of every run.
* `dirhash_run`: what it means for the users of the table.
-/

namespace FreeBSDSys.Dirhash

open List Nat

variable {fnv : ℕ → Name → ℕ} {d : Dir} {dh : Table} {e : DirEntry} {recs : List Rec} {b pos i : ℕ}
  {c : Change} {s : State}

/-! ## The records of a block -/

/-- The bytes that are free in some records -/
def freeBytes (recs : List Rec) : ℤ := (recs.map fun r => (r.reclen : ℤ) - r.used).sum

theorem freeBytes_cons (r : Rec) (recs : List Rec) :
    freeBytes (r :: recs) = (r.reclen : ℤ) - r.used + freeBytes recs := rfl

theorem freeBytes_eq (pos : ℕ) (recs : List Rec) :
    freeBytes recs + ((recEntries pos recs).map fun e => dirsiz e.name).sum =
      (recs.map Rec.reclen).sum := by
  induction recs generalizing pos with
  | nil => rfl
  | cons r recs ih =>
    have hrest := ih (pos + r.reclen)
    have hhead : (((r.name.map fun name => (⟨name, pos⟩ : DirEntry)).toList).map
        fun e => dirsiz e.name).sum = r.used := by
      unfold Rec.used
      cases r.name with
      | none => rfl
      | some name => exact add_zero _
    rw [freeBytes_cons, recEntries, map_append, sum_append_nat, map_cons, sum_cons]
    omega

/-- The free bytes of a block are those of its records. -/
theorem Dir.Layout.freeBytes (hl : d.Layout b recs) :
    freeBytes recs + d.usedBytes b = dirblksiz := by
  have hsum := freeBytes_eq (b * dirblksiz) recs
  rw [(hl.entries.map _).sum_eq, hl.total] at hsum
  exact hsum

theorem mem_recEntries_cons {r : Rec} : e ∈ recEntries pos (r :: recs) ↔
      r.name = some e.name ∧ e.off = pos ∨ e ∈ recEntries (pos + r.reclen) recs := by
  rw [recEntries, mem_append, Option.mem_toList, Option.map_eq_some_iff]
  refine or_congr_left ⟨?_, ?_⟩
  · rintro ⟨name, hname, rfl⟩
    exact ⟨hname, rfl⟩
  · rintro ⟨hname, rfl⟩
    exact ⟨e.name, hname, rfl⟩

theorem le_of_mem_recEntries (he : e ∈ recEntries pos recs) : pos ≤ e.off := by
  induction recs generalizing pos with
  | nil => cases he
  | cons r recs ih =>
    rcases mem_recEntries_cons.mp he with ⟨-, hoff⟩ | he
    · exact hoff.ge
    · exact (le_add_right _ _).trans (ih he)

theorem Dir.Layout.mem (hl : d.Layout b recs) (he : e ∈ recEntries (b * dirblksiz) recs) :
    e ∈ d.entries :=
  (mem_filter.mp (hl.entries.mem_iff.mp he)).1

/-! ## The check of a block -/

theorem checkRecs_eq {offset : ℕ}
    (hslots : ∀ e ∈ recEntries (offset + i) recs, (ufsdirhashFindslot fnv dh e.name e.off).isSome)
    (hpos : ∀ r ∈ recs, 0 < r.reclen) (htotal : i + (recs.map Rec.reclen).sum = dirblksiz) :
    checkRecs fnv dh offset i recs = some (freeBytes recs) := by
  induction recs generalizing i with
  | nil => exact if_pos htotal
  | cons r recs ih =>
    have hr := hpos r mem_cons_self
    rw [map_cons, sum_cons] at htotal
    have hrest : checkRecs fnv dh offset (i + r.reclen) recs = some (freeBytes recs) := by
      refine ih (fun e he => hslots e (mem_recEntries_cons.mpr (.inr ?_)))
        (fun x hx => hpos x (mem_cons_of_mem _ hx)) (by omega)
      rwa [add_assoc]
    unfold checkRecs
    rw [if_pos (by omega), if_neg (by omega), hrest, freeBytes_cons, Rec.used]
    cases hname : r.name with
    | none => exact congrArg (fun x : ℤ => some (x + freeBytes recs)) (sub_zero _).symm
    | some name =>
      obtain ⟨slot, hslot⟩ := Option.isSome_iff_exists.mp
        (hslots ⟨name, offset + i⟩ (mem_recEntries_cons.mpr (.inl ⟨hname, rfl⟩)))
      simp only
      rw [hslot]
      rfl

/-- **The check of a block** passes. -/
theorem Hashed.checkblock (h : Hashed fnv d dh) (hb : b < d.nblk) (hl : d.Layout b recs) :
    ufsdirhashCheckblock fnv dh recs (b * dirblksiz) = some () := by
  have hblock : b * dirblksiz / dirblksiz = b := Nat.mul_div_cancel _ (by decide)
  have hrecs : checkRecs fnv dh (b * dirblksiz) 0 recs = some (freeBytes recs) := by
    refine checkRecs_eq (fun e he => ?_) hl.pos ((zero_add _).trans hl.total)
    rw [add_zero] at he
    obtain ⟨slot, -, hslot, -⟩ := h.slots.findslot (hl.mem he)
    rw [hslot]
    rfl
  have hfree := h.free.free b (h.blocks ▸ hb)
  have hbytes := hl.freeBytes
  have hcount : ((dh.blkfree b * diralign : ℕ) : ℤ) = freeBytes recs := by
    rw [← hfree] at hbytes
    exact (add_right_cancel hbytes).symm
  have hidx : (freeBytes recs).toNat / diralign = dh.blkfree b := by
    rw [← hcount]
    exact Nat.mul_div_cancel _ (by decide)
  have hfirst := h.free.first _ (blkfree2idx_le (dh.blkfree b))
  unfold ufsdirhashCheckblock
  rw [hblock, if_neg, hrecs, Option.bind_some, if_neg (not_not.mpr hcount), hidx]
  · rw [if_neg, if_neg]
    · obtain ⟨c, -, hc, -⟩ := hfirst.le (h.blocks ▸ hb) rfl
      omega
    · rw [any_eq_true]
      rintro ⟨i, hi, hclass⟩
      obtain ⟨hat, hne⟩ := of_decide_eq_true hclass
      rcases h.free.first i (Nat.lt_succ_iff.mp (mem_range.mp hi)) with
        ⟨hnone, -⟩ | ⟨c, -, hc, hPc, -⟩
      · omega
      · obtain rfl : c = b := Int.ofNat.inj (hc.symm.trans hat)
        exact hne hPc.symm
  · rintro (hrem | hge)
    · exact hrem (mul_mod_left _ _)
    · exact absurd hb (not_lt.mpr (h.blocks ▸ hge))

/-! ## A place for a new entry -/

theorem firstFrom_spec (firstfree : ℕ → ℤ) (n i : ℕ) :
    firstFrom firstfree n i = -1 ∨ ∃ j, i ≤ j ∧ j < i + n ∧ firstFrom firstfree n i = firstfree j ∧
      firstfree j ≠ -1 := by
  induction n generalizing i with
  | zero => exact .inl rfl
  | succ n ih =>
    unfold firstFrom
    split
    · rename_i hne
      exact .inr ⟨i, le_rfl, by omega, rfl, hne⟩
    · rcases ih (i + 1) with hnone | ⟨j, hij, hj, heq, hne⟩
      · exact .inl hnone
      · exact .inr ⟨j, by omega, by omega, heq, hne⟩

/-- The records that are left out have no free space. -/
theorem skipFull_spec (hpos : ∀ r ∈ recs, 0 < r.reclen) (hfits : ∀ r ∈ recs, r.used ≤ r.reclen) :
    ∃ j rest, skipFull i recs = some (j, rest) ∧ freeBytes rest = freeBytes recs ∧
      j + (rest.map Rec.reclen).sum = i + (recs.map Rec.reclen).sum ∧ ∀ r ∈ rest, r ∈ recs := by
  induction recs generalizing i with
  | nil => exact ⟨i, [], rfl, rfl, rfl, fun _ h => h⟩
  | cons r recs ih =>
    obtain ⟨j, rest, heq, hfree, htotal, hsub⟩ := ih (fun x hx => hpos x (mem_cons_of_mem _ hx))
      (fun x hx => hfits x (mem_cons_of_mem _ hx))
    have hr := hpos r mem_cons_self
    have hrfit := hfits r mem_cons_self
    unfold skipFull
    split
    · rw [if_neg hr.ne']
      split_ifs with hfull
      · exact ⟨_, _, rfl, rfl, rfl, fun _ h => h⟩
      · refine ⟨j, rest, heq, ?_, ?_, fun x hx => mem_cons_of_mem _ (hsub x hx)⟩
        · have hexact : r.reclen = r.used :=
            le_antisymm (not_lt.mp fun hlt => hfull (.inr hlt)) hrfit
          rw [hfree, freeBytes_cons, hexact, sub_self, zero_add]
        · rw [map_cons, sum_cons]
          omega
    · exact ⟨_, _, rfl, rfl, rfl, fun _ h => h⟩

/-- Enough bytes are gathered, or all. -/
theorem gather_spec (slotneeded : ℕ) (free : ℤ) (hpos : ∀ r ∈ recs, 0 < r.reclen)
    (htotal : i + (recs.map Rec.reclen).sum = dirblksiz) :
    ∃ j free', gather slotneeded i free recs = some (j, free') ∧ j ≤ dirblksiz ∧
      (slotneeded ≤ free' ∨ free' = free + freeBytes recs) := by
  induction recs generalizing i free with
  | nil => exact ⟨i, free, rfl, htotal.le, .inr (add_zero free).symm⟩
  | cons r recs ih =>
    have hr := hpos r mem_cons_self
    rw [map_cons, sum_cons] at htotal
    unfold gather
    split
    · rw [if_neg hr.ne']
      obtain ⟨j, free', heq, hj, hcase⟩ := ih (i := i + r.reclen) (free + r.reclen - r.used)
        (fun x hx => hpos x (mem_cons_of_mem _ hx))
        (by omega)
      refine ⟨j, free', heq, hj, hcase.imp_right fun h => ?_⟩
      rw [freeBytes_cons]
      omega
    · exact ⟨i, free, rfl, by omega, .inl (by omega)⟩

theorem blkfree2idx_le_self (n : ℕ) : blkfree2idx n ≤ n := by
  unfold blkfree2idx
  split <;> omega

theorem le_howmany (n : ℕ) : n ≤ howmany n diralign * diralign := by
  simp only [howmany, diralign]
  omega

/-- **The search for free space** finds what the table promises. -/
theorem Hashed.findfree (h : Hashed fnv d dh) {recs : ℕ → List Rec}
    (hl : ∀ b < d.nblk, d.Layout b (recs b)) (slotneeded : ℕ) :
    ufsdirhashFindfree dh recs slotneeded ≠ none := by
  unfold ufsdirhashFindfree
  simp only
  split
  · exact Option.some_ne_none _
  · rename_i hfound
    obtain ⟨i, hi, hlt, heq, -⟩ := (firstFrom_spec dh.firstfree
      (dhNfstats + 1 - howmany slotneeded diralign) (howmany slotneeded diralign)).resolve_left
      hfound
    rw [heq] at hfound ⊢
    obtain ⟨b, hb, hat, hclass, -⟩ := (h.free.first i (by omega)).resolve_left
      fun hnone => hfound hnone.1
    have hwords : howmany slotneeded diralign ≤ dh.blkfree b :=
      hi.trans (hclass ▸ blkfree2idx_le_self _)
    have hb' : b < d.nblk := h.blocks ▸ hb
    rw [hat, Int.toNat_natCast, if_pos ⟨Int.ofNat_lt.mpr (hb.trans_le h.free.blocks), hwords⟩]
    have hlay := hl b hb'
    obtain ⟨j, rest, hskip, hfree, htotal, hsub⟩ := skipFull_spec hlay.pos hlay.fits
    rw [hlay.total, zero_add] at htotal
    obtain ⟨k, free, hgather, hk, hcase⟩ := gather_spec slotneeded 0
      (fun r hr => hlay.pos r (hsub r hr)) htotal
    -- the records have all the free bytes that the table counts
    have hbytes := hlay.freeBytes
    have hcount := h.free.free b hb
    have hneeded : (slotneeded : ℤ) ≤ (dh.blkfree b * diralign : ℕ) :=
      Int.ofNat_le.mpr ((le_howmany slotneeded).trans (mul_le_mul_right _ hwords))
    have henough : slotneeded ≤ free := by
      rcases hcase with hle | hall
      · exact hle
      · rw [hall, hfree, zero_add]
        rw [← hcount] at hbytes
        exact hneeded.trans_eq (add_right_cancel hbytes).symm
    simp only [hskip, hgather]
    rw [if_neg (not_lt.mpr ((le_add_right _ _).trans_eq htotal)),
      if_neg (not_lt.mpr hk), if_neg (not_lt.mpr henough)]
    exact Option.some_ne_none _

/-! ## The entry before another one -/

theorem prevRec_isSome {entrypos prev base : ℕ} (hpos : ∀ r ∈ recs, 0 < r.reclen)
    (he : e ∈ recEntries (base + i) recs) (hoff : e.off = base + entrypos) :
    (prevRec entrypos i prev recs).isSome := by
  induction recs generalizing i prev with
  | nil => cases he
  | cons r recs ih =>
    unfold prevRec
    split
    · have hrest := (mem_recEntries_cons.mp he).resolve_left fun h => by omega
      rw [add_assoc] at hrest
      have hle := le_of_mem_recEntries hrest
      have hr := hpos r mem_cons_self
      rw [if_neg (by omega)]
      exact ih (fun x hx => hpos x (mem_cons_of_mem _ hx)) hrest
    · rfl

/-- An entry that is not the first of its block has one before it. -/
theorem Dir.Layout.getprev (hl : d.Layout e.block recs) (he : e ∈ d.entries)
    (hstart : e.off % dirblksiz ≠ 0) : (ufsdirhashGetprev recs e.off).isSome := by
  have hmem : e ∈ recEntries (e.block * dirblksiz + 0) recs := by
    rw [add_zero]
    exact hl.entries.mem_iff.mpr (mem_filter.mpr ⟨he, decide_eq_true rfl⟩)
  unfold ufsdirhashGetprev
  rw [if_neg hstart, Option.isSome_map]
  exact prevRec_isSome hl.pos hmem (div_add_mod' _ _).symm

/-! ## The unused blocks at the end -/

theorem endUseful_spec (blkfree : ℕ → ℕ) (n : ℕ) : endUseful blkfree n ≤ n ∧
      ∀ b, endUseful blkfree n ≤ b → b < n → blkfree b = dirblksiz / diralign := by
  induction n with
  | zero => exact ⟨le_rfl, fun _ _ h => absurd h (not_lt_zero _)⟩
  | succ n ih =>
    unfold endUseful
    split_ifs with hfree
    · exact ⟨le_rfl, fun b hle hlt => absurd hle (not_le.mpr hlt)⟩
    · refine ⟨ih.1.trans (Nat.le_succ n), fun b hle hlt => ?_⟩
      rcases Nat.lt_succ_iff_lt_or_eq.mp hlt with hb | rfl
      · exact ih.2 b hle hb
      · exact not_not.mp hfree

theorem Dir.dirsiz_le_usedBytes (he : e ∈ d.entries) : dirsiz e.name ≤ d.usedBytes e.block :=
  single_le_sum (fun _ _ => zero_le _) _ (mem_map.mpr
    ⟨e, mem_filter.mpr ⟨he, decide_eq_true rfl⟩, rfl⟩)

/-- The table of a directory, which may be absent -/
inductive Hash where
  | absent
  | present (dh : Table)
  | panicked

structure State where
  dir : Dir
  hash : Hash

/-- A change of the directory -/
inductive Change where
  | add (e : DirEntry)
  | remove (e : DirEntry)
  | move (e : DirEntry) (off : ℕ)
  | newblk
  | dirtrunc (k : ℕ)

def Change.dir : Change → Dir → Dir
  | .add e, d => d.add e
  | .remove e, d => d.remove e
  | .move e off, d => d.move e off
  | .newblk, d => d.newblk
  | .dirtrunc k, d => d.dirtrunc k

/-- The changes that a well-formed directory can have: entries move within their block, and only
blocks without entries are cut off -/
def Change.Possible : Change → Dir → Prop
  | .add e, d => (d.add e).WellFormed
  | .remove e, d => e ∈ d.entries
  | .move e off, d =>
    e ∈ d.entries ∧ off / dirblksiz = e.block ∧ (d.move e off).WellFormed
  | .newblk, _ => True
  | .dirtrunc k, d => 0 < k ∧ k ≤ d.nblk ∧ ∀ e ∈ d.entries, e.block < k

/-- What the table is told -/
def Change.call (fnv : ℕ → Name → ℕ) : Change → Dir → Table → Option (Option Table)
  | .add e, _, dh => ufsdirhashAdd fnv dh e.name e.off
  | .remove e, _, dh => ufsdirhashRemove fnv dh e.name e.off
  | .move e off, _, dh => ufsdirhashMove fnv dh e.name e.off off
  | .newblk, d, dh => ufsdirhashNewblk dh (d.nblk * dirblksiz)
  | .dirtrunc k, _, dh => ufsdirhashDirtrunc dh (k * dirblksiz)

def Hash.ofResult : Option (Option Table) → Hash
  | none => .panicked
  | some none => .absent
  | some (some dh) => .present dh

/-- The table after a call, which does nothing when there is no table -/
def Hash.after (f : Table → Option (Option Table)) : Hash → Hash
  | .absent => .absent
  | .present dh => .ofResult (f dh)
  | .panicked => .panicked

inductive Step (fnv : ℕ → Name → ℕ) : State → State → Prop
  /-- the directory is changed, and its table is told -/
  | change {d : Dir} {hash : Hash} (c : Change) (hc : c.Possible d) :
    Step fnv ⟨d, hash⟩ ⟨c.dir d, hash.after (c.call fnv d)⟩
  /-- a table is built, with the entries in the order of the directory -/
  | build {d : Dir} (addr : ℕ) (es : List DirEntry) (hes : es.Perm d.entries)
    (hsorted : es.Pairwise fun e e' => e.off < e'.off) :
    Step fnv ⟨d, .absent⟩
      ⟨d, .ofResult ((ufsdirhashBuild fnv addr (d.nblk * dirblksiz) es).map some)⟩
  /-- a name is looked up -/
  | lookup {d : Dir} {hash : Hash} (name : Name) :
    Step fnv ⟨d, hash⟩
      ⟨d, hash.after fun dh => (ufsdirhashLookup fnv d dh name).map fun r => some r.2⟩
  /-- the table is given up -/
  | free {d : Dir} {dh : Table} : Step fnv ⟨d, .present dh⟩ ⟨d, .absent⟩

def Hash.Ok (fnv : ℕ → Name → ℕ) (d : Dir) : Hash → Prop
  | .absent => True
  | .present dh => Hashed fnv d dh
  | .panicked => False

theorem Hash.ok_ofResult {r : Option (Option Table)}
    (hr : ∃ r', r = some r' ∧ ∀ dh', r' = some dh' → Hashed fnv d dh') :
    (Hash.ofResult r).Ok fnv d := by
  obtain ⟨_ | dh', rfl, hok⟩ := hr
  · trivial
  · exact hok dh' rfl

/-- A call that turns the table of `d` into that of `d'`, or gives it up. -/
theorem Hash.Ok.after {d' : Dir} {hash : Hash} {f : Table → Option (Option Table)}
    (h : hash.Ok fnv d)
    (hf : ∀ dh, Hashed fnv d dh → ∃ r, f dh = some r ∧ ∀ dh', r = some dh' → Hashed fnv d' dh') :
    (hash.after f).Ok fnv d' := by
  cases hash with
  | absent => trivial
  | present dh => exact Hash.ok_ofResult (hf dh h)
  | panicked => exact h

theorem Change.wellFormed (hc : c.Possible d) (hd : d.WellFormed) : (c.dir d).WellFormed := by
  cases c with
  | add e => exact hc
  | remove e => exact hd.remove hc
  | move e off => exact hc.2.2
  | newblk =>
    exact ⟨succ_pos _, hd.names, hd.offs,
      fun e he => (hd.inside e he).trans (lt_succ_self _), hd.fits⟩
  | dirtrunc k => exact ⟨hc.1, hd.names, hd.offs, hc.2.2, hd.fits⟩

/-- **Every change** gives the table of the changed directory. -/
theorem Change.hashed (hc : c.Possible d) (hd : d.WellFormed) (h : Hashed fnv d dh) :
    ∃ r, c.call fnv d dh = some r ∧ ∀ dh', r = some dh' → Hashed fnv (c.dir d) dh' := by
  have hd' := Change.wellFormed hc hd
  cases c with
  | add e => exact h.add hd'
  | remove e => exact h.remove hd hc
  | move e off => exact h.move hd hc.1 hc.2.1 hd'
  | newblk => exact h.newblk hd
  | dirtrunc k => exact h.dirtrunc hc.2.1 hd'

theorem Hashed.lookup (h : Hashed fnv d dh) (hd : d.WellFormed) (name : Name) :
    ∃ r dh', ufsdirhashLookup fnv d dh name = some (r, dh') ∧ Hashed fnv d dh' ∧
      r.Correct d name := by
  obtain ⟨r, dh', heq, ⟨opt, off, hoff, rfl⟩, hr⟩ := h.slots.lookup hd h.seq name
  exact ⟨r, _, heq, ⟨h.slots, ⟨h.free.blocks, h.free.free, h.free.first⟩, h.blocks, hoff⟩, hr⟩

theorem Step.ok {s' : State} (hs : Step fnv s s') (hd : s.dir.WellFormed)
    (h : s.hash.Ok fnv s.dir) : s'.dir.WellFormed ∧ s'.hash.Ok fnv s'.dir := by
  cases hs with
  | change c hc =>
    exact ⟨Change.wellFormed hc hd, h.after fun _ => Change.hashed hc hd⟩
  | build addr es hes hsorted =>
    obtain ⟨dh, heq, hok⟩ := hashed_build hd addr hes
    refine ⟨hd, Hash.ok_ofResult ⟨some dh, congrArg (Option.map some) heq, ?_⟩⟩
    rintro _ ⟨⟩
    exact hok
  | lookup name =>
    refine ⟨hd, h.after fun dh hdh => ?_⟩
    obtain ⟨r, dh', heq, hok, -⟩ := hdh.lookup hd name
    refine ⟨some dh', by rw [heq]; rfl, ?_⟩
    rintro _ ⟨⟩
    exact hok
  | free => exact ⟨hd, trivial⟩

/-- **The invariant of every run.** -/
theorem hashed_of_reachable {d0 : Dir} (hd0 : d0.WellFormed)
    (h : Reachable (fun s => s = ⟨d0, .absent⟩) (Step fnv) s) :
    s.dir.WellFormed ∧ s.hash.Ok fnv s.dir := by
  refine h.invariant (I := fun s => s.dir.WellFormed ∧ s.hash.Ok fnv s.dir) ?_ ?_
  · rintro _ rfl
    exact ⟨hd0, trivial⟩
  · exact fun s s' hI hstep => hstep.ok hI.1 hI.2

theorem Hashed.blkfree_eq (h : Hashed fnv d dh) (hb : b < d.nblk) :
    dh.blkfree b = d.freeWords b := by
  have hfree := h.free.free b (h.blocks ▸ hb)
  unfold Dir.freeWords
  simp only [diralign] at hfree ⊢
  omega

/-- **In every run** no panic and no assertion is met, and while there is a table: a lookup finds
the offset of an entry exactly when the directory has the name, and the entry before it in its
block; the used slots are counted, and the free words of each block and the first block of each
class are those of the directory; the check of a block passes, and the search for free space
succeeds on what the table promises. -/
theorem dirhash_run (fnv : ℕ → Name → ℕ) {d₀ : Dir} {s : State} (hd₀ : d₀.WellFormed)
    (h : Reachable (fun s => s = ⟨d₀, .absent⟩) (Step fnv) s) :
    s.hash ≠ .panicked ∧ ∀ dh, s.hash = .present dh →
      (∀ name, ∃ r dh', ufsdirhashLookup fnv s.dir dh name = some (r, dh') ∧ r.Correct s.dir name) ∧
      (∀ e ∈ s.dir.entries, ∀ recs, s.dir.Layout e.block recs → e.off % dirblksiz ≠ 0 →
        (ufsdirhashGetprev recs e.off).isSome) ∧
      dh.hused = usedSlots dh.hlen dh.hash ∧
      (∀ b < s.dir.nblk, dh.blkfree b = s.dir.freeWords b) ∧
      (∀ i ≤ dhNfstats, IsFirst (fun b => blkfree2idx (s.dir.freeWords b) = i) s.dir.nblk
        (dh.firstfree i)) ∧
      (∀ b < s.dir.nblk, ∀ recs, s.dir.Layout b recs →
        ufsdirhashCheckblock fnv dh recs (b * dirblksiz) = some ()) ∧
      ∀ recs : ℕ → List Rec, (∀ b < s.dir.nblk, s.dir.Layout b (recs b)) →
        ∀ slotneeded, ufsdirhashFindfree dh recs slotneeded ≠ none := by
  obtain ⟨hd, hok⟩ := hashed_of_reachable hd₀ h
  constructor
  · intro hpanic
    rw [hpanic] at hok
    exact hok
  · intro dh hdh
    rw [hdh] at hok
    have hh : Hashed fnv s.dir dh := hok
    refine ⟨fun name => ?_, fun _ he _ hl => hl.getprev he, hh.slots.used,
      fun _ => hh.blkfree_eq, fun i hi => ?_, fun _ hb _ => hh.checkblock hb,
      fun _ => hh.findfree⟩
    · obtain ⟨r, dh', heq, -, hr⟩ := hh.lookup hd name
      exact ⟨r, dh', heq, hr⟩
    · have hfirst := hh.free.first i hi
      rw [hh.blocks] at hfirst
      exact hfirst.congr fun b hb => by rw [hh.blkfree_eq hb]

/-- A directory with one entry, hashed: its name is found. -/
theorem dirhash_run_build : ∃ dh, Reachable (fun s => s = ⟨⟨5, [⟨[46], 0⟩]⟩, .absent⟩)
    (Step fun _ _ => 0) ⟨⟨5, [⟨[46], 0⟩]⟩, .present dh⟩ ∧
    ∃ dh', ufsdirhashLookup (fun _ _ => 0) ⟨5, [⟨[46], 0⟩]⟩ dh [46] = some (.found 0, dh') := by
  have hd : Dir.WellFormed ⟨5, [⟨[46], 0⟩]⟩ := by
    refine ⟨by decide, by decide, by decide, by decide, fun b => ?_⟩
    by_cases hb : b = 0
    · subst hb
      decide
    · rw [Dir.usedBytes_eq_zero]
      · decide
      · intro e he
        rw [mem_singleton.mp he]
        exact Ne.symm hb
  obtain ⟨dh, heq, -⟩ : ∃ dh, ufsdirhashBuild (fun _ _ => 0) 0 (5 * dirblksiz) [⟨[46], 0⟩] =
      some dh ∧ Hashed (fun _ _ => 0) ⟨5, [⟨[46], 0⟩]⟩ dh := hashed_build hd 0 (Perm.refl _)
  have hrun : Reachable (fun s => s = ⟨⟨5, [⟨[46], 0⟩]⟩, .absent⟩) (Step fun _ _ => 0)
      ⟨⟨5, [⟨[46], 0⟩]⟩, .present dh⟩ := by
    have hstep : Step (fun _ _ => 0) ⟨⟨5, [⟨[46], 0⟩]⟩, .absent⟩ ⟨⟨5, [⟨[46], 0⟩]⟩, .ofResult
        ((ufsdirhashBuild (fun _ _ => 0) 0 (5 * dirblksiz) [⟨[46], 0⟩]).map some)⟩ :=
      .build 0 _ (Perm.refl _) (pairwise_singleton _ _)
    rw [heq] at hstep
    exact Reachable.tail (Reachable.of_init (by rfl)) hstep
  refine ⟨dh, hrun, ?_⟩
  obtain ⟨r, dh', hr, hcorrect⟩ := ((dirhash_run _ hd hrun).2 dh rfl).1 [46]
  obtain rfl : r = .found 0 := (hcorrect 0).mpr ⟨_, mem_singleton_self _, rfl, rfl⟩
  exact ⟨dh', hr⟩

end FreeBSDSys.Dirhash
