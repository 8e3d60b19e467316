import FreeBSDSys.Ufs.DirhashFree

/-!
# Changes of a hashed directory

Every function that the file system calls when it changes a directory turns the table of the
directory before into the table of the directory after, or gives it up; none of them runs into a
panic.

* `Hashed`: the table of a directory.
* `Hashed.add`, `Hashed.remove`, `Hashed.move`, `Hashed.newblk`, `Hashed.dirtrunc`: the changes.
* `hashed_build`: a table that is built is that of the directory.  There are enough slots for the
  entries that fit into the blocks.
-/

namespace FreeBSDSys.Dirhash

open Dir Function List Probe Nat

variable {fnv : ℕ → Name → ℕ} {d d' : Dir} {dh : Table} {e : DirEntry} {off : ℕ}

/-! ## Directories -/

def Dir.add (d : Dir) (e : DirEntry) : Dir := { d with entries := e :: d.entries }

def Dir.remove (d : Dir) (e : DirEntry) : Dir := { d with entries := d.entries.erase e }

/-- An entry gets another offset -/
def Dir.move (d : Dir) (e : DirEntry) (off : ℕ) : Dir := (d.remove e).add ⟨e.name, off⟩

def Dir.newblk (d : Dir) : Dir := { d with nblk := d.nblk + 1 }

def Dir.dirtrunc (d : Dir) (k : ℕ) : Dir := { d with nblk := k }

/-- The free words of a block -/
def Dir.freeWords (d : Dir) (b : ℕ) : ℕ := (dirblksiz - d.usedBytes b) / diralign

theorem Dir.usedBytes_perm {d : Dir} (hperm : d.entries.Perm d'.entries) (b : ℕ) :
    d.usedBytes b = d'.usedBytes b :=
  ((hperm.filter _).map _).sum_eq

theorem Dir.usedBytes_add (d : Dir) (e : DirEntry) (b : ℕ) :
    (d.add e).usedBytes b = (if e.block = b then dirsiz e.name else 0) + d.usedBytes b := by
  unfold usedBytes add
  rw [filter_cons]
  by_cases hb : e.block = b
  · rw [if_pos (decide_eq_true hb), if_pos hb, map_cons, sum_cons]
  · rw [if_neg (by simpa using hb), if_neg hb, zero_add]

theorem Dir.usedBytes_remove (he : e ∈ d.entries) (b : ℕ) :
    d.usedBytes b = (if e.block = b then dirsiz e.name else 0) + (d.remove e).usedBytes b := by
  rw [← usedBytes_add]
  exact usedBytes_perm (perm_cons_erase he) b

theorem Dir.usedBytes_move (he : e ∈ d.entries) (hblock : off / dirblksiz = e.block)
    (b : ℕ) : (d.move e off).usedBytes b = d.usedBytes b := by
  rw [move, usedBytes_add, usedBytes_remove he, DirEntry.block, hblock]

/-- A directory with fewer entries. -/
theorem Dir.WellFormed.of_add (hd : (d.add e).WellFormed) : d.WellFormed where
  nonempty := hd.nonempty
  names := (nodup_cons.mp hd.names).2
  offs := (nodup_cons.mp hd.offs).2
  inside x hx := hd.inside x (mem_cons_of_mem _ hx)
  fits b := by
    have hfits := hd.fits b
    rw [usedBytes_add] at hfits
    omega

theorem Dir.WellFormed.of_append {xs : List DirEntry}
    (hd : WellFormed ⟨d.nblk, xs ++ d.entries⟩) : d.WellFormed := by
  induction xs with
  | nil => exact hd
  | cons x xs ih => exact ih (WellFormed.of_add hd)

theorem Dir.WellFormed.of_perm (hd : d.WellFormed) (hnblk : d'.nblk = d.nblk)
    (hperm : d'.entries.Perm d.entries) : d'.WellFormed where
  nonempty := hnblk ▸ hd.nonempty
  names := (hperm.map _).nodup_iff.mpr hd.names
  offs := (hperm.map _).nodup_iff.mpr hd.offs
  inside x hx := hnblk ▸ hd.inside x (hperm.mem_iff.mp hx)
  fits b := (usedBytes_perm hperm b).trans_le (hd.fits b)

theorem Dir.WellFormed.remove (hd : d.WellFormed) (he : e ∈ d.entries) :
    (d.remove e).WellFormed := by
  have hperm : ((d.remove e).add e).WellFormed := hd.of_perm rfl (perm_cons_erase he).symm
  exact hperm.of_add

theorem Dir.WellFormed.nodup (hd : d.WellFormed) : d.entries.Nodup := hd.names.of_map _

theorem Dir.WellFormed.mem_remove (hd : d.WellFormed) {x : DirEntry} :
    x ∈ (d.remove e).entries ↔ x ∈ d.entries ∧ x ≠ e :=
  hd.nodup.mem_erase_iff.trans and_comm

theorem Dir.usedBytes_eq_zero {b : ℕ} (hnone : ∀ e ∈ d.entries, e.block ≠ b) :
    d.usedBytes b = 0 := by
  unfold usedBytes
  rw [filter_eq_nil_iff.mpr fun e he => by simpa using hnone e he]
  rfl

theorem diralign_dvd_dirsiz (name : Name) : (diralign : ℤ) ∣ dirsiz name := by
  refine Int.natCast_dvd_natCast.mpr ?_
  exact dvd_mul_left _ _

/-! ## The table of a directory -/

structure Hashed (fnv : ℕ → Name → ℕ) (d : Dir) (dh : Table) : Prop where
  slots : dh.Slots fnv d.entries
  free : FreeOk d.usedBytes dh
  blocks : dh.dirblks = d.nblk
  seq : 0 ≤ dh.seqoff

section

variable (h : Hashed fnv d dh)

include h

/-- An entry is put into the first slot of its chain at which a search stops. -/
theorem Hashed.put {hused : ℤ} {slot : ℕ} (hd : (d.add e).WellFormed)
    (stop : ℕ → Bool) (hempty : ∀ s, dh.hash s = dirhashEmpty → stop s = true)
    (hstop : ∀ s, stop s = true → dh.hash s < 0)
    (hslot : slot = scan dh.hlen stop dh.hlen (ufsdirhashHash fnv dh e.name))
    (hcount : hused = if dh.hash slot = dirhashEmpty then dh.hused + 1 else dh.hused)
    (hroom : hused < dh.hlen) :
    ∃ dh', ufsdirhashAdjfree
        { dh with hused := hused, hash := update dh.hash slot e.off }
        e.off (-dirsiz e.name) = some dh' ∧
      Hashed fnv (d.add e) dh' ∧ dh'.hused = hused ∧ dh'.hlen = dh.hlen := by
  obtain ⟨hlt, hat, hwalk⟩ := Slots.scan_spec h.slots stop e.name hempty
  rw [← hslot] at hlt hat hwalk
  have hchain : Chain dh.hlen dh.hash dirhashEmpty (ufsdirhashHash fnv dh e.name) slot := by
    refine Walk.mono hwalk fun a ha hae => ?_
    rw [hempty a hae] at ha
    exact Bool.noConfusion ha
  have hnew : ∀ x ∈ d.entries, x.off ≠ e.off := by
    intro x hx heq
    exact (nodup_cons.mp hd.offs).1 (mem_map.mpr ⟨x, hx, heq⟩)
  have hslots : Slots (ufsdirhashHash fnv dh) (d.add e).entries dh.hlen
      (update dh.hash slot e.off) hused :=
    Slots.insert h.slots (fun _ => mem_cons) hnew hlt (hstop slot hat) hchain hcount hroom
  have hfree : FreeOk d.usedBytes
      { dh with hused := hused, hash := update dh.hash slot e.off } :=
    ⟨h.free.blocks, h.free.free, h.free.first⟩
  have hblock : e.off / dirblksiz < dh.dirblks := h.blocks ▸ hd.inside e mem_cons_self
  obtain ⟨blkfree, firstfree, heq, hok⟩ := hfree.adjfree (d.add e).usedBytes rfl hblock
    (Int.dvd_neg.mpr (diralign_dvd_dirsiz e.name))
    (by rw [usedBytes_add, DirEntry.block, if_pos rfl]; omega) (hd.fits _)
    (fun b hb => by rw [usedBytes_add, DirEntry.block, if_neg (Ne.symm hb), zero_add])
  exact ⟨_, heq, ⟨hslots, hok, h.blocks, h.seq⟩, rfl, rfl⟩

theorem Hashed.offset_lt (hd : d.WellFormed) (he : e ∈ d.entries) :
    e.off < dh.dirblks * dirblksiz :=
  h.blocks ▸ hd.off_lt he

/-- **A new entry.** -/
theorem Hashed.add (hd : (d.add e).WellFormed) : ∃ r, ufsdirhashAdd fnv dh e.name e.off = some r ∧
      ∀ dh', r = some dh' → Hashed fnv (d.add e) dh' := by
  unfold ufsdirhashAdd
  have hoff : e.off < dh.dirblks * dirblksiz := by
    rw [h.blocks]
    exact hd.off_lt mem_cons_self
  rw [if_pos hoff]
  split
  · exact ⟨none, rfl, nofun⟩
  · have hlen := zero_lt_of_lt (h.slots.inside e.name)
    obtain ⟨dh', heq, hok, -⟩ := h.put hd (fun s => decide (dh.hash s < 0))
      (fun s hs => by rw [hs]; decide) (fun _ => of_decide_eq_true) rfl rfl
      (by split <;> omega)
    refine ⟨some dh', ?_, ?_⟩
    · simp only
      rw [heq]
      rfl
    · rintro _ ⟨⟩
      exact hok

/-- **An entry goes.** -/
theorem Hashed.remove (hd : d.WellFormed) (he : e ∈ d.entries) :
    ∃ r, ufsdirhashRemove fnv dh e.name e.off = some r ∧
      ∀ dh', r = some dh' → Hashed fnv (d.remove e) dh' := by
  obtain ⟨slot, hlt, hfind, hval⟩ := h.slots.findslot he
  obtain ⟨hash, hused, hdel, hslots⟩ := h.slots.delslot he
    (fun _ hx => hd.eq_of_off hx he) hlt hval fun x => hd.mem_remove
  have hfree : FreeOk d.usedBytes { dh with hash := hash, hused := hused } :=
    ⟨h.free.blocks, h.free.free, h.free.first⟩
  have hblock : e.off / dirblksiz < dh.dirblks := h.blocks ▸ hd.inside e he
  have hused := usedBytes_remove he
  obtain ⟨blkfree, firstfree, heq, hok⟩ := hfree.adjfree (d.remove e).usedBytes rfl hblock
    (diralign_dvd_dirsiz e.name)
    (by rw [hused, DirEntry.block, if_pos rfl]; omega) ((hd.remove he).fits _)
    (fun b hb => by rw [hused, DirEntry.block, if_neg (Ne.symm hb), zero_add])
  unfold ufsdirhashRemove
  rw [if_pos (h.offset_lt hd he), hfind, Option.bind_some, hdel, Option.bind_some, heq]
  refine ⟨_, rfl, ?_⟩
  rintro _ ⟨⟩
  exact ⟨hslots, hok, h.blocks, h.seq⟩

/-- **An entry gets another offset in its block.** -/
theorem Hashed.move (hd : d.WellFormed) (he : e ∈ d.entries)
    (hblock : off / dirblksiz = e.block) (hd' : (d.move e off).WellFormed) :
    ∃ r, ufsdirhashMove fnv dh e.name e.off off = some r ∧
      ∀ dh', r = some dh' → Hashed fnv (d.move e off) dh' := by
  obtain ⟨slot, hlt, hfind, hval⟩ := h.slots.findslot he
  have hoff : off < dh.dirblks * dirblksiz := by
    rw [h.blocks]
    exact hd'.off_lt mem_cons_self
  have hnew : ∀ x ∈ (d.remove e).entries, x.off ≠ off := by
    intro x hx heq
    exact (nodup_cons.mp hd'.offs).1 (mem_map.mpr ⟨x, hx, heq⟩)
  have hslots : Slots (ufsdirhashHash fnv dh) (d.move e off).entries dh.hlen
      (update dh.hash slot off) dh.hused := by
    refine Slots.replace h.slots he (fun _ hx => hd.eq_of_off hx he) hlt hval
      (by rw [dirhashEmpty]; omega) (.inr (by omega)) (fun x hx => ?_) (fun x hx hne => ?_)
      fun _ => ⟨_, mem_cons_self, rfl⟩
    · rcases mem_cons.mp hx with rfl | hx
      · exact .inr ⟨rfl, rfl⟩
      · exact .inl (hd.mem_remove.mp hx)
    · have hmem : x ∈ (d.remove e).entries := hd.mem_remove.mpr ⟨hx, hne⟩
      exact ⟨mem_cons_of_mem _ hmem, fun heq => hnew x hmem (Int.ofNat.inj heq)⟩
  unfold ufsdirhashMove
  rw [if_pos ⟨h.offset_lt hd he, hoff⟩, hfind]
  refine ⟨_, rfl, ?_⟩
  rintro _ ⟨⟩
  refine ⟨hslots, ?_, h.blocks, h.seq⟩
  rw [show (d.move e off).usedBytes = d.usedBytes from funext (usedBytes_move he hblock)]
  exact ⟨h.free.blocks, h.free.free, h.free.first⟩

/-- **The directory grows.** -/
theorem Hashed.newblk (hd : d.WellFormed) : ∃ r, ufsdirhashNewblk dh (d.nblk * dirblksiz) = some r ∧
      ∀ dh', r = some dh' → Hashed fnv d.newblk dh' := by
  have hunused : d.usedBytes dh.dirblks = 0 :=
    usedBytes_eq_zero fun e he => h.blocks ▸ (hd.inside e he).ne
  obtain ⟨r, hr, hok⟩ := h.free.newblk hunused
  rw [h.blocks] at hr
  refine ⟨r, hr, fun dh' hdh' => ?_⟩
  obtain ⟨blkfree, firstfree, rfl, hfree⟩ := hok dh' hdh'
  exact ⟨h.slots, hfree, congrArg succ h.blocks, h.seq⟩

/-- **Blocks without entries are cut off.** -/
theorem Hashed.dirtrunc {k : ℕ} (hk : k ≤ d.nblk) (hd : (d.dirtrunc k).WellFormed) :
    ∃ r, ufsdirhashDirtrunc dh (k * dirblksiz) = some r ∧
      ∀ dh', r = some dh' → Hashed fnv (d.dirtrunc k) dh' := by
  obtain ⟨r, hr, hok⟩ := h.free.dirtrunc (h.blocks ▸ hk) fun b hb =>
    usedBytes_eq_zero fun e he => ((hd.inside e he).trans_le hb).ne
  refine ⟨r, hr, fun dh' hdh' => ?_⟩
  obtain ⟨firstfree, rfl, hfree⟩ := hok dh' hdh'
  exact ⟨h.slots, hfree, rfl, h.seq⟩

end

/-! ## Building the table -/

theorem directsiz_le_dirsiz (name : Name) : directsiz 1 ≤ dirsiz name := by
  simp only [dirsiz, directsiz]
  omega

/-- So many entries fit into the blocks. -/
theorem Dir.WellFormed.length_le (hd : d.WellFormed) :
    d.entries.length ≤ d.nblk * dirblksiz / directsiz 1 := by
  have hsum : ∀ es : List DirEntry, (∀ e ∈ es, e.block < d.nblk) →
      es.length * directsiz 1 ≤ ∑ b ∈ Finset.range d.nblk, usedBytes ⟨d.nblk, es⟩ b := by
    intro es
    induction es with
    | nil => exact fun _ => (Nat.zero_mul _).trans_le (Nat.zero_le _)
    | cons e es ih =>
      intro hin
      have hes := ih fun x hx => hin x (mem_cons_of_mem _ hx)
      have hadd : ∀ b, usedBytes ⟨d.nblk, e :: es⟩ b =
          (if e.block = b then dirsiz e.name else 0) + usedBytes ⟨d.nblk, es⟩ b :=
        usedBytes_add ⟨d.nblk, es⟩ e
      rw [Finset.sum_congr rfl fun b _ => hadd b, Finset.sum_add_distrib, Finset.sum_ite_eq,
        if_pos (Finset.mem_range.mpr (hin e mem_cons_self)), length_cons, succ_mul,
        Nat.add_comm]
      exact Nat.add_le_add (directsiz_le_dirsiz e.name) hes
  refine (Nat.le_div_iff_mul_le (by decide)).mpr ((hsum d.entries hd.inside).trans ?_)
  refine (Finset.sum_le_sum fun b _ => hd.fits b).trans_eq ?_
  rw [Finset.sum_const, Finset.card_range]
  rfl

/-- There are more slots than entries. -/
theorem Dir.WellFormed.length_lt (hd : d.WellFormed) (addr : ℕ) :
    d.entries.length < (emptyTable addr (d.nblk * dirblksiz)).hlen := by
  have hle := hd.length_le
  have hpos := hd.nonempty
  change _ < howmany ((d.nblk * dirblksiz / directsiz 1 * 3 + 1) / 2) dhNblkoff * dhNblkoff
  simp only [howmany, dhNblkoff, dirblksiz, directsiz] at hle ⊢
  omega

theorem hashed_emptyTable (addr : ℕ) {n : ℕ} (hn : 0 < n)
    (hlen : 0 < (emptyTable addr (n * dirblksiz)).hlen) :
    Hashed fnv ⟨n, []⟩ (emptyTable addr (n * dirblksiz)) := by
  obtain ⟨hfree, hblks⟩ := freeOk_emptyTable addr hn
  have hused : usedSlots (emptyTable addr (n * dirblksiz)).hlen
      (emptyTable addr (n * dirblksiz)).hash = 0 :=
    Finset.card_eq_zero.mpr (Finset.filter_false_of_mem fun _ _ h => h rfl)
  have hneg : ¬ 0 ≤ dirhashEmpty := by decide
  refine ⟨⟨hash_lt hlen, nofun, ?_, ?_, fun _ _ => .inl rfl, ?_, ?_⟩, hfree, hblks, le_rfl⟩
  · exact fun _ _ hpos => absurd hpos hneg
  · exact fun _ _ _ _ hpos => absurd hpos hneg
  · rw [hused]
    rfl
  · exact Int.ofNat_lt.mpr hlen

/-- The entries that are left are put into the table of those that were met. -/
theorem Hashed.foldlM (es : List DirEntry) (h : Hashed fnv d dh)
    (hd : WellFormed ⟨d.nblk, es.reverse ++ d.entries⟩) (hused : dh.hused = d.entries.length)
    (hroom : es.length + d.entries.length < dh.hlen) :
    ∃ dh', es.foldlM (buildEntry fnv) dh = some dh' ∧
      Hashed fnv ⟨d.nblk, es.reverse ++ d.entries⟩ dh' := by
  induction es generalizing d dh with
  | nil => exact ⟨dh, rfl, h⟩
  | cons e es ih =>
    have hlist : (e :: es).reverse ++ d.entries = es.reverse ++ (d.add e).entries := by
      rw [reverse_cons, append_assoc]
      rfl
    rw [hlist] at hd ⊢
    have hadd : (d.add e).WellFormed := hd.of_append
    obtain ⟨hlt, hat, -⟩ := Slots.scan_spec h.slots (fun s => dh.hash s = dirhashEmpty) e.name
      fun _ => decide_eq_true
    rw [length_cons] at hroom
    obtain ⟨dh', heq, hok, hused', hlen⟩ := h.put hadd (fun s => dh.hash s = dirhashEmpty)
      (fun s hs => decide_eq_true hs)
      (fun s hs => by rw [of_decide_eq_true hs]; decide) rfl
      (if_pos (of_decide_eq_true hat)).symm (by omega)
    obtain ⟨dh'', hfold, hok'⟩ := ih hok hd
      (by rw [hused', hused, Dir.add, length_cons]; rfl)
      (by rw [hlen, Dir.add, length_cons]; omega)
    refine ⟨dh'', ?_, hok'⟩
    rw [foldlM_cons]
    rw [show buildEntry fnv dh e = some dh' from heq]
    exact hfold

/-- **A table that is built** is that of the directory. -/
theorem hashed_build (hd : d.WellFormed) (addr : ℕ) {es : List DirEntry}
    (hperm : es.Perm d.entries) :
    ∃ dh, ufsdirhashBuild fnv addr (d.nblk * dirblksiz) es = some dh ∧ Hashed fnv d dh := by
  have hlen := hd.length_lt addr
  have hsize : dirblksiz ≤ d.nblk * dirblksiz := Nat.le_mul_of_pos_left _ hd.nonempty
  have hrev : (es.reverse ++ ([] : List DirEntry)).Perm d.entries := by
    rw [append_nil]
    exact (reverse_perm es).trans hperm
  have hempty : Hashed fnv ⟨d.nblk, []⟩ (emptyTable addr (d.nblk * dirblksiz)) :=
    hashed_emptyTable addr hd.nonempty (zero_lt_of_lt hlen)
  obtain ⟨dh, heq, hok⟩ := hempty.foldlM es (hd.of_perm rfl hrev) rfl
    (by rw [hperm.length_eq]; exact hlen)
  refine ⟨dh, ?_, ?_⟩
  · rw [ufsdirhashBuild, if_pos hsize]
    exact heq
  · have hused : usedBytes ⟨d.nblk, es.reverse ++ []⟩ = d.usedBytes :=
      funext (usedBytes_perm hrev)
    obtain ⟨hslots, hfree, hblocks, hseq⟩ := hok
    rw [hused] at hfree
    refine ⟨⟨hslots.inside, fun e he => hslots.chained e (hrev.mem_iff.mpr he), fun s hs hpos => ?_,
      hslots.unique, hslots.value, hslots.used, hslots.room⟩, hfree, hblocks, hseq⟩
    obtain ⟨e, he, hoff⟩ := hslots.owned s hs hpos
    exact ⟨e, hrev.mem_iff.mp he, hoff⟩

end FreeBSDSys.Dirhash
