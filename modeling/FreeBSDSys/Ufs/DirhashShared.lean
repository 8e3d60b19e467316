import FreeBSDSys.Ufs.DirhashRun

/-!
# Lookups that share a directory hash

Any number of lookups may hold the lock of a table together.  The table does not change then, but
the two fields about sequential access do: every lookup sets them, and each reads them again after
it has slept in `UFS_BLKATOFF`.

A lookup whose shortcut has led to an entry with another name starts again only if it still sees
the shortcut switched on.  If another lookup has switched it off in between, it goes on from where
it is, which may be past the entry that it wants.

* `lookupStep`: a lookup up to the next place where it sleeps or decides.
* `alone_lookup`: a lookup that runs alone does what `ufsdirhashLookup` says.
* `shared_lookup`: all lookups are right as long as none of them compares a name past its own entry
  while the shortcut is off; one that does will miss its entry if it runs on.
* `shared_lookup_misses`: three lookups, one of which misses its entry.
-/

namespace FreeBSDSys.Dirhash

open Probe

variable {fnv : ℕ → Name → ℕ} {d : Dir} {iosize slot i : ℕ} {dh dh₀ dh' : Table} {name : Name}
  {r : Found} {s : Shared}

/-! ## One lookup -/

/-- Where a lookup is -/
inductive Pc where
  | restart
  | probe (slot : ℕ)
  /-- asleep while the block of the entry is read -/
  | reading (slot : ℕ)
  | compare (slot : ℕ)
  | done (r : Found)
  | panicked
deriving DecidableEq

structure Lookup where
  name : Name
  /-- the block that is in the buffer, or -1 -/
  blkoff : ℤ
  pc : Pc

def lookupStep (fnv : ℕ → Name → ℕ) (d : Dir) (iosize : ℕ) (dh : Table) (l : Lookup) :
    Table × Lookup :=
  match l.pc with
  | .restart =>
    let slot := ufsdirhashHash fnv dh l.name
    if dh.seqopt then
      let i := scan dh.hlen (fun s => dh.hash s = dirhashEmpty ∨ dh.hash s = dh.seqoff) dh.hlen slot
      if dh.hash i = dh.seqoff then (dh, { l with pc := .probe i })
      else ({ dh with seqopt := false }, { l with pc := .probe slot })
    else (dh, { l with pc := .probe slot })
  | .probe slot =>
    let offset := dh.hash slot
    if offset = dirhashEmpty then (dh, { l with pc := .done .enoent })
    else if offset = dirhashDel then (dh, { l with pc := .probe (wrapIncr slot dh.hlen) })
    else if badOffset d offset then (dh, { l with pc := .panicked })
    else if offset / iosize ≠ l.blkoff then
      (dh, { l with blkoff := offset / iosize, pc := .reading slot })
    else (dh, { l with pc := .compare slot })
  | .reading slot => (dh, { l with pc := .compare slot })
  | .compare slot =>
    if d.nameAt (dh.hash slot) = some l.name then
      ((lookupFound dh l.name (dh.hash slot)).2,
        { l with pc := .done (lookupFound dh l.name (dh.hash slot)).1 })
    else if dh.seqopt then ({ dh with seqopt := false }, { l with pc := .restart })
    else (dh, { l with pc := .probe (wrapIncr slot dh.hlen) })
  | .done _ => (dh, l)
  | .panicked => (dh, l)

/-! ## What a step keeps -/

/-- The entry of a name is on the chain from a slot on. -/
def Ahead (d : Dir) (dh : Table) (name : Name) (slot : ℕ) : Prop :=
  ∀ e ∈ d.entries, e.name = name →
    ∃ t < dh.hlen, dh.hash t = e.off ∧ Chain dh.hlen dh.hash dirhashEmpty slot t

/-- What always holds: a lookup is at a slot of the table, and compares the name of an entry. -/
def Lookup.Placed (dh : Table) (l : Lookup) : Prop :=
  match l.pc with
  | .restart => True
  | .probe slot => slot < dh.hlen
  | .reading slot => slot < dh.hlen ∧ 0 ≤ dh.hash slot
  | .compare slot => slot < dh.hlen ∧ 0 ≤ dh.hash slot
  | .done _ => True
  | .panicked => False

/-- What holds if no lookup goes astray: a lookup that is not at an entry has its own one ahead. -/
def Lookup.Right (d : Dir) (dh : Table) (l : Lookup) : Prop :=
  match l.pc with
  | .probe slot => 0 ≤ dh.hash slot ∨ Ahead d dh l.name slot
  | .done r => r.Correct d l.name
  | _ => True

/-- A lookup does not compare a name past its own entry while the shortcut is off. -/
def Lookup.Calm (d : Dir) (dh : Table) (l : Lookup) : Prop :=
  ∀ slot, l.pc = .compare slot → ¬ Ahead d dh l.name slot → dh.seqopt = true

/-- An entry that is ahead of a slot with something else is ahead of the next slot. -/
theorem Ahead.next (h : Ahead d dh name slot)
    (hne : ∀ e ∈ d.entries, e.name = name → dh.hash slot ≠ e.off) :
    Ahead d dh name (wrapIncr slot dh.hlen) := by
  intro e he hname
  obtain ⟨t, ht, hoff, hchain⟩ := h e he hname
  rcases Walk.cases hchain with rfl | ⟨-, hchain⟩
  · exact absurd hoff (hne e he hname)
  · exact ⟨t, ht, hoff, hchain⟩

/-- What a step does: it changes only what the table says about sequential access, and a calm step
keeps the lookup right. -/
structure Stepped (d : Dir) (dh : Table) (l : Lookup) (r : Table × Lookup) : Prop where
  same : SameButSeq dh r.1
  name : r.2.name = l.name
  placed : r.2.Placed dh
  right : l.Right d dh → l.Calm d dh → r.2.Right d dh

theorem calm_of_pc {l : Lookup} (h : ∀ slot, l.pc ≠ .compare slot) : l.Calm d dh :=
  fun slot hslot => absurd hslot (h slot)

section Step

variable (hk : dh.Slots fnv d.entries) {l : Lookup}

include hk

theorem ahead_start (name : Name) : Ahead d dh name (ufsdirhashHash fnv dh name) := by
  rintro e he rfl
  exact hk.chained e he

/-- The slot that the shortcut leads to. -/
theorem shortcut_lt (name : Name) :
    scan dh.hlen (fun s => dh.hash s = dirhashEmpty ∨ dh.hash s = dh.seqoff) dh.hlen
      (ufsdirhashHash fnv dh name) < dh.hlen :=
  (Slots.scan_spec hk _ name fun _ h => decide_eq_true (.inl h)).1

variable (hd : d.WellFormed)

include hd

theorem not_bad (hlt : slot < dh.hlen) (hpos : 0 ≤ dh.hash slot) :
    ¬ badOffset d (dh.hash slot) := by
  obtain ⟨e, he, hoff⟩ := hk.owned slot hlt hpos
  rw [hoff]
  exact hd.not_bad he

/-- **A step.** -/
theorem lookupStep_spec (hseq : 0 ≤ dh.seqoff) (hl : l.Placed dh) :
    Stepped d dh l (lookupStep fnv d iosize dh l) := by
  have hrefl : SameButSeq dh dh := ⟨dh.seqopt, dh.seqoff, hseq, rfl⟩
  have hclear : SameButSeq dh { dh with seqopt := false } := ⟨false, dh.seqoff, hseq, rfl⟩
  obtain ⟨name, blkoff, pc⟩ := l
  unfold lookupStep
  cases pc with
  | restart =>
    simp only
    split
    · split_ifs with hat
      · exact ⟨hrefl, rfl, shortcut_lt hk name, fun _ _ => .inl (hseq.trans_eq hat.symm)⟩
      · exact ⟨hclear, rfl, hk.inside name, fun _ _ => .inr (ahead_start hk name)⟩
    · exact ⟨hrefl, rfl, hk.inside name, fun _ _ => .inr (ahead_start hk name)⟩
  | probe slot =>
    have hlt : slot < dh.hlen := hl
    simp only
    split
    · -- an empty slot: nothing is ahead
      rename_i hempty
      refine ⟨hrefl, rfl, trivial, fun hright _ => correct_enoent fun e he hname => ?_⟩
      have hahead := Or.resolve_left hright fun hpos => by
        rw [hempty] at hpos
        cases hpos
      obtain ⟨t, -, hoff, hchain⟩ := hahead e he hname
      rw [← Walk.eq_of_not hchain (not_not.mpr hempty), hempty, dirhashEmpty] at hoff
      omega
    · rename_i hempty
      split
      · rename_i hdel
        refine ⟨hrefl, rfl, wrapIncr_lt hlt, fun hright _ => .inr ?_⟩
        have hahead := Or.resolve_left hright fun hpos => by
          rw [hdel] at hpos
          cases hpos
        refine hahead.next fun e _ _ hoff => ?_
        rw [hdel, dirhashDel] at hoff
        omega
      · rename_i hdel
        have hpos := ((hk.value slot hlt).resolve_left hempty).resolve_left hdel
        rw [if_neg (not_bad hk hd hlt hpos)]
        split <;> exact ⟨hrefl, rfl, ⟨hlt, hpos⟩, fun _ _ => trivial⟩
  | reading slot | panicked => exact ⟨hrefl, rfl, hl, fun _ _ => trivial⟩
  | compare slot =>
    simp only
    split
    · rename_i hname
      refine ⟨⟨_, _, Int.add_nonneg hl.2 (Int.natCast_nonneg _), rfl⟩, rfl, trivial, fun _ _ => ?_⟩
      obtain ⟨e, he, hoff⟩ := hk.owned slot hl.1 hl.2
      rw [hoff, hd.nameAt he] at hname
      cases hname
      rw [hoff]
      exact correct_found hd he
    · rename_i hname
      split_ifs with hopt
      · exact ⟨hclear, rfl, trivial, fun _ _ => trivial⟩
      · refine ⟨hrefl, rfl, wrapIncr_lt hl.1, fun _ hcalm => .inr ?_⟩
        have hahead : Ahead d dh name slot := by
          by_contra hpast
          exact hopt (hcalm slot rfl hpast)
        refine hahead.next fun e he hename hoff => hname ?_
        rw [hoff, hd.nameAt he, hename]
  | done r => exact ⟨hrefl, rfl, trivial, fun hr _ => hr⟩

end Step

/-! ## A lookup that runs alone -/

/-- A lookup does some steps, and no other lookup does any. -/
def Alone (fnv : ℕ → Name → ℕ) (d : Dir) (iosize : ℕ) : Table × Lookup → Table × Lookup → Prop :=
  Relation.ReflTransGen fun p q => q = lookupStep fnv d iosize p.1 p.2

/-- Where the search along a chain stops -/
def chainStop (d : Dir) (dh : Table) (name : Name) (s : ℕ) : Bool :=
  dh.hash s = dirhashEmpty ∨ dh.hash s ≠ dirhashDel ∧
    (badOffset d (dh.hash s) ∨ d.nameAt (dh.hash s) = some name)

section Alone

variable {slot t : ℕ} {blk : ℤ}

theorem Alone.trans {p q r : Table × Lookup} (h : Alone fnv d iosize p q)
    (h' : Alone fnv d iosize q r) : Alone fnv d iosize p r :=
  Relation.ReflTransGen.trans h h'

theorem Alone.one (fnv : ℕ → Name → ℕ) (d : Dir) (iosize : ℕ) (dh : Table) (l : Lookup) :
    Alone fnv d iosize (dh, l) (lookupStep fnv d iosize dh l) :=
  .single rfl

/-- The block of an entry is read if it is not in the buffer. -/
theorem alone_compare (fnv : ℕ → Name → ℕ) (iosize : ℕ) (hempty : dh.hash slot ≠ dirhashEmpty)
    (hdel : dh.hash slot ≠ dirhashDel) (hbad : ¬ badOffset d (dh.hash slot)) :
    Alone fnv d iosize (dh, ⟨name, blk, .probe slot⟩)
      (dh, ⟨name, dh.hash slot / iosize, .compare slot⟩) := by
  have hstep := Alone.one fnv d iosize dh ⟨name, blk, .probe slot⟩
  simp only [lookupStep, if_neg hempty, if_neg hdel, if_neg hbad] at hstep
  split_ifs at hstep with hsame
  · exact hstep.trans (.one _ _ _ _ _)
  · rw [not_not.mp hsame]
    exact hstep

/-- An entry with another name is passed. -/
theorem alone_skip (hopt : dh.seqopt = false) (hstop : chainStop d dh name slot = false) :
    ∃ blk', Alone fnv d iosize (dh, ⟨name, blk, .probe slot⟩)
      (dh, ⟨name, blk', .probe (wrapIncr slot dh.hlen)⟩) := by
  have hno := of_decide_eq_false hstop
  have hempty : dh.hash slot ≠ dirhashEmpty := fun h => hno (.inl h)
  by_cases hdel : dh.hash slot = dirhashDel
  · have hstep := Alone.one fnv d iosize dh ⟨name, blk, .probe slot⟩
    simp only [lookupStep, if_neg hempty, if_pos hdel] at hstep
    exact ⟨blk, hstep⟩
  · have hbad : ¬ badOffset d (dh.hash slot) := fun h => hno (.inr ⟨hdel, .inl h⟩)
    have hname : d.nameAt (dh.hash slot) ≠ some name := fun h => hno (.inr ⟨hdel, .inr h⟩)
    have hstep := Alone.one fnv d iosize dh ⟨name, dh.hash slot / iosize, .compare slot⟩
    simp only [lookupStep, if_neg hname, hopt, Bool.false_eq_true] at hstep
    exact ⟨_, (alone_compare fnv iosize hempty hdel hbad).trans hstep⟩

theorem alone_walk (fnv : ℕ → Name → ℕ) (iosize : ℕ) (hopt : dh.seqopt = false)
    (hw : Walk dh.hlen (fun a => chainStop d dh name a = false) slot t) (blk : ℤ) :
    ∃ blk', Alone fnv d iosize (dh, ⟨name, blk, .probe slot⟩) (dh, ⟨name, blk', .probe t⟩) := by
  revert blk
  refine hw.induction (motive := fun a => ∀ blk, ∃ blk',
    Alone fnv d iosize (dh, ⟨name, blk, .probe a⟩) (dh, ⟨name, blk', .probe t⟩))
    (fun blk => ⟨blk, .refl⟩) fun a ha _ ih blk => ?_
  obtain ⟨blk1, h1⟩ := alone_skip hopt ha
  obtain ⟨blk2, h2⟩ := ih blk1
  exact ⟨blk2, h1.trans h2⟩

theorem alone_empty (hempty : dh.hash slot = dirhashEmpty) :
    Alone fnv d iosize (dh, ⟨name, blk, .probe slot⟩) (dh, ⟨name, blk, .done .enoent⟩) := by
  have hstep := Alone.one fnv d iosize dh ⟨name, blk, .probe slot⟩
  simp only [lookupStep, if_pos hempty] at hstep
  exact hstep

/-- The search along a chain. -/
theorem alone_chain (iosize : ℕ) (hk : dh.Slots fnv d.entries)
    (hopt : dh.seqopt = false) (hr : lookupChain fnv d dh name = some (r, dh')) (blk : ℤ) :
    ∃ blk', Alone fnv d iosize (dh, ⟨name, blk, .probe (ufsdirhashHash fnv dh name)⟩)
      (dh', ⟨name, blk', .done r⟩) := by
  obtain ⟨-, hstop, hwalk⟩ := Slots.scan_spec hk (chainStop d dh name) name
    fun s h => decide_eq_true (.inl h)
  obtain ⟨blk1, h1⟩ := alone_walk fnv iosize hopt hwalk blk
  -- the search of `lookupChain` is the one that `chainStop` describes
  generalize hs : scan dh.hlen (chainStop d dh name) dh.hlen (ufsdirhashHash fnv dh name) = s
    at hstop h1
  unfold lookupChain at hr
  erw [hs] at hr
  dsimp only at hr
  split_ifs at hr with hempty hbad
  · cases hr
    exact ⟨blk1, h1.trans (alone_empty hempty)⟩
  · obtain ⟨hdel, hmatch⟩ := (of_decide_eq_true hstop).resolve_left hempty
    have hname := hmatch.resolve_left hbad
    cases hr
    have hstep := Alone.one fnv d iosize dh ⟨name, dh.hash s / iosize, .compare s⟩
    simp only [lookupStep, if_pos hname] at hstep
    exact ⟨_, h1.trans ((alone_compare fnv iosize hempty hdel hbad).trans hstep)⟩

/-- **A lookup that runs alone** gives the result of `ufsdirhashLookup`. -/
theorem alone_lookup (hk : dh.Slots fnv d.entries)
    (hseq : 0 ≤ dh.seqoff) (hr : ufsdirhashLookup fnv d dh name = some (r, dh')) (blk : ℤ) :
    ∃ blk', Alone fnv d iosize (dh, ⟨name, blk, .restart⟩) (dh', ⟨name, blk', .done r⟩) := by
  have hk' : Table.Slots fnv d.entries { dh with seqopt := false } := hk
  have hstart := Alone.one fnv d iosize dh ⟨name, blk, .restart⟩
  unfold ufsdirhashLookup at hr
  simp only [lookupStep] at hr hstart
  generalize scan dh.hlen (fun s => decide (dh.hash s = dirhashEmpty ∨ dh.hash s = dh.seqoff))
    dh.hlen (ufsdirhashHash fnv dh name) = i at hr hstart
  have hstep := Alone.one fnv d iosize dh ⟨name, dh.hash i / iosize, .compare i⟩
  have hcompare (hopt : dh.seqopt = true) (hat : dh.hash i = dh.seqoff)
      (hbad : ¬ badOffset d (dh.hash i)) : Alone fnv d iosize (dh, ⟨name, blk, .restart⟩)
        (dh, ⟨name, dh.hash i / iosize, .compare i⟩) := by
    rw [if_pos hopt, if_pos hat] at hstart
    refine hstart.trans (alone_compare fnv iosize ?_ ?_ hbad)
    · rw [dirhashEmpty]
      omega
    · rw [dirhashDel]
      omega
  split_ifs at hr with hopt hat hbad hname
  · simp only [lookupStep, if_pos hname] at hstep
    cases hr
    exact ⟨_, (hcompare hopt hat hbad).trans hstep⟩
  · -- another name: the lookup starts again without the shortcut
    simp only [lookupStep, if_neg hname, hopt] at hstep
    have hagain := Alone.one fnv d iosize { dh with seqopt := false }
      ⟨name, dh.hash i / iosize, .restart⟩
    obtain ⟨blk', hend⟩ := alone_chain iosize hk' rfl hr (dh.hash i / iosize)
    exact ⟨blk', (hcompare hopt hat hbad).trans (hstep.trans (hagain.trans hend))⟩
  · rw [if_pos hopt, if_neg hat] at hstart
    obtain ⟨blk', hend⟩ := alone_chain iosize hk' rfl hr blk
    exact ⟨blk', hstart.trans hend⟩
  · rw [if_neg hopt] at hstart
    obtain ⟨blk', hend⟩ := alone_chain iosize hk (Bool.eq_false_of_not_eq_true hopt) hr blk
    exact ⟨blk', hstart.trans hend⟩

/-- **A lookup that compares a name past its own entry** while the shortcut is off misses the
entry if it runs on. -/
theorem alone_past (iosize : ℕ) (blk : ℤ) (hk : dh.Slots fnv d.entries) (hd : d.WellFormed)
    (hlt : slot < dh.hlen)
    (hpos : 0 ≤ dh.hash slot) (hopt : dh.seqopt = false) (hpast : ¬ Ahead d dh name slot) :
    ∃ blk', Alone fnv d iosize (dh, ⟨name, blk, .compare slot⟩)
      (dh, ⟨name, blk', .done .enoent⟩) := by
  have hfull : dh.hash slot ≠ dirhashEmpty := by
    rw [dirhashEmpty]
    omega
  -- the entry is at no slot that the chain leads to from here
  have hno : ∀ t < dh.hlen, Chain dh.hlen dh.hash dirhashEmpty slot t → 0 ≤ dh.hash t →
      d.nameAt (dh.hash t) ≠ some name := by
    intro t ht hchain htpos hname
    obtain ⟨e, he, hoff⟩ := hk.owned t ht htpos
    rw [hoff, hd.nameAt he] at hname
    refine hpast fun e' he' hname' => ?_
    rw [hd.eq_of_name he' he (hname'.trans (Option.some.inj hname).symm)]
    exact ⟨t, ht, hoff, hchain⟩
  have hstep := Alone.one fnv d iosize dh ⟨name, blk, .compare slot⟩
  simp only [lookupStep, if_neg (hno slot hlt (Walk.refl _ _) hpos), hopt, Bool.false_eq_true] at hstep
  obtain ⟨s, hs, hempty⟩ := Slots.exists_empty hk
  obtain ⟨hend, hstop, hwalk⟩ := Probe.scan_spec (chainStop d dh name) (wrapIncr_lt hlt) hs
    (decide_eq_true (.inl hempty))
  obtain ⟨blk1, h1⟩ := alone_walk fnv iosize hopt hwalk blk
  generalize scan dh.hlen (chainStop d dh name) dh.hlen (wrapIncr slot dh.hlen) = t
    at hend hstop hwalk h1
  have hchain : Chain dh.hlen dh.hash dirhashEmpty slot t := by
    refine Walk.head hfull (Walk.mono hwalk fun a ha hae => ?_)
    exact of_decide_eq_false ha (.inl hae)
  have hat : dh.hash t = dirhashEmpty := by
    by_contra hne
    obtain ⟨hdel, hmatch⟩ := (of_decide_eq_true hstop).resolve_left hne
    have htpos := ((hk.value t hend).resolve_left hne).resolve_left hdel
    exact hno t hend hchain htpos (hmatch.resolve_left (not_bad hk hd hend htpos))
  exact ⟨blk1, hstep.trans (h1.trans (alone_empty hat))⟩

end Alone

/-! ## Lookups together -/

/-- The lookups that hold the lock of a table, and the one that has not slept since it ran last -/
structure Shared where
  dh : Table
  lookups : ℕ → Lookup
  running : Option ℕ

/-- Another lookup may run -/
def Pc.yields : Pc → Bool
  | .reading _ => true
  | .done _ => true
  | .panicked => true
  | _ => false

def Shared.turn (fnv : ℕ → Name → ℕ) (d : Dir) (iosize : ℕ) (s : Shared) (i : ℕ) : Shared :=
  let (dh, l) := lookupStep fnv d iosize s.dh (s.lookups i)
  { dh := dh
    lookups := Function.update s.lookups i l
    running := if l.pc.yields then none else some i }

theorem Shared.turn_self (s : Shared) (i : ℕ) :
    (s.turn fnv d iosize i).lookups i = (lookupStep fnv d iosize s.dh (s.lookups i)).2 :=
  Function.update_self _ _ _

theorem Shared.turn_of_ne {j : ℕ} (hne : j ≠ i) : (s.turn fnv d iosize i).lookups j = s.lookups j :=
  Function.update_of_ne hne _ _

def Shared.MayRun (s : Shared) (i : ℕ) : Prop := s.running = none ∨ s.running = some i

/-- A lookup runs -/
def Turn (fnv : ℕ → Name → ℕ) (d : Dir) (iosize : ℕ) (s s' : Shared) : Prop :=
  ∃ i, s.MayRun i ∧ s' = s.turn fnv d iosize i

/-- A lookup runs and does not compare a name past its own entry while the shortcut is off -/
def CalmTurn (fnv : ℕ → Name → ℕ) (d : Dir) (iosize : ℕ) (s s' : Shared) : Prop :=
  ∃ i, s.MayRun i ∧ (s.lookups i).Calm d s.dh ∧ s' = s.turn fnv d iosize i

/-- Lookups of some names begin -/
def start (dh : Table) (names : ℕ → Name) : Shared :=
  { dh := dh, lookups := fun i => ⟨names i, -1, .restart⟩, running := none }

section Same

open Shared

variable {dh' : Table} {l : Lookup} (h : SameButSeq dh dh')

include h

theorem SameButSeq.seqoff : 0 ≤ dh'.seqoff := by
  obtain ⟨_, _, hoff, rfl⟩ := h
  exact hoff

theorem SameButSeq.trans {dh'' : Table} (h' : SameButSeq dh' dh'') : SameButSeq dh dh'' := by
  obtain ⟨_, _, -, rfl⟩ := h
  obtain ⟨opt, off, hoff, rfl⟩ := h'
  exact ⟨opt, off, hoff, rfl⟩

theorem SameButSeq.slots (hk : dh.Slots fnv d.entries) : dh'.Slots fnv d.entries := by
  obtain ⟨_, _, -, rfl⟩ := h
  exact hk

theorem SameButSeq.placed : l.Placed dh' ↔ l.Placed dh := by
  obtain ⟨_, _, -, rfl⟩ := h
  exact Iff.rfl

theorem SameButSeq.right : l.Right d dh' ↔ l.Right d dh := by
  obtain ⟨_, _, -, rfl⟩ := h
  exact Iff.rfl

end Same

/-- What holds in every run. -/
structure Shared.Ok (dh₀ : Table) (names : ℕ → Name) (s : Shared) : Prop where
  same : SameButSeq dh₀ s.dh
  names : ∀ i, (s.lookups i).name = names i
  placed : ∀ i, (s.lookups i).Placed dh₀

section Together

variable {names : ℕ → Name} {s : Shared} (hk : dh₀.Slots fnv d.entries) (hd : d.WellFormed)

theorem Shared.ok_start (hseq : 0 ≤ dh₀.seqoff) : (start dh₀ names).Ok dh₀ names :=
  ⟨⟨dh₀.seqopt, dh₀.seqoff, hseq, rfl⟩, fun _ => rfl, fun _ => trivial⟩

include hk hd

theorem Shared.Ok.step (h : s.Ok dh₀ names) (iosize i : ℕ) :
    Stepped d s.dh (s.lookups i) (lookupStep fnv d iosize s.dh (s.lookups i)) :=
  lookupStep_spec (h.same.slots hk) hd h.same.seqoff (h.same.placed.mpr (h.placed i))

theorem Shared.Ok.turn (h : s.Ok dh₀ names) (i : ℕ) : (s.turn fnv d iosize i).Ok dh₀ names := by
  have hstep := h.step hk hd iosize i
  refine ⟨h.same.trans hstep.same, fun j => ?_, fun j => ?_⟩
  · rcases eq_or_ne j i with rfl | hne
    · rw [turn_self, hstep.name]
      exact h.names j
    · rw [turn_of_ne hne]
      exact h.names j
  · rcases eq_or_ne j i with rfl | hne
    · rw [turn_self]
      exact h.same.placed.mp hstep.placed
    · rw [turn_of_ne hne]
      exact h.placed j

theorem Shared.Ok.right_turn (h : s.Ok dh₀ names) (hcalm : (s.lookups i).Calm d s.dh)
    (hright : ∀ j, (s.lookups j).Right d dh₀) (j : ℕ) :
    ((s.turn fnv d iosize i).lookups j).Right d dh₀ := by
  rcases eq_or_ne j i with rfl | hne
  · rw [turn_self]
    exact h.same.right.mp ((h.step hk hd iosize j).right (h.same.right.mpr (hright j)) hcalm)
  · rw [turn_of_ne hne]
    exact hright j

end Together

/-- Steps of one lookup are turns of all. -/
theorem Alone.turns {p q : Table × Lookup} (h : Alone fnv d iosize p q)
    (hp : (s.dh, s.lookups i) = p) (hrun : s.MayRun i) :
    ∃ s', Relation.ReflTransGen (Turn fnv d iosize) s s' ∧ (s'.dh, s'.lookups i) = q := by
  induction h using Relation.ReflTransGen.head_induction_on generalizing s with
  | refl => exact ⟨s, .refl, hp⟩
  | head hstep _ ih =>
    subst hp hstep
    have hnext : ((s.turn fnv d iosize i).dh, (s.turn fnv d iosize i).lookups i) =
        lookupStep fnv d iosize s.dh (s.lookups i) :=
      Prod.ext rfl (Shared.turn_self s i)
    obtain ⟨s', hs', hq⟩ := ih hnext (ite_eq_or_eq _ _ _)
    exact ⟨s', .head ⟨i, hrun, rfl⟩ hs', hq⟩

/-- **Lookups that share a table.**  If none of them compares a name past its own entry while
the shortcut is off, every lookup that ends gives the offset of the entry exactly when there is one.
A lookup that does so is for a name of the directory, and does not find it if it runs on. -/
theorem shared_lookup (fnv : ℕ → Name → ℕ) {d : Dir} (iosize : ℕ) {dh₀ : Table}
    (hd : d.WellFormed) (hh : Hashed fnv d dh₀) (names : ℕ → Name) :
    (∀ s, Reachable (fun s => s = start dh₀ names) (CalmTurn fnv d iosize) s → ∀ i,
      (s.lookups i).pc ≠ .panicked ∧ ∀ r, (s.lookups i).pc = .done r → r.Correct d (names i)) ∧
    ∀ s, Reachable (fun s => s = start dh₀ names) (Turn fnv d iosize) s → ∀ i, s.MayRun i →
      ¬ (s.lookups i).Calm d s.dh → (∃ e ∈ d.entries, e.name = names i) ∧
        ∃ s', Relation.ReflTransGen (Turn fnv d iosize) s s' ∧
          (s'.lookups i).pc = .done .enoent := by
  constructor
  · intro s h i
    obtain ⟨hok, hright⟩ := h.invariant
      (I := fun s => s.Ok dh₀ names ∧ ∀ j, (s.lookups j).Right d dh₀)
      (by rintro _ rfl; exact ⟨Shared.ok_start hh.seq, fun _ => trivial⟩)
      (by
        rintro s _ ⟨hok, hright⟩ ⟨i, -, hcalm, rfl⟩
        exact ⟨hok.turn hh.slots hd i, hok.right_turn hh.slots hd hcalm hright⟩)
    constructor
    · intro hpc
      have hplaced := hok.placed i
      unfold Lookup.Placed at hplaced
      rw [hpc] at hplaced
      exact hplaced
    · intro r hpc
      have hr := hright i
      unfold Lookup.Right at hr
      rw [hpc, hok.names i] at hr
      exact hr
  · intro s h i hrun hcalm
    have hok : s.Ok dh₀ names := h.invariant (I := fun s => s.Ok dh₀ names)
      (by rintro _ rfl; exact Shared.ok_start hh.seq)
      (by rintro s _ hok ⟨i, -, rfl⟩; exact hok.turn hh.slots hd i)
    obtain ⟨slot, hslot⟩ := not_forall.mp hcalm
    obtain ⟨hpc, hslot⟩ := Classical.not_imp.mp hslot
    obtain ⟨hpast, hopt⟩ := Classical.not_imp.mp hslot
    rw [hok.names i] at hpast
    constructor
    · by_contra hnone
      exact hpast fun e he hname => absurd ⟨e, he, hname⟩ hnone
    · have hplaced := hok.same.placed.mpr (hok.placed i)
      unfold Lookup.Placed at hplaced
      rw [hpc] at hplaced
      obtain ⟨blk', halone⟩ := alone_past iosize (s.lookups i).blkoff (hok.same.slots hh.slots) hd
        hplaced.1 hplaced.2 (Bool.eq_false_of_not_eq_true hopt) hpast
      have hl : (s.dh, s.lookups i) = (s.dh, ⟨names i, (s.lookups i).blkoff, .compare slot⟩) := by
        rw [← hpc, ← hok.names i]
      obtain ⟨s', hs', hq⟩ := halone.turns hl hrun
      exact ⟨s', hs', congrArg (fun q => Lookup.pc q.2) hq⟩

/-! ## Three lookups -/

/-- A directory with the names `a` and `b` -/
def twoNames : Dir := ⟨5, [⟨[97], 0⟩, ⟨[98], 12⟩]⟩

/-- Two lookups of `a` and one of `c` -/
def threeLookups (i : ℕ) : Name := if i = 2 then [99] else [97]

/-- The lookups run in the order of a list -/
def runTurns (fnv : ℕ → Name → ℕ) (d : Dir) (iosize : ℕ) (s : Shared) : List ℕ → Option Shared
  | [] => some s
  | i :: is =>
    if s.running = none ∨ s.running = some i then
      runTurns fnv d iosize (s.turn fnv d iosize i) is
    else none

theorem runTurns_turns {s' : Shared} {is : List ℕ} (h : runTurns fnv d iosize s is = some s') :
    Relation.ReflTransGen (Turn fnv d iosize) s s' := by
  induction is generalizing s with
  | nil =>
    cases h
    exact .refl
  | cons i is ih =>
    unfold runTurns at h
    split_ifs at h with hrun
    exact .head ⟨i, hrun, rfl⟩ (ih h)

theorem twoNames_wellFormed : twoNames.WellFormed := by
  refine ⟨by decide, by decide, by decide, by decide, fun b => ?_⟩
  by_cases hb : b = 0
  · subst hb
    decide
  · rw [Dir.usedBytes_eq_zero]
    · decide
    · intro e he
      have hblock : ∀ e ∈ twoNames.entries, e.block = 0 := by decide
      rw [hblock e he]
      exact Ne.symm hb

/-- A hash with one chain for `a` and `b`, and another one for `c` -/
def twoChains (_ : ℕ) (name : Name) : ℕ := if name = [99] then 5 else 0

/-- The table of the directory -/
def twoNamesTable : Option Table :=
  ufsdirhashBuild twoChains 0 (5 * dirblksiz) twoNames.entries

theorem hashed_twoNames {dh : Table} (hdh : twoNamesTable = some dh) :
    Hashed twoChains twoNames dh := by
  have hbuild : ∃ dh, twoNamesTable = some dh ∧ Hashed twoChains twoNames dh :=
    hashed_build twoNames_wellFormed 0 (List.Perm.refl _)
  obtain ⟨dh', heq, hok⟩ := hbuild
  rwa [Option.some.inj (hdh.symm.trans heq)]

/-- A search for `a`, alone. -/
theorem alone_lookup_twoNames : ∃ dh p, twoNamesTable = some dh ∧
    Alone twoChains twoNames 512 (dh, ⟨[97], -1, .restart⟩) p ∧ ∃ r, p.2.pc = .done r := by
  obtain ⟨dh, hdh⟩ := Option.isSome_iff_exists.mp (by decide : twoNamesTable.isSome)
  have hok := hashed_twoNames hdh
  obtain ⟨r, dh', hr, -⟩ := hok.lookup twoNames_wellFormed [97]
  obtain ⟨blk', halone⟩ := alone_lookup hok.slots hok.seq hr (-1)
  exact ⟨dh, _, hdh, halone, r, rfl⟩

/-- **A lookup misses its entry.**  A lookup of `a` has switched the shortcut on, which leads the
second lookup of `a` to `b`.  While it sleeps, the lookup of `c`, in whose chain `b` is not,
switches the shortcut off, and the second lookup goes on after `b`. -/
theorem shared_lookup_misses : ∃ dh, twoNamesTable = some dh ∧ ∃ s : Shared,
    Reachable (fun s => s = start dh threeLookups) (Turn twoChains twoNames 512) s ∧
      (s.lookups 1).pc = .done .enoent ∧ ∃ e ∈ twoNames.entries, e.name = threeLookups 1 := by
  have hrun : twoNamesTable.any (fun dh => (runTurns twoChains twoNames 512 (start dh threeLookups)
      [0, 0, 0, 0, 1, 1, 2, 2, 1, 1, 1]).any
      fun s => decide ((s.lookups 1).pc = .done .enoent)) = true := by decide +kernel
  obtain ⟨dh, hdh, hany⟩ := (Option.any_eq_true _ _).mp hrun
  obtain ⟨s, hs, hpc⟩ := (Option.any_eq_true _ _).mp hany
  exact ⟨dh, hdh, s, ⟨_, rfl, runTurns_turns hs⟩, of_decide_eq_true hpc, ⟨[97], 0⟩,
    List.mem_cons_self, rfl⟩

/-- The first of the lookups, when it runs alone, finds its entry. -/
theorem shared_lookup_first : ∃ dh, twoNamesTable = some dh ∧ ∃ s : Shared,
    Reachable (fun s => s = start dh threeLookups) (CalmTurn twoChains twoNames 512) s ∧
      (s.lookups 0).pc = .done (.found 0) ∧ Found.Correct twoNames [97] (.found 0) := by
  have hrun : twoNamesTable.any (fun dh =>
      let s₀ := start dh threeLookups
      let s₁ := s₀.turn twoChains twoNames 512 0
      let s₂ := s₁.turn twoChains twoNames 512 0
      let s₃ := s₂.turn twoChains twoNames 512 0
      let s₄ := s₃.turn twoChains twoNames 512 0
      decide ((s₁.lookups 0).pc = .probe 0 ∧ (s₂.lookups 0).pc = .reading 0 ∧
        (s₃.lookups 0).pc = .compare 0 ∧ (s₄.lookups 0).pc = .done (.found 0) ∧
        s₁.running = some 0 ∧ s₂.running = none ∧ s₃.running = some 0 ∧
        (s₃.lookups 0).name = [97] ∧ 0 < s₃.dh.hlen ∧ s₃.dh.hash 0 = 0)) = true := by decide +kernel
  obtain ⟨dh, hdh, hall⟩ := (Option.any_eq_true _ _).mp hrun
  obtain ⟨h1, h2, h3, h4, hr1, hr2, hr3, hname3, hlen, hat⟩ := of_decide_eq_true hall
  have hfirst : ∀ e ∈ twoNames.entries, e.name = [97] → e.off = 0 := by decide
  have hstart : Reachable (fun s => s = start dh threeLookups)
      (CalmTurn twoChains twoNames 512) (start dh threeLookups) := Reachable.of_init rfl
  have hreach := (((hstart.tail ⟨0, .inl rfl, calm_of_pc nofun, rfl⟩).tail
    ⟨0, .inr hr1, calm_of_pc (by rw [h1]; nofun), rfl⟩).tail
    ⟨0, .inl hr2, calm_of_pc (by rw [h2]; nofun), rfl⟩).tail
    ⟨0, .inr hr3, fun slot hslot hpast => absurd (fun e he hname => ?_) hpast, rfl⟩
  · have hall := shared_lookup _ 512 twoNames_wellFormed (hashed_twoNames hdh) threeLookups
    exact ⟨dh, hdh, _, hreach, h4, (hall.1 _ hreach 0).2 _ h4⟩
  · rw [h3] at hslot
    cases hslot
    rw [hfirst e he (hname.trans hname3)]
    exact ⟨0, hlen, hat, Walk.refl _ _⟩

end FreeBSDSys.Dirhash
