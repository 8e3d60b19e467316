import FreeBSDSys.Lib.Threads

/-!
# The cache of dquots

A model of `dqhashfind`, `dqget` and `dqrele` as code that any number of threads run, one section
under `dqhlock` at a time.  What the code does between two sections to the flags of a dquot, under
the lock of that dquot, is a section of its own: the end of the read from the quota file, the write
by `dqsync`, and the charge of a caller that holds the dquot.

A call is known by the place at which it is.  A call of `dqget` that has given a dquot to its caller
stays at `holding` until the caller gives the dquot back to `dqrele`, so the callers that hold a
dquot are the places that refer to it.

The chains of the hash table are one list here: a dquot is found by its quota file and its id, and
these determine the chain.  A dquot that a call has allocated and not filled in is memory of that
call alone, so it gets its address when it is filled in.

* `Sound`: what the cache keeps, with the places of the calls.
* `dquot_cache`: it holds in every run.
-/

namespace FreeBSDSys.QuotaCache

open Function List Nat

/-! ## The model -/

/-- What `struct dquot` holds for the cache. -/
structure Dquot where
  /-- The quota file `dq_ump->um_quotas[dq_type]`; none when `dq_ump` is `NULL` -/
  dqFile : Option ℕ
  dqId : ℕ
  dqCnt : ℕ
  /-- The flag `DQ_LOCK` -/
  dqLock : Bool
  /-- The flag `DQ_MOD` -/
  dqMod : Bool
  deriving DecidableEq, Repr

/-- The cache.  A dquot is known by its address. -/
structure Cache where
  dquot : ℕ → Dquot
  /-- The dquots that have been filled in at least once -/
  used : Finset ℕ
  dqhashtbl : List ℕ
  dqfreelist : List ℕ
  numdquot : ℕ
  desireddquot : ℕ

/-- Where a call is. -/
inductive Place where
  /-- `dqget`: to lock the quota file after a failed lookup -/
  | relock (dqvp id : ℕ)
  /-- `dqget`: to allocate a dquot -/
  | allocating (dqvp id : ℕ)
  /-- `dqget`: at `hfound` -/
  | found (d : ℕ)
  /-- `dqget`: to read the dquot from the quota file -/
  | reading (d : ℕ)
  /-- `dqget`: the read has failed, and the dquot is off the hash table -/
  | failed (d : ℕ)
  /-- `dqget` has returned the dquot -/
  | holding (d : ℕ)
  /-- `dqget` has no dquot to give (`EUSERS`) -/
  | full
  /-- `dqrele`: at the first section -/
  | releasing (d : ℕ)
  /-- `dqrele`: at `sync` -/
  | syncing (d : ℕ)
  /-- `dqrele`: in the write of `dqsync` -/
  | writing (d : ℕ)
  /-- `dqrele`: at the second section -/
  | synced (d : ℕ)
  deriving DecidableEq, Repr

/-- The dquot that a call refers to. -/
def Place.dquot : Place → Option ℕ
  | .relock .. | .allocating .. | .full => none
  | .found d | .reading d | .failed d | .holding d => some d
  | .releasing d | .syncing d | .writing d | .synced d => some d

/-- Whether a call is allocating a dquot. -/
def Place.allocates : Place → Bool
  | .allocating .. => true
  | _ => false

/-- `DQUOTINC` -/
def dquotInc : ℕ := 5

namespace Cache

/-- Assignment to a dquot. -/
def modify (s : Cache) (d : ℕ) (f : Dquot → Dquot) : Cache :=
  { s with dquot := update s.dquot d (f (s.dquot d)) }

/-- `DQREF` -/
def dqref (s : Cache) (d : ℕ) : Cache := s.modify d fun q => { q with dqCnt := q.dqCnt + 1 }

/-- Whether the dquot is the one of a quota file and an id. -/
def isFor (s : Cache) (dqvp id d : ℕ) : Bool :=
  (s.dquot d).dqId == id && (s.dquot d).dqFile == some dqvp

/-- A dquot without references is taken off the free list. -/
def unfree (s : Cache) (d : ℕ) : Cache :=
  if (s.dquot d).dqCnt = 0 then { s with dqfreelist := s.dqfreelist.erase d } else s

/-- `dqhashfind` takes the dquot off the free list and counts the reference. -/
def dqhashfind (s : Cache) (dqvp id : ℕ) : Option (ℕ × Cache) :=
  match s.dqhashtbl.find? (s.isFor dqvp id) with
  | none => none
  | some d => some (d, (s.unfree d).dqref d)

/-- The end of the last section of `dqget` before the read: the dquot is filled in. -/
def install (s : Cache) (dqvp id d : ℕ) : Cache :=
  let s := s.modify d fun q =>
    { q with dqLock := true, dqMod := false, dqId := id, dqFile := some dqvp }
  { s with used := insert d s.used, dqhashtbl := d :: s.dqhashtbl }.dqref d

/-- More dquots are desired when none is free, up to the limit `MAXQUOTAS * desiredvnodes`. -/
def grow (s : Cache) (limit : ℕ) : Cache :=
  if s.dqfreelist = [] ∧ s.numdquot < limit then
    { s with desireddquot := s.desireddquot + dquotInc }
  else s

/-- The section of `dqget` behind a failed lookup, up to the allocation or the read.  The
panic is none. -/
def allocate (limit : ℕ) (s : Cache) (dqvp id : ℕ) : Option (Cache × Place) :=
  let s := s.grow limit
  if s.numdquot < s.desireddquot then
    some ({ s with numdquot := s.numdquot + 1 }, .allocating dqvp id)
  else match s.dqfreelist with
    | [] => some (s, .full)
    | d :: rest =>
      if (s.dquot d).dqCnt ≠ 0 ∨ (s.dquot d).dqMod = true then none
      else
        let hash := if (s.dquot d).dqFile ≠ none then s.dqhashtbl.erase d else s.dqhashtbl
        some ({ s with dqfreelist := rest, dqhashtbl := hash }.install dqvp id d, .reading d)

/-- The section of `dqget` behind a failed read. -/
def drop (s : Cache) (d : ℕ) : Cache :=
  { s.modify d fun q => { q with dqFile := none } with dqhashtbl := s.dqhashtbl.erase d }

/-- Assignment to the flags of a dquot. -/
def setFlags (s : Cache) (d : ℕ) (lock dirty : Bool) : Cache :=
  s.modify d fun q => { q with dqLock := lock, dqMod := dirty }

/-- `dq->dq_cnt--` -/
def unref (s : Cache) (d : ℕ) : Cache := s.modify d fun q => { q with dqCnt := q.dqCnt - 1 }

/-- The end of `dqrele`: the last reference is gone. -/
def putFree (s : Cache) (d : ℕ) : Cache :=
  { s.unref d with dqfreelist := s.dqfreelist ++ [d] }

end Cache

/-- The first section of `dqget`.  A call for the quota file itself goes on in the section. -/
inductive CacheEnter (limit : ℕ) : Cache → Cache → Place → Prop
  | hit {s s' : Cache} {dqvp id d : ℕ} (h : s.dqhashfind dqvp id = some (d, s')) :
      CacheEnter limit s s' (.found d)
  | miss {s : Cache} (dqvp id : ℕ) (h : s.dqhashfind dqvp id = none) :
      CacheEnter limit s s (.relock dqvp id)
  | missSelf {s s' : Cache} {dqvp id : ℕ} {p : Place} (h : s.dqhashfind dqvp id = none)
      (ha : s.allocate limit dqvp id = some (s', p)) : CacheEnter limit s s' p

/-- The sections in between. -/
inductive CacheMove (limit : ℕ) : Cache → Place → Cache → Place → Prop
  | rehit {s s' : Cache} {dqvp id d : ℕ} (h : s.dqhashfind dqvp id = some (d, s')) :
      CacheMove limit s (.relock dqvp id) s' (.found d)
  | remiss {s s' : Cache} {dqvp id : ℕ} {p : Place} (h : s.dqhashfind dqvp id = none)
      (ha : s.allocate limit dqvp id = some (s', p)) : CacheMove limit s (.relock dqvp id) s' p
  | lost {s s' : Cache} {dqvp id d : ℕ} (h : s.dqhashfind dqvp id = some (d, s')) :
      CacheMove limit s (.allocating dqvp id) { s' with numdquot := s'.numdquot - 1 } (.found d)
  | filled {s : Cache} {dqvp id d : ℕ} (h : s.dqhashfind dqvp id = none) (hd : d ∉ s.used) :
      CacheMove limit s (.allocating dqvp id) (s.install dqvp id d) (.reading d)
  | found {s : Cache} {d : ℕ} (hlock : (s.dquot d).dqLock = false)
      (hfile : (s.dquot d).dqFile ≠ none) : CacheMove limit s (.found d) s (.holding d)
  | foundFailed {s : Cache} {d : ℕ} (hlock : (s.dquot d).dqLock = false)
      (hfile : (s.dquot d).dqFile = none) : CacheMove limit s (.found d) s (.releasing d)
  | read {s : Cache} {d : ℕ} (dirty : Bool) :
      CacheMove limit s (.reading d) (s.setFlags d false (dirty || (s.dquot d).dqMod)) (.holding d)
  | readError {s : Cache} {d : ℕ} : CacheMove limit s (.reading d) (s.drop d) (.failed d)
  | failed {s : Cache} {d : ℕ} :
      CacheMove limit s (.failed d) (s.setFlags d false false) (.releasing d)
  | charge {s : Cache} {d : ℕ} (hlock : (s.dquot d).dqLock = false) :
      CacheMove limit s (.holding d) (s.setFlags d false true) (.holding d)
  | release {s : Cache} {d : ℕ} : CacheMove limit s (.holding d) s (.releasing d)
  | last {s : Cache} {d : ℕ} (hcnt : ¬(s.dquot d).dqCnt > 1) :
      CacheMove limit s (.releasing d) s (.syncing d)
  | clean {s : Cache} {d : ℕ} (h : (s.dquot d).dqFile = none ∨ (s.dquot d).dqMod = false) :
      CacheMove limit s (.syncing d) s (.synced d)
  | write {s : Cache} {d : ℕ} (hfile : (s.dquot d).dqFile ≠ none)
      (hmod : (s.dquot d).dqMod = true) (hlock : (s.dquot d).dqLock = false) :
      CacheMove limit s (.syncing d) (s.setFlags d true true) (.writing d)
  | wrote {s : Cache} {d : ℕ} :
      CacheMove limit s (.writing d) (s.setFlags d false false) (.synced d)
  | dirty {s : Cache} {d : ℕ} (hcnt : ¬(s.dquot d).dqCnt - 1 > 0)
      (hmod : (s.dquot d).dqMod = true) :
      CacheMove limit s (.synced d) ((s.unref d).dqref d) (.syncing d)

/-- The last sections. -/
inductive CacheLeave : Cache → Place → Cache → Prop
  | full {s : Cache} : CacheLeave s .full s
  | shared {s : Cache} {d : ℕ} (hcnt : (s.dquot d).dqCnt > 1) :
      CacheLeave s (.releasing d) (s.unref d)
  | stillShared {s : Cache} {d : ℕ} (hcnt : (s.dquot d).dqCnt - 1 > 0) :
      CacheLeave s (.synced d) (s.unref d)
  | free {s : Cache} {d : ℕ} (hcnt : ¬(s.dquot d).dqCnt - 1 > 0)
      (hmod : (s.dquot d).dqMod = false) : CacheLeave s (.synced d) (s.putFree d)

/-- The code of `dqget` and `dqrele`. -/
def quotaCache (limit : ℕ) : Program Cache Place := ⟨CacheEnter limit, CacheMove limit, CacheLeave⟩

/-- `dqinit` -/
def dqinit : Threads Cache Place := ⟨⟨fun _ => ⟨none, 0, 0, false, false⟩, ∅, [], [], 0, dquotInc⟩, 0⟩

open Cache

/-! ## What the cache keeps -/

/-- The calls that refer to a dquot. -/
def refs (places : Multiset Place) (d : ℕ) : ℕ := places.countP fun p => p.dquot = some d

/-- The calls that are allocating a dquot. -/
def allocs (places : Multiset Place) : ℕ := places.countP fun p => p.allocates = true

/-- What the cache keeps of each dquot. -/
structure SoundAt (s : Cache) (places : Multiset Place) (d : ℕ) : Prop where
  cnt : (s.dquot d).dqCnt = refs places d
  unused : d ∉ s.used → (s.dquot d).dqCnt = 0
  free : d ∈ s.dqfreelist ↔ d ∈ s.used ∧ (s.dquot d).dqCnt = 0
  clean : d ∈ s.dqfreelist → (s.dquot d).dqMod = false
  hashed : d ∈ s.dqhashtbl ↔ d ∈ s.used ∧ (s.dquot d).dqFile ≠ none

/-- What the cache keeps, but for `numdquot`. -/
structure Kept (s : Cache) (places : Multiset Place) : Prop where
  each : ∀ d, SoundAt s places d
  freeNodup : s.dqfreelist.Nodup
  hashNodup : s.dqhashtbl.Nodup
  unique : ∀ d ∈ s.dqhashtbl, ∀ d' ∈ s.dqhashtbl, (s.dquot d).dqFile = (s.dquot d').dqFile →
    (s.dquot d).dqId = (s.dquot d').dqId → d = d'

/-- What the cache keeps. -/
structure Sound (s : Cache) (places : Multiset Place) : Prop extends Kept s places where
  num : s.numdquot = s.used.card + allocs places

variable {limit x : ℕ} {s s' : Cache} {p p' : Place} {places places' others : Multiset Place}
  {dqvp id d : ℕ} {q : Dquot} {t : Threads Cache Place}

theorem refs_cons (p : Place) (others : Multiset Place) (d : ℕ) :
    refs (p ::ₘ others) d = refs others d + if p.dquot = some d then 1 else 0 :=
  Multiset.countP_cons _ p others

theorem allocs_cons (p : Place) (others : Multiset Place) :
    allocs (p ::ₘ others) = allocs others + if p.allocates = true then 1 else 0 :=
  Multiset.countP_cons _ p others

/-- The section leaves the dquot as it is. -/
structure SameAt (s s' : Cache) (x : ℕ) : Prop where
  dquot : s'.dquot x = s.dquot x
  used : x ∈ s'.used ↔ x ∈ s.used
  free : x ∈ s'.dqfreelist ↔ x ∈ s.dqfreelist
  hashed : x ∈ s'.dqhashtbl ↔ x ∈ s.dqhashtbl

theorem SoundAt.same (h : SoundAt s places d) (hsame : SameAt s s' d)
    (hrefs : refs places' d = refs places d) : SoundAt s' places' d := by
  obtain ⟨hdquot, hused, hfree, hhashed⟩ := hsame
  refine ⟨?_, ?_, ?_, ?_, ?_⟩
  · rw [hdquot, hrefs]
    exact h.cnt
  · rw [hdquot, hused]
    exact h.unused
  · rw [hdquot, hused, hfree]
    exact h.free
  · rw [hdquot, hfree]
    exact h.clean
  · rw [hdquot, hused, hhashed]
    exact h.hashed

theorem SoundAt.of_dquot (hq : s.dquot d = q) (hcnt : q.dqCnt = refs places d)
    (hunused : d ∉ s.used → q.dqCnt = 0) (hfree : d ∈ s.dqfreelist ↔ d ∈ s.used ∧ q.dqCnt = 0)
    (hclean : d ∈ s.dqfreelist → q.dqMod = false)
    (hhashed : d ∈ s.dqhashtbl ↔ d ∈ s.used ∧ q.dqFile ≠ none) : SoundAt s places d := by
  subst hq
  exact ⟨hcnt, hunused, hfree, hclean, hhashed⟩

/-- A section about one dquot. -/
theorem Kept.section (h : Kept s places) (hother : ∀ x, x ≠ d → SameAt s s' x)
    (hrefs : ∀ x, x ≠ d → refs places' x = refs places x) (hd : SoundAt s' places' d)
    (hfree : s'.dqfreelist.Nodup) (hhash : s'.dqhashtbl.Nodup)
    (hunique : ∀ x ∈ s'.dqhashtbl, x ≠ d → (s'.dquot x).dqFile = (s'.dquot d).dqFile →
      (s'.dquot x).dqId = (s'.dquot d).dqId → d ∉ s'.dqhashtbl) : Kept s' places' := by
  refine ⟨fun x => ?_, hfree, hhash, fun x hx y hy hfile hid => ?_⟩
  · by_cases hxd : x = d
    · exact hxd ▸ hd
    · exact (h.each x).same (hother x hxd) (hrefs x hxd)
  · by_contra hne
    by_cases hxd : x = d
    · subst hxd
      exact hunique y hy (Ne.symm hne) hfile.symm hid.symm hx
    · by_cases hyd : y = d
      · subst hyd
        exact hunique x hx hne hfile hid hy
      · have hsx := hother x hxd
        have hsy := hother y hyd
        rw [hsx.dquot, hsy.dquot] at hfile hid
        exact hne (h.unique x (hsx.hashed.mp hx) y (hsy.hashed.mp hy) hfile hid)

/-- A dquot that has been used gets a new value for the same quota file and id. -/
theorem Kept.assign (h : Kept s places) {free : List ℕ}
    (hq : q.dqFile = (s.dquot d).dqFile ∧ q.dqId = (s.dquot d).dqId)
    (hother : ∀ x, x ≠ d → (x ∈ free ↔ x ∈ s.dqfreelist)) (hnodup : free.Nodup)
    (hrefs : ∀ x, x ≠ d → refs places' x = refs places x) (hcnt : q.dqCnt = refs places' d)
    (hused : d ∈ s.used) (hfree : d ∈ free ↔ q.dqCnt = 0) (hclean : d ∈ free → q.dqMod = false) :
    Kept { s with dquot := update s.dquot d q, dqfreelist := free } places' := by
  refine h.section (fun x hne => ?_) hrefs (.of_dquot (update_self ..) hcnt
    (absurd hused) (hfree.trans (and_iff_right hused).symm) hclean ?_)
    hnodup h.hashNodup fun x hx hne hfile hid hd => ?_
  · exact ⟨update_of_ne hne .., Iff.rfl, hother x hne, Iff.rfl⟩
  · rw [hq.1]
    exact (h.each d).hashed
  · dsimp only at hfile hid
    rw [update_self, update_of_ne hne] at hfile hid
    exact hne (h.unique x hx d hd (hfile.trans hq.1) (hid.trans hq.2))

/-- A change of the places that keeps the references. -/
theorem Kept.moved (h : Kept s places) (hrefs : ∀ x, refs places' x = refs places x) (n m : ℕ) :
    Kept { s with numdquot := n, desireddquot := m } places' :=
  ⟨fun x => (h.each x).same ⟨rfl, Iff.rfl, Iff.rfl, Iff.rfl⟩ (hrefs x), h.freeNodup, h.hashNodup,
    h.unique⟩

theorem refs_of_none (hp : p.dquot = none) (x : ℕ) : refs (p ::ₘ others) x = refs others x := by
  rw [refs_cons, hp, if_neg nofun, Nat.add_zero]

theorem refs_other (hp : p.dquot = some d) (hne : x ≠ d) :
    refs (p ::ₘ others) x = refs others x := by
  rw [refs_cons, hp, if_neg fun h => hne (Option.some.inj h).symm, Nat.add_zero]

theorem refs_self (hp : p.dquot = some d) : refs (p ::ₘ others) d = refs others d + 1 := by
  rw [refs_cons, hp, if_pos rfl]

/-- A call goes on without a change of the cache. -/
theorem Sound.move (h : Sound s (p ::ₘ others)) (hd : p'.dquot = p.dquot)
    (ha : p'.allocates = p.allocates) : Sound s (p' ::ₘ others) := by
  refine ⟨h.toKept.moved (fun x => ?_) s.numdquot s.desireddquot, ?_⟩
  · rw [refs_cons, refs_cons, hd]
  · rw [h.num, allocs_cons, allocs_cons, ha]

/-- A dquot that a call refers to is not free. -/
theorem Kept.referenced (h : Kept s (p ::ₘ others)) (hp : p.dquot = some d) :
    (s.dquot d).dqCnt = refs others d + 1 ∧ d ∈ s.used ∧ d ∉ s.dqfreelist := by
  obtain ⟨hcnt, hunused, hfree, -, -⟩ := h.each d
  rw [refs_self hp] at hcnt
  refine ⟨hcnt, by_contra fun hd => ?_, fun hd => ?_⟩
  · have := hunused hd
    omega
  · have := (hfree.mp hd).2
    omega

/-- A change of the flags by a call that refers to the dquot. -/
theorem Sound.setFlags (h : Sound s (p ::ₘ others)) (hp : p.dquot = some d) (lock dirty : Bool)
    (hd : p'.dquot = p.dquot) (ha : p'.allocates = p.allocates) :
    Sound (s.setFlags d lock dirty) (p' ::ₘ others) := by
  obtain ⟨hcnt, hused, hoff⟩ := h.referenced hp
  refine Sound.move ⟨h.toKept.assign ⟨rfl, rfl⟩ (fun _ _ => Iff.rfl) h.freeNodup (fun _ _ => rfl)
    (h.each d).cnt hused (iff_of_false hoff ?_) fun hmem => absurd hmem hoff, h.num⟩ hd ha
  exact (lt_of_lt_of_eq (succ_pos _) hcnt.symm).ne'

/-! ## The sections of `dqget` -/

theorem isFor_iff : s.isFor dqvp id d = true ↔
    (s.dquot d).dqId = id ∧ (s.dquot d).dqFile = some dqvp := by
  rw [isFor, Bool.and_eq_true, beq_iff_eq, beq_iff_eq]

/-- A failed lookup. -/
theorem dqhashfind_none (h : s.dqhashfind dqvp id = none) (hx : x ∈ s.dqhashtbl) :
    ¬((s.dquot x).dqId = id ∧ (s.dquot x).dqFile = some dqvp) := by
  rw [dqhashfind] at h
  split at h
  · rename_i hfind
    rw [← isFor_iff]
    exact find?_eq_none.mp hfind x hx
  · cases h

theorem unfree_eq (h : Kept s places) (d : ℕ) :
    s.unfree d = { s with dqfreelist := s.dqfreelist.erase d } := by
  rw [unfree]
  split
  · rfl
  · have hd : d ∉ s.dqfreelist := fun hd => ‹¬_› ((h.each d).free.mp hd).2
    rw [erase_of_not_mem hd]

/-- **`dqhashfind` finds a dquot**, takes it off the free list and counts the reference. -/
theorem Kept.hit (h : Kept s places) (hfind : s.dqhashfind dqvp id = some (d, s'))
    (hp : p.dquot = some d) : Kept s' (p ::ₘ places) := by
  rw [dqhashfind] at hfind
  split at hfind
  · cases hfind
  rename_i d' hd'
  obtain ⟨rfl, rfl⟩ := Prod.mk.inj (Option.some.inj hfind)
  have hmem : d' ∈ s.dqhashtbl := mem_of_find?_eq_some hd'
  have hoff : d' ∉ s.dqfreelist.erase d' := h.freeNodup.not_mem_erase
  rw [unfree_eq h]
  refine h.assign ⟨rfl, rfl⟩ (fun _ => mem_erase_of_ne) (h.freeNodup.erase d')
    (fun _ => refs_other hp) ?_ ((h.each d').hashed.mp hmem).1
    (iff_of_false hoff (succ_ne_zero _)) fun hd => absurd hd hoff
  rw [refs_self hp, ← (h.each d').cnt]

theorem install_self (s : Cache) (dqvp id d : ℕ) : (s.install dqvp id d).dquot d =
    { dqFile := some dqvp, dqId := id, dqCnt := (s.dquot d).dqCnt + 1, dqLock := true,
      dqMod := false } := by
  simp [Cache.install, Cache.dqref, Cache.modify]

theorem install_other (s : Cache) (dqvp id : ℕ) {d : ℕ} (hne : x ≠ d) :
    (s.install dqvp id d).dquot x = s.dquot x := by
  simp [Cache.install, Cache.dqref, Cache.modify, update_of_ne hne]

/-- **A dquot without references is filled in**, after a failed lookup. -/
theorem Kept.install (h : Kept s places) (hmiss : s.dqhashfind dqvp id = none)
    (hp : p.dquot = some d) (n m : ℕ) :
    Kept ({ s with
      dqfreelist := s.dqfreelist.erase d
      dqhashtbl := s.dqhashtbl.erase d
      numdquot := n
      desireddquot := m }.install dqvp id d) (p ::ₘ places) := by
  have hoff : d ∉ s.dqfreelist.erase d := h.freeNodup.not_mem_erase
  have hhash : d ∉ s.dqhashtbl.erase d := h.hashNodup.not_mem_erase
  refine h.section (fun x hne => ?_) (fun _ => refs_other hp) ?_
    (h.freeNodup.erase d) (nodup_cons.mpr ⟨hhash, h.hashNodup.erase d⟩) ?_
  · refine ⟨install_other _ _ _ hne, ?_, mem_erase_of_ne hne, ?_⟩
    · exact Finset.mem_insert.trans (or_iff_right hne)
    · exact mem_cons.trans ((or_iff_right hne).trans (mem_erase_of_ne hne))
  · have hused : d ∈ insert d s.used := Finset.mem_insert_self d s.used
    refine .of_dquot (install_self ..) ?_ (absurd hused)
      (iff_of_false hoff fun hd => succ_ne_zero _ hd.2) (fun hd => absurd hd hoff)
      (iff_of_true mem_cons_self ⟨hused, nofun⟩)
    rw [refs_self hp, ← (h.each d).cnt]
  · intro x hx hne hfile hid _
    rw [install_self, install_other _ _ _ hne] at hfile hid
    have hx' := mem_of_mem_erase (mem_of_ne_of_mem hne hx)
    exact dqhashfind_none hmiss hx' ⟨hid, hfile⟩

theorem grow_eq (s : Cache) (limit : ℕ) : ∃ m, s.grow limit = { s with desireddquot := m } := by
  rw [grow]
  split
  · exact ⟨_, rfl⟩
  · exact ⟨s.desireddquot, rfl⟩

/-- What the section behind a failed lookup can do. -/
theorem allocate_cases (h : s.allocate limit dqvp id = some (s', p)) : ∃ m,
    (p = .allocating dqvp id ∧ s' = { s with desireddquot := m, numdquot := s.numdquot + 1 }) ∨
    (p = .full ∧ s' = { s with desireddquot := m }) ∨
    ∃ d rest, p = .reading d ∧ s.dqfreelist = d :: rest ∧
      s' = ({ s with
        desireddquot := m
        dqfreelist := rest
        dqhashtbl := if (s.dquot d).dqFile ≠ none then s.dqhashtbl.erase d
          else s.dqhashtbl }.install dqvp id d) := by
  obtain ⟨m, hm⟩ := grow_eq s limit
  refine ⟨m, ?_⟩
  simp only [allocate, hm] at h
  split at h
  · cases h
    exact .inl ⟨rfl, rfl⟩
  · split at h
    · cases h
      exact .inr (.inl ⟨rfl, rfl⟩)
    · rename_i d rest hfree
      split at h
      · cases h
      · cases h
        exact .inr (.inr ⟨d, rest, rfl, hfree, rfl⟩)

/-- **The section behind a failed lookup.** -/
theorem Sound.allocate (h : Sound s places) (hmiss : s.dqhashfind dqvp id = none)
    (ha : s.allocate limit dqvp id = some (s', p)) : Sound s' (p ::ₘ places) := by
  have hnum := h.num
  obtain ⟨m, ⟨rfl, rfl⟩ | ⟨rfl, rfl⟩ | ⟨d, rest, rfl, hfree, rfl⟩⟩ := allocate_cases ha
  · refine ⟨h.toKept.moved (refs_of_none rfl) _ m, ?_⟩
    rw [allocs_cons]
    exact congrArg (· + 1) hnum
  · refine ⟨h.toKept.moved (fun x => refs_of_none rfl x) s.numdquot m, ?_⟩
    rw [allocs_cons]
    exact hnum
  · have hmem : d ∈ s.dqfreelist := hfree ▸ mem_cons_self
    have hused := ((h.each d).free.mp hmem).1
    have hrest : rest = s.dqfreelist.erase d := by rw [hfree, erase_cons_head]
    have hhash : (if (s.dquot d).dqFile ≠ none then s.dqhashtbl.erase d else s.dqhashtbl) =
        s.dqhashtbl.erase d := by
      split
      · rfl
      · have hd : d ∉ s.dqhashtbl := fun hd => ‹¬_› ((h.each d).hashed.mp hd).2
        rw [erase_of_not_mem hd]
    rw [hrest, hhash]
    refine ⟨h.toKept.install hmiss rfl s.numdquot m, ?_⟩
    rw [allocs_cons]
    change s.numdquot = (insert d s.used).card + allocs places
    rw [Finset.insert_eq_self.mpr hused]
    exact hnum

/-- **The panic of `dqget` does not happen.** -/
theorem Kept.allocate_isSome (h : Kept s places) (limit dqvp id : ℕ) :
    (s.allocate limit dqvp id).isSome = true := by
  have hfree : ∀ d ∈ s.dqfreelist, ¬((s.dquot d).dqCnt ≠ 0 ∨ (s.dquot d).dqMod = true) := by
    rintro d hd (hcnt | hmod)
    · exact hcnt ((h.each d).free.mp hd).2
    · exact absurd ((h.each d).clean hd) (ne_false_of_eq_true hmod)
  obtain ⟨m, hm⟩ := grow_eq s limit
  simp only [allocate, hm]
  split
  · rfl
  · split
    · rfl
    · rename_i d rest hd
      rw [if_neg (hfree d (hd ▸ mem_cons_self))]
      rfl

/-- **A failed read** takes the dquot off the hash table. -/
theorem Kept.drop (h : Kept s (p ::ₘ others)) (hp : p.dquot = some d) :
    Kept (s.drop d) (p ::ₘ others) := by
  obtain ⟨hcnt, hunused, hfree, -, -⟩ := h.each d
  have hoff : d ∉ s.dqhashtbl.erase d := h.hashNodup.not_mem_erase
  refine h.section (fun x hne => ?_) (fun _ _ => rfl) ?_ h.freeNodup
    (h.hashNodup.erase d) fun x _ _ _ _ => hoff
  · exact ⟨update_of_ne hne .., Iff.rfl, Iff.rfl, mem_erase_of_ne hne⟩
  · exact .of_dquot (update_self ..) hcnt hunused hfree
      (fun hd => absurd hd (h.referenced hp).2.2) (iff_of_false hoff fun hd => hd.2 rfl)

/-! ## The sections of `dqrele` -/

/-- **A reference goes away** while others stay. -/
theorem Kept.unref (h : Kept s (p ::ₘ others)) (hp : p.dquot = some d)
    (hcnt : (s.dquot d).dqCnt > 1) : Kept (s.unref d) others := by
  obtain ⟨hrefs, hused, hoff⟩ := h.referenced hp
  refine h.assign ⟨rfl, rfl⟩ (fun _ _ => Iff.rfl) h.freeNodup
    (fun x hne => (refs_other hp hne).symm) (Nat.sub_eq_of_eq_add hrefs) hused
    (iff_of_false hoff ?_) fun hd => absurd hd hoff
  exact (Nat.sub_pos_of_lt hcnt).ne'

/-- **The last reference goes away**, and the clean dquot comes to the free list. -/
theorem Kept.putFree (h : Kept s (p ::ₘ others)) (hp : p.dquot = some d)
    (hcnt : ¬(s.dquot d).dqCnt - 1 > 0) (hmod : (s.dquot d).dqMod = false) :
    Kept (s.putFree d) others := by
  obtain ⟨hrefs, hused, hoff⟩ := h.referenced hp
  have hmem : ∀ x, x ∈ s.dqfreelist ++ [d] ↔ x ∈ s.dqfreelist ∨ x = d := fun x =>
    mem_append.trans (or_congr_right mem_singleton)
  refine h.assign ⟨rfl, rfl⟩ (fun x hne => (hmem x).trans (or_iff_left hne)) ?_
    (fun x hne => (refs_other hp hne).symm) (Nat.sub_eq_of_eq_add hrefs) hused
    (iff_of_true ((hmem d).mpr (.inr rfl)) (Nat.eq_zero_of_not_pos hcnt)) fun _ => hmod
  refine nodup_append.mpr ⟨h.freeNodup, nodup_singleton d, fun x hx y hy hxy => ?_⟩
  exact hoff (mem_singleton.mp hy ▸ hxy ▸ hx)

theorem dqref_unref (hcnt : 0 < (s.dquot d).dqCnt) : (s.unref d).dqref d = s := by
  have hself : (⟨(s.dquot d).dqFile, (s.dquot d).dqId, (s.dquot d).dqCnt - 1 + 1,
      (s.dquot d).dqLock, (s.dquot d).dqMod⟩ : Dquot) = s.dquot d := by
    rw [Nat.sub_add_cancel hcnt]
  simp [Cache.dqref, Cache.unref, Cache.modify, hself]

/-! ## Every run -/

/-- A call that finds the dquot. -/
theorem Sound.hit (h : Sound s places) (hfind : s.dqhashfind dqvp id = some (d, s')) :
    Sound s' (.found d ::ₘ places) := by
  refine ⟨h.toKept.hit hfind rfl, ?_⟩
  have hsame : s'.numdquot = s.numdquot ∧ s'.used = s.used := by
    rw [dqhashfind] at hfind
    split at hfind
    · cases hfind
    · obtain ⟨-, rfl⟩ := Prod.mk.inj (Option.some.inj hfind)
      rw [unfree_eq h.toKept]
      exact ⟨rfl, rfl⟩
  rw [hsame.1, hsame.2, allocs_cons]
  exact h.num

/-- A call that neither refers to a dquot nor allocates one is out of the count. -/
theorem Sound.forget (h : Sound s (p ::ₘ others)) (hp : p.dquot = none)
    (ha : p.allocates = false) : Sound s others := by
  refine ⟨h.toKept.moved (fun x => (refs_of_none hp x).symm) s.numdquot s.desireddquot, ?_⟩
  have hnum := h.num
  rwa [allocs_cons, ha, if_neg nofun] at hnum

/-- A call that gives up its new dquot. -/
theorem Sound.lost (h : Sound s (.allocating dqvp id ::ₘ others)) :
    Sound { s with numdquot := s.numdquot - 1 } others := by
  refine ⟨h.toKept.moved (fun x => (refs_of_none rfl x).symm) (s.numdquot - 1) s.desireddquot, ?_⟩
  have hnum := h.num
  rw [allocs_cons] at hnum
  exact Nat.sub_eq_of_eq_add hnum

/-- A call that fills in its new dquot. -/
theorem Sound.filled (h : Sound s (.allocating dqvp id ::ₘ others))
    (hmiss : s.dqhashfind dqvp id = none) (hd : d ∉ s.used) :
    Sound (s.install dqvp id d) (.reading d ::ₘ others) := by
  have hkept := h.toKept.moved (fun x => (refs_of_none rfl x).symm) s.numdquot s.desireddquot
  have hfree : d ∉ s.dqfreelist := fun hmem => hd ((h.each d).free.mp hmem).1
  have hhash : d ∉ s.dqhashtbl := fun hmem => hd ((h.each d).hashed.mp hmem).1
  have hinstall := hkept.install hmiss (p := .reading d) rfl s.numdquot s.desireddquot
  rw [erase_of_not_mem hfree, erase_of_not_mem hhash] at hinstall
  refine ⟨hinstall, ?_⟩
  have hnum := h.num
  rw [allocs_cons, if_pos (show (Place.allocating dqvp id).allocates = true from rfl)] at hnum
  rw [allocs_cons]
  change s.numdquot = (insert d s.used).card + allocs others
  rw [Finset.card_insert_of_notMem hd]
  omega

theorem CacheEnter.sound (hstep : CacheEnter limit s s' p) (h : Sound s others) :
    Sound s' (p ::ₘ others) := by
  cases hstep with
  | hit hfind => exact h.hit hfind
  | miss dqvp id hmiss =>
    refine ⟨h.toKept.moved (refs_of_none rfl) s.numdquot s.desireddquot, ?_⟩
    rw [allocs_cons]
    exact h.num
  | missSelf hmiss ha => exact h.allocate hmiss ha

theorem CacheMove.sound (hstep : CacheMove limit s p s' p') (h : Sound s (p ::ₘ others)) :
    Sound s' (p' ::ₘ others) := by
  cases hstep with
  | rehit hfind => exact (h.forget rfl rfl).hit hfind
  | remiss hmiss ha => exact (h.forget rfl rfl).allocate hmiss ha
  | lost hfind =>
    have hboth := h.hit hfind
    rw [Multiset.cons_swap] at hboth
    exact hboth.lost
  | filled hmiss hd => exact h.filled hmiss hd
  | found | foundFailed | release | last | clean => exact h.move rfl rfl
  | read dirty | failed | charge | write | wrote => exact h.setFlags rfl _ _ rfl rfl
  | readError => exact Sound.move ⟨h.toKept.drop rfl, h.num⟩ rfl rfl
  | dirty =>
    have hcnt := (h.referenced rfl).1
    rw [dqref_unref (by omega)]
    exact h.move rfl rfl

theorem CacheLeave.sound (hstep : CacheLeave s p s') (h : Sound s (p ::ₘ others)) :
    Sound s' others := by
  have hnum := h.num
  rw [allocs_cons] at hnum
  cases hstep with
  | full => exact h.forget rfl rfl
  | shared hcnt => exact ⟨h.toKept.unref rfl hcnt, hnum⟩
  | stillShared hcnt => exact ⟨h.toKept.unref rfl (by omega), hnum⟩
  | free hcnt hmod => exact ⟨h.toKept.putFree rfl hcnt hmod, hnum⟩

/-- **The cache keeps its invariant** in every run. -/
theorem reachable_sound (h : Reachable (· = dqinit) (ThreadStep (quotaCache limit)) t) :
    Sound t.shared t.places := by
  refine ThreadStep.invariant (quotaCache limit) ?_ (fun s s' p others => CacheEnter.sound)
    (fun s p s' p' others => CacheMove.sound) (fun s p s' others => CacheLeave.sound) h
  rintro t rfl
  refine ⟨⟨fun d => ⟨rfl, fun _ => rfl, ?_, nofun, ?_⟩, nodup_nil, nodup_nil, nofun⟩, rfl⟩
  · exact ⟨nofun, fun h => absurd h.1 (Finset.notMem_empty d)⟩
  · exact ⟨nofun, fun h => absurd h.1 (Finset.notMem_empty d)⟩

/-- **The cache of dquots.**  In every run of `dqget` and `dqrele` by any number of threads, at most
one dquot is hashed for a quota file and an id, the count of a dquot is the number of callers that
hold it, a dquot is on the free list exactly when it has been used and its count is zero, no dquot
on the free list is modified, and `numdquot` is the number of dquots, those that a call is
allocating among them. -/
theorem dquot_cache (limit : ℕ) {t : Threads Cache Place}
    (h : Reachable (· = dqinit) (ThreadStep (quotaCache limit)) t) :
    (∀ dqvp id, ∀ d ∈ t.shared.dqhashtbl, ∀ d' ∈ t.shared.dqhashtbl,
      t.shared.isFor dqvp id d = true → t.shared.isFor dqvp id d' = true → d = d') ∧
    (∀ d, (t.shared.dquot d).dqCnt = refs t.places d) ∧
    (∀ d, d ∈ t.shared.dqfreelist ↔ d ∈ t.shared.used ∧ (t.shared.dquot d).dqCnt = 0) ∧
    (∀ d ∈ t.shared.dqfreelist, (t.shared.dquot d).dqMod = false) ∧
    t.shared.numdquot = t.shared.used.card + allocs t.places := by
  have hs := reachable_sound h
  refine ⟨fun dqvp id d hd d' hd' hfor hfor' => ?_, fun d => (hs.each d).cnt,
    fun d => (hs.each d).free, fun d => (hs.each d).clean, hs.num⟩
  obtain ⟨hid, hfile⟩ := isFor_iff.mp hfor
  obtain ⟨hid', hfile'⟩ := isFor_iff.mp hfor'
  exact hs.unique d hd d' hd' (hfile.trans hfile'.symm) (hid.trans hid'.symm)

/-- Two calls miss the same dquot; the first one fills it in and the second one finds it. -/
theorem dquot_cache_race : ∃ t : Threads Cache Place,
    Reachable (· = dqinit) (ThreadStep (quotaCache 200)) t ∧
    t.places = {.found 0, .reading 0} ∧ (t.shared.dquot 0).dqCnt = 2 ∧
    t.shared.numdquot = t.shared.used.card + allocs t.places := by
  have h0 : Reachable (· = dqinit) (ThreadStep (quotaCache 200)) dqinit := .of_init rfl
  have h1 := h0.tail (.enter (.miss 7 100 rfl))
  have h2 := h1.tail (.enter (.miss 7 100 rfl))
  have h3 := h2.tail (.move (.remiss rfl rfl))
  have h4 := h3.tail (.move (.filled rfl (Finset.notMem_empty 0)))
  rw [Multiset.cons_swap] at h4
  have h5 := h4.tail (.move (.rehit rfl))
  exact ⟨_, h5, rfl, rfl, (dquot_cache 200 h5).2.2.2.2⟩

end FreeBSDSys.QuotaCache
