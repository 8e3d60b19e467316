import FreeBSDSys.Lib.Reachability

/-!
# System V semaphore sets

All sets share one pool of `semmns` semaphores.  A new set gets the elements behind `semtot`, and
`IPC_RMID` moves the elements behind the removed set down.

* `State.Covered`: each of the first `semtot` elements belongs to exactly one set.
* `State.Ok.owns_ipcRmid`: whose the elements are after a removal.
* `semctl_frames`: the sets cover the pool as long as they are small enough for `sem_nsems`.
  `IPC_RMID` stays in the pool exactly if as many elements are unused as are removed, and a `SETALL`
  that fails halfway changes nothing exactly if there was nothing to change.
* `semctl_leaks`: a removal that reads behind the pool, and a failed `SETALL` that stores a value.
-/

namespace FreeBSDSys.SysvSem

open Function List Nat

/-! ## The code -/

inductive Error
  | EINVAL | EACCES | ERANGE | ENOSPC | EEXIST | ENOENT | EFAULT
deriving DecidableEq

/-- `struct sem`. -/
structure Sem where
  semval : ℕ
  sempid : ℤ
  semncnt : ℕ
  semzcnt : ℕ

/-- `struct undo`: what a process has to add to semaphore `num` of set `id`. -/
structure Undo where
  adjval : ℤ
  num : ℤ
  id : ℕ

/-- `struct semid_kernel`: `SEM_ALLOC`, the key, the sequence number and the part of the pool. -/
structure SemidKernel where
  alloc : Bool
  key : ℤ
  seq : ℕ
  base : ℕ
  nsems : ℕ

/-- The pool, the sets, `semtot`, and the entries of each structure on `semu_list`. -/
structure State (semmni : ℕ) where
  sem : ℕ → Sem
  sema : Fin semmni → SemidKernel
  semtot : ℕ
  undo : List (List Undo)

variable {semmni : ℕ} {j : Fin semmni}

/-- The loop of `semundo_clear` over the entries of a process, from some entry on.  The last entry
takes the place of one that goes, and is passed over. -/
def clearLoop (semid : ℕ) (semnum : ℤ) : List Undo → List Undo
  | [] => []
  | sun :: ent =>
    if sun.id ≠ semid then sun :: clearLoop semid semnum ent
    else if semnum = -1 ∨ sun.num = semnum then
      match ent.getLast? with
      | none => []
      | some last => last :: clearLoop semid semnum ent.dropLast
    else sun :: ent
  termination_by ent => ent.length
  decreasing_by all_goals grind

/-- `semu_try_free` takes a structure off the list when its last entry goes. -/
def semundoClear (semid : ℕ) (semnum : ℤ) (undo : List (List Undo)) : List (List Undo) :=
  undo.filterMap fun ent =>
    if ent ≠ [] ∧ clearLoop semid semnum ent = [] then none else some (clearLoop semid semnum ent)

/-- The loop of `IPC_RMID` over the pool: the pool, and the elements that are accessed. -/
def rmidLoop (nsems : ℕ) : ℕ → ℕ → (ℕ → Sem) → (ℕ → Sem) × List ℕ
  | 0, _, sem => (sem, [])
  | left + 1, i, sem =>
    let r := rmidLoop nsems left (i + 1) (update sem i (sem (i + nsems)))
    (r.1, i :: (i + nsems) :: r.2)

/-- `IPC_RMID` on a valid set, with the elements of the pool that are accessed. -/
def State.ipcRmid (s : State semmni) (ix : Fin semmni) : State semmni × List ℕ :=
  let sk := s.sema ix
  let r := rmidLoop sk.nsems (s.semtot - sk.base) sk.base s.sem
  ({ sem := r.1
     sema := fun i =>
      if i = ix then { sk with alloc := false }
      else if (s.sema i).alloc ∧ sk.base < (s.sema i).base then
        { s.sema i with base := (s.sema i).base - sk.nsems }
      else s.sema i
     semtot := s.semtot - sk.nsems
     undo := semundoClear ix (-1) s.undo }, r.2)

/-- The loop of `SETALL` from element `i` on: whether all values are in range, and the pool. -/
def setallLoop (semvmx : ℤ) (array : ℕ → ℕ) (base : ℕ) : ℕ → ℕ → (ℕ → Sem) → Bool × (ℕ → Sem)
  | 0, _, sem => (true, sem)
  | left + 1, i, sem =>
    if semvmx < array i then (false, sem)
    else setallLoop semvmx array base left (i + 1)
      (update sem (base + i) { sem (base + i) with semval := array i })

/-- `copyin` tells whether the array can be read. -/
inductive Cmd
  | rmid
  | setval (val : ℤ)
  | setall (array : ℕ → ℕ) (copyin : Bool)

def ipcidToIx (semid : BitVec 32) : ℕ := (semid &&& 0xffff).toNat

def ipcidToSeq (semid : BitVec 32) : ℕ := (semid >>> 16 &&& 0xffff).toNat

/-- `kern_semctl`; `perm` is what `ipcperm` says. -/
def kernSemctl (semvmx : ℤ) (perm : Bool) (semid : BitVec 32) (semnum : ℤ) (cmd : Cmd)
    (s : State semmni) : Option Error × State semmni :=
  if h : ipcidToIx semid < semmni then
    let ix : Fin semmni := ⟨ipcidToIx semid, h⟩
    let sk := s.sema ix
    let semvalid := sk.alloc ∧ sk.seq = ipcidToSeq semid
    match cmd with
    | .rmid =>
      if ¬ semvalid then (some .EINVAL, s)
      else if ¬ perm then (some .EACCES, s)
      else (none, (s.ipcRmid ix).1)
    | .setval val =>
      if ¬ semvalid then (some .EINVAL, s)
      else if ¬ perm then (some .EACCES, s)
      else if semnum < 0 ∨ sk.nsems ≤ semnum then (some .EINVAL, s)
      else if val < 0 ∨ semvmx < val then (some .ERANGE, s)
      else
        let x := sk.base + semnum.toNat
        (none, { s with
          sem := update s.sem x { s.sem x with semval := (val % 65536).toNat }
          undo := semundoClear ix semnum s.undo })
    | .setall array copyin =>
      if ¬ copyin then (some .EFAULT, s)
      else if ¬ semvalid then (some .EINVAL, s)
      else if ¬ perm then (some .EACCES, s)
      else
        let r := setallLoop semvmx array sk.base sk.nsems 0 s.sem
        (if r.1 then none else some .ERANGE,
          { s with sem := r.2, undo := semundoClear ix (-1) s.undo })
  else (some .EINVAL, s)

/-- A set is made; `sem_nsems` has 16 bits. -/
def State.create (s : State semmni) (i : Fin semmni) (key : ℤ) (nsems : ℕ) : State semmni :=
  { s with
    sem := fun x => if s.semtot ≤ x ∧ x < s.semtot + nsems then ⟨0, 0, 0, 0⟩ else s.sem x
    sema := update s.sema i ⟨true, key, ((s.sema i).seq + 1) &&& 0x7fff, s.semtot, nsems % 65536⟩
    semtot := s.semtot + nsems }

/-- `semget`; `perm` is what `ipcperm` says on the set that is found. -/
def semget (semmns : ℕ) (semmsl key nsems : ℤ) (creat excl perm : Bool) (s : State semmni) :
    Option Error × State semmni :=
  let found := (finRange semmni).find? fun i => (s.sema i).alloc ∧ (s.sema i).key = key
  match if key ≠ 0 then found else none with
  | some i =>
    if ¬ perm then (some .EACCES, s)
    else if 0 < nsems ∧ (s.sema i).nsems < nsems then (some .EINVAL, s)
    else if creat ∧ excl then (some .EEXIST, s)
    else (none, s)
  | none =>
    if key = 0 ∨ creat then
      if nsems ≤ 0 ∨ semmsl < nsems then (some .EINVAL, s)
      else if semmns - s.semtot < nsems then (some .ENOSPC, s)
      else
        match (finRange semmni).find? fun i => !(s.sema i).alloc with
        | none => (some .ENOSPC, s)
        | some i => (none, s.create i key nsems.toNat)
    else (some .ENOENT, s)

/-- A call, or something else that touches semaphores and undo entries, but no set.  If `small`, no
set is asked for that is too large for `sem_nsems`. -/
inductive Step (semmns : ℕ) (small : Prop) (s : State semmni) : State semmni → Prop
  | semget (semmsl key nsems : ℤ) (creat excl perm : Bool) (hsmall : small → nsems < 65536) :
      Step semmns small s (semget semmns semmsl key nsems creat excl perm s).2
  | semctl (semvmx : ℤ) (perm : Bool) (semid : BitVec 32) (semnum : ℤ) (cmd : Cmd) :
      Step semmns small s (kernSemctl semvmx perm semid semnum cmd s).2
  | other (sem : ℕ → Sem) (undo : List (List Undo)) :
      Step semmns small s { s with sem := sem, undo := undo }

/-- No set is allocated. -/
def Boot (s : State semmni) : Prop := s.semtot = 0 ∧ ∀ i, (s.sema i).alloc = false

/-! ## Who has an element -/

/-- Element `x` of the pool belongs to a set. -/
def State.Owns (s : State semmni) (i : Fin semmni) (x : ℕ) : Prop :=
  (s.sema i).alloc ∧ (s.sema i).base ≤ x ∧ x < (s.sema i).base + (s.sema i).nsems

/-- The sets are disjoint and cover the first `semtot` elements. -/
structure State.Covered (s : State semmni) : Prop where
  cover : ∀ x, x < s.semtot ↔ ∃ i, s.Owns i x
  disjoint : ∀ i j x, s.Owns i x → s.Owns j x → i = j

structure State.Ok (semmns : ℕ) (s : State semmni) : Prop extends s.Covered where
  nonempty : ∀ i, (s.sema i).alloc → 0 < (s.sema i).nsems
  le : s.semtot ≤ semmns

variable {semmns : ℕ} {s s' : State semmni} {i ix : Fin semmni} {x n : ℕ}

theorem State.owns_create (hi : (s.sema i).alloc = false) (key : ℤ) (j : Fin semmni) :
    (s.create i key n).Owns j x ↔ s.Owns j x ∨ j = i ∧ s.semtot ≤ x ∧ x < s.semtot + n % 65536 := by
  rcases eq_or_ne j i with rfl | hne
  · simp [State.Owns, State.create, hi]
  · simp [State.Owns, State.create, hne]

theorem State.Ok.create (h : s.Ok semmns) (hi : (s.sema i).alloc = false) (key : ℤ) (hn : 0 < n) :
    (s.create i key n).Covered ↔ n < 65536 := by
  have hold : ∀ j x, s.Owns j x → x < s.semtot := fun j x ho => (h.cover x).mpr ⟨j, ho⟩
  constructor
  · intro hc
    obtain ⟨j, hj⟩ := (hc.cover (s.semtot + n - 1)).mp (by change _ < s.semtot + n; omega)
    rcases (State.owns_create hi key j).mp hj with ho | ⟨-, -, hlt⟩
    · have := hold j _ ho
      omega
    · omega
  · intro hlt
    refine ⟨fun x => ?_, fun j k x hj hk => ?_⟩
    · simp only [State.owns_create hi, exists_or, exists_eq_left, ← h.cover]
      change x < s.semtot + n ↔ _
      omega
    · rw [State.owns_create hi] at hj hk
      rcases hj with hj | ⟨rfl, hj⟩ <;> rcases hk with hk | ⟨rfl, hk⟩
      · exact h.disjoint j k x hj hk
      · exact absurd (hold j x hj) (not_lt.mpr hk.1)
      · exact absurd (hold k x hk) (not_lt.mpr hj.1)
      · rfl

/-- Two sets lie apart. -/
theorem State.Ok.apart (h : s.Ok semmns) (hi : (s.sema i).alloc)
    (hj : (s.sema j).alloc) (hne : i ≠ j) :
    (s.sema i).base + (s.sema i).nsems ≤ (s.sema j).base ∨
      (s.sema j).base + (s.sema j).nsems ≤ (s.sema i).base := by
  by_contra hmeet
  have := h.nonempty i hi
  have := h.nonempty j hj
  refine hne (h.disjoint i j (max (s.sema i).base (s.sema j).base) ⟨hi, ?_, ?_⟩ ⟨hj, ?_, ?_⟩) <;>
    omega

/-- Where an element of the pool was before the removal. -/
def State.before (s : State semmni) (ix : Fin semmni) (x : ℕ) : ℕ :=
  if x < (s.sema ix).base then x else x + (s.sema ix).nsems

theorem State.Ok.owns_ipcRmid (h : s.Ok semmns) (hix : (s.sema ix).alloc) :
    (s.ipcRmid ix).1.Owns i x ↔ i ≠ ix ∧ s.Owns i (s.before ix x) := by
  rcases eq_or_ne i ix with rfl | hne
  · simp [State.Owns, State.ipcRmid]
  · by_cases hi : (s.sema i).alloc = true
    · have hapart := h.apart hi hix hne
      simp only [State.Owns, State.ipcRmid, State.before, if_neg hne, hi, true_and]
      split <;> split <;> simp only [hi, hne, ne_eq, not_false_eq_true, true_and] <;> omega
    · simp [State.Owns, State.ipcRmid, hne, hi]

theorem State.Ok.ipcRmid (h : s.Ok semmns) (hix : (s.sema ix).alloc) :
    (s.ipcRmid ix).1.Ok semmns := by
  have hpos := h.nonempty ix hix
  have hend := (h.cover _).mpr ⟨ix, hix, Nat.le_sub_one_of_lt (Nat.lt_add_of_pos_right hpos),
    Nat.sub_one_lt (by omega)⟩
  refine ⟨⟨fun x => ?_, fun i j x hi hj => ?_⟩, fun i hi => ?_, (sub_le ..).trans h.le⟩
  · simp only [h.owns_ipcRmid hix]
    have hout : ¬ s.Owns ix (s.before ix x) := by
      simp only [State.Owns, State.before]
      split <;> omega
    have hcover := h.cover (s.before ix x)
    have hany : (∃ i, i ≠ ix ∧ s.Owns i (s.before ix x)) ↔ ∃ i, s.Owns i (s.before ix x) :=
      exists_congr fun i => and_iff_right_of_imp fun ho heq => hout (heq ▸ ho)
    rw [hany, ← hcover]
    change x < s.semtot - (s.sema ix).nsems ↔ _
    clear hcover hany hout
    simp only [State.before]
    split <;> omega
  · exact h.disjoint i j _ ((h.owns_ipcRmid hix).mp hi).2 ((h.owns_ipcRmid hix).mp hj).2
  · rcases eq_or_ne i ix with rfl | hne
    · simp [State.ipcRmid] at hi
    · simp only [State.ipcRmid, if_neg hne] at hi ⊢
      split at hi <;> split <;> exact h.nonempty i (by simpa using hi)

/-! ## Copying and storing -/

theorem rmidLoop_spec (hn : 0 < n) (left i : ℕ) (sem : ℕ → Sem) :
    (rmidLoop n left i sem).1 x = (if i ≤ x ∧ x < i + left then sem (x + n) else sem x) ∧
    (x ∈ (rmidLoop n left i sem).2 ↔ ∃ j, i ≤ j ∧ j < i + left ∧ (x = j ∨ x = j + n)) := by
  induction left generalizing i sem with
  | zero =>
    refine ⟨(if_neg (by omega)).symm, iff_of_false not_mem_nil ?_⟩
    rintro ⟨j, h1, h2, -⟩
    omega
  | succ left ih =>
    obtain ⟨hcopy, hmem⟩ := ih (i + 1) (update sem i (sem (i + n)))
    simp only [rmidLoop, hcopy, mem_cons, hmem]
    refine ⟨?_, ?_⟩
    · rcases lt_trichotomy x i with hlt | rfl | hgt
      · rw [if_neg (by omega), if_neg (by omega), update_of_ne hlt.ne]
      · rw [if_neg (by omega), if_pos (by omega), update_self]
      · rw [update_of_ne (by omega), update_of_ne hgt.ne']
        exact if_congr (by omega) rfl rfl
    · constructor
      · rintro (rfl | rfl | ⟨j, h1, h2, hx⟩)
        · exact ⟨x, le_rfl, by omega, .inl rfl⟩
        · exact ⟨i, le_rfl, by omega, .inr rfl⟩
        · exact ⟨j, by omega, by omega, hx⟩
      · rintro ⟨j, h1, h2, hx⟩
        rcases eq_or_lt_of_le h1 with rfl | hlt
        · exact hx.imp_right .inl
        · exact .inr (.inr ⟨j, hlt, by omega, hx⟩)

theorem setallLoop_of_lt (semvmx : ℤ) (array : ℕ → ℕ) (base left : ℕ) {j : ℕ} (sem : ℕ → Sem)
    (hx : x < base + j) : (setallLoop semvmx array base left j sem).2 x = sem x := by
  induction left generalizing j sem with
  | zero => rfl
  | succ left ih =>
    rw [setallLoop]
    split
    · rfl
    · rw [ih _ (by omega), update_of_ne (by omega)]

/-- A `SETALL` changes nothing if the values up to the first one out of range are there already. -/
theorem setallLoop_eq_self (semvmx : ℤ) (array : ℕ → ℕ) (base left j : ℕ) (sem : ℕ → Sem) :
    (setallLoop semvmx array base left j sem).2 = sem ↔
      ∀ k, j ≤ k → k < j + left → (∀ l, j ≤ l → l ≤ k → (array l : ℤ) ≤ semvmx) →
        (sem (base + k)).semval = array k := by
  induction left generalizing j sem with
  | zero => exact iff_of_true rfl fun k h1 h2 => absurd h2 (not_lt.mpr h1)
  | succ left ih =>
    rw [setallLoop]
    split_ifs with hlarge
    · exact iff_of_true rfl fun k hk _ hall => absurd (hall j le_rfl hk) (not_le.mpr hlarge)
    · rw [not_lt] at hlarge
      constructor
      · intro heq k hk hkn hall
        have hfirst := setallLoop_of_lt semvmx array base left
          (update sem (base + j) { sem (base + j) with semval := array j })
          (by omega : base + j < base + (j + 1))
        rw [heq, update_self] at hfirst
        rw [← hfirst, update_eq_self] at heq
        rcases eq_or_lt_of_le hk with rfl | hlt
        · rw [hfirst]
        · exact (ih (j + 1) sem).mp heq k hlt (by omega) fun l hl => hall l (by omega)
      · intro hsame
        have hfirst : (sem (base + j)).semval = array j :=
          hsame j le_rfl (by omega) fun l h1 h2 => le_antisymm h2 h1 ▸ hlarge
        rw [← hfirst, update_eq_self]
        refine (ih (j + 1) sem).mpr fun k hk hkn hall => hsame k (by omega) (by omega) ?_
        intro l h1 h2
        rcases eq_or_lt_of_le h1 with rfl | hlt
        · exact hlarge
        · exact hall l hlt h2

/-- An entry of the set that is found goes. -/
theorem clearLoop_length (semid : ℕ) (ent : List Undo) :
    (clearLoop semid (-1) ent).length ≤ ent.length ∧
      ((∃ sun ∈ ent, sun.id = semid) → (clearLoop semid (-1) ent).length < ent.length) := by
  induction ent using clearLoop.induct semid (-1) with
  | case1 => simp [clearLoop]
  | case2 sun ent hid ih => simpa [clearLoop, hid] using ih
  | case3 sun ent hid _ hlast => simp [clearLoop, not_not.mp hid, hlast]
  | case4 sun ent hid _ last hlast ih =>
    have hpos : 0 < ent.length := by
      rcases ent with _ | ⟨e, ent⟩ <;> simp_all
    have hle := ih.1
    simp only [length_dropLast] at hle
    simp [clearLoop, not_not.mp hid, hlast]
    omega
  | case5 sun ent _ hnum => exact absurd (Or.inl rfl) hnum

theorem clearLoop_eq_self (semid : ℕ) (ent : List Undo) :
    clearLoop semid (-1) ent = ent ↔ ∀ sun ∈ ent, sun.id ≠ semid := by
  constructor
  · intro heq sun hsun hid
    have := (clearLoop_length semid ent).2 ⟨sun, hsun, hid⟩
    rw [heq] at this
    omega
  · intro hnone
    induction ent with
    | nil => rw [clearLoop]
    | cons sun ent ih =>
      obtain ⟨hid, hrest⟩ := forall_mem_cons.mp hnone
      rw [clearLoop, if_pos hid, ih hrest]

theorem semundoClear_eq_self (semid : ℕ) (undo : List (List Undo)) :
    semundoClear semid (-1) undo = undo ↔ ∀ ent ∈ undo, ∀ sun ∈ ent, sun.id ≠ semid := by
  induction undo with
  | nil => simp [semundoClear]
  | cons ent undo ih =>
    rw [forall_mem_cons, ← clearLoop_eq_self, ← ih, semundoClear, filterMap_cons]
    split
    · -- the structure is freed
      rename_i hfreed
      have hgone : ent ≠ [] ∧ clearLoop semid (-1) ent = [] := by
        by_contra hkept
        simp [hkept] at hfreed
      refine iff_of_false (fun heq => ?_) fun hsame => hgone.1 (hsame.1.symm.trans hgone.2)
      have := length_filterMap_le (fun ent => if ent ≠ [] ∧ clearLoop semid (-1) ent = [] then
        none else some (clearLoop semid (-1) ent)) undo
      rw [heq, length_cons] at this
      omega
    · rename_i ent' hkept
      split_ifs at hkept
      cases hkept
      rw [cons.injEq]
      rfl

/-! ## The calls -/

/-- A call makes no set, or one that fits. -/
theorem semget_cases (semmns : ℕ) (semmsl key nsems : ℤ) (creat excl perm : Bool)
    (s : State semmni) :
    (semget semmns semmsl key nsems creat excl perm s).2 = s ∨
      ∃ i, (s.sema i).alloc = false ∧ 0 < nsems ∧ s.semtot + nsems ≤ semmns ∧
        (semget semmns semmsl key nsems creat excl perm s).2 = s.create i key nsems.toNat := by
  unfold semget
  dsimp only
  split
  · left
    split_ifs <;> rfl
  · split_ifs with hcreat hrange hroom
    · exact .inl rfl
    · exact .inl rfl
    · split
      · exact .inl rfl
      · rename_i i hi
        exact .inr ⟨i, by simpa using find?_some hi, by omega, by omega, rfl⟩
    · exact .inl rfl

theorem Step.ok (hstep : Step semmns True s s') (h : s.Ok semmns) : s'.Ok semmns := by
  cases hstep with
  | semget semmsl key nsems creat excl perm hsmall =>
    rcases semget_cases semmns semmsl key nsems creat excl perm s with heq | ⟨i, hi, hpos, hle, heq⟩
    · rwa [heq]
    · have hn : nsems.toNat < 65536 := by
        have := hsmall trivial
        omega
      rw [heq]
      refine ⟨(h.create hi key (by omega)).mpr hn, fun j hj => ?_, ?_⟩
      · rcases eq_or_ne j i with rfl | hne
        · simp only [State.create, update_self]
          omega
        · simp only [State.create, update_of_ne hne] at hj ⊢
          exact h.nonempty j hj
      · change s.semtot + nsems.toNat ≤ semmns
        omega
  | semctl semvmx perm semid semnum cmd =>
    have hset : ∀ sem undo, State.Ok semmns { s with sem := sem, undo := undo } := fun _ _ =>
      ⟨⟨h.cover, h.disjoint⟩, h.nonempty, h.le⟩
    unfold kernSemctl
    split
    · cases cmd <;> dsimp only <;> split_ifs <;> first | exact h | exact hset _ _ | skip
      rename_i hvalid _
      exact h.ipcRmid hvalid.1
    · exact h
  | other sem undo => exact ⟨⟨h.cover, h.disjoint⟩, h.nonempty, h.le⟩

/-- **`IPC_RMID`** and the other sets. -/
theorem State.Ok.ipcRmid_keeps (h : s.Ok semmns) (hix : (s.sema ix).alloc) (hne : j ≠ ix)
    (hj : (s.sema j).alloc) :
    ((s.ipcRmid ix).1.sema j).alloc ∧ ((s.ipcRmid ix).1.sema j).nsems = (s.sema j).nsems ∧
      ∀ k < (s.sema j).nsems, (s.ipcRmid ix).1.sem (((s.ipcRmid ix).1.sema j).base + k) =
        s.sem ((s.sema j).base + k) := by
  have hapart := h.apart hj hix hne
  have hpos := h.nonempty ix hix
  have hlt : ∀ k < (s.sema j).nsems, (s.sema j).base + k < s.semtot := fun k hk =>
    (h.cover _).mpr ⟨j, hj, by omega, by omega⟩
  have hsem : ∀ x, (s.ipcRmid ix).1.sem x = _ := fun x =>
    (rmidLoop_spec hpos (s.semtot - (s.sema ix).base) (s.sema ix).base s.sem).1
  have hsema : (s.ipcRmid ix).1.sema j = if (s.sema ix).base < (s.sema j).base then
      { s.sema j with base := (s.sema j).base - (s.sema ix).nsems } else s.sema j := by
    simp [State.ipcRmid, hne, hj]
  simp only [hsem, hsema]
  split
  · refine ⟨hj, rfl, fun k hk => ?_⟩
    have := hlt k hk
    dsimp only
    rw [if_pos (by omega)]
    congr 1
    omega
  · exact ⟨hj, rfl, fun k hk => if_neg (by omega)⟩

theorem State.Ok.ipcRmid_accesses (h : s.Ok semmns) (hix : (s.sema ix).alloc) :
    (∀ x ∈ (s.ipcRmid ix).2, x < semmns) ↔ s.semtot + (s.sema ix).nsems ≤ semmns := by
  have hmem : ∀ x, x ∈ (s.ipcRmid ix).2 ↔ _ := fun x =>
    (rmidLoop_spec (h.nonempty ix hix) (s.semtot - (s.sema ix).base) (s.sema ix).base s.sem).2
  have hbase : (s.sema ix).base < s.semtot :=
    (h.cover _).mpr ⟨ix, hix, le_rfl, Nat.lt_add_of_pos_right (h.nonempty ix hix)⟩
  simp only [hmem]
  constructor
  · intro hall
    have := hall _ ⟨s.semtot - 1, by omega, by omega, .inr rfl⟩
    omega
  · rintro hle x ⟨k, h1, h2, rfl | rfl⟩ <;> omega

/-- **The semaphore calls** after every sequence of them in which no set is too large.  The sets
cover the pool, and a new one keeps this exactly if it is not too large.  `IPC_RMID` keeps the
semaphores of the other sets, and accesses only the pool exactly if as many elements are unused as
the set has.  A failed `SETVAL` changes nothing.  A failed `SETALL` changes neither values nor undo
entries exactly if it found no value out of range, or the ones before it were there already and
the set had no undo entries. -/
theorem semctl_frames (h : Reachable Boot (Step semmns True) s) : s.Covered ∧
    (∀ semmsl key nsems creat excl perm,
      let s' := (semget semmns semmsl key nsems creat excl perm s).2
      s'.Covered ↔ (s'.semtot ≠ s.semtot → nsems < 65536)) ∧
    (∀ ix, (s.sema ix).alloc → (∀ j, j ≠ ix → (s.sema j).alloc → ((s.ipcRmid ix).1.sema j).alloc ∧
        ((s.ipcRmid ix).1.sema j).nsems = (s.sema j).nsems ∧
        ∀ k < (s.sema j).nsems, (s.ipcRmid ix).1.sem (((s.ipcRmid ix).1.sema j).base + k) =
          s.sem ((s.sema j).base + k)) ∧
      ((∀ x ∈ (s.ipcRmid ix).2, x < semmns) ↔ s.semtot + (s.sema ix).nsems ≤ semmns)) ∧
    (∀ semvmx perm semid semnum val,
      let r := kernSemctl semvmx perm semid semnum (.setval val) s
      r.1 ≠ none → r.2 = s) ∧
    ∀ semvmx perm semid semnum array copyin,
      let r := kernSemctl semvmx perm semid semnum (.setall array copyin) s
      r.1 ≠ none → (r.2.sem = s.sem ∧ r.2.undo = s.undo ↔
        (r.1 = some .ERANGE → ∀ ix : Fin semmni, ix = ipcidToIx semid →
          (∀ k < (s.sema ix).nsems, (∀ l ≤ k, (array l : ℤ) ≤ semvmx) →
            (s.sem ((s.sema ix).base + k)).semval = array k) ∧
          ∀ ent ∈ s.undo, ∀ sun ∈ ent, sun.id ≠ ix)) := by
  have hok : s.Ok semmns := by
    refine h.invariant (I := State.Ok semmns) (fun s hs => ?_) fun s s' hs hstep => hstep.ok hs
    exact ⟨⟨by simp [hs.1, State.Owns, hs.2], by simp [State.Owns, hs.2]⟩, by simp [hs.2], by
      simp [hs.1]⟩
  refine ⟨hok.toCovered, fun semmsl key nsems creat excl perm => ?_,
    fun ix hix => ⟨fun j => hok.ipcRmid_keeps hix, hok.ipcRmid_accesses hix⟩, ?_, ?_⟩
  · rcases semget_cases semmns semmsl key nsems creat excl perm s with heq | ⟨i, hi, hpos, -, heq⟩
    · simp [heq, hok.toCovered]
    · have hnew : (s.create i key nsems.toNat).semtot ≠ s.semtot := by
        change s.semtot + nsems.toNat ≠ s.semtot
        omega
      dsimp only
      rw [heq, hok.create hi key (by omega)]
      omega
  · intro semvmx perm semid semnum val
    unfold kernSemctl
    dsimp only
    split_ifs <;> simp
  · intro semvmx perm semid semnum array copyin
    unfold kernSemctl
    dsimp only
    split
    · rename_i hlt
      split_ifs
      · simp
      · -- a value out of range
        have hix : ∀ ix : Fin semmni, ix.val = ipcidToIx semid ↔ ix = ⟨ipcidToIx semid, hlt⟩ :=
          fun ix => (Fin.ext_iff (b := ⟨ipcidToIx semid, hlt⟩)).symm
        simp [hix, semundoClear_eq_self, setallLoop_eq_self]
      all_goals simp
    · simp

/-- Two semaphores in a pool of two. -/
def fullPool : State 1 :=
  (semget 2 2 0 2 true false true ⟨fun _ => ⟨0, 0, 0, 0⟩, fun _ => ⟨false, 0, 0, 0, 0⟩, 0, []⟩).2

theorem fullPool_reachable : Reachable Boot (Step 2 True) fullPool :=
  .tail (.of_init ⟨rfl, fun _ => rfl⟩) (.semget 2 0 2 true false true fun _ => by decide)

theorem semctl_frames_fullPool : fullPool.semtot = 2 ∧ fullPool.Covered :=
  ⟨rfl, (semctl_frames fullPool_reachable).1⟩

/-- **Behind the pool, and half an update**: removing the set reads elements 2 and 3, and a `SETALL`
that is refused has stored the first value. -/
theorem semctl_leaks : Reachable Boot (Step 2 True) fullPool ∧ (fullPool.sema 0).alloc ∧
    (fullPool.ipcRmid 0).2 = [0, 2, 1, 3] ∧
    (kernSemctl 32767 true 0x10000 0 (.setall (fun k => if k = 0 then 1 else 40000) true)
      fullPool).1 = some .ERANGE ∧ (fullPool.sem 0).semval = 0 ∧
    ((kernSemctl 32767 true 0x10000 0 (.setall (fun k => if k = 0 then 1 else 40000) true)
      fullPool).2.sem 0).semval = 1 :=
  ⟨fullPool_reachable, by decide +kernel, by decide +kernel, by decide +kernel, by decide +kernel,
    by decide +kernel⟩

end FreeBSDSys.SysvSem
