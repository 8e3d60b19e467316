import FreeBSDSys.Ufs.Dirhash

/-!
# The slots of a directory hash

`Slots` says that every entry of a directory has one slot of the table, and that the chain of its
name leads there without an empty slot; the other slots are empty or deleted.

* `Slots.findslot`: the slot of an entry is found.
* `Slots.insert`, `Slots.replace`, `Slots.clearBack`: the changes of the table.  Deleted slots
  become empty again only before an empty slot, where no chain is cut.
* `clearBack_enough`: the backward loop ends within one turn.
* `Table.Slots.lookup`: a lookup gives the offset of the entry exactly when there is one, with the
  shortcut for sequential access or without it.
-/

namespace FreeBSDSys.Dirhash

open Finset Function Probe

variable {fnv : ℕ → Name → ℕ} {es es' : List DirEntry} {dh : Table} {hash : ℕ → ℤ} {hlen s t i : ℕ}
  {hused v hused' : ℤ} {e e' : DirEntry}

/-- The number of slots that are not empty. -/
def usedSlots (hlen : ℕ) (hash : ℕ → ℤ) : ℕ :=
  ((range hlen).filter fun s => hash s ≠ dirhashEmpty).card

/-- The table of some entries, where `start` is the first slot of the chain of a name. -/
structure Slots (start : Name → ℕ) (es : List DirEntry) (hlen : ℕ) (hash : ℕ → ℤ)
    (hused : ℤ) : Prop where
  inside : ∀ name, start name < hlen
  chained : ∀ e ∈ es, ∃ s < hlen, hash s = e.off ∧ Chain hlen hash dirhashEmpty (start e.name) s
  owned : ∀ s < hlen, 0 ≤ hash s → ∃ e ∈ es, hash s = e.off
  unique : ∀ s < hlen, ∀ t < hlen, 0 ≤ hash s → hash s = hash t → s = t
  value : ∀ s < hlen, hash s = dirhashEmpty ∨ hash s = dirhashDel ∨ 0 ≤ hash s
  used : hused = usedSlots hlen hash
  room : hused < hlen

/-! ## Counting -/

/-- An empty slot is filled. -/
theorem usedSlots_fill (hs : s < hlen) (hempty : hash s = dirhashEmpty) (hv : v ≠ dirhashEmpty) :
    usedSlots hlen (update hash s v) = usedSlots hlen hash + 1 := by
  have hinsert : (range hlen).filter (fun t => update hash s v t ≠ dirhashEmpty) =
      insert s ((range hlen).filter fun t => hash t ≠ dirhashEmpty) := by
    ext t
    rw [mem_insert, mem_filter, mem_filter, mem_range]
    rcases eq_or_ne t s with rfl | hts
    · rw [update_self]
      exact iff_of_true ⟨hs, hv⟩ (.inl rfl)
    · rw [update_of_ne hts]
      exact ⟨.inr, fun h => h.resolve_left hts⟩
  rw [usedSlots, hinsert, card_insert_of_notMem]
  · rfl
  · rw [mem_filter]
    exact fun h => h.2 hempty

/-- A slot that is not empty gets another value. -/
theorem usedSlots_replace (hs : hash s ≠ dirhashEmpty) (hv : v ≠ dirhashEmpty) :
    usedSlots hlen (update hash s v) = usedSlots hlen hash := by
  refine congrArg Finset.card (filter_congr fun t _ => ?_)
  rcases eq_or_ne t s with rfl | hts
  · rw [update_self]
    exact iff_of_true hv hs
  · rw [update_of_ne hts]

/-- A slot is emptied. -/
theorem usedSlots_clear (hs : s < hlen) (hne : hash s ≠ dirhashEmpty) :
    usedSlots hlen (update hash s dirhashEmpty) + 1 = usedSlots hlen hash := by
  rw [← usedSlots_fill hs (update_self _ _ _) hne, update_idem, update_eq_self]

namespace Slots

variable {start : Name → ℕ} (hk : Slots start es hlen hash hused)

include hk

/-- There is an empty slot. -/
theorem exists_empty : ∃ s < hlen, hash s = dirhashEmpty := by
  by_contra hnone
  have hall : (range hlen).filter (fun s => hash s ≠ dirhashEmpty) = range hlen :=
    filter_true_of_mem fun s hs hempty => hnone ⟨s, mem_range.mp hs, hempty⟩
  have hroom := hk.room
  rw [hk.used, usedSlots, hall, card_range] at hroom
  exact lt_irrefl _ hroom

/-- A search that stops at empty slots stops somewhere. -/
theorem scan_spec (stop : ℕ → Bool) (name : Name)
    (hstop : ∀ s, hash s = dirhashEmpty → stop s = true) :
    scan hlen stop hlen (start name) < hlen ∧ stop (scan hlen stop hlen (start name)) = true ∧
      Walk hlen (fun a => stop a = false) (start name) (scan hlen stop hlen (start name)) := by
  obtain ⟨s, hs, hempty⟩ := hk.exists_empty
  exact Probe.scan_spec stop (hk.inside name) hs (hstop s hempty)

/-- A search that stops at empty slots and at the slot of an entry stops on the chain of the
entry. -/
theorem chain_of_scan (stop : ℕ → Bool) (he : e ∈ es)
    (hempty : ∀ s, hash s = dirhashEmpty → stop s = true)
    (hstop : ∀ s, hash s = e.off → stop s = true) :
    ∃ s < hlen, hash s = e.off ∧
      Chain hlen hash dirhashEmpty (scan hlen stop hlen (start e.name)) s := by
  obtain ⟨s, hs, hoff, hchain⟩ := hk.chained e he
  obtain ⟨-, -, hwalk⟩ := hk.scan_spec stop e.name hempty
  exact ⟨s, hs, hoff, Walk.join hchain hwalk (hstop s hoff)⟩

/-- The slot of an entry is found. -/
theorem findslot (he : e ∈ es) :
    scan hlen (fun s => hash s = e.off ∨ hash s = dirhashEmpty) hlen (start e.name) < hlen ∧
      hash (scan hlen (fun s => hash s = e.off ∨ hash s = dirhashEmpty) hlen (start e.name)) =
        e.off := by
  have hempty : ∀ s, hash s = dirhashEmpty →
      decide (hash s = e.off ∨ hash s = dirhashEmpty) = true :=
    fun s h => decide_eq_true (.inr h)
  obtain ⟨hlt, hstop, -⟩ := hk.scan_spec _ e.name hempty
  obtain ⟨s, -, hoff, hchain⟩ := hk.chain_of_scan _ he hempty fun s h => decide_eq_true (.inl h)
  refine ⟨hlt, ?_⟩
  rcases of_decide_eq_true hstop with h | h
  · exact h
  · have hs := Walk.eq_of_not hchain (not_not.mpr h)
    rw [hs]
    exact hoff

/-! ## Changes -/

/-- One slot gets another value. -/
theorem update (hv : v = dirhashEmpty ∨ v = dirhashDel ∨ 0 ≤ v)
    (hchained : ∀ x ∈ es', ∃ t < hlen, update hash s v t = x.off ∧
      Chain hlen (update hash s v) dirhashEmpty (start x.name) t)
    (hother : ∀ t < hlen, t ≠ s → 0 ≤ hash t → hash t ≠ v ∧ ∃ x ∈ es', hash t = x.off)
    (hnew : 0 ≤ v → ∃ x ∈ es', v = x.off)
    (hcount : hused' = usedSlots hlen (update hash s v)) (hroom : hused' < hlen) :
    Slots start es' hlen (update hash s v) hused' := by
  refine ⟨hk.inside, hchained, fun t ht hpos => ?_, fun t ht t' ht' hpos heq => ?_,
    fun t ht => ?_, hcount, hroom⟩
  · rcases eq_or_ne t s with rfl | hts
    · rw [update_self] at hpos ⊢
      exact hnew hpos
    · rw [update_of_ne hts] at hpos ⊢
      exact (hother t ht hts hpos).2
  · -- no other slot has the new value
    rcases eq_or_ne t s with rfl | hts
    · by_contra hts'
      rw [update_self] at hpos heq
      rw [update_of_ne (Ne.symm hts')] at heq
      exact (hother t' ht' (Ne.symm hts') (heq ▸ hpos)).1 heq.symm
    · rw [update_of_ne hts] at hpos heq
      rcases eq_or_ne t' s with rfl | hts'
      · rw [update_self] at heq
        exact absurd heq (hother t ht hts hpos).1
      · rw [update_of_ne hts'] at heq
        exact hk.unique t ht t' ht' hpos heq
  · rcases eq_or_ne t s with rfl | hts
    · rw [update_self]
      exact hv
    · rw [update_of_ne hts]
      exact hk.value t ht

/-- An entry is put into a free slot on the chain of its name. -/
theorem insert (hmem : ∀ x, x ∈ es' ↔ x = e ∨ x ∈ es) (hnew : ∀ x ∈ es, x.off ≠ e.off)
    (hs : s < hlen) (hfree : hash s < 0) (hchain : Chain hlen hash dirhashEmpty (start e.name) s)
    (hcount : hused' = if hash s = dirhashEmpty then hused + 1 else hused) (hroom : hused' < hlen) :
    Slots start es' hlen (Function.update hash s e.off) hused' := by
  have hoff : e.off ≠ dirhashEmpty := by
    rw [dirhashEmpty]
    omega
  refine hk.update (.inr (.inr (Int.natCast_nonneg _))) (fun x hx => ?_) (fun t ht hts hpos => ?_)
    (fun _ => ⟨e, (hmem e).mpr (.inl rfl), rfl⟩) ?_ hroom
  · rcases (hmem x).mp hx with rfl | hx
    · exact ⟨s, hs, update_self _ _ _, hchain.update_of_ne hoff⟩
    · obtain ⟨t, ht, hxoff, hxchain⟩ := hk.chained x hx
      refine ⟨t, ht, ?_, hxchain.update_of_ne hoff⟩
      rw [update_of_ne]
      · exact hxoff
      · rintro rfl
        omega
  · obtain ⟨x, hx, hxoff⟩ := hk.owned t ht hpos
    refine ⟨fun heq => hnew x hx ?_, x, (hmem x).mpr (.inr hx), hxoff⟩
    omega
  · rw [hcount]
    split_ifs with hempty
    · rw [usedSlots_fill hs hempty hoff, hk.used]
      rfl
    · rw [usedSlots_replace hempty hoff, hk.used]

/-- A slot with an entry gets another value, which is that of the changed entry or none. -/
theorem replace (he : e ∈ es) (hoffs : ∀ x ∈ es, x.off = e.off → x = e) (hs : s < hlen)
    (hval : hash s = e.off) (hv : v ≠ dirhashEmpty) (hv' : v = dirhashDel ∨ 0 ≤ v)
    (hold : ∀ x ∈ es', x ∈ es ∧ x ≠ e ∨ x.name = e.name ∧ v = x.off)
    (hkeep : ∀ x ∈ es, x ≠ e → x ∈ es' ∧ (x.off : ℤ) ≠ v) (hnew : 0 ≤ v → ∃ x ∈ es', v = x.off) :
    Slots start es' hlen (Function.update hash s v) hused := by
  have hslot : ∀ t < hlen, hash t = e.off → t = s :=
    fun t ht h => hk.unique t ht s hs (by omega) (h.trans hval.symm)
  have hchainE : Chain hlen hash dirhashEmpty (start e.name) s := by
    obtain ⟨t, ht, hoff, hchain⟩ := hk.chained e he
    exact hslot t ht hoff ▸ hchain
  refine hk.update (.inr hv') (fun x hx => ?_) (fun t ht hts hpos => ?_) hnew ?_ hk.room
  · rcases hold x hx with ⟨hxes, hne⟩ | ⟨hname, hxv⟩
    · obtain ⟨t, ht, hxoff, hxchain⟩ := hk.chained x hxes
      refine ⟨t, ht, ?_, hxchain.update_of_ne hv⟩
      rw [update_of_ne]
      · exact hxoff
      · rintro rfl
        exact hne (hoffs x hxes (by omega))
    · rw [hname]
      exact ⟨s, hs, (update_self _ _ _).trans hxv, hchainE.update_of_ne hv⟩
  · obtain ⟨x, hx, hxoff⟩ := hk.owned t ht hpos
    have hne : x ≠ e := by
      rintro rfl
      exact hts (hslot t ht hxoff)
    obtain ⟨hx', hxv⟩ := hkeep x hx hne
    exact ⟨fun heq => hxv (hxoff.symm.trans heq), x, hx', hxoff⟩
  · rw [usedSlots_replace ?_ hv]
    · exact hk.used
    · rw [dirhashEmpty]
      omega

/-- A deleted slot before an empty one becomes empty. -/
theorem clear (hs : s < hlen) (hdel : hash s = dirhashDel)
    (hnext : hash (wrapIncr s hlen) = dirhashEmpty) :
    Slots start es hlen (Function.update hash s dirhashEmpty) (hused - 1) := by
  have hne : hash s ≠ dirhashEmpty := by
    rw [hdel]
    decide
  refine hk.update (.inl rfl) (fun x hx => ?_) (fun t ht _ hpos => ?_)
    (fun hpos => absurd hpos (by decide)) ?_ ?_
  · obtain ⟨t, ht, hoff, hchain⟩ := hk.chained x hx
    have hfull : hash t ≠ dirhashEmpty := by
      rw [dirhashEmpty]
      omega
    refine ⟨t, ht, ?_, hchain.update_empty hnext hfull⟩
    rw [update_of_ne]
    · exact hoff
    · rintro rfl
      rw [hdel, dirhashDel] at hoff
      omega
  · refine ⟨fun hempty => ?_, hk.owned t ht hpos⟩
    rw [hempty] at hpos
    cases hpos
  · have hcount := usedSlots_clear hs hne
    rw [hk.used]
    omega
  · have := hk.room
    omega

end Slots

/-- Clearing backwards from an empty slot keeps the table. -/
theorem Slots.clearBack {start : Name → ℕ} (fuel : ℕ) (hk : Slots start es hlen hash hused)
    (hi : i < hlen) (hnext : hash (wrapIncr i hlen) = dirhashEmpty) :
    Slots start es hlen (clearBack hlen fuel i hash hused).1
      (clearBack hlen fuel i hash hused).2 := by
  induction fuel generalizing i hash hused with
  | zero => exact hk
  | succ fuel ih =>
    unfold Dirhash.clearBack
    split_ifs with hdel
    · refine ih (hk.clear hi hdel hnext) (wrapDecr_lt hi) ?_
      rw [wrapIncr_wrapDecr hi]
      exact update_self _ _ _
    · exact hk

theorem clearBack_fuel {fuel k m : ℕ} (hk : k < fuel)
    (hstop : hash ((fun a => wrapDecr a hlen)^[k] i) ≠ dirhashDel) :
    clearBack hlen (fuel + m) i hash hused = clearBack hlen fuel i hash hused := by
  induction fuel generalizing i k hash hused with
  | zero => exact absurd hk (Nat.not_lt_zero k)
  | succ fuel ih =>
    rw [Nat.succ_add]
    unfold clearBack
    split_ifs with hdel
    · cases k with
      | zero => exact absurd hdel hstop
      | succ k =>
        refine ih (Nat.lt_of_succ_lt_succ hk) ?_
        rw [iterate_succ_apply] at hstop
        generalize (fun a => wrapDecr a hlen)^[k] (wrapDecr i hlen) = t at hstop ⊢
        by_cases hti : t = i
        · rw [hti, update_self]
          decide
        · rwa [update_of_ne hti]
    · rfl

/-- **The length of the table is enough fuel** to clear deleted slots, since a slot that is not
deleted is met within one turn of the ring. -/
theorem clearBack_enough (m : ℕ) (hi : i < hlen) (hs : s < hlen) (hstop : hash s ≠ dirhashDel) :
    clearBack hlen (hlen + m) i hash hused = clearBack hlen hlen i hash hused := by
  obtain ⟨k, hk, hks⟩ := exists_iterate_wrapDecr hi hs
  exact clearBack_fuel hk (hks ▸ hstop)

/-! ## The functions of the table -/

theorem hash_lt (hlen : 0 < dh.hlen) (name : Name) : ufsdirhashHash fnv dh name < dh.hlen :=
  Nat.mod_lt _ hlen

/-- The table of some entries. -/
def Table.Slots (fnv : ℕ → Name → ℕ) (es : List DirEntry) (dh : Table) : Prop :=
  Dirhash.Slots (ufsdirhashHash fnv dh) es dh.hlen dh.hash dh.hused

theorem Table.Slots.findslot (hk : dh.Slots fnv es) (he : e ∈ es) :
    ∃ slot < dh.hlen, ufsdirhashFindslot fnv dh e.name e.off = some slot ∧
      dh.hash slot = e.off := by
  obtain ⟨hlt, hoff⟩ := Dirhash.Slots.findslot hk he
  refine ⟨_, hlt, ?_, hoff⟩
  rw [ufsdirhashFindslot, if_pos hk.room]
  exact if_pos hoff

/-- What a deletion leaves: the same table apart from its slots. -/
theorem Table.Slots.delslot (hk : dh.Slots fnv es) (he : e ∈ es)
    (hoffs : ∀ x ∈ es, x.off = e.off → x = e) (hs : s < dh.hlen) (hval : dh.hash s = e.off)
    (hmem : ∀ x, x ∈ es' ↔ x ∈ es ∧ x ≠ e) :
    ∃ hash hused, ufsdirhashDelslot dh s = some { dh with hash := hash, hused := hused } ∧
      Table.Slots fnv es' { dh with hash := hash, hused := hused } := by
  have hdel : Dirhash.Slots (ufsdirhashHash fnv dh) es' dh.hlen
      (update dh.hash s dirhashDel) dh.hused := by
    refine Dirhash.Slots.replace hk he hoffs hs hval (by decide) (.inl rfl) (fun x hx => ?_)
      (fun x hx hne => ⟨(hmem x).mpr ⟨hx, hne⟩, ?_⟩) fun hpos => absurd hpos (by decide)
    · exact .inl ((hmem x).mp hx)
    · rw [dirhashDel]
      omega
  obtain ⟨t, ht, hempty⟩ := hdel.exists_empty
  have hne : update dh.hash s dirhashDel t ≠ dirhashDel := by
    rw [hempty]
    decide
  obtain ⟨hlt, -, -⟩ := Probe.scan_spec
    (fun a => decide (update dh.hash s dirhashDel a ≠ dirhashDel)) hs ht
    (decide_eq_true hne)
  unfold ufsdirhashDelslot
  simp only
  split
  · rename_i hend
    have hback := hdel.clearBack dh.hlen (wrapDecr_lt hlt)
      (by rw [wrapIncr_wrapDecr hlt]; exact hend)
    have hnonneg : 0 ≤ (clearBack dh.hlen dh.hlen
        (wrapDecr (scan dh.hlen (fun a => decide (update dh.hash s dirhashDel a ≠
          dirhashDel)) dh.hlen s) dh.hlen) (update dh.hash s dirhashDel) dh.hused).2 := by
      rw [hback.used]
      exact Int.natCast_nonneg _
    rw [if_pos hnonneg]
    exact ⟨_, _, rfl, hback⟩
  · exact ⟨_, dh.hused, rfl, hdel⟩

/-! ## Lookup -/

section Lookup

variable {d : Dir} {name : Name}

section

variable (hd : d.WellFormed)

include hd

theorem Dir.WellFormed.eq_of_off {e : DirEntry} (he : e ∈ d.entries)
    (he' : e' ∈ d.entries) (hoff : e.off = e'.off) : e = e' :=
  List.inj_on_of_nodup_map hd.offs he he' hoff

theorem Dir.WellFormed.eq_of_name {e : DirEntry} (he : e ∈ d.entries)
    (he' : e' ∈ d.entries) (hname : e.name = e'.name) : e = e' :=
  List.inj_on_of_nodup_map hd.names he he' hname

theorem Dir.WellFormed.nameAt (he : e ∈ d.entries) : d.nameAt e.off = some e.name := by
  rw [Dir.nameAt]
  cases hfind : d.entries.find? fun x => (x.off : ℤ) = e.off with
  | none => exact absurd (decide_eq_true rfl) (List.find?_eq_none.mp hfind e he)
  | some x =>
    have hoff := List.find?_some hfind
    have hx := hd.eq_of_off (List.mem_of_find?_eq_some hfind) he
      (Int.ofNat.inj (of_decide_eq_true hoff))
    rw [hx]
    rfl

theorem Dir.WellFormed.off_lt (he : e ∈ d.entries) : e.off < d.nblk * dirblksiz := by
  have hlt := hd.inside e he
  rwa [DirEntry.block, Nat.div_lt_iff_lt_mul (by decide)] at hlt

theorem Dir.WellFormed.not_bad (he : e ∈ d.entries) : ¬ badOffset d e.off := by
  have hlt := hd.off_lt he
  rintro (hneg | hge)
  · omega
  · exact absurd (Int.ofNat_le.mp hge) (Nat.not_le.mpr hlt)

end

/-- What a lookup has to give. -/
def Found.Correct (d : Dir) (name : Name) (r : Found) : Prop :=
  ∀ off, r = .found off ↔ ∃ e ∈ d.entries, e.name = name ∧ off = e.off

theorem correct_found (hd : d.WellFormed) (he : e ∈ d.entries) :
    Found.Correct d e.name (.found e.off) := by
  intro off
  constructor
  · intro hoff
    cases hoff
    exact ⟨e, he, rfl, rfl⟩
  · rintro ⟨e', he', hname, rfl⟩
    rw [hd.eq_of_name he' he hname]

theorem correct_enoent (hnone : ∀ e ∈ d.entries, e.name ≠ name) : Found.Correct d name .enoent :=
  fun _ => iff_of_false nofun fun ⟨e, he, hname, _⟩ => hnone e he hname

/-- The tables differ only in what they say about sequential access. -/
def SameButSeq (dh dh' : Table) : Prop :=
  ∃ opt off, 0 ≤ off ∧ dh' = { dh with seqopt := opt, seqoff := off }

/-- The search along the chain. -/
theorem Table.Slots.lookupChain (hk : dh.Slots fnv d.entries) (hd : d.WellFormed)
    (hseq : 0 ≤ dh.seqoff) (name : Name) :
    ∃ r dh', lookupChain fnv d dh name = some (r, dh') ∧ SameButSeq dh dh' ∧ r.Correct d name := by
  have hempty : ∀ s, dh.hash s = dirhashEmpty → decide (dh.hash s = dirhashEmpty ∨
      dh.hash s ≠ dirhashDel ∧ (badOffset d (dh.hash s) ∨ d.nameAt (dh.hash s) = some name)) =
      true := fun s h => decide_eq_true (.inl h)
  obtain ⟨hlt, hstop, -⟩ := Dirhash.Slots.scan_spec hk _ name hempty
  unfold Dirhash.lookupChain
  simp only
  split
  · rename_i hend
    refine ⟨.enoent, dh, rfl, ⟨dh.seqopt, dh.seqoff, hseq, rfl⟩,
      correct_enoent fun e he hname => ?_⟩
    subst hname
    obtain ⟨s, -, hoff, hchain⟩ := Dirhash.Slots.chain_of_scan hk _ he hempty fun s hs => by
      rw [hs]
      refine decide_eq_true (.inr ⟨?_, .inr (hd.nameAt he)⟩)
      rw [dirhashDel]
      omega
    rw [← Walk.eq_of_not hchain (not_not.mpr hend), hend, dirhashEmpty] at hoff
    omega
  · rename_i hfull
    obtain ⟨hdel, hmatch⟩ := (of_decide_eq_true hstop).resolve_left hfull
    have hpos := ((hk.value _ hlt).resolve_left hfull).resolve_left hdel
    obtain ⟨e, he, hoff⟩ := hk.owned _ hlt hpos
    rw [hoff] at hmatch ⊢
    have hname := hmatch.resolve_left (hd.not_bad he)
    rw [hd.nameAt he] at hname
    cases hname
    rw [if_neg (hd.not_bad he)]
    refine ⟨_, _, rfl, ⟨_, _, ?_, rfl⟩, correct_found hd he⟩
    exact Int.add_nonneg (Int.natCast_nonneg _) (Int.natCast_nonneg _)

/-- **Lookup** gives the offset of the entry exactly when there is one. -/
theorem Table.Slots.lookup (hk : dh.Slots fnv d.entries) (hd : d.WellFormed)
    (hseq : 0 ≤ dh.seqoff) (name : Name) :
    ∃ r dh', ufsdirhashLookup fnv d dh name = some (r, dh') ∧ SameButSeq dh dh' ∧
      r.Correct d name := by
  have hchain : ∃ r dh', Dirhash.lookupChain fnv d { dh with seqopt := false } name =
      some (r, dh') ∧ SameButSeq dh dh' ∧ r.Correct d name := by
    have hk' : Table.Slots fnv d.entries { dh with seqopt := false } := hk
    obtain ⟨r, dh', hr, ⟨opt, off, hoff, rfl⟩, hcorrect⟩ := hk'.lookupChain hd hseq name
    exact ⟨r, _, hr, ⟨opt, off, hoff, rfl⟩, hcorrect⟩
  unfold ufsdirhashLookup
  simp only
  split
  · split
    · rename_i hsame
      obtain ⟨hlt, -, -⟩ := Dirhash.Slots.scan_spec hk
        (fun s => dh.hash s = dirhashEmpty ∨ dh.hash s = dh.seqoff) name
        fun s h => decide_eq_true (.inl h)
      obtain ⟨e, he, hoff⟩ := hk.owned _ hlt (hseq.trans_eq hsame.symm)
      rw [hoff, if_neg (hd.not_bad he)]
      split_ifs with hname
      · rw [hd.nameAt he] at hname
        cases hname
        refine ⟨_, _, rfl, ⟨_, _, ?_, rfl⟩, correct_found hd he⟩
        exact Int.add_nonneg (Int.natCast_nonneg _) (Int.natCast_nonneg _)
      · exact hchain
    · exact hchain
  · exact hk.lookupChain hd hseq name

end Lookup

end FreeBSDSys.Dirhash
