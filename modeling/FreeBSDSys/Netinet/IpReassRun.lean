import FreeBSDSys.Lib.Reachability
import FreeBSDSys.Netinet.IpReassQueue

/-!
# Datagrams come back whole

Fragments of a datagram arrive between those of other datagrams, and time-outs and limits give up
queues in between.  This file proves for every run that the queue of the datagram holds exactly the
bytes of the fragments that arrived since it was made, in order and without overlap, that it is
never complete, and that the packet `ip_reass` returns is the datagram.

Of a datagram whose fragments are not all ECN-capable or all not, `ip_reass` drops some, and it does
not come back (`mixed_ecn_is_lost`).

* `Shrinks`: what time-outs and limits do to the table.
* `Reassed`, `ipReass_reassed`: all that a call of `ip_reass` can do.
* `IpRun.Inv`, `Reassed.other`, `Reassed.own`, `IpStep.inv`: the invariant.
* `ip_reass_correct`: the result for every run.
-/

namespace FreeBSDSys.IpReass

open Ipq List Reassembly Spans

/-! ## The table -/

/-- A queue without its time. -/
def Ipq.untimed (fp : Ipq) : Ipq := { fp with ttl := 0 }

/-- Queues were given up, and the time of others moved on. -/
def Shrinks (s s' : IpState) : Prop :=
  ∀ h, ((s'.ipq h).map untimed).Sublist ((s.ipq h).map untimed)

namespace Shrinks

variable {s s' s'' : IpState} {h : Bucket} {l : List Ipq}

theorem refl (s : IpState) : Shrinks s s := fun _ => Sublist.refl _

theorem trans (h : Shrinks s s') (h' : Shrinks s' s'') : Shrinks s s'' :=
  fun b => (h' b).trans (h b)

theorem of_bucket (n : ℤ) (hl : (l.map untimed).Sublist ((s.ipq h).map untimed)) :
    Shrinks s { s.setBucket h l with nipq := n } := by
  intro b
  by_cases hb : b = h
  · subst hb
    simpa [IpState.setBucket] using hl
  · simp [IpState.setBucket, Function.update_of_ne hb]

theorem foldl {f : IpState → Bucket → IpState} (hf : ∀ s h, Shrinks s (f s h)) (l : List Bucket)
    (s : IpState) : Shrinks s (l.foldl f s) := by
  induction l generalizing s with
  | nil => exact refl s
  | cons b l ih => exact (hf s b).trans (ih (f s b))

theorem ipFreef (s : IpState) (h : Bucket) (i : ℕ) : Shrinks s (ipFreef s h i) :=
  of_bucket _ ((eraseIdx_sublist _ _).map _)

theorem trimQueues (lim : Limits) (s : IpState) (h : Bucket) : Shrinks s (trimQueues lim s h) := by
  unfold IpReass.trimQueues
  split
  · split
    · split
      · exact refl s
      · exact ipFreef _ _ _
    · exact ipFreef _ _ _
  · exact refl s

theorem expireBucket (s : IpState) (h : Bucket) : Shrinks s (expireBucket s h) := by
  refine of_bucket _ ?_
  have hmap : (s.ipq h).map untimed =
      ((s.ipq h).map fun fp => { fp with ttl := fp.ttl - 1 }).map untimed := by
    rw [map_map]
    rfl
  rw [hmap]
  exact filter_sublist.map _

theorem drainTo_suffix (n k : ℤ) (l : List Ipq) : (drainTo n k l).2 <:+ l := by
  induction l generalizing k with
  | nil => exact suffix_refl _
  | cons fp l ih =>
    unfold drainTo
    split
    · exact (ih (k - 1)).trans (suffix_cons _ _)
    · exact suffix_refl _

theorem ipSlowtimo (lim : Limits) (s : IpState) : Shrinks s (ipSlowtimo lim s) := by
  have hexp := foldl expireBucket (List.finRange (2 ^ 6)) s
  unfold IpReass.ipSlowtimo
  dsimp only
  split
  · exact hexp.trans (foldl (fun s h => of_bucket _ ((drainTo_suffix _ _ _).sublist.map _)) _ _)
  · exact hexp

theorem ipDrain (s : IpState) : Shrinks s (ipDrain s) :=
  foldl (fun _ h => of_bucket (h := h) (l := []) _ (nil_sublist _)) _ s

end Shrinks

/-! ### What a call can do -/

theorem findIpq_none {ip : Ip} {l : List Ipq} (h : findIpq ip l = none) :
    ∀ fp ∈ l, fp.key ≠ ip.key := by
  induction l with
  | nil => simp
  | cons fp l ih =>
    unfold findIpq at h
    split_ifs at h with hne
    refine forall_mem_cons.mpr ⟨fun heq => ?_, ih (Option.map_eq_none_iff.mp h)⟩
    simp only [key, Ip.key, Key.mk.injEq] at heq
    exact hne ⟨heq.1.symm, heq.2.1.symm, heq.2.2.1.symm, heq.2.2.2.symm⟩

theorem findIpq_some {ip : Ip} {l : List Ipq} {i : ℕ} {fp : Ipq} (h : findIpq ip l = some (i, fp)) :
    l[i]? = some fp ∧ fp.key = ip.key := by
  induction l generalizing i with
  | nil => cases h
  | cons fp' l ih =>
    unfold findIpq at h
    split at h
    next heq =>
      cases h
      refine ⟨rfl, ?_⟩
      simp [key, Ip.key, heq.1, heq.2.1, heq.2.2.1, heq.2.2.2]
    next =>
      obtain ⟨⟨j, fp''⟩, hj, heq⟩ := Option.map_eq_some_iff.mp h
      cases heq
      exact ih hj

/-- All that a call of `ip_reass` can do. -/
inductive Reassed (lim : Limits) (s : IpState) (m : Mbuf) : IpState × Option Mbuf → Prop
  | refused (h : lim.Refuses) : Reassed lim s m (s, none)
  | dropped (hacc : ¬ lim.Refuses) (hnone : ∀ fp ∈ s.ipq m.ip.key.hash, fp.key ≠ m.ip.key) :
      Reassed lim s m (trimQueues lim s m.ip.key.hash, none)
  | made {m' : Mbuf} (hacc : ¬ lim.Refuses) (hnone : ∀ fp ∈ s.ipq m.ip.key.hash, fp.key ≠ m.ip.key)
      (hm : adjust m = some m') :
      Reassed lim s m ({ (trimQueues lim s m.ip.key.hash).setBucket m.ip.key.hash
            (newIpq m' :: (trimQueues lim s m.ip.key.hash).ipq m.ip.key.hash) with
          nipq := (trimQueues lim s m.ip.key.hash).nipq + 1 }, none)
  | tooSmall {i : ℕ} {fp : Ipq} (hacc : ¬ lim.Refuses) (hi : (s.ipq m.ip.key.hash)[i]? = some fp)
      (hkey : fp.key = m.ip.key) (hm : adjust m = none) :
      Reassed lim s m (s.setBucket m.ip.key.hash
          ((s.ipq m.ip.key.hash).set i { fp with nfrags := fp.nfrags - 1 }), none)
  | kept {i : ℕ} {fp fp' : Ipq} {m' : Mbuf} (hacc : ¬ lim.Refuses)
      (hi : (s.ipq m.ip.key.hash)[i]? = some fp) (hkey : fp.key = m.ip.key)
      (hm : adjust m = some m') (ha : addFrag lim fp m' = .keep fp') :
      Reassed lim s m (s.setBucket m.ip.key.hash ((s.ipq m.ip.key.hash).set i fp'), none)
  | freed {i : ℕ} {fp : Ipq} {m' : Mbuf} (hacc : ¬ lim.Refuses)
      (hi : (s.ipq m.ip.key.hash)[i]? = some fp) (hkey : fp.key = m.ip.key)
      (hm : adjust m = some m') (ha : addFrag lim fp m' = .free) :
      Reassed lim s m (ipFreef s m.ip.key.hash i, none)
  | whole {i : ℕ} {fp : Ipq} {m' w : Mbuf} (hacc : ¬ lim.Refuses)
      (hi : (s.ipq m.ip.key.hash)[i]? = some fp) (hkey : fp.key = m.ip.key)
      (hm : adjust m = some m') (ha : addFrag lim fp m' = .whole w) :
      Reassed lim s m (ipFreef s m.ip.key.hash i, some w)

theorem ipReass_reassed (lim : Limits) (s : IpState) (m : Mbuf) (uma : Bool) :
    Reassed lim s m (ipReass lim s m uma) := by
  unfold ipReass
  split
  next h => exact .refused h
  next hacc =>
    dsimp only
    split
    next hnone =>
      have hnone := findIpq_none hnone
      split
      next => exact .dropped hacc hnone
      next hm =>
        split
        · exact .made hacc hnone hm
        · exact .dropped hacc hnone
    next hsome =>
      obtain ⟨hi, hkey⟩ := findIpq_some hsome
      split
      next hm => exact .tooSmall hacc hi hkey hm
      next hm =>
        split
        next ha => exact .kept hacc hi hkey hm ha
        next ha => exact .freed hacc hi hkey hm ha
        next ha => exact .whole hacc hi hkey hm ha

theorem limitFrags_keep {lim : Limits} {fp fp' : Ipq} (h : limitFrags lim fp = .keep fp') :
    fp' = fp ∧ (fp.nfrags.toNat : ℤ) ≤ lim.maxfragsperpacket := by
  unfold limitFrags at h
  split_ifs at h with hle
  exact ⟨(Verdict.keep.inj h).symm, not_lt.mp hle⟩

/-- A queue that stays is as it was, and does not have too many fragments. -/
theorem finish_keep {lim : Limits} {fp fp' : Ipq} (h : finish lim fp = .keep fp') :
    fp' = fp ∧ (fp.nfrags.toNat : ℤ) ≤ lim.maxfragsperpacket := by
  unfold finish at h
  split at h
  · split at h
    · exact limitFrags_keep h
    · split at h <;> cases h
  · exact limitFrags_keep h

/-- A queue stays that of its datagram. -/
theorem addFrag_key {lim : Limits} {fp fp' : Ipq} {m : Mbuf} (h : addFrag lim fp m = .keep fp') :
    fp'.key = fp.key := by
  unfold addFrag at h
  split at h
  · rw [← Verdict.keep.inj h]
    rfl
  · dsimp only at h
    split at h
    · rw [← Verdict.keep.inj h]
      rfl
    · rw [(finish_keep h).1]
      rfl

/-! ## Runs -/

/-- The table, and the fragments of the datagram that arrived since its queue was made. -/
structure IpRun where
  s : IpState
  got : List Mbuf

/-- The table has a queue for a datagram. -/
def IpState.HasQueue (s : IpState) (k : Key) : Prop := ∃ fp ∈ s.ipq k.hash, fp.key = k

instance (s : IpState) (k : Key) : Decidable (s.HasQueue k) :=
  inferInstanceAs (Decidable (∃ fp ∈ s.ipq k.hash, fp.key = k))

/-- The fragments count as long as their queue is there. -/
def IpRun.to (k : Key) (s : IpState) (got : List Mbuf) : IpRun :=
  ⟨s, if s.HasQueue k then got else []⟩

/-- What happens: a fragment arrives, of the datagram or of any other, the timer runs, or memory is
short.  The limits may change at any time. -/
inductive IpStep (d : Datagram) : IpRun → IpRun → Prop
  | reass (r : IpRun) (lim : Limits) (m : Mbuf) (uma : Bool) (hm : d.Frag m) (he : d.EcnAgrees m) :
      IpStep d r (.to d.key (ipReass lim r.s m uma).1 (if lim.Refuses then r.got else m :: r.got))
  | other (r : IpRun) (lim : Limits) (m : Mbuf) (uma : Bool) (hm : m.ip.key ≠ d.key) :
      IpStep d r (.to d.key (ipReass lim r.s m uma).1 r.got)
  | slowtimo (r : IpRun) (lim : Limits) : IpStep d r (.to d.key (ipSlowtimo lim r.s) r.got)
  | drain (r : IpRun) : IpStep d r (.to d.key (ipDrain r.s) r.got)

/-- No queues. -/
def IpRun.Init (r : IpRun) : Prop := r = ⟨⟨fun _ => [], 0⟩, []⟩

/-- **The invariant.**  No two queues of a bucket are for one datagram, and the queue of the
datagram holds what arrived. -/
structure IpRun.Inv (d : Datagram) (r : IpRun) : Prop where
  nodup : ∀ h, ((r.s.ipq h).map key).Nodup
  holds : ∀ fp ∈ r.s.ipq d.key.hash, fp.key = d.key → fp.Holds d r.got
  none : ¬ r.s.HasQueue d.key → r.got = []

section Run

variable {d : Datagram} {r r' : IpRun} {s' s : IpState} {got' : List Mbuf} {i : ℕ} {fp fp' : Ipq}
  {m m' : Mbuf} {l : List Ipq} {lim : Limits} {h : Bucket} {out : IpState × Option Mbuf}

theorem IpRun.Inv.to (hnodup : ∀ h, ((s'.ipq h).map key).Nodup)
    (hholds : ∀ fp ∈ s'.ipq d.key.hash, fp.key = d.key → fp.Holds d got') :
    (IpRun.to d.key s' got').Inv d := by
  refine ⟨hnodup, fun fp hfp hkey => ?_, fun hno => if_neg hno⟩
  have hq : s'.HasQueue d.key := ⟨fp, hfp, hkey⟩
  simp only [IpRun.to, if_pos hq]
  exact hholds fp hfp hkey

theorem Shrinks.nodup (h : Shrinks s s') (hs : ∀ h, ((s.ipq h).map key).Nodup) :
    ∀ h, ((s'.ipq h).map key).Nodup := by
  have hkey : ∀ l : List Ipq, l.map key = (l.map untimed).map key := fun l => by
    rw [map_map]
    rfl
  intro b
  have hb := hs b
  rw [hkey] at hb ⊢
  exact hb.sublist ((h b).map _)

theorem Shrinks.mem (hs : Shrinks s s') (hfp : fp ∈ s'.ipq h) :
    ∃ fp' ∈ s.ipq h, fp'.key = fp.key ∧ fp'.frags = fp.frags := by
  obtain ⟨fp', hfp', heq⟩ := mem_map.mp ((hs h).subset (mem_map_of_mem hfp))
  simp only [untimed, mk.injEq] at heq
  obtain ⟨-, hp, hid, hfrags, hsrc, hdst, -⟩ := heq
  exact ⟨fp', hfp', by simp [key, hp, hid, hsrc, hdst], hfrags⟩

theorem IpRun.Inv.shrinks (hr : r.Inv d) (h : Shrinks r.s s') :
    (IpRun.to d.key s' r.got).Inv d := by
  refine .to (h.nodup hr.nodup) fun fp hfp hkey => ?_
  obtain ⟨fp', hfp', hkey', hfrags⟩ := h.mem hfp
  have hholds := hr.holds fp' hfp' (hkey'.trans hkey)
  exact ⟨hfrags ▸ hholds.ordered, hholds.waits⟩

theorem mem_setBucket {b : Bucket} {n : ℤ}
    (hfp : fp ∈ ({ s.setBucket h l with nipq := n } : IpState).ipq b) :
    b = h ∧ fp ∈ l ∨ b ≠ h ∧ fp ∈ s.ipq b := by
  by_cases hb : b = h
  · subst hb
    exact .inl ⟨rfl, by simpa [IpState.setBucket] using hfp⟩
  · exact .inr ⟨hb, by simpa [IpState.setBucket, Function.update_of_ne hb] using hfp⟩

theorem nodup_setBucket (n : ℤ) (hs : ∀ h, ((s.ipq h).map key).Nodup) (hl : (l.map key).Nodup) :
    ∀ b, ((({ s.setBucket h l with nipq := n } : IpState).ipq b).map key).Nodup := by
  intro b
  by_cases hb : b = h
  · subst hb
    simpa [IpState.setBucket] using hl
  · simpa [IpState.setBucket, Function.update_of_ne hb] using hs b

/-- A queue is changed at its place. -/
theorem map_key_set (hi : l[i]? = some fp) (hkey : fp'.key = fp.key) :
    (l.set i fp').map key = l.map key := by
  obtain ⟨hlt, rfl⟩ := List.getElem?_eq_some_iff.mp hi
  rw [map_set, hkey, ← getElem_map key, set_getElem_self]
  simpa using hlt

/-- In a bucket without two queues for one datagram, only one place has its key. -/
theorem eq_of_key {j : ℕ} (hl : (l.map key).Nodup) (hi : l[i]? = some fp)
    (hj : l[j]? = some fp') (hkey : fp'.key = fp.key) : j = i := by
  obtain ⟨hi', rfl⟩ := List.getElem?_eq_some_iff.mp hi
  obtain ⟨hj', rfl⟩ := List.getElem?_eq_some_iff.mp hj
  have hget : (l.map key)[j]? = (l.map key)[i]? := by simp [hi', hj', hkey]
  exact (getElem?_inj (by simpa using hj') hl).mp hget

theorem eq_of_mem_set {fp'' : Ipq} (hl : (l.map key).Nodup)
    (hi : l[i]? = some fp) (hkey : fp'.key = fp.key) (hmem : fp'' ∈ l.set i fp')
    (hkey' : fp''.key = fp'.key) : fp'' = fp' := by
  obtain ⟨j, hj⟩ := mem_iff_getElem?.mp hmem
  obtain ⟨hlt, -⟩ := List.getElem?_eq_some_iff.mp hi
  have hi' : (l.set i fp')[i]? = some fp' := getElem?_set_self hlt
  obtain rfl := eq_of_key (by rwa [map_key_set hi hkey]) hi' hj hkey'
  exact Option.some.inj (hj.symm.trans hi')

section

variable (hr : r.Inv d) (hi : (r.s.ipq d.key.hash)[i]? = some fp) (hkey : fp.key = d.key)

include hr hi hkey

/-- When its queue is removed, a datagram has none. -/
theorem freed_noQueue : ∀ fp' ∈ (ipFreef r.s d.key.hash i).ipq d.key.hash, fp'.key ≠ d.key := by
  intro fp' hfp' hkey'
  simp only [ipFreef, IpState.setBucket, Function.update_self] at hfp'
  obtain ⟨j, hj, hne, hget⟩ := mem_eraseIdx_iff_getElem.mp hfp'
  exact hne (eq_of_key (hr.nodup _) hi (List.getElem?_eq_some_iff.mpr ⟨hj, hget⟩)
    (hkey'.trans hkey.symm))

/-- The queue of a datagram is changed. -/
theorem IpRun.Inv.set (hkey' : fp'.key = fp.key) (hholds : fp'.Holds d got') :
    (IpRun.to d.key (r.s.setBucket d.key.hash ((r.s.ipq d.key.hash).set i fp')) got').Inv d := by
  refine .to (nodup_setBucket _ hr.nodup ?_) fun fp'' hfp'' hkey'' => ?_
  · rw [map_key_set hi hkey']
    exact hr.nodup _
  · obtain ⟨-, hmem⟩ | ⟨hne, -⟩ := mem_setBucket hfp''
    · rw [eq_of_mem_set (hr.nodup _) hi hkey' hmem (hkey''.trans (hkey'.trans hkey).symm)]
      exact hholds
    · exact absurd rfl hne

end

/-- A bucket gets a queue of another datagram, or loses one. -/
theorem IpRun.Inv.bucket (n : ℤ) (hr : r.Inv d) (hs : Shrinks r.s s) (hl : (l.map key).Nodup)
    (hmem : ∀ fp ∈ l, fp.key = d.key → fp ∈ s.ipq h) :
    (IpRun.to d.key { s.setBucket h l with nipq := n } r.got).Inv d := by
  refine .to (nodup_setBucket n (hs.nodup hr.nodup) hl) fun fp hfp hkey => ?_
  have hfp' : fp ∈ s.ipq d.key.hash := by
    obtain ⟨rfl, hl⟩ | ⟨-, hs⟩ := mem_setBucket hfp
    · exact hmem fp hl hkey
    · exact hs
  obtain ⟨fp0, hfp0, hkey0, hfrags⟩ := hs.mem hfp'
  have hholds := hr.holds fp0 hfp0 (hkey0.trans hkey)
  exact ⟨hfrags ▸ hholds.ordered, hholds.waits⟩

theorem nodup_newIpq {k : Key} (hs : ∀ h, ((s.ipq h).map key).Nodup) (hk : (newIpq m').key = k)
    (hnone : ∀ fp ∈ s.ipq k.hash, fp.key ≠ k) :
    ((newIpq m' :: (trimQueues lim s k.hash).ipq k.hash).map key).Nodup := by
  have hshrinks := Shrinks.trimQueues lim s k.hash
  rw [map_cons, nodup_cons]
  refine ⟨fun hmem => ?_, hshrinks.nodup hs _⟩
  obtain ⟨fp, hfp, hkey⟩ := mem_map.mp hmem
  obtain ⟨fp0, hfp0, hkey0, -⟩ := hshrinks.mem hfp
  exact hnone fp0 hfp0 (by rw [hkey0, hkey, hk])

/-- **A fragment of another datagram.** -/
theorem Reassed.other (h : Reassed lim r.s m out)
    (hr : r.Inv d) (hm : m.ip.key ≠ d.key) : (IpRun.to d.key out.1 r.got).Inv d := by
  -- the queue of another datagram is changed at its place
  have hset : ∀ {i fp fp'}, (r.s.ipq m.ip.key.hash)[i]? = some fp → fp.key = m.ip.key →
      fp'.key = fp.key →
      (IpRun.to d.key (r.s.setBucket m.ip.key.hash ((r.s.ipq m.ip.key.hash).set i fp'))
        r.got).Inv d := by
    intro i fp fp' hi hkey hkey'
    refine hr.bucket r.s.nipq (.refl _) ?_ fun fp'' hfp'' hkey'' => ?_
    · rw [map_key_set hi hkey']
      exact hr.nodup _
    · obtain hmem | rfl := mem_or_eq_of_mem_set hfp''
      · exact hmem
      · exact absurd (hkey.symm.trans (hkey'.symm.trans hkey'')) hm
  cases h with
  | refused => exact hr.shrinks (.refl _)
  | dropped => exact hr.shrinks (.trimQueues _ _ _)
  | @made m' _ hnone hm' =>
    have hk : (newIpq m').key = m.ip.key := adjust_key hm'
    refine hr.bucket _ (.trimQueues _ _ _) (nodup_newIpq hr.nodup hk hnone) fun fp hfp hkey => ?_
    obtain rfl | hfp := mem_cons.mp hfp
    · exact absurd (hk.symm.trans hkey) hm
    · exact hfp
  | tooSmall _ hi hkey _ => exact hset hi hkey rfl
  | kept _ hi hkey _ ha => exact hset hi hkey (addFrag_key ha)
  | freed | whole => exact hr.shrinks (.ipFreef _ _ _)

/-- The first fragment of a datagram alone does not complete it. -/
theorem newIpq_holds (hm : d.Frag m) (he : d.EcnAgrees m) (ha : adjust m = some m') :
    (newIpq m').Holds d [m] := by
  obtain ⟨hm', hlo, hdata, -⟩ := hm.adjust_some he ha
  refine ⟨⟨by simp [newIpq], ?_, pairwise_singleton _ _, fun x => ?_⟩, hm.not_complete⟩
  · intro q hq
    obtain rfl := mem_singleton.mp hq
    exact hm'
  · simp [newIpq, mem_span, lo_piece, hi_piece, hlo, hdata, Mbuf.Has]

/-- **A fragment of the datagram.** -/
theorem Reassed.own (h : Reassed lim r.s m out)
    (hr : r.Inv d) (hm : d.Frag m) (he : d.EcnAgrees m) :
    (IpRun.to d.key out.1 (if lim.Refuses then r.got else m :: r.got)).Inv d := by
  have hk := hm.key
  cases h with
  | refused h =>
    rw [if_pos h]
    exact hr.shrinks (.refl _)
  | dropped hacc hnone =>
    rw [hk] at hnone ⊢
    have hs := Shrinks.trimQueues lim r.s d.key.hash
    refine .to (hs.nodup hr.nodup) fun fp hfp hkey => ?_
    obtain ⟨fp0, hfp0, hkey0, -⟩ := hs.mem hfp
    exact absurd (hkey0.trans hkey) (hnone fp0 hfp0)
  | @made m' hacc hnone hm' =>
    have hnew : (newIpq m').key = m.ip.key := adjust_key hm'
    rw [if_neg hacc]
    rw [hk] at hnone hnew ⊢
    have hs := Shrinks.trimQueues lim r.s d.key.hash
    have hgot : r.got = [] := hr.none fun ⟨fp, hfp, hkey⟩ => hnone fp hfp hkey
    refine .to (nodup_setBucket _ (hs.nodup hr.nodup) (nodup_newIpq hr.nodup hnew hnone))
      fun fp hfp hkey => ?_
    obtain ⟨-, hfp⟩ | ⟨hne, -⟩ := mem_setBucket hfp
    · obtain rfl | hfp := mem_cons.mp hfp
      · rw [hgot]
        exact newIpq_holds hm he hm'
      · obtain ⟨fp0, hfp0, hkey0, -⟩ := hs.mem hfp
        exact absurd (hkey0.trans hkey) (hnone fp0 hfp0)
    · exact absurd rfl hne
  | @tooSmall i fp hacc hi hkey hm' =>
    rw [if_neg hacc]
    rw [hk] at hi hkey ⊢
    have hholds := hr.holds fp (mem_of_getElem? hi) hkey
    have hhas : ∀ x, m.Has x → ∃ m ∈ r.got, m.Has x := fun x hx => by
      rw [Mbuf.Has, hm.adjust_none hm'] at hx
      simp only [length_nil] at hx
      omega
    exact hr.set hi hkey rfl ⟨hholds.ordered.again hhas, not_complete_again hholds.waits hhas⟩
  | @kept i fp fp' m' hacc hi hkey hm' ha =>
    rw [if_neg hacc]
    rw [hk] at hi hkey ⊢
    have hgood : (addFrag lim fp m').Good d (m :: r.got) :=
      addFrag_good hkey (hr.holds fp (mem_of_getElem? hi) hkey) hm he hm'
    rw [ha] at hgood
    exact hr.set hi hkey (addFrag_key ha) hgood.2
  | freed hacc hi hkey hm' ha | whole hacc hi hkey hm' ha =>
    rw [hk] at hi hkey ⊢
    exact .to ((Shrinks.ipFreef _ _ _).nodup hr.nodup) fun fp hfp hkey' =>
      absurd hkey' (freed_noQueue hr hi hkey fp hfp)

/-- **One step keeps the invariant.** -/
theorem IpStep.inv (h : IpStep d r r') (hr : r.Inv d) : r'.Inv d := by
  cases h with
  | reass lim m uma hm he => exact (ipReass_reassed lim r.s m uma).own hr hm he
  | other lim m uma hm => exact (ipReass_reassed lim r.s m uma).other hr hm
  | slowtimo lim => exact hr.shrinks (.ipSlowtimo _ _)
  | drain => exact hr.shrinks (.ipDrain _)

theorem IpRun.Init.inv (h : r.Init) : r.Inv d := by
  subst h
  exact ⟨fun _ => nodup_nil, fun fp hfp => by simp at hfp, fun _ => rfl⟩

/-- **What is returned** for a fragment of the datagram. -/
theorem Reassed.returned (h : Reassed lim r.s m out)
    (hr : r.Inv d) (hm : d.Frag m) (he : d.EcnAgrees m) :
    (∀ w, out.2 = some w → d.Is w) ∧ (¬ lim.Refuses → d.Complete (m :: r.got) → out.2.isSome) := by
  have hk := hm.key
  -- a queue there was has the fragments that arrived
  have hgood : ∀ {i : ℕ} {fp m'}, (r.s.ipq m.ip.key.hash)[i]? = some fp → fp.key = m.ip.key →
      adjust m = some m' → (addFrag lim fp m').Good d (m :: r.got) := by
    intro i fp m' hi hkey hm'
    rw [hk] at hi hkey
    exact addFrag_good hkey (hr.holds fp (mem_of_getElem? hi) hkey) hm he hm'
  have hgot : (∀ fp ∈ r.s.ipq m.ip.key.hash, fp.key ≠ m.ip.key) → ¬ d.Complete (m :: r.got) := by
    intro hnone
    rw [hk] at hnone
    rw [hr.none fun ⟨fp, hfp, hkey⟩ => hnone fp hfp hkey]
    exact hm.not_complete
  cases h with
  | refused h => exact ⟨nofun, absurd h⟩
  | dropped _ hnone | made _ hnone => exact ⟨nofun, fun _ hc => absurd hc (hgot hnone)⟩
  | tooSmall _ hi hkey hm' =>
    refine ⟨nofun, fun _ hc => absurd hc ?_⟩
    rw [hk] at hi hkey
    refine not_complete_again (hr.holds _ (mem_of_getElem? hi) hkey).waits fun x hx => ?_
    rw [Mbuf.Has, hm.adjust_none hm'] at hx
    simp only [length_nil] at hx
    omega
  | kept _ hi hkey hm' ha =>
    have hg := hgood hi hkey hm'
    rw [ha] at hg
    exact ⟨nofun, fun _ hc => absurd hc hg.2.waits⟩
  | freed _ hi hkey hm' ha =>
    have hg := hgood hi hkey hm'
    rw [ha] at hg
    exact ⟨nofun, fun _ hc => absurd hc hg⟩
  | whole _ hi hkey hm' ha =>
    have hg := hgood hi hkey hm'
    rw [ha] at hg
    refine ⟨fun w hw => ?_, fun _ _ => rfl⟩
    cases hw
    exact hg

end Run

/-- **Datagrams come back whole.**  In every run the queue of a datagram whose fragments agree on
ECN is in order, without overlap, and carries its bytes.  What `ip_reass` returns for one of its
fragments is the datagram, and it returns it as soon as all bytes are in the fragments that arrived
since the queue was made. -/
theorem ip_reass_correct (d : Datagram) (r : IpRun) (hr : Reachable IpRun.Init (IpStep d) r) :
    (∀ fp ∈ r.s.ipq d.key.hash, fp.key = d.key →
      fp.frags.Pairwise (fun a b => a.stop ≤ b.ip.off.toNat) ∧
        ∀ q ∈ fp.frags, q.data = (d.payload.drop q.ip.off.toNat).take q.data.length) ∧
      ∀ lim m uma, d.Frag m → d.EcnAgrees m → (∀ w, (ipReass lim r.s m uma).2 = some w → d.Is w) ∧
          (¬ lim.Refuses → d.Complete (m :: r.got) → (ipReass lim r.s m uma).2.isSome) := by
  have hinv : r.Inv d := hr.invariant (fun _ h => h.inv) fun _ _ hi hs => hs.inv hi
  refine ⟨fun fp hfp hkey => ?_, fun lim m uma hm he =>
    (ipReass_reassed lim r.s m uma).returned hinv hm he⟩
  have hord := (hinv.holds fp hfp hkey).ordered
  refine ⟨?_, fun q hq => ?_⟩
  · refine (pairwise_map.mp hord.sorted).imp_of_mem fun {a b} ha _ hab => ?_
    rw [(hord.stored a ha).ok.stop]
    exact hab
  · have hstored := hord.stored q hq
    have hcarries := hstored.carries
    rw [Piece.Carries, d.slice_stream hstored.fits] at hcarries
    exact hcarries

/-! ### Two fragments of sixteen bytes -/

/-- A datagram of sixteen bytes from an ECN-capable sender. -/
def sixteen : Datagram :=
  ⟨⟨7, 0x0a000001, 0x0a000002, 17⟩, 5, true,
    [0, 1, 2, 3, 4, 5, 6, 7, 8, 9, 10, 11, 12, 13, 14, 15], by decide⟩

/-- Its first half. -/
def firstHalf : Mbuf :=
  ⟨⟨5, 2, 28, 7, 0x2000, 17, 0x0a000001, 0x0a000002⟩, false, [0, 1, 2, 3, 4, 5, 6, 7]⟩

/-- Its second half, with the given type of service. -/
def secondHalf (tos : BitVec 8) : Mbuf :=
  ⟨⟨5, tos, 28, 7, 1, 17, 0x0a000001, 0x0a000002⟩, false, [8, 9, 10, 11, 12, 13, 14, 15]⟩

theorem firstHalf_frag : sixteen.Frag firstHalf := by
  refine ⟨rfl, fun _ => rfl, rfl, ?_, rfl, ?_, fun _ => ⟨1, rfl⟩, ?_⟩ <;> decide

theorem start_secondHalf (tos : BitVec 8) : (secondHalf tos).ip.start = 8 := by
  change 8 * ((1 : BitVec 16) &&& 0x1fff).toNat = 8
  decide

theorem secondHalf_frag (tos : BitVec 8) : sixteen.Frag (secondHalf tos) := by
  have hstart := start_secondHalf tos
  have hfits : 8 + (secondHalf tos).data.length = sixteen.payload.length := rfl
  have hmf : (secondHalf tos).ip.off &&& ipMf = 0 := by
    change 1 &&& 0x2000 = 0
    decide
  refine ⟨rfl, fun h => absurd (hstart.symm.trans h) (by decide), rfl, ?_, ?_, ?_,
    fun _ => ⟨1, rfl⟩, ?_⟩
  · rw [hstart, hfits]
  · rw [hstart]
    rfl
  · rw [hstart]
    exact ⟨absurd hmf, fun h => absurd h (lt_irrefl _)⟩
  · change 1 &&& (0x2000 ||| 0x1fff) ≠ 0
    decide

theorem halves_complete (tos : BitVec 8) : sixteen.Complete [firstHalf, secondHalf tos] := by
  intro x hx
  have hx : x < 16 := hx
  have hfirst : firstHalf.Has x ↔ 0 ≤ x ∧ x < 0 + 8 := Iff.rfl
  have hsecond : (secondHalf tos).Has x ↔ 8 ≤ x ∧ x < 8 + 8 := by
    rw [Mbuf.Has, start_secondHalf]
    rfl
  simp only [mem_cons, not_mem_nil, or_false, exists_eq_or_imp, exists_eq_left, hfirst, hsecond]
  omega

/-- The limits after start-up with 3200 clusters. -/
def usualLimits : Limits := ⟨100, 16⟩

/-- The second half arrives, then the first: the datagram comes back. -/
theorem ip_reass_correct_halves :
    ∃ w, (ipReass usualLimits (ipReass usualLimits ⟨fun _ => [], 0⟩ (secondHalf 2) true).1
      firstHalf true).2 = some w ∧ sixteen.Is w := by
  have hsecond : sixteen.EcnAgrees (secondHalf 2) := by
    unfold Datagram.EcnAgrees
    decide
  have hfirst : sixteen.EcnAgrees firstHalf := by
    unfold Datagram.EcnAgrees
    decide
  have hr : Reachable IpRun.Init (IpStep sixteen)
      (.to sixteen.key (ipReass usualLimits ⟨fun _ => [], 0⟩ (secondHalf 2) true).1
        [secondHalf 2]) :=
    .tail (.of_init rfl)
      (.reass ⟨⟨fun _ => [], 0⟩, []⟩ usualLimits (secondHalf 2) true (secondHalf_frag 2) hsecond)
  have hgot : (IpRun.to sixteen.key
      (ipReass usualLimits ⟨fun _ => [], 0⟩ (secondHalf 2) true).1 [secondHalf 2]).got =
        [secondHalf 2] := by decide +kernel
  obtain ⟨his, hret⟩ := (ip_reass_correct sixteen _ hr).2 usualLimits firstHalf true firstHalf_frag
    hfirst
  obtain ⟨w, hw⟩ := Option.isSome_iff_exists.mp
    (hret (by decide) (by rw [hgot]; exact halves_complete 2))
  exact ⟨w, hw, his w hw⟩

/-- **Mixed ECN fields.**  The second half of an ECN-capable datagram arrives without the ECN field,
behind the first half: both halves arrived and no limit is reached, but the second one is dropped,
and the queue goes on waiting for it. -/
theorem mixed_ecn_is_lost : sixteen.Frag firstHalf ∧ sixteen.Frag (secondHalf 0) ∧
      sixteen.Complete [firstHalf, secondHalf 0] ∧
      (let r₁ := ipReass usualLimits ⟨fun _ => [], 0⟩ firstHalf true
       let r₂ := ipReass usualLimits r₁.1 (secondHalf 0) true
       r₁.2 = none ∧ r₂.2 = none ∧
        (r₂.1.ipq sixteen.key.hash).map (fun fp => fp.frags.map Mbuf.data) =
          [[[0, 1, 2, 3, 4, 5, 6, 7]]]) :=
  ⟨firstHalf_frag, secondHalf_frag 0, halves_complete 0, by decide +kernel⟩

end FreeBSDSys.IpReass
