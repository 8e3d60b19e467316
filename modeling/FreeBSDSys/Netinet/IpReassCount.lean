import FreeBSDSys.Netinet.IpReassRun

/-!
# The counters of the reassembly queues

`V_nipq` is the number of queues, and `ipq_nfrags` is meant to be the number of fragments of a
queue: `ip_reass` counts a fragment when it has found its queue, and takes it back when it drops the
fragment.  A fragment with `IP_MF` whose length is zero or not a multiple of 8 is dropped before it
was counted, and is taken back nevertheless.  The queue then has more fragments than its counter
tells, and `V_maxfragsperpacket` no longer bounds them (`tooSmall_uncounts`).  The counter has eight
bits, so that it also lies if the limit lets 256 fragments in.

* `IpState.Counts`, `Reassed.counts`, `Counts.ipSlowtimo`, `Counts.ipDrain`: `V_nipq`, in any case.
* `Ipq.Counted`, `addFrag_counted`: the fragments of one queue.
* `nfrags_counts`: both in every run without such fragments.
-/

namespace FreeBSDSys.IpReass

open List

/-! ## The number of queues -/

/-- `V_nipq` is the number of queues. -/
def IpState.Counts (s : IpState) : Prop := s.nipq = ∑ h, ((s.ipq h).length : ℤ)

namespace IpState.Counts

variable {s : IpState} {h : Bucket} {l : List Ipq} {n : ℤ}

/-- A bucket and the counter change in step. -/
theorem setBucket (hs : s.Counts) (hn : n = s.nipq + l.length - (s.ipq h).length) :
    ({ s.setBucket h l with nipq := n } : IpState).Counts := by
  have hother : ∀ b ∈ Finset.univ.erase h,
      ((Function.update s.ipq h l b).length : ℤ) = (s.ipq b).length := fun b hb => by
    rw [Function.update_of_ne (Finset.ne_of_mem_erase hb)]
  have hsum := hs
  rw [IpState.Counts, ← Finset.add_sum_erase _ _ (Finset.mem_univ h)] at hsum ⊢
  simp only [IpState.setBucket, Function.update_self]
  rw [Finset.sum_congr rfl hother]
  omega

theorem ipFreef {i : ℕ} (hs : s.Counts) (hi : i < (s.ipq h).length) : (ipFreef s h i).Counts := by
  refine hs.setBucket ?_
  rw [length_eraseIdx_of_lt hi]
  omega

theorem trimQueues (lim : Limits) (hs : s.Counts) : (trimQueues lim s h).Counts := by
  have hlast : ∀ b, s.ipq b ≠ [] → (IpReass.ipFreef s b ((s.ipq b).length - 1)).Counts :=
    fun b hb => ipFreef hs (Nat.sub_lt (length_pos_iff.mpr hb) Nat.one_pos)
  unfold IpReass.trimQueues
  split
  · split
    · split
      next => exact hs
      next b hfind => exact hlast b (by simpa using find?_some hfind)
    next hne => exact hlast h hne
  · exact hs

theorem foldl {f : IpState → Bucket → IpState} (hf : ∀ s h, s.Counts → (f s h).Counts)
    (l : List Bucket) (hs : s.Counts) : (l.foldl f s).Counts := by
  induction l generalizing s with
  | nil => exact hs
  | cons b l ih => exact ih (hf s b hs)

theorem expireBucket (hs : s.Counts) : (expireBucket s h).Counts := by
  refine hs.setBucket ?_
  have hle := length_filter_le (fun fp : Ipq => fp.ttl ≠ 0)
    ((s.ipq h).map fun fp => { fp with ttl := fp.ttl - 1 })
  rw [length_map] at hle
  omega

/-- The queues that are left are counted. -/
theorem drainTo_fst (n k : ℤ) (l : List Ipq) :
    (drainTo n k l).1 = k + (drainTo n k l).2.length - l.length := by
  induction l generalizing k with
  | nil => simp [drainTo]
  | cons fp l ih =>
    unfold drainTo
    split
    · rw [ih, length_cons]
      omega
    · simp

theorem ipSlowtimo (lim : Limits) (hs : s.Counts) : (ipSlowtimo lim s).Counts := by
  have hexp := foldl (fun _ h => expireBucket (h := h)) (List.finRange (2 ^ 6)) hs
  unfold IpReass.ipSlowtimo
  dsimp only
  split
  · exact foldl (fun s h hs => hs.setBucket (drainTo_fst ..)) _ hexp
  · exact hexp

theorem ipDrain (hs : s.Counts) : (ipDrain s).Counts :=
  foldl (fun s h hs => hs.setBucket (by simp)) _ hs

end IpState.Counts

/-- **Whatever fragment arrives**, `V_nipq` goes on counting. -/
theorem Reassed.counts {lim : Limits} {s : IpState} {m : Mbuf} {out : IpState × Option Mbuf}
    (h : Reassed lim s m out) (hs : s.Counts) : out.1.Counts := by
  have hset : ∀ {b : Bucket} {i : ℕ} {fp : Ipq},
      (s.setBucket b ((s.ipq b).set i fp)).Counts := fun {b i fp} =>
    hs.setBucket (by rw [length_set]; omega)
  have hlt : ∀ {b : Bucket} {i : ℕ} {fp : Ipq}, (s.ipq b)[i]? = some fp → i < (s.ipq b).length :=
    fun h => (List.getElem?_eq_some_iff.mp h).1
  cases h with
  | refused => exact hs
  | dropped => exact hs.trimQueues lim
  | made =>
    refine (hs.trimQueues lim).setBucket ?_
    rw [length_cons]
    omega
  | tooSmall => exact hset
  | kept => exact hset
  | freed _ hi | whole _ hi => exact hs.ipFreef (hlt hi)

/-! ## The number of fragments -/

/-- The counter of a queue is the number of its fragments, and there are not too many. -/
structure Ipq.Counted (limit : ℤ) (fp : Ipq) : Prop where
  count : fp.nfrags.toNat = fp.frags.length
  few : (fp.frags.length : ℤ) ≤ limit

theorem ecnMerge_length {ip : Ip} {l l' : List Mbuf} (h : ecnMerge ip l = some l') :
    l'.length = l.length := by
  cases l with
  | nil =>
    cases h
    rfl
  | cons q l =>
    unfold ecnMerge at h
    grind

theorem trimSucc_length (e : ℕ) (l : List Mbuf) :
    (trimSucc e l).1.length + (trimSucc e l).2 = l.length := by
  induction l with
  | nil => rfl
  | cons q l ih =>
    unfold trimSucc
    split
    · dsimp only
      split
      · rfl
      · dsimp only
        rw [length_cons]
        omega
    · rfl

/-- **A new fragment is counted** if its queue stays, and so are those that it replaces. -/
theorem addFrag_counted {lim : Limits} {fp fp' : Ipq} {m : Mbuf}
    (hlim : lim.maxfragsperpacket ≤ 254) (hfp : fp.Counted lim.maxfragsperpacket)
    (h : addFrag lim fp m = .keep fp') : fp'.Counted lim.maxfragsperpacket := by
  have hcount := hfp.count
  have hfew := hfp.few
  unfold addFrag at h
  split at h
  next =>
    rw [← Verdict.keep.inj h]
    exact ⟨by rw [BitVec.add_sub_cancel]; exact hcount, hfew⟩
  next frags hmerge =>
    have hlen := ecnMerge_length hmerge
    dsimp only at h
    split at h
    next =>
      rw [← Verdict.keep.inj h]
      exact ⟨by rw [BitVec.add_sub_cancel, hlen]; exact hcount, by rw [hlen]; exact hfew⟩
    next m' _ =>
      obtain ⟨rfl, hle⟩ := finish_keep h
      have hsplit := congrArg List.length (takeWhile_append_dropWhile
        (p := fun q : Mbuf => decide (¬ m.ip.off.toNat < q.ip.off.toNat)) (l := frags))
      rw [length_append] at hsplit
      have htrim := trimSucc_length m'.stop
        (frags.dropWhile fun q => decide (¬ m.ip.off.toNat < q.ip.off.toNat))
      generalize trimSucc m'.stop _ = t at *
      have hnew : (fp.nfrags + 1 - BitVec.ofNat 8 t.2).toNat = fp.frags.length + 1 - t.2 := by
        rw [BitVec.toNat_sub, BitVec.toNat_add, BitVec.toNat_ofNat]
        have hone : (1 : BitVec 8).toNat = 1 := rfl
        omega
      rw [hnew] at hle
      have hall : (frags.takeWhile (fun q => decide (¬ m.ip.off.toNat < q.ip.off.toNat)) ++
          m' :: t.1).length = fp.frags.length + 1 - t.2 := by
        rw [length_append, length_cons]
        omega
      exact ⟨hnew.trans hall.symm, by rw [hall]; exact hle⟩

/-! ## Runs -/

/-- A fragment with `IP_MF` has a length that is a multiple of 8, and not zero. -/
def Mbuf.WellSized (m : Mbuf) : Prop :=
  m.ip.off &&& ipMf ≠ 0 → m.ip.len - m.ip.hlen ≠ 0 ∧ (m.ip.len - m.ip.hlen) &&& 7 = 0

/-- What happens while `V_maxfragsperpacket` is `limit`: a fragment arrives, well sized if there is
a queue for it, the timer runs, or memory is short. -/
inductive CountStep (limit : ℤ) : IpState → IpState → Prop
  | reass (s : IpState) (lim : Limits) (m : Mbuf) (uma : Bool)
      (hlim : lim.maxfragsperpacket = limit) (hm : s.HasQueue m.ip.key → m.WellSized) :
      CountStep limit s (ipReass lim s m uma).1
  | slowtimo (s : IpState) (lim : Limits) : CountStep limit s (ipSlowtimo lim s)
  | drain (s : IpState) : CountStep limit s (ipDrain s)

section Run

variable {limit : ℤ} {s s' : IpState} {m : Mbuf}

theorem Mbuf.WellSized.adjust_ne_none (h : m.WellSized) : adjust m ≠ none := by
  unfold adjust
  split
  next hmf =>
    obtain ⟨hne, hmul⟩ := h hmf
    rw [if_neg (not_or.mpr ⟨hne, not_not.mpr hmul⟩)]
    exact Option.some_ne_none _
  next => exact Option.some_ne_none _

theorem Shrinks.counted {h : Bucket} {fp : Ipq} (hs : Shrinks s s')
    (hc : ∀ h, ∀ fp ∈ s.ipq h, fp.Counted limit) (hfp : fp ∈ s'.ipq h) : fp.Counted limit := by
  obtain ⟨fp', hfp', heq⟩ := mem_map.mp ((hs h).subset (mem_map_of_mem hfp))
  simp only [Ipq.untimed, Ipq.mk.injEq] at heq
  obtain ⟨-, -, -, hfrags, -, -, hn⟩ := heq
  have hold := hc h fp' hfp'
  exact ⟨by rw [← hn, ← hfrags]; exact hold.count, by rw [← hfrags]; exact hold.few⟩

/-- **A fragment that arrives** leaves the fragments counted. -/
theorem Reassed.counted {lim : Limits} {out : IpState × Option Mbuf}
    (h : Reassed lim s m out) (hlimit : 0 ≤ limit ∧ limit ≤ 254)
    (hlim : lim.maxfragsperpacket = limit) (hm : s.HasQueue m.ip.key → m.WellSized)
    (hc : ∀ h, ∀ fp ∈ s.ipq h, fp.Counted limit) : ∀ h, ∀ fp ∈ out.1.ipq h, fp.Counted limit := by
  intro b fp hfp
  cases h with
  | refused => exact hc b fp hfp
  | dropped => exact (Shrinks.trimQueues _ _ _).counted hc hfp
  | @made m' hacc =>
    obtain ⟨-, hmem⟩ | ⟨-, hmem⟩ := mem_setBucket hfp
    · obtain rfl | hmem := mem_cons.mp hmem
      · refine ⟨rfl, ?_⟩
        have hne : limit ≠ 0 := fun h0 => hacc (.inr (hlim.trans h0))
        simp only [newIpq, length_singleton]
        omega
      · exact (Shrinks.trimQueues _ _ _).counted hc hmem
    · exact (Shrinks.trimQueues _ _ _).counted hc hmem
  | tooSmall _ hi hkey hnone =>
    exact absurd hnone (hm ⟨_, mem_of_getElem? hi, hkey⟩).adjust_ne_none
  | @kept i fp0 fp' m' _ hi _ _ ha =>
    obtain ⟨-, hmem⟩ | ⟨-, hmem⟩ := mem_setBucket hfp
    · obtain hmem | rfl := mem_or_eq_of_mem_set hmem
      · exact hc _ fp hmem
      · subst hlim
        exact addFrag_counted hlimit.2 (hc _ fp0 (mem_of_getElem? hi)) ha
    · exact hc b fp hmem
  | freed | whole => exact (Shrinks.ipFreef _ _ _).counted hc hfp

/-- **One step keeps the fragments counted.** -/
theorem CountStep.counted (h : CountStep limit s s') (hlimit : 0 ≤ limit ∧ limit ≤ 254)
    (hc : ∀ h, ∀ fp ∈ s.ipq h, fp.Counted limit) : ∀ h, ∀ fp ∈ s'.ipq h, fp.Counted limit := by
  cases h with
  | reass lim m uma hlim hm => exact (ipReass_reassed lim s m uma).counted hlimit hlim hm hc
  | slowtimo lim => exact fun _ _ => (Shrinks.ipSlowtimo lim s).counted hc
  | drain => exact fun _ _ => (Shrinks.ipDrain s).counted hc

theorem CountStep.counts (h : CountStep limit s s') (hs : s.Counts) : s'.Counts := by
  cases h with
  | reass lim m uma => exact (ipReass_reassed lim s m uma).counts hs
  | slowtimo lim => exact hs.ipSlowtimo lim
  | drain => exact hs.ipDrain

end Run

/-- **The counters count.**  If `V_maxfragsperpacket` is not negative and less than 255, and no
fragment with `IP_MF` whose length is zero or not a multiple of 8 arrives for a queue, then in every
run `ipq_nfrags` of each queue is the number of its fragments, no queue has more of them than
`V_maxfragsperpacket`, and `V_nipq` is the number of queues. -/
theorem nfrags_counts (limit : ℤ) (hlimit : 0 ≤ limit ∧ limit ≤ 254) (s : IpState)
    (hs : Reachable (· = ⟨fun _ => [], 0⟩) (CountStep limit) s) :
    (∀ h, ∀ fp ∈ s.ipq h, fp.nfrags.toNat = fp.frags.length ∧ (fp.frags.length : ℤ) ≤ limit) ∧
      s.nipq = ∑ h, ((s.ipq h).length : ℤ) := by
  have hinv : (∀ h, ∀ fp ∈ s.ipq h, fp.Counted limit) ∧ s.Counts := by
    refine hs.invariant (I := fun s => (∀ h, ∀ fp ∈ s.ipq h, fp.Counted limit) ∧ s.Counts)
      (fun s hs => ?_) fun s s' hinv hstep =>
        ⟨hstep.counted hlimit hinv.1, hstep.counts hinv.2⟩
    subst hs
    exact ⟨fun h fp hfp => absurd hfp not_mem_nil, by simp [IpState.Counts]⟩
  exact ⟨fun h fp hfp => ⟨(hinv.1 h fp hfp).count, (hinv.1 h fp hfp).few⟩, hinv.2⟩

/-! ### Fragments with gaps between them -/

/-- A fragment with `IP_MF` of `size` bytes, `16 * k` bytes into its datagram. -/
def gapped (k size : ℕ) : Mbuf :=
  ⟨⟨5, 0, BitVec.ofNat 16 (20 + size), 7, 0x2000 + BitVec.ofNat 16 (2 * k), 17, 0x0a000001,
    0x0a000002⟩, false, List.replicate size 0⟩

/-- The table after some fragments have arrived. -/
def reassAll (lim : Limits) (l : List Mbuf) : IpState :=
  l.foldl (fun s m => (ipReass lim s m true).1) ⟨fun _ => [], 0⟩

/-- Two fragments arrive. -/
theorem nfrags_counts_two : let s := reassAll ⟨100, 16⟩ [gapped 0 8, gapped 1 8]
    (∀ h, ∀ fp ∈ s.ipq h, fp.nfrags.toNat = fp.frags.length ∧ (fp.frags.length : ℤ) ≤ 16) ∧
      s.nipq = ∑ h, ((s.ipq h).length : ℤ) := by
  have hsized : ∀ k, (gapped k 8).WellSized := fun k _ =>
    (by decide : (28 : BitVec 16) - 20 ≠ 0 ∧ ((28 : BitVec 16) - 20) &&& 7 = 0)
  exact nfrags_counts 16 (by decide) _ (.tail (.tail (.of_init rfl)
    (.reass _ ⟨100, 16⟩ (gapped 0 8) true rfl fun _ => hsized 0))
      (.reass _ ⟨100, 16⟩ (gapped 1 8) true rfl fun _ => hsized 1))

/-- **Uncounted fragments.**  The limit is one fragment for a queue.  After a fragment of 8 bytes,
an empty one for the same datagram is dropped, and takes the counter to zero.  The next fragment is
counted as the first, and the queue holds two. -/
theorem tooSmall_uncounts :
    ((reassAll ⟨100, 1⟩ [gapped 0 8, gapped 1 0]).ipq (gapped 0 8).ip.key.hash).map
        (fun fp => (fp.nfrags.toNat, fp.frags.length)) = [(0, 1)] ∧
      ((reassAll ⟨100, 1⟩ [gapped 0 8, gapped 1 0, gapped 1 8]).ipq
        (gapped 0 8).ip.key.hash).map (fun fp => (fp.nfrags.toNat, fp.frags.length)) =
          [(1, 2)] := by
  refine ⟨?_, ?_⟩ <;> decide +kernel

-- with a limit of 255, the counter of a queue that gets its fragment 256 wraps to zero
example : (match addFrag ⟨100, 255⟩
        { newIpq (gapped 0 8) with
          frags := (List.range 255).filterMap fun k => adjust (gapped k 8)
          nfrags := 255 }
        { gapped 0 8 with ip := { (gapped 0 8).ip with off := 16 * 255, len := 8 } } with
      | .keep fp => some (fp.nfrags, fp.frags.length)
      | _ => none) = some (0, 256) := by
  decide +kernel

end FreeBSDSys.IpReass
