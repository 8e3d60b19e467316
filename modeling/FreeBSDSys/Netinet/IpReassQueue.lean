import FreeBSDSys.Netinet.IpReass

/-!
# The queue of a datagram

The fragments of a datagram arrive in any order, twice and overlapping.  This file says what a
fragment of a datagram is, and proves what becomes of a queue that holds the bytes of the fragments
that arrived before: it holds those of the new one too, or it is freed before it is complete, or the
packet made of it is the datagram.

The sender's side is `Datagram.Frag`.  The ECN field is kept apart, in `Datagram.EcnAgrees`, since
`ip_reass` drops fragments for it.

* `Datagram.Ordered`, `Ipq.Holds`: queues in order, and queues that wait for more.
* `insert_ordered`: a fragment takes its place.
* `finish_good`, `addFrag_good`: what becomes of a queue.
-/

namespace FreeBSDSys.IpReass

open List Option Reassembly Spans

/-! ## Datagrams and their fragments -/

/-- A datagram: the length of its header in words, whether it is ECN-capable, and its payload. -/
structure Datagram where
  key : Key
  hl : BitVec 4
  ect : Bool
  payload : List Octet
  size : 4 * hl.toNat + payload.length ≤ 65535

/-- The payload as a stream. -/
def Datagram.stream (d : Datagram) (x : ℕ) : Octet := d.payload.getD x 0

/-- The fragment offset of a header, in bytes; `IP_OFFMASK` is `0x1fff`. -/
def Ip.start (ip : Ip) : ℕ := 8 * (ip.off &&& 0x1fff).toNat

/-- A packet is a fragment of the datagram: it carries the bytes at its offset, has `IP_MF` unless
it ends where the datagram ends, and then is a multiple of 8 bytes long.  `ip_input` passes a packet
to `ip_reass` only if it has `IP_MF` or an offset. -/
structure Datagram.Frag (d : Datagram) (m : Mbuf) : Prop where
  key : m.ip.key = d.key
  head : m.ip.start = 0 → m.ip.hl = d.hl
  len : m.ip.len.toNat = 4 * m.ip.hl.toNat + m.data.length
  fits : m.ip.start + m.data.length ≤ d.payload.length
  data : m.data = (d.payload.drop m.ip.start).take m.data.length
  mf : m.ip.off &&& ipMf ≠ 0 ↔ m.ip.start + m.data.length < d.payload.length
  eight : m.ip.off &&& ipMf ≠ 0 → 8 ∣ m.data.length
  part : m.ip.off &&& (ipMf ||| 0x1fff) ≠ 0

/-- A fragment is ECN-capable, or congestion was experienced, if and only if the datagram is
ECN-capable. -/
def Datagram.EcnAgrees (d : Datagram) (m : Mbuf) : Prop := m.ip.ecn ≠ 0 ↔ d.ect = true

/-- The byte at place `x` of the payload is in a fragment. -/
def Mbuf.Has (m : Mbuf) (x : ℕ) : Prop := m.ip.start ≤ x ∧ x < m.ip.start + m.data.length

/-- All bytes of the datagram are in the fragments. -/
def Datagram.Complete (d : Datagram) (got : List Mbuf) : Prop :=
  ∀ x < d.payload.length, ∃ m ∈ got, m.Has x

/-- A packet is the datagram. -/
structure Datagram.Is (d : Datagram) (m : Mbuf) : Prop where
  key : m.ip.key = d.key
  hl : m.ip.hl = d.hl
  len : m.ip.len.toNat = 4 * d.hl.toNat + d.payload.length
  data : m.data = d.payload

/-- A fragment of the queue of the datagram. -/
structure Datagram.Stored (d : Datagram) (q : Mbuf) : Prop where
  ok : q.Ok
  key : q.ip.key = d.key
  head : q.ip.off.toNat = 0 → q.ip.hl = d.hl
  fits : q.piece.hi ≤ d.payload.length
  carries : q.piece.Carries d.stream
  mf : q.mFrag = true ↔ q.piece.hi < d.payload.length
  ecn : d.EcnAgrees q

section Frag

variable {d : Datagram} {m q : Mbuf}

theorem Datagram.slice_stream {p n : ℕ} (h : p + n ≤ d.payload.length) :
    slice d.stream p n = (d.payload.drop p).take n := by
  refine ext_getElem ?_ fun i h1 h2 => ?_
  · simp
    omega
  · simp only [length_slice] at h1
    have hi : p + i < d.payload.length := by omega
    simp [slice, Datagram.stream, getElem?_eq_getElem hi]

theorem start_eq (ip : Ip) : ip.start = 8 * (ip.off.toNat % 8192) :=
  congrArg _ (Nat.and_two_pow_sub_one_eq_mod ip.off.toNat 13)

theorem toNat_off_shift (ip : Ip) : (ip.off <<< 3).toNat = ip.start := by
  rw [BitVec.toNat_shiftLeft, start_eq]
  omega

theorem toNat_hlen (ip : Ip) : ip.hlen.toNat = 4 * ip.hl.toNat := by
  rw [Ip.hlen, BitVec.toNat_shiftLeft, BitVec.toNat_setWidth]
  omega

theorem Datagram.Frag.toNat_len (h : d.Frag m) : (m.ip.len - m.ip.hlen).toNat = m.data.length := by
  have hlen := h.len
  rw [BitVec.toNat_sub_of_le, hlen, toNat_hlen, Nat.add_sub_cancel_left]
  rw [BitVec.le_def, toNat_hlen]
  omega

/-- **A fragment is refused** only if it is empty. -/
theorem Datagram.Frag.adjust_none (h : d.Frag m) (ha : adjust m = none) : m.data = [] := by
  have hlen := h.toNat_len
  unfold adjust at ha
  dsimp only at ha
  split_ifs at ha with hmf hbad
  obtain ⟨k, hk⟩ := h.eight hmf
  have hand : ((m.ip.len - m.ip.hlen) &&& 7).toNat = m.data.length % 8 := by
    rw [BitVec.toNat_and, hlen]
    exact Nat.and_two_pow_sub_one_eq_mod _ 3
  obtain hzero | hmod := hbad
  · rw [hzero] at hlen
    exact length_eq_zero_iff.mp hlen.symm
  · exact absurd (BitVec.eq_of_toNat_eq (by rw [hand, hk]; simp)) hmod

/-- A fragment that is not refused; the two branches differ in the flag only. -/
theorem adjust_eq (ha : adjust m = some q) : ∃ b : Bool, (b = true ↔ m.ip.off &&& ipMf ≠ 0) ∧
      q = ⟨{ m.ip with len := m.ip.len - m.ip.hlen, off := m.ip.off <<< 3 }, b, m.data⟩ := by
  unfold adjust at ha
  dsimp only at ha
  split_ifs at ha with hmf
  · exact ⟨true, by simpa using hmf, (some.inj ha).symm⟩
  · exact ⟨false, by simpa using hmf, (some.inj ha).symm⟩

/-- **It is ready for the queue.** -/
theorem Datagram.Frag.adjust_some (h : d.Frag m) (he : d.EcnAgrees m) (ha : adjust m = some q) :
    d.Stored q ∧ q.ip.off.toNat = m.ip.start ∧ q.data = m.data ∧ q.ip.key = m.ip.key := by
  have hlen := h.toNat_len
  have hoff := toNat_off_shift m.ip
  have hfits := h.fits
  have hsize := d.size
  have hmf := h.mf
  obtain ⟨b, hb, rfl⟩ := adjust_eq ha
  refine ⟨⟨⟨hlen, by simp [hoff]; omega⟩, h.key, fun h0 => h.head (by rwa [← hoff]), ?_, ?_,
    ?_, he⟩, hoff, rfl, rfl⟩
  · simp only [Mbuf.piece, hoff]
    exact hfits
  · simp only [Piece.Carries, Mbuf.piece, hoff]
    rw [d.slice_stream hfits]
    exact h.data
  · simp only [Mbuf.piece, hoff]
    exact hb.trans hmf

/-- One fragment is never the whole datagram: it would have neither `IP_MF` nor an offset. -/
theorem Datagram.Frag.not_complete (h : d.Frag m) : ¬ d.Complete [m] := by
  intro hc
  have hhas : ∀ x < d.payload.length, m.Has x := fun x hx => by simpa using hc x hx
  have hfits := h.fits
  have hfirst := hhas 0
  have hlast := hhas (d.payload.length - 1)
  unfold Mbuf.Has at hfirst hlast
  have hmf : m.ip.off &&& ipMf = 0 := by
    by_contra hmf
    have := h.mf.mp hmf
    omega
  have hoff : m.ip.off &&& 0x1fff = 0 := by
    have hstart : m.ip.start = 0 := by omega
    exact BitVec.eq_of_toNat_eq ((Nat.mul_eq_zero.mp hstart).resolve_left (by decide))
  have hor : ∀ x a b : BitVec 16, x &&& a = 0 → x &&& b = 0 → x &&& (a ||| b) = 0 := by
    intro x a b ha hb
    rw [BitVec.and_or_distrib_left, ha, hb]
    rfl
  exact h.part (hor _ _ _ hmf hoff)

/-- The key of a fragment stays. -/
theorem adjust_key (ha : adjust m = some q) : (newIpq q).key = m.ip.key := by
  obtain ⟨b, -, rfl⟩ := adjust_eq ha
  rfl

theorem Datagram.Stored.cut {i : ℕ} (h : d.Stored q) (hi : i ≤ q.data.length) (hpos : 0 < i) :
    d.Stored (q.cut i) := by
  obtain ⟨hok, hpiece⟩ := h.ok.cut hi
  have hhi : (q.cut i).piece.hi = q.piece.hi := by rw [hpiece, Piece.hi_trim hi]
  have hlo : (q.cut i).ip.off.toNat = q.piece.lo + i := by rw [← lo_piece, hpiece, Piece.lo_trim]
  refine ⟨hok, h.key, fun h0 => by omega, by rw [hhi]; exact h.fits, ?_, ?_, h.ecn⟩
  · rw [hpiece]
    exact trimmable_carries _ _ hi h.carries
  · rw [hhi]
    exact h.mf

end Frag

/-! ## One queue -/

/-- A queue of the datagram: in order, and with the bytes that arrived. -/
structure Datagram.Ordered (d : Datagram) (got : List Mbuf) (frags : List Mbuf) : Prop where
  ne : frags ≠ []
  stored : ∀ q ∈ frags, d.Stored q
  sorted : Sorted (frags.map Mbuf.piece)
  bytes : ∀ x, x ∈ cover Piece.lo Piece.hi (frags.map Mbuf.piece) ↔ ∃ m ∈ got, m.Has x

/-- A queue that waits for more. -/
structure Ipq.Holds (d : Datagram) (got : List Mbuf) (fp : Ipq) : Prop where
  ordered : d.Ordered got fp.frags
  waits : ¬ d.Complete got

/-- What may become of a queue when the fragments `got` have arrived. -/
def Verdict.Good (d : Datagram) (got : List Mbuf) : Verdict → Prop
  | .keep fp => fp.key = d.key ∧ fp.Holds d got
  | .free => ¬ d.Complete got
  | .whole m => d.Is m

section Queue

variable {d : Datagram} {got frags frags' : List Mbuf} {fp : Ipq} {m m' q : Mbuf} {lim : Limits}

theorem Datagram.Ordered.nextOf (h : d.Ordered got frags) (hc : d.Complete got) :
    nextOf 0 frags = some d.payload.length := by
  rw [nextOf_piece fun q hq => (h.stored q hq).ok]
  refine joins_of_cover h.sorted (fun a _ => Nat.zero_le _) ?_ (Nat.zero_le _) fun x _ hx =>
    (h.bytes x).mpr (hc x hx)
  intro a ha
  obtain ⟨q, hq, rfl⟩ := mem_map.mp ha
  exact (h.stored q hq).fits

theorem limitFrags_good (hkey : fp.key = d.key) (h : d.Ordered got fp.frags)
    (hw : ¬ d.Complete got) : (limitFrags lim fp).Good d got := by
  unfold limitFrags
  split
  next => exact hw
  next => exact ⟨hkey, h, hw⟩

theorem Datagram.Ordered.getLast_hi {n : ℕ} (h : d.Ordered got frags)
    (hn : IpReass.nextOf 0 frags = some n) : (frags.getLast h.ne).piece.hi = n := by
  rw [nextOf_piece fun q hq => (h.stored q hq).ok] at hn
  refine joins_getLast hn ?_
  rw [getLast?_map, getLast?_eq_some_getLast h.ne, map_some]

/-- The packet made of a complete queue is the datagram. -/
theorem Datagram.Ordered.whole {l : List Mbuf} (hkey : fp.key = d.key) (h : d.Ordered got (q :: l))
    (hn : IpReass.nextOf 0 (q :: l) = some d.payload.length) :
    d.Is
      { q with
        ip := { q.ip with
          len := q.ip.hlen + BitVec.ofNat 16 d.payload.length
          src := fp.src
          dst := fp.dst }
        data := (q :: l).flatMap Mbuf.data } := by
  have hq := h.stored q mem_cons_self
  have hsize := d.size
  rw [nextOf_piece fun q hq => (h.stored q hq).ok] at hn
  have hhl : q.ip.hl = d.hl := hq.head (joins_cons hn).1
  refine ⟨?_, hhl, ?_, ?_⟩
  · have hfp := hkey
    have hqk := hq.key
    simp only [Ipq.key, Ip.key, ← hfp, Key.mk.injEq] at hqk ⊢
    exact ⟨hqk.1, trivial, trivial, hqk.2.2.2⟩
  · have hhlen : q.ip.hlen.toNat = 4 * d.hl.toNat := by rw [toNat_hlen, hhl]
    have hof : (BitVec.ofNat 16 d.payload.length).toNat = d.payload.length :=
      Nat.mod_eq_of_lt (by omega)
    rw [BitVec.toNat_add_of_lt (by rw [hhlen, hof]; omega), hhlen, hof]
  · have hdata := joins_slice (f := d.stream) (fun a ha => ?_) hn
    · rw [flatMap_map, d.slice_stream (by omega)] at hdata
      simpa [Mbuf.piece] using hdata
    · obtain ⟨r, hr, rfl⟩ := mem_map.mp ha
      exact (h.stored r hr).carries

/-- **The end of `ip_reass`.** -/
theorem finish_good (hkey : fp.key = d.key) (h : d.Ordered got fp.frags) :
    (finish lim fp).Good d got := by
  unfold finish
  split
  next next q l hn hfrags =>
    have h' := h
    rw [hfrags] at h' hn
    have hlast := h'.getLast_hi hn
    have hmf := (h'.stored _ (getLast_mem h'.ne)).mf
    have hfits := (h'.stored _ (getLast_mem h'.ne)).fits
    split
    next hfrag =>
      refine limitFrags_good hkey h fun hc => ?_
      have hlt := hmf.mp hfrag
      rw [h'.nextOf hc] at hn
      exact absurd (some.inj hn) (by omega)
    next hfrag =>
      obtain rfl : next = d.payload.length := by
        have := mt hmf.mpr hfrag
        omega
      have hsize := d.size
      have hwhole := h'.whole hkey hn
      have hhl : q.ip.hl = d.hl := hwhole.hl
      rw [hhl, if_neg (by omega)]
      exact hwhole
  next hnot =>
    refine limitFrags_good hkey h fun hc => ?_
    cases hfrags : fp.frags with
    | nil => exact h.ne hfrags
    | cons q l => exact hnot _ q l (h.nextOf hc) hfrags

/-- The ECN field of a fragment that agrees is no reason to drop it. -/
theorem ecnMerge_agrees (hm : d.EcnAgrees m) (h : d.Ordered got frags) :
    ∃ frags', ecnMerge m.ip frags = some frags' ∧ d.Ordered got frags' := by
  cases frags with
  | nil => exact absurd rfl h.ne
  | cons q l =>
    have hq := h.stored q mem_cons_self
    have hiff : m.ip.ecn ≠ 0 ↔ q.ip.ecn ≠ 0 := hm.trans hq.ecn.symm
    rw [ecnMerge]
    split
    next hce =>
      have hq0 : q.ip.ecn ≠ 0 := hiff.mp (by rw [hce]; decide)
      rw [if_neg hq0]
      split
      next =>
        refine ⟨_, rfl, by simp, forall_mem_cons.mpr ⟨?_, (forall_mem_cons.mp h.stored).2⟩,
          h.sorted, h.bytes⟩
        refine ⟨⟨hq.ok.len, hq.ok.fits⟩, hq.key, hq.head, hq.fits, hq.carries, hq.mf, ?_⟩
        refine ⟨fun _ => hq.ecn.mp hq0, fun _ hzero => ?_⟩
        have hbits : ((q.ip.tos ||| ecnCe) &&& 3) = 3 := by
          ext i hi
          simp only [BitVec.getElem_and, BitVec.getElem_or, ecnCe]
          cases (3#8)[i] <;> simp
        rw [Ip.ecn, hbits] at hzero
        cases hzero
      next => exact ⟨_, rfl, h⟩
    next =>
      rw [if_neg fun hbad => hiff.mpr hbad.2 hbad.1]
      exact ⟨_, rfl, h⟩

/-- **A fragment takes its place in the queue.** -/
theorem insert_ordered (h : d.Ordered got frags) (hm' : d.Stored m')
    (hlo : m'.ip.off.toNat = m.ip.start) (hdata : m'.data = m.data) {q : Mbuf}
    (hcut : cutFront (frags.takeWhile fun q => ¬ m'.ip.off.toNat < q.ip.off.toNat).getLast? m' =
      some q) :
    d.Ordered (m :: got) ((frags.takeWhile fun q => ¬ m'.ip.off.toNat < q.ip.off.toNat) ++ q ::
      (trimSucc q.stop (frags.dropWhile fun q => ¬ m'.ip.off.toNat < q.ip.off.toNat)).1) := by
  obtain ⟨hbefore, hbehind⟩ := map_takeWhile_piece m' frags
  set before := frags.takeWhile fun q => ¬ m'.ip.off.toNat < q.ip.off.toNat with hb
  set behind := frags.dropWhile fun q => ¬ m'.ip.off.toNat < q.ip.off.toNat with hh
  have hstored1 : ∀ r ∈ before, d.Stored r := fun r hr =>
    h.stored r ((takeWhile_sublist _).subset hr)
  have hstored2 : ∀ r ∈ behind, d.Stored r := fun r hr =>
    h.stored r ((dropWhile_sublist _).subset hr)
  obtain ⟨hfront, hfrom⟩ := cutFront_piece (fun r hr => (hstored1 r hr).ok) hm'.ok
  rw [hcut, map_some, hbefore] at hfront
  have hq : d.Stored q ∧ q.piece.hi = m'.piece.hi := by
    obtain ⟨i, hi, rfl | ⟨hpos, rfl⟩⟩ := hfrom q hcut
    · exact ⟨hm', rfl⟩
    · exact ⟨hm'.cut hi hpos, by rw [(hm'.ok.cut hi).2, Piece.hi_trim hi]⟩
  obtain ⟨htrim, htfrom⟩ := trimSucc_piece fun r hr => (hstored2 r hr).ok
  -- in terms of pieces, the new queue is that of `place`
  have hplace : place m'.piece (frags.map Mbuf.piece) =
      some ((before ++ q :: (trimSucc q.stop behind).1).map Mbuf.piece) := by
    rw [place, ← hfront, map_some, map_append, map_cons, hbefore, htrim,
      hq.1.ok.stop, hq.2, hbehind]
  refine ⟨by simp, ?_, place_sorted h.sorted hplace, fun x => ?_⟩
  · refine forall_mem_append.mpr ⟨hstored1, forall_mem_cons.mpr ⟨hq.1, fun r hr => ?_⟩⟩
    obtain ⟨r', hr', i, hi, rfl | ⟨hpos, rfl⟩⟩ := htfrom r hr
    · exact hstored2 r hr'
    · exact (hstored2 r' hr').cut hi hpos
  · rw [place_cover h.sorted hplace, Set.mem_union, h.bytes, mem_span, lo_piece, hi_piece, hlo,
      hdata]
    simp only [mem_cons, exists_eq_or_imp]
    exact or_comm

/-- A fragment whose bytes are there changes nothing. -/
theorem Datagram.Ordered.again (h : d.Ordered got frags) (hm : ∀ x, m.Has x → ∃ m ∈ got, m.Has x) :
    d.Ordered (m :: got) frags := by
  refine ⟨h.ne, h.stored, h.sorted, fun x => (h.bytes x).trans ?_⟩
  simp only [mem_cons, exists_eq_or_imp]
  exact ⟨.inr, fun h => h.elim (hm x) id⟩

theorem not_complete_again (hw : ¬ d.Complete got) (hm : ∀ x, m.Has x → ∃ m ∈ got, m.Has x) :
    ¬ d.Complete (m :: got) := by
  intro hc
  refine hw fun x hx => ?_
  obtain ⟨r, hr, hrx⟩ := hc x hx
  obtain rfl | hr := mem_cons.mp hr
  · exact hm x hrx
  · exact ⟨r, hr, hrx⟩

/-- **A fragment of the datagram and its queue.** -/
theorem addFrag_good (hkey : fp.key = d.key) (h : fp.Holds d got) (hm : d.Frag m)
    (he : d.EcnAgrees m) (ha : adjust m = some m') : (addFrag lim fp m').Good d (m :: got) := by
  obtain ⟨hm', hlo, hdata, -⟩ := hm.adjust_some he ha
  obtain ⟨frags, hmerge, hord⟩ := ecnMerge_agrees hm'.ecn h.ordered
  unfold addFrag
  rw [hmerge]
  dsimp only
  split
  next hcut =>
    -- the preceding fragment has all of it
    have hhas : ∀ x, m.Has x → ∃ m ∈ got, m.Has x := by
      intro x hx
      rw [← hord.bytes x]
      have hplace : place m'.piece (frags.map Mbuf.piece) = none := by
        rw [place, ← (map_takeWhile_piece m' frags).1, ← (cutFront_piece (fun r hr =>
          (hord.stored r ((takeWhile_sublist _).subset hr)).ok) hm'.ok).1, hcut]
        rfl
      refine place_eq_none hplace ?_
      rw [mem_span, lo_piece, hi_piece, hlo, hdata]
      exact hx
    exact ⟨hkey, hord.again hhas, not_complete_again h.waits hhas⟩
  next q hcut => exact finish_good hkey (insert_ordered hord hm' hlo hdata hcut)

end Queue

end FreeBSDSys.IpReass
