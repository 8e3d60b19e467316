import FreeBSDSys.Lib.Reassembly

/-!
# Reassembly of IP datagrams

`ip_reass` keeps the fragments of a datagram that is not complete yet in a queue, and the queues in
a table of 64 buckets.  A new fragment is cut at the end of its predecessor, the fragments behind it
are cut at its end or removed, and a queue whose fragments follow on each other up to one without
`IP_MF` becomes a packet again.  Queues are given up when there are too many of them, when they have
too many fragments, and when their time is over.  This file embeds `ip_reass`, `ip_freef`,
`ip_slowtimo` and `ip_drain`, and compares the work on one queue with the queues of pieces of a
stream.

* `ipReass`, `ipSlowtimo`, `ipDrain`: the functions.
* `cutFront_piece`, `trimSucc_piece`, `nextOf_piece`: the loops against their abstract forms.
* `insert_piece`: what a new fragment does to a queue.
-/

namespace FreeBSDSys.IpReass

open List Reassembly

abbrev Octet := BitVec 8

/-! ## The functions -/

/-- What identifies a datagram. -/
structure Key where
  id : BitVec 16
  src : BitVec 32
  dst : BitVec 32
  p : BitVec 8
deriving DecidableEq, Repr

/-- The fields of `struct ip` that reassembly uses. -/
structure Ip where
  hl : BitVec 4
  tos : BitVec 8
  len : BitVec 16
  id : BitVec 16
  off : BitVec 16
  p : BitVec 8
  src : BitVec 32
  dst : BitVec 32
deriving DecidableEq, Repr

def Ip.key (ip : Ip) : Key := ⟨ip.id, ip.src, ip.dst, ip.p⟩

/-- A packet: its header, the flag `M_FRAG`, and the data behind the header. -/
structure Mbuf where
  ip : Ip
  mFrag : Bool
  data : List Octet
deriving DecidableEq, Repr

/-- `struct ipq`: the queue of a datagram. -/
structure Ipq where
  ttl : BitVec 8
  p : BitVec 8
  id : BitVec 16
  frags : List Mbuf
  src : BitVec 32
  dst : BitVec 32
  nfrags : BitVec 8
deriving DecidableEq, Repr

def Ipq.key (fp : Ipq) : Key := ⟨fp.id, fp.src, fp.dst, fp.p⟩

/-- A bucket of the table; `IPREASS_NHASH_LOG2` is 6. -/
abbrev Bucket := Fin (2 ^ 6)

/-- `V_ipq` and `V_nipq`. -/
structure IpState where
  ipq : Bucket → List Ipq
  nipq : ℤ

/-- `V_maxnipq` and `V_maxfragsperpacket`. -/
structure Limits where
  maxnipq : ℤ
  maxfragsperpacket : ℤ
deriving DecidableEq, Repr

/-- `IPREASS_HASH`; the mask `IPREASS_HMASK` keeps six bits. -/
def ipreassHash (x : BitVec 32) (y : BitVec 16) : Bucket :=
  ((((x &&& 0xF) ||| (((x >>> 8) &&& 0xF) <<< 4)) ^^^ y.setWidth 32).setWidth 6).toFin

def Key.hash (k : Key) : Bucket := ipreassHash k.src k.id

/-- The search for the queue of a datagram in a bucket, with its place. -/
def findIpq (ip : Ip) : List Ipq → Option (ℕ × Ipq)
  | [] => none
  | fp :: l =>
    if ip.id = fp.id ∧ ip.src = fp.src ∧ ip.dst = fp.dst ∧ ip.p = fp.p then some (0, fp)
    else (findIpq ip l).map fun x => (x.1 + 1, x.2)

/-- Put a list of queues into a bucket. -/
def IpState.setBucket (s : IpState) (h : Bucket) (l : List Ipq) : IpState :=
  { s with ipq := Function.update s.ipq h l }

/-- `ip_freef` for the queue at place `i` of a bucket. -/
def ipFreef (s : IpState) (h : Bucket) (i : ℕ) : IpState :=
  { s.setBucket h ((s.ipq h).eraseIdx i) with nipq := s.nipq - 1 }

/-- Give up the last queue of the bucket, or of the first bucket that has one, if there are too
many. -/
def trimQueues (lim : Limits) (s : IpState) (h : Bucket) : IpState :=
  if lim.maxnipq < s.nipq ∧ 0 < lim.maxnipq then
    if s.ipq h = [] then
      match (List.finRange (2 ^ 6)).find? fun i => s.ipq i ≠ [] with
      | none => s
      | some i => ipFreef s i ((s.ipq i).length - 1)
    else
      ipFreef s h ((s.ipq h).length - 1)
  else
    s

/-- `IP_MF` -/
def ipMf : BitVec 16 := 0x2000

def Ip.hlen (ip : Ip) : BitVec 16 := ip.hl.setWidth 16 <<< 2

/-- The length without the header, the offset in bytes and the flag `M_FRAG`; nothing for a fragment
with `IP_MF` that is empty or not a multiple of 8 bytes long. -/
def adjust (m : Mbuf) : Option Mbuf :=
  let len := m.ip.len - m.ip.hlen
  let off := m.ip.off <<< 3
  if m.ip.off &&& ipMf ≠ 0 then
    if len = 0 ∨ len &&& 7 ≠ 0 then none
    else some { m with ip := { m.ip with len := len, off := off }, mFrag := true }
  else
    some { m with ip := { m.ip with len := len, off := off }, mFrag := false }

/-- The queue made for the first fragment to arrive; `IPFRAGTTL` is 60. -/
def newIpq (m : Mbuf) : Ipq :=
  ⟨60, m.ip.p, m.ip.id, [m], m.ip.src, m.ip.dst, 1⟩

/-- `IPTOS_ECN_CE` -/
def ecnCe : BitVec 8 := 3

def Ip.ecn (ip : Ip) : BitVec 8 := ip.tos &&& 3

/-- The ECN field of a new fragment against that of the first one of the queue: the fragments with
CE handed on, or nothing if the new one is to be dropped.  A queue always has a fragment. -/
def ecnMerge (ip : Ip) : List Mbuf → Option (List Mbuf)
  | [] => some []
  | q :: l =>
    if ip.ecn = ecnCe then
      if q.ip.ecn = 0 then none
      else if q.ip.ecn ≠ ecnCe then
        some ({ q with ip := { q.ip with tos := q.ip.tos ||| ecnCe } } :: l)
      else some (q :: l)
    else if ip.ecn = 0 ∧ q.ip.ecn ≠ 0 then none
    else some (q :: l)

/-- Where a fragment ends. -/
def Mbuf.stop (m : Mbuf) : ℕ := m.ip.off.toNat + m.ip.len.toNat

/-- Cut `i` bytes off the front of a fragment. -/
def Mbuf.cut (m : Mbuf) (i : ℕ) : Mbuf :=
  { m with
    ip := { m.ip with off := m.ip.off + BitVec.ofNat 16 i, len := m.ip.len - BitVec.ofNat 16 i }
    data := m.data.drop i }

/-- What is left of a new fragment behind the preceding one, if anything. -/
def cutFront (p : Option Mbuf) (m : Mbuf) : Option Mbuf :=
  match p with
  | none => some m
  | some p =>
    let i : ℤ := p.stop - m.ip.off.toNat
    if 0 < i then
      if m.ip.len.toNat ≤ i then none else some (m.cut i.toNat)
    else
      some m

/-- The loop over the fragments behind one that ends at `e`: what is left of them, and how many were
removed. -/
def trimSucc (e : ℕ) : List Mbuf → List Mbuf × ℕ
  | [] => ([], 0)
  | q :: l =>
    if q.ip.off.toNat < e then
      let i := e - q.ip.off.toNat
      if i < q.ip.len.toNat then (q.cut i :: l, 0)
      else ((trimSucc e l).1, (trimSucc e l).2 + 1)
    else
      (q :: l, 0)

/-- The loop that looks for a gap; `next` at its end. -/
def nextOf (next : ℕ) : List Mbuf → Option ℕ
  | [] => some next
  | q :: l => if q.ip.off.toNat ≠ next then none else nextOf (next + q.ip.len.toNat) l

/-- What becomes of a queue: it stays, it is freed, or it is made into a packet. -/
inductive Verdict
  | keep (fp : Ipq)
  | free
  | whole (m : Mbuf)
deriving DecidableEq, Repr

/-- A queue that is not complete is freed if it has too many fragments. -/
def limitFrags (lim : Limits) (fp : Ipq) : Verdict :=
  if lim.maxfragsperpacket < fp.nfrags.toNat then .free else .keep fp

/-- The check for complete reassembly, and the packet made of the fragments; `IP_MAXPACKET` is
65535. -/
def finish (lim : Limits) (fp : Ipq) : Verdict :=
  match nextOf 0 fp.frags, fp.frags with
  | some next, q :: l =>
    if ((q :: l).getLast (cons_ne_nil q l)).mFrag then
      limitFrags lim fp
    else if 65535 < next + 4 * q.ip.hl.toNat then
      .free
    else
      .whole
        { q with
          ip := { q.ip with
            len := q.ip.hlen + BitVec.ofNat 16 next
            src := fp.src
            dst := fp.dst }
          data := (q :: l).flatMap Mbuf.data }
  | _, _ => limitFrags lim fp

/-- A new fragment and the queue of its datagram: from `fp->ipq_nfrags++` on. -/
def addFrag (lim : Limits) (fp : Ipq) (m : Mbuf) : Verdict :=
  match ecnMerge m.ip fp.frags with
  | none => .keep { fp with nfrags := fp.nfrags + 1 - 1 }
  | some frags =>
    -- up to the first fragment that begins after this one
    let before := frags.takeWhile fun q => ¬ m.ip.off.toNat < q.ip.off.toNat
    let behind := frags.dropWhile fun q => ¬ m.ip.off.toNat < q.ip.off.toNat
    match cutFront before.getLast? m with
    | none => .keep { fp with frags := frags, nfrags := fp.nfrags + 1 - 1 }
    | some m =>
      let t := trimSucc m.stop behind
      finish lim
        { fp with
          frags := before ++ m :: t.1
          nfrags := fp.nfrags + 1 - BitVec.ofNat 8 t.2 }

/-- Fragments are refused altogether. -/
def Limits.Refuses (lim : Limits) : Prop := lim.maxnipq = 0 ∨ lim.maxfragsperpacket = 0

instance (lim : Limits) : Decidable lim.Refuses := inferInstanceAs (Decidable (_ ∨ _))

/-- `ip_reass`: the table and the packet returned; `uma` tells whether a queue could be
allocated. -/
def ipReass (lim : Limits) (s : IpState) (m : Mbuf) (uma : Bool) : IpState × Option Mbuf :=
  if lim.Refuses then
    (s, none)
  else
    let h := ipreassHash m.ip.src m.ip.id
    match findIpq m.ip (s.ipq h) with
    | none =>
      let s := trimQueues lim s h
      match adjust m with
      | none => (s, none)
      | some m =>
        if uma then ({ s.setBucket h (newIpq m :: s.ipq h) with nipq := s.nipq + 1 }, none)
        else (s, none)
    | some (i, fp) =>
      match adjust m with
      | none => (s.setBucket h ((s.ipq h).set i { fp with nfrags := fp.nfrags - 1 }), none)
      | some m =>
        match addFrag lim fp m with
        | .keep fp => (s.setBucket h ((s.ipq h).set i fp), none)
        | .free => (ipFreef s h i, none)
        | .whole m => (ipFreef s h i, some m)

/-- The loop of `ip_slowtimo` over one bucket. -/
def expireBucket (s : IpState) (h : Bucket) : IpState :=
  let l := ((s.ipq h).map fun fp => { fp with ttl := fp.ttl - 1 }).filter fun fp => fp.ttl ≠ 0
  { s.setBucket h l with nipq := s.nipq - ((s.ipq h).length - l.length : ℕ) }

/-- The number of queues that is left, and the queues, when the first ones are freed as long as
there are too many. -/
def drainTo (maxnipq nipq : ℤ) : List Ipq → ℤ × List Ipq
  | [] => (nipq, [])
  | fp :: l => if maxnipq < nipq then drainTo maxnipq (nipq - 1) l else (nipq, fp :: l)

/-- The second loop of `ip_slowtimo` over one bucket. -/
def drainBucket (maxnipq : ℤ) (s : IpState) (h : Bucket) : IpState :=
  let r := drainTo maxnipq s.nipq (s.ipq h)
  { s.setBucket h r.2 with nipq := r.1 }

/-- `ip_slowtimo` -/
def ipSlowtimo (lim : Limits) (s : IpState) : IpState :=
  let s := (List.finRange (2 ^ 6)).foldl expireBucket s
  if 0 ≤ lim.maxnipq ∧ lim.maxnipq < s.nipq then
    (List.finRange (2 ^ 6)).foldl (drainBucket lim.maxnipq) s
  else
    s

/-- The loop of `ip_drain` over one bucket. -/
def emptyBucket (s : IpState) (h : Bucket) : IpState :=
  { s.setBucket h [] with nipq := s.nipq - (s.ipq h).length }

/-- `ip_drain` -/
def ipDrain (s : IpState) : IpState := (List.finRange (2 ^ 6)).foldl emptyBucket s

open Mbuf

/-! ## Fragments as pieces -/

/-- A fragment of a queue whose length is that of its data and which ends in a packet of the largest
size. -/
structure Mbuf.Ok (m : Mbuf) : Prop where
  len : m.ip.len.toNat = m.data.length
  fits : m.ip.off.toNat + m.data.length ≤ 65535

/-- A fragment as a piece of the payload. -/
def Mbuf.piece (m : Mbuf) : Piece Octet Bool := ⟨m.ip.off.toNat, m.data, m.mFrag⟩

section Pieces

variable {m p q : Mbuf} {l : List Mbuf} {e i : ℕ}

theorem lo_piece : m.piece.lo = m.ip.off.toNat := rfl

theorem Mbuf.Ok.stop (h : m.Ok) : m.stop = m.piece.hi := by
  rw [Mbuf.stop, h.len]
  rfl

theorem hi_piece : m.piece.hi = m.ip.off.toNat + m.data.length := rfl

theorem Mbuf.Ok.cut (h : m.Ok) (hi : i ≤ m.data.length) :
    (m.cut i).Ok ∧ (m.cut i).piece = m.piece.trim i := by
  have hfits := h.fits
  have hof : (BitVec.ofNat 16 i).toNat = i := Nat.mod_eq_of_lt (by omega)
  have hoff : (m.ip.off + BitVec.ofNat 16 i).toNat = m.ip.off.toNat + i := by
    rw [BitVec.toNat_add_of_lt (by rw [hof]; omega), hof]
  have hlen : (m.ip.len - BitVec.ofNat 16 i).toNat = m.data.length - i := by
    rw [BitVec.toNat_sub_of_le, hof, h.len]
    rw [BitVec.le_def, hof, h.len]
    exact hi
  refine ⟨⟨?_, ?_⟩, ?_⟩
  · simp [Mbuf.cut, hlen]
  · simp only [Mbuf.cut, length_drop]
    omega
  · simp [Mbuf.cut, Mbuf.piece, Piece.trim, hoff]

/-- **The new fragment** against its abstract form: it is dropped, or cut by `i` bytes. -/
theorem cutFront_piece (hl : ∀ q ∈ l, q.Ok) (hm : m.Ok) :
    (cutFront l.getLast? m).map piece = cutBefore (l.map piece) m.piece ∧
      ∀ q, cutFront l.getLast? m = some q → ∃ i ≤ m.data.length, q = m ∨ 0 < i ∧ q = m.cut i := by
  unfold cutFront cutBefore
  rw [getLast?_map]
  cases hp : l.getLast? with
  | none => exact ⟨rfl, fun q hq => ⟨0, Nat.zero_le _, .inl (Option.some.inj hq).symm⟩⟩
  | some p =>
    have hpok := hl p (mem_of_getLast? hp)
    simp only [Option.map_some, hpok.stop, hm.len]
    have hlo := lo_piece (m := m)
    have hhi := hi_piece (m := m)
    by_cases h1 : p.piece.hi ≤ m.piece.lo
    · rw [if_neg (by omega), if_pos h1]
      exact ⟨rfl, fun q hq => ⟨0, Nat.zero_le _, .inl (Option.some.inj hq).symm⟩⟩
    · rw [if_pos (by omega), if_neg h1]
      by_cases h2 : m.piece.hi ≤ p.piece.hi
      · rw [if_pos (by omega), if_pos h2]
        exact ⟨rfl, fun q hq => by cases hq⟩
      · rw [if_neg (by omega), if_neg h2]
        have hi : ((p.piece.hi : ℤ) - m.ip.off.toNat).toNat = p.piece.hi - m.piece.lo := by omega
        rw [hi]
        have hle : p.piece.hi - m.piece.lo ≤ m.data.length := by omega
        refine ⟨?_, fun q hq => ⟨_, hle, .inr ⟨by omega, (Option.some.inj hq).symm⟩⟩⟩
        rw [Option.map_some, (hm.cut hle).2]

/-- **The loop over the fragments behind** against its abstract form; what it leaves was there, or
is a fragment cut by `i` bytes. -/
theorem trimSucc_piece (hl : ∀ q ∈ l, q.Ok) :
    (trimSucc e l).1.map piece = trimAfter e (l.map piece) ∧
      (∀ q ∈ (trimSucc e l).1, ∃ r ∈ l, ∃ i ≤ r.data.length, q = r ∨ 0 < i ∧ q = r.cut i) := by
  induction l with
  | nil => simp [trimSucc, trimAfter]
  | cons q l ih =>
    have hq := hl q mem_cons_self
    obtain ⟨ih1, ih2⟩ := ih fun q hq => hl q (mem_cons_of_mem _ hq)
    have hlo := lo_piece (m := q)
    have hhi := hi_piece (m := q)
    simp only [trimSucc, map_cons, trimAfter, hq.len]
    by_cases h1 : e ≤ q.piece.lo
    · rw [if_neg (by omega), if_pos h1]
      exact ⟨by simp, fun r hr => ⟨r, hr, 0, Nat.zero_le _, .inl rfl⟩⟩
    · rw [if_pos (by omega), if_neg h1]
      by_cases h2 : e < q.piece.hi
      · have hle : e - q.ip.off.toNat ≤ q.data.length := by omega
        rw [if_pos (by omega), if_pos h2]
        refine ⟨by rw [map_cons, (hq.cut hle).2, hlo], fun r hr => ?_⟩
        obtain rfl | hr := mem_cons.mp hr
        · exact ⟨q, mem_cons_self, _, hle, .inr ⟨by omega, rfl⟩⟩
        · exact ⟨r, mem_cons_of_mem _ hr, 0, Nat.zero_le _, .inl rfl⟩
      · rw [if_neg (by omega), if_neg h2]
        refine ⟨ih1, fun r hr => ?_⟩
        obtain ⟨r', hr', hcut⟩ := ih2 r hr
        exact ⟨r', mem_cons_of_mem _ hr', hcut⟩

/-- **The loop that looks for a gap** against its abstract form. -/
theorem nextOf_piece {n : ℕ} (hl : ∀ q ∈ l, q.Ok) : nextOf n l = joins n (l.map piece) := by
  induction l generalizing n with
  | nil => rfl
  | cons q l ih =>
    have hq := hl q mem_cons_self
    simp only [nextOf, map_cons, joins, ite_not, hq.len]
    by_cases heq : q.piece.lo = n
    · rw [if_pos heq, if_pos (lo_piece.symm.trans heq), ← heq,
        ih fun q hq => hl q (mem_cons_of_mem _ hq)]
      rfl
    · rw [if_neg heq, if_neg fun h => heq (lo_piece.trans h)]

/-- The search for the place of a new fragment. -/
theorem map_takeWhile_piece (m : Mbuf) (l : List Mbuf) :
    ((l.takeWhile fun q => ¬ m.ip.off.toNat < q.ip.off.toNat).map piece =
        (l.map piece).takeWhile fun a => a.lo ≤ m.piece.lo) ∧
      ((l.dropWhile fun q => ¬ m.ip.off.toNat < q.ip.off.toNat).map piece =
        (l.map piece).dropWhile fun a => a.lo ≤ m.piece.lo) := by
  induction l with
  | nil => simp
  | cons q l ih =>
    simp only [not_lt] at ih ⊢
    simp only [map_cons, takeWhile_cons, dropWhile_cons, lo_piece]
    by_cases hle : q.ip.off.toNat ≤ m.ip.off.toNat
    · simp only [hle, decide_true, if_true]
      exact ⟨congrArg _ ih.1, ih.2⟩
    · simp [hle]

end Pieces

end FreeBSDSys.IpReass
