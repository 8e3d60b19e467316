import FreeBSDSys.Netinet.TcpSeq
import FreeBSDSys.Lib.Reassembly

/-!
# Reassembly of TCP segments

`tcp_reass` keeps the segments that arrived out of order in a queue sorted by sequence number.  A new
segment is cut at the end of its predecessor, the segments behind it are cut at its end or removed,
and what follows on `rcv_nxt` is moved to the socket buffer.  This file embeds the function, the
inline case of `tcp_input` for the next segment in order, and the flush of the queue in `tcp_drain`.

The model is compared with the queues of pieces of a stream: in a window from `rcv_nxt` on, the loops
of `tcp_reass` are the operations `cutBefore`, `trimAfter` and `present`.

* `tcpReass`, `tcpInputInline`, `tcpDrain`: the functions.
* `cutFront_piece`, `trimSucc_piece`, `presentLoop_piece`: the loops against their abstract forms.
* `Conn.Inv`, `presentData_inv`, `tcpReass_inv`: the invariant of reassembly.
-/

namespace FreeBSDSys.Tcp

open BitVec List Option Reassembly SeqWindow Nat

abbrev Octet := BitVec 8

/-- `struct tseg_qent`: a queued segment; `len` is the source's `tqe_len`, an `int`, and `m` the data
of the mbuf chain. -/
structure Tseg where
  seq : TcpSeq
  fin : Bool
  len : BitVec 32
  m : List Octet
deriving DecidableEq, Repr

/-- The fields of a connection and its socket that reassembly uses.  `established` is
`TCPS_HAVEESTABLISHED(t_state)`, `cantRcvMore` the flag `SBS_CANTRCVMORE` of the receive buffer, and
`appended` everything that was ever appended to that buffer. -/
structure ReassCb where
  rcvNxt : TcpSeq
  established : Bool
  segq : List Tseg
  segqlen : ℤ
  qsize : ℤ
  cantRcvMore : Bool
  appended : List Octet
deriving DecidableEq, Repr

/-- The limits `V_tcp_reass_maxseg` and `V_tcp_reass_maxqlen`. -/
structure ReassLimits where
  maxseg : ℤ
  maxqlen : ℤ

/-- `m_adj` for a count that is not negative. -/
def mAdj (m : List Octet) (i : BitVec 32) : List Octet := m.drop i.toNat

/-- Cut `i` bytes off the front of a segment. -/
def Tseg.cut (q : Tseg) (i : BitVec 32) : Tseg :=
  { q with seq := q.seq + i, len := q.len - i, m := mAdj q.m i }

/-- What is left of a new segment behind the preceding one, if anything. -/
def cutFront (p : Option Tseg) (te : Tseg) : Option Tseg :=
  match p with
  | none => some te
  | some p =>
    let i := p.seq + p.len - te.seq
    if 0 < i.toInt then
      if te.len.toInt ≤ i.toInt then none else some (te.cut i)
    else
      some te

/-- The loop over the segments behind one that ends at `e`: what is left of them, and how many were
removed. -/
def trimSucc (e : TcpSeq) : List Tseg → List Tseg × ℕ
  | [] => ([], 0)
  | q :: rest =>
    let i := e - q.seq
    if i.toInt ≤ 0 then (q :: rest, 0)
    else if i.toInt < q.len.toInt then (q.cut i :: rest, 0)
    else ((trimSucc e rest).1, (trimSucc e rest).2 + 1)

/-- What the loop at `present` leaves, and how many segments it took off. -/
structure Presented where
  rcvNxt : TcpSeq
  data : List Octet
  flags : Bool
  rest : List Tseg
  taken : ℕ

/-- The loop at `present`: segments are taken off the queue while they follow on `rcv_nxt`. -/
def presentLoop (rcvNxt : TcpSeq) (flags : Bool) : List Tseg → Presented
  | [] => ⟨rcvNxt, [], flags, [], 0⟩
  | q :: rest =>
    if q.seq = rcvNxt then
      let r := presentLoop (rcvNxt + q.len) q.fin rest
      { r with data := q.m ++ r.data, taken := r.taken + 1 }
    else
      ⟨rcvNxt, [], flags, q :: rest, 0⟩

/-- The code from the label `present` on; returns whether the last segment had a FIN. -/
def presentData (tp : ReassCb) : ReassCb × Bool :=
  if tp.established then
    let r := presentLoop tp.rcvNxt false tp.segq
    ({ tp with
        rcvNxt := r.rcvNxt
        segq := r.rest
        segqlen := tp.segqlen - r.taken
        qsize := tp.qsize - r.taken
        appended := if tp.cantRcvMore then tp.appended else tp.appended ++ r.data },
      r.flags)
  else
    (tp, false)

/-- What `tcp_reass` returns: the connection, `*tlenp` and the FIN flag. -/
structure ReassResult where
  tp : ReassCb
  tlen : BitVec 32
  flags : Bool

/-- `tcp_reass` for a segment; `uma` tells whether a queue entry could be allocated. -/
def tcpReass (lim : ReassLimits) (tp : ReassCb) (te : Tseg) (uma : Bool) : ReassResult :=
  if te.seq ≠ tp.rcvNxt ∧ (lim.maxseg ≤ tp.qsize + 1 ∨ lim.maxqlen ≤ tp.segqlen) then
    ⟨tp, 0, false⟩
  else if uma = false then
    ⟨tp, 0, false⟩
  else
    let tp := { tp with segqlen := tp.segqlen + 1, qsize := tp.qsize + 1 }
    -- up to the first segment that begins after this one
    let before := tp.segq.takeWhile fun q => ¬ seqGt q.seq te.seq
    let behind := tp.segq.dropWhile fun q => ¬ seqGt q.seq te.seq
    match cutFront before.getLast? te with
    | none =>
      let r := presentData { tp with segqlen := tp.segqlen - 1, qsize := tp.qsize - 1 }
      ⟨r.1, te.len, r.2⟩
    | some te =>
      let t := trimSucc (te.seq + te.len) behind
      let r := presentData
        { tp with
          segq := before ++ te :: t.1
          segqlen := tp.segqlen - t.2
          qsize := tp.qsize - t.2 }
      ⟨r.1, te.len, r.2⟩

/-- `tcp_reass` without a segment, called when the connection becomes established. -/
def tcpReassPush (tp : ReassCb) : ReassCb := (presentData tp).1

/-- The inline case of `tcp_input`: the next segment in order, with nothing queued. -/
def tcpInputInline (tp : ReassCb) (te : Tseg) : ReassCb :=
  { tp with
    rcvNxt := tp.rcvNxt + te.len
    appended := if tp.cantRcvMore then tp.appended else tp.appended ++ te.m }

/-- The flush of the queue in `tcp_drain`. -/
def tcpDrain (tp : ReassCb) : ReassCb :=
  { tp with
    segq := []
    segqlen := tp.segqlen - tp.segq.length
    qsize := tp.qsize - tp.segq.length }

/-! ## Segments as pieces -/

/-- A segment in the window from `nxt` on whose length is that of its data. -/
structure Tseg.Ok (nxt : TcpSeq) (q : Tseg) : Prop where
  len : q.len.toNat = q.m.length
  fits : off nxt q.seq + q.m.length < 2 ^ 31

/-- A segment as a piece of the stream, when `n` bytes lie before `nxt`. -/
def Tseg.piece (n : ℕ) (nxt : TcpSeq) (q : Tseg) : Piece Octet Bool := ⟨n + off nxt q.seq, q.m, q.fin⟩

section Pieces

variable {n : ℕ} {nxt e : TcpSeq} {p q te : Tseg} {l : List Tseg}

@[simp] theorem lo_piece : (q.piece n nxt).lo = n + off nxt q.seq := rfl

theorem hi_piece : (q.piece n nxt).hi = n + off nxt q.seq + q.m.length := rfl

namespace Tseg.Ok

theorem seq_in (h : q.Ok nxt) : InWindow nxt q.seq := lt_of_le_of_lt (le_add_right _ _) h.fits

theorem off_end (h : q.Ok nxt) : off nxt (q.seq + q.len) = off nxt q.seq + q.m.length := by
  have hfits := h.fits
  rw [off_add (by rw [h.len]; omega), h.len]

theorem end_in (h : q.Ok nxt) : InWindow nxt (q.seq + q.len) := by
  rw [InWindow, h.off_end]
  exact h.fits

theorem len_toInt (h : q.Ok nxt) : q.len.toInt = q.m.length := by
  have hfits := h.fits
  rw [toInt_eq_toNat_of_lt (by rw [h.len]; omega), h.len]

/-- Cutting at a number `e` inside the segment. -/
theorem cut (h : q.Ok nxt) (hlo : off nxt q.seq ≤ off nxt e)
    (hhi : off nxt e ≤ off nxt q.seq + q.m.length) :
    (q.cut (e - q.seq)).Ok nxt ∧
      (q.cut (e - q.seq)).piece n nxt = (q.piece n nxt).trim (off nxt e - off nxt q.seq) := by
  have hi : (e - q.seq).toNat = off nxt e - off nxt q.seq := toNat_sub hlo
  have hseq : q.seq + (e - q.seq) = e := by simp
  have hlen : (q.len - (e - q.seq)).toNat = q.m.length - (off nxt e - off nxt q.seq) := by
    rw [toNat_sub_of_le, h.len, hi]
    rw [le_def, h.len]
    omega
  have hfits := h.fits
  refine ⟨⟨?_, ?_⟩, ?_⟩
  · simp [Tseg.cut, mAdj, hi, hlen]
  · simp only [Tseg.cut, mAdj, length_drop, hseq]
    omega
  · simp only [Tseg.cut, Tseg.piece, Piece.trim, mAdj, hseq, hi, Piece.mk.injEq, and_true]
    omega

end Tseg.Ok

/-- **The new segment** against its abstract form. -/
theorem cutFront_piece (hl : ∀ q ∈ l, q.Ok nxt) (hte : te.Ok nxt) :
    (cutFront l.getLast? te).map (Tseg.piece n nxt) = cutBefore (l.map (Tseg.piece n nxt))
        (te.piece n nxt) ∧
      ∀ q, cutFront l.getLast? te = some q → q.Ok nxt := by
  unfold cutFront cutBefore
  rw [getLast?_map]
  cases hp : l.getLast? with
  | none =>
    refine ⟨rfl, fun q hq => ?_⟩
    cases hq
    exact hte
  | some p =>
    have hpok := hl p (mem_of_getLast? hp)
    have hi := toInt_sub hpok.end_in hte.seq_in
    rw [hpok.off_end] at hi
    simp only [map_some, hte.len_toInt, hi_piece, lo_piece, Nat.add_assoc, Nat.add_le_add_iff_left,
      Nat.add_sub_add_left]
    by_cases h1 : off nxt p.seq + p.m.length ≤ off nxt te.seq
    · rw [if_neg (by omega), if_pos h1]
      refine ⟨rfl, fun q hq => ?_⟩
      cases hq
      exact hte
    · rw [if_pos (by omega), if_neg h1]
      by_cases h2 : off nxt te.seq + te.m.length ≤ off nxt p.seq + p.m.length
      · rw [if_pos (by omega), if_pos h2]
        exact ⟨rfl, fun q hq => by cases hq⟩
      · rw [if_neg (by omega), if_neg h2]
        obtain ⟨hok, hpiece⟩ := hte.cut
          (by rw [hpok.off_end]; omega) (by rw [hpok.off_end]; omega)
        refine ⟨?_, fun q hq => ?_⟩
        · rw [map_some, hpiece, hpok.off_end]
        · cases hq
          exact hok

/-- Cutting a new segment leaves its end where it is. -/
theorem cutFront_end {o : Option Tseg} (h : cutFront o te = some q) :
    q.seq + q.len = te.seq + te.len := by
  unfold cutFront at h
  split at h
  · rw [some.inj h]
  · simp only at h
    split at h
    · split_ifs at h
      rw [← some.inj h, Tseg.cut]
      ring
    · rw [some.inj h]

/-- **The loop over the segments behind** against its abstract form. -/
theorem trimSucc_piece (hl : ∀ q ∈ l, q.Ok nxt) (he : InWindow nxt e) :
    (trimSucc e l).1.map (Tseg.piece n nxt) = trimAfter (n + off nxt e) (l.map (Tseg.piece n nxt)) ∧
      (∀ q ∈ (trimSucc e l).1, q.Ok nxt) ∧
      (trimSucc e l).1.length + (trimSucc e l).2 = l.length := by
  induction l with
  | nil => simp [trimSucc, trimAfter]
  | cons q l ih =>
    have hq := hl q mem_cons_self
    have hl' : ∀ q ∈ l, q.Ok nxt := fun q hq => hl q (mem_cons_of_mem _ hq)
    obtain ⟨ih1, ih2, ih3⟩ := ih hl'
    have hi := toInt_sub he hq.seq_in
    simp only [trimSucc, map_cons, trimAfter, lo_piece, hi_piece, hq.len_toInt, Nat.add_assoc,
      Nat.add_le_add_iff_left, Nat.add_lt_add_iff_left, Nat.add_sub_add_left]
    by_cases h1 : off nxt e ≤ off nxt q.seq
    · rw [if_pos (by omega), if_pos h1]
      exact ⟨by simp, hl, by simp⟩
    · rw [if_neg (by omega), if_neg h1]
      by_cases h2 : off nxt e < off nxt q.seq + q.m.length
      · rw [if_pos (by omega), if_pos h2]
        obtain ⟨hok, hpiece⟩ := hq.cut (not_le.mp h1).le h2.le
        refine ⟨?_, ?_, by simp⟩
        · rw [map_cons, hpiece]
        · exact forall_mem_cons.mpr ⟨hok, hl'⟩
      · rw [if_neg (by omega), if_neg h2]
        exact ⟨ih1, ih2, by simp; omega⟩

/-- The search for the place of a new segment. -/
theorem takeWhile_piece (hl : ∀ q ∈ l, q.Ok nxt) (hte : te.Ok nxt) :
    ((l.takeWhile fun q => ¬ seqGt q.seq te.seq).map (Tseg.piece n nxt) =
        (l.map (Tseg.piece n nxt)).takeWhile fun a => a.lo ≤ (te.piece n nxt).lo) ∧
      ((l.dropWhile fun q => ¬ seqGt q.seq te.seq).map (Tseg.piece n nxt) =
        (l.map (Tseg.piece n nxt)).dropWhile fun a => a.lo ≤ (te.piece n nxt).lo) := by
  induction l with
  | nil => simp
  | cons q l ih =>
    have hq := hl q mem_cons_self
    obtain ⟨ih1, ih2⟩ := ih fun q hq => hl q (mem_cons_of_mem _ hq)
    simp only [map_cons, takeWhile_cons, dropWhile_cons, lo_piece,
      seqGt_iff hq.seq_in hte.seq_in, not_lt, add_le_add_iff_left]
    by_cases hle : off nxt q.seq ≤ off nxt te.seq
    · simp only [hle, decide_true, if_true]
      exact ⟨congrArg _ ih1, ih2⟩
    · simp [hle]

/-! ### Moving `rcv_nxt` -/

/-- Behind `k` more bytes, `k` of them taken off, a segment is the same piece. -/
theorem Tseg.Ok.advance {k : BitVec 32} (h : q.Ok nxt) (hk : k.toNat ≤ off nxt q.seq) :
    q.Ok (nxt + k) ∧ q.piece (n + k.toNat) (nxt + k) = q.piece n nxt := by
  have hoff := off_add_base hk
  have hfits := h.fits
  refine ⟨⟨h.len, ?_⟩, ?_⟩
  · omega
  · simp only [Tseg.piece, Piece.mk.injEq, and_true]
    omega

/-- **The loop at `present`** against its abstract form. -/
theorem presentLoop_piece (flags : Bool) (hl : ∀ q ∈ l, q.Ok nxt)
    (hs : Sorted (l.map (Tseg.piece n nxt))) : let r := presentLoop nxt flags l
    let a := present n (l.map (Tseg.piece n nxt))
    r.data = a.2.1 ∧ r.rcvNxt = nxt + BitVec.ofNat 32 (a.1 - n) ∧
      r.rest.map (Tseg.piece a.1 r.rcvNxt) = a.2.2 ∧ (∀ q ∈ r.rest, q.Ok r.rcvNxt) ∧
      r.rest.length + r.taken = l.length := by
  induction l generalizing n nxt flags with
  | nil => simp [presentLoop, present]
  | cons q l ih =>
    have hq := hl q mem_cons_self
    have hl' : ∀ e ∈ l, e.Ok nxt := fun e he => hl e (mem_cons_of_mem _ he)
    obtain ⟨hbehind, hs'⟩ := sorted_cons.mp hs
    have hcond : (q.piece n nxt).lo = n ↔ q.seq = nxt := by
      rw [lo_piece]
      constructor
      · intro h
        refine off_injective (b := nxt) ?_
        rw [off_self]
        omega
      · rintro rfl
        rw [off_self, add_zero]
    simp only [presentLoop, map_cons, present, hcond]
    split
    next heq =>
      have hhi : (q.piece n nxt).hi = n + q.len.toNat := by
        rw [hi_piece, heq, off_self, hq.len, add_zero]
      have hadv : ∀ e ∈ l, e.Ok (nxt + q.len) ∧
          e.piece (n + q.len.toNat) (nxt + q.len) = e.piece n nxt := by
        intro e he
        have hle := hbehind _ (mem_map_of_mem he)
        rw [lo_piece] at hle
        exact (hl' e he).advance (by omega)
      have hmap : l.map (Tseg.piece (n + q.len.toNat) (nxt + q.len)) = l.map (Tseg.piece n nxt) :=
        map_congr_left fun e he => (hadv e he).2
      obtain ⟨hdata, hnxt, hrest, hok, hcount⟩ := ih q.fin (fun e he => (hadv e he).1) (hmap ▸ hs')
      rw [hmap, ← hhi] at hdata hnxt hrest
      have hle := le_present (q.piece n nxt).hi (l.map (Tseg.piece n nxt))
      refine ⟨by rw [hdata]; rfl, ?_, hrest, hok, by simp; omega⟩
      have hsum : (present (q.piece n nxt).hi (l.map (Tseg.piece n nxt))).1 - n = q.len.toNat +
          ((present (q.piece n nxt).hi (l.map (Tseg.piece n nxt))).1 - (q.piece n nxt).hi) := by
        omega
      rw [hnxt, hsum, ofNat_add, ofNat_toNat, setWidth_eq, BitVec.add_assoc]
    next => exact ⟨rfl, by simp, rfl, hl, rfl⟩

end Pieces

/-! ## The state of reassembly -/

/-- A connection of which `rcvd` bytes of the stream have passed `rcv_nxt`. -/
structure Conn where
  tp : ReassCb
  rcvd : ℕ

/-- The connection after `rcv_nxt` has moved to that of `tp'`. -/
def Conn.after (c : Conn) (tp' : ReassCb) : Conn :=
  ⟨tp', c.rcvd + (tp'.rcvNxt - c.tp.rcvNxt).toNat⟩

/-- The queue as a queue of pieces of the stream. -/
def Conn.pieces (c : Conn) : List (Piece Octet Bool) := c.tp.segq.map (Tseg.piece c.rcvd c.tp.rcvNxt)

/-- The invariant of reassembly of the stream `f` that starts at `irs`. -/
structure Conn.Inv (f : ℕ → Octet) (irs : TcpSeq) (c : Conn) : Prop where
  nxt : c.tp.rcvNxt = irs + BitVec.ofNat 32 c.rcvd
  count : c.tp.segqlen = c.tp.segq.length
  ok : ∀ q ∈ c.tp.segq, q.Ok c.tp.rcvNxt
  sorted : Sorted c.pieces
  carries : ∀ a ∈ c.pieces, a.Carries f
  appended : c.tp.cantRcvMore = false → c.tp.appended = slice f 0 c.rcvd

variable {f : ℕ → Octet} {irs : TcpSeq} {c : Conn} {te : Tseg}

theorem Conn.after_self (c : Conn) : c.after c.tp = c := by simp [Conn.after]

theorem Conn.Inv.hi_le (h : c.Inv f irs) : ∀ a ∈ c.pieces, a.hi ≤ c.rcvd + 2 ^ 31 := by
  intro a ha
  obtain ⟨q, hq, rfl⟩ := mem_map.mp ha
  have := (h.ok q hq).fits
  rw [hi_piece]
  omega

/-- **Presenting data** keeps the invariant. -/
theorem presentData_inv (h : c.Inv f irs) : (c.after (presentData c.tp).1).Inv f irs := by
  unfold presentData
  split
  · have hloop := presentLoop_piece false h.ok h.sorted
    have hlo : ∀ a ∈ c.pieces, c.rcvd ≤ a.lo := by
      intro a ha
      obtain ⟨q, -, rfl⟩ := mem_map.mp ha
      exact le_add_right _ _
    obtain ⟨hslice, -⟩ := present_slice h.sorted h.carries hlo
    have hle := le_present c.rcvd c.pieces
    have hle' := present_le (n := c.rcvd) (by omega) h.hi_le
    have hsuf := present_suffix c.rcvd c.pieces
    simp only [Conn.pieces] at hslice hle hle' hsuf
    generalize present c.rcvd (c.tp.segq.map (Tseg.piece c.rcvd c.tp.rcvNxt)) = a
      at hloop hslice hle hle' hsuf
    generalize presentLoop c.tp.rcvNxt false c.tp.segq = r at hloop ⊢
    obtain ⟨hdata, hnxt, hrest, hok, hcount⟩ := hloop
    have hrcvd : c.rcvd + (r.rcvNxt - c.tp.rcvNxt).toNat = a.1 := by
      rw [hnxt, add_sub_cancel_left, toNat_ofNat]
      omega
    refine ⟨?_, ?_, hok, ?_, ?_, fun hcan => ?_⟩
    · simp only [Conn.after, hrcvd]
      rw [hnxt, h.nxt, BitVec.add_assoc, ← ofNat_add, add_sub_of_le hle]
    · have := h.count
      simp only [Conn.after]
      omega
    · simp only [Conn.pieces, Conn.after, hrcvd, hrest]
      exact h.sorted.sublist hsuf.sublist
    · simp only [Conn.pieces, Conn.after, hrcvd, hrest]
      exact fun a ha => h.carries a (hsuf.subset ha)
    · have hcan' : c.tp.cantRcvMore = false := hcan
      have happ := slice_append (f := f) (p := 0) (m := c.rcvd) (n := a.1 - c.rcvd)
      rw [zero_add, add_sub_of_le hle] at happ
      simp only [Conn.after, hrcvd, hcan', Bool.false_eq_true, if_false]
      rw [h.appended hcan', hdata, hslice, happ]
  · rwa [Conn.after_self]

/-- **The queue with a new segment** against its abstract form. -/
theorem insert_piece {n : ℕ} {nxt : TcpSeq} {l : List Tseg} (hl : ∀ q ∈ l, q.Ok nxt)
    (hte : te.Ok nxt) {q : Tseg}
    (hcut : cutFront (l.takeWhile fun q => ¬ seqGt q.seq te.seq).getLast? te = some q) :
    let t := trimSucc (q.seq + q.len) (l.dropWhile fun q => ¬ seqGt q.seq te.seq)
    let l' := (l.takeWhile fun q => ¬ seqGt q.seq te.seq) ++ q :: t.1
    place (te.piece n nxt) (l.map (Tseg.piece n nxt)) = some (l'.map (Tseg.piece n nxt)) ∧
      (∀ q ∈ l', q.Ok nxt) ∧ l'.length + t.2 = l.length + 1 := by
  have hbefore : ∀ q ∈ l.takeWhile fun q => ¬ seqGt q.seq te.seq, q.Ok nxt :=
    fun q hq => hl q ((takeWhile_sublist _).subset hq)
  have hbehind : ∀ q ∈ l.dropWhile fun q => ¬ seqGt q.seq te.seq, q.Ok nxt :=
    fun q hq => hl q ((dropWhile_sublist _).subset hq)
  obtain ⟨hmap, hqok⟩ := cutFront_piece hbefore hte
  have hq := hqok q hcut
  obtain ⟨htrim, htok, hcount⟩ := trimSucc_piece hbehind hq.end_in
  obtain ⟨htake, hdrop⟩ := takeWhile_piece hl hte
  refine ⟨?_, fun e he => ?_, ?_⟩
  · rw [place, ← htake, ← hmap, hcut, ← hdrop, map_some, map_some, map_append,
      map_cons, htrim, cutFront_end hcut, hte.off_end, hi_piece, add_assoc]
  · obtain he | he := mem_append.mp he
    · exact hbefore e he
    · obtain rfl | he := mem_cons.mp he
      · exact hq
      · exact htok e he
  · have hsplit := congrArg List.length
      (takeWhile_append_dropWhile (p := fun q => ¬ seqGt q.seq te.seq) (l := l))
    simp only [length_append, length_cons] at hsplit ⊢
    omega

/-- **A segment** keeps the invariant, whether it is queued, dropped or delivered. -/
theorem tcpReass_inv (lim : ReassLimits) (uma : Bool) (h : c.Inv f irs) (hok : te.Ok c.tp.rcvNxt)
    (hcar : (te.piece c.rcvd c.tp.rcvNxt).Carries f) :
    (c.after (tcpReass lim c.tp te uma).tp).Inv f irs := by
  unfold tcpReass
  split_ifs with h1 h2
  · rwa [Conn.after_self]
  · rwa [Conn.after_self]
  · simp only
    split
    next hnone =>
      have hc : Conn.Inv f irs ⟨{ c.tp with
          segqlen := c.tp.segqlen + 1 - 1
          qsize := c.tp.qsize + 1 - 1 }, c.rcvd⟩ :=
        ⟨h.nxt, by simpa using h.count, h.ok, h.sorted, h.carries, h.appended⟩
      exact presentData_inv hc
    next q hcut =>
      obtain ⟨hplace, hok', hcount⟩ := insert_piece h.ok hok hcut
      refine presentData_inv (c := ⟨_, c.rcvd⟩) ⟨h.nxt, ?_, hok', ?_, ?_, h.appended⟩
      · have := h.count
        simp only at hcount ⊢
        omega
      · exact place_sorted h.sorted hplace
      · exact place_forall trimmable_carries h.carries hcar h.sorted hplace

end FreeBSDSys.Tcp
