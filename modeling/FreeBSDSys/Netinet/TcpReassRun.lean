import FreeBSDSys.Lib.Reachability
import FreeBSDSys.Netinet.TcpReass

/-!
# Runs of TCP reassembly

A connection receives segments of one byte stream in any order, any number of times and cut in any
way.  Each segment lies less than `2 ^ 31` bytes behind `rcv_nxt`, where `tcp_input` has cut it, and
carries the bytes of the stream.  Nothing else is assumed: segments may be dropped by the limits or
for want of memory, the queue may be flushed, and `rcv_nxt` may go round the circle of sequence
numbers any number of times.

* `ReassStep`: what happens to a connection.
* `reassembly_correct`: the queue is in order behind `rcv_nxt`, and the socket buffer was given the
  stream up to `rcv_nxt`.
* `shut_socket_gets_nothing`, `early_segment_is_queued`: where this needs the socket to receive, and
  the segments to start behind `rcv_nxt`.

A FIN advances `rcv_nxt` outside of these functions, and ends the connection's input.
-/

namespace FreeBSDSys.Tcp

open Conn Reassembly SeqWindow BitVec

variable {f : ℕ → Octet} {irs : TcpSeq} {c c' : Conn} {te : Tseg} {lim : ReassLimits}

/-- A connection that has received nothing of a stream that starts at `irs`. -/
def ReassInit (irs : TcpSeq) (c : Conn) : Prop :=
  c.rcvd = 0 ∧ c.tp.rcvNxt = irs ∧ c.tp.segq = [] ∧ c.tp.segqlen = 0 ∧ c.tp.appended = []

/-- The segment lies in the window from `rcv_nxt` on and carries bytes of the stream `f`. -/
structure Conn.Receives (f : ℕ → Octet) (c : Conn) (te : Tseg) : Prop where
  ok : te.Ok c.tp.rcvNxt
  carries : (te.piece c.rcvd c.tp.rcvNxt).Carries f

/-- What happens to a connection that receives the stream `f`. -/
inductive ReassStep (lim : ReassLimits) (f : ℕ → Octet) : Conn → Conn → Prop
  | segment {c : Conn} {te : Tseg} (uma : Bool) (h : c.Receives f te) :
      ReassStep lim f c (c.after (tcpReass lim c.tp te uma).tp)
  | inline {c : Conn} {te : Tseg} (h : c.Receives f te) (hseq : te.seq = c.tp.rcvNxt)
      (hempty : c.tp.segq = []) (hest : c.tp.established = true) :
      ReassStep lim f c (c.after (tcpInputInline c.tp te))
  | establish (c : Conn) : ReassStep lim f c { c with tp := { c.tp with established := true } }
  | push (c : Conn) : ReassStep lim f c (c.after (tcpReassPush c.tp))
  | drain (c : Conn) : ReassStep lim f c { c with tp := tcpDrain c.tp }
  | shutdown (c : Conn) : ReassStep lim f c { c with tp := { c.tp with cantRcvMore := true } }
  | other (c : Conn) (n : ℤ) : ReassStep lim f c { c with tp := { c.tp with qsize := n } }

theorem ReassInit.inv (h : ReassInit irs c) : c.Inv f irs := by
  obtain ⟨hrcvd, hnxt, hnil, hlen, happ⟩ := h
  refine ⟨?_, ?_, ?_, ?_, ?_, fun _ => ?_⟩
  · simp [hrcvd, hnxt]
  · simp [hnil, hlen]
  · simp [hnil]
  · simp [pieces, hnil, Sorted]
  · simp [pieces, hnil]
  · simp [happ, hrcvd]

/-- The next segment in order is passed on at once. -/
theorem tcpInputInline_inv (h : c.Inv f irs) (hr : c.Receives f te) (hseq : te.seq = c.tp.rcvNxt)
    (hempty : c.tp.segq = []) : (c.after (tcpInputInline c.tp te)).Inv f irs := by
  have hlen := hr.ok.len
  have hrcvd : c.rcvd + (c.tp.rcvNxt + te.len - c.tp.rcvNxt).toNat = c.rcvd + te.m.length := by
    rw [add_sub_cancel_left, hlen]
  have hdata : te.m = slice f c.rcvd te.m.length := by
    have := hr.carries
    rwa [Piece.Carries, lo_piece, hseq, off_self, Nat.add_zero] at this
  refine ⟨?_, h.count, ?_, ?_, ?_, fun hcan => ?_⟩
  · simp only [after, tcpInputInline, hrcvd]
    rw [h.nxt, ← hlen, ofNat_add, ofNat_toNat, setWidth_eq, add_assoc]
  · simp [after, tcpInputInline, hempty]
  · simp [after, tcpInputInline, pieces, hempty, Sorted]
  · simp [after, tcpInputInline, pieces, hempty]
  · have hcan' : c.tp.cantRcvMore = false := hcan
    simp only [after, tcpInputInline, hrcvd, hcan', Bool.false_eq_true, if_false]
    have happ := slice_append (f := f) (p := 0) (m := c.rcvd) (n := te.m.length)
    rw [Nat.zero_add, ← hdata] at happ
    rw [h.appended hcan', happ]

/-- **Every step keeps the invariant.** -/
theorem ReassStep.inv (hs : ReassStep lim f c c') (h : c.Inv f irs) : c'.Inv f irs := by
  cases hs with
  | segment uma hr => exact tcpReass_inv lim uma h hr.ok hr.carries
  | inline hr hseq hempty _ => exact tcpInputInline_inv h hr hseq hempty
  | push => exact presentData_inv h
  | establish | other n => exact ⟨h.nxt, h.count, h.ok, h.sorted, h.carries, h.appended⟩
  | drain =>
    refine ⟨h.nxt, ?_, ?_, ?_, ?_, h.appended⟩
    · simp [tcpDrain, h.count]
    · simp [tcpDrain]
    · simp [tcpDrain, pieces, Sorted]
    · simp [tcpDrain, pieces]
  | shutdown => exact ⟨h.nxt, h.count, h.ok, h.sorted, h.carries, fun hcan => by cases hcan⟩

theorem reassInv_of_reachable (h : Reachable (ReassInit irs) (ReassStep lim f) c) : c.Inv f irs :=
  h.invariant (fun _ hi => hi.inv) fun _ _ hi hs => hs.inv hi

/-- **TCP reassembly is correct** in every reachable state: the queue is sorted by sequence number,
its segments do not overlap and none starts before `rcv_nxt`, `t_segqlen` is its length, and as long
as the socket receives, its buffer was given exactly the bytes of the stream up to `rcv_nxt`. -/
theorem reassembly_correct (lim : ReassLimits) (f : ℕ → Octet) (irs : TcpSeq) (c : Conn)
    (h : Reachable (ReassInit irs) (ReassStep lim f) c) :
    (c.tp.segq.Pairwise fun p q => seqLeq p.seq q.seq ∧ seqLeq (p.seq + p.len) q.seq) ∧
    (∀ q ∈ c.tp.segq, seqGeq q.seq c.tp.rcvNxt) ∧
    c.tp.segqlen = c.tp.segq.length ∧
    c.tp.rcvNxt = irs + BitVec.ofNat 32 c.rcvd ∧
    (c.tp.cantRcvMore = false → c.tp.appended = slice f 0 c.rcvd) := by
  have hi := reassInv_of_reachable h
  have hnxt : InWindow c.tp.rcvNxt c.tp.rcvNxt := by
    rw [InWindow, off_self]
    decide
  refine ⟨?_, fun q hq => ?_, hi.count, hi.nxt, hi.appended⟩
  · refine (List.pairwise_map.mp hi.sorted).imp_of_mem fun {p q} hp hq hle => ?_
    have hpok := hi.ok p hp
    have hqok := hi.ok q hq
    rw [hi_piece, lo_piece] at hle
    refine ⟨(seqLeq_iff hpok.seq_in hqok.seq_in).mpr (by omega),
      (seqLeq_iff hpok.end_in hqok.seq_in).mpr ?_⟩
    rw [hpok.off_end]
    omega
  · rw [seqGeq_iff (hi.ok q hq).seq_in hnxt, off_self]
    exact Nat.zero_le _

/-! ## Runs

Three segments of a stream that starts two bytes before the wrap arrive from back to front; the
second overlaps the first, and the third fills the gap. -/

/-- A stream that counts. -/
def counting (n : ℕ) : Octet := BitVec.ofNat 8 n

/-- An established connection before the first byte of a stream that starts at `irs`. -/
def freshConn (irs : TcpSeq) : Conn := ⟨⟨irs, true, [], 0, 0, false, []⟩, 0⟩

def lastFirst : Conn :=
  (freshConn 0xfffffffe).after
    (tcpReass ⟨100, 48⟩ (freshConn 0xfffffffe).tp ⟨2, false, 4, [4, 5, 6, 7]⟩ true).tp

def thenOverlap : Conn :=
  lastFirst.after (tcpReass ⟨100, 48⟩ lastFirst.tp ⟨0, false, 4, [2, 3, 4, 5]⟩ true).tp

def thenGap : Conn :=
  thenOverlap.after (tcpReass ⟨100, 48⟩ thenOverlap.tp ⟨0xfffffffe, false, 3, [0, 1, 2]⟩ true).tp

theorem thenGap_reachable :
    Reachable (ReassInit 0xfffffffe) (ReassStep ⟨100, 48⟩ counting) thenGap := by
  have h0 : Reachable (ReassInit 0xfffffffe) (ReassStep ⟨100, 48⟩ counting)
      (freshConn 0xfffffffe) := .of_init ⟨rfl, rfl, rfl, rfl, rfl⟩
  have h1 : Reachable (ReassInit 0xfffffffe) (ReassStep ⟨100, 48⟩ counting) lastFirst :=
    h0.tail (.segment true ⟨⟨by decide, by decide⟩, by decide⟩)
  have h2 : Reachable (ReassInit 0xfffffffe) (ReassStep ⟨100, 48⟩ counting) thenOverlap :=
    h1.tail (.segment true ⟨⟨by decide, by decide⟩, by decide⟩)
  exact h2.tail (.segment true ⟨⟨by decide, by decide⟩, by decide⟩)

theorem reassembly_correct_thenGap :
    thenOverlap.tp.segq = [⟨0, false, 4, [2, 3, 4, 5]⟩, ⟨4, false, 2, [6, 7]⟩] ∧
    thenGap.tp.rcvNxt = 0xfffffffe + BitVec.ofNat 32 thenGap.rcvd ∧
    thenGap.tp.appended = slice counting 0 thenGap.rcvd ∧ thenGap.rcvd = 8 :=
  have h := reassembly_correct ⟨100, 48⟩ counting 0xfffffffe thenGap thenGap_reachable
  ⟨by decide, h.2.2.2.1, h.2.2.2.2 rfl, by decide⟩

/-- After the receiving side of the socket was shut down. -/
def shutConn : Conn :=
  { freshConn 1000 with tp := { (freshConn 1000).tp with cantRcvMore := true } }

def shutReceived : Conn :=
  shutConn.after (tcpReass ⟨100, 48⟩ shutConn.tp ⟨1000, false, 2, [0, 1]⟩ true).tp

/-- **A socket that is shut down gets nothing**: `rcv_nxt` advances over the data all the same. -/
theorem shut_socket_gets_nothing :
    Reachable (ReassInit 1000) (ReassStep ⟨100, 48⟩ counting) shutReceived ∧
    shutReceived.tp.rcvNxt = 1002 ∧ shutReceived.rcvd = 2 ∧ shutReceived.tp.appended = [] := by
  have h0 : Reachable (ReassInit 1000) (ReassStep ⟨100, 48⟩ counting) (freshConn 1000) :=
    .of_init ⟨rfl, rfl, rfl, rfl, rfl⟩
  have h1 : Reachable (ReassInit 1000) (ReassStep ⟨100, 48⟩ counting) shutConn :=
    h0.tail (.shutdown _)
  exact ⟨h1.tail (.segment true ⟨⟨by decide, by decide⟩, by decide⟩), by decide, by decide,
    by decide⟩

/-- **A segment that starts before `rcv_nxt`** would be queued as it is; it is `tcp_input` that cuts
such segments. -/
theorem early_segment_is_queued :
    (tcpReass ⟨100, 48⟩ (freshConn 1000).tp ⟨999, false, 3, [9, 0, 1]⟩ true).tp.segq =
      [⟨999, false, 3, [9, 0, 1]⟩] := by
  decide

end FreeBSDSys.Tcp
