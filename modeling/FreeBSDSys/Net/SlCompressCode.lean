import FreeBSDSys.Net.SlCompress

/-!
# What the receiver makes of the changes

The receiver reads each number that the sender has written, and the header it makes of the last one
and the changes has all fields of the packet but three: the reserved bits and the two congestion
bits are those of the last header, and in the two special cases the urgent bit is not cleared.

* `decode_encode`, `decode_encodez`: the coding of numbers.
* `sendDeltas_cases`: the special cases, and the others.
* `recvDeltas_sendDeltas`: the changes to the TCP header.
* `recvChanges_eq`, `finish_changed`: the header the receiver makes.
* `restored_eq_iff`: when it is that of the packet.
-/

namespace FreeBSDSys.SlCompress

open BitVec Hdr

variable {th oth b : Hdr} {low : BitVec 4} {newSeq rest : List (BitVec 8)} {n : BitVec 16}

/-! ## Numbers -/

theorem append_halves (n : BitVec 16) : ((n >>> 8).setWidth 8 ++ n.setWidth 8 : BitVec 16) = n := by
  ext i hi
  rw [getElem_append]
  split
  · rw [getElem_setWidth, getLsbD_eq_getElem]
  · simp only [getElem_setWidth, getLsbD_ushiftRight]
    rw [Nat.add_sub_cancel' (by omega), getLsbD_eq_getElem]

theorem decode_long (n : BitVec 16) (rest : List (BitVec 8)) :
    decode ([0#8, (n >>> 8).setWidth 8, n.setWidth 8] ++ rest) = some (n, rest) := by
  change some (((n >>> 8).setWidth 8 ++ n.setWidth 8 : BitVec 16), rest) = some (n, rest)
  rw [append_halves]

theorem decode_short (hlt : n.toNat < 256) (hne : n ≠ 0#16)
    (rest : List (BitVec 8)) : decode ([n.setWidth 8] ++ rest) = some (n, rest) := by
  have hpos : n.toNat ≠ 0 := fun h => hne (eq_of_toNat_eq h)
  have hb : n.setWidth 8 ≠ 0#8 := by
    intro h
    have := congrArg BitVec.toNat h
    rw [toNat_setWidth, toNat_ofNat] at this
    omega
  have hn : (n.setWidth 8).setWidth 16 = n := by
    apply eq_of_toNat_eq
    rw [toNat_setWidth, toNat_setWidth]
    omega
  change (if n.setWidth 8 = 0#8 then _ else some ((n.setWidth 8).setWidth 16, rest)) = _
  rw [if_neg hb, hn]

theorem decode_encode (hne : n ≠ 0#16) (rest : List (BitVec 8)) :
    decode (encode n ++ rest) = some (n, rest) := by
  rw [encode]
  split
  · exact decode_long n rest
  · exact decode_short (by omega) hne rest

theorem decode_encodez (n : BitVec 16) (rest : List (BitVec 8)) :
    decode (encodez n ++ rest) = some (n, rest) := by
  rw [encodez]
  split
  · exact decode_long n rest
  · rename_i h
    exact decode_short (by omega) (fun hzero => h (.inr hzero)) rest

/-- A difference that fits into 16 bits is added back. -/
theorem add_setWidth_sub {x y : BitVec 32} (h : ¬x - y > 0xffff#32) :
    y + ((x - y).setWidth 16).setWidth 32 = x := by
  have hle : (x - y).toNat ≤ 65535 := by
    have := Nat.le_of_not_lt fun hlt => h (BitVec.lt_def.mpr hlt)
    exact this
  have hsame : ((x - y).setWidth 16).setWidth 32 = x - y := by
    apply eq_of_toNat_eq
    rw [toNat_setWidth, toNat_setWidth]
    omega
  rw [hsame, BitVec.add_comm, sub_add_cancel]

theorem eq_of_sub_eq_zero {w : ℕ} {x y : BitVec w} (h : x - y = 0#w) : x = y := by
  rw [← BitVec.sub_add_cancel x y, h, BitVec.zero_add]

theorem sub_bne_zero_false {w : ℕ} {x y : BitVec w} : (x - y != 0#w) = false ↔ x = y := by
  rw [bne_eq_false_iff_eq]
  refine ⟨eq_of_sub_eq_zero, fun h => ?_⟩
  rw [h, BitVec.sub_self]

/-! ## The bits of the first octet -/

theorem lowBits_getLsbD (s a w u : Bool) :
    (lowBits s a w u).getLsbD 0 = u ∧ (lowBits s a w u).getLsbD 1 = w ∧
      (lowBits s a w u).getLsbD 2 = a ∧ (lowBits s a w u).getLsbD 3 = s := by
  revert s a w u
  decide

theorem lowBits_inj {s a w u s' a' w' u' : Bool} (h : lowBits s a w u = lowBits s' a' w' u') :
    s = s' ∧ a = a' ∧ w = w' ∧ u = u' := by
  obtain ⟨hu, hw, ha, hs⟩ := lowBits_getLsbD s a w u
  obtain ⟨hu', hw', ha', hs'⟩ := lowBits_getLsbD s' a' w' u'
  rw [h] at hu hw ha hs
  exact ⟨hs.symm.trans hs', ha.symm.trans ha', hw.symm.trans hw', hu.symm.trans hu'⟩

/-- Without the urgent bit the bits are not one of the special combinations. -/
theorem lowBitsOf_ne {s a w : Bool} (hu : th.thFlags.urg = false) :
    lowBitsOf th oth ≠ lowBits s a w true := fun heq =>
  absurd (hu.symm.trans (lowBits_inj heq).2.2.2) Bool.false_ne_true

theorem changesByte_getLsbD (c i push : Bool) (low : BitVec 4) :
    (changesByte c i push low).getLsbD 6 = c ∧ (changesByte c i push low).getLsbD 5 = i ∧
      (changesByte c i push low).getLsbD 4 = push ∧
      (changesByte c i push low).setWidth 4 = low := by
  revert c i push low
  decide

/-! ## The TCP header -/

/-- The urgent pointer. -/
theorem recvU_eq (hurg : th.thFlags.urg = false → th.thUrp = b.thUrp) (rest : List (BitVec 8)) :
    recvU th.thFlags.urg b ((if th.thFlags.urg then encodez th.thUrp else []) ++ rest) =
      some ({ b with thFlags := { b.thFlags with urg := th.thFlags.urg }, thUrp := th.thUrp },
        rest) := by
  cases hu : th.thFlags.urg with
  | true =>
    rw [if_pos rfl, recvU, if_pos rfl, decode_encodez]
  | false =>
    rw [if_neg Bool.false_ne_true, hurg hu]
    rfl

/-- The window. -/
theorem recvW_eq {old win : BitVec 16} (hold : b.thWin = old) (rest : List (BitVec 8)) :
    recvW (win - old != 0#16) b ((if win - old != 0#16 then encode (win - old) else []) ++ rest) =
      some ({ b with thWin := win }, rest) := by
  subst hold
  by_cases h : win - b.thWin = 0#16
  · have hwin : win = b.thWin := eq_of_sub_eq_zero h
    rw [h, bne_self_eq_false, if_neg Bool.false_ne_true, hwin]
    rfl
  · rw [bne_iff_ne.mpr h, if_pos rfl, recvW, if_pos rfl, decode_encode h]
    dsimp only
    rw [BitVec.add_comm, sub_add_cancel]

/-- A number of 32 bits that has grown by less than `2 ^ 16`, and the octets for it. -/
theorem decode_delta {x y : BitVec 32} (hle : ¬x - y > 0xffff#32) (hne : x - y ≠ 0#32)
    (rest : List (BitVec 8)) :
    decode (encode ((x - y).setWidth 16) ++ rest) = some ((x - y).setWidth 16, rest) := by
  refine decode_encode (fun hzero => hne ?_) rest
  have hadd := add_setWidth_sub hle
  rw [hzero] at hadd
  have hxy : y = x := by
    rw [← hadd]
    exact (BitVec.add_zero y).symm
  rw [hxy, BitVec.sub_self]

theorem recvA_eq {old ack : BitVec 32} (hold : b.thAck = old) (hle : ¬ack - old > 0xffff#32)
    (rest : List (BitVec 8)) :
    recvA (ack - old != 0#32) b
      ((if ack - old != 0#32 then encode ((ack - old).setWidth 16) else []) ++ rest) =
      some ({ b with thAck := ack }, rest) := by
  subst hold
  by_cases h : ack - b.thAck = 0#32
  · have hack : ack = b.thAck := eq_of_sub_eq_zero h
    rw [h, bne_self_eq_false, if_neg Bool.false_ne_true, hack]
    rfl
  · rw [bne_iff_ne.mpr h, if_pos rfl, recvA, if_pos rfl, decode_delta hle h]
    dsimp only
    rw [add_setWidth_sub hle]

theorem recvS_eq {old seq : BitVec 32} (hold : b.thSeq = old) (hle : ¬seq - old > 0xffff#32)
    (rest : List (BitVec 8)) :
    recvS (seq - old != 0#32) b
      ((if seq - old != 0#32 then encode ((seq - old).setWidth 16) else []) ++ rest) =
      some ({ b with thSeq := seq }, rest) := by
  subst hold
  by_cases h : seq - b.thSeq = 0#32
  · have hseq : seq = b.thSeq := eq_of_sub_eq_zero h
    rw [h, bne_self_eq_false, if_neg Bool.false_ne_true, hseq]
    rfl
  · rw [bne_iff_ne.mpr h, if_pos rfl, recvS, if_pos rfl, decode_delta hle h]
    dsimp only
    rw [add_setWidth_sub hle]

/-- The special cases: the sequence number, or it and the acknowledgement, have grown by the length
of the data of the packet before, and nothing else has changed. -/
def SpecialCase (oth th : Hdr) : Prop :=
  th.thFlags.urg = false ∧ th.thWin = oth.thWin ∧ th.thSeq - oth.thSeq ≠ 0#32 ∧
    th.thSeq - oth.thSeq = dataLen oth th.hlen ∧
    (th.thAck = oth.thAck ∨ th.thAck - oth.thAck = th.thSeq - oth.thSeq)

instance : Decidable (SpecialCase oth th) := by
  unfold SpecialCase
  infer_instance

/-- **The changes that are sent.**  They fit, and are written out or are one of the special cases.
-/
theorem sendDeltas_cases (h : sendDeltas th oth = some (low, newSeq)) :
    (th.thFlags.urg = false → th.thUrp = oth.thUrp) ∧ ¬th.thAck - oth.thAck > 0xffff#32 ∧
      ¬th.thSeq - oth.thSeq > 0xffff#32 ∧
      ((SpecialCase oth th ∧ newSeq = [] ∧ th.thAck - oth.thAck = th.thSeq - oth.thSeq ∧
          low = specialI) ∨
        (SpecialCase oth th ∧ newSeq = [] ∧ th.thAck = oth.thAck ∧ low = specialD) ∨
        (¬SpecialCase oth th ∧ newSeq = newSeqOf th oth ∧ low = lowBitsOf th oth ∧
          low ≠ specialI ∧ low ≠ specialD)) := by
  rw [sendDeltas, Option.ite_none_left_eq_some, Option.ite_none_left_eq_some,
    Option.ite_none_left_eq_some] at h
  obtain ⟨hurg, hA, hS, h⟩ := h
  refine ⟨fun hu => ?_, hA, hS, ?_⟩
  · by_contra hne
    exact hurg ⟨by rw [hu]; rfl, hne⟩
  split at h
  · -- nothing has changed but the length
    rename_i hs _ _ hu
    split_ifs at h
    cases h
    exact .inr (.inr ⟨fun hcase => hcase.2.2.1 (bne_eq_false_iff_eq.mp hs), rfl, rfl,
      lowBitsOf_ne hu, lowBitsOf_ne hu⟩)
  · cases h
  · cases h
  · -- the sequence number and the acknowledgement
    rename_i hs ha hw hu
    split_ifs at h with hcond
    · cases h
      exact .inl ⟨⟨hu, sub_bne_zero_false.mp hw, bne_iff_ne.mp hs, hcond.2, .inr hcond.1.symm⟩,
        rfl, hcond.1.symm, rfl⟩
    · cases h
      refine .inr (.inr ⟨fun hcase => hcond ⟨?_, hcase.2.2.2.1⟩, rfl, rfl, lowBitsOf_ne hu,
        lowBitsOf_ne hu⟩)
      refine (hcase.2.2.2.2.resolve_left fun hack => ?_).symm
      rw [sub_bne_zero_false.mpr hack] at ha
      cases ha
  · -- the sequence number alone
    rename_i hs ha hw hu
    have hack := sub_bne_zero_false.mp ha
    split_ifs at h with hcond
    · cases h
      exact .inr (.inl ⟨⟨hu, sub_bne_zero_false.mp hw, bne_iff_ne.mp hs, hcond, .inl hack⟩, rfl,
        hack, rfl⟩)
    · cases h
      exact .inr (.inr ⟨fun hcase => hcond hcase.2.2.2.1, rfl, rfl, lowBitsOf_ne hu,
        lowBitsOf_ne hu⟩)
  · -- the other combinations
    rename_i hI hD hSA hSo
    cases h
    refine .inr (.inr ⟨fun hcase => ?_, rfl, rfl, fun heq => ?_, fun heq => ?_⟩)
    · have hw := sub_bne_zero_false.mpr hcase.2.1
      have hs := bne_iff_ne.mpr hcase.2.2.1
      cases ha : (th.thAck - oth.thAck != 0#32) with
      | false => exact hSo hs ha hw hcase.1
      | true => exact hSA hs ha hw hcase.1
    · obtain ⟨hs, ha, hw, hu⟩ := lowBits_inj heq
      exact hI hs ha hw hu
    · obtain ⟨hs, ha, hw, hu⟩ := lowBits_inj heq
      exact hD hs ha hw hu

theorem bind_of_eq {α β : Type} {x : Option α} {f : α → Option β} {v : α} (h : x = some v) :
    (x >>= f) = f v := by
  rw [h]
  rfl

/-- **The changes to the TCP header.**  The numbers are those of the packet.  The urgent bit is set
right when the changes are written out; in the special cases it stays. -/
theorem recvDeltas_sendDeltas (oth : Hdr) (h : sendDeltas th oth = some (low, newSeq))
    (hlen : th.hlen = oth.hlen) (rest : List (BitVec 8)) :
    recvDeltas low oth (newSeq ++ rest) = some ({ oth with
      thSeq := th.thSeq
      thAck := th.thAck
      thWin := th.thWin
      thUrp := th.thUrp
      thFlags := { oth.thFlags with
        urg := if SpecialCase oth th then oth.thFlags.urg else th.thFlags.urg } }, rest) := by
  obtain ⟨hurg, hA, hS, hcases⟩ := sendDeltas_cases h
  have hback : ∀ x y : BitVec 32, y + (x - y) = x := by
    intro x y
    rw [BitVec.add_comm, sub_add_cancel]
  rcases hcases with ⟨hcase, rfl, hsame, rfl⟩ | ⟨hcase, rfl, hack, rfl⟩ | ⟨hno, rfl, rfl, hI, hD⟩
  · obtain ⟨hu, hwin, -, hlenS, -⟩ := id hcase
    rw [recvDeltas, if_pos rfl, if_pos hcase, ← hlen, ← hlenS, hurg hu, hwin]
    rw [hback, ← hsame, hback, List.nil_append]
  · obtain ⟨hu, hwin, -, hlenS, -⟩ := id hcase
    rw [recvDeltas, if_neg (by decide), if_pos rfl, if_pos hcase, ← hlen, ← hlenS, hurg hu, hwin,
      hack]
    rw [hback, List.nil_append]
  · rw [recvDeltas, if_neg hI, if_neg hD, if_neg hno]
    obtain ⟨hu, hw, ha, hs⟩ := lowBits_getLsbD (th.thSeq - oth.thSeq != 0#32)
      (th.thAck - oth.thAck != 0#32) (th.thWin - oth.thWin != 0#16) th.thFlags.urg
    rw [lowBitsOf, hu, hw, ha, hs, newSeqOf, List.append_assoc, List.append_assoc,
      List.append_assoc]
    -- each number is read into the header made so far
    refine (bind_of_eq (recvU_eq hurg _)).trans ?_
    refine (bind_of_eq (recvW_eq (by rfl) _)).trans ?_
    refine (bind_of_eq (recvA_eq (by rfl) hA _)).trans ?_
    exact recvS_eq (by rfl) hS rest

/-! ## The whole header -/

/-- The identification. -/
theorem recvI_eq {old id : BitVec 16} (hold : b.ipId = old) (rest : List (BitVec 8)) :
    recvI (id.setWidth 32 - old.setWidth 32 != 1#32) b
      ((if id.setWidth 32 - old.setWidth 32 != 1#32 then
        encodez ((id.setWidth 32 - old.setWidth 32).setWidth 16) else []) ++ rest) =
      some ({ b with ipId := id }, rest) := by
  subst hold
  have hnarrow : (id.setWidth 32 - b.ipId.setWidth 32).setWidth 16 = id - b.ipId := by
    apply eq_of_toNat_eq
    rw [toNat_setWidth, toNat_sub, toNat_sub, toNat_setWidth, toNat_setWidth]
    omega
  by_cases h : id.setWidth 32 - b.ipId.setWidth 32 = 1#32
  · have hnext : b.ipId + 1#16 = id := by
      rw [h] at hnarrow
      have hone : id - b.ipId = 1#16 := hnarrow.symm
      rw [← hone, BitVec.add_comm, sub_add_cancel]
    rw [h, bne_self_eq_false, recvI, hnext]
    rfl
  · rw [bne_iff_ne.mpr h, if_pos rfl, recvI, if_pos rfl, decode_encodez]
    dsimp only
    rw [hnarrow, BitVec.add_comm, sub_add_cancel]

/-- The two headers are of one connection, and both are of the kind that is compressed. -/
structure SameConnection (oth th : Hdr) : Prop where
  src : th.ipSrc = oth.ipSrc
  dst : th.ipDst = oth.ipDst
  sport : th.thSport = oth.thSport
  dport : th.thDport = oth.thDport
  fin : th.thFlags.fin = oth.thFlags.fin
  syn : th.thFlags.syn = oth.thFlags.syn
  rst : th.thFlags.rst = oth.thFlags.rst
  ack : th.thFlags.ack = oth.thFlags.ack

/-- The header that the receiver makes of the last one and a compressed packet. -/
def restored (oth th : Hdr) : Hdr :=
  { th with
    thX2 := oth.thX2
    thFlags := { th.thFlags with
      urg := if SpecialCase oth th then oth.thFlags.urg else th.thFlags.urg
      ece := oth.thFlags.ece
      cwr := oth.thFlags.cwr } }

/-- A packet whose lengths and header checksum are right, with the headers in the first mbuf. -/
structure WellFormed (m : Packet) : Prop where
  ipOpts_le : m.hdr.ipOpts.length ≤ 10
  thOpts_le : m.hdr.thOpts.length ≤ 10
  proto : m.hdr.ipP = ipprotoTcp
  len : m.hdr.ipLen.toNat = m.hdr.hlen + m.data.length
  sum : m.hdr.ipSum = ipCksum m.hdr
  header : m.hdr.hlen ≤ m.mLen

/-- What a compressed packet has behind the connection number. -/
def body (th oth : Hdr) (newSeq data : List (BitVec 8)) : List (BitVec 8) :=
  (th.thSum >>> 8).setWidth 8 :: th.thSum.setWidth 8 ::
    (newSeq ++ (if th.ipId.setWidth 32 - oth.ipId.setWidth 32 != 1#32 then
      encodez ((th.ipId.setWidth 32 - oth.ipId.setWidth 32).setWidth 16) else []) ++ data)

theorem agrees_iff : agrees th oth = true ↔ th.ipV = oth.ipV ∧ th.ipTos = oth.ipTos ∧
    th.ipOff = oth.ipOff ∧ th.ipTtl = oth.ipTtl ∧ th.ipP = oth.ipP ∧ th.ipOpts = oth.ipOpts ∧
    th.thOpts = oth.thOpts := by
  simp only [agrees, Bool.and_eq_true, decide_eq_true_eq]
  constructor
  · rintro ⟨⟨⟨⟨⟨⟨⟨⟨hv, -⟩, ht⟩, ho⟩, htt⟩, hp⟩, -⟩, hi⟩, hto⟩
    exact ⟨hv, ht, ho, htt, hp, hi, hto⟩
  · rintro ⟨hv, ht, ho, htt, hp, hi, hto⟩
    have hhl : th.ipHl = oth.ipHl := by rw [ipHl, ipHl, hi]
    have hoff : th.thOff = oth.thOff := by rw [thOff, thOff, hto]
    exact ⟨⟨⟨⟨⟨⟨⟨⟨hv, hhl⟩, ht⟩, ho⟩, htt⟩, hp⟩, hoff⟩, hi⟩, hto⟩

/-- The last header with the changes. -/
def changed (oth th : Hdr) : Hdr :=
  { oth with
    ipId := th.ipId
    thSeq := th.thSeq
    thAck := th.thAck
    thWin := th.thWin
    thUrp := th.thUrp
    thSum := th.thSum
    thFlags := { oth.thFlags with
      push := th.thFlags.push
      urg := if SpecialCase oth th then oth.thFlags.urg else th.thFlags.urg } }

/-- The changes are read. -/
theorem recvChanges_eq (hagree : agrees th oth = true)
    (hsend : sendDeltas th oth = some (low, newSeq)) (c : Bool) (data : List (BitVec 8)) :
    recvChanges (changesByte c (th.ipId.setWidth 32 - oth.ipId.setWidth 32 != 1#32)
      th.thFlags.push low) oth (body th oth newSeq data) = some (changed oth th, data) := by
  obtain ⟨-, -, -, -, -, hi, hto⟩ := agrees_iff.mp hagree
  obtain ⟨-, hbI, hbP, hblow⟩ := changesByte_getLsbD c
    (th.ipId.setWidth 32 - oth.ipId.setWidth 32 != 1#32) th.thFlags.push low
  have hlen : th.hlen = oth.hlen := by
    rw [hlen, hlen, ipHl, ipHl, thOff, thOff, hi, hto]
  rw [body, recvChanges, hbI, hbP, hblow, append_halves, List.append_assoc]
  refine (bind_of_eq (recvDeltas_sendDeltas { oth with
    thSum := th.thSum
    thFlags := { oth.thFlags with push := th.thFlags.push } } hsend hlen _)).trans ?_
  exact recvI_eq (by rfl) data

/-- The words of the IP header do not depend on the TCP header. -/
theorem ipCksum_congr {h : Hdr} (hv : h.ipV = th.ipV) (ht : h.ipTos = th.ipTos)
    (hl : h.ipLen = th.ipLen) (hid : h.ipId = th.ipId) (ho : h.ipOff = th.ipOff)
    (htt : h.ipTtl = th.ipTtl) (hp : h.ipP = th.ipP) (hs : h.ipSrc = th.ipSrc)
    (hd : h.ipDst = th.ipDst) (hi : h.ipOpts = th.ipOpts) : ipCksum h = ipCksum th := by
  rw [ipCksum, ipCksum, ipWords, ipWords, ipHl, ipHl, hv, ht, hl, hid, ho, htt, hp, hs, hd, hi]

/-- **The header the receiver makes** of a compressed packet: the length and the checksum are
computed. -/
theorem finish_changed {m : Packet} (hwf : WellFormed m) (hsame : SameConnection oth m.hdr)
    (hagree : agrees m.hdr oth = true) :
    finish (changed oth m.hdr) m.data.length = restored oth m.hdr := by
  obtain ⟨hv, ht, ho, htt, hp, hi, hto⟩ := agrees_iff.mp hagree
  have hlen : (changed oth m.hdr).hlen = m.hdr.hlen := by
    rw [hlen, hlen, ipHl, ipHl, thOff, thOff, hi, hto]
    rfl
  have htotal : BitVec.ofNat 16 (m.data.length + (changed oth m.hdr).hlen) = m.hdr.ipLen := by
    rw [hlen, Nat.add_comm, ← hwf.len, ofNat_toNat, setWidth_eq]
  have hsum : ipCksum { changed oth m.hdr with
      ipLen := BitVec.ofNat 16 (m.data.length + (changed oth m.hdr).hlen) } = m.hdr.ipSum := by
    rw [hwf.sum]
    exact ipCksum_congr hv.symm ht.symm htotal rfl ho.symm htt.symm hp.symm hsame.src.symm
      hsame.dst.symm hi.symm
  have hflags : (changed oth m.hdr).thFlags = (restored oth m.hdr).thFlags :=
    TcpFlags.ext hsame.fin.symm hsame.syn.symm hsame.rst.symm rfl hsame.ack.symm rfl rfl rfl
  exact Hdr.ext hv.symm ht.symm htotal rfl ho.symm htt.symm hp.symm hsum hsame.src.symm
    hsame.dst.symm hi.symm hsame.sport.symm hsame.dport.symm rfl rfl rfl hflags rfl rfl rfl hto.symm

/-- The packet before had the bits that are not sent. -/
def Faithful (oth th : Hdr) : Prop :=
  th.thX2 = oth.thX2 ∧ th.thFlags.ece = oth.thFlags.ece ∧ th.thFlags.cwr = oth.thFlags.cwr ∧
    (SpecialCase oth th → oth.thFlags.urg = false)

/-- The header is restored exactly when the bits that are not sent are those of the last one. -/
theorem restored_eq_iff : restored oth th = th ↔ Faithful oth th := by
  have hurg : (if SpecialCase oth th then oth.thFlags.urg else th.thFlags.urg) = th.thFlags.urg ↔
      (SpecialCase oth th → oth.thFlags.urg = false) := by
    split
    · rename_i hcase
      rw [hcase.1]
      exact ⟨fun h _ => h, fun h => h hcase⟩
    · rename_i hno
      exact ⟨fun _ hcase => absurd hcase hno, fun _ => rfl⟩
  constructor
  · intro h
    have hflags : (restored oth th).thFlags = th.thFlags := congrArg thFlags h
    exact ⟨(congrArg thX2 h).symm, (congrArg TcpFlags.ece hflags).symm,
      (congrArg TcpFlags.cwr hflags).symm, hurg.mp (congrArg TcpFlags.urg hflags)⟩
  · rintro ⟨hx, hece, hcwr, hcase⟩
    rw [restored, hurg.mpr hcase, ← hx, ← hece, ← hcwr]

end FreeBSDSys.SlCompress
