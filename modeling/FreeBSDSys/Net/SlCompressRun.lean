import FreeBSDSys.Net.SlCompressCode

/-!
# A serial line with header compression

Packets go through the sender and, in order and without loss, through the receiver.  As long as
every header is restored exactly, the two sides have the same header for each connection number, and
the receiver knows the number that a packet leaves out.

A packet that goes compressed is restored exactly when the bits that are not sent are those of the
last header of its connection: the reserved bits and the two congestion bits, and in the special
cases the urgent bit.

* `locate_perm`, `locate_saved`: the state that is used.
* `Synced.step`: one packet, sent in any of the three ways.
* `Sendable.of_sendDeltas`: which packets go compressed.
* `slcompress_lossless`: every packet is restored exactly when every packet that goes compressed
  has the bits that are not sent as the last packet of its connection.
-/

namespace FreeBSDSys.SlCompress

open Function List

variable {th oth h : Hdr} {m : Packet} {comp : SlComp} {r : SlRecv} {cid found : Bool} {n id w : ℕ}
  {states others : List CState} {cs : CState} {low : BitVec 4} {newSeq cp : List (BitVec 8)}
  {changes : BitVec 8}

/-! ## The order of the states -/

theorem takeState_some {p : CState → Bool} (h : takeState p states = some (cs, others)) :
    (cs :: others).Perm states ∧ p cs = true := by
  induction states generalizing cs others with
  | nil => cases h
  | cons c rest ih =>
    rw [takeState] at h
    split at h
    · rename_i hp
      cases h
      exact ⟨Perm.refl _, hp⟩
    · split at h
      · cases h
      · rename_i c' others' heq
        obtain ⟨rfl, rfl⟩ := Prod.mk.inj (Option.some.inj h)
        obtain ⟨hperm, hp⟩ := ih heq
        exact ⟨(Perm.swap c c' others').trans (hperm.cons c), hp⟩

/-- The state that is used comes to the front. -/
theorem locate_perm (h : Hdr) (states : List CState) : (locate h states).2.Perm states := by
  rw [locate]
  split
  · rename_i heq
    exact (takeState_some heq).1
  · rcases eq_nil_or_concat states with rfl | ⟨init, last, rfl⟩
    · exact Perm.refl _
    · rw [concat_eq_append, getLast?_concat, dropLast_concat]
      exact perm_append_comm

/-- The header of the state of a connection, if it has one. -/
def savedHdr (comp : SlComp) (h : Hdr) : Option Hdr :=
  match takeState (CState.isFor h) comp.states with
  | some (cs, _) => cs.csHdr
  | none => none

/-- The state that is found has the header that is saved for the connection. -/
theorem locate_saved (hloc : locate h comp.states = (found, cs :: others)) :
    savedHdr comp h = (if found then cs.csHdr else none) ∧ (found = true → cs.isFor h = true) := by
  unfold locate at hloc
  unfold savedHdr
  cases heq : takeState (CState.isFor h) comp.states with
  | some taken =>
    rw [heq] at hloc
    obtain ⟨rfl, hcons⟩ := Prod.mk.inj hloc
    obtain ⟨rfl, -⟩ := List.cons.inj hcons
    exact ⟨(if_pos rfl).symm, fun _ => (takeState_some heq).2⟩
  | none =>
    rw [heq] at hloc
    obtain ⟨rfl, -⟩ := Prod.mk.inj hloc
    exact ⟨(if_neg Bool.false_ne_true).symm, fun hf => absurd hf Bool.false_ne_true⟩

/-! ## The two sides -/

/-- A packet of the kind that is compressed. -/
structure Eligible (th : Hdr) : Prop where
  whole : th.ipOff &&& 0x3fff#16 = 0#16
  fin : th.thFlags.fin = false
  syn : th.thFlags.syn = false
  rst : th.thFlags.rst = false
  ack : th.thFlags.ack = true

/-- The two sides have the same headers. -/
structure Synced (comp : SlComp) (r : SlRecv) : Prop where
  nonempty : comp.states ≠ []
  nodup : (comp.states.map CState.csId).Nodup
  id_lt : ∀ cs ∈ comp.states, cs.csId < maxStates
  same : ∀ cs ∈ comp.states, r.rstate cs.csId = cs.csHdr
  eligible : ∀ cs ∈ comp.states, ∀ o, cs.csHdr = some o → Eligible o
  last : comp.lastXmit = 255 ∨ r.lastRecv = comp.lastXmit ∧ r.toss = false

/-- The states are used in another order. -/
theorem Synced.perm (h : Synced comp r) (hperm : states.Perm comp.states) :
    Synced { comp with states := states } r := by
  refine ⟨fun hnil => h.nonempty ?_, ?_, fun cs hcs => h.id_lt cs (hperm.mem_iff.mp hcs),
    fun cs hcs => h.same cs (hperm.mem_iff.mp hcs),
    fun cs hcs => h.eligible cs (hperm.mem_iff.mp hcs), h.last⟩
  · have hnil' : states = [] := hnil
    rw [hnil'] at hperm
    exact hperm.symm.eq_nil
  · exact (hperm.map CState.csId).nodup_iff.mpr h.nodup

/-- Both sides take over a header. -/
theorem Synced.store (hsync : Synced comp r) (hstates : comp.states = cs :: others)
    (helig : Eligible th) :
    Synced ⟨⟨cs.csId, some th⟩ :: others, cs.csId⟩
      ⟨update r.rstate cs.csId (some th), cs.csId, false⟩ := by
  obtain ⟨-, hnodup, hid, hsame, hel, -⟩ := hsync
  rw [hstates] at hnodup hid hsame hel
  rw [map_cons, nodup_cons] at hnodup
  refine ⟨cons_ne_nil _ _, nodup_cons.mpr hnodup, forall_mem_cons.mpr (forall_mem_cons.mp hid),
    forall_mem_cons.mpr ⟨update_self .., fun c hc => ?_⟩,
    forall_mem_cons.mpr ⟨fun o ho => Option.some.inj ho ▸ helig, (forall_mem_cons.mp hel).2⟩,
    .inr ⟨rfl, rfl⟩⟩
  have hne : c.csId ≠ cs.csId := fun heq => hnodup.1 (heq ▸ mem_map_of_mem hc)
  exact (update_of_ne hne _ _).trans (hsame c (mem_cons_of_mem _ hc))

/-! ## What the receiver does -/

theorem toNat_ofNat_id (hid : id < maxStates) : (BitVec.ofNat 8 id).toNat = id := by
  rw [BitVec.toNat_ofNat]
  rw [maxStates] at hid
  omega

/-- A header that is sent whole. -/
theorem recv_uncompressed (hwf : WellFormed m) (hid : id < maxStates) :
    slUncompressTcpCore r (.uncompressed { m.hdr with ipP := BitVec.ofNat 8 id } m.data) =
      (⟨update r.rstate id (some m.hdr), id, false⟩, some m.hdr) := by
  have hback : ({ m.hdr with ipP := ipprotoTcp } : Hdr) = m.hdr := by
    rw [← hwf.proto]
  have hlen : m.hdr.hlen ≤ maxHdr := by
    have := hwf.ipOpts_le
    have := hwf.thOpts_le
    rw [Hdr.hlen, Hdr.ipHl, Hdr.thOff, maxHdr]
    omega
  rw [slUncompressTcpCore]
  rw [toNat_ofNat_id hid, if_neg (by omega), hback, if_neg (by omega)]

/-- The changes are put into the header of the state. -/
theorem recvInto_eq (hwf : WellFormed m) (hsame : SameConnection oth m.hdr)
    (hagree : agrees m.hdr oth = true) (hsend : sendDeltas m.hdr oth = some (low, newSeq))
    (hstate : r.rstate r.lastRecv = some oth) (c : Bool) :
    recvInto r (changesByte c (m.hdr.ipId.setWidth 32 - oth.ipId.setWidth 32 != 1#32)
      m.hdr.thFlags.push low) (body m.hdr oth newSeq m.data) =
      ({ r with rstate := update r.rstate r.lastRecv (some (restored oth m.hdr)) },
        some (restored oth m.hdr)) := by
  rw [recvInto, hstate]
  dsimp only
  rw [recvChanges_eq hagree hsend]
  dsimp only
  rw [finish_changed hwf hsame hagree]

/-- A compressed packet with the connection number. -/
theorem recv_explicit (hid : id < maxStates) (hc : changes.getLsbD 6 = true) :
    slUncompressTcpCore r (.compressed (changes :: BitVec.ofNat 8 id :: cp)) =
      recvInto { r with lastRecv := id, toss := false } changes cp := by
  rw [slUncompressTcpCore, if_pos hc, toNat_ofNat_id hid, if_neg (by omega)]

/-- A compressed packet without it. -/
theorem recv_implicit (htoss : r.toss = false) (hc : changes.getLsbD 6 = false) :
    slUncompressTcpCore r (.compressed (changes :: cp)) = recvInto r changes cp := by
  change (if changes.getLsbD 6 = true then _ else if r.toss = true then (r, none)
    else recvInto r changes cp) = _
  rw [hc, htoss, if_neg Bool.false_ne_true, if_neg Bool.false_ne_true]

/-! ## One packet -/

/-- The packet goes compressed: only what is expected to change has changed, and not too much. -/
structure Sendable (oth th : Hdr) : Prop where
  agree : agrees th oth = true
  urp : th.thFlags.urg = false → th.thUrp = oth.thUrp
  ack : ¬th.thAck - oth.thAck > 0xffff#32
  seq : ¬th.thSeq - oth.thSeq > 0xffff#32
  news : th.thFlags.urg = false → th.thWin = oth.thWin → th.thAck = oth.thAck →
    th.thSeq = oth.thSeq → th.ipLen ≠ oth.ipLen ∧ oth.ipLen.toNat = th.hlen
  plain : ¬(th.thFlags.urg = true ∧ th.thWin ≠ oth.thWin ∧ th.thSeq ≠ oth.thSeq)

theorem sub_bne_zero {x y : BitVec w} : (x - y != 0#w) = true ↔ x ≠ y := by
  rw [← Bool.not_eq_false, sub_bne_zero_false.not]

/-- A packet whose changes are sent. -/
theorem Sendable.of_sendDeltas {d : BitVec 4 × List (BitVec 8)} (hagree : agrees th oth = true)
    (hd : sendDeltas th oth = some d) : Sendable oth th := by
  obtain ⟨hurp, hA, hS, -⟩ := sendDeltas_cases hd
  rw [sendDeltas, if_neg fun hcon => hcon.2 (hurp (by simpa using hcon.1)), if_neg hA,
    if_neg hS] at hd
  refine ⟨hagree, hurp, hA, hS, fun hu hw ha hs => ?_, ?_⟩
  · rw [sub_bne_zero_false.mpr hs, sub_bne_zero_false.mpr ha, sub_bne_zero_false.mpr hw, hu] at hd
    by_contra hcon
    rw [if_neg hcon] at hd
    cases hd
  · rintro ⟨hu, hw, hs⟩
    rw [sub_bne_zero.mpr hs, sub_bne_zero.mpr hw, hu] at hd
    cases ha : (th.thAck - oth.thAck != 0#32) with
    | false | true =>
      rw [ha] at hd
      cases hd

/-- The changes of a packet that goes compressed. -/
theorem Sendable.sendDeltas (h : Sendable oth th) : ∃ d, sendDeltas th oth = some d := by
  rw [SlCompress.sendDeltas, if_neg fun hcon => hcon.2 (h.urp (by simpa using hcon.1)),
    if_neg h.ack, if_neg h.seq]
  split
  · rename_i hs ha hw hu
    exact ⟨_, if_pos (h.news hu (sub_bne_zero_false.mp hw) (sub_bne_zero_false.mp ha)
      (sub_bne_zero_false.mp hs))⟩
  · rename_i hs ha hw hu
    exact absurd ⟨hu, sub_bne_zero.mp hw, sub_bne_zero.mp hs⟩ h.plain
  · rename_i hs ha hw hu
    exact absurd ⟨hu, sub_bne_zero.mp hw, sub_bne_zero.mp hs⟩ h.plain
  · exact ⟨_, (apply_ite some _ _ _).symm⟩
  · exact ⟨_, (apply_ite some _ _ _).symm⟩
  · exact ⟨_, rfl⟩

/-- The bits that are not sent are right, if the packet goes compressed. -/
def Restorable (comp : SlComp) (th : Hdr) : Prop :=
  Eligible th → ∀ oth, savedHdr comp th = some oth → Sendable oth th → Faithful oth th

/-- A packet of the other kinds goes as it is. -/
theorem slCompressTcp_of_not_eligible (h : ¬Eligible m.hdr) :
    slCompressTcp comp cid m = (comp, .ip) := by
  rw [slCompressTcp]
  split
  · rfl
  · rename_i hwhole
    rw [not_or, not_not] at hwhole
    refine if_pos ?_
    by_contra hflags
    simp only [Bool.or_eq_true, not_or, Bool.not_eq_true', Bool.not_eq_true,
      Bool.not_eq_false] at hflags
    exact h ⟨hwhole.1, hflags.1.1.2, hflags.1.1.1, hflags.1.2, hflags.2⟩

/-- A packet of the kind that is compressed is sent with the state of its connection. -/
theorem slCompressTcp_of_eligible (hwf : WellFormed m) (h : Eligible m.hdr) (cid : Bool)
    (hloc : locate m.hdr comp.states = (found, cs :: others)) :
    slCompressTcp comp cid m = transmit comp cid m found cs others := by
  have hmin : 40 ≤ m.hdr.hlen := by
    rw [Hdr.hlen, Hdr.ipHl, Hdr.thOff]
    omega
  have hhdr := hwf.header
  have hflags : ¬(m.hdr.thFlags.syn || m.hdr.thFlags.fin || m.hdr.thFlags.rst ||
      !m.hdr.thFlags.ack) = true := by
    rw [h.syn, h.fin, h.rst, h.ack]
    exact Bool.false_ne_true
  rw [slCompressTcp, if_neg fun hcon => hcon.elim (fun hne => hne h.whole) (by omega),
    if_neg hflags, hloc]
  dsimp only
  rw [if_neg (by omega)]

theorem tryCompress_some (h : tryCompress found cs th = some (oth, low, newSeq)) :
    found = true ∧ cs.csHdr = some oth ∧ agrees th oth = true ∧
      sendDeltas th oth = some (low, newSeq) := by
  unfold tryCompress at h
  split at h
  · rename_i o ho
    split_ifs at h with hagree
    split at h
    · cases h
    · rename_i hsend
      cases h
      exact ⟨rfl, ho, hagree, hsend⟩
  · cases h

theorem tryCompress_of_sendable (hcs : cs.csHdr = some oth) (h : Sendable oth th) :
    tryCompress true cs th ≠ none := by
  obtain ⟨⟨low, newSeq⟩, hd⟩ := h.sendDeltas
  unfold tryCompress
  rw [hcs]
  dsimp only
  rw [if_pos h.agree, hd]
  exact nofun

/-- The state of a connection has a header of the same connection. -/
theorem sameConnection_of_isFor (hfor : cs.isFor th = true) (hcs : cs.csHdr = some oth)
    (hth : Eligible th) (hoth : Eligible oth) : SameConnection oth th := by
  simp only [CState.isFor, hcs, Bool.and_eq_true, decide_eq_true_eq] at hfor
  obtain ⟨⟨⟨hsrc, hdst⟩, hsport⟩, hdport⟩ := hfor
  exact ⟨hsrc, hdst, hsport, hdport, hth.fin.trans hoth.fin.symm, hth.syn.trans hoth.syn.symm,
    hth.rst.trans hoth.rst.symm, hth.ack.trans hoth.ack.symm⟩

/-- The line: the sender and the receiver. -/
structure Link where
  comp : SlComp
  rcv : SlRecv

/-- A packet goes over the line: the header that comes out.  A packet sent as plain IP does not come
to the receiver. -/
def Link.carry (l : Link) (cid : Bool) (m : Packet) : Link × Option Hdr :=
  match slCompressTcp l.comp cid m with
  | (comp, .ip) => (⟨comp, l.rcv⟩, some m.hdr)
  | (comp, w) => (⟨comp, (slUncompressTcpCore l.rcv w).1⟩, (slUncompressTcpCore l.rcv w).2)

/-- **A packet that goes compressed** comes out with the bits that are not sent taken from the last
header, and both sides have taken over a header. -/
theorem Synced.transmit_compressed (hsync : Synced comp r) (hwf : WellFormed m) (cid : Bool)
    (others : List CState) (hmem : cs ∈ comp.states) (hsame : SameConnection oth m.hdr)
    (htry : tryCompress true cs m.hdr = some (oth, low, newSeq)) :
    ∃ buf, transmit comp cid m true cs others =
        (⟨⟨cs.csId, some m.hdr⟩ :: others, cs.csId⟩, .compressed buf) ∧
      slUncompressTcpCore r (.compressed buf) =
        (⟨update r.rstate cs.csId (some (restored oth m.hdr)), cs.csId, false⟩,
          some (restored oth m.hdr)) := by
  obtain ⟨-, hcs, hagree, hsend⟩ := tryCompress_some htry
  have hid := hsync.id_lt cs hmem
  have hstate : r.rstate cs.csId = some oth := (hsync.same cs hmem).trans hcs
  rw [transmit, htry]
  dsimp only
  split
  · -- the connection number is sent
    refine ⟨_, rfl, ?_⟩
    rw [recv_explicit hid (changesByte_getLsbD _ _ _ _).1]
    exact recvInto_eq hwf hsame hagree hsend hstate true
  · -- it is that of the packet before
    rename_i hcid
    have hlast : comp.lastXmit = cs.csId := by
      simp only [Bool.or_eq_true, not_or, bne_iff_ne, not_not] at hcid
      exact hcid.2
    have hnot : comp.lastXmit ≠ 255 := by
      rw [maxStates] at hid
      omega
    obtain ⟨hrecv, htoss⟩ := hsync.last.resolve_left hnot
    rw [hlast] at hrecv
    refine ⟨_, by rw [hlast], ?_⟩
    rw [recv_implicit htoss (changesByte_getLsbD _ _ _ _).1]
    refine (recvInto_eq hwf hsame hagree hsend (by rw [hrecv, hstate]) false).trans ?_
    rw [hrecv, htoss]

/-- **One packet.**  It comes out with its header exactly when it is restorable, and then the two
sides have the same headers again. -/
theorem Synced.step {l : Link} (hsync : Synced l.comp l.rcv) (hwf : WellFormed m) (cid : Bool) :
    ((l.carry cid m).2 = some m.hdr ↔ Restorable l.comp m.hdr) ∧
      (Restorable l.comp m.hdr → Synced (l.carry cid m).1.comp (l.carry cid m).1.rcv) ∧
      (l.carry cid m).1.comp = (slCompressTcp l.comp cid m).1 := by
  by_cases helig : Eligible m.hdr
  · obtain ⟨found, states, hloc⟩ : ∃ found states, locate m.hdr l.comp.states = (found, states) :=
      ⟨_, _, rfl⟩
    have hperm : states.Perm l.comp.states := by
      have := locate_perm m.hdr l.comp.states
      rwa [hloc] at this
    obtain ⟨cs, others, rfl⟩ : ∃ cs others, states = cs :: others :=
      exists_cons_of_ne_nil fun hnil => hsync.nonempty (hnil ▸ hperm).symm.eq_nil
    have hmem : cs ∈ l.comp.states := hperm.mem_iff.mp mem_cons_self
    have hid := hsync.id_lt cs hmem
    have hstore : Synced ⟨⟨cs.csId, some m.hdr⟩ :: others, cs.csId⟩
        ⟨update l.rcv.rstate cs.csId (some m.hdr), cs.csId, false⟩ :=
      (hsync.perm hperm).store rfl helig
    obtain ⟨hsaved, hfor⟩ := locate_saved hloc
    have hcomp := slCompressTcp_of_eligible hwf helig cid hloc
    rw [Link.carry, hcomp]
    cases htry : tryCompress found cs m.hdr with
    | none =>
      have hnone : Restorable l.comp m.hdr := by
        intro _ oth hoth hsendable
        rw [hsaved] at hoth
        split_ifs at hoth with hfound
        rw [hfound] at htry
        exact absurd htry (tryCompress_of_sendable hoth hsendable)
      have htrans : transmit l.comp cid m found cs others =
          (⟨⟨cs.csId, some m.hdr⟩ :: others, cs.csId⟩,
            .uncompressed { m.hdr with ipP := BitVec.ofNat 8 cs.csId } m.data) := by
        rw [transmit, htry]
      rw [htrans]
      dsimp only
      rw [recv_uncompressed hwf hid]
      exact ⟨iff_of_true rfl hnone, fun _ => hstore, rfl⟩
    | some d =>
      obtain ⟨oth, low, newSeq⟩ := d
      obtain ⟨rfl, hcs, hagree, hsend⟩ := tryCompress_some htry
      have hsame := sameConnection_of_isFor (hfor rfl) hcs helig (hsync.eligible cs hmem oth hcs)
      have hrest : Restorable l.comp m.hdr ↔ Faithful oth m.hdr := by
        rw [hcs] at hsaved
        refine ⟨fun h => h helig oth hsaved (.of_sendDeltas hagree hsend), fun h _ o ho _ => ?_⟩
        rw [hsaved] at ho
        exact Option.some.inj ho ▸ h
      obtain ⟨buf, htrans, hrecv⟩ := hsync.transmit_compressed hwf cid others hmem hsame htry
      rw [htrans, hrest, ← restored_eq_iff]
      dsimp only
      rw [hrecv]
      refine ⟨⟨Option.some.inj, congrArg some⟩, fun heq => ?_, rfl⟩
      rw [heq]
      exact hstore
  · rw [Link.carry, slCompressTcp_of_not_eligible helig]
    exact ⟨iff_of_true rfl fun h => absurd h helig, fun _ => hsync, rfl⟩

/-! ## Runs -/

/-- The line before the first packet, with `n` states. -/
def Link.init (n : ℕ) : Link := ⟨slCompressInit n, slRecvInit⟩

/-- Every packet comes out with its header. -/
def AllRestored : Link → List (Bool × Packet) → Prop
  | _, [] => True
  | l, (cid, m) :: ps => (l.carry cid m).2 = some m.hdr ∧ AllRestored (l.carry cid m).1 ps

/-- Every packet is restorable when it is sent. -/
def AllRestorable : SlComp → List (Bool × Packet) → Prop
  | _, [] => True
  | comp, (cid, m) :: ps =>
    Restorable comp m.hdr ∧ AllRestorable (slCompressTcp comp cid m).1 ps

theorem Synced.init (hpos : 0 < n) (hn : n ≤ maxStates) :
    Synced (Link.init n).comp (Link.init n).rcv := by
  have hstate : ∀ cs ∈ (slCompressInit n).states, cs.csId < n ∧ cs.csHdr = none := by
    intro cs hcs
    obtain ⟨i, hi, rfl⟩ := mem_map.mp hcs
    rw [mem_reverse, mem_range] at hi
    exact ⟨hi, rfl⟩
  refine ⟨fun hnil => ?_, ?_, fun cs hcs => Nat.lt_of_lt_of_le (hstate cs hcs).1 hn,
    fun cs hcs => (hstate cs hcs).2.symm, fun cs hcs o ho => ?_, .inl rfl⟩
  · have hlen := congrArg List.length hnil
    rw [Link.init, slCompressInit] at hlen
    simp only [length_map, length_reverse, length_range, length_nil] at hlen
    omega
  · rw [Link.init, slCompressInit]
    rw [map_map]
    exact (map_id _).symm ▸ nodup_reverse.mpr nodup_range
  · rw [(hstate cs hcs).2] at ho
    cases ho

/-- **Header compression.**  On a line with any number of states that the receiver has, and for
every sequence of well-formed packets, every packet comes out with its IP and TCP headers exactly
when every packet that goes compressed has the reserved bits and the congestion bits of the last
header of its connection, and follows no urgent packet if it is one of the special cases. -/
theorem slcompress_lossless (hpos : 0 < n) (hn : n ≤ maxStates) (ps : List (Bool × Packet))
    (hwf : ∀ p ∈ ps, WellFormed p.2) :
    AllRestored (Link.init n) ps ↔ AllRestorable (slCompressInit n) ps := by
  have hrun : ∀ ps l, Synced l.comp l.rcv →
      (∀ p ∈ ps, WellFormed p.2) → (AllRestored l ps ↔ AllRestorable l.comp ps) := by
    intro ps
    induction ps with
    | nil => exact fun _ _ _ => Iff.rfl
    | cons p ps ih =>
      obtain ⟨cid, m⟩ := p
      intro l hsync hwf
      obtain ⟨hiff, hnext, hcomp⟩ := hsync.step (hwf (cid, m) mem_cons_self) cid
      rw [AllRestored, AllRestorable, hiff, ← hcomp]
      refine and_congr_right fun hrest => ?_
      exact ih _ (hnext hrest) fun p hp => hwf p (mem_cons_of_mem _ hp)
  exact hrun ps (Link.init n) (Synced.init hpos hn) hwf

/-- A packet of one connection with one octet of data -/
def octetPacket (seq : BitVec 32) (id : BitVec 16) (flags : TcpFlags) : Packet :=
  let h : Hdr :=
    ⟨4, 0, 41, id, 0, 64, ipprotoTcp, 0, 1, 2, [], 3, 4, seq, 0, 0, flags, 100, 0, 1, []⟩
  ⟨{ h with ipSum := ipCksum h }, [0#8], 41⟩

/-- The flags of a segment of data: urgent or not, with or without the echo of congestion -/
def dataFlags (urg ece : Bool) : TcpFlags := ⟨false, false, false, false, true, urg, ece, false⟩

theorem wellFormed_octetPacket (seq : BitVec 32) (id : BitVec 16) (flags : TcpFlags) :
    WellFormed (octetPacket seq id flags) :=
  ⟨Nat.zero_le 10, Nat.zero_le 10, rfl, rfl, rfl, (by decide : 40 ≤ 41)⟩

theorem slcompress_lossless_octets :
    AllRestored (Link.init 16) [(true, octetPacket 0 7 (dataFlags false false)),
        (true, octetPacket 1 8 (dataFlags false false))] ↔
      AllRestorable (slCompressInit 16) [(true, octetPacket 0 7 (dataFlags false false)),
        (true, octetPacket 1 8 (dataFlags false false))] := by
  exact slcompress_lossless (by decide) (by decide) _ (forall_mem_cons.mpr
    ⟨wellFormed_octetPacket _ _ _, forall_mem_singleton.mpr (wellFormed_octetPacket _ _ _)⟩)

/-- The octet after an urgent one comes out urgent, and an echo of congestion is lost. -/
theorem slcompress_loses_bits :
    ¬AllRestored (Link.init 16) [(true, octetPacket 0 7 (dataFlags true false)),
        (true, octetPacket 1 8 (dataFlags false false))] ∧
      ¬AllRestored (Link.init 16) [(true, octetPacket 0 7 (dataFlags false false)),
        (true, octetPacket 1 8 (dataFlags false true))] :=
  ⟨fun h => absurd h.2.1 (by decide), fun h => absurd h.2.1 (by decide)⟩

end FreeBSDSys.SlCompress
