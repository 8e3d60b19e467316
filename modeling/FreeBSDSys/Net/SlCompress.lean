import Mathlib

/-!
# Header compression on serial lines

The sender keeps the last header of each of a few connections, and sends of the next header of a
connection only what has changed; the receiver keeps the same headers and puts the changes into
them. A connection has a small number, which is left out if the packet before had the same one.  The
sender keeps its states in the order of their last use, and gives the state that has not been used
for longest to a new connection.

The first octet of a compressed packet has a bit for each number that has changed.  Two of the
combinations stand for common cases: the sequence number, or it and the acknowledgement, have grown
by the length of the data of the packet before.

A header is a record of its fields, with the options as words, so that the header lengths are those
of the options.  A state that has had no header is a zeroed one; it has header length 0.

* `slCompressTcp`: the sender.
* `slUncompressTcpCore`: the receiver.
-/

namespace FreeBSDSys.SlCompress

open BitVec

/-! ## Headers -/

/-- `th_flags` -/
@[ext]
structure TcpFlags where
  fin : Bool
  syn : Bool
  rst : Bool
  push : Bool
  ack : Bool
  urg : Bool
  ece : Bool
  cwr : Bool
  deriving DecidableEq

/-- `struct ip` and `struct tcphdr` with their options -/
@[ext]
structure Hdr where
  ipV : BitVec 4
  ipTos : BitVec 8
  ipLen : BitVec 16
  ipId : BitVec 16
  ipOff : BitVec 16
  ipTtl : BitVec 8
  ipP : BitVec 8
  ipSum : BitVec 16
  ipSrc : BitVec 32
  ipDst : BitVec 32
  ipOpts : List (BitVec 32)
  thSport : BitVec 16
  thDport : BitVec 16
  thSeq : BitVec 32
  thAck : BitVec 32
  thX2 : BitVec 4
  thFlags : TcpFlags
  thWin : BitVec 16
  thSum : BitVec 16
  thUrp : BitVec 16
  thOpts : List (BitVec 32)
  deriving DecidableEq

/-- `ip_hl` -/
def Hdr.ipHl (h : Hdr) : ℕ := 5 + h.ipOpts.length

/-- `th_off` -/
def Hdr.thOff (h : Hdr) : ℕ := 5 + h.thOpts.length

/-- The length of the two headers in octets -/
def Hdr.hlen (h : Hdr) : ℕ := (h.ipHl + h.thOff) <<< 2

/-- `IPPROTO_TCP` -/
def ipprotoTcp : BitVec 8 := 6#8

/-- The two halves of a word -/
def halves (x : BitVec 32) : List ℕ := [x.toNat / 65536, x.toNat % 65536]

/-- The 16-bit words of the IP header with `ip_sum` zero -/
def ipWords (h : Hdr) : List ℕ :=
  [(h.ipV.toNat * 16 + h.ipHl) * 256 + h.ipTos.toNat, h.ipLen.toNat, h.ipId.toNat, h.ipOff.toNat,
    h.ipTtl.toNat * 256 + h.ipP.toNat, 0] ++
    halves h.ipSrc ++ halves h.ipDst ++ h.ipOpts.flatMap halves

/-- One fold of the carries -/
def foldCarry (changes : ℕ) : ℕ := changes % 65536 + changes / 65536

/-- The header checksum, as the receiver computes it -/
def ipCksum (h : Hdr) : BitVec 16 :=
  ~~~BitVec.ofNat 16 (foldCarry (foldCarry (ipWords h).sum))

/-! ## The coding of numbers -/

/-- `ENCODE` -/
def encode (n : BitVec 16) : List (BitVec 8) :=
  if n.toNat ≥ 256 then [0#8, (n >>> 8).setWidth 8, n.setWidth 8] else [n.setWidth 8]

/-- `ENCODEZ` -/
def encodez (n : BitVec 16) : List (BitVec 8) :=
  if n.toNat ≥ 256 ∨ n = 0#16 then [0#8, (n >>> 8).setWidth 8, n.setWidth 8] else [n.setWidth 8]

/-- The number that `DECODEL`, `DECODES` and `DECODEU` read, and the octets behind it -/
def decode : List (BitVec 8) → Option (BitVec 16 × List (BitVec 8))
  | [] => none
  | b :: cp =>
    if b = 0#8 then
      match cp with
      | hi :: lo :: cp => some (hi ++ lo, cp)
      | _ => none
    else some (b.setWidth 16, cp)

/-! ## The first octet -/

/-- The bits `NEW_S`, `NEW_A`, `NEW_W` and `NEW_U` -/
def lowBits (s a w u : Bool) : BitVec 4 :=
  ofBool s ++ ofBool a ++ ofBool w ++ ofBool u

/-- `SPECIAL_I` -/
def specialI : BitVec 4 := lowBits true false true true

/-- `SPECIAL_D` -/
def specialD : BitVec 4 := lowBits true true true true

/-- The first octet: `NEW_C`, `NEW_I`, `TCP_PUSH_BIT` and the low bits -/
def changesByte (c i push : Bool) (low : BitVec 4) : BitVec 8 :=
  ofBool false ++ ofBool c ++ ofBool i ++ ofBool push ++ low

/-! ## The sender -/

/-- `struct cstate`, as the sender uses it -/
structure CState where
  csId : ℕ
  csHdr : Option Hdr

/-- The part of `struct slcompress` of the sender.  The states stand in the order of their last use,
the newest, which `last_cs->cs_next` is, first. -/
structure SlComp where
  states : List CState
  lastXmit : ℕ

/-- A packet: its headers, its data and the length of the first mbuf -/
structure Packet where
  hdr : Hdr
  data : List (BitVec 8)
  mLen : ℕ

/-- What is sent -/
inductive Wire
  | ip
  | uncompressed (h : Hdr) (data : List (BitVec 8))
  | compressed (buf : List (BitVec 8))

/-- `sl_compress_init` with `max_state + 1 = n` states -/
def slCompressInit (n : ℕ) : SlComp :=
  ⟨(List.range n).reverse.map fun i => ⟨i, none⟩, 255⟩

/-- The state is that of the connection: addresses and ports -/
def CState.isFor (h : Hdr) (cs : CState) : Bool :=
  match cs.csHdr with
  | some o =>
    h.ipSrc = o.ipSrc && h.ipDst = o.ipDst && h.thSport = o.thSport && h.thDport = o.thDport
  | none => h.ipSrc = 0#32 && h.ipDst = 0#32 && h.thSport = 0#16 && h.thDport = 0#16

/-- The first state that passes a test, and the others -/
def takeState (p : CState → Bool) : List CState → Option (CState × List CState)
  | [] => none
  | cs :: rest =>
    if p cs then some (cs, rest)
    else
      match takeState p rest with
      | none => none
      | some (c, others) => some (c, cs :: others)

/-- The state of the connection, moved to the front, or the oldest one: whether it was found, and
the new order -/
def locate (h : Hdr) (states : List CState) : Bool × List CState :=
  match takeState (CState.isFor h) states with
  | some (cs, others) => (true, cs :: others)
  | none => (false, states.getLast?.toList ++ states.dropLast)

/-- Only what is expected to change has changed -/
def agrees (th oth : Hdr) : Bool :=
  th.ipV = oth.ipV && th.ipHl = oth.ipHl && th.ipTos = oth.ipTos && th.ipOff = oth.ipOff &&
    th.ipTtl = oth.ipTtl && th.ipP = oth.ipP && th.thOff = oth.thOff && th.ipOpts = oth.ipOpts &&
    th.thOpts = oth.thOpts

/-- The bits for the numbers that have changed -/
def lowBitsOf (th oth : Hdr) : BitVec 4 :=
  lowBits (th.thSeq - oth.thSeq != 0#32) (th.thAck - oth.thAck != 0#32)
    (th.thWin - oth.thWin != 0#16) th.thFlags.urg

/-- The octets for the numbers that have changed: urgent pointer, window, acknowledgement and
sequence number -/
def newSeqOf (th oth : Hdr) : List (BitVec 8) :=
  (if th.thFlags.urg then encodez th.thUrp else []) ++
    (if th.thWin - oth.thWin != 0#16 then encode (th.thWin - oth.thWin) else []) ++
    (if th.thAck - oth.thAck != 0#32 then encode ((th.thAck - oth.thAck).setWidth 16) else []) ++
    (if th.thSeq - oth.thSeq != 0#32 then encode ((th.thSeq - oth.thSeq).setWidth 16) else [])

/-- `ntohs(cs->cs_ip.ip_len) - hlen`: the length of the data of the packet before -/
def dataLen (oth : Hdr) (hlen : ℕ) : BitVec 32 := oth.ipLen.setWidth 32 - BitVec.ofNat 32 hlen

/-- The low bits and the octets for the changes from `oth` to `th`; `none` if the packet goes
uncompressed -/
def sendDeltas (th oth : Hdr) : Option (BitVec 4 × List (BitVec 8)) :=
  let deltaA := th.thAck - oth.thAck
  let deltaS := th.thSeq - oth.thSeq
  let written := (lowBitsOf th oth, newSeqOf th oth)
  if !th.thFlags.urg ∧ th.thUrp ≠ oth.thUrp then none
  else if deltaA > 0xffff#32 then none
  else if deltaS > 0xffff#32 then none
  else
    match deltaS != 0#32, deltaA != 0#32, th.thWin - oth.thWin != 0#16, th.thFlags.urg with
    | false, false, false, false =>
      if th.ipLen ≠ oth.ipLen ∧ oth.ipLen.toNat = th.hlen then some written else none
    | true, false, true, true => none
    | true, true, true, true => none
    | true, true, false, false =>
      if deltaS = deltaA ∧ deltaS = dataLen oth th.hlen then some (specialI, []) else some written
    | true, false, false, false =>
      if deltaS = dataLen oth th.hlen then some (specialD, []) else some written
    | _, _, _, _ => some written

/-- The header the changes are taken from, and the changes; `none` if the packet goes uncompressed
-/
def tryCompress (found : Bool) (cs : CState) (th : Hdr) :
    Option (Hdr × BitVec 4 × List (BitVec 8)) :=
  match found, cs.csHdr with
  | true, some oth =>
    if agrees th oth then
      match sendDeltas th oth with
      | none => none
      | some (low, newSeq) => some (oth, low, newSeq)
    else none
  | _, _ => none

/-- What is sent with the state `cs`, which comes first in the new order -/
def transmit (comp : SlComp) (compressCid : Bool) (m : Packet) (found : Bool) (cs : CState)
    (others : List CState) : SlComp × Wire :=
  let th := m.hdr
  let states := ⟨cs.csId, some th⟩ :: others
  match tryCompress found cs th with
  | none => (⟨states, cs.csId⟩, .uncompressed { th with ipP := BitVec.ofNat 8 cs.csId } m.data)
  | some (oth, low, newSeq) =>
    let deltaI := th.ipId.setWidth 32 - oth.ipId.setWidth 32
    let i := deltaI != 1#32
    let rest := (th.thSum >>> 8).setWidth 8 :: th.thSum.setWidth 8 ::
      (newSeq ++ (if i then encodez (deltaI.setWidth 16) else []) ++ m.data)
    if !compressCid || comp.lastXmit != cs.csId then
      (⟨states, cs.csId⟩, .compressed
        (changesByte true i th.thFlags.push low :: BitVec.ofNat 8 cs.csId :: rest))
    else (⟨states, comp.lastXmit⟩, .compressed (changesByte false i th.thFlags.push low :: rest))

/-- `sl_compress_tcp` -/
def slCompressTcp (comp : SlComp) (compressCid : Bool) (m : Packet) : SlComp × Wire :=
  let th := m.hdr
  if th.ipOff &&& 0x3fff#16 ≠ 0#16 ∨ m.mLen < 40 then (comp, .ip)
  else if th.thFlags.syn || th.thFlags.fin || th.thFlags.rst || !th.thFlags.ack then (comp, .ip)
  else
    match locate th comp.states with
    | (_, []) => (comp, .ip)
    | (found, cs :: others) =>
      if th.hlen > m.mLen then ({ comp with states := cs :: others }, .ip)
      else transmit comp compressCid m found cs others

/-! ## The receiver -/

/-- The part of `struct slcompress` of the receiver -/
structure SlRecv where
  rstate : ℕ → Option Hdr
  lastRecv : ℕ
  toss : Bool

/-- `sl_compress_init` -/
def slRecvInit : SlRecv := ⟨fun _ => none, 255, true⟩

/-- `MAX_STATES` -/
def maxStates : ℕ := 16

/-- `MAX_HDR` -/
def maxHdr : ℕ := 128

/-- `goto bad` -/
def SlRecv.bad (r : SlRecv) : SlRecv × Option Hdr := ({ r with toss := true }, none)

/-- `NEW_U` -/
def recvU (new : Bool) (th : Hdr) (cp : List (BitVec 8)) : Option (Hdr × List (BitVec 8)) :=
  if new then
    match decode cp with
    | none => none
    | some (n, cp) => some ({ th with thFlags := { th.thFlags with urg := true }, thUrp := n }, cp)
  else some ({ th with thFlags := { th.thFlags with urg := false } }, cp)

/-- `NEW_W` -/
def recvW (new : Bool) (th : Hdr) (cp : List (BitVec 8)) : Option (Hdr × List (BitVec 8)) :=
  if new then
    match decode cp with
    | none => none
    | some (n, cp) => some ({ th with thWin := th.thWin + n }, cp)
  else some (th, cp)

/-- `NEW_A` -/
def recvA (new : Bool) (th : Hdr) (cp : List (BitVec 8)) : Option (Hdr × List (BitVec 8)) :=
  if new then
    match decode cp with
    | none => none
    | some (n, cp) => some ({ th with thAck := th.thAck + n.setWidth 32 }, cp)
  else some (th, cp)

/-- `NEW_S` -/
def recvS (new : Bool) (th : Hdr) (cp : List (BitVec 8)) : Option (Hdr × List (BitVec 8)) :=
  if new then
    match decode cp with
    | none => none
    | some (n, cp) => some ({ th with thSeq := th.thSeq + n.setWidth 32 }, cp)
  else some (th, cp)

/-- The `switch` on the low bits -/
def recvDeltas (low : BitVec 4) (th : Hdr) (cp : List (BitVec 8)) :
    Option (Hdr × List (BitVec 8)) :=
  let i := dataLen th th.hlen
  if low = specialI then some ({ th with thAck := th.thAck + i, thSeq := th.thSeq + i }, cp)
  else if low = specialD then some ({ th with thSeq := th.thSeq + i }, cp)
  else do
    let (th, cp) ← recvU (low.getLsbD 0) th cp
    let (th, cp) ← recvW (low.getLsbD 1) th cp
    let (th, cp) ← recvA (low.getLsbD 2) th cp
    recvS (low.getLsbD 3) th cp

/-- `NEW_I` -/
def recvI (new : Bool) (th : Hdr) (cp : List (BitVec 8)) : Option (Hdr × List (BitVec 8)) :=
  if new then
    match decode cp with
    | none => none
    | some (n, cp) => some ({ th with ipId := th.ipId + n }, cp)
  else some ({ th with ipId := th.ipId + 1#16 }, cp)

/-- The checksum, the push bit and the changes -/
def recvChanges (changes : BitVec 8) (th : Hdr) (cp : List (BitVec 8)) :
    Option (Hdr × List (BitVec 8)) :=
  match cp with
  | hi :: lo :: cp => do
    let (th, cp) ← recvDeltas (changes.setWidth 4)
      { th with thSum := hi ++ lo, thFlags := { th.thFlags with push := changes.getLsbD 4 } } cp
    recvI (changes.getLsbD 5) th cp
  | _ => none

/-- The total length and the header checksum -/
def finish (th : Hdr) (dataLen : ℕ) : Hdr :=
  let th := { th with ipLen := BitVec.ofNat 16 (dataLen + th.hlen) }
  { th with ipSum := ipCksum th }

/-- The changes are put into the header of the state `last_recv` -/
def recvInto (r : SlRecv) (changes : BitVec 8) (cp : List (BitVec 8)) : SlRecv × Option Hdr :=
  match r.rstate r.lastRecv with
  | none => r.bad
  | some th =>
    match recvChanges changes th cp with
    | none => r.bad
    | some (th, cp) =>
      let th := finish th cp.length
      ({ r with rstate := Function.update r.rstate r.lastRecv (some th) }, some th)

/-- `sl_uncompress_tcp_core`, with the header it returns -/
def slUncompressTcpCore (r : SlRecv) : Wire → SlRecv × Option Hdr
  | .ip => r.bad
  | .uncompressed h _ =>
    if h.ipP.toNat ≥ maxStates then r.bad
    else
      let h' := { h with ipP := ipprotoTcp }
      if h'.hlen > maxHdr then SlRecv.bad { r with lastRecv := h.ipP.toNat }
      else
        (⟨Function.update r.rstate h.ipP.toNat (some h'), h.ipP.toNat, false⟩, some h')
  | .compressed [] => r.bad
  | .compressed (changes :: cp) =>
    if changes.getLsbD 6 then
      match cp with
      | [] => r.bad
      | id :: cp =>
        if id.toNat ≥ maxStates then r.bad
        else recvInto { r with lastRecv := id.toNat, toss := false } changes cp
    else if r.toss then (r, none)
    else recvInto r changes cp

end FreeBSDSys.SlCompress
