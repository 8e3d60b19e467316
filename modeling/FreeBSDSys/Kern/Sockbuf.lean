import FreeBSDSys.Lib.Records

/-!
# Socket buffers

A socket buffer is a list of records, and a record is a chain of mbufs.  Next to the list,
`struct sockbuf` keeps the first mbuf of the last record (`sb_lastrecord`), the last mbuf of that
record (`sb_mbtail`), and five counters.  This file embeds the functions that append to a buffer and
drop from its front.

The links `m_nextpkt` and `m_next` are the list of lists `recs`; `sb_mb` is its first element.
Mbufs have addresses, and a function that follows a pointer looks for the address among the stored
mbufs. It has no result (`none`) where the source panics or follows a pointer to an mbuf that was
freed.

* `sballoc`, `sbfree`, `sbcompress`: the parts.
* `sbappend`, `sbappendstream`, `sbappendrecord`, `sbappendaddr`, `sbappendcontrol`: appending.
* `sbdrop`, `sbdroprecord`: dropping.
-/

namespace FreeBSDSys.Sockbuf

abbrev Octet := BitVec 8

/-- The address of an mbuf. -/
abbrev Ptr := ℕ

/-- `m_type` -/
inductive MType
  | data
  | soname
  | control
  | oobdata
  | other (type : ℕ)
deriving DecidableEq, Repr

/-- An mbuf: its type, `M_EOR`, `M_EXT` with `ext_size`, `M_PKTHDR` with the length of the packet,
the space behind the data, and the data. -/
structure Mbuf where
  ptr : Ptr
  type : MType
  eor : Bool
  ext : Option (BitVec 32)
  pkthdr : Option (BitVec 32)
  room : ℕ
  data : List Octet
deriving DecidableEq, Repr

def Mbuf.len (m : Mbuf) : ℕ := m.data.length

/-- Set or clear `M_EOR`. -/
def Mbuf.setEor (b : Bool) (m : Mbuf) : Mbuf := { m with eor := b }

/-- The counters `sb_cc`, `sb_ctl`, `sb_mbcnt`, `sb_mcnt` and `sb_ccnt`. -/
inductive Counter
  | cc
  | ctl
  | mbcnt
  | mcnt
  | ccnt
deriving DecidableEq, Repr

/-- What the data of an mbuf counts. -/
def dataWeight (m : Mbuf) : Counter → BitVec 32
  | .cc => BitVec.ofNat 32 m.len
  | .ctl => if m.type ≠ .data ∧ m.type ≠ .oobdata then BitVec.ofNat 32 m.len else 0
  | _ => 0

/-- What the mbuf itself counts; `MSIZE` is 256. -/
def hdrWeight (m : Mbuf) : Counter → BitVec 32
  | .mbcnt => 256 + m.ext.getD 0
  | .mcnt => 1
  | .ccnt => if m.ext.isSome then 1 else 0
  | _ => 0

/-- What an mbuf counts. -/
def weight (m : Mbuf) : Counter → BitVec 32 := dataWeight m + hdrWeight m

/-- `struct sockbuf` -/
structure SockBuf where
  recs : List (List Mbuf)
  mbtail : Option Ptr
  lastrecord : Option Ptr
  sndptr : Option Ptr
  sndptroff : BitVec 32
  cnt : Counter → BitVec 32
  hiwat : BitVec 32
  mbmax : BitVec 32
  noCoalesce : Bool

/-- `sballoc` -/
def sballoc (sb : SockBuf) (m : Mbuf) : SockBuf := { sb with cnt := sb.cnt + weight m }

/-- `sbfree` -/
def sbfree (sb : SockBuf) (m : Mbuf) : SockBuf :=
  let off := if sb.sndptr = some m.ptr then 0 else sb.sndptroff
  { sb with
    cnt := sb.cnt - weight m
    sndptr := if sb.sndptr = some m.ptr then none else sb.sndptr
    sndptroff := if off ≠ 0 then off - BitVec.ofNat 32 m.len else off }

/-- `sbspace` -/
def sbspace (sb : SockBuf) : ℤ := min (sb.hiwat - sb.cnt .cc).toInt (sb.mbmax - sb.cnt .mbcnt).toInt

/-! ## Links -/

/-- The stored mbufs. -/
def SockBuf.stored (sb : SockBuf) : List Mbuf := sb.recs.flatten

/-- The mbuf at an address. -/
def SockBuf.find (sb : SockBuf) (p : Ptr) : Option Mbuf := sb.stored.find? fun m => m.ptr = p

/-- Change the mbuf at an address. -/
def SockBuf.modify (sb : SockBuf) (p : Ptr) (f : Mbuf → Mbuf) : SockBuf :=
  { sb with recs := sb.recs.map (List.map fun m => if m.ptr = p then f m else m) }

/-- The first mbuf of a record. -/
def first (r : List Mbuf) : Option Ptr := r.head?.map Mbuf.ptr

/-- The last mbuf of a record. -/
def last (r : List Mbuf) : Option Ptr := r.getLast?.map Mbuf.ptr

/-- The chain in which `m_next` of the mbuf at `p` is set to `m`. -/
def setNext (p : Ptr) (m : Mbuf) : List Mbuf → List Mbuf
  | [] => []
  | a :: l => if a.ptr = p then [a, m] else a :: setNext p m l

/-- The records, where `m_nextpkt` of the record that begins at `p` is set to `r`. -/
def setNextpkt (p : Ptr) (r : List Mbuf) : List (List Mbuf) → List (List Mbuf)
  | [] => []
  | a :: l => if first a = some p then [a, r] else a :: setNextpkt p r l

/-- `SBLINKRECORD` -/
def sblinkrecord (sb : SockBuf) (r : List Mbuf) : SockBuf :=
  { sb with
    recs := match sb.lastrecord with
      | some p => setNextpkt p r sb.recs
      | none => [r]
    lastrecord := first r }

/-! ## Appending -/

/-- The mbuf `m` may be copied behind `n`; `MCLBYTES` is 2048, and `wr` is `M_WRITABLE`. -/
def Coalesces (wr : Ptr → Bool) (noCoalesce : Bool) (n m : Mbuf) : Prop :=
  n.eor = false ∧ wr n.ptr = true ∧ noCoalesce = false ∧ m.len ≤ 2048 / 4 ∧ m.len ≤ n.room ∧
    n.type = m.type

instance (wr : Ptr → Bool) (noCoalesce : Bool) (n m : Mbuf) :
    Decidable (Coalesces wr noCoalesce n m) :=
  inferInstanceAs (Decidable (_ ∧ _))

/-- The data of `m` behind that of `n`. -/
def Mbuf.append (n m : Mbuf) : Mbuf :=
  { n with data := n.data ++ m.data, room := n.room - m.len }

/-- Link `m` behind the mbuf at `n`, or as the first one. -/
def linkMbuf (sb : SockBuf) (n : Option Ptr) (m : Mbuf) : SockBuf :=
  let sb := sballoc sb m
  { sb with
    recs := match n with
      | some p => sb.recs.map (setNext p (m.setEor false))
      | none => [[m.setEor false]]
    mbtail := some m.ptr }

/-- `sbcompress`: the chain goes behind the mbuf at `n`. -/
def sbcompress (wr : Ptr → Bool) (sb : SockBuf) (n : Option Ptr) (eor : Bool) :
    List Mbuf → Option SockBuf
  | [] =>
    if eor then n.map (sb.modify · (Mbuf.setEor true))
    else some sb
  | m :: rest => do
    let eor := eor || m.eor
    let nm ← match n with
      | some p => (sb.find p).map some
      | none => some none
    if m.data = [] ∧ (eor = false ∨ ∃ o ∈ rest.head?.or nm, o.type = m.type) then
      sbcompress wr
        { sb with
          lastrecord := if sb.lastrecord = some m.ptr then first rest else sb.lastrecord }
        n eor rest
    else if ∃ a ∈ nm, Coalesces wr sb.noCoalesce a m then
      let sb := nm.elim sb fun a => sb.modify a.ptr (Mbuf.append · m)
      sbcompress wr { sb with cnt := sb.cnt + dataWeight m } n eor rest
    else
      sbcompress wr (linkMbuf sb n m) (some m.ptr) eor rest

/-- `sbappendrecord_locked` -/
def sbappendrecord (wr : Ptr → Bool) (sb : SockBuf) : List Mbuf → Option SockBuf
  | [] => some sb
  | m₀ :: rest =>
    let m := sb.recs.getLast?.bind first
    let sb := sblinkrecord (sballoc sb m₀) [m₀]
    let sb := { sb with
      recs := match m with
        | some p => setNextpkt p [m₀] sb.recs
        | none => [[m₀]] }
    -- the mark goes to the next mbuf
    if rest ≠ [] ∧ m₀.eor = true then
      sbcompress wr (sb.modify m₀.ptr (Mbuf.setEor false)) (some m₀.ptr) false
        (rest.modifyHead (Mbuf.setEor true))
    else
      sbcompress wr sb (some m₀.ptr) false rest

/-- The last record has an mbuf with `M_EOR`. -/
def SockBuf.Ended (sb : SockBuf) : Prop := ∃ r ∈ sb.recs.getLast?, ∃ m ∈ r, m.eor = true

instance (sb : SockBuf) : Decidable sb.Ended :=
  inferInstanceAs (Decidable (∃ r ∈ sb.recs.getLast?, ∃ m ∈ r, m.eor = true))

/-- `sbappend_locked` -/
def sbappend (wr : Ptr → Bool) (sb : SockBuf) (chain : List Mbuf) : Option SockBuf :=
  if chain = [] then some sb
  else
    match sb.recs.getLast? with
    | some r =>
      if sb.Ended then sbappendrecord wr sb chain else sbcompress wr sb (last r) false chain
    | none =>
      -- without records, `sb_lastrecord` points to none
      match sb.lastrecord with
      | some _ => none
      | none => sbcompress wr { sb with lastrecord := first chain } none false chain

/-- `sbappendstream_locked` -/
def sbappendstream (wr : Ptr → Bool) (sb : SockBuf) (chain : List Mbuf) : Option SockBuf := do
  let sb ← sbcompress wr sb sb.mbtail false chain
  some { sb with lastrecord := sb.recs.head?.bind first }

/-- `m_length` -/
def mLength (chain : List Mbuf) : BitVec 32 := (chain.map fun m => BitVec.ofNat 32 m.len).sum

/-- The whole chain becomes a record. -/
def linkChain (sb : SockBuf) (chain : List Mbuf) : SockBuf :=
  { sblinkrecord (chain.foldl sballoc sb) chain with mbtail := last chain }

/-- `MLEN` on a machine with 64 bits. -/
def mlen : ℕ := 216

/-- `sbappendaddr_locked`; `mget` is the mbuf for the address, if there is one. -/
def sbappendaddr (sb : SockBuf) (asa : List Octet) (m₀ control : List Mbuf) (mget : Option Ptr) :
    Option (SockBuf × Bool) :=
  if ∃ m ∈ m₀.head?, m.pkthdr = none then none
  else
    let space := BitVec.ofNat 32 asa.length + (m₀.head?.bind Mbuf.pkthdr).getD 0 + mLength control
    if sbspace sb < space.toInt then some (sb, false)
    else if mlen < asa.length then some (sb, false)
    else
      match mget with
      | none => some (sb, false)
      | some p =>
        some (linkChain sb (⟨p, .soname, false, none, none, mlen - asa.length, asa⟩ ::
          (control ++ m₀)), true)

/-- `sbappendcontrol_locked` -/
def sbappendcontrol (sb : SockBuf) (m₀ control : List Mbuf) : Option (SockBuf × Bool) :=
  if control = [] then none
  else if sbspace sb < (mLength control + mLength m₀).toInt then some (sb, false)
  else some (linkChain sb (control ++ m₀), true)

/-! ## Dropping -/

/-- Cut bytes off the front of an mbuf. -/
def Mbuf.cut (m : Mbuf) (len : ℕ) : Mbuf := { m with data := m.data.drop len }

/-- The first loop of `sbdrop_internal` in one record: what is still to be dropped, and what is left
of the record. -/
def dropChain (sb : SockBuf) (len : ℕ) : List Mbuf → SockBuf × ℕ × List Mbuf
  | [] => (sb, len, [])
  | m :: rest =>
    if len = 0 then (sb, 0, m :: rest)
    else if len < m.len then
      ({ sb with
        cnt := sb.cnt - dataWeight { m with data := m.data.take len }
        sndptroff :=
          if sb.sndptroff ≠ 0 then sb.sndptroff - BitVec.ofNat 32 len else sb.sndptroff },
        0, m.cut len :: rest)
    else dropChain (sbfree sb m) (len - m.len) rest

/-- The first loop, from record to record. -/
def dropRecs (sb : SockBuf) (len : ℕ) (m : List Mbuf) :
    List (List Mbuf) → Option (SockBuf × List Mbuf × List (List Mbuf))
  | [] =>
    let d := dropChain sb len m
    if d.2.1 = 0 then some (d.1, d.2.2, []) else none
  | r :: next =>
    let d := dropChain sb len m
    if d.2.1 = 0 then some (d.1, d.2.2, r :: next) else dropRecs d.1 d.2.1 r next

/-- The second loop: empty mbufs at the front of a record are freed. -/
def dropEmpty (sb : SockBuf) : List Mbuf → SockBuf × List Mbuf
  | [] => (sb, [])
  | m :: rest => if m.len = 0 then dropEmpty (sbfree sb m) rest else (sb, m :: rest)

/-- `sbdrop_internal` -/
def sbdrop (sb : SockBuf) (len : ℕ) : Option SockBuf := do
  let (sb, m, next) ← dropRecs sb len (sb.recs.headD []) sb.recs.tail
  let (sb, m) := dropEmpty sb m
  let recs := if m = [] then next else m :: next
  some { sb with
    recs := recs
    mbtail := if recs = [] then none else sb.mbtail
    lastrecord := match recs with
      | [] => none
      | [r] => first r
      | _ => sb.lastrecord }

/-- `sbdroprecord_locked`, with `SB_EMPTY_FIXUP`. -/
def sbdroprecord (sb : SockBuf) : SockBuf :=
  let sb := { (sb.recs.headD []).foldl sbfree sb with recs := sb.recs.tail }
  { sb with
    mbtail := if sb.recs = [] then none else sb.mbtail
    lastrecord := if sb.recs = [] then none else sb.lastrecord }

end FreeBSDSys.Sockbuf
