import FreeBSDSys.Netinet.TcpSeq

/-!
# The SACK scoreboard

A sender keeps the bytes the receiver reports missing as a queue of holes, oldest first.
`tcp_sack_doack` updates it from an acknowledgment and its SACK blocks: it collects the blocks that
make sense, sorts them by their ends, appends a hole behind the last byte reported before, and then
walks blocks and holes backwards once, deleting, trimming and splitting holes.  Two hints make the
scoreboard cheap to use: the number of bytes retransmitted from the holes, and the next hole to
retransmit from.  This file embeds these functions and the part of `tcp_output` that retransmits.

The sweep works on the queue split at `cur`: the holes up to `cur`, nearest first, and the holes
behind it.  A hole is known by the number of the allocation it came from.  The zone may hand out the
memory of a freed hole again, but `nexthole` never points to a freed hole, so that comparing pointers
is comparing these numbers.

* `tcpSackholeAlloc`, `tcpSackholeInsert`, `tcpSackholeRemove`: the account kept beside the queue.
* `sackBlocks`, `sortBlocks`, `extend`, `sweepStep`, `sweep`, `tcpSackDoack`: the update.
* `tcpFreeSackholes`, `tcpSackOutput`, `tcpSackRexmit`: clearing the scoreboard and using it.
-/

namespace FreeBSDSys.Tcp

/-- A SACK block as received; `stop` is the source's `end`. -/
structure Sackblk where
  start : TcpSeq
  stop : TcpSeq
deriving DecidableEq, Repr

/-- A hole of the scoreboard; what lies before `rxmit` has been retransmitted. -/
structure Sackhole where
  serial : ℕ
  start : TcpSeq
  stop : TcpSeq
  rxmit : TcpSeq
deriving DecidableEq, Repr

/-- The limits `V_tcp_sack_maxholes` and `V_tcp_sack_globalmaxholes`. -/
structure Limits where
  maxholes : ℤ
  globalmaxholes : ℤ

/-- What is kept beside the queue of holes.  The last three fields are the model's own: the number
of the next allocation, the outcomes of the coming `uma_zalloc` calls (none left: no memory), and
whether an allocation has failed. -/
structure Account where
  sndNumholes : ℤ
  globalholes : ℤ
  nexthole : Option ℕ
  sackBytesRexmit : BitVec 32
  serial : ℕ
  uma : List Bool
  failed : Bool
deriving DecidableEq, Repr

/-- The fields of the connection the scoreboard depends on. -/
structure Tcpcb extends Account where
  sndUna : TcpSeq
  sndMax : TcpSeq
  sndFack : TcpSeq
  sndHoles : List Sackhole
deriving DecidableEq, Repr

/-! ## Holes -/

/-- `uma_zalloc(sack_hole_zone, M_NOWAIT)`. -/
def umaZalloc (a : Account) : Option ℕ × Account :=
  match a.uma with
  | true :: uma => (some a.serial, { a with serial := a.serial + 1, uma })
  | false :: uma => (none, { a with uma })
  | [] => (none, a)

/-- `tcp_sackhole_alloc`. -/
def tcpSackholeAlloc (lim : Limits) (a : Account) (start stop : TcpSeq) :
    Option Sackhole × Account :=
  if lim.maxholes ≤ a.sndNumholes ∨ lim.globalmaxholes ≤ a.globalholes then
    (none, { a with failed := true })
  else
    match umaZalloc a with
    | (none, a) => (none, { a with failed := true })
    | (some serial, a) =>
      (some { serial, start, stop, rxmit := start },
        { a with sndNumholes := a.sndNumholes + 1, globalholes := a.globalholes + 1 })

/-- `tcp_sackhole_free`. -/
def tcpSackholeFree (a : Account) : Account :=
  { a with sndNumholes := a.sndNumholes - 1, globalholes := a.globalholes - 1 }

/-- `tcp_sackhole_insert`, up to the place in the queue where the caller puts the hole. -/
def tcpSackholeInsert (lim : Limits) (a : Account) (start stop : TcpSeq) :
    Option Sackhole × Account :=
  match tcpSackholeAlloc lim a start stop with
  | (none, a) => (none, a)
  | (some hole, a) =>
    (some hole, { a with nexthole := if a.nexthole = none then some hole.serial else a.nexthole })

/-- `tcp_sackhole_remove` of a hole with the hole `next` behind it. -/
def tcpSackholeRemove (a : Account) (hole : Sackhole) (next : Option Sackhole) : Account :=
  tcpSackholeFree
    { a with
      nexthole := if a.nexthole = some hole.serial then next.map Sackhole.serial else a.nexthole }

/-! ## The blocks of an acknowledgment -/

/-- The test a received block has to pass. -/
def validBlock (tp : Tcpcb) (thAck : TcpSeq) (sack : Sackblk) : Prop :=
  seqGt sack.stop sack.start ∧ seqGt sack.start tp.sndUna ∧ seqGt sack.start thAck ∧
    seqLt sack.start tp.sndMax ∧ seqGt sack.stop tp.sndUna ∧ seqLeq sack.stop tp.sndMax

instance (tp : Tcpcb) (thAck : TcpSeq) (sack : Sackblk) : Decidable (validBlock tp thAck sack) :=
  inferInstanceAs (Decidable (_ ∧ _))

/-- The block that stands for the cumulative acknowledgment. -/
def ackBlock (tp : Tcpcb) (thAck : TcpSeq) : List Sackblk :=
  if seqLt tp.sndUna thAck ∧ tp.sndHoles ≠ [] then [⟨tp.sndUna, thAck⟩] else []

/-- The array `sack_blocks` before it is sorted. -/
def sackBlocks (tp : Tcpcb) (sacks : List Sackblk) (thAck : TcpSeq) : List Sackblk :=
  ackBlock tp thAck ++ sacks.filter fun sack => validBlock tp thAck sack

/-- The inner loop of the sort: `x` is `sack_blocks[i]`, the list what lies behind it. -/
def exchange (x : Sackblk) : List Sackblk → Sackblk × List Sackblk
  | [] => (x, [])
  | y :: ys =>
    if seqGt x.stop y.stop then
      ((exchange y ys).1, x :: (exchange y ys).2)
    else
      ((exchange x ys).1, y :: (exchange x ys).2)

/-- The sort by ends; `n` rounds of the outer loop. -/
def sortFor : ℕ → List Sackblk → List Sackblk
  | 0, l => l
  | _, [] => []
  | n + 1, x :: l => (exchange x l).1 :: sortFor n (exchange x l).2

def sortBlocks (l : List Sackblk) : List Sackblk := sortFor l.length l

/-! ## The update of the scoreboard -/

/-- The step before the sweep: advance `snd_fack` to the last block and append the hole in front of
it.  The blocks come last first; those left for the sweep are returned. -/
def extend (lim : Limits) (tp : Tcpcb) : List Sackblk → Tcpcb × List Sackblk
  | [] => (tp, [])
  | sblk :: blks =>
    if seqLt tp.sndFack sblk.start then
      match tcpSackholeInsert lim tp.toAccount tp.sndFack sblk.start with
      | (some temp, a) =>
        ({ tp with toAccount := a, sndFack := sblk.stop, sndHoles := tp.sndHoles ++ [temp] }, blks)
      | (none, a) =>
        -- skip the blocks behind `snd_fack`
        match (sblk :: blks).dropWhile fun blk => seqLt tp.sndFack blk.start with
        | [] => ({ tp with toAccount := a }, [])
        | blk :: rest =>
          ({ tp with
              toAccount := a
              sndFack := if seqLt tp.sndFack blk.stop then blk.stop else tp.sndFack },
            blk :: rest)
    else
      ({ tp with sndFack := if seqLt tp.sndFack sblk.stop then sblk.stop else tp.sndFack },
        sblk :: blks)

/-- The state of the sweep: the blocks down from `sblkp`, the holes down from `cur`, and the holes
behind `cur`. -/
structure Sweep where
  acct : Account
  blks : List Sackblk
  before : List Sackhole
  behind : List Sackhole
deriving DecidableEq, Repr

/-- The queue of holes. -/
def Sweep.holes (s : Sweep) : List Sackhole := s.before.reverse ++ s.behind

/-- `sack_bytes_rexmit -= (cur->rxmit - cur->start)`. -/
def Account.debit (a : Account) (cur : Sackhole) : Account :=
  { a with sackBytesRexmit := a.sackBytesRexmit - (cur.rxmit - cur.start) }

/-- `sack_bytes_rexmit += (cur->rxmit - cur->start)`. -/
def Account.credit (a : Account) (cur : Sackhole) : Account :=
  { a with sackBytesRexmit := a.sackBytesRexmit + (cur.rxmit - cur.start) }

/-- Move the start of a hole forward. -/
def Sackhole.moveStart (cur : Sackhole) (start : TcpSeq) : Sackhole :=
  { cur with start, rxmit := seqMax cur.rxmit start }

/-- Move the end of a hole backward. -/
def Sackhole.moveEnd (cur : Sackhole) (stop : TcpSeq) : Sackhole :=
  { cur with stop, rxmit := seqMin cur.rxmit stop }

/-- The end of a turn: go on with the block before or with the hole before. -/
def sweepNext (a : Account) (sblk : Sackblk) (blks : List Sackblk) (cur : Sackhole)
    (before behind : List Sackhole) : Sweep :=
  if seqLeq sblk.start cur.start then
    ⟨a.credit cur, sblk :: blks, before, cur :: behind⟩
  else
    ⟨a.credit cur, blks, cur :: before, behind⟩

/-- One turn of the sweep at the block `sblk` and the hole `cur`. -/
def sweepStep (lim : Limits) (a : Account) (sblk : Sackblk) (blks : List Sackblk)
    (cur : Sackhole) (before behind : List Sackhole) : Sweep :=
  if seqGeq sblk.start cur.stop then
    ⟨a, blks, cur :: before, behind⟩
  else if seqLeq sblk.stop cur.start then
    ⟨a, sblk :: blks, before, cur :: behind⟩
  else if seqLeq sblk.start cur.start then
    if seqGeq sblk.stop cur.stop then
      ⟨tcpSackholeRemove (a.debit cur) cur behind.head?, sblk :: blks, before, behind⟩
    else
      sweepNext (a.debit cur) sblk blks (cur.moveStart sblk.stop) before behind
  else if seqGeq sblk.stop cur.stop then
    sweepNext (a.debit cur) sblk blks (cur.moveEnd sblk.start) before behind
  else
    match tcpSackholeInsert lim (a.debit cur) sblk.stop cur.stop with
    | (none, a) => sweepNext a sblk blks cur before behind
    | (some temp, a) =>
      if seqGt cur.rxmit temp.rxmit then
        let temp := { temp with rxmit := cur.rxmit }
        sweepNext (a.credit temp) sblk blks (cur.moveEnd sblk.start) before (temp :: behind)
      else
        sweepNext a sblk blks (cur.moveEnd sblk.start) before (temp :: behind)

/-- The sweep; every turn leaves a block or a hole behind, so that `n` turns are enough when there
are no more than `n` of them. -/
def sweep (lim : Limits) : ℕ → Sweep → Sweep
  | 0, s => s
  | n + 1, s =>
    match s.blks, s.before with
    | sblk :: blks, cur :: before =>
      sweep lim n (sweepStep lim s.acct sblk blks cur before s.behind)
    | _, _ => s

/-- The sweep at its start. -/
def sweepStart (tp : Tcpcb) (blks : List Sackblk) : Sweep :=
  ⟨tp.toAccount, blks, tp.sndHoles.reverse, []⟩

/-- The connection after the sweep. -/
def sweepHoles (lim : Limits) (tp : Tcpcb) (blks : List Sackblk) : Tcpcb :=
  let s := sweep lim (blks.length + tp.sndHoles.length) (sweepStart tp blks)
  { tp with toAccount := s.acct, sndHoles := s.holes }

/-- The connection as the step in front of the sweep sees it: an empty scoreboard starts at the
acknowledged end of the stream. -/
def prepared (tp : Tcpcb) (thAck : TcpSeq) (uma : List Bool) : Tcpcb :=
  { tp with
    sndFack := if tp.sndHoles = [] then seqMax tp.sndUna thAck else tp.sndFack
    uma
    failed := false }

/-- The blocks in the order of the sweep, last first. -/
def orderedBlocks (tp : Tcpcb) (sacks : List Sackblk) (thAck : TcpSeq) : List Sackblk :=
  (sortBlocks (sackBlocks tp sacks thAck)).reverse

/-- `tcp_sack_doack`; `sacks` are the blocks of the SACK option, none if the segment has no such
option, and `uma` the outcomes of the allocations. -/
def tcpSackDoack (lim : Limits) (tp : Tcpcb) (sacks : List Sackblk) (thAck : TcpSeq)
    (uma : List Bool) : Tcpcb :=
  if sackBlocks tp sacks thAck = [] then
    { tp with uma, failed := false }
  else
    let (tp, blks) := extend lim (prepared tp thAck uma) (orderedBlocks tp sacks thAck)
    sweepHoles lim tp blks

/-! ## The other users of the scoreboard -/

/-- `tcp_free_sackholes`. -/
def freeSackholes (a : Account) : List Sackhole → Account
  | [] => a
  | q :: holes => freeSackholes (tcpSackholeRemove a q holes.head?) holes

def tcpFreeSackholes (tp : Tcpcb) : Tcpcb :=
  { tp with
    toAccount := { freeSackholes tp.toAccount tp.sndHoles with sackBytesRexmit := 0 }
    sndHoles := [] }

/-- There is something left to retransmit from the hole. -/
def Sackhole.pending (h : Sackhole) : Prop := seqLt h.rxmit h.stop

instance (h : Sackhole) : Decidable h.pending := inferInstanceAs (Decidable (seqLt _ _))

/-- `tcp_sack_output`: the next hole to retransmit from. -/
def tcpSackOutput (tp : Tcpcb) : Option Sackhole × Tcpcb :=
  match tp.nexthole with
  | none => (none, tp)
  | some p =>
    -- the queue from the hint on
    match tp.sndHoles.dropWhile fun h => h.serial ≠ p with
    | [] => (none, tp)
    | hole :: holes =>
      if hole.pending then
        (some hole, tp)
      else
        match holes.find? fun h => h.pending with
        | some hole => (some hole, { tp with nexthole := some hole.serial })
        | none => (none, tp)

/-- `p->rxmit += len; sack_bytes_rexmit += len` for the hole `p`. -/
def advanceRxmit (tp : Tcpcb) (p : ℕ) (len : BitVec 32) : Tcpcb :=
  { tp with
    sackBytesRexmit := tp.sackBytesRexmit + len
    sndHoles := tp.sndHoles.map fun h =>
      if h.serial = p then { h with rxmit := h.rxmit + len } else h }

/-- The retransmission of `len` bytes in `tcp_output`.  When the packet could not be sent and the
error is one after which the advance is taken back, `backOut` holds. -/
def tcpSackRexmit (tp : Tcpcb) (len : BitVec 32) (backOut : Bool) : Tcpcb :=
  match tcpSackOutput tp with
  | (none, tp) => tp
  | (some p, tp) =>
    let tp := advanceRxmit tp p.serial len
    if backOut then advanceRxmit tp p.serial (-len) else tp

end FreeBSDSys.Tcp
