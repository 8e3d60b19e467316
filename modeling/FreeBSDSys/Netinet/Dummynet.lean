import FreeBSDSys.Lib.ArrayHeap
import FreeBSDSys.Lib.Reachability

/-!
# The WF2Q+ scheduler of dummynet

A model of the weighted queues of one pipe of `netinet/ip_dummynet.c`.  Each flow has a queue of
packets, a start time `S` and a finish time `F`; the pipe has a virtual time `V`.  A flow with
packets is in the scheduler heap or in the not-eligible heap; a flow that has sent its last packet
stays in the idle heap until the virtual time has passed its finish time.

`ready_event_wfq` sends packets as long as the pipe has credit.  Its loop is modelled by single
rounds: `running` is the credit left while the function runs, and nothing else happens before it
returns, because the lock is held.

Times are 64-bit numbers that are compared by the sign of their difference.  An entry of
`flowSet` is a queue of the configuration, with its weight; `linked` says that the pipe of the queue
has been found.  A flow queue that does not exist is like one that has just been made.
-/

namespace FreeBSDSys.Dummynet

open ArrayHeap Function

/-! ## Keys -/

/-- The difference of two keys as a signed number -/
def keyDiff (a b : ℕ) : ℤ := Int.bmod (a - b) (2 ^ 64)

def dnKeyLt (a b : ℕ) : Bool := keyDiff a b < 0

def dnKeyLeq (a b : ℕ) : Bool := keyDiff a b ≤ 0

def dnKeyGt (a b : ℕ) : Bool := 0 < keyDiff a b

def max64 (x y : ℕ) : ℕ := if 0 < keyDiff y x then y else x

def keyAdd (a b : ℕ) : ℕ := (a + b) % 2 ^ 64

def myM : ℕ := 16

/-- `(len << MY_M) / w`, where the divisor is made an unsigned number -/
def scaled (len : ℕ) (w : ℤ) : ℕ := ((len <<< myM) % 2 ^ 64) / (w % 2 ^ 64).toNat

/-! ## The pipe -/

/-- A flow: the queue it belongs to, and its masked identification -/
structure FlowId where
  fs : ℕ
  id : ℕ
deriving DecidableEq

structure FlowQueue where
  /-- The lengths of the packets -/
  pkts : List ℕ
  S : ℕ
  F : ℕ

/-- A queue made by `create_queue` -/
def FlowQueue.fresh : FlowQueue := ⟨[], 1, 0⟩

structure FlowSet where
  weight : ℤ
  backlogged : ℤ
  linked : Bool

structure State where
  V : ℕ
  sum : ℤ
  numbytes : ℤ
  schedTime : ℕ
  bandwidth : ℤ
  /-- The transmit clock is a real interface -/
  ifName : Bool
  sch : Heap ℕ FlowId
  neh : Heap ℕ FlowId
  idle : Heap ℕ FlowId
  queue : FlowId → FlowQueue
  flowSet : ℕ → Option FlowSet
  currTime : ℕ
  /-- The credit left, while `ready_event_wfq` runs -/
  running : Option ℤ

def heapInsert (h : Heap ℕ FlowId) (key : ℕ) (q : FlowId) : Heap ℕ FlowId :=
  h.insert dnKeyLt ⟨key, q⟩

/-- `heap_extract(h, NULL)` -/
def heapExtract (h : Heap ℕ FlowId) : Heap ℕ FlowId :=
  if h.elements = 0 then h else h.extractAt dnKeyLt 0

/-- `heap_extract(h, q)`; the recorded slot has to be one of the heap -/
def heapExtractObj (h : Heap ℕ FlowId) (q : FlowId) : Option (Heap ℕ FlowId) :=
  if h.elements = 0 then some h
  else if 0 ≤ h.pos q ∧ h.pos q < h.elements then some (h.extractAt dnKeyLt (h.pos q).toNat)
  else none

def fsRemoveFromHeap (h : Heap ℕ FlowId) (fs : ℕ) : Heap ℕ FlowId :=
  h.removeAll dnKeyLt fun q => q.fs == fs

/-! ## Sending packets -/

/-- The start of `ready_event_wfq`, which does nothing while the interface is busy -/
def wfqStart (busy : Bool) (s : State) : State :=
  if s.ifName then
    if busy then s else { s with running := some s.numbytes }
  else { s with running := some (s.numbytes + (s.currTime - s.schedTime) * s.bandwidth) }

def lenScaled (hz : ℕ) (bandwidth : ℤ) (len : ℕ) : ℤ :=
  if bandwidth = 0 then 0 else len * 8 * hz

/-- The flow has sent its last packet -/
def retire (s : State) (q : FlowId) (fs : FlowSet) (V : ℕ) : State :=
  { s with
    sch := heapExtract s.sch
    V := V
    queue := update s.queue q ⟨[], (s.queue q).F, (s.queue q).F⟩
    flowSet := update s.flowSet q.fs (some { fs with backlogged := fs.backlogged - 1 })
    idle := heapInsert s.idle (s.queue q).F q }

/-- The flow has more packets, and a new finish time -/
def requeue (s : State) (q : FlowId) (rest : List ℕ) (V F : ℕ) : State :=
  if dnKeyLeq (s.queue q).F V then
    { s with
      sch := heapExtract s.sch
      V := V
      queue := update s.queue q ⟨rest, (s.queue q).F, F⟩
      neh := heapInsert s.neh (s.queue q).F q }
  else
    { s with
      sch := heapInsert (heapExtract s.sch) F q
      V := V
      queue := update s.queue q ⟨rest, (s.queue q).F, F⟩ }

/-- A packet of the flow at the top of the scheduler heap is sent.  There is no result when the flow
has no packet or a divisor is zero. -/
def serve (hz : ℕ) (s : State) (n : ℤ) : Option (State × ℤ) :=
  let q := (s.sch.p 0).object
  match (s.queue q).pkts, s.flowSet q.fs with
  | len :: rest, some fs =>
    if s.sum = 0 then none
    else
      let n := n - lenScaled hz s.bandwidth len
      let V := keyAdd s.V (scaled len s.sum)
      match rest with
      | [] => some (retire s q fs V, n)
      | len' :: _ =>
        if fs.weight = 0 then none
        else some (requeue s q rest V (keyAdd (s.queue q).F (scaled len' fs.weight)), n)
  | _, _ => none

/-- `V = max(V, min(S_i))`, when no flow is eligible -/
def advance (s : State) : State :=
  if s.sch.elements = 0 ∧ 0 < s.neh.elements then { s with V := max64 s.V (s.neh.p 0).key } else s

/-- Flows that have become eligible are moved to the scheduler heap -/
def promote : ℕ → State → State
  | 0, s => s
  | fuel + 1, s =>
    if 0 < s.neh.elements ∧ dnKeyLeq (s.neh.p 0).key s.V then
      let q := (s.neh.p 0).object
      promote fuel { s with
        neh := heapExtract s.neh
        sch := heapInsert s.sch (s.queue q).F q }
    else s

/-- The condition of the loop -/
def more (s : State) (n : ℤ) : Prop :=
  0 ≤ n ∧ (0 < s.sch.elements ∨ 0 < s.neh.elements)

instance (s : State) (n : ℤ) : Decidable (more s n) := inferInstanceAs (Decidable (_ ∧ _))

/-- The rest of a round, after a packet may have been sent -/
def settle (r : State × ℤ) : State :=
  let s := promote r.1.neh.elements (advance r.1)
  { s with running := some (if s.ifName then -1 else r.2) }

/-- One round of the loop of `ready_event_wfq` -/
def wfqRound (hz : ℕ) (s : State) : Option State :=
  match s.running with
  | some n =>
    if more s n then
      (if 0 < s.sch.elements then serve hz s n else some (s, n)).map settle
    else none
  | none => none

/-- The idle heap is given up, and the flows in it get invalid time stamps -/
def dropIdle (s : State) : State :=
  { s with
    queue := fun q =>
      if q ∈ s.idle.members then { s.queue q with S := keyAdd 0 1, F := 0 } else s.queue q
    sum := 0
    V := 0
    idle := { s.idle with elements := 0 } }

def intMax : ℤ := 2 ^ 31 - 1

def intMin : ℤ := -2 ^ 31

/-- What `ready_event_wfq` does after its loop -/
def wfqFinish (s : State) : Option State :=
  match s.running with
  | some n =>
    if more s n then none
    else
      let s := if s.sch.elements = 0 ∧ s.neh.elements = 0 ∧ 0 ≤ n ∧ 0 < s.idle.elements then
        dropIdle s else s
      some { s with
        schedTime := if s.ifName = false ∧ n < 0 then s.currTime else s.schedTime
        numbytes := if intMax < n then intMax else if n < intMin then intMin else n
        running := none }
  | none => none

/-! ## Packets, ticks and the configuration -/

/-- The start time of a flow that gets a packet, with the sum of the weights and the idle heap -/
def startTime (s : State) (q : FlowId) (fs : FlowSet) : Option (ℕ × ℤ × Heap ℕ FlowId) :=
  if dnKeyGt (s.queue q).S (s.queue q).F then some (s.V, s.sum + fs.weight, s.idle)
  else (heapExtractObj s.idle q).map fun idle => (max64 (s.queue q).F s.V, s.sum, idle)

/-- The flow has been given its times -/
def activate (s : State) (q : FlowId) (fs : FlowSet) (len S F : ℕ) (sum : ℤ)
    (idle : Heap ℕ FlowId) : State :=
  { s with
    sum := sum
    idle := idle
    V := if s.neh.elements = 0 ∧ s.sch.elements = 0 then max64 S s.V else s.V
    queue := update s.queue q ⟨[len], S, F⟩
    flowSet := update s.flowSet q.fs
      (some { fs with backlogged := fs.backlogged + 1, linked := true }) }

/-- The flow is put into one of the two heaps, and the pipe is started if it has credit -/
def schedule (s : State) (q : FlowId) (S F : ℕ) (busy : Bool) : State :=
  if dnKeyGt S s.V then { s with neh := heapInsert s.neh S q }
  else if 0 ≤ s.numbytes then
    wfqStart busy { s with sch := heapInsert s.sch F q, schedTime := s.currTime }
  else { s with sch := heapInsert s.sch F q }

/-- A packet for a flow of a weighted queue.  It may be dropped, by chance or because the flow has
too many; a packet for a queue that does not exist is dropped. -/
def dummynetIo (s : State) (q : FlowId) (len : ℕ) (drop busy : Bool) : Option State :=
  match s.flowSet q.fs with
  | none => some s
  | some fs =>
    if drop then
      some { s with flowSet := update s.flowSet q.fs (some { fs with linked := true }) }
    else if (s.queue q).pkts ≠ [] then
      some { s with
        flowSet := update s.flowSet q.fs (some { fs with linked := true })
        queue := update s.queue q
          { s.queue q with pkts := (s.queue q).pkts ++ [len] } }
    else
      match startTime s q fs with
      | some (S, sum, idle) =>
        if fs.weight = 0 then none
        else
          let F := keyAdd S (scaled len fs.weight)
          some (schedule (activate s q fs len S F sum idle) q S F busy)
      | none => none

/-- What `dummynet_task` does with the idle heap of the pipe -/
def sweep (s : State) : Option State :=
  if 0 < s.idle.elements ∧ dnKeyLt (s.idle.p 0).key s.V then
    let q := (s.idle.p 0).object
    match s.flowSet q.fs with
    | some fs =>
      some { s with
        idle := heapExtract s.idle
        queue := update s.queue q
          { s.queue q with S := keyAdd (s.queue q).F 1 }
        sum := s.sum - fs.weight }
    | none => none
  else some s

/-- `expire_queues` frees the queue of a flow -/
def expireQueue (s : State) (q : FlowId) : State :=
  if (s.queue q).pkts = [] ∧ (s.queue q).S = keyAdd (s.queue q).F 1 then
    { s with queue := update s.queue q .fresh }
  else s

/-- The weight of a new queue -/
def configWeight (w : ℤ) : ℤ := if w = 0 then 1 else if 100 < w then 100 else w

/-- A queue is made; the weight of a queue that is there does not change -/
def configQueue (s : State) (k : ℕ) (w : ℤ) : State :=
  match s.flowSet k with
  | none => { s with flowSet := update s.flowSet k (some ⟨configWeight w, 0, false⟩) }
  | some _ => s

def configPipe (s : State) (bandwidth : ℤ) (ifName : Bool) : State :=
  { s with bandwidth := bandwidth, numbytes := 0, ifName := ifName }

/-- The flows of a queue leave the heaps of the pipe -/
def unlinkFlows (s : State) (k : ℕ) (fs : FlowSet) : State :=
  { s with
    sum := s.sum - fs.weight * fs.backlogged
    neh := fsRemoveFromHeap s.neh k
    sch := fsRemoveFromHeap s.sch k
    idle := fsRemoveFromHeap s.idle k }

/-- The flows of a queue are freed, and the queue itself -/
def purgeFlowSet (s : State) (k : ℕ) : State :=
  { s with
    flowSet := update s.flowSet k none
    queue := fun q => if q.fs = k then .fresh else s.queue q }

/-- `delete_pipe` of a queue -/
def deleteQueue (s : State) (k : ℕ) : State :=
  match s.flowSet k with
  | none => s
  | some fs => purgeFlowSet (if fs.linked then unlinkFlows s k fs else s) k

/-! ## Steps -/

/-- What happens to the pipe from outside -/
inductive Event where
  | io (q : FlowId) (len : ℕ) (drop busy : Bool)
  | ready (busy : Bool)
  | clock (t : ℕ)
  | sweep
  | expire (q : FlowId)
  | configQueue (k : ℕ) (w : ℤ)
  | configPipe (bandwidth : ℤ) (ifName : Bool)
  | delete (k : ℕ)

def handle (s : State) : Event → Option State
  | .io q len drop busy => dummynetIo s q len drop busy
  | .ready busy => some (wfqStart busy s)
  | .clock t => some { s with currTime := t }
  | .sweep => sweep s
  | .expire q => some (expireQueue s q)
  | .configQueue k w => some (configQueue s k w)
  | .configPipe bandwidth ifName => some (configPipe s bandwidth ifName)
  | .delete k => some (deleteQueue s k)

inductive Act where
  | event (e : Event)
  | round
  | finish

/-- One step.  While `ready_event_wfq` runs there are only its rounds and its end. -/
def step (hz : ℕ) (s : State) : Act → Option State
  | .event e => if s.running = none then handle s e else none
  | .round => wfqRound hz s
  | .finish => wfqFinish s

/-- A new pipe -/
structure Init (s : State) : Prop where
  V : s.V = 0
  sum : s.sum = 0
  numbytes : s.numbytes = 0
  schedTime : s.schedTime = 0
  sch : s.sch.elements = 0
  neh : s.neh.elements = 0
  idle : s.idle.elements = 0
  queue : ∀ q, s.queue q = .fresh
  flowSet : ∀ k, s.flowSet k = none
  running : s.running = none

/-- A pipe with a simulated clock, as `config_pipe` makes it -/
def newPipe (bandwidth : ℤ) : State where
  V := 0
  sum := 0
  numbytes := 0
  schedTime := 0
  bandwidth := bandwidth
  ifName := false
  sch := ⟨fun _ => ⟨0, ⟨0, 0⟩⟩, 0, fun _ => 0⟩
  neh := ⟨fun _ => ⟨0, ⟨0, 0⟩⟩, 0, fun _ => 0⟩
  idle := ⟨fun _ => ⟨0, ⟨0, 0⟩⟩, 0, fun _ => 0⟩
  queue := fun _ => .fresh
  flowSet := fun _ => none
  currTime := 0
  running := none

theorem init_newPipe (bandwidth : ℤ) : Init (newPipe bandwidth) :=
  ⟨rfl, rfl, rfl, rfl, rfl, rfl, rfl, fun _ => rfl, fun _ => rfl, rfl⟩

/-- A list of steps -/
def runActs (hz : ℕ) : State → List Act → Option State
  | s, [] => some s
  | s, a :: acts => (step hz s a).bind fun s' => runActs hz s' acts

/-- A list of steps that are steps of a relation is a run of it. -/
theorem reachable_runActs {hz : ℕ} {R : State → State → Prop} {acts : List Act} {s s' : State}
    (hR : ∀ a ∈ acts, ∀ s s', step hz s a = some s' → R s s') (hs : Reachable Init R s)
    (hrun : runActs hz s acts = some s') : Reachable Init R s' := by
  induction acts generalizing s with
  | nil =>
    cases hrun
    exact hs
  | cons a acts ih =>
    obtain ⟨s1, hstep, hrest⟩ := Option.bind_eq_some_iff.mp hrun
    exact ih (fun b hb => hR b (List.mem_cons_of_mem a hb))
      (hs.tail (hR a List.mem_cons_self s s1 hstep)) hrest

end FreeBSDSys.Dummynet
