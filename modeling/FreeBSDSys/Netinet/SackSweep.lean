import FreeBSDSys.Lib.Spans
import FreeBSDSys.Netinet.Sack

/-!
# The sweep over blocks and holes

Inside a window sequence numbers are natural numbers, and a turn of the sweep is one of seven moves
on intervals: it passes a block or a hole, deletes a hole, moves its start or its end, or splits it,
which may fail for want of memory.  `sweepStep_turn` says so; everything else about the sweep is
read off the moves.

What carries the sweep is that the holes behind `cur` are settled: no block that is still to come
reaches one of them, because the blocks come in order of their ends.  So the bytes of the holes that
no remaining block covers (`Sweep.left`) stay the same from turn to turn.

* `Turn`, `sweepStep_turn`: what one turn does.
* `Sweep.Ok`, `Turn.ok`: the queue stays ordered and the holes behind `cur` settled.
* `Turn.mem_left`: no byte is forgotten, and without a failed allocation none is kept.
* `sweep_induction`, `sweep_swept`: the rule of the sweep, and the whole of it.
-/

namespace FreeBSDSys.Tcp

open List Sackhole SeqWindow Spans Sweep Set

/-! ## Holes and blocks in a window -/

def Sackhole.lo (b : TcpSeq) (h : Sackhole) : ℕ := off b h.start
def Sackhole.hi (b : TcpSeq) (h : Sackhole) : ℕ := off b h.stop
def Sackblk.lo (b : TcpSeq) (s : Sackblk) : ℕ := off b s.start
def Sackblk.hi (b : TcpSeq) (s : Sackblk) : ℕ := off b s.stop

/-- A hole whose ends lie in the window. -/
structure Sackhole.In (b : TcpSeq) (h : Sackhole) : Prop where
  start : InWindow b h.start
  stop : InWindow b h.stop

/-- A block of the window that is not empty. -/
structure Sackblk.In (b : TcpSeq) (s : Sackblk) : Prop where
  start : InWindow b s.start
  stop : InWindow b s.stop
  lt : s.lo b < s.hi b

variable {lim : Limits} {b : TcpSeq} {a : Account} {sblk : Sackblk} {blks : List Sackblk}
  {cur : Sackhole} {before behind m : List Sackhole} {s s' : Sweep} {x n : ℕ}

@[simp] theorem serial_debit : (a.debit cur).serial = a.serial := rfl

@[simp] theorem lo_moveStart (q : TcpSeq) : (cur.moveStart q).lo b = off b q := rfl
@[simp] theorem hi_moveStart q : (cur.moveStart q).hi b = cur.hi b := rfl
@[simp] theorem lo_moveEnd q : (cur.moveEnd q).lo b = cur.lo b := rfl
@[simp] theorem hi_moveEnd q : (cur.moveEnd q).hi b = off b q := rfl

/-! ## Allocation -/

/-- The account after an allocation that failed. -/
def Account.refused (a : Account) (uma : List Bool) : Account := { a with uma, failed := true }

/-- The account after a hole was added. -/
def Account.opened (a : Account) (uma : List Bool) : Account :=
  { a with
    sndNumholes := a.sndNumholes + 1
    globalholes := a.globalholes + 1
    nexthole := if a.nexthole = none then some a.serial else a.nexthole
    serial := a.serial + 1
    uma }

/-- What `tcp_sackhole_insert` can do. -/
theorem tcpSackholeInsert_cases (lim : Limits) (a : Account) (start stop : TcpSeq) :
    ∃ uma, tcpSackholeInsert lim a start stop = (none, a.refused uma) ∨
      tcpSackholeInsert lim a start stop = (some ⟨a.serial, start, stop, start⟩, a.opened uma) := by
  unfold tcpSackholeInsert tcpSackholeAlloc umaZalloc
  by_cases hlim : lim.maxholes ≤ a.sndNumholes ∨ lim.globalmaxholes ≤ a.globalholes
  · rw [if_pos hlim]
    exact ⟨a.uma, .inl rfl⟩
  · rw [if_neg hlim]
    obtain _ | ⟨_ | _, uma⟩ := a.uma
    · exact ⟨a.uma, .inl rfl⟩
    · exact ⟨uma, .inl rfl⟩
    · exact ⟨uma, .inr rfl⟩

/-! ## One turn -/

/-- The part of a split hole behind the block. -/
def Sackhole.tail (cur : Sackhole) (start : TcpSeq) (serial : ℕ) : Sackhole :=
  { cur.moveStart start with serial }

@[simp] theorem lo_tail (q : TcpSeq) (n : ℕ) : (cur.tail q n).lo b = off b q := rfl
@[simp] theorem hi_tail q n : (cur.tail q n).hi b = cur.hi b := rfl

/-- The moves of the sweep at the block `sblk` and the hole `cur`. -/
inductive Turn (b : TcpSeq) (a : Account) (sblk : Sackblk) (blks : List Sackblk) (cur : Sackhole)
    (before behind : List Sackhole) : Sweep → Prop
  | passBlock (h : cur.hi b ≤ sblk.lo b) :
      Turn b a sblk blks cur before behind ⟨a, blks, cur :: before, behind⟩
  | passHole (h : sblk.hi b ≤ cur.lo b) :
      Turn b a sblk blks cur before behind ⟨a, sblk :: blks, before, cur :: behind⟩
  | delete (h₁ : sblk.lo b ≤ cur.lo b) (h₂ : cur.hi b ≤ sblk.hi b) :
      Turn b a sblk blks cur before behind
        ⟨tcpSackholeRemove (a.debit cur) cur behind.head?, sblk :: blks, before, behind⟩
  | trimStart (h₁ : sblk.lo b ≤ cur.lo b) (h₂ : cur.lo b < sblk.hi b) (h₃ : sblk.hi b < cur.hi b) :
      Turn b a sblk blks cur before behind
        ⟨(a.debit cur).credit (cur.moveStart sblk.stop), sblk :: blks, before,
          cur.moveStart sblk.stop :: behind⟩
  | trimEnd (h₁ : cur.lo b < sblk.lo b) (h₂ : sblk.lo b < cur.hi b) (h₃ : cur.hi b ≤ sblk.hi b) :
      Turn b a sblk blks cur before behind
        ⟨(a.debit cur).credit (cur.moveEnd sblk.start), blks, cur.moveEnd sblk.start :: before,
          behind⟩
  | split (uma : List Bool) (h₁ : cur.lo b < sblk.lo b) (h₂ : sblk.hi b < cur.hi b) :
      Turn b a sblk blks cur before behind
        ⟨(((a.debit cur).opened uma).credit (cur.tail sblk.stop a.serial)).credit
            (cur.moveEnd sblk.start), blks, cur.moveEnd sblk.start :: before,
          cur.tail sblk.stop a.serial :: behind⟩
  | splitFails (uma : List Bool) (h₁ : cur.lo b < sblk.lo b) (h₂ : sblk.hi b < cur.hi b) :
      Turn b a sblk blks cur before behind
        ⟨((a.debit cur).refused uma).credit cur, blks, cur :: before, behind⟩

theorem sweepNext_hole (h : seqLeq sblk.start cur.start) : sweepNext a sblk blks cur before behind =
      ⟨a.credit cur, sblk :: blks, before, cur :: behind⟩ := if_pos h

theorem sweepNext_block (h : ¬ seqLeq sblk.start cur.start) :
    sweepNext a sblk blks cur before behind = ⟨a.credit cur, blks, cur :: before, behind⟩ := if_neg h

/-- A hole none of whose bytes were retransmitted adds nothing to the counter. -/
theorem credit_of_eq (a : Account) (cur : Sackhole) (h : cur.rxmit = cur.start) : a.credit cur = a := by
  simp [Account.credit, h]

/-- **One turn** of the sweep is one of the moves. -/
theorem sweepStep_turn (lim : Limits) (hs : sblk.In b) (hc : cur.In b) :
    Turn b a sblk blks cur before behind (sweepStep lim a sblk blks cur before behind) := by
  unfold sweepStep
  simp only [seqGeq_iff hs.start hc.stop, seqLeq_iff hs.stop hc.start, seqLeq_iff hs.start hc.start,
    seqGeq_iff hs.stop hc.stop]
  split_ifs with h1 h2 h3 h4 h5
  · exact .passBlock h1
  · exact .passHole h2
  · exact .delete h3 h4
  · have hnext : seqLeq sblk.start (cur.moveStart sblk.stop).start :=
      (seqLeq_iff hs.start hs.stop).mpr hs.lt.le
    rw [sweepNext_hole hnext]
    exact .trimStart h3 (not_le.mp h2) (not_le.mp h4)
  · have hnext : ¬ seqLeq sblk.start (cur.moveEnd sblk.start).start :=
      mt (seqLeq_iff hs.start hc.start).mp h3
    rw [sweepNext_block hnext]
    exact .trimEnd (not_le.mp h3) (not_le.mp h1) h5
  · have hnext : ¬ seqLeq sblk.start cur.start := mt (seqLeq_iff hs.start hc.start).mp h3
    have hnext' : ¬ seqLeq sblk.start (cur.moveEnd sblk.start).start := hnext
    obtain ⟨uma, h | h⟩ := tcpSackholeInsert_cases lim (a.debit cur) sblk.stop cur.stop
    · rw [h]
      simp only
      rw [sweepNext_block hnext]
      exact .splitFails uma (not_le.mp h3) (not_le.mp h5)
    · have hturn : Turn b a sblk blks cur before behind _ :=
        .split uma (not_le.mp h3) (not_le.mp h5)
      rw [h]
      simp only
      split_ifs with h6
      · rw [sweepNext_block hnext']
        simpa only [Sackhole.tail, Sackhole.moveStart, seqMax, if_pos h6, serial_debit] using hturn
      · rw [sweepNext_block hnext', ← credit_of_eq ((a.debit cur).opened uma)
          ⟨(a.debit cur).serial, sblk.stop, cur.stop, sblk.stop⟩ rfl]
        simpa only [Sackhole.tail, Sackhole.moveStart, seqMax, if_neg h6, serial_debit] using hturn

/-! ## What a turn preserves -/

/-- The bytes of the holes. -/
def Sweep.bytes (b : TcpSeq) (s : Sweep) : Set ℕ := cover (lo b) (hi b) s.holes

/-- The bytes of the holes that no block still to come covers. -/
def Sweep.left (b : TcpSeq) (s : Sweep) : Set ℕ :=
  s.bytes b \ cover (Sackblk.lo b) (Sackblk.hi b) s.blks

/-- The state of the sweep in a window: the queue is in order, the blocks come by falling ends, and
none of them reaches a hole behind `cur`. -/
structure Sweep.Ok (b : TcpSeq) (s : Sweep) : Prop where
  ordered : Ordered (lo b) (hi b) s.holes
  holes : ∀ h ∈ s.holes, h.In b
  blks : ∀ k ∈ s.blks, k.In b
  sorted : s.blks.Pairwise fun j k => k.hi b ≤ j.hi b
  settled : ∀ k ∈ s.blks, ∀ h ∈ s.behind, k.hi b ≤ h.lo b

theorem holes_cons : (mk a blks (cur :: before) behind).holes =
    before.reverse ++ [cur] ++ behind := by
  simp [holes]

theorem holes_behind : (mk a blks before (cur :: behind)).holes =
    before.reverse ++ [cur] ++ behind := by
  simp [holes]

theorem holes_delete : (mk a blks before behind).holes = before.reverse ++ [] ++ behind := by
  simp [holes]

theorem holes_split {temp : Sackhole} : (mk a blks (cur :: before) (temp :: behind)).holes =
    before.reverse ++ [cur, temp] ++ behind := by
  simp [holes]

namespace Sweep.Ok

variable (h : Ok b ⟨a, sblk :: blks, cur :: before, behind⟩)
include h

theorem sblk_in : sblk.In b := h.blks sblk mem_cons_self

theorem cur_in : cur.In b := h.holes cur (by simp [Sweep.holes])

theorem cur_lt : cur.lo b < cur.hi b := h.ordered.nonempty cur (by simp [Sweep.holes])

theorem hi_le : ∀ k ∈ sblk :: blks, k.hi b ≤ sblk.hi b := by
  exact forall_mem_cons.mpr ⟨le_rfl, (pairwise_cons.mp h.sorted).1⟩

theorem lt_lo (hx : x ∈ cover (lo b) (hi b) before.reverse) : x < cur.lo b := by
  obtain ⟨g, hg, hlt⟩ := hx
  have hord := h.ordered
  rw [holes_cons, append_assoc] at hord
  obtain ⟨-, -, hap⟩ := ordered_append.mp hord
  exact hlt.2.trans_le (hap g hg cur (by simp))

theorem hi_le_behind (hx : x ∈ cover (lo b) (hi b) behind) : sblk.hi b ≤ x ∧ cur.hi b ≤ x := by
  obtain ⟨g, hg, hle⟩ := hx
  have hord := h.ordered
  obtain ⟨-, -, hap⟩ := ordered_append.mp hord
  exact ⟨(h.settled sblk mem_cons_self g hg).trans hle.1, (hap cur (by simp) g hg).trans hle.1⟩

/-- The hole `cur` may be replaced by pieces of it. -/
theorem replace {a' : Account} {blks' : List Sackblk} {before' behind' : List Sackhole}
    (hholes : (Sweep.mk a' blks' before' behind').holes = before.reverse ++ m ++ behind)
    (hm : Ordered (lo b) (hi b) m) (hin : ∀ g ∈ m, g.In b)
    (hsub : cover (lo b) (hi b) m ⊆ span (lo b) (hi b) cur)
    (hblks : blks' = sblk :: blks ∨ blks' = blks)
    (hset : ∀ k ∈ blks', ∀ g ∈ behind', k.hi b ≤ g.lo b) :
    Ok b ⟨a', blks', before', behind'⟩ ∧ bytes b ⟨a', blks', before', behind'⟩ ⊆
        bytes b ⟨a, sblk :: blks, cur :: before, behind⟩ := by
  have hord := h.ordered
  rw [holes_cons] at hord
  have hblks' : blks'.Sublist (sblk :: blks) := by
    obtain rfl | rfl := hblks
    · exact Sublist.refl _
    · exact sublist_cons_self _ _
  refine ⟨⟨?_, ?_, fun k hk => h.blks k (hblks'.subset hk), h.sorted.sublist hblks', hset⟩, ?_⟩
  · rw [hholes]
    exact hord.replace hm (by simpa using hsub)
  · rw [hholes]
    intro g hg
    simp only [mem_append] at hg
    obtain (hg | hg) | hg := hg
    · exact h.holes g (by simp [Sweep.holes, hg])
    · exact hin g hg
    · exact h.holes g (by simp [Sweep.holes, hg])
  · rw [bytes, bytes, hholes, holes_cons]
    simp only [cover_append, cover_cons, cover_nil, union_empty]
    exact union_subset_union_left _ (union_subset_union_right _ hsub)

end Sweep.Ok

/-- **The queue stays in order**, the holes behind `cur` settled, and no byte is new. -/
theorem Turn.ok (h : Ok b ⟨a, sblk :: blks, cur :: before, behind⟩)
    (ht : Turn b a sblk blks cur before behind s') :
    s'.Ok b ∧ s'.bytes b ⊆ bytes b ⟨a, sblk :: blks, cur :: before, behind⟩ := by
  have hcur := h.cur_in
  have hs := h.sblk_in
  have hlt := h.cur_lt
  have hslt := hs.lt
  have hset : ∀ k ∈ blks, ∀ g ∈ behind, k.hi b ≤ g.lo b :=
    fun k hk => h.settled k (mem_cons_of_mem _ hk)
  have hself : Ordered (lo b) (hi b) [cur] := ordered_singleton.mpr hlt
  cases ht with
  | passBlock h1 | splitFails uma h1 h2 =>
    exact h.replace holes_cons hself (by simpa using hcur) (by simp) (.inr rfl) hset
  | passHole h1 =>
    exact h.replace holes_behind hself (by simpa using hcur) (by simp) (.inl rfl) fun k hk =>
      forall_mem_cons.mpr ⟨(h.hi_le k hk).trans h1, h.settled k hk⟩
  | delete h1 h2 =>
    exact h.replace holes_delete .nil (by simp) (by simp) (.inl rfl) h.settled
  | trimStart h1 h2 h3 =>
    refine h.replace holes_behind (ordered_singleton.mpr h3) ?_ ?_ (.inl rfl) ?_
    · simpa using ⟨hs.stop, hcur.stop⟩
    · simp only [cover_cons, cover_nil, union_empty]
      exact Set.Ico_subset_Ico_left h2.le
    · exact fun k hk => forall_mem_cons.mpr ⟨h.hi_le k hk, h.settled k hk⟩
  | trimEnd h1 h2 h3 =>
    refine h.replace holes_cons (ordered_singleton.mpr h1) ?_ ?_ (.inr rfl) hset
    · simpa using ⟨hcur.start, hs.start⟩
    · simp only [cover_cons, cover_nil, union_empty]
      exact Set.Ico_subset_Ico_right h2.le
  | split uma h1 h2 =>
    refine h.replace holes_split ?_ ?_ ?_ (.inr rfl) ?_
    · refine ordered_cons.mpr ⟨h1, ordered_singleton.mpr h2, ?_⟩
      intro g hg
      obtain rfl := mem_singleton.mp hg
      exact hslt.le
    · simpa using ⟨⟨hcur.start, hs.start⟩, ⟨hs.stop, hcur.stop⟩⟩
    · simp only [cover_cons, cover_nil, union_empty]
      exact union_subset (Set.Ico_subset_Ico_right (hslt.trans h2).le)
        (Set.Ico_subset_Ico_left (h1.trans hslt).le)
    · exact fun k hk => forall_mem_cons.mpr ⟨h.hi_le k (mem_cons_of_mem _ hk), hset k hk⟩

theorem mem_left_iff (hm : s.holes = before.reverse ++ m ++ behind) :
    x ∈ s.left b ↔ (x ∈ cover (lo b) (hi b) before.reverse ∨ x ∈ cover (lo b) (hi b) m ∨
      x ∈ cover (lo b) (hi b) behind) ∧
      x ∉ cover (Sackblk.lo b) (Sackblk.hi b) s.blks := by
  simp [left, bytes, hm]

/-- **No byte is forgotten**, and without a failed allocation none is kept: what the blocks to come
leave of the holes does not change. -/
theorem Turn.mem_left (h : Ok b ⟨a, sblk :: blks, cur :: before, behind⟩)
    (ht : Turn b a sblk blks cur before behind s') (x : ℕ) :
    (x ∈ left b ⟨a, sblk :: blks, cur :: before, behind⟩ → x ∈ s'.left b) ∧
      (s'.acct.failed = false → x ∈ s'.left b →
        x ∈ left b ⟨a, sblk :: blks, cur :: before, behind⟩) := by
  have hlt := h.cur_lt
  have hslt := h.sblk_in.lt
  have hlo := h.lt_lo (x := x)
  have hhi := h.hi_le_behind (x := x)
  rw [mem_left_iff holes_cons]
  cases ht with
  | passBlock h1 =>
    rw [mem_left_iff holes_cons]
    simp only [mem_cover_cons, mem_cover_nil, mem_span]
    grind
  | passHole h1 =>
    rw [mem_left_iff holes_behind]
    grind
  | delete h1 h2 =>
    rw [mem_left_iff holes_delete]
    simp only [mem_cover_cons, mem_span]
    grind
  | trimStart h1 h2 h3 =>
    rw [mem_left_iff holes_behind]
    simp only [mem_cover_cons, mem_span, lo_moveStart, hi_moveStart, Sackblk.hi] at *
    grind
  | trimEnd h1 h2 h3 =>
    rw [mem_left_iff holes_cons]
    simp only [mem_cover_cons, mem_cover_nil, mem_span, lo_moveEnd, hi_moveEnd, Sackblk.lo] at *
    grind
  | split uma h1 h2 =>
    rw [mem_left_iff holes_split]
    simp only [mem_cover_cons, mem_cover_nil, mem_span, lo_moveEnd, hi_moveEnd, lo_tail, hi_tail,
      Sackblk.lo, Sackblk.hi] at *
    grind
  | splitFails uma h1 h2 =>
    rw [mem_left_iff holes_cons]
    simp only [mem_cover_cons]
    refine ⟨by grind, fun hf => ?_⟩
    simp [Account.refused, Account.credit] at hf

theorem Turn.failed (ht : Turn b a sblk blks cur before behind s')
    (hf : s'.acct.failed = false) : a.failed = false := by
  cases ht <;> first | exact hf | cases hf

theorem Turn.measure (ht : Turn b a sblk blks cur before behind s') :
    s'.blks.length + s'.before.length ≤ blks.length + before.length + 1 := by
  cases ht <;> simp only [length_cons] <;> omega

/-! ## The whole sweep -/

/-- **The rule of the sweep**: what every turn preserves holds at the end. -/
theorem sweep_induction (lim : Limits) {P : Sweep → Prop}
    (hturn : ∀ {a sblk blks cur before behind s'}, Ok b ⟨a, sblk :: blks, cur :: before, behind⟩ →
      Turn b a sblk blks cur before behind s' →
      P ⟨a, sblk :: blks, cur :: before, behind⟩ → P s') (h : s.Ok b) (hP : P s) :
    P (sweep lim n s) := by
  induction n generalizing s with
  | zero => exact hP
  | succ n ih =>
    obtain ⟨a, blks, before, behind⟩ := s
    cases blks with
    | nil => exact hP
    | cons sblk blks =>
      cases before with
      | nil => exact hP
      | cons cur before =>
        have ht : Turn b a sblk blks cur before behind _ := sweepStep_turn lim h.sblk_in h.cur_in
        exact ih (ht.ok h).1 (hturn h ht hP)

/-- The sweep ends when the blocks or the holes are used up. -/
theorem sweep_ended (lim : Limits) (h : s.Ok b) (hn : s.blks.length + s.before.length ≤ n) :
    (sweep lim n s).blks = [] ∨ (sweep lim n s).before = [] := by
  induction n generalizing s with
  | zero => exact .inl (eq_nil_of_length_eq_zero (Nat.eq_zero_of_add_eq_zero_right
      (Nat.eq_zero_of_le_zero hn)))
  | succ n ih =>
    obtain ⟨a, blks, before, behind⟩ := s
    cases blks with
    | nil => exact .inl rfl
    | cons sblk blks =>
      cases before with
      | nil => exact .inr rfl
      | cons cur before =>
        have ht : Turn b a sblk blks cur before behind _ := sweepStep_turn lim h.sblk_in h.cur_in
        simp only [length_cons] at hn
        exact ih (ht.ok h).1 (ht.measure.trans (by omega))

/-- What the sweep does to `s`. -/
structure Swept (b : TcpSeq) (s r : Sweep) : Prop where
  ok : r.Ok b
  ended : r.blks = [] ∨ r.before = []
  bytes : r.bytes b ⊆ s.bytes b
  subset : s.left b ⊆ r.left b
  clear : r.acct.failed = false → s.acct.failed = false
  failed : r.acct.failed = false → r.left b ⊆ s.left b

/-- **The whole sweep.** -/
theorem sweep_swept (lim : Limits) (h : s.Ok b)
    (hn : s.blks.length + s.before.length ≤ n) : Swept b s (sweep lim n s) := by
  have hend := sweep_ended lim h hn
  obtain ⟨hok, hbytes, hsub, hfail⟩ := sweep_induction lim
    (P := fun t => t.Ok b ∧ t.bytes b ⊆ s.bytes b ∧ s.left b ⊆ t.left b ∧
      (t.acct.failed = false → s.acct.failed = false ∧ t.left b ⊆ s.left b))
    (fun h' ht ⟨_, hbytes, hsub, hfail⟩ =>
      ⟨(ht.ok h').1, (ht.ok h').2.trans hbytes, fun x hx => (ht.mem_left h' x).1 (hsub hx),
        fun hf => ⟨(hfail (ht.failed hf)).1,
          fun x hx => (hfail (ht.failed hf)).2 ((ht.mem_left h' x).2 hf hx)⟩⟩)
    h ⟨h, subset_rfl, subset_rfl, fun hf => ⟨hf, subset_rfl⟩⟩
  exact ⟨hok, hend, hbytes, hsub, fun hf => (hfail hf).1, fun hf => (hfail hf).2⟩

/-- At the end no block is left that covers a byte of a hole. -/
theorem Swept.left_eq {r : Sweep} (h : Swept b s r) : r.left b = r.bytes b := by
  refine sdiff_eq_left.mpr (disjoint_left.mpr ?_)
  rintro x ⟨g, hg, hx⟩ ⟨k, hk, hx'⟩
  obtain hnil | hnil := h.ended
  · rw [hnil] at hk
    cases hk
  · rw [holes, hnil] at hg
    have := h.ok.settled k hk g hg
    exact absurd (hx'.2.trans_le this) (not_lt.mpr hx.1)

end FreeBSDSys.Tcp
