import FreeBSDSys.Netinet.SackSweep

/-!
# Acknowledgments update the scoreboard

`tcp_sack_doack` in a window: which blocks it takes, that it sorts them, what it does in front of
the sweep, and from these what it does as a whole.  The receiver may send any blocks, in any order
and overlapping; the result depends only on the set of bytes they cover.

* `Tcpcb.Queue`, `Tcpcb.Tidy`, `Tcpcb.Ok`: a scoreboard in order, between `snd_una` and `snd_fack`.
* `sackBlocks_in`, `sortBlocks_perm`, `sortBlocks_sorted`: the blocks.
* `extend_spec`: the step in front of the sweep.
* `tcpSackDoack_bytes`: the scoreboard after an acknowledgment.
* `snd_fack_falls`: on an empty scoreboard the old `snd_fack` does not count.
-/

namespace FreeBSDSys.Tcp

open List Sackhole SeqWindow Spans

variable {lim : Limits} {b : TcpSeq} {tp tp' : Tcpcb} {sacks blks' blks : List Sackblk}
  {thAck : TcpSeq} {uma : List Bool} {x : ℕ} {k : Sackblk}

/-- The bytes of a list of holes. -/
def holeBytes (b : TcpSeq) (l : List Sackhole) : Set ℕ := cover (lo b) (hi b) l

/-- The bytes of a list of blocks. -/
def blockBytes (b : TcpSeq) (l : List Sackblk) : Set ℕ := cover (Sackblk.lo b) (Sackblk.hi b) l

/-- A queue of holes that are not empty, come in order, do not meet and end at `snd_fack`, in a window.
When there are no holes `snd_fack` means nothing. -/
structure Tcpcb.Queue (b : TcpSeq) (tp : Tcpcb) : Prop where
  fack : tp.sndHoles ≠ [] → InWindow b tp.sndFack
  holes : ∀ h ∈ tp.sndHoles, h.In b
  ordered : Ordered (lo b) (hi b) tp.sndHoles
  le_fack : ∀ h ∈ tp.sndHoles, h.hi b ≤ off b tp.sndFack

/-- Such a queue with the other numbers of the connection in the same window. -/
structure Tcpcb.Tidy (b : TcpSeq) (tp : Tcpcb) : Prop extends tp.Queue b where
  una : InWindow b tp.sndUna
  max : InWindow b tp.sndMax
  una_le_max : off b tp.sndUna ≤ off b tp.sndMax

/-- A tidy scoreboard whose holes do not start before `snd_una`. -/
structure Tcpcb.Ok (b : TcpSeq) (tp : Tcpcb) : Prop extends tp.Tidy b where
  una_le : ∀ h ∈ tp.sndHoles, off b tp.sndUna ≤ h.lo b

/-! ## The blocks -/

/-- A block that passes the test lies behind `snd_una` and not behind `snd_max`. -/
theorem validBlock.in {sack : Sackblk} (h : tp.Tidy b) (hv : validBlock tp thAck sack) :
    sack.In b ∧ off b tp.sndUna < sack.lo b ∧ sack.hi b ≤ off b tp.sndMax := by
  obtain ⟨hlt, hstart, -, hstart', hstop, hstop'⟩ := hv
  have hmax : off b tp.sndMax < 2 ^ 31 := h.max
  obtain ⟨-, h2⟩ := off_between h.una h.max h.una_le_max (Int.le_of_lt hstart) (Int.le_of_lt hstart')
  obtain ⟨-, h3⟩ := off_between h.una h.max h.una_le_max (Int.le_of_lt hstop) hstop'
  have hs : InWindow b sack.start := h2.trans_lt hmax
  have he : InWindow b sack.stop := h3.trans_lt hmax
  exact ⟨⟨hs, he, (seqGt_iff he hs).mp hlt⟩, (seqGt_iff hs h.una).mp hstart, h3⟩

theorem mem_ackBlock :
    k ∈ ackBlock tp thAck ↔ seqLt tp.sndUna thAck ∧ tp.sndHoles ≠ [] ∧ k = ⟨tp.sndUna, thAck⟩ := by
  unfold ackBlock
  split <;> simp_all

theorem sackBlocks_in (h : tp.Tidy b) (hack : InWindow b thAck) :
    ∀ k ∈ sackBlocks tp sacks thAck, k.In b ∧ off b tp.sndUna ≤ k.lo b := by
  intro k hk
  obtain hk | hk := mem_append.mp hk
  · obtain ⟨hlt, -, rfl⟩ := mem_ackBlock.mp hk
    exact ⟨⟨h.una, hack, (seqLt_iff h.una hack).mp hlt⟩, le_rfl⟩
  · obtain ⟨-, hv⟩ := mem_filter.mp hk
    obtain ⟨hin, hlt, -⟩ := validBlock.in h (of_decide_eq_true hv)
    exact ⟨hin, hlt.le⟩

theorem exchange_perm (y : Sackblk) (l : List Sackblk) :
    ((exchange y l).1 :: (exchange y l).2).Perm (y :: l) := by
  induction l generalizing y with
  | nil => exact .refl _
  | cons z l ih =>
    unfold exchange
    split
    · exact (Perm.swap _ _ _).trans ((ih z).cons y)
    · exact (Perm.swap _ _ _).trans (((ih y).cons z).trans (.swap _ _ _))

/-- One round of the sort brings a least end to the front. -/
theorem exchange_le (y : Sackblk) (l : List Sackblk) (hin : ∀ k ∈ y :: l, k.In b) :
    ∀ k ∈ y :: l, (exchange y l).1.hi b ≤ k.hi b := by
  induction l generalizing y with
  | nil => simp [exchange]
  | cons z l ih =>
    have hy := hin y (by simp)
    have hz := hin z (by simp)
    unfold exchange
    simp only [seqGt_iff hy.stop hz.stop]
    split
    next hlt =>
      have ih' := ih z fun k hk => hin k (mem_cons_of_mem _ hk)
      exact forall_mem_cons.mpr ⟨(ih' z (by simp)).trans hlt.le, ih'⟩
    next hle =>
      have ih' := ih y fun k hk =>
        hin k (mem_cons.mpr ((mem_cons.mp hk).imp_right (mem_cons_of_mem _)))
      intro k hk
      obtain rfl | hk := mem_cons.mp hk
      · exact ih' k (by simp)
      · obtain rfl | hk := mem_cons.mp hk
        · exact (ih' y (by simp)).trans (not_lt.mp hle)
        · exact ih' k (by simp [hk])

theorem sortFor_perm (n : ℕ) (l : List Sackblk) : (sortFor n l).Perm l := by
  induction n generalizing l with
  | zero => exact .refl _
  | succ n ih =>
    cases l with
    | nil => exact .refl _
    | cons y l => exact ((ih _).cons _).trans (exchange_perm y l)

theorem sortFor_sorted (n : ℕ) (l : List Sackblk) (hn : l.length ≤ n) (hin : ∀ k ∈ l, k.In b) :
    (sortFor n l).Pairwise fun j k => j.hi b ≤ k.hi b := by
  induction n generalizing l with
  | zero =>
    obtain rfl : l = [] := eq_nil_of_length_eq_zero (by omega)
    exact .nil
  | succ n ih =>
    cases l with
    | nil => exact .nil
    | cons y l =>
      have hperm := exchange_perm y l
      have hsub : ∀ k ∈ (exchange y l).2, k ∈ y :: l :=
        fun k hk => hperm.subset (mem_cons_of_mem _ hk)
      have hlen := hperm.length_eq
      simp only [length_cons] at hlen hn
      refine pairwise_cons.mpr ⟨fun k hk => ?_, ih _ (by omega) fun k hk => hin k (hsub k hk)⟩
      exact exchange_le y l hin k (hsub k ((sortFor_perm n _).subset hk))

theorem sortBlocks_perm (l : List Sackblk) : (sortBlocks l).Perm l := sortFor_perm _ l

/-- **The blocks are sorted** by their ends. -/
theorem sortBlocks_sorted (l : List Sackblk) (hin : ∀ k ∈ l, k.In b) :
    (sortBlocks l).Pairwise fun j k => j.hi b ≤ k.hi b := sortFor_sorted _ l le_rfl hin

/-! ## In front of the sweep -/

/-- What `extend` does to a scoreboard that ends at `snd_fack`, given the blocks by falling ends. -/
structure Extended (b : TcpSeq) (tp : Tcpcb) (blks : List Sackblk) (tp' : Tcpcb)
    (blks' : List Sackblk) : Prop where
  same : tp'.sndUna = tp.sndUna ∧ tp'.sndMax = tp.sndMax
  fack : InWindow b tp'.sndFack
  holes : ∀ h ∈ tp'.sndHoles, h.In b
  ordered : Ordered (lo b) (hi b) tp'.sndHoles
  le_fack : ∀ h ∈ tp'.sndHoles, h.hi b ≤ off b tp'.sndFack
  bytes : holeBytes b tp'.sndHoles ⊆ holeBytes b tp.sndHoles ∪ {x | off b tp.sndFack ≤ x}
  suffix : blks' <:+ blks
  kept : holeBytes b tp.sndHoles \ blockBytes b blks ⊆ holeBytes b tp'.sndHoles \ blockBytes b blks'
  full : tp'.failed = false → tp.failed = false ∧ holeBytes b tp'.sndHoles \ blockBytes b blks' =
      (holeBytes b tp.sndHoles ∪ Set.Ico (off b tp.sndFack) (off b tp'.sndFack)) \
        blockBytes b blks ∧
    off b tp.sndFack ≤ off b tp'.sndFack ∧ (∀ k ∈ blks, k.hi b ≤ off b tp'.sndFack) ∧
    (tp'.sndFack = tp.sndFack ∨ ∃ k ∈ blks, tp'.sndFack = k.stop)

/-- What the step in front of the sweep starts from. -/
structure Extendable (b : TcpSeq) (tp : Tcpcb) (blks : List Sackblk) : Prop where
  fack : InWindow b tp.sndFack
  holes : ∀ h ∈ tp.sndHoles, h.In b
  ordered : Ordered (lo b) (hi b) tp.sndHoles
  le_fack : ∀ h ∈ tp.sndHoles, h.hi b ≤ off b tp.sndFack
  sorted : blks.Pairwise fun j k => k.hi b ≤ j.hi b
  blocks : ∀ k ∈ blks, k.In b

namespace Extendable

variable {k : Sackblk} {blks : List Sackblk}

theorem lt_fack (h : Extendable b tp blks) (hx : x ∈ holeBytes b tp.sndHoles) :
    x < off b tp.sndFack := by
  obtain ⟨g, hg, hx⟩ := hx
  exact hx.2.trans_le (h.le_fack g hg)

theorem hi_le (h : Extendable b tp (k :: blks)) : ∀ j ∈ k :: blks, j.hi b ≤ k.hi b := by
  exact forall_mem_cons.mpr ⟨le_rfl, (pairwise_cons.mp h.sorted).1⟩

/-- A hole is appended in front of the last block. -/
theorem append (h : Extendable b tp (k :: blks)) (hlt : off b tp.sndFack < k.lo b)
    (a : Account) (hf : a.failed = tp.failed) (n : ℕ) :
    Extended b tp (k :: blks)
      { tp with
        toAccount := a
        sndFack := k.stop
        sndHoles := tp.sndHoles ++ [⟨n, tp.sndFack, k.start, tp.sndFack⟩] } blks := by
  have hk := h.blocks k mem_cons_self
  have hklt := hk.lt
  have hbytes : holeBytes b (tp.sndHoles ++ [⟨n, tp.sndFack, k.start, tp.sndFack⟩]) =
      holeBytes b tp.sndHoles ∪ Set.Ico (off b tp.sndFack) (k.lo b) := by
    simp only [holeBytes, cover_append, cover_cons, cover_nil, Set.union_empty]
    rfl
  have hmem : ∀ x, x ∈ blockBytes b (k :: blks) ↔
      (k.lo b ≤ x ∧ x < k.hi b) ∨ x ∈ blockBytes b blks := fun x => mem_cover_cons
  refine ⟨⟨rfl, rfl⟩, hk.stop, ?_, ?_, ?_, ?_, suffix_cons _ _, ?_, fun hf' => ⟨?_, ?_, ?_⟩⟩
  · intro g hg
    obtain hg | hg := mem_append.mp hg
    · exact h.holes g hg
    · obtain rfl := mem_singleton.mp hg
      exact ⟨h.fack, hk.start⟩
  · refine ordered_append.mpr ⟨h.ordered, ordered_singleton.mpr hlt, fun g hg g' hg' => ?_⟩
    obtain rfl := mem_singleton.mp hg'
    exact h.le_fack g hg
  · intro g hg
    obtain hg | hg := mem_append.mp hg
    · exact (h.le_fack g hg).trans (hlt.trans hklt).le
    · obtain rfl := mem_singleton.mp hg
      exact hklt.le
  · rw [hbytes]
    exact Set.union_subset_union_right _ fun x hx => hx.1
  · intro x hx
    grind
  · exact hf.symm.trans hf'
  · ext x
    have := h.lt_fack (x := x)
    have heq : off b k.stop = k.hi b := rfl
    grind
  · exact ⟨(hlt.trans hklt).le, h.hi_le, .inr ⟨k, mem_cons_self, rfl⟩⟩

/-- The holes stay and `snd_fack` does not fall. -/
theorem keep (h : Extendable b tp blks) (hsuf : blks' <:+ blks)
    {fack : TcpSeq} (hfack : InWindow b fack) (hle : off b tp.sndFack ≤ off b fack) (a : Account)
    (hfull : a.failed = false → tp.failed = false ∧ blks' = blks ∧
      Set.Ico (off b tp.sndFack) (off b fack) ⊆ blockBytes b blks ∧
      (∀ k ∈ blks, k.hi b ≤ off b fack) ∧ (fack = tp.sndFack ∨ ∃ k ∈ blks, fack = k.stop)) :
    Extended b tp blks { tp with toAccount := a, sndFack := fack } blks' := by
  refine ⟨⟨rfl, rfl⟩, hfack, h.holes, h.ordered, fun g hg => (h.le_fack g hg).trans hle,
    Set.subset_union_left, hsuf, ?_, fun hf => ?_⟩
  · refine Set.sdiff_subset_sdiff_right ?_
    rintro x ⟨g, hg, hx⟩
    exact ⟨g, hsuf.subset hg, hx⟩
  · obtain ⟨hf', rfl, hsub, hmax, heq⟩ := hfull hf
    refine ⟨hf', ?_, hle, hmax, heq⟩
    rw [Set.union_sdiff_distrib, Set.sdiff_eq_empty.mpr hsub, Set.union_empty]

/-- `snd_fack` after a block that may end behind it. -/
theorem off_fack_advance (h : Extendable b tp blks) (hk : k ∈ blks) :
    off b (if seqLt tp.sndFack k.stop then k.stop else tp.sndFack) =
      max (off b tp.sndFack) (k.hi b) := by
  simp only [seqLt_iff h.fack (h.blocks k hk).stop, Sackblk.hi]
  split <;> omega

theorem inWindow_advance (h : Extendable b tp blks) (hk : k ∈ blks) :
    InWindow b (if seqLt tp.sndFack k.stop then k.stop else tp.sndFack) := by
  split
  · exact (h.blocks k hk).stop
  · exact h.fack

end Extendable

/-- **The step in front of the sweep.** -/
theorem extend_spec (lim : Limits) (h : Extendable b tp blks) :
    Extended b tp blks (extend lim tp blks).1 (extend lim tp blks).2 := by
  cases blks with
  | nil => exact h.keep (suffix_refl _) h.fack le_rfl _ (by simp)
  | cons k blks =>
    have hk : k ∈ k :: blks := mem_cons_self
    have hkin := h.blocks k hk
    unfold extend
    simp only [seqLt_iff h.fack hkin.start]
    split
    next hlt =>
      obtain ⟨uma, hno | hyes⟩ := tcpSackholeInsert_cases lim tp.toAccount tp.sndFack k.start
      · rw [hno]
        simp only
        split
        next hdrop =>
          exact h.keep nil_suffix h.fack le_rfl _ (by simp [Account.refused])
        next j rest hdrop =>
          have hsuf : j :: rest <:+ k :: blks := hdrop ▸ dropWhile_suffix _
          have hj : j ∈ k :: blks := hsuf.subset mem_cons_self
          exact h.keep hsuf (h.inWindow_advance hj)
            (by rw [h.off_fack_advance hj]; exact le_max_left _ _) _ (by simp [Account.refused])
      · rw [hyes]
        exact h.append hlt (tp.toAccount.opened uma) rfl _
    next hle =>
      refine h.keep (suffix_refl _) (h.inWindow_advance hk)
        (by rw [h.off_fack_advance hk]; exact le_max_left _ _) _ fun hf => ⟨hf, rfl, ?_, ?_, ?_⟩
      · rw [h.off_fack_advance hk]
        intro x hx
        refine span_subset_cover hk ⟨?_, ?_⟩
        · exact (not_lt.mp hle).trans hx.1
        · obtain hlt | hlt := lt_max_iff.mp hx.2
          · exact absurd hlt (not_lt.mpr hx.1)
          · exact hlt
      · intro j hj
        rw [h.off_fack_advance hk]
        exact (h.hi_le j hj).trans (le_max_right _ _)
      · split
        · exact .inr ⟨k, hk, rfl⟩
        · exact .inl rfl

/-! ## The whole update -/

/-- The end of what the scoreboard describes, before the acknowledgment.  With holes it is
`snd_fack`; an empty scoreboard is first set up at the acknowledged end of the stream. -/
def reach (b : TcpSeq) (tp : Tcpcb) (sacks : List Sackblk) (thAck : TcpSeq) : ℕ :=
  if tp.sndHoles = [] ∧ sackBlocks tp sacks thAck ≠ [] then max (off b tp.sndUna) (off b thAck)
  else off b tp.sndFack

theorem mem_orderedBlocks : k ∈ orderedBlocks tp sacks thAck ↔ k ∈ sackBlocks tp sacks thAck := by
  rw [orderedBlocks, mem_reverse, (sortBlocks_perm _).mem_iff]

theorem blockBytes_orderedBlocks :
    blockBytes b (orderedBlocks tp sacks thAck) = blockBytes b (sackBlocks tp sacks thAck) := by
  ext x
  simp only [blockBytes, mem_cover, mem_orderedBlocks]

theorem off_prepared_fack (uma : List Bool) (h : tp.Tidy b) (hack : InWindow b thAck)
    (hne : sackBlocks tp sacks thAck ≠ []) :
    off b (prepared tp thAck uma).sndFack = reach b tp sacks thAck := by
  unfold prepared reach
  by_cases hnil : tp.sndHoles = []
  · simp only [hnil, hne, ne_eq, not_false_eq_true]
    exact off_seqMax h.una hack
  · simp [hnil]

theorem prepared_extendable (uma : List Bool) (sacks : List Sackblk) (h : tp.Tidy b)
    (hack : InWindow b thAck) :
    Extendable b (prepared tp thAck uma) (orderedBlocks tp sacks thAck) := by
  have hin : ∀ k ∈ sackBlocks tp sacks thAck, k.In b := fun k hk => (sackBlocks_in h hack k hk).1
  refine ⟨?_, h.holes, h.ordered, ?_, ?_, fun k hk => hin k (mem_orderedBlocks.mp hk)⟩
  · unfold prepared
    split
    · unfold seqMax
      split
      · exact h.una
      · exact hack
    · exact h.fack ‹_›
  · intro g hg
    have hne : tp.sndHoles ≠ [] := ne_nil_of_mem hg
    simpa only [prepared, hne, if_false] using h.le_fack g hg
  · exact pairwise_reverse.mpr (sortBlocks_sorted _ hin)

theorem bytes_sweepStart (tp : Tcpcb) (blks : List Sackblk) :
    (sweepStart tp blks).bytes b = holeBytes b tp.sndHoles := by
  simp [Sweep.bytes, Sweep.holes, sweepStart, holeBytes]

theorem tcpSackDoack_of_nil (h : sackBlocks tp sacks thAck = []) :
    tcpSackDoack lim tp sacks thAck uma = { tp with uma, failed := false } := if_pos h

theorem tcpSackDoack_of_ne (h : sackBlocks tp sacks thAck ≠ []) :
    tcpSackDoack lim tp sacks thAck uma =
      sweepHoles lim (extend lim (prepared tp thAck uma) (orderedBlocks tp sacks thAck)).1
        (extend lim (prepared tp thAck uma) (orderedBlocks tp sacks thAck)).2 := if_neg h

theorem sweepStart_ok (h : Extendable b tp blks)
    (he : Extended b tp blks tp' blks') : (sweepStart tp' blks').Ok b := by
  refine ⟨?_, ?_, ?_, ?_, by simp [sweepStart]⟩
  · simpa [sweepStart, Sweep.holes] using he.ordered
  · simpa [sweepStart, Sweep.holes] using he.holes
  · exact fun k hk => h.blocks k (he.suffix.subset hk)
  · exact h.sorted.sublist he.suffix.sublist

/-- The sweep over what the step in front of it left. -/
theorem sweepHoles_swept (lim : Limits) (h : Extendable b tp blks)
    (he : Extended b tp blks tp' blks') :
    ∃ r, Swept b (sweepStart tp' blks') r ∧
      sweepHoles lim tp' blks' = { tp' with toAccount := r.acct, sndHoles := r.holes } :=
  ⟨_, sweep_swept lim (sweepStart_ok h he) (by simp [sweepStart]), rfl⟩

/-- What an acknowledgment with the blocks `blks` does to a scoreboard that reaches to `f`. -/
structure Updated (b : TcpSeq) (tp : Tcpcb) (blks : List Sackblk) (f : ℕ) (tp' : Tcpcb) :
    Prop where
  ok : tp'.Ok b
  kept : holeBytes b tp.sndHoles \ blockBytes b blks ⊆ holeBytes b tp'.sndHoles
  full : tp'.failed = false → holeBytes b tp'.sndHoles =
      (holeBytes b tp.sndHoles ∪ Set.Ico f (off b tp'.sndFack)) \ blockBytes b blks ∧
    f ≤ off b tp'.sndFack ∧ (∀ k ∈ blks, k.hi b ≤ off b tp'.sndFack) ∧
    (off b tp'.sndFack = f ∨ ∃ k ∈ blks, off b tp'.sndFack = k.hi b)

theorem Tcpcb.Ok.una_le_reach (h : tp.Ok b) (hne : sackBlocks tp sacks thAck ≠ []) :
    off b tp.sndUna ≤ reach b tp sacks thAck := by
  unfold reach
  cases hh : tp.sndHoles with
  | nil =>
    rw [if_pos ⟨rfl, hne⟩]
    exact le_max_left _ _
  | cons g gs =>
    have hg : g ∈ tp.sndHoles := by simp [hh]
    exact (h.una_le g hg).trans ((h.ordered.nonempty g hg).le.trans (h.le_fack g hg))

section TwoSteps

variable {p tp' : Tcpcb} {blks blks' : List Sackblk} {r : Sweep}

theorem Swept.bytes_le (hr : Swept b (sweepStart tp' blks') r) :
    holeBytes b r.holes ⊆ holeBytes b tp'.sndHoles :=
  bytes_sweepStart tp' blks' ▸ hr.bytes

theorem Extended.tidy (h : tp.Tidy b) (hsame : p.sndUna = tp.sndUna ∧ p.sndMax = tp.sndMax)
    (he : Extended b p blks tp' blks') (hr : Swept b (sweepStart tp' blks') r) :
    Tcpcb.Tidy b { tp' with toAccount := r.acct, sndHoles := r.holes } := by
  obtain ⟨hpuna, hpmax⟩ := hsame
  obtain ⟨hsuna, hsmax⟩ := he.same
  refine ⟨⟨fun _ => he.fack, hr.ok.holes, hr.ok.ordered, fun g hg => ?_⟩, ?_, ?_, ?_⟩
  rotate_left
  · simpa only [hsuna, hpuna] using h.una
  · simpa only [hsmax, hpmax] using h.max
  · simpa only [hsuna, hpuna, hsmax, hpmax] using h.una_le_max
  · refine (hr.ok.ordered.le_of_cover (fun _ _ => Nat.zero_le _) (fun z hz => ?_) g hg).2
    obtain ⟨g, hg, hz⟩ := hr.bytes_le hz
    exact hz.2.trans_le (he.le_fack g hg)

/-- The two steps together. -/
theorem Extended.updated (h : tp.Ok b)
    (hsame : p.sndHoles = tp.sndHoles ∧ p.sndUna = tp.sndUna ∧ p.sndMax = tp.sndMax)
    (huna : off b tp.sndUna ≤ off b p.sndFack) (he : Extended b p blks tp' blks')
    (hr : Swept b (sweepStart tp' blks') r) :
    Updated b tp blks (off b p.sndFack) { tp' with toAccount := r.acct, sndHoles := r.holes } := by
  obtain ⟨hholes, hpuna, hpmax⟩ := hsame
  obtain ⟨hsuna, -⟩ := he.same
  have htidy := he.tidy h.toTidy ⟨hpuna, hpmax⟩ hr
  have hleft : (sweepStart tp' blks').left b = holeBytes b tp'.sndHoles \ blockBytes b blks' := by
    rw [Sweep.left, bytes_sweepStart]
    rfl
  have hend : holeBytes b r.holes = r.left b := hr.left_eq.symm
  refine ⟨⟨htidy, fun g hg => ?_⟩, ?_, fun hf => ?_⟩
  · have hlo : g.lo b ∈ holeBytes b r.holes :=
      span_subset_cover hg ⟨le_rfl, hr.ok.ordered.nonempty g hg⟩
    simp only [hsuna, hpuna]
    obtain hz | hz := he.bytes (hr.bytes_le hlo)
    · rw [hholes] at hz
      obtain ⟨g, hg, hz⟩ := hz
      exact (h.una_le g hg).trans hz.1
    · exact huna.trans hz
  · rw [← hholes]
    refine he.kept.trans ?_
    rw [← hleft, hend]
    exact hr.subset
  · obtain ⟨-, heq, hle, hmax, hor⟩ := he.full (hr.clear hf)
    refine ⟨?_, hle, hmax, hor.imp (congrArg _) ?_⟩
    · rw [← hholes, ← heq, ← hleft, hend]
      exact Set.Subset.antisymm (hr.failed hf) hr.subset
    · rintro ⟨k, hk, hke⟩
      exact ⟨k, hk, congrArg _ hke⟩

end TwoSteps

/-- **A scoreboard stays tidy.** -/
theorem tcpSackDoack_tidy (lim : Limits) (uma : List Bool) (sacks : List Sackblk) (h : tp.Tidy b)
    (hack : InWindow b thAck) : (tcpSackDoack lim tp sacks thAck uma).Tidy b := by
  by_cases hne : sackBlocks tp sacks thAck = []
  · rw [tcpSackDoack_of_nil hne]
    exact ⟨⟨h.fack, h.holes, h.ordered, h.le_fack⟩, h.una, h.max, h.una_le_max⟩
  · have hstart := prepared_extendable uma sacks h hack
    have he := extend_spec lim hstart
    obtain ⟨r, hr, heq⟩ := sweepHoles_swept lim hstart he
    rw [tcpSackDoack_of_ne hne, heq]
    exact Extended.tidy (p := prepared tp thAck uma) h ⟨rfl, rfl⟩ he hr

/-- **The update**, with the cumulative acknowledgment as one of the blocks. -/
theorem tcpSackDoack_updated (lim : Limits) (uma : List Bool) (sacks : List Sackblk) (h : tp.Ok b)
    (hack : InWindow b thAck) :
    Updated b tp (sackBlocks tp sacks thAck) (reach b tp sacks thAck)
      (tcpSackDoack lim tp sacks thAck uma) := by
  by_cases hne : sackBlocks tp sacks thAck = []
  · have hreach : reach b tp sacks thAck = off b tp.sndFack := by simp [reach, hne]
    have htidy := tcpSackDoack_tidy lim uma sacks h.toTidy hack
    rw [tcpSackDoack_of_nil hne] at htidy
    rw [tcpSackDoack_of_nil hne, hreach, hne]
    refine ⟨⟨htidy, h.una_le⟩, Set.sdiff_subset, fun _ => ⟨?_, le_rfl, by simp, .inl rfl⟩⟩
    simp [blockBytes]
  · have hstart := prepared_extendable uma sacks h.toTidy hack
    have he := extend_spec lim hstart
    have hreach := off_prepared_fack uma h.toTidy hack hne
    obtain ⟨r, hr, heq⟩ := sweepHoles_swept lim hstart he
    have hup := Extended.updated (p := prepared tp thAck uma) h ⟨rfl, rfl, rfl⟩
      (hreach ▸ h.una_le_reach hne) he hr
    rw [tcpSackDoack_of_ne hne, heq]
    refine ⟨hup.ok, ?_, fun hf => ?_⟩
    · simpa only [blockBytes_orderedBlocks] using hup.kept
    · simpa only [blockBytes_orderedBlocks, mem_orderedBlocks, hreach] using hup.full hf

/-! ## The bytes behind an acknowledgment -/

/-- The received blocks that pass the test. -/
def validBlocks (tp : Tcpcb) (sacks : List Sackblk) (thAck : TcpSeq) : List Sackblk :=
  sacks.filter fun sack => validBlock tp thAck sack

/-- Of the bytes from `snd_una` on, the blocks cover those before the acknowledgment and those of
the received blocks that pass the test. -/
theorem mem_blockBytes_sackBlocks (h : tp.Ok b) (hack : InWindow b thAck) (hne : tp.sndHoles ≠ [])
    (hx : off b tp.sndUna ≤ x) :
    x ∈ blockBytes b (sackBlocks tp sacks thAck) ↔
      x < off b thAck ∨ x ∈ blockBytes b (validBlocks tp sacks thAck) := by
  simp only [blockBytes, sackBlocks, cover_append]
  refine or_congr_left ?_
  simp only [ackBlock, seqLt_iff h.una hack, hne, ne_eq, not_false_eq_true, and_true]
  split
  · simp only [mem_cover_cons, mem_cover_nil, or_false]
    exact ⟨fun hx' => hx'.2, fun hx' => ⟨hx, hx'⟩⟩
  · simp only [mem_cover_nil, false_iff]
    omega

/-- The bytes an acknowledgment reports: those before it and those of the valid blocks. -/
def ackedBytes (b : TcpSeq) (tp : Tcpcb) (sacks : List Sackblk) (thAck : TcpSeq) : Set ℕ :=
  {x | x < off b thAck} ∪ blockBytes b (validBlocks tp sacks thAck)

theorem mem_ackedBytes (h : tp.Ok b) (hack : InWindow b thAck) (hx : x ∈ holeBytes b tp.sndHoles ∨
      sackBlocks tp sacks thAck ≠ [] ∧ reach b tp sacks thAck ≤ x) :
    x ∈ ackedBytes b tp sacks thAck ↔ x ∈ blockBytes b (sackBlocks tp sacks thAck) := by
  by_cases hnil : tp.sndHoles = []
  · -- no hole, so no block stands for the acknowledgment, and `snd_fack` starts behind it
    have hack' : off b thAck ≤ x := by
      obtain hx | ⟨hne, hx⟩ := hx
      · simp [hnil, holeBytes] at hx
      · rw [reach, if_pos ⟨hnil, hne⟩] at hx
        exact (le_max_right _ _).trans hx
    have hblks : sackBlocks tp sacks thAck = validBlocks tp sacks thAck := by
      simp [sackBlocks, ackBlock, hnil, validBlocks]
    rw [hblks]
    exact or_iff_right (not_lt.mpr hack')
  · have huna : off b tp.sndUna ≤ x := by
      obtain ⟨g, hg, hx⟩ | ⟨hne, hx⟩ := hx
      · exact (h.una_le g hg).trans hx.1
      · exact (h.una_le_reach hne).trans hx
    exact (mem_blockBytes_sackBlocks h hack hnil huna).symm

/-- **The scoreboard after an acknowledgment**, whatever blocks it carries.  The holes are again not
empty, in order and apart, between `snd_una` and `snd_fack`.  If no allocation fails they hold
exactly the bytes of the old holes and of the stretch between the old and the new `snd_fack` that
are not acknowledged, and the new `snd_fack` is the largest of the old one and the ends of the
blocks.  If one fails, no byte of an old hole that is not acknowledged is forgotten. -/
theorem tcpSackDoack_bytes (lim : Limits) (tp : Tcpcb) (sacks : List Sackblk) (thAck : TcpSeq)
    (uma : List Bool) (b : TcpSeq) (h : tp.Ok b) (hack : InWindow b thAck) :
    (tcpSackDoack lim tp sacks thAck uma).Ok b ∧
    ((tcpSackDoack lim tp sacks thAck uma).failed = false →
      holeBytes b (tcpSackDoack lim tp sacks thAck uma).sndHoles =
        (holeBytes b tp.sndHoles ∪ Set.Ico (reach b tp sacks thAck)
          (off b (tcpSackDoack lim tp sacks thAck uma).sndFack)) \ ackedBytes b tp sacks thAck ∧
      IsGreatest (insert (reach b tp sacks thAck) {e | ∃ k ∈ sackBlocks tp sacks thAck, e = k.hi b})
        (off b (tcpSackDoack lim tp sacks thAck uma).sndFack)) ∧
    holeBytes b tp.sndHoles \ ackedBytes b tp sacks thAck ⊆
      holeBytes b (tcpSackDoack lim tp sacks thAck uma).sndHoles := by
  have hup := tcpSackDoack_updated lim uma sacks h hack
  generalize tcpSackDoack lim tp sacks thAck uma = tp' at hup ⊢
  refine ⟨hup.ok, fun hf => ?_, ?_⟩
  · obtain ⟨heq, hle, hmax, hor⟩ := hup.full hf
    refine ⟨?_, hor, ?_⟩
    · rw [heq]
      ext x
      refine and_congr_right fun hx => not_congr (mem_ackedBytes h hack ?_).symm
      refine hx.imp_right fun hx => ⟨fun hnil => ?_, hx.1⟩
      rw [hnil] at hor
      obtain hor | ⟨k, hk, -⟩ := hor
      · exact absurd (hx.2.trans_eq hor) (not_lt.mpr hx.1)
      · cases hk
    · rintro e (rfl | ⟨k, hk, rfl⟩)
      · exact hle
      · exact hmax k hk
  · rintro x ⟨hx, hx'⟩
    exact hup.kept ⟨hx, mt (mem_ackedBytes h hack (.inl hx)).mpr hx'⟩

/-- Two holes on both sides of the wrap of the sequence numbers. -/
def acrossWrap : Tcpcb :=
  { sndNumholes := 2, globalholes := 2, nexthole := some 0, sackBytesRexmit := 0, serial := 2,
    uma := [], failed := false, sndUna := 0xfffffff0, sndMax := 100, sndFack := 50,
    sndHoles := [⟨0, 0xfffffff0, 4, 0xfffffff0⟩, ⟨1, 10, 40, 10⟩] }

/-- Blocks that split a hole, overlap, go beyond `snd_fack` and lie before `snd_una`. -/
def mixedBlocks : List Sackblk := [⟨20, 30⟩, ⟨25, 32⟩, ⟨60, 70⟩, ⟨0xffffff00, 7⟩]

theorem acrossWrap_ok : acrossWrap.Ok 0xfffffff0 :=
  ⟨⟨⟨by decide, fun h hh => ⟨by revert h; decide, by revert h; decide⟩,
    ⟨by decide, by decide⟩, by decide⟩, by decide, by decide, by decide⟩, by decide⟩

theorem tcpSackDoack_bytes_acrossWrap :
    acrossWrap.Ok 0xfffffff0 ∧ InWindow (0xfffffff0 : TcpSeq) 0xfffffff8 ∧
    (tcpSackDoack ⟨128, 65536⟩ acrossWrap mixedBlocks 0xfffffff8 [true, true]).sndHoles =
      [⟨0, 0xfffffff8, 4, 0xfffffff8⟩, ⟨1, 10, 20, 10⟩, ⟨3, 32, 40, 32⟩, ⟨2, 50, 60, 50⟩] ∧
    holeBytes 0xfffffff0
        (tcpSackDoack ⟨128, 65536⟩ acrossWrap mixedBlocks 0xfffffff8 [true, true]).sndHoles =
      (holeBytes 0xfffffff0 acrossWrap.sndHoles ∪
        Set.Ico (reach 0xfffffff0 acrossWrap mixedBlocks 0xfffffff8) (off (0xfffffff0 : TcpSeq) 70)) \
          ackedBytes 0xfffffff0 acrossWrap mixedBlocks 0xfffffff8 :=
  ⟨acrossWrap_ok, by decide, by decide,
    ((tcpSackDoack_bytes ⟨128, 65536⟩ acrossWrap mixedBlocks 0xfffffff8 [true, true] 0xfffffff0
      acrossWrap_ok (by decide)).2.1 (by decide)).1⟩

/-- An empty scoreboard with a `snd_fack` left over from an earlier recovery. -/
def staleFack : Tcpcb :=
  { sndNumholes := 0, globalholes := 0, nexthole := none, sackBytesRexmit := 0, serial := 0,
    uma := [], failed := false, sndUna := 100, sndMax := 300, sndFack := 200, sndHoles := [] }

/-- **An old `snd_fack` does not count on an empty scoreboard.**  It is replaced by the acknowledged
end of the stream, so that `snd_fack` falls, and a hole is made of bytes before its old value. -/
theorem snd_fack_falls : staleFack.Ok 100 ∧ InWindow (100 : TcpSeq) staleFack.sndFack ∧
    (tcpSackDoack ⟨128, 65536⟩ staleFack [⟨150, 160⟩] 100 [true]).failed = false ∧
    off 100 (tcpSackDoack ⟨128, 65536⟩ staleFack [⟨150, 160⟩] 100 [true]).sndFack <
      off 100 staleFack.sndFack ∧
    (tcpSackDoack ⟨128, 65536⟩ staleFack [⟨150, 160⟩] 100 [true]).sndHoles = [⟨0, 100, 150, 100⟩] :=
  ⟨⟨⟨⟨by decide, by simp [staleFack], ⟨by simp [staleFack], by simp [staleFack]⟩,
    by simp [staleFack]⟩, by decide, by decide, by decide⟩, by simp [staleFack]⟩,
    by decide, by decide, by decide, by decide⟩

end FreeBSDSys.Tcp
