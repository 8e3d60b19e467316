import FreeBSDSys.Lib.Reachability
import FreeBSDSys.Kern.SockbufAppend

/-!
# Socket buffers in every run

Dropping from the front of a buffer frees mbufs, and records with them; what is left of the last
record ends with the same mbuf, so that `sb_mbtail` need not change.  Together with the functions
that append, this gives for every run that the counters, the two pointers and the bytes are right,
if no record that `sbappendrecord` begins fits into its first mbuf.  Otherwise `sb_mbtail` is lost,
and the next `sbappendstream` may throw away what was in the buffer (`sbappendrecord_loses_tail`).

* `sbdrop_spec`, `sbdroprecord_spec`: dropping.
* `Op`, `Op.fifo`: what happens to the buffer, and to the queue of records that it stands for.
* `sockbuf_consistent`: the result for every run.
-/

namespace FreeBSDSys.Sockbuf

open List Records SockBuf

variable {sb sb' : SockBuf} {rs : List (List Mbuf)} {r r' rest : List Mbuf} {m : Mbuf} {len : ℕ}

/-! ## Dropping -/

/-- Bytes were dropped from the front of a record `r`, of which `r'` is left. -/
structure Dropped (sb sb' : SockBuf) (r r' : List Mbuf) : Prop where
  cnt : sb'.cnt - total r' = sb.cnt - total r
  suffix : ptrs r' <:+ ptrs r
  mbtail : sb'.mbtail = sb.mbtail
  lastrecord : sb'.lastrecord = sb.lastrecord

theorem Dropped.refl (sb : SockBuf) (r : List Mbuf) : Dropped sb sb r r :=
  ⟨rfl, suffix_refl _, rfl, rfl⟩

theorem Dropped.trans {sb1 : SockBuf} {r1 : List Mbuf} (h1 : Dropped sb sb1 r r1)
    (h2 : Dropped sb1 sb' r1 r') : Dropped sb sb' r r' :=
  ⟨h2.cnt.trans h1.cnt, h2.suffix.trans h1.suffix, h2.mbtail.trans h1.mbtail,
    h2.lastrecord.trans h1.lastrecord⟩

theorem dropped_sbfree : Dropped sb (sbfree sb m) (m :: rest) rest := by
  refine ⟨?_, suffix_cons _ _, rfl, rfl⟩
  rw [total_cons]
  simp only [sbfree]
  abel

/-- **The first loop**, in one record. -/
theorem dropChain_spec (sb : SockBuf) (len : ℕ) (r : List Mbuf) :
    Dropped sb (dropChain sb len r).1 r (dropChain sb len r).2.2 ∧
      bytes (dropChain sb len r).2.2 = (bytes r).drop len ∧
      (dropChain sb len r).2.1 = len - (bytes r).length ∧
      ((dropChain sb len r).2.1 ≠ 0 → (dropChain sb len r).2.2 = []) := by
  induction r generalizing sb len with
  | nil => simp [dropChain, Dropped.refl]
  | cons m rest ih =>
    unfold dropChain
    have hlen : (bytes (m :: rest)).length = m.len + (bytes rest).length := by
      rw [bytes_cons, length_append]
      rfl
    split
    next h0 =>
      subst h0
      simp [Dropped.refl]
    next h0 =>
      split
      next hlt =>
        refine ⟨⟨?_, suffix_refl _, rfl, rfl⟩, ?_, by simp only [hlen]; omega, by simp⟩
        · simp only [total_cons, weight_cut hlt.le]
          abel
        · have : len ≤ m.data.length := hlt.le
          simp [Mbuf.cut, drop_append_of_le_length this]
      next hle =>
        obtain ⟨hd, hb, hl, hnil⟩ := ih (sbfree sb m) (len - m.len)
        refine ⟨dropped_sbfree.trans hd, ?_, by rw [hl, hlen]; omega, hnil⟩
        have : m.data.length ≤ len := not_lt.mp hle
        rw [hb, bytes_cons, drop_append, drop_eq_nil_of_le this]
        rfl

/-- **The second loop.** -/
theorem dropEmpty_spec (sb : SockBuf) (r : List Mbuf) :
    Dropped sb (dropEmpty sb r).1 r (dropEmpty sb r).2 ∧ bytes (dropEmpty sb r).2 = bytes r ∧
      ((dropEmpty sb r).2 = [] ↔ bytes r = []) := by
  induction r generalizing sb with
  | nil => simp [dropEmpty, Dropped.refl]
  | cons m rest ih =>
    unfold dropEmpty
    split
    next h0 =>
      have hdata : m.data = [] := length_eq_zero_iff.mp h0
      obtain ⟨hd, hb, hnil⟩ := ih (sbfree sb m)
      simp only [bytes_cons, hdata]
      exact ⟨dropped_sbfree.trans hd, hb, hnil⟩
    next h0 =>
      have hdata : m.data ≠ [] := fun h => h0 (by rw [Mbuf.len, h]; rfl)
      exact ⟨.refl _ _, rfl, by simp [hdata]⟩

/-- Bytes were dropped from a record `m` and those behind it: `m'` is what is left of a record `r`,
and `next'` are the records behind that. -/
structure DroppedTo (sb sb' : SockBuf) (len : ℕ) (m : List Mbuf) (next : List (List Mbuf))
    (m' : List Mbuf) (next' : List (List Mbuf)) : Prop where
  split : ∃ P r, m :: next = P ++ r :: next' ∧ ptrs m' <:+ ptrs r
  cnt : sb'.cnt - total (m' ++ next'.flatten) = sb.cnt - total (m ++ next.flatten)
  mbtail : sb'.mbtail = sb.mbtail
  lastrecord : sb'.lastrecord = sb.lastrecord
  contents : Records.drop len ((m :: next).map bytes) =
    if bytes m' = [] then next'.map bytes else bytes m' :: next'.map bytes

/-- The loop ends in the first record. -/
theorem dropChain_stops (sb : SockBuf) (next : List (List Mbuf)) (hlen : len ≤ (bytes r).length) :
    (dropChain sb len r).2.1 = 0 ∧
      DroppedTo sb (dropChain sb len r).1 len r next (dropChain sb len r).2.2 next := by
  obtain ⟨hd, hb, hl, -⟩ := dropChain_spec sb len r
  refine ⟨by omega, ⟨[], r, rfl, hd.suffix⟩, ?_, hd.mbtail, hd.lastrecord, ?_⟩
  · rw [total_append, total_append, sub_add_eq_sub_sub, sub_add_eq_sub_sub, hd.cnt]
  · rw [hb, map_cons, drop_cons_of_le hlen]

/-- **The first loop**, over the records. -/
theorem dropRecs_spec (sb : SockBuf) (len : ℕ) (m : List Mbuf) (next : List (List Mbuf))
    (hlen : len ≤ (bytes (m ++ next.flatten)).length) :
    ∃ sb' m' next', dropRecs sb len m next = some (sb', m', next') ∧
      DroppedTo sb sb' len m next m' next' := by
  induction next generalizing sb len m with
  | nil =>
    rw [flatten_nil, append_nil] at hlen
    obtain ⟨h0, hd⟩ := dropChain_stops sb [] hlen
    exact ⟨_, _, _, if_pos h0, hd⟩
  | cons r next ih =>
    rw [dropRecs]
    by_cases hle : len ≤ (bytes m).length
    · obtain ⟨h0, hd⟩ := dropChain_stops sb (r :: next) hle
      exact ⟨_, _, _, if_pos h0, hd⟩
    · obtain ⟨hd, -, hl, hnil⟩ := dropChain_spec sb len m
      rw [bytes_append, length_append, flatten_cons] at hlen
      have hne : (dropChain sb len m).2.1 ≠ 0 := by omega
      obtain ⟨sb', m', next', hrun, ⟨P, r', hsplit, hsuf⟩, hcnt, htail, hlast, hcont⟩ :=
        ih (dropChain sb len m).1 (dropChain sb len m).2.1 r (by omega)
      refine ⟨sb', m', next', ?_, ⟨m :: P, r', by rw [hsplit]; rfl, hsuf⟩, ?_,
        htail.trans hd.mbtail, hlast.trans hd.lastrecord, ?_⟩
      · rw [if_neg hne, hrun]
      · have hcnt1 := hd.cnt
        rw [hnil hne, total_nil, sub_zero] at hcnt1
        rw [hcnt, hcnt1, flatten_cons, total_append m, sub_add_eq_sub_sub]
      · rw [map_cons, drop_cons_of_lt (by omega), ← hl]
        exact hcont

/-- `sb_cc` is the number of bytes, as far as it can count. -/
theorem total_cc (l : List Mbuf) : total l .cc = BitVec.ofNat 32 (bytes l).length := by
  induction l with
  | nil => rfl
  | cons m l ih =>
    rw [total_cons, bytes_cons, length_append, BitVec.ofNat_add, Pi.add_apply, ih]
    simp [weight, dataWeight, hdrWeight, Mbuf.len]

theorem SockBuf.Ok.cc_le (h : sb.Ok) : (sb.cnt .cc).toNat ≤ (bytes sb.stored).length := by
  rw [h.cnt, total_cc]
  exact Nat.mod_le _ _

/-- A nonempty part at the end of a record ends with its last mbuf. -/
theorem last_of_suffix (h : ptrs r' <:+ ptrs r) (hne : r' ≠ []) : last r' = last r := by
  obtain ⟨l, a, rfl⟩ := (eq_nil_or_concat' r').resolve_left hne
  obtain ⟨t, ht⟩ := h
  rw [last_eq, last_eq, ← ht]
  simp

/-- What is left of the records when some were dropped, and of the record `r` only `r'` is left. -/
def leftOver (r' : List Mbuf) (rs : List (List Mbuf)) : List (List Mbuf) :=
  if r' = [] then rs else r' :: rs

theorem getLast?_leftOver (P : List (List Mbuf)) (r r' : List Mbuf) (hne : rs ≠ []) :
    (leftOver r' rs).getLast? = (P ++ r :: rs).getLast? := by
  obtain ⟨S, s, rfl⟩ := (eq_nil_or_concat' rs).resolve_left hne
  have h : ∀ Q : List (List Mbuf), (Q ++ (S ++ [s])).getLast? = some s := fun Q => by
    rw [← append_assoc, getLast?_concat]
  rw [show P ++ r :: (S ++ [s]) = (P ++ [r]) ++ (S ++ [s]) by simp, h, leftOver]
  split
  · exact h []
  · exact h [r']

/-- What is left when records were dropped is a valid buffer. -/
theorem SockBuf.Ok.dropped {P : List (List Mbuf)} (sb' : SockBuf) (h : sb.Ok)
    (hrecs : sb.recs = P ++ r :: rs) (hsuf : ptrs r' <:+ ptrs r)
    (hrecs' : sb'.recs = leftOver r' rs) (hcnt : sb'.cnt = total (r' ++ rs.flatten))
    (hlast : sb'.lastrecord = sb'.recs.getLast?.bind first)
    (htail : sb'.mbtail = if sb'.recs = [] then none else sb.mbtail) :
    sb'.Ok ∧ (sb.TailOk → sb'.TailOk) := by
  have hstored : sb'.stored = r' ++ rs.flatten := by
    rw [stored, hrecs', leftOver]
    split
    next hnil => rw [hnil, nil_append]
    next => rfl
  refine ⟨⟨?_, ?_, ?_, hlast⟩, fun ht => ?_⟩
  · have hrs : ∀ s ∈ rs, s ≠ [] := fun s hs => h.nonempty s (by simp [hrecs, hs])
    rw [hrecs', leftOver]
    split
    next => exact hrs
    next hne => exact forall_mem_cons.mpr ⟨hne, hrs⟩
  · have hnd := h.nodup
    rw [stored, hrecs, flatten_append, flatten_cons, ptrs_append, ptrs_append] at hnd
    rw [hstored, ptrs_append]
    exact (nodup_append.mp hnd).2.1.sublist (hsuf.sublist.append_right _)
  · rw [hcnt, hstored]
  · rw [TailOk, htail]
    by_cases hne : rs = []
    · subst hne
      rw [hrecs', leftOver]
      split
      next hnil =>
        rfl
      next hne =>
        rw [ht, hrecs, getLast?_concat]
        exact (last_of_suffix hsuf hne).symm
    · have hsome : sb'.recs ≠ [] := by
        rw [hrecs', leftOver]
        split
        · exact hne
        · exact cons_ne_nil _ _
      rw [if_neg hsome, ht, hrecs', hrecs, getLast?_leftOver _ _ _ hne]

/-- The `sb_lastrecord` that `sbdrop_internal` leaves. -/
def lastLeft (recs : List (List Mbuf)) (lastrecord : Option Ptr) : Option Ptr :=
  match recs with
  | [] => none
  | [r] => first r
  | _ => lastrecord

/-- **`sbdrop_internal`** -/
theorem sbdrop_spec (h : sb.Ok) (hlen : len ≤ (sb.cnt .cc).toNat) :
    ∃ sb', sbdrop sb len = some sb' ∧ sb'.Ok ∧ (sb.TailOk → sb'.TailOk) ∧
      sb'.contents = Records.drop len sb.contents := by
  have hlen' := hlen.trans h.cc_le
  unfold sbdrop
  cases hrecs : sb.recs with
  | nil =>
    have hlen0 : len = 0 := by simpa [stored, hrecs] using hlen'
    subst hlen0
    refine ⟨{ sb with recs := [], mbtail := none, lastrecord := none }, rfl, ⟨by simp, ?_, ?_, rfl⟩,
      fun _ => rfl, ?_⟩
    · exact nodup_nil
    · simpa [stored, hrecs] using h.cnt
    · rw [contents, contents, hrecs]
      rfl
  | cons m next =>
    rw [stored, hrecs] at hlen'
    obtain ⟨sb1, m1, next', hrun, ⟨P, r, hsplit, hsuf⟩, hcnt, htail, hlast, hcont⟩ :=
      dropRecs_spec sb len m next hlen'
    simp only [headD_cons, tail_cons, hrun, Option.bind_eq_bind, Option.bind_some]
    obtain ⟨hd, hb, hnil⟩ := dropEmpty_spec sb1 m1
    generalize dropEmpty sb1 m1 = e at *
    refine ⟨_, rfl, ?_⟩
    have hcnt' : e.1.cnt = total (e.2 ++ next'.flatten) := by
      have h₀ := h.cnt
      rw [stored, hrecs, flatten_cons, ← sub_eq_zero, ← hcnt, total_append,
        sub_add_eq_sub_sub, ← hd.cnt, ← sub_add_eq_sub_sub, ← total_append, sub_eq_zero] at h₀
      exact h₀
    have hsame : e.1.lastrecord = sb.recs.getLast?.bind first := by
      rw [hd.lastrecord, hlast, h.lastrecord]
    have hlast' : lastLeft (leftOver e.2 next') e.1.lastrecord =
        (leftOver e.2 next').getLast?.bind first := by
      unfold lastLeft
      split
      next h0 =>
        rw [h0]
        rfl
      next h1 =>
        rw [h1]
        rfl
      next h0 h1 =>
        -- two records are left, so that the last one was not touched
        have hne : next' ≠ [] := by
          rintro rfl
          by_cases he : e.2 = []
          · exact h0 (by rw [leftOver, if_pos he])
          · exact h1 e.2 (by rw [leftOver, if_neg he])
        rw [hsame, getLast?_leftOver P r e.2 hne, hrecs, hsplit]
    obtain ⟨hok, htail'⟩ := Ok.dropped
      { e.1 with
        recs := leftOver e.2 next'
        mbtail := if leftOver e.2 next' = [] then none else e.1.mbtail
        lastrecord := lastLeft (leftOver e.2 next') e.1.lastrecord }
      h (hrecs.trans hsplit) (hd.suffix.trans hsuf) rfl hcnt' hlast'
      (by rw [hd.mbtail, htail])
    refine ⟨hok, htail', ?_⟩
    have hcont' : (leftOver e.2 next').map bytes =
        if bytes m1 = [] then next'.map bytes else bytes m1 :: next'.map bytes := by
      rw [leftOver]
      by_cases hm : bytes m1 = []
      · rw [if_pos hm, if_pos (hnil.mpr hm)]
      · rw [if_neg hm, if_neg fun he => hm (hnil.mp he), map_cons, hb]
    rw [contents, contents, hrecs, hcont]
    exact hcont'

theorem foldl_sbfree (sb : SockBuf) (l : List Mbuf) :
    (l.foldl sbfree sb).cnt = sb.cnt - total l ∧ (l.foldl sbfree sb).mbtail = sb.mbtail ∧
      (l.foldl sbfree sb).lastrecord = sb.lastrecord := by
  induction l generalizing sb with
  | nil => simp
  | cons m l ih =>
    obtain ⟨hcnt, htail, hlast⟩ := ih (sbfree sb m)
    refine ⟨?_, htail, hlast⟩
    rw [foldl_cons, hcnt, total_cons, sub_add_eq_sub_sub]
    rfl

/-- **`sbdroprecord_locked`** -/
theorem sbdroprecord_spec (h : sb.Ok) :
    (sbdroprecord sb).Ok ∧ (sb.TailOk → (sbdroprecord sb).TailOk) ∧
      (sbdroprecord sb).contents = sb.contents.tail := by
  unfold sbdroprecord contents
  cases hrecs : sb.recs with
  | nil =>
    refine ⟨⟨by simp, nodup_nil, ?_, rfl⟩, fun _ => rfl, rfl⟩
    simpa [stored, hrecs] using h.cnt
  | cons r rs =>
    obtain ⟨hcnt, htail, hlast⟩ := foldl_sbfree sb r
    have hcnt' : (r.foldl sbfree sb).cnt = total ([] ++ rs.flatten) := by
      rw [hcnt, h.cnt, stored, hrecs, flatten_cons, total_append, add_sub_cancel_left, nil_append]
    have hlast' : (if rs = [] then none else (r.foldl sbfree sb).lastrecord) =
        rs.getLast?.bind first := by
      split
      next hnil =>
        rw [hnil]
        rfl
      next hne =>
        have := getLast?_leftOver [] r [] hne
        rw [hlast, h.lastrecord, hrecs, ← nil_append (r :: rs), ← this]
        rfl
    obtain ⟨hok, htail'⟩ := Ok.dropped (P := [])
      { r.foldl sbfree sb with
        recs := rs
        mbtail := if rs = [] then none else (r.foldl sbfree sb).mbtail
        lastrecord := if rs = [] then none else (r.foldl sbfree sb).lastrecord }
      h hrecs (show ptrs [] <:+ ptrs r from nil_suffix) rfl hcnt' hlast' (by rw [htail])
    exact ⟨hok, htail', rfl⟩

/-! ## Runs -/

/-- What may happen to a socket buffer.  `wr` tells which mbufs may be written at that time, and
`other` is what other functions set. -/
inductive Op
  | append (wr : Ptr → Bool) (chain : List Mbuf)
  | appendstream (wr : Ptr → Bool) (chain : List Mbuf)
  | appendrecord (wr : Ptr → Bool) (chain : List Mbuf)
  | appendaddr (asa : List Octet) (m₀ control : List Mbuf) (mget : Option Ptr)
  | appendcontrol (m₀ control : List Mbuf)
  | drop (len : ℕ)
  | droprecord
  | other (sndptr : Option Ptr) (sndptroff hiwat mbmax : BitVec 32) (noCoalesce : Bool)

/-- The buffer afterwards, and whether something was appended. -/
def Op.run (sb : SockBuf) : Op → Option (SockBuf × Bool)
  | .append wr chain => (sbappend wr sb chain).map (·, true)
  | .appendstream wr chain => (sbappendstream wr sb chain).map (·, true)
  | .appendrecord wr chain => (sbappendrecord wr sb chain).map (·, true)
  | .appendaddr asa m₀ control mget => sbappendaddr sb asa m₀ control mget
  | .appendcontrol m₀ control => sbappendcontrol sb m₀ control
  | .drop len => (sbdrop sb len).map (·, false)
  | .droprecord => some (sbdroprecord sb, false)
  | .other sndptr sndptroff hiwat mbmax noCoalesce =>
    some ({ sb with sndptr, sndptroff, hiwat, mbmax, noCoalesce }, false)

/-- The mbufs of a chain are not those of the buffer, and all different. -/
def Fresh (sb : SockBuf) (l : List Ptr) : Prop := (ptrs sb.stored ++ l).Nodup

instance (sb : SockBuf) (l : List Ptr) : Decidable (Fresh sb l) :=
  inferInstanceAs (Decidable (List.Nodup _))

/-- What the callers see to: new mbufs, one record at most for a stream, a packet header for
`sbappendaddr`, control data for `sbappendcontrol`, and no more bytes dropped than there are. -/
def Op.Pre (sb : SockBuf) : Op → Prop
  | .append _ chain => Fresh sb (ptrs chain)
  | .appendstream _ chain => chain ≠ [] ∧ sb.recs.length ≤ 1 ∧ Fresh sb (ptrs chain)
  | .appendrecord _ chain => Fresh sb (ptrs chain)
  | .appendaddr _ m₀ control mget =>
    (∀ m ∈ m₀.head?, m.pkthdr ≠ none) ∧ Fresh sb (mget.toList ++ ptrs (control ++ m₀))
  | .appendcontrol m₀ control => control ≠ [] ∧ Fresh sb (ptrs (control ++ m₀))
  | .drop len => len ≤ (sb.cnt .cc).toNat
  | _ => True

/-- A record that is begun by `sbappendrecord` does not all fit into its first mbuf. -/
def Op.Long (sb : SockBuf) : Op → Prop
  | .append wr chain => sb.Ended → ¬ FitsFirst wr sb.noCoalesce chain
  | .appendrecord wr chain => ¬ FitsFirst wr sb.noCoalesce chain
  | _ => True

/-- What happens to the queue of records. -/
def Op.fifo (sb : SockBuf) (appended : Bool) (q : List (List Octet)) : Op → List (List Octet)
  | .append _ chain => fifoAppend sb.Ended chain q
  | .appendstream _ chain => fifoAppend False chain q
  | .appendrecord _ chain => if chain = [] then q else q ++ [bytes chain]
  | .appendaddr asa m₀ control _ => if appended then q ++ [asa ++ bytes control ++ bytes m₀] else q
  | .appendcontrol m₀ control => if appended then q ++ [bytes control ++ bytes m₀] else q
  | .drop len => Records.drop len q
  | .droprecord => q.tail
  | .other .. => q

/-- **One operation.** -/
theorem Op.run_spec (h : sb.Ok) (ht : sb.TailOk) (op : Op) (hpre : op.Pre sb) :
    ∃ out, op.run sb = some out ∧ out.1.Ok ∧ out.1.contents = op.fifo sb out.2 sb.contents ∧
      (op.Long sb → out.1.TailOk) := by
  cases op with
  | append wr chain =>
    obtain ⟨sb', hrun, hok, hcont, htail⟩ := sbappend_spec wr h hpre
    exact ⟨(sb', true), by rw [Op.run, hrun]; rfl, hok, hcont, htail ht⟩
  | appendstream wr chain =>
    obtain ⟨sb', hrun, hok, htail, hcont⟩ :=
      sbappendstream_spec wr h ht hpre.2.1 hpre.1 hpre.2.2
    exact ⟨(sb', true), by rw [Op.run, hrun]; rfl, hok, hcont, fun _ => htail⟩
  | appendrecord wr chain =>
    by_cases hne : chain = []
    · subst hne
      exact ⟨(sb, true), rfl, h, rfl, fun _ => ht⟩
    · obtain ⟨sb', hrun, hok, hcont, htail⟩ := sbappendrecord_spec wr h hne hpre
      exact ⟨(sb', true), by rw [Op.run, hrun]; rfl, hok, by rw [Op.fifo, if_neg hne]; exact hcont,
        htail⟩
  | appendaddr asa m0 control mget =>
    simp only [Op.run, sbappendaddr]
    rw [if_neg fun ⟨m, hm, hnone⟩ => hpre.1 m hm hnone]
    split
    · exact ⟨_, rfl, h, rfl, fun _ => ht⟩
    · split
      · exact ⟨_, rfl, h, rfl, fun _ => ht⟩
      · cases mget with
        | none => exact ⟨_, rfl, h, rfl, fun _ => ht⟩
        | some p =>
          obtain ⟨hok, htail, hcont⟩ := linkChain_spec
            (⟨p, .soname, false, none, none, mlen - asa.length, asa⟩ :: (control ++ m0))
            h (cons_ne_nil _ _) hpre.2
          refine ⟨_, rfl, hok, hcont.trans ?_, fun _ => htail⟩
          simp [Op.fifo]
  | appendcontrol m0 control =>
    simp only [Op.run, sbappendcontrol]
    rw [if_neg hpre.1]
    split
    · exact ⟨_, rfl, h, rfl, fun _ => ht⟩
    · obtain ⟨hok, htail, hcont⟩ := linkChain_spec (control ++ m0) h
        (by simp [hpre.1]) hpre.2
      refine ⟨_, rfl, hok, hcont.trans ?_, fun _ => htail⟩
      simp [Op.fifo]
  | drop len =>
    obtain ⟨sb', hrun, hok, htail, hcont⟩ := sbdrop_spec h hpre
    exact ⟨(sb', false), by rw [Op.run, hrun]; rfl, hok, hcont, fun _ => htail ht⟩
  | droprecord =>
    obtain ⟨hok, htail, hcont⟩ := sbdroprecord_spec h
    exact ⟨(sbdroprecord sb, false), rfl, hok, hcont, fun _ => htail ht⟩
  | other sndptr sndptroff hiwat mbmax noCoalesce =>
    exact ⟨_, rfl, ⟨h.nonempty, h.nodup, h.cnt, h.lastrecord⟩, rfl, fun _ => ht⟩

/-- An operation on a buffer and on the queue that it stands for. -/
inductive SbStep : SockBuf × List (List Octet) → SockBuf × List (List Octet) → Prop
  | op (s : SockBuf × List (List Octet)) (op : Op) (out : SockBuf × Bool) (hpre : op.Pre s.1)
      (hlong : op.Long s.1) (hrun : op.run s.1 = some out) : SbStep s (out.1, op.fifo s.1 out.2 s.2)

/-- An empty buffer. -/
def SockBuf.empty (hiwat mbmax : BitVec 32) (noCoalesce : Bool) : SockBuf :=
  ⟨[], none, none, none, 0, 0, hiwat, mbmax, noCoalesce⟩

/-- **Socket buffers are consistent.**  If no record that `sbappendrecord` begins fits into its
first mbuf, then in every run the counters are the totals, `sb_lastrecord` and `sb_mbtail` are the
first and the last mbuf of the last record, and the bytes are those of the queue, record by record.
Every operation comes to an end without a panic. -/
theorem sockbuf_consistent {hiwat mbmax : BitVec 32} {noCoalesce : Bool}
    (s : SockBuf × List (List Octet))
    (hs : Reachable (· = (empty hiwat mbmax noCoalesce, [])) SbStep s) :
    s.1.Ok ∧ s.1.TailOk ∧ s.1.contents = s.2 ∧ ∀ op : Op, op.Pre s.1 → (op.run s.1).isSome := by
  have hinv : s.1.Ok ∧ s.1.TailOk ∧ s.1.contents = s.2 := by
    refine hs.invariant (I := fun s => s.1.Ok ∧ s.1.TailOk ∧ s.1.contents = s.2) ?_ ?_
    · rintro s rfl
      exact ⟨⟨by simp [empty], nodup_nil, rfl, rfl⟩, rfl, rfl⟩
    · rintro s s' ⟨hok, htail, hcont⟩ ⟨op, out, hpre, hlong, hrun⟩
      obtain ⟨out', hrun', hok', hcont', htail'⟩ := op.run_spec hok htail hpre
      cases hrun.symm.trans hrun'
      exact ⟨hok', htail' hlong, hcont ▸ hcont'⟩
  refine ⟨hinv.1, hinv.2.1, hinv.2.2, fun op hpre => ?_⟩
  obtain ⟨out, hrun, -⟩ := op.run_spec hinv.1 hinv.2.1 hpre
  rw [hrun]
  rfl

/-- A small mbuf with four bytes. -/
def four (p : Ptr) : Mbuf := ⟨p, .data, false, none, none, 200, [1, 2, 3, 4]⟩

/-- Two appends to a stream, and six bytes dropped. -/
theorem sockbuf_consistent_sixDropped : ∃ out₁ out₂ out₃,
      (Op.append (fun _ => false) [four 1]).run (.empty 0x8000 0x10000 false) = some out₁ ∧
      (Op.appendstream (fun _ => false) [four 2]).run out₁.1 = some out₂ ∧
      (Op.drop 6).run out₂.1 = some out₃ ∧
      out₃.1.Ok ∧ out₃.1.TailOk ∧ out₃.1.contents = [[3, 4]] := by
  refine ⟨_, _, _, rfl, rfl, rfl, ?_⟩
  have h0 : Reachable (· = (empty 0x8000 0x10000 false, [])) SbStep
      (empty 0x8000 0x10000 false, []) := .of_init rfl
  have h1 := h0.tail (.op _ (.append (fun _ => false) [four 1]) _ (by decide : Fresh _ _)
    (fun ⟨_, hr, _⟩ => by cases hr) rfl)
  have h2 := h1.tail (.op _ (.appendstream (fun _ => false) [four 2]) _
    ⟨by decide, by decide, by decide⟩ trivial rfl)
  have h3 := h2.tail (.op _ (.drop 6) _ (by decide : 6 ≤ _) trivial rfl)
  obtain ⟨hok, htail, hcont, -⟩ := sockbuf_consistent _ h3
  exact ⟨hok, htail, hcont⟩

/-- **The last mbuf is lost.**  A record of one mbuf is appended to an empty buffer: `sb_mbtail`
stays `NULL`.  The next append to the stream then takes the buffer for empty, and the first four
bytes are lost, but not from the counters. -/
theorem sbappendrecord_loses_tail : ∃ out₁ out₂,
      (Op.appendrecord (fun _ => true) [four 1]).run (.empty 0x8000 0x10000 false) = some out₁ ∧
      out₁.1.recs = [[four 1]] ∧ out₁.1.lastrecord = some 1 ∧ out₁.1.mbtail = none ∧
      (Op.appendstream (fun _ => true) [four 2]).Pre out₁.1 ∧
      (Op.appendstream (fun _ => true) [four 2]).run out₁.1 = some out₂ ∧
      out₂.1.recs = [[four 2]] ∧ out₂.1.cnt .cc = 8 :=
  ⟨_, _, rfl, rfl, rfl, rfl, ⟨by decide, by decide, by decide⟩, rfl, rfl, rfl⟩

end FreeBSDSys.Sockbuf
