import FreeBSDSys.Kern.Sockbuf

/-!
# Appending to a socket buffer

`sbcompress` leaves out an mbuf of the new chain, copies it into the last one of the buffer, or
links it behind that.  Each of the three keeps the bytes and the counters (`TookIn`), and so does
the loop. `sb_mbtail` is set where an mbuf is linked, and nowhere else: `sbappendrecord` links the
first mbuf of a record itself, and if all others are left out or copied into it (`Absorbed`),
`sb_mbtail` stays where it was.

* `sbcompress_some`, `sbcompress_none`: behind the last mbuf, and into an empty buffer.
* `SockBuf.Ok`, `SockBuf.TailOk`: the invariant, without and with `sb_mbtail`.
* `sbappendrecord_spec`, `sbappend_spec`, `sbappendstream_spec`, `linkChain_spec`: the functions.
-/

namespace FreeBSDSys.Sockbuf

open List Option Records SockBuf

variable {sb sb' : SockBuf} {R rs : List (List Mbuf)} {r r' l chain rest : List Mbuf} {a m n : Mbuf}
  {p : Ptr} {len : ℕ}

/-! ## Links -/

/-- The addresses of mbufs. -/
def ptrs (l : List Mbuf) : List Ptr := l.map Mbuf.ptr

/-- The bytes of a record. -/
def bytes (r : List Mbuf) : List Octet := r.flatMap Mbuf.data

/-- What mbufs count. -/
def total (l : List Mbuf) : Counter → BitVec 32 := (l.map weight).sum

@[simp] theorem ptrs_append (l l' : List Mbuf) : ptrs (l ++ l') = ptrs l ++ ptrs l' :=
  map_append

@[simp] theorem bytes_append (l l' : List Mbuf) : bytes (l ++ l') = bytes l ++ bytes l' :=
  flatMap_append

@[simp] theorem total_append (l l' : List Mbuf) : total (l ++ l') = total l + total l' := by
  rw [total, map_append, sum_append]
  rfl

@[simp] theorem ptrs_cons : ptrs (m :: l) = m.ptr :: ptrs l := rfl

@[simp] theorem bytes_cons : bytes (m :: l) = m.data ++ bytes l := rfl

@[simp] theorem total_cons : total (m :: l) = weight m + total l := sum_cons

@[simp] theorem ptrs_nil : ptrs [] = [] := rfl

@[simp] theorem bytes_nil : bytes [] = [] := rfl

@[simp] theorem total_nil : total [] = 0 := rfl

@[simp] theorem setEor_ptr {b : Bool} : (m.setEor b).ptr = m.ptr := rfl

@[simp] theorem setEor_data {b : Bool} : (m.setEor b).data = m.data := rfl


theorem mem_ptrs : p ∈ ptrs l ↔ ∃ m ∈ l, m.ptr = p := mem_map

/-- The mbuf that takes in the data of another counts it. -/
theorem weight_append (htype : n.type = m.type) :
    weight (n.append m) = weight n + dataWeight m := by
  funext k
  cases k <;> simp [weight, dataWeight, hdrWeight, Mbuf.append, Mbuf.len, htype, BitVec.ofNat_add]
  split <;> simp

theorem weight_cut (hlen : len ≤ m.len) :
    weight (m.cut len) = weight m - dataWeight { m with data := m.data.take len } := by
  have hsplit : m.len = (m.data.drop len).length + (m.data.take len).length := by
    rw [← length_append, Mbuf.len]
    simp only [length_append, length_drop, length_take]
    have : len ≤ m.data.length := hlen
    omega
  rw [eq_sub_iff_add_eq]
  funext k
  cases k with
  | cc => simp only [Pi.add_apply, weight, dataWeight, hdrWeight, Mbuf.cut, Mbuf.len, add_zero,
      ← BitVec.ofNat_add, ← hsplit]
  | ctl =>
    simp only [Pi.add_apply, weight, dataWeight, hdrWeight, Mbuf.cut, Mbuf.len, add_zero]
    split
    · rw [← BitVec.ofNat_add, ← hsplit, Mbuf.len]
    · simp
  | _ => simp [weight, dataWeight, hdrWeight, Mbuf.cut]

theorem modify_of_notMem {f : Mbuf → Mbuf} (h : p ∉ ptrs l) :
    l.map (fun m => if m.ptr = p then f m else m) = l := by
  refine (map_congr_left fun m hm => if_neg fun hp => h ?_).trans l.map_id
  exact mem_ptrs.mpr ⟨m, hm, hp⟩

theorem setNext_of_notMem (h : p ∉ ptrs l) : setNext p m l = l := by
  induction l with
  | nil => rfl
  | cons a l ih =>
    rw [ptrs_cons, mem_cons, not_or] at h
    rw [setNext, if_neg (Ne.symm h.1), ih h.2]

theorem setNext_concat (h : a.ptr ∉ ptrs l) : setNext a.ptr m (l ++ [a]) = l ++ [a, m] := by
  induction l with
  | nil => simp [setNext]
  | cons b l ih =>
    rw [ptrs_cons, mem_cons, not_or] at h
    rw [cons_append, setNext, if_neg (Ne.symm h.1), ih h.2]
    rfl

theorem setNextpkt_at (h : ∀ s ∈ R, first s ≠ some p) (hr : first r = some p) :
    setNextpkt p r' (R ++ r :: rs) = R ++ [r, r'] := by
  induction R with
  | nil => rw [nil_append, setNextpkt, if_pos hr, nil_append]
  | cons s R ih =>
    have hs := h s mem_cons_self
    rw [cons_append, setNextpkt, if_neg hs, ih fun t ht => h t (mem_cons_of_mem _ ht)]
    rfl

section Last

/-! ### The last mbuf of a buffer -/

variable (hrecs : sb.recs = R ++ [l ++ [a]]) (hnd : (ptrs sb.stored).Nodup)

theorem stored_eq (hrecs : sb.recs = R ++ [r]) : sb.stored = R.flatten ++ r := by
  rw [stored, hrecs, flatten_append, flatten_singleton]

include hrecs hnd

theorem last_notMem : a.ptr ∉ ptrs R.flatten ∧ a.ptr ∉ ptrs l := by
  rw [stored_eq hrecs, ptrs_append, ptrs_append, ← append_assoc] at hnd
  have := (nodup_append.mp hnd).2.2
  refine ⟨fun h => ?_, fun h => ?_⟩
  · exact this a.ptr (mem_append_left _ h) a.ptr (by simp) rfl
  · exact this a.ptr (mem_append_right _ h) a.ptr (by simp) rfl

theorem find_last : sb.find a.ptr = some a := by
  obtain ⟨hR, hl⟩ := last_notMem hrecs hnd
  have hno : ∀ m ∈ R.flatten ++ l, ¬ decide (m.ptr = a.ptr) = true := by
    intro m hm
    rw [decide_eq_true_eq]
    intro heq
    obtain hm | hm := mem_append.mp hm
    · exact hR (mem_ptrs.mpr ⟨m, hm, heq⟩)
    · exact hl (mem_ptrs.mpr ⟨m, hm, heq⟩)
  rw [find, stored_eq hrecs, ← append_assoc, find?_append, find?_eq_none.mpr hno]
  simp

theorem map_last {f : List Mbuf → List Mbuf} (hf : ∀ r, a.ptr ∉ ptrs r → f r = r) :
    sb.recs.map f = R ++ [f (l ++ [a])] := by
  obtain ⟨hR, -⟩ := last_notMem hrecs hnd
  have : R.map f = R := by
    refine (map_congr_left fun r hr => hf r fun h => hR ?_).trans R.map_id
    obtain ⟨m, hm, hp⟩ := mem_ptrs.mp h
    exact mem_ptrs.mpr ⟨m, mem_flatten_of_mem hr hm, hp⟩
  rw [hrecs, map_append, this, map_singleton]

theorem modify_last (f : Mbuf → Mbuf) : (sb.modify a.ptr f).recs = R ++ [l ++ [f a]] := by
  obtain ⟨-, hl⟩ := last_notMem hrecs hnd
  rw [SockBuf.modify, map_last hrecs hnd fun _ => modify_of_notMem, map_append, modify_of_notMem hl]
  simp

theorem linkMbuf_last :
    (linkMbuf sb (some a.ptr) m).recs = R ++ [l ++ [a] ++ [m.setEor false]] := by
  obtain ⟨-, hl⟩ := last_notMem hrecs hnd
  have := map_last hrecs hnd fun r hr =>
    setNext_of_notMem (m := m.setEor false) hr
  simp only [linkMbuf, sballoc, this, setNext_concat hl]
  simp

end Last

/-! ## The chain goes into a record -/

/-- A chain that all fits into the mbuf `a`: what has data has the type of `a` and is short, `a` may
be written, and there is room for all. -/
def Absorbed (wr : Ptr → Bool) (noCoalesce : Bool) (a : Mbuf) (chain : List Mbuf) : Prop :=
  (∀ m ∈ chain, m.data = [] ∨
    wr a.ptr = true ∧ noCoalesce = false ∧ m.len ≤ 2048 / 4 ∧ a.type = m.type) ∧
    (chain.map Mbuf.len).sum ≤ a.room

/-- The record `r` behind `R` took in a chain and became `r'`, which has the mbufs of `extra` at its
end. -/
structure TookIn (sb sb' : SockBuf) (R : List (List Mbuf)) (r r' chain : List Mbuf)
    (extra : List Ptr) : Prop where
  recs : sb'.recs = R ++ [r']
  ptrs : ptrs r' = ptrs r ++ extra
  sub : extra.Sublist (Sockbuf.ptrs chain)
  bytes : bytes r' = bytes r ++ Sockbuf.bytes chain
  cnt : sb'.cnt - total r' = sb.cnt - total r
  lastrecord : sb'.lastrecord = sb.lastrecord
  tail : sb'.mbtail = if extra = [] then sb.mbtail else last r'

theorem last_eq (r : List Mbuf) : last r = (ptrs r).getLast? := getLast?_map.symm

theorem first_eq (r : List Mbuf) : first r = (ptrs r).head? := head?_map.symm

/-- One mbuf, and then a chain. -/
theorem TookIn.trans {sb1 : SockBuf} {r1 : List Mbuf} {e1 e2 : List Ptr}
    (h1 : TookIn sb sb1 R r r1 [m] e1) (h2 : TookIn sb1 sb' R r1 r' rest e2) :
    TookIn sb sb' R r r' (m :: rest) (e1 ++ e2) := by
  refine ⟨h2.recs, by rw [h2.ptrs, h1.ptrs, append_assoc], h1.sub.append h2.sub, ?_,
    h2.cnt.trans h1.cnt, h2.lastrecord.trans h1.lastrecord, ?_⟩
  · rw [h2.bytes, h1.bytes, append_assoc, ← bytes_append, singleton_append]
  · rw [h2.tail, h1.tail]
    cases e2 with
    | cons p e => simp
    | nil =>
      cases e1 with
      | nil => rfl
      | cons p e => simp [last_eq, h2.ptrs]

/-- The rest of the chain is not in the buffer. -/
theorem TookIn.nodup {sb1 : SockBuf} {r1 : List Mbuf} {e : List Ptr}
    (h : TookIn sb sb1 R r r1 [m] e) (hrecs : sb.recs = R ++ [r])
    (hnd : (Sockbuf.ptrs sb.stored ++ Sockbuf.ptrs (m :: rest)).Nodup) :
    (Sockbuf.ptrs sb1.stored ++ Sockbuf.ptrs rest).Nodup := by
  rw [stored_eq hrecs, ptrs_append] at hnd
  rw [stored_eq h.recs, ptrs_append, h.ptrs, ← append_assoc, append_assoc]
  refine hnd.sublist (Sublist.append_left ?_ _)
  exact h.sub.append_right _

/-- An empty mbuf is left out. -/
theorem tookIn_skip (hrecs : sb.recs = R ++ [r]) (hm : m.data = []) : TookIn sb sb R r r [m] [] :=
  ⟨hrecs, by simp, nil_sublist _, by simp [hm], rfl, rfl, rfl⟩

/-- An mbuf is copied into the last one. -/
theorem tookIn_coalesce (hrecs : sb.recs = R ++ [l ++ [a]]) (hnd : (ptrs sb.stored).Nodup)
    (htype : a.type = m.type) :
    TookIn sb { sb.modify a.ptr (Mbuf.append · m) with cnt := sb.cnt + dataWeight m } R (l ++ [a])
      (l ++ [a.append m]) [m] [] := by
  refine ⟨modify_last hrecs hnd _, by simp [Mbuf.append], nil_sublist _, by simp [Mbuf.append],
    ?_, rfl, rfl⟩
  simp only [total_append, total_cons, weight_append htype]
  abel

/-- An mbuf is linked behind the last one. -/
theorem tookIn_link (hrecs : sb.recs = R ++ [l ++ [a]]) (hnd : (ptrs sb.stored).Nodup) :
    TookIn sb (linkMbuf sb (some a.ptr) m) R (l ++ [a]) (l ++ [a] ++ [m.setEor false]) [m]
      [m.ptr] := by
  refine ⟨linkMbuf_last hrecs hnd, by simp, .refl _, by simp, ?_, rfl, ?_⟩
  · have hw : weight (m.setEor false) = weight m := rfl
    simp only [linkMbuf, sballoc, total_append, total_cons, hw]
    abel
  · simp [linkMbuf, last]

/-- **`sbcompress`** behind the last mbuf of a buffer. -/
theorem sbcompress_some (wr : Ptr → Bool) (eor : Bool) (hrecs : sb.recs = R ++ [l ++ [a]])
    (hnd : (ptrs sb.stored ++ ptrs chain).Nodup) (hlr : ∀ p ∈ sb.lastrecord, p ∉ ptrs chain) :
    ∃ sb' r' extra, sbcompress wr sb (some a.ptr) eor chain = some sb' ∧
      TookIn sb sb' R (l ++ [a]) r' chain extra ∧
      (extra = [] → Absorbed wr sb.noCoalesce a chain) := by
  induction chain generalizing sb l a eor with
  | nil =>
    rw [ptrs_nil, append_nil] at hnd
    cases eor with
    | false =>
      exact ⟨sb, l ++ [a], [], rfl, ⟨hrecs, by simp, .slnil, by simp, rfl, rfl, rfl⟩,
        fun _ => ⟨by simp, by simp⟩⟩
    | true =>
      refine ⟨sb.modify a.ptr (Mbuf.setEor true), l ++ [a.setEor true], [], rfl,
        ⟨modify_last hrecs hnd _, by simp, .slnil, by simp, ?_, rfl, rfl⟩,
        fun _ => ⟨by simp, by simp⟩⟩
      rw [total_append, total_append]
      rfl
  | cons m rest ih =>
    have hnd0 := (nodup_append.mp hnd).1
    have hlr' : ∀ p ∈ sb.lastrecord, p ∉ ptrs rest := fun p hp hmem =>
      hlr p hp (mem_cons_of_mem _ hmem)
    rw [sbcompress]
    simp only [find_last hrecs hnd0, map_some, bind_eq_bind, bind_some]
    split
    next hskip =>
      have hne : sb.lastrecord ≠ some m.ptr := fun h => hlr m.ptr h (by simp)
      simp only [if_neg hne]
      have hnd' : (ptrs sb.stored ++ ptrs rest).Nodup :=
        hnd.sublist ((sublist_cons_self _ _).append_left _)
      obtain ⟨sb', r', extra, hrun, htook, habs⟩ := ih (eor || m.eor) hrecs hnd' hlr'
      refine ⟨sb', r', extra, hrun, (tookIn_skip hrecs hskip.1).trans htook, fun he => ?_⟩
      obtain ⟨hall, hroom⟩ := habs he
      refine ⟨forall_mem_cons.mpr ⟨.inl hskip.1, hall⟩, ?_⟩
      simpa [Mbuf.len, hskip.1] using hroom
    next =>
      split
      next hco =>
        obtain ⟨a', ha', hco⟩ := hco
        cases ha'
        have htook1 := tookIn_coalesce hrecs hnd0 hco.2.2.2.2.2
        obtain ⟨sb', r', extra, hrun, htook, habs⟩ :=
          ih (eor || m.eor) htook1.recs (htook1.nodup hrecs hnd) hlr'
        refine ⟨sb', r', extra, hrun, htook1.trans htook, fun he => ?_⟩
        obtain ⟨hall, hroom⟩ := habs he
        obtain ⟨-, hwr, hno, hshort, hfits, htype⟩ := hco
        refine ⟨forall_mem_cons.mpr ⟨.inr ⟨hwr, hno, hshort, htype⟩, hall⟩, ?_⟩
        simp only [Mbuf.append, map_cons, sum_cons] at hroom ⊢
        omega
      next =>
        have htook1 := tookIn_link (m := m) hrecs hnd0
        obtain ⟨sb', r', extra, hrun, htook, -⟩ :=
          ih (eor || m.eor) htook1.recs (htook1.nodup hrecs hnd) hlr'
        exact ⟨sb', r', m.ptr :: extra, hrun, htook1.trans htook, fun he => by cases he⟩

/-- A chain without bytes and without a mark, behind mbufs without a mark. -/
def Blank (eor : Bool) (chain : List Mbuf) : Prop :=
  bytes chain = [] ∧ eor = false ∧ ∀ m ∈ chain, m.eor = false

/-- **`sbcompress`** into an empty buffer: nothing is left of the chain, or it is the only record.
-/
theorem sbcompress_none (wr : Ptr → Bool) (eor : Bool) (hrecs : sb.recs = [])
    (hnd : (ptrs chain).Nodup) (heor : eor = true → chain ≠ [])
    (hlr : sb.lastrecord = none ∨ sb.lastrecord = first chain) :
    ∃ sb', sbcompress wr sb none eor chain = some sb' ∧
      ((Blank eor chain ∧ sb'.recs = [] ∧ sb'.cnt = sb.cnt ∧ sb'.mbtail = sb.mbtail ∧
          sb'.lastrecord = none) ∨
        ¬Blank eor chain ∧ ∃ r', r' ≠ [] ∧ sb'.recs = [r'] ∧ bytes r' = bytes chain ∧
          (ptrs r').Sublist (ptrs chain) ∧ sb'.cnt - total r' = sb.cnt ∧ sb'.mbtail = last r' ∧
          (sb.lastrecord = first chain → sb'.lastrecord = first r')) := by
  induction chain generalizing sb eor with
  | nil =>
    obtain rfl : eor = false := Bool.eq_false_iff.mpr fun h => heor h rfl
    refine ⟨sb, rfl, .inl ⟨⟨rfl, rfl, by simp⟩, hrecs, rfl, rfl, ?_⟩⟩
    simpa [first] using hlr
  | cons m rest ih =>
    rw [ptrs_cons, nodup_cons] at hnd
    rw [sbcompress]
    simp only [bind_eq_bind, bind_some, not_mem_none, false_and, exists_false]
    split
    next hskip =>
      obtain ⟨hdata, hmark⟩ := hskip
      have hblank : Blank eor (m :: rest) ↔ Blank (eor || m.eor) rest := by
        simp [Blank, hdata, and_assoc]
      have heor' : (eor || m.eor) = true → rest ≠ [] := by
        rintro h rfl
        simp [h] at hmark
      have hlr' : (if sb.lastrecord = some m.ptr then first rest else sb.lastrecord) = none ∨
          (if sb.lastrecord = some m.ptr then first rest else sb.lastrecord) = first rest := by
        split
        · exact .inr rfl
        next hne => exact .inl (hlr.resolve_right hne)
      obtain ⟨sb', hrun, hcase⟩ := ih (eor || m.eor) (show ({ sb with
        lastrecord := if sb.lastrecord = some m.ptr then first rest else sb.lastrecord } :
          SockBuf).recs = [] from hrecs) hnd.2 heor' hlr'
      rw [hblank]
      refine ⟨sb', hrun, hcase.imp_right ?_⟩
      rintro ⟨hno, r', hne, hrecs', hbytes, hsub, hcnt, htail, hlast⟩
      exact ⟨hno, r', hne, hrecs', by simp [hdata, hbytes], hsub.trans (sublist_cons_self _ _),
        hcnt, htail, fun h => hlast (if_pos h)⟩
    next hkeep =>
      -- the first mbuf of the buffer
      have hlink : (linkMbuf sb none m).recs = [] ++ [[] ++ [m.setEor false]] := rfl
      have hstored : ptrs (linkMbuf sb none m).stored = [m.ptr] := rfl
      have hlr' : ∀ p ∈ (linkMbuf sb none m).lastrecord, p ∉ ptrs rest := by
        intro p hp
        obtain h | h := hlr
        · cases h ▸ hp
        · have hp : sb.lastrecord = some p := hp
          rw [h] at hp
          exact some.inj hp ▸ hnd.1
      obtain ⟨sb', r', extra, hrun, htook, -⟩ := sbcompress_some wr (eor || m.eor)
        hlink (by rw [hstored]; exact nodup_cons.mpr hnd) hlr'
      have hptrs : ptrs r' = m.ptr :: extra := htook.ptrs
      refine ⟨sb', hrun, .inr ⟨fun hblank => ?_, r', ?_, htook.recs, by simp [htook.bytes], ?_, ?_,
        ?_, fun h => ?_⟩⟩
      · obtain ⟨hdata, rfl, hno⟩ := hblank
        exact hkeep ⟨(append_eq_nil_iff.mp hdata).1, .inl (hno m mem_cons_self)⟩
      · rintro rfl
        cases hptrs
      · rw [hptrs]
        exact htook.sub.cons_cons _
      · have hw : total ([] ++ [m.setEor false]) = weight m := add_zero _
        rw [htook.cnt, hw]
        exact add_sub_cancel_right _ _
      · rw [htook.tail]
        split
        next he => simp [last_eq, hptrs, he, linkMbuf]
        next => rfl
      · rw [htook.lastrecord, first_eq, hptrs]
        exact h

/-! ## The invariant -/

/-- A buffer whose records have mbufs, no two of them at one address, whose counters are the totals,
and which knows its last record. -/
structure SockBuf.Ok (sb : SockBuf) : Prop where
  nonempty : ∀ r ∈ sb.recs, r ≠ []
  nodup : (ptrs sb.stored).Nodup
  cnt : sb.cnt = total sb.stored
  lastrecord : sb.lastrecord = sb.recs.getLast?.bind first

/-- The buffer knows its last mbuf. -/
def SockBuf.TailOk (sb : SockBuf) : Prop := sb.mbtail = sb.recs.getLast?.bind last

/-- The bytes of a buffer, record by record. -/
def SockBuf.contents (sb : SockBuf) : List (List Octet) := sb.recs.map bytes

theorem ne_nil_of_ptrs {e : List Ptr} (h : ptrs r' = ptrs r ++ e) (hr : r ≠ []) : r' ≠ [] := by
  rintro rfl
  exact hr (map_eq_nil_iff.mp (append_eq_nil_iff.mp h.symm).1)

theorem TookIn.ok {e : List Ptr} (h : TookIn sb sb' R r r' chain e) (hok : sb.Ok)
    (hrecs : sb.recs = R ++ [r]) (hnd : (Sockbuf.ptrs sb.stored ++ Sockbuf.ptrs chain).Nodup) :
    sb'.Ok ∧ sb'.contents = R.map Sockbuf.bytes ++ [Sockbuf.bytes r ++ Sockbuf.bytes chain] ∧
      (sb.TailOk → sb'.TailOk) ∧ (e ≠ [] → sb'.TailOk) := by
  obtain ⟨hR, hr⟩ := forall_mem_append.mp (hrecs ▸ hok.nonempty)
  rw [forall_mem_singleton] at hr
  have hr' := ne_nil_of_ptrs h.ptrs hr
  have hlast : sb'.recs.getLast? = some r' := by simp [h.recs]
  refine ⟨⟨?_, ?_, ?_, ?_⟩, ?_, fun ht => ?_, fun he => ?_⟩
  · rw [h.recs]
    exact forall_mem_append.mpr ⟨hR, forall_mem_singleton.mpr hr'⟩
  · rw [stored_eq h.recs, ptrs_append, h.ptrs, ← append_assoc]
    rw [stored_eq hrecs, ptrs_append] at hnd
    exact hnd.sublist (h.sub.append_left _)
  · have hcnt := hok.cnt
    rw [stored_eq hrecs, total_append, ← sub_eq_iff_eq_add, ← h.cnt, sub_eq_iff_eq_add] at hcnt
    rw [stored_eq h.recs, total_append]
    exact hcnt
  · rw [hlast, h.lastrecord, hok.lastrecord, hrecs, getLast?_concat, bind_some,
      bind_some, first_eq, first_eq, h.ptrs]
    obtain ⟨a, l, rfl⟩ := exists_cons_of_ne_nil hr
    rfl
  · rw [contents, h.recs, map_append, map_singleton, h.bytes]
  · rw [TailOk, hlast, h.tail, bind_some]
    split
    next he =>
      rw [ht, hrecs, getLast?_concat, bind_some, last_eq, last_eq, h.ptrs, he, append_nil]
    next => rfl
  · rw [TailOk, hlast, h.tail, bind_some, if_neg he]

/-- A record is added. -/
theorem SockBuf.Ok.concat (h : sb.Ok) (hr : r ≠ []) (hnd : (ptrs sb.stored ++ ptrs r).Nodup)
    (hrecs : sb'.recs = sb.recs ++ [r]) (hcnt : sb'.cnt = sb.cnt + total r)
    (hlast : sb'.lastrecord = first r) : sb'.Ok ∧ sb'.contents = sb.contents ++ [bytes r] := by
  have hstored : sb'.stored = sb.stored ++ r := stored_eq hrecs
  refine ⟨⟨?_, ?_, ?_, ?_⟩, ?_⟩
  · rw [hrecs]
    exact forall_mem_append.mpr ⟨h.nonempty, forall_mem_singleton.mpr hr⟩
  · rw [hstored, ptrs_append]
    exact hnd
  · rw [hcnt, h.cnt, hstored, total_append]
  · rw [hlast, hrecs, getLast?_concat, bind_some]
  · rw [contents, hrecs, map_append]
    rfl

/-- The last record is where `sb_lastrecord` points to, and no other begins there. -/
theorem SockBuf.Ok.setNextpkt_last (h : sb.Ok) (hrecs : sb.recs = R ++ [r]) :
    ∃ p, first r = some p ∧ ∀ S r', setNextpkt p r' (R ++ r :: S) = R ++ [r, r'] := by
  obtain ⟨a, l, hr⟩ := exists_cons_of_ne_nil (h.nonempty r (by simp [hrecs]))
  have hfirst : first r = some a.ptr := by rw [hr]; rfl
  refine ⟨a.ptr, hfirst, fun S r' => setNextpkt_at (fun s hs hsa => ?_) hfirst⟩
  have hnd := h.nodup
  rw [stored_eq hrecs, ptrs_append, nodup_append] at hnd
  obtain ⟨b, hb, hba⟩ := Option.map_eq_some_iff.mp hsa
  refine hnd.2.2 a.ptr ?_ a.ptr (by simp [hr]) rfl
  exact mem_ptrs.mpr ⟨b, mem_flatten_of_mem hs (mem_of_head? hb), hba⟩

/-- The last record does not begin in a chain that is not stored. -/
theorem SockBuf.Ok.lastrecord_notMem (h : sb.Ok) (hnd : (ptrs sb.stored ++ ptrs chain).Nodup) :
    ∀ p ∈ sb.lastrecord, p ∉ ptrs chain := by
  intro p hp hmem
  rw [h.lastrecord] at hp
  obtain ⟨r, hr, hfirst⟩ := Option.bind_eq_some_iff.mp hp
  obtain ⟨m, hm, rfl⟩ := Option.map_eq_some_iff.mp hfirst
  have hstored : m ∈ sb.stored := mem_flatten_of_mem (mem_of_getLast? hr) (mem_of_head? hm)
  exact (nodup_append.mp hnd).2.2 _ (mem_ptrs.mpr ⟨m, hstored, rfl⟩) _ hmem rfl

/-- **`SBLINKRECORD`** -/
theorem sblinkrecord_recs (h : sb.Ok) (hrecs : sb'.recs = sb.recs)
    (hlr : sb'.lastrecord = sb.lastrecord) : (sblinkrecord sb' r').recs = sb.recs ++ [r'] := by
  rw [h.lastrecord] at hlr
  unfold sblinkrecord
  obtain hnil | ⟨R, r, hr⟩ := eq_nil_or_concat' sb.recs
  · rw [hnil] at hlr ⊢
    rw [show sb'.lastrecord = none from hlr]
    rfl
  · obtain ⟨p, hp, hset⟩ := h.setNextpkt_last hr
    rw [hr, getLast?_concat, bind_some, hp] at hlr
    simp only [hlr, hrecs, hr, hset [], append_assoc, singleton_append]

/-! ## Appending -/

/-- What the queue of records is after a chain was appended; `ended` tells whether the last record
is marked as complete.  In an empty queue, a chain without bytes and without a mark leaves no
record. -/
def fifoAppend (ended : Prop) [Decidable ended] (chain : List Mbuf) (q : List (List Octet)) :
    List (List Octet) :=
  if chain = [] ∨ q = [] ∧ bytes chain = [] ∧ ∀ m ∈ chain, m.eor = false then q
  else push ended (bytes chain) q

/-- A record that all fits into its first mbuf. -/
def FitsFirst (wr : Ptr → Bool) (noCoalesce : Bool) : List Mbuf → Prop
  | [] => False
  | m₀ :: rest => Absorbed wr noCoalesce m₀ rest

theorem Absorbed.of_modifyHead {wr : Ptr → Bool} {b : Bool} {f : Mbuf → Mbuf}
    (hdata : ∀ m, (f m).data = m.data) (htype : ∀ m, (f m).type = m.type)
    (h : Absorbed wr b a (rest.modifyHead f)) : Absorbed wr b a rest := by
  cases rest with
  | nil => exact h
  | cons m rest =>
    obtain ⟨hall, hroom⟩ := h
    simp only [modifyHead_cons, forall_mem_cons, Mbuf.len, hdata, htype, map_cons] at hall hroom
    exact ⟨forall_mem_cons.mpr hall, hroom⟩

/-- A record is begun with the mbuf `a`, and the rest of the chain goes behind it. -/
theorem sbcompress_record {s : SockBuf} (wr : Ptr → Bool) (chain : List Mbuf) (h : sb.Ok)
    (hrecs : s.recs = sb.recs ++ [[a]]) (hcnt : s.cnt = sb.cnt + total [a])
    (hlast : s.lastrecord = first [a]) (hnd : (ptrs sb.stored ++ ptrs (a :: chain)).Nodup) :
    ∃ sb', sbcompress wr s (some a.ptr) false chain = some sb' ∧ sb'.Ok ∧
      sb'.contents = sb.contents ++ [bytes (a :: chain)] ∧
      (¬ Absorbed wr s.noCoalesce a chain → sb'.TailOk) := by
  have hnd0 : (ptrs sb.stored ++ ptrs [a]).Nodup :=
    hnd.sublist ((singleton_sublist.mpr mem_cons_self).append_left _)
  obtain ⟨hok, -⟩ := h.concat (cons_ne_nil _ _) hnd0 hrecs hcnt hlast
  have hnd1 : (ptrs s.stored ++ ptrs chain).Nodup := by
    rw [stored_eq hrecs, ptrs_append, append_assoc]
    exact hnd
  have hfresh : ∀ p ∈ s.lastrecord, p ∉ ptrs chain := by
    rw [hlast]
    rintro p ⟨⟩ hmem
    exact (nodup_cons.mp (nodup_append.mp hnd).2.1).1 hmem
  obtain ⟨sb', r', extra, hrun, htook, habs⟩ := sbcompress_some wr false (l := []) hrecs hnd1 hfresh
  obtain ⟨hok', hcont, -, htail⟩ := htook.ok hok hrecs hnd1
  refine ⟨sb', hrun, hok', ?_, fun hno => htail fun he => hno (habs he)⟩
  rw [hcont]
  simp [contents]

/-- **`sbappendrecord_locked`**: the chain is a record of its own.  The last mbuf is only known if
the record does not fit into its first mbuf. -/
theorem sbappendrecord_spec (wr : Ptr → Bool) (h : sb.Ok) (hne : chain ≠ [])
    (hnd : (ptrs sb.stored ++ ptrs chain).Nodup) :
    ∃ sb', sbappendrecord wr sb chain = some sb' ∧ sb'.Ok ∧
      sb'.contents = sb.contents ++ [bytes chain] ∧
      (¬ FitsFirst wr sb.noCoalesce chain → sb'.TailOk) := by
  obtain ⟨m0, rest, rfl⟩ := exists_cons_of_ne_nil hne
  have hnd0 : (ptrs sb.stored ++ ptrs [m0]).Nodup :=
    hnd.sublist ((singleton_sublist.mpr mem_cons_self).append_left _)
  unfold sbappendrecord
  dsimp only
  generalize hs : ({ sblinkrecord (sballoc sb m0) [m0] with recs := _ } : SockBuf) = s
  have hs1 : s.recs = sb.recs ++ [[m0]] := by
    -- both pointers to the last record lead to the same place
    have hlink : (sblinkrecord (sballoc sb m0) [m0]).recs = sb.recs ++ [[m0]] :=
      sblinkrecord_recs h rfl rfl
    rw [← hs]
    dsimp only
    rw [hlink]
    obtain hnil | ⟨R, r, hr⟩ := eq_nil_or_concat' sb.recs
    · rw [hnil]
      rfl
    · obtain ⟨p, hp, hset⟩ := h.setNextpkt_last hr
      rw [hr, getLast?_concat, bind_some, hp]
      simp [hset]
  have hs2 : s.cnt = sb.cnt + total [m0] := by
    rw [← hs]
    simp [sblinkrecord, sballoc]
  have hs3 : s.lastrecord = first [m0] := by rw [← hs]; rfl
  have hs4 : s.noCoalesce = sb.noCoalesce := by rw [← hs]; rfl
  split
  next hmoves =>
    have hptrs : ptrs (rest.modifyHead (Mbuf.setEor true)) = ptrs rest := by
      cases rest <;> rfl
    have hbytes : bytes (rest.modifyHead (Mbuf.setEor true)) = bytes rest := by
      cases rest <;> rfl
    have hstored : (ptrs s.stored).Nodup := by
      rw [stored_eq hs1, ptrs_append]
      exact hnd0
    obtain ⟨sb', hrun, hok, hcont, htail⟩ := sbcompress_record wr
      (rest.modifyHead (Mbuf.setEor true)) h
      (modify_last (l := []) hs1 hstored (Mbuf.setEor false)) hs2 hs3
      (by rw [ptrs_cons, hptrs]; exact hnd)
    refine ⟨sb', hrun, hok, by rw [hcont, bytes_cons, bytes_cons, hbytes]; rfl, fun hfits =>
      htail fun habs => hfits ?_⟩
    rw [← hs4]
    exact Absorbed.of_modifyHead (f := Mbuf.setEor true) (fun _ => rfl) (fun _ => rfl) habs
  next =>
    obtain ⟨sb', hrun, hok, hcont, htail⟩ := sbcompress_record wr rest h hs1 hs2 hs3 hnd
    exact ⟨sb', hrun, hok, hcont, fun hfits => htail (hs4 ▸ hfits)⟩

theorem fifoAppend_concat {ended : Prop} [Decidable ended] {q : List (List Octet)}
    {x : List Octet} (hne : chain ≠ []) :
    fifoAppend ended chain (q ++ [x]) =
      if ended then q ++ [x] ++ [bytes chain] else q ++ [x ++ bytes chain] := by
  rw [fifoAppend, if_neg (by simp [hne])]
  by_cases h : ended
  · rw [if_pos h, decide_eq_true h, push_fresh]
  · rw [if_neg h, decide_eq_false h, push_concat]

/-- A chain for an empty buffer: afterwards `sb_lastrecord` need only be set to `sb_mb`. -/
theorem sbcompress_empty {lr : Option Ptr} (wr : Ptr → Bool) (ended : Prop) [Decidable ended]
    (h : sb.Ok) (hrecs : sb.recs = []) (hnd : (ptrs chain).Nodup)
    (hlr : lr = none ∨ lr = first chain) :
    ∃ sb', sbcompress wr { sb with lastrecord := lr } none false chain = some sb' ∧
      ({ sb' with lastrecord := sb'.recs.head?.bind first } : SockBuf).Ok ∧
      (lr = first chain → sb'.lastrecord = sb'.recs.head?.bind first) ∧
      (sb.TailOk → sb'.TailOk) ∧ sb'.contents = fifoAppend ended chain sb.contents := by
  have hcnt : sb.cnt = 0 := by simpa [stored, hrecs] using h.cnt
  have hcont : sb.contents = [] := by rw [contents, hrecs, map_nil]
  obtain ⟨sb', hrun, hcase⟩ := sbcompress_none wr false
    (show ({ sb with lastrecord := lr } : SockBuf).recs = [] from hrecs) hnd nofun hlr
  refine ⟨sb', hrun, ?_⟩
  obtain ⟨⟨hbytes, -, hno⟩, hrecs', hcnt', htail, hlast⟩ |
    ⟨hblank, r', hne, hrecs', hbytes, hsub, hcnt', htail, hlast⟩ := hcase
  · refine ⟨⟨by simp [hrecs'], by simp [stored, hrecs'], ?_, by simp [hrecs']⟩, fun _ => ?_,
      fun ht => ?_, ?_⟩
    · simp [stored, hrecs', hcnt', hcnt]
    · rw [hlast, hrecs']
      rfl
    · rw [TailOk, hrecs']
      rw [TailOk, hrecs] at ht
      exact htail.trans ht
    · rw [contents, hrecs', hcont, fifoAppend, if_pos (.inr ⟨rfl, hbytes, hno⟩)]
      rfl
  · have hchain : ¬ (chain = [] ∨ ([] : List (List Octet)) = [] ∧ bytes chain = [] ∧
        ∀ m ∈ chain, m.eor = false) := by
      rintro (rfl | ⟨-, hb, hno⟩)
      · exact hblank ⟨rfl, rfl, by simp⟩
      · exact hblank ⟨hb, rfl, hno⟩
    refine ⟨⟨by simp [hrecs', hne], ?_, ?_, by simp [hrecs']⟩, fun hl => ?_, fun _ => ?_, ?_⟩
    · simpa [stored, hrecs'] using hnd.sublist hsub
    · simpa [stored, hrecs', hcnt, sub_eq_zero] using hcnt'
    · rw [hlast hl, hrecs']
      rfl
    · rw [TailOk, hrecs', htail]
      rfl
    · rw [contents, hrecs', hcont, fifoAppend, if_neg hchain, map_singleton, hbytes]
      rfl

/-- **`sbappend_locked`** -/
theorem sbappend_spec (wr : Ptr → Bool) (h : sb.Ok) (hnd : (ptrs sb.stored ++ ptrs chain).Nodup) :
    ∃ sb', sbappend wr sb chain = some sb' ∧ sb'.Ok ∧
      sb'.contents = fifoAppend sb.Ended chain sb.contents ∧
      (sb.TailOk → (sb.Ended → ¬ FitsFirst wr sb.noCoalesce chain) → sb'.TailOk) := by
  unfold sbappend
  split
  next hnil => exact ⟨sb, rfl, h, by rw [fifoAppend, if_pos (.inl hnil)], fun ht _ => ht⟩
  next hne =>
    obtain hrecs | ⟨R, r, hrecs⟩ := eq_nil_or_concat' sb.recs
    · have hlr : sb.lastrecord = none := by rw [h.lastrecord, hrecs]; rfl
      obtain ⟨sb', hrun, hok, hlast, htail, hcont⟩ := sbcompress_empty wr sb.Ended
        h hrecs (nodup_append.mp hnd).2.1 (.inr rfl)
      rw [← hlast rfl] at hok
      have hnone : sb.recs.getLast? = none := by rw [hrecs]; rfl
      simp only [hnone, hlr]
      exact ⟨sb', hrun, hok, hcont, fun ht _ => htail ht⟩
    · have hlast : sb.recs.getLast? = some r := by rw [hrecs, getLast?_concat]
      have hcont0 : sb.contents = R.map bytes ++ [bytes r] := by
        rw [contents, hrecs, map_append]
        rfl
      rw [hlast]
      dsimp only
      split
      next hended =>
        obtain ⟨sb', hrun, hok, hcont, htail⟩ := sbappendrecord_spec wr h hne hnd
        refine ⟨sb', hrun, hok, ?_, fun _ hno => htail (hno hended)⟩
        rw [hcont, hcont0, fifoAppend_concat hne, if_pos hended]
      next hended =>
        obtain ⟨l, a, rfl⟩ := (eq_nil_or_concat' r).resolve_left (h.nonempty r (by simp [hrecs]))
        obtain ⟨sb', r', extra, hrun, htook, -⟩ := sbcompress_some wr false hrecs hnd
          (h.lastrecord_notMem hnd)
        obtain ⟨hok, hcont, htail, -⟩ := htook.ok h hrecs hnd
        have hn : last (l ++ [a]) = some a.ptr := by simp [last]
        rw [hn]
        refine ⟨sb', hrun, hok, ?_, fun ht _ => htail ht⟩
        rw [hcont, hcont0, fifoAppend_concat hne, if_neg hended]

/-- **`sbappendstream_locked`** on a buffer with one record at most. -/
theorem sbappendstream_spec (wr : Ptr → Bool) (h : sb.Ok) (ht : sb.TailOk)
    (hone : sb.recs.length ≤ 1) (hne : chain ≠ []) (hnd : (ptrs sb.stored ++ ptrs chain).Nodup) :
    ∃ sb', sbappendstream wr sb chain = some sb' ∧ sb'.Ok ∧ sb'.TailOk ∧
      sb'.contents = fifoAppend False chain sb.contents := by
  unfold sbappendstream
  obtain hrecs | ⟨r, hrecs⟩ : sb.recs = [] ∨ ∃ r, sb.recs = [r] := by
    rw [← length_eq_one_iff, ← length_eq_zero_iff]
    omega
  · have hlr : sb.lastrecord = none := by rw [h.lastrecord, hrecs]; rfl
    have htail0 : sb.mbtail = none := by rw [ht, hrecs]; rfl
    obtain ⟨sb', hrun, hok, -, htail, hcont⟩ := sbcompress_empty wr False h hrecs
      (nodup_append.mp hnd).2.1 (.inl hlr)
    rw [htail0, hrun, bind_eq_bind]
    exact ⟨_, rfl, hok, htail ht, hcont⟩
  · obtain ⟨l, a, rfl⟩ := (eq_nil_or_concat' r).resolve_left (h.nonempty r (by simp [hrecs]))
    have htail0 : sb.mbtail = some a.ptr := by
      rw [ht, hrecs]
      simp [last]
    have hrecs : sb.recs = [] ++ [l ++ [a]] := hrecs
    obtain ⟨sb', r', extra, hrun, htook, -⟩ := sbcompress_some wr false hrecs hnd
      (h.lastrecord_notMem hnd)
    obtain ⟨hok, hcont, htail, -⟩ := htook.ok h hrecs hnd
    have hlast : sb'.recs.head?.bind first = sb'.lastrecord := by
      rw [hok.lastrecord, htook.recs]
      rfl
    rw [htail0, hrun, bind_eq_bind, bind_some, hlast]
    refine ⟨_, rfl, hok, htail ht, ?_⟩
    have hcont0 : sb.contents = [] ++ [bytes (l ++ [a])] := by
      rw [contents, hrecs]
      rfl
    rw [hcont0, fifoAppend_concat hne]
    exact hcont

theorem foldl_sballoc : chain.foldl sballoc sb = { sb with cnt := sb.cnt + total chain } := by
  induction chain generalizing sb with
  | nil => simp
  | cons m rest ih => rw [foldl_cons, ih, total_cons, ← add_assoc]; rfl

/-- **A whole chain** becomes a record, in `sbappendaddr_locked` and `sbappendcontrol_locked`. -/
theorem linkChain_spec (chain : List Mbuf) (h : sb.Ok) (hne : chain ≠ [])
    (hnd : (ptrs sb.stored ++ ptrs chain).Nodup) :
    (linkChain sb chain).Ok ∧ (linkChain sb chain).TailOk ∧
      (linkChain sb chain).contents = sb.contents ++ [bytes chain] := by
  have hrecs : (linkChain sb chain).recs = sb.recs ++ [chain] := by
    rw [linkChain, foldl_sballoc]
    exact sblinkrecord_recs h rfl rfl
  have hcnt : (linkChain sb chain).cnt = sb.cnt + total chain := by
    rw [linkChain, foldl_sballoc]
    rfl
  obtain ⟨hok, hcont⟩ := h.concat hne hnd hrecs hcnt rfl
  refine ⟨hok, ?_, hcont⟩
  rw [TailOk, hrecs, getLast?_concat]
  rfl

end FreeBSDSys.Sockbuf
