import FreeBSDSys.Lib.Keyed
import FreeBSDSys.Vm.SwapDevice

/-!
# The accounts of the swap pager

The system keeps, beside the pager, the set `out` of the page numbers that were handed out and not
freed again, and counts the devices that were added.

* `Pager.Accounted`: what holds in every state reached.  The free pages of a device that is not
  closing are those behind the label that are not handed out, and `sw_used` counts the others.
  `swap_pager_avail` counts the free pages, but also, for each device ever added, the pages of
  the label: `swaponsomething` adds `nblks` although it frees two pages less.
* `swap_pager_accounts`: so `sw_used` is right and `swap_pager_avail` is not the sum of the
  `bl_free`, from the first device on.
* `swapoff_fills`: the loop of `swapoff_one` runs up to `sw_end`, a number of the common address
  space, where it should stop at the end of the bitmap.  It leaves no free page, and calls
  `blist_fill` beyond the bitmap unless the device has a low `sw_first`.
-/

namespace FreeBSDSys.Swap

open Blst Finset Swdevt Nat

variable {p p' : Pager} {d d' e : Swdevt} {L R l : List Swdevt} {out out' : Finset ℕ}
  {reserved b id n blk : ℕ} {s : System}

/-! ## The accounts -/

/-- The page number belongs to the device. -/
def Swdevt.On (d : Swdevt) (b : ℕ) : Prop := d.swFirst ≤ b ∧ b < d.swEnd

instance (d : Swdevt) (b : ℕ) : Decidable (d.On b) :=
  inferInstanceAs (Decidable (d.swFirst ≤ b ∧ b < d.swEnd))

/-- The free pages of a device. -/
def Swdevt.freePages (d : Swdevt) (out : Finset ℕ) : Finset ℕ :=
  if d.swClosing then ∅ else (Ico 2 d.swNblks).filter fun b => d.swFirst + b ∉ out

/-- The accounts of a device. -/
structure Swdevt.Accounted (d : Swdevt) (out : Finset ℕ) : Prop where
  span : d.swEnd = d.swFirst + d.swNblks
  bitmap : Holds d.swBlist d.swNblks (d.freePages out)
  used : d.swUsed = (out.filter d.On).card

/-- There is an uncovered page between the devices. -/
def Apart (d e : Swdevt) : Prop := d.swEnd < e.swFirst ∨ e.swEnd < d.swFirst

/-- The accounts of the pager. -/
structure Pager.Accounted (p : Pager) (out : Finset ℕ) (reserved : ℕ) : Prop where
  devs : ∀ d ∈ p.swtailq, d.Accounted out
  keys : (p.swtailq.map swId).Nodup
  apart : p.swtailq.Pairwise Apart
  covered : ∀ b ∈ out, ∃ d ∈ p.swtailq, d.swFirst + 2 ≤ b ∧ b < d.swEnd
  count : p.nswapdev = p.swtailq.length
  head : ∀ id ∈ p.swdevhd, id ∈ p.swtailq.map swId
  avail : p.swapPagerAvail = (p.swtailq.map fun d => (d.freePages out).card).sum + reserved
  few : p.swtailq.length ≤ reserved

theorem Apart.symm (h : Apart d e) : Apart e d := Or.symm h

instance : Std.Symm Apart := ⟨fun _ _ => Apart.symm⟩

theorem Apart.not_on (h : Apart d e) (hb : e.On b) : ¬ d.On b := by
  rintro ⟨h1, h2⟩
  obtain ⟨h3, h4⟩ := hb
  rcases h with h | h <;> omega

theorem Swdevt.mem_freePages (hclosing : ¬ d.swClosing = true) :
    b ∈ d.freePages out ↔ 2 ≤ b ∧ b < d.swNblks ∧ d.swFirst + b ∉ out := by
  rw [freePages, if_neg hclosing, mem_filter, mem_Ico, and_assoc]

/-- The accounts of a device depend on its own pages only. -/
theorem Swdevt.Accounted.congr (hd : d.Accounted out) (hout : ∀ b, d.On b → (b ∈ out' ↔ b ∈ out)) :
    d.freePages out' = d.freePages out ∧ d.Accounted out' := by
  have hfree : d.freePages out' = d.freePages out := by
    rw [freePages, freePages]
    split
    · rfl
    · refine filter_congr fun b hb => not_congr (hout _ ?_)
      have := hd.span
      rw [mem_Ico] at hb
      exact ⟨by omega, by omega⟩
  have hused : out'.filter d.On = out.filter d.On := by
    ext b
    rw [mem_filter, mem_filter]
    exact and_congr_left fun hb => hout b hb
  exact ⟨hfree, hd.span, hfree ▸ hd.bitmap, hused ▸ hd.used⟩

/-- The new value of a device is at the same place. -/
structure Swdevt.SamePlace (d d' : Swdevt) : Prop where
  id : d'.swId = d.swId
  first : d'.swFirst = d.swFirst
  stop : d'.swEnd = d.swEnd

theorem Swdevt.SamePlace.apart (hd : d.SamePlace d') : Apart d' e ↔ Apart d e := by
  rw [Apart, Apart, hd.first, hd.stop]

/-- The other devices of the list. -/
theorem Pager.Accounted.apart_of_split (hp : p.Accounted out reserved)
    (hl : p.swtailq = L ++ d :: R) : (∀ e ∈ L ++ R, Apart d e) ∧ (L ++ R).Pairwise Apart := by
  rw [← List.pairwise_cons, ← List.pairwise_middle Apart.symm, ← hl]
  exact hp.apart

/-- A page belongs to one device. -/
theorem Pager.Accounted.on_inj (hp : p.Accounted out reserved) (hd : d ∈ p.swtailq)
    (he : e ∈ p.swtailq) (hon : d.On b) (hon' : e.On b) : e = d := by
  by_contra hne
  exact (hp.apart.forall he hd hne).not_on hon hon'

/-- The pages of the label are not handed out. -/
theorem Pager.Accounted.label (hp : p.Accounted out reserved) (hd : d ∈ p.swtailq) (hb : b ∈ out)
    (hon : d.On b) : d.swFirst + 2 ≤ b := by
  obtain ⟨e, he, hlo, hhi⟩ := hp.covered b hb
  rw [← hp.on_inj hd he hon ⟨by omega, hhi⟩]
  exact hlo

theorem setDevice_ids (l : List Swdevt) (d : Swdevt) : (setDevice l d).map swId = l.map swId := by
  rw [setDevice, List.map_map]
  refine List.map_congr_left fun e _ => ?_
  rw [Function.comp_apply]
  split_ifs with heq
  · exact heq.symm
  · rfl

/-- **Assignment to one device.**  The pages of the others are handed out as before. -/
theorem Pager.Accounted.update (hp : p.Accounted out reserved) (hl : p.swtailq = L ++ d :: R)
    (hd : d.SamePlace d') (hd' : d'.Accounted out')
    (hout : ∀ b, ¬ d.On b → (b ∈ out' ↔ b ∈ out))
    (hlabel : ∀ b ∈ out', d.On b → d.swFirst + 2 ≤ b) (hq : p'.swtailq = setDevice p.swtailq d')
    (hcount : p'.nswapdev = p.nswapdev)
    (hhead : ∀ id ∈ p'.swdevhd, id ∈ p.swtailq.map swId)
    (havail : p'.swapPagerAvail =
      p.swapPagerAvail - (d.freePages out).card + (d'.freePages out').card) :
    p'.Accounted out' reserved := by
  obtain ⟨hapart, hrest⟩ := hp.apart_of_split hl
  have hkeys := hp.keys
  rw [hl] at hkeys
  have hl' : p'.swtailq = L ++ d' :: R := by
    rw [hq, hl]
    exact Keyed.replace_split hkeys hd.id
  have hids : p'.swtailq.map swId = p.swtailq.map swId := hq ▸ setDevice_ids _ _
  have hmem : ∀ e, e ∈ p.swtailq ↔ e = d ∨ e ∈ L ++ R := fun e => by
    rw [hl, List.perm_middle.mem_iff, List.mem_cons]
  have hmem' : ∀ e, e ∈ p'.swtailq ↔ e = d' ∨ e ∈ L ++ R := fun e => by
    rw [hl', List.perm_middle.mem_iff, List.mem_cons]
  have hother : ∀ e ∈ L ++ R, e.freePages out' = e.freePages out ∧ e.Accounted out' := fun e he =>
    (hp.devs e ((hmem e).mpr (.inr he))).congr fun b hb => hout b ((hapart e he).not_on hb)
  have hsum : ((L ++ R).map fun e => (e.freePages out').card) =
      (L ++ R).map fun e => (e.freePages out).card :=
    List.map_congr_left fun e he => by rw [(hother e he).1]
  have hlength : p'.swtailq.length = p.swtailq.length := by
    rw [hq, setDevice, List.length_map]
  refine ⟨fun e he => ?_, hids ▸ hp.keys, ?_, fun b hb => ?_, ?_, hids ▸ hhead, ?_,
    hlength.trans_le hp.few⟩
  · rcases (hmem' e).mp he with rfl | he
    · exact hd'
    · exact (hother e he).2
  · rw [hl', List.pairwise_middle Apart.symm, List.pairwise_cons]
    exact ⟨fun e he => hd.apart.mpr (hapart e he), hrest⟩
  · by_cases hon : d.On b
    · refine ⟨d', (hmem' d').mpr (.inl rfl), ?_, ?_⟩
      · rw [hd.first]
        exact hlabel b hb hon
      · rw [hd.stop]
        exact hon.2
    · obtain ⟨e, he, hlo, hhi⟩ := hp.covered b ((hout b hon).mp hb)
      rcases (hmem e).mp he with rfl | he
      · exact absurd ⟨by omega, hhi⟩ hon
      · exact ⟨e, (hmem' e).mpr (.inr he), hlo, hhi⟩
  · rw [hcount, hp.count, hlength]
  · rw [havail, hp.avail, hl, hl']
    rw [(List.perm_middle.map _).sum_eq, (List.perm_middle.map _).sum_eq, List.map_cons,
      List.map_cons, hsum, List.sum_cons, List.sum_cons]
    omega

/-! ## Adding a device -/

theorem lt_dvbase_foldl (l : List Swdevt) : ∀ base : ℕ,
    let base' := l.foldl (fun base tsp => if tsp.swEnd ≥ base then tsp.swEnd + 1 else base) base
    base ≤ base' ∧ ∀ d ∈ l, d.swEnd < base' := by
  induction l with
  | nil => exact fun base => ⟨le_rfl, nofun⟩
  | cons e l ih =>
    intro base
    obtain ⟨hle, hlt⟩ := ih (if e.swEnd ≥ base then e.swEnd + 1 else base)
    have hstep : base ≤ (if e.swEnd ≥ base then e.swEnd + 1 else base) ∧
        e.swEnd < (if e.swEnd ≥ base then e.swEnd + 1 else base) := by
      split <;> omega
    exact ⟨hstep.1.trans hle, List.forall_mem_cons.mpr ⟨hstep.2.trans_le hle, hlt⟩⟩

/-- The new device lies behind all others. -/
theorem lt_dvbase (hd : d ∈ l) : d.swEnd < dvbase l := (lt_dvbase_foldl l 0).2 d hd

theorem pages_le (nblks : ℕ) : pages nblks ≤ 2 ^ 26 := by
  have hcap : (if nblks > 0x40000000 / blistMetaRadix then 0x40000000 / blistMetaRadix else nblks) ≤
      2 ^ 26 := by
    rw [blistMetaRadix]
    split <;> omega
  exact (div_le_self _ _).trans hcap

/-- **`swaponsomething`.** -/
theorem Pager.Accounted.swapon (hp : p.Accounted out reserved) {nblks : ℕ}
    (hid : id ∉ p.swtailq.map swId) (hpages : 0 < pages nblks) (mem : BlTree) :
    ∃ p' sp, swaponsomething p id nblks mem = .ok p' ∧ p'.swtailq = p.swtailq ++ [sp] ∧
      sp.swNblks = pages nblks ∧ sp.swFirst = dvbase p.swtailq ∧
      p'.Accounted out (reserved + min 2 (pages nblks)) := by
  obtain ⟨bl, bl', hcreate, hfree, hholds⟩ := exists_holds hpages (pages_le nblks) mem
  let sp : Swdevt := ⟨id, pages nblks, dvbase p.swtailq, dvbase p.swtailq + pages nblks, 0, false, bl'⟩
  have hrun : swaponsomething p id nblks mem = .ok { p with
      swtailq := p.swtailq ++ [sp]
      nswapdev := p.nswapdev + 1
      swapPagerAvail := p.swapPagerAvail + pages nblks } := by
    simp only [swaponsomething, hcreate, hfree]
    rfl
  have hfresh : ∀ b ∈ out, b < dvbase p.swtailq := by
    intro b hb
    obtain ⟨d, hd, -, hlt⟩ := hp.covered b hb
    exact hlt.trans (lt_dvbase hd)
  have hpagesFree : sp.freePages out = Ico 2 (pages nblks) := by
    refine filter_true_of_mem fun b _ hb => ?_
    have := hfresh _ hb
    change dvbase p.swtailq + b < _ at this
    omega
  have hused : out.filter sp.On = ∅ := by
    refine filter_eq_empty_iff.mpr fun b hb hon => ?_
    have hlo : dvbase p.swtailq ≤ b := hon.1
    exact absurd (hfresh b hb) (not_lt.mpr hlo)
  have hsp : sp.Accounted out := ⟨rfl, hpagesFree ▸ hholds, by rw [hused]; rfl⟩
  refine ⟨_, sp, hrun, rfl, rfl, rfl,
    ⟨fun d hd => ?_, ?_, ?_, fun b hb => ?_, ?_, fun i hi => ?_, ?_, ?_⟩⟩
  · rcases List.mem_append.mp hd with hd | hd
    · exact hp.devs d hd
    · rw [List.mem_singleton.mp hd]
      exact hsp
  · rw [List.map_append, List.nodup_append]
    refine ⟨hp.keys, List.nodup_singleton _, fun i hi j hj => ?_⟩
    rw [List.mem_singleton.mp hj]
    rintro rfl
    exact hid hi
  · refine List.pairwise_append.mpr ⟨hp.apart, List.pairwise_singleton _ _, fun d hd e he => ?_⟩
    rw [List.mem_singleton.mp he]
    exact .inl (lt_dvbase hd)
  · obtain ⟨d, hd, hb⟩ := hp.covered b hb
    exact ⟨d, List.mem_append_left _ hd, hb⟩
  · rw [hp.count, List.length_append, List.length_singleton]
  · rw [List.map_append]
    exact List.mem_append_left _ (hp.head i hi)
  · show p.swapPagerAvail + pages nblks =
      (((p.swtailq ++ [sp]).map fun d => (d.freePages out).card).sum : ℕ) +
        ((reserved + min 2 (pages nblks) : ℕ) : ℤ)
    rw [hp.avail, List.map_append, List.sum_append, List.map_singleton, List.sum_singleton,
      hpagesFree, card_Ico]
    omega
  · have := hp.few
    rw [List.length_append, List.length_singleton]
    omega

/-! ## Allocating and freeing -/

theorem tailqNext_mem (l : List Swdevt) (id : ℕ) : ∀ i ∈ tailqNext l id, i ∈ l.map swId := by
  induction l with
  | nil => exact nofun
  | cons e l ih =>
    intro i hi
    refine List.mem_cons_of_mem _ ?_
    rw [tailqNext] at hi
    split at hi
    · obtain ⟨f, hf, rfl⟩ := Option.map_eq_some_iff.mp hi
      exact List.mem_map_of_mem (List.mem_of_mem_head? hf)
    · exact ih i hi

/-- The pages that a device hands out. -/
theorem Swdevt.Accounted.take (hd : d.Accounted out) {r : ℕ} {bl : Blist}
    (hclosing : ¬ d.swClosing = true) (hsub : Ico r (r + n) ⊆ d.freePages out)
    (hbl : Holds bl d.swNblks (d.freePages out \ Ico r (r + n))) : let blk := r + d.swFirst
    let d' : Swdevt := { d with swBlist := bl, swUsed := d.swUsed + n }
    (∀ b ∈ Ico blk (blk + n), d.swFirst + 2 ≤ b ∧ b < d.swEnd ∧ b ∉ out) ∧
      d'.Accounted (out ∪ Ico blk (blk + n)) ∧
      (d'.freePages (out ∪ Ico blk (blk + n))).card + n = (d.freePages out).card := by
  intro blk d'
  have hspan := hd.span
  have htaken : ∀ b ∈ Ico blk (blk + n), d.swFirst + 2 ≤ b ∧ b < d.swEnd ∧ b ∉ out := by
    intro b hb
    rw [mem_Ico] at hb
    have hfree := (mem_freePages hclosing).mp (hsub (mem_Ico.mpr
      (show r ≤ b - d.swFirst ∧ b - d.swFirst < r + n by omega)))
    rw [show d.swFirst + (b - d.swFirst) = b by omega] at hfree
    exact ⟨by omega, by omega, hfree.2.2⟩
  have hfree : d'.freePages (out ∪ Ico blk (blk + n)) = d.freePages out \ Ico r (r + n) := by
    ext b
    rw [mem_freePages (d := d') hclosing, mem_sdiff, mem_freePages hclosing]
    simp only [d', mem_union, mem_Ico, not_or, and_assoc]
    refine and_congr_right fun _ => and_congr_right fun _ => and_congr_right fun _ => ?_
    omega
  have hcard : (d.freePages out \ Ico r (r + n)).card + n = (d.freePages out).card := by
    have := card_sdiff_add_card_eq_card hsub
    rwa [Nat.card_Ico, Nat.add_sub_cancel_left] at this
  have hused : (out ∪ Ico blk (blk + n)).filter d.On = out.filter d.On ∪ Ico blk (blk + n) := by
    rw [filter_union]
    congr 1
    refine filter_true_of_mem fun b hb => ?_
    obtain ⟨h1, h2, -⟩ := htaken b hb
    exact ⟨by omega, h2⟩
  refine ⟨htaken, ⟨hspan, hfree ▸ hbl, ?_⟩, by rw [hfree, hcard]⟩
  have hdisj : Disjoint (out.filter d.On) (Ico blk (blk + n)) :=
    disjoint_right.mpr fun b hb hb' => (htaken b hb).2.2 (mem_filter.mp hb').1
  show d.swUsed + n = (((out ∪ Ico blk (blk + n)).filter d.On).card : ℤ)
  rw [hused, card_union_of_disjoint hdisj, Nat.card_Ico, Nat.add_sub_cancel_left, hd.used,
    Nat.cast_add]

/-- **The loop of `swp_pager_getswapspace`** asks no missing device.  It leaves the accounts as they
are or hands out pages that were free. -/
theorem Pager.Accounted.getLoop (h1 : 0 < n) (h32 : n ≤ blistMaxAlloc) (left : ℕ) :
    ∀ (sp : Option ℕ) (p : Pager), p.Accounted out reserved →
      (∀ id ∈ sp, id ∈ p.swtailq.map swId) → left ≤ p.swtailq.length →
      ∃ res p', getswapspaceLoop n left sp p = .ok (res, p') ∧
        (res = none → p'.Accounted out reserved) ∧
        ∀ blk, res = some blk → (∀ b ∈ Ico blk (blk + n), b ∉ out) ∧
          p'.Accounted (out ∪ Ico blk (blk + n)) reserved := by
  induction left with
  | zero =>
    intro sp p hp _ _
    exact ⟨none, _, rfl, fun _ => ⟨hp.devs, hp.keys, hp.apart, hp.covered, hp.count, nofun, hp.avail,
      hp.few⟩, nofun⟩
  | succ left ih =>
    intro sp p hp hsp hleft
    have hdev : ∃ d, (sp <|> tailqFirst p.swtailq).bind (device p.swtailq) = some d := by
      cases sp with
      | some id => exact Keyed.exists_find? (hsp id rfl)
      | none =>
        obtain ⟨e, l, hl⟩ := List.exists_cons_of_length_pos (zero_lt_of_lt hleft)
        rw [hl]
        exact Keyed.exists_find? List.mem_cons_self
    obtain ⟨d, hd⟩ := hdev
    obtain ⟨id, -, hfind⟩ := Option.bind_eq_some_iff.mp hd
    obtain ⟨-, L, R, hl⟩ := Keyed.find?_split hfind
    have hmem : d ∈ p.swtailq := hl ▸ List.mem_append_cons_self
    have hacc := hp.devs d hmem
    have hnext := tailqNext_mem p.swtailq d.swId
    simp only [getswapspaceLoop, hd]
    by_cases hclosing : d.swClosing = true
    · rw [if_pos hclosing]
      exact ih _ p hp hnext (le_of_succ_le hleft)
    · rw [if_neg hclosing]
      obtain ⟨res, bl, hrun, hnone, hsome⟩ := hacc.bitmap.alloc h1 h32
      rw [hrun]
      cases res with
      | some r =>
        obtain ⟨hsub, hbl⟩ := hsome r rfl
        obtain ⟨htaken, hd', hcard⟩ := hacc.take hclosing hsub hbl
        have hplace : d.SamePlace { d with swBlist := bl, swUsed := d.swUsed + n } := ⟨rfl, rfl, rfl⟩
        refine ⟨_, _, rfl, nofun, fun blk hblk => ?_⟩
        cases hblk
        refine ⟨fun b hb => (htaken b hb).2.2, hp.update hl hplace hd' (fun b hb => ?_)
          (fun b hb hon => ?_) rfl rfl hnext ?_⟩
        · rw [mem_union, or_iff_left]
          exact fun hin => hb ⟨by have := htaken b hin; omega, (htaken b hin).2.1⟩
        · rcases mem_union.mp hb with hb | hb
          · exact hp.label hmem hb hon
          · exact (htaken b hb).1
        · show p.swapPagerAvail - n = _
          omega
      | none =>
        have hplace : d.SamePlace { d with swBlist := bl } := ⟨rfl, rfl, rfl⟩
        have hd' : ({ d with swBlist := bl } : Swdevt).Accounted out :=
          ⟨hacc.span, hnone rfl, hacc.used⟩
        refine ih _ _ (hp.update hl hplace hd' (fun b _ => Iff.rfl)
          (fun _ => hp.label hmem) rfl rfl hp.head ?_) ?_ ?_
        · exact (Int.sub_add_cancel _ _).symm
        · exact (setDevice_ids _ _).symm ▸ hnext
        · rw [setDevice, List.length_map]
          omega

/-- **`swp_pager_getswapspace`.** -/
theorem Pager.Accounted.getswapspace (hp : p.Accounted out reserved) (h1 : 0 < n)
    (h32 : n ≤ blistMaxAlloc) : ∃ res p', swpPagerGetswapspace p n = .ok (res, p') ∧
      (res = none → p'.Accounted out reserved) ∧
      ∀ blk, res = some blk → (∀ b ∈ Ico blk (blk + n), b ∉ out) ∧
        p'.Accounted (out ∪ Ico blk (blk + n)) reserved :=
  Pager.Accounted.getLoop h1 h32 _ _ p hp hp.head hp.count.le

/-- Pages that were handed out together belong to one device: there is a page between any two. -/
theorem Pager.Accounted.one_device (hp : p.Accounted out reserved) (hd : d ∈ p.swtailq)
    (hon : d.On blk) (n : ℕ) (hsub : Ico blk (blk + n) ⊆ out) :
    ∀ b ∈ Ico blk (blk + n), d.On b := by
  induction n with
  | zero => simp
  | succ n ih =>
    have ih := ih ((Ico_subset_Ico_right (by omega)).trans hsub)
    intro b hb
    rw [mem_Ico] at hb
    by_cases hlast : b < blk + n
    · exact ih b (mem_Ico.mpr ⟨hb.1, hlast⟩)
    · rcases Nat.eq_zero_or_pos n with rfl | hn
      · obtain rfl : b = blk := by omega
        exact hon
      · have hprev := ih (b - 1) (mem_Ico.mpr (by omega))
        obtain ⟨e, he, hlo, hhi⟩ := hp.covered b (hsub (mem_Ico.mpr hb))
        rw [← hp.on_inj hd he hprev ⟨by omega, by omega⟩]
        exact ⟨by omega, hhi⟩

/-- The pages that a device takes back. -/
theorem Swdevt.Accounted.give (hd : d.Accounted out) (hsub : Ico blk (blk + n) ⊆ out)
    (hon : ∀ b ∈ Ico blk (blk + n), d.On b) :
    d.swUsed - n = ((out \ Ico blk (blk + n)).filter d.On).card := by
  have hused : (out \ Ico blk (blk + n)).filter d.On = out.filter d.On \ Ico blk (blk + n) := by
    ext b
    simp only [mem_filter, mem_sdiff]
    exact and_right_comm
  have hcard := card_sdiff_add_card_eq_card fun b hb => mem_filter.mpr ⟨hsub hb, hon b hb⟩
  rw [card_Ico] at hcard
  rw [hused, hd.used]
  omega

/-- **`swp_pager_freeswapspace`** of pages that were handed out. -/
theorem Pager.Accounted.freeswapspace (hp : p.Accounted out reserved) (h1 : 0 < n)
    (hsub : Ico blk (blk + n) ⊆ out) :
    ∃ p', swpPagerFreeswapspace p blk n = .ok p' ∧
      p'.Accounted (out \ Ico blk (blk + n)) reserved := by
  have hfound : ∃ d, p.swtailq.find? (swpPagerIsondev blk) = some d := by
    obtain ⟨d, hd, hlo, hhi⟩ := hp.covered blk (hsub (mem_Ico.mpr (by omega)))
    refine Option.isSome_iff_exists.mp (List.find?_isSome.mpr ⟨d, hd, ?_⟩)
    rw [swpPagerIsondev, Bool.and_eq_true, decide_eq_true_eq, decide_eq_true_eq]
    omega
  obtain ⟨d, hfind⟩ := hfound
  obtain ⟨hisondev, L, R, hl, -⟩ := List.find?_eq_some_iff_append.mp hfind
  rw [swpPagerIsondev, Bool.and_eq_true, decide_eq_true_eq, decide_eq_true_eq] at hisondev
  have hmem : d ∈ p.swtailq := hl ▸ List.mem_append_cons_self
  have hacc := hp.devs d hmem
  have hon := hp.one_device hmem hisondev n hsub
  have hused := hacc.give hsub hon
  have hother : ∀ b, ¬ d.On b → (b ∈ out \ Ico blk (blk + n) ↔ b ∈ out) := by
    intro b hb
    rw [mem_sdiff, and_iff_left]
    exact fun hin => hb (hon b hin)
  have hlabel : ∀ b ∈ out \ Ico blk (blk + n), d.On b → d.swFirst + 2 ≤ b :=
    fun _ hb => hp.label hmem (mem_sdiff.mp hb).1
  simp only [swpPagerFreeswapspace, hfind]
  by_cases hclosing : d.swClosing = true
  · rw [if_pos hclosing]
    have hplace : d.SamePlace { d with swUsed := d.swUsed - n } := ⟨rfl, rfl, rfl⟩
    have hfree : ∀ out, d.freePages out = ∅ := fun out => if_pos hclosing
    have hfree' : ∀ out, ({ d with swUsed := d.swUsed - n } : Swdevt).freePages out = ∅ :=
      fun out => if_pos hclosing
    refine ⟨_, rfl, hp.update hl hplace ⟨hacc.span, ?_, hused⟩ hother hlabel rfl rfl hp.head ?_⟩
    · rw [hfree', ← hfree out]
      exact hacc.bitmap
    · rw [hfree, hfree']
      show p.swapPagerAvail = _
      omega
  · rw [if_neg hclosing]
    have hrange : ∀ b ∈ Ico (blk - d.swFirst) (blk - d.swFirst + n),
        2 ≤ b ∧ b < d.swNblks ∧ d.swFirst + b ∈ out ∧ d.swFirst + b ∈ Ico blk (blk + n) := by
      intro b hb
      rw [mem_Ico] at hb
      have hin : d.swFirst + b ∈ Ico blk (blk + n) := mem_Ico.mpr (by omega)
      have h₁ := (hon _ hin).2
      have h2 := hp.label hmem (hsub hin) (hon _ hin)
      have h3 := hacc.span
      exact ⟨by omega, by omega, hsub hin, hin⟩
    have hnotin : ∀ b ∈ d.freePages out,
        b ∉ Ico (blk - d.swFirst) (blk - d.swFirst + n) := fun b hb hin =>
      ((mem_freePages hclosing).mp hb).2.2 (hrange b hin).2.2.1
    obtain ⟨bl, hrun, hbl⟩ := hacc.bitmap.freed h1
      (by have := hrange (blk - d.swFirst + n - 1) (mem_Ico.mpr (by omega)); omega)
      hnotin
    rw [hrun]
    have hset : d.freePages out ∪ Ico (blk - d.swFirst) (blk - d.swFirst + n) =
        d.freePages (out \ Ico blk (blk + n)) := by
      ext b
      rw [mem_union, mem_freePages hclosing, mem_freePages hclosing, mem_sdiff, not_and_not_right]
      by_cases hin : b ∈ Ico (blk - d.swFirst) (blk - d.swFirst + n)
      · obtain ⟨h₁, h2, -, h4⟩ := hrange b hin
        exact iff_of_true (.inr hin) ⟨h₁, h2, fun _ => h4⟩
      · have hout : d.swFirst + b ∉ Ico blk (blk + n) := by
          rw [mem_Ico] at hin ⊢
          omega
        simp only [hin, hout, or_false, imp_false]
    have hcard : (d.freePages (out \ Ico blk (blk + n))).card = (d.freePages out).card + n := by
      rw [← hset, card_union_of_disjoint, Nat.card_Ico, Nat.add_sub_cancel_left]
      exact disjoint_left.mpr hnotin
    have hplace : d.SamePlace { d with swUsed := d.swUsed - n, swBlist := bl } := ⟨rfl, rfl, rfl⟩
    refine ⟨_, rfl, hp.update hl hplace ⟨hacc.span, hset ▸ hbl, hused⟩ hother hlabel rfl rfl hp.head ?_⟩
    show p.swapPagerAvail + n =
      p.swapPagerAvail - (d.freePages out).card + (d.freePages (out \ Ico blk (blk + n))).card
    omega

/-! ## Removing a device -/

/-- **The first part of `swapoff_one`.** -/
theorem Pager.Accounted.close (hp : p.Accounted out reserved) (hid : id ∈ p.swtailq.map swId) :
    ∃ p', swapoffClose p id = .ok p' ∧ p'.Accounted out reserved := by
  obtain ⟨d, hfind⟩ := Keyed.exists_find? hid
  obtain ⟨-, L, R, hl⟩ := Keyed.find?_split hfind
  have hmem : d ∈ p.swtailq := hl ▸ List.mem_append_cons_self
  have hacc := hp.devs d hmem
  have hspan := hacc.span
  obtain ⟨bl, hrun, hbl⟩ := hacc.bitmap.fillLoop (by omega) p.swapPagerAvail
  have hplace : d.SamePlace { d with swClosing := true, swBlist := bl } := ⟨rfl, rfl, rfl⟩
  simp only [swapoffClose, device, hfind, hrun]
  refine ⟨_, rfl, hp.update hl hplace ⟨hacc.span, hbl, hacc.used⟩ (fun b _ => Iff.rfl)
    (fun _ => hp.label hmem) rfl rfl hp.head ?_⟩
  show p.swapPagerAvail - (d.freePages out).card =
    p.swapPagerAvail - (d.freePages out).card + (∅ : Finset ℕ).card
  rw [card_empty]
  omega

/-- **The second part of `swapoff_one`**, once no page of the device is in use. -/
theorem Pager.Accounted.remove (hp : p.Accounted out reserved)
    (hfind : device p.swtailq id = some d) (hclosing : d.swClosing = true) (hused : d.swUsed = 0) :
    (swapoffRemove p id).Accounted out reserved := by
  obtain ⟨rfl, L, R, hl⟩ := Keyed.find?_split hfind
  have hacc := hp.devs d (hl ▸ List.mem_append_cons_self)
  have hkeys := hp.keys
  rw [hl] at hkeys
  have hl' : (swapoffRemove p d.swId).swtailq = L ++ R := by
    show p.swtailq.filter _ = _
    rw [hl]
    exact Keyed.remove_split hkeys
  have hnone : ∀ b ∈ out, ¬ d.On b := by
    have hcard := hacc.used
    rw [hused] at hcard
    have hempty := Finset.card_eq_zero.mp (by exact_mod_cast hcard.symm)
    exact fun b hb hon => filter_eq_empty_iff.mp hempty hb hon
  have hsub : (L ++ R).Sublist (L ++ d :: R) :=
    List.Sublist.append_left (List.sublist_cons_self d R) L
  have hmem : ∀ e ∈ p.swtailq, e ≠ d → e ∈ L ++ R := by
    intro e he hne
    rw [hl, List.perm_middle.mem_iff, List.mem_cons] at he
    exact he.resolve_left hne
  refine ⟨fun e he => ?_, ?_, ?_, fun b hb => ?_, ?_, fun i hi => ?_, ?_,
    (List.length_filter_le _ _).trans hp.few⟩
  · rw [hl'] at he
    exact hp.devs e (hl ▸ hsub.subset he)
  · rw [hl']
    exact (hsub.map _).nodup hkeys
  · rw [hl']
    exact (hp.apart_of_split hl).2
  · obtain ⟨e, he, hlo, hhi⟩ := hp.covered b hb
    refine ⟨e, hl' ▸ hmem e he ?_, hlo, hhi⟩
    rintro rfl
    exact hnone b hb ⟨by omega, hhi⟩
  · show p.nswapdev - 1 = (swapoffRemove p d.swId).swtailq.length
    rw [hl', hp.count, hl, List.length_append, List.length_append, List.length_cons]
    omega
  · have hi' : i ∈ p.swdevhd ∧ i ≠ d.swId := by
      change i ∈ (if p.swdevhd = some d.swId then none else p.swdevhd) at hi
      split_ifs at hi with hne
      · cases hi
      · refine ⟨hi, ?_⟩
        rintro rfl
        exact hne hi
    obtain ⟨e, he, rfl⟩ := List.mem_map.mp (hp.head i hi'.1)
    rw [hl']
    refine List.mem_map_of_mem (hmem e he ?_)
    rintro rfl
    exact hi'.2 rfl
  · have hfree : d.freePages out = ∅ := if_pos hclosing
    show p.swapPagerAvail = _
    rw [hl', hp.avail, hl]
    simp [hfree]

/-! ## Runs -/

/-- The pager, the pages that are handed out, and the number of devices added so far. -/
structure System where
  pager : Pager
  out : Finset ℕ
  added : ℕ

/-- No device. -/
def System.start : System := ⟨⟨[], none, 0, 0⟩, ∅, 0⟩

/-- The steps of the system.  A device that is added has a page at least; the callers ask for 1 to
`BLIST_MAX_ALLOC` pages and free only pages that they have. -/
inductive SwapStep : System → System → Prop
  | swapon {s : System} (id nblks : ℕ) (mem : BlTree) {p' : Pager}
      (hid : id ∉ s.pager.swtailq.map swId) (hpages : 0 < pages nblks)
      (hrun : swaponsomething s.pager id nblks mem = .ok p') :
      SwapStep s { s with pager := p', added := s.added + 1 }
  | getswapspace {s : System} (npages : ℕ) {blk : ℕ} {p' : Pager} (h1 : 0 < npages)
      (h32 : npages ≤ blistMaxAlloc) (hrun : swpPagerGetswapspace s.pager npages = .ok (some blk, p')) :
      SwapStep s { s with pager := p', out := s.out ∪ Ico blk (blk + npages) }
  | noswapspace {s : System} (npages : ℕ) {p' : Pager} (h1 : 0 < npages)
      (h32 : npages ≤ blistMaxAlloc) (hrun : swpPagerGetswapspace s.pager npages = .ok (none, p')) :
      SwapStep s { s with pager := p' }
  | freeswapspace {s : System} (blk npages : ℕ) {p' : Pager} (h1 : 0 < npages)
      (hsub : Ico blk (blk + npages) ⊆ s.out)
      (hrun : swpPagerFreeswapspace s.pager blk npages = .ok p') :
      SwapStep s { s with pager := p', out := s.out \ Ico blk (blk + npages) }
  | close {s : System} (id : ℕ) {p' : Pager} (hid : id ∈ s.pager.swtailq.map swId)
      (hrun : swapoffClose s.pager id = .ok p') : SwapStep s { s with pager := p' }
  | remove {s : System} (id : ℕ) {d : Swdevt} (hfind : device s.pager.swtailq id = some d)
      (hclosing : d.swClosing = true) (hused : d.swUsed = 0) :
      SwapStep s { s with pager := swapoffRemove s.pager id }

/-- The accounts of the system: each device added has left one or two pages too many. -/
def System.Accounted (s : System) : Prop :=
  ∃ reserved, s.pager.Accounted s.out reserved ∧ s.added ≤ reserved ∧ reserved ≤ 2 * s.added

theorem System.start_accounted : System.start.Accounted :=
  ⟨0, ⟨nofun, List.nodup_nil, List.Pairwise.nil, nofun, rfl, nofun, rfl, le_rfl⟩, le_rfl, le_rfl⟩

/-- **A step keeps the accounts.** -/
theorem SwapStep.accounted {s' : System} (hs : s.Accounted) (hstep : SwapStep s s') :
    s'.Accounted := by
  obtain ⟨reserved, hp, hlo, hhi⟩ := hs
  cases hstep with
  | swapon id nblks mem hid hpages hrun =>
    obtain ⟨p1, sp, hrun1, -, -, -, hp'⟩ := hp.swapon hid hpages mem
    cases hrun.symm.trans hrun1
    refine ⟨_, hp', ?_, ?_⟩
    · show s.added + 1 ≤ _
      omega
    · show _ ≤ 2 * (s.added + 1)
      omega
  | getswapspace npages h1 h32 hrun =>
    obtain ⟨res, p1, hrun1, -, hsome⟩ := hp.getswapspace h1 h32
    cases hrun1.symm.trans hrun
    exact ⟨reserved, (hsome _ rfl).2, hlo, hhi⟩
  | noswapspace npages h1 h32 hrun =>
    obtain ⟨res, p1, hrun1, hnone, -⟩ := hp.getswapspace h1 h32
    cases hrun1.symm.trans hrun
    exact ⟨reserved, hnone rfl, hlo, hhi⟩
  | freeswapspace blk npages h1 hsub hrun =>
    obtain ⟨p1, hrun1, hp'⟩ := hp.freeswapspace h1 hsub
    cases hrun.symm.trans hrun1
    exact ⟨reserved, hp', hlo, hhi⟩
  | close id hid hrun =>
    obtain ⟨p1, hrun1, hp'⟩ := hp.close hid
    cases hrun.symm.trans hrun1
    exact ⟨reserved, hp', hlo, hhi⟩
  | remove id hfind hclosing hused =>
    exact ⟨reserved, hp.remove hfind hclosing hused, hlo, hhi⟩

theorem reachable_accounted (h : Reachable (· = System.start) SwapStep s) : s.Accounted := by
  refine h.invariant (I := System.Accounted) ?_ fun _ _ hs hstep => hstep.accounted hs
  rintro s rfl
  exact System.start_accounted

/-- The sum of the `bl_free` of the devices that are not closing. -/
def Pager.sumFree (p : Pager) : ℤ :=
  ((p.swtailq.filter fun d => !d.swClosing).map fun d => d.swBlist.blFree).sum

/-- No `bl_free` exceeds the number of free pages. -/
theorem sumFree_le (hl : ∀ d ∈ l, d.Accounted out) :
    ((l.filter fun d => !d.swClosing).map fun d => d.swBlist.blFree).sum ≤
      ((l.map fun d => (d.freePages out).card).sum : ℕ) := by
  induction l with
  | nil => exact le_rfl
  | cons d l ih =>
    have hrest := ih fun e he => hl e (List.mem_cons_of_mem _ he)
    have hd := (hl d List.mem_cons_self).bitmap.blFree
    rw [List.map_cons, List.sum_cons]
    by_cases hclosing : d.swClosing = true
    · rw [List.filter_cons_of_neg (by rw [hclosing]; decide)]
      omega
    · rw [List.filter_cons_of_pos (by rw [Bool.eq_false_iff.mpr hclosing]; rfl), List.map_cons,
        List.sum_cons]
      omega

/-- **The accounts of the swap pager.**  `sw_used` of each device is the number of its pages that
are handed out; `swap_pager_avail` is the sum of the `bl_free` only until a device is added. -/
theorem swap_pager_accounts {s : System} (h : Reachable (· = System.start) SwapStep s) :
    (s.pager.swapPagerAvail = s.pager.sumFree ↔ s.added = 0) ∧
      ∀ d ∈ s.pager.swtailq, d.swUsed = (s.out.filter d.On).card := by
  obtain ⟨reserved, hp, hlo, hhi⟩ := reachable_accounted h
  refine ⟨?_, fun d hd => (hp.devs d hd).used⟩
  have hle := sumFree_le hp.devs
  have havail := hp.avail
  constructor
  · intro heq
    rw [heq, Pager.sumFree] at havail
    omega
  · intro h0
    obtain rfl : reserved = 0 := by omega
    have hnil : s.pager.swtailq = [] := List.length_eq_zero_iff.mp (le_zero.mp hp.few)
    rw [havail, Pager.sumFree, hnil]
    rfl

/-- The pager of a call that succeeds. -/
def Pager.after (p : Pager) : Except SwPanic Pager → Pager
  | .ok p' => p'
  | .error _ => p

/-- One device of 256 sectors, which are 32 pages. -/
def oneDevice : Pager := System.start.pager.after (swaponsomething System.start.pager 0 256 zeroMem)

theorem oneDevice_reachable : Reachable (· = System.start) SwapStep ⟨oneDevice, ∅, 1⟩ := by
  have hstart : Reachable (· = System.start) SwapStep System.start := .of_init rfl
  exact hstart.tail (.swapon 0 256 zeroMem (by decide) (by decide) rfl)

theorem swap_pager_accounts_oneDevice : (oneDevice.swapPagerAvail = oneDevice.sumFree ↔ 1 = 0) ∧
      ∀ d ∈ oneDevice.swtailq, d.swUsed = ((∅ : Finset ℕ).filter d.On).card :=
  swap_pager_accounts oneDevice_reachable

/-- The two pages of the label are counted as available. -/
theorem swapon_counts_label : Reachable (· = System.start) SwapStep ⟨oneDevice, ∅, 1⟩ ∧
    oneDevice.swapPagerAvail = 32 ∧ oneDevice.sumFree = 30 :=
  ⟨oneDevice_reachable, rfl, rfl⟩

/-- **The loop of `swapoff_one`.**  Every call of `blist_fill` names a block of the bitmap, and no
block is free behind the loop, exactly if `sw_end` is not beyond the last chunk of the bitmap. -/
theorem swapoff_fills {s : System} (h : Reachable (· = System.start) SwapStep s) {d : Swdevt}
    (hd : d ∈ s.pager.swtailq) :
    ((∀ b ∈ fillCalls d, b < d.swNblks) ∧ ∃ bl avail,
        fillLoop (fillCalls d) d.swBlist s.pager.swapPagerAvail = .ok (bl, avail) ∧
        bl.freeBlocks = ∅) ↔
      d.swEnd ≤ (d.swNblks + (dmmax - 1)) / dmmax * dmmax := by
  obtain ⟨reserved, hp, -, -⟩ := reachable_accounted h
  have hacc := hp.devs d hd
  have hspan := hacc.span
  obtain ⟨bl, hrun, hbl⟩ := hacc.bitmap.fillLoop (by omega) s.pager.swapPagerAvail
  rw [and_iff_left ⟨bl, _, hrun, hbl.free⟩]
  constructor
  · intro hcalls
    by_contra hgt
    -- the first chunk behind the bitmap is reached
    have hmem : (d.swNblks + (dmmax - 1)) / dmmax * dmmax ∈ fillCalls d :=
      mem_fillCalls.mpr ⟨Nat.dvd_mul_left _ _, Nat.lt_of_not_le hgt⟩
    have hlt := hcalls _ hmem
    rw [dmmax] at hlt
    omega
  · intro hle b hb
    obtain ⟨⟨k, rfl⟩, hlt⟩ := mem_fillCalls.mp hb
    rw [dmmax] at hle hlt ⊢
    omega

/-- Two devices of 32 pages; the second one has the page numbers from 33 on. -/
def twoDevices : Pager := oneDevice.after (swaponsomething oneDevice 1 256 zeroMem)

theorem twoDevices_reachable : Reachable (· = System.start) SwapStep ⟨twoDevices, ∅, 2⟩ :=
  oneDevice_reachable.tail (.swapon 1 256 zeroMem (by decide) (by decide) rfl)

/-- The first device is filled in by calls within its bitmap. -/
theorem swapoff_fills_oneDevice : ∃ d ∈ oneDevice.swtailq, d.swEnd = 32 ∧
    ((∀ b ∈ fillCalls d, b < d.swNblks) ∧ ∃ bl avail,
        fillLoop (fillCalls d) d.swBlist oneDevice.swapPagerAvail = .ok (bl, avail) ∧
        bl.freeBlocks = ∅) :=
  ⟨_, List.mem_cons_self, rfl, (swapoff_fills oneDevice_reachable List.mem_cons_self).mpr (by decide)⟩

/-- The removal of the second device calls `blist_fill` for blocks 32 and 64 of its 32. -/
theorem swapoff_beyond_bitmap : Reachable (· = System.start) SwapStep ⟨twoDevices, ∅, 2⟩ ∧
    ∃ d ∈ twoDevices.swtailq, d.swNblks = 32 ∧ fillCalls d = [0, 32, 64] :=
  ⟨twoDevices_reachable, _, List.mem_cons_of_mem _ List.mem_cons_self, rfl, rfl⟩

end FreeBSDSys.Swap
