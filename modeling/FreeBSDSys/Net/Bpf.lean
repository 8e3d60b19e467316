import FreeBSDSys.Lib.Interp

/-!
# The packet filter: instructions, interpreter and validator

`bpf_filter` interprets a filter program over a packet that is either one flat buffer or, when the
length given is zero, a chain of mbufs.  `bpf_validate` decides which programs a user may install.
This file embeds both, with the opcode values of `bpf.h`.

The interpreter is a one-step function.  Besides the value returned, a step can stop at the
`default` label of the `switch`, or with a *fault*: an instruction fetched outside the program, a
scratch index outside `mem[]`, a division by zero, a byte read outside the data it is read from, or
a flat buffer taken for an mbuf.  The C code has no such checks; a fault stands for its undefined
behaviour.

* `Op`, `opcodes`, `decode`: the `case` labels of the interpreter's `switch`, in its order.
* `mIndex`, `mXword`, `mXhalf`: the accesses to a chain.
* `exec`, `step`, `bpfFilter`: the interpreter.
* `bpfCodeMap`, `checkInsn`, `bpfValidate`: the validator.

A shift by 32 or more is undefined in C; the machines shift by the count modulo 32, as here.
-/

namespace FreeBSDSys.Bpf

abbrev Byte := BitVec 8
abbrev Word := BitVec 32

/-! ## Opcodes -/

def bpfLd : ℕ := 0x00
def bpfLdx : ℕ := 0x01
def bpfSt : ℕ := 0x02
def bpfStx : ℕ := 0x03
def bpfAlu : ℕ := 0x04
def bpfJmp : ℕ := 0x05
def bpfRet : ℕ := 0x06
def bpfMisc : ℕ := 0x07

def bpfW : ℕ := 0x00
def bpfH : ℕ := 0x08
def bpfB : ℕ := 0x10

def bpfImm : ℕ := 0x00
def bpfAbs : ℕ := 0x20
def bpfInd : ℕ := 0x40
def bpfMem : ℕ := 0x60
def bpfLen : ℕ := 0x80
def bpfMsh : ℕ := 0xa0

def bpfAdd : ℕ := 0x00
def bpfSub : ℕ := 0x10
def bpfMul : ℕ := 0x20
def bpfDiv : ℕ := 0x30
def bpfOr : ℕ := 0x40
def bpfAnd : ℕ := 0x50
def bpfLsh : ℕ := 0x60
def bpfRsh : ℕ := 0x70
def bpfNeg : ℕ := 0x80

def bpfJa : ℕ := 0x00
def bpfJeq : ℕ := 0x10
def bpfJgt : ℕ := 0x20
def bpfJge : ℕ := 0x30
def bpfJset : ℕ := 0x40

def bpfK : ℕ := 0x00
def bpfX : ℕ := 0x08
def bpfA : ℕ := 0x10

def bpfTax : ℕ := 0x00
def bpfTxa : ℕ := 0x80

def bpfMemwords : ℕ := 16

/-- `BPF_CLASS`. -/
def bpfClass (code : ℕ) : ℕ := code &&& 0x07

/-- The width of a packet load. -/
inductive Size
  | w
  | h
  | b
  deriving DecidableEq, Repr

/-- The second operand: the instruction's constant or the index register. -/
inductive Src
  | k
  | x
  deriving DecidableEq, Repr

inductive Cmp
  | jgt
  | jge
  | jeq
  | jset
  deriving DecidableEq, Repr

inductive Alu
  | add
  | sub
  | mul
  | div
  | and
  | or
  | lsh
  | rsh
  deriving DecidableEq, Repr

/-- The operations, one for each `case` of the interpreter. -/
inductive Op
  | retK
  | retA
  | ldAbs (size : Size)
  | ldLen
  | ldxLen
  | ldInd (size : Size)
  | ldxMsh
  | ldImm
  | ldxImm
  | ldMem
  | ldxMem
  | st
  | stx
  | ja
  | jmp (cmp : Cmp) (src : Src)
  | alu (alu : Alu) (src : Src)
  | neg
  | tax
  | txa
  deriving DecidableEq, Repr

/-- The `case` labels of `bpf_filter` in the order of the source. -/
def opcodes : List (ℕ × Op) :=
  [ (bpfRet ||| bpfK, .retK), (bpfRet ||| bpfA, .retA), (bpfLd ||| bpfW ||| bpfAbs, .ldAbs .w),
    (bpfLd ||| bpfH ||| bpfAbs, .ldAbs .h),
    (bpfLd ||| bpfB ||| bpfAbs, .ldAbs .b),
    (bpfLd ||| bpfW ||| bpfLen, .ldLen),
    (bpfLdx ||| bpfW ||| bpfLen, .ldxLen),
    (bpfLd ||| bpfW ||| bpfInd, .ldInd .w),
    (bpfLd ||| bpfH ||| bpfInd, .ldInd .h),
    (bpfLd ||| bpfB ||| bpfInd, .ldInd .b),
    (bpfLdx ||| bpfMsh ||| bpfB, .ldxMsh),
    (bpfLd ||| bpfImm, .ldImm),
    (bpfLdx ||| bpfImm, .ldxImm),
    (bpfLd ||| bpfMem, .ldMem),
    (bpfLdx ||| bpfMem, .ldxMem),
    (bpfSt, .st),
    (bpfStx, .stx),
    (bpfJmp ||| bpfJa, .ja),
    (bpfJmp ||| bpfJgt ||| bpfK, .jmp .jgt .k),
    (bpfJmp ||| bpfJge ||| bpfK, .jmp .jge .k),
    (bpfJmp ||| bpfJeq ||| bpfK, .jmp .jeq .k),
    (bpfJmp ||| bpfJset ||| bpfK, .jmp .jset .k),
    (bpfJmp ||| bpfJgt ||| bpfX, .jmp .jgt .x),
    (bpfJmp ||| bpfJge ||| bpfX, .jmp .jge .x),
    (bpfJmp ||| bpfJeq ||| bpfX, .jmp .jeq .x),
    (bpfJmp ||| bpfJset ||| bpfX, .jmp .jset .x),
    (bpfAlu ||| bpfAdd ||| bpfX, .alu .add .x),
    (bpfAlu ||| bpfSub ||| bpfX, .alu .sub .x),
    (bpfAlu ||| bpfMul ||| bpfX, .alu .mul .x),
    (bpfAlu ||| bpfDiv ||| bpfX, .alu .div .x),
    (bpfAlu ||| bpfAnd ||| bpfX, .alu .and .x),
    (bpfAlu ||| bpfOr ||| bpfX, .alu .or .x),
    (bpfAlu ||| bpfLsh ||| bpfX, .alu .lsh .x),
    (bpfAlu ||| bpfRsh ||| bpfX, .alu .rsh .x),
    (bpfAlu ||| bpfAdd ||| bpfK, .alu .add .k),
    (bpfAlu ||| bpfSub ||| bpfK, .alu .sub .k),
    (bpfAlu ||| bpfMul ||| bpfK, .alu .mul .k),
    (bpfAlu ||| bpfDiv ||| bpfK, .alu .div .k),
    (bpfAlu ||| bpfAnd ||| bpfK, .alu .and .k),
    (bpfAlu ||| bpfOr ||| bpfK, .alu .or .k),
    (bpfAlu ||| bpfLsh ||| bpfK, .alu .lsh .k),
    (bpfAlu ||| bpfRsh ||| bpfK, .alu .rsh .k),
    (bpfAlu ||| bpfNeg, .neg),
    (bpfMisc ||| bpfTax, .tax),
    (bpfMisc ||| bpfTxa, .txa) ]

/-- The `switch`: the operation of a code, or `none` for the `default` label. -/
def decode (code : ℕ) : Option Op :=
  opcodes.lookup code

/-- `struct bpf_insn`. -/
structure Insn where
  code : BitVec 16
  jt : BitVec 8
  jf : BitVec 8
  k : Word
  deriving DecidableEq, Repr

/-- `BPF_STMT`, the initialiser of an instruction without jump offsets. -/
def bpfStmt (code : ℕ) (k : Word) : Insn :=
  ⟨BitVec.ofNat 16 code, 0, 0, k⟩

/-! ## Outcomes -/

/-- What undefined behaviour is met. -/
inductive Fault
  | pc
  | scratch
  | divByZero
  | packet
  | notMbuf
  deriving DecidableEq, Repr

/-- How a run stops: with a returned value, at the `default` label, or with a fault. -/
inductive Stop
  | ret (value : Word)
  | dflt
  | fault (fault : Fault)
  deriving DecidableEq, Repr

/-! ## Packets -/

/-- An mbuf `m` of a chain: its data (`m_len` bytes) and the data of the mbufs after it. -/
structure Mbuf where
  data : List Byte
  next : List (List Byte)
  deriving DecidableEq, Repr

/-- All bytes of a chain, in order. -/
def Mbuf.bytes (m : Mbuf) : List Byte := m.data ++ m.next.flatten

/-- The pointer `p`: to a flat buffer or to the first mbuf of a chain. -/
inductive Packet
  | flat (bytes : List Byte)
  | chain (m : Mbuf)
  deriving DecidableEq, Repr

/-- The argument `buflen`: the number of bytes of a flat buffer, and zero for a chain. -/
def Packet.buflen : Packet → Word
  | .flat bytes => BitVec.ofNat 32 bytes.length
  | .chain _ => 0

/-- The cast `(struct mbuf *)p`. -/
def Packet.mbuf : Packet → Except Stop Mbuf
  | .flat _ => .error (.fault .notMbuf)
  | .chain m => .ok m

/-- The bytes `p` points to. -/
def Packet.data : Packet → Except Stop (List Byte)
  | .flat bytes => .ok bytes
  | .chain _ => .error (.fault .packet)

def byteAt (d : List Byte) (k : ℕ) : Except Stop Byte :=
  match d[k]? with
  | some b => .ok b
  | none => .error (.fault .packet)

def word (b₀ b₁ b₂ b₃ : Byte) : Word :=
  (b₀.setWidth 32 <<< 24) ||| (b₁.setWidth 32 <<< 16) ||| (b₂.setWidth 32 <<< 8) ||| b₃.setWidth 32

def half (b₀ b₁ : Byte) : Word :=
  (b₀.setWidth 32 <<< 8) ||| b₁.setWidth 32

/-- `EXTRACT_LONG`; an aligned word is read at once and put in host order, which is the same. -/
def extractLong (d : List Byte) (k : ℕ) : Except Stop Word := do
  return word (← byteAt d k) (← byteAt d (k + 1)) (← byteAt d (k + 2)) (← byteAt d (k + 3))

/-- `EXTRACT_SHORT`. -/
def extractShort (d : List Byte) (k : ℕ) : Except Stop Word := do
  return half (← byteAt d k) (← byteAt d (k + 1))

/-- The walk at the head of `MINDEX`, `m_xword` and `m_xhalf`: the mbuf that holds offset `k` and
the offset within it, or `none` if the chain ends before. -/
def mIndex : List Byte → List (List Byte) → ℕ → Option (Mbuf × ℕ)
  | d, [], k => if k ≥ d.length then none else some (⟨d, []⟩, k)
  | d, d' :: next, k =>
    if k ≥ d.length then mIndex d' next (k - d.length) else some (⟨d, d' :: next⟩, k)

/-- `m_xword`: the word and the error flag stored through `err`. -/
def mXword (m : Mbuf) (k : ℕ) : Except Stop (Word × Bool) :=
  match mIndex m.data m.next k with
  | none => .ok (0, true)
  | some (m, k) =>
    let len := m.data.length
    if len - k ≥ 4 then do
      return (← extractLong m.data k, false)
    else
      match m.next with
      | [] => .ok (0, true)
      | np :: _ =>
        if np.length + len - k < 4 then
          .ok (0, true)
        else
          match len - k with
          | 1 => do
            return (word (← byteAt m.data k) (← byteAt np 0) (← byteAt np 1) (← byteAt np 2), false)
          | 2 => do
            return (word (← byteAt m.data k) (← byteAt m.data (k + 1)) (← byteAt np 0)
              (← byteAt np 1), false)
          | _ => do
            return (word (← byteAt m.data k) (← byteAt m.data (k + 1)) (← byteAt m.data (k + 2))
              (← byteAt np 0), false)

/-- `m_xhalf`.  The length of the next mbuf is not looked at. -/
def mXhalf (m : Mbuf) (k : ℕ) : Except Stop (Word × Bool) :=
  match mIndex m.data m.next k with
  | none => .ok (0, true)
  | some (m, k) =>
    let len := m.data.length
    if len - k ≥ 2 then do
      return (← extractShort m.data k, false)
    else
      match m.next with
      | [] => .ok (0, true)
      | np :: _ => do return (half (← byteAt m.data k) (← byteAt np 0), false)

/-- `MINDEX` followed by the read of one byte. -/
def mByte (m : Mbuf) (k : ℕ) : Except Stop Word :=
  match mIndex m.data m.next k with
  | none => .error (.ret 0)
  | some (m, k) => do return (← byteAt m.data k).setWidth 32

/-! ## Packet loads -/

/-- The frame of all packet loads: `inside` is the outcome of the test whether the flat buffer holds
what is asked for.  If it does not, a flat buffer makes the filter return 0, and a buffer of length
zero is taken for a chain. -/
def access (p : Packet) (inside : Bool) (onFlat : List Byte → Except Stop Word)
    (onChain : Mbuf → Except Stop Word) : Except Stop Word :=
  if inside then do
    onFlat (← p.data)
  else if p.buflen ≠ 0 then
    .error (.ret 0)
  else do
    onChain (← p.mbuf)

def loadWord (p : Packet) (inside : Bool) (k : Word) : Except Stop Word :=
  access p inside (extractLong · k.toNat) fun m => do
    let (a, merr) ← mXword m k.toNat
    if merr then .error (.ret 0) else return a

/-- The half-word load; `checked` says whether `merr` is looked at after the access to a chain,
which `BPF_LD|BPF_H|BPF_ABS` does not do. -/
def loadHalf (p : Packet) (inside checked : Bool) (k : Word) : Except Stop Word :=
  access p inside (extractShort · k.toNat) fun m => do
    let (a, merr) ← mXhalf m k.toNat
    if checked && merr then .error (.ret 0) else return a

def loadByte (p : Packet) (inside : Bool) (k : Word) : Except Stop Word :=
  access p inside (fun d => do return (← byteAt d k.toNat).setWidth 32) (mByte · k.toNat)

/-- The `BPF_ABS` loads. -/
def loadAbs (p : Packet) (k : Word) : Size → Except Stop Word
  | .w => loadWord p (!(k > p.buflen || 4 > p.buflen - k)) k
  | .h => loadHalf p (!(k > p.buflen || 2 > p.buflen - k)) false k
  | .b => loadByte p (!(k ≥ p.buflen)) k

/-- The `BPF_IND` loads at `X + k`. -/
def loadInd (p : Packet) (x k : Word) : Size → Except Stop Word
  | .w => loadWord p (!(k > p.buflen || x > p.buflen - k || 4 > p.buflen - (x + k))) (x + k)
  | .h => loadHalf p (!(x > p.buflen || k > p.buflen - x || 2 > p.buflen - (x + k))) true (x + k)
  | .b => loadByte p (!(k ≥ p.buflen || x ≥ p.buflen - k)) (x + k)

/-! ## The interpreter -/

/-- The state at the head of the loop: the index of the instruction to execute, the two registers
and the scratch memory. -/
structure Vm where
  pc : ℕ
  a : Word
  x : Word
  mem : Fin bpfMemwords → Word

/-- The state at entry; the scratch memory is not initialised. -/
def Vm.init (mem : Fin bpfMemwords → Word) : Vm := ⟨0, 0, 0, mem⟩

/-- `A = v; continue`. -/
def Vm.setA (s : Vm) (v : Word) : Vm := { s with pc := s.pc + 1, a := v }

/-- `X = v; continue`. -/
def Vm.setX (s : Vm) (v : Word) : Vm := { s with pc := s.pc + 1, x := v }

/-- `pc += off; continue`. -/
def Vm.jump (s : Vm) (off : ℕ) : Vm := { s with pc := s.pc + off + 1 }

/-- `mem[k]`. -/
def Vm.load (s : Vm) (k : Word) : Except Stop Word :=
  if h : k.toNat < bpfMemwords then .ok (s.mem ⟨k.toNat, h⟩) else .error (.fault .scratch)

/-- `mem[k] = v; continue`. -/
def Vm.store (s : Vm) (k v : Word) : Except Stop Vm :=
  if h : k.toNat < bpfMemwords then
    .ok { s with pc := s.pc + 1, mem := Function.update s.mem ⟨k.toNat, h⟩ v }
  else
    .error (.fault .scratch)

def Vm.operand (s : Vm) (k : Word) : Src → Word
  | .k => k
  | .x => s.x

def Cmp.holds (a b : Word) : Cmp → Bool
  | .jgt => a > b
  | .jge => a ≥ b
  | .jeq => a == b
  | .jset => a &&& b != 0

def Alu.apply (a b : Word) : Alu → Except Stop Word
  | .add => .ok (a + b)
  | .sub => .ok (a - b)
  | .mul => .ok (a * b)
  | .div => if b = 0 then .error (.fault .divByZero) else .ok (a / b)
  | .and => .ok (a &&& b)
  | .or => .ok (a ||| b)
  | .lsh => .ok (a <<< (b.toNat % 32))
  | .rsh => .ok (a >>> (b.toNat % 32))

/-- The body of the `switch` for instruction `i`. -/
def exec (p : Packet) (wirelen : Word) (i : Insn) (s : Vm) : Op → Except Stop Vm
  | .retK => .error (.ret i.k)
  | .retA => .error (.ret s.a)
  | .ldAbs size => do return s.setA (← loadAbs p i.k size)
  | .ldLen => .ok (s.setA wirelen)
  | .ldxLen => .ok (s.setX wirelen)
  | .ldInd size => do return s.setA (← loadInd p s.x i.k size)
  | .ldxMsh => do
    return s.setX (((← loadByte p (!(i.k ≥ p.buflen)) i.k) &&& 0xf) <<< 2)
  | .ldImm => .ok (s.setA i.k)
  | .ldxImm => .ok (s.setX i.k)
  | .ldMem => do return s.setA (← s.load i.k)
  | .ldxMem => do return s.setX (← s.load i.k)
  | .st => s.store i.k s.a
  | .stx => s.store i.k s.x
  | .ja => .ok (s.jump i.k.toNat)
  | .jmp cmp src =>
    .ok (s.jump (if cmp.holds s.a (s.operand i.k src) then i.jt.toNat else i.jf.toNat))
  | .alu alu src =>
    -- only a division by the index register is guarded
    if alu = .div ∧ src = .x ∧ s.x = 0 then
      .error (.ret 0)
    else do
      return s.setA (← alu.apply s.a (s.operand i.k src))
  | .neg => .ok (s.setA (-s.a))
  | .tax => .ok (s.setX s.a)
  | .txa => .ok (s.setA s.x)

/-- One round of the loop of `bpf_filter`. -/
def step (prog : List Insn) (p : Packet) (wirelen : Word) (s : Vm) : Except Stop Vm :=
  match prog[s.pc]? with
  | none => .error (.fault .pc)
  | some i =>
    match decode i.code.toNat with
    | none => .error .dflt
    | some op => exec p wirelen i s op

/-- `bpf_filter`, with at most `fuel` instructions executed; `mem` is what the scratch memory holds
at entry. -/
def bpfFilter (pc : Option (List Insn)) (p : Packet) (wirelen : Word)
    (mem : Fin bpfMemwords → Word) (fuel : ℕ) : Option Stop :=
  match pc with
  | none => some (.ret (BitVec.allOnes 32))
  | some prog => runFor (step prog p wirelen) fuel (Vm.init mem)

/-! ## The validator -/

def bpfCodeMap : List ℕ :=
  [ 0x10ff, 0x3070, 0x3131, 0x3031, 0x3131, 0x1011, 0x1013, 0x1010,
    0x0093, 0x0000, 0x0000, 0x0002, 0x0000, 0x0000, 0x0000, 0x0000 ]

/-- `BPF_VALIDATE_CODE`. -/
def bpfValidateCode (c : ℕ) : Bool :=
  c ≤ 0xff && (bpfCodeMap.getD (c >>> 4) 0 &&& (1 <<< (c &&& 0xf))) != 0

/-- The body of the loop of `bpf_validate` for the instruction at index `i`: `false` where the
source returns 0, `true` where it goes on. -/
def checkInsn (len i : ℕ) (p : Insn) : Bool :=
  let code := p.code.toNat
  if !bpfValidateCode code then
    false
  else if bpfClass code = bpfJmp then
    let offset := if code = (bpfJmp ||| bpfJa) then p.k.toNat
      else if p.jt > p.jf then p.jt.toNat else p.jf.toNat
    !(offset ≥ len - i - 1)
  else if code = bpfSt || code = bpfStx || code = (bpfLd ||| bpfMem) ||
      code = (bpfLdx ||| bpfMem) then
    !(p.k.toNat ≥ bpfMemwords)
  else
    !(code = (bpfAlu ||| bpfDiv ||| bpfK) && p.k = 0)

def checkFrom (len : ℕ) : ℕ → List Insn → Bool
  | _, [] => true
  | i, p :: f => checkInsn len i p && checkFrom len (i + 1) f

/-- `bpf_validate` on the program `f`, whose length is `len`. -/
def bpfValidate (f : List Insn) : Bool :=
  match f.getLast? with
  | none => true
  | some last => checkFrom f.length 0 f && bpfClass last.code.toNat = bpfRet

end FreeBSDSys.Bpf
