import Mathlib.Tactic

/-!
# The BPF interpreter and its checker

Models of `bpf_filter` and `bpf_validate` (`sys/net/bpf_filter.c`) over the
instruction set of `sys/net/bpf.h`.

The program is a list of instructions and `pc` an index into it, so that a
fetch outside the program, an access outside `mem[]` and a division by zero
are outcomes of their own (`Fault`). `u_int32_t` is `BitVec 32`. A shift of a
32-bit register takes its count modulo 32, as the i386 does.
-/

namespace FreeBSD.Bpf

/-! ## Instructions -/

/-- `struct bpf_insn` (`bpf.h`, lines 331–336). -/
structure BpfInsn where
  code : BitVec 16
  jt : BitVec 8
  jf : BitVec 8
  k : BitVec 32
  deriving DecidableEq, Repr

/-- `BPF_MEMWORDS` (`bpf.h`, line 377). -/
def bpfMemwords : ℕ := 16

/-! The instruction classes and fields (`bpf.h`, lines 276–326). -/

def bpfLd : BitVec 16 := 0x00
def bpfLdx : BitVec 16 := 0x01
def bpfSt : BitVec 16 := 0x02
def bpfStx : BitVec 16 := 0x03
def bpfAlu : BitVec 16 := 0x04
def bpfJmp : BitVec 16 := 0x05
def bpfRet : BitVec 16 := 0x06
def bpfMisc : BitVec 16 := 0x07

def bpfW : BitVec 16 := 0x00
def bpfH : BitVec 16 := 0x08
def bpfB : BitVec 16 := 0x10
def bpfImm : BitVec 16 := 0x00
def bpfAbs : BitVec 16 := 0x20
def bpfInd : BitVec 16 := 0x40
def bpfMem : BitVec 16 := 0x60
def bpfLen : BitVec 16 := 0x80
def bpfMsh : BitVec 16 := 0xa0

def bpfAdd : BitVec 16 := 0x00
def bpfSub : BitVec 16 := 0x10
def bpfMul : BitVec 16 := 0x20
def bpfDiv : BitVec 16 := 0x30
def bpfOr : BitVec 16 := 0x40
def bpfAnd : BitVec 16 := 0x50
def bpfLsh : BitVec 16 := 0x60
def bpfRsh : BitVec 16 := 0x70
def bpfNeg : BitVec 16 := 0x80
def bpfJa : BitVec 16 := 0x00
def bpfJeq : BitVec 16 := 0x10
def bpfJgt : BitVec 16 := 0x20
def bpfJge : BitVec 16 := 0x30
def bpfJset : BitVec 16 := 0x40
def bpfK : BitVec 16 := 0x00
def bpfX : BitVec 16 := 0x08
def bpfA : BitVec 16 := 0x10
def bpfTax : BitVec 16 := 0x00
def bpfTxa : BitVec 16 := 0x80

/-- `BPF_CLASS(code)`. -/
def bpfClass (code : BitVec 16) : BitVec 16 := code &&& 0x07

/-- `BPF_OP(code)`. -/
def bpfOp (code : BitVec 16) : BitVec 16 := code &&& 0xf0

/-- The second operand of a jump or an arithmetic instruction: `BPF_K` or `BPF_X`. -/
inductive Src where
  | k | x
  deriving DecidableEq, Repr

/-- The tests of the conditional jumps. -/
inductive JmpOp where
  | jgt | jge | jeq | jset
  deriving DecidableEq, Repr

/-- The binary arithmetic operations. -/
inductive AluOp where
  | add | sub | mul | div | and | or | lsh | rsh
  deriving DecidableEq, Repr

/-- The `case` labels of the `switch` in `bpf_filter`. -/
inductive Opcode where
  | retK | retA
  | ldWAbs | ldHAbs | ldBAbs | ldWLen | ldxWLen | ldWInd | ldHInd | ldBInd | ldxMshB
  | ldImm | ldxImm | ldMem | ldxMem | st | stx
  | jmpJa | jmp (op : JmpOp) (src : Src)
  | alu (op : AluOp) (src : Src) | aluNeg
  | miscTax | miscTxa
  deriving DecidableEq, Repr

def Src.code : Src → BitVec 16
  | .k => bpfK
  | .x => bpfX

def JmpOp.code : JmpOp → BitVec 16
  | .jgt => bpfJgt
  | .jge => bpfJge
  | .jeq => bpfJeq
  | .jset => bpfJset

def AluOp.code : AluOp → BitVec 16
  | .add => bpfAdd
  | .sub => bpfSub
  | .mul => bpfMul
  | .div => bpfDiv
  | .and => bpfAnd
  | .or => bpfOr
  | .lsh => bpfLsh
  | .rsh => bpfRsh

/-- The constant of each `case` label. -/
def Opcode.code : Opcode → BitVec 16
  | .retK => bpfRet ||| bpfK
  | .retA => bpfRet ||| bpfA
  | .ldWAbs => bpfLd ||| bpfW ||| bpfAbs
  | .ldHAbs => bpfLd ||| bpfH ||| bpfAbs
  | .ldBAbs => bpfLd ||| bpfB ||| bpfAbs
  | .ldWLen => bpfLd ||| bpfW ||| bpfLen
  | .ldxWLen => bpfLdx ||| bpfW ||| bpfLen
  | .ldWInd => bpfLd ||| bpfW ||| bpfInd
  | .ldHInd => bpfLd ||| bpfH ||| bpfInd
  | .ldBInd => bpfLd ||| bpfB ||| bpfInd
  | .ldxMshB => bpfLdx ||| bpfMsh ||| bpfB
  | .ldImm => bpfLd ||| bpfImm
  | .ldxImm => bpfLdx ||| bpfImm
  | .ldMem => bpfLd ||| bpfMem
  | .ldxMem => bpfLdx ||| bpfMem
  | .st => bpfSt
  | .stx => bpfStx
  | .jmpJa => bpfJmp ||| bpfJa
  | .jmp op src => bpfJmp ||| op.code ||| src.code
  | .alu op src => bpfAlu ||| op.code ||| src.code
  | .aluNeg => bpfAlu ||| bpfNeg
  | .miscTax => bpfMisc ||| bpfTax
  | .miscTxa => bpfMisc ||| bpfTxa

def Src.all : List Src := [.k, .x]

def JmpOp.all : List JmpOp := [.jgt, .jge, .jeq, .jset]

def AluOp.all : List AluOp := [.add, .sub, .mul, .div, .and, .or, .lsh, .rsh]

/-- Every `case` label. -/
def Opcode.all : List Opcode :=
  [.retK, .retA, .ldWAbs, .ldHAbs, .ldBAbs, .ldWLen, .ldxWLen, .ldWInd, .ldHInd, .ldBInd,
    .ldxMshB, .ldImm, .ldxImm, .ldMem, .ldxMem, .st, .stx, .jmpJa] ++
  Src.all.flatMap (fun s => JmpOp.all.map (.jmp · s)) ++
  Src.all.flatMap (fun s => AluOp.all.map (.alu · s)) ++ [.aluNeg, .miscTax, .miscTxa]

/-- The `case` that `switch (pc->code)` selects, `none` for `default`. -/
def opcode (code : BitVec 16) : Option Opcode := Opcode.all.find? fun o => o.code = code

theorem code_of_opcode {code : BitVec 16} {o : Opcode} (h : opcode code = some o) :
    o.code = code := by
  simpa using List.find?_some h

/-! ## Packets -/

/-- The fields of `struct mbuf` that the loads read: `m_len` and the bytes at `mtod(m)`. -/
structure Mbuf where
  mLen : ℕ
  mData : ℕ → BitVec 8

/-- The argument `p` of `bpf_filter`: a buffer when `buflen ≠ 0`, otherwise the
    first mbuf of a chain, with the mbufs that `m_next` leads to. -/
structure Packet where
  bytes : ℕ → BitVec 8
  mbuf : Mbuf
  next : List Mbuf

/-- `EXTRACT_LONG` (lines 57–61) of four bytes in packet order. -/
def extractLong (b0 b1 b2 b3 : BitVec 8) : BitVec 32 :=
  (b0.setWidth 32 <<< 24) ||| (b1.setWidth 32 <<< 16) ||| (b2.setWidth 32 <<< 8) |||
    b3.setWidth 32

/-- `EXTRACT_SHORT` (lines 53–56) of two bytes in packet order. -/
def extractShort (b0 b1 : BitVec 8) : BitVec 16 :=
  (b0.setWidth 16 <<< 8) ||| b1.setWidth 16

/-- `MINDEX` (lines 73–84), also the first loop of `m_xword` and of `m_xhalf`: the
    mbuf that holds offset `k`, the mbufs after it and the offset in it. -/
def mIndex : Mbuf → List Mbuf → ℕ → Option (Mbuf × List Mbuf × ℕ)
  | m, [], k => if k ≥ m.mLen then none else some (m, [], k)
  | m, m' :: next, k =>
    if k ≥ m.mLen then mIndex m' next (k - m.mLen) else some (m, m' :: next, k)

/-- `m_xword` (lines 89–143): the word and `*err`. -/
def mXword (m : Mbuf) (next : List Mbuf) (k : ℕ) : BitVec 32 × Bool :=
  match mIndex m next k with
  | none => (0, true)
  | some (m, next, k) =>
    let cp := fun i => m.mData (k + i)
    if m.mLen - k ≥ 4 then (extractLong (cp 0) (cp 1) (cp 2) (cp 3), false)
    else
      match next with
      | [] => (0, true)
      | m0 :: _ =>
        if m0.mLen + m.mLen - k < 4 then (0, true)
        else
          let np := m0.mData
          match m.mLen - k with
          | 1 => (extractLong (cp 0) (np 0) (np 1) (np 2), false)
          | 2 => (extractLong (cp 0) (cp 1) (np 0) (np 1), false)
          | _ => (extractLong (cp 0) (cp 1) (cp 2) (np 0), false)

/-- `m_xhalf` (lines 145–176): the half word and `*err`. -/
def mXhalf (m : Mbuf) (next : List Mbuf) (k : ℕ) : BitVec 16 × Bool :=
  match mIndex m next k with
  | none => (0, true)
  | some (m, next, k) =>
    if m.mLen - k ≥ 2 then (extractShort (m.mData k) (m.mData (k + 1)), false)
    else
      match next with
      | [] => (0, true)
      | m0 :: _ => (extractShort (m.mData k) (m0.mData 0), false)

/-! ## Packet loads

Each load form of the interpreter, as the value it puts into its register or
`none` where it executes `return 0`. -/

section Loads

variable (p : Packet) (buflen : BitVec 32)

/-- The word at `p + k`. -/
def Packet.word (k : BitVec 32) : BitVec 32 :=
  extractLong (p.bytes k.toNat) (p.bytes (k.toNat + 1)) (p.bytes (k.toNat + 2))
    (p.bytes (k.toNat + 3))

/-- The half word at `p + k`. -/
def Packet.half (k : BitVec 32) : BitVec 16 :=
  extractShort (p.bytes k.toNat) (p.bytes (k.toNat + 1))

/-- `A = m_xword(p, k, &merr); if (merr != 0) return 0;` -/
def Packet.mWord (k : BitVec 32) : Option (BitVec 32) :=
  let (v, merr) := mXword p.mbuf p.next k.toNat
  if merr then none else some v

/-- `MINDEX(m, k);` and the byte it finds. -/
def Packet.mByte (k : BitVec 32) : Option (BitVec 8) :=
  (mIndex p.mbuf p.next k.toNat).map fun r => r.1.mData r.2.2

/-- `BPF_LD|BPF_W|BPF_ABS` (lines 218–242). -/
def ldWAbs (k : BitVec 32) : Option (BitVec 32) :=
  if k > buflen ∨ 4 > buflen - k then
    if buflen ≠ 0 then none else p.mWord k
  else some (p.word k)

/-- `BPF_LD|BPF_H|BPF_ABS` (lines 244–260): `merr` is not looked at. -/
def ldHAbs (k : BitVec 32) : Option (BitVec 32) :=
  if k > buflen ∨ 2 > buflen - k then
    if buflen ≠ 0 then none else some ((mXhalf p.mbuf p.next k.toNat).1.setWidth 32)
  else some ((p.half k).setWidth 32)

/-- `BPF_LD|BPF_B|BPF_ABS` (lines 262–279). -/
def ldBAbs (k : BitVec 32) : Option (BitVec 32) :=
  if k ≥ buflen then
    if buflen ≠ 0 then none else (p.mByte k).map (·.setWidth 32)
  else some ((p.bytes k.toNat).setWidth 32)

/-- `BPF_LD|BPF_W|BPF_IND` (lines 289–314), with `k = X + pc->k`. -/
def ldWInd (x pk : BitVec 32) : Option (BitVec 32) :=
  let k := x + pk
  if pk > buflen ∨ x > buflen - pk ∨ 4 > buflen - k then
    if buflen ≠ 0 then none else p.mWord k
  else some (p.word k)

/-- `BPF_LD|BPF_H|BPF_IND` (lines 316–335). -/
def ldHInd (x pk : BitVec 32) : Option (BitVec 32) :=
  let k := x + pk
  if x > buflen ∨ pk > buflen - x ∨ 2 > buflen - k then
    if buflen ≠ 0 then none
    else
      let (v, merr) := mXhalf p.mbuf p.next k.toNat
      if merr then none else some (v.setWidth 32)
  else some ((p.half k).setWidth 32)

/-- `BPF_LD|BPF_B|BPF_IND` (lines 337–354): the byte of an mbuf is read as a `char`. -/
def ldBInd (x pk : BitVec 32) : Option (BitVec 32) :=
  let k := x + pk
  if pk ≥ buflen ∨ x ≥ buflen - pk then
    if buflen ≠ 0 then none else (p.mByte k).map (·.signExtend 32)
  else some ((p.bytes k.toNat).setWidth 32)

/-- `BPF_LDX|BPF_MSH|BPF_B` (lines 356–373). -/
def ldxMshB (k : BitVec 32) : Option (BitVec 32) :=
  if k ≥ buflen then
    if buflen ≠ 0 then none
    else (p.mByte k).map fun b => (b.signExtend 32 &&& 0xf#32) <<< 2
  else some (((p.bytes k.toNat).setWidth 32 &&& 0xf#32) <<< 2)

end Loads

/-! ## The interpreter -/

/-- What the checker is there to exclude. -/
inductive Fault where
  /-- `*pc` is read at an index outside the program. -/
  | fetch (pc : ℕ)
  /-- `mem[k]` is accessed at an index outside the array. -/
  | mem (k : BitVec 32)
  /-- A division by zero. -/
  | div
  deriving DecidableEq, Repr

/-- The local variables of `bpf_filter`. -/
structure State where
  pc : ℕ
  a : BitVec 32
  x : BitVec 32
  mem : Fin bpfMemwords → BitVec 32

/-- What the interpreter is left with: a state to go on from, the returned value, or a fault. -/
inductive Outcome where
  | next (st : State)
  | ret (v : BitVec 32)
  | fault (e : Fault)

namespace State

/-- `continue`, which goes on at the next instruction. -/
def advance (st : State) : State := { st with pc := st.pc + 1 }

/-- `pc += off; continue`. -/
def jump (st : State) (off : ℕ) : State := { st with pc := st.pc + off + 1 }

def setA (st : State) (v : BitVec 32) : State := { st with a := v }

def setX (st : State) (v : BitVec 32) : State := { st with x := v }

/-- A load into `A`, or `return 0`. -/
def loadA (st : State) : Option (BitVec 32) → Outcome
  | some v => .next (st.setA v).advance
  | none => .ret 0

/-- A load into `X`, or `return 0`. -/
def loadX (st : State) : Option (BitVec 32) → Outcome
  | some v => .next (st.setX v).advance
  | none => .ret 0

/-- The operand `pc->k` or `X`. -/
def operand (st : State) (k : BitVec 32) : Src → BitVec 32
  | .k => k
  | .x => st.x

end State

/-- An access to `mem[k]`. -/
def accessMem (k : BitVec 32) (act : Fin bpfMemwords → State) : Outcome :=
  if h : k.toNat < bpfMemwords then .next (act ⟨k.toNat, h⟩).advance else .fault (.mem k)

/-- The tests of the conditional jumps (lines 403–433). -/
def JmpOp.test : JmpOp → BitVec 32 → BitVec 32 → Bool
  | .jgt, a, b => decide (a > b)
  | .jge, a, b => decide (a ≥ b)
  | .jeq, a, b => decide (a = b)
  | .jset, a, b => decide (a &&& b ≠ 0)

/-- The arithmetic operations other than division (lines 435–497). -/
def AluOp.eval : AluOp → BitVec 32 → BitVec 32 → BitVec 32
  | .add, a, b => a + b
  | .sub, a, b => a - b
  | .mul, a, b => a * b
  | .div, a, b => a / b
  | .and, a, b => a &&& b
  | .or, a, b => a ||| b
  | .lsh, a, b => a <<< (b.toNat % 32)
  | .rsh, a, b => a >>> (b.toNat % 32)

/-- The arithmetic instructions (lines 435–497): `BPF_DIV|BPF_X` tests the
    divisor, `BPF_DIV|BPF_K` relies on the checker. -/
def alu (st : State) (k : BitVec 32) (op : AluOp) (src : Src) : Outcome :=
  let b := st.operand k src
  match op, src with
  | .div, .x => if b = 0 then .ret 0 else .next (st.setA (op.eval st.a b)).advance
  | .div, .k => if b = 0 then .fault .div else .next (st.setA (op.eval st.a b)).advance
  | _, _ => .next (st.setA (op.eval st.a b)).advance

/-- The statements of each `case` (lines 212–505). -/
def exec (p : Packet) (wirelen buflen : BitVec 32) (st : State) (insn : BpfInsn) :
    Opcode → Outcome
  | .retK => .ret insn.k
  | .retA => .ret st.a
  | .ldWAbs => st.loadA (ldWAbs p buflen insn.k)
  | .ldHAbs => st.loadA (ldHAbs p buflen insn.k)
  | .ldBAbs => st.loadA (ldBAbs p buflen insn.k)
  | .ldWLen => .next (st.setA wirelen).advance
  | .ldxWLen => .next (st.setX wirelen).advance
  | .ldWInd => st.loadA (ldWInd p buflen st.x insn.k)
  | .ldHInd => st.loadA (ldHInd p buflen st.x insn.k)
  | .ldBInd => st.loadA (ldBInd p buflen st.x insn.k)
  | .ldxMshB => st.loadX (ldxMshB p buflen insn.k)
  | .ldImm => .next (st.setA insn.k).advance
  | .ldxImm => .next (st.setX insn.k).advance
  | .ldMem => accessMem insn.k fun i => st.setA (st.mem i)
  | .ldxMem => accessMem insn.k fun i => st.setX (st.mem i)
  | .st => accessMem insn.k fun i => { st with mem := Function.update st.mem i st.a }
  | .stx => accessMem insn.k fun i => { st with mem := Function.update st.mem i st.x }
  | .jmpJa => .next (st.jump insn.k.toNat)
  | .jmp op src =>
    .next (st.jump (if op.test st.a (st.operand insn.k src) then insn.jt else insn.jf).toNat)
  | .alu op src => alu st insn.k op src
  | .aluNeg => .next (st.setA (-st.a)).advance
  | .miscTax => .next (st.setX st.a).advance
  | .miscTxa => .next (st.setA st.x).advance

/-- One round of the `while (1)` loop of `bpf_filter`. -/
def step (f : List BpfInsn) (p : Packet) (wirelen buflen : BitVec 32) (st : State) : Outcome :=
  match f[st.pc]? with
  | none => .fault (.fetch st.pc)
  | some insn =>
    match opcode insn.code with
    | none => .ret 0
    | some o => exec p wirelen buflen st insn o

/-- At most `n` rounds of the loop. -/
def run (f : List BpfInsn) (p : Packet) (wirelen buflen : BitVec 32) : ℕ → State → Outcome
  | 0, st => .next st
  | n + 1, st =>
    match step f p wirelen buflen st with
    | .next st' => run f p wirelen buflen n st'
    | o => o

/-- The state before the loop: `mem[]` is whatever the stack holds. -/
def init (mem : Fin bpfMemwords → BitVec 32) : State := { pc := 0, a := 0, x := 0, mem := mem }

/-- `bpf_filter` (lines 184–508) executing at most `n` instructions; no filter means accept all. -/
def bpfFilter (pc : Option (List BpfInsn)) (p : Packet) (wirelen buflen : BitVec 32)
    (mem : Fin bpfMemwords → BitVec 32) (n : ℕ) : Outcome :=
  match pc with
  | none => .ret (-1)
  | some f => run f p wirelen buflen n (init mem)

/-! ## The checker -/

/-- The loop body of `bpf_validate` (lines 527–556) at index `i`: whether it gets past every
    `return 0`. -/
def bpfCheck (len i : ℕ) (p : BpfInsn) : Bool :=
  (if bpfClass p.code = bpfJmp then
    if bpfOp p.code = bpfJa then !(i + 1 ≥ len || p.k.toNat ≥ len - (i + 1))
    else !(i + 1 ≥ len || p.jt.toNat ≥ len - (i + 1) || p.jf.toNat ≥ len - (i + 1))
  else true) &&
  !((bpfClass p.code = bpfSt ||
      (bpfClass p.code = bpfLd && p.code &&& 0xe0 = bpfMem)) &&
    p.k.toNat ≥ bpfMemwords) &&
  !(p.code = bpfAlu ||| bpfDiv ||| bpfK && p.k = 0)

/-- `bpf_validate` (lines 519–559) on a program of at least one instruction. -/
def bpfValidate (f : List BpfInsn) : Bool :=
  f.zipIdx.all (fun q => bpfCheck f.length q.2 q.1) &&
    (f.getLast?.map (bpfClass ·.code) = some bpfRet)

theorem bpfCheck_of_validate {f : List BpfInsn} (h : bpfValidate f = true) {i : ℕ}
    {insn : BpfInsn} (hi : f[i]? = some insn) : bpfCheck f.length i insn = true := by
  simp only [bpfValidate, Bool.and_eq_true, List.all_eq_true] at h
  exact h.1 (insn, i) (List.mem_zipIdx_iff_getElem?.2 hi)

theorem class_last_of_validate {f : List BpfInsn} (h : bpfValidate f = true) {insn : BpfInsn}
    (hi : f[f.length - 1]? = some insn) : bpfClass insn.code = bpfRet := by
  simp only [bpfValidate, Bool.and_eq_true, decide_eq_true_eq, List.getLast?_eq_getElem?] at h
  simpa [hi] using h.2

end FreeBSD.Bpf
