import FreeBSD.Net.IpFwRuns

/-!
# Pipes, queues and the rules that lead to them, `netinet/ip_dummynet.c`

A rule with a pipe or a queue as its action has the address of the flow set in the word behind the
action, once it has been looked up. Of a pipe and of a flow set there is what the search looks at:
numbers, addresses and, in a flow set, the pipe. The address of a pipe is that of its own flow set;
0 is the null pointer.

A function that returns with `DUMMYNET_LOCK` held leaves `locked`, and then none of the others can
run. The flow queues, the heaps and the packets that wait are no part of this.

Results:
* `Boundary.le_of_lt`: instructions do not overlap.
-/

namespace FreeBSD.IpFw2

open List Option

/-- `struct dn_pipe` and its flow set. -/
structure Pipe where
  pipe_nr : ℤ
  fs : Word
  deriving DecidableEq

/-- `struct dn_flow_set` of a queue. -/
structure FlowSet where
  fs_nr : BitVec 16
  addr : Word
  parent_nr : BitVec 16
  pipe : Option Word
  deriving DecidableEq

/-- The rules and the pipes. -/
structure Dn where
  chain : IpFwChain
  all_pipes : List Pipe
  all_flow_sets : List FlowSet
  locked : Bool

/-! ## The pointer of a rule -/

/-- The words of a rule. -/
def ownWord (fw : IpFw) (ofs : ℕ) : Word := fw.cmd[ofs]?.getD 0

/-- Where the action of a rule is, behind an `O_LOG` (lines 1057-1060). -/
def actOfs (fw : IpFw) : ℕ := actionOfs (ownWord fw) ⟨0, fw, none⟩

def actWord (fw : IpFw) : Word := ownWord fw (actOfs fw)

/-- `pipe_ptr`. -/
def pipePtr (fw : IpFw) : Word := ownWord fw (actOfs fw + 1)

def setWord (fw : IpFw) (ofs : ℕ) (v : Word) : IpFw := { fw with cmd := fw.cmd.set ofs v }

/-- One rule is written. -/
def setRule (rules : List Rule) (a : ℕ) (ofs : ℕ) (v : Word) : List Rule :=
  rules.map fun r => if r.addr = a then { r with fw := setWord r.fw ofs v } else r

/-- The test and the write of `flush_pipe_ptrs` for one rule (ip_fw2.c:2136-2148). -/
def flushPtr (m : Option Word) (fw : IpFw) : IpFw :=
  let ofs := fw.act_ofs.toNat
  if opcodeOf (ownWord fw ofs) ≠ some .O_PIPE ∧ opcodeOf (ownWord fw ofs) ≠ some .O_QUEUE then fw
  else if m = none ∨ m = some (ownWord fw (ofs + 1)) then setWord fw (ofs + 1) 0
  else fw

/-- `flush_pipe_ptrs` (ip_fw2.c:2129-2151). -/
def flushPipePtrs (d : Dn) (m : Option Word) : Dn :=
  { d with chain := { d.chain with
      rules := d.chain.rules.map fun r => { r with fw := flushPtr m r.fw } } }

/-- The search of `locate_flowset` (lines 1071-1085). -/
def findFlowset (d : Dn) (op : Option Opcode) (pipe_nr : ℕ) : Word :=
  if op = some .O_QUEUE then
    match d.all_flow_sets.find? fun fs => fs.fs_nr.toNat = pipe_nr with
    | some fs => fs.addr
    | none => 0
  else
    match d.all_pipes.find? fun p => p.pipe_nr = (pipe_nr : ℤ) with
    | some p => p.fs
    | none => 0

/-- `locate_flowset` (lines 1052-1098). -/
def locateFlowset (d : Dn) (pipe_nr : ℕ) (rule : Rule) : Dn × Word :=
  let fs := pipePtr rule.fw
  if fs ≠ 0 then (d, fs)
  else
    let fs := findFlowset d (opcodeOf (actWord rule.fw)) pipe_nr
    ({ d with chain := { d.chain with
        rules := setRule d.chain.rules rule.addr (actOfs rule.fw + 1) fs } }, fs)

/-- What becomes of a packet: it is not for a pipe or a queue, dropped, or given to a flow set. -/
inductive Io
  | pass
  | drop
  | flow (fs : Word)

/-- `dummynet_io` up to where it has a flow set and its pipe (lines 1117-1163). What it reads of a
    flow set that is no more is not known; the packet is given to it nonetheless. -/
def dummynetIo (d : Dn) (pipe_nr : ℕ) (rule : Rule) : Dn × Io :=
  let (d, fs) := locateFlowset d (pipe_nr % 2 ^ 16) rule
  if fs = 0 then (d, .drop)
  else
    match d.all_flow_sets.find? fun x => x.addr = fs with
    | none => (d, .flow fs)
    | some x =>
      match x.pipe with
      | some _ => (d, .flow fs)
      | none =>
        match d.all_pipes.find? fun p => p.pipe_nr = (x.parent_nr.toNat : ℤ) with
        | none => (d, .drop)
        | some p =>
          ({ d with all_flow_sets := d.all_flow_sets.map fun y =>
              if y.addr = fs then { y with pipe := some p.fs } else y }, .flow fs)

/-! ## Pipes and queues -/

/-- The place of a number in a list that is in the order of the numbers. -/
def insertBy {α : Type*} (nr : α → ℤ) (x : α) : List α → List α
  | [] => [x]
  | b :: l => if nr b < nr x then b :: insertBy nr x l else x :: b :: l

/-- The entry of a number, as it is looked for in the order of the numbers. -/
def locateBy {α : Type*} (nr : α → ℤ) (k : ℤ) : List α → Option α
  | [] => none
  | b :: l => if nr b < k then locateBy nr k l else if nr b = k then some b else none

def Pipe.nr (p : Pipe) : ℤ := p.pipe_nr
def FlowSet.nr (fs : FlowSet) : ℤ := fs.fs_nr.toNat

inductive DnErrno
  | EINVAL | ENOSPC
  deriving DecidableEq

/-- `config_pipe` (lines 1539-1645): `mem` is what `malloc` answers for the pipe or the queue, and
    `rq` whether there is memory for its hash table. -/
def configPipe (d : Dn) (pipe_nr : ℤ) (fs_nr parent_nr : BitVec 16) (mem : Word) (rq : Bool) :
    Dn × Option DnErrno :=
  if pipe_nr = 0 ∧ fs_nr = 0 then (d, some .EINVAL)
  else if pipe_nr ≠ 0 ∧ fs_nr ≠ 0 then (d, some .EINVAL)
  else if pipe_nr ≠ 0 then
    match locateBy Pipe.nr pipe_nr d.all_pipes with
    | some _ => (d, none)
    | none =>
      -- here the lock stays held
      if mem = 0 then ({ d with locked := true }, some .ENOSPC)
      else if rq then ({ d with all_pipes := insertBy Pipe.nr ⟨pipe_nr, mem⟩ d.all_pipes }, none)
      else (d, some .ENOSPC)
  else
    match locateBy FlowSet.nr fs_nr.toNat d.all_flow_sets with
    | some b =>
      if parent_nr ≠ 0 ∧ b.parent_nr ≠ parent_nr then ({ d with locked := true }, some .EINVAL)
      else (d, none)
    | none =>
      if parent_nr = 0 then ({ d with locked := true }, some .EINVAL)
      else if mem = 0 then (d, some .ENOSPC)
      else if rq then
        ({ d with
          all_flow_sets := insertBy FlowSet.nr ⟨fs_nr, mem, parent_nr, none⟩ d.all_flow_sets },
            none)
      else (d, some .ENOSPC)

/-- `delete_pipe` (lines 1743-1826). -/
def deletePipe (d : Dn) (pipe_nr : ℤ) (fs_nr : BitVec 16) : Dn × Option DnErrno :=
  if pipe_nr = 0 ∧ fs_nr = 0 then (d, some .EINVAL)
  else if pipe_nr ≠ 0 ∧ fs_nr ≠ 0 then (d, some .EINVAL)
  else if pipe_nr ≠ 0 then
    match locateBy Pipe.nr pipe_nr d.all_pipes with
    | none => (d, some .EINVAL)
    | some b =>
      let d := { d with all_pipes := d.all_pipes.erase b }
      let d := flushPipePtrs d (some b.fs)
      ({ d with all_flow_sets := d.all_flow_sets.map fun x =>
          if x.pipe = some b.fs then { x with pipe := none } else x }, none)
  else
    match locateBy FlowSet.nr fs_nr.toNat d.all_flow_sets with
    | none => (d, some .EINVAL)
    | some b =>
      let d := { d with all_flow_sets := d.all_flow_sets.erase b }
      (flushPipePtrs d (some b.addr), none)

/-- `dummynet_flush` (lines 1371-1406). -/
def dummynetFlush (d : Dn) : Dn :=
  { flushPipePtrs d none with all_pipes := [], all_flow_sets := [] }

/-- What is done with what `ipfw_chk` returns (ip_input.c:526-531): `dummynet_io` gets the packet of
    a rule that says so. -/
def toDummynet (d : Dn) : Outcome → Option (Dn × Io)
  | .done f retval =>
    if retval / PORT_DYNT_FLAG % 2 = 1 then
      match suffixAt d.chain.rules f.addr with
      | rule :: _ => if d.locked then none else some (dummynetIo d retval rule)
      | [] => none
    else some (d, .pass)
  | _ => some (d, .pass)

/-- A packet: `ipfw_chk` writes to the rules, and `dummynet_io` may come after it. -/
def packet (d : Dn) (env : Env) (pkt : Pkt) (timestamp : BitVec 32) (fuel : ℕ) :
    Option (Dn × Io) :=
  match ipfwChk env pkt d.chain.rules fuel with
  | none => none
  | some (o, s) =>
    toDummynet { d with chain := { d.chain with
      rules := writeBack pkt timestamp s d.chain.rules } } o

/-! ## Instructions do not overlap -/

variable {cmd : List Word} {a b : ℕ}

theorem Walk.op_at (hwalk : Walk cmd) (ha : Boundary cmd a) {w : Word} (hw : cmd[a]? = some w) :
    ∃ op, opcodeOf w = some op ∧ sizeOk w op = true ∧
      (op.isAction = true ∧ a + fLen w = cmd.length ∨
        op.isAction = false ∧ a + fLen w < cmd.length) := by
  have h := hwalk.drop ha
  have hlt := ha.lt
  rw [drop_eq_cons hw] at h
  obtain ⟨op, hop, hsize, ⟨haction, hlen⟩ | ⟨haction, hlen, -⟩⟩ := h.cons_inv
  · rw [length_drop] at hlen; exact ⟨op, hop, hsize, .inl ⟨haction, by omega⟩⟩
  · rw [length_drop] at hlen; exact ⟨op, hop, hsize, .inr ⟨haction, by omega⟩⟩

/-- An instruction ends where the next one begins, or in front of it. -/
theorem Boundary.le_of_lt (hwalk : Walk cmd) (ha : Boundary cmd a) (hb : Boundary cmd b)
    (hlt : a < b) {w : Word} (hw : cmd[a]? = some w) : a + fLen w ≤ b := by
  induction hn : a + b using Nat.strong_induction_on generalizing a b w with
  | _ n ih =>
    cases hb with
    | zero => omega
    | @next b' w' hb' hw' hb'' =>
      obtain ⟨op, -, hsize, -⟩ := hwalk.op_at hb' hw'
      have hpos := fLen_pos hsize
      rcases lt_trichotomy a b' with hab | rfl | hab
      · have := ih (a + b') (by omega) ha hb' hab hw rfl; omega
      · rw [hw] at hw'
        rw [some.inj hw']
      · have := ih (b' + a) (by omega) hb' ha hab hw' rfl; omega

/-! ## Rules whose pointer is written -/

/-- The action of a rule is where it is looked for. -/
structure Proper (fw : IpFw) : Prop where
  walk : Walk fw.cmd
  act : ActOk fw
  action : ∃ op, opcodeOf (actWord fw) = some op ∧ op.isAction = true

/-- The action is a pipe or a queue. -/
def IsDn (fw : IpFw) : Prop :=
  opcodeOf (actWord fw) = some .O_PIPE ∨ opcodeOf (actWord fw) = some .O_QUEUE

instance (fw : IpFw) : Decidable (IsDn fw) := inferInstanceAs (Decidable (_ ∨ _))

variable {fw : IpFw} {v : Word}

theorem ownWord_eq (ofs : ℕ) (w : Word) (h : fw.cmd[ofs]? = some w) : ownWord fw ofs = w := by
  unfold ownWord
  rw [h, getD_some]

theorem Proper.boundary (h : Proper fw) : Boundary fw.cmd (actOfs fw) :=
  actionOfs_boundary (f := ⟨0, fw, none⟩) h.walk h.act ownWord_eq

theorem Proper.word (h : Proper fw) : fw.cmd[actOfs fw]? = some (actWord fw) := by
  obtain ⟨w, hw⟩ := h.boundary.exists_word
  have := ownWord_eq _ _ hw
  unfold actWord
  rw [this, hw]

/-- A pipe or a queue has two words, and they are the last ones. -/
theorem Proper.length (h : Proper fw) (hdn : IsDn fw) : actOfs fw + 2 = fw.cmd.length := by
  obtain ⟨op, hop, hsize, hcase⟩ := h.walk.op_at h.boundary h.word
  have hop' : op = .O_PIPE ∨ op = .O_QUEUE :=
    hdn.imp (fun h => some.inj (hop.symm.trans h)) fun h => some.inj
      (hop.symm.trans h)
  rcases hop' with rfl | rfl
  · have hlen : fLen (actWord fw) = 2 := of_decide_eq_true hsize
    rcases hcase with ⟨-, h⟩ | ⟨haction, -⟩
    · omega
    · cases haction
  · have hlen : fLen (actWord fw) = 2 := of_decide_eq_true hsize
    rcases hcase with ⟨-, h⟩ | ⟨haction, -⟩
    · omega
    · cases haction

/-- No instruction begins behind the action. -/
theorem Proper.le_actOfs (h : Proper fw) (ha : Boundary fw.cmd a) : a ≤ actOfs fw := by
  by_contra hlt
  obtain ⟨op, hop, -, hcase⟩ := h.walk.op_at h.boundary h.word
  obtain ⟨op', hop', haction⟩ := h.action
  obtain rfl := some.inj (hop.symm.trans hop')
  have hle := h.boundary.le_of_lt h.walk ha (by omega) h.word
  have := ha.lt
  rcases hcase with ⟨-, h⟩ | ⟨hno, -⟩
  · omega
  · rw [haction] at hno
    cases hno

/-- What stays of a rule when its pointer is written. -/
structure Edited (fw fw' : IpFw) : Prop where
  act_ofs : fw'.act_ofs = fw.act_ofs
  cmd_len : fw'.cmd_len = fw.cmd_len
  rulenum : fw'.rulenum = fw.rulenum
  set : fw'.set = fw.set
  length : fw'.cmd.length = fw.cmd.length
  word : ∀ a, Boundary fw.cmd a → fw'.cmd[a]? = fw.cmd[a]?

theorem Edited.refl (fw : IpFw) : Edited fw fw := ⟨rfl, rfl, rfl, rfl, rfl, fun _ _ => rfl⟩

theorem Proper.edited (h : Proper fw) (v : Word) : Edited fw (setWord fw (actOfs fw + 1) v) := by
  refine ⟨rfl, rfl, rfl, rfl, length_set, fun a ha => ?_⟩
  have hle := h.le_actOfs ha
  show (fw.cmd.set (actOfs fw + 1) v)[a]? = _
  rw [List.getElem?_set_ne (by omega)]

variable {fw' : IpFw}

theorem Edited.boundary (h : Edited fw fw') (ha : Boundary fw.cmd a) : Boundary fw'.cmd a := by
  induction ha with
  | zero hpos => exact Boundary.zero (by rw [h.length]; exact hpos)
  | @next a w ha hw hlt ih =>
    exact ih.next ((h.word a ha).trans hw) (by rw [h.length]; exact hlt)

/-- From where instructions begin there are instructions. -/
theorem Edited.walk_drop (h : Edited fw fw') (hwalk : Walk fw.cmd) (ha : Boundary fw.cmd a) :
    Walk (fw'.cmd.drop a) := by
  induction hn : fw.cmd.length - a using Nat.strong_induction_on generalizing a with
  | _ n ih =>
    obtain ⟨w, hw⟩ := ha.exists_word
    have hw' := (h.word a ha).trans hw
    have hlt := ha.lt
    obtain ⟨op, hop, hsize, hcase⟩ := hwalk.op_at ha hw
    have hpos := fLen_pos hsize
    rw [drop_eq_cons hw']
    rcases hcase with ⟨haction, hlen⟩ | ⟨haction, hlen⟩
    · refine Walk.action hop hsize haction ?_
      rw [length_drop, h.length]; omega
    · have hrest := ih (fw.cmd.length - (a + fLen w)) (by omega) (ha.next hw hlen) rfl
      obtain ⟨k, hk⟩ : ∃ k, fLen w = k + 1 := ⟨fLen w - 1, by omega⟩
      have hsplit : fw'.cmd.drop (a + 1) =
          (fw'.cmd.drop (a + 1)).take k ++ fw'.cmd.drop (a + fLen w) := by
        have hdrop : fw'.cmd.drop (a + fLen w) = (fw'.cmd.drop (a + 1)).drop k := by
          rw [drop_drop, hk]
          congr 1
          omega
        rw [hdrop, take_append_drop]
      rw [hsplit, ← cons_append]
      refine Walk.insn hop hsize haction ?_ hrest
      rw [length_take, length_drop, h.length]; omega

theorem Edited.walk (h : Edited fw fw') (hwalk : Walk fw.cmd) : Walk fw'.cmd := by
  have hpos : 0 < fw.cmd.length := length_pos_of_ne_nil hwalk.ne_nil
  have hdrop := h.walk_drop hwalk (Boundary.zero hpos)
  rwa [drop_zero] at hdrop

/-- The action is where it was. -/
theorem Edited.actOfs_eq (h : Edited fw fw') (hp : Proper fw) :
    actOfs fw' = actOfs fw ∧ actWord fw' = actWord fw := by
  have hown : ∀ a, Boundary fw.cmd a → ownWord fw' a = ownWord fw a := fun a ha => by
    unfold ownWord
    rw [h.word a ha]
  have hofs : actOfs fw' = actOfs fw := by
    unfold actOfs actionOfs
    dsimp only
    rw [h.act_ofs, hown _ hp.act]
  refine ⟨hofs, ?_⟩
  unfold actWord
  rw [hofs, hown _ hp.boundary]

theorem Edited.proper (h : Edited fw fw') (hp : Proper fw) : Proper fw' := by
  refine ⟨h.walk hp.walk, ?_, ?_⟩
  · unfold ActOk
    rw [h.act_ofs]; exact h.boundary hp.act
  · rw [(h.actOfs_eq hp).2]; exact hp.action

end FreeBSD.IpFw2
