import FreeBSD.Net.BpfFilter

/-!
# What `bpf_validate` ensures of `bpf_filter`

`bpf_validate` bounds the index of `BPF_ST` and of `BPF_LD|BPF_MEM`, but not
that of `BPF_STX` and of `BPF_LDX|BPF_MEM` (lines 543–547). A run of a
validated program is safe exactly when it executes none of the latter with an
index of at least `BPF_MEMWORDS`.

Results:
* `step_progress`: one instruction of a validated program that is not such an
  access either returns or moves `pc` forward inside the program.
* `bpfFilter_safe_iff`: the exact condition for one run, and
  `bpfFilter_safe_of_memInBounds` a condition on the program alone.
-/

namespace FreeBSD.Bpf

/-- The instruction at `pc` is a `BPF_STX` or a `BPF_LDX|BPF_MEM` whose index is not one of
    `mem[]`. -/
def UncheckedMem (f : List BpfInsn) (pc : ℕ) : Prop :=
  ∃ insn, f[pc]? = some insn ∧ (insn.code = Opcode.stx.code ∨ insn.code = Opcode.ldxMem.code) ∧
    bpfMemwords ≤ insn.k.toNat

/-- The run of `bpf_filter` on `f` returns after at most `f.length` instructions, fetches no
    instruction outside `f`, accesses no `mem[k]` outside the array and divides by no zero. -/
structure BpfSafe (f : List BpfInsn) (p : Packet) (wirelen buflen : BitVec 32)
    (mem : Fin bpfMemwords → BitVec 32) : Prop where
  returns : ∃ n ≤ f.length, ∃ v, bpfFilter (some f) p wirelen buflen mem n = .ret v
  fetch : ∀ n pc, bpfFilter (some f) p wirelen buflen mem n ≠ .fault (.fetch pc)
  memory : ∀ n k, bpfFilter (some f) p wirelen buflen mem n ≠ .fault (.mem k)
  div : ∀ n, bpfFilter (some f) p wirelen buflen mem n ≠ .fault .div

/-! ## What the checker says of one instruction -/

variable {f : List BpfInsn} {insn : BpfInsn} {st : State}

/-- Only `BPF_RET` instructions may come last. -/
theorem succ_lt_of_class_ne_ret (hval : bpfValidate f = true) {pc : ℕ} (hf : f[pc]? = some insn)
    (hc : bpfClass insn.code ≠ bpfRet) :
    pc + 1 < f.length := by
  have hlt : pc < f.length := (List.getElem?_eq_some_iff.1 hf).1
  by_contra hge
  have hpc : pc = f.length - 1 := by omega
  exact hc (class_last_of_validate hval (hpc ▸ hf))

theorem opcode_class_ne_ret {o : Opcode} (hK : o ≠ .retK) (hA : o ≠ .retA) :
    bpfClass o.code ≠ bpfRet := by
  cases o with
  | retK => exact absurd rfl hK
  | retA => exact absurd rfl hA
  | jmp op src => cases op <;> cases src <;> decide
  | alu op src => cases op <;> cases src <;> decide
  | _ => decide

theorem ja_in_bounds {len pc : ℕ} (hchk : bpfCheck len pc insn = true)
    (ho : Opcode.jmpJa.code = insn.code) : pc + insn.k.toNat + 1 < len := by
  have h1 : bpfClass insn.code = bpfJmp := by rw [← ho]; decide
  have h2 : bpfOp insn.code = bpfJa := by rw [← ho]; decide
  simp [bpfCheck, h1, h2] at hchk
  omega

theorem jmp_in_bounds {len pc : ℕ} {op : JmpOp} {src : Src} (hchk : bpfCheck len pc insn = true)
    (ho : (Opcode.jmp op src).code = insn.code) (b : Bool) :
    pc + (if b then insn.jt else insn.jf).toNat + 1 < len := by
  have h1 : bpfClass insn.code = bpfJmp := by rw [← ho]; cases op <;> cases src <;> decide
  have h2 : bpfOp insn.code ≠ bpfJa := by rw [← ho]; cases op <;> cases src <;> decide
  simp [bpfCheck, h1, h2] at hchk
  cases b <;> simp <;> omega

theorem mem_in_bounds {len pc : ℕ} (hchk : bpfCheck len pc insn = true)
    (ho : Opcode.st.code = insn.code ∨ Opcode.ldMem.code = insn.code) :
    insn.k.toNat < bpfMemwords := by
  have h : bpfClass insn.code = bpfSt ∨ bpfClass insn.code = bpfLd ∧ insn.code &&& 0xe0 =
    bpfMem := by
    rcases ho with ho | ho
    · exact .inl (by rw [← ho]; decide)
    · exact .inr (by rw [← ho]; decide)
  simp only [bpfCheck, Bool.and_eq_true, Bool.not_eq_true', Bool.and_eq_false_iff] at hchk
  rcases hchk.1.2 with hc | hk
  · simp only [Bool.or_eq_false_iff, Bool.and_eq_false_iff, decide_eq_false_iff_not] at hc; tauto
  · simpa using hk

theorem div_k_ne_zero {len pc : ℕ} (hchk : bpfCheck len pc insn = true)
    (ho : (Opcode.alu .div .k).code = insn.code) : insn.k ≠ 0 := by
  intro hk
  have hc : insn.code = bpfAlu ||| bpfDiv ||| bpfK := by rw [← ho]; decide
  simp [bpfCheck, hc, hk] at hchk

/-! ## One instruction -/

/-- `o` returns a value, or goes on at an instruction of `f` after `pc`. -/
def Progress (f : List BpfInsn) (pc : ℕ) (o : Outcome) : Prop :=
  (∃ v, o = .ret v) ∨ ∃ st, o = .next st ∧ pc < st.pc ∧ st.pc < f.length

theorem Progress.advance (st : State) (h : st.pc + 1 < f.length) :
    Progress f st.pc (.next st.advance) :=
  .inr ⟨_, rfl, by simp [State.advance], by simpa [State.advance] using h⟩

theorem Progress.loadA (h : st.pc + 1 < f.length)
    (r : Option (BitVec 32)) : Progress f st.pc (st.loadA r) := by
  cases r with
  | none => exact .inl ⟨0, rfl⟩
  | some v => exact Progress.advance (st.setA v) h

theorem Progress.loadX (h : st.pc + 1 < f.length)
    (r : Option (BitVec 32)) : Progress f st.pc (st.loadX r) := by
  cases r with
  | none => exact .inl ⟨0, rfl⟩
  | some v => exact Progress.advance (st.setX v) h

theorem Progress.jump {off : ℕ} (h : st.pc + off + 1 < f.length) :
    Progress f st.pc (.next (st.jump off)) :=
  .inr ⟨_, rfl, by simp only [State.jump]; omega, by simpa [State.jump] using h⟩

theorem Progress.accessMem {pc : ℕ} {k : BitVec 32} (act : Fin bpfMemwords → State)
    (hact : ∀ i, (act i).pc = pc) (h : pc + 1 < f.length)
    (hk : k.toNat < bpfMemwords) : Progress f pc (accessMem k act) := by
  rw [Bpf.accessMem, dif_pos hk]
  have hadv := Progress.advance (f := f) (act ⟨k.toNat, hk⟩) (by rw [hact]; exact h)
  rwa [hact] at hadv

theorem Progress.alu {k : BitVec 32} {op : AluOp} {src : Src} (h : st.pc + 1 < f.length)
    (hdiv : op = .div → src = .k → k ≠ 0) :
    Progress f st.pc (alu st k op src) := by
  have hgo : ∀ v, Progress f st.pc (.next (st.setA v).advance) := fun v =>
    Progress.advance (st.setA v) h
  unfold Bpf.alu
  dsimp only
  split
  · split_ifs
    · exact .inl ⟨0, rfl⟩
    · exact hgo _
  · rw [if_neg (show st.operand k .k ≠ 0 from hdiv rfl rfl)]; exact hgo _
  · exact hgo _

/-- One instruction of a validated program returns or moves forward inside the program, unless it
    is an unchecked access to `mem[]`. -/
theorem step_progress (hval : bpfValidate f = true) (p : Packet) (wirelen buflen : BitVec 32)
    (hpc : st.pc < f.length)
    (hmem : ¬ UncheckedMem f st.pc) : Progress f st.pc (step f p wirelen buflen st) := by
  obtain ⟨insn, hf⟩ : ∃ insn, f[st.pc]? = some insn := ⟨_, List.getElem?_eq_getElem hpc⟩
  have hchk := bpfCheck_of_validate hval hf
  cases ho : opcode insn.code with
  | none => exact .inl ⟨0, by simp [step, hf, ho]⟩
  | some o =>
    have hcode := code_of_opcode ho
    have hnext : o ≠ .retK → o ≠ .retA → st.pc + 1 < f.length := fun hK hA =>
      succ_lt_of_class_ne_ret hval hf (by rw [← hcode]; exact opcode_class_ne_ret hK hA)
    have hstep : step f p wirelen buflen st = exec p wirelen buflen st insn o := by
      simp [step, hf, ho]
    rw [hstep]
    have hunchecked : (insn.code = Opcode.stx.code ∨ insn.code = Opcode.ldxMem.code) →
        insn.k.toNat < bpfMemwords := fun hc => by
      by_contra hk
      exact hmem ⟨insn, hf, hc, by omega⟩
    cases o with
    | retK | retA => exact .inl ⟨_, rfl⟩
    | ldWAbs | ldHAbs | ldBAbs | ldWInd | ldHInd | ldBInd =>
      exact Progress.loadA (hnext (by simp) (by simp)) _
    | ldxMshB => exact Progress.loadX (hnext (by simp) (by simp)) _
    | ldWLen | ldImm | aluNeg | miscTxa =>
      exact Progress.advance (st.setA _) (hnext (by simp) (by simp))
    | ldxWLen | ldxImm | miscTax =>
      exact Progress.advance (st.setX _) (hnext (by simp) (by simp))
    | ldMem =>
      exact Progress.accessMem (fun i => st.setA (st.mem i))
        (fun _ => rfl) (hnext (by simp) (by simp))
        (mem_in_bounds hchk (.inr hcode))
    | ldxMem =>
      exact Progress.accessMem (fun i => st.setX (st.mem i))
        (fun _ => rfl) (hnext (by simp) (by simp))
        (hunchecked (.inr hcode.symm))
    | st =>
      exact Progress.accessMem (fun i => { st with mem := Function.update st.mem i st.a })
        (fun _ => rfl) (hnext (by simp) (by simp))
        (mem_in_bounds hchk (.inl hcode))
    | stx =>
      exact Progress.accessMem (fun i => { st with mem := Function.update st.mem i st.x })
        (fun _ => rfl) (hnext (by simp) (by simp))
        (hunchecked (.inl hcode.symm))
    | jmpJa => exact Progress.jump (ja_in_bounds hchk hcode)
    | jmp op src => exact Progress.jump (jmp_in_bounds hchk hcode _)
    | alu op src =>
      refine Progress.alu (hnext (by simp) (by simp)) ?_
      rintro rfl rfl
      exact div_k_ne_zero hchk hcode

/-- An unchecked access to `mem[]` goes outside the array. -/
theorem step_unchecked (p : Packet) (wirelen buflen : BitVec 32) (h : UncheckedMem f st.pc) :
    ∃ k, step f p wirelen buflen st = .fault (.mem k) := by
  obtain ⟨insn, hf, hc, hk⟩ := h
  have hout : ∀ act, accessMem insn.k act = .fault (.mem insn.k) := fun act =>
    dif_neg (by omega)
  refine ⟨insn.k, ?_⟩
  rcases hc with hc | hc
  · have ho : opcode insn.code = some .stx := by rw [hc]; decide
    simp [step, hf, ho, exec, hout]
  · have ho : opcode insn.code = some .ldxMem := by rw [hc]; decide
    simp [step, hf, ho, exec, hout]

/-! ## Whole runs -/

section Run

variable {f : List BpfInsn} {p : Packet} {wirelen buflen : BitVec 32}

theorem run_succ (n : ℕ) (st : State) :
    run f p wirelen buflen (n + 1) st =
      match run f p wirelen buflen n st with
      | .next st' => step f p wirelen buflen st'
      | o => o := by
  induction n generalizing st with
  | zero =>
    simp only [run]
    cases step f p wirelen buflen st <;> rfl
  | succ n ih =>
    rw [run]
    conv_rhs => rw [run]
    cases step f p wirelen buflen st with
    | next st' => simp only [ih]
    | ret v => rfl
    | fault e => rfl

/-- A run of a validated program that meets no unchecked access to `mem[]` makes progress with
    every instruction. -/
theorem run_progress (hval : bpfValidate f = true) {st : State} (hpc : st.pc < f.length)
    (hmem : ∀ n st', run f p wirelen buflen n st = .next st' → ¬ UncheckedMem f st'.pc) (n : ℕ) :
    (∃ v, run f p wirelen buflen n st = .ret v) ∨
      ∃ st', run f p wirelen buflen n st = .next st' ∧ st.pc + n ≤ st'.pc ∧
        st'.pc < f.length := by
  induction n with
  | zero => exact .inr ⟨st, rfl, le_rfl, hpc⟩
  | succ n ih =>
    rcases ih with ⟨v, hv⟩ | ⟨st', hst, hle, hlt⟩
    · exact .inl ⟨v, by rw [run_succ, hv]⟩
    · rw [run_succ, hst]
      rcases step_progress hval p wirelen buflen hlt (hmem n st' hst) with hv | ⟨st'', h1, h2, h3⟩
      · exact .inl hv
      · exact .inr ⟨st'', h1, by omega, h3⟩

/-- Such a run returns after at most `f.length` instructions. -/
theorem run_returns (hval : bpfValidate f = true) {st : State} (hpc : st.pc < f.length)
    (hmem : ∀ n st', run f p wirelen buflen n st = .next st' → ¬ UncheckedMem f st'.pc) :
    ∃ v, run f p wirelen buflen f.length st = .ret v := by
  rcases run_progress hval hpc hmem f.length with hv | ⟨st', -, hle, hlt⟩
  · exact hv
  · omega

end Run

/-- A run of a validated program is safe exactly when every `BPF_STX` and every
    `BPF_LDX|BPF_MEM` that it executes has an index below `BPF_MEMWORDS`. -/
theorem bpfFilter_safe_iff (f : List BpfInsn) (hlen : 1 ≤ f.length)
    (hval : bpfValidate f = true) (p : Packet) (wirelen buflen : BitVec 32)
    (mem : Fin bpfMemwords → BitVec 32) :
    BpfSafe f p wirelen buflen mem ↔
      ∀ n st, bpfFilter (some f) p wirelen buflen mem n = .next st → ¬ UncheckedMem f st.pc := by
  constructor
  · intro hsafe n st hst hmem
    obtain ⟨k, hk⟩ := step_unchecked p wirelen buflen hmem
    refine hsafe.memory (n + 1) k ?_
    rw [bpfFilter, run_succ]
    rw [bpfFilter] at hst
    rw [hst]; exact hk
  · intro hmem
    have hprog := @run_progress f p wirelen buflen hval (init mem) hlen hmem
    have hnofault : ∀ n e, bpfFilter (some f) p wirelen buflen mem n ≠ .fault e := by
      intro n e he
      rw [bpfFilter] at he
      rcases hprog n with ⟨v, hv⟩ | ⟨st', hst, -⟩
      · rw [hv] at he; cases he
      · rw [hst] at he; cases he
    exact {
      returns := ⟨f.length, le_rfl, run_returns hval hlen hmem⟩
      fetch := fun n pc => hnofault n _
      memory := fun n k => hnofault n _
      div := fun n => hnofault n _ }

/-- The program `ld #7; st mem[3]; ldx mem[3]; ret a` on any packet is such a run. -/
theorem bpfFilter_safe_iff_ld_st_ldx :
    let f : List BpfInsn := [⟨0x00, 0, 0, 7⟩, ⟨0x02, 0, 0, 3⟩, ⟨0x61, 0, 0, 3⟩, ⟨0x16, 0, 0, 0⟩]
    let p : Packet := ⟨fun _ => 0, ⟨1, fun _ => 0⟩, []⟩
    BpfSafe f p 1 1 (fun _ => 0) := by
  intro f p
  refine (bpfFilter_safe_iff f (by decide) (by decide) p 1 1 _).2 ?_
  rintro n st - ⟨insn, hf, hc, hk⟩
  have hin : ∀ insn ∈ f, insn.k.toNat < bpfMemwords := by decide
  have := hin insn (List.mem_of_getElem? hf); omega

/-- `stx mem[16]; ret #0` is accepted and writes past the end of `mem[]`. -/
theorem bpfValidate_accepts_stx_16 :
    ¬ ∀ f : List BpfInsn, 1 ≤ f.length → bpfValidate f = true →
      ∀ p wirelen buflen mem, BpfSafe f p wirelen buflen mem := by
  intro hall
  have hsafe := hall [⟨0x03, 0, 0, 16⟩, ⟨0x06, 0, 0, 0⟩] (by decide) (by decide)
    ⟨fun _ => 0, ⟨1, fun _ => 0⟩, []⟩ 1 1 (fun _ => 0)
  exact hsafe.memory 1 16 rfl

end FreeBSD.Bpf
