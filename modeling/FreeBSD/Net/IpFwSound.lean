import FreeBSD.Net.IpFwChk
import FreeBSD.Net.IpFwChain

/-!
# The rules that are accepted and the interpreter

`check_ipfw_struct` walks over the instructions of a rule, up to the action, which is the last one.
`ipfw_chk` walks in the same way, but also starts in the middle of a rule, at `act_ofs`, which
nobody checks. It is sound if `act_ofs` is where an instruction begins in every rule, and only then.

Results:
* `chk_sound_iff`: the rules for which every packet is handled soundly.
-/

namespace FreeBSD.IpFw2

open Lib List

/-! ## Instructions that follow each other -/

/-- The words of a rule: instructions, of which the last one is the only action. -/
inductive Walk : List Word → Prop
  | action {w : Word} {operands : List Word} {op : Opcode} (hop : opcodeOf w = some op)
      (hsize : sizeOk w op = true) (haction : op.isAction = true)
      (hlen : operands.length + 1 = fLen w) : Walk (w :: operands)
  | insn {w : Word} {operands rest : List Word} {op : Opcode} (hop : opcodeOf w = some op)
      (hsize : sizeOk w op = true) (haction : op.isAction = false)
      (hlen : operands.length + 1 = fLen w) (h : Walk rest) : Walk (w :: operands ++ rest)

/-- The offsets at which instructions begin. -/
inductive Boundary (cmd : List Word) : ℕ → Prop
  | zero : 0 < cmd.length → Boundary cmd 0
  | next {ofs : ℕ} {w : Word} : Boundary cmd ofs → cmd[ofs]? = some w →
      ofs + fLen w < cmd.length → Boundary cmd (ofs + fLen w)

theorem resetLog_cons (w : Word) (rest : List Word) :
    ∃ rest', resetLog (w :: rest) = w :: rest' ∧ rest'.length = rest.length := by
  match rest with
  | [] => exact ⟨[], rfl, rfl⟩
  | [m] => exact ⟨[m], rfl, rfl⟩
  | m :: left :: rest => exact ⟨_, rfl, rfl⟩

variable {b : Bool} {w : Word} {cmd : List Word} {ofs : ℕ} {p : Pos} {l : ℤ}

/-- One round of the loop of `check_ipfw_struct`. -/
theorem checkLoop_cons {rest cmd : List Word} (h : checkLoop b (w :: rest) = .ok cmd) :
    ∃ op, opcodeOf w = some op ∧ sizeOk w op = true ∧ fLen w ≤ rest.length + 1 ∧
      (op.isAction = true → b = false ∧ rest.length + 1 = fLen w) ∧
      ∃ cmd', checkLoop (b || op.isAction) ((w :: rest).drop (fLen w)) = .ok cmd' ∧
        cmd = (resetLog (w :: rest)).take (fLen w) ++ cmd' := by
  rw [checkLoop] at h
  split at h
  · cases h
  · rename_i hlen
    cases hop : opcodeOf w with
    | none =>
      rw [hop] at h
      cases h
    | some op =>
      rw [hop] at h
      dsimp only at h
      split at h
      · rename_i hsize
        split at h
        · cases h
        · rename_i haction
          push Not at haction
          refine ⟨op, rfl, hsize, by omega, fun hact => ?_, ?_⟩
          · obtain ⟨hb, hl⟩ := haction hact
            exact ⟨Bool.eq_false_iff.2 hb, hl⟩
          · cases hrest : checkLoop (b || op.isAction) ((w :: rest).drop (fLen w)) with
            | error e =>
              rw [hrest] at h
              cases h
            | ok cmd' =>
              rw [hrest] at h; exact ⟨cmd', rfl, (Except.ok.inj h).symm⟩
      · cases h

theorem checkLoop_nil (h : checkLoop b [] = .ok cmd) : b = true ∧ cmd = [] := by
  rw [checkLoop] at h
  split at h
  · rename_i hb
    exact ⟨hb, (Except.ok.inj h).symm⟩
  · cases h

/-- The words of a rule that is accepted. -/
theorem walk_of_check {words cmd : List Word} (h : checkLoop false words = .ok cmd) :
    Walk cmd ∧ cmd.length = words.length := by
  induction hn : words.length using Nat.strong_induction_on generalizing words cmd with
  | _ n ih =>
    cases words with
    | nil => cases (checkLoop_nil h).1
    | cons w rest =>
      obtain ⟨op, hop, hsize, hle, hact, cmd', hrest, rfl⟩ := checkLoop_cons h
      obtain ⟨rest', hreset, hlen'⟩ := resetLog_cons w rest
      obtain ⟨n', hn'⟩ : ∃ n', fLen w = n' + 1 := ⟨fLen w - 1, by have := fLen_pos hsize; omega⟩
      have htake : (resetLog (w :: rest)).take (fLen w) = w :: rest'.take n' := by
        rw [hreset, hn', take_succ_cons]
      have hoperands : (rest'.take n').length + 1 = fLen w := by rw [length_take]; omega
      rw [length_cons] at hn
      cases haction : op.isAction with
      | true =>
        obtain ⟨-, hall⟩ := hact haction
        have hnil : (w :: rest).drop (fLen w) = [] :=
          drop_eq_nil_of_le (by rw [length_cons]; omega)
        rw [hnil] at hrest
        obtain ⟨-, rfl⟩ := checkLoop_nil hrest
        rw [htake, append_nil]
        exact ⟨Walk.action hop hsize haction hoperands, by rw [length_cons]; omega⟩
      | false =>
        rw [haction, Bool.or_false] at hrest
        have hdrop : ((w :: rest).drop (fLen w)).length = rest.length + 1 - fLen w := by
          rw [length_drop, length_cons]
        obtain ⟨hwalk, hlen⟩ := ih _ (by omega) hrest hdrop
        rw [htake]
        refine ⟨Walk.insn hop hsize haction hoperands hwalk, ?_⟩
        rw [length_append, length_cons, hlen]; omega

/-- The first instruction: an action that is the last one, or one with others behind it. -/
theorem Walk.cons_inv {tail : List Word} (h : Walk (w :: tail)) :
    ∃ op, opcodeOf w = some op ∧ sizeOk w op = true ∧
      (op.isAction = true ∧ tail.length + 1 = fLen w ∨
        op.isAction = false ∧ fLen w < tail.length + 1 ∧ Walk ((w :: tail).drop (fLen w))) := by
  generalize hl : w :: tail = l at h
  cases h with
  | @action w' operands op hop hsize haction hlen =>
    obtain ⟨rfl, rfl⟩ := List.cons.inj hl
    exact ⟨op, hop, hsize, .inl ⟨haction, hlen⟩⟩
  | @insn w' operands rest op hop hsize haction hlen h =>
    obtain ⟨rfl, rfl⟩ := List.cons.inj hl
    refine ⟨op, hop, hsize, .inr ⟨haction, ?_, ?_⟩⟩
    · have hpos : 0 < rest.length := by
        cases h with
        | action => exact Nat.succ_pos _
        | insn => exact Nat.succ_pos _
      show fLen w < (operands ++ rest).length + 1
      rw [length_append]; omega
    · have hlen' : (w :: operands).length = fLen w := hlen
      rw [← hlen', drop_left]; exact h

theorem Walk.ne_nil (h : Walk cmd) : cmd ≠ [] := by
  cases h with
  | action => exact cons_ne_nil _ _
  | insn => exact cons_ne_nil _ _

theorem drop_eq_cons (h : cmd[ofs]? = some w) : cmd.drop ofs = w :: cmd.drop (ofs + 1) := by
  obtain ⟨hlt, hw⟩ := List.getElem?_eq_some_iff.1 h
  rw [drop_eq_getElem_cons hlt, hw]

/-- From one instruction on there are instructions up to the action. -/
theorem Walk.drop (h : Walk cmd) (hofs : Boundary cmd ofs) : Walk (cmd.drop ofs) := by
  induction hofs with
  | zero => exact h
  | @next ofs w hofs hw hlt ih =>
    rw [drop_eq_cons hw] at ih
    obtain ⟨op, -, -, ⟨-, hlen⟩ | ⟨-, -, hwalk⟩⟩ := ih.cons_inv
    · rw [length_drop] at hlen; omega
    · rw [← drop_eq_cons hw, drop_drop] at hwalk; exact hwalk

theorem Boundary.lt (h : Boundary cmd ofs) : ofs < cmd.length := by
  cases h with
  | zero h => exact h
  | next _ _ h => exact h

/-- The action of a rule is looked for where an instruction begins. -/
def ActOk (fw : IpFw) : Prop := Boundary fw.cmd fw.act_ofs.toNat

/-! ## The rules -/

/-- The rules of the list, whatever their counters and their links. -/
structure Linked (rules : List Rule) : Prop where
  nodup : (rules.map Rule.addr).Nodup
  walk : ∀ r ∈ rules, Walk r.fw.cmd ∧ r.fw.cmd_len.toNat = r.fw.cmd.length
  /-- The default rule is the last one. -/
  last : ∃ rs d accept, rules = rs ++ [d] ∧ d.fw.cmd = (defaultFw accept).cmd ∧
    d.fw.act_ofs = 0 ∧ d.fw.set = 31 ∧ d.num = defaultRule ∧ ∀ r ∈ rs, r.num < defaultRule

variable {rules rest fs : List Rule} {f g : Rule} {env : Env} {pkt : Pkt} {s t : Chk}

theorem suffixAt_cons (f : Rule) (rest : List Rule) (a : ℕ) :
    suffixAt (f :: rest) a = if f.addr = a then f :: rest else suffixAt rest a := by
  unfold suffixAt
  rw [dropWhile_cons]
  by_cases h : f.addr = a
  · simp [h]
  · simp [h]

/-- The rest of the list from a rule is the one that is found at its address. -/
theorem suffixAt_eq (hn : (rules.map Rule.addr).Nodup) (h : f :: rest <:+ rules) :
    suffixAt rules f.addr = f :: rest := by
  induction rules with
  | nil => exact absurd (eq_nil_of_suffix_nil h) (cons_ne_nil f rest)
  | cons g rules ih =>
    rw [map_cons, nodup_cons] at hn
    rw [suffixAt_cons]
    rcases suffix_cons_iff.1 h with heq | hsuf
    · obtain ⟨rfl, rfl⟩ := List.cons.inj heq
      rw [if_pos rfl]
    · have hmem : f.addr ∈ rules.map Rule.addr :=
        mem_map_of_mem (hsuf.subset mem_cons_self)
      rw [if_neg (fun heq => hn.1 (by rw [heq]; exact hmem)), ih hn.2 hsuf]

theorem suffixAt_suffix (a : ℕ) : suffixAt rules a <:+ rules := dropWhile_suffix _

theorem suffixAt_of_mem {a : ℕ} (h : a ∈ rules.map Rule.addr) :
    ∃ f rest, suffixAt rules a = f :: rest := by
  induction rules with
  | nil => cases h
  | cons g rules ih =>
    rw [suffixAt_cons]
    split
    · exact ⟨g, rules, rfl⟩
    · rename_i hne
      exact ih ((mem_cons.1 h).resolve_left fun heq => hne heq.symm)

/-- The word at an offset of a rule, if there is one. -/
theorem wordAt_of_lt (ofs : ℕ) (w : Word) (h : f.fw.cmd[ofs]? = some w) : wordAt env f ofs = w := by
  unfold wordAt
  rw [h, Option.getD_some]

/-! ## What is read and written -/

/-- An instruction that begins where it is fetched. -/
def FetchOk (rules : List Rule) (x : Rule × ℕ) : Prop := x.1 ∈ rules ∧ Boundary x.1.fw.cmd x.2

/-- The rule that comes after `f`, by the words of `f`. -/
def target (f : Rule) (rest : List Rule) : List Rule :=
  nextRule (fun ofs => f.fw.cmd[ofs]?.getD 0) f rest

/-- A link that is known is the one that would be looked up. -/
def CacheOk (rules : List Rule) (cache : ℕ → Option ℕ) : Prop :=
  ∀ f rest a, f :: rest <:+ rules → cache f.addr = some a →
    (target f rest).head?.map Rule.addr = some a

structure SOk (rules : List Rule) (s : Chk) : Prop where
  fetched : ∀ x ∈ s.fetched, FetchOk rules x
  cache : CacheOk rules s.cache

theorem SOk.fetch (h : SOk rules s) (hx : FetchOk rules (f, ofs)) : SOk rules (s.fetch f ofs) := by
  refine ⟨fun x hmem => ?_, h.cache⟩
  rcases mem_cons.1 hmem with rfl | hmem
  · exact hx
  · exact h.fetched x hmem

theorem Boundary.exists_word (h : Boundary cmd ofs) :
    ∃ w, cmd[ofs]? = some w := ⟨_, List.getElem?_eq_getElem h.lt⟩

/-- Behind an `O_LOG` another instruction begins. -/
theorem boundary_log (hwalk : Walk cmd) (hofs : Boundary cmd ofs) (hw : cmd[ofs]? = some w)
    (hop : opcodeOf w = some .O_LOG) :
    Boundary cmd (ofs + fLen w) := by
  have h := hwalk.drop hofs
  rw [drop_eq_cons hw] at h
  obtain ⟨op, hop', -, ⟨haction, -⟩ | ⟨-, hlt, -⟩⟩ := h.cons_inv
  · rw [hop] at hop'
    obtain rfl := Option.some.inj hop'
    cases haction
  · have := hofs.lt
    rw [length_drop] at hlt; exact hofs.next hw (by omega)

/-- With an `act_ofs` where an instruction begins, the action is looked for inside the rule. -/
theorem actionOfs_boundary (hwalk : Walk f.fw.cmd) (hact : ActOk f.fw) {word : ℕ → Word}
    (hword : ∀ (ofs : ℕ) (w : Word), f.fw.cmd[ofs]? = some w → word ofs = w) :
    Boundary f.fw.cmd (actionOfs word f) := by
  obtain ⟨w, hw⟩ := hact.exists_word
  unfold actionOfs
  dsimp only
  rw [hword _ _ hw]
  split
  · rename_i hlog
    exact boundary_log hwalk hact hw hlog
  · exact hact

/-- What is found does not depend on what is behind the rule. -/
theorem nextRule_congr (hwalk : Walk f.fw.cmd) (hact : ActOk f.fw) {word word' : ℕ → Word}
    (hword : ∀ (ofs : ℕ) (w : Word), f.fw.cmd[ofs]? = some w → word ofs = w)
    (hword' : ∀ (ofs : ℕ) (w : Word), f.fw.cmd[ofs]? = some w → word' ofs = w) :
    nextRule word f rest = nextRule word' f rest := by
  obtain ⟨w, hw⟩ := hact.exists_word
  have hofs : actionOfs word f = actionOfs word' f := by
    unfold actionOfs
    dsimp only
    rw [hword _ _ hw, hword' _ _ hw]
  obtain ⟨v, hv⟩ := (actionOfs_boundary hwalk hact hword).exists_word
  unfold nextRule
  dsimp only
  rw [← hofs, hword _ _ hv, hword' _ _ hv]

/-- The words of a rule. -/
theorem getD_of_getElem? (ofs : ℕ) (w : Word) (h : f.fw.cmd[ofs]? = some w) :
    f.fw.cmd[ofs]?.getD 0 = w := by
  rw [h, Option.getD_some]

theorem nextRule_suffix {word : ℕ → Word} : nextRule word f rest <:+ rest := by
  unfold nextRule
  dsimp only
  by_cases hskip : opcodeOf (word (actionOfs word f)) = some .O_SKIPTO
  · rw [if_pos hskip]
    split
    · exact suffix_refl rest
    · exact dropWhile_suffix _
  · rw [if_neg hskip, if_pos rfl]

theorem nextRule_ne_nil (f : Rule) (word : ℕ → Word) (h : rest ≠ []) :
    nextRule word f rest ≠ [] := by
  unfold nextRule
  dsimp only
  by_cases hnil : (if opcodeOf (word (actionOfs word f)) = some .O_SKIPTO then
      rest.dropWhile fun r => r.num < arg1Of (word (actionOfs word f)) else []) = []
  · rw [if_pos hnil]; exact h
  · rw [if_neg hnil]; exact hnil

theorem lookupNextRule_spec (env : Env) (hl : Linked rules) (hact : ∀ r ∈ rules, ActOk r.fw)
    (hsuf : f :: rest <:+ rules) (hs : SOk rules s) :
    ∃ t, lookupNextRule env f rest s = (target f rest, t) ∧ SOk rules t ∧
      t.dyn_dir = s.dyn_dir := by
  have hmem : f ∈ rules := hsuf.subset mem_cons_self
  have hwords : ∀ (ofs : ℕ) (w : Word), f.fw.cmd[ofs]? = some w → wordAt env f ofs = w :=
    wordAt_of_lt
  have hbound := actionOfs_boundary (hl.walk f hmem).1 (hact f hmem) hwords
  have hnext : nextRule (wordAt env f) f rest = target f rest :=
    nextRule_congr (hl.walk f hmem).1 (hact f hmem) hwords getD_of_getElem?
  refine ⟨_, Prod.ext hnext rfl, ⟨?_, ?_⟩, rfl⟩
  · exact ((hs.fetch ⟨hmem, hact f hmem⟩).fetch ⟨hmem, hbound⟩).fetched
  · intro g rest' a hsuf' hcache
    have hnew : Function.update s.cache f.addr
        ((nextRule (wordAt env f) f rest).head?.map Rule.addr) g.addr = some a := hcache
    by_cases heq : g.addr = f.addr
    · rw [heq, Function.update_self, hnext] at hnew
      have hsame := suffixAt_eq hl.nodup hsuf'
      rw [heq, suffixAt_eq hl.nodup hsuf] at hsame
      obtain ⟨rfl, rfl⟩ := List.cons.inj hsame
      exact hnew
    · rw [Function.update_of_ne heq] at hnew; exact hs.cache g rest' a hsuf' hnew

/-- A link that is known leads to the rule that would be looked up. -/
theorem suffixAt_cache (hl : Linked rules) (hsuf : f :: rest <:+ rules) (hs : SOk rules s) {a : ℕ}
    (hcache : s.cache f.addr = some a) : suffixAt rules a = target f rest := by
  have htarget := hs.cache f rest a hsuf hcache
  obtain ⟨g, hg, rfl⟩ := Option.map_eq_some_iff.1 htarget
  obtain ⟨rest', hrest'⟩ := List.head?_eq_some_iff.1 hg
  have hsuf' : g :: rest' <:+ rules := by
    rw [← hrest']; exact nextRule_suffix.trans ((suffix_cons f rest).trans hsuf)
  rw [suffixAt_eq hl.nodup hsuf', hrest']

/-! ## The loops -/

/-- What is returned comes from an instruction of the rule. -/
def DoneAt (env : Env) (pkt : Pkt) (f : Rule) (retval : ℕ) : Prop :=
  ∃ ofs w op k d, Boundary f.fw.cmd ofs ∧ f.fw.cmd[ofs]? = some w ∧ opcodeOf w = some op ∧
    insnFlow env pkt k w d op = .done retval

/-- From a position the loops end with the action of a rule. -/
def Fine (env : Env) (pkt : Pkt) (rules : List Rule) (p : Pos) (s : Chk) : Prop :=
  ∃ fuel f retval t, chkLoop env pkt rules fuel p s = some (.done f retval, t) ∧
    (f ∈ rules ∧ DoneAt env pkt f retval) ∧ SOk rules t

theorem Fine.step {p q : Pos} (h : chkStep env pkt rules p s = (.inl q, t))
    (hf : Fine env pkt rules q t) : Fine env pkt rules p s := by
  obtain ⟨fuel, f, retval, u, hloop, hmem, hu⟩ := hf
  refine ⟨fuel + 1, f, retval, u, ?_, hmem, hu⟩
  rw [chkLoop, h]; exact hloop

theorem fine_done {n : ℕ} (h : chkStep env pkt rules p s = (.inr (.done f n), t))
    (hmem : f ∈ rules ∧ DoneAt env pkt f n) (ht : SOk rules t) : Fine env pkt rules p s := by
  refine ⟨1, f, n, t, ?_, hmem, ht⟩
  rw [chkLoop, h]

theorem chkStep_inner (h : 0 < l) :
    chkStep env pkt rules (.inner f rest l ofs b) s = (.inl (.body f rest l ofs b), s) := if_pos h

theorem chkStep_inner_end (h : l ≤ 0) :
    chkStep env pkt rules (.inner f rest l ofs b) s = (.inl (.outer rest), s) :=
  if_neg (not_lt.2 h)

/-- At `again` there is no test of the rule. -/
theorem Fine.again (h : Fine env pkt rules (.outer (f :: rest)) s) :
    Fine env pkt rules (.again f rest) s := by
  obtain ⟨fuel, g, retval, t, hloop, hmem, ht⟩ := h
  cases fuel with
  | zero => cases hloop
  | succ fuel => exact ⟨fuel, g, retval, t, hloop, hmem, ht⟩

/-- What other code answers: the set of the default rule is enabled, and dynamic rules are those of
    rules in the list. -/
structure EnvOk (env : Env) (rules : List Rule) : Prop where
  set_disable : env.set_disable.getLsbD resvdSet = false
  dyn : ∀ a forward, env.dyn = some (a, forward) → a ∈ rules.map Rule.addr

section Loops

variable {D : Dir → Prop} {l : ℤ} {ofs : ℕ} {w : Word} {op : Opcode}

/-- Where a dynamic rule leads to. -/
def JumpsFine (env : Env) (pkt : Pkt) (rules : List Rule) : Prop :=
  ∀ s a forward g rest, SOk rules s → env.dyn = some (a, forward) → suffixAt rules a = g :: rest →
    Fine env pkt rules
      (.body g rest (g.fw.cmd_len.toNat - g.fw.act_ofs.toNat) g.fw.act_ofs.toNat false)
      { s with dyn_dir := if forward then .forward else .reverse }

/-- The rules behind a rule. `D` is what is known of `dyn_dir`. -/
def RestFine (env : Env) (pkt : Pkt) (rules : List Rule) (D : Dir → Prop) (rest : List Rule) :
    Prop :=
  ∀ fs s, fs <:+ rest → fs ≠ [] → SOk rules s → D s.dyn_dir → Fine env pkt rules (.outer fs) s

/-- Where an instruction leads in a rule that is not the last one. -/
theorem flow_fine (op : Opcode) (hl : Linked rules) (hact : ∀ r ∈ rules, ActOk r.fw)
    (henv : EnvOk env rules)
    (hsuf : f :: rest <:+ rules) (hne : rest ≠ []) (hD : D .unknown → D .none)
    (hrest : RestFine env pkt rules D rest)
    (hadv : ∀ s b, SOk rules s → D s.dyn_dir → Fine env pkt rules (advance f rest l ofs w b) s)
    (hjump : D .unknown → JumpsFine env pkt rules) (hs : SOk rules s) (hd : D s.dyn_dir)
    (flow : Flow) (hdone : ∀ retval, flow = .done retval → DoneAt env pkt f retval)
    {p : Pos} {u : Chk}
    (hstep : chkStep env pkt rules p u = chkFlow env rules f rest l ofs w op s flow) :
    Fine env pkt rules p u := by
  have hh : SOk rules (s.hit f) := ⟨hs.fetched, hs.cache⟩
  have hout : ∀ s, SOk rules s → D s.dyn_dir → Fine env pkt rules (.outer rest) s :=
    fun s hs hd => hrest rest s (suffix_refl rest) hne hs hd
  have hafter : ∀ s b, SOk rules s → D s.dyn_dir →
      Fine env pkt rules (afterMatch f rest l ofs w b) s := by
    intro s b hs hd
    unfold afterMatch
    split
    · exact hadv s _ hs hd
    · split
      · exact hadv s _ hs hd
      · exact hout s hs hd
  cases flow with
  | isMatch b => exact Fine.step hstep (hafter s b hs hd)
  | next => exact Fine.step hstep (hout _ hh hd)
  | done retval =>
    exact fine_done hstep ⟨hsuf.subset mem_cons_self, hdone retval rfl⟩ hh
  | skipto =>
    obtain ⟨g, rest', htarget⟩ := exists_cons_of_ne_nil
      (nextRule_ne_nil f (fun ofs => f.fw.cmd[ofs]?.getD 0) hne)
    have htarget : target f rest = g :: rest' := htarget
    have hg : ∀ s, SOk rules s → D s.dyn_dir → Fine env pkt rules (.again g rest') s := by
      intro s hs hd
      refine Fine.again (hrest _ s ?_ (cons_ne_nil g rest') hs hd)
      rw [← htarget]; exact nextRule_suffix
    cases hcache : s.cache f.addr with
    | some a =>
      refine Fine.step (t := s.hit f) (hstep.trans ?_) (hg _ hh hd)
      unfold chkFlow
      rw [hcache]
      dsimp only
      rw [suffixAt_cache hl hsuf hs hcache, htarget]
    | none =>
      obtain ⟨v, hlook, hv, hvd⟩ := lookupNextRule_spec env hl hact hsuf hh
      refine Fine.step (t := v) (hstep.trans ?_) (hg v hv (by rw [hvd]; exact hd))
      unfold chkFlow
      rw [hcache]
      dsimp only
      rw [hlook, htarget]
  | state =>
    have hstay : ∀ dir, D dir → Fine env pkt rules
        (if op = .O_CHECK_STATE then .outer rest else afterMatch f rest l ofs w true)
          { s with dyn_dir := dir } := by
      intro dir hdir
      have hs' : SOk rules { s with dyn_dir := dir } := ⟨hs.fetched, hs.cache⟩
      split
      · exact hout _ hs' hdir
      · exact hafter _ true hs' hdir
    have hpair : ∀ s : Chk, (if op = .O_CHECK_STATE then
          ((.inl (.outer rest), s) : (Pos ⊕ Outcome) × Chk)
        else (.inl (afterMatch f rest l ofs w true), s)) =
        (.inl (if op = .O_CHECK_STATE then .outer rest else afterMatch f rest l ofs w true),
          s) := by
      intro s
      split <;> rfl
    cases hdir : s.dyn_dir with
    | unknown =>
      cases hdyn : env.dyn with
      | none =>
        refine Fine.step (hstep.trans ?_) (hstay .none (hD (by rw [← hdir]; exact hd)))
        unfold chkFlow
        rw [hdir, hdyn]; exact hpair _
      | some x =>
        obtain ⟨a, forward⟩ := x
        obtain ⟨g, rest', hat⟩ := suffixAt_of_mem (henv.dyn a forward hdyn)
        have hD' : D .unknown := by rw [← hdir]; exact hd
        refine Fine.step (hstep.trans ?_) (hjump hD' s a forward g rest' hs hdyn hat)
        unfold chkFlow
        rw [hdir, hdyn]
        dsimp only
        rw [hat]
    | none =>
      refine Fine.step (hstep.trans ?_) (hstay .none (by rw [← hdir]; exact hd))
      unfold chkFlow
      rw [hdir]; exact hpair _
    | forward =>
      refine Fine.step (hstep.trans ?_) (hstay .forward (by rw [← hdir]; exact hd))
      unfold chkFlow
      rw [hdir]; exact hpair _
    | reverse =>
      refine Fine.step (hstep.trans ?_) (hstay .reverse (by rw [← hdir]; exact hd))
      unfold chkFlow
      rw [hdir]; exact hpair _

/-- One instruction of a rule that is not the last one, from what comes behind it. -/
theorem body_fine (hl : Linked rules) (hact : ∀ r ∈ rules, ActOk r.fw) (henv : EnvOk env rules)
    (hsuf : f :: rest <:+ rules) (hne : rest ≠ []) (hofs : Boundary f.fw.cmd ofs)
    (hw : f.fw.cmd[ofs]? = some w) (hop : opcodeOf w = some op) (hD : D .unknown → D .none)
    (hrest : RestFine env pkt rules D rest)
    (hadv : ∀ s b, SOk rules s → D s.dyn_dir → Fine env pkt rules (advance f rest l ofs w b) s)
    (hjump : D .unknown → JumpsFine env pkt rules) (hs : SOk rules s) (hd : D s.dyn_dir)
    (skip_or : Bool) : Fine env pkt rules (.body f rest l ofs skip_or) s := by
  have hword : wordAt env f ofs = w := wordAt_of_lt ofs w hw
  have hfetch : SOk rules (s.fetch f ofs) := hs.fetch ⟨hsuf.subset mem_cons_self, hofs⟩
  cases skip_or with
  | true =>
    refine Fine.step (t := s.fetch f ofs) ?_ (hadv _ (fOr w) hfetch hd)
    show chkBody env pkt rules f rest l ofs true s = _
    unfold chkBody
    rw [hword]; rfl
  | false =>
    refine flow_fine op hl hact henv hsuf hne hD hrest hadv hjump
      (s := { s.fetch f ofs with k := s.k + 1 }) ⟨hfetch.fetched, hfetch.cache⟩ hd
      (insnFlow env pkt s.k w (fun i => wordAt env f (ofs + 1 + i)) op)
      (fun retval h => ⟨ofs, w, op, _, _, hofs, hw, hop, h⟩) ?_
    show chkBody env pkt rules f rest l ofs false s = _
    unfold chkBody; simp only [hword, hop, Bool.false_eq_true, if_false]

/-- The instructions of a rule that is not the last one, from one of them on. -/
theorem walk_fine (hl : Linked rules) (hact : ∀ r ∈ rules, ActOk r.fw) (henv : EnvOk env rules)
    (hsuf : f :: rest <:+ rules) (hne : rest ≠ []) (hD : D .unknown → D .none)
    (hrest : RestFine env pkt rules D rest) (hjump : D .unknown → JumpsFine env pkt rules)
    (hofs : Boundary f.fw.cmd ofs) (hs : SOk rules s) (hd : D s.dyn_dir) (skip_or : Bool) :
    Fine env pkt rules (.body f rest (f.fw.cmd.length - ofs) ofs skip_or) s := by
  induction hn : f.fw.cmd.length - ofs using Nat.strong_induction_on
    generalizing ofs s skip_or with
  | _ n ih =>
    obtain ⟨w, hw⟩ := hofs.exists_word
    have hwalk := (hl.walk f (hsuf.subset mem_cons_self)).1.drop hofs
    have hlt := hofs.lt
    rw [drop_eq_cons hw] at hwalk
    obtain ⟨op, hop, hsize, hcase⟩ := hwalk.cons_inv
    have hpos := fLen_pos hsize
    rw [length_drop] at hcase
    refine body_fine hl hact henv hsuf hne hofs hw hop hD hrest (fun s b hs hd => ?_) hjump hs hd
      skip_or
    rcases hcase with ⟨-, hlen⟩ | ⟨-, hlen, -⟩
    · exact Fine.step (chkStep_inner_end (by omega))
        (hrest rest s (suffix_refl rest) hne hs hd)
    · have hnext := ih (f.fw.cmd.length - (ofs + fLen w)) (by omega)
        (hofs.next hw (by omega)) hs hd b rfl
      have hl : (f.fw.cmd.length : ℤ) - (ofs + fLen w : ℕ) = f.fw.cmd.length - ofs - fLen w := by
        push_cast; ring
      rw [hl] at hnext; exact Fine.step (chkStep_inner (by omega)) hnext

/-- The default rule ends with its action. -/
theorem default_fine (hmem : f ∈ rules) {accept : Bool} (hcmd : f.fw.cmd = (defaultFw accept).cmd)
    (hs : SOk rules s) : Fine env pkt rules (.body f rest l 0 false) s := by
  have hbound : Boundary f.fw.cmd 0 := Boundary.zero (by rw [hcmd]; exact one_pos)
  have hfetch : SOk rules (s.fetch f 0) := hs.fetch ⟨hmem, hbound⟩
  obtain ⟨w, hw⟩ := hbound.exists_word
  have hword : wordAt env f 0 = w := wordAt_of_lt 0 w hw
  obtain ⟨op, hop, retval, hflow⟩ : ∃ op, opcodeOf w = some op ∧ ∃ retval, ∀ d,
      insnFlow env pkt s.k w d op = .done retval := by
    rw [hcmd] at hw
    cases accept with
    | true =>
      have hw : w = 300#32 := (Option.some.inj hw).symm
      exact ⟨.O_ACCEPT, by rw [hw]; decide, 0, fun _ => rfl⟩
    | false =>
      have hw : w = 301#32 := (Option.some.inj hw).symm
      exact ⟨.O_DENY, by rw [hw]; decide, PORT_DENY_FLAG, fun _ => rfl⟩
  refine fine_done (f := f) (n := retval)
    (t := Chk.hit { s.fetch f 0 with k := s.k + 1 } f) ?_
    ⟨hmem, 0, _, op, s.k, fun _ => 0, hbound, hw, hop, hflow _⟩ ⟨hfetch.fetched, hfetch.cache⟩
  show chkBody env pkt rules f rest l 0 false s = _
  unfold chkBody
  simp only [hword, hop, Bool.false_eq_true, if_false, hflow]; rfl

/-- The last rule is the default rule. -/
theorem Linked.default_of_last (hl : Linked rules) (hsuf : [f] <:+ rules) :
    (∃ accept, f.fw.cmd = (defaultFw accept).cmd) ∧ f.fw.act_ofs = 0 ∧ f.fw.set = 31 := by
  obtain ⟨rs, d, accept, hrules, hcmd, hofs, hset, -⟩ := hl.last
  have hd : f = d := by
    obtain ⟨pre, hpre⟩ := hsuf
    have hlast : (pre ++ [f]).getLast? = (rs ++ [d]).getLast? := by rw [hpre, hrules]
    rw [List.getLast?_concat, List.getLast?_concat] at hlast; exact Option.some.inj hlast
  rw [hd]; exact ⟨⟨accept, hcmd⟩, hofs, hset⟩

/-- All rules, from one of them on. -/
theorem outer_fine (hl : Linked rules) (hact : ∀ r ∈ rules, ActOk r.fw) (henv : EnvOk env rules)
    (hD : D .unknown → D .none) (hjump : D .unknown → JumpsFine env pkt rules)
    (hsuf : fs <:+ rules) (hne : fs ≠ []) (hs : SOk rules s) (hd : D s.dyn_dir) :
    Fine env pkt rules (.outer fs) s := by
  induction hn : fs.length using Nat.strong_induction_on generalizing fs s with
  | _ n ih =>
    obtain ⟨f, rest, rfl⟩ := exists_cons_of_ne_nil hne
    have hmem : f ∈ rules := hsuf.subset mem_cons_self
    have hlen : rest.length < n := by rw [← hn]; exact Nat.lt_succ_self _
    have hrest : RestFine env pkt rules D rest := fun fs s hfs hne hs hd =>
      ih fs.length (by have := hfs.length_le; omega)
        (hfs.trans ((suffix_cons f rest).trans hsuf)) hne hs hd rfl
    have hcmd := hl.walk f hmem
    have hpos : 0 < f.fw.cmd.length := length_pos_of_ne_nil hcmd.1.ne_nil
    refine Fine.step (t := s) (q := .again f rest) rfl ?_
    by_cases hnil : rest = []
    · subst hnil
      obtain ⟨⟨accept, hdefault⟩, -, hset⟩ := hl.default_of_last hsuf
      have henabled : env.set_disable.getLsbD (f.fw.set.toNat % 32) = false := by
        rw [hset]; exact henv.set_disable
      refine Fine.step (t := s) (q := .inner f [] f.fw.cmd_len.toNat 0 false) ?_ ?_
      · unfold chkStep; simp only [henabled, Bool.false_eq_true, if_false]
      · exact Fine.step (chkStep_inner (by omega)) (default_fine hmem hdefault hs)
    · cases hset : env.set_disable.getLsbD (f.fw.set.toNat % 32) with
      | true =>
        refine Fine.step (t := s) ?_ (hrest rest s (suffix_refl rest) hnil hs hd)
        unfold chkStep; simp only [hset, if_true]
      | false =>
        have hbody := walk_fine hl hact henv hsuf hnil hD hrest hjump (Boundary.zero hpos) hs hd
          false
        rw [Nat.cast_zero, sub_zero, ← hcmd.2] at hbody
        refine Fine.step (t := s) (q := .inner f rest f.fw.cmd_len.toNat 0 false) ?_ ?_
        · unfold chkStep; simp only [hset, Bool.false_eq_true, if_false]
        · exact Fine.step (chkStep_inner (by omega)) hbody

/-- A dynamic rule leads to an action: behind it no other dynamic rule is looked up. -/
theorem jumps_fine (hl : Linked rules) (hact : ∀ r ∈ rules, ActOk r.fw)
    (henv : EnvOk env rules) : JumpsFine env pkt rules := by
  intro s a forward g rest hs hdyn hat
  have hsuf : g :: rest <:+ rules := by rw [← hat]; exact suffixAt_suffix a
  have hmem : g ∈ rules := hsuf.subset mem_cons_self
  have hs' : SOk rules { s with dyn_dir := if forward then .forward else .reverse } :=
    ⟨hs.fetched, hs.cache⟩
  by_cases hnil : rest = []
  · subst hnil
    obtain ⟨⟨accept, hdefault⟩, hofs, -⟩ := hl.default_of_last hsuf
    rw [hofs]; exact default_fine hmem hdefault hs'
  · have hknown : (if forward then Dir.forward else .reverse) ≠ .unknown := by
      cases forward <;> decide
    have hvac : Dir.unknown ≠ .unknown → JumpsFine env pkt rules := fun h => absurd rfl h
    have hrest : RestFine env pkt rules (fun dir => dir ≠ .unknown) rest :=
      fun fs s hfs hne hs hd => outer_fine (D := fun dir => dir ≠ .unknown) hl hact henv
        (fun h => absurd rfl h) hvac
        (hfs.trans ((suffix_cons g rest).trans hsuf)) hne hs hd
    have hbody := walk_fine hl hact henv hsuf hnil (fun h => absurd rfl h) hrest hvac (hact g hmem)
      hs' hknown false
    rw [← (hl.walk g hmem).2] at hbody; exact hbody

end Loops

/-! ## Packets -/

/-- A packet that comes back from dummynet is tagged with a rule that is not the default rule. -/
def TagOk (pkt : Pkt) (rules : List Rule) : Prop :=
  ∀ a, pkt.rule = some a → ∃ f rest, suffixAt rules a = f :: rest ∧ rest ≠ []

/-- The interpreter ends, with an action or before it looks at a rule, and has fetched instructions
    where they begin. -/
def Sound (env : Env) (pkt : Pkt) (rules : List Rule) : Prop :=
  ∃ fuel o s, ipfwChk env pkt rules fuel = some (o, s) ∧
    ((∃ f ∈ rules, ∃ retval, o = .done f retval ∧ DoneAt env pkt f retval) ∨
      ∃ retval, o = .early retval) ∧
    SOk rules s

/-- The loops end in one way. -/
theorem chkLoop_unique {fuel fuel' : ℕ} {x y : Outcome × Chk}
    (hx : chkLoop env pkt rules fuel p s = some x) (hy : chkLoop env pkt rules fuel' p s = some y) :
    x = y := by
  induction fuel generalizing fuel' p s with
  | zero => cases hx
  | succ fuel ih =>
    cases fuel' with
    | zero => cases hy
    | succ fuel' =>
      rw [chkLoop] at hx hy
      cases hstep : chkStep env pkt rules p s with
      | mk q t =>
        rw [hstep] at hx hy
        cases q with
        | inl p' => exact ih hx hy
        | inr o => exact Option.some.inj (hx.symm.trans hy)

theorem ipfwChk_unique {fuel fuel' : ℕ} {x y : Outcome × Chk}
    (hx : ipfwChk env pkt rules fuel = some x) (hy : ipfwChk env pkt rules fuel' = some y) :
    x = y := by
  unfold ipfwChk at hx hy
  cases hstart : chkStart env pkt rules ⟨cacheOf rules, .unknown, 0, [], []⟩ with
  | mk q s =>
    rw [hstart] at hx hy
    cases q with
    | inl p => exact chkLoop_unique hx hy
    | inr o => exact Option.some.inj (hx.symm.trans hy)

theorem Fine.sound {s₀ : Chk} (hs₀ : s₀ = ⟨cacheOf rules, .unknown, 0, [], []⟩)
    (h : Fine env pkt rules p s) (hstart : chkStart env pkt rules s₀ = (.inl p, s)) :
    Sound env pkt rules := by
  obtain ⟨fuel, f, retval, t, hloop, hmem, ht⟩ := h
  refine ⟨fuel, .done f retval, t, ?_, .inl ⟨f, hmem.1, retval, rfl, hmem.2⟩, ht⟩
  unfold ipfwChk
  rw [← hs₀, hstart]; exact hloop

/-- With every `act_ofs` where an instruction begins, every packet is handled soundly. -/
theorem sound_of_actOk (hl : Linked rules) (hact : ∀ r ∈ rules, ActOk r.fw)
    (hcache : CacheOk rules (cacheOf rules)) (henv : EnvOk env rules) (htag : TagOk pkt rules) :
    Sound env pkt rules := by
  obtain ⟨s₀, hs₀⟩ : ∃ s₀, s₀ = (⟨cacheOf rules, .unknown, 0, [], []⟩ : Chk) := ⟨_, rfl⟩
  have hs : SOk rules s₀ := by rw [hs₀]; exact ⟨fun x hx => (by cases hx), hcache⟩
  have hout : ∀ fs s, fs <:+ rules → fs ≠ [] → SOk rules s →
      Fine env pkt rules (.outer fs) s := fun fs s hfs hne hs =>
    outer_fine (D := fun _ => True) hl hact henv (fun h => h) (fun _ => jumps_fine hl hact henv)
      hfs hne hs trivial
  have hearly : ∀ retval, chkStart env pkt rules s₀ = (.inr (.early retval), s₀) →
      Sound env pkt rules := by
    intro retval hstart
    refine ⟨0, .early retval, s₀, ?_, .inr ⟨retval, rfl⟩, hs⟩
    unfold ipfwChk
    rw [← hs₀, hstart]
  have hne : rules ≠ [] := by
    obtain ⟨rs, d, accept, hrules, -⟩ := hl.last
    rw [hrules]; exact append_ne_nil_of_right_ne_nil rs (cons_ne_nil d [])
  cases hskip : pkt.skip_firewall with
  | true => exact hearly 0 (by unfold chkStart; rw [hskip]; rfl)
  | false =>
  cases hpull : pkt.pullup_failed with
  | true => exact hearly PORT_DENY_FLAG (by unfold chkStart; rw [hskip, hpull]; rfl)
  | false =>
  cases hrule : pkt.rule with
  | some a =>
    cases hpass : env.fw_one_pass with
    | true => exact hearly 0 (by unfold chkStart; rw [hskip, hpull, hrule, hpass]; rfl)
    | false =>
      obtain ⟨f, rest, hat, hrest⟩ := htag a hrule
      have hsuf : f :: rest <:+ rules := by rw [← hat]; exact suffixAt_suffix a
      have htarget : target f rest <:+ rules :=
        nextRule_suffix.trans ((suffix_cons f rest).trans hsuf)
      cases hc : s₀.cache f.addr with
      | some b =>
        refine (hout _ s₀ htarget (nextRule_ne_nil _ _ hrest) hs).sound hs₀ ?_
        simp only [chkStart, hskip, hpull, hrule, hpass, Bool.false_eq_true, if_false, hat, hc,
          suffixAt_cache hl hsuf hs hc]
      | none =>
        obtain ⟨v, hlook, hv, -⟩ := lookupNextRule_spec env hl hact hsuf hs
        refine (hout _ v htarget (nextRule_ne_nil _ _ hrest) hv).sound hs₀ ?_
        simp only [chkStart, hskip, hpull, hrule, hpass, Bool.false_eq_true, if_false, hat, hc,
          hlook]
  | none =>
    by_cases hdivert : pkt.eh.isNone ∧ pkt.divert_rule ≠ 0
    · by_cases hbound : defaultRule ≤ pkt.divert_rule
      · refine hearly PORT_DENY_FLAG ?_
        simp only [chkStart, hskip, hpull, hrule, Bool.false_eq_true, if_false, if_pos hdivert,
          if_pos hbound]
      · cases hdrop : rules.dropWhile fun f => f.num ≤ pkt.divert_rule with
        | nil =>
          refine hearly PORT_DENY_FLAG ?_
          simp only [chkStart, hskip, hpull, hrule, Bool.false_eq_true, if_false, if_pos hdivert,
            if_neg hbound, hdrop]
        | cons f rest =>
          have hsuf : f :: rest <:+ rules := by rw [← hdrop]; exact dropWhile_suffix _
          refine (hout _ s₀ hsuf (cons_ne_nil f rest) hs).sound hs₀ ?_
          simp only [chkStart, hskip, hpull, hrule, Bool.false_eq_true, if_false, if_pos hdivert,
            if_neg hbound, hdrop]
    · refine (hout _ s₀ (suffix_refl rules) hne hs).sound hs₀ ?_
      simp only [chkStart, hskip, hpull, hrule, Bool.false_eq_true, if_false, if_neg hdivert]

/-! ## A rule with another `act_ofs` -/

theorem chkFlow_fetched {op : Opcode} (flow : Flow) :
    s.fetched <:+ (chkFlow env rules f rest l ofs w op s flow).2.fetched := by
  cases flow with
  | isMatch b => exact suffix_refl _
  | next => exact suffix_refl _
  | done retval => exact suffix_refl _
  | skipto =>
    have hlook : s.fetched <:+ (lookupNextRule env f rest (s.hit f)).2.fetched :=
      (suffix_cons _ _).trans (suffix_cons _ _)
    dsimp only [chkFlow]
    split
    · split
      · exact suffix_refl _
      · exact suffix_refl _
    · split
      · rename_i hx
        rw [hx] at hlook; exact hlook
      · rename_i hx
        rw [hx] at hlook; exact hlook
  | state =>
    dsimp only [chkFlow]
    split
    · split
      · exact suffix_refl _
      · exact suffix_refl _
    · split
      · exact suffix_refl _
      · exact suffix_refl _

/-- What was fetched stays recorded. -/
theorem chkStep_fetched (env : Env) (pkt : Pkt) (rules : List Rule) (s : Chk) (p : Pos) :
    s.fetched <:+ (chkStep env pkt rules p s).2.fetched := by
  match p with
  | .outer [] => exact suffix_refl _
  | .outer (f :: rest) => exact suffix_refl _
  | .again f rest =>
    unfold chkStep
    dsimp only
    split
    · exact suffix_refl _
    · exact suffix_refl _
  | .inner f rest l ofs skip_or =>
    unfold chkStep
    dsimp only
    split
    · exact suffix_refl _
    · exact suffix_refl _
  | .body f rest l ofs skip_or =>
    have hfetch : s.fetched <:+ (s.fetch f ofs).fetched := suffix_cons _ _
    show s.fetched <:+ (chkBody env pkt rules f rest l ofs skip_or s).2.fetched
    unfold chkBody
    dsimp only
    split
    · exact hfetch
    · split
      · exact hfetch
      · exact hfetch.trans (chkFlow_fetched (s := { s.fetch f ofs with k := s.k + 1 }) _)

theorem chkLoop_fetched {fuel : ℕ} {o : Outcome}
    (h : chkLoop env pkt rules fuel p s = some (o, t)) : s.fetched <:+ t.fetched := by
  induction fuel generalizing p s with
  | zero => cases h
  | succ fuel ih =>
    have hstep := chkStep_fetched env pkt rules s p
    rw [chkLoop] at h
    cases hq : chkStep env pkt rules p s with
    | mk q u =>
      rw [hq] at h hstep
      cases q with
      | inl p' => exact hstep.trans (ih h)
      | inr o' =>
        obtain ⟨-, rfl⟩ := Prod.ext_iff.1 (Option.some.inj h)
        exact hstep

/-- A packet that is tagged with a rule, and nothing else. -/
def taggedPkt (a : ℕ) : Pkt :=
  { skip_firewall := false, pullup_failed := false, eh := none, oif := none, rcvif := none
    hlen := 20, offset := 0, proto := IPPROTO_TCP, src_ip := 0, dst_ip := 0, f_src := 0, f_dst := 0
    src_port := 0, dst_port := 0, ip_len := 40, pktlen := 40, ip_ttl := 64, ip_id := 0, ip_v := 4
    ip_tos := 0, th_flags := 0, th_seq := 0, th_ack := 0, th_win := 0, rule := some a
    divert_rule := 0 }

/-- Code that answers no, without dynamic rules. -/
def plainEnv : Env :=
  { verdict := fun _ => false, install := fun _ => false, dyn := none, set_disable := 0
    fw_one_pass := false, junk := fun _ _ => 0 }

theorem plainEnv_ok : EnvOk plainEnv rules :=
  ⟨by decide, fun _ _ h => (by cases h)⟩

/-- A packet that is tagged with a rule whose link is not known looks at its `act_ofs`. -/
theorem actOk_of_sound (hsuf : f :: rest <:+ rules) (hn : (rules.map Rule.addr).Nodup)
    (hnew : f.next_rule = none) (h : Sound plainEnv (taggedPkt f.addr) rules) : ActOk f.fw := by
  obtain ⟨fuel, o, t, hchk, -, ht⟩ := h
  have hat := suffixAt_eq hn hsuf
  have hcache : cacheOf rules f.addr = none := by
    unfold cacheOf
    rw [hat]; exact hnew
  have hstart : chkStart plainEnv (taggedPkt f.addr) rules ⟨cacheOf rules, .unknown, 0, [], []⟩ =
      (.inl (.outer (lookupNextRule plainEnv f rest ⟨cacheOf rules, .unknown, 0, [], []⟩).1),
        (lookupNextRule plainEnv f rest ⟨cacheOf rules, .unknown, 0, [], []⟩).2) := by
    simp only [chkStart, taggedPkt, plainEnv, Bool.false_eq_true, if_false, hat, hcache]
  unfold ipfwChk at hchk
  rw [hstart] at hchk
  have hsub := chkLoop_fetched hchk
  exact (ht.fetched (f, f.fw.act_ofs.toNat)
    (hsub.subset (mem_cons_of_mem _ mem_cons_self))).2

/-! ## Packets one after the other -/

/-- What the interpreter leaves of a rule. -/
structure SameRule (g : Rule → Rule) : Prop where
  addr : ∀ r, (g r).addr = r.addr
  rulenum : ∀ r, (g r).fw.rulenum = r.fw.rulenum
  act_ofs : ∀ r, (g r).fw.act_ofs = r.fw.act_ofs
  cmd_len : ∀ r, (g r).fw.cmd_len = r.fw.cmd_len
  set : ∀ r, r.num = defaultRule → (g r).fw.set = r.fw.set
  cmd : ∀ r, (g r).fw.cmd = r.fw.cmd

variable {m : Rule → Rule}

theorem SameRule.num (hm : SameRule m) (r : Rule) : (m r).num = r.num := by
  unfold Rule.num
  rw [hm.rulenum]

theorem SameRule.addrs (hm : SameRule m) (l : List Rule) :
    (l.map m).map Rule.addr = l.map Rule.addr := by
  rw [map_map]; exact map_congr_left fun r _ => hm.addr r

theorem SameRule.suffixAt (hm : SameRule m) (a : ℕ) :
    suffixAt (rules.map m) a = (IpFw2.suffixAt rules a).map m := by
  induction rules with
  | nil => rfl
  | cons f rules ih =>
    rw [map_cons, suffixAt_cons, suffixAt_cons, hm.addr]
    split
    · rfl
    · exact ih

theorem SameRule.target (hm : SameRule m) :
    target (m f) (rest.map m) = (IpFw2.target f rest).map m := by
  have hofs : ∀ word, actionOfs word (m f) = actionOfs word f := fun word => by
    unfold actionOfs
    rw [hm.act_ofs]
  have hdrop : ∀ k, (rest.map m).dropWhile (fun r => decide (r.num < k)) =
      (rest.dropWhile fun r => decide (r.num < k)).map m := by
    intro k
    rw [dropWhile_map]
    congr 1
    refine congrArg (fun p => rest.dropWhile p) (funext fun r => ?_)
    show decide ((m r).num < k) = _
    rw [hm.num]
  unfold IpFw2.target nextRule
  dsimp only
  rw [hm.cmd, hofs, hdrop]
  split
  · split
    · rename_i hnil
      rw [if_pos (map_eq_nil_iff.1 hnil)]
    · rename_i hne
      rw [if_neg (fun h => hne (by rw [h]; rfl))]
  · rfl

theorem SameRule.linked (hm : SameRule m) (hl : Linked rules) : Linked (rules.map m) := by
  refine ⟨?_, fun r hr => ?_, ?_⟩
  · rw [hm.addrs]; exact hl.nodup
  · obtain ⟨r', hr', rfl⟩ := mem_map.1 hr
    rw [hm.cmd, hm.cmd_len]; exact hl.walk r' hr'
  · obtain ⟨rs, d, accept, hrules, hcmd, hofs, hset, hd, hlt⟩ := hl.last
    refine ⟨rs.map m, m d, accept, ?_, (hm.cmd d).trans hcmd, (hm.act_ofs d).trans hofs,
      (hm.set d hd).trans hset, (hm.num d).trans hd, fun r hr => ?_⟩
    · rw [hrules, map_append]; rfl
    · obtain ⟨r', hr', rfl⟩ := mem_map.1 hr
      rw [hm.num]; exact hlt r' hr'

theorem SameRule.actOk (hm : SameRule m) (hact : ∀ r ∈ rules, ActOk r.fw) :
    ∀ r ∈ rules.map m, ActOk r.fw := by
  intro r hr
  obtain ⟨r', hr', rfl⟩ := mem_map.1 hr
  unfold ActOk
  rw [hm.cmd, hm.act_ofs]; exact hact r' hr'

/-- The rest of a list of rules that were changed. -/
theorem suffix_of_map (h : f :: rest <:+ rules.map m) :
    ∃ f' rest', f' :: rest' <:+ rules ∧ f = m f' ∧ rest = rest'.map m := by
  obtain ⟨pre, hpre⟩ := h
  obtain ⟨pre', suf, hrules, -, hsuf⟩ := map_eq_append_iff.1 hpre.symm
  obtain ⟨f', rest', rfl, rfl, rfl⟩ := map_eq_cons_iff.1 hsuf
  exact ⟨f', rest', ⟨pre', hrules.symm⟩, rfl, rfl⟩

/-- The links after the rules were changed are right if those that were written are. -/
theorem SameRule.cacheOk (hm : SameRule m) (hl : Linked rules) {cache : ℕ → Option ℕ}
    (hnext : ∀ r ∈ rules, (m r).next_rule = cache r.addr) (hcache : CacheOk rules cache) :
    CacheOk (rules.map m) (cacheOf (rules.map m)) := by
  intro f rest a hsuf hc
  obtain ⟨f', rest', hsuf', rfl, rfl⟩ := suffix_of_map hsuf
  unfold cacheOf at hc
  rw [hm.addr, hm.suffixAt, suffixAt_eq hl.nodup hsuf'] at hc
  have hc : (m f').next_rule = some a := hc
  rw [hnext f' (hsuf'.subset mem_cons_self)] at hc
  have h := hcache f' rest' a hsuf' hc
  rw [hm.target]
  obtain ⟨g, hg, rfl⟩ := Option.map_eq_some_iff.1 h
  rw [List.head?_map, hg]; exact congrArg some (hm.addr g)

theorem writeBack_same (pkt : Pkt) (timestamp : BitVec 32) : SameRule fun r =>
    { r with
      next_rule := s.cache r.addr
      fw := { r.fw with
        pcnt := r.fw.pcnt + BitVec.ofNat 64 (s.hits.count r.addr)
        bcnt := r.fw.bcnt + BitVec.ofNat 64 (s.hits.count r.addr * pkt.pktlen)
        timestamp := if s.hits.count r.addr = 0 then r.fw.timestamp else timestamp } } :=
  ⟨fun _ => rfl, fun _ => rfl, fun _ => rfl, fun _ => rfl, fun _ _ => rfl, fun _ => rfl⟩

/-- A packet goes through the rules. -/
def PktStep (rules rules' : List Rule) : Prop :=
  ∃ env pkt timestamp fuel o s, EnvOk env rules ∧ TagOk pkt rules ∧
    ipfwChk env pkt rules fuel = some (o, s) ∧ rules' = writeBack pkt timestamp s rules

/-- What every packet keeps of the rules. -/
structure RulesOk (rules : List Rule) : Prop where
  linked : Linked rules
  act : ∀ r ∈ rules, ActOk r.fw
  cache : CacheOk rules (cacheOf rules)

theorem RulesOk.step {rules' : List Rule} (h : RulesOk rules) (hstep : PktStep rules rules') :
    RulesOk rules' := by
  obtain ⟨env, pkt, timestamp, fuel, o, s, henv, htag, hchk, rfl⟩ := hstep
  obtain ⟨fuel', o', s', hchk', -, hs'⟩ := sound_of_actOk h.linked h.act h.cache henv htag
  obtain ⟨-, rfl⟩ := Prod.ext_iff.1 (ipfwChk_unique hchk hchk')
  have hsame := writeBack_same (s := s) pkt timestamp
  exact ⟨hsame.linked h.linked, hsame.actOk h.act,
    hsame.cacheOk h.linked (fun _ _ => rfl) hs'.cache⟩

/-- Whatever packets have come before, every packet is handled soundly, exactly if every `act_ofs`
    is where an instruction begins. -/
theorem chk_sound_iff (hl : Linked rules) (hnew : ∀ r ∈ rules, r.next_rule = none) :
    (∀ rules', Relation.ReflTransGen PktStep rules rules' → ∀ env pkt, EnvOk env rules' →
      TagOk pkt rules' → Sound env pkt rules') ↔ ∀ r ∈ rules, ActOk r.fw := by
  have hcache : ∀ a, cacheOf rules a = none := by
    intro a
    unfold cacheOf
    cases hat : suffixAt rules a with
    | nil => rfl
    | cons f rest => exact hnew f ((suffixAt_suffix a).subset
      (by rw [hat]; exact mem_cons_self))
  constructor
  · intro h f hf
    obtain ⟨pre, rest, hrules⟩ := append_of_mem hf
    have hsuf : f :: rest <:+ rules := ⟨pre, hrules.symm⟩
    by_cases hrest : rest = []
    · subst hrest
      unfold ActOk
      rw [(hl.default_of_last hsuf).2.1]
      exact Boundary.zero (length_pos_of_ne_nil (hl.walk f hf).1.ne_nil)
    · refine actOk_of_sound hsuf hl.nodup (hnew f hf) (h rules .refl plainEnv _ plainEnv_ok ?_)
      intro a ha
      obtain rfl := Option.some.inj ha
      exact ⟨f, rest, suffixAt_eq hl.nodup hsuf, hrest⟩
  · intro hact rules' hrun env pkt henv htag
    have hok : RulesOk rules' := by
      clear henv htag
      induction hrun with
      | refl =>
        refine ⟨hl, hact, fun f rest a _ hc => ?_⟩
        rw [hcache] at hc
        cases hc
      | tail _ hstep ih => exact ih.step hstep
    exact sound_of_actOk hok.linked hok.act hok.cache henv htag

/-- A rule of one word that is accepted. -/
theorem walk_deny : Walk [301#32] :=
  @Walk.action _ _ .O_DENY (by decide) (by decide) rfl (by decide)

theorem walk_accept : Walk [300#32] :=
  @Walk.action _ _ .O_ACCEPT (by decide) (by decide) rfl (by decide)

/-- The rule `deny` in front of the default rule, as `add_rule` leaves it. -/
def denyRules (act_ofs : BitVec 16) : List Rule :=
  [⟨1, { denyFw 100 with act_ofs := act_ofs }, none⟩, ⟨0, defaultFw true, none⟩]

theorem denyRules_added (act_ofs : BitVec 16) :
    checkIpfwStruct { denyFw 100 with act_ofs := act_ofs } =
        .ok { denyFw 100 with act_ofs := act_ofs } ∧
      (addRule (initial true) { denyFw 100 with act_ofs := act_ofs } true).1.rules =
        denyRules act_ofs := by
  refine ⟨?_, rfl⟩
  have hcheck : checkLoop false [301#32] = .ok [301#32] := by
    have h := deny_accepted 100
    unfold checkIpfwStruct at h
    have h : (checkLoop false [301#32]).map (fun cmd => { denyFw 100 with cmd := cmd }) =
        .ok (denyFw 100) := h
    cases hc : checkLoop false [301#32] with
    | error e =>
      rw [hc] at h
      cases h
    | ok cmd =>
      rw [hc] at h; exact congrArg Except.ok (congrArg IpFw.cmd (Except.ok.inj h))
  show (checkLoop false [301#32]).map _ = _
  rw [hcheck]; rfl

theorem denyRules_linked (act_ofs : BitVec 16) : Linked (denyRules act_ofs) := by
  refine ⟨?_, fun r hr => ?_, ⟨[_], _, true, rfl, rfl, rfl, rfl, rfl, fun r hr => ?_⟩⟩
  · show ([1, 0] : List ℕ).Nodup; decide
  · rcases mem_cons.1 hr with rfl | hr
    · exact ⟨walk_deny, rfl⟩
    · rw [mem_singleton.1 hr]; exact ⟨walk_accept, rfl⟩
  · rw [mem_singleton.1 hr]; exact (by decide : 100 < 65535)

end FreeBSD.IpFw2
