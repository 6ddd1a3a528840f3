import Mathlib.Tactic

/-!
# The rules of the firewall, `netinet/ip_fw2.c`

A rule is a header and an array of 32-bit words, in which instructions of one or more words follow
each other; pointers have 32 bits. The list of rules is a Lean list. `malloc` numbers the rules in
the order in which they are allocated, and these numbers stand for the addresses.

`IPFW_LOCK` is held in each operation from where the list is read first to where it is written last,
so an operation is one step. The dynamic rules, which `remove_rule` deletes as well, and the texts
that are printed are no part of this.
-/

namespace FreeBSD.IpFw2

abbrev Word := BitVec 32

inductive Errno
  | EINVAL | ENOSPC
  deriving DecidableEq

/-! ## Instructions -/

/-- `enum ipfw_opcodes` (ip_fw.h:51-131), without `O_LIMIT_PARENT`, which is none. -/
inductive Opcode
  | O_NOP | O_IP_SRC | O_IP_SRC_MASK | O_IP_SRC_ME | O_IP_SRC_SET
  | O_IP_DST | O_IP_DST_MASK | O_IP_DST_ME | O_IP_DST_SET
  | O_IP_SRCPORT | O_IP_DSTPORT | O_PROTO | O_MACADDR2 | O_MAC_TYPE
  | O_LAYER2 | O_IN | O_FRAG | O_RECV | O_XMIT | O_VIA
  | O_IPOPT | O_IPLEN | O_IPID | O_IPTOS | O_IPPRECEDENCE | O_IPTTL
  | O_IPVER | O_UID | O_GID | O_ESTAB | O_TCPFLAGS | O_TCPWIN | O_TCPSEQ | O_TCPACK
  | O_ICMPTYPE | O_TCPOPTS | O_VERREVPATH | O_PROBE_STATE | O_KEEP_STATE | O_LIMIT
  | O_LOG | O_PROB | O_CHECK_STATE | O_ACCEPT | O_DENY | O_REJECT | O_COUNT | O_SKIPTO
  | O_PIPE | O_QUEUE | O_DIVERT | O_TEE | O_FORWARD_IP | O_FORWARD_MAC | O_IPSEC
  deriving DecidableEq

/-- The opcodes in the order of their numbers; 40 is `O_LIMIT_PARENT`. -/
def opcodes : List (Option Opcode) :=
  [some .O_NOP, some .O_IP_SRC, some .O_IP_SRC_MASK, some .O_IP_SRC_ME, some .O_IP_SRC_SET,
    some .O_IP_DST, some .O_IP_DST_MASK, some .O_IP_DST_ME, some .O_IP_DST_SET,
    some .O_IP_SRCPORT, some .O_IP_DSTPORT, some .O_PROTO, some .O_MACADDR2, some .O_MAC_TYPE,
    some .O_LAYER2, some .O_IN, some .O_FRAG, some .O_RECV, some .O_XMIT, some .O_VIA,
    some .O_IPOPT, some .O_IPLEN, some .O_IPID, some .O_IPTOS, some .O_IPPRECEDENCE,
    some .O_IPTTL, some .O_IPVER, some .O_UID, some .O_GID, some .O_ESTAB, some .O_TCPFLAGS,
    some .O_TCPWIN, some .O_TCPSEQ, some .O_TCPACK, some .O_ICMPTYPE, some .O_TCPOPTS,
    some .O_VERREVPATH, some .O_PROBE_STATE, some .O_KEEP_STATE, some .O_LIMIT, none,
    some .O_LOG, some .O_PROB, some .O_CHECK_STATE, some .O_ACCEPT, some .O_DENY,
    some .O_REJECT, some .O_COUNT, some .O_SKIPTO, some .O_PIPE, some .O_QUEUE, some .O_DIVERT,
    some .O_TEE, some .O_FORWARD_IP, some .O_FORWARD_MAC, some .O_IPSEC]

/-- The fields of `ipfw_insn` (ip_fw.h:158-168). -/
def opcodeOf (w : Word) : Option Opcode := (opcodes[w.toNat % 2 ^ 8]?).join
def lenOf (w : Word) : ℕ := w.toNat / 2 ^ 8 % 2 ^ 8
def arg1Of (w : Word) : ℕ := w.toNat / 2 ^ 16

/-- `F_LEN`, `F_NOT` and `F_OR`. -/
def fLen (w : Word) : ℕ := lenOf w % 2 ^ 6
def fNot (w : Word) : Bool := lenOf w / 2 ^ 7 = 1
def fOr (w : Word) : Bool := lenOf w / 2 ^ 6 % 2 = 1

/-- The tests on the length of an instruction (lines 2516-2634). -/
def sizeOk (w : Word) : Opcode → Bool
  | .O_PROBE_STATE | .O_KEEP_STATE | .O_PROTO | .O_IP_SRC_ME | .O_IP_DST_ME | .O_LAYER2 | .O_IN
  | .O_FRAG | .O_IPOPT | .O_IPTOS | .O_IPPRECEDENCE | .O_IPVER | .O_TCPWIN | .O_TCPFLAGS
  | .O_TCPOPTS | .O_ESTAB | .O_VERREVPATH | .O_IPSEC => fLen w = 1
  | .O_UID | .O_GID | .O_IP_SRC | .O_IP_DST | .O_TCPSEQ | .O_TCPACK | .O_PROB | .O_ICMPTYPE =>
    fLen w = 2
  | .O_LIMIT => fLen w = 2
  | .O_LOG => fLen w = 3
  | .O_IP_SRC_MASK | .O_IP_DST_MASK => fLen w % 2 = 1 ∧ fLen w ≤ 31
  | .O_IP_SRC_SET | .O_IP_DST_SET =>
    arg1Of w ≠ 0 ∧ arg1Of w ≤ 256 ∧ fLen w = 2 + (arg1Of w + 31) / 32
  | .O_MACADDR2 => fLen w = 7
  | .O_NOP | .O_IPID | .O_IPTTL | .O_IPLEN => 1 ≤ fLen w ∧ fLen w ≤ 31
  | .O_MAC_TYPE | .O_IP_SRCPORT | .O_IP_DSTPORT => 2 ≤ fLen w ∧ fLen w ≤ 31
  | .O_RECV | .O_XMIT | .O_VIA => fLen w = 6
  | .O_PIPE | .O_QUEUE => fLen w = 2
  | .O_FORWARD_IP => fLen w = 5
  | .O_FORWARD_MAC | .O_CHECK_STATE | .O_COUNT | .O_ACCEPT | .O_DENY | .O_REJECT | .O_SKIPTO
  | .O_DIVERT | .O_TEE => fLen w = 1

/-- The opcodes that go to `check_action`. -/
def Opcode.isAction : Opcode → Bool
  | .O_PIPE | .O_QUEUE | .O_FORWARD_IP | .O_FORWARD_MAC | .O_CHECK_STATE | .O_COUNT | .O_ACCEPT
  | .O_DENY | .O_REJECT | .O_SKIPTO | .O_DIVERT | .O_TEE => true
  | _ => false

/-- `log_left = max_log` in an `O_LOG` (lines 2557-2558). -/
def resetLog (cmd : List Word) : List Word :=
  match cmd with
  | w :: max_log :: log_left :: rest =>
    w :: max_log :: (if opcodeOf w = some .O_LOG then max_log else log_left) :: rest
  | _ => cmd

theorem fLen_pos {w : Word} {op : Opcode} (h : sizeOk w op = true) : 0 < fLen w := by
  cases op <;> simp only [sizeOk, decide_eq_true_eq] at h <;> omega

/-! ## Rules -/

/-- `struct ip_fw` without its links (ip_fw.h:293-312). -/
structure IpFw where
  act_ofs : BitVec 16
  cmd_len : BitVec 16
  rulenum : BitVec 16
  set : BitVec 8
  pcnt : BitVec 64
  bcnt : BitVec 64
  timestamp : BitVec 32
  cmd : List Word
  deriving DecidableEq

/-- `IPFW_DEFAULT_RULE` (line 111) and `RESVD_SET`. -/
def defaultRule : ℕ := 65535
def resvdSet : ℕ := 31

/-- `RULESIZE`: the header has 36 bytes in front of `cmd`. -/
def RULESIZE (rule : IpFw) : ℕ := 36 + rule.cmd_len.toNat * 4

/-- The loop of `check_ipfw_struct` over the words that are left (lines 2504-2649). -/
def checkLoop (have_action : Bool) (cmd : List Word) : Except Errno (List Word) :=
  match cmd with
  | [] => if have_action then .ok [] else .error .EINVAL
  | w :: rest =>
    if rest.length + 1 < fLen w then .error .EINVAL
    else
      match opcodeOf w with
      | none => .error .EINVAL
      | some op =>
        if _h : sizeOk w op = true then
          if op.isAction ∧ (have_action ∨ rest.length + 1 ≠ fLen w) then .error .EINVAL
          else
            (checkLoop (have_action || op.isAction) ((w :: rest).drop (fLen w))).map
              ((resetLog (w :: rest)).take (fLen w) ++ ·)
        else .error .EINVAL
termination_by cmd.length
decreasing_by
  have := fLen_pos _h
  simp only [List.length_drop, List.length_cons]; omega

/-- `check_ipfw_struct` on a buffer of `36 + 4 * rule.cmd.length` bytes (lines 2481-2659). -/
def checkIpfwStruct (rule : IpFw) : Except Errno IpFw :=
  if rule.cmd.length < 1 then .error .EINVAL
  else if rule.cmd_len.toNat ≠ rule.cmd.length then .error .EINVAL
  else (checkLoop false rule.cmd).map fun cmd => { rule with cmd := cmd }

/-- A rule with its address and its link `next_rule`. -/
structure Rule where
  addr : ℕ
  fw : IpFw
  next_rule : Option ℕ
  deriving DecidableEq

def Rule.num (r : Rule) : ℕ := r.fw.rulenum.toNat

/-- `layer3_chain` with the variables of the rules; `nalloc` rules have been allocated, and those at
    `freed` given back. -/
structure IpFwChain where
  rules : List Rule
  reap : List Rule
  static_count : BitVec 32
  static_len : BitVec 32
  autoinc_step : ℤ
  nalloc : ℕ
  freed : List ℕ

/-! ## Adding rules -/

/-- `flush_rule_ptrs` (lines 2114-2123). -/
def flushRulePtrs (rules : List Rule) : List Rule :=
  rules.map fun rule => { rule with next_rule := none }

/-- The largest number in front of the default rule (lines 2199-2203). -/
def highest : List Rule → BitVec 16 → BitVec 16
  | [], rulenum => rulenum
  | f :: rules, rulenum =>
    if f.num = defaultRule then rulenum else highest rules f.fw.rulenum

/-- The insertion (lines 2212-2223). -/
def insertRule (rule : Rule) : List Rule → List Rule
  | [] => []
  | f :: rules =>
    if rule.num < f.num then rule :: f :: rules else f :: insertRule rule rules

/-- The bounds of `autoinc_step` (lines 2191-2194). -/
def clampStep (autoinc_step : ℤ) : ℤ :=
  if autoinc_step < 1 then 1 else if 1000 < autoinc_step then 1000 else autoinc_step

/-- The number of a rule that is added (lines 2195-2207). -/
def ruleNumber (rules : List Rule) (autoinc_step : ℤ) (rulenum : BitVec 16) : BitVec 16 :=
  if rulenum = 0 then
    let high := highest rules rulenum
    if (high.toNat : ℤ) < defaultRule - autoinc_step then
      BitVec.ofInt 16 (high.toNat + autoinc_step)
    else high
  else rulenum

/-- `add_rule` (lines 2158-2232), with whether `malloc` has memory, and the number that the caller
    is told. -/
def addRule (c : IpFwChain) (input_rule : IpFw) (mem : Bool) :
    IpFwChain × Option Errno × BitVec 16 :=
  if c.rules = [] ∧ input_rule.rulenum.toNat ≠ defaultRule then
    (c, some .EINVAL, input_rule.rulenum)
  else if mem then
    let fw := { input_rule with pcnt := 0, bcnt := 0, timestamp := 0 }
    let l := BitVec.ofNat 32 (RULESIZE input_rule)
    let c := { c with
      static_count := c.static_count + 1, static_len := c.static_len + l, nalloc := c.nalloc + 1 }
    if c.rules = [] then
      ({ c with rules := [⟨c.nalloc - 1, fw, none⟩] }, none, fw.rulenum)
    else
      let step := clampStep c.autoinc_step
      let fw := { fw with rulenum := ruleNumber c.rules step fw.rulenum }
      ({ c with
          rules := flushRulePtrs (insertRule ⟨c.nalloc - 1, fw, none⟩ c.rules)
          autoinc_step := step }, none, fw.rulenum)
  else (c, some .ENOSPC, input_rule.rulenum)

/-! ## Removing rules -/

/-- `remove_rule` of a rule behind `before` and in front of `n` (lines 2242-2267). -/
def removeRule (c : IpFwChain) (before : List Rule) (rule : Rule) (n : List Rule) : IpFwChain :=
  { c with
    rules := before ++ n
    static_count := c.static_count - 1
    static_len := c.static_len - BitVec.ofNat 32 (RULESIZE rule.fw)
    reap := rule :: c.reap }

/-- `reap_rules` (lines 2273-2284). -/
def reapRules (c : IpFwChain) (head : List Rule) : IpFwChain :=
  { c with freed := c.freed ++ head.map Rule.addr }

/-- The loop of `free_chain` (lines 2297-2303), at the rules behind `before`. -/
def freeLoop (kill_default : Bool) (c : IpFwChain) (before : List Rule) : List Rule → IpFwChain
  | [] => c
  | rule :: n =>
    if kill_default ∨ rule.fw.set.toNat ≠ resvdSet then
      freeLoop kill_default (removeRule c before rule n) before n
    else freeLoop kill_default c (before ++ [rule]) n

/-- `free_chain` (lines 2291-2304). -/
def freeChain (c : IpFwChain) (kill_default : Bool) : IpFwChain :=
  let rules := flushRulePtrs c.rules
  freeLoop kill_default { c with rules := rules } [] rules

/-- The search for the first rule to delete (lines 2348-2349), with the rules up to there. Here and
    below `none` is a read through a null pointer. -/
def findNumber (rulenum : ℕ) (before : List Rule) : List Rule → Option (List Rule × List Rule)
  | [] => none
  | rule :: n =>
    if rule.num < rulenum then findNumber rulenum (before ++ [rule]) n
    else some (before, rule :: n)

/-- The loop that deletes the rules of a number (lines 2360-2361). -/
def deleteNumber (rulenum : ℕ) (c : IpFwChain) (before : List Rule) :
    List Rule → Option IpFwChain
  | [] => none
  | rule :: n =>
    if rule.num = rulenum then deleteNumber rulenum (removeRule c before rule n) before n
    else some c

/-- The loop that deletes the rules of a set (lines 2367-2373). -/
def deleteSet (set : ℕ) (c : IpFwChain) (before : List Rule) : List Rule → Option IpFwChain
  | [] => none
  | rule :: n =>
    if rule.num < defaultRule then
      if rule.fw.set.toNat = set then deleteSet set (removeRule c before rule n) before n
      else deleteSet set c (before ++ [rule]) n
    else some c

/-- The loops that give a rule another set (lines 2377-2394). -/
def moveSets (new : IpFw → BitVec 8) : List Rule → Option (List Rule)
  | [] => none
  | rule :: n =>
    if rule.num < defaultRule then
      (moveSets new n).map ({ rule with fw := { rule.fw with set := new rule.fw } } :: ·)
    else some (rule :: n)

/-- The switch of `del_entry` (lines 2342-2395), and whether the rules of the number were found. -/
def delSwitch (c : IpFwChain) (cmd rulenum : ℕ) (new_set : BitVec 8) :
    Option (IpFwChain × Bool) :=
  match cmd with
  | 0 =>
    match findNumber rulenum [] c.rules with
    | some (before, rule :: n) =>
      if rule.num ≠ rulenum then some (c, false)
      else
        (deleteNumber rulenum { c with rules := flushRulePtrs c.rules } (flushRulePtrs before)
          (flushRulePtrs (rule :: n))).map (·, true)
    | _ => none
  | 1 =>
    (deleteSet rulenum { c with rules := flushRulePtrs c.rules } [] (flushRulePtrs c.rules)).map
      (·, true)
  | 2 =>
    (moveSets (fun fw => if fw.rulenum.toNat = rulenum then new_set else fw.set) c.rules).map
      fun rules => ({ c with rules := rules }, true)
  | 3 =>
    (moveSets (fun fw => if fw.set.toNat = rulenum then new_set else fw.set) c.rules).map
      fun rules => ({ c with rules := rules }, true)
  | _ =>
    (moveSets (fun fw => if fw.set.toNat = rulenum then new_set
      else if fw.set = new_set then BitVec.ofNat 8 rulenum else fw.set) c.rules).map
      fun rules => ({ c with rules := rules }, true)

/-- `del_entry` (lines 2319-2410). -/
def delEntry (c : IpFwChain) (arg : Word) : Option (IpFwChain × Option Errno) :=
  let rulenum := arg.toNat % 2 ^ 16
  let cmd := arg.toNat / 2 ^ 24
  let new_set := BitVec.ofNat 8 (arg.toNat / 2 ^ 16)
  if 4 < cmd ∨ resvdSet < new_set.toNat then some (c, some .EINVAL)
  else if (if cmd = 0 ∨ cmd = 2 then defaultRule ≤ rulenum else resvdSet < rulenum) then
    some (c, some .EINVAL)
  else
    match delSwitch { c with reap := [] } cmd rulenum new_set with
    | none => none
    | some (c, false) => some (c, some .EINVAL)
    | some (c, true) => some (reapRules { c with reap := [] } c.reap, none)

/-! ## The socket options -/

/-- `sooptcopyin` for `IP_FW_ADD`: 1024 bytes are copied in at most. -/
def copyin (rule : IpFw) : IpFw := { rule with cmd := rule.cmd.take 247 }

/-- `IP_FW_ADD` (lines 2792-2802). -/
def ipFwAdd (c : IpFwChain) (rule : IpFw) (mem : Bool) : IpFwChain × Option Errno × BitVec 16 :=
  match checkIpfwStruct (copyin rule) with
  | .error e => (c, some e, rule.rulenum)
  | .ok rule => addRule c rule mem

/-- `IP_FW_FLUSH` (lines 2783-2790): what is to be freed is looked for behind where it was moved to
    `rule`. -/
def ipFwFlush (c : IpFwChain) : IpFwChain :=
  let c := freeChain { c with reap := [] } false
  let rule := c.reap
  let c := { c with reap := [] }
  if c.reap ≠ [] then reapRules c rule else c

/-- The default rule (lines 2937-2950). -/
def defaultFw (accept : Bool) : IpFw :=
  { act_ofs := 0, cmd_len := 1, rulenum := 65535, set := 31, pcnt := 0, bcnt := 0, timestamp := 0
    cmd := [if accept then 300#32 else 301#32] }

/-- `ipfw_init` (lines 2924-2975). -/
def ipfwInit (accept mem : Bool) : Option IpFwChain :=
  match addRule ⟨[], [], 0, 0, 100, 0, []⟩ (defaultFw accept) mem with
  | (c, none, _) => some c
  | (_, some _, _) => none

end FreeBSD.IpFw2
