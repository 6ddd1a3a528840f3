import FreeBSD.Net.IpFw2

/-!
# The interpreter of the firewall, `ipfw_chk` of `netinet/ip_fw2.c`

`ipfw_chk` runs under the lock of the list of rules, so the rules stay and only their links
`next_rule` and their counters are written: the links are kept in a map, and the rules whose
counters are counted up in a list. A position in the list of rules is the rest of the list from
there on.

What other code answers is given for each instruction that is run: `verdict` for the functions that
match users, interfaces, options and routes and for `random`, `install` for whether `install_state`
failed. Words that are read behind the end of a rule are `junk`. Each instruction that is fetched is
recorded.
-/

namespace FreeBSD.IpFw2

inductive Dir
  | unknown | none | forward | reverse
  deriving DecidableEq

structure Ether where
  hdr : ℕ → Word
  ether_type : ℕ

/-- What `ipfw_chk` knows of a packet in front of `after_ip_checks` (lines 1391-1549). -/
structure Pkt where
  skip_firewall : Bool
  pullup_failed : Bool
  eh : Option Ether
  oif : Option ℕ
  rcvif : Option ℕ
  hlen : ℕ
  offset : ℕ
  proto : ℕ
  src_ip : Word
  dst_ip : Word
  /-- The addresses in host order. -/
  f_src : Word
  f_dst : Word
  src_port : ℕ
  dst_port : ℕ
  ip_len : ℕ
  pktlen : ℕ
  ip_ttl : ℕ
  ip_id : ℕ
  ip_v : ℕ
  ip_tos : BitVec 8
  th_flags : BitVec 8
  th_seq : Word
  th_ack : Word
  th_win : ℕ
  /-- `args->rule` and `args->divert_rule`. -/
  rule : Option ℕ
  divert_rule : ℕ

/-- What the other code answers. -/
structure Env where
  verdict : ℕ → Bool
  install : ℕ → Bool
  /-- The rule of the dynamic rule that `lookup_dyn_rule` finds, and whether it matches forward. -/
  dyn : Option (ℕ × Bool)
  set_disable : Word
  fw_one_pass : Bool
  junk : ℕ → ℕ → Word

/-! ## The instructions that match -/

def IPPROTO_ICMP : ℕ := 1
def IPPROTO_TCP : ℕ := 6
def IPPROTO_UDP : ℕ := 17

/-- `flags_match` (lines 303-315). -/
def flagsMatch (arg1 : ℕ) (bits : BitVec 8) : Bool :=
  let want_set := BitVec.ofNat 8 arg1
  let want_clear := BitVec.ofNat 8 (arg1 / 2 ^ 8)
  want_set &&& ~~~bits = 0 ∧ want_clear &&& ~~~bits = want_clear

/-- A loop over `n` ranges, of which the `i`-th is in the word `p i`. -/
def rangeMatch (x : ℕ) (p : ℕ → Word) (n : ℕ) : Bool :=
  (List.range n).any fun i => (p i).toNat % 2 ^ 16 ≤ x ∧ x ≤ (p i).toNat / 2 ^ 16

/-- The loop over addresses and masks (lines 1740-1741). -/
def maskMatch (a : Word) (d : ℕ → Word) (n : ℕ) : Bool :=
  (List.range ((n + 1) / 2)).any fun i => d (2 * i) = a &&& d (2 * i + 1)

/-- The test of `O_IP_SRC_SET` and `O_IP_DST_SET` (lines 1755-1769). -/
def setMatch (addr : Word) (arg1 : ℕ) (d : ℕ → Word) : Bool :=
  if addr < d 0 then false
  else
    let addr := addr - d 0
    addr.toNat < arg1 ∧ (d (1 + addr.toNat / 32)).getLsbD (addr.toNat % 32)

/-- Ports are compared in the first fragment of a TCP or UDP packet. -/
def hasPorts (pkt : Pkt) : Bool :=
  pkt.offset = 0 ∧ (pkt.proto = IPPROTO_TCP ∨ pkt.proto = IPPROTO_UDP)

def isTcp (pkt : Pkt) : Bool := pkt.proto = IPPROTO_TCP ∧ pkt.offset = 0

/-- What an instruction leads to. -/
inductive Flow
  | isMatch (b : Bool)
  | next
  | skipto
  | state
  | done (retval : ℕ)

/-- The flags of what is returned (ip_fw.h:381-383). -/
def PORT_DYNT_FLAG : ℕ := 0x10000
def PORT_TEE_FLAG : ℕ := 0x20000
def PORT_DENY_FLAG : ℕ := 0x40000

/-- The switch on the opcodes (lines 1643-2068); `w` is the instruction, `d i` the word `i + 1`
    behind it. -/
def insnFlow (env : Env) (pkt : Pkt) (k : ℕ) (w : Word) (d : ℕ → Word) : Opcode → Flow
  | .O_NOP | .O_LOG => .isMatch true
  | .O_FORWARD_MAC => .isMatch false
  | .O_GID | .O_UID => .isMatch (hasPorts pkt && env.verdict k)
  | .O_RECV => .isMatch (pkt.rcvif.isSome && env.verdict k)
  | .O_XMIT => .isMatch (pkt.oif.isSome && env.verdict k)
  | .O_VIA => .isMatch ((pkt.oif.isSome || pkt.rcvif.isSome) && env.verdict k)
  | .O_MACADDR2 =>
    match pkt.eh with
    | none => .isMatch false
    | some eh => .isMatch ((List.range 3).all fun i => d i = eh.hdr i &&& d (i + 3))
  | .O_MAC_TYPE =>
    match pkt.eh with
    | none => .isMatch false
    | some eh => .isMatch (rangeMatch eh.ether_type d (fLen w - 1))
  | .O_FRAG => .isMatch (0 < pkt.hlen ∧ pkt.offset ≠ 0)
  | .O_IN => .isMatch pkt.oif.isNone
  | .O_LAYER2 => .isMatch pkt.eh.isSome
  | .O_PROTO => .isMatch (pkt.proto = arg1Of w)
  | .O_IP_SRC => .isMatch (0 < pkt.hlen ∧ d 0 = pkt.src_ip)
  | .O_IP_SRC_MASK => .isMatch (0 < pkt.hlen && maskMatch pkt.src_ip d (fLen w - 1))
  | .O_IP_DST_MASK => .isMatch (0 < pkt.hlen && maskMatch pkt.dst_ip d (fLen w - 1))
  | .O_IP_SRC_ME | .O_IP_DST_ME => .isMatch (0 < pkt.hlen && env.verdict k)
  | .O_IP_SRC_SET => .isMatch (0 < pkt.hlen && setMatch pkt.f_src (arg1Of w) d)
  | .O_IP_DST_SET => .isMatch (0 < pkt.hlen && setMatch pkt.f_dst (arg1Of w) d)
  | .O_IP_DST => .isMatch (0 < pkt.hlen ∧ d 0 = pkt.dst_ip)
  | .O_IP_SRCPORT => .isMatch (hasPorts pkt && rangeMatch pkt.src_port d (fLen w - 1))
  | .O_IP_DSTPORT => .isMatch (hasPorts pkt && rangeMatch pkt.dst_port d (fLen w - 1))
  | .O_ICMPTYPE => .isMatch (pkt.offset = 0 && pkt.proto = IPPROTO_ICMP && env.verdict k)
  | .O_IPOPT => .isMatch (0 < pkt.hlen && env.verdict k)
  | .O_IPVER => .isMatch (0 < pkt.hlen ∧ arg1Of w = pkt.ip_v)
  | .O_IPLEN => .isMatch (0 < pkt.hlen && oneOrRange pkt.ip_len)
  | .O_IPTTL => .isMatch (0 < pkt.hlen && oneOrRange pkt.ip_ttl)
  | .O_IPID => .isMatch (0 < pkt.hlen && oneOrRange pkt.ip_id)
  | .O_IPPRECEDENCE => .isMatch (0 < pkt.hlen ∧ arg1Of w = (pkt.ip_tos &&& 0xe0).toNat)
  | .O_IPTOS => .isMatch (0 < pkt.hlen && flagsMatch (arg1Of w) pkt.ip_tos)
  | .O_TCPFLAGS => .isMatch (isTcp pkt && flagsMatch (arg1Of w) pkt.th_flags)
  | .O_TCPOPTS => .isMatch (isTcp pkt && env.verdict k)
  | .O_TCPSEQ => .isMatch (isTcp pkt && d 0 = pkt.th_seq)
  | .O_TCPACK => .isMatch (isTcp pkt && d 0 = pkt.th_ack)
  | .O_TCPWIN => .isMatch (isTcp pkt && arg1Of w = pkt.th_win)
  | .O_ESTAB => .isMatch (isTcp pkt && pkt.th_flags &&& 0x16 ≠ 0x02)
  | .O_PROB => .isMatch (env.verdict k)
  | .O_VERREVPATH => .isMatch (pkt.oif.isSome || pkt.rcvif.isNone || env.verdict k)
  | .O_IPSEC => .isMatch (env.verdict k)
  | .O_LIMIT | .O_KEEP_STATE => if env.install k then .done PORT_DENY_FLAG else .isMatch true
  | .O_PROBE_STATE | .O_CHECK_STATE => .state
  | .O_ACCEPT => .done 0
  | .O_PIPE | .O_QUEUE => .done (arg1Of w ||| PORT_DYNT_FLAG)
  | .O_DIVERT => if pkt.eh.isSome then .isMatch false else .done (arg1Of w)
  | .O_TEE => if pkt.eh.isSome then .isMatch false else .done (arg1Of w ||| PORT_TEE_FLAG)
  | .O_COUNT => .next
  | .O_SKIPTO => .skipto
  | .O_REJECT | .O_DENY => .done PORT_DENY_FLAG
  | .O_FORWARD_IP => if pkt.eh.isSome then .isMatch false else .done 0
where
  oneOrRange (x : ℕ) : Bool := if fLen w = 1 then arg1Of w = x else rangeMatch x d (fLen w - 1)

/-! ## The loops -/

/-- Where `ipfw_chk` is: at the test of its outer loop, at `again`, at the test of the inner loop,
    with `l` words left from `ofs` on, and behind that test at `check_body`. -/
inductive Pos
  | outer (fs : List Rule)
  | again (f : Rule) (rest : List Rule)
  | inner (f : Rule) (rest : List Rule) (l : ℤ) (ofs : ℕ) (skip_or : Bool)
  | body (f : Rule) (rest : List Rule) (l : ℤ) (ofs : ℕ) (skip_or : Bool)

/-- What it writes. -/
structure Chk where
  cache : ℕ → Option ℕ
  dyn_dir : Dir
  /-- The number of instructions that were run. -/
  k : ℕ
  fetched : List (Rule × ℕ)
  /-- The rules whose counters are counted up. -/
  hits : List ℕ

/-- How it ends: with an action, before a rule is looked at, behind the last rule, with the panic,
    or at a rule that is not there. -/
inductive Outcome
  | done (f : Rule) (retval : ℕ)
  | early (retval : ℕ)
  | pastEnd
  | panic
  | wild

/-- The word at an offset of a rule. -/
def wordAt (env : Env) (f : Rule) (ofs : ℕ) : Word :=
  f.fw.cmd[ofs]?.getD (env.junk f.addr ofs)

def Chk.fetch (s : Chk) (f : Rule) (ofs : ℕ) : Chk := { s with fetched := (f, ofs) :: s.fetched }

/-- The rest of the list from the rule at an address. -/
def suffixAt (rules : List Rule) (a : ℕ) : List Rule := rules.dropWhile fun r => r.addr ≠ a

/-- The offset where the action of a rule with the given words is looked for (lines 1284-1286). -/
def actionOfs (word : ℕ → Word) (f : Rule) : ℕ :=
  let ofs := f.fw.act_ofs.toNat
  if opcodeOf (word ofs) = some .O_LOG then ofs + fLen (word ofs) else ofs

/-- The rule that comes after `f` for a packet that it does not stop (lines 1287-1292). -/
def nextRule (word : ℕ → Word) (f : Rule) (rest : List Rule) : List Rule :=
  let cmd := word (actionOfs word f)
  let rule :=
    if opcodeOf cmd = some .O_SKIPTO then rest.dropWhile fun r => r.num < arg1Of cmd else []
  if rule = [] then rest else rule

/-- `lookup_next_rule` (lines 1277-1295). -/
def lookupNextRule (env : Env) (f : Rule) (rest : List Rule) (s : Chk) : List Rule × Chk :=
  let rule := nextRule (wordAt env f) f rest
  let s := (s.fetch f f.fw.act_ofs.toNat).fetch f (actionOfs (wordAt env f) f)
  (rule, { s with cache := Function.update s.cache f.addr (rule.head?.map Rule.addr) })

/-- From behind an instruction to the next one. -/
def advance (f : Rule) (rest : List Rule) (l : ℤ) (ofs : ℕ) (w : Word) (skip_or : Bool) : Pos :=
  .inner f rest (l - fLen w) (ofs + fLen w) skip_or

/-- The end of the inner loop (lines 2072-2081). -/
def afterMatch (f : Rule) (rest : List Rule) (l : ℤ) (ofs : ℕ) (w : Word) (b : Bool) : Pos :=
  if b != fNot w then advance f rest l ofs w (fOr w)
  else if fOr w then advance f rest l ofs w false
  else .outer rest

/-- The counters of a rule are counted up. -/
def Chk.hit (s : Chk) (f : Rule) : Chk := { s with hits := f.addr :: s.hits }

/-- Where an instruction leads that is not skipped, so `skip_or` is 0. -/
def chkFlow (env : Env) (rules : List Rule) (f : Rule) (rest : List Rule) (l : ℤ) (ofs : ℕ)
    (w : Word) (op : Opcode) (s : Chk) : Flow → (Pos ⊕ Outcome) × Chk
  | .isMatch b => (.inl (afterMatch f rest l ofs w b), s)
  | .next => (.inl (.outer rest), s.hit f)
  | .done retval => (.inr (.done f retval), s.hit f)
  | .skipto =>
    match s.cache f.addr with
    | some a =>
      match suffixAt rules a with
      | g :: rest => (.inl (.again g rest), s.hit f)
      | [] => (.inr .wild, s.hit f)
    | none =>
      match lookupNextRule env f rest (s.hit f) with
      | (g :: rest, s) => (.inl (.again g rest), s)
      | ([], s) => (.inr .wild, s)
  | .state =>
    match s.dyn_dir, env.dyn with
    | .unknown, some (a, forward) =>
      match suffixAt rules a with
      | g :: rest =>
        (.inl (.body g rest (g.fw.cmd_len.toNat - g.fw.act_ofs.toNat) g.fw.act_ofs.toNat false),
          { s with dyn_dir := if forward then .forward else .reverse })
      | [] => (.inr .wild, s)
    | dyn_dir, _ =>
      let s := { s with dyn_dir := if dyn_dir = .unknown then .none else dyn_dir }
      if op = .O_CHECK_STATE then (.inl (.outer rest), s)
      else (.inl (afterMatch f rest l ofs w true), s)

/-- The body of the inner loop (lines 1621-2083). -/
def chkBody (env : Env) (pkt : Pkt) (rules : List Rule) (f : Rule) (rest : List Rule) (l : ℤ)
    (ofs : ℕ) (skip_or : Bool) (s : Chk) : (Pos ⊕ Outcome) × Chk :=
  let w := wordAt env f ofs
  if skip_or then (.inl (advance f rest l ofs w (fOr w)), s.fetch f ofs)
  else
    match opcodeOf w with
    | none => (.inr .panic, s.fetch f ofs)
    | some op =>
      chkFlow env rules f rest l ofs w op { s.fetch f ofs with k := s.k + 1 }
        (insnFlow env pkt s.k w (fun i => wordAt env f (ofs + 1 + i)) op)

/-- One step of the loops. -/
def chkStep (env : Env) (pkt : Pkt) (rules : List Rule) (p : Pos) (s : Chk) :
    (Pos ⊕ Outcome) × Chk :=
  match p with
  | .outer [] => (.inr .pastEnd, s)
  | .outer (f :: rest) => (.inl (.again f rest), s)
  | .again f rest =>
    if env.set_disable.getLsbD (f.fw.set.toNat % 32) then (.inl (.outer rest), s)
    else (.inl (.inner f rest f.fw.cmd_len.toNat 0 false), s)
  | .inner f rest l ofs skip_or =>
    if 0 < l then (.inl (.body f rest l ofs skip_or), s) else (.inl (.outer rest), s)
  | .body f rest l ofs skip_or => chkBody env pkt rules f rest l ofs skip_or s

/-- The loops (lines 1604-2091), for a number of steps. -/
def chkLoop (env : Env) (pkt : Pkt) (rules : List Rule) : ℕ → Pos → Chk → Option (Outcome × Chk)
  | 0, _, _ => none
  | fuel + 1, p, s =>
    match chkStep env pkt rules p s with
    | (.inl p, s) => chkLoop env pkt rules fuel p s
    | (.inr o, s) => some (o, s)

/-- The first rule (lines 1422, 1551-1597). -/
def chkStart (env : Env) (pkt : Pkt) (rules : List Rule) (s : Chk) : (Pos ⊕ Outcome) × Chk :=
  if pkt.skip_firewall then (.inr (.early 0), s)
  else if pkt.pullup_failed then (.inr (.early PORT_DENY_FLAG), s)
  else
    match pkt.rule with
    | some a =>
      if env.fw_one_pass then (.inr (.early 0), s)
      else
        match suffixAt rules a with
        | [] => (.inr .wild, s)
        | f :: rest =>
          match s.cache f.addr with
          | some b => (.inl (.outer (suffixAt rules b)), s)
          | none =>
            let (rule, s) := lookupNextRule env f rest s
            (.inl (.outer rule), s)
    | none =>
      if pkt.eh.isNone ∧ pkt.divert_rule ≠ 0 then
        if defaultRule ≤ pkt.divert_rule then (.inr (.early PORT_DENY_FLAG), s)
        else
          match rules.dropWhile fun f => f.num ≤ pkt.divert_rule with
          | [] => (.inr (.early PORT_DENY_FLAG), s)
          | f :: rest => (.inl (.outer (f :: rest)), s)
      else (.inl (.outer rules), s)

/-- The links `next_rule` of the rules. -/
def cacheOf (rules : List Rule) (a : ℕ) : Option ℕ :=
  (suffixAt rules a).head?.bind Rule.next_rule

/-- `ipfw_chk` (lines 1389-2104), for a number of steps. -/
def ipfwChk (env : Env) (pkt : Pkt) (rules : List Rule) (fuel : ℕ) : Option (Outcome × Chk) :=
  match chkStart env pkt rules ⟨cacheOf rules, .unknown, 0, [], []⟩ with
  | (.inr o, s) => some (o, s)
  | (.inl p, s) => chkLoop env pkt rules fuel p s

/-- The rules with what was written to them. -/
def writeBack (pkt : Pkt) (timestamp : BitVec 32) (s : Chk) (rules : List Rule) : List Rule :=
  rules.map fun r =>
    let n := s.hits.count r.addr
    { r with
      next_rule := s.cache r.addr
      fw := { r.fw with
        pcnt := r.fw.pcnt + BitVec.ofNat 64 n
        bcnt := r.fw.bcnt + BitVec.ofNat 64 (n * pkt.pktlen)
        timestamp := if n = 0 then r.fw.timestamp else timestamp } }

end FreeBSD.IpFw2
