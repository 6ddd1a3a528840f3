import FreeBSD.Netgraph.NgPppShares

/-!
# Fragments of a frame, `ng_ppp_mp_output`

The shares of the links are taken off the frame one after the other, the last link first, in
fragments that fit. After the last fragment the frame belongs to somebody else.

Results:
* `setConfig_ok`, `hooked_ok`: nodes whose configuration was accepted.
* `deliver_spec`: shares that add up to the frame give its fragments.
* `mpOutput_spec`: when a frame is sent in fragments as it should be.
* `topSum_overflow`: a frame for which it is not.
-/

namespace FreeBSD.NgPpp

open List Function

/-! ## The loops -/

/-- Why no more is sent: an error, a frame that was given away, or a fragment without data. -/
inductive Stop
  | error (e : Errno)
  | freed
  | endless
  deriving DecidableEq

/-- The word of a header, as it is before `htons` or `htonl`. -/
inductive Header
  | short (shdr : BitVec 16)
  | long (lhdr : BitVec 32)
  deriving DecidableEq

/-- A fragment with the link that it is sent on. -/
structure Frag where
  link : ℕ
  header : Header
  data : List Byte
  deriving DecidableEq

/-- The header of a fragment (lines 1609-1636). -/
def mpHeader (xmitShortSeq : Bool) (xseq : BitVec 32) (first last : Bool) : Header :=
  if xmitShortSeq then
    .short (xseq.setWidth 16 ||| (if first then 0x8000 else 0) ||| (if last then 0x4000 else 0))
  else .long (xseq ||| (if first then 0x80000000 else 0) ||| (if last then 0x40000000 else 0))

/-- `MP_SHORT_SEQ_MASK` and `MP_LONG_SEQ_MASK`. -/
def seqMask (s : Node) : BitVec 32 := if s.conf.xmitShortSeq then 0xfff else 0xffffff

def hdrLen (s : Node) : ℕ := if s.conf.xmitShortSeq then 2 else 4

/-- `ng_ppp_output` of a fragment of `len` bytes on a link (lines 957-1037). -/
def pppOutput (s : Node) (linkNum len : ℕ) (now : Timeval) : Node × Option Errno :=
  let link := s.links linkNum
  if !link.conf.enableLink then (s, some Errno.ENXIO)
  else if !link.hook then (s, some .ENETDOWN)
  else if link.conf.mru ≠ 0 ∧ link.conf.mru.toNat < len then (s, some .EMSGSIZE)
  else
    let len := len + (if link.conf.enableProtoComp then 1 else 2) +
      (if link.conf.enableACFComp then 0 else 2)
    (s.setLink linkNum { link with
      bytesInQueue := int (link.bytesInQueue + len), lastWrite := now }, none)

/-- Where the loops are: what is left of the frame, whether nothing was sent, and the fragments that
    were sent. -/
structure Out where
  s : Node
  m : Option (List Byte)
  first : Bool
  frags : List Frag

/-- A fragment of `len` bytes (lines 1588-1654). -/
def sendFragment (clock : ℕ → Timeval) (o : Out) (linkNum len : ℕ) : Except Stop Out :=
  match o.m with
  | none => .error .freed
  | some m =>
    -- there is no place to split at behind the end of the frame
    if m.length < len then .error (.error .ENOMEM)
    else
      let last : Bool := len = m.length
      let header := mpHeader o.s.conf.xmitShortSeq o.s.xseq o.first last
      let s := { o.s with xseq := (o.s.xseq + 1) &&& seqMask o.s }
      match pppOutput s linkNum (hdrLen s + len) (clock o.frags.length) with
      | (_, some e) => .error (.error e)
      | (s, none) =>
        .ok ⟨s, if last then none else some (m.drop len), false,
          o.frags ++ [⟨linkNum, header, m.take len⟩]⟩

/-- The fragments on one link (lines 1581-1655). -/
def deliverLink (clock : ℕ → Timeval) (o : Out) (linkNum : ℕ) (distrib : ℤ) : Except Stop Out :=
  let len := min distrib ((o.s.links linkNum).conf.mru.toNat - hdrLen o.s)
  if _h : 0 < distrib then
    if _h' : 0 < len then
      match sendFragment clock o linkNum len.toNat with
      | .error e => .error e
      | .ok o => deliverLink clock o linkNum (distrib - len)
    else .error .endless
  else .ok o
termination_by distrib.toNat
decreasing_by omega

/-- The links from the last one on (lines 1575-1656). -/
def deliver (clock : ℕ → Timeval) (distrib : List ℤ) : ℕ → Out → Except Stop Out
  | 0, o => .ok o
  | activeLinkNum + 1, o =>
    match deliverLink clock o (o.s.activeLinks.getD activeLinkNum 0)
      (distrib.getD activeLinkNum 0) with
    | .error e => .error e
    | .ok o => deliver clock distrib activeLinkNum o

/-- The shares of the links (lines 1544-1570). -/
def distribute (q : Qsort) (s : Node) (now : Timeval) (len : ℕ) (junk : List ℤ) :
    Option (Node × List ℤ) :=
  let n := s.activeLinks.length
  if s.conf.enableRoundRobin ∨ len < MP_MIN_FRAG_LEN then
    let (lastLink, distrib) := roundRobin n len s.lastLink
    some ({ s with lastLink := lastLink }, distrib)
  else if s.allLinksEqual then
    let (lastLink, distrib) := equalShares n len s.lastLink junk
    some ({ s with lastLink := lastLink }, distrib)
  else mpStrategy q s now len

/-- `ng_ppp_mp_output` (lines 1528-1660) with the time at each place where it is asked for, and what
    `distrib` holds before. -/
def mpOutput (q : Qsort) (s : Node) (m : List Byte) (clock : ℕ → Timeval) (junk : List ℤ) :
    Except Stop Out :=
  if s.activeLinks.length = 0 then .error (.error .ENETDOWN)
  else
    match distribute q s (clock 0) m.length junk with
    | none => .error .endless
    | some (s, distrib) =>
      deliver (fun k => clock (k + 1)) distrib s.activeLinks.length ⟨s, some m, true, []⟩

/-! ## Headers -/

def Header.seq : Header → ℕ
  | .short shdr => shdr.toNat % 2 ^ 12
  | .long lhdr => lhdr.toNat % 2 ^ 24

def Header.first : Header → Bool
  | .short shdr => shdr.getLsbD 15
  | .long lhdr => lhdr.getLsbD 31

def Header.last : Header → Bool
  | .short shdr => shdr.getLsbD 14
  | .long lhdr => lhdr.getLsbD 30

/-- The number of bits of a sequence number. -/
def seqBits (s : Node) : ℕ := if s.conf.xmitShortSeq then 12 else 24

variable {s t : Node} {o : Out} {M : List Byte} {clock : ℕ → Timeval} {linkNum len : ℕ}

variable {w : ℕ} {distrib junk : List ℤ} {now : Timeval} {o' : Out}

/-- Flags above the sequence number. -/
theorem flag_getLsbD (x : BitVec w) (b c : Bool) (f g : BitVec w) (i : ℕ) (hx : x.getLsbD i = false)
    :
    (x ||| (if b then f else 0) ||| (if c then g else 0)).getLsbD i =
      ((b && f.getLsbD i) || (c && g.getLsbD i)) := by
  rw [BitVec.getLsbD_or, BitVec.getLsbD_or, hx, Bool.false_or]
  cases b <;> cases c <;> simp

theorem flag_mod {w n : ℕ} (x : BitVec w) (b c : Bool) (f g : BitVec w) (hf : f.toNat % 2 ^ n = 0)
    (hg : g.toNat % 2 ^ n = 0) (hx : x.toNat < 2 ^ n) :
    (x ||| (if b then f else 0) ||| (if c then g else 0)).toNat % 2 ^ n = x.toNat := by
  have hb : (if b then f else 0 : BitVec w).toNat % 2 ^ n = 0 := by
    cases b
    · simp
    · exact hf
  have hc : (if c then g else 0 : BitVec w).toNat % 2 ^ n = 0 := by
    cases c
    · simp
    · exact hg
  rw [BitVec.toNat_or, BitVec.toNat_or, Nat.or_mod_two_pow, Nat.or_mod_two_pow, hb, hc, Nat.or_zero,
    Nat.or_zero, Nat.mod_eq_of_lt hx]

theorem getLsbD_of_lt {w n i : ℕ} {x : BitVec w} (hx : x.toNat < 2 ^ n) (hi : n ≤ i) :
    x.getLsbD i = false :=
  Nat.testBit_lt_two_pow (hx.trans_le (Nat.pow_le_pow_right two_pos hi))

/-- What is read of a header is what was put there. -/
theorem mpHeader_spec (hx : s.xseq.toNat < 2 ^ seqBits s) (first last : Bool) :
    (mpHeader s.conf.xmitShortSeq s.xseq first last).seq = s.xseq.toNat ∧
      (mpHeader s.conf.xmitShortSeq s.xseq first last).first = first ∧
      (mpHeader s.conf.xmitShortSeq s.xseq first last).last = last := by
  unfold seqBits at hx
  unfold mpHeader
  cases hshort : s.conf.xmitShortSeq with
  | true =>
    rw [hshort, if_pos rfl] at hx
    have hw : (s.xseq.setWidth 16).toNat = s.xseq.toNat := by
      rw [BitVec.toNat_setWidth]; exact Nat.mod_eq_of_lt (hx.trans (by norm_num))
    rw [if_pos rfl]
    refine ⟨?_, ?_, ?_⟩
    · exact (flag_mod _ _ _ _ _ (by decide) (by decide) (by rw [hw]; exact hx)).trans hw
    · refine (flag_getLsbD _ _ _ _ _ _ (getLsbD_of_lt (by rw [hw]; exact hx)
        (by norm_num))).trans ?_
      cases first <;> cases last <;> decide
    · refine (flag_getLsbD _ _ _ _ _ _ (getLsbD_of_lt (by rw [hw]; exact hx)
        (by norm_num))).trans ?_
      cases first <;> cases last <;> decide
  | false =>
    rw [hshort, if_neg Bool.false_ne_true] at hx
    rw [if_neg Bool.false_ne_true]
    refine ⟨?_, ?_, ?_⟩
    · exact flag_mod _ _ _ _ _ (by decide) (by decide) hx
    · refine (flag_getLsbD _ _ _ _ _ _ (getLsbD_of_lt hx (by norm_num))).trans ?_
      cases first <;> cases last <;> decide
    · refine (flag_getLsbD _ _ _ _ _ _ (getLsbD_of_lt hx (by norm_num))).trans ?_
      cases first <;> cases last <;> decide

/-- The next sequence number. -/
theorem nextSeq (s : Node) :
    ((s.xseq + 1) &&& seqMask s).toNat = (s.xseq.toNat + 1) % 2 ^ seqBits s := by
  unfold seqBits seqMask
  cases s.conf.xmitShortSeq with
  | true =>
    rw [if_pos rfl, if_pos rfl, BitVec.toNat_and, BitVec.toNat_add,
      show (0xfff : BitVec 32).toNat = 2 ^ 12 - 1 from rfl, Nat.and_two_pow_sub_one_eq_mod]
    show (s.xseq.toNat + 1) % 2 ^ 32 % 2 ^ 12 = _
    omega
  | false =>
    rw [if_neg Bool.false_ne_true, if_neg Bool.false_ne_true, BitVec.toNat_and, BitVec.toNat_add,
      show (0xffffff : BitVec 32).toNat = 2 ^ 24 - 1 from rfl, Nat.and_two_pow_sub_one_eq_mod]
    show (s.xseq.toNat + 1) % 2 ^ 32 % 2 ^ 24 = _
    omega

/-! ## Nodes with a configuration -/

/-- A node whose configuration was accepted. -/
structure NodeOk (s : Node) : Prop where
  valid : ∀ i < NG_PPP_MAX_LINKS, ∃ c, linkValid c = true ∧ (s.links i).conf = addLatency s.conf c
  active : s.activeLinks = upLinks s.links
  xseq : s.xseq.toNat < 2 ^ seqBits s
  idle : s.activeLinks = [] → s.xseq = 0

theorem two_pow_seqBits_pos (s : Node) : 0 < 2 ^ seqBits s := Nat.two_pow_pos _

/-- What `ng_ppp_update` leaves. -/
theorem update_spec (s : Node) (newConf : Bool) :
    (update s newConf).conf = s.conf ∧
      (∀ i, ((update s newConf).links i).conf =
        if newConf then addLatency s.conf (s.links i).conf else (s.links i).conf) ∧
      (update s newConf).activeLinks = upLinks s.links ∧
      upLinks (update s newConf).links = upLinks s.links ∧
      ((update s newConf).xseq = 0 ∨
        (upLinks s.links ≠ [] ∧ (update s newConf).xseq = s.xseq)) := by
  have hup : ∀ links : ℕ → Link,
      (∀ i, (links i).conf.enableLink = (s.links i).conf.enableLink ∧
        (links i).hook = (s.links i).hook) → upLinks links = upLinks s.links := by
    intro links h
    unfold upLinks
    refine filter_congr fun i _ => ?_
    rw [(h i).1, (h i).2]
  obtain ⟨links, hl⟩ : ∃ links : ℕ → Link, links = fun i =>
      if newConf then { s.links i with conf := addLatency s.conf (s.links i).conf }
      else s.links i := ⟨_, rfl⟩
  have hconf : ∀ i, (links i).conf =
      if newConf then addLatency s.conf (s.links i).conf else (s.links i).conf := by
    intro i
    rw [hl]
    cases newConf <;> rfl
  have hsame : ∀ i, (links i).conf.enableLink = (s.links i).conf.enableLink ∧
      (links i).hook = (s.links i).hook := by
    intro i
    rw [hl]
    cases newConf <;> exact ⟨rfl, rfl⟩
  obtain ⟨equal, hupdate⟩ : ∃ equal, update s newConf =
      if s.conf.enableMultilink ∧ 0 < (upLinks links).length then
        { s with links := links, activeLinks := upLinks links, allLinksEqual := equal }
      else { s with
        links := fun i => { links i with lastWrite := ⟨0, 0⟩, bytesInQueue := 0 }
        activeLinks := upLinks links, allLinksEqual := equal, xseq := 0 } := by
    rw [hl]; exact ⟨_, rfl⟩
  rw [hupdate]
  by_cases h : s.conf.enableMultilink ∧ 0 < (upLinks links).length
  · rw [if_pos h]
    refine ⟨rfl, hconf, hup _ hsame, hup _ hsame, .inr ⟨?_, rfl⟩⟩
    rw [← hup _ hsame]; exact length_pos_iff.1 h.2
  · rw [if_neg h]; exact ⟨rfl, hconf, hup _ hsame, hup _ hsame, .inl rfl⟩

/-- A configuration that is accepted. -/
theorem configValid_spec {bund : BundConf} {links : ℕ → LinkConf}
    (h : configValid s bund links = true) :
    (∀ i < NG_PPP_MAX_LINKS, linkValid (links i) = true) ∧
      (s.activeLinks ≠ [] →
        (∃ i < NG_PPP_MAX_LINKS, ((links i).enableLink && (s.links i).hook) = true) →
        s.conf.xmitShortSeq = bund.xmitShortSeq) := by
  unfold configValid at h
  dsimp only at h
  split at h
  · cases h
  rename_i hall
  have hall : ((List.range NG_PPP_MAX_LINKS).all fun i => linkValid (links i)) = true := by
    simpa using hall
  refine ⟨fun i hi => all_eq_true.1 hall i (mem_range.2 hi), fun hne ⟨i, hi, hup⟩ => ?_⟩
  split at h
  · cases h
  split at h
  · cases h
  rename_i hsame
  have hcount : 0 < (List.range NG_PPP_MAX_LINKS).countP
      fun i => (links i).enableLink && (s.links i).hook :=
    countP_pos_iff.2 ⟨i, mem_range.2 hi, hup⟩
  by_contra hdiff
  exact hsame ⟨length_pos_iff.2 hne, hcount, .inr (.inl hdiff)⟩

/-- A configuration is set, or refused. -/
theorem setConfig_ok (h : NodeOk s) (bund : BundConf) (links : ℕ → LinkConf) :
    NodeOk (setConfig s bund links).1 := by
  unfold setConfig
  by_cases hvalid : configValid s bund links = true
  swap
  · rw [if_neg hvalid]; exact h
  rw [if_pos hvalid]
  obtain ⟨hlinks, hshort⟩ := configValid_spec hvalid
  obtain ⟨hconf, hconfs, hactive, hup, hxseq⟩ := update_spec
    { s with conf := bund, links := fun i => { s.links i with conf := links i } } true
  dsimp only at hconf hconfs hxseq ⊢
  refine ⟨fun i hi => ⟨links i, hlinks i hi, ?_⟩, hactive.trans hup.symm, ?_, fun hnil => ?_⟩
  · rw [hconfs i, if_pos rfl, hconf]
  · rcases hxseq with hzero | ⟨hne, hsame⟩
    · rw [hzero]; exact two_pow_seqBits_pos _
    · rw [hsame]
      have hbits : s.activeLinks ≠ [] → seqBits s = seqBits (update
          { s with conf := bund, links := fun i => { s.links i with conf := links i } } true) := by
        intro hsne
        obtain ⟨i, hi⟩ := exists_mem_of_ne_nil _ hne
        have hi := mem_filter.1 hi
        have hshort := hshort hsne ⟨i, mem_range.1 hi.1, hi.2⟩
        unfold seqBits
        rw [hconf, hshort]
      by_cases hsne : s.activeLinks = []
      · rw [h.idle hsne]; exact two_pow_seqBits_pos _
      · rw [← hbits hsne]; exact h.xseq
  · rcases hxseq with hzero | ⟨hne, -⟩
    · exact hzero
    · exact absurd (hactive.symm.trans hnil) hne

/-- A link that is connected or disconnected. -/
theorem hooked_ok (h : NodeOk s) (i : ℕ) (hook : Bool) :
    NodeOk (update (s.setLink i { s.links i with hook := hook }) false) := by
  obtain ⟨hconf, hconfs, hactive, hup, hxseq⟩ :=
    update_spec (s.setLink i { s.links i with hook := hook }) false
  have hsame : ∀ j, ((s.setLink i { s.links i with hook := hook }).links j).conf =
      (s.links j).conf := by
    intro j
    show (Function.update s.links i _ j).conf = _
    by_cases hj : j = i
    · rw [hj, update_self]
    · rw [update_of_ne hj]
  refine ⟨fun j hj => ?_, hactive.trans hup.symm, ?_, fun hnil => ?_⟩
  · obtain ⟨c, hc, hcj⟩ := h.valid j hj
    refine ⟨c, hc, ?_⟩
    rw [hconfs j, if_neg Bool.false_ne_true, hsame j, hconf]; exact hcj
  · rcases hxseq with hzero | ⟨-, hkeep⟩
    · rw [hzero]; exact two_pow_seqBits_pos _
    · rw [hkeep]
      unfold seqBits
      rw [hconf]; exact h.xseq
  · rcases hxseq with hzero | ⟨hne, -⟩
    · exact hzero
    · exact absurd (hactive.symm.trans hnil) hne

/-- The active links of such a node. -/
theorem NodeOk.link (h : NodeOk s) {i : ℕ} (hi : i ∈ s.activeLinks) :
    (s.links i).conf.enableLink = true ∧ (s.links i).hook = true ∧
      32 ≤ (s.links i).conf.mru.toNat ∧ 1 ≤ (s.links i).conf.bandwidth.toNat ∧
      (s.links i).conf.bandwidth.toNat ≤ NG_PPP_MAX_BANDWIDTH := by
  rw [h.active] at hi
  obtain ⟨hlt, hup⟩ := mem_filter.1 hi
  obtain ⟨henable, hhook⟩ := Bool.and_eq_true_iff.1 hup
  obtain ⟨c, hc, hconf⟩ := h.valid i (mem_range.1 hlt)
  rw [hconf] at henable ⊢
  have hcenable : c.enableLink = true := henable
  unfold linkValid at hc
  rw [hcenable] at hc
  simp only [Bool.not_true, Bool.false_or, Bool.and_eq_true, decide_eq_true_eq, ne_eq,
    decide_not, Bool.not_eq_true', decide_eq_false_iff_not] at hc
  obtain ⟨⟨⟨hmru, hbw⟩, hmax⟩, -⟩ := hc
  refine ⟨hcenable, hhook, hmru, ?_, hmax⟩
  show 1 ≤ c.bandwidth.toNat
  have hpos : c.bandwidth.toNat ≠ 0 := fun hzero => hbw (BitVec.eq_of_toNat_eq hzero)
  omega

/-- The active links are not too many, and their bandwidths are in the limits that
    `ng_ppp_config_valid` checks. -/
structure InLimits (s : Node) : Prop where
  length : s.activeLinks.length ≤ NG_PPP_MAX_LINKS
  bandwidth : ∀ i ∈ s.activeLinks, 1 ≤ (s.links i).conf.bandwidth.toNat ∧
    (s.links i).conf.bandwidth.toNat ≤ NG_PPP_MAX_BANDWIDTH

theorem NodeOk.inLimits (h : NodeOk s) : InLimits s := by
  refine ⟨?_, fun i hi => (h.link hi).2.2.2⟩
  rw [h.active]; exact (length_filter_le _ _).trans_eq length_range

/-- The configuration of a node is what counts. -/
theorem NodeOk.same (h : NodeOk s) (hsame : SameConf s t) (hx : t.xseq.toNat < 2 ^ seqBits s)
    (hne : s.activeLinks ≠ []) : NodeOk t := by
  refine ⟨fun i hi => ?_, ?_, ?_, fun hnil => absurd (hsame.activeLinks.symm.trans hnil) hne⟩
  · rw [(hsame.links i).1, hsame.conf]; exact h.valid i hi
  · rw [hsame.activeLinks, h.active]
    unfold upLinks
    refine filter_congr fun i _ => ?_
    rw [(hsame.links i).1, (hsame.links i).2]
  · unfold seqBits
    rw [hsame.conf]; exact hx

/-! ## What is sent -/

/-- A fragment that is number `k` of those of a frame, `s` being the node when the first one was
    made. -/
structure FragOk (s : Node) (k : ℕ) (last : Bool) (f : Frag) : Prop where
  short : (∃ shdr, f.header = .short shdr) ↔ s.conf.xmitShortSeq = true
  seq : f.header.seq = (s.xseq.toNat + k) % 2 ^ seqBits s
  first : f.header.first = true ↔ k = 0
  last : f.header.last = last
  link : f.link ∈ s.activeLinks
  mru : hdrLen s + f.data.length ≤ (s.links f.link).conf.mru.toNat

/-- Fragments that carry a frame. -/
structure Fragmented (s : Node) (m : List Byte) (frags : List Frag) : Prop where
  data : (frags.map Frag.data).flatten = m
  frag : ∀ k (h : k < frags.length), FragOk s k (k + 1 = frags.length) frags[k]

/-- What holds while fragments are sent. -/
structure Sent (s : Node) (m : List Byte) (o : Out) : Prop where
  same : SameConf s o.s
  xseq : o.s.xseq.toNat = (s.xseq.toNat + o.frags.length) % 2 ^ seqBits s
  first : o.first = true ↔ o.frags = []
  data : (o.frags.map Frag.data).flatten ++ o.m.getD [] = m
  rest : o.m = some [] → o.frags = []
  frag : ∀ k (h : k < o.frags.length),
    FragOk s k (o.m = none ∧ k + 1 = o.frags.length) o.frags[k]

theorem mpHeader_short (b first last : Bool) (x : BitVec 32) :
    (∃ shdr, mpHeader b x first last = .short shdr) ↔ b = true := by
  unfold mpHeader
  cases b with
  | true => exact ⟨fun _ => rfl, fun _ => ⟨_, rfl⟩⟩
  | false => exact ⟨fun ⟨_, h⟩ => (by cases h), fun h => (by cases h)⟩

/-- A fragment can be sent on an active link if it fits. -/
theorem pppOutput_spec (hs : NodeOk s) (hsame : SameConf s t) (hlink : linkNum ∈ s.activeLinks)
    (hlen : len ≤ (s.links linkNum).conf.mru.toNat) (now : Timeval) :
    ∃ u, pppOutput t linkNum len now = (u, none) ∧ SameConf s u ∧ u.xseq = t.xseq := by
  obtain ⟨henable, hhook, -, -, -⟩ := hs.link hlink
  obtain ⟨hconf, hhook'⟩ := hsame.links linkNum
  unfold pppOutput
  dsimp only
  rw [if_neg (by rw [hconf, henable]; exact Bool.false_ne_true),
    if_neg (by rw [hhook', hhook]; exact Bool.false_ne_true),
    if_neg (by rw [hconf]; exact fun h => absurd h.2 (not_lt.2 hlen))]
  refine ⟨_, rfl, hsame.trans ⟨rfl, rfl, fun i => ?_⟩, rfl⟩
  show (Function.update t.links linkNum _ i).conf = _ ∧
    (Function.update t.links linkNum _ i).hook = _
  by_cases hi : i = linkNum
  · rw [hi, update_self]; exact ⟨rfl, rfl⟩
  · rw [update_of_ne hi]; exact ⟨rfl, rfl⟩

/-- One more fragment of a frame that is not sent yet. -/
theorem sendFragment_spec (clock : ℕ → Timeval) (len : ℕ) (hs : NodeOk s) (h : Sent s M o)
    (hlink : linkNum ∈ s.activeLinks)
    (hlen : hdrLen s + len ≤ (s.links linkNum).conf.mru.toNat) {m : List Byte}
    (hm : o.m = some m) (hle : len ≤ m.length) :
    ∃ o', sendFragment clock o linkNum len = .ok o' ∧ Sent s M o' ∧
      (o'.m.getD []).length + len = m.length ∧ o'.frags ≠ [] := by
  have hbits : seqBits o.s = seqBits s := by
    unfold seqBits
    rw [h.same.conf]
  have hhdr : hdrLen { o.s with xseq := (o.s.xseq + 1) &&& seqMask o.s } = hdrLen s := by
    show (if o.s.conf.xmitShortSeq then 2 else 4) = _
    rw [h.same.conf]; rfl
  have hx : o.s.xseq.toNat < 2 ^ seqBits o.s := by
    rw [hbits, h.xseq]; exact Nat.mod_lt _ (two_pow_seqBits_pos s)
  have hnext : SameConf s { o.s with xseq := (o.s.xseq + 1) &&& seqMask o.s } :=
    h.same.trans ⟨rfl, rfl, fun _ => ⟨rfl, rfl⟩⟩
  obtain ⟨u, hout, hu, hux⟩ := pppOutput_spec hs hnext hlink hlen (clock o.frags.length)
  obtain ⟨hseq, hfirst, hlast⟩ := mpHeader_spec hx o.first (decide (len = m.length))
  unfold sendFragment
  rw [hm]
  dsimp only
  rw [if_neg (by omega), hhdr]
  have hdata := h.data
  rw [hm, Option.getD_some] at hdata
  dsimp only at hout
  rw [hout]
  refine ⟨_, rfl, ⟨hu, ?_, ?_, ?_, ?_, ?_⟩, ?_, ?_⟩
  · show u.xseq.toNat = _
    rw [hux]
    show ((o.s.xseq + 1) &&& seqMask o.s).toNat = _
    rw [nextSeq, hbits, h.xseq, Nat.mod_add_mod, length_append, length_singleton,
      add_assoc]
  · exact ⟨fun h => (by cases h), fun h => absurd h (by simp)⟩
  · dsimp only
    rw [map_append, flatten_append, map_singleton, flatten_singleton,
      append_assoc, ← hdata]
    congr 1
    split
    · rename_i heq
      rw [of_decide_eq_true heq, Option.getD_none, append_nil, take_length]
    · rw [Option.getD_some, take_append_drop]
  · dsimp only
    intro hnil
    split at hnil
    · cases hnil
    · rename_i hne
      have hdrop := drop_eq_nil_iff.1 (Option.some.inj hnil)
      exact absurd (decide_eq_true (by omega)) hne
  · intro k hk
    dsimp only at hk ⊢
    have hk' : k < o.frags.length + 1 := by simpa using hk
    rcases Nat.lt_succ_iff_lt_or_eq.1 hk' with hlt | heq
    · have hold := h.frag k hlt
      rw [getElem_append_left hlt]
      have hfalse : decide (o.m = none ∧ k + 1 = o.frags.length) = false :=
        decide_eq_false fun hnone => (by rw [hm] at hnone; cases hnone.1)
      rw [hfalse] at hold
      rw [decide_eq_false fun hlast => (by
        have := hlast.2
        rw [length_append, length_singleton] at this
        omega)]
      exact hold
    · have hget : (o.frags ++ [(⟨linkNum, mpHeader o.s.conf.xmitShortSeq o.s.xseq o.first
          (decide (len = m.length)), m.take len⟩ : Frag)])[k] = ⟨linkNum,
          mpHeader o.s.conf.xmitShortSeq o.s.xseq o.first (decide (len = m.length)),
          m.take len⟩ := by
        subst heq; exact getElem_concat_length rfl _
      rw [hget]
      refine ⟨?_, ?_, ?_, ?_, hlink, ?_⟩
      · rw [← h.same.conf]; exact mpHeader_short _ _ _ _
      · dsimp only
        rw [hseq, h.xseq, heq]
      · dsimp only
        rw [hfirst, h.first, heq, length_eq_zero_iff]
      · dsimp only
        rw [hlast]
        refine decide_eq_decide.2 ⟨fun hl => ⟨by rw [if_pos (decide_eq_true hl)], ?_⟩, fun hl => ?_⟩
        · rw [length_append, length_singleton, heq]
        · by_contra hne
          rw [if_neg (by simpa using hne)] at hl
          cases hl.1
      · dsimp only
        rw [length_take, min_eq_left hle]; exact hlen
  · dsimp only
    split
    · rename_i heq
      have heq := of_decide_eq_true heq
      rw [Option.getD_none, length_nil]; omega
    · rw [Option.getD_some, length_drop]; omega
  · simp

/-- What is left of a frame. -/
def remaining (o : Out) : ℕ := (o.m.getD []).length

/-- The fragments on one link take its share off the frame. -/
theorem deliverLink_spec (clock : ℕ → Timeval) (hs : NodeOk s) {d : ℤ} (h : Sent s M o)
    (hlink : linkNum ∈ s.activeLinks)
    (hd : 0 ≤ d) (hle : d ≤ remaining o) :
    ∃ o', deliverLink clock o linkNum d = .ok o' ∧ Sent s M o' ∧
      (remaining o' : ℤ) + d = remaining o := by
  induction hn : d.toNat using Nat.strong_induction_on generalizing d o with
  | _ n ih =>
    rw [deliverLink]
    by_cases hpos : 0 < d
    swap
    · rw [dif_neg hpos]; exact ⟨o, rfl, h, by omega⟩
    have hmru : (o.s.links linkNum).conf.mru = (s.links linkNum).conf.mru := by
      rw [(h.same.links linkNum).1]
    have hhdr : hdrLen o.s = hdrLen s := by
      unfold hdrLen
      rw [h.same.conf]
    have hbig : hdrLen s ≤ 4 := by
      unfold hdrLen
      split <;> omega
    have hmin := (hs.link hlink).2.2.1
    rw [dif_pos hpos, hmru, hhdr]
    obtain ⟨len, hlen⟩ : ∃ len, len = min d ((s.links linkNum).conf.mru.toNat - hdrLen s : ℤ) :=
      ⟨_, rfl⟩
    rw [← hlen]
    have hlen0 : 0 < len := by omega
    rw [dif_pos hlen0]
    obtain ⟨m, hm⟩ : ∃ m, o.m = some m := by
      cases hm : o.m with
      | none =>
        unfold remaining at hle
        rw [hm, Option.getD_none, length_nil] at hle; omega
      | some m => exact ⟨m, rfl⟩
    have hrem : remaining o = m.length := by
      unfold remaining
      rw [hm, Option.getD_some]
    obtain ⟨o', hsend, hsent, hrest, -⟩ := sendFragment_spec clock len.toNat hs h hlink
      (by omega) hm (by omega)
    rw [hsend]
    dsimp only
    have hrest : remaining o' + len.toNat = remaining o := hrest.trans hrem.symm
    obtain ⟨u, hu, hsent', hrest'⟩ := ih (d - len).toNat (by omega) hsent (by omega) (by omega) rfl
    exact ⟨u, hu, hsent', by omega⟩

/-- Shares that add up to the frame carry all of it. -/
theorem deliver_spec (clock : ℕ → Timeval) (hs : NodeOk s) {k : ℕ} (h : Sent s M o)
    (hk : k ≤ s.activeLinks.length) (hlen : distrib.length = s.activeLinks.length)
    (hnonneg : ∀ d ∈ distrib, 0 ≤ d) (hsum : (distrib.take k).sum = remaining o) :
    ∃ o', deliver clock distrib k o = .ok o' ∧ Sent s M o' ∧ remaining o' = 0 := by
  induction k generalizing o with
  | zero =>
    rw [take_zero, sum_nil] at hsum; exact ⟨o, rfl, h, by omega⟩
  | succ k ih =>
    have hlt : k < distrib.length := by omega
    have hget : distrib.getD k 0 = distrib[k] := getD_eq_getElem _ _ hlt
    have hlink : o.s.activeLinks.getD k 0 ∈ s.activeLinks := by
      rw [h.same.activeLinks, getD_eq_getElem _ _ (by omega)]
      exact getElem_mem _
    rw [take_add_one, List.getElem?_eq_getElem hlt, Option.toList_some, sum_append,
      sum_singleton] at hsum
    have hfirst : 0 ≤ (distrib.take k).sum :=
      sum_nonneg fun d hd => hnonneg d (mem_of_mem_take hd)
    have hd := hnonneg _ (getElem_mem hlt)
    obtain ⟨o', ho', hsent, hrest⟩ := deliverLink_spec clock hs h hlink hd (by omega)
    rw [deliver, hget, ho']; exact ih hsent (by omega) (by omega)

/-- A frame that is sent whole. -/
theorem Sent.fragmented (h : Sent s M o) (hrest : remaining o = 0) : Fragmented s M o.frags := by
  have hnil : o.m.getD [] = [] := eq_nil_of_length_eq_zero hrest
  refine ⟨by rw [← h.data, hnil, append_nil], fun k hk => ?_⟩
  have hnone : o.m = none := by
    cases hm : o.m with
    | none => rfl
    | some m =>
      rw [hm, Option.getD_some] at hnil
      rw [hnil] at hm
      rw [h.rest hm] at hk; exact absurd hk (Nat.not_lt_zero k)
  have hfrag := h.frag k hk
  rwa [decide_eq_decide.2 (show (o.m = none ∧ k + 1 = o.frags.length) ↔ k + 1 = o.frags.length from
    ⟨fun h => h.2, fun h => ⟨hnone, h⟩⟩)] at hfrag

/-! ## The three ways to divide a frame -/

/-- When the shares of the links add up to the frame: the counter goes over all links, or there is
    one link, or the arithmetic of the latencies stays in its types. -/
def Fits (s : Node) (now : Timeval) (len : ℕ) : Prop :=
  s.conf.enableRoundRobin = true ∨ len < MP_MIN_FRAG_LEN ∨
    if s.allLinksEqual then NoWrap s.activeLinks.length s.lastLink
    else s.activeLinks.length = 1 ∨
      ((∀ y ∈ loads s now, 0 ≤ y.latency) ∧ InRange (loads s now) len)

theorem InLimits.loads (hs : InLimits s) (h : ∀ y ∈ loads s now, 0 ≤ y.latency) :
    LoadsOk (loads s now) := by
  refine ⟨fun y hy => ⟨h y hy, ?_⟩, fun y hy => ?_, ?_⟩
  · obtain ⟨i, -, rfl⟩ := mem_map.1 hy
    have hint : ∀ x, int x < 2 ^ 31 := fun x =>
      BitVec.toInt_lt (x := BitVec.ofInt 32 x)
    show (linkLatency (s.links i) now).1 < 2 ^ 31
    unfold linkLatency
    dsimp only
    split
    · exact hint _
    split
    · exact hint _
    split
    · exact hint _
    · exact hint _
  · obtain ⟨i, hi, rfl⟩ := mem_map.1 hy
    obtain ⟨hlow, hhigh⟩ := hs.bandwidth i hi
    dsimp only; omega
  · rw [NgPpp.loads, length_map]; exact hs.length

theorem distribute_spec (q : Qsort) (hs : NodeOk s) (hne : s.activeLinks ≠ [])
    (hmax : (len : ℤ) ≤ MaxFrame) (hfits : Fits s now len)
    (hjunk : junk.length = s.activeLinks.length) :
    ∃ t distrib, distribute q s now len junk = some (t, distrib) ∧
      Shares s.activeLinks.length len distrib ∧ SameConf s t ∧ t.xseq = s.xseq := by
  have hn : 0 < s.activeLinks.length := length_pos_of_ne_nil hne
  unfold distribute
  dsimp only
  by_cases hrr : s.conf.enableRoundRobin = true ∨ len < MP_MIN_FRAG_LEN
  · rw [if_pos hrr]; exact ⟨_, _, rfl, roundRobin_spec hn, ⟨rfl, rfl, fun _ => ⟨rfl, rfl⟩⟩, rfl⟩
  rw [if_neg hrr]
  have hfits := hfits.resolve_left (fun h => hrr (.inl h))
  have hfits := hfits.resolve_left (fun h => hrr (.inr h))
  by_cases heq : s.allLinksEqual = true
  · rw [if_pos heq] at hfits ⊢
    exact ⟨_, _, rfl, equalShares_spec hn hjunk hfits, ⟨rfl, rfl, fun _ => ⟨rfl, rfl⟩⟩, rfl⟩
  · rw [if_neg heq] at hfits ⊢
    have hmin : 6 ≤ len := not_lt.1 fun h => hrr (.inr h)
    refine mpStrategy_spec q (hfits.imp id fun h => ⟨hs.inLimits.loads h.1, h.2⟩) hne ?_ hmax
    exact_mod_cast lt_of_lt_of_le (by norm_num) hmin

/-- What `ng_ppp_mp_output` does with a frame as it should. -/
def Delivered (q : Qsort) (s : Node) (m : List Byte) (clock : ℕ → Timeval) (junk : List ℤ) : Prop :=
  ∃ o, mpOutput q s m clock junk = .ok o ∧ Fragmented s m o.frags ∧ NodeOk o.s

theorem delivered_of_fits (q : Qsort) (hs : NodeOk s) (hne : s.activeLinks ≠ [])
    (hmax : (M.length : ℤ) ≤ MaxFrame) (hfits : Fits s (clock 0) M.length)
    (hjunk : junk.length = s.activeLinks.length) : Delivered q s M clock junk := by
  obtain ⟨t, distrib, hdistrib, hshares, hsame, hx⟩ := distribute_spec q hs hne hmax hfits hjunk
  have hsent : Sent s M ⟨t, some M, true, []⟩ := by
    refine ⟨hsame, ?_, ⟨fun _ => rfl, fun _ => rfl⟩, rfl, fun _ => rfl, fun k hk => ?_⟩
    · show t.xseq.toNat = (s.xseq.toNat + 0) % 2 ^ seqBits s
      rw [hx, add_zero, Nat.mod_eq_of_lt hs.xseq]
    · exact absurd hk (Nat.not_lt_zero k)
  obtain ⟨o, ho, hdone, hrest⟩ := deliver_spec (fun k => clock (k + 1)) hs hsent le_rfl
    hshares.length hshares.nonneg (by
      rw [← hshares.length, take_length]
      exact hshares.sum)
  refine ⟨o, ?_, hdone.fragmented hrest, hs.same hdone.same ?_ hne⟩
  · unfold mpOutput
    rw [if_neg fun h => hne (eq_nil_of_length_eq_zero h), hdistrib]
    dsimp only
    rw [hsame.activeLinks]; exact ho
  · rw [hdone.xseq]; exact Nat.mod_lt _ (two_pow_seqBits_pos s)

/-! ## Frames that are not sent as they should -/

/-- The bytes that were sent. -/
def sentBytes (o : Out) : ℕ := (o.frags.map fun f => f.data.length).sum

theorem sendFragment_bytes (h : sendFragment clock o linkNum len = .ok o') :
    sentBytes o' = sentBytes o + len := by
  unfold sendFragment at h
  cases hm : o.m with
  | none =>
    rw [hm] at h
    cases h
  | some m =>
    rw [hm] at h
    dsimp only at h
    split at h
    · cases h
    split at h
    · cases h
    · cases h
      unfold sentBytes
      dsimp only
      rw [map_append, sum_append, map_singleton, sum_singleton,
        length_take]
      omega

theorem deliverLink_bytes {d : ℤ} (h : deliverLink clock o linkNum d = .ok o') :
    sentBytes o' = sentBytes o + d.toNat := by
  induction hn : d.toNat using Nat.strong_induction_on generalizing d o with
  | _ n ih =>
    rw [deliverLink] at h
    split at h
    · split at h
      · rename_i hpos hlen
        split at h
        · cases h
        · rename_i hsend
          have hstep := sendFragment_bytes hsend
          have hrest := ih _ (by omega) h rfl; omega
      · cases h
    · cases h
      omega

theorem deliver_bytes {k : ℕ} (h : deliver clock distrib k o = .ok o') :
    sentBytes o ≤ sentBytes o' ∧ ∀ j < k, (distrib.getD j 0).toNat ≤ sentBytes o' := by
  induction k generalizing o with
  | zero =>
    cases h
    exact ⟨le_refl _, fun j hj => absurd hj (Nat.not_lt_zero j)⟩
  | succ k ih =>
    rw [deliver] at h
    split at h
    · cases h
    · rename_i hlink
      have hbytes := deliverLink_bytes hlink
      obtain ⟨hle, hall⟩ := ih h
      refine ⟨by omega, fun j hj => ?_⟩
      rcases Nat.lt_succ_iff_lt_or_eq.1 hj with hj | rfl
      · exact hall j hj
      · omega

theorem distribute_active {q : Qsort}
    (h : distribute q s now len junk = some (t, distrib)) : t.activeLinks = s.activeLinks := by
  unfold distribute at h
  dsimp only at h
  split at h
  · cases h
    rfl
  split at h
  · cases h
    rfl
  · unfold mpStrategy at h
    split at h
    · cases h
      rfl
    · obtain ⟨shares, -, heq⟩ := Option.map_eq_some_iff.1 h
      cases heq
      rfl

/-- No link gets more than the frame. -/
theorem Delivered.share_le {q : Qsort} (h : Delivered q s M clock junk)
    (hdistrib : distribute q s (clock 0) M.length junk = some (t, distrib)) {j : ℕ}
    (hj : j < s.activeLinks.length) : distrib.getD j 0 ≤ M.length := by
  obtain ⟨o, ho, hfrag, -⟩ := h
  unfold mpOutput at ho
  rw [if_neg (by omega), hdistrib] at ho
  dsimp only at ho
  rw [distribute_active hdistrib] at ho
  have hle := (deliver_bytes ho).2 j hj
  have hsent : sentBytes o = M.length := by
    rw [← hfrag.data, length_flatten, map_map]; rfl
  omega

/-- A frame is sent in fragments that carry it, are numbered one after the other, have the flags and
    fit their links, if its shares are computed without an overflow; and on links that are equal
    only then, whatever the shares were before. -/
theorem mpOutput_spec (q : Qsort) (hs : NodeOk s) (hne : s.activeLinks ≠ [])
    (hmax : (M.length : ℤ) ≤ MaxFrame) :
    (Fits s (clock 0) M.length → ∀ junk : List ℤ, junk.length = s.activeLinks.length →
      Delivered q s M clock junk) ∧
    (s.allLinksEqual = true → (∀ junk : List ℤ, junk.length = s.activeLinks.length →
      Delivered q s M clock junk) → Fits s (clock 0) M.length) := by
  refine ⟨fun hfits junk hjunk => delivered_of_fits q hs hne hmax hfits hjunk, fun heq hall => ?_⟩
  by_contra hno
  obtain ⟨hrr, hno⟩ := not_or.1 hno
  obtain ⟨hmin, hno⟩ := not_or.1 hno
  rw [if_pos heq] at hno
  have hn : 0 < s.activeLinks.length := length_pos_of_ne_nil hne
  have h16 : s.activeLinks.length ≤ 16 := hs.inLimits.length
  obtain ⟨j, hj, hkeeps⟩ := equalShares_keeps M.length hn (by omega) hno
  -- the share that is not set is more than the frame
  obtain ⟨junk, hjunk⟩ : ∃ junk, junk = List.replicate s.activeLinks.length (M.length + 1 : ℤ) :=
    ⟨_, rfl⟩
  have hlen : junk.length = s.activeLinks.length := by rw [hjunk, length_replicate]
  have hget : junk.getD j 0 = M.length + 1 := by rw [hjunk]; exact getD_replicate _ hj
  have hle := (hkeeps junk).1
  have hdistrib : distribute q s (clock 0) M.length junk =
      some ({ s with lastLink := (equalShares s.activeLinks.length M.length s.lastLink junk).1 },
        (equalShares s.activeLinks.length M.length s.lastLink junk).2) := by
    unfold distribute
    dsimp only
    rw [if_neg (fun h => h.elim hrr hmin), if_pos heq]
  have hshare := (hall junk hlen).share_le hdistrib hj; omega

/-! ## Two links -/

/-- A `qsort`. -/
def insertionQsort : Qsort where
  sort cmp l := (l.attach.insertionSort fun a b : {x // x ∈ l} => cmp a b ≤ 0).map Subtype.val
  perm cmp l := by
    have h := (perm_insertionSort (fun a b : {x // x ∈ l} => cmp a b ≤ 0) l.attach).map
      Subtype.val
    rwa [attach_map_subtype_val] at h
  ordered cmp l key h := by
    have hle : ∀ a b : {x // x ∈ l}, cmp a b ≤ 0 ↔ key a ≤ key b := by
      intro a b
      rw [h a a.2 b b.2]; omega
    have htotal : Std.Total fun a b : {x // x ∈ l} => cmp a b ≤ 0 :=
      ⟨fun a b => by
        rw [hle, hle]
        exact le_total _ _⟩
    have htrans : IsTrans {x // x ∈ l} fun a b => cmp a b ≤ 0 :=
      ⟨fun a b c => by
        rw [hle, hle, hle]
        exact le_trans⟩
    refine pairwise_map.2 ((pairwise_insertionSort _ _).imp fun {a b} hab => ?_)
    exact (hle a b).1 hab

/-- A node as `ng_ppp_constructor` makes it. -/
def freshNode : Node :=
  ⟨⟨0, false, false, false, false⟩, fun _ => ⟨⟨false, false, false, 0, 0, 0⟩, false, ⟨0, 0⟩, 0⟩, 0,
    false, [], 0⟩

theorem freshNode_ok : NodeOk freshNode := by
  have hconf : (⟨false, false, false, 0, 0, 0⟩ : LinkConf) =
      addLatency freshNode.conf ⟨false, false, false, 0, 0, 0⟩ := by decide
  exact ⟨fun _ _ => ⟨_, rfl, hconf⟩, by decide, by decide, fun _ => rfl⟩

/-- Two links that are connected and configured. -/
def twoLinks (bandwidth₀ bandwidth₁ : BitVec 32) : Node :=
  let s := update (freshNode.setLink 0 { freshNode.links 0 with hook := true }) false
  let s := update (s.setLink 1 { s.links 1 with hook := true }) false
  (setConfig s ⟨1500, true, false, false, false⟩ fun i =>
    if i = 0 then ⟨true, false, false, 1500, 0, bandwidth₀⟩
    else if i = 1 then ⟨true, false, false, 1500, 0, bandwidth₁⟩
    else ⟨false, false, false, 0, 0, 0⟩).1

theorem twoLinks_ok (bandwidth₀ bandwidth₁ : BitVec 32) : NodeOk (twoLinks bandwidth₀ bandwidth₁) :=
  setConfig_ok (hooked_ok (hooked_ok freshNode_ok 0 true) 1 true) _ _

theorem mpOutput_spec_twoLinks :
    Delivered insertionQsort (twoLinks 1000 1000) (List.replicate 6 0) (fun _ => ⟨0, 0⟩) [0, 0] :=
  (mpOutput_spec insertionQsort (twoLinks_ok 1000 1000) (by decide) (by decide)).1
    (Or.inr (Or.inr (by
      rw [if_pos (by decide)]
      exact Or.inl (by decide)))) [0, 0] rfl

/-- Two fast links with latencies for their headers: the sum over both leaves an `int`. -/
theorem topSum_overflow :
    ¬∀ (q : Qsort) (s : Node) (m : List Byte) (clock : ℕ → Timeval) (junk : List ℤ), NodeOk s →
      s.activeLinks ≠ [] → (m.length : ℤ) ≤ MaxFrame → junk.length = s.activeLinks.length →
      Delivered q s m clock junk := by
  intro h
  have hd := h insertionQsort (twoLinks 125000 124999) (List.replicate 6 0) (fun _ => ⟨0, 0⟩) [0, 0]
    (twoLinks_ok _ _) (by decide) (by decide) (by decide)
  obtain ⟨r, hr⟩ : ∃ r, r = distribute insertionQsort (twoLinks 125000 124999) ⟨0, 0⟩ 6 [0, 0] :=
    ⟨_, rfl⟩
  have hshares : r.map Prod.snd = some [21473583, -21473577] := by rw [hr]; decide +kernel
  obtain ⟨⟨t, distrib⟩, hsome, hdistrib⟩ := Option.map_eq_some_iff.1 hshares
  have hle := hd.share_le (j := 0) (hr.symm.trans hsome) (by decide)
  rw [show distrib = [21473583, -21473577] from hdistrib] at hle; exact absurd hle (by decide)

/-! ## The strategy by itself -/

/-- The strategy ends with shares that add up to the frame. -/
def Shared (q : Qsort) (s : Node) (now : Timeval) (len : ℤ) : Prop :=
  ∃ t distrib, mpStrategy q s now len = some (t, distrib) ∧ Shares s.activeLinks.length len distrib

/-- It does for one link, and where the arithmetic of the latencies stays in its types. -/
theorem mpStrategy_shared (q : Qsort) (hs : InLimits s) (hne : s.activeLinks ≠ []) {now : Timeval}
    {len : ℤ} (hlen : 0 < len) (hmax : len ≤ 65535)
    (hr : s.activeLinks.length = 1 ∨
      ((∀ y ∈ loads s now, 0 ≤ y.latency) ∧ InRange (loads s now) len)) :
    Shared q s now len := by
  have hfits := hr.imp_right fun h => (⟨hs.loads h.1, h.2⟩ : LoadsOk (loads s now) ∧ _)
  have hframe : len ≤ MaxFrame := hmax.trans (by decide)
  obtain ⟨t, distrib, hsome, hshares, -⟩ := mpStrategy_spec q hfits hne hlen hframe
  exact ⟨t, distrib, hsome, hshares⟩

/-- Two links, the second one slow and with bytes in its queue. -/
def queuedLinks (bytesInQueue : ℤ) : Node :=
  let s := twoLinks 10000 10
  s.setLink 1 { s.links 1 with bytesInQueue := bytesInQueue }

theorem queuedLinks_inLimits (bytesInQueue : ℤ) : InLimits (queuedLinks bytesInQueue) := by
  have h := (twoLinks_ok 10000 10).inLimits
  refine ⟨h.length, fun i hi => ?_⟩
  have hconf : ((queuedLinks bytesInQueue).links i).conf = ((twoLinks 10000 10).links i).conf := by
    show (Function.update (twoLinks 10000 10).links 1 _ i).conf = _
    by_cases h1 : i = 1
    · rw [h1, update_self]
    · rw [update_of_ne h1]
  rw [hconf]; exact h.bandwidth i hi

theorem mpStrategy_shared_queued : Shared insertionQsort (queuedLinks 100) ⟨0, 0⟩ 1000 :=
  mpStrategy_shared insertionQsort (queuedLinks_inLimits 100) (by decide) (by decide) (by decide)
    (.inr ⟨by decide +kernel, by decide +kernel, by decide +kernel⟩)

/-- The flow to a link that is reached late wraps around: the slow link is used, too. -/
theorem flow_overflow :
    ¬∀ (q : Qsort) (s : Node) (now : Timeval) (len : ℤ), InLimits s → s.activeLinks ≠ [] →
      0 < len → len ≤ 65535 → Shared q s now len := by
  intro h
  obtain ⟨t, distrib, hsome, hshares⟩ := h insertionQsort (queuedLinks 43030) ⟨0, 0⟩ 1000
    (queuedLinks_inLimits 43030) (by decide) (by decide) (by decide)
  have hdistrib : (mpStrategy insertionQsort (queuedLinks 43030) ⟨0, 0⟩ 1000).map Prod.snd =
      some [43905, -42905] := by
    decide +kernel
  rw [hsome] at hdistrib
  obtain rfl := Option.some.inj hdistrib
  exact absurd (hshares.nonneg (-42905) (by simp)) (by decide)

end FreeBSD.NgPpp
