import FreeBSD.Net.IpFwSound

/-!
# The socket options and the interpreter

Whatever the socket options do, the rules of the list stay rules that were accepted, with the
default rule behind them, and their links stay right.

Results:
* `linked_of_run`: the list after any socket options.
* `chk_of_run`: when every packet is handled soundly.
-/

namespace FreeBSD.IpFw2

open Lib List Option

variable {Q : IpFw → Prop} {c t : IpFwChain} {rules l : List Rule} {m : Rule → Rule}

/-- Rules that are linked, of which `Q` holds, and whose links are right. -/
structure LinkOk (Q : IpFw → Prop) (c : IpFwChain) : Prop where
  linked : Linked c.rules
  lt : ∀ r ∈ c.rules, r.addr < c.nalloc
  holds : ∀ r ∈ c.rules, Q r.fw
  cache : CacheOk c.rules (cacheOf c.rules)

/-- A property of the instructions of a rule. -/
def OnWords (Q : IpFw → Prop) : Prop :=
  ∀ fw fw' : IpFw, fw'.cmd = fw.cmd → fw'.act_ofs = fw.act_ofs → Q fw → Q fw'

theorem cacheOk_of_none (h : ∀ r ∈ rules, r.next_rule = none) : CacheOk rules (cacheOf rules) := by
  intro f rest a _ hc
  unfold cacheOf at hc
  cases hat : suffixAt rules f.addr with
  | nil =>
    rw [hat] at hc
    cases hc
  | cons g rest' =>
    have hg : g ∈ rules := (suffixAt_suffix f.addr).subset (by rw [hat]; exact mem_cons_self)
    rw [hat] at hc
    have hc : g.next_rule = some a := hc
    rw [h g hg] at hc
    cases hc

theorem flush_same : SameRule fun rule => { rule with next_rule := none } :=
  ⟨fun _ => rfl, fun _ => rfl, fun _ => rfl, fun _ => rfl, fun _ _ => rfl, fun _ => rfl⟩

theorem moveSet_same (new : IpFw → BitVec 8) : SameRule (moveSet new) := by
  refine ⟨fun r => ?_, fun r => ?_, fun r => ?_, fun r => ?_, fun r hr => ?_, fun r => ?_⟩
  · exact (moveSet_keeps new).addr r
  · exact (moveSet_keeps new).rulenum r
  · unfold moveSet
    split <;> rfl
  · exact (moveSet_keeps new).cmd_len r
  · rw [(moveSet_keeps new).default r hr]
  · unfold moveSet
    split <;> rfl

/-- The rules are changed where they are. -/
theorem LinkOk.map (h : LinkOk Q c) (hQ : OnWords Q) (hm : SameRule m)
    (hcache : CacheOk (c.rules.map m) (cacheOf (c.rules.map m))) :
    LinkOk Q { c with rules := c.rules.map m } := by
  refine ⟨hm.linked h.linked, fun r hr => ?_, fun r hr => ?_, hcache⟩
  · obtain ⟨r', hr', rfl⟩ := mem_map.1 hr
    rw [hm.addr]; exact h.lt r' hr'
  · obtain ⟨r', hr', rfl⟩ := mem_map.1 hr
    exact hQ _ _ (hm.cmd r') (hm.act_ofs r') (h.holds r' hr')

theorem flush_none : ∀ r ∈ flushRulePtrs l, r.next_rule = none := by
  intro r hr
  obtain ⟨r', -, rfl⟩ := mem_map.1 hr
  rfl

theorem LinkOk.flushed (h : LinkOk Q c) (hQ : OnWords Q) :
    LinkOk Q { c with rules := flushRulePtrs c.rules } :=
  h.map hQ flush_same (cacheOk_of_none flush_none)

/-- Rules are removed, and no link is known. -/
theorem LinkOk.removed (h : LinkOk Q c) {removed : List Rule} (hrem : Removed c t removed)
    (hd : ∀ r ∈ removed, ∀ rs, c.rules ≠ rs ++ [r])
    (hnew : ∀ r ∈ c.rules, r.next_rule = none) : LinkOk Q t := by
  have hsub := hrem.sublist.subset
  refine ⟨⟨?_, fun r hr => h.linked.walk r (hsub hr), ?_⟩, fun r hr => ?_,
    fun r hr => h.holds r (hsub hr), cacheOk_of_none fun r hr => hnew r (hsub hr)⟩
  · exact h.linked.nodup.sublist (hrem.sublist.map Rule.addr)
  · obtain ⟨rs, d, accept, hrules, hcmd, hofs, hset, hdnum, hlt⟩ := h.linked.last
    have hdt : d ∈ t.rules := by
      have hmem : d ∈ removed ++ t.rules :=
        hrem.perm.subset (by rw [hrules]; exact mem_append_right _ mem_cons_self)
      exact (mem_append.1 hmem).resolve_left fun hr => hd d hr rs hrules
    have hsubl := hrem.sublist
    rw [hrules] at hsubl
    obtain ⟨r₁, r₂, ht, h₁, h₂⟩ := sublist_append_iff.1 hsubl
    refine ⟨r₁, d, accept, ?_, hcmd, hofs, hset, hdnum, fun r hr => hlt r (h₁.subset hr)⟩
    rw [ht] at hdt ⊢
    rcases mem_append.1 hdt with hd₁ | hd₂
    · have := hlt d (h₁.subset hd₁); omega
    · have hlen := h₂.length_le
      have hpos := length_pos_of_mem hd₂
      rw [length_singleton] at hlen
      rw [h₂.eq_of_length (by rw [length_singleton]; omega)]
  · rw [hrem.nalloc]; exact h.lt r (hsub hr)

/-- A rule that is accepted is added, or not linked. -/
theorem LinkOk.inserted (h : LinkOk Q c) (hQ : OnWords Q) {fw : IpFw} (hwalk : Walk fw.cmd)
    (hlen : fw.cmd_len.toNat = fw.cmd.length) (hfw : Q fw) (v : ℤ) :
    LinkOk Q { added c fw with rules := flushRulePtrs (added c fw).rules, autoinc_step := v } := by
  obtain ⟨rs, d, accept, hrules, hcmd, hofs, hset, hdnum, hlt⟩ := h.linked.last
  have hmem : ∀ r ∈ (added c fw).rules, r = ⟨c.nalloc, fw, none⟩ ∨ r ∈ c.rules :=
    fun r hr => mem_insertRule hr
  have hlinked : Linked (added c fw).rules := by
    by_cases hnum : fw.rulenum.toNat < defaultRule
    · refine ⟨?_, fun r hr => ?_, ?_⟩
      · have hperm := insertRule_perm ⟨c.nalloc, fw, none⟩ (l := c.rules) ⟨d,
          by rw [hrules]; exact mem_append_right _ mem_cons_self,
          by rw [hdnum]; exact hnum⟩
        refine (hperm.map Rule.addr).nodup_iff.2 (nodup_cons.2 ⟨fun hin => ?_, h.linked.nodup⟩)
        obtain ⟨r, hr, heq⟩ := mem_map.1 hin
        have := h.lt r hr
        have heq : r.addr = c.nalloc := heq
        omega
      · rcases hmem r hr with rfl | hr
        · exact ⟨hwalk, hlen⟩
        · exact h.linked.walk r hr
      · obtain ⟨l', hl', hmem'⟩ := insertRule_append (l := rs)
          (show (⟨c.nalloc, fw, none⟩ : Rule).num < d.num by rw [hdnum]; exact hnum)
        refine ⟨l', d, accept, ?_, hcmd, hofs, hset, hdnum, fun r hr => ?_⟩
        · show insertRule _ c.rules = _
          rw [hrules, hl']
        · rcases hmem' r hr with rfl | hr
          · exact hnum
          · exact hlt r hr
    · have hsame : (added c fw).rules = c.rules := by
        refine insertRule_eq_self fun f hf => ?_
        have hf' : f.num ≤ defaultRule := by
          rw [hrules] at hf
          rcases mem_append.1 hf with hf | hf
          · exact (hlt f hf).le
          · rw [mem_singleton.1 hf, hdnum]
        exact hf'.trans (not_lt.1 hnum)
      rw [hsame]; exact h.linked
  refine ⟨flush_same.linked hlinked, fun r hr => ?_, fun r hr => ?_, cacheOk_of_none flush_none⟩
  · obtain ⟨r', hr', rfl⟩ := mem_map.1 hr
    rcases hmem r' hr' with rfl | hr'
    · exact Nat.lt_succ_self _
    · exact Nat.lt_succ_of_lt (h.lt r' hr')
  · obtain ⟨r', hr', rfl⟩ := mem_map.1 hr
    refine hQ r'.fw _ rfl rfl ?_
    rcases hmem r' hr' with rfl | hr'
    · exact hfw
    · exact h.holds r' hr'

theorem LinkOk.congr (h : LinkOk Q c) (hrules : t.rules = c.rules) (hn : t.nalloc = c.nalloc) :
    LinkOk Q t := by
  obtain ⟨hlinked, hlt, hholds, hcache⟩ := h
  rw [← hrules] at hlinked hlt hholds hcache
  exact ⟨hlinked, fun r hr => by rw [hn]; exact hlt r hr, hholds, hcache⟩

/-! ## The socket options -/

/-- The words of a rule that is accepted. -/
theorem checkIpfwStruct_spec {rule r : IpFw} (h : checkIpfwStruct rule = .ok r) :
    Walk r.cmd ∧ r.cmd_len.toNat = r.cmd.length := by
  unfold checkIpfwStruct at h
  split at h
  · cases h
  split at h
  · cases h
  rename_i hlen
  cases hcheck : checkLoop false rule.cmd with
  | error e =>
    rw [hcheck] at h
    cases h
  | ok cmd =>
    rw [hcheck] at h
    obtain rfl := Except.ok.inj h
    obtain ⟨hwalk, hlength⟩ := walk_of_check hcheck
    refine ⟨hwalk, ?_⟩
    show rule.cmd_len.toNat = cmd.length
    rw [hlength]; omega

/-- `Q` holds of a rule that is added. -/
def Adds (Q : IpFw → Prop) : Op → Prop
  | .add rule mem => ∀ r, checkIpfwStruct (copyin rule) = .ok r → mem = true → Q r
  | _ => True

theorem LinkOk.ne_nil (h : LinkOk Q c) : c.rules ≠ [] := by
  obtain ⟨rs, d, accept, hrules, -⟩ := h.linked.last
  rw [hrules]; exact append_ne_nil_of_right_ne_nil rs (cons_ne_nil d [])

theorem ipFwAdd_linkOk (hQ : OnWords Q) (h : LinkOk Q c) (rule : IpFw) (mem : Bool)
    (hadd : Adds Q (.add rule mem)) : LinkOk Q (ipFwAdd c rule mem).1 := by
  unfold ipFwAdd
  cases hcheck : checkIpfwStruct (copyin rule) with
  | error e => exact h
  | ok r =>
    cases mem with
    | false =>
      dsimp only
      rw [addRule_nomem h.ne_nil]; exact h
    | true =>
      obtain ⟨hwalk, hlen⟩ := checkIpfwStruct_spec hcheck
      obtain ⟨fw, v, -, ⟨hcmd, hcl, hofs⟩, heq⟩ := addRule_eq h.ne_nil r
      dsimp only
      rw [heq]
      exact h.inserted hQ (by rw [hcmd]; exact hwalk) (by rw [hcl, hcmd]; exact hlen)
        (hQ r fw hcmd hofs (hadd r hcheck rfl)) v

theorem delEntry_linkOk (hQ : OnWords Q) (h : LinkOk Q c) (arg : Word) :
    ∃ t e, delEntry c arg = some (t, e) ∧ LinkOk Q t := by
  obtain ⟨rs, d, accept, hrules, hcmd, hofs, hset, hd, hlt⟩ := h.linked.last
  have h' : LinkOk Q { c with reap := [] } := h.congr rfl rfl
  rcases delEntry_spec hrules hd hlt arg with ⟨e, he⟩ | ⟨t, b, hswitch, e, he⟩
  · exact ⟨c, some e, he, h⟩
  refine ⟨_, e, he, ?_⟩
  cases hswitch with
  | none heq =>
    rw [heq]; exact h'
  | removed hrem hall =>
    refine LinkOk.congr ((h'.flushed hQ).removed hrem (fun r hr rs' heq => ?_) flush_none) rfl rfl
    have heq : flushRulePtrs c.rules = rs' ++ [r] := heq
    have hlast : (flushRulePtrs c.rules).getLast? = some { d with next_rule := none } := by
      rw [hrules]
      unfold flushRulePtrs
      rw [map_append, map_singleton, List.getLast?_concat]
    rw [heq, List.getLast?_concat] at hlast
    have hr := hall r hr
    rw [some.inj hlast] at hr
    have hd : ({ d with next_rule := none } : Rule).num = defaultRule := hd
    omega
  | @moved new heq =>
    have hmoved : LinkOk Q { { c with reap := [] } with rules := c.rules.map (moveSet new) } := by
      refine h'.map hQ (moveSet_same new) ((moveSet_same new).cacheOk h.linked (fun r hr => ?_)
        h.cache)
      unfold cacheOf
      obtain ⟨pre, rest, hpre⟩ := append_of_mem hr
      rw [suffixAt_eq h.linked.nodup ⟨pre, hpre.symm⟩]
      unfold moveSet
      split <;> rfl
    rw [heq]; exact hmoved.congr rfl rfl

theorem ipFwFlush_linkOk (hQ : OnWords Q) (h : LinkOk Q c) : LinkOk Q (ipFwFlush c) := by
  obtain ⟨u, hu⟩ : ∃ u, u = ({ c with reap := [], rules := flushRulePtrs c.rules } : IpFwChain) :=
    ⟨_, rfl⟩
  have hurules : u.rules = flushRulePtrs c.rules := by rw [hu]
  have hok : LinkOk Q u := (h.flushed hQ).congr hurules (by rw [hu])
  obtain ⟨removed, hrem, hall, -⟩ := freeLoop_removed (c := u) [] (l := u.rules) rfl
  have hflush : ipFwFlush c = { freeLoop false u [] u.rules with reap := [] } := by
    unfold ipFwFlush freeChain
    rw [hurules, hu]; rfl
  rw [hflush]
  refine LinkOk.congr (hok.removed hrem (fun r hr rs' heq => ?_) ?_) rfl rfl
  · obtain ⟨rs, d, accept, hrules, -, -, hset, -⟩ := hok.linked.last
    have hlast : u.rules.getLast? = some d := by rw [hrules, List.getLast?_concat]
    rw [heq, List.getLast?_concat] at hlast
    refine (hall r hr).2 ?_
    rw [some.inj hlast, hset]; rfl
  · rw [hurules]; exact flush_none

/-- What a socket option keeps. -/
theorem step_linkOk (hQ : OnWords Q) (h : LinkOk Q c) (op : Op) (hadd : Adds Q op) :
    ∃ t a, step c op = some (t, a) ∧ LinkOk Q t := by
  cases op with
  | add rule mem => exact ⟨_, _, rfl, ipFwAdd_linkOk hQ h rule mem hadd⟩
  | del arg =>
    obtain ⟨t, e, ht, hok⟩ := delEntry_linkOk hQ h arg
    refine ⟨t, (e, 0), ?_, hok⟩
    show (delEntry c arg).map _ = _
    rw [ht]; rfl
  | flush => exact ⟨_, _, rfl, ipFwFlush_linkOk hQ h⟩
  | autoinc v => exact ⟨_, _, rfl, h.congr rfl rfl⟩

theorem initial_linkOk (hQ : ∀ accept, Q (defaultFw accept)) (accept : Bool) :
    LinkOk Q (initial accept) := by
  refine ⟨⟨nodup_singleton _, fun r hr => ?_, ⟨[], _, accept, rfl, rfl, rfl, rfl, rfl,
    fun r hr => (by cases hr)⟩⟩, fun r hr => ?_, fun r hr => ?_, cacheOk_of_none fun r hr => ?_⟩
  · rw [mem_singleton.1 hr]
    cases accept with
    | true => exact ⟨walk_accept, rfl⟩
    | false => exact ⟨walk_deny, rfl⟩
  · rw [mem_singleton.1 hr]; exact one_pos
  · rw [mem_singleton.1 hr]; exact hQ accept
  · rw [mem_singleton.1 hr]

theorem linked_of_run {accept mem : Bool} {s₀ : IpFwChain} (h₀ : ipfwInit accept mem = some s₀)
    (hrun : Runs step (fun _ _ => True) s₀ c) : LinkOk (fun _ => True) c := by
  have hQ : OnWords fun _ => True := fun _ _ _ _ _ => trivial
  have hinit : LinkOk (fun _ => True) s₀ := by
    cases mem with
    | false => cases accept <;> cases h₀
    | true =>
      rw [initial_eq] at h₀
      obtain rfl := some.inj h₀
      exact initial_linkOk (fun _ => trivial) accept
  refine hrun.invariant hinit fun u op u' a hu _ hstep => ?_
  have hadds : Adds (fun _ => True) op := by
    cases op <;> first | trivial | exact fun _ _ _ => trivial
  obtain ⟨t, a', ht, hok⟩ := step_linkOk hQ hu op hadds
  rw [ht] at hstep
  obtain rfl := congrArg Prod.fst (some.inj hstep)
  exact hok

end FreeBSD.IpFw2
