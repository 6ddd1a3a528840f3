import FreeBSD.Net.IpFw2
import FreeBSD.Lib.Runs

/-!
# The list of rules of the firewall

The rules are in the order of their numbers, and those of one number in the order in which they were
added, with the default rule behind them. Each rule that was allocated is in the list once or was
freed once.

This does not hold of a rule with the number of the default rule, which `add_rule` counts and does
not link, and of the rules that `IP_FW_FLUSH` removes, which nobody frees.

Results:
* `insertRule_order`, `insertRule_perm`: where a rule is put.
* `Removed`: what the loops that remove rules do.
* `chain_of_run`: the list in every state that is reached, and when the next operation keeps it so.
* `flush_leaks`: rules that are neither linked nor freed.
-/

namespace FreeBSD.IpFw2

open Lib List

variable {accept : Bool} {c t : IpFwChain} {rule d : Rule} {l before : List Rule}

/-- The order of the rules in the list. -/
def InOrder (a b : Rule) : Prop := a.num < b.num ∨ a.num = b.num ∧ a.addr < b.addr

/-- The size of the rules of a list. -/
def sizes (l : List Rule) : ℕ := (l.map fun r => RULESIZE r.fw).sum

theorem sizes_perm {l' : List Rule} (h : l.Perm l') : sizes l = sizes l' :=
  (h.map fun r : Rule => RULESIZE r.fw).sum_eq

/-- What holds of the list. -/
structure ChainOk (accept : Bool) (c : IpFwChain) : Prop where
  order : c.rules.Pairwise InOrder
  /-- The default rule is the last one. -/
  last : ∃ rules d, c.rules = rules ++ [d] ∧ d.addr = 0 ∧ d.fw = defaultFw accept ∧
    ∀ r ∈ rules, r.num < defaultRule
  count : c.static_count.toNat = c.rules.length
  len : c.static_len.toNat = sizes c.rules
  /-- Each rule is linked once or was freed once. -/
  owned : (c.rules.map Rule.addr ++ c.freed).Perm (List.range c.nalloc)

/-! ## Adding -/

theorem mem_insertRule {r : Rule} (h : r ∈ insertRule rule l) : r = rule ∨ r ∈ l := by
  induction l with
  | nil => cases h
  | cons f l ih =>
    rw [insertRule] at h
    split at h
    · exact mem_cons.1 h
    · rcases mem_cons.1 h with rfl | h
      · exact .inr mem_cons_self
      · exact (ih h).imp_right (mem_cons_of_mem f)

/-- A rule that is newer than all others is put behind those of its number. -/
theorem insertRule_order (h : l.Pairwise InOrder) (haddr : ∀ f ∈ l, f.addr < rule.addr) :
    (insertRule rule l).Pairwise InOrder := by
  induction l with
  | nil => exact List.Pairwise.nil
  | cons f l ih =>
    obtain ⟨hf, hl⟩ := pairwise_cons.1 h
    rw [insertRule]
    split
    · rename_i hlt
      refine pairwise_cons.2 ⟨fun g hg => .inl ?_, h⟩
      rcases mem_cons.1 hg with rfl | hg
      · exact hlt
      · rcases hf g hg with hfg | hfg
        · omega
        · omega
    · rename_i hge
      refine pairwise_cons.2 ⟨fun g hg => ?_,
        ih hl fun g hg => haddr g (mem_cons_of_mem f hg)⟩
      rcases mem_insertRule hg with rfl | hg
      · rcases lt_or_ge f.num g.num with hlt | hle
        · exact .inl hlt
        · exact .inr ⟨by omega, haddr f mem_cons_self⟩
      · exact hf g hg

/-- It is linked if there is a rule with a larger number. -/
theorem insertRule_perm (rule : Rule) (h : ∃ f ∈ l, rule.num < f.num) :
    (insertRule rule l).Perm (rule :: l) := by
  induction l with
  | nil =>
    obtain ⟨f, hf, -⟩ := h
    cases hf
  | cons f l ih =>
    rw [insertRule]
    split
    · exact List.Perm.refl _
    · rename_i hge
      obtain ⟨g, hg, hlt⟩ := h
      rcases mem_cons.1 hg with rfl | hg
      · exact absurd hlt hge
      · exact ((ih ⟨g, hg, hlt⟩).cons f).trans (List.Perm.swap rule f l)

/-- Otherwise it is not. -/
theorem insertRule_eq_self (h : ∀ f ∈ l, f.num ≤ rule.num) : insertRule rule l = l := by
  induction l with
  | nil => rfl
  | cons f l ih =>
    have hf := h f mem_cons_self
    rw [insertRule, if_neg (by omega), ih fun g hg => h g (mem_cons_of_mem f hg)]

/-- The last rule stays the last one. -/
theorem insertRule_append (h : rule.num < d.num) :
    ∃ l', insertRule rule (l ++ [d]) = l' ++ [d] ∧ ∀ r ∈ l', r = rule ∨ r ∈ l := by
  induction l with
  | nil =>
    refine ⟨[rule], ?_, fun r hr => .inl (mem_singleton.1 hr)⟩
    rw [nil_append, insertRule, if_pos h]; rfl
  | cons f l ih =>
    obtain ⟨l', hl', hmem⟩ := ih
    rw [cons_append, insertRule]
    split
    · exact ⟨rule :: f :: l, rfl, fun r hr => mem_cons.1 hr⟩
    · refine ⟨f :: l', by rw [hl', cons_append], fun r hr => ?_⟩
      rcases mem_cons.1 hr with rfl | hr
      · exact .inr mem_cons_self
      · exact (hmem r hr).imp_right (mem_cons_of_mem f)

/-! ## Rules that are changed where they are -/

/-- A change that leaves the address, the number and the size. -/
structure Keeps (f : Rule → Rule) : Prop where
  addr : ∀ r, (f r).addr = r.addr
  rulenum : ∀ r, (f r).fw.rulenum = r.fw.rulenum
  cmd_len : ∀ r, (f r).fw.cmd_len = r.fw.cmd_len
  default : ∀ r, r.num = defaultRule → (f r).fw = r.fw

variable {f : Rule → Rule} {k : ℕ} {rules : List Rule}

theorem Keeps.num (hf : Keeps f) (r : Rule) : (f r).num = r.num := by
  unfold Rule.num
  rw [hf.rulenum]

theorem Keeps.sizes (hf : Keeps f) (l : List Rule) : sizes (l.map f) = IpFw2.sizes l := by
  unfold IpFw2.sizes RULESIZE
  rw [map_map]
  congr 1
  refine map_congr_left fun r _ => ?_
  show 36 + (f r).fw.cmd_len.toNat * 4 = _
  rw [hf.cmd_len]

theorem Keeps.addrs (hf : Keeps f) (l : List Rule) : (l.map f).map Rule.addr = l.map Rule.addr := by
  rw [map_map]; exact map_congr_left fun r _ => hf.addr r

theorem Keeps.order (hf : Keeps f) (h : l.Pairwise InOrder) : (l.map f).Pairwise InOrder := by
  rw [pairwise_map]
  refine h.imp fun {a b} hab => ?_
  unfold InOrder
  rw [hf.num, hf.num, hf.addr, hf.addr]; exact hab

theorem default_num (h : d.fw = defaultFw accept) : d.num = defaultRule := by
  unfold Rule.num
  rw [h]; rfl

theorem ChainOk.map (h : ChainOk accept c) (hf : Keeps f) :
    ChainOk accept { c with rules := c.rules.map f } := by
  refine ⟨hf.order h.order, ?_, ?_, ?_, ?_⟩
  · obtain ⟨rules, d, hrules, haddr, hfw, hlt⟩ := h.last
    refine ⟨rules.map f, f d, ?_, (hf.addr d).trans haddr,
      (hf.default d (default_num hfw)).trans hfw, fun r hr => ?_⟩
    · show c.rules.map f = _
      rw [hrules, map_append]; rfl
    · obtain ⟨r', hr', rfl⟩ := mem_map.1 hr
      rw [hf.num]; exact hlt r' hr'
  · show c.static_count.toNat = (c.rules.map f).length
    rw [length_map, h.count]
  · show c.static_len.toNat = sizes (c.rules.map f)
    rw [hf.sizes, h.len]
  · show ((c.rules.map f).map Rule.addr ++ c.freed).Perm (List.range c.nalloc)
    rw [hf.addrs]; exact h.owned

theorem flush_keeps : Keeps fun rule => { rule with next_rule := none } :=
  ⟨fun _ => rfl, fun _ => rfl, fun _ => rfl, fun _ _ => rfl⟩

theorem ChainOk.flushed (h : ChainOk accept c) :
    ChainOk accept { c with rules := flushRulePtrs c.rules } := h.map flush_keeps

/-! ## Removing -/

/-- The rules `removed`, in the order in which they were removed, have gone from the list to the
    list of the rules to be freed. -/
structure Removed (c t : IpFwChain) (removed : List Rule) : Prop where
  sublist : t.rules.Sublist c.rules
  perm : c.rules.Perm (removed ++ t.rules)
  reap : t.reap = removed.reverse ++ c.reap
  count : t.static_count = c.static_count - BitVec.ofNat 32 removed.length
  len : t.static_len = c.static_len - BitVec.ofNat 32 (sizes removed)
  nalloc : t.nalloc = c.nalloc
  freed : t.freed = c.freed

theorem word_sub_sub (a b c : Word) : a - b - c = a - (b + c) := by
  bv_omega

theorem Removed.refl (c : IpFwChain) : Removed c c [] :=
  ⟨List.Sublist.refl _, List.Perm.refl _, rfl, (BitVec.sub_zero _).symm, (BitVec.sub_zero _).symm,
    rfl, rfl⟩

/-- One rule, and then the others. -/
theorem Removed.cons {n removed : List Rule} (hrules : c.rules = before ++ rule :: n)
    (h : Removed (removeRule c before rule n) t removed) : Removed c t (rule :: removed) := by
  refine ⟨h.sublist.trans ?_, ?_, ?_, ?_, ?_, h.nalloc, h.freed⟩
  · rw [hrules]; exact (sublist_cons_self rule n).append_left before
  · rw [hrules]; exact perm_middle.trans (h.perm.cons rule)
  · rw [h.reap, reverse_cons, append_assoc]; rfl
  · rw [h.count, length_cons, add_comm, BitVec.ofNat_add, ← word_sub_sub]; rfl
  · have hsizes : sizes (rule :: removed) = RULESIZE rule.fw + sizes removed := rfl
    rw [h.len, hsizes, BitVec.ofNat_add, ← word_sub_sub]; rfl

/-- What the loop of `free_chain` removes. -/
theorem freeLoop_removed (before : List Rule) (hrules : c.rules = before ++ l) :
    ∃ removed, Removed c (freeLoop false c before l) removed ∧
      (∀ r ∈ removed, r ∈ l ∧ r.fw.set.toNat ≠ resvdSet) ∧
        ((∀ r ∈ l, r.fw.set.toNat = resvdSet) ∨ removed ≠ []) := by
  induction l generalizing c before with
  | nil => exact ⟨[], Removed.refl c, fun r hr => (by cases hr), .inl fun r hr => (by cases hr)⟩
  | cons rule n ih =>
    rw [freeLoop]
    split
    · rename_i hset
      have hset : rule.fw.set.toNat ≠ resvdSet := hset.resolve_left (by decide)
      obtain ⟨removed, hrem, hall, -⟩ := ih (c := removeRule c before rule n) _ rfl
      refine ⟨rule :: removed, hrem.cons hrules, fun r hr => ?_, .inr (cons_ne_nil _ _)⟩
      rcases mem_cons.1 hr with rfl | hr
      · exact ⟨mem_cons_self, hset⟩
      · exact ⟨mem_cons_of_mem rule (hall r hr).1, (hall r hr).2⟩
    · rename_i hset
      push Not at hset
      obtain ⟨removed, hrem, hall, hsome⟩ := ih (c := c) (before ++ [rule])
        (by rw [hrules, append_assoc]; rfl)
      refine ⟨removed, hrem, fun r hr => ?_, hsome.imp_left fun hkeep r hr => ?_⟩
      · exact ⟨mem_cons_of_mem rule (hall r hr).1, (hall r hr).2⟩
      · rcases mem_cons.1 hr with rfl | hr
        · exact hset.2
        · exact hkeep r hr

/-- A search ends at a rule with a number that is not smaller. -/
theorem findNumber_spec (before : List Rule) (hex : ∃ r ∈ l, k ≤ r.num) :
    ∃ before' rule n, findNumber k before l = some (before', rule :: n) ∧
      before ++ l = before' ++ rule :: n ∧ ∀ r ∈ before', r ∈ before ∨ r.num < k := by
  induction l generalizing before with
  | nil =>
    obtain ⟨r, hr, -⟩ := hex
    cases hr
  | cons f l ih =>
    rw [findNumber]
    split
    · rename_i hlt
      obtain ⟨r, hr, hle⟩ := hex
      have hr' : r ∈ l := by
        rcases mem_cons.1 hr with rfl | hr
        · omega
        · exact hr
      obtain ⟨before', rule, n, hfind, happ, hsmall⟩ := ih (before ++ [f]) ⟨r, hr', hle⟩
      refine ⟨before', rule, n, hfind, ?_, fun g hg => ?_⟩
      · rw [← happ, append_assoc]; rfl
      · rcases hsmall g hg with hg | hg
        · rcases mem_append.1 hg with hg | hg
          · exact .inl hg
          · rw [mem_singleton.1 hg]; exact .inr hlt
        · exact .inr hg
    · exact ⟨before, f, l, rfl, rfl, fun g hg => .inl hg⟩

/-- The rules of a number. -/
theorem deleteNumber_removed (hrules : c.rules = before ++ l) (hex : ∃ r ∈ l, k ≠ r.num) :
    ∃ t removed, deleteNumber k c before l = some t ∧ Removed c t removed ∧
      ∀ r ∈ removed, r.num = k := by
  induction l generalizing c with
  | nil =>
    obtain ⟨r, hr, -⟩ := hex
    cases hr
  | cons rule n ih =>
    rw [deleteNumber]
    split
    · rename_i hnum
      obtain ⟨r, hr, hne⟩ := hex
      have hr' : r ∈ n := by
        rcases mem_cons.1 hr with rfl | hr
        · exact absurd hnum.symm hne
        · exact hr
      obtain ⟨t, removed, ht, hrem, hall⟩ := ih (c := removeRule c before rule n) rfl ⟨r, hr', hne⟩
      refine ⟨t, rule :: removed, ht, hrem.cons hrules, fun r hr => ?_⟩
      rcases mem_cons.1 hr with rfl | hr
      · exact hnum
      · exact hall r hr
    · exact ⟨c, [], rfl, Removed.refl c, fun r hr => (by cases hr)⟩

/-- The rules of a set. -/
theorem deleteSet_removed (before : List Rule) (hrules : c.rules = before ++ l)
    (hex : ∃ r ∈ l, r.num = defaultRule) :
    ∃ t removed, deleteSet k c before l = some t ∧ Removed c t removed ∧
      ∀ r ∈ removed, r.num < defaultRule := by
  induction l generalizing c before with
  | nil =>
    obtain ⟨r, hr, -⟩ := hex
    cases hr
  | cons rule n ih =>
    rw [deleteSet]
    split
    · rename_i hnum
      have hr' : ∃ r ∈ n, r.num = defaultRule := by
        obtain ⟨r, hr, heq⟩ := hex
        rcases mem_cons.1 hr with rfl | hr
        · omega
        · exact ⟨r, hr, heq⟩
      split
      · obtain ⟨t, removed, ht, hrem, hall⟩ := ih (c := removeRule c before rule n) _ rfl hr'
        refine ⟨t, rule :: removed, ht, hrem.cons hrules, fun r hr => ?_⟩
        rcases mem_cons.1 hr with rfl | hr
        · exact hnum
        · exact hall r hr
      · exact ih _ (by rw [hrules, append_assoc]; rfl) hr'
    · exact ⟨c, [], rfl, Removed.refl c, fun r hr => (by cases hr)⟩

/-- What a loop over the sets does to a rule. -/
def moveSet (new : IpFw → BitVec 8) (rule : Rule) : Rule :=
  if rule.num < defaultRule then { rule with fw := { rule.fw with set := new rule.fw } } else rule

theorem moveSet_keeps (new : IpFw → BitVec 8) : Keeps (moveSet new) := by
  refine ⟨fun r => ?_, fun r => ?_, fun r => ?_, fun r hr => ?_⟩
  · unfold moveSet
    split <;> rfl
  · unfold moveSet
    split <;> rfl
  · unfold moveSet
    split <;> rfl
  · unfold moveSet
    rw [if_neg (by omega)]

theorem moveSets_eq {new : IpFw → BitVec 8} (hlt : ∀ r ∈ l, r.num < defaultRule)
    (hd : d.num = defaultRule) : moveSets new (l ++ [d]) = some ((l ++ [d]).map (moveSet new)) := by
  induction l with
  | nil =>
    rw [nil_append, moveSets, if_neg (by omega)]
    show _ = some [moveSet new d]
    unfold moveSet
    rw [if_neg (by omega)]
  | cons f l ih =>
    have hf := hlt f mem_cons_self
    rw [cons_append, moveSets, if_pos hf, ih fun r hr => hlt r (mem_cons_of_mem f hr)]
    show some _ = some (moveSet new f :: _)
    congr 2
    unfold moveSet
    rw [if_pos hf]

/-- The rules that are removed are freed. -/
theorem ChainOk.reaped {removed : List Rule} (h : ChainOk accept c) (hreap : c.reap = [])
    (hrem : Removed c t removed) (hd : ∀ r ∈ removed, r.fw ≠ defaultFw accept) :
    ChainOk accept (reapRules { t with reap := [] } t.reap) := by
  obtain ⟨rules, d, hrules, haddr, hfw, hlt⟩ := h.last
  have hsub := hrem.sublist
  rw [hrules] at hsub
  have hdt : d ∈ t.rules := by
    have hmem : d ∈ removed ++ t.rules :=
      hrem.perm.subset (by rw [hrules]; exact mem_append_right _ mem_cons_self)
    exact (mem_append.1 hmem).resolve_left fun hr => hd d hr hfw
  have hcount := hrem.perm.length_eq
  have hsizes : sizes c.rules = sizes removed + sizes t.rules := by
    rw [sizes_perm hrem.perm]
    unfold sizes
    rw [map_append, sum_append]
  rw [length_append] at hcount
  refine ⟨h.order.sublist hrem.sublist, ?_, ?_, ?_, ?_⟩
  · obtain ⟨r₁, r₂, ht, h₁, h₂⟩ := sublist_append_iff.1 hsub
    refine ⟨r₁, d, ?_, haddr, hfw, fun r hr => hlt r (h₁.subset hr)⟩
    show t.rules = _
    rw [ht] at hdt ⊢
    rcases mem_append.1 hdt with hd₁ | hd₂
    · have := hlt d (h₁.subset hd₁)
      rw [default_num hfw] at this; exact absurd this (lt_irrefl _)
    · have hlen := h₂.length_le
      have hpos := length_pos_of_mem hd₂
      rw [length_singleton] at hlen
      rw [h₂.eq_of_length (by rw [length_singleton]; omega)]
  · show t.static_count.toNat = t.rules.length
    have hc := h.count
    have hb := c.static_count.isLt
    rw [hrem.count, BitVec.toNat_sub, BitVec.toNat_ofNat]; omega
  · show t.static_len.toNat = sizes t.rules
    have hl := h.len
    have hb := c.static_len.isLt
    rw [hrem.len, BitVec.toNat_sub, BitVec.toNat_ofNat]; omega
  · show (t.rules.map Rule.addr ++ (t.freed ++ t.reap.map Rule.addr)).Perm (List.range t.nalloc)
    rw [hrem.nalloc, hrem.freed, hrem.reap, hreap, append_nil]
    refine List.Perm.trans ?_ h.owned
    have hp : (removed.reverse.map Rule.addr ++ t.rules.map Rule.addr).Perm
        (c.rules.map Rule.addr) := by
      rw [← map_append]
      exact (((reverse_perm removed).append_right t.rules).trans hrem.perm.symm).map Rule.addr
    calc (t.rules.map Rule.addr ++ (c.freed ++ removed.reverse.map Rule.addr)).Perm
          (t.rules.map Rule.addr ++ (removed.reverse.map Rule.addr ++ c.freed)) :=
        perm_append_comm.append_left _
      _ = t.rules.map Rule.addr ++ removed.reverse.map Rule.addr ++ c.freed :=
        (append_assoc _ _ _).symm
      List.Perm _ (c.rules.map Rule.addr ++ c.freed) :=
        (perm_append_comm.trans hp).append_right _

/-! ## The operations -/

theorem clampStep_bounds (v : ℤ) : 1 ≤ clampStep v ∧ clampStep v ≤ 1000 := by
  unfold clampStep
  split
  · exact ⟨le_rfl, by norm_num⟩
  · split
    · exact ⟨by norm_num, le_rfl⟩
    · omega

/-- The largest number in front of the default rule is smaller than that of the default rule. -/
theorem highest_lt {k : BitVec 16} (hk : k.toNat < defaultRule)
    (hlt : ∀ r ∈ l, r.num < defaultRule) (hd : d.num = defaultRule) :
    (highest (l ++ [d]) k).toNat < defaultRule := by
  induction l generalizing k with
  | nil =>
    rw [nil_append, highest, if_pos hd]; exact hk
  | cons f l ih =>
    have hf := hlt f mem_cons_self
    rw [cons_append, highest, if_neg (by omega)]
    exact ih hf fun r hr => hlt r (mem_cons_of_mem f hr)

theorem ruleNumber_lt {k : BitVec 16} {step : ℤ} (hk : k.toNat ≠ defaultRule) (hstep : 1 ≤ step)
    (hlt : ∀ r ∈ l, r.num < defaultRule) (hd : d.num = defaultRule) :
    (ruleNumber (l ++ [d]) step k).toNat < defaultRule := by
  have hb := k.isLt
  unfold defaultRule at hk
  unfold ruleNumber
  split
  · rename_i hzero
    have hhigh := highest_lt (k := k) (by rw [hzero]; decide) hlt hd
    dsimp only
    split
    · rename_i hroom
      rw [BitVec.toNat_ofInt]
      unfold defaultRule at hroom ⊢; omega
    · exact hhigh
  · unfold defaultRule; omega

/-- A rule of the number of the default rule keeps that number. -/
theorem ruleNumber_default {k : BitVec 16} {step : ℤ} (hk : k.toNat = defaultRule) :
    ruleNumber rules step k = k := by
  unfold ruleNumber
  rw [if_neg]
  rintro rfl
  cases hk

theorem sizes_ge (l : List Rule) : 36 * l.length ≤ sizes l := by
  induction l with
  | nil => exact le_refl 0
  | cons f l ih =>
    have hcons : sizes (f :: l) = RULESIZE f.fw + sizes l := rfl
    have hsize : 36 ≤ RULESIZE f.fw := Nat.le_add_right 36 _
    rw [hcons, length_cons]; omega

theorem ChainOk.owned_length (h : ChainOk accept c) :
    c.rules.length + c.freed.length = c.nalloc := by
  have hlen := h.owned.length_eq
  rw [length_append, length_map, length_range] at hlen; exact hlen

theorem ChainOk.ne_nil (h : ChainOk accept c) : c.rules ≠ [] := by
  obtain ⟨rules, d, hrules, -⟩ := h.last
  rw [hrules]; exact append_ne_nil_of_right_ne_nil rules (cons_ne_nil d [])

theorem ChainOk.addr_lt (h : ChainOk accept c) {r : Rule} (hr : r ∈ c.rules) :
    r.addr < c.nalloc :=
  mem_range.1 (h.owned.subset (mem_append_left _ (mem_map_of_mem hr)))

/-- What `add_rule` makes of the list, with the links not yet flushed. -/
def added (c : IpFwChain) (fw : IpFw) : IpFwChain :=
  { c with
    rules := insertRule ⟨c.nalloc, fw, none⟩ c.rules
    static_count := c.static_count + 1
    static_len := c.static_len + BitVec.ofNat 32 (RULESIZE fw)
    nalloc := c.nalloc + 1 }

theorem ChainOk.autoinc (h : ChainOk accept c) (v : ℤ) :
    ChainOk accept { c with autoinc_step := v } := ⟨h.order, h.last, h.count, h.len, h.owned⟩

/-- A rule that is linked. -/
theorem ChainOk.linked (h : ChainOk accept c) {fw : IpFw} (hnum : fw.rulenum.toNat < defaultRule)
    (hsize : sizes c.rules + RULESIZE fw < 2 ^ 32) : ChainOk accept (added c fw) := by
  obtain ⟨rules, d, hrules, haddr, hfw, hlt⟩ := h.last
  have hperm : (insertRule ⟨c.nalloc, fw, none⟩ c.rules).Perm
    (⟨c.nalloc, fw, none⟩ :: c.rules) := by
    refine insertRule_perm _ ⟨d, by rw [hrules]; exact mem_append_right _ mem_cons_self,
      ?_⟩
    rw [default_num hfw]; exact hnum
  have hsizes : sizes (insertRule ⟨c.nalloc, fw, none⟩ c.rules) = RULESIZE fw + sizes c.rules :=
    sizes_perm hperm
  have hlength := hperm.length_eq
  have hge := sizes_ge c.rules
  rw [length_cons] at hlength
  refine ⟨insertRule_order h.order fun f hf => h.addr_lt hf, ?_, ?_, ?_, ?_⟩
  · obtain ⟨l', hl', hmem⟩ := insertRule_append (l := rules)
      (show (⟨c.nalloc, fw, none⟩ : Rule).num < d.num by rw [default_num hfw]; exact hnum)
    refine ⟨l', d, ?_, haddr, hfw, fun r hr => ?_⟩
    · show insertRule _ c.rules = _
      rw [hrules, hl']
    · rcases hmem r hr with rfl | hr
      · exact hnum
      · exact hlt r hr
  · show (c.static_count + 1).toNat = (insertRule _ c.rules).length
    have hc := h.count
    rw [hlength, BitVec.toNat_add, h.count]
    show (c.rules.length + 1) % 2 ^ 32 = _
    omega
  · show (c.static_len + BitVec.ofNat 32 (RULESIZE fw)).toNat = sizes (insertRule _ c.rules)
    rw [hsizes, BitVec.toNat_add, h.len, BitVec.toNat_ofNat]; omega
  · show ((insertRule _ c.rules).map Rule.addr ++ c.freed).Perm (List.range (c.nalloc + 1))
    rw [range_succ]
    calc ((insertRule _ c.rules).map Rule.addr ++ c.freed).Perm
          (c.nalloc :: (c.rules.map Rule.addr ++ c.freed)) :=
        (hperm.map Rule.addr).append_right c.freed
      List.Perm _ (c.nalloc :: List.range c.nalloc) := h.owned.cons c.nalloc
      List.Perm _ (List.range c.nalloc ++ [c.nalloc]) :=
        (perm_append_singleton c.nalloc (List.range c.nalloc)).symm

/-- A rule of the number of the default rule is not. -/
theorem ChainOk.not_added (h : ChainOk accept c) (fw : IpFw)
    (hnum : fw.rulenum.toNat = defaultRule) : (added c fw).rules = c.rules := by
  refine insertRule_eq_self fun f hf => ?_
  obtain ⟨rules, d, hrules, -, hfw, hlt⟩ := h.last
  rw [hrules] at hf
  show f.num ≤ fw.rulenum.toNat
  rw [hnum]
  rcases mem_append.1 hf with hf | hf
  · exact (hlt f hf).le
  · rw [mem_singleton.1 hf, default_num hfw]

/-- What `add_rule` does when there is memory. -/
theorem addRule_eq (hne : c.rules ≠ []) (input_rule : IpFw) :
    ∃ fw v, fw.rulenum = ruleNumber c.rules (clampStep c.autoinc_step) input_rule.rulenum ∧
      (fw.cmd = input_rule.cmd ∧ fw.cmd_len = input_rule.cmd_len ∧
        fw.act_ofs = input_rule.act_ofs) ∧
      addRule c input_rule true =
        ({ added c fw with rules := flushRulePtrs (added c fw).rules, autoinc_step := v }, none,
          fw.rulenum) := by
  refine ⟨{ input_rule with
    pcnt := 0, bcnt := 0, timestamp := 0
    rulenum := ruleNumber c.rules (clampStep c.autoinc_step) input_rule.rulenum },
    clampStep c.autoinc_step, rfl, ⟨rfl, rfl, rfl⟩, ?_⟩
  unfold addRule
  rw [if_neg fun h => hne h.1, if_pos rfl]
  dsimp only
  rw [if_neg hne]; rfl

/-- The rules and the chain after an addition. -/
theorem ChainOk.addRule_iff (h : ChainOk accept c) (input_rule : IpFw) :
    ChainOk accept (addRule c input_rule true).1 ↔
      input_rule.rulenum.toNat ≠ defaultRule ∧ sizes c.rules + RULESIZE input_rule < 2 ^ 32 := by
  obtain ⟨fw, v, hfw, ⟨-, hlen, -⟩, hadd⟩ := addRule_eq h.ne_nil input_rule
  have hsize : RULESIZE fw = RULESIZE input_rule := by
    unfold RULESIZE
    rw [hlen]
  obtain ⟨rules, d, hrules, -, hdfw, hlt⟩ := h.last
  rw [hadd, ← hsize]
  constructor
  · intro ht
    have hlen := ht.owned_length
    have hlen' := h.owned_length
    have hmap : (flushRulePtrs (added c fw).rules).length = (added c fw).rules.length :=
      length_map _
    have hnum : input_rule.rulenum.toNat ≠ defaultRule := by
      intro hnum
      have hsame := h.not_added fw (by rw [hfw, ruleNumber_default hnum, hnum])
      have hlen : (flushRulePtrs (added c fw).rules).length + c.freed.length = c.nalloc + 1 := hlen
      rw [hmap, hsame] at hlen; omega
    refine ⟨hnum, ?_⟩
    have hlt' : fw.rulenum.toNat < defaultRule := by
      rw [hfw, hrules]; exact ruleNumber_lt hnum (clampStep_bounds _).1 hlt (default_num hdfw)
    have hperm := insertRule_perm ⟨c.nalloc, fw, none⟩ (l := c.rules) ⟨d,
      by rw [hrules]; exact mem_append_right _ mem_cons_self,
      by rw [default_num hdfw]; exact hlt'⟩
    have hsizes : sizes (added c fw).rules = RULESIZE fw + sizes c.rules :=
      sizes_perm hperm
    have hl : (c.static_len + BitVec.ofNat 32 (RULESIZE fw)).toNat =
        sizes (flushRulePtrs (added c fw).rules) := ht.len
    have hb := (c.static_len + BitVec.ofNat 32 (RULESIZE fw)).isLt
    rw [hl, show sizes (flushRulePtrs (added c fw).rules) = _ from flush_keeps.sizes _,
      hsizes] at hb
    omega
  · rintro ⟨hnum, hroom⟩
    refine ((h.linked ?_ hroom).flushed).autoinc v
    rw [hfw, hrules]; exact ruleNumber_lt hnum (clampStep_bounds _).1 hlt (default_num hdfw)

/-- Without memory nothing is added. -/
theorem addRule_nomem (hne : c.rules ≠ []) (input_rule : IpFw) :
    (addRule c input_rule false).1 = c := by
  unfold addRule
  rw [if_neg fun h => hne h.1, if_neg Bool.false_ne_true]

/-! ## Deleting and flushing -/

/-- What the switch of `del_entry` does: nothing, it removes rules that are not the default rule, or
    moves rules to other sets. -/
inductive Switched (c t : IpFwChain) : Bool → Prop
  | none : t = c → Switched c t false
  | removed {removed : List Rule} :
      Removed { c with rules := flushRulePtrs c.rules } t removed →
        (∀ r ∈ removed, r.num < defaultRule) → Switched c t true
  | moved {new : IpFw → BitVec 8} :
      t = { c with rules := c.rules.map (moveSet new) } → Switched c t true

theorem delSwitch_spec {cmd rulenum : ℕ} (new_set : BitVec 8) (hrules : c.rules = rules ++ [d])
    (hd : d.num = defaultRule)
    (hlt : ∀ r ∈ rules, r.num < defaultRule) (hnum : cmd = 0 → rulenum < defaultRule) :
    ∃ t b, delSwitch c cmd rulenum new_set = some (t, b) ∧ Switched c t b := by
  have hmem : d ∈ c.rules := by rw [hrules]; exact mem_append_right _ mem_cons_self
  have hmemf : ({ d with next_rule := none } : Rule) ∈ flushRulePtrs c.rules :=
    mem_map_of_mem hmem
  have hmove : ∀ new, ∃ t, (moveSets new c.rules).map
    (fun rules => ({ c with rules := rules }, true))
      = some (t, true) ∧ Switched c t true := by
    intro new
    refine ⟨{ c with rules := c.rules.map (moveSet new) }, ?_, Switched.moved rfl⟩
    rw [hrules, moveSets_eq hlt hd]; rfl
  unfold delSwitch
  split
  · obtain ⟨before, rule, n, hfind, happ, hsmall⟩ := findNumber_spec (k := rulenum) []
      ⟨d, hmem, by rw [hd]; exact (hnum rfl).le⟩
    rw [hfind]
    dsimp only
    split
    · exact ⟨c, false, rfl, Switched.none rfl⟩
    · have hdn : d ∈ rule :: n := by
        have hmem' : d ∈ before ++ rule :: n := happ ▸ hmem
        refine (mem_append.1 hmem').resolve_left fun hb => ?_
        rcases hsmall d hb with hb | hb
        · cases hb
        · have := hnum rfl; omega
      have hlist : flushRulePtrs c.rules = flushRulePtrs before ++ flushRulePtrs (rule :: n) := by
        rw [← nil_append c.rules, happ]; exact map_append
      have hne : rulenum ≠ d.num := by
        have := hnum rfl; omega
      obtain ⟨t, removed, ht, hrem, hall⟩ := deleteNumber_removed (k := rulenum)
        (c := { c with rules := flushRulePtrs c.rules }) (l := flushRulePtrs (rule :: n)) hlist
        ⟨_, mem_map_of_mem hdn, hne⟩
      refine ⟨t, true, by rw [ht]; rfl, Switched.removed hrem fun r hr => ?_⟩
      rw [hall r hr]; exact hnum rfl
  · obtain ⟨t, removed, ht, hrem, hall⟩ := deleteSet_removed (k := rulenum)
      (c := { c with rules := flushRulePtrs c.rules }) [] (l := flushRulePtrs c.rules) rfl
      ⟨_, hmemf, hd⟩
    exact ⟨t, true, by rw [ht]; rfl, Switched.removed hrem hall⟩
  · obtain ⟨t, ht, hok⟩ := hmove fun fw => if fw.rulenum.toNat = rulenum then new_set else fw.set
    exact ⟨t, true, ht, hok⟩
  · obtain ⟨t, ht, hok⟩ := hmove fun fw => if fw.set.toNat = rulenum then new_set else fw.set
    exact ⟨t, true, ht, hok⟩
  · obtain ⟨t, ht, hok⟩ := hmove fun fw => if fw.set.toNat = rulenum then new_set
      else if fw.set = new_set then BitVec.ofNat 8 rulenum else fw.set
    exact ⟨t, true, ht, hok⟩

/-- What `del_entry` does. -/
theorem delEntry_spec (hrules : c.rules = rules ++ [d]) (hd : d.num = defaultRule)
    (hlt : ∀ r ∈ rules, r.num < defaultRule) (arg : Word) :
    (∃ e, delEntry c arg = some (c, some e)) ∨ ∃ t b, Switched { c with reap := [] } t b ∧
      ∃ e, delEntry c arg = some (if b then reapRules { t with reap := [] } t.reap else t, e) := by
  unfold delEntry
  dsimp only
  by_cases hset : 4 < arg.toNat / 2 ^ 24 ∨ resvdSet < (BitVec.ofNat 8 (arg.toNat / 2 ^ 16)).toNat
  · exact .inl ⟨.EINVAL, if_pos hset⟩
  rw [if_neg hset]
  by_cases hbound : if arg.toNat / 2 ^ 24 = 0 ∨ arg.toNat / 2 ^ 24 = 2
      then defaultRule ≤ arg.toNat % 2 ^ 16 else resvdSet < arg.toNat % 2 ^ 16
  · exact .inl ⟨.EINVAL, if_pos hbound⟩
  rw [if_neg hbound]
  have hnum : arg.toNat / 2 ^ 24 = 0 → arg.toNat % 2 ^ 16 < defaultRule := fun hz => by
    rw [if_pos (.inl hz)] at hbound; omega
  obtain ⟨t, b, ht, hswitch⟩ := delSwitch_spec (c := { c with reap := [] })
    (BitVec.ofNat 8 (arg.toNat / 2 ^ 16)) hrules hd hlt hnum
  rw [ht]
  cases b with
  | false => exact .inr ⟨t, false, hswitch, some .EINVAL, rfl⟩
  | true => exact .inr ⟨t, true, hswitch, none, rfl⟩

theorem delEntry_ok (h : ChainOk accept c) (arg : Word) :
    ∃ t e, delEntry c arg = some (t, e) ∧ ChainOk accept t := by
  obtain ⟨rules, d, hrules, haddr, hfw, hlt⟩ := h.last
  have h' : ChainOk accept { c with reap := [] } := ⟨h.order, h.last, h.count, h.len, h.owned⟩
  rcases delEntry_spec hrules (default_num hfw) hlt arg with ⟨e, he⟩ | ⟨t, b, hswitch, e, he⟩
  · exact ⟨c, some e, he, h⟩
  refine ⟨_, e, he, ?_⟩
  cases hswitch with
  | none heq =>
    rw [heq]; exact h'
  | removed hrem hall =>
    refine h'.flushed.reaped rfl hrem fun r hr heq => ?_
    have hr := hall r hr
    rw [default_num heq] at hr; exact absurd hr (lt_irrefl _)
  | moved heq =>
    rw [heq]; exact (h'.map (moveSet_keeps _)).reaped rfl (Removed.refl _) fun r hr => (by cases hr)

/-- A flush keeps the list right only if there is nothing to remove. -/
theorem ipFwFlush_iff (h : ChainOk accept c) :
    ChainOk accept (ipFwFlush c) ↔ ∀ r ∈ c.rules, r.fw.set.toNat = resvdSet := by
  obtain ⟨u, hu⟩ : ∃ u, u = ({ c with reap := [], rules := flushRulePtrs c.rules } : IpFwChain) :=
    ⟨_, rfl⟩
  have hok : ChainOk accept u := by
    rw [hu]
    exact ⟨h.flushed.order, h.flushed.last, h.flushed.count, h.flushed.len, h.flushed.owned⟩
  have hurules : u.rules = flushRulePtrs c.rules := by rw [hu]
  have hureap : u.reap = [] := by rw [hu]
  obtain ⟨removed, hrem, hall, hsome⟩ := freeLoop_removed (c := u) [] (l := u.rules) rfl
  have hflush : ipFwFlush c = { freeLoop false u [] u.rules with reap := [] } := by
    unfold ipFwFlush freeChain
    rw [hurules, hu]; rfl
  rw [hflush]
  constructor
  · intro ht
    have hlen := ht.owned_length
    have hlen' := hok.owned_length
    have hperm := hrem.perm.length_eq
    have hlen : (freeLoop false u [] u.rules).rules.length +
        (freeLoop false u [] u.rules).freed.length = (freeLoop false u [] u.rules).nalloc := hlen
    rw [hrem.freed, hrem.nalloc] at hlen
    rw [length_append] at hperm
    have hnil : removed = [] := eq_nil_of_length_eq_zero (by omega)
    intro r hr
    have hkeep := hsome.resolve_right fun hne => hne hnil
    exact hkeep { r with next_rule := none } (hurules ▸ mem_map_of_mem hr)
  · intro hset
    have hnil : removed = [] := by
      refine eq_nil_iff_forall_not_mem.2 fun r hr => ?_
      obtain ⟨hmem, hne⟩ := hall r hr
      rw [hurules] at hmem
      obtain ⟨r', hr', rfl⟩ := mem_map.1 hmem
      exact hne (hset r' hr')
    rw [hnil] at hrem
    have hreaped := hok.reaped hureap hrem fun r hr => (by cases hr)
    have hnothing : (freeLoop false u [] u.rules).reap = [] := by rw [hrem.reap, hureap]; rfl
    have heq : reapRules { freeLoop false u [] u.rules with reap := [] }
        (freeLoop false u [] u.rules).reap = { freeLoop false u [] u.rules with reap := [] } := by
      unfold reapRules
      rw [hnothing, map_nil, append_nil]
    rw [heq] at hreaped; exact hreaped

/-! ## Runs -/

/-- A socket option, or a new value of the variable `autoinc_step`. -/
inductive Op
  | add (rule : IpFw) (mem : Bool)
  | del (arg : Word)
  | flush
  | autoinc (v : ℤ)

/-- A step, its error and the number of the rule that was added. -/
def step (c : IpFwChain) : Op → Option (IpFwChain × (Option Errno × BitVec 16))
  | .add rule mem => some (ipFwAdd c rule mem)
  | .del arg => (delEntry c arg).map fun r => (r.1, r.2, 0)
  | .flush => some (ipFwFlush c, none, 0)
  | .autoinc v => some ({ c with autoinc_step := v }, none, 0)

/-- No rule that is accepted has the number of the default rule, all rules together have less than
    `2^32` bytes, and no rule is there to be removed by a flush. -/
def Fits (c : IpFwChain) : Op → Prop
  | .add rule mem => ∀ r, checkIpfwStruct (copyin rule) = .ok r →
      mem = true → r.rulenum.toNat ≠ defaultRule ∧ sizes c.rules + RULESIZE r < 2 ^ 32
  | .flush => ∀ r ∈ c.rules, r.fw.set.toNat = resvdSet
  | .del _ | .autoinc _ => True

/-- An operation keeps the list right exactly if it fits. -/
theorem step_iff (h : ChainOk accept c) (op : Op) :
    ∃ t a, step c op = some (t, a) ∧ (ChainOk accept t ↔ Fits c op) := by
  cases op with
  | add rule mem =>
    refine ⟨_, _, rfl, ?_⟩
    show ChainOk accept (ipFwAdd c rule mem).1 ↔ ∀ r, _
    cases hcheck : checkIpfwStruct (copyin rule) with
    | error e =>
      refine ⟨fun _ r hr => (by cases hr), fun _ => ?_⟩
      unfold ipFwAdd
      rw [hcheck]; exact h
    | ok r =>
      have hadd : ipFwAdd c rule mem = addRule c r mem := by
        unfold ipFwAdd
        rw [hcheck]
      rw [hadd]
      cases mem with
      | true =>
        refine (h.addRule_iff r).trans ⟨fun hr r' hr' _ => ?_, fun hall => hall r rfl rfl⟩
        obtain rfl := Except.ok.inj hr'
        exact hr
      | false =>
        refine ⟨fun _ r' _ hm => (by cases hm), fun _ => ?_⟩
        rw [addRule_nomem h.ne_nil]; exact h
  | del arg =>
    obtain ⟨t, e, ht, hok⟩ := delEntry_ok h arg
    refine ⟨t, (e, 0), ?_, fun _ => trivial, fun _ => hok⟩
    show (delEntry c arg).map _ = _
    rw [ht]; rfl
  | flush => exact ⟨_, _, rfl, ipFwFlush_iff h⟩
  | autoinc v => exact ⟨_, _, rfl, fun _ => trivial, fun _ => h.autoinc v⟩

theorem ipfwInit_ok {mem : Bool} (h : ipfwInit accept mem = some c) : ChainOk accept c := by
  cases mem with
  | false => cases accept <;> cases h
  | true =>
    have hc : c = ⟨[⟨0, defaultFw accept, none⟩], [], 1, 40, 100, 1, []⟩ := by
      cases accept <;> exact (Option.some.inj h).symm
    subst hc
    refine ⟨pairwise_singleton _ _, ⟨[], _, rfl, rfl, rfl, fun r hr => (by cases hr)⟩, rfl, ?_,
      List.Perm.refl _⟩
    cases accept <;> rfl

/-- The list in every state that is reached, and when the next operation keeps it so. -/
theorem chain_of_run {mem : Bool} {s₀ : IpFwChain} (h₀ : ipfwInit accept mem = some s₀)
    (hrun : Runs step Fits s₀ c) :
    ChainOk accept c ∧ ∀ op, ∃ t a, step c op = some (t, a) ∧ (ChainOk accept t ↔ Fits c op) := by
  have h : ChainOk accept c := by
    refine hrun.invariant (ipfwInit_ok h₀) fun u op u' a hu hfits hstep => ?_
    obtain ⟨t, a', ht, hiff⟩ := step_iff hu op
    rw [ht] at hstep
    obtain rfl := congrArg Prod.fst (Option.some.inj hstep)
    exact hiff.2 hfits
  exact ⟨h, step_iff h⟩

/-- A rule `deny` of the given number. -/
def denyFw (rulenum : BitVec 16) : IpFw :=
  { act_ofs := 0, cmd_len := 1, rulenum := rulenum, set := 0, pcnt := 0, bcnt := 0, timestamp := 0
    cmd := [301#32] }

theorem deny_accepted (rulenum : BitVec 16) :
    checkIpfwStruct (denyFw rulenum) = .ok (denyFw rulenum) := by
  have hcheck : checkLoop false [301#32] = .ok [301#32] := by
    rw [checkLoop]
    have hlen : fLen 301#32 = 1 := by decide
    have hop : opcodeOf 301#32 = some .O_DENY := by decide
    have hok : sizeOk 301#32 .O_DENY = true := by decide
    simp only [hlen, hop, hok, length_nil, dite_true]
    simp [checkLoop, Opcode.isAction, resetLog]
    rfl
  unfold checkIpfwStruct
  show (checkLoop false [301#32]).map _ = _
  rw [hcheck]; rfl

/-- The chain after `ipfw_init`. -/
def initial (accept : Bool) : IpFwChain :=
  ⟨[⟨0, defaultFw accept, none⟩], [], 1, 40, 100, 1, []⟩

theorem initial_eq (accept : Bool) : ipfwInit accept true = some (initial accept) := by
  cases accept <;> rfl

theorem add_deny (c : IpFwChain) (rulenum : BitVec 16) :
    step c (.add (denyFw rulenum) true) = some (addRule c (denyFw rulenum) true) := by
  show some (ipFwAdd c (denyFw rulenum) true) = _
  unfold ipFwAdd
  rw [show copyin (denyFw rulenum) = denyFw rulenum from rfl, deny_accepted]

/-- A rule of number 100 is added. -/
theorem chain_of_run_add : ∃ c, Runs step Fits (initial true) c ∧ ChainOk true c ∧
    c.rules.map Rule.num = [100, 65535] := by
  have hfits : Fits (initial true) (.add (denyFw 100) true) := by
    intro r hr _
    rw [show copyin (denyFw 100) = denyFw 100 from rfl, deny_accepted] at hr
    obtain rfl := Except.ok.inj hr
    exact ⟨by decide, by decide⟩
  have hrun : Runs step Fits (initial true) (addRule (initial true) (denyFw 100) true).1 :=
    Runs.refl.tail hfits (add_deny (initial true) 100)
  exact ⟨_, hrun, (chain_of_run (initial_eq true) hrun).1, by decide⟩

/-- A rule is added and flushed: it is neither in the list nor freed. -/
theorem flush_leaks : ∃ s₀ c, ipfwInit true true = some s₀ ∧ Runs step (fun _ _ => True) s₀ c ∧
    1 < c.nalloc ∧ 1 ∉ c.rules.map Rule.addr ∧ 1 ∉ c.freed := by
  refine ⟨initial true, ipFwFlush (addRule (initial true) (denyFw 100) true).1, initial_eq true, ?_,
    by decide, by decide, by decide⟩
  have hadd : Runs step (fun _ _ => True) (initial true)
      (addRule (initial true) (denyFw 100) true).1 :=
    Runs.refl.tail trivial (add_deny (initial true) 100)
  exact hadd.tail (show True from trivial) (show step _ .flush = _ from rfl)

end FreeBSD.IpFw2
