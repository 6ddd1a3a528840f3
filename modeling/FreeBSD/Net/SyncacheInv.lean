import FreeBSD.Net.TcpSyncache
import FreeBSD.Lib.Filed

/-!
# The SYN cache: what holds between events

The entries of the cache are filed twice, by bucket and by timer queue (`Lists`). The callout of a
queue is active exactly while the queue has entries, and is due no later than the first of them
(`Armed`); while an entry goes from one queue to another, only one direction holds (`Covered`).
-/

namespace FreeBSD.TcpSyncache

open Lib

variable {s t : State} {live : List Sid} {sc : Sid} {i : ℕ}

/-! ## Endpoints -/

/-- Two connections have the same endpoints. -/
def SameEndpoints (a b : InConninfo) : Prop :=
  a.isipv6 = b.isipv6 ∧ if a.isipv6 then endpts6Eq a b else endptsEq a b

instance (a b : InConninfo) : Decidable (SameEndpoints a b) := by
  unfold SameEndpoints
  infer_instance

theorem endptsEq_iff {a b : InConninfo} : endptsEq a b = true ↔
    a.fport = b.fport ∧ a.lport = b.lport ∧ a.faddr.w3 = b.faddr.w3 ∧ a.laddr.w3 = b.laddr.w3 := by
  simp only [endptsEq, Bool.and_eq_true, beq_iff_eq, and_assoc]

theorem endpts6Eq_iff {a b : InConninfo} : endpts6Eq a b = true ↔
    a.fport = b.fport ∧ a.lport = b.lport ∧ a.faddr = b.faddr ∧ a.laddr = b.laddr := by
  simp only [endpts6Eq, Bool.and_eq_true, beq_iff_eq, and_assoc]

/-- Endpoints that are the same have the same bucket. -/
theorem hash_eq_of_same (c : Conf) {a b : InConninfo} (h : SameEndpoints a b) :
    c.hash a = c.hash b := by
  obtain ⟨h6, hends⟩ := h
  unfold Conf.hash
  by_cases ha : a.isipv6
  · rw [if_pos ha] at hends
    obtain ⟨hf, hl, hfa, -⟩ := endpts6Eq_iff.1 hends
    rw [if_pos ha, if_pos (h6 ▸ ha), hf, hl, hfa]
  · rw [if_neg ha] at hends
    obtain ⟨hf, hl, hfa, -⟩ := endptsEq_iff.1 hends
    rw [if_neg ha, if_neg (h6 ▸ ha), hf, hl, hfa]

theorem isipv6_fill (x inc : InConninfo) : (x.fill inc).isipv6 = inc.isipv6 := by
  unfold InConninfo.fill
  split
  · rfl
  · rfl

/-- An entry has the endpoints that it is filled with. -/
theorem hash_fill (c : Conf) (x inc : InConninfo) : c.hash (x.fill inc) = c.hash inc := by
  unfold InConninfo.fill Conf.hash
  by_cases h6 : inc.isipv6
  · simp only [h6, if_true]
  · simp only [h6, if_false, Bool.false_eq_true]

theorem same_fill_iff {x inc b : InConninfo} :
    SameEndpoints (x.fill inc) b ↔ SameEndpoints inc b := by
  unfold SameEndpoints
  rw [isipv6_fill]
  by_cases h6 : inc.isipv6
  · rw [show x.fill inc = inc from if_pos h6]
  · rw [if_neg h6, if_neg h6, endptsEq_iff, endptsEq_iff]
    unfold InConninfo.fill
    rw [if_neg h6]

theorem SameEndpoints.symm {a b : InConninfo} (h : SameEndpoints a b) : SameEndpoints b a := by
  obtain ⟨h6, hends⟩ := h
  refine ⟨h6.symm, ?_⟩
  rw [← h6]
  split at hends
  · rename_i ha
    rw [if_pos ha, endpts6Eq_iff]
    obtain ⟨hf, hl, hfa, hla⟩ := endpts6Eq_iff.1 hends
    exact ⟨hf.symm, hl.symm, hfa.symm, hla.symm⟩
  · rename_i ha
    rw [if_neg ha, endptsEq_iff]
    obtain ⟨hf, hl, hfa, hla⟩ := endptsEq_iff.1 hends
    exact ⟨hf.symm, hl.symm, hfa.symm, hla.symm⟩

/-! ## The invariants -/

/-- `live` are the entries of the cache: each is in its bucket and on the queue of its slot. -/
structure Lists (s : State) (live : List Sid) : Prop where
  nodup : live.Nodup
  buckets : Filed (fun sc => s.conf.hash (s.entry sc).sc_inc)
    (fun b => (s.hashbase b).sch_bucket) live
  queues : Filed (fun sc => (s.entry sc).sc_rxtslot) s.timerq live
  slot_le : ∀ sc ∈ live, (s.entry sc).sc_rxtslot ≤ maxRexmts
  distinct : ∀ a ∈ live, ∀ b ∈ live,
    SameEndpoints (s.entry a).sc_inc (s.entry b).sc_inc → a = b
  length : ∀ b, (s.hashbase b).sch_length = (s.hashbase b).sch_bucket.length
  count : s.cache_count = live.length
  sorted : ∀ i, (s.timerq i).Pairwise fun a b => (s.entry a).sc_rxttime ≤ (s.entry b).sc_rxttime
  ahead : ∀ sc ∈ live,
    (s.entry sc).sc_rxttime ≤ s.ticks + s.conf.rto (s.entry sc).sc_rxtslot

/-- A queue with entries has an active callout, which is due in time or whose handler was called. -/
structure Covered (s : State) (i : ℕ) : Prop where
  active : s.timerq i ≠ [] → (s.tt_timerq i).active = true
  pending : ∀ t, (s.tt_timerq i).pending = some t → (s.tt_timerq i).active = true
  due : ∀ t, (s.tt_timerq i).pending = some t → ∀ sc ∈ s.timerq i, t ≤ (s.entry sc).sc_rxttime
  ahead : ∀ t, (s.tt_timerq i).pending = some t → t ≤ s.ticks + s.conf.rto i
  called : (s.tt_timerq i).active = true → (s.tt_timerq i).pending = none →
    (s.tt_timerq i).called = true

/-- Only a queue with entries has an active callout. -/
structure Armed (s : State) (i : ℕ) : Prop extends Covered s i where
  ne_nil : (s.tt_timerq i).active = true → s.timerq i ≠ []

/-- The limits are kept. -/
structure Bounded (s : State) : Prop where
  bucket : ∀ b, (s.hashbase b).sch_length ≤ s.conf.bucket_limit
  cache : s.cache_count ≤ s.conf.cache_limit

/-- What holds of the cache with the entries `live`. -/
structure Cached (s : State) (live : List Sid) : Prop where
  lists : Lists s live
  armed : ∀ i, Armed s i
  bounded : Bounded s

/-- Between events the entries of the cache are those that the zone has given out. -/
def Good (s : State) : Prop := Cached s s.zone

/-! ## What the invariants depend on -/

/-- The entries that are in the cache keep what files them. -/
theorem Lists.congr (h : Lists s live) (hconf : t.conf = s.conf) (hbase : t.hashbase = s.hashbase)
    (hq : t.timerq = s.timerq) (hcount : t.cache_count = s.cache_count) (hticks : s.ticks ≤ t.ticks)
    (hinc : ∀ sc ∈ live, (t.entry sc).sc_inc = (s.entry sc).sc_inc)
    (hslot : ∀ sc ∈ live, (t.entry sc).sc_rxtslot = (s.entry sc).sc_rxtslot)
    (htime : ∀ sc ∈ live, (t.entry sc).sc_rxttime = (s.entry sc).sc_rxttime) : Lists t live where
  nodup := h.nodup
  buckets := by rw [hbase]; exact h.buckets.congr fun sc hsc => by rw [hconf, hinc sc hsc]
  queues := by rw [hq]; exact h.queues.congr hslot
  slot_le sc hsc := hslot sc hsc ▸ h.slot_le sc hsc
  distinct a ha b hb hab := h.distinct a ha b hb (hinc a ha ▸ hinc b hb ▸ hab)
  length b := hbase ▸ h.length b
  count := hcount.trans h.count
  sorted i := by
    rw [hq]
    refine (h.sorted i).imp_of_mem fun {a b} ha hb hab => ?_
    rw [htime a (h.queues.mem ha), htime b (h.queues.mem hb)]; exact hab
  ahead sc hsc := by
    rw [htime sc hsc, hslot sc hsc, hconf]
    exact (h.ahead sc hsc).trans (Nat.add_le_add_right hticks _)

theorem Covered.congr (h : Covered s i) (hconf : t.conf = s.conf)
    (hq : t.timerq i = s.timerq i) (hc : t.tt_timerq i = s.tt_timerq i) (hticks : s.ticks ≤ t.ticks)
    (htime : ∀ sc ∈ s.timerq i, (t.entry sc).sc_rxttime = (s.entry sc).sc_rxttime) :
    Covered t i where
  active := by rw [hq, hc]; exact h.active
  pending := by rw [hc]; exact h.pending
  due := by
    rw [hc, hq]
    intro d hd sc hsc
    rw [htime sc hsc]; exact h.due d hd sc hsc
  ahead := by rw [hc, hconf]; exact fun d hd => (h.ahead d hd).trans (Nat.add_le_add_right hticks _)
  called := by rw [hc]; exact h.called

theorem Armed.congr (h : Armed s i) (hconf : t.conf = s.conf)
    (hq : t.timerq i = s.timerq i) (hc : t.tt_timerq i = s.tt_timerq i) (hticks : s.ticks ≤ t.ticks)
    (htime : ∀ sc ∈ s.timerq i, (t.entry sc).sc_rxttime = (s.entry sc).sc_rxttime) :
    Armed t i where
  toCovered := h.toCovered.congr hconf hq hc hticks htime
  ne_nil := by rw [hq, hc]; exact h.ne_nil

theorem Bounded.congr (h : Bounded s) (hconf : t.conf = s.conf) (hbase : t.hashbase = s.hashbase)
    (hcount : t.cache_count = s.cache_count) : Bounded t where
  bucket b := by rw [hbase, hconf]; exact h.bucket b
  cache := by rw [hcount, hconf]; exact h.cache

theorem Cached.congr (h : Cached s live) (hconf : t.conf = s.conf) (hbase : t.hashbase = s.hashbase)
    (hq : t.timerq = s.timerq) (hc : t.tt_timerq = s.tt_timerq)
    (hcount : t.cache_count = s.cache_count) (hticks : s.ticks ≤ t.ticks)
    (hinc : ∀ sc ∈ live, (t.entry sc).sc_inc = (s.entry sc).sc_inc)
    (hslot : ∀ sc ∈ live, (t.entry sc).sc_rxtslot = (s.entry sc).sc_rxtslot)
    (htime : ∀ sc ∈ live, (t.entry sc).sc_rxttime = (s.entry sc).sc_rxttime) : Cached t live where
  lists := h.lists.congr hconf hbase hq hcount hticks hinc hslot htime
  armed i := (h.armed i).congr hconf (congrFun hq i) (congrFun hc i) hticks fun sc hsc =>
    htime sc (h.lists.queues.mem hsc)
  bounded := h.bounded.congr hconf hbase hcount

/-! ## What a lookup finds -/

theorem syncacheLookup_fst (s : State) (inc : InConninfo) :
    (syncacheLookup s inc).1 = s.conf.hash inc := by
  unfold syncacheLookup
  split
  · rfl
  · rfl

/-- The entry that a lookup finds is in the bucket. -/
theorem syncacheLookup_some (h : Lists s live) {inc : InConninfo} {sch : BitVec 32}
    (hf : syncacheLookup s inc = (sch, some sc)) :
    sc ∈ live ∧ s.conf.hash (s.entry sc).sc_inc = sch := by
  have hsch : sch = s.conf.hash inc := by rw [← syncacheLookup_fst s inc, hf]
  have hmem : sc ∈ (s.hashbase sch).sch_bucket := by
    subst hsch
    unfold syncacheLookup at hf
    split at hf
    · exact List.mem_of_find?_eq_some (Prod.ext_iff.1 hf).2
    · exact List.mem_of_find?_eq_some (Prod.ext_iff.1 hf).2
  exact ⟨h.buckets.mem hmem, h.buckets.key_eq hmem⟩

/-- A lookup finds nothing only where no entry has the endpoints. -/
theorem syncacheLookup_none (h : Lists s live) {inc : InConninfo} {sch : BitVec 32}
    (hf : syncacheLookup s inc = (sch, none)) :
    sch = s.conf.hash inc ∧ ∀ sc ∈ live, ¬SameEndpoints inc (s.entry sc).sc_inc := by
  have hsch : sch = s.conf.hash inc := by rw [← syncacheLookup_fst s inc, hf]
  refine ⟨hsch, fun sc hsc hsame => ?_⟩
  have hmem : sc ∈ (s.hashbase (s.conf.hash inc)).sch_bucket := by
    rw [hash_eq_of_same s.conf hsame]; exact h.buckets.mem_list hsc
  obtain ⟨h6, hends⟩ := hsame
  unfold syncacheLookup at hf
  split at hf
  · rename_i hinc
    rw [if_pos hinc] at hends; exact List.find?_eq_none.1 (Prod.ext_iff.1 hf).2 sc hmem hends
  · rename_i hinc
    rw [if_neg hinc] at hends
    have hnot : (s.entry sc).sc_inc.isipv6 = false := by rw [← h6]; exact Bool.eq_false_iff.2 hinc
    have hno := List.find?_eq_none.1 (Prod.ext_iff.1 hf).2 sc hmem
    rw [hnot, hends] at hno; exact hno rfl

end FreeBSD.TcpSyncache
