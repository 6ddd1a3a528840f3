import FreeBSD.Net.SyncacheInv

/-!
# The SYN cache: what the functions keep

Results:
* `Lists.requeue`, `Lists.enter`: an entry gets a timer, from another queue or as a new one.
* `room_spec`, `insert_spec`: a new entry goes in and the limits are kept.
-/

namespace FreeBSD.TcpSyncache

open Lib List Function

variable {s t : State} {live : List Sid} {sc x : Sid} {i slot : ℕ} {sch : BitVec 32}

/-! ## `syncache_drop` -/

/-- The bucket of the entry need not be given. -/
theorem syncacheDrop_some (h : s.conf.hash (s.entry sc).sc_inc = sch) :
    syncacheDrop s sc (some sch) = syncacheDrop s sc none := by
  subst h; rfl

section Drop

variable (s sc)

@[simp] theorem drop_conf : (syncacheDrop s sc none).conf = s.conf := by
  unfold syncacheDrop stopEmpty
  dsimp only
  split
  · rfl
  · rfl

@[simp] theorem drop_entry : (syncacheDrop s sc none).entry = s.entry := by
  unfold syncacheDrop stopEmpty
  dsimp only
  split
  · rfl
  · rfl

@[simp] theorem drop_ticks : (syncacheDrop s sc none).ticks = s.ticks := by
  unfold syncacheDrop stopEmpty
  dsimp only
  split
  · rfl
  · rfl

@[simp] theorem drop_zone : (syncacheDrop s sc none).zone = s.zone.erase sc := by
  unfold syncacheDrop stopEmpty
  dsimp only
  split
  · rfl
  · rfl

@[simp] theorem drop_cache_count : (syncacheDrop s sc none).cache_count = s.cache_count - 1 := by
  unfold syncacheDrop stopEmpty
  dsimp only
  split
  · rfl
  · rfl

theorem drop_hashbase : (syncacheDrop s sc none).hashbase =
    update s.hashbase (s.conf.hash (s.entry sc).sc_inc)
      ⟨(s.hashbase (s.conf.hash (s.entry sc).sc_inc)).sch_bucket.erase sc,
        (s.hashbase (s.conf.hash (s.entry sc).sc_inc)).sch_length - 1⟩ := by
  unfold syncacheDrop stopEmpty
  dsimp only
  split
  · rfl
  · rfl

theorem drop_timerq : (syncacheDrop s sc none).timerq =
    update s.timerq (s.entry sc).sc_rxtslot
      ((s.timerq (s.entry sc).sc_rxtslot).erase sc) := by
  unfold syncacheDrop stopEmpty
  dsimp only
  split
  · rfl
  · rfl

/-- The callout is stopped with the last entry of the queue. -/
theorem drop_tt_timerq : (syncacheDrop s sc none).tt_timerq =
    if (s.timerq (s.entry sc).sc_rxtslot).erase sc = [] then
      update s.tt_timerq (s.entry sc).sc_rxtslot
        (s.tt_timerq (s.entry sc).sc_rxtslot).stop
    else s.tt_timerq := by
  have hq : (syncacheUnlink s sc (s.conf.hash (s.entry sc).sc_inc)).timerq
      (s.entry sc).sc_rxtslot = (s.timerq (s.entry sc).sc_rxtslot).erase sc :=
    update_self ..
  rw [← hq]
  unfold syncacheDrop stopEmpty
  dsimp only [Option.getD]
  split
  · rfl
  · rfl

end Drop

/-- The bucket of an entry is shorter by it, and the others are as they were. -/
theorem Lists.drop_length (h : Lists s live) (hsc : sc ∈ live) (b : BitVec 32) :
    ((syncacheDrop s sc none).hashbase b).sch_length =
      ((syncacheDrop s sc none).hashbase b).sch_bucket.length := by
  rw [drop_hashbase]
  by_cases hb : b = s.conf.hash (s.entry sc).sc_inc
  · subst hb
    rw [update_self]
    dsimp only
    rw [length_erase_of_mem (h.buckets.mem_list hsc), h.length]
  · rw [update_of_ne hb]; exact h.length b

/-- An entry leaves the cache. -/
theorem Lists.drop (h : Lists s live) (hsc : sc ∈ live) :
    Lists (syncacheDrop s sc none) (live.erase sc) where
  nodup := h.nodup.erase sc
  buckets := by
    have hb := h.buckets.erase h.nodup sc
    rw [drop_hashbase, drop_conf, drop_entry]
    convert hb using 2 with b
    by_cases hk : b = s.conf.hash (s.entry sc).sc_inc
    · subst hk
      rw [update_self, update_self]
    · rw [update_of_ne hk, update_of_ne hk]
  queues := by rw [drop_timerq, drop_entry]; exact h.queues.erase h.nodup sc
  slot_le x hx := by rw [drop_entry]; exact h.slot_le x (mem_of_mem_erase hx)
  distinct a ha b hb hab := by
    rw [drop_entry] at hab
    exact h.distinct a (mem_of_mem_erase ha) b (mem_of_mem_erase hb) hab
  length := h.drop_length hsc
  count := by
    rw [drop_cache_count, h.count, length_erase_of_mem hsc]
  sorted i := by
    rw [drop_timerq, drop_entry]
    by_cases hi : i = (s.entry sc).sc_rxtslot
    · subst hi
      rw [update_self]; exact (h.sorted _).sublist erase_sublist
    · rw [update_of_ne hi]; exact h.sorted i
  ahead x hx := by
    rw [drop_entry, drop_ticks, drop_conf]; exact h.ahead x (mem_of_mem_erase hx)

/-- A queue without its entry. -/
theorem drop_timerq_sublist (s : State) (sc : Sid) (i : ℕ) :
    ((syncacheDrop s sc none).timerq i).Sublist (s.timerq i) := by
  rw [drop_timerq]
  by_cases hi : i = (s.entry sc).sc_rxtslot
  · subst hi
    rw [update_self]; exact erase_sublist
  · rw [update_of_ne hi]

/-- An empty queue needs no callout. -/
theorem Armed.of_empty (hq : s.timerq i = []) (hact : (s.tt_timerq i).active = false)
    (hpend : (s.tt_timerq i).pending = none) : Armed s i where
  active hne := absurd hq hne
  pending t ht := by
    rw [hpend] at ht
    cases ht
  due t ht := by
    rw [hpend] at ht
    cases ht
  ahead t ht := by
    rw [hpend] at ht
    cases ht
  called h := by
    rw [hact] at h
    cases h
  ne_nil h := by
    rw [hact] at h
    cases h

/-- A queue keeps its callout until its last entry leaves. -/
theorem Armed.drop (h : Armed s i) (sc : Sid) : Armed (syncacheDrop s sc none) i := by
  by_cases hi : i = (s.entry sc).sc_rxtslot
  · subst hi
    by_cases hnil : (s.timerq (s.entry sc).sc_rxtslot).erase sc = []
    · have hc : (syncacheDrop s sc none).tt_timerq (s.entry sc).sc_rxtslot =
          (s.tt_timerq (s.entry sc).sc_rxtslot).stop := by
        rw [drop_tt_timerq, if_pos hnil, update_self]
      have hq : (syncacheDrop s sc none).timerq (s.entry sc).sc_rxtslot = [] := by
        rw [drop_timerq, update_self, hnil]
      exact Armed.of_empty hq (by rw [hc]; rfl) (by rw [hc]; rfl)
    · have hc : (syncacheDrop s sc none).tt_timerq = s.tt_timerq := by
        rw [drop_tt_timerq, if_neg hnil]
      have hq : (syncacheDrop s sc none).timerq (s.entry sc).sc_rxtslot ≠ [] := by
        rw [drop_timerq, update_self]; exact hnil
      have hold : s.timerq (s.entry sc).sc_rxtslot ≠ [] := by
        intro h0
        rw [h0] at hnil; exact hnil rfl
      refine ⟨⟨fun _ => ?_, ?_, ?_, ?_, ?_⟩, fun _ => hq⟩
      · rw [hc]; exact h.active hold
      · rw [hc]; exact h.pending
      · rw [hc, drop_entry]
        exact fun d hd x hx => h.due d hd x ((drop_timerq_sublist s sc _).subset hx)
      · rw [hc, drop_ticks, drop_conf]; exact h.ahead
      · rw [hc]; exact h.called
  · refine h.congr (drop_conf s sc) ?_ ?_ (drop_ticks s sc).ge fun x _ => by rw [drop_entry]
    · rw [drop_timerq, update_of_ne hi]
    · rw [drop_tt_timerq]
      split
      · rw [update_of_ne hi]
      · rfl

theorem Bounded.drop (h : Bounded s) (sc : Sid) : Bounded (syncacheDrop s sc none) where
  bucket b := by
    rw [drop_hashbase, drop_conf]
    by_cases hb : b = s.conf.hash (s.entry sc).sc_inc
    · subst hb
      rw [update_self]; exact (Nat.sub_le _ _).trans (h.bucket _)
    · rw [update_of_ne hb]; exact h.bucket b
  cache := by rw [drop_cache_count, drop_conf]; exact (Nat.sub_le _ _).trans h.cache

/-! ## `SYNCACHE_TIMEOUT` -/

section Timeout

variable (s sc slot)

@[simp] theorem timeout_conf : (syncacheTimeout s sc slot).conf = s.conf := by
  unfold syncacheTimeout
  dsimp only
  split
  · rfl
  · rfl

@[simp] theorem timeout_ticks : (syncacheTimeout s sc slot).ticks = s.ticks := by
  unfold syncacheTimeout
  dsimp only
  split
  · rfl
  · rfl

@[simp] theorem timeout_hashbase : (syncacheTimeout s sc slot).hashbase = s.hashbase := by
  unfold syncacheTimeout
  dsimp only
  split
  · rfl
  · rfl

@[simp] theorem timeout_zone : (syncacheTimeout s sc slot).zone = s.zone := by
  unfold syncacheTimeout
  dsimp only
  split
  · rfl
  · rfl

@[simp] theorem timeout_cache_count :
    (syncacheTimeout s sc slot).cache_count = s.cache_count := by
  unfold syncacheTimeout
  dsimp only
  split
  · rfl
  · rfl

theorem timeout_entry : (syncacheTimeout s sc slot).entry =
    update s.entry sc { s.entry sc with
      sc_rxtslot := slot, sc_rxttime := s.ticks + s.conf.rto slot } := by
  unfold syncacheTimeout
  dsimp only
  split
  · rfl
  · rfl

theorem timeout_timerq : (syncacheTimeout s sc slot).timerq =
    update s.timerq slot (s.timerq slot ++ [sc]) := by
  unfold syncacheTimeout
  dsimp only
  split
  · rfl
  · rfl

/-- A callout that is active is left as it is. -/
theorem timeout_tt_timerq : (syncacheTimeout s sc slot).tt_timerq =
    if (s.tt_timerq slot).active then s.tt_timerq
    else update s.tt_timerq slot
      ((s.tt_timerq slot).reset s.ticks (s.conf.rto slot)) := by
  unfold syncacheTimeout
  dsimp only
  split
  · rename_i hact
    exact (if_pos hact).symm
  · rename_i hact
    exact (if_neg hact).symm

end Timeout

theorem timeout_entry_of_ne (hx : x ≠ sc) : (syncacheTimeout s sc slot).entry x = s.entry x := by
  rw [timeout_entry, update_of_ne hx]

theorem timeout_sc_rxttime :
    ((syncacheTimeout s sc slot).entry sc).sc_rxttime = s.ticks + s.conf.rto slot := by
  rw [timeout_entry, update_self]

theorem timeout_sc_rxtslot : ((syncacheTimeout s sc slot).entry sc).sc_rxtslot = slot := by
  rw [timeout_entry, update_self]

theorem timeout_sc_inc :
    ((syncacheTimeout s sc slot).entry x).sc_inc = (s.entry x).sc_inc := by
  by_cases hx : x = sc
  · subst hx
    rw [timeout_entry, update_self]
  · rw [timeout_entry_of_ne hx]

/-- The timeout of a queue is positive. -/
theorem Conf.rto_pos (c : Conf) (h : slot ≤ maxRexmts) : 0 < c.rto slot := by
  have hz := c.hz_pos
  unfold maxRexmts at h
  unfold Conf.rto
  interval_cases slot
  · exact mul_pos (by omega) one_pos
  · exact mul_pos (by omega) two_pos
  · exact mul_pos (by omega) (by decide)
  · exact mul_pos (by omega) (by decide)

/-- The queue that an entry is put on has a callout in time. -/
theorem Covered.timeout (h : Covered s slot) (hslot : slot ≤ maxRexmts)
    (hsc : sc ∉ s.timerq slot) :
    Armed (syncacheTimeout s sc slot) slot := by
  have hq : (syncacheTimeout s sc slot).timerq slot = s.timerq slot ++ [sc] := by
    rw [timeout_timerq, update_self]
  have hne : (syncacheTimeout s sc slot).timerq slot ≠ [] := by
    rw [hq]; exact append_ne_nil_of_right_ne_nil _ (cons_ne_nil _ _)
  by_cases hact : (s.tt_timerq slot).active
  · have hc : (syncacheTimeout s sc slot).tt_timerq = s.tt_timerq := by
      rw [timeout_tt_timerq, if_pos hact]
    refine ⟨⟨fun _ => ?_, ?_, ?_, ?_, ?_⟩, fun _ => hne⟩
    · rw [hc]; exact hact
    · rw [hc]; exact h.pending
    · rw [hc, hq]
      intro d hd x hx
      rcases mem_append.1 hx with hx | hx
      · rw [timeout_entry_of_ne (ne_of_mem_of_not_mem hx hsc)]; exact h.due d hd x hx
      · rw [mem_singleton.1 hx, timeout_sc_rxttime]; exact h.ahead d hd
    · rw [hc, timeout_ticks, timeout_conf]; exact h.ahead
    · rw [hc]; exact h.called
  · have hc : (syncacheTimeout s sc slot).tt_timerq slot =
        (s.tt_timerq slot).reset s.ticks (s.conf.rto slot) := by
      rw [timeout_tt_timerq, if_neg hact, update_self]
    have hnil : s.timerq slot = [] := by
      by_contra hne'
      exact hact (h.active hne')
    have hdue : ∀ d, ((syncacheTimeout s sc slot).tt_timerq slot).pending = some d →
        d = s.ticks + s.conf.rto slot := by
      intro d hd
      rw [hc] at hd
      have hd : s.ticks + max (s.conf.rto slot) 1 = d := Option.some.inj hd
      have := s.conf.rto_pos hslot; omega
    refine ⟨⟨fun _ => ?_, fun _ _ => ?_, ?_, ?_, fun _ hnone => ?_⟩, fun _ => hne⟩
    · rw [hc]; rfl
    · rw [hc]; rfl
    · intro d hd x hx
      rw [hq, hnil, nil_append, mem_singleton] at hx
      rw [hx, timeout_sc_rxttime]; exact (hdue d hd).le
    · rw [timeout_ticks, timeout_conf]; exact fun d hd => (hdue d hd).le
    · rw [hc] at hnone
      cases hnone

/-- The other queues are left as they are. -/
theorem Armed.timeout_of_ne (h : Armed s i) (hi : i ≠ slot) (hsc : sc ∉ s.timerq i) :
    Armed (syncacheTimeout s sc slot) i := by
  refine h.congr (timeout_conf ..) ?_ ?_ (timeout_ticks ..).ge fun x hx => ?_
  · rw [timeout_timerq, update_of_ne hi]
  · rw [timeout_tt_timerq]
    split
    · rfl
    · rw [update_of_ne hi]
  · rw [timeout_entry_of_ne (ne_of_mem_of_not_mem hx hsc)]

/-- A queue stays in order with a new entry behind it. -/
theorem timeout_sorted (hsc : ∀ i, sc ∉ s.timerq i)
    (hsorted : ∀ i, (s.timerq i).Pairwise fun a b =>
      (s.entry a).sc_rxttime ≤ (s.entry b).sc_rxttime)
    (hahead : ∀ x ∈ s.timerq slot, (s.entry x).sc_rxttime ≤ s.ticks + s.conf.rto slot) (i : ℕ) :
    ((syncacheTimeout s sc slot).timerq i).Pairwise fun a b =>
      ((syncacheTimeout s sc slot).entry a).sc_rxttime ≤
        ((syncacheTimeout s sc slot).entry b).sc_rxttime := by
  have hold : ∀ i, (s.timerq i).Pairwise fun a b =>
      ((syncacheTimeout s sc slot).entry a).sc_rxttime ≤
        ((syncacheTimeout s sc slot).entry b).sc_rxttime := by
    refine fun i => (hsorted i).imp_of_mem fun {a b} ha hb hab => ?_
    rw [timeout_entry_of_ne (ne_of_mem_of_not_mem ha (hsc i)),
      timeout_entry_of_ne (ne_of_mem_of_not_mem hb (hsc i))]
    exact hab
  rw [timeout_timerq]
  by_cases hi : i = slot
  · subst hi
    rw [update_self]
    refine pairwise_append.2 ⟨hold i, pairwise_singleton _ _, fun a ha b hb => ?_⟩
    rw [mem_singleton.1 hb, timeout_sc_rxttime,
      timeout_entry_of_ne (ne_of_mem_of_not_mem ha (hsc i))]
    exact hahead a ha
  · rw [update_of_ne hi]; exact hold i

/-! ## From one queue to another -/

theorem not_mem_dequeue (h : Lists s live) (i : ℕ) : sc ∉ (s.dequeue sc).timerq i := by
  intro hmem
  by_cases hi : i = (s.entry sc).sc_rxtslot
  · subst hi
    rw [show (s.dequeue sc).timerq (s.entry sc).sc_rxtslot =
      (s.timerq (s.entry sc).sc_rxtslot).erase sc from update_self ..] at hmem
    exact (h.queues.nodup _).not_mem_erase hmem
  · rw [show (s.dequeue sc).timerq i = s.timerq i from update_of_ne hi ..] at hmem
    exact hi (h.queues.key_eq hmem).symm

theorem dequeue_sublist (s : State) (sc : Sid) (i : ℕ) :
    ((s.dequeue sc).timerq i).Sublist (s.timerq i) := by
  by_cases hi : i = (s.entry sc).sc_rxtslot
  · subst hi
    rw [show (s.dequeue sc).timerq (s.entry sc).sc_rxtslot =
      (s.timerq (s.entry sc).sc_rxtslot).erase sc from update_self ..]
    exact erase_sublist
  · rw [show (s.dequeue sc).timerq i = s.timerq i from update_of_ne hi ..]

/-- An entry of the cache gets a timer from now on. -/
theorem Lists.requeue (h : Lists s live) (hsc : sc ∈ live) (hslot : slot ≤ maxRexmts) :
    Lists (syncacheTimeout (s.dequeue sc) sc slot) live where
  nodup := h.nodup
  buckets := by
    rw [timeout_hashbase, timeout_conf]
    exact h.buckets.congr fun x _ => by rw [timeout_sc_inc]; rfl
  queues := by
    have hmove := h.queues.move h.nodup hsc
      (fun x _ hx => show ((syncacheTimeout (s.dequeue sc) sc slot).entry x).sc_rxtslot = _ by
        rw [timeout_entry_of_ne hx]; rfl) rfl
    rw [timeout_sc_rxtslot] at hmove
    rw [timeout_timerq]; exact hmove
  slot_le x hx := by
    by_cases hxsc : x = sc
    · subst hxsc
      rw [timeout_sc_rxtslot]; exact hslot
    · rw [timeout_entry_of_ne hxsc]; exact h.slot_le x hx
  distinct a ha b hb hab := by
    rw [timeout_sc_inc, timeout_sc_inc] at hab; exact h.distinct a ha b hb hab
  length b := by rw [timeout_hashbase]; exact h.length b
  count := by rw [timeout_cache_count]; exact h.count
  sorted := by
    refine timeout_sorted (not_mem_dequeue h) (fun i => ?_) fun x hx => ?_
    · exact (h.sorted i).sublist (dequeue_sublist s sc i)
    · have hx := (dequeue_sublist s sc slot).subset hx
      have hahead := h.ahead x (h.queues.mem hx)
      rw [h.queues.key_eq hx] at hahead; exact hahead
  ahead x hx := by
    rw [timeout_ticks, timeout_conf]
    by_cases hxsc : x = sc
    · subst hxsc
      rw [timeout_sc_rxttime, timeout_sc_rxtslot]
    · rw [timeout_entry_of_ne hxsc]; exact h.ahead x hx

theorem Covered.dequeue (h : Covered s i) (sc : Sid) : Covered (s.dequeue sc) i where
  active hne := h.active fun hnil => hne (sublist_nil.1 (hnil ▸ dequeue_sublist s sc i))
  pending := h.pending
  due d hd x hx := h.due d hd x ((dequeue_sublist s sc i).subset hx)
  ahead := h.ahead
  called := h.called

/-- Every queue has its callout again where the entry is put on one. -/
theorem Armed.requeue (hlists : Lists s live) (h : Armed s i) (hslot : slot ≤ maxRexmts)
    (hi : i = slot ∨ i ≠ (s.entry sc).sc_rxtslot) :
    Armed (syncacheTimeout (s.dequeue sc) sc slot) i := by
  by_cases his : i = slot
  · subst his; exact (h.toCovered.dequeue sc).timeout hslot (not_mem_dequeue hlists i)
  · have hold : i ≠ (s.entry sc).sc_rxtslot := hi.resolve_left his
    have hq : (s.dequeue sc).timerq i = s.timerq i := update_of_ne hold ..
    exact (h.congr (t := s.dequeue sc) rfl hq rfl le_rfl fun _ _ => rfl).timeout_of_ne his
      (not_mem_dequeue hlists i)

/-! ## A new entry -/

@[simp] theorem link_conf (s : State) (sc : Sid) (b : BitVec 32) :
    (syncacheLink s sc b).conf = s.conf := rfl

@[simp] theorem link_entry (s : State) (sc : Sid) (b : BitVec 32) :
    (syncacheLink s sc b).entry = s.entry := rfl

@[simp] theorem link_timerq (s : State) (sc : Sid) (b : BitVec 32) :
    (syncacheLink s sc b).timerq = s.timerq := rfl

theorem link_hashbase (s : State) (sc : Sid) (b : BitVec 32) :
    (syncacheLink s sc b).hashbase = update s.hashbase b
      ⟨(s.hashbase b).sch_bucket ++ [sc], (s.hashbase b).sch_length + 1⟩ := rfl

/-- A new entry goes into its bucket and on the first queue. -/
theorem Lists.enter (h : Lists s live) (hsc : sc ∉ live)
    (hsch : s.conf.hash (s.entry sc).sc_inc = sch)
    (hnew : ∀ x ∈ live, ¬SameEndpoints (s.entry sc).sc_inc (s.entry x).sc_inc) :
    Lists (syncacheLink (syncacheTimeout s sc 0) sc sch) (sc :: live) where
  nodup := nodup_cons.2 ⟨hsc, h.nodup⟩
  buckets := by
    have hb := h.buckets.append hsc
    rw [link_conf, link_entry, link_hashbase, timeout_conf, timeout_hashbase]
    rw [hsch] at hb
    have hkeys : (fun x => s.conf.hash ((syncacheTimeout s sc 0).entry x).sc_inc) =
        fun x => s.conf.hash (s.entry x).sc_inc := funext fun x => by rw [timeout_sc_inc]
    rw [hkeys]
    convert hb using 2 with b
    by_cases hk : b = sch
    · subst hk
      rw [update_self, update_self]
    · rw [update_of_ne hk, update_of_ne hk]
  queues := by
    have hold : Filed (fun x => ((syncacheTimeout s sc 0).entry x).sc_rxtslot) s.timerq live :=
      h.queues.congr fun x hx => by rw [timeout_entry_of_ne (ne_of_mem_of_not_mem hx hsc)]
    have hq := hold.append hsc
    rw [timeout_sc_rxtslot] at hq
    rw [link_timerq, link_entry, timeout_timerq]; exact hq
  slot_le x hx := by
    rw [link_entry]
    rcases mem_cons.1 hx with rfl | hx
    · rw [timeout_sc_rxtslot]; exact Nat.zero_le _
    · rw [timeout_entry_of_ne (ne_of_mem_of_not_mem hx hsc)]; exact h.slot_le x hx
  distinct a ha b hb hab := by
    rw [link_entry, timeout_sc_inc, timeout_sc_inc] at hab
    rcases mem_cons.1 ha with rfl | ha'
    · rcases mem_cons.1 hb with rfl | hb'
      · rfl
      · exact absurd hab (hnew b hb')
    · rcases mem_cons.1 hb with rfl | hb'
      · exact absurd hab.symm (hnew a ha')
      · exact h.distinct a ha' b hb' hab
  length b := by
    rw [link_hashbase, timeout_hashbase]
    by_cases hb : b = sch
    · subst hb
      rw [update_self]
      dsimp only
      rw [length_append, h.length, length_singleton]
    · rw [update_of_ne hb]; exact h.length b
  count := by
    show (syncacheTimeout s sc 0).cache_count + 1 = _
    rw [timeout_cache_count, h.count, length_cons]
  sorted := by
    refine timeout_sorted (fun i hmem => hsc (h.queues.mem hmem)) h.sorted fun x hx => ?_
    have hahead := h.ahead x (h.queues.mem hx)
    rw [h.queues.key_eq hx] at hahead; exact hahead
  ahead x hx := by
    rw [link_entry, link_conf, timeout_conf]
    show _ ≤ (syncacheTimeout s sc 0).ticks + _
    rw [timeout_ticks]
    rcases mem_cons.1 hx with rfl | hx
    · rw [timeout_sc_rxttime, timeout_sc_rxtslot]
    · rw [timeout_entry_of_ne (ne_of_mem_of_not_mem hx hsc)]; exact h.ahead x hx

/-! ## Room for a new entry -/

/-- An entry leaves the cache. -/
theorem Cached.drop (h : Cached s live) (hsc : sc ∈ live) :
    Cached (syncacheDrop s sc none) (live.erase sc) where
  lists := h.lists.drop hsc
  armed i := (h.armed i).drop sc
  bounded := h.bounded.drop sc

theorem Cached.touch (h : Cached s live) (sc : Sid) : Cached (s.touch sc) live :=
  h.congr rfl rfl rfl rfl rfl le_rfl (fun _ _ => rfl) (fun _ _ => rfl) fun _ _ => rfl

/-- With an entry in the cache there is an oldest one. -/
theorem oldest_spec (h : Lists s live) (hl : live ≠ []) : ∃ sc ∈ live, oldest s = some sc := by
  obtain ⟨a, ha, hne⟩ := h.queues.exists_ne_nil hl
  have hslot : (s.entry a).sc_rxtslot ∈ [3, 2, 1, 0] := by
    have hle := h.slot_le a ha
    unfold maxRexmts at hle
    simp only [mem_cons, not_mem_nil, or_false]; omega
  cases ho : oldest s with
  | none =>
    have hnone := List.findSome?_eq_none_iff.1 ho _ hslot
    exact absurd (List.head?_eq_none_iff.1 hnone) hne
  | some sc =>
    obtain ⟨i, -, hi⟩ := exists_of_findSome?_eq_some ho
    exact ⟨sc, h.queues.mem (mem_of_mem_head? (Option.mem_def.2 hi)), rfl⟩

/-- An entry more is within the limits. -/
def HasRoom (s : State) (sch : BitVec 32) : Prop :=
  (s.hashbase sch).sch_length < s.conf.bucket_limit ∧ s.cache_count < s.conf.cache_limit

/-- The cache is shorter by an entry that leaves it. -/
theorem Cached.drop_count_lt (h : Cached s live) (hsc : sc ∈ live) :
    (syncacheDrop s sc none).cache_count < (syncacheDrop s sc none).conf.cache_limit := by
  have hpos : 0 < s.cache_count := by rw [h.lists.count]; exact length_pos_of_mem hsc
  have hle := h.bounded.cache
  rw [drop_cache_count, drop_conf]; omega

/-- There is room for an entry, where need be without another one. -/
theorem room_spec (h : Cached s live) (sch : BitVec 32) : ∃ t live',
    syncacheRoom s sch = some t ∧ Cached t live' ∧ HasRoom t sch ∧
      (t = s ∧ live' = live ∨
        ∃ x ∈ live, t = syncacheDrop (s.touch x) x none ∧ live' = live.erase x) := by
  by_cases hb : s.conf.bucket_limit ≤ (s.hashbase sch).sch_length
  · cases hhead : (s.hashbase sch).sch_bucket.head? with
    | none =>
      have hlen := h.lists.length sch
      rw [List.head?_eq_none_iff.1 hhead] at hlen
      have := s.conf.bucket_limit_pos
      simp only [length_nil] at hlen; omega
    | some x =>
      have hmem : x ∈ (s.hashbase sch).sch_bucket :=
        mem_of_mem_head? (Option.mem_def.2 hhead)
      have hx : x ∈ live := h.lists.buckets.mem hmem
      have hsch : (s.touch x).conf.hash ((s.touch x).entry x).sc_inc = sch :=
        h.lists.buckets.key_eq hmem
      refine ⟨_, live.erase x, ?_, (h.touch x).drop hx, ⟨?_, (h.touch x).drop_count_lt hx⟩,
        .inr ⟨x, hx, rfl, rfl⟩⟩
      · unfold syncacheRoom
        rw [if_pos hb, hhead]
        dsimp only
        rw [syncacheDrop_some hsch]
      · have hlen := h.lists.length sch
        have hpos := length_pos_of_mem hmem
        have hle := h.bounded.bucket sch
        rw [drop_hashbase, drop_conf, hsch, update_self]
        show (s.hashbase sch).sch_length - 1 < s.conf.bucket_limit
        omega
  · by_cases hc : s.conf.cache_limit ≤ s.cache_count
    · have hl : live ≠ [] := by
        rintro rfl
        have hcount := h.lists.count
        have := s.conf.cache_limit_pos
        simp only [length_nil] at hcount; omega
      obtain ⟨x, hx, hold⟩ := oldest_spec h.lists hl
      refine ⟨_, live.erase x, ?_, (h.touch x).drop hx, ⟨?_, (h.touch x).drop_count_lt hx⟩,
        .inr ⟨x, hx, rfl, rfl⟩⟩
      · unfold syncacheRoom
        rw [if_neg hb, if_pos hc, hold]
      · rw [drop_hashbase, drop_conf]
        by_cases hk : sch = (s.touch x).conf.hash ((s.touch x).entry x).sc_inc
        · rw [hk, update_self]
          rw [hk] at hb; exact (Nat.sub_le _ _).trans_lt (Nat.lt_of_not_le hb)
        · rw [update_of_ne hk]; exact Nat.lt_of_not_le hb
    · refine ⟨s, live, ?_, h, ⟨Nat.lt_of_not_le hb, Nat.lt_of_not_le hc⟩, .inl ⟨rfl, rfl⟩⟩
      unfold syncacheRoom
      rw [if_neg hb, if_neg hc]

/-- Within the limits, an entry more is in the cache. -/
theorem Cached.enter (sc : Sid) (h : Cached s live) (hroom : HasRoom s sch) (hsc : sc ∉ live)
    (hsch : s.conf.hash (s.entry sc).sc_inc = sch)
    (hnew : ∀ x ∈ live, ¬SameEndpoints (s.entry sc).sc_inc (s.entry x).sc_inc) :
    Cached (syncacheLink (syncacheTimeout s sc 0) sc sch) (sc :: live) where
  lists := h.lists.enter hsc hsch hnew
  armed i := by
    have hout : ∀ i, sc ∉ s.timerq i := fun i hmem => hsc (h.lists.queues.mem hmem)
    have harmed : Armed (syncacheTimeout s sc 0) i := by
      by_cases hi : i = 0
      · subst hi; exact (h.armed 0).toCovered.timeout (Nat.zero_le _) (hout 0)
      · exact (h.armed i).timeout_of_ne hi (hout i)
    exact harmed.congr rfl rfl rfl le_rfl fun _ _ => rfl
  bounded := by
    refine ⟨fun b => ?_, ?_⟩
    · rw [link_hashbase, timeout_hashbase, link_conf, timeout_conf]
      by_cases hb : b = sch
      · subst hb
        rw [update_self]; exact hroom.1
      · rw [update_of_ne hb]; exact h.bounded.bucket b
    · show (syncacheTimeout s sc 0).cache_count + 1 ≤ _
      rw [timeout_cache_count, link_conf, timeout_conf]; exact hroom.2

/-- A new entry, which the zone has given out, goes into the cache. -/
theorem insert_spec (sch : BitVec 32) (h : Cached s live) (hzone : s.zone = sc :: live)
    (hsc : sc ∉ live)
    (hsch : s.conf.hash (s.entry sc).sc_inc = sch)
    (hnew : ∀ x ∈ live, ¬SameEndpoints (s.entry sc).sc_inc (s.entry x).sc_inc) :
    ∃ t, syncacheInsert s sc sch = some t ∧ Good t := by
  obtain ⟨t, live', hroom, hcached, hhas, hcase⟩ := room_spec h sch
  have hkeep : t.conf = s.conf ∧ t.entry = s.entry ∧ t.zone = sc :: live' ∧ live' ⊆ live := by
    rcases hcase with ⟨rfl, rfl⟩ | ⟨x, hx, rfl, rfl⟩
    · exact ⟨rfl, rfl, hzone, fun _ hx => hx⟩
    · refine ⟨drop_conf .., drop_entry .., ?_, erase_subset⟩
      rw [drop_zone]
      show s.zone.erase x = _
      rw [hzone, erase_cons_tail]; simpa using ne_of_mem_of_not_mem hx hsc |>.symm
  obtain ⟨hconf, hentry, htzone, hsub⟩ := hkeep
  refine ⟨_, by unfold syncacheInsert; rw [hroom]; rfl, ?_⟩
  have hent := hcached.enter sc hhas (fun hmem => hsc (hsub hmem))
    (by rw [hconf, hentry]; exact hsch) fun x hx => by rw [hentry]; exact hnew x (hsub hx)
  have hz : (syncacheLink (syncacheTimeout t sc 0) sc sch).zone = sc :: live' :=
    (timeout_zone ..).trans htzone
  unfold Good
  rw [hz]; exact hent

end FreeBSD.TcpSyncache
