import FreeBSD.Net.SyncacheTimer

/-!
# The SYN cache: runs

Results:
* `syncache_of_run`: the lists, the counts and the callouts in every state that is reached.
-/

namespace FreeBSD.TcpSyncache

open Lib List Function Option

variable {s t : State} {live : List Sid} {sc : Sid} {slot : ℕ} {sch : BitVec 32}

/-! ## The events -/

/-- An entry leaves the cache. -/
theorem Good.drop (h : Good s) (hsc : sc ∈ s.zone) : Good (syncacheDrop s sc none) := by
  unfold Good
  rw [drop_zone]; exact Cached.drop h hsc

/-- An entry that a lookup has found leaves the cache. -/
theorem Good.drop_found (h : Good s) {inc : InConninfo}
    (hf : syncacheLookup s inc = (sch, some sc)) : Good (syncacheDrop s sc (some sch)) := by
  obtain ⟨hsc, hsch⟩ := syncacheLookup_some h.lists hf
  rw [syncacheDrop_some hsch]; exact h.drop hsc

theorem Good.chkrst (h : Good s) (inc : InConninfo) (th_seq : TcpSeq) :
    Good (syncacheChkrst s inc th_seq) := by
  unfold syncacheChkrst
  split
  · exact h
  · rename_i hf
    dsimp only
    split
    · exact h.drop_found hf
    · exact h

theorem Good.badack (h : Good s) (inc : InConninfo) : Good (syncacheBadack s inc) := by
  unfold syncacheBadack
  split
  · exact h
  · rename_i hf
    exact h.drop_found hf

/-- What an entry keeps besides its endpoints and its timer is free. -/
theorem Good.setEntry (h : Good s) {x : Syncache} (hinc : x.sc_inc = (s.entry sc).sc_inc)
    (hslot : x.sc_rxtslot = (s.entry sc).sc_rxtslot)
    (htime : x.sc_rxttime = (s.entry sc).sc_rxttime) : Good (s.setEntry sc x) := by
  have hself : (s.setEntry sc x).entry sc = x := update_self ..
  have hother : ∀ y, y ≠ sc → (s.setEntry sc x).entry y = s.entry y :=
    fun y hy => update_of_ne hy ..
  refine Cached.congr h rfl rfl rfl rfl rfl le_rfl ?_ ?_ ?_
  · intro y _
    by_cases hy : y = sc
    · rw [hy, hself, hinc]
    · rw [hother y hy]
  · intro y _
    by_cases hy : y = sc
    · rw [hy, hself, hslot]
    · rw [hother y hy]
  · intro y _
    by_cases hy : y = sc
    · rw [hy, hself, htime]
    · rw [hother y hy]

theorem Good.unreach (h : Good s) (inc : InConninfo) (th_seq : TcpSeq) :
    Good (syncacheUnreach s inc th_seq) := by
  unfold syncacheUnreach
  split
  · exact h
  · rename_i hf
    dsimp only
    split
    · exact h
    · split
      · exact h.setEntry rfl rfl rfl
      · exact h.drop_found hf

theorem zalloc_spec {m : Option Sid} (hz : zalloc s m = some sc) : sc ∉ s.zone := by
  unfold zalloc at hz
  split at hz
  · cases hz
  · split at hz
    · cases hz
    · rename_i hout
      exact some.inj hz ▸ hout

/-- What is not in the cache has nothing to do with it. -/
theorem Cached.setEntry (h : Cached s live) (hsc : sc ∉ live) (x : Syncache) :
    Cached (s.setEntry sc x) live := by
  have hother : ∀ y ∈ live, (s.setEntry sc x).entry y = s.entry y :=
    fun y hy => update_of_ne (ne_of_mem_of_not_mem hy hsc) ..
  exact h.congr rfl rfl rfl rfl rfl le_rfl (fun y hy => by rw [hother y hy])
    (fun y hy => by rw [hother y hy]) fun y hy => by rw [hother y hy]

/-- An entry that is given out and not in the cache goes back to the zone. -/
theorem Cached.free (h : Cached s live) (hzone : s.zone = sc :: live) :
    Good (syncacheFree s sc) := by
  have hz : (syncacheFree s sc).zone = live := by
    show s.zone.erase sc = live
    rw [hzone, erase_cons_head]
  unfold Good
  rw [hz]; exact h.congr rfl rfl rfl rfl rfl le_rfl (fun _ _ => rfl) (fun _ _ => rfl) fun _ _ => rfl

/-- The zone gives out an entry. -/
theorem Good.zalloc (h : Good s) (sc : Sid) : Cached { s with zone := sc :: s.zone } s.zone :=
  Cached.congr h rfl rfl rfl rfl rfl le_rfl (fun _ _ => rfl) (fun _ _ => rfl) fun _ _ => rfl

theorem Good.complete (h : Good s) {a : Ack} {inc : InConninfo}
    (hf : syncacheLookup s inc = (sch, some sc)) : Good (syncacheComplete s a sc (some sch)).1 := by
  unfold syncacheComplete
  split
  · exact h
  · exact h.drop_found hf

/-- An entry made from a cookie has the acknowledged number, so it is freed again. -/
theorem Good.complete_cookie (h : Good s) {a : Ack} {t : State}
    (hc : syncookieLookup s a = some (t, sc)) : Good (syncacheComplete t a sc none).1 := by
  unfold syncookieLookup at hc
  split at hc
  · obtain ⟨x, hz, hx⟩ := map_eq_some_iff.1 hc
    obtain ⟨rfl, rfl⟩ := Prod.ext_iff.1 hx
    dsimp only
    unfold syncacheComplete
    split
    · rename_i hack
      refine absurd ?_ hack
      rw [show (State.setEntry _ x _).entry x = _ from update_self ..]
      exact (BitVec.sub_add_cancel a.th_ack 1).symm
    · exact ((h.zalloc x).setEntry (zalloc_spec hz) _).free rfl
  · cases hc

theorem Good.expand (h : Good s) (a : Ack) : Good (syncacheExpand s a).1 := by
  unfold syncacheExpand
  split
  · rename_i hf
    exact h.complete hf
  · split
    · split
      · exact h
      · rename_i hc
        exact h.complete_cookie hc
    · exact h

theorem Good.dupsyn (h : Good s) (a : Syn) (hsc : sc ∈ s.zone) : Good (syncacheDupsyn s a sc) := by
  unfold syncacheDupsyn
  obtain ⟨t, ht⟩ : ∃ t, t = s.setEntry sc
    { s.entry sc with sc_tp := a.tp, sc_inp_gencnt := a.gencnt } := ⟨_, rfl⟩
  have hgood : Good t := ht ▸ h.setEntry rfl rfl rfl
  have hmem : sc ∈ t.zone := ht ▸ hsc
  have hle := hgood.lists.slot_le sc hmem
  dsimp only
  rw [← ht]
  split
  · unfold Good
    rw [timeout_zone]
    refine ⟨hgood.lists.requeue hmem hle, fun i => ?_, ?_⟩
    · exact (hgood.armed i).requeue hgood.lists hle (em _)
    · exact hgood.bounded.congr (timeout_conf ..) (timeout_hashbase ..) (timeout_cache_count ..)
  · exact hgood

/-- The entry that is allocated is not in the cache, which has no new entry. -/
theorem alloc_spec (h : Good s) {a : Syn} {m : Option Sid}
    (ha : syncacheAlloc s a = some (t, m)) :
    ∃ live, Cached t live ∧ live ⊆ s.zone ∧ t.conf = s.conf ∧ t.entry = s.entry ∧
      ((m = none ∧ t.zone = live) ∨ ∃ sc, m = some sc ∧ sc ∉ live ∧ t.zone = sc :: live) := by
  unfold syncacheAlloc at ha
  split at ha
  · rename_i x hz
    obtain ⟨rfl, rfl⟩ := Prod.ext_iff.1 (some.inj ha)
    exact ⟨s.zone, h.zalloc x, fun _ hx => hx, rfl, rfl, .inr ⟨x, rfl, zalloc_spec hz, rfl⟩⟩
  · split at ha
    · cases ha
    · rename_i sc2 hold
      have hsc2 : sc2 ∈ s.zone := by
        have hl : s.zone ≠ [] := by
          intro hnil
          obtain ⟨i, -, hi⟩ := exists_of_findSome?_eq_some hold
          have hmem := h.lists.queues.mem (mem_of_mem_head? (mem_def.2 hi))
          rw [hnil] at hmem
          cases hmem
        obtain ⟨x, hx, hox⟩ := oldest_spec h.lists hl
        rw [hold] at hox; exact some.inj hox ▸ hx
      obtain ⟨u, hu⟩ : ∃ u, u = syncacheDrop (s.touch sc2) sc2 none := ⟨_, rfl⟩
      have hgood : Good u := hu ▸ Good.drop (Cached.touch h sc2) hsc2
      have hsub : u.zone ⊆ s.zone := by rw [hu, drop_zone]; exact erase_subset
      have hconf : u.conf = s.conf := hu ▸ drop_conf ..
      have hentry : u.entry = s.entry := hu ▸ drop_entry ..
      rw [← hu] at ha
      dsimp only at ha
      split at ha
      · rename_i x hz
        obtain ⟨rfl, rfl⟩ := Prod.ext_iff.1 (some.inj ha)
        exact ⟨u.zone, hgood.zalloc x, hsub, hconf, hentry, .inr ⟨x, rfl, zalloc_spec hz, rfl⟩⟩
      · obtain ⟨rfl, rfl⟩ := Prod.ext_iff.1 (some.inj ha)
        exact ⟨u.zone, hgood, hsub, hconf, hentry, .inl ⟨rfl, rfl⟩⟩

/-- The new entry goes into the cache or back to the zone. -/
theorem Cached.enterSyn (h : Cached s live) (hzone : s.zone = sc :: live) (hsc : sc ∉ live)
    {a : Syn} (hsch : s.conf.hash a.inc = sch)
    (hnew : ∀ x ∈ live, ¬SameEndpoints a.inc (s.entry x).sc_inc) :
    ∃ t r, syncacheEnter s a sc sch = some (t, r) ∧ Good t := by
  obtain ⟨u, hu⟩ : ∃ u, u = s.setEntry sc a.entry := ⟨_, rfl⟩
  have hcached : Cached u live := hu ▸ h.setEntry hsc _
  have huzone : u.zone = sc :: live := by rw [hu]; exact hzone
  have hself : u.entry sc = a.entry := by rw [hu]; exact update_self ..
  have hother : ∀ x ∈ live, u.entry x = s.entry x := by
    intro x hx
    rw [hu]; exact update_of_ne (ne_of_mem_of_not_mem hx hsc) ..
  have huconf : u.conf = s.conf := hu ▸ rfl
  unfold syncacheEnter
  dsimp only
  rw [← hu]
  split
  · exact ⟨_, _, rfl, hcached.free huzone⟩
  · split
    · obtain ⟨t, ht, hgood⟩ := insert_spec sch hcached huzone hsc
        (by rw [huconf, hself]; exact (hash_fill ..).trans hsch) fun x hx hsame => by
          rw [hself, hother x hx] at hsame; exact hnew x hx (same_fill_iff.1 hsame)
      rw [ht]; exact ⟨_, _, rfl, hgood⟩
    · exact ⟨_, _, rfl, hcached.free huzone⟩

theorem Good.add (h : Good s) {a : Syn} {r : Ret} (ha : syncacheAdd s a = some (t, r)) :
    Good t := by
  unfold syncacheAdd at ha
  split at ha
  · rename_i hf
    obtain ⟨rfl, -⟩ := Prod.ext_iff.1 (some.inj ha)
    exact h.dupsyn a (syncacheLookup_some h.lists hf).1
  · rename_i hf
    obtain ⟨hsch, hnew⟩ := syncacheLookup_none h.lists hf
    subst hsch
    split at ha
    · cases ha
    · rename_i halloc
      obtain ⟨rfl, -⟩ := Prod.ext_iff.1 (some.inj ha)
      obtain ⟨live, hcached, -, -, -, ⟨-, hzone⟩ | ⟨x, hx, -⟩⟩ := alloc_spec h halloc
      · unfold Good
        rw [hzone]; exact hcached
      · cases hx
    · rename_i halloc
      obtain ⟨live, hcached, hsub, hconf, hentry, ⟨hx, -⟩ | ⟨x, hx, hout, hzone⟩⟩ :=
        alloc_spec h halloc
      · cases hx
      · obtain rfl := some.inj hx
        obtain ⟨u, r', hu, hgood⟩ := hcached.enterSyn hzone hout (a := a)
          (by rw [hconf]) fun y hy => by rw [hentry]; exact hnew y (hsub hy)
        rw [hu] at ha
        obtain ⟨rfl, -⟩ := Prod.ext_iff.1 (some.inj ha)
        exact hgood

/-- Softclock takes a callout off its wheel to call the handler. -/
theorem Good.fire (h : Good s) {d : ℕ} (hd : (s.tt_timerq slot).pending = some d) :
    Good (s.setCallout slot { s.tt_timerq slot with pending := none, called := true }) := by
  refine ⟨h.lists.congr rfl rfl rfl rfl le_rfl (fun _ _ => rfl) (fun _ _ => rfl) fun _ _ => rfl,
    fun i => ?_, h.bounded.congr rfl rfl rfl⟩
  by_cases hi : i = slot
  · subst hi
    have hself : (s.setCallout i { s.tt_timerq i with pending := none, called := true }).tt_timerq
        i = { s.tt_timerq i with pending := none, called := true } := update_self ..
    refine ⟨⟨?_, ?_, ?_, ?_, fun _ _ => ?_⟩, ?_⟩
    · rw [hself]; exact (h.armed i).active
    · rw [hself]; exact fun _ _ => (h.armed i).pending d hd
    · rw [hself]
      intro d' hd'
      cases hd'
    · rw [hself]
      intro d' hd'
      cases hd'
    · rw [hself]
    · rw [hself]; exact (h.armed i).ne_nil
  · exact (h.armed i).congr rfl rfl (update_of_ne hi ..) le_rfl fun _ _ => rfl

/-- Every event keeps what holds between events. -/
theorem Good.step (h : Good s) {e : Event} {r : Answer} (hs : step s e = some (t, r)) : Good t := by
  cases e with
  | add a =>
    obtain ⟨⟨u, r'⟩, hu, hx⟩ := map_eq_some_iff.1 hs
    obtain ⟨rfl, -⟩ := Prod.ext_iff.1 hx
    exact h.add hu
  | expand a =>
    obtain ⟨rfl, -⟩ := Prod.ext_iff.1 (some.inj hs)
    exact h.expand a
  | chkrst inc th_seq =>
    obtain ⟨rfl, -⟩ := Prod.ext_iff.1 (some.inj hs)
    exact h.chkrst inc th_seq
  | badack inc =>
    obtain ⟨rfl, -⟩ := Prod.ext_iff.1 (some.inj hs)
    exact h.badack inc
  | unreach inc th_seq =>
    obtain ⟨rfl, -⟩ := Prod.ext_iff.1 (some.inj hs)
    exact h.unreach inc th_seq
  | fire slot =>
    unfold TcpSyncache.step at hs
    dsimp only at hs
    split at hs
    · cases hs
    · rename_i d hd
      split at hs
      · obtain ⟨rfl, -⟩ := Prod.ext_iff.1 (some.inj hs)
        exact h.fire hd
      · cases hs
  | timer slot inpcb =>
    unfold TcpSyncache.step at hs
    dsimp only at hs
    split at hs
    · obtain ⟨rfl, -⟩ := Prod.ext_iff.1 (some.inj hs)
      exact (timer_spec h rfl).1
    · cases hs
  | tick =>
    obtain ⟨rfl, -⟩ := Prod.ext_iff.1 (some.inj hs)
    exact Cached.congr h rfl rfl rfl rfl rfl (Nat.le_succ _) (fun _ _ => rfl) (fun _ _ => rfl)
      fun _ _ => rfl
  | rexmtlimit n =>
    obtain ⟨rfl, -⟩ := Prod.ext_iff.1 (some.inj hs)
    exact Cached.congr h rfl rfl rfl rfl rfl le_rfl (fun _ _ => rfl) (fun _ _ => rfl)
      fun _ _ => rfl

theorem good_init (conf : Conf) (rexmt_limit ticks : ℕ) (entry : Sid → Syncache)
    (ts_recent : ℕ → ℕ) : Good (init conf rexmt_limit ticks entry ts_recent) where
  lists :=
    { nodup := nodup_nil
      buckets := ⟨fun _ _ => by simp [init], fun _ => nodup_nil⟩
      queues := ⟨fun _ _ => by simp [init], fun _ => nodup_nil⟩
      slot_le := fun _ h => (by cases h)
      distinct := fun _ h => (by cases h)
      length := fun _ => rfl
      count := rfl
      sorted := fun _ => List.Pairwise.nil
      ahead := fun _ h => (by cases h) }
  armed _ := Armed.of_empty rfl rfl rfl
  bounded := ⟨fun _ => Nat.zero_le _, Nat.zero_le _⟩

/-! ## Runs -/

/-- The lists, the counts and the callouts agree with the entries that the zone has given out. -/
structure Consistent (s : State) : Prop where
  nodup : s.zone.Nodup
  bucket : ∀ b sc, (s.hashbase b).sch_bucket.count sc =
    if sc ∈ s.zone ∧ b = s.conf.hash (s.entry sc).sc_inc then 1 else 0
  queue : ∀ i sc, (s.timerq i).count sc =
    if sc ∈ s.zone ∧ i = (s.entry sc).sc_rxtslot then 1 else 0
  slot_le : ∀ sc ∈ s.zone, (s.entry sc).sc_rxtslot ≤ maxRexmts
  distinct : ∀ a ∈ s.zone, ∀ b ∈ s.zone,
    SameEndpoints (s.entry a).sc_inc (s.entry b).sc_inc → a = b
  length : ∀ b, (s.hashbase b).sch_length = (s.hashbase b).sch_bucket.length ∧
    (s.hashbase b).sch_length ≤ s.conf.bucket_limit
  count : s.cache_count = s.zone.length ∧ s.cache_count ≤ s.conf.cache_limit
  sorted : ∀ i, (s.timerq i).Pairwise fun a b => (s.entry a).sc_rxttime ≤ (s.entry b).sc_rxttime
  /-- A queue has entries exactly when its callout is active. -/
  active : ∀ i, s.timerq i ≠ [] ↔ (s.tt_timerq i).active = true
  /-- It is due no later than the first entry, or its handler was called. -/
  due : ∀ i, ∀ sc ∈ (s.timerq i).head?,
    (∃ d, (s.tt_timerq i).pending = some d ∧ d ≤ (s.entry sc).sc_rxttime) ∨
      (s.tt_timerq i).pending = none ∧ (s.tt_timerq i).called = true
  idle : ∀ i, s.timerq i = [] → (s.tt_timerq i).pending = none
  /-- The time of an entry is no further ahead than the timeout of its slot. -/
  ahead : ∀ sc ∈ s.zone,
    (s.entry sc).sc_rxttime ≤ s.ticks + s.conf.rto (s.entry sc).sc_rxtslot
  /-- When it has come, softclock can take the callout off its wheel or call the handler. -/
  overdue : ∀ sc ∈ s.zone, (s.entry sc).sc_rxttime ≤ s.ticks →
    (step s (.fire (s.entry sc).sc_rxtslot)).isSome ∨
      ∀ inpcb, (step s (.timer (s.entry sc).sc_rxtslot inpcb)).isSome

theorem Good.overdue (h : Good s) (hsc : sc ∈ s.zone) (hover : (s.entry sc).sc_rxttime ≤ s.ticks) :
    (TcpSyncache.step s (.fire (s.entry sc).sc_rxtslot)).isSome ∨
      ∀ inpcb, (TcpSyncache.step s (.timer (s.entry sc).sc_rxtslot inpcb)).isSome := by
  obtain ⟨i, hi⟩ : ∃ i, i = (s.entry sc).sc_rxtslot := ⟨_, rfl⟩
  have hmem : sc ∈ s.timerq i := hi ▸ h.lists.queues.mem_list hsc
  have hact := (h.armed i).active (ne_nil_of_mem hmem)
  rw [← hi]
  cases hcalled : (s.tt_timerq i).called with
  | true =>
    right
    intro inpcb
    unfold TcpSyncache.step
    dsimp only
    rw [if_pos hcalled]; rfl
  | false =>
    left
    cases hpend : (s.tt_timerq i).pending with
    | none =>
      rw [(h.armed i).called hact hpend] at hcalled
      cases hcalled
    | some d =>
      have hd : d ≤ s.ticks := ((h.armed i).due d hpend sc hmem).trans hover
      unfold TcpSyncache.step
      dsimp only
      rw [hpend]
      dsimp only
      rw [if_pos ⟨hd, hcalled⟩]; rfl

/-- A list that files its elements has each of them once. -/
theorem count_of_filed {κ : Type*} [DecidableEq κ] {key : Sid → κ} {lists : κ → List Sid}
    (h : Filed key lists live) (k : κ) (sc : Sid) :
    (lists k).count sc = if sc ∈ live ∧ k = key sc then 1 else 0 := by
  split
  · rename_i hin
    exact count_eq_one_of_mem (h.nodup k) ((h.mem_iff k sc).2 ⟨hin.1, hin.2.symm⟩)
  · rename_i hout
    refine count_eq_zero_of_not_mem fun hmem => hout ?_
    obtain ⟨hin, hk⟩ := (h.mem_iff k sc).1 hmem
    exact ⟨hin, hk.symm⟩

theorem Good.consistent (h : Good s) : Consistent s where
  nodup := h.lists.nodup
  bucket := count_of_filed h.lists.buckets
  queue := count_of_filed h.lists.queues
  slot_le := h.lists.slot_le
  distinct := h.lists.distinct
  length b := ⟨h.lists.length b, h.bounded.bucket b⟩
  count := ⟨h.lists.count, h.bounded.cache⟩
  sorted := h.lists.sorted
  active i := ⟨(h.armed i).active, (h.armed i).ne_nil⟩
  due i sc hsc := by
    have hmem : sc ∈ s.timerq i := mem_of_mem_head? hsc
    cases hpend : (s.tt_timerq i).pending with
    | some d => exact .inl ⟨d, rfl, (h.armed i).due d hpend sc hmem⟩
    | none =>
      have hact := (h.armed i).active (ne_nil_of_mem hmem)
      exact .inr ⟨rfl, (h.armed i).called hact hpend⟩
  idle i hnil := by
    cases hpend : (s.tt_timerq i).pending with
    | none => rfl
    | some d => exact absurd hnil ((h.armed i).ne_nil ((h.armed i).pending d hpend))
  ahead := h.lists.ahead
  overdue _ hsc hover := h.overdue hsc hover

theorem Good.of_run {conf : Conf} {rexmt_limit ticks : ℕ} {entry : Sid → Syncache}
    {ts_recent : ℕ → ℕ}
    (h : Runs TcpSyncache.step (fun _ _ => True) (init conf rexmt_limit ticks entry ts_recent) s) :
    Good s :=
  h.invariant (good_init ..) fun _ _ _ _ hgood _ hs => hgood.step hs

/-- In every state that is reached, the lists, the counts and the callouts agree with the entries,
    and a handler whose callout was not set again drops or sends again every entry that is
    overdue. -/
theorem syncache_of_run {conf : Conf} {rexmt_limit ticks : ℕ} {entry : Sid → Syncache}
    {ts_recent : ℕ → ℕ}
    (h : Runs step (fun _ _ => True) (init conf rexmt_limit ticks entry ts_recent) s) :
    Consistent s ∧ ∀ slot inpcb t sent, step s (.timer slot inpcb) = some (t, .sent sent) →
      (s.tt_timerq slot).pending = none →
      ∀ sc ∈ s.timerq slot, (s.entry sc).sc_rxttime ≤ s.ticks → Served s t slot sent sc := by
  have hgood : Good s := Good.of_run h
  refine ⟨hgood.consistent, fun slot inpcb t sent hs hpend sc hsc hover => ?_⟩
  unfold step at hs
  dsimp only at hs
  split at hs
  · obtain ⟨ht, hsent⟩ := Prod.ext_iff.1 (Option.some.inj hs)
    obtain rfl : _ = sent := Answer.sent.inj hsent
    dsimp only at ht
    subst ht; exact (timer_spec hgood rfl).2 hpend sc hsc hover
  · cases hs

/-- A SYN comes in; when three ticks have passed, softclock calls the handler for its entry. -/
theorem syncache_of_run_syn : ∃ s : State, s.timerq 0 = [7] ∧ s.cache_count = 1 ∧
    ∀ inpcb t sent, step s (.timer 0 inpcb) = some (t, .sent sent) → Served s t 0 sent 7 := by
  obtain ⟨inc, hinc⟩ : ∃ inc : InConninfo, inc =
    ⟨false, 1024, 80, ⟨0, 0, 0, 0x0a000001⟩, ⟨0, 0, 0, 0x0a000002⟩⟩ := ⟨_, rfl⟩
  obtain ⟨conf, hconf⟩ : ∃ conf : Conf, conf =
    ⟨511, 99, 30, 100, 1, by decide, by decide, by decide⟩ := ⟨_, rfl⟩
  obtain ⟨s, hrun, hs⟩ := exists_of_exec step (P := fun _ _ => True)
    (s := init conf 3 5 (fun _ => ⟨0, 0, inc, 0, 0, 0, 0, 0, false⟩) fun _ => 0)
    (f := fun s => (s.timerq 0, s.zone, (s.entry 7).sc_rxttime, s.ticks,
      (s.tt_timerq 0).pending))
    (b := ([7], [7], 8, 8, none))
    [.add ⟨inc, 1000, 1, 2, 3, some 7, none, 5000, 4096, false, none, true⟩,
      .tick, .tick, .tick, .fire 0] (fun _ _ _ => trivial) (by subst hinc hconf; rfl)
  obtain ⟨hq, hzone, htime, hticks, hpend⟩ : s.timerq 0 = [7] ∧ s.zone = [7] ∧
      (s.entry 7).sc_rxttime = 8 ∧ s.ticks = 8 ∧ (s.tt_timerq 0).pending = none := by
    simpa only [Prod.mk.injEq] using hs
  obtain ⟨hcons, hserved⟩ := syncache_of_run hrun
  refine ⟨s, hq, ?_, fun inpcb t sent ht => ?_⟩
  · rw [hcons.count.1, hzone]; rfl
  · exact hserved 0 inpcb t sent ht hpend 7 (by rw [hq]; exact mem_singleton_self 7)
      (by rw [htime, hticks])

end FreeBSD.TcpSyncache
