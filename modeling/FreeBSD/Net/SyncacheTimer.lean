import FreeBSD.Net.SyncacheSteps

/-!
# The SYN cache: the handler of a callout

While the handler works on its queue, the callout of this queue is off and the others are as
between events (`Serving`).

Results:
* `Serving.drop`, `Serving.respond`: what is kept while the front entry goes.
* `timerLoop_spec`: every entry that is overdue has left the cache or was sent again.
* `timer_spec`: the handler leaves the cache as it is between events.
-/

namespace FreeBSD.TcpSyncache

open Lib List Function

variable {s t : State} {sc x : Sid} {slot : ℕ} {rest : List Sid}

/-- The handler works on the queue of `slot`, which has `rest` left. -/
structure Serving (s : State) (slot : ℕ) (rest : List Sid) : Prop where
  lists : Lists s s.zone
  others : ∀ i, i ≠ slot → Armed s i
  active : (s.tt_timerq slot).active = false
  pending : (s.tt_timerq slot).pending = none
  bounded : Bounded s
  queue : s.timerq slot = rest

theorem Serving.nodup (h : Serving s slot rest) : rest.Nodup := h.queue ▸ h.lists.queues.nodup slot

theorem Serving.mem_zone (h : Serving s slot rest) (hx : x ∈ rest) : x ∈ s.zone :=
  h.lists.queues.mem (h.queue ▸ hx)

theorem Serving.slot_eq (h : Serving s slot rest) (hx : x ∈ rest) :
    (s.entry x).sc_rxtslot = slot := h.lists.queues.key_eq (h.queue ▸ hx)

theorem Serving.sorted (h : Serving s slot rest) :
    rest.Pairwise fun a b => (s.entry a).sc_rxttime ≤ (s.entry b).sc_rxttime :=
  h.queue ▸ h.lists.sorted slot

/-- The front entry leaves the cache. -/
theorem Serving.drop (h : Serving s slot (sc :: rest)) :
    Serving (syncacheDrop s sc none) slot rest := by
  have hslot : (s.entry sc).sc_rxtslot = slot := h.slot_eq mem_cons_self
  have hc : ((syncacheDrop s sc none).tt_timerq slot).active = false ∧
      ((syncacheDrop s sc none).tt_timerq slot).pending = none := by
    rw [drop_tt_timerq, hslot]
    split
    · rw [update_self]; exact ⟨rfl, rfl⟩
    · exact ⟨h.active, h.pending⟩
  refine ⟨?_, fun i hi => (h.others i hi).drop sc, hc.1, hc.2, h.bounded.drop sc, ?_⟩
  · rw [drop_zone]; exact h.lists.drop (h.mem_zone mem_cons_self)
  · rw [drop_timerq, hslot, update_self, h.queue, erase_cons_head]

/-- The front entry goes to the next queue. -/
theorem Serving.respond (h : Serving s slot (sc :: rest)) (hmax : slot ≠ maxRexmts) :
    Serving (syncacheTimeout (s.dequeue sc) sc (slot + 1)) slot rest := by
  have hslot : (s.entry sc).sc_rxtslot = slot := h.slot_eq mem_cons_self
  have hmem : sc ∈ s.zone := h.mem_zone mem_cons_self
  have hnext : slot + 1 ≤ maxRexmts := by
    have hle := h.lists.slot_le sc hmem; omega
  have hc : (syncacheTimeout (s.dequeue sc) sc (slot + 1)).tt_timerq slot = s.tt_timerq slot := by
    rw [timeout_tt_timerq]
    split
    · rfl
    · rw [update_of_ne (ne_of_lt (Nat.lt_succ_self slot))]; rfl
  refine ⟨?_, fun i hi => ?_, ?_, ?_, ?_, ?_⟩
  · rw [timeout_zone]; exact h.lists.requeue hmem hnext
  · exact (h.others i hi).requeue h.lists hnext (.inr (hslot ▸ hi))
  · rw [hc]; exact h.active
  · rw [hc]; exact h.pending
  · exact h.bounded.congr (timeout_conf ..) (timeout_hashbase ..) (timeout_cache_count ..)
  · rw [timeout_timerq, update_of_ne (ne_of_lt (Nat.lt_succ_self slot))]
    show Function.update s.timerq (s.entry sc).sc_rxtslot _ slot = rest
    rw [hslot, update_self, h.queue, erase_cons_head]

/-- What the handler does with an entry that is overdue: it leaves the cache, or it is sent again
    and goes to the next queue. -/
def Served (s t : State) (slot : ℕ) (sent : List Sid) (x : Sid) : Prop :=
  x ∉ t.zone ∨ x ∈ sent ∧ x ∈ t.timerq (slot + 1) ∧
    (t.entry x).sc_rxttime = s.ticks + s.conf.rto (slot + 1)

/-- What the loop does to the entries outside of the queue: nothing. -/
structure Apart (s t : State) (rest : List Sid) : Prop where
  conf : t.conf = s.conf
  ticks : t.ticks = s.ticks
  entry : ∀ x, x ∉ rest → t.entry x = s.entry x
  zone : ∀ x, x ∉ rest → (x ∈ t.zone ↔ x ∈ s.zone)

/-- One turn, and the others. -/
theorem Apart.cons {u : State} (hconf : t.conf = s.conf) (hticks : t.ticks = s.ticks)
    (hentry : ∀ x, x ≠ sc → t.entry x = s.entry x) (hzone : ∀ x, x ≠ sc → (x ∈ t.zone ↔ x ∈ s.zone))
    (h : Apart t u rest) : Apart s u (sc :: rest) where
  conf := h.conf.trans hconf
  ticks := h.ticks.trans hticks
  entry x hx := (h.entry x (not_mem_of_not_mem_cons hx)).trans
    (hentry x (ne_of_not_mem_cons hx))
  zone x hx := (h.zone x (not_mem_of_not_mem_cons hx)).trans
    (hzone x (ne_of_not_mem_cons hx))

/-- The loop ends at the first entry that is not due, with every other one served. -/
theorem timerLoop_spec (inpcb : ℕ → Option ℕ) (h : Serving s slot rest) :
    ∃ t rest' sent, syncacheTimerLoop slot inpcb s rest = (t, rest'.head?, sent) ∧
      Serving t slot rest' ∧ Apart s t rest ∧
      (∀ x ∈ rest'.head?, t.ticks < (t.entry x).sc_rxttime) ∧
      ∀ x ∈ rest, (s.entry x).sc_rxttime ≤ s.ticks → Served s t slot sent x := by
  induction rest generalizing s with
  | nil =>
    refine ⟨s, [], [], rfl, h, ⟨rfl, rfl, fun _ _ => rfl, fun _ _ => Iff.rfl⟩, ?_, ?_⟩
    · intro x hx
      cases hx
    · intro x hx
      cases hx
  | cons sc rest ih =>
    obtain ⟨hout, -⟩ := nodup_cons.1 h.nodup
    by_cases hdue : s.ticks < (s.entry sc).sc_rxttime
    · refine ⟨s, sc :: rest, [], by rw [syncacheTimerLoop, if_pos hdue]; rfl, h,
        ⟨rfl, rfl, fun _ _ => rfl, fun _ _ => Iff.rfl⟩, ?_, ?_⟩
      · intro x hx
        obtain rfl : sc = x := Option.some.inj hx
        exact hdue
      · intro x hx hover
        rcases mem_cons.1 hx with rfl | hx
        · omega
        · have hle := (pairwise_cons.1 h.sorted).1 x hx; omega
    · by_cases hgo : slot = maxRexmts ∨ s.rexmt_limit ≤ slot ∨
          inpcb (s.entry sc).sc_tp ≠ some (s.entry sc).sc_inp_gencnt
      · obtain ⟨t, rest', sent, hloop, hserv, hapart, hhead, hall⟩ := ih h.drop
        refine ⟨t, rest', sent, by rw [syncacheTimerLoop, if_neg hdue, if_pos hgo]; exact hloop,
          hserv, ?_, hhead, ?_⟩
        · refine hapart.cons (drop_conf ..) (drop_ticks ..) (fun x _ => by rw [drop_entry]) ?_
          intro x hx
          rw [drop_zone, mem_erase_of_ne hx]
        · intro x hx hover
          rcases mem_cons.1 hx with rfl | hx
          · left
            rw [hapart.zone x hout, drop_zone]; exact h.lists.nodup.not_mem_erase
          · have hserved := hall x hx
            rw [drop_entry, drop_ticks] at hserved
            have hserved := hserved hover
            unfold Served at hserved ⊢; rwa [drop_ticks, drop_conf] at hserved
      · have hmax : slot ≠ maxRexmts := fun h => hgo (.inl h)
        have hslot : (s.entry sc).sc_rxtslot = slot := h.slot_eq mem_cons_self
        have hdeq : s.setQueue slot ((s.timerq slot).erase sc) = s.dequeue sc := by
          unfold State.dequeue
          rw [hslot]
        obtain ⟨t, rest', sent, hloop, hserv, hapart, hhead, hall⟩ := ih (h.respond hmax)
        refine ⟨t, rest', sc :: sent, ?_, hserv, ?_, hhead, ?_⟩
        · rw [syncacheTimerLoop, if_neg hdue, if_neg hgo]
          dsimp only
          rw [hdeq, hloop]
        · refine Apart.cons (by rw [timeout_conf]; rfl) (by rw [timeout_ticks]; rfl) ?_ ?_ hapart
          · intro x hx
            rw [timeout_entry_of_ne hx]; rfl
          · intro x _
            rw [timeout_zone]; rfl
        · intro x hx hover
          rcases mem_cons.1 hx with rfl | hx
          · have hin : x ∈ t.zone := by
              rw [hapart.zone x hout, timeout_zone]; exact h.mem_zone mem_cons_self
            have hentry := hapart.entry x hout
            refine .inr ⟨mem_cons_self, ?_, ?_⟩
            · refine (hserv.lists.queues.mem_iff _ _).2 ⟨hin, ?_⟩
              rw [hentry, timeout_sc_rxtslot]
            · rw [hentry, timeout_sc_rxttime]; rfl
          · have hne : x ≠ sc := ne_of_mem_of_not_mem hx hout
            have hserved := hall x hx
            rw [timeout_entry_of_ne hne, timeout_ticks] at hserved
            rcases hserved hover with hgone | ⟨hsent, hq, htime⟩
            · exact .inl hgone
            · rw [timeout_ticks, timeout_conf] at htime
              exact .inr ⟨mem_cons_of_mem _ hsent, hq, htime⟩

/-- The callout of the queue is set again for the first entry that is left. -/
theorem Serving.reset (h : Serving s slot rest) {nsc : Sid} (hhead : rest.head? = some nsc)
    (hdue : s.ticks < (s.entry nsc).sc_rxttime) :
    Good (s.setCallout slot
      ((s.tt_timerq slot).reset s.ticks ((s.entry nsc).sc_rxttime - s.ticks))) := by
  obtain ⟨c, hc⟩ : ∃ c, c = (s.tt_timerq slot).reset s.ticks
    ((s.entry nsc).sc_rxttime - s.ticks) := ⟨_, rfl⟩
  have hpend : c.pending = some (s.entry nsc).sc_rxttime := by
    rw [hc]
    show some (s.ticks + max ((s.entry nsc).sc_rxttime - s.ticks) 1) = _
    congr 1
    omega
  have hact : c.active = true := by rw [hc]; rfl
  have hself : (s.setCallout slot c).tt_timerq slot = c := update_self ..
  obtain ⟨rest', rfl⟩ : ∃ rest', rest = nsc :: rest' := List.head?_eq_some_iff.1 hhead
  rw [← hc]
  refine ⟨h.lists.congr rfl rfl rfl rfl le_rfl (fun _ _ => rfl) (fun _ _ => rfl) fun _ _ => rfl,
    fun i => ?_, h.bounded.congr rfl rfl rfl⟩
  by_cases hi : i = slot
  · subst hi
    have hq : (s.setCallout i c).timerq i = nsc :: rest' := h.queue
    refine ⟨⟨fun _ => ?_, fun _ _ => ?_, ?_, ?_, fun _ hnone => ?_⟩, fun _ => ?_⟩
    · rw [hself]; exact hact
    · rw [hself]; exact hact
    · rw [hself, hpend, hq]
      intro d hd x hx
      obtain rfl : (s.entry nsc).sc_rxttime = d := Option.some.inj hd
      rcases mem_cons.1 hx with rfl | hx
      · exact le_rfl
      · exact (pairwise_cons.1 h.sorted).1 x hx
    · rw [hself, hpend]
      intro d hd
      obtain rfl : (s.entry nsc).sc_rxttime = d := Option.some.inj hd
      have hahead := h.lists.ahead nsc (h.mem_zone mem_cons_self)
      rw [h.slot_eq mem_cons_self] at hahead; exact hahead
    · rw [hself, hpend] at hnone
      cases hnone
    · rw [hq]; exact cons_ne_nil _ _
  · exact (h.others i hi).congr rfl rfl (update_of_ne hi ..) le_rfl fun _ _ => rfl

/-- With nothing left, the callout of the queue stays off. -/
theorem Serving.done (h : Serving s slot []) : Good s := by
  refine ⟨h.lists, fun i => ?_, h.bounded⟩
  by_cases hi : i = slot
  · subst hi; exact Armed.of_empty h.queue h.active h.pending
  · exact h.others i hi

/-- The handler begins: the callout is off. -/
theorem Good.serving (h : Good s) (slot : ℕ) {c : Callout} (hact : c.active = false)
    (hpend : c.pending = none) : Serving (s.setCallout slot c) slot (s.timerq slot) where
  lists := h.lists.congr rfl rfl rfl rfl le_rfl (fun _ _ => rfl) (fun _ _ => rfl) fun _ _ => rfl
  others i hi := (h.armed i).congr rfl rfl (update_of_ne hi ..) le_rfl fun _ _ => rfl
  active := by
    rw [show (s.setCallout slot c).tt_timerq slot = c from update_self ..]; exact hact
  pending := by
    rw [show (s.setCallout slot c).tt_timerq slot = c from update_self ..]; exact hpend
  bounded := h.bounded.congr rfl rfl rfl
  queue := rfl

/-- A callout that is on the wheel or off needs no handler. -/
theorem Good.uncalled (h : Good s) (called : Bool)
    (hout : (s.tt_timerq slot).pending.isSome ∨ (s.tt_timerq slot).active = false) :
    Good (s.setCallout slot { s.tt_timerq slot with called := called }) := by
  refine ⟨h.lists.congr rfl rfl rfl rfl le_rfl (fun _ _ => rfl) (fun _ _ => rfl) fun _ _ => rfl,
    fun i => ?_, h.bounded.congr rfl rfl rfl⟩
  by_cases hi : i = slot
  · subst hi
    have hself : (s.setCallout i { s.tt_timerq i with called := called }).tt_timerq i =
        { s.tt_timerq i with called := called } := update_self ..
    refine ⟨⟨?_, ?_, ?_, ?_, fun hact hnone => ?_⟩, ?_⟩
    · rw [hself]; exact (h.armed i).active
    · rw [hself]; exact (h.armed i).pending
    · rw [hself]; exact (h.armed i).due
    · rw [hself]; exact (h.armed i).ahead
    · rw [hself] at hact hnone
      rcases hout with hsome | hoff
      · rw [show (s.tt_timerq i).pending = none from hnone] at hsome
        cases hsome
      · rw [show (s.tt_timerq i).active = true from hact] at hoff
        cases hoff
    · rw [hself]; exact (h.armed i).ne_nil
  · exact (h.armed i).congr rfl rfl (update_of_ne hi ..) le_rfl fun _ _ => rfl

/-- The handler leaves the cache as it is between events. If the callout was not set again
    meanwhile, it serves every entry that is overdue. -/
theorem timer_spec {inpcb : ℕ → Option ℕ} (h : Good s) {called : Bool} {t : State} {sent : List Sid}
    (ht : syncacheTimer (s.setCallout slot { s.tt_timerq slot with called := called }) slot inpcb =
      (t, sent)) :
    Good t ∧ ((s.tt_timerq slot).pending = none →
      ∀ x ∈ s.timerq slot, (s.entry x).sc_rxttime ≤ s.ticks → Served s t slot sent x) := by
  have hself : (s.setCallout slot { s.tt_timerq slot with called := called }).tt_timerq slot =
      { s.tt_timerq slot with called := called } := update_self ..
  unfold syncacheTimer at ht
  dsimp only at ht
  rw [hself] at ht
  by_cases hout : (s.tt_timerq slot).pending.isSome ∨ (s.tt_timerq slot).active = false
  · rw [if_pos hout] at ht
    obtain ⟨rfl, rfl⟩ := Prod.ext_iff.1 ht
    refine ⟨h.uncalled called hout, fun hnone x hx => ?_⟩
    rcases hout with hsome | hoff
    · rw [hnone] at hsome
      cases hsome
    · rw [(h.armed slot).active (ne_nil_of_mem hx)] at hoff
      cases hoff
  · rw [if_neg hout] at ht
    obtain ⟨hpend, -⟩ := not_or.1 hout
    have hpend : (s.tt_timerq slot).pending = none := by
      simpa using hpend
    have hserv : Serving ((s.setCallout slot { s.tt_timerq slot with called := called }).setCallout
        slot (Callout.deactivate { s.tt_timerq slot with called := called })) slot
        (s.timerq slot) := by
      have hs := h.serving slot
        (c := Callout.deactivate { s.tt_timerq slot with called := called }) rfl hpend
      unfold State.setCallout at hs ⊢
      dsimp only
      rw [update_idem]; exact hs
    obtain ⟨u, rest', sent', hloop, hu, hapart, hhead, hall⟩ :=
      timerLoop_spec inpcb hserv
    rw [show ((s.setCallout slot { s.tt_timerq slot with called := called }).setCallout slot
      (Callout.deactivate { s.tt_timerq slot with called := called })).timerq slot =
      s.timerq slot from rfl, hloop] at ht
    have hserved : ∀ x ∈ s.timerq slot, (s.entry x).sc_rxttime ≤ s.ticks →
        Served s u slot sent' x := hall
    cases hfirst : rest'.head? with
    | none =>
      rw [hfirst] at ht
      obtain ⟨rfl, rfl⟩ := Prod.ext_iff.1 ht
      rw [List.head?_eq_none_iff.1 hfirst] at hu; exact ⟨hu.done, fun _ => hserved⟩
    | some nsc =>
      rw [hfirst] at ht
      obtain ⟨rfl, rfl⟩ := Prod.ext_iff.1 ht
      exact ⟨hu.reset hfirst (hhead nsc (by rw [hfirst]; rfl)), fun _ => hserved⟩

end FreeBSD.TcpSyncache
