import FreeBSD.Lib.Runs
import FreeBSD.Kern.SwitchSteps

/-!
# Sequences of calls on the run queues

* `adjustrunqueue_keeps`, `choosethread_keeps` — a thread leaves the queue of its group.
* `step_keeps` — no assertion fails, and every event keeps the invariant.
* `runqueues_of_run` — what holds after any sequence of events.
-/

namespace FreeBSD.KernSwitch

open Lib SplitQueue List

set_option linter.unusedSectionVars false

variable {Td Ke Kg : Type} [DecidableEq Td] [DecidableEq Ke] [DecidableEq Kg]
  {g : Groups Td Ke Kg} {s s' u : Sys Td Ke Kg} {td : Td} {ke : Ke} {kg : Kg}
  {xs ys : List Td} {state : TdState}

/-- A thread with a KSE leaves its queue and goes to another state, and its KSE leaves the run
queue. -/
theorem leave_assigned (h : Inv g s) (hsa : g.sa (g.tdKsegrp td) = true)
    (hstate : s.tdState td = .runq) (hk : s.tdKse td = some ke) (hnew : state ≠ .runq) :
    Inv g (((((removed s ke).stepBack (g.tdKsegrp td) td).setRunq (g.tdKsegrp td)
      ((s.kgRunq (g.tdKsegrp td)).erase td)).addRunnable (g.tdKsegrp td) (-1)).setState td
      state) := by
  obtain ⟨kg, hkg⟩ : ∃ kg, g.tdKsegrp td = kg := ⟨_, rfl⟩
  rw [hkg] at hsa ⊢
  obtain ⟨xs, ys, hg⟩ := h.groups kg hsa
  have hmem : td ∈ xs ++ ys := by
    have hm := (hg.members td).2 ⟨hkg, hstate⟩
    rwa [append_nil] at hm
  have hkkg : g.keKsegrp ke = kg := (h.base.sameGroup td ke hk).trans hkg
  have hback : (removed s ke).stepBack kg td = (removed s ke).setLast kg (xs.erase td).getLast? :=
    stepBack_eq hg hmem hg.queue hg.last
  rw [hback, hg.queue]
  have hbase : Base g ((((removed s ke).setLast kg (xs.erase td).getLast?).setRunq kg
      ((xs ++ ys).erase td)).addRunnable kg (-1)) :=
    h.base.removed.setLast.setRunq.addRunnable
  have hne : ∀ kg', kg' ≠ kg → kg ≠ kg' := fun kg' hne => Ne.symm hne
  refine h.of_group kg (hbase.setState (.inr fun k hk' => ?_)) (fun kg' hkg' => ?_)
    (fun _ => ⟨xs.erase td, ys.erase td, ?_⟩) (fun hsa' => by rw [hsa] at hsa'; cases hsa')
  · have hkk : k = ke := by
      have hk'' : s.tdKse td = some k := hk'
      rw [hk] at hk''; exact (Option.some.inj hk'').symm
    simp [hkk, Sys.addRunnable, Sys.setRunq, Sys.setLast, removed]
  · exact ((((sameGroup_removed (hkkg ▸ Ne.symm hkg')).trans (sameGroup_setLast hkg')).trans
      (sameGroup_setRunq hkg')).trans (sameGroup_addRunnable hkg')).trans
      (sameGroup_setState (hkg ▸ Ne.symm hkg'))
  · refine hg.leave h.base ?_ hmem ?_ ?_ ?_ (fun t ht => ?_) (fun _ _ => rfl) rfl rfl
      (fun k hk' => ?_) (fun k hk' => ?_) rfl rfl
    · simp [Sys.setState, Sys.addRunnable, Sys.setRunq]
    · simp [Sys.setState, Sys.addRunnable, Sys.setRunq, Sys.setLast]
    · simp [Sys.setState, Sys.addRunnable, Sys.setRunq, Sys.setLast, removed]
    · simpa [Sys.setState] using hnew
    · simp [Sys.setState, Sys.addRunnable, Sys.setRunq, Sys.setLast, removed, ht]
    · have hkk : k ≠ ke := by
        rintro rfl
        exact hk' hk
      simp [Sys.setState, Sys.addRunnable, Sys.setRunq, Sys.setLast, removed, hkk]
    · rw [hk] at hk'
      obtain rfl := Option.some.inj hk'
      simp [Sys.setState, Sys.addRunnable, Sys.setRunq, Sys.setLast, removed]

/-- A thread without a KSE leaves its queue. -/
theorem leave_unassigned (h : Inv g s) (hsa : g.sa (g.tdKsegrp td) = true)
    (hstate : s.tdState td = .runq) (hk : s.tdKse td = none) (hnew : state ≠ .runq) :
    Inv g (((s.setRunq (g.tdKsegrp td) ((s.kgRunq (g.tdKsegrp td)).erase td)).addRunnable
      (g.tdKsegrp td) (-1)).setState td state) := by
  obtain ⟨kg, hkg⟩ : ∃ kg, g.tdKsegrp td = kg := ⟨_, rfl⟩
  rw [hkg] at hsa ⊢
  obtain ⟨xs, ys, hg⟩ := h.groups kg hsa
  have hmem : td ∈ xs ++ ys := by
    have hm := (hg.members td).2 ⟨hkg, hstate⟩
    rwa [append_nil] at hm
  have hnot : td ∉ xs := fun hx => by
    obtain ⟨k, hk', -⟩ := hg.assigned td hx
    rw [hk] at hk'
    cases hk'
  rw [hg.queue]
  have hbase : Base g ((s.setRunq kg ((xs ++ ys).erase td)).addRunnable kg (-1)) :=
    h.base.setRunq.addRunnable
  refine h.of_group kg (hbase.setState (.inr fun k hk' => ?_)) (fun kg' hkg' => ?_)
    (fun _ => ⟨xs.erase td, ys.erase td, ?_⟩) (fun hsa' => by rw [hsa] at hsa'; cases hsa')
  · have hk'' : s.tdKse td = some k := hk'
    rw [hk] at hk''
    cases hk''
  · exact ((sameGroup_setRunq hkg').trans (sameGroup_addRunnable hkg')).trans
      (sameGroup_setState (hkg ▸ Ne.symm hkg'))
  · refine hg.leave h.base ?_ hmem ?_ ?_ ?_ (fun t ht => ?_) (fun _ _ => rfl) rfl rfl
      (fun k hk' => rfl) (fun k hk' => ?_) rfl rfl
    · simp [Sys.setState, Sys.addRunnable, Sys.setRunq]
    · rw [erase_of_not_mem hnot]; exact hg.last
    · simp [Sys.setState, Sys.addRunnable, Sys.setRunq]
    · simpa [Sys.setState] using hnew
    · simp [Sys.setState, Sys.addRunnable, Sys.setRunq, ht]
    · rw [hk] at hk'
      cases hk'

/-! ## The order of the assignments in `adjustrunqueue` and `choosethread` -/

theorem stepBack_tdKse : (s.stepBack kg td).tdKse = s.tdKse := by
  unfold Sys.stepBack
  split <;> rfl

theorem stepBack_keState : (s.stepBack kg td).keState = s.keState := by
  unfold Sys.stepBack
  split <;> rfl

theorem stepBack_kgRunq : (s.stepBack kg td).kgRunq = s.kgRunq := by
  unfold Sys.stepBack
  split <;> rfl

theorem removed_stepBack {n : ℤ} {tds : List Td} :
    (removed (((s.addRunnable kg n).setState td state).stepBack kg td) ke).setRunq kg tds
      = ((((removed s ke).stepBack kg td).setRunq kg tds).addRunnable kg n).setState td state := by
  unfold Sys.stepBack
  by_cases hl : s.kgLastAssigned kg = some td
  · have hl₁ : ((s.addRunnable kg n).setState td state).kgLastAssigned kg = some td := hl
    have hl₂ : (removed s ke).kgLastAssigned kg = some td := hl
    rw [if_pos hl₁, if_pos hl₂]; rfl
  · have hl₁ : ¬ ((s.addRunnable kg n).setState td state).kgLastAssigned kg = some td := hl
    have hl₂ : ¬ (removed s ke).kgLastAssigned kg = some td := hl
    rw [if_neg hl₁, if_neg hl₂]; rfl

/-- The KSE of a runnable thread of a group with `P_SA` is on the run queue. -/
theorem Inv.onrunq (h : Inv g s) (hs : s.tdState td = .runq) (hk : s.tdKse td = some ke) :
    s.keState ke = .onrunq := by
  cases hsa : g.sa (g.tdKsegrp td) with
  | false =>
    obtain ⟨k, hk', -, hst⟩ := h.plain _ hsa td rfl hs
    rw [hk] at hk'
    obtain rfl := Option.some.inj hk'
    exact hst
  | true =>
    obtain ⟨xs, ys, hg⟩ := h.groups _ hsa
    have hx : td ∈ xs := (hg.kse_iff ((hg.members td).2 ⟨rfl, hs⟩)).1 (by simp [hk])
    obtain ⟨k, hk', -, hst⟩ := hg.assigned td hx
    rw [hk] at hk'
    obtain rfl := Option.some.inj hk'
    exact hst

theorem adjustrunqueue_keeps (h : Inv g s) (hs : s.tdState td = .runq) (pri : ℕ) :
    ∃ s', adjustrunqueue g s td pri = some s' ∧ Inv g s' := by
  have hcan : TdState.canRun ≠ .runq := by simp
  unfold adjustrunqueue
  simp only [guard, hs, if_true, Option.bind_eq_bind, Option.pure_def, Option.bind_some]
  cases hsa : g.sa (g.tdKsegrp td) with
  | false =>
    obtain ⟨ke, hk, hkkg, hrunq⟩ := h.plain _ hsa td rfl hs
    have hpri : Inv g (s.setPriority td pri) :=
      h.of_group _ h.base.setPriority (fun kg' hne => sameGroup_setPriority (Ne.symm hne))
        (fun hsa' => by rw [hsa] at hsa'; cases hsa') (fun hsa => h.plain _ hsa)
    have hk₁ : (s.setPriority td pri).tdKse td = some ke := hk
    simp only [hk, Option.bind_some, if_false, Bool.false_eq_true]
    by_cases hindex : (s.setPriority td pri).keRqindex ke ≠ pri / rqPpq
    · have hbase : Base g (removed (s.setPriority td pri) ke) := hpri.base.removed
      have hrem : (removed (s.setPriority td pri) ke).keState ke ≠ .onrunq := by simp [removed]
      rw [if_pos hindex, schedRem_eq hk₁ hrunq, Option.bind_some, schedAdd_eq hbase hk hrem]
      refine ⟨_, rfl, hpri.of_group (g.tdKsegrp td) (hbase.added hk hrem hs) (fun kg' hne => ?_)
        (fun hsa' => by rw [hsa] at hsa'; cases hsa') (fun _ t ht hst => ?_)⟩
      · exact (sameGroup_removed (hkkg ▸ Ne.symm hne)).trans
          (sameGroup_added (hkkg ▸ Ne.symm hne))
      · obtain ⟨k, hk', hk'kg, hst'⟩ := h.plain _ hsa t ht hst
        refine ⟨k, hk', hk'kg, ?_⟩
        by_cases hkk : k = ke
        · simp [added, hkk]
        · simpa [added, removed, Sys.setPriority, hkk] using hst'
    · rw [if_neg hindex]; exact ⟨_, rfl, hpri⟩
  | true =>
    rw [if_pos rfl]
    -- the thread is off the queue, with its new priority
    have hagain : ∀ u : Sys Td Ke Kg, Inv g u → u.tdState td = .canRun →
        ∃ s', setrunqueue g (u.setPriority td pri) td = some s' ∧ Inv g s' := by
      intro u hu hust
      have hoff : u.tdState td ≠ .runq := by rw [hust]; exact hcan
      exact setrunqueue_keeps (hu.setPriority hoff) (.inl hust)
        (fun hsa' => by rw [hsa] at hsa'; cases hsa')
    cases hk : s.tdKse td with
    | some ke =>
      have hrunq := h.onrunq hs hk
      have hleft := leave_assigned h hsa hs hk hcan
      have hcond : ((s.addRunnable (g.tdKsegrp td) (-1)).setState td .canRun).tdKse td ≠ none := by
        have hkse : ((s.addRunnable (g.tdKsegrp td) (-1)).setState td .canRun).tdKse td
            = some ke := hk
        simp [hkse]
      have hrem : schedRem (((s.addRunnable (g.tdKsegrp td) (-1)).setState td .canRun).stepBack
          (g.tdKsegrp td) td) td = some (removed (((s.addRunnable (g.tdKsegrp td) (-1)).setState td
          .canRun).stepBack (g.tdKsegrp td) td) ke) :=
        schedRem_eq (by rw [stepBack_tdKse]; exact hk) (by rw [stepBack_keState]; exact hrunq)
      have hq : (removed (((s.addRunnable (g.tdKsegrp td) (-1)).setState td .canRun).stepBack
          (g.tdKsegrp td) td) ke).kgRunq = s.kgRunq := by
        unfold removed
        rw [stepBack_kgRunq]; rfl
      rw [if_pos hcond, hrem, Option.bind_some, hq, removed_stepBack]
      exact hagain _ hleft (by simp [Sys.setState])
    | none =>
      have hleft := leave_unassigned h hsa hs hk hcan
      have hcond : ¬ ((s.addRunnable (g.tdKsegrp td) (-1)).setState td .canRun).tdKse td ≠ none :=
        not_not.2 hk
      rw [if_neg hcond]; exact hagain _ hleft (by simp [Sys.setState, Sys.setRunq])

/-- Outside `P_SA` only the KSE leaves the run queue. -/
theorem leave_plain (h : Inv g s) (hsa : g.sa (g.tdKsegrp td) = false) (hk : s.tdKse td = some ke)
    (hnew : state ≠ .runq) :
    Inv g (((removed s ke).addRunnable (g.tdKsegrp td) (-1)).setState td state) := by
  have hkkg := h.base.sameGroup td ke hk
  have hbase : Base g ((removed s ke).addRunnable (g.tdKsegrp td) (-1)) :=
    h.base.removed.addRunnable
  refine h.of_group (g.tdKsegrp td) (hbase.setState (.inr fun k hk' => ?_)) (fun kg' hne => ?_)
    (fun hsa' => by rw [hsa] at hsa'; cases hsa') (fun _ t ht hst => ?_)
  · have hk'' : s.tdKse td = some k := hk'
    rw [hk] at hk''
    obtain rfl := Option.some.inj hk''
    simp [Sys.addRunnable, removed]
  · exact ((sameGroup_removed (hkkg ▸ Ne.symm hne)).trans (sameGroup_addRunnable hne)).trans
      (sameGroup_setState (Ne.symm hne))
  · have hne : t ≠ td := by
      rintro rfl
      simp [Sys.setState, hnew] at hst
    obtain ⟨k, hk', hk'kg, hst'⟩ :=
      h.plain _ hsa t ht (by simpa [Sys.setState, Sys.addRunnable, removed, hne] using hst)
    have hkk : k ≠ ke := by
      rintro rfl
      have hthread := (h.base.inverse t k).1 hk'
      rw [(h.base.inverse td k).1 hk] at hthread; exact hne (Option.some.inj hthread).symm
    exact ⟨k, hk', hk'kg, by simpa [Sys.setState, Sys.addRunnable, removed, hkk] using hst'⟩

/-- The chosen thread leaves its queue, whatever state it goes to. -/
theorem nextThread_keeps {c : Cpu Td} (h : Inv g s) (hidle : s.tdState c.idlethread ≠ .runq) :
    ∃ s' td, nextThread g c s = some (s', td) ∧
      (∀ state, state ≠ .runq → Inv g (s'.setState td state)) ∧ s'.tdState = s.tdState ∧
      (td = c.idlethread ∨ td ≠ c.idlethread ∧ s'.runq.length < s.runq.length) := by
  unfold nextThread
  cases hchoose : runqChoose s with
  | none =>
    have hchosen : schedChoose s = some (s, none) := by
      unfold schedChoose
      rw [hchoose]
    rw [hchosen]
    exact ⟨s, c.idlethread, rfl, fun state hst => h.setState hidle hst, rfl, .inl rfl⟩
  | some ke =>
    have hmem : ke ∈ s.runq := mem_of_find?_eq_some hchoose
    obtain ⟨td, hk, hstate⟩ := h.base.runnable ke ((h.base.onrunq ke).1 hmem)
    have hthread := (h.base.inverse td ke).1 hk
    have hkkg := h.base.sameGroup td ke hk
    have hlen : (s.runq.erase ke).length < s.runq.length := by
      rw [length_erase_of_mem hmem]
      have hpos := length_pos_of_mem hmem; omega
    have hne : td ≠ c.idlethread := by rintro rfl; exact hidle hstate
    have hremoved : (removed s ke).keThread ke = some td := hthread
    have htdKse : (removed s ke).tdKse td = some ke := hk
    obtain ⟨v, hv⟩ : ∃ v, v = (if g.sa (g.tdKsegrp td) then
        ((removed s ke).stepBack (g.tdKsegrp td) td).setRunq (g.tdKsegrp td)
          ((s.kgRunq (g.tdKsegrp td)).erase td)
      else removed s ke).addRunnable (g.tdKsegrp td) (-1) := ⟨_, rfl⟩
    have htake : takeThread g (removed s ke) ke = some (v, td) := by
      unfold takeThread
      rw [hremoved]
      simp only [Option.bind_eq_bind, Option.bind_some, htdKse, guard, if_true, Option.pure_def,
        hkkg]
      rw [hv]; rfl
    have hchosen : schedChoose s = some (removed s ke, some ke) := by
      unfold schedChoose
      simp only [hchoose, hthread, hk, Option.bind_eq_bind, Option.bind_some, guard, reduceCtorEq,
        ne_eq, not_false_eq_true, if_true, Option.pure_def]
      rfl
    refine ⟨v, td, ?_, fun state hst => ?_, ?_, .inr ⟨hne, ?_⟩⟩
    · simp only [hchosen, Option.bind_eq_bind, Option.bind_some, htake]
    · rw [hv]
      cases hsa : g.sa (g.tdKsegrp td) with
      | false => exact leave_plain h hsa hk hst
      | true => exact leave_assigned h hsa hstate hk hst
    · rw [hv]
      cases g.sa (g.tdKsegrp td) with
      | false => rfl
      | true =>
        rw [if_pos rfl]
        unfold Sys.stepBack
        split <;> rfl
    · rw [hv]
      cases g.sa (g.tdKsegrp td) with
      | false => exact hlen
      | true =>
        rw [if_pos rfl]
        unfold Sys.stepBack
        split <;> exact hlen

/-- In a panic `choosethread` goes back until it finds a thread that may run. -/
theorem chooseLoop_keeps {c : Cpu Td} {fuel : ℕ} (h : Inv g s)
    (hidle : s.tdState c.idlethread ≠ .runq) (hpanic : c.inPanic c.idlethread = true)
    (hfuel : s.runq.length < fuel) :
    ∃ s' td, chooseLoop g c fuel s = some (s', td) ∧ Inv g s' := by
  induction fuel generalizing s with
  | zero => omega
  | succ fuel ih =>
    obtain ⟨u, td, hnext, hinv, hstate, hcase⟩ := nextThread_keeps (c := c) h hidle
    unfold chooseLoop
    simp only [hnext, Option.bind_eq_bind, Option.bind_some]
    by_cases hback : c.panicstr = true ∧ ¬ c.inPanic td = true
    · rw [if_pos hback]
      rcases hcase with rfl | ⟨hne, hlen⟩
      · exact absurd hpanic hback.2
      · refine ih (hinv .canRun (by simp)) ?_ (Nat.lt_of_lt_of_le hlen (Nat.le_of_lt_succ hfuel))
        simpa [Sys.setState, Ne.symm hne, hstate] using hidle
    · rw [if_neg hback]; exact ⟨_, td, rfl, hinv .running (by simp)⟩

theorem choosethread_keeps {c : Cpu Td} (h : Inv g s) (hidle : s.tdState c.idlethread ≠ .runq)
    (hpanic : c.inPanic c.idlethread = true) :
    ∃ s' td, choosethread g c (s.runq.length + 1) s = some (s', td) ∧ Inv g s' := by
  unfold choosethread
  by_cases hstop : c.stopped = true
  · rw [if_pos hstop]; exact ⟨_, _, rfl, h.setState hidle (by simp)⟩
  · rw [if_neg hstop]; exact chooseLoop_keeps h hidle hpanic (Nat.lt_succ_self _)

/-! ## Any sequence of events -/

/-- A KSE that was parted from its thread is in transit. -/
theorem Inv.leave (h : Inv g s) (hs : s.tdState td ≠ .runq) (hk : s.tdKse td = some ke) :
    Inv g { s.part td ke with keState := Function.update s.keState ke .unqueued } := by
  have hrunq := h.base.not_onrunq hk hs
  have hkkg := h.base.sameGroup td ke hk
  have hpart := h.part hs hk
  have hst : KeState.unqueued ≠ .onrunq := by simp
  refine hpart.of_group (g.tdKsegrp td) (hpart.base.setKeState hrunq hst) (fun kg' hne => ?_)
    (fun hsa => ?_) (fun hsa t ht hstate => ?_)
  · refine { SameGroup.refl with keState := fun k hk' => ?_ }
    have hkk : k ≠ ke := fun heq => hne (by rw [← hk', heq, hkkg])
    simp [Sys.part, hkk]
  · obtain ⟨xs, ys, hg⟩ := hpart.groups _ hsa
    have hidle : s.keState ke ≠ .idle := fun hst => by
      obtain ⟨xs, ys, hg⟩ := h.groups _ hsa
      have hnone := hg.idleThread ke ((hg.idle ke).2 ⟨hkkg, hst⟩)
      rw [(h.base.inverse td ke).1 hk] at hnone
      cases hnone
    refine ⟨xs, ys, { hg with assigned := fun t ht => ?_, idle := fun k => ?_ }⟩
    · obtain ⟨k, hk', hkg, hst⟩ := hg.assigned t ht
      have hkk : k ≠ ke := by rintro rfl; exact hrunq hst
      exact ⟨k, hk', hkg, by simpa [Sys.part, hkk] using hst⟩
    · have hiq := hg.idle k
      by_cases hkk : k = ke
      · subst hkk
        have hnot : s.keState k ≠ .idle := hidle
        have hiq' : k ∈ (s.part td k).kgIq (g.tdKsegrp td) ↔
            g.keKsegrp k = g.tdKsegrp td ∧ s.keState k = .idle := hiq
        simpa [hnot] using hiq'
      · simpa [Sys.part, hkk] using hiq
  · obtain ⟨k, hk', hkg, hst⟩ := hpart.plain _ hsa t ht hstate
    have hkk : k ≠ ke := by rintro rfl; exact hrunq hst
    exact ⟨k, hk', hkg, by simpa [Sys.part, hkk] using hst⟩

/-- No assertion fails in an event that is allowed, and the invariant holds after it. -/
theorem step_keeps (h : Inv g s) {ev : Event Td Ke} (hev : Allowed g s ev) :
    ∃ s', step g s ev = some (s', ()) ∧ Inv g s' := by
  cases ev with
  | setrunqueue td =>
    obtain ⟨s', hrun, hinv⟩ := setrunqueue_keeps h hev.1 hev.2
    exact ⟨s', by simp only [step, hrun, Option.map_some], hinv⟩
  | choosethread c =>
    obtain ⟨s', td, hrun, hinv⟩ := choosethread_keeps h hev.1 hev.2
    exact ⟨s', by simp only [step, hrun, Option.map_some], hinv⟩
  | kseReassign ke =>
    obtain ⟨s', hrun, hinv⟩ := kseReassign_keeps h hev.1 hev.2.1 hev.2.2
    exact ⟨s', by simp only [step, hrun, Option.map_some], hinv⟩
  | adjustrunqueue td newpri =>
    obtain ⟨s', hrun, hinv⟩ := adjustrunqueue_keeps h hev newpri
    exact ⟨s', by simp only [step, hrun, Option.map_some], hinv⟩
  | mark td state => exact ⟨_, rfl, h.setState hev.1 hev.2⟩
  | prio td pri => exact ⟨_, rfl, h.setPriority hev⟩
  | leave td ke =>
    exact ⟨_, rfl, h.leave hev.1 hev.2⟩

/-- Nothing is on a queue yet; threads and KSEs may belong together or not. -/
structure Initial (g : Groups Td Ke Kg) (s : Sys Td Ke Kg) : Prop where
  inverse : ∀ td ke, s.tdKse td = some ke ↔ s.keThread ke = some td
  sameGroup : ∀ td ke, s.tdKse td = some ke → g.keKsegrp ke = g.tdKsegrp td
  state : ∀ td, s.tdState td ≠ .runq
  keState : ∀ ke, s.keState ke ≠ .onrunq ∧ s.keState ke ≠ .idle
  runq : s.runq = []
  kgRunq : ∀ kg, s.kgRunq kg = []
  kgLastAssigned : ∀ kg, s.kgLastAssigned kg = none
  kgRunnable : ∀ kg, s.kgRunnable kg = 0
  kgIq : ∀ kg, s.kgIq kg = []
  kgIdleKses : ∀ kg, s.kgIdleKses kg = 0

theorem Initial.inv (h : Initial g s) : Inv g s where
  base :=
    { inverse := h.inverse
      sameGroup := h.sameGroup
      runqNodup := by simp [h.runq]
      onrunq := fun ke => by simp [h.runq, (h.keState ke).1]
      runnable := fun ke hke => absurd hke (h.keState ke).1 }
  groups kg _ := ⟨[], [],
    { queue := h.kgRunq kg
      nodup := nodup_nil
      members := fun td => by simp [h.state td]
      sorted := List.Pairwise.nil
      assigned := fun td htd => by cases htd
      unassigned := fun td htd => by cases htd
      last := h.kgLastAssigned kg
      count := h.kgRunnable kg
      idleCount := by rw [h.kgIdleKses, h.kgIq]; rfl
      idleNodup := by simp [h.kgIq]
      idle := fun ke => by simp [h.kgIq, (h.keState ke).2]
      idleThread := fun ke hke => by simp [h.kgIq] at hke
      busy := fun hne => absurd rfl hne }⟩
  plain kg _ td _ hstate := absurd hstate (h.state td)

/-- After any sequence of events, in every group with `P_SA`: the queue holds the runnable threads
in the order of their priorities; those with a KSE are the first of them, up to
`kg_last_assigned`; threads and KSEs are inverse; the KSEs of the group on the run queue are those
of these threads; `kg_runnable` is the length of the queue; no KSE is idle while a thread of the
queue has none; and where a KSE is assigned, the thread with the best priority has one. No assertion
fails in any event that may come next. -/
theorem runqueues_of_run (g : Groups Td Ke Kg) (s₀ s : Sys Td Ke Kg) (h₀ : Initial g s₀)
    (h : Runs (step g) (Allowed g) s₀ s) :
    (∀ ev, Allowed g s ev → ∃ s', step g s ev = some (s', ())) ∧
    (∀ td ke, s.tdKse td = some ke ↔ s.keThread ke = some td) ∧
    ∀ kg, g.sa kg = true → ∃ xs ys, s.kgRunq kg = xs ++ ys ∧ (xs ++ ys).Nodup ∧
      (∀ td, td ∈ xs ++ ys ↔ g.tdKsegrp td = kg ∧ s.tdState td = .runq) ∧
      Sorted s.tdPriority (xs ++ ys) ∧
      (∀ td ∈ xs, s.tdKse td ≠ none) ∧ (∀ td ∈ ys, s.tdKse td = none) ∧
      s.kgLastAssigned kg = xs.getLast? ∧
      (∀ ke, ke ∈ s.runq ∧ g.keKsegrp ke = kg ↔ ∃ td ∈ xs, s.tdKse td = some ke) ∧
      s.kgRunnable kg = (s.kgRunq kg).length ∧
      (ys ≠ [] → ∀ ke, g.keKsegrp ke = kg → s.keState ke ≠ .idle ∧ ke ∉ s.kgIq kg) ∧
      ((∃ ke ∈ s.runq, g.keKsegrp ke = kg) → ∃ td ∈ s.kgRunq kg, s.tdKse td ≠ none ∧
        ∀ t ∈ s.kgRunq kg, s.tdPriority td ≤ s.tdPriority t) := by
  have hinv : Inv g s := h.invariant h₀.inv fun s ev t r hs hev hstep => by
    obtain ⟨s', hstep', hinv⟩ := step_keeps hs hev
    rw [hstep] at hstep'
    obtain ⟨rfl, -⟩ := Prod.mk.inj (Option.some.inj hstep')
    exact hinv
  refine ⟨fun ev hev => ?_, hinv.base.inverse, fun kg hsa => ?_⟩
  · obtain ⟨s', hstep, -⟩ := step_keeps hinv hev
    exact ⟨s', hstep⟩
  obtain ⟨xs, ys, hg⟩ := hinv.groups kg hsa
  have hmembers := hg.members
  have hnodup := hg.nodup
  have hcount := hg.count
  rw [append_nil] at hmembers hnodup hcount
  have hassigned : ∀ td ∈ xs, s.tdKse td ≠ none := fun td hx => by
    obtain ⟨ke, hke, -⟩ := hg.assigned td hx
    simp [hke]
  have hrunq : ∀ ke, ke ∈ s.runq ∧ g.keKsegrp ke = kg ↔ ∃ td ∈ xs, s.tdKse td = some ke := by
    intro ke
    constructor
    · rintro ⟨hmem, hkg⟩
      obtain ⟨td, hk, hstate⟩ := hinv.base.runnable ke ((hinv.base.onrunq ke).1 hmem)
      have htd := (hg.members td).2 ⟨(hinv.base.sameGroup td ke hk).symm.trans hkg, hstate⟩
      exact ⟨td, (hg.kse_iff htd).1 (by simp [hk]), hk⟩
    · rintro ⟨td, hx, hk⟩
      obtain ⟨k, hk', hkg, hst⟩ := hg.assigned td hx
      rw [hk] at hk'
      obtain rfl := Option.some.inj hk'
      exact ⟨(hinv.base.onrunq ke).2 hst, hkg⟩
  refine ⟨xs, ys, hg.queue, hnodup, hmembers, hg.sorted, hassigned,
    fun td hy => hg.unassigned td (by simpa using hy), hg.last, hrunq, by rw [hcount, hg.queue],
    fun hys ke hkg => ?_, ?_⟩
  · have hiq := hg.busy hys
    have hidle := hg.idle ke
    rw [hiq] at hidle ⊢; exact ⟨fun hst => by simpa using hidle.2 ⟨hkg, hst⟩, by simp⟩
  · rintro ⟨ke, hmem, hkg⟩
    obtain ⟨td, hx, -⟩ := (hrunq ke).1 ⟨hmem, hkg⟩
    have hsorted := hg.sorted
    rw [hg.queue]
    cases xs with
    | nil => cases hx
    | cons a xs =>
      refine ⟨a, by simp, hassigned a (by simp), fun t ht => ?_⟩
      rcases mem_cons.1 ht with rfl | ht
      · exact le_rfl
      · exact (pairwise_cons.1 hsorted).1 t ht

/-- One KSE goes idle, and the first of two threads gets it. -/
theorem runqueues_of_run_threads :
    ∃ s : Sys ℕ ℕ Unit, s.kgRunq () = [1, 0] ∧ s.kgRunnable () = 2 ∧
      ∃ td ∈ s.kgRunq (), s.tdKse td ≠ none ∧
        ∀ t ∈ s.kgRunq (), s.tdPriority td ≤ s.tdPriority t := by
  obtain ⟨g, hg⟩ : ∃ g : Groups ℕ ℕ Unit, g = ⟨fun _ => (), fun _ => (), fun _ => true⟩ := ⟨_, rfl⟩
  obtain ⟨s₀, hs₀⟩ : ∃ s₀ : Sys ℕ ℕ Unit, s₀ =
      ⟨fun _ => .canRun, fun td => 8 - 4 * td, fun _ => none, fun _ => none, fun _ => .unqueued,
        fun _ => 0, [], fun _ => [], fun _ => none, fun _ => 0, fun _ => [], fun _ => 0⟩ := ⟨_, rfl⟩
  have h₀ : Initial g s₀ := by
    subst hs₀
    constructor <;> simp
  obtain ⟨s, hrun, hq, hrunq⟩ : ∃ s, Runs (step g) (Allowed g) s₀ s ∧ s.kgRunq () = [1, 0] ∧
      s.runq = [0] := by
    subst hs₀ hg
    refine ⟨_, ((Runs.refl.tail (r := ()) (show Allowed _ _ (.kseReassign 0) from
      ⟨rfl, by simp, by simp⟩) rfl).tail (r := ()) (show Allowed _ _ (.setrunqueue 0) from
      ⟨Or.inl rfl, by simp⟩) rfl).tail (r := ()) (show Allowed _ _ (.setrunqueue 1) from
      ⟨Or.inl rfl, by simp⟩) rfl, ?_, ?_⟩
    · rfl
    · rfl
  obtain ⟨-, -, hall⟩ := runqueues_of_run g s₀ s h₀ hrun
  obtain ⟨xs, ys, -, -, -, -, -, -, -, -, hcount, -, hbest⟩ := hall () (by rw [hg])
  refine ⟨s, hq, by rw [hcount, hq]; rfl, hbest ⟨0, by simp [hrunq], rfl⟩⟩

end FreeBSD.KernSwitch
