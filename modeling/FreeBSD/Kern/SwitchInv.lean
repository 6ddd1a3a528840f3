import FreeBSD.Kern.KernSwitch

/-!
# The invariant of the run queues
-/

namespace FreeBSD.KernSwitch

open Lib SplitQueue List

variable {Td Ke Kg : Type} {g : Groups Td Ke Kg} {s s' s'' : Sys Td Ke Kg} {td : Td} {ke : Ke}
  {kg : Kg} {xs ys ps : List Td}

structure Base (g : Groups Td Ke Kg) (s : Sys Td Ke Kg) : Prop where
  /-- `td_kse` and `ke_thread` are inverse. -/
  inverse : ∀ td ke, s.tdKse td = some ke ↔ s.keThread ke = some td
  sameGroup : ∀ td ke, s.tdKse td = some ke → g.keKsegrp ke = g.tdKsegrp td
  runqNodup : s.runq.Nodup
  onrunq : ∀ ke, ke ∈ s.runq ↔ s.keState ke = .onrunq
  /-- A KSE on the run queue has a thread that is runnable. -/
  runnable : ∀ ke, s.keState ke = .onrunq → ∃ td, s.tdKse td = some ke ∧ s.tdState td = .runq

structure Group (g : Groups Td Ke Kg) (s : Sys Td Ke Kg) (kg : Kg) (xs ys ps : List Td) : Prop where
  queue : s.kgRunq kg = xs ++ ys
  nodup : (xs ++ ys ++ ps).Nodup
  members : ∀ td, td ∈ xs ++ ys ++ ps ↔ g.tdKsegrp td = kg ∧ s.tdState td = .runq
  sorted : Sorted s.tdPriority (xs ++ ys)
  assigned : ∀ td ∈ xs, ∃ ke, s.tdKse td = some ke ∧ g.keKsegrp ke = kg ∧ s.keState ke = .onrunq
  unassigned : ∀ td ∈ ys ++ ps, s.tdKse td = none
  last : s.kgLastAssigned kg = xs.getLast?
  count : s.kgRunnable kg = (xs ++ ys ++ ps).length
  idleCount : s.kgIdleKses kg = (s.kgIq kg).length
  idleNodup : (s.kgIq kg).Nodup
  idle : ∀ ke, ke ∈ s.kgIq kg ↔ g.keKsegrp ke = kg ∧ s.keState ke = .idle
  idleThread : ∀ ke ∈ s.kgIq kg, s.keThread ke = none
  /-- No KSE is idle while a thread has none. -/
  busy : ys ≠ [] → s.kgIq kg = []

/-- In a group without `P_SA` a runnable thread has its KSE on the run queue. -/
def Plain (g : Groups Td Ke Kg) (s : Sys Td Ke Kg) (kg : Kg) : Prop :=
  ∀ td, g.tdKsegrp td = kg → s.tdState td = .runq →
    ∃ ke, s.tdKse td = some ke ∧ g.keKsegrp ke = kg ∧ s.keState ke = .onrunq

/-- What holds between any two events. -/
structure Inv (g : Groups Td Ke Kg) (s : Sys Td Ke Kg) : Prop where
  base : Base g s
  groups : ∀ kg, g.sa kg = true → ∃ xs ys, Group g s kg xs ys []
  plain : ∀ kg, g.sa kg = false → Plain g s kg

/-- The two states agree on the group. -/
structure SameGroup (g : Groups Td Ke Kg) (s s' : Sys Td Ke Kg) (kg : Kg) : Prop where
  queue : s'.kgRunq kg = s.kgRunq kg
  last : s'.kgLastAssigned kg = s.kgLastAssigned kg
  count : s'.kgRunnable kg = s.kgRunnable kg
  iq : s'.kgIq kg = s.kgIq kg
  idle : s'.kgIdleKses kg = s.kgIdleKses kg
  state : ∀ td, g.tdKsegrp td = kg → s'.tdState td = s.tdState td
  priority : ∀ td, g.tdKsegrp td = kg → s'.tdPriority td = s.tdPriority td
  kse : ∀ td, g.tdKsegrp td = kg → s'.tdKse td = s.tdKse td
  keState : ∀ ke, g.keKsegrp ke = kg → s'.keState ke = s.keState ke
  thread : ∀ ke, g.keKsegrp ke = kg → s'.keThread ke = s.keThread ke

theorem SameGroup.refl : SameGroup g s s kg :=
  ⟨rfl, rfl, rfl, rfl, rfl, fun _ _ => rfl, fun _ _ => rfl, fun _ _ => rfl, fun _ _ => rfl,
    fun _ _ => rfl⟩

theorem SameGroup.trans (h : SameGroup g s s' kg) (h' : SameGroup g s' s'' kg) :
    SameGroup g s s'' kg :=
  ⟨h'.queue.trans h.queue, h'.last.trans h.last, h'.count.trans h.count, h'.iq.trans h.iq,
    h'.idle.trans h.idle, fun td ht => (h'.state td ht).trans (h.state td ht),
    fun td ht => (h'.priority td ht).trans (h.priority td ht),
    fun td ht => (h'.kse td ht).trans (h.kse td ht),
    fun ke hk => (h'.keState ke hk).trans (h.keState ke hk),
    fun ke hk => (h'.thread ke hk).trans (h.thread ke hk)⟩

theorem Group.mem_group (h : Group g s kg xs ys ps) (ht : td ∈ xs ++ ys ++ ps) :
    g.tdKsegrp td = kg := ((h.members td).1 ht).1

theorem Group.congr (h : Group g s kg xs ys ps) (hs : SameGroup g s s' kg) :
    Group g s' kg xs ys ps where
  queue := hs.queue.trans h.queue
  nodup := h.nodup
  members td := by
    rw [h.members td]
    refine and_congr_right fun ht => ?_
    rw [hs.state td ht]
  sorted := by
    refine h.sorted.imp_of_mem fun {a b} ha hb hab => ?_
    rwa [hs.priority a (h.mem_group (mem_append_left _ ha)),
      hs.priority b (h.mem_group (mem_append_left _ hb))]
  assigned td ht := by
    obtain ⟨ke, hke, hkg, hstate⟩ := h.assigned td ht
    refine ⟨ke, ?_, hkg, (hs.keState ke hkg).trans hstate⟩
    rw [hs.kse td (h.mem_group (by simp [ht])), hke]
  unassigned td ht := by
    have hmem : td ∈ xs ++ ys ++ ps := by rw [append_assoc]; exact mem_append_right _ ht
    rw [hs.kse td (h.mem_group hmem), h.unassigned td ht]
  last := hs.last.trans h.last
  count := hs.count.trans h.count
  idleCount := by rw [hs.idle, hs.iq, h.idleCount]
  idleNodup := hs.iq ▸ h.idleNodup
  idle ke := by
    rw [hs.iq, h.idle ke]
    refine and_congr_right fun hk => ?_
    rw [hs.keState ke hk]
  idleThread ke hke := by
    rw [hs.iq] at hke
    rw [hs.thread ke ((h.idle ke).1 hke).1, h.idleThread ke hke]
  busy hys := hs.iq.trans (h.busy hys)

theorem Plain.congr (h : Plain g s kg) (hs : SameGroup g s s' kg) : Plain g s' kg := by
  intro td ht hstate
  rw [hs.state td ht] at hstate
  obtain ⟨ke, hke, hkg, hstate⟩ := h td ht hstate
  exact ⟨ke, (hs.kse td ht).trans hke, hkg, (hs.keState ke hkg).trans hstate⟩

/-- What is to be shown of a step that goes on in one group. -/
theorem Inv.of_group (h : Inv g s) (kg : Kg) (hbase : Base g s')
    (hother : ∀ kg', kg' ≠ kg → SameGroup g s s' kg')
    (hgroup : g.sa kg = true → ∃ xs ys, Group g s' kg xs ys [])
    (hplain : g.sa kg = false → Plain g s' kg) : Inv g s' := by
  refine ⟨hbase, fun kg' hkg' => ?_, fun kg' hkg' => ?_⟩
  · by_cases heq : kg' = kg
    · exact heq ▸ hgroup (heq ▸ hkg')
    · obtain ⟨xs, ys, hg⟩ := h.groups kg' hkg'
      exact ⟨xs, ys, hg.congr (hother kg' heq)⟩
  · by_cases heq : kg' = kg
    · exact heq ▸ hplain (heq ▸ hkg')
    · exact (h.plain kg' hkg').congr (hother kg' heq)

/-- The threads of a group with a KSE are the first of its queue. -/
theorem Group.kse_iff (h : Group g s kg xs ys ps) (ht : td ∈ xs ++ ys ++ ps) :
    s.tdKse td ≠ none ↔ td ∈ xs := by
  constructor
  · intro hne
    rw [append_assoc] at ht
    rcases mem_append.1 ht with ht | ht
    · exact ht
    · exact absurd (h.unassigned td ht) hne
  · intro hx
    obtain ⟨ke, hke, -⟩ := h.assigned td hx
    simp [hke]

/-! ## The steps of the functions -/

section

set_option linter.unusedSectionVars false

variable [DecidableEq Td] [DecidableEq Ke] [DecidableEq Kg] {kg' : Kg} {state : TdState}
  {tds : List Td} {last : Option Td} {n : ℤ} {pri : ℕ}

theorem Base.setState (h : Base g s)
    (hke : state = .runq ∨ ∀ ke, s.tdKse td = some ke → s.keState ke ≠ .onrunq) :
    Base g (s.setState td state) where
  inverse := h.inverse
  sameGroup := h.sameGroup
  runqNodup := h.runqNodup
  onrunq := h.onrunq
  runnable ke hk := by
    obtain ⟨t, ht, hstate⟩ := h.runnable ke hk
    refine ⟨t, ht, ?_⟩
    unfold Sys.setState
    by_cases heq : t = td
    · subst heq
      rcases hke with hrunq | hke
      · simpa using hrunq
      · exact absurd hk (hke ke ht)
    · simpa [heq] using hstate

theorem Base.setPriority (h : Base g s) : Base g (s.setPriority td pri) :=
  ⟨h.inverse, h.sameGroup, h.runqNodup, h.onrunq, h.runnable⟩

theorem Base.setLast (h : Base g s) : Base g (s.setLast kg last) :=
  ⟨h.inverse, h.sameGroup, h.runqNodup, h.onrunq, h.runnable⟩

theorem Base.setRunq (h : Base g s) : Base g (s.setRunq kg tds) :=
  ⟨h.inverse, h.sameGroup, h.runqNodup, h.onrunq, h.runnable⟩

theorem Base.addRunnable (h : Base g s) : Base g (s.addRunnable kg n) :=
  ⟨h.inverse, h.sameGroup, h.runqNodup, h.onrunq, h.runnable⟩

theorem Base.part (h : Base g s) (hk : s.tdKse td = some ke) (hs : s.keState ke ≠ .onrunq) :
    Base g (s.part td ke) where
  inverse t k := by
    unfold Sys.part
    have hiff := h.inverse t k
    have htd := (h.inverse td ke).1 hk
    by_cases ht : t = td
    · subst ht
      by_cases hke : k = ke
      · subst hke; simp
      · have hne : s.keThread k ≠ some t := fun heq => by
          rw [(h.inverse t k).2 heq] at hk; exact hke (Option.some.inj hk)
        simp [hke, hne]
    · by_cases hke : k = ke
      · subst hke
        have hne : s.tdKse t ≠ some k := fun heq => by
          rw [hiff.1 heq] at htd; exact ht (Option.some.inj htd)
        simp [ht, hne]
      · simpa [ht, hke] using hiff
  sameGroup t k hk' := by
    unfold Sys.part at hk'
    by_cases ht : t = td
    · subst ht; simp at hk'
    · exact h.sameGroup t k (by simpa [ht] using hk')
  runqNodup := h.runqNodup
  onrunq := h.onrunq
  runnable k hk' := by
    obtain ⟨t, ht, hstate⟩ := h.runnable k hk'
    refine ⟨t, ?_, hstate⟩
    have hne : t ≠ td := by
      rintro rfl
      rw [hk] at ht
      obtain rfl := Option.some.inj ht
      exact hs hk'
    simpa [Sys.part, hne] using ht

theorem Base.join (h : Base g s) (htd : s.tdKse td = none) (hke : s.keThread ke = none)
    (hg : g.keKsegrp ke = g.tdKsegrp td) : Base g (s.join td ke) where
  inverse t k := by
    unfold Sys.join
    have hiff := h.inverse t k
    by_cases ht : t = td
    · subst ht
      by_cases hk : k = ke
      · subst hk; simp
      · have hne : s.keThread k ≠ some t := fun heq => by
          rw [(h.inverse t k).2 heq] at htd
          cases htd
        simp [hk, hne, Ne.symm hk]
    · by_cases hk : k = ke
      · subst hk
        have hne : s.tdKse t ≠ some k := fun heq => by
          rw [hiff.1 heq] at hke
          cases hke
        simp [ht, hne, Ne.symm ht]
      · simpa [ht, hk] using hiff
  sameGroup t k hk' := by
    unfold Sys.join at hk'
    by_cases ht : t = td
    · subst ht
      have hk : ke = k := by simpa using hk'
      exact hk ▸ hg
    · exact h.sameGroup t k (by simpa [ht] using hk')
  runqNodup := h.runqNodup
  onrunq := h.onrunq
  runnable k hk' := by
    obtain ⟨t, ht, hstate⟩ := h.runnable k hk'
    refine ⟨t, ?_, hstate⟩
    have hne : t ≠ td := by
      rintro rfl
      rw [htd] at ht
      cases ht
    simpa [Sys.join, hne] using ht

/-- A KSE that is not and will not be on the run queue. -/
theorem Base.setKeState {st : KeState} (h : Base g s) (hke : s.keState ke ≠ .onrunq)
    (hst : st ≠ .onrunq) :
    Base g { s with keState := Function.update s.keState ke st } where
  inverse := h.inverse
  sameGroup := h.sameGroup
  runqNodup := h.runqNodup
  onrunq k := by
    by_cases hk : k = ke
    · subst hk; simp [hst, h.onrunq, hke]
    · simp [hk, h.onrunq]
  runnable k hk' := by
    by_cases hk : k = ke
    · subst hk; simp [hst] at hk'
    · exact h.runnable k (by simpa [hk] using hk')

/-- The state after `sched_add`. -/
def added (s : Sys Td Ke Kg) (td : Td) (ke : Ke) : Sys Td Ke Kg :=
  { s with
    keState := Function.update s.keState ke .onrunq
    keRqindex := Function.update s.keRqindex ke (s.tdPriority td / rqPpq)
    runq := s.runq ++ [ke] }

theorem schedAdd_eq (h : Base g s) (hk : s.tdKse td = some ke) (hs : s.keState ke ≠ .onrunq) :
    schedAdd s td = some (added s td ke) := by
  have hthread := (h.inverse td ke).1 hk
  unfold schedAdd; simp [hk, hthread, hs, added, guard]

theorem Base.added (h : Base g s) (hk : s.tdKse td = some ke) (hs : s.keState ke ≠ .onrunq)
    (hstate : s.tdState td = .runq) : Base g (added s td ke) where
  inverse := h.inverse
  sameGroup := h.sameGroup
  runqNodup := by
    have hnot : ke ∉ s.runq := fun hmem => hs ((h.onrunq ke).1 hmem)
    exact nodup_append.2 ⟨h.runqNodup, nodup_singleton ke, fun a ha b hb heq => by
      rw [mem_singleton.1 hb] at heq
      exact hnot (heq ▸ ha)⟩
  onrunq k := by
    unfold KernSwitch.added
    by_cases hke : k = ke
    · subst hke; simp
    · simp [hke, h.onrunq]
  runnable k hk' := by
    by_cases hke : k = ke
    · subst hke; exact ⟨td, hk, hstate⟩
    · exact h.runnable k (by simpa [KernSwitch.added, hke] using hk')

/-- The state after `sched_rem`. -/
def removed (s : Sys Td Ke Kg) (ke : Ke) : Sys Td Ke Kg :=
  { s with keState := Function.update s.keState ke .thread, runq := s.runq.erase ke }

theorem schedRem_eq (hk : s.tdKse td = some ke) (hs : s.keState ke = .onrunq) :
    schedRem s td = some (removed s ke) := by
  unfold schedRem; simp [hk, hs, removed, guard]

theorem Base.removed (h : Base g s) : Base g (removed s ke) where
  inverse := h.inverse
  sameGroup := h.sameGroup
  runqNodup := h.runqNodup.erase ke
  onrunq k := by
    unfold KernSwitch.removed
    rw [h.runqNodup.mem_erase_iff]
    by_cases hke : k = ke
    · subst hke; simp
    · simp [hke, h.onrunq]
  runnable k hk' := by
    by_cases hke : k = ke
    · subst hke; simp [KernSwitch.removed] at hk'
    · exact h.runnable k (by simpa [KernSwitch.removed, hke] using hk')

end

end FreeBSD.KernSwitch
