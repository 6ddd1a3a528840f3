import FreeBSD.Kern.SwitchInv

/-!
# The steps of the run queues

* `Group.assign`, `Group.enqueue`, `Group.leave` — how the two parts of a group's queue change.
* `setrunqueue_keeps`, `adjustrunqueue_keeps`, `kseReassign_keeps`, `choosethread_keeps` — the
  functions do not fail, and keep the invariant.
-/

namespace FreeBSD.KernSwitch

open Lib SplitQueue List

set_option linter.unusedSectionVars false

variable {Td Ke Kg : Type} [DecidableEq Td] [DecidableEq Ke] [DecidableEq Kg]
  {g : Groups Td Ke Kg} {s s' u : Sys Td Ke Kg} {td a : Td} {ke : Ke} {kg kg' : Kg}
  {xs ys ps xs' ys' tds : List Td} {last : Option Td} {n : ℤ} {pri : ℕ} {state : TdState}

/-! ## Groups that a step leaves alone -/

theorem sameGroup_setState (h : g.tdKsegrp td ≠ kg) : SameGroup g s (s.setState td state) kg := by
  refine { SameGroup.refl with state := fun t ht => ?_ }
  have hne : t ≠ td := fun heq => h (heq ▸ ht)
  simp [Sys.setState, hne]

theorem sameGroup_setPriority (h : g.tdKsegrp td ≠ kg) :
    SameGroup g s (s.setPriority td pri) kg := by
  refine { SameGroup.refl with priority := fun t ht => ?_ }
  have hne : t ≠ td := fun heq => h (heq ▸ ht)
  simp [Sys.setPriority, hne]

theorem sameGroup_setLast (h : kg ≠ kg') : SameGroup g s (s.setLast kg' last) kg :=
  { SameGroup.refl with last := by simp [Sys.setLast, h] }

theorem sameGroup_setRunq (h : kg ≠ kg') : SameGroup g s (s.setRunq kg' tds) kg :=
  { SameGroup.refl with queue := by simp [Sys.setRunq, h] }

theorem sameGroup_addRunnable (h : kg ≠ kg') : SameGroup g s (s.addRunnable kg' n) kg :=
  { SameGroup.refl with count := by simp [Sys.addRunnable, h] }

theorem sameGroup_part (htd : g.tdKsegrp td ≠ kg) (hke : g.keKsegrp ke ≠ kg) :
    SameGroup g s (s.part td ke) kg := by
  refine { SameGroup.refl with kse := fun t ht => ?_, thread := fun k hk => ?_ }
  · have hne : t ≠ td := fun heq => htd (heq ▸ ht)
    simp [Sys.part, hne]
  · have hne : k ≠ ke := fun heq => hke (heq ▸ hk)
    simp [Sys.part, hne]

theorem sameGroup_join (htd : g.tdKsegrp td ≠ kg) (hke : g.keKsegrp ke ≠ kg) :
    SameGroup g s (s.join td ke) kg := by
  refine { SameGroup.refl with kse := fun t ht => ?_, thread := fun k hk => ?_ }
  · have hne : t ≠ td := fun heq => htd (heq ▸ ht)
    simp [Sys.join, hne]
  · have hne : k ≠ ke := fun heq => hke (heq ▸ hk)
    simp [Sys.join, hne]

theorem sameGroup_added (hke : g.keKsegrp ke ≠ kg) : SameGroup g s (added s td ke) kg := by
  refine { SameGroup.refl with keState := fun k hk => ?_ }
  have hne : k ≠ ke := fun heq => hke (heq ▸ hk)
  simp [added, hne]

theorem sameGroup_removed (hke : g.keKsegrp ke ≠ kg) : SameGroup g s (removed s ke) kg := by
  refine { SameGroup.refl with keState := fun k hk => ?_ }
  have hne : k ≠ ke := fun heq => hke (heq ▸ hk)
  simp [removed, hne]

theorem setLast_self (h : s.kgLastAssigned kg = last) : s.setLast kg last = s := by
  unfold Sys.setLast
  rw [← h, Function.update_eq_self]

/-- The KSE of a thread that is on no run queue is on none. -/
theorem Base.not_onrunq (h : Base g s) (hk : s.tdKse td = some ke) (hs : s.tdState td ≠ .runq) :
    s.keState ke ≠ .onrunq := by
  intro hke
  obtain ⟨t, ht, hstate⟩ := h.runnable ke hke
  have hthread := (h.inverse t ke).1 ht
  rw [(h.inverse td ke).1 hk] at hthread
  obtain rfl := Option.some.inj hthread
  exact hs hstate

/-! ## The parts of a queue -/

/-- A thread is put on the queue, and a KSE goes to the thread `a`; the threads with a KSE are then
`xs'`. -/
theorem Group.assign (h : Group g s kg xs ys [td])
    (hq : insert s.tdPriority td (xs ++ ys) = xs' ++ ys') (hperm : xs'.Perm (a :: xs))
    (hke : g.keKsegrp ke = kg) (hrunq : s.keState ke ≠ .onrunq) (hidle : s.keState ke ≠ .idle) :
    Group g (added (((s.setRunq kg (xs' ++ ys')).join a ke).setLast kg xs'.getLast?) a ke) kg
      xs' ys' [] := by
  have hall : (xs' ++ ys').Perm (xs ++ ys ++ [td]) := by
    rw [← hq]; exact (insert_perm _ _ _).trans (perm_append_singleton td (xs ++ ys)).symm
  have hnodup : (xs' ++ ys').Nodup := hall.nodup_iff.2 h.nodup
  refine
    { queue := by simp [added, Sys.setLast, Sys.join, Sys.setRunq]
      nodup := by simpa using hnodup
      members := fun t => by rw [append_nil, hall.mem_iff]; exact h.members t
      sorted := by rw [← hq]; exact h.sorted.insert td
      assigned := fun t ht => ?_
      unassigned := fun t ht => ?_
      last := by simp [added, Sys.setLast]
      count := by rw [append_nil, hall.length_eq]; exact h.count
      idleCount := h.idleCount
      idleNodup := h.idleNodup
      idle := fun k => ?_
      idleThread := fun k hk => ?_
      busy := fun hne => ?_ }
  · by_cases heq : t = a
    · subst heq; exact ⟨ke, by simp [added, Sys.setLast, Sys.join], hke, by simp [added]⟩
    · have hx : t ∈ xs := by
        rcases mem_cons.1 (hperm.mem_iff.1 ht) with ha | hx
        · exact absurd ha heq
        · exact hx
      obtain ⟨k, hk, hkg, hst⟩ := h.assigned t hx
      have hne : k ≠ ke := by rintro rfl; exact hrunq hst
      exact ⟨k, by simpa [added, Sys.setLast, Sys.join, Sys.setRunq, heq] using hk, hkg,
        by simpa [added, Sys.setLast, Sys.join, Sys.setRunq, hne] using hst⟩
  · rw [append_nil] at ht
    have hnx : t ∉ xs' := fun hx => (nodup_append.1 hnodup).2.2 t hx t ht rfl
    rw [hperm.mem_iff, mem_cons, not_or] at hnx
    have hmem : t ∈ xs ++ ys ++ [td] := hall.mem_iff.1 (mem_append_right _ ht)
    rw [append_assoc] at hmem
    have hnone : s.tdKse t = none := by
      rcases mem_append.1 hmem with hx | hy
      · exact absurd hx hnx.2
      · exact h.unassigned t hy
    simpa [added, Sys.setLast, Sys.join, Sys.setRunq, hnx.1] using hnone
  · have hiq := h.idle k
    by_cases hk : k = ke
    · subst hk; simp [added, Sys.setLast, Sys.join, Sys.setRunq, hiq, hidle]
    · simpa [added, Sys.setLast, Sys.join, Sys.setRunq, hk] using hiq
  · have hne : k ≠ ke := by
      rintro rfl
      exact hidle ((h.idle k).1 hk).2
    simpa [added, Sys.setLast, Sys.join, Sys.setRunq, hne] using h.idleThread k hk
  · refine h.busy fun hy => hne ?_
    have hlen := hall.length_eq
    have hlen' := hperm.length_eq
    subst hy
    simp only [length_append, length_cons, length_nil] at hlen hlen'
    exact length_eq_zero_iff.1 (by omega)

/-- A thread is put on the queue, behind those with a KSE. -/
theorem Group.enqueue (h : Group g s kg xs ys [td])
    (hle : ∀ a ∈ xs, s.tdPriority a ≤ s.tdPriority td) (hiq : s.kgIq kg = []) :
    Group g (s.setRunq kg (insert s.tdPriority td (xs ++ ys))) kg xs
      (insert s.tdPriority td ys) [] := by
  have hins : insert s.tdPriority td (xs ++ ys) = xs ++ insert s.tdPriority td ys :=
    insert_append_of_le hle
  have hall : (xs ++ insert s.tdPriority td ys).Perm (xs ++ ys ++ [td]) := by
    rw [← hins]; exact (insert_perm _ _ _).trans (perm_append_singleton td (xs ++ ys)).symm
  exact
    { h with
      queue := by simp [Sys.setRunq, hins]
      nodup := by rw [append_nil]; exact hall.nodup_iff.2 h.nodup
      members := fun t => by rw [append_nil, hall.mem_iff]; exact h.members t
      sorted := by rw [← hins]; exact h.sorted.insert td
      unassigned := fun t ht => by
        refine h.unassigned t ?_
        rw [append_nil] at ht
        rcases mem_cons.1 ((insert_perm _ _ _).mem_iff.1 ht) with rfl | ht
        · simp
        · exact mem_append_left _ ht
      count := by rw [append_nil, hall.length_eq]; exact h.count
      busy := fun _ => hiq }

/-- A thread becomes runnable, and is not on the queue yet. -/
theorem Group.enter (h : Group g s kg xs ys []) (htd : g.tdKsegrp td = kg)
    (hs : s.tdState td ≠ .runq) (hk : s.tdKse td = none) :
    Group g ((s.setState td .runq).addRunnable kg 1) kg xs ys [td] := by
  have hnot : td ∉ xs ++ ys := fun hmem => hs ((h.members td).1 (by simpa using hmem)).2
  exact
    { h with
      nodup := by
        have hnodup := h.nodup
        rw [append_nil] at hnodup
        exact nodup_append.2 ⟨hnodup, nodup_singleton td, fun a ha b hb heq => by
          rw [mem_singleton.1 hb] at heq
          exact hnot (heq ▸ ha)⟩
      members := fun t => by
        have hmem := h.members t
        rw [append_nil] at hmem
        rw [mem_append, mem_singleton, hmem]
        by_cases ht : t = td
        · subst ht; simp [Sys.setState, Sys.addRunnable, htd]
        · simp [Sys.setState, Sys.addRunnable, ht]
      unassigned := fun t ht => by
        rcases mem_append.1 ht with ht | ht
        · exact h.unassigned t (mem_append_left _ ht)
        · rw [mem_singleton.1 ht]; exact hk
      count := by
        have hcount := h.count
        rw [append_nil] at hcount
        simp [Sys.setState, Sys.addRunnable, hcount]
        omega }

/-- A thread that is on no run queue and its KSE part. -/
theorem Group.part (h : Group g s kg xs ys ps) (hnot : td ∉ xs) :
    Group g (s.part td ke) kg xs ys ps where
  queue := h.queue
  nodup := h.nodup
  members := h.members
  sorted := h.sorted
  assigned t ht := by
    obtain ⟨k, hk, hkg, hst⟩ := h.assigned t ht
    have hne : t ≠ td := fun heq => hnot (heq ▸ ht)
    exact ⟨k, by simpa [Sys.part, hne] using hk, hkg, hst⟩
  unassigned t ht := by
    by_cases heq : t = td
    · simp [Sys.part, heq]
    · simpa [Sys.part, heq] using h.unassigned t ht
  last := h.last
  count := h.count
  idleCount := h.idleCount
  idleNodup := h.idleNodup
  idle := h.idle
  idleThread k hk := by
    by_cases heq : k = ke
    · simp [Sys.part, heq]
    · simpa [Sys.part, heq] using h.idleThread k hk
  busy := h.busy

/-- The state after an idle KSE is taken. -/
def popped (s : Sys Td Ke Kg) (kg : Kg) (ke : Ke) : Sys Td Ke Kg :=
  { s with
    kgIq := Function.update s.kgIq kg (s.kgIq kg).tail
    keState := Function.update s.keState ke .thread
    kgIdleKses := Function.update s.kgIdleKses kg (s.kgIdleKses kg - 1) }

/-- An idle KSE is taken. -/
theorem Group.popped {rest : List Ke} (h : Group g s kg xs ys ps) (hiq : s.kgIq kg = ke :: rest) :
    Group g (popped s kg ke) kg xs ys ps := by
  have hkidle : s.keState ke = .idle := ((h.idle ke).1 (by simp [hiq])).2
  have hnodup := h.idleNodup
  rw [hiq, nodup_cons] at hnodup
  exact
    { h with
      assigned := fun t ht => by
        obtain ⟨k, hk, hkg, hst⟩ := h.assigned t ht
        have hne : k ≠ ke := by
          rintro rfl
          rw [hkidle] at hst
          cases hst
        exact ⟨k, hk, hkg, by simpa [KernSwitch.popped, hne] using hst⟩
      idleCount := by
        have hcount := h.idleCount
        simp [KernSwitch.popped, hcount, hiq]
      idleNodup := by simpa [KernSwitch.popped, hiq] using hnodup.2
      idle := fun k => by
        have hidle := h.idle k
        by_cases heq : k = ke
        · subst heq; simp [KernSwitch.popped, hiq, hnodup.1]
        · simpa [KernSwitch.popped, hiq, heq] using hidle
      idleThread := fun k hk => by
        refine h.idleThread k ?_
        rw [hiq]; exact mem_cons_of_mem _ (by simpa [KernSwitch.popped, hiq] using hk)
      busy := fun hy => by
        have hnil := h.busy hy
        rw [hiq] at hnil
        cases hnil }

/-- The last assigned thread loses its KSE. -/
theorem Group.commandeer (hbase : Base g s) (h : Group g s kg (xs ++ [a]) ys ps)
    (hk : s.tdKse a = some ke) (hiq : s.kgIq kg = []) :
    Group g (((removed s ke).part a ke).setLast kg xs.getLast?) kg xs (a :: ys) ps := by
  have hassoc : xs ++ [a] ++ ys = xs ++ a :: ys := by simp
  have hnot : a ∉ xs := by
    have hnodup := h.nodup
    rw [hassoc, append_assoc] at hnodup
    exact fun hx => (nodup_append.1 hnodup).2.2 a hx a (by simp) rfl
  have hq := h.queue
  have hnodup := h.nodup
  have hsorted := h.sorted
  have hcount := h.count
  rw [hassoc] at hq hnodup hsorted hcount
  exact
    { queue := hq
      nodup := hnodup
      members := fun t => by rw [← hassoc]; exact h.members t
      sorted := hsorted
      assigned := fun t ht => by
        obtain ⟨k, hk', hkg, hst⟩ := h.assigned t (mem_append_left _ ht)
        have hta : t ≠ a := fun heq => hnot (heq ▸ ht)
        have hne : k ≠ ke := by
          rintro rfl
          have hthread := (hbase.inverse t k).1 hk'
          rw [(hbase.inverse a k).1 hk] at hthread; exact hta (Option.some.inj hthread).symm
        exact ⟨k, by simpa [Sys.setLast, Sys.part, removed, hta] using hk', hkg,
          by simpa [Sys.setLast, Sys.part, removed, hne] using hst⟩
      unassigned := fun t ht => by
        by_cases heq : t = a
        · simp [Sys.setLast, Sys.part, heq]
        · have hmem : t ∈ ys ++ ps := by
            rcases mem_cons.1 ht with rfl | ht
            · exact absurd rfl heq
            · exact ht
          simpa [Sys.setLast, Sys.part, removed, heq] using h.unassigned t hmem
      last := by simp [Sys.setLast]
      count := hcount
      idleCount := h.idleCount
      idleNodup := h.idleNodup
      idle := fun k => by
        have hidle := h.idle k
        by_cases heq : k = ke
        · subst heq; simp [Sys.setLast, Sys.part, removed, hiq]
        · simpa [Sys.setLast, Sys.part, removed, heq] using hidle
      idleThread := fun k hk => by
        have hnil : k ∈ s.kgIq kg := hk
        rw [hiq] at hnil
        cases hnil
      busy := fun _ => hiq }

/-- A thread leaves the queue, and its KSE, if it has one, the run queue. -/
theorem Group.leave (hbase : Base g s) (h : Group g s kg xs ys [])
    (hq : u.kgRunq kg = (xs ++ ys).erase td) (ht : td ∈ xs ++ ys)
    (hlast : u.kgLastAssigned kg = (xs.erase td).getLast?)
    (hcount : u.kgRunnable kg = s.kgRunnable kg + -1) (hstate : u.tdState td ≠ .runq)
    (hstate' : ∀ t, t ≠ td → u.tdState t = s.tdState t)
    (hpri : ∀ t, t ≠ td → u.tdPriority t = s.tdPriority t) (hkse : u.tdKse = s.tdKse)
    (hthread : u.keThread = s.keThread)
    (hke : ∀ k, s.tdKse td ≠ some k → u.keState k = s.keState k)
    (hke' : ∀ k, s.tdKse td = some k → u.keState k ≠ .idle) (hiq : u.kgIq kg = s.kgIq kg)
    (hidle : u.kgIdleKses kg = s.kgIdleKses kg) :
    Group g u kg (xs.erase td) (ys.erase td) [] := by
  have hnodup := h.nodup
  rw [append_nil] at hnodup
  have hparts : (xs ++ ys).erase td = xs.erase td ++ ys.erase td := erase_parts hnodup
  have hmem : ∀ t, t ∈ xs.erase td ++ ys.erase td ↔ t ≠ td ∧ t ∈ xs ++ ys := fun t => by
    rw [← hparts, hnodup.mem_erase_iff]
  exact
    { queue := hq.trans hparts
      nodup := by rw [append_nil, ← hparts]; exact hnodup.erase td
      members := fun t => by
        have hm := h.members t
        rw [append_nil] at hm
        rw [append_nil, hmem, hm]
        by_cases heq : t = td
        · subst heq; simp [hstate]
        · rw [hstate' t heq]; simp [heq]
      sorted := by
        rw [← hparts]
        refine (h.sorted.sublist erase_sublist).imp_of_mem fun {b c} hb hc hbc => ?_
        rw [hpri b (hnodup.mem_erase_iff.1 hb).1, hpri c (hnodup.mem_erase_iff.1 hc).1]; exact hbc
      assigned := fun t ht' => by
        obtain ⟨k, hk, hkg, hst⟩ := h.assigned t (mem_of_mem_erase ht')
        have hne : t ≠ td := ((hmem t).1 (mem_append_left _ ht')).1
        refine ⟨k, by rw [hkse, hk], hkg, ?_⟩
        rw [hke k fun hk' => hne ?_, hst]
        have hthread' := (hbase.inverse t k).1 hk
        rw [(hbase.inverse td k).1 hk'] at hthread'; exact (Option.some.inj hthread').symm
      unassigned := fun t ht' => by
        rw [append_nil] at ht'
        rw [hkse]; exact h.unassigned t (mem_append_left _ (mem_of_mem_erase ht'))
      last := hlast
      count := by
        rw [append_nil, ← hparts, length_erase_of_mem ht, hcount, h.count,
          append_nil]
        have hpos := length_pos_of_mem ht; omega
      idleCount := by rw [hidle, hiq, h.idleCount]
      idleNodup := hiq ▸ h.idleNodup
      idle := fun k => by
        rw [hiq, h.idle k]
        refine and_congr_right fun _ => ?_
        by_cases hk : s.tdKse td = some k
        · have hx : td ∈ xs := by
            rw [← h.kse_iff (by simpa using ht), hk]
            simp
          obtain ⟨k', hk', -, hst⟩ := h.assigned td hx
          rw [hk] at hk'
          obtain rfl := Option.some.inj hk'
          simp [hst, hke' k hk]
        · rw [hke k hk]
      idleThread := fun k hk => by rw [hthread]; exact h.idleThread k (hiq ▸ hk)
      busy := fun hne => by
        rw [hiq]
        refine h.busy fun hy => hne ?_
        rw [hy]
        rfl }

/-- The first thread without a KSE gets one. -/
theorem Group.reassign (h : Group g s kg xs (a :: ys) []) (hke : g.keKsegrp ke = kg)
    (hrunq : s.keState ke ≠ .onrunq) (hidle : s.keState ke ≠ .idle) :
    Group g (added ((s.setLast kg (some a)).join a ke) a ke) kg (xs ++ [a]) ys [] := by
  have hassoc : xs ++ a :: ys = xs ++ [a] ++ ys := by simp
  have hq := h.queue
  have hnodup := h.nodup
  have hmembers := h.members
  have hsorted := h.sorted
  have hcount := h.count
  rw [hassoc] at hq hnodup hmembers hsorted hcount
  rw [append_nil] at hnodup
  exact
    { queue := hq
      nodup := by rwa [append_nil]
      members := hmembers
      sorted := hsorted
      assigned := fun t ht => by
        by_cases heq : t = a
        · subst heq; exact ⟨ke, by simp [added, Sys.join], hke, by simp [added]⟩
        · have hx : t ∈ xs := by
            rcases mem_append.1 ht with hx | ha
            · exact hx
            · exact absurd (mem_singleton.1 ha) heq
          obtain ⟨k, hk, hkg, hst⟩ := h.assigned t hx
          have hne : k ≠ ke := by rintro rfl; exact hrunq hst
          exact ⟨k, by simpa [added, Sys.join, Sys.setLast, heq] using hk, hkg,
            by simpa [added, Sys.join, Sys.setLast, hne] using hst⟩
      unassigned := fun t ht => by
        have hne : t ≠ a := by
          rintro rfl
          rw [append_nil] at ht; exact (nodup_append.1 hnodup).2.2 t (by simp) t ht rfl
        have hnone := h.unassigned t (by simp at ht ⊢; exact .inr ht)
        simpa [added, Sys.join, Sys.setLast, hne] using hnone
      last := by simp [added, Sys.join, Sys.setLast]
      count := hcount
      idleCount := h.idleCount
      idleNodup := h.idleNodup
      idle := fun k => by
        have hiq := h.idle k
        by_cases hk : k = ke
        · subst hk; simp [added, Sys.join, Sys.setLast, hiq, hidle]
        · simpa [added, Sys.join, Sys.setLast, hk] using hiq
      idleThread := fun k hk => by
        have hne : k ≠ ke := by rintro rfl; exact hidle ((h.idle k).1 hk).2
        simpa [added, Sys.join, Sys.setLast, hne] using h.idleThread k hk
      busy := fun _ => h.busy (by simp) }

/-- Where every thread of the queue has a KSE, a KSE goes idle. -/
theorem Group.idled (h : Group g s kg xs [] ps) (hke : g.keKsegrp ke = kg)
    (hrunq : s.keState ke ≠ .onrunq) (hidle : s.keState ke ≠ .idle) :
    Group g (idled s kg ke) kg xs [] ps := by
  have hnot : ke ∉ s.kgIq kg := fun hmem => hidle ((h.idle ke).1 hmem).2
  exact
    { h with
      assigned := fun t ht => by
        obtain ⟨k, hk, hkg, hst⟩ := h.assigned t ht
        have hne : k ≠ ke := by rintro rfl; exact hrunq hst
        exact ⟨k, hk, hkg, by simpa [KernSwitch.idled, hne] using hst⟩
      idleCount := by simp [KernSwitch.idled, h.idleCount]
      idleNodup := by
        simp only [KernSwitch.idled, Function.update_self]
        exact nodup_append.2 ⟨h.idleNodup, nodup_singleton ke, fun a ha b hb heq => by
          rw [mem_singleton.1 hb] at heq
          exact hnot (heq ▸ ha)⟩
      idle := fun k => by
        have hiq := h.idle k
        by_cases hk : k = ke
        · subst hk; simp [KernSwitch.idled, hke]
        · simpa [KernSwitch.idled, hk] using hiq
      idleThread := fun k hk => by
        by_cases heq : k = ke
        · simp [KernSwitch.idled, heq]
        · have hmem : k ∈ s.kgIq kg := by simpa [KernSwitch.idled, heq] using hk
          simpa [KernSwitch.idled, heq] using h.idleThread k hmem
      busy := fun hne => absurd rfl hne }

theorem stepBack_eq (h : Group g s kg xs ys ps) (ht : td ∈ xs ++ ys) (hq : u.kgRunq kg = xs ++ ys)
    (hl : u.kgLastAssigned kg = xs.getLast?) :
    u.stepBack kg td = u.setLast kg (xs.erase td).getLast? := by
  unfold Sys.stepBack
  by_cases hlast : xs.getLast? = some td
  · obtain ⟨zs, rfl⟩ := List.getLast?_eq_some_iff.1 hlast
    have hnodup := h.nodup
    rw [append_assoc, append_assoc] at hnodup
    have hnot : td ∉ zs := fun hz => (nodup_append.1 hnodup).2.2 td hz td (by simp) rfl
    rw [if_pos (hl.trans hlast), hq, append_assoc, singleton_append, prevIn_append hnot,
      erase_append hnot, append_nil]
  · rw [if_neg fun heq => hlast (hl.symm.trans heq), getLast?_erase hlast, setLast_self hl]

/-! ## The functions -/

/-- A thread on no run queue changes. -/
theorem Inv.setState (h : Inv g s) (hs : s.tdState td ≠ .runq) (hstate : state ≠ .runq) :
    Inv g (s.setState td state) := by
  refine h.of_group (g.tdKsegrp td)
    (h.base.setState (.inr fun ke hk => h.base.not_onrunq hk hs))
    (fun kg' hkg' => sameGroup_setState (Ne.symm hkg')) (fun hsa => ?_) (fun hsa => ?_)
  · obtain ⟨xs, ys, hg⟩ := h.groups _ hsa
    refine ⟨xs, ys, { hg with members := fun t => ?_ }⟩
    have hmem := hg.members t
    by_cases ht : t = td
    · subst ht; simpa [Sys.setState, hstate, hs] using hmem
    · simpa [Sys.setState, ht] using hmem
  · intro t ht hst
    have hne : t ≠ td := by rintro rfl; simp [Sys.setState, hstate] at hst
    exact h.plain _ hsa t ht (by simpa [Sys.setState, hne] using hst)

theorem Inv.setPriority (h : Inv g s) (hs : s.tdState td ≠ .runq) :
    Inv g (s.setPriority td pri) := by
  refine h.of_group (g.tdKsegrp td) h.base.setPriority
    (fun kg' hkg' => sameGroup_setPriority (Ne.symm hkg')) (fun hsa => ?_) (fun hsa => ?_)
  · obtain ⟨xs, ys, hg⟩ := h.groups _ hsa
    refine ⟨xs, ys, { hg with sorted := ?_ }⟩
    have hne : ∀ t ∈ xs ++ ys, t ≠ td := by
      rintro t ht rfl; exact hs ((hg.members t).1 (mem_append_left _ ht)).2
    refine hg.sorted.imp_of_mem fun {b c} hb hc hbc => ?_
    simpa [Sys.setPriority, hne b hb, hne c hc] using hbc
  · exact h.plain _ hsa

/-- A thread on no run queue and its KSE part. -/
theorem Inv.part (h : Inv g s) (hs : s.tdState td ≠ .runq) (hk : s.tdKse td = some ke) :
    Inv g (s.part td ke) := by
  have hrunq := h.base.not_onrunq hk hs
  have hsame := h.base.sameGroup td ke hk
  refine h.of_group (g.tdKsegrp td) (h.base.part hk hrunq)
    (fun kg' hkg' => sameGroup_part (Ne.symm hkg') (hsame ▸ Ne.symm hkg')) (fun hsa => ?_)
    (fun hsa => ?_)
  · obtain ⟨xs, ys, hg⟩ := h.groups _ hsa
    refine ⟨xs, ys, hg.part fun hx => ?_⟩
    exact hs ((hg.members td).1 (by simp [hx])).2
  · intro t ht hst
    have hne : t ≠ td := by rintro rfl; exact hs hst
    obtain ⟨k, hk', hkg, hst'⟩ := h.plain _ hsa t ht hst
    exact ⟨k, by simpa [Sys.part, hne] using hk', hkg, hst'⟩

/-- The KSE goes where it has to. -/
theorem giveKse_keeps (hbase : Base g s) (h : Group g s kg xs ys [td]) (htd : g.tdKsegrp td = kg)
    (hke : g.keKsegrp ke = kg) (hthread : s.keThread ke = none) (hrunq : s.keState ke ≠ .onrunq)
    (hidle : s.keState ke ≠ .idle) :
    ∃ s' xs' ys',
      giveKse g (s.setRunq kg (insert s.tdPriority td (xs ++ ys))) td ke xs.getLast? = some s' ∧
      Base g s' ∧ Group g s' kg xs' ys' [] ∧ ∀ kg', kg' ≠ kg → SameGroup g s s' kg' := by
  -- the KSE goes to `a`, and the threads with a KSE are then `xs'`
  have hfinal : ∀ (a : Td) (xs' ys' : List Td), a ∈ ys ++ [td] →
      insert s.tdPriority td (xs ++ ys) = xs' ++ ys' → xs'.Perm (a :: xs) →
      ∃ s', schedAdd (((s.setRunq kg (insert s.tdPriority td (xs ++ ys))).join a ke).setLast kg
          xs'.getLast?) a = some s' ∧
        Base g s' ∧ Group g s' kg xs' ys' [] ∧ ∀ kg', kg' ≠ kg → SameGroup g s s' kg' := by
    intro a xs' ys' ha hins hperm
    have hmem : a ∈ xs ++ ys ++ [td] := by rw [append_assoc]; exact mem_append_right _ ha
    obtain ⟨hakg, hastate⟩ := (h.members a).1 hmem
    have hjoin : Base g (((s.setRunq kg (insert s.tdPriority td (xs ++ ys))).join a ke).setLast kg
        xs'.getLast?) :=
      (hbase.setRunq.join (h.unassigned a ha) hthread (hke.trans hakg.symm)).setLast
    have hak : (((s.setRunq kg (insert s.tdPriority td (xs ++ ys))).join a ke).setLast kg
        xs'.getLast?).tdKse a = some ke := by simp [Sys.setLast, Sys.join]
    refine ⟨_, schedAdd_eq hjoin hak hrunq, hjoin.added hak hrunq hastate, ?_, fun kg' hne => ?_⟩
    · rw [hins]; exact h.assign hins hperm hke hrunq hidle
    · have hane : g.tdKsegrp a ≠ kg' := fun heq => hne (heq.symm.trans hakg)
      have hkne : g.keKsegrp ke ≠ kg' := fun heq => hne (heq.symm.trans hke)
      exact (((sameGroup_setRunq hne).trans (sameGroup_join hane hkne)).trans
        (sameGroup_setLast hne)).trans (sameGroup_added hkne)
  have hrunqueue : (s.setRunq kg (insert s.tdPriority td (xs ++ ys))).kgRunq kg
      = insert s.tdPriority td (xs ++ ys) := by simp [Sys.setRunq]
  unfold giveKse
  simp only [htd, hrunqueue]
  cases hlast : xs.getLast? with
  | none =>
    obtain rfl := List.getLast?_eq_none_iff.1 hlast
    cases hins : insert s.tdPriority td ([] ++ ys) with
    | nil =>
      have hlen := (insert_perm s.tdPriority td ([] ++ ys)).length_eq
      rw [hins] at hlen
      cases hlen
    | cons x rest =>
      have hx : x ∈ ys ++ [td] := by
        have hmem := (insert_perm s.tdPriority td ([] ++ ys)).mem_iff.1
          (hins ▸ mem_cons_self (a := x) (l := rest))
        simp only [nil_append, mem_cons] at hmem; simp [hmem, or_comm]
      obtain ⟨s', hrun, hb, hg, hsame⟩ := hfinal x [x] rest hx hins (List.Perm.refl _)
      have hnone : ((s.setRunq kg (x :: rest)).tdKse x = none) := h.unassigned x hx
      rw [hins] at hrun
      refine ⟨s', [x], rest, ?_, hb, hg, hsame⟩
      simp only [List.head?_cons, Option.bind_eq_bind, Option.bind_some, hnone, guard, if_true]
      exact hrun
  | some b =>
    have hb : b ∈ xs := mem_of_getLast? hlast
    have hpri : (s.setRunq kg (insert s.tdPriority td (xs ++ ys))).tdPriority = s.tdPriority := rfl
    simp only [hpri]
    by_cases hlt : s.tdPriority b > s.tdPriority td
    · -- the thread is in front of the last assigned one
      obtain ⟨s', hrun, hbase', hg, hsame⟩ := hfinal td (insert s.tdPriority td xs) ys (by simp)
        (insert_append_of_lt hb hlt) (insert_perm _ _ _)
      have hl : ((s.setRunq kg (insert s.tdPriority td (xs ++ ys))).join td ke).kgLastAssigned kg
          = some b := h.last.trans hlast
      rw [getLast?_insert_of_lt hlast hlt, setLast_self hl] at hrun
      rw [if_pos hlt]; exact ⟨s', _, ys, hrun, hbase', hg, hsame⟩
    · -- the thread is behind it, and the next thread gets the KSE
      have hle : ∀ a ∈ xs, s.tdPriority a ≤ s.tdPriority td := fun a ha => by
        have hsorted : Sorted s.tdPriority xs := h.sorted.sublist (sublist_append_left xs ys)
        exact (hsorted.le_last hlast ha).trans (not_lt.1 hlt)
      have hins : insert s.tdPriority td (xs ++ ys) = xs ++ insert s.tdPriority td ys :=
        insert_append_of_le hle
      cases hy : insert s.tdPriority td ys with
      | nil =>
        have hlen := (insert_perm s.tdPriority td ys).length_eq
        rw [hy] at hlen
        cases hlen
      | cons x rest =>
        have hx : x ∈ ys ++ [td] := by
          have hmem := (insert_perm s.tdPriority td ys).mem_iff.1
            (hy ▸ mem_cons_self (a := x) (l := rest))
          simp only [mem_cons] at hmem; simp [hmem, or_comm]
        have hins' : insert s.tdPriority td (xs ++ ys) = (xs ++ [x]) ++ rest := by
          rw [hins, hy]; simp
        have hnext : nextIn b (insert s.tdPriority td (xs ++ ys)) = some x := by
          obtain ⟨zs, rfl⟩ := List.getLast?_eq_some_iff.1 hlast
          have hnot : b ∉ zs := by
            have hnodup := h.nodup
            rw [append_assoc, append_assoc] at hnodup
            exact fun hz => (nodup_append.1 hnodup).2.2 b hz b (by simp) rfl
          have hsplit : zs ++ [b] ++ [x] ++ rest = zs ++ b :: (x :: rest) := by simp
          rw [hins', hsplit, nextIn_append hnot]; rfl
        obtain ⟨s', hrun, hbase', hg, hsame⟩ := hfinal x (xs ++ [x]) rest hx hins'
          (perm_append_singleton x xs)
        rw [List.getLast?_concat] at hrun
        refine ⟨s', xs ++ [x], rest, ?_, hbase', hg, hsame⟩
        rw [if_neg hlt, hnext]; exact hrun

/-- `takeKse` finds a KSE, or leaves the thread behind those that have one. -/
theorem takeKse_spec (hbase : Base g s) (h : Group g s kg xs ys [td]) (htd : g.tdKsegrp td = kg)
    (hnone : s.tdKse td = none) :
    ∃ u ke xs' ys', takeKse g s td = some (u, ke, xs'.getLast?) ∧ Base g u ∧
      Group g u kg xs' ys' [td] ∧ (∀ kg', kg' ≠ kg → SameGroup g s u kg') ∧
      match ke with
      | some ke => g.keKsegrp ke = kg ∧ u.keThread ke = none ∧ u.keState ke ≠ .onrunq ∧
          u.keState ke ≠ .idle
      | none => u.kgIq kg = [] ∧ ∀ a ∈ xs', u.tdPriority a ≤ u.tdPriority td := by
  unfold takeKse
  simp only [htd, hnone]
  cases hiq : s.kgIq kg with
  | cons k rest =>
    obtain ⟨hkkg, hkidle⟩ := (h.idle k).1 (by simp [hiq])
    have hcount : s.kgIdleKses kg ≠ 0 := by
      rw [h.idleCount, hiq]
      simp
      omega
    have hthread := h.idleThread k (by simp [hiq])
    rw [if_pos hcount]
    refine ⟨popped s kg k, some k, xs, ys, ?_, ?_, h.popped hiq, fun kg' hne => ?_, hkkg, hthread,
      by simp [popped], by simp [popped]⟩
    · rw [h.last]; simp [hiq, popped]
    · have hst : KeState.thread ≠ .onrunq := by simp
      have hset := hbase.setKeState (show s.keState k ≠ .onrunq by simp [hkidle]) hst
      exact ⟨hset.inverse, hset.sameGroup, hset.runqNodup, hset.onrunq, hset.runnable⟩
    · refine { SameGroup.refl with
        iq := by simp [popped, hne], idle := by simp [popped, hne], keState := fun k' hk' => ?_ }
      have hkk : k' ≠ k := by rintro rfl; exact hne (hk'.symm.trans hkkg)
      simp [popped, hkk]
  | nil =>
    have hcount : ¬ s.kgIdleKses kg ≠ 0 := by rw [h.idleCount, hiq]; simp
    rw [if_neg hcount, h.last]
    cases hlast : xs.getLast? with
    | none =>
      obtain rfl := List.getLast?_eq_none_iff.1 hlast
      exact ⟨s, none, [], ys, rfl, hbase, h, fun _ _ => SameGroup.refl, hiq, by simp⟩
    | some b =>
      dsimp only
      by_cases hlt : s.tdPriority b > s.tdPriority td
      · -- the last assigned thread has a worse priority, and loses its KSE
        obtain ⟨zs, rfl⟩ := List.getLast?_eq_some_iff.1 hlast
        obtain ⟨k, hk, hkkg, hkrunq⟩ := h.assigned b (by simp)
        have hbkg : g.tdKsegrp b = kg := h.mem_group (by simp)
        have hnot : b ∉ zs := by
          have hnodup := h.nodup
          rw [append_assoc, append_assoc] at hnodup
          exact fun hz => (nodup_append.1 hnodup).2.2 b hz b (by simp) rfl
        have hprev : prevIn b (s.kgRunq kg) = zs.getLast? := by
          rw [h.queue, append_assoc, singleton_append, prevIn_append hnot]
        have hpart : (removed s k).keState k ≠ .onrunq := by simp [removed]
        rw [if_pos hlt]
        refine ⟨((removed s k).part b k).setLast kg zs.getLast?, some k, zs, b :: ys, ?_,
          (hbase.removed.part hk hpart).setLast, h.commandeer hbase hk hiq, fun kg' hne => ?_, hkkg,
          by simp [Sys.setLast, Sys.part], hpart, by simp [Sys.setLast, Sys.part, removed]⟩
        · have hq : (removed s k).kgRunq kg = s.kgRunq kg := rfl
          simp only [hk, schedRem_eq hk hkrunq, Option.bind_eq_bind, Option.bind_some, hq, hprev]
        · have hbne : g.tdKsegrp b ≠ kg' := fun heq => hne (heq.symm.trans hbkg)
          have hkne : g.keKsegrp k ≠ kg' := fun heq => hne (heq.symm.trans hkkg)
          exact ((sameGroup_removed hkne).trans (sameGroup_part hbne hkne)).trans
            (sameGroup_setLast hne)
      · have hsorted : Sorted s.tdPriority xs := h.sorted.sublist (sublist_append_left xs ys)
        rw [if_neg hlt]
        refine ⟨s, none, xs, ys, by rw [hlast], hbase, h, fun _ _ => SameGroup.refl, hiq, ?_⟩
        exact fun a ha => (hsorted.le_last hlast ha).trans (not_lt.1 hlt)

theorem setrunqueue_keeps (h : Inv g s) (hs : s.tdState td = .canRun ∨ s.tdState td = .running)
    (hkse : g.sa (g.tdKsegrp td) = false → s.tdKse td ≠ none) :
    ∃ s', setrunqueue g s td = some s' ∧ Inv g s' := by
  have hoff : s.tdState td ≠ .runq := by
    rcases hs with hs | hs <;> rw [hs] <;> simp
  obtain ⟨kg, hkg⟩ : ∃ kg, g.tdKsegrp td = kg := ⟨_, rfl⟩
  obtain ⟨s₁, hs₁⟩ : ∃ s₁, s₁ = (s.setState td .runq).addRunnable kg 1 := ⟨_, rfl⟩
  have hstate₁ : s₁.tdState td = .runq := by simp [hs₁, Sys.addRunnable, Sys.setState]
  have hbase₁ : Base g s₁ := hs₁ ▸ (h.base.setState (.inl rfl)).addRunnable
  have hsame₁ : ∀ kg', kg' ≠ kg → SameGroup g s s₁ kg' := fun kg' hne =>
    hs₁ ▸ (sameGroup_setState (hkg ▸ Ne.symm hne)).trans (sameGroup_addRunnable hne)
  unfold setrunqueue
  simp only [hs, guard, if_true, Option.bind_eq_bind, Option.pure_def, Option.bind_some, hkg, ← hs₁]
  cases hsa : g.sa kg with
  | false =>
    obtain ⟨ke, hke⟩ := Option.ne_none_iff_exists'.1 (hkse (hkg ▸ hsa))
    have hke₁ : s₁.tdKse td = some ke := by rw [hs₁]; exact hke
    have hrunq : s₁.keState ke ≠ .onrunq := by rw [hs₁]; exact h.base.not_onrunq hke hoff
    have hkekg : g.keKsegrp ke = kg := (h.base.sameGroup td ke hke).trans hkg
    refine ⟨_, by simpa using schedAdd_eq hbase₁ hke₁ hrunq, ?_⟩
    refine h.of_group kg (hbase₁.added hke₁ hrunq hstate₁) (fun kg' hne => ?_)
      (fun hsa' => by rw [hsa] at hsa'; cases hsa') (fun _ => ?_)
    · exact (hsame₁ kg' hne).trans (sameGroup_added (hkekg ▸ Ne.symm hne))
    · intro t ht hst
      by_cases heq : t = td
      · subst heq; exact ⟨ke, hke₁, hkekg, by simp [added]⟩
      · have hst' : s.tdState t = .runq := by
          simpa [added, hs₁, Sys.addRunnable, Sys.setState, heq] using hst
        obtain ⟨k, hk, hkkg, hkst⟩ := h.plain kg hsa t ht hst'
        refine ⟨k, by rw [← hk, hs₁]; rfl, hkkg, ?_⟩
        by_cases hkeq : k = ke
        · simp [added, hkeq]
        · simpa [added, hs₁, Sys.addRunnable, Sys.setState, hkeq] using hkst
  | true =>
    obtain ⟨xs, ys, hg⟩ := h.groups kg hsa
    rw [if_pos rfl]
    -- what the choice of a KSE comes to
    have htake : ∃ u ke xs' ys', takeKse g s₁ td = some (u, ke, xs'.getLast?) ∧ Base g u ∧
        Group g u kg xs' ys' [td] ∧ (∀ kg', kg' ≠ kg → SameGroup g s₁ u kg') ∧
        match ke with
        | some ke => g.keKsegrp ke = kg ∧ u.keThread ke = none ∧ u.keState ke ≠ .onrunq ∧
            u.keState ke ≠ .idle
        | none => u.kgIq kg = [] ∧ ∀ a ∈ xs', u.tdPriority a ≤ u.tdPriority td := by
      cases hk : s.tdKse td with
      | none =>
        have hk₁ : s₁.tdKse td = none := by rw [hs₁]; exact hk
        exact takeKse_spec hbase₁ (hs₁ ▸ hg.enter hkg hoff hk) hkg hk₁
      | some k =>
        have hk₁ : s₁.tdKse td = some k := by rw [hs₁]; exact hk
        have hrunq := h.base.not_onrunq hk hoff
        have hkkg : g.keKsegrp k = kg := (h.base.sameGroup td k hk).trans hkg
        have hthread := (h.base.inverse td k).1 hk
        have hnot : td ∉ xs := fun hx => hoff ((hg.members td).1 (by simp [hx])).2
        have hpart : Group g (s₁.part td k) kg xs ys [td] :=
          hs₁ ▸ (hg.part hnot).enter hkg hoff (by simp [Sys.part])
        have hidle : s.keState k ≠ .idle := fun hst => by
          rw [hg.idleThread k ((hg.idle k).2 ⟨hkkg, hst⟩)] at hthread
          cases hthread
        refine ⟨s₁.part td k, some k, xs, ys, ?_, hbase₁.part hk₁ (by rw [hs₁]; exact hrunq), hpart,
          fun kg' hne => sameGroup_part (hkg ▸ Ne.symm hne) (hkkg ▸ Ne.symm hne), hkkg,
          by simp [Sys.part], by rw [hs₁]; exact hrunq, by rw [hs₁]; exact hidle⟩
        have hlast : s₁.kgLastAssigned kg = xs.getLast? := by rw [hs₁]; exact hg.last
        unfold takeKse; simp only [hk₁, hkg, hlast]
    obtain ⟨u, ke, xs', ys', htake, hbaseu, hgu, hsameu, hcase⟩ := htake
    have hsame : ∀ kg', kg' ≠ kg → SameGroup g s u kg' := fun kg' hne =>
      (hsame₁ kg' hne).trans (hsameu kg' hne)
    have hplain : g.sa kg = false → Plain g s kg := fun hsa' => by rw [hsa] at hsa'; cases hsa'
    rw [htake]
    simp only [Option.bind_some, hgu.queue]
    cases ke with
    | some ke =>
      obtain ⟨hkkg, hthread, hrunq, hidle⟩ := hcase
      obtain ⟨s', zs, ws, hrun, hbase', hg', hsame'⟩ :=
        giveKse_keeps hbaseu hgu hkg hkkg hthread hrunq hidle
      refine ⟨s', hrun, h.of_group kg hbase' (fun kg' hne => ?_) (fun _ => ⟨zs, ws, hg'⟩)
        (fun hsa' => by rw [hsa] at hsa'; cases hsa')⟩
      exact (hsame kg' hne).trans (hsame' kg' hne)
    | none =>
      obtain ⟨hiq, hle⟩ := hcase
      refine ⟨_, rfl, h.of_group kg hbaseu.setRunq (fun kg' hne => ?_)
        (fun _ => ⟨xs', _, hgu.enqueue hle hiq⟩) (fun hsa' => by rw [hsa] at hsa'; cases hsa')⟩
      exact (hsame kg' hne).trans (sameGroup_setRunq hne)

theorem kseReassign_keeps (h : Inv g s) (hsa : g.sa (g.keKsegrp ke) = true)
    (hidle : s.keState ke ≠ .idle) (hs : ∀ td, s.keThread ke = some td → s.tdState td =
      .inhibited) :
    ∃ s', kseReassign g s ke = some s' ∧ Inv g s' := by
  obtain ⟨kg, hkg⟩ : ∃ kg, g.keKsegrp ke = kg := ⟨_, rfl⟩
  rw [hkg] at hsa
  have hrunq : s.keState ke ≠ .onrunq := by
    intro hst
    obtain ⟨t, ht, hstate⟩ := h.base.runnable ke hst
    rw [hs t ((h.base.inverse t ke).1 ht)] at hstate
    cases hstate
  -- the state after the first assignment, and the one in which the KSE has no thread
  obtain ⟨v, hv, hstv, hinv⟩ : ∃ v : Sys Td Ke Kg,
      unbind s (s.keThread ke) = v ∧ v.keState = s.keState ∧
      Inv g { v with keThread := Function.update v.keThread ke none } ∧
      ∀ kg', kg' ≠ kg →
        SameGroup g s { v with keThread := Function.update v.keThread ke none } kg' := by
    cases hthread : s.keThread ke with
    | none =>
      refine ⟨s, rfl, rfl, ?_⟩
      rw [← hthread, Function.update_eq_self]; exact ⟨h, fun _ _ => SameGroup.refl⟩
    | some t =>
      have hoff : s.tdState t ≠ .runq := by rw [hs t hthread]; simp
      have hk := (h.base.inverse t ke).2 hthread
      have htkg : g.tdKsegrp t = kg := (h.base.sameGroup t ke hk).symm.trans hkg
      exact ⟨_, rfl, rfl, h.part hoff hk,
        fun kg' hne => sameGroup_part (htkg ▸ Ne.symm hne) (hkg ▸ Ne.symm hne)⟩
  obtain ⟨hinv, hsamev⟩ := hinv
  obtain ⟨u, hu⟩ : ∃ u : Sys Td Ke Kg,
    u = { v with keThread := Function.update v.keThread ke none } := ⟨_, rfl⟩
  rw [← hu] at hinv hsamev
  have huthread : u.keThread ke = none := by simp [hu]
  have hurunq : u.keState ke ≠ .onrunq := by rw [hu]; simpa [hstv] using hrunq
  have huidle : u.keState ke ≠ .idle := by rw [hu]; simpa [hstv] using hidle
  have hjoin : ∀ x, (v.setLast kg (some x)).join x ke = (u.setLast kg (some x)).join x ke := by
    intro x; simp [hu, Sys.setLast, Sys.join]
  have hidled : idled v kg ke = idled u kg ke := by simp [hu, idled]
  obtain ⟨xs, ys, hg⟩ := hinv.groups kg hsa
  have hvq : v.kgRunq kg = xs ++ ys := by rw [← hg.queue, hu]
  have hvl : v.kgLastAssigned kg = xs.getLast? := by rw [← hg.last, hu]
  have hplain : g.sa kg = false → Plain g u kg := fun hsa' => by rw [hsa] at hsa'; cases hsa'
  have hguard : (s.keThread ke).all (fun td => s.tdState td = .inhibited) = true := by
    cases hthread : s.keThread ke with
    | none => rfl
    | some t => simpa using hs t hthread
  unfold kseReassign
  simp only [guard, hguard, if_true, Option.bind_eq_bind, Option.pure_def, Option.bind_some, hkg,
    hv]
  -- the first thread without a KSE
  have hnext : firstUnassigned v kg = ys.head? := by
    unfold firstUnassigned
    rw [hvq, hvl]
    cases hlast : xs.getLast? with
    | none =>
      obtain rfl := List.getLast?_eq_none_iff.1 hlast
      rfl
    | some b =>
      obtain ⟨zs, rfl⟩ := List.getLast?_eq_some_iff.1 hlast
      have hnot : b ∉ zs := by
        have hnodup := hg.nodup
        rw [append_assoc, append_assoc] at hnodup
        exact fun hz => (nodup_append.1 hnodup).2.2 b hz b (by simp) rfl
      rw [append_assoc, singleton_append]; exact nextIn_append hnot
  rw [hnext]
  cases ys with
  | nil =>
    have hgi := hg.idled hkg hurunq huidle
    refine ⟨idled v kg ke, rfl, ?_⟩
    rw [hidled]
    have hbase : Base g (idled u kg ke) := by
      have hst : KeState.idle ≠ .onrunq := by simp
      have hset := hinv.base.setKeState hurunq hst
      refine ⟨fun t k => ?_, hset.sameGroup, hset.runqNodup, hset.onrunq, hset.runnable⟩
      have hiff := hinv.base.inverse t k
      by_cases hk : k = ke
      · subst hk
        rw [huthread] at hiff; simpa [idled] using hiff
      · simpa [idled, hk] using hiff
    refine h.of_group kg hbase (fun kg' hne => (hsamev kg' hne).trans ?_) (fun _ => ⟨xs, [], hgi⟩)
      (fun hsa' => by rw [hsa] at hsa'; cases hsa')
    refine { SameGroup.refl with
      iq := by simp [idled, hne], idle := by simp [idled, hne], keState := fun k hk => ?_,
      thread := fun k hk => ?_ }
    · have hkk : k ≠ ke := fun heq => hne (by rw [← hk, heq, hkg])
      simp [idled, hkk]
    · have hkk : k ≠ ke := fun heq => hne (by rw [← hk, heq, hkg])
      simp [idled, hkk]
  | cons x ys =>
    have hxmem : x ∈ xs ++ (x :: ys) ++ [] := by simp
    obtain ⟨hxkg, hxstate⟩ := (hg.members x).1 hxmem
    have hxnone := hg.unassigned x (by simp)
    have hbase : Base g ((u.setLast kg (some x)).join x ke) :=
      hinv.base.setLast.join hxnone huthread (hkg.trans hxkg.symm)
    have hxk : ((u.setLast kg (some x)).join x ke).tdKse x = some ke := by simp [Sys.join]
    refine ⟨added ((u.setLast kg (some x)).join x ke) x ke, ?_, ?_⟩
    · simp only [List.head?_cons, hjoin]; exact schedAdd_eq hbase hxk hurunq
    · refine h.of_group kg (hbase.added hxk hurunq hxstate) (fun kg' hne => ?_)
        (fun _ => ⟨xs ++ [x], ys, hg.reassign hkg hurunq huidle⟩)
        (fun hsa' => by rw [hsa] at hsa'; cases hsa')
      exact (((hsamev kg' hne).trans (sameGroup_setLast hne)).trans
        (sameGroup_join (hxkg ▸ Ne.symm hne) (hkg ▸ Ne.symm hne))).trans
        (sameGroup_added (hkg ▸ Ne.symm hne))

end FreeBSD.KernSwitch
