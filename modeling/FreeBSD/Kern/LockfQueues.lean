import FreeBSD.Kern.LockfSteps

/-!
# What the requests wait for

The lists of blocked requests after any run of requests on a file, with sleeps
that end by a wakeup or are interrupted.

Results:
* `queued_of_run`: while no `off_t` arithmetic wraps around, a request is queued
  on a lock of another owner that is on the list and that it is incompatible with.
* `queued_on_freed_lock`: where a lock was cut behind `OFF_MAX`, a request can be
  left on a lock that has been freed.
-/

namespace FreeBSD.KernLockf

open FreeBSD.Lib Entry

/-- The request `w` is blocked on the lock `a`, and rightly so. -/
structure QueuedOn (k : Kern) (f a w : ℕ) : Prop where
  next : (k.lockf w).lfNext = some a
  onList : a ∈ k.locks f
  live : k.live a = true
  other : (k.lockf a).lfId ≠ (k.lockf w).lfId
  overlap : ∃ x, 0 ≤ x ∧ x ≤ offMax ∧ (k.lockf a).Covers x ∧ (k.lockf w).Covers x
  excl : (k.lockf w).lfType = .wrlck ∨ (k.lockf a).lfType = .wrlck

theorem Inv.queuedOn {k : Kern} {call : ℕ → Option ℕ} {f : ℕ} {l : List Entry}
    (h : Inv k call f l []) {a w : ℕ} (hw : w ∈ k.blkhd a) : QueuedOn k f a w := by
  have hC := h.repr.cells
  have ha : a ∈ (l ++ []).map Entry.addr := by
    by_contra hn
    rw [hC.off a hn] at hw
    cases hw
  rw [List.append_nil] at hC ha
  obtain ⟨e, he, rfl⟩ := List.mem_map.1 ha
  have hc := hC.cell e he
  rw [hc.blkhd] at hw
  obtain ⟨hid, hno, ht⟩ := h.blocked e he w hw
  obtain ⟨td, htd⟩ := h.waiting w (mem_waitersOf.2 ⟨e, he, hw⟩)
  have hv := (h.pending td w htd).valid
  have hve := h.sorted.valid e he
  refine ⟨hC.next e he w hw, ?_, hc.live, hc.id ▸ hid, ?_, hc.typ ▸ ht⟩
  · rw [h.repr.locks_eq]; exact ha
  · have h0 := hve.start_nonneg
    have h1 := hve.start_le
    have h2 : (k.lockf w).lfStart ≤ offMax := hv.start_le
    have h3 := hve.ranged
    have h4 : (k.lockf w).lfEnd = -1 ∨ (k.lockf w).lfStart ≤ (k.lockf w).lfEnd := hv.ranged
    refine ⟨max e.start (k.lockf w).lfStart, by omega, by omega, ?_, ?_⟩
    · unfold Lockf.Covers
      rw [hc.start, hc.stop]
      unfold noOverlap at hno; omega
    · unfold Lockf.Covers
      unfold noOverlap at hno; omega

/-- While no `off_t` arithmetic wraps around, every queued request is blocked by the lock it is
    queued on, and every sleeping thread is queued. -/
theorem queued_of_run {threads : ℕ → List ℕ} {pPid : ℕ → ℤ} {f : ℕ} {s : Sys}
    (hrun : Relation.ReflTransGen
      (fun s t => ∃ op r, op.On f ∧ op.Fits s f ∧ s.step op = some (t, r))
      (Sys.empty threads pPid) s) :
    (∀ a w, w ∈ s.k.blkhd a → QueuedOn s.k f a w) ∧
      ∀ td w, s.k.wchan td = some w → ∃ a, w ∈ s.k.blkhd a := by
  obtain ⟨l, h⟩ := (Inv.empty threads pPid f).run hrun
  refine ⟨fun a w hw => h.queuedOn hw, fun td w hw => ?_⟩
  obtain ⟨e, he, hwe⟩ := mem_waitersOf.1 (h.sleeping td w hw).2
  have hc := h.repr.cells.cell e (by simp [he])
  exact ⟨e.addr, hc.blkhd ▸ hwe⟩

/-- The owner 2 waits for bytes that the owner 1 has. -/
theorem queued_of_run_first : ∃ (s : Sys) (a w : ℕ), w ∈ s.k.blkhd a ∧ QueuedOn s.k 0 a w := by
  have hfits : ∀ td id t wait s,
      (lockRequest td id t wait ⟨0, by decide⟩ ⟨10, by decide⟩).Fits s 0 := by
    intro td id t wait s range hr
    have hrange : (0, 9) = range := Except.ok.inj hr
    subst hrange
    have h9 : (9 : ℤ) ≠ offMax := by decide
    exact ⟨fun _ => ⟨fun _ hend => absurd hend h9, fun _ _ hflock => by cases hflock⟩,
      fun hun => by cases hun⟩
  obtain ⟨s, hreach, hs⟩ := Sys.exists_of_run (s := Sys.empty (fun _ => []) fun _ => 0)
    (P := fun op => op.On 0 ∧ ∀ s, op.Fits s 0)
    (Q := fun s => decide (1 ∈ s.k.blkhd 0)) (b := true)
    [lockRequest 0 1 .wrlck false ⟨0, by decide⟩ ⟨10, by decide⟩,
      lockRequest 1 2 .wrlck true ⟨0, by decide⟩ ⟨10, by decide⟩]
    (by simpa using ⟨⟨⟨rfl, .inl ⟨rfl, by decide⟩⟩, hfits _ _ _ _⟩,
      ⟨rfl, .inl ⟨rfl, by decide⟩⟩, hfits _ _ _ _⟩) (by decide +kernel)
  have hw := of_decide_eq_true hs
  refine ⟨s, 0, 1, hw, (queued_of_run (Relation.ReflTransGen.mono ?_ _ _ hreach)).1 0 1 hw⟩
  rintro s t ⟨op, r, ⟨hon, hf⟩, hstep⟩
  exact ⟨op, r, hon, hf s, hstep⟩

/-- The owner 1 has read locks for `[5, 10]` and from 20 on. It asks for `[15, OFF_MAX]`, which
    leaves a lock from the smallest `off_t` on, and unlocks that range. The owner 2 waits for `[6,
    7]`. The request of the owner 1 for `[0, 20]` then takes over the first lock with the request of
    the owner 2, finds that the second lock contains it, and is freed. -/
theorem queued_on_freed_lock :
    ¬ ∀ (threads : ℕ → List ℕ) (pPid : ℕ → ℤ) (f : ℕ) (s : Sys), Relation.ReflTransGen
      (fun s t => ∃ op r, op.On f ∧ s.step op = some (t, r)) (Sys.empty threads pPid) s →
      ∀ a w, w ∈ s.k.blkhd a → QueuedOn s.k f a w := by
  intro hclaim
  obtain ⟨s, hreach, hbad⟩ := Sys.exists_of_run (s := Sys.empty (fun _ => []) fun _ => 0)
    (P := Op.On 0)
    (Q := fun s => decide (∃ a < s.k.brk, ∃ w ∈ s.k.blkhd a, s.k.live a = false)) (b := true)
    [lockRequest 0 1 .rdlck false ⟨5, by decide⟩ ⟨6, by decide⟩,
      lockRequest 0 1 .rdlck false ⟨20, by decide⟩ ⟨0, by decide⟩,
      lockRequest 0 1 .rdlck false ⟨15, by decide⟩ ⟨offMax - 14, by decide⟩,
      unlockRequest 0 1 ⟨15, by decide⟩ ⟨offMax - 14, by decide⟩,
      lockRequest 1 2 .wrlck true ⟨6, by decide⟩ ⟨2, by decide⟩,
      lockRequest 0 1 .rdlck false ⟨0, by decide⟩ ⟨21, by decide⟩]
    (by simp [lockRequest, unlockRequest, Op.On]) (by decide +kernel)
  obtain ⟨a, -, w, hw, hdead⟩ := of_decide_eq_true hbad
  have hlive := (hclaim _ _ 0 s hreach a w hw).live
  rw [hdead] at hlive
  cases hlive

end FreeBSD.KernLockf
