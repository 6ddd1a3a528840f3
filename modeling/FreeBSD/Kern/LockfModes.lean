import FreeBSD.Kern.LockfSteps

/-!
# Who holds which bytes

What the list of a file says about the modes in which the owners hold its bytes,
after any run of lock and unlock requests that do not wait.

Results:
* `modes_of_run`: while no `off_t` arithmetic wraps around, each request changes
  the modes of its owner on its bytes, and nothing else.
* `lock_cut_behind_offMax`: a lock up to the end of the file that is cut at
  `OFF_MAX` comes back as one that starts at the smallest `off_t`.
-/

namespace FreeBSD.KernLockf

open FreeBSD.Lib Entry List Function

/-! ## What the list says -/

/-- The owner `o` holds the byte `x` of the file in the mode `t`. -/
def Holds (k : Kern) (f o : ℕ) (x : ℤ) (t : LockType) : Prop :=
  ∃ a ∈ k.locks f, (k.lockf a).lfId = o ∧ (k.lockf a).Covers x ∧ (k.lockf a).lfType = t

/-- The locks of each owner are sorted and disjoint. -/
def OwnersSorted (k : Kern) (f : ℕ) : Prop :=
  (k.locks f).Pairwise fun a b => (k.lockf a).lfId = (k.lockf b).lfId →
    (k.lockf a).lfEnd ≠ -1 ∧ (k.lockf a).lfEnd < (k.lockf b).lfStart

instance (k : Kern) (f : ℕ) : Decidable (OwnersSorted k f) :=
  inferInstanceAs (Decidable (List.Pairwise _ _))

/-- Two owners hold a byte for reading only. -/
def NoConflict (k : Kern) (f : ℕ) : Prop :=
  ∀ o o' x t t', 0 ≤ x → x ≤ offMax → Holds k f o x t → Holds k f o' x t' → o ≠ o' →
    t = .rdlck ∧ t' = .rdlck

/-- The request `ap` has changed the modes of its owner on the bytes of its range, and no others. -/
def Exact (f : ℕ) (ap : AdvlockArgs) (range : ℤ × ℤ) (k k' : Kern) : Prop :=
  ∀ o x t, 0 ≤ x → x ≤ offMax → (Holds k' f o x t ↔
    if o = ap.aId ∧ range.1 ≤ x ∧ (range.2 = -1 ∨ x ≤ range.2) then
      ap.aOp = .setlk ∧ t = ap.aFl.lType
    else Holds k f o x t)

/-- What a request has done, from what it returns. -/
def Answers (f : ℕ) (ap : AdvlockArgs) (size : ℕ) (k k' : Kern) : Reply → Prop
  | .ok => ∃ range, flockRange ap.aFl size = .ok range ∧ Exact f ap range k k'
  | .error _ => k'.locks f = k.locks f ∧ ∀ a ∈ k.locks f, k'.lockf a = k.lockf a
  | _ => False

/-- A lock or unlock request on the file `f` that does not wait. -/
def Op.Nonblocking (f : ℕ) : Op → Prop
  | .advlock _ ap g _ => g = f ∧ ap.aFlags.fWait = false ∧
    (ap.aOp = .setlk ∧ ap.aFl.lType ≠ .unlck ∨ ap.aOp = .unlck)
  | _ => False

theorem Repr.holds_iff {k : Kern} {f : ℕ} {l x : List Entry} (hR : Repr k f l x) {o : ℕ} {y : ℤ}
    {t : LockType} : Holds k f o y t ↔ Mode l o y t :=
  hR.exists_lock (P := fun ty s e i => i = o ∧ (s ≤ y ∧ (e = -1 ∨ y ≤ e)) ∧ ty = t)

theorem Inv.ownersSorted {k : Kern} {call : ℕ → Option ℕ} {f : ℕ} {l x : List Entry}
    (h : Inv k call f l x) : OwnersSorted k f := by
  rw [OwnersSorted, h.repr.locks_eq, pairwise_map]
  refine h.sorted.pairwise.imp_of_mem fun {a b} ha hb hab => ?_
  have hca := h.repr.cells.cell a (mem_append_left x ha)
  have hcb := h.repr.cells.cell b (mem_append_left x hb)
  rw [hca.id, hcb.id, hca.stop, hcb.start]; exact hab

theorem Inv.noConflict {k : Kern} {call : ℕ → Option ℕ} {f : ℕ} {l x : List Entry}
    (h : Inv k call f l x) : NoConflict k f := by
  intro o o' y t t' _ _ hm hm' hne
  rw [h.repr.holds_iff] at hm hm'
  exact ⟨h.compatible.excl o o' y t t' hm hm' hne, h.compatible.excl o' o y t' t hm' hm hne.symm⟩

/-! ## The requests -/

/-- `lf_advlock` does to the modes what it answers. -/
theorem Inv.answers {k : Kern} {call : ℕ → Option ℕ} {f td size : ℕ} {l : List Entry}
    {ap : AdvlockArgs} (h : Inv k call f l []) (hcall : call td = none)
    (hwait : ap.aFlags.fWait = false)
    (hop : ap.aOp = .setlk ∧ ap.aFl.lType ≠ .unlck ∨ ap.aOp = .unlck)
    (hfits : ∀ range, flockRange ap.aFl size = .ok range →
      (ap.aOp = .setlk → SetFits k f (newLock ap f range)) ∧
        (ap.aOp = .unlck → UnlockFits k f (newLock ap f range))) :
    ∃ k' r l', lfAdvlock k td ap f size = .ok (k', r) ∧ Answers f ap size k k' r ∧
      (∀ lock, r ≠ .asleep lock) ∧ Inv k' call f l' [] := by
  rcases h.advlock hcall hop hfits with ⟨e, -, hk'⟩ | ⟨range, k', l', hr, hk', h', hl'⟩ |
    ⟨b, e, -, hk', h'⟩ | ⟨hw, -⟩
  · exact ⟨k, .error e, l, hk', ⟨rfl, fun _ _ => rfl⟩, by simp, h⟩
  · refine ⟨k', .ok, l', hk', ⟨range, hr, fun o x t _ _ => ?_⟩, by simp, h'⟩
    have hb : (newLock ap f range).Accepted := flockRange_valid hr
    rw [h'.repr.holds_iff, h.repr.holds_iff]
    rcases hl' with ⟨hset, hw, rfl⟩ | ⟨hun, hw, rfl⟩
    · rw [setEntries_mode ⟨hb.valid _, h.sorted, hw⟩]
      show (o = ap.aId ∧ (range.1 ≤ x ∧ (range.2 = -1 ∨ x ≤ range.2)) ∧ t = ap.aFl.lType) ∨
        (Mode l o x t ∧ ¬ (o = ap.aId ∧ range.1 ≤ x ∧ (range.2 = -1 ∨ x ≤ range.2))) ↔ _
      split_ifs with hc
      · simp [hset, hc]
      · simp only [hc, not_false_eq_true, and_true, or_iff_right_iff_imp]
        exact fun h => absurd ⟨h.1, h.2.1⟩ hc
    · rw [clearEntries_mode ⟨hb.valid _, h.sorted, hw⟩]
      show Mode l o x t ∧ ¬ (o = ap.aId ∧ range.1 ≤ x ∧ (range.2 = -1 ∨ x ≤ range.2)) ↔ _
      split_ifs with hc
      · simp [hun, hc]
      · simp [hc]
  · refine ⟨_, .error e, l, hk', ⟨?_, fun a ha => ?_⟩, by simp, h'⟩
    · rw [h'.repr.locks_eq, h.repr.locks_eq]
    · rw [h.repr.locks_eq] at ha
      obtain ⟨c, hc, rfl⟩ := mem_map.1 ha
      have hlt := (h.repr.cells.cell c (by simp [hc])).lt_brk
      simp [Kern.free, Kern.malloc, hlt.ne]
  · rw [hwait] at hw
    cases hw

/-- A thread that does not fall asleep is in no call afterwards. -/
theorem Sys.after_call {s : Sys} {td : ℕ} (hcall : s.call td = none) (k : Kern) {r : Reply}
    (hr : ∀ lock, r ≠ .asleep lock) : (s.after td k r).call = s.call := by
  cases r with
  | asleep lock => exact absurd rfl (hr lock)
  | ok => exact (congrArg (update s.call td) hcall.symm).trans (update_eq_self ..)
  | error e =>
    exact (congrArg (update s.call td) hcall.symm).trans (update_eq_self ..)
  | getlk b =>
    exact (congrArg (update s.call td) hcall.symm).trans (update_eq_self ..)

/-- The state after a run of requests that do not wait. -/
theorem Inv.nonblocking_run {threads : ℕ → List ℕ} {pPid : ℕ → ℤ} {f : ℕ} {s : Sys}
    (hrun : Relation.ReflTransGen
      (fun s t => ∃ op r, op.Nonblocking f ∧ op.Fits s f ∧ s.step op = some (t, r))
      (Sys.empty threads pPid) s) :
    (∀ td, s.call td = none) ∧ ∃ l, Inv s.k s.call f l [] := by
  induction hrun with
  | refl => exact ⟨fun _ => rfl, [], Inv.empty threads pPid f⟩
  | tail _ hstep ih =>
    obtain ⟨hcall, l, h⟩ := ih
    obtain ⟨op, r, hn, hfits, hs⟩ := hstep
    cases op with
    | advlock td ap g size =>
      obtain ⟨rfl, hwait, hop⟩ := hn
      obtain ⟨k', r', l', hk', -, hr', h'⟩ := h.answers (hcall td) hwait hop hfits
      simp only [Sys.step, hcall td, hk', Option.some.injEq, Prod.mk.injEq] at hs
      obtain ⟨rfl, rfl⟩ := hs
      have hafter := Sys.after_call (hcall td) k' hr'
      refine ⟨fun td' => ?_, l', ?_⟩
      · rw [hafter]; exact hcall td'
      · rw [hafter]; exact h'
    | woken => exact hn.elim
    | signal => exact hn.elim

/-- While no `off_t` arithmetic wraps around, the list of a file is sorted for each owner and
    without conflicts, and every request returns, with the effect on the modes that its answer
    says. -/
theorem modes_of_run {threads : ℕ → List ℕ} {pPid : ℕ → ℤ} {f : ℕ} {s : Sys}
    (hrun : Relation.ReflTransGen
      (fun s t => ∃ op r, op.Nonblocking f ∧ op.Fits s f ∧ s.step op = some (t, r))
      (Sys.empty threads pPid) s) :
    OwnersSorted s.k f ∧ NoConflict s.k f ∧
      ∀ td ap size, (Op.advlock td ap f size).Nonblocking f →
        (Op.advlock td ap f size).Fits s f →
        ∃ t r, s.step (.advlock td ap f size) = some (t, r) ∧ Answers f ap size s.k t.k r := by
  obtain ⟨hcall, l, h⟩ := Inv.nonblocking_run hrun
  refine ⟨h.ownersSorted, h.noConflict, fun td ap size hn hfits => ?_⟩
  obtain ⟨-, hwait, hop⟩ := hn
  obtain ⟨k', r, l', hk', hans, -, -⟩ := h.answers (hcall td) hwait hop hfits
  exact ⟨s.after td k' r, r, by simp only [Sys.step, hcall td, hk'], hans⟩

/-- A run of one request, for the bytes up to 9. -/
theorem modes_of_run_first :
    ∃ t : Sys, (∃ r, (Sys.empty (fun _ => []) fun _ => 0).step
        (lockRequest 0 1 .wrlck false ⟨0, by decide⟩ ⟨10, by decide⟩) = some (t, r)) ∧
      OwnersSorted t.k 0 ∧ NoConflict t.k 0 := by
  have hn : (lockRequest 0 1 .wrlck false ⟨0, by decide⟩ ⟨10, by decide⟩).Nonblocking 0 :=
    ⟨rfl, rfl, .inl ⟨rfl, by decide⟩⟩
  have hfits : (lockRequest 0 1 .wrlck false ⟨0, by decide⟩ ⟨10, by decide⟩).Fits
      (Sys.empty (fun _ => []) fun _ => 0) 0 := by
    intro range hr
    have hrange : (0, 9) = range := Except.ok.inj hr
    subst hrange
    exact ⟨fun _ => ⟨fun _ hend => absurd hend (by decide), fun _ hwait => absurd hwait
      (by decide)⟩,
      fun hun => by cases hun⟩
  obtain ⟨-, -, h⟩ := modes_of_run (f := 0) (s := Sys.empty (fun _ => []) fun _ => 0) .refl
  obtain ⟨t, r, hs, -⟩ := h 0 _ 0 hn hfits
  obtain ⟨h1, h2, -⟩ := modes_of_run (.single ⟨_, r, hn, hfits, hs⟩)
  exact ⟨t, ⟨r, hs⟩, h1, h2⟩

/-- A read lock up to the end of the file, then a write lock for the bytes from 1 to `OFF_MAX`: the
    part of the read lock behind `OFF_MAX` starts at the smallest `off_t`. -/
theorem lock_cut_behind_offMax :
    ¬ ∀ (threads : ℕ → List ℕ) (pPid : ℕ → ℤ) (f : ℕ) (s : Sys), Relation.ReflTransGen
      (fun s t => ∃ op r, op.Nonblocking f ∧ s.step op = some (t, r)) (Sys.empty threads pPid) s →
      OwnersSorted s.k f ∧ NoConflict s.k f ∧
        ∀ td ap size, (Op.advlock td ap f size).Nonblocking f →
          ∃ t r, s.step (.advlock td ap f size) = some (t, r) ∧ Answers f ap size s.k t.k r := by
  intro hclaim
  obtain ⟨s, hreach, hbad⟩ := Sys.exists_of_run (s := Sys.empty (fun _ => []) fun _ => 0)
    (P := Op.Nonblocking 0) (Q := fun s => decide (OwnersSorted s.k 0)) (b := false)
    [lockRequest 0 1 .rdlck false ⟨0, by decide⟩ ⟨0, by decide⟩,
      lockRequest 0 1 .wrlck false ⟨1, by decide⟩ ⟨offMax, by decide⟩]
    (by simp [lockRequest, Op.Nonblocking]) (by decide +kernel)
  exact of_decide_eq_false hbad (hclaim _ _ 0 s hreach).1

end FreeBSD.KernLockf
