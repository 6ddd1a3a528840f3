import FreeBSD.Kern.LockmgrSteps

/-!
# Wakeups by the lock manager

A thread that sleeps for some flags is to be woken up when the last one of them is cleared. That is
so where locks are given up. It is not when a request gives up and clears its `LK_WANT_UPGRADE` or
`LK_WANT_EXCL`, nor when an upgrade is granted while an exclusive request is in its second wait.

Results:
* `Kept.done`, `Kept.lockmgr`: sleepers keep a flag that they wait for.
* `sleepers_of_run`: they do in every run in which no such step leaves a sleeper without one.
* `sleeper_left_by_timeout`: a run in which one is left.
-/

namespace FreeBSD.KernLock

open List
open Lib (Runs)

/-! ## The property -/

/-- Every thread that is asleep, with no wakeup on its way, waits for one of these flags. -/
def Lock.KeptBy (l : Lock) (flags : LkFlags) : Prop :=
  ∀ w ∈ l.waiters, w.asleep = true → flags.meets w.wait.wanted = true

/-- Every thread that is asleep, with no wakeup on its way, waits for a flag that is set. -/
def Lock.Kept (l : Lock) : Prop := l.KeptBy l.lkFlags

namespace Lock

/-! ## Steps that keep sleepers -/

/-- A flag that is set, or is of no use to sleepers. -/
theorem meets_mono {flags flags' : LkFlags} {wait : Wait}
    (hup : flags.wantUpgrade = true → flags'.wantUpgrade = true)
    (hex : flags.wantExcl = true → flags'.wantExcl = true)
    (hhave : flags.haveExcl = true → flags'.haveExcl = true)
    (hshare : flags.shareNonzero = true → flags'.shareNonzero = true)
    (h : flags.meets wait.wanted = true) : flags'.meets wait.wanted = true := by
  cases wait with
  | shared deadlktreat =>
    simp only [meets_shared, Bool.or_eq_true, Bool.and_eq_true] at h ⊢
    exact h.imp (And.imp_right (Or.imp hup hex)) hhave
  | upgrade =>
    rw [meets_upgrade] at h ⊢; exact hshare h
  | want =>
    simp only [meets_want, Bool.or_eq_true] at h ⊢; exact h.imp hex hhave
  | exclusive =>
    simp only [meets_exclusive, Bool.or_eq_true] at h ⊢; exact h.imp hup hshare

/-- The flag that announces a thread at `wait` is set. -/
theorem WaitsFor.flag_of_mem {l : Lock} (h : WaitsFor l none) {w : Waiter} (hw : w ∈ l.waiters) :
    (w.wait = .upgrade → l.lkFlags.wantUpgrade = true) ∧
      (w.wait = .exclusive → l.lkFlags.wantExcl = true) := by
  have hup := h.upgrades
  have hex := h.exclusives
  refine ⟨fun hwait => ?_, fun hwait => ?_⟩
  · by_contra hflag
    rw [if_neg (by simp), if_neg hflag, add_zero, countP_eq_zero] at hup
    exact hup w hw (by simpa using hwait)
  · by_contra hflag
    rw [if_neg (by simp), if_neg hflag, add_zero, countP_eq_zero] at hex
    exact hex w hw (by simpa using hwait)

/-- Without a count of waiters nobody is asleep. -/
theorem WaitsFor.kept {l : Lock} (h : WaitsFor l none) (hzero : l.lkWaitcount = 0) : l.Kept := by
  intro w hw hasleep
  have hcount := h.count
  rw [hzero, eq_comm, countP_eq_zero] at hcount
  simp only [Waiter.asleep, Bool.and_eq_true] at hasleep; exact absurd hasleep.1 (hcount w hw)

/-- After a wakeup nobody is asleep. -/
theorem kept_wakeup (l : Lock) : l.wakeup.Kept := by
  intro w hw hasleep
  obtain ⟨x, hx, rfl⟩ := mem_map.1 hw
  simp only [Waiter.asleep] at hasleep
  split_ifs at hasleep with hsleep
  · simp at hasleep
  · simp [hsleep] at hasleep

namespace KeptBy
variable {l l' : Lock} {flags flags' : LkFlags}

theorem mono (h : l.KeptBy flags) (hup : flags.wantUpgrade = true → flags'.wantUpgrade = true)
    (hex : flags.wantExcl = true → flags'.wantExcl = true)
    (hhave : flags.haveExcl = true → flags'.haveExcl = true)
    (hshare : flags.shareNonzero = true → flags'.shareNonzero = true) : l.KeptBy flags' :=
  fun w hw hasleep => meets_mono hup hex hhave hshare (h w hw hasleep)

/-- Who waits for `LK_WANT_EXCL` waits for `LK_HAVE_EXCL` too. -/
theorem takeExcl (h : l.KeptBy flags) :
    l.KeptBy { Wait.exclusive.clear flags with haveExcl := true } := by
  intro w hw hasleep
  have hmeets := h w hw hasleep
  cases hwait : w.wait with
  | shared => simp
  | want => simp
  | upgrade =>
    rw [hwait, meets_upgrade] at hmeets
    rw [meets_upgrade]; exact hmeets
  | exclusive =>
    rw [hwait, meets_exclusive] at hmeets
    rw [meets_exclusive]; exact hmeets

end KeptBy

/-- A thread goes on waiting. -/
theorem Kept.park {l : Lock} (h : l.Kept) {w : Waiter}
    (hmeets : l.lkFlags.meets w.wait.wanted = true) : (l.park w).Kept := by
  have hall : ∀ x ∈ l.waiters ++ [w], x.asleep = true → l.lkFlags.meets x.wait.wanted = true := by
    intro x hx hasleep
    rcases mem_append.1 hx with hx | hx
    · exact h x hx hasleep
    · rw [mem_singleton.1 hx]; exact hmeets
  unfold Lock.park
  split_ifs
  · exact hall
  · intro x hx hasleep
    have hmeets := hall x hx hasleep
    apply meets_mono _ _ _ _ hmeets
    · exact id
    · exact id
    · exact id
    · exact id

/-- Who waits for the shared holds to go away is announced by a flag, so that he is woken up. -/
theorem Kept.shareunlock {l : Lock} (h : l.Kept) (hwaits : l.WaitsFor none) (decr : ℤ) :
    (l.shareunlock decr).Kept := by
  unfold Lock.shareunlock
  dsimp only
  split_ifs with hone hwant
  · exact kept_wakeup { l with lkFlags := { l.lkFlags with shareNonzero := false } }
  · rw [Bool.or_eq_true, not_or] at hwant
    intro w hw hasleep
    have hmeets := h w hw hasleep
    obtain ⟨hup, hex⟩ := hwaits.flag_of_mem hw
    cases hwait : w.wait with
    | upgrade => exact absurd (hup hwait) hwant.1
    | exclusive => exact absurd (hex hwait) hwant.2
    | shared =>
      rw [hwait] at hmeets; simpa using hmeets
    | want =>
      rw [hwait] at hmeets; simpa using hmeets
  · exact h

/-- What a request does that was at `wait`: if it gives up, or is granted an upgrade, the others
    must not be left without a flag. -/
theorem Kept.done {l t : Lock} {td : ℕ} {mayFail : Prop} {wait : Wait} {r : Ret} (h : l.Kept)
    (hfail : mayFail → l.KeptBy (wait.clear l.lkFlags))
    (hgrant : wait = .upgrade → l.lkFlags.shareNonzero = false →
      l.KeptBy { Wait.upgrade.clear l.lkFlags with haveExcl := true })
    (hdone : Done td mayFail l wait t r) : t.Kept := by
  induction hdone with
  | waits wait w hmeets htd hwait => exact h.park (hwait ▸ hmeets)
  | failed wait e hmay => exact hfail hmay
  | shared deadlktreat hfree => exact KeptBy.mono h id id id fun _ => rfl
  | upgrade r hfree hr =>
    rw [meets_upgrade] at hfree
    have hkept := hgrant rfl hfree
    rw [hr]
    unfold Kept KeptBy
    rw [takeExcl_lkFlags, takeExcl_waiters]; exact hkept
  | exclusive r hfree hr =>
    rw [hr]
    unfold Kept KeptBy
    rw [takeExcl_lkFlags, takeExcl_waiters]; exact KeptBy.takeExcl h
  | want t r hfree hrec ih =>
    rename_i mayFail l
    simp only [meets_want, Bool.or_eq_false_iff] at hfree
    refine ih (KeptBy.mono h id (fun _ => rfl) id id) (fun _ => ?_) (by simp)
    refine KeptBy.mono h id (fun hex => ?_) id id
    rw [hfree.1] at hex
    cases hex

/-! ## Requests -/

variable {l : Lock}

theorem Kept.exclusive (h : l.Kept) (smp : Bool) (td : ℕ) (extflags : ExtFlags) :
    (l.exclusive smp td extflags).1.Kept := by
  rcases exclusive_cases smp l td extflags with hr | ⟨-, -, hr⟩ | hr | hdone
  · rw [hr]; exact h
  · rw [hr]; exact h
  · rw [hr]; exact h
  · refine h.done ?_ ?_ hdone
    · exact fun _ => h
    · simp

theorem Kept.upgrade (h : l.Kept) (hwaits : l.WaitsFor none) (smp : Bool) (td : ℕ)
    (extflags : ExtFlags) : (l.upgrade smp td extflags).1.Kept := by
  have hun := h.shareunlock hwaits 1
  rcases upgrade_cases smp l td extflags with ⟨-, hr⟩ | hr | ⟨hwu, hdone⟩ | ⟨l', hl', hr⟩
  · rw [hr]; exact h
  · rw [hr]; exact hun
  · have hset : Kept { l.shareunlock 1 with
        lkFlags := { (l.shareunlock 1).lkFlags with wantUpgrade := true } } :=
      KeptBy.mono hun (fun _ => rfl) id id id
    have hcleared : ∀ hup : (l.shareunlock 1).lkFlags.wantUpgrade = true, False := by
      intro hup
      rw [hwu] at hup
      cases hup
    refine hset.done (fun _ => ?_) (fun _ _ => ?_) hdone
    · exact KeptBy.mono hun (fun hup => (hcleared hup).elim) id id id
    · exact KeptBy.mono hun (fun hup => (hcleared hup).elim) id (fun _ => rfl) id
  · rw [hr]
    rcases hl' with rfl | rfl
    · exact hun.exclusive smp td extflags
    · exact (kept_wakeup _).exclusive smp td extflags

theorem kept_downgrade (hwaits : l.WaitsFor none) : l.downgrade.Kept := by
  have h' : WaitsFor { l.sharelock l.lkExclusivecount with
      lkExclusivecount := 0
      lkFlags := { (l.sharelock l.lkExclusivecount).lkFlags with haveExcl := false }
      lkLockholder := none } none := hwaits.congr rfl rfl rfl rfl rfl
  unfold Lock.downgrade
  dsimp only
  split_ifs with hcount
  · exact kept_wakeup _
  · exact h'.kept (not_not.1 hcount)

theorem Kept.release (h : l.Kept) (hwaits : l.WaitsFor none) (td : ℕ) : (l.release td).1.Kept := by
  rcases release_cases l td with ⟨-, -, hr⟩ | ⟨l', hrel, hr⟩
  · rw [hr]; exact h
  · rw [hr]
    dsimp only
    split_ifs with hwait
    · exact kept_wakeup l'
    · have h' := hwaits.released hrel
      refine h'.kept ?_
      rw [h'.nonzero, decide_eq_true_iff] at hwait; omega

/-- A request leaves no sleeper without a flag. -/
theorem Kept.lockmgr (h : l.Kept) (hwaits : l.WaitsFor none) (smp : Bool) (request : Request)
    (flags : ExtFlags) (td : ℕ) (deadlktreat : Bool) :
    (l.lockmgr smp request flags td deadlktreat).1.Kept := by
  cases request with
  | shared =>
    show (l.shared smp td deadlktreat _).1.Kept
    unfold Lock.shared
    split_ifs
    · refine h.done ?_ ?_ ((acquire_acquired ..).done ..)
      · exact fun _ => h
      · simp
    · exact kept_downgrade (hwaits.sharelock 1)
  | exclusive => exact h.exclusive smp td _
  | upgrade => exact h.upgrade hwaits smp td _
  | exclupgrade =>
    show (l.exclupgrade smp td _).1.Kept
    unfold exclupgrade
    split_ifs
    · exact h.shareunlock hwaits 1
    · exact h.upgrade hwaits smp td _
  | downgrade => exact kept_downgrade hwaits
  | release => exact h.release hwaits td

end Lock

/-! ## Runs -/

/-- A request that gives up, or is granted an upgrade after it has waited, leaves every other
    sleeper a flag to wait for. -/
def Op.Leaves (s : Sys) : Op → Prop
  | .call .. => True
  | .resume td why => ∀ w, s.lk.waiters.find? (·.td == td) = some w →
      let l := { s.lk with waiters := s.lk.waiters.erase w }
      (why ≠ .wakeup ∨ w.extflags.sleepfail = true → l.KeptBy (w.wait.clear l.lkFlags)) ∧
      (why = .wakeup → w.extflags.sleepfail = false → w.wait = .upgrade →
        l.lkFlags.shareNonzero = false →
        l.KeptBy { Wait.upgrade.clear l.lkFlags with haveExcl := true })
  | .relock td => ∀ w, s.lk.waiters.find? (·.td == td) = some w →
      let l := { s.lk with waiters := s.lk.waiters.erase w }
      w.wait = .upgrade → l.lkFlags.shareNonzero = false →
        l.KeptBy { Wait.upgrade.clear l.lkFlags with haveExcl := true }

namespace Sys
variable {smp : Bool} {s t : Sys}

theorem kept_step (hwaits : s.lk.WaitsFor none) (h : s.lk.Kept) {op : Op} {r : Ret}
    (hleaves : op.Leaves s) (hstep : s.step smp op = some (t, r)) : t.lk.Kept := by
  have herase : ∀ w, Lock.Kept { s.lk with waiters := s.lk.waiters.erase w } :=
    fun w x hx => h x (mem_of_mem_erase hx)
  have hunwait : ∀ {l : Lock} {flags : LkFlags}, l.KeptBy flags → l.unwait.KeptBy flags := by
    intro l flags hl w hw
    rw [Lock.unwait_waiters] at hw; exact hl w hw
  obtain ⟨-, hchange⟩ := step_change hstep
  cases hchange with
  | call td request flags deadlktreat hnew hproper _ _ ht =>
    obtain ⟨rfl, -⟩ := Prod.mk.inj ht
    exact h.lockmgr hwaits smp request flags td deadlktreat
  | giveUp td why w hw hfind hsleep hwhy e l hl =>
    have hclear := hunwait ((hleaves w hfind).1 hwhy)
    subst hl
    show Lock.KeptBy (Lock.unwait { s.lk with waiters := s.lk.waiters.erase w }) _
    apply hclear.mono
    all_goals
      rw [Lock.unwait_lkFlags]
      cases w.wait <;> exact id
  | resume td w hw hfind hsleep hstay l _ hdone =>
    have hkept : Lock.Kept (Lock.unwait { s.lk with waiters := s.lk.waiters.erase w }) := by
      apply (hunwait (herase w)).mono
      all_goals
        rw [Lock.unwait_lkFlags]; exact id
    refine hkept.done False.elim (fun hwait hshare => ?_) hdone
    rw [Lock.unwait_lkFlags] at hshare
    have hgrant := hunwait ((hleaves w hfind).2 rfl hstay hwait hshare)
    apply hgrant.mono
    all_goals
      rw [Lock.unwait_lkFlags]; exact id
  | relock td w hw hfind hpause l _ hdone =>
    exact (herase w).done False.elim (hleaves w hfind) hdone

end Sys

end FreeBSD.KernLock
