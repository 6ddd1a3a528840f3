import FreeBSD.Kern.Lockmgr

/-!
# Steps of the lock manager

What a call of `acquire` can do (`Acquired`), and the request after it (`Done`): the thread stays in
`acquire`, gives up, or gets what it waits for. The flags `LK_WANT_UPGRADE` and `LK_WANT_EXCL` stand
for the one thread that is inside the call of `acquire` which they announce (`WaitsFor`).

Results:
* `acquire_acquired`, `acquireWoken_acquired`, `apauseNext_acquired`: the calls of `acquire`.
* `Sys.step_change`: what each step can do.
-/

namespace FreeBSD.KernLock

open List

/-! ## Flags -/

@[simp] theorem meets_shared (flags : LkFlags) (deadlktreat : Bool) :
    flags.meets (Wait.shared deadlktreat).wanted =
      (!deadlktreat && (flags.wantUpgrade || flags.wantExcl) || flags.haveExcl) := by
  cases deadlktreat <;> simp [LkFlags.meets, Wait.wanted]

@[simp] theorem meets_upgrade (flags : LkFlags) :
    flags.meets Wait.upgrade.wanted = flags.shareNonzero := by
  simp [LkFlags.meets, Wait.wanted]

@[simp] theorem meets_want (flags : LkFlags) :
    flags.meets Wait.want.wanted = (flags.wantExcl || flags.haveExcl) := by
  simp [LkFlags.meets, Wait.wanted]

@[simp] theorem meets_exclusive (flags : LkFlags) :
    flags.meets Wait.exclusive.wanted = (flags.wantUpgrade || flags.shareNonzero) := by
  simp [LkFlags.meets, Wait.wanted]

/-- The flags without the one that announces a thread at `wait`. -/
def Wait.clear (flags : LkFlags) : Wait → LkFlags
  | upgrade => { flags with wantUpgrade := false }
  | exclusive => { flags with wantExcl := false }
  | _ => flags

@[simp] theorem clear_haveExcl (flags : LkFlags) (wait : Wait) :
    (wait.clear flags).haveExcl = flags.haveExcl := by
  cases wait <;> rfl

@[simp] theorem clear_shareNonzero (flags : LkFlags) (wait : Wait) :
    (wait.clear flags).shareNonzero = flags.shareNonzero := by
  cases wait <;> rfl

namespace Lock

/-! ## acquire -/

/-- What a call of `acquire` does, up to where it gives up the interlock or returns; it may fail
    only if `mayFail`. -/
inductive Acquired (mayFail : Prop) (l : Lock) (td : ℕ) (wait : Wait) : Lock × Acq → Prop
  | got (hfree : l.lkFlags.meets wait.wanted = false) : Acquired mayFail l td wait (l, .got)
  | failed (e : Errno) (hmay : mayFail) : Acquired mayFail l td wait (l, .failed e)
  | waits (w : Waiter) (hmeets : l.lkFlags.meets wait.wanted = true) (htd : w.td = td)
      (hwait : w.wait = wait) : Acquired mayFail l td wait (l.park w, .waits)

theorem acquireLoop_acquired (mayFail : Prop) (l : Lock) (td : ℕ) (extflags : ExtFlags)
    (wait : Wait) : Acquired mayFail l td wait (l.acquireLoop td extflags wait) := by
  unfold acquireLoop
  split_ifs with h
  · exact .waits _ h rfl rfl
  · exact .got (by simpa using h)

theorem acquire_acquired (smp : Bool) (l : Lock) (td : ℕ) (extflags : ExtFlags) (wait : Wait) :
    Acquired True l td wait (l.acquire smp td extflags wait) := by
  unfold acquire
  split_ifs with h1 h2
  · exact .failed _ trivial
  · simp only [Bool.and_eq_true] at h2; exact .waits _ h2.2 rfl rfl
  · exact acquireLoop_acquired ..

theorem apauseNext_acquired (l : Lock) (w : Waiter) (lockWait : ℕ) :
    Acquired False l w.td w.wait (l.apauseNext w lockWait) := by
  unfold apauseNext
  split_ifs with h1 h2
  · exact .got (by simpa using h1)
  · exact .waits _ (by simpa using h1) rfl rfl
  · exact acquireLoop_acquired ..

/-- A thread gives up after its sleep. -/
theorem acquireWoken_failed {l : Lock} {w : Waiter} {error : Option Errno}
    (h : error ≠ none ∨ w.extflags.sleepfail = true) :
    ∃ e, l.acquireWoken w error = (l.unwait, .failed e) := by
  unfold acquireWoken
  cases error with
  | some e => exact ⟨e, rfl⟩
  | none => exact ⟨.enolck, by simp [h.resolve_left (by simp)]⟩

theorem acquireWoken_acquired (l : Lock) {w : Waiter} (h : w.extflags.sleepfail = false) :
    Acquired False l.unwait w.td w.wait (l.acquireWoken w none) := by
  unfold acquireWoken
  dsimp only
  rw [if_neg (by simp [h])]
  exact acquireLoop_acquired ..

/-! ## After acquire -/

/-- What a request of the thread `td` does that is at `wait` and calls `acquire` there. -/
inductive Done (td : ℕ) : Prop → Lock → Wait → Lock → Ret → Prop
  | waits {mayFail : Prop} {l : Lock} (wait : Wait) (w : Waiter)
      (hmeets : l.lkFlags.meets wait.wanted = true) (htd : w.td = td)
      (hwait : w.wait = wait) : Done td mayFail l wait (l.park w) .waits
  | failed {mayFail : Prop} {l : Lock} (wait : Wait) (e : Errno) (hmay : mayFail) :
      Done td mayFail l wait { l with lkFlags := wait.clear l.lkFlags } (.err e)
  | shared {mayFail : Prop} {l : Lock} (deadlktreat : Bool)
      (hfree : l.lkFlags.meets (Wait.shared deadlktreat).wanted = false) :
      Done td mayFail l (.shared deadlktreat) (l.sharelock 1) .ok
  | upgrade {mayFail : Prop} {l : Lock} (r : Lock × Ret)
      (hfree : l.lkFlags.meets Wait.upgrade.wanted = false)
      (hr : r = takeExcl { l with lkFlags := Wait.upgrade.clear l.lkFlags } td) :
      Done td mayFail l .upgrade r.1 r.2
  | exclusive {mayFail : Prop} {l : Lock} (r : Lock × Ret)
      (hfree : l.lkFlags.meets Wait.exclusive.wanted = false)
      (hr : r = takeExcl { l with lkFlags := Wait.exclusive.clear l.lkFlags } td) :
      Done td mayFail l .exclusive r.1 r.2
  | want {mayFail : Prop} {l : Lock} (t : Lock) (r : Ret)
      (hfree : l.lkFlags.meets Wait.want.wanted = false)
      (h : Done td True { l with lkFlags := { l.lkFlags with wantExcl := true } } .exclusive t r) :
      Done td mayFail l .want t r

theorem Acquired.exclusiveDone {mayFail : Prop} {l : Lock} {td : ℕ} {r : Lock × Acq}
    (h : Acquired mayFail l td .exclusive r) :
    Done td mayFail l .exclusive (exclusiveDone td r).1 (exclusiveDone td r).2 := by
  cases h with
  | got hfree => exact .exclusive _ hfree rfl
  | failed e hmay => exact .failed .exclusive e hmay
  | waits w hmeets htd hwait => exact .waits _ w hmeets htd hwait

theorem Acquired.done {mayFail : Prop} {l : Lock} {td : ℕ} {wait : Wait} {r : Lock × Acq}
    (h : Acquired mayFail l td wait r) (smp : Bool) (extflags : ExtFlags) :
    Done td mayFail l wait (done smp td extflags wait r).1 (done smp td extflags wait r).2 := by
  cases wait with
  | shared deadlktreat =>
    cases h with
    | got hfree => exact .shared deadlktreat hfree
    | failed e hmay => exact .failed (.shared deadlktreat) e hmay
    | waits w hmeets htd hwait => exact .waits _ w hmeets htd hwait
  | upgrade =>
    cases h with
    | got hfree => exact .upgrade _ hfree rfl
    | failed e hmay => exact .failed .upgrade e hmay
    | waits w hmeets htd hwait => exact .waits _ w hmeets htd hwait
  | want =>
    cases h with
    | got hfree => exact .want _ _ hfree (acquire_acquired ..).exclusiveDone
    | failed e hmay => exact .failed .want e hmay
    | waits w hmeets htd hwait => exact .waits _ w hmeets htd hwait
  | exclusive => exact h.exclusiveDone

theorem done_failed (smp : Bool) (td : ℕ) (extflags : ExtFlags) (wait : Wait) (l : Lock)
    (e : Errno) : Lock.done smp td extflags wait (l, .failed e) =
      ({ l with lkFlags := wait.clear l.lkFlags }, .err e) := by
  cases wait <;> rfl

/-! ## The waiters -/

/-- The threads inside `acquire` are different ones, at most one is on its way to an upgrade and one
    has set `LK_WANT_EXCL`, as the flags say, and `lk_waitcount` counts those asleep; `o` is where a
    thread is which has just left. -/
structure WaitsFor (l : Lock) (o : Option Wait) : Prop where
  nodup : (l.waiters.map (·.td)).Nodup
  upgrades : l.waiters.countP (·.wait = .upgrade) + (if o = some .upgrade then 1 else 0) =
    if l.lkFlags.wantUpgrade then 1 else 0
  exclusives : l.waiters.countP (·.wait = .exclusive) + (if o = some .exclusive then 1 else 0) =
    if l.lkFlags.wantExcl then 1 else 0
  count : l.lkWaitcount = l.waiters.countP (·.lockWait.isNone)
  nonzero : l.lkFlags.waitNonzero = decide (0 < l.lkWaitcount)

/-- A property of waiters that a wakeup does not change. -/
theorem countP_wakeup (l : Lock) (p : Waiter → Bool)
    (hp : ∀ w : Waiter, p { w with awake := true } = p w) :
    l.wakeup.waiters.countP p = l.waiters.countP p := by
  unfold wakeup
  rw [countP_map]
  congr 1
  funext w
  simp only [Function.comp_apply]
  split_ifs
  · exact hp w
  · rfl

@[simp] theorem wakeup_lkFlags (l : Lock) : l.wakeup.lkFlags = l.lkFlags := rfl
@[simp] theorem wakeup_lkWaitcount (l : Lock) : l.wakeup.lkWaitcount = l.lkWaitcount := rfl

@[simp] theorem takeExcl_lkFlags (l : Lock) (td : ℕ) :
    (l.takeExcl td).1.lkFlags = { l.lkFlags with haveExcl := true } := by
  unfold takeExcl
  dsimp only
  split_ifs <;> rfl

@[simp] theorem takeExcl_waiters (l : Lock) (td : ℕ) : (l.takeExcl td).1.waiters = l.waiters := by
  unfold takeExcl
  dsimp only
  split_ifs <;> rfl

/-- `lk_waitcount` and its flag are all that changes. -/
theorem unwait_lkFlags (l : Lock) : l.unwait.lkFlags =
    { l.lkFlags with waitNonzero := l.unwait.lkFlags.waitNonzero } := by
  unfold unwait
  split_ifs <;> rfl

@[simp] theorem unwait_lkSharecount (l : Lock) : l.unwait.lkSharecount = l.lkSharecount := by
  unfold unwait
  split_ifs <;> rfl

theorem meets_unwait (l : Lock) (wait : Wait) :
    l.unwait.lkFlags.meets wait.wanted = l.lkFlags.meets wait.wanted := by
  rw [unwait_lkFlags]
  cases wait <;> simp

@[simp] theorem unwait_waiters (l : Lock) : l.unwait.waiters = l.waiters := by
  unfold unwait
  split_ifs <;> rfl

theorem wakeup_tds (l : Lock) : l.wakeup.waiters.map (·.td) = l.waiters.map (·.td) := by
  unfold wakeup
  rw [map_map]
  congr 1
  funext w
  simp only [Function.comp_apply]
  split_ifs <;> rfl

@[simp] theorem shareunlock_haveExcl (l : Lock) (decr : ℤ) :
    (l.shareunlock decr).lkFlags.haveExcl = l.lkFlags.haveExcl := by
  unfold shareunlock
  dsimp only
  split_ifs <;> rfl

@[simp] theorem shareunlock_wantUpgrade (l : Lock) (decr : ℤ) :
    (l.shareunlock decr).lkFlags.wantUpgrade = l.lkFlags.wantUpgrade := by
  unfold shareunlock
  dsimp only
  split_ifs <;> rfl

@[simp] theorem shareunlock_lkLockholder (l : Lock) (decr : ℤ) :
    (l.shareunlock decr).lkLockholder = l.lkLockholder := by
  unfold shareunlock
  dsimp only
  split_ifs <;> rfl

@[simp] theorem downgrade_haveExcl (l : Lock) : l.downgrade.lkFlags.haveExcl = false := by
  unfold downgrade
  dsimp only
  split_ifs <;> rfl

theorem shareunlock_tds (l : Lock) (decr : ℤ) :
    (l.shareunlock decr).waiters.map (·.td) = l.waiters.map (·.td) := by
  unfold shareunlock
  dsimp only
  split_ifs
  · exact wakeup_tds { l with lkFlags := { l.lkFlags with shareNonzero := false } }
  · rfl
  · rfl

namespace WaitsFor
variable {l l' : Lock} {o : Option Wait}

theorem congr (h : WaitsFor l o) (hwaiters : l'.waiters = l.waiters)
    (hup : l'.lkFlags.wantUpgrade = l.lkFlags.wantUpgrade)
    (hex : l'.lkFlags.wantExcl = l.lkFlags.wantExcl)
    (hnz : l'.lkFlags.waitNonzero = l.lkFlags.waitNonzero)
    (hcount : l'.lkWaitcount = l.lkWaitcount) : WaitsFor l' o where
  nodup := by rw [hwaiters]; exact h.nodup
  upgrades := by rw [hwaiters, hup]; exact h.upgrades
  exclusives := by rw [hwaiters, hex]; exact h.exclusives
  count := by rw [hwaiters, hcount]; exact h.count
  nonzero := by rw [hnz, hcount]; exact h.nonzero

theorem wakeup (h : WaitsFor l o) : WaitsFor l.wakeup o where
  nodup := by rw [wakeup_tds]; exact h.nodup
  upgrades := by rw [countP_wakeup _ _ fun _ => rfl]; exact h.upgrades
  exclusives := by rw [countP_wakeup _ _ fun _ => rfl]; exact h.exclusives
  count := by rw [countP_wakeup _ _ fun _ => rfl]; exact h.count
  nonzero := h.nonzero

theorem sharelock (h : WaitsFor l o) (incr : ℤ) : WaitsFor (l.sharelock incr) o :=
  h.congr rfl rfl rfl rfl rfl

theorem shareunlock (h : WaitsFor l o) (decr : ℤ) : WaitsFor (l.shareunlock decr) o := by
  unfold Lock.shareunlock
  have h' : WaitsFor { l with lkFlags := { l.lkFlags with shareNonzero := false } } o :=
    h.congr rfl rfl rfl rfl rfl
  dsimp only
  split_ifs
  · exact h'.wakeup.congr rfl rfl rfl rfl rfl
  · exact h'.congr rfl rfl rfl rfl rfl
  · exact h.congr rfl rfl rfl rfl rfl

theorem takeExcl (h : WaitsFor l o) (td : ℕ) : WaitsFor (l.takeExcl td).1 o := by
  unfold Lock.takeExcl
  dsimp only
  split_ifs
  · exact h.congr rfl rfl rfl rfl rfl
  · exact h.congr rfl rfl rfl rfl rfl

/-- The thread at `wait` stays in `acquire`. -/
theorem park {wait : Wait} (h : WaitsFor l (some wait)) {w : Waiter} (hwait : w.wait = wait)
    (hnew : ∀ x ∈ l.waiters, x.td ≠ w.td) : WaitsFor (l.park w) none := by
  have hup := h.upgrades
  have hex := h.exclusives
  have hcount := h.count
  have hnz := h.nonzero
  have hnodup : ((l.waiters ++ [w]).map (·.td)).Nodup := by
    rw [map_append, nodup_append']
    refine ⟨h.nodup, nodup_singleton _, fun td htd htd' => ?_⟩
    obtain ⟨x, hx, rfl⟩ := mem_map.1 htd
    exact hnew x hx (mem_singleton.1 htd')
  have hcases : ∀ a : Wait, (if some wait = some a then 1 else 0) =
      if decide (w.wait = a) = true then 1 else 0 := by
    intro a; simp [hwait]
  unfold Lock.park
  cases hw : w.lockWait with
  | some n =>
    rw [if_pos (by rfl)]
    refine ⟨hnodup, ?_, ?_, ?_, hnz⟩
    · rw [← hup, countP_append, countP_singleton, hcases]; rfl
    · rw [← hex, countP_append, countP_singleton, hcases]; rfl
    · rw [countP_append, countP_singleton, hw]; exact hcount
  | none =>
    rw [if_neg (by simp)]
    refine ⟨hnodup, ?_, ?_, ?_, by simp⟩
    · dsimp only
      rw [← hup, countP_append, countP_singleton, hcases]; rfl
    · dsimp only
      rw [← hex, countP_append, countP_singleton, hcases]; rfl
    · dsimp only
      rw [countP_append, countP_singleton, hw, hcount]; rfl

/-- The thread that was at `wait` gives up or gets what it waited for. -/
theorem clear {wait : Wait} (h : WaitsFor l (some wait)) :
    WaitsFor { l with lkFlags := wait.clear l.lkFlags } none := by
  have hup := h.upgrades
  have hex := h.exclusives
  refine ⟨h.nodup, ?_, ?_, h.count, ?_⟩
  · cases wait <;> simp [Wait.clear] at hup ⊢ <;> split_ifs at hup <;> simp_all
  · cases wait <;> simp [Wait.clear] at hex ⊢ <;> split_ifs at hex <;> simp_all
  · cases wait <;> exact h.nonzero

/-- The waiters after a request which was at `wait`. -/
theorem done {td : ℕ} {mayFail : Prop} {wait : Wait} {t : Lock} {r : Ret}
    (h : WaitsFor l (some wait)) (hnew : ∀ x ∈ l.waiters, x.td ≠ td)
    (hdone : Done td mayFail l wait t r) : WaitsFor t none := by
  induction hdone with
  | waits wait w hmeets htd hwait => exact h.park hwait (htd ▸ hnew)
  | failed wait e => exact h.clear
  | shared deadlktreat hfree => exact h.clear.sharelock 1
  | upgrade r hfree hr => exact hr ▸ h.clear.takeExcl td
  | exclusive r hfree hr => exact hr ▸ h.clear.takeExcl td
  | want t r hfree hrec ih =>
    rename_i mayFail l
    refine ih ⟨h.nodup, ?_, ?_, h.count, h.nonzero⟩ hnew
    · simpa using h.upgrades
    · have hex := h.exclusives
      simp only [meets_want, Bool.or_eq_false_iff] at hfree
      rw [hfree.1] at hex; simpa using hex

/-- A thread leaves the loop of `apause`. -/
theorem relock (h : WaitsFor l none) {w : Waiter} (hw : w ∈ l.waiters)
    (hpause : w.lockWait.isSome) :
    WaitsFor { l with waiters := l.waiters.erase w } (some w.wait) := by
  have hperm := perm_cons_erase hw
  have hup := h.upgrades
  have hex := h.exclusives
  have hcount := h.count
  rw [hperm.countP_eq, countP_cons] at hup hex hcount
  refine ⟨h.nodup.sublist (erase_sublist.map _), ?_, ?_, ?_, h.nonzero⟩
  · simpa using hup
  · simpa using hex
  · simpa [Option.isNone_iff_eq_none, Option.isSome_iff_ne_none.1 hpause] using hcount

/-- A thread leaves its sleep. -/
theorem resume (h : WaitsFor l none) {w : Waiter} (hw : w ∈ l.waiters)
    (hsleep : w.lockWait.isNone) :
    WaitsFor (unwait { l with waiters := l.waiters.erase w }) (some w.wait) := by
  have hperm := perm_cons_erase hw
  have hup := h.upgrades
  have hex := h.exclusives
  have hcount := h.count
  have hnz := h.nonzero
  rw [hperm.countP_eq, countP_cons] at hup hex hcount
  rw [hsleep, if_pos rfl] at hcount
  have hnodup : ((l.waiters.erase w).map (·.td)).Nodup :=
    h.nodup.sublist (erase_sublist.map _)
  unfold unwait
  dsimp only
  split_ifs with hone
  · refine ⟨hnodup, by simpa using hup, by simpa using hex, ?_, by simp⟩
    dsimp only; omega
  · refine ⟨hnodup, by simpa using hup, by simpa using hex, ?_, ?_⟩
    · dsimp only; omega
    · dsimp only
      rw [hnz]
      congr 1
      rw [eq_iff_iff]; omega

end WaitsFor

/-! ## The requests -/

/-- `LK_EXCLUSIVE` panics, is a recursive request, is refused, or calls `acquire`. -/
theorem exclusive_cases (smp : Bool) (l : Lock) (td : ℕ) (extflags : ExtFlags) :
    l.exclusive smp td extflags = (l, .panic "lockmgr: locking against myself") ∨
    (l.lkLockholder = some td ∧ extflags.canrecurse = true ∧ l.exclusive smp td extflags =
      ({ l with lkExclusivecount := cShort (l.lkExclusivecount + 1) }, .ok)) ∨
    l.exclusive smp td extflags = (l, .err .ebusy) ∨
    Done td True l .want (l.exclusive smp td extflags).1 (l.exclusive smp td extflags).2 := by
  unfold exclusive
  split_ifs with h1 h2 h3
  · exact .inl rfl
  · exact .inr (.inl ⟨h2.1, h2.2, rfl⟩)
  · exact .inr (.inr (.inl rfl))
  · exact .inr (.inr (.inr ((acquire_acquired ..).done ..)))

/-- `LK_UPGRADE` panics; or it gives up the shared lock, and is refused, calls `acquire`, or goes on
    as an exclusive request. -/
theorem upgrade_cases (smp : Bool) (l : Lock) (td : ℕ) (extflags : ExtFlags) :
    ((l.lkLockholder = some td ∨ l.lkSharecount ≤ 0) ∧
      l.upgrade smp td extflags = (l, .panic "lockmgr: upgrade exclusive lock")) ∨
    l.upgrade smp td extflags = (l.shareunlock 1, .err .ebusy) ∨
    ((l.shareunlock 1).lkFlags.wantUpgrade = false ∧
      Done td True { l.shareunlock 1 with
        lkFlags := { (l.shareunlock 1).lkFlags with wantUpgrade := true } } .upgrade
        (l.upgrade smp td extflags).1 (l.upgrade smp td extflags).2) ∨
    ∃ l', (l' = l.shareunlock 1 ∨ l' = (l.shareunlock 1).wakeup) ∧
      l.upgrade smp td extflags = l'.exclusive smp td extflags := by
  unfold upgrade
  dsimp only
  by_cases h1 : l.lkLockholder = some td ∨ l.lkSharecount ≤ 0
  · rw [if_pos h1]; exact .inl ⟨h1, rfl⟩
  · rw [if_neg h1]
    by_cases h2 : extflags.nowait = true ∧
        ((l.shareunlock 1).lkFlags.wantUpgrade = true ∨ (l.shareunlock 1).lkSharecount > 1)
    · rw [if_pos h2]; exact .inr (.inl rfl)
    · rw [if_neg h2]
      by_cases h3 : (l.shareunlock 1).lkFlags.wantUpgrade = true
      · rw [if_neg (not_not.2 h3)]
        refine .inr (.inr (.inr ⟨_, ?_, rfl⟩))
        split_ifs
        · exact .inr rfl
        · exact .inl rfl
      · rw [if_pos h3]; exact .inr (.inr (.inl ⟨by simpa using h3, (acquire_acquired ..).done ..⟩))

/-- What `LK_RELEASE` gives up, before its `wakeup`. -/
inductive Released (l : Lock) : Lock → Prop
  | last (hcount : l.lkExclusivecount = 1) :
      Released l { l with
        lkFlags := { l.lkFlags with haveExcl := false }
        lkLockholder := none
        lkExclusivecount := 0 }
  | recursive (hcount : l.lkExclusivecount ≠ 0) (hlast : l.lkExclusivecount ≠ 1) :
      Released l { l with lkExclusivecount := cShort (l.lkExclusivecount - 1) }
  | shared (hcount : l.lkExclusivecount = 0) (hshare : l.lkFlags.shareNonzero = true) :
      Released l (l.shareunlock 1)
  | nothing (hcount : l.lkExclusivecount = 0) (hshare : l.lkFlags.shareNonzero = false) :
      Released l l

theorem release_cases (l : Lock) (td : ℕ) :
    (l.lkExclusivecount ≠ 0 ∧ l.lkLockholder ≠ some td ∧
      l.release td = (l, .panic "lockmgr: thread %p, not %s %p unlocking")) ∨
    ∃ l', Released l l' ∧
      l.release td = (if l'.lkFlags.waitNonzero then l'.wakeup else l', .ok) := by
  unfold release
  by_cases h1 : l.lkExclusivecount ≠ 0 ∧ l.lkLockholder ≠ some td
  · rw [if_pos h1]; exact .inl ⟨h1.1, h1.2, rfl⟩
  · rw [if_neg h1]
    refine .inr ⟨_, ?_, rfl⟩
    split_ifs with h2 h3 h4
    · exact .last h3
    · exact .recursive h2 h3
    · exact .shared (not_not.1 h2) h4
    · exact .nothing (not_not.1 h2) (by simpa using h4)

namespace WaitsFor
variable {l : Lock}

/-- A thread that calls `acquire` for a lock or for `LK_WANT_EXCL` has set no flag yet. -/
theorem start (h : WaitsFor l none) {wait : Wait} (hup : wait ≠ .upgrade)
    (hex : wait ≠ .exclusive) :
    WaitsFor l (some wait) :=
  ⟨h.nodup, by simpa [hup] using h.upgrades, by simpa [hex] using h.exclusives, h.count, h.nonzero⟩

/-- The thread sets `LK_WANT_UPGRADE`. -/
theorem announce (h : WaitsFor l none) (hwu : l.lkFlags.wantUpgrade = false) :
    WaitsFor { l with lkFlags := { l.lkFlags with wantUpgrade := true } } (some .upgrade) := by
  have hup := h.upgrades
  rw [hwu] at hup
  exact ⟨h.nodup, by simpa using hup, by simpa using h.exclusives, h.count, h.nonzero⟩

theorem exclusive (h : WaitsFor l none) (smp : Bool) {td : ℕ} (hnew : ∀ x ∈ l.waiters, x.td ≠ td)
    (extflags : ExtFlags) : WaitsFor (l.exclusive smp td extflags).1 none := by
  rcases exclusive_cases smp l td extflags with hr | ⟨-, -, hr⟩ | hr | hdone
  · rw [hr]; exact h
  · rw [hr]; exact h.congr rfl rfl rfl rfl rfl
  · rw [hr]; exact h
  · exact (h.start (by simp) (by simp)).done hnew hdone

theorem upgrade (h : WaitsFor l none) (smp : Bool) {td : ℕ} (hnew : ∀ x ∈ l.waiters, x.td ≠ td)
    (extflags : ExtFlags) : WaitsFor (l.upgrade smp td extflags).1 none := by
  have hun := h.shareunlock 1
  have hnew' : ∀ x ∈ (l.shareunlock 1).waiters, x.td ≠ td := by
    have htds := shareunlock_tds l 1
    intro x hx htd
    have hmem : td ∈ (l.shareunlock 1).waiters.map (·.td) := htd ▸ mem_map_of_mem hx
    rw [htds] at hmem
    obtain ⟨y, hy, hytd⟩ := mem_map.1 hmem
    exact hnew y hy hytd
  rcases upgrade_cases smp l td extflags with ⟨-, hr⟩ | hr | ⟨hwu, hdone⟩ | ⟨l', hl', hr⟩
  · rw [hr]; exact h
  · rw [hr]; exact hun
  · exact (hun.announce hwu).done hnew' hdone
  · rw [hr]
    rcases hl' with rfl | rfl
    · exact hun.exclusive smp hnew' extflags
    · refine hun.wakeup.exclusive smp (fun x hx htd => ?_) extflags
      have hmem : td ∈ (l.shareunlock 1).wakeup.waiters.map (·.td) := htd ▸ mem_map_of_mem hx
      rw [wakeup_tds] at hmem
      obtain ⟨y, hy, hytd⟩ := mem_map.1 hmem
      exact hnew' y hy hytd

theorem downgrade (h : WaitsFor l none) : WaitsFor l.downgrade none := by
  have h' := h.sharelock l.lkExclusivecount
  unfold Lock.downgrade
  dsimp only
  split_ifs
  · exact WaitsFor.wakeup (h'.congr rfl rfl rfl rfl rfl)
  · exact h'.congr rfl rfl rfl rfl rfl

theorem released (h : WaitsFor l none) {l' : Lock} (hrel : Released l l') : WaitsFor l' none := by
  cases hrel with
  | last => exact h.congr rfl rfl rfl rfl rfl
  | recursive => exact h.congr rfl rfl rfl rfl rfl
  | shared => exact h.shareunlock 1
  | nothing => exact h

theorem release (h : WaitsFor l none) (td : ℕ) : WaitsFor (l.release td).1 none := by
  rcases release_cases l td with ⟨-, -, hr⟩ | ⟨l', hrel, hr⟩
  · rw [hr]; exact h
  · rw [hr]
    have h' := h.released hrel
    dsimp only
    split_ifs
    · exact h'.wakeup
    · exact h'

/-- The waiters after a request. -/
theorem lockmgr (h : WaitsFor l none) (smp : Bool) (request : Request) (flags : ExtFlags) {td : ℕ}
    (hnew : ∀ x ∈ l.waiters, x.td ≠ td) (deadlktreat : Bool) :
    WaitsFor (l.lockmgr smp request flags td deadlktreat).1 none := by
  unfold Lock.lockmgr
  cases request with
  | shared =>
    show WaitsFor (l.shared smp td deadlktreat _).1 none
    unfold Lock.shared
    split_ifs
    · exact (h.start (by simp) (by simp)).done hnew ((acquire_acquired ..).done ..)
    · exact (h.sharelock 1).downgrade
  | exclusive => exact h.exclusive smp hnew _
  | upgrade => exact h.upgrade smp hnew _
  | exclupgrade =>
    show WaitsFor (l.exclupgrade smp td _).1 none
    unfold exclupgrade
    split_ifs
    · exact h.shareunlock 1
    · exact h.upgrade smp hnew _
  | downgrade => exact h.downgrade
  | release => exact h.release td

end WaitsFor

end Lock

/-! ## Steps -/

namespace Sys

/-- What a step does, by its operation. -/
inductive Change (smp : Bool) (s : Sys) : Op → Sys → Ret → Prop
  | call (td : ℕ) (request : Request) (flags : ExtFlags) (deadlktreat : Bool)
      (hnew : ∀ x ∈ s.lk.waiters, x.td ≠ td) (hproper : request.proper s.holds td = true) (t : Sys)
      (r : Ret)
      (ht : (t, r) = s.answer (s.lk.lockmgr smp request flags td deadlktreat)
        (request.granted (request.before s.holds td) td) (request.before s.holds td)) :
      Change smp s (.call td request flags deadlktreat) t r
  | giveUp (td : ℕ) (why : Wakeup) (w : Waiter) (hw : w ∈ s.lk.waiters)
      (hfind : s.lk.waiters.find? (·.td == td) = some w) (hsleep : w.lockWait.isNone = true)
      (hwhy : why ≠ .wakeup ∨ w.extflags.sleepfail = true) (e : Errno) (l : Lock)
      (hl : l = Lock.unwait { s.lk with waiters := s.lk.waiters.erase w }) :
      Change smp s (.resume td why) (s.answer
        ({ l with lkFlags := w.wait.clear l.lkFlags }, .err e)
          (w.wait.hold td :: s.holds) s.holds).1
        (.err e)
  | resume (td : ℕ) (w : Waiter) (hw : w ∈ s.lk.waiters)
      (hfind : s.lk.waiters.find? (·.td == td) = some w) (hsleep : w.lockWait.isNone = true)
      (hstay : w.extflags.sleepfail = false) (l : Lock) (r : Ret)
      (hdone : Lock.Done td False
        (Lock.unwait { s.lk with waiters := s.lk.waiters.erase w }) w.wait l r) :
      Change smp s (.resume td .wakeup) (s.answer (l, r) (w.wait.hold td :: s.holds) s.holds).1 r
  | relock (td : ℕ) (w : Waiter) (hw : w ∈ s.lk.waiters)
      (hfind : s.lk.waiters.find? (·.td == td) = some w) (hpause : w.lockWait.isSome = true)
      (l : Lock) (r : Ret)
      (hdone : Lock.Done td False { s.lk with waiters := s.lk.waiters.erase w } w.wait l r) :
      Change smp s (.relock td) (s.answer (l, r) (w.wait.hold td :: s.holds) s.holds).1 r

theorem step_change {smp : Bool} {s t : Sys} {op : Op} {r : Ret}
    (h : s.step smp op = some (t, r)) : s.panicstr = none ∧ Change smp s op t r := by
  unfold step at h
  split_ifs at h with hpanic
  refine ⟨by simpa using hpanic, ?_⟩
  cases op with
  | call td request flags deadlktreat =>
    simp only [Option.ite_none_right_eq_some, Option.some.injEq, Bool.and_eq_true,
      all_eq_true, bne_iff_ne] at h
    exact .call td request flags deadlktreat h.1.1 h.1.2 t r h.2.symm
  | resume td why =>
    dsimp only at h
    split at h
    · cases h
    · next w hfind =>
      simp only [Option.ite_none_right_eq_some, Option.some.injEq, Bool.and_eq_true] at h
      obtain ⟨⟨hsleep, -⟩, h⟩ := h
      have htd : w.td = td := by simpa using List.find?_some hfind
      obtain ⟨rfl, rfl⟩ := Prod.mk.inj h
      have hw := mem_of_find?_eq_some hfind
      by_cases hwhy : why ≠ .wakeup ∨ w.extflags.sleepfail = true
      · have herror : why.error ≠ none ∨ w.extflags.sleepfail = true :=
          hwhy.imp_left fun hne => by cases why <;> simp_all [Wakeup.error]
        obtain ⟨e, he⟩ := Lock.acquireWoken_failed
          (l := { s.lk with waiters := s.lk.waiters.erase w }) herror
        rw [he, Lock.done_failed]; exact .giveUp td why w hw hfind hsleep hwhy e _ rfl
      · rw [not_or, not_not, Bool.not_eq_true] at hwhy
        obtain ⟨rfl, hstay⟩ := hwhy
        have hdone := (Lock.acquireWoken_acquired { s.lk with waiters := s.lk.waiters.erase w }
          hstay).done smp w.extflags
        rw [htd] at hdone; exact .resume td w hw hfind hsleep hstay _ _ hdone
  | relock td =>
    dsimp only at h
    split at h
    · cases h
    · next w hfind =>
      split at h
      · cases h
      · next lockWait hpause =>
        have htd : w.td = td := by simpa using List.find?_some hfind
        have hdone := (Lock.apauseNext_acquired { s.lk with waiters := s.lk.waiters.erase w } w
          lockWait).done smp w.extflags
        rw [htd] at hdone
        obtain ⟨rfl, rfl⟩ := Prod.mk.inj (Option.some.inj h)
        exact .relock td w (mem_of_find?_eq_some hfind) hfind (by simp [hpause]) _ _ hdone

/-- Every step keeps the waiters as the flags and the count say. -/
theorem waitsFor_step {smp : Bool} {s t : Sys} {op : Op} {r : Ret} (h : s.lk.WaitsFor none)
    (hstep : s.step smp op = some (t, r)) : t.lk.WaitsFor none := by
  obtain ⟨-, hchange⟩ := step_change hstep
  have hother : ∀ {w : Waiter} {td : ℕ}, s.lk.waiters.find? (·.td == td) = some w →
      ∀ x ∈ s.lk.waiters.erase w, x.td ≠ td := by
    intro w td hfind x hx htd
    have hw := mem_of_find?_eq_some hfind
    have hwtd : w.td = td := by simpa using List.find?_some hfind
    have hnodup := h.nodup
    rw [((perm_cons_erase hw).map _).nodup_iff, map_cons, nodup_cons] at hnodup
    exact hnodup.1 (hwtd.trans htd.symm ▸ mem_map_of_mem hx)
  cases hchange with
  | call td request flags deadlktreat hnew hproper _ _ ht =>
    obtain ⟨rfl, -⟩ := Prod.mk.inj ht
    exact h.lockmgr smp request flags hnew deadlktreat
  | giveUp td why w hw hfind hsleep hwhy e l hl =>
    subst hl; exact (h.resume hw hsleep).clear
  | resume td w hw hfind hsleep hstay l _ hdone =>
    refine (h.resume hw hsleep).done ?_ hdone
    rw [Lock.unwait_waiters]; exact hother hfind
  | relock td w hw hfind hpause l _ hdone => exact (h.relock hw hpause).done (hother hfind) hdone

end Sys

end FreeBSD.KernLock
