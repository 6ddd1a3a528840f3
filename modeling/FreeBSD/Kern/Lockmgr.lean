import FreeBSD.Lib.Runs

/-!
# The lock manager

Model of `lockmgr`, `acquire`, `apause`, `sharelock` and `shareunlock` of `sys/kern/kern_lock.c` for
one lock and the requests of threads (`td` is not `NULL`), without `LK_DRAIN` and `transferlockers`.

A step is the code between two acquisitions of the interlock. What a thread keeps while it does not
have the interlock is a `Waiter`: it is in the loop of `apause`, or inside `msleep`. Assertions
(`KASSERT`) are left out. `lk_waitcount` counts threads and does not overflow; the other two
counters count holds, and they wrap around.

The holds of the threads are no part of the lock: `Sys` keeps them by what the requests are for and
how they are answered.
-/

namespace FreeBSD.KernLock

/-! ## Data -/

/-- The flags of `lk_flags` that the lock manager uses internally (`sys/lockmgr.h`, lines 136–158);
    also a mask of them. -/
structure LkFlags where
  (wantUpgrade wantExcl haveExcl shareNonzero waitNonzero : Bool)
  deriving DecidableEq, Repr

/-- `lk_flags & wanted` is not zero. -/
def LkFlags.meets (flags wanted : LkFlags) : Bool :=
  flags.wantUpgrade && wanted.wantUpgrade || flags.wantExcl && wanted.wantExcl ||
    flags.haveExcl && wanted.haveExcl || flags.shareNonzero && wanted.shareNonzero ||
    flags.waitNonzero && wanted.waitNonzero

/-- The external flags (`LK_EXTFLG_MASK`). -/
structure ExtFlags where
  (nowait sleepfail canrecurse nopause timelock : Bool)
  deriving DecidableEq, Repr

/-- `flags | lk_flags`, for the external flags. -/
def ExtFlags.or (flags lkFlags : ExtFlags) : ExtFlags where
  nowait := flags.nowait || lkFlags.nowait
  sleepfail := flags.sleepfail || lkFlags.sleepfail
  canrecurse := flags.canrecurse || lkFlags.canrecurse
  nopause := flags.nopause || lkFlags.nopause
  timelock := flags.timelock || lkFlags.timelock

/-- The requests (`LK_TYPE_MASK`), without `LK_DRAIN`. -/
inductive Request where
  | shared | exclusive | upgrade | exclupgrade | downgrade | release
  deriving DecidableEq, Repr

/-- The calls of `acquire`: for `LK_SHARED`, by a thread with `TDF_DEADLKTREAT` or not, for
    `LK_UPGRADE`, and the two of `LK_EXCLUSIVE`, to set `LK_WANT_EXCL` and then to take the lock. -/
inductive Wait where
  | shared (deadlktreat : Bool)
  | upgrade
  | want
  | exclusive
  deriving DecidableEq, Repr

/-- The argument `wanted` of these calls (lines 259–264, 337, 387 and 394). -/
def Wait.wanted : Wait → LkFlags
  | shared deadlktreat => ⟨!deadlktreat, !deadlktreat, true, false, false⟩
  | upgrade => ⟨false, false, false, true, false⟩
  | want => ⟨false, true, true, false, false⟩
  | exclusive => ⟨true, false, false, true, false⟩

/-- A thread inside `acquire` that does not have the interlock: in the loop of `apause`, with
    `lock_wait` rounds to go, or inside `msleep`. -/
structure Waiter where
  td : ℕ
  extflags : ExtFlags
  wait : Wait
  lockWait : Option ℕ
  awake : Bool
  deriving DecidableEq, Repr

/-- The thread is asleep, and no `wakeup` has reached it. -/
def Waiter.asleep (w : Waiter) : Bool := w.lockWait.isNone && !w.awake

/-- `struct lock` (`sys/lockmgr.h`, lines 51–72), with the threads inside `acquire`. Of `lk_prio`
    there is `PCATCH`; `lk_lockholder` is `none` for `LK_NOPROC`. -/
structure Lock where
  lkFlags : LkFlags
  lkExtflags : ExtFlags
  lkSharecount : ℤ
  lkWaitcount : ℕ
  lkExclusivecount : ℤ
  lkPcatch : Bool
  lkTimo : ℕ
  lkLockholder : Option ℕ
  waiters : List Waiter
  deriving DecidableEq, Repr

/-- `lockinit` (lines 521–553). -/
def lockinit (pcatch : Bool) (timo : ℕ) (flags : ExtFlags) : Lock where
  lkFlags := ⟨false, false, false, false, false⟩
  lkExtflags := flags
  lkSharecount := 0
  lkWaitcount := 0
  lkExclusivecount := 0
  lkPcatch := pcatch
  lkTimo := timo
  lkLockholder := none
  waiters := []

inductive Errno where
  | ebusy | enolck | ewouldblock | eintr
  deriving DecidableEq, Repr

/-- How a step ends: with the return of `lockmgr`, a panic, or in `acquire`. -/
inductive Ret where
  | ok
  | err (e : Errno)
  | panic (msg : String)
  | waits
  deriving DecidableEq, Repr

/-- How a step inside `acquire` ends: with its return, or still there. -/
inductive Acq where
  | got
  | failed (e : Errno)
  | waits
  deriving DecidableEq, Repr

/-- A value of type `int`, and one of type `short`. -/
def cInt (z : ℤ) : ℤ := z.bmod 4294967296
def cShort (z : ℤ) : ℤ := z.bmod 65536

namespace Lock

/-! ## Shared holds -/

/-- `wakeup(lkp)`: every thread that sleeps there wakes up. -/
def wakeup (l : Lock) : Lock :=
  { l with waiters := l.waiters.map fun w =>
      if w.lockWait.isNone then { w with awake := true } else w }

/-- `sharelock` (lines 90–94). -/
def sharelock (l : Lock) (incr : ℤ) : Lock :=
  { l with
    lkFlags := { l.lkFlags with shareNonzero := true }
    lkSharecount := cInt (l.lkSharecount + incr) }

/-- `shareunlock` (lines 96–110). -/
def shareunlock (l : Lock) (decr : ℤ) : Lock :=
  if l.lkSharecount = decr then
    let l := { l with lkFlags := { l.lkFlags with shareNonzero := false } }
    let l := if l.lkFlags.wantUpgrade || l.lkFlags.wantExcl then l.wakeup else l
    { l with lkSharecount := 0 }
  else { l with lkSharecount := cInt (l.lkSharecount - decr) }

/-! ## acquire -/

/-- The thread gives up the interlock in the loop of `apause`, or goes to sleep
    (lines 158–163). -/
def park (l : Lock) (w : Waiter) : Lock :=
  if w.lockWait.isSome then { l with waiters := l.waiters ++ [w] }
  else
    { l with
      lkFlags := { l.lkFlags with waitNonzero := true }
      lkWaitcount := l.lkWaitcount + 1
      waiters := l.waiters ++ [w] }

/-- The loop of `acquire` from its test on (line 157), up to `msleep` or the return. -/
def acquireLoop (l : Lock) (td : ℕ) (extflags : ExtFlags) (wait : Wait) : Lock × Acq :=
  if l.lkFlags.meets wait.wanted then (l.park ⟨td, extflags, wait, none, false⟩, .waits)
  else (l, .got)

/-- `acquire` (lines 138–188), and `apause` (lines 115–136) with its loop if `smp`, up to where it
    gives up the interlock or returns. -/
def acquire (smp : Bool) (l : Lock) (td : ℕ) (extflags : ExtFlags) (wait : Wait) : Lock × Acq :=
  if extflags.nowait && l.lkFlags.meets wait.wanted then (l, .failed .ebusy)
  else if !extflags.nopause && smp && l.lkFlags.meets wait.wanted then
    (l.park ⟨td, extflags, wait, some 100, false⟩, .waits)
  else l.acquireLoop td extflags wait

/-- The round of `apause` after the interlock has been taken again; `w` is the thread, no longer in
    `waiters`, and `lockWait` is `lock_wait`. -/
def apauseNext (l : Lock) (w : Waiter) (lockWait : ℕ) : Lock × Acq :=
  if !l.lkFlags.meets w.wait.wanted then (l, .got)
  else if lockWait - 1 > 0 then (l.park { w with lockWait := some (lockWait - 1) }, .waits)
  else l.acquireLoop w.td w.extflags w.wait

/-- `lk_waitcount` after `msleep` (lines 164–169). -/
def unwait (l : Lock) : Lock :=
  if l.lkWaitcount = 1 then
    { l with
      lkFlags := { l.lkFlags with waitNonzero := false }
      lkWaitcount := 0 }
  else { l with lkWaitcount := l.lkWaitcount - 1 }

/-- `acquire` after `msleep`, which has returned `error` (lines 164–185); `w` is the thread, no
    longer in `waiters`. -/
def acquireWoken (l : Lock) (w : Waiter) (error : Option Errno) : Lock × Acq :=
  let l := l.unwait
  match error with
  | some e => (l, .failed e)
  | none =>
    if w.extflags.sleepfail then (l, .failed .enolck)
    else l.acquireLoop w.td w.extflags w.wait

/-! ## The requests -/

/-- The lock is taken exclusively (lines 342–346 and 398–402). -/
def takeExcl (l : Lock) (td : ℕ) : Lock × Ret :=
  let l := { l with
    lkFlags := { l.lkFlags with haveExcl := true }
    lkLockholder := some td }
  if l.lkExclusivecount ≠ 0 then (l, .panic "lockmgr: non-zero exclusive count")
  else ({ l with lkExclusivecount := 1 }, .ok)

/-- `LK_SHARED` after `acquire` (lines 265–267). -/
def sharedDone : Lock × Acq → Lock × Ret
  | (l, .waits) => (l, .waits)
  | (l, .failed e) => (l, .err e)
  | (l, .got) => (l.sharelock 1, .ok)

/-- `LK_UPGRADE` after `acquire` (lines 338–346). -/
def upgradeDone (td : ℕ) : Lock × Acq → Lock × Ret
  | (l, .waits) => (l, .waits)
  | (l, .failed e) => ({ l with lkFlags := { l.lkFlags with wantUpgrade := false } }, .err e)
  | (l, .got) => takeExcl { l with lkFlags := { l.lkFlags with wantUpgrade := false } } td

/-- `LK_EXCLUSIVE` after its second call of `acquire` (lines 395–402). -/
def exclusiveDone (td : ℕ) : Lock × Acq → Lock × Ret
  | (l, .waits) => (l, .waits)
  | (l, .failed e) => ({ l with lkFlags := { l.lkFlags with wantExcl := false } }, .err e)
  | (l, .got) => takeExcl { l with lkFlags := { l.lkFlags with wantExcl := false } } td

/-- `LK_EXCLUSIVE` after its first call of `acquire` (lines 388–402). -/
def wantDone (smp : Bool) (td : ℕ) (extflags : ExtFlags) : Lock × Acq → Lock × Ret
  | (l, .waits) => (l, .waits)
  | (l, .failed e) => (l, .err e)
  | (l, .got) =>
    exclusiveDone td
      (acquire smp { l with lkFlags := { l.lkFlags with wantExcl := true } } td extflags .exclusive)

/-- `lockmgr` after `acquire`. -/
def done (smp : Bool) (td : ℕ) (extflags : ExtFlags) : Wait → Lock × Acq → Lock × Ret
  | .shared _ => sharedDone
  | .upgrade => upgradeDone td
  | .want => wantDone smp td extflags
  | .exclusive => exclusiveDone td

/-- `LK_EXCLUSIVE` (lines 364–408). -/
def exclusive (smp : Bool) (l : Lock) (td : ℕ) (extflags : ExtFlags) : Lock × Ret :=
  if l.lkLockholder = some td ∧ ¬ extflags.nowait ∧ ¬ extflags.canrecurse then
    (l, .panic "lockmgr: locking against myself")
  else if l.lkLockholder = some td ∧ extflags.canrecurse then
    ({ l with lkExclusivecount := cShort (l.lkExclusivecount + 1) }, .ok)
  else if extflags.nowait ∧ l.lkFlags.meets ⟨true, true, true, true, false⟩ then (l, .err .ebusy)
  else done smp td extflags .want (l.acquire smp td extflags .want)

/-- `LK_UPGRADE` (lines 309–362). -/
def upgrade (smp : Bool) (l : Lock) (td : ℕ) (extflags : ExtFlags) : Lock × Ret :=
  if l.lkLockholder = some td ∨ l.lkSharecount ≤ 0 then
    (l, .panic "lockmgr: upgrade exclusive lock")
  else
    let l := l.shareunlock 1
    if extflags.nowait ∧ (l.lkFlags.wantUpgrade ∨ l.lkSharecount > 1) then (l, .err .ebusy)
    else if ¬ l.lkFlags.wantUpgrade then
      let l := { l with lkFlags := { l.lkFlags with wantUpgrade := true } }
      done smp td extflags .upgrade (l.acquire smp td extflags .upgrade)
    else
      let l := if l.lkFlags.waitNonzero && !l.lkFlags.shareNonzero then l.wakeup else l
      l.exclusive smp td extflags

/-- `LK_EXCLUPGRADE` (lines 296–307). -/
def exclupgrade (smp : Bool) (l : Lock) (td : ℕ) (extflags : ExtFlags) : Lock × Ret :=
  if l.lkFlags.wantUpgrade then (l.shareunlock 1, .err .ebusy) else l.upgrade smp td extflags

/-- `LK_DOWNGRADE` (lines 283–294). -/
def downgrade (l : Lock) : Lock :=
  let l := l.sharelock l.lkExclusivecount
  let l := { l with
    lkExclusivecount := 0
    lkFlags := { l.lkFlags with haveExcl := false }
    lkLockholder := none }
  if l.lkWaitcount ≠ 0 then l.wakeup else l

/-- `LK_SHARED` (lines 248–281). -/
def shared (smp : Bool) (l : Lock) (td : ℕ) (deadlktreat : Bool) (extflags : ExtFlags) :
    Lock × Ret :=
  if l.lkLockholder ≠ some td then
    done smp td extflags (.shared deadlktreat) (l.acquire smp td extflags (.shared deadlktreat))
  else ((l.sharelock 1).downgrade, .ok)

/-- `LK_RELEASE` (lines 410–429). -/
def release (l : Lock) (td : ℕ) : Lock × Ret :=
  if l.lkExclusivecount ≠ 0 ∧ l.lkLockholder ≠ some td then
    (l, .panic "lockmgr: thread %p, not %s %p unlocking")
  else
    let l :=
      if l.lkExclusivecount ≠ 0 then
        if l.lkExclusivecount = 1 then
          { l with
            lkFlags := { l.lkFlags with haveExcl := false }
            lkLockholder := none
            lkExclusivecount := 0 }
        else { l with lkExclusivecount := cShort (l.lkExclusivecount - 1) }
      else if l.lkFlags.shareNonzero then l.shareunlock 1 else l
    (if l.lkFlags.waitNonzero then l.wakeup else l, .ok)

/-- `lockmgr` (lines 196–462). -/
def lockmgr (smp : Bool) (l : Lock) (request : Request) (flags : ExtFlags) (td : ℕ)
    (deadlktreat : Bool) : Lock × Ret :=
  let extflags := flags.or l.lkExtflags
  match request with
  | .shared => l.shared smp td deadlktreat extflags
  | .exclusive => l.exclusive smp td extflags
  | .upgrade => l.upgrade smp td extflags
  | .exclupgrade => l.exclupgrade smp td extflags
  | .downgrade => (l.downgrade, .ok)
  | .release => l.release td

end Lock

/-! ## Runs -/

inductive Mode where
  | shared | exclusive
  deriving DecidableEq, Repr

/-- A hold of a thread. -/
structure Hold where
  td : ℕ
  mode : Mode
  deriving DecidableEq, Repr

/-- The lock, the holds of the threads, and the message of a panic. -/
structure Sys where
  lk : Lock
  holds : List Hold
  panicstr : Option String
  deriving DecidableEq, Repr

/-- What ends a sleep. -/
inductive Wakeup where
  | wakeup | timeout | signal
  deriving DecidableEq, Repr

/-- A step: a request of a thread, the end of its sleep, or the interlock is taken again in the loop
    of `apause`. -/
inductive Op where
  | call (td : ℕ) (request : Request) (flags : ExtFlags) (deadlktreat : Bool)
  | resume (td : ℕ) (why : Wakeup)
  | relock (td : ℕ)

/-- The error that `msleep` returns. -/
def Wakeup.error : Wakeup → Option Errno
  | wakeup => none
  | timeout => some .ewouldblock
  | signal => some .eintr

/-- The sleep of the thread can end so. -/
def Wakeup.possible (l : Lock) (w : Waiter) : Wakeup → Bool
  | wakeup => w.awake
  | timeout => w.extflags.timelock && l.lkTimo != 0
  | signal => l.lkPcatch

/-- The exclusive holds of the thread become shared. -/
def demote (td : ℕ) (holds : List Hold) : List Hold :=
  holds.map fun h => if h = ⟨td, .exclusive⟩ then ⟨td, .shared⟩ else h

/-- The hold that a thread gets which has waited. -/
def Wait.hold (td : ℕ) : Wait → Hold
  | shared _ => ⟨td, .shared⟩
  | _ => ⟨td, .exclusive⟩

/-- The request is for what the thread holds: it releases, upgrades or downgrades nothing else. -/
def Request.proper (holds : List Hold) (td : ℕ) : Request → Bool
  | shared | exclusive => true
  | upgrade | exclupgrade => holds.contains ⟨td, .shared⟩
  | downgrade => holds.contains ⟨td, .exclusive⟩
  | release => holds.any (·.td == td)

/-- The holds that are left when the request is made: a shared lock is given up to upgrade it. -/
def Request.before (holds : List Hold) (td : ℕ) : Request → List Hold
  | upgrade | exclupgrade => holds.erase ⟨td, .shared⟩
  | _ => holds

/-- The holds after the request has been granted. -/
def Request.granted (holds : List Hold) (td : ℕ) : Request → List Hold
  | shared => ⟨td, .shared⟩ :: demote td holds
  | exclusive | upgrade | exclupgrade => ⟨td, .exclusive⟩ :: holds
  | downgrade => demote td holds
  | release => if ⟨td, .exclusive⟩ ∈ holds then holds.erase ⟨td, .exclusive⟩
    else holds.erase ⟨td, .shared⟩

namespace Sys

/-- The lock and the answer of a step, with the holds if the answer is `0` and otherwise. -/
def answer (s : Sys) (r : Lock × Ret) (granted otherwise : List Hold) : Sys × Ret :=
  ({ s with
      lk := r.1
      holds := if r.2 = .ok then granted else otherwise
      panicstr := match r.2 with
        | .panic msg => some msg
        | _ => none }, r.2)

/-- A step, where it is possible: a thread inside `acquire` makes no request, and the requests are
    proper. -/
def step (smp : Bool) (s : Sys) (op : Op) : Option (Sys × Ret) :=
  if s.panicstr.isSome then none
  else
    match op with
    | .call td request flags deadlktreat =>
      if s.lk.waiters.all (·.td != td) && request.proper s.holds td then
        some (s.answer (s.lk.lockmgr smp request flags td deadlktreat)
          (request.granted (request.before s.holds td) td) (request.before s.holds td))
      else none
    | .resume td why =>
      match s.lk.waiters.find? (·.td == td) with
      | none => none
      | some w =>
        if w.lockWait.isNone && why.possible s.lk w then
          let l := { s.lk with waiters := s.lk.waiters.erase w }
          some (s.answer (Lock.done smp td w.extflags w.wait (l.acquireWoken w why.error))
            (w.wait.hold td :: s.holds) s.holds)
        else none
    | .relock td =>
      match s.lk.waiters.find? (·.td == td) with
      | none => none
      | some w =>
        match w.lockWait with
        | none => none
        | some lockWait =>
          let l := { s.lk with waiters := s.lk.waiters.erase w }
          some (s.answer (Lock.done smp td w.extflags w.wait (l.apauseNext w lockWait))
            (w.wait.hold td :: s.holds) s.holds)

end Sys

/-- A lock that has been set up. -/
def Sys.init (pcatch : Bool) (timo : ℕ) (flags : ExtFlags) : Sys where
  lk := lockinit pcatch timo flags
  holds := []
  panicstr := none

end FreeBSD.KernLock
