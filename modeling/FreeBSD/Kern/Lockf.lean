import Mathlib.Tactic

/-!
# Byte-range locks

Model of `sys/kern/kern_lockf.c`: `lf_advlock`, `lf_setlock`, `lf_clearlock`,
`lf_getlock`, `lf_getblock`, `lf_findoverlap`, `lf_split` and `lf_wakelock`.

A `struct lockf` is a cell of a memory indexed by its address and a
`struct lockf **` is a `Link`, so the list of a file is the chain of `lf_next`
from its head. An address is not handed out again after `free`. The lists of
blocked requests are lists of addresses. `off_t` is an integer of 64 bits whose
arithmetic wraps around (`wrap`).

`tsleep` ends the step of a thread: what it does afterwards is another step
(`lfSetlockWoken`). The walks along `lf_next` make at most as many rounds as
there are cells; one that goes on for longer goes round a cycle (`Fault.cycle`).
-/

namespace FreeBSD.KernLockf

/-! ## Data -/

/-- `OFF_MAX` (`sys/limits.h`). -/
def offMax : ℤ := 2 ^ 63 - 1

/-- The result of `off_t` arithmetic. -/
def wrap (x : ℤ) : ℤ := (x + 2 ^ 63) % 2 ^ 64 - 2 ^ 63

/-- The values of an `off_t`. -/
def OffT : Type := {x : ℤ // -2 ^ 63 ≤ x ∧ x < 2 ^ 63}

/-- `F_RDLCK`, `F_UNLCK` and `F_WRLCK` (`sys/fcntl.h`, lines 188–190). -/
inductive LockType where
  | rdlck
  | unlck
  | wrlck
  deriving DecidableEq, Repr

/-- `F_WAIT`, `F_FLOCK` and `F_POSIX` (`sys/fcntl.h`, lines 192–194). -/
structure LockFlags where
  (fWait fFlock fPosix : Bool)
  deriving DecidableEq, Repr

/-- `struct lockf` (`sys/lockf.h`, lines 59–70); `lf_inode` is never read. -/
structure Lockf where
  lfFlags : LockFlags
  lfType : LockType
  lfStart : ℤ
  lfEnd : ℤ
  lfId : ℕ
  lfHead : ℕ
  lfNext : Option ℕ
  deriving DecidableEq, Repr

/-- `struct lockf **`: the list head of a file, or the `lf_next` of a lock. -/
inductive Link where
  | head (f : ℕ)
  | next (a : ℕ)
  deriving DecidableEq, Repr

/-- The kernel: the cells of type `struct lockf`, their `lf_blkhd` lists, which of them are
    allocated, the list heads of the files, the first address that `malloc` has not handed out,
    `td_wchan` of the threads that sleep on a lock, `p_threads` and `p_pid` of the processes. -/
structure Kern where
  lockf : ℕ → Lockf
  blkhd : ℕ → List ℕ
  live : ℕ → Bool
  head : ℕ → Option ℕ
  brk : ℕ
  wchan : ℕ → Option ℕ
  threads : ℕ → List ℕ
  pPid : ℕ → ℤ

/-- What stops a kernel: `panic`, a null pointer, or a loop without an end. -/
inductive Fault where
  | panic
  | nullDeref
  | cycle
  deriving DecidableEq, Repr

namespace Kern

/-- Assignment to the lock at address `a`. -/
def update (k : Kern) (a : ℕ) (f : Lockf → Lockf) : Kern :=
  { k with lockf := Function.update k.lockf a (f (k.lockf a)) }

/-- Assignment to `lf_next` of the lock at address `a`. -/
def setNext (k : Kern) (a : ℕ) (v : Option ℕ) : Kern := k.update a ({ · with lfNext := v })

/-- Assignment to `lf_start` of the lock at address `a`. -/
def setStart (k : Kern) (a : ℕ) (v : ℤ) : Kern := k.update a ({ · with lfStart := wrap v })

/-- Assignment to `lf_end` of the lock at address `a`. -/
def setEnd (k : Kern) (a : ℕ) (v : ℤ) : Kern := k.update a ({ · with lfEnd := wrap v })

/-- Assignment to `lf_type` of the lock at address `a`. -/
def setType (k : Kern) (a : ℕ) (t : LockType) : Kern := k.update a ({ · with lfType := t })

/-- Assignment through a link. -/
def write (k : Kern) (p : Link) (v : Option ℕ) : Kern :=
  match p with
  | .head f => { k with head := Function.update k.head f v }
  | .next a => k.setNext a v

/-- Assignment to the list of requests blocked on the lock at address `a`. -/
def setBlkhd (k : Kern) (a : ℕ) (l : List ℕ) : Kern :=
  { k with blkhd := Function.update k.blkhd a l }

/-- `malloc` followed by the assignments to the fields of the new lock. -/
def malloc (k : Kern) (x : Lockf) : Kern × ℕ :=
  ({ k with
      lockf := Function.update k.lockf k.brk x
      blkhd := Function.update k.blkhd k.brk []
      live := Function.update k.live k.brk true
      brk := k.brk + 1 }, k.brk)

/-- `free`. -/
def free (k : Kern) (a : ℕ) : Kern := { k with live := Function.update k.live a false }

/-- `wakeup` (`sys/kern/kern_synch.c`): no thread sleeps on `ident` any more. -/
def wakeup (k : Kern) (ident : ℕ) : Kern :=
  { k with wchan := fun td => if k.wchan td = some ident then none else k.wchan td }

end Kern

/-! ## Waiting requests -/

/-- The body of the loop of `lf_wakelock` for one request. -/
def wakeOne (k : Kern) (wakelock : ℕ) : Kern := (k.setNext wakelock none).wakeup wakelock

/-- `lf_wakelock` (lines 745–761). -/
def lfWakelock (k : Kern) (listhead : ℕ) : Kern :=
  (k.blkhd listhead).foldl wakeOne (k.setBlkhd listhead [])

/-- The loop that moves the requests blocked on `overlap` over to `lock` (lines 386–393). -/
def takeWaiters (k : Kern) (overlap lock : ℕ) : Kern :=
  (k.blkhd overlap).foldl (fun k ltmp => k.setNext ltmp (some lock))
    ((k.setBlkhd overlap []).setBlkhd lock (k.blkhd lock ++ k.blkhd overlap))

/-! ## Overlaps -/

/-- `SELF` and `OTHERS`. -/
inductive Search where
  | self
  | others
  deriving DecidableEq, Repr

/-- The cases 1–5 of `lf_findoverlap`. -/
inductive Ovcase where
  | equal
  | contains
  | contained
  | startsBefore
  | endsAfter
  deriving DecidableEq, Repr

/-- Case 0 for an entry `lfStart`, `lfEnd` and a range `start`, `end'` (lines 633–634). -/
def noOverlap (lfStart lfEnd start end' : ℤ) : Prop :=
  (lfEnd ≠ -1 ∧ start > lfEnd) ∨ (end' ≠ -1 ∧ lfStart > end')

instance (lfStart lfEnd start end' : ℤ) : Decidable (noOverlap lfStart lfEnd start end') :=
  inferInstanceAs (Decidable (_ ∨ _))

/-- The tests for the cases 1–5 (lines 645–688); `none` is the `panic`. -/
def overlapCase (lfStart lfEnd start end' : ℤ) : Option Ovcase :=
  if lfStart = start ∧ lfEnd = end' then some .equal
  else if lfStart ≤ start ∧ end' ≠ -1 ∧ (lfEnd ≥ end' ∨ lfEnd = -1) then some .contains
  else if start ≤ lfStart ∧ (end' = -1 ∨ (lfEnd ≠ -1 ∧ end' ≥ lfEnd)) then some .contained
  else if lfStart < start ∧ (lfEnd ≥ start ∨ lfEnd = -1) then some .startsBefore
  else if lfStart > start ∧ end' ≠ -1 ∧ (lfEnd > end' ∨ lfEnd = -1) then some .endsAfter
  else none

/-- What `lf_findoverlap` returns: 0, `*prev` and `*overlap`, or the case, `*prev` and
    `*overlap`. -/
inductive Found where
  | none (prev : Link) (overlap : Option ℕ)
  | case (ovcase : Ovcase) (prev : Link) (overlap : ℕ)
  deriving DecidableEq, Repr

/-- `lf_findoverlap` (lines 588–692). -/
def lfFindoverlap (k : Kern) (lock : Lockf) (type : Search) :
    ℕ → Option ℕ → Link → Except Fault Found
  | 0, _, _ => .error .cycle
  | _ + 1, none, prev => .ok (.none prev none)
  | rounds + 1, some lf, prev =>
    let next := (k.lockf lf).lfNext
    if (type = .self ∧ (k.lockf lf).lfId ≠ lock.lfId) ∨
        (type = .others ∧ (k.lockf lf).lfId = lock.lfId) then
      lfFindoverlap k lock type rounds next (.next lf)
    else if noOverlap (k.lockf lf).lfStart (k.lockf lf).lfEnd lock.lfStart lock.lfEnd then
      if type = .self ∧ lock.lfEnd ≠ -1 ∧ (k.lockf lf).lfStart > lock.lfEnd then
        .ok (.none prev (some lf))
      else lfFindoverlap k lock type rounds next (.next lf)
    else
      match overlapCase (k.lockf lf).lfStart (k.lockf lf).lfEnd lock.lfStart lock.lfEnd with
      | some ovcase => .ok (.case ovcase prev lf)
      | none => .error .panic

/-- The loop of `lf_getblock` (lines 566–577). -/
def getblockLoop (k : Kern) (lock : Lockf) : ℕ → Option ℕ → Link → Except Fault (Option ℕ)
  | 0, _, _ => .error .cycle
  | rounds + 1, lf, prev =>
    match lfFindoverlap k lock .others (k.brk + 1) lf prev with
    | .error e => .error e
    | .ok (.none _ _) => .ok none
    | .ok (.case _ prev overlap) =>
      if lock.lfType = .wrlck ∨ (k.lockf overlap).lfType = .wrlck then .ok (some overlap)
      else getblockLoop k lock rounds (k.lockf overlap).lfNext prev

/-- `lf_getblock` (lines 558–579). -/
def lfGetblock (k : Kern) (lock : Lockf) : Except Fault (Option ℕ) :=
  getblockLoop k lock (k.brk + 1) (k.head lock.lfHead) (.head lock.lfHead)

/-- `lf_split` (lines 698–740). -/
def lfSplit (k : Kern) (lock1 lock2 : ℕ) : Kern :=
  if (k.lockf lock1).lfStart = (k.lockf lock2).lfStart then
    (k.setStart lock1 ((k.lockf lock2).lfEnd + 1)).setNext lock2 (some lock1)
  else if (k.lockf lock1).lfEnd = (k.lockf lock2).lfEnd then
    ((k.setEnd lock1 ((k.lockf lock2).lfStart - 1)).setNext lock2 (k.lockf lock1).lfNext).setNext
      lock1 (some lock2)
  else
    let (k', splitlock) := k.malloc (k.lockf lock1)
    let k' := k'.setStart splitlock ((k.lockf lock2).lfEnd + 1)
    let k' := k'.setEnd lock1 ((k.lockf lock2).lfStart - 1)
    let k' := k'.setNext splitlock (k.lockf lock1).lfNext
    let k' := k'.setNext lock2 (some splitlock)
    k'.setNext lock1 (some lock2)

/-! ## Unlocking -/

/-- The loop of `lf_clearlock` (lines 472–512). -/
def clearlockLoop (unlock : ℕ) : ℕ → Kern → Option ℕ → Link → Except Fault Kern
  | 0, _, _, _ => .error .cycle
  | rounds + 1, k, lf, prev =>
    match lfFindoverlap k (k.lockf unlock) .self (k.brk + 1) lf prev with
    | .error e => .error e
    | .ok (.none _ _) => .ok k
    | .ok (.case ovcase prev overlap) =>
      let k := lfWakelock k overlap
      match ovcase with
      | .equal => .ok ((k.write prev (k.lockf overlap).lfNext).free overlap)
      | .contains =>
        if (k.lockf overlap).lfStart = (k.lockf unlock).lfStart then
          .ok (k.setStart overlap ((k.lockf unlock).lfEnd + 1))
        else
          let k := lfSplit k overlap unlock
          .ok (k.setNext overlap (k.lockf unlock).lfNext)
      | .contained =>
        clearlockLoop unlock rounds ((k.write prev (k.lockf overlap).lfNext).free overlap)
          (k.lockf overlap).lfNext prev
      | .startsBefore =>
        clearlockLoop unlock rounds (k.setEnd overlap ((k.lockf unlock).lfStart - 1))
          (k.lockf overlap).lfNext (.next overlap)
      | .endsAfter => .ok (k.setStart overlap ((k.lockf unlock).lfEnd + 1))

/-- `lf_clearlock` (lines 455–518). -/
def lfClearlock (k : Kern) (unlock : ℕ) : Except Fault Kern :=
  let head := (k.lockf unlock).lfHead
  clearlockLoop unlock (k.brk + 1) k (k.head head) (.head head)

/-! ## Locking -/

/-- `*prev = lock; lock->lf_next = overlap`, if `needtolink`. -/
def linkBefore (k : Kern) (needtolink : Bool) (prev : Link) (lock : ℕ) (overlap : Option ℕ) :
    Kern :=
  if needtolink then (k.write prev (some lock)).setNext lock overlap else k

/-- The loop that adds a lock that nothing blocks (lines 331–439). -/
def setlockLoop (lock : ℕ) : ℕ → Kern → Option ℕ → Link → Bool → Except Fault Kern
  | 0, _, _, _, _ => .error .cycle
  | rounds + 1, k, block, prev, needtolink =>
    match lfFindoverlap k (k.lockf lock) .self (k.brk + 1) block prev with
    | .error e => .error e
    | .ok (.none prev overlap) => .ok (linkBefore k needtolink prev lock overlap)
    | .ok (.case ovcase prev overlap) =>
      let block := (k.lockf overlap).lfNext
      let downgrade := (k.lockf lock).lfType = .rdlck ∧ (k.lockf overlap).lfType = .wrlck
      match ovcase with
      | .equal =>
        let k := if downgrade then lfWakelock k overlap else k
        .ok ((k.setType overlap (k.lockf lock).lfType).free lock)
      | .contains =>
        if (k.lockf overlap).lfType = (k.lockf lock).lfType then .ok (k.free lock)
        else if (k.lockf overlap).lfStart = (k.lockf lock).lfStart then
          let k := (k.write prev (some lock)).setNext lock (some overlap)
          .ok (lfWakelock (k.setStart overlap ((k.lockf lock).lfEnd + 1)) overlap)
        else .ok (lfWakelock (lfSplit k overlap lock) overlap)
      | .contained =>
        let k := if downgrade then lfWakelock k overlap else takeWaiters k overlap lock
        if needtolink then
          let k := k.write prev (some lock)
          let k := k.setNext lock (k.lockf overlap).lfNext
          setlockLoop lock rounds (k.free overlap) block (.next lock) false
        else
          let k := k.write prev (k.lockf overlap).lfNext
          setlockLoop lock rounds (k.free overlap) block prev false
      | .startsBefore =>
        let k := (k.setNext lock (k.lockf overlap).lfNext).setNext overlap (some lock)
        let k := k.setEnd overlap ((k.lockf lock).lfStart - 1)
        setlockLoop lock rounds (lfWakelock k overlap) block (.next lock) false
      | .endsAfter =>
        let k := linkBefore k needtolink prev lock (some overlap)
        .ok (lfWakelock (k.setStart overlap ((k.lockf lock).lfEnd + 1)) overlap)

/-! ## Deadlock detection -/

/-- `maxlockdepth`, which is `MAXDEPTH` (`sys/lockf.h`, line 73). -/
def maxlockdepth : ℕ := 50

/-- The inner loop of the deadlock detection (lines 259–273) for one thread, with what is left of
    the `maxlockdepth` rounds: whether the requester was found, and what is left afterwards. -/
def walkThread (k : Kern) (lock : Lockf) (td : ℕ) : ℕ → Except Fault (Bool × ℕ)
  | 0 => .ok (false, 0)
  | rounds + 1 =>
    match k.wchan td with
    | none => .ok (false, rounds + 1)
    | some wchan =>
      match (k.lockf wchan).lfNext with
      | none => .error .nullDeref
      | some waitblock =>
        if ¬ (k.lockf waitblock).lfFlags.fPosix then .ok (false, rounds)
        else if (k.lockf waitblock).lfId = lock.lfId then .ok (true, rounds)
        else walkThread k lock td rounds

/-- `FOREACH_THREAD_IN_PROC` (lines 258–274). -/
def walkThreads (k : Kern) (lock : Lockf) : List ℕ → ℕ → Except Fault Bool
  | [], _ => .ok false
  | td :: tds, rounds =>
    match walkThread k lock td rounds with
    | .error e => .error e
    | .ok (true, _) => .ok true
    | .ok (false, rounds) => walkThreads k lock tds rounds

/-- The deadlock detection (lines 249–276): `EDEADLK` or not. -/
def deadlock (k : Kern) (lock : Lockf) (block : ℕ) : Except Fault Bool :=
  if lock.lfFlags.fPosix ∧ (k.lockf block).lfFlags.fPosix then
    walkThreads k lock (k.threads (k.lockf block).lfId) maxlockdepth
  else .ok false

/-! ## Setting a lock -/

inductive Errno where
  | EAGAIN
  | EDEADLK
  | EINTR
  | EINVAL
  | EOVERFLOW
  deriving DecidableEq, Repr

/-- How a call leaves the thread: it returns 0, an error or what `F_GETLK` found, or it sleeps on a
    request. -/
inductive Reply where
  | ok
  | error (e : Errno)
  | asleep (lock : ℕ)
  | getlk (block : Option (LockType × ℤ × ℤ × ℤ))
  deriving DecidableEq, Repr

/-- The F_FLOCK case (lines 282–287): the own locks are removed before sleeping. -/
def clearFlock (k : Kern) (lock : ℕ) : Except Fault Kern :=
  if (k.lockf lock).lfFlags.fFlock ∧ (k.lockf lock).lfType = .wrlck then
    match lfClearlock (k.setType lock .unlck) lock with
    | .error e => .error e
    | .ok k => .ok (k.setType lock .wrlck)
  else .ok k

/-- `lf_setlock` (lines 206–447) up to where it returns or sleeps. -/
def lfSetlock (k : Kern) (td lock : ℕ) : Except Fault (Kern × Reply) :=
  match lfGetblock k (k.lockf lock) with
  | .error e => .error e
  | .ok none =>
    let head := (k.lockf lock).lfHead
    match setlockLoop lock (k.brk + 1) k (k.head head) (.head head) true with
    | .error e => .error e
    | .ok k => .ok (k, .ok)
  | .ok (some block) =>
    if ¬ (k.lockf lock).lfFlags.fWait then .ok (k.free lock, .error .EAGAIN)
    else
      match deadlock k (k.lockf lock) block with
      | .error e => .error e
      | .ok true => .ok (k.free lock, .error .EDEADLK)
      | .ok false =>
        match clearFlock k lock with
        | .error e => .error e
        | .ok k =>
          let k := (k.setNext lock (some block)).setBlkhd block (k.blkhd block ++ [lock])
          .ok ({ k with wchan := Function.update k.wchan td (some lock) }, .asleep lock)

/-- The request of a thread that was not woken by `lf_wakelock` leaves the list it is on
    (lines 311–314). -/
def leaveBlkhd (k : Kern) (lock : ℕ) : Kern :=
  match (k.lockf lock).lfNext with
  | some block => (k.setBlkhd block ((k.blkhd block).erase lock)).setNext lock none
  | none => k

/-- `lf_setlock` from the return of `tsleep` on, which returns an error or 0 (lines 303–320). -/
def lfSetlockWoken (k : Kern) (td lock : ℕ) (error : Bool) : Except Fault (Kern × Reply) :=
  let k := leaveBlkhd k lock
  if error then .ok (k.free lock, .error .EINTR) else lfSetlock k td lock

/-! ## The system call -/

inductive Whence where
  | seekSet
  | seekCur
  | seekEnd
  | other
  deriving DecidableEq, Repr

/-- `struct flock` (`sys/fcntl.h`). -/
structure Flock where
  lType : LockType
  lWhence : Whence
  (lStart lLen : OffT)
  lPid : ℤ

inductive AdvOp where
  | setlk
  | unlck
  | getlk
  | other
  deriving DecidableEq, Repr

/-- `struct vop_advlock_args`. -/
structure AdvlockArgs where
  aId : ℕ
  aOp : AdvOp
  aFl : Flock
  aFlags : LockFlags

/-- The conversion of the flock structure into a start and an end (lines 112–148). -/
def flockRange (fl : Flock) (size : ℕ) : Except Errno (ℤ × ℤ) :=
  let range (start : ℤ) : Except Errno (ℤ × ℤ) :=
    if start < 0 then .error .EINVAL
    else if fl.lLen.1 < 0 then
      if start = 0 then .error .EINVAL
      else if start + fl.lLen.1 < 0 then .error .EINVAL
      else .ok (start + fl.lLen.1, start - 1)
    else if fl.lLen.1 = 0 then .ok (start, -1)
    else if fl.lLen.1 - 1 > offMax - start then .error .EOVERFLOW
    else .ok (start, start + (fl.lLen.1 - 1))
  match fl.lWhence with
  | .seekSet => range fl.lStart.1
  | .seekCur => range fl.lStart.1
  | .seekEnd =>
    if size > offMax ∨ (fl.lStart.1 > 0 ∧ size > offMax - fl.lStart.1) then .error .EOVERFLOW
    else range (size + fl.lStart.1)
  | .other => .error .EINVAL

/-- What `lf_getlock` (lines 524–551) reports: `l_type`, `l_start`, `l_len` and `l_pid` of the
    blocking lock, if there is one. -/
def lfGetlock (k : Kern) (lock : Lockf) : Except Fault (Option (LockType × ℤ × ℤ × ℤ)) :=
  match lfGetblock k lock with
  | .error e => .error e
  | .ok none => .ok none
  | .ok (some block) =>
    let b := k.lockf block
    .ok (some (b.lfType, b.lfStart, if b.lfEnd = -1 then 0 else wrap (b.lfEnd - b.lfStart + 1),
      if b.lfFlags.fPosix then k.pPid b.lfId else -1))

/-- The lock structure that `lf_advlock` creates (lines 160–176). -/
def newLock (ap : AdvlockArgs) (f : ℕ) (range : ℤ × ℤ) : Lockf :=
  { lfFlags := ap.aFlags, lfType := ap.aFl.lType, lfStart := range.1, lfEnd := range.2,
    lfId := ap.aId, lfHead := f, lfNext := none }

/-- `lf_advlock` (lines 93–201). -/
def lfAdvlock (k : Kern) (td : ℕ) (ap : AdvlockArgs) (f size : ℕ) : Except Fault (Kern × Reply) :=
  match flockRange ap.aFl size with
  | .error e => .ok (k, .error e)
  | .ok range =>
    if k.head f = none ∧ ap.aOp ≠ .setlk then
      .ok (k, if ap.aOp = .getlk then .getlk none else .ok)
    else
      let (k, lock) := k.malloc (newLock ap f range)
      match ap.aOp with
      | .setlk => lfSetlock k td lock
      | .unlck =>
        match lfClearlock k lock with
        | .error e => .error e
        | .ok k => .ok (k.free lock, .ok)
      | .getlk =>
        match lfGetlock k (k.lockf lock) with
        | .error e => .error e
        | .ok block => .ok (k.free lock, .getlk block)
      | .other => .ok (k.free lock, .error .EINVAL)

/-! ## Threads -/

/-- The kernel with the requests that its threads are inside `tsleep` for. -/
structure Sys where
  k : Kern
  call : ℕ → Option ℕ

/-- A thread that is in no call makes one; a thread whose sleep has ended goes on, with an error or
    not; a signal or a debugger ends the sleep of a thread. -/
inductive Op where
  | advlock (td : ℕ) (ap : AdvlockArgs) (f size : ℕ)
  | woken (td : ℕ) (error : Bool)
  | signal (td : ℕ)

/-- What the thread `td` is inside `tsleep` for after its step. -/
def Sys.after (s : Sys) (td : ℕ) (k : Kern) (r : Reply) : Sys :=
  { k := k
    call := Function.update s.call td (match r with | .asleep lock => some lock | _ => none) }

/-- One step, if it can be made and does not stop the kernel. -/
def Sys.step (s : Sys) : Op → Option (Sys × Reply)
  | .advlock td ap f size =>
    match s.call td, lfAdvlock s.k td ap f size with
    | none, .ok (k, r) => some (s.after td k r, r)
    | _, _ => none
  | .woken td error =>
    match s.call td, s.k.wchan td with
    | some lock, none =>
      match lfSetlockWoken s.k td lock error with
      | .ok (k, r) => some (s.after td k r, r)
      | .error _ => none
    | _, _ => none
  | .signal td =>
    match s.call td with
    | some lock =>
      some ({ s with k := { s.k with wchan := Function.update s.k.wchan td none } }, .asleep lock)
    | none => none

/-- No file has a lock. -/
def Sys.empty (threads : ℕ → List ℕ) (pPid : ℕ → ℤ) : Sys where
  k :=
    { lockf := fun _ => ⟨⟨false, false, false⟩, .unlck, 0, 0, 0, 0, none⟩
      blkhd := fun _ => []
      live := fun _ => false
      head := fun _ => none
      brk := 0
      wchan := fun _ => none
      threads := threads
      pPid := pPid }
  call := fun _ => none

end FreeBSD.KernLockf
