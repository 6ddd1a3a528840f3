import FreeBSD.Lib.Runs
import FreeBSD.Lib.Cursor

/-!
# The callout wheel, `kern/kern_timeout.c`

A pending callout is on the queue of its bucket, `callwheel[c_time & callwheelmask]`. `softclock`
goes through the bucket of each tick and calls the handlers of the callouts that are due. It holds
`callout_lock`, except around a handler and when it gives interrupts a chance after
`MAX_SOFTCLOCK_STEPS`; there `nextsoftcheck` is where it goes on, and anything else may run.

`softclock` is a machine that takes one turn of its loops at a time. What the others do is a step
that is possible while `softclock` does not hold the lock: `hardclock`, `timeout`, `untimeout`,
`callout_reset` and `callout_stop`, from a handler or from elsewhere. `ticks`, `softticks` and
`c_time` are 32-bit integers that wrap; a pointer to a function or to its argument is a number, with
`0` for `NULL`.

Every time a callout is put on the wheel is an arming and has a number. The history counts the
armings and the passes and keeps what became of each; no function reads it.
-/

namespace FreeBSD.KernTimeout

open Lib

/-- A callout: one of the table that `timeout` takes from, or one that a client allocates. -/
inductive Cid
  | table (i : ℕ)
  | client (i : ℕ)
  deriving DecidableEq

/-- `c_flags` (sys/callout.h:61-64). -/
structure Flags where
  localAlloc : Bool
  active : Bool
  pending : Bool
  mpsafe : Bool
  deriving DecidableEq

/-- `struct callout` (sys/callout.h:48-57), without the links. -/
structure Callout where
  c_time : BitVec 32
  c_arg : ℕ
  c_func : ℕ
  c_flags : Flags
  deriving DecidableEq

/-- A handler that `softclock` calls, with the callout and the arming it is called for. -/
structure Call where
  c : Cid
  c_func : ℕ
  c_arg : ℕ
  c_flags : Flags
  arming : ℕ
  pass : ℕ
  deriving DecidableEq

/-- Where `softclock` is. In `test` and `scan` it holds `callout_lock`. -/
inductive Soft
  /-- It does not run. -/
  | idle
  /-- At the test of the outer loop. -/
  | test (steps : ℕ)
  /-- At the test of the inner loop. -/
  | scan (curticks : BitVec 32) (c : Option Cid) (steps : ℕ)
  /-- It gives interrupts a chance. -/
  | chance (curticks : BitVec 32)
  /-- It has dropped the lock to call a handler: it may have to wait for `Giant`. -/
  | dispatched (curticks : BitVec 32) (call : Call)
  /-- In a handler. -/
  | handler (curticks : BitVec 32) (call : Call)
  deriving DecidableEq

/-- An arming: what is called when, how many passes there were before, and the tick that it is due
    at, in a count that does not wrap. -/
structure Arming where
  c : Cid
  ftn : ℕ
  arg : ℕ
  c_time : BitVec 32
  passes : ℕ
  due : ℕ
  deriving DecidableEq

/-- What happened. -/
structure Hist where
  /-- How many callouts were armed. -/
  armed : ℕ
  arming : ℕ → Arming
  /-- The last arming of a callout. -/
  last : Cid → ℕ
  /-- The armings for which `callout_stop` returned 1. -/
  stopped : List ℕ
  /-- The armings that `softclock` took off the wheel. -/
  taken : List ℕ
  called : List Call
  /-- How often `ticks` and `softticks` were incremented. -/
  hardclocks : ℕ
  passes : ℕ
  /-- The pass that `softclock` scans a bucket for. -/
  pass : ℕ

structure State where
  callout : Cid → Callout
  callfree : List Cid
  callwheel : BitVec 32 → List Cid
  callwheelmask : BitVec 32
  ticks : BitVec 32
  softticks : BitVec 32
  nextsoftcheck : Option Cid
  soft : Soft
  hist : Hist

namespace State

variable (s : State)

/-- `&callwheel[t & callwheelmask]`. -/
def bucket (t : BitVec 32) : BitVec 32 := t &&& s.callwheelmask

def setCallout (c : Cid) (x : Callout) : State :=
  { s with callout := Function.update s.callout c x }

/-- `TAILQ_REMOVE` from a bucket. -/
def remove (b : BitVec 32) (c : Cid) : State :=
  { s with callwheel := Function.update s.callwheel b ((s.callwheel b).erase c) }

/-- `TAILQ_INSERT_TAIL` to a bucket. -/
def insertTail (b : BitVec 32) (c : Cid) : State :=
  { s with callwheel := Function.update s.callwheel b (s.callwheel b ++ [c]) }

/-- `SLIST_INSERT_HEAD(&callfree, c)`. -/
def free (c : Cid) : State := { s with callfree := c :: s.callfree }

def stopped (n : ℕ) : State := { s with hist := { s.hist with stopped := n :: s.hist.stopped } }

def arm (c : Cid) (ftn arg : ℕ) (c_time : BitVec 32) (due : ℕ) : State :=
  { s with hist := { s.hist with
      armed := s.hist.armed + 1
      arming := Function.update s.hist.arming s.hist.armed
        ⟨c, ftn, arg, c_time, s.hist.passes, due⟩
      last := Function.update s.hist.last c s.hist.armed } }

end State

/-! ## Functions -/

/-- `callout_stop` (lines 363-392). -/
def calloutStop (s : State) (c : Cid) : ℕ × State :=
  let x := s.callout c
  if x.c_flags.pending = false then
    (0, s.setCallout c { x with c_flags := { x.c_flags with active := false } })
  else
    let b := s.bucket x.c_time
    let s := { s with
      nextsoftcheck :=
        if s.nextsoftcheck = some c then after (s.callwheel b) c else s.nextsoftcheck }
    let s := s.remove b c
    let s := s.setCallout c { x with
      c_flags := { x.c_flags with active := false, pending := false }
      c_func := 0 }
    let s := if x.c_flags.localAlloc then s.free c else s
    (1, s.stopped (s.hist.last c))

/-- `callout_reset` (lines 336-361). -/
def calloutReset (s : State) (c : Cid) (to_ticks : BitVec 32) (ftn arg : ℕ) : State :=
  let s := if (s.callout c).c_flags.pending then (calloutStop s c).2 else s
  let to_ticks := if to_ticks.toInt ≤ 0 then 1 else to_ticks
  let c_time := s.ticks + to_ticks
  let s := s.setCallout c {
    c_time
    c_arg := arg
    c_func := ftn
    c_flags := { (s.callout c).c_flags with active := true, pending := true } }
  (s.insertTail (s.bucket c_time) c).arm c ftn arg c_time (s.hist.hardclocks + to_ticks.toNat)

/-- `timeout` (lines 270-294); `none` is the panic. -/
def timeout (s : State) (ftn arg : ℕ) (to_ticks : BitVec 32) : Option (Cid × State) :=
  match s.callfree with
  | [] => none
  | new :: callfree => some (new, calloutReset { s with callfree } new to_ticks ftn arg)

/-- `untimeout` (lines 296-314). -/
def untimeout (s : State) (ftn arg : ℕ) : Option Cid → State
  | none => s
  | some c =>
    if (s.callout c).c_func = ftn ∧ (s.callout c).c_arg = arg then (calloutStop s c).2 else s

/-- What `hardclock` does with the wheel (kern_clock.c:239-245). -/
def hardclock (s : State) : State :=
  let s := { s with
    ticks := s.ticks + 1
    hist := { s.hist with hardclocks := s.hist.hardclocks + 1 } }
  if s.callwheel (s.bucket s.ticks) ≠ [] then s
  else if s.softticks + 1 = s.ticks then
    { s with
      softticks := s.softticks + 1
      hist := { s.hist with passes := s.hist.passes + 1 } }
  else s

def MAX_SOFTCLOCK_STEPS : ℕ := 100

/-- The callout `c` is due: it is taken off the wheel (lines 195-210). -/
def dispatch (s : State) (curticks : BitVec 32) (c : Cid) : State :=
  let x := s.callout c
  let b := s.bucket curticks
  let s := { s with nextsoftcheck := after (s.callwheel b) c }
  let s := s.remove b c
  let call : Call := {
    c
    c_func := x.c_func
    c_arg := x.c_arg
    c_flags := x.c_flags
    arming := s.hist.last c
    pass := s.hist.pass }
  let s :=
    if x.c_flags.localAlloc then
      (s.setCallout c { x with c_func := 0, c_flags := ⟨true, false, false, false⟩ }).free c
    else s.setCallout c { x with c_func := 0, c_flags := { x.c_flags with pending := false } }
  { s with
    soft := .dispatched curticks call
    hist := { s.hist with taken := call.arming :: s.hist.taken } }

/-- One turn of `softclock` (lines 147-252). -/
def softclock (s : State) : State :=
  match s.soft with
  | .idle => { s with soft := .test 0 }
  | .test steps =>
    if s.softticks ≠ s.ticks then
      let curticks := s.softticks + 1
      { s with
        softticks := curticks
        soft := .scan curticks (s.callwheel (s.bucket curticks)).head? steps
        hist := { s.hist with passes := s.hist.passes + 1, pass := s.hist.passes + 1 } }
    else { s with nextsoftcheck := none, soft := .idle }
  | .scan _ none steps => { s with soft := .test steps }
  | .scan curticks (some c) steps =>
    if (s.callout c).c_time ≠ curticks then
      let c := after (s.callwheel (s.bucket curticks)) c
      if steps + 1 ≥ MAX_SOFTCLOCK_STEPS then
        { s with nextsoftcheck := c, soft := .chance curticks }
      else { s with soft := .scan curticks c (steps + 1) }
    else dispatch s curticks c
  | .chance curticks => { s with soft := .scan curticks s.nextsoftcheck 0 }
  | .dispatched curticks call =>
    { s with
      soft := .handler curticks call
      hist := { s.hist with called := call :: s.hist.called } }
  | .handler curticks _ => { s with soft := .scan curticks s.nextsoftcheck 0 }

/-! ## Machine -/

/-- `softclock` holds `callout_lock`. -/
def Soft.locked : Soft → Bool
  | .test _ => true
  | .scan _ _ _ => true
  | _ => false

inductive Op
  | softclock
  | hardclock
  | calloutReset (c : Cid) (to_ticks : BitVec 32) (ftn arg : ℕ)
  | calloutStop (c : Cid)
  | timeout (ftn arg : ℕ) (to_ticks : BitVec 32)
  | untimeout (ftn arg : ℕ) (handle : Option Cid)
  deriving DecidableEq

inductive Ret
  | void
  | int (n : ℕ)
  | handle (c : Cid)
  deriving DecidableEq

/-- What an operation does in a state in which the lock is free. -/
def runOp (s : State) : Op → Option (State × Ret)
  | .softclock => some (softclock s, .void)
  | .hardclock => some (hardclock s, .void)
  | .calloutReset c to_ticks ftn arg => some (calloutReset s c to_ticks ftn arg, .void)
  | .calloutStop c => some ((calloutStop s c).2, .int (calloutStop s c).1)
  | .timeout ftn arg to_ticks =>
    match timeout s ftn arg to_ticks with
    | some (c, s) => some (s, .handle c)
    | none => none
  | .untimeout ftn arg handle => some (untimeout s ftn arg handle, .void)

def step (s : State) (op : Op) : Option (State × Ret) :=
  if op = .softclock then some (softclock s, .void)
  else if s.soft.locked then none
  else runOp s op

/-- After `kern_timeout_callwheel_init` (lines 108-128), with the callouts of the clients as
    `callout_init` leaves them. -/
def init (ncallout : ℕ) (callwheelmask : BitVec 32) (mpsafe : ℕ → Bool) : State where
  callout
    | .table _ => ⟨0, 0, 0, ⟨true, false, false, false⟩⟩
    | .client i => ⟨0, 0, 0, ⟨false, false, false, mpsafe i⟩⟩
  callfree := ((List.range ncallout).map .table).reverse
  callwheel _ := []
  callwheelmask
  ticks := 0
  softticks := 0
  nextsoftcheck := none
  soft := .idle
  hist := ⟨0, fun _ => ⟨.table 0, 0, 0, 0, 0, 0⟩, fun _ => 0, [], [], [], 0, 0, 0⟩

end FreeBSD.KernTimeout
