import FreeBSD.Lib.SplitQueue

/-!
# The run queues, `kern/kern_switch.c`

Threads `Td`, KSEs `Ke` and groups of both, `Kg`. A group of a process with `P_SA` has a queue of
its runnable threads, to the first of which its KSEs are assigned; in any other group a thread
keeps its KSE. The KSEs of assigned threads are on one run queue, `runq`, of `sched_4bsd.c`. A
failed assertion and an access through `NULL` are `none`. `ke_flags` and `kg_runq_kses` are written
and not read here, and left out.
-/

namespace FreeBSD.KernSwitch

open Lib SplitQueue

/-- `td_state`. -/
inductive TdState
  | inactive
  | inhibited
  | canRun
  | runq
  | running
  deriving DecidableEq

/-- `ke_state`. -/
inductive KeState
  | unused
  | idle
  | onrunq
  | unqueued
  | thread
  deriving DecidableEq

/-- What does not change: the groups, and which of them belong to a process with `P_SA`. -/
structure Groups (Td Ke Kg : Type) where
  tdKsegrp : Td → Kg
  keKsegrp : Ke → Kg
  /-- `p_flag & P_SA`. -/
  sa : Kg → Bool

structure Sys (Td Ke Kg : Type) where
  tdState : Td → TdState
  tdPriority : Td → ℕ
  tdKse : Td → Option Ke
  keThread : Ke → Option Td
  keState : Ke → KeState
  keRqindex : Ke → ℕ
  /-- The KSEs on the run queue, in the order of their arrival. -/
  runq : List Ke
  kgRunq : Kg → List Td
  kgLastAssigned : Kg → Option Td
  kgRunnable : Kg → ℤ
  kgIq : Kg → List Ke
  kgIdleKses : Kg → ℤ

variable {Td Ke Kg : Type} [DecidableEq Td] [DecidableEq Ke] [DecidableEq Kg]

namespace Sys

def setState (s : Sys Td Ke Kg) (td : Td) (state : TdState) : Sys Td Ke Kg :=
  { s with tdState := Function.update s.tdState td state }

def setPriority (s : Sys Td Ke Kg) (td : Td) (pri : ℕ) : Sys Td Ke Kg :=
  { s with tdPriority := Function.update s.tdPriority td pri }

/-- `td->td_kse = ke; ke->ke_thread = td`. -/
def join (s : Sys Td Ke Kg) (td : Td) (ke : Ke) : Sys Td Ke Kg :=
  { s with
    tdKse := Function.update s.tdKse td (some ke)
    keThread := Function.update s.keThread ke (some td) }

/-- `td->td_kse = NULL; ke->ke_thread = NULL`. -/
def part (s : Sys Td Ke Kg) (td : Td) (ke : Ke) : Sys Td Ke Kg :=
  { s with
    tdKse := Function.update s.tdKse td none
    keThread := Function.update s.keThread ke none }

def setLast (s : Sys Td Ke Kg) (kg : Kg) (td : Option Td) : Sys Td Ke Kg :=
  { s with kgLastAssigned := Function.update s.kgLastAssigned kg td }

def setRunq (s : Sys Td Ke Kg) (kg : Kg) (tds : List Td) : Sys Td Ke Kg :=
  { s with kgRunq := Function.update s.kgRunq kg tds }

def addRunnable (s : Sys Td Ke Kg) (kg : Kg) (n : ℤ) : Sys Td Ke Kg :=
  { s with kgRunnable := Function.update s.kgRunnable kg (s.kgRunnable kg + n) }

/-- The last assigned thread is the one before `td`, if it was `td`. -/
def stepBack (s : Sys Td Ke Kg) (kg : Kg) (td : Td) : Sys Td Ke Kg :=
  if s.kgLastAssigned kg = some td then s.setLast kg (prevIn td (s.kgRunq kg)) else s

end Sys

/-- `RQ_PPQ`. -/
def rqPpq : ℕ := 4

/-- `sched_add` (`sched_4bsd.c`, lines 624–643) with `runq_add` (lines 529–547). -/
def schedAdd (s : Sys Td Ke Kg) (td : Td) : Option (Sys Td Ke Kg) := do
  let ke ← s.tdKse td
  let td ← s.keThread ke
  guard (s.tdKse td ≠ none)
  guard (s.keState ke ≠ .onrunq)
  some { s with
    keState := Function.update s.keState ke .onrunq
    keRqindex := Function.update s.keRqindex ke (s.tdPriority td / rqPpq)
    runq := s.runq ++ [ke] }

/-- `sched_rem` (`sched_4bsd.c`, lines 645–659). -/
def schedRem (s : Sys Td Ke Kg) (td : Td) : Option (Sys Td Ke Kg) := do
  let ke ← s.tdKse td
  guard (s.keState ke = .onrunq)
  some { s with keState := Function.update s.keState ke .thread, runq := s.runq.erase ke }

/-- `runq_choose` (lines 570–592): the first of the KSEs with the lowest index. -/
def runqChoose (s : Sys Td Ke Kg) : Option Ke :=
  s.runq.find? fun ke => s.runq.all fun ke' => s.keRqindex ke ≤ s.keRqindex ke'

/-- `sched_choose` (`sched_4bsd.c`, lines 661–681). -/
def schedChoose (s : Sys Td Ke Kg) : Option (Sys Td Ke Kg × Option Ke) :=
  match runqChoose s with
  | none => some (s, none)
  | some ke => do
    let s := { s with keState := Function.update s.keState ke .thread, runq := s.runq.erase ke }
    let td ← s.keThread ke
    guard (s.tdKse td ≠ none)
    some (s, some ke)

section Functions

variable (g : Groups Td Ke Kg)

/-- The KSE that `setrunqueue` has to give, and the last assigned thread (lines 347–376): a free
one, that of the last assigned thread if it has a worse priority, or the thread's own. -/
def takeKse (s : Sys Td Ke Kg) (td : Td) : Option (Sys Td Ke Kg × Option Ke × Option Td) :=
  let kg := g.tdKsegrp td
  let tda := s.kgLastAssigned kg
  match s.tdKse td with
  | none =>
    if s.kgIdleKses kg ≠ 0 then do
      let ke ← (s.kgIq kg).head?
      some ({ s with
        kgIq := Function.update s.kgIq kg (s.kgIq kg).tail
        keState := Function.update s.keState ke .thread
        kgIdleKses := Function.update s.kgIdleKses kg (s.kgIdleKses kg - 1) }, some ke, tda)
    else
      match tda with
      | some a =>
        if s.tdPriority a > s.tdPriority td then do
          let ke ← s.tdKse a
          let s ← schedRem s a
          let tda := prevIn a (s.kgRunq kg)
          some ((s.part a ke).setLast kg tda, some ke, tda)
        else some (s, none, tda)
      | none => some (s, none, none)
  | some ke => some (s.part td ke, some ke, tda)

/-- The KSE goes to the thread that is to have it (lines 397–422). -/
def giveKse (s : Sys Td Ke Kg) (td : Td) (ke : Ke) (tda : Option Td) : Option (Sys Td Ke Kg) :=
  let kg := g.tdKsegrp td
  match tda with
  | none => do
    let td2 ← (s.kgRunq kg).head?
    guard (s.tdKse td2 = none)
    schedAdd ((s.join td2 ke).setLast kg (some td2)) td2
  | some a =>
    if s.tdPriority a > s.tdPriority td then schedAdd (s.join td ke) td
    else do
      let td2 ← nextIn a (s.kgRunq kg)
      schedAdd ((s.setLast kg (some td2)).join td2 ke) td2

/-- `setrunqueue` (lines 319–424). -/
def setrunqueue (s : Sys Td Ke Kg) (td : Td) : Option (Sys Td Ke Kg) := do
  guard (s.tdState td = .canRun ∨ s.tdState td = .running)
  let kg := g.tdKsegrp td
  let s := (s.setState td .runq).addRunnable kg 1
  if g.sa kg then do
    let (s, ke, tda) ← takeKse g s td
    let s := s.setRunq kg (insert s.tdPriority td (s.kgRunq kg))
    match ke with
    | some ke => giveKse g s td ke tda
    | none => some s
  else schedAdd s td

/-- `adjustrunqueue` (lines 279–317). -/
def adjustrunqueue (s : Sys Td Ke Kg) (td : Td) (newpri : ℕ) : Option (Sys Td Ke Kg) := do
  guard (s.tdState td = .runq)
  let kg := g.tdKsegrp td
  if g.sa kg then do
    let s := (s.addRunnable kg (-1)).setState td .canRun
    let s ← if s.tdKse td ≠ none then schedRem (s.stepBack kg td) td else some s
    let s := (s.setRunq kg ((s.kgRunq kg).erase td)).setPriority td newpri
    setrunqueue g s td
  else do
    let ke ← s.tdKse td
    let s := s.setPriority td newpri
    if s.keRqindex ke ≠ newpri / rqPpq then do
      let s ← schedRem s td
      schedAdd s td
    else some s

/-- `if (original) original->td_kse = NULL` (lines 195–196). -/
def unbind (s : Sys Td Ke Kg) : Option Td → Sys Td Ke Kg
  | some original => { s with tdKse := Function.update s.tdKse original none }
  | none => s

/-- The first thread without a KSE (lines 201–204). -/
def firstUnassigned (s : Sys Td Ke Kg) (kg : Kg) : Option Td :=
  match s.kgLastAssigned kg with
  | some td => nextIn td (s.kgRunq kg)
  | none => (s.kgRunq kg).head?

/-- The KSE goes to the idle queue (lines 218–221). -/
def idled (s : Sys Td Ke Kg) (kg : Kg) (ke : Ke) : Sys Td Ke Kg :=
  { s with
    keState := Function.update s.keState ke .idle
    keThread := Function.update s.keThread ke none
    kgIq := Function.update s.kgIq kg (s.kgIq kg ++ [ke])
    kgIdleKses := Function.update s.kgIdleKses kg (s.kgIdleKses kg + 1) }

/-- `kse_reassign` (lines 182–224). -/
def kseReassign (s : Sys Td Ke Kg) (ke : Ke) : Option (Sys Td Ke Kg) := do
  let original := s.keThread ke
  guard (original.all fun td => s.tdState td = .inhibited)
  let kg := g.keKsegrp ke
  let s := unbind s original
  match firstUnassigned s kg with
  | some td => schedAdd ((s.setLast kg (some td)).join td ke) td
  | none => some (idled s kg ke)

/-- The processor that calls `choosethread`. -/
structure Cpu (Td : Type) where
  idlethread : Td
  /-- `smp_active == 0 && PCPU_GET(cpuid) != 0`. -/
  stopped : Bool
  /-- `panicstr`. -/
  panicstr : Bool
  /-- `p_flag & P_SYSTEM` or `td_flags & TDF_INPANIC`. -/
  inPanic : Td → Bool

/-- The thread of the chosen KSE leaves the queue of its group (lines 140–150). -/
def takeThread (s : Sys Td Ke Kg) (ke : Ke) : Option (Sys Td Ke Kg × Td) := do
  let td ← s.keThread ke
  guard (s.tdKse td = some ke)
  let kg := g.keKsegrp ke
  let s :=
    if g.sa (g.tdKsegrp td) then (s.stepBack kg td).setRunq kg ((s.kgRunq kg).erase td) else s
  some (s.addRunnable kg (-1), td)

/-- The chosen thread, or the idle one (lines 138–158). -/
def nextThread (c : Cpu Td) (s : Sys Td Ke Kg) : Option (Sys Td Ke Kg × Td) := do
  let (s, ke) ← schedChoose s
  match ke with
  | some ke => takeThread g s ke
  | none => some (s, c.idlethread)

/-- `choosethread` from `retry` on (lines 137–175). -/
def chooseLoop (c : Cpu Td) : ℕ → Sys Td Ke Kg → Option (Sys Td Ke Kg × Td)
  | 0, _ => none
  | fuel + 1, s => do
    let (s, td) ← nextThread g c s
    if c.panicstr ∧ ¬ c.inPanic td then chooseLoop c fuel (s.setState td .canRun)
    else some (s.setState td .running, td)

/-- `choosethread` (lines 120–176). -/
def choosethread (c : Cpu Td) (fuel : ℕ) (s : Sys Td Ke Kg) : Option (Sys Td Ke Kg × Td) :=
  if c.stopped then some (s.setState c.idlethread .running, c.idlethread)
  else chooseLoop g c fuel s

end Functions

/-! ## What may happen, in any order -/

inductive Event (Td Ke : Type)
  | setrunqueue (td : Td)
  | choosethread (c : Cpu Td)
  | kseReassign (ke : Ke)
  | adjustrunqueue (td : Td) (newpri : ℕ)
  /-- A thread on no run queue goes to sleep, is woken up or goes away. -/
  | mark (td : Td) (state : TdState)
  /-- A thread on no run queue gets another priority. -/
  | prio (td : Td) (pri : ℕ)
  /-- A thread that exits leaves its KSE (`thread_exit`, lines 1279–1294 of `kern_thread.c`). -/
  | leave (td : Td) (ke : Ke)

variable (g : Groups Td Ke Kg)

/-- One event; `choosethread` goes back at most once for every KSE on the run queue. -/
def step (s : Sys Td Ke Kg) : Event Td Ke → Option (Sys Td Ke Kg × Unit)
  | .setrunqueue td => (setrunqueue g s td).map (·, ())
  | .choosethread c => (choosethread g c (s.runq.length + 1) s).map fun p => (p.1, ())
  | .kseReassign ke => (kseReassign g s ke).map (·, ())
  | .adjustrunqueue td newpri => (adjustrunqueue g s td newpri).map (·, ())
  | .mark td state => some (s.setState td state, ())
  | .prio td pri => some (s.setPriority td pri, ())
  | .leave td ke =>
    some ({ s.part td ke with keState := Function.update s.keState ke .unqueued }, ())

/-- The calls are made under their assertions: `setrunqueue` of a thread that can run or is
running, `adjustrunqueue` of one on the run queue, `kse_reassign` of a surplus KSE, one that is not
idle and whose thread, if any, is inhibited. A thread outside `P_SA` has its KSE, and an idle thread
is on no run queue and may run in a panic. -/
def Allowed (s : Sys Td Ke Kg) : Event Td Ke → Prop
  | .setrunqueue td =>
    (s.tdState td = .canRun ∨ s.tdState td = .running) ∧
      (g.sa (g.tdKsegrp td) = false → s.tdKse td ≠ none)
  | .choosethread c =>
    s.tdState c.idlethread ≠ .runq ∧ c.inPanic c.idlethread = true
  | .kseReassign ke =>
    g.sa (g.keKsegrp ke) = true ∧ s.keState ke ≠ .idle ∧
      ∀ td, s.keThread ke = some td → s.tdState td = .inhibited
  | .adjustrunqueue td _ => s.tdState td = .runq
  | .mark td state => s.tdState td ≠ .runq ∧ state ≠ .runq
  | .prio td _ => s.tdState td ≠ .runq
  | .leave td ke => s.tdState td ≠ .runq ∧ s.tdKse td = some ke

end FreeBSD.KernSwitch
