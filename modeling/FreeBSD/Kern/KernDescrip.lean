import Mathlib.Tactic
import FreeBSD.Lib.Runs

/-!
# Descriptor tables, `kern/kern_descrip.c`

Threads call `falloc`, `do_dup`, `close` and `fdcopy` on tables that they may share. A step is what
a thread does between two releases of the lock of the table, so a call takes several steps where
`fdalloc` or `fdcopy` unlock the table to allocate or to free memory. Allocations succeed.

A table is an array of `fd_nfiles` entries: the model has a function that is `none` from there on.
`fd_knlistsize` is `none` for -1. The reference counts of the files, `fd_holdleaderscount` and what
`closef` does with a file are no part of it. `kqueue` is `falloc` and then two more steps: the file
becomes a kqueue, and `fd_knlistsize` is set.
-/

namespace FreeBSD.KernDescrip

/-- A `struct file`, by its address. -/
abbrev Fp := ℕ

/-- `UF_EXCLOSE` (sys/filedesc.h). -/
def ufExclose : BitVec 8 := 0x01

/-- `NDFILE` and `NDEXTENT` (sys/filedesc.h:58-59). -/
def ndfile : ℕ := 20
def ndextent : ℕ := 50

/-- `struct filedesc` (sys/filedesc.h:62-80), the fields of the table. -/
structure Filedesc where
  fd_ofiles : ℕ → Option Fp
  fd_ofileflags : ℕ → BitVec 8
  fd_nfiles : ℕ
  fd_lastfile : ℕ
  fd_freefile : ℕ
  fd_knlistsize : Option ℕ

/-- `fdinit` (lines 1253-1280). -/
def fdinit : Filedesc := ⟨fun _ => none, fun _ => 0, ndfile, 0, 0, none⟩

def Filedesc.setFile (fdp : Filedesc) (fd : ℕ) (fp : Option Fp) : Filedesc :=
  { fdp with fd_ofiles := Function.update fdp.fd_ofiles fd fp }

def Filedesc.setFlags (fdp : Filedesc) (fd : ℕ) (f : BitVec 8) : Filedesc :=
  { fdp with fd_ofileflags := Function.update fdp.fd_ofileflags fd f }

/-! ## `fdalloc` -/

/-- What a search of the table comes to. -/
inductive Scan
  | found (fdp : Filedesc) (i : ℕ)
  | emfile
  | expand (nfiles : ℕ)

/-- `while (nfiles < want) nfiles <<= 1` (lines 1091-1092); `want` turns are enough. -/
def doubled (want : ℕ) : ℕ → ℕ → ℕ
  | 0, nfiles => nfiles
  | fuel + 1, nfiles => if nfiles < want then doubled want fuel (2 * nfiles) else nfiles

/-- The size of a larger table (lines 1087-1092). -/
def expandSize (fdp : Filedesc) (want : ℕ) : ℕ :=
  doubled want want (if fdp.fd_nfiles < ndextent then ndextent else 2 * fdp.fd_nfiles)

/-- The descriptor that is found (lines 1072-1076). -/
def reserve (fdp : Filedesc) (want i : ℕ) : Filedesc :=
  { fdp.setFlags i 0 with
    fd_lastfile := if fdp.fd_lastfile < i then i else fdp.fd_lastfile
    fd_freefile := if want ≤ fdp.fd_freefile then i else fdp.fd_freefile }

/-- `fdalloc` with the lock, from the top of its loop (lines 1068-1092). -/
def fdallocScan (fdp : Filedesc) (lim want : ℕ) : Scan :=
  let last := min fdp.fd_nfiles lim
  let start := max want fdp.fd_freefile
  match (List.range' start (last - start)).find? fun i => (fdp.fd_ofiles i).isNone with
  | some i => .found (reserve fdp want i) i
  | none => if lim ≤ max start last then .emfile else .expand (expandSize fdp want)

/-- The larger table takes the place of the old one (lines 1107-1125). -/
def expanded (fdp : Filedesc) (nfiles : ℕ) : Filedesc :=
  { fdp with
    fd_ofiles := fun i => if i < fdp.fd_nfiles then fdp.fd_ofiles i else none
    fd_ofileflags := fun i => if i < fdp.fd_nfiles then fdp.fd_ofileflags i else 0
    fd_nfiles := nfiles }

/-! ## The callers of `fdalloc` -/

/-- What a thread is in: `falloc` with its new file, or `do_dup` with the file that it holds. -/
inductive Caller
  | falloc (fp : Fp)
  | dup (fixed : Bool) (old new : ℕ) (fp : Fp)
  deriving DecidableEq

/-- The descriptor that `fdalloc` is called with. -/
def Caller.want : Caller → ℕ
  | .falloc _ => 0
  | .dup _ _ new _ => new

/-- What a step answers. -/
inductive Answer
  | running
  | fd (fd : ℕ)
  | ebadf
  | emfile
  | closed
  | child (t : ℕ)
  deriving DecidableEq

/-- `while (fd_lastfile > 0 && fd_ofiles[fd_lastfile] == NULL) fd_lastfile--`. -/
def trimLast (ofiles : ℕ → Option Fp) : ℕ → ℕ
  | 0 => 0
  | n + 1 => if ofiles (n + 1) = none then trimLast ofiles n else n + 1

def Filedesc.trim (fdp : Filedesc) : Filedesc :=
  { fdp with fd_lastfile := trimLast fdp.fd_ofiles fdp.fd_lastfile }

def Filedesc.lowerFree (fdp : Filedesc) (fd : ℕ) : Filedesc :=
  if fd < fdp.fd_freefile then { fdp with fd_freefile := fd } else fdp

/-- `do_dup` from where it has its descriptor (lines 507-551). -/
def dupFinish (fdp : Filedesc) (old new : ℕ) (fp : Fp) : Filedesc × Answer :=
  if fdp.fd_ofiles old ≠ some fp then
    if fdp.fd_ofiles new = none then ((fdp.lowerFree new).trim, .ebadf) else (fdp, .ebadf)
  else
    let fdp := fdp.setFile new (some fp)
    let fdp := fdp.setFlags new (fdp.fd_ofileflags old &&& ~~~ufExclose)
    ({ fdp with fd_lastfile := if fdp.fd_lastfile < new then new else fdp.fd_lastfile }, .fd new)

/-- The caller goes on with the descriptor `i` (lines 1223-1224, 499-551). -/
def Caller.finish (fdp : Filedesc) (i : ℕ) : Caller → Filedesc × Answer
  | .falloc fp => (fdp.setFile i (some fp), .fd i)
  | .dup fixed old new fp => dupFinish fdp old (if fixed then new else i) fp

/-! ## `fdcopy` -/

/-- What `fdcopy` keeps of the structure that it copies at first (line 1318). -/
structure Head where
  fd_freefile : ℕ
  fd_knlistsize : Option ℕ
  deriving DecidableEq

/-- `while (i > 2 * NDEXTENT && i > newfdp->fd_lastfile * 2) i /= 2` (lines 1351-1353); `i` turns
    are enough. -/
def halved (lastfile : ℕ) : ℕ → ℕ → ℕ
  | 0, i => i
  | fuel + 1, i => if 2 * ndextent < i ∧ lastfile * 2 < i then halved lastfile fuel (i / 2) else i

/-- The size of the table of the copy. -/
def copySize (fdp : Filedesc) : ℕ := halved fdp.fd_lastfile fdp.fd_nfiles fdp.fd_nfiles

/-- A turn of the loop that takes kqueues out of the copy (lines 1387-1393). -/
def dropKqueue (kqueue : Fp → Bool) (fdp : Filedesc) (i : ℕ) : Filedesc :=
  let fdp := if (fdp.fd_ofiles i).any kqueue then (fdp.setFile i none).lowerFree i else fdp
  if fdp.fd_ofiles i = none ∧ i = fdp.fd_lastfile ∧ 0 < i then
    { fdp with fd_lastfile := fdp.fd_lastfile - 1 }
  else fdp

/-- The loop from the entry `i` down (lines 1385-1394). -/
def dropKqueues (kqueue : Fp → Bool) (fdp : Filedesc) : ℕ → Filedesc
  | 0 => dropKqueue kqueue fdp 0
  | i + 1 => dropKqueues kqueue (dropKqueue kqueue fdp (i + 1)) i

/-- The copy in a table of `i` entries (lines 1377-1379). -/
def copyTable (fdp : Filedesc) (head : Head) (i : ℕ) : Filedesc where
  fd_ofiles := fun k => if k < i then fdp.fd_ofiles k else none
  fd_ofileflags := fun k => if k < i then fdp.fd_ofileflags k else 0
  fd_nfiles := i
  fd_lastfile := fdp.fd_lastfile
  fd_freefile := head.fd_freefile
  fd_knlistsize := head.fd_knlistsize

/-- The end of `fdcopy` (lines 1377-1399). -/
def fdcopyFinish (kqueue : Fp → Bool) (fdp : Filedesc) (head : Head) (i : ℕ) : Filedesc :=
  let new := copyTable fdp head i
  if new.fd_knlistsize ≠ none then
    { dropKqueues kqueue new new.fd_lastfile with fd_knlistsize := none }
  else new

/-! ## The threads -/

/-- Where a thread is, without the lock of a table `t`. -/
inductive Pc
  | idle
  /-- In `fdalloc`, with memory for a table (line 1094). -/
  | alloc (t : ℕ) (k : Caller) (nfiles : ℕ)
  /-- In `fdalloc`, about to go through its loop again (lines 1103, 1129). -/
  | again (t : ℕ) (k : Caller)
  /-- In `fdcopy`, with memory for the structure (line 1315). -/
  | forkHead (t : ℕ)
  /-- With the copy of the structure (line 1319). -/
  | forkRead (t : ℕ) (head : Head)
  /-- With memory for a table of `i` entries (line 1355). -/
  | forkTable (t : ℕ) (head : Head) (i : ℕ)
  /-- About to try again with another size (line 1369). -/
  | forkRetry (t : ℕ) (head : Head)

structure State where
  /-- The tables that a thread can work with. -/
  table : ℕ → Option Filedesc
  /-- `f_type` is `DTYPE_KQUEUE`. -/
  kqueue : Fp → Bool
  pc : ℕ → Pc

namespace State

variable (s : State)

def setTable (t : ℕ) (fdp : Filedesc) : State :=
  { s with table := Function.update s.table t (some fdp) }

def setPc (td : ℕ) (pc : Pc) : State := { s with pc := Function.update s.pc td pc }

/-- The thread is in `fdalloc` with the lock of the table, at the top of the loop. -/
def fdalloc (td lim t : ℕ) (fdp : Filedesc) (k : Caller) : State × Answer :=
  match fdallocScan fdp lim k.want with
  | .found fdp i =>
    let (fdp, r) := k.finish fdp i
    ((s.setTable t fdp).setPc td .idle, r)
  | .emfile => ((s.setTable t fdp).setPc td .idle, .emfile)
  | .expand nfiles => ((s.setTable t fdp).setPc td (.alloc t k nfiles), .running)

/-- `falloc` from where it has the lock (lines 1209-1224). -/
def falloc (td lim t : ℕ) (fdp : Filedesc) (fp : Fp) : State × Answer :=
  { s with kqueue := Function.update s.kqueue fp false }.fdalloc td lim t fdp (.falloc fp)

/-- `do_dup` from where it has the lock (lines 471-551). -/
def doDup (td lim t : ℕ) (fdp : Filedesc) (fixed : Bool) (old new : ℕ) : State × Answer :=
  if lim ≤ new then (s, .ebadf)
  else if fdp.fd_nfiles ≤ old then (s, .ebadf)
  else
    match fdp.fd_ofiles old with
    | none => (s, .ebadf)
    | some fp =>
      if fixed = true ∧ old = new then (s, .fd new)
      else if fixed = false ∨ fdp.fd_nfiles ≤ new then
        s.fdalloc td lim t fdp (.dup fixed old new fp)
      else
        let (fdp, r) := dupFinish fdp old new fp
        (s.setTable t fdp, r)

/-- `close` (lines 812-860). -/
def close (t : ℕ) (fdp : Filedesc) (fd : ℕ) : State × Answer :=
  if fdp.fd_nfiles ≤ fd then (s, .ebadf)
  else if fdp.fd_ofiles fd = none then (s, .ebadf)
  else
    let fdp := (fdp.setFile fd none).setFlags fd 0
    (s.setTable t (fdp.trim.lowerFree fd), .closed)

/-- The thread has the lock in `fdalloc` again, with memory for a table (lines 1100-1131). -/
def fdallocExpand (td lim t : ℕ) (fdp : Filedesc) (k : Caller) (nfiles : ℕ) : State × Answer :=
  if nfiles ≤ fdp.fd_nfiles then (s.setPc td (.again t k), .running)
  else if ndfile < fdp.fd_nfiles then
    ((s.setTable t (expanded fdp nfiles)).setPc td (.again t k), .running)
  else s.fdalloc td lim t (expanded fdp nfiles) k

/-- `fdcopy` is through: the copy is a table like the others. -/
def fdcopied (td child : ℕ) (fdp : Filedesc) (head : Head) (i : ℕ) : Option (State × Answer) :=
  if s.table child = none then
    some ((s.setTable child (fdcopyFinish s.kqueue fdp head i)).setPc td .idle, .child child)
  else none

/-- The second part of `fdcopy` (lines 1336-1354). -/
def fdcopyRead (td child t : ℕ) (fdp : Filedesc) (head : Head) : Option (State × Answer) :=
  if fdp.fd_lastfile < ndfile then s.fdcopied td child fdp head ndfile
  else some (s.setPc td (.forkTable t head (copySize fdp)), .running)

/-- The third part of `fdcopy` (lines 1357-1375). -/
def fdcopyTable (td child t : ℕ) (fdp : Filedesc) (head : Head) (i : ℕ) :
    Option (State × Answer) :=
  if i ≠ copySize fdp then some (s.setPc td (.forkRetry t head), .running)
  else s.fdcopied td child fdp head i

end State

inductive Op
  /-- `fp` is the new file. -/
  | falloc (t : ℕ) (fp : Fp)
  | dup (t : ℕ) (fixed : Bool) (old new : ℕ)
  | close (t fd : ℕ)
  | fdcopy (t : ℕ)
  /-- A call gets the lock again; a copy that is through is the table `child`. -/
  | go (child : ℕ)
  /-- `kqueue` (kern/kern_event.c:396): the new file becomes one. -/
  | kqueueFile (fp : Fp)
  /-- `kqueue` (kern/kern_event.c:404-405). -/
  | kqueueTable (t : ℕ)

/-- A step of the thread `td`; `lim` is the limit of its process on descriptors. -/
structure Event where
  td : ℕ
  lim : ℕ
  op : Op

/-- A call of the thread gets the lock again. -/
def resume (s : State) (td lim child : ℕ) : Option (State × Answer) :=
  match s.pc td with
  | .idle => none
  | .alloc t k nfiles => (s.table t).map fun fdp => s.fdallocExpand td lim t fdp k nfiles
  | .again t k => (s.table t).map fun fdp => s.fdalloc td lim t fdp k
  | .forkHead t => (s.table t).map fun fdp =>
      (s.setPc td (.forkRead t ⟨fdp.fd_freefile, fdp.fd_knlistsize⟩), .running)
  | .forkRead t head => (s.table t).bind fun fdp => s.fdcopyRead td child t fdp head
  | .forkTable t head i => (s.table t).bind fun fdp => s.fdcopyTable td child t fdp head i
  | .forkRetry t head => (s.table t).map fun fdp =>
      (s.setPc td (.forkTable t head (copySize fdp)), .running)

/-- The thread is in no call. -/
def isIdle (s : State) (td : ℕ) : Bool :=
  match s.pc td with
  | .idle => true
  | _ => false

def step (s : State) (e : Event) : Option (State × Answer) :=
  match e.op with
  | .go child => resume s e.td e.lim child
  | .kqueueFile fp => some ({ s with kqueue := Function.update s.kqueue fp true }, .running)
  | .kqueueTable t => (s.table t).map fun fdp =>
      (s.setTable t { fdp with fd_knlistsize := some (fdp.fd_knlistsize.getD 0) }, .running)
  | .falloc t fp =>
    if isIdle s e.td then (s.table t).map fun fdp => s.falloc e.td e.lim t fdp fp else none
  | .dup t fixed old new =>
    if isIdle s e.td then (s.table t).map fun fdp => s.doDup e.td e.lim t fdp fixed old new
    else none
  | .close t fd =>
    if isIdle s e.td then (s.table t).map fun fdp => s.close t fdp fd else none
  | .fdcopy t =>
    if isIdle s e.td then (s.table t).map fun _ => (s.setPc e.td (.forkHead t), .running) else none

end FreeBSD.KernDescrip
