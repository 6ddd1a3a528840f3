import FreeBSD.Lib.Keyed

/-!
# System V semaphores

Model of `sys/kern/sysv_sem.c`: `semget`, `__semctl`, `semop`, `semexit_myhook`, `semu_alloc`,
`semundo_adjust` and `semundo_clear`, with `ipcperm` of `sys/kern/sysv_ipc.c`.

The semaphores of all sets lie in one pool `sem`, those of a set from `sem_base` on. `semu_list` is
the list of the undo structures in use, each with its owner; a structure that is not on it is free.
What a thread keeps across `msleep` is a `Sleeper`. A step is the code between two acquisitions of
the mutex of a set. The memory of a caller is read before the step (`copyin`), and what `IPC_STAT`,
`SEM_STAT` and `GETALL` copy out is left out, as are the times that nothing reads.
-/

namespace FreeBSD.SysvSem

open Lib (swapDelete)

/-! ## Data -/

/-- The errors of the four calls. -/
inductive Errno where
  | eperm | enoent | eintr | e2big | eagain | eacces | eexist | einval | efbig | enospc | erange
  | enosys | eidrm
  deriving DecidableEq, Repr

/-- How a step ends: `td_retval[0]`, an error, a panic, or `msleep`. -/
inductive Ret where
  | ok (v : ℤ)
  | err (e : Errno)
  | panic (msg : String)
  | asleep
  deriving DecidableEq, Repr

/-- `struct seminfo` (`sys/sem.h`, lines 79–90). The limits fit the fields that they bound:
    `un_num`, `un_cnt` and `un_adjval` are of type `short`, `semval` of type `u_short`, and an
    identifier has 16 bits for the index of its set. -/
structure Seminfo where
  semmni : ℕ
  semmns : ℕ
  semmnu : ℕ
  semmsl : ℕ
  semopm : ℕ
  semume : ℕ
  semvmx : ℕ
  semaem : ℕ
  semmni_le : semmni ≤ 65536 := by decide
  semmns_le : semmns ≤ 32768 := by decide
  semume_le : semume ≤ 32767 := by decide
  semvmx_le : semvmx ≤ 65535 := by decide
  semaem_le : semaem ≤ 32767 := by decide

/-- The configuration of lines 123–160. -/
def Seminfo.default : Seminfo where
  semmni := 10
  semmns := 60
  semmnu := 30
  semmsl := 60
  semopm := 100
  semume := 10
  semvmx := 32767
  semaem := 16384

/-- `struct sem` (lines 77–82). -/
structure Sem where
  semval : UInt16
  sempid : ℕ
  semncnt : UInt16
  semzcnt : UInt16
  deriving DecidableEq, Repr

/-- `struct ipc_perm` (`sys/ipc.h`, lines 79–87). -/
structure IpcPerm where
  (cuid cgid uid gid : ℕ)
  mode : BitVec 16
  seq : ℕ
  key : ℤ
  deriving DecidableEq, Repr

/-- `struct semid_ds`; `semBase` is an index of the pool. -/
structure SemidDs where
  semPerm : IpcPerm
  semBase : ℕ
  semNsems : ℕ
  deriving DecidableEq, Repr

/-- `struct undo` (lines 91–95). -/
structure Undo where
  unAdjval : ℤ
  unNum : ℕ
  unId : ℕ
  deriving DecidableEq, Repr

/-- `struct sem_undo` (lines 87–96); `un_cnt` is the length of `unEnt`. -/
structure SemUndo where
  unProc : ℕ
  unEnt : List Undo
  deriving DecidableEq, Repr

/-- `struct sembuf`, with the bits `IPC_NOWAIT` and `SEM_UNDO` of `sem_flg`. -/
structure Sembuf where
  semNum : ℕ
  semOp : ℤ
  (ipcNowait semUndo : Bool)
  deriving DecidableEq, Repr

/-- `td_ucred`; `suser` says whether `suser(td)` returns 0, `jailed` whether the thread is in a
    jail that may not use the calls. -/
structure Cred where
  (crUid crGid : ℕ)
  crGroups : List ℕ
  (suser jailed : Bool)
  deriving DecidableEq, Repr

/-- A thread; `tdProc` is its process, which stands for `p_pid` too. -/
structure Thread where
  tid : ℕ
  tdProc : ℕ
  tdUcred : Cred
  deriving DecidableEq, Repr

/-- What `semop` keeps from its checks on: its arguments and `do_undos`. -/
structure Semop where
  td : Thread
  semid : ℤ
  sops : List Sembuf
  doUndos : Bool
  deriving DecidableEq, Repr

/-- A call of `semop` inside `msleep`, with `sopptr`, `semptr` and whether `wakeup` has ended the
    sleep. -/
structure Sleeper where
  call : Semop
  sopptr : Sembuf
  semptr : ℕ
  awake : Bool
  deriving DecidableEq, Repr

/-- The tables of the module and the calls that sleep. -/
@[ext] structure Sys where
  sema : ℕ → SemidDs
  sem : ℕ → Sem
  semtot : ℕ
  semuList : List SemUndo
  sleepers : List Sleeper

/-- The state after `seminit` (lines 177–216): the pool is not cleared. -/
def Sys.init (sem : ℕ → Sem) : Sys where
  sema := fun _ => ⟨⟨0, 0, 0, 0, 0, 0, 0⟩, 0, 0⟩
  sem := sem
  semtot := 0
  semuList := []
  sleepers := []

/-- The operation is one for the undo structure: `SEM_UNDO`, and not zero. -/
def Sembuf.undoes (sop : Sembuf) : Bool := sop.semUndo && sop.semOp != 0

/-! ## Identifiers and permissions -/

/-- `SEM_ALLOC`. -/
def semAlloc : BitVec 16 := 0o1000

/-- `IPC_R`, `IPC_W` and `IPC_M` (`sys/ipc.h`, lines 91–93). -/
def ipcR : BitVec 16 := 0o400
def ipcW : BitVec 16 := 0o200
def ipcM : BitVec 16 := 0o10000

/-- `IPCID_TO_IX`. -/
def ipcidToIx (id : ℤ) : ℕ := (id % 65536).toNat

/-- `IPCID_TO_SEQ`. -/
def ipcidToSeq (id : ℤ) : ℕ := (id / 65536 % 65536).toNat

/-- `IXSEQ_TO_IPCID`. -/
def ixseqToIpcid (ix : ℕ) (perm : IpcPerm) : ℤ := perm.seq * 65536 + ix % 65536

/-- `sem_perm.mode & SEM_ALLOC`. -/
def SemidDs.allocated (d : SemidDs) : Bool := d.semPerm.mode &&& semAlloc != 0

/-- `semvalid` (lines 473–481): the set exists and is the one that the identifier was given for. -/
def semvalid (semid : ℤ) (semaptr : SemidDs) : Bool :=
  semaptr.allocated && semaptr.semPerm.seq == ipcidToSeq semid

/-- `groupmember` (`sys/kern/kern_prot.c`). -/
def groupmember (gid : ℕ) (cred : Cred) : Bool := cred.crGid == gid || cred.crGroups.contains gid

/-- `ipcperm` (`sys/kern/sysv_ipc.c`, lines 73–117). -/
def ipcperm (td : Thread) (perm : IpcPerm) (mode : BitVec 16) : Option Errno :=
  let cred := td.tdUcred
  let check (mode : BitVec 16) : Option Errno :=
    if mode &&& perm.mode ≠ mode ∧ ¬ cred.suser then some .eacces else none
  if cred.crUid ≠ perm.cuid ∧ cred.crUid ≠ perm.uid then
    if mode &&& ipcM ≠ 0 ∧ ¬ cred.suser then some .eperm
    else if ¬ groupmember perm.gid cred ∧ ¬ groupmember perm.cgid cred then check (mode >>> 6)
    else check (mode >>> 3)
  else if mode &&& ipcM ≠ 0 then none
  else check mode

/-! ## Undo structures -/

/-- The entries of process `p`. -/
def entOf (p : ℕ) (tbl : List SemUndo) : List Undo :=
  ((tbl.find? (·.unProc == p)).map (·.unEnt)).getD []

/-- Assignment to the entries of the undo structure of process `p`. -/
def setEnt (p : ℕ) (ents : List Undo) : List SemUndo → List SemUndo
  | [] => []
  | suptr :: tbl =>
    if suptr.unProc = p then { suptr with unEnt := ents } :: tbl else suptr :: setEnt p ents tbl

/-- `semu_alloc` (lines 302–366): `none` if no structure is free and none can be purged. -/
def semuAlloc (info : Seminfo) (p : ℕ) (tbl : List SemUndo) :
    Except String (Option (List SemUndo)) :=
  if tbl.length < info.semmnu then .ok (some (⟨p, []⟩ :: tbl))
  else if tbl.any (·.unEnt.isEmpty) then
    let tbl := tbl.eraseP (·.unEnt.isEmpty)
    if tbl.length < info.semmnu then .ok (some (⟨p, []⟩ :: tbl))
    else .error "semu_alloc - second attempt failed"
  else .ok none

/-- The entry for semaphore `semnum` of set `semid`. -/
def isEntry (semid semnum : ℕ) (e : Undo) : Bool := e.unId == semid && e.unNum == semnum

/-- `semundo_adjust` for the entries of a structure (lines 407–442). -/
def adjustEnt (info : Seminfo) (ents : List Undo) (semid semnum : ℕ) (adjval : ℤ) :
    List Undo × Ret :=
  match ents.find? (isEntry semid semnum) with
  | some sunptr =>
    let i := ents.findIdx (isEntry semid semnum)
    let sum := if adjval ≠ 0 then adjval + sunptr.unAdjval else adjval
    if adjval ≠ 0 ∧ (sum > info.semaem ∨ sum < -info.semaem) then (ents, .err .erange)
    else if sum = 0 then (swapDelete ents i, .ok 0)
    else (ents.set i { sunptr with unAdjval := sum }, .ok 0)
  | none =>
    if adjval = 0 then (ents, .ok 0)
    else if adjval > info.semaem ∨ adjval < -info.semaem then (ents, .err .erange)
    else if ents.length ≠ info.semume then (ents ++ [⟨adjval, semnum, semid⟩], .ok 0)
    else (ents, .err .einval)

/-- `semundo_adjust` (lines 372–442). -/
def semundoAdjust (info : Seminfo) (p : ℕ) (tbl : List SemUndo) (semid semnum : ℕ) (adjval : ℤ) :
    List SemUndo × Ret :=
  if tbl.any (·.unProc == p) then
    let r := adjustEnt info (entOf p tbl) semid semnum adjval
    (setEnt p r.1 tbl, r.2)
  else if adjval = 0 then (tbl, .ok 0)
  else
    match semuAlloc info p tbl with
    | .error msg => (tbl, .panic msg)
    | .ok none => (tbl, .err .enospc)
    | .ok (some tbl) =>
      let r := adjustEnt info (entOf p tbl) semid semnum adjval
      (setEnt p r.1 tbl, r.2)

/-- The loop of `semundo_clear` over the entries of a structure, from entry `i` on, for at most
    `fuel` rounds; `semnum` is `none` where the source passes -1. -/
def clearEnt (semid : ℕ) (semnum : Option ℕ) : (fuel i : ℕ) → List Undo → List Undo
  | 0, _, ents => ents
  | fuel + 1, i, ents =>
    match ents[i]? with
    | none => ents
    | some sunptr =>
      if sunptr.unId = semid then
        let hit := semnum = none ∨ semnum = some sunptr.unNum
        let ents := if hit then swapDelete ents i else ents
        if hit ∧ i < ents.length then clearEnt semid semnum fuel i ents
        else if semnum ≠ none then ents
        else clearEnt semid semnum fuel (i + 1) ents
      else clearEnt semid semnum fuel (i + 1) ents

/-- `semundo_clear` (lines 444–471). -/
def semundoClear (semid : ℕ) (semnum : Option ℕ) (tbl : List SemUndo) : List SemUndo :=
  tbl.map fun suptr => { suptr with unEnt := clearEnt semid semnum suptr.unEnt.length 0 suptr.unEnt
    }

/-! ## Steps of the calls -/

namespace Sys

/-- Assignment to the semaphore at index `k` of the pool. -/
def modSem (sem : ℕ → Sem) (k : ℕ) (f : Sem → Sem) : ℕ → Sem := Function.update sem k (f (sem k))

/-- `wakeup(&sema[ix])` (`sys/kern/kern_synch.c`): every thread that sleeps there wakes up. -/
def wakeup (s : Sys) (ix : ℕ) : Sys :=
  { s with sleepers := s.sleepers.map fun w =>
      if ipcidToIx w.call.semid = ix then { w with awake := true } else w }

/-- Assignment to `sema[ix]`. -/
def setSema (s : Sys) (ix : ℕ) (d : SemidDs) : Sys := { s with sema := Function.update s.sema ix d }

/-- The first index below `semmni` at which `p` holds. -/
def findSema (s : Sys) (info : Seminfo) (p : SemidDs → Bool) : Option ℕ :=
  (List.range info.semmni).find? fun ix => p (s.sema ix)

/-- The set that `semget` puts into a slot: the counts and the value of its semaphores are 0. -/
def create (s : Sys) (cred : Cred) (ix : ℕ) (key : ℤ) (nsems : ℕ) (semflg : BitVec 16) : Sys :=
  { s.setSema ix
      { semPerm :=
          { key := key
            cuid := cred.crUid % 65536
            uid := cred.crUid % 65536
            cgid := cred.crGid % 65536
            gid := cred.crGid % 65536
            mode := semflg &&& 0o777 ||| semAlloc
            seq := ((s.sema ix).semPerm.seq + 1) &&& 0x7fff }
        semBase := s.semtot
        semNsems := nsems } with
    sem := fun k => if s.semtot ≤ k ∧ k < s.semtot + nsems then ⟨0, 0, 0, 0⟩ else s.sem k
    semtot := s.semtot + nsems }

/-- `semget` (lines 770–861). -/
def semget (s : Sys) (info : Seminfo) (td : Thread) (key : ℤ) (nsems : ℤ) (semflg : BitVec 16) :
    Sys × Ret :=
  let found := if key = 0 then none
    else s.findSema info fun d => d.allocated && d.semPerm.key == key
  if td.tdUcred.jailed then (s, .err .enosys)
  else
    match found with
    | some semid =>
      match ipcperm td (s.sema semid).semPerm (semflg &&& 0o700) with
      | some error => (s, .err error)
      | none =>
        if nsems > 0 ∧ (s.sema semid).semNsems < nsems then (s, .err .einval)
        else if semflg &&& 0o1000 ≠ 0 ∧ semflg &&& 0o2000 ≠ 0 then (s, .err .eexist)
        else (s, .ok (ixseqToIpcid semid (s.sema semid).semPerm))
    | none =>
      if key = 0 ∨ semflg &&& 0o1000 ≠ 0 then
        if nsems ≤ 0 ∨ nsems > info.semmsl then (s, .err .einval)
        else if nsems > (info.semmns : ℤ) - s.semtot then (s, .err .enospc)
        else
          match s.findSema info fun d => !d.allocated with
          | none => (s, .err .enospc)
          | some semid =>
            let s := s.create td.tdUcred semid key nsems.toNat semflg
            (s, .ok (ixseqToIpcid semid (s.sema semid).semPerm))
      else (s, .err .enoent)

/-- The loop of `IPC_RMID` that moves the semaphores behind a removed set (lines 565–566). -/
def compact (base nsems semtot : ℕ) (sem : ℕ → Sem) : ℕ → Sem :=
  (List.range' base (semtot - base)).foldl
    (fun sem i => Function.update sem i (sem (i + nsems))) sem

/-- `IPC_RMID` of `__semctl`, after its checks (lines 562–577). -/
def rmid (s : Sys) (td : Thread) (ix : ℕ) : Sys :=
  let semaptr := s.sema ix
  let semtot := s.semtot - semaptr.semNsems
  let rebased (i : ℕ) : SemidDs :=
    if (s.sema i).allocated ∧ (s.sema i).semBase > semaptr.semBase then
      { s.sema i with semBase := (s.sema i).semBase - semaptr.semNsems }
    else s.sema i
  wakeup
    { s with
      sema := Function.update rebased ix
        { semaptr with semPerm :=
            { semaptr.semPerm with
              cuid := td.tdUcred.crUid % 65536
              uid := td.tdUcred.crUid % 65536
              mode := 0 } }
      sem := compact semaptr.semBase semaptr.semNsems semtot s.sem
      semtot := semtot
      semuList := semundoClear ix none s.semuList } ix

/-- The loop of `SETALL` from semaphore `i` on (lines 723–730), with its error. -/
def setall (info : Seminfo) (base : ℕ) (array : ℕ → UInt16) (sem : ℕ → Sem) :
    (n i : ℕ) → (ℕ → Sem) × Ret
  | 0, _ => (sem, .ok 0)
  | n + 1, i =>
    if (array i).toNat > info.semvmx then (sem, .err .erange)
    else setall info base array (modSem sem (base + i) ({ · with semval := array i })) n (i + 1)

/-- The commands of `__semctl`, with what they read from the memory of the caller. -/
inductive Cmd where
  | ipcRmid
  | ipcSet (uid gid : ℕ) (mode : BitVec 16)
  | getncnt (semnum : ℤ)
  | getpid (semnum : ℤ)
  | getval (semnum : ℤ)
  | getzcnt (semnum : ℤ)
  | setval (semnum : ℤ) (val : ℤ)
  | setall (array : ℕ → UInt16)

/-- The permission that a command needs. -/
def Cmd.mode : Cmd → BitVec 16
  | ipcRmid | ipcSet .. => ipcM
  | getncnt _ | getpid _ | getval _ | getzcnt _ => ipcR
  | setval .. | setall _ => ipcW

/-- `GETNCNT`, `GETPID`, `GETVAL` and `GETZCNT`: a field of a semaphore. -/
def get (s : Sys) (ix : ℕ) (semnum : ℤ) (field : Sem → ℕ) : Sys × Ret :=
  if semnum < 0 ∨ semnum ≥ (s.sema ix).semNsems then (s, .err .einval)
  else (s, .ok (field (s.sem ((s.sema ix).semBase + semnum.toNat))))

/-- `__semctl` (lines 496–760). -/
def semctl (s : Sys) (info : Seminfo) (td : Thread) (semid : ℤ) (cmd : Cmd) : Sys × Ret :=
  let ix := ipcidToIx semid
  let semaptr := s.sema ix
  if td.tdUcred.jailed then (s, .err .enosys)
  else if ix ≥ info.semmni then (s, .err .einval)
  else if !semvalid semid semaptr then (s, .err .einval)
  else
    match ipcperm td semaptr.semPerm cmd.mode with
    | some error => (s, .err error)
    | none =>
      match cmd with
      | .ipcRmid => (s.rmid td ix, .ok 0)
      | .ipcSet uid gid mode =>
        (s.setSema ix { semaptr with semPerm :=
          { semaptr.semPerm with
            uid := uid
            gid := gid
            mode := semaptr.semPerm.mode &&& ~~~0o777 ||| mode &&& 0o777 } }, .ok 0)
      | .getncnt semnum => s.get ix semnum (·.semncnt.toNat)
      | .getpid semnum => s.get ix semnum (·.sempid)
      | .getval semnum => s.get ix semnum (·.semval.toNat)
      | .getzcnt semnum => s.get ix semnum (·.semzcnt.toNat)
      | .setval semnum val =>
        if semnum < 0 ∨ semnum ≥ semaptr.semNsems then (s, .err .einval)
        else if val < 0 ∨ val > info.semvmx then (s, .err .erange)
        else
          (wakeup
            { s with
              sem := modSem s.sem (semaptr.semBase + semnum.toNat)
                ({ · with semval := UInt16.ofInt val })
              semuList := semundoClear ix (some semnum.toNat) s.semuList } ix, .ok 0)
      | .setall array =>
        let r := setall info semaptr.semBase array s.sem semaptr.semNsems 0
        (wakeup { s with sem := r.1, semuList := semundoClear ix none s.semuList } ix, r.2)

/-! ## semop -/

/-- How a pass over the vector ends: after its last operation, at one that has to wait, or at one
    that exceeds `semvmx`. -/
inductive Stop where
  | through
  | wait (sopptr : Sembuf)
  | erange
  deriving DecidableEq, Repr

/-- The pool, `do_wakeup` and `i` after a pass over the vector. -/
structure Pass where
  sem : ℕ → Sem
  doWakeup : Bool
  i : ℕ
  stop : Stop

/-- `semptr->semval += d`. -/
def addVal (sem : ℕ → Sem) (k : ℕ) (d : ℤ) : ℕ → Sem :=
  modSem sem k fun semptr => { semptr with semval := UInt16.ofInt (semptr.semval.toNat + d) }

/-- The inner loop of `semop` from operation `i` on (lines 963–999). -/
def pass (info : Seminfo) (base : ℕ) (sem : ℕ → Sem) (doWakeup : Bool) (i : ℕ) :
    List Sembuf → Pass
  | [] => ⟨sem, doWakeup, i, .through⟩
  | sopptr :: sops =>
    let k := base + sopptr.semNum
    let semval : ℤ := (sem k).semval.toNat
    if sopptr.semOp < 0 then
      if semval + sopptr.semOp < 0 then ⟨sem, doWakeup, i, .wait sopptr⟩
      else
        let sem := addVal sem k sopptr.semOp
        pass info base sem (doWakeup || ((sem k).semval == 0 && (sem k).semzcnt > 0)) (i + 1) sops
    else if sopptr.semOp = 0 then
      if semval ≠ 0 then ⟨sem, doWakeup, i, .wait sopptr⟩
      else pass info base sem doWakeup (i + 1) sops
    else if semval + sopptr.semOp > info.semvmx then ⟨sem, doWakeup, i, .erange⟩
    else
      pass info base (addVal sem k sopptr.semOp) (doWakeup || (sem k).semncnt > 0) (i + 1) sops

/-- The loops that take back the operations `sops` (lines 1011–1013 and 1104–1106). -/
def rollback (base : ℕ) (sops : List Sembuf) (sem : ℕ → Sem) : ℕ → Sem :=
  sops.foldl (fun sem sop => addVal sem (base + sop.semNum) (-sop.semOp)) sem

/-- The rollback of the undo adjustments that were made for `applied`, last first
    (lines 1087–1101). -/
def revertUndos (info : Seminfo) (p semid : ℕ) : List Sembuf → List SemUndo → List SemUndo × Ret
  | [], tbl => (tbl, .ok 0)
  | sop :: applied, tbl =>
    if sop.undoes then
      match semundoAdjust info p tbl semid sop.semNum sop.semOp with
      | (tbl, .ok _) => revertUndos info p semid applied tbl
      | (tbl, .panic msg) => (tbl, .panic msg)
      | (tbl, _) => (tbl, .panic "semop - can't undo undos")
    else revertUndos info p semid applied tbl

/-- The rollback after `error`, which is returned unless the rollback panics. -/
def failUndos (info : Seminfo) (p semid : ℕ) (applied : List Sembuf) (error : Ret)
    (tbl : List SemUndo) : List SemUndo × Ret :=
  match revertUndos info p semid applied tbl with
  | (tbl, .ok _) => (tbl, error)
  | (tbl, r) => (tbl, r)

/-- The undo adjustments for the operations from `sops` on, after those in `applied`, last first
    (lines 1062–1114). -/
def applyUndos (info : Seminfo) (p semid : ℕ) (applied : List Sembuf) :
    List Sembuf → List SemUndo → List SemUndo × Ret
  | [], tbl => (tbl, .ok 0)
  | sop :: sops, tbl =>
    if sop.undoes then
      match semundoAdjust info p tbl semid sop.semNum (-sop.semOp) with
      | (tbl, .ok _) => applyUndos info p semid (sop :: applied) sops tbl
      | (tbl, .panic msg) => (tbl, .panic msg)
      | (tbl, error) => failUndos info p semid applied error tbl
    else applyUndos info p semid (sop :: applied) sops tbl

/-- The assignments to `sempid` (lines 1117–1121). -/
def setPids (base pid : ℕ) (sops : List Sembuf) (sem : ℕ → Sem) : ℕ → Sem :=
  sops.foldl (fun sem sop => modSem sem (base + sop.semNum) ({ · with sempid := pid })) sem

/-- The end of `semop` after a pass through the whole vector (lines 1057–1133). -/
def semopDone (info : Seminfo) (s : Sys) (c : Semop) (doWakeup : Bool) : Sys × Ret :=
  let ix := ipcidToIx c.semid
  let base := (s.sema ix).semBase
  let r := if c.doUndos then applyUndos info c.td.tdProc ix [] c.sops s.semuList
    else (s.semuList, .ok 0)
  let s := { s with semuList := r.1 }
  match r.2 with
  | .ok _ =>
    let s := { s with sem := setPids base c.td.tdProc c.sops s.sem }
    (if doWakeup then s.wakeup ix else s, .ok 0)
  | .panic msg => (s, .panic msg)
  | error => ({ s with sem := rollback base c.sops s.sem }, error)

/-- The count of those that wait for `sopptr`, before the sleep (lines 1026–1029). -/
def countUp (sopptr : Sembuf) (semptr : Sem) : Sem :=
  if sopptr.semOp = 0 then { semptr with semzcnt := semptr.semzcnt + 1 }
  else { semptr with semncnt := semptr.semncnt + 1 }

/-- The count of those that wait for `sopptr`, after the sleep (lines 1051–1054). -/
def countDown (sopptr : Sembuf) (semptr : Sem) : Sem :=
  if sopptr.semOp = 0 then { semptr with semzcnt := semptr.semzcnt - 1 }
  else { semptr with semncnt := semptr.semncnt - 1 }

/-- One round of the outer loop of `semop` (lines 959–1034), up to `msleep` or the return. -/
def semopTry (info : Seminfo) (s : Sys) (c : Semop) : Sys × Ret :=
  let base := (s.sema (ipcidToIx c.semid)).semBase
  let p := pass info base s.sem false 0 c.sops
  let rolled := { s with sem := rollback base (c.sops.take p.i) p.sem }
  match p.stop with
  | .through => semopDone info { s with sem := p.sem } c p.doWakeup
  | .erange => (rolled, .err .erange)
  | .wait sopptr =>
    if sopptr.ipcNowait then (rolled, .err .eagain)
    else
      let semptr := base + sopptr.semNum
      ({ rolled with
          sem := modSem rolled.sem semptr (countUp sopptr)
          sleepers := rolled.sleepers ++ [⟨c, sopptr, semptr, false⟩] }, .asleep)

/-- The permission that a vector needs (lines 933–945). -/
def permNeeded (sops : List Sembuf) : BitVec 16 :=
  (if sops.any (·.semOp = 0) then ipcR else 0) ||| (if sops.any (·.semOp ≠ 0) then ipcW else 0)

/-- `semop` up to its first sleep (lines 876–1034). -/
def semop (s : Sys) (info : Seminfo) (td : Thread) (semid : ℤ) (sops : List Sembuf) : Sys × Ret :=
  let ix := ipcidToIx semid
  let semaptr := s.sema ix
  if td.tdUcred.jailed then (s, .err .enosys)
  else if ix ≥ info.semmni then (s, .err .einval)
  else if sops.length > info.semopm then (s, .err .e2big)
  else if !semvalid semid semaptr then (s, .err .einval)
  else if sops.any (·.semNum ≥ semaptr.semNsems) then (s, .err .efbig)
  else
    match ipcperm td semaptr.semPerm (permNeeded sops) with
    | some error => (s, .err error)
    | none => semopTry info s ⟨td, semid, sops, sops.any (·.undoes)⟩

/-- `semop` after `msleep`, which returned an error if `intr` (lines 1036–1055): `w` is the call
    that slept, no longer in `sleepers`. -/
def semopWoken (info : Seminfo) (s : Sys) (w : Sleeper) (intr : Bool) : Sys × Ret :=
  if intr then (s, .err .eintr)
  else if !semvalid w.call.semid (s.sema (ipcidToIx w.call.semid)) then (s, .err .eidrm)
  else
    semopTry info { s with sem := modSem s.sem w.semptr (countDown w.sopptr) } w.call

/-! ## Exit -/

/-- The new value of a semaphore for the undo adjustment `adjval` (lines 1199–1207). -/
def exitVal (adjval : ℤ) (semval : UInt16) : UInt16 :=
  if adjval < 0 then
    if (semval.toNat : ℤ) < -adjval then 0 else UInt16.ofInt (semval.toNat + adjval)
  else UInt16.ofInt (semval.toNat + adjval)

/-- The loop of `semexit_myhook` over the entries (lines 1176–1214). -/
def exitEnt (s : Sys) : List Undo → Sys × Ret
  | [] => (s, .ok 0)
  | e :: ents =>
    let semaptr := s.sema e.unId
    if !semaptr.allocated then (s, .panic "semexit - semid not allocated")
    else if e.unNum ≥ semaptr.semNsems then (s, .panic "semexit - semnum out of range")
    else
      exitEnt (wakeup { s with
        sem := modSem s.sem (semaptr.semBase + e.unNum) fun semptr =>
          { semptr with semval := exitVal e.unAdjval semptr.semval } } e.unId) ents

/-- `semexit_myhook` (lines 1148–1224). -/
def semexit (s : Sys) (p : ℕ) : Sys × Ret :=
  if s.semuList.any (·.unProc == p) then
    match s.exitEnt (entOf p s.semuList) with
    | (s, .ok _) => ({ s with semuList := s.semuList.eraseP (·.unProc == p) }, .ok 0)
    | (s, r) => (s, r)
  else (s, .ok 0)

end Sys

/-! ## Runs -/

/-- A step: a call of a thread, the end of a thread's sleep (by a signal if `intr`), or the exit of
    a process. -/
inductive Op where
  | semget (td : Thread) (key nsems : ℤ) (semflg : BitVec 16)
  | semctl (td : Thread) (semid : ℤ) (cmd : Sys.Cmd)
  | semop (td : Thread) (semid : ℤ) (sops : List Sembuf)
  | resume (tid : ℕ) (intr : Bool)
  | exit (p : ℕ)

/-- The thread is in no call of `semop`. -/
def Sys.idle (s : Sys) (tid : ℕ) : Bool := s.sleepers.all (·.call.td.tid != tid)

/-- A step, where it is possible: a thread that sleeps makes no call, one that no `wakeup` has
    reached goes on for a signal only, and a process exits when none of its threads sleeps. -/
def Sys.step (info : Seminfo) (s : Sys) : Op → Option (Sys × Ret)
  | .semget td key nsems semflg =>
    if s.idle td.tid then some (s.semget info td key nsems semflg) else none
  | .semctl td semid cmd => if s.idle td.tid then some (s.semctl info td semid cmd) else none
  | .semop td semid sops => if s.idle td.tid then some (s.semop info td semid sops) else none
  | .resume tid intr =>
    match s.sleepers.find? (·.call.td.tid == tid) with
    | none => none
    | some w =>
      if w.awake || intr then
        some (Sys.semopWoken info { s with sleepers := s.sleepers.erase w } w intr)
      else none
  | .exit p => if s.sleepers.all (·.call.td.tdProc != p) then some (s.semexit p) else none

/-- A thread of the superuser in process `p`. -/
def root (tid p : ℕ) : Thread := ⟨tid, p, ⟨0, 0, [], true, false⟩⟩

end FreeBSD.SysvSem
