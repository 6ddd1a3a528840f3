import FreeBSD.Lib.MarkPass

/-!
# File descriptors in flight, `kern/uipc_usrreq.c`

Files, Unix-domain sockets and the SCM_RIGHTS messages in their receive buffers, with models of
`unp_gc` (lines 1249–1434), `unp_scan`, `unp_mark` and `unp_discard` (lines 1456–1526), and of the
closing of files and sockets that they lead to (`closef` and `fdrop_locked` of
`kern/kern_descrip.c`, `soclose`, `soabort`, `sofree` and `sorflush` of `kern/uipc_socket.c`,
`unp_detach`).

A control mbuf in a buffer is one message, as `sbcreatecontrol` makes it; data is left out. What C
does in nested calls is a stack of tasks here, and `work` executes the uppermost one.
-/

namespace FreeBSD.UipcUsrreq

open Function

/-- `struct file *`, `struct socket *` and the number of a process. -/
abbrev Fid := ℕ
abbrev Sid := ℕ
abbrev Pid := ℕ

/-- The errors of this file. -/
inductive Errno
  | einval | ebadf | eopnotsupp | e2big | enobufs | emsgsize | eisconn | enotconn | epipe
  | eprototype | econnrefused | other (errno : ℕ)
deriving DecidableEq

/-- SOCK_STREAM and SOCK_DGRAM. -/
inductive SoType
  | stream | dgram
deriving DecidableEq

/-- A control message in a receive buffer: SCM_RIGHTS with its files, or another one with its type
    and length. -/
inductive Control
  | rights (fps : List Fid)
  | other (cmsg_type : BitVec 32) (datalen : BitVec 32)
deriving DecidableEq

/-- The files in a message. -/
def Control.files : Control → List Fid
  | .rights fps => fps
  | .other _ _ => []

/-- The fields of `struct file` (`sys/file.h`, lines 110–138) that are used: `f_data` is the socket
    of a DTYPE_SOCKET, `passable` is DFLAG_PASSABLE of its operations. -/
structure File where
  f_count : ℤ
  f_msgcount : ℤ
  fmark : Bool
  fdefer : Bool
  f_data : Option Sid
  passable : Bool
deriving DecidableEq

/-- A socket with its `unpcb`: `prRights` tells that it is one of the local domain with PR_RIGHTS,
    `so_rcv` has the control messages of each record, `so_pcb` tells whether it is attached. -/
structure Socket where
  so_type : SoType
  prRights : Bool
  acceptconn : Bool
  isconnected : Bool
  cantsendmore : Bool
  so_pcb : Bool
  so_incomp : List Sid
  so_comp : List Sid
  so_rcv : List (List Control)
  unp_conn : Option Sid
deriving DecidableEq

/-- What is still to be done. -/
inductive Task
  | discard (fp : Fid)
  | closef (fp : Fid)
  | ffree (fp : Fid)
  | soclose (so : Sid)
  | soabort (so : Sid)
  | unpDetach (so : Sid)
  | sofree (so : Sid)
  | sorflush (so : Sid)
  | gc
  | gcFlush (fp : Fid)
  | gcDone
  | recv (so : Sid) (p : Pid) (controlp : Bool) (mbufs : ℕ) (more : Bool)
  | recvFail (so : Sid) (more : Bool)
deriving DecidableEq

/-- The kernel: the list of open files, the files, the sockets, the descriptor tables `fd_ofiles` of
    the processes with their limits, `unp_rights`, `unp_defer` and `unp_gcing`. `socks` and `procs`
    are the sockets and processes that were ever used; `error` is what the last call returned. -/
structure State where
  filehead : List Fid
  file : Fid → File
  socks : Finset Sid
  sock : Sid → Socket
  procs : Finset Pid
  ofiles : Pid → List (Option Fid)
  nofile : Pid → ℕ
  unp_rights : ℤ
  unp_defer : ℤ
  unp_gcing : Bool
  tasks : List Task
  error : Option Errno

namespace State

def setFile (s : State) (fp : Fid) (f : File) : State :=
  { s with file := Function.update s.file fp f }

def setSock (s : State) (so : Sid) (x : Socket) : State :=
  { s with sock := Function.update s.sock so x, socks := insert so s.socks }

def setTable (s : State) (p : Pid) (l : List (Option Fid)) : State :=
  { s with ofiles := Function.update s.ofiles p l, procs := insert p s.procs }

def push (s : State) (ts : List Task) : State := { s with tasks := ts ++ s.tasks }

theorem push_append (s : State) (ts us : List Task) : s.push (ts ++ us) = (s.push us).push ts := by
  rw [push, push, push, List.append_assoc]

@[simp] theorem setFile_self (s : State) (fp : Fid) (f : File) : (s.setFile fp f).file fp = f :=
  update_self ..

theorem setFile_ne (s : State) {fp gp : Fid} (f : File) (h : gp ≠ fp) :
    (s.setFile fp f).file gp = s.file gp := update_of_ne h ..

@[simp] theorem setSock_self (s : State) (so : Sid) (x : Socket) : (s.setSock so x).sock so = x :=
  update_self ..

theorem setSock_ne (s : State) {so so' : Sid} (x : Socket) (h : so' ≠ so) :
    (s.setSock so x).sock so' = s.sock so' := update_of_ne h ..

theorem setSock_apply {β : Type*} (f : Socket → β) (s : State) (so : Sid) (x : Socket) (j : Sid) :
    f ((s.setSock so x).sock j) = Function.update (fun j => f (s.sock j)) so (f x) j :=
  apply_update (fun _ => f) s.sock so x j

theorem setTable_apply {β : Type*} (f : List (Option Fid) → β) (s : State) (p : Pid)
    (l : List (Option Fid)) (q : Pid) :
    f ((s.setTable p l).ofiles q) = Function.update (fun q => f (s.ofiles q)) p (f l) q :=
  apply_update (fun _ => f) s.ofiles p l q

end State

/-! ## `unp_gc` -/

/-- The files that `unp_scan` finds in a buffer: of each record, each control mbuf, each message. -/
def rightsIn (rcv : List (List Control)) : List Fid :=
  rcv.flatMap fun m0 => m0.flatMap Control.files

/-- The descriptors of a file, and its occurrences in queued messages. -/
def descRefs (s : State) (fp : Fid) : ℕ := ∑ p ∈ s.procs, (s.ofiles p).count (some fp)
def msgRefs (s : State) (fp : Fid) : ℕ := ∑ so ∈ s.socks, (rightsIn (s.sock so).so_rcv).count fp

/-- `unp_mark` (lines 1507–1515). -/
def unpMark (s : State) (fp : Fid) : State :=
  if (s.file fp).fmark then s
  else
    { s.setFile fp { s.file fp with fmark := true, fdefer := true } with
      unp_defer := s.unp_defer + 1 }

/-- `unp_scan(so->so_rcv.sb_mb, unp_mark)` where the file is one of our sockets
    (lines 1313–1348). -/
def gcScan (s : State) (fp : Fid) : State :=
  match (s.file fp).f_data with
  | none => s
  | some so =>
    if (s.sock so).prRights then (rightsIn (s.sock so).so_rcv).foldl unpMark s else s

/-- The body of the inner loop (lines 1270–1348). -/
def gcVisit (s : State) (fp : Fid) : State :=
  if (s.file fp).f_count = 0 then s
  else if (s.file fp).fdefer then
    gcScan { s.setFile fp { s.file fp with fdefer := false } with unp_defer := s.unp_defer - 1 } fp
  else if (s.file fp).fmark then s
  else if (s.file fp).f_count = (s.file fp).f_msgcount then s
  else gcScan (s.setFile fp { s.file fp with fmark := true }) fp

/-- The loop of lines 1268–1349, at most `fuel` times. -/
def gcLoop : ℕ → State → Option State
  | 0, _ => none
  | fuel + 1, s =>
    let s' := s.filehead.foldl gcVisit s
    if s'.unp_defer = 0 then some s' else gcLoop fuel s'

/-- The flags are cleared (lines 1260–1267). -/
def gcClear (s : State) : State :=
  { s with
    file := fun fp =>
      if fp ∈ s.filehead then { s.file fp with fmark := false, fdefer := false } else s.file fp
    unp_defer := 0 }

/-- The mark phase (lines 1260–1350). -/
def gcMark (s : State) : Option State := gcLoop (s.filehead.length + 1) (gcClear s)

/-- The files that get an extra reference (lines 1393–1418) when the accessible ones are marked. -/
def extraRef (s : State) : List Fid :=
  s.filehead.filter fun fp =>
    (s.file fp).f_count ≠ 0 ∧ (s.file fp).f_count = (s.file fp).f_msgcount ∧ ¬ (s.file fp).fmark

/-- The files that `unp_gc` flushes and closes (lines 1422–1431), in a state where none is
    collecting. -/
def gcHits (s : State) : Option (List Fid) := (gcMark s).map extraRef

/-- `unp_gc` up to line 1418; the loops of lines 1422–1433 are left to do. -/
def unpGc (s : State) : Option State :=
  if s.unp_gcing then some s
  else
    match gcMark s with
    | none => none
    | some s' =>
      let hits := extraRef s'
      let s'' := hits.foldl
        (fun t fp => t.setFile fp { t.file fp with f_count := (t.file fp).f_count + 1 }) s'
      some ({ s'' with unp_gcing := true }.push
        (hits.map Task.gcFlush ++ hits.map Task.closef ++ [Task.gcDone]))

/-! ## Closing -/

/-- `soisdisconnected`. -/
def soisdisconnected (s : State) (so : Sid) : State :=
  s.setSock so { s.sock so with isconnected := false, cantsendmore := true }

/-- The socket loses its peer. -/
def unpUnlink (s : State) (so : Sid) : State :=
  s.setSock so { s.sock so with unp_conn := none }

/-- `unp_disconnect` (lines 793–815). -/
def unpDisconnect (s : State) (so : Sid) : State :=
  match (s.sock so).unp_conn with
  | none => s
  | some so2 =>
    match (s.sock so).so_type with
    | .dgram => s.setSock so { s.sock so with unp_conn := none, isconnected := false }
    | .stream =>
      soisdisconnected (unpUnlink (soisdisconnected (unpUnlink s so) so) so2) so2

/-- The datagram sockets on `unp_refs`, which are connected to this one, lose it. -/
def unpDropRefs (s : State) (so : Sid) : State :=
  { s with
    sock := fun x =>
      if (s.sock x).unp_conn = some so ∧ (s.sock x).so_type = SoType.dgram then
        { s.sock x with unp_conn := none, isconnected := false }
      else s.sock x }

/-- `unp_discard` (lines 1517–1526). -/
def unpDiscard (s : State) (fp : Fid) : State :=
  { s.setFile fp { s.file fp with f_msgcount := (s.file fp).f_msgcount - 1 } with
    unp_rights := s.unp_rights - 1 }.push [.closef fp]

/-- `closef(fp, NULL)` down to `soo_close`; a negative count is a panic. -/
def closef (s : State) (fp : Fid) : Option State :=
  let f := s.file fp
  let t := s.setFile fp { f with f_count := f.f_count - 1 }
  if f.f_count - 1 > 0 then some t
  else if f.f_count - 1 < 0 then none
  else
    match f.f_data with
    | none => some (t.push [.ffree fp])
    | some so =>
      some ((t.setFile fp { t.file fp with f_data := none }).push [.soclose so, .ffree fp])

/-- `soclose`: the connections on the queues are aborted, and the socket is disconnected, detached
    and freed. -/
def soclose (s : State) (so : Sid) : State :=
  let x := s.sock so
  let queued := if x.acceptconn then x.so_incomp ++ x.so_comp else []
  let t := if x.acceptconn then s.setSock so { x with so_incomp := [], so_comp := [] } else s
  t.push (queued.map Task.soabort ++ [.unpDetach so, .sofree so])

/-- `unp_detach`: the peer and the sockets that are connected to this one lose it; if there are
    rights in flight, the buffer is flushed and garbage is collected. -/
def unpDetach (s : State) (so : Sid) : State :=
  if ¬ (s.sock so).so_pcb then s
  else
    let t := soisdisconnected (unpDropRefs (unpDisconnect s so) so) so
    let t := t.setSock so { t.sock so with so_pcb := false }
    if t.unp_rights ≠ 0 then t.push [.sorflush so, .gc] else t

/-- `sofree` of a socket without a file or a queue. -/
def sofree (s : State) (so : Sid) : State :=
  if (s.sock so).so_pcb then s else s.push [.sorflush so]

/-- `sorflush`: the receive buffer is emptied, and the rights in it are disposed of. -/
def sorflush (s : State) (so : Sid) : State :=
  let fps := rightsIn (s.sock so).so_rcv
  let t := s.setSock so { s.sock so with so_rcv := [] }
  if (s.sock so).prRights then t.push (fps.map Task.discard) else t

/-- Lines 1424–1428. -/
def gcFlush (s : State) (fp : Fid) : State :=
  match (s.file fp).f_data with
  | none => s
  | some so => s.push [.sorflush so]

end FreeBSD.UipcUsrreq
