import FreeBSD.Kern.UipcUsrreq

/-!
# Sending and receiving rights, `kern/uipc_usrreq.c`

Models of `unp_internalize` (lines 1103–1245), `uipc_send` (lines 276–400) and `unp_externalize`
(lines 982–1089), with `soreceive` as far as it takes control messages out of a receive buffer, and
a machine of calls whose tasks are worked off one by one.

The control mbuf of a send is its bytes, in little-endian order with 32-bit pointers; `socklen_t` is
unsigned. `mbufs` is the number of mbufs that the allocator still gives out in a call. The result
`none` is a panic or an access outside of the control mbuf.
-/

namespace FreeBSD.UipcUsrreq

abbrev Byte := BitVec 8

/-- SOL_SOCKET, SCM_RIGHTS, SCM_TIMESTAMP, SCM_CREDS, MCLBYTES, `sizeof(struct cmsgcred)` and
    `sizeof(struct timeval)`. -/
def solSocket : BitVec 32 := 0xffff
def scmRights : BitVec 32 := 0x01
def scmTimestamp : BitVec 32 := 0x02
def scmCreds : BitVec 32 := 0x03
def mclbytes : BitVec 32 := 2048
def sizeofCmsgcred : BitVec 32 := 84
def sizeofTimeval : BitVec 32 := 8

/-- `sizeof(struct cmsghdr)`, which is aligned. -/
def sizeofCmsghdr : BitVec 32 := 12

/-- `_ALIGN(n)` and `CMSG_SPACE(l)`. -/
def align (n : BitVec 32) : BitVec 32 := (n + 3) &&& 0xfffffffc
def cmsgSpace (l : BitVec 32) : BitVec 32 := sizeofCmsghdr + align l

/-- The word at an offset of the mbuf, if it is inside. -/
def word (m : List Byte) (off : ℕ) : Option (BitVec 32) :=
  match m.drop off with
  | a :: b :: c :: d :: _ => some (d ++ c ++ b ++ a)
  | _ => none

/-- Whether `sbcreatecontrol(NULL, size, …)` makes an mbuf. -/
def sbcreatecontrol (mbufs : ℕ) (size : BitVec 32) : Bool := cmsgSpace size ≤ mclbytes ∧ 0 < mbufs

/-! ## `unp_internalize` -/

/-- The files of `n` descriptors from `off` on (lines 1166–1182): an error, or the files. -/
def checkFds (s : State) (p : Pid) (m : List Byte) : ℕ → ℕ → Option (Except Errno (List Fid))
  | 0, _ => some (.ok [])
  | n + 1, off =>
    match word m off with
    | none => none
    | some fd =>
      match (s.ofiles p)[fd.toNat]? with
      | none | some none => some (.error .ebadf)
      | some (some fp) =>
        if ¬ (s.file fp).passable then some (.error .eopnotsupp)
        else
          match checkFds s p m n (off + 4) with
          | some (.ok fps) => some (.ok (fp :: fps))
          | r => r

/-- One message of the control mbuf (lines 1122–1224): an error, or what is made of it with the
    length of its data. -/
def internalizeOne (s : State) (p : Pid) (m : List Byte) (mbufs off : ℕ) (clen : BitVec 32) :
    Option (Except Errno (Control × BitVec 32)) :=
  if sizeofCmsghdr > clen then some (.error .einval)
  else
    match word m off, word m (off + 4), word m (off + 8) with
    | some cmsg_len, some cmsg_level, some cmsg_type =>
      if cmsg_level ≠ solSocket ∨ cmsg_len > clen then some (.error .einval)
      else
        let datalen := cmsg_len - sizeofCmsghdr
        if cmsg_type = scmCreds then
          if sbcreatecontrol mbufs sizeofCmsgcred then
            some (.ok (.other scmCreds sizeofCmsgcred, datalen))
          else some (.error .enobufs)
        else if cmsg_type = scmRights then
          let oldfds := datalen / 4
          match checkFds s p m oldfds.toNat (off + 12) with
          | none => none
          | some (.error e) => some (.error e)
          | some (.ok fps) =>
            let newlen := oldfds * 4
            if sbcreatecontrol mbufs newlen then some (.ok (.rights fps, datalen))
            else some (.error .e2big)
        else if cmsg_type = scmTimestamp then
          if sbcreatecontrol mbufs sizeofTimeval then
            some (.ok (.other scmTimestamp sizeofTimeval, datalen))
          else some (.error .enobufs)
        else some (.error .einval)
    | _, _, _ => none

/-- The next message (lines 1228–1236): its offset and what is left from there on. -/
def nextCmsg (off : ℕ) (clen datalen : BitVec 32) : Option (ℕ × BitVec 32) :=
  if cmsgSpace datalen < clen then
    some (off + (cmsgSpace datalen).toNat, clen - cmsgSpace datalen)
  else none

/-- A reference from a message (lines 1201–1211). -/
def hold (s : State) (fp : Fid) : State :=
  let f := s.file fp
  { s.setFile fp { f with f_count := f.f_count + 1, f_msgcount := f.f_msgcount + 1 } with
    unp_rights := s.unp_rights + 1 }

/-- The loop of `unp_internalize`: the error, the chain of mbufs that it leaves, and the state. Each
    round takes an mbuf. -/
def internalizeLoop (p : Pid) (m : List Byte) :
    ℕ → State → ℕ → BitVec 32 → Option (Option Errno × List Control × State)
  | mbufs, s, off, clen =>
    match internalizeOne s p m mbufs off clen with
    | none => none
    | some (.error e) => some (some e, [], s)
    | some (.ok (c, datalen)) =>
      let s' := c.files.foldl hold s
      match mbufs, nextCmsg off clen datalen with
      | _, none => some (none, [c], s')
      | 0, some _ => none
      | n + 1, some (off', clen') =>
        match internalizeLoop p m n s' off' clen' with
        | none => none
        | some (e, cs, s'') => some (e, c :: cs, s'')

/-- `unp_internalize(&control, td)`. -/
def unpInternalize (s : State) (p : Pid) (m : List Byte) (mbufs : ℕ) :
    Option (Option Errno × List Control × State) :=
  internalizeLoop p m mbufs s 0 (BitVec.ofNat 32 m.length)

/-! ## `uipc_send` -/

/-- What `namei` and the checks on the vnode give (lines 685–709), and the socket for `sonewconn`,
    if there is room. -/
structure Name where
  found : Except Errno Sid
  newconn : Option Sid

/-- `unp_connect(so, nam, td)` (lines 673–790, with `unp_connect2`): the error, and the state. -/
def unpConnect (s : State) (so : Sid) (nam : Name) : Option (Option Errno × State) :=
  match nam.found with
  | .error e => some (some e, s)
  | .ok so2 =>
    if (s.sock so).so_type ≠ (s.sock so2).so_type then some (some .eprototype, s)
    else
      match (s.sock so).so_type with
      | .dgram =>
        some (none, s.setSock so { s.sock so with unp_conn := some so2, isconnected := true })
      | .stream =>
        if ¬ (s.sock so2).acceptconn then some (some .econnrefused, s)
        else
          match nam.newconn with
          | none => some (some .econnrefused, s)
          | some so3 =>
            -- the new socket must be a new one
            if so3 ∈ s.socks then none
            else
              let t := s.setSock so3
                { s.sock so2 with
                  acceptconn := false, isconnected := true, so_pcb := true, so_incomp := [],
                  so_comp := [], so_rcv := [], unp_conn := some so }
              let t := t.setSock so2 { t.sock so2 with so_comp := (t.sock so2).so_comp ++ [so3] }
              some (none, t.setSock so
                { t.sock so with unp_conn := some so3, isconnected := true })

/-- A send: `nam`, the bytes of the control mbuf, whether the receive buffer has room for it, and
    PRUS_OOB. -/
structure SendArgs where
  so : Sid
  p : Pid
  oob : Bool
  nam : Option Name
  control : Option (List Byte)
  mbufs : ℕ
  space : Bool

/-- `sbappendaddr` or `sbappendcontrol`, where there is room. -/
def sbappendcontrol (s : State) (so2 : Sid) (control : List Control) : State :=
  s.setSock so2 { s.sock so2 with so_rcv := (s.sock so2).so_rcv ++ [control] }

/-- `sbappend`: the data goes behind the last record. -/
def sbappend (s : State) (so2 : Sid) : State :=
  if (s.sock so2).so_rcv = [] then s.setSock so2 { s.sock so2 with so_rcv := [[]] } else s

/-- The case SOCK_DGRAM (lines 314–347): the error, the control chain that is left, the state. -/
def sendDgram (s : State) (a : SendArgs) (control : List Control) :
    Option (Option Errno × List Control × State) :=
  let deliver (s : State) : Option (Option Errno × List Control × State) :=
    match (s.sock a.so).unp_conn with
    | none => none
    | some so2 =>
      if a.space then some (none, [], sbappendcontrol s so2 control)
      else some (some .enobufs, control, s)
  match a.nam with
  | some nam =>
    if (s.sock a.so).unp_conn ≠ none then some (some .eisconn, control, s)
    else
      match unpConnect s a.so nam with
      | none => none
      | some (some e, s') => some (some e, control, s')
      | some (none, s') =>
        match deliver s' with
        | none => none
        | some (e, c, s'') => some (e, c, unpDisconnect s'' a.so)
  | none =>
    if (s.sock a.so).unp_conn = none then some (some .enotconn, control, s)
    else deliver s

/-- The case SOCK_STREAM (lines 349–387), with the control chain if there is one. -/
def sendStream (s : State) (a : SendArgs) (control : Option (List Control)) :
    Option (Option Errno × List Control × State) :=
  let left := control.getD []
  let deliver (s : State) : Option (Option Errno × List Control × State) :=
    if (s.sock a.so).cantsendmore then some (some .epipe, left, s)
    else
      match (s.sock a.so).unp_conn with
      | none => none
      | some so2 =>
        match control with
        | some c => if a.space then some (none, [], sbappendcontrol s so2 c) else some (none, c, s)
        | none => some (none, [], sbappend s so2)
  if (s.sock a.so).isconnected then deliver s
  else
    match a.nam with
    | none => some (some .enotconn, left, s)
    | some nam =>
      match unpConnect s a.so nam with
      | none => none
      | some (some e, s') => some (some e, left, s')
      | some (none, s') => deliver s'

/-- The switch of lines 297–387, with the control chain if there is one. -/
def sendSwitch (s : State) (a : SendArgs) (control : Option (List Control)) :
    Option (Option Errno × List Control × State) :=
  match (s.sock a.so).so_type with
  | .dgram => sendDgram s a (control.getD [])
  | .stream => sendStream s a control

/-- Lines 391–399: the rights that an error leaves in the chain are disposed of. -/
def sendFinish : Option Errno × List Control × State → State
  | (none, _, s) => { s with error := none }
  | (some e, left, s) =>
    { s with error := some e }.push ((left.flatMap Control.files).map Task.discard)

/-- `uipc_send`, without PRUS_EOF, which local sockets do not get; an error of `unp_internalize`
    leads to `release`, where the chain is freed. -/
def uipcSend (s : State) (a : SendArgs) : Option State :=
  if ¬ (s.sock a.so).so_pcb then some { s with error := some .einval }
  else if a.oob then some { s with error := some .eopnotsupp }
  else
    match a.control with
    | none => (sendSwitch s a none).map sendFinish
    | some m =>
      match unpInternalize s a.p m a.mbufs with
      | none => none
      | some (some e, _, s') => some { s' with error := some e }
      | some (none, chain, s') => (sendSwitch s' a (some chain)).map sendFinish

/-! ## `unp_externalize` and `soreceive` -/

/-- `fdavail(td, n)` (`kern/kern_descrip.c`). -/
def fdavail (nofile : ℕ) (ofiles : List (Option Fid)) (n : ℕ) : Bool :=
  let i := nofile - ofiles.length
  let free := (ofiles.take (min ofiles.length nofile)).count none
  (0 < i ∧ n ≤ i) ∨ (0 < free ∧ n - i ≤ free)

/-- `fdalloc` and the entry of the file: the first free slot, or a new one. -/
def fdinstall (fp : Fid) : List (Option Fid) → List (Option Fid)
  | [] => [some fp]
  | none :: l => some fp :: l
  | some x :: l => some x :: fdinstall fp l

/-- One descriptor is handed out (lines 1046–1056). -/
def install (p : Pid) (s : State) (fp : Fid) : State :=
  let t := s.setTable p (fdinstall fp (s.ofiles p))
  { t.setFile fp { t.file fp with f_msgcount := (t.file fp).f_msgcount - 1 } with
    unp_rights := t.unp_rights - 1 }

/-- `soreceive` takes the next control mbuf of the first record and hands it to `unp_externalize`;
    behind the last one, `more` tells whether data of the record is left in a stream. -/
def soreceive (s : State) (so : Sid) (p : Pid) (controlp : Bool) (mbufs : ℕ) (more : Bool) :
    State :=
  match (s.sock so).so_rcv with
  | [] => s
  | [] :: recs =>
    if (s.sock so).so_type = .stream ∧ more then s
    else s.setSock so { s.sock so with so_rcv := recs }
  | (c :: cs) :: recs =>
    let t := s.setSock so { s.sock so with so_rcv := cs :: recs }
    let fail (e : Errno) : State := { t with error := some e }.push
      (c.files.map Task.discard ++ [Task.recvFail so more])
    match c with
    | .rights fps =>
      if ¬ controlp then t.push (fps.map Task.discard ++ [.recv so p controlp mbufs more])
      else if ¬ fdavail (t.nofile p) (t.ofiles p) fps.length then fail .emsgsize
      else if ¬ sbcreatecontrol mbufs (BitVec.ofNat 32 fps.length * 4) then fail .e2big
      else (fps.foldl (install p) t).push [.recv so p controlp (mbufs - 1) more]
    | .other _ datalen =>
      if ¬ controlp then t.push [.recv so p controlp mbufs more]
      else if ¬ sbcreatecontrol mbufs datalen then fail .enobufs
      else t.push [.recv so p controlp (mbufs - 1) more]

/-- The rest of the record after an error: `sbdroprecord` on a socket with PR_ATOMIC. -/
def recvFail (s : State) (so : Sid) (more : Bool) : State :=
  match (s.sock so).so_rcv with
  | [] => s
  | rec :: recs =>
    if (s.sock so).so_type = .dgram ∨ (rec = [] ∧ ¬ more) then
      s.setSock so { s.sock so with so_rcv := recs }
    else s

/-! ## The machine -/

/-- The uppermost task. -/
def work (s : State) : Option State :=
  match s.tasks with
  | [] => none
  | t :: ts =>
    let s := { s with tasks := ts }
    match t with
    | .discard fp => some (unpDiscard s fp)
    | .closef fp => closef s fp
    | .ffree fp => some { s with filehead := s.filehead.erase fp }
    | .soclose so => some (soclose s so)
    | .soabort so => some (s.push [.unpDetach so, .sofree so])
    | .unpDetach so => some (unpDetach s so)
    | .sofree so => some (sofree s so)
    | .sorflush so => some (sorflush s so)
    | .gc => unpGc s
    | .gcFlush fp => some (gcFlush s fp)
    | .gcDone => some { s with unp_gcing := false }
    | .recv so p controlp mbufs more => some (soreceive s so p controlp mbufs more)
    | .recvFail so more => some (recvFail s so more)

/-- Calls, and the work on what they leave to do. -/
inductive Op
  | work
  | falloc (p : Pid) (fp : Fid) (f_data : Option Sid) (passable : Bool)
  | dup (p q : Pid) (fd : ℕ)
  | close (p : Pid) (fd : ℕ)
  | socket (so : Sid) (so_type : SoType)
  | listen (so : Sid)
  | connect (so : Sid) (nam : Name)
  | accept (p : Pid) (so : Sid) (fp : Fid)
  | send (a : SendArgs)
  | receive (so : Sid) (p : Pid) (controlp : Bool) (mbufs : ℕ) (more : Bool)
  | shutdown (so : Sid)

/-- `falloc`: a file that is not open gets one descriptor. -/
def falloc (s : State) (p : Pid) (fp : Fid) (f_data : Option Sid) (passable : Bool) :
    Option State :=
  if fp ∈ s.filehead then none
  else
    let t := s.setFile fp
      { f_count := 1, f_msgcount := 0, fmark := false, fdefer := false, f_data := f_data,
        passable := passable }
    some { t.setTable p (fdinstall fp (s.ofiles p)) with filehead := fp :: s.filehead }

/-- A second descriptor for the file of `fd`, in the table of `q`: `dup` or what `fork` does. -/
def dup (s : State) (p q : Pid) (fd : ℕ) : Option State :=
  match (s.ofiles p)[fd]? with
  | some (some fp) =>
    some ((s.setTable q (fdinstall fp (s.ofiles q))).setFile fp
      { s.file fp with f_count := (s.file fp).f_count + 1 })
  | _ => none

/-- `close`. -/
def close (s : State) (p : Pid) (fd : ℕ) : Option State :=
  match (s.ofiles p)[fd]? with
  | some (some fp) => some ((s.setTable p ((s.ofiles p).set fd none)).push [.closef fp])
  | _ => none

/-- An unconnected socket of the local domain. -/
def newSocket (so_type : SoType) : Socket where
  so_type := so_type
  prRights := true
  acceptconn := false
  isconnected := false
  cantsendmore := false
  so_pcb := true
  so_incomp := []
  so_comp := []
  so_rcv := []
  unp_conn := none

/-- A call; what it returns is in `error`. -/
def call (s : State) : Op → Option State
  | .work => none
  | .falloc p fp f_data passable => falloc s p fp f_data passable
  | .dup p q fd => dup s p q fd
  | .close p fd => close s p fd
  | .socket so so_type => if so ∈ s.socks then none else some (s.setSock so (newSocket so_type))
  | .listen so => some (s.setSock so { s.sock so with acceptconn := true })
  | .connect so nam => (unpConnect s so nam).map fun r => { r.2 with error := r.1 }
  | .accept p so fp =>
    match (s.sock so).so_comp with
    | [] => none
    | so3 :: rest => falloc (s.setSock so { s.sock so with so_comp := rest }) p fp (some so3) true
  | .send a => uipcSend s a
  | .receive so p controlp mbufs more => some (s.push [.recv so p controlp mbufs more])
  | .shutdown so => some (s.push [.sorflush so])

/-- A step. A call is made when nothing is left to do. -/
def step (s : State) (op : Op) : Option (State × Unit) :=
  match op with
  | .work => (work s).map (·, ())
  | op => if s.tasks = [] then (call { s with error := none } op).map (·, ()) else none

/-- No file is open. -/
def init : State where
  filehead := []
  file := fun _ => ⟨0, 0, false, false, none, false⟩
  socks := ∅
  sock := fun _ => newSocket .stream
  procs := ∅
  ofiles := fun _ => []
  nofile := fun _ => 64
  unp_rights := 0
  unp_defer := 0
  unp_gcing := false
  tasks := []
  error := none

end FreeBSD.UipcUsrreq
