import FreeBSD.Lib.Runs

/-!
# PPTP over GRE, `netgraph/ng_pptpgre.c`

The node that puts frames into GRE packets with sequence numbers and acknowledgements. Packets are
lists of bytes; of the GRE header that is sent there are the fields. `long` has 32 bits.

Each handler is one step: data comes in, a message comes in, a callout goes off. A callout that went
off is called later, with its argument, and meanwhile the timer may have been stopped or started
again. How long timers run is no part of this: they may go off at any time. The statistics and the
counters `timers` and `nd_refs` are left out, and so is the shutdown.

A step has no result where a time would be read or written outside of `timeSent`, or where a
`KASSERT` fails.

Results:
* `accepted_index`: where an acknowledgement that is accepted points.
-/

namespace FreeBSD.NgPptpgre

open BitVec

abbrev Byte := BitVec 8
abbrev Seq := BitVec 32

inductive Errno
  | EINVAL | ENXIO | ENOBUFS | EMSGSIZE | other
  deriving DecidableEq

/-- `struct ng_pptpgre_conf`. -/
structure Conf where
  enabled : Bool
  enableDelayedAck : Bool
  enableAlwaysAck : Bool
  cid : BitVec 16
  peerCid : BitVec 16
  recvWin : BitVec 16
  peerPpd : BitVec 16
  deriving DecidableEq

/-- The GRE header of a packet that is sent. -/
structure Gre where
  length : BitVec 16
  cid : BitVec 16
  seq : Option Seq
  ack : Option Seq
  deriving DecidableEq

/-- `PPTP_MAX_PAYLOAD`, and the bounds of times in milliseconds (lines 102-119). -/
def PPTP_MAX_PAYLOAD : ℕ := 0xffff - 8 - 8
def PPTP_TIME_SCALE : ℤ := 1000
def PPTP_XMIT_WIN : ℕ := 16
def PPTP_MIN_RTT : ℤ := 100
def PPTP_MIN_TIMEOUT : ℤ := 12
def PPTP_MAX_TIMEOUT : ℤ := 1000

/-- The private data of the node (lines 138-173), with its two callouts, those that went off and are
    not yet called, and the packets that were sent and the frames that were passed up since it was
    configured, the last ones first. -/
structure Node where
  conf : Conf
  ato : ℤ
  rtt : ℤ
  dev : ℤ
  xmitWin : BitVec 16
  sackTimer : Option ℕ
  rackTimer : Option ℕ
  sackTimerPtr : Option ℕ
  rackTimerPtr : Option ℕ
  winAck : Seq
  timeSent : List ℕ
  recvSeq : Seq
  xmitSeq : Seq
  recvAck : Seq
  xmitAck : Seq
  sackCalls : List ℕ
  rackCalls : List ℕ
  down : List (Gre × List Byte)
  up : List (Seq × List Byte)
  deriving DecidableEq

/-- `PPTP_SEQ_DIFF`. -/
def seqDiff (x y : Seq) : ℤ := (x - y).toInt

/-- A number as an `int` or a `long`. -/
def wrap (x : ℤ) : ℤ := (BitVec.ofInt 32 x).toInt

/-- What other code answers while a packet is sent: the time, whether there is memory for the
    header, the error of the lower hook, and what `malloc` returns for a timer. -/
structure Env where
  now : ℕ
  header : Bool
  lower : Option Errno
  mem : ℕ

/-! ## Timers -/

/-- `ng_pptpgre_start_recv_ack_timer` (lines 748-779). -/
def startRecvAckTimer (s : Node) (mem : ℕ) : Option Node :=
  if s.rackTimerPtr = none then some { s with rackTimerPtr := some mem, rackTimer := some mem }
  else none

/-- `ng_pptpgre_stop_recv_ack_timer` (lines 784-796). -/
def stopRecvAckTimer (s : Node) : Node := { s with rackTimer := none, rackTimerPtr := none }

/-- `ng_pptpgre_start_send_ack_timer` (lines 861-884). -/
def startSendAckTimer (s : Node) (mem : ℕ) : Option Node :=
  if s.sackTimerPtr = none then some { s with sackTimerPtr := some mem, sackTimer := some mem }
  else none

/-- `ng_pptpgre_stop_send_ack_timer` (lines 889-901). -/
def stopSendAckTimer (s : Node) : Node := { s with sackTimer := none, sackTimerPtr := none }

/-! ## Sending -/

/-- `ng_pptpgre_xmit` from behind the sequence number on (lines 510-561). -/
def xmitPacket (s : Node) (seq : Option Seq) (data : List Byte) (env : Env) :
    Option (Node × Option Errno) :=
  let hasAck : Bool := s.conf.enableAlwaysAck ∨ s.xmitAck ≠ s.recvSeq
  let gre : Gre := ⟨BitVec.ofNat 16 data.length, s.conf.peerCid, seq,
    if hasAck then some s.recvSeq else none⟩
  let s := if hasAck then stopSendAckTimer { s with xmitAck := s.recvSeq } else s
  if env.header then
    match env.lower with
    | some error => some (s, some error)
    | none =>
      let s := { s with down := (gre, data) :: s.down }
      if seq.isSome ∧ s.xmitSeq = s.recvAck + 1 then
        (startRecvAckTimer s env.mem).map (·, none)
      else some (s, none)
  else some (s, some .ENOBUFS)

/-- `ng_pptpgre_xmit` (lines 462-562), of a frame or of an acknowledgement alone. -/
def xmit (s : Node) (m : Option (List Byte)) (env : Env) : Option (Node × Option Errno) :=
  match m with
  | some m =>
    if s.xmitWin.toNat ≤ (s.xmitSeq - s.recvAck).toNat then some (s, some .ENOBUFS)
    else if PPTP_MAX_PAYLOAD < m.length then some (s, some .EMSGSIZE)
    else
      let index := (s.xmitSeq - s.recvAck).toNat
      if index < s.timeSent.length then
        let s := { s with timeSent := s.timeSent.set index env.now, xmitSeq := s.xmitSeq + 1 }
        xmitPacket s (some s.xmitSeq) m env
      else none
  | none => xmitPacket s none [] env

/-! ## Receiving -/

/-- A time-out within its bounds. -/
def clampAto (ato : ℤ) : ℤ :=
  let ato := if PPTP_MAX_TIMEOUT < ato then PPTP_MAX_TIMEOUT else ato
  if ato < PPTP_MIN_TIMEOUT then PPTP_MIN_TIMEOUT else ato

/-- The adaptive time-out after a sample (lines 655-665). -/
def adapt (s : Node) (sample : ℤ) : Node :=
  let diff := wrap (sample - s.rtt)
  let rtt := wrap (s.rtt + diff / 2 ^ 3)
  let diff := if diff < 0 then wrap (-diff) else diff
  let dev := wrap (s.dev + wrap (diff - s.dev) / 2 ^ 2)
  { s with rtt := rtt, dev := dev, ato := clampAto (wrap (rtt + wrap (dev * 2 ^ 2))) }

/-- The window grows after a whole window was acknowledged (lines 672-676). -/
def growWindow (s : Node) (ack : Seq) : Node :=
  if 0 ≤ seqDiff ack s.winAck ∧ s.xmitWin.toNat < PPTP_XMIT_WIN then
    let xmitWin := s.xmitWin + 1
    { s with xmitWin := xmitWin, winAck := ack + xmitWin.setWidth 32 }
  else s

/-- The times that are left after the first `n` ones, and behind them what was there (lines
    668-669). -/
def shiftTimes (times : List ℕ) (n : ℕ) : List ℕ :=
  times.drop n ++ times.drop (times.length - n)

/-- The acknowledgement of a packet (lines 637-682). -/
def recvAckOf (s : Node) (ack : Seq) (env : Env) : Option Node :=
  let index : ℤ := (ack - s.recvAck - 1).toInt
  if 0 < seqDiff ack s.xmitSeq then some s
  else if seqDiff ack s.recvAck ≤ 0 then some s
  else
    let s := { s with recvAck := ack }
    if 0 ≤ index ∧ index < s.timeSent.length then
      let s := adapt s (wrap (env.now - s.timeSent.getD index.toNat 0))
      let s := { s with timeSent := shiftTimes s.timeSent (index.toNat + 1) }
      let s := stopRecvAckTimer (growWindow s ack)
      if s.recvAck ≠ s.xmitSeq then startRecvAckTimer s env.mem else some s
    else none

/-- The acknowledgement of a frame that came in, at once or later (lines 699-719). -/
def ackSoon (s : Node) (env : Env) : Option Node :=
  if s.sackTimerPtr = none then
    if s.conf.enableDelayedAck then startSendAckTimer s env.mem
    else (xmit s none env).map Prod.fst
  else some s

/-- The data of a packet (lines 686-728). -/
def recvData (s : Node) (seq : Seq) (m : List Byte) (env : Env) :
    Option (Node × Option Errno) :=
  if seqDiff seq s.recvSeq ≤ 0 then some (s, some .EINVAL)
  else (ackSoon { s with recvSeq := seq } env).map fun s =>
    ({ s with up := (seq, m) :: s.up }, none)

/-- Fields in network byte order. -/
def be16 (m : List Byte) (ofs : ℕ) : BitVec 16 := m.getD ofs 0 ++ m.getD (ofs + 1) 0
def be32 (m : List Byte) (ofs : ℕ) : BitVec 32 := be16 m ofs ++ be16 m (ofs + 2)

/-- `PPTP_INIT_VALUE` and `PPTP_INIT_MASK`. -/
def PPTP_INIT_VALUE : BitVec 32 := 0x2001880b
def PPTP_INIT_MASK : BitVec 32 := 0xef7fffff

/-- What is read of an IP packet (lines 577-642, 686-687, 721-724): the acknowledgement, and the
    number of a frame with the frame. `pullup` is whether there is memory each time headers are made
    contiguous. -/
def readPacket (conf : Conf) (m : List Byte) (pullup : ℕ → Bool) :
    Except Errno (Option Seq × Option (Seq × List Byte)) :=
  if m.length < 20 + 8 then .error .EINVAL
  else if !pullup 0 then .error .ENOBUFS
  else
    let iphlen := (m.getD 0 0).toNat % 2 ^ 4 * 4
    if !pullup 1 ∨ m.length < iphlen + 8 then .error .ENOBUFS
    else
      let gre := m.drop iphlen
      let hasSeq : ℕ := (gre.getD 0 0).toNat / 2 ^ 4 % 2
      let hasAck : ℕ := (gre.getD 1 0).toNat / 2 ^ 7
      let grelen := 8 + 4 * (hasSeq + hasAck)
      if m.length < iphlen + grelen then .error .EINVAL
      else if !pullup 2 then .error .ENOBUFS
      else
        let extralen : ℤ := m.length - (iphlen + grelen + hasSeq * (be16 gre 4).toNat)
        if extralen < 0 then .error .EINVAL
        else if be32 gre 0 &&& PPTP_INIT_MASK ≠ PPTP_INIT_VALUE then .error .EINVAL
        else if be16 gre 6 ≠ conf.cid then .error .EINVAL
        else .ok (if hasAck = 1 then some (be32 gre (8 + 4 * hasSeq)) else none,
          if hasSeq = 1 then
            some (be32 gre 8, (m.drop (iphlen + grelen)).take (be16 gre 4).toNat)
          else none)

/-- `ng_pptpgre_recv` (lines 567-736); `env` is for the acknowledgement and `env'` for the data. -/
def recv (s : Node) (m : List Byte) (pullup : ℕ → Bool) (env env' : Env) :
    Option (Node × Option Errno) :=
  match readPacket s.conf m pullup with
  | .error e => some (s, some e)
  | .ok (ack, data) =>
    let acked :=
      match ack with
      | some ack => recvAckOf s ack env
      | none => some s
    acked.bind fun s =>
      match data with
      | some (seq, m) => recvData s seq m env'
      | none => some (s, none)

/-! ## Callouts and messages -/

/-- `ng_pptpgre_recv_ack_timeout` (lines 803-855). -/
def recvAckTimeout (s : Node) (arg : ℕ) : Node :=
  let s := { s with rackCalls := s.rackCalls.erase arg }
  if s.rackTimerPtr ≠ some arg then s
  else
    let rtt := wrap (s.rtt * 2)
    let xmitWin := BitVec.ofNat 16 ((s.xmitWin.toNat + 1) / 2)
    { s with
      rackTimerPtr := none
      rtt := rtt
      ato := clampAto (wrap (rtt + wrap (s.dev * 2 ^ 2)))
      recvAck := s.xmitSeq
      xmitWin := xmitWin
      winAck := s.xmitSeq + xmitWin.setWidth 32 }

/-- `ng_pptpgre_send_ack_timeout` (lines 909-941). -/
def sendAckTimeout (s : Node) (arg : ℕ) (env : Env) : Option Node :=
  let s := { s with sackCalls := s.sackCalls.erase arg }
  if s.sackTimerPtr ≠ some arg then some s
  else (xmit { s with sackTimerPtr := none } none env).map Prod.fst

/-- `ng_pptpgre_reset` (lines 950-984). -/
def reset (s : Node) : Node :=
  let rtt : ℤ := s.conf.peerPpd.toNat * PPTP_TIME_SCALE / 10
  let xmitWin := BitVec.ofNat 16 ((s.conf.recvWin.toNat + 1) / 2)
  let xmitWin := if xmitWin.toNat < 2 then 2 else xmitWin
  let xmitWin := if PPTP_XMIT_WIN < xmitWin.toNat then BitVec.ofNat 16 PPTP_XMIT_WIN else xmitWin
  stopRecvAckTimer (stopSendAckTimer { s with
    ato := PPTP_MAX_TIMEOUT
    rtt := if rtt < PPTP_MIN_RTT then PPTP_MIN_RTT else rtt
    dev := 0
    xmitWin := xmitWin
    winAck := xmitWin.setWidth 32
    recvSeq := -1
    recvAck := -1
    xmitSeq := -1
    xmitAck := -1
    down := []
    up := [] })

/-- `NGM_PPTPGRE_SET_CONFIG` (lines 344-355): the reset is by the configuration before. -/
def setConfig (s : Node) (newConf : Conf) : Node := { reset s with conf := newConf }

/-- `ng_pptpgre_constructor`. -/
def created : Node :=
  { conf := ⟨false, false, false, 0, 0, 0, 0⟩, ato := 0, rtt := 0, dev := 0, xmitWin := 0
    sackTimer := none, rackTimer := none, sackTimerPtr := none, rackTimerPtr := none, winAck := 0
    timeSent := List.replicate PPTP_XMIT_WIN 0, recvSeq := 0, xmitSeq := 0, recvAck := 0
    xmitAck := 0, sackCalls := [], rackCalls := [], down := [], up := [] }

/-! ## The machine -/

/-- What happens to a node. -/
inductive Op
  | upper (m : List Byte) (env : Env)
  | lower (m : List Byte) (pullup : ℕ → Bool) (env env' : Env)
  | setConfig (newConf : Conf)
  | rackFires
  | sackFires
  | rackCalled (arg : ℕ)
  | sackCalled (arg : ℕ) (env : Env)

/-- A step, with the error of the handler. `ng_pptpgre_rcvdata` rejects data while the node is not
    enabled (lines 397-415). -/
def step (s : Node) : Op → Option (Node × Option Errno)
  | .upper m env => if s.conf.enabled then xmit s (some m) env else some (s, some Errno.ENXIO)
  | .lower m pullup env env' =>
    if s.conf.enabled then recv s m pullup env env' else some (s, some Errno.ENXIO)
  | .setConfig newConf => some (setConfig s newConf, none)
  | .rackFires =>
    match s.rackTimer with
    | some arg => some ({ s with rackTimer := none, rackCalls := arg :: s.rackCalls }, none)
    | none => none
  | .sackFires =>
    match s.sackTimer with
    | some arg => some ({ s with sackTimer := none, sackCalls := arg :: s.sackCalls }, none)
    | none => none
  | .rackCalled arg => if arg ∈ s.rackCalls then some (recvAckTimeout s arg, none) else none
  | .sackCalled arg env =>
    if arg ∈ s.sackCalls then (sendAckTimeout s arg env).map (·, none) else none

/-! ## Sequence numbers -/

/-- The number of frames that are not acknowledged. -/
def outstanding (s : Node) : ℕ := (s.xmitSeq - s.recvAck).toNat

/-- The two tests that an acknowledgement passes (lines 646-651). -/
def Accepted (s : Node) (ack : Seq) : Prop :=
  seqDiff ack s.xmitSeq ≤ 0 ∧ 0 < seqDiff ack s.recvAck

theorem seq_split (ack x r : Seq) : ack - x = (ack - r) - (x - r) ∧ x - ack = (x - r) - (ack - r) ∧
    ack - r - 1 = (ack - r) - 1 := ⟨by bv_omega, by bv_omega, rfl⟩

/-- An acknowledgement that is accepted is for one of the frames that are not acknowledged. -/
theorem accepted_index {s : Node} {ack : Seq} (hout : outstanding s ≤ PPTP_XMIT_WIN)
    (h : Accepted s ack) :
    ∃ n, (ack - s.recvAck).toNat = n + 1 ∧ n < outstanding s ∧
      (ack - s.recvAck - 1).toInt = n ∧ (s.xmitSeq - ack).toNat = outstanding s - (n + 1) ∧
      ack = s.xmitSeq - BitVec.ofNat 32 (outstanding s - (n + 1)) := by
  unfold outstanding at hout ⊢
  obtain ⟨h₁, h₂⟩ := h
  unfold seqDiff at h₁ h₂
  obtain ⟨hx, hy, -⟩ := seq_split ack s.xmitSeq s.recvAck
  rw [hx] at h₁
  rw [hy]
  have hback : ack = s.xmitSeq - ((s.xmitSeq - s.recvAck) - (ack - s.recvAck)) := by bv_omega
  generalize hu : ack - s.recvAck = u at *
  generalize hD : s.xmitSeq - s.recvAck = D at *
  have hDlt := D.isLt
  have hult := u.isLt
  have hwin : D.toNat ≤ 16 := hout
  rw [toInt_eq_toNat_cond, toNat_sub] at h₁
  rw [toInt_eq_toNat_cond] at h₂
  have hpos : 1 ≤ u.toNat ∧ u.toNat < 2 ^ 31 := by
    split at h₂ <;> omega
  have hle : u.toNat ≤ D.toNat := by
    split at h₁ <;> omega
  have hsub : (D - u).toNat = D.toNat - u.toNat := by rw [toNat_sub]; omega
  have hone : (u - 1).toNat = u.toNat - 1 := by
    rw [toNat_sub]
    have : (1 : BitVec 32).toNat = 1 := rfl
    omega
  refine ⟨u.toNat - 1, by omega, by omega, ?_, by rw [hsub]; omega, ?_⟩
  · rw [toInt_eq_toNat_cond, hone]
    split <;> omega
  · rw [hback]
    congr 1
    refine eq_of_toNat_eq ?_
    rw [hsub, toNat_ofNat]; omega

end FreeBSD.NgPptpgre
