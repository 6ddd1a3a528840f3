import Mathlib.Tactic
import FreeBSD.Lib.Runs

/-!
# The SYN cache, `netinet/tcp_syncache.c`

An entry is on the chain of the bucket that its endpoints hash to and on the timer queue of its
slot, and each timer queue has a callout. All the functions run with `tcbinfo` locked, so an event
is a call of one of them; `ticks` is read once for it. Softclock takes a callout off its wheel first
and calls the handler then, which may have to wait for the lock, so these are two events.

What the callers and the callees decide is a part of the event: the segment, the answers of the
allocator and of `syncache_respond`, the socket that `syncache_socket` makes, the generation of a
listening socket, whether a cookie is a good one. `syncache_respond` returns without another event.
An entry is known by its address. `none` is the access through a null pointer.
-/

namespace FreeBSD.TcpSyncache

/-- `tcp_seq`, a `u_int32_t`. -/
abbrev TcpSeq := BitVec 32

/-- `SEQ_GEQ(a, b)` and `SEQ_LEQ(a, b)` (netinet/tcp_seq.h:45-47). -/
def seqGeq (a b : TcpSeq) : Bool := 0 ≤ (a - b).toInt
def seqLeq (a b : TcpSeq) : Bool := (a - b).toInt ≤ 0

/-- The four words of an address. An IPv4 address is the last one (`struct in_addr_4in6`). -/
structure Addr where
  w0 : BitVec 32
  w1 : BitVec 32
  w2 : BitVec 32
  w3 : BitVec 32
  deriving DecidableEq

/-- `struct in_conninfo` (netinet/in_pcb.h:99-105). -/
structure InConninfo where
  isipv6 : Bool
  fport : BitVec 16
  lport : BitVec 16
  faddr : Addr
  laddr : Addr
  deriving DecidableEq

/-- `ENDPTS_EQ` (lines 183-188). -/
def endptsEq (a b : InConninfo) : Bool :=
  a.fport == b.fport && a.lport == b.lport && a.faddr.w3 == b.faddr.w3 && a.laddr.w3 == b.laddr.w3

/-- `ENDPTS6_EQ` (line 190): all of `struct in_endpoints`, so without the protocol. -/
def endpts6Eq (a b : InConninfo) : Bool :=
  a.fport == b.fport && a.lport == b.lport && a.faddr == b.faddr && a.laddr == b.laddr

/-- What an entry that has `x` is filled with (lines 925-937, 1400-1412). -/
def InConninfo.fill (x inc : InConninfo) : InConninfo :=
  if inc.isipv6 then inc
  else { inc with
    faddr := { x.faddr with w3 := inc.faddr.w3 }
    laddr := { x.laddr with w3 := inc.laddr.w3 } }

/-- What `bzero` leaves. -/
def InConninfo.zero : InConninfo := ⟨false, 0, 0, ⟨0, 0, 0, 0⟩, ⟨0, 0, 0, 0⟩⟩

/-- The address of an entry. -/
abbrev Sid := ℕ

/-- `struct syncache` (netinet/tcp_var.h:215-239) without the links and what only the SYN,ACK has;
    of `sc_flags` there is `SCF_UNREACH`. -/
structure Syncache where
  sc_inp_gencnt : ℕ
  sc_tp : ℕ
  sc_inc : InConninfo
  sc_irs : TcpSeq
  sc_iss : TcpSeq
  sc_rxttime : ℕ
  sc_rxtslot : ℕ
  sc_wnd : ℕ
  unreach : Bool
  deriving DecidableEq

/-- `struct syncache_head` (netinet/tcp_var.h:241-244). -/
structure SyncacheHead where
  sch_bucket : List Sid
  sch_length : ℕ

/-- The flags and the time of a callout (sys/callout.h:48-57). In `called` softclock has taken it
    off the wheel and the handler has not got the lock yet. -/
structure Callout where
  active : Bool
  pending : Option ℕ
  called : Bool
  deriving DecidableEq

/-- `callout_reset` (kern/kern_timeout.c:336-363). -/
def Callout.reset (c : Callout) (ticks to_ticks : ℕ) : Callout :=
  { c with active := true, pending := some (ticks + max to_ticks 1) }

/-- `callout_stop` (kern/kern_timeout.c:365-392). -/
def Callout.stop (c : Callout) : Callout := { c with active := false, pending := none }

/-- `callout_deactivate` (sys/callout.h:79). -/
def Callout.deactivate (c : Callout) : Callout := { c with active := false }

/-- `SYNCACHE_MAXREXMTS` (line 130). -/
def maxRexmts : ℕ := 3

/-- `tcp_backoff` (netinet/tcp_timer.c:162-163). -/
def tcpBackoff : List ℕ := [1, 2, 4, 8, 16, 32, 64, 128, 256, 512, 512, 512, 512]

/-- What `syncache_init` and the tunables set, and `hz`. -/
structure Conf where
  hashmask : BitVec 32
  hash_secret : BitVec 32
  bucket_limit : ℕ
  cache_limit : ℕ
  hz : ℕ
  bucket_limit_pos : 0 < bucket_limit
  cache_limit_pos : 0 < cache_limit
  hz_pos : 0 < hz

/-- `struct tcp_syncache` (lines 136-149), the entries and the listening sockets. -/
structure State where
  conf : Conf
  hashbase : BitVec 32 → SyncacheHead
  cache_count : ℕ
  rexmt_limit : ℕ
  timerq : ℕ → List Sid
  tt_timerq : ℕ → Callout
  /-- The entries that `zone` has given out. -/
  zone : List Sid
  entry : Sid → Syncache
  /-- `ts_recent` of a `struct tcpcb`. -/
  ts_recent : ℕ → ℕ
  ticks : ℕ

/-- `SYNCACHE_HASH` and `SYNCACHE_HASH6` (lines 171-181), by protocol. -/
def Conf.hash (c : Conf) (inc : InConninfo) : BitVec 32 :=
  if inc.isipv6 then
    (c.hash_secret ^^^ inc.faddr.w0 ^^^ inc.faddr.w3 ^^^ inc.fport.setWidth 32 ^^^
      inc.lport.setWidth 32) &&& c.hashmask
  else
    (c.hash_secret ^^^ inc.faddr.w3 ^^^ (inc.faddr.w3 >>> 16) ^^^ inc.fport.setWidth 32 ^^^
      inc.lport.setWidth 32) &&& c.hashmask

/-- `TCPTV_RTOBASE * tcp_backoff[slot]` (netinet/tcp_timer.h:82). -/
def Conf.rto (c : Conf) (slot : ℕ) : ℕ := 3 * c.hz * tcpBackoff.getD slot 0

namespace State

variable (s : State)

def setEntry (sc : Sid) (x : Syncache) : State := { s with entry := Function.update s.entry sc x }

def setHead (b : BitVec 32) (h : SyncacheHead) : State :=
  { s with hashbase := Function.update s.hashbase b h }

def setQueue (i : ℕ) (q : List Sid) : State := { s with timerq := Function.update s.timerq i q }

def setCallout (i : ℕ) (c : Callout) : State :=
  { s with tt_timerq := Function.update s.tt_timerq i c }

/-- `TAILQ_REMOVE(&tcp_syncache.timerq[sc->sc_rxtslot], sc, sc_timerq)`. -/
def dequeue (sc : Sid) : State :=
  s.setQueue (s.entry sc).sc_rxtslot ((s.timerq (s.entry sc).sc_rxtslot).erase sc)

/-- `sc->sc_tp->ts_recent = ticks`. -/
def touch (sc : Sid) : State :=
  { s with ts_recent := Function.update s.ts_recent (s.entry sc).sc_tp s.ticks }

end State

/-- `uma_zalloc(tcp_syncache.zone, M_NOWAIT)`: no entry, or one that is not given out. -/
def zalloc (s : State) : Option Sid → Option Sid
  | none => none
  | some sc => if sc ∈ s.zone then none else some sc

/-- `SYNCACHE_TIMEOUT` (lines 192-200). -/
def syncacheTimeout (s : State) (sc : Sid) (slot : ℕ) : State :=
  let s := s.setEntry sc { s.entry sc with
    sc_rxtslot := slot, sc_rxttime := s.ticks + s.conf.rto slot }
  let s := s.setQueue slot (s.timerq slot ++ [sc])
  if (s.tt_timerq slot).active then s
  else s.setCallout slot ((s.tt_timerq slot).reset s.ticks (s.conf.rto slot))

/-- `syncache_free` (lines 202-209). -/
def syncacheFree (s : State) (sc : Sid) : State := { s with zone := s.zone.erase sc }

/-- The entry goes off its lists (lines 335-339). -/
def syncacheUnlink (s : State) (sc : Sid) (b : BitVec 32) : State :=
  let s := s.setHead b ⟨(s.hashbase b).sch_bucket.erase sc, (s.hashbase b).sch_length - 1⟩
  let s := { s with cache_count := s.cache_count - 1 }
  s.dequeue sc

/-- A queue that is empty needs no callout (lines 340-341). -/
def stopEmpty (s : State) (slot : ℕ) : State :=
  if s.timerq slot = [] then s.setCallout slot (s.tt_timerq slot).stop else s

/-- `syncache_drop` (lines 315-344); the bucket may be given. -/
def syncacheDrop (s : State) (sc : Sid) (sch : Option (BitVec 32)) : State :=
  let slot := (s.entry sc).sc_rxtslot
  let s := syncacheUnlink s sc (sch.getD (s.conf.hash (s.entry sc).sc_inc))
  syncacheFree (stopEmpty s slot) sc

/-- The front entry of the first queue that is not empty, from the one with the largest timeout
    down (lines 295-299, 902-906). -/
def oldest (s : State) : Option Sid := [3, 2, 1, 0].findSome? fun i => (s.timerq i).head?

/-- Room for a new entry (lines 280-303). -/
def syncacheRoom (s : State) (sch : BitVec 32) : Option State :=
  if s.conf.bucket_limit ≤ (s.hashbase sch).sch_length then
    match (s.hashbase sch).sch_bucket.head? with
    | none => none
    | some sc2 => some (syncacheDrop (s.touch sc2) sc2 (some sch))
  else if s.conf.cache_limit ≤ s.cache_count then
    match oldest s with
    | none => none
    | some sc2 => some (syncacheDrop (s.touch sc2) sc2 none)
  else some s

/-- The entry goes into the bucket (lines 308-311). -/
def syncacheLink (s : State) (sc : Sid) (sch : BitVec 32) : State :=
  let s := s.setHead sch
    ⟨(s.hashbase sch).sch_bucket ++ [sc], (s.hashbase sch).sch_length + 1⟩
  { s with cache_count := s.cache_count + 1 }

/-- `syncache_insert` (lines 266-313). -/
def syncacheInsert (s : State) (sc : Sid) (sch : BitVec 32) : Option State :=
  (syncacheRoom s sch).map fun s => syncacheLink (syncacheTimeout s sc 0) sc sch

/-- The loop of `syncache_timer` (lines 367-395), for the part of the queue from `nsc` on. `inpcb`
    gives the generation of the socket that a `struct tcpcb` belongs to. It ends with `nsc` and the
    entries that are retransmitted. -/
def syncacheTimerLoop (slot : ℕ) (inpcb : ℕ → Option ℕ) (s : State) :
    List Sid → State × Option Sid × List Sid
  | [] => (s, none, [])
  | sc :: rest =>
    if s.ticks < (s.entry sc).sc_rxttime then (s, some sc, [])
    else if slot = maxRexmts ∨ s.rexmt_limit ≤ slot ∨
        inpcb (s.entry sc).sc_tp ≠ some (s.entry sc).sc_inp_gencnt then
      syncacheTimerLoop slot inpcb (syncacheDrop s sc none) rest
    else
      let s := s.setQueue slot ((s.timerq slot).erase sc)
      let (s, nsc, sent) := syncacheTimerLoop slot inpcb (syncacheTimeout s sc (slot + 1)) rest
      (s, nsc, sc :: sent)

/-- `syncache_timer` (lines 350-400). -/
def syncacheTimer (s : State) (slot : ℕ) (inpcb : ℕ → Option ℕ) : State × List Sid :=
  let c := s.tt_timerq slot
  if c.pending.isSome ∨ c.active = false then (s, [])
  else
    let s := s.setCallout slot c.deactivate
    match syncacheTimerLoop slot inpcb s (s.timerq slot) with
    | (s, none, sent) => (s, sent)
    | (s, some nsc, sent) =>
      (s.setCallout slot
        ((s.tt_timerq slot).reset s.ticks ((s.entry nsc).sc_rxttime - s.ticks)), sent)

/-- `syncache_lookup` (lines 405-440): the bucket and the entry. -/
def syncacheLookup (s : State) (inc : InConninfo) : BitVec 32 × Option Sid :=
  let sch := s.conf.hash inc
  if inc.isipv6 then
    (sch, (s.hashbase sch).sch_bucket.find? fun sc => endpts6Eq inc (s.entry sc).sc_inc)
  else
    (sch, (s.hashbase sch).sch_bucket.find? fun sc =>
      !(s.entry sc).sc_inc.isipv6 && endptsEq inc (s.entry sc).sc_inc)

/-- `syncache_chkrst` (lines 447-478). -/
def syncacheChkrst (s : State) (inc : InConninfo) (th_seq : TcpSeq) : State :=
  match syncacheLookup s inc with
  | (_, none) => s
  | (sch, some sc) =>
    let x := s.entry sc
    if seqGeq th_seq x.sc_irs && seqLeq th_seq (x.sc_irs + BitVec.ofNat 32 x.sc_wnd) then
      syncacheDrop s sc (some sch)
    else s

/-- `syncache_badack` (lines 480-494). -/
def syncacheBadack (s : State) (inc : InConninfo) : State :=
  match syncacheLookup s inc with
  | (_, none) => s
  | (sch, some sc) => syncacheDrop s sc (some sch)

/-- `syncache_unreach` (lines 496-529), `th_seq` in host order. -/
def syncacheUnreach (s : State) (inc : InConninfo) (th_seq : TcpSeq) : State :=
  match syncacheLookup s inc with
  | (_, none) => s
  | (sch, some sc) =>
    let x := s.entry sc
    if th_seq ≠ x.sc_iss then s
    else if x.unreach = false ∨ x.sc_rxtslot < 3 then s.setEntry sc { x with unreach := true }
    else syncacheDrop s sc (some sch)

/-- What `syncache_expand` is called with and what its callees answer. -/
structure Ack where
  inc : InConninfo
  th_seq : TcpSeq
  th_ack : TcpSeq
  /-- The listening socket. -/
  so : ℕ
  /-- `tcp_syncookies`, and whether the segment has a good cookie. -/
  syncookies : Bool
  cookie : Bool
  wnd : ℕ
  mem : Option Sid
  /-- What `syncache_socket` makes. -/
  socket : Option ℕ

/-- `syncookie_lookup` (lines 1348-1424) from where the cookie is tested. -/
def syncookieLookup (s : State) (a : Ack) : Option (State × Sid) :=
  if a.cookie then
    (zalloc s a.mem).map fun sc =>
      (({ s with zone := sc :: s.zone } : State).setEntry sc { s.entry sc with
        sc_inc := (s.entry sc).sc_inc.fill a.inc, sc_irs := a.th_seq - 1, sc_iss := a.th_ack - 1,
          sc_wnd := a.wnd,
        unreach := false, sc_rxtslot := 0 }, sc)
  else none

/-- The return value and `*sop`. -/
structure Ret where
  val : Bool
  sop : Option ℕ
  deriving DecidableEq

/-- `syncache_expand` from the test of `th_ack` (lines 778-803). -/
def syncacheComplete (s : State) (a : Ack) (sc : Sid) (sch : Option (BitVec 32)) : State × Ret :=
  if a.th_ack ≠ (s.entry sc).sc_iss + 1 then (s, ⟨false, some a.so⟩)
  else
    match sch with
    | none => (syncacheFree s sc, ⟨true, a.socket⟩)
    | some sch => (syncacheDrop s sc (some sch), ⟨true, a.socket⟩)

/-- `syncache_expand` (lines 745-803). -/
def syncacheExpand (s : State) (a : Ack) : State × Ret :=
  match syncacheLookup s a.inc with
  | (sch, some sc) => syncacheComplete s a sc (some sch)
  | (_, none) =>
    if a.syncookies then
      match syncookieLookup s a with
      | none => (s, ⟨false, some a.so⟩)
      | some (s, sc) => syncacheComplete s a sc none
    else (s, ⟨false, some a.so⟩)

/-- What `syncache_add` is called with and what its callees answer. -/
structure Syn where
  inc : InConninfo
  th_seq : TcpSeq
  /-- The listening socket, its `struct tcpcb` and the generation of its `struct inpcb`. -/
  so : ℕ
  tp : ℕ
  gencnt : ℕ
  /-- The first and the second answer of the allocator. -/
  mem : Option Sid
  mem' : Option Sid
  iss : TcpSeq
  wnd : ℕ
  /-- The TAO test is met, and what `syncache_socket` makes then. -/
  tao : Bool
  socket : Option ℕ
  /-- `syncache_respond` returns 0. -/
  responds : Bool

/-- `syncache_add` for a connection that has an entry (lines 857-892). -/
def syncacheDupsyn (s : State) (a : Syn) (sc : Sid) : State :=
  let s := s.setEntry sc { s.entry sc with sc_tp := a.tp, sc_inp_gencnt := a.gencnt }
  if a.responds then syncacheTimeout (s.dequeue sc) sc (s.entry sc).sc_rxtslot else s

/-- The allocation (lines 894-916): the oldest entry makes room where the zone has no other. -/
def syncacheAlloc (s : State) (a : Syn) : Option (State × Option Sid) :=
  match zalloc s a.mem with
  | some sc => some ({ s with zone := sc :: s.zone }, some sc)
  | none =>
    match oldest s with
    | none => none
    | some sc2 =>
      let s := syncacheDrop (s.touch sc2) sc2 none
      match zalloc s a.mem' with
      | some sc => some ({ s with zone := sc :: s.zone }, some sc)
      | none => some (s, none)

/-- The new entry (lines 921-950). -/
def Syn.entry (a : Syn) : Syncache where
  sc_inp_gencnt := a.gencnt
  sc_tp := a.tp
  sc_inc := InConninfo.zero.fill a.inc
  sc_irs := a.th_seq
  sc_iss := a.iss
  sc_rxttime := 0
  sc_rxtslot := 0
  sc_wnd := a.wnd
  unreach := false

/-- `syncache_add` from where the new entry is filled in (lines 921-1054). -/
def syncacheEnter (s : State) (a : Syn) (sc : Sid) (sch : BitVec 32) : Option (State × Ret) :=
  let s := s.setEntry sc a.entry
  if a.tao then
    some (syncacheFree s sc, ⟨a.socket.isSome, a.socket.or (some a.so)⟩)
  else if a.responds then
    (syncacheInsert s sc sch).map fun s => (s, ⟨true, none⟩)
  else some (syncacheFree s sc, ⟨true, none⟩)

/-- `syncache_add` (lines 818-1055). -/
def syncacheAdd (s : State) (a : Syn) : Option (State × Ret) :=
  match syncacheLookup s a.inc with
  | (_, some sc) => some (syncacheDupsyn s a sc, ⟨true, none⟩)
  | (sch, none) =>
    match syncacheAlloc s a with
    | none => none
    | some (s, none) => some (s, ⟨false, some a.so⟩)
    | some (s, some sc) => syncacheEnter s a sc sch

/-! ## The events -/

inductive Event
  | add (a : Syn)
  | expand (a : Ack)
  | chkrst (inc : InConninfo) (th_seq : TcpSeq)
  | badack (inc : InConninfo)
  | unreach (inc : InConninfo) (th_seq : TcpSeq)
  /-- Softclock takes the callout of a queue off its wheel. -/
  | fire (slot : ℕ)
  /-- The handler that softclock calls gets the lock. -/
  | timer (slot : ℕ) (inpcb : ℕ → Option ℕ)
  /-- `hardclock`. -/
  | tick
  /-- `net.inet.tcp.syncache.rexmtlimit` is written. -/
  | rexmtlimit (n : ℕ)

/-- What an event answers: nothing, what a function returns, the entries that are sent again. -/
inductive Answer
  | done
  | ret (r : Ret)
  | sent (l : List Sid)
  deriving DecidableEq

def step (s : State) : Event → Option (State × Answer)
  | .add a => (syncacheAdd s a).map fun (s, r) => (s, .ret r)
  | .expand a => let (s, r) := syncacheExpand s a; some (s, .ret r)
  | .chkrst inc th_seq => some (syncacheChkrst s inc th_seq, .done)
  | .badack inc => some (syncacheBadack s inc, .done)
  | .unreach inc th_seq => some (syncacheUnreach s inc th_seq, .done)
  | .fire slot =>
    let c := s.tt_timerq slot
    match c.pending with
    | none => none
    | some t =>
      if t ≤ s.ticks ∧ c.called = false then
        some (s.setCallout slot { c with pending := none, called := true }, .done)
      else none
  | .timer slot inpcb =>
    let c := s.tt_timerq slot
    if c.called then
      let (s, sent) := syncacheTimer (s.setCallout slot { c with called := false }) slot inpcb
      some (s, .sent sent)
    else none
  | .tick => some ({ s with ticks := s.ticks + 1 }, .done)
  | .rexmtlimit n => some ({ s with rexmt_limit := n }, .done)

/-- After `syncache_init` (lines 211-264). -/
def init (conf : Conf) (rexmt_limit ticks : ℕ) (entry : Sid → Syncache) (ts_recent : ℕ → ℕ) :
    State where
  conf := conf
  hashbase _ := ⟨[], 0⟩
  cache_count := 0
  rexmt_limit := rexmt_limit
  timerq _ := []
  tt_timerq _ := ⟨false, none, false⟩
  zone := []
  entry := entry
  ts_recent := ts_recent
  ticks := ticks

end FreeBSD.TcpSyncache
