import Mathlib.Tactic

/-!
# Multi-link PPP, the output of `netgraph/ng_ppp.c`

A frame is divided among the active links, and each share again into fragments that fit. `int` and
`long` have 32 bits, and what leaves them is wrapped. Frames are lists of bytes; of the header of a
fragment there is the word, before it is put into network byte order.

Of the configuration there is what the output looks at; the input has no part in this. The
statistics are left out. `qsort` is any function that orders by keys if the comparison is their
difference.
-/

namespace FreeBSD.NgPpp

abbrev Byte := BitVec 8

inductive Errno
  | EINVAL | ENETDOWN | ENXIO | EMSGSIZE | ENOMEM
  deriving DecidableEq

/-- A number as an `int` and as an `unsigned int`. -/
def int (x : ℤ) : ℤ := (BitVec.ofInt 32 x).toInt
def uint (x : ℤ) : ℤ := (BitVec.ofInt 32 x).toNat

theorem int_eq {x : ℤ} (h : -2 ^ 31 ≤ x) (h' : x < 2 ^ 31) : int x = x := by
  unfold int
  rw [BitVec.toInt_ofInt]; exact Int.bmod_eq_of_le (by omega) (by omega)

theorem uint_eq {x : ℤ} (h : 0 ≤ x) (h' : x < 2 ^ 32) : uint x = x := by
  unfold uint
  rw [BitVec.toNat_ofInt]; omega

/-! ## The node -/

structure Timeval where
  sec : ℤ
  usec : ℤ
  deriving DecidableEq

/-- `struct ng_ppp_link_conf`. -/
structure LinkConf where
  enableLink : Bool
  enableProtoComp : Bool
  enableACFComp : Bool
  mru : BitVec 16
  latency : BitVec 32
  bandwidth : BitVec 32
  deriving DecidableEq

/-- `struct ng_ppp_bund_conf`. -/
structure BundConf where
  mrru : BitVec 16
  enableMultilink : Bool
  recvShortSeq : Bool
  xmitShortSeq : Bool
  enableRoundRobin : Bool
  deriving DecidableEq

/-- `struct ng_ppp_link`; `hook` is whether the link is connected. -/
structure Link where
  conf : LinkConf
  hook : Bool
  lastWrite : Timeval
  bytesInQueue : ℤ
  deriving DecidableEq

/-- `struct ng_ppp_private`. -/
structure Node where
  conf : BundConf
  links : ℕ → Link
  xseq : BitVec 32
  allLinksEqual : Bool
  activeLinks : List ℕ
  lastLink : BitVec 32

def NG_PPP_MAX_LINKS : ℕ := 16
def NG_PPP_MAX_LATENCY : ℕ := 1000
def NG_PPP_MAX_BANDWIDTH : ℕ := 125000
def MP_MIN_MRRU : ℕ := 1500
def MP_MIN_LINK_MRU : ℕ := 32
def MP_MIN_FRAG_LEN : ℕ := 6

def Node.setLink (s : Node) (i : ℕ) (l : Link) : Node :=
  { s with links := Function.update s.links i l }

/-! ## Configuration -/

/-- The tests on the configuration of a link (lines 2020-2029). -/
def linkValid (c : LinkConf) : Bool :=
  !c.enableLink ||
    (MP_MIN_LINK_MRU ≤ c.mru.toNat && c.bandwidth ≠ 0 &&
      c.bandwidth.toNat ≤ NG_PPP_MAX_BANDWIDTH && c.latency.toNat ≤ NG_PPP_MAX_LATENCY)

/-- `ng_ppp_config_valid` (lines 2007-2053). -/
def configValid (s : Node) (bund : BundConf) (links : ℕ → LinkConf) : Bool :=
  let newNumLinksActive :=
    (List.range NG_PPP_MAX_LINKS).countP fun i => (links i).enableLink && (s.links i).hook
  if !(List.range NG_PPP_MAX_LINKS).all fun i => linkValid (links i) then false
  else if bund.enableMultilink ∧ bund.mrru.toNat < MP_MIN_MRRU then false
  else if 0 < s.activeLinks.length ∧ 0 < newNumLinksActive ∧
      (s.conf.enableMultilink ≠ bund.enableMultilink ∨ s.conf.xmitShortSeq ≠ bund.xmitShortSeq ∨
        s.conf.recvShortSeq ≠ bund.recvShortSeq) then false
  else if !bund.enableMultilink ∧ 1 < newNumLinksActive then false
  else true

/-- The latency that a link gets for the header (lines 1945-1955). -/
def addLatency (bund : BundConf) (c : LinkConf) : LinkConf :=
  let hdrBytes : BitVec 32 := (if c.enableACFComp then 0 else 2) +
    (if c.enableProtoComp then 1 else 2) + (if bund.xmitShortSeq then 2 else 4)
  { c with latency := c.latency + (hdrBytes * c.bandwidth + 50) / 100 }

/-- The links that are up (lines 1963-1966). -/
def upLinks (links : ℕ → Link) : List ℕ :=
  (List.range NG_PPP_MAX_LINKS).filter fun i => (links i).conf.enableLink && (links i).hook

/-- `ng_ppp_update` (lines 1930-2001). -/
def update (s : Node) (newConf : Bool) : Node :=
  let links := fun i =>
    if newConf then { s.links i with conf := addLatency s.conf (s.links i).conf } else s.links i
  let activeLinks := upLinks links
  let first := (links (activeLinks.headD 0)).conf
  let s := { s with
    links := links
    activeLinks := activeLinks
    allLinksEqual := activeLinks.all fun i =>
      (links i).conf.latency = first.latency ∧ (links i).conf.bandwidth = first.bandwidth }
  if s.conf.enableMultilink ∧ 0 < activeLinks.length then s
  else { s with
    xseq := 0
    links := fun i => { s.links i with lastWrite := ⟨0, 0⟩, bytesInQueue := 0 } }

/-- `NGM_PPP_SET_CONFIG` (lines 479-495). -/
def setConfig (s : Node) (bund : BundConf) (links : ℕ → LinkConf) : Node × Option Errno :=
  if configValid s bund links then
    (update { s with conf := bund, links := fun i => { s.links i with conf := links i } } true,
      none)
  else (s, some .EINVAL)

/-! ## Shares of equal links -/

/-- `lastLink++ % numActiveLinks`, `n` times, with a share that is set (lines 1558-1560). -/
def assignLoop (links : ℕ) (fraction : ℤ) : ℕ → BitVec 32 → List ℤ → BitVec 32 × List ℤ
  | 0, lastLink, distrib => (lastLink, distrib)
  | n + 1, lastLink, distrib =>
    assignLoop links fraction n (lastLink + 1) (distrib.set (lastLink.toNat % links) fraction)

/-- The same with a share that grows by one byte (lines 1562-1565). -/
def remainLoop (links : ℕ) : ℕ → BitVec 32 → List ℤ → BitVec 32 × List ℤ
  | 0, lastLink, distrib => (lastLink, distrib)
  | n + 1, lastLink, distrib =>
    let i := lastLink.toNat % links
    remainLoop links n (lastLink + 1) (distrib.set i (distrib.getD i 0 + 1))

/-- The shares of links that are equal (lines 1553-1567); `junk` is what `distrib` holds before. -/
def equalShares (n len : ℕ) (lastLink : BitVec 32) (junk : List ℤ) : BitVec 32 × List ℤ :=
  let fraction := len / n
  let (lastLink, distrib) := assignLoop n fraction n lastLink junk
  remainLoop n (len - fraction * n) lastLink distrib

/-- All to one link (lines 1545-1550). -/
def roundRobin (n len : ℕ) (lastLink : BitVec 32) : BitVec 32 × List ℤ :=
  (lastLink + 1, (List.replicate n 0).set (lastLink.toNat % n) len)

/-! ## Shares by latency -/

/-- `qsort` with what is relied on. -/
structure Qsort where
  sort : (ℕ → ℕ → ℤ) → List ℕ → List ℕ
  perm : ∀ cmp l, (sort cmp l).Perm l
  ordered : ∀ cmp l (key : ℕ → ℤ), (∀ a ∈ l, ∀ b ∈ l, cmp a b = key a - key b) →
    (sort cmp l).Pairwise fun a b => key a ≤ key b

/-- `timevalsub`. -/
def timevalsub (a b : Timeval) : Timeval :=
  let sec := a.sec - b.sec
  let usec := a.usec - b.usec
  if usec < 0 then ⟨sec - 1, usec + 1000000⟩
  else if 1000000 ≤ usec then ⟨sec + 1, usec - 1000000⟩
  else ⟨sec, usec⟩

/-- The latency of a link with what waits in its queue, and what is left there (lines
    1768-1801). -/
def linkLatency (l : Link) (now : Timeval) : ℤ × ℤ :=
  let latency := int l.conf.latency.toNat
  let bandwidth : ℤ := l.conf.bandwidth.toNat
  if l.bytesInQueue = 0 then (latency, 0)
  else
    let diff := timevalsub now l.lastWrite
    if now.sec < 0 ∨ 10 ≤ diff.sec then (latency, 0)
    else
      let xmitBytes := int (uint (bandwidth * diff.sec) +
        uint (bandwidth * diff.usec.tdiv 1000) / 100)
      let bytesInQueue := int (l.bytesInQueue - xmitBytes)
      if bytesInQueue < 0 then (latency, 0)
      else (int (latency + uint (int (100 * bytesInQueue)) / bandwidth), bytesInQueue)

/-- A link with its latency and its bandwidth. -/
structure Load where
  latency : ℤ
  bandwidth : ℤ
  deriving DecidableEq

/-- The bytes that arrive on the links `pre` before the first one on the link `x` (lines
    1811-1819). -/
def flowTotal (x : Load) (pre : List Load) : ℤ :=
  pre.foldl (fun total y =>
    int (total + uint (int (x.latency - y.latency) * y.bandwidth + 99) / 100)) 0

/-- The search for the links that are used (lines 1809-1822), behind the links `pre`. -/
def interval (len : ℤ) (pre : List Load) : List Load → List Load
  | [] => pre
  | x :: rest => if len ≤ flowTotal x pre then pre else interval len (pre ++ [x]) rest

/-- `t0` (lines 1824-1832). -/
def solve (len : ℤ) (links : List Load) : ℤ :=
  let topSum := links.foldl (fun sum y => int (sum + int (y.latency * y.bandwidth))) 0
  let botSum := links.foldl (fun sum y => int (sum + y.bandwidth)) 0
  (int (int (int (len * 100) + topSum) + botSum.tdiv 2)).tdiv botSum

/-- What arrives on a link until `t0` (lines 1840-1841). -/
def share (t0 : ℤ) (y : Load) : ℤ :=
  (int (int (y.bandwidth * int (t0 - y.latency)) + 50)).tdiv 100

/-- The place at which a loop over `n` links ends that starts at the first one and goes to each that
    is better. -/
def scan (better : ℕ → ℕ → Bool) (n : ℕ) : ℕ :=
  (List.range (n - 1)).foldl (fun best i => if better best (i + 1) then i + 1 else best) 0

/-- The place of the fastest link (lines 1847-1859). -/
def fastest (links : List Load) : ℕ :=
  let bandwidth := fun i => (links.getD i ⟨0, 0⟩).bandwidth
  scan (fun fast i => bandwidth fast < bandwidth i) links.length

/-- The place of the slowest link that has bytes (lines 1862-1877). -/
def slowest (links : List Load) (distrib : List ℤ) : ℕ :=
  let bandwidth := fun i => (links.getD i ⟨0, 0⟩).bandwidth
  scan (fun slow i => distrib.getD slow 0 = 0 ∨
    (0 < distrib.getD i 0 ∧ bandwidth i < bandwidth slow)) links.length

/-- The loop that takes bytes away (lines 1861-1882), for a number of rounds. -/
def trim (links : List Load) : ℕ → List ℤ → ℤ → Option (List ℤ)
  | 0, _, _ => none
  | fuel + 1, distrib, excess =>
    if 0 < excess then
      let slow := slowest links distrib
      let delta := min excess (distrib.getD slow 0)
      trim links fuel (distrib.set slow (distrib.getD slow 0 - delta)) (excess - delta)
    else some distrib

/-- The shares of the links in the order of their latencies (lines 1809-1882). -/
def orderedShares (len : ℤ) : List Load → Option (List ℤ)
  | [] => some []
  | x :: rest =>
    let links := interval len [x] rest
    let distrib := links.map (share (solve len links))
    let total := distrib.foldl (fun total d => int (total + d)) 0
    if total < len then
      let fast := fastest links
      some (distrib.set fast (int (distrib.getD fast 0 + int (len - total))))
    else trim links (links.length + 1) distrib (int (total - len))

/-- The loads of the active links. -/
def loads (s : Node) (now : Timeval) : List Load :=
  s.activeLinks.map fun i =>
    ⟨(linkLatency (s.links i) now).1, (s.links i).conf.bandwidth.toNat⟩

/-- The queues after the latencies were computed. -/
def drainQueues (s : Node) (now : Timeval) : Node :=
  { s with links := fun i =>
      if i ∈ s.activeLinks then
        { s.links i with bytesInQueue := (linkLatency (s.links i) now).2 }
      else s.links i }

/-- `ng_ppp_mp_strategy` (lines 1743-1883). -/
def mpStrategy (q : Qsort) (s : Node) (now : Timeval) (len : ℤ) : Option (Node × List ℤ) :=
  if s.activeLinks.length = 1 then some (s, [len])
  else
    let loads := loads s now
    let latency := fun i => (loads.getD i ⟨0, 0⟩).latency
    let sortByLatency := q.sort (fun a b => int (latency a - latency b)) (List.range loads.length)
    (orderedShares len (sortByLatency.map fun i => loads.getD i ⟨0, 0⟩)).map fun shares =>
      (drainQueues s now,
        (List.range loads.length).map fun i => shares.getD (sortByLatency.idxOf i) 0)

end FreeBSD.NgPpp
