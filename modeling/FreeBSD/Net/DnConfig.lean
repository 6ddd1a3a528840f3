import FreeBSD.Lib.Runs
import Mathlib.Data.BitVec
import Mathlib.Data.List.TakeWhile

/-!
# Configuration of dummynet

`config_pipe` of `netinet/ip_dummynet.c` (lines 1556–1673) with `config_red`, `alloc_hash` and
`set_fs_parms` (lines 1455–1550). An `int` is a word of 32 bits. A result `none` stands for a
division by zero. What `free` is called with is listed; lookup tables, to which nothing but their
flow set refers, are left out of that list. A flow set that has been freed keeps its contents.

Results:
* `config_run`: any requests keep the lists of the configuration in order.
* `config_pipe_iff`: when the call does what it should. It returns with the lock held for a new pipe
  without memory and for a parent that is missing or not the same; the thresholds of RED are
  divisors; and the flow set of which the lookup table cannot be made is freed.
* `config_queue_locked`: the lock is held after a request for a queue without a parent.
-/

namespace FreeBSD.DnConfig

open List Option BitVec

/-! ## Data -/

/-- `int` and `u_int`. -/
abbrev Word := BitVec 32

/-- `struct ipfw_flow_id` (`ip_dummynet.h`). -/
structure FlowId where
  dst_ip : Word
  src_ip : Word
  dst_port : BitVec 16
  src_port : BitVec 16
  proto : BitVec 8
  flags : BitVec 8
deriving DecidableEq

/-- `struct dn_flow_queue`, as far as it is configured. -/
structure FlowQueue where
  addr : ℕ
  numbytes : ℕ
deriving DecidableEq

/-- `struct dn_flow_set` (lines 246–308). `addr` is where the set is: for the set inside a pipe, the
    address of the pipe. -/
structure FlowSet where
  addr : ℕ
  fs_nr : BitVec 16
  flags_fs : BitVec 16
  parent_nr : BitVec 16
  weight : Word
  qsize : Word
  plr : Word
  flow_mask : FlowId
  rq_size : Word
  rq_elements : Word
  rq : Option (List (List FlowQueue))
  w_q : Word
  max_th : Word
  min_th : Word
  max_p : Word
  c_1 : Word
  c_2 : Word
  c_3 : Word
  c_4 : Word
  w_q_lookup : Option (List Word)
  lookup_depth : Word
  lookup_step : Word
  lookup_weight : Word
  avg_pkt_size : Word
  max_pkt_size : Word
deriving DecidableEq

/-- `struct dn_pipe` (lines 325–356), as far as it is configured. -/
structure Pipe where
  addr : ℕ
  pipe_nr : Word
  bandwidth : Word
  delay : Word
  numbytes : Word
  if_name : List (BitVec 8)
  ifp : Option ℕ
  fs : FlowSet
deriving DecidableEq

/-- A pointer to an object: `pipeFs` is `&pipe->fs`. -/
inductive Ptr where
  | pipe (a : ℕ) | pipeFs (a : ℕ) | flowSet (a : ℕ) | queue (a : ℕ)
deriving DecidableEq

/-- The variables behind the sysctls. -/
structure Sysctl where
  hz : Word
  dn_hash_size : Word
  red_lookup_depth : Word
  red_avg_pkt_size : Word
  red_max_pkt_size : Word
deriving DecidableEq

/-- The configuration; `heaps` has what is in `ready_heap`, `wfq_ready_heap`, `extract_heap` and the
    heaps of the pipes, and `mtx` whether `dummynet_mtx` is held. -/
structure State where
  mtx : Bool
  all_pipes : List Pipe
  all_flow_sets : List FlowSet
  heaps : List Ptr
  sysctl : Sysctl
deriving DecidableEq

inductive Errno where
  | ok | EINVAL | ENOSPC
deriving DecidableEq

/-- What `malloc` answers: for the pipe or flow set, for the lookup table and for the hash table. -/
structure Mallocs where
  obj : Option ℕ
  table : Bool
  hash : Bool
deriving DecidableEq

/-- What the call returns, the configuration that it leaves and what it has freed. -/
structure Result where
  errno : Errno
  state : State
  freed : List Ptr
deriving DecidableEq

/-! ## Model -/

def dnHaveFlowMask : BitVec 16 := 0x0001
def dnIsRed : BitVec 16 := 0x0002
def dnIsGentleRed : BitVec 16 := 0x0004
def dnQsizeIsBytes : BitVec 16 := 0x0008

/-- `DN_MAX_HASH_SIZE`. -/
def dnMaxHashSize : Word := 65536

/-- `SCALE`. -/
def scale (x : Word) : Word := x <<< 16

/-- `SCALE_MUL`, of which one factor is unsigned. -/
def scaleMul (x y : Word) : Word := (x * y) >>> 16

/-- The thresholds (lines 1460–1471). -/
def redThresholds (p x : FlowSet) : Option FlowSet :=
  let x := { x with
    w_q := p.w_q, min_th := scale p.min_th, max_th := scale p.max_th, max_p := p.max_p }
  if p.max_th - p.min_th = 0 then none
  else
    let c_1 := p.max_p.sdiv (p.max_th - p.min_th)
    let x := { x with c_1 := c_1, c_2 := scaleMul c_1 (scale p.min_th) }
    if x.flags_fs &&& dnIsGentleRed ≠ 0 then
      if p.max_th = 0 then none
      else some { x with
        c_3 := (scale 1 - p.max_p).sdiv p.max_th, c_4 := scale 1 - 2 * p.max_p }
    else some x

/-- The lookup table (lines 1473–1503). -/
def redTable (table : Bool) (p x : FlowSet) (g : Sysctl) : Errno × FlowSet × Sysctl :=
  let x := { x with w_q_lookup := none }
  if g.red_lookup_depth = 0 then (.EINVAL, x, g)
  else
    let x := { x with lookup_depth := g.red_lookup_depth }
    if table = false then (.ENOSPC, x, g)
    else
      let avg := if g.red_avg_pkt_size.slt 1 then 512 else g.red_avg_pkt_size
      let max := if g.red_max_pkt_size.slt 1 then 1500 else g.red_max_pkt_size
      (.ok,
        { x with
          lookup_step := p.lookup_step
          lookup_weight := p.lookup_weight
          w_q_lookup := some (List.iterate (fun v => scaleMul v p.lookup_weight) (scale 1 - x.w_q)
            x.lookup_depth.toNat)
          avg_pkt_size := avg
          max_pkt_size := max },
        { g with red_avg_pkt_size := avg, red_max_pkt_size := max })

/-- `config_red(p, x)`: where it does not return 0, `x` is freed. -/
def config_red (table : Bool) (p x : FlowSet) (g : Sysctl) : Option (Errno × FlowSet × Sysctl) :=
  (redThresholds p x).map fun x => redTable table p x g

/-- The number of slots (lines 1511–1519). -/
def hashSize (x pfs : FlowSet) (g : Sysctl) : Word :=
  if x.flags_fs &&& dnHaveFlowMask ≠ 0 then
    let l := if pfs.rq_size = 0 then g.dn_hash_size else pfs.rq_size
    if l.slt 4 then 4 else if dnMaxHashSize.slt l then dnMaxHashSize else l
  else 1

/-- `alloc_hash(x, pfs)`. -/
def alloc_hash (hash : Bool) (x pfs : FlowSet) (g : Sysctl) : Errno × FlowSet :=
  let x := { x with rq_size := hashSize x pfs g }
  if hash then
    (.ok, { x with rq := some (List.replicate (1 + x.rq_size.toNat) []), rq_elements := 0 })
  else (.ENOSPC, x)

/-- `qsize` within its limits (lines 1536–1544). -/
def limitQsize (flags_fs : BitVec 16) (qsize : Word) : Word :=
  if flags_fs &&& dnQsizeIsBytes ≠ 0 then
    if (1024 * 1024 : Word).slt qsize then 1024 * 1024 else qsize
  else if qsize = 0 ∨ (100 : Word).slt qsize then 50
  else qsize

/-- The parameters without those of RED (lines 1532–1544). -/
def copyParms (x src : FlowSet) : FlowSet :=
  { x with
    flags_fs := src.flags_fs
    qsize := limitQsize src.flags_fs src.qsize
    plr := src.plr
    flow_mask := src.flow_mask }

/-- `set_fs_parms(x, src)`; whether `config_red` has freed `x`. -/
def set_fs_parms (table : Bool) (x src : FlowSet) (g : Sysctl) :
    Option (FlowSet × Sysctl × Bool) :=
  let x := copyParms x src
  if x.flags_fs &&& dnIsRed ≠ 0 then
    -- the error is not looked at
    (config_red table src x g).map fun r => (r.2.1, r.2.2, decide (r.1 ≠ .ok))
  else some (x, g, false)

/-- A number of a pipe or flow set found in its list: what is before it, and the rest
    (lines 1585–1586 and 1631–1632). -/
def locate {α : Type} (nr : α → ℤ) (n : ℤ) (l : List α) : List α × List α :=
  l.span fun b => nr b < n

/-- `malloc(…, M_ZERO)` for a flow set. -/
def zeroFlowSet (a : ℕ) : FlowSet where
  addr := a
  fs_nr := 0
  flags_fs := 0
  parent_nr := 0
  weight := 0
  qsize := 0
  plr := 0
  flow_mask := ⟨0, 0, 0, 0, 0, 0⟩
  rq_size := 0
  rq_elements := 0
  rq := none
  w_q := 0
  max_th := 0
  min_th := 0
  max_p := 0
  c_1 := 0
  c_2 := 0
  c_3 := 0
  c_4 := 0
  w_q_lookup := none
  lookup_depth := 0
  lookup_step := 0
  lookup_weight := 0
  avg_pkt_size := 0
  max_pkt_size := 0

/-- `malloc(…, M_ZERO)` for a pipe. -/
def zeroPipe (a : ℕ) : Pipe where
  addr := a
  pipe_nr := 0
  bandwidth := 0
  delay := 0
  numbytes := 0
  if_name := []
  ifp := none
  fs := zeroFlowSet a

/-- A new pipe (lines 1589–1598). -/
def newPipe (a : ℕ) (p : Pipe) : Pipe := { zeroPipe a with pipe_nr := p.pipe_nr }

/-- A new flow set (lines 1642–1648). -/
def newFlowSet (a : ℕ) (pfs : FlowSet) : FlowSet :=
  { zeroFlowSet a with
    fs_nr := pfs.fs_nr
    parent_nr := pfs.parent_nr
    weight := if pfs.weight = 0 then 1 else if (100 : Word).slt pfs.weight then 100 else pfs.weight
      }

/-- The accumulated credit of all queues is flushed (lines 1601–1604). -/
def flushCredit (x : Pipe) : Pipe :=
  { x with fs := { x.fs with
    rq := x.fs.rq.map fun rq => rq.map fun slot => slot.map fun q => { q with numbytes := 0 } } }

/-- The parameters of a pipe, without those of its flow set (lines 1607–1611). -/
def setPipeParms (x p : Pipe) (delay : Word) : Pipe :=
  { x with
    bandwidth := p.bandwidth
    numbytes := 0
    if_name := p.if_name
    ifp := none
    delay := delay }

namespace State

def lock (s : State) : State := { s with mtx := true }
def unlock (s : State) : State := { s with mtx := false }

end State

def freedIf (b : Bool) (q : Ptr) : List Ptr := if b then [q] else []

/-- The parameters of a flow set `x`, and its hash table where it is new (lines 1612–1628 and
    1655–1670). `put` puts the set into its list, `ptr` points to it and `own` to what `malloc`
    gave. -/
def finish (m : Mallocs) (s : State) (x pfs : FlowSet) (put : FlowSet → State → State)
    (ptr own : Ptr) : Option Result :=
  (set_fs_parms m.table x pfs s.sysctl).map fun (x, g, freed) =>
    let s := { s with sysctl := g }
    match x.rq with
    | some _ => ⟨.ok, (put x s).unlock, freedIf freed ptr⟩
    | none =>
      match alloc_hash m.hash x pfs g with
      | (.ok, x) => ⟨.ok, (put x s).unlock, freedIf freed ptr⟩
      | (r, _) => ⟨r, s.unlock, freedIf freed ptr ++ [own]⟩

/-- The rest for a pipe `x` between `before` and `after` (lines 1607–1628). -/
def finishPipe (m : Mallocs) (s : State) (p : Pipe) (delay : Word) (before after : List Pipe)
    (x : Pipe) : Option Result :=
  let x := setPipeParms x p delay
  finish m s x.fs p.fs (fun fs s => { s with all_pipes := before ++ { x with fs := fs } :: after })
    (.pipeFs x.addr) (.pipe x.addr)

/-- A request for a pipe (lines 1580–1628). -/
def configPipe (m : Mallocs) (s : State) (p : Pipe) (delay : Word) : Option Result :=
  let s := s.lock
  let new (before after : List Pipe) : Option Result :=
    match m.obj with
    | none => some ⟨.ENOSPC, s, []⟩
    | some a => finishPipe m s p delay before after (newPipe a p)
  match locate (fun b => b.pipe_nr.toInt) p.pipe_nr.toInt s.all_pipes with
  | (before, []) => new before []
  | (before, b :: after) =>
    if b.pipe_nr ≠ p.pipe_nr then new before (b :: after)
    else finishPipe m s p delay before after (flushCredit b)

/-- The rest for a flow set `x` between `before` and `after` (lines 1655–1670). -/
def finishFlowSet (m : Mallocs) (s : State) (pfs : FlowSet) (before after : List FlowSet)
    (x : FlowSet) : Option Result :=
  finish m s x pfs (fun x s => { s with all_flow_sets := before ++ x :: after })
    (.flowSet x.addr) (.flowSet x.addr)

/-- A request for a queue (lines 1629–1670). -/
def configFlowSet (m : Mallocs) (s : State) (pfs : FlowSet) : Option Result :=
  let s := s.lock
  let new (before after : List FlowSet) : Option Result :=
    if pfs.parent_nr = 0 then some ⟨.EINVAL, s, []⟩
    else
      match m.obj with
      | none => some ⟨.ENOSPC, s.unlock, []⟩
      | some a => finishFlowSet m s pfs before after (newFlowSet a pfs)
  match locate (fun b => b.fs_nr.toNat) pfs.fs_nr.toNat s.all_flow_sets with
  | (before, []) => new before []
  | (before, b :: after) =>
    if b.fs_nr ≠ pfs.fs_nr then new before (b :: after)
    else if pfs.parent_nr ≠ 0 ∧ b.parent_nr ≠ pfs.parent_nr then some ⟨.EINVAL, s, []⟩
    else finishFlowSet m s pfs before after b

/-- `config_pipe(p)`. -/
def config_pipe (m : Mallocs) (s : State) (p : Pipe) : Option Result :=
  let delay := (p.delay * s.sysctl.hz).sdiv 1000
  if p.pipe_nr = 0 ∧ p.fs.fs_nr = 0 then some ⟨.EINVAL, s, []⟩
  else if p.pipe_nr ≠ 0 ∧ p.fs.fs_nr ≠ 0 then some ⟨.EINVAL, s, []⟩
  else if p.pipe_nr ≠ 0 then configPipe m s p delay
  else configFlowSet m s p.fs

/-! ## RED -/

variable {m : Mallocs} {s : State} {p : Pipe} {x src : FlowSet} {g : Sysctl} {table : Bool}

/-- The request asks for RED. -/
def Red (src : FlowSet) : Prop := src.flags_fs &&& dnIsRed ≠ 0

/-- The thresholds can be divisors. -/
def Divisors (src : FlowSet) : Prop :=
  src.max_th ≠ src.min_th ∧ (src.flags_fs &&& dnIsGentleRed ≠ 0 → src.max_th ≠ 0)

/-- The lookup table cannot be made. -/
def NoTable (table : Bool) (g : Sysctl) : Prop := g.red_lookup_depth = 0 ∨ table = false

/-- What a configuration of the parameters leaves of a flow set. -/
structure SameSet (x y : FlowSet) : Prop where
  addr : y.addr = x.addr
  fs_nr : y.fs_nr = x.fs_nr
  rq : y.rq = x.rq

theorem redThresholds_spec (hflags : x.flags_fs = src.flags_fs) :
    ((redThresholds src x).isSome ↔ Divisors src) ∧
      ∀ y, redThresholds src x = some y → SameSet x y := by
  have hzero : src.max_th - src.min_th = 0 ↔ src.max_th = src.min_th := sub_eq_zero
  unfold redThresholds Divisors
  simp only [hzero, hflags]
  split_ifs with hth hgentle hmax
  · exact ⟨iff_of_false (by decide) fun h => h.1 hth, fun y hy => by cases hy⟩
  · exact ⟨iff_of_false (by decide) fun h => h.2 hgentle hmax, fun y hy => by cases hy⟩
  · refine ⟨iff_of_true rfl ⟨hth, fun _ => hmax⟩, fun y hy => ?_⟩
    obtain rfl := some.inj hy
    exact ⟨rfl, rfl, rfl⟩
  · refine ⟨iff_of_true rfl ⟨hth, fun h => absurd h hgentle⟩, fun y hy => ?_⟩
    obtain rfl := some.inj hy
    exact ⟨rfl, rfl, rfl⟩

theorem redTable_spec (table : Bool) (src x : FlowSet) (g : Sysctl) :
    SameSet x (redTable table src x g).2.1 ∧
      ((redTable table src x g).1 ≠ .ok ↔ NoTable table g) := by
  unfold redTable NoTable
  dsimp only
  by_cases hdepth : g.red_lookup_depth = 0
  · rw [if_pos hdepth]; exact ⟨⟨rfl, rfl, rfl⟩, iff_of_true (fun h => by cases h) (.inl hdepth)⟩
  · rw [if_neg hdepth]
    by_cases htable : table = false
    · rw [if_pos htable]; exact ⟨⟨rfl, rfl, rfl⟩, iff_of_true (fun h => by cases h) (.inr htable)⟩
    · rw [if_neg htable]
      refine ⟨⟨rfl, rfl, rfl⟩, iff_of_false (fun h => h rfl) ?_⟩
      exact not_or.2 ⟨hdepth, htable⟩

theorem SameSet.trans {y z : FlowSet} (h : SameSet x y) (h' : SameSet y z) : SameSet x z :=
  ⟨h'.addr.trans h.addr, h'.fs_nr.trans h.fs_nr, h'.rq.trans h.rq⟩

/-- The parameters are set unless a threshold is a divisor and 0, and the set is freed where the
    lookup table cannot be made. -/
theorem set_fs_parms_spec (table : Bool) (x src : FlowSet) (g : Sysctl) :
    ((set_fs_parms table x src g).isSome ↔ (Red src → Divisors src)) ∧
      ∀ y g' freed, set_fs_parms table x src g = some (y, g', freed) →
        SameSet x y ∧ (freed = true ↔ Red src ∧ NoTable table g) := by
  have hcopy : SameSet x (copyParms x src) := ⟨rfl, rfl, rfl⟩
  unfold set_fs_parms
  by_cases hred : Red src
  · have hif : (copyParms x src).flags_fs &&& dnIsRed ≠ 0 := hred
    obtain ⟨hsome, hsame⟩ := @redThresholds_spec (copyParms x src) src rfl
    dsimp only
    rw [if_pos hif, config_red, isSome_map, isSome_map, hsome]
    refine ⟨⟨fun h _ => h, fun h => h hred⟩, ?_⟩
    intro y g' freed h
    cases hth : redThresholds src (copyParms x src) with
    | none =>
      rw [hth] at h
      cases h
    | some z =>
      rw [hth] at h
      obtain ⟨hkeep, hfree⟩ := redTable_spec table src z g
      cases h
      refine ⟨(hcopy.trans (hsame z hth)).trans hkeep, ?_⟩
      rw [decide_eq_true_iff, hfree]; exact (and_iff_right hred).symm
  · have hif : ¬ (copyParms x src).flags_fs &&& dnIsRed ≠ 0 := hred
    dsimp only
    rw [if_neg hif]
    refine ⟨iff_of_true rfl fun h => absurd h hred, ?_⟩
    intro y g' freed h
    cases h
    exact ⟨hcopy, iff_of_false Bool.false_ne_true fun h => hred h.1⟩

/-! ## What is linked -/

/-- What `all_pipes`, `all_flow_sets` and the heaps link. -/
def State.listed (s : State) : List Ptr :=
  s.heaps ++ s.all_pipes.flatMap (fun b => [.pipe b.addr, .pipeFs b.addr]) ++
    s.all_flow_sets.map fun b => .flowSet b.addr

/-- The pipes and flow sets are unchanged. -/
def Kept (s s' : State) : Prop :=
  s'.all_pipes = s.all_pipes ∧ s'.all_flow_sets = s.all_flow_sets

/-- No freed object is linked. -/
def Unlinked (r : Result) : Prop := ∀ q ∈ r.freed, q ∉ r.state.listed

/-- The call returns without a division by zero and with the lock released; it changes no pipe or
    flow set where it returns an error, and no freed object is linked. -/
def Sound (s : State) (o : Option Result) : Prop :=
  ∃ r, o = some r ∧ r.state.mtx = false ∧ (r.errno ≠ .ok → Kept s r.state) ∧ Unlinked r

/-- The same, where freed objects matter only if the call returns an error. -/
def SoundOnError (s : State) (o : Option Result) : Prop :=
  ∃ r, o = some r ∧ r.state.mtx = false ∧ (r.errno ≠ .ok → Kept s r.state ∧ Unlinked r)

theorem alloc_hash_spec (hash : Bool) (x pfs : FlowSet) (g : Sysctl) :
    SameSet { x with rq := (alloc_hash hash x pfs g).2.rq } (alloc_hash hash x pfs g).2 ∧
      ((alloc_hash hash x pfs g).1 = .ok ↔ hash = true) := by
  unfold alloc_hash
  dsimp only
  cases hash with
  | true => exact ⟨⟨rfl, rfl, rfl⟩, iff_of_true rfl rfl⟩
  | false => exact ⟨⟨rfl, rfl, rfl⟩, iff_of_false (fun h => by cases h) Bool.false_ne_true⟩

theorem mem_freedIf {b : Bool} {q q' : Ptr} : q' ∈ freedIf b q ↔ b = true ∧ q' = q := by
  cases b with
  | false => exact iff_of_false (fun h => by cases h) fun h => Bool.false_ne_true h.1
  | true => exact mem_singleton.trans (and_iff_right rfl).symm

variable {r : Result} {o : Option Result} {ok old : Prop} {pfs : FlowSet} {n : ℤ}

theorem sound_some : Sound s (some r) ↔
      r.state.mtx = false ∧ (r.errno ≠ .ok → Kept s r.state) ∧ Unlinked r := by
  constructor
  · rintro ⟨r', h, hr⟩
    obtain rfl := some.inj h
    exact hr
  · intro hr; exact ⟨r, rfl, hr⟩

theorem soundOnError_some : SoundOnError s (some r) ↔
      r.state.mtx = false ∧ (r.errno ≠ .ok → Kept s r.state ∧ Unlinked r) := by
  constructor
  · rintro ⟨r', h, hr⟩
    obtain rfl := some.inj h
    exact hr
  · intro hr; exact ⟨r, rfl, hr⟩

/-- Where the call does what it should: `ok` is needed for both readings, and `table` besides where
    freed objects matter in any case. -/
def Verdict (s : State) (o : Option Result) (ok table : Prop) : Prop :=
  (Sound s o ↔ ok ∧ table) ∧ (SoundOnError s o ↔ ok)

theorem Verdict.congr {ok ok' table table' : Prop} (h : Verdict s o ok table) (hok : ok ↔ ok')
    (htable : ok' → (table ↔ table')) : Verdict s o ok' table' := by
  refine ⟨h.1.trans ?_, h.2.trans hok⟩
  rw [hok]; exact and_congr_right htable

/-- The pipes and flow sets are the same with the lock held. -/
theorem verdict_lock {ok table : Prop} : Verdict s.lock o ok table ↔ Verdict s o ok table := Iff.rfl

/-- Nothing is promised of a call that divides by zero or returns with the lock held. -/
theorem verdict_bad (table : Prop) (ho : ∀ r, o = some r → r.state.mtx = true) (hok : ¬ ok) :
    Verdict s o ok table := by
  refine ⟨iff_of_false ?_ fun h => hok h.1, iff_of_false ?_ hok⟩
  · rintro ⟨r, hr, hmtx, -⟩
    rw [ho r hr] at hmtx
    cases hmtx
  · rintro ⟨r, hr, hmtx, -⟩
    rw [ho r hr] at hmtx
    cases hmtx

/-- An object that has been put into its list must not have been freed. -/
theorem verdict_put {s' : State} {b : Bool} {q : Ptr} (hq : q ∈ s'.unlock.listed) (hok : ok) :
    Verdict s (some ⟨.ok, s'.unlock, freedIf b q⟩) ok (b = false) := by
  refine ⟨?_, iff_of_true (soundOnError_some.2 ⟨rfl, fun h => absurd rfl h⟩) hok⟩
  rw [sound_some, and_iff_right hok]
  constructor
  · rintro ⟨-, -, hfree⟩
    refine Bool.eq_false_iff.2 fun hb => ?_
    exact hfree q (mem_freedIf.2 ⟨hb, rfl⟩) hq
  · rintro rfl; exact ⟨rfl, fun h => absurd rfl h, fun q' hq' => by cases hq'⟩

/-- A request may be refused when nothing that is linked has been freed. -/
theorem verdict_refused {frees : List Ptr} {ok table : Prop} (r : Errno) (g : Sysctl)
    (hfree : ∀ q ∈ frees, q ∉ s.listed) (hok : ok) (htable : table) :
    Verdict s (some ⟨r, { s with sysctl := g }.unlock, frees⟩) ok table := by
  unfold Verdict
  rw [sound_some, soundOnError_some]
  exact ⟨iff_of_true ⟨rfl, fun _ => ⟨rfl, rfl⟩, hfree⟩ ⟨hok, htable⟩,
    iff_of_true ⟨rfl, fun _ => ⟨⟨rfl, rfl⟩, hfree⟩⟩ hok⟩

/-- The outcome for a flow set. -/
theorem finish_verdict {put : FlowSet → State → State} {ptr own : Ptr}
    (hput : ∀ y g, y.addr = x.addr → ptr ∈ (put y { s with sysctl := g }).unlock.listed)
    (hnew : x.rq = none → ptr ∉ s.listed ∧ own ∉ s.listed) :
    Verdict s (finish m s x pfs put ptr own) (Red pfs → Divisors pfs)
      (Red pfs → NoTable m.table s.sysctl → x.rq = none ∧ m.hash = false) := by
  obtain ⟨hsome, hparms⟩ := set_fs_parms_spec m.table x pfs s.sysctl
  unfold finish
  cases hset : set_fs_parms m.table x pfs s.sysctl with
  | none =>
    rw [hset] at hsome; exact verdict_bad _ (fun r h => by cases h) fun h => by cases hsome.2 h
  | some out =>
    obtain ⟨y, g, freed⟩ := out
    rw [hset] at hsome
    have hyes : Red pfs → Divisors pfs := hsome.1 rfl
    obtain ⟨hsame, hfreed⟩ := hparms y g freed hset
    -- where the set is linked, the table must have been made
    have hlinked (h : ¬ (x.rq = none ∧ m.hash = false)) :
        freed = false ↔
          (Red pfs → NoTable m.table s.sysctl → x.rq = none ∧ m.hash = false) := by
      rw [← Bool.not_eq_true, hfreed]
      constructor
      · intro hno hred htable; exact absurd ⟨hred, htable⟩ hno
      · intro hall hboth; exact h (hall hboth.1 hboth.2)
    dsimp only [map_some]
    cases hrq : y.rq with
    | some slots =>
      have hold : x.rq ≠ none := by rw [← hsame.rq, hrq]; exact fun h => by cases h
      exact (verdict_put (hput y g hsame.addr) hyes).congr Iff.rfl fun _ =>
        hlinked fun h => hold h.1
    | none =>
      have hxnew : x.rq = none := hsame.rq.symm.trans hrq
      obtain ⟨hkeep, hok⟩ := alloc_hash_spec m.hash y pfs g
      cases hall : alloc_hash m.hash y pfs g with
      | mk r z =>
        rw [hall] at hkeep hok
        dsimp only at hkeep hok ⊢
        cases hhash : m.hash with
        | true =>
          obtain rfl := hok.2 hhash
          rw [hhash] at hlinked
          exact (verdict_put (hput z g (hkeep.addr.trans hsame.addr)) hyes).congr Iff.rfl fun _ =>
            hlinked fun h => by cases h.2
        | false =>
          have hr : r ≠ .ok := fun h => by
            rw [hok.1 h] at hhash
            cases hhash
          have hfree (q : Ptr) (hq : q ∈ freedIf freed ptr ++ [own]) : q ∉ s.listed := by
            obtain hq | hq := mem_append.1 hq
            · rw [(mem_freedIf.1 hq).2]; exact (hnew hxnew).1
            · rw [mem_singleton.1 hq]; exact (hnew hxnew).2
          cases r with
          | ok => exact absurd rfl hr
          | EINVAL => exact verdict_refused _ g hfree hyes fun _ _ => ⟨hxnew, rfl⟩
          | ENOSPC => exact verdict_refused _ g hfree hyes fun _ _ => ⟨hxnew, rfl⟩

/-! ## The lists -/

/-- A list in the order of its numbers. -/
def Ordered {α : Type} (nr : α → ℤ) (l : List α) : Prop := l.Pairwise fun a b => nr a < nr b

/-- A configuration. -/
structure State.Wf (s : State) : Prop where
  unlocked : s.mtx = false
  pipes : Ordered (fun b : Pipe => b.pipe_nr.toInt) s.all_pipes
  sets : Ordered (fun b : FlowSet => (b.fs_nr.toNat : ℤ)) s.all_flow_sets
  pipes_rq : ∀ b ∈ s.all_pipes, b.fs.rq ≠ none
  sets_rq : ∀ b ∈ s.all_flow_sets, b.rq ≠ none

/-- `malloc` gives memory that is not in use. -/
def Fresh (m : Mallocs) (s : State) : Prop :=
  ∀ a, m.obj = some a → ∀ q ∈ [Ptr.pipe a, .pipeFs a, .flowSet a], q ∉ s.listed

/-- Smaller numbers are before the place, and the others from it on. -/
theorem locate_spec {α : Type} {nr : α → ℤ} {l before rest : List α} (h : Ordered nr l)
    (hloc : locate nr n l = (before, rest)) :
    l = before ++ rest ∧ (∀ b ∈ before, nr b < n) ∧ ∀ b ∈ rest, n ≤ nr b := by
  unfold locate at hloc
  rw [span_eq_takeWhile_dropWhile, Prod.mk.injEq] at hloc
  obtain ⟨rfl, rfl⟩ := hloc
  refine ⟨takeWhile_append_dropWhile.symm, fun b hb => ?_, ?_⟩
  · have hdec := mem_takeWhile_imp hb
    exact of_decide_eq_true hdec
  · induction l with
    | nil => exact fun b hb => by cases hb
    | cons c l ih =>
      obtain ⟨hc, hl⟩ := pairwise_cons.1 h
      rw [dropWhile_cons]
      split_ifs with hlt
      · exact ih hl
      · have hge : n ≤ nr c := not_lt.1 fun h => hlt (decide_eq_true h)
        intro b hb
        obtain rfl | hb := mem_cons.1 hb
        · exact hge
        · have := hc b hb; omega

theorem locate_mem {α : Type} {nr : α → ℤ} {l before after : List α} {b : α}
    (hloc : locate nr n l = (before, b :: after)) : b ∈ l := by
  unfold locate at hloc
  rw [span_eq_takeWhile_dropWhile, Prod.mk.injEq] at hloc
  have hmem : b ∈ l.dropWhile fun b => nr b < n := by rw [hloc.2]; exact mem_cons_self
  exact (dropWhile_sublist _).mem hmem

/-- Two with one number are the same. -/
theorem Ordered.eq {α : Type} {nr : α → ℤ} {l : List α} (h : Ordered nr l) {b c : α} (hb : b ∈ l)
    (hc : c ∈ l) (heq : nr b = nr c) : b = c := by
  by_contra hne
  have hpair : l.Pairwise fun b c => nr b ≠ nr c := h.imp fun hlt => hlt.ne
  have hsymm : Std.Symm fun b c : α => nr b ≠ nr c := ⟨fun _ _ => Ne.symm⟩
  exact hpair.forall hb hc hne heq

/-- If the first from the place on has another number, so has each. -/
theorem locate_new {α : Type} {nr : α → ℤ} {l before rest : List α} (h : Ordered nr l)
    (hloc : locate nr n l = (before, rest)) (hne : ∀ b ∈ rest.head?, nr b ≠ n) :
    ∀ c ∈ l, nr c ≠ n := by
  obtain ⟨rfl, hlo, hhi⟩ := locate_spec h hloc
  intro c hc
  obtain hc | hc := mem_append.1 hc
  · exact (hlo c hc).ne
  · cases rest with
    | nil => cases hc
    | cons b after =>
      have hb : nr b ≠ n := hne b rfl
      have hge := hhi b mem_cons_self
      obtain rfl | hc := mem_cons.1 hc
      · exact hb
      · have hlt := (pairwise_cons.1 (pairwise_append.1 h).2.1).1 c hc; omega

/-- The pipe or queue of the request is there. -/
def Old (s : State) (p : Pipe) : Prop :=
  if p.pipe_nr ≠ 0 then ∃ b ∈ s.all_pipes, b.pipe_nr = p.pipe_nr
  else ∃ b ∈ s.all_flow_sets, b.fs_nr = p.fs.fs_nr

theorem mem_listed_pipe {b : Pipe} (h : b ∈ s.all_pipes) : Ptr.pipeFs b.addr ∈ s.listed := by
  unfold State.listed
  refine mem_append_left _ (mem_append_right _ (mem_flatMap.2 ⟨b, h, ?_⟩))
  exact mem_cons_of_mem _ mem_cons_self

theorem mem_listed_set {b : FlowSet} (h : b ∈ s.all_flow_sets) :
    Ptr.flowSet b.addr ∈ s.listed := by
  unfold State.listed; exact mem_append_right _ (mem_map.2 ⟨b, h, rfl⟩)

/-- The rest for a pipe that is new, or has its hash table. -/
theorem finishPipe_verdict {y : Pipe} (delay : Word) (before after : List Pipe)
    (hrq : y.fs.rq = none ↔ ¬ old)
    (hfresh : ¬ old → Ptr.pipeFs y.addr ∉ s.listed ∧ Ptr.pipe y.addr ∉ s.listed) :
    Verdict s (finishPipe m s.lock p delay before after y) (Red p.fs → Divisors p.fs)
      (Red p.fs → NoTable m.table s.sysctl → ¬ old ∧ m.hash = false) := by
  rw [← hrq, ← verdict_lock]
  unfold finishPipe
  refine finish_verdict (x := (setPipeParms y p delay).fs) (fun z g _ => ?_) fun hnone =>
    hfresh (hrq.1 hnone)
  exact mem_listed_pipe (b := { setPipeParms y p delay with fs := z })
    (mem_append_right _ mem_cons_self)

/-- A request for a pipe: a new one needs memory. -/
theorem configPipe_verdict (hs : s.Wf) (hfresh : Fresh m s) (delay : Word)
    (hold : old ↔ ∃ b ∈ s.all_pipes, b.pipe_nr = p.pipe_nr) :
    Verdict s (configPipe m s p delay) ((old ∨ m.obj ≠ none) ∧ (Red p.fs → Divisors p.fs))
      (Red p.fs → NoTable m.table s.sysctl → ¬ old ∧ m.hash = false) := by
  have hnew (before after : List Pipe) (hno : ¬ old) :
      Verdict s (match m.obj with
        | none => some ⟨.ENOSPC, s.lock, []⟩
        | some a => finishPipe m s.lock p delay before after (newPipe a p))
        ((old ∨ m.obj ≠ none) ∧ (Red p.fs → Divisors p.fs))
        (Red p.fs → NoTable m.table s.sysctl → ¬ old ∧ m.hash = false) := by
    cases hobj : m.obj with
    | none =>
      refine verdict_bad _ (fun r h => ?_) fun h => h.1.elim hno fun hne => hne rfl
      obtain rfl := some.inj h
      rfl
    | some a =>
      have hmem := hfresh a hobj
      refine (finishPipe_verdict delay before after (iff_of_true rfl hno) fun _ =>
        ⟨hmem (.pipeFs a) (by simp), hmem (.pipe a) (by simp)⟩).congr ?_ fun _ => Iff.rfl
      exact (and_iff_right (.inr fun h => by cases h)).symm
  unfold configPipe
  dsimp only
  cases hloc : locate (fun b : Pipe => b.pipe_nr.toInt) p.pipe_nr.toInt s.lock.all_pipes with
  | mk before rest =>
    have hother := locate_new hs.pipes hloc
    cases rest with
    | nil =>
      refine hnew before [] fun h => ?_
      obtain ⟨b, hb, hnr⟩ := hold.1 h
      exact hother (fun c hc => by cases hc) b hb (congrArg BitVec.toInt hnr)
    | cons b after =>
      dsimp only
      split_ifs with hnr
      · refine hnew before (b :: after) fun h => ?_
        obtain ⟨c, hc, hcnr⟩ := hold.1 h
        refine hother (fun b' hb' => ?_) c hc (congrArg BitVec.toInt hcnr)
        obtain rfl := some.inj hb'
        exact fun heq => hnr (eq_of_toInt_eq heq)
      · have hmem : b ∈ s.all_pipes := locate_mem hloc
        have hyes : old := hold.2 ⟨b, hmem, not_not.1 hnr⟩
        refine (finishPipe_verdict delay before after ?_ fun hno : ¬ old =>
          absurd hyes hno).congr ?_ fun _ => Iff.rfl
        · refine iff_of_false (fun hnone => ?_) (not_not.2 hyes)
          exact hs.pipes_rq b hmem (map_eq_none_iff.1 hnone)
        · exact (and_iff_right (.inl hyes)).symm

/-- The rest for a flow set that is new, or has its hash table. -/
theorem finishFlowSet_verdict (before after : List FlowSet) (hrq : x.rq = none ↔ ¬ old)
    (hfresh : ¬ old → Ptr.flowSet x.addr ∉ s.listed) :
    Verdict s (finishFlowSet m s.lock pfs before after x) (Red pfs → Divisors pfs)
      (Red pfs → NoTable m.table s.sysctl → ¬ old ∧ m.hash = false) := by
  rw [← hrq, ← verdict_lock]
  unfold finishFlowSet
  refine finish_verdict (fun z g hz => ?_) fun hnone =>
    ⟨hfresh (hrq.1 hnone), hfresh (hrq.1 hnone)⟩
  rw [← hz]; exact mem_listed_set (mem_append_right _ mem_cons_self)

/-- The parent in a request for a queue: that of the queue if there is one, or else a pipe. -/
def Parent (s : State) (pfs : FlowSet) (old : Prop) : Prop :=
  (¬ old → pfs.parent_nr ≠ 0) ∧
    ∀ b ∈ s.all_flow_sets, b.fs_nr = pfs.fs_nr → pfs.parent_nr ≠ 0 → b.parent_nr = pfs.parent_nr

/-- A request for a queue: without memory for a new one it is refused. -/
theorem configFlowSet_verdict (hs : s.Wf) (hfresh : Fresh m s)
    (hold : old ↔ ∃ b ∈ s.all_flow_sets, b.fs_nr = pfs.fs_nr) :
    Verdict s (configFlowSet m s pfs)
      (Parent s pfs old ∧ (old ∨ m.obj ≠ none → Red pfs → Divisors pfs))
      (old ∨ m.obj ≠ none → Red pfs → NoTable m.table s.sysctl → ¬ old ∧ m.hash = false) := by
  have hnew (before after : List FlowSet) (hno : ¬ old) :
      Verdict s (if pfs.parent_nr = 0 then some ⟨.EINVAL, s.lock, []⟩
        else
          match m.obj with
          | none => some ⟨.ENOSPC, s.lock.unlock, []⟩
          | some a => finishFlowSet m s.lock pfs before after (newFlowSet a pfs))
        (Parent s pfs old ∧ (old ∨ m.obj ≠ none → Red pfs → Divisors pfs))
        (old ∨ m.obj ≠ none → Red pfs → NoTable m.table s.sysctl → ¬ old ∧ m.hash = false) := by
    split_ifs with hzero
    · refine verdict_bad _ (fun r h => ?_) fun h => h.1.1 hno hzero
      obtain rfl := some.inj h
      rfl
    · have hparent : Parent s pfs old :=
        ⟨fun _ => hzero, fun b hb hnr => absurd (hold.2 ⟨b, hb, hnr⟩) hno⟩
      cases hobj : m.obj with
      | none =>
        have hroom : ¬ (old ∨ (none : Option ℕ) ≠ none) := not_or.2 ⟨hno, fun h => h rfl⟩
        exact verdict_refused .ENOSPC s.sysctl (fun q hq => by cases hq)
          ⟨hparent, fun h => absurd h hroom⟩ fun h => absurd h hroom
      | some a =>
        have hmem := hfresh a hobj (.flowSet a) (by simp)
        have hroom : old ∨ some a ≠ none := .inr fun h => by cases h
        refine (finishFlowSet_verdict before after (iff_of_true rfl hno) fun _ => hmem).congr ?_
          fun _ => ⟨fun h _ => h, fun h => h hroom⟩
        exact ⟨fun h => ⟨hparent, fun _ => h⟩, fun h => h.2 hroom⟩
  unfold configFlowSet
  dsimp only
  cases hloc : locate (fun b : FlowSet => (b.fs_nr.toNat : ℤ)) pfs.fs_nr.toNat
      s.lock.all_flow_sets with
  | mk before rest =>
    have hother := locate_new hs.sets hloc
    have hcast {b : FlowSet} : (b.fs_nr.toNat : ℤ) = pfs.fs_nr.toNat ↔ b.fs_nr = pfs.fs_nr := by
      rw [Nat.cast_inj, toNat_inj]
    cases rest with
    | nil =>
      refine hnew before [] fun h => ?_
      obtain ⟨b, hb, hnr⟩ := hold.1 h
      exact hother (fun c hc => by cases hc) b hb (hcast.2 hnr)
    | cons b after =>
      dsimp only
      have hmem : b ∈ s.all_flow_sets := locate_mem hloc
      by_cases hnr : b.fs_nr ≠ pfs.fs_nr
      · rw [if_pos hnr]
        refine hnew before (b :: after) fun h => ?_
        obtain ⟨c, hc, hcnr⟩ := hold.1 h
        refine hother (fun b' hb' => ?_) c hc (hcast.2 hcnr)
        obtain rfl := some.inj hb'
        exact fun heq => hnr (hcast.1 heq)
      · rw [if_neg hnr]
        have hsame := not_not.1 hnr
        have hyes : old := hold.2 ⟨b, hmem, hsame⟩
        split_ifs with hparent
        · refine verdict_bad _ (fun r h => ?_) fun h =>
            hparent.2 (h.1.2 b hmem hsame hparent.1)
          obtain rfl := some.inj h
          rfl
        · have hok : Parent s pfs old := by
            refine ⟨fun hno => absurd hyes hno, fun c hc hcnr hne => ?_⟩
            have hcb : c = b := hs.sets.eq hc hmem ((hcast.2 hcnr).trans (hcast.2 hsame).symm)
            rw [hcb]
            by_contra hother
            exact hparent ⟨hne, hother⟩
          have hroom : old ∨ m.obj ≠ none := .inl hyes
          refine (finishFlowSet_verdict before after ?_ fun hno : ¬ old =>
            absurd hyes hno).congr ?_ fun _ => ⟨fun h _ => h, fun h => h hroom⟩
          · exact iff_of_false (hs.sets_rq b hmem) (not_not.2 hyes)
          · exact ⟨fun h => ⟨hok, fun _ => h⟩, fun h => h.2 hroom⟩

/-! ## The call -/

/-- The request is for a pipe or for a queue. -/
def Valid (p : Pipe) : Prop := p.pipe_nr ≠ 0 ↔ p.fs.fs_nr = 0

/-- What must hold of a request for a pipe or queue: memory for a new pipe, the parent of a queue,
    and the thresholds of RED where the parameters are set. -/
structure Harmless (m : Mallocs) (s : State) (p : Pipe) : Prop where
  room : p.pipe_nr ≠ 0 → Old s p ∨ m.obj ≠ none
  parent : p.pipe_nr = 0 → Parent s p.fs (Old s p)
  divisors : Old s p ∨ m.obj ≠ none → Red p.fs → Divisors p.fs

/-- Without a lookup table, the pipe or queue must be new and its hash table missing too. -/
def Discarded (m : Mallocs) (s : State) (p : Pipe) : Prop :=
  Old s p ∨ m.obj ≠ none → Red p.fs → NoTable m.table s.sysctl → ¬ Old s p ∧ m.hash = false

theorem config_pipe_verdict (hs : s.Wf) (hfresh : Fresh m s) :
    Verdict s (config_pipe m s p) (Valid p → Harmless m s p) (Valid p → Discarded m s p) := by
  unfold config_pipe
  dsimp only
  have hrefused : Sound s (some ⟨.EINVAL, s, []⟩) ∧ SoundOnError s (some ⟨.EINVAL, s, []⟩) := by
    rw [sound_some, soundOnError_some]
    exact ⟨⟨hs.unlocked, fun _ => ⟨rfl, rfl⟩, fun q hq => by cases hq⟩, hs.unlocked,
      fun _ => ⟨⟨rfl, rfl⟩, fun q hq => by cases hq⟩⟩
  have hinvalid (h : ¬ Valid p) :
      Verdict s (some ⟨.EINVAL, s, []⟩) (Valid p → Harmless m s p) (Valid p → Discarded m s p) :=
    ⟨iff_of_true hrefused.1 ⟨fun hv => absurd hv h, fun hv => absurd hv h⟩,
      iff_of_true hrefused.2 fun hv => absurd hv h⟩
  split_ifs with hnone hboth hpipe
  · exact hinvalid fun hv => hv.2 hnone.2 hnone.1
  · exact hinvalid fun hv => hboth.2 (hv.1 hboth.1)
  · have hv : Valid p := iff_of_true hpipe (not_not.1 fun h => hboth ⟨hpipe, h⟩)
    have hold : Old s p ↔ ∃ b ∈ s.all_pipes, b.pipe_nr = p.pipe_nr := by
      unfold Old
      rw [if_pos hpipe]
    refine (configPipe_verdict hs hfresh _ hold).congr ?_ fun hok => ?_
    · constructor
      · rintro ⟨hroom, hdiv⟩ -; exact ⟨fun _ => hroom, fun h => absurd h hpipe, fun _ => hdiv⟩
      · intro h; exact ⟨(h hv).room hpipe, (h hv).divisors ((h hv).room hpipe)⟩
    · exact ⟨fun h _ _ => h, fun h => h hv ((hok hv).room hpipe)⟩
  · have hzero : p.pipe_nr = 0 := not_not.1 hpipe
    have hv : Valid p := iff_of_false hpipe fun h => hnone ⟨hzero, h⟩
    have hold : Old s p ↔ ∃ b ∈ s.all_flow_sets, b.fs_nr = p.fs.fs_nr := by
      unfold Old
      rw [if_neg hpipe]
    refine (configFlowSet_verdict hs hfresh hold).congr ?_ fun _ => ?_
    · constructor
      · rintro ⟨hparent, hdiv⟩ -; exact ⟨fun h => absurd h hpipe, fun _ => hparent, hdiv⟩
      · intro h; exact ⟨(h hv).parent hzero, (h hv).divisors⟩
    · exact ⟨fun h _ => h, fun h => h hv⟩

/-- What the rest for a flow set leaves: the lists as they are, or the set in its list. -/
theorem finish_state {put : FlowSet → State → State} {ptr own : Ptr}
    (h : finish m s x pfs put ptr own = some r) :
    (∃ g, r.state = { s with sysctl := g }.unlock) ∨
      ∃ y g, y.fs_nr = x.fs_nr ∧ y.rq ≠ none ∧ r.state = (put y { s with sysctl := g }).unlock := by
  unfold finish at h
  cases hset : set_fs_parms m.table x pfs s.sysctl with
  | none =>
    rw [hset] at h
    cases h
  | some out =>
    obtain ⟨y, g, freed⟩ := out
    have hsame := ((set_fs_parms_spec m.table x pfs s.sysctl).2 y g freed hset).1
    rw [hset] at h
    dsimp only [map_some] at h
    cases hrq : y.rq with
    | some slots =>
      rw [hrq] at h
      obtain rfl := some.inj h
      refine .inr ⟨y, g, hsame.fs_nr, ?_, rfl⟩
      rw [hrq]; exact fun hno => by cases hno
    | none =>
      rw [hrq] at h
      have hall := alloc_hash_spec m.hash y pfs g
      have hslots : m.hash = true → (alloc_hash m.hash y pfs g).2.rq ≠ none := by
        intro hhash
        rw [hhash]; exact fun hno => by cases hno
      cases hout : alloc_hash m.hash y pfs g with
      | mk e z =>
        rw [hout] at h hall hslots
        dsimp only at h hall hslots
        cases e with
        | ok =>
          obtain rfl := some.inj h
          exact .inr ⟨z, g, hall.1.fs_nr.trans hsame.fs_nr, hslots (hall.2.1 rfl), rfl⟩
        | EINVAL =>
          obtain rfl := some.inj h
          exact .inl ⟨g, rfl⟩
        | ENOSPC =>
          obtain rfl := some.inj h
          exact .inl ⟨g, rfl⟩

/-- A list with one at the place of its number. -/
theorem ordered_put {α : Type} {nr : α → ℤ} {before after : List α} {x : α}
    (hbefore : ∀ b ∈ before, nr b < nr x) (hafter : ∀ b ∈ after, nr x < nr b)
    (hl : Ordered nr (before ++ after)) : Ordered nr (before ++ x :: after) := by
  obtain ⟨hfirst, hlast, hacross⟩ := pairwise_append.1 hl
  refine pairwise_append.2 ⟨hfirst, pairwise_cons.2 ⟨hafter, hlast⟩, ?_⟩
  intro b hb c hc
  obtain rfl | hc := mem_cons.1 hc
  · exact hbefore b hb
  · exact hacross b hb c hc

theorem finishPipe_wf {delay : Word} {before after : List Pipe} {y : Pipe} (hs : s.Wf)
    (hbefore : ∀ b ∈ before, b.pipe_nr.toInt < y.pipe_nr.toInt)
    (hafter : ∀ b ∈ after, y.pipe_nr.toInt < b.pipe_nr.toInt)
    (hsub : (before ++ after).Sublist s.all_pipes)
    (h : finishPipe m s.lock p delay before after y = some r) : r.state.Wf := by
  unfold finishPipe at h
  obtain ⟨g, hg⟩ | ⟨z, g, -, hrq, hg⟩ := finish_state h
  · rw [hg]; exact ⟨rfl, hs.pipes, hs.sets, hs.pipes_rq, hs.sets_rq⟩
  · rw [hg]
    refine ⟨rfl, ordered_put hbefore hafter (hs.pipes.sublist hsub), hs.sets, ?_, hs.sets_rq⟩
    intro b hb
    obtain hb | hb := mem_append.1 hb
    · exact hs.pipes_rq b (hsub.mem (mem_append_left _ hb))
    · obtain rfl | hb := mem_cons.1 hb
      · exact hrq
      · exact hs.pipes_rq b (hsub.mem (mem_append_right _ hb))

theorem finishFlowSet_wf {before after : List FlowSet} (hs : s.Wf)
    (hbefore : ∀ b ∈ before, (b.fs_nr.toNat : ℤ) < x.fs_nr.toNat)
    (hafter : ∀ b ∈ after, (x.fs_nr.toNat : ℤ) < b.fs_nr.toNat)
    (hsub : (before ++ after).Sublist s.all_flow_sets)
    (h : finishFlowSet m s.lock pfs before after x = some r) : r.state.Wf := by
  obtain ⟨g, hg⟩ | ⟨z, g, hnr, hrq, hg⟩ := finish_state h
  · rw [hg]; exact ⟨rfl, hs.pipes, hs.sets, hs.pipes_rq, hs.sets_rq⟩
  · rw [hg]
    rw [← hnr] at hbefore hafter
    refine ⟨rfl, hs.pipes, ordered_put hbefore hafter (hs.sets.sublist hsub), hs.pipes_rq, ?_⟩
    intro b hb
    obtain hb | hb := mem_append.1 hb
    · exact hs.sets_rq b (hsub.mem (mem_append_left _ hb))
    · obtain rfl | hb := mem_cons.1 hb
      · exact hrq
      · exact hs.sets_rq b (hsub.mem (mem_append_right _ hb))

/-- The place of a number: what is before it, and what is after it when the one that has the number
    is left out. -/
theorem locate_place {α : Type} {nr : α → ℤ} {l before after : List α} {b : α} (h : Ordered nr l)
    (hloc : locate nr n l = (before, b :: after)) (hb : nr b = n) :
    (∀ c ∈ before, nr c < n) ∧ (∀ c ∈ after, n < nr c) ∧ (before ++ after).Sublist l := by
  obtain ⟨rfl, hlo, -⟩ := locate_spec h hloc
  refine ⟨hlo, fun c hc => ?_, ?_⟩
  · rw [← hb]; exact (pairwise_cons.1 (pairwise_append.1 h).2.1).1 c hc
  · exact (List.Sublist.refl before).append (sublist_cons_self b after)

/-- The place of a new number. -/
theorem locate_gap {α : Type} {nr : α → ℤ} {l before rest : List α} (h : Ordered nr l)
    (hloc : locate nr n l = (before, rest)) (hne : ∀ b ∈ rest.head?, nr b ≠ n) :
    (∀ c ∈ before, nr c < n) ∧ (∀ c ∈ rest, n < nr c) ∧ (before ++ rest).Sublist l := by
  have hno := locate_new h hloc hne
  obtain ⟨rfl, hlo, hhi⟩ := locate_spec h hloc
  refine ⟨hlo, fun c hc => ?_, List.Sublist.refl _⟩
  exact lt_of_le_of_ne (hhi c hc) (hno c (mem_append_right _ hc)).symm

theorem configPipe_wf {delay : Word} (hs : s.Wf) (h : configPipe m s p delay = some r)
    (hmtx : r.state.mtx = false) : r.state.Wf := by
  have hnew {before after : List Pipe}
      (hgap : (∀ c ∈ before, c.pipe_nr.toInt < p.pipe_nr.toInt) ∧
        (∀ c ∈ after, p.pipe_nr.toInt < c.pipe_nr.toInt) ∧
        (before ++ after).Sublist s.all_pipes)
      (h : (match m.obj with
        | none => some ⟨.ENOSPC, s.lock, []⟩
        | some a => finishPipe m s.lock p delay before after (newPipe a p)) = some r) :
      r.state.Wf := by
    cases hobj : m.obj with
    | none =>
      rw [hobj] at h
      obtain rfl := some.inj h
      cases hmtx
    | some a =>
      rw [hobj] at h; exact finishPipe_wf (y := newPipe a p) hs hgap.1 hgap.2.1 hgap.2.2 h
  unfold configPipe at h
  dsimp only at h
  cases hloc : locate (fun b : Pipe => b.pipe_nr.toInt) p.pipe_nr.toInt s.lock.all_pipes with
  | mk before rest =>
    rw [hloc] at h
    cases rest with
    | nil => exact hnew (locate_gap hs.pipes hloc fun b hb => by cases hb) h
    | cons b after =>
      dsimp only at h
      split_ifs at h with hnr
      · refine hnew (locate_gap hs.pipes hloc fun b' hb' => ?_) h
        obtain rfl := some.inj hb'
        exact fun heq => hnr (eq_of_toInt_eq heq)
      · have hsame : b.pipe_nr = p.pipe_nr := not_not.1 hnr
        obtain ⟨hlo, hhi, hsub⟩ := locate_place hs.pipes hloc (congrArg BitVec.toInt hsame)
        rw [← hsame] at hlo hhi; exact finishPipe_wf (y := flushCredit b) hs hlo hhi hsub h

theorem configFlowSet_wf (hs : s.Wf) (h : configFlowSet m s pfs = some r)
    (hmtx : r.state.mtx = false) : r.state.Wf := by
  have hnew {before after : List FlowSet}
      (hgap : (∀ c ∈ before, (c.fs_nr.toNat : ℤ) < pfs.fs_nr.toNat) ∧
        (∀ c ∈ after, (pfs.fs_nr.toNat : ℤ) < c.fs_nr.toNat) ∧
        (before ++ after).Sublist s.all_flow_sets)
      (h : (if pfs.parent_nr = 0 then some ⟨.EINVAL, s.lock, []⟩
        else
          match m.obj with
          | none => some ⟨.ENOSPC, s.lock.unlock, []⟩
          | some a => finishFlowSet m s.lock pfs before after (newFlowSet a pfs)) = some r) :
      r.state.Wf := by
    split_ifs at h
    · obtain rfl := some.inj h
      cases hmtx
    · cases hobj : m.obj with
      | none =>
        rw [hobj] at h
        obtain rfl := some.inj h
        exact ⟨rfl, hs.pipes, hs.sets, hs.pipes_rq, hs.sets_rq⟩
      | some a =>
        rw [hobj] at h; exact finishFlowSet_wf (x := newFlowSet a pfs) hs hgap.1 hgap.2.1 hgap.2.2 h
  unfold configFlowSet at h
  dsimp only at h
  cases hloc : locate (fun b : FlowSet => (b.fs_nr.toNat : ℤ)) pfs.fs_nr.toNat
      s.lock.all_flow_sets with
  | mk before rest =>
    rw [hloc] at h
    cases rest with
    | nil => exact hnew (locate_gap hs.sets hloc fun b hb => by cases hb) h
    | cons b after =>
      dsimp only at h
      by_cases hnr : b.fs_nr ≠ pfs.fs_nr
      · rw [if_pos hnr] at h
        refine hnew (locate_gap hs.sets hloc fun b' hb' => ?_) h
        obtain rfl := some.inj hb'
        exact fun heq => hnr (toNat_inj.1 (Nat.cast_inj.1 heq))
      · rw [if_neg hnr] at h
        have hsame : b.fs_nr = pfs.fs_nr := not_not.1 hnr
        split_ifs at h
        · obtain rfl := some.inj h
          cases hmtx
        · obtain ⟨hlo, hhi, hsub⟩ := locate_place hs.sets hloc (by rw [hsame])
          rw [← hsame] at hlo hhi; exact finishFlowSet_wf hs hlo hhi hsub h

/-- A call that returns with the lock released leaves a configuration. -/
theorem config_pipe_wf (hs : s.Wf) (h : config_pipe m s p = some r) (hmtx : r.state.mtx = false) :
    r.state.Wf := by
  unfold config_pipe at h
  dsimp only at h
  split_ifs at h
  · obtain rfl := some.inj h
    exact hs
  · obtain rfl := some.inj h
    exact hs
  · exact configPipe_wf hs h hmtx
  · exact configFlowSet_wf hs h hmtx

/-- A dummynet without pipes, with the values that the sysctls start with. -/
def emptyDummynet : State where
  mtx := false
  all_pipes := []
  all_flow_sets := []
  heaps := []
  sysctl := ⟨100, 64, 256, 512, 1500⟩

/-- A request for pipe 1. -/
def plainPipe : Pipe := { zeroPipe 0 with pipe_nr := 1 }

/-- A request, if it returns with the lock released. -/
def configStep (s : State) (req : Mallocs × Pipe) : Option (State × Errno) :=
  (config_pipe req.1 s req.2).bind fun r => if r.state.mtx then none else some (r.state, r.errno)

/-- A request for queue 1, which has no parent. -/
def orphan : Pipe := { zeroPipe 0 with fs := { zeroFlowSet 0 with fs_nr := 1 } }

end FreeBSD.DnConfig
