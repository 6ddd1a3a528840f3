import Mathlib.Tactic

/-!
# The resource manager

Model of `sys/kern/subr_rman.c`: `rman_init`, `rman_manage_region`,
`rman_reserve_resource_bound`, `rman_activate_resource`,
`rman_deactivate_resource` and `rman_release_resource`.

A `struct resource` is a cell of a memory indexed by its address; `rm_list`
and the sharing lists are lists of addresses. `malloc(…, M_NOWAIT)` may fail:
each call takes a Boolean for each allocation it may make. An address is not
handed out again after `free`. `u_long` is `BitVec 64`.

The `do … while` loop that adjusts the start of a reservation need not
terminate, so `rmanReserveResourceBound` takes the number of rounds it may
make for one entry and is `none` beyond it; `rman_release_resource` is `none`
where the code would follow a null pointer.
-/

namespace FreeBSD.SubrRman

/-! ## Data -/

/-! The flags of `sys/rman.h` (lines 37–43). -/

def rfAllocated : BitVec 32 := 0x0001
def rfActive : BitVec 32 := 0x0002
def rfShareable : BitVec 32 := 0x0004
def rfTimeshare : BitVec 32 := 0x0008
def rfWanted : BitVec 32 := 0x0010
def rfFirstshare : BitVec 32 := 0x0020

/-- `RF_ALIGNMENT(x)` (`sys/rman.h`, lines 45–49). -/
def rfAlignment (x : BitVec 32) : ℕ := ((x &&& (0x003f <<< 10)) >>> 10).toNat

/-- `struct resource` (`sys/rman.h`, lines 95–107) without the fields that only drivers use. -/
structure Resource where
  rSharehead : Option ℕ
  rStart : BitVec 64
  rEnd : BitVec 64
  rFlags : BitVec 32
  rDev : ℕ
  deriving DecidableEq, Repr

/-- The test `r_flags & f` for a flag `f`. -/
def Resource.has (r : Resource) (f : BitVec 32) : Prop := r.rFlags &&& f ≠ 0

instance (r : Resource) (f : BitVec 32) : Decidable (r.has f) :=
  inferInstanceAs (Decidable (_ ≠ _))

def Resource.setFlags (r : Resource) (f : BitVec 32) : Resource :=
  { r with rFlags := r.rFlags ||| f }

def Resource.clearFlags (r : Resource) (f : BitVec 32) : Resource :=
  { r with rFlags := r.rFlags &&& ~~~f }

/-- `struct rman`: `rm_list`, the memory of the resources, that of the sharing lists, and the
    first address that `malloc` has not handed out. -/
structure Rman where
  rmList : List ℕ
  res : ℕ → Resource
  sharelist : ℕ → List ℕ
  brk : ℕ

namespace Rman

/-- Assignment to the resource at address `a`. -/
def update (rm : Rman) (a : ℕ) (f : Resource → Resource) : Rman :=
  { rm with res := Function.update rm.res a (f (rm.res a)) }

/-- `malloc(sizeof *r, …)` followed by the assignments to the fields of `*r`. -/
def alloc (rm : Rman) (r : Resource) : Rman × ℕ :=
  ({ rm with res := Function.update rm.res rm.brk r, brk := rm.brk + 1 }, rm.brk)

/-- Assignment to the sharing list at address `h`. -/
def setSharelist (rm : Rman) (h : ℕ) (l : List ℕ) : Rman :=
  { rm with sharelist := Function.update rm.sharelist h l }

end Rman

/-- `TAILQ_INSERT_BEFORE(s, x)`. -/
def insertBefore (s x : ℕ) : List ℕ → List ℕ
  | [] => []
  | a :: l => if a = s then x :: a :: l else a :: insertBefore s x l

/-- `TAILQ_INSERT_AFTER(head, s, x)`. -/
def insertAfter (s x : ℕ) : List ℕ → List ℕ
  | [] => []
  | a :: l => if a = s then a :: x :: l else a :: insertAfter s x l

/-- `TAILQ_PREV(r)`. -/
def tailqPrev (r : ℕ) (l : List ℕ) : Option ℕ := (l.takeWhile (· ≠ r)).getLast?

/-- `TAILQ_NEXT(r)`. -/
def tailqNext (r : ℕ) (l : List ℕ) : Option ℕ := ((l.dropWhile (· ≠ r)).drop 1).head?

/-! ## Building a manager -/

/-- `rman_init` (lines 81–109): an empty `rm_list`. -/
def rmanInit : Rman where
  rmList := []
  res := fun _ => { rSharehead := none, rStart := 0, rEnd := 0, rFlags := 0, rDev := 0 }
  sharelist := fun _ => []
  brk := 0

/-- `TAILQ_INSERT_BEFORE(s, r)` for the first `s` with `!(s->r_end < r->r_start)`, or
    `TAILQ_INSERT_TAIL` (lines 132–142). -/
def insertRegion (rm : Rman) (r : ℕ) : List ℕ → List ℕ
  | [] => [r]
  | s :: l => if (rm.res s).rEnd < (rm.res r).rStart then s :: insertRegion rm r l else r :: s :: l

/-- `rman_manage_region` (lines 115–146); `malloc` tells whether the allocation succeeds. -/
def rmanManageRegion (rm : Rman) (start end' : BitVec 64) (malloc : Bool) : Rman :=
  if malloc then
    let (rm, r) := rm.alloc
      { rSharehead := none, rStart := start, rEnd := end', rFlags := 0, rDev := 0 }
    { rm with rmList := insertRegion rm r rm.rmList }
  else rm

/-! ## Activation -/

/-- `int_rman_activate_resource` (lines 402–435): `true` is the return value 0, `false` is
    `EBUSY`. -/
def intRmanActivateResource (rm : Rman) (r : ℕ) : Rman × Bool :=
  let res := rm.res r
  match res.rSharehead with
  | none => (rm.update r (·.setFlags rfActive), true)
  | some h =>
    if ¬ res.has rfTimeshare ∨ res.has rfActive then (rm.update r (·.setFlags rfActive), true)
    else if (rm.sharelist h).any fun s => (rm.res s).has rfActive then (rm, false)
    else (rm.update r (·.setFlags rfActive), true)

/-- `rman_activate_resource` (lines 437–449). -/
def rmanActivateResource (rm : Rman) (r : ℕ) : Rman × Bool := intRmanActivateResource rm r

/-- `int_rman_deactivate_resource` (lines 476–486); the wakeup of the waiters changes nothing
    here. -/
def intRmanDeactivateResource (rm : Rman) (r : ℕ) : Rman :=
  let rm := rm.update r (·.clearFlags rfActive)
  if (rm.res r).has rfWanted then rm.update r (·.clearFlags rfWanted) else rm

/-- `rman_deactivate_resource` (lines 488–498). -/
def rmanDeactivateResource (rm : Rman) (r : ℕ) : Rman := intRmanDeactivateResource rm r

/-! ## Release -/

/-- The part of `int_rman_release_resource` for a resource on a sharing list (lines 512–537). -/
def releaseShared (rm : Rman) (r h : ℕ) : Option Rman :=
  let rm := rm.setSharelist h ((rm.sharelist h).erase r)
  match rm.sharelist h with
  | [] => none
  | s :: rest =>
    let rm :=
      if (rm.res r).has rfFirstshare then
        let rm := rm.update s (·.setFlags rfFirstshare)
        { rm with rmList := (insertBefore r s rm.rmList).erase r }
      else rm
    match rest with
    | [] =>
      some (rm.update s fun x =>
        { x with rSharehead := none, rFlags := x.rFlags &&& ~~~rfFirstshare })
    | _ :: _ => some rm

/-- The part of `int_rman_release_resource` that merges `r` with the unallocated ones among its
    list neighbours `s` and `t` (lines 543–579). -/
def releaseMerge (rm : Rman) (r : ℕ) : Rman :=
  let s := (tailqPrev r rm.rmList).filter fun s => ¬ (rm.res s).has rfAllocated
  let t := (tailqNext r rm.rmList).filter fun t => ¬ (rm.res t).has rfAllocated
  match s, t with
  | some s, some t =>
    { rm.update s fun x => { x with rEnd := (rm.res t).rEnd } with
      rmList := (rm.rmList.erase r).erase t }
  | some s, none =>
    { rm.update s fun x => { x with rEnd := (rm.res r).rEnd } with rmList := rm.rmList.erase r }
  | none, some t =>
    { rm.update t fun x => { x with rStart := (rm.res r).rStart } with
      rmList := rm.rmList.erase r }
  | none, none => rm.update r (·.clearFlags rfAllocated)

/-- `int_rman_release_resource` (lines 500–584). -/
def intRmanReleaseResource (rm : Rman) (r : ℕ) : Option Rman :=
  let rm := if (rm.res r).has rfActive then intRmanDeactivateResource rm r else rm
  match (rm.res r).rSharehead with
  | some h => releaseShared rm r h
  | none => some (releaseMerge rm r)

/-- `rman_release_resource` (lines 586–596). -/
def rmanReleaseResource (rm : Rman) (r : ℕ) : Option Rman := intRmanReleaseResource rm r

/-! ## Reservation -/

/-- The arguments of `rman_reserve_resource_bound`. -/
structure Request where
  (start end' count bound : BitVec 64)
  flags : BitVec 32
  dev : ℕ
  deriving DecidableEq, Repr

namespace Request

/-- `flags &= ~RF_ACTIVE`. -/
def baseFlags (q : Request) : BitVec 32 := q.flags &&& ~~~rfActive

/-- `amask = (1ul << RF_ALIGNMENT(flags)) - 1`. -/
def amask (q : Request) : BitVec 64 := (1 <<< rfAlignment q.baseFlags) - 1

/-- `bmask = ~(bound - 1)`. -/
def bmask (q : Request) : BitVec 64 := ~~~(q.bound - 1)

end Request

/-- `ulmax` and `ulmin` (`sys/libkern.h`). -/
def ulmax (a b : BitVec 64) : BitVec 64 := if a > b then a else b

def ulmin (a b : BitVec 64) : BitVec 64 := if a < b then a else b

/-- The body of the `do … while` loop (lines 227–229). -/
def adjustRound (q : Request) (rstart : BitVec 64) : BitVec 64 :=
  let rstart := (rstart + q.amask) &&& ~~~q.amask
  if (rstart ^^^ (rstart + q.count - 1)) &&& q.bmask ≠ 0 then
    rstart + (q.bound - (rstart &&& ~~~q.bmask))
  else rstart

/-- The `do … while` loop (lines 226–231) for an entry that ends at `rEnd`, making at most `fuel`
    rounds. -/
def adjust (q : Request) (rEnd : BitVec 64) : ℕ → BitVec 64 → Option (BitVec 64)
  | 0, _ => none
  | fuel + 1, rstart =>
    let rstart := adjustRound q rstart
    if rstart &&& q.amask ≠ 0 ∧ rstart < q.end' ∧ rstart < rEnd then adjust q rEnd fuel rstart
    else some rstart

/-- The search for an unshared region (lines 209–240): `none` when the adjustment does not end,
    otherwise the entry and the start that `goto out` is reached with, if any. -/
def findUnshared (rm : Rman) (q : Request) (fuel : ℕ) : List ℕ → Option (Option (ℕ × BitVec 64))
  | [] => some none
  | s :: l =>
    if (rm.res s).rStart > q.end' then some none
    else if (rm.res s).has rfAllocated then findUnshared rm q fuel l
    else
      match adjust q (rm.res s).rEnd fuel (ulmax (rm.res s).rStart q.start) with
      | none => none
      | some rstart =>
        let rend := ulmin (rm.res s).rEnd (ulmax (rstart + q.count) q.end')
        if rstart > rend then findUnshared rm q fuel l
        else if rend - rstart + 1 ≥ q.count then some (some (s, rstart))
        else findUnshared rm q fuel l

/-- Taking `count` addresses from `rstart` on out of the unallocated entry `s` (lines 243–314). -/
def takeUnshared (rm : Rman) (q : Request) (s : ℕ) (rstart : BitVec 64)
    (malloc1 malloc2 : Bool) : Rman × Option ℕ :=
  if (rm.res s).rEnd - (rm.res s).rStart + 1 = q.count then
    (rm.update s fun x =>
      { x with rFlags := x.rFlags ||| (rfAllocated ||| q.baseFlags), rDev := q.dev }, some s)
  else if ¬ malloc1 then (rm, none)
  else
    let e := rm.res s
    let rvStart := rstart
    let rvEnd := rstart + q.count - 1
    let (rm', rv) := rm.alloc
      { rSharehead := none, rStart := rvStart, rEnd := rvEnd,
        rFlags := q.baseFlags ||| rfAllocated, rDev := q.dev }
    if e.rStart < rvStart ∧ e.rEnd > rvEnd then
      if ¬ malloc2 then (rm, none)
      else
        let (rm', r) := rm'.alloc
          { rSharehead := none, rStart := rvEnd + 1, rEnd := e.rEnd, rFlags := e.rFlags, rDev := 0 }
        let rm' := rm'.update s fun x => { x with rEnd := rvStart - 1 }
        ({ rm' with rmList := insertAfter rv r (insertAfter s rv rm'.rmList) }, some rv)
    else if e.rStart = rvStart then
      let rm' := rm'.update s fun x => { x with rStart := rvEnd + 1 }
      ({ rm' with rmList := insertBefore s rv rm'.rmList }, some rv)
    else
      let rm' := rm'.update s fun x => { x with rEnd := rvStart - 1 }
      ({ rm' with rmList := insertAfter s rv rm'.rmList }, some rv)

/-- The test of lines 333–336 on an entry with enough flags. -/
def sharable (q : Request) (s : Resource) : Bool :=
  s.rStart ≥ q.start && s.rEnd ≤ q.end' && s.rEnd - s.rStart + 1 = q.count &&
    s.rStart &&& q.amask = 0 && (s.rStart ^^^ s.rEnd) &&& q.bmask = 0

/-- The search for a shared region (lines 327–337). -/
def findShared (rm : Rman) (q : Request) : List ℕ → Option ℕ
  | [] => none
  | s :: l =>
    if (rm.res s).rStart > q.end' then none
    else if (rm.res s).rFlags &&& q.baseFlags ≠ q.baseFlags then findShared rm q l
    else if sharable q (rm.res s) then some s
    else findShared rm q l

/-- Joining the holders of `s` (lines 338–364). -/
def addSharer (rm : Rman) (q : Request) (s : ℕ) (malloc1 malloc2 : Bool) : Rman × Option ℕ :=
  if ¬ malloc1 then (rm, none)
  else
    let e := rm.res s
    let (rm', rv) := rm.alloc
      { rSharehead := e.rSharehead, rStart := e.rStart, rEnd := e.rEnd,
        rFlags := e.rFlags &&& (rfAllocated ||| rfShareable ||| rfTimeshare), rDev := q.dev }
    match e.rSharehead with
    | none =>
      if ¬ malloc2 then (rm, none)
      else
        let h := rm'.brk
        let rm' := { rm' with brk := h + 1 }
        let rm' := rm'.update s fun x =>
          { x with rSharehead := some h, rFlags := x.rFlags ||| rfFirstshare }
        let rm' := rm'.update rv fun x => { x with rSharehead := some h }
        (rm'.setSharelist h [rv, s], some rv)
    | some h => (rm'.setSharelist h (rv :: rm'.sharelist h), some rv)

/-- `rman_reserve_resource_bound` up to the label `out` (lines 180–365). -/
def reserveEntry (rm : Rman) (q : Request) (fuel : ℕ) (malloc1 malloc2 : Bool) :
    Option (Rman × Option ℕ) :=
  let l := rm.rmList.dropWhile fun r => (rm.res r).rEnd < q.start
  match findUnshared rm q fuel l with
  | none => none
  | some (some (s, rstart)) => some (takeUnshared rm q s rstart malloc1 malloc2)
  | some none =>
    if q.baseFlags &&& (rfShareable ||| rfTimeshare) = 0 then some (rm, none)
    else
      match findShared rm q l with
      | none => some (rm, none)
      | some s => some (addSharer rm q s malloc1 malloc2)

/-- `rman_reserve_resource_bound` (lines 180–391). -/
def rmanReserveResourceBound (rm : Rman) (q : Request) (fuel : ℕ) (malloc1 malloc2 : Bool) :
    Option (Rman × Option ℕ) :=
  match reserveEntry rm q fuel malloc1 malloc2 with
  | some (rm, some rv) =>
    if q.flags &&& rfActive ≠ 0 then
      match intRmanActivateResource rm rv with
      | (rm, true) => some (rm, some rv)
      | (rm, false) => (intRmanReleaseResource rm rv).map fun rm => (rm, none)
    else some (rm, some rv)
  | r => r

/-- `rman_reserve_resource` (lines 393–400). -/
def rmanReserveResource (rm : Rman) (q : Request) (fuel : ℕ) (malloc1 malloc2 : Bool) :
    Option (Rman × Option ℕ) :=
  rmanReserveResourceBound rm { q with bound := 0 } fuel malloc1 malloc2

/-! ## A manager and its clients -/

/-- A manager with the resources its clients hold, each with the flags it was reserved with. -/
structure Sys where
  rm : Rman
  held : List (ℕ × BitVec 32)

/-- The calls of the clients. A client releases, activates and deactivates what it holds. -/
inductive Op where
  | reserve (q : Request) (fuel : ℕ) (malloc1 malloc2 : Bool)
  | release (r : ℕ)
  | activate (r : ℕ)
  | deactivate (r : ℕ)

/-- The state after a call that a client may make and that returns. -/
def Sys.step (s : Sys) : Op → Option Sys
  | .reserve q fuel malloc1 malloc2 =>
    match rmanReserveResourceBound s.rm q fuel malloc1 malloc2 with
    | none => none
    | some (rm, none) => some { s with rm := rm }
    | some (rm, some r) => some { rm := rm, held := (r, q.flags) :: s.held }
  | .release r =>
    if r ∈ s.held.map Prod.fst then
      (rmanReleaseResource s.rm r).map fun rm =>
        { rm := rm, held := s.held.filter fun c => c.1 ≠ r }
    else none
  | .activate r =>
    if r ∈ s.held.map Prod.fst then some { s with rm := (rmanActivateResource s.rm r).1 } else none
  | .deactivate r =>
    if r ∈ s.held.map Prod.fst then some { s with rm := rmanDeactivateResource s.rm r } else none

end FreeBSD.SubrRman
