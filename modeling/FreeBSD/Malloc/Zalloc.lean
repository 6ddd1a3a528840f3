import Mathlib

/-!
# Memory pools of the boot loader library

Model of `src/malloc/zalloc.c`. The nodes of the free list lie in the memory
that they describe: `node` is what the memory holds at an address, read as a
`MemNode`. A node takes as many bytes as areas are aligned to, so that two
nodes at aligned addresses do not overlap.

Pointers are natural numbers, `NULL` is 0. Sizes are of type `iaddr_t` and
wrap; a pointer plus a size does not, for memory that leaves the last node of
the address space alone.
-/

namespace FreeBSD.Zalloc

/-! ## Data -/

/-- The machines of `zalloc_defs.h`, lines 46–65: `i386` and `powerpc` have 32-bit addresses,
    `alpha`, `ia64` and `sparc64` have 64-bit ones. -/
inductive Arch where
  | ilp32
  | lp64
  deriving DecidableEq, Repr

namespace Arch

/-- The number of values of `iaddr_t`. -/
def iaddrs : Arch → ℕ
  | ilp32 => 2 ^ 32
  | lp64 => 2 ^ 64

/-- `sizeof(MemNode)`: a pointer and an `iaddr_t`. -/
def sizeofMemNode : Arch → ℕ
  | ilp32 => 8
  | lp64 => 16

/-- `MEMNODE_SIZE_MASK`. -/
def memnodeSizeMask (A : Arch) : ℕ := if A.sizeofMemNode ≤ 8 then 7 else 15

/-- `(bytes + MEMNODE_SIZE_MASK) & ~MEMNODE_SIZE_MASK`; the mask is one less than a power of
    two. -/
def round (A : Arch) (bytes : ℕ) : ℕ :=
  let sum := (bytes + A.memnodeSizeMask) % A.iaddrs
  sum - sum % (A.memnodeSizeMask + 1)

end Arch

structure MemNode where
  mrNext : ℕ
  mrBytes : ℕ
  deriving DecidableEq, Repr

structure MemPool where
  mpBase : ℕ
  mpEnd : ℕ
  mpFirst : ℕ
  mpSize : ℕ
  mpUsed : ℕ
  deriving DecidableEq, Repr

/-- A pool and the memory. -/
structure State where
  mp : MemPool
  node : ℕ → MemNode

/-- The panics of `zfree`; `rounds` is a loop that is not over after the given number of rounds. -/
inductive Fault where
  | wildPointer
  | corruptMemlist1
  | corruptMemlist2
  | rounds
  deriving DecidableEq, Repr

namespace State

/-- `*pmn`, where `pmn` is `&mp->mp_First` or the `mr_Next` of a node, its first member. -/
def deref (s : State) : Option ℕ → ℕ
  | none => s.mp.mpFirst
  | some q => (s.node q).mrNext

def setNode (s : State) (p : ℕ) (n : MemNode) : State :=
  { s with node := Function.update s.node p n }

/-- `*pmn = v`. -/
def setLink (s : State) (pmn : Option ℕ) (v : ℕ) : State :=
  match pmn with
  | none => { s with mp := { s.mp with mpFirst := v } }
  | some q => s.setNode q { s.node q with mrNext := v }

def setUsed (s : State) (used : ℕ) : State := { s with mp := { s.mp with mpUsed := used } }

end State

/-- Addition and subtraction of `iaddr_t` values. -/
def Arch.add (A : Arch) (a b : ℕ) : ℕ := (a + b) % A.iaddrs

def Arch.sub (A : Arch) (a b : ℕ) : ℕ := (a + (A.iaddrs - b)) % A.iaddrs

/-! ## Allocation -/

/-- A chunk is cut out of the beginning of the area at `mn` (lines 110–123). -/
def cut (A : Arch) (bytes : ℕ) (s : State) (pmn : Option ℕ) (mn : ℕ) : State :=
  let n := s.node mn
  let s :=
    if n.mrBytes = bytes then s.setLink pmn n.mrNext
    else
      (s.setNode (mn + bytes) { mrNext := n.mrNext, mrBytes := n.mrBytes - bytes }).setLink pmn
        (mn + bytes)
  s.setUsed (A.add s.mp.mpUsed bytes)

/-- The search for a free area (lines 101–124), with the result. -/
def znallocLoop (A : Arch) (bytes : ℕ) : ℕ → State → Option ℕ → Except Fault (State × ℕ)
  | 0, _, _ => .error .rounds
  | rounds + 1, s, pmn =>
    let mn := s.deref pmn
    if mn = 0 then .ok (s, 0)
    else if bytes > (s.node mn).mrBytes then znallocLoop A bytes rounds s (some mn)
    else .ok (cut A bytes s pmn mn, mn)

/-- `znalloc` (lines 79–132). An allocation of nothing is the address `(void *)-1`. -/
def znalloc (A : Arch) (rounds : ℕ) (s : State) (bytes : ℕ) : Except Fault (State × ℕ) :=
  let bytes := A.round bytes
  if bytes = 0 then .ok (s, A.iaddrs - 1)
  else if bytes ≤ A.sub s.mp.mpSize s.mp.mpUsed then znallocLoop A bytes rounds s none
  else .ok (s, 0)

/-! ## Freeing -/

/-- The merge with the area before (lines 201–207). -/
def mergePrevious (A : Arch) (s : State) (pmn : Option ℕ) (ptr : ℕ) : State :=
  match pmn with
  | none => s
  | some q =>
    if q + (s.node q).mrBytes = ptr then
      s.setNode q
        { mrNext := (s.node ptr).mrNext
          mrBytes := A.add (s.node q).mrBytes (s.node ptr).mrBytes }
    else s

/-- The area goes between the one that `pmn` is the link of and `mn` (lines 180–208). -/
def insertBefore (A : Arch) (s : State) (pmn : Option ℕ) (mn ptr bytes : ℕ) : State :=
  let n : MemNode :=
    if ptr + bytes = mn then
      { mrNext := (s.node mn).mrNext, mrBytes := A.add bytes (s.node mn).mrBytes }
    else { mrNext := mn, mrBytes := bytes }
  mergePrevious A ((s.setNode ptr n).setLink pmn ptr) pmn ptr

/-- The area goes to the end of the list (lines 218–228). -/
def append (A : Arch) (s : State) (pmn : Option ℕ) (ptr bytes : ℕ) : State :=
  let add := (s.setNode ptr { mrNext := 0, mrBytes := bytes }).setLink pmn ptr
  match pmn with
  | none => add
  | some q =>
    if q + (s.node q).mrBytes ≠ ptr then add
    else s.setNode q { s.node q with mrBytes := A.add (s.node q).mrBytes bytes }

/-- The search for the place of an area (lines 169–228). -/
def zfreeLoop (A : Arch) (ptr bytes : ℕ) : ℕ → State → Option ℕ → Except Fault State
  | 0, _, _ => .error .rounds
  | rounds + 1, s, pmn =>
    let mn := s.deref pmn
    if mn = 0 then .ok (append A s pmn ptr bytes)
    else if ptr ≤ mn then
      if ptr + bytes > mn then .error .corruptMemlist1
      else .ok (insertBefore A s pmn mn ptr bytes)
    else if ptr < mn + (s.node mn).mrBytes then .error .corruptMemlist2
    else zfreeLoop A ptr bytes rounds s (some mn)

/-- `zfree` (lines 138–230). -/
def zfree (A : Arch) (rounds : ℕ) (s : State) (ptr bytes : ℕ) : Except Fault State :=
  let bytes := A.round bytes
  if bytes = 0 then .ok s
  else if ptr < s.mp.mpBase ∨ ptr + bytes > s.mp.mpEnd ∨ ptr % (A.memnodeSizeMask + 1) ≠ 0 then
    .error .wildPointer
  else zfreeLoop A ptr bytes rounds (s.setUsed (A.sub s.mp.mpUsed bytes)) none

/-! ## Extension -/

/-- An area that begins below the pool (lines 254–258). -/
def extendDown (A : Arch) (mp : MemPool) (base : ℕ) : MemPool :=
  if base < mp.mpBase then
    { mp with
      mpSize := A.add mp.mpSize (mp.mpBase - base)
      mpUsed := A.add mp.mpUsed (mp.mpBase - base)
      mpBase := base }
  else mp

/-- An area that ends above the pool (lines 259–264). -/
def extendUp (A : Arch) (mp : MemPool) (pend fin : ℕ) : MemPool :=
  if fin > pend then
    { mp with
      mpSize := A.add mp.mpSize (fin - pend)
      mpUsed := A.add mp.mpUsed (fin - pend)
      mpEnd := fin }
  else mp

/-- `zextendPool` (lines 243–266). -/
def zextendPool (A : Arch) (mp : MemPool) (base bytes : ℕ) : MemPool :=
  if mp.mpSize = 0 then
    { mp with mpBase := base, mpUsed := bytes, mpEnd := base + bytes, mpSize := bytes }
  else extendUp A (extendDown A mp base) (mp.mpBase + mp.mpSize) (base + bytes)

end FreeBSD.Zalloc
