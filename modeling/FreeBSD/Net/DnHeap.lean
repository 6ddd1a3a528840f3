import FreeBSD.Lib.BinHeap
import FreeBSD.Lib.Runs

/-!
# The heaps of dummynet

Model of `heap_init`, `heap_insert`, `heap_extract` and `heapify`, and of the two functions of
`netinet/ip_dummynet.c` that take objects out of a heap in another way. An object is known by its
address. `pos` is the `int` at the offset in each object, where a heap with an offset keeps the
position of the object. A result `none` stands for a panic.
-/

namespace FreeBSD.IpDummynet

/-! ## Data -/

/-- `DN_KEY_LT` (`ip_dummynet.h`, line 61). -/
def dnKeyLt (a b : BitVec 64) : Bool := (a - b).toInt < 0

/-- `struct dn_heap_entry` (lines 100–103). -/
structure DnHeapEntry where
  key : BitVec 64
  object : ℕ
  deriving DecidableEq

/-- `struct dn_heap` (lines 105–110). -/
structure DnHeap where
  size : ℕ
  elements : ℕ
  offset : ℕ
  p : ℕ → DnHeapEntry

/-- A heap and the positions that are stored in objects. -/
structure State where
  h : DnHeap
  pos : ℕ → ℤ

/-! ## Insertion -/

/-- `heap_init` (lines 218–242): the memory is there or not. -/
def heapInit (h : DnHeap) (newSize : ℕ) (mem : Bool) : Option DnHeap :=
  if h.size ≥ newSize then some h
  else if mem then some { h with size := (newSize + 15) / 16 * 16 }
  else none

/-- `SET_OFFSET` (lines 254–256). -/
def setOffset (s : State) (node : ℕ) : State :=
  if s.h.offset > 0 then { s with pos := Function.update s.pos (s.h.p node).object node } else s

/-- `RESET_OFFSET` (lines 260–262). -/
def resetOffset (s : State) (node : ℕ) : State :=
  if s.h.offset > 0 then { s with pos := Function.update s.pos (s.h.p node).object (-1) } else s

def State.setP (s : State) (p : ℕ → DnHeapEntry) : State := { s with h := { s.h with p := p } }

/-- `HEAP_SWAP`. -/
def heapSwap (s : State) (a b : ℕ) : State := s.setP (s.h.p ∘ Equiv.swap a b)

/-- The loop of `heap_insert` (lines 280–293), from the position `son` on, and the assignment behind
    it. The loop runs `son` times at most. -/
def bubbleUp : ℕ → State → ℕ → State
  | 0, s, son => setOffset s son
  | rounds + 1, s, son =>
    if son > 0 then
      if dnKeyLt (s.h.p (Lib.father son)).key (s.h.p son).key then setOffset s son
      else bubbleUp rounds (setOffset (heapSwap s son (Lib.father son)) son) (Lib.father son)
    else setOffset s son

/-- `heap_insert(h, son, NULL)`. -/
def heapInsertAt (s : State) (son : ℕ) : State := bubbleUp son s son

/-- `heap_insert(h, key1, p)` with an object (lines 263–295), and what it returns. -/
def heapInsert (s : State) (key1 : BitVec 64) (object : ℕ) (mem : Bool) : State × ℤ :=
  let son := s.h.elements
  match if son = s.h.size then heapInit s.h (son + 1) mem else some s.h with
  | none => (s, 1)
  | some h =>
    let h := { h with p := Function.update h.p son ⟨key1, object⟩, elements := son + 1 }
    (heapInsertAt { s with h := h } son, 0)

/-! ## Extraction -/

/-- The son that moves up (lines 322–323). -/
def smallerSon (s : State) (child max : ℕ) : ℕ :=
  if child ≠ max ∧ dnKeyLt (s.h.p (child + 1)).key (s.h.p child).key then child + 1 else child

/-- The loop of `heap_extract` (lines 321–328): where the hole is at the end. -/
def sink (max : ℕ) : ℕ → State → ℕ → State × ℕ
  | 0, s, father => (s, father)
  | rounds + 1, s, father =>
    if 2 * father + 1 ≤ max then
      let child := smallerSon s (2 * father + 1) max
      sink max rounds (setOffset (s.setP (Function.update s.h.p father (s.h.p child))) father) child
    else (s, father)

/-- `heap_extract` from the position `father` on (lines 319–336). -/
def extractAt (s : State) (father : ℕ) : State :=
  let max := s.h.elements - 1
  let (s, father) := sink max s.h.elements (resetOffset s father) father
  let s := { s with h := { s.h with elements := max } }
  if father ≠ max then heapInsertAt (s.setP (Function.update s.h.p father (s.h.p max))) father
  else s

/-- `heap_extract` (lines 300–336). -/
def heapExtract (s : State) (obj : Option ℕ) : Option State :=
  if s.h.elements = 0 then some s
  else match obj with
    | none => some (extractAt s 0)
    | some obj =>
      if s.h.offset = 0 then none
      else if s.pos obj < 0 ∨ s.pos obj ≥ s.h.elements then none
      else some (extractAt s (s.pos obj).toNat)

/-! ## Bulk removal -/

/-- The loop of `heapify` (lines 387–388), up to position `n`. -/
def heapifyTo (s : State) : ℕ → State
  | 0 => s
  | n + 1 => heapInsertAt (heapifyTo s n) n

/-- `heapify` (lines 383–389). -/
def heapify (s : State) : State := heapifyTo s s.h.elements

/-- The last entry takes the place of entry `i`. -/
def dropEntry (s : State) (i : ℕ) : State :=
  { s with h := { s.h with
      elements := s.h.elements - 1
      p := Function.update s.h.p i (s.h.p (s.h.elements - 1)) } }

/-- The loop of `fs_remove_from_heap` (lines 1683–1689), and `found`. -/
def fsLoop (fsOf : ℕ → ℕ) (fs : ℕ) : ℕ → State → ℕ → ℕ → State × ℕ
  | 0, s, _, found => (s, found)
  | rounds + 1, s, i, found =>
    if i < s.h.elements then
      if fsOf (s.h.p i).object = fs then fsLoop fsOf fs rounds (dropEntry s i) i (found + 1)
      else fsLoop fsOf fs rounds s (i + 1) found
    else (s, found)

/-- `fs_remove_from_heap` (lines 1679–1692); `fsOf` is the field `fs` of the objects. -/
def fsRemoveFromHeap (s : State) (fsOf : ℕ → ℕ) (fs : ℕ) : State :=
  let (s, found) := fsLoop fsOf fs s.h.elements s 0 0
  if found ≠ 0 then heapify s else s

/-- `pipe_remove_from_heap` (lines 1697–1711). -/
def pipeRemoveFromHeap (s : State) (p : ℕ) : State :=
  match (List.range s.h.elements).find? fun i => (s.h.p i).object = p with
  | some i => heapify (dropEntry s i)
  | none => s

/-! ## Operations -/

inductive Op
  | insert (key : BitVec 64) (object : ℕ) (mem : Bool)
  | extractTop
  | extract (object : ℕ)
  | fsRemove (fsOf : ℕ → ℕ) (fs : ℕ)
  | pipeRemove (p : ℕ)

/-- A call, and what `heap_insert` returns. -/
def step (s : State) : Op → Option (State × ℤ)
  | .insert key object mem => some (heapInsert s key object mem)
  | .extractTop => (heapExtract s none).map fun s => (s, 0)
  | .extract object => (heapExtract s (some object)).map fun s => (s, 0)
  | .fsRemove fsOf fs => some (fsRemoveFromHeap s fsOf fs, 0)
  | .pipeRemove p => some (pipeRemoveFromHeap s p, 0)

/-- An empty heap. -/
def empty (offset : ℕ) (p : ℕ → DnHeapEntry) (pos : ℕ → ℤ) : State :=
  { h := { size := 0, elements := 0, offset := offset, p := p }, pos := pos }

end FreeBSD.IpDummynet
