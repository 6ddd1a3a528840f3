import Mathlib.Tactic

/-!
# Walking a radix tree

Model of `rn_walktree_from` of `sys/net/radix.c`. Nodes lie in a memory and are
known by their addresses, `NULL` is 0; the union of a node has a field for each
of its members. A loop gets a number of rounds and is `none` if it is not over
after them. The callback gets the calls before and the leaf.

`RnTree` is what the nodes are meant to be: internal nodes with two subtrees, and
leaves with their chain of duplicated keys. `Repr` says that a memory holds a
tree.
-/

namespace FreeBSD.Radix

/-! ## Data -/

/-- `struct radix_node` (`net/radix.h`, lines 53–79), without the keys and the masks. -/
structure RadixNode where
  rnParent : ℕ
  rnBit : ℤ
  rnBmask : BitVec 8
  rnFlags : BitVec 8
  rnOffset : ℕ
  rnLeft : ℕ
  rnRight : ℕ
  rnDupedkey : ℕ
  deriving DecidableEq, Repr

abbrev Mem := ℕ → RadixNode

/-- `RNF_ROOT`. -/
def rnfRoot : BitVec 8 := 2

/-- `rn->rn_flags & RNF_ROOT`. -/
def isRoot (m : Mem) (p : ℕ) : Bool := (m p).rnFlags &&& rnfRoot ≠ 0

/-! ## The walk -/

/-- The descent along the address `xa` under the mask `xm` (lines 906–919): the last internal node
    that is looked at. -/
def descend (m : Mem) (xa xm : ℕ → BitVec 8) : ℕ → ℕ → ℕ → Option ℕ
  | 0, _, _ => none
  | rounds + 1, rn, last =>
    if (m rn).rnBit ≥ 0 then
      if (m rn).rnBmask &&& xm (m rn).rnOffset = 0 then some rn
      else if (m rn).rnBmask &&& xa (m rn).rnOffset ≠ 0 then
        descend m xa xm rounds (m rn).rnRight rn
      else descend m xa xm rounds (m rn).rnLeft rn
    else some last

/-- The leftmost leaf below a node (lines 937–938 and 956–957). -/
def leftmost (m : Mem) : ℕ → ℕ → Option ℕ
  | 0, _ => none
  | rounds + 1, rn => if (m rn).rnBit ≥ 0 then leftmost m rounds (m rn).rnLeft else some rn

/-- The way up from a right child (lines 944–953), with `stopping`. -/
def climb (m : Mem) (lastb : ℤ) : ℕ → ℕ → Bool → Option (ℕ × Bool)
  | 0, _, _ => none
  | rounds + 1, rn, stopping =>
    if (m (m rn).rnParent).rnRight = rn ∧ isRoot m rn = false then
      climb m lastb rounds (m rn).rnParent (stopping || decide ((m (m rn).rnParent).rnBit < lastb))
    else some (rn, stopping)

/-- The calls for a leaf and its chain (lines 960–966): the calls so far, and the value that is
    returned if the callback does not return 0. -/
def processLeaves (m : Mem) (f : List ℕ → ℕ → ℤ) : ℕ → ℕ → List ℕ → Option (List ℕ × ℤ)
  | 0, _, _ => none
  | rounds + 1, rn, calls =>
    if rn = 0 then some (calls, 0)
    else if isRoot m rn = false then
      let error := f calls rn
      if error ≠ 0 then some (calls ++ [rn], error)
      else processLeaves m f rounds (m rn).rnDupedkey (calls ++ [rn])
    else processLeaves m f rounds (m rn).rnDupedkey calls

/-- The loop over the leaves (lines 940–974); `n` is the number of rounds of the loops in it. -/
def walkLoop (m : Mem) (f : List ℕ → ℕ → ℤ) (lastb : ℤ) (n : ℕ) :
    ℕ → ℕ → List ℕ → Option (List ℕ × ℤ)
  | 0, _, _ => none
  | rounds + 1, rn, calls => do
    let (up, stopping) ← climb m lastb n rn false
    let next ← leftmost m n (m (m up).rnParent).rnRight
    let (calls, error) ← processLeaves m f n rn calls
    if error ≠ 0 then some (calls, error)
    else if stopping || isRoot m next then some (calls, 0)
    else walkLoop m f lastb n rounds next calls

/-- `rn_walktree_from` (lines 887–976) with `n` rounds for each loop: the calls of `f`, and what is
    returned. -/
def rnWalktreeFrom (m : Mem) (f : List ℕ → ℕ → ℤ) (n treetop : ℕ) (xa xm : ℕ → BitVec 8) :
    Option (List ℕ × ℤ) := do
  let last ← descend m xa xm n treetop 0
  let rn ← leftmost m n last
  walkLoop m f (m last).rnBit n n rn []

/-! ## Trees -/

/-- An internal node with its subtrees, or a leaf with the rest of its chain. -/
inductive RnTree
  | leaf (a : ℕ) (dup : List ℕ)
  | node (p : ℕ) (l r : RnTree)

namespace RnTree

def addr : RnTree → ℕ
  | leaf a _ => a
  | node p _ _ => p

/-- The first leaf. -/
def first : RnTree → ℕ
  | leaf a _ => a
  | node _ l _ => l.first

/-- The first and the last leaf with their chains. -/
def firstChain : RnTree → List ℕ
  | leaf a dup => a :: dup
  | node _ l _ => l.firstChain

def lastChain : RnTree → List ℕ
  | leaf a dup => a :: dup
  | node _ _ r => r.lastChain

/-- The last leaf. -/
def last : RnTree → ℕ
  | leaf a _ => a
  | node _ _ r => r.last

/-- The leaves without those in the chain of another. -/
def heads : RnTree → List ℕ
  | leaf a _ => [a]
  | node _ l r => l.heads ++ r.heads

/-- All leaves. -/
def leaves : RnTree → List ℕ
  | leaf a dup => a :: dup
  | node _ l r => l.leaves ++ r.leaves

/-- The internal nodes. -/
def inner : RnTree → List ℕ
  | leaf _ _ => []
  | node p l r => p :: (l.inner ++ r.inner)

/-- All nodes. -/
def nodes : RnTree → List ℕ
  | leaf a dup => a :: dup
  | node p l r => p :: (l.nodes ++ r.nodes)

end RnTree

/-- The chain of duplicated keys. -/
def DupChain (m : Mem) : List ℕ → Prop
  | [] => True
  | [a] => a ≠ 0 ∧ (m a).rnDupedkey = 0
  | a :: b :: l => a ≠ 0 ∧ (m a).rnDupedkey = b ∧ DupChain m (b :: l)

/-- The memory holds a tree below the node `par`, with larger bits than `b`. -/
def Repr (m : Mem) : ℕ → ℤ → RnTree → Prop
  | par, _, .leaf a dup => (m a).rnBit < 0 ∧ (m a).rnParent = par ∧ DupChain m (a :: dup)
  | par, b, .node p l r =>
    (b < (m p).rnBit ∧ 0 ≤ (m p).rnBit ∧ (m p).rnParent = par ∧ (m p).rnLeft = l.addr ∧
      (m p).rnRight = r.addr) ∧ Repr m p (m p).rnBit l ∧ Repr m p (m p).rnBit r

/-- A tree as `rn_inithead` and `rn_addroute` leave it: the treetop is an internal node and its own
    parent, the bits grow on the way down, and only the treetop and leaves in the first and the last
    chain are root nodes. -/
structure WellFormed (m : Mem) (t : RnTree) : Prop where
  isNode : ∃ p l r, t = .node p l r
  repr : Repr m t.addr (-1) t
  nodup : t.nodes.Nodup
  inner : ∀ p ∈ t.inner, isRoot m p = true → p = t.addr
  leaves : ∀ a ∈ t.leaves, isRoot m a = true → a ∈ t.firstChain ∨ a ∈ t.lastChain

end FreeBSD.Radix
