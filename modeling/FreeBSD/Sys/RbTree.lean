import FreeBSD.Lib.RedBlack
import FreeBSD.Lib.Ascending

/-!
# Red-black trees, `sys/tree.h`

Models of the functions that `RB_GENERATE` makes (lines 320–658). What the source writes out for
the left side and then mirrored for the right is written once here, for a side `d`: with `d` left
it is the branch for the left side, with `d` right the other. An access through `NULL` and a loop
that runs out of `fuel` are `none`. `RB_AUGMENT` is empty (lines 331–333), and the walk that only
calls it (lines 549–554) is left out.
-/

namespace FreeBSD.RbTree

open Lib (Color Dir)

/-- The `RB_ENTRY` of all nodes and the root of the head. -/
structure Mem (α : Type*) where
  /-- `RB_LEFT` and `RB_RIGHT`. -/
  child : Dir → α → Option α
  parent : α → Option α
  color : α → Color
  root : Option α

variable {α : Type*} [DecidableEq α]

namespace Mem

def setChild (m : Mem α) (d : Dir) (a : α) (p : Option α) : Mem α :=
  { m with child := fun e b => if e = d ∧ b = a then p else m.child e b }

def setParent (m : Mem α) (a : α) (p : Option α) : Mem α :=
  { m with parent := Function.update m.parent a p }

def setColor (m : Mem α) (a : α) (c : Color) : Mem α :=
  { m with color := Function.update m.color a c }

/-- `if (x) RB_PARENT(x, field) = p`. -/
def setParentOf (m : Mem α) (x : Option α) (p : Option α) : Mem α :=
  match x with
  | some a => m.setParent a p
  | none => m

/-- `if (x) RB_COLOR(x, field) = c`. -/
def setColorOf (m : Mem α) (x : Option α) (c : Color) : Mem α :=
  match x with
  | some a => m.setColor a c
  | none => m

/-- The side of `p` on which `RB_LEFT(p, field) == x` says that `x` is. -/
def sideOf (m : Mem α) (p : α) (x : Option α) : Dir :=
  if m.child .left p = x then .left else .right

/-- The link to the node `old` from its parent, or the root, is set to `x`. -/
def replaceChild (m : Mem α) (parent : Option α) (old : α) (x : Option α) : Mem α :=
  match parent with
  | some p => m.setChild (m.sideOf p (some old)) p x
  | none => { m with root := x }

/-- `RB_SET_BLACKRED` (lines 326–329). -/
def setBlackred (m : Mem α) (black red : α) : Mem α := (m.setColor black .black).setColor red .red

/-- `x == NULL || RB_COLOR(x, field) == RB_BLACK`. -/
def isBlack (m : Mem α) (x : Option α) : Bool :=
  match x with
  | some a => m.color a = .black
  | none => true

end Mem

open Mem

/-- `RB_INIT` (lines 299–301). -/
def rbInit (m : Mem α) : Mem α := { m with root := none }

/-- `RB_ROTATE_LEFT` for the left side, `RB_ROTATE_RIGHT` for the right (lines 335–371). -/
def rotate (d : Dir) (m : Mem α) (elm : α) : Option (Mem α) := do
  let tmp ← m.child d.opp elm
  let m := m.setChild d.opp elm (m.child d tmp)
  let m := m.setParentOf (m.child d tmp) (some elm)
  let m := m.setParent tmp (m.parent elm)
  let m := m.replaceChild (m.parent tmp) elm (some tmp)
  let m := m.setChild d tmp (some elm)
  pure (m.setParent elm (some tmp))

/-- The end of a turn of `RB_INSERT_COLOR` with a black uncle (lines 403–410): the memory, and the
node of the next turn. -/
def insertRotate (d : Dir) (m : Mem α) (parent gparent elm : α) : Option (Mem α × α) := do
  let (m, parent, elm) ←
    if m.child d.opp parent = some elm then do
      let m ← rotate d m parent
      pure (m, elm, parent)
    else pure (m, parent, elm)
  let m := m.setBlackred parent gparent
  let m ← rotate d.opp m gparent
  pure (m, elm)

/-- The loop of `RB_INSERT_COLOR` (lines 392–428). -/
def insertColorLoop : ℕ → Mem α → α → Option (Mem α)
  | 0, _, _ => none
  | fuel + 1, m, elm =>
    match m.parent elm with
    | none => some m
    | some parent =>
      if m.color parent = .black then some m
      else
        match m.parent parent with
        | none => none
        | some gparent =>
          let d := m.sideOf gparent (some parent)
          let tmp := m.child d.opp gparent
          if m.isBlack tmp then
            match insertRotate d m parent gparent elm with
            | none => none
            | some (m, elm) => insertColorLoop fuel m elm
          else
            let m := m.setColorOf tmp .black
            insertColorLoop fuel (m.setBlackred parent gparent) gparent

/-- `RB_INSERT_COLOR` (lines 388–430). -/
def insertColor (fuel : ℕ) (m : Mem α) (elm : α) : Option (Mem α) := do
  let m ← insertColorLoop fuel m elm
  let root ← m.root
  pure (m.setColor root .black)

/-- The last rotations of `RB_REMOVE_COLOR` (lines 453–467): the memory after them. -/
def removeRotate (d : Dir) (m : Mem α) (parent tmp : α) : Option (Mem α) := do
  let (m, tmp) ←
    if m.isBlack (m.child d.opp tmp) then do
      let m := m.setColorOf (m.child d tmp) .black
      let m := m.setColor tmp .red
      let m ← rotate d.opp m tmp
      let tmp ← m.child d.opp parent
      pure (m, tmp)
    else pure (m, tmp)
  let m := m.setColor tmp (m.color parent)
  let m := m.setColor parent .black
  let m := m.setColorOf (m.child d.opp tmp) .black
  rotate d m parent

/-- The start of a turn of `RB_REMOVE_COLOR` (lines 439–444): the memory and the sibling, which is
black. -/
def blackSibling (d : Dir) (m : Mem α) (parent : α) : Option (Mem α × α) := do
  let tmp ← m.child d.opp parent
  if m.color tmp = .red then do
    let m := m.setBlackred tmp parent
    let m ← rotate d m parent
    let tmp ← m.child d.opp parent
    pure (m, tmp)
  else pure (m, tmp)

/-- The loop of `RB_REMOVE_COLOR` (lines 436–502): the memory, and what `elm` is after it. -/
def removeColorLoop : ℕ → Mem α → Option α → Option α → Option (Mem α × Option α)
  | 0, _, _, _ => none
  | fuel + 1, m, parent, elm =>
    if m.isBlack elm ∧ elm ≠ m.root then
      match parent with
      | none => none
      | some parent =>
        let d := m.sideOf parent elm
        match blackSibling d m parent with
        | none => none
        | some (m, tmp) =>
          if m.isBlack (m.child .left tmp) ∧ m.isBlack (m.child .right tmp) then
            let m := m.setColor tmp .red
            removeColorLoop fuel m (m.parent parent) (some parent)
          else
            match removeRotate d m parent tmp with
            | none => none
            | some m => some (m, m.root)
    else some (m, elm)

/-- `RB_REMOVE_COLOR` (lines 432–505). -/
def removeColor (fuel : ℕ) (m : Mem α) (parent elm : Option α) : Option (Mem α) := do
  let (m, elm) ← removeColorLoop fuel m parent elm
  pure (m.setColorOf elm .black)

/-- `while ((left = RB_LEFT(elm, field))) elm = left`. -/
def leftmost (m : Mem α) : ℕ → α → Option α
  | 0, _ => none
  | fuel + 1, elm =>
    match m.child .left elm with
    | none => some elm
    | some left => leftmost m fuel left

/-- The node is taken out, and its child put in its place (lines 525–534 and 559–568). -/
def splice (m : Mem α) (elm : α) (child parent : Option α) : Mem α :=
  (m.setParentOf child parent).replaceChild parent elm child

/-- `(elm)->field = (old)->field`. -/
def copyField (m : Mem α) (elm old : α) : Mem α where
  child := fun d b => if b = elm then m.child d old else m.child d b
  parent := Function.update m.parent elm (m.parent old)
  color := Function.update m.color elm (m.color old)
  root := m.root

/-- The node `elm` takes the place of `old` (lines 537–548). -/
def takePlace (m : Mem α) (elm old : α) : Option (Mem α) := do
  let m := copyField m elm old
  let m := m.replaceChild (m.parent old) old (some elm)
  let left ← m.child .left old
  let m := m.setParent left (some elm)
  pure (m.setParentOf (m.child .right old) (some elm))

/-- The end of `RB_REMOVE` (lines 569–571); `color` is that of the node taken out. -/
def colorAfterRemove (fuel : ℕ) (m : Mem α) (color : Color) (parent child : Option α) :
    Option (Mem α) :=
  if color = .black then removeColor fuel m parent child else some m

/-- `RB_REMOVE` (lines 508–573). -/
def rbRemove (fuel : ℕ) (m : Mem α) (old : α) : Option (Mem α × α) :=
  match m.child .left old, m.child .right old with
  | some _, some right => do
    let elm ← leftmost m fuel right
    let child := m.child .right elm
    let parent := m.parent elm
    let color := m.color elm
    let m := splice m elm child parent
    let parent := if m.parent elm = some old then some elm else parent
    let m ← takePlace m elm old
    let m ← colorAfterRemove fuel m color parent child
    pure (m, old)
  | left, right => do
    let child := if left = none then right else left
    let parent := m.parent old
    let color := m.color old
    let m := splice m old child parent
    let m ← colorAfterRemove fuel m color parent child
    pure (m, old)

section Compare

variable (cmp : α → α → Ordering)

/-- The way down of `RB_INSERT` (lines 579–592): the node that compares as equal, or the last node
on the way with the result of the last comparison. -/
def descend (m : Mem α) (elm : α) :
    ℕ → Option α → Option α → Ordering → Option (α ⊕ (Option α × Ordering))
  | _, none, parent, comp => some (.inr (parent, comp))
  | 0, some _, _, _ => none
  | fuel + 1, some tmp, _, _ =>
    match cmp elm tmp with
    | .lt => descend m elm fuel (m.child .left tmp) (some tmp) .lt
    | .gt => descend m elm fuel (m.child .right tmp) (some tmp) .gt
    | .eq => some (.inl tmp)

/-- `RB_SET` (lines 320–324). -/
def rbSet (m : Mem α) (elm : α) (parent : Option α) : Mem α :=
  (((m.setParent elm parent).setChild .left elm none).setChild .right elm none).setColor elm .red

/-- The new node is hung under its parent, or made the root (lines 594–601). -/
def linkLeaf (m : Mem α) (parent : Option α) (comp : Ordering) (elm : α) : Mem α :=
  match parent with
  | some parent => m.setChild (if comp = .lt then .left else .right) parent (some elm)
  | none => { m with root := some elm }

/-- `RB_INSERT` (lines 576–604). -/
def rbInsert (fuel : ℕ) (m : Mem α) (elm : α) : Option (Mem α × Option α) := do
  match ← descend cmp m elm fuel m.root none .eq with
  | .inl tmp => pure (m, some tmp)
  | .inr (parent, comp) =>
    let m ← insertColor fuel (linkLeaf (rbSet m elm parent) parent comp elm) elm
    pure (m, none)

/-- `RB_FIND` (lines 607–622); the loop is for the part of the tree under `tmp`. -/
def rbFind (m : Mem α) (elm : α) : ℕ → Option α → Option (Option α)
  | _, none => some none
  | 0, some _ => none
  | fuel + 1, some tmp =>
    match cmp elm tmp with
    | .lt => rbFind m elm fuel (m.child .left tmp)
    | .gt => rbFind m elm fuel (m.child .right tmp)
    | .eq => some (some tmp)

end Compare

/-- `while (RB_PARENT(elm, field) && (elm == RB_RIGHT(RB_PARENT(elm, field), field))) elm =
RB_PARENT(elm, field)`, then `elm = RB_PARENT(elm, field)` (lines 636–639). -/
def climb (m : Mem α) : ℕ → α → Option (Option α)
  | 0, _ => none
  | fuel + 1, elm =>
    match m.parent elm with
    | none => some none
    | some parent =>
      if m.child .right parent = some elm then climb m fuel parent else some (some parent)

/-- `RB_NEXT` (lines 624–643). -/
def rbNext (m : Mem α) (fuel : ℕ) (elm : α) : Option (Option α) :=
  match m.child .right elm with
  | some right => (leftmost m fuel right).map some
  | none =>
    match m.parent elm with
    | some parent =>
      if m.child .left parent = some elm then some (some parent) else climb m fuel elm
    | none => climb m fuel elm

/-- The loop of `RB_MINMAX` (lines 645–658): it goes down on the side `d` of `val`. -/
def minmaxLoop (m : Mem α) (d : Dir) : ℕ → Option α → Option α → Option (Option α)
  | _, none, parent => some parent
  | 0, some _, _ => none
  | fuel + 1, some tmp, _ => minmaxLoop m d fuel (m.child d tmp) (some tmp)

/-- `RB_MIN` and `RB_MAX`. -/
def rbMinmax (m : Mem α) (fuel : ℕ) (d : Dir) : Option (Option α) :=
  minmaxLoop m d fuel m.root none

/-- `RB_FOREACH`, from the node `x` on: the nodes that the body sees. -/
def foreachFrom (m : Mem α) (fuel : ℕ) : ℕ → Option α → Option (List α)
  | _, none => some []
  | 0, some _ => none
  | turns + 1, some x => do
    let y ← rbNext m fuel x
    let rest ← foreachFrom m fuel turns y
    pure (x :: rest)

/-- `RB_FOREACH`. -/
def rbForeach (m : Mem α) (fuel : ℕ) : Option (List α) := do
  let x ← rbMinmax m fuel .left
  foreachFrom m fuel fuel x

end FreeBSD.RbTree
