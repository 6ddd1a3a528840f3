import Mathlib.Data.Tree.Basic
import Mathlib.Tactic

/-!
# Binary trees in a memory

The nodes of a binary tree have a left and a right link each: `Links` are the links of all nodes
of the memory. `IsTree k p t` says that the tree `t` is what one meets from the link `p` on.

Results:
* `IsTree.congr`: a tree depends on the links of its nodes only.
* `IsTree.swap`: with left and right exchanged one meets the mirrored tree.
* `IsTree.rotateRight`: the left child becomes the root.
-/

namespace FreeBSD.Lib

open List

variable {α : Type*}

/-! ## Trees -/

/-- The nodes from left to right. -/
def inorder : BinaryTree α → List α
  | .nil => []
  | .node a l r => inorder l ++ a :: inorder r

/-- The tree with left and right exchanged. -/
def mirror : BinaryTree α → BinaryTree α
  | .nil => .nil
  | .node a l r => .node a (mirror r) (mirror l)

@[simp] theorem inorder_nil : inorder (.nil : BinaryTree α) = [] := rfl

@[simp] theorem inorder_node (a : α) (l r : BinaryTree α) :
    inorder (.node a l r) = inorder l ++ a :: inorder r := rfl

@[simp] theorem mirror_nil : mirror (.nil : BinaryTree α) = .nil := rfl

@[simp] theorem mirror_node (a : α) (l r : BinaryTree α) :
    mirror (.node a l r) = .node a (mirror r) (mirror l) := rfl

@[simp] theorem mirror_mirror (t : BinaryTree α) : mirror (mirror t) = t := by
  induction t with
  | nil => rfl
  | node a l r ihl ihr => simp [ihl, ihr]

@[simp] theorem inorder_mirror (t : BinaryTree α) : inorder (mirror t) = (inorder t).reverse := by
  induction t with
  | nil => rfl
  | node a l r ihl ihr => simp [ihl, ihr]

@[simp] theorem length_inorder (t : BinaryTree α) : (inorder t).length = t.numNodes := by
  induction t with
  | nil => rfl
  | node a l r ihl ihr =>
    simp only [inorder_node, length_append, length_cons, ihl, ihr, BinaryTree.numNodes]
    omega

/-! ## Links -/

/-- The links of all nodes. -/
structure Links (α : Type*) where
  left : α → Option α
  right : α → Option α

namespace Links

/-- Left and right exchanged. -/
def swap (k : Links α) : Links α := ⟨k.right, k.left⟩

@[simp] theorem swap_left (k : Links α) : k.swap.left = k.right := rfl

@[simp] theorem swap_right (k : Links α) : k.swap.right = k.left := rfl

@[simp] theorem swap_swap (k : Links α) : k.swap.swap = k := rfl

variable [DecidableEq α]

/-- The assignment `a->left = p`. -/
def setLeft (k : Links α) (a : α) (p : Option α) : Links α :=
  { k with left := Function.update k.left a p }

/-- The assignment `a->right = p`. -/
def setRight (k : Links α) (a : α) (p : Option α) : Links α :=
  { k with right := Function.update k.right a p }

variable {k : Links α} {a b : α} {p : Option α}

@[simp] theorem setLeft_left_self : (k.setLeft a p).left a = p := by simp [setLeft]

@[simp] theorem setRight_right_self : (k.setRight a p).right a = p := by simp [setRight]

@[simp] theorem setLeft_right : (k.setLeft a p).right = k.right := rfl

@[simp] theorem setRight_left : (k.setRight a p).left = k.left := rfl

@[simp] theorem setLeft_left_of_ne (h : b ≠ a) : (k.setLeft a p).left b = k.left b := by
  simp [setLeft, h]

@[simp] theorem setRight_right_of_ne (h : b ≠ a) : (k.setRight a p).right b = k.right b := by
  simp [setRight, h]

theorem setLeft_swap : (k.setLeft a p).swap = k.swap.setRight a p := rfl

theorem setRight_swap : (k.setRight a p).swap = k.swap.setLeft a p := rfl

/-- The two memories have the same links at these nodes. -/
def SameAt (k k' : Links α) (l : List α) : Prop :=
  ∀ a ∈ l, k'.left a = k.left a ∧ k'.right a = k.right a

theorem sameAt_setLeft {l : List α} (h : a ∉ l) : k.SameAt (k.setLeft a p) l := by
  intro b hb
  have hne : b ≠ a := fun heq => h (heq ▸ hb)
  exact ⟨setLeft_left_of_ne hne, rfl⟩

theorem sameAt_setRight {l : List α} (h : a ∉ l) : k.SameAt (k.setRight a p) l := by
  intro b hb
  have hne : b ≠ a := fun heq => h (heq ▸ hb)
  exact ⟨rfl, setRight_right_of_ne hne⟩

end Links

/-! ## Trees in a memory -/

/-- From the link `p` on one meets the tree `t`. -/
def IsTree (k : Links α) : Option α → BinaryTree α → Prop
  | p, .nil => p = none
  | p, .node a l r => p = some a ∧ IsTree k (k.left a) l ∧ IsTree k (k.right a) r

variable {k k' : Links α} {p : Option α} {t : BinaryTree α}

@[simp] theorem isTree_none : IsTree k none t ↔ t = .nil := by
  cases t with
  | nil => simp [IsTree]
  | node a l r => simp [IsTree]

theorem IsTree.of_some {a : α} (h : IsTree k (some a) t) :
    ∃ l r, t = .node a l r ∧ IsTree k (k.left a) l ∧ IsTree k (k.right a) r := by
  cases t with
  | nil => simp [IsTree] at h
  | node b l r =>
    obtain ⟨hb, hl, hr⟩ := h
    obtain rfl := Option.some.inj hb
    exact ⟨l, r, rfl, hl, hr⟩

/-- A tree depends on the links of its nodes only. -/
theorem IsTree.congr (h : IsTree k p t)
    (hsame : ∀ a ∈ inorder t, k'.left a = k.left a ∧ k'.right a = k.right a) : IsTree k' p t := by
  induction t generalizing p with
  | nil => exact h
  | node a l r ihl ihr =>
    obtain ⟨hp, hl, hr⟩ := h
    obtain ⟨hleft, hright⟩ := hsame a (by simp)
    refine ⟨hp, ?_, ?_⟩
    · rw [hleft]; exact ihl hl fun b hb => hsame b (by simp [hb])
    · rw [hright]; exact ihr hr fun b hb => hsame b (by simp [hb])

/-- With left and right exchanged one meets the mirrored tree. -/
theorem IsTree.swap (h : IsTree k p t) : IsTree k.swap p (mirror t) := by
  induction t generalizing p with
  | nil => exact h
  | node a l r ihl ihr => exact ⟨h.1, ihr h.2.2, ihl h.2.1⟩

/-- The left child becomes the root. -/
theorem IsTree.rotateRight [DecidableEq α] {a y : α} {l r : BinaryTree α}
    (h : IsTree k (some a) (.node a l r)) (hnodup : (inorder (.node a l r)).Nodup)
    (hy : k.left a = some y) : ∃ yl yr, l = .node y yl yr ∧
    IsTree ((k.setLeft a (k.right y)).setRight y (some a)) (some y)
      (.node y yl (.node a yr r)) := by
  obtain ⟨-, hl, hr⟩ := h
  rw [hy] at hl
  obtain ⟨yl, yr, rfl, hyl, hyr⟩ := hl.of_some
  simp only [inorder_node, nodup_append, nodup_cons, mem_append,
    mem_cons] at hnodup
  obtain ⟨⟨-, ⟨hyyr, -⟩, hylr⟩, ⟨har, -⟩, hlr⟩ := hnodup
  have hya : y ≠ a := hlr y (by simp) a (by simp)
  have hframe : ∀ b, b ≠ a → b ≠ y →
      ((k.setLeft a (k.right y)).setRight y (some a)).left b = k.left b ∧
      ((k.setLeft a (k.right y)).setRight y (some a)).right b = k.right b := by
    intro b hba hby
    simp [hba, hby]
  refine ⟨yl, yr, rfl, rfl, ?_, ?_⟩
  · rw [Links.setRight_left, Links.setLeft_left_of_ne hya]
    refine hyl.congr fun b hb => hframe b ?_ ?_
    · exact hlr b (by simp [hb]) a (by simp)
    · exact hylr b hb y (by simp)
  rw [Links.setRight_right_self]
  refine ⟨rfl, ?_, ?_⟩
  · rw [Links.setRight_left, Links.setLeft_left_self]
    refine hyr.congr fun b hb => hframe b ?_ ?_
    · exact hlr b (by simp [hb]) a (by simp)
    · rintro rfl; exact hyyr hb
  · rw [Links.setRight_right_of_ne hya.symm, Links.setLeft_right]
    refine hr.congr fun b hb => hframe b ?_ ?_
    · rintro rfl; exact har hb
    · exact (hlr y (by simp) b (by simp [hb])).symm

end FreeBSD.Lib
