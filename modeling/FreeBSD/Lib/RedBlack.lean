import Mathlib.Data.List.Nodup
import Mathlib.Tactic

/-!
# Red-black trees

Binary trees with coloured nodes, and trees with a hole: a context is the list of nodes from the
hole up to the root, each with the side on which the hole is and its other child. Everything comes
in two sides, `Dir`, so that a statement and its mirror image are one.

Results:
* `inorder_plug`: the nodes from left to right are those before the hole, in it and after it.
* `inorder_rotate`: a rotation keeps them.
* `RedBlack.plug`: a tree fits into a context that wants its black height.
-/

namespace FreeBSD.Lib

inductive Color
  | black
  | red
  deriving DecidableEq

/-- The two sides of a node. -/
inductive Dir
  | left
  | right
  deriving DecidableEq

/-- The other side. -/
def Dir.opp : Dir → Dir
  | left => right
  | right => left

@[simp] theorem Dir.opp_left : Dir.left.opp = .right := rfl
@[simp] theorem Dir.opp_right : Dir.right.opp = .left := rfl
@[simp] theorem Dir.opp_opp (d : Dir) : d.opp.opp = d := by cases d <;> rfl
theorem Dir.eq_opp_of_ne {d e : Dir} (h : e ≠ d) : e = d.opp := by
  cases d <;> cases e <;> simp_all [opp]

@[simp] theorem Dir.opp_ne (d : Dir) : d.opp ≠ d := by cases d <;> decide
@[simp] theorem Dir.ne_opp (d : Dir) : d ≠ d.opp := by cases d <;> decide

namespace RedBlack

/-- A tree with coloured nodes. -/
inductive CTree (α : Type*)
  | nil
  | node (c : Color) (l : CTree α) (a : α) (r : CTree α)

variable {α : Type*} {t x y z : CTree α} {a b : α} {c c' : Color} {d : Dir} {n : ℕ}

/-- The node with the child `x` on the side `d` and `y` on the other. -/
def join (d : Dir) (c : Color) (x : CTree α) (a : α) (y : CTree α) : CTree α :=
  match d with
  | .left => .node c x a y
  | .right => .node c y a x

theorem join_opp : join d.opp c x a y = join d c y a x := by
  cases d <;> rfl

/-- The node at the root. -/
def ptr : CTree α → Option α
  | .nil => none
  | .node _ _ a _ => some a

@[simp] theorem ptr_nil : ptr (.nil : CTree α) = none := rfl
@[simp] theorem ptr_node {l r : CTree α} : ptr (.node c l a r) = some a := rfl
@[simp] theorem ptr_join : ptr (join d c x a y) = some a := by cases d <;> rfl

/-- The colour of the root; where there is none it counts as black. -/
def color : CTree α → Color
  | .nil => .black
  | .node c _ _ _ => c

@[simp] theorem color_nil : color (.nil : CTree α) = .black := rfl
@[simp] theorem color_node {l r : CTree α} : color (.node c l a r) = c := rfl
@[simp] theorem color_join : color (join d c x a y) = c := by cases d <;> rfl

/-- The nodes from left to right. -/
def inorder : CTree α → List α
  | .nil => []
  | .node _ l a r => inorder l ++ a :: inorder r

@[simp] theorem inorder_nil : inorder (.nil : CTree α) = [] := rfl
@[simp] theorem inorder_node {l r : CTree α} :
    inorder (.node c l a r) = inorder l ++ a :: inorder r := rfl

/-- A tree that is not empty, seen from a side. -/
theorem eq_join (d : Dir) (h : ptr t = some a) : ∃ x y, t = join d (color t) x a y := by
  cases t with
  | nil => cases h
  | node c l b r =>
    obtain rfl := Option.some.inj h
    cases d
    · exact ⟨l, r, rfl⟩
    · exact ⟨r, l, rfl⟩

theorem mem_inorder_join :
    b ∈ inorder (join d c x a y) ↔ b = a ∨ b ∈ inorder x ∨ b ∈ inorder y := by
  cases d <;> simp [join] <;> tauto

theorem inorder_recolor : inorder (join d c x a y) = inorder (join d c' x a y) := by
  cases d <;> rfl

/-- A rotation keeps the nodes in their order. -/
theorem inorder_rotate :
    inorder (join d c' (join d c x a y) b z) = inorder (join d c x a (join d c' y b z)) := by
  cases d <;> simp [join]

/-! ## Red-black trees -/

/-- Every way down from the root has `n` black nodes, and no red node has a red child. -/
def Balanced : CTree α → ℕ → Prop
  | .nil, n => n = 0
  | .node .red l _ r, n =>
    (Balanced l n ∧ color l = .black) ∧ Balanced r n ∧ color r = .black
  | .node .black l _ r, n => ∃ m, n = m + 1 ∧ Balanced l m ∧ Balanced r m

theorem balanced_nil : Balanced (.nil : CTree α) n ↔ n = 0 := Iff.rfl

theorem balanced_red : Balanced (join d .red x a y) n ↔
    (Balanced x n ∧ color x = .black) ∧ Balanced y n ∧ color y = .black := by
  cases d
  · exact Iff.rfl
  · exact And.comm

theorem balanced_black : Balanced (join d .black x a y) (n + 1) ↔
    Balanced x n ∧ Balanced y n := by
  cases d <;> simp [join, Balanced, and_comm]

theorem not_balanced_black_zero : ¬ Balanced (join d .black x a y) 0 := by
  cases d <;> simp [join, Balanced]

/-- The number of nodes on the longest way down. -/
def height : CTree α → ℕ
  | .nil => 0
  | .node _ l _ r => max (height l) (height r) + 1

/-- Red nodes make a way down twice as long at most, and the black ones fill a tree. -/
theorem Balanced.height_le (h : Balanced t n) :
    height t ≤ 2 * n + (if color t = .red then 1 else 0) ∧ 2 ^ n ≤ (inorder t).length + 1 := by
  induction t generalizing n with
  | nil =>
    obtain rfl := balanced_nil.1 h
    exact ⟨le_rfl, le_rfl⟩
  | node c l a r ihl ihr =>
    rw [inorder_node, List.length_append, List.length_cons, height, color_node]
    cases c with
    | red =>
      obtain ⟨⟨hl, hcl⟩, hr, hcr⟩ := h
      obtain ⟨h1, h2⟩ := ihl hl
      obtain ⟨h3, -⟩ := ihr hr
      simp only [hcl, hcr, reduceCtorEq, if_false] at h1 h3
      exact ⟨by rw [if_pos rfl]; omega, by omega⟩
    | black =>
      obtain ⟨n, rfl, hl, hr⟩ := h
      obtain ⟨h1, h2⟩ := ihl hl
      obtain ⟨h3, h4⟩ := ihr hr
      rw [if_neg (by decide), pow_succ]
      split_ifs at h1 h3 <;> omega

/-- What is left of `Balanced` where the root may be red and have red children. -/
def AlmostBalanced : CTree α → ℕ → Prop
  | .nil, n => n = 0
  | .node .red l _ r, n => Balanced l n ∧ Balanced r n
  | .node .black l _ r, n => ∃ m, n = m + 1 ∧ Balanced l m ∧ Balanced r m

theorem almostBalanced_red :
    AlmostBalanced (join d .red x a y) n ↔ Balanced x n ∧ Balanced y n := by
  cases d
  · exact Iff.rfl
  · exact And.comm

theorem almostBalanced_black : AlmostBalanced (join d .black x a y) (n + 1) ↔
    Balanced x n ∧ Balanced y n := by
  cases d <;> simp [join, AlmostBalanced, and_comm]

theorem Balanced.almost (h : Balanced t n) : AlmostBalanced t n := by
  cases t with
  | nil => exact h
  | node c l a r =>
    cases c with
    | red => exact ⟨h.1.1, h.2.1⟩
    | black => exact h

theorem AlmostBalanced.balanced (h : AlmostBalanced t n) (ht : color t = .black) :
    Balanced t n := by
  cases t with
  | nil => exact h
  | node c l a r =>
    rw [color_node] at ht
    subst ht; exact h

/-- The tree with a black root. -/
def blacken : CTree α → CTree α
  | .nil => .nil
  | .node _ l a r => .node .black l a r

@[simp] theorem color_blacken : color (blacken t) = .black := by
  cases t <;> rfl

@[simp] theorem inorder_blacken : inorder (blacken t) = inorder t := by
  cases t <;> rfl

theorem AlmostBalanced.blacken (h : AlmostBalanced t n) : ∃ m, Balanced (blacken t) m := by
  cases t with
  | nil => exact ⟨n, h⟩
  | node c l a r =>
    cases c with
    | red => exact ⟨n + 1, n, rfl, h⟩
    | black => exact ⟨n, h⟩

/-- A red root made black raises the black height. -/
theorem AlmostBalanced.blacken_red (h : AlmostBalanced t n) (ht : color t = .red) :
    Balanced (RedBlack.blacken t) (n + 1) := by
  cases t with
  | nil => cases ht
  | node c l a r =>
    rw [color_node] at ht
    subst ht; exact ⟨n, rfl, h⟩

/-! ## Contexts -/

/-- A node over the hole. -/
structure Frame (α : Type*) where
  /-- The side on which the hole is. -/
  dir : Dir
  color : Color
  node : α
  /-- The child on the other side. -/
  sib : CTree α

abbrev Context (α : Type*) := List (Frame α)

variable {f : Frame α} {ctx : Context α}

/-- The tree with `t` in the hole. -/
def plug : Context α → CTree α → CTree α
  | [], t => t
  | f :: ctx, t => plug ctx (join f.dir f.color t f.node f.sib)

@[simp] theorem plug_nil : plug [] t = t := rfl

@[simp] theorem plug_cons : plug (f :: ctx) t = plug ctx (join f.dir f.color t f.node f.sib) := rfl

/-- The node right over the hole. -/
def up (ctx : Context α) : Option α := ctx.head?.map Frame.node

@[simp] theorem up_nil : up ([] : Context α) = none := rfl
@[simp] theorem up_cons : up (f :: ctx) = some f.node := rfl

/-- The nodes to the left of the hole. -/
def before : Context α → List α
  | [] => []
  | f :: ctx =>
    match f.dir with
    | .left => before ctx
    | .right => before ctx ++ (inorder f.sib ++ [f.node])

/-- The nodes to the right of the hole. -/
def after : Context α → List α
  | [] => []
  | f :: ctx =>
    match f.dir with
    | .left => f.node :: (inorder f.sib ++ after ctx)
    | .right => after ctx

/-- The nodes of the whole tree are those before the hole, in it and after it. -/
theorem inorder_plug (ctx : Context α) (t : CTree α) :
    inorder (plug ctx t) = before ctx ++ (inorder t ++ after ctx) := by
  induction ctx generalizing t with
  | nil => simp [before, after]
  | cons f ctx ih =>
    obtain ⟨d, c, a, s⟩ := f
    rw [plug_cons, ih]
    cases d <;> simp [join, before, after]

/-- A tree with the same nodes in the hole. -/
theorem inorder_plug_congr (ctx : Context α) (h : inorder x = inorder t) :
    inorder (plug ctx x) = inorder (plug ctx t) := by
  rw [inorder_plug, inorder_plug, h]

theorem plug_append {ctx' : Context α} : plug (ctx' ++ ctx) t = plug ctx (plug ctx' t) := by
  induction ctx' generalizing t with
  | nil => rfl
  | cons f ctx' ih => exact ih

/-- A context that has a node with the hole to its right. -/
theorem plug_right {ctx' : Context α} {l : CTree α} :
    plug (ctx' ++ ⟨.right, c, a, l⟩ :: ctx) t = plug ctx (.node c l a (plug ctx' t)) :=
  plug_append

theorem before_append {ctx' : Context α} : before (ctx' ++ ctx) = before ctx ++ before ctx' := by
  induction ctx' with
  | nil => simp [before]
  | cons f ctx' ih =>
    obtain ⟨d, c, a, s⟩ := f
    cases d <;> simp [before, ih]

theorem after_append {ctx' : Context α} : after (ctx' ++ ctx) = after ctx' ++ after ctx := by
  induction ctx' with
  | nil => simp [after]
  | cons f ctx' ih =>
    obtain ⟨d, c, a, s⟩ := f
    cases d <;> simp [after, ih]

/-- Every node of a tree has a context. -/
theorem exists_focus (h : b ∈ inorder t) : ∃ ctx c l r, t = plug ctx (.node c l b r) := by
  induction t with
  | nil => cases h
  | node c l a r ihl ihr =>
    rcases List.mem_append.1 h with h | h
    · obtain ⟨ctx, c', l', r', rfl⟩ := ihl h
      exact ⟨ctx ++ [⟨.left, c, a, r⟩], c', l', r', plug_append.symm ▸ rfl⟩
    rcases List.mem_cons.1 h with rfl | h
    · exact ⟨[], c, l, r, rfl⟩
    · obtain ⟨ctx, c', l', r', rfl⟩ := ihr h
      exact ⟨ctx ++ [⟨.right, c, a, l⟩], c', l', r', plug_append.symm ▸ rfl⟩

/-- A context is no longer than its tree. -/
theorem length_add_le_plug (ctx : Context α) (t : CTree α) :
    ctx.length + (inorder t).length ≤ (inorder (plug ctx t)).length := by
  induction ctx generalizing t with
  | nil => simp
  | cons f ctx ih =>
    have hle := ih (join f.dir f.color t f.node f.sib)
    rw [plug_cons, List.length_cons]
    cases hd : f.dir <;> simp [hd, join] at hle ⊢ <;> omega

/-- The context makes a red-black tree of every one of black height `n` whose root goes with the
node over the hole; it does so in `Fits.plug`. -/
def Fits : Context α → ℕ → Prop
  | [], _ => True
  | f :: ctx, n =>
    Balanced f.sib n ∧
      match f.color with
      | .black => Fits ctx (n + 1)
      | .red => color f.sib = .black ∧ Fits ctx n ∧ ∃ g ctx', ctx = g :: ctx' ∧ g.color = .black

/-- The colour of the node over the hole; where there is none it counts as black. -/
def overColor (ctx : Context α) : Color := (ctx.head?.map Frame.color).getD .black

@[simp] theorem overColor_nil : overColor ([] : Context α) = .black := rfl
@[simp] theorem overColor_cons : overColor (f :: ctx) = f.color := rfl

/-- A tree fits into a context that wants its black height. -/
theorem Fits.plug (h : Fits ctx n) (ht : Balanced t n)
    (hc : overColor ctx = .red → color t = .black) : ∃ m, Balanced (plug ctx t) m := by
  induction ctx generalizing t n with
  | nil => exact ⟨n, ht⟩
  | cons f ctx ih =>
    obtain ⟨d, c, a, s⟩ := f
    cases c with
    | black =>
      obtain ⟨hs, hctx⟩ := h
      exact ih hctx (balanced_black.2 ⟨ht, hs⟩) (fun _ => color_join)
    | red =>
      obtain ⟨hs, hsc, hctx, g, ctx', rfl, hg⟩ := h
      refine ih hctx (balanced_red.2 ⟨⟨ht, hc rfl⟩, hs, hsc⟩) fun hred => ?_
      rw [overColor_cons, hg] at hred
      cases hred

/-- The root over a context that fits is black. -/
theorem Fits.color_plug (h : Fits (f :: ctx) n) :
    color (RedBlack.plug (f :: ctx) t) = .black := by
  induction ctx generalizing f t n with
  | nil =>
    obtain ⟨d, c, a, s⟩ := f
    cases c with
    | black => exact color_join
    | red =>
      obtain ⟨-, -, -, g, ctx', hnil, -⟩ := h
      cases hnil
  | cons g ctx ih =>
    obtain ⟨d, c, a, s⟩ := f
    cases c with
    | black => exact ih h.2
    | red => exact ih h.2.2.1

/-- Where a red node is made black, the black height that its context wants is there. -/
theorem Fits.plug_blacken (h : Fits ctx (n + 1)) (ht : AlmostBalanced t n)
    (hred : color t = .red ∨ ctx = []) :
    (∃ m, Balanced (RedBlack.plug ctx (RedBlack.blacken t)) m) ∧
      color (RedBlack.plug ctx (RedBlack.blacken t)) = .black := by
  cases ctx with
  | nil => exact ⟨ht.blacken, color_blacken⟩
  | cons f ctx =>
    rcases hred with hred | hnil
    · exact ⟨h.plug (ht.blacken_red hred) (fun _ => color_blacken), h.color_plug⟩
    · cases hnil

/-- In a red-black tree the context of a part fits the part. -/
theorem fits_of_balanced {m : ℕ} (h : Balanced (plug ctx t) m)
    (hroot : color (plug ctx t) = .black) :
    ∃ n, Fits ctx n ∧ Balanced t n ∧ (overColor ctx = .red → color t = .black) := by
  induction ctx generalizing t with
  | nil => exact ⟨m, trivial, h, fun hred => by cases hred⟩
  | cons f ctx ih =>
    obtain ⟨d, c, a, s⟩ := f
    obtain ⟨n, hctx, hjoin, hover⟩ := ih h hroot
    cases c with
    | black =>
      cases n with
      | zero => exact absurd hjoin not_balanced_black_zero
      | succ n =>
        obtain ⟨ht, hs⟩ := balanced_black.1 hjoin
        exact ⟨n, ⟨hs, hctx⟩, ht, fun hred => by cases hred⟩
    | red =>
      obtain ⟨⟨ht, htc⟩, hs, hsc⟩ := balanced_red.1 hjoin
      rw [color_join] at hover
      refine ⟨n, ⟨hs, hsc, hctx, ?_⟩, ht, fun _ => htc⟩
      cases ctx with
      | nil =>
        simp only [RedBlack.plug_cons, RedBlack.plug_nil, color_join] at hroot
        cases hroot
      | cons g ctx' =>
        refine ⟨g, ctx', rfl, ?_⟩
        cases hg : g.color with
        | black => rfl
        | red =>
          rw [overColor_cons, hg] at hover
          cases hover rfl

end RedBlack

end FreeBSD.Lib
