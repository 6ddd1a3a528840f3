import FreeBSD.Sys.RbInsert
import FreeBSD.Sys.RbRemove
import FreeBSD.Sys.RbWalk

/-!
# Sequences of calls on a red-black tree

* `insert_keeps`, `remove_keeps`, `find_keeps` — what each function does to the list.
* `redBlack_of_run` — any sequence of calls, and what can be said of the tree after it.
* `find_comparisons` — `RB_FIND` takes logarithmic time.
-/

namespace FreeBSD.RbTree

open Lib (Color Dir Ascending ascending_nil eraseBy eraseBy_split findBy findBy_of_ne findBy_split
  insertBy insertBy_of_place length_insertBy_le)
open Lib.RedBlack Mem Option

variable {α : Type*} [DecidableEq α] {cmp : α → α → Ordering} {m m' : Mem α} {a b e elm : α}
  {t l r x : CTree α} {c : Color} {d : Dir} {ctx : Context α} {xs ys ns : List α} {fuel n : ℕ}

/-- The memory holds a red-black tree with a black root; its nodes from left to right are those of
the list, which ascends. -/
structure Holds (cmp : α → α → Ordering) (m : Mem α) (ns : List α) : Prop where
  tree : ∃ t n, At m [] t ∧ inorder t = ns ∧ Balanced t n ∧ Lib.RedBlack.color t = .black
  ascending : Ascending cmp ns

/-! ## Insertion -/

/-- `RB_INSERT` gives back the node that compares as equal and changes nothing, or puts the element
in its place. -/
theorem insert_keeps [Std.TransCmp cmp] (h : Holds cmp m ns) (elm : α)
    (hfuel : ns.length + 2 ≤ fuel) :
    (∃ a, findBy cmp elm ns = some a ∧ rbInsert cmp fuel m elm = some (m, some a)) ∨
    ∃ m', findBy cmp elm ns = none ∧ rbInsert cmp fuel m elm = some (m', none) ∧
      Holds cmp m' (insertBy cmp elm ns) := by
  obtain ⟨⟨t, n, hat, rfl, hbal, hblack⟩, hasc⟩ := h
  have hroot : m.root = ptr t := hat.above
  have hempty : Place cmp elm ([] : Context α) := ⟨by simp [before], by simp [after]⟩
  have hlen : (inorder t).length ≤ fuel := by omega
  unfold rbInsert
  rw [hroot]
  rcases descend_spec .eq hat hasc hempty (by simp) hlen with
    ⟨a, ha, heq, hrun⟩ | ⟨ctx, comp, hplug, hplace, hdir, hrun⟩
  · left
    obtain ⟨xs, ys, hsplit⟩ := List.append_of_mem ha
    rw [hsplit] at hasc ⊢
    refine ⟨a, findBy_split hasc heq, ?_⟩
    rw [up_nil] at hrun; simp only [hrun, bind_eq_bind, bind_some, pure]
  · right
    rw [plug_nil] at hplug
    have hns : inorder t = before ctx ++ after ctx := by
      rw [← hplug, inorder_plug, inorder_nil, List.nil_append]
    have hfocus : At m ctx .nil := by rw [at_plug, hplug]; exact hat
    have hne : ∀ a ∈ inorder t, cmp elm a ≠ .eq := hns ▸ hplace.ne
    have hfresh : elm ∉ nodes ctx := by
      intro hmem
      have hself : cmp elm elm = .eq := Std.ReflCmp.compare_self
      exact hne elm (by rw [hns]; exact hmem) hself
    obtain ⟨k, hfits, hnil, -⟩ := fits_of_balanced (t := .nil) (hplug ▸ hbal) (hplug ▸ hblack)
    rw [balanced_nil] at hnil
    subst hnil
    have hleaf : Balanced (.node .red .nil elm .nil : CTree α) 0 := ⟨⟨rfl, rfl⟩, rfl, rfl⟩
    have hctx := length_add_le_plug ctx .nil
    rw [hplug, inorder_nil, List.length_nil] at hctx
    have hctxfuel : ctx.length + 2 ≤ fuel := by omega
    obtain ⟨m', x, N, hcolor, hat', hN, hxblack, hin⟩ :=
      insertColor_spec (hfocus.link hfresh) rfl rfl hleaf hfits hctxfuel
    have hin' : inorder x = insertBy cmp elm (inorder t) := by
      rw [hin, inorder_plug, hns, insertBy_of_place hplace.before_gt hplace.after_lt]; rfl
    refine ⟨m', findBy_of_ne hne, ?_, ⟨⟨x, N, hat', hin', hN, hxblack⟩, hasc.insertBy⟩⟩
    rw [up_nil] at hrun
    have hlink : linkLeaf (rbSet m elm (up ctx)) (up ctx) comp elm
        = setLink (rbSet m elm (up ctx)) ctx (some elm) := by
      cases ctx with
      | nil => rfl
      | cons f ctx =>
        have hside := hdir f ctx rfl
        unfold sideOfComp at hside
        rw [up_cons]
        unfold linkLeaf setLink
        dsimp only
        rw [hside]
    simp only [hrun, bind_eq_bind, bind_some, hlink, hcolor, pure]

/-! ## Removal -/

/-- After a node with one child at most is taken out, the colours are restored where it was
black. -/
theorem colorAfterRemove_spec (h : At m ctx t) (hbal : Balanced (join d c t b .nil) n)
    (hfits : Fits ctx n)
    (hover : overColor ctx = .red → c = .black) (hroot : ctx = [] → c = .black)
    (hfuel : ctx.length + 2 ≤ fuel) :
    ∃ m' x N, colorAfterRemove fuel m c (up ctx) (ptr t) = some m' ∧ At m' [] x ∧
      Balanced x N ∧ Lib.RedBlack.color x = .black ∧ inorder x = inorder (plug ctx t) := by
  cases c with
  | black =>
    cases n with
    | zero => exact absurd hbal not_balanced_black_zero
    | succ n =>
      obtain ⟨ht, -⟩ := balanced_black.1 hbal
      exact removeColor_spec h ht.almost hfits hfuel
  | red =>
    obtain ⟨⟨ht, -⟩, -⟩ := balanced_red.1 hbal
    obtain ⟨N, hN⟩ := hfits.plug ht fun hred => by cases hover hred
    refine ⟨m, plug ctx t, N, rfl, at_plug.1 h, hN, ?_, rfl⟩
    cases ctx with
    | nil => cases hroot rfl
    | cons f ctx => exact hfits.color_plug

/-- `RB_REMOVE` of a node with one child at most. -/
theorem rbRemove_one (h : At m ctx (join d c t a .nil)) (hbal : Balanced (join d c t a .nil) n)
    (hfits : Fits ctx n) (hover : overColor ctx = .red → c = .black)
    (hroot : ctx = [] → c = .black) (hfuel : ctx.length + 2 ≤ fuel) :
    ∃ m' x N, rbRemove fuel m a = some (m', a) ∧ At m' [] x ∧ Balanced x N ∧
      Lib.RedBlack.color x = .black ∧ inorder x = inorder (plug ctx t) := by
  obtain ⟨hcolor, hparent, hchild, hother⟩ := h.join_facts
  obtain ⟨m', x, N, hrun, hat, hN, hblack, hin⟩ :=
    colorAfterRemove_spec h.splice hbal hfits hover hroot hfuel
  refine ⟨m', x, N, ?_, hat, hN, hblack, hin⟩
  have hpick : (if m.child .left a = none then m.child .right a else m.child .left a) = ptr t := by
    cases d with
    | left =>
      rw [hchild, show Dir.right = Dir.left.opp from rfl, hother, ptr_nil]
      cases ptr t <;> rfl
    | right =>
      rw [if_pos (show m.child .left a = none from hother)]; exact hchild
  have hone : m.child .left a = none ∨ m.child .right a = none := by
    cases d with
    | left => exact .inr hother
    | right => exact .inl hother
  unfold rbRemove
  split
  · rename_i left right hl hr
    rcases hone with hnone | hnone
    · rw [hl] at hnone
      cases hnone
    · rw [hr] at hnone
      cases hnone
  · rw [hpick, hparent, hcolor]; simp only [bind_eq_bind, pure, hrun, bind_some]

/-- `RB_REMOVE` of a node with two children, whose place its successor takes. -/
theorem rbRemove_two (h : At m ctx (.node c l a r)) (hl : l ≠ .nil) (hr : r ≠ .nil)
    (hbal : Balanced (plug ctx (.node c l a r)) n)
    (hblack : Lib.RedBlack.color (plug ctx (.node c l a r)) = .black)
    (hfuel : (inorder (plug ctx (.node c l a r))).length + 2 ≤ fuel) :
    ∃ m' x N, rbRemove fuel m a = some (m', a) ∧ At m' [] x ∧ Balanced x N ∧
      Lib.RedBlack.color x = .black ∧
      inorder x = before ctx ++ (inorder l ++ inorder r) ++ after ctx := by
  obtain ⟨-, -, hml, hmr⟩ := At.join_facts (d := .left) h
  dsimp only [Dir.opp_left] at hmr
  obtain ⟨l₀, hl₀⟩ : ∃ b, ptr l = some b := by
    cases l with
    | nil => exact absurd rfl hl
    | node c' l' b r' => exact ⟨b, rfl⟩
  obtain ⟨r₀, hr₀⟩ : ∃ b, ptr r = some b := by
    cases r with
    | nil => exact absurd rfl hr
    | node c' l' b r' => exact ⟨b, rfl⟩
  have hlen := length_add_le_plug ctx (.node c l a r)
  rw [inorder_node, List.length_append, List.length_cons] at hlen
  have hrlen : (inorder r).length ≤ fuel := by omega
  obtain ⟨lefts, c₂, e, r₂, hleft, rfl, hbefore⟩ :=
    leftmost_spec (at_sib (d := .left) |>.1 h) hr₀ hrlen
  -- the successor `e` is taken out
  have hfocus : At m (lefts ++ ⟨.right, c, a, l⟩ :: ctx) (join .right c₂ r₂ e .nil) :=
    at_append.2 (at_sib (d := .left) |>.1 h)
  obtain ⟨hecolor, heparent, hechild, -⟩ := hfocus.join_facts
  obtain ⟨her, -, hebig, -⟩ := hfocus.fresh
  have hbignodup : (nodes (lefts ++ ⟨.right, c, a, l⟩ :: ctx)).Nodup :=
    (List.nodup_append.1 hfocus.perm).2.1
  obtain ⟨m₁, hm₁⟩ : ∃ m₁, m₁ = splice m e (ptr r₂) (up (lefts ++ ⟨.right, c, a, l⟩ :: ctx)) :=
    ⟨_, rfl⟩
  have h₁ : At m₁ (lefts ++ ⟨.right, c, a, l⟩ :: ctx) r₂ := hm₁ ▸ hfocus.splice
  have heparent₁ : m₁.parent e = up (lefts ++ ⟨.right, c, a, l⟩ :: ctx) := by
    rw [hm₁]
    unfold splice
    rw [replaceChild_parent, setParentOf_parent_of_ne fun heq => her (ptr_mem heq), heparent]
  -- and takes the place of `a`
  have hfresh : e ∉ inorder (plug ctx (.node c l a (plug lefts r₂))) := by
    rw [← plug_right, inorder_plug]
    unfold nodes at hebig
    simp only [List.mem_append, not_or] at hebig ⊢; exact ⟨hebig.1, her, hebig.2⟩
  obtain ⟨m₂, hrun₂, h₂⟩ :=
    ((at_sib (d := .left)).2 (at_append.1 h₁)).takePlace hl hfresh
  have h₃ : At m₂ (lefts ++ ⟨.right, c, e, l⟩ :: ctx) r₂ :=
    at_append.2 (at_sib (d := .left) |>.1 h₂)
  have hparent : (if m₁.parent e = some a then some e
      else up (lefts ++ ⟨.right, c, a, l⟩ :: ctx)) = up (lefts ++ ⟨.right, c, e, l⟩ :: ctx) := by
    rw [heparent₁]
    cases lefts with
    | nil => exact if_pos rfl
    | cons f lefts =>
      refine if_neg fun heq => ?_
      have hfa : f.node = a := some.inj heq
      refine (fresh_frame hbignodup).2 ?_
      rw [hfa]; exact mem_nodes_append.2 (.inr ((nodes_cons a).2 (.inl rfl)))
  -- the colours are those of a tree with `e` for `a`
  obtain ⟨k, hfits, hk, hover⟩ := fits_of_balanced hbal hblack
  have hk' : Balanced (.node c l e (plug lefts (.node c₂ .nil e r₂))) k := by
    cases c <;> exact hk
  obtain ⟨N', hN'⟩ := hfits.plug hk' hover
  have hblack' : Lib.RedBlack.color (plug ctx (.node c l e (plug lefts (.node c₂ .nil e r₂))))
      = .black := by
    cases ctx with
    | nil => exact hblack
    | cons f ctx => exact hfits.color_plug
  rw [← plug_right] at hN' hblack'
  obtain ⟨k', hfits', hk', hover'⟩ := fits_of_balanced hN' hblack'
  have hctx := length_add_le_plug (lefts ++ ⟨.right, c, a, l⟩ :: ctx) (.node c₂ .nil e r₂)
  rw [plug_right, List.length_append, List.length_cons] at hctx
  have hctx' : (lefts ++ ⟨.right, c, e, l⟩ :: ctx).length + 2 ≤ fuel := by
    rw [List.length_append, List.length_cons]; omega
  obtain ⟨m', x, N, hrun, hat, hN, hxblack, hin⟩ := colorAfterRemove_spec (d := .right) (b := e)
    h₃ hk' hfits' hover' (fun hnil => by simp at hnil) hctx'
  refine ⟨m', x, N, ?_, hat, hN, hxblack, ?_⟩
  · unfold rbRemove
    rw [hml, hl₀, hmr, hr₀]
    simp only [bind_eq_bind, bind_some, hleft, hecolor, heparent, hechild, ← hm₁,
      hparent, hrun₂, hrun, pure]
  · rw [hin, plug_right, inorder_plug]; simp [inorder_plug, hbefore]

/-- `RB_REMOVE` takes a node out. -/
theorem remove_keeps [Std.TransCmp cmp] (h : Holds cmp m ns) (hmem : elm ∈ ns)
    (hfuel : ns.length + 2 ≤ fuel) :
    ∃ m', rbRemove fuel m elm = some (m', elm) ∧ Holds cmp m' (eraseBy cmp elm ns) := by
  obtain ⟨⟨t, n, hat, rfl, hbal, hblack⟩, hasc⟩ := h
  obtain ⟨ctx, c, l, r, rfl⟩ := exists_focus hmem
  have hin : inorder (plug ctx (.node c l elm r))
      = (before ctx ++ inorder l) ++ elm :: (inorder r ++ after ctx) := by
    rw [inorder_plug]; simp
  have herase : eraseBy cmp elm (inorder (plug ctx (.node c l elm r)))
      = before ctx ++ (inorder l ++ inorder r) ++ after ctx := by
    rw [hin] at hasc ⊢
    rw [eraseBy_split hasc Std.ReflCmp.compare_self]; simp
  have hfocus : At m ctx (.node c l elm r) := at_plug.2 hat
  -- where one of the children is missing, the other is `t`
  have hone : ∀ {d : Dir} {t : CTree α}, .node c l elm r = join d c t elm .nil →
      inorder t = inorder l ++ inorder r →
      ∃ m', rbRemove fuel m elm = some (m', elm) ∧
        Holds cmp m' (eraseBy cmp elm (inorder (plug ctx (.node c l elm r)))) := by
    intro d t heq ht
    obtain ⟨k, hfits, hk, hover⟩ := fits_of_balanced hbal hblack
    have hctx := length_add_le_plug ctx (.node c l elm r)
    have hctxfuel : ctx.length + 2 ≤ fuel := by omega
    have hroot : ctx = [] → c = .black := by rintro rfl; exact hblack
    rw [heq] at hfocus hk
    obtain ⟨m', x, N, hrun, hat', hN, hxblack, hx⟩ :=
      rbRemove_one hfocus hk hfits hover hroot hctxfuel
    refine ⟨m', hrun, ⟨x, N, hat', ?_, hN, hxblack⟩, hasc.eraseBy⟩
    rw [hx, inorder_plug, ht, herase]; simp
  cases hl : l with
  | nil =>
    subst hl; exact hone (d := .right) rfl rfl
  | node c₁ l₁ b₁ r₁ =>
    cases hr : r with
    | nil =>
      rw [← hl]
      subst hr; exact hone (d := .left) rfl (by simp)
    | node c₂ l₂ b₂ r₂ =>
      have hlne : l ≠ .nil := by simp [hl]
      have hrne : r ≠ .nil := by simp [hr]
      obtain ⟨m', x, N, hrun, hat', hN, hxblack, hx⟩ :=
        rbRemove_two hfocus hlne hrne hbal hblack hfuel
      rw [← hl, ← hr]
      exact ⟨m', hrun, ⟨x, N, hat', hx.trans herase.symm, hN, hxblack⟩, hasc.eraseBy⟩

omit [DecidableEq α] in
/-- `RB_FIND` finds what compares as equal. -/
theorem find_keeps [Std.TransCmp cmp] (h : Holds cmp m ns) (elm : α) (hfuel : ns.length ≤ fuel) :
    rbFind cmp m elm fuel m.root = some (findBy cmp elm ns) := by
  obtain ⟨⟨t, n, hat, rfl, -, -⟩, hasc⟩ := h
  have hempty : Place cmp elm ([] : Context α) := ⟨by simp [before], by simp [after]⟩
  rw [rbFind_eq_descend .eq m.root none, show m.root = ptr t from hat.above]
  rcases descend_spec .eq hat hasc hempty (by simp) hfuel with
    ⟨a, ha, heq, hrun⟩ | ⟨ctx, comp, hplug, hplace, -, hrun⟩
  · obtain ⟨xs, ys, hsplit⟩ := List.append_of_mem ha
    rw [up_nil] at hrun
    rw [hsplit] at hasc ⊢
    rw [hrun, findBy_split hasc heq]; rfl
  · rw [up_nil] at hrun
    rw [hrun, findBy_of_ne]
    · rfl
    · rw [← plug_nil (t := t), ← hplug, inorder_plug, inorder_nil, List.nil_append]; exact hplace.ne

/-! ## Sequences of calls -/

/-- The calls that change the tree. -/
inductive Op (α : Type*)
  | insert (elm : α)
  | remove (elm : α)

def step (cmp : α → α → Ordering) (fuel : ℕ) (m : Mem α) : Op α → Option (Mem α × Option α)
  | .insert elm => rbInsert cmp fuel m elm
  | .remove elm => (rbRemove fuel m elm).map fun (m, old) => (m, some old)

/-- The list after a call, and the answer. -/
def wants (cmp : α → α → Ordering) (ns : List α) : Op α → List α × Option α
  | .insert elm =>
    match findBy cmp elm ns with
    | some old => (ns, some old)
    | none => (insertBy cmp elm ns, none)
  | .remove elm => (eraseBy cmp elm ns, some elm)

/-- `RB_REMOVE` is for a node of the tree. -/
def Legal (ns : List α) : Op α → Prop
  | .insert _ => True
  | .remove elm => elm ∈ ns

/-- The calls one after the other, with their answers. -/
def calls (cmp : α → α → Ordering) (fuel : ℕ) :
    Mem α → List (Op α) → Option (Mem α × List (Option α))
  | m, [] => some (m, [])
  | m, op :: ops => do
    let (m, answer) ← step cmp fuel m op
    let (m, answers) ← calls cmp fuel m ops
    pure (m, answer :: answers)

/-- What the calls are for, one after the other. -/
def wanted (cmp : α → α → Ordering) : List α → List (Op α) → List α × List (Option α)
  | ns, [] => (ns, [])
  | ns, op :: ops =>
    let (ns, answer) := wants cmp ns op
    let (ns, answers) := wanted cmp ns ops
    (ns, answer :: answers)

/-- The calls may be made one after the other. -/
def AllLegal (cmp : α → α → Ordering) : List α → List (Op α) → Prop
  | _, [] => True
  | ns, op :: ops => Legal ns op ∧ AllLegal cmp (wants cmp ns op).1 ops

omit [DecidableEq α] in
theorem length_wants_le (cmp : α → α → Ordering) (ns : List α) (op : Op α) :
    (wants cmp ns op).1.length ≤ ns.length + 1 := by
  cases op with
  | insert elm =>
    unfold wants
    dsimp only
    split
    · exact Nat.le_succ _
    · exact length_insertBy_le
  | remove elm => exact (List.length_filter_le _ ns).trans (Nat.le_succ _)

/-- Every call does what it is for. -/
theorem step_keeps [Std.TransCmp cmp] (h : Holds cmp m ns) (hfuel : ns.length + 2 ≤ fuel)
    {op : Op α} (hop : Legal ns op) :
    ∃ m', step cmp fuel m op = some (m', (wants cmp ns op).2) ∧
      Holds cmp m' (wants cmp ns op).1 := by
  cases op with
  | insert elm =>
    rcases insert_keeps h elm hfuel with ⟨a, hfind, hrun⟩ | ⟨m', hfind, hrun, hholds⟩
    · exact ⟨m, by simp only [step, wants, hfind, hrun], by simpa only [wants, hfind] using h⟩
    · exact ⟨m', by simp only [step, wants, hfind, hrun], by simpa only [wants, hfind] using hholds⟩
  | remove elm =>
    obtain ⟨m', hrun, hholds⟩ := remove_keeps h hop hfuel
    exact ⟨m', by simp only [step, wants, hrun, map_some], hholds⟩

theorem calls_keep [Std.TransCmp cmp] (ops : List (Op α)) (h : Holds cmp m ns)
    (hops : AllLegal cmp ns ops) (hfuel : ns.length + ops.length + 2 ≤ fuel) :
    ∃ m', calls cmp fuel m ops = some (m', (wanted cmp ns ops).2) ∧
      Holds cmp m' (wanted cmp ns ops).1 ∧
      (wanted cmp ns ops).1.length ≤ ns.length + ops.length := by
  induction ops generalizing m ns with
  | nil => exact ⟨m, rfl, h, le_rfl⟩
  | cons op ops ih =>
    obtain ⟨hop, hrest⟩ := hops
    have hlen := length_wants_le cmp ns op
    rw [List.length_cons] at hfuel
    have hns : ns.length + 2 ≤ fuel := by omega
    obtain ⟨m₁, hstep, hholds⟩ := step_keeps h hns hop
    obtain ⟨m₂, hcalls, hholds₂, hlen₂⟩ := ih hholds hrest (by omega)
    refine ⟨m₂, ?_, hholds₂, ?_⟩
    · simp [calls, wanted, hstep, hcalls]
    · rw [List.length_cons]
      simp only [wanted]; omega

/-- From an empty tree, any insertions and removals of members answer as they are wanted to, and
leave a red-black tree whose nodes ascend, with all links to parents in place. `RB_INSERT` gives
back the node that compares as equal and leaves the memory as it is just where there is one;
`RB_FIND` finds just the members; and from `RB_MIN` on, `RB_NEXT` goes over all of them once. -/
theorem redBlack_of_run (cmp : α → α → Ordering) [Std.TransCmp cmp] (fuel : ℕ) (m : Mem α)
    (ops : List (Op α)) (hops : AllLegal cmp [] ops) (hfuel : ops.length + 2 ≤ fuel) :
    ∃ m' ns answers t n, calls cmp fuel (rbInit m) ops = some (m', answers) ∧
      wanted cmp [] ops = (ns, answers) ∧
      At m' [] t ∧ inorder t = ns ∧ Ascending cmp ns ∧ Balanced t n ∧
      Lib.RedBlack.color t = .black ∧
      (∀ elm, ∃ m'' found, rbInsert cmp fuel m' elm = some (m'', found) ∧
        (∀ a, found = some a ↔ a ∈ ns ∧ cmp elm a = .eq) ∧
        (if found = none then Holds cmp m'' (insertBy cmp elm ns) else m'' = m')) ∧
      (∀ elm, ∃ found, rbFind cmp m' elm fuel m'.root = some found ∧
        ∀ a, found = some a ↔ a ∈ ns ∧ cmp elm a = .eq) ∧
      rbForeach m' fuel = some ns := by
  have hempty : Holds cmp (rbInit m) [] :=
    ⟨⟨.nil, 0, ⟨rfl, trivial, List.nodup_nil⟩, rfl, rfl, rfl⟩, ascending_nil⟩
  obtain ⟨m', hcalls, hholds, hlen⟩ := calls_keep ops hempty hops (by simpa using hfuel)
  rw [List.length_nil, Nat.zero_add] at hlen
  have hnsfuel : (wanted cmp [] ops).1.length + 2 ≤ fuel := by omega
  obtain ⟨t, n, hat, hin, hbal, hblack⟩ := hholds.tree
  refine ⟨m', (wanted cmp [] ops).1, (wanted cmp [] ops).2, t, n, hcalls, rfl, hat, hin,
    hholds.ascending, hbal, hblack, fun elm => ?_, fun elm => ?_, ?_⟩
  · rcases insert_keeps hholds elm hnsfuel with ⟨a, hfind, hrun⟩ | ⟨m'', hfind, hrun, hholds'⟩
    · exact ⟨m', some a, hrun, fun b => by rw [← hfind, hholds.ascending.findBy_iff], rfl⟩
    · exact ⟨m'', none, hrun, fun b => by rw [← hfind, hholds.ascending.findBy_iff], hholds'⟩
  · exact ⟨_, find_keeps hholds elm (by omega), fun a => hholds.ascending.findBy_iff⟩
  · rw [← hin]; exact rbForeach_spec hat (by rw [hin]; omega)

/-- Three insertions and a removal, under the order of the numbers. -/
theorem redBlack_of_run_numbers :
    ∃ m' ns answers t n,
      calls compare 6 (rbInit ⟨fun _ _ => none, fun _ => none, fun _ => .black, none⟩)
        [.insert 5, .insert 2, .insert 7, .remove 5] = some (m', answers) ∧
      ns = [2, 7] ∧ At m' [] t ∧ inorder t = ns ∧ Balanced t n := by
  obtain ⟨m', ns, answers, t, n, hcalls, hwanted, hat, hin, -, hbal, -⟩ :=
    redBlack_of_run compare 6 (⟨fun _ _ => none, fun _ => none, fun _ => .black, none⟩ : Mem ℕ)
      [.insert 5, .insert 2, .insert 7, .remove 5]
      ⟨trivial, trivial, trivial, show 5 ∈ [2, 5, 7] by decide, trivial⟩ (by decide)
  refine ⟨m', ns, answers, t, n, hcalls, ?_, hat, hin, hbal⟩
  exact (congrArg Prod.fst hwanted).symm.trans (by decide)

omit [DecidableEq α] in
/-- More comparisons than there are nodes on a way down change nothing. -/
theorem rbFind_of_height (h : At m ctx t) (hfuel : height t ≤ fuel) (n : ℕ) :
    rbFind cmp m elm (fuel + n) (ptr t) = rbFind cmp m elm fuel (ptr t) := by
  induction t generalizing ctx fuel with
  | nil => rw [ptr_nil, rbFind, rbFind]
  | node c l a r ihl ihr =>
    obtain ⟨-, -, hl, hr⟩ := At.join_facts (d := .left) h
    dsimp only [Dir.opp_left] at hr
    cases fuel with
    | zero => exact absurd hfuel (Nat.not_succ_le_zero _)
    | succ fuel =>
      have hmax := max_le_iff.1 (Nat.le_of_succ_le_succ hfuel)
      rw [ptr_node, Nat.succ_add, rbFind, rbFind, hl, hr]
      cases cmp elm a with
      | lt => exact ihl (at_join (d := .left) |>.1 h) hmax.1
      | gt => exact ihr (at_sib (d := .left) |>.1 h) hmax.2
      | eq => rfl

/-- In a tree of `k` nodes `RB_FIND` makes at most `2 * log (k + 1)` comparisons. -/
theorem find_comparisons (cmp : α → α → Ordering) [Std.TransCmp cmp] (fuel : ℕ) (m : Mem α)
    (ops : List (Op α)) (hops : AllLegal cmp [] ops) (hfuel : ops.length + 2 ≤ fuel) :
    ∃ m' ns answers, calls cmp fuel (rbInit m) ops = some (m', answers) ∧
      wanted cmp [] ops = (ns, answers) ∧ ∀ elm,
        rbFind cmp m' elm (2 * Nat.log 2 (ns.length + 1)) m'.root = some (findBy cmp elm ns) := by
  have hempty : Holds cmp (rbInit m) [] :=
    ⟨⟨.nil, 0, ⟨rfl, trivial, List.nodup_nil⟩, rfl, rfl, rfl⟩, ascending_nil⟩
  obtain ⟨m', hcalls, hholds, -⟩ := calls_keep ops hempty hops (by simpa using hfuel)
  refine ⟨m', (wanted cmp [] ops).1, _, hcalls, rfl, fun elm => ?_⟩
  generalize (wanted cmp [] ops).1 = ns at hholds ⊢
  have hfind := find_keeps hholds elm (Nat.le_add_left _ (2 * Nat.log 2 (ns.length + 1)))
  obtain ⟨⟨t, n, hat, rfl, hbal, hblack⟩, -⟩ := hholds
  rw [show m'.root = ptr t from hat.above] at hfind ⊢
  rw [← hfind, rbFind_of_height hat]
  obtain ⟨hle, hpow⟩ := hbal.height_le
  have hlog := Nat.le_log_of_pow_le one_lt_two hpow
  rw [hblack, if_neg (by decide)] at hle
  omega

theorem find_comparisons_two : ∃ m' answers,
    calls compare 4 (rbInit ⟨fun _ _ => none, fun _ => none, fun _ => .black, none⟩)
      [.insert 5, .insert 2] = some (m', answers) ∧
    rbFind compare m' 2 2 m'.root = some (some 2) := by
  obtain ⟨m', ns, answers, hcalls, hwanted, hfind⟩ := find_comparisons compare 4
    (⟨fun _ _ => none, fun _ => none, fun _ => .black, none⟩ : Mem ℕ) [.insert 5, .insert 2]
    ⟨trivial, trivial, trivial⟩ (by decide)
  obtain rfl : [2, 5] = ns := congrArg Prod.fst hwanted
  exact ⟨m', answers, hcalls, hfind 2⟩

end FreeBSD.RbTree
