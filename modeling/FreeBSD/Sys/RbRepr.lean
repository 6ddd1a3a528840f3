import FreeBSD.Sys.RbTree

/-!
# What a red-black tree is in memory

`At m ctx t` says that the memory `m` holds the tree `t` in the context `ctx`, with every link to a
child and every link to a parent. The focus moves up and down freely (`at_cons`, `at_sib`); each
change that the operations make is a theorem about the tree in focus, whatever the context.
-/

namespace FreeBSD.RbTree

open Lib (Color Dir)
open Lib.RedBlack Mem

variable {α : Type*} {m m' m'' : Mem α} {l : List α} {a b : α} {p : Option α}
  {t x y z : CTree α} {c c' : Color} {d : Dir} {ctx : Context α} {f : Frame α}

/-! ## Memories that agree -/

/-- The two memories have the same entries at these nodes. -/
def SameAt (m m' : Mem α) (l : List α) : Prop :=
  ∀ a ∈ l, (∀ d, m'.child d a = m.child d a) ∧ m'.parent a = m.parent a ∧ m'.color a = m.color a

theorem SameAt.trans (h : SameAt m m' l) (h' : SameAt m' m'' l) : SameAt m m'' l := by
  intro a ha
  obtain ⟨hc, hp, hk⟩ := h a ha
  obtain ⟨hc', hp', hk'⟩ := h' a ha
  exact ⟨fun d => (hc' d).trans (hc d), hp'.trans hp, hk'.trans hk⟩

theorem SameAt.mono {l' : List α} (h : SameAt m m' l) (hsub : ∀ a ∈ l', a ∈ l) :
    SameAt m m' l' := fun a ha => h a (hsub a ha)

section Setters

variable [DecidableEq α]

theorem sameAt_setChild (h : a ∉ l) : SameAt m (m.setChild d a p) l := by
  intro b hb
  have hne : b ≠ a := fun heq => h (heq ▸ hb)
  exact ⟨fun e => by simp [setChild, hne], rfl, rfl⟩

theorem sameAt_setParent (h : a ∉ l) : SameAt m (m.setParent a p) l := by
  intro b hb
  have hne : b ≠ a := fun heq => h (heq ▸ hb)
  exact ⟨fun _ => rfl, by simp [setParent, hne], rfl⟩

theorem sameAt_setColor (h : a ∉ l) : SameAt m (m.setColor a c) l := by
  intro b hb
  have hne : b ≠ a := fun heq => h (heq ▸ hb)
  exact ⟨fun _ => rfl, rfl, by simp [setColor, hne]⟩

theorem sameAt_setParentOf {q : Option α} (h : ∀ a, q = some a → a ∉ l) :
    SameAt m (m.setParentOf q p) l := by
  cases q with
  | none => exact fun _ _ => ⟨fun _ => rfl, rfl, rfl⟩
  | some a => exact sameAt_setParent (h a rfl)

theorem sameAt_replaceChild {q : Option α} (h : ∀ a, q = some a → a ∉ l) :
    SameAt m (m.replaceChild q a p) l := by
  cases q with
  | none => exact fun _ _ => ⟨fun _ => rfl, rfl, rfl⟩
  | some b => exact sameAt_setChild (h b rfl)

@[simp] theorem setChild_child_self : (m.setChild d a p).child d a = p := by simp [setChild]

theorem setChild_child_opp : (m.setChild d.opp a p).child d a = m.child d a := by simp [setChild]

theorem setChild_opp_child : (m.setChild d a p).child d.opp a = m.child d.opp a := by
  simp [setChild]

theorem setChild_child_of_ne {e : Dir} (h : b ≠ a) :
    (m.setChild d a p).child e b = m.child e b := by simp [setChild, h]

@[simp] theorem setChild_parent : (m.setChild d a p).parent = m.parent := rfl
@[simp] theorem setChild_color : (m.setChild d a p).color = m.color := rfl
@[simp] theorem setChild_root : (m.setChild d a p).root = m.root := rfl
@[simp] theorem setParent_child : (m.setParent a p).child = m.child := rfl
@[simp] theorem setParent_color : (m.setParent a p).color = m.color := rfl
@[simp] theorem setParent_root : (m.setParent a p).root = m.root := rfl
@[simp] theorem setParent_parent_self : (m.setParent a p).parent a = p := by simp [setParent]
theorem setParent_parent_of_ne (h : b ≠ a) : (m.setParent a p).parent b = m.parent b := by
  simp [setParent, h]

@[simp] theorem setColor_child : (m.setColor a c).child = m.child := rfl
@[simp] theorem setColor_parent : (m.setColor a c).parent = m.parent := rfl
@[simp] theorem setColor_root : (m.setColor a c).root = m.root := rfl
@[simp] theorem setColor_color_self : (m.setColor a c).color a = c := by simp [setColor]

@[simp] theorem setParentOf_child {q : Option α} : (m.setParentOf q p).child = m.child := by
  cases q <;> rfl

@[simp] theorem setParentOf_color {q : Option α} : (m.setParentOf q p).color = m.color := by
  cases q <;> rfl

@[simp] theorem setParentOf_root {q : Option α} : (m.setParentOf q p).root = m.root := by
  cases q <;> rfl

@[simp] theorem replaceChild_parent {q : Option α} :
    (m.replaceChild q a p).parent = m.parent := by cases q <;> rfl

@[simp] theorem replaceChild_color {q : Option α} : (m.replaceChild q a p).color = m.color := by
  cases q <;> rfl

theorem setParentOf_parent_of_ne {q : Option α} (h : q ≠ some b) :
    (m.setParentOf q p).parent b = m.parent b := by
  cases q with
  | none => rfl
  | some a =>
    have hne : b ≠ a := fun heq => h (heq ▸ rfl)
    simp [setParentOf, setParent, hne]

theorem replaceChild_child_of_ne {q : Option α} (h : q ≠ some b) :
    (m.replaceChild q a p).child d b = m.child d b := by
  cases q with
  | none => rfl
  | some e =>
    have hne : b ≠ e := fun heq => h (heq ▸ rfl)
    simp [replaceChild, setChild, hne]

end Setters

/-! ## Trees and contexts in memory -/

/-- From the root of `t` on, whose parent is `par`, one meets the tree `t`. -/
def IsTree (m : Mem α) : Option α → CTree α → Prop
  | _, .nil => True
  | par, .node c l a r =>
    m.color a = c ∧ m.parent a = par ∧ m.child .left a = ptr l ∧ m.child .right a = ptr r ∧
      IsTree m (some a) l ∧ IsTree m (some a) r

/-- The nodes over the hole, the topmost at the root; the link down to the hole is `p`. -/
def IsCtx (m : Mem α) : Context α → Option α → Prop
  | [], p => m.root = p
  | f :: ctx, p =>
    m.color f.node = f.color ∧ m.parent f.node = up ctx ∧ m.child f.dir f.node = p ∧
      m.child f.dir.opp f.node = ptr f.sib ∧ IsTree m (some f.node) f.sib ∧
      IsCtx m ctx (some f.node)

theorem ptr_mem (h : ptr t = some a) : a ∈ inorder t := by
  cases t with
  | nil => cases h
  | node c l b r =>
    obtain rfl := Option.some.inj h
    simp

/-- The nodes of a context. -/
def nodes (ctx : Context α) : List α := before ctx ++ after ctx

theorem isTree_join : IsTree m p (join d c x a y) ↔
    m.color a = c ∧ m.parent a = p ∧ m.child d a = ptr x ∧ m.child d.opp a = ptr y ∧
      IsTree m (some a) x ∧ IsTree m (some a) y := by
  cases d
  · exact Iff.rfl
  · simp only [join, IsTree, Dir.opp_right]; tauto

theorem IsTree.congr (h : IsTree m p t) (hsame : SameAt m m' (inorder t)) : IsTree m' p t := by
  induction t generalizing p with
  | nil => trivial
  | node c l a r ihl ihr =>
    obtain ⟨hc, hp, hl, hr, htl, htr⟩ := h
    obtain ⟨hchild, hparent, hcolor⟩ := hsame a (by simp)
    refine ⟨hcolor.trans hc, hparent.trans hp, (hchild _).trans hl, (hchild _).trans hr, ?_, ?_⟩
    · exact ihl htl (hsame.mono fun b hb => by simp [hb])
    · exact ihr htr (hsame.mono fun b hb => by simp [hb])

theorem nodes_cons :
    ∀ b, b ∈ nodes (f :: ctx) ↔ b = f.node ∨ b ∈ inorder f.sib ∨ b ∈ nodes ctx := by
  obtain ⟨d, c, a, s⟩ := f
  intro b
  cases d <;> simp [nodes, before, after] <;> tauto

theorem mem_nodes_append {ctx' : Context α} :
    b ∈ nodes (ctx' ++ ctx) ↔ b ∈ nodes ctx' ∨ b ∈ nodes ctx := by
  simp only [nodes, before_append, after_append, List.mem_append]; tauto

theorem IsCtx.congr (h : IsCtx m ctx p) (hsame : SameAt m m' (nodes ctx))
    (hroot : m'.root = m.root) : IsCtx m' ctx p := by
  induction ctx generalizing p with
  | nil => exact hroot.trans h
  | cons f ctx ih =>
    obtain ⟨hc, hp, hl, hr, hsib, hrest⟩ := h
    obtain ⟨hchild, hparent, hcolor⟩ := hsame f.node ((nodes_cons _).2 (Or.inl rfl))
    refine ⟨hcolor.trans hc, hparent.trans hp, (hchild _).trans hl, (hchild _).trans hr, ?_, ?_⟩
    · exact hsib.congr (hsame.mono fun b hb => (nodes_cons b).2 (Or.inr (Or.inl hb)))
    · exact ih hrest (hsame.mono fun b hb => (nodes_cons b).2 (Or.inr (Or.inr hb)))

/-- A tree with another parent. -/
theorem IsTree.reparent [DecidableEq α] {q : Option α} (h : IsTree m p t)
    (hnodup : (inorder t).Nodup) : IsTree (m.setParentOf (ptr t) q) q t := by
  cases t with
  | nil => trivial
  | node c l a r =>
    obtain ⟨hc, hp, hl, hr, htl, htr⟩ := h
    simp only [inorder_node, List.nodup_append, List.nodup_cons, List.mem_cons] at hnodup
    refine ⟨hc, by simp [setParentOf], hl, hr, ?_, ?_⟩
    · exact htl.congr (sameAt_setParent fun hmem => hnodup.2.2 a hmem a (Or.inl rfl) rfl)
    · exact htr.congr (sameAt_setParent hnodup.2.1.1)

/-- The link of the context down to the hole is set. -/
def setLink [DecidableEq α] (m : Mem α) (ctx : Context α) (p : Option α) : Mem α :=
  match ctx with
  | [] => { m with root := p }
  | f :: _ => m.setChild f.dir f.node p

theorem sameAt_setLink [DecidableEq α] (h : ∀ a, up ctx = some a → a ∉ l) :
    SameAt m (setLink m ctx p) l := by
  cases ctx with
  | nil => exact fun _ _ => ⟨fun _ => rfl, rfl, rfl⟩
  | cons f ctx => exact sameAt_setChild (h f.node rfl)

theorem fresh_frame (h : (nodes (f :: ctx)).Nodup) :
    f.node ∉ inorder f.sib ∧ f.node ∉ nodes ctx := by
  obtain ⟨d, c, b, s⟩ := f
  cases d <;>
    simp only [nodes, before, after, List.nodup_append, List.nodup_cons, List.mem_append,
      List.mem_cons, List.not_mem_nil, or_false] at h ⊢
  · refine ⟨fun hmem => h.2.1.1 (Or.inl hmem), ?_⟩
    rintro (hmem | hmem)
    · exact h.2.2 b hmem b (Or.inl rfl) rfl
    · exact h.2.1.1 (Or.inr hmem)
  · refine ⟨fun hmem => h.1.2.1.2.2 b hmem b rfl rfl, ?_⟩
    rintro (hmem | hmem)
    · exact h.1.2.2 b hmem b (Or.inr rfl) rfl
    · exact h.2.2 b (Or.inr (Or.inr rfl)) b hmem rfl

theorem IsCtx.setLink [DecidableEq α] {q : Option α} (h : IsCtx m ctx q)
    (hnodup : (nodes ctx).Nodup) : IsCtx (setLink m ctx p) ctx p := by
  cases ctx with
  | nil => rfl
  | cons f ctx =>
    obtain ⟨hc, hp, hl, hr, hsib, hrest⟩ := h
    obtain ⟨hfs, hfctx⟩ := fresh_frame hnodup
    refine ⟨hc, hp, setChild_child_self, setChild_opp_child.trans hr, ?_, ?_⟩
    · exact hsib.congr (sameAt_setChild hfs)
    · exact hrest.congr (sameAt_setChild hfctx) rfl

/-- The source finds the link by a look at the left child of the node over the hole. -/
theorem IsCtx.replaceChild [DecidableEq α] (h : IsCtx m ctx (some a)) (ha : a ∉ nodes ctx) :
    m.replaceChild (up ctx) a p = RbTree.setLink m ctx p := by
  cases ctx with
  | nil => rfl
  | cons f ctx =>
    obtain ⟨-, -, hl, hr, -⟩ := h
    have hside : m.sideOf f.node (some a) = f.dir := by
      unfold sideOf
      cases hd : f.dir with
      | left =>
        rw [hd] at hl
        rw [if_pos hl]
      | right =>
        rw [hd, Dir.opp_right] at hr
        rw [if_neg]
        rw [hr]
        intro hptr; exact ha ((nodes_cons a).2 (Or.inr (Or.inl (ptr_mem hptr))))
    rw [up_cons]
    unfold Mem.replaceChild RbTree.setLink
    dsimp only
    rw [hside]

/-- The memory holds the tree `t` in the context `ctx`, and no node is met twice. -/
structure At (m : Mem α) (ctx : Context α) (t : CTree α) : Prop where
  above : IsCtx m ctx (ptr t)
  tree : IsTree m (up ctx) t
  nodup : (inorder (plug ctx t)).Nodup

/-- The focus moves up. -/
theorem at_cons : At m (f :: ctx) t ↔ At m ctx (join f.dir f.color t f.node f.sib) := by
  constructor
  · rintro ⟨⟨hc, hp, hl, hr, hsib, hrest⟩, htree, hnodup⟩
    exact ⟨by rwa [ptr_join], isTree_join.2 ⟨hc, hp, hl, hr, htree, hsib⟩, hnodup⟩
  · rintro ⟨hrest, htree, hnodup⟩
    obtain ⟨hc, hp, hl, hr, ht, hsib⟩ := isTree_join.1 htree
    rw [ptr_join] at hrest; exact ⟨⟨hc, hp, hl, hr, hsib, hrest⟩, ht, hnodup⟩

/-- The focus moves down to a child. -/
theorem at_join : At m ctx (join d c x a y) ↔ At m (⟨d, c, a, y⟩ :: ctx) x :=
  (at_cons (f := ⟨d, c, a, y⟩)).symm

/-- The focus moves down to the other child. -/
theorem at_sib : At m ctx (join d c x a y) ↔ At m (⟨d.opp, c, a, x⟩ :: ctx) y := by
  rw [← join_opp]; exact at_join

theorem at_plug : At m ctx t ↔ At m [] (plug ctx t) := by
  induction ctx generalizing t with
  | nil => exact Iff.rfl
  | cons f ctx ih => rw [at_cons, ih, plug_cons]

/-- The nodes of the tree and of the context, in no order. -/
theorem At.perm (h : At m ctx t) : (inorder t ++ nodes ctx).Nodup := by
  have hnodup := h.nodup
  rw [inorder_plug] at hnodup
  refine (List.Perm.nodup_iff ?_).1 hnodup
  unfold nodes; exact List.perm_append_comm_assoc _ _ _

/-- The node in focus is none of the others. -/
theorem At.fresh (h : At m ctx (join d c x a y)) :
    a ∉ inorder x ∧ a ∉ inorder y ∧ a ∉ nodes ctx ∧ (inorder x).Nodup ∧ (inorder y).Nodup ∧
      (∀ b ∈ inorder x, b ∉ inorder y) ∧ (∀ b ∈ inorder x, b ∉ nodes ctx) ∧
      (∀ b ∈ inorder y, b ∉ nodes ctx) ∧ (nodes ctx).Nodup := by
  have hnodup := h.perm
  have hperm : (inorder (join d c x a y)).Perm (a :: (inorder x ++ inorder y)) := by
    cases d
    · exact List.perm_middle
    · exact List.perm_middle.trans ((List.perm_append_comm).cons a)
  have hall := (List.Perm.nodup_iff (hperm.append_right (nodes ctx))).1 hnodup
  simp only [List.cons_append, List.nodup_cons, List.nodup_append, List.mem_append, not_or] at hall
  obtain ⟨⟨⟨hax, hay⟩, hactx⟩, ⟨hx, hy, hxy⟩, hctx, hd⟩ := hall
  exact ⟨hax, hay, hactx, hx, hy, fun b hb hb' => hxy b hb b hb' rfl,
    fun b hb hb' => hd b (Or.inl hb) b hb' rfl, fun b hb hb' => hd b (Or.inr hb) b hb' rfl, hctx⟩

theorem At.join_facts (h : At m ctx (join d c x a y)) :
    m.color a = c ∧ m.parent a = up ctx ∧ m.child d a = ptr x ∧ m.child d.opp a = ptr y := by
  obtain ⟨hc, hp, hl, hr, -⟩ := isTree_join.1 h.tree
  exact ⟨hc, hp, hl, hr⟩

theorem At.ptr_facts (h : At m ctx t) (ha : ptr t = some a) :
    m.parent a = up ctx ∧ m.color a = color t := by
  obtain ⟨x, y, ht⟩ := eq_join .left ha
  rw [ht] at h
  obtain ⟨hc, hp, -⟩ := h.join_facts
  exact ⟨hp, hc⟩

theorem At.isBlack [DecidableEq α] (h : At m ctx t) :
    m.isBlack (ptr t) = true ↔ color t = .black := by
  cases t with
  | nil => exact iff_of_true rfl rfl
  | node c l a r =>
    have hc := h.tree.1
    unfold Mem.isBlack
    rw [ptr_node, decide_eq_true_iff, hc, color_node]

/-- The side on which a child hangs. -/
theorem At.sideOf [DecidableEq α] (h : At m (f :: ctx) t) (ht : t ≠ .nil ∨ f.sib ≠ .nil) :
    m.sideOf f.node (ptr t) = f.dir := by
  obtain ⟨d, c, a, s⟩ := f
  rw [at_cons] at h
  obtain ⟨-, -, hl, hr⟩ := h.join_facts
  obtain ⟨-, -, -, -, -, hdisj, -⟩ := h.fresh
  unfold Mem.sideOf
  cases d with
  | left => rw [if_pos hl]
  | right =>
    rw [if_neg]
    dsimp only [Dir.opp_right] at hr
    rw [hr]
    intro heq
    cases t with
    | nil =>
      cases s with
      | nil => simp at ht
      | node c' l' b' r' => cases heq
    | node c' l' b' r' =>
      cases s with
      | nil => cases heq
      | node c'' l'' b'' r'' =>
        obtain rfl := Option.some.inj heq
        exact hdisj b'' (by simp) (by simp)

end FreeBSD.RbTree
