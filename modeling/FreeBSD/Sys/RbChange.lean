import FreeBSD.Sys.RbRepr

/-!
# The changes that the red-black operations make

Each is a theorem about the tree in focus, whatever the context.

* `At.setColor`, `At.blacken` — a change of colour.
* `At.rotate` — a rotation.
* `At.splice` — a node with one child at most is taken out.
* `At.takePlace` — a node takes the place of another.
* `At.link` — a new leaf.
-/

namespace FreeBSD.RbTree

open Lib (Color Dir)
open Lib.RedBlack Mem List

variable {α : Type*} {m m' : Mem α} {l : List α} {a b : α} {p q : Option α}
  {t x y z : CTree α} {c c' : Color} {d : Dir} {ctx : Context α} {f : Frame α}

theorem up_mem (h : up ctx = some a) : a ∈ nodes ctx := by
  cases ctx with
  | nil => cases h
  | cons f ctx =>
    obtain rfl := Option.some.inj h
    exact (nodes_cons _).2 (Or.inl rfl)

/-- The same nodes in the same order, in focus. -/
theorem nodup_congr (h : (inorder (plug ctx t)).Nodup) (heq : inorder x = inorder t) :
    (inorder (plug ctx x)).Nodup := by
  rw [inorder_plug, heq, ← inorder_plug]; exact h

theorem SameAt.refl : SameAt m m l := fun _ _ => ⟨fun _ => rfl, rfl, rfl⟩

section

variable [DecidableEq α]

/-! ## Colours -/

theorem At.setColor (h : At m ctx (join d c x a y)) :
    At (m.setColor a c') ctx (join d c' x a y) := by
  obtain ⟨hx, hy, hctx, -⟩ := h.fresh
  obtain ⟨-, hp, hl, hr, htx, hty⟩ := isTree_join.1 h.tree
  have habove : IsCtx m ctx (some a) := by simpa using h.above
  refine ⟨?_, isTree_join.2 ⟨by simp, hp, hl, hr, ?_, ?_⟩, nodup_congr h.nodup inorder_recolor⟩
  · rw [ptr_join]; exact habove.congr (sameAt_setColor hctx) rfl
  · exact htx.congr (sameAt_setColor hx)
  · exact hty.congr (sameAt_setColor hy)

theorem At.blacken (h : At m ctx t) :
    At (m.setColorOf (ptr t) .black) ctx (Lib.RedBlack.blacken t) := by
  cases t with
  | nil => exact h
  | node c l a r => exact At.setColor (d := .left) h

/-! ## Rotations -/

/-- A rotation around `a`, whose child on the other side is `b`. -/
theorem At.rotate (h : At m ctx (join d c x a (join d c' y b z))) :
    ∃ m', rotate d m a = some m' ∧ At m' ctx (join d c' (join d c x a y) b z) := by
  obtain ⟨hac, hap, hal, har⟩ := h.join_facts
  obtain ⟨hax, hayz, hactx, -, -, hxyz, hxctx, hyzctx, hnctx⟩ := h.fresh
  have hb := at_sib.1 h
  obtain ⟨hbc, hbp, hbl, hbr⟩ := hb.join_facts
  obtain ⟨hby, hbz, -, hny, -, hyz, -, -, -⟩ := hb.fresh
  obtain ⟨-, -, -, -, htx, htyz⟩ := isTree_join.1 h.tree
  obtain ⟨-, -, -, -, hty, htz⟩ := isTree_join.1 htyz
  have hab : a ≠ b := fun heq => hayz (mem_inorder_join.2 (Or.inl heq))
  have hay : a ∉ inorder y := fun hmem => hayz (mem_inorder_join.2 (Or.inr (Or.inl hmem)))
  have haz : a ∉ inorder z := fun hmem => hayz (mem_inorder_join.2 (Or.inr (Or.inr hmem)))
  have hbx : b ∉ inorder x := fun hmem => hxyz b hmem (mem_inorder_join.2 (Or.inl rfl))
  have hbup : b ∉ nodes ctx := hyzctx b (mem_inorder_join.2 (Or.inl rfl))
  have hyctx : ∀ e ∈ inorder y, e ∉ nodes ctx :=
    fun e he => hyzctx e (mem_inorder_join.2 (Or.inr (Or.inl he)))
  have hzctx : ∀ e ∈ inorder z, e ∉ nodes ctx :=
    fun e he => hyzctx e (mem_inorder_join.2 (Or.inr (Or.inr he)))
  have habove : IsCtx m ctx (some a) := by simpa using h.above
  have hupa : up ctx ≠ some a := fun heq => hactx (up_mem heq)
  have hupb : up ctx ≠ some b := fun heq => hbup (up_mem heq)
  have hya : ptr y ≠ some a := fun heq => hay (ptr_mem heq)
  have hyb : ptr y ≠ some b := fun heq => hby (ptr_mem heq)
  rw [ptr_join] at har
  -- the memory after each of the six assignments
  obtain ⟨m₁, hm₁⟩ : ∃ m₁, m₁ = m.setChild d.opp a (ptr y) := ⟨_, rfl⟩
  obtain ⟨m₂, hm₂⟩ : ∃ m₂, m₂ = m₁.setParentOf (ptr y) (some a) := ⟨_, rfl⟩
  obtain ⟨m₃, hm₃⟩ : ∃ m₃, m₃ = m₂.setParent b (up ctx) := ⟨_, rfl⟩
  obtain ⟨m₄, hm₄⟩ : ∃ m₄, m₄ = m₃.replaceChild (up ctx) a (some b) := ⟨_, rfl⟩
  obtain ⟨m₅, hm₅⟩ : ∃ m₅, m₅ = m₄.setChild d b (some a) := ⟨_, rfl⟩
  obtain ⟨m₆, hm₆⟩ : ∃ m₆, m₆ = m₅.setParent a (some b) := ⟨_, rfl⟩
  have hlt : m₁.child d b = ptr y := by rw [hm₁, setChild_child_of_ne hab.symm, hbl]
  have hpa : m₂.parent a = up ctx := by
    rw [hm₂, setParentOf_parent_of_ne hya, hm₁, setChild_parent, hap]
  have hpb : m₃.parent b = up ctx := by rw [hm₃, setParent_parent_self]
  have hrun : RbTree.rotate d m a = some m₆ := by
    unfold RbTree.rotate
    simp only [har, Option.bind_eq_bind, Option.bind_some, hbl, ← hm₁, hlt, ← hm₂, hpa, ← hm₃,
      hpb, ← hm₄, ← hm₅, ← hm₆, pure]
  refine ⟨m₆, hrun, ?_, ?_, nodup_congr h.nodup inorder_rotate⟩
  · have h₁ : SameAt m m₁ (nodes ctx) := hm₁ ▸ sameAt_setChild hactx
    have h₂ : SameAt m₁ m₂ (nodes ctx) :=
      hm₂ ▸ sameAt_setParentOf fun e he => hyctx e (ptr_mem he)
    have h₃ : SameAt m₂ m₃ (nodes ctx) := hm₃ ▸ sameAt_setParent hbup
    have hroot : m₃.root = m.root := by simp [hm₃, hm₂, hm₁]
    have habove₃ : IsCtx m₃ ctx (some a) := habove.congr ((h₁.trans h₂).trans h₃) hroot
    have h₄ : IsCtx m₄ ctx (some b) := by
      rw [hm₄, habove₃.replaceChild hactx]; exact habove₃.setLink hnctx
    have h₅ : SameAt m₄ m₅ (nodes ctx) := hm₅ ▸ sameAt_setChild hbup
    have h₆ : SameAt m₅ m₆ (nodes ctx) := hm₆ ▸ sameAt_setParent hactx
    rw [ptr_join]; exact h₄.congr (h₅.trans h₆) (by simp [hm₆, hm₅])
  · -- what lies under `a` and `b` and is not `y` stays as it is
    have hkeep : ∀ l : List α, a ∉ l → b ∉ l → (∀ e ∈ l, e ∉ inorder y) →
        (∀ e ∈ l, e ∉ nodes ctx) → SameAt m m₆ l := by
      intro l hal hbl hyl hcl
      have h₁ : SameAt m m₁ l := hm₁ ▸ sameAt_setChild hal
      have h₂ : SameAt m₁ m₂ l :=
        hm₂ ▸ sameAt_setParentOf fun e he hmem => hyl e hmem (ptr_mem he)
      have h₃ : SameAt m₂ m₃ l := hm₃ ▸ sameAt_setParent hbl
      have h₄ : SameAt m₃ m₄ l :=
        hm₄ ▸ sameAt_replaceChild fun e he hmem => hcl e hmem (up_mem he)
      have h₅ : SameAt m₄ m₅ l := hm₅ ▸ sameAt_setChild hbl
      have h₆ : SameAt m₅ m₆ l := hm₆ ▸ sameAt_setParent hal
      exact ((((h₁.trans h₂).trans h₃).trans h₄).trans h₅).trans h₆
    have hx₆ : IsTree m₆ (some a) x := htx.congr (hkeep _ hax hbx (fun e he hmem =>
      hxyz e he (mem_inorder_join.2 (Or.inr (Or.inl hmem)))) hxctx)
    have hz₆ : IsTree m₆ (some b) z := htz.congr (hkeep _ haz hbz (fun e he hmem =>
      hyz e hmem he) hzctx)
    have hy₆ : IsTree m₆ (some a) y := by
      have h₁ : SameAt m m₁ (inorder y) := hm₁ ▸ sameAt_setChild hay
      have h₂ : IsTree m₂ (some a) y := hm₂ ▸ (hty.congr h₁).reparent hny
      have h₃ : SameAt m₂ m₃ (inorder y) := hm₃ ▸ sameAt_setParent hby
      have h₄ : SameAt m₃ m₄ (inorder y) :=
        hm₄ ▸ sameAt_replaceChild fun e he hmem => hyctx e hmem (up_mem he)
      have h₅ : SameAt m₄ m₅ (inorder y) := hm₅ ▸ sameAt_setChild hby
      have h₆ : SameAt m₅ m₆ (inorder y) := hm₆ ▸ sameAt_setParent hay
      exact h₂.congr (((h₃.trans h₄).trans h₅).trans h₆)
    have hcolor : m₆.color = m.color := by simp [hm₆, hm₅, hm₄, hm₃, hm₂, hm₁]
    have hchild₄ : ∀ e g, up ctx ≠ some e → m₄.child g e = m₁.child g e := by
      intro e g he
      rw [hm₄, replaceChild_child_of_ne he, hm₃, setParent_child, hm₂, setParentOf_child]
    have hbp₆ : m₆.parent b = up ctx := by
      rw [hm₆, setParent_parent_of_ne hab.symm, hm₅, setChild_parent, hm₄, replaceChild_parent, hpb]
    have hbl₆ : m₆.child d b = some a := by rw [hm₆, setParent_child, hm₅, setChild_child_self]
    have hbr₆ : m₆.child d.opp b = ptr z := by
      rw [hm₆, setParent_child, hm₅, setChild_opp_child, hchild₄ _ _ hupb, hm₁,
        setChild_child_of_ne hab.symm, hbr]
    have hap₆ : m₆.parent a = some b := by rw [hm₆, setParent_parent_self]
    have hal₆ : m₆.child d a = ptr x := by
      rw [hm₆, setParent_child, hm₅, setChild_child_of_ne hab, hchild₄ _ _ hupa, hm₁,
        setChild_child_opp, hal]
    have har₆ : m₆.child d.opp a = ptr y := by
      rw [hm₆, setParent_child, hm₅, setChild_child_of_ne hab, hchild₄ _ _ hupa, hm₁,
        setChild_child_self]
    refine isTree_join.2 ⟨by rw [hcolor, hbc], hbp₆, by rw [hbl₆, ptr_join], hbr₆, ?_, hz₆⟩
    exact isTree_join.2 ⟨by rw [hcolor, hac], hap₆, hal₆, har₆, hx₆, hy₆⟩

/-! ## Nodes that go, change and come -/

/-- The node `a` has no child but `t`, which takes its place. -/
theorem At.splice (h : At m ctx (join d c t a .nil)) :
    At (splice m a (ptr t) (up ctx)) ctx t := by
  obtain ⟨hat, -, hactx, hnt, -, -, htctx, -, hnctx⟩ := h.fresh
  obtain ⟨-, -, -, -, htree, -⟩ := isTree_join.1 h.tree
  have habove : IsCtx m ctx (some a) := by simpa using h.above
  obtain ⟨m₁, hm₁⟩ : ∃ m₁, m₁ = m.setParentOf (ptr t) (up ctx) := ⟨_, rfl⟩
  have h₁ : IsCtx m₁ ctx (some a) :=
    habove.congr (hm₁ ▸ sameAt_setParentOf fun e he => htctx e (ptr_mem he)) (by simp [hm₁])
  have htree₁ : IsTree m₁ (up ctx) t := hm₁ ▸ htree.reparent hnt
  have hup : ∀ e, up ctx = some e → e ∉ inorder t := fun e he hmem => htctx e hmem (up_mem he)
  unfold RbTree.splice
  rw [← hm₁]
  refine ⟨?_, htree₁.congr (sameAt_replaceChild hup), ?_⟩
  · rw [h₁.replaceChild hactx]; exact h₁.setLink hnctx
  · have hnodup := h.nodup
    rw [inorder_plug] at hnodup ⊢
    refine hnodup.sublist (List.Sublist.append_left (List.Sublist.append_right ?_ _) _)
    cases d <;> simp [join]

theorem sameAt_copyField (h : a ∉ l) : SameAt m (copyField m a b) l := by
  intro e he
  have hne : e ≠ a := fun heq => h (heq ▸ he)
  exact ⟨fun d => by simp [copyField, hne], by simp [copyField, hne], by simp [copyField, hne]⟩

/-- The node `a` takes the place of `b`, which has a left child. -/
theorem At.takePlace (h : At m ctx (.node c x b y)) (hx : x ≠ .nil)
    (ha : a ∉ inorder (plug ctx (.node c x b y))) :
    ∃ m', takePlace m a b = some m' ∧ At m' ctx (.node c x a y) := by
  obtain ⟨hbx, hby, hbctx, hnx, hny, hxy, hxctx, hyctx, hnctx⟩ := At.fresh (d := .left) h
  obtain ⟨hbc, hbp, hbl, hbr, htx, hty⟩ := h.tree
  have hmem : a ∉ nodes ctx ∧ a ∉ inorder x ∧ a ≠ b ∧ a ∉ inorder y := by
    rw [inorder_plug] at ha
    simp only [inorder_node, mem_append, mem_cons, not_or] at ha
    obtain ⟨hbef, ⟨hax, hab, hay⟩, haft⟩ := ha
    refine ⟨fun hmem => ?_, hax, hab, hay⟩
    rcases mem_append.1 hmem with hmem | hmem
    · exact hbef hmem
    · exact haft hmem
  obtain ⟨hactx, hax, hab, hay⟩ := hmem
  have hupa : up ctx ≠ some a := fun heq => hactx (up_mem heq)
  have hupb : up ctx ≠ some b := fun heq => hbctx (up_mem heq)
  have hxa : ptr x ≠ some a := fun heq => hax (ptr_mem heq)
  have hya : ptr y ≠ some a := fun heq => hay (ptr_mem heq)
  obtain ⟨x₀, hx₀⟩ : ∃ x₀, ptr x = some x₀ := by
    cases x with
    | nil => exact absurd rfl hx
    | node c' l e r => exact ⟨e, rfl⟩
  obtain ⟨m₁, hm₁⟩ : ∃ m₁, m₁ = copyField m a b := ⟨_, rfl⟩
  obtain ⟨m₂, hm₂⟩ : ∃ m₂, m₂ = m₁.replaceChild (up ctx) b (some a) := ⟨_, rfl⟩
  obtain ⟨m₃, hm₃⟩ : ∃ m₃, m₃ = m₂.setParentOf (ptr x) (some a) := ⟨_, rfl⟩
  obtain ⟨m₄, hm₄⟩ : ∃ m₄, m₄ = m₃.setParentOf (ptr y) (some a) := ⟨_, rfl⟩
  have hpb : m₁.parent b = up ctx := by rw [hm₁, ← hbp]; exact Function.update_of_ne hab.symm _ _
  have hchild : ∀ d, m₃.child d b = m.child d b := by
    intro d
    rw [hm₃, setParentOf_child, hm₂, replaceChild_child_of_ne hupb, hm₁]; exact if_neg hab.symm
  have hrun : RbTree.takePlace m a b = some m₄ := by
    have hleft : m₂.child .left b = some x₀ := by
      rw [← hx₀, ← hbl, ← hchild, hm₃, setParentOf_child]
    have hset : m₂.setParent x₀ (some a) = m₃ := by rw [hm₃, hx₀]; rfl
    unfold RbTree.takePlace
    simp only [← hm₁, hpb, ← hm₂, hleft, Option.bind_eq_bind, Option.bind_some, hset, hchild, hbr,
      ← hm₄, pure]
  refine ⟨m₄, hrun, ?_, ?_, ?_⟩
  · have h₁ : SameAt m m₁ (nodes ctx) := hm₁ ▸ sameAt_copyField hactx
    have habove₁ : IsCtx m₁ ctx (some b) := h.above.congr h₁ (by rw [hm₁]; rfl)
    have h₂ : IsCtx m₂ ctx (some a) := by
      rw [hm₂, habove₁.replaceChild hbctx]; exact habove₁.setLink hnctx
    have h₃ : SameAt m₂ m₃ (nodes ctx) :=
      hm₃ ▸ sameAt_setParentOf fun e he => hxctx e (ptr_mem he)
    have h₄ : SameAt m₃ m₄ (nodes ctx) :=
      hm₄ ▸ sameAt_setParentOf fun e he => hyctx e (ptr_mem he)
    exact h₂.congr (h₃.trans h₄) (by simp [hm₄, hm₃])
  · have hkeep : ∀ l : List α, a ∉ l → (∀ e ∈ l, e ∉ nodes ctx) → SameAt m m₂ l := by
      intro l hal hcl
      have h₁ : SameAt m m₁ l := hm₁ ▸ sameAt_copyField hal
      exact h₁.trans (hm₂ ▸ sameAt_replaceChild fun e he hmem => hcl e hmem (up_mem he))
    have hx₄ : IsTree m₄ (some a) x := by
      have h₃ : IsTree m₃ (some a) x := hm₃ ▸ (htx.congr (hkeep _ hax hxctx)).reparent hnx
      exact h₃.congr (hm₄ ▸ sameAt_setParentOf fun e he hmem => hxy e hmem (ptr_mem he))
    have hy₄ : IsTree m₄ (some a) y := by
      have h₃ : SameAt m₂ m₃ (inorder y) :=
        hm₃ ▸ sameAt_setParentOf fun e he => hxy e (ptr_mem he)
      exact hm₄ ▸ (hty.congr ((hkeep _ hay hyctx).trans h₃)).reparent hny
    have hchild₄ : ∀ d, m₄.child d a = m.child d b := by
      intro d
      rw [hm₄, setParentOf_child, hm₃, setParentOf_child, hm₂, replaceChild_child_of_ne hupa, hm₁]
      exact if_pos rfl
    have hparent₄ : m₄.parent a = m.parent b := by
      rw [hm₄, setParentOf_parent_of_ne hya, hm₃, setParentOf_parent_of_ne hxa, hm₂,
        replaceChild_parent, hm₁]
      exact Function.update_self _ _ _
    have hcolor₄ : m₄.color a = m.color b := by
      rw [hm₄, setParentOf_color, hm₃, setParentOf_color, hm₂, replaceChild_color, hm₁]
      exact Function.update_self _ _ _
    exact ⟨hcolor₄.trans hbc, hparent₄.trans hbp, (hchild₄ _).trans hbl, (hchild₄ _).trans hbr,
      hx₄, hy₄⟩
  · have hnodup := h.nodup
    rw [inorder_plug] at hnodup ha ⊢
    simp only [inorder_node, mem_append, mem_cons, not_or] at ha
    simp only [inorder_node, nodup_append, nodup_cons, mem_append,
      mem_cons] at hnodup ⊢
    grind

/-- A new leaf. -/
theorem At.link (h : At m ctx .nil) (ha : a ∉ nodes ctx) :
    At (setLink (rbSet m a (up ctx)) ctx (some a)) ctx (.node .red .nil a .nil) := by
  have hset : ∀ l : List α, a ∉ l → SameAt m (rbSet m a (up ctx)) l := by
    intro l hal
    have h₁ : SameAt m (m.setParent a (up ctx)) l := sameAt_setParent hal
    have h₂ := h₁.trans (sameAt_setChild (d := .left) (p := none) hal)
    have h₃ := h₂.trans (sameAt_setChild (d := .right) (p := none) hal)
    exact h₃.trans (sameAt_setColor (c := .red) hal)
  have hup : ∀ e, up ctx = some e → e ∉ [a] := by
    intro e he hmem
    obtain rfl := mem_singleton.1 hmem
    exact ha (up_mem he)
  have hnctx : (nodes ctx).Nodup := (nodup_append.1 h.perm).2.1
  have habove : IsCtx (rbSet m a (up ctx)) ctx none := h.above.congr (hset _ ha) rfl
  refine ⟨habove.setLink hnctx, ?_, ?_⟩
  · have hleaf : IsTree (rbSet m a (up ctx)) (up ctx) (.node .red .nil a .nil) := by
      refine ⟨?_, ?_, ?_, ?_, trivial, trivial⟩ <;>
        simp [rbSet, Mem.setColor, Mem.setChild, Mem.setParent]
    exact hleaf.congr (sameAt_setLink hup)
  · rw [inorder_plug]; exact nodup_middle.2 (nodup_cons.2 ⟨ha, hnctx⟩)

end

end FreeBSD.RbTree
