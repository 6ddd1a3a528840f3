import FreeBSD.Sys.RbRepr

/-!
# The ways through a red-black tree

What the loops that only read come to, for a tree in focus.

* `leftmost_spec`, `climb_spec`, `rbNext_spec` — the node after another.
* `rbMinmax_spec`, `rbForeach_spec` — the walk over all nodes.
* `descend_spec`, `rbFind_spec` — the way down to the place of an element.
-/

namespace FreeBSD.RbTree

open Lib (Color Dir Ascending ascending_append ascending_cons cmp_gt_iff)
open Lib.RedBlack Mem Option

variable {α : Type*} {m : Mem α} {a b e : α} {t l r : CTree α} {c : Color} {ctx : Context α}
  {f : Frame α} {fuel : ℕ}

/-- The focus moves up over some of the nodes. -/
theorem at_append {ctx' : Context α} : At m (ctx' ++ ctx) t ↔ At m ctx (plug ctx' t) := by
  rw [at_plug, plug_append, ← at_plug]

/-! ## The next node -/

/-- The way down to the left ends at the first node. -/
theorem leftmost_spec (h : At m ctx t) (ha : ptr t = some a)
    (hfuel : (inorder t).length ≤ fuel) :
    ∃ lefts c e r, leftmost m fuel a = some e ∧ t = plug lefts (.node c .nil e r) ∧
      before lefts = [] := by
  induction t generalizing ctx a fuel with
  | nil => cases ha
  | node c l b r ihl ihr =>
    obtain rfl := some.inj ha
    obtain ⟨-, -, hl, -⟩ := At.join_facts (d := .left) h
    rw [inorder_node, List.length_append, List.length_cons] at hfuel
    obtain ⟨fuel, rfl⟩ : ∃ k, fuel = k + 1 := ⟨fuel - 1, by omega⟩
    unfold leftmost
    rw [hl]
    cases hp : ptr l with
    | none =>
      have hnil : l = .nil := by
        cases l with
        | nil => rfl
        | node c' l' b' r' => cases hp
      subst hnil; exact ⟨[], c, b, r, rfl, rfl, rfl⟩
    | some a' =>
      have hlen : (inorder l).length ≤ fuel := by omega
      obtain ⟨lefts, c', e, r', hrun, hl', hbefore⟩ := ihl (at_join (d := .left) |>.1 h) hp hlen
      refine ⟨lefts ++ [⟨.left, c, b, r⟩], c', e, r', hrun, ?_, ?_⟩
      · rw [plug_append, ← hl']; rfl
      · rw [before_append, hbefore]; rfl

/-- The way up ends at the next node after those of the tree in focus. -/
theorem climb_spec [DecidableEq α] (h : At m ctx t) (ha : ptr t = some a)
    (hfuel : ctx.length + 1 ≤ fuel) : climb m fuel a = some (after ctx).head? := by
  induction ctx generalizing t a fuel with
  | nil =>
    obtain ⟨fuel, rfl⟩ : ∃ k, fuel = k + 1 := ⟨fuel - 1, by omega⟩
    unfold climb
    rw [(h.ptr_facts ha).1]; rfl
  | cons f ctx ih =>
    obtain ⟨d, c, p, s⟩ := f
    rw [List.length_cons] at hfuel
    obtain ⟨fuel, rfl⟩ : ∃ k, fuel = k + 1 := ⟨fuel - 1, by omega⟩
    have hup := at_cons.1 h
    obtain ⟨-, -, hl, hr⟩ := hup.join_facts
    obtain ⟨-, -, -, -, -, hdisj, -⟩ := hup.fresh
    dsimp only at hl hr hdisj
    unfold climb
    rw [(h.ptr_facts ha).1]
    simp only [up_cons]
    cases d with
    | left =>
      have hno : m.child .right p ≠ some a := by
        rw [show Dir.right = Dir.left.opp from rfl, hr]
        exact fun heq => hdisj a (ptr_mem ha) (ptr_mem heq)
      rw [if_neg hno]; rfl
    | right =>
      rw [if_pos (by rw [hl, ha])]
      exact ih hup ptr_join (by omega)

/-- `RB_NEXT` gives the next node. -/
theorem rbNext_spec [DecidableEq α] (h : At m ctx (.node c l a r))
    (hfuel : ctx.length + (inorder r).length + 1 ≤ fuel) :
    rbNext m fuel a = some (inorder r ++ after ctx).head? := by
  obtain ⟨-, hp, hl, hr⟩ := At.join_facts (d := .left) h
  unfold rbNext
  rw [show Dir.right = Dir.left.opp from rfl, hr]
  cases hptr : ptr r with
  | some b =>
    have hlen : (inorder r).length ≤ fuel := by omega
    obtain ⟨lefts, c', e, r', hrun, hr', hbefore⟩ :=
      leftmost_spec (at_sib (d := .left) |>.1 h) hptr hlen
    have hhead : (inorder r).head? = some e := by rw [hr', inorder_plug, hbefore]; rfl
    dsimp only
    rw [hrun, map_some, List.head?_append, hhead]; rfl
  | none =>
    have hnil : r = .nil := by
      cases r with
      | nil => rfl
      | node c' l' b' r' => cases hptr
    subst hnil
    have hclimb : climb m fuel a = some (after ctx).head? :=
      climb_spec h rfl (by simp at hfuel; omega)
    rw [hp]
    cases ctx with
    | nil => exact hclimb
    | cons f ctx =>
      obtain ⟨d, c', p, s⟩ := f
      have hup := at_cons.1 h
      obtain ⟨-, -, hpl, hpr⟩ := hup.join_facts
      obtain ⟨-, -, -, -, -, hdisj, -⟩ := hup.fresh
      dsimp only at hpl hpr hdisj
      simp only [up_cons]
      cases d with
      | left =>
        rw [if_pos (by rw [hpl]; rfl)]
        rfl
      | right =>
        have hno : m.child .left p ≠ some a := by
          rw [show Dir.left = Dir.right.opp from rfl, hpr]
          exact fun heq => hdisj a (by simp) (ptr_mem heq)
        rw [if_neg hno]; exact hclimb

/-! ## All nodes -/

/-- `RB_MIN` goes down to the first node. -/
theorem minmaxLoop_spec (h : At m ctx t) (hfuel : (inorder t).length ≤ fuel) (p : Option α) :
    minmaxLoop m .left fuel (ptr t) p = some ((inorder t).head?.or p) := by
  induction t generalizing ctx fuel p with
  | nil => cases fuel <;> rfl
  | node c l a r ihl ihr =>
    obtain ⟨-, -, hl, -⟩ := At.join_facts (d := .left) h
    rw [inorder_node, List.length_append, List.length_cons] at hfuel
    obtain ⟨fuel, rfl⟩ : ∃ k, fuel = k + 1 := ⟨fuel - 1, by omega⟩
    rw [ptr_node]
    unfold minmaxLoop
    rw [hl, ihl (at_join (d := .left) |>.1 h) (by omega), inorder_node]
    cases inorder l <;> simp

theorem rbMinmax_spec (h : At m [] t) (hfuel : (inorder t).length ≤ fuel) :
    rbMinmax m fuel .left = some (inorder t).head? := by
  unfold rbMinmax
  rw [show m.root = ptr t from h.above, minmaxLoop_spec h hfuel, or_none]

/-- From a node on, `RB_FOREACH` goes over it and those after it. -/
theorem foreachFrom_spec [DecidableEq α] {xs ys : List α} {turns : ℕ} (h : At m [] t)
    (hin : inorder t = xs ++ ys) (hfuel : (inorder t).length + 1 ≤ fuel)
    (hturns : ys.length ≤ turns) : foreachFrom m fuel turns ys.head? = some ys := by
  induction ys generalizing turns xs with
  | nil => cases turns <;> rfl
  | cons y ys ih =>
    obtain ⟨turns, rfl⟩ : ∃ n, turns = n + 1 := ⟨turns - 1, by simp at hturns; omega⟩
    obtain ⟨ctx, c, l, r, ht⟩ := exists_focus (t := t) (b := y) (by simp [hin])
    rw [ht] at h hin hfuel
    have hfocus := at_plug.2 h
    have hlen := length_add_le_plug ctx (.node c l y r)
    rw [inorder_node, List.length_append, List.length_cons] at hlen
    have hbound : ctx.length + (inorder r).length + 1 ≤ fuel := by omega
    have hnext := rbNext_spec hfocus hbound
    have hrest : inorder r ++ after ctx = ys := by
      have hnodup := h.nodup
      rw [plug_nil, hin] at hnodup
      have hsplit : (before ctx ++ inorder l) ++ y :: (inorder r ++ after ctx) = xs ++ y :: ys := by
        rw [← hin, inorder_plug]; simp
      rw [← hsplit, List.nodup_middle, List.nodup_cons, List.mem_append, not_or] at hnodup
      exact ((List.append_cons_inj_of_notMem hnodup.1.1 hnodup.1.2).1 hsplit).2.2
    rw [hrest] at hnext
    rw [List.head?_cons]
    unfold foreachFrom
    rw [hnext]
    rw [List.length_cons] at hturns
    have hin' : inorder t = (xs ++ [y]) ++ ys := by simp [ht, hin]
    have hloop := ih hin' (Nat.le_of_succ_le_succ hturns)
    simp only [bind_eq_bind, bind_some, hloop, pure]

/-- `RB_FOREACH` goes over all nodes once, in order. -/
theorem rbForeach_spec [DecidableEq α] (h : At m [] t) (hfuel : (inorder t).length + 1 ≤ fuel) :
    rbForeach m fuel = some (inorder t) := by
  have hlen : (inorder t).length ≤ fuel := by omega
  unfold rbForeach
  rw [rbMinmax_spec h hlen]
  have hin : inorder t = [] ++ inorder t := rfl
  exact foreachFrom_spec h hin hfuel hlen

/-! ## The way down -/

section Compare

variable {cmp : α → α → Ordering} {elm : α}

/-- The hole is where the element belongs. -/
structure Place (cmp : α → α → Ordering) (elm : α) (ctx : Context α) : Prop where
  before_gt : ∀ a ∈ before ctx, cmp elm a = .gt
  after_lt : ∀ a ∈ after ctx, cmp elm a = .lt

theorem Place.ne (h : Place cmp elm ctx) : ∀ a ∈ before ctx ++ after ctx, cmp elm a ≠ .eq := by
  intro a ha heq
  rcases List.mem_append.1 ha with ha | ha
  · rw [h.before_gt a ha] at heq
    cases heq
  · rw [h.after_lt a ha] at heq
    cases heq

theorem Place.left [Std.TransCmp cmp] (h : Place cmp elm ctx) (hcmp : cmp elm a = .lt)
    (hr : ∀ b ∈ inorder r, cmp a b = .lt) : Place cmp elm (⟨.left, c, a, r⟩ :: ctx) := by
  refine ⟨h.before_gt, fun b hb => ?_⟩
  simp only [after, List.mem_cons, List.mem_append] at hb
  rcases hb with rfl | hb | hb
  · exact hcmp
  · exact Std.TransCmp.lt_trans hcmp (hr b hb)
  · exact h.after_lt b hb

theorem Place.right [Std.TransCmp cmp] (h : Place cmp elm ctx) (hcmp : cmp elm a = .gt)
    (hl : ∀ b ∈ inorder l, cmp b a = .lt) : Place cmp elm (⟨.right, c, a, l⟩ :: ctx) := by
  refine ⟨fun b hb => ?_, h.after_lt⟩
  simp only [before, List.mem_append, List.mem_singleton] at hb
  rcases hb with hb | hb | rfl
  · exact h.before_gt b hb
  · exact cmp_gt_iff.2 (Std.TransCmp.lt_trans (hl b hb) (cmp_gt_iff.1 hcmp))
  · exact hcmp

/-- The side on which the last comparison says that the hole is. -/
def sideOfComp (comp : Ordering) : Dir := if comp = .lt then .left else .right

/-- The way down ends at the node that compares as equal, or at the place of the element. -/
theorem descend_spec [Std.TransCmp cmp] (comp : Ordering) (h : At m ctx t)
    (hasc : Ascending cmp (inorder t)) (hplace : Place cmp elm ctx)
    (hdir : ∀ f ctx₀, ctx = f :: ctx₀ → sideOfComp comp = f.dir)
    (hfuel : (inorder t).length ≤ fuel) :
    (∃ a ∈ inorder t, cmp elm a = .eq ∧
      descend cmp m elm fuel (ptr t) (up ctx) comp = some (.inl a)) ∨
    ∃ ctx' comp', plug ctx' .nil = plug ctx t ∧ Place cmp elm ctx' ∧
      (∀ f ctx₀, ctx' = f :: ctx₀ → sideOfComp comp' = f.dir) ∧
      descend cmp m elm fuel (ptr t) (up ctx) comp = some (.inr (up ctx', comp')) := by
  induction t generalizing ctx comp fuel with
  | nil =>
    refine .inr ⟨ctx, comp, rfl, hplace, hdir, ?_⟩
    cases fuel <;> rfl
  | node c l a r ihl ihr =>
    obtain ⟨-, -, hl, hr⟩ := At.join_facts (d := .left) h
    dsimp only [Dir.opp_left] at hr
    rw [inorder_node, List.length_append, List.length_cons] at hfuel
    rw [inorder_node, ascending_append, ascending_cons] at hasc
    obtain ⟨hascl, ⟨har, hascr⟩, hla⟩ := hasc
    obtain ⟨fuel, rfl⟩ : ∃ k, fuel = k + 1 := ⟨fuel - 1, by omega⟩
    rw [ptr_node]
    unfold descend
    cases hcmp : cmp elm a with
    | eq => exact .inl ⟨a, by simp, hcmp, rfl⟩
    | lt =>
      have hlen : (inorder l).length ≤ fuel := by omega
      have hdir' : ∀ f ctx₀, (⟨.left, c, a, r⟩ :: ctx : Context α) = f :: ctx₀ →
          sideOfComp .lt = f.dir := by
        intro f ctx₀ heq
        obtain ⟨rfl, -⟩ := List.cons.inj heq
        rfl
      simp only [hl]
      rcases ihl .lt (at_join (d := .left) |>.1 h) hascl (hplace.left hcmp har) hdir' hlen with
        ⟨b, hb, heq, hrun⟩ | ⟨ctx', comp', hplug, hplace', hdir'', hrun⟩
      · exact .inl ⟨b, by simp [hb], heq, hrun⟩
      · exact .inr ⟨ctx', comp', hplug, hplace', hdir'', hrun⟩
    | gt =>
      have hlen : (inorder r).length ≤ fuel := by omega
      have hdir' : ∀ f ctx₀, (⟨.right, c, a, l⟩ :: ctx : Context α) = f :: ctx₀ →
          sideOfComp .gt = f.dir := by
        intro f ctx₀ heq
        obtain ⟨rfl, -⟩ := List.cons.inj heq
        rfl
      have hpl : Place cmp elm (⟨.right, c, a, l⟩ :: ctx) :=
        hplace.right hcmp fun b hb => hla b hb a (List.mem_cons_self ..)
      simp only [hr]
      rcases ihr .gt (at_sib (d := .left) |>.1 h) hascr hpl hdir' hlen with
        ⟨b, hb, heq, hrun⟩ | ⟨ctx', comp', hplug, hplace', hdir'', hrun⟩
      · exact .inl ⟨b, by simp [hb], heq, hrun⟩
      · exact .inr ⟨ctx', comp', hplug, hplace', hdir'', hrun⟩

/-- `RB_FIND` goes the way of `RB_INSERT`. -/
theorem rbFind_eq_descend (comp : Ordering) (q p : Option α) : rbFind cmp m elm fuel q =
    (descend cmp m elm fuel q p comp).map (Sum.elim some fun _ => none) := by
  induction fuel generalizing q p comp with
  | zero => cases q <;> rfl
  | succ fuel ih =>
    cases q with
    | none => rfl
    | some a =>
      unfold rbFind descend
      cases cmp elm a with
      | lt => exact ih _ _ _
      | gt => exact ih _ _ _
      | eq => rfl

end Compare

end FreeBSD.RbTree
