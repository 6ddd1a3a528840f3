import FreeBSD.Net.Radix

/-!
# Where the walk goes

A subtree of the tree is given with its context (`Ctx`), the internal nodes
above it with their other subtrees. The walk climbs through the context to
find the next leaf.

Results:
* `climb_spec`: where the way up ends (`exit`).
* `walkLoop_subtree`: the walk goes once through a subtree without a root leaf behind its first
  leaf.
* `walkLoop_spine`: at a root leaf it stops before the chain of this leaf.
-/

namespace FreeBSD.Radix

open List

/-! ## Contexts -/

/-- An internal node with the subtree on the other side. -/
inductive Frame
  | left (p : ℕ) (r : RnTree)
  | right (p : ℕ) (l : RnTree)

def Frame.at : Frame → ℕ
  | left p _ => p
  | right p _ => p

/-- The nodes above a subtree, the lowest first. -/
abbrev Ctx := List Frame

/-- The tree that has the subtree in this context. -/
def plug : Ctx → RnTree → RnTree
  | [], s => s
  | .left p r :: c, s => plug c (.node p s r)
  | .right p l :: c, s => plug c (.node p l s)

/-- The parent of a subtree; that of the treetop is the treetop. -/
def parentOf (top : ℕ) : Ctx → ℕ
  | [] => top
  | fr :: _ => fr.at

/-- The subtree is the left one of the lowest node above it. -/
def IsLeft (c : Ctx) : Prop := ∃ p r c', c = .left p r :: c'

/-- The subtree is at the right end of the tree. -/
def AllRight (c : Ctx) : Prop := ∀ fr ∈ c, ∃ p l, fr = .right p l

variable {m : Mem} {s t l r : RnTree} {c : Ctx} {p par n a : ℕ} {b lastb : ℤ}
  {stopping : Bool}

theorem first_mem_heads (t : RnTree) : t.first ∈ t.heads := by
  induction t with
  | leaf a dup => exact mem_singleton_self a
  | node p l r ihl _ => exact mem_append_left _ ihl

theorem last_mem_heads (t : RnTree) : t.last ∈ t.heads := by
  induction t with
  | leaf a dup => exact mem_singleton_self a
  | node p l r _ ihr => exact mem_append_right _ ihr

theorem heads_subset (t : RnTree) : t.heads ⊆ t.leaves := by
  induction t with
  | leaf a dup => simp [RnTree.heads, RnTree.leaves]
  | node p l r ihl ihr =>
    simp only [RnTree.heads, RnTree.leaves]
    exact append_subset.2 ⟨fun x hx => mem_append_left _ (ihl hx),
      fun x hx => mem_append_right _ (ihr hx)⟩

theorem leaves_sublist (t : RnTree) : t.leaves.Sublist t.nodes := by
  induction t with
  | leaf a dup => exact List.Sublist.refl _
  | node p l r ihl ihr => exact (ihl.append ihr).cons p

theorem mem_nodes_of_head {h : ℕ} (hh : h ∈ t.heads) : h ∈ t.nodes :=
  (leaves_sublist t).subset (heads_subset t hh)

theorem addr_mem (t : RnTree) : t.addr ∈ t.nodes := by
  cases t <;> exact mem_cons_self

theorem firstChain_subset (t : RnTree) : t.firstChain ⊆ t.nodes := by
  induction t with
  | leaf a dup => exact List.Subset.refl _
  | node p l r ihl _ =>
    exact fun x hx => mem_cons_of_mem p (mem_append_left _ (ihl hx))

theorem lastChain_subset (t : RnTree) : t.lastChain ⊆ t.nodes := by
  induction t with
  | leaf a dup => exact List.Subset.refl _
  | node p l r _ ihr =>
    exact fun x hx => mem_cons_of_mem p (mem_append_right _ (ihr hx))

/-- The nodes of the two subtrees. -/
theorem nodup_node (h : (RnTree.node p l r).nodes.Nodup) :
    p ∉ l.nodes ∧ p ∉ r.nodes ∧ l.nodes.Nodup ∧ r.nodes.Nodup ∧ ∀ x ∈ l.nodes, x ∉ r.nodes := by
  obtain ⟨h1, h2⟩ := nodup_cons.1 h
  obtain ⟨h3, h4, h5⟩ := nodup_append.1 h2
  refine ⟨fun hx => h1 (mem_append_left _ hx), fun hx => h1 (mem_append_right _ hx), h3,
    h4, fun x hx hx' => h5 x hx x hx' rfl⟩

/-- A subtree has nodes of the tree. -/
theorem nodes_sublist_plug (c : Ctx) (s : RnTree) : s.nodes.Sublist (plug c s).nodes := by
  induction c generalizing s with
  | nil => exact List.Sublist.refl _
  | cons fr c ih =>
    cases fr with
    | left p r => exact ((sublist_append_left s.nodes r.nodes).cons p).trans (ih (.node p s r))
    | right p l =>
      exact ((sublist_append_right l.nodes s.nodes).cons p).trans (ih (.node p l s))

theorem heads_subset_plug (c : Ctx) (s : RnTree) : s.heads ⊆ (plug c s).heads := by
  induction c generalizing s with
  | nil => exact List.Subset.refl _
  | cons fr c ih =>
    cases fr with
    | left p r => exact fun x hx => ih _ (mem_append_left _ hx)
    | right p l => exact fun x hx => ih _ (mem_append_right _ hx)

theorem inner_subset_plug (c : Ctx) (s : RnTree) : s.inner ⊆ (plug c s).inner := by
  induction c generalizing s with
  | nil => exact List.Subset.refl _
  | cons fr c ih =>
    cases fr with
    | left p r =>
      exact fun x hx => ih _ (mem_cons_of_mem p (mem_append_left _ hx))
    | right p l =>
      exact fun x hx => ih _ (mem_cons_of_mem p (mem_append_right _ hx))

theorem length_ctx_lt (c : Ctx) (s : RnTree) : c.length + s.nodes.length ≤
    (plug c s).nodes.length := by
  induction c generalizing s with
  | nil => exact (zero_add _).le
  | cons fr c ih =>
    cases fr with
    | left p r =>
      have := ih (.node p s r)
      simp only [RnTree.nodes, length_cons, length_append, plug] at this ⊢; omega
    | right p l =>
      have := ih (.node p l s)
      simp only [RnTree.nodes, length_cons, length_append, plug] at this ⊢; omega

/-- Below the treetop the treetop does not occur again. -/
theorem addr_plug_notMem {fr : Frame} (h : (plug (fr :: c) s).nodes.Nodup) :
    (plug (fr :: c) s).addr ∉ s.nodes := by
  induction c generalizing fr s with
  | nil =>
    cases fr with
    | left p r => exact (nodup_node h).1
    | right p l => exact (nodup_node h).2.1
  | cons fr' c ih =>
    cases fr with
    | left p r =>
      exact fun hx => ih (s := .node p s r) h (mem_cons_of_mem p (mem_append_left _ hx))
    | right p l =>
      exact fun hx => ih (s := .node p l s) h (mem_cons_of_mem p (mem_append_right _ hx))

/-- The memory holds each subtree. -/
theorem Repr.subtree (h : Repr m par b (plug c s)) : ∃ b', Repr m (parentOf par c) b' s := by
  induction c generalizing s with
  | nil => exact ⟨b, h⟩
  | cons fr c ih =>
    cases fr with
    | left p r =>
      obtain ⟨b', hn⟩ := ih h
      exact ⟨_, hn.2.1⟩
    | right p l =>
      obtain ⟨b', hn⟩ := ih h
      exact ⟨_, hn.2.2⟩

theorem Repr.lt_inner (h : Repr m par b s) : ∀ q ∈ s.inner, b < (m q).rnBit := by
  induction s generalizing par b with
  | leaf a dup => simp [RnTree.inner]
  | node p l r ihl ihr =>
    obtain ⟨⟨h1, -⟩, h2, h3⟩ := h
    intro q hq
    rcases mem_cons.1 hq with rfl | hq
    · exact h1
    · rcases mem_append.1 hq with hq | hq
      · exact h1.trans (ihl h2 q hq)
      · exact h1.trans (ihr h3 q hq)

/-- The first leaf of the tree is that of a subtree or outside of it. -/
theorem first_plug (h : (plug c s).nodes.Nodup) :
    (plug c s).first = s.first ∨ (plug c s).first ∉ s.nodes := by
  induction c generalizing s with
  | nil => exact .inl rfl
  | cons fr c ih =>
    cases fr with
    | left p r =>
      rcases ih (s := .node p s r) h with h1 | h1
      · exact .inl h1
      · exact .inr fun hx => h1 (mem_cons_of_mem p (mem_append_left _ hx))
    | right p l =>
      refine .inr fun hx => ?_
      rcases ih (s := .node p l s) h with h1 | h1
      · have hnd := nodup_node (h.sublist (nodes_sublist_plug c (.node p l s)))
        rw [plug, h1] at hx; exact hnd.2.2.2.2 _ (mem_nodes_of_head (first_mem_heads l)) hx
      · exact h1 (mem_cons_of_mem p (mem_append_right _ hx))

/-- The last leaf of the tree is that of a subtree at the right end, and outside of others. -/
theorem last_plug_of_allRight (h : AllRight c) : (plug c s).last = s.last := by
  induction c generalizing s with
  | nil => rfl
  | cons fr c ih =>
    obtain ⟨p, l, rfl⟩ := h fr mem_cons_self
    exact ih (s := .node p l s) fun fr' hfr => h fr' (mem_cons_of_mem _ hfr)

theorem last_plug_notMem (hc : ¬ AllRight c) (h : (plug c s).nodes.Nodup) :
    (plug c s).last ∉ s.nodes := by
  induction c generalizing s with
  | nil => exact absurd (fun fr hfr => by cases hfr) hc
  | cons fr c ih =>
    cases fr with
    | left p r =>
      intro hx
      by_cases hc' : AllRight c
      · have hnd := nodup_node (h.sublist (nodes_sublist_plug c (.node p s r)))
        rw [plug, last_plug_of_allRight hc'] at hx
        exact hnd.2.2.2.2 _ hx (mem_nodes_of_head (last_mem_heads r))
      · exact ih (s := .node p s r) hc' h (mem_cons_of_mem p (mem_append_left _ hx))
    | right p l =>
      intro hx
      refine ih (s := .node p l s) (fun hall => hc fun fr hfr => ?_) h
        (mem_cons_of_mem p (mem_append_right _ hx))
      rcases mem_cons.1 hfr with rfl | hfr
      · exact ⟨p, l, rfl⟩
      · exact hall fr hfr

/-! ## The way up -/

/-- Where the way up from a subtree ends: the flag `stopping`, and the subtree that comes next;
    `tr` is the right subtree of the treetop. -/
def exit (m : Mem) (lastb : ℤ) (tr : RnTree) : Ctx → Bool → Bool × RnTree
  | [], stopping => (stopping, tr)
  | .left _ r :: _, stopping => (stopping, r)
  | .right p _ :: c, stopping =>
    exit m lastb tr c (stopping || decide ((m p).rnBit < lastb))

theorem exit_true (tr : RnTree) : (exit m lastb tr c true).1 = true := by
  induction c with
  | nil => rfl
  | cons fr c ih =>
    cases fr with
    | left p r => rfl
    | right p l => exact ih

/-- The next subtree is a subtree of the tree. -/
theorem exit_subtree (lastb : ℤ) (stopping : Bool) {top : ℕ} {tl tr : RnTree}
    (h : plug c s = .node top tl tr) :
    ∃ c', plug c' (exit m lastb tr c stopping).2 = .node top tl tr := by
  induction c generalizing s stopping with
  | nil => exact ⟨[.right top tl], rfl⟩
  | cons fr c ih =>
    cases fr with
    | left p r => exact ⟨.right p s :: c, h⟩
    | right p l => exact ih _ h

theorem climb_spec (lastb : ℤ) (stopping : Bool) {top : ℕ} {tl tr : RnTree}
    (hw : WellFormed m (.node top tl tr))
    (h : plug c s = .node top tl tr) (hn : c.length < n)
    (hroot : isRoot m s.addr = true → c = [] ∨ IsLeft c) :
    ∃ up, climb m lastb n s.addr stopping = some (up, (exit m lastb tr c stopping).1) ∧
      (m (m up).rnParent).rnRight = (exit m lastb tr c stopping).2.addr := by
  induction c generalizing s n stopping with
  | nil =>
    obtain ⟨n, rfl⟩ : ∃ k, n = k + 1 := ⟨n - 1, by omega⟩
    have hs : s = .node top tl tr := h
    subst hs
    obtain ⟨⟨-, -, hpar, -, hright⟩, -, -⟩ := hw.repr
    have hne : tr.addr ≠ top := fun heq => (nodup_node hw.nodup).2.1 (heq ▸ addr_mem tr)
    have hstop : ¬ ((m (m top).rnParent).rnRight = top ∧ isRoot m top = false) := by
      rintro ⟨heq, -⟩
      rw [hpar] at heq; exact hne (hright.symm.trans heq)
    refine ⟨top, ?_, by rw [hpar]; exact hright⟩
    show climb m lastb (n + 1) top stopping = _
    rw [climb, if_neg hstop]; rfl
  | cons fr c ih =>
    rw [length_cons] at hn
    obtain ⟨n, rfl⟩ : ∃ k, n = k + 1 := ⟨n - 1, by omega⟩
    have hrepr := hw.repr
    have hnodup := hw.nodup
    rw [← h] at hrepr hnodup
    cases fr with
    | left p r =>
      obtain ⟨b', ⟨-, -, -, -, hright⟩, hs, -⟩ := Repr.subtree (c := c) (s := .node p s r) hrepr
      have hnd := nodup_node (hnodup.sublist (nodes_sublist_plug c (.node p s r)))
      have hpar : (m s.addr).rnParent = p := by
        cases s with
        | leaf a dup => exact hs.2.1
        | node q l' r' => exact hs.1.2.2.1
      have hne : r.addr ≠ s.addr := fun heq => hnd.2.2.2.2 _ (addr_mem s) (heq ▸ addr_mem r)
      have hstop : ¬ ((m (m s.addr).rnParent).rnRight = s.addr ∧ isRoot m s.addr = false) := by
        rintro ⟨heq, -⟩
        rw [hpar] at heq; exact hne (hright.symm.trans heq)
      refine ⟨s.addr, ?_, by rw [hpar]; exact hright⟩
      rw [climb, if_neg hstop]; rfl
    | right p l =>
      obtain ⟨b', ⟨-, -, -, -, hright⟩, -, hs⟩ := Repr.subtree (c := c) (s := .node p l s) hrepr
      have hpar : (m s.addr).rnParent = p := by
        cases s with
        | leaf a dup => exact hs.2.1
        | node q l' r' => exact hs.1.2.2.1
      have hnot : isRoot m s.addr = false := by
        rw [← Bool.not_eq_true]
        intro hr
        rcases hroot hr with h' | ⟨_, _, _, h'⟩ <;> cases h'
      rw [climb, if_pos ⟨by rw [hpar]; exact hright, hnot⟩, hpar]
      refine ih (s := .node p l s) _ h (by omega) fun hp => .inl ?_
      -- the only internal node that is a root is the treetop
      have hin : p ∈ (RnTree.node top tl tr).inner :=
        h ▸ inner_subset_plug c (.node p l s) mem_cons_self
      have htop := hw.inner p hin hp
      cases c with
      | nil => rfl
      | cons fr' c =>
        refine absurd ?_ (addr_plug_notMem (s := .node p l s) hnodup)
        have heq : (plug (fr' :: c) (.node p l s)).addr = p :=
          (congrArg RnTree.addr h).trans htop.symm
        rw [heq]; exact mem_cons_self

/-! ## The way down -/

theorem leftmost_spec (h : Repr m par b s) (hn : s.nodes.length < n) :
    leftmost m n s.addr = some s.first := by
  induction s generalizing n par b with
  | leaf a dup =>
    obtain ⟨n, rfl⟩ : ∃ k, n = k + 1 := ⟨n - 1, by omega⟩
    exact if_neg (by have := h.1; show ¬ (m a).rnBit ≥ 0; omega)
  | node p l r ihl _ =>
    obtain ⟨n, rfl⟩ : ∃ k, n = k + 1 := ⟨n - 1, by omega⟩
    obtain ⟨⟨-, h0, -, hleft, -⟩, hl, -⟩ := h
    simp only [RnTree.nodes, length_cons, length_append] at hn
    show leftmost m (n + 1) p = some l.first
    rw [leftmost, if_pos h0, hleft]; exact ihl hl (by omega)

/-! ## Leaves -/

/-- The leaves for which there are calls. -/
def nonRoot (m : Mem) (l : List ℕ) : List ℕ := l.filter fun a => !isRoot m a

@[simp] theorem nonRoot_append (l l' : List ℕ) :
    nonRoot m (l ++ l') = nonRoot m l ++ nonRoot m l' := filter_append _ _

variable {f : List ℕ → ℕ → ℤ} {calls : List ℕ}

/-- A chain of leaves, from one of them on. -/
theorem processLeaves_spec (calls : List ℕ) (hf : ∀ l p, f l p = 0) {l : List ℕ} (h : DupChain m l)
    (hn : l.length < n) :
    processLeaves m f n (l.headD 0) calls = some (calls ++ nonRoot m l, 0) := by
  induction l generalizing n calls with
  | nil =>
    obtain ⟨n, rfl⟩ : ∃ k, n = k + 1 := ⟨n - 1, by omega⟩
    show processLeaves m f (n + 1) 0 calls = _
    rw [processLeaves, if_pos rfl]; simp [nonRoot]
  | cons a l ih =>
    rw [length_cons] at hn
    obtain ⟨n, rfl⟩ : ∃ k, n = k + 1 := ⟨n - 1, by omega⟩
    obtain ⟨h0, hnext, hl⟩ : a ≠ 0 ∧ (m a).rnDupedkey = l.headD 0 ∧ DupChain m l := by
      cases l with
      | nil => exact ⟨h.1, h.2, trivial⟩
      | cons c l => exact h
    show processLeaves m f (n + 1) a calls = _
    rw [processLeaves, if_neg h0, hnext, hf]
    by_cases hr : isRoot m a = false
    · rw [if_pos hr]
      dsimp only
      rw [if_neg (not_not.2 rfl), ih _ hl (by omega)]
      simp [nonRoot, hr]
    · rw [if_neg hr, ih _ hl (by omega)]
      simp [nonRoot, hr]

/-! ## The loop -/

/-- What is left of the loop after a leaf: `stopping`, and the next subtree. -/
def after (m : Mem) (f : List ℕ → ℕ → ℤ) (lastb : ℤ) (n rounds : ℕ) (e : Bool × RnTree)
    (calls : List ℕ) : Option (List ℕ × ℤ) :=
  if e.1 || isRoot m e.2.first then some (calls, 0)
  else walkLoop m f lastb n rounds e.2.first calls

section Walk

variable {top rounds : ℕ} {tl tr : RnTree} (hw : WellFormed m (.node top tl tr))
  (hf : ∀ l p, f l p = 0) (hn : (RnTree.node top tl tr).nodes.length < n)

include hw hf hn

/-- One round. -/
theorem walkLoop_leaf {dup : List ℕ} (h : plug c (.leaf a dup) = .node top tl tr)
    (hroot : isRoot m a = true → IsLeft c) :
    walkLoop m f lastb n (rounds + 1) a calls =
      after m f lastb n rounds (exit m lastb tr c false) (calls ++ nonRoot m (a :: dup)) := by
  have hlen := length_ctx_lt c (.leaf a dup)
  rw [h] at hlen
  simp only [RnTree.nodes, length_cons] at hlen hn
  obtain ⟨up, hclimb, hright⟩ := climb_spec (c := c) (n := n) lastb false hw h
    (by omega) fun hr => .inr (hroot hr)
  obtain ⟨c', hc'⟩ := exit_subtree (m := m) lastb false h
  have hrepr := hw.repr
  have hlen' := length_ctx_lt c' (exit m lastb tr c false).2
  rw [hc'] at hlen'
  simp only [RnTree.nodes, length_cons] at hlen'
  obtain ⟨b₁, hnext⟩ := Repr.subtree (c := c') (s := (exit m lastb tr c false).2)
    (by rw [hc']; exact hrepr)
  obtain ⟨b₂, hleaf⟩ := Repr.subtree (c := c) (s := .leaf a dup) (by rw [h]; exact hrepr)
  have hleft := leftmost_spec (n := n) hnext (by omega)
  have hcalls := processLeaves_spec (m := m) (f := f) (n := n) (l := a :: dup) calls hf
    hleaf.2.2 (by rw [length_cons]; omega)
  rw [walkLoop]
  change climb m lastb n a false = _ at hclimb
  change processLeaves m f n a calls = _ at hcalls
  rw [hclimb]
  simp only [Option.bind_eq_bind, Option.bind_some]
  rw [hright, hleft]
  simp only [Option.bind_some]
  rw [hcalls]; rfl

/-- The walk goes once through a subtree in which no leaf but the first is a root node. -/
theorem walkLoop_subtree (h : plug c s = .node top tl tr)
    (hroots : ∀ a ∈ s.heads, isRoot m a = true → a = s.first)
    (hfirst : isRoot m s.first = true → (∃ p l r, s = .node p l r) ∨ IsLeft c)
    (hbits : ∀ q ∈ s.inner, lastb ≤ (m q).rnBit) :
    walkLoop m f lastb n (rounds + s.heads.length) s.first calls =
      after m f lastb n rounds (exit m lastb tr c false) (calls ++ nonRoot m s.leaves) := by
  induction s generalizing c rounds calls with
  | leaf a dup =>
    refine walkLoop_leaf hw hf hn h fun hr => ?_
    rcases hfirst hr with ⟨p, l, r, h'⟩ | h'
    · cases h'
    · exact h'
  | node p l r ihl ihr =>
    have hnodup := hw.nodup
    rw [← h] at hnodup
    have hnd := nodup_node (hnodup.sublist (nodes_sublist_plug c (.node p l r)))
    have hr : isRoot m r.first = false := by
      rw [← Bool.not_eq_true]
      intro hr
      have heq := hroots _ (mem_append_right _ (first_mem_heads r)) hr
      exact hnd.2.2.2.2 _ (mem_nodes_of_head (first_mem_heads l))
        (heq ▸ mem_nodes_of_head (first_mem_heads r))
    have hlen : rounds + (RnTree.node p l r).heads.length =
        rounds + r.heads.length + l.heads.length := by
      simp only [RnTree.heads, length_append]; omega
    rw [hlen]
    have hexit : exit m lastb tr (.left p r :: c) false = (false, r) := rfl
    change walkLoop m f lastb n _ l.first calls = _
    rw [ihl (c := .left p r :: c) h
      (fun a ha hra => hroots a (mem_append_left _ ha) hra) (fun _ => .inr ⟨p, r, c, rfl⟩)
      fun q hq => hbits q (mem_cons_of_mem p (mem_append_left _ hq)), hexit]
    conv_lhs => unfold after
    dsimp only
    rw [hr, if_neg (by decide)]
    have hexit' : exit m lastb tr (.right p l :: c) false = exit m lastb tr c false := by
      have hp := hbits p mem_cons_self
      show exit m lastb tr c (false || decide ((m p).rnBit < lastb)) = _
      rw [decide_eq_false (by omega)]
      rfl
    rw [ihr (c := .right p l :: c) h
      (fun a ha hra => by
        have heq := hroots a (mem_append_right _ ha) hra
        exact absurd (heq ▸ mem_nodes_of_head ha)
          (hnd.2.2.2.2 _ (mem_nodes_of_head (first_mem_heads l))))
      (fun hr' => by rw [hr] at hr'; cases hr')
      (fun q hq => hbits q (mem_cons_of_mem p (mem_append_right _ hq))), hexit',
      append_assoc, ← nonRoot_append]
    rfl

/-- The walk goes through the left subtree and on to the first leaf of the right one. -/
theorem walkLoop_left {p : ℕ} {l r : RnTree} (h : plug c (.node p l r) = .node top tl tr)
    (hroots : ∀ a ∈ l.heads, isRoot m a = true → a = l.first)
    (hbits : ∀ q ∈ l.inner, lastb ≤ (m q).rnBit) :
    walkLoop m f lastb n (rounds + (RnTree.node p l r).heads.length) l.first calls =
      if isRoot m r.first = true then some (calls ++ nonRoot m l.leaves, 0)
      else walkLoop m f lastb n (rounds + r.heads.length) r.first
        (calls ++ nonRoot m l.leaves) := by
  have hlen : rounds + (RnTree.node p l r).heads.length =
      rounds + r.heads.length + l.heads.length := by
    simp only [RnTree.heads, length_append]; omega
  rw [hlen, walkLoop_subtree (c := .left p r :: c) hw hf hn h hroots
    (fun _ => .inr ⟨p, r, c, rfl⟩) hbits]
  have hexit : exit m lastb tr (.left p r :: c) false = (false, r) := rfl
  rw [hexit]
  unfold after
  dsimp only
  rw [Bool.false_or]

/-- At the right end of the tree the walk stops before the chain of the last leaf if this leaf is a
    root node. -/
theorem walkLoop_spine (calls : List ℕ) {p : ℕ} {l r : RnTree}
    (h : plug c (.node p l r) = .node top tl tr)
    (hlast : isRoot m r.last = true)
    (hroots : ∀ a ∈ (RnTree.node p l r).heads, isRoot m a = true → a = l.first ∨ a = r.last)
    (hbits : ∀ q ∈ (RnTree.node p l r).inner, lastb ≤ (m q).rnBit) :
    ∃ init, (RnTree.node p l r).leaves = init ++ r.lastChain ∧
      walkLoop m f lastb n (rounds + (RnTree.node p l r).heads.length) l.first calls =
        some (calls ++ nonRoot m init, 0) := by
  induction r generalizing c p l calls with
  | leaf a dup =>
    have hnodup := hw.nodup
    rw [← h] at hnodup
    have hnd := nodup_node (hnodup.sublist (nodes_sublist_plug c (.node p l (.leaf a dup))))
    refine ⟨l.leaves, rfl, ?_⟩
    rw [walkLoop_left hw hf hn h (fun x hx hra => ?_)
      fun q hq => hbits q (mem_cons_of_mem p (mem_append_left _ hq))]
    · exact if_pos hlast
    · refine (hroots x (mem_append_left _ hx) hra).resolve_right fun heq => ?_
      exact hnd.2.2.2.2 _ (mem_nodes_of_head hx) (heq ▸ mem_cons_self)
  | node q l' r' _ ihr =>
    have hnodup := hw.nodup
    rw [← h] at hnodup
    have hnd := nodup_node (hnodup.sublist (nodes_sublist_plug c (.node p l (.node q l' r'))))
    -- the root leaves of the right subtree are at its end
    have hright : ∀ x ∈ (RnTree.node q l' r').heads, isRoot m x = true → x = r'.last := by
      intro x hx hra
      refine (hroots x (mem_append_right _ hx) hra).resolve_left fun heq => ?_
      exact hnd.2.2.2.2 _ (mem_nodes_of_head (first_mem_heads l)) (heq ▸ mem_nodes_of_head hx)
    have hnd' := nodup_node hnd.2.2.2.1
    have hfirst : isRoot m l'.first = false := by
      rw [← Bool.not_eq_true]
      intro hra
      have heq := hright _ (mem_append_left _ (first_mem_heads l')) hra
      exact hnd'.2.2.2.2 _ (mem_nodes_of_head (first_mem_heads l'))
        (heq ▸ mem_nodes_of_head (last_mem_heads r'))
    obtain ⟨init, hinit, hwalk⟩ := ihr (c := .right p l :: c) (calls ++ nonRoot m l.leaves) h hlast
      (fun x hx hra => .inr (hright x hx hra))
      fun x hx => hbits x (mem_cons_of_mem p (mem_append_right _ hx))
    refine ⟨l.leaves ++ init, ?_, ?_⟩
    · show l.leaves ++ (RnTree.node q l' r').leaves = _
      rw [hinit, append_assoc]; rfl
    · rw [walkLoop_left hw hf hn h (fun x hx hra => ?_)
        fun x hx => hbits x (mem_cons_of_mem p (mem_append_left _ hx))]
      · change (if isRoot m l'.first = true then _ else _) = _
        rw [hfirst, if_neg (by decide)]
        change walkLoop m f lastb n _ l'.first _ = _
        rw [hwalk, nonRoot_append, append_assoc]
      · refine (hroots x (mem_append_left _ hx) hra).resolve_right fun heq => ?_
        refine hnd.2.2.2.2 _ (mem_nodes_of_head hx) (heq ▸ ?_)
        exact mem_cons_of_mem q (mem_append_right _
          (mem_nodes_of_head (last_mem_heads r')))

end Walk

end FreeBSD.Radix
