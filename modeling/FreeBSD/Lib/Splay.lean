import FreeBSD.Lib.BinTree

/-!
# The top-down splay

A search goes down from the root of a binary tree in a memory and moves the nodes on its way to a
left and a right tree, which grow at their inner ends; `dummy` holds the roots of the two. At the
end the node where the search stops becomes the root, between them.

Results:
* `splay_spec`: the tree keeps its nodes in their order, no other node is changed, and the root is
  the node that the search is for, or next to its place.
-/

namespace FreeBSD.Lib

open List

variable {α : Type*}

/-! ## The algorithm -/

section Algorithm

variable [DecidableEq α]

/-- Where the search is: the links, the inner ends of the left and the right tree, the root of
    what is left in the middle. -/
structure SplayState (α : Type*) where
  links : Links α
  lefttreemax : α
  righttreemin : α
  root : α

/-- The loop. `cmp a` tells on which side of the node `a` the search goes on. Every round takes a
    node or two out of the middle, and `fuel` bounds the number of rounds. -/
def splayLoop (cmp : α → Ordering) : ℕ → SplayState α → Option (SplayState α)
  | 0, _ => none
  | fuel + 1, ⟨k, lefttreemax, righttreemin, root⟩ =>
    match cmp root with
    | .lt =>
      match k.left root with
      | none => some ⟨k, lefttreemax, righttreemin, root⟩
      | some y =>
        if cmp y = .lt then
          -- Rotate right.
          let k := (k.setLeft root (k.right y)).setRight y (some root)
          match k.left y with
          | none => some ⟨k, lefttreemax, righttreemin, y⟩
          | some z => splayLoop cmp fuel ⟨k.setLeft righttreemin (some y), lefttreemax, y, z⟩
        else splayLoop cmp fuel ⟨k.setLeft righttreemin (some root), lefttreemax, root, y⟩
    | .gt =>
      match k.right root with
      | none => some ⟨k, lefttreemax, righttreemin, root⟩
      | some y =>
        if cmp y = .gt then
          -- Rotate left.
          let k := (k.setRight root (k.left y)).setLeft y (some root)
          match k.right y with
          | none => some ⟨k, lefttreemax, righttreemin, y⟩
          | some z => splayLoop cmp fuel ⟨k.setRight lefttreemax (some y), y, righttreemin, z⟩
        else splayLoop cmp fuel ⟨k.setRight lefttreemax (some root), root, righttreemin, y⟩
    | .eq => some ⟨k, lefttreemax, righttreemin, root⟩

/-- The new root takes the two trees. -/
def splayAssemble (dummy : α) (s : SplayState α) : Links α :=
  let k := s.links.setRight s.lefttreemax (s.links.left s.root)
  let k := k.setLeft s.righttreemin (k.right s.root)
  let k := k.setLeft s.root (k.right dummy)
  k.setRight s.root (k.left dummy)

/-- The splay of the tree with a given root, and the new root. -/
def splay (cmp : α → Ordering) (dummy : α) (fuel : ℕ) (k : Links α) (root : α) :
    Option (Links α × α) :=
  (splayLoop cmp fuel ⟨k, dummy, dummy, root⟩).map fun s => (splayAssemble dummy s, s.root)

end Algorithm

variable {cmp : α → Ordering} {dummy a b c : α} {k k' : Links α}

/-! ## The left and the right tree -/

section Side

/-- The right tree as it grows: from `dummy` (or another node `a`) on, the left links lead over the
    listed nodes, each with what is right of it, to the inner end `b`. The left tree is the same
    with left and right exchanged. -/
def Side (k : Links α) : α → List (α × BinaryTree α) → α → Prop
  | a, [], b => a = b
  | a, (c, s) :: fs, b => k.left a = some c ∧ IsTree k (k.right c) s ∧ Side k c fs b

/-- The nodes of a right tree from left to right. -/
def sideNodes : List (α × BinaryTree α) → List α
  | [] => []
  | (c, s) :: fs => sideNodes fs ++ c :: inorder s

/-- The right tree with the tree `s` at its inner end. -/
def close : List (α × BinaryTree α) → BinaryTree α → BinaryTree α
  | [], s => s
  | (c, r) :: fs, s => .node c (close fs s) r

variable {fs : List (α × BinaryTree α)} {s : BinaryTree α}

@[simp] theorem sideNodes_nil : sideNodes ([] : List (α × BinaryTree α)) = [] := rfl

@[simp] theorem sideNodes_cons :
    sideNodes ((c, s) :: fs) = sideNodes fs ++ c :: inorder s := rfl

theorem sideNodes_concat : sideNodes (fs ++ [(c, s)]) = c :: inorder s ++ sideNodes fs := by
  induction fs with
  | nil => simp
  | cons f fs ih => simp [sideNodes, ih]

theorem inorder_close : inorder (close fs s) = inorder s ++ sideNodes fs := by
  induction fs with
  | nil => simp [close]
  | cons f fs ih => simp [close, sideNodes, ih]

theorem Side.end_mem (h : Side k a fs b) : b ∈ a :: sideNodes fs := by
  induction fs generalizing a with
  | nil => simp [show a = b from h]
  | cons f fs ih =>
    obtain ⟨c, s⟩ := f
    have hmem := ih h.2.2
    simp only [mem_cons, sideNodes_cons, mem_append] at hmem ⊢; tauto

/-- A side depends on the left links from its start on and on the right links of its nodes. -/
theorem Side.congr (h : Side k a fs b) (hleft : ∀ c ∈ a :: sideNodes fs, k'.left c = k.left c)
    (hright : ∀ c ∈ sideNodes fs, k'.right c = k.right c) : Side k' a fs b := by
  induction fs generalizing a with
  | nil => exact h
  | cons f fs ih =>
    obtain ⟨c, s⟩ := f
    obtain ⟨hc, hs, hrest⟩ := h
    refine ⟨(hleft a (by simp)).trans hc, ?_, ?_⟩
    · rw [hright c (by simp)]
      exact hs.congr fun d hd => ⟨hleft d (by simp [hd]), hright d (by simp [hd])⟩
    · refine ih hrest (fun d hd => hleft d ?_) fun d hd => hright d (by simp [hd])
      simp only [mem_cons, sideNodes_cons, mem_append] at hd ⊢; tauto

/-- The link at the inner end is free. -/
theorem Side.setLeft [DecidableEq α] (h : Side k a fs b) (hnodup : (a :: sideNodes fs).Nodup)
    (p : Option α) :
    Side (k.setLeft b p) a fs b := by
  induction fs generalizing a with
  | nil => exact h
  | cons f fs ih =>
    obtain ⟨c, s⟩ := f
    obtain ⟨hc, hs, hrest⟩ := h
    have hmem := hrest.end_mem
    simp only [sideNodes_cons, nodup_cons, nodup_append, mem_append,
      mem_cons] at hnodup hmem
    have hab : a ≠ b := by rintro rfl; tauto
    have hbs : b ∉ inorder s := by
      intro hb
      rcases hmem with rfl | hmem
      · exact hnodup.2.2.1.1 hb
      · exact hnodup.2.2.2 b hmem b (Or.inr hb) rfl
    refine ⟨by rw [Links.setLeft_left_of_ne hab, hc], ?_, ih hrest ?_⟩
    · exact hs.congr (Links.sameAt_setLeft hbs)
    · simp only [nodup_cons]
      exact ⟨fun hmem => hnodup.2.2.2 c hmem c (Or.inl rfl) rfl, hnodup.2.1⟩

/-- The node `c` and what is right of it are linked at the inner end. -/
theorem Side.concat (h : Side k a fs b) (hc : k.left b = some c) (hs : IsTree k (k.right c) s) :
    Side k a (fs ++ [(c, s)]) c := by
  induction fs generalizing a with
  | nil =>
    obtain rfl : a = b := h
    exact ⟨hc, hs, rfl⟩
  | cons f fs ih => exact ⟨h.1, h.2.1, ih h.2.2⟩

theorem Side.close (h : Side k a fs b) (hs : IsTree k (k.left b) s) :
    IsTree k (k.left a) (close fs s) := by
  induction fs generalizing a with
  | nil =>
    obtain rfl : a = b := h
    exact hs
  | cons f fs ih =>
    obtain ⟨c, r⟩ := f
    obtain ⟨hc, hr, hrest⟩ := h
    exact ⟨hc, ih hrest, hr⟩

end Side

/-! ## The loop -/

/-- Nodes from left to right as a search meets them: first those that are left of its place, then
    those that are at it, then those that are right of it. -/
def Searchable (cmp : α → Ordering) (l : List α) : Prop :=
  l.Pairwise fun a b => (cmp b = .gt → cmp a = .gt) ∧ (cmp a = .lt → cmp b = .lt)

/-- The nodes of the left tree, the middle and the right tree. -/
def whole (ls : List (α × BinaryTree α)) (t : BinaryTree α) (rs : List (α × BinaryTree α)) :
    List α :=
  (sideNodes ls).reverse ++ (inorder t ++ sideNodes rs)

/-- What holds in every round: the sides `ls` and `rs` with the tree `t` between them. The left
    side is written with left and right exchanged. -/
structure Splaying (cmp : α → Ordering) (dummy : α) (s : SplayState α)
    (ls : List (α × BinaryTree α)) (t : BinaryTree α) (rs : List (α × BinaryTree α)) : Prop where
  left : Side s.links.swap dummy ls s.lefttreemax
  right : Side s.links dummy rs s.righttreemin
  tree : IsTree s.links (some s.root) t
  nodup : (dummy :: whole ls t rs).Nodup
  before : Searchable cmp (whole ls t rs) → ∀ a ∈ sideNodes ls, cmp a = .gt
  after : Searchable cmp (whole ls t rs) → ∀ a ∈ sideNodes rs, cmp a = .lt

/-- The state with left and right exchanged. -/
def SplayState.swap (s : SplayState α) : SplayState α :=
  ⟨s.links.swap, s.righttreemin, s.lefttreemax, s.root⟩

theorem whole_mirror (ls rs : List (α × BinaryTree α)) (t : BinaryTree α) :
    whole rs (mirror t) ls = (whole ls t rs).reverse := by
  simp [whole]

theorem whole_linkRight {ls rs : List (α × BinaryTree α)} {l r : BinaryTree α} :
    whole ls l (rs ++ [(a, r)]) = whole ls (.node a l r) rs := by
  simp [whole, sideNodes_concat]

theorem whole_linkLeft {ls rs : List (α × BinaryTree α)} {l r : BinaryTree α} :
    whole (ls ++ [(a, mirror l)]) r rs = whole ls (.node a l r) rs := by
  simp [whole, sideNodes_concat]

theorem Searchable.mirror {l : List α} (h : Searchable cmp l) :
    Searchable (fun a => (cmp a).swap) l.reverse := by
  refine pairwise_reverse.2 (h.imp fun {a b} hab => ?_)
  simp only [Ordering.swap_eq_gt, Ordering.swap_eq_lt]; exact ⟨hab.2, hab.1⟩

theorem searchable_mirror {l : List α} :
    Searchable (fun a => (cmp a).swap) l.reverse ↔ Searchable cmp l := by
  constructor
  · intro h; simpa using h.mirror
  · exact Searchable.mirror

variable {s : SplayState α} {ls rs : List (α × BinaryTree α)} {t l r : BinaryTree α}

theorem Splaying.mirrored (h : Splaying cmp dummy s ls t rs) :
    Splaying (fun a => (cmp a).swap) dummy s.swap rs (mirror t) ls where
  left := h.right
  right := h.left
  tree := h.tree.swap
  nodup := by
    rw [whole_mirror, nodup_cons, mem_reverse, nodup_reverse, ← nodup_cons]
    exact h.nodup
  before := fun hs a ha => by rw [whole_mirror, searchable_mirror] at hs; simp [h.after hs a ha]
  after := fun hs a ha => by rw [whole_mirror, searchable_mirror] at hs; simp [h.before hs a ha]

theorem Splaying.right_nodup (h : Splaying cmp dummy s ls t rs) :
    (dummy :: sideNodes rs).Nodup := by
  refine h.nodup.sublist (List.Sublist.cons_cons _ ?_)
  exact (sublist_append_right _ _).trans (sublist_append_right _ _)

theorem Splaying.tree_nodup (h : Splaying cmp dummy s ls t rs) : (inorder t).Nodup := by
  have hnodup := h.nodup
  simp only [whole, nodup_cons, nodup_append] at hnodup; exact hnodup.2.2.1.1

/-- The right tree and the middle have no common nodes. -/
theorem Splaying.notMem_tree (h : Splaying cmp dummy s ls t rs) {c : α}
    (hc : c ∈ dummy :: sideNodes rs) : c ∉ inorder t := by
  intro hmem
  have hnodup := h.nodup
  simp only [whole, nodup_cons, mem_append, nodup_append, not_or] at hnodup
  rcases mem_cons.1 hc with rfl | hc
  · exact hnodup.1.2.1 hmem
  · exact hnodup.2.2.1.2.2 _ hmem _ hc rfl

/-- The right tree and the left tree have no common nodes. -/
theorem Splaying.notMem_left (h : Splaying cmp dummy s ls t rs) {c : α}
    (hc : c ∈ dummy :: sideNodes rs) : c ∉ sideNodes ls := by
  intro hmem
  have hnodup := h.nodup
  simp only [whole, nodup_cons, mem_append, nodup_append, not_or,
    mem_reverse] at hnodup
  rcases mem_cons.1 hc with rfl | hc
  · exact hnodup.1.1 hmem
  · exact hnodup.2.2.2 _ hmem _ (Or.inr hc) rfl

/-- Another tree of the same nodes takes the place of the middle. -/
theorem Splaying.replace {t' : BinaryTree α} {k' : Links α} {root' : α}
    (h : Splaying cmp dummy s ls t rs) (ht' : IsTree k' (some root') t')
    (hnodes : inorder t' = inorder t) (hsame : ∀ c, c ∉ inorder t →
      k'.left c = s.links.left c ∧ k'.right c = s.links.right c) :
    Splaying cmp dummy ⟨k', s.lefttreemax, s.righttreemin, root'⟩ ls t' rs := by
  have hwhole : whole ls t' rs = whole ls t rs := by
    rw [whole, whole, hnodes]
  have hl : ∀ c ∈ dummy :: sideNodes ls, c ∉ inorder t := by
    intro c hc; simpa using h.mirrored.notMem_tree hc
  refine ⟨?_, ?_, ht', hwhole ▸ h.nodup, hwhole ▸ h.before, hwhole ▸ h.after⟩
  · refine h.left.congr (fun c hc => (hsame c (hl c hc)).2) fun c hc => ?_
    exact (hsame c (hl c (mem_cons_of_mem _ hc))).1
  · refine h.right.congr (fun c hc => (hsame c (h.notMem_tree hc)).1) fun c hc => ?_
    exact (hsame c (h.notMem_tree (mem_cons_of_mem _ hc))).2

variable [DecidableEq α] {lm rm y : α}

/-- An assignment at the inner end of the right tree leaves the left tree. -/
theorem Splaying.left_setLeft (h : Splaying cmp dummy s ls t rs) (p : Option α) :
    Side (s.links.setLeft s.righttreemin p).swap dummy ls s.lefttreemax := by
  refine h.left.congr (fun c _ => rfl) fun c hc => ?_
  refine Links.setLeft_left_of_ne ?_
  rintro rfl
  exact h.notMem_left h.right.end_mem hc

/-- "Link into the new root's right tree." -/
theorem Splaying.linkRight (h : Splaying cmp dummy ⟨k, lm, rm, a⟩ ls (.node a l r) rs)
    (ha : cmp a = .lt) (hy : k.left a = some y) :
    Splaying cmp dummy ⟨k.setLeft rm (some a), lm, a, y⟩ ls l (rs ++ [(a, r)]) := by
  have hwhole : whole ls l (rs ++ [(a, r)]) = whole ls (.node a l r) rs := whole_linkRight
  have hrm := h.notMem_tree h.right.end_mem
  simp only [inorder_node, mem_append, mem_cons, not_or] at hrm
  obtain ⟨hrl, hra, hrr⟩ := hrm
  obtain ⟨-, hl, hr⟩ := h.tree
  refine ⟨h.left_setLeft _, ?_, ?_, hwhole ▸ h.nodup, hwhole ▸ h.before, ?_⟩
  · refine (h.right.setLeft h.right_nodup _).concat Links.setLeft_left_self ?_
    exact hr.congr (Links.sameAt_setLeft hrr)
  · rw [hy] at hl; exact hl.congr (Links.sameAt_setLeft hrl)
  · rw [hwhole]
    intro hs b hb
    rw [sideNodes_concat, mem_append, mem_cons] at hb
    rcases hb with (rfl | hb) | hb
    · exact ha
    · simp only [Searchable, whole, inorder_node, pairwise_append, pairwise_cons] at hs
      exact (hs.2.1.1.2.1.1 b hb).2 ha
    · exact h.after hs b hb

/-- "Rotate right." -/
theorem Splaying.rotateRight (h : Splaying cmp dummy ⟨k, lm, rm, a⟩ ls (.node a l r) rs)
    (hy : k.left a = some y) : ∃ yl yr, l = .node y yl yr ∧
    Splaying cmp dummy ⟨(k.setLeft a (k.right y)).setRight y (some a), lm, rm, y⟩ ls
      (.node y yl (.node a yr r)) rs := by
  obtain ⟨yl, yr, rfl, htree⟩ := h.tree.rotateRight h.tree_nodup hy
  refine ⟨yl, yr, rfl, h.replace htree (by simp) fun c hc => ?_⟩
  simp only [inorder_node, mem_append, mem_cons, not_or] at hc; simp [hc.2.1, hc.1.2.1]

/-- "Link into the new root's left tree." -/
theorem Splaying.linkLeft (h : Splaying cmp dummy ⟨k, lm, rm, a⟩ ls (.node a l r) rs)
    (ha : cmp a = .gt) (hy : k.right a = some y) :
    Splaying cmp dummy ⟨k.setRight lm (some a), a, rm, y⟩ (ls ++ [(a, mirror l)]) r rs := by
  have hmirror := (h.mirrored.linkRight (by simp [ha]) hy).mirrored
  simpa [SplayState.swap, Links.setLeft_swap] using hmirror

/-- "Rotate left." -/
theorem Splaying.rotateLeft (h : Splaying cmp dummy ⟨k, lm, rm, a⟩ ls (.node a l r) rs)
    (hy : k.right a = some y) : ∃ yl yr, r = .node y yl yr ∧
    Splaying cmp dummy ⟨(k.setRight a (k.left y)).setLeft y (some a), lm, rm, y⟩ ls
      (.node y (.node a l yl) yr) rs := by
  obtain ⟨yr, yl, hr, hmirror⟩ := h.mirrored.rotateRight hy
  refine ⟨mirror yl, mirror yr, ?_, ?_⟩
  · simpa using congrArg mirror hr
  · simpa [SplayState.swap, Links.setLeft_swap, Links.setRight_swap] using hmirror.mirrored

/-! ## The end of the search -/

/-- The search is for the node, or the node is next to its place: nothing is left of it, or nothing
    is right of it, on the side where the search would go on. -/
def StopsAt (cmp : α → Ordering) (a : α) (l r : BinaryTree α) : Prop :=
  match cmp a with
  | .lt => l = .nil
  | .gt => r = .nil
  | .eq => True

/-- What the loop ends with: some node in the middle with the same nodes in the same order around
    it, and the other nodes as they were. -/
def Splayed (cmp : α → Ordering) (dummy : α) (k : Links α) (nodes : List α) (s' : SplayState α) :
    Prop :=
  ∃ ls l r rs, Splaying cmp dummy s' ls (.node s'.root l r) rs ∧
    whole ls (.node s'.root l r) rs = nodes ∧ StopsAt cmp s'.root l r ∧
    ∀ c, c ∉ dummy :: nodes → s'.links.left c = k.left c ∧ s'.links.right c = k.right c

omit [DecidableEq α] in
theorem Splaying.stop (h : Splaying cmp dummy s ls (.node s.root l r) rs)
    (hstop : StopsAt cmp s.root l r) :
    Splayed cmp dummy s.links (whole ls (.node s.root l r) rs) s :=
  ⟨ls, l, r, rs, h, rfl, hstop, fun _ _ => ⟨rfl, rfl⟩⟩

omit [DecidableEq α] in
theorem Splayed.of_same {nodes : List α} {s' : SplayState α} (h : Splayed cmp dummy k' nodes s')
    (hsame : ∀ c, c ∉ dummy :: nodes → k'.left c = k.left c ∧ k'.right c = k.right c) :
    Splayed cmp dummy k nodes s' := by
  obtain ⟨ls, l, r, rs, hs, hw, hstop, hframe⟩ := h
  refine ⟨ls, l, r, rs, hs, hw, hstop, fun c hc => ?_⟩
  rw [(hframe c hc).1, (hframe c hc).2]; exact hsame c hc

omit [DecidableEq α] in
theorem Splaying.righttreemin_mem (h : Splaying cmp dummy s ls t rs) :
    s.righttreemin ∈ dummy :: whole ls t rs := by
  have hmem := h.right.end_mem
  simp only [whole, mem_cons, mem_append] at hmem ⊢; tauto

omit [DecidableEq α] in
theorem Splaying.lefttreemax_mem (h : Splaying cmp dummy s ls t rs) :
    s.lefttreemax ∈ dummy :: whole ls t rs := by
  have hmem := h.mirrored.righttreemin_mem
  rwa [whole_mirror, mem_cons, mem_reverse, ← mem_cons] at hmem

omit [DecidableEq α] in
theorem mem_whole (hc : c ∈ inorder t) : c ∈ dummy :: whole ls t rs := by
  simp only [whole, mem_cons, mem_append]; tauto

/-- The loop ends. -/
theorem Splaying.splayLoop {fuel : ℕ} (h : Splaying cmp dummy s ls t rs)
    (hfuel : t.numNodes ≤ fuel) : ∃ s', splayLoop cmp fuel s = some s' ∧
    Splayed cmp dummy s.links (whole ls t rs) s' := by
  induction fuel generalizing s ls t rs with
  | zero =>
    obtain ⟨l, r, rfl, -⟩ := h.tree.of_some
    simp at hfuel
  | succ fuel ih =>
    obtain ⟨k, lm, rm, a⟩ := s
    obtain ⟨l, r, rfl, hl, hr⟩ := h.tree.of_some
    simp only [BinaryTree.numNodes] at hfuel
    cases ha : cmp a with
    | eq =>
      refine ⟨_, by rw [Lib.splayLoop, ha], h.stop ?_⟩
      simp [StopsAt, ha]
    | lt =>
      cases hy : k.left a with
      | none =>
        rw [hy, isTree_none] at hl
        refine ⟨⟨k, lm, rm, a⟩, by simp only [Lib.splayLoop, ha, hy], h.stop ?_⟩
        simp [StopsAt, ha, hl]
      | some y =>
        by_cases hcy : cmp y = .lt
        · obtain ⟨yl, yr, rfl, hrot⟩ := h.rotateRight hy
          have hwhole : whole ls (.node y yl (.node a yr r)) rs =
              whole ls (.node a (.node y yl yr) r) rs := by
            simp [whole]
          have hframe : ∀ c, c ∉ dummy :: whole ls (.node a (.node y yl yr) r) rs →
              ((k.setLeft a (k.right y)).setRight y (some a)).left c = k.left c ∧
              ((k.setLeft a (k.right y)).setRight y (some a)).right c = k.right c := by
            intro c hc
            have hca : c ≠ a := fun heq => hc (mem_whole (by simp [heq]))
            have hcy : c ≠ y := fun heq => hc (mem_whole (by simp [heq]))
            simp [hca, hcy]
          cases hz : ((k.setLeft a (k.right y)).setRight y (some a)).left y with
          | none =>
            have hyl := hrot.tree.2.1
            rw [show SplayState.links _ = _ from rfl, hz, isTree_none] at hyl
            refine ⟨⟨(k.setLeft a (k.right y)).setRight y (some a), lm, rm, y⟩,
              by simp only [Lib.splayLoop, ha, hy, hcy, if_true, hz], ?_⟩
            rw [← hwhole] at hframe ⊢
            refine (hrot.stop ?_).of_same hframe
            simp [StopsAt, hcy, hyl]
          | some z =>
            simp only [BinaryTree.numNodes] at hfuel
            obtain ⟨s', hs', hsp⟩ := ih (hrot.linkRight hcy hz) (by omega)
            refine ⟨s', by simp only [Lib.splayLoop, ha, hy, hcy, if_true, hz, hs'], ?_⟩
            rw [whole_linkRight, hwhole] at hsp
            refine hsp.of_same fun c hc => ?_
            have hne : c ≠ rm := fun heq => hc (heq ▸ h.righttreemin_mem)
            refine ⟨?_, (hframe c hc).2⟩
            rw [Links.setLeft_left_of_ne hne]; exact (hframe c hc).1
        · obtain ⟨s', hs', hsp⟩ := ih (h.linkRight ha hy) (by omega)
          refine ⟨s', by simp only [Lib.splayLoop, ha, hy, hcy, if_false, hs'], ?_⟩
          rw [whole_linkRight] at hsp
          refine hsp.of_same fun c hc => ?_
          have hne : c ≠ rm := fun heq => hc (heq ▸ h.righttreemin_mem)
          exact ⟨Links.setLeft_left_of_ne hne, rfl⟩
    | gt =>
      cases hy : k.right a with
      | none =>
        rw [hy, isTree_none] at hr
        refine ⟨⟨k, lm, rm, a⟩, by simp only [Lib.splayLoop, ha, hy], h.stop ?_⟩
        simp [StopsAt, ha, hr]
      | some y =>
        by_cases hcy : cmp y = .gt
        · obtain ⟨yl, yr, rfl, hrot⟩ := h.rotateLeft hy
          have hwhole : whole ls (.node y (.node a l yl) yr) rs =
              whole ls (.node a l (.node y yl yr)) rs := by
            simp [whole]
          have hframe : ∀ c, c ∉ dummy :: whole ls (.node a l (.node y yl yr)) rs →
              ((k.setRight a (k.left y)).setLeft y (some a)).left c = k.left c ∧
              ((k.setRight a (k.left y)).setLeft y (some a)).right c = k.right c := by
            intro c hc
            have hca : c ≠ a := fun heq => hc (mem_whole (by simp [heq]))
            have hcy : c ≠ y := fun heq => hc (mem_whole (by simp [heq]))
            simp [hca, hcy]
          cases hz : ((k.setRight a (k.left y)).setLeft y (some a)).right y with
          | none =>
            have hyr := hrot.tree.2.2
            rw [show SplayState.links _ = _ from rfl, hz, isTree_none] at hyr
            refine ⟨⟨(k.setRight a (k.left y)).setLeft y (some a), lm, rm, y⟩,
              by simp only [Lib.splayLoop, ha, hy, hcy, if_true, hz], ?_⟩
            rw [← hwhole] at hframe ⊢
            refine (hrot.stop ?_).of_same hframe
            simp [StopsAt, hcy, hyr]
          | some z =>
            simp only [BinaryTree.numNodes] at hfuel
            obtain ⟨s', hs', hsp⟩ := ih (hrot.linkLeft hcy hz) (by omega)
            refine ⟨s', by simp only [Lib.splayLoop, ha, hy, hcy, if_true, hz, hs'], ?_⟩
            rw [whole_linkLeft, hwhole] at hsp
            refine hsp.of_same fun c hc => ?_
            have hne : c ≠ lm := fun heq => hc (heq ▸ h.lefttreemax_mem)
            refine ⟨(hframe c hc).1, ?_⟩
            rw [Links.setRight_right_of_ne hne]; exact (hframe c hc).2
        · obtain ⟨s', hs', hsp⟩ := ih (h.linkLeft ha hy) (by omega)
          refine ⟨s', by simp only [Lib.splayLoop, ha, hy, hcy, if_false, hs'], ?_⟩
          rw [whole_linkLeft] at hsp
          refine hsp.of_same fun c hc => ?_
          have hne : c ≠ lm := fun heq => hc (heq ▸ h.lefttreemax_mem)
          exact ⟨rfl, Links.setRight_right_of_ne hne⟩

/-- The right tree is closed with what is right of the root. -/
theorem Splaying.closeRight (h : Splaying cmp dummy s ls (.node s.root l r) rs) :
    IsTree (s.links.setLeft s.righttreemin (s.links.right s.root))
      ((s.links.setLeft s.righttreemin (s.links.right s.root)).left dummy) (close rs r) := by
  refine (h.right.setLeft h.right_nodup _).close ?_
  rw [Links.setLeft_left_self]
  have hnot := h.notMem_tree h.right.end_mem
  refine h.tree.2.2.congr (Links.sameAt_setLeft fun hmem => hnot ?_)
  simp [hmem]

/-- The left tree is closed with what is left of the root. -/
theorem Splaying.closeLeft (h : Splaying cmp dummy s ls (.node s.root l r) rs) :
    IsTree (s.links.setRight s.lefttreemax (s.links.left s.root))
      ((s.links.setRight s.lefttreemax (s.links.left s.root)).right dummy)
      (mirror (close ls (mirror l))) := by
  have hclose := Splaying.closeRight (s := s.swap) h.mirrored
  exact hclose.swap

/-- The left and the right tree hang at the new root. -/
theorem Splaying.assemble (h : Splaying cmp dummy s ls (.node s.root l r) rs) :
    IsTree (splayAssemble dummy s) (some s.root)
      (.node s.root (mirror (close ls (mirror l))) (close rs r)) := by
  have hrm := h.notMem_tree h.right.end_mem
  have hlm := h.mirrored.notMem_tree h.left.end_mem
  have hdummy := h.notMem_tree mem_cons_self
  have hnodup := h.nodup
  simp only [mirror_node, inorder_node, inorder_mirror, mem_append, mem_cons,
    mem_reverse, not_or] at hrm hlm hdummy
  obtain ⟨hlmr, hlma, hlml⟩ := hlm
  have hleft := h.closeLeft
  have hright := h.closeRight
  have hlmroot : s.root ≠ s.lefttreemax := Ne.symm hlma
  have hrmroot : s.root ≠ s.righttreemin := Ne.symm hrm.2.1
  simp only [whole, inorder_node, nodup_cons, nodup_append, mem_append,
    mem_cons, mem_reverse] at hnodup
  obtain ⟨-, -, ⟨⟨-, ⟨hrr, -⟩, hlr⟩, -, hmid⟩, hls⟩ := hnodup
  refine ⟨rfl, ?_, ?_⟩
  · have heq : (splayAssemble dummy s).left s.root =
        (s.links.setRight s.lefttreemax (s.links.left s.root)).right dummy := by
      simp [splayAssemble]
    rw [heq]
    refine hleft.congr fun b hb => ?_
    simp only [inorder_mirror, inorder_close, mem_reverse, mem_append] at hb
    have hbroot : b ≠ s.root := by
      rintro rfl
      rcases hb with hb | hb
      · exact hlr _ hb _ (Or.inl rfl) rfl
      · exact hls _ hb _ (Or.inl (Or.inr (Or.inl rfl))) rfl
    have hbrm : b ≠ s.righttreemin := by
      rintro rfl
      rcases hb with hb | hb
      · exact hrm.1 hb
      · exact h.notMem_left h.right.end_mem hb
    simp [splayAssemble, hbroot, hbrm]
  · have heq : (splayAssemble dummy s).right s.root =
        (s.links.setLeft s.righttreemin (s.links.right s.root)).left dummy := by
      simp [splayAssemble, hdummy.2.1, Links.setRight, Links.setLeft, hlmroot]
    rw [heq]
    refine hright.congr fun b hb => ?_
    simp only [inorder_close, mem_append] at hb
    have hbroot : b ≠ s.root := by
      rintro rfl
      rcases hb with hb | hb
      · exact hrr hb
      · exact hmid _ (Or.inr (Or.inl rfl)) _ hb rfl
    have hblm : b ≠ s.lefttreemax := by
      rintro rfl
      rcases hb with hb | hb
      · exact hlmr hb
      · have := h.mirrored.notMem_left h.left.end_mem
        exact this hb
    simp [splayAssemble, hbroot, hblm, Links.setRight, Links.setLeft, hlmroot,
      Function.update_apply]

/-- The node is the one that the search is for, or the only node between those that are left of
    its place and those that are right of it. -/
def Adjacent (cmp : α → Ordering) (a : α) (l r : BinaryTree α) : Prop :=
  cmp a = .eq ∨ (∀ b ∈ inorder l, cmp b = .gt) ∧ ∀ b ∈ inorder r, cmp b = .lt

omit [DecidableEq α] in
theorem Splaying.adjacent (h : Splaying cmp dummy s ls (.node s.root l r) rs)
    (hstop : StopsAt cmp s.root l r)
    (hs : Searchable cmp (whole ls (.node s.root l r) rs)) :
    Adjacent cmp s.root (mirror (close ls (mirror l))) (close rs r) := by
  have hbefore := h.before hs
  have hafter := h.after hs
  simp only [Searchable, whole, inorder_node, pairwise_append, pairwise_cons] at hs
  obtain ⟨-, ⟨⟨-, ⟨hroot, -⟩, hl⟩, -⟩, -⟩ := hs
  simp only [Adjacent, inorder_mirror, inorder_close, mem_reverse, mem_append]
  cases hcmp : cmp s.root with
  | eq => exact Or.inl rfl
  | lt =>
    simp only [StopsAt, hcmp] at hstop
    subst hstop
    refine Or.inr ⟨fun b hb => ?_, fun b hb => ?_⟩
    · rcases hb with hb | hb
      · simp at hb
      · exact hbefore b hb
    · rcases hb with hb | hb
      · exact (hroot b hb).2 hcmp
      · exact hafter b hb
  | gt =>
    simp only [StopsAt, hcmp] at hstop
    subst hstop
    refine Or.inr ⟨fun b hb => ?_, fun b hb => ?_⟩
    · rcases hb with hb | hb
      · exact (hl b (by simpa using hb) s.root (by simp)).1 hcmp
      · exact hbefore b hb
    · rcases hb with hb | hb
      · simp at hb
      · exact hafter b hb

/-- The splay of a tree. -/
theorem splay_spec {root : α} {fuel : ℕ} (cmp : α → Ordering) (h : IsTree k (some root) t)
    (hnodup : (dummy :: inorder t).Nodup) (hfuel : t.numNodes ≤ fuel) :
    ∃ k' root' l r, splay cmp dummy fuel k root = some (k', root') ∧
      IsTree k' (some root') (.node root' l r) ∧ inorder (.node root' l r) = inorder t ∧
      (∀ c, c ∉ dummy :: inorder t → k'.left c = k.left c ∧ k'.right c = k.right c) ∧
      (Searchable cmp (inorder t) → Adjacent cmp root' l r) := by
  have hstart : Splaying cmp dummy ⟨k, dummy, dummy, root⟩ [] t [] :=
    ⟨rfl, rfl, h, by simpa [whole] using hnodup, by simp, by simp⟩
  obtain ⟨s', hs', ls, l, r, rs, hsp, hwhole, hstop, hframe⟩ := hstart.splayLoop hfuel
  have hnodes : whole [] t [] = inorder t := by simp [whole]
  rw [hnodes] at hwhole hframe
  refine ⟨splayAssemble dummy s', s'.root, _, _, by simp [splay, hs'], hsp.assemble, ?_, ?_, ?_⟩
  · rw [← hwhole]; simp [whole, inorder_close]
  · intro c hc
    rw [← hwhole] at hc
    have hlm : c ≠ s'.lefttreemax := fun heq => hc (heq ▸ hsp.lefttreemax_mem)
    have hrm : c ≠ s'.righttreemin := fun heq => hc (heq ▸ hsp.righttreemin_mem)
    have hroot : c ≠ s'.root := fun heq => hc (heq ▸ mem_whole (by simp))
    rw [hwhole] at hc
    rw [← (hframe c hc).1, ← (hframe c hc).2]; simp [splayAssemble, hlm, hrm, hroot]
  · intro hs
    rw [← hwhole] at hs; exact hsp.adjacent hstop hs

end FreeBSD.Lib
