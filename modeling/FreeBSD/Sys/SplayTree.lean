import FreeBSD.Lib.Splay
import FreeBSD.Lib.Ascending

/-!
# Splay trees, `sys/tree.h`

Models of the functions that `SPLAY_GENERATE` makes (lines 117–275). `cmp` is the comparison and
`node` the local variable `__node`, which is no element. A memory access through `NULL` and a loop
that runs out of `fuel` are `none`.

* `Holds` — the tree of a head has the elements of an ascending list.
* `splay_keeps`, `insert_keeps`, `remove_keeps`, `find_keeps`, `next_keeps`, `minMax_keeps` — what
  each function does to the list.
* `foreach_keeps` — `SPLAY_FOREACH` goes over the list.
* `splayTree_of_run` — any sequence of calls, and what can be said of the tree after it.
-/

namespace FreeBSD.SplayTree

open Lib List Option

/-- The head, with the links of all elements. -/
structure Head (α : Type*) where
  links : Links α
  /-- `sph_root`. -/
  root : Option α

variable {α : Type*} [DecidableEq α]

section Functions

variable (cmp : α → α → Ordering) (node : α)

/-- The local variable with `SPLAY_LEFT(&__node) = SPLAY_RIGHT(&__node) = NULL`. -/
def clearNode (k : Links α) : Links α := (k.setLeft node none).setRight node none

/-- `name##_SPLAY` (lines 199–235). -/
def splay (fuel : ℕ) (head : Head α) (elm : α) : Option (Head α) := do
  let root ← head.root
  let (k, root) ← Lib.splay (cmp elm) node fuel (clearNode node head.links) root
  pure ⟨k, some root⟩

/-- `SPLAY_NEGINF` and `SPLAY_INF`. -/
inductive Extreme
  | neginf
  | inf
  deriving DecidableEq

/-- The value that stands for the comparison in `name##_SPLAY_MINMAX`. -/
def Extreme.comp : Extreme → Ordering
  | neginf => .lt
  | inf => .gt

/-- `name##_SPLAY_MINMAX` (lines 240–275). -/
def splayMinmax (fuel : ℕ) (head : Head α) (val : Extreme) : Option (Head α) := do
  let root ← head.root
  let (k, root) ← Lib.splay (fun _ => val.comp) node fuel (clearNode node head.links) root
  pure ⟨k, some root⟩

/-- `name##_SPLAY_INSERT` (lines 155–178). -/
def splayInsert (fuel : ℕ) (head : Head α) (elm : α) : Option (Head α × Option α) :=
  if head.root = none then
    some (⟨(head.links.setLeft elm none).setRight elm none, some elm⟩, none)
  else do
    let head ← splay cmp node fuel head elm
    let root ← head.root
    match cmp elm root with
    | .lt =>
      let k := head.links.setLeft elm (head.links.left root)
      let k := k.setRight elm (some root)
      pure (⟨k.setLeft root none, some elm⟩, none)
    | .gt =>
      let k := head.links.setRight elm (head.links.right root)
      let k := k.setLeft elm (some root)
      pure (⟨k.setRight root none, some elm⟩, none)
    | .eq => pure (head, some root)

/-- `name##_SPLAY_REMOVE` (lines 180–197). -/
def splayRemove (fuel : ℕ) (head : Head α) (elm : α) : Option (Head α × Option α) :=
  if head.root = none then some (head, none)
  else do
    let head ← splay cmp node fuel head elm
    let root ← head.root
    if cmp elm root = .eq then
      match head.links.left root with
      | none => pure (⟨head.links, head.links.right root⟩, some elm)
      | some left =>
        let tmp := head.links.right root
        let head ← splay cmp node fuel ⟨head.links, some left⟩ elm
        let root ← head.root
        pure (⟨head.links.setRight root tmp, some root⟩, some elm)
    else pure (head, none)

/-- `name##_SPLAY_FIND` (lines 117–126). -/
def splayFind (fuel : ℕ) (head : Head α) (elm : α) : Option (Head α × Option α) :=
  if head.root = none then some (head, none)
  else do
    let head ← splay cmp node fuel head elm
    let root ← head.root
    pure (head, if cmp elm root = .eq then some root else none)

/-- `while (SPLAY_LEFT(elm, field) != NULL) elm = SPLAY_LEFT(elm, field)`. -/
def leftmost (k : Links α) : ℕ → α → Option α
  | 0, _ => none
  | fuel + 1, elm =>
    match k.left elm with
    | none => some elm
    | some left => leftmost k fuel left

/-- `name##_SPLAY_NEXT` (lines 128–140). -/
def splayNext (fuel : ℕ) (head : Head α) (elm : α) : Option (Head α × Option α) := do
  let head ← splay cmp node fuel head elm
  match head.links.right elm with
  | none => pure (head, none)
  | some right =>
    let elm ← leftmost head.links fuel right
    pure (head, some elm)

/-- `SPLAY_MIN` and `SPLAY_MAX`, with `name##_SPLAY_MIN_MAX` (lines 142–147). -/
def splayMinMax (fuel : ℕ) (head : Head α) (val : Extreme) : Option (Head α × Option α) :=
  if head.root = none then some (head, none)
  else do
    let head ← splayMinmax node fuel head val
    pure (head, head.root)

/-- `SPLAY_FOREACH`, from the element `x` on: the elements that the body sees. -/
def foreachFrom (fuel : ℕ) : ℕ → Head α → Option α → Option (Head α × List α)
  | _, head, none => some (head, [])
  | 0, _, some _ => none
  | turns + 1, head, some x => do
    let (head, y) ← splayNext cmp node fuel head x
    let (head, rest) ← foreachFrom fuel turns head y
    pure (head, x :: rest)

/-- `SPLAY_FOREACH`. -/
def splayForeach (fuel : ℕ) (head : Head α) : Option (Head α × List α) := do
  let (head, x) ← splayMinMax node fuel head .neginf
  foreachFrom cmp node fuel fuel head x

/-- The calls. -/
inductive Op (α : Type*)
  | insert (elm : α)
  | remove (elm : α)
  | find (elm : α)
  | next (elm : α)
  | minMax (val : Extreme)

def step (fuel : ℕ) (head : Head α) : Op α → Option (Head α × Option α)
  | .insert elm => splayInsert cmp node fuel head elm
  | .remove elm => splayRemove cmp node fuel head elm
  | .find elm => splayFind cmp node fuel head elm
  | .next elm => splayNext cmp node fuel head elm
  | .minMax val => splayMinMax node fuel head val

end Functions

/-! ## What the calls are for -/

section Purpose

variable (cmp : α → α → Ordering)

/-- The list after a call, and the answer. -/
def wants (l : List α) : Op α → List α × Option α
  | .insert elm =>
    match findBy cmp elm l with
    | some old => (l, some old)
    | none => (insertBy cmp elm l, none)
  | .remove elm =>
    match findBy cmp elm l with
    | some _ => (eraseBy cmp elm l, some elm)
    | none => (l, none)
  | .find elm => (l, findBy cmp elm l)
  | .next elm => (l, nextIn elm l)
  | .minMax .neginf => (l, l.head?)
  | .minMax .inf => (l, l.getLast?)

/-- A call that may be made: with an element, and `SPLAY_NEXT` with one of the tree. -/
def Legal (node : α) (l : List α) : Op α → Prop
  | .insert elm => elm ≠ node
  | .remove _ => True
  | .find _ => True
  | .next elm => elm ∈ l
  | .minMax _ => True

end Purpose

variable {cmp : α → α → Ordering} {node : α} {head head' : Head α} {l xs ys : List α} {elm : α}
  {fuel : ℕ}

/-- The tree of the head has the elements of the list, which ascends. -/
structure Holds (cmp : α → α → Ordering) (node : α) (head : Head α) (l : List α) : Prop where
  tree : ∃ t, IsTree head.links head.root t ∧ inorder t = l
  ascending : Ascending cmp l
  node : node ∉ l

omit [DecidableEq α] in
theorem Holds.root_eq_none (h : Holds cmp node head l) : head.root = none ↔ l = [] := by
  obtain ⟨t, ht, rfl⟩ := h.tree
  constructor
  · intro hroot
    rw [hroot, isTree_none] at ht
    rw [ht, inorder_nil]
  · intro hnil
    cases t with
    | nil => exact ht
    | node a l r => simp at hnil

omit [DecidableEq α] in
theorem ascending_searchable [Std.TransCmp cmp] (h : Ascending cmp l) :
    Searchable (cmp elm) l := by
  refine List.Pairwise.imp (fun {a b} hab => ⟨fun hb => ?_, fun ha => ?_⟩) h
  · rw [cmp_gt_iff] at hb ⊢; exact Std.TransCmp.lt_trans hab hb
  · exact Std.TransCmp.lt_trans ha hab

/-! ## Splaying -/

/-- A tree with `root` at the root and the elements `xs` and `ys` on its sides. -/
structure Rooted (k : Links α) (root : α) (xs ys : List α) : Prop where
  left : ∃ t, IsTree k (k.left root) t ∧ inorder t = xs
  right : ∃ t, IsTree k (k.right root) t ∧ inorder t = ys

omit [DecidableEq α] in
variable {k : Links α} {t : BinaryTree α}

theorem Rooted.holds {root : α} (h : Rooted k root xs ys)
    (hasc : Ascending cmp (xs ++ root :: ys)) (hnode : node ∉ xs ++ root :: ys) :
    Holds cmp node ⟨k, some root⟩ (xs ++ root :: ys) := by
  obtain ⟨lt, hl, rfl⟩ := h.left
  obtain ⟨rt, hr, rfl⟩ := h.right
  exact ⟨⟨.node root lt rt, ⟨rfl, hl, hr⟩, rfl⟩, hasc, hnode⟩

/-- Clearing the local variable leaves the trees. -/
theorem isTree_clearNode {p : Option α} (h : IsTree k p t) (hnode : node ∉ inorder t) :
    IsTree (clearNode node k) p t :=
  (h.congr (Links.sameAt_setLeft hnode)).congr (Links.sameAt_setRight hnode)

omit [DecidableEq α] in
theorem length_inorder_le (hfuel : (inorder t).length ≤ fuel) : t.numNodes ≤ fuel := by
  rwa [length_inorder] at hfuel

/-- A search by any comparison that goes with the list keeps the list. -/
theorem splay_rooted {c : α → Ordering} {root : α}
    (ht : IsTree k (some root) t) (hnode : node ∉ inorder t) (hnodup : (inorder t).Nodup)
    (hc : Searchable c (inorder t)) (hfuel : (inorder t).length ≤ fuel) :
    ∃ k' root' xs ys, Lib.splay c node fuel (clearNode node k) root = some (k', root') ∧
      Rooted k' root' xs ys ∧ inorder t = xs ++ root' :: ys ∧
      (c root' = .eq ∨ (∀ a ∈ xs, c a = .gt) ∧ ∀ a ∈ ys, c a = .lt) ∧
      ∀ b, b ≠ node → b ∉ inorder t → k'.left b = k.left b ∧ k'.right b = k.right b := by
  obtain ⟨k', root', lt, rt, hs, htree, hin, hframe, hadj⟩ := splay_spec c
    (isTree_clearNode ht hnode) (nodup_cons.2 ⟨hnode, hnodup⟩) (length_inorder_le hfuel)
  obtain ⟨-, hl, hr⟩ := htree
  refine ⟨k', root', inorder lt, inorder rt, hs, ⟨⟨lt, hl, rfl⟩, ⟨rt, hr, rfl⟩⟩, ?_, hadj hc,
    fun b hb hbt => ?_⟩
  · rw [← hin, inorder_node]
  · have hsame := hframe b (by simp [hb, hbt])
    simpa [clearNode, hb] using hsame

/-- `SPLAY` keeps the list and brings the element that is sought to the root, or one next to its
place. -/
theorem splay_keeps [Std.TransCmp cmp] (elm : α) (h : Holds cmp node head l) (hne : l ≠ [])
    (hfuel : l.length ≤ fuel) :
    ∃ k root xs ys, splay cmp node fuel head elm = some ⟨k, some root⟩ ∧
      Rooted k root xs ys ∧ l = xs ++ root :: ys ∧
      (cmp elm root = .eq ∨ (∀ a ∈ xs, cmp elm a = .gt) ∧ ∀ a ∈ ys, cmp elm a = .lt) ∧
      ∀ b, b ≠ node → b ∉ l → k.left b = head.links.left b ∧ k.right b = head.links.right b := by
  have hroot : head.root ≠ none := fun hroot => hne (h.root_eq_none.1 hroot)
  obtain ⟨root, hr⟩ := ne_none_iff_exists'.1 hroot
  obtain ⟨t, ht, rfl⟩ := h.tree
  rw [hr] at ht
  obtain ⟨k, root', xs, ys, hs, hrooted, hl, hadj, hframe⟩ := splay_rooted (c := cmp elm) ht h.node
    h.ascending.nodup (ascending_searchable h.ascending) hfuel
  refine ⟨k, root', xs, ys, ?_, hrooted, hl, hadj, hframe⟩
  simp [splay, hr, hs]

omit [DecidableEq α] in
/-- An element that does not compare as equal to the root has its place next to it. -/
theorem place_of_adjacent [Std.TransCmp cmp] {root : α} (hasc : Ascending cmp (xs ++ root :: ys))
    (hadj : cmp elm root = .eq ∨ (∀ a ∈ xs, cmp elm a = .gt) ∧ ∀ a ∈ ys, cmp elm a = .lt) :
    (∀ a ∈ xs, cmp elm a = .gt) ∧ ∀ a ∈ ys, cmp elm a = .lt := by
  obtain heq | hadj := hadj
  · exact hasc.split heq
  · exact hadj

/-! ## Insertion -/

omit [DecidableEq α] in
/-- Links that change at two elements only leave the trees without them. -/
theorem isTree_of_frame {k k' : Links α} {p : Option α} {a b : α} (h : IsTree k p t)
    (hsame : ∀ c, c ≠ a → c ≠ b → k'.left c = k.left c ∧ k'.right c = k.right c)
    (ha : a ∉ inorder t) (hb : b ∉ inorder t) : IsTree k' p t := by
  refine h.congr fun c hc => hsame c ?_ ?_
  · rintro rfl; exact ha hc
  · rintro rfl; exact hb hc

/-- The new element takes the place of the root, which goes to its right. -/
theorem Rooted.insertLeft {root : α} (h : Rooted k root xs ys) (helm : elm ∉ xs ++ root :: ys)
    (hroot : root ∉ xs ++ ys) :
    Rooted (((k.setLeft elm (k.left root)).setRight elm (some root)).setLeft root none) elm
      xs (root :: ys) := by
  obtain ⟨lt, hl, rfl⟩ := h.left
  obtain ⟨rt, hr, rfl⟩ := h.right
  simp only [mem_append, mem_cons, not_or] at helm hroot
  obtain ⟨hexs, hne, heys⟩ := helm
  have hsame : ∀ c, c ≠ elm → c ≠ root →
      (((k.setLeft elm (k.left root)).setRight elm (some root)).setLeft root none).left c =
        k.left c ∧
      (((k.setLeft elm (k.left root)).setRight elm (some root)).setLeft root none).right c =
        k.right c := by
    intro c hce hcr; simp [hce, hcr]
  refine ⟨⟨lt, ?_, rfl⟩, ⟨.node root .nil rt, ⟨?_, ?_, ?_⟩, by simp⟩⟩
  · have hleft : (((k.setLeft elm (k.left root)).setRight elm (some root)).setLeft root none).left
        elm = k.left root := by simp [hne]
    rw [hleft]; exact isTree_of_frame hl hsame hexs hroot.1
  · simp
  · simp
  · have hright : (((k.setLeft elm (k.left root)).setRight elm (some root)).setLeft root
        none).right root = k.right root := by simp [Ne.symm hne]
    rw [hright]; exact isTree_of_frame hr hsame heys hroot.2

/-- The new element takes the place of the root, which goes to its left. -/
theorem Rooted.insertRight {root : α} (h : Rooted k root xs ys) (helm : elm ∉ xs ++ root :: ys)
    (hroot : root ∉ xs ++ ys) :
    Rooted (((k.setRight elm (k.right root)).setLeft elm (some root)).setRight root none) elm
      (xs ++ [root]) ys := by
  obtain ⟨lt, hl, rfl⟩ := h.left
  obtain ⟨rt, hr, rfl⟩ := h.right
  simp only [mem_append, mem_cons, not_or] at helm hroot
  obtain ⟨hexs, hne, heys⟩ := helm
  have hsame : ∀ c, c ≠ elm → c ≠ root →
      (((k.setRight elm (k.right root)).setLeft elm (some root)).setRight root none).left c =
        k.left c ∧
      (((k.setRight elm (k.right root)).setLeft elm (some root)).setRight root none).right c =
        k.right c := by
    intro c hce hcr; simp [hce, hcr]
  refine ⟨⟨.node root lt .nil, ⟨?_, ?_, ?_⟩, by simp⟩, ⟨rt, ?_, rfl⟩⟩
  · simp
  · have hleft : (((k.setRight elm (k.right root)).setLeft elm (some root)).setRight root
        none).left root = k.left root := by simp [Ne.symm hne]
    rw [hleft]; exact isTree_of_frame hl hsame hexs hroot.1
  · simp
  · have hright : (((k.setRight elm (k.right root)).setLeft elm (some root)).setRight root
        none).right elm = k.right root := by simp [hne]
    rw [hright]; exact isTree_of_frame hr hsame heys hroot.2

/-- `SPLAY_INSERT` puts the element in its place, or returns the one that compares as equal. -/
theorem insert_keeps [Std.TransCmp cmp] (h : Holds cmp node head l) (helm : elm ≠ node)
    (hfuel : l.length ≤ fuel) :
    ∃ head', splayInsert cmp node fuel head elm = some (head', (wants cmp l (.insert elm)).2) ∧
      Holds cmp node head' (wants cmp l (.insert elm)).1 := by
  unfold splayInsert
  by_cases hnil : l = []
  · subst hnil
    rw [if_pos (h.root_eq_none.2 rfl)]
    refine ⟨_, rfl, ⟨.node elm .nil .nil, ⟨rfl, ?_, ?_⟩, rfl⟩, ?_, ?_⟩
    · simp
    · simp
    · simp [wants, findBy, insertBy, Ascending]
    · simpa [wants, findBy, insertBy] using helm.symm
  rw [if_neg (mt h.root_eq_none.1 hnil)]
  obtain ⟨k, root, xs, ys, hs, hrooted, rfl, hadj, -⟩ := splay_keeps elm h hnil hfuel
  have hasc := h.ascending
  obtain ⟨hxs, hys⟩ := place_of_adjacent hasc hadj
  have hroot : root ∉ xs ++ ys := fun hmem => hasc.ne root hmem rfl
  rw [hs]
  simp only [bind_eq_bind, bind_some]
  cases hc : cmp elm root with
  | eq =>
    have hfind := findBy_split hasc hc
    simp only [wants, hfind]; exact ⟨_, rfl, hrooted.holds hasc h.node⟩
  | lt =>
    have hys' : ∀ a ∈ root :: ys, cmp elm a = .lt := fun a ha => by
      rcases mem_cons.1 ha with rfl | ha
      · exact hc
      · exact hys a ha
    have hne : ∀ a ∈ xs ++ root :: ys, cmp elm a ≠ .eq := fun a ha => by
      rcases mem_append.1 ha with ha | ha
      · simp [hxs a ha]
      · simp [hys' a ha]
    have hmem : elm ∉ xs ++ root :: ys := fun hmem => hne elm hmem Std.ReflCmp.compare_self
    have hnode : node ∉ xs ++ elm :: root :: ys := by
      have := h.node
      simp only [mem_append, mem_cons, not_or] at this ⊢
      exact ⟨this.1, helm.symm, this.2⟩
    simp only [wants, findBy_of_ne hne, insertBy_of_place hxs hys']
    exact ⟨_, rfl, (hrooted.insertLeft hmem hroot).holds (ascending_of_place hasc hxs hys') hnode⟩
  | gt =>
    have hxs' : ∀ a ∈ xs ++ [root], cmp elm a = .gt := fun a ha => by
      rcases mem_append.1 ha with ha | ha
      · exact hxs a ha
      · rw [mem_singleton.1 ha]; exact hc
    have hsplit : xs ++ root :: ys = (xs ++ [root]) ++ ys := by simp
    have hne : ∀ a ∈ xs ++ root :: ys, cmp elm a ≠ .eq := fun a ha => by
      rw [hsplit] at ha
      rcases mem_append.1 ha with ha | ha
      · simp [hxs' a ha]
      · simp [hys a ha]
    have hmem : elm ∉ xs ++ root :: ys := fun hmem => hne elm hmem Std.ReflCmp.compare_self
    have hnode : node ∉ (xs ++ [root]) ++ elm :: ys := by
      have := h.node
      simp only [mem_append, mem_cons, not_mem_nil, or_false, not_or] at this ⊢
      exact ⟨⟨this.1, this.2.1⟩, helm.symm, this.2.2⟩
    simp only [wants, findBy_of_ne hne]
    rw [hsplit, insertBy_of_place hxs' hys]
    rw [hsplit] at hasc
    exact ⟨_, rfl, (hrooted.insertRight hmem hroot).holds (ascending_of_place hasc hxs' hys) hnode⟩

/-! ## Removal and search -/

omit [DecidableEq α] in
/-- An element of the list is itself at the root when it is sought. -/
theorem root_eq_of_mem [Std.TransCmp cmp] {root : α} (hasc : Ascending cmp (xs ++ root :: ys))
    (hadj : cmp elm root = .eq ∨ (∀ a ∈ xs, cmp elm a = .gt) ∧ ∀ a ∈ ys, cmp elm a = .lt)
    (helm : elm ∈ xs ++ root :: ys) : elm = root := by
  have hself : cmp elm elm = .eq := Std.ReflCmp.compare_self
  obtain ⟨hxs, hys⟩ := place_of_adjacent hasc hadj
  rcases mem_append.1 helm with hmem | hmem
  · rw [hxs elm hmem] at hself
    cases hself
  rcases mem_cons.1 hmem with heq | hmem
  · exact heq
  · rw [hys elm hmem] at hself
    cases hself

omit [DecidableEq α] in
/-- Nothing compares as equal to an element whose place is next to a root that does not. -/
theorem ne_of_adjacent [Std.TransCmp cmp] {root : α} (hroot : cmp elm root ≠ .eq)
    (hadj : cmp elm root = .eq ∨ (∀ a ∈ xs, cmp elm a = .gt) ∧ ∀ a ∈ ys, cmp elm a = .lt) :
    ∀ a ∈ xs ++ root :: ys, cmp elm a ≠ .eq := by
  obtain heq | ⟨hxs, hys⟩ := hadj
  · exact absurd heq hroot
  intro a ha
  rcases mem_append.1 ha with ha | ha
  · simp [hxs a ha]
  rcases mem_cons.1 ha with rfl | ha
  · exact hroot
  · simp [hys a ha]

/-- `SPLAY_REMOVE` takes out what compares as equal to the element. -/
theorem remove_keeps [Std.TransCmp cmp] (h : Holds cmp node head l) (hfuel : l.length ≤ fuel) :
    ∃ head', splayRemove cmp node fuel head elm = some (head', (wants cmp l (.remove elm)).2) ∧
      Holds cmp node head' (wants cmp l (.remove elm)).1 := by
  unfold splayRemove
  by_cases hnil : l = []
  · subst hnil
    rw [if_pos (h.root_eq_none.2 rfl)]; exact ⟨head, rfl, h⟩
  rw [if_neg (mt h.root_eq_none.1 hnil)]
  obtain ⟨k, root, xs, ys, hs, hrooted, rfl, hadj, -⟩ := splay_keeps elm h hnil hfuel
  have hasc := h.ascending
  have hnode := h.node
  rw [hs]
  simp only [bind_eq_bind, bind_some]
  by_cases hc : cmp elm root = .eq
  swap
  · have hfind := findBy_of_ne (ne_of_adjacent hc hadj)
    rw [if_neg hc]
    simp only [wants, hfind]; exact ⟨_, rfl, hrooted.holds hasc hnode⟩
  have hrest : Ascending cmp (xs ++ ys) :=
    hasc.sublist (List.Sublist.append_left (sublist_cons_self root ys) xs)
  simp only [mem_append, mem_cons, not_or] at hnode
  obtain ⟨hnxs, hnroot, hnys⟩ := hnode
  rw [if_pos hc]
  simp only [wants, findBy_split hasc hc, eraseBy_split hasc hc]
  obtain ⟨lt, hl, hlt⟩ := hrooted.left
  obtain ⟨rt, hr, hrt⟩ := hrooted.right
  cases hleft : k.left root with
  | none =>
    rw [hleft, isTree_none] at hl
    rw [hl, inorder_nil] at hlt
    subst hlt; exact ⟨_, rfl, ⟨rt, hr, hrt⟩, hrest, hnys⟩
  | some left =>
    -- the left tree is splayed for the same element: its greatest element comes to the root
    have hxs : Holds cmp node ⟨k, some left⟩ xs := by
      refine ⟨⟨lt, ?_, hlt⟩, hasc.sublist (sublist_append_left xs _), hnxs⟩
      rwa [hleft] at hl
    have hxsfuel : xs.length ≤ fuel := by rw [length_append] at hfuel; omega
    have hxsne : xs ≠ [] := fun hx => absurd (hxs.root_eq_none.2 hx) (by simp)
    obtain ⟨k', root', xs', ys', hs', hrooted', rfl, hadj', hframe⟩ :=
      splay_keeps elm hxs hxsne hxsfuel
    obtain ⟨hbefore, -⟩ := hasc.split hc
    have hys' : ys' = [] := by
      obtain heq | ⟨-, hlt'⟩ := hadj'
      · rw [hbefore root' (by simp)] at heq
        cases heq
      · apply eq_nil_iff_forall_not_mem.2
        intro a ha
        have hgt := hbefore a (by simp [ha])
        rw [hlt' a ha] at hgt
        cases hgt
    subst hys'
    have hdisj : ∀ b ∈ ys, b ≠ node ∧ b ∉ xs' ++ [root'] := by
      intro b hb
      refine ⟨fun heq => hnys (heq ▸ hb), fun hmem => ?_⟩
      have hnodup := hrest.nodup
      rw [nodup_append] at hnodup; exact hnodup.2.2 b hmem b hb rfl
    have hr' : IsTree k' (k.right root) rt :=
      hr.congr fun b hb => hframe b (hdisj b (hrt ▸ hb)).1 (hdisj b (hrt ▸ hb)).2
    have hrootys : root' ∉ inorder rt := fun hmem => (hdisj root' (hrt ▸ hmem)).2 (by simp)
    obtain ⟨lt', hl', hlt'⟩ := hrooted'.left
    have hrootxs : root' ∉ inorder lt' := by
      rw [hlt']
      intro hmem
      exact hrest.sublist (sublist_append_left _ _) |>.ne root' (by simpa using hmem) rfl
    have hfinal : Rooted (k'.setRight root' (k.right root)) root' xs' ys := by
      refine ⟨⟨lt', ?_, hlt'⟩, ⟨rt, ?_, hrt⟩⟩
      · rw [Links.setRight_left]; exact hl'.congr (Links.sameAt_setRight hrootxs)
      · rw [Links.setRight_right_self]; exact hr'.congr (Links.sameAt_setRight hrootys)
    simp only [hs', bind_some]
    refine ⟨_, rfl, ?_⟩
    have hlist : xs' ++ [root'] ++ ys = xs' ++ root' :: ys := by simp
    rw [hlist] at hrest ⊢
    refine hfinal.holds hrest ?_
    simp only [mem_append, mem_cons, not_mem_nil, or_false, not_or] at hnxs ⊢
    exact ⟨hnxs.1, hnxs.2, hnys⟩

/-- `SPLAY_FIND` finds what compares as equal to the element. -/
theorem find_keeps [Std.TransCmp cmp] (elm : α) (h : Holds cmp node head l)
    (hfuel : l.length ≤ fuel) :
    ∃ head', splayFind cmp node fuel head elm = some (head', findBy cmp elm l) ∧
      Holds cmp node head' l := by
  unfold splayFind
  by_cases hnil : l = []
  · subst hnil
    rw [if_pos (h.root_eq_none.2 rfl)]; exact ⟨head, rfl, h⟩
  rw [if_neg (mt h.root_eq_none.1 hnil)]
  obtain ⟨k, root, xs, ys, hs, hrooted, rfl, hadj, -⟩ := splay_keeps elm h hnil hfuel
  rw [hs]
  simp only [bind_eq_bind, bind_some]
  by_cases hc : cmp elm root = .eq
  · rw [if_pos hc, findBy_split h.ascending hc]; exact ⟨_, rfl, hrooted.holds h.ascending h.node⟩
  · rw [if_neg hc, findBy_of_ne (ne_of_adjacent hc hadj)]
    exact ⟨_, rfl, hrooted.holds h.ascending h.node⟩

/-! ## Walking through the tree -/

omit [DecidableEq α] in
theorem leftmost_eq {a : α} (ht : IsTree k (some a) t) (hfuel : t.numNodes ≤ fuel) :
    leftmost k fuel a = (inorder t).head? := by
  induction fuel generalizing a t with
  | zero =>
    obtain ⟨l, r, rfl, -⟩ := ht.of_some
    simp at hfuel
  | succ fuel ih =>
    obtain ⟨l, r, rfl, hl, hr⟩ := ht.of_some
    simp only [BinaryTree.numNodes] at hfuel
    unfold leftmost
    cases hleft : k.left a with
    | none =>
      rw [hleft, isTree_none] at hl; simp [hl]
    | some b =>
      rw [hleft] at hl
      simp only [ih hl (by omega), inorder_node]
      obtain ⟨l', r', rfl, -⟩ := hl.of_some
      simp [List.head?_append]

/-- `SPLAY_NEXT` answers with the element after a given one. -/
theorem next_keeps [Std.TransCmp cmp] (elm : α) (h : Holds cmp node head l) (helm : elm ∈ l)
    (hfuel : l.length ≤ fuel) :
    ∃ head', splayNext cmp node fuel head elm = some (head', nextIn elm l) ∧
      Holds cmp node head' l := by
  obtain ⟨k, root, xs, ys, hs, hrooted, rfl, hadj, -⟩ :=
    splay_keeps elm h (ne_nil_of_mem helm) hfuel
  obtain rfl := root_eq_of_mem h.ascending hadj helm
  obtain ⟨rt, hr, rfl⟩ := hrooted.right
  unfold splayNext
  rw [hs, nextIn_split h.ascending]
  simp only [bind_eq_bind, bind_some]
  have hholds := hrooted.holds h.ascending h.node
  cases hright : k.right elm with
  | none =>
    rw [hright, isTree_none] at hr
    subst hr; exact ⟨_, rfl, hholds⟩
  | some right =>
    rw [hright] at hr
    have hsize : rt.numNodes ≤ fuel := by simp at hfuel; omega
    simp only [leftmost_eq hr hsize]
    obtain ⟨l', r', rfl, -⟩ := hr.of_some
    obtain ⟨b, hb⟩ : ∃ b, (inorder (.node right l' r')).head? = some b := by
      cases hx : (inorder (.node right l' r')).head? with
      | none => simp at hx
      | some b => exact ⟨b, rfl⟩
    rw [hb]; exact ⟨_, rfl, hholds⟩

/-- `SPLAY_MIN` and `SPLAY_MAX` answer with the ends of the list. -/
theorem minMax_keeps (h : Holds cmp node head l) [Std.TransCmp cmp] (hfuel : l.length ≤ fuel)
    (val : Extreme) :
    ∃ head', splayMinMax node fuel head val = some (head', (wants cmp l (.minMax val)).2) ∧
      Holds cmp node head' l := by
  unfold splayMinMax
  by_cases hnil : l = []
  · subst hnil
    rw [if_pos (h.root_eq_none.2 rfl)]
    cases val <;> exact ⟨head, rfl, h⟩
  rw [if_neg (mt h.root_eq_none.1 hnil)]
  obtain ⟨root, hroot⟩ := ne_none_iff_exists'.1 (mt h.root_eq_none.1 hnil)
  obtain ⟨t, ht, rfl⟩ := h.tree
  rw [hroot] at ht
  have hc : Searchable (fun _ => val.comp) (inorder t) := by
    refine List.Pairwise.imp (fun {a b} _ => ⟨fun hb => hb, fun ha => ha⟩) h.ascending
  obtain ⟨k, root', xs, ys, hs, hrooted, hl, hadj, -⟩ :=
    splay_rooted ht h.node h.ascending.nodup hc hfuel
  have hholds := hrooted.holds (hl ▸ h.ascending) (hl ▸ h.node)
  have hanswer : (wants cmp (inorder t) (.minMax val)).2 = some root' := by
    cases val with
    | neginf =>
      have hxs : xs = [] := by
        apply eq_nil_iff_forall_not_mem.2
        intro a ha
        obtain heq | ⟨hgt, -⟩ := hadj
        · cases heq
        · exact absurd (hgt a ha) (by decide)
      rw [hl, hxs]; rfl
    | inf =>
      have hys : ys = [] := by
        apply eq_nil_iff_forall_not_mem.2
        intro a ha
        obtain heq | ⟨-, hlt⟩ := hadj
        · cases heq
        · exact absurd (hlt a ha) (by decide)
      rw [hl, hys]; simp [wants]
  rw [hanswer, hl]
  simp only [splayMinmax, hroot, hs, bind_eq_bind, bind_some, pure]
  exact ⟨_, rfl, hholds⟩

/-- From an element on, the loop goes over it and those after it. -/
theorem foreachFrom_keeps [Std.TransCmp cmp] (hfuel : l.length ≤ fuel) (turns : ℕ) (ys : List α)
    (xs : List α) (head : Head α) (h : Holds cmp node head l) (hl : l = xs ++ ys)
    (hturns : ys.length ≤ turns) :
    ∃ head', foreachFrom cmp node fuel turns head ys.head? = some (head', ys) ∧
      Holds cmp node head' l := by
  induction ys generalizing turns xs head with
  | nil =>
    cases turns <;> exact ⟨head, rfl, h⟩
  | cons y ys ih =>
    obtain ⟨turns, rfl⟩ : ∃ n, turns = n + 1 := ⟨turns - 1, by simp at hturns; omega⟩
    obtain ⟨head₁, hnext, hholds₁⟩ := next_keeps y h (by simp [hl]) hfuel
    have hasc := h.ascending
    rw [hl] at hasc
    rw [hl, nextIn_split hasc] at hnext
    obtain ⟨head₂, hrest, hholds₂⟩ := ih turns (xs ++ [y]) head₁ hholds₁ (by simp [hl])
      (by simp at hturns; omega)
    refine ⟨head₂, ?_, hholds₂⟩
    simp [foreachFrom, hnext, hrest]

/-- `SPLAY_FOREACH` goes over all elements once, in order. -/
theorem foreach_keeps [Std.TransCmp cmp] (h : Holds cmp node head l) (hfuel : l.length ≤ fuel) :
    ∃ head', splayForeach cmp node fuel head = some (head', l) ∧ Holds cmp node head' l := by
  obtain ⟨head₁, hmin, hholds⟩ := minMax_keeps h hfuel .neginf
  obtain ⟨head₂, hloop, hholds₂⟩ := foreachFrom_keeps hfuel fuel l [] head₁ hholds rfl hfuel
  refine ⟨head₂, ?_, hholds₂⟩
  unfold splayForeach
  rw [hmin]; simpa [wants] using hloop

/-! ## Sequences of calls -/

/-- The calls one after the other, with their answers. -/
def calls (cmp : α → α → Ordering) (node : α) (fuel : ℕ) :
    Head α → List (Op α) → Option (Head α × List (Option α))
  | head, [] => some (head, [])
  | head, op :: ops => do
    let (head, answer) ← step cmp node fuel head op
    let (head, answers) ← calls cmp node fuel head ops
    pure (head, answer :: answers)

/-- What the calls are for, one after the other. -/
def wanted (cmp : α → α → Ordering) : List α → List (Op α) → List α × List (Option α)
  | l, [] => (l, [])
  | l, op :: ops =>
    let (l, answer) := wants cmp l op
    let (l, answers) := wanted cmp l ops
    (l, answer :: answers)

/-- The calls may be made one after the other. -/
def AllLegal (cmp : α → α → Ordering) (node : α) : List α → List (Op α) → Prop
  | _, [] => True
  | l, op :: ops => Legal node l op ∧ AllLegal cmp node (wants cmp l op).1 ops

theorem length_wants_le (cmp : α → α → Ordering) (l : List α) (op : Op α) :
    (wants cmp l op).1.length ≤ l.length + 1 := by
  cases op with
  | insert elm =>
    unfold wants
    dsimp only
    split
    · exact Nat.le_succ _
    · exact length_insertBy_le
  | remove elm =>
    unfold wants
    dsimp only
    split
    · exact (length_filter_le _ l).trans (Nat.le_succ _)
    · exact Nat.le_succ _
  | find elm => exact Nat.le_succ _
  | next elm => exact Nat.le_succ _
  | minMax val => cases val <;> exact Nat.le_succ _

/-- Every call does what it is for. -/
theorem step_keeps [Std.TransCmp cmp] (h : Holds cmp node head l) (hfuel : l.length ≤ fuel)
    {op : Op α} (hop : Legal node l op) :
    ∃ head', step cmp node fuel head op = some (head', (wants cmp l op).2) ∧
      Holds cmp node head' (wants cmp l op).1 := by
  cases op with
  | insert elm => exact insert_keeps h hop hfuel
  | remove elm => exact remove_keeps h hfuel
  | find elm => exact find_keeps elm h hfuel
  | next elm => exact next_keeps elm h hop hfuel
  | minMax val =>
    obtain ⟨head', hstep, hholds⟩ := minMax_keeps h hfuel val
    refine ⟨head', hstep, ?_⟩
    cases val <;> exact hholds

theorem calls_keep [Std.TransCmp cmp] (ops : List (Op α)) (head : Head α) (l : List α)
    (h : Holds cmp node head l) (hops : AllLegal cmp node l ops)
    (hfuel : l.length + ops.length ≤ fuel) :
    ∃ head', calls cmp node fuel head ops = some (head', (wanted cmp l ops).2) ∧
      Holds cmp node head' (wanted cmp l ops).1 ∧
      (wanted cmp l ops).1.length ≤ l.length + ops.length := by
  induction ops generalizing head l with
  | nil => exact ⟨head, rfl, h, le_rfl⟩
  | cons op ops ih =>
    obtain ⟨hop, hrest⟩ := hops
    have hlen := length_wants_le cmp l op
    rw [length_cons] at hfuel
    have hl : l.length ≤ fuel := by omega
    obtain ⟨head₁, hstep, hholds⟩ := step_keeps h hl hop
    obtain ⟨head₂, hcalls, hholds₂, hlen₂⟩ := ih head₁ _ hholds hrest (by omega)
    refine ⟨head₂, ?_, hholds₂, ?_⟩
    · simp [calls, wanted, hstep, hcalls]
    · rw [length_cons]
      simp only [wanted]; omega

/-- From an empty tree, any calls that may be made answer as they are wanted to, and leave a tree
with the elements inserted and not removed in ascending order. Splaying for an element, member or
not, keeps the elements and brings it or one next to its place to the root; `SPLAY_FIND` succeeds
just where an element compares as equal; and `SPLAY_FOREACH` goes over all elements once. -/
theorem splayTree_of_run (cmp : α → α → Ordering) [Std.TransCmp cmp] (node : α) (fuel : ℕ)
    (k : Links α) (ops : List (Op α))
    (hops : AllLegal cmp node [] ops) (hfuel : ops.length ≤ fuel) :
    ∃ head l answers, calls cmp node fuel ⟨k, none⟩ ops = some (head, answers) ∧
      wanted cmp [] ops = (l, answers) ∧ Holds cmp node head l ∧
      (∀ elm, l ≠ [] → ∃ head' root xs ys, splay cmp node fuel head elm = some head' ∧
        Holds cmp node head' l ∧ head'.root = some root ∧ l = xs ++ root :: ys ∧
        (cmp elm root = .eq ∨ (∀ a ∈ xs, cmp elm a = .gt) ∧ ∀ a ∈ ys, cmp elm a = .lt)) ∧
      (∀ elm, ∃ head' found, splayFind cmp node fuel head elm = some (head', found) ∧
        Holds cmp node head' l ∧
        ∀ a, found = some a ↔ a ∈ l ∧ cmp elm a = .eq) ∧
      ∃ head', splayForeach cmp node fuel head = some (head', l) ∧ Holds cmp node head' l := by
  have hempty : Holds cmp node (⟨k, none⟩ : Head α) [] :=
    ⟨⟨.nil, rfl, rfl⟩, ascending_nil, by simp⟩
  obtain ⟨head, hcalls, hholds, hlen⟩ := calls_keep ops _ [] hempty hops (by simpa using hfuel)
  have hlfuel : (wanted cmp [] ops).1.length ≤ fuel := by rw [length_nil] at hlen; omega
  refine ⟨head, (wanted cmp [] ops).1, (wanted cmp [] ops).2, hcalls, rfl, hholds, ?_, ?_,
    foreach_keeps hholds hlfuel⟩
  · intro elm hne
    obtain ⟨k', root, xs, ys, hs, hrooted, hl, hadj, -⟩ := splay_keeps elm hholds hne hlfuel
    refine ⟨_, root, xs, ys, hs, ?_, rfl, hl, hadj⟩
    rw [hl]; exact hrooted.holds (hl ▸ hholds.ascending) (hl ▸ hholds.node)
  · intro elm
    obtain ⟨head', hfind, hholds'⟩ := find_keeps elm hholds hlfuel
    exact ⟨head', _, hfind, hholds', fun a => hholds.ascending.findBy_iff⟩

/-- Three insertions and a removal, under the order of the numbers. -/
theorem splayTree_of_run_numbers :
    ∃ head l answers,
      calls compare 0 4 ⟨⟨fun _ => none, fun _ => none⟩, none⟩
        [.insert 5, .insert 2, .insert 7, .remove 5] = some (head, answers) ∧
      l = [2, 7] ∧ Holds compare 0 head l := by
  obtain ⟨head, l, answers, hcalls, hwanted, hholds, -⟩ :=
    splayTree_of_run compare (0 : ℕ) 4 ⟨fun _ => none, fun _ => none⟩
      [.insert 5, .insert 2, .insert 7, .remove 5]
      ⟨Nat.succ_ne_zero 4, Nat.succ_ne_zero 1, Nat.succ_ne_zero 6, trivial, trivial⟩ (by decide)
  refine ⟨head, l, answers, hcalls, ?_, hholds⟩
  exact (congrArg Prod.fst hwanted).symm.trans (by decide)

end FreeBSD.SplayTree
