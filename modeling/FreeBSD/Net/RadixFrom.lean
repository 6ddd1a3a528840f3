import FreeBSD.Net.RadixWalk

/-!
# `rn_walktree_from`

The walk is meant to visit the subtree of the last internal node on the way
down. It stops when it climbs to a node with a smaller bit than this one, which
it does from a right child only.

Results:
* `descend_spec`: the base of the walk is an internal node of the tree.
* `walktree_from_iff`: when each leaf of the subtree is visited once, and no other.
* `walk_leaves_subtree`: a base that is a left child, from which the walk goes on.
-/

namespace FreeBSD.Radix

open List Option

variable {m : Mem} {f : List ℕ → ℕ → ℤ} {s t l r tl tr : RnTree} {c : Ctx} {p n n' a top : ℕ}
  {b lastb : ℤ} {xa xm : ℕ → BitVec 8} {calls res : List ℕ} {e : ℤ}

/-! ## The base -/

/-- The descent ends at an internal node. -/
theorem descend_spec (hr : Repr m t.addr (-1) t) (h : plug c s = t) (hn : s.nodes.length < n)
    {last : ℕ} (hlast : s.inner = [] → ∃ fr c', c = fr :: c' ∧ fr.at = last) :
    ∃ c' p l r, plug c' (.node p l r) = t ∧ descend m xa xm n s.addr last = some p := by
  obtain ⟨b', hs⟩ := Repr.subtree (c := c) (s := s) (by rw [h]; exact hr)
  induction s generalizing c n last b' with
  | leaf a dup =>
    obtain ⟨n, rfl⟩ : ∃ k, n = k + 1 := ⟨n - 1, by omega⟩
    obtain ⟨fr, c', rfl, rfl⟩ := hlast rfl
    have hneg : ¬ (m a).rnBit ≥ 0 := by
      have := hs.1; omega
    cases fr with
    | left p r => exact ⟨c', p, .leaf a dup, r, h, if_neg hneg⟩
    | right p l => exact ⟨c', p, l, .leaf a dup, h, if_neg hneg⟩
  | node p l r ihl ihr =>
    simp only [RnTree.nodes, length_cons, length_append] at hn
    obtain ⟨n, rfl⟩ : ∃ k, n = k + 1 := ⟨n - 1, by omega⟩
    obtain ⟨⟨-, h0, -, hleft, hright⟩, hl, hr'⟩ := hs
    show ∃ c' p' l' r', _ ∧ descend m xa xm (n + 1) p last = some p'
    rw [descend, if_pos h0, hleft, hright]
    split_ifs
    · exact ⟨c, p, l, r, h, rfl⟩
    · exact ihr (c := .right p l :: c) h (by omega) (fun _ => ⟨_, c, rfl, rfl⟩) _ hr'
    · exact ihl (c := .left p r :: c) h (by omega) (fun _ => ⟨_, c, rfl, rfl⟩) _ hl

/-! ## Rounds -/

variable {rn rounds : ℕ} {x : List ℕ × ℤ}

theorem descend_mono {rn last : ℕ} (h : descend m xa xm n rn last = some p) (hn : n ≤ n') :
    descend m xa xm n' rn last = some p := by
  induction n generalizing n' rn last with
  | zero => cases h
  | succ n ih =>
    obtain ⟨n', rfl⟩ : ∃ k, n' = k + 1 := ⟨n' - 1, by omega⟩
    rw [descend] at h ⊢
    split_ifs at h ⊢ with h1 h2 h3
    · exact h
    · exact ih h (by omega)
    · exact ih h (by omega)
    · exact h

theorem leftmost_mono (h : leftmost m n rn = some p) (hn : n ≤ n') : leftmost m n' rn = some p := by
  induction n generalizing n' rn with
  | zero => cases h
  | succ n ih =>
    obtain ⟨n', rfl⟩ : ∃ k, n' = k + 1 := ⟨n' - 1, by omega⟩
    rw [leftmost] at h ⊢
    split_ifs at h ⊢
    · exact ih h (by omega)
    · exact h

theorem climb_mono {stopping : Bool} {x : ℕ × Bool} (h : climb m lastb n rn stopping = some x)
    (hn : n ≤ n') :
    climb m lastb n' rn stopping = some x := by
  induction n generalizing n' rn stopping with
  | zero => cases h
  | succ n ih =>
    obtain ⟨n', rfl⟩ : ∃ k, n' = k + 1 := ⟨n' - 1, by omega⟩
    rw [climb] at h ⊢
    split_ifs at h ⊢
    · exact ih h (by omega)
    · exact h

theorem processLeaves_mono (h : processLeaves m f n rn calls = some x) (hn : n ≤ n') :
    processLeaves m f n' rn calls = some x := by
  induction n generalizing n' rn calls with
  | zero => cases h
  | succ n ih =>
    obtain ⟨n', rfl⟩ : ∃ k, n' = k + 1 := ⟨n' - 1, by omega⟩
    rw [processLeaves] at h ⊢
    dsimp only at h ⊢
    split_ifs at h ⊢
    · exact h
    · exact h
    · exact ih h (by omega)
    · exact ih h (by omega)

/-- The parts of a round of the loop. -/
theorem walkLoop_cases (h : walkLoop m f lastb n (rounds + 1) rn calls = some x) :
    ∃ up stopping next calls' error, climb m lastb n rn false = some (up, stopping) ∧
      leftmost m n (m (m up).rnParent).rnRight = some next ∧
      processLeaves m f n rn calls = some (calls', error) ∧
      (if error ≠ 0 then some (calls', error)
        else if stopping || isRoot m next then some (calls', 0)
        else walkLoop m f lastb n rounds next calls') = some x := by
  rw [walkLoop] at h
  simp only [bind_eq_bind] at h
  obtain ⟨⟨up, stopping⟩, h1, h⟩ := bind_eq_some_iff.1 h
  obtain ⟨next, h2, h⟩ := bind_eq_some_iff.1 h
  obtain ⟨⟨calls', error⟩, h3, h⟩ := bind_eq_some_iff.1 h
  exact ⟨up, stopping, next, calls', error, h1, h2, h3, h⟩

theorem walkLoop_mono {rounds rounds' rn : ℕ} (h : walkLoop m f lastb n rounds rn calls = some x)
    (hn : n ≤ n') (hr : rounds ≤ rounds') :
    walkLoop m f lastb n' rounds' rn calls = some x := by
  induction rounds generalizing rounds' rn calls with
  | zero => cases h
  | succ rounds ih =>
    obtain ⟨rounds', rfl⟩ : ∃ k, rounds' = k + 1 := ⟨rounds' - 1, by omega⟩
    obtain ⟨up, stopping, next, calls', error, h1, h2, h3, h4⟩ := walkLoop_cases h
    rw [walkLoop, climb_mono h1 hn]
    simp only [bind_eq_bind, bind_some]
    rw [leftmost_mono h2 hn]
    simp only [bind_some]
    rw [processLeaves_mono h3 hn]
    simp only [bind_some]
    split_ifs at h4 ⊢
    · exact h4
    · exact h4
    · exact ih h4 (by omega)

/-- More rounds do not change a result. -/
theorem rnWalktreeFrom_mono {treetop : ℕ} (h : rnWalktreeFrom m f n treetop xa xm = some x)
    (hn : n ≤ n') :
    rnWalktreeFrom m f n' treetop xa xm = some x := by
  unfold rnWalktreeFrom at h ⊢
  simp only [bind_eq_bind] at h ⊢
  obtain ⟨last, h1, h⟩ := bind_eq_some_iff.1 h
  obtain ⟨rn, h2, h⟩ := bind_eq_some_iff.1 h
  rw [descend_mono h1 hn, bind_some, leftmost_mono h2 hn, bind_some]
  exact walkLoop_mono h hn hn

/-! ## Calls are not taken back -/

theorem processLeaves_keeps (h : processLeaves m f n rn calls = some (res, e)) : calls <+: res := by
  induction n generalizing rn calls with
  | zero => cases h
  | succ n ih =>
    rw [processLeaves] at h
    dsimp only at h
    split_ifs at h
    · cases h
      exact prefix_rfl
    · cases h
      exact prefix_append _ _
    · exact (prefix_append _ _).trans (ih h)
    · exact ih h

theorem walkLoop_keeps (h : walkLoop m f lastb n rounds rn calls = some (res, e)) :
    calls <+: res := by
  induction rounds generalizing rn calls with
  | zero => cases h
  | succ rounds ih =>
    obtain ⟨up, stopping, next, calls', error, -, -, h3, h4⟩ := walkLoop_cases h
    have hp := processLeaves_keeps h3
    split_ifs at h4
    · cases h4
      exact hp
    · cases h4
      exact hp
    · exact hp.trans (ih h4)

/-- The loop calls the callback for the leaf at which it starts. -/
theorem walkLoop_first (h0 : a ≠ 0) (ha : isRoot m a = false)
    (h : walkLoop m f lastb n rounds a calls = some (res, e)) : calls ++ [a] <+: res := by
  cases rounds with
  | zero => cases h
  | succ rounds =>
    obtain ⟨up, stopping, next, calls', error, -, -, h3, h4⟩ := walkLoop_cases h
    have hp : calls ++ [a] <+: calls' := by
      cases n with
      | zero => cases h3
      | succ n =>
        rw [processLeaves, if_neg h0, if_pos ha] at h3
        dsimp only at h3
        split_ifs at h3
        · cases h3
          exact prefix_rfl
        · exact processLeaves_keeps h3
    split_ifs at h4
    · cases h4
      exact hp
    · cases h4
      exact hp
    · exact hp.trans (walkLoop_keeps h4)

/-! ## The subtree of the base -/

theorem eq_first_of_mem (hnd : t.nodes.Nodup) (h : a ∈ t.heads) (h' : a ∈ t.firstChain) :
    a = t.first := by
  induction t with
  | leaf x dup => exact mem_singleton.1 h
  | node p l r ihl _ =>
    obtain ⟨-, -, hl, -, hd⟩ := nodup_node hnd
    rcases mem_append.1 h with h | h
    · exact ihl hl h h'
    · exact absurd (mem_nodes_of_head h) (hd a (firstChain_subset l h'))

theorem eq_last_of_mem (hnd : t.nodes.Nodup) (h : a ∈ t.heads) (h' : a ∈ t.lastChain) :
    a = t.last := by
  induction t with
  | leaf x dup => exact mem_singleton.1 h
  | node p l r _ ihr =>
    obtain ⟨-, -, -, hr, hd⟩ := nodup_node hnd
    rcases mem_append.1 h with h | h
    · exact absurd (lastChain_subset r h') (hd a (mem_nodes_of_head h))
    · exact ihr hr h h'

/-- The leaves that can be root nodes. -/
theorem WellFormed.root_head (hw : WellFormed m t) (h : a ∈ t.heads) (hr : isRoot m a = true) :
    a = t.first ∨ a = t.last :=
  (hw.leaves a (heads_subset t h) hr).imp (eq_first_of_mem hw.nodup h) (eq_last_of_mem hw.nodup h)

/-- Each leaf of the subtree that is no root node is visited once, and nothing else. -/
def ExactlyOnce (m : Mem) (s : RnTree) (calls : List ℕ) : Prop :=
  ∀ x, calls.count x = if x ∈ s.leaves ∧ isRoot m x = false then 1 else 0

theorem exactlyOnce_nonRoot (h : s.nodes.Nodup) : ExactlyOnce m s (nonRoot m s.leaves) := by
  intro x
  have hnd : (nonRoot m s.leaves).Nodup := (h.sublist (leaves_sublist s)).filter _
  rw [List.Nodup.count hnd]
  refine if_congr ?_ rfl rfl
  unfold nonRoot
  rw [mem_filter, Bool.not_eq_true']

/-- A leaf is no null pointer. -/
theorem Repr.first_ne_zero {par : ℕ} (h : Repr m par b s) : s.first ≠ 0 := by
  induction s generalizing par b with
  | leaf a dup =>
    cases dup with
    | nil => exact h.2.2.1
    | cons c dup => exact h.2.2.1
  | node p l r ihl _ => exact ihl h.2.1

/-- The walk below the base `p` ends where it should: at the right end of the tree, the chain of a
    last leaf that is a root node has no other leaves, and if the base is the treetop the last leaf
    is a root node; below a left child, the leaf after the subtree is a root node. -/
def Stops (m : Mem) : Ctx → RnTree → Prop
  | [], s => isRoot m s.last = true ∧ ∀ a ∈ s.lastChain, isRoot m a = true
  | .left _ r :: _, _ => isRoot m r.first = true
  | .right p l :: c, s =>
    AllRight (.right p l :: c) → isRoot m s.last = true → ∀ a ∈ s.lastChain, isRoot m a = true

section From

variable (hw : WellFormed m (.node top tl tr)) (hf : ∀ l p, f l p = 0)
  (hc : plug c (.node p l r) = .node top tl tr)
  (hp : descend m xa xm n top 0 = some p) (hn : (RnTree.node top tl tr).nodes.length < n)

include hw hc hp hn in
/-- The walk begins at the first leaf of the subtree. -/
theorem rnWalktreeFrom_eq : rnWalktreeFrom m f n top xa xm =
    walkLoop m f (m p).rnBit n n l.first [] := by
  have hrepr := hw.repr
  rw [← hc] at hrepr
  obtain ⟨b', hs⟩ := Repr.subtree hrepr
  have hlen := length_ctx_lt c (.node p l r)
  rw [hc] at hlen
  have hleft : leftmost m n p = some l.first := leftmost_spec hs (by omega)
  unfold rnWalktreeFrom
  simp only [bind_eq_bind]
  rw [hp, bind_some, hleft, bind_some]

include hw hc in
/-- The bits of the subtree are not smaller than that of the base. -/
theorem bit_le_inner : ∀ q ∈ (RnTree.node p l r).inner, (m p).rnBit ≤ (m q).rnBit := by
  have hrepr := hw.repr
  rw [← hc] at hrepr
  obtain ⟨b', -, hl, hr⟩ := Repr.subtree hrepr
  intro q hq
  rcases mem_cons.1 hq with rfl | hq
  · exact le_rfl
  · rcases mem_append.1 hq with hq | hq
    · exact (hl.lt_inner q hq).le
    · exact (hr.lt_inner q hq).le

include hw hc in
/-- A root node among the leaves of the subtree is its first leaf or the last one of the tree. -/
theorem root_head_subtree (ha : a ∈ (RnTree.node p l r).heads) (hr : isRoot m a = true) :
    a = l.first ∨ AllRight c ∧ a = r.last := by
  have hnodup := hw.nodup
  rw [← hc] at hnodup
  have hmem : a ∈ (RnTree.node top tl tr).heads := hc ▸ heads_subset_plug c _ ha
  have hnode := mem_nodes_of_head ha
  rcases hw.root_head hmem hr with heq | heq
  · rw [← hc] at heq
    rcases first_plug hnodup with hfirst | hfirst
    · exact .inl (heq.trans hfirst)
    · exact absurd (heq ▸ hnode) hfirst
  · rw [← hc] at heq
    by_cases hall : AllRight c
    · exact .inr ⟨hall, heq.trans (last_plug_of_allRight hall)⟩
    · exact absurd (heq ▸ hnode) (last_plug_notMem hall hnodup)

include hw hf hc hp hn in
/-- At the right end of the tree, with a root node as the last leaf. -/
theorem walk_spine (hlast : isRoot m r.last = true)
    (hheads : (RnTree.node p l r).heads.length ≤ n) :
    ∃ init, (RnTree.node p l r).leaves = init ++ r.lastChain ∧
      rnWalktreeFrom m f n top xa xm = some (nonRoot m init, 0) := by
  obtain ⟨rounds, hrounds⟩ : ∃ k, n = k + (RnTree.node p l r).heads.length :=
    ⟨n - (RnTree.node p l r).heads.length, by omega⟩
  obtain ⟨init, hinit, hwalk⟩ : ∃ init, (RnTree.node p l r).leaves = init ++ r.lastChain ∧
      walkLoop m f (m p).rnBit n (rounds + (RnTree.node p l r).heads.length) l.first [] =
        some ([] ++ nonRoot m init, 0) :=
    walkLoop_spine hw hf hn [] hc hlast
      (fun a ha hr => (root_head_subtree hw hc ha hr).imp_right And.right) (bit_le_inner hw hc)
  refine ⟨init, hinit, ?_⟩
  rw [rnWalktreeFrom_eq hw hc hp hn]
  rw [← hrounds] at hwalk; exact hwalk

include hw hf hc hp hn in
/-- In the other cases all leaves of the subtree are visited, and then the walk may go on. -/
theorem walk_subtree (hnot : ¬ (AllRight c ∧ isRoot m r.last = true))
    (hheads : (RnTree.node p l r).heads.length ≤ n) :
    ∃ rounds, rnWalktreeFrom m f n top xa xm =
      after m f (m p).rnBit n rounds (exit m (m p).rnBit tr c false)
        (nonRoot m (RnTree.node p l r).leaves) := by
  obtain ⟨rounds, hrounds⟩ : ∃ k, n = k + (RnTree.node p l r).heads.length :=
    ⟨n - (RnTree.node p l r).heads.length, by omega⟩
  refine ⟨rounds, ?_⟩
  have hwalk : walkLoop m f (m p).rnBit n (rounds + (RnTree.node p l r).heads.length) l.first [] =
      _ := walkLoop_subtree hw hf hn hc
    (fun a ha hr => (root_head_subtree hw hc ha hr).resolve_right fun h =>
      hnot ⟨h.1, h.2 ▸ hr⟩) (fun _ => .inl ⟨p, l, r, rfl⟩) (bit_le_inner hw hc)
  rw [rnWalktreeFrom_eq hw hc hp hn]
  rw [← hrounds] at hwalk; exact hwalk

include hp in
/-- Enough rounds for a walk. -/
theorem exists_rounds : ∃ N, ∀ n, N ≤ n →
    (RnTree.node top tl tr).nodes.length < n ∧ (RnTree.node p l r).heads.length ≤ n ∧
      descend m xa xm n top 0 = some p := by
  refine ⟨n + (RnTree.node top tl tr).nodes.length + (RnTree.node p l r).heads.length + 1,
    fun k hk => ⟨by omega, by omega, descend_mono hp (by omega)⟩⟩

include hw hf hc in
/-- If the walk ends where it should, each leaf is visited once. -/
theorem exactlyOnce_of_stops (hp : ∃ n, descend m xa xm n top 0 = some p)
    (hs : Stops m c (.node p l r)) :
    ∃ n calls, rnWalktreeFrom m f n top xa xm = some (calls, 0) ∧
      ExactlyOnce m (.node p l r) calls := by
  obtain ⟨n₀, hp⟩ := hp
  obtain ⟨N, hN⟩ : ∃ N, ∀ n, N ≤ n → (RnTree.node top tl tr).nodes.length < n ∧
      (RnTree.node p l r).heads.length ≤ n ∧ descend m xa xm n top 0 = some p := exists_rounds hp
  obtain ⟨hn, hheads, hp⟩ := hN N le_rfl
  have hnodup := hw.nodup
  rw [← hc] at hnodup
  have hsub := hnodup.sublist (nodes_sublist_plug c (.node p l r))
  refine ⟨N, ?_⟩
  by_cases hend : AllRight c ∧ isRoot m r.last = true
  · obtain ⟨hall, hlast⟩ := hend
    obtain ⟨init, hinit, hwalk⟩ := walk_spine hw hf hc hp hn hlast hheads
    have hroots : ∀ a ∈ r.lastChain, isRoot m a = true := by
      cases c with
      | nil => exact hs.2
      | cons fr c =>
        obtain ⟨q, l', rfl⟩ := hall fr mem_cons_self
        exact hs hall hlast
    have hnone : nonRoot m r.lastChain = [] :=
      filter_eq_nil_iff.2 fun a ha => by rw [hroots a ha]; decide
    refine ⟨_, hwalk, ?_⟩
    have hex := exactlyOnce_nonRoot (m := m) hsub
    rwa [hinit, nonRoot_append, hnone, append_nil] at hex
  · obtain ⟨rounds, hwalk⟩ := walk_subtree hw hf hc hp hn hend hheads
    refine ⟨_, hwalk.trans ?_, exactlyOnce_nonRoot hsub⟩
    unfold after
    refine if_pos ?_
    rw [Bool.or_eq_true]
    cases c with
    | nil => exact absurd ⟨fun fr hfr => (by cases hfr), hs.1⟩ hend
    | cons fr c =>
      cases fr with
      | left q r' => exact .inr hs
      | right q l' =>
        -- the parent has a smaller bit
        left
        have hrepr := hw.repr
        rw [← hc] at hrepr
        obtain ⟨b', -, -, hnode⟩ := Repr.subtree (c := c) (s := .node q l' (.node p l r)) hrepr
        have hlt : (m q).rnBit < (m p).rnBit := hnode.1.1
        show (exit m (m p).rnBit tr c (false || decide ((m q).rnBit < (m p).rnBit))).1 = true
        rw [decide_eq_true hlt]; exact exit_true tr

include hw hf hc in
/-- If it does not, the chain of the last leaf is left out, or a leaf is visited that is not in the
    subtree or was visited before. -/
theorem stops_of_exactlyOnce (hp : ∃ n, descend m xa xm n top 0 = some p)
    (h : ∃ n calls, rnWalktreeFrom m f n top xa xm = some (calls, 0) ∧
      ExactlyOnce m (.node p l r) calls) : Stops m c (.node p l r) := by
  obtain ⟨n₀, hp⟩ := hp
  obtain ⟨N, hN⟩ : ∃ N, ∀ n, N ≤ n → (RnTree.node top tl tr).nodes.length < n ∧
      (RnTree.node p l r).heads.length ≤ n ∧ descend m xa xm n top 0 = some p := exists_rounds hp
  obtain ⟨n₁, calls, hwalk₁, hex⟩ := h
  obtain ⟨hn, hheads, hp⟩ := hN (N + n₁) (by omega)
  have hwalk₁ := rnWalktreeFrom_mono hwalk₁ (show n₁ ≤ N + n₁ by omega)
  have hnodup := hw.nodup
  rw [← hc] at hnodup
  have hsub := hnodup.sublist (nodes_sublist_plug c (.node p l r))
  by_cases hend : AllRight c ∧ isRoot m r.last = true
  · obtain ⟨hall, hlast⟩ := hend
    obtain ⟨init, hinit, hwalk⟩ := walk_spine hw hf hc hp hn hlast hheads
    obtain ⟨rfl, -⟩ := Prod.mk.inj (some.inj (hwalk.symm.trans hwalk₁))
    have hroots : ∀ a ∈ r.lastChain, isRoot m a = true := by
      intro a ha
      by_contra hra
      rw [Bool.not_eq_true] at hra
      have hmem : a ∈ (RnTree.node p l r).leaves := hinit ▸ mem_append_right init ha
      have hcount := hex a
      rw [if_pos ⟨hmem, hra⟩] at hcount
      have hin : a ∈ init := by
        have hpos : 0 < (nonRoot m init).count a := by omega
        exact mem_of_mem_filter (count_pos_iff.1 hpos)
      have hnd := hsub.sublist (leaves_sublist (.node p l r))
      rw [hinit] at hnd; exact (nodup_append.1 hnd).2.2 a hin a ha rfl
    cases c with
    | nil => exact ⟨hlast, hroots⟩
    | cons fr c =>
      obtain ⟨q, l', rfl⟩ := hall fr mem_cons_self
      exact fun _ _ => hroots
  · obtain ⟨rounds, hwalk⟩ := walk_subtree hw hf hc hp hn hend hheads
    -- where the walk goes on there is one call too many
    have hgo : ∀ x : RnTree, (∃ c', plug c' x = .node top tl tr) → isRoot m x.first = false →
        exit m (m p).rnBit tr c false = (false, x) →
        x.first ∈ (RnTree.node p l r).leaves ∨ x.first ∉ (RnTree.node p l r).nodes → False := by
      rintro x ⟨c', hc'⟩ hx hexit hwhere
      have hrepr := hw.repr
      rw [← hc'] at hrepr
      obtain ⟨b', hxr⟩ := Repr.subtree hrepr
      have h0 : x.first ≠ 0 := hxr.first_ne_zero
      rw [hwalk, hexit] at hwalk₁
      unfold after at hwalk₁
      dsimp only at hwalk₁
      rw [hx, if_neg (by decide)] at hwalk₁
      have hpre := (walkLoop_first h0 hx hwalk₁).sublist.count_le x.first
      have hcount := hex x.first
      have hmine := exactlyOnce_nonRoot (m := m) hsub x.first
      rw [count_append, count_singleton_self] at hpre
      rcases hwhere with hin | hout
      · rw [if_pos ⟨hin, hx⟩] at hcount hmine; omega
      · rw [if_neg fun h => hout ((leaves_sublist _).subset h.1)] at hcount; omega
    cases c with
    | nil =>
      obtain ⟨rfl, rfl, rfl⟩ := RnTree.node.inj hc
      have hnil : AllRight [] := fun fr hfr => (by cases hfr)
      have hlast : ¬ isRoot m r.last = true := fun hr => hend ⟨hnil, hr⟩
      have hhead : r.first ∈ (RnTree.node p l r).heads :=
        mem_append_right _ (first_mem_heads r)
      have hfirst : isRoot m r.first = false := by
        rw [← Bool.not_eq_true]
        intro hr
        rcases root_head_subtree (c := []) hw rfl hhead hr with heq | ⟨-, heq⟩
        · exact (nodup_node hw.nodup).2.2.2.2 _ (mem_nodes_of_head (first_mem_heads l))
            (heq ▸ mem_nodes_of_head (first_mem_heads r))
        · exact hlast (heq ▸ hr)
      exact (hgo r ⟨[.right p l], rfl⟩ hfirst rfl (.inl (heads_subset _ hhead))).elim
    | cons fr c =>
      cases fr with
      | left q r' =>
        by_contra hr
        change ¬ isRoot m r'.first = true at hr
        rw [Bool.not_eq_true] at hr
        have hnd := nodup_node (hnodup.sublist
          (nodes_sublist_plug c (.node q (.node p l r) r')))
        exact hgo r' ⟨.right q (.node p l r) :: c, hc⟩ hr rfl
          (.inr fun hx => hnd.2.2.2.2 _ hx (mem_nodes_of_head (first_mem_heads r')))
      | right q l' => exact fun hall hlast => absurd ⟨hall, hlast⟩ hend

end From

/-- **The walk visits the leaves of the subtree below the last internal node on the way down once,
    and no others, if and only if it ends where it should.** -/
theorem walktree_from_iff (hw : WellFormed m t) (hf : ∀ l p, f l p = 0) (xa xm : ℕ → BitVec 8) :
    ∃ c p l r, plug c (.node p l r) = t ∧ (∃ n, descend m xa xm n t.addr 0 = some p) ∧
      ((∃ n calls, rnWalktreeFrom m f n t.addr xa xm = some (calls, 0) ∧
        ExactlyOnce m (.node p l r) calls) ↔ Stops m c (.node p l r)) := by
  obtain ⟨top, tl, tr, rfl⟩ := hw.isNode
  have hbase : ∃ c p l r, plug c (.node p l r) = RnTree.node top tl tr ∧
      descend m xa xm ((RnTree.node top tl tr).nodes.length + 1) top 0 = some p :=
    descend_spec (c := []) hw.repr rfl (Nat.lt_succ_self _) fun h => (by cases h)
  obtain ⟨c, p, l, r, hc, hp⟩ := hbase
  exact ⟨c, p, l, r, hc, ⟨_, hp⟩, stops_of_exactlyOnce hw hf hc ⟨_, hp⟩,
    exactlyOnce_of_stops hw hf hc ⟨_, hp⟩⟩

/-! ## A tree of addresses

The keys are socket addresses with the address from byte 4 on: `16.0.0.1` (leaf 7) and `64.0.0.1`
(leaf 5). The base for `16.0.0.0` with the mask `224.0.0.0` is the node 6, a left child. -/

def subnetNode (parent : ℕ) (bit : ℤ) (flags : BitVec 8) (left right : ℕ) : RadixNode :=
  ⟨parent, bit, 128#8 >>> (bit.toNat % 8), flags, bit.toNat / 8, left, right, 0⟩

def subnetMem : Mem
  | 1 => subnetNode 1 32 rnfRoot 4 3
  | 2 => subnetNode 6 (-33) rnfRoot 0 0
  | 3 => subnetNode 1 (-33) rnfRoot 0 0
  | 4 => subnetNode 1 33 0 6 5
  | 5 => subnetNode 4 (-1) 0 0 0
  | 6 => subnetNode 4 35 0 2 7
  | 7 => subnetNode 6 (-1) 0 0 0
  | _ => subnetNode 0 (-1) 0 0 0

def subnetTree : RnTree :=
  .node 1 (.node 4 (.node 6 (.leaf 2 []) (.leaf 7 [])) (.leaf 5 [])) (.leaf 3 [])

/-- The address `16.0.0.0` and the mask `224.0.0.0`. -/
def subnetAddr (i : ℕ) : BitVec 8 := if i = 4 then 16 else 0
def subnetMask (i : ℕ) : BitVec 8 := if i < 4 then 255 else if i = 4 then 224 else 0

theorem subnet_wellFormed : WellFormed subnetMem subnetTree where
  isNode := ⟨_, _, _, rfl⟩
  repr := by
    simp [subnetTree, Repr, DupChain, subnetMem, subnetNode, RnTree.addr]
  nodup := by decide
  inner := by decide
  leaves := by decide

theorem walktree_from_iff_subnet : ∃ c p l r, plug c (.node p l r) = subnetTree ∧
    (∃ n, descend subnetMem subnetAddr subnetMask n 1 0 = some p) ∧
      ((∃ n calls, rnWalktreeFrom subnetMem (fun _ _ => 0) n 1 subnetAddr subnetMask =
          some (calls, 0) ∧ ExactlyOnce subnetMem (.node p l r) calls) ↔
        Stops subnetMem c (.node p l r)) :=
  walktree_from_iff subnet_wellFormed (f := fun _ _ => 0) (fun _ _ => rfl) subnetAddr subnetMask

/-- The walk goes on to leaf 5, which is not below node 6. -/
theorem walk_leaves_subtree : WellFormed subnetMem subnetTree ∧
    descend subnetMem subnetAddr subnetMask 10 1 0 = some 6 ∧
    plug [.left 4 (.leaf 5 []), .left 1 (.leaf 3 [])] (.node 6 (.leaf 2 []) (.leaf 7 [])) =
      subnetTree ∧
    ¬ ∃ n calls, rnWalktreeFrom subnetMem (fun _ _ => 0) n 1 subnetAddr subnetMask =
        some (calls, 0) ∧ ExactlyOnce subnetMem (.node 6 (.leaf 2 []) (.leaf 7 [])) calls := by
  have hwalk : rnWalktreeFrom subnetMem (fun _ _ => 0) 10 1 subnetAddr subnetMask =
      some ([7, 5], 0) := by decide
  refine ⟨subnet_wellFormed, by decide, rfl, ?_⟩
  rintro ⟨n, calls, h, hex⟩
  have h1 := rnWalktreeFrom_mono h (Nat.le_add_right n 10)
  rw [rnWalktreeFrom_mono hwalk (Nat.le_add_left 10 n)] at h1
  obtain ⟨rfl, -⟩ := Prod.mk.inj (Option.some.inj h1)
  have h5 := hex 5
  revert h5
  decide

end FreeBSD.Radix
