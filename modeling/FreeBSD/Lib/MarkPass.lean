import Mathlib.Logic.Relation
import Mathlib.Tactic

/-!
# Marking what is reachable by passes over a list

The nodes of a graph are on a list. A node that is pushed is marked and deferred, unless it is
marked already. A pass visits each node of the list: a deferred node is no more deferred, and a root
that is not marked gets marked; the nodes at the ends of its edges are pushed. Passes are repeated
while there are deferred nodes, which a counter tells.
-/

namespace FreeBSD.Lib

open List Function

/-- The flags of the nodes, and the counter of the deferred ones. -/
structure Flags (α : Type*) where
  mark : α → Bool
  defer : α → Bool
  count : ℤ

namespace Flags

variable {α : Type*} [DecidableEq α] {edges : α → List α} {root : α → Bool} {l bs : List α}
  {g g' : Flags α} {a b x : α}

/-- Nothing is marked or deferred. -/
def clear : Flags α := { mark := fun _ => false, defer := fun _ => false, count := 0 }

def push (g : Flags α) (a : α) : Flags α :=
  if g.mark a then g
  else
    { mark := Function.update g.mark a true, defer := Function.update g.defer a true,
      count := g.count + 1 }

def visit (edges : α → List α) (root : α → Bool) (g : Flags α) (a : α) : Flags α :=
  if g.defer a then
    (edges a).foldl push { g with defer := Function.update g.defer a false, count := g.count - 1 }
  else if g.mark a then g
  else if root a then (edges a).foldl push { g with mark := Function.update g.mark a true }
  else g

def pass (edges : α → List α) (root : α → Bool) (l : List α) (g : Flags α) : Flags α :=
  l.foldl (visit edges root) g

def loop (edges : α → List α) (root : α → Bool) (l : List α) : ℕ → Flags α → Option (Flags α)
  | 0, _ => none
  | fuel + 1, g =>
    let g' := pass edges root l g
    if g'.count = 0 then some g' else loop edges root l fuel g'

/-- On the list and reachable from a root on it. -/
def Reach (edges : α → List α) (root : α → Bool) (l : List α) (a : α) : Prop :=
  ∃ r ∈ l, root r ∧ Relation.ReflTransGen (fun x y => y ∈ edges x) r a

/-! ## Pushing -/

/-- The counter counts the deferred nodes, which are marked nodes of the list. -/
structure Counted (l : List α) (g : Flags α) : Prop where
  mem : ∀ a, g.mark a → a ∈ l
  marked : ∀ a, g.defer a → g.mark a
  count : g.count = l.countP g.defer

theorem update_true_iff {f : α → Bool} : update f a true x ↔ x = a ∨ f x := by
  by_cases hx : x = a
  · simp [hx]
  · simp [hx]

theorem countP_update_true (hl : l.Nodup) (ha : a ∈ l) {f : α → Bool} (hf : f a = false) :
    l.countP (update f a true) = l.countP f + 1 := by
  induction l with
  | nil => exact absurd ha not_mem_nil
  | cons x xs ih =>
    obtain ⟨hx, hxs⟩ := nodup_cons.mp hl
    by_cases hax : a = x
    · subst hax
      have hsame : xs.countP (update f a true) = xs.countP f := by
        refine countP_congr fun y hy => ?_
        have hne : y ≠ a := fun h => hx (h ▸ hy)
        rw [update_of_ne hne]
      rw [countP_cons_of_pos (update_self ..), countP_cons_of_neg (by simp [hf]),
        hsame]
    · have hmem : a ∈ xs := (mem_cons.mp ha).resolve_left hax
      have hfx : update f a true x = f x := update_of_ne (Ne.symm hax) ..
      rw [countP_cons, countP_cons, hfx, ih hxs hmem]; omega

theorem countP_update_false (hl : l.Nodup) (ha : a ∈ l) {f : α → Bool} (hf : f a = true) :
    l.countP (update f a false) + 1 = l.countP f := by
  have hback : update (update f a false) a true = f := by
    rw [update_idem, ← hf, update_eq_self]
  have hcount := countP_update_true hl ha (f := update f a false)
    (update_self ..)
  rw [hback] at hcount; exact hcount.symm

theorem mark_push (g : Flags α) (a x : α) : (push g a).mark x = (g.mark x || decide (x = a)) := by
  rw [push]
  split
  · rename_i ha
    by_cases hx : x = a
    · rw [hx, ha, Bool.true_or]
    · rw [decide_eq_false hx, Bool.or_false]
  · by_cases hx : x = a
    · rw [hx]; simp
    · simp [hx]

theorem push_counted (hl : l.Nodup) (h : Counted l g) (ha : a ∈ l) : Counted l (push g a) := by
  rw [push]
  split
  · exact h
  · rename_i hm
    have hd : g.defer a = false := by
      by_contra hd
      exact hm (h.marked a (Bool.not_eq_false _ ▸ hd))
    refine ⟨fun x hx => ?_, fun x hx => ?_, ?_⟩
    · rcases update_true_iff.mp hx with rfl | hx
      · exact ha
      · exact h.mem x hx
    · exact update_true_iff.mpr ((update_true_iff.mp hx).imp_right (h.marked x))
    · show g.count + 1 = _
      rw [countP_update_true hl ha hd, h.count]
      push_cast; rfl

theorem mark_foldl_push (bs : List α) (g : Flags α) (x : α) :
    (bs.foldl push g).mark x = (g.mark x || decide (x ∈ bs)) := by
  induction bs generalizing g with
  | nil => simp
  | cons b bs ih =>
    rw [foldl_cons, ih, mark_push, Bool.or_assoc]
    congr 1
    by_cases hx : x = b
    · simp [hx]
    · simp [hx]

theorem mark_foldl_push_of (hx : g.mark x) : (bs.foldl push g).mark x := by
  rw [mark_foldl_push, hx, Bool.true_or]

/-- A marked node is deferred after pushing if it was before. -/
theorem defer_foldl_push (hx : g.mark x) : (bs.foldl push g).defer x = g.defer x := by
  induction bs generalizing g with
  | nil => rfl
  | cons b bs ih =>
    have hx' : (push g b).mark x := by
      rw [mark_push, hx, Bool.true_or]
    rw [foldl_cons, ih hx', push]
    split
    · rfl
    · rename_i hb
      have hne : x ≠ b := fun h => hb (h ▸ hx)
      exact update_of_ne hne ..

/-- A node that gets marked by pushing is deferred. -/
theorem defer_of_pushed (hx : ¬ g.mark x) (hx' : (bs.foldl push g).mark x) :
    (bs.foldl push g).defer x := by
  induction bs generalizing g with
  | nil => exact absurd hx' hx
  | cons b bs ih =>
    rw [foldl_cons] at hx' ⊢
    by_cases hb : (push g b).mark x
    · rw [defer_foldl_push hb]
      rw [mark_push] at hb
      have hxb : x = b := by simpa [hx] using hb
      rw [push, if_neg (hxb ▸ hx), hxb]; exact update_self ..
    · exact ih hb hx'

theorem foldl_push_counted (hl : l.Nodup) (h : Counted l g) (hbs : ∀ b ∈ bs, b ∈ l) :
    Counted l (bs.foldl push g) := by
  induction bs generalizing g with
  | nil => exact h
  | cons b bs ih =>
    exact ih (push_counted hl h (hbs b mem_cons_self)) fun x hx =>
      hbs x (mem_cons_of_mem _ hx)

/-! ## Visits -/

/-- What is marked is reachable, and the ends of the edges of a node that was visited are marked. -/
structure Inv (edges : α → List α) (root : α → Bool) (l : List α) (g : Flags α) : Prop where
  counted : Counted l g
  sound : ∀ a, g.mark a → Reach edges root l a
  scanned : ∀ a, g.mark a → ¬ g.defer a → ∀ b ∈ edges a, g.mark b

omit [DecidableEq α] in
theorem Reach.edge (h : Reach edges root l a) (hb : b ∈ edges a) : Reach edges root l b := by
  obtain ⟨r, hr, hroot, hpath⟩ := h
  exact ⟨r, hr, hroot, hpath.tail hb⟩

omit [DecidableEq α] in
omit [DecidableEq α] in
theorem clear_inv : Inv edges root l (clear : Flags α) where
  counted := ⟨fun _ h => absurd h Bool.false_ne_true, fun _ h => absurd h Bool.false_ne_true,
    by simp [clear]⟩
  sound := fun _ h => absurd h Bool.false_ne_true
  scanned := fun _ h => absurd h Bool.false_ne_true

/-- The edges of a marked node are scanned. -/
theorem scan_inv (hl : l.Nodup) (hedges : ∀ a ∈ l, ∀ b ∈ edges a, b ∈ l) (hc : Counted l g)
    (hs : ∀ x, g.mark x → Reach edges root l x) (ha : g.mark a)
    (hscan : ∀ x, x ≠ a → g.mark x → ¬ g.defer x → ∀ b ∈ edges x, g.mark b) :
    Inv edges root l ((edges a).foldl push g) where
  counted := foldl_push_counted hl hc (hedges a (hc.mem a ha))
  sound := by
    intro x hx
    rw [mark_foldl_push] at hx
    rcases Bool.or_eq_true_iff.mp hx with hx | hx
    · exact hs x hx
    · exact (hs a ha).edge (of_decide_eq_true hx)
  scanned := by
    intro x hx hd b hb
    rw [mark_foldl_push, Bool.or_eq_true_iff]
    by_cases hxa : x = a
    · exact .inr (decide_eq_true (hxa ▸ hb))
    · by_cases hxm : g.mark x
      · rw [defer_foldl_push hxm] at hd; exact .inl (hscan x hxa hxm hd b hb)
      · exact absurd (defer_of_pushed hxm hx) hd

theorem visit_inv (hl : l.Nodup) (hedges : ∀ a ∈ l, ∀ b ∈ edges a, b ∈ l)
    (h : Inv edges root l g) (ha : a ∈ l) : Inv edges root l (visit edges root g a) := by
  obtain ⟨hc, hs, hscan⟩ := h
  rw [visit]
  by_cases hd : g.defer a
  · -- the node is no more deferred
    rw [if_pos hd]
    refine scan_inv hl hedges ⟨hc.mem, ?_, ?_⟩ hs (hc.marked a hd) ?_
    · intro x hx
      by_cases hxa : x = a
      · exact hxa ▸ hc.marked a hd
      · exact hc.marked x ((update_of_ne hxa false g.defer).symm.trans hx)
    · have hcount := countP_update_false hl ha hd
      show g.count - 1 = (l.countP (update g.defer a false) : ℤ)
      rw [hc.count]; omega
    · intro x hxa hx hdx
      exact hscan x hx fun hd' => hdx ((update_of_ne hxa false g.defer).trans hd')
  · rw [if_neg hd]
    by_cases hm : g.mark a
    · rw [if_pos hm]; exact ⟨hc, hs, hscan⟩
    · rw [if_neg hm]
      by_cases hr : root a
      · -- the root gets marked
        rw [if_pos hr]
        refine scan_inv hl hedges ⟨fun x hx => ?_, fun x hx => ?_, hc.count⟩ (fun x hx => ?_)
          (update_self ..) ?_
        · rcases update_true_iff.mp hx with rfl | hx
          · exact ha
          · exact hc.mem x hx
        · exact update_true_iff.mpr (.inr (hc.marked x hx))
        · rcases update_true_iff.mp hx with rfl | hx
          · exact ⟨x, ha, hr, Relation.ReflTransGen.refl⟩
          · exact hs x hx
        · intro x hxa hx hdx b hb
          have hx' := (update_true_iff.mp hx).resolve_left hxa
          exact update_true_iff.mpr (.inr (hscan x hx' hdx b hb))
      · rw [if_neg hr]; exact ⟨hc, hs, hscan⟩

/-- What a visit leaves of the flags: marks stay, and a marked node does not get deferred. -/
theorem visit_mono (edges : α → List α) (root : α → Bool) (g : Flags α) (a : α) (hx : g.mark x) :
    (visit edges root g a).mark x ∧
      ((visit edges root g a).defer x → g.defer x ∧ x ≠ a) := by
  rw [visit]
  by_cases hd : g.defer a
  · rw [if_pos hd]
    refine ⟨mark_foldl_push_of hx, fun hdx => ?_⟩
    have hdx' : update g.defer a false x = true := by
      refine Eq.trans (Eq.symm (defer_foldl_push ?_)) hdx
      exact hx
    have hxa : x ≠ a := by
      rintro rfl
      exact absurd ((update_self x false g.defer).symm.trans hdx') Bool.false_ne_true
    exact ⟨(update_of_ne hxa false g.defer).symm.trans hdx', hxa⟩
  · rw [if_neg hd]
    have hdef : g.defer x → g.defer x ∧ x ≠ a := fun hdx => ⟨hdx, fun h => hd (h ▸ hdx)⟩
    by_cases hm : g.mark a
    · rw [if_pos hm]; exact ⟨hx, hdef⟩
    · rw [if_neg hm]
      by_cases hr : root a
      · have hx' : update g.mark a true x := update_true_iff.mpr (.inr hx)
        rw [if_pos hr]
        refine ⟨mark_foldl_push_of hx', fun hdx => hdef ?_⟩
        have hkeep := @defer_foldl_push _ _ (edges a)
          { g with mark := update g.mark a true } x hx'
        exact hkeep.symm.trans hdx
      · rw [if_neg hr]; exact ⟨hx, hdef⟩

/-- A root is marked when it was visited. -/
theorem mark_visit_root (hc : Counted l g) (hr : root a) : (visit edges root g a).mark a := by
  rw [visit]
  by_cases hd : g.defer a
  · rw [if_pos hd]; exact mark_foldl_push_of (hc.marked a hd)
  · rw [if_neg hd]
    by_cases hm : g.mark a
    · rwa [if_pos hm]
    · rw [if_neg hm, if_pos hr]; exact mark_foldl_push_of (update_self a true g.mark)

/-! ## Passes -/

/-- What a pass over the nodes `vs` does. -/
theorem foldl_visit_spec (hl : l.Nodup) (hedges : ∀ a ∈ l, ∀ b ∈ edges a, b ∈ l) {vs : List α}
    (hvs : ∀ a ∈ vs, a ∈ l) (h : Inv edges root l g) :
    Inv edges root l (vs.foldl (visit edges root) g) ∧
      (∀ x, g.mark x → (vs.foldl (visit edges root) g).mark x ∧
        ((vs.foldl (visit edges root) g).defer x → g.defer x ∧ x ∉ vs)) ∧
      ∀ r ∈ vs, root r → (vs.foldl (visit edges root) g).mark r := by
  induction vs generalizing g with
  | nil =>
    exact ⟨h, fun x hx => ⟨hx, fun hd => ⟨hd, not_mem_nil⟩⟩,
      fun r hr => absurd hr not_mem_nil⟩
  | cons a vs ih =>
    have ha := hvs a mem_cons_self
    obtain ⟨hinv, hmono, hroots⟩ := ih (fun x hx => hvs x (mem_cons_of_mem _ hx))
      (visit_inv hl hedges h ha)
    refine ⟨hinv, ?_, ?_⟩
    · intro x hx
      obtain ⟨hx', hd'⟩ := visit_mono edges root g a hx
      obtain ⟨hx'', hd''⟩ := hmono x hx'
      refine ⟨hx'', fun hd => ?_⟩
      obtain ⟨h1, h2⟩ := hd'' hd
      obtain ⟨h3, h4⟩ := hd' h1
      exact ⟨h3, fun hmem => (mem_cons.mp hmem).elim h4 h2⟩
    · intro r hr hroot
      rcases mem_cons.mp hr with rfl | hr
      · exact (hmono r (mark_visit_root h.counted hroot)).1
      · exact hroots r hr hroot

/-- The number of nodes that are not marked. -/
def unmarked (l : List α) (g : Flags α) : ℕ := l.countP fun a => !g.mark a

/-- If nodes are deferred after a pass, the pass has marked a node. -/
theorem unmarked_pass (hl : l.Nodup) (hedges : ∀ a ∈ l, ∀ b ∈ edges a, b ∈ l)
    (h : Inv edges root l g) (hcount : (pass edges root l g).count ≠ 0) :
    unmarked l (pass edges root l g) < unmarked l g := by
  obtain ⟨hinv, hmono, -⟩ := foldl_visit_spec hl hedges (fun _ ha => ha) h
  -- a deferred node was not marked before
  have hpos : 0 < l.countP (pass edges root l g).defer := by
    have := hinv.counted.count
    simp only [pass] at hcount ⊢; omega
  obtain ⟨a, hal, hda⟩ := countP_pos_iff.mp hpos
  have hma : ¬ g.mark a := fun hm => ((hmono a hm).2 hda).2 hal
  have hma' : (pass edges root l g).mark a := hinv.counted.marked a hda
  -- and the marks stay
  have hle : ∀ xs : List α, unmarked xs (pass edges root l g) ≤ unmarked xs g := by
    intro xs
    refine countP_mono_left fun x _ hx => ?_
    simp only [Bool.not_eq_true'] at hx ⊢
    by_contra hm
    rw [Bool.not_eq_false] at hm
    rw [pass, (hmono x hm).1] at hx
    cases hx
  obtain ⟨xs, ys, rfl⟩ := append_of_mem hal
  have h1 := hle xs
  have h2 := hle ys
  simp only [unmarked, countP_append, countP_cons, hma', hma, Bool.not_true,
    Bool.not_false, if_true, Bool.false_eq_true, if_false] at h1 h2 ⊢
  omega

/-- Enough passes mark what is reachable from the roots. -/
theorem loop_of_inv (hl : l.Nodup) (hedges : ∀ a ∈ l, ∀ b ∈ edges a, b ∈ l) {fuel : ℕ}
    (h : Inv edges root l g) (hfuel : unmarked l g < fuel) :
    ∃ g', loop edges root l fuel g = some g' ∧
      ∀ a, g'.mark a ↔ Reach edges root l a := by
  induction fuel generalizing g with
  | zero => omega
  | succ fuel ih =>
    obtain ⟨hinv, -, hroots⟩ := foldl_visit_spec hl hedges (fun _ ha => ha) h
    rw [loop]
    by_cases hcount : (pass edges root l g).count = 0
    · refine ⟨pass edges root l g, if_pos hcount, fun a => ⟨hinv.sound a, ?_⟩⟩
      -- nothing is deferred, so the marks are closed under the edges
      have hnone : ∀ x, ¬ (pass edges root l g).defer x := by
        intro x hd
        have hx := hinv.counted.mem x (hinv.counted.marked x hd)
        have hpos : 0 < l.countP (pass edges root l g).defer :=
          countP_pos_iff.mpr ⟨x, hx, hd⟩
        have := hinv.counted.count
        simp only [pass] at hcount hpos; omega
      rintro ⟨r, hr, hroot, hpath⟩
      induction hpath with
      | refl => exact hroots r hr hroot
      | tail _ hb hm => exact hinv.scanned _ hm (hnone _) _ hb
    · obtain ⟨g', hg', hmark⟩ := ih hinv (by
        have := unmarked_pass hl hedges h hcount
        rw [pass] at this
        omega)
      exact ⟨g', (if_neg hcount).trans hg', hmark⟩

end Flags

end FreeBSD.Lib
