import Mathlib.Tactic
import Mathlib.Logic.Relation

/-!
# Topological order and ranks

The nodes of a graph are listed so that each comes after the nodes that it depends on, and the rank
of a node is one more than the largest rank of these.

Results:
* `Placed.append_iff`, `Placed.mono`: a list that is placed, part by part.
* `Ranked.unique`: a placed list has only one ranking.
* `Ranked.irrefl`: a graph that has a ranking has no cycle.
-/

namespace FreeBSD.Lib

open Relation List

variable {α : Type*} {deps : α → List α} {r r' : α → ℕ} {C D : Set α} {l m : List α} {x y : α}

/-- Each node of the list depends only on nodes before it and on nodes of `C`. -/
def Placed (deps : α → List α) : Set α → List α → Prop
  | _, [] => True
  | C, x :: l => (∀ d ∈ deps x, d ∈ C) ∧ Placed deps (insert x C) l

/-- One more than the largest rank of the nodes, and one where there is none. -/
def level (r : α → ℕ) (ds : List α) : ℕ := 1 + (ds.map r).foldr max 0

/-- Each node of the list has the rank that those it depends on give it. -/
def Ranked (deps : α → List α) (r : α → ℕ) (l : List α) : Prop :=
  ∀ x ∈ l, r x = level r (deps x)

/-- `x` depends on `y`. -/
def Needs (deps : α → List α) (x y : α) : Prop := y ∈ deps x

/-! ## Order -/

theorem Placed.mono (h : Placed deps C l) (hCD : C ⊆ D) : Placed deps D l := by
  induction l generalizing C D with
  | nil => trivial
  | cons x l ih => exact ⟨fun d hd => hCD (h.1 d hd), ih h.2 (Set.insert_subset_insert hCD)⟩

theorem Placed.append_iff :
    Placed deps C (l ++ m) ↔ Placed deps C l ∧ Placed deps (C ∪ {x | x ∈ l}) m := by
  induction l generalizing C with
  | nil =>
    have hC : C ∪ {x | x ∈ ([] : List α)} = C := by
      ext x
      simp
    rw [nil_append, hC]; exact ⟨fun h => ⟨trivial, h⟩, fun h => h.2⟩
  | cons x l ih =>
    have hC : insert x C ∪ {y | y ∈ l} = C ∪ {y | y ∈ x :: l} := by
      ext y
      simp only [Set.mem_union, Set.mem_insert_iff, Set.mem_ofPred_eq, mem_cons]; tauto
    rw [cons_append, Placed, ih, hC, Placed, and_assoc]

theorem placed_singleton : Placed deps C [x] ↔ ∀ d ∈ deps x, d ∈ C :=
  ⟨fun h => h.1, fun h => ⟨h, trivial⟩⟩

/-- The dependences may change at nodes that are not in the list. -/
theorem Placed.congr {deps' : α → List α} (h : Placed deps C l)
    (hdeps : ∀ x ∈ l, deps' x = deps x) : Placed deps' C l := by
  induction l generalizing C with
  | nil => trivial
  | cons x l ih =>
    refine ⟨?_, ih h.2 fun y hy => hdeps y (mem_cons_of_mem x hy)⟩
    rw [hdeps x mem_cons_self]; exact h.1

/-- What a node of the list depends on is in `C` or in the list. -/
theorem Placed.dep_mem (h : Placed deps C l) (hx : x ∈ l) (hy : y ∈ deps x) : y ∈ C ∨ y ∈ l := by
  induction l generalizing C with
  | nil => exact absurd hx not_mem_nil
  | cons z l ih =>
    rcases mem_cons.1 hx with rfl | hx
    · exact .inl (h.1 y hy)
    · rcases ih h.2 hx with hmem | hmem
      · rcases hmem with rfl | hmem
        · exact .inr mem_cons_self
        · exact .inl hmem
      · exact .inr (mem_cons_of_mem z hmem)

/-! ## Ranks -/

theorem level_pos (r : α → ℕ) (ds : List α) : 0 < level r ds := Nat.add_pos_left Nat.one_pos _

theorem le_foldr_max {ns : List ℕ} {n : ℕ} (h : n ∈ ns) : n ≤ ns.foldr max 0 := by
  induction ns with
  | nil => exact absurd h not_mem_nil
  | cons k ns ih =>
    rcases mem_cons.1 h with rfl | h
    · exact le_max_left _ _
    · exact (ih h).trans (le_max_right _ _)

theorem lt_level (h : y ∈ deps x) : r y < level r (deps x) := by
  have hle := le_foldr_max (mem_map_of_mem (f := r) h)
  rw [level]; omega

theorem level_congr {ds : List α} (h : ∀ d ∈ ds, r d = r' d) : level r ds = level r' ds := by
  rw [level, level, map_congr_left h]

theorem Ranked.pos (h : Ranked deps r l) (hx : x ∈ l) : 0 < r x := by
  rw [h x hx]; exact level_pos r _

theorem Ranked.append_iff : Ranked deps r (l ++ m) ↔ Ranked deps r l ∧ Ranked deps r m := by
  rw [Ranked, forall_mem_append]; exact Iff.rfl

/-- The ranks of a placed list follow from those of what it builds on. -/
theorem Ranked.unique (hp : Placed deps C l) (h : Ranked deps r l) (h' : Ranked deps r' l)
    (hC : ∀ c ∈ C, r c = r' c) : ∀ x ∈ l, r x = r' x := by
  induction l generalizing C with
  | nil => exact fun x hx => absurd hx not_mem_nil
  | cons z l ih =>
    have hz : r z = r' z := by
      rw [h z mem_cons_self, h' z mem_cons_self]
      exact level_congr fun d hd => hC d (hp.1 d hd)
    have hC' : ∀ c ∈ insert z C, r c = r' c := fun c hc => by
      rcases hc with rfl | hc
      · exact hz
      · exact hC c hc
    intro x hx
    rcases mem_cons.1 hx with rfl | hx
    · exact hz
    · exact ih hp.2 (fun y hy => h y (mem_cons_of_mem z hy))
        (fun y hy => h' y (mem_cons_of_mem z hy)) hC' x hx

/-- The ranks of the list do not change when others do. -/
theorem Ranked.congr (hp : Placed deps C l) (h : Ranked deps r l) (hl : ∀ x ∈ l, r' x = r x)
    (hC : ∀ c ∈ C, r' c = r c) : Ranked deps r' l := by
  intro x hx
  rw [hl x hx, h x hx]
  refine level_congr fun d hd => ?_
  rcases hp.dep_mem hx hd with hmem | hmem
  · exact (hC d hmem).symm
  · exact (hl d hmem).symm

/-- Along the dependences the ranks decrease. -/
theorem Ranked.lt (h : ∀ x, ∀ y ∈ deps x, x ∈ l) (hr : Ranked deps r l)
    (hxy : TransGen (Needs deps) x y) : r y < r x := by
  induction hxy with
  | single hdep =>
    rw [hr _ (h _ _ hdep)]; exact lt_level hdep
  | tail _ hdep ih =>
    refine lt_trans ?_ ih
    rw [hr _ (h _ _ hdep)]; exact lt_level hdep

/-- A graph that has a ranking has no cycle. -/
theorem Ranked.irrefl (h : ∀ x, ∀ y ∈ deps x, x ∈ l) (hr : Ranked deps r l) (x : α) :
    ¬TransGen (Needs deps) x x :=
  fun hx => lt_irrefl _ (hr.lt h hx)

end FreeBSD.Lib
