import Mathlib.Tactic

/-!
# Ordered lists of segments

A segment is a pair `(lo, hi)` of a linear order, standing for `lo ≤ x ≤ hi`.
`Ordered` lists have non-empty segments, each ending before the next begins.

Results:
* `Ordered.replace`: a consecutive part of an ordered list can be replaced by
  any ordered list inside its hull.
* `covered_append`, `covered_cons`: the points covered by a list, for computing
  what such a replacement does to them.
* `Ordered.covered_eq_hull`: segments that touch cover their hull.
-/

namespace FreeBSD.Lib.Segments

open List

variable {α : Type*} [LinearOrder α]

/-- Non-empty segments in increasing order, no two of which meet. -/
structure Ordered (l : List (α × α)) : Prop where
  pairwise : l.Pairwise fun a b => a.2 < b.1
  nonempty : ∀ a ∈ l, a.1 ≤ a.2

/-- The points of the segments of a list. -/
def covered (l : List (α × α)) : Set α := {x | ∃ a ∈ l, a.1 ≤ x ∧ x ≤ a.2}

theorem ordered_nil : Ordered ([] : List (α × α)) := ⟨List.Pairwise.nil, by simp⟩

variable {l m : List (α × α)} {a : α × α}

theorem ordered_append :
    Ordered (l ++ m) ↔ Ordered l ∧ Ordered m ∧ ∀ a ∈ l, ∀ b ∈ m, a.2 < b.1 := by
  constructor
  · rintro ⟨hp, hn⟩
    obtain ⟨h1, h2, h3⟩ := pairwise_append.1 hp
    exact ⟨⟨h1, fun a ha => hn a (by simp [ha])⟩, ⟨h2, fun a ha => hn a (by simp [ha])⟩, h3⟩
  · rintro ⟨h1, h2, h3⟩
    refine ⟨pairwise_append.2 ⟨h1.pairwise, h2.pairwise, h3⟩, fun a ha => ?_⟩
    rcases mem_append.1 ha with ha | ha
    · exact h1.nonempty a ha
    · exact h2.nonempty a ha

theorem ordered_cons : Ordered (a :: l) ↔ a.1 ≤ a.2 ∧ (∀ b ∈ l, a.2 < b.1) ∧ Ordered l := by
  constructor
  · rintro ⟨hp, hn⟩
    obtain ⟨h1, h2⟩ := pairwise_cons.1 hp
    exact ⟨hn a (by simp), h1, h2, fun b hb => hn b (by simp [hb])⟩
  · rintro ⟨h1, h2, h3⟩
    refine ⟨pairwise_cons.2 ⟨h2, h3.pairwise⟩, fun b hb => ?_⟩
    rcases mem_cons.1 hb with rfl | hb
    · exact h1
    · exact h3.nonempty b hb

theorem ordered_singleton : Ordered [a] ↔ a.1 ≤ a.2 := by
  simp [ordered_cons, ordered_nil]

/-- A consecutive part of an ordered list can be replaced by any ordered list inside its hull. -/
theorem Ordered.replace {l₁ m m' l₂ : List (α × α)} (h : Ordered (l₁ ++ m ++ l₂))
    (hm : Ordered m') (hlo : ∀ b ∈ m', ∃ a ∈ m, a.1 ≤ b.1) (hhi : ∀ b ∈ m', ∃ a ∈ m, b.2 ≤ a.2) :
    Ordered (l₁ ++ m' ++ l₂) := by
  obtain ⟨h1m, h2, h3⟩ := ordered_append.1 h
  obtain ⟨h1, -, h12⟩ := ordered_append.1 h1m
  refine ordered_append.2 ⟨ordered_append.2 ⟨h1, hm, fun a ha b hb => ?_⟩, h2, fun a ha b hb => ?_⟩
  · obtain ⟨c, hc, hcb⟩ := hlo b hb
    exact lt_of_lt_of_le (h12 a ha c hc) hcb
  · rcases mem_append.1 ha with ha | ha
    · exact h3 a (mem_append_left m ha) b hb
    · obtain ⟨c, hc, hac⟩ := hhi a ha
      exact lt_of_le_of_lt hac (h3 c (mem_append_right l₁ hc) b hb)

theorem mem_covered {x : α} : x ∈ covered l ↔ ∃ a ∈ l, a.1 ≤ x ∧ x ≤ a.2 :=
  Iff.rfl

@[simp] theorem covered_nil : covered ([] : List (α × α)) = ∅ := by
  ext x; simp [mem_covered]

@[simp] theorem covered_append (l m : List (α × α)) : covered (l ++ m) = covered l ∪ covered m := by
  ext x
  simp only [mem_covered, mem_append, Set.mem_union]
  constructor
  · rintro ⟨a, ha | ha, hx⟩
    · exact .inl ⟨a, ha, hx⟩
    · exact .inr ⟨a, ha, hx⟩
  · rintro (⟨a, ha, hx⟩ | ⟨a, ha, hx⟩)
    · exact ⟨a, .inl ha, hx⟩
    · exact ⟨a, .inr ha, hx⟩

@[simp] theorem covered_cons (a : α × α) (l : List (α × α)) :
    covered (a :: l) = Set.Icc a.1 a.2 ∪ covered l := by
  ext x
  simp [mem_covered, Set.mem_Icc]

/-- A segment that meets no segment of `m` meets none of a list that covers no more. -/
theorem apart_of_covered {a s : α × α} (hcov : covered l ⊆ covered m) (ha : a ∈ l) (hne : a.1 ≤ a.2)
    (hs : s.1 ≤ s.2) (h : ∀ g ∈ m, s.2 < g.1 ∨ g.2 < s.1) :
    s.2 < a.1 ∨ a.2 < s.1 := by
  by_contra hnot
  obtain ⟨h1, h2⟩ := not_or.1 hnot
  -- the first common point
  have hx : max a.1 s.1 ∈ covered l :=
    ⟨a, ha, le_max_left _ _, max_le hne (not_lt.1 h2)⟩
  obtain ⟨g, hg, hg1, hg2⟩ := hcov hx
  rcases h g hg with h' | h'
  · exact absurd (lt_of_lt_of_le h' hg1) (not_lt.2 (max_le (not_lt.1 h1) hs))
  · exact absurd (lt_of_le_of_lt hg2 h') (not_lt.2 (le_max_right _ _))

/-! ## Touching segments -/

/-- Each segment begins right after the previous one ends. -/
def Touching [SuccOrder α] (l : List (α × α)) : Prop :=
  l.IsChain fun a b => b.1 = Order.succ a.2

/-- The hull of an ordered list is a non-empty segment. -/
theorem Ordered.hull {a b : α × α} (h : Ordered (a :: l))
    (hb : (a :: l).getLast? = some b) : a.1 ≤ b.2 := by
  have hmem : b ∈ a :: l := mem_of_getLast? hb
  obtain ⟨ha, hlt, -⟩ := ordered_cons.1 h
  rcases mem_cons.1 hmem with rfl | hbl
  · exact ha
  · exact ha.trans ((hlt b hbl).le.trans (h.nonempty b hmem))

/-- Touching segments cover their hull. -/
theorem Ordered.covered_eq_hull [SuccOrder α] {a b : α × α}
    (h : Ordered (a :: l)) (ht : Touching (a :: l)) (hb : (a :: l).getLast? = some b) :
    covered (a :: l) = Set.Icc a.1 b.2 := by
  induction l generalizing a with
  | nil =>
    obtain rfl : a = b := by simpa using hb
    simp
  | cons c l ih =>
    obtain ⟨ha, hlt, hl⟩ := ordered_cons.1 h
    obtain ⟨hac, ht'⟩ := isChain_cons_cons.1 ht
    have hb' : (c :: l).getLast? = some b := by rwa [List.getLast?_cons_cons] at hb
    have hac' := hlt c (by simp)
    rw [covered_cons, ih hl ht' hb']
    ext x
    simp only [Set.mem_union, Set.mem_Icc]
    have hcb := hl.hull hb'
    constructor
    · rintro (⟨h1, h2⟩ | ⟨h1, h2⟩)
      · exact ⟨h1, h2.trans (hac'.le.trans hcb)⟩
      · exact ⟨ha.trans (hac'.le.trans h1), h2⟩
    · rintro ⟨h1, h2⟩
      by_cases hx : x ≤ a.2
      · exact .inl ⟨h1, hx⟩
      · exact .inr ⟨hac ▸ Order.succ_le_of_lt (not_le.1 hx), h2⟩

end FreeBSD.Lib.Segments
