import Mathlib.Tactic

/-!
# Binary heaps in arrays

The keys of an array with `n` entries; the sons of entry `i` are `2 * i + 1` and `2 * i + 2`. No key
is smaller than that of the father.

Results:
* `HeapOrdered.root_le`: the first key is a least one.
* `OrderedBut.swap`, `OrderedBut.finish`: an entry moves up until it is in its place.
* `HoleAt.down`, `HoleAt.fill`: a hole moves down to a leaf, where the last entry fills it.
* `bag_swap`, `bag_drop`: the entries stay the same, or one of them goes.
-/

namespace FreeBSD.Lib

open Function Finset

/-! ## Order -/

section Order

variable {β : Type*} [LinearOrder β] {r r' : ℕ → β} {n i c : ℕ}

def father (i : ℕ) : ℕ := (i - 1) / 2

theorem father_lt (h : 0 < i) : father i < i := by
  unfold father; omega

theorem father_eq_iff {i j : ℕ} (hj : 0 < j) : father j = i ↔ j = 2 * i + 1 ∨ j = 2 * i + 2 := by
  unfold father; omega

/-- No key is smaller than that of the father. -/
def HeapOrdered (r : ℕ → β) (n : ℕ) : Prop := ∀ j, 0 < j → j < n → r (father j) ≤ r j

/-- In order but for entry `i` and its father; the sons of `i` are not smaller than this father. -/
structure OrderedBut (r : ℕ → β) (n i : ℕ) : Prop where
  order : ∀ j, 0 < j → j < n → j ≠ i → r (father j) ≤ r j
  grand : 0 < i → ∀ j, 0 < j → j < n → father j = i → r (father i) ≤ r j

/-- In order but for a hole at `i`. -/
structure HoleAt (r : ℕ → β) (n i : ℕ) : Prop where
  order : ∀ j, 0 < j → j < n → j ≠ i → father j ≠ i → r (father j) ≤ r j
  grand : 0 < i → ∀ j, 0 < j → j < n → father j = i → r (father i) ≤ r j

/-- The first key is a least one. -/
theorem HeapOrdered.root_le (h : HeapOrdered r n) (hi : i < n) : r 0 ≤ r i := by
  induction i using Nat.strong_induction_on with
  | _ i ih =>
    rcases Nat.eq_zero_or_pos i with rfl | hpos
    · exact le_rfl
    · have hlt := father_lt hpos
      exact (ih (father i) hlt (hlt.trans hi)).trans (h i hpos hi)

theorem HeapOrdered.congr (h : HeapOrdered r n) (hr : ∀ j, j < n → r' j = r j) :
    HeapOrdered r' n := by
  intro j hpos hj
  rw [hr j hj, hr _ ((father_lt hpos).trans hj)]; exact h j hpos hj

/-- A new entry at the end. -/
theorem HeapOrdered.snoc (h : HeapOrdered r n) : OrderedBut r (n + 1) n := by
  refine ⟨fun j hpos hj hne => h j hpos (by omega), fun _ j hpos hj hfather => ?_⟩
  have := father_lt hpos; omega

theorem OrderedBut.finish (h : OrderedBut r n i) (hi : i = 0 ∨ r (father i) ≤ r i) :
    HeapOrdered r n := by
  intro j hpos hj
  by_cases hne : j = i
  · subst hne
    rcases hi with rfl | hle
    · omega
    · exact hle
  · exact h.order j hpos hj hne

/-- The entry changes its place with its father. -/
theorem OrderedBut.swap (h : OrderedBut r n i) (hpos : 0 < i) (hi : i < n)
    (hle : r i ≤ r (father i)) : OrderedBut (r ∘ Equiv.swap i (father i)) n (father i) := by
  have hlt := father_lt hpos
  have hleft : (r ∘ Equiv.swap i (father i)) i = r (father i) :=
    congrArg r (Equiv.swap_apply_left _ _)
  have hright : (r ∘ Equiv.swap i (father i)) (father i) = r i :=
    congrArg r (Equiv.swap_apply_right _ _)
  have hother : ∀ j, j ≠ i → j ≠ father i → (r ∘ Equiv.swap i (father i)) j = r j :=
    fun j h1 h2 => congrArg r (Equiv.swap_apply_of_ne_of_ne h1 h2)
  constructor
  · intro j hj hjn hne
    have hfj := father_lt hj
    by_cases hji : j = i
    · subst hji
      rw [hright, hleft]; exact hle
    · rw [hother j hji hne]
      by_cases hf : father j = i
      · rw [hf, hleft]; exact h.grand hpos j hj hjn hf
      · by_cases hf' : father j = father i
        · rw [hf', hright]; exact hle.trans (hf' ▸ h.order j hj hjn hji)
        · rw [hother _ hf hf']; exact h.order j hj hjn hji
  · intro hfpos j hj hjn hf
    have hff := father_lt hfpos
    have hup := h.order (father i) hfpos (by omega) (by omega)
    rw [hother _ (by omega) (by omega)]
    by_cases hji : j = i
    · subst hji
      rw [hleft]; exact hup
    · have hfj := father_lt hj
      rw [hother j hji (by omega)]
      exact hup.trans (hf ▸ h.order j hj hjn hji)

/-- The entry at `i` is taken out. -/
theorem HeapOrdered.hole (h : HeapOrdered r n) (hi : i < n) : HoleAt r n i := by
  refine ⟨fun j hpos hj _ _ => h j hpos hj, fun hpos j hj hjn hf => ?_⟩
  exact (h i hpos hi).trans (hf ▸ h j hj hjn)

/-- The smaller son moves up into the hole. -/
theorem HoleAt.down (h : HoleAt r n i) (hc : 0 < c) (hcn : c < n) (hf : father c = i)
    (hmin : ∀ j, 0 < j → j < n → father j = i → r c ≤ r j) :
    HoleAt (r ∘ Equiv.swap i c) n c := by
  have hlt := father_lt hc
  have hleft : (r ∘ Equiv.swap i c) i = r c := congrArg r (Equiv.swap_apply_left _ _)
  have hother : ∀ j, j ≠ i → j ≠ c → (r ∘ Equiv.swap i c) j = r j :=
    fun j h1 h2 => congrArg r (Equiv.swap_apply_of_ne_of_ne h1 h2)
  constructor
  · intro j hj hjn hne hfc
    have hfj := father_lt hj
    by_cases hji : j = i
    · subst hji
      rw [hleft, hother (father j) (by omega) hfc]
      exact h.grand hj c hc hcn hf
    · rw [hother j hji hne]
      by_cases hfi : father j = i
      · rw [hfi, hleft]; exact hmin j hj hjn hfi
      · rw [hother _ hfi hfc]; exact h.order j hj hjn hji hfi
  · intro _ j hj hjn hfj
    have hlt' := father_lt hj
    rw [hf, hleft, hother j (by omega) (by omega)]
    have := h.order j hj hjn (by omega) (by omega)
    rwa [hfj] at this

/-- The last entry fills a hole that has no sons. -/
theorem HoleAt.fill (h : HoleAt r (n + 1) i) (hleaf : n < 2 * i + 1)
    (hr : ∀ j, j < n → j ≠ i → r' j = r j) : OrderedBut r' n i := by
  have hno : ∀ j, 0 < j → j < n → father j ≠ i := by
    intro j hj hjn hf
    rcases (father_eq_iff hj).1 hf with rfl | rfl
    · omega
    · omega
  refine ⟨fun j hj hjn hne => ?_, fun _ j hj hjn hf => absurd hf (hno j hj hjn)⟩
  have hfj := father_lt hj
  rw [hr j hjn hne, hr _ (by omega) (hno j hj hjn)]
  exact h.order j hj (by omega) hne (hno j hj hjn)

/-- A hole at the end. -/
theorem HoleAt.last (h : HoleAt r (n + 1) n) (hr : ∀ j, j < n → r' j = r j) : HeapOrdered r' n := by
  intro j hj hjn
  have hfj := father_lt hj
  rw [hr j hjn, hr _ (by omega)]
  exact h.order j hj (by omega) (by omega) (by omega)

end Order

/-! ## Entries -/

section Bag

variable {α : Type*} {a a' : ℕ → α} {n i j : ℕ}

/-- The entries of an array. -/
def bag (a : ℕ → α) (n : ℕ) : Multiset α := (Multiset.range n).map a

theorem bag_succ (a : ℕ → α) (n : ℕ) : bag a (n + 1) = a n ::ₘ bag a n := by
  unfold bag
  rw [Multiset.range_succ, Multiset.map_cons]

theorem bag_congr (h : ∀ j, j < n → a' j = a j) : bag a' n = bag a n :=
  Multiset.map_congr rfl fun j hj => h j (Multiset.mem_range.1 hj)

theorem mem_bag {x : α} : x ∈ bag a n ↔ ∃ j < n, a j = x := by
  unfold bag
  rw [Multiset.mem_map]; exact exists_congr fun j => and_congr_left fun _ => Multiset.mem_range

/-- Two entries change places. -/
theorem bag_swap (hi : i < n) (hj : j < n) (a : ℕ → α) : bag (a ∘ Equiv.swap i j) n = bag a n := by
  have hmoved : {k | Equiv.swap i j k ≠ k} ⊆ (Finset.range n : Set ℕ) := by
    intro k hk
    rw [mem_coe, mem_range]
    by_contra hn
    exact hk (Equiv.swap_apply_of_ne_of_ne (by omega) (by omega))
  have hrange : (Multiset.range n).map (Equiv.swap i j) = Multiset.range n := by
    have h := congrArg Finset.val (map_perm hmoved)
    rwa [map_val] at h
  unfold bag
  rw [← Multiset.map_map, hrange]

/-- The last entry takes the place of entry `i`. -/
theorem bag_drop (hi : i < n + 1) (a : ℕ → α) :
    bag a (n + 1) = a i ::ₘ bag (update a i (a n)) n := by
  have hswap : ∀ j, j < n → update a i (a n) j = (a ∘ Equiv.swap i n) j := by
    intro j hj
    show _ = a (Equiv.swap i n j)
    by_cases hji : j = i
    · subst hji
      rw [update_self, Equiv.swap_apply_left]
    · rw [update_of_ne hji, Equiv.swap_apply_of_ne_of_ne hji (by omega)]
  rw [← bag_swap hi (Nat.lt_succ_self n), bag_succ, ← bag_congr hswap]
  show a (Equiv.swap i n n) ::ₘ _ = _
  rw [Equiv.swap_apply_right]

end Bag

end FreeBSD.Lib
