import Mathlib.Tactic

/-!
# Blocks that tile an initial segment

Blocks, indexed by a type, lie one after the other in `0 … tot`: `Tiling`.

Results:
* `Tiling.append`: a block can be added at the end.
* `Tiling.remove`: a block can be removed if those behind it move to the front by its length.
* `Tiling.unique`: a position lies in one block only.
-/

namespace FreeBSD.Lib

variable {ι : Type*}

/-- The blocks `[base i, base i + len i)` of the live indices are not empty, pairwise disjoint, and
    cover `[0, tot)`. -/
structure Tiling (live : ι → Prop) (base len : ι → ℕ) (tot : ℕ) : Prop where
  pos : ∀ i, live i → 0 < len i
  le : ∀ i, live i → base i + len i ≤ tot
  disjoint : ∀ i j, live i → live j → i ≠ j → base i + len i ≤ base j ∨ base j + len j ≤ base i
  cover : ∀ k < tot, ∃ i, live i ∧ base i ≤ k ∧ k < base i + len i

namespace Tiling

variable {live live' : ι → Prop} {base base' len len' : ι → ℕ} {tot : ℕ}

theorem empty (hlive : ∀ i, ¬ live i) : Tiling live base len 0 where
  pos i hi := absurd hi (hlive i)
  le i hi := absurd hi (hlive i)
  disjoint i _ hi _ _ := absurd hi (hlive i)
  cover k hk := by omega

theorem congr (h : Tiling live base len tot) (hlive : ∀ i, live' i ↔ live i)
    (hbase : ∀ i, live i → base' i = base i) (hlen : ∀ i, live i → len' i = len i) :
    Tiling live' base' len' tot where
  pos i hi := by
    rw [hlive] at hi
    rw [hlen i hi]; exact h.pos i hi
  le i hi := by
    rw [hlive] at hi
    rw [hbase i hi, hlen i hi]; exact h.le i hi
  disjoint i j hi hj hij := by
    rw [hlive] at hi hj
    rw [hbase i hi, hlen i hi, hbase j hj, hlen j hj]; exact h.disjoint i j hi hj hij
  cover k hk := by
    obtain ⟨i, hi, h1, h2⟩ := h.cover k hk
    refine ⟨i, (hlive i).2 hi, ?_⟩
    rw [hbase i hi, hlen i hi]; exact ⟨h1, h2⟩

/-- A block of length `n` is added at the end. -/
theorem append (h : Tiling live base len tot) {i : ι} {n : ℕ} (hi : ¬ live i) (hn : 0 < n)
    (hlive : ∀ j, live' j ↔ j = i ∨ live j) (hbase : ∀ j, live j → base' j = base j)
    (hlen : ∀ j, live j → len' j = len j) (hbi : base' i = tot) (hli : len' i = n) :
    Tiling live' base' len' (tot + n) where
  pos j hj := by
    rcases (hlive j).1 hj with rfl | hj
    · omega
    · rw [hlen j hj]; exact h.pos j hj
  le j hj := by
    rcases (hlive j).1 hj with rfl | hj
    · omega
    · have := h.le j hj
      rw [hlen j hj, hbase j hj]; omega
  disjoint j k hj hk hjk := by
    rcases (hlive j).1 hj with rfl | hj <;> rcases (hlive k).1 hk with rfl | hk
    · exact absurd rfl hjk
    · have := h.le k hk
      rw [hlen k hk, hbase k hk]; omega
    · have := h.le j hj
      rw [hlen j hj, hbase j hj]; omega
    · rw [hlen j hj, hbase j hj, hlen k hk, hbase k hk]; exact h.disjoint j k hj hk hjk
  cover k hk := by
    rcases lt_or_ge k tot with hlt | hge
    · obtain ⟨j, hj, h1, h2⟩ := h.cover k hlt
      refine ⟨j, (hlive j).2 (.inr hj), ?_⟩
      rw [hbase j hj, hlen j hj]; exact ⟨h1, h2⟩
    · exact ⟨i, (hlive i).2 (.inl rfl), by omega, by omega⟩

/-- Block `i` is removed, and the blocks behind it move to the front by its length. -/
theorem remove (h : Tiling live base len tot) {i : ι} (hi : live i)
    (hlive : ∀ j, live' j ↔ j ≠ i ∧ live j)
    (hbase : ∀ j, live j → j ≠ i → base' j = if base i < base j then base j - len i else base j)
    (hlen : ∀ j, live j → j ≠ i → len' j = len j) :
    Tiling live' base' len' (tot - len i) where
  pos j hj := by
    obtain ⟨hji, hj⟩ := (hlive j).1 hj
    rw [hlen j hj hji]; exact h.pos j hj
  le j hj := by
    obtain ⟨hji, hj⟩ := (hlive j).1 hj
    have h1 := h.le j hj
    have h2 := h.le i hi
    have h3 := h.disjoint j i hj hi hji
    have h4 := h.pos j hj
    rw [hlen j hj hji, hbase j hj hji]
    split_ifs <;> omega
  disjoint j k hj hk hjk := by
    obtain ⟨hji, hj⟩ := (hlive j).1 hj
    obtain ⟨hki, hk⟩ := (hlive k).1 hk
    have h1 := h.disjoint j k hj hk hjk
    have h2 := h.disjoint j i hj hi hji
    have h3 := h.disjoint k i hk hi hki
    have h4 := h.pos j hj
    have h5 := h.pos k hk
    rw [hlen j hj hji, hbase j hj hji, hlen k hk hki, hbase k hk hki]
    split_ifs <;> omega
  cover k hk := by
    have hle := h.le i hi
    rcases lt_or_ge k (base i) with hlt | hge
    · obtain ⟨j, hj, h1, h2⟩ := h.cover k (by omega)
      have hji : j ≠ i := by rintro rfl; omega
      refine ⟨j, (hlive j).2 ⟨hji, hj⟩, ?_⟩
      rw [hlen j hj hji, hbase j hj hji, if_neg (by omega)]
      exact ⟨h1, h2⟩
    · obtain ⟨j, hj, h1, h2⟩ := h.cover (k + len i) (by omega)
      have hji : j ≠ i := by rintro rfl; omega
      have h3 := h.disjoint j i hj hi hji
      refine ⟨j, (hlive j).2 ⟨hji, hj⟩, ?_⟩
      rw [hlen j hj hji, hbase j hj hji, if_pos (by have := h.pos i hi; omega)]
      have := h.pos i hi; omega

/-- A position lies in one block only. -/
theorem unique (h : Tiling live base len tot) {i j : ι} {k : ℕ} (hi : live i) (hj : live j)
    (hik : base i ≤ k ∧ k < base i + len i) (hjk : base j ≤ k ∧ k < base j + len j) : i = j := by
  by_contra hij
  have := h.disjoint i j hi hj hij; omega

end Tiling

end FreeBSD.Lib
