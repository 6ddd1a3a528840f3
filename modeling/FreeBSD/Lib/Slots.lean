import Mathlib

/-!
# Slots

Items of one size at the multiples of a stride, rounding up to a power of two, and an interval that
lies in a gap between two items.

Results:
* `land_not_mask`, `roundUp_spec`: rounding with a mask.
* `slot_disjoint`, `slot_subset`: the items are apart, and inside their area.
* `gap_iff`: when an interval meets no item.
-/

namespace FreeBSD.Lib

/-! ## Rounding -/

/-- `x` rounded up to a multiple of `2 ^ k`. -/
def roundUp (k x : ℕ) : ℕ := (x + (2 ^ k - 1)) / 2 ^ k * 2 ^ k

theorem roundUp_spec (k x : ℕ) : x ≤ roundUp k x ∧ roundUp k x < x + 2 ^ k := by
  have hpos : 0 < 2 ^ k := Nat.two_pow_pos k
  have hdiv := Nat.div_add_mod (x + (2 ^ k - 1)) (2 ^ k)
  have hmod := Nat.mod_lt (x + (2 ^ k - 1)) hpos
  unfold roundUp
  rw [mul_comm] at hdiv; omega

theorem dvd_roundUp (k x : ℕ) : 2 ^ k ∣ roundUp k x := Dvd.intro_left _ rfl

/-- It is the least multiple. -/
theorem roundUp_le {k x y : ℕ} (hxy : x ≤ y) (hy : 2 ^ k ∣ y) : roundUp k x ≤ y := by
  have hlt := (roundUp_spec k x).2
  by_contra hgt
  have hle := Nat.le_of_dvd (by omega) (Nat.dvd_sub (dvd_roundUp k x) hy); omega

theorem roundUp_of_dvd {k x : ℕ} (hx : 2 ^ k ∣ x) : roundUp k x = x :=
  le_antisymm (roundUp_le (le_refl x) hx) (roundUp_spec k x).1

theorem roundUp_of_mod_ne {k x : ℕ} (hx : x % 2 ^ k ≠ 0) :
    roundUp k x = x / 2 ^ k * 2 ^ k + 2 ^ k := by
  have hpos : 0 < 2 ^ k := Nat.two_pow_pos k
  have hdiv := Nat.div_add_mod x (2 ^ k)
  rw [mul_comm] at hdiv
  apply le_antisymm
  · apply roundUp_le
    · have := Nat.mod_lt x hpos; omega
    · exact Dvd.dvd.add (Dvd.intro_left _ rfl) (dvd_refl _)
  · have hge := (roundUp_spec k x).1
    have hdvd : 2 ^ k ∣ roundUp k x - x / 2 ^ k * 2 ^ k :=
      Nat.dvd_sub (dvd_roundUp k x) (Dvd.intro_left _ rfl)
    have := Nat.le_of_dvd (by omega) hdvd; omega

/-- A word without its low bits. -/
theorem land_not_mask {w k x : ℕ} (hx : x < 2 ^ w) (hk : k ≤ w) :
    x &&& (2 ^ w - 1 - (2 ^ k - 1)) = x / 2 ^ k * 2 ^ k := by
  have hpow : 2 ^ k ≤ 2 ^ w := Nat.pow_le_pow_right two_pos hk
  have hpos : 0 < 2 ^ k := Nat.two_pow_pos k
  have hmask : 2 ^ w - 1 - (2 ^ k - 1) = 2 ^ w - (2 ^ k - 1 + 1) := by omega
  apply Nat.eq_of_testBit_eq
  intro i
  rw [hmask, Nat.testBit_and, Nat.testBit_two_pow_sub_succ (by omega), Nat.testBit_two_pow_sub_one,
    ← Nat.shiftLeft_eq, ← Nat.shiftRight_eq_div_pow, Nat.testBit_shiftLeft,
    Nat.testBit_shiftRight]
  by_cases hki : k ≤ i
  · rw [Nat.add_sub_cancel' hki]
    by_cases hiw : i < w
    · simp [hki, hiw]
    · have hlow : x.testBit i = false :=
        Nat.testBit_lt_two_pow (hx.trans_le (Nat.pow_le_pow_right two_pos (by omega)))
      simp [hlow]
  · simp [hki, Nat.lt_of_not_le hki]

/-! ## Items -/

/-- The item `i` of `size` bytes, at a stride of `r`. -/
def slot (r size i : ℕ) : Set ℕ := Set.Ico (r * i) (r * i + size)

variable {r size i j n a h : ℕ}

theorem mul_succ_le (hij : i < j) : r * i + r ≤ r * j := by
  calc r * i + r = r * (i + 1) := (Nat.mul_succ r i).symm
    _ ≤ r * j := Nat.mul_le_mul_left r hij

theorem disjoint_Ico {s t u v : ℕ} :
    Disjoint (Set.Ico s t) (Set.Ico u v) ↔ t ≤ u ∨ v ≤ s ∨ t ≤ s ∨ v ≤ u := by
  rw [Set.Ico_disjoint_Ico]; omega

theorem slot_disjoint (hsize : size ≤ r) (hij : i ≠ j) :
    Disjoint (slot r size i) (slot r size j) := by
  apply disjoint_Ico.2
  rcases lt_or_gt_of_ne hij with hlt | hgt
  · have := mul_succ_le (r := r) hlt; omega
  · have := mul_succ_le (r := r) hgt; omega

theorem slot_subset (hsize : size ≤ r) (hi : i < n) : slot r size i ⊆ Set.Ico 0 (r * n) := by
  have := mul_succ_le (r := r) hi
  apply Set.Ico_subset_Ico
  · exact Nat.zero_le _
  · omega

/-- An interval meets none of the first `n` items if it starts behind the item of its slot, and ends
    in that slot, as far as these slots have an item. -/
theorem gap_iff (hsize : size ≤ r) (hpos : 0 < size) (hh : 0 < h) :
    (∀ i < n, Disjoint (slot r size i) (Set.Ico a (a + h))) ↔
      (n ≤ a / r ∨ size ≤ a % r) ∧ (n ≤ a / r + 1 ∨ a % r + h ≤ r) := by
  have hdiv := Nat.div_add_mod a r
  have hmod := Nat.mod_lt a (show 0 < r by omega)
  have hsucc : r * (a / r + 1) = r * (a / r) + r := Nat.mul_succ _ _
  constructor
  · intro hall
    refine ⟨?_, ?_⟩
    · by_contra hnot
      have hslot := disjoint_Ico.1 (hall (a / r) (by omega)); omega
    · by_contra hnot
      have hslot := disjoint_Ico.1 (hall (a / r + 1) (by omega))
      rw [hsucc] at hslot; omega
  · rintro ⟨hstart, hstop⟩ i hi
    apply disjoint_Ico.2
    rcases lt_trichotomy i (a / r) with hlt | rfl | hgt
    · have := mul_succ_le (r := r) hlt; omega
    · omega
    · have hle : r * (a / r + 1) ≤ r * i := Nat.mul_le_mul_left r hgt
      rw [hsucc] at hle; omega

end FreeBSD.Lib
