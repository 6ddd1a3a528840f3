import Mathlib.Tactic

/-!
# Long division

Numbers as digits in memory, the most significant one first, and the arithmetic of one step of a
long division: the estimate of a quotient digit from the first digits, and its correction.

Results:
* `digitVal_lt`, `digitVal_add`, `digitVal_eq_zero`: the value of a row of digits.
* `shiftLeft_digits`, `shiftRight_digits`: a shift by less than a digit.
* `quotient_lt`, `le_quotient_succ`: bounds of the estimate.
* `corrected`: the estimate after the subtraction.
-/

namespace FreeBSD.Lib

/-! ## Rows of digits -/

/-- The number with the `n` digits of `a` from `i` on. -/
def digitVal (b : ℕ) (a : ℕ → ℕ) (i : ℕ) : ℕ → ℕ
  | 0 => 0
  | n + 1 => digitVal b a i n * b + a (i + n)

variable {b : ℕ} {a c : ℕ → ℕ} {i k n : ℕ}

theorem digitVal_congr (h : ∀ j, i ≤ j → j < i + n → a j = c j) :
    digitVal b a i n = digitVal b c i n := by
  induction n with
  | zero => rfl
  | succ n ih =>
    rw [digitVal, digitVal, ih fun j hj hj' => h j hj (by omega), h (i + n) (by omega) (by omega)]

theorem digitVal_lt (h : ∀ j, i ≤ j → j < i + n → a j < b) : digitVal b a i n < b ^ n := by
  induction n with
  | zero => exact one_pos
  | succ n ih =>
    have hlow := h (i + n) (by omega) (by omega)
    have hhigh := ih fun j hj hj' => h j hj (by omega)
    calc digitVal b a i n * b + a (i + n) < digitVal b a i n * b + b := by omega
      _ = (digitVal b a i n + 1) * b := (Nat.succ_mul _ _).symm
      _ ≤ b ^ n * b := Nat.mul_le_mul_right b hhigh
      _ = b ^ (n + 1) := (pow_succ b n).symm

/-- A row in two parts. -/
theorem digitVal_add (b : ℕ) (a : ℕ → ℕ) (i k n : ℕ) :
    digitVal b a i (k + n) = digitVal b a i k * b ^ n + digitVal b a (i + k) n := by
  induction n with
  | zero => simp [digitVal]
  | succ n ih =>
    show digitVal b a i (k + n) * b + a (i + (k + n)) = _
    rw [ih, digitVal, pow_succ, add_assoc i k n]; ring

theorem digitVal_one (b : ℕ) (a : ℕ → ℕ) (i : ℕ) : digitVal b a i 1 = a i := by
  simp [digitVal]

theorem digitVal_cons (b : ℕ) (a : ℕ → ℕ) (i n : ℕ) :
    digitVal b a i (n + 1) = a i * b ^ n + digitVal b a (i + 1) n := by
  rw [add_comm n 1, digitVal_add, digitVal_one]

/-- A small number has no high part. -/
theorem digitVal_eq_zero (h : digitVal b a i (k + n) < b ^ n) : digitVal b a i k = 0 := by
  rw [digitVal_add] at h
  by_contra hne
  have hle : 1 * b ^ n ≤ digitVal b a i k * b ^ n :=
    Nat.mul_le_mul_right _ (Nat.one_le_iff_ne_zero.2 hne)
  omega

theorem digitVal_of_zero (h : ∀ j, i ≤ j → j < i + n → a j = 0) : digitVal b a i n = 0 := by
  induction n with
  | zero => rfl
  | succ n ih =>
    rw [digitVal, ih fun j hj hj' => h j hj (by omega), h (i + n) (by omega) (by omega)]
    simp

/-! ## Shifts -/

section Shift

variable {s t : ℕ}

/-- A shift to the left, where `b = s * t`: the digit `j` gets the high part of the next one. -/
theorem shiftLeft_digits (hb : b = s * t)
    (h : ∀ j, i ≤ j → j < i + n → c j = a j % t * s + a (j + 1) / t) :
    digitVal b c i n + a i / t * b ^ n = digitVal b a i n * s + a (i + n) / t := by
  induction n with
  | zero => simp [digitVal]
  | succ n ih =>
    have hprev := ih fun j hj hj' => h j hj (by omega)
    have hdigit := h (i + n) (by omega) (by omega)
    have hsplit : a (i + n) * s = a (i + n) / t * b + a (i + n) % t * s := by
      conv_lhs => rw [← Nat.div_add_mod (a (i + n)) t]
      rw [hb]; ring
    calc digitVal b c i n * b + c (i + n) + a i / t * b ^ (n + 1)
        = (digitVal b c i n + a i / t * b ^ n) * b + c (i + n) := by ring
      _ = digitVal b a i n * s * b + (a (i + n) / t * b + a (i + n) % t * s) +
            a (i + (n + 1)) / t := by
          rw [hprev, hdigit, add_assoc i n 1]; ring
      _ = (digitVal b a i n * b + a (i + n)) * s + a (i + (n + 1)) / t := by rw [← hsplit]; ring

/-- A shift to the right, where `b = s * t`: the digit `j + 1` gets the low part of the one
    before. -/
theorem shiftRight_digits (hb : b = s * t)
    (h : ∀ j, i ≤ j → j < i + n → c (j + 1) = a (j + 1) / s + a j % s * t) :
    digitVal b c (i + 1) n * s + a (i + n) % s + a i / s * s * b ^ n =
      digitVal b a i (n + 1) := by
  induction n with
  | zero =>
    simp only [digitVal, add_zero, pow_zero, mul_one, zero_mul, zero_add]
    exact Nat.mod_add_div' (a i) s
  | succ n ih =>
    have hprev := ih fun j hj hj' => h j hj (by omega)
    have hdigit := h (i + n) (by omega) (by omega)
    have hsplit : a (i + (n + 1)) / s * s + a (i + (n + 1)) % s = a (i + (n + 1)) :=
      Nat.div_add_mod' _ _
    calc (digitVal b c (i + 1) n * b + c (i + 1 + n)) * s + a (i + (n + 1)) % s +
          a i / s * s * b ^ (n + 1)
        = (digitVal b c (i + 1) n * s + a i / s * s * b ^ n) * b + c (i + n + 1) * s +
            a (i + (n + 1)) % s := by
          rw [show i + 1 + n = i + n + 1 by omega]
          ring
      _ = (digitVal b c (i + 1) n * s + a (i + n) % s + a i / s * s * b ^ n) * b +
            (a (i + (n + 1)) / s * s + a (i + (n + 1)) % s) := by
          rw [hdigit, hb, show i + n + 1 = i + (n + 1) by omega]
          ring
      _ = digitVal b a i (n + 1) * b + a (i + (n + 1)) := by
          rw [hprev, hsplit]

end Shift

/-! ## A quotient digit -/

section Quotient

variable {W V U₃ V₃ q s M W' : ℕ}

/-- An estimate that is too large for the first digits is too large. -/
theorem quotient_lt (hW : W < (U₃ + 1) * s) (hV : V₃ * s ≤ V) (hq : U₃ < q * V₃) : W / V < q := by
  apply Nat.div_lt_of_lt_mul
  calc W < (U₃ + 1) * s := hW
    _ ≤ q * V₃ * s := Nat.mul_le_mul_right s hq
    _ = q * (V₃ * s) := mul_assoc _ _ _
    _ ≤ q * V := Nat.mul_le_mul_left q hV
    _ = V * q := mul_comm _ _

/-- An estimate that fits the first digits is at most one too large. -/
theorem le_quotient_succ (hW : U₃ * s ≤ W) (hV : V < (V₃ + 1) * s) (hq : q * V₃ ≤ U₃)
    (hqs : q * s ≤ V) : q ≤ W / V + 1 := by
  have hpos : 0 < V ∨ q = 0 := by
    rcases Nat.eq_zero_or_pos V with rfl | hpos
    · right
      rcases Nat.mul_eq_zero.1 (Nat.le_zero.1 hqs) with hq0 | hs0
      · exact hq0
      · rw [hs0, mul_zero] at hV; omega
    · exact .inl hpos
  rcases hpos with hpos | rfl
  · have hle : q * V ≤ W + V := by
      calc q * V ≤ q * ((V₃ + 1) * s) := Nat.mul_le_mul_left q hV.le
        _ = q * V₃ * s + q * s := by ring
        _ ≤ U₃ * s + V := Nat.add_le_add (Nat.mul_le_mul_right s hq) hqs
        _ ≤ W + V := Nat.add_le_add_right hW V
    have hpred : (q - 1) * V ≤ W := by rw [Nat.sub_mul, one_mul]; omega
    have := (Nat.le_div_iff_mul_le hpos).2 hpred; omega
  · exact Nat.zero_le _

/-- The difference is negative if and only if the estimate was one too large. -/
theorem corrected {neg : ℕ} (hneg : neg ≤ 1) (hV : 0 < V) (hlow : W / V ≤ q) (hhigh : q ≤ W / V + 1)
    (hVM : V ≤ M) (hW' : W' < M) (hsub : W' + q * V = W + neg * M) :
    (neg = 0 ∧ q = W / V ∧ W' = W % V) ∨ (neg = 1 ∧ q = W / V + 1 ∧ W' + V = M + W % V) := by
  have hdiv := Nat.div_add_mod W V
  have hmod := Nat.mod_lt W hV
  rw [mul_comm] at hdiv
  obtain hq | hq : q = W / V ∨ q = W / V + 1 := by omega
  · left
    rw [hq] at hsub
    obtain rfl | rfl : neg = 0 ∨ neg = 1 := by omega
    · exact ⟨rfl, hq, by omega⟩
    · omega
  · right
    rw [hq, Nat.succ_mul] at hsub
    obtain rfl | rfl : neg = 0 ∨ neg = 1 := by omega
    · omega
    · exact ⟨rfl, hq, by omega⟩

end Quotient

end FreeBSD.Lib
