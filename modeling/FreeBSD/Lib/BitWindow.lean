import Mathlib.Tactic

/-!
# A byte string as a window of bits

Bit 0 of a byte string is the lowest bit of its last byte; the bits are counted towards the first
byte.

Results:
* `bit_mark`: or-ing one bit into a byte adds that bit.
* `bit_shift`: bytes that take the high bits of their right neighbour are shifted to the left.
-/

namespace FreeBSD.Lib.BitWindow

open List BitVec

variable {bs bs' : List (BitVec 8)}

/-- Bit `d` of the window; there are none beyond the first byte. -/
def bit (bs : List (BitVec 8)) (d : ℕ) : Bool :=
  decide (d / 8 < bs.length) && (bs.getD (bs.length - 1 - d / 8) 0).getLsbD (d % 8)

theorem bit_of_lt {d : ℕ} (h : d / 8 < bs.length) :
    bit bs d = (bs.getD (bs.length - 1 - d / 8) 0).getLsbD (d % 8) := by
  simp only [bit, h, decide_true, Bool.true_and]

theorem bit_of_le {d : ℕ} (h : bs.length ≤ d / 8) : bit bs d = false := by
  simp only [bit, not_lt.mpr h, decide_false, Bool.false_and]

theorem bit_replicate_zero (n d : ℕ) : bit (List.replicate n 0) d = false := by
  by_cases h : d / 8 < n
  · rw [bit_of_lt (by simpa using h)]
    have hlt : n - 1 - d / 8 < n := by omega
    simp [getD_eq_getElem?_getD, hlt]
  · exact bit_of_le (by simpa using h)

/-- The test of a single bit of a byte. -/
theorem and_shift_ne_zero (b : BitVec 8) {k : ℕ} (hk : k < 8) :
    b &&& (1#8 <<< k) ≠ 0 ↔ b.getLsbD k = true := by
  interval_cases k <;> revert b <;> decide

theorem getLsbD_or_shift (b : BitVec 8) {k : ℕ} (hk : k < 8) (j : ℕ) :
    (b ||| (1#8 <<< k)).getLsbD j = (decide (j = k) || b.getLsbD j) := by
  rw [getLsbD_or, getLsbD_shiftLeft, getLsbD_one]
  by_cases hj : j = k
  · subst hj; simp [hk]
  · have hne : (decide (j < 8) && !decide (j < k) && (decide (0 < 8) && decide (j - k = 0)))
        = false := by
      by_cases hlt : j < k
      · simp [hlt]
      · have : j - k ≠ 0 := by omega
        simp [this]
    rw [hne, Bool.or_false]; simp [hj]

/-- Bit `d` is added by or-ing it into its byte. -/
theorem bit_mark {d : ℕ} (hd : d / 8 < bs.length) (e : ℕ) :
    bit (bs.set (bs.length - 1 - d / 8)
      (bs.getD (bs.length - 1 - d / 8) 0 ||| (1#8 <<< (d % 8)))) e =
      (decide (e = d) || bit bs e) := by
  by_cases he : e / 8 < bs.length
  · rw [bit_of_lt (by simpa using he), bit_of_lt he, length_set]
    by_cases hbyte : e / 8 = d / 8
    · have hlt : bs.length - 1 - d / 8 < bs.length := by omega
      rw [hbyte, getD_eq_getElem?_getD, List.getElem?_set_self hlt, Option.getD_some,
        getLsbD_or_shift _ (Nat.mod_lt _ (by omega))]
      have hiff : e % 8 = d % 8 ↔ e = d := by omega
      simp only [hiff]
    · have hne : bs.length - 1 - d / 8 ≠ bs.length - 1 - e / 8 := by omega
      have hed : e ≠ d := fun h => hbyte (by rw [h])
      rw [getD_eq_getElem?_getD, List.getElem?_set_ne hne, ← getD_eq_getElem?_getD]
      simp only [hed, decide_false, Bool.false_or]
  · have hed : e ≠ d := fun h => he (h ▸ hd)
    rw [bit_of_le (by simpa using he), bit_of_le (by omega)]
    simp only [hed, decide_false, Bool.or_false]

/-- The byte at `k` of the string shifted by `s` bits. -/
def shifted (bs : List (BitVec 8)) (s k : ℕ) : BitVec 8 :=
  bs.getD k 0 <<< s ||| bs.getD (k + 1) 0 >>> (8 - s)

/-- The bits of the bytes that take the high bits of their right neighbour. -/
theorem bit_shift {s : ℕ} (hs : s ≤ 8) (hlen : bs'.length = bs.length)
    (hbyte : ∀ k, k < bs.length → bs'.getD k 0 = shifted bs s k) (d : ℕ) (hd : d / 8 < bs.length) :
    bit bs' d = (decide (s ≤ d) && bit bs (d - s)) := by
  rw [bit_of_lt (by omega), hlen, hbyte _ (by omega), shifted, getLsbD_or,
    getLsbD_shiftLeft, getLsbD_ushiftRight]
  have hmod : d % 8 < 8 := Nat.mod_lt _ (by omega)
  by_cases hlow : d % 8 < s
  · -- the bit comes from the right neighbour
    by_cases hsd : s ≤ d
    · have hdiv : (d - s) / 8 = d / 8 - 1 := by omega
      have hrem : (d - s) % 8 = 8 - s + d % 8 := by omega
      have hidx : bs.length - 1 - d / 8 + 1 = bs.length - 1 - (d / 8 - 1) := by omega
      rw [bit_of_lt (by omega), hdiv, hrem, hidx]
      simp [hlow, hsd]
    · have hend : bs.length - 1 - d / 8 + 1 = bs.length := by omega
      rw [hend]; simp [hlow, hsd]
  · have hsd : s ≤ d := le_trans (by omega) (Nat.mod_le d 8)
    have hdiv : (d - s) / 8 = d / 8 := by omega
    have hrem : (d - s) % 8 = d % 8 - s := by omega
    have hhigh : (bs.getD (bs.length - 1 - d / 8 + 1) 0).getLsbD (8 - s + d % 8) = false :=
      getLsbD_of_ge _ _ (by omega)
    rw [bit_of_lt (by omega), hdiv, hrem, hhigh]
    simp [hlow, hsd, hmod]

end FreeBSD.Lib.BitWindow
