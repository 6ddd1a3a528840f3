import Mathlib.Tactic

/-!
# Bitmaps of bytes

A bitmap has its bit `i` in the byte `i / 8`, the bits of a byte counted from the lowest.

Results:
* `bit_setBit`, `bit_clrBit`: a bit that is set or cleared, and all others as they were.
* `bit_setBits`, `bit_clrBits`: the same for several bits.
* `countForw_set`, `countForw_clear`, `countBack_set`, `countBack_clear`: how far bits are set.
* `scan_spec`, `skipByte_spec`: the first byte of a kind, or none.
* `firstClear_spec`: the lowest clear bit of a byte.
-/

namespace FreeBSD.Lib.Bitmap

open Function BitVec

variable {a : ℕ → BitVec 8} {i j k n p : ℕ} {b mask : BitVec 8}

/-- Bit `i` of the map. -/
def bit (a : ℕ → BitVec 8) (i : ℕ) : Bool := (a (i / 8)).getLsbD (i % 8)

/-- `a[i / 8] |= 1 << (i % 8)`. -/
def setBit (a : ℕ → BitVec 8) (i : ℕ) : ℕ → BitVec 8 :=
  Function.update a (i / 8) (a (i / 8) ||| 1#8 <<< (i % 8))

/-- `a[i / 8] &= ~(1 << (i % 8))`. -/
def clrBit (a : ℕ → BitVec 8) (i : ℕ) : ℕ → BitVec 8 :=
  Function.update a (i / 8) (a (i / 8) &&& ~~~(1#8 <<< (i % 8)))

/-- `(a[i / 8] & (1 << (i % 8))) == 0`. -/
def isClr (a : ℕ → BitVec 8) (i : ℕ) : Bool := a (i / 8) &&& 1#8 <<< (i % 8) == 0#8

/-- The `n` bits from `i` on are set. -/
def setBits (a : ℕ → BitVec 8) (i : ℕ) : ℕ → ℕ → BitVec 8
  | 0 => a
  | n + 1 => setBits (setBit a i) (i + 1) n

/-- The `n` bits from `i` on are cleared. -/
def clrBits (a : ℕ → BitVec 8) (i : ℕ) : ℕ → ℕ → BitVec 8
  | 0 => a
  | n + 1 => clrBits (clrBit a i) (i + 1) n

/-- How many of the `n` bits from `i` on are set, up to the first clear one. -/
def countForw (a : ℕ → BitVec 8) : ℕ → ℕ → ℕ
  | 0, _ => 0
  | n + 1, i => if bit a i then countForw a n (i + 1) + 1 else 0

/-- How many of the `n` bits in front of `i` are set, up to the first clear one. -/
def countBack (a : ℕ → BitVec 8) : ℕ → ℕ → ℕ
  | 0, _ => 0
  | n + 1, i => if bit a (i - 1) then countBack a n (i - 1) + 1 else 0

/-- What is left of `n` bytes from `p` on, from the first one where `stop` holds. -/
def scan (stop : BitVec 8 → Bool) (a : ℕ → BitVec 8) : ℕ → ℕ → ℕ
  | 0, _ => 0
  | n + 1, p => if stop (a p) then n + 1 else scan stop a n (p + 1)

/-- The bytes from `p` on that are `mask` are skipped. -/
def skipByte (mask : BitVec 8) (a : ℕ → BitVec 8) : ℕ → ℕ → ℕ := scan (fun b => b != mask) a

/-- The lowest clear bit of a byte. -/
def firstClear (b : BitVec 8) : Option ℕ :=
  (List.range 8).find? fun j => b &&& 1#8 <<< j == 0#8

/-! ## Single bits -/

theorem getLsbD_one_shiftLeft (hk : k < 8) (j : ℕ) :
    (1#8 <<< k).getLsbD j = decide (j = k) := by
  rw [getLsbD_shiftLeft, getLsbD_one]
  by_cases hj : j = k
  · simp [hj, hk]
  · have hne : j < k ∨ j - k ≠ 0 := by omega
    rcases hne with hlt | hne
    · simp [hlt, hj]
    · simp [hne, hj]

/-- A mask of one bit tests that bit. -/
theorem and_bit_eq_zero (hk : k < 8) : (b &&& 1#8 <<< k == 0#8) = !b.getLsbD k := by
  rw [Bool.eq_iff_iff, beq_iff_eq, Bool.not_eq_true']
  constructor
  · intro h
    have hbit := congrArg (fun x => BitVec.getLsbD x k) h
    simpa [getLsbD_one_shiftLeft hk] using hbit
  · intro h
    refine eq_of_getLsbD_eq fun j hj => ?_
    rw [getLsbD_and, getLsbD_one_shiftLeft hk, getLsbD_zero]
    by_cases hjk : j = k
    · rw [hjk, h, Bool.false_and]
    · rw [decide_eq_false hjk, Bool.and_false]

theorem isClr_eq (a : ℕ → BitVec 8) (i : ℕ) : isClr a i = !bit a i :=
  and_bit_eq_zero (Nat.mod_lt i (by decide))

theorem bit_setBit (a : ℕ → BitVec 8) (i j : ℕ) :
    bit (setBit a i) j = (decide (j = i) || bit a j) := by
  rw [bit, bit, setBit]
  by_cases hbyte : j / 8 = i / 8
  · rw [hbyte, update_self, getLsbD_or,
      getLsbD_one_shiftLeft (Nat.mod_lt i (by decide)), Bool.or_comm]
    congr 1
    exact decide_eq_decide.2 ⟨fun h => by omega, fun h => by rw [h]⟩
  · have hne : j ≠ i := fun h => hbyte (by rw [h])
    rw [update_of_ne hbyte, decide_eq_false hne, Bool.false_or]

theorem bit_clrBit (a : ℕ → BitVec 8) (i j : ℕ) :
    bit (clrBit a i) j = (!decide (j = i) && bit a j) := by
  rw [bit, bit, clrBit]
  by_cases hbyte : j / 8 = i / 8
  · have hbit : j % 8 < 8 := Nat.mod_lt j (by decide)
    rw [hbyte, update_self, getLsbD_and, getLsbD_not,
      getLsbD_one_shiftLeft (Nat.mod_lt i (by decide)), decide_eq_true hbit, Bool.true_and,
      Bool.and_comm]
    congr 2
    exact decide_eq_decide.2 ⟨fun h => by omega, fun h => by rw [h]⟩
  · have hne : j ≠ i := fun h => hbyte (by rw [h])
    rw [update_of_ne hbyte, decide_eq_false hne, Bool.not_false, Bool.true_and]

/-! ## Several bits -/

theorem bit_setBits (a : ℕ → BitVec 8) (i n j : ℕ) :
    bit (setBits a i n) j = (decide (i ≤ j ∧ j < i + n) || bit a j) := by
  induction n generalizing a i with
  | zero =>
    rw [setBits, decide_eq_false (by omega), Bool.false_or]
  | succ n ih =>
    rw [setBits, ih, bit_setBit, ← Bool.or_assoc, ← Bool.decide_or]
    congr 1
    exact decide_eq_decide.2 (by omega)

theorem bit_clrBits (a : ℕ → BitVec 8) (i n j : ℕ) :
    bit (clrBits a i n) j = (!decide (i ≤ j ∧ j < i + n) && bit a j) := by
  induction n generalizing a i with
  | zero =>
    rw [clrBits, decide_eq_false (by omega), Bool.not_false, Bool.true_and]
  | succ n ih =>
    rw [clrBits, ih, bit_clrBit, ← Bool.and_assoc, ← Bool.not_or, ← Bool.decide_or]
    congr 2
    exact decide_eq_decide.2 (by omega)

theorem countForw_le (a : ℕ → BitVec 8) (n i : ℕ) : countForw a n i ≤ n := by
  induction n generalizing i with
  | zero => exact le_rfl
  | succ n ih =>
    rw [countForw]
    split
    · exact Nat.succ_le_succ (ih (i + 1))
    · exact Nat.zero_le _

theorem countForw_set (a : ℕ → BitVec 8) (n i j : ℕ) (hij : i ≤ j)
    (hj : j < i + countForw a n i) : bit a j = true := by
  induction n generalizing i with
  | zero =>
    rw [countForw] at hj; omega
  | succ n ih =>
    rw [countForw] at hj
    split at hj
    · next hset =>
      by_cases hne : j = i
      · rwa [hne]
      · exact ih (i + 1) (by omega) (by omega)
    · omega

theorem countForw_clear (a : ℕ → BitVec 8) (n i : ℕ) (h : countForw a n i < n) :
    bit a (i + countForw a n i) = false := by
  induction n generalizing i with
  | zero => exact absurd h (Nat.not_lt_zero _)
  | succ n ih =>
    rw [countForw] at h ⊢
    split
    · next hset =>
      rw [if_pos hset] at h
      rw [show i + (countForw a n (i + 1) + 1) = i + 1 + countForw a n (i + 1) by omega]
      exact ih (i + 1) (by omega)
    · next hset =>
      exact Bool.eq_false_of_not_eq_true hset

theorem countBack_le (a : ℕ → BitVec 8) (n i : ℕ) : countBack a n i ≤ n := by
  induction n generalizing i with
  | zero => exact le_rfl
  | succ n ih =>
    rw [countBack]
    split
    · exact Nat.succ_le_succ (ih (i - 1))
    · exact Nat.zero_le _

theorem countBack_set (a : ℕ → BitVec 8) (n i j : ℕ) (hn : n ≤ i) (hji : j < i)
    (hj : i ≤ j + countBack a n i) : bit a j = true := by
  induction n generalizing i with
  | zero =>
    rw [countBack] at hj; omega
  | succ n ih =>
    rw [countBack] at hj
    split at hj
    · next hset =>
      by_cases hne : j = i - 1
      · rwa [hne]
      · exact ih (i - 1) (by omega) (by omega) (by omega)
    · omega

theorem countBack_clear (a : ℕ → BitVec 8) (n i : ℕ) (h : countBack a n i < n) :
    bit a (i - countBack a n i - 1) = false := by
  induction n generalizing i with
  | zero => exact absurd h (Nat.not_lt_zero _)
  | succ n ih =>
    rw [countBack] at h ⊢
    split
    · next hset =>
      rw [if_pos hset] at h
      rw [show i - (countBack a n (i - 1) + 1) - 1 = i - 1 - countBack a n (i - 1) - 1 by omega]
      exact ih (i - 1) (by omega)
    · next hset =>
      exact Bool.eq_false_of_not_eq_true hset

/-! ## Scans -/

/-- The first byte where `stop` holds, or none. -/
theorem scan_spec (stop : BitVec 8 → Bool) (a : ℕ → BitVec 8) (n p : ℕ) :
    scan stop a n p = 0 ∧ (∀ q, p ≤ q → q < p + n → stop (a q) = false) ∨
      ∃ q, p ≤ q ∧ q < p + n ∧ scan stop a n p = p + n - q ∧ stop (a q) = true ∧
        ∀ r, p ≤ r → r < q → stop (a r) = false := by
  induction n generalizing p with
  | zero => exact .inl ⟨rfl, fun q hp hq => by omega⟩
  | succ n ih =>
    rw [scan]
    by_cases hb : stop (a p) = true
    · rw [if_pos hb]; exact .inr ⟨p, le_rfl, by omega, by omega, hb, fun r hp hr => by omega⟩
    · rw [if_neg hb]
      -- the byte is passed over
      have hfirst : ∀ q, p ≤ q → ¬p + 1 ≤ q → stop (a q) = false := fun q hp hq => by
        obtain rfl : q = p := by omega
        exact Bool.eq_false_of_not_eq_true hb
      rcases ih (p + 1) with ⟨hzero, hall⟩ | ⟨q, hpq, hqn, hq, hne, hall⟩
      · refine .inl ⟨hzero, fun q hp hq => ?_⟩
        by_cases hpq : p + 1 ≤ q
        · exact hall q hpq (by omega)
        · exact hfirst q hp hpq
      · refine .inr ⟨q, by omega, by omega, by omega, hne, fun r hp hr => ?_⟩
        by_cases hpr : p + 1 ≤ r
        · exact hall r hpr hr
        · exact hfirst r hp hpr

/-- The first byte that is not the given one, or none. -/
theorem skipByte_spec (mask : BitVec 8) (a : ℕ → BitVec 8) (n p : ℕ) :
    skipByte mask a n p = 0 ∧ (∀ q, p ≤ q → q < p + n → a q = mask) ∨
      ∃ q, p ≤ q ∧ q < p + n ∧ skipByte mask a n p = p + n - q ∧ a q ≠ mask ∧
        ∀ r, p ≤ r → r < q → a r = mask := by
  have hspec := scan_spec (fun b => b != mask) a n p
  simpa only [skipByte, bne_iff_ne, bne_eq_false_iff_eq] using hspec

/-- The lowest clear bit of a byte. -/
theorem firstClear_spec (h : b ≠ BitVec.allOnes 8) :
    ∃ j < 8, firstClear b = some j ∧ b.getLsbD j = false ∧ ∀ k < j, b.getLsbD k = true := by
  have hclear : ∃ j < 8, b.getLsbD j = false := by
    by_contra hnone
    refine h (eq_of_getLsbD_eq fun j hj => ?_)
    have hset : b.getLsbD j ≠ false := fun hfalse => hnone ⟨j, hj, hfalse⟩
    rw [Bool.eq_true_of_not_eq_false hset, getLsbD_allOnes, decide_eq_true hj]
  obtain ⟨j, hj, hjf⟩ := hclear
  cases hfind : firstClear b with
  | none =>
    have hall := List.find?_eq_none.1 hfind j (List.mem_range.2 hj)
    rw [and_bit_eq_zero hj, hjf] at hall; exact absurd rfl hall
  | some k =>
    obtain ⟨hk, hmem, hbefore⟩ := List.find?_range_eq_some.1 hfind
    have hklt : k < 8 := List.mem_range.1 hmem
    rw [and_bit_eq_zero hklt, Bool.not_eq_true'] at hk
    refine ⟨k, hklt, rfl, hk, fun i hi => ?_⟩
    have hset := hbefore i hi
    rwa [and_bit_eq_zero (hi.trans hklt), Bool.not_not] at hset

end FreeBSD.Lib.Bitmap
