import FreeBSD.Lib.Bitmap
import FreeBSD.Lib.BitRuns

/-!
# The tables of the fragment map, `ufs/ffs/ffs_tables.c`

A byte of the map of free fragments holds `8 / frag` blocks. `fragtbl` says of a byte which lengths
of runs of free fragments it has in its blocks; `around` and `inside` are the pattern of a run with
the bits on both sides of it.
-/

namespace FreeBSD.Ffs

open Lib.Bitmap Lib.BitRuns List

/-- `around` (line 47). -/
def around : List ℕ := [0x3, 0x7, 0xf, 0x1f, 0x3f, 0x7f, 0xff, 0x1ff, 0x3ff]

/-- `inside` (line 50). -/
def inside : List ℕ := [0x0, 0x2, 0x6, 0xe, 0x1e, 0x3e, 0x7e, 0xfe, 0x1fe]

/-- `fragtbl124` (line 66). -/
def fragtbl124 : List ℕ := [
  0x00, 0x16, 0x16, 0x2a, 0x16, 0x16, 0x26, 0x4e, 0x16, 0x16, 0x16, 0x3e, 0x2a, 0x3e, 0x4e, 0x8a,
  0x16, 0x16, 0x16, 0x3e, 0x16, 0x16, 0x36, 0x5e, 0x16, 0x16, 0x16, 0x3e, 0x3e, 0x3e, 0x5e, 0x9e,
  0x16, 0x16, 0x16, 0x3e, 0x16, 0x16, 0x36, 0x5e, 0x16, 0x16, 0x16, 0x3e, 0x3e, 0x3e, 0x5e, 0x9e,
  0x2a, 0x3e, 0x3e, 0x2a, 0x3e, 0x3e, 0x2e, 0x6e, 0x3e, 0x3e, 0x3e, 0x3e, 0x2a, 0x3e, 0x6e, 0xaa,
  0x16, 0x16, 0x16, 0x3e, 0x16, 0x16, 0x36, 0x5e, 0x16, 0x16, 0x16, 0x3e, 0x3e, 0x3e, 0x5e, 0x9e,
  0x16, 0x16, 0x16, 0x3e, 0x16, 0x16, 0x36, 0x5e, 0x16, 0x16, 0x16, 0x3e, 0x3e, 0x3e, 0x5e, 0x9e,
  0x26, 0x36, 0x36, 0x2e, 0x36, 0x36, 0x26, 0x6e, 0x36, 0x36, 0x36, 0x3e, 0x2e, 0x3e, 0x6e, 0xae,
  0x4e, 0x5e, 0x5e, 0x6e, 0x5e, 0x5e, 0x6e, 0x4e, 0x5e, 0x5e, 0x5e, 0x7e, 0x6e, 0x7e, 0x4e, 0xce,
  0x16, 0x16, 0x16, 0x3e, 0x16, 0x16, 0x36, 0x5e, 0x16, 0x16, 0x16, 0x3e, 0x3e, 0x3e, 0x5e, 0x9e,
  0x16, 0x16, 0x16, 0x3e, 0x16, 0x16, 0x36, 0x5e, 0x16, 0x16, 0x16, 0x3e, 0x3e, 0x3e, 0x5e, 0x9e,
  0x16, 0x16, 0x16, 0x3e, 0x16, 0x16, 0x36, 0x5e, 0x16, 0x16, 0x16, 0x3e, 0x3e, 0x3e, 0x5e, 0x9e,
  0x3e, 0x3e, 0x3e, 0x3e, 0x3e, 0x3e, 0x3e, 0x7e, 0x3e, 0x3e, 0x3e, 0x3e, 0x3e, 0x3e, 0x7e, 0xbe,
  0x2a, 0x3e, 0x3e, 0x2a, 0x3e, 0x3e, 0x2e, 0x6e, 0x3e, 0x3e, 0x3e, 0x3e, 0x2a, 0x3e, 0x6e, 0xaa,
  0x3e, 0x3e, 0x3e, 0x3e, 0x3e, 0x3e, 0x3e, 0x7e, 0x3e, 0x3e, 0x3e, 0x3e, 0x3e, 0x3e, 0x7e, 0xbe,
  0x4e, 0x5e, 0x5e, 0x6e, 0x5e, 0x5e, 0x6e, 0x4e, 0x5e, 0x5e, 0x5e, 0x7e, 0x6e, 0x7e, 0x4e, 0xce,
  0x8a, 0x9e, 0x9e, 0xaa, 0x9e, 0x9e, 0xae, 0xce, 0x9e, 0x9e, 0x9e, 0xbe, 0xaa, 0xbe, 0xce, 0x8a]

/-- `fragtbl8` (line 101). -/
def fragtbl8 : List ℕ := [
  0x00, 0x01, 0x01, 0x02, 0x01, 0x01, 0x02, 0x04, 0x01, 0x01, 0x01, 0x03, 0x02, 0x03, 0x04, 0x08,
  0x01, 0x01, 0x01, 0x03, 0x01, 0x01, 0x03, 0x05, 0x02, 0x03, 0x03, 0x02, 0x04, 0x05, 0x08, 0x10,
  0x01, 0x01, 0x01, 0x03, 0x01, 0x01, 0x03, 0x05, 0x01, 0x01, 0x01, 0x03, 0x03, 0x03, 0x05, 0x09,
  0x02, 0x03, 0x03, 0x02, 0x03, 0x03, 0x02, 0x06, 0x04, 0x05, 0x05, 0x06, 0x08, 0x09, 0x10, 0x20,
  0x01, 0x01, 0x01, 0x03, 0x01, 0x01, 0x03, 0x05, 0x01, 0x01, 0x01, 0x03, 0x03, 0x03, 0x05, 0x09,
  0x01, 0x01, 0x01, 0x03, 0x01, 0x01, 0x03, 0x05, 0x03, 0x03, 0x03, 0x03, 0x05, 0x05, 0x09, 0x11,
  0x02, 0x03, 0x03, 0x02, 0x03, 0x03, 0x02, 0x06, 0x03, 0x03, 0x03, 0x03, 0x02, 0x03, 0x06, 0x0a,
  0x04, 0x05, 0x05, 0x06, 0x05, 0x05, 0x06, 0x04, 0x08, 0x09, 0x09, 0x0a, 0x10, 0x11, 0x20, 0x40,
  0x01, 0x01, 0x01, 0x03, 0x01, 0x01, 0x03, 0x05, 0x01, 0x01, 0x01, 0x03, 0x03, 0x03, 0x05, 0x09,
  0x01, 0x01, 0x01, 0x03, 0x01, 0x01, 0x03, 0x05, 0x03, 0x03, 0x03, 0x03, 0x05, 0x05, 0x09, 0x11,
  0x01, 0x01, 0x01, 0x03, 0x01, 0x01, 0x03, 0x05, 0x01, 0x01, 0x01, 0x03, 0x03, 0x03, 0x05, 0x09,
  0x03, 0x03, 0x03, 0x03, 0x03, 0x03, 0x03, 0x07, 0x05, 0x05, 0x05, 0x07, 0x09, 0x09, 0x11, 0x21,
  0x02, 0x03, 0x03, 0x02, 0x03, 0x03, 0x02, 0x06, 0x03, 0x03, 0x03, 0x03, 0x02, 0x03, 0x06, 0x0a,
  0x03, 0x03, 0x03, 0x03, 0x03, 0x03, 0x03, 0x07, 0x02, 0x03, 0x03, 0x02, 0x06, 0x07, 0x0a, 0x12,
  0x04, 0x05, 0x05, 0x06, 0x05, 0x05, 0x06, 0x04, 0x05, 0x05, 0x05, 0x07, 0x06, 0x07, 0x04, 0x0c,
  0x08, 0x09, 0x09, 0x0a, 0x09, 0x09, 0x0a, 0x0c, 0x10, 0x11, 0x11, 0x12, 0x20, 0x21, 0x40, 0x80]

/-- `fragtbl` (line 139). -/
def fragtbl : ℕ → List ℕ
  | 1 => fragtbl124
  | 2 => fragtbl124
  | 4 => fragtbl124
  | 8 => fragtbl8
  | _ => []

/-- The sizes of a block in fragments. -/
def frags : List ℕ := [1, 2, 4, 8]

/-- The bit that the table has for a length. -/
def fragbit (frag siz : ℕ) : ℕ := 1 <<< (siz - 1 + frag % 8)

/-- The pattern of a run of `siz` free fragments from `pos` on, in the map of a block. -/
def pattern (blk siz pos : ℕ) : Bool :=
  (blk <<< 1) &&& (around.getD siz 0 <<< pos) == inside.getD siz 0 <<< pos

theorem around_eq : ∀ k < 9, around.getD k 0 = 2 ^ (k + 2) - 1 := by decide

theorem inside_eq : ∀ k < 9, inside.getD k 0 = (2 ^ k - 1) <<< 1 := by decide

/-- The pattern is found where such a run is. -/
theorem pattern_iff {frag m k p : ℕ} (hm : m < 2 ^ frag) (hk : k < 9) (hpos : 0 < k)
    (hle : p + k ≤ frag) : pattern m k p = true ↔ IsRun m.testBit frag p k := by
  have hhigh : ∀ i, frag ≤ i → m.testBit i = false := fun i hi =>
    Nat.testBit_lt_two_pow (hm.trans_le (Nat.pow_le_pow_right (by decide) hi))
  have hbits : pattern m k p = true ↔ ∀ i,
      ((decide (1 ≤ i) && m.testBit (i - 1)) && (decide (p ≤ i) && decide (i - p < k + 2))) =
        (decide (p ≤ i) && (decide (1 ≤ i - p) && decide (i - p - 1 < k))) := by
    rw [pattern, beq_iff_eq, around_eq k hk, inside_eq k hk]
    constructor
    · intro h i
      have hi := congrArg (fun x => x.testBit i) h
      simpa only [Nat.testBit_and, Nat.testBit_shiftLeft, Nat.testBit_two_pow_sub_one] using hi
    · intro h
      refine Nat.eq_of_testBit_eq fun i => ?_
      simpa only [Nat.testBit_and, Nat.testBit_shiftLeft, Nat.testBit_two_pow_sub_one] using h i
  rw [hbits]
  constructor
  · intro h
    refine ⟨hpos, hle, fun i hpi hi => ?_, ?_, ?_⟩
    · have hbit := h (i + 1)
      simpa [show p ≤ i + 1 by omega, show i + 1 - p < k + 2 by omega, show 1 ≤ i + 1 - p by omega,
        show i + 1 - p - 1 < k by omega] using hbit
    · by_cases hp : p = 0
      · exact .inl hp
      · have hbit := h p
        have hp1 : 1 ≤ p := by omega
        simp only [hp1, decide_true, Bool.true_and, le_refl, Nat.sub_self] at hbit
        exact .inr (by simpa using hbit)
    · by_cases hn : p + k = frag
      · exact .inl hn
      · have hbit := h (p + k + 1)
        simp [show p ≤ p + k + 1 by omega, show p + k + 1 - p = k + 1 by omega] at hbit
        exact .inr hbit
  · intro h i
    have hleft := h.left
    have hright := h.right
    by_cases hpi : p ≤ i
    · by_cases hend : i - p < k + 2
      · simp only [hpi, hend, decide_true, Bool.true_and, Bool.and_true]
        by_cases h1 : 1 ≤ i - p
        · by_cases h2 : i - p - 1 < k
          · have hset := h.set (i - 1) (by omega) (by omega)
            simp [hset, h1, h2, show 1 ≤ i by omega]
          · have hi : i - 1 = p + k := by omega
            have hclear : m.testBit (p + k) = false := by
              rcases hright with hn | hclear
              · exact hhigh _ hn.ge
              · exact hclear
            simp [hi, hclear, h2]
        · have hi : i = p := by omega
          subst hi
          rcases hleft with h0 | hclear
          · simp [h0]
          · simp [hclear]
      · simp [hend, show ¬i - p - 1 < k by omega]
    · simp [hpi]

/-- Whether some block of the byte `x` has the pattern of a run of `k` fragments. -/
def hasRun (frag x k : ℕ) : Bool :=
  (List.range (8 / frag)).any fun j => (List.range (frag + 1 - k)).any fun p =>
    pattern ((x >>> (j * frag)) % 2 ^ frag) k p

theorem fragtbl_all : ∀ frag ∈ frags, ((fragtbl frag).zipIdx.all fun e =>
    (List.range frag).all fun k => (e.1 &&& fragbit frag (k + 1) != 0) == hasRun frag e.2 (k + 1)) =
      true := by
  decide +kernel

theorem frags_pos : ∀ frag ∈ frags, 0 < frag := by decide

theorem frags_le : ∀ frag ∈ frags, frag ≤ 8 := by decide

theorem length_fragtbl : ∀ frag ∈ frags, (fragtbl frag).length = 256 := by decide +kernel

/-- The block `j` of a byte. -/
theorem blk_isRun {frag x j p k : ℕ} :
    IsRun ((x >>> (j * frag)) % 2 ^ frag).testBit frag p k ↔
      IsRun (fun i => x.testBit (j * frag + i)) frag p k := by
  refine isRun_congr fun i hi => ?_
  rw [Nat.testBit_mod_two_pow, Nat.testBit_shiftRight, decide_eq_true hi, Bool.true_and]

theorem hasRun_iff {frag x k : ℕ} (hfrag : frag ∈ frags) (hk : 0 < k) (hkf : k ≤ frag) :
    hasRun frag x k = true ↔
      ∃ j < 8 / frag, ∃ p, IsRun (fun i => x.testBit (j * frag + i)) frag p k := by
  have hle := frags_le frag hfrag
  have hblk : ∀ j p, p + k ≤ frag → (pattern ((x >>> (j * frag)) % 2 ^ frag) k p = true ↔
      IsRun (fun i => x.testBit (j * frag + i)) frag p k) := fun j p hp => by
    rw [pattern_iff (Nat.mod_lt _ (Nat.two_pow_pos frag)) (by omega) hk hp, blk_isRun]
  simp only [hasRun, any_eq_true, mem_range]
  constructor
  · rintro ⟨j, hj, p, hp, hpat⟩; exact ⟨j, hj, p, (hblk j p (by omega)).1 hpat⟩
  · rintro ⟨j, hj, p, hrun⟩
    have hrle := hrun.le
    exact ⟨j, hj, p, by omega, (hblk j p hrle).2 hrun⟩

/-- The table has a bit for a length if and only if some block has such a run. -/
theorem fragtbl_iff {frag x k : ℕ} (hfrag : frag ∈ frags) (hx : x < 256) (hk : 0 < k)
    (hkf : k ≤ frag) : ((fragtbl frag).getD x 0 &&& fragbit frag k != 0) = true ↔
      ∃ j < 8 / frag, ∃ p, IsRun (fun i => x.testBit (j * frag + i)) frag p k := by
  have hlen : x < (fragtbl frag).length := by rwa [length_fragtbl frag hfrag]
  have hmem : ((fragtbl frag).getD x 0, x) ∈ (fragtbl frag).zipIdx := by
    rw [mem_zipIdx_iff_getElem?, getD_eq_getElem?_getD, List.getElem?_eq_getElem hlen]
    rfl
  have hall := all_eq_true.1 (fragtbl_all frag hfrag) _ hmem
  have hbit := all_eq_true.1 hall (k - 1) (mem_range.2 (by omega))
  have hk1 : k - 1 + 1 = k := by omega
  rw [beq_iff_eq, hk1] at hbit
  rw [hbit, hasRun_iff hfrag hk hkf]

end FreeBSD.Ffs
