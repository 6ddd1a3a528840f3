import FreeBSD.Ufs.FfsTables

/-!
# Blocks and runs in the fragment map, `ufs/ffs/ffs_subr.c`

The block `h` has the fragments `x` with `x / frag = h`. A set bit is a free fragment.

Results:
* `isblock_iff`, `isfreeblock_iff`: a block that is wholly free, and one that is wholly allocated.
* `bit_clrblock`, `bit_setblock`: a block that is taken out of the map or put into it.
-/

namespace FreeBSD.Ffs

open Lib.Bitmap Lib.BitRuns List Function

variable {frag h m k : ℕ} {cp : ℕ → BitVec 8}

/-! ## Model -/

/-- The byte of the block `h`. -/
def blkbyte : ℕ → ℕ → ℕ
  | 8, h => h
  | 4, h => h >>> 1
  | 2, h => h >>> 2
  | _, h => h >>> 3

/-- The bits of the block `h` in its byte. -/
def blkmask : ℕ → ℕ → BitVec 8
  | 8, _ => 0xff#8
  | 4, h => 0x0f#8 <<< ((h &&& 0x1) <<< 2)
  | 2, h => 0x03#8 <<< ((h &&& 0x3) <<< 1)
  | _, h => 0x01#8 <<< (h &&& 0x7)

/-- `ffs_isblock` (line 212). -/
def ffsIsblock (frag : ℕ) (cp : ℕ → BitVec 8) (h : ℕ) : Bool :=
  cp (blkbyte frag h) &&& blkmask frag h == blkmask frag h

/-- `ffs_clrblock` (line 241). -/
def ffsClrblock (frag : ℕ) (cp : ℕ → BitVec 8) (h : ℕ) : ℕ → BitVec 8 :=
  Function.update cp (blkbyte frag h) (cp (blkbyte frag h) &&& ~~~blkmask frag h)

/-- `ffs_setblock` (line 269). -/
def ffsSetblock (frag : ℕ) (cp : ℕ → BitVec 8) (h : ℕ) : ℕ → BitVec 8 :=
  Function.update cp (blkbyte frag h) (cp (blkbyte frag h) ||| blkmask frag h)

/-- `ffs_isfreeblock` (ffs_alloc.c:1650). The name is about the file: nothing of the block is in
    the map. -/
def ffsIsfreeblock (frag : ℕ) (cp : ℕ → BitVec 8) (h : ℕ) : Bool :=
  cp (blkbyte frag h) &&& blkmask frag h == 0#8

/-- `blkmap` (fs.h:532). -/
def blkmap (frag : ℕ) (map : ℕ → BitVec 8) (loc : ℕ) : ℕ :=
  ((map (loc / 8)).toNat >>> (loc % 8)) &&& (0xff >>> (8 - frag))

/-- The loop over `pos` (lines 163-171): how often the pattern is found, in at most `n` rounds. -/
def fragacctPos (frag fragmap siz : ℕ) : ℕ → ℕ → ℕ → ℕ → ℕ
  | 0, _, _, _ => 0
  | n + 1, pos, field, subfield =>
    if pos ≤ frag then
      if fragmap &&& field = subfield then
        fragacctPos frag fragmap siz n (pos + siz + 1) (field <<< siz <<< 1)
          (subfield <<< siz <<< 1) + 1
      else fragacctPos frag fragmap siz n (pos + 1) (field <<< 1) (subfield <<< 1)
    else 0

/-- How often a run of `siz` is found, for `siz` from 1 to `frag - 1` (lines 156-172). -/
def fragacctSiz (frag fragmap siz : ℕ) : ℕ :=
  if 1 ≤ siz ∧ siz < frag ∧
      ((fragtbl frag).getD fragmap 0 <<< 1) &&& (1 <<< (siz + frag % 8)) ≠ 0 then
    fragacctPos frag (fragmap <<< 1) siz (frag + 1) siz (around.getD siz 0) (inside.getD siz 0)
  else 0

/-- `ffs_fragacct` (lines 145-173). -/
def ffsFragacct (frag fragmap : ℕ) (fraglist : ℕ → ℤ) (cnt : ℤ) : ℕ → ℤ :=
  fun siz => fraglist siz + cnt * fragacctSiz frag fragmap siz

/-! ## Blocks -/

theorem blkmask_getLsbD : ∀ frag ∈ frags, ∀ r < 8 / frag, ∀ i < 8,
    (blkmask frag r).getLsbD i = decide (i / frag = r) := by
  decide

theorem blkmask_mod (hfrag : frag ∈ frags) (h : ℕ) :
    blkmask frag h = blkmask frag (h % (8 / frag)) := by
  have h1 : ∀ n : ℕ, n &&& 0x1 = n % 2 := fun n => Nat.and_two_pow_sub_one_eq_mod n 1
  have h3 : ∀ n : ℕ, n &&& 0x3 = n % 4 := fun n => Nat.and_two_pow_sub_one_eq_mod n 2
  have h7 : ∀ n : ℕ, n &&& 0x7 = n % 8 := fun n => Nat.and_two_pow_sub_one_eq_mod n 3
  simp only [frags, mem_cons, not_mem_nil, or_false] at hfrag
  rcases hfrag with rfl | rfl | rfl | rfl
  · simp only [blkmask, h7, Nat.reduceDiv, Nat.mod_mod]
  · simp only [blkmask, h3, Nat.reduceDiv, Nat.mod_mod]
  · simp only [blkmask, h1, Nat.reduceDiv, Nat.mod_mod]
  · rfl

/-- The fragment `x` lies in the byte of the block `h` and is one of its bits there. -/
theorem blk_bit (hfrag : frag ∈ frags) (h x : ℕ) :
    (decide (x / 8 = blkbyte frag h) && (blkmask frag h).getLsbD (x % 8)) =
      decide (x / frag = h) := by
  have hmod : x % 8 < 8 := Nat.mod_lt x (by decide)
  have hr : h % (8 / frag) < 8 / frag :=
    Nat.mod_lt h ((by decide : ∀ frag ∈ frags, 0 < 8 / frag) frag hfrag)
  rw [blkmask_mod hfrag h, blkmask_getLsbD frag hfrag _ hr _ hmod, ← Bool.decide_and,
    decide_eq_decide]
  simp only [frags, mem_cons, not_mem_nil, or_false] at hfrag
  rcases hfrag with rfl | rfl | rfl | rfl
  · simp only [blkbyte, Nat.shiftRight_eq_div_pow]; omega
  · simp only [blkbyte, Nat.shiftRight_eq_div_pow]; omega
  · simp only [blkbyte, Nat.shiftRight_eq_div_pow]; omega
  · simp only [blkbyte]; omega

theorem bit_clrblock (hfrag : frag ∈ frags) (cp : ℕ → BitVec 8) (h x : ℕ) :
    bit (ffsClrblock frag cp h) x = (bit cp x && !decide (x / frag = h)) := by
  have hbit := blk_bit hfrag h x
  have hmod : x % 8 < 8 := Nat.mod_lt x (by decide)
  rw [← hbit, bit, bit, ffsClrblock]
  by_cases hbyte : x / 8 = blkbyte frag h
  · rw [hbyte, update_self, BitVec.getLsbD_and, BitVec.getLsbD_not,
      decide_eq_true hmod, decide_eq_true rfl, Bool.true_and, Bool.true_and]
  · rw [update_of_ne hbyte, decide_eq_false hbyte, Bool.false_and, Bool.not_false,
      Bool.and_true]

theorem bit_setblock (hfrag : frag ∈ frags) (cp : ℕ → BitVec 8) (h x : ℕ) :
    bit (ffsSetblock frag cp h) x = (bit cp x || decide (x / frag = h)) := by
  have hbit := blk_bit hfrag h x
  rw [← hbit, bit, bit, ffsSetblock]
  by_cases hbyte : x / 8 = blkbyte frag h
  · rw [hbyte, update_self, BitVec.getLsbD_or, decide_eq_true rfl, Bool.true_and]
  · rw [update_of_ne hbyte, decide_eq_false hbyte, Bool.false_and, Bool.or_false]

/-- What holds of the bits of a block holds of the bits of its byte in the mask. -/
theorem blk_forall (hfrag : frag ∈ frags) (cp : ℕ → BitVec 8) (h : ℕ) (v : Bool) :
    (∀ i < 8, (blkmask frag h).getLsbD i = true → (cp (blkbyte frag h)).getLsbD i = v) ↔
      ∀ x, x / frag = h → bit cp x = v := by
  constructor
  · intro hall x hx
    have hbit := blk_bit hfrag h x
    rw [decide_eq_true hx, Bool.and_eq_true_iff, decide_eq_true_eq] at hbit
    have hval := hall _ (Nat.mod_lt x (by decide)) hbit.2
    rwa [← hbit.1] at hval
  · intro hall i hi hmask
    have hbit := blk_bit hfrag h (blkbyte frag h * 8 + i)
    have hdiv : (blkbyte frag h * 8 + i) / 8 = blkbyte frag h := by omega
    have hmod : (blkbyte frag h * 8 + i) % 8 = i := by omega
    rw [hdiv, hmod, hmask, decide_eq_true rfl, Bool.and_true, eq_comm, decide_eq_true_eq] at hbit
    have hval := hall _ hbit
    rwa [bit, hdiv, hmod] at hval

/-- The block is wholly free. -/
theorem isblock_iff (hfrag : frag ∈ frags) :
    ffsIsblock frag cp h = true ↔ ∀ x, x / frag = h → bit cp x = true := by
  rw [← blk_forall hfrag cp h true, ffsIsblock, beq_iff_eq]
  constructor
  · intro heq i hi hmask
    have hbit := congrArg (fun b => b.getLsbD i) heq
    rwa [BitVec.getLsbD_and, hmask, Bool.and_true] at hbit
  · intro hall
    refine BitVec.eq_of_getLsbD_eq fun i hi => ?_
    rw [BitVec.getLsbD_and]
    by_cases hmask : (blkmask frag h).getLsbD i = true
    · rw [hmask, hall i hi hmask, Bool.and_true]
    · rw [Bool.eq_false_of_not_eq_true hmask, Bool.and_false]

/-- The block is wholly allocated. -/
theorem isfreeblock_iff (hfrag : frag ∈ frags) :
    ffsIsfreeblock frag cp h = true ↔ ∀ x, x / frag = h → bit cp x = false := by
  rw [← blk_forall hfrag cp h false, ffsIsfreeblock, beq_iff_eq]
  constructor
  · intro heq i hi hmask
    have hbit := congrArg (fun b => b.getLsbD i) heq
    rwa [BitVec.getLsbD_and, hmask, Bool.and_true, BitVec.getLsbD_zero] at hbit
  · intro hall
    refine BitVec.eq_of_getLsbD_eq fun i hi => ?_
    rw [BitVec.getLsbD_and, BitVec.getLsbD_zero]
    by_cases hmask : (blkmask frag h).getLsbD i = true
    · rw [hmask, hall i hi hmask, Bool.and_true]
    · rw [Bool.eq_false_of_not_eq_true hmask, Bool.and_false]

/-- The bits of one block. -/
theorem blkmap_testBit (hfrag : frag ∈ frags) (map : ℕ → BitVec 8) {loc : ℕ} (hloc : frag ∣ loc)
    (i : ℕ) : (blkmap frag map loc).testBit i = (decide (i < frag) && bit map (loc + i)) := by
  have hmask : ∀ frag ∈ frags, 0xff >>> (8 - frag) = 2 ^ frag - 1 := by decide
  have hdvd : ∀ frag ∈ frags, frag ∣ 8 := by decide
  rw [blkmap, hmask frag hfrag, Nat.testBit_and, Nat.testBit_two_pow_sub_one,
    Nat.testBit_shiftRight, Bool.and_comm]
  by_cases hi : i < frag
  · -- the block does not cross its byte
    have hin : loc % 8 + i < 8 := by
      obtain ⟨c, hc⟩ := hdvd frag hfrag
      obtain ⟨l, hl⟩ := (Nat.dvd_mod_iff ⟨c, hc⟩).2 hloc
      have hlt : loc % 8 < 8 := Nat.mod_lt loc (by decide)
      have hlc : l < c := by
        by_contra hge
        have hmul := Nat.mul_le_mul_left frag (not_lt.1 hge); omega
      have hmul := Nat.mul_le_mul_left frag (show l + 1 ≤ c from hlc)
      rw [mul_add, mul_one] at hmul; omega
    have hdiv : (loc + i) / 8 = loc / 8 := by omega
    have hmod : (loc + i) % 8 = loc % 8 + i := by omega
    rw [decide_eq_true hi, Bool.true_and, Bool.true_and, bit, hdiv, hmod, BitVec.getLsbD]
  · rw [decide_eq_false hi, Bool.false_and, Bool.false_and]

theorem blkmap_lt (hfrag : frag ∈ frags) (map : ℕ → BitVec 8) {loc : ℕ} (hloc : frag ∣ loc) :
    blkmap frag map loc < 2 ^ frag := by
  refine Nat.lt_pow_two_of_testBit _ fun i hi => ?_
  rw [blkmap_testBit hfrag map hloc, decide_eq_false (by omega), Bool.false_and]

/-! ## Runs of a block -/

/-- The runs of one length, by where they begin. -/
theorem tally_id (f : ℕ → Bool) (n k : ℕ) :
    tally id f n k = ((Finset.range (n + 1 - k)).filter fun p => IsRun f n p k).card := by
  refine Finset.card_bij (fun r _ => r.1) ?_ ?_ ?_
  · rintro ⟨p, a⟩ hmem
    obtain ⟨hr, rfl⟩ := Finset.mem_filter.1 hmem
    have hrun := mem_runs.1 hr
    have hle := hrun.le
    rw [Finset.mem_filter, Finset.mem_range]; exact ⟨by simp only [id_eq]; omega, hrun⟩
  · rintro ⟨p, a⟩ hp ⟨q, b⟩ hq heq
    obtain ⟨-, rfl⟩ := Finset.mem_filter.1 hp
    obtain ⟨-, hb⟩ := Finset.mem_filter.1 hq
    exact Prod.ext heq hb.symm
  · intro p hp
    obtain ⟨-, hr⟩ := Finset.mem_filter.1 hp
    exact ⟨(p, k), Finset.mem_filter.2 ⟨mem_runs.2 hr, rfl⟩, rfl⟩

/-- The loop over the positions finds as many runs as the pattern fits. -/
theorem fragacctSiz_all : ∀ frag ∈ frags, ((List.range (2 ^ frag)).all fun m =>
    (List.range' 1 (frag - 1)).all fun k => fragacctSiz frag m k ==
      (List.range (frag + 1 - k)).countP fun p => pattern m k p) = true := by
  decide +kernel

theorem fragacctSiz_eq (hfrag : frag ∈ frags) (hm : m < 2 ^ frag) (hk : 1 ≤ k) (hkf : k < frag) :
    fragacctSiz frag m k = tally id m.testBit frag k := by
  have hle := frags_le frag hfrag
  have hall := all_eq_true.1 (fragacctSiz_all frag hfrag) m (mem_range.2 hm)
  have heq := all_eq_true.1 hall k (mem_range'_1.2 ⟨hk, by omega⟩)
  rw [beq_iff_eq] at heq
  rw [heq, tally_id, Finset.card_def, Finset.filter_val, Finset.range_val, Multiset.range,
    Multiset.filter_coe, Multiset.coe_card, countP_eq_length_filter]
  congr 1
  refine filter_congr fun p hp => ?_
  have hp := mem_range.1 hp
  rw [Bool.eq_iff_iff, decide_eq_true_eq]; exact pattern_iff hm (by omega) (by omega) (by omega)

/-- The count of each length changes by the number of runs of the block. -/
theorem fragacct_eq (hfrag : frag ∈ frags) (hm : m < 2 ^ frag) (fraglist : ℕ → ℤ) (cnt : ℤ)
    (hk : 1 ≤ k) (hkf : k < frag) :
    ffsFragacct frag m fraglist cnt k = fraglist k + cnt * tally id m.testBit frag k := by
  rw [ffsFragacct, fragacctSiz_eq hfrag hm hk hkf]

end FreeBSD.Ffs
