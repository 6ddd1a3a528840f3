import FreeBSD.Ufs.AllocInv

/-!
# The search for a run of free fragments

`ffs_mapsearch` scans the bytes of the map with the table, first from the byte of the preference or
of the rotor on, then from the front up to that byte, and looks for the pattern in the blocks of
the byte that it has found.

Results:
* `Consistent.exists_run`, `Consistent.exists_whole`: what a count that is not 0 promises.
-/

namespace FreeBSD.Ffs

open Lib.Bitmap Lib.BitRuns List

variable {fs : Fs} {g : Grp} {m : ℕ → BitVec 8} {b k n p q cg : ℕ} {bpref : ℤ}

/-! ## Bytes -/

/-- The byte `q` has a run of `k` fragments in one of its blocks. -/
def ByteRun (frag : ℕ) (m : ℕ → BitVec 8) (k q : ℕ) : Prop :=
  ∃ j < 8 / frag, ∃ p, IsRun (blk frag m (q * (8 / frag) + j)) frag p k

theorem Fs.frag_mul (fs : Fs) : 8 / fs.frag * fs.frag = 8 :=
  (by decide : ∀ frag ∈ frags, 8 / frag * frag = 8) fs.frag fs.frag_mem

/-- The first fragment of a block of the byte `q`. -/
theorem byte_block (fs : Fs) (q j : ℕ) :
    (q * (8 / fs.frag) + j) * fs.frag = q * 8 + j * fs.frag := by
  rw [add_mul, mul_assoc, fs.frag_mul]

theorem byte_bit {fs : Fs} {q j i : ℕ} (hj : j < 8 / fs.frag) (hi : i < fs.frag) :
    (m q).toNat.testBit (j * fs.frag + i) = bit m (q * 8 + j * fs.frag + i) := by
  have hlt : j * fs.frag + i < 8 := by
    have hmul := Nat.mul_le_mul_right fs.frag (show j + 1 ≤ 8 / fs.frag from hj)
    rw [fs.frag_mul, add_mul] at hmul; omega
  have hdiv : (q * 8 + j * fs.frag + i) / 8 = q := by omega
  have hmod : (q * 8 + j * fs.frag + i) % 8 = j * fs.frag + i := by omega
  rw [bit, hdiv, hmod, BitVec.getLsbD]

/-- `scanc` stops at the bytes that have a run of the length. -/
theorem stop_iff (fs : Fs) (hk : 0 < k) (hkf : k ≤ fs.frag) :
    ((fragtbl fs.frag).getD (m q).toNat 0 &&& fragbit fs.frag k != 0) = true ↔
      ByteRun fs.frag m k q := by
  rw [fragtbl_iff fs.frag_mem (m q).isLt hk hkf, ByteRun]
  refine exists_congr fun j => and_congr_right fun hj => exists_congr fun p =>
    isRun_congr fun i hi => ?_
  rw [byte_bit hj hi, blk_apply hi, byte_block]

/-- A block with such a run makes its byte one. -/
theorem byteRun_of_block (fs : Fs) (hrun : IsRun (blk fs.frag m b) fs.frag p k) :
    ByteRun fs.frag m k (b / (8 / fs.frag)) := by
  have hpos : 0 < 8 / fs.frag := Nat.pos_of_mul_pos_right (by rw [fs.frag_mul]; decide)
  refine ⟨b % (8 / fs.frag), Nat.mod_lt b hpos, p, ?_⟩
  rwa [Nat.div_add_mod']

/-- The pattern is looked for where the blocks are. -/
theorem searchByte_spec (hk : 0 < k) (hkf : k ≤ fs.frag) (h : ByteRun fs.frag m k q) :
    ∃ b p, searchByte fs.frag k m (q * 8) = some (b * fs.frag + p) ∧
      IsRun (blk fs.frag m b) fs.frag p k ∧ b / (8 / fs.frag) = q := by
  have hle := frags_le fs.frag fs.frag_mem
  have hpat : ∀ j p, p + k ≤ fs.frag →
      (pattern (blkmap fs.frag m (q * 8 + j * fs.frag)) k p = true ↔ IsRun
        (blk fs.frag m (q * (8 / fs.frag) + j)) fs.frag p k) := fun j p hp => by
    rw [← byte_block, pattern_iff (blkmap_lt fs.frag_mem m (dvd_mul_left _ _)) (by omega) hk hp,
      blkmap_blk]
  cases hs : searchByte fs.frag k m (q * 8) with
  | none =>
    obtain ⟨j, hj, p, hrun⟩ := h
    have hrle := hrun.le
    have hnone := List.findSome?_eq_none_iff.1 hs j (mem_range.2 hj)
    rw [Option.map_eq_none_iff, List.find?_eq_none] at hnone
    exact absurd ((hpat j p hrle).2 hrun) (hnone p (mem_range.2 (by omega)))
  | some bno =>
    obtain ⟨j, hj, hbno⟩ := exists_of_findSome?_eq_some hs
    obtain ⟨p, hp, rfl⟩ := Option.map_eq_some_iff.1 hbno
    have hj := mem_range.1 hj
    have hmem := mem_range.1 (mem_of_find?_eq_some hp)
    refine ⟨q * (8 / fs.frag) + j, p, ?_, (hpat j p (by omega)).1 (List.find?_some hp), ?_⟩
    · rw [byte_block]
    · exact div_frag hj

/-! ## Scan of the map -/

theorem howmany_le (fs : Fs) : fs.fpg ≤ 8 * howmany fs.fpg 8 := by
  rw [howmany]; omega

/-- The start of the scan lies in the map. -/
theorem start_lt (fs : Fs) {x : ℕ} (hx : x < fs.fpg) : x / 8 < howmany fs.fpg 8 := by
  rw [howmany]; omega

theorem mapIdx_dtogd (fs : Fs) (hpref : 0 ≤ bpref) :
    mapIdx (dtogd fs bpref) = .ok (bpref.toNat % fs.fpg) := by
  lift bpref to ℕ using hpref
  rw [dtogd, ← Int.ofNat_tmod, mapIdx, if_pos (Int.natCast_nonneg _), Int.toNat_natCast,
    Int.toNat_natCast]

theorem mapIdx_start (fs : Fs) (hpref : 0 ≤ bpref) :
    mapIdx ((dtogd fs bpref).tdiv 8) = .ok (bpref.toNat % fs.fpg / 8) := by
  lift bpref to ℕ using hpref
  rw [dtogd, ← Int.ofNat_tmod, show (8 : ℤ) = ((8 : ℕ) : ℤ) from rfl, ← Int.ofNat_tdiv, mapIdx,
    if_pos (Int.natCast_nonneg _), Int.toNat_natCast, Int.toNat_natCast]

/-- A run of the length is found if some block of the group has one. -/
theorem mapsearch_spec (hfrotor : g.frotor < fs.fpg) (hpref : 0 ≤ bpref) (hk : 0 < k)
    (hkf : k ≤ fs.frag)
    (hsome : ∃ b < fs.fpg / fs.frag, ∃ p, IsRun (blk fs.frag g.blksfree b) fs.frag p k) :
    ∃ b p r, ffsMapsearch fs g bpref k = .ok (b * fs.frag + p, { g with frotor := r }) ∧
      IsRun (blk fs.frag g.blksfree b) fs.frag p k ∧ r ≤ b * fs.frag := by
  -- the scan starts at a byte of the map
  obtain ⟨start, hstart, heq⟩ : ∃ start < howmany fs.fpg 8,
      searchStart fs g bpref = .ok start := by
    rw [searchStart]
    by_cases h0 : bpref ≠ 0
    · exact ⟨_, start_lt fs (Nat.mod_lt _ fs.fpg_pos), by rw [if_pos h0, mapIdx_start fs hpref]⟩
    · exact ⟨_, start_lt fs hfrotor, by rw [if_neg h0]⟩
  have hfound : ∀ q, ByteRun fs.frag g.blksfree k q → ∃ b p,
      searchByte fs.frag k g.blksfree (q * 8) = some (b * fs.frag + p) ∧
      IsRun (blk fs.frag g.blksfree b) fs.frag p k ∧ q * 8 ≤ b * fs.frag := fun q hq => by
    obtain ⟨b, p, hs, hrun, hb⟩ := searchByte_spec hk hkf hq
    refine ⟨b, p, hs, hrun, ?_⟩
    calc q * 8 = q * (8 / fs.frag) * fs.frag := by rw [mul_assoc, fs.frag_mul]
      _ ≤ b * fs.frag := Nat.mul_le_mul_right _ (hb ▸ Nat.div_mul_le_self b (8 / fs.frag))
  -- some byte of the map has such a run
  obtain ⟨b, hb, p, hrun⟩ := hsome
  have hbyte := byteRun_of_block fs hrun
  have hlt : b / (8 / fs.frag) < howmany fs.fpg 8 := by
    have hmul := Nat.mul_le_of_le_div _ _ _ (show b + 1 ≤ fs.fpg / fs.frag from hb)
    have hdiv := Nat.div_mul_le_self b (8 / fs.frag)
    have hbf := Nat.mul_le_mul_right fs.frag hdiv
    rw [mul_assoc, fs.frag_mul] at hbf
    have hpos := fs.frag_pos
    rw [add_mul] at hmul
    have hle := howmany_le fs; omega
  rw [ffsMapsearch, heq]
  dsimp only [Bind.bind, Except.bind, scanc]
  rcases scan_spec (fun b => (fragtbl fs.frag).getD b.toNat 0 &&& fragbit fs.frag k != 0)
      g.blksfree (howmany fs.fpg 8 - start) start with
    ⟨hzero, hall⟩ | ⟨q, hqs, hqn, hval, hstop, -⟩
  · rw [if_pos hzero]
    rcases scan_spec (fun b => (fragtbl fs.frag).getD b.toNat 0 &&& fragbit fs.frag k != 0)
        g.blksfree (start + 1) 0 with ⟨hzero', hall'⟩ | ⟨q, -, hqn, hval, hstop, -⟩
    · -- the byte has been scanned
      have hstop := (stop_iff fs hk hkf).2 hbyte
      by_cases hge : start ≤ b / (8 / fs.frag)
      · exact absurd (hall (b / (8 / fs.frag)) hge (by omega)) (by rw [hstop]; decide)
      · exact absurd (hall' (b / (8 / fs.frag)) (Nat.zero_le _) (by omega)) (by rw [hstop]; decide)
    · have hne : ¬0 + (start + 1) - q = 0 := by omega
      have hq : start + 1 - (0 + (start + 1) - q) = q := by omega
      obtain ⟨b, p, hs, hrun, hle⟩ := hfound q ((stop_iff fs hk hkf).1 hstop)
      rw [hval, if_neg hne, hq, hs]; exact ⟨b, p, _, rfl, hrun, hle⟩
  · have hne : ¬start + (howmany fs.fpg 8 - start) - q = 0 := by omega
    have hq : start + (howmany fs.fpg 8 - start) - (start + (howmany fs.fpg 8 - start) - q) =
      q := by
      omega
    obtain ⟨b, p, hs, hrun, hle⟩ := hfound q ((stop_iff fs hk hkf).1 hstop)
    rw [hval, if_neg hne, hq, hs]; exact ⟨b, p, _, rfl, hrun, hle⟩

/-! ## Counts that are not 0 -/

theorem nbOf_nonneg (frag : ℕ) (f : ℕ → Bool) : 0 ≤ nbOf frag f := by
  rw [nbOf]
  split
  · exact zero_le_one
  · exact le_rfl

theorem frOf_nonneg (frag k : ℕ) (f : ℕ → Bool) : 0 ≤ frOf frag k f := by
  rw [frOf]
  split
  · exact le_rfl
  · exact Int.natCast_nonneg _

/-- A count is 0 if and only if no block adds to it. -/
theorem total_eq_zero {F : (ℕ → Bool) → ℤ} (hF : ∀ f, 0 ≤ F f) :
    total fs m F = 0 ↔ ∀ b < fs.fpg / fs.frag, F (blk fs.frag m b) = 0 := by
  rw [total, Finset.sum_eq_zero_iff_of_nonneg fun b _ => hF _]
  exact forall_congr' fun b => by rw [Finset.mem_range]

/-- A whole block is a run. -/
theorem whole_isRun (fs : Fs) (h : Whole fs.frag (blk fs.frag m b)) :
    IsRun (blk fs.frag m b) fs.frag 0 fs.frag :=
  ⟨fs.frag_pos, by omega, fun i _ hi => h i (by omega), .inl rfl, .inl (zero_add _)⟩

/-- A count of free blocks that is not 0 promises a free block. -/
theorem Consistent.exists_whole (h : Consistent fs cg g) :
    g.cs.nbfree ≠ 0 ↔ ∃ b < fs.fpg / fs.frag, Whole fs.frag (blk fs.frag g.blksfree b) := by
  rw [h.nbfree, Ne, total_eq_zero (nbOf_nonneg _)]
  constructor
  · intro hne
    by_contra hnone
    refine hne fun b hb => ?_
    rw [nbOf, if_neg fun hw => hnone ⟨b, hb, hw⟩]
  · rintro ⟨b, hb, hw⟩ hall
    have hzero := hall b hb
    rw [nbOf, if_pos hw] at hzero; exact one_ne_zero hzero

/-- A count of runs that is not 0 promises a run, in a block that is not wholly free. -/
theorem Consistent.exists_run (h : Consistent fs cg g) (hk : 0 < k) (hkf : k < fs.frag) :
    g.frsum k ≠ 0 ↔ ∃ b < fs.fpg / fs.frag, ∃ p, IsRun (blk fs.frag g.blksfree b) fs.frag p k := by
  rw [h.frsum k hk hkf, Ne, total_eq_zero (frOf_nonneg _ _)]
  have hiff : ∀ b, frOf fs.frag k (blk fs.frag g.blksfree b) ≠ 0 ↔
      ∃ p, IsRun (blk fs.frag g.blksfree b) fs.frag p k := by
    intro b
    rw [frOf]
    split
    · next hw =>
      -- the only run of a free block is the block
      refine iff_of_false (fun hne => hne rfl) fun ⟨p, hrun⟩ => ?_
      rcases (whole_isRun fs hw).separate hrun with ⟨-, heq⟩ | hlt | hlt
      · omega
      · have hle := hrun.le; omega
      · omega
    · rw [Ne, Int.natCast_eq_zero, tally, Finset.card_eq_zero, ← Ne,
        ← Finset.nonempty_iff_ne_empty]
      constructor
      · rintro ⟨⟨p, a⟩, hmem⟩
        obtain ⟨hr, rfl⟩ := Finset.mem_filter.1 hmem
        exact ⟨p, mem_runs.1 hr⟩
      · rintro ⟨p, hrun⟩; exact ⟨(p, k), Finset.mem_filter.2 ⟨mem_runs.2 hrun, rfl⟩⟩
  constructor
  · intro hne
    by_contra hnone
    refine hne fun b hb => ?_
    by_contra hb0
    exact hnone ⟨b, hb, (hiff b).1 hb0⟩
  · rintro ⟨b, hb, hrun⟩ hall; exact (hiff b).2 hrun (hall b hb)

end FreeBSD.Ffs
