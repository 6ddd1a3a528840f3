import FreeBSD.Kern.BlistOps

/-!
# Resizing

`blst_copy` walks the old tree and frees in the new one what is free there.

Results:
* `copyBits_spec`, `copyLoop_spec`, `blstCopy_spec`: what a call copies.
* `blistResize_spec`: the set of free blocks of the new blist.
-/

namespace FreeBSD.SubrBlist

open Finset

/-- The call has added the members of `F` from `x` to `y - 1` to the set `D` of `dest`. -/
def Copies (F D : Finset ℕ) (dest : Blist) (x y : ℕ) (call : Except Fault Blist) : Prop :=
  ∃ dest', call = .ok dest' ∧ dest'.blBlocks = dest.blBlocks ∧
    Represents False dest' (D ∪ F ∩ Ico x y)

section

variable {F D : Finset ℕ} {N k p b x y z c : ℕ} {dest : Blist} {m : Root}
  {call : Except Fault Blist}

theorem Copies.nothing (hD : Represents False dest D) (h : ∀ i, x ≤ i → i < y → i ∉ F) :
    Copies F D dest x y (.ok dest) := by
  have hempty : F ∩ Ico x y = ∅ := by
    rw [← disjoint_iff_inter_eq_empty, disjoint_right]
    intro i hi
    obtain ⟨h1, h2⟩ := mem_Ico.1 hi
    exact h i h1 h2
  refine ⟨dest, rfl, rfl, ?_⟩
  rw [hempty, union_empty]; exact hD

/-- One copy after the other. -/
theorem Copies.bind (h : Copies F D dest x y call) (next : Blist → Except Fault Blist)
    (hxy : x ≤ y) (hyz : y ≤ z)
    (hnext : ∀ dest', dest'.blBlocks = dest.blBlocks →
      Represents False dest' (D ∪ F ∩ Ico x y) →
      Copies F (D ∪ F ∩ Ico x y) dest' y z (next dest')) :
    Copies F D dest x z (call >>= next) := by
  obtain ⟨dest', hcall, hblocks, hD⟩ := h
  obtain ⟨dest'', hcall', hblocks', hD'⟩ := hnext dest' hblocks hD
  refine ⟨dest'', by rw [hcall]; exact hcall', hblocks'.trans hblocks, ?_⟩
  rw [union_assoc, ← inter_union_distrib_left, Ico_union_Ico_eq_Ico hxy hyz] at hD'; exact hD'

/-- The range after the one that has been copied is not in the new blist. -/
theorem Copies.disjoint_next (hd : Disjoint (Ico x z) D) (hxy : x ≤ y) :
    Disjoint (Ico y z) (D ∪ F ∩ Ico x y) := by
  rw [disjoint_left]
  intro i hi hin
  obtain ⟨h1, h2⟩ := mem_Ico.1 hi
  rcases mem_union.1 hin with h | h
  · exact disjoint_left.1 hd (mem_Ico.2 ⟨by omega, h2⟩) h
  · have := (mem_Ico.1 (mem_inter.1 h).2).2; omega

/-- A range that is free as a whole. -/
theorem Copies.all (hD : Represents False dest D) (hc : 1 ≤ c) (hend : b + c ≤ dest.blBlocks)
    (hd : Disjoint (Ico b (b + c)) D) (h : ∀ i, b ≤ i → i < b + c → i ∈ F) :
    Copies F D dest b (b + c) (blistFree dest b c) := by
  obtain ⟨dest', hfree, hblocks, hD'⟩ := blistFree_spec hD hc hend hd fun h => h.elim
  refine ⟨dest', hfree, hblocks, ?_⟩
  rw [inter_eq_right.2 fun i hi => h i (mem_Ico.1 hi).1 (mem_Ico.1 hi).2]; exact hD'

/-! ## Leaves -/

/-- The loop over the bits copies from bit `i` on. -/
theorem copyBits_spec {v : BitVec 32} (hv : ∀ j < 32, v.getLsbD j = decide (b + j ∈ F))
    {rounds i : ℕ} (hrounds : 32 ≤ i + rounds) (hi : i ≤ c) (hc : c ≤ 32)
    (hD : Represents False dest D) (hend : b + c ≤ dest.blBlocks)
    (hd : Disjoint (Ico (b + i) (b + c)) D) :
    Copies F D dest (b + i) (b + c) (copyBits v b c rounds i dest) := by
  induction rounds generalizing i dest D with
  | zero => exact .nothing hD fun j h1 h2 => by omega
  | succ rounds ih =>
    rw [copyBits]
    by_cases hlt : i < c
    · rw [if_pos hlt, hv i (by omega)]
      by_cases hmem : b + i ∈ F
      · rw [if_pos (decide_eq_true hmem)]
        have hone : Copies F D dest (b + i) (b + i + 1) (blistFree dest (b + i) 1) := by
          refine .all hD le_rfl (by omega) (hd.mono_left (Ico_subset_Ico le_rfl (by omega))) ?_
          intro j h1 h2; rwa [show j = b + i by omega]
        refine hone.bind _ (by omega) (by omega) fun dest' hblocks hD' => ?_
        exact ih (by omega) (by omega) hD' (by omega) (Copies.disjoint_next hd (by omega))
      · rw [if_neg (by rwa [decide_eq_true_eq])]
        have hnone : Copies F D dest (b + i) (b + i + 1) (.ok dest) := by
          refine .nothing hD fun j h1 h2 => ?_
          rwa [show j = b + i by omega]
        refine hnone.bind (copyBits v b c rounds (i + 1)) (by omega) (by omega)
          fun dest' hblocks hD' => ?_
        exact ih (by omega) (by omega) hD' (by omega) (Copies.disjoint_next hd (by omega))
    · rw [if_neg hlt]; exact .nothing hD fun j h1 h2 => by omega

/-! ## Meta nodes -/

/-- The loop over the subnodes copies from subnode `j` on. -/
theorem copyLoop_spec (sub : ℕ → ℕ → Blist → ℕ → Except Fault Blist)
    (hs : Shape N m (k + 1) p b)
    (hsub : ∀ j < 16, ∀ D dest c, b + j * radixAt k < N → 1 ≤ c → c ≤ radixAt k →
      b + j * radixAt k + c ≤ N → Represents False dest D →
      b + j * radixAt k + c ≤ dest.blBlocks →
      Disjoint (Ico (b + j * radixAt k) (b + j * radixAt k + c)) D →
      Copies F D dest (b + j * radixAt k) (b + j * radixAt k + c)
        (sub (kid k p j) (b + j * radixAt k) dest c))
    (rounds : ℕ) {j : ℕ} (hrounds : 16 ≤ j + rounds) (hj : j * radixAt k + c ≤ 16 * radixAt k)
    (hN : b + j * radixAt k + c ≤ N) (hD : Represents False dest D)
    (hend : b + j * radixAt k + c ≤ dest.blBlocks)
    (hd : Disjoint (Ico (b + j * radixAt k) (b + j * radixAt k + c)) D) :
    Copies F D dest (b + j * radixAt k) (b + j * radixAt k + c)
      (copyLoop sub m p (radixAt k) (16 * spanAt k) (spanAt k) rounds (1 + j * spanAt k)
        (b + j * radixAt k) dest c) := by
  have hpos := radixAt_pos k
  induction rounds generalizing j c dest D with
  | zero =>
    have := Nat.mul_le_mul_right (radixAt k) (show 16 ≤ j by omega)
    exact .nothing hD fun i h1 h2 => by omega
  | succ rounds ih =>
    rw [copyLoop]
    by_cases hc : c = 0
    · rw [if_neg fun h => h.1 hc]; exact .nothing hD fun i h1 h2 => by omega
    · have hj16 : j < 16 := by
        by_contra hge
        have := Nat.mul_le_mul_right (radixAt k) (show 16 ≤ j by omega)
        omega
      obtain ⟨h1, -⟩ := hs.2 j hj16
      obtain ⟨hplace, hhint⟩ := (h1 (by omega)).place
      have hkid : p + (1 + j * spanAt k) = kid k p j := rfl
      rw [if_pos ⟨hc, le_skip_iff.2 hj16⟩, hkid, Root.read_of_lt hplace, ok_bind, if_neg hhint,
        next_place, next_block]
      have hnext := next_block b k j
      have hstep : (j + 1) * radixAt k = j * radixAt k + radixAt k := Nat.succ_mul _ _
      by_cases hge : c ≥ radixAt k
      · rw [if_pos hge]
        have hkidCopy := hsub j hj16 D dest (radixAt k) (by omega) (by omega) le_rfl (by omega) hD
          (by omega) (hd.mono_left (Ico_subset_Ico le_rfl (by omega)))
        refine hkidCopy.bind _ (by omega) (by omega) fun dest' hblocks hD' => ?_
        have hrest : b + j * radixAt k + c = b + (j + 1) * radixAt k + (c - radixAt k) := by omega
        have hd' := Copies.disjoint_next (F := F) hd
          (show b + j * radixAt k ≤ b + j * radixAt k + radixAt k by omega)
        rw [hnext] at hD' hd' ⊢
        rw [hrest] at hd' ⊢; exact ih (by omega) (by omega) (by omega) hD' (by omega) hd'
      · rw [if_neg hge]
        have hkidCopy := hsub j hj16 D dest c (by omega) (by omega) (by omega) hN hD hend hd
        refine hkidCopy.bind _ (by omega) le_rfl fun dest' hblocks hD' => ?_
        -- nothing is left to copy
        cases rounds with
        | zero => exact .nothing hD' fun i h1 h2 => by omega
        | succ rounds =>
          rw [copyLoop, if_neg fun h => h.1 rfl]; exact .nothing hD' fun i h1 h2 => by omega

/-- `blst_copy` frees in `dest` the first `c` blocks of a node that are free in it. -/
theorem blstCopy_spec (fuel : ℕ) (hfuel : k + 1 ≤ fuel) (hs : Shape N m k p b)
    (hr : Rep False F N m.node k p b) (hc : 1 ≤ c) (hck : c ≤ radixAt k) (hN : b + c ≤ N)
    (hD : Represents False dest D) (hend : b + c ≤ dest.blBlocks)
    (hd : Disjoint (Ico b (b + c)) D) :
    Copies F D dest b (b + c) (blstCopy m fuel p b (radixAt k) (spanAt k - 1) dest c) := by
  induction k generalizing fuel p b c dest D with
  | zero =>
    obtain ⟨fuel, rfl⟩ : ∃ f, fuel = f + 1 := ⟨fuel - 1, by omega⟩
    rw [blstCopy, Root.read_of_lt hs.place.1, ok_bind, if_pos (radixAt_eq_bmap.2 rfl)]
    dsimp only
    rw [radixAt_zero] at hck
    by_cases hall : (m.node p).bmuBitmap = BitVec.allOnes 32
    · rw [if_pos hall]
      refine .all hD hc hend hd fun i h1 h2 => ?_
      have hbit := hr.1 (i - b) (by omega)
      rw [hall, BitVec.getLsbD_allOnes, show b + (i - b) = i by omega] at hbit
      exact of_decide_eq_true (hbit.symm.trans (decide_eq_true (by omega)))
    · rw [if_neg hall]
      by_cases hzero : (m.node p).bmuBitmap = 0
      · rw [if_neg (not_not.2 hzero)]
        refine .nothing hD fun i h1 h2 => ?_
        have hbit := hr.1 (i - b) (by omega)
        rw [hzero, show b + (i - b) = i by omega] at hbit
        exact of_decide_eq_false (hbit.symm.trans BitVec.getLsbD_zero)
      · rw [if_pos hzero]
        exact copyBits_spec (i := 0) hr.1 (by decide) (Nat.zero_le _) hck hD hend hd
  | succ k ih =>
    obtain ⟨fuel, rfl⟩ : ∃ f, fuel = f + 1 := ⟨fuel - 1, by omega⟩
    have hpos := radixAt_pos k
    have hsub := radixAt_succ k
    rw [blstCopy, Root.read_of_lt hs.place.1, ok_bind,
      if_neg (mt radixAt_eq_bmap.1 (Nat.succ_ne_zero k))]
    have hu := hr.1
    by_cases hzero : (m.node p).u = 0
    · rw [if_pos hzero]
      rw [hzero] at hu
      refine .nothing hD fun i h1 h2 => ?_
      exact cnt_eq_zero.1 (by exact_mod_cast hu.symm) i h1 (by omega)
    · rw [if_neg hzero]
      by_cases hfull : (m.node p).u = radixAt (k + 1)
      · rw [if_pos hfull]
        rw [hfull] at hu
        have hin := cnt_eq_full.1 (show cnt F b (radixAt (k + 1)) = _ by exact_mod_cast hu.symm)
        have hfree := Copies.all hD hc hend hd fun i h1 h2 => hin i h1 (by omega)
        split_ifs with hlt
        · exact hfree
        · obtain rfl : c = radixAt (k + 1) := by omega
          exact hfree
      · rw [if_neg hfull]
        dsimp only
        rw [spanAt_succ, Nat.add_sub_cancel, show blistMetaRadix = 16 from rfl, radixAt_div,
          Nat.mul_div_cancel_left _ (by decide : 0 < 16)]
        have hspan := spanAt_pos k
        have hloop := copyLoop_spec (F := F) (c := c) (j := 0) (D := D) (b := b)
          (fun i blk dest count =>
            blstCopy m fuel i blk (radixAt k) (spanAt k - 1) dest count) hs
          (fun j hj D dest c hlt h1 h2 h3 h4 h5 h6 =>
            ih fuel (by omega) ((hs.2 j hj).1 hlt) (hr.kids hzero hfull j hj hlt) h1 h2 h3 h4 h5 h6)
          (16 * spanAt k) (by omega) (by omega) (by omega) hD (by omega)
            (by rwa [Nat.zero_mul, Nat.add_zero])
        rw [Nat.zero_mul, Nat.zero_mul, Nat.add_zero] at hloop; exact hloop

/-! ## `blist_resize` -/

/-- The set of free blocks after a resize from `n` to `m` blocks. -/
def resized (F : Finset ℕ) (n m : ℕ) (freenew : Bool) : Finset ℕ :=
  F ∩ range (min n m) ∪ if freenew then Ico n m else ∅

theorem blistResize_spec {H : Prop} {bl : Blist} (h : Represents H bl F) {count : ℕ}
    (hcount : 1 ≤ count) (freenew : Bool) (junk : ℕ → Blmeta) :
    ∃ bl', blistResize bl count freenew junk = .ok bl' ∧ bl'.blBlocks = count ∧
      Represents False bl' (resized F bl.blBlocks count freenew) := by
  obtain ⟨K, h⟩ := h
  have hpos := h.pos
  have hle := h.le_radix
  obtain ⟨new, hcreate, hnew, hD⟩ := blistCreate_spec False hcount junk
  unfold blistResize
  rw [hcreate, ok_bind]
  dsimp only
  obtain ⟨n, hn⟩ : ∃ n, n = if count > bl.blBlocks then bl.blBlocks else count := ⟨_, rfl⟩
  have hmin : n = min bl.blBlocks count := by
    rw [hn]
    split_ifs <;> omega
  rw [← hn, h.radix, h.skip]
  have hspan := le_spanAt K
  obtain ⟨dest, hcopy, hblocks, hD'⟩ := blstCopy_spec (c := n) (spanAt K - 1 + 1)
    (by omega) h.shape (h.rep.mono False.elim) (by omega) (by omega) (by omega) hD (by omega)
    (disjoint_empty_right _)
  rw [hcopy, ok_bind, hblocks, hnew]
  have hset : ∅ ∪ F ∩ Ico 0 (0 + n) = F ∩ range (min bl.blBlocks count) := by
    rw [empty_union, zero_add, hmin, range_eq_Ico]
  rw [hset] at hD'
  unfold resized
  by_cases hfree : freenew = true ∧ n < count
  · rw [if_pos hfree, if_pos hfree.1]
    have hd : Disjoint (Ico n (n + (count - n))) (F ∩ range (min bl.blBlocks count)) := by
      rw [disjoint_left]
      intro y hy hin
      have h1 := (mem_Ico.1 hy).1
      have h2 := mem_range.1 (mem_inter.1 hin).2; omega
    obtain ⟨bl', hbl', hblocks', hD''⟩ := blistFree_spec (x := n) (c := count - n) hD' (by omega)
      (by omega) hd fun h => h.elim
    refine ⟨bl', hbl', by omega, ?_⟩
    rw [show n + (count - n) = count by omega, show n = bl.blBlocks by omega] at hD''
    exact hD''
  · rw [if_neg hfree]
    refine ⟨dest, rfl, by omega, ?_⟩
    have hnone : (if freenew = true then Ico bl.blBlocks count else ∅) = ∅ := by
      split_ifs with hf
      · have hge : ¬ n < count := fun hlt => hfree ⟨hf, hlt⟩
        exact Ico_eq_empty (by omega)
      · rfl
    rw [hnone, union_empty]; exact hD'

end

end FreeBSD.SubrBlist
