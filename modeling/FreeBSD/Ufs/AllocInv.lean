import FreeBSD.Ufs.FfsAlloc

/-!
# Consistent summaries of a cylinder group

`Consistent` says what each summary of a group is in terms of the map of free fragments. The counts
are sums over the blocks of the group, and a call changes the bits of one block at a time.

Results:
* `clusteracct_spec`: the runs of free blocks after a block is allocated or freed.
-/

namespace FreeBSD.Ffs

open Lib.Bitmap Lib.BitRuns Finset

variable {fs : Fs} {g g' : Grp} {m : ℕ → BitVec 8} {f : ℕ → Bool} {b k n x : ℕ} {cnt : ℤ}

/-! ## Summaries -/

/-- The bits of the block `b`. -/
def blk (frag : ℕ) (map : ℕ → BitVec 8) (b : ℕ) : ℕ → Bool :=
  fun i => decide (i < frag) && bit map (b * frag + i)

/-- Every fragment of the block is free. -/
def Whole (frag : ℕ) (f : ℕ → Bool) : Prop := ∀ i < frag, f i = true

instance (frag : ℕ) (f : ℕ → Bool) : Decidable (Whole frag f) :=
  inferInstanceAs (Decidable (∀ i < frag, f i = true))

/-- One for a wholly free block. -/
def nbOf (frag : ℕ) (f : ℕ → Bool) : ℤ := if Whole frag f then 1 else 0

/-- The free fragments of a block that is not wholly free. -/
def nfOf (frag : ℕ) (f : ℕ → Bool) : ℤ :=
  if Whole frag f then 0 else ((Finset.range frag).filter fun i => f i = true).card

/-- The runs of `k` free fragments in a block that is not wholly free. -/
def frOf (frag k : ℕ) (f : ℕ → Bool) : ℤ := if Whole frag f then 0 else tally id f frag k

/-- The sum over the blocks of a group. -/
def total (fs : Fs) (map : ℕ → BitVec 8) (F : (ℕ → Bool) → ℤ) : ℤ :=
  ∑ b ∈ Finset.range (fs.fpg / fs.frag), F (blk fs.frag map b)

/-- What the cluster map and the counts of clusters are. -/
structure Clusters (fs : Fs) (g : Grp) : Prop where
  bits : ∀ b < fs.fpg / fs.frag,
    bit g.clustersfree b = decide (Whole fs.frag (blk fs.frag g.blksfree b))
  sum : ∀ k, 0 < k → k ≤ fs.contigsumsize →
    g.clustersum k = tally (min · fs.contigsumsize) (bit g.clustersfree) g.nclusterblks k
  max : ∀ k, 0 < k → k ≤ fs.contigsumsize → 0 < g.clustersum k → k ≤ g.maxcluster

/-- The summaries of the group agree with its map. -/
structure Consistent (fs : Fs) (cg : ℕ) (g : Grp) : Prop where
  cgx : g.cgx = cg
  ndblk : g.ndblk ≤ fs.fpg
  nclusterblks : g.nclusterblks = g.ndblk / fs.frag
  frotor : g.frotor < fs.fpg
  clear : ∀ x, g.ndblk ≤ x → bit g.blksfree x = false
  nbfree : g.cs.nbfree = total fs g.blksfree (nbOf fs.frag)
  nffree : g.cs.nffree = total fs g.blksfree (nfOf fs.frag)
  frsum : ∀ k, 0 < k → k < fs.frag → g.frsum k = total fs g.blksfree (frOf fs.frag k)
  fsCs : g.fsCs = g.cs
  clusters : 0 < fs.contigsumsize → Clusters fs g

/-! ## Blocks -/

theorem Fs.frag_pos (fs : Fs) : 0 < fs.frag := frags_pos _ fs.frag_mem

theorem blk_apply {frag i : ℕ} (hi : i < frag) : blk frag m b i = bit m (b * frag + i) := by
  rw [blk, decide_eq_true hi, Bool.true_and]

/-- The block of a fragment. -/
theorem div_frag {frag i : ℕ} (hi : i < frag) : (b * frag + i) / frag = b := by
  rw [mul_comm, Nat.mul_add_div (by omega), Nat.div_eq_of_lt hi, add_zero]

/-- The fragments of a block. -/
theorem forall_block {frag : ℕ} (hpos : 0 < frag) {P : ℕ → Prop} :
    (∀ x, x / frag = b → P x) ↔ ∀ i < frag, P (b * frag + i) := by
  constructor
  · exact fun h i hi => h _ (div_frag hi)
  · rintro h x rfl
    have hx := h (x % frag) (Nat.mod_lt x hpos)
    rwa [Nat.div_add_mod'] at hx

theorem isblock_whole (fs : Fs) :
    ffsIsblock fs.frag m b = true ↔ Whole fs.frag (blk fs.frag m b) := by
  rw [isblock_iff fs.frag_mem, forall_block fs.frag_pos]
  exact forall₂_congr fun i hi => by rw [blk_apply hi]

theorem blkmap_blk (fs : Fs) (m : ℕ → BitVec 8) (b : ℕ) :
    (blkmap fs.frag m (b * fs.frag)).testBit = blk fs.frag m b := by
  funext i
  rw [blkmap_testBit fs.frag_mem m (dvd_mul_left _ _), blk]

theorem blk_congr {frag : ℕ} {m' : ℕ → BitVec 8} (h : ∀ x, x / frag = b → bit m' x = bit m x) :
    blk frag m' b = blk frag m b := by
  funext i
  rw [blk, blk]
  by_cases hi : i < frag
  · rw [h _ (div_frag hi)]
  · rw [decide_eq_false hi, Bool.false_and, Bool.false_and]

/-- A block that lies in the map. -/
theorem Consistent.block_lt {cg : ℕ} (h : Consistent fs cg g)
    (hfree : Whole fs.frag (blk fs.frag g.blksfree b)) : b < g.nclusterblks := by
  have hpos := fs.frag_pos
  have hlast := hfree (fs.frag - 1) (by omega)
  rw [blk_apply (by omega)] at hlast
  have hlt : b * fs.frag + (fs.frag - 1) < g.ndblk := by
    by_contra hge
    rw [h.clear _ (not_lt.1 hge)] at hlast
    cases hlast
  rw [h.nclusterblks, Nat.lt_iff_add_one_le, Nat.le_div_iff_mul_le hpos, add_mul]; omega

theorem Consistent.nclusterblks_le {cg : ℕ} (h : Consistent fs cg g) :
    g.nclusterblks ≤ fs.fpg / fs.frag := by
  rw [h.nclusterblks]; exact Nat.div_le_div_right h.ndblk

/-- A sum over the blocks changes by what it changes for the block. -/
theorem total_change {m' : ℕ → BitVec 8} (F : (ℕ → Bool) → ℤ) (hb : b < fs.fpg / fs.frag)
    (h : ∀ x, x / fs.frag ≠ b → bit m' x = bit m x) :
    total fs m' F = total fs m F - F (blk fs.frag m b) + F (blk fs.frag m' b) := by
  have hmem := mem_range.2 hb
  have hrest : ∑ c ∈ (Finset.range (fs.fpg / fs.frag)).erase b, F (blk fs.frag m' c) =
      ∑ c ∈ (Finset.range (fs.fpg / fs.frag)).erase b, F (blk fs.frag m c) := by
    refine sum_congr rfl fun c hc => ?_
    have hcb := ne_of_mem_erase hc
    rw [blk_congr fun x hx => h x (by rw [hx]; exact hcb)]
  rw [total, total, ← add_sum_erase _ _ hmem, ← add_sum_erase _ _ hmem, hrest]; ring

/-! ## Counts -/

theorem addAt_apply (l : ℕ → ℤ) (i : ℕ) (d : ℤ) (k : ℕ) :
    addAt l i d k = l k + d * if i = k then 1 else 0 := by
  rw [addAt]
  by_cases hik : i = k
  · rw [if_pos hik, hik, Function.update_self, mul_one]
  · rw [if_neg hik, Function.update_of_ne (Ne.symm hik), mul_zero, add_zero]

theorem addAt_if (p : Prop) [Decidable p] (l : ℕ → ℤ) (i : ℕ) (d : ℤ) (k : ℕ) :
    (if p then addAt l i d else l) k = l k + d * if p ∧ i = k then 1 else 0 := by
  by_cases hp : p
  · simp only [hp, if_true, true_and, addAt_apply]
  · simp only [hp, if_false, false_and, mul_zero, add_zero]

theorem le_maxPos (l : ℕ → ℤ) (hk : 0 < k) (hkn : k ≤ n) (hpos : 0 < l k) : k ≤ maxPos l n := by
  induction n with
  | zero => omega
  | succ n ih =>
    rw [maxPos]
    split
    · exact hkn
    · next hle =>
      have hne : k ≠ n + 1 := fun heq => hle (by rwa [← heq])
      exact ih (by omega)

theorem countForw_min (a : ℕ → BitVec 8) (c n i : ℕ) :
    countForw a (min c n) i = min c (countForw a n i) := by
  induction n generalizing c i with
  | zero => simp [countForw]
  | succ n ih =>
    cases c with
    | zero => simp [countForw]
    | succ c =>
      rw [Nat.succ_min_succ, countForw, countForw, ih]
      split
      · omega
      · rw [Nat.min_zero]

theorem countBack_min (a : ℕ → BitVec 8) (c n i : ℕ) :
    countBack a (min c n) i = min c (countBack a n i) := by
  induction n generalizing c i with
  | zero => simp [countBack]
  | succ n ih =>
    cases c with
    | zero => simp [countBack]
    | succ c =>
      rw [Nat.succ_min_succ, countBack, countBack, ih]
      split
      · omega
      · rw [Nat.min_zero]

/-! ## Clusters -/

/-- The runs on both sides of a block, as they are counted. -/
theorem between_counts (hm : ∀ i, i ≠ x → bit m i = f i) (hx : f x = false) (hxn : x < n) :
    Between f n x (countBack m x x) (countForw m (n - (x + 1)) (x + 1)) := by
  have hback := countBack_le m x x
  have hforw := countForw_le m (n - (x + 1)) (x + 1)
  exact {
    clear := hx
    back_le := hback
    back := fun i hi hix => by
      rw [← hm i (by omega)]
      exact countBack_set m x x i le_rfl hix hi
    back_end := by
      by_cases hend : countBack m x x = x
      · exact .inl hend
      · refine .inr ?_
        rw [← hm _ (by omega)]
        exact countBack_clear m x x (by omega)
    forw_le := by omega
    forw := fun i hxi hi => by
      rw [← hm i (by omega)]
      exact countForw_set m _ _ i hxi hi
    forw_end := by
      by_cases hend : countForw m (n - (x + 1)) (x + 1) = n - (x + 1)
      · exact .inl (by omega)
      · refine .inr ?_
        rw [← hm _ (by omega)]
        exact countForw_clear m _ _ (by omega) }

/-- The counts of the runs of blocks after the bit of the block `x` has become `cnt > 0`. -/
theorem clusteracct_sum (hcnt : cnt = 1 ∨ cnt = -1) (hpos : 0 < fs.contigsumsize)
    (hx : x < g.nclusterblks) (hbit : bit g.clustersfree x = decide (cnt = -1)) :
    (ffsClusteracct fs g x cnt).clustersum k = g.clustersum k
      - tally (min · fs.contigsumsize) (bit g.clustersfree) g.nclusterblks k
      + tally (min · fs.contigsumsize) (bit (ffsClusteracct fs g x cnt).clustersfree)
        g.nclusterblks k := by
  have hmin : ∀ start, min (start + fs.contigsumsize) g.nclusterblks - start =
      min fs.contigsumsize (g.nclusterblks - start) := fun start => by omega
  rw [ffsClusteracct, if_neg (by omega)]
  dsimp only
  generalize hm : (if cnt > 0 then setBit g.clustersfree x else clrBit g.clustersfree x) = m
  have hne : ∀ i, i ≠ x → bit m i = bit g.clustersfree i := fun i hi => by
    rw [← hm]
    split
    · rw [bit_setBit, decide_eq_false hi, Bool.false_or]
    · rw [bit_clrBit, decide_eq_false hi, Bool.not_false, Bool.true_and]
  rw [hmin, countForw_min, countBack_min]
  -- the map without the block has the runs on both sides
  have htally : (tally (min · fs.contigsumsize) (bit m) g.nclusterblks k : ℤ) =
      tally (min · fs.contigsumsize) (bit g.clustersfree) g.nclusterblks k +
        cnt * ((if min (countBack m x x + countForw m (g.nclusterblks - (x + 1)) (x + 1) + 1)
            fs.contigsumsize = k then 1 else 0)
          - (if 0 < countBack m x x ∧ min (countBack m x x) fs.contigsumsize = k then 1 else 0)
          - (if 0 < countForw m (g.nclusterblks - (x + 1)) (x + 1) ∧
              min (countForw m (g.nclusterblks - (x + 1)) (x + 1)) fs.contigsumsize = k
              then 1 else 0)) := by
    rcases hcnt with rfl | rfl
    · have hold : bit g.clustersfree x = false := hbit
      have hset := tally_set (w := (min · fs.contigsumsize)) (k := k)
        (between_counts hne hold hx) (g := bit m) fun i => by
          rw [← hm, if_pos (by decide), bit_setBit, Bool.or_comm]
      rw [hset]; ring
    · have hold : bit g.clustersfree x = true := hbit
      have hnew : bit m x = false := by
        rw [← hm, if_neg (by decide), bit_clrBit, decide_eq_true rfl, Bool.not_true,
          Bool.false_and]
      have hset := tally_set (w := (min · fs.contigsumsize)) (k := k)
        (between_counts (fun i _ => rfl) hnew hx) (g := bit g.clustersfree) fun i => by
          by_cases hi : i = x
          · rw [hi, hold, decide_eq_true rfl, Bool.or_true]
          · rw [hne i hi, decide_eq_false hi, Bool.or_false]
      rw [hset]; ring
  rw [htally]
  generalize countBack m x x = B
  generalize countForw m (g.nclusterblks - (x + 1)) (x + 1) = F
  have hB : 0 < min B fs.contigsumsize ↔ 0 < B := by omega
  have hF : 0 < min F fs.contigsumsize ↔ 0 < F := by omega
  have hjoin : min (min B fs.contigsumsize + min F fs.contigsumsize + 1) fs.contigsumsize =
      min (B + F + 1) fs.contigsumsize := by omega
  simp only [gt_iff_lt, hB, hF, hjoin, min_comm fs.contigsumsize, addAt_if, addAt_apply]; ring

theorem clusteracct_bit (hpos : 0 < fs.contigsumsize) (hcnt : cnt = 1 ∨ cnt = -1) (i : ℕ) :
    bit (ffsClusteracct fs g x cnt).clustersfree i =
      if i = x then decide (cnt = 1) else bit g.clustersfree i := by
  rw [ffsClusteracct, if_neg (by omega)]
  dsimp only
  rcases hcnt with rfl | rfl
  · rw [if_pos (by decide), bit_setBit]
    by_cases hi : i = x
    · rw [if_pos hi, decide_eq_true hi, Bool.true_or]; rfl
    · rw [if_neg hi, decide_eq_false hi, Bool.false_or]
  · rw [if_neg (by decide), bit_clrBit]
    by_cases hi : i = x
    · rw [if_pos hi, decide_eq_true hi, Bool.not_true, Bool.false_and]; rfl
    · rw [if_neg hi, decide_eq_false hi, Bool.not_false, Bool.true_and]

/-- Only the clusters are touched. -/
theorem clusteracct_eq (fs : Fs) (g : Grp) (x : ℕ) (cnt : ℤ) :
    ∃ clustersfree clustersum maxcluster, ffsClusteracct fs g x cnt =
      { g with
        clustersfree := clustersfree
        clustersum := clustersum
        maxcluster := maxcluster } := by
  rw [ffsClusteracct]
  split
  · exact ⟨_, _, _, rfl⟩
  · exact ⟨_, _, _, rfl⟩

/-- The clusters after a block has become free or has been taken. -/
theorem clusteracct_spec (hcnt : cnt = 1 ∨ cnt = -1) (hpos : 0 < fs.contigsumsize)
    (hx : x < g.nclusterblks) (h : Clusters fs { g with blksfree := m })
    (hold : Whole fs.frag (blk fs.frag m x) ↔ cnt = -1)
    (hnew : Whole fs.frag (blk fs.frag g.blksfree x) ↔ cnt = 1)
    (hsame : ∀ b, b ≠ x → (Whole fs.frag (blk fs.frag g.blksfree b) ↔
      Whole fs.frag (blk fs.frag m b))) (hle : g.nclusterblks ≤ fs.fpg / fs.frag) :
    Clusters fs (ffsClusteracct fs g x cnt) := by
  have hbit : bit g.clustersfree x = decide (cnt = -1) := by
    rw [h.bits x (by omega)]
    exact decide_eq_decide.2 hold
  obtain ⟨cf, cs, mx, heq⟩ := clusteracct_eq fs g x cnt
  have hfree : (ffsClusteracct fs g x cnt).blksfree = g.blksfree := by rw [heq]
  have hncl : (ffsClusteracct fs g x cnt).nclusterblks = g.nclusterblks := by rw [heq]
  exact {
    bits := fun b hb => by
      rw [clusteracct_bit hpos hcnt, hfree]
      by_cases hbx : b = x
      · rw [if_pos hbx, hbx]; exact decide_eq_decide.2 hnew.symm
      · rw [if_neg hbx, h.bits b hb]; exact decide_eq_decide.2 (hsame b hbx).symm
    sum := fun k hk hkc => by rw [clusteracct_sum hcnt hpos hx hbit, h.sum k hk hkc, hncl]; ring
    max := fun k hk hkc hp => by
      rw [ffsClusteracct, if_neg (by omega)] at hp ⊢
      exact le_maxPos _ hk hkc hp }

/-! ## Changes of one block -/

/-- The clusters depend on which blocks are wholly free. -/
theorem Clusters.congr (h : Clusters fs g)
    (hsame : ∀ b, Whole fs.frag (blk fs.frag g'.blksfree b) ↔ Whole fs.frag
      (blk fs.frag g.blksfree b))
    (hfree : g'.clustersfree = g.clustersfree) (hsum : g'.clustersum = g.clustersum)
    (hncl : g'.nclusterblks = g.nclusterblks) (hmax : g'.maxcluster = g.maxcluster) :
    Clusters fs g' where
  bits b hb := by rw [hfree, h.bits b hb]; exact decide_eq_decide.2 (hsame b).symm
  sum k hk hkc := by rw [hsum, hfree, hncl, h.sum k hk hkc]
  max k hk hkc hp := by
    rw [hsum] at hp
    rw [hmax]; exact h.max k hk hkc hp

/-- A call that changes the bits of the block `b`. -/
structure Change (fs : Fs) (g g' : Grp) (b : ℕ) : Prop where
  cgx : g'.cgx = g.cgx
  ndblk : g'.ndblk = g.ndblk
  nclusterblks : g'.nclusterblks = g.nclusterblks
  frotor : g'.frotor < fs.fpg
  fsCs : g.fsCs = g.cs → g'.fsCs = g'.cs
  clear : ∀ x, g.ndblk ≤ x → bit g'.blksfree x = false
  others : ∀ x, x / fs.frag ≠ b → bit g'.blksfree x = bit g.blksfree x
  nbfree : g'.cs.nbfree = g.cs.nbfree - nbOf fs.frag (blk fs.frag g.blksfree b) +
    nbOf fs.frag (blk fs.frag g'.blksfree b)
  nffree : g'.cs.nffree = g.cs.nffree - nfOf fs.frag (blk fs.frag g.blksfree b) +
    nfOf fs.frag (blk fs.frag g'.blksfree b)
  frsum : ∀ k, 0 < k → k < fs.frag → g'.frsum k = g.frsum k -
    frOf fs.frag k (blk fs.frag g.blksfree b) + frOf fs.frag k (blk fs.frag g'.blksfree b)

theorem Change.consistent {cg : ℕ} (hc : Change fs g g' b) (h : Consistent fs cg g)
    (hb : b < fs.fpg / fs.frag) (hcl : 0 < fs.contigsumsize → Clusters fs g') :
    Consistent fs cg g' where
  cgx := hc.cgx.trans h.cgx
  ndblk := by rw [hc.ndblk]; exact h.ndblk
  nclusterblks := by rw [hc.nclusterblks, hc.ndblk, h.nclusterblks]
  frotor := hc.frotor
  clear x hx := hc.clear x (by rwa [hc.ndblk] at hx)
  nbfree := by rw [total_change _ hb hc.others, ← h.nbfree, hc.nbfree]
  nffree := by rw [total_change _ hb hc.others, ← h.nffree, hc.nffree]
  frsum k hk hkf := by rw [total_change _ hb hc.others, ← h.frsum k hk hkf, hc.frsum k hk hkf]
  fsCs := hc.fsCs h.fsCs
  clusters := hcl

end FreeBSD.Ffs
