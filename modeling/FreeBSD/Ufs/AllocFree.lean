import FreeBSD.Ufs.AllocFrags

/-!
# Deallocation

`ffs_blkfree` puts a block back, or fragments of one. When the fragments make the block whole, they
are taken out of the counts of fragments, and the block is counted.
-/

namespace FreeBSD.Ffs

open Lib.Bitmap Lib.BitRuns

variable {fs : Fs} {g g' : Grp} {m : ℕ → BitVec 8} {io : Bool} {bno : ℤ} {b c k n p x cg : ℕ}

/-- The group after the `n` fragments from `p` on, which were allocated, have been freed. -/
structure Freed (fs : Fs) (cg : ℕ) (g g' : Grp) (p n : ℕ) : Prop where
  consistent : Consistent fs cg g'
  ndblk : g'.ndblk = g.ndblk
  bits : ∀ x, bit g'.blksfree x = (decide (p ≤ x ∧ x < p + n) || bit g.blksfree x)

theorem freeFrags_eq (m : ℕ → BitVec 8) (n p : ℕ)
    (h : ∀ x, p ≤ x → x < p + n → bit m x = false) : freeFrags m n p = .ok (setBits m p n) := by
  induction n generalizing m p with
  | zero => rfl
  | succ n ih =>
    have hfirst := h p le_rfl (by omega)
    rw [freeFrags, if_neg (by rw [hfirst]; decide), setBits]
    refine ih _ _ fun x hx hx' => ?_
    rw [bit_setBit, decide_eq_false (by omega), Bool.false_or]
    exact h x (by omega) (by omega)

/-- What is freed: `n` fragments of the block `b` that are allocated, from `x` on. -/
structure Frees (fs : Fs) (g : Grp) (x n b : ℕ) : Prop where
  pos : 0 < n
  start : b * fs.frag ≤ x
  stop : x + n ≤ b * fs.frag + fs.frag
  ndblk : x + n ≤ g.ndblk
  alloc : ∀ y, x ≤ y → y < x + n → bit g.blksfree y = false

/-- The map and the terms of the block after the fragments have been freed. -/
structure FreeTerms (fs : Fs) (g : Grp) (map : ℕ → BitVec 8) (x n b : ℕ) : Prop where
  bits : ∀ y, bit map y = (decide (x ≤ y ∧ y < x + n) || bit g.blksfree y)
  others : ∀ y, y / fs.frag ≠ b → bit map y = bit g.blksfree y
  old : ¬Whole fs.frag (blk fs.frag g.blksfree b)
  card : (((Finset.range fs.frag).filter fun i => blk fs.frag map b i = true).card : ℤ) =
    ((Finset.range fs.frag).filter fun i => blk fs.frag g.blksfree b i = true).card + n
  clear : ∀ y, g.ndblk ≤ y → bit map y = false

theorem Frees.terms (hf : Frees fs g x n b) {cg : ℕ} (h : Consistent fs cg g)
    (hbits : ∀ y, bit m y = (decide (x ≤ y ∧ y < x + n) || bit g.blksfree y)) :
    FreeTerms fs g m x n b where
  bits := hbits
  others y hy := by
    have hstart := hf.start
    have hstop := hf.stop
    have hout : ¬(x ≤ y ∧ y < x + n) := fun hin =>
      hy ((in_block fs.frag_pos b y).2 ⟨by omega, by omega⟩)
    rw [hbits, decide_eq_false hout, Bool.false_or]
  old hw := by
    have hpos := hf.pos
    have hstart := hf.start
    have hstop := hf.stop
    have hset := whole_free fs hw x ((in_block fs.frag_pos b x).2 ⟨hstart, by omega⟩)
    rw [hf.alloc x le_rfl (by omega)] at hset
    cases hset
  card := by
    have hstart := hf.start
    have hstop := hf.stop
    have hblk : ∀ i < fs.frag, blk fs.frag m b i =
        (decide (x ≤ b * fs.frag + i ∧ b * fs.frag + i < x + n) ||
          blk fs.frag g.blksfree b i) := fun i hi => by
      rw [blk_apply hi, blk_apply hi, hbits]
    have htake : (((Finset.range fs.frag).filter fun i =>
        blk fs.frag g.blksfree b i = true).card : ℤ) =
        ((Finset.range fs.frag).filter fun i => blk fs.frag m b i = true).card - n :=
      card_take (p := x - b * fs.frag) (by omega)
      (fun i hpi hi => by
        rw [hblk i (by omega), decide_eq_true ⟨by omega, by omega⟩, Bool.true_or])
      fun i => by
        by_cases hi : i < fs.frag
        · by_cases hin : x - b * fs.frag ≤ i ∧ i < x - b * fs.frag + n
          · rw [decide_eq_true hin, Bool.not_true, Bool.and_false, blk_apply hi]
            exact hf.alloc _ (by omega) (by omega)
          · rw [decide_eq_false hin, Bool.not_false, Bool.and_true, hblk i hi,
              decide_eq_false (by omega), Bool.false_or]
        · rw [blk, blk, decide_eq_false hi, Bool.false_and, Bool.false_and, Bool.false_and]
    omega
  clear y hy := by
    have hndblk := hf.ndblk
    rw [hbits, decide_eq_false (by omega), Bool.false_or, h.clear y hy]

/-- The group after its block `b` has become whole, with what has been counted. -/
theorem whole_spec (h : Consistent fs cg g) (ht : FreeTerms fs g m x n b)
    (hw : Whole fs.frag (blk fs.frag m b)) (hgm : g'.blksfree = m) (hcgx : g'.cgx = g.cgx)
    (hndblk : g'.ndblk = g.ndblk) (hncl : g'.nclusterblks = g.nclusterblks)
    (hfrotor : g'.frotor = g.frotor) (hfsCs : g.fsCs = g.cs → g'.fsCs = g'.cs)
    (hnb : g'.cs.nbfree = g.cs.nbfree)
    (hnf : g'.cs.nffree = g.cs.nffree - nfOf fs.frag (blk fs.frag g.blksfree b))
    (hfr : ∀ k, 0 < k → k < fs.frag →
      g'.frsum k = g.frsum k - frOf fs.frag k (blk fs.frag g.blksfree b))
    (hcf : g'.clustersfree = g.clustersfree) (hcsum : g'.clustersum = g.clustersum)
    (hmax : g'.maxcluster = g.maxcluster) :
    Freed fs cg g ((ffsClusteracct fs g' b 1).addCs 1 0) x n := by
  subst hgm
  have hpos := fs.frag_pos
  have hend : b * fs.frag + fs.frag ≤ g.ndblk := by
    by_contra hgt
    have hset := hw (fs.frag - 1) (by omega)
    rw [blk_apply (by omega), ht.clear _ (by omega)] at hset
    cases hset
  have hbn : b < g.nclusterblks := by
    rw [h.nclusterblks, Nat.lt_iff_add_one_le, Nat.le_div_iff_mul_le hpos, add_mul]; omega
  have hbl := hbn.trans_le h.nclusterblks_le
  obtain ⟨cf, cs, mx, heq⟩ := clusteracct_eq fs g' b 1
  have hcl : 0 < fs.contigsumsize → Clusters fs (ffsClusteracct fs g' b 1) := fun hcpos => by
    refine clusteracct_spec (m := g.blksfree) (.inl rfl) hcpos (by rwa [hncl])
      ((h.clusters hcpos).congr (fun _ => Iff.rfl) hcf hcsum hncl hmax)
      (iff_of_false ht.old (by decide)) (iff_of_true hw rfl) (fun c hc => ?_) ?_
    · rw [blk_congr fun y hy => ht.others y (by rw [hy]; exact hc)]
    · rw [hncl]; exact h.nclusterblks_le
  rw [heq] at hcl ⊢
  refine ⟨Change.consistent (b := b) ?_ h hbl fun hcpos =>
    (hcl hcpos).congr (fun _ => Iff.rfl) rfl rfl rfl rfl, hndblk, ht.bits⟩
  exact {
    cgx := hcgx
    ndblk := hndblk
    nclusterblks := hncl
    frotor := hfrotor ▸ h.frotor
    fsCs := fun hcs => by simp only [Grp.addCs, hfsCs hcs]
    clear := ht.clear
    others := ht.others
    nbfree := by
      simp only [Grp.addCs, Csum.add]
      rw [hnb, nbOf_whole hw, nbOf_not ht.old]; ring
    nffree := by
      simp only [Grp.addCs, Csum.add]
      rw [hnf, nfOf_whole hw]
    frsum := fun k hk hkf => by
      simp only [Grp.addCs]
      rw [hfr k hk hkf, frOf_whole hw]
      ring }

/-- The counts of runs after the fragments have been freed. -/
theorem frsum_free (fs : Fs) (m m' : ℕ → BitVec 8) (frsum : ℕ → ℤ) (hk : 0 < k)
    (hkf : k < fs.frag) :
    ffsFragacct fs.frag (blkmap fs.frag m' (b * fs.frag))
      (ffsFragacct fs.frag (blkmap fs.frag m (b * fs.frag)) frsum (-1)) 1 k =
    frsum k - frOf fs.frag k (blk fs.frag m b) + frOf fs.frag k (blk fs.frag m' b) := by
  have hlt : ∀ m, blkmap fs.frag m (b * fs.frag) < 2 ^ fs.frag := fun m =>
    blkmap_lt fs.frag_mem m (dvd_mul_left _ _)
  rw [fragacct_eq fs.frag_mem (hlt m') _ _ hk hkf, fragacct_eq fs.frag_mem (hlt m) _ _ hk hkf,
    blkmap_blk, blkmap_blk, frOf_eq hkf, frOf_eq hkf]
  ring

/-- Fragments of one block that were allocated are free afterwards. -/
theorem blkfree_spec (io : Bool) (h : Consistent fs cg g) (hbno : 0 ≤ bno)
    (hf : Frees fs g (bno.toNat % fs.fpg) n b) :
    ∃ g', ffsBlkfree fs g bno n io = .ok g' ∧
      (if bno % 2 ^ 32 ≥ fs.size ∨ ¬io then g' = g
        else Freed fs cg g g' (bno.toNat % fs.fpg) n) := by
  rw [ffsBlkfree]
  by_cases hrange : bno % 2 ^ 32 ≥ fs.size
  · rw [if_pos hrange]; exact ⟨g, rfl, by rw [if_pos (.inl hrange)]⟩
  rw [if_neg hrange]
  by_cases hio : ¬io
  · rw [if_pos hio]; exact ⟨g, rfl, by rw [if_pos (.inr hio)]⟩
  have hgo : ¬(bno % 2 ^ 32 ≥ fs.size ∨ ¬io) := not_or.2 ⟨hrange, hio⟩
  simp only [if_neg hio, if_neg hgo, mapIdx_dtogd fs hbno, ok_bind]
  have hx := Nat.mod_lt bno.toNat fs.fpg_pos
  generalize bno.toNat % fs.fpg = x at hf hx ⊢
  have hpos := fs.frag_pos
  have hn := hf.pos
  have hstart := hf.start
  have hstop := hf.stop
  have hxb : x / fs.frag = b := (in_block hpos b x).2 ⟨hstart, by omega⟩
  by_cases hsize : n = fs.frag
  · -- a whole block
    have hxs : x = b * fs.frag := by omega
    have halloc : ffsIsfreeblock fs.frag g.blksfree b = true := by
      rw [isfreeblock_iff fs.frag_mem]
      intro y hy
      have hin := (in_block hpos b y).1 hy
      exact hf.alloc y (by omega) (by omega)
    have hterms := hf.terms (m := ffsSetblock fs.frag g.blksfree b) h fun y => by
      rw [bit_setblock fs.frag_mem, Bool.or_comm]
      congr 1
      exact decide_eq_decide.2 (by rw [in_block hpos b y]; omega)
    have hw : Whole fs.frag (blk fs.frag (ffsSetblock fs.frag g.blksfree b) b) := fun i hi => by
      rw [blk_apply hi, hterms.bits, decide_eq_true ⟨by omega, by omega⟩, Bool.true_or]
    have hold : ∀ i < fs.frag, blk fs.frag g.blksfree b i = false := fun i hi => by
      rw [blk_apply hi]; exact hf.alloc _ (by omega) (by omega)
    obtain ⟨-, hnf, hfr⟩ := terms_clear hpos hold
    rw [if_pos hsize, hxb, if_neg (by rw [halloc]; decide)]
    refine ⟨_, rfl, whole_spec h hterms hw rfl rfl rfl rfl rfl id rfl ?_ (fun k _ hkf => ?_)
      rfl rfl rfl⟩
    · rw [hnf, sub_zero]
    · rw [hfr k hkf, sub_zero]
  · -- fragments of a block
    have hdiv := Nat.div_add_mod' x fs.frag
    have hbase : x - x % fs.frag = b * fs.frag := by rw [← hxb]; omega
    have hterms := hf.terms (m := setBits g.blksfree x n) h fun y => bit_setBits g.blksfree x n y
    rw [if_neg hsize, hbase, freeFrags_eq g.blksfree n x hf.alloc, ok_bind,
      Nat.mul_div_cancel b hpos]
    by_cases hw : Whole fs.frag (blk fs.frag (setBits g.blksfree x n) b)
    · -- a complete block has been reassembled
      have hcard : (((Finset.range fs.frag).filter fun i =>
          blk fs.frag (setBits g.blksfree x n) b i = true).card : ℤ) = fs.frag := by
        rw [Finset.filter_true_of_mem fun i hi => hw i (Finset.mem_range.1 hi), Finset.card_range]
      have hnf := nfOf_not hterms.old
      have hfrees := hterms.card
      rw [if_pos ((isblock_whole fs).2 hw)]
      refine ⟨_, rfl, whole_spec h hterms hw rfl rfl rfl rfl rfl
        (fun hcs => by simp only [Grp.addCs, hcs]) ?_ ?_ (fun k hk hkf => ?_) rfl rfl rfl⟩
      · simp only [Grp.addCs, Csum.add]; ring
      · simp only [Grp.addCs, Csum.add]
        rw [hnf]; omega
      · simp only [Grp.addCs]
        rw [frsum_free fs _ _ _ hk hkf, frOf_whole hw, add_zero]
    · have hbl : b < fs.fpg / fs.frag := by
        rw [← hxb, Nat.div_lt_iff_lt_mul hpos, Nat.div_mul_cancel fs.frag_dvd]; exact hx
      have hnw : ∀ b', Whole fs.frag (blk fs.frag (setBits g.blksfree x n) b') ↔
          Whole fs.frag (blk fs.frag g.blksfree b') := fun b' => by
        by_cases hbb : b' = b
        · rw [hbb]; exact iff_of_false hw hterms.old
        · rw [blk_congr fun y hy => hterms.others y (by rw [hy]; exact hbb)]
      rw [if_neg fun hb => hw ((isblock_whole fs).1 hb)]
      refine ⟨_, rfl, Change.consistent (b := b) ?_ h hbl fun hcpos =>
        (h.clusters hcpos).congr hnw rfl rfl rfl rfl, rfl, hterms.bits⟩
      exact {
        cgx := rfl
        ndblk := rfl
        nclusterblks := rfl
        frotor := h.frotor
        fsCs := fun hcs => by simp only [Grp.addCs, hcs]
        clear := hterms.clear
        others := hterms.others
        nbfree := by
          simp only [Grp.addCs, Csum.add]
          rw [nbOf_not hterms.old, nbOf_not hw]; ring
        nffree := by
          simp only [Grp.addCs, Csum.add]
          rw [nfOf_not hterms.old, nfOf_not hw, hterms.card]; ring
        frsum := fun k hk hkf => by
          simp only [Grp.addCs]
          rw [frsum_free fs _ _ _ hk hkf] }

end FreeBSD.Ffs
