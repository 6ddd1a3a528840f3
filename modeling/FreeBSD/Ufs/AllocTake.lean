import FreeBSD.Ufs.AllocSearch

/-!
# Allocation in a consistent group

A block is taken out of the map whole. Fewer fragments are the front of a run inside a block that
is not wholly free, or the front of a free block of which the rest is put back ("hacked up").

Results:
* `alloccgblk_spec`: a free block is taken if there is one, the preferred one if it is free.
-/

namespace FreeBSD.Ffs

open Lib.Bitmap Lib.BitRuns Finset

variable {fs : Fs} {g g' : Grp} {m : ℕ → BitVec 8} {f f' : ℕ → Bool} {io : Bool} {bpref : ℤ}
  {a b c k n p cg frag size : ℕ}

/-! ## The terms of the sums -/

theorem nbOf_whole (h : Whole frag f) : nbOf frag f = 1 := if_pos h

theorem nfOf_whole (h : Whole frag f) : nfOf frag f = 0 := if_pos h

theorem frOf_whole (h : Whole frag f) : frOf frag k f = 0 := if_pos h

theorem nbOf_not (h : ¬Whole frag f) : nbOf frag f = 0 := if_neg h

theorem nfOf_not (h : ¬Whole frag f) :
    nfOf frag f = ((Finset.range frag).filter fun i => f i = true).card := if_neg h

/-- A run that is shorter than the block is in a block that is not wholly free. -/
theorem frOf_eq (hk : k < frag) : frOf frag k f = tally id f frag k := by
  rw [frOf]
  split
  · next hw =>
    rw [tally, runs_full (by omega) hw, filter_singleton, if_neg
      (by simp only [id_eq]; omega),
      card_empty, Nat.cast_zero]
  · rfl

theorem tally_clearall (h : ∀ i < frag, f i = false) : tally id f frag k = 0 := by
  rw [tally, card_eq_zero, filter_eq_empty_iff]
  rintro ⟨p, a⟩ hmem
  have hrun := mem_runs.1 hmem
  have hpos := hrun.pos
  have hle := hrun.le
  have hset := hrun.set p le_rfl (by omega)
  rw [h p (by omega)] at hset
  cases hset

/-- The terms of a block that is wholly allocated. -/
theorem terms_clear (hpos : 0 < frag) (h : ∀ i < frag, f i = false) :
    nbOf frag f = 0 ∧ nfOf frag f = 0 ∧ ∀ k < frag, frOf frag k f = 0 := by
  have hnw : ¬Whole frag f := fun hw => by
    have hset := hw 0 hpos
    rw [h 0 hpos] at hset
    cases hset
  refine ⟨nbOf_not hnw, ?_, fun k hk => ?_⟩
  · rw [nfOf_not hnw, Nat.cast_eq_zero, card_eq_zero, filter_eq_empty_iff]
    intro i hi hset
    rw [h i (mem_range.1 hi)] at hset
    cases hset
  · rw [frOf_eq hk, tally_clearall h, Nat.cast_zero]

/-- The free fragments after some have been taken. -/
theorem card_take (hle : p + c ≤ frag) (hset : ∀ i, p ≤ i → i < p + c → f i = true)
    (hf' : ∀ i, f' i = (f i && !decide (p ≤ i ∧ i < p + c))) :
    (((Finset.range frag).filter fun i => f' i = true).card : ℤ) =
      ((Finset.range frag).filter fun i => f i = true).card - c := by
  have hunion : (Finset.range frag).filter (fun i => f i = true) =
      (Finset.range frag).filter (fun i => f' i = true) ∪ Finset.Ico p (p + c) := by
    ext i
    simp only [mem_union, mem_filter, mem_range, mem_Ico, hf',
      Bool.and_eq_true, Bool.not_eq_true', decide_eq_false_iff_not]
    constructor
    · rintro ⟨hi, hbit⟩
      by_cases hin : p ≤ i ∧ i < p + c
      · exact .inr hin
      · exact .inl ⟨hi, hbit, hin⟩
    · rintro (⟨hi, hbit, -⟩ | ⟨hpi, hic⟩)
      · exact ⟨hi, hbit⟩
      · exact ⟨by omega, hset i hpi hic⟩
  have hdisj : Disjoint ((Finset.range frag).filter fun i => f' i = true)
      (Finset.Ico p (p + c)) := by
    rw [disjoint_left]
    intro i hi hin
    have hbit := (mem_filter.1 hi).2
    rw [hf', decide_eq_true (mem_Ico.1 hin), Bool.not_true, Bool.and_false] at hbit
    cases hbit
  rw [hunion, card_union_of_disjoint hdisj, Nat.card_Ico]
  push_cast; omega

/-- The terms of a block after the front of a run has been taken. -/
theorem terms_take (hrun : IsRun f frag p a) (hnw : ¬Whole frag f) (hc : 0 < c) (hca : c ≤ a)
    (hf' : ∀ i, f' i = (f i && !decide (p ≤ i ∧ i < p + c))) :
    nbOf frag f' = nbOf frag f ∧ nfOf frag f' = nfOf frag f - c ∧ ∀ k < frag,
      frOf frag k f' = frOf frag k f - (if a = k then 1 else 0) +
        if c < a ∧ a - c = k then 1 else 0 := by
  have hle := hrun.le
  have hnw' : ¬Whole frag f' := fun hw => by
    have hset := hw p (by omega)
    rw [hf', decide_eq_true ⟨le_rfl, by omega⟩, Bool.not_true, Bool.and_false] at hset
    cases hset
  refine ⟨by rw [nbOf_not hnw, nbOf_not hnw'], ?_, fun k hk => ?_⟩
  · rw [nfOf_not hnw, nfOf_not hnw']
    exact card_take (by omega) (fun i hpi hi => hrun.set i hpi (by omega)) hf'
  · rw [frOf_eq hk, frOf_eq hk]; exact tally_clear hrun hca hc hf'

/-- The terms of a block of which the front is allocated. -/
theorem terms_tail (hc : 0 < c) (hcf : c < frag)
    (hf' : ∀ i < frag, f' i = decide (c ≤ i)) :
    nbOf frag f' = 0 ∧ nfOf frag f' = (frag - c : ℕ) ∧ ∀ k < frag,
      frOf frag k f' = if frag - c = k then 1 else 0 := by
  have hnw' : ¬Whole frag f' := fun hw => by
    have hset := hw 0 (by omega)
    rw [hf' 0 (by omega), decide_eq_false (by omega)] at hset
    cases hset
  refine ⟨nbOf_not hnw', ?_, fun k hk => ?_⟩
  · have heq : ((Finset.range frag).filter fun i => f' i = true) = Finset.Ico c frag := by
      ext i
      rw [mem_filter, mem_range, mem_Ico]
      constructor
      · rintro ⟨hi, hbit⟩
        rw [hf' i hi, decide_eq_true_eq] at hbit; exact ⟨hbit, hi⟩
      · rintro ⟨hci, hi⟩; exact ⟨hi, by rw [hf' i hi, decide_eq_true hci]⟩
    rw [nfOf_not hnw', heq, Nat.card_Ico]
  · have hrun : IsRun (fun _ => true) frag 0 frag :=
      ⟨by omega, by omega, fun _ _ _ => rfl, .inl rfl, .inl (zero_add _)⟩
    have htally := tally_clear (k := k) (w := id) hrun hcf.le hc
      (g := fun i => true && !decide (0 ≤ i ∧ i < 0 + c)) fun i => rfl
    have hcongr : tally id f' frag k =
        tally id (fun i => true && !decide (0 ≤ i ∧ i < 0 + c)) frag k :=
      tally_congr fun i hi => by
        rw [hf' i hi, Bool.true_and, ← decide_not]; exact decide_eq_decide.2 (by omega)
    have hfull : frOf frag k (fun _ => true) = tally id (fun _ => true) frag k := frOf_eq hk
    have hne : ¬id frag = k := by rw [id_eq]; omega
    rw [frOf_eq hk, hcongr, htally, ← hfull, frOf_whole fun _ _ => rfl, if_neg hne]
    simp only [hcf, true_and, id_eq, sub_zero, zero_add]

/-! ## Blocks -/

/-- The group after the `n` fragments from `p` on, which were free, have been taken. -/
structure Took (fs : Fs) (cg : ℕ) (g g' : Grp) (p n : ℕ) : Prop where
  consistent : Consistent fs cg g'
  ndblk : g'.ndblk = g.ndblk
  free : ∀ x, p ≤ x → x < p + n → bit g.blksfree x = true
  bits : ∀ x, bit g'.blksfree x = (bit g.blksfree x && !decide (p ≤ x ∧ x < p + n))

theorem Consistent.rotors (h : Consistent fs cg g) (r : ℕ) {t : ℕ} (ht : t < fs.fpg) :
    Consistent fs cg { g with rotor := r, frotor := t } where
  cgx := h.cgx
  ndblk := h.ndblk
  nclusterblks := h.nclusterblks
  frotor := ht
  clear := h.clear
  nbfree := h.nbfree
  nffree := h.nffree
  frsum := h.frsum
  fsCs := h.fsCs
  clusters hpos := (h.clusters hpos).congr (fun _ => Iff.rfl) rfl rfl rfl rfl

/-- A fragment is in the block `b`, or it is not. -/
theorem in_block (hpos : 0 < frag) (b x : ℕ) :
    x / frag = b ↔ b * frag ≤ x ∧ x < b * frag + frag := by
  have hmul : b * frag + frag = (b + 1) * frag := by ring
  rw [hmul, ← Nat.le_div_iff_mul_le hpos, ← Nat.div_lt_iff_lt_mul hpos]; omega

/-- A block of the group lies in it. -/
theorem block_lt_fpg {fs : Fs} (hb : b < fs.fpg / fs.frag) : b * fs.frag + fs.frag ≤ fs.fpg := by
  have hmul := Nat.mul_le_of_le_div _ _ _ (show b + 1 ≤ fs.fpg / fs.frag from hb)
  rwa [add_mul, one_mul] at hmul

theorem whole_free (fs : Fs) (hw : Whole fs.frag (blk fs.frag m b)) :
    ∀ x, x / fs.frag = b → bit m x = true :=
  (forall_block fs.frag_pos).2 fun i hi => by rw [← blk_apply hi]; exact hw i hi

/-- A free block is taken. -/
theorem gotit_spec (h : Consistent fs cg g) (hw : Whole fs.frag (blk fs.frag g.blksfree b)) :
    (gotit fs g (b * fs.frag)).1 = cgAddr fs cg (b * fs.frag) ∧
      Took fs cg g (gotit fs g (b * fs.frag)).2 (b * fs.frag) fs.frag := by
  have hpos := fs.frag_pos
  have hbn := h.block_lt hw
  have hbl : b < fs.fpg / fs.frag := hbn.trans_le h.nclusterblks_le
  have hdiv : b * fs.frag / fs.frag = b := Nat.mul_div_cancel b hpos
  have hbits : ∀ x, bit (ffsClrblock fs.frag g.blksfree b) x =
      (bit g.blksfree x && !decide (x / fs.frag = b)) := bit_clrblock fs.frag_mem g.blksfree b
  have hothers : ∀ x, x / fs.frag ≠ b →
      bit (ffsClrblock fs.frag g.blksfree b) x = bit g.blksfree x := fun x hx => by
    rw [hbits, decide_eq_false hx, Bool.not_false, Bool.and_true]
  have hempty : ∀ i < fs.frag, blk fs.frag (ffsClrblock fs.frag g.blksfree b) b i = false :=
    fun i hi => by
      rw [blk_apply hi, hbits, decide_eq_true (div_frag hi), Bool.not_true, Bool.and_false]
  have hnw : ¬Whole fs.frag (blk fs.frag (ffsClrblock fs.frag g.blksfree b) b) := fun hw => by
    have hset := hw 0 hpos
    rw [hempty 0 hpos] at hset
    cases hset
  obtain ⟨hnb, hnf, hfr⟩ := terms_clear hpos hempty
  obtain ⟨cf, cs, mx, heq⟩ := clusteracct_eq fs
    { g with blksfree := ffsClrblock fs.frag g.blksfree b } b (-1)
  have hcl : 0 < fs.contigsumsize → Clusters fs (ffsClusteracct fs
      { g with blksfree := ffsClrblock fs.frag g.blksfree b } b (-1)) := fun hcpos =>
    clusteracct_spec (.inr rfl) hcpos hbn (h.clusters hcpos) (iff_of_true hw rfl)
      (iff_of_false hnw (by decide))
      (fun c hc => by rw [blk_congr fun x hx => hothers x (by rw [hx]; exact hc)])
      h.nclusterblks_le
  rw [gotit, hdiv]
  rw [heq] at hcl ⊢
  refine ⟨?_, Change.consistent (b := b) ?_ h hbl fun hcpos =>
    (hcl hcpos).congr (fun _ => Iff.rfl) rfl rfl rfl rfl, rfl, fun x hx hx' => ?_, fun x => ?_⟩
  · dsimp only
    rw [h.cgx]
  · exact {
      cgx := rfl
      ndblk := rfl
      nclusterblks := rfl
      frotor := h.frotor
      fsCs := fun heq => by simp only [Grp.addCs, heq]
      clear := fun x hx => by
        simp only [Grp.addCs]
        rw [hbits, h.clear x hx, Bool.false_and]
      others := hothers
      nbfree := by
        simp only [Grp.addCs, Csum.add]
        rw [hnb, nbOf_whole hw]; ring
      nffree := by
        simp only [Grp.addCs, Csum.add]
        rw [hnf, nfOf_whole hw]; ring
      frsum := fun k hk hkf => by
        simp only [Grp.addCs]
        rw [hfr k hkf, frOf_whole hw]
        ring }
  · exact whole_free fs hw x ((in_block hpos b x).2 ⟨hx, hx'⟩)
  · simp only [Grp.addCs]
    rw [hbits, decide_eq_decide.2 (in_block hpos b x)]

theorem gotit_eq (h : Consistent fs cg g) (hw : Whole fs.frag (blk fs.frag g.blksfree b)) :
    gotit fs g (b * fs.frag) =
      (cgAddr fs cg (b * fs.frag), (gotit fs g (b * fs.frag)).2) := by
  rw [← (gotit_spec h hw).1]

/-- "Take the next available block in this cylinder group." -/
theorem nextblk_spec (h : Consistent fs cg g) (hpref : 0 ≤ bpref) (hnb : g.cs.nbfree ≠ 0) :
    ∃ b g', nextblk fs g bpref = .ok (cgAddr fs cg (b * fs.frag), g') ∧
      Took fs cg g g' (b * fs.frag) fs.frag := by
  obtain ⟨b, hb, hw⟩ := h.exists_whole.1 hnb
  obtain ⟨b, p, r, heq, hrun, hr⟩ := mapsearch_spec h.frotor hpref fs.frag_pos le_rfl
    ⟨b, hb, 0, whole_isRun fs hw⟩
  have hle := hrun.le
  obtain rfl : p = 0 := by omega
  have hw : Whole fs.frag (blk fs.frag g.blksfree b) := fun i hi => hrun.set i (by omega) (by omega)
  have hbl := block_lt_fpg ((h.block_lt hw).trans_le h.nclusterblks_le)
  have hpos := fs.frag_pos
  have hrot := h.rotors (b * fs.frag) (t := r) (by omega)
  have htook := (gotit_spec hrot hw).2
  have hgot := gotit_eq hrot hw
  refine ⟨b, _, ?_, htook.consistent, htook.ndblk, htook.free, htook.bits⟩
  rw [nextblk, heq]; exact congrArg Except.ok hgot

/-- The first fragment of the preferred block. -/
theorem mapIdx_blknum (fs : Fs) (hpref : 0 ≤ bpref) : mapIdx (dtogd fs (blknum fs bpref)) =
    .ok (bpref.toNat % fs.fpg / fs.frag * fs.frag) := by
  lift bpref to ℕ using hpref
  obtain ⟨q, hq⟩ := fs.frag_dvd
  have hdiv := Nat.div_add_mod' bpref fs.frag
  have hblk : blknum fs bpref = ((bpref / fs.frag * fs.frag : ℕ) : ℤ) := by
    rw [blknum, ← Int.natCast_mod]; omega
  have hmod : bpref / fs.frag * fs.frag % fs.fpg = bpref % fs.fpg / fs.frag * fs.frag := by
    rw [hq, Nat.mod_mul_right_div_self, mul_comm fs.frag q, Nat.mul_mod_mul_right]
  rw [hblk, mapIdx_dtogd fs (Int.natCast_nonneg _), Int.toNat_natCast, Int.toNat_natCast, hmod]

/-- The preferred block is taken if it is free. -/
theorem alloccgblk_pref (bpref : ℤ) (h : Consistent fs cg g) (hpref : 0 < bpref)
    (hcg : dtog fs bpref = cg)
    (hw : Whole fs.frag (blk fs.frag g.blksfree (bpref.toNat % fs.fpg / fs.frag))) :
    ffsAlloccgblk fs g bpref =
      .ok (gotit fs g (bpref.toNat % fs.fpg / fs.frag * fs.frag)) := by
  have hcond : ¬(bpref = 0 ∨ dtog fs bpref ≠ g.cgx) := by
    rintro (h0 | hne)
    · omega
    · exact hne (by rw [hcg, h.cgx])
  rw [ffsAlloccgblk, if_neg hcond]
  dsimp only [Bind.bind, Except.bind, Pure.pure, Except.pure]
  rw [mapIdx_blknum fs hpref.le]
  dsimp only
  rw [Nat.mul_div_cancel _ fs.frag_pos, if_pos ((isblock_whole fs).2 hw)]

/-- A free block is taken if there is one. -/
theorem alloccgblk_spec (bpref : ℤ) (h : Consistent fs cg g) (hpref : 0 ≤ bpref)
    (hnb : g.cs.nbfree ≠ 0) :
    ∃ b g', ffsAlloccgblk fs g bpref = .ok (cgAddr fs cg (b * fs.frag), g') ∧
      Took fs cg g g' (b * fs.frag) fs.frag := by
  by_cases hcond : bpref = 0 ∨ dtog fs bpref ≠ g.cgx
  · rw [ffsAlloccgblk, if_pos hcond]; exact nextblk_spec h (Int.natCast_nonneg _) hnb
  · have hne : bpref ≠ 0 := fun h0 => hcond (.inl h0)
    have hcg : dtog fs bpref = cg := by
      by_contra hcg
      exact hcond (.inr (by rwa [h.cgx]))
    by_cases hw : Whole fs.frag (blk fs.frag g.blksfree (bpref.toNat % fs.fpg / fs.frag))
    · refine ⟨_, _, ?_, (gotit_spec h hw).2⟩
      rw [alloccgblk_pref bpref h (by omega) hcg hw, ← gotit_eq h hw]
    · have hblk : 0 ≤ blknum fs bpref := by
        have hpos := fs.frag_pos
        have hmod := Int.emod_nonneg bpref (show (fs.frag : ℤ) ≠ 0 by omega)
        have hle := Int.mul_ediv_add_emod bpref fs.frag
        have hdiv := Int.mul_nonneg (Int.natCast_nonneg fs.frag)
          (Int.ediv_nonneg hpref (Int.natCast_nonneg fs.frag))
        rw [blknum]; omega
      rw [ffsAlloccgblk, if_neg hcond]
      dsimp only [Bind.bind, Except.bind, Pure.pure, Except.pure]
      rw [mapIdx_blknum fs hpref]
      dsimp only
      rw [Nat.mul_div_cancel _ fs.frag_pos, if_neg fun hb => hw ((isblock_whole fs).1 hb)]
      exact nextblk_spec h hblk hnb

/-! ## Addresses -/

/-- The address of a fragment is right if it fits in an `int`. -/
theorem cgAddr_eq {x : ℕ} (hx : cg * fs.fpg + x < 2 ^ 31) :
    cgAddr fs cg x = ((cg * fs.fpg + x : ℕ) : ℤ) := by
  have hprod : i32 (cg * fs.fpg) = ((cg * fs.fpg : ℕ) : ℤ) := by
    rw [i32, ← Nat.cast_mul, Int.bmod_eq_of_le]
    · omega
    · omega
  rw [cgAddr, hprod, i32, ← Nat.cast_add, Int.bmod_eq_of_le]
  · omega
  · omega

theorem dtog_addr {x : ℕ} (hx : x < fs.fpg) : dtog fs ((cg * fs.fpg + x : ℕ) : ℤ) = cg := by
  rw [dtog, ← Int.ofNat_tdiv, mul_comm, Nat.mul_add_div fs.fpg_pos, Nat.div_eq_of_lt hx,
    add_zero]

theorem addr_mod (fs : Fs) (cg : ℕ) {x : ℕ} (hx : x < fs.fpg) : (cg * fs.fpg + x) % fs.fpg = x := by
  rw [Nat.mul_add_mod', Nat.mod_eq_of_lt hx]

end FreeBSD.Ffs
