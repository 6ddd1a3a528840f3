import FreeBSD.Ufs.AllocTake

/-!
# Fragments of a block
-/

namespace FreeBSD.Ffs

open Lib.Bitmap Lib.BitRuns List

variable {fs : Fs} {g g' : Grp} {m : ℕ → BitVec 8} {io : Bool} {bpref bprev : ℤ}
  {a b c k n p cg size osize nsize : ℕ}

/-- The `n` fragments from `p` on lie in one block. -/
def InBlock (fs : Fs) (p n : ℕ) : Prop := p % fs.frag + n ≤ fs.frag

/-- The group has `n` free fragments in one block. -/
def Avail (fs : Fs) (g : Grp) (n : ℕ) : Prop :=
  ∃ p, InBlock fs p n ∧ ∀ x, p ≤ x → x < p + n → bit g.blksfree x = true

/-- The front of a run inside a block that is not wholly free is taken. -/
theorem take_front (h : Consistent fs cg g) (hb : b < fs.fpg / fs.frag)
    (hrun : IsRun (blk fs.frag g.blksfree b) fs.frag p a)
    (hnw : ¬Whole fs.frag (blk fs.frag g.blksfree b)) (hc : 0 < c) (hca : c ≤ a)
    (hcgx : g'.cgx = g.cgx) (hndblk : g'.ndblk = g.ndblk) (hncl : g'.nclusterblks = g.nclusterblks)
    (hfrotor : g'.frotor < fs.fpg) (hfsCs : g'.fsCs = g.fsCs.add 0 (-c))
    (hcs : g'.cs = g.cs.add 0 (-c))
    (hbits : g'.blksfree = clrBits g.blksfree (b * fs.frag + p) c)
    (hfrsum : ∀ k, g'.frsum k = g.frsum k - (if a = k then 1 else 0) +
      if c < a ∧ a - c = k then 1 else 0)
    (hcf : g'.clustersfree = g.clustersfree) (hcsum : g'.clustersum = g.clustersum)
    (hmax : g'.maxcluster = g.maxcluster) :
    Took fs cg g g' (b * fs.frag + p) c := by
  have hle := hrun.le
  have hbit : ∀ x, bit g'.blksfree x = (bit g.blksfree x &&
      !decide (b * fs.frag + p ≤ x ∧ x < b * fs.frag + p + c)) := fun x => by
    rw [hbits, bit_clrBits, Bool.and_comm]
  have hothers : ∀ x, x / fs.frag ≠ b → bit g'.blksfree x = bit g.blksfree x := fun x hx => by
    have hout : ¬(b * fs.frag + p ≤ x ∧ x < b * fs.frag + p + c) := fun hin =>
      hx ((in_block fs.frag_pos b x).2 ⟨by omega, by omega⟩)
    rw [hbit, decide_eq_false hout, Bool.not_false, Bool.and_true]
  have hblk : ∀ i, blk fs.frag g'.blksfree b i =
      (blk fs.frag g.blksfree b i && !decide (p ≤ i ∧ i < p + c)) := fun i => by
    rw [blk, blk, hbit, Bool.and_assoc]
    congr 3
    exact decide_eq_decide.2 (by omega)
  obtain ⟨hnb, hnf, hfr⟩ := terms_take hrun hnw hc hca hblk
  have hnw' : ∀ b', Whole fs.frag (blk fs.frag g'.blksfree b') ↔
      Whole fs.frag (blk fs.frag g.blksfree b') := fun b' => by
    by_cases hbb : b' = b
    · rw [hbb]
      refine iff_of_false (fun hw => ?_) hnw
      have hset := hw p (by omega)
      rw [hblk, decide_eq_true ⟨le_rfl, by omega⟩, Bool.not_true, Bool.and_false] at hset
      cases hset
    · rw [blk_congr fun x hx => hothers x (by rw [hx]; exact hbb)]
  refine ⟨Change.consistent (b := b) ?_ h hb fun hpos =>
    (h.clusters hpos).congr hnw' hcf hcsum hncl hmax, hndblk, fun x hx hx' => ?_, hbit⟩
  · exact {
      cgx := hcgx
      ndblk := hndblk
      nclusterblks := hncl
      frotor := hfrotor
      fsCs := fun heq => by rw [hfsCs, hcs, heq]
      clear := fun x hx => by rw [hbit, h.clear x hx, Bool.false_and]
      others := hothers
      nbfree := by rw [hcs, hnb, Csum.add]; ring
      nffree := by rw [hcs, hnf, Csum.add]; ring
      frsum := fun k _ hkf => by
        rw [hfrsum, hfr k hkf]
        ring }
  · have hset := hrun.set (x - b * fs.frag) (by omega) (by omega)
    rwa [blk_apply (by omega), Nat.add_sub_cancel' (by omega)] at hset

/-- The addresses of the wholly free blocks fit in an `int`. -/
def Near (fs : Fs) (cg : ℕ) (g : Grp) : Prop :=
  ∀ b, Whole fs.frag (blk fs.frag g.blksfree b) → cg * fs.fpg + b * fs.frag < 2 ^ 31

/-! ## Allocation -/

/-- The length of the runs of which one is taken. -/
theorem allocsize_spec (fs : Fs) (frsum : ℕ → ℤ) (hsf : size < fs.frag) :
    allocsize fs frsum size = fs.frag ∧ (∀ a, size ≤ a → a < fs.frag → frsum a = 0) ∨
      size ≤ allocsize fs frsum size ∧ allocsize fs frsum size < fs.frag ∧
        frsum (allocsize fs frsum size) ≠ 0 := by
  rw [allocsize]
  cases hf : (List.range' size (fs.frag - size)).find? fun a => frsum a != 0 with
  | none =>
    refine .inl ⟨rfl, fun a hsa haf => ?_⟩
    have hnone := List.find?_eq_none.1 hf a (mem_range'_1.2 ⟨hsa, by omega⟩)
    simpa using hnone
  | some a =>
    have hmem := mem_range'_1.1 (mem_of_find?_eq_some hf)
    have hne := List.find?_some hf
    exact .inr ⟨hmem.1, by simp only [Option.getD_some]; omega, by simpa using hne⟩

/-- Free fragments of one block are part of a run of it. -/
theorem Avail.exists_run (h : Consistent fs cg g) (hn : 0 < n) (ha : Avail fs g n) :
    ∃ b < fs.fpg / fs.frag, ∃ p a, IsRun (blk fs.frag g.blksfree b) fs.frag p a ∧ n ≤ a := by
  obtain ⟨p, hin, hfree⟩ := ha
  have hpos := fs.frag_pos
  have hdiv := Nat.div_add_mod' p fs.frag
  rw [InBlock] at hin
  obtain ⟨q, a, hrun, hqp, hle⟩ := Lib.BitRuns.exists_run
    (f := blk fs.frag g.blksfree (p / fs.frag)) hn hin
    fun i hpi hi => by
      rw [blk_apply (by omega)]
      exact hfree _ (by omega) (by omega)
  -- the block is one of the group
  have hp : p < fs.fpg := by
    by_contra hge
    have hndblk := h.ndblk
    have hset := hfree p le_rfl (by omega)
    rw [h.clear p (by omega)] at hset
    cases hset
  have hb : p / fs.frag < fs.fpg / fs.frag := by
    rw [Nat.div_lt_iff_lt_mul hpos, Nat.div_mul_cancel fs.frag_dvd]; exact hp
  exact ⟨_, hb, q, a, hrun, by omega⟩

/-- If there are no free blocks and no runs that are long enough, there is nothing to take. -/
theorem not_avail (h : Consistent fs cg g) (hn : 0 < n) (hnb : g.cs.nbfree = 0)
    (hfr : ∀ a, n ≤ a → a < fs.frag → g.frsum a = 0) : ¬Avail fs g n := fun ha => by
  obtain ⟨b, hb, p, a, hrun, hle⟩ := ha.exists_run h hn
  have hrle := hrun.le
  by_cases haf : a < fs.frag
  · exact (h.exists_run (by omega) haf).2 ⟨b, hb, p, hrun⟩ (hfr a hle haf)
  · exact h.exists_whole.2 ⟨b, hb, fun i hi => hrun.set i (by omega) (by omega)⟩ hnb

/-- A block that has been taken was wholly free. -/
theorem Took.whole_old (h : Took fs cg g g' (b * fs.frag) fs.frag) :
    Whole fs.frag (blk fs.frag g.blksfree b) := fun i hi => by
  rw [blk_apply hi]; exact h.free _ (by omega) (by omega)

/-- A block is allocated and its end is put back. -/
theorem hackup_spec (h : Consistent fs cg g) (hs : 0 < size) (hsf : size < fs.frag)
    (htook : Took fs cg g g' (b * fs.frag) fs.frag) :
    Took fs cg g
      (({ g' with
        blksfree := setBits g'.blksfree (b * fs.frag + size) (fs.frag - size)
        frsum := addAt g'.frsum (fs.frag - size) 1 } : Grp).addCs 0 (fs.frag - size : ℕ))
      (b * fs.frag) size := by
  have hpos := fs.frag_pos
  have hcons := htook.consistent
  have hbit : ∀ x, bit (setBits g'.blksfree (b * fs.frag + size) (fs.frag - size)) x =
      (decide (b * fs.frag + size ≤ x ∧ x < b * fs.frag + fs.frag) || bit g'.blksfree x) :=
    fun x => by
      rw [bit_setBits]
      congr 1
      exact decide_eq_decide.2 (by omega)
  have hwhole := htook.whole_old
  have hbn := h.block_lt hwhole
  have hbl := hbn.trans_le h.nclusterblks_le
  have hend : b * fs.frag + fs.frag ≤ g.ndblk := by
    rw [h.nclusterblks, Nat.lt_iff_add_one_le, Nat.le_div_iff_mul_le hpos, add_mul] at hbn
    omega
  have hothers : ∀ x, x / fs.frag ≠ b →
      bit (setBits g'.blksfree (b * fs.frag + size) (fs.frag - size)) x = bit g'.blksfree x :=
    fun x hx => by
      have hout : ¬(b * fs.frag + size ≤ x ∧ x < b * fs.frag + fs.frag) := fun hin =>
        hx ((in_block hpos b x).2 ⟨by omega, by omega⟩)
      rw [hbit, decide_eq_false hout, Bool.false_or]
  have hold : ∀ i < fs.frag, blk fs.frag g'.blksfree b i = false := fun i hi => by
    rw [blk_apply hi, htook.bits, decide_eq_true ⟨by omega, by omega⟩, Bool.not_true,
      Bool.and_false]
  have hnew : ∀ i < fs.frag, blk fs.frag
      (setBits g'.blksfree (b * fs.frag + size) (fs.frag - size)) b i = decide (size ≤ i) :=
    fun i hi => by
      have hzero := hold i hi
      rw [blk_apply hi] at hzero
      rw [blk_apply hi, hbit, hzero, Bool.or_false]; exact decide_eq_decide.2 (by omega)
  obtain ⟨hnb, hnf, hfr⟩ := terms_clear hpos hold
  obtain ⟨hnb', hnf', hfr'⟩ := terms_tail hs hsf hnew
  have hnw : ∀ b', Whole fs.frag (blk fs.frag
      (setBits g'.blksfree (b * fs.frag + size) (fs.frag - size)) b') ↔
      Whole fs.frag (blk fs.frag g'.blksfree b') := fun b' => by
    by_cases hbb : b' = b
    · rw [hbb]
      refine iff_of_false (fun hw => ?_) fun hw => ?_
      · have hset := hw 0 hpos
        rw [hnew 0 hpos, decide_eq_false (by omega)] at hset
        cases hset
      · have hset := hw 0 hpos
        rw [hold 0 hpos] at hset
        cases hset
    · rw [blk_congr fun x hx => hothers x (by rw [hx]; exact hbb)]
  refine ⟨Change.consistent (b := b) ?_ hcons hbl fun hcpos =>
    (hcons.clusters hcpos).congr hnw rfl rfl rfl rfl, htook.ndblk,
    fun x hx hx' => htook.free x hx (by omega), fun x => ?_⟩
  · exact {
      cgx := rfl
      ndblk := rfl
      nclusterblks := rfl
      frotor := hcons.frotor
      fsCs := fun heq => by simp only [Grp.addCs, heq]
      clear := fun x hx => by
        rw [htook.ndblk] at hx
        simp only [Grp.addCs]
        rw [hbit, decide_eq_false (by omega), Bool.false_or, hcons.clear x (by rwa [htook.ndblk])]
      others := hothers
      nbfree := by
        simp only [Grp.addCs, Csum.add]
        rw [hnb, hnb']; ring
      nffree := by
        simp only [Grp.addCs, Csum.add]
        rw [hnf, hnf']; ring
      frsum := fun k _ hkf => by
        simp only [Grp.addCs]
        rw [addAt_apply, hfr k hkf, hfr' k hkf]
        ring }
  · simp only [Grp.addCs]
    rw [hbit, htook.bits]
    by_cases hin : b * fs.frag ≤ x ∧ x < b * fs.frag + fs.frag
    · rw [decide_eq_true hin, htook.free x hin.1 hin.2, Bool.not_true, Bool.and_false,
        Bool.or_false, Bool.true_and, ← decide_not]
      exact decide_eq_decide.2 (by omega)
    · rw [decide_eq_false hin, decide_eq_false (by omega), Bool.false_or,
        decide_eq_false (by omega)]

/-- The fragment of an address of the group is found again. -/
theorem mapIdx_cgAddr {x : ℕ} (hx : x < fs.fpg) (haddr : cg * fs.fpg + x < 2 ^ 31) :
    mapIdx (dtogd fs (cgAddr fs cg x)) = .ok x := by
  rw [cgAddr_eq haddr, mapIdx_dtogd fs (Int.natCast_nonneg _), Int.toNat_natCast, addr_mod fs cg hx]

theorem inBlock_block (b : ℕ) (hsf : size ≤ fs.frag) : InBlock fs (b * fs.frag) size := by
  rw [InBlock, Nat.mul_mod_left]; omega

theorem ok_bind {α β : Type} (a : α) (f : α → Except Panic β) : (Except.ok a >>= f) = f a := rfl

theorem hackup_eq {blkno : ℤ} (hbno : mapIdx (dtogd fs blkno) = .ok p) :
    hackup fs g blkno size = .ok (blkno,
      ({ g with
        blksfree := setBits g.blksfree (p + size) (fs.frag - size)
        frsum := addAt g.frsum (fs.frag - size) 1 } : Grp).addCs 0 (fs.frag - size : ℕ)) := by
  rw [hackup, hbno]; rfl

/-- An allocation takes fragments of one block that were free, or there are none. -/
theorem alloccg_spec (io : Bool) (h : Consistent fs cg g) (hpref : 0 ≤ bpref) (hs : 0 < size)
    (hsf : size ≤ fs.frag) (haddr : size < fs.frag →
      (∀ a, size ≤ a → a < fs.frag → g.frsum a = 0) → Near fs cg g) :
    (∃ p g', ffsAlloccg fs cg g bpref size io = .ok (cgAddr fs cg p, g') ∧
      Took fs cg g g' p size ∧ InBlock fs p size) ∨
    ffsAlloccg fs cg g bpref size io = .ok (0, g) ∧ (io = true → ¬Avail fs g size) := by
  rw [ffsAlloccg, h.fsCs]
  by_cases hnone : g.cs.nbfree = 0 ∧ size = fs.frag
  · rw [if_pos hnone]; exact .inr ⟨rfl, fun _ => not_avail h hs hnone.1 fun a hsa haf => by omega⟩
  rw [if_neg hnone]
  by_cases hio : ¬io ∨ g.cs.nbfree = 0 ∧ size = fs.frag
  · rw [if_pos hio]; exact .inr ⟨rfl, fun htrue => (hio.resolve_right hnone htrue).elim⟩
  rw [if_neg hio]
  by_cases hblk : size = fs.frag
  · have hnb : g.cs.nbfree ≠ 0 := fun h0 => hnone ⟨h0, hblk⟩
    obtain ⟨b, g', heq, htook⟩ := alloccgblk_spec bpref h hpref hnb
    rw [if_pos hblk, heq, hblk]; exact .inl ⟨_, g', rfl, htook, inBlock_block b le_rfl⟩
  rw [if_neg hblk]
  have hlt : size < fs.frag := by omega
  dsimp only
  rcases allocsize_spec fs g.frsum hlt with ⟨hsize, hzero⟩ | ⟨hle, hltf, hne⟩
  · rw [if_pos hsize]
    by_cases hnb : g.cs.nbfree = 0
    · rw [if_pos hnb]; exact .inr ⟨rfl, fun _ => not_avail h hs hnb hzero⟩
    · -- a block is hacked up
      obtain ⟨b, g', heq, htook⟩ := alloccgblk_spec bpref h hpref hnb
      have hpos := fs.frag_pos
      have hw := htook.whole_old
      have hbl := block_lt_fpg ((h.block_lt hw).trans_le h.nclusterblks_le)
      have hbno := mapIdx_cgAddr (x := b * fs.frag) (by omega) (haddr hlt hzero b hw)
      rw [if_neg hnb, heq, ok_bind]
      dsimp only
      exact .inl ⟨_, _, hackup_eq hbno, hackup_spec h hs hlt htook, inBlock_block b hsf⟩
  · rw [if_neg (by omega)]
    have ha : 0 < allocsize fs g.frsum size := by omega
    obtain ⟨b, hb, p, hrun⟩ := (h.exists_run ha hltf).1 hne
    obtain ⟨b, p, r, heq, hrun, hr⟩ := mapsearch_spec h.frotor hpref ha hltf.le ⟨b, hb, p, hrun⟩
    have hrle := hrun.le
    have hbb : b < fs.fpg / fs.frag := by
      have hset := hrun.set p le_rfl (by omega)
      rw [blk_apply (by omega)] at hset
      have hndblk := h.ndblk
      have hlt : b * fs.frag + p < fs.fpg := by
        by_contra hge
        rw [h.clear _ (by omega)] at hset
        cases hset
      rw [← div_frag (b := b) (show p < fs.frag by omega), Nat.div_lt_iff_lt_mul fs.frag_pos,
        Nat.div_mul_cancel fs.frag_dvd]
      exact hlt
    have hnw : ¬Whole fs.frag (blk fs.frag g.blksfree b) := fun hw => by
      rcases (whole_isRun fs hw).separate hrun with ⟨-, heq⟩ | hlt | hlt
      · omega
      · omega
      · omega
    have hbl := block_lt_fpg hbb
    rw [heq]
    refine .inl ⟨_, _, rfl, take_front h hbb hrun hnw hs hle rfl rfl rfl (by
      have hpos := fs.frag_pos
      simp only [Grp.addCs]
      omega) rfl rfl rfl (fun k => ?_) rfl rfl rfl, ?_⟩
    · have hcond : size ≠ allocsize fs g.frsum size ∧ allocsize fs g.frsum size - size = k ↔
          size < allocsize fs g.frsum size ∧ allocsize fs g.frsum size - size = k := by omega
      simp only [Grp.addCs, addAt_if, addAt_apply, hcond]; ring
    · rw [InBlock, Nat.mul_add_mod', Nat.mod_eq_of_lt (by omega)]
      omega

/-! ## Extension -/

/-- The new fragments are not in the next block. -/
theorem fragnum_le (hns : 0 < nsize) (hnf : nsize ≤ fs.frag)
    (h : ¬fragnum fs (n : ℤ) > fragnum fs (n + nsize - 1)) : n % fs.frag + nsize ≤ fs.frag := by
  have hpos := fs.frag_pos
  have hcast : ((n : ℤ) + nsize - 1) = ((n + nsize - 1 : ℕ) : ℤ) := by omega
  rw [fragnum, fragnum, hcast, ← Int.natCast_mod, ← Int.natCast_mod] at h
  have hle : n % fs.frag ≤ (n + nsize - 1) % fs.frag := by omega
  by_contra hgt
  have hlt := Nat.mod_lt n hpos
  have hdiv := Nat.div_add_mod' n fs.frag
  -- the last fragment would be in the next block
  have hmod : (n + nsize - 1) % fs.frag = n % fs.frag + nsize - 1 - fs.frag := by
    have hsum : n + nsize - 1 = (n / fs.frag + 1) * fs.frag +
        (n % fs.frag + nsize - 1 - fs.frag) := by
      rw [add_mul]; omega
    rw [hsum, Nat.mul_add_mod', Nat.mod_eq_of_lt (by omega)]
  omega

/-- The fragments behind the old end are taken, or nothing is changed. -/
theorem fragextend_spec (io : Bool) (h : Consistent fs cg g) (hprev : 0 ≤ bprev) (hos : 0 < osize)
    (hon : osize < nsize) (hnf : nsize ≤ fs.frag)
    (hold : bit g.blksfree (bprev.toNat % fs.fpg + osize - 1) = false) :
    (∃ g', ffsFragextend fs g bprev osize nsize io = .ok (bprev, g') ∧
      Took fs cg g g' (bprev.toNat % fs.fpg + osize) (nsize - osize) ∧
      InBlock fs (bprev.toNat % fs.fpg) nsize) ∨
    ffsFragextend fs g bprev osize nsize io = .ok (0, g) := by
  rw [ffsFragextend]
  by_cases hnone : g.fsCs.nffree < nsize - osize
  · rw [if_pos hnone]; exact .inr rfl
  rw [if_neg hnone]
  dsimp only
  by_cases hcross : fragnum fs bprev > fragnum fs (bprev + nsize - 1)
  · rw [if_pos hcross]; exact .inr rfl
  rw [if_neg hcross]
  by_cases hio : ¬io
  · rw [if_pos hio]; exact .inr rfl
  rw [if_neg hio, mapIdx_dtogd fs hprev]
  dsimp only [Bind.bind, Except.bind, Pure.pure, Except.pure]
  lift bprev to ℕ using hprev
  have hpos := fs.frag_pos
  have hbase : (fragnum fs bprev).toNat = bprev % fs.fpg % fs.frag := by
    rw [fragnum, ← Int.natCast_mod, Int.toNat_natCast, Nat.mod_mod_of_dvd _ fs.frag_dvd]
  have hin := fragnum_le (by omega) hnf hcross
  rw [← Nat.mod_mod_of_dvd bprev fs.frag_dvd] at hin
  rw [Int.toNat_natCast] at hold ⊢
  have hx := Nat.mod_lt bprev fs.fpg_pos
  rw [hbase]
  generalize bprev % fs.fpg = x at hold hin hx ⊢
  by_cases hclr : ((List.range' osize (nsize - osize)).any fun i =>
      isClr g.blksfree (x + i)) = true
  · rw [if_pos hclr]; exact .inr rfl
  rw [if_neg hclr]
  refine .inl ?_
  have hfree : ∀ i, osize ≤ i → i < nsize → bit g.blksfree (x + i) = true := fun i hoi hin => by
    by_contra hbit
    refine hclr (any_eq_true.2 ⟨i, mem_range'_1.2 ⟨hoi, by omega⟩, ?_⟩)
    rw [isClr_eq, Bool.eq_false_of_not_eq_true hbit, Bool.not_false]
  have hdiv := Nat.div_add_mod' x fs.frag
  have hcle := countForw_le g.blksfree (fs.frag - x % fs.frag - nsize) (x + nsize)
  have hcset := countForw_set g.blksfree (fs.frag - x % fs.frag - nsize) (x + nsize)
  have hcclear := countForw_clear g.blksfree (fs.frag - x % fs.frag - nsize) (x + nsize)
  generalize countForw g.blksfree (fs.frag - x % fs.frag - nsize) (x + nsize) = c
    at hcle hcset hcclear ⊢
  have hblk : ∀ i < fs.frag, blk fs.frag g.blksfree (x / fs.frag) i =
      bit g.blksfree (x / fs.frag * fs.frag + i) := fun i hi => blk_apply hi
  have hleft : blk fs.frag g.blksfree (x / fs.frag) (x % fs.frag + osize - 1) = false := by
    rw [hblk _ (by omega), show x / fs.frag * fs.frag + (x % fs.frag + osize - 1) = x + osize - 1 by
      omega, hold]
  have hrun : IsRun (blk fs.frag g.blksfree (x / fs.frag)) fs.frag (x % fs.frag + osize)
      (nsize + c - osize) := {
    pos := by omega
    le := by omega
    set := fun i hpi hi => by
      rw [hblk i (by omega)]
      by_cases hin : x / fs.frag * fs.frag + i < x + nsize
      · have hset := hfree (x / fs.frag * fs.frag + i - x) (by omega) (by omega)
        rwa [show x + (x / fs.frag * fs.frag + i - x) = x / fs.frag * fs.frag + i by omega] at hset
      · exact hcset _ (by omega) (by omega)
    left := .inr hleft
    right := by
      by_cases hend : c = fs.frag - x % fs.frag - nsize
      · exact .inl (by omega)
      · refine .inr ?_
        have hclear := hcclear (by omega)
        rw [hblk _ (by omega)]
        rwa [show x / fs.frag * fs.frag + (x % fs.frag + osize + (nsize + c - osize)) =
          x + nsize + c by omega] }
  have hnw : ¬Whole fs.frag (blk fs.frag g.blksfree (x / fs.frag)) := fun hw => by
    have hset := hw (x % fs.frag + osize - 1) (by omega)
    rw [hleft] at hset
    cases hset
  have hb : x / fs.frag < fs.fpg / fs.frag := by
    rw [Nat.div_lt_iff_lt_mul hpos, Nat.div_mul_cancel fs.frag_dvd]; exact hx
  have hstart : x + osize = x / fs.frag * fs.frag + (x % fs.frag + osize) := by omega
  have hn : nsize - osize ≤ nsize + c - osize := by omega
  refine ⟨_, rfl, ?_, hin⟩
  rw [hstart]
  refine take_front h hb hrun hnw (by omega) hn rfl rfl rfl h.frotor rfl rfl ?_ (fun k => ?_)
    rfl rfl rfl
  · simp only [Grp.addCs]
  · have hcond : nsize + c ≠ nsize ∧ nsize + c - nsize = k ↔
        nsize - osize < nsize + c - osize ∧ nsize + c - osize - (nsize - osize) = k := by omega
    simp only [Grp.addCs, addAt_if, addAt_apply, hcond]; ring

end FreeBSD.Ffs
