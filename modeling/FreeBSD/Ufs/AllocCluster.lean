import FreeBSD.Ufs.AllocFree

/-!
# Clusters of blocks

`ffs_clusteralloc` looks for free blocks one after another in the cluster map, and allocates each of
them by its address.
-/

namespace FreeBSD.Ffs

open Lib.Bitmap Lib.BitRuns List

variable {fs : Fs} {g g' g'' : Grp} {m : ℕ → BitVec 8} {io : Bool} {bpref bno : ℤ}
  {b e k n p cg len got run : ℕ}

/-! ## Search -/

/-- The blocks that are found are free in the cluster map. -/
theorem findCluster_spec (hrun : run < len) (hgot : run ≤ got)
    (hset : ∀ i, got ≤ i + run → i < got → bit m i = true)
    (h : findCluster m len n got run = some e) :
    got ≤ e ∧ e < got + n ∧ len ≤ e + 1 ∧ ∀ i, e + 1 ≤ i + len → i ≤ e → bit m i = true := by
  induction n generalizing got run with
  | zero => cases h
  | succ n ih =>
    rw [findCluster] at h
    by_cases hbit : bit m got = true
    · have hset' : ∀ i, got + 1 ≤ i + (run + 1) → i < got + 1 → bit m i = true := fun i hi hlt => by
        by_cases hig : i = got
        · rwa [hig]
        · exact hset i (by omega) (by omega)
      rw [if_pos hbit] at h
      by_cases hlen : run + 1 = len
      · rw [if_pos hlen] at h
        obtain rfl := Option.some.inj h
        exact ⟨le_rfl, by omega, by omega, fun i hi hie => hset' i (by omega) (by omega)⟩
      · rw [if_neg hlen] at h
        obtain ⟨hge, hlt, hlen', hall⟩ := ih (by omega) (by omega) hset' h
        exact ⟨by omega, by omega, hlen', hall⟩
    · rw [if_neg hbit] at h
      obtain ⟨hge, hlt, hlen', hall⟩ := ih (by omega) (by omega) (fun i hi hlt => by omega) h
      exact ⟨by omega, by omega, hlen', hall⟩

/-! ## Allocation -/

theorem Took.refl (h : Consistent fs cg g) (p : ℕ) : Took fs cg g g p 0 where
  consistent := h
  ndblk := rfl
  free x hx hx' := by omega
  bits x := by rw [decide_eq_false (by omega), Bool.not_false, Bool.and_true]

theorem Took.trans (h : Took fs cg g g' p n) (h' : Took fs cg g' g'' (p + n) k) :
    Took fs cg g g'' p (n + k) where
  consistent := h'.consistent
  ndblk := h'.ndblk.trans h.ndblk
  free x hx hx' := by
    by_cases hxn : x < p + n
    · exact h.free x hx hxn
    · have hset := h'.free x (by omega) (by omega)
      rw [h.bits, Bool.and_eq_true_iff] at hset; exact hset.1
  bits x := by
    rw [h'.bits, h.bits, Bool.and_assoc, ← Bool.not_or, ← Bool.decide_or]
    congr 2
    exact decide_eq_decide.2 (by omega)

/-- The blocks after one in front of them has been taken. -/
theorem Took.whole {c : ℕ} (h : Took fs cg g g' (b * fs.frag) fs.frag) (hcb : b < c)
    (hw : Whole fs.frag (blk fs.frag g.blksfree c)) : Whole fs.frag
      (blk fs.frag g'.blksfree c) := by
  have hne : ∀ x, x / fs.frag = c → bit g'.blksfree x = bit g.blksfree x := fun x hx => by
    have hin := (in_block fs.frag_pos b x).2
    rw [h.bits, decide_eq_false fun hx' => by rw [hin hx'] at hx; omega, Bool.not_false,
      Bool.and_true]
  rwa [blk_congr hne]

theorem Took.blk_old {c i : ℕ} (h : Took fs cg g g' p n)
    (hset : blk fs.frag g'.blksfree c i = true) : blk fs.frag g.blksfree c i = true := by
  rw [blk, h.bits, ← Bool.and_assoc, Bool.and_eq_true_iff] at hset; exact hset.1

/-- The blocks are allocated one by one. -/
theorem allocCluster_spec (h : Consistent fs cg g)
    (hw : ∀ c, b ≤ c → c < b + n → Whole fs.frag (blk fs.frag g.blksfree c))
    (haddr : Near fs cg g) (hzero : cg = 0 → 0 < b) :
    ∃ g', allocCluster fs n g ((cg * fs.fpg + b * fs.frag : ℕ) : ℤ) = .ok g' ∧
      Took fs cg g g' (b * fs.frag) (n * fs.frag) := by
  induction n generalizing g b with
  | zero => exact ⟨g, rfl, by rw [zero_mul]; exact Took.refl h _⟩
  | succ n ih =>
    have hpos := fs.frag_pos
    have hwb := hw b le_rfl (by omega)
    have hbl := block_lt_fpg ((h.block_lt hwb).trans_le h.nclusterblks_le)
    have hmod := addr_mod fs cg (x := b * fs.frag) (by omega)
    have hne : 0 < cg * fs.fpg + b * fs.frag := by
      rcases Nat.eq_zero_or_pos cg with h0 | hcg
      · exact Nat.add_pos_right _ (mul_pos (hzero h0) hpos)
      · exact Nat.add_pos_left (mul_pos hcg fs.fpg_pos) _
    have hpref := alloccgblk_pref ((cg * fs.fpg + b * fs.frag : ℕ) : ℤ) h
      (Int.natCast_pos.2 hne) (dtog_addr (by omega)) (by
        rw [Int.toNat_natCast, hmod, Nat.mul_div_cancel b hpos]
        exact hwb)
    rw [Int.toNat_natCast, hmod, Nat.mul_div_cancel b hpos, gotit_eq h hwb,
      cgAddr_eq (haddr b hwb)] at hpref
    have htook := (gotit_spec h hwb).2
    obtain ⟨g', heq, hrest⟩ := ih (b := b + 1) htook.consistent
      (fun c hbc hcn => htook.whole (by omega) (hw c (by omega) (by omega)))
      (fun c hc => haddr c fun i hi => htook.blk_old (hc i hi)) (fun _ => Nat.succ_pos b)
    have hnext : ((cg * fs.fpg + b * fs.frag : ℕ) : ℤ) + fs.frag =
        ((cg * fs.fpg + (b + 1) * fs.frag : ℕ) : ℤ) := by
      push_cast; ring
    have hmul : (b + 1) * fs.frag = b * fs.frag + fs.frag := by ring
    have hlen : (n + 1) * fs.frag = fs.frag + n * fs.frag := by ring
    refine ⟨g', ?_, ?_⟩
    · rw [allocCluster, hpref, ok_bind]
      dsimp only
      rw [if_neg (not_not.2 rfl), hnext, heq]
    · rw [hlen]
      rw [hmul] at hrest; exact htook.trans hrest

/-- Only `fs_maxcluster` is changed. -/
theorem Consistent.maxcluster (h : Consistent fs cg g) (hnone : ∀ k, len ≤ k →
    k ≤ fs.contigsumsize → ¬0 < g.clustersum k) :
    Consistent fs cg { g with maxcluster := maxPos g.clustersum (len - 1) } where
  cgx := h.cgx
  ndblk := h.ndblk
  nclusterblks := h.nclusterblks
  frotor := h.frotor
  clear := h.clear
  nbfree := h.nbfree
  nffree := h.nffree
  frsum := h.frsum
  fsCs := h.fsCs
  clusters hpos := {
    bits := (h.clusters hpos).bits
    sum := (h.clusters hpos).sum
    max := fun k hk hkc hp => le_maxPos _ hk (by
      by_contra hgt
      exact hnone k (by omega) hkc hp) hp }

theorem clusterStart_spec (fs : Fs) (cg : ℕ) (hpref : 0 ≤ bpref) :
    ∃ blk, clusterStart fs cg bpref = .ok blk := by
  rw [clusterStart]
  split
  · exact ⟨0, rfl⟩
  · rw [mapIdx_blknum fs hpref]; exact ⟨_, rfl⟩

/-- Free blocks one after another are found, or only `fs_maxcluster` is changed. -/
theorem clusteralloc_cases (io : Bool) (h : Consistent fs cg g) (hpref : 0 ≤ bpref) (hlen : 0 < len)
    (haddr : Near fs cg g) :
    (∃ b, (∀ c, b ≤ c → c < b + len → Whole fs.frag (blk fs.frag g.blksfree c)) ∧
      ffsClusteralloc fs cg g bpref len io =
        (allocCluster fs len g ((cg * fs.fpg + b * fs.frag : ℕ) : ℤ)).map
          fun g => (((cg * fs.fpg + b * fs.frag : ℕ) : ℤ), g)) ∨
    ∃ mx, ffsClusteralloc fs cg g bpref len io = .ok (0, { g with maxcluster := mx }) ∧
      Consistent fs cg { g with maxcluster := mx } := by
  rw [ffsClusteralloc]
  by_cases hmax : g.maxcluster < len
  · rw [if_pos hmax]; exact .inr ⟨g.maxcluster, rfl, h⟩
  rw [if_neg hmax]
  by_cases hio : ¬io
  · rw [if_pos hio]; exact .inr ⟨g.maxcluster, rfl, h⟩
  rw [if_neg hio]
  by_cases hany : ¬((List.range' len (fs.contigsumsize + 1 - len)).any fun i =>
      g.clustersum i > 0) = true
  · rw [if_pos hany]
    refine .inr ⟨_, rfl, h.maxcluster fun k hlk hkc hp => hany ?_⟩
    exact any_eq_true.2 ⟨k, mem_range'_1.2 ⟨hlk, by omega⟩, decide_eq_true hp⟩
  rw [if_neg hany]
  -- there is a cluster map
  have hpos : 0 < fs.contigsumsize := by
    obtain ⟨i, hi, -⟩ := any_eq_true.1 (not_not.1 hany)
    have hi := mem_range'_1.1 hi; omega
  obtain ⟨start, hstart⟩ := clusterStart_spec fs cg hpref
  rw [hstart, ok_bind]
  dsimp only
  cases hfind : findCluster g.clustersfree len (g.nclusterblks - start) start 0 with
  | none => exact .inr ⟨g.maxcluster, rfl, h⟩
  | some got =>
    obtain ⟨hge, hlt, hle, hall⟩ := findCluster_spec hlen (Nat.zero_le _)
      (fun i hi hlt => by omega) hfind
    have hcl := h.nclusterblks_le
    have hw : ∀ c, got + 1 - len ≤ c → c < got + 1 - len + len →
        Whole fs.frag (blk fs.frag g.blksfree c) := fun c hc hc' => by
      have hbit := hall c (by omega) (by omega)
      rw [(h.clusters hpos).bits c (by omega)] at hbit
      exact of_decide_eq_true hbit
    have hblocks : ((List.range len).all fun i =>
        ffsIsblock fs.frag g.blksfree (got + 1 - len + i)) = true := by
      refine all_eq_true.2 fun i hi => ?_
      have hi := mem_range.1 hi
      exact (isblock_whole fs).2 (hw _ (by omega) (by omega))
    have hfirst := hw _ le_rfl (by omega)
    have hbl := block_lt_fpg ((h.block_lt hfirst).trans_le h.nclusterblks_le)
    have hfrag := fs.frag_pos
    refine .inl ⟨got + 1 - len, hw, ?_⟩
    dsimp only
    rw [if_neg (not_not.2 hblocks), cgAddr_eq (haddr _ hfirst),
      if_neg (not_not.2 (dtog_addr (by omega)))]
    cases allocCluster fs len g ((cg * fs.fpg + (got + 1 - len) * fs.frag : ℕ) : ℤ) with
    | ok g' => rfl
    | error p => rfl

/-- Free blocks one after another are taken, or only `fs_maxcluster` is changed. -/
theorem clusteralloc_spec (io : Bool) (h : Consistent fs cg g) (hpref : 0 ≤ bpref) (hlen : 0 < len)
    (haddr : Near fs cg g) (hzero : cg = 0 → ¬Whole fs.frag (blk fs.frag g.blksfree 0)) :
    (∃ b g', ffsClusteralloc fs cg g bpref len io =
        .ok (((cg * fs.fpg + b * fs.frag : ℕ) : ℤ), g') ∧
      Took fs cg g g' (b * fs.frag) (len * fs.frag)) ∨
    ∃ mx, ffsClusteralloc fs cg g bpref len io = .ok (0, { g with maxcluster := mx }) ∧
      Consistent fs cg { g with maxcluster := mx } := by
  rcases clusteralloc_cases io h hpref hlen haddr with ⟨b, hw, heq⟩ | hnone
  · have hb : cg = 0 → 0 < b := fun h0 => by
      by_contra hb0
      exact hzero h0 (hw 0 (by omega) (by omega))
    obtain ⟨g', hall, htook⟩ := allocCluster_spec (n := len) h hw haddr hb
    refine .inl ⟨b, g', ?_, htook⟩
    rw [heq, hall]; rfl
  · exact .inr hnone

/-- Blocks that have been allocated one by one are those of the cluster. -/
theorem allocCluster_took (h : Consistent fs cg g)
    (hw : ∀ c, b ≤ c → c < b + n → Whole fs.frag (blk fs.frag g.blksfree c))
    (haddr : Near fs cg g)
    (hall : allocCluster fs n g ((cg * fs.fpg + b * fs.frag : ℕ) : ℤ) = .ok g') :
    Took fs cg g g' (b * fs.frag) (n * fs.frag) := by
  induction n generalizing g b with
  | zero =>
    rw [allocCluster] at hall
    injection hall with hall
    rw [← hall, zero_mul]; exact Took.refl h _
  | succ n ih =>
    have hwb := hw b le_rfl (by omega)
    have hnb : g.cs.nbfree ≠ 0 :=
      h.exists_whole.2 ⟨b, (h.block_lt hwb).trans_le h.nclusterblks_le, hwb⟩
    obtain ⟨b', g₁, heq, htook⟩ := alloccgblk_spec ((cg * fs.fpg + b * fs.frag : ℕ) : ℤ) h
      (Int.natCast_nonneg _) hnb
    rw [cgAddr_eq (haddr b' htook.whole_old)] at heq
    rw [allocCluster, heq, ok_bind] at hall
    dsimp only at hall
    by_cases hne : ((cg * fs.fpg + b' * fs.frag : ℕ) : ℤ) ≠ ((cg * fs.fpg + b * fs.frag : ℕ) : ℤ)
    · rw [if_pos hne] at hall
      cases hall
    · have hbb : b' * fs.frag = b * fs.frag := by omega
      obtain rfl : b' = b := Nat.eq_of_mul_eq_mul_right fs.frag_pos hbb
      have hnext : ((cg * fs.fpg + b' * fs.frag : ℕ) : ℤ) + fs.frag =
          ((cg * fs.fpg + (b' + 1) * fs.frag : ℕ) : ℤ) := by
        push_cast; ring
      rw [if_neg hne, hnext] at hall
      have hrest := ih (b := b' + 1) htook.consistent
        (fun c hbc hcn => htook.whole (by omega) (hw c (by omega) (by omega)))
        (fun c hc => haddr c fun i hi => htook.blk_old (hc i hi)) hall
      have hmul : (b' + 1) * fs.frag = b' * fs.frag + fs.frag := by ring
      have hlen : (n + 1) * fs.frag = fs.frag + n * fs.frag := by ring
      rw [hmul] at hrest
      rw [hlen]; exact htook.trans hrest

end FreeBSD.Ffs
