import FreeBSD.Kern.BlistCreate

/-!
# Filling

`blst_meta_fill` takes a range out of the set, and panics where the range has
more than one subnode's worth of blocks below a node that it does not cover and
that has blocks free (`FillFits`).

Results:
* `blstLeafFill_spec`, `fillLoop_spec`, `blstMetaFill_spec`: what a call does (`FillOk`).
-/

namespace FreeBSD.SubrBlist

open Finset

/-- No node that the range enters, that it does not cover and that has blocks free has more blocks
    of the range below it than one subnode can have. -/
def FillFits (F G : Finset ℕ) (N : ℕ) : ℕ → ℕ → Prop
  | 0, _ => True
  | k + 1, b =>
    cnt G b (radixAt (k + 1)) = 0 ∨ cnt G b (radixAt (k + 1)) = radixAt (k + 1) ∨
      cnt F b (radixAt (k + 1)) = 0 ∨
      cnt G b (radixAt (k + 1)) ≤ radixAt k ∧
        ∀ j < 16, b + j * radixAt k < N → FillFits F G N k (b + j * radixAt k)

/-- What filling `c` blocks from `x` on below a node does. -/
def FillOk (H : Prop) (F G : Finset ℕ) (N k p b x c : ℕ) (m : Root)
    (r : Except Fault (Root × ℤ)) : Prop :=
  (FillFits F G N k b ∧ ∃ m', r = .ok (m', (cnt F x c : ℤ)) ∧ Kept m m' p (spanAt k) ∧
      Rep H (F \ G) N m'.node k p b) ∨
    ¬ FillFits F G N k b ∧ r = .error .panic

section

variable {H : Prop} {F G : Finset ℕ} {N k p b x c : ℕ} {m : Root}

/-- The free blocks of the range. -/
theorem cnt_inter_range {r : ℕ} (h : RangeOn G b r x c) : cnt (F ∩ G) b r = cnt F x c := by
  obtain ⟨h1, h2, h3⟩ := h
  unfold cnt
  congr 1
  ext y
  rw [mem_inter, mem_inter, mem_inter, mem_Ico, mem_Ico]
  constructor
  · rintro ⟨⟨hF, hG⟩, hy1, hy2⟩; exact ⟨hF, (h3 y hy1 hy2).1 hG⟩
  · rintro ⟨hF, hy1, hy2⟩
    exact ⟨⟨hF, (h3 y (by omega) (by omega)).2 ⟨hy1, hy2⟩⟩, by omega, by omega⟩

theorem cnt_sdiff_range {r : ℕ} (h : RangeOn G b r x c) :
    cnt (F \ G) b r + cnt F x c = cnt F b r := by
  rw [← cnt_inter_range h]; exact cnt_sdiff F G b r

theorem HintOk.sdiff {r : ℕ} {hint : ℤ} (h : HintOk F b r hint) : HintOk (F \ G) b r hint :=
  fun y n hrun => h y n (hrun.subset fun _ _ _ hy => (mem_sdiff.1 hy).1)

/-- The bits of a mask that are set. -/
theorem length_filter_bits (hr : Rep H F N m.node 0 p b) {mask : BitVec 32} {j : ℕ}
    (hm : MaskAt mask j c) (hfit : j + c ≤ 32) :
    ((List.range 32).filter fun i => ((m.node p).bmuBitmap &&& mask).getLsbD i).length =
      cnt F (b + j) c := by
  have hcard : ((List.range 32).filter fun i =>
      ((m.node p).bmuBitmap &&& mask).getLsbD i).length =
      ((range 32).filter fun i => ((m.node p).bmuBitmap &&& mask).getLsbD i = true).card := by
    rw [← List.toFinset_card_of_nodup (List.nodup_range.filter _), List.toFinset_filter]
    congr 1
  rw [hcard]
  unfold cnt
  refine card_bij (fun i _ => b + i) (fun i hi => ?_) (fun i _ i' _ h => by omega) fun y hy => ?_
  · obtain ⟨hi1, hi2⟩ := mem_filter.1 hi
    rw [BitVec.getLsbD_and, hr.1 i (mem_range.1 hi1), hm, ← Bool.decide_and,
      decide_eq_true_eq] at hi2
    exact mem_inter.2 ⟨hi2.1, mem_Ico.2 ⟨by omega, by omega⟩⟩
  · obtain ⟨hy1, hy2⟩ := mem_inter.1 hy
    obtain ⟨hy3, hy4⟩ := mem_Ico.1 hy2
    refine ⟨y - b, mem_filter.2 ⟨mem_range.2 (by omega), ?_⟩, by omega⟩
    rw [BitVec.getLsbD_and, hr.1 _ (by omega), hm, ← Bool.decide_and, decide_eq_true_eq,
      show b + (y - b) = y by omega]
    exact ⟨hy1, by omega, by omega, by omega⟩

theorem blstLeafFill_spec (hp : p < m.rootblks) (hh : (m.node p).bmBighint ≠ -1) (hb : 32 ∣ b)
    (hr : Rep H F N m.node 0 p b) (hG : RangeOn G b 32 x c) (hc : 1 ≤ c) :
    FillOk H F G N 0 p b x c m (blstLeafFill m p x c) := by
  obtain ⟨h1, h2, h3⟩ := hG
  have hmod : x % 32 = x - b := by omega
  have hmask := maskAt_rangeMask (x := x) (c := c) (by omega)
  rw [hmod] at hmask
  have hlen := length_filter_bits hr hmask (by omega)
  rw [show b + (x - b) = x by omega] at hlen
  unfold blstLeafFill
  rw [Root.read_of_lt hp, ok_bind]
  dsimp only
  rw [hlen, Root.write_of_lt hp, ok_bind]
  refine .inl ⟨trivial, _, rfl, Kept.set hh hh le_rfl, ?_⟩
  refine (rep_leaf_clear hr hmask).congr (fun _ _ _ => rfl) fun y hy1 hy2 => ?_
  rw [radixAt_zero] at hy2
  rw [mem_sdiff, mem_sdiff, h3 y hy1 hy2, mem_Ico]
  refine and_congr_right fun _ => ?_
  omega

theorem cnt_zero (F : Finset ℕ) (b : ℕ) : cnt F b 0 = 0 :=
  Nat.le_zero.1 (cnt_le F b 0)

theorem FillFits.of_outside (h : cnt G b (radixAt k) = 0) : FillFits F G N k b := by
  cases k with
  | zero => trivial
  | succ k => exact .inl h

theorem Rep.sdiff_of_outside (hr : Rep H F N m.node k p b) (h : cnt G b (radixAt k) = 0) :
    Rep H (F \ G) N m.node k p b := by
  refine hr.congr (fun _ _ _ => rfl) fun y hy1 hy2 => ?_
  rw [mem_sdiff]; exact and_iff_left (cnt_eq_zero.1 h y hy1 hy2)

/-- Filling the subnodes from `j` on. -/
theorem fillLoop_spec (sub : Root → ℕ → ℕ → ℕ → ℕ → Except Fault (Root × ℤ))
    (hsub : ∀ (m : Root) (j x c : ℕ), j < 16 → b + j * radixAt k < N → 1 ≤ c →
      x + c ≤ N → RangeOn G (b + j * radixAt k) (radixAt k) x c →
      Shape N m k (kid k p j) (b + j * radixAt k) →
      Rep H F N m.node k (kid k p j) (b + j * radixAt k) →
      FillOk H F G N k (kid k p j) (b + j * radixAt k) x c m
        (sub m (kid k p j) x c (b + j * radixAt k)))
    (rounds : ℕ) {j : ℕ} (nblks : ℤ) (hrounds : 16 ≤ j + rounds) (hs : Shape N m (k + 1) p b)
    (hend : x + c ≤ b + radixAt (k + 1)) (hendN : x + c ≤ N)
    (hG : ∀ y, b + j * radixAt k ≤ y → y < b + radixAt (k + 1) → (y ∈ G ↔ x ≤ y ∧ y < x + c))
    (hx : b + j * radixAt k < x + c →
      b + j * radixAt k ≤ x ∧ x < b + j * radixAt k + radixAt k ∧ 1 ≤ c)
    (hc : x + c ≤ b + j * radixAt k → c = 0)
    (hdone : ∀ i < 16, i < j → b + i * radixAt k < N →
      Rep H (F \ G) N m.node k (kid k p i) (b + i * radixAt k))
    (htodo : ∀ i < 16, j ≤ i → b + i * radixAt k < N →
      Rep H F N m.node k (kid k p i) (b + i * radixAt k)) :
    ((∀ i < 16, j ≤ i → b + i * radixAt k < N → FillFits F G N k (b + i * radixAt k)) ∧
      ∃ m', fillLoop sub p (radixAt k) (16 * spanAt k) (spanAt k) rounds m (1 + j * spanAt k)
          (b + j * radixAt k) x c nblks = .ok (m', nblks + cnt F x c) ∧
        Kept m m' p (spanAt (k + 1)) ∧ m'.node p = m.node p ∧ Kids H (F \ G) N m'.node k p b) ∨
    (¬ ∀ i < 16, j ≤ i → b + i * radixAt k < N → FillFits F G N k (b + i * radixAt k)) ∧
      fillLoop sub p (radixAt k) (16 * spanAt k) (spanAt k) rounds m (1 + j * spanAt k)
        (b + j * radixAt k) x c nblks = .error .panic := by
  have hradix := radixAt_pos k
  induction rounds generalizing m j x c nblks with
  | zero =>
    have hle : x + c ≤ b + j * radixAt k := by
      have := Nat.mul_le_mul_right (radixAt k) (show 16 ≤ j by omega)
      rw [radixAt_succ] at hend; omega
    refine .inl ⟨fun i hi hij _ => by omega, m, ?_, .refl _ _ _, rfl, fun i hi hN => ?_⟩
    · rw [hc hle, cnt_zero, fillLoop]
      exact congrArg (fun z => Except.ok (m, z)) (add_zero nblks).symm
    · exact hdone i hi (by omega) hN
  | succ rounds ih =>
    rw [fillLoop]
    by_cases hin : b + j * radixAt k < x + c
    swap
    · have hle : x + c ≤ b + j * radixAt k := by omega
      have hout : ∀ i < 16, j ≤ i → cnt G (b + i * radixAt k) (radixAt k) = 0 := by
        intro i hi hij
        have hmul := Nat.mul_le_mul_right (radixAt k) hij
        have hblock := kid_block_le (k := k) (b := b) hi
        refine cnt_eq_zero.2 fun y hy1 hy2 hy => ?_
        have := (hG y (by omega) (by omega)).1 hy; omega
      rw [if_neg fun h => hin h.2]
      refine .inl ⟨fun i hi hij _ => FillFits.of_outside (hout i hi hij), m, ?_, .refl _ _ _, rfl,
        fun i hi hN => ?_⟩
      · rw [hc hle, cnt_zero]; exact congrArg (fun z => Except.ok (m, z)) (add_zero nblks).symm
      · by_cases hij : i < j
        · exact hdone i hi hij hN
        · exact (htodo i hi (by omega) hN).sdiff_of_outside (hout i hi (by omega))
    obtain ⟨hx1, hx2, hc1⟩ := hx hin
    have hj : j < 16 := by
      by_contra hge
      have := Nat.mul_le_mul_right (radixAt k) (show 16 ≤ j by omega)
      rw [radixAt_succ] at hend; omega
    have hN : b + j * radixAt k < N := by omega
    obtain ⟨hp, hhint⟩ := hs.place
    have hkid : p + (1 + j * spanAt k) = kid k p j := rfl
    rw [if_pos ⟨le_skip_iff.2 hj, hin⟩]
    obtain ⟨v, hv⟩ : ∃ v, v = min (b + j * radixAt k + radixAt k - x) c := ⟨_, rfl⟩
    dsimp only
    rw [← hv, Root.read_of_lt hp, ok_bind, if_neg hhint, hkid]
    have hblock := kid_block_le (k := k) (b := b) hj
    have hrange : RangeOn G (b + j * radixAt k) (radixAt k) x v := by
      refine ⟨hx1, by omega, fun y hy1 hy2 => ?_⟩
      rw [hG y hy1 (by omega)]
      omega
    rcases hsub m j x v hj hN (by omega) (by omega) hrange ((hs.2 j hj).1 hN)
      (htodo j hj le_rfl hN) with
      ⟨hfits, m₁, hcall, hk₁, hrep₁⟩ | ⟨hfits, hcall⟩
    swap
    · refine .inr ⟨fun h => hfits (h j hj le_rfl hN), ?_⟩
      rw [hcall]; rfl
    have hspan := kid_span_le (k := k) (p := p) hj
    have hlk := lt_kid k p j
    have hk₁' : Kept m m₁ p (spanAt (k + 1)) := hk₁.mono hlk.le hspan
    have hnode : m₁.node p = m.node p := hk₁.frame p (.inl hlk)
    have hnext : b + (j + 1) * radixAt k = b + j * radixAt k + radixAt k := (next_block _ _ _).symm
    have hother : ∀ i, i < 16 → i ≠ j → ∀ y, kid k p i ≤ y → y < kid k p i + spanAt k →
        m₁.node y = m.node y := by
      intro i hi hij y hy1 hy2
      obtain ⟨hapart, -⟩ := kids_apart (k := k) (p := p) (b := b) hij
      exact hk₁.frame y (by omega)
    rw [hcall, ok_bind, next_place, next_block]
    have hstep := ih (m := m₁) (j := j + 1) (x := x + v) (c := c - v) (nblks + cnt F x v)
      (by omega) (hs.kept hk₁') (by omega) (by omega)
      (fun y hy1 hy2 => by
        rw [hG y (by omega) hy2]
        omega)
      (fun hlt => by omega) (fun hle => by omega)
      (fun i hi hij hiN => by
        by_cases hij' : i = j
        · subst hij'; exact hrep₁
        · exact (hdone i hi (by omega) hiN).congr (hother i hi hij') fun _ _ _ => Iff.rfl)
      (fun i hi hij hiN => (htodo i hi (by omega) hiN).congr (hother i hi (by omega))
        fun _ _ _ => Iff.rfl)
    have hall : (∀ i < 16, j ≤ i → b + i * radixAt k < N →
        FillFits F G N k (b + i * radixAt k)) ↔
        ∀ i < 16, j + 1 ≤ i → b + i * radixAt k < N → FillFits F G N k (b + i * radixAt k) := by
      constructor
      · intro h i hi hij; exact h i hi (by omega)
      · intro h i hi hij hiN
        by_cases hij' : i = j
        · rw [hij']; exact hfits
        · exact h i hi (by omega) hiN
    have hsum : nblks + (cnt F x v : ℤ) + (cnt F (x + v) (c - v) : ℤ) = nblks +
      (cnt F x c : ℤ) := by
      have := cnt_add F x v (c - v)
      rw [show v + (c - v) = c by omega] at this
      omega
    rw [hall]
    rw [hsum] at hstep
    dsimp only
    rcases hstep with ⟨h1, m', h2, h3, h4, h5⟩ | ⟨h1, h2⟩
    · exact .inl ⟨h1, m', h2, hk₁'.trans h3, h4.trans hnode, h5⟩
    · exact .inr ⟨h1, h2⟩

/-- A node whose calls on the subnodes do what they should. -/
theorem metaFill_of_sub {fuel : ℕ}
    (hsub : ∀ (m : Root) (j x c : ℕ), j < 16 → b + j * radixAt k < N → 1 ≤ c →
      x + c ≤ N → RangeOn G (b + j * radixAt k) (radixAt k) x c →
      Shape N m k (kid k p j) (b + j * radixAt k) →
      Rep H F N m.node k (kid k p j) (b + j * radixAt k) →
      FillOk H F G N k (kid k p j) (b + j * radixAt k) x c m
        (if spanAt k = 1 then blstLeafFill m (kid k p j) x c
          else blstMetaFill fuel m (kid k p j) x c (radixAt k) (spanAt k - 1) (b + j * radixAt k)))
    (hbN : b < N) (hs : Shape N m (k + 1) p b)
    (hr : Rep H F N m.node (k + 1) p b) (hc : 1 ≤ c) (hendN : x + c ≤ N)
    (hG : RangeOn G b (radixAt (k + 1)) x c) :
    FillOk H F G N (k + 1) p b x c m
      (blstMetaFill (fuel + 1) m p x c (radixAt (k + 1)) (16 * spanAt k) b) := by
  have hspan := spanAt_pos k
  have hradix := radixAt_pos k
  have hskip : 16 * spanAt k / blistMetaRadix = spanAt k := by show 16 * spanAt k / 16 = _; omega
  have hdiv : radixAt (k + 1) / blistMetaRadix = radixAt k := radixAt_div k
  obtain ⟨hp, hhint⟩ := hs.place
  have hu := hr.1
  have hcntG := hG.cnt
  have hcnt := cnt_sdiff_range (F := F) hG
  obtain ⟨hx1, hx2, hx3⟩ := id hG
  rw [blstMetaFill]
  simp only [hskip, hdiv]
  rw [Root.read_of_lt hp, ok_bind]
  by_cases hall : c = radixAt (k + 1) ∨ (m.node p).u = 0
  · -- ALL-ALLOCATED afterwards
    rw [if_pos hall, Root.write_of_lt hp, ok_bind]
    have hfree : cnt F b (radixAt (k + 1)) = cnt F x c := by
      rcases hall with hcr | h0
      · obtain rfl : x = b := by omega
        rw [hcr]
      · rw [h0] at hu
        have : cnt F b (radixAt (k + 1)) = 0 := by exact_mod_cast hu.symm
        omega
    have hfits : FillFits F G N (k + 1) b := by
      rcases hall with hcr | h0
      · exact .inr (.inl (hcntG.trans hcr))
      · rw [h0] at hu; exact .inr (.inr (.inl (by exact_mod_cast hu.symm)))
    have hempty : cnt (F \ G) b (radixAt (k + 1)) = 0 := by omega
    refine .inl ⟨hfits, _, by rw [hu, hfree], Kept.set (by dsimp only; omega) hhint (spanAt_pos _),
      rep_empty hempty ?_ ?_⟩
    · rw [Root.set_self]
    · rw [Root.set_self]
      dsimp only; omega
  rw [if_neg hall]
  obtain ⟨hcr, h0⟩ := not_or.1 hall
  have h0' : cnt F b (radixAt (k + 1)) ≠ 0 := by
    intro h
    rw [h] at hu; exact h0 hu
  obtain ⟨m₁, hinit, hk₁, hnode₁, hkids₁⟩ := initFree_spec hbN hs hr h0
  rw [hinit, ok_bind]
  by_cases hbig : c > radixAt k
  · rw [if_pos hbig]
    refine .inr ⟨?_, rfl⟩
    rintro (h | h | h | ⟨h, -⟩) <;> omega
  rw [if_neg hbig]
  -- the first subnode that the range meets
  obtain ⟨j, hj⟩ : ∃ j, j = (x - b) / radixAt k := ⟨_, rfl⟩
  have hdm := Nat.div_add_mod (x - b) (radixAt k)
  have hmod := Nat.mod_lt (x - b) (show 0 < radixAt k by omega)
  rw [← hj, mul_comm] at hdm
  rw [← hj, add_comm (j * spanAt k) 1]
  have hbefore : ∀ i < 16, i < j → cnt G (b + i * radixAt k) (radixAt k) = 0 := by
    intro i hi hij
    have hmul := Nat.mul_le_mul_right (radixAt k) (show i + 1 ≤ j by omega)
    rw [add_mul] at hmul
    have hblock := kid_block_le (k := k) (b := b) hi
    refine cnt_eq_zero.2 fun y hy1 hy2 hy => ?_
    have := (hx3 y (by omega) (by omega)).1 hy; omega
  have hfits : FillFits F G N (k + 1) b ↔ ∀ i < 16, j ≤ i → b + i * radixAt k < N →
      FillFits F G N k (b + i * radixAt k) := by
    constructor
    · rintro (h | h | h | ⟨-, h⟩) i hi hij hN
      · omega
      · omega
      · omega
      · exact h i hi hN
    · intro h
      refine .inr (.inr (.inr ⟨by omega, fun i hi hN => ?_⟩))
      by_cases hij : i < j
      · exact FillFits.of_outside (hbefore i hi hij)
      · exact h i hi (by omega) hN
  rcases fillLoop_spec
    (fun m i allocBlk v blk => if spanAt k = 1 then blstLeafFill m i allocBlk v
      else blstMetaFill fuel m i allocBlk v (radixAt k) (spanAt k - 1) blk) hsub
    (16 * spanAt k) (j := j) 0 (by omega) (hs.kept hk₁) hx2 hendN
    (fun y hy1 hy2 => hx3 y (by omega) hy2) (fun _ => by omega) (fun _ => by omega)
    (fun i hi hij hN => (hkids₁ i hi hN).sdiff_of_outside (hbefore i hi hij))
    (fun i hi _ hN => hkids₁ i hi hN) with ⟨h1, m', h2, h3, h4, h5⟩ | ⟨h1, h2⟩
  · refine .inl ⟨hfits.2 h1, ?_⟩
    have hkept := hk₁.trans h3
    have hnode : m'.node p = m.node p := h4.trans hnode₁
    have hp' : p < m'.rootblks := by rw [hkept.rootblks]; exact hp
    rw [h2, ok_bind]
    dsimp only
    rw [Root.read_of_lt hp', ok_bind, Root.write_of_lt hp', ok_bind, zero_add]
    refine ⟨_, rfl, hkept.trans (Kept.set ?_ ?_ (spanAt_pos _)), ?_, fun hH => ?_, .inr (.inr ?_)⟩
    · rw [hnode]; exact hhint
    · rw [hnode]; exact hhint
    · rw [Root.set_self, hnode]
      dsimp only
      rw [hu]; omega
    · rw [Root.set_self, hnode]; exact (hr.hint hH).sdiff
    · exact Kids.congr h5 (fun i hi _ => m'.set_of_ne _ (by omega)) fun _ _ _ => Iff.rfl
  · refine .inr ⟨fun h => h1 (hfits.1 h), ?_⟩
    rw [h2]; rfl

theorem blstMetaFill_spec {fuel : ℕ} (hfuel : k + 1 ≤ fuel) (hb : 32 ∣ b)
    (hbN : b < N) (hs : Shape N m (k + 1) p b) (hr : Rep H F N m.node (k + 1) p b) (hc : 1 ≤ c)
    (hendN : x + c ≤ N) (hG : RangeOn G b (radixAt (k + 1)) x c) :
    FillOk H F G N (k + 1) p b x c m
      (blstMetaFill fuel m p x c (radixAt (k + 1)) (16 * spanAt k) b) := by
  induction k generalizing fuel m p b x c with
  | zero =>
    obtain ⟨fuel, rfl⟩ : ∃ n, fuel = n + 1 := ⟨fuel - 1, by omega⟩
    refine metaFill_of_sub (fun m j x c hj hN hc hend hG hs hr => ?_) hbN hs hr hc hendN hG
    rw [if_pos (spanAt_eq_one.2 rfl)]
    exact blstLeafFill_spec hs.place.1 hs.place.2 (dvd_block hb 0 j) hr hG hc
  | succ k ih =>
    obtain ⟨fuel, rfl⟩ : ∃ n, fuel = n + 1 := ⟨fuel - 1, by omega⟩
    refine metaFill_of_sub (fun m j x c hj hN hc hend hG hs hr => ?_) hbN hs hr hc hendN hG
    rw [if_neg (mt spanAt_eq_one.1 (by omega))]
    exact ih (by omega) (dvd_block hb (k + 1) j) hN hs hr hc hend hG

end

end FreeBSD.SubrBlist
