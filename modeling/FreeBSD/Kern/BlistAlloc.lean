import FreeBSD.Kern.BlistFrame

/-!
# Allocation

`blst_leaf_alloc` and `blst_meta_alloc` take a run of free blocks out of one
leaf, or leave the set as it is; with hints that are not too low they fail only
where no leaf has such a run.

Results:
* `lowBit_spec`, `scanBits_spec`: the searches in a bitmap.
* `blstLeafAlloc_spec`, `allocLoop_spec`, `blstMetaAlloc_spec`: what a call does (`AllocOk`).
-/

namespace FreeBSD.SubrBlist

open Finset Option BitVec

/-! ## Bitmaps -/

theorem and_eq_zero_iff {x y : BitVec 32} :
    x &&& y = 0 ↔ ∀ i < 32, y.getLsbD i = true → x.getLsbD i = false := by
  constructor
  · intro h i _ hy
    have hi : (x &&& y).getLsbD i = false := by rw [h]; exact getLsbD_zero
    rw [getLsbD_and, hy, Bool.and_true] at hi; exact hi
  · intro h
    apply eq_of_getLsbD_eq
    intro i hi
    show (x &&& y).getLsbD i = (0#32).getLsbD i
    rw [getLsbD_and, getLsbD_zero]
    cases hy : y.getLsbD i with
    | false => exact Bool.and_false _
    | true => rw [h i hi hy, Bool.false_and]

theorem and_eq_right_iff {x y : BitVec 32} :
    x &&& y = y ↔ ∀ i < 32, y.getLsbD i = true → x.getLsbD i = true := by
  constructor
  · intro h i _ hy
    have hi : (x &&& y).getLsbD i = true := by rw [h]; exact hy
    rw [getLsbD_and, hy, Bool.and_true] at hi; exact hi
  · intro h
    apply eq_of_getLsbD_eq
    intro i hi
    rw [getLsbD_and]
    cases hy : y.getLsbD i with
    | false => exact Bool.and_false _
    | true => rw [h i hi hy, Bool.true_and]

/-- The search ends on a bit of the bitmap: `orig` is `orig₀` without its lowest `r` bits. -/
theorem lowBit_spec {orig₀ : BitVec 32} (t : ℕ) {rounds r : ℕ} {mask orig : BitVec 32}
    (hrounds : t + 2 ≤ rounds) (hmask : ∀ i, mask.getLsbD i = decide (i < 2 ^ t))
    (horig : ∀ i, orig.getLsbD i = orig₀.getLsbD (r + i))
    (hbit : ∃ i < 2 * 2 ^ t, orig₀.getLsbD (r + i) = true) :
    orig₀.getLsbD (lowBit rounds (2 ^ t) mask orig r) = true := by
  have hlow : orig &&& mask = 0 ↔ ∀ i < 2 ^ t, orig₀.getLsbD (r + i) = false := by
    rw [and_eq_zero_iff]
    constructor
    · intro h i hi
      rw [← horig]
      by_cases hi' : i < 32
      · exact h i hi' (by rw [hmask]; exact decide_eq_true hi)
      · exact getLsbD_of_ge _ _ (by omega)
    · intro h i _ hm
      rw [hmask, decide_eq_true_eq] at hm
      rw [horig]; exact h i hm
  obtain ⟨i, hi, hset⟩ := hbit
  obtain ⟨rounds, rfl⟩ : ∃ n, rounds = n + 1 := ⟨rounds - 1, by omega⟩
  have hpos := Nat.two_pow_pos t
  -- where the bit is after this round
  have hclear : orig &&& mask = 0 → 2 ^ t ≤ i := by
    intro h0
    by_contra hlt
    rw [hlow.1 h0 i (by omega)] at hset
    cases hset
  have hsome : orig &&& mask ≠ 0 → ∃ i < 2 ^ t, orig₀.getLsbD (r + i) = true := by
    intro h0
    by_contra hno
    refine h0 (hlow.2 fun i hi => ?_)
    by_contra hne
    exact hno ⟨i, hi, by simpa using hne⟩
  rw [lowBit, if_neg (by omega)]
  cases t with
  | zero =>
    obtain ⟨rounds, rfl⟩ : ∃ n, rounds = n + 1 := ⟨rounds - 1, by omega⟩
    have hhalf : 2 ^ 0 / 2 = 0 := rfl
    rw [hhalf, lowBit, if_pos rfl, lowBit, if_pos rfl]
    split_ifs with h0
    · have := hclear h0
      obtain rfl : i = 1 := by omega
      exact hset
    · obtain ⟨i', hi', hset'⟩ := hsome h0
      obtain rfl : i' = 0 := by omega
      exact hset'
  | succ t =>
    have hhalf : 2 ^ (t + 1) / 2 = 2 ^ t := by rw [pow_succ]; omega
    have hdouble : 2 * 2 ^ t = 2 ^ (t + 1) := by rw [pow_succ]; omega
    have hmask' : ∀ i, (mask >>> 2 ^ t).getLsbD i = decide (i < 2 ^ t) := by
      intro i
      rw [getLsbD_ushiftRight, hmask, decide_eq_decide, ← hdouble]; omega
    rw [hhalf]
    split_ifs with h0
    · have hge := hclear h0
      refine lowBit_spec t (by omega) hmask' (fun i => ?_) ⟨i - 2 ^ (t + 1), by omega, ?_⟩
      · rw [getLsbD_ushiftRight, horig, add_assoc]
      · rw [show r + 2 ^ (t + 1) + (i - 2 ^ (t + 1)) = r + i by omega]
        exact hset
    · obtain ⟨i', hi', hset'⟩ := hsome h0
      exact lowBit_spec t (by omega) hmask' horig ⟨i', by omega, hset'⟩

/-- The bits from `j` to `j + c - 1`. -/
def MaskAt (mask : BitVec 32) (j c : ℕ) : Prop :=
  ∀ i, mask.getLsbD i = decide (j ≤ i ∧ i < j + c ∧ i < 32)

theorem MaskAt.shift {mask : BitVec 32} {j c : ℕ} (h : MaskAt mask j c) :
    MaskAt (mask <<< 1) (j + 1) c := by
  intro i
  rw [getLsbD_shiftLeft, h (i - 1)]
  by_cases hi : i < 32
  · by_cases h1 : i < 1
    · simp only [hi, h1, decide_true, Bool.not_true, Bool.and_false, Bool.false_and]
      exact (decide_eq_false (by omega)).symm
    · simp only [hi, h1, decide_true, decide_false, Bool.not_false, Bool.true_and, and_true]
      exact decide_eq_decide.2 (by omega)
  · simp only [hi, decide_false, Bool.false_and, and_false]

theorem maskAt_low {c : ℕ} (hc : c ≤ 32) : MaskAt (BitVec.allOnes 32 >>> (32 - c)) 0 c := by
  intro i
  rw [getLsbD_ushiftRight, getLsbD_allOnes]; exact decide_eq_decide.2 (by omega)

theorem and_mask_eq {orig mask : BitVec 32} {j c : ℕ} (hm : MaskAt mask j c) (hfit : j + c ≤ 32) :
    orig &&& mask = mask ↔ ∀ i, j ≤ i → i < j + c → orig.getLsbD i = true := by
  rw [and_eq_right_iff]
  constructor
  · intro h i h1 h2; exact h i (by omega) (by rw [hm]; exact decide_eq_true ⟨h1, h2, by omega⟩)
  · intro h i _ hbit
    rw [hm, decide_eq_true_eq] at hbit; exact h i hbit.1 hbit.2.1

/-- The search finds a run of `c` bits if there is one. -/
theorem scanBits_spec (orig : BitVec 32) (rounds : ℕ) {c j : ℕ} {mask : BitVec 32}
    (hm : MaskAt mask j c) (hfit : j + rounds + c = 33) :
    (∀ j' mask', scanBits orig rounds j mask = some (j', mask') → j' + c ≤ 32 ∧ MaskAt mask' j' c ∧
      ∀ i, j' ≤ i → i < j' + c → orig.getLsbD i = true) ∧
    (scanBits orig rounds j mask = none → ∀ j', j ≤ j' → j' + c ≤ 32 →
      ∃ i, j' ≤ i ∧ i < j' + c ∧ orig.getLsbD i = false) := by
  induction rounds generalizing j mask with
  | zero =>
    refine ⟨fun j' mask' h => (by cases h), fun _ j' h1 h2 => ?_⟩
    omega
  | succ rounds ih =>
    rw [scanBits]
    by_cases h : orig &&& mask = mask
    · rw [if_pos h]
      refine ⟨fun j' mask' heq => ?_, fun heq => (by cases heq)⟩
      obtain ⟨rfl, rfl⟩ := Prod.mk.injEq _ _ _ _ ▸ some.inj heq
      exact ⟨by omega, hm, (and_mask_eq hm (by omega)).1 h⟩
    · rw [if_neg h]
      obtain ⟨h1, h2⟩ := ih hm.shift (by omega)
      refine ⟨h1, fun heq j' hj hj' => ?_⟩
      by_cases hjj : j' = j
      · subst hjj
        by_contra hno
        refine h ((and_mask_eq hm (by omega)).2 fun i hi1 hi2 => ?_)
        by_contra hne
        exact hno ⟨i, hi1, hi2, by simpa using hne⟩
      · exact h2 heq j' (by omega) hj'

/-! ## What an allocation does -/

/-- An allocation of `c` blocks below a node: it takes a free run in one leaf, or nothing. -/
structure AllocOk (H : Prop) (F : Finset ℕ) (N c k p b : ℕ) (m m' : Root) (r : Option ℕ) :
    Prop where
  kept : Kept m m' p (spanAt k)
  fail : r = none → Rep H F N m'.node k p b ∧ (H → ∀ x, ¬ RunIn F b (radixAt k) x c)
  take : ∀ x, r = some x → RunIn F b (radixAt k) x c ∧
    Rep H (F \ Ico x (x + c)) N m'.node k p b

section Leaf

variable {H : Prop} {F : Finset ℕ} {N p b c : ℕ} {m : Root}

/-- Clearing the bits of a run. -/
theorem rep_leaf_clear (hr : Rep H F N m.node 0 p b) {mask : BitVec 32} {j : ℕ}
    (hm : MaskAt mask j c) :
    Rep H (F \ Ico (b + j) (b + j + c)) N
      (m.set p ((m.node p).setBitmap ((m.node p).bmuBitmap &&& ~~~mask))).node 0 p b := by
  obtain ⟨h1, h2⟩ := hr
  constructor
  · intro i hi
    rw [Root.set_self, bmuBitmap_setBitmap, getLsbD_and, getLsbD_not, h1 i hi, hm i]
    simp only [hi, decide_true, Bool.true_and, and_true, mem_sdiff, mem_Ico]
    rw [← decide_not, ← Bool.decide_and]
    refine decide_eq_decide.2 (and_congr_right fun _ => ?_)
    omega
  · intro hH x c' hrun
    rw [Root.set_self]; exact h2 hH x c' (hrun.subset fun y _ _ hy => (mem_sdiff.1 hy).1)

/-- A run of blocks is a run of bits. -/
theorem runIn_leaf (hb : 32 ∣ b) (hr : Rep H F N m.node 0 p b) {j : ℕ} (hfit : j + c ≤ 32) :
    RunIn F b 32 (b + j) c ↔ ∀ i, j ≤ i → i < j + c → (m.node p).bmuBitmap.getLsbD i = true := by
  constructor
  · intro h i hi1 hi2
    rw [hr.1 i (by omega)]
    exact decide_eq_true (h.2.2.2 _ (by omega) (by omega))
  · intro h
    refine ⟨by omega, by omega, by omega, fun y hy1 hy2 => ?_⟩
    have hbit := h (y - b) (by omega) (by omega)
    rw [hr.1 _ (by omega), decide_eq_true_eq, show b + (y - b) = y by omega] at hbit
    exact hbit

theorem blstLeafAlloc_spec (hp : p < m.rootblks) (hh : (m.node p).bmBighint ≠ -1) (hb : 32 ∣ b)
    (hr : Rep H F N m.node 0 p b) (hc1 : 1 ≤ c) (hc2 : c ≤ 32) :
    ∃ m' r, blstLeafAlloc m p b c = .ok (m', r) ∧ AllocOk H F N c 0 p b m m' r := by
  unfold blstLeafAlloc
  rw [Root.read_of_lt hp, ok_bind]
  dsimp only
  -- a failure stores a hint that is still not too low
  have hfail : ∀ hint : ℤ, hint ≠ -1 → (∀ x, ¬ RunIn F b 32 x c) →
      (H → HintOk F b 32 hint) →
      AllocOk H F N c 0 p b m (m.set p { m.node p with bmBighint := hint }) none := by
    intro hint hne hno hok
    refine ⟨Kept.set hne hh le_rfl, fun _ => ⟨⟨fun i hi => ?_, fun hH => ?_⟩, fun _ => hno⟩,
      fun x hx => (by cases hx)⟩
    · rw [Root.set_self]; exact hr.1 i hi
    · rw [Root.set_self]; exact hok hH
  have htake : ∀ (mask : BitVec 32) (j : ℕ), MaskAt mask j c → j + c ≤ 32 →
      (∀ i, j ≤ i → i < j + c → (m.node p).bmuBitmap.getLsbD i = true) →
      AllocOk H F N c 0 p b m
        (m.set p ((m.node p).setBitmap ((m.node p).bmuBitmap &&& ~~~mask))) (some (b + j)) := by
    intro mask j hm hfit hbits
    refine ⟨Kept.set hh hh le_rfl, fun hx => (by cases hx), fun x hx => ?_⟩
    obtain rfl := some.inj hx
    exact ⟨(runIn_leaf hb hr hfit).2 hbits, rep_leaf_clear hr hm⟩
  by_cases h0 : (m.node p).bmuBitmap = 0
  · have hnobit : ∀ i, (m.node p).bmuBitmap.getLsbD i = false := by
      intro i
      rw [h0]; exact getLsbD_zero
    have hno : ∀ x c', 1 ≤ c' → ¬ RunIn F b 32 x c' := by
      intro x c' hc' hrun
      have hbit := hr.1 (x - b) (by have := hrun.2.1; have := hrun.1; omega)
      rw [hnobit, show b + (x - b) = x by have := hrun.1; omega] at hbit
      exact of_decide_eq_false hbit.symm (hrun.2.2.2 x le_rfl (by omega))
    rw [if_pos h0, Root.write_of_lt hp, ok_bind]
    refine ⟨_, _, rfl, hfail 0 (by decide) (fun x => hno x c hc1) fun _ x c' hrun => ?_⟩
    by_contra hlt
    exact hno x c' (by omega) hrun
  rw [if_neg h0]
  by_cases h1 : c = 1
  · subst h1
    obtain ⟨r, hr'⟩ : ∃ r, r = lowBit blistBmapRadix (blistBmapRadix / 2)
      (BitVec.allOnes 32 >>> (blistBmapRadix / 2)) (m.node p).bmuBitmap 0 := ⟨_, rfl⟩
    rw [if_pos rfl, ← hr', Root.write_of_lt hp, ok_bind]
    have hexists : ∃ i < 2 * 2 ^ 4, (m.node p).bmuBitmap.getLsbD (0 + i) = true := by
      by_contra hno
      refine h0 (eq_of_getLsbD_eq fun i hi => ?_)
      show _ = (0#32).getLsbD i
      rw [getLsbD_zero]
      by_contra hne
      exact hno ⟨i, hi, by rw [zero_add]; simpa using hne⟩
    have hbit : (m.node p).bmuBitmap.getLsbD r = true := by
      rw [hr']
      refine lowBit_spec 4 (by decide) (fun i => ?_) (fun i => by rw [zero_add]) hexists
      rw [getLsbD_ushiftRight, getLsbD_allOnes]
      exact decide_eq_decide.2 (by show 16 + i < 32 ↔ i < 16; omega)
    have hlt : r < 32 := by
      by_contra hge
      rw [getLsbD_of_ge _ _ (by omega)] at hbit
      cases hbit
    refine ⟨_, _, rfl, htake _ r (fun i => ?_) (by omega) fun i hi1 hi2 => ?_⟩
    · rw [getLsbD_shiftLeft]
      show (decide (i < 32) && !decide (i < r) && (1#32).getLsbD (i - r)) = _
      rw [getLsbD_one]
      by_cases hi : i < 32
      · by_cases hir : i < r
        · simp only [hi, hir, decide_true, Bool.not_true, Bool.and_false, Bool.false_and]
          exact (decide_eq_false (by omega)).symm
        · simp only [hi, hir, decide_true, decide_false, Bool.not_false, Bool.true_and, and_true]
          exact decide_eq_decide.2 (by omega)
      · simp only [hi, decide_false, Bool.false_and, and_false]
    · obtain rfl : i = r := by omega
      exact hbit
  rw [if_neg h1, if_pos hc2]
  obtain ⟨hsome, hnone⟩ := scanBits_spec (m.node p).bmuBitmap (32 - c + 1)
    (maskAt_low hc2) (by omega)
  rw [show blistBmapRadix = 32 from rfl]
  cases hscan : scanBits (m.node p).bmuBitmap (32 - c + 1) 0 (BitVec.allOnes 32 >>> (32 - c)) with
  | some jm =>
    obtain ⟨j, mask⟩ := jm
    obtain ⟨hfit, hm, hbits⟩ := hsome j mask hscan
    dsimp only
    rw [Root.write_of_lt hp, ok_bind]; exact ⟨_, _, rfl, htake mask j hm hfit hbits⟩
  | none =>
    have hno : ∀ x, ¬ RunIn F b 32 x c := by
      intro x hrun
      have hx1 := hrun.1
      have hx2 := hrun.2.2.1
      have hx3 := hrun.2.1
      obtain ⟨i, hi1, hi2, hbit⟩ := hnone hscan (x - b) (by omega) (by omega)
      have hset := (runIn_leaf hb hr (j := x - b) (c := c) (by omega)).1
        (by rw [show b + (x - b) = x by omega]; exact hrun) i hi1 hi2
      rw [hset] at hbit
      cases hbit
    dsimp only
    rw [Root.write_of_lt hp, ok_bind]
    refine ⟨_, _, rfl, hfail (c - 1) (by omega) hno fun _ x c' hrun => ?_⟩
    by_contra hlt
    obtain ⟨h1, h2, h3, h4⟩ := hrun
    exact hno x ⟨h1, by omega, by omega, fun y hy1 hy2 => h4 y hy1 (by omega)⟩

end Leaf

/-! ## Meta nodes -/

section Meta

variable {H : Prop} {F : Finset ℕ} {N k p b c : ℕ} {m : Root}

theorem Rep.hint (h : Rep H F N m.node k p b) (hH : H) :
    HintOk F b (radixAt k) (m.node p).bmBighint := by
  cases k with
  | zero => exact h.2 hH
  | succ k => exact h.2.1 hH

/-- A run is made of that many free blocks. -/
theorem RunIn.le_cnt {r x : ℕ} (h : RunIn F b r x c) : c ≤ cnt F b r := by
  obtain ⟨h1, h2, -, h4⟩ := h
  have hsub : Ico x (x + c) ⊆ F ∩ Ico b (b + r) := by
    intro y hy
    obtain ⟨hy1, hy2⟩ := mem_Ico.1 hy
    exact mem_inter.2 ⟨h4 y hy1 hy2, mem_Ico.2 ⟨by omega, by omega⟩⟩
  have hcard := card_le_card hsub
  rw [Nat.card_Ico] at hcard
  unfold cnt; omega

/-- Taking a run out of the set. -/
theorem RunIn.cnt_sdiff {r x : ℕ} (h : RunIn F b r x c) :
    cnt (F \ Ico x (x + c)) b r + c = cnt F b r := by
  have hsplit := SubrBlist.cnt_sdiff (b := b) (r := r) F (Ico x (x + c))
  obtain ⟨h1, h2, -, h4⟩ := h
  have hinter : F ∩ Ico x (x + c) = Ico x (x + c) :=
    inter_eq_right.2 fun y hy => h4 y (mem_Ico.1 hy).1 (mem_Ico.1 hy).2
  rw [hinter, cnt_Ico_of_subset h1 h2] at hsplit; exact hsplit

theorem mem_sdiff_Ico_of_outside {x y : ℕ} (h : y < x ∨ x + c ≤ y) :
    y ∈ F \ Ico x (x + c) ↔ y ∈ F := by
  rw [mem_sdiff, mem_Ico]
  constructor
  · exact fun h => h.1
  · exact fun hy => ⟨hy, by omega⟩

/-- The search through the subnodes. -/
theorem allocLoop_spec (sub : Root → ℕ → ℕ → Except Fault (Root × Option ℕ))
    (hsub : ∀ (m : Root) (j : ℕ), j < 16 → b + j * radixAt k < N →
      Shape N m k (kid k p j) (b + j * radixAt k) →
      Rep H F N m.node k (kid k p j) (b + j * radixAt k) →
      ∃ m' r, sub m (kid k p j) (b + j * radixAt k) = .ok (m', r) ∧
        AllocOk H F N c k (kid k p j) (b + j * radixAt k) m m' r)
    (hc2 : c ≤ 32) (rounds : ℕ) {j : ℕ} (hrounds : 16 ≤ j + rounds) (hs : Shape N m (k + 1) p b)
    (hkids : Kids H F N m.node k p b) (hu : (m.node p).u = cnt F b (radixAt (k + 1)))
    (hlt : b + j * radixAt k < N + radixAt k)
    (hno : H → ∀ i < j, ∀ x, ¬ RunIn F (b + i * radixAt k) (radixAt k) x c) :
    ∃ m' r, allocLoop sub p c (radixAt k) (16 * spanAt k) (spanAt k) rounds m (1 + j * spanAt k)
        (b + j * radixAt k) = .ok (m', r) ∧
      Kept m m' p (spanAt (k + 1)) ∧
      (r = none → m'.node p = m.node p ∧ Kids H F N m'.node k p b ∧
        (H → ∀ i < 16, b + i * radixAt k < N →
          ∀ x, ¬ RunIn F (b + i * radixAt k) (radixAt k) x c)) ∧
      ∀ x, r = some x → RunIn F b (radixAt (k + 1)) x c ∧
        Kids H (F \ Ico x (x + c)) N m'.node k p b ∧
        m'.node p =
          { u := (m.node p).u - c
            bmBighint := if (m.node p).bmBighint > (m.node p).u - c then (m.node p).u - c
              else (m.node p).bmBighint } := by
  induction rounds generalizing m j with
  | zero =>
    refine ⟨m, none, rfl, .refl _ _ _, fun _ => ⟨rfl, hkids, fun hH i hi _ => ?_⟩,
      fun x hx => (by cases hx)⟩
    exact hno hH i (by omega)
  | succ rounds ih =>
    rw [allocLoop]
    by_cases hj : j < 16
    swap
    · rw [if_neg (mt le_skip_iff.1 hj)]
      refine ⟨m, none, rfl, .refl _ _ _, fun _ => ⟨rfl, hkids, fun hH i hi _ => ?_⟩,
        fun x hx => (by cases hx)⟩
      exact hno hH i (by omega)
    obtain ⟨h1, h2⟩ := hs.2 j hj
    have hkid : p + (1 + j * spanAt k) = kid k p j := rfl
    rw [if_pos (le_skip_iff.2 hj), hkid]
    by_cases hN : b + j * radixAt k < N
    swap
    · -- the terminator
      obtain ⟨hplace, hhint⟩ := h2 (by omega) hlt
      rw [Root.read_of_lt hplace, ok_bind, hhint, if_neg (by omega), if_pos rfl]
      refine ⟨m, none, rfl, .refl _ _ _, fun _ => ⟨rfl, hkids, fun hH i hi hiN => ?_⟩,
        fun x hx => (by cases hx)⟩
      refine hno hH i ?_
      by_contra hge
      have := Nat.mul_le_mul_right (radixAt k) (show j ≤ i by omega)
      omega
    obtain ⟨hplace, hhint⟩ := (h1 hN).place
    rw [Root.read_of_lt hplace, ok_bind]
    have hnext : b + (j + 1) * radixAt k < N + radixAt k := by rw [← next_block]; omega
    by_cases hfit : (c : ℤ) ≤ (m.node (kid k p j)).bmBighint
    · obtain ⟨m₁, r, hcall, hok⟩ := hsub m j hj hN (h1 hN) (hkids j hj hN)
      have hspan := kid_span_le (k := k) (p := p) hj
      have hlk := lt_kid k p j
      have hkept : Kept m m₁ p (spanAt (k + 1)) := hok.kept.mono hlk.le hspan
      have hnode : m₁.node p = m.node p := hok.kept.frame p (.inl hlk)
      rw [if_pos hfit, hcall, ok_bind]
      dsimp only
      cases r with
      | some x =>
        obtain ⟨hrun, hrep⟩ := hok.take x rfl
        have hblock := kid_block_le (k := k) (b := b) hj
        have hrun' : RunIn F b (radixAt (k + 1)) x c := hrun.mono (by omega) hblock
        have hp : p < m₁.rootblks := by rw [hkept.rootblks]; exact hs.place.1
        have hle : (c : ℤ) ≤ (m.node p).u := by
          rw [hu]
          exact_mod_cast hrun'.le_cnt
        dsimp only
        rw [Root.read_of_lt hp, ok_bind, hnode, Root.write_of_lt hp, ok_bind]
        refine ⟨_, _, rfl, hkept.trans (Kept.set ?_ ?_ (spanAt_pos _)), fun hx => (by cases hx),
          fun y hy => ?_⟩
        · have := hs.place.2
          dsimp only
          split_ifs <;> omega
        · rw [hnode]; exact hs.place.2
        · obtain rfl := some.inj hy
          refine ⟨hrun', ?_, by rw [Root.set_self]⟩
          have hkids₁ := hkids.update hok.kept hrep fun z hz => mem_sdiff_Ico_of_outside (by
            have := hrun.1
            have := hrun.2.1
            omega)
          exact hkids₁.congr (fun i hi1 _ => m₁.set_of_ne _ (by omega)) fun _ _ _ => Iff.rfl
      | none =>
        obtain ⟨hrep, hnone⟩ := hok.fail rfl
        dsimp only
        rw [next_place, next_block]
        obtain ⟨m', r, hrest, hk', hfail, htake⟩ := ih (m := m₁) (j := j + 1) (by omega)
          (hs.kept hkept) (hkids.update hok.kept hrep fun _ _ => Iff.rfl)
          (by rw [hnode]; exact hu) hnext (fun hH i hi => by
            by_cases hij : i = j
            · rw [hij]; exact hnone hH
            · exact hno hH i (by omega))
        rw [hnode] at hfail htake; exact ⟨m', r, hrest, hkept.trans hk', hfail, htake⟩
    · have hradix := radixAt_pos k
      rw [if_neg hfit, if_neg hhint, if_neg (by omega), next_place, next_block]
      exact ih (by omega) hs hkids hu hnext fun hH i hi x hrun => by
        by_cases hij : i = j
        · subst hij; exact hfit ((hkids i hj hN).hint hH x c hrun)
        · exact hno hH i (by omega) x hrun

/-- Without a run below a subnode there is none below the node. -/
theorem no_run_of_kids (hF : F ⊆ range N) (hb : 32 ∣ b) (hc1 : 1 ≤ c)
    (h : ∀ i < 16, b + i * radixAt k < N →
      ∀ x, ¬ RunIn F (b + i * radixAt k) (radixAt k) x c) (x : ℕ) :
    ¬ RunIn F b (radixAt (k + 1)) x c := by
  intro hrun
  obtain ⟨i, hi, hrun'⟩ := hrun.kid hb hc1
  have hx := mem_range.1 (hF (hrun'.2.2.2 x le_rfl (by omega)))
  have hle := hrun'.1
  exact h i hi (by omega) x hrun'

/-- A node whose calls on the subnodes do what they should. -/
theorem metaAlloc_of_sub {fuel : ℕ} (hF : F ⊆ range N) (hc1 : 1 ≤ c) (hc2 : c ≤ 32)
    (hsub : ∀ (m : Root) (j : ℕ), j < 16 → b + j * radixAt k < N →
      Shape N m k (kid k p j) (b + j * radixAt k) →
      Rep H F N m.node k (kid k p j) (b + j * radixAt k) →
      ∃ m' r, (if spanAt k = 1 then blstLeafAlloc m (kid k p j) (b + j * radixAt k) c
          else blstMetaAlloc fuel m (kid k p j) (b + j * radixAt k) c (radixAt k) (spanAt k - 1)) =
        .ok (m', r) ∧ AllocOk H F N c k (kid k p j) (b + j * radixAt k) m m' r)
    (hb : 32 ∣ b) (hbN : b < N) (hs : Shape N m (k + 1) p b)
    (hr : Rep H F N m.node (k + 1) p b) :
    ∃ m' r, blstMetaAlloc (fuel + 1) m p b c (radixAt (k + 1)) (16 * spanAt k) = .ok (m', r) ∧
      AllocOk H F N c (k + 1) p b m m' r := by
  obtain ⟨hp, hhint⟩ := hs.place
  have hspan := spanAt_pos k
  have hskip : 16 * spanAt k / blistMetaRadix = spanAt k := by show 16 * spanAt k / 16 = _; omega
  have hradix : radixAt (k + 1) / blistMetaRadix = radixAt k := radixAt_div k
  have hu := hr.1
  rw [blstMetaAlloc]
  simp only [hskip, hradix]
  rw [Root.read_of_lt hp, ok_bind]
  by_cases h0 : (m.node p).u = 0
  · -- ALL-ALLOCATED
    have hcnt : cnt F b (radixAt (k + 1)) = 0 := by
      have := hu.symm.trans h0
      exact_mod_cast this
    rw [if_pos h0, Root.write_of_lt hp, ok_bind]
    refine ⟨_, _, rfl, Kept.set (by show (c : ℤ) ≠ -1; omega) hhint (spanAt_pos _),
      fun _ => ⟨rep_empty hcnt ?_ ?_, fun _ x hrun => ?_⟩, fun x hx => (by cases hx)⟩
    · rw [Root.set_self]; exact h0
    · rw [Root.set_self]
      show 0 ≤ (c : ℤ)
      omega
    · have := hrun.le_cnt; omega
  rw [if_neg h0]
  obtain ⟨m₁, hinit, hk₁, hnode₁, hkids₁⟩ := initFree_spec hbN hs hr h0
  rw [hinit, ok_bind]
  obtain ⟨m₂, r, hloop, hk₂, hfail, htake⟩ := allocLoop_spec
    (fun m i blk => if spanAt k = 1 then blstLeafAlloc m i blk c
      else blstMetaAlloc fuel m i blk c (radixAt k) (spanAt k - 1))
    hsub hc2 (16 * spanAt k) (j := 0) (by omega) (hs.kept hk₁) hkids₁
    (by rw [hnode₁]; exact hu) (by have := radixAt_pos k; omega) (fun _ i hi => by omega)
  rw [Nat.zero_mul, Nat.zero_mul, Nat.add_zero, Nat.add_zero] at hloop
  rw [hloop, ok_bind]
  dsimp only
  have hkept := hk₁.trans hk₂
  cases r with
  | some x =>
    obtain ⟨hrun, hkids, hnode⟩ := htake x rfl
    refine ⟨m₂, some x, rfl, hkept, fun hx => (by cases hx), fun y hy => ?_⟩
    obtain rfl := some.inj hy
    have hcnt := hrun.cnt_sdiff
    have hu' : (m₂.node p).u = cnt (F \ Ico x (x + c)) b (radixAt (k + 1)) := by
      rw [hnode, hnode₁]
      show (m.node p).u - c = _
      omega
    refine ⟨hrun, hu', fun hH x' c' hrun' => ?_, .inr (.inr hkids)⟩
    -- the new hint is the old one or what is left
    have hold := hr.hint hH x' c' (hrun'.subset fun y _ _ hy => (mem_sdiff.1 hy).1)
    have hleft := hrun'.le_cnt
    rw [hnode] at hu' ⊢
    rw [hnode₁] at hu' ⊢
    dsimp only at hu' ⊢
    split_ifs <;> omega
  | none =>
    obtain ⟨hnode, hkids, hno⟩ := hfail rfl
    have hp₂ : p < m₂.rootblks := by rw [hkept.rootblks]; exact hp
    have hnode' : m₂.node p = m.node p := hnode.trans hnode₁
    have hno' : H → ∀ x, ¬ RunIn F b (radixAt (k + 1)) x c := fun hH x =>
      no_run_of_kids hF hb hc1 (hno hH) x
    dsimp only
    rw [Root.read_of_lt hp₂, ok_bind, hnode']
    split_ifs with hge
    · rw [Root.write_of_lt hp₂, ok_bind]
      refine ⟨_, _, rfl, hkept.trans (Kept.set (by dsimp only; omega) (by rw [hnode']; exact hhint)
        (spanAt_pos _)), fun _ => ⟨⟨?_, fun hH x' c' hrun => ?_, .inr (.inr ?_)⟩, hno'⟩,
        fun x hx => (by cases hx)⟩
      · rw [Root.set_self]; exact hu
      · rw [Root.set_self]
        by_contra hlt
        obtain ⟨h1, h2, h3, h4⟩ := hrun
        dsimp only at hlt
        exact hno' hH x' ⟨h1, by omega, by omega, fun y hy1 hy2 => h4 y hy1 (by omega)⟩
      · exact Kids.congr hkids (fun i hi _ => m₂.set_of_ne _ (by omega)) fun _ _ _ => Iff.rfl
    · refine ⟨m₂, none, rfl, hkept, fun _ => ⟨⟨?_, fun hH => ?_, .inr (.inr hkids)⟩, hno'⟩,
        fun x hx => (by cases hx)⟩
      · rw [hnode']; exact hu
      · rw [hnode']; exact hr.hint hH

theorem blstMetaAlloc_spec (hF : F ⊆ range N) (hc1 : 1 ≤ c) (hc2 : c ≤ 32) {fuel : ℕ}
    (hfuel : k + 1 ≤ fuel) (hb : 32 ∣ b) (hbN : b < N) (hs : Shape N m (k + 1) p b)
    (hr : Rep H F N m.node (k + 1) p b) :
    ∃ m' r, blstMetaAlloc fuel m p b c (radixAt (k + 1)) (16 * spanAt k) = .ok (m', r) ∧
      AllocOk H F N c (k + 1) p b m m' r := by
  induction k generalizing fuel m p b with
  | zero =>
    obtain ⟨fuel, rfl⟩ : ∃ n, fuel = n + 1 := ⟨fuel - 1, by omega⟩
    refine metaAlloc_of_sub hF hc1 hc2 (fun m j hj hN hs hr => ?_) hb hbN hs hr
    rw [if_pos (spanAt_eq_one.2 rfl)]
    exact blstLeafAlloc_spec hs.place.1 hs.place.2 (dvd_block hb 0 j) hr hc1 hc2
  | succ k ih =>
    obtain ⟨fuel, rfl⟩ : ∃ n, fuel = n + 1 := ⟨fuel - 1, by omega⟩
    refine metaAlloc_of_sub hF hc1 hc2 (fun m j hj hN hs hr => ?_) hb hbN hs hr
    rw [if_neg (mt spanAt_eq_one.1 (by omega))]
    exact ih (by omega) (dvd_block hb (k + 1) j) hN hs hr

end Meta

end FreeBSD.SubrBlist
