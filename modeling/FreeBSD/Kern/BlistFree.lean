import FreeBSD.Kern.BlistAlloc

/-!
# Freeing

`blst_meta_free` adds a range of allocated blocks to the set. Where it makes all
blocks of a node free that had some blocks free before, it returns without a
look at the hint: `RaisesHints` is the condition under which no hint is too low
afterwards.

Results:
* `blstLeafFree_spec`, `freeLoop_spec`, `blstMetaFree_spec`: what a call does.
-/

namespace FreeBSD.SubrBlist

open Finset BitVec

/-! ## Leaves -/

theorem maskAt_rangeMask {x c : ℕ} (h : x % 32 + c ≤ 32) : MaskAt (rangeMask x c) (x % 32) c := by
  intro i
  show ((BitVec.allOnes 32 <<< (x % 32)) &&& (BitVec.allOnes 32 >>> (32 - c - x % 32))).getLsbD i =
    _
  rw [getLsbD_and, getLsbD_shiftLeft, getLsbD_allOnes,
    getLsbD_ushiftRight, getLsbD_allOnes, ← decide_not, ← Bool.decide_and,
    ← Bool.decide_and, ← Bool.decide_and]
  exact decide_eq_decide.2 (by omega)

/-- `G` has the blocks from `x` to `x + c - 1`, and no others, among the `r` blocks from `b` on. -/
def RangeOn (G : Finset ℕ) (b r x c : ℕ) : Prop :=
  b ≤ x ∧ x + c ≤ b + r ∧ ∀ y, b ≤ y → y < b + r → (y ∈ G ↔ x ≤ y ∧ y < x + c)

section

variable {H : Prop} {F G : Finset ℕ} {N k p b x c : ℕ} {m : Root}

theorem RangeOn.cnt {r : ℕ} (h : RangeOn G b r x c) : cnt G b r = c := by
  obtain ⟨h1, h2, h3⟩ := h
  rw [← cnt_Ico_of_subset h1 h2]
  refine cnt_congr fun y hy1 hy2 => ?_
  rw [h3 y hy1 hy2, mem_Ico]

/-- The count with the range added. -/
theorem cnt_union_range {r : ℕ} (h : RangeOn G b r x c)
    (hd : ∀ y, b ≤ y → y < b + r → y ∈ G → y ∉ F) : SubrBlist.cnt (F ∪ G) b r =
      SubrBlist.cnt F b r + c := by
  have hd' : Disjoint F (G ∩ Ico b (b + r)) := by
    rw [disjoint_right]
    intro y hy
    obtain ⟨hy1, hy2⟩ := mem_inter.1 hy
    obtain ⟨hy3, hy4⟩ := mem_Ico.1 hy2
    exact hd y hy3 hy4 hy1
  have hG : SubrBlist.cnt (G ∩ Ico b (b + r)) b r = c := by
    rw [← h.cnt]
    refine cnt_congr fun y hy1 hy2 => ?_
    rw [mem_inter, mem_Ico]; exact and_iff_left ⟨hy1, hy2⟩
  rw [← hG, ← cnt_union_of_disjoint hd']
  refine cnt_congr fun y hy1 hy2 => ?_
  rw [mem_union, mem_union, mem_inter, mem_Ico]; tauto

theorem blstLeafFree_spec (hp : p < m.rootblks) (hh : (m.node p).bmBighint ≠ -1) (hb : 32 ∣ b)
    (hr : Rep H F N m.node 0 p b) (hG : RangeOn G b 32 x c) (hc : 1 ≤ c)
    (hd : ∀ y, b ≤ y → y < b + 32 → y ∈ G → y ∉ F) :
    ∃ m', blstLeafFree m p x c = .ok m' ∧ Kept m m' p 1 ∧ Rep H (F ∪ G) N m'.node 0 p b := by
  obtain ⟨h1, h2, h3⟩ := hG
  have hmod : x % 32 = x - b := by omega
  have hmask := maskAt_rangeMask (x := x) (c := c) (by omega)
  rw [hmod] at hmask
  have hclear : (m.node p).bmuBitmap &&& rangeMask x c = 0 := by
    rw [and_eq_zero_iff]
    intro i hi hbit
    rw [hmask, decide_eq_true_eq] at hbit
    rw [hr.1 i hi]
    refine decide_eq_false (hd _ (by omega) (by omega) ((h3 _ (by omega) (by omega)).2 ?_))
    omega
  unfold blstLeafFree
  rw [Root.read_of_lt hp, ok_bind]
  dsimp only
  rw [if_neg (not_not.2 hclear), Root.write_of_lt hp]
  have hfull : ((blistBmapRadix : ℕ) : ℤ) ≠ -1 := by decide
  refine ⟨_, rfl, Kept.set hfull hh le_rfl, fun i hi => ?_, fun _ y n hrun => ?_⟩
  · have hset : ∀ s : Blmeta, ∀ h : ℤ, ({ s with bmBighint := h } : Blmeta).bmuBitmap =
        s.bmuBitmap := fun _ _ => rfl
    rw [Root.set_self, hset, bmuBitmap_setBitmap, getLsbD_or, hr.1 i hi, hmask,
      ← Bool.decide_or]
    refine decide_eq_decide.2 ?_
    rw [mem_union, h3 _ (by omega) (by omega)]
    refine or_congr_right ?_
    omega
  · rw [Root.set_self]
    have := hrun.2.2.1
    show (n : ℤ) ≤ ((32 : ℕ) : ℤ)
    omega

/-! ## Meta nodes -/

/-- The hint of a node is not too low after its blocks `G` have been freed: a node that had some
    blocks free and has all of them free now had a hint of at least 32, unless this is so of a node
    above it. -/
def RaisesHints (F G : Finset ℕ) (N : ℕ) (m : ℕ → Blmeta) : ℕ → ℕ → ℕ → Prop
  | 0, _, _ => True
  | k + 1, p, b =>
    SubrBlist.cnt G b (radixAt (k + 1)) ≠ 0 → SubrBlist.cnt F b (radixAt (k + 1)) ≠ 0 →
    (SubrBlist.cnt F b (radixAt (k + 1)) + SubrBlist.cnt G b (radixAt (k + 1)) = radixAt (k + 1) →
      32 ≤ (m p).bmBighint) ∧
    (SubrBlist.cnt F b (radixAt (k + 1)) + SubrBlist.cnt G b (radixAt (k + 1)) ≠ radixAt (k + 1) →
      ∀ j < 16, b + j * radixAt k < N →
        RaisesHints F G N m k (kid k p j) (b + j * radixAt k))

theorem RaisesHints.congr {m m' : ℕ → Blmeta} (h : RaisesHints F G N m k p b)
    (hm : ∀ i, p ≤ i → i < p + spanAt k → m' i = m i) : RaisesHints F G N m' k p b := by
  induction k generalizing p b with
  | zero => trivial
  | succ k ih =>
    intro hG hF
    obtain ⟨h1, h2⟩ := h hG hF
    refine ⟨fun hfull => ?_, fun hpart j hj hN => ih (h2 hpart j hj hN) fun i hi1 hi2 => hm i ?_ ?_⟩
    · rw [hm p le_rfl (by have := spanAt_pos (k + 1); omega)]
      exact h1 hfull
    · have := lt_kid k p j; omega
    · have := kid_span_le (k := k) (p := p) hj; omega

theorem RaisesHints.of_empty (h : SubrBlist.cnt F b (radixAt k) = 0) {m : ℕ → Blmeta} :
    RaisesHints F G N m k p b := by
  cases k with
  | zero => trivial
  | succ k => exact fun _ h' => absurd h h'

/-- What the loop does to the hint of the node after the call for a subnode. -/
theorem raiseHint_spec {i : ℕ} (hp : p < m.rootblks) (hh : (m.node p).bmBighint ≠ -1)
    (hi : p + i < m.rootblks) (hk : (m.node (p + i)).bmBighint ≠ -1) :
    ∃ m', raiseHint m p i = .ok m' ∧ Kept m m' p 1 ∧ (m'.node p).u = (m.node p).u ∧
      (m.node p).bmBighint ≤ (m'.node p).bmBighint ∧
      (m.node (p + i)).bmBighint ≤ (m'.node p).bmBighint := by
  unfold raiseHint
  rw [Root.read_of_lt hp, ok_bind, Root.read_of_lt hi, ok_bind]
  by_cases h : (m.node p).bmBighint < (m.node (p + i)).bmBighint
  · rw [if_pos h, Root.write_of_lt hp]
    refine ⟨_, rfl, Kept.set hk hh le_rfl, ?_, ?_, ?_⟩
    · rw [Root.set_self]
    · rw [Root.set_self]; exact h.le
    · rw [Root.set_self]
  · rw [if_neg h]; exact ⟨m, rfl, .refl _ _ _, rfl, le_rfl, not_lt.1 h⟩

/-- The subnodes behind the range are as they should be. -/
theorem freed_of_behind {j : ℕ}
    (hG : ∀ y, b + j * radixAt k ≤ y → y < b + radixAt (k + 1) → (y ∈ G ↔ x ≤ y ∧ y < x + c))
    (hle : x + c ≤ b + j * radixAt k)
    (hdone : ∀ i < 16, i < j → b + i * radixAt k < N →
      Rep H (F ∪ G) N m.node k (kid k p i) (b + i * radixAt k) ∧
        (H → HintOk (F ∪ G) (b + i * radixAt k) (radixAt k) (m.node p).bmBighint))
    (htodo : ∀ i < 16, j ≤ i → b + i * radixAt k < N →
      Rep H F N m.node k (kid k p i) (b + i * radixAt k) ∧
        (H → HintOk F (b + i * radixAt k) (radixAt k) (m.node p).bmBighint ∧
          RaisesHints F G N m.node k (kid k p i) (b + i * radixAt k))) :
    ∀ i < 16, b + i * radixAt k < N →
      Rep H (F ∪ G) N m.node k (kid k p i) (b + i * radixAt k) ∧
        (H → HintOk (F ∪ G) (b + i * radixAt k) (radixAt k) (m.node p).bmBighint) := by
  intro i hi hN
  by_cases hij : i < j
  · exact hdone i hi hij hN
  · obtain ⟨hrep, hhint⟩ := htodo i hi (by omega) hN
    have hmul := Nat.mul_le_mul_right (radixAt k) (show j ≤ i by omega)
    have hblock := kid_block_le (k := k) (b := b) hi
    have hF : ∀ y, b + i * radixAt k ≤ y → y < b + i * radixAt k + radixAt k →
        (y ∈ F ∪ G ↔ y ∈ F) := by
      intro y hy1 hy2
      rw [mem_union, hG y (by omega) (by omega)]
      exact or_iff_left (by omega)
    exact ⟨hrep.congr (fun _ _ _ => rfl) hF, fun hH => (hhint hH).1.congr hF⟩

/-- Freeing in the subnodes: those before `j` have been dealt with. -/
theorem freeLoop_spec (sub : Root → ℕ → ℕ → ℕ → ℕ → Except Fault Root)
    (hsub : ∀ (m : Root) (j x c : ℕ), j < 16 → b + j * radixAt k < N → 1 ≤ c →
      x + c ≤ N → RangeOn G (b + j * radixAt k) (radixAt k) x c →
      Shape N m k (kid k p j) (b + j * radixAt k) →
      Rep H F N m.node k (kid k p j) (b + j * radixAt k) →
      (H → RaisesHints F G N m.node k (kid k p j) (b + j * radixAt k)) →
      ∃ m', sub m (kid k p j) x c (b + j * radixAt k) = .ok m' ∧
        Kept m m' (kid k p j) (spanAt k) ∧
        Rep H (F ∪ G) N m'.node k (kid k p j) (b + j * radixAt k))
    (rounds : ℕ) {j : ℕ} (hrounds : 16 ≤ j + rounds) (hs : Shape N m (k + 1) p b)
    (hend : x + c ≤ b + radixAt (k + 1)) (hendN : x + c ≤ N)
    (hG : ∀ y, b + j * radixAt k ≤ y → y < b + radixAt (k + 1) → (y ∈ G ↔ x ≤ y ∧ y < x + c))
    (hx : b + j * radixAt k < x + c →
      b + j * radixAt k ≤ x ∧ x < b + j * radixAt k + radixAt k ∧ 1 ≤ c)
    (hdone : ∀ i < 16, i < j → b + i * radixAt k < N →
      Rep H (F ∪ G) N m.node k (kid k p i) (b + i * radixAt k) ∧
        (H → HintOk (F ∪ G) (b + i * radixAt k) (radixAt k) (m.node p).bmBighint))
    (htodo : ∀ i < 16, j ≤ i → b + i * radixAt k < N →
      Rep H F N m.node k (kid k p i) (b + i * radixAt k) ∧
        (H → HintOk F (b + i * radixAt k) (radixAt k) (m.node p).bmBighint ∧
          RaisesHints F G N m.node k (kid k p i) (b + i * radixAt k))) :
    ∃ m', freeLoop sub p (radixAt k) (16 * spanAt k) (spanAt k) rounds m (1 + j * spanAt k)
        (b + j * radixAt k) x c = .ok m' ∧
      Kept m m' p (spanAt (k + 1)) ∧ (m'.node p).u = (m.node p).u ∧
      Kids H (F ∪ G) N m'.node k p b ∧
      (H → ∀ i < 16, b + i * radixAt k < N →
        HintOk (F ∪ G) (b + i * radixAt k) (radixAt k) (m'.node p).bmBighint) := by
  have hradix := radixAt_pos k
  induction rounds generalizing m j x c with
  | zero =>
    have hle : x + c ≤ b + j * radixAt k := by
      have := Nat.mul_le_mul_right (radixAt k) (show 16 ≤ j by omega)
      rw [radixAt_succ] at hend; omega
    have hall := freed_of_behind hG hle hdone htodo
    exact ⟨m, rfl, .refl _ _ _, rfl, fun i hi hN => (hall i hi hN).1,
      fun hH i hi hN => (hall i hi hN).2 hH⟩
  | succ rounds ih =>
    rw [freeLoop]
    by_cases hin : b + j * radixAt k < x + c
    swap
    · rw [if_neg fun h => hin h.2]
      have hle : x + c ≤ b + j * radixAt k := by omega
      have hall := freed_of_behind hG hle hdone htodo
      exact ⟨m, rfl, .refl _ _ _, rfl, fun i hi hN => (hall i hi hN).1,
        fun hH i hi hN => (hall i hi hN).2 hH⟩
    obtain ⟨hx1, hx2, hc⟩ := hx hin
    have hj : j < 16 := by
      by_contra hge
      have := Nat.mul_le_mul_right (radixAt k) (show 16 ≤ j by omega)
      rw [radixAt_succ] at hend; omega
    have hN : b + j * radixAt k < N := by omega
    obtain ⟨hp, hhint⟩ := hs.place
    obtain ⟨hrep, hraise⟩ := htodo j hj le_rfl hN
    have hkid : p + (1 + j * spanAt k) = kid k p j := rfl
    rw [if_pos ⟨le_skip_iff.2 hj, hin⟩]
    obtain ⟨v, hv⟩ : ∃ v, v = min (b + j * radixAt k + radixAt k - x) c := ⟨_, rfl⟩
    dsimp only
    rw [← hv, Root.read_of_lt hp, ok_bind, if_neg hhint, hkid]
    have hblock := kid_block_le (k := k) (b := b) hj
    have hrange : RangeOn G (b + j * radixAt k) (radixAt k) x v := by
      refine ⟨hx1, by omega, fun y hy1 hy2 => ?_⟩
      rw [hG y hy1 (by omega)]
      omega
    obtain ⟨m₁, hcall, hk₁, hrep₁⟩ := hsub m j x v hj hN (by omega) (by omega) hrange
      ((hs.2 j hj).1 hN) hrep
      fun hH => (hraise hH).2
    have hspan := kid_span_le (k := k) (p := p) hj
    have hlk := lt_kid k p j
    have hk₁' : Kept m m₁ p (spanAt (k + 1)) := hk₁.mono hlk.le hspan
    have hnode : m₁.node p = m.node p := hk₁.frame p (.inl hlk)
    have hs₁ := hs.kept hk₁'
    obtain ⟨hp₁, hhint₁⟩ := hs₁.place
    obtain ⟨hpk₁, hhk₁⟩ := ((hs₁.2 j hj).1 hN).place
    obtain ⟨m₂, hraise₂, hk₂, hu₂, hold₂, hnew₂⟩ := raiseHint_spec hp₁ hhint₁ hpk₁ hhk₁
    rw [hcall, ok_bind, hraise₂, ok_bind, next_place, next_block]
    rw [hnode] at hold₂ hu₂
    have hk₂' : Kept m₁ m₂ p (spanAt (k + 1)) := hk₂.mono le_rfl (by
      have := spanAt_pos (k + 1)
      omega)
    have hnext : b + (j + 1) * radixAt k = b + j * radixAt k + radixAt k := (next_block _ _ _).symm
    -- the subnodes other than the one that was called for
    have hother : ∀ i, i < 16 → i ≠ j → ∀ y, kid k p i ≤ y → y < kid k p i + spanAt k →
        m₂.node y = m.node y := by
      intro i hi hij y hy1 hy2
      have hlk' := lt_kid k p i
      obtain ⟨hapart, -⟩ := kids_apart (k := k) (p := p) (b := b) hij
      rw [hk₂.frame y (by omega), hk₁.frame y (by omega)]
    have hrep₂ : Rep H (F ∪ G) N m₂.node k (kid k p j) (b + j * radixAt k) :=
      hrep₁.congr (fun y hy1 _ => hk₂.frame y (by omega)) fun _ _ _ => Iff.rfl
    have hmono : ∀ (S : Finset ℕ) (b' : ℕ), HintOk S b' (radixAt k) (m.node p).bmBighint →
        HintOk S b' (radixAt k) (m₂.node p).bmBighint :=
      fun S b' h y n hrun => (h y n hrun).trans hold₂
    have hdone₂ : ∀ i < 16, i < j + 1 → b + i * radixAt k < N →
        Rep H (F ∪ G) N m₂.node k (kid k p i) (b + i * radixAt k) ∧
          (H → HintOk (F ∪ G) (b + i * radixAt k) (radixAt k) (m₂.node p).bmBighint) := by
      intro i hi hij hiN
      by_cases hij' : i = j
      · subst hij'
        refine ⟨hrep₂, fun hH y n hrun => (hrep₁.hint hH y n hrun).trans hnew₂⟩
      · obtain ⟨h1, h2⟩ := hdone i hi (by omega) hiN
        exact ⟨h1.congr (hother i hi hij') fun _ _ _ => Iff.rfl, fun hH => hmono _ _ (h2 hH)⟩
    have htodo₂ : ∀ i < 16, j + 1 ≤ i → b + i * radixAt k < N →
        Rep H F N m₂.node k (kid k p i) (b + i * radixAt k) ∧
          (H → HintOk F (b + i * radixAt k) (radixAt k) (m₂.node p).bmBighint ∧
            RaisesHints F G N m₂.node k (kid k p i) (b + i * radixAt k)) := by
      intro i hi hij hiN
      obtain ⟨h1, h2⟩ := htodo i hi (by omega) hiN
      have hsame := hother i hi (by omega)
      exact ⟨h1.congr hsame fun _ _ _ => Iff.rfl,
        fun hH => ⟨hmono _ _ (h2 hH).1, (h2 hH).2.congr hsame⟩⟩
    have hG₂ : ∀ y, b + (j + 1) * radixAt k ≤ y → y < b + radixAt (k + 1) →
        (y ∈ G ↔ x + v ≤ y ∧ y < x + v + (c - v)) := by
      intro y hy1 hy2
      rw [hG y (by omega) hy2]
      omega
    have hx₂ : b + (j + 1) * radixAt k < x + v + (c - v) →
        b + (j + 1) * radixAt k ≤ x + v ∧ x + v < b + (j + 1) * radixAt k + radixAt k ∧
          1 ≤ c - v := by
      intro hlt; omega
    obtain ⟨m', hm', hk', hu', hkids', hhint'⟩ := ih (m := m₂) (j := j + 1) (x := x + v)
      (c := c - v) (by omega) (hs₁.kept hk₂') (by omega) (by omega) hG₂ hx₂ hdone₂ htodo₂
    exact ⟨m', hm', (hk₁'.trans hk₂').trans hk', hu'.trans hu₂, hkids', hhint'⟩

/-- The first part of the call on a node: the count is right, and if the node is not ALL-FREE now
    its subnodes can be used. -/
theorem countFree_spec (hbN : b < N) (hs : Shape N m (k + 1) p b)
    (hr : Rep H F N m.node (k + 1) p b) (hc : 1 ≤ c)
    (hfit : SubrBlist.cnt F b (radixAt (k + 1)) + c ≤ radixAt (k + 1)) :
    ∃ m', countFree (m.node p) p c (radixAt (k + 1)) (16 * spanAt k) (spanAt k) m = .ok m' ∧
      Kept m m' p (spanAt (k + 1)) ∧
      (m'.node p).u = ((SubrBlist.cnt F b (radixAt (k + 1)) + c : ℕ) : ℤ) ∧
      (m'.node p).bmBighint =
        (if SubrBlist.cnt F b (radixAt (k + 1)) = 0 then (c : ℤ) else (m.node p).bmBighint) ∧
      (SubrBlist.cnt F b (radixAt (k + 1)) + c ≠ radixAt (k + 1) → Kids H F N m'.node k p b) ∧
      (SubrBlist.cnt F b (radixAt (k + 1)) ≠ 0 →
        ∀ i, p < i → m'.node i = m.node i) := by
  obtain ⟨hp, hhint⟩ := hs.place
  have hspan := spanAt_pos k
  have hradix := radixAt_pos k
  have hu := hr.1
  unfold countFree
  by_cases h0 : (m.node p).u = 0
  · have hcnt : SubrBlist.cnt F b (radixAt (k + 1)) = 0 := by
      have := hu.symm.trans h0
      exact_mod_cast this
    have hkept : Kept m (m.set p { u := c, bmBighint := c }) p (spanAt (k + 1)) :=
      Kept.set (by dsimp only; omega) hhint (spanAt_pos _)
    rw [if_pos h0, Root.write_of_lt hp, ok_bind, hcnt, Nat.zero_add, if_pos rfl]
    by_cases hcr : c = radixAt (k + 1)
    · rw [if_neg (not_not.2 hcr)]
      refine ⟨_, rfl, hkept, ?_, ?_, fun h => absurd hcr h, fun h => absurd rfl h⟩
      · rw [Root.set_self]
      · rw [Root.set_self]
    · rw [if_pos hcr]
      obtain ⟨m', hm', hk', hbefore, hset⟩ := initLevel_spec allocatedNode
        allocatedNode (by decide) (by decide) (16 * spanAt k) (j := 0)
        (by omega) (hs.kept hkept) (by omega)
      rw [Nat.zero_mul, Nat.add_zero] at hm'
      have hnode := hbefore p (lt_kid k p 0)
      rw [Root.set_self] at hnode
      refine ⟨m', hm', hkept.trans hk', by rw [hnode], by rw [hnode], fun _ j hj hN => ?_,
        fun h => absurd rfl h⟩
      have hblock := kid_block_le (k := k) (b := b) hj
      have hkid := hset j hj (Nat.zero_le _) hN
      rw [ite_self] at hkid
      refine rep_empty (cnt_eq_zero.2 fun y hy1 hy2 => ?_) (by rw [hkid]; rfl) (by rw [hkid]; rfl)
      exact cnt_eq_zero.1 hcnt y (by omega) (by omega)
  · have hcnt : SubrBlist.cnt F b (radixAt (k + 1)) ≠ 0 := by
      intro h
      rw [h] at hu; exact h0 hu
    have hnr : (m.node p).u ≠ radixAt (k + 1) := by
      rw [hu]
      intro h
      have : SubrBlist.cnt F b (radixAt (k + 1)) = radixAt (k + 1) := by exact_mod_cast h
      omega
    rw [if_neg h0, Root.write_of_lt hp, if_neg hcnt]
    refine ⟨_, rfl, Kept.set hhint hhint (spanAt_pos _), ?_, ?_, fun _ => ?_, fun _ i hi => ?_⟩
    · rw [Root.set_self]
      dsimp only
      rw [hu]
      push_cast; rfl
    · rw [Root.set_self]
    · exact Kids.congr (hr.kids h0 hnr) (fun i hi _ => m.set_of_ne _ (by omega))
        fun _ _ _ => Iff.rfl
    · exact m.set_of_ne _ (by omega)

/-- A node whose calls on the subnodes do what they should. -/
theorem metaFree_of_sub {fuel : ℕ} (hF : F ⊆ range N)
    (hsub : ∀ (m : Root) (j x c : ℕ), j < 16 → b + j * radixAt k < N → 1 ≤ c →
      x + c ≤ N → RangeOn G (b + j * radixAt k) (radixAt k) x c →
      Shape N m k (kid k p j) (b + j * radixAt k) →
      Rep H F N m.node k (kid k p j) (b + j * radixAt k) →
      (H → RaisesHints F G N m.node k (kid k p j) (b + j * radixAt k)) →
      ∃ m', (if spanAt k = 1 then blstLeafFree m (kid k p j) x c
          else blstMetaFree fuel m (kid k p j) x c (radixAt k) (spanAt k - 1)
            (b + j * radixAt k)) = .ok m' ∧
        Kept m m' (kid k p j) (spanAt k) ∧
        Rep H (F ∪ G) N m'.node k (kid k p j) (b + j * radixAt k))
    (hb : 32 ∣ b) (hbN : b < N) (hs : Shape N m (k + 1) p b)
    (hr : Rep H F N m.node (k + 1) p b) (hc : 1 ≤ c) (hendN : x + c ≤ N)
    (hG : RangeOn G b (radixAt (k + 1)) x c)
    (hd : ∀ y, b ≤ y → y < b + radixAt (k + 1) → y ∈ G → y ∉ F)
    (hraise : H → RaisesHints F G N m.node (k + 1) p b) :
    ∃ m', blstMetaFree (fuel + 1) m p x c (radixAt (k + 1)) (16 * spanAt k) b = .ok m' ∧
      Kept m m' p (spanAt (k + 1)) ∧ Rep H (F ∪ G) N m'.node (k + 1) p b := by
  have hspan := spanAt_pos k
  have hradix := radixAt_pos k
  have hskip : 16 * spanAt k / blistMetaRadix = spanAt k := by show 16 * spanAt k / 16 = _; omega
  have hdiv : radixAt (k + 1) / blistMetaRadix = radixAt k := radixAt_div k
  have hcnt := cnt_union_range hG hd
  have hcntG := hG.cnt
  have hfit : SubrBlist.cnt F b (radixAt (k + 1)) + c ≤ radixAt (k + 1) := by
    rw [← hcnt]; exact cnt_le _ _ _
  obtain ⟨m₁, hcount, hk₁, hu₁, hh₁, hkids₁, hsame₁⟩ := countFree_spec hbN hs hr hc hfit
  have hp₁ := (hs.kept hk₁).place.1
  rw [blstMetaFree]
  simp only [hskip, hdiv]
  rw [Root.read_of_lt hs.place.1, ok_bind, hcount, ok_bind, Root.read_of_lt hp₁, ok_bind, hu₁]
  by_cases hfull : SubrBlist.cnt F b (radixAt (k + 1)) + c = radixAt (k + 1)
  · -- ALL-FREE
    rw [if_pos (by exact_mod_cast hfull)]
    refine ⟨m₁, rfl, hk₁, by rw [hu₁, hcnt], fun hH y n hrun => ?_, .inr (.inl (hcnt.trans hfull))⟩
    have hn := hrun.2.2.1
    rw [hh₁]
    by_cases h0 : SubrBlist.cnt F b (radixAt (k + 1)) = 0
    · have := radixAt_pos (k + 1)
      rw [if_pos h0]; omega
    · have := (hraise hH (by omega) h0).1 (by omega)
      rw [if_neg h0]; omega
  have hlt : SubrBlist.cnt F b (radixAt (k + 1)) + c < radixAt (k + 1) := by omega
  rw [if_neg (by exact_mod_cast hfull), if_neg (by
    intro h
    have : radixAt (k + 1) < SubrBlist.cnt F b (radixAt (k + 1)) + c := by exact_mod_cast h
    omega)]
  obtain ⟨hx1, hx2, hx3⟩ := hG
  -- the first subnode that the range meets
  obtain ⟨j, hj⟩ : ∃ j, j = (x - b) / radixAt k := ⟨_, rfl⟩
  have hdm := Nat.div_add_mod (x - b) (radixAt k)
  have hmod := Nat.mod_lt (x - b) (show 0 < radixAt k by omega)
  rw [← hj, Nat.mul_comm] at hdm
  rw [← hj, Nat.add_comm (j * spanAt k) 1]
  have hkids := hkids₁ hfull
  have hold : H → HintOk F b (radixAt (k + 1)) (m₁.node p).bmBighint := by
    intro hH y n hrun
    rw [hh₁]
    split_ifs with h0
    · have := hrun.le_cnt; omega
    · exact hr.hint hH y n hrun
  obtain ⟨m', hloop, hk', hu', hkids', hhint'⟩ := freeLoop_spec
    (fun m i freeBlk v blk => if spanAt k = 1 then blstLeafFree m i freeBlk v
      else blstMetaFree fuel m i freeBlk v (radixAt k) (spanAt k - 1) blk) hsub
    (16 * spanAt k) (j := j) (by omega) (hs.kept hk₁) hx2 hendN
    (fun y hy1 hy2 => hx3 y (by omega) hy2) (fun _ => by omega)
    (fun i hi hij hN => by
      -- the range begins behind these subnodes
      have hmul := Nat.mul_le_mul_right (radixAt k) (show i + 1 ≤ j by omega)
      rw [Nat.add_mul] at hmul
      have hblock := kid_block_le (k := k) (b := b) hi
      have hF : ∀ y, b + i * radixAt k ≤ y → y < b + i * radixAt k + radixAt k →
          (y ∈ F ∪ G ↔ y ∈ F) := by
        intro y hy1 hy2
        rw [mem_union, hx3 y (by omega) (by omega)]
        exact or_iff_left (by omega)
      refine ⟨(hkids i hi hN).congr (fun _ _ _ => rfl) hF, fun hH => HintOk.congr ?_ hF⟩
      exact fun y n hrun => hold hH y n (hrun.mono (by omega) hblock))
    (fun i hi _ hN => by
      have hblock := kid_block_le (k := k) (b := b) hi
      refine ⟨hkids i hi hN, fun hH => ⟨fun y n hrun => hold hH y n (hrun.mono (by omega) hblock),
        ?_⟩⟩
      by_cases h0 : SubrBlist.cnt F b (radixAt (k + 1)) = 0
      · refine RaisesHints.of_empty (cnt_eq_zero.2 fun y hy1 hy2 => ?_)
        exact cnt_eq_zero.1 h0 y (by omega) (by omega)
      · have hkid := (hraise hH (by omega) h0).2 (by omega) i hi hN
        have hlk := lt_kid k p i
        exact hkid.congr fun y hy1 _ => hsame₁ h0 y (by omega))
  refine ⟨m', hloop, hk₁.trans hk', by rw [hu', hu₁, hcnt], fun hH y n hrun => ?_, .inr
    (.inr hkids')⟩
  cases n with
  | zero =>
    exact (hhint' hH 0 (by omega) (by omega)) (b + 0 * radixAt k) 0
      ⟨le_rfl, by omega, by have := dvd_block hb k 0; omega, fun y h1 h2 => by omega⟩
  | succ n =>
    obtain ⟨i, hi, hrun'⟩ := hrun.kid hb (by omega)
    have hyN : y < N := by
      rcases mem_union.1 (hrun.2.2.2 y le_rfl (by omega)) with hy | hy
      · exact mem_range.1 (hF hy)
      · have := (hx3 y hrun.1 (by have := hrun.2.1; omega)).1 hy; omega
    exact hhint' hH i hi (by have := hrun'.1; omega) y (n + 1) hrun'

theorem blstMetaFree_spec {fuel : ℕ} (hF : F ⊆ range N) (hfuel : k + 1 ≤ fuel) (hb : 32 ∣ b)
    (hbN : b < N) (hs : Shape N m (k + 1) p b) (hr : Rep H F N m.node (k + 1) p b) (hc : 1 ≤ c)
    (hendN : x + c ≤ N) (hG : RangeOn G b (radixAt (k + 1)) x c)
    (hd : ∀ y, b ≤ y → y < b + radixAt (k + 1) → y ∈ G → y ∉ F)
    (hraise : H → RaisesHints F G N m.node (k + 1) p b) :
    ∃ m', blstMetaFree fuel m p x c (radixAt (k + 1)) (16 * spanAt k) b = .ok m' ∧
      Kept m m' p (spanAt (k + 1)) ∧ Rep H (F ∪ G) N m'.node (k + 1) p b := by
  induction k generalizing fuel m p b x c with
  | zero =>
    obtain ⟨fuel, rfl⟩ : ∃ n, fuel = n + 1 := ⟨fuel - 1, by omega⟩
    refine metaFree_of_sub hF (fun m j x c hj hN hc _ hG hs hr _ => ?_) hb hbN hs hr hc hendN hG hd
      hraise
    rw [if_pos (spanAt_eq_one.2 rfl)]
    refine blstLeafFree_spec hs.place.1 hs.place.2 (dvd_block hb 0 j) hr hG hc fun y hy1 hy2 => ?_
    have := kid_block_le (k := 0) (b := b) hj
    rw [radixAt_zero] at this; exact hd y (by omega) (by rw [radixAt_zero] at hy1 hy2; omega)
  | succ k ih =>
    obtain ⟨fuel, rfl⟩ : ∃ n, fuel = n + 1 := ⟨fuel - 1, by omega⟩
    refine metaFree_of_sub hF (fun m j x c hj hN hc hend hG hs hr hraise => ?_) hb hbN hs hr hc
      hendN hG
      hd hraise
    rw [if_neg (mt spanAt_eq_one.1 (by omega))]
    have hblock := kid_block_le (k := k + 1) (b := b) hj
    exact ih (by omega) (dvd_block hb (k + 1) j) hN hs hr hc hend hG
      (fun y hy1 hy2 => hd y (by omega) (by omega)) hraise

end

end FreeBSD.SubrBlist
