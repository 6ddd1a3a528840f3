import FreeBSD.Kern.Blist

/-!
# What a radix tree represents

`radixAt k` blocks lie under a node of level `k`, a leaf being level 0, and the
node with everything under it takes `spanAt k` places of `bl_root`. `Shape`
says where the nodes and the terminators of a tree for `N` blocks stand, `Rep`
which set of free blocks it represents; below a node in a collapsed state
anything may stand.
-/

namespace FreeBSD.SubrBlist

open Finset

/-! ## Levels -/

/-- The number of blocks under a node of level `k`. -/
def radixAt (k : ℕ) : ℕ := blistBmapRadix * blistMetaRadix ^ k

/-- The number of places that a node of level `k` takes. -/
def spanAt : ℕ → ℕ
  | 0 => 1
  | k + 1 => blistMetaRadix * spanAt k + 1

/-- The place of subnode `j` of the node of level `k + 1` at `p`. -/
def kid (k p j : ℕ) : ℕ := p + (1 + j * spanAt k)

theorem radixAt_zero : radixAt 0 = 32 := rfl

theorem radixAt_succ (k : ℕ) : radixAt (k + 1) = 16 * radixAt k := by
  unfold radixAt
  rw [pow_succ]; ring

theorem radixAt_pos (k : ℕ) : 32 ≤ radixAt k := by
  unfold radixAt; exact Nat.le_mul_of_pos_right blistBmapRadix (Nat.pow_pos (by decide))

theorem dvd_radixAt (k : ℕ) : 32 ∣ radixAt k := Nat.dvd_mul_right _ _

theorem radixAt_div (k : ℕ) : radixAt (k + 1) / 16 = radixAt k := by
  rw [radixAt_succ]; omega

theorem spanAt_succ (k : ℕ) : spanAt (k + 1) = 16 * spanAt k + 1 := rfl

theorem spanAt_pos (k : ℕ) : 1 ≤ spanAt k := by
  cases k with
  | zero => exact le_rfl
  | succ k =>
    rw [spanAt_succ]; omega

theorem spanAt_eq_one {k : ℕ} : spanAt k = 1 ↔ k = 0 := by
  cases k with
  | zero => exact ⟨fun _ => rfl, fun _ => rfl⟩
  | succ k =>
    have := spanAt_pos k
    rw [spanAt_succ]; omega

theorem le_spanAt (k : ℕ) : k + 1 ≤ spanAt k := by
  induction k with
  | zero => exact le_rfl
  | succ k ih =>
    rw [spanAt_succ]; omega

theorem radixAt_eq_bmap {k : ℕ} : radixAt k = 32 ↔ k = 0 := by
  cases k with
  | zero => exact ⟨fun _ => rfl, fun _ => rfl⟩
  | succ k =>
    have := radixAt_pos k
    rw [radixAt_succ]; omega

theorem dvd_block {b : ℕ} (hb : 32 ∣ b) (k j : ℕ) : 32 ∣ b + j * radixAt k :=
  Nat.dvd_add hb ((dvd_radixAt k).mul_left j)

/-! ## Counting -/

/-- The number of members of `F` among the `r` blocks from `b` on. -/
def cnt (F : Finset ℕ) (b r : ℕ) : ℕ := (F ∩ Ico b (b + r)).card

section Counting

variable {F G : Finset ℕ} {b r s x c : ℕ}

theorem cnt_add (F : Finset ℕ) (b r s : ℕ) : cnt F b (r + s) = cnt F b r + cnt F (b + r) s := by
  unfold cnt
  have hsplit : Ico b (b + (r + s)) = Ico b (b + r) ∪ Ico (b + r) (b + r + s) := by
    rw [Ico_union_Ico_eq_Ico (by omega) (by omega), add_assoc]
  rw [hsplit, inter_union_distrib_left, card_union_of_disjoint]
  exact (Ico_disjoint_Ico_consecutive b (b + r) (b + r + s)).mono inter_subset_right
    inter_subset_right

theorem cnt_le (F : Finset ℕ) (b r : ℕ) : cnt F b r ≤ r := by
  refine (card_le_card inter_subset_right).trans ?_
  rw [Nat.card_Ico]; omega

theorem cnt_eq_zero : cnt F b r = 0 ↔ ∀ y, b ≤ y → y < b + r → y ∉ F := by
  unfold cnt
  rw [card_eq_zero, ← disjoint_iff_inter_eq_empty, disjoint_left]
  constructor
  · intro h y h1 h2 hy; exact h hy (mem_Ico.2 ⟨h1, h2⟩)
  · intro h y hy hm
    obtain ⟨h1, h2⟩ := mem_Ico.1 hm
    exact h y h1 h2 hy

theorem cnt_eq_full : cnt F b r = r ↔ ∀ y, b ≤ y → y < b + r → y ∈ F := by
  unfold cnt
  have hcard : (Ico b (b + r)).card = r := by rw [Nat.card_Ico]; omega
  constructor
  · intro h y h1 h2
    have heq := eq_of_subset_of_card_le (inter_subset_right : F ∩ Ico b (b + r) ⊆ _)
      (by rw [h, hcard])
    have hy : y ∈ F ∩ Ico b (b + r) := by rw [heq]; exact mem_Ico.2 ⟨h1, h2⟩
    exact (mem_inter.1 hy).1
  · intro h
    rw [inter_eq_right.2 fun y hy => ?_, hcard]
    obtain ⟨h1, h2⟩ := mem_Ico.1 hy
    exact h y h1 h2

theorem cnt_congr (h : ∀ y, b ≤ y → y < b + r → (y ∈ G ↔ y ∈ F)) : cnt G b r = cnt F b r := by
  unfold cnt
  congr 1
  ext y
  rw [mem_inter, mem_inter, mem_Ico]
  constructor
  · rintro ⟨hy, h1, h2⟩; exact ⟨(h y h1 h2).1 hy, h1, h2⟩
  · rintro ⟨hy, h1, h2⟩; exact ⟨(h y h1 h2).2 hy, h1, h2⟩

/-- The common part of two ranges. -/
theorem cnt_Ico_of_subset (h1 : b ≤ x) (h2 : x + c ≤ b + r) : cnt (Ico x (x + c)) b r = c := by
  unfold cnt
  rw [inter_eq_left.2 (Ico_subset_Ico h1 h2), Nat.card_Ico]; omega

theorem cnt_union_of_disjoint (hd : Disjoint F G) : cnt (F ∪ G) b r = cnt F b r + cnt G b r := by
  unfold cnt
  rw [union_inter_distrib_right, card_union_of_disjoint]
  exact hd.mono inter_subset_left inter_subset_left

theorem cnt_sdiff (F G : Finset ℕ) (b r : ℕ) : cnt (F \ G) b r + cnt (F ∩ G) b r = cnt F b r := by
  have hd : Disjoint (F \ G) (F ∩ G) := disjoint_sdiff_inter F G
  rw [← cnt_union_of_disjoint hd, sdiff_union_inter]

end Counting

/-! ## The tree -/

/-- The nodes of the tree for `N` blocks are in the array and no terminators; the first place
    without blocks below a node has a terminator. -/
def Shape (N : ℕ) (m : Root) : ℕ → ℕ → ℕ → Prop
  | 0, p, _ => p < m.rootblks ∧ (m.node p).bmBighint ≠ -1
  | k + 1, p, b => (p < m.rootblks ∧ (m.node p).bmBighint ≠ -1) ∧ ∀ j < 16,
    (b + j * radixAt k < N → Shape N m k (kid k p j) (b + j * radixAt k)) ∧
    (N ≤ b + j * radixAt k → b + j * radixAt k < N + radixAt k →
      kid k p j < m.rootblks ∧ (m.node (kid k p j)).bmBighint = -1)

/-- `c` free blocks in a row in one leaf below the node for `r` blocks from `b` on. -/
def RunIn (F : Finset ℕ) (b r x c : ℕ) : Prop :=
  b ≤ x ∧ x + c ≤ b + r ∧ x % 32 + c ≤ 32 ∧ ∀ y, x ≤ y → y < x + c → y ∈ F

/-- The hint is not too low. -/
def HintOk (F : Finset ℕ) (b r : ℕ) (hint : ℤ) : Prop := ∀ x c, RunIn F b r x c → (c : ℤ) ≤ hint

/-- The node of level `k` at place `p` for the blocks from `b` on represents the members of `F`
    among them. With `H` the hints are not too low. -/
def Rep (H : Prop) (F : Finset ℕ) (N : ℕ) (m : ℕ → Blmeta) : ℕ → ℕ → ℕ → Prop
  | 0, p, b => (∀ j < 32, (m p).bmuBitmap.getLsbD j = decide (b + j ∈ F)) ∧
    (H → HintOk F b 32 (m p).bmBighint)
  | k + 1, p, b => (m p).u = cnt F b (radixAt (k + 1)) ∧
    (H → HintOk F b (radixAt (k + 1)) (m p).bmBighint) ∧
    (cnt F b (radixAt (k + 1)) = 0 ∨ cnt F b (radixAt (k + 1)) = radixAt (k + 1) ∨
      ∀ j < 16, b + j * radixAt k < N → Rep H F N m k (kid k p j) (b + j * radixAt k))

/-- The representations of the subnodes. -/
def Kids (H : Prop) (F : Finset ℕ) (N : ℕ) (m : ℕ → Blmeta) (k p b : ℕ) : Prop :=
  ∀ j < 16, b + j * radixAt k < N → Rep H F N m k (kid k p j) (b + j * radixAt k)

section Rep

variable {H : Prop} {F G : Finset ℕ} {N k p b : ℕ} {m m' : ℕ → Blmeta}

theorem RunIn.mono {b' r r' x c : ℕ} (h : RunIn F b r x c) (hb : b' ≤ b) (hr : b + r ≤ b' + r') :
    RunIn F b' r' x c :=
  ⟨hb.trans h.1, h.2.1.trans hr, h.2.2⟩

theorem RunIn.subset {r x c : ℕ} (h : RunIn F b r x c)
    (hFG : ∀ y, b ≤ y → y < b + r → y ∈ F → y ∈ G) :
    RunIn G b r x c := by
  obtain ⟨h1, h2, h3, h4⟩ := h
  exact ⟨h1, h2, h3, fun y hy1 hy2 => hFG y (by omega) (by omega) (h4 y hy1 hy2)⟩

/-- Blocks of a node lie below one of its subnodes. -/
theorem kid_of_block {y : ℕ} (h1 : b ≤ y) (h2 : y < b + radixAt (k + 1)) :
    ∃ j < 16, b + j * radixAt k ≤ y ∧ y < b + j * radixAt k + radixAt k := by
  have hpos := radixAt_pos k
  rw [radixAt_succ] at h2
  have hdm := Nat.div_add_mod (y - b) (radixAt k)
  have hlt := Nat.mod_lt (y - b) (show 0 < radixAt k by omega)
  refine ⟨(y - b) / radixAt k, ?_, ?_, ?_⟩
  · rw [Nat.div_lt_iff_lt_mul (by omega)]
    omega
  · rw [mul_comm]; omega
  · rw [mul_comm]; omega

/-- A run in one leaf lies below one subnode. -/
theorem RunIn.kid {x c : ℕ} (hb : 32 ∣ b) (h : RunIn F b (radixAt (k + 1)) x c) (hc : 1 ≤ c) :
    ∃ j < 16, RunIn F (b + j * radixAt k) (radixAt k) x c := by
  obtain ⟨h1, h2, h3, h4⟩ := h
  obtain ⟨j, hj, hj1, hj2⟩ := kid_of_block (k := k) h1 (by omega)
  refine ⟨j, hj, hj1, ?_, h3, h4⟩
  -- the end of the subnode is a multiple of 32
  have hd : 32 ∣ b + j * radixAt k + radixAt k := Nat.dvd_add (dvd_block hb k j) (dvd_radixAt k)
  omega

theorem kid_block_le {j : ℕ} (hj : j < 16) :
    b + j * radixAt k + radixAt k ≤ b + radixAt (k + 1) := by
  rw [radixAt_succ]
  have := Nat.mul_le_mul_right (radixAt k) (show j + 1 ≤ 16 by omega)
  rw [add_mul] at this; omega

theorem kid_span_le {j : ℕ} (hj : j < 16) : kid k p j + spanAt k ≤ p + spanAt (k + 1) := by
  unfold kid
  rw [spanAt_succ]
  have := Nat.mul_le_mul_right (spanAt k) (show j + 1 ≤ 16 by omega)
  rw [add_mul] at this; omega

/-- The places and the blocks of two subnodes are apart. -/
theorem kids_apart {i j : ℕ} (h : i ≠ j) :
    (kid k p i + spanAt k ≤ kid k p j ∨ kid k p j + spanAt k ≤ kid k p i) ∧
      (b + i * radixAt k + radixAt k ≤ b + j * radixAt k ∨
        b + j * radixAt k + radixAt k ≤ b + i * radixAt k) := by
  unfold kid
  rcases Nat.lt_or_gt_of_ne h with hlt | hlt
  · have h1 := Nat.mul_le_mul_right (spanAt k) (show i + 1 ≤ j by omega)
    have h2 := Nat.mul_le_mul_right (radixAt k) (show i + 1 ≤ j by omega)
    rw [add_mul] at h1 h2; omega
  · have h1 := Nat.mul_le_mul_right (spanAt k) (show j + 1 ≤ i by omega)
    have h2 := Nat.mul_le_mul_right (radixAt k) (show j + 1 ≤ i by omega)
    rw [add_mul] at h1 h2; omega

theorem HintOk.congr {r : ℕ} {hint : ℤ} (h : HintOk F b r hint)
    (hF : ∀ y, b ≤ y → y < b + r → (y ∈ G ↔ y ∈ F)) : HintOk G b r hint :=
  fun x c hrun => h x c (hrun.subset fun y h1 h2 => (hF y h1 h2).1)

/-- A representation depends on the places of the node and on its blocks only. -/
theorem Rep.congr (h : Rep H F N m k p b)
    (hm : ∀ i, p ≤ i → i < p + spanAt k → m' i = m i)
    (hF : ∀ y, b ≤ y → y < b + radixAt k → (y ∈ G ↔ y ∈ F)) : Rep H G N m' k p b := by
  induction k generalizing p b with
  | zero =>
    have hp := hm p le_rfl (by simp [spanAt])
    obtain ⟨h1, h2⟩ := h
    refine ⟨fun j hj => ?_, fun hH => ?_⟩
    · rw [hp, h1 j hj]
      exact decide_eq_decide.2 (hF _ (by omega) (by rw [radixAt_zero]; omega)).symm
    · rw [hp]; exact (h2 hH).congr hF
  | succ k ih =>
    have hp := hm p le_rfl (by have := spanAt_pos (k + 1); omega)
    have hcnt := cnt_congr hF
    obtain ⟨h1, h2, h3⟩ := h
    refine ⟨by rw [hp, h1, hcnt], fun hH => by rw [hp]; exact (h2 hH).congr hF, ?_⟩
    rw [hcnt]
    refine h3.imp_right fun h3 => h3.imp_right fun h3 j hj hN => ?_
    refine ih (h3 j hj hN) (fun i hi1 hi2 => hm i ?_ ?_) fun y hy1 hy2 => hF y ?_ ?_
    · unfold kid at hi1; omega
    · have := kid_span_le (k := k) (p := p) hj; omega
    · omega
    · have := kid_block_le (k := k) (b := b) hj; omega

/-- Forgetting the hints. -/
theorem Rep.mono {H' : Prop} (hH : H' → H) (h : Rep H F N m k p b) : Rep H' F N m k p b := by
  induction k generalizing p b with
  | zero => exact ⟨h.1, fun h' => h.2 (hH h')⟩
  | succ k ih =>
    obtain ⟨h1, h2, h3⟩ := h
    exact ⟨h1, fun h' => h2 (hH h'), h3.imp_right fun h3 => h3.imp_right fun h3 j hj hN =>
      ih (h3 j hj hN)⟩

/-- A node represents one set. -/
theorem Rep.unique {H' : Prop} (h : Rep H F N m k p b) (h' : Rep H' G N m k p b)
    (hF : F ⊆ range N) (hG : G ⊆ range N) : ∀ y, b ≤ y → y < b + radixAt k → (y ∈ G ↔ y ∈ F) := by
  induction k generalizing p b with
  | zero =>
    intro y h1 h2
    rw [radixAt_zero] at h2
    have e1 := h.1 (y - b) (by omega)
    have e2 := h'.1 (y - b) (by omega)
    rw [show b + (y - b) = y by omega] at e1 e2
    exact decide_eq_decide.1 (e2.symm.trans e1)
  | succ k ih =>
    obtain ⟨h1, -, h3⟩ := h
    obtain ⟨h1', -, h3'⟩ := h'
    have hcnt : cnt G b (radixAt (k + 1)) = cnt F b (radixAt (k + 1)) := by
      have := h1'.symm.trans h1
      exact_mod_cast this
    rw [hcnt] at h3'
    have hpos := radixAt_pos (k + 1)
    intro y hy1 hy2
    rcases h3 with h0 | hfull | hkids
    · rw [h0] at hcnt
      exact iff_of_false (cnt_eq_zero.1 hcnt y hy1 hy2) (cnt_eq_zero.1 h0 y hy1 hy2)
    · rw [hfull] at hcnt
      exact iff_of_true (cnt_eq_full.1 hcnt y hy1 hy2) (cnt_eq_full.1 hfull y hy1 hy2)
    · rcases h3' with h0 | hfull | hkids'
      · exact iff_of_false (cnt_eq_zero.1 (hcnt.trans h0) y hy1 hy2)
          (cnt_eq_zero.1 h0 y hy1 hy2)
      · exact iff_of_true (cnt_eq_full.1 (hcnt.trans hfull) y hy1 hy2)
          (cnt_eq_full.1 hfull y hy1 hy2)
      · obtain ⟨j, hj, hj1, hj2⟩ := kid_of_block hy1 hy2
        by_cases hN : b + j * radixAt k < N
        · exact ih (hkids j hj hN) (hkids' j hj hN) y hj1 hj2
        · have hyN : y ∉ range N := by
            rw [mem_range]; omega
          exact iff_of_false (fun h => hyN (hG h)) (fun h => hyN (hF h))

end Rep

end FreeBSD.SubrBlist
