import FreeBSD.Kern.BlistRep

/-!
# What a call on a node leaves alone

A call on a node changes the places below this node only, and no terminator
(`Kept`).

Results:
* `Shape.kept`: the shape of the tree stays.
* `Kids.update`: a change to one subnode.
* `initLevel_spec`: the loops that initialize a sublevel.
-/

namespace FreeBSD.SubrBlist

open Finset BitVec

/-! ## Accesses -/

@[simp] theorem ok_bind {α β : Type} (a : α) (f : α → Except Fault β) :
    (Except.ok a >>= f) = f a := rfl

/-- The array after a store at `i`. -/
def Root.set (m : Root) (i : ℕ) (x : Blmeta) : Root := { m with node := Function.update m.node i x }

@[simp] theorem Root.set_self (m : Root) (i : ℕ) (x : Blmeta) : (m.set i x).node i = x :=
  Function.update_self _ _ _

theorem Root.set_of_ne (m : Root) {i i' : ℕ} (x : Blmeta) (h : i' ≠ i) :
    (m.set i x).node i' = m.node i' := Function.update_of_ne h _ _

theorem Root.read_of_lt {m : Root} {i : ℕ} (h : i < m.rootblks) : m.read i = .ok (m.node i) :=
  if_pos h

theorem Root.write_of_lt {m : Root} {i : ℕ} (h : i < m.rootblks) (x : Blmeta) :
    m.write i x = .ok (m.set i x) := if_pos h

theorem bmuBitmap_setBitmap (s : Blmeta) (x : BitVec 32) : (s.setBitmap x).bmuBitmap = x := by
  show BitVec.ofInt 32 (x.toNat : ℤ) = x
  rw [ofInt_natCast, ofNat_toNat, setWidth_eq]

/-! ## Frames -/

/-- Only places among the `s` from `p` on have changed, and no terminator has come or gone. -/
structure Kept (m m' : Root) (p s : ℕ) : Prop where
  rootblks : m'.rootblks = m.rootblks
  frame : ∀ i, i < p ∨ p + s ≤ i → m'.node i = m.node i
  term : ∀ i, (m'.node i).bmBighint = -1 ↔ (m.node i).bmBighint = -1

namespace Kept

variable {m m' m'' : Root} {p s q t : ℕ}

theorem refl (m : Root) (p s : ℕ) : Kept m m p s := ⟨rfl, fun _ _ => rfl, fun _ => Iff.rfl⟩

theorem trans (h : Kept m m' p s) (h' : Kept m' m'' p s) : Kept m m'' p s where
  rootblks := h'.rootblks.trans h.rootblks
  frame i hi := (h'.frame i hi).trans (h.frame i hi)
  term i := (h'.term i).trans (h.term i)

theorem mono (h : Kept m m' p s) (hp : q ≤ p) (hs : p + s ≤ q + t) : Kept m m' q t where
  rootblks := h.rootblks
  frame i hi := h.frame i (by omega)
  term := h.term

theorem set {x : Blmeta} (hx : x.bmBighint ≠ -1) (ho : (m.node p).bmBighint ≠ -1) (hs : 1 ≤ s) :
    Kept m (m.set p x) p s where
  rootblks := rfl
  frame i hi := m.set_of_ne x (by omega)
  term i := by
    by_cases h : i = p
    · subst h
      rw [Root.set_self]; exact iff_of_false hx ho
    · rw [m.set_of_ne x h]

end Kept

theorem Shape.kept {N k p b q s : ℕ} {m m' : Root} (h : Shape N m k p b) (hk : Kept m m' q s) :
    Shape N m' k p b := by
  induction k generalizing p b with
  | zero =>
    obtain ⟨h1, h2⟩ := h
    exact ⟨by rw [hk.rootblks]; exact h1, fun hx => h2 ((hk.term p).1 hx)⟩
  | succ k ih =>
    obtain ⟨⟨h1, h2⟩, h3⟩ := h
    refine ⟨⟨by rw [hk.rootblks]; exact h1, fun hx => h2 ((hk.term p).1 hx)⟩, fun j hj => ?_⟩
    obtain ⟨h4, h5⟩ := h3 j hj
    refine ⟨fun hN => ih (h4 hN), fun hN hlt => ?_⟩
    obtain ⟨h6, h7⟩ := h5 hN hlt
    exact ⟨by rw [hk.rootblks]; exact h6, (hk.term _).2 h7⟩

theorem Shape.place {N k p b : ℕ} {m : Root} (h : Shape N m k p b) :
    p < m.rootblks ∧ (m.node p).bmBighint ≠ -1 := by
  cases k with
  | zero => exact h
  | succ k => exact h.1

/-! ## Subnodes -/

section Kids

variable {H : Prop} {F G : Finset ℕ} {N k p b : ℕ} {m m' : Root}

theorem lt_kid (k p j : ℕ) : p < kid k p j := by
  unfold kid; omega

/-- The subnodes do not depend on the node itself. -/
theorem Kids.congr (h : Kids H F N m.node k p b)
    (hm : ∀ i, p < i → i < p + spanAt (k + 1) → m'.node i = m.node i)
    (hF : ∀ y, b ≤ y → y < b + radixAt (k + 1) → (y ∈ G ↔ y ∈ F)) :
    Kids H G N m'.node k p b := by
  intro j hj hN
  have hspan := kid_span_le (k := k) (p := p) hj
  have hblock := kid_block_le (k := k) (b := b) hj
  have hlt := lt_kid k p j
  exact (h j hj hN).congr (fun i hi1 hi2 => hm i (by omega) (by omega))
    fun y hy1 hy2 => hF y (by omega) (by omega)

/-- A change to one subnode and to its blocks. -/
theorem Kids.update (h : Kids H F N m.node k p b) {j : ℕ}
    (hk : Kept m m' (kid k p j) (spanAt k))
    (hj : Rep H G N m'.node k (kid k p j) (b + j * radixAt k))
    (hF : ∀ y, y < b + j * radixAt k ∨ b + j * radixAt k + radixAt k ≤ y → (y ∈ G ↔ y ∈ F)) :
    Kids H G N m'.node k p b := by
  intro i hi hN
  by_cases hij : i = j
  · rw [hij]; exact hj
  · obtain ⟨h1, h2⟩ := kids_apart (k := k) (p := p) (b := b) hij
    exact (h i hi hN).congr (fun x hx1 hx2 => hk.frame x (by omega))
      fun y hy1 hy2 => hF y (by omega)

/-- The subnodes of a node that is not collapsed. -/
theorem Rep.kids (h : Rep H F N m.node (k + 1) p b) (h0 : (m.node p).u ≠ 0)
    (hr : (m.node p).u ≠ radixAt (k + 1)) : Kids H F N m.node k p b := by
  obtain ⟨h1, -, h3⟩ := h
  rw [h1] at h0 hr
  exact (h3.resolve_left fun h => h0 (by rw [h]; rfl)).resolve_left fun h => hr (by rw [h])

/-- A node whose blocks are all free. -/
theorem rep_full (hfull : cnt F b (radixAt k) = radixAt k)
    (hm : m.node p = if k = 0 then freeLeaf else freeMeta (radixAt k)) :
    Rep H F N m.node k p b := by
  cases k with
  | zero =>
    have hin := cnt_eq_full.1 hfull
    rw [if_pos rfl] at hm
    refine ⟨fun j hj => ?_, fun _ x c hrun => ?_⟩
    · have hbit : freeLeaf.bmuBitmap = BitVec.allOnes 32 := by decide
      rw [hm, hbit, getLsbD_allOnes]
      exact decide_eq_decide.2
        (iff_of_true hj (hin _ (by omega) (by rw [radixAt_zero]; omega)))
    · obtain ⟨-, -, h3, -⟩ := hrun
      rw [hm]
      show (c : ℤ) ≤ ((32 : ℕ) : ℤ)
      omega
  | succ k =>
    rw [if_neg (by omega)] at hm
    refine ⟨by rw [hm, hfull]; rfl, fun _ x c hrun => ?_, .inr (.inl hfull)⟩
    obtain ⟨-, -, h3, -⟩ := hrun
    have := radixAt_pos (k + 1)
    rw [hm]
    show (c : ℤ) ≤ (radixAt (k + 1) : ℤ)
    omega

/-- A node whose blocks are all allocated. -/
theorem rep_empty (hempty : cnt F b (radixAt k) = 0) (hu : (m.node p).u = 0)
    (hh : 0 ≤ (m.node p).bmBighint) : Rep H F N m.node k p b := by
  have hout := cnt_eq_zero.1 hempty
  have hhint : HintOk F b (radixAt k) (m.node p).bmBighint := by
    intro x c hrun
    obtain ⟨h1, h2, -, h4⟩ := hrun
    cases c with
    | zero => exact hh
    | succ c => exact absurd (h4 x le_rfl (by omega)) (hout x h1 (by omega))
  cases k with
  | zero =>
    refine ⟨fun j hj => ?_, fun _ => hhint⟩
    have hbit : (m.node p).bmuBitmap = 0 := by
      unfold Blmeta.bmuBitmap
      rw [hu]; rfl
    rw [hbit]
    show (0#32).getLsbD j = _
    rw [getLsbD_zero]
    exact (decide_eq_false (hout _ (by omega) (by rw [radixAt_zero]; omega))).symm
  | succ k => exact ⟨by rw [hu, hempty]; rfl, fun _ => hhint, .inl hempty⟩

/-- The loops over the places of the subnodes run from the first to the sixteenth. -/
theorem le_skip_iff {k j : ℕ} : 1 + j * spanAt k ≤ 16 * spanAt k ↔ j < 16 := by
  have hpos := spanAt_pos k
  constructor
  · intro h
    by_contra hge
    have := Nat.mul_le_mul_right (spanAt k) (show 16 ≤ j by omega)
    omega
  · intro h
    have := Nat.mul_le_mul_right (spanAt k) (show j + 1 ≤ 16 by omega)
    rw [Nat.add_mul] at this; omega

theorem next_place (k j : ℕ) : 1 + j * spanAt k + spanAt k = 1 + (j + 1) * spanAt k := by ring

theorem next_block (b k j : ℕ) : b + j * radixAt k + radixAt k = b + (j + 1) * radixAt k := by ring

/-- The loop stores into every subnode from `j` on that has blocks. -/
theorem initLevel_spec (leaf inner : Blmeta) (hleaf : leaf.bmBighint ≠ -1)
    (hinner : inner.bmBighint ≠ -1) (rounds : ℕ) {j : ℕ} (hrounds : 16 ≤ j + rounds)
    (hs : Shape N m (k + 1) p b) (hlt : b + j * radixAt k < N + radixAt k) :
    ∃ m', initLevel leaf inner p (16 * spanAt k) (spanAt k) rounds m (1 + j * spanAt k) = .ok m' ∧
      Kept m m' p (spanAt (k + 1)) ∧ (∀ i, i < kid k p j → m'.node i = m.node i) ∧
      ∀ i < 16, j ≤ i → b + i * radixAt k < N →
        m'.node (kid k p i) = if k = 0 then leaf else inner := by
  induction rounds generalizing m j with
  | zero => exact ⟨m, rfl, .refl _ _ _, fun _ _ => rfl, fun i hi hji => by omega⟩
  | succ rounds ih =>
    rw [initLevel]
    by_cases hj : j < 16
    · obtain ⟨h1, h2⟩ := hs.2 j hj
      have hkid : p + (1 + j * spanAt k) = kid k p j := rfl
      rw [if_pos (le_skip_iff.2 hj), hkid]
      by_cases hN : b + j * radixAt k < N
      · obtain ⟨hplace, hhint⟩ := (h1 hN).place
        rw [Root.read_of_lt hplace, ok_bind, if_neg hhint, Root.write_of_lt hplace, ok_bind,
          next_place]
        obtain ⟨x, hx⟩ : ∃ x, x = if spanAt k = 1 then leaf else inner := ⟨_, rfl⟩
        rw [← hx]
        have hxhint : x.bmBighint ≠ -1 := by
          rw [hx]
          split_ifs
          · exact hleaf
          · exact hinner
        have hxk : x = if k = 0 then leaf else inner := by
          rw [hx]; exact if_congr spanAt_eq_one rfl rfl
        have hspan := kid_span_le (k := k) (p := p) hj
        have hlk := lt_kid k p j
        have hkept : Kept m (m.set (kid k p j) x) p (spanAt (k + 1)) :=
          (Kept.set hxhint hhint (spanAt_pos k)).mono hlk.le hspan
        obtain ⟨m', hm', hk', hb', ha'⟩ := ih (m := m.set (kid k p j) x) (j := j + 1) (by omega)
          (hs.kept hkept) (by rw [← next_block]; omega)
        have hnext : kid k p j < kid k p (j + 1) := by
          unfold kid
          have := spanAt_pos k
          rw [← next_place]; omega
        refine ⟨m', hm', hkept.trans hk', fun i hi => ?_, fun i hi hji hiN => ?_⟩
        · rw [hb' i (by omega), m.set_of_ne x (by omega)]
        · by_cases hij : i = j
          · subst hij
            rw [hb' _ hnext, Root.set_self, hxk]
          · exact ha' i hi (by omega) hiN
      · -- the terminator
        obtain ⟨hplace, hhint⟩ := h2 (by omega) hlt
        rw [Root.read_of_lt hplace, ok_bind, if_pos hhint]
        refine ⟨m, rfl, .refl _ _ _, fun _ _ => rfl, fun i hi hji hiN => ?_⟩
        have := Nat.mul_le_mul_right (radixAt k) hji; omega
    · rw [if_neg (mt le_skip_iff.1 hj)]
      exact ⟨m, rfl, .refl _ _ _, fun _ _ => rfl, fun i hi hji => by omega⟩

/-- The subnodes of a node with free blocks can be used. -/
theorem initFree_spec (hbN : b < N) (hs : Shape N m (k + 1) p b)
    (hr : Rep H F N m.node (k + 1) p b) (h0 : (m.node p).u ≠ 0) :
    ∃ m', initFree (m.node p) p (radixAt (k + 1)) (radixAt k) (16 * spanAt k) (spanAt k) m =
        .ok m' ∧ Kept m m' p (spanAt (k + 1)) ∧ m'.node p = m.node p ∧
      Kids H F N m'.node k p b := by
  unfold initFree
  by_cases hfull : (m.node p).u = radixAt (k + 1)
  · have hcnt : cnt F b (radixAt (k + 1)) = radixAt (k + 1) := by
      have := hr.1.symm.trans hfull
      exact_mod_cast this
    have hspan := spanAt_pos k
    obtain ⟨m', hm', hkept, hbefore, hset⟩ := initLevel_spec freeLeaf
      (freeMeta (radixAt k)) (by decide) (by show (radixAt k : ℤ) ≠ -1; omega)
      (16 * spanAt k) (j := 0) (by omega) hs (by omega)
    rw [Nat.zero_mul, Nat.add_zero] at hm'
    rw [if_pos hfull]
    refine ⟨m', hm', hkept, hbefore p (lt_kid k p 0), fun j hj hN => ?_⟩
    refine rep_full (cnt_eq_full.2 fun y h1 h2 => ?_) (hset j hj (Nat.zero_le _) hN)
    have := kid_block_le (k := k) (b := b) hj
    exact cnt_eq_full.1 hcnt y (by omega) (by omega)
  · rw [if_neg hfull]; exact ⟨m, rfl, .refl _ _ _, rfl, hr.kids h0 hfull⟩

end Kids

end FreeBSD.SubrBlist
