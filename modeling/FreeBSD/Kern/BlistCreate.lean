import FreeBSD.Kern.BlistFree

/-!
# Creation

`blst_radix_init` counts the places that a tree takes, and lays it out: all
blocks are allocated, and the terminators stand where no subnode has blocks.

Results:
* `createRadix_spec`: the radix and the skip of a new blist.
-/

namespace FreeBSD.SubrBlist

open Finset

/-! ## Counting the places -/

/-- The number of subnodes that have some of the first `n` blocks below them. -/
def usedKids (k n : ℕ) : ℕ := min 16 ((n + radixAt k - 1) / radixAt k)

/-- The last place of a node of level `k` with `n` blocks, counted from the place of the node. -/
def memAt : ℕ → ℕ → ℕ
  | 0, _ => 0
  | k + 1, n => 1 + usedKids k n * spanAt k

theorem lt_usedKids {k n j : ℕ} : j < usedKids k n ↔ j < 16 ∧ j * radixAt k < n := by
  have hr := radixAt_pos k
  unfold usedKids
  rw [lt_min_iff, Nat.lt_iff_add_one_le (m := j) (n := _ / _), Nat.le_div_iff_mul_le (by omega),
    add_mul]
  omega

theorem memAt_le (k n : ℕ) : memAt k n ≤ spanAt k := by
  cases k with
  | zero => exact Nat.zero_le _
  | succ k =>
    have hle : usedKids k n ≤ 16 := min_le_left _ _
    have := Nat.mul_le_mul_right (spanAt k) hle
    rw [memAt, spanAt_succ]; omega

section Places

variable {k p n : ℕ}

/-- The blocks below subnode `j`. -/
def kidBlocks (k n j : ℕ) : ℕ := min (radixAt k) (n - j * radixAt k)

/-- One round of the loop with blocks left. -/
theorem radixInitLoop_round {sub : Option Root → ℕ → ℕ → Except Fault (Option Root × ℕ)}
    {rounds j mi x : ℕ} {m m' : Option Root} (hj : j < usedKids k n)
    (hsub : sub m (kid k p j) (kidBlocks k n j) = .ok (m', x)) :
    radixInitLoop sub p (radixAt k) (16 * spanAt k) (spanAt k) (rounds + 1) m (1 + j * spanAt k)
        (n - j * radixAt k) mi =
      radixInitLoop sub p (radixAt k) (16 * spanAt k) (spanAt k) rounds m'
        (1 + (j + 1) * spanAt k) (n - (j + 1) * radixAt k) (1 + j * spanAt k + x) := by
  obtain ⟨hj16, hjn⟩ := lt_usedKids.1 hj
  have hkid : p + (1 + j * spanAt k) = kid k p j := rfl
  have hmul : (j + 1) * radixAt k = j * radixAt k + radixAt k := Nat.succ_mul _ _
  rw [radixInitLoop, if_pos (le_skip_iff.2 hj16), hkid, next_place]
  by_cases hge : n - j * radixAt k ≥ radixAt k
  · have hb : kidBlocks k n j = radixAt k := min_eq_left hge
    rw [hb] at hsub
    rw [if_pos hge, hsub, ok_bind,
      show n - (j + 1) * radixAt k = n - j * radixAt k - radixAt k by omega]
  · have hb : kidBlocks k n j = n - j * radixAt k := min_eq_right (by omega)
    rw [hb] at hsub
    rw [if_neg hge, if_pos (by omega), hsub, ok_bind,
      show n - (j + 1) * radixAt k = 0 by omega]

theorem radixInitLoop_none (sub : Option Root → ℕ → ℕ → Except Fault (Option Root × ℕ))
    (hsub : ∀ j < usedKids k n,
      sub none (kid k p j) (kidBlocks k n j) = .ok (none, memAt k (kidBlocks k n j)))
    (rounds : ℕ) {j : ℕ} (mi : ℕ) (hrounds : 16 ≤ j + rounds) (hj : j ≤ usedKids k n)
    (hmi : mi ≤ 1 + j * spanAt k) :
    ∃ mi', radixInitLoop sub p (radixAt k) (16 * spanAt k) (spanAt k) rounds none
        (1 + j * spanAt k) (n - j * radixAt k) mi =
      .ok (none, 1 + usedKids k n * spanAt k, mi') ∧ mi' ≤ 1 + usedKids k n * spanAt k := by
  have hle : usedKids k n ≤ 16 := min_le_left _ _
  induction rounds generalizing j mi with
  | zero =>
    obtain rfl : j = usedKids k n := by omega
    exact ⟨mi, rfl, hmi⟩
  | succ rounds ih =>
    by_cases hlt : j < usedKids k n
    · rw [radixInitLoop_round hlt (hsub j hlt)]
      refine ih _ (by omega) hlt ?_
      have := memAt_le k (kidBlocks k n j)
      rw [← next_place]; omega
    · obtain rfl : j = usedKids k n := by omega
      refine ⟨mi, ?_, hmi⟩
      have hnot := mt lt_usedKids.2 hlt
      rw [radixInitLoop]
      by_cases h16 : usedKids k n < 16
      · rw [if_pos (le_skip_iff.2 h16), if_neg (by have := radixAt_pos k; omega),
          if_neg (by omega)]
        rfl
      · rw [if_neg (mt le_skip_iff.1 h16)]

/-- The call with `NULL` counts the places. -/
theorem radixInit_none {fuel : ℕ} (hfuel : k + 1 ≤ fuel) :
    blstRadixInit fuel none p (radixAt k) (spanAt k - 1) n = .ok (none, memAt k n) := by
  induction k generalizing fuel p n with
  | zero =>
    obtain ⟨fuel, rfl⟩ : ∃ f, fuel = f + 1 := ⟨fuel - 1, by omega⟩
    rfl
  | succ k ih =>
    obtain ⟨fuel, rfl⟩ : ∃ f, fuel = f + 1 := ⟨fuel - 1, by omega⟩
    have hspan := spanAt_pos k
    have hskip : 16 * spanAt k / blistMetaRadix = spanAt k := by show 16 * spanAt k / 16 = _; omega
    have hdiv : radixAt (k + 1) / blistMetaRadix = radixAt k := radixAt_div k
    have hne : radixAt (k + 1) ≠ blistBmapRadix := mt radixAt_eq_bmap.1 (by omega)
    obtain ⟨mi, hloop, hmi⟩ := radixInitLoop_none (k := k) (p := p) (n := n)
      (fun m i count => blstRadixInit fuel m i (radixAt k) (spanAt k - 1) count)
      (fun j _ => ih (by omega)) (16 * spanAt k) (j := 0) 0 (by omega)
      (Nat.zero_le _) (Nat.zero_le _)
    rw [Nat.zero_mul, Nat.zero_mul, Nat.add_zero, Nat.sub_zero] at hloop
    rw [blstRadixInit, initNode, ok_bind, if_neg hne, spanAt_succ, Nat.add_sub_cancel]
    simp only [hskip, hdiv]
    rw [hloop, ok_bind]
    dsimp only
    unfold memAt
    split_ifs with h
    · rfl
    · rw [show mi = 1 + usedKids k n * spanAt k by omega]

end Places

/-! ## Laying out the tree -/

section Layout

variable {H : Prop} {N k p b n : ℕ} {m m' : Root}

/-- The shape of a node depends on its places only. -/
theorem Shape.congr (h : Shape N m k p b) (hsize : m'.rootblks = m.rootblks)
    (hm : ∀ i, p ≤ i → i < p + spanAt k → m'.node i = m.node i) : Shape N m' k p b := by
  induction k generalizing p b with
  | zero =>
    obtain ⟨h1, h2⟩ := h
    rw [← hm p le_rfl (by simp [spanAt])] at h2
    exact ⟨by rw [hsize]; exact h1, h2⟩
  | succ k ih =>
    obtain ⟨⟨h1, h2⟩, h3⟩ := h
    rw [← hm p le_rfl (by have := spanAt_pos (k + 1); omega)] at h2
    refine ⟨⟨by rw [hsize]; exact h1, h2⟩, fun j hj => ?_⟩
    have hlk := lt_kid k p j
    have hspan := kid_span_le (k := k) (p := p) hj
    have hpos := spanAt_pos k
    obtain ⟨h4, h5⟩ := h3 j hj
    refine ⟨fun hN => ih (h4 hN) fun i hi1 hi2 => hm i (by omega) (by omega), fun hN hlt => ?_⟩
    obtain ⟨h6, h7⟩ := h5 hN hlt
    rw [← hm _ (by omega) (by omega)] at h7
    exact ⟨by rw [hsize]; exact h6, h7⟩

/-- A subtree that has been laid out: all of its blocks are allocated. -/
structure Laid (N : ℕ) (m m' : Root) (k p b : ℕ) : Prop where
  rootblks : m'.rootblks = m.rootblks
  frame : ∀ i, i < p ∨ p + spanAt k ≤ i → m'.node i = m.node i
  shape : Shape N m' k p b
  node : m'.node p = allocatedNode

/-- The blocks of a node, as far as there are any. -/
def blocksAt (N k b : ℕ) : ℕ := min (radixAt k) (N - b)

theorem kidBlocks_eq (j : ℕ) (hj : j < 16) :
    kidBlocks k (blocksAt N (k + 1) b) j = blocksAt N k (b + j * radixAt k) := by
  have hblock := kid_block_le (k := k) (b := b) hj
  unfold kidBlocks blocksAt; omega

theorem lt_usedKids_blocksAt {j : ℕ} :
    j < usedKids k (blocksAt N (k + 1) b) ↔ j < 16 ∧ b + j * radixAt k < N := by
  rw [lt_usedKids]
  refine and_congr_right fun hj => ?_
  have hblock := kid_block_le (k := k) (b := b) hj
  have hr := radixAt_pos k
  unfold blocksAt; omega

/-- The loop lays out the subnodes from `j` on and puts the terminator behind them. -/
theorem radixInitLoop_some (sub : Option Root → ℕ → ℕ → Except Fault (Option Root × ℕ))
    (hsub : ∀ (m : Root) (j : ℕ), j < usedKids k (blocksAt N (k + 1) b) →
      kid k p j + memAt k (blocksAt N k (b + j * radixAt k)) < m.rootblks →
      ∃ m', sub (some m) (kid k p j) (blocksAt N k (b + j * radixAt k)) =
          .ok (some m', memAt k (blocksAt N k (b + j * radixAt k))) ∧
        Laid N m m' k (kid k p j) (b + j * radixAt k))
    (rounds : ℕ) {j : ℕ} (mi : ℕ) (hrounds : 16 ≤ j + rounds)
    (hj : j ≤ usedKids k (blocksAt N (k + 1) b)) (hmi : mi ≤ 1 + j * spanAt k)
    (hroom : p + memAt (k + 1) (blocksAt N (k + 1) b) < m.rootblks) :
    ∃ m' mi', radixInitLoop sub p (radixAt k) (16 * spanAt k) (spanAt k) rounds (some m)
        (1 + j * spanAt k) (blocksAt N (k + 1) b - j * radixAt k) mi =
      .ok (some m', 1 + usedKids k (blocksAt N (k + 1) b) * spanAt k, mi') ∧
      mi' ≤ 1 + usedKids k (blocksAt N (k + 1) b) * spanAt k ∧
      m'.rootblks = m.rootblks ∧
      (∀ i, i < kid k p j ∨ p + spanAt (k + 1) ≤ i → m'.node i = m.node i) ∧
      (∀ i, j ≤ i → i < usedKids k (blocksAt N (k + 1) b) →
        Shape N m' k (kid k p i) (b + i * radixAt k)) ∧
      (usedKids k (blocksAt N (k + 1) b) < 16 →
        (m'.node (kid k p (usedKids k (blocksAt N (k + 1) b)))).bmBighint = -1) := by
  obtain ⟨u, hu⟩ : ∃ u, u = usedKids k (blocksAt N (k + 1) b) := ⟨_, rfl⟩
  have hle : u ≤ 16 := hu ▸ min_le_left _ _
  have hspan := spanAt_pos k
  rw [← hu] at hj
  rw [memAt, ← hu] at hroom
  induction rounds generalizing m j mi with
  | zero =>
    obtain rfl : j = u := by omega
    rw [← hu]
    exact ⟨m, mi, rfl, hmi, rfl, fun _ _ => rfl, fun i h1 h2 => by omega, fun h => by omega⟩
  | succ rounds ih =>
    by_cases hlt : j < u
    · have hlt' := hu ▸ hlt
      obtain ⟨hj16, -⟩ := lt_usedKids.1 hlt'
      have hmem := memAt_le k (blocksAt N k (b + j * radixAt k))
      have hplace : kid k p j + spanAt k ≤ p + (1 + u * spanAt k) := by
        have := Nat.mul_le_mul_right (spanAt k) (show j + 1 ≤ u by omega)
        rw [add_mul] at this
        unfold kid; omega
      obtain ⟨m₁, hcall, hlaid⟩ := hsub m j hlt' (by omega)
      rw [← kidBlocks_eq j hj16] at hcall
      have hspan' := kid_span_le (k := k) (p := p) hj16
      have hnext : kid k p j + spanAt k = kid k p (j + 1) := by
        unfold kid
        rw [← next_place]; omega
      obtain ⟨m', mi', hloop, hmi', hsize, hframe, hshape, hterm⟩ := ih (m := m₁) (j := j + 1)
        (1 + j * spanAt k + memAt k (kidBlocks k (blocksAt N (k + 1) b) j)) (by omega)
        (by rw [← next_place]; have := memAt_le k (kidBlocks k (blocksAt N (k + 1) b) j); omega)
        (by rw [hlaid.rootblks]; exact hroom) (by omega)
      rw [radixInitLoop_round hlt' hcall]
      refine ⟨m', mi', hloop, hmi', hsize.trans hlaid.rootblks, fun i hi => ?_, fun i h1 h2 => ?_,
        hterm⟩
      · rw [hframe i (by omega), hlaid.frame i (by omega)]
      · by_cases hij : i = j
        · subst hij; exact hlaid.shape.congr hsize fun x _ hx => hframe x (.inl (by omega))
        · exact hshape i (by omega) h2
    · obtain rfl : j = u := by omega
      have hnot : ¬ (j < 16 ∧ j * radixAt k < blocksAt N (k + 1) b) := by
        intro h
        have h' := lt_usedKids.2 h
        rw [← hu] at h'; exact hlt h'
      rw [← hu, radixInitLoop]
      by_cases h16 : j < 16
      · have hroom' : kid k p j < m.rootblks := hroom
        have hkid : p + (1 + j * spanAt k) = kid k p j := rfl
        rw [if_pos (le_skip_iff.2 h16), if_neg (by have := radixAt_pos k; omega),
          if_neg (by omega), hkid, putTerminator, Root.read_of_lt hroom', ok_bind,
          Root.write_of_lt hroom', ok_bind, ok_bind]
        have hspan' := kid_span_le (k := k) (p := p) h16
        refine ⟨_, mi, rfl, hmi, rfl, fun i hi => m.set_of_ne _ (by omega),
          fun i h1 h2 => by omega, fun _ => by rw [Root.set_self]⟩
      · rw [if_neg (mt le_skip_iff.1 h16)]
        exact ⟨m, mi, rfl, hmi, rfl, fun _ _ => rfl, fun i h1 h2 => by omega, fun h => by omega⟩

/-- The call with an array lays out the tree. -/
theorem radixInit_some (fuel : ℕ) (hfuel : k + 1 ≤ fuel)
    (hroom : p + memAt k (blocksAt N k b) < m.rootblks) :
    ∃ m', blstRadixInit fuel (some m) p (radixAt k) (spanAt k - 1) (blocksAt N k b) =
        .ok (some m', memAt k (blocksAt N k b)) ∧ Laid N m m' k p b := by
  have hp : p < m.rootblks := by omega
  induction k generalizing fuel m p b with
  | zero =>
    obtain ⟨fuel, rfl⟩ : ∃ f, fuel = f + 1 := ⟨fuel - 1, by omega⟩
    rw [blstRadixInit, initNode, Root.write_of_lt hp, ok_bind, ok_bind,
      if_pos (radixAt_eq_bmap.2 rfl)]
    refine ⟨_, rfl, rfl, fun i hi => m.set_of_ne _ ?_, ⟨hp, ?_⟩, m.set_self _ _⟩
    · have : spanAt 0 = 1 := rfl
      omega
    · rw [Root.set_self]; decide
  | succ k ih =>
    obtain ⟨fuel, rfl⟩ : ∃ f, fuel = f + 1 := ⟨fuel - 1, by omega⟩
    have hspan := spanAt_pos k
    have hskip : 16 * spanAt k / blistMetaRadix = spanAt k := by show 16 * spanAt k / 16 = _; omega
    have hdiv : radixAt (k + 1) / blistMetaRadix = radixAt k := radixAt_div k
    have hne : radixAt (k + 1) ≠ blistBmapRadix := mt radixAt_eq_bmap.1 (by omega)
    obtain ⟨m', mi, hloop, hmi, hsize, hframe, hshape, hterm⟩ := radixInitLoop_some
      (fun m i count => blstRadixInit fuel m i (radixAt k) (spanAt k - 1) count)
      (fun m j _ hroom => ih fuel (by omega) hroom (by omega))
        (m := m.set p { u := 0, bmBighint := 0 })
      (16 * spanAt k) (j := 0) 0 (by omega) (Nat.zero_le _) (Nat.zero_le _) hroom
    rw [Nat.zero_mul, Nat.zero_mul, Nat.add_zero, Nat.sub_zero] at hloop
    rw [blstRadixInit, initNode, Root.write_of_lt hp, ok_bind, ok_bind, if_neg hne, spanAt_succ,
      Nat.add_sub_cancel]
    simp only [hskip, hdiv]
    rw [hloop, ok_bind]
    dsimp only
    have hlk := lt_kid k p 0
    have hnode : m'.node p = allocatedNode := by rw [hframe p (.inl hlk), Root.set_self]; rfl
    refine ⟨m', ?_, hsize, fun i hi => ?_, ⟨⟨by rw [hsize]; exact hp, ?_⟩, fun j hj => ⟨?_, ?_⟩⟩,
      hnode⟩
    · rw [memAt]
      split_ifs with h
      · rfl
      · rw [show mi = 1 + usedKids k (blocksAt N (k + 1) b) * spanAt k by omega]
    · have := spanAt_pos (k + 1)
      rw [hframe i (by omega), m.set_of_ne _ (by omega)]
    · rw [hnode]; decide
    · intro hN; exact hshape j (Nat.zero_le _) (lt_usedKids_blocksAt.2 ⟨hj, hN⟩)
    · intro hN hlt
      -- this is the first subnode without blocks
      have hju : usedKids k (blocksAt N (k + 1) b) = j := by
        have h1 : ¬ j < usedKids k (blocksAt N (k + 1) b) := fun h =>
          absurd (lt_usedKids_blocksAt.1 h).2 (by omega)
        by_contra hne
        have h2 : usedKids k (blocksAt N (k + 1) b) < j := by omega
        have h3 := mt lt_usedKids_blocksAt.2 (lt_irrefl (usedKids k (blocksAt N (k + 1) b)))
        have hmul := Nat.mul_le_mul_right (radixAt k)
          (show usedKids k (blocksAt N (k + 1) b) + 1 ≤ j by omega)
        rw [Nat.add_mul] at hmul; exact h3 ⟨by omega, by omega⟩
      have hterm' := hterm (by omega)
      rw [hju] at hterm'
      rw [memAt, hju] at hroom
      refine ⟨?_, hterm'⟩
      rw [hsize]; exact hroom

/-! ## The radix -/

/-- The radix of a new blist covers its blocks, and for at most 2^29 of them it is an `int`. -/
theorem createRadix_spec (blocks rounds : ℕ) (hrounds : blocks ≤ k + rounds) :
    ∃ K, createRadix blocks rounds (radixAt k) (spanAt k - 1) = (radixAt K, spanAt K - 1) ∧
      blocks ≤ radixAt K ∧ (k ≤ 6 → blocks ≤ 2 ^ 29 → K ≤ 6) := by
  induction rounds generalizing k with
  | zero =>
    refine ⟨k, rfl, ?_, fun h _ => h⟩
    have hpow : k < 16 ^ k := Nat.lt_pow_self (by omega)
    have : 16 ^ k ≤ radixAt k := Nat.le_mul_of_pos_left _ (by decide)
    omega
  | succ rounds ih =>
    rw [createRadix]
    by_cases hlt : radixAt k < blocks
    · have hradix : radixAt k * blistMetaRadix = radixAt (k + 1) := by
        rw [radixAt_succ]; exact mul_comm _ _
      have hskip : (spanAt k - 1 + 1) * blistMetaRadix = spanAt (k + 1) - 1 := by
        have := spanAt_pos k
        rw [Nat.sub_add_cancel this, spanAt_succ, Nat.add_sub_cancel]; exact mul_comm _ _
      rw [if_pos hlt, hradix, hskip]
      obtain ⟨K, hK, hle, hint⟩ := ih (k := k + 1) (by omega)
      refine ⟨K, hK, hle, fun h6 hblocks => hint ?_ hblocks⟩
      by_contra hgt
      obtain rfl : k = 6 := by omega
      have h29 : radixAt 6 = 2 ^ 29 := by decide
      omega
    · rw [if_neg hlt]; exact ⟨k, rfl, by omega, fun h _ => h⟩

end Layout

end FreeBSD.SubrBlist
