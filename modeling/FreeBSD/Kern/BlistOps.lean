import FreeBSD.Kern.BlistFill

/-!
# The calls on a blist

A blist represents a set of free blocks (`Represents`); `blist_alloc`,
`blist_free` and `blist_fill` do to this set what their comments say.
-/

namespace FreeBSD.SubrBlist

open Finset

/-- The tree of a blist with `K` levels of meta nodes represents the set `F` of free blocks, and
    `bl_free` counts them. With `H` the hints are not too low. -/
structure RepAt (H : Prop) (bl : Blist) (F : Finset ℕ) (K : ℕ) : Prop where
  radix : bl.blRadix = radixAt K
  skip : bl.blSkip = spanAt K - 1
  le_radix : bl.blBlocks ≤ radixAt K
  pos : 1 ≤ bl.blBlocks
  shape : Shape bl.blBlocks bl.blRoot K 0 0
  rep : Rep H F bl.blBlocks bl.blRoot.node K 0 0
  subset : F ⊆ range bl.blBlocks
  free : bl.blFree = F.card

/-- A blist represents a set of free blocks. -/
def Represents (H : Prop) (bl : Blist) (F : Finset ℕ) : Prop := ∃ K, RepAt H bl F K

section

variable {H : Prop} {bl : Blist} {F : Finset ℕ}

theorem Represents.subset (h : Represents H bl F) : F ⊆ range bl.blBlocks := by
  obtain ⟨K, h⟩ := h
  exact h.subset

theorem Represents.free (h : Represents H bl F) : bl.blFree = F.card := by
  obtain ⟨K, h⟩ := h
  exact h.free

theorem radixAt_injective {k l : ℕ} (h : radixAt k = radixAt l) : k = l := by
  unfold radixAt at h
  have hpow := Nat.eq_of_mul_eq_mul_left (by decide : 0 < blistBmapRadix) h
  exact Nat.pow_right_injective (by decide : 2 ≤ blistMetaRadix) hpow

/-- A blist represents one set. -/
theorem Represents.unique {H' : Prop} {G : Finset ℕ} (h : Represents H bl F)
    (h' : Represents H' bl G) : G = F := by
  obtain ⟨K, h⟩ := h
  obtain ⟨K', h'⟩ := h'
  obtain rfl := radixAt_injective (h'.radix.symm.trans h.radix)
  have hu := h.rep.unique h'.rep h.subset h'.subset
  have hle := h.le_radix
  ext y
  by_cases hy : y < radixAt K'
  · exact hu y (Nat.zero_le _) (by omega)
  · have hout : ∀ S ⊆ range bl.blBlocks, y ∉ S := by
      intro S hS hyS
      have := mem_range.1 (hS hyS); omega
    exact iff_of_false (hout G h'.subset) (hout F h.subset)

/-! ## Creation -/

theorem blistCreate_spec (H : Prop) {blocks : ℕ} (hpos : 1 ≤ blocks) (junk : ℕ → Blmeta) :
    ∃ bl, blistCreate blocks junk = .ok bl ∧ bl.blBlocks = blocks ∧ Represents H bl ∅ := by
  obtain ⟨K, hK, hle, -⟩ := createRadix_spec (k := 0) blocks blocks (by omega)
  have hspan := le_spanAt K
  have hblocks : blocksAt blocks K 0 = blocks := by unfold blocksAt; omega
  unfold blistCreate
  change createRadix blocks blocks blistBmapRadix 0 = _ at hK
  rw [hK]
  dsimp only
  rw [radixInit_none (by omega), ok_bind]
  obtain ⟨m, hm, hlaid⟩ := radixInit_some (N := blocks) (k := K) (p := 0) (b := 0)
    (m := { rootblks := 1 + memAt K blocks, node := junk }) (spanAt K - 1 + 1) (by omega)
    (by rw [hblocks]; show 0 + memAt K blocks < 1 + memAt K blocks; omega)
  rw [hblocks] at hm
  dsimp only
  rw [hm, ok_bind]
  have hnode := hlaid.node
  refine ⟨_, rfl, rfl, K, rfl, rfl, hle, hpos, hlaid.shape, rep_empty ?_ ?_ ?_, empty_subset _, rfl⟩
  · exact cnt_eq_zero.2 fun y _ _ => notMem_empty y
  · rw [hnode]; rfl
  · rw [hnode]; exact le_rfl

/-! ## Allocation -/

theorem cnt_root {N K : ℕ} {S : Finset ℕ} (hS : S ⊆ range N) (hle : N ≤ radixAt K) :
    cnt S 0 (radixAt K) = S.card := by
  unfold cnt
  rw [inter_eq_left.2]
  intro y hy
  have := mem_range.1 (hS hy)
  exact mem_Ico.2 ⟨Nat.zero_le _, by omega⟩

theorem allocCall_spec {K c : ℕ} (h : RepAt H bl F K) (hc1 : 1 ≤ c) (hc2 : c ≤ 32) :
    ∃ m r, (if bl.blRadix = blistBmapRadix then blstLeafAlloc bl.blRoot 0 0 c
        else blstMetaAlloc bl.blSkip bl.blRoot 0 0 c bl.blRadix bl.blSkip) = .ok (m, r) ∧
      AllocOk H F bl.blBlocks c K 0 0 bl.blRoot m r := by
  rw [h.radix, h.skip]
  have hs := h.shape
  have hr := h.rep
  cases K with
  | zero =>
    rw [if_pos (radixAt_eq_bmap.2 rfl)]
    exact blstLeafAlloc_spec hs.place.1 hs.place.2 (dvd_zero _) hr hc1 hc2
  | succ K =>
    rw [if_neg (mt radixAt_eq_bmap.1 (by omega)), spanAt_succ, Nat.add_sub_cancel]
    have := le_spanAt K
    exact blstMetaAlloc_spec h.subset hc1 hc2 (by omega) (dvd_zero _) h.pos hs hr

/-- A run of `c` free blocks in one leaf. -/
def LeafRun (F : Finset ℕ) (x c : ℕ) : Prop :=
  x % 32 + c ≤ 32 ∧ ∀ y, x ≤ y → y < x + c → y ∈ F

theorem LeafRun.subset {x c : ℕ} (h : LeafRun F x c) : Ico x (x + c) ⊆ F := by
  intro y hy
  obtain ⟨h1, h2⟩ := mem_Ico.1 hy
  exact h.2 y h1 h2

/-- `blist_alloc` takes a run out of the set, or leaves the set as it is; with hints that are not
    too low it fails only where there is no run. -/
theorem blistAlloc_spec {c : ℕ} (h : Represents H bl F) (hc1 : 1 ≤ c) (hc2 : c ≤ 32) :
    ∃ bl' r, blistAlloc bl c = .ok (bl', r) ∧ bl'.blBlocks = bl.blBlocks ∧
      (r = none → Represents H bl' F ∧ (H → ∀ x, ¬ LeafRun F x c)) ∧
      ∀ x, r = some x → LeafRun F x c ∧ Represents H bl' (F \ Ico x (x + c)) := by
  obtain ⟨K, h⟩ := h
  obtain ⟨m, r, hcall, hok⟩ := allocCall_spec h hc1 hc2
  have hs := h.shape.kept hok.kept
  have hle := h.le_radix
  unfold blistAlloc
  dsimp only
  rw [hcall, ok_bind]
  dsimp only
  cases r with
  | none =>
    obtain ⟨hrep, hno⟩ := hok.fail rfl
    refine ⟨_, none, rfl, rfl, fun _ => ⟨⟨K, h.radix, h.skip, hle, h.pos, hs, hrep, h.subset,
      h.free⟩, fun hH x hrun => ?_⟩, fun x hx => (by cases hx)⟩
    refine hno hH x ⟨Nat.zero_le _, ?_, hrun.1, hrun.2⟩
    have := mem_range.1 (h.subset (hrun.2 (x + c - 1) (by omega) (by omega))); omega
  | some x =>
    obtain ⟨hrun, hrep⟩ := hok.take x rfl
    have hsub : F \ Ico x (x + c) ⊆ range bl.blBlocks := sdiff_subset.trans h.subset
    have hrun' : LeafRun F x c := ⟨hrun.2.2.1, hrun.2.2.2⟩
    refine ⟨_, some x, rfl, rfl, fun hx => (by cases hx), fun y hy => ?_⟩
    obtain rfl := Option.some.inj hy
    refine ⟨hrun', K, h.radix, h.skip, hle, h.pos, hs, hrep, hsub, ?_⟩
    have hcard := hrun.cnt_sdiff
    rw [cnt_root hsub hle, cnt_root h.subset hle] at hcard
    show bl.blFree - (c : ℤ) = _
    rw [h.free]; omega

/-! ## Freeing -/

theorem rangeOn_Ico {x c r : ℕ} (h : x + c ≤ r) : RangeOn (Ico x (x + c)) 0 r x c :=
  ⟨Nat.zero_le _, by omega, fun y _ _ => mem_Ico⟩

/-- The condition under which freeing `c` blocks from `x` on leaves no hint too low. -/
def KeepsHints (bl : Blist) (F : Finset ℕ) (x c : ℕ) : Prop :=
  ∀ K, bl.blRadix = radixAt K →
    RaisesHints F (Ico x (x + c)) bl.blBlocks bl.blRoot.node K 0 0

/-- `blist_free` adds a range of allocated blocks to the set. -/
theorem blistFree_spec {x c : ℕ} (h : Represents H bl F) (hc : 1 ≤ c) (hend : x + c ≤ bl.blBlocks)
    (hd : Disjoint (Ico x (x + c)) F) (hraise : H → KeepsHints bl F x c) :
    ∃ bl', blistFree bl x c = .ok bl' ∧ bl'.blBlocks = bl.blBlocks ∧
      Represents H bl' (F ∪ Ico x (x + c)) := by
  obtain ⟨K, h⟩ := h
  have hle := h.le_radix
  have hrange : RangeOn (Ico x (x + c)) 0 (radixAt K) x c := rangeOn_Ico (by omega)
  have hd' : ∀ y, 0 ≤ y → y < 0 + radixAt K → y ∈ Ico x (x + c) → y ∉ F :=
    fun y _ _ hy => disjoint_left.1 hd hy
  obtain ⟨m, hcall, hkept, hrep⟩ : ∃ m, (if bl.blRadix = blistBmapRadix then
      blstLeafFree bl.blRoot 0 x c
      else blstMetaFree bl.blSkip bl.blRoot 0 x c bl.blRadix bl.blSkip 0) = .ok m ∧
      Kept bl.blRoot m 0 (spanAt K) ∧
      Rep H (F ∪ Ico x (x + c)) bl.blBlocks m.node K 0 0 := by
    have hs := h.shape
    have hr := h.rep
    have hraise' := fun hH => hraise hH K h.radix
    rw [h.radix, h.skip]
    cases K with
    | zero =>
      rw [if_pos (radixAt_eq_bmap.2 rfl)]
      exact blstLeafFree_spec hs.place.1 hs.place.2 (dvd_zero _) hr hrange hc hd'
    | succ K =>
      rw [if_neg (mt radixAt_eq_bmap.1 (by omega)), spanAt_succ, Nat.add_sub_cancel]
      have := le_spanAt K
      exact blstMetaFree_spec h.subset (by omega) (dvd_zero _) h.pos hs hr hc hend hrange hd'
        hraise'
  unfold blistFree
  dsimp only
  rw [hcall, ok_bind]
  have hsub : F ∪ Ico x (x + c) ⊆ range bl.blBlocks := by
    refine union_subset h.subset fun y hy => mem_range.2 ?_
    have := (mem_Ico.1 hy).2; omega
  refine ⟨_, rfl, rfl, K, h.radix, h.skip, hle, h.pos, h.shape.kept hkept, hrep, hsub, ?_⟩
  show bl.blFree + (c : ℤ) = _
  rw [card_union_of_disjoint hd.symm, Nat.card_Ico, h.free]; omega

/-! ## Filling -/

/-- The condition under which `blist_fill` of `c` blocks from `x` on does not panic. -/
def FillReturns (bl : Blist) (F : Finset ℕ) (x c : ℕ) : Prop :=
  ∀ K, bl.blRadix = radixAt K → FillFits F (Ico x (x + c)) bl.blBlocks K 0

/-- `blist_fill` takes a range out of the set and counts what was free, or panics. -/
theorem blistFill_spec {x c : ℕ} (h : Represents H bl F) (hc : 1 ≤ c)
    (hend : x + c ≤ bl.blBlocks) :
    (FillReturns bl F x c ∧ ∃ bl', blistFill bl x c = .ok (bl', ((F ∩ Ico x (x + c)).card : ℤ)) ∧
        bl'.blBlocks = bl.blBlocks ∧ Represents H bl' (F \ Ico x (x + c))) ∨
      ¬ FillReturns bl F x c ∧ blistFill bl x c = .error .panic := by
  obtain ⟨K, h⟩ := h
  have hle := h.le_radix
  have hrange : RangeOn (Ico x (x + c)) 0 (radixAt K) x c := rangeOn_Ico (by omega)
  have hreturns : FillReturns bl F x c ↔ FillFits F (Ico x (x + c)) bl.blBlocks K 0 := by
    constructor
    · exact fun hret => hret K h.radix
    · intro hfits K' hK'
      obtain rfl := radixAt_injective (h.radix.symm.trans hK')
      exact hfits
  have hcall : FillOk H F (Ico x (x + c)) bl.blBlocks K 0 0 x c bl.blRoot
      (if bl.blRadix = blistBmapRadix then blstLeafFill bl.blRoot 0 x c
      else blstMetaFill bl.blSkip bl.blRoot 0 x c bl.blRadix bl.blSkip 0) := by
    have hs := h.shape
    have hr := h.rep
    rw [h.radix, h.skip]
    cases K with
    | zero =>
      rw [if_pos (radixAt_eq_bmap.2 rfl)]
      exact blstLeafFill_spec hs.place.1 hs.place.2 (dvd_zero _) hr hrange hc
    | succ K =>
      rw [if_neg (mt radixAt_eq_bmap.1 (by omega)), spanAt_succ, Nat.add_sub_cancel]
      have := le_spanAt K
      exact blstMetaFill_spec (by omega) (dvd_zero _) h.pos hs hr hc hend hrange
  have hcnt : cnt F x c = (F ∩ Ico x (x + c)).card := rfl
  rw [hreturns]
  unfold blistFill
  dsimp only
  rcases hcall with ⟨hfits, m, hcall, hkept, hrep⟩ | ⟨hfits, hcall⟩
  · refine .inl ⟨hfits, ?_⟩
    rw [hcall, ok_bind]
    dsimp only
    rw [hcnt]
    refine ⟨_, rfl, rfl, K, h.radix, h.skip, hle, h.pos, h.shape.kept hkept, hrep,
      sdiff_subset.trans h.subset, ?_⟩
    show bl.blFree - ((F ∩ Ico x (x + c)).card : ℤ) = _
    have := card_sdiff_add_card_inter F (Ico x (x + c))
    rw [h.free]; omega
  · refine .inr ⟨hfits, ?_⟩
    rw [hcall]; rfl

end

end FreeBSD.SubrBlist
