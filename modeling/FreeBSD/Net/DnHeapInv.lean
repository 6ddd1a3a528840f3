import FreeBSD.Net.DnHeap

/-!
# What the functions of a dummynet heap keep

Keys that lie within `2 ^ 63` from some `base` on are in the order of their distance from it
(`rank`), and there `DN_KEY_LT` is this order.
-/

namespace FreeBSD.IpDummynet

open Function BitVec
open Lib (father HeapOrdered OrderedBut HoleAt bag)

variable {base : BitVec 64} {s t : State} {p : ℕ → DnHeapEntry} {n son : ℕ}

/-! ## Keys -/

/-- The distance from `base`. -/
def rank (base key : BitVec 64) : ℕ := (key - base).toNat

def rankAt (base : BitVec 64) (p : ℕ → DnHeapEntry) (i : ℕ) : ℕ := rank base (p i).key

theorem toInt_sub_eq {a b : BitVec 64} (ha : rank base a < 2 ^ 63) (hb : rank base b < 2 ^ 63) :
    (a - b).toInt = (rank base a : ℤ) - rank base b := by
  have hsub : a - b = (a - base) - (b - base) := by
    rw [sub_eq_add_neg, sub_eq_add_neg, sub_eq_add_neg, sub_eq_add_neg]
    bv_omega
  unfold rank at ha hb ⊢
  rw [hsub]
  generalize a - base = x at ha ⊢
  generalize b - base = y at hb ⊢
  rw [toInt_eq_toNat_cond, toNat_sub]
  split_ifs <;> omega

theorem dnKeyLt_iff {a b : BitVec 64} (ha : rank base a < 2 ^ 63) (hb : rank base b < 2 ^ 63) :
    dnKeyLt a b = true ↔ rank base a < rank base b := by
  unfold dnKeyLt
  rw [toInt_sub_eq ha hb, decide_eq_true_iff]
  omega

/-! ## Positions -/

/-- The objects of the first `n` entries are different. -/
def Distinct (p : ℕ → DnHeapEntry) (n : ℕ) : Prop :=
  ∀ i < n, ∀ j < n, (p i).object = (p j).object → i = j

theorem distinct_iff : Distinct p n ↔ ((bag p n).map DnHeapEntry.object).Nodup := by
  unfold bag
  rw [Multiset.map_map, Multiset.nodup_map_iff_inj_on (Multiset.nodup_range n)]
  constructor
  · intro h i hi j hj; exact h i (Multiset.mem_range.1 hi) j (Multiset.mem_range.1 hj)
  · intro h i hi j hj; exact h i (Multiset.mem_range.2 hi) j (Multiset.mem_range.2 hj)

theorem Distinct.of_bag {q : ℕ → DnHeapEntry} (h : Distinct p n) (hb : bag q n = bag p n) :
    Distinct q n := by
  rw [distinct_iff] at h ⊢
  rw [hb]; exact h

theorem Distinct.mono {m : ℕ} (h : Distinct p n) (hm : m ≤ n) : Distinct p m :=
  fun i hi j hj => h i (by omega) j (by omega)

/-- The positions of the first `n` entries are stored, but for that of entry `k`. -/
def PlacedBut (s : State) (n k : ℕ) : Prop :=
  ∀ i < n, i ≠ k → s.pos (s.h.p i).object = i

/-- The positions of the first `n` entries are stored. -/
def Placed (s : State) (n : ℕ) : Prop := ∀ i < n, s.pos (s.h.p i).object = i

@[simp] theorem setOffset_h (s : State) (node : ℕ) : (setOffset s node).h = s.h := by
  unfold setOffset
  split_ifs <;> rfl

@[simp] theorem resetOffset_h (s : State) (node : ℕ) : (resetOffset s node).h = s.h := by
  unfold resetOffset
  split_ifs <;> rfl

theorem setOffset_pos (hoff : s.h.offset > 0) (node : ℕ) :
    (setOffset s node).pos = update s.pos (s.h.p node).object node := by
  unfold setOffset
  rw [if_pos hoff]

/-- The last position is stored. -/
theorem PlacedBut.set (h : PlacedBut s n son) (hoff : s.h.offset > 0) (hd : Distinct s.h.p n)
    (hn : son < n) : Placed (setOffset s son) n := by
  intro i hi
  rw [setOffset_h, setOffset_pos hoff]
  by_cases hne : i = son
  · subst hne
    rw [update_self]
  · rw [update_of_ne fun heq => hne (hd i hi son hn heq)]; exact h i hi hne

/-- A position is stored, and another one is open. -/
theorem PlacedBut.move {k : ℕ} (h : ∀ i < n, i ≠ k → i ≠ son → s.pos (s.h.p i).object = i)
    (hoff : s.h.offset > 0) (hd : Distinct s.h.p n) (hn : son < n) :
    PlacedBut (setOffset s son) n k := by
  intro i hi hk
  rw [setOffset_h, setOffset_pos hoff]
  by_cases hne : i = son
  · subst hne
    rw [update_self]
  · rw [update_of_ne fun heq => hne (hd i hi son hn heq)]; exact h i hi hk hne

/-! ## The way up -/

/-- `t` is `s` with its first `n` entries in another order; those behind `son` are the same. -/
structure Permuted (s t : State) (n son : ℕ) : Prop where
  above : ∀ j, son < j → t.h.p j = s.h.p j
  bag : bag t.h.p n = bag s.h.p n
  elements : t.h.elements = s.h.elements
  size : t.h.size = s.h.size
  offset : t.h.offset = s.h.offset

theorem Permuted.trans {u : State} {k : ℕ} (h : Permuted s t n son) (h' : Permuted t u n k)
    (hk : k ≤ son) : Permuted s u n son :=
  ⟨fun j hj => (h'.above j (by omega)).trans (h.above j hj), h'.bag.trans h.bag,
    h'.elements.trans h.elements, h'.size.trans h.size, h'.offset.trans h.offset⟩

theorem setOffset_permuted (s : State) (node n son : ℕ) :
    Permuted s (setOffset s node) n son := by
  constructor <;> simp

/-- An entry moves up to its place. -/
theorem bubbleUp_spec {rounds : ℕ} (hr : son ≤ rounds) (hn : son < n)
    (hw : ∀ i ≤ son, rank base (s.h.p i).key < 2 ^ 63)
    (ho : OrderedBut (rankAt base s.h.p) n son) :
    Permuted s (bubbleUp rounds s son) n son ∧
      HeapOrdered (rankAt base (bubbleUp rounds s son).h.p) n ∧
      (s.h.offset > 0 → Distinct s.h.p n → PlacedBut s n son →
        Placed (bubbleUp rounds s son) n) := by
  induction rounds generalizing s son with
  | zero =>
    obtain rfl : son = 0 := by omega
    refine ⟨setOffset_permuted s 0 n 0, ?_, fun hoff hd hp => hp.set hoff hd hn⟩
    rw [bubbleUp, setOffset_h]; exact ho.finish (.inl rfl)
  | succ rounds ih =>
    rw [bubbleUp]
    by_cases hpos : son > 0
    · have hlt := Lib.father_lt hpos
      have hcmp := dnKeyLt_iff (hw (father son) hlt.le) (hw son le_rfl)
      rw [if_pos hpos]
      by_cases hless : dnKeyLt (s.h.p (father son)).key (s.h.p son).key = true
      · rw [if_pos hless]
        refine ⟨setOffset_permuted s son n son, ?_, fun hoff hd hp => hp.set hoff hd hn⟩
        rw [setOffset_h]; exact ho.finish (.inr (hcmp.1 hless).le)
      · rw [if_neg hless]
        have hle : rankAt base s.h.p son ≤ rankAt base s.h.p (father son) :=
          not_lt.1 fun hcon => hless (hcmp.2 hcon)
        have hbag : bag (s.h.p ∘ Equiv.swap son (father son)) n = bag s.h.p n :=
          Lib.bag_swap hn (hlt.trans hn) s.h.p
        have hother : ∀ j, j ≠ son → j ≠ father son →
            (s.h.p ∘ Equiv.swap son (father son)) j = s.h.p j :=
          fun j h1 h2 => congrArg s.h.p (Equiv.swap_apply_of_ne_of_ne h1 h2)
        have hswap : Permuted s (setOffset (heapSwap s son (father son)) son) n son := by
          refine ⟨fun j hj => ?_, ?_, ?_, ?_, ?_⟩
          · rw [setOffset_h]; exact hother j (by omega) (by omega)
          · rw [setOffset_h]; exact hbag
          · rw [setOffset_h]; rfl
          · rw [setOffset_h]; rfl
          · rw [setOffset_h]; rfl
        have hw' : ∀ i ≤ father son,
            rank base ((setOffset (heapSwap s son (father son)) son).h.p i).key < 2 ^ 63 := by
          intro i hi
          rw [setOffset_h]
          show rank base ((s.h.p ∘ Equiv.swap son (father son)) i).key < 2 ^ 63
          by_cases hif : i = father son
          · rw [hif]
            show rank base (s.h.p (Equiv.swap son (father son) (father son))).key < 2 ^ 63
            rw [Equiv.swap_apply_right]; exact hw son le_rfl
          · rw [hother i (by omega) hif]
            exact hw i (by omega)
        have ho' : OrderedBut (rankAt base (setOffset (heapSwap s son (father son)) son).h.p) n
            (father son) := by
          rw [setOffset_h]; exact ho.swap hpos hn hle
        obtain ⟨h1, h2, h3⟩ := ih (by omega) (hlt.trans hn) hw' ho'
        refine ⟨hswap.trans h1 hlt.le, h2, fun hoff hd hp => ?_⟩
        have hd' : Distinct (s.h.p ∘ Equiv.swap son (father son)) n := hd.of_bag hbag
        refine h3 ?_ ?_ ?_
        · rw [setOffset_h]; exact hoff
        · rw [setOffset_h]; exact hd'
        · refine PlacedBut.move (s := heapSwap s son (father son))
            (fun i hi hf hs => ?_) hoff hd' hn
          show s.pos ((s.h.p ∘ Equiv.swap son (father son)) i).object = i
          rw [hother i hs hf]; exact hp i hi hs
    · obtain rfl : son = 0 := by omega
      rw [if_neg hpos]
      refine ⟨setOffset_permuted s 0 n 0, ?_, fun hoff hd hp => hp.set hoff hd hn⟩
      rw [setOffset_h]; exact ho.finish (.inl rfl)

/-- Any array becomes a heap. -/
theorem heapifyTo_spec (s : State) (n : ℕ) (hw : ∀ i < n, rank base (s.h.p i).key < 2 ^ 63) :
    bag (heapifyTo s n).h.p n = bag s.h.p n ∧
      (∀ j, n ≤ j → (heapifyTo s n).h.p j = s.h.p j) ∧
      (heapifyTo s n).h.elements = s.h.elements ∧ (heapifyTo s n).h.size = s.h.size ∧
      (heapifyTo s n).h.offset = s.h.offset ∧
      HeapOrdered (rankAt base (heapifyTo s n).h.p) n ∧
      (s.h.offset > 0 → Distinct s.h.p n → Placed (heapifyTo s n) n) := by
  induction n with
  | zero =>
    refine ⟨rfl, fun _ _ => rfl, rfl, rfl, rfl, fun j _ hj => ?_, fun _ _ i hi => ?_⟩
    · exact absurd hj (Nat.not_lt_zero j)
    · exact absurd hi (Nat.not_lt_zero i)
  | succ n ih =>
    obtain ⟨hbag, habove, hel, hsize, hoff, hord, hplaced⟩ := ih fun i hi => hw i (by omega)
    have hn := habove n le_rfl
    have hbag' : bag (heapifyTo s n).h.p (n + 1) = bag s.h.p (n + 1) := by
      rw [Lib.bag_succ, Lib.bag_succ, hbag, hn]
    have hw' : ∀ i ≤ n, rank base ((heapifyTo s n).h.p i).key < 2 ^ 63 := by
      intro i hi
      have hmem : (heapifyTo s n).h.p i ∈ bag s.h.p (n + 1) := by
        rw [← hbag', Lib.mem_bag]; exact ⟨i, by omega, rfl⟩
      obtain ⟨j, hj, heq⟩ := Lib.mem_bag.1 hmem
      rw [← heq]; exact hw j hj
    obtain ⟨h1, h2, h3⟩ := bubbleUp_spec le_rfl (Nat.lt_succ_self n) hw' hord.snoc
    change Permuted (heapifyTo s n) (heapifyTo s (n + 1)) (n + 1) n at h1
    refine ⟨h1.bag.trans hbag', fun j hj => ?_, h1.elements.trans hel, h1.size.trans hsize,
      h1.offset.trans hoff, h2, fun ho hd => ?_⟩
    · rw [h1.above j (by omega)]
      exact habove j (by omega)
    · refine h3 (hoff ▸ ho) (hd.of_bag hbag') fun i hi hne => ?_
      exact hplaced ho (hd.mono (Nat.le_succ n)) i (by omega)

/-! ## The way down -/

/-- The array with the entry `x` in the hole. -/
def fill (s : State) (hole : ℕ) (x : DnHeapEntry) : ℕ → DnHeapEntry :=
  Function.update s.h.p hole x

/-- The smaller son. -/
theorem smallerSon_spec {max i : ℕ} (hi : 2 * i + 1 ≤ max)
    (hw : ∀ j, i < j → j ≤ max → rank base (s.h.p j).key < 2 ^ 63) :
    i < smallerSon s (2 * i + 1) max ∧ smallerSon s (2 * i + 1) max ≤ max ∧
      father (smallerSon s (2 * i + 1) max) = i ∧
      ∀ j, 0 < j → j < max + 1 → father j = i →
        rankAt base s.h.p (smallerSon s (2 * i + 1) max) ≤ rankAt base s.h.p j := by
  unfold smallerSon
  split_ifs with hcond
  · obtain ⟨hne, hless⟩ := hcond
    have hlt := (dnKeyLt_iff (hw _ (by omega) (by omega)) (hw _ (by omega) hi)).1 hless
    refine ⟨by omega, by omega, (Lib.father_eq_iff (by omega)).2 (.inr rfl),
      fun j hj _ hf => ?_⟩
    rcases (Lib.father_eq_iff hj).1 hf with rfl | rfl
    · exact hlt.le
    · exact le_rfl
  · refine ⟨by omega, hi, (Lib.father_eq_iff (by omega)).2 (.inl rfl), fun j hj hjn hf => ?_⟩
    rcases (Lib.father_eq_iff hj).1 hf with rfl | rfl
    · exact le_rfl
    · have hne : 2 * i + 1 ≠ max := by omega
      have hcmp := dnKeyLt_iff (hw (2 * i + 1 + 1) (by omega) (by omega)) (hw _ (by omega) hi)
      exact not_lt.1 fun hcon => hcond ⟨hne, hcmp.2 hcon⟩

/-- A hole moves down to a leaf. -/
theorem sink_spec {rounds max i : ℕ} {x : DnHeapEntry} (hr : max < i + rounds) (hi : i ≤ max)
    (hw : ∀ j ≤ max, j ≠ i → rank base (s.h.p j).key < 2 ^ 63)
    (ho : HoleAt (rankAt base (fill s i x)) (max + 1) i) :
    ∃ t k, sink max rounds s i = (t, k) ∧ k ≤ max ∧ max < 2 * k + 1 ∧
      bag (fill t k x) (max + 1) = bag (fill s i x) (max + 1) ∧
      t.h.elements = s.h.elements ∧ t.h.size = s.h.size ∧ t.h.offset = s.h.offset ∧
      HoleAt (rankAt base (fill t k x)) (max + 1) k ∧
      (s.h.offset > 0 → Distinct (fill s i x) (max + 1) → PlacedBut s (max + 1) i →
        PlacedBut t (max + 1) k) := by
  induction rounds generalizing s i with
  | zero => omega
  | succ rounds ih =>
    rw [sink]
    split_ifs with hson
    · have hw' : ∀ j, i < j → j ≤ max → rank base (s.h.p j).key < 2 ^ 63 :=
        fun j hj hm => hw j hm (by omega)
      obtain ⟨hlt, hle, hf, hmin⟩ := smallerSon_spec hson hw'
      dsimp only
      generalize smallerSon s (2 * i + 1) max = child at hlt hle hf hmin ⊢
      -- the entry in the hole changes places with the son
      have hfill : fill (setOffset (s.setP (update s.h.p i (s.h.p child))) i) child x =
          fill s i x ∘ Equiv.swap i child := by
        funext j
        unfold fill
        rw [setOffset_h]
        show update (update s.h.p i (s.h.p child)) child x j =
          update s.h.p i x (Equiv.swap i child j)
        by_cases hjc : j = child
        · subst hjc
          rw [update_self, Equiv.swap_apply_right, update_self]
        · rw [update_of_ne hjc]
          by_cases hji : j = i
          · subst hji
            rw [update_self, Equiv.swap_apply_left, update_of_ne (by omega)]
          · rw [update_of_ne hji, Equiv.swap_apply_of_ne_of_ne hji hjc,
              update_of_ne hji]
      have hbag : bag (fill s i x ∘ Equiv.swap i child) (max + 1) = bag (fill s i x) (max + 1) :=
        Lib.bag_swap (by omega) (by omega) _
      have hmin' : ∀ j, 0 < j → j < max + 1 → father j = i →
          rankAt base (fill s i x) child ≤ rankAt base (fill s i x) j := by
        intro j hj hjn hfj
        have hlt' := Lib.father_lt hj
        unfold rankAt fill
        rw [update_of_ne (by omega), update_of_ne (by omega)]
        exact hmin j hj hjn hfj
      have hdown := ho.down (by omega) (by omega) hf hmin'
      have hstate : (setOffset (s.setP (update s.h.p i (s.h.p child))) i).h =
          { s.h with p := update s.h.p i (s.h.p child) } := setOffset_h _ _
      have hwin : ∀ j ≤ max, j ≠ child → rank base
          ((setOffset (s.setP (update s.h.p i (s.h.p child))) i).h.p j).key < 2 ^ 63 := by
        intro j hj hne
        rw [hstate]
        show rank base (update s.h.p i (s.h.p child) j).key < 2 ^ 63
        by_cases hji : j = i
        · subst hji
          rw [update_self]; exact hw child hle (by omega)
        · rw [update_of_ne hji]; exact hw j hj hji
      have hho : HoleAt (rankAt base
          (fill (setOffset (s.setP (update s.h.p i (s.h.p child))) i) child x))
          (max + 1) child := by
        rw [hfill]; exact hdown
      obtain ⟨t, k, h1, h2, h3, h4, h5, h6, h7, h8, h9⟩ := ih (by omega) hle hwin hho
      rw [hfill, hbag] at h4
      rw [hstate] at h5 h6 h7 h9
      refine ⟨t, k, h1, h2, h3, h4, h5, h6, h7, h8, fun hoff hd hp => h9 hoff ?_ ?_⟩
      · rw [hfill]; exact hd.of_bag hbag
      · intro j hj hne
        rw [hstate, setOffset_pos (s := s.setP (update s.h.p i (s.h.p child))) hoff]
        show update s.pos ((update s.h.p i (s.h.p child)) i).object (i : ℤ)
          (update s.h.p i (s.h.p child) j).object = j
        rw [update_self]
        by_cases hji : j = i
        · subst hji
          rw [update_self, update_self]
        · rw [update_of_ne hji, update_of_ne ?_]
          · exact hp j hj hji
          · -- the son is the only entry with its object
            intro heq
            refine hne (hd j hj child (by omega) ?_)
            unfold fill
            rw [update_of_ne hji, update_of_ne (by omega)]
            exact heq
    · exact ⟨s, i, rfl, hi, by omega, rfl, rfl, rfl, rfl, ho, fun _ _ hp => hp⟩

end FreeBSD.IpDummynet
