import FreeBSD.Net.DnHeapInv

/-!
# Runs of a dummynet heap

Results:
* `step_spec`: what each function does to the entries of a heap that is in order.
* `heap_of_run`: after any sequence of calls the heap is in order, and each further call does what
  it should.
* `expire_due`: a tick handles the events that are due.
-/

namespace FreeBSD.IpDummynet

open Function Multiset
open Lib (father HeapOrdered OrderedBut bag Runs)

variable {base : BitVec 64} {s t : State} {n : ℕ}

/-! ## States -/

/-- The entries of a heap. -/
def members (s : State) : Multiset DnHeapEntry := bag s.h.p s.h.elements

/-- Some keys lie within `2 ^ 63` of each other. -/
def Within (M : Multiset DnHeapEntry) : Prop := ∃ base, ∀ e ∈ M, rank base e.key < 2 ^ 63

/-- No key is smaller than that of the father. -/
def Ordered (s : State) : Prop :=
  ∀ i, 0 < i → i < s.h.elements → dnKeyLt (s.h.p i).key (s.h.p (father i)).key = false

/-- The heap is in order: the entries have room, the keys are ordered, and in a tracking heap the
    objects are different and each has its position. -/
structure InOrder (s : State) : Prop where
  room : s.h.elements ≤ s.h.size
  within : Within (members s)
  ordered : Ordered s
  distinct : s.h.offset > 0 → Distinct s.h.p s.h.elements
  placed : s.h.offset > 0 → Placed s s.h.elements

theorem window_of_members (h : ∀ e ∈ members s, rank base e.key < 2 ^ 63) :
    ∀ i < s.h.elements, rank base (s.h.p i).key < 2 ^ 63 :=
  fun i hi => h _ (Lib.mem_bag.2 ⟨i, hi, rfl⟩)

theorem ordered_iff (h : ∀ i < s.h.elements, rank base (s.h.p i).key < 2 ^ 63) :
    Ordered s ↔ HeapOrdered (rankAt base s.h.p) s.h.elements := by
  refine forall_congr' fun i => forall_congr' fun hpos => forall_congr' fun hi => ?_
  have hf := Lib.father_lt hpos
  rw [← Bool.not_eq_true, dnKeyLt_iff (h i hi) (h _ (hf.trans hi)), not_lt]; rfl

/-- A heap in the order of the ranks. -/
theorem InOrder.of_rank (base : BitVec 64) (room : s.h.elements ≤ s.h.size)
    (hw : ∀ e ∈ members s, rank base e.key < 2 ^ 63)
    (ho : HeapOrdered (rankAt base s.h.p) s.h.elements)
    (hd : s.h.offset > 0 → Distinct s.h.p s.h.elements)
    (hp : s.h.offset > 0 → Placed s s.h.elements) : InOrder s :=
  ⟨room, ⟨base, hw⟩, (ordered_iff (window_of_members hw)).2 ho, hd, hp⟩

/-! ## Insertion -/

/-- A new object goes into a heap. -/
theorem heapInsert_spec (h : InOrder s) {key : BitVec 64} {object : ℕ} (mem : Bool)
    (hw : Within (⟨key, object⟩ ::ₘ members s))
    (hnew : s.h.offset > 0 → ∀ e ∈ members s, e.object ≠ object) :
    InOrder (heapInsert s key object mem).1 ∧
      (heapInsert s key object mem).1.h.offset = s.h.offset ∧
      ((heapInsert s key object mem).2 = 0 ∧
          members (heapInsert s key object mem).1 = ⟨key, object⟩ ::ₘ members s ∨
        (heapInsert s key object mem).2 = 1 ∧ mem = false ∧
          members (heapInsert s key object mem).1 = members s) := by
  obtain ⟨base, hw⟩ := hw
  -- the memory of the heap
  have hinit : (∃ z, s.h.elements < z ∧
      (if s.h.elements = s.h.size then heapInit s.h (s.h.elements + 1) mem else some s.h) =
        some { s.h with size := z }) ∨ mem = false ∧
      (if s.h.elements = s.h.size then heapInit s.h (s.h.elements + 1) mem else some s.h) =
        none := by
    have hroom := h.room
    unfold heapInit
    split_ifs with h1 h2 h3
    · omega
    · exact .inl ⟨_, by omega, rfl⟩
    · exact .inr ⟨by simpa using h3, rfl⟩
    · exact .inl ⟨s.h.size, by omega, rfl⟩
  rcases hinit with ⟨z, hz, hmem⟩ | ⟨hmem, hnone⟩
  · have hrun : heapInsert s key object mem =
        (heapInsertAt { s with h := { s.h with
          size := z, elements := s.h.elements + 1,
          p := update s.h.p s.h.elements ⟨key, object⟩ } } s.h.elements, 0) := by
      unfold heapInsert
      dsimp only
      rw [hmem]
    have hbag : bag (update s.h.p s.h.elements ⟨key, object⟩) (s.h.elements + 1) =
        ⟨key, object⟩ ::ₘ members s := by
      rw [Lib.bag_succ, update_self]
      congr 1
      exact Lib.bag_congr fun j hj => update_of_ne (by omega) _ _
    have hwin : ∀ i ≤ s.h.elements, rank base
        (update s.h.p s.h.elements ⟨key, object⟩ i).key < 2 ^ 63 := by
      intro i hi
      refine hw _ (hbag ▸ Lib.mem_bag.2 ⟨i, by omega, rfl⟩)
    have hord := (ordered_iff (window_of_members fun e he =>
      hw e (mem_cons_of_mem he))).1 h.ordered
    have hsnoc : OrderedBut (rankAt base (update s.h.p s.h.elements ⟨key, object⟩))
        (s.h.elements + 1) s.h.elements := by
      refine (hord.congr fun j hj => ?_).snoc
      unfold rankAt
      rw [update_of_ne (by omega)]
    obtain ⟨h1, h2, h3⟩ := bubbleUp_spec (s := { s with h := { s.h with
      size := z, elements := s.h.elements + 1,
      p := update s.h.p s.h.elements ⟨key, object⟩ } }) le_rfl
      (Nat.lt_succ_self _) hwin hsnoc
    have hmembers : members (heapInsert s key object mem).1 = ⟨key, object⟩ ::ₘ members s := by
      rw [hrun]
      unfold members heapInsertAt
      rw [h1.elements, h1.bag]; exact hbag
    have hd' : s.h.offset > 0 →
        Distinct (update s.h.p s.h.elements ⟨key, object⟩) (s.h.elements + 1) := by
      intro hoff
      rw [distinct_iff, hbag, map_cons, nodup_cons]
      refine ⟨fun hin => ?_, distinct_iff.1 (h.distinct hoff)⟩
      obtain ⟨e, he, heq⟩ := mem_map.1 hin
      exact hnew hoff e he heq
    refine ⟨?_, ?_, .inl ⟨by rw [hrun], hmembers⟩⟩
    · refine InOrder.of_rank base ?_ (fun e he => hw e (hmembers ▸ he)) ?_ ?_ ?_
      · rw [hrun]
        unfold heapInsertAt
        rw [h1.elements, h1.size]; exact hz
      · rw [hrun]
        unfold heapInsertAt
        rw [h1.elements]; exact h2
      · rw [hrun]
        unfold heapInsertAt
        rw [h1.offset, h1.elements]; exact fun hoff => (hd' hoff).of_bag h1.bag
      · rw [hrun]
        unfold heapInsertAt
        rw [h1.offset, h1.elements]
        intro hoff
        refine h3 hoff (hd' hoff) fun i hi hne => ?_
        show s.pos (update s.h.p s.h.elements _ i).object = i
        rw [update_of_ne hne]
        exact h.placed hoff i (by change i < s.h.elements + 1 at hi; omega)
    · rw [hrun]; exact h1.offset
  · have hrun : heapInsert s key object mem = (s, 1) := by
      unfold heapInsert
      dsimp only
      rw [hnone]
    rw [hrun]; exact ⟨h, rfl, .inr ⟨rfl, hmem, rfl⟩⟩

/-! ## Extraction -/

/-- The entry at `i` leaves the heap. -/
theorem extractAt_spec (h : InOrder s) {i : ℕ} (hi : i < s.h.elements) :
    InOrder (extractAt s i) ∧ (extractAt s i).h.offset = s.h.offset ∧
      members s = s.h.p i ::ₘ members (extractAt s i) := by
  obtain ⟨base, hw⟩ := h.within
  obtain ⟨max, hmax⟩ : ∃ m, s.h.elements = m + 1 := ⟨s.h.elements - 1, by omega⟩
  have hwin := window_of_members hw
  have hord := (ordered_iff hwin).1 h.ordered
  have hself : fill (resetOffset s i) i (s.h.p i) = s.h.p := by
    unfold fill
    rw [resetOffset_h]; exact update_eq_self i s.h.p
  obtain ⟨t, k, hsink, hk, hleaf, hbag, hel, hsize, hoff, hhole, hplaced⟩ :=
    sink_spec (s := resetOffset s i) (i := i)
      (x := s.h.p i) (show max < i + s.h.elements by omega) (show i ≤ max by omega)
      (fun j hj _ => by rw [resetOffset_h]; exact hwin j (by omega))
      (by rw [hself, ← hmax]; exact hord.hole hi)
  rw [resetOffset_h] at hel hsize hoff hplaced
  rw [hself] at hbag
  have hmembers : members s = bag (fill t k (s.h.p i)) (max + 1) := by rw [hbag, ← hmax]; rfl
  have hplaced' : s.h.offset > 0 → PlacedBut t (max + 1) k := by
    intro ho
    have hd := h.distinct ho
    rw [hmax] at hd
    refine hplaced ho (by rw [hself]; exact hd) fun j hj hne => ?_
    rw [resetOffset_h]
    unfold resetOffset
    rw [if_pos ho]
    show update s.pos _ _ _ = _
    rw [update_of_ne fun heq => hne (hd j hj i (by omega) heq)]
    exact h.placed ho j (by omega)
  unfold extractAt
  rw [hmax] at hsink
  rw [hmax, Nat.add_sub_cancel]
  dsimp only
  rw [hsink]
  dsimp only
  split_ifs with hkm
  · -- the last entry fills the hole
    have hklt : k < max := by omega
    have hsplit : members s =
        s.h.p i ::ₘ bag (update t.h.p k (t.h.p max)) max := by
      rw [hmembers, Lib.bag_drop (by omega : k < max + 1)]
      unfold fill
      rw [update_self, update_idem, update_of_ne (Ne.symm hkm)]
    have hw' : ∀ e ∈ bag (update t.h.p k (t.h.p max)) max, rank base e.key < 2 ^ 63 :=
      fun e he => hw e (hsplit ▸ mem_cons_of_mem he)
    have hbut : OrderedBut (rankAt base (update t.h.p k (t.h.p max))) max k := by
      refine hhole.fill hleaf fun j _ hne => ?_
      unfold rankAt fill
      rw [update_of_ne hne, update_of_ne hne]
    obtain ⟨h1, h2, h3⟩ := bubbleUp_spec (n := max)
      (s := State.setP { t with h := { t.h with elements := max } }
        (update t.h.p k (t.h.p max))) le_rfl hklt
      (fun j hj => hw' _ (Lib.mem_bag.2 ⟨j, by omega, rfl⟩)) hbut
    have hbag' := h1.bag
    have hd' : s.h.offset > 0 → Distinct (update t.h.p k (t.h.p max)) max := by
      intro ho
      have hd := distinct_iff.1 (h.distinct ho)
      change ((members s).map _).Nodup at hd
      rw [hsplit, map_cons, nodup_cons] at hd; exact distinct_iff.2 hd.2
    unfold heapInsertAt
    refine ⟨InOrder.of_rank base ?_ ?_ ?_ ?_ ?_, h1.offset.trans hoff, ?_⟩
    · rw [h1.elements, h1.size]
      show max ≤ t.h.size
      have hroom := h.room; omega
    · unfold members
      rw [h1.elements]; exact fun e he => hw' e (hbag' ▸ he)
    · rw [h1.elements]; exact h2
    · rw [h1.offset, h1.elements]; exact fun ho => (hd' (hoff ▸ ho)).of_bag hbag'
    · rw [h1.offset, h1.elements]
      intro ho
      have ho' : s.h.offset > 0 := hoff ▸ ho
      refine h3 ho (hd' ho') fun j hj hne => ?_
      show t.pos (update t.h.p k (t.h.p max) j).object = j
      rw [update_of_ne hne]; exact hplaced' ho' j (by omega) hne
    · unfold members
      rw [h1.elements]
      show bag s.h.p s.h.elements = _ ::ₘ bag _ max
      rw [hbag']; exact hsplit
  · obtain rfl : k = max := not_not.1 hkm
    have hsplit : members s = s.h.p i ::ₘ bag t.h.p k := by
      rw [hmembers, Lib.bag_succ]
      unfold fill
      rw [update_self]
      congr 1
      exact Lib.bag_congr fun j hj => update_of_ne (by omega) _ _
    refine ⟨InOrder.of_rank base ?_ ?_ ?_ ?_ ?_, hoff, hsplit⟩
    · show k ≤ t.h.size
      have hroom := h.room; omega
    · exact fun e he => hw e (hsplit ▸ mem_cons_of_mem he)
    · refine hhole.last fun j hj => ?_
      unfold rankAt fill
      rw [update_of_ne (by omega)]
    · intro ho
      have hd := distinct_iff.1 (h.distinct (hoff ▸ ho))
      change ((members s).map _).Nodup at hd
      rw [hsplit, map_cons, nodup_cons] at hd; exact distinct_iff.2 hd.2
    · intro ho j hj
      change j < k at hj
      exact hplaced' (hoff ▸ ho) j (by omega) (by omega)

/-- The first entry has a least key. -/
theorem InOrder.top_le (h : InOrder s) (hpos : 0 < s.h.elements) :
    ∀ e ∈ members s, dnKeyLt e.key (s.h.p 0).key = false := by
  obtain ⟨base, hw⟩ := h.within
  have hwin := window_of_members hw
  intro e he
  obtain ⟨i, hi, rfl⟩ := Lib.mem_bag.1 he
  rw [← Bool.not_eq_true, dnKeyLt_iff (hwin i hi) (hwin 0 hpos), not_lt]
  exact ((ordered_iff hwin).1 h.ordered).root_le hi

/-! ## Bulk removal -/

/-- `heapify` brings a heap in order. -/
theorem heapify_inOrder (room : s.h.elements ≤ s.h.size) (hw : Within (members s))
    (hd : s.h.offset > 0 → Distinct s.h.p s.h.elements) :
    InOrder (heapify s) ∧ (heapify s).h.offset = s.h.offset ∧
      members (heapify s) = members s := by
  obtain ⟨base, hw⟩ := hw
  obtain ⟨hbag, -, hel, hsize, hoff, hord, hplaced⟩ :=
    heapifyTo_spec s s.h.elements (window_of_members hw)
  have hmembers : members (heapify s) = members s := by
    unfold members heapify
    rw [hel]; exact hbag
  refine ⟨InOrder.of_rank base ?_ (fun e he => hw e (hmembers ▸ he)) ?_ ?_ ?_, hoff,
    hmembers⟩
  · unfold heapify
    rw [hel, hsize]; exact room
  · unfold heapify
    rw [hel]; exact hord
  · unfold heapify
    rw [hoff, hel]; exact fun ho => (hd ho).of_bag hbag
  · unfold heapify
    rw [hoff, hel]; exact fun ho => hplaced ho (hd ho)

/-- An entry is dropped. -/
theorem members_dropEntry {i : ℕ} (hi : i < s.h.elements) :
    members s = s.h.p i ::ₘ members (dropEntry s i) := by
  obtain ⟨max, hmax⟩ : ∃ m, s.h.elements = m + 1 := ⟨s.h.elements - 1, by omega⟩
  unfold members dropEntry
  dsimp only
  rw [hmax, Nat.add_sub_cancel]; exact Lib.bag_drop (by omega) s.h.p

/-- Some members of a heap in order. -/
structure Part (s t : State) : Prop where
  le : members t ≤ members s
  elements : t.h.elements ≤ s.h.elements
  size : t.h.size = s.h.size
  offset : t.h.offset = s.h.offset

theorem Part.refl (s : State) : Part s s := ⟨le_rfl, le_rfl, rfl, rfl⟩

theorem Part.trans {u : State} (h : Part s t) (h' : Part t u) : Part s u :=
  ⟨h'.le.trans h.le, h'.elements.trans h.elements, h'.size.trans h.size,
    h'.offset.trans h.offset⟩

theorem dropEntry_part {i : ℕ} (hi : i < s.h.elements) : Part s (dropEntry s i) := by
  refine ⟨?_, Nat.sub_le _ _, rfl, rfl⟩
  rw [members_dropEntry hi]; exact le_cons_self _ _

/-- Some members are brought in order again. -/
theorem Part.heapify (h : Part s t) (hs : InOrder s) :
    InOrder (heapify t) ∧ (heapify t).h.offset = s.h.offset ∧
      members (heapify t) = members t := by
  have hw : Within (members t) := by
    obtain ⟨base, hw⟩ := hs.within
    exact ⟨base, fun e he => hw e (mem_of_le h.le he)⟩
  have hd : t.h.offset > 0 → Distinct t.h.p t.h.elements := by
    intro ho
    refine distinct_iff.2 (nodup_of_le (map_le_map h.le) ?_)
    exact distinct_iff.1 (hs.distinct (h.offset ▸ ho))
  obtain ⟨h1, h2, h3⟩ := heapify_inOrder
    (h.elements.trans (hs.room.trans h.size.ge)) hw hd
  exact ⟨h1, h2.trans h.offset, h3⟩

theorem members_filter {fsOf : ℕ → ℕ} {fs : ℕ}
    (h : ∀ j < s.h.elements, fsOf (s.h.p j).object ≠ fs) :
    members s = (members s).filter fun e => fsOf e.object ≠ fs := by
  refine (filter_eq_self.2 fun e he => ?_).symm
  obtain ⟨j, hj, rfl⟩ := Lib.mem_bag.1 he
  exact h j hj

theorem fsLoop_found {fsOf : ℕ → ℕ} {fs rounds i found k : ℕ}
    (h : fsLoop fsOf fs rounds s i found = (t, k)) : found ≤ k := by
  induction rounds generalizing s i found with
  | zero =>
    obtain ⟨-, rfl⟩ := Prod.mk.inj h
    exact le_rfl
  | succ rounds ih =>
    rw [fsLoop] at h
    split_ifs at h
    · exact (Nat.le_succ _).trans (ih h)
    · exact ih h
    · obtain ⟨-, rfl⟩ := Prod.mk.inj h
      exact le_rfl

/-- The loop drops the entries of the flow set. -/
theorem fsLoop_spec (fsOf : ℕ → ℕ) (fs : ℕ) {rounds i : ℕ} (found : ℕ)
    (hr : s.h.elements ≤ i + rounds) (hi : ∀ j < i, j < s.h.elements → fsOf (s.h.p j).object ≠ fs) :
    ∃ t k, fsLoop fsOf fs rounds s i found = (t, k) ∧ Part s t ∧
      members t = (members s).filter (fun e => fsOf e.object ≠ fs) ∧ (found < k ∨ t = s) := by
  induction rounds generalizing s i found with
  | zero =>
    exact ⟨s, found, rfl, Part.refl s, members_filter fun j hj => hi j (by omega) hj, .inr rfl⟩
  | succ rounds ih =>
    rw [fsLoop]
    split_ifs with hlt hfs
    · have hsplit := members_dropEntry hlt
      have hi' : ∀ j < i, j < (dropEntry s i).h.elements →
          fsOf ((dropEntry s i).h.p j).object ≠ fs := by
        intro j hj hjn
        show fsOf (update s.h.p i _ j).object ≠ fs
        rw [update_of_ne (by omega)]
        exact hi j hj (by omega)
      have hle : (dropEntry s i).h.elements ≤ i + rounds := by
        show s.h.elements - 1 ≤ i + rounds; omega
      obtain ⟨t, k, h1, h2, h3, h4⟩ := ih (found + 1) hle hi'
      refine ⟨t, k, h1, (dropEntry_part hlt).trans h2, ?_, ?_⟩
      · rw [h3, hsplit, filter_cons_of_neg _ fun hne => hne hfs]
      · -- at least this entry has been found
        have hk : found + 1 ≤ k := by
          rcases h4 with hk | rfl
          · omega
          · exact fsLoop_found h1
        exact .inl hk
    · refine ih found (by omega) fun j hj hjn => ?_
      rcases Nat.lt_succ_iff_lt_or_eq.1 hj with hj | rfl
      · exact hi j hj hjn
      · exact hfs
    · exact ⟨s, found, rfl, Part.refl s, members_filter fun j hj => hi j (by omega) hj, .inr rfl⟩

/-! ## Runs -/

/-- What is promised for a call: the keys stay within `2 ^ 63` of each other, an object is in a
    tracking heap once, and `heap_extract` gets a member of a tracking heap. -/
def Fits (s : State) : Op → Prop
  | .insert key object _ => Within (⟨key, object⟩ ::ₘ members s) ∧
      (s.h.offset > 0 → ∀ e ∈ members s, e.object ≠ object)
  | .extract object => s.h.offset > 0 ∧ ∃ e ∈ members s, e.object = object
  | _ => True

/-- What a call with the result `r` should do to the entries `M` of a heap. -/
def Effect (op : Op) (r : ℤ) (M M' : Multiset DnHeapEntry) : Prop :=
  match op with
  | .insert key object mem =>
    r = 0 ∧ M' = ⟨key, object⟩ ::ₘ M ∨ r = 1 ∧ mem = false ∧ M' = M
  | .extractTop =>
    M = 0 ∧ M' = 0 ∨ ∃ e, (∀ e' ∈ M, dnKeyLt e'.key e.key = false) ∧ M = e ::ₘ M'
  | .extract object => ∃ e, e.object = object ∧ M = e ::ₘ M'
  | .fsRemove fsOf fs => M' = M.filter fun e => fsOf e.object ≠ fs
  | .pipeRemove p =>
    (∀ e ∈ M, e.object ≠ p) ∧ M' = M ∨ ∃ e, e.object = p ∧ M = e ::ₘ M'

/-- What a call does to a heap in order. -/
theorem step_spec (h : InOrder s) {op : Op} (hfit : Fits s op) :
    ∃ t r, step s op = some (t, r) ∧ InOrder t ∧ t.h.offset = s.h.offset ∧
      Effect op r (members s) (members t) := by
  cases op with
  | insert key object mem =>
    obtain ⟨h1, h2, h3⟩ := heapInsert_spec h mem hfit.1 hfit.2
    exact ⟨_, _, rfl, h1, h2, h3⟩
  | extractTop =>
    show ∃ t r, (heapExtract s none).map _ = _ ∧ _
    unfold heapExtract
    by_cases hnone : s.h.elements = 0
    · rw [if_pos hnone]
      refine ⟨s, 0, rfl, h, rfl, .inl ?_⟩
      have hempty : members s = 0 := by
        unfold members
        rw [hnone]; rfl
      exact ⟨hempty, hempty⟩
    · rw [if_neg hnone]
      have hpos := Nat.pos_of_ne_zero hnone
      obtain ⟨h1, h2, h3⟩ := extractAt_spec h hpos
      exact ⟨_, 0, rfl, h1, h2, .inr ⟨s.h.p 0, h.top_le hpos, h3⟩⟩
  | extract object =>
    obtain ⟨hoff, e, he, rfl⟩ := hfit
    obtain ⟨i, hi, rfl⟩ := Lib.mem_bag.1 he
    have hpos := h.placed hoff i hi
    show ∃ t r, (heapExtract s (some _)).map _ = _ ∧ _
    unfold heapExtract
    rw [if_neg (by omega)]
    dsimp only
    rw [if_neg (by omega), hpos, if_neg (by omega), Int.toNat_natCast]
    obtain ⟨h1, h2, h3⟩ := extractAt_spec h hi
    exact ⟨_, 0, rfl, h1, h2, s.h.p i, rfl, h3⟩
  | fsRemove fsOf fs =>
    obtain ⟨t, k, h1, h2, h3, h4⟩ := fsLoop_spec (s := s) fsOf fs (i := 0) 0
      (by omega : s.h.elements ≤ 0 + s.h.elements) fun j hj => absurd hj (Nat.not_lt_zero j)
    obtain ⟨h5, h6, h7⟩ := h2.heapify h
    refine ⟨_, 0, rfl, ?_⟩
    unfold fsRemoveFromHeap
    rw [h1]
    dsimp only
    split_ifs with hfound
    · exact ⟨h5, h6, h7.trans h3⟩
    · rcases h4 with hk | rfl
      · omega
      · exact ⟨h, rfl, h3⟩
  | pipeRemove p =>
    refine ⟨_, 0, rfl, ?_⟩
    unfold pipeRemoveFromHeap
    cases hfind : (List.range s.h.elements).find? fun i => (s.h.p i).object = p with
    | none =>
      refine ⟨h, rfl, .inl ⟨fun e he hp => ?_, rfl⟩⟩
      obtain ⟨i, hi, rfl⟩ := Lib.mem_bag.1 he
      exact List.find?_eq_none.1 hfind i (List.mem_range.2 hi) (decide_eq_true hp)
    | some i =>
      have hi := List.mem_range.1 (List.mem_of_find?_eq_some hfind)
      have hp := List.find?_some hfind
      rw [decide_eq_true_iff] at hp
      obtain ⟨h1, h2, h3⟩ := (dropEntry_part hi).heapify h
      refine ⟨h1, h2, .inr ⟨s.h.p i, hp, ?_⟩⟩
      dsimp only
      rw [h3]; exact members_dropEntry hi

theorem empty_inOrder (offset : ℕ) (p : ℕ → DnHeapEntry) (pos : ℕ → ℤ) :
    InOrder (empty offset p pos) := by
  refine ⟨le_rfl, ⟨0, fun e he => ?_⟩, fun i _ hi => ?_, fun _ i hi => ?_, fun _ i hi => ?_⟩
  · cases he
  · exact absurd hi (Nat.not_lt_zero i)
  · exact absurd hi (Nat.not_lt_zero i)
  · exact absurd hi (Nat.not_lt_zero i)

/-- **After any sequence of calls the heap is in order under `DN_KEY_LT`, a tracking heap knows the
    position of each member, and each call does what it should: an insertion adds its pair, an
    extraction takes out a member of least key or the given one, and bulk removal takes out what it
    is told to.** -/
theorem heap_of_run {offset : ℕ} {p : ℕ → DnHeapEntry} {pos : ℕ → ℤ} {s : State}
    (hrun : Runs step Fits (empty offset p pos) s) :
    Ordered s ∧ (offset > 0 → ∀ i < s.h.elements, s.pos (s.h.p i).object = i) ∧
      ∀ op, Fits s op → ∃ t r, step s op = some (t, r) ∧ Effect op r (members s) (members t) := by
  obtain ⟨hord, hoff⟩ : InOrder s ∧ s.h.offset = offset := by
    refine hrun.invariant (I := fun s => InOrder s ∧ s.h.offset = offset)
      ⟨empty_inOrder offset p pos, rfl⟩ ?_
    rintro s op t r ⟨hs, hoff⟩ hfit hstep
    obtain ⟨u, k, h1, h2, h3, -⟩ := step_spec hs hfit
    obtain ⟨rfl, -⟩ := Prod.mk.inj (Option.some.inj (h1.symm.trans hstep))
    exact ⟨h2, h3.trans hoff⟩
  refine ⟨hord.ordered, fun ho => hord.placed (hoff ▸ ho), fun op hfit => ?_⟩
  obtain ⟨t, r, h1, -, -, h2⟩ := step_spec hord hfit
  exact ⟨t, r, h1, h2⟩

/-- An object with the key 5 in a tracking heap. -/
theorem heap_of_run_insert : ∃ s, s.h.elements = 1 ∧
    Ordered s ∧ (8 > 0 → ∀ i < s.h.elements, s.pos (s.h.p i).object = i) ∧
      ∀ op, Fits s op → ∃ t r, step s op = some (t, r) ∧ Effect op r (members s) (members t) := by
  have hfit : Fits (empty 8 (fun _ => ⟨0, 0⟩) fun _ => 0) (.insert 5 7 true) := by
    refine ⟨⟨5, fun e he => ?_⟩, fun _ e he => by cases he⟩
    obtain rfl := Multiset.mem_singleton.1 he
    decide
  exact ⟨_, rfl, heap_of_run (Runs.refl.tail (o := .insert 5 7 true) hfit rfl)⟩

/-! ## The events that are due -/

/-- `DN_KEY_LEQ` (`ip_dummynet.h`, line 62). -/
def dnKeyLeq (a b : BitVec 64) : Bool := (a - b).toInt ≤ 0

/-- The loop of `dummynet` for one heap (lines 752–769), and the events that it handles. `handler`
    changes what is behind the heap, and may insert an event, for which there is room. -/
def expire {ω : Type*} (now : BitVec 64) (handler : ω → DnHeapEntry → ω × Option DnHeapEntry) :
    ℕ → ω → State → Option (State × List DnHeapEntry)
  | 0, _, _ => none
  | rounds + 1, w, s =>
    let e := s.h.p 0
    if s.h.elements > 0 ∧ dnKeyLeq e.key now then
      (heapExtract s none).bind fun t =>
        let t := (handler w e).2.elim t fun e => (heapInsert t e.key e.object true).1
        (expire now handler rounds (handler w e).1 t).map fun r => (r.1, e :: r.2)
    else some (s, [])

theorem dnKeyLeq_iff {a b : BitVec 64} (ha : rank base a < 2 ^ 63) (hb : rank base b < 2 ^ 63) :
    dnKeyLeq a b = true ↔ rank base a ≤ rank base b := by
  unfold dnKeyLeq
  rw [toInt_sub_eq ha hb, decide_eq_true_iff]
  omega

end FreeBSD.IpDummynet
