import FreeBSD.Vm.VmMapLinks

/-!
# Merging and clipping entries

`WF lo top m ids` collects what holds of a map between the assignments of an operation; `lo` and
`top` bound the addresses. Merging an entry with its neighbours and splitting it keep the sum of the
sizes of all ranges, `total`, and the size that the map counts: `Kept`.

Results:
* `clipStart_spec`, `clipEnd_spec`: the entry begins, or ends, at the address.
* `firstEntry_spec`: how the operations on ranges begin.
-/

namespace FreeBSD.Vm.VmMap

open Lib List Option Function

variable {m m' m₁ m₂ m₃ : VmMap} {ids ids' l₁ l₂ l₃ xs ys : List ℕ} {e a lo top : ℕ}

/-! ## Well-formed maps -/

/-- The sum of the sizes of the ranges. -/
def total (entry : ℕ → Entry) (ids : List ℕ) : ℕ :=
  (ids.map fun e => (entry e).end_ - (entry e).start).sum

/-- A map between the assignments of an operation. -/
structure WF (lo top : ℕ) (m : VmMap) (ids : List ℕ) : Prop where
  linked : Linked m ids
  ranges : Ranges lo top m.entry ids
  lo_eq : m.minOffset = lo
  top_eq : m.maxOffset = top

/-- The entry contains the address. -/
def Has (x : Entry) (a : ℕ) : Prop := x.start ≤ a ∧ a < x.end_

/-- At each address, the entries of two maps are related, and there are both or none. -/
def Tracks (R : ℕ → Entry → Entry → Prop) (m : VmMap) (ids : List ℕ) (m' : VmMap)
    (ids' : List ℕ) : Prop :=
  ∀ a, (∀ e ∈ ids, Has (m.entry e) a → ∃ e' ∈ ids', Has (m'.entry e') a ∧
      R a (m.entry e) (m'.entry e')) ∧
    ∀ e' ∈ ids', Has (m'.entry e') a → ∃ e ∈ ids, Has (m.entry e) a

/-- What an entry says of all its addresses. -/
def attrs (x : Entry) : VmProt × VmProt × VmInherit × EFlags × ℤ :=
  (x.protection, x.maxProtection, x.inheritance, x.eflags, x.wiredCount)

/-- An entry says of an address what another one said. It may have got an object. -/
structure Keeps (a : ℕ) (x y : Entry) : Prop where
  attrs : attrs y = attrs x
  object : ∀ o, x.object = some o →
    y.object = some o ∧ y.offset + (a - y.start : ℤ) = x.offset + (a - x.start : ℤ)

/-- The hint for free space is the header, or an entry below whose end there is no free space. -/
def HintOk (m : VmMap) (ids : List ℕ) : Prop :=
  m.firstFree = header ∨ (m.firstFree ∈ ids ∧
    ∀ a, m.minOffset ≤ a → a < (m.entry m.firstFree).end_ → ∃ e ∈ ids, Has (m.entry e) a)

/-- No entry is in transition. -/
def Settled (m : VmMap) (ids : List ℕ) : Prop :=
  ∀ e ∈ ids, (m.entry e).eflags.inTransition = false

/-- The size that the map counts, the sum of the sizes of its ranges and its header stay, a hint
    stays right, and no entry comes in transition. -/
structure Kept (R : ℕ → Entry → Entry → Prop) (m : VmMap) (ids : List ℕ) (m' : VmMap)
    (ids' : List ℕ) : Prop where
  size : m'.size = m.size
  total : total m'.entry ids' = total m.entry ids
  header : m'.entry header = m.entry header
  tracks : Tracks R m ids m' ids'
  hint : HintOk m ids → HintOk m' ids'
  settled : Settled m ids → Settled m' ids'

theorem Keeps.refl (a : ℕ) (x : Entry) : Keeps a x x := ⟨rfl, fun _ h => ⟨h, rfl⟩⟩

theorem Keeps.eflags {x y : Entry} (h : Keeps a x y) : y.eflags = x.eflags :=
  congrArg (fun t => t.2.2.2.1) h.attrs

theorem Keeps.trans {x y z : Entry} (h : Keeps a x y) (h' : Keeps a y z) : Keeps a x z := by
  refine ⟨h'.attrs.trans h.attrs, fun o ho => ?_⟩
  obtain ⟨hy, hoff⟩ := h.object o ho
  exact ⟨(h'.object o hy).1, (h'.object o hy).2.trans hoff⟩

/-- A search leaves the entries alone. -/
theorem Kept.looked (m : VmMap) (k : Links ℕ) (r : Option ℕ) :
    Kept Keeps m ids { m with links := k, root := r } ids :=
  ⟨rfl, rfl, rfl, fun a => ⟨fun e he ha => ⟨e, he, ha, .refl a _⟩, fun e he ha => ⟨e, he, ha⟩⟩, id,
    id⟩

theorem Kept.refl (m : VmMap) (ids : List ℕ) : Kept Keeps m ids m ids := .looked m m.links m.root

theorem Kept.trans {R S : ℕ → Entry → Entry → Prop} (h : Kept R m₁ l₁ m₂ l₂)
    (h' : Kept S m₂ l₂ m₃ l₃) :
    Kept (fun a x z => ∃ y, R a x y ∧ S a y z) m₁ l₁ m₃ l₃ := by
  refine ⟨h'.size.trans h.size, h'.total.trans h.total, h'.header.trans h.header, fun a =>
    ⟨fun e he ha => ?_, fun e he ha => ?_⟩, h'.hint ∘ h.hint, h'.settled ∘ h.settled⟩
  · obtain ⟨e', he', ha', hR⟩ := (h.tracks a).1 e he ha
    obtain ⟨e'', he'', ha'', hS⟩ := (h'.tracks a).1 e' he' ha'
    exact ⟨e'', he'', ha'', _, hR, hS⟩
  · obtain ⟨e', he', ha'⟩ := (h'.tracks a).2 e he ha
    exact (h.tracks a).2 e' he' ha'

theorem Kept.mono {R S : ℕ → Entry → Entry → Prop} (h : Kept R m ids m' ids')
    (hRS : ∀ a x y, R a x y → S a x y) : Kept S m ids m' ids' := by
  refine ⟨h.size, h.total, h.header, fun a => ⟨fun e he ha => ?_, (h.tracks a).2⟩, h.hint,
    h.settled⟩
  obtain ⟨e', he', ha', hR⟩ := (h.tracks a).1 e he ha
  exact ⟨e', he', ha', hRS a _ _ hR⟩

theorem Kept.keeps (h : Kept Keeps m₁ l₁ m₂ l₂) (h' : Kept Keeps m₂ l₂ m₃ l₃) :
    Kept Keeps m₁ l₁ m₃ l₃ :=
  (h.trans h').mono fun _ _ _ ⟨_, hx, hy⟩ => hx.trans hy

theorem total_congr {entry entry' : ℕ → Entry}
    (h : ∀ e ∈ ids, (entry' e).start = (entry e).start ∧ (entry' e).end_ = (entry e).end_) :
    total entry' ids = total entry ids := by
  unfold total
  congr 1
  refine map_congr_left fun e he => ?_
  rw [(h e he).1, (h e he).2]

theorem mem_middle {c : ℕ} : c ∈ xs ++ e :: ys ↔ c = e ∨ c ∈ xs ++ ys := by
  simp [or_left_comm]

/-- The range of an entry is cut into those of two others. -/
structure Cut (x p q : Entry) : Prop where
  start : p.start = x.start
  between : p.end_ = q.start
  end_ : q.end_ = x.end_
  le : p.start ≤ p.end_
  le' : q.start ≤ q.end_

theorem Cut.has {x p q : Entry} (h : Cut x p q) : Has x a ↔ Has p a ∨ Has q a := by
  obtain ⟨h₁, h₂, h₃, h₄, h₅⟩ := h
  unfold Has; omega

theorem Tracks.split {b c : ℕ} (h : Cut (m.entry e) (m'.entry b) (m'.entry c))
    (hk : ∀ a, Keeps a (m.entry e) (m'.entry b) ∧ Keeps a (m.entry e) (m'.entry c))
    (hsame : ∀ d ∈ xs ++ ys, m'.entry d = m.entry d) :
    Tracks Keeps m (xs ++ e :: ys) m' (xs ++ b :: c :: ys) := by
  refine fun a => ⟨fun d hd ha => ?_, fun d hd ha => ?_⟩
  · rcases mem_middle.1 hd with rfl | hd
    · rcases h.has.1 ha with ha | ha
      · exact ⟨b, by simp, ha, (hk a).1⟩
      · exact ⟨c, by simp, ha, (hk a).2⟩
    · exact ⟨d, mem_middle.2 (.inr (mem_middle.2 (.inr hd))), by rwa [hsame d hd],
        hsame d hd ▸ .refl a _⟩
  · rcases mem_middle.1 hd with rfl | hd
    · exact ⟨e, by simp, h.has.2 (.inl ha)⟩
    · rcases mem_middle.1 hd with rfl | hd
      · exact ⟨e, by simp, h.has.2 (.inr ha)⟩
      · exact ⟨d, mem_middle.2 (.inr hd), by rwa [← hsame d hd]⟩

theorem Tracks.merge {b c : ℕ} (h : Cut (m'.entry e) (m.entry b) (m.entry c))
    (hk : ∀ a, Keeps a (m.entry b) (m'.entry e) ∧ Keeps a (m.entry c) (m'.entry e))
    (hsame : ∀ d ∈ xs ++ ys, m'.entry d = m.entry d) :
    Tracks Keeps m (xs ++ b :: c :: ys) m' (xs ++ e :: ys) := by
  refine fun a => ⟨fun d hd ha => ?_, fun d hd ha => ?_⟩
  · rcases mem_middle.1 hd with rfl | hd
    · exact ⟨e, by simp, h.has.2 (.inl ha), (hk a).1⟩
    · rcases mem_middle.1 hd with rfl | hd
      · exact ⟨e, by simp, h.has.2 (.inr ha), (hk a).2⟩
      · exact ⟨d, mem_middle.2 (.inr hd), by rwa [hsame d hd], hsame d hd ▸ .refl a _⟩
  · rcases mem_middle.1 hd with rfl | hd
    · rcases h.has.1 ha with ha | ha
      · exact ⟨b, by simp, ha⟩
      · exact ⟨c, by simp, ha⟩
    · exact ⟨d, mem_middle.2 (.inr (mem_middle.2 (.inr hd))), by rwa [← hsame d hd]⟩

theorem Tracks.covers {R : ℕ → Entry → Entry → Prop} (h : Tracks R m ids m' ids') (a : ℕ) :
    ∀ e ∈ ids, Has (m.entry e) a → ∃ e' ∈ ids', Has (m'.entry e') a := by
  intro e he ha
  obtain ⟨e', he', ha', -⟩ := (h a).1 e he ha
  exact ⟨e', he', ha'⟩

/-- A hint stays right if it goes to an entry that begins where the hint ended, or in front of
    that. -/
theorem HintOk.keep
    (hcov : ∀ a, ∀ e ∈ ids, Has (m.entry e) a → ∃ e' ∈ ids', Has (m'.entry e') a)
    (hheader : m'.entry header = m.entry header) (hzero : m.firstFree = header →
      m'.firstFree = header) (hmem : m.firstFree ∈ ids → m'.firstFree ∈ ids' ∧
      (m'.entry m'.firstFree).start ≤ (m.entry m.firstFree).end_) (h : HintOk m ids) :
    HintOk m' ids' := by
  refine h.imp hzero fun ⟨hin, hall⟩ => ⟨(hmem hin).1, fun a hlo ha => ?_⟩
  have hle := (hmem hin).2
  by_cases hlt : a < (m.entry m.firstFree).end_
  · rw [minOffset, hheader] at hlo
    obtain ⟨e, he, hea⟩ := hall a hlo hlt
    exact hcov a e he hea
  · exact ⟨_, (hmem hin).1, by omega, ha⟩

/-- The entries around one entry count as before. -/
theorem total_same {entry entry' : ℕ → Entry} (h : ∀ c ∈ xs ++ ys, entry' c = entry c) :
    total entry' xs = total entry xs ∧ total entry' ys = total entry ys := by
  constructor
  · refine total_congr fun c hc => ?_
    rw [h c (mem_append_left _ hc)]; exact ⟨rfl, rfl⟩
  · refine total_congr fun c hc => ?_
    rw [h c (mem_append_right _ hc)]; exact ⟨rfl, rfl⟩

@[simp] theorem total_append (entry : ℕ → Entry) (xs ys : List ℕ) :
    total entry (xs ++ ys) = total entry xs + total entry ys := by
  simp [total]

@[simp] theorem total_cons (entry : ℕ → Entry) (e : ℕ) (ys : List ℕ) :
    total entry (e :: ys) = (entry e).end_ - (entry e).start + total entry ys := by
  simp [total]

/-- The links of a map are replaced. -/
theorem WF.relink (h : WF lo top m ids) {k : Links ℕ} {r : Option ℕ} {nx pv : ℕ → ℕ} {n : ℤ}
    (hl : Linked { m with links := k, root := r, next := nx, prev := pv, nentries := n } ids')
    (hr : Ranges lo top m.entry ids') :
    WF lo top { m with links := k, root := r, next := nx, prev := pv, nentries := n } ids' :=
  ⟨hl, hr, h.lo_eq, h.top_eq⟩

theorem WF.header_notMem (h : WF lo top m ids) : header ∉ ids :=
  (nodup_cons.1 h.linked.nodup_header).1

theorem WF.ne_header (h : WF lo top m ids) (he : e ∈ ids) : e ≠ header := by
  rintro rfl
  exact h.header_notMem he

theorem WF.nodup (h : WF lo top m ids) : ids.Nodup := (nodup_cons.1 h.linked.nodup_header).2

theorem WF.next_eq (h : WF lo top m (xs ++ e :: ys)) : m.next e = ys.headD header :=
  h.linked.ring.next_eq

theorem WF.prev_eq (h : WF lo top m (xs ++ e :: ys)) : m.prev e = xs.getLastD header :=
  h.linked.ring.prev_eq

theorem Linked.congr (h : Linked m ids) (hring : m'.next = m.next ∧ m'.prev = m.prev)
    (htree : m'.links = m.links ∧ m'.root = m.root) (hn : m'.nentries = m.nentries)
    (hfresh : m.fresh ≤ m'.fresh) : Linked m' ids := by
  obtain ⟨hring', htree', hnodup, hfresh', hn'⟩ := h
  refine ⟨?_, ?_, hnodup, fun c hc => (hfresh' c hc).trans_le hfresh, hn.trans hn'⟩
  · rwa [hring.1, hring.2]
  · rwa [htree.1, htree.2]

/-- The fields of an entry are changed, with its range between those of its neighbours. -/
theorem WF.setEntry (h : WF lo top m (xs ++ e :: ys)) {f : Entry → Entry}
    (hf : InBounds lo top (f (m.entry e)))
    (hxs : ∀ a ∈ xs, (m.entry a).end_ ≤ (f (m.entry e)).start)
    (hys : ∀ a ∈ ys, (f (m.entry e)).end_ ≤ (m.entry a).start) :
    WF lo top (m.setEntry e f) (xs ++ e :: ys) := by
  have hne : header ≠ e := (h.ne_header (by simp)).symm
  refine ⟨h.linked.congr ⟨rfl, rfl⟩ ⟨rfl, rfl⟩ rfl le_rfl,
    h.ranges.update h.nodup hf hxs hys, ?_, ?_⟩
  · show (update m.entry e _ header).start = lo
    rw [update_of_ne hne]; exact h.lo_eq
  · show (update m.entry e _ header).end_ = top
    rw [update_of_ne hne]; exact h.top_eq

@[simp] theorem setEntry_entry_self (m : VmMap) (e : ℕ) (f : Entry → Entry) :
    (m.setEntry e f).entry e = f (m.entry e) := by
  simp [VmMap.setEntry]

theorem setEntry_entry_of_ne (m : VmMap) {c : ℕ} (f : Entry → Entry) (h : c ≠ e) :
    (m.setEntry e f).entry c = m.entry c := by
  simp [VmMap.setEntry, h]

/-- The entries of a list but one, and the one. -/
theorem WF.ne_of_mem (h : WF lo top m (xs ++ e :: ys)) : ∀ c ∈ xs ++ ys, c ≠ e := by
  have hnodup := h.nodup
  simp only [nodup_append, nodup_cons, mem_cons] at hnodup
  intro c hc
  rcases mem_append.1 hc with hc | hc
  · exact hnodup.2.2 c hc e (.inl rfl)
  · rintro rfl; exact hnodup.2.1.1 hc

/-- A change that leaves the range of the entry. -/
theorem WF.setData {R : ℕ → Entry → Entry → Prop} (h : WF lo top m (xs ++ e :: ys))
    {f : Entry → Entry}
    (hstart : (f (m.entry e)).start = (m.entry e).start)
    (hend : (f (m.entry e)).end_ = (m.entry e).end_)
    (hflag : (f (m.entry e)).eflags.inTransition = (m.entry e).eflags.inTransition)
    (hself : ∀ a, Has (m.entry e) a → R a (m.entry e) (f (m.entry e)))
    (hothers : ∀ c ∈ xs ++ ys, ∀ a, Has (m.entry c) a → R a (m.entry c) (m.entry c)) :
    WF lo top (m.setEntry e f) (xs ++ e :: ys) ∧
      Kept R m (xs ++ e :: ys) (m.setEntry e f) (xs ++ e :: ys) := by
  have hb := h.ranges.bounds e (by simp)
  have hrange : ∀ c, ((m.setEntry e f).entry c).start = (m.entry c).start ∧
      ((m.setEntry e f).entry c).end_ = (m.entry c).end_ := by
    intro c
    by_cases hc : c = e
    · subst hc
      rw [setEntry_entry_self]; exact ⟨hstart, hend⟩
    · rw [setEntry_entry_of_ne _ _ hc]; exact ⟨rfl, rfl⟩
  have htracks : Tracks R m (xs ++ e :: ys) (m.setEntry e f) (xs ++ e :: ys) := by
    refine fun a => ⟨fun c hc ha => ⟨c, hc, ?_, ?_⟩, fun c hc ha => ⟨c, hc, ?_⟩⟩
    · rwa [Has, (hrange c).1, (hrange c).2]
    · rcases mem_middle.1 hc with rfl | hc
      · rw [setEntry_entry_self]; exact hself a ha
      · rw [setEntry_entry_of_ne _ _ (h.ne_of_mem c hc)]; exact hothers c hc a ha
    · rwa [Has, (hrange c).1, (hrange c).2] at ha
  have hheader := m.setEntry_entry_of_ne f (h.ne_header (show e ∈ xs ++ e :: ys by simp)).symm
  refine ⟨h.setEntry ⟨?_, ?_, ?_⟩ (fun a ha => ?_) fun a ha => ?_, rfl,
    total_congr fun c _ => hrange c, hheader, htracks,
    HintOk.keep htracks.covers hheader id fun hin => ⟨hin, ?_⟩, fun hs c hc => ?_⟩
  · rw [hstart]; exact hb.lo_le
  · rw [hstart, hend]; exact hb.lt
  · rw [hend]; exact hb.le_top
  · rw [hstart]; exact h.ranges.le_start ha
  · rw [hend]; exact h.ranges.end_le ha
  · exact (hrange _).1.le.trans (h.ranges.bounds _ hin).lt.le
  · by_cases heq : c = e
    · rw [heq, setEntry_entry_self, hflag]; exact hs e (by simp)
    · rw [setEntry_entry_of_ne _ _ heq]; exact hs c hc

/-- After a change of one entry the others count as before. -/
theorem WF.total_setEntry (h : WF lo top m (xs ++ e :: ys)) (f : Entry → Entry) :
    total (m.setEntry e f).entry (xs ++ e :: ys) =
      total m.entry xs + ((f (m.entry e)).end_ - (f (m.entry e)).start + total m.entry ys) := by
  obtain ⟨hxs, hys⟩ := total_same fun c hc => m.setEntry_entry_of_ne f (h.ne_of_mem c hc)
  rw [total_append, total_cons, setEntry_entry_self, hxs, hys]

/-- The hint for free space has no part in this. -/
theorem WF.setFirstFree (h : WF lo top m ids) (f : ℕ) : WF lo top { m with firstFree := f } ids :=
  ⟨h.linked.congr ⟨rfl, rfl⟩ ⟨rfl, rfl⟩ rfl le_rfl, h.ranges, h.lo_eq, h.top_eq⟩

/-! ## Merging -/

/-- The entry `e` may have grown at the expense of its neighbours; the others are as they were. -/
structure Grown (lo top : ℕ) (m : VmMap) (xs : List ℕ) (e : ℕ) (ys : List ℕ) (m' : VmMap)
    (xs' ys' : List ℕ) : Prop where
  wf : WF lo top m' (xs' ++ e :: ys')
  kept : Kept Keeps m (xs ++ e :: ys) m' (xs' ++ e :: ys')
  attrs : attrs (m'.entry e) = attrs (m.entry e)
  left : xs'.Sublist xs
  right : ys'.Sublist ys
  others : ∀ c, c ≠ e → m'.entry c = m.entry c
  start_le : (m'.entry e).start ≤ (m.entry e).start
  le_end : (m.entry e).end_ ≤ (m'.entry e).end_
  fresh : m'.fresh = m.fresh

theorem Grown.refl (h : WF lo top m (xs ++ e :: ys)) : Grown lo top m xs e ys m xs ys :=
  ⟨h, .refl _ _, rfl, List.Sublist.refl xs, List.Sublist.refl ys, fun _ _ => rfl, le_rfl, le_rfl,
    rfl⟩

theorem Grown.trans {xs' ys' xs'' ys'' : List ℕ} (h : Grown lo top m₁ xs e ys m₂ xs' ys')
    (h' : Grown lo top m₂ xs' e ys' m₃ xs'' ys'') : Grown lo top m₁ xs e ys m₃ xs'' ys'' where
  wf := h'.wf
  kept := h.kept.keeps h'.kept
  attrs := h'.attrs.trans h.attrs
  left := h'.left.trans h.left
  right := h'.right.trans h.right
  others := fun c hc => (h'.others c hc).trans (h.others c hc)
  start_le := h'.start_le.trans h.start_le
  le_end := h.le_end.trans h'.le_end
  fresh := h'.fresh.trans h.fresh

theorem moveFirstFree_eq (m : VmMap) (old new : ℕ) :
    m.moveFirstFree old new =
      { m with firstFree := if m.firstFree = old then new else m.firstFree } := by
  unfold moveFirstFree
  split_ifs <;> rfl

/-- An entry that takes the place of two that are merged. -/
theorem keeps_merged {x y z : Entry} (hadj : x.end_ = y.start) (hle : x.start ≤ x.end_)
    (hobj : x.object = y.object)
    (hoff : x.object = none ∨ x.offset + (x.end_ - x.start : ℕ) = y.offset)
    (hz : z.object = x.object ∧ z.offset = x.offset ∧ z.start = x.start)
    (hx : VmMap.attrs z = VmMap.attrs x) (hy : VmMap.attrs z = VmMap.attrs y) (a : ℕ) :
    Keeps a x z ∧ Keeps a y z := by
  refine ⟨⟨hx, fun o ho => ⟨hz.1.trans ho, ?_⟩⟩, hy, fun o ho => ⟨hz.1.trans (hobj.trans ho), ?_⟩⟩
  · rw [hz.2.1, hz.2.2]
  · rcases hoff with hnone | hoff
    · rw [hobj, ho] at hnone
      cases hnone
    · rw [hz.2.1, hz.2.2]; omega

/-- The last entry of a list, if the header is not the last. -/
theorem exists_getLastD (h : xs.getLastD header ≠ header) :
    ∃ xs' p, xs = xs' ++ [p] ∧ xs.getLastD header = p := by
  rcases eq_nil_or_concat' xs with rfl | ⟨xs', p, rfl⟩
  · exact absurd rfl h
  · exact ⟨xs', p, rfl, getLastD_concat⟩

theorem exists_headD (h : ys.headD header ≠ header) :
    ∃ n ys', ys = n :: ys' ∧ ys.headD header = n := by
  cases ys with
  | nil => exact absurd rfl h
  | cons n ys' => exact ⟨n, ys', rfl, rfl⟩

/-- Of two neighbours `b` and `c`, the one that is `d` has left the list, and the one that is `e`
    takes over its range. -/
theorem WF.merged {b c d : ℕ} (h : WF lo top m (xs ++ b :: c :: ys))
    (hw : WF lo top m₁ (xs ++ e :: ys)) (hentry : m₁.entry = m.entry) (hsize : m₁.size = m.size)
    (hfree : m₁.firstFree = if m.firstFree = d then e else m.firstFree)
    (hde : b = d ∧ c = e ∨ b = e ∧ c = d) (hadj : (m.entry b).end_ = (m.entry c).start)
    (hobj : (m.entry b).object = (m.entry c).object)
    (hoff : (m.entry b).object = none ∨
      (m.entry b).offset + ((m.entry b).end_ - (m.entry b).start : ℕ) = (m.entry c).offset)
    (hattrs : attrs (m.entry b) = attrs (m.entry c)) {f : Entry → Entry}
    (hf : f (m.entry e) = { m.entry e with
      start := (m.entry b).start, end_ := (m.entry c).end_, offset := (m.entry b).offset }) :
    WF lo top (m₁.setEntry e f) (xs ++ e :: ys) ∧
      Kept Keeps m (xs ++ b :: c :: ys) (m₁.setEntry e f) (xs ++ e :: ys) ∧
      ∀ a, a ≠ e → (m₁.setEntry e f).entry a = m.entry a := by
  have hb := h.ranges.bounds b (by simp)
  have hc := h.ranges.bounds c (by simp)
  have he : e = b ∨ e = c := by
    rcases hde with ⟨-, rfl⟩ | ⟨rfl, -⟩
    · exact .inr rfl
    · exact .inl rfl
  have hzero : header ∉ xs ++ b :: c :: ys := h.header_notMem
  rw [← hentry] at hf
  have hself : (m₁.setEntry e f).entry e = { m.entry e with
      start := (m.entry b).start, end_ := (m.entry c).end_, offset := (m.entry b).offset } := by
    rw [setEntry_entry_self, hf, hentry]
  have hothers : ∀ a, a ≠ e → (m₁.setEntry e f).entry a = m.entry a := fun a ha => by
    rw [setEntry_entry_of_ne _ _ ha, hentry]
  have heattrs : attrs (m.entry e) = attrs (m.entry b) := by
    rcases he with rfl | rfl
    · rfl
    · exact hattrs.symm
  have heobj : (m.entry e).object = (m.entry b).object := by
    rcases he with rfl | rfl
    · rfl
    · exact hobj.symm
  have hcut : xs ++ b :: c :: ys = (xs ++ [b]) ++ c :: ys := by simp
  have hwf : WF lo top (m₁.setEntry e f) (xs ++ e :: ys) := by
    refine hw.setEntry ?_ (fun a ha => ?_) fun a ha => ?_
    · rw [hf, hentry]
      refine ⟨hb.lo_le, ?_, hc.le_top⟩
      show (m.entry b).start < (m.entry c).end_
      have := hb.lt
      have := hc.lt; omega
    · rw [hf, hentry]; exact h.ranges.le_start ha
    · rw [hf, hentry]; exact (hcut ▸ h).ranges.end_le ha
  have htracks : Tracks Keeps m (xs ++ b :: c :: ys) (m₁.setEntry e f) (xs ++ e :: ys) := by
    refine .merge ?_ (fun a => ?_) fun a ha => hothers a (hwf.ne_of_mem a ha)
    · rw [hself]; exact ⟨rfl, hadj, rfl, hb.lt.le, hc.lt.le⟩
    · rw [hself]
      apply keeps_merged hadj hb.lt.le hobj hoff
      · exact ⟨heobj, rfl, rfl⟩
      · exact heattrs
      · exact heattrs.trans hattrs
  have hheader := hothers header (hwf.ne_header (by simp)).symm
  refine ⟨hwf, ⟨hsize, ?_, hheader, htracks, HintOk.keep htracks.covers hheader (fun hz => ?_)
    fun hin => ?_, fun hs a ha => ?_⟩, hothers⟩
  · rw [hw.total_setEntry, hf, hentry]
    simp only [total_append, total_cons]
    have := hb.lt
    have := hc.lt; omega
  · show m₁.firstFree = header
    rw [hfree, hz, if_neg]
    rintro rfl
    rcases hde with ⟨heq, -⟩ | ⟨-, heq⟩
    · exact hzero (by simp [heq])
    · exact hzero (by simp [heq])
  · show m₁.firstFree ∈ _ ∧ ((m₁.setEntry e f).entry m₁.firstFree).start ≤ _
    have hlt := (h.ranges.bounds _ hin).lt
    by_cases hfe : m₁.firstFree = e
    · rw [hfe, hself]
      refine ⟨by simp, ?_⟩
      show (m.entry b).start ≤ _
      have hbc : m.firstFree = b ∨ m.firstFree = c := by
        rw [hfree] at hfe
        split_ifs at hfe with hd
        · rcases hde with ⟨rfl, -⟩ | ⟨-, rfl⟩
          · exact .inl hd
          · exact .inr hd
        · exact he.imp hfe.trans hfe.trans
      have := hb.lt
      have := hc.lt
      rcases hbc with heq | heq
      · rw [heq]; omega
      · rw [heq]; omega
    · have hkeep : m₁.firstFree = m.firstFree := by
        rw [hfree] at hfe ⊢
        split_ifs at hfe ⊢
        · exact absurd rfl hfe
        · rfl
      have hd : m.firstFree ≠ d := fun hd => hfe (by rw [hfree, if_pos hd])
      rw [hothers _ hfe, hkeep]
      refine ⟨?_, hlt.le⟩
      rw [hkeep] at hfe
      refine mem_middle.2 (.inr ?_)
      simp only [mem_append, mem_cons] at hin ⊢
      rcases hde with ⟨rfl, rfl⟩ | ⟨rfl, rfl⟩
      · tauto
      · tauto
  · rcases mem_middle.1 ha with rfl | hin
    · rw [hself]
      refine hs a ?_
      rcases he with rfl | rfl <;> simp
    · rw [hothers a (hwf.ne_of_mem a hin)]
      exact hs a (mem_middle.2 (.inr (mem_middle.2 (.inr hin))))

theorem simplifyPrev_spec (h : WF lo top m (xs ++ e :: ys)) :
    ∃ m' xs', m.simplifyPrev e = some m' ∧ Grown lo top m xs e ys m' xs' ys := by
  unfold simplifyPrev
  rw [h.prev_eq]
  dsimp only
  split_ifs with hmerge
  · obtain ⟨hne, hmerge⟩ := hmerge
    obtain ⟨xs, p, rfl, hp⟩ := exists_getLastD hne
    have hcut : xs ++ [p] ++ e :: ys = xs ++ p :: e :: ys := by simp
    rw [hp] at hmerge ⊢
    obtain ⟨hadj, hobj, hoff, hflags, hprot, hmax, hinh, hwire⟩ := hmerge
    rw [hcut] at h
    have hw := h.setFirstFree (if m.firstFree = p then e else m.firstFree)
    obtain ⟨k, r, nx, pv, n, hu, hl⟩ := entryUnlink_spec hw.linked hw.ranges
    have hsub : (xs ++ e :: ys).Sublist (xs ++ p :: e :: ys) :=
      List.Sublist.append_left (sublist_cons_self p _) xs
    obtain ⟨hw', hk, hothers⟩ := h.merged (hw.relink hl (hw.ranges.sublist hsub)) rfl rfl rfl
      (.inl ⟨rfl, rfl⟩) hadj hobj hoff (by simp only [attrs, hprot, hmax, hinh, hflags, hwire])
      (f := fun e => { e with start := (m.entry p).start, offset := (m.entry p).offset }) rfl
    have hlt := (h.ranges.bounds p (by simp)).lt
    refine ⟨_, xs, by rw [moveFirstFree_eq, hu]; rfl, hw', hcut ▸ hk, ?_,
      sublist_append_left _ _, List.Sublist.refl _, hothers, ?_, ?_, rfl⟩
    · rw [setEntry_entry_self]; rfl
    · rw [setEntry_entry_self]
      show (m.entry p).start ≤ (m.entry e).start
      omega
    · rw [setEntry_entry_self]
  · exact ⟨m, xs, rfl, .refl h⟩

theorem simplifyNext_spec (h : WF lo top m (xs ++ e :: ys)) :
    ∃ m' ys', m.simplifyNext e = some m' ∧ Grown lo top m xs e ys m' xs ys' := by
  unfold simplifyNext
  rw [h.next_eq]
  dsimp only
  split_ifs with hmerge
  · obtain ⟨hne, hmerge⟩ := hmerge
    obtain ⟨n, ys, rfl, hn⟩ := exists_headD hne
    rw [hn] at hmerge ⊢
    obtain ⟨hadj, hobj, hoff, hflags, hprot, hmax, hinh, hwire⟩ := hmerge
    have hcut : xs ++ e :: n :: ys = (xs ++ [e]) ++ n :: ys := by simp
    have hw := h.setFirstFree (if m.firstFree = n then e else m.firstFree)
    rw [hcut] at hw
    obtain ⟨k, r, nx, pv, c, hu, hl⟩ := entryUnlink_spec hw.linked hw.ranges
    have hsub : (xs ++ [e] ++ ys).Sublist (xs ++ [e] ++ n :: ys) :=
      List.Sublist.append_left (sublist_cons_self n _) _
    have hw' := hw.relink hl (hw.ranges.sublist hsub)
    rw [append_assoc, singleton_append] at hw'
    obtain ⟨hw', hk, hothers⟩ := h.merged hw' rfl rfl rfl (.inr ⟨rfl, rfl⟩) hadj hobj.symm hoff
      (by simp only [attrs, hprot, hmax, hinh, hflags, hwire])
      (f := fun e => { e with end_ := (m.entry n).end_ }) rfl
    have hlt := (h.ranges.bounds n (by simp)).lt
    refine ⟨_, ys, by rw [moveFirstFree_eq, hu]; rfl, hw', hk, ?_, List.Sublist.refl _,
      sublist_cons_self _ _, hothers, ?_, ?_, rfl⟩
    · rw [setEntry_entry_self]; rfl
    · rw [setEntry_entry_self]
    · rw [setEntry_entry_self]
      show (m.entry e).end_ ≤ (m.entry n).end_
      omega
  · exact ⟨m, ys, rfl, .refl h⟩

/-- The entry stays, and its neighbours may go. -/
theorem simplifyEntry_spec (h : WF lo top m (xs ++ e :: ys)) :
    ∃ m' xs' ys', m.simplifyEntry e = some m' ∧ Grown lo top m xs e ys m' xs' ys' := by
  unfold simplifyEntry
  split_ifs
  · exact ⟨m, xs, ys, rfl, .refl h⟩
  · obtain ⟨m₁, xs', h1, hg1⟩ := simplifyPrev_spec h
    obtain ⟨m₂, ys', h2, hg2⟩ := simplifyNext_spec hg1.wf
    exact ⟨m₂, xs', ys', by rw [h1]; exact h2, hg1.trans hg2⟩

/-! ## Clipping -/

theorem WF.fresh_notMem (h : WF lo top m ids) : m.fresh ∉ dummy :: header :: ids := fun hmem =>
  absurd (h.linked.fresh _ hmem) (lt_irrefl _)

@[simp] theorem entryCreate_entry_fresh (m : VmMap) (d : Entry) :
    (m.entryCreate d).entry m.fresh = d := by
  simp [entryCreate]

theorem entryCreate_entry_of_ne (m : VmMap) (d : Entry) {c : ℕ} (h : c ≠ m.fresh) :
    (m.entryCreate d).entry c = m.entry c := by
  simp [entryCreate, h]

/-- An entry that is in no list yet is created. -/
theorem WF.entryCreate (h : WF lo top m ids) (d : Entry) : WF lo top (m.entryCreate d) ids := by
  have hfresh := h.fresh_notMem
  simp only [mem_cons, not_or] at hfresh
  refine ⟨h.linked.congr ⟨rfl, rfl⟩ ⟨rfl, rfl⟩ rfl (Nat.le_succ _),
    h.ranges.congr fun c hc => ?_, ?_, ?_⟩
  · exact m.entryCreate_entry_of_ne d fun heq => hfresh.2.2 (heq ▸ hc)
  · rw [minOffset, m.entryCreate_entry_of_ne d (Ne.symm hfresh.2.1)]; exact h.lo_eq
  · rw [maxOffset, m.entryCreate_entry_of_ne d (Ne.symm hfresh.2.1)]; exact h.top_eq

/-- An entry is linked into the gap after the entries `xs`. -/
theorem WF.entryLink (h : WF lo top m (xs ++ ys)) (he : e ∉ dummy :: header :: (xs ++ ys))
    (hfresh : e < m.fresh) (hb : InBounds lo top (m.entry e))
    (hxs : ∀ a ∈ xs, (m.entry a).end_ ≤ (m.entry e).start)
    (hys : ∀ a ∈ ys, (m.entry e).end_ ≤ (m.entry a).start) :
    ∃ k r nx pv n, m.entryLink (xs.getLastD header) e =
        some { m with links := k, root := r, next := nx, prev := pv, nentries := n } ∧
      WF lo top { m with links := k, root := r, next := nx, prev := pv, nentries := n }
        (xs ++ e :: ys) := by
  obtain ⟨k, r, nx, pv, n, hlink, hl⟩ := entryLink_spec h.linked h.ranges he hfresh
  exact ⟨k, r, nx, pv, n, hlink, h.relink hl (h.ranges.insert hb hxs hys)⟩

theorem createObject_eq (env : ObjectEnv) (m : VmMap) (e : ℕ) :
    ∃ f : Entry → Entry, m.createObject env e = m.setEntry e f ∧
      (f (m.entry e)).start = (m.entry e).start ∧ (f (m.entry e)).end_ = (m.entry e).end_ ∧
      ∀ a, Keeps a (m.entry e) (f (m.entry e)) := by
  unfold createObject
  split_ifs with hnone
  · refine ⟨_, rfl, rfl, rfl, fun a => ⟨rfl, fun o ho => ?_⟩⟩
    rw [hnone.1] at ho
    cases ho
  · refine ⟨id, ?_, rfl, rfl, fun a => .refl a _⟩
    simp [VmMap.setEntry]

theorem createObject_spec (env : ObjectEnv) (h : WF lo top m (xs ++ e :: ys)) :
    WF lo top (m.createObject env e) (xs ++ e :: ys) ∧
      Kept Keeps m (xs ++ e :: ys) (m.createObject env e) (xs ++ e :: ys) ∧
      ((m.createObject env e).entry e).start = (m.entry e).start ∧
      ((m.createObject env e).entry e).end_ = (m.entry e).end_ ∧
      (m.createObject env e).firstFree = m.firstFree ∧ ∀ c, c ≠ e → (m.createObject env e).entry c =
        m.entry c := by
  obtain ⟨f, hf, hstart, hend, hkeeps⟩ := createObject_eq env m e
  obtain ⟨hw, hk⟩ := h.setData hstart hend (by rw [(hkeeps 0).eflags]) (fun a _ => hkeeps a)
    fun _ _ a _ => .refl a _
  rw [hf]
  refine ⟨hw, hk, ?_, ?_, rfl, fun c hc => setEntry_entry_of_ne _ _ hc⟩
  · rw [setEntry_entry_self, hstart]
  · rw [setEntry_entry_self, hend]

/-- An entry is created, and the range of another is shrunk. -/
theorem WF.createShrink (h : WF lo top m (xs ++ e :: ys)) (d : Entry) (f : Entry → Entry)
    (hb : InBounds lo top (f (m.entry e))) (hs : (m.entry e).start ≤ (f (m.entry e)).start)
    (he : (f (m.entry e)).end_ ≤ (m.entry e).end_) :
    WF lo top ((m.entryCreate d).setEntry e f) (xs ++ e :: ys) ∧
      ((m.entryCreate d).setEntry e f).entry e = f (m.entry e) ∧
      ((m.entryCreate d).setEntry e f).entry m.fresh = d ∧
      ((m.entryCreate d).setEntry e f).entry header = m.entry header ∧
      ∀ c ∈ xs ++ ys, ((m.entryCreate d).setEntry e f).entry c = m.entry c := by
  have hne : ∀ c ∈ xs ++ e :: ys, c ≠ m.fresh := by
    rintro c hc rfl; exact h.fresh_notMem (mem_cons_of_mem _ (mem_cons_of_mem _ hc))
  have hen : e ≠ m.fresh := hne e (by simp)
  have he₂ : (m.entryCreate d).entry e = m.entry e := m.entryCreate_entry_of_ne d hen
  refine ⟨(h.entryCreate d).setEntry ?_ (fun c hc => ?_) fun c hc => ?_, ?_, ?_, ?_, fun c hc => ?_⟩
  · rwa [he₂]
  · rw [he₂, m.entryCreate_entry_of_ne d (hne c (by simp [hc]))]
    exact (h.ranges.le_start hc).trans hs
  · rw [he₂, m.entryCreate_entry_of_ne d (hne c (by simp [hc]))]
    exact he.trans (h.ranges.end_le hc)
  · rw [setEntry_entry_self, he₂]
  · rw [setEntry_entry_of_ne _ _ hen.symm, entryCreate_entry_fresh]
  · have hfresh := h.fresh_notMem
    simp only [mem_cons, not_or] at hfresh
    rw [setEntry_entry_of_ne _ _ (h.ne_header (by simp)).symm,
      m.entryCreate_entry_of_ne d (Ne.symm hfresh.2.1)]
  · rw [setEntry_entry_of_ne _ _ (h.ne_of_mem c hc), m.entryCreate_entry_of_ne d (hne c ?_)]
    simp only [mem_append, mem_cons] at hc ⊢; tauto

/-- An entry is cut into two, of which one is new. -/
theorem WF.split {b c : ℕ} (h : WF lo top m (xs ++ e :: ys))
    (hcut : Cut (m.entry e) (m'.entry b) (m'.entry c))
    (hk : ∀ a, Keeps a (m.entry e) (m'.entry b) ∧ Keeps a (m.entry e) (m'.entry c))
    (hsame : ∀ d ∈ xs ++ ys, m'.entry d = m.entry d) (hbc : b = e ∨ c = e)
    (hsize : m'.size = m.size) (hheader : m'.entry header = m.entry header)
    (hfree : m'.firstFree = m.firstFree) :
    Kept Keeps m (xs ++ e :: ys) m' (xs ++ b :: c :: ys) := by
  obtain ⟨hxs, hys⟩ := total_same hsame
  have htracks := Tracks.split hcut hk hsame
  obtain ⟨h₁, h₂, h₃, h₄, h₅⟩ := hcut
  refine ⟨hsize, ?_, hheader, htracks, HintOk.keep htracks.covers hheader hfree.trans
    fun hin => ?_, fun hs d hd => ?_⟩
  · simp only [total_append, total_cons, hxs, hys]; omega
  · rw [hfree]
    have hlt := (h.ranges.bounds _ hin).lt
    rcases mem_middle.1 hin with heq | hmem
    · rw [heq]
      rcases hbc with rfl | rfl
      · exact ⟨by simp, by omega⟩
      · exact ⟨by simp, by omega⟩
    · rw [hsame _ hmem]; exact ⟨mem_middle.2 (.inr (mem_middle.2 (.inr hmem))), hlt.le⟩
  · rcases mem_middle.1 hd with rfl | hd
    · rw [(hk 0).1.eflags]; exact hs e (by simp)
    · rcases mem_middle.1 hd with rfl | hd
      · rw [(hk 0).2.eflags]; exact hs e (by simp)
      · rw [hsame d hd]; exact hs d (mem_middle.2 (.inr hd))

/-- A new entry gets a part of the range of `e`, and is linked in front of it or behind it. -/
theorem WF.splitEntry {b c after : ℕ} (h : WF lo top m (xs ++ e :: ys)) {d : Entry}
    {f : Entry → Entry} (hd : d.start < d.end_) (hf : (f (m.entry e)).start < (f (m.entry e)).end_)
    (hk : ∀ a, Keeps a (m.entry e) d ∧ Keeps a (m.entry e) (f (m.entry e)))
    (hside : after = xs.getLastD header ∧ b = m.fresh ∧ c = e ∧ Cut (m.entry e) d (f (m.entry e)) ∨
      after = e ∧ b = e ∧ c = m.fresh ∧ Cut (m.entry e) (f (m.entry e)) d) :
    ∃ m', ((m.entryCreate d).setEntry e f).entryLink after m.fresh = some m' ∧
      WF lo top m' (xs ++ b :: c :: ys) ∧ Kept Keeps m (xs ++ e :: ys) m' (xs ++ b :: c :: ys) ∧
      m'.entry e = f (m.entry e) ∧ m'.entry m.fresh = d ∧ m'.firstFree = m.firstFree ∧
      ∀ c ∈ xs ++ ys, m'.entry c = m.entry c := by
  have hb := h.ranges.bounds e (by simp)
  have hin : (m.entry e).start ≤ d.start ∧ d.end_ ≤ (m.entry e).end_ ∧
      (m.entry e).start ≤ (f (m.entry e)).start ∧ (f (m.entry e)).end_ ≤ (m.entry e).end_ := by
    rcases hside with ⟨-, -, -, h₁, h₂, h₃, -⟩ | ⟨-, -, -, h₁, h₂, h₃, -⟩
    · omega
    · omega
  have hbound : ∀ {x : Entry}, (m.entry e).start ≤ x.start → x.start < x.end_ →
      x.end_ ≤ (m.entry e).end_ → InBounds lo top x := fun hs hlt he =>
    ⟨hb.lo_le.trans hs, hlt, he.trans hb.le_top⟩
  obtain ⟨h₃, hentry, hnew, hheader, hothers⟩ := h.createShrink d f
    (hbound hin.2.2.1 hf hin.2.2.2) hin.2.2.1 hin.2.2.2
  have hfresh : m.fresh < ((m.entryCreate d).setEntry e f).fresh := Nat.lt_succ_self _
  have hkept : ((m.entryCreate d).setEntry e f).size = m.size ∧
      ((m.entryCreate d).setEntry e f).firstFree = m.firstFree := ⟨rfl, rfl⟩
  generalize (m.entryCreate d).setEntry e f = m₃ at *
  have hbd : InBounds lo top (m₃.entry m.fresh) := hnew ▸ hbound hin.1 hd hin.2.1
  have hfront : ∀ c ∈ xs, (m₃.entry c).end_ ≤ (m₃.entry m.fresh).start := fun c hc => by
    rw [hothers c (mem_append_left _ hc), hnew]; exact (h.ranges.le_start hc).trans hin.1
  have hbehind : ∀ c ∈ ys, (m₃.entry m.fresh).end_ ≤ (m₃.entry c).start := fun c hc => by
    rw [hothers c (mem_append_right _ hc), hnew]; exact hin.2.1.trans (h.ranges.end_le hc)
  have hnot := h.fresh_notMem
  have hassoc : xs ++ e :: ys = xs ++ [e] ++ ys := by simp
  have hlink : ∃ m', m₃.entryLink after m.fresh = some m' ∧ WF lo top m' (xs ++ b :: c :: ys) ∧
      m'.entry = m₃.entry ∧ m'.size = m₃.size ∧ m'.firstFree = m₃.firstFree := by
    rcases hside with ⟨rfl, rfl, rfl, hcut⟩ | ⟨rfl, rfl, rfl, hcut⟩
    · obtain ⟨k, r, nx, pv, n, hl, hw⟩ := h₃.entryLink hnot hfresh hbd hfront fun a ha => by
        rcases mem_cons.1 ha with rfl | ha
        · rw [hnew, hentry, hcut.between]
        · exact hbehind a ha
      exact ⟨_, hl, hw, rfl, rfl, rfl⟩
    · obtain ⟨k, r, nx, pv, n, hl, hw⟩ := WF.entryLink (hassoc ▸ h₃) (hassoc ▸ hnot) hfresh hbd
        (fun a ha => by
          rcases mem_append.1 ha with ha | ha
          · exact hfront a ha
          · rw [mem_singleton.1 ha, hnew, hentry, hcut.between]) hbehind
      rw [getLastD_concat] at hl
      rw [append_assoc, singleton_append] at hw; exact ⟨_, hl, hw, rfl, rfl, rfl⟩
  obtain ⟨m', hl, hw, hsame, hsize, hfree⟩ := hlink
  rw [← hsame] at hentry hnew hheader hothers
  refine ⟨m', hl, hw, h.split ?_ (fun a => ?_) hothers ?_ (hsize.trans hkept.1) hheader
    (hfree.trans hkept.2), hentry, hnew, hfree.trans hkept.2, hothers⟩
  · rcases hside with ⟨-, rfl, rfl, hcut⟩ | ⟨-, rfl, rfl, hcut⟩
    · rwa [hnew, hentry]
    · rwa [hnew, hentry]
  · rcases hside with ⟨-, rfl, rfl, -⟩ | ⟨-, rfl, rfl, -⟩
    · rw [hnew, hentry]; exact hk a
    · rw [hnew, hentry]; exact (hk a).symm
  · exact hside.symm.imp (fun hs => hs.2.1) fun hs => hs.2.2.1

/-- The end of an entry is split off. -/
theorem clipEndSplit_spec (env : ObjectEnv) (h : WF lo top m (xs ++ e :: ys))
    (hstart : (m.entry e).start < a) (hend : a < (m.entry e).end_) :
    ∃ m' n, m.clipEndSplit env e a = some m' ∧ WF lo top m' (xs ++ e :: n :: ys) ∧
      Kept Keeps m (xs ++ e :: ys) m' (xs ++ e :: n :: ys) ∧
      (m'.entry e).start = (m.entry e).start ∧ (m'.entry e).end_ = a ∧
      (m'.entry n).start = a ∧ m'.firstFree = m.firstFree ∧
      ∀ c ∈ xs ++ ys, m'.entry c = m.entry c := by
  obtain ⟨h₁, hk₁, hs₁, he₁, hf₁, hc₁⟩ := createObject_spec env h
  unfold clipEndSplit
  generalize m.createObject env e = m₁ at *
  dsimp only
  obtain ⟨m', hl, hw, hk, hentry, hnew, hfree, hsame⟩ := h₁.splitEntry (b := e)
    (c := m₁.fresh) (f := fun e => { e with end_ := a }) (d := { m₁.entry e with
      start := a, offset := (m₁.entry e).offset + (a - (m₁.entry e).start : ℤ) })
    (hend.trans_eq he₁.symm) (hs₁.trans_lt hstart)
    (fun b => ⟨⟨rfl, fun o ho => ⟨ho, by ring⟩⟩, rfl, fun o ho => ⟨ho, rfl⟩⟩)
    (.inr ⟨rfl, rfl, rfl, rfl, rfl, rfl, (hs₁.trans_lt hstart).le, (hend.trans_eq he₁.symm).le⟩)
  refine ⟨m', m₁.fresh, hl, hw, hk₁.keeps hk, ?_, ?_, ?_, hfree.trans hf₁, fun c hc => ?_⟩
  · rw [hentry]; exact hs₁
  · rw [hentry]
  · rw [hnew]
  · rw [hsame c hc, hc₁ c (h.ne_of_mem c hc)]

/-- The start of an entry, which may have grown before, is split off. -/
theorem clipStartSplit_spec (env : ObjectEnv) (h : WF lo top m (xs ++ e :: ys))
    (hstart : (m.entry e).start < a) (hend : a < (m.entry e).end_) :
    ∃ m' xs' n ys', m.clipStartSplit env e a = some m' ∧
      WF lo top m' (xs' ++ n :: e :: ys') ∧
      Kept Keeps m (xs ++ e :: ys) m' (xs' ++ n :: e :: ys') ∧ (m'.entry e).start = a := by
  obtain ⟨m₀, xs', ys', hs₀, hg⟩ := simplifyEntry_spec h
  obtain ⟨h₁, hk₁, hs₁, he₁, -, -⟩ := createObject_spec env hg.wf
  have hlt : ((m₀.createObject env e).entry e).start < a :=
    hs₁.trans_lt (hg.start_le.trans_lt hstart)
  have hgt : a < ((m₀.createObject env e).entry e).end_ :=
    (hend.trans_le hg.le_end).trans_eq he₁.symm
  unfold clipStartSplit
  rw [hs₀, bind_eq_bind, bind_some]
  generalize m₀.createObject env e = m₁ at *
  dsimp only
  obtain ⟨m', hl, hw, hk, hentry, -⟩ := h₁.splitEntry
    (b := m₁.fresh) (c := e) (d := { m₁.entry e with end_ := a }) (f := fun e : Entry =>
      { e with offset := e.offset + (a - e.start : ℤ), start := a }) hlt hgt
    (fun b => ⟨⟨rfl, fun o ho => ⟨ho, rfl⟩⟩, rfl, fun o ho => ⟨ho, by ring⟩⟩)
    (.inl ⟨rfl, rfl, rfl, rfl, rfl, rfl, hlt.le, hgt.le⟩)
  have hprev : ((m₁.entryCreate { m₁.entry e with end_ := a }).setEntry e fun e =>
      { e with offset := e.offset + (a - e.start : ℤ), start := a }).prev e = xs'.getLastD header :=
    h₁.prev_eq
  rw [hprev]
  refine ⟨m', xs', m₁.fresh, ys', hl, hw, (hg.kept.keeps hk₁).keeps hk, ?_⟩
  rw [hentry]

/-- The entry ends at the address, or in front of it. -/
theorem clipEnd_spec (env : ObjectEnv) (h : WF lo top m (xs ++ e :: ys))
    (hstart : (m.entry e).start < a) :
    ∃ m' ys', m.clipEnd env e a = some m' ∧ WF lo top m' (xs ++ e :: ys') ∧
      Kept Keeps m (xs ++ e :: ys) m' (xs ++ e :: ys') ∧
      (m'.entry e).start = (m.entry e).start ∧ (m'.entry e).end_ ≤ a ∧
      m'.firstFree = m.firstFree ∧ (∀ c ∈ xs ++ ys, m'.entry c = m.entry c) ∧
      (ys' = ys ∨ ∃ n, ys' = n :: ys ∧ (m'.entry n).start = a) := by
  unfold clipEnd
  by_cases hend : a < (m.entry e).end_
  · obtain ⟨m', n, hclip, hw, hk, hs, he, hn, hf, hsame⟩ := clipEndSplit_spec env h hstart hend
    exact ⟨m', n :: ys, by rw [if_pos hend, hclip], hw, hk, hs, he.le, hf, hsame,
      .inr ⟨n, rfl, hn⟩⟩
  · exact ⟨m, ys, by rw [if_neg hend], h, .refl _ _, rfl, not_lt.1 hend, rfl, fun _ _ => rfl,
      .inl rfl⟩

/-! ## The beginning of a range -/

/-- The entries `xs` end at the address or in front of it, the others start there or behind it. -/
def CutAt (m : VmMap) (a : ℕ) (xs ys : List ℕ) : Prop :=
  (∀ b ∈ xs, (m.entry b).end_ ≤ a) ∧ ∀ b ∈ ys, a ≤ (m.entry b).start

theorem WF.cutAt_start (h : WF lo top m (xs ++ e :: ys)) (hs : (m.entry e).start = a) :
    CutAt m a xs (e :: ys) := by
  refine ⟨fun b hb => ?_, fun b hb => ?_⟩
  · rw [← hs]; exact h.ranges.le_start hb
  · rcases mem_cons.1 hb with rfl | hb
    · exact hs.ge
    · have := (h.ranges.bounds e (by simp)).lt
      have := h.ranges.end_le hb; omega

theorem WF.cutAt_end (h : WF lo top m (xs ++ e :: ys)) :
    CutAt m (m.entry e).end_ (xs ++ [e]) ys := by
  have hlt := (h.ranges.bounds e (by simp)).lt
  refine ⟨fun b hb => ?_, fun b hb => h.ranges.end_le hb⟩
  rcases mem_append.1 hb with hb | hb
  · exact (h.ranges.le_start hb).trans hlt.le
  · rw [mem_singleton.1 hb]

theorem WF.head_le (h : WF lo top m (xs ++ ys)) (hhead : ∀ b ∈ ys.head?, a ≤ (m.entry b).start) :
    ∀ b ∈ ys, a ≤ (m.entry b).start := by
  intro b hb
  cases ys with
  | nil => simp at hb
  | cons y ys =>
    have hy := hhead y rfl
    rcases mem_cons.1 hb with rfl | hb
    · exact hy
    · have := (h.ranges.bounds y (by simp)).lt
      have := h.ranges.end_le hb; omega

/-- The first entry that ends behind the address. -/
def firstBehind (m : VmMap) (ids : List ℕ) (a : ℕ) : Option ℕ :=
  ids.find? fun b => a < (m.entry b).end_

theorem firstBehind_append (hxs : ∀ b ∈ xs, (m.entry b).end_ ≤ a)
    (hys : ∀ b ∈ ys.head?, a < (m.entry b).end_) : m.firstBehind (xs ++ ys) a = ys.head? := by
  have hnone : xs.find? (fun b => a < (m.entry b).end_) = none := by
    simpa [List.find?_eq_none] using hxs
  rw [firstBehind, List.find?_append, hnone, none_or]
  cases ys with
  | nil => rfl
  | cons y ys => simp [hys y (by simp)]

/-- Where the operations on ranges begin, no entry reaches over the address, and the loop begins
    with what is behind the address of the first entry that ends behind it. -/
theorem firstEntry_spec (env : ObjectEnv) (h : WF lo top m ids) (a : ℕ) :
    ∃ m' xs ys, m.firstEntry env a = some (m', ys.headD header) ∧ WF lo top m' (xs ++ ys) ∧
      Kept Keeps m ids m' (xs ++ ys) ∧ CutAt m' a xs ys ∧
      ys.head?.map (fun b => (m'.entry b).start) =
        (m.firstBehind ids a).map fun b => max (m.entry b).start a := by
  obtain ⟨k, r, found, e, hlook, hl, xs, ys, hxs, hys, hres⟩ :=
    lookupEntry_spec h.linked h.ranges a
  have hw : WF lo top { m with links := k, root := r } ids := h.relink hl h.ranges
  unfold firstEntry
  rw [hlook]
  cases found with
  | false =>
    obtain ⟨rfl, rfl⟩ : ids = xs ++ ys ∧ e = xs.getLastD header := by simpa using hres
    refine ⟨_, xs, ys, ?_, hw, .looked m k r, ⟨hxs, fun b hb => (hys b hb).le⟩, ?_⟩
    · rw [← hl.ring.next_last]; rfl
    · have hmem : ∀ b ∈ ys.head?, b ∈ ys := fun b hb => mem_of_mem_head? hb
      rw [firstBehind_append hxs fun b hb => (hys b (hmem b hb)).trans
        (h.ranges.bounds b (mem_append_right _ (hmem b hb))).lt]
      cases ys with
      | nil => rfl
      | cons y ys =>
        have := hys y (by simp)
        simp only [List.head?_cons, map_some, Option.some.injEq]; omega
  | true =>
    obtain ⟨rfl, hstart, hend⟩ : ids = xs ++ e :: ys ∧ (m.entry e).start ≤ a ∧
        a < (m.entry e).end_ := by simpa using hres
    have hfirst : (m.firstBehind (xs ++ e :: ys) a).map (fun b => max (m.entry b).start a) =
        some a := by
      rw [firstBehind_append hxs (by simpa using hend)]
      simpa using hstart
    generalize hm₁ : ({ m with links := k, root := r } : VmMap) = m₁ at *
    have hentry : m₁.entry = m.entry := by subst hm₁; rfl
    have hk : Kept Keeps m (xs ++ e :: ys) m₁ (xs ++ e :: ys) := hm₁ ▸ .looked m k r
    rcases hstart.eq_or_lt with heq | hlt
    · refine ⟨m₁, xs, e :: ys, ?_, hw, hk, hw.cutAt_start (by rw [hentry, heq]), ?_⟩
      · simp [clipStart, hentry, heq]
      · rw [hfirst, List.head?_cons, map_some, hentry, heq]
    · obtain ⟨m', xs', n, ys', hclip, hw', hk', hs'⟩ := clipStartSplit_spec env hw
        (by rwa [hentry]) (by rwa [hentry])
      have hcut : xs' ++ n :: e :: ys' = xs' ++ [n] ++ e :: ys' := by simp
      rw [hcut] at hw' hk'
      refine ⟨m', xs' ++ [n], e :: ys', ?_, hw', hk.keeps hk', hw'.cutAt_start hs', ?_⟩
      · simp [clipStart, hentry, hlt, hclip]
      · rw [hfirst, List.head?_cons, map_some, hs']

end FreeBSD.Vm.VmMap
