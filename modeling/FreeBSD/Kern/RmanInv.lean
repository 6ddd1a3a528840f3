import FreeBSD.Kern.Rman
import FreeBSD.Lib.Segments

/-!
# The invariant of a resource manager

`Inv` says what holds of a manager and its clients between two calls: the
entries of `rm_list` are non-empty, in order and disjoint (`Ordered`), the
resources of a sharing list have one range and one of them, the `RF_FIRSTSHARE`
one, is on `rm_list` (`EntryOk`), and every resource a client holds is an
allocated entry or shares one.

It is preserved by every call that does not carve a piece out of an entry
from a start that wrapped around, or of length 0 (`CarvesInside`): one lemma
for each function of the model, assembled in `Inv.step`.
-/

namespace FreeBSD.SubrRman

open FreeBSD.Lib.Segments List

/-! ## Flags -/

theorem and_or_ne_zero (x g f : BitVec 32) :
    (x ||| g) &&& f ≠ 0 ↔ x &&& f ≠ 0 ∨ g &&& f ≠ 0 := by
  rw [BitVec.and_or_distrib_right]
  refine (not_congr BitVec.or_eq_zero_iff).trans ?_
  tauto

variable {g f : BitVec 32} {l₁ l₂ : List ℕ} {s e : ℕ} {rm : Rman}

theorem and_clear_of_disjoint (h : g &&& f = 0) (x : BitVec 32) : (x &&& ~~~g) &&& f = x &&& f := by
  apply BitVec.eq_of_getLsbD_eq
  intro i hi
  have hi' : (g &&& f).getLsbD i = false := by rw [h]; exact BitVec.getLsbD_zero
  rw [BitVec.getLsbD_and] at hi'
  simp only [BitVec.getLsbD_and, BitVec.getLsbD_not, hi, decide_true, Bool.true_and]
  cases x.getLsbD i <;> cases hg : g.getLsbD i <;> simp_all

theorem and_and_ne_zero_of_subset {x g f : BitVec 32} (h : g &&& f = f) :
    (x &&& g) &&& f ≠ 0 ↔ x &&& f ≠ 0 := by
  rw [BitVec.and_assoc, h]

/-! ## Lists -/

theorem insertBefore_append {s x : ℕ} (h : s ∉ l₁) :
    insertBefore s x (l₁ ++ s :: l₂) = l₁ ++ x :: s :: l₂ := by
  induction l₁ with
  | nil => simp [insertBefore]
  | cons a l₁ ih =>
    have ha : a ≠ s := fun e => h (by simp [e])
    simp [insertBefore, ha, ih fun hm => h (mem_cons_of_mem a hm)]

theorem insertAfter_append {s x : ℕ} (h : s ∉ l₁) :
    insertAfter s x (l₁ ++ s :: l₂) = l₁ ++ s :: x :: l₂ := by
  induction l₁ with
  | nil => simp [insertAfter]
  | cons a l₁ ih =>
    have ha : a ≠ s := fun e => h (by simp [e])
    simp [insertAfter, ha, ih fun hm => h (mem_cons_of_mem a hm)]

theorem erase_append_cons (h : s ∉ l₁) : (l₁ ++ s :: l₂).erase s = l₁ ++ l₂ := by
  rw [erase_append_right _ h, erase_cons_head]

theorem tailqPrev_append {r : ℕ} (h : r ∉ l₁) : tailqPrev r (l₁ ++ r :: l₂) = l₁.getLast? := by
  have hl : ∀ a ∈ l₁, (decide (a ≠ r)) = true := fun a ha => by
    simpa using fun e : a = r => h (e ▸ ha)
  rw [tailqPrev, takeWhile_append_of_pos hl]; simp

theorem tailqNext_append {r : ℕ} (h : r ∉ l₁) : tailqNext r (l₁ ++ r :: l₂) = l₂.head? := by
  have hl : ∀ a ∈ l₁, (decide (a ≠ r)) = true := fun a ha => by
    simpa using fun e : a = r => h (e ▸ ha)
  rw [tailqNext, dropWhile_append_of_pos hl]; simp

/-! ## The invariant -/

/-- The range of a resource. -/
def Resource.seg (r : Resource) : ℕ × ℕ := (r.rStart.toNat, r.rEnd.toNat)

/-- The ranges of the entries of `rm_list`. -/
def Rman.segs (rm : Rman) : List (ℕ × ℕ) := rm.rmList.map fun a => (rm.res a).seg

/-- The resources that share the entry `e`, itself included. -/
def Rman.sharers (rm : Rman) (e : ℕ) : List ℕ :=
  match (rm.res e).rSharehead with
  | none => [e]
  | some h => rm.sharelist h

/-- What holds of an entry `e` of `rm_list` that is on the sharing list `h`. -/
structure ShareOk (rm : Rman) (e h : ℕ) : Prop where
  allocated : (rm.res e).has rfAllocated
  first : (rm.res e).has rfFirstshare
  lt_brk : h < rm.brk
  nodup : (rm.sharelist h).Nodup
  two : 2 ≤ (rm.sharelist h).length
  self : e ∈ rm.sharelist h
  member : ∀ x ∈ rm.sharelist h, x < rm.brk ∧ (rm.res x).rSharehead = some h ∧
    (rm.res x).seg = (rm.res e).seg ∧ (rm.res x).has rfAllocated
  other : ∀ x ∈ rm.sharelist h, x ≠ e → x ∉ rm.rmList ∧ ¬ (rm.res x).has rfFirstshare

/-- What holds of an entry of `rm_list`. -/
structure EntryOk (rm : Rman) (e : ℕ) : Prop where
  lt_brk : e < rm.brk
  share : ∀ h, (rm.res e).rSharehead = some h → ShareOk rm e h

/-- The invariant of a manager and its clients. -/
structure Inv (s : Sys) : Prop where
  ordered : Ordered s.rm.segs
  nodup : s.rm.rmList.Nodup
  entry : ∀ e ∈ s.rm.rmList, EntryOk s.rm e
  held_nodup : (s.held.map Prod.fst).Nodup
  held : ∀ r ∈ s.held.map Prod.fst, ∃ e ∈ s.rm.rmList, (s.rm.res e).has rfAllocated ∧
    r ∈ s.rm.sharers e

theorem sharers_none (h : (rm.res e).rSharehead = none) : rm.sharers e = [e] := by
  rw [Rman.sharers, h]

theorem sharers_some {e h : ℕ} (he : (rm.res e).rSharehead = some h) :
    rm.sharers e = rm.sharelist h := by
  rw [Rman.sharers, he]

namespace EntryOk

variable {rm : Rman} {e x : ℕ}

theorem self_mem (he : EntryOk rm e) : e ∈ rm.sharers e := by
  cases hs : (rm.res e).rSharehead with
  | none => simp [sharers_none hs]
  | some h => rw [sharers_some hs]; exact (he.share h hs).self

theorem sharer_lt (he : EntryOk rm e) (hx : x ∈ rm.sharers e) : x < rm.brk := by
  cases hs : (rm.res e).rSharehead with
  | none =>
    rw [sharers_none hs, mem_singleton] at hx; exact hx ▸ he.lt_brk
  | some h =>
    rw [sharers_some hs] at hx; exact ((he.share h hs).member x hx).1

theorem sharer_head (he : EntryOk rm e) (hx : x ∈ rm.sharers e) :
    (rm.res x).rSharehead = (rm.res e).rSharehead := by
  cases hs : (rm.res e).rSharehead with
  | none =>
    rw [sharers_none hs, mem_singleton] at hx
    rw [hx, hs]
  | some h =>
    rw [sharers_some hs] at hx; exact ((he.share h hs).member x hx).2.1

theorem sharer_seg (he : EntryOk rm e) (hx : x ∈ rm.sharers e) :
    (rm.res x).seg = (rm.res e).seg := by
  cases hs : (rm.res e).rSharehead with
  | none =>
    rw [sharers_none hs, mem_singleton] at hx
    rw [hx]
  | some h =>
    rw [sharers_some hs] at hx; exact ((he.share h hs).member x hx).2.2.1

theorem sharer_not_mem (he : EntryOk rm e) (hx : x ∈ rm.sharers e) (hne : x ≠ e) :
    x ∉ rm.rmList := by
  cases hs : (rm.res e).rSharehead with
  | none =>
    rw [sharers_none hs, mem_singleton] at hx; exact absurd hx hne
  | some h =>
    rw [sharers_some hs] at hx; exact ((he.share h hs).other x hx hne).1

/-- A resource shares at most one entry. -/
theorem unique {e' : ℕ} (he : EntryOk rm e) (he' : EntryOk rm e') (hel : e ∈ rm.rmList)
    (hx : x ∈ rm.sharers e) (hx' : x ∈ rm.sharers e') : e = e' := by
  have hh : (rm.res e).rSharehead = (rm.res e').rSharehead :=
    (he.sharer_head hx).symm.trans (he'.sharer_head hx')
  cases hs : (rm.res e').rSharehead with
  | none =>
    rw [sharers_none hs, mem_singleton] at hx'
    rw [sharers_none (hh.trans hs), mem_singleton] at hx; exact hx.symm.trans hx'
  | some h =>
    have hmem : e ∈ rm.sharers e' := by
      rw [sharers_some hs, ← sharers_some (hh.trans hs)]; exact he.self_mem
    by_contra hne
    exact he'.sharer_not_mem hmem hne hel

end EntryOk

/-! ## Frames -/

/-- Two contents of a resource that differ at most in flags that the invariant does not read. -/
structure Agree (x y : Resource) : Prop where
  head : y.rSharehead = x.rSharehead
  seg : y.seg = x.seg
  allocated : y.has rfAllocated ↔ x.has rfAllocated
  first : y.has rfFirstshare ↔ x.has rfFirstshare

theorem Agree.refl (x : Resource) : Agree x x := ⟨rfl, rfl, Iff.rfl, Iff.rfl⟩

theorem Agree.trans {x y z : Resource} (h : Agree x y) (h' : Agree y z) : Agree x z :=
  ⟨h'.head.trans h.head, h'.seg.trans h.seg, h'.allocated.trans h.allocated,
    h'.first.trans h.first⟩

/-- An entry keeps its sharers when they, and the sharing list, are left alone. -/
theorem EntryOk.frame {rm rm' : Rman} (he : EntryOk rm e)
    (hres : ∀ x ∈ rm.sharers e, Agree (rm.res x) (rm'.res x))
    (hlist : ∀ h, (rm.res e).rSharehead = some h → rm'.sharelist h = rm.sharelist h)
    (hbrk : rm.brk ≤ rm'.brk) (hnew : ∀ x ∈ rm.sharers e, x ≠ e → x ∉ rm'.rmList) :
    EntryOk rm' e ∧ rm'.sharers e = rm.sharers e := by
  have hself := hres e he.self_mem
  have hsharers : rm'.sharers e = rm.sharers e := by
    cases hs : (rm.res e).rSharehead with
    | none => rw [sharers_none hs, sharers_none (hself.head.trans hs)]
    | some h => rw [sharers_some hs, sharers_some (hself.head.trans hs), hlist h hs]
  refine ⟨⟨lt_of_lt_of_le he.lt_brk hbrk, fun h hh => ?_⟩, hsharers⟩
  have hs : (rm.res e).rSharehead = some h := hself.head.symm.trans hh
  have hok := he.share h hs
  have hl := hlist h hs
  rw [sharers_some hs] at hres hnew
  exact {
    allocated := hself.allocated.2 hok.allocated
    first := hself.first.2 hok.first
    lt_brk := lt_of_lt_of_le hok.lt_brk hbrk
    nodup := by rw [hl]; exact hok.nodup
    two := by rw [hl]; exact hok.two
    self := by rw [hl]; exact hok.self
    member := by
      rw [hl]
      intro x hx
      obtain ⟨h1, h2, h3, h4⟩ := hok.member x hx
      have hax := hres x hx
      exact ⟨lt_of_lt_of_le h1 hbrk, hax.head.trans h2,
        hax.seg.trans (h3.trans hself.seg.symm), hax.allocated.2 h4⟩
    other := by
      rw [hl]
      intro x hx hne
      exact ⟨hnew x hx hne, fun hf => (hok.other x hx hne).2 ((hres x hx).first.1 hf)⟩ }

/-- `rm'` comes from `rm` by putting the entries `M` in place of the consecutive entries `E`, with
    changes to the sharers of `E` and to new cells only. -/
structure Splice (rm rm' : Rman) (l₁ E M l₂ : List ℕ) : Prop where
  before : rm.rmList = l₁ ++ E ++ l₂
  after : rm'.rmList = l₁ ++ M ++ l₂
  brk : rm.brk ≤ rm'.brk
  res : ∀ x < rm.brk, (∀ e ∈ E, x ∉ rm.sharers e) → rm'.res x = rm.res x
  list : ∀ h < rm.brk, (∀ e ∈ E, (rm.res e).rSharehead ≠ some h) →
    rm'.sharelist h = rm.sharelist h
  new : ∀ x ∈ M, (∃ e ∈ E, x ∈ rm.sharers e) ∨ rm.brk ≤ x
  nodup : M.Nodup
  entry : ∀ x ∈ M, EntryOk rm' x

namespace Splice

variable {s : Sys} {rm' : Rman} {l₁ E M l₂ : List ℕ}

theorem mem_of_rest (hs : Splice s.rm rm' l₁ E M l₂) {a : ℕ} (ha : a ∈ l₁ ++ l₂) :
    a ∈ s.rm.rmList := by
  rw [hs.before]
  simp only [mem_append] at ha ⊢; tauto

theorem mem_of_old (hs : Splice s.rm rm' l₁ E M l₂) {e : ℕ} (he : e ∈ E) :
    e ∈ s.rm.rmList := by
  rw [hs.before]; simp [he]

/-- The entries around the spliced part are not among it. -/
theorem not_mem_old (hs : Splice s.rm rm' l₁ E M l₂) (hI : Inv s) {a : ℕ} (ha : a ∈ l₁ ++ l₂) :
    a ∉ E := by
  have hn := hI.nodup
  rw [hs.before] at hn
  intro he
  rcases mem_append.1 ha with h1 | h2
  · exact disjoint_of_nodup_append (List.Nodup.of_append_left hn) h1 he
  · exact disjoint_of_nodup_append hn (mem_append_right l₁ he) h2

theorem not_sharer (hs : Splice s.rm rm' l₁ E M l₂) (hI : Inv s) {a x : ℕ} (ha : a ∈ l₁ ++ l₂)
    (hx : x ∈ s.rm.sharers a) {e : ℕ} (he : e ∈ E) : x ∉ s.rm.sharers e := fun hxe =>
  hs.not_mem_old hI ha
    ((hI.entry a (hs.mem_of_rest ha)).unique (hI.entry e (hs.mem_of_old he)) (hs.mem_of_rest ha)
      hx hxe ▸ he)

theorem res_eq (hs : Splice s.rm rm' l₁ E M l₂) (hI : Inv s) {a x : ℕ} (ha : a ∈ l₁ ++ l₂)
    (hx : x ∈ s.rm.sharers a) : rm'.res x = s.rm.res x :=
  hs.res x ((hI.entry a (hs.mem_of_rest ha)).sharer_lt hx) fun _ he => hs.not_sharer hI ha hx he

/-- The entries around the spliced part stay as they were. -/
theorem rest (hs : Splice s.rm rm' l₁ E M l₂) (hI : Inv s) {a : ℕ} (ha : a ∈ l₁ ++ l₂) :
    EntryOk rm' a ∧ rm'.sharers a = s.rm.sharers a := by
  have hok := hI.entry a (hs.mem_of_rest ha)
  refine hok.frame (fun x hx => by rw [hs.res_eq hI ha hx]; exact Agree.refl _) ?_ hs.brk ?_
  · intro h hh
    refine hs.list h (hok.share h hh).lt_brk fun e he hhe => ?_
    have hae : a ∈ s.rm.sharers e := by rw [sharers_some hhe]; exact (hok.share h hh).self
    exact hs.not_sharer hI ha hok.self_mem he hae
  · intro x hx hne hmem
    rw [hs.after] at hmem
    have hnot := hok.sharer_not_mem hx hne
    rw [hs.before] at hnot
    simp only [mem_append] at hnot hmem
    have hM : x ∈ M := by tauto
    rcases hs.new x hM with ⟨e, he, hxe⟩ | hge
    · exact hs.not_sharer hI ha hx he hxe
    · have := hok.sharer_lt hx; omega

theorem segs (hs : Splice s.rm rm' l₁ E M l₂) (hI : Inv s) :
    rm'.segs = (l₁.map fun a => (s.rm.res a).seg) ++ (M.map fun a => (rm'.res a).seg) ++
      l₂.map fun a => (s.rm.res a).seg := by
  have hrest : ∀ a ∈ l₁ ++ l₂, (rm'.res a).seg = (s.rm.res a).seg := fun a ha => by
    rw [hs.res_eq hI ha (hI.entry a (hs.mem_of_rest ha)).self_mem]
  rw [Rman.segs, hs.after, map_append, map_append,
    map_congr_left fun a ha => hrest a (mem_append_left l₂ ha),
    map_congr_left (l := l₂) fun a ha => hrest a (mem_append_right l₁ ha)]

theorem list_nodup (hs : Splice s.rm rm' l₁ E M l₂) (hI : Inv s) : rm'.rmList.Nodup := by
  have hn := hI.nodup
  have hdisj : ∀ x ∈ M, x ∉ l₁ ++ l₂ := by
    intro x hM hx
    have hlist := hs.mem_of_rest hx
    rcases hs.new x hM with ⟨e, he, hxe⟩ | hge
    · have hne : x ≠ e := fun h => hs.not_mem_old hI hx (h ▸ he)
      exact (hI.entry e (hs.mem_of_old he)).sharer_not_mem hxe hne hlist
    · have := (hI.entry x hlist).lt_brk; omega
  rw [hs.before] at hn
  rw [hs.after, nodup_append, nodup_append]
  rw [nodup_append, nodup_append] at hn
  obtain ⟨⟨h1, -, -⟩, h2, h12⟩ := hn
  refine ⟨⟨h1, hs.nodup, ?_⟩, h2, ?_⟩
  · rintro a ha b hb rfl; exact hdisj a hb (mem_append_left l₂ ha)
  · intro a ha b hb hab
    rcases mem_append.1 ha with ha | ha
    · exact h12 a (mem_append_left E ha) b hb hab
    · exact hdisj a ha (hab ▸ mem_append_right l₁ hb)

/-- The invariant after a splice: the new entries lie in order inside the hull of the old ones, and
    what the clients hold is where it was or among the sharers of a new entry. -/
theorem inv (hs : Splice s.rm rm' l₁ E M l₂) (hI : Inv s)
    (hord : Ordered (M.map fun a => (rm'.res a).seg))
    (hlo : ∀ b ∈ M, ∃ a ∈ E, (s.rm.res a).seg.1 ≤ (rm'.res b).seg.1)
    (hhi : ∀ b ∈ M, ∃ a ∈ E, (rm'.res b).seg.2 ≤ (s.rm.res a).seg.2)
    {held' : List (ℕ × BitVec 32)} (hnodup : (held'.map Prod.fst).Nodup)
    (hheld : ∀ r ∈ held'.map Prod.fst,
      (r ∈ s.held.map Prod.fst ∧ ∀ e ∈ E, r ∉ s.rm.sharers e) ∨
        ∃ e ∈ M, (rm'.res e).has rfAllocated ∧ r ∈ rm'.sharers e) :
    Inv { rm := rm', held := held' } where
  ordered := by
    have hsegs : Ordered s.rm.segs := hI.ordered
    rw [Rman.segs, hs.before, map_append, map_append] at hsegs
    show Ordered rm'.segs
    rw [hs.segs hI]
    refine hsegs.replace hord ?_ ?_
    · intro b hb
      obtain ⟨x, hx, rfl⟩ := mem_map.1 hb
      obtain ⟨a, ha, hle⟩ := hlo x hx
      exact ⟨_, mem_map.2 ⟨a, ha, rfl⟩, hle⟩
    · intro b hb
      obtain ⟨x, hx, rfl⟩ := mem_map.1 hb
      obtain ⟨a, ha, hle⟩ := hhi x hx
      exact ⟨_, mem_map.2 ⟨a, ha, rfl⟩, hle⟩
  nodup := hs.list_nodup hI
  entry := by
    intro e he
    have he' : e ∈ rm'.rmList := he
    rw [hs.after] at he'
    by_cases hM : e ∈ M
    · exact hs.entry e hM
    · refine (hs.rest hI ?_).1
      simp only [mem_append] at he' ⊢; tauto
  held_nodup := hnodup
  held := by
    intro r hr
    rcases hheld r hr with ⟨hold, hnot⟩ | ⟨e, he, hal, hre⟩
    · obtain ⟨e, he, hal, hre⟩ := hI.held r hold
      have hrest : e ∈ l₁ ++ l₂ := by
        have he' := he
        rw [hs.before] at he'
        have hE : e ∉ E := fun h => hnot e h hre
        simp only [mem_append] at he' ⊢; tauto
      refine ⟨e, ?_, ?_, ?_⟩
      · show e ∈ rm'.rmList
        rw [hs.after]
        simp only [mem_append] at hrest ⊢; tauto
      · show (rm'.res e).has rfAllocated
        rw [hs.res_eq hI hrest (hI.entry e he).self_mem]; exact hal
      · show r ∈ rm'.sharers e
        rw [(hs.rest hI hrest).2]; exact hre
    · refine ⟨e, ?_, hal, hre⟩
      show e ∈ rm'.rmList
      rw [hs.after]; simp [he]

end Splice

namespace Inv

variable {s : Sys}

theorem head_of_free (hI : Inv s) {e : ℕ} (he : e ∈ s.rm.rmList)
    (hfree : ¬ (s.rm.res e).has rfAllocated) : (s.rm.res e).rSharehead = none := by
  by_contra hne
  obtain ⟨h, hh⟩ := Option.ne_none_iff_exists'.1 hne
  exact hfree ((hI.entry e he).share h hh).allocated

theorem held_lt (hI : Inv s) {r : ℕ} (hr : r ∈ s.held.map Prod.fst) : r < s.rm.brk := by
  obtain ⟨e, he, -, hre⟩ := hI.held r hr
  exact (hI.entry e he).sharer_lt hre

theorem not_held_of_free (hI : Inv s) {e : ℕ} (he : e ∈ s.rm.rmList)
    (hfree : ¬ (s.rm.res e).has rfAllocated) : e ∉ s.held.map Prod.fst := by
  intro hr
  obtain ⟨e', he', hal, hre⟩ := hI.held e hr
  have heq : e = e' := by
    by_contra hne
    exact (hI.entry e' he').sharer_not_mem hre hne he
  exact hfree (heq ▸ hal)

theorem exists_split (hI : Inv s) {e : ℕ} (he : e ∈ s.rm.rmList) :
    ∃ l₁ l₂, s.rm.rmList = l₁ ++ e :: l₂ ∧ e ∉ l₁ ∧ e ∉ l₂ := by
  obtain ⟨l₁, l₂, hl⟩ := append_of_mem he
  have hn := hI.nodup
  rw [hl] at hn
  rw [nodup_append] at hn
  exact ⟨l₁, l₂, hl, fun h => hn.2.2 e h e (by simp) rfl, (nodup_cons.1 hn.2.1).1⟩

end Inv

/-- `rm'` comes from `rm` by changes to flags that the invariant does not read. -/
structure Reflag (rm rm' : Rman) : Prop where
  rmList : rm'.rmList = rm.rmList
  sharelist : rm'.sharelist = rm.sharelist
  brk : rm'.brk = rm.brk
  agree : ∀ x, Agree (rm.res x) (rm'.res x)

namespace Reflag

variable {rm rm' rm'' : Rman}

theorem refl (rm : Rman) : Reflag rm rm := ⟨rfl, rfl, rfl, fun _ => Agree.refl _⟩

theorem trans (h : Reflag rm rm') (h' : Reflag rm' rm'') : Reflag rm rm'' :=
  ⟨h'.rmList.trans h.rmList, h'.sharelist.trans h.sharelist, h'.brk.trans h.brk,
    fun x => (h.agree x).trans (h'.agree x)⟩

theorem update (rm : Rman) (r : ℕ) (f : Resource → Resource)
    (hf : Agree (rm.res r) (f (rm.res r))) : Reflag rm (rm.update r f) := by
  refine ⟨rfl, rfl, rfl, fun x => ?_⟩
  by_cases hx : x = r
  · subst hx; simpa [Rman.update] using hf
  · simpa [Rman.update, Function.update_of_ne hx] using Agree.refl _

theorem segs (h : Reflag rm rm') : rm'.segs = rm.segs := by
  rw [Rman.segs, h.rmList]; exact map_congr_left fun x _ => (h.agree x).seg

theorem sharers (h : Reflag rm rm') (e : ℕ) : rm'.sharers e = rm.sharers e := by
  rw [Rman.sharers, (h.agree e).head, h.sharelist, Rman.sharers]

theorem inv {s : Sys} (h : Reflag s.rm rm') (hI : Inv s) : Inv { s with rm := rm' } where
  ordered := by
    show Ordered rm'.segs
    rw [h.segs]; exact hI.ordered
  nodup := by
    show rm'.rmList.Nodup
    rw [h.rmList]; exact hI.nodup
  entry := by
    show ∀ e ∈ rm'.rmList, EntryOk rm' e
    rw [h.rmList]
    intro e he
    refine ((hI.entry e he).frame (fun x _ => h.agree x) (fun _ _ => by rw [h.sharelist])
      h.brk.ge fun x hx hne => ?_).1
    rw [h.rmList]; exact (hI.entry e he).sharer_not_mem hx hne
  held_nodup := hI.held_nodup
  held := by
    intro x hx
    obtain ⟨e, he, hal, hxe⟩ := hI.held x hx
    refine ⟨e, ?_, (h.agree e).allocated.2 hal, ?_⟩
    · show e ∈ rm'.rmList; rwa [h.rmList]
    · show x ∈ rm'.sharers e; rwa [h.sharers]

end Reflag

theorem has_setFlags (x : Resource) (g f : BitVec 32) :
    (x.setFlags g).has f ↔ x.has f ∨ g &&& f ≠ 0 :=
  and_or_ne_zero _ _ _

theorem has_clearFlags (x : Resource) (h : g &&& f = 0) : (x.clearFlags g).has f ↔ x.has f := by
  unfold Resource.has Resource.clearFlags
  rw [and_clear_of_disjoint h]

theorem Agree.setFlags (g : BitVec 32) (ha : g &&& rfAllocated = 0)
    (hf : g &&& rfFirstshare = 0) (x : Resource) : Agree x (x.setFlags g) where
  head := rfl
  seg := rfl
  allocated := by rw [has_setFlags]; tauto
  first := by rw [has_setFlags]; tauto

theorem Agree.clearFlags (g : BitVec 32) (ha : g &&& rfAllocated = 0)
    (hf : g &&& rfFirstshare = 0) (x : Resource) : Agree x (x.clearFlags g) where
  head := rfl
  seg := rfl
  allocated := has_clearFlags x ha
  first := has_clearFlags x hf

/-! ## Activation -/

theorem intRmanActivateResource_cases (rm : Rman) (r : ℕ) :
    intRmanActivateResource rm r = (rm.update r (·.setFlags rfActive), true) ∨
      intRmanActivateResource rm r = (rm, false) ∧ ∃ h, (rm.res r).rSharehead = some h := by
  unfold intRmanActivateResource
  dsimp only
  split
  · exact .inl rfl
  · next h hh =>
    split_ifs
    · exact .inl rfl
    · exact .inr ⟨rfl, h, hh⟩
    · exact .inl rfl

theorem intRmanActivateResource_reflag (rm : Rman) (r : ℕ) :
    Reflag rm (intRmanActivateResource rm r).1 := by
  rcases intRmanActivateResource_cases rm r with h | ⟨h, -⟩
  · rw [h]
    exact .update rm r (·.setFlags rfActive) (Agree.setFlags rfActive (by decide) (by decide) _)
  · rw [h]; exact .refl rm

theorem intRmanDeactivateResource_reflag (rm : Rman) (r : ℕ) :
    Reflag rm (intRmanDeactivateResource rm r) := by
  have h1 := Reflag.update rm r (·.clearFlags rfActive)
    (Agree.clearFlags rfActive (by decide) (by decide) _)
  unfold intRmanDeactivateResource
  dsimp only
  split_ifs
  · exact h1.trans (.update _ r (·.clearFlags rfWanted)
      (Agree.clearFlags rfWanted (by decide) (by decide) _))
  · exact h1

end FreeBSD.SubrRman
