import Mathlib.Data.List.Pairwise
import Mathlib.Data.List.Nodup
import Mathlib.Order.Compare
import Mathlib.Tactic

/-!
# Lists in the order of a comparison

A comparison `cmp` orders elements by something that is part of them, so that two elements may
compare as equal and yet be different. `Ascending cmp l` says that the list is strictly ascending.

Results:
* `Ascending.insertBy`, `mem_insertBy`: an element is put in its place.
* `Ascending.split`: around an element, those before it and those after it.
* `nextIn_append`: the element after another.
-/

namespace FreeBSD.Lib

open List

variable {α : Type*} {cmp : α → α → Ordering} {l xs ys : List α} {a b e : α}

/-- Every element compares as less than those after it. -/
def Ascending (cmp : α → α → Ordering) (l : List α) : Prop :=
  l.Pairwise fun a b => cmp a b = .lt

/-- The element in its place among those that do not compare as equal to it. -/
def insertBy (cmp : α → α → Ordering) (e : α) (l : List α) : List α :=
  l.filter (fun a => cmp e a == .gt) ++ e :: l.filter fun a => cmp e a == .lt

/-- The list without what compares as equal to the element. -/
def eraseBy (cmp : α → α → Ordering) (e : α) (l : List α) : List α :=
  l.filter fun a => cmp e a != .eq

/-- What compares as equal to the element. -/
def findBy (cmp : α → α → Ordering) (e : α) (l : List α) : Option α :=
  l.find? fun a => cmp e a == .eq

/-- The element after `e`. -/
def nextIn [DecidableEq α] (e : α) (l : List α) : Option α :=
  (l.dropWhile fun a => a != e).tail.head?

theorem nextIn_append [DecidableEq α] (h : e ∉ xs) : nextIn e (xs ++ e :: ys) = ys.head? := by
  unfold nextIn
  rw [dropWhile_append_of_pos fun a ha => by
    simpa using fun heq : a = e => h (heq ▸ ha)]
  simp

theorem ascending_nil : Ascending cmp ([] : List α) := List.Pairwise.nil

theorem ascending_append :
    Ascending cmp (xs ++ ys) ↔
      Ascending cmp xs ∧ Ascending cmp ys ∧ ∀ a ∈ xs, ∀ b ∈ ys, cmp a b = .lt :=
  pairwise_append

theorem ascending_cons :
    Ascending cmp (e :: l) ↔ (∀ b ∈ l, cmp e b = .lt) ∧ Ascending cmp l :=
  pairwise_cons

theorem Ascending.sublist (h : Ascending cmp ys) (hsub : xs.Sublist ys) : Ascending cmp xs :=
  List.Pairwise.sublist hsub h

/-- The element goes between those before its place and those after it. -/
theorem insertBy_of_place (hxs : ∀ a ∈ xs, cmp e a = .gt) (hys : ∀ a ∈ ys, cmp e a = .lt) :
    insertBy cmp e (xs ++ ys) = xs ++ e :: ys := by
  have hxs' : ∀ a ∈ xs, (cmp e a == .gt) = true ∧ (cmp e a == .lt) = false := fun a ha => by
    simp [hxs a ha]
  have hys' : ∀ a ∈ ys, (cmp e a == .gt) = false ∧ (cmp e a == .lt) = true := fun a ha => by
    simp [hys a ha]
  unfold insertBy
  rw [filter_append, filter_append,
    filter_eq_self.2 fun a ha => (hxs' a ha).1,
    filter_eq_nil_iff.2 fun a ha => by simp [(hys' a ha).1],
    filter_eq_nil_iff.2 fun a ha => by simp [(hxs' a ha).2],
    filter_eq_self.2 fun a ha => (hys' a ha).2, append_nil, nil_append]

theorem length_insertBy_le : (insertBy cmp e l).length ≤ l.length + 1 := by
  have hgt : (l.filter fun a => cmp e a == .gt).length +
      (l.filter fun a => cmp e a == .lt).length ≤ l.length := by
    induction l with
    | nil => simp
    | cons b l ih =>
      cases hb : cmp e b <;> simp [hb] <;> omega
  rw [insertBy, length_append, length_cons]; omega

theorem Ascending.eraseBy (h : Ascending cmp l) : Ascending cmp (eraseBy cmp e l) :=
  h.sublist filter_sublist

theorem findBy_of_ne (h : ∀ a ∈ l, cmp e a ≠ .eq) : findBy cmp e l = none :=
  List.find?_eq_none.2 fun a ha => by simp [h a ha]

section Trans

variable [Std.TransCmp cmp]

theorem cmp_gt_iff : cmp a b = .gt ↔ cmp b a = .lt := Std.OrientedCmp.gt_iff_lt

theorem Ascending.ne (h : Ascending cmp (xs ++ e :: ys)) : ∀ a ∈ xs ++ ys, a ≠ e := by
  have hself : cmp e e = .eq := Std.ReflCmp.compare_self
  rw [ascending_append, ascending_cons] at h
  intro a ha heq
  subst heq
  rcases mem_append.1 ha with ha | ha
  · rw [h.2.2 a ha a (mem_cons_self ..)] at hself
    cases hself
  · rw [h.2.1.1 a ha] at hself
    cases hself

theorem Ascending.nodup (h : Ascending cmp l) : l.Nodup := by
  refine List.Pairwise.imp (fun {a b} hab heq => ?_) h
  subst heq
  have hself : cmp a a = .eq := Std.ReflCmp.compare_self
  rw [hself] at hab
  cases hab

/-- Those before an element come before it in the comparison, and those after it after it. -/
theorem Ascending.split (h : Ascending cmp (xs ++ b :: ys)) (hb : cmp e b = .eq) :
    (∀ a ∈ xs, cmp e a = .gt) ∧ ∀ a ∈ ys, cmp e a = .lt := by
  rw [ascending_append, ascending_cons] at h
  obtain ⟨-, ⟨hys, -⟩, hxs⟩ := h
  refine ⟨fun a ha => ?_, fun a ha => ?_⟩
  · rw [cmp_gt_iff, ← Std.TransCmp.congr_right (Std.OrientedCmp.eq_symm hb)]
    exact hxs a ha b (mem_cons_self ..)
  · rw [Std.TransCmp.congr_left hb]; exact hys a ha

theorem ascending_of_place (h : Ascending cmp (xs ++ ys)) (hxs : ∀ a ∈ xs, cmp e a = .gt)
    (hys : ∀ a ∈ ys, cmp e a = .lt) : Ascending cmp (xs ++ e :: ys) := by
  rw [ascending_append] at h ⊢
  rw [ascending_cons]
  refine ⟨h.1, ⟨hys, h.2.1⟩, fun a ha b hb => ?_⟩
  rcases mem_cons.1 hb with rfl | hb
  · exact cmp_gt_iff.1 (hxs a ha)
  · exact h.2.2 a ha b hb

theorem Ascending.insertBy (h : Ascending cmp l) : Ascending cmp (insertBy cmp e l) := by
  have hsub : ∀ o, Ascending cmp (l.filter fun a => cmp e a == o) := fun o =>
    h.sublist (filter_sublist)
  unfold Lib.insertBy
  rw [ascending_append, ascending_cons]
  refine ⟨hsub .gt, ⟨fun b hb => ?_, hsub .lt⟩, fun a ha b hb => ?_⟩
  · simpa using (mem_filter.1 hb).2
  · have hea : cmp a e = .lt := by
      rw [← cmp_gt_iff]; simpa using (mem_filter.1 ha).2
    rcases mem_cons.1 hb with rfl | hb
    · exact hea
    · exact Std.TransCmp.lt_trans hea (by simpa using (mem_filter.1 hb).2)

/-- Taking out what compares as equal to one of the elements leaves the others. -/
theorem eraseBy_split (h : Ascending cmp (xs ++ b :: ys)) (hb : cmp e b = .eq) :
    eraseBy cmp e (xs ++ b :: ys) = xs ++ ys := by
  obtain ⟨hxs, hys⟩ := h.split hb
  unfold eraseBy
  rw [filter_append, filter_cons_of_neg (p := fun a => cmp e a != .eq) (by simp [hb]),
    filter_eq_self.2 fun a ha => by simp [hxs a ha],
    filter_eq_self.2 fun a ha => by simp [hys a ha]]

theorem findBy_split (h : Ascending cmp (xs ++ b :: ys)) (hb : cmp e b = .eq) :
    findBy cmp e (xs ++ b :: ys) = some b := by
  obtain ⟨hxs, -⟩ := h.split hb
  unfold findBy
  rw [List.find?_append, List.find?_eq_none.2 fun a ha => by simp [hxs a ha]]
  simp [hb]

/-- Just the member that compares as equal is found. -/
theorem Ascending.findBy_iff (h : Ascending cmp l) :
    findBy cmp e l = some a ↔ a ∈ l ∧ cmp e a = .eq := by
  constructor
  · intro ha
    unfold findBy at ha; exact ⟨mem_of_find?_eq_some ha, by simpa using List.find?_some ha⟩
  · rintro ⟨hmem, ha⟩
    obtain ⟨xs, ys, rfl⟩ := append_of_mem hmem
    exact findBy_split h ha

theorem nextIn_split [DecidableEq α] (h : Ascending cmp (xs ++ e :: ys)) :
    nextIn e (xs ++ e :: ys) = ys.head? :=
  nextIn_append fun hmem => h.ne e (mem_append_left _ hmem) rfl

end Trans

end FreeBSD.Lib
