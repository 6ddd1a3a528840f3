import Mathlib.Data.List.Sort
import FreeBSD.Lib.Ascending

/-!
# Queues in order of priority

A new element goes in front of the first one with a greater number, so behind those with the same
number. The queue comes in two parts, `xs` in front of `ys`.

Results:
* `Sorted.insert`: an insertion keeps the order.
* `insert_append_of_le`, `insert_append_of_lt`: the part that an insertion goes to.
* `prevIn_append`, `erase_append`: what is around an element, and what is left without it.
-/

namespace FreeBSD.Lib.SplitQueue

open List

variable {α : Type*} {pri : α → ℕ} {l xs ys : List α} {a b : α}

/-- The numbers do not decrease. -/
def Sorted (pri : α → ℕ) (l : List α) : Prop := l.Pairwise fun a b => pri a ≤ pri b

/-- The queue with the element in front of the first one with a greater number. -/
def insert (pri : α → ℕ) (a : α) (l : List α) : List α :=
  l.orderedInsert (fun a b => pri a < pri b) a

/-- The element in front of `a`. -/
def prevIn [DecidableEq α] (a : α) (l : List α) : Option α :=
  (l.takeWhile fun b => b != a).getLast?

theorem insert_perm (pri : α → ℕ) (a : α) (l : List α) : (insert pri a l).Perm (a :: l) :=
  perm_orderedInsert _ a l

theorem insert_cons_of_lt (h : pri a < pri b) : insert pri a (b :: l) = a :: b :: l :=
  orderedInsert_cons_of_le _ l h

theorem insert_cons_of_le (h : pri b ≤ pri a) : insert pri a (b :: l) = b :: insert pri a l :=
  orderedInsert_of_not_le _ l (not_lt.2 h)

/-- An insertion keeps the order. -/
theorem Sorted.insert (h : Sorted pri l) (a : α) : Sorted pri (insert pri a l) := by
  induction l with
  | nil => exact pairwise_singleton _ a
  | cons b l ih =>
    obtain ⟨hb, hl⟩ := pairwise_cons.1 h
    rcases lt_or_ge (pri a) (pri b) with hlt | hge
    · rw [insert_cons_of_lt hlt]
      refine pairwise_cons.2 ⟨fun c hc => ?_, h⟩
      rcases mem_cons.1 hc with rfl | hc
      · exact hlt.le
      · exact hlt.le.trans (hb c hc)
    · rw [insert_cons_of_le hge]
      refine pairwise_cons.2 ⟨fun c hc => ?_, ih hl⟩
      rcases mem_cons.1 ((insert_perm pri a l).mem_iff.1 hc) with rfl | hc
      · exact hge
      · exact hb c hc

/-- Behind elements whose numbers are not greater. -/
theorem insert_append_of_le (h : ∀ b ∈ xs, pri b ≤ pri a) :
    insert pri a (xs ++ ys) = xs ++ insert pri a ys := by
  induction xs with
  | nil => rfl
  | cons b xs ih =>
    rw [cons_append, insert_cons_of_le (h b (mem_cons_self ..)),
      ih fun c hc => h c (mem_cons_of_mem _ hc), cons_append]

/-- In front of an element whose number is greater. -/
theorem insert_append_of_lt (hb : b ∈ xs) (h : pri a < pri b) :
    insert pri a (xs ++ ys) = insert pri a xs ++ ys := by
  induction xs with
  | nil => cases hb
  | cons c xs ih =>
    rcases lt_or_ge (pri a) (pri c) with hlt | hge
    · rw [cons_append, insert_cons_of_lt hlt, insert_cons_of_lt hlt]; rfl
    · rcases mem_cons.1 hb with rfl | hb
      · omega
      · rw [cons_append, insert_cons_of_le hge, insert_cons_of_le hge, ih hb]; rfl

theorem getLast?_insert_of_lt (hb : xs.getLast? = some b) (h : pri a < pri b) :
    (insert pri a xs).getLast? = some b := by
  induction xs with
  | nil => cases hb
  | cons c xs ih =>
    rcases lt_or_ge (pri a) (pri c) with hlt | hge
    · rw [insert_cons_of_lt hlt, List.getLast?_cons_cons]; exact hb
    · rw [insert_cons_of_le hge]
      cases xs with
      | nil =>
        have hcb : c = b := by simpa using hb
        rw [hcb] at hge; omega
      | cons e xs =>
        rw [List.getLast?_cons_cons] at hb
        have hlast := ih hb
        cases hins : insert pri a (e :: xs) with
        | nil =>
          rw [hins] at hlast
          cases hlast
        | cons e' xs' =>
          rw [hins] at hlast
          rw [List.getLast?_cons_cons]; exact hlast

theorem Sorted.le_last (h : Sorted pri xs) (hb : xs.getLast? = some b) (ha : a ∈ xs) :
    pri a ≤ pri b := by
  obtain ⟨zs, rfl⟩ := List.getLast?_eq_some_iff.1 hb
  rcases mem_append.1 ha with ha | ha
  · exact (pairwise_append.1 h).2.2 a ha b (mem_singleton.2 rfl)
  · rw [mem_singleton.1 ha]

section

variable [DecidableEq α]

theorem prevIn_append (h : a ∉ xs) : prevIn a (xs ++ a :: ys) = xs.getLast? := by
  unfold prevIn
  rw [takeWhile_append_of_pos fun b hb => by
    simpa using fun heq : b = a => h (heq ▸ hb)]
  simp

/-- What is left without an element. -/
theorem erase_append (h : a ∉ xs) : (xs ++ a :: ys).erase a = xs ++ ys := by
  rw [erase_append_right _ h, erase_cons_head]

/-- The last element stays, if it is another one that goes. -/
theorem getLast?_erase (h : l.getLast? ≠ some a) : (l.erase a).getLast? = l.getLast? := by
  by_cases ha : a ∈ l
  · obtain ⟨xs, ys, hnot, rfl, herase⟩ := exists_erase_eq ha
    rw [herase]
    cases hy : ys.getLast? with
    | none =>
      rw [List.getLast?_eq_none_iff] at hy
      subst hy; simp at h
    | some b => simp [List.getLast?_append, List.getLast?_cons, hy]
  · rw [erase_of_not_mem ha]

/-- In a queue without repetitions an element goes from one of the two parts. -/
theorem erase_parts (h : (xs ++ ys).Nodup) : (xs ++ ys).erase a = xs.erase a ++ ys.erase a := by
  by_cases ha : a ∈ xs
  · have hnot : a ∉ ys := fun hmem => (nodup_append.1 h).2.2 a ha a hmem rfl
    rw [erase_append_left _ ha, erase_of_not_mem hnot]
  · rw [erase_append_right _ ha, erase_of_not_mem ha]

end

end FreeBSD.Lib.SplitQueue
