import Mathlib.Tactic

/-!
# Lists with removal by swapping

An array whose order does not matter is cut by moving its last entry to the place of the removed
one: `swapDelete`.

Results:
* `swapDelete_perm`: the list is the removed entry and the rest, in some order.
* `set_perm`: an assignment puts the new entry to the same rest.
* `exists_find`: an entry that `find?` gives, at the index that `findIdx` gives.
-/

namespace FreeBSD.Lib

open List

variable {α : Type*}

/-- The removal of entry `i`: the last entry takes its place. -/
def swapDelete (l : List α) (i : ℕ) : List α :=
  match l.getLast? with
  | none => l
  | some e => (l.set i e).dropLast

theorem swapDelete_perm_eraseIdx {l : List α} {i : ℕ} (hi : i < l.length) :
    (swapDelete l i).Perm (l.eraseIdx i) := by
  induction l using List.reverseRecOn with
  | nil => simp at hi
  | append_singleton init e _ =>
    have hlast : (init ++ [e]).getLast? = some e := by simp
    simp only [swapDelete, hlast]
    rcases lt_or_ge i init.length with hlt | hge
    · rw [set_append_left _ _ hlt, dropLast_concat, eraseIdx_append_of_lt_length hlt]
      refine (set_perm_cons_eraseIdx hlt e).trans ?_
      show ([e] ++ init.eraseIdx i).Perm (init.eraseIdx i ++ [e])
      exact perm_append_comm
    · obtain rfl : i = init.length := by simp at hi; omega
      rw [set_append_right _ _ le_rfl, Nat.sub_self, eraseIdx_append_of_length_le le_rfl]
      simp

/-- The list is the removed entry and the rest. -/
theorem swapDelete_perm {l : List α} {i : ℕ} (hi : i < l.length) :
    l.Perm (l[i] :: swapDelete l i) :=
  (getElem_cons_eraseIdx_perm hi).symm.trans ((swapDelete_perm_eraseIdx hi).symm.cons _)

/-- An assignment leaves the rest. -/
theorem set_perm {l : List α} {i : ℕ} (hi : i < l.length) (b : α) :
    (l.set i b).Perm (b :: swapDelete l i) :=
  (set_perm_cons_eraseIdx hi b).trans ((swapDelete_perm_eraseIdx hi).symm.cons _)

theorem length_swapDelete {l : List α} {i : ℕ} (hi : i < l.length) :
    (swapDelete l i).length = l.length - 1 := by
  have := (swapDelete_perm hi).length_eq
  simp only [length_cons] at this; omega

/-- The entries in front stay in their places. -/
theorem getElem?_swapDelete {l : List α} {i j : ℕ} (hi : i < l.length) (hj : j < i) :
    (swapDelete l i)[j]? = l[j]? := by
  have hlast : l.getLast? ≠ none := by
    rw [Ne, List.getLast?_eq_none_iff]
    rintro rfl
    simp at hi
  cases hl : l.getLast? with
  | none => exact absurd hl hlast
  | some e =>
    simp only [swapDelete, hl]
    rw [List.getElem?_dropLast, length_set, if_pos (by omega), List.getElem?_set_ne (by omega)]

/-- An entry that `find?` gives stands at the index that `findIdx` gives. -/
theorem exists_find {l : List α} {p : α → Bool} {a : α} (h : l.find? p = some a) :
    ∃ hi : l.findIdx p < l.length, l[l.findIdx p] = a ∧ p a := by
  have hp := List.find?_some h
  have hi : l.findIdx p < l.length := findIdx_lt_length.2 ⟨a, mem_of_find?_eq_some h, hp⟩
  refine ⟨hi, ?_, hp⟩
  rw [List.find?_eq_getElem?_findIdx] at h; simpa [List.getElem?_eq_getElem hi] using h

end FreeBSD.Lib
