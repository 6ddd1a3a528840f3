import Mathlib.Data.List.TakeWhile
import Mathlib.Tactic

/-!
# A list that is scanned by a cursor

A scan keeps the element it looks at next. While the scan waits, elements are appended and removed,
and the cursor moves on when its own element is removed.

Results:
* `mem_ahead_after`, `mem_ahead_erase`, `mem_ahead_erase_self`, `mem_ahead_append`: what was ahead
  of the cursor and is still in the list stays ahead of it.
-/

namespace FreeBSD.Lib

open List

variable {α : Type*} [DecidableEq α] {l p q : List α} {c d x : α} {cur : Option α}

/-- What is ahead of the cursor, with the element it is at. -/
def ahead (l : List α) : Option α → List α
  | none => []
  | some c => l.dropWhile (· ≠ c)

/-- The element that follows `c`. -/
def after (l : List α) (c : α) : Option α := (ahead l (some c)).tail.head?

theorem ahead_split (hp : c ∉ p) : ahead (p ++ c :: q) (some c) = c :: q := by
  have hpos : ∀ x ∈ p, decide (x ≠ c) = true := fun x hx => decide_eq_true fun h => hp (h ▸ hx)
  rw [ahead, dropWhile_append_of_pos hpos, dropWhile_cons_of_neg (by simp)]

theorem after_split (hp : c ∉ p) : after (p ++ c :: q) c = q.head? := by
  rw [after, ahead_split hp, tail_cons]

@[simp] theorem ahead_head (l : List α) : ahead l l.head? = l := by
  cases l with
  | nil => rfl
  | cons c q => exact ahead_split (not_mem_nil (a := c))

theorem ahead_of_notMem (hc : c ∉ l) : ahead l (some c) = [] :=
  dropWhile_eq_nil_iff.2 fun _ hx => decide_eq_true fun h => hc (h ▸ hx)

omit [DecidableEq α] in
/-- A list with `c` in it, and none of it before. -/
theorem split_at (hc : c ∈ l) : ∃ p q, l = p ++ c :: q ∧ c ∉ p := by
  obtain ⟨p, q, hl, hp⟩ := eq_append_cons_of_mem hc
  exact ⟨p, q, hl, hp⟩

theorem mem_of_after (h : after l c = some d) : d ∈ l :=
  (dropWhile_sublist _).subset (mem_of_mem_tail (mem_of_mem_head? h))

theorem ahead_after (hl : l.Nodup) (hc : c ∈ l) :
    ahead l (some c) = c :: ahead l (after l c) := by
  obtain ⟨p, q, rfl, hp⟩ := split_at hc
  rw [ahead_split hp, after_split hp]
  cases q with
  | nil => rfl
  | cons d q =>
    have hd : d ∉ p ++ [c] := by
      intro hd
      have hl' : (p ++ [c] ++ d :: q).Nodup := by simpa using hl
      exact (disjoint_of_nodup_append hl') hd mem_cons_self
    have hsplit : p ++ c :: d :: q = p ++ [c] ++ d :: q := by simp
    rw [List.head?_cons, hsplit, ahead_split hd]

theorem mem_ahead_after (hl : l.Nodup) (hc : c ∈ l) (h : x ∈ ahead l (some c)) (hx : x ≠ c) :
    x ∈ ahead l (after l c) := by
  rw [ahead_after hl hc] at h; exact (mem_cons.1 h).resolve_left hx

theorem after_ne (hl : l.Nodup) (hc : c ∈ l) : after l c ≠ some c := by
  intro h
  have hahead := ahead_after hl hc
  rw [h] at hahead; exact absurd (congrArg List.length hahead) (by simp)

theorem mem_ahead_erase (hx : x ∈ ahead l cur) (hxc : x ≠ c) (hcur : cur ≠ some c) :
    x ∈ ahead (l.erase c) cur := by
  cases cur with
  | none => exact absurd hx not_mem_nil
  | some d =>
    have hdc : d ≠ c := fun h => hcur (congrArg some h)
    have hd : d ∈ l := by
      by_contra hd
      exact absurd (ahead_of_notMem hd ▸ hx) not_mem_nil
    obtain ⟨p, q, rfl, hp⟩ := split_at hd
    rw [ahead_split hp] at hx
    by_cases hcp : c ∈ p
    · rw [erase_append_left _ hcp, ahead_split fun h => hp (mem_of_mem_erase h)]; exact hx
    · rw [erase_append_right _ hcp, erase_cons_tail (by simpa using hdc), ahead_split hp]
      rcases mem_cons.1 hx with rfl | hx
      · exact mem_cons_self
      · exact mem_cons_of_mem _ ((mem_erase_of_ne hxc).2 hx)

theorem mem_ahead_erase_self (hl : l.Nodup) (hc : c ∈ l) (hx : x ∈ ahead l (some c)) (hxc : x ≠ c) :
    x ∈ ahead (l.erase c) (after l c) :=
  mem_ahead_erase (mem_ahead_after hl hc hx hxc) hxc (after_ne hl hc)

theorem mem_ahead_append (hx : x ∈ ahead l cur) : x ∈ ahead (l ++ [d]) cur := by
  cases cur with
  | none => exact absurd hx not_mem_nil
  | some c =>
    by_cases hc : c ∈ l
    · obtain ⟨p, q, rfl, hp⟩ := split_at hc
      rw [append_assoc, cons_append, ahead_split hp]
      rw [ahead_split hp] at hx
      rcases mem_cons.1 hx with rfl | hx
      · exact mem_cons_self
      · exact mem_cons_of_mem _ (mem_append_left _ hx)
    · exact absurd (ahead_of_notMem hc ▸ hx) not_mem_nil

/-- A cursor that is in the list and not removed stays in it. -/
theorem cursor_erase (hcur : ∀ d, cur = some d → d ∈ l) (hc : cur ≠ some c) :
    ∀ d, cur = some d → d ∈ l.erase c := by
  rintro d rfl
  exact (mem_erase_of_ne fun h => hc (congrArg some h)).2 (hcur d rfl)

theorem after_mem_erase (hl : l.Nodup) (hc : c ∈ l) :
    ∀ d, after l c = some d → d ∈ l.erase c :=
  cursor_erase (fun _ => mem_of_after) (after_ne hl hc)

end FreeBSD.Lib
