import Mathlib.Tactic

/-!
# A list with a part written over

`patch bs off s` has `s` from position `off` on, which may extend the list.

Results:
* `getElem?_patch`: the entries.
* `patch_append`: what is written over a concatenation is written over its parts.
-/

namespace FreeBSD.Lib

open List

variable {α : Type*} {bs cs s : List α} {off : ℕ}

/-- `s` is written at `off`. -/
def patch (bs : List α) (off : ℕ) (s : List α) : List α :=
  bs.take off ++ s ++ bs.drop (off + s.length)

@[simp] theorem patch_nil (bs : List α) (off : ℕ) : patch bs off [] = bs := by
  unfold patch
  rw [append_nil, length_nil, add_zero, take_append_drop]

theorem length_patch (h : off ≤ bs.length) :
    (patch bs off s).length = max bs.length (off + s.length) := by
  unfold patch
  rw [length_append, length_append, length_take, length_drop]; omega

/-- The entries of the list, and those of `s`. -/
theorem getElem?_patch (h : off ≤ bs.length) (i : ℕ) :
    (patch bs off s)[i]? =
      if off ≤ i ∧ i < off + s.length then s[i - off]? else bs[i]? := by
  have htake : (bs.take off).length = off := by rw [length_take]; omega
  unfold patch
  rw [append_assoc]
  by_cases hlo : i < off
  · rw [List.getElem?_append_left (by omega), List.getElem?_take_of_lt hlo, if_neg (by omega)]
  · rw [List.getElem?_append_right (by omega), htake]
    by_cases hhi : i < off + s.length
    · rw [List.getElem?_append_left (by omega), if_pos ⟨by omega, hhi⟩]
    · rw [List.getElem?_append_right (by omega), List.getElem?_drop, if_neg (by omega)]
      congr 1
      omega

/-- What goes beyond the first list is written over the second. -/
theorem patch_append (h : off ≤ bs.length) :
    patch (bs ++ cs) off s =
      patch bs off (s.take (bs.length - off)) ++ patch cs 0 (s.drop (bs.length - off)) := by
  apply ext_getElem?
  intro i
  have hlen : (patch bs off (s.take (bs.length - off))).length = bs.length := by
    rw [length_patch h, length_take]; omega
  rw [getElem?_patch (by rw [length_append]; omega)]
  by_cases hi : i < bs.length
  · rw [List.getElem?_append_left hi, List.getElem?_append_left (by omega), getElem?_patch h,
      length_take]
    by_cases hin : off ≤ i ∧ i < off + s.length
    · rw [if_pos hin, if_pos (by omega), List.getElem?_take_of_lt (by omega)]
    · rw [if_neg hin, if_neg (by omega)]
  · rw [List.getElem?_append_right (by omega), List.getElem?_append_right (by omega), hlen,
      getElem?_patch (Nat.zero_le _), length_drop, List.getElem?_drop]
    by_cases hin : i < off + s.length
    · rw [if_pos ⟨by omega, hin⟩, if_pos (by omega)]
      congr 1
      omega
    · rw [if_neg (by omega), if_neg (by omega)]

/-- What is written behind the first list leaves it. -/
theorem patch_append_right (h : bs.length ≤ off) :
    patch (bs ++ cs) off s = bs ++ patch cs (off - bs.length) s := by
  have hdrop : off + s.length - bs.length = off - bs.length + s.length := by omega
  unfold patch
  rw [take_append, drop_append, take_of_length_le h,
    drop_of_length_le (by omega), nil_append, hdrop]
  simp only [append_assoc]

/-- All entries are written over. -/
theorem patch_zero_of_le (h : bs.length ≤ s.length) : patch bs 0 s = s := by
  unfold patch
  rw [take_zero, nil_append, drop_of_length_le (by omega), append_nil]

/-- Entries behind `off` that are written over do not matter. -/
theorem patch_append_covered (h : off = bs.length) (hc : cs.length ≤ s.length) :
    patch (bs ++ cs) off s = patch bs off s := by
  rw [patch_append_right h.ge, h, Nat.sub_self, patch_zero_of_le hc]
  unfold patch
  rw [take_length, drop_of_length_le (by omega), append_nil]

end FreeBSD.Lib
