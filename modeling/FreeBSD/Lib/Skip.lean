import Mathlib.Tactic

/-!
# Numbering what is left when points are left out

From a sequence of numbers the points `ks` are left out, each of width `d`: `skip d ks` moves a
number on by `d` past each of them, one after the other. An interval that begins at `x` is cut where
the next of the points lies.

Results:
* `skip_strictMono`: different numbers stay different.
* `skip_ne`: none of them is a point, if the points are sorted.
* `skip_add_of_lt_cut`: up to where it is cut an interval is moved as a whole.
-/

namespace FreeBSD.Lib

open List

variable {d m x y j n k : ℕ} {ks : List ℕ}

/-- `x`, moved on by `d` past each of the points. -/
def skip (d : ℕ) : List ℕ → ℕ → ℕ
  | [], x => x
  | k :: ks, x => skip d ks (if k ≤ x then x + d else x)

/-- What is left of an interval of length `n` that begins at `x`. -/
def cut (d : ℕ) : List ℕ → ℕ → ℕ → ℕ
  | [], _, n => n
  | k :: ks, x, n => if k ≤ x then cut d ks (x + d) n else cut d ks x (min n (k - x))

theorem skip_strictMono (d : ℕ) (ks : List ℕ) : StrictMono (skip d ks) := by
  induction ks with
  | nil => exact strictMono_id
  | cons k ks ih =>
    intro x y hxy
    refine ih ?_
    by_cases hx : k ≤ x
    · rw [if_pos hx, if_pos (hx.trans hxy.le)]; omega
    · rw [if_neg hx]
      split
      · omega
      · exact hxy

theorem skip_inj : skip d ks x = skip d ks y ↔ x = y := (skip_strictMono d ks).injective.eq_iff

theorem le_skip (d : ℕ) (ks : List ℕ) (x : ℕ) : x ≤ skip d ks x := by
  induction ks generalizing x with
  | nil => exact le_rfl
  | cons k ks ih =>
    have hstep : x ≤ if k ≤ x then x + d else x := by
      split
      · exact Nat.le_add_right x d
      · exact le_rfl
    exact hstep.trans (ih _)

theorem skip_le (d : ℕ) (ks : List ℕ) (x : ℕ) : skip d ks x ≤ x + ks.length * d := by
  induction ks generalizing x with
  | nil => exact Nat.le_add_right x _
  | cons k ks ih =>
    have hstep : (if k ≤ x then x + d else x) ≤ x + d := by
      split
      · exact le_rfl
      · exact Nat.le_add_right x d
    have hle := ih (if k ≤ x then x + d else x)
    rw [length_cons, Nat.succ_mul]; exact hle.trans (by omega)

theorem dvd_skip (hd : m ∣ d) (hx : m ∣ x) : m ∣ skip d ks x := by
  induction ks generalizing x with
  | nil => exact hx
  | cons k ks ih =>
    refine ih ?_
    split
    · exact hx.add hd
    · exact hx

/-- What lies in front of all points is not moved. -/
theorem skip_eq_self (h : ∀ k ∈ ks, x < k) : skip d ks x = x := by
  induction ks with
  | nil => rfl
  | cons k ks ih =>
    obtain ⟨hk, hks⟩ := forall_mem_cons.1 h
    rw [skip, if_neg (not_le.2 hk)]; exact ih hks

/-- No number is moved to one of the points. -/
theorem skip_ne (hd : 0 < d) (hs : ks.Pairwise (· < ·)) (hk : k ∈ ks) : skip d ks x ≠ k := by
  induction ks generalizing x with
  | nil => exact absurd hk not_mem_nil
  | cons a ks ih =>
    obtain ⟨ha, hs⟩ := pairwise_cons.1 hs
    rcases mem_cons.1 hk with rfl | hk
    · rw [skip]
      split
      · next hkx =>
        have hle := le_skip d ks (x + d); omega
      · next hkx =>
        have hxk : x < k := not_le.1 hkx
        rw [skip_eq_self fun b hb => hxk.trans (ha b hb)]; exact hxk.ne
    · exact ih hs hk

/-! ## Intervals -/

theorem cut_le (d : ℕ) (ks : List ℕ) (x n : ℕ) : cut d ks x n ≤ n := by
  induction ks generalizing x n with
  | nil => exact le_rfl
  | cons k ks ih =>
    rw [cut]
    split
    · exact ih _ _
    · exact (ih _ _).trans (min_le_left _ _)

theorem cut_pos (hn : 0 < n) : 0 < cut d ks x n := by
  induction ks generalizing x n with
  | nil => exact hn
  | cons k ks ih =>
    rw [cut]
    split
    · exact ih hn
    · next hkx => exact ih (lt_min hn (by omega))

theorem dvd_cut (hks : ∀ k ∈ ks, m ∣ k) (hd : m ∣ d) (hx : m ∣ x) (hn : m ∣ n) :
    m ∣ cut d ks x n := by
  induction ks generalizing x n with
  | nil => exact hn
  | cons k ks ih =>
    obtain ⟨hk, hks⟩ := forall_mem_cons.1 hks
    rw [cut]
    split
    · exact ih hks (hx.add hd) hn
    · refine ih hks hx ?_
      rcases min_choice n (k - x) with hmin | hmin
      · rw [hmin]; exact hn
      · rw [hmin]; exact Nat.dvd_sub hk hx

/-- Up to where it is cut an interval is moved as a whole. -/
theorem skip_add_of_lt_cut (h : j < cut d ks x n) : skip d ks (x + j) = skip d ks x + j := by
  induction ks generalizing x n with
  | nil => rfl
  | cons k ks ih =>
    rw [cut] at h
    rw [skip, skip]
    split at h
    · next hkx =>
      rw [if_pos hkx, if_pos (by omega), add_right_comm]
      exact ih h
    · next hkx =>
      have hjk : j < k - x := lt_of_lt_of_le h ((cut_le _ _ _ _).trans (min_le_right _ _))
      rw [if_neg hkx, if_neg (by omega)]
      exact ih h

/-! ## Rotation -/

/-- A rotation of `0 … m` takes no two numbers to the same. -/
theorem rotate_inj (hx : x < m) (hy : y < m) (h : (x + k) % m = (y + k) % m) : x = y := by
  have hmod : x ≡ y [MOD m] := Nat.ModEq.add_right_cancel' k h
  rwa [Nat.ModEq, Nat.mod_eq_of_lt hx, Nat.mod_eq_of_lt hy] at hmod

/-- An interval is rotated as a whole if it does not reach the end. -/
theorem rotate_add (h : (x + k) % m + j < m) : (x + j + k) % m = (x + k) % m + j := by
  rw [add_right_comm, Nat.add_mod, Nat.mod_eq_of_lt (a := j) (by omega), Nat.mod_eq_of_lt h]

end FreeBSD.Lib
