import Mathlib.Tactic

/-!
# Buffers in a memory

`store` writes a list of cells from an address on, and `load` reads some of them.

Results:
* `load_store`: what is stored is loaded.
* `store_append`, `load_append`: one list after the other.
* `store_overwrite`: some of the cells are stored again.
-/

namespace FreeBSD.Lib

open List

variable {α : Type*} {mem mem' : ℕ → α} {p n : ℕ} {bs cs : List α}

/-- The cells `bs` are stored from `p` on. -/
def store (mem : ℕ → α) (p : ℕ) (bs : List α) : ℕ → α :=
  fun i => if p ≤ i then (bs[i - p]?).getD (mem i) else mem i

/-- The `n` cells from `p` on. -/
def load (mem : ℕ → α) (p n : ℕ) : List α := (List.range n).map fun i => mem (p + i)

@[simp] theorem length_load (mem : ℕ → α) (p n : ℕ) : (load mem p n).length = n := by
  unfold load
  rw [length_map, length_range]

theorem getElem_load {i : ℕ} (h : i < (load mem p n).length) : (load mem p n)[i] = mem (p + i) := by
  simp only [load, getElem_map, getElem_range]

theorem store_of_lt {i : ℕ} (h : i < p) : store mem p bs i = mem i := if_neg (by omega)

theorem store_of_ge {i : ℕ} (h : p + bs.length ≤ i) : store mem p bs i = mem i := by
  unfold store
  rw [if_pos (by omega), List.getElem?_eq_none (by omega), Option.getD_none]

theorem store_mem {i : ℕ} (h : i < bs.length) : store mem p bs (p + i) = bs[i] := by
  unfold store
  rw [if_pos (by omega), Nat.add_sub_cancel_left, List.getElem?_eq_getElem h, Option.getD_some]

theorem store_congr {i : ℕ} (h : mem i = mem' i) : store mem p bs i = store mem' p bs i := by
  unfold store
  rw [h]

@[simp] theorem store_nil (mem : ℕ → α) (p : ℕ) : store mem p [] = mem := by
  funext i
  unfold store
  split_ifs
  · rfl
  · rfl

theorem load_congr (h : ∀ i, p ≤ i → i < p + n → mem' i = mem i) :
    load mem' p n = load mem p n := by
  apply map_congr_left
  intro i hi
  have hlt := mem_range.1 hi
  exact h (p + i) (by omega) (by omega)

/-- What is stored is loaded. -/
theorem load_store (mem : ℕ → α) (p : ℕ) (bs : List α) :
    load (store mem p bs) p bs.length = bs := by
  apply ext_getElem
  · exact length_load _ _ _
  · intro i h1 h2
    rw [getElem_load]; exact store_mem h2

/-- What is loaded can be stored again. -/
theorem store_load (mem : ℕ → α) (p n : ℕ) : store mem p (load mem p n) = mem := by
  funext i
  by_cases hlo : i < p
  · exact store_of_lt hlo
  · by_cases hhi : p + n ≤ i
    · apply store_of_ge
      rw [length_load]; exact hhi
    · obtain ⟨k, rfl⟩ : ∃ k, i = p + k := ⟨i - p, by omega⟩
      rw [store_mem (by rw [length_load]; omega), getElem_load]

theorem load_append (mem : ℕ → α) (p n k : ℕ) :
    load mem p (n + k) = load mem p n ++ load mem (p + n) k := by
  unfold load
  rw [range_add, map_append, map_map]
  congr 1
  apply map_congr_left
  intro i _
  show mem (p + (n + i)) = mem (p + n + i)
  rw [add_assoc]

/-- One list is stored after the other. -/
theorem store_append (mem : ℕ → α) (p : ℕ) (bs cs : List α) :
    store (store mem p bs) (p + bs.length) cs = store mem p (bs ++ cs) := by
  funext i
  unfold store
  by_cases hp : p ≤ i
  · rw [if_pos hp, if_pos hp]
    by_cases hlt : i - p < bs.length
    · rw [if_neg (by omega), List.getElem?_append_left hlt]
    · rw [if_pos (by omega), List.getElem?_append_right (by omega),
        List.getElem?_eq_none (l := bs) (by omega), Option.getD_none]
      congr 2
      omega
  · rw [if_neg hp, if_neg hp, if_neg (by omega)]

/-- Some of the cells are stored again. -/
theorem store_overwrite (mem : ℕ → α) (p : ℕ) (as : List α) {bs bs' : List α} (cs : List α)
    (h : bs'.length = bs.length) :
    store (store mem p (as ++ bs ++ cs)) (p + as.length) bs' = store mem p (as ++ bs' ++ cs) := by
  have hlen : (as ++ bs').length = (as ++ bs).length := by
    rw [length_append, length_append, h]
  have hmid : (as ++ bs).length = as.length + bs.length := length_append
  rw [← store_append mem p (as ++ bs) cs, ← store_append mem p (as ++ bs') cs, hlen,
    ← store_append mem p as bs, ← store_append mem p as bs']
  funext i
  by_cases hlo : i < p + as.length
  · rw [store_of_lt hlo, store_of_lt (show i < p + (as ++ bs).length by omega),
      store_of_lt (show i < p + (as ++ bs).length by omega), store_of_lt hlo, store_of_lt hlo]
  · by_cases hhi : i < p + as.length + bs.length
    · obtain ⟨k, rfl⟩ : ∃ k, i = p + as.length + k := ⟨i - (p + as.length), by omega⟩
      rw [store_mem (by omega),
        store_of_lt (show p + as.length + k < p + (as ++ bs).length by omega),
        store_mem (by omega)]
    · rw [store_of_ge (by omega)]
      apply store_congr
      rw [store_of_ge (p := p + as.length) (by omega), store_of_ge (p := p + as.length) (by omega)]

/-- A list in the middle of what is stored is loaded. -/
theorem load_store_mid (mem : ℕ → α) (p : ℕ) (as bs cs : List α) :
    load (store mem p (as ++ bs ++ cs)) (p + as.length) bs.length = bs := by
  rw [← store_append mem p (as ++ bs) cs, ← store_append mem p as bs]
  have hmid : (as ++ bs).length = as.length + bs.length := length_append
  calc
    load (store (store (store mem p as) (p + as.length) bs) (p + (as ++ bs).length) cs)
        (p + as.length) bs.length
      = load (store (store mem p as) (p + as.length) bs) (p + as.length) bs.length := by
        apply load_congr
        intro i _ hi; exact store_of_lt (by omega)
    _ = bs := load_store _ _ _

end FreeBSD.Lib
