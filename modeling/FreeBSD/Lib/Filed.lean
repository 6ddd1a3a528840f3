import Mathlib.Tactic

/-!
# Lists that file elements under a key

Every element of a collection is on the list of its key, once, and on no other list: the buckets of
a hash table, the queues of a scheduler.

Results:
* `Filed.congr`: the lists only depend on the keys of what is filed.
* `Filed.append`: a new element at the end of the list of its key.
* `Filed.erase`: an element leaves the collection.
* `Filed.move`: an element gets another key and goes to the end of the list of that.
-/

namespace FreeBSD.Lib

open List Function

variable {α κ : Type*} {key key' : α → κ} {lists : κ → List α} {live : List α} {a b : α} {k : κ}

/-- Every element is on the list of its key, once, and on no other. -/
structure Filed (key : α → κ) (lists : κ → List α) (live : List α) : Prop where
  mem_iff : ∀ k a, a ∈ lists k ↔ a ∈ live ∧ key a = k
  nodup : ∀ k, (lists k).Nodup

namespace Filed

theorem mem (h : Filed key lists live) (ha : a ∈ lists k) : a ∈ live := ((h.mem_iff k a).1 ha).1

theorem key_eq (h : Filed key lists live) (ha : a ∈ lists k) : key a = k :=
  ((h.mem_iff k a).1 ha).2

theorem mem_list (h : Filed key lists live) (ha : a ∈ live) : a ∈ lists (key a) :=
  (h.mem_iff _ a).2 ⟨ha, rfl⟩

/-- With an element there is a list that is not empty. -/
theorem exists_ne_nil (h : Filed key lists live) (hl : live ≠ []) :
    ∃ a ∈ live, lists (key a) ≠ [] := by
  obtain ⟨a, ha⟩ := exists_mem_of_ne_nil live hl
  exact ⟨a, ha, ne_nil_of_mem (h.mem_list ha)⟩

theorem congr (h : Filed key lists live) (hk : ∀ a ∈ live, key' a = key a) :
    Filed key' lists live := by
  refine ⟨fun k a => ?_, h.nodup⟩
  rw [h.mem_iff k a]
  constructor
  · rintro ⟨ha, rfl⟩; exact ⟨ha, hk a ha⟩
  · rintro ⟨ha, rfl⟩; exact ⟨ha, (hk a ha).symm⟩

variable [DecidableEq κ]

/-- A new element at the end of the list of its key. -/
theorem append (h : Filed key lists live) (ha : a ∉ live) :
    Filed key (update lists (key a) (lists (key a) ++ [a])) (a :: live) := by
  constructor
  · intro k b
    by_cases hk : k = key a
    · subst hk
      rw [update_self, mem_append, mem_singleton, mem_cons, h.mem_iff]
      constructor
      · rintro (⟨hb, hkb⟩ | rfl)
        · exact ⟨.inr hb, hkb⟩
        · exact ⟨.inl rfl, rfl⟩
      · rintro ⟨rfl | hb, hkb⟩
        · exact .inr rfl
        · exact .inl ⟨hb, hkb⟩
    · rw [update_of_ne hk, mem_cons, h.mem_iff]
      constructor
      · rintro ⟨hb, hkb⟩; exact ⟨.inr hb, hkb⟩
      · rintro ⟨rfl | hb, hkb⟩
        · exact absurd hkb.symm hk
        · exact ⟨hb, hkb⟩
  · intro k
    by_cases hk : k = key a
    · subst hk
      rw [update_self]
      refine nodup_append.2 ⟨h.nodup _, nodup_singleton a, ?_⟩
      rintro b hb c hc rfl
      exact ha (mem_singleton.1 hc ▸ h.mem hb)
    · rw [update_of_ne hk]; exact h.nodup k

variable [DecidableEq α]

/-- An element leaves the collection. -/
theorem erase (h : Filed key lists live) (hl : live.Nodup) (a : α) :
    Filed key (update lists (key a) ((lists (key a)).erase a)) (live.erase a) := by
  constructor
  · intro k b
    rw [hl.mem_erase_iff]
    by_cases hk : k = key a
    · subst hk
      rw [update_self, (h.nodup _).mem_erase_iff, h.mem_iff, and_assoc]
    · rw [update_of_ne hk, h.mem_iff]
      constructor
      · rintro ⟨hb, hkb⟩; exact ⟨⟨fun hba => hk (hba ▸ hkb.symm), hb⟩, hkb⟩
      · rintro ⟨⟨_, hb⟩, hkb⟩; exact ⟨hb, hkb⟩
  · intro k
    by_cases hk : k = key a
    · subst hk
      rw [update_self]; exact (h.nodup _).erase a
    · rw [update_of_ne hk]; exact h.nodup k

/-- An element gets another key and goes to the end of the list of that. -/
theorem move (h : Filed key lists live) (hl : live.Nodup) (ha : a ∈ live)
    (hk : ∀ b ∈ live, b ≠ a → key' b = key b)
    {lists' : κ → List α} (hlists : lists' = update lists (key a)
      ((lists (key a)).erase a)) :
    Filed key' (update lists' (key' a) (lists' (key' a) ++ [a])) live := by
  have hout : Filed key' lists' (live.erase a) := by
    refine hlists ▸ (h.erase hl a).congr fun b hb => ?_
    obtain ⟨hba, hb⟩ := hl.mem_erase_iff.1 hb
    exact hk b hb hba
  have hin := hout.append (a := a) fun hmem => (hl.mem_erase_iff.1 hmem).1 rfl
  refine ⟨fun k b => ?_, hin.nodup⟩
  rw [hin.mem_iff k b, (perm_cons_erase ha).mem_iff]

end Filed

end FreeBSD.Lib
