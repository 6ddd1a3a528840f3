import Mathlib.Tactic

/-!
# Circular lists in a memory

The cells of a doubly linked list, with a header that is no cell of the list, have a next and a
previous cell each. `Ring next prev h l` says that from the header `h` on one meets the cells `l`
and then the header again, and the same cells backwards.

Results:
* `Ring.insert`: a cell is linked between two others.
* `Ring.remove`: a cell is taken out.
* `Ring.unique`: there is one such list.
-/

namespace FreeBSD.Lib

open List Function

variable {α : Type*} {next prev : α → α} {h e : α} {l xs ys : List α}

/-- Wherever one cuts the list, the last cell in front and the first cell behind are linked, with
    the header for a cell that is not there. -/
def Ring (next prev : α → α) (h : α) (l : List α) : Prop :=
  ∀ xs ys, l = xs ++ ys →
    next (xs.getLastD h) = ys.headD h ∧ prev (ys.headD h) = xs.getLastD h

theorem Ring.next_last (hr : Ring next prev h (xs ++ ys)) : next (xs.getLastD h) = ys.headD h :=
  (hr xs ys rfl).1

theorem Ring.prev_head (hr : Ring next prev h (xs ++ ys)) : prev (ys.headD h) = xs.getLastD h :=
  (hr xs ys rfl).2

theorem Ring.next_eq (hr : Ring next prev h (xs ++ e :: ys)) : next e = ys.headD h := by
  have hcut := (hr (xs ++ [e]) ys (by simp)).1
  rwa [getLastD_concat] at hcut

theorem Ring.prev_eq (hr : Ring next prev h (xs ++ e :: ys)) : prev e = xs.getLastD h :=
  hr.prev_head

theorem ring_nil (hnext : next h = h) (hprev : prev h = h) : Ring next prev h [] := by
  intro xs ys hxy
  obtain ⟨rfl, rfl⟩ := append_eq_nil_iff.1 hxy.symm
  exact ⟨hnext, hprev⟩

/-- The last cell of a list, or the header. -/
theorem getLastD_mem (xs : List α) : xs.getLastD h ∈ h :: xs := getLastD_mem_cons

theorem headD_mem (ys : List α) : ys.headD h ∈ h :: ys := by
  cases ys with
  | nil => simp
  | cons y ys => simp

/-- There is one such list. -/
theorem Ring.unique {m : List α} (hl : Ring next prev h l) (hm : Ring next prev h m)
    (hnl : h ∉ l) (hnm : h ∉ m) : l = m := by
  have key : ∀ (m xs ys zs : List α), l = xs ++ ys → m = xs ++ zs →
      Ring next prev h m → h ∉ m → ys = zs := by
    intro m xs ys
    induction ys generalizing xs with
    | nil =>
      intro zs hxl hxm hm hnm
      have h1 := (hl xs [] hxl).1
      have h2 := (hm xs zs hxm).1
      cases zs with
      | nil => rfl
      | cons z zs =>
        rw [h1] at h2
        rw [hxm, show z = h from h2.symm] at hnm; simp at hnm
    | cons y ys ih =>
      intro zs hxl hxm hm hnm
      have h1 := (hl xs _ hxl).1
      have h2 := (hm xs zs hxm).1
      rw [h1] at h2
      cases zs with
      | nil =>
        rw [hxl, show y = h from h2] at hnl; simp at hnl
      | cons z zs =>
        obtain rfl : y = z := h2
        rw [ih (xs ++ [y]) zs (by simpa using hxl) (by simpa using hxm) hm hnm]
  exact key m [] l m rfl rfl hm hnm

theorem getLastD_append_mem {c : α} {cs : List α} (us : List α) :
    (us ++ c :: cs).getLastD h ∈ c :: cs := by
  rcases eq_nil_or_concat' cs with rfl | ⟨cs, d, rfl⟩
  · rw [getLastD_concat]; simp
  · rw [← cons_append, ← append_assoc, getLastD_concat]; simp

/-- A cell in front of a cut is not the first behind it, even if that is the header. -/
theorem ne_headD (xs ys : List α) (hnodup : (h :: (xs ++ ys)).Nodup) {a : α} (ha : a ∈ xs) :
    a ≠ ys.headD h := by
  have hhead := headD_mem (h := h) ys
  simp only [nodup_cons, mem_append, nodup_append, not_or, mem_cons]
    at hnodup hhead
  rintro rfl
  rcases hhead with heq | hmem
  · exact hnodup.1.1 (heq ▸ ha)
  · exact hnodup.2.2.2 _ ha _ hmem rfl

/-- A cell behind a cut is not the last in front of it, even if that is the header. -/
theorem ne_getLastD (xs ys : List α) (hnodup : (h :: (xs ++ ys)).Nodup) {a : α} (ha : a ∈ ys) :
    a ≠ xs.getLastD h := by
  have hlast := getLastD_mem (h := h) xs
  simp only [nodup_cons, mem_append, nodup_append, not_or, mem_cons]
    at hnodup hlast
  rintro rfl
  rcases hlast with heq | hmem
  · exact hnodup.1.2 (heq ▸ ha)
  · exact hnodup.2.2.2 _ hmem _ ha rfl

variable [DecidableEq α]

/-- The cell `e` is linked behind the last cell of `xs`. -/
theorem Ring.insert (hr : Ring next prev h (xs ++ ys)) (hnodup : (h :: (xs ++ ys)).Nodup)
    (he : e ∉ h :: (xs ++ ys)) :
    Ring (update (update next e (ys.headD h)) (xs.getLastD h) e)
      (update (update prev e (xs.getLastD h)) (ys.headD h) e)
      h (xs ++ e :: ys) := by
  have hlast := getLastD_mem (h := h) xs
  have hhead := headD_mem (h := h) ys
  simp only [mem_cons, mem_append, not_or] at he hlast hhead
  have helast : e ≠ xs.getLastD h := by
    rintro heq
    rw [← heq] at hlast; tauto
  have hehead : e ≠ ys.headD h := by
    rintro heq
    rw [← heq] at hhead; tauto
  have key : ∀ us vs, xs ++ e :: ys = us ++ vs →
      (us = xs ∧ vs = e :: ys) ∨ (∃ ds, ys = ds ++ vs ∧ us = xs ++ e :: ds) ∨
      ∃ c cs, xs = us ++ c :: cs ∧ vs = c :: cs ++ e :: ys := by
    intro us vs huv
    rcases append_eq_append_iff.1 huv with ⟨cs, hus, hvs⟩ | ⟨cs, hxs, hvs⟩
    · cases cs with
      | nil => exact .inl ⟨by simpa using hus, by simpa using hvs.symm⟩
      | cons c cs =>
        obtain ⟨rfl, hys⟩ := List.cons.inj hvs
        exact .inr (.inl ⟨cs, hys, hus⟩)
    · cases cs with
      | nil => exact .inl ⟨by simpa using hxs.symm, by simpa using hvs⟩
      | cons c cs => exact .inr (.inr ⟨c, cs, hxs, hvs⟩)
  intro us vs huv
  rcases key us vs huv with ⟨rfl, rfl⟩ | ⟨ds, rfl, rfl⟩ | ⟨c, cs, rfl, rfl⟩
  · refine ⟨by simp, ?_⟩
    rw [headD_cons, update_of_ne hehead, update_self]
  · rcases eq_nil_or_concat' ds with rfl | ⟨ds, d, rfl⟩
    · refine ⟨?_, by simp⟩
      rw [getLastD_concat, update_of_ne helast, update_self]; simp
    · have hcut := hr (xs ++ (ds ++ [d])) vs (by simp)
      have hd := ne_getLastD _ _ hnodup (a := d) (by simp)
      have hde : d ≠ e := by rintro rfl; simp at he
      have hhead : vs.headD h ≠ (ds ++ [d] ++ vs).headD h := by
        have hmem : (ds ++ [d] ++ vs).headD h ∈ ds ++ [d] := by
          cases ds <;> simp
        refine (ne_headD (xs ++ (ds ++ [d])) _ ?_ (mem_append_right xs hmem)).symm
        simpa using hnodup
      have hevs : vs.headD h ≠ e := by
        have hmem := headD_mem (h := h) vs
        rintro heq
        rw [heq] at hmem
        simp only [mem_cons, mem_append] at hmem he; tauto
      have hlast : (xs ++ e :: (ds ++ [d])).getLastD h = d := by
        rw [← cons_append, ← append_assoc, getLastD_concat]
      rw [← append_assoc, getLastD_concat] at hcut
      rw [hlast, update_of_ne hd, update_of_ne hde,
        update_of_ne hhead, update_of_ne hevs]
      exact hcut
  · have hcut := hr us (c :: cs ++ ys) (by simp)
    have hc := ne_headD _ _ hnodup (a := c) (by simp)
    have hce : c ≠ e := by rintro rfl; simp at he
    have hlast : us.getLastD h ≠ (us ++ c :: cs).getLastD h := by
      have hmem : (us ++ c :: cs).getLastD h ∈ c :: cs := getLastD_append_mem us
      refine (ne_getLastD _ (c :: cs ++ ys) ?_ (mem_append_left ys hmem)).symm
      simpa using hnodup
    have heus : us.getLastD h ≠ e := by
      have hmem := getLastD_mem (h := h) us
      rintro heq
      rw [heq] at hmem
      simp only [mem_cons, mem_append] at hmem he; tauto
    rw [cons_append, headD_cons] at hcut ⊢
    rw [update_of_ne hlast, update_of_ne heus, update_of_ne hc,
      update_of_ne hce]
    exact hcut

/-- The cell `e` is taken out. -/
theorem Ring.remove (hr : Ring next prev h (xs ++ e :: ys))
    (hnodup : (h :: (xs ++ e :: ys)).Nodup) :
    Ring (update next (xs.getLastD h) (ys.headD h))
      (update prev (ys.headD h) (xs.getLastD h)) h (xs ++ ys) := by
  intro us vs huv
  have key : (us = xs ∧ vs = ys) ∨ (∃ ds d, us = xs ++ (ds ++ [d]) ∧ ys = ds ++ [d] ++ vs) ∨
      ∃ c cs, xs = us ++ c :: cs ∧ vs = c :: cs ++ ys := by
    rcases append_eq_append_iff.1 huv with ⟨cs, hus, hys⟩ | ⟨cs, hxs, hvs⟩
    · rcases eq_nil_or_concat' cs with rfl | ⟨ds, d, rfl⟩
      · exact .inl ⟨by simpa using hus, by simpa using hys.symm⟩
      · exact .inr (.inl ⟨ds, d, hus, hys⟩)
    · cases cs with
      | nil => exact .inl ⟨by simpa using hxs.symm, by simpa using hvs⟩
      | cons c cs => exact .inr (.inr ⟨c, cs, hxs, hvs⟩)
  rcases key with ⟨rfl, rfl⟩ | ⟨ds, d, rfl, rfl⟩ | ⟨c, cs, rfl, rfl⟩
  · simp
  · have hcut := hr (xs ++ e :: (ds ++ [d])) vs (by simp)
    have hd : d ≠ xs.getLastD h := ne_getLastD _ _ hnodup (by simp)
    have hhead : vs.headD h ≠ (ds ++ [d] ++ vs).headD h := by
      have hmem : (ds ++ [d] ++ vs).headD h ∈ ds ++ [d] := by
        cases ds <;> simp
      refine (ne_headD (xs ++ e :: (ds ++ [d])) _ ?_ ?_).symm
      · simpa using hnodup
      · exact mem_append_right xs (mem_cons_of_mem e hmem)
    have hlast : (xs ++ e :: (ds ++ [d])).getLastD h = d := by
      rw [← cons_append, ← append_assoc, getLastD_concat]
    rw [hlast] at hcut
    rw [← append_assoc, getLastD_concat, update_of_ne hd,
      update_of_ne hhead]
    exact hcut
  · have hcut := hr us (c :: cs ++ e :: ys) (by simp)
    have hlast : us.getLastD h ≠ (us ++ c :: cs).getLastD h := by
      have hmem : (us ++ c :: cs).getLastD h ∈ c :: cs := getLastD_append_mem us
      refine (ne_getLastD _ (c :: cs ++ e :: ys) ?_ (mem_append_left _ hmem)).symm
      simpa using hnodup
    have hc : c ≠ ys.headD h := by
      refine ne_headD (us ++ c :: cs ++ [e]) _ ?_ (by simp)
      simpa using hnodup
    rw [cons_append, headD_cons] at hcut ⊢
    rw [update_of_ne hlast, update_of_ne hc]; exact hcut

end FreeBSD.Lib
