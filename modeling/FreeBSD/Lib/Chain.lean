import Mathlib.Tactic

/-!
# Linked lists in a memory

A memory with links of type `L` and cells of type `α`: `read p` is the cell that
the link `p` points to, and `link a` is the link inside the cell `a`. A list of
cells is a chain if it is what one meets on the way from a link to the end.

Results:
* `Chain.split_of_read`: a link of a chain points into it.
* `Chain.suffix`: the rest of a chain after some of its cells.
* `Chain.replace`: some cells of a chain are replaced with others.
-/

namespace FreeBSD.Lib

open List

variable {L α : Type*} {link : α → L} {read read' : L → Option α}

/-- The cells that one meets from the link `p` on. -/
def Chain (link : α → L) (read : L → Option α) : L → List α → Prop
  | p, [] => read p = none
  | p, a :: l => read p = some a ∧ Chain link read (link a) l

/-- The link at which one is after the cells of a list. -/
def linkAfter (link : α → L) : L → List α → L
  | p, [] => p
  | _, a :: l => linkAfter link (link a) l

@[simp] theorem linkAfter_nil (p : L) : linkAfter link p [] = p := rfl

theorem linkAfter_append (p : L) (l m : List α) :
    linkAfter link p (l ++ m) = linkAfter link (linkAfter link p l) m := by
  induction l generalizing p with
  | nil => rfl
  | cons a l ih => exact ih (link a)

@[simp] theorem linkAfter_concat (p : L) (l : List α) (a : α) :
    linkAfter link p (l ++ [a]) = link a := by
  rw [linkAfter_append]; rfl

/-- The link after some cells is the first link, or that of one of the cells. -/
theorem linkAfter_mem (p : L) (l : List α) : linkAfter link p l ∈ p :: l.map link := by
  induction l generalizing p with
  | nil => simp
  | cons a l ih => exact mem_cons_of_mem p (ih (link a))

theorem Chain.read_eq {p : L} {l : List α} (h : Chain link read p l) : read p = l.head? := by
  cases l with
  | nil => exact h
  | cons a l => exact h.1

/-- What a link of the chain points to is the cell after it. -/
theorem Chain.split_of_read {p q : L} {l : List α} (h : Chain link read p l)
    (hq : q ∈ p :: l.map link) {a : α} (ha : read q = some a) :
    ∃ l₁ l₂, l = l₁ ++ a :: l₂ ∧ q = linkAfter link p l₁ := by
  induction l generalizing p with
  | nil =>
    rw [map_nil, mem_singleton] at hq
    rw [hq] at ha; exact absurd (h.symm.trans ha) (by simp)
  | cons b l ih =>
    rcases mem_cons.1 hq with rfl | hq
    · obtain rfl : b = a := Option.some.inj (h.1.symm.trans ha)
      exact ⟨[], l, rfl, rfl⟩
    · obtain ⟨l₁, l₂, rfl, rfl⟩ := ih h.2 hq
      exact ⟨b :: l₁, l₂, rfl, rfl⟩

theorem Chain.mem_of_read {p q : L} {l : List α} (h : Chain link read p l)
    (hq : q ∈ p :: l.map link) {a : α} (ha : read q = some a) : a ∈ l := by
  obtain ⟨l₁, l₂, rfl, -⟩ := h.split_of_read hq ha
  exact mem_append_right l₁ mem_cons_self

/-- A chain depends on the links of its cells only. -/
theorem Chain.congr {p : L} {l : List α} (h : Chain link read p l)
    (hsame : ∀ q ∈ p :: l.map link, read' q = read q) : Chain link read' p l := by
  induction l generalizing p with
  | nil => exact (hsame p (by simp)).trans h
  | cons a l ih =>
    exact ⟨(hsame p (by simp)).trans h.1, ih h.2 fun q hq => hsame q (mem_cons_of_mem p hq)⟩

theorem Chain.suffix {p : L} {pre suf : List α} (h : Chain link read p (pre ++ suf)) :
    Chain link read (linkAfter link p pre) suf := by
  induction pre generalizing p with
  | nil => exact h
  | cons a pre ih => exact ih h.2

/-- A chain from another link. -/
theorem Chain.restart {p q : L} {l : List α} (h : Chain link read p l) (hq : read' q = l.head?)
    (hsame : ∀ r ∈ l.map link, read' r = read r) : Chain link read' q l := by
  cases l with
  | nil => exact hq
  | cons a l => exact ⟨hq, h.2.congr hsame⟩

/-- The cells that one meets from the link `p` on, before the cell `x`. -/
def Path (link : α → L) (read : L → Option α) : L → List α → Option α → Prop
  | p, [], x => read p = x
  | p, a :: l, x => read p = some a ∧ Path link read (link a) l x

theorem Path.chain {p : L} {new suf : List α} (h : Path link read' p new suf.head?)
    (hs : ∀ q, read' q = suf.head? → Chain link read' q suf) :
    Chain link read' p (new ++ suf) := by
  induction new generalizing p with
  | nil => exact hs p h
  | cons a new ih => exact ⟨h.1, ih h.2⟩

/-- The cells `mid` in a chain are replaced with the cells `new`. -/
theorem Chain.replace {p : L} {pre mid suf new : List α}
    (h : Chain link read p (pre ++ (mid ++ suf)))
    (hnodup : (p :: (pre ++ (mid ++ suf)).map link).Nodup)
    (hsame : ∀ q ∈ p :: (pre ++ (mid ++ suf)).map link,
      q ∉ linkAfter link p pre :: mid.map link → read' q = read q)
    (hnew : Path link read' (linkAfter link p pre) new suf.head?) :
    Chain link read' p (pre ++ (new ++ suf)) := by
  induction pre generalizing p with
  | nil =>
    have hs : Chain link read (linkAfter link p mid) suf := Chain.suffix h
    refine hnew.chain fun q hq => hs.restart hq fun r hr => hsame r ?_ ?_
    · simp only [nil_append, map_append, mem_cons, mem_append]
      exact .inr (.inr hr)
    · intro hm
      simp only [nil_append, map_append, ← cons_append] at hnodup
      exact (nodup_append.1 hnodup).2.2 r hm r hr rfl
  | cons a pre ih =>
    rw [cons_append, map_cons, nodup_cons] at hnodup
    have hne : p ∉ linkAfter link p (a :: pre) :: mid.map link := by
      intro hm
      refine hnodup.1 ?_
      rw [← map_cons, ← cons_append, map_append, map_append]
      rcases mem_cons.1 hm with heq | hm
      · exact mem_append_left _ (heq.symm ▸ linkAfter_mem (link a) pre)
      · exact mem_append_right _ (mem_append_left _ hm)
    refine ⟨(hsame p (by simp) hne).trans h.1, ih h.2 hnodup.2 (fun q hq => ?_) hnew⟩
    exact hsame q (mem_cons_of_mem p hq)

end FreeBSD.Lib
