import Mathlib.Data.List.TakeWhile
import Mathlib.Tactic

/-!
# Reassembly of a sequence from overlapping pieces

A piece has the elements of a sequence from an offset on, and a tag. A queue of pieces is sorted
if each piece stops where the next begins, or before. A new piece is inserted behind the pieces
that do not begin after it: what the preceding piece has already is cut off at its front, and it
cuts off the fronts of the succeeding pieces, or replaces them.

Results:
* `insert_spec`: the queue stays sorted, it contains what it contained and the new piece, and its
  pieces are rests of what was there.
* `touching_content`: what is joined of pieces that touch is the sequence.
* `touching_of_contains`: sorted pieces that contain everything up to their end touch.
-/

namespace FreeBSD.Lib

open List

/-- The elements `data` of a sequence from `off` on. -/
structure Piece (β τ : Type*) where
  off : ℕ
  data : List β
  tag : τ
deriving DecidableEq

namespace Piece

variable {β τ : Type*} {m p q x y : Piece β τ} {l A B : List (Piece β τ)}

/-- The offset behind the last element. -/
def stop (p : Piece β τ) : ℕ := p.off + p.data.length

def Contains (p : Piece β τ) (k : ℕ) : Prop := p.off ≤ k ∧ k < p.stop

/-- The elements are those that the sequence has at their offsets. -/
def Content (R : ℕ → β → Prop) (p : Piece β τ) : Prop :=
  ∀ k b, p.data[k]? = some b → R (p.off + k) b

/-- The piece without its first `i` elements. -/
def skip (p : Piece β τ) (i : ℕ) : Piece β τ := { p with off := p.off + i, data := p.data.drop i }

/-- `x` is `y` without elements at the front, but not without all of them. -/
def IsRest (x y : Piece β τ) : Prop := ∃ i, x = y.skip i ∧ (i = 0 ∨ i < y.data.length)

def Sorted (l : List (Piece β τ)) : Prop := l.Pairwise fun a b => a.stop ≤ b.off

/-- What is new of `m` behind the preceding piece. -/
def fit (m : Piece β τ) : Option (Piece β τ) → Option (Piece β τ)
  | none => some m
  | some p =>
    if p.stop ≤ m.off then some m
    else if m.stop ≤ p.stop then none
    else some (m.skip (p.stop - m.off))

/-- `m` in front of the succeeding pieces. -/
def place (m : Piece β τ) : List (Piece β τ) → List (Piece β τ)
  | [] => [m]
  | q :: qs =>
    if m.stop ≤ q.off then m :: q :: qs
    else if m.stop < q.stop then m :: q.skip (m.stop - q.off) :: qs
    else place m qs

def before (m : Piece β τ) (l : List (Piece β τ)) : List (Piece β τ) :=
  l.takeWhile fun q => q.off ≤ m.off

def after (m : Piece β τ) (l : List (Piece β τ)) : List (Piece β τ) :=
  l.dropWhile fun q => q.off ≤ m.off

def insert (m : Piece β τ) (l : List (Piece β τ)) : List (Piece β τ) :=
  match fit m (before m l).getLast? with
  | none => l
  | some m' => before m l ++ place m' (after m l)

/-! ## Rests -/

theorem isRest_refl (x : Piece β τ) : IsRest x x := ⟨0, rfl, Or.inl rfl⟩

theorem IsRest.stop (h : IsRest x y) : x.stop = y.stop := by
  obtain ⟨i, rfl, hi⟩ := h
  simp only [Piece.stop, Piece.skip, length_drop]; omega

theorem IsRest.off (h : IsRest x y) : y.off ≤ x.off := by
  obtain ⟨i, rfl, -⟩ := h
  exact Nat.le_add_right _ _

theorem IsRest.tag (h : IsRest x y) : x.tag = y.tag := by
  obtain ⟨i, rfl, -⟩ := h
  rfl

theorem IsRest.ne_nil (h : IsRest x y) (hy : y.data ≠ []) : x.data ≠ [] := by
  obtain ⟨i, rfl, hi⟩ := h
  have hpos := length_pos_iff.mpr hy
  rw [← length_pos_iff]
  simp only [Piece.skip, length_drop]; omega

theorem IsRest.content {R : ℕ → β → Prop} (h : IsRest x y) (hy : Content R y) : Content R x := by
  obtain ⟨i, rfl, -⟩ := h
  intro k b hk
  simp only [Piece.skip, List.getElem?_drop] at hk
  have hR := hy (i + k) b hk
  rwa [← add_assoc] at hR

theorem stop_skip {i : ℕ} (hi : i ≤ p.data.length) : (p.skip i).stop = p.stop := by
  simp only [Piece.stop, Piece.skip, length_drop]; omega

/-! ## Insertion -/

theorem before_append_after (m : Piece β τ) (l : List (Piece β τ)) :
    before m l ++ after m l = l := takeWhile_append_dropWhile

theorem off_of_mem_before (h : q ∈ before m l) : q.off ≤ m.off := by
  have hq : q ∈ l.takeWhile fun q => q.off ≤ m.off := h
  simpa using mem_takeWhile_imp hq

theorem off_of_mem_after (hl : Sorted l) (h : q ∈ after m l) : m.off < q.off := by
  have hs : Sorted (after m l) := by
    have hap := before_append_after m l
    rw [Sorted, ← hap] at hl; exact (pairwise_append.mp hl).2.1
  cases haf : after m l with
  | nil => simp [haf] at h
  | cons a as =>
    have hhead : ¬ a.off ≤ m.off := by
      have hd := List.head?_dropWhile_not (fun q : Piece β τ => decide (q.off ≤ m.off)) l
      rw [show l.dropWhile (fun q : Piece β τ => decide (q.off ≤ m.off)) = a :: as from haf] at hd
      simpa using hd
    rw [haf] at h hs
    rcases mem_cons.mp h with rfl | h
    · omega
    · have hle := (pairwise_cons.mp hs).1 q h
      simp only [Piece.stop] at hle; omega

/-- No piece before stops behind the last one. -/
theorem stop_le_of_getLast (hA : Sorted A) (hp : A.getLast? = some p) (hq : q ∈ A) :
    q.stop ≤ p.stop := by
  obtain ⟨init, rfl⟩ := List.getLast?_eq_some_iff.mp hp
  rcases mem_append.mp hq with hq | hq
  · have hle := (pairwise_append.mp hA).2.2 q hq p mem_cons_self
    simp only [Piece.stop] at hle ⊢; omega
  · obtain rfl := mem_singleton.mp hq
    exact le_rfl

theorem isRest_of_fit {o : Option (Piece β τ)} (h : fit m o = some x) : IsRest x m := by
  cases o with
  | none =>
    obtain rfl := Option.some.inj h
    exact isRest_refl m
  | some p =>
    rw [fit] at h
    by_cases hle : p.stop ≤ m.off
    · rw [if_pos hle] at h
      obtain rfl := Option.some.inj h
      exact isRest_refl m
    · rw [if_neg hle] at h
      by_cases hcov : m.stop ≤ p.stop
      · rw [if_pos hcov] at h
        cases h
      · rw [if_neg hcov] at h
        obtain rfl := Option.some.inj h
        refine ⟨_, rfl, .inr ?_⟩
        simp only [Piece.stop] at hcov hle ⊢; omega

theorem place_spec (hB : Sorted B) (hle : ∀ q ∈ B, m.off ≤ q.off) :
    Sorted (place m B) ∧ (∀ x ∈ place m B, m.off ≤ x.off) ∧
      (∀ x ∈ place m B, x = m ∨ ∃ y ∈ B, IsRest x y) ∧
      ∀ k, (∃ x ∈ place m B, x.Contains k) ↔ m.Contains k ∨ ∃ x ∈ B, x.Contains k := by
  induction B with
  | nil => exact ⟨pairwise_singleton _ _, by simp [place], by simp [place], by simp [place]⟩
  | cons q qs ih =>
    obtain ⟨hq, hqs⟩ := pairwise_cons.mp hB
    have hmq := hle q mem_cons_self
    rw [place]
    by_cases hstop : m.stop ≤ q.off
    · -- the successors begin behind `m`
      rw [if_pos hstop]
      refine ⟨pairwise_cons.mpr ⟨?_, hB⟩, ?_, ?_, ?_⟩
      · intro x hx
        rcases mem_cons.mp hx with rfl | hx
        · exact hstop
        · have := hq x hx
          simp only [Piece.stop] at this hstop ⊢; omega
      · intro x hx
        rcases mem_cons.mp hx with rfl | hx
        · exact le_rfl
        · exact hle x hx
      · intro x hx
        rcases mem_cons.mp hx with rfl | hx
        · exact .inl rfl
        · exact .inr ⟨x, hx, isRest_refl x⟩
      · intro k; simp only [mem_cons, exists_eq_or_imp]
    · rw [if_neg hstop]
      by_cases hcut : m.stop < q.stop
      · -- the front of the next piece is cut off
        rw [if_pos hcut]
        have hlen : m.stop - q.off < q.data.length := by
          simp only [Piece.stop] at hcut hstop ⊢; omega
        have hskip := stop_skip hlen.le
        have hoff : (q.skip (m.stop - q.off)).off = m.stop := by simp only [Piece.skip]; omega
        have hmo : m.off ≤ m.stop := Nat.le_add_right _ _
        refine ⟨pairwise_cons.mpr ⟨?_, pairwise_cons.mpr ⟨?_, hqs⟩⟩, ?_, ?_, ?_⟩
        · intro x hx
          rcases mem_cons.mp hx with rfl | hx
          · exact hoff.ge
          · have := hq x hx; omega
        · intro x hx
          rw [hskip]; exact hq x hx
        · intro x hx
          rcases mem_cons.mp hx with rfl | hx
          · exact le_rfl
          · rcases mem_cons.mp hx with rfl | hx
            · omega
            · exact hle x (mem_cons_of_mem _ hx)
        · intro x hx
          rcases mem_cons.mp hx with rfl | hx
          · exact .inl rfl
          · rcases mem_cons.mp hx with rfl | hx
            · exact .inr ⟨q, mem_cons_self, _, rfl, .inr hlen⟩
            · exact .inr ⟨x, mem_cons_of_mem _ hx, isRest_refl x⟩
        · intro k
          simp only [mem_cons, exists_eq_or_imp]
          have hiff : m.Contains k ∨ (q.skip (m.stop - q.off)).Contains k ↔
              m.Contains k ∨ q.Contains k := by
            simp only [Contains, hskip, hoff]; omega
          rw [← or_assoc, hiff, or_assoc]
      · -- the next piece is replaced
        rw [if_neg hcut]
        obtain ⟨hs, ho, hr, hc⟩ := ih hqs fun x hx => hle x (mem_cons_of_mem _ hx)
        refine ⟨hs, ho, ?_, ?_⟩
        · intro x hx
          rcases hr x hx with rfl | ⟨y, hy, hxy⟩
          · exact .inl rfl
          · exact .inr ⟨y, mem_cons_of_mem _ hy, hxy⟩
        · intro k
          rw [hc k]
          simp only [mem_cons, exists_eq_or_imp]
          have himp : q.Contains k → m.Contains k := by simp only [Contains]; omega
          tauto

theorem place_ne_nil (m : Piece β τ) (B : List (Piece β τ)) : place m B ≠ [] := by
  induction B with
  | nil => exact cons_ne_nil _ _
  | cons q qs ih =>
    rw [place]
    split
    · exact cons_ne_nil _ _
    · split
      · exact cons_ne_nil _ _
      · exact ih

theorem length_place_le (m : Piece β τ) (B : List (Piece β τ)) :
    (place m B).length ≤ B.length + 1 := by
  induction B with
  | nil => exact le_rfl
  | cons q qs ih =>
    rw [place]
    split
    · exact le_rfl
    · split
      · exact le_rfl
      · rw [length_cons]; omega

theorem length_insert_le (m : Piece β τ) (l : List (Piece β τ)) :
    (insert m l).length ≤ l.length + 1 := by
  rw [insert]
  split
  · exact Nat.le_succ _
  · rename_i m' _
    have hsplit := congrArg List.length (before_append_after m l)
    have hplace := length_place_le m' (after m l)
    rw [length_append] at hsplit ⊢; omega

/-- What fits behind the pieces before `m`. -/
theorem fit_spec (hA : Sorted A) (hoff : ∀ q ∈ A, q.off ≤ m.off) :
    (fit m A.getLast? = none ∧ ∀ k, m.Contains k → ∃ x ∈ A, x.Contains k) ∨
    ∃ m', fit m A.getLast? = some m' ∧ IsRest m' m ∧ (∀ q ∈ A, q.stop ≤ m'.off) ∧
      (m'.off = m.off ∨ ∃ q ∈ A, m'.off = q.stop) ∧
      ∀ k, m.Contains k → m'.Contains k ∨ ∃ x ∈ A, x.Contains k := by
  cases hlast : A.getLast? with
  | none =>
    obtain rfl := List.getLast?_eq_none_iff.mp hlast
    exact .inr ⟨m, rfl, isRest_refl m, by simp, .inl rfl, fun k hk => .inl hk⟩
  | some p =>
    have hp : p ∈ A := mem_of_getLast? hlast
    have hpo := hoff p hp
    have hmax : ∀ q ∈ A, q.stop ≤ p.stop := fun q hq => stop_le_of_getLast hA hlast hq
    rw [fit]
    by_cases hle : p.stop ≤ m.off
    · rw [if_pos hle]
      exact .inr ⟨m, rfl, isRest_refl m, fun q hq => (hmax q hq).trans hle, .inl rfl,
        fun k hk => .inl hk⟩
    · rw [if_neg hle]
      by_cases hcov : m.stop ≤ p.stop
      · rw [if_pos hcov]
        refine .inl ⟨rfl, fun k hk => ⟨p, hp, ?_⟩⟩
        simp only [Contains] at hk ⊢; omega
      · rw [if_neg hcov]
        have hlen : p.stop - m.off < m.data.length := by simp only [Piece.stop] at hcov hle ⊢; omega
        have hoff' : (m.skip (p.stop - m.off)).off = p.stop := by simp only [Piece.skip]; omega
        refine .inr ⟨_, rfl, ⟨_, rfl, .inr hlen⟩, fun q hq => (hmax q hq).trans hoff'.ge,
          .inr ⟨p, hp, hoff'⟩, ?_⟩
        intro k hk
        by_cases hkp : k < p.stop
        · refine .inr ⟨p, hp, ?_⟩
          simp only [Contains] at hk ⊢; omega
        · left
          simp only [Contains, hoff', stop_skip hlen.le] at hk ⊢; omega

/-- What an insertion does. -/
theorem insert_spec (hl : Sorted l) (m : Piece β τ) :
    Sorted (insert m l) ∧ (∀ x ∈ insert m l, ∃ y ∈ m :: l, IsRest x y) ∧
      ∀ k, (∃ x ∈ insert m l, x.Contains k) ↔ m.Contains k ∨ ∃ x ∈ l, x.Contains k := by
  have hsplit := before_append_after m l
  have hs := hl
  rw [Sorted, ← hsplit] at hs
  obtain ⟨hA, hB, hAB⟩ := pairwise_append.mp hs
  have hmem : ∀ {x}, x ∈ l ↔ x ∈ before m l ∨ x ∈ after m l := by
    intro x
    conv_lhs => rw [← hsplit]
    exact mem_append
  obtain ⟨hfit, hcov⟩ | ⟨m', hfit, hrest, hstop, hoff, hcov⟩ :=
    fit_spec hA (fun q hq => off_of_mem_before hq)
  · -- nothing of `m` is new
    rw [insert, hfit]
    refine ⟨hl, fun x hx => ⟨x, mem_cons_of_mem _ hx, isRest_refl x⟩, ?_⟩
    intro k
    refine ⟨.inr, ?_⟩
    rintro (hk | hk)
    · obtain ⟨x, hx, hxk⟩ := hcov k hk
      exact ⟨x, hmem.mpr (.inl hx), hxk⟩
    · exact hk
  · have hle : ∀ q ∈ after m l, m'.off ≤ q.off := by
      intro q hq
      rcases hoff with hoff | ⟨p, hp, hoff⟩
      · exact hoff ▸ (off_of_mem_after hl hq).le
      · exact hoff ▸ hAB p hp q hq
    obtain ⟨hs', ho', hr', hc'⟩ := place_spec hB hle
    rw [insert, hfit]
    refine ⟨pairwise_append.mpr ⟨hA, hs', ?_⟩, ?_, ?_⟩
    · intro a ha b hb; exact (hstop a ha).trans (ho' b hb)
    · intro x hx
      rcases mem_append.mp hx with hx | hx
      · exact ⟨x, mem_cons_of_mem _ (hmem.mpr (.inl hx)), isRest_refl x⟩
      · rcases hr' x hx with rfl | ⟨y, hy, hxy⟩
        · exact ⟨m, mem_cons_self, hrest⟩
        · exact ⟨y, mem_cons_of_mem _ (hmem.mpr (.inr hy)), hxy⟩
    · intro k
      have hm' : m'.Contains k → m.Contains k := by
        have h1 := hrest.stop
        have h2 := hrest.off
        simp only [Contains]; omega
      constructor
      · rintro ⟨x, hx, hxk⟩
        rcases mem_append.mp hx with hx | hx
        · exact .inr ⟨x, hmem.mpr (.inl hx), hxk⟩
        · rcases (hc' k).mp ⟨x, hx, hxk⟩ with hk | ⟨y, hy, hyk⟩
          · exact .inl (hm' hk)
          · exact .inr ⟨y, hmem.mpr (.inr hy), hyk⟩
      · have hplace : m'.Contains k ∨ (∃ x ∈ after m l, x.Contains k) →
            ∃ x ∈ before m l ++ place m' (after m l), x.Contains k := by
          intro h
          obtain ⟨x, hx, hxk⟩ := (hc' k).mpr h
          exact ⟨x, mem_append_right _ hx, hxk⟩
        rintro (hk | ⟨x, hx, hxk⟩)
        · rcases hcov k hk with hk | ⟨x, hx, hxk⟩
          · exact hplace (.inl hk)
          · exact ⟨x, mem_append_left _ hx, hxk⟩
        · rcases hmem.mp hx with hx | hx
          · exact ⟨x, mem_append_left _ hx, hxk⟩
          · exact hplace (.inr ⟨x, hx, hxk⟩)

/-! ## Pieces that touch -/

/-- The offset behind the last piece, if each piece begins at `next`, where the one before stops. -/
def touching : ℕ → List (Piece β τ) → Option ℕ
  | next, [] => some next
  | next, q :: qs => if q.off = next then touching (next + q.data.length) qs else none

/-- The elements of the pieces, one after the other. -/
def joined (l : List (Piece β τ)) : List β := l.flatMap Piece.data

theorem touching_content {R : ℕ → β → Prop} {next n : ℕ} (h : touching next l = some n)
    (hl : ∀ x ∈ l, Content R x) :
    next + (joined l).length = n ∧ ∀ k b, (joined l)[k]? = some b → R (next + k) b := by
  induction l generalizing next with
  | nil =>
    obtain rfl := Option.some.inj h
    exact ⟨rfl, fun k b hk => by simp [joined] at hk⟩
  | cons q qs ih =>
    rw [touching] at h
    split at h
    · rename_i hoff
      obtain ⟨hlen, hcont⟩ := ih h fun x hx => hl x (mem_cons_of_mem _ hx)
      have hjoin : joined (q :: qs) = q.data ++ joined qs := rfl
      rw [hjoin]
      refine ⟨by rw [length_append]; omega, ?_⟩
      intro k b hk
      by_cases hkq : k < q.data.length
      · rw [List.getElem?_append_left hkq] at hk; exact hoff ▸ hl q mem_cons_self k b hk
      · rw [List.getElem?_append_right (by omega)] at hk
        have hR := hcont _ b hk
        have hsum : next + q.data.length + (k - q.data.length) = next + k := by omega
        rwa [hsum] at hR
    · cases h

theorem touching_contains {next n : ℕ} (h : touching next l = some n) (k : ℕ) :
    (∃ x ∈ l, x.Contains k) ↔ next ≤ k ∧ k < n := by
  induction l generalizing next with
  | nil =>
    obtain rfl := Option.some.inj h
    constructor
    · rintro ⟨x, hx, -⟩; exact absurd hx not_mem_nil
    · rintro ⟨hle, hlt⟩; omega
  | cons q qs ih =>
    rw [touching] at h
    split at h
    · rename_i hoff
      have hle : next + q.data.length ≤ n := by
        have := (touching_content (R := fun _ _ => True) h fun _ _ _ _ _ => trivial).1; omega
      have hcons : (∃ x ∈ q :: qs, x.Contains k) ↔ q.Contains k ∨ ∃ x ∈ qs, x.Contains k := by
        simp only [mem_cons, exists_eq_or_imp]
      rw [hcons, ih h]
      simp only [Contains, Piece.stop]; omega
    · cases h

theorem stop_of_touching {next n : ℕ} (h : touching next l = some n) (hp : l.getLast? = some p) :
    p.stop = n := by
  induction l generalizing next with
  | nil => cases hp
  | cons q qs ih =>
    rw [touching] at h
    split at h
    · rename_i hoff
      cases qs with
      | nil =>
        rw [List.getLast?_singleton] at hp
        obtain rfl := Option.some.inj hp
        obtain rfl := Option.some.inj h
        rw [Piece.stop, hoff]
      | cons r rs =>
        rw [List.getLast?_cons_cons] at hp; exact ih h hp
    · cases h

theorem touching_of_contains {next n : ℕ} (hs : Sorted l) (hne : ∀ x ∈ l, x.data ≠ [])
    (hnext : next ≤ n) (hfrom : ∀ x ∈ l, next ≤ x.off) (hto : ∀ x ∈ l, x.stop ≤ n)
    (hall : ∀ k, next ≤ k → k < n → ∃ x ∈ l, x.Contains k) : touching next l = some n := by
  induction l generalizing next with
  | nil =>
    have hn : next = n := by
      by_contra hlt
      obtain ⟨x, hx, -⟩ := hall next le_rfl (by omega)
      exact not_mem_nil hx
    rw [touching, hn]
  | cons q qs ih =>
    obtain ⟨hq, hqs⟩ := pairwise_cons.mp hs
    have hfq := hfrom q mem_cons_self
    have htq := hto q mem_cons_self
    have hpos : 0 < q.data.length := length_pos_iff.mpr (hne q mem_cons_self)
    -- the first element is in the first piece, since the others begin behind it
    have hoff : q.off = next := by
      simp only [Piece.stop] at htq
      obtain ⟨x, hx, hxk⟩ := hall next le_rfl (by omega)
      simp only [Contains] at hxk
      rcases mem_cons.mp hx with rfl | hx
      · omega
      · have := hq x hx
        simp only [Piece.stop] at this; omega
    rw [touching, if_pos hoff]
    simp only [Piece.stop] at htq
    refine ih hqs (fun x hx => hne x (mem_cons_of_mem _ hx)) (by omega) ?_
      (fun x hx => hto x (mem_cons_of_mem _ hx)) ?_
    · intro x hx
      have := hq x hx
      simp only [Piece.stop] at this; omega
    · intro k hk hkn
      obtain ⟨x, hx, hxk⟩ := hall k (by omega) hkn
      rcases mem_cons.mp hx with rfl | hx
      · simp only [Contains, Piece.stop] at hxk; omega
      · exact ⟨x, hx, hxk⟩

end Piece

end FreeBSD.Lib
