import Mathlib

/-!
# Coalesced free areas

An area is a pair of an address and a size. A list of areas is coalesced if
they are in increasing order and no two of them meet or touch.

Results:
* `Coalesced.replace`: a consecutive part of a coalesced list can be replaced.
* `Coalesced.cut`: the front of an area is taken away.
* `Coalesced.between`, `Coalesced.join`: an area is added.
* `Coalesced.total_le`: the sizes add up to no more than there is room for.
* `Coalesced.disjoint_round`: a range that meets no area meets none after its size has been
  rounded up to the unit of the areas.
-/

namespace FreeBSD.Lib

/-- Areas in increasing order that do not touch, made up of units between `lo` and `hi`. -/
structure Coalesced (unit lo hi : ℕ) (l : List (ℕ × ℕ)) : Prop where
  apart : l.Pairwise fun a b => a.1 + a.2 < b.1
  area : ∀ a ∈ l, unit ∣ a.1 ∧ unit ∣ a.2 ∧ 0 < a.2 ∧ lo ≤ a.1 ∧ a.1 + a.2 ≤ hi

/-- The addresses of the areas. -/
def covered (l : List (ℕ × ℕ)) : Set ℕ := {x | ∃ a ∈ l, a.1 ≤ x ∧ x < a.1 + a.2}

/-- The sizes of the areas. -/
def total (l : List (ℕ × ℕ)) : ℕ := (l.map Prod.snd).sum

variable {unit lo hi : ℕ} {a : ℕ × ℕ} {l m pre mid suf new : List (ℕ × ℕ)}

@[simp] theorem total_nil : total [] = 0 := rfl

@[simp] theorem total_cons (a : ℕ × ℕ) (l : List (ℕ × ℕ)) : total (a :: l) = a.2 + total l := by
  simp [total]

@[simp] theorem total_append (l m : List (ℕ × ℕ)) : total (l ++ m) = total l + total m := by
  simp [total]

@[simp] theorem covered_nil : covered [] = ∅ := by
  ext x
  simp [covered]

@[simp] theorem covered_cons (a : ℕ × ℕ) (l : List (ℕ × ℕ)) :
    covered (a :: l) = Set.Ico a.1 (a.1 + a.2) ∪ covered l := by
  ext x
  simp [covered]

@[simp] theorem covered_append (l m : List (ℕ × ℕ)) :
    covered (l ++ m) = covered l ∪ covered m := by
  ext x
  simp only [covered, List.mem_append, Set.mem_ofPred_eq, Set.mem_union, or_and_right, exists_or]

theorem Coalesced.nil : Coalesced unit lo hi [] := ⟨.nil, by simp⟩

theorem coalesced_cons : Coalesced unit lo hi (a :: l) ↔
    (unit ∣ a.1 ∧ unit ∣ a.2 ∧ 0 < a.2 ∧ lo ≤ a.1 ∧ a.1 + a.2 ≤ hi) ∧
      (∀ b ∈ l, a.1 + a.2 < b.1) ∧ Coalesced unit lo hi l := by
  constructor
  · rintro ⟨hap, har⟩
    obtain ⟨h1, h2⟩ := List.pairwise_cons.1 hap
    obtain ⟨h3, h4⟩ := List.forall_mem_cons.1 har
    exact ⟨h3, h1, h2, h4⟩
  · rintro ⟨h1, h2, h3, h4⟩; exact ⟨List.pairwise_cons.2 ⟨h2, h3⟩, List.forall_mem_cons.2 ⟨h1, h4⟩⟩

theorem coalesced_append : Coalesced unit lo hi (l ++ m) ↔
    Coalesced unit lo hi l ∧ Coalesced unit lo hi m ∧ ∀ a ∈ l, ∀ b ∈ m, a.1 + a.2 < b.1 := by
  constructor
  · rintro ⟨hap, har⟩
    obtain ⟨h1, h2, h3⟩ := List.pairwise_append.1 hap
    obtain ⟨h4, h5⟩ := List.forall_mem_append.1 har
    exact ⟨⟨h1, h4⟩, ⟨h2, h5⟩, h3⟩
  · rintro ⟨⟨h1, h2⟩, ⟨h3, h4⟩, h5⟩
    exact ⟨List.pairwise_append.2 ⟨h1, h3, h5⟩, List.forall_mem_append.2 ⟨h2, h4⟩⟩

namespace Coalesced

/-- A wider room. -/
theorem mono {lo' hi' : ℕ} (h : Coalesced unit lo hi l) (hlo : lo' ≤ lo) (hhi : hi ≤ hi') :
    Coalesced unit lo' hi' l := by
  refine ⟨h.apart, fun a ha => ?_⟩
  obtain ⟨h1, h2, h3, h4, h5⟩ := h.area a ha
  exact ⟨h1, h2, h3, hlo.trans h4, h5.trans hhi⟩

/-- A consecutive part is replaced with areas that do not touch the others. -/
theorem replace (h : Coalesced unit lo hi (pre ++ (mid ++ suf))) (hnew : Coalesced unit lo hi new)
    (hpre : ∀ a ∈ pre, ∀ b ∈ new, a.1 + a.2 < b.1) (hsuf : ∀ a ∈ new, ∀ b ∈ suf, a.1 + a.2 < b.1) :
    Coalesced unit lo hi (pre ++ (new ++ suf)) := by
  obtain ⟨h1, h2, h3⟩ := coalesced_append.1 h
  obtain ⟨-, h4, -⟩ := coalesced_append.1 h2
  refine coalesced_append.2 ⟨h1, coalesced_append.2 ⟨hnew, h4, hsuf⟩, fun a ha b hb => ?_⟩
  rcases List.mem_append.1 hb with hb | hb
  · exact hpre a ha b hb
  · exact h3 a ha b (List.mem_append_right mid hb)

/-- The first `b` addresses of an area are taken away. -/
theorem cut (h : Coalesced unit lo hi (pre ++ ([a] ++ suf))) {b : ℕ} (hb : unit ∣ b) (h0 : 0 < b)
    (hle : b ≤ a.2) :
    Coalesced unit lo hi (pre ++ ((if a.2 = b then [] else [(a.1 + b, a.2 - b)]) ++ suf)) ∧
      covered (pre ++ ((if a.2 = b then [] else [(a.1 + b, a.2 - b)]) ++ suf)) =
        covered (pre ++ ([a] ++ suf)) \ Set.Ico a.1 (a.1 + b) ∧
      total (pre ++ ((if a.2 = b then [] else [(a.1 + b, a.2 - b)]) ++ suf)) + b =
        total (pre ++ ([a] ++ suf)) := by
  obtain ⟨hpre, hrest, hap⟩ := coalesced_append.1 h
  obtain ⟨⟨h1, h2, h3, h4, h5⟩, hsuf, -⟩ := coalesced_cons.1 hrest
  have hbefore : ∀ c ∈ pre, c.1 + c.2 < a.1 := fun c hc => hap c hc a (by simp)
  refine ⟨?_, ?_, ?_⟩
  · split_ifs with heq
    · exact h.replace .nil (by simp) (by simp)
    · refine h.replace (coalesced_cons.2 ⟨⟨Nat.dvd_add h1 hb, Nat.dvd_sub h2 hb, ?_, ?_, ?_⟩,
        by simp, .nil⟩) (fun c hc d hd => ?_) fun c hc d hd => ?_
      · show 0 < a.2 - b; omega
      · show lo ≤ a.1 + b; omega
      · show a.1 + b + (a.2 - b) ≤ hi; omega
      · rw [List.mem_singleton.1 hd]
        have := hbefore c hc
        show c.1 + c.2 < a.1 + b
        omega
      · rw [List.mem_singleton.1 hc]
        have := hsuf d hd
        show a.1 + b + (a.2 - b) < d.1
        omega
  · -- the other areas are apart from this one
    have hout : ∀ c, c ∈ pre ∨ c ∈ suf → ∀ x, c.1 ≤ x → x < c.1 + c.2 →
        ¬ (a.1 ≤ x ∧ x < a.1 + b) := by
      rintro c (hc | hc) x hx1 hx2 ⟨hx3, hx4⟩
      · have := hbefore c hc; omega
      · have := hsuf c hc; omega
    ext x
    simp only [covered_append, covered_cons, covered_nil, Set.union_empty, Set.mem_union,
      Set.mem_sdiff, Set.mem_Ico]
    have hx : x ∈ covered (if a.2 = b then [] else [(a.1 + b, a.2 - b)]) ↔
        a.1 + b ≤ x ∧ x < a.1 + a.2 := by
      split_ifs with heq
      · simp only [covered_nil, Set.mem_empty_iff_false, false_iff]; omega
      · simp only [covered_cons, covered_nil, Set.union_empty, Set.mem_Ico]; omega
    rw [hx]
    constructor
    · rintro (⟨c, hc, hc1, hc2⟩ | hx | ⟨c, hc, hc1, hc2⟩)
      · exact ⟨.inl ⟨c, hc, hc1, hc2⟩, hout c (.inl hc) x hc1 hc2⟩
      · exact ⟨.inr (.inl (by omega)), by omega⟩
      · exact ⟨.inr (.inr ⟨c, hc, hc1, hc2⟩), hout c (.inr hc) x hc1 hc2⟩
    · rintro ⟨hx | hx | hx, hnot⟩
      · exact .inl hx
      · exact .inr (.inl (by omega))
      · exact .inr (.inr hx)
  · split_ifs with heq
    · simp; omega
    · simp; omega

/-- An area goes between others that it does not touch. -/
theorem between (h : Coalesced unit lo hi pre) (h' : Coalesced unit lo hi (a :: suf))
    (hap : ∀ b ∈ pre, b.1 + b.2 < a.1) : Coalesced unit lo hi (pre ++ a :: suf) := by
  refine coalesced_append.2 ⟨h, h', fun b hb c hc => ?_⟩
  have h1 := hap b hb
  rcases List.mem_cons.1 hc with rfl | hc
  · exact h1
  · have := (coalesced_cons.1 h').2.1 c hc; omega

/-- Two areas that touch become one. -/
theorem join {c : ℕ × ℕ} (h : Coalesced unit lo hi (pre ++ [a]))
    (h' : Coalesced unit lo hi (c :: suf)) (htouch : a.1 + a.2 = c.1) :
    Coalesced unit lo hi (pre ++ (a.1, a.2 + c.2) :: suf) ∧
      covered (pre ++ (a.1, a.2 + c.2) :: suf) = covered (pre ++ [a]) ∪ covered (c :: suf) := by
  obtain ⟨hpre, ha, hap⟩ := coalesced_append.1 h
  obtain ⟨⟨h1, h2, h3, h4, h5⟩, -, -⟩ := coalesced_cons.1 ha
  obtain ⟨⟨h6, h7, h8, h9, h10⟩, hc, hsuf⟩ := coalesced_cons.1 h'
  constructor
  · refine hpre.between (coalesced_cons.2 ⟨⟨h1, Nat.dvd_add h2 h7, ?_, h4, ?_⟩, fun b hb => ?_,
      hsuf⟩) fun b hb => hap b hb a (by simp)
    · show 0 < a.2 + c.2; omega
    · show a.1 + (a.2 + c.2) ≤ hi; omega
    · have := hc b hb
      show a.1 + (a.2 + c.2) < b.1
      omega
  · rw [covered_append, covered_append, covered_cons, covered_cons, covered_cons, covered_nil,
      Set.union_empty, ← htouch, Set.union_assoc, ← Set.union_assoc (Set.Ico _ _),
      Set.Ico_union_Ico_eq_Ico (by omega) (by omega), add_assoc]

theorem tail (h : Coalesced unit lo hi (a :: l)) : Coalesced unit (a.1 + a.2 + 1) hi l := by
  obtain ⟨-, h1, h2⟩ := coalesced_cons.1 h
  refine ⟨h2.apart, fun b hb => ?_⟩
  obtain ⟨h3, h4, h5, -, h6⟩ := h2.area b hb
  exact ⟨h3, h4, h5, h1 b hb, h6⟩

/-- The areas fit between the bounds. -/
theorem total_le (h : Coalesced unit lo hi l) : total l ≤ hi - lo := by
  induction l generalizing lo with
  | nil => exact Nat.zero_le _
  | cons a l ih =>
    obtain ⟨⟨-, -, -, h1, h2⟩, -⟩ := coalesced_cons.1 h
    have := ih h.tail
    rw [total_cons]; omega

/-- Areas that leave no room are one area. -/
theorem eq_singleton (h : Coalesced unit lo hi l) (hlt : lo < hi) (ht : total l = hi - lo) :
    l = [(lo, hi - lo)] := by
  cases l with
  | nil => rw [total_nil] at ht; omega
  | cons a l =>
    obtain ⟨⟨-, -, -, h1, h2⟩, h3, h4⟩ := coalesced_cons.1 h
    have hle := h.tail.total_le
    rw [total_cons] at ht
    cases l with
    | nil =>
      rw [total_nil, add_zero] at ht
      rw [show a = (lo, hi - lo) from Prod.ext (by show a.1 = lo; omega) ht]
    | cons b l =>
      have hap := h3 b List.mem_cons_self
      have hb := (h4.area b List.mem_cons_self).2.2
      omega

/-- Two areas with a common address are the same. -/
theorem nodup_fst (h : Coalesced unit lo hi l) : (l.map Prod.fst).Nodup := by
  rw [List.Nodup, List.pairwise_map]; exact h.apart.imp fun hab => by omega

theorem nodup_append (h : Coalesced unit lo hi l) (h' : Coalesced unit lo hi m)
    (hap : ∀ a ∈ l, ∀ b ∈ m, a.1 + a.2 ≤ b.1) : ((l ++ m).map Prod.fst).Nodup := by
  rw [List.map_append]
  refine List.nodup_append.2 ⟨h.nodup_fst, h'.nodup_fst, fun x hx y hy => ?_⟩
  obtain ⟨a, ha, rfl⟩ := List.mem_map.1 hx
  obtain ⟨b, hb, rfl⟩ := List.mem_map.1 hy
  have h1 := hap a ha b hb
  have h2 := (h.area a ha).2.2.1; omega

/-- The number of areas. -/
theorem length_le (h : Coalesced unit lo hi l) : l.length ≤ hi - lo := by
  refine le_trans ?_ h.total_le
  have hpos : ∀ a ∈ l, 0 < a.2 := fun a ha => (h.area a ha).2.2.1
  clear h
  induction l with
  | nil => exact le_rfl
  | cons a l ih =>
    have h1 := hpos a List.mem_cons_self
    have h2 := ih fun b hb => hpos b (List.mem_cons_of_mem a hb)
    rw [total_cons, List.length_cons]; omega

/-- The last unit of a range does not meet an area if the range before does not. -/
theorem disjoint_round (h : Coalesced unit lo hi l) {p b r : ℕ} (hp : unit ∣ p) (hr : unit ∣ r)
    (hrb : r < b + unit) (hd : Disjoint (Set.Ico p (p + b)) (covered l)) :
    Disjoint (Set.Ico p (p + r)) (covered l) := by
  rw [Set.disjoint_left] at hd ⊢
  rintro x hx ⟨a, ha, h1, h2⟩
  obtain ⟨hx1, hx2⟩ := hx
  obtain ⟨h3, h4, -, -, -⟩ := h.area a ha
  -- the first address of the unit of `x`
  have hupos : 0 < unit := by
    rcases Nat.eq_zero_or_pos unit with hu | hu
    · subst hu
      rw [Nat.zero_dvd] at hr; omega
    · exact hu
  obtain ⟨q, hq⟩ : ∃ q, q = x / unit := ⟨_, rfl⟩
  have hqx := Nat.div_add_mod x unit
  have hmod := Nat.mod_lt x hupos
  rw [← hq] at hqx
  obtain ⟨pu, rfl⟩ := hp
  obtain ⟨ru, rfl⟩ := hr
  obtain ⟨av, hav⟩ := h3
  obtain ⟨bv, hbv⟩ := h4
  have hq1 : pu ≤ q := by
    by_contra hlt
    have := Nat.mul_le_mul_left unit (show q + 1 ≤ pu by omega)
    rw [mul_add] at this; omega
  have hq2 : q + 1 ≤ pu + ru := by
    by_contra hlt
    have := Nat.mul_le_mul_left unit (show pu + ru ≤ q by omega)
    rw [mul_add] at this; omega
  have hq3 : av ≤ q := by
    by_contra hlt
    have := Nat.mul_le_mul_left unit (show q + 1 ≤ av by omega)
    rw [mul_add] at this; omega
  have hm1 := Nat.mul_le_mul_left unit hq1
  have hm2 := Nat.mul_le_mul_left unit hq2
  have hm3 := Nat.mul_le_mul_left unit hq3
  rw [mul_add, mul_add] at hm2; exact hd ⟨hm1, by omega⟩ ⟨a, ha, by omega, by omega⟩

end Coalesced

end FreeBSD.Lib
