import Mathlib.Tactic

/-!
# Maximal runs of set bits

`IsRun f n p a` says that of the first `n` bits the `a` bits from `p` on are set, and that neither
the bit in front nor the bit behind is. `tally` counts the runs by a measure of their lengths.

Results:
* `IsRun.separate`: two runs are the same, or there is a clear bit between them.
* `tally_clear`: a run of which the front is cleared.
* `tally_set`: a bit that is set joins the runs on both sides.
* `exists_run`: an interval of set bits lies in a run.
-/

namespace FreeBSD.Lib.BitRuns

open Finset

variable {f g : ℕ → Bool} {n p q a b c k x B F : ℕ} {w : ℕ → ℕ}

/-- The `a` bits from `p` on are a maximal run of the first `n`. -/
structure IsRun (f : ℕ → Bool) (n p a : ℕ) : Prop where
  pos : 0 < a
  le : p + a ≤ n
  set : ∀ i, p ≤ i → i < p + a → f i = true
  left : p = 0 ∨ f (p - 1) = false
  right : p + a = n ∨ f (p + a) = false

theorem isRun_iff : IsRun f n p a ↔ 0 < a ∧ p + a ≤ n ∧ (∀ i < a, f (p + i) = true) ∧
    (p = 0 ∨ f (p - 1) = false) ∧ (p + a = n ∨ f (p + a) = false) := by
  constructor
  · rintro ⟨hpos, hle, hset, hleft, hright⟩
    exact ⟨hpos, hle, fun i hi => hset _ (Nat.le_add_right p i) (by omega), hleft, hright⟩
  · rintro ⟨hpos, hle, hset, hleft, hright⟩
    refine ⟨hpos, hle, fun i hpi hi => ?_, hleft, hright⟩
    have hbit := hset (i - p) (by omega)
    rwa [Nat.add_sub_cancel' hpi] at hbit

instance : Decidable (IsRun f n p a) := decidable_of_iff _ isRun_iff.symm

/-- The runs, with where they begin and how long they are. -/
def runs (f : ℕ → Bool) (n : ℕ) : Finset (ℕ × ℕ) :=
  (Finset.range n ×ˢ Finset.range (n + 1)).filter fun r => IsRun f n r.1 r.2

/-- How many runs have the measure `k`. -/
def tally (w : ℕ → ℕ) (f : ℕ → Bool) (n k : ℕ) : ℕ :=
  ((runs f n).filter fun r => w r.2 = k).card

theorem mem_runs : (p, a) ∈ runs f n ↔ IsRun f n p a := by
  rw [runs, mem_filter, mem_product, mem_range, mem_range]
  refine and_iff_right_of_imp fun h => ⟨?_, ?_⟩
  · have hpos := h.pos
    have hle := h.le
    dsimp only at hpos hle ⊢; omega
  · have hle := h.le
    dsimp only at hle ⊢; omega

theorem isRun_congr (h : ∀ i < n, f i = g i) : IsRun f n p a ↔ IsRun g n p a := by
  have himp : ∀ {f g : ℕ → Bool}, (∀ i < n, f i = g i) → IsRun f n p a → IsRun g n p a := by
    intro f g h hr
    have hpos := hr.pos
    have hle := hr.le
    exact {
      pos := hpos
      le := hle
      set := fun i hpi hi => by
        rw [← h i (by omega)]
        exact hr.set i hpi hi
      left := hr.left.imp id fun hbit => by rwa [← h _ (by omega)]
      right := by
        by_cases hn : p + a = n
        · exact .inl hn
        · exact .inr (by rw [← h _ (by omega)]; exact hr.right.resolve_left hn) }
  exact ⟨himp h, himp fun i hi => (h i hi).symm⟩

theorem runs_congr (h : ∀ i < n, f i = g i) : runs f n = runs g n := by
  ext ⟨p, a⟩
  rw [mem_runs, mem_runs, isRun_congr h]

/-- Two runs are the same, or there is a clear bit between them. -/
theorem IsRun.separate (h : IsRun f n p a) (h' : IsRun f n q b) :
    p = q ∧ a = b ∨ p + a < q ∨ q + b < p := by
  have hpos := h.pos
  have hpos' := h'.pos
  have hle := h.le
  have hle' := h'.le
  -- a run does not begin, nor end, inside another one
  have hstart : ∀ {p a q b}, IsRun f n p a → IsRun f n q b → p < q → q ≤ p + a → False := by
    intro p a q b h h' hpq hqa
    have hset := h.set (q - 1) (by omega) (by omega)
    rcases h'.left with h0 | hclear
    · omega
    · rw [hset] at hclear
      cases hclear
  have hend : ∀ {p a b}, IsRun f n p a → IsRun f n p b → a < b → False := by
    intro p a b h h' hab
    have hset := h'.set (p + a) (by omega) (by omega)
    have hle' := h'.le
    rcases h.right with hn | hclear
    · omega
    · rw [hset] at hclear
      cases hclear
  rcases lt_trichotomy p q with hpq | rfl | hpq
  · by_cases hqa : q ≤ p + a
    · exact (hstart h h' hpq hqa).elim
    · exact .inr (.inl (by omega))
  · rcases lt_trichotomy a b with hab | rfl | hab
    · exact (hend h h' hab).elim
    · exact .inl ⟨rfl, rfl⟩
    · exact (hend h' h hab).elim
  · by_cases hqa : p ≤ q + b
    · exact (hstart h' h hpq hqa).elim
    · exact .inr (.inr (by omega))

/-- A run that lies apart from where two maps differ is a run of both. -/
theorem IsRun.transfer (h : IsRun f n q b)
    (hsame : ∀ i, i + 1 = q ∨ q ≤ i ∧ i ≤ q + b → f i = g i) :
    IsRun g n q b where
  pos := h.pos
  le := h.le
  set i hqi hi := by rw [← hsame i (Or.inr ⟨hqi, hi.le⟩)]; exact h.set i hqi hi
  left := by
    by_cases hq : q = 0
    · exact .inl hq
    · refine .inr ?_
      rw [← hsame (q - 1) (.inl (by omega))]
      exact h.left.resolve_left hq
  right := h.right.imp id fun hclear => by
    rwa [← hsame (q + b) (.inr ⟨Nat.le_add_right q b, le_rfl⟩)]

/-! ## Clearing the front of a run -/

theorem runs_clear (h : IsRun f n p a) (hca : c ≤ a) (hc : 0 < c)
    (hg : ∀ i, g i = (f i && !decide (p ≤ i ∧ i < p + c))) :
    runs g n = if c < a then insert (p + c, a - c) ((runs f n).erase (p, a))
      else (runs f n).erase (p, a) := by
  have hin : ∀ i, p ≤ i → i < p + c → g i = false := fun i hpi hi => by
    rw [hg, decide_eq_true ⟨hpi, hi⟩, Bool.not_true, Bool.and_false]
  have hout : ∀ i, ¬(p ≤ i ∧ i < p + c) → g i = f i := fun i hi => by
    rw [hg, decide_eq_false hi, Bool.not_false, Bool.and_true]
  have hle := h.le
  -- what is left of the run
  have hrest : c < a → IsRun g n (p + c) (a - c) := fun hlt => {
    pos := by omega
    le := by omega
    set := fun i hpi hi => by
      rw [hout i (by omega)]
      exact h.set i (by omega) (by omega)
    left := .inr (hin _ (by omega) (by omega))
    right := by
      have hend : p + c + (a - c) = p + a := by omega
      rw [hend, hout _ (by omega)]
      exact h.right }
  have hiff : ∀ q b, IsRun g n q b ↔
      c < a ∧ q = p + c ∧ b = a - c ∨ (q, b) ≠ (p, a) ∧ IsRun f n q b := by
    intro q b
    constructor
    · intro hr
      have hbpos := hr.pos
      have hble := hr.le
      have hbits : ∀ i, q ≤ i → i < q + b → ¬(p ≤ i ∧ i < p + c) := fun i hqi hi hpi => by
        have hset := hr.set i hqi hi
        rw [hin i hpi.1 hpi.2] at hset
        cases hset
      have hfirst := hbits q le_rfl (by omega)
      have hlast := hbits (q + b - 1) (by omega) (by omega)
      have hfront : q < p → q + b ≤ p := fun hqp => by
        by_contra hgt
        exact hbits p (by omega) (by omega) ⟨le_rfl, by omega⟩
      by_cases hqp : q < p
      · -- in front of the run
        have hqb := hfront hqp
        have hne : q + b ≠ p := fun heq => by
          have hset := hr.set (p - 1) (by omega) (by omega)
          rw [hout _ (by omega)] at hset
          rcases h.left with h0 | hclear
          · omega
          · rw [hset] at hclear
            cases hclear
        refine .inr ⟨fun heq => by cases heq; omega, hr.transfer fun i hi => hout i (by omega)⟩
      · by_cases hqa : q < p + a
        · -- in the run: its rest
          have hlt : c < a := by omega
          rcases (hrest hlt).separate hr with ⟨h1, h2⟩ | hlt' | hlt'
          · exact .inl ⟨hlt, h1.symm, h2.symm⟩
          · omega
          · omega
        · -- behind the run
          have hne : q ≠ p + a := fun heq => by
            have hset := hr.set q le_rfl (by omega)
            rw [hout _ (by omega), heq] at hset
            rcases h.right with h0 | hclear
            · omega
            · rw [hset] at hclear
              cases hclear
          refine .inr ⟨fun heq => by cases heq; omega, hr.transfer fun i hi => hout i (by omega)⟩
    · rintro (⟨hlt, rfl, rfl⟩ | ⟨hne, hr⟩)
      · exact hrest hlt
      · refine hr.transfer fun i hi => (hout i ?_).symm
        rcases h.separate hr with ⟨rfl, rfl⟩ | hlt | hlt
        · exact absurd rfl hne
        · omega
        · omega
  ext ⟨q, b⟩
  rw [mem_runs, hiff]
  split
  · next hlt => simp [hlt, mem_runs]
  · next hlt => simp [hlt, mem_runs]

/-! ## Setting a bit -/

/-- The clear bit `x` has `B` set bits in front and `F` behind. -/
structure Between (f : ℕ → Bool) (n x B F : ℕ) : Prop where
  clear : f x = false
  back_le : B ≤ x
  back : ∀ i, x ≤ i + B → i < x → f i = true
  back_end : B = x ∨ f (x - B - 1) = false
  forw_le : x + 1 + F ≤ n
  forw : ∀ i, x < i → i < x + 1 + F → f i = true
  forw_end : x + 1 + F = n ∨ f (x + 1 + F) = false

theorem Between.isRun_back (h : Between f n x B F) (hB : 0 < B) : IsRun f n (x - B) B := by
  have hle := h.back_le
  have hle' := h.forw_le
  have hend : x - B + B = x := by omega
  exact {
    pos := hB
    le := by omega
    set := fun i hi hi' => h.back i (by omega) (by omega)
    left := h.back_end.imp (fun heq => by omega) id
    right := by
      rw [hend]
      exact .inr h.clear }

theorem Between.isRun_forw (h : Between f n x B F) (hF : 0 < F) : IsRun f n (x + 1) F where
  pos := hF
  le := h.forw_le
  set i hi hi' := h.forw i hi hi'
  left := Or.inr h.clear
  right := h.forw_end

theorem runs_set (h : Between f n x B F) (hg : ∀ i, g i = (f i || decide (i = x))) :
    runs g n = insert (x - B, B + F + 1) (((runs f n).erase (x - B, B)).erase (x + 1, F)) := by
  have hself : g x = true := by rw [hg, decide_eq_true rfl, Bool.or_true]
  have hout : ∀ i, i ≠ x → g i = f i := fun i hi => by
    rw [hg, decide_eq_false hi, Bool.or_false]
  have hback := h.back_le
  have hforw := h.forw_le
  have hjoin : IsRun g n (x - B) (B + F + 1) := {
    pos := by omega
    le := by omega
    set := fun i hi hi' => by
      by_cases hix : i = x
      · rw [hix, hself]
      · rw [hout i hix]
        by_cases hlt : i < x
        · exact h.back i (by omega) hlt
        · exact h.forw i (by omega) (by omega)
    left := by
      by_cases h0 : x - B = 0
      · exact .inl h0
      · refine .inr ?_
        rw [hout _ (by omega)]
        exact h.back_end.resolve_left (by omega)
    right := by
      have hend : x - B + (B + F + 1) = x + 1 + F := by omega
      rw [hend, hout _ (by omega)]
      exact h.forw_end }
  have hiff : ∀ q b, IsRun g n q b ↔ q = x - B ∧ b = B + F + 1 ∨
      (q, b) ≠ (x + 1, F) ∧ (q, b) ≠ (x - B, B) ∧ IsRun f n q b := by
    intro q b
    constructor
    · intro hr
      have hbpos := hr.pos
      rcases hjoin.separate hr with ⟨rfl, rfl⟩ | hlt | hlt
      · exact .inl ⟨rfl, rfl⟩
      · refine .inr ⟨fun heq => by cases heq; omega, fun heq => by cases heq; omega, ?_⟩
        exact hr.transfer fun i hi => hout i (by omega)
      · refine .inr ⟨fun heq => by cases heq; omega, fun heq => by cases heq; omega, ?_⟩
        exact hr.transfer fun i hi => hout i (by omega)
    · rintro (⟨rfl, rfl⟩ | ⟨hneF, hneB, hr⟩)
      · exact hjoin
      · have hbpos := hr.pos
        refine hr.transfer fun i hi => (hout i fun hix => ?_).symm
        subst hix
        have hnot : ¬(q ≤ i ∧ i < q + b) := fun hin => by
          have hset := hr.set i hin.1 hin.2
          rw [h.clear] at hset
          cases hset
        -- it would be the run on one of the sides
        rcases hi with hq | hq
        · by_cases hF : 0 < F
          · rcases (h.isRun_forw hF).separate hr with ⟨h1, h2⟩ | hlt | hlt
            · exact hneF (by rw [← h1, ← h2])
            · omega
            · omega
          · have hset := hr.set q le_rfl (by omega)
            have hle := hr.le
            rcases h.forw_end with hn | hclear
            · omega
            · have hqx : q = i + 1 + F := by omega
              rw [← hqx, hset] at hclear
              cases hclear
        · have hqb : q + b = i := by omega
          by_cases hB : 0 < B
          · rcases (h.isRun_back hB).separate hr with ⟨h1, h2⟩ | hlt | hlt
            · exact hneB (by rw [← h1, ← h2])
            · omega
            · omega
          · have hset := hr.set (i - 1) (by omega) (by omega)
            rcases h.back_end with h0 | hclear
            · omega
            · have hib : i - B - 1 = i - 1 := by omega
              rw [hib, hset] at hclear
              cases hclear
  ext ⟨q, b⟩
  rw [mem_runs, hiff]; simp [mem_runs]

/-! ## Counting -/

theorem tally_eq_sum (w : ℕ → ℕ) (f : ℕ → Bool) (n k : ℕ) :
    (tally w f n k : ℤ) = ∑ r ∈ runs f n, if w r.2 = k then 1 else 0 := by
  rw [tally, card_filter]
  push_cast; rfl

theorem tally_congr (h : ∀ i < n, f i = g i) : tally w f n k = tally w g n k := by
  rw [tally, tally, runs_congr h]

/-- A run of which the front is cleared. -/
theorem tally_clear (h : IsRun f n p a) (hca : c ≤ a) (hc : 0 < c)
    (hg : ∀ i, g i = (f i && !decide (p ≤ i ∧ i < p + c))) :
    (tally w g n k : ℤ) = tally w f n k - (if w a = k then 1 else 0) +
      if c < a ∧ w (a - c) = k then 1 else 0 := by
  have herase := sum_erase_eq_sub (mem_runs.2 h)
    (f := fun r : ℕ × ℕ => if w r.2 = k then (1 : ℤ) else 0)
  rw [tally_eq_sum, tally_eq_sum, runs_clear h hca hc hg]
  by_cases hlt : c < a
  · have hnot : (p + c, a - c) ∉ (runs f n).erase (p, a) := fun hmem => by
      have hr := mem_runs.1 (mem_of_mem_erase hmem)
      rcases h.separate hr with ⟨h1, -⟩ | hlt | hlt
      · omega
      · omega
      · omega
    rw [if_pos hlt, sum_insert hnot, herase]
    simp only [hlt, true_and]; ring
  · rw [if_neg hlt, herase]; simp only [hlt, false_and, if_false, add_zero]

/-- A bit that is set joins the runs on both sides. -/
theorem tally_set (h : Between f n x B F) (hg : ∀ i, g i = (f i || decide (i = x))) :
    (tally w g n k : ℤ) = tally w f n k - (if 0 < B ∧ w B = k then 1 else 0) -
      (if 0 < F ∧ w F = k then 1 else 0) + if w (B + F + 1) = k then 1 else 0 := by
  have hback := h.back_le
  have hnot : (x - B, B + F + 1) ∉ ((runs f n).erase (x - B, B)).erase (x + 1, F) := fun hmem => by
    have hr := mem_runs.1 (mem_of_mem_erase (mem_of_mem_erase hmem))
    have hset := hr.set x (by omega) (by omega)
    rw [h.clear] at hset
    cases hset
  -- an empty run is none
  have herase : ∀ (s : Finset (ℕ × ℕ)) (q b : ℕ), (0 < b → (q, b) ∈ s) → (b = 0 → (q, b) ∉ s) →
      (∑ r ∈ s.erase (q, b), if w r.2 = k then (1 : ℤ) else 0) =
        (∑ r ∈ s, if w r.2 = k then (1 : ℤ) else 0) - if 0 < b ∧ w b = k then 1 else 0 := by
    intro s q b hmem hnmem
    by_cases hb : 0 < b
    · simp only [sum_erase_eq_sub (hmem hb), hb, true_and]
    · rw [erase_eq_of_notMem (hnmem (by omega)), if_neg fun hand => hb hand.1, sub_zero]
  have hzero : ∀ q, (q, 0) ∉ runs f n := fun q hmem => lt_irrefl 0 (mem_runs.1 hmem).pos
  rw [tally_eq_sum, tally_eq_sum, runs_set h hg, sum_insert hnot,
    herase _ (x + 1) F, herase _ (x - B) B]
  · ring
  · exact fun hB => mem_runs.2 (h.isRun_back hB)
  · rintro rfl; exact hzero _
  · exact fun hF => mem_erase.2
      ⟨fun heq => by have hpos := (Prod.mk.inj heq).1; omega, mem_runs.2 (h.isRun_forw hF)⟩
  · rintro rfl; exact fun hmem => hzero _ (mem_of_mem_erase hmem)

/-! ## Existence -/

/-- All bits are one run. -/
theorem runs_full (hn : 0 < n) (h : ∀ i < n, f i = true) : runs f n = {(0, n)} := by
  have hrun : IsRun f n 0 n :=
    ⟨hn, by omega, fun i _ hi => h i (by omega), .inl rfl, .inl (zero_add n)⟩
  ext ⟨q, b⟩
  rw [mem_runs, mem_singleton]
  constructor
  · intro hr
    have hle := hr.le
    rcases hrun.separate hr with ⟨rfl, rfl⟩ | hlt | hlt
    · rfl
    · omega
    · omega
  · intro heq
    cases heq
    exact hrun

/-- A run that contains the bit `x`. -/
theorem exists_run_at (hx : x < n) (hset : f x = true) :
    ∃ p a, IsRun f n p a ∧ p ≤ x ∧ x < p + a := by
  -- the first bit behind that is clear, or the end
  have hend : ∃ e, x < e ∧ (e = n ∨ f e = false) := ⟨n, hx, .inl rfl⟩
  classical
  obtain ⟨e, he, hmin⟩ : ∃ e, (x < e ∧ (e = n ∨ f e = false)) ∧
      ∀ d < e, ¬(x < d ∧ (d = n ∨ f d = false)) :=
    ⟨Nat.find hend, Nat.find_spec hend, fun d hd => Nat.find_min hend hd⟩
  -- the first bit from which on all are set
  have hstart : ∃ p, p ≤ x ∧ ∀ i, p ≤ i → i ≤ x → f i = true :=
    ⟨x, le_rfl, fun i hxi hix => by rwa [le_antisymm hix hxi]⟩
  obtain ⟨p, ⟨hpx, hall⟩, hpmin⟩ : ∃ p, (p ≤ x ∧ ∀ i, p ≤ i → i ≤ x → f i = true) ∧
      ∀ d < p, ¬(d ≤ x ∧ ∀ i, d ≤ i → i ≤ x → f i = true) :=
    ⟨Nat.find hstart, Nat.find_spec hstart, fun d hd => Nat.find_min hstart hd⟩
  have hen : e ≤ n := by
    by_contra hgt
    exact hmin n (by omega) ⟨hx, .inl rfl⟩
  have hsetend : ∀ i, x < i → i < e → f i = true := fun i hxi hie => by
    by_contra hne
    exact hmin i hie ⟨hxi, .inr (Bool.eq_false_of_not_eq_true hne)⟩
  have hsum : p + (e - p) = e := by omega
  refine ⟨p, e - p, ⟨by omega, by omega, fun i hpi hi => ?_, ?_, ?_⟩, hpx, by omega⟩
  · by_cases hix : i ≤ x
    · exact hall i hpi hix
    · exact hsetend i (by omega) (by omega)
  · by_cases hp : p = 0
    · exact .inl hp
    · refine .inr (Bool.eq_false_of_not_eq_true fun htrue => ?_)
      refine hpmin (p - 1) (by omega) ⟨by omega, fun i hpi hix => ?_⟩
      by_cases hip : i = p - 1
      · rw [hip, htrue]
      · exact hall i (by omega) hix
  · rw [hsum]; exact he.2

/-- An interval of set bits lies in a run. -/
theorem exists_run (hc : 0 < c) (hle : p + c ≤ n) (hset : ∀ i, p ≤ i → i < p + c → f i = true) :
    ∃ q a, IsRun f n q a ∧ q ≤ p ∧ p + c ≤ q + a := by
  have hpn : p < n := by omega
  obtain ⟨q, a, hr, hqp, hpq⟩ := exists_run_at hpn (hset p le_rfl (by omega))
  refine ⟨q, a, hr, hqp, not_lt.1 fun hlt => ?_⟩
  rcases hr.right with hn | hclear
  · omega
  · rw [hset (q + a) (by omega) (by omega)] at hclear
    cases hclear

end FreeBSD.Lib.BitRuns
