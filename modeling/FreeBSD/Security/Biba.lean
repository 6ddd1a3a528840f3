import Mathlib.Order.WithBot
import Mathlib.Data.Finset.Basic
import Mathlib.Data.Finset.Filter
import Mathlib.Order.Interval.Finset.Nat

/-!
# Labels of the Biba integrity policy, `security/mac_biba/mac_biba.c`

Models of the comparisons of elements and ranges (lines 166–279) and of `mac_biba_valid`
(lines 347–417). A `panic` or a failed `KASSERT` is `none`. The 32 bytes of a compartment set are
one word of 256 bits: bit `(b - 1) & 7` of byte `(b - 1) >> 3` is bit `b - 1` of the word.

* `level` — the order the policy is about: grades with their compartment sets, between a least
  and a greatest element.
* `dominateElement_eq` — on elements that are not `equal`, `mac_biba_dominate_element` is `≥` of
  their levels.
* `dominance_laws` — the laws that the access checks compose.
-/

namespace FreeBSD.Biba

open List

/-- `mbe_type`, the `MAC_BIBA_TYPE_*` constants and the other values of the `u_short`. -/
inductive MbeType
  | undef
  | grade
  | low
  | high
  | equal
  | other (v : BitVec 16)
  deriving DecidableEq

abbrev Compartments := BitVec 256

def maxCompartments : ℕ := 256

structure MacBibaElement where
  mbeType : MbeType
  mbeGrade : BitVec 16
  mbeCompartments : Compartments
  deriving DecidableEq

structure MacBiba where
  mbFlags : BitVec 32
  mbSingle : MacBibaElement
  mbRangelow : MacBibaElement
  mbRangehigh : MacBibaElement
  deriving DecidableEq

def flagSingle : BitVec 32 := 1
def flagRange : BitVec 32 := 2

inductive Errno
  | ok
  | EINVAL
  deriving DecidableEq

/-- `MAC_BIBA_BIT_TEST`. -/
def bitTest (b : ℕ) (w : Compartments) : Bool := w.getLsbD (b - 1)

/-- `MAC_BIBA_BIT_SET`. -/
def bitSet (b : ℕ) (w : Compartments) : Compartments := w ||| BitVec.twoPow 256 (b - 1)

/-- `biba_bit_set_empty` (lines 130–138). -/
def bibaBitSetEmpty (w : Compartments) : Bool := w == 0

/-- `mac_biba_dominate_element` (lines 166–213). -/
def dominateElement (a b : MacBibaElement) : Option Bool :=
  match a.mbeType with
  | .equal | .high => some true
  | .low =>
    match b.mbeType with
    | .grade | .high => some false
    | .equal | .low => some true
    | _ => none
  | .grade =>
    match b.mbeType with
    | .equal | .low => some true
    | .high => some false
    | .grade =>
      if (List.range' 1 maxCompartments).any fun bit =>
          !bitTest bit a.mbeCompartments && bitTest bit b.mbeCompartments then
        some false
      else
        some (decide (b.mbeGrade ≤ a.mbeGrade))
    | _ => none
  | _ => none

def hasFlag (l : MacBiba) (flag : BitVec 32) : Bool := l.mbFlags &&& flag != 0

/-- The `&&` of two calls that may panic; the second is made only if the first holds. -/
def andAlso (x y : Option Bool) : Option Bool :=
  match x with
  | some true => y
  | r => r

/-- `mac_biba_range_in_range` (lines 229–237). -/
def rangeInRange (rangea rangeb : MacBiba) : Option Bool :=
  andAlso (dominateElement rangeb.mbRangehigh rangea.mbRangehigh)
    (dominateElement rangea.mbRangelow rangeb.mbRangelow)

/-- `mac_biba_single_in_range` (lines 239–255). -/
def singleInRange (single range : MacBiba) : Option Bool :=
  if !hasFlag single flagSingle || !hasFlag range flagRange then none
  else
    andAlso (dominateElement range.mbRangehigh single.mbSingle)
      (dominateElement single.mbSingle range.mbRangelow)

/-- `mac_biba_equal_element` (lines 270–279). -/
def equalElement (a b : MacBibaElement) : Bool :=
  if a.mbeType = .equal ∨ b.mbeType = .equal then true
  else a.mbeType = b.mbeType && a.mbeGrade == b.mbeGrade

/-- The `switch` that `mac_biba_valid` makes on each element that the flags name. -/
def validElement (e : MacBibaElement) : Errno :=
  match e.mbeType with
  | .grade => .ok
  | .equal | .high | .low =>
    if e.mbeGrade ≠ 0 ∨ !bibaBitSetEmpty e.mbeCompartments then .EINVAL else .ok
  | _ => .EINVAL

/-- The part of `mac_biba_valid` on the range (lines 373–414). -/
def validRange (l : MacBiba) : Option Errno :=
  if hasFlag l flagRange then
    if validElement l.mbRangelow = .EINVAL then some .EINVAL
    else if validElement l.mbRangehigh = .EINVAL then some .EINVAL
    else
      match dominateElement l.mbRangehigh l.mbRangelow with
      | none => none
      | some false => some .EINVAL
      | some true => some .ok
  else if l.mbRangelow.mbeType ≠ .undef ∨ l.mbRangehigh.mbeType ≠ .undef then some .EINVAL
  else some .ok

/-- `mac_biba_valid` (lines 347–417). -/
def macBibaValid (l : MacBiba) : Option Errno :=
  if hasFlag l flagSingle then
    if validElement l.mbSingle = .EINVAL then some .EINVAL else validRange l
  else if l.mbSingle.mbeType ≠ .undef then some .EINVAL
  else validRange l

/-! ## What `mac_biba_valid` accepts -/

/-- The elements that the flags of a label name. -/
def MacBiba.elements (l : MacBiba) : List MacBibaElement :=
  (if hasFlag l flagSingle then [l.mbSingle] else []) ++
    (if hasFlag l flagRange then [l.mbRangelow, l.mbRangehigh] else [])

variable {l : MacBiba} {e a b : MacBibaElement}

theorem mem_elements : e ∈ l.elements ↔ (hasFlag l flagSingle = true ∧ e = l.mbSingle) ∨
      (hasFlag l flagRange = true ∧ (e = l.mbRangelow ∨ e = l.mbRangehigh)) := by
  unfold MacBiba.elements
  rw [mem_append]
  split <;> split <;> simp_all

theorem Errno.ne_EINVAL {x : Errno} : x ≠ .EINVAL ↔ x = .ok := by
  cases x <;> simp

theorem validRange_range (h : validRange l = some .ok) (hf : hasFlag l flagRange = true) :
    validElement l.mbRangelow = .ok ∧ validElement l.mbRangehigh = .ok ∧
      dominateElement l.mbRangehigh l.mbRangelow = some true := by
  unfold validRange at h
  rw [if_pos hf] at h
  split at h
  · cases h
  · rename_i hlow
    split at h
    · cases h
    · rename_i hhigh
      refine ⟨Errno.ne_EINVAL.1 hlow, Errno.ne_EINVAL.1 hhigh, ?_⟩
      split at h
      · cases h
      · cases h
      · assumption

/-- A label without the flag has an undefined range, which dominates nothing. -/
theorem range_of_dominate (h : validRange l = some .ok)
    (hd : dominateElement l.mbRangehigh e = some true) : hasFlag l flagRange = true := by
  by_contra hf
  unfold validRange at h
  rw [if_neg hf] at h
  split at h
  · cases h
  · rename_i hundef
    have hhigh : l.mbRangehigh.mbeType = .undef := by
      by_contra hne
      exact hundef (.inr hne)
    unfold dominateElement at hd
    rw [hhigh] at hd
    cases hd

theorem macBibaValid_range (h : macBibaValid l = some .ok) : validRange l = some .ok := by
  unfold macBibaValid at h
  split at h
  · split at h
    · cases h
    · exact h
  · split at h
    · cases h
    · exact h

theorem macBibaValid_single (h : macBibaValid l = some .ok) (hf : hasFlag l flagSingle = true) :
    validElement l.mbSingle = .ok := by
  unfold macBibaValid at h
  rw [if_pos hf] at h
  split at h
  · cases h
  · rename_i hs
    exact Errno.ne_EINVAL.1 hs

/-- Every element that the flags of an accepted label name has passed its own `switch`. -/
theorem valid_of_mem (h : macBibaValid l = some .ok) (he : e ∈ l.elements) :
    validElement e = .ok := by
  obtain ⟨hf, rfl⟩ | ⟨hf, he⟩ := mem_elements.1 he
  · exact macBibaValid_single h hf
  · obtain ⟨hlow, hhigh, -⟩ := validRange_range (macBibaValid_range h) hf
    obtain rfl | rfl := he
    · exact hlow
    · exact hhigh

/-- A special element that passes the `switch` has grade 0 and no compartments. -/
theorem validElement_special (h : validElement e = .ok) (ht : e.mbeType ≠ .grade) :
    e.mbeGrade = 0 ∧ e.mbeCompartments = 0 := by
  unfold validElement at h
  split at h
  · contradiction
  all_goals simp_all [bibaBitSetEmpty]

theorem validElement_type (h : validElement e = .ok) :
    e.mbeType = .grade ∨ e.mbeType = .equal ∨ e.mbeType = .high ∨ e.mbeType = .low := by
  unfold validElement at h
  split at h <;> simp_all

/-! ## The order of the policy -/

/-- The set of compartments, numbered `1, …, 256`. -/
def compartments (w : Compartments) : Finset ℕ :=
  (Finset.Icc 1 maxCompartments).filter fun b => bitTest b w

theorem mem_compartments {b : ℕ} {w : Compartments} :
    b ∈ compartments w ↔ (1 ≤ b ∧ b ≤ 256) ∧ bitTest b w = true := by
  simp [compartments, maxCompartments]

theorem compartments_injective {v w : Compartments} (h : compartments v = compartments w) :
    v = w := by
  apply BitVec.eq_of_getLsbD_eq
  intro i hi
  have hiff : i + 1 ∈ compartments v ↔ i + 1 ∈ compartments w := by rw [h]
  have hrange : 1 ≤ i + 1 ∧ i + 1 ≤ 256 := by omega
  simp only [mem_compartments, hrange, true_and, bitTest, Nat.add_sub_cancel] at hiff
  exact Bool.eq_iff_iff.2 hiff

/-- Integrity levels: `low`, the grades with their compartments, `high`. -/
abbrev Level := WithBot (WithTop (ℕ × Finset ℕ))

/-- The level of an element; `equal`, which is compared outside the order, has none of its own. -/
def level (e : MacBibaElement) : Level :=
  match e.mbeType with
  | .low => ⊥
  | .grade => ((((e.mbeGrade.toNat, compartments e.mbeCompartments) : ℕ × Finset ℕ) :
      WithTop (ℕ × Finset ℕ)) : Level)
  | _ => ((⊤ : WithTop (ℕ × Finset ℕ)) : Level)

/-- An element of an accepted label, other than `equal`. -/
def Proper (e : MacBibaElement) : Prop :=
  (∃ l, macBibaValid l = some .ok ∧ e ∈ l.elements) ∧ e.mbeType ≠ .equal

theorem Proper.valid (h : Proper e) : validElement e = .ok := by
  obtain ⟨⟨l, hl, he⟩, -⟩ := h
  exact valid_of_mem hl he

theorem Proper.type (h : Proper e) : e.mbeType = .grade ∨ e.mbeType = .high ∨ e.mbeType = .low := by
  obtain ht | ht | ht | ht := validElement_type h.valid
  · exact .inl ht
  · exact absurd ht h.2
  · exact .inr (.inl ht)
  · exact .inr (.inr ht)

/-- The loop over the bits of `mac_biba_dominate_element` finds nothing just when one set of
compartments contains the other. -/
theorem loop_eq_subset (v w : Compartments) :
    ((List.range' 1 maxCompartments).any fun bit => !bitTest bit v && bitTest bit w) = false ↔
      compartments w ⊆ compartments v := by
  rw [any_eq_false]
  constructor
  · intro h b hb
    obtain ⟨hrange, hbit⟩ := mem_compartments.1 hb
    have hloop := h b (by rw [mem_range'_1, maxCompartments]; omega)
    rw [mem_compartments]
    refine ⟨hrange, ?_⟩
    by_contra hv
    exact hloop (by simp [hbit, hv])
  · intro h b hb hbit
    rw [mem_range'_1, maxCompartments] at hb
    rw [Bool.and_eq_true, Bool.not_eq_true'] at hbit
    have hv := h (mem_compartments.2 ⟨by omega, hbit.2⟩)
    rw [mem_compartments, hbit.1] at hv; exact absurd hv.2 (by decide)

/-- Between proper elements dominance is the order of their levels. -/
theorem dominateElement_eq (ha : Proper a) (hb : Proper b) :
    dominateElement a b = some true ↔ level b ≤ level a := by
  unfold dominateElement level
  obtain hta | hta | hta := ha.type <;> obtain htb | htb | htb := hb.type <;>
    simp only [hta, htb, le_refl, bot_le, Option.some.injEq, Bool.false_eq_true, false_iff,
      true_iff]
  · -- two grades: the loop over the compartments, then the grades
    have hloop := loop_eq_subset a.mbeCompartments b.mbeCompartments
    rw [WithBot.coe_le_coe, WithTop.coe_le_coe, Prod.mk_le_mk, ← hloop]
    cases hany : (List.range' 1 maxCompartments).any fun bit =>
        !bitTest bit a.mbeCompartments && bitTest bit b.mbeCompartments with
    | true => simp
    | false => simp [BitVec.le_def]
  · rw [WithBot.coe_le_coe]; exact not_le_of_gt (WithTop.coe_lt_top _)
  · rw [WithBot.coe_le_coe]; exact le_top
  · simp
  · simp

/-- Proper elements of one level are the same element. -/
theorem level_injective (ha : Proper a) (hb : Proper b) (h : level a = level b) : a = b := by
  have hzero : ∀ {e : MacBibaElement}, Proper e → e.mbeType ≠ .grade →
      e.mbeGrade = 0 ∧ e.mbeCompartments = 0 :=
    fun he ht => validElement_special he.valid ht
  obtain ⟨ta, ga, ca⟩ := a
  obtain ⟨tb, gb, cb⟩ := b
  unfold level at h
  obtain hta | hta | hta := ha.type <;> obtain htb | htb | htb := hb.type <;>
    simp only at hta htb <;> subst hta <;> subst htb
  · have hpair := WithTop.coe_injective (WithBot.coe_injective h)
    have hgrade : ga = gb := BitVec.eq_of_toNat_eq (congrArg Prod.fst hpair)
    have hcomp : ca = cb := compartments_injective (congrArg Prod.snd hpair)
    rw [hgrade, hcomp]
  · exact absurd (WithBot.coe_injective h) (WithTop.coe_ne_top)
  · exact absurd h (WithBot.coe_ne_bot)
  · exact absurd (WithBot.coe_injective h).symm (WithTop.coe_ne_top)
  · obtain ⟨rfl, rfl⟩ := hzero ha (by simp)
    obtain ⟨rfl, rfl⟩ := hzero hb (by simp)
    rfl
  · exact absurd h (WithBot.coe_ne_bot)
  · exact absurd h.symm (WithBot.coe_ne_bot)
  · exact absurd h.symm (WithBot.coe_ne_bot)
  · obtain ⟨rfl, rfl⟩ := hzero ha (by simp)
    obtain ⟨rfl, rfl⟩ := hzero hb (by simp)
    rfl

/-! ## The laws -/

/-- The element that `equal` labels are made of dominates every element and is dominated by
every element that passes the `switch` of `mac_biba_valid`. -/
theorem dominateElement_equal_right (ha : validElement a = .ok) (hb : b.mbeType = .equal) :
    dominateElement a b = some true := by
  unfold dominateElement
  obtain ht | ht | ht | ht := validElement_type ha <;> simp only [ht, hb]

theorem dominateElement_equal_left (ha : a.mbeType = .equal) : dominateElement a b = some true := by
  unfold dominateElement; simp only [ha]

theorem andAlso_eq_true {x y : Option Bool} :
    andAlso x y = some true ↔ x = some true ∧ y = some true := by
  unfold andAlso
  split
  · simp
  · rename_i hx
    constructor
    · intro h; exact absurd h hx
    · rintro ⟨h, -⟩; exact absurd h hx

/-- Dominance composes through every element that is not `equal`. -/
theorem dominateElement_trans {a b c : MacBibaElement} (ha : validElement a = .ok)
    (hb : Proper b) (hpa : a.mbeType ≠ .equal → Proper a) (hpc : c.mbeType ≠ .equal → Proper c)
    (hab : dominateElement a b = some true) (hbc : dominateElement b c = some true) :
    dominateElement a c = some true := by
  by_cases hta : a.mbeType = .equal
  · exact dominateElement_equal_left hta
  by_cases htc : c.mbeType = .equal
  · exact dominateElement_equal_right ha htc
  have hba := (dominateElement_eq (hpa hta) hb).1 hab
  have hcb := (dominateElement_eq hb (hpc htc)).1 hbc
  exact (dominateElement_eq (hpa hta) (hpc htc)).2 (hcb.trans hba)

/-- Each of two elements dominates the other exactly when `mac_biba_equal_element` holds and their
compartments agree. -/
theorem mutual_iff (ha : Proper a) (hb : Proper b) :
    (dominateElement a b = some true ∧ dominateElement b a = some true) ↔
      (equalElement a b = true ∧ a.mbeCompartments = b.mbeCompartments) := by
  rw [dominateElement_eq ha hb, dominateElement_eq hb ha]
  constructor
  · rintro ⟨hba, hab⟩
    obtain rfl := level_injective ha hb (le_antisymm hab hba)
    exact ⟨by simp [equalElement], rfl⟩
  · rintro ⟨heq, hcomp⟩
    have hab : a = b := by
      unfold equalElement at heq
      rw [if_neg (not_or.2 ⟨ha.2, hb.2⟩), Bool.and_eq_true, decide_eq_true_eq, beq_iff_eq] at heq
      obtain ⟨ta, ga, ca⟩ := a
      obtain ⟨tb, gb, cb⟩ := b
      simp only at heq hcomp
      rw [heq.1, heq.2, hcomp]
    subst hab; exact ⟨le_rfl, le_rfl⟩

theorem singleInRange_iff {s r : MacBiba} :
    singleInRange s r = some true ↔
      hasFlag s flagSingle = true ∧ hasFlag r flagRange = true ∧
        dominateElement r.mbRangehigh s.mbSingle = some true ∧
        dominateElement s.mbSingle r.mbRangelow = some true := by
  unfold singleInRange
  cases hs : hasFlag s flagSingle <;> cases hr : hasFlag r flagRange <;> simp [andAlso_eq_true]

theorem proper_of_mem (h : macBibaValid l = some .ok) (he : e ∈ l.elements)
    (ht : e.mbeType ≠ .equal) : Proper e := ⟨⟨l, h, he⟩, ht⟩

/-- On the elements of accepted labels that are not `equal`, `mac_biba_dominate_element` is
reflexive and transitive, and it holds both ways exactly when `mac_biba_equal_element` holds and
the compartments agree. For accepted labels, ranges compose with their members as long as no
endpoint of the inner range is `equal`. -/
theorem dominance_laws :
    (∀ a, Proper a → dominateElement a a = some true) ∧
    (∀ a b c, Proper a → Proper b → Proper c → dominateElement a b = some true →
      dominateElement b c = some true → dominateElement a c = some true) ∧
    (∀ a b, Proper a → Proper b →
      ((dominateElement a b = some true ∧ dominateElement b a = some true) ↔
        (equalElement a b = true ∧ a.mbeCompartments = b.mbeCompartments))) ∧
    (∀ a b s, macBibaValid a = some .ok → macBibaValid b = some .ok → macBibaValid s = some .ok →
      a.mbRangehigh.mbeType ≠ .equal → a.mbRangelow.mbeType ≠ .equal →
      rangeInRange a b = some true → singleInRange s a = some true →
      singleInRange s b = some true) := by
  refine ⟨?_, ?_, fun a b ha hb => mutual_iff ha hb, ?_⟩
  · intro a ha; exact (dominateElement_eq ha ha).2 le_rfl
  · intro a b c ha hb hc hab hbc
    exact dominateElement_trans ha.valid hb (fun _ => ha) (fun _ => hc) hab hbc
  · intro a b s hva hvb hvs hah hal hrange hsingle
    obtain ⟨hfs, hfa, hhigh, hlow⟩ := singleInRange_iff.1 hsingle
    obtain ⟨hbhigh, hblow⟩ := andAlso_eq_true.1 hrange
    have hfb := range_of_dominate (macBibaValid_range hvb) hbhigh
    have hmem : ∀ {l : MacBiba}, hasFlag l flagRange = true →
        l.mbRangelow ∈ l.elements ∧ l.mbRangehigh ∈ l.elements := fun hf =>
      ⟨mem_elements.2 (Or.inr ⟨hf, Or.inl rfl⟩), mem_elements.2 (Or.inr ⟨hf, Or.inr rfl⟩)⟩
    have hs : s.mbSingle ∈ s.elements := mem_elements.2 (Or.inl ⟨hfs, rfl⟩)
    refine singleInRange_iff.2 ⟨hfs, hfb, ?_, ?_⟩
    · exact dominateElement_trans (valid_of_mem hvb (hmem hfb).2)
        (proper_of_mem hva (hmem hfa).2 hah) (proper_of_mem hvb (hmem hfb).2)
        (proper_of_mem hvs hs) hbhigh hhigh
    · exact dominateElement_trans (valid_of_mem hvs hs)
        (proper_of_mem hva (hmem hfa).1 hal) (proper_of_mem hvs hs)
        (proper_of_mem hvb (hmem hfb).1) hlow hblow

private def low : MacBibaElement := ⟨.low, 0, 0⟩
private def equalTo : MacBibaElement := ⟨.equal, 0, 0⟩
private def graded (n : BitVec 16) : MacBibaElement := ⟨.grade, n, 5⟩
private def undef : MacBibaElement := ⟨.undef, 0, 0⟩
private def singleLabel (e : MacBibaElement) : MacBiba := ⟨1, e, undef, undef⟩
private def rangeLabel (e f : MacBibaElement) : MacBiba := ⟨2, undef, e, f⟩

/-- The grade 7 is in the range `low-equal`, which is in the range `low-low`; the grade is not. -/
theorem range_through_equal :
    macBibaValid (singleLabel (graded 7)) = some .ok ∧
    macBibaValid (rangeLabel low equalTo) = some .ok ∧
    macBibaValid (rangeLabel low low) = some .ok ∧
    rangeInRange (rangeLabel low equalTo) (rangeLabel low low) = some true ∧
    singleInRange (singleLabel (graded 7)) (rangeLabel low equalTo) = some true ∧
    ¬ singleInRange (singleLabel (graded 7)) (rangeLabel low low) = some true := by
  decide

set_option maxRecDepth 8000 in
/-- Grade 7 with compartments 1 and 3 lies in `low-9:1+3`, which lies in `low-12:1+3`. -/
theorem dominance_laws_grades :
    dominateElement (graded 7) (graded 7) = some true ∧
    singleInRange (singleLabel (graded 7)) (rangeLabel low (graded 12)) = some true := by
  have hproper : Proper (graded 7) :=
    ⟨⟨singleLabel (graded 7), by decide, by decide⟩, by decide⟩
  exact ⟨dominance_laws.1 _ hproper,
    dominance_laws.2.2.2 (rangeLabel low (graded 9)) (rangeLabel low (graded 12))
      (singleLabel (graded 7)) (by decide) (by decide) (by decide) (by decide) (by decide)
      (by decide) (by decide)⟩

end FreeBSD.Biba
