import FreeBSD.Security.Biba
import FreeBSD.Libkern.Strings
import FreeBSD.Kern.SubrSbuf

/-!
# Biba labels as text, `security/mac_biba/mac_biba.c`

Models of the printer (lines 531–610) and the parser (lines 627–739) of labels, and the proof that
the parser reads back what the printer wrote.

* `elementText`, `labelText` — the texts the printer appends (`macBibaToString_of_room`).
* `parseElement_elementText` — one element survives, whatever its compartments.
* `parse_toString` — so does a label.
-/

namespace FreeBSD.Biba

open Libkern SubrSbuf List

/-! ## The printer -/

/-- The loop over the compartments of `mac_biba_element_to_string` (lines 551–565). -/
def putCompartments (w : Compartments) : List ℕ → Bool → Sbuf → Sbuf × Bool
  | [], _, sb => (sb, true)
  | i :: rest, first, sb =>
    if bitTest i w then
      if first then
        match sbufPutc sb ':' with
        | (sb, false) => (sb, false)
        | (sb, true) =>
          match sbufPrintf sb (Nat.toDigits 10 i) with
          | (sb, false) => (sb, false)
          | (sb, true) => putCompartments w rest false sb
      else
        match sbufPrintf sb ('+' :: Nat.toDigits 10 i) with
        | (sb, false) => (sb, false)
        | (sb, true) => putCompartments w rest false sb
    else putCompartments w rest first sb

/-- `mac_biba_element_to_string` (lines 531–572); `none` is the `panic`. -/
def elementToString (sb : Sbuf) (e : MacBibaElement) : Option (Sbuf × Bool) :=
  match e.mbeType with
  | .high => some (sbufPrintf sb "high".toList)
  | .low => some (sbufPrintf sb "low".toList)
  | .equal => some (sbufPrintf sb "equal".toList)
  | .grade =>
    match sbufPrintf sb (Nat.toDigits 10 e.mbeGrade.toNat) with
    | (sb, false) => some (sb, false)
    | (sb, true) =>
      some (putCompartments e.mbeCompartments (List.range' 1 maxCompartments) true sb)
  | _ => none

/-- The range that `mac_biba_to_string` prints (lines 590–607). -/
def rangeToString (sb : Sbuf) (l : MacBiba) : Option (Sbuf × Bool) :=
  match sbufPutc sb '(' with
  | (sb, false) => some (sb, false)
  | (sb, true) =>
    match elementToString sb l.mbRangelow with
    | none => none
    | some (sb, false) => some (sb, false)
    | some (sb, true) =>
      match sbufPutc sb '-' with
      | (sb, false) => some (sb, false)
      | (sb, true) =>
        match elementToString sb l.mbRangehigh with
        | none => none
        | some (sb, false) => some (sb, false)
        | some (sb, true) => some (sbufPutc sb ')')

/-- `mac_biba_to_string` (lines 581–610): the buffer and whether it returned 0. -/
def macBibaToString (sb : Sbuf) (l : MacBiba) : Option (Sbuf × Bool) :=
  if hasFlag l flagSingle then
    match elementToString sb l.mbSingle with
    | none => none
    | some (sb, false) => some (sb, false)
    | some (sb, true) => if hasFlag l flagRange then rangeToString sb l else some (sb, true)
  else if hasFlag l flagRange then rangeToString sb l
  else some (sb, true)

/-! ## The parser -/

/-- How `mac_biba_parse` fails: it returns `EINVAL`, or a function it calls panics. -/
inductive Failure
  | EINVAL
  | panic
  deriving DecidableEq

/-- The loop over the compartments of `mac_biba_parse_element` (lines 664–671). A turn takes at
least one character or ends the loop. -/
def parseCompartments : ℕ → Option (List Char) → Compartments → Except Failure Compartments
  | 0, _, w => .ok w
  | fuel + 1, string, w =>
    match strsep string ['+'] with
    | (none, _) => .ok w
    | (some compartment, string) =>
      let (value, rest) := strtol compartment 10
      if rest = compartment ∨ rest ≠ [] then .error .EINVAL
      else if value < 1 ∨ value > maxCompartments then .error .EINVAL
      else parseCompartments fuel string (bitSet value.toNat w)

/-- The branch of `mac_biba_parse_element` for a grade (lines 643–672). -/
def parseGrade (element : MacBibaElement) (string : List Char) :
    Except Failure MacBibaElement :=
  match strsep (some string) [':'] with
  | (none, _) => .error .panic
  | (some grade, string) =>
    let (value, rest) := strtol grade 10
    if rest = grade ∨ rest ≠ [] then .error .EINVAL
    else if value < 0 ∨ value > 65535 then .error .EINVAL
    else
      let element := { element with mbeType := .grade, mbeGrade := BitVec.ofInt 16 value }
      match string with
      | none => .ok element
      | some [] => .ok element
      | some s =>
        match parseCompartments (s.length + 1) (some s) element.mbeCompartments with
        | .error e => .error e
        | .ok w => .ok { element with mbeCompartments := w }

/-- `mac_biba_parse_element` (lines 627–676). -/
def parseElement (element : MacBibaElement) (string : List Char) : Except Failure MacBibaElement :=
  if string = "high".toList ∨ string = "hi".toList then
    .ok { element with mbeType := .high, mbeGrade := 0 }
  else if string = "low".toList ∨ string = "lo".toList then
    .ok { element with mbeType := .low, mbeGrade := 0 }
  else if string = "equal".toList ∨ string = "eq".toList then
    .ok { element with mbeType := .equal, mbeGrade := 0 }
  else parseGrade element string

/-- The element after `bzero`. -/
def zeroElement : MacBibaElement := ⟨.undef, 0, 0⟩

/-- The label after `bzero`. -/
def zeroLabel : MacBiba := ⟨0, zeroElement, zeroElement, zeroElement⟩

/-- The end of `mac_biba_parse` (lines 714–738): the elements are read into a zeroed label. -/
def parseInto (single : Option (List Char)) (range : Option (List Char × List Char)) :
    Except Failure MacBiba := do
  let l ← match single with
    | none => pure zeroLabel
    | some s => do
      let e ← parseElement zeroElement s
      pure { zeroLabel with mbSingle := e, mbFlags := flagSingle }
  let l ← match range with
    | none => pure l
    | some (low, high) => do
      let e ← parseElement zeroElement low
      let f ← parseElement zeroElement high
      pure { l with mbRangelow := e, mbRangehigh := f, mbFlags := l.mbFlags ||| flagRange }
  match macBibaValid l with
  | none => .error .panic
  | some .EINVAL => .error .EINVAL
  | some .ok => pure l

/-- `mac_biba_parse` (lines 682–739). -/
def macBibaParse (string : List Char) : Except Failure MacBiba :=
  let (single, string) := strsep (some string) ['(']
  let single := if single = some [] then none else single
  match string with
  | none => parseInto single none
  | some string =>
    match strsep (some string) ['-'] with
    | (some rangelow, some string) =>
      match strsep (some string) [')'] with
      | (some rangehigh, some string) =>
        if string ≠ [] then .error .EINVAL else parseInto single (some (rangelow, rangehigh))
      | _ => .error .EINVAL
    | _ => .error .EINVAL

/-! ## What is printed -/

/-- The compartments of a set in increasing order. -/
def compartmentList (w : Compartments) : List ℕ :=
  (List.range' 1 maxCompartments).filter fun b => bitTest b w

/-- A list of compartments as printed, after `:` for the first and `+` for the others. -/
def compartmentText : Bool → List ℕ → List Char
  | _, [] => []
  | true, i :: rest => ':' :: (Nat.toDigits 10 i ++ compartmentText false rest)
  | false, i :: rest => '+' :: (Nat.toDigits 10 i ++ compartmentText false rest)

def elementText (e : MacBibaElement) : List Char :=
  match e.mbeType with
  | .high => "high".toList
  | .low => "low".toList
  | .equal => "equal".toList
  | _ => Nat.toDigits 10 e.mbeGrade.toNat ++
      compartmentText true (compartmentList e.mbeCompartments)

def rangeText (l : MacBiba) : List Char :=
  '(' :: (elementText l.mbRangelow ++ '-' :: (elementText l.mbRangehigh ++ [')']))

def labelText (l : MacBiba) : List Char :=
  (if hasFlag l flagSingle then elementText l.mbSingle else []) ++
    (if hasFlag l flagRange then rangeText l else [])

variable {w : Compartments} {sb : Sbuf} {l : MacBiba} {b : ℕ}

theorem putCompartments_of_room (is : List ℕ) (first : Bool) (sb : Sbuf)
    (h : sb.HasRoom (compartmentText first (is.filter fun b => bitTest b w)).length) :
    putCompartments w is first sb =
      (sb.append (compartmentText first (is.filter fun b => bitTest b w)), true) := by
  induction is generalizing first sb with
  | nil => simp [putCompartments, compartmentText]
  | cons i rest ih =>
    cases ht : bitTest i w with
    | false =>
      have hfilter : (i :: rest).filter (fun b => bitTest b w) =
          rest.filter fun b => bitTest b w := by
        rw [filter_cons_of_neg (p := fun b => bitTest b w) (by rw [ht]; decide)]
      rw [hfilter] at h ⊢
      unfold putCompartments
      rw [ht]; exact ih first sb h
    | true =>
      have hfilter : (i :: rest).filter (fun b => bitTest b w) =
          i :: rest.filter fun b => bitTest b w := by
        rw [filter_cons_of_pos (p := fun b => bitTest b w) ht]
      rw [hfilter] at h ⊢
      generalize hr : rest.filter (fun b => bitTest b w) = r at *
      unfold putCompartments
      rw [ht]
      cases first with
      | true =>
        have hlen : (compartmentText true (i :: r)).length =
            [':'].length + ((Nat.toDigits 10 i).length + (compartmentText false r).length) := by
          simp [compartmentText]
          omega
        rw [hlen] at h
        have hafter := h.append
        rw [if_pos rfl, if_pos rfl, sbufPutc_of_room (h.mono (by simp)) (by decide)]
        simp only
        rw [sbufPrintf_of_room (hafter.mono (by omega))]
        simp only
        rw [ih false _ hafter.append, Sbuf.append_append, Sbuf.append_append]
        simp [compartmentText]
      | false =>
        have hlen : (compartmentText false (i :: r)).length =
            ('+' :: Nat.toDigits 10 i).length + (compartmentText false r).length := by
          simp [compartmentText]
          omega
        rw [hlen] at h
        rw [if_pos rfl, if_neg (by decide), sbufPrintf_of_room (h.mono (by omega))]
        simp only
        rw [ih false _ h.append, Sbuf.append_append]; simp [compartmentText]

theorem elementToString_of_room {e : MacBibaElement} (hv : validElement e = .ok)
    (h : sb.HasRoom (elementText e).length) :
    elementToString sb e = some (sb.append (elementText e), true) := by
  unfold elementToString elementText at *
  obtain ht | ht | ht | ht := validElement_type hv <;> simp only [ht] at h ⊢
  · rw [length_append] at h
    rw [sbufPrintf_of_room (h.mono (by omega))]
    simp only
    rw [putCompartments_of_room _ _ _ h.append, Sbuf.append_append]; rfl
  all_goals rw [sbufPrintf_of_room h]

theorem rangeToString_of_room (hlow : validElement l.mbRangelow = .ok)
    (hhigh : validElement l.mbRangehigh = .ok) (h : sb.HasRoom (rangeText l).length) :
    rangeToString sb l = some (sb.append (rangeText l), true) := by
  have hlen : (rangeText l).length = ['('].length + ((elementText l.mbRangelow).length +
      (['-'].length + ((elementText l.mbRangehigh).length + [')'].length))) := by
    simp [rangeText]
    omega
  rw [hlen] at h
  have h1 := h.append
  have h2 := h1.append
  have h3 := h2.append
  have h4 := h3.append
  unfold rangeToString
  rw [sbufPutc_of_room (h.mono (by simp)) (by decide)]
  simp only
  rw [elementToString_of_room hlow (h1.mono (by omega))]
  simp only
  rw [sbufPutc_of_room (h2.mono (by simp)) (by decide)]
  simp only
  rw [elementToString_of_room hhigh (h3.mono (by omega))]
  simp only
  rw [sbufPutc_of_room (h4.mono (by simp)) (by decide)]
  simp [Sbuf.append, rangeText]

/-- With room for its text, `mac_biba_to_string` appends it and returns 0. -/
theorem macBibaToString_of_room (hv : macBibaValid l = some .ok)
    (h : sb.HasRoom (labelText l).length) :
    macBibaToString sb l = some (sb.append (labelText l), true) := by
  have hrange : ∀ {sb : Sbuf}, hasFlag l flagRange = true → sb.HasRoom (rangeText l).length →
      rangeToString sb l = some (sb.append (rangeText l), true) := by
    intro sb hf hr
    obtain ⟨hlow, hhigh, -⟩ := validRange_range (macBibaValid_range hv) hf
    exact rangeToString_of_room hlow hhigh hr
  unfold macBibaToString labelText at *
  cases hs : hasFlag l flagSingle with
  | true =>
    rw [hs, if_pos rfl, length_append] at h
    rw [if_pos rfl, elementToString_of_room (macBibaValid_single hv hs) (h.mono (by omega))]
    simp only
    cases hr : hasFlag l flagRange with
    | true =>
      rw [hr, if_pos rfl] at h
      rw [if_pos rfl, hrange hr h.append, Sbuf.append_append]; rfl
    | false => simp
  | false =>
    rw [hs, if_neg (by decide), nil_append] at h
    cases hr : hasFlag l flagRange with
    | true =>
      rw [hr, if_pos rfl] at h; simp [hrange hr h]
    | false => simp

/-! ## What is read back -/

theorem bitTest_bitSet {b i : ℕ} (hb : 1 ≤ b ∧ b ≤ 256) (hi : 1 ≤ i) :
    bitTest b (bitSet i w) = (bitTest b w || decide (b = i)) := by
  unfold bitTest bitSet
  rw [BitVec.getLsbD_or, BitVec.getLsbD_twoPow]
  congr 1
  have hlt : b - 1 < 256 := by omega
  rw [Bool.eq_iff_iff, Bool.and_eq_true, decide_eq_true_eq, decide_eq_true_eq, decide_eq_true_eq]
  omega

theorem bitTest_foldl (hb : 1 ≤ b ∧ b ≤ 256) (is : List ℕ) (w : Compartments)
    (his : ∀ i ∈ is, 1 ≤ i) :
    bitTest b (is.foldl (fun w i => bitSet i w) w) = (bitTest b w || decide (b ∈ is)) := by
  induction is generalizing w with
  | nil => simp
  | cons i rest ih =>
    rw [foldl_cons, ih _ fun x hx => his x (mem_cons_of_mem _ hx),
      bitTest_bitSet hb (his i (mem_cons_self ..)), Bool.or_assoc]
    simp

theorem mem_compartmentList : b ∈ compartmentList w ↔ (1 ≤ b ∧ b ≤ 256) ∧ bitTest b w = true := by
  unfold compartmentList maxCompartments
  rw [mem_filter, mem_range'_1]
  constructor
  · rintro ⟨h, hb⟩; exact ⟨by omega, hb⟩
  · rintro ⟨h, hb⟩; exact ⟨by omega, hb⟩

/-- Setting the bits of a set one by one gives the set back. -/
theorem foldl_compartmentList (w : Compartments) :
    (compartmentList w).foldl (fun w i => bitSet i w) 0 = w := by
  apply compartments_injective
  ext b
  rw [mem_compartments, mem_compartments]
  have hone : ∀ i ∈ compartmentList w, 1 ≤ i := fun i hi => (mem_compartmentList.1 hi).1.1
  have hzero : bitTest b 0 = false := by simp [bitTest]
  constructor
  · rintro ⟨hb, hbit⟩
    rw [bitTest_foldl hb _ _ hone, hzero, Bool.false_or, decide_eq_true_eq] at hbit
    exact mem_compartmentList.1 hbit
  · rintro ⟨hb, hbit⟩
    refine ⟨hb, ?_⟩
    rw [bitTest_foldl hb _ _ hone, hzero, Bool.false_or, decide_eq_true_eq]
    exact mem_compartmentList.2 ⟨hb, hbit⟩

/-- One number is read whole, and it is not an empty token. -/
theorem strtol_number {n : ℕ} (h : n ≤ 65535) :
    strtol (Nat.toDigits 10 n) 10 = ((n : ℤ), []) ∧
      ¬ (([] : List Char) = Nat.toDigits 10 n ∨ ([] : List Char) ≠ []) := by
  refine ⟨strtol_toDigits (h.trans (by decide)), ?_⟩
  rintro (h | h)
  · exact Nat.toDigits_ne_nil h.symm
  · exact h rfl

/-- A printed number has no separator in it. -/
theorem digits_free {c : Char} (h : c.isDigit = false) (n : ℕ) :
    ∀ x ∈ Nat.toDigits 10 n, x ∉ [c] := by
  intro x hx hmem
  rw [mem_singleton] at hmem
  subst hmem; exact not_mem_toDigits h n hx

theorem parseCompartments_text (rest : List ℕ) (i fuel : ℕ) (w : Compartments)
    (hi : 1 ≤ i ∧ i ≤ 256) (hrest : ∀ j ∈ rest, 1 ≤ j ∧ j ≤ 256) (hfuel : rest.length < fuel) :
    parseCompartments fuel (some (Nat.toDigits 10 i ++ compartmentText false rest)) w =
      .ok ((i :: rest).foldl (fun w i => bitSet i w) w) := by
  induction rest generalizing i fuel w with
  | nil =>
    obtain ⟨fuel, rfl⟩ : ∃ f, fuel = f + 1 := ⟨fuel - 1, by simp at hfuel; omega⟩
    obtain ⟨hnum, hok⟩ := strtol_number (n := i) (by omega)
    have htoken : strsep (some (Nat.toDigits 10 i ++ compartmentText false [])) ['+'] =
        (some (Nat.toDigits 10 i), none) := by
      rw [compartmentText, append_nil]; exact strsep_last (digits_free (by decide) i)
    unfold parseCompartments
    rw [htoken]
    dsimp only
    rw [hnum]
    dsimp only
    rw [if_neg hok, if_neg (by unfold maxCompartments; omega)]
    cases fuel <;> simp [parseCompartments, strsep_none]
  | cons j rest ih =>
    obtain ⟨fuel, rfl⟩ : ∃ f, fuel = f + 1 := ⟨fuel - 1, by simp at hfuel; omega⟩
    obtain ⟨hnum, hok⟩ := strtol_number (n := i) (by omega)
    have htoken : strsep (some (Nat.toDigits 10 i ++ compartmentText false (j :: rest))) ['+'] =
        (some (Nat.toDigits 10 i), some (Nat.toDigits 10 j ++ compartmentText false rest)) := by
      rw [compartmentText]; exact strsep_split (digits_free (by decide) i) (by simp)
    unfold parseCompartments
    rw [htoken]
    dsimp only
    rw [hnum]
    dsimp only
    rw [if_neg hok, if_neg (by unfold maxCompartments; omega), Int.toNat_natCast,
      ih j fuel (bitSet i w) (hrest j (mem_cons_self ..))
        (fun k hk => hrest k (mem_cons_of_mem _ hk)) (by simp at hfuel; omega)]
    rfl

theorem length_compartmentText (first : Bool) (is : List ℕ) :
    is.length ≤ (compartmentText first is).length := by
  induction is generalizing first with
  | nil => simp
  | cons i rest ih =>
    have := ih false
    cases first <;> simp [compartmentText] <;> omega

/-- A printed grade, with compartments or without, is read back into a zeroed element. -/
theorem parseGrade_text (g : BitVec 16) (w : Compartments) :
    parseGrade zeroElement
        (Nat.toDigits 10 g.toNat ++ compartmentText true (compartmentList w)) =
      .ok ⟨.grade, g, w⟩ := by
  have hgrade : g.toNat < 65536 := g.isLt
  obtain ⟨hnum, hok⟩ := strtol_number (n := g.toNat) (by omega)
  have hcolon := digits_free (c := ':') (by decide) g.toNat
  have hback : BitVec.ofInt 16 (g.toNat : ℤ) = g := by
    rw [BitVec.ofInt_natCast, BitVec.ofNat_toNat, BitVec.setWidth_eq]
  have hw := foldl_compartmentList w
  have hrange : ∀ j ∈ compartmentList w, 1 ≤ j ∧ j ≤ 256 := fun j hj =>
    (mem_compartmentList.1 hj).1
  unfold parseGrade
  generalize compartmentList w = l at *
  cases l with
  | nil =>
    rw [compartmentText, append_nil, strsep_last hcolon]
    dsimp only
    rw [hnum]
    dsimp only
    rw [if_neg hok, if_neg (by omega), hback]
    rw [foldl_nil] at hw
    subst hw; rfl
  | cons i rest =>
    rw [compartmentText, strsep_split hcolon (by simp)]
    dsimp only
    rw [hnum]
    dsimp only
    rw [if_neg hok, if_neg (by omega), hback]
    obtain ⟨c, t, hct⟩ : ∃ c t, Nat.toDigits 10 i = c :: t :=
      exists_cons_of_ne_nil Nat.toDigits_ne_nil
    have hfuel : rest.length < (Nat.toDigits 10 i ++ compartmentText false rest).length + 1 := by
      have := length_compartmentText false rest
      rw [length_append]; omega
    have hparse := parseCompartments_text rest i _ 0 (hrange i (mem_cons_self ..))
      (fun j hj => hrange j (mem_cons_of_mem _ hj)) hfuel
    rw [hw] at hparse
    rw [hct, cons_append] at hparse ⊢
    dsimp only [zeroElement]
    rw [hparse]

/-- A printed grade is none of the words for the special elements. -/
theorem grade_ne_word (n : ℕ) (t word : List Char) (h : ∀ c ∈ word.head?, c.isDigit = false)
    (hne : word ≠ []) : Nat.toDigits 10 n ++ t ≠ word := by
  obtain ⟨c, u, hcu⟩ : ∃ c u, Nat.toDigits 10 n = c :: u :=
    exists_cons_of_ne_nil Nat.toDigits_ne_nil
  rintro rfl
  have hc := h c (by simp [hcu])
  exact not_mem_toDigits hc n (by rw [hcu]; exact mem_cons_self ..)

/-- `mac_biba_parse_element` reads a printed element back. -/
theorem parseElement_elementText {e : MacBibaElement} (hv : validElement e = .ok) :
    parseElement zeroElement (elementText e) = .ok e := by
  obtain ⟨t, g, w⟩ := e
  have hspecial : t ≠ .grade → g = 0 ∧ w = 0 := fun ht => validElement_special hv ht
  obtain ht | ht | ht | ht := validElement_type hv <;> simp only at ht <;> subst ht
  · have hword : ∀ word : List Char, (∀ c ∈ word.head?, c.isDigit = false) → word ≠ [] →
        elementText ⟨.grade, g, w⟩ ≠ word := fun word h hne => grade_ne_word g.toNat _ word h hne
    unfold parseElement
    rw [if_neg (not_or.2 ⟨hword _ (by simp) (by decide), hword _ (by simp) (by decide)⟩),
      if_neg (not_or.2 ⟨hword _ (by simp) (by decide), hword _ (by simp) (by decide)⟩),
      if_neg (not_or.2 ⟨hword _ (by simp) (by decide), hword _ (by simp) (by decide)⟩)]
    exact parseGrade_text g w
  all_goals
    obtain ⟨rfl, rfl⟩ := hspecial (by simp)
    decide

/-- The characters that hold a label together occur in no element. -/
theorem elementText_free {c : Char} (h : c ∈ ['(', '-', ')']) (e : MacBibaElement) :
    ∀ x ∈ elementText e, x ∉ [c] := by
  have hcomp : ∀ (is : List ℕ) (first : Bool), ∀ x ∈ compartmentText first is,
      x = ':' ∨ x = '+' ∨ x.isDigit = true := by
    intro is
    induction is with
    | nil => intro first x hx; simp [compartmentText] at hx
    | cons i rest ih =>
      intro first x hx
      have hcases : x = ':' ∨ x = '+' ∨ x ∈ Nat.toDigits 10 i ∨
          x ∈ compartmentText false rest := by
        cases first <;> simp [compartmentText] at hx <;> tauto
      obtain hx | hx | hx | hx := hcases
      · exact Or.inl hx
      · exact Or.inr (Or.inl hx)
      · exact Or.inr (Or.inr (Nat.isDigit_of_mem_toDigits (by decide) (by decide) hx))
      · exact ih false x hx
  have hpunct : c ≠ ':' ∧ c ≠ '+' ∧ c.isDigit = false ∧ c ∉ "high".toList ∧
      c ∉ "low".toList ∧ c ∉ "equal".toList := by
    simp only [mem_cons, not_mem_nil, or_false] at h
    obtain rfl | rfl | rfl := h <;> decide
  obtain ⟨hcolon, hplus, hdigit, hhigh, hlow, hequal⟩ := hpunct
  intro x hx hmem
  rw [mem_singleton] at hmem
  subst hmem
  unfold elementText at hx
  split at hx
  · exact hhigh hx
  · exact hlow hx
  · exact hequal hx
  · obtain hx | hx := mem_append.1 hx
    · exact not_mem_toDigits hdigit _ hx
    · obtain hx | hx | hx := hcomp _ _ x hx
      · exact hcolon hx
      · exact hplus hx
      · rw [hdigit] at hx
        cases hx

theorem elementText_ne_nil (e : MacBibaElement) : elementText e ≠ [] := by
  unfold elementText
  split
  · decide
  · decide
  · decide
  · simp [Nat.toDigits_ne_nil]

/-- The label with nothing but what its flags name. -/
def usedLabel (l : MacBiba) : MacBiba where
  mbFlags := (if hasFlag l flagSingle then flagSingle else 0) |||
    (if hasFlag l flagRange then flagRange else 0)
  mbSingle := if hasFlag l flagSingle then l.mbSingle else zeroElement
  mbRangelow := if hasFlag l flagRange then l.mbRangelow else zeroElement
  mbRangehigh := if hasFlag l flagRange then l.mbRangehigh else zeroElement

theorem hasFlag_usedLabel (l : MacBiba) :
    hasFlag (usedLabel l) flagSingle = hasFlag l flagSingle ∧
      hasFlag (usedLabel l) flagRange = hasFlag l flagRange := by
  have hflags : ∀ a b : Bool,
      (((if a then flagSingle else 0) ||| (if b then flagRange else 0)) &&& flagSingle != 0) = a ∧
        (((if a then flagSingle else 0) ||| (if b then flagRange else 0)) &&& flagRange != 0) =
          b := by
    decide
  exact hflags _ _

theorem macBibaValid_usedLabel (h : macBibaValid l = some .ok) :
    macBibaValid (usedLabel l) = some .ok := by
  obtain ⟨hfs, hfr⟩ := hasFlag_usedLabel l
  have hrange : validRange (usedLabel l) = some .ok := by
    have hr := macBibaValid_range h
    unfold validRange at hr ⊢
    rw [hfr]
    cases hflag : hasFlag l flagRange with
    | true =>
      rw [hflag] at hr; simpa [usedLabel, hflag] using hr
    | false => simp [usedLabel, hflag, zeroElement]
  unfold macBibaValid
  rw [hfs]
  cases hflag : hasFlag l flagSingle with
  | true =>
    have hs := macBibaValid_single h hflag
    simp [usedLabel, hflag, hs] at hrange ⊢
    exact hrange
  | false =>
    simp [usedLabel, hflag, zeroElement] at hrange ⊢
    exact hrange

/-- The end of `mac_biba_parse` on the texts of the elements of a label. -/
theorem parseInto_text (h : macBibaValid l = some .ok) :
    parseInto (if hasFlag l flagSingle then some (elementText l.mbSingle) else none)
        (if hasFlag l flagRange then
          some (elementText l.mbRangelow, elementText l.mbRangehigh) else none) =
      .ok (usedLabel l) := by
  have hvalid := macBibaValid_usedLabel h
  unfold parseInto
  unfold usedLabel at hvalid ⊢
  cases hs : hasFlag l flagSingle with
  | true =>
    have hsingle := parseElement_elementText (macBibaValid_single h hs)
    cases hr : hasFlag l flagRange with
    | true =>
      obtain ⟨hlow, hhigh, -⟩ := validRange_range (macBibaValid_range h) hr
      simp only [hs, hr, if_true] at hvalid
      simp [hsingle, parseElement_elementText hlow, parseElement_elementText hhigh, zeroLabel,
        bind, Except.bind, pure, Except.pure, hvalid]
    | false =>
      simp only [hs, hr, if_true, Bool.false_eq_true, if_false] at hvalid
      simp [hsingle, zeroLabel, bind, Except.bind, pure, Except.pure] at hvalid ⊢
      rw [hvalid]
  | false =>
    cases hr : hasFlag l flagRange with
    | true =>
      obtain ⟨hlow, hhigh, -⟩ := validRange_range (macBibaValid_range h) hr
      simp only [hs, hr, if_true, Bool.false_eq_true, if_false] at hvalid
      simp [parseElement_elementText hlow, parseElement_elementText hhigh, zeroLabel,
        bind, Except.bind, pure, Except.pure] at hvalid ⊢
      rw [hvalid]
    | false =>
      simp only [hs, hr, Bool.false_eq_true, if_false] at hvalid
      simp [zeroLabel, bind, Except.bind, pure, Except.pure] at hvalid ⊢
      rw [hvalid]

/-- `mac_biba_parse` takes the text of a label apart where the printer put it together. -/
theorem macBibaParse_labelText (h : macBibaValid l = some .ok) :
    macBibaParse (labelText l) = .ok (usedLabel l) := by
  have hinto := parseInto_text h
  have hsplit : ∀ single : List Char, (∀ x ∈ single, x ∉ ['(']) →
      macBibaParse (single ++ rangeText l) =
        parseInto (if some single = some [] then none else some single)
          (some (elementText l.mbRangelow, elementText l.mbRangehigh)) := by
    intro single hfree
    have hlow := elementText_free (c := '-') (by decide) l.mbRangelow
    have hhigh := elementText_free (c := ')') (by decide) l.mbRangehigh
    unfold macBibaParse rangeText
    rw [strsep_split hfree (by decide)]
    dsimp only
    rw [strsep_split hlow (by decide)]
    dsimp only
    rw [strsep_split hhigh (by decide)]
    dsimp only
    rw [if_neg (by simp)]
  have hfree := elementText_free (c := '(') (by decide) l.mbSingle
  have hne := elementText_ne_nil l.mbSingle
  unfold labelText
  cases hs : hasFlag l flagSingle with
  | true =>
    rw [hs] at hinto
    cases hr : hasFlag l flagRange with
    | true =>
      rw [hr] at hinto
      rw [if_pos rfl, if_pos rfl, hsplit _ hfree, if_neg (by simp [hne])]
      exact hinto
    | false =>
      rw [hr] at hinto
      rw [if_pos rfl, if_neg (by decide), append_nil]
      unfold macBibaParse
      rw [strsep_last hfree]
      simp only [Option.some.injEq, hne, if_false]; exact hinto
  | false =>
    rw [hs] at hinto
    cases hr : hasFlag l flagRange with
    | true =>
      rw [hr] at hinto
      rw [if_neg (by decide), if_pos rfl, hsplit [] (by simp), if_pos rfl]
      exact hinto
    | false =>
      rw [hr] at hinto; exact hinto

/-- Two labels are the same: the same flags of the two that exist, and the same elements where
the flags name them. -/
def SameLabel (l m : MacBiba) : Prop :=
  hasFlag m flagSingle = hasFlag l flagSingle ∧ hasFlag m flagRange = hasFlag l flagRange ∧
    (hasFlag l flagSingle = true → m.mbSingle = l.mbSingle) ∧
    (hasFlag l flagRange = true → m.mbRangelow = l.mbRangelow ∧ m.mbRangehigh = l.mbRangehigh)

/-- Nothing is set in a label but what its flags name, as in every label that starts out zeroed
(`biba_alloc`) and is filled by the functions that set the flags. -/
def Clean (l : MacBiba) : Prop :=
  l.mbFlags &&& ~~~(flagSingle ||| flagRange) = 0 ∧
    (hasFlag l flagSingle = false → l.mbSingle = zeroElement) ∧
    (hasFlag l flagRange = false → l.mbRangelow = zeroElement ∧ l.mbRangehigh = zeroElement)

theorem sameLabel_usedLabel (l : MacBiba) : SameLabel l (usedLabel l) := by
  obtain ⟨hfs, hfr⟩ := hasFlag_usedLabel l
  refine ⟨hfs, hfr, fun h => ?_, fun h => ?_⟩
  · simp [usedLabel, h]
  · simp [usedLabel, h]

theorem flags_of_clean (f : BitVec 32) (h : f &&& ~~~(flagSingle ||| flagRange) = 0) :
    (if f &&& flagSingle != 0 then flagSingle else 0) |||
      (if f &&& flagRange != 0 then flagRange else 0) = f := by
  have hbit : ∀ i, f.getLsbD i = true → i = 0 ∨ i = 1 := by
    intro i hi
    by_contra hne
    have hlt : i < 32 := BitVec.lt_of_getLsbD hi
    have hz := congrArg (fun w => BitVec.getLsbD w i) h
    have hmask : (~~~(flagSingle ||| flagRange)).getLsbD i = true := by
      have hall : ∀ j : Fin 32, j.val ≠ 0 → j.val ≠ 1 →
          (~~~(flagSingle ||| flagRange)).getLsbD j.val = true := by decide
      exact hall ⟨i, hlt⟩ (by simp; omega) (by simp; omega)
    simp only [BitVec.getLsbD_and, hi, hmask] at hz; simp at hz
  have hf : f = (if f.getLsbD 0 then 1 else 0) ||| (if f.getLsbD 1 then 2 else 0) := by
    apply BitVec.eq_of_getLsbD_eq
    intro i hi
    rcases Nat.lt_or_ge i 2 with hlt | hge
    · obtain rfl | rfl : i = 0 ∨ i = 1 := by omega
      · cases f.getLsbD 0 <;> cases f.getLsbD 1 <;> decide
      · cases f.getLsbD 0 <;> cases f.getLsbD 1 <;> decide
    · have hfi : f.getLsbD i = false := by
        rw [Bool.eq_false_iff]
        intro ht
        have := hbit i ht; omega
      have hall : ∀ (j : Fin 32) (a b : Bool), 2 ≤ j.val →
          (((if a then 1 else 0) ||| (if b then 2 else 0) : BitVec 32)).getLsbD j.val = false := by
        decide
      rw [hfi, hall ⟨i, hi⟩ _ _ hge]
  rw [hf]
  cases f.getLsbD 0 <;> cases f.getLsbD 1 <;> decide

theorem usedLabel_of_clean (h : Clean l) : usedLabel l = l := by
  obtain ⟨hflags, hsingle, hrange⟩ := h
  obtain ⟨f, s, low, high⟩ := l
  have hf := flags_of_clean f hflags
  unfold usedLabel
  have hs : (if hasFlag ⟨f, s, low, high⟩ flagSingle = true then s else zeroElement) = s := by
    split
    · rfl
    · rename_i hn
      exact (hsingle (Bool.eq_false_iff.2 hn)).symm
  have hl : (if hasFlag ⟨f, s, low, high⟩ flagRange = true then low else zeroElement) = low := by
    split
    · rfl
    · rename_i hn
      exact (hrange (Bool.eq_false_iff.2 hn)).1.symm
  have hh : (if hasFlag ⟨f, s, low, high⟩ flagRange = true then high else zeroElement) = high := by
    split
    · rfl
    · rename_i hn
      exact (hrange (Bool.eq_false_iff.2 hn)).2.symm
  simp only [hs, hl, hh]
  congr 1

/-- What `mac_biba_to_string` appends for an accepted label, in any buffer with room, is read by
`mac_biba_parse` as the same label. -/
theorem parse_toString {l : MacBiba} (h : macBibaValid l = some .ok) :
    ∃ text : List Char,
      (∀ sb : Sbuf, sb.HasRoom text.length →
        macBibaToString sb l = some (sb.append text, true)) ∧
      ∃ m, macBibaParse text = .ok m ∧ SameLabel l m ∧ (Clean l → m = l) :=
  ⟨labelText l, fun _ hroom => macBibaToString_of_room h hroom, usedLabel l,
    macBibaParse_labelText h, sameLabel_usedLabel l, usedLabel_of_clean⟩

/-- The label `low(7-high)`. -/
theorem parse_toString_low :
    ∃ text : List Char,
      (∀ sb : Sbuf, sb.HasRoom text.length →
        macBibaToString sb ⟨3, ⟨.low, 0, 0⟩, ⟨.grade, 7, 0⟩, ⟨.high, 0, 0⟩⟩ =
          some (sb.append text, true)) ∧
      macBibaParse text = .ok ⟨3, ⟨.low, 0, 0⟩, ⟨.grade, 7, 0⟩, ⟨.high, 0, 0⟩⟩ := by
  obtain ⟨text, hprint, m, hparse, -, hclean⟩ :=
    parse_toString (l := ⟨3, ⟨.low, 0, 0⟩, ⟨.grade, 7, 0⟩, ⟨.high, 0, 0⟩⟩) (by decide)
  refine ⟨text, hprint, ?_⟩
  rw [hparse, hclean ⟨by decide, by decide, by decide⟩]

end FreeBSD.Biba
