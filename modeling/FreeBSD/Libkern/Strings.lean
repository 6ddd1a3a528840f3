import Mathlib.Data.Nat.Digits.Defs
import Mathlib.Data.List.TakeWhile
import Mathlib.Data.Int.Notation

/-!
# Strings of the kernel library

Models of `strsep` (`libkern/strsep.c`) and `strtol` (`libkern/strtol.c`). A C string is the list of
its characters without the terminating NUL; a string that a function returns by address, such as
`*endptr`, is what is left from there on.

* `strsep_split` — the token up to a separator, and the string after it.
* `strtol_toDigits` — what `%d` prints of a `long` is read back whole.
-/

namespace FreeBSD.Libkern

open List

/-- `strsep` (`strsep.c` lines 54–78): the token and the new `*stringp`. -/
def strsep (stringp : Option (List Char)) (delim : List Char) :
    Option (List Char) × Option (List Char) :=
  match stringp with
  | none => (none, none)
  | some s =>
    match s.dropWhile fun c => !delim.contains c with
    | [] => (some s, none)
    | _ :: rest => (some (s.takeWhile fun c => !delim.contains c), some rest)

def isspace (c : Char) : Bool := c = ' ' || ('\t'.toNat ≤ c.toNat && c.toNat ≤ '\r'.toNat)
def isascii (c : Char) : Bool := c.toNat < 128
def isdigit (c : Char) : Bool := '0'.toNat ≤ c.toNat && c.toNat ≤ '9'.toNat
def isupper (c : Char) : Bool := 'A'.toNat ≤ c.toNat && c.toNat ≤ 'Z'.toNat
def islower (c : Char) : Bool := 'a'.toNat ≤ c.toNat && c.toNat ≤ 'z'.toNat
def isalpha (c : Char) : Bool := isupper c || islower c

/-- `LONG_MAX` of a 32-bit `long`. -/
def longMax : ℕ := 2147483647

/-- The digit that a character stands for, in a base up to 36. -/
def digitOf (c : Char) : Option ℕ :=
  if !isascii c then none
  else if isdigit c then some (c.toNat - '0'.toNat)
  else if isalpha c then some (c.toNat - if isupper c then 'A'.toNat - 10 else 'a'.toNat - 10)
  else none

/-- The loop of `strtol` (lines 106–124): the value, `any`, and the string at `s - 1`. -/
def accumulate (base cutoff cutlim : ℕ) : ℕ → ℤ → List Char → ℕ × ℤ × List Char
  | acc, any, [] => (acc, any, [])
  | acc, any, c :: s =>
    match digitOf c with
    | none => (acc, any, c :: s)
    | some d =>
      if base ≤ d then (acc, any, c :: s)
      else if any < 0 ∨ cutoff < acc ∨ (acc = cutoff ∧ cutlim < d) then
        accumulate base cutoff cutlim acc (-1) s
      else accumulate base cutoff cutlim (acc * base + d) 1 s

/-- `strtol` (`strtol.c` lines 52–133): the value and `*endptr`. -/
def strtol (nptr : List Char) (base : ℕ) : ℤ × List Char :=
  let s := nptr.dropWhile isspace
  let (neg, s) :=
    match s with
    | '-' :: t => (true, t)
    | '+' :: t => (false, t)
    | t => (false, t)
  let (base, s) :=
    if base = 0 ∨ base = 16 then
      match s with
      | '0' :: 'x' :: t => (16, t)
      | '0' :: 'X' :: t => (16, t)
      | t => (base, t)
    else (base, s)
  let base := if base = 0 then (if s.head? = some '0' then 8 else 10) else base
  let cutoff := if neg then longMax + 1 else longMax
  let (acc, any, rest) := accumulate base (cutoff / base) (cutoff % base) 0 0 s
  let value : ℤ :=
    if any < 0 then (if neg then -(longMax + 1 : ℤ) else longMax)
    else if neg then -acc else acc
  (value, if any = 0 then nptr else rest)

/-! ## Tokens -/

theorem strsep_none (delim : List Char) : strsep none delim = (none, none) := rfl

/-- The first separator ends the token. -/
theorem strsep_split {tok rest delim : List Char} {c : Char}
    (htok : ∀ x ∈ tok, x ∉ delim) (hc : c ∈ delim) :
    strsep (some (tok ++ c :: rest)) delim = (some tok, some rest) := by
  have hpass : ∀ x ∈ tok, (!delim.contains x) = true := by intro x hx; simpa using htok x hx
  have hstop : (!delim.contains c) = false := by simpa using hc
  have hdrop : (tok ++ c :: rest).dropWhile (fun c => !delim.contains c) = c :: rest := by
    rw [dropWhile_append_of_pos hpass, dropWhile_cons_of_neg (by rw [hstop]; decide)]
  have htake : (tok ++ c :: rest).takeWhile (fun c => !delim.contains c) = tok := by
    rw [takeWhile_append_of_pos hpass, takeWhile_cons_of_neg (by rw [hstop]; decide),
      append_nil]
  unfold strsep; simp only [hdrop, htake]

/-- A string without a separator is its own last token. -/
theorem strsep_last {tok delim : List Char} (htok : ∀ x ∈ tok, x ∉ delim) :
    strsep (some tok) delim = (some tok, none) := by
  have hpass : ∀ x ∈ tok, (!delim.contains x) = true := by intro x hx; simpa using htok x hx
  have hdrop : tok.dropWhile (fun c => !delim.contains c) = [] :=
    dropWhile_eq_nil_iff.2 hpass
  unfold strsep; simp only [hdrop]

/-! ## Numbers -/

theorem isDigit_iff {c : Char} : c.isDigit = true ↔ 48 ≤ c.toNat ∧ c.toNat ≤ 57 := by
  unfold Char.isDigit
  rw [Bool.and_eq_true, decide_eq_true_eq, decide_eq_true_eq]; exact Iff.rfl

theorem digitOf_of_isDigit {c : Char} (h : c.isDigit = true) :
    digitOf c = some (c.toNat - 48) ∧ c.toNat - 48 < 10 := by
  rw [isDigit_iff] at h
  have hascii : isascii c = true := by
    unfold isascii
    rw [decide_eq_true_eq]; omega
  have hdigit : isdigit c = true := by
    unfold isdigit
    rw [Bool.and_eq_true, decide_eq_true_eq, decide_eq_true_eq]; exact h
  refine ⟨?_, by omega⟩
  unfold digitOf
  rw [hascii, hdigit]; rfl

theorem le_ofDigitChars (s : List Char) (acc : ℕ) : acc ≤ Nat.ofDigitChars 10 s acc := by
  induction s generalizing acc with
  | nil => simp
  | cons c s ih =>
    rw [Nat.ofDigitChars_cons]
    have := ih (10 * acc + (c.toNat - '0'.toNat)); omega

/-- Digits whose value fits are read to the end. -/
theorem accumulate_digits {m : ℕ} (s : List Char) (acc : ℕ) (any : ℤ) (hany : 0 ≤ any)
    (hdigit : ∀ c ∈ s, c.isDigit = true) (hfit : Nat.ofDigitChars 10 s acc ≤ m) :
    accumulate 10 (m / 10) (m % 10) acc any s =
      (Nat.ofDigitChars 10 s acc, if s = [] then any else 1, []) := by
  induction s generalizing acc any with
  | nil => simp [accumulate]
  | cons c s ih =>
    obtain ⟨hd, hlt⟩ := digitOf_of_isDigit (hdigit c (mem_cons_self ..))
    rw [Nat.ofDigitChars_cons] at hfit ⊢
    have hzero : '0'.toNat = 48 := rfl
    rw [hzero] at hfit ⊢
    have hle := le_ofDigitChars s (10 * acc + (c.toNat - 48))
    have hguard : ¬ (any < 0 ∨ m / 10 < acc ∨ (acc = m / 10 ∧ m % 10 < c.toNat - 48)) := by
      omega
    unfold accumulate
    simp only [hd]
    rw [if_neg (by omega), if_neg hguard, Nat.mul_comm acc 10,
      ih _ _ (by decide) (fun x hx => hdigit x (mem_cons_of_mem _ hx)) hfit]
    simp

theorem isDigit_not_isspace {c : Char} (h : c.isDigit = true) : isspace c = false := by
  rw [isDigit_iff] at h
  unfold isspace
  rw [Bool.or_eq_false_iff, Bool.and_eq_false_iff]
  refine ⟨?_, Or.inr ?_⟩
  · rw [decide_eq_false_iff_not]
    rintro rfl
    exact absurd h.1 (by decide)
  · have hcr : '\r'.toNat = 13 := rfl
    rw [decide_eq_false_iff_not, hcr]; omega

/-- `strtol` in base 10 on what `%d` prints of a number that fits a `long`. -/
theorem strtol_toDigits {n : ℕ} (h : n ≤ longMax) :
    strtol (Nat.toDigits 10 n) 10 = ((n : ℤ), []) := by
  have hdigit : ∀ c ∈ Nat.toDigits 10 n, c.isDigit = true := fun c hc =>
    Nat.isDigit_of_mem_toDigits (by decide) (by decide) hc
  obtain ⟨c, t, hct⟩ : ∃ c t, Nat.toDigits 10 n = c :: t :=
    exists_cons_of_ne_nil Nat.toDigits_ne_nil
  have hc : c.isDigit = true := hdigit c (by rw [hct]; exact mem_cons_self ..)
  have hdrop : (c :: t).dropWhile isspace = c :: t := by
    rw [dropWhile_cons_of_neg (by rw [isDigit_not_isspace hc]; decide)]
  have hminus : c ≠ '-' := by rintro rfl; exact absurd hc (by decide)
  have hplus : c ≠ '+' := by rintro rfl; exact absurd hc (by decide)
  have hacc := accumulate_digits (m := longMax) (Nat.toDigits 10 n) 0 0 le_rfl hdigit
    (by rw [Nat.ofDigitChars_ten_toDigits]; exact h)
  rw [Nat.ofDigitChars_ten_toDigits, if_neg Nat.toDigits_ne_nil, hct] at hacc
  have hsign : (match c :: t with
      | '-' :: t => (true, t)
      | '+' :: t => (false, t)
      | t => (false, t)) = (false, c :: t) := by
    split
    · rename_i heq
      cases heq
      exact absurd rfl hminus
    · rename_i heq
      cases heq
      exact absurd rfl hplus
    · rfl
  unfold strtol
  rw [hct, hdrop]
  dsimp only
  rw [hsign]; simp [hacc]

/-- What `%d` prints has none of the punctuation that other parts of a text are made of. -/
theorem not_mem_toDigits {c : Char} (h : c.isDigit = false) (n : ℕ) : c ∉ Nat.toDigits 10 n := by
  intro hc
  rw [Nat.isDigit_of_mem_toDigits (by decide) (by decide) hc] at h
  cases h

end FreeBSD.Libkern
