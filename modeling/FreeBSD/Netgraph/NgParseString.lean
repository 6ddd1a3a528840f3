import Mathlib.Data.List.TakeWhile
import Mathlib.Tactic

/-!
# String tokens of the netgraph parser

`ng_get_string_token` and `ng_encode_string` of `netgraph/ng_parse.c` (lines 1624–1766). The bytes
from `p` on to the end of the allocation are a list: each copy of the decoder goes to `p`, and what
is before `p` is not touched again. A result `none` is an access outside of the allocation. Both
allocations succeed, and a string is so short that its offsets are no larger than an `int`.

Results:
* `strcpy_spec`: a copy of the rest of the string over what is in front of it.
* `tokenLoop_plain`: a text without backslashes and hexadecimal escapes is decoded exactly.
* `tokenLoop_behind`: each of these leaves `*lenp` one behind.
* `roundTrips_iff`: the strings that survive.
* `backslash_behind`: a single backslash.
-/

namespace FreeBSD.NgParseString

open List

/-! ## Bytes -/

/-- A `char`. -/
abbrev Byte := Fin 256

/-- The value of a signed `char`. -/
def toChar (c : Byte) : ℤ := if c < 128 then c else c - 256

def isspace (c : Byte) : Bool := c = 0x20 ∨ 0x09 ≤ c ∧ c ≤ 0x0d

/-- The value of an octal digit (line 1682). -/
def octalDigit (c : Byte) : Option ℕ := if 0x30 ≤ c ∧ c ≤ 0x37 then some (c - 0x30) else none

/-- The value of a character with `isxdigit` (lines 1690–1693). -/
def hexDigit (c : Byte) : Option ℕ :=
  if 0x30 ≤ c ∧ c ≤ 0x39 then some (c - 0x30)
  else if 0x41 ≤ c ∧ c ≤ 0x46 then some (c + 0x20 - 0x61 + 10)
  else if 0x61 ≤ c ∧ c ≤ 0x66 then some (c - 0x61 + 10)
  else none

/-! ## Decoder -/

/-- `strcpy(p, p + j)`, where `b` is the memory from `p` on. -/
def strcpy (b : List Byte) (j : ℕ) : Option (List Byte) :=
  let str := (b.drop j).takeWhile (· ≠ 0)
  if j + str.length < b.length then some (str ++ 0 :: b.drop (str.length + 1)) else none

/-- The loops of lines 1681–1685 and 1689–1695: the value `x`, and the number of digits. Nothing
    increments `k`, so that its bound does not matter. -/
def digits (digit : Byte → Option ℕ) (shift : ℕ) (x : BitVec 32) : List Byte → BitVec 32 × ℕ
  | [] => (x, 0)
  | c :: cs =>
    match digit c with
    | none => (x, 0)
    | some n =>
      let r := digits digit shift (x <<< shift + BitVec.ofNat 32 n) cs
      (r.1, r.2 + 1)

/-- The letters of lines 1654–1677. -/
def letter (c : Byte) : Option Byte :=
  if c = 0x74 then some 0x09
  else if c = 0x6e then some 0x0a
  else if c = 0x72 then some 0x0d
  else if c = 0x76 then some 0x0b
  else if c = 0x66 then some 0x0c
  else if c = 0x22 then some 0x22
  else none

/-- The `switch` on the character behind a backslash (lines 1653–1700), which has been copied over
    the backslash: the memory, and the increments of `off`. -/
def escape (b : List Byte) : Option (List Byte × ℕ) :=
  match b with
  | [] => none
  | c :: cs =>
    match letter c with
    | some d => some (d :: cs, 1)
    | none =>
      if (octalDigit c).isSome then
        let (x, d) := digits octalDigit 3 0 b
        (strcpy (b.set (d - 1) (Fin.ofNat 256 x.toNat)) (d - 1)).map (·, d)
      else if c = 0x78 then
        let (x, d) := digits hexDigit 4 0 cs
        (strcpy (b.set d (Fin.ofNat 256 x.toNat)) d).map (·, d)
      else some (b, 0)

/-- A token: the returned buffer, `*lenp` and `*slenp`. -/
structure Token where
  cbuf : List Byte
  lenp : ℕ
  slenp : ℕ
deriving DecidableEq

/-- The loop of lines 1641–1703, with the bytes before `p` in `front`. The inner `none` is a string
    without closing quote. -/
def tokenLoop : ℕ → List Byte → List Byte → ℕ → ℕ → Option (Option Token)
  | 0, _, _, _, _ => none
  | _, _, [], _, _ => none
  | rounds + 1, front, c :: cs, slen, off =>
    if c = 0 then some none
    else if c = 0x22 then some (some ⟨front ++ 0 :: cs, off + 1, slen⟩)
    else if c = 0x5c ∧ cs.head? ≠ some 0 then do
      let b ← strcpy (c :: cs) 1
      let (b, k) ← escape b
      tokenLoop rounds (front ++ b.take 1) (b.drop 1) (slen + 1) (off + k + 1)
    else tokenLoop rounds (front ++ [c]) cs (slen + 1) (off + 1)

/-- `ng_get_string_token`, for a string `s` without its terminating NUL: `*startp`, and the
    token. -/
def ng_get_string_token (s : List Byte) (startp : ℕ) : Option (ℕ × Option Token) :=
  let startp := startp + ((s.drop startp).takeWhile isspace).length
  match s.drop startp with
  | [] => some (startp, none)
  | c :: cs =>
    if c ≠ 0x22 then some (startp, none)
    else (tokenLoop (cs.length + 1) [] (cs ++ [0]) 0 1).map (startp, ·)

/-! ## Encoder -/

/-- A digit of `sprintf("%x")`. -/
def hexChar (n : ℕ) : Byte := Fin.ofNat 256 (if n < 10 then 0x30 + n else 0x61 + (n - 10))

/-- The `switch` of `ng_encode_string` (lines 1725–1760). -/
def encodeChar (c : Byte) : List Byte :=
  if c = 0x09 then [0x5c, 0x74]
  else if c = 0x0c then [0x5c, 0x66]
  else if c = 0x0a then [0x5c, 0x6e]
  else if c = 0x0d then [0x5c, 0x72]
  else if c = 0x0b then [0x5c, 0x76]
  else if c = 0x22 ∨ c = 0x5c then [0x5c, c]
  else if toChar c < 0x20 ∨ 0x7e < toChar c then [0x5c, 0x78, hexChar (c / 16), hexChar (c % 16)]
  else [c]

/-- `ng_encode_string`, without the terminating NUL. -/
def ng_encode_string (raw : List Byte) : List Byte := 0x22 :: raw.flatMap encodeChar ++ [0x22]

/-- The size that `ng_encode_string` allocates, where the bytes `tail` and a NUL are behind
    `raw`. -/
def cbufSize (raw tail : List Byte) : ℕ := ((raw ++ tail).takeWhile (· ≠ 0)).length * 4 + 3

/-! ## Copies -/

/-- The memory holds a string that begins with `t`. -/
def Text (t b : List Byte) : Prop := (∀ c ∈ t, c ≠ 0) ∧ ∃ junk, b = t ++ junk ∧ 0 ∈ junk

variable {t b cs ds front junk raw : List Byte} {c d e : Byte} {rounds slen off : ℕ}

theorem Text.cons (hc : c ≠ 0) (h : Text t b) : Text (c :: t) (c :: b) := by
  obtain ⟨ht, junk, rfl, hjunk⟩ := h
  refine ⟨?_, junk, rfl, hjunk⟩
  simpa using ⟨hc, ht⟩

theorem Text.append (hd : ∀ c ∈ ds, c ≠ 0) (h : Text t b) : Text (ds ++ t) (ds ++ b) := by
  induction ds with
  | nil => exact h
  | cons c ds ih => exact (ih fun x hx => hd x (mem_cons_of_mem c hx)).cons (hd c (by simp))

/-- A first character that is known can be taken off. -/
theorem Text.uncons (h : Text (c :: t) b) : ∃ cs, b = c :: cs ∧ Text t cs := by
  obtain ⟨ht, junk, rfl, hjunk⟩ := h
  exact ⟨t ++ junk, rfl, fun x hx => ht x (mem_cons_of_mem c hx), junk, rfl, hjunk⟩

theorem Text.split (h : Text (ds ++ t) b) : ∃ cs, b = ds ++ cs ∧ Text t cs := by
  obtain ⟨ht, junk, rfl, hjunk⟩ := h
  refine ⟨t ++ junk, by simp, fun x hx => ht x (by simp [hx]), junk, rfl, hjunk⟩

/-- The copy of a string over what is in front of it: the string is at the start then. -/
theorem strcpy_spec {j : ℕ} (h : Text t (b.drop j)) :
    ∃ b', strcpy b j = some b' ∧ Text t b' ∧ b'.length = b.length := by
  obtain ⟨ht, junk, hdrop, hjunk⟩ := h
  obtain ⟨u, w, rfl, hu⟩ := eq_append_cons_of_mem hjunk
  have hall : ∀ c ∈ t ++ u, decide (c ≠ 0) = true := by
    intro c hc
    rcases mem_append.1 hc with hc | hc
    · simpa using ht c hc
    · simp only [ne_eq, decide_eq_true_eq]
      rintro rfl
      exact hu hc
  have hstr : (b.drop j).takeWhile (· ≠ 0) = t ++ u := by
    rw [hdrop, ← append_assoc, takeWhile_append_of_pos hall]; simp
  have hlen : b.length - j = t.length + u.length + w.length + 1 := by
    rw [← length_drop, hdrop]
    simp
    omega
  unfold strcpy
  dsimp only
  rw [hstr, length_append, if_pos (by omega)]
  refine ⟨_, rfl, ⟨ht, u ++ 0 :: b.drop (t.length + u.length + 1), by simp, by simp⟩, ?_⟩
  simp
  omega

/-! ## Digits -/

/-- The digits up to the first character that is none. -/
theorem digits_spec (digit : Byte → Option ℕ) (shift : ℕ) (x : BitVec 32)
    (hds : ∀ c ∈ ds, (digit c).isSome) (hcs : ∀ c ∈ cs.head?, digit c = none) :
    ∃ y, digits digit shift x (ds ++ cs) = (y, ds.length) := by
  induction ds generalizing x with
  | nil =>
    cases cs with
    | nil => exact ⟨x, rfl⟩
    | cons c cs =>
      refine ⟨x, ?_⟩
      show digits digit shift x (c :: cs) = _
      rw [digits, hcs c rfl]; rfl
  | cons c ds ih =>
    obtain ⟨n, hn⟩ := Option.isSome_iff_exists.1 (hds c (by simp))
    obtain ⟨y, hy⟩ := ih (x <<< shift + BitVec.ofNat 32 n) fun e he => hds e (by simp [he])
    refine ⟨y, ?_⟩
    show digits digit shift x (c :: (ds ++ cs)) = _
    rw [digits, hn]
    dsimp only
    rw [hy]; rfl

/-- A hexadecimal digit is neither the end of the string nor a quote or a backslash. -/
theorem hexDigit_ordinary (h : (hexDigit c).isSome) : c ≠ 0 ∧ c ≠ 0x22 ∧ c ≠ 0x5c := by
  refine ⟨?_, ?_, ?_⟩ <;>
    · rintro rfl; exact absurd h (by decide)

theorem letter_ne (h : letter e = some d) : e ≠ 0 := by
  have hzero : letter 0 = none := by decide
  rintro rfl
  rw [hzero] at h
  cases h

/-! ## Rounds of the loop -/

theorem tokenLoop_ordinary (hc : c ≠ 0 ∧ c ≠ 0x22 ∧ c ≠ 0x5c) :
    tokenLoop (rounds + 1) front (c :: cs) slen off =
      tokenLoop rounds (front ++ [c]) cs (slen + 1) (off + 1) := by
  rw [tokenLoop, if_neg hc.1, if_neg hc.2.1, if_neg (fun h => hc.2.2 h.1)]

theorem tokenLoop_quote :
    tokenLoop (rounds + 1) front (0x22 :: cs) slen off =
      some (some ⟨front ++ 0 :: cs, off + 1, slen⟩) := by
  rw [tokenLoop, if_neg (by decide), if_pos rfl]

theorem tokenLoop_backslash (rounds : ℕ) (front : List Byte) (slen off : ℕ) (he : e ≠ 0)
    (ht : Text t (e :: cs)) :
    ∃ b, Text t b ∧ b.length = cs.length + 2 ∧
      tokenLoop (rounds + 1) front (0x5c :: e :: cs) slen off = (escape b).bind fun p =>
        tokenLoop rounds (front ++ p.1.take 1) (p.1.drop 1) (slen + 1) (off + p.2 + 1) := by
  obtain ⟨b, hb, htext, hlen⟩ := strcpy_spec (b := 0x5c :: e :: cs) (j := 1) ht
  refine ⟨b, htext, hlen, ?_⟩
  rw [tokenLoop, if_neg (by decide), if_neg (by decide), if_pos ⟨rfl, by simpa using he⟩, hb]
  rfl

/-- The digits of an escape that gave a NUL are scanned up to the NUL. -/
theorem tokenLoop_stop (hds : ∀ c ∈ ds, (hexDigit c).isSome) (hrounds : ds.length < rounds) :
    tokenLoop rounds front (ds ++ 0 :: cs) slen off = some none := by
  induction ds generalizing rounds front slen off with
  | nil =>
    obtain ⟨rounds, rfl⟩ := Nat.exists_eq_add_of_lt hrounds
    simp [tokenLoop]
  | cons c ds ih =>
    obtain ⟨rounds, rfl⟩ : ∃ k, rounds = k + 1 := ⟨rounds - 1, by omega⟩
    rw [cons_append, tokenLoop_ordinary (hexDigit_ordinary (hds c (by simp)))]
    apply ih
    · exact fun e he => hds e (by simp [he])
    · simp only [length_cons] at hrounds; omega

/-- An escape with a letter. -/
theorem tokenLoop_letter (rounds : ℕ) (front : List Byte) (slen off : ℕ) (he : letter e = some d)
    (ht : Text t cs) :
    ∃ b, Text t b ∧ b.length = cs.length + 1 ∧
      tokenLoop (rounds + 1) front (0x5c :: e :: cs) slen off =
        tokenLoop rounds (front ++ [d]) b (slen + 1) (off + 2) := by
  have hne := letter_ne he
  obtain ⟨b, htext, hlen, hloop⟩ := tokenLoop_backslash rounds front slen off hne (ht.cons hne)
  obtain ⟨b, rfl, hb⟩ := htext.uncons
  refine ⟨b, hb, by simpa using hlen, ?_⟩
  rw [hloop]
  unfold escape
  dsimp only
  rw [he]; rfl

/-- A backslash behind a backslash leaves `off` alone. -/
theorem tokenLoop_double (rounds : ℕ) (front : List Byte) (slen off : ℕ) (ht : Text t cs) :
    ∃ b, Text t b ∧ b.length = cs.length + 1 ∧
      tokenLoop (rounds + 1) front (0x5c :: 0x5c :: cs) slen off =
        tokenLoop rounds (front ++ [0x5c]) b (slen + 1) (off + 1) := by
  obtain ⟨b, htext, hlen, hloop⟩ := tokenLoop_backslash rounds front slen off (by decide)
    (ht.cons (c := 0x5c) (by decide))
  obtain ⟨b, rfl, hb⟩ := htext.uncons
  refine ⟨b, hb, by simpa using hlen, ?_⟩
  rw [hloop]; rfl

/-- A hexadecimal escape takes all digits that follow, and leaves `off` one behind. If its value is
    NUL, the string ends there, and no quote is found. -/
theorem tokenLoop_hex (front : List Byte) (slen off : ℕ) (hds : ∀ c ∈ ds, (hexDigit c).isSome)
    (hd : (hexDigit d).isSome)
    (ht : Text t cs) (hnext : ∀ c ∈ t.head?, hexDigit c = none) (hne : t ≠ [])
    (hrounds : ds.length < rounds) :
    tokenLoop (rounds + 1) front (0x5c :: 0x78 :: (ds ++ d :: cs)) slen off = some none ∨
      ∃ x b, Text t b ∧ b.length = ds.length + cs.length + 2 ∧
        tokenLoop (rounds + 1) front (0x5c :: 0x78 :: (ds ++ d :: cs)) slen off =
          tokenLoop rounds (front ++ [x]) b (slen + 1) (off + (ds.length + 1) + 1) := by
  have hord : ∀ c ∈ ds ++ [d], (hexDigit c).isSome := by
    intro c hc
    rcases mem_append.1 hc with hc | hc
    · exact hds c hc
    · rw [mem_singleton.1 hc]; exact hd
  have htext : Text (0x78 :: ((ds ++ [d]) ++ t)) (0x78 :: (ds ++ d :: cs)) := by
    rw [show ds ++ d :: cs = (ds ++ [d]) ++ cs by simp]
    exact (ht.append fun c hc => (hexDigit_ordinary (hord c hc)).1).cons (by decide)
  obtain ⟨b, hb, hlen, hloop⟩ := tokenLoop_backslash rounds front slen off (by decide) htext
  obtain ⟨b, rfl, hrest⟩ := hb.uncons
  obtain ⟨cs', rfl, hcs'⟩ := hrest.split
  obtain ⟨y, hy⟩ := @digits_spec cs' (ds ++ [d]) hexDigit 4 0 hord (by
    obtain ⟨-, junk, rfl, -⟩ := hcs'
    cases t with
    | nil => exact absurd rfl hne
    | cons c t => simpa using hnext)
  have hescape : escape (0x78 :: (ds ++ [d] ++ cs')) =
      (strcpy (0x78 :: ds ++ Fin.ofNat 256 y.toNat :: cs') (ds.length + 1)).map
        (·, ds.length + 1) := by
    unfold escape
    dsimp only
    rw [show letter 0x78 = none by decide]
    dsimp only
    rw [if_neg (by decide), if_pos rfl, hy]
    simp
  rw [hloop, hescape]
  generalize Fin.ofNat 256 y.toNat = x
  have hdrop : (0x78 :: ds ++ x :: cs').drop (ds.length + 1) = x :: cs' := by simp
  by_cases hx : x = 0
  · -- the stale digits are scanned, up to the copied NUL
    left
    subst hx
    have hcopy : strcpy (0x78 :: ds ++ 0 :: cs') (ds.length + 1) =
        some (0 :: (ds ++ 0 :: cs')) := by
      unfold strcpy
      dsimp only
      rw [hdrop]; simp
    rw [hcopy]; exact tokenLoop_stop hds hrounds
  · right
    obtain ⟨b, hcopy, hb, hlen'⟩ := strcpy_spec (hdrop ▸ hcs'.cons hx)
    obtain ⟨rest, rfl, hrest'⟩ := hb.uncons
    refine ⟨x, rest, hrest', ?_, ?_⟩
    · simp at hlen hlen'; omega
    · rw [hcopy]; rfl

/-! ## Encoded characters -/

/-- A character that is encoded as itself or with a letter. -/
def Plain (c : Byte) : Prop := (0x09 ≤ c ∧ c ≤ 0x0d ∨ 0x20 ≤ c ∧ c ≤ 0x7e) ∧ c ≠ 0x5c

instance : DecidablePred Plain := fun _ => inferInstanceAs (Decidable (_ ∧ _))

theorem toChar_print (c : Byte) : toChar c < 0x20 ∨ 0x7e < toChar c ↔ ¬ (0x20 ≤ c ∧ c ≤ 0x7e) := by
  unfold toChar
  split_ifs with h <;> simp only [Fin.lt_def, Fin.le_def] at h ⊢ <;> simp at h ⊢ <;> omega

theorem hexDigit_isSome :
    (hexDigit c).isSome ↔ 0x30 ≤ c ∧ c ≤ 0x39 ∨ 0x41 ≤ c ∧ c ≤ 0x46 ∨ 0x61 ≤ c ∧ c ≤ 0x66 := by
  unfold hexDigit
  split_ifs <;> simp_all

/-- A printable character other than a quote and a backslash is encoded as itself. -/
theorem encodeChar_self (h : 0x20 ≤ c ∧ c ≤ 0x7e) (hq : c ≠ 0x22) (hb : c ≠ 0x5c) :
    encodeChar c = [c] := by
  have hctl : ∀ x : Byte, x < 0x20 → c ≠ x := by rintro x hx rfl; exact absurd h.1 (not_le.2 hx)
  unfold encodeChar
  rw [if_neg (hctl _ (by decide)), if_neg (hctl _ (by decide)), if_neg (hctl _ (by decide)),
    if_neg (hctl _ (by decide)), if_neg (hctl _ (by decide)), if_neg (not_or.2 ⟨hq, hb⟩),
    if_neg (mt (toChar_print c).1 (not_not.2 h))]

theorem encodeChar_plain (h : Plain c) :
    (∃ e, encodeChar c = [0x5c, e] ∧ letter e = some c) ∨
      encodeChar c = [c] ∧ c ≠ 0 ∧ c ≠ 0x22 ∧ c ≠ 0x5c := by
  obtain ⟨hctl | hprint, hb⟩ := h
  · have hcases : c = 0x09 ∨ c = 0x0a ∨ c = 0x0b ∨ c = 0x0c ∨ c = 0x0d := by
      simp only [Fin.le_def, Fin.ext_iff] at hctl ⊢
      simp at hctl ⊢
      omega
    left
    rcases hcases with rfl | rfl | rfl | rfl | rfl
    · exact ⟨0x74, by decide, by decide⟩
    · exact ⟨0x6e, by decide, by decide⟩
    · exact ⟨0x76, by decide, by decide⟩
    · exact ⟨0x66, by decide, by decide⟩
    · exact ⟨0x72, by decide, by decide⟩
  · by_cases hq : c = 0x22
    · subst hq; exact .inl ⟨0x22, by decide, by decide⟩
    · refine .inr ⟨encodeChar_self hprint hq hb, ?_, hq, hb⟩
      rintro rfl
      exact absurd hprint.1 (by decide)

theorem hexChar_isSome : ∀ n < 16, (hexDigit (hexChar n)).isSome := by decide

theorem encodeChar_hex (h : ¬ Plain c) (hc : c ≠ 0x5c) :
    ∃ d e, encodeChar c = [0x5c, 0x78, d, e] ∧ (hexDigit d).isSome ∧ (hexDigit e).isSome := by
  have hne : ∀ x : Byte, Plain x → c ≠ x := by rintro x hx rfl; exact h hx
  have hprint : ¬ (0x20 ≤ c ∧ c ≤ 0x7e) := fun hprint => h ⟨.inr hprint, hc⟩
  refine ⟨hexChar (c / 16), hexChar (c % 16), ?_, hexChar_isSome _ (by omega),
    hexChar_isSome _ (by omega)⟩
  unfold encodeChar
  rw [if_neg (hne _ (by decide)), if_neg (hne _ (by decide)), if_neg (hne _ (by decide)),
    if_neg (hne _ (by decide)), if_neg (hne _ (by decide)),
    if_neg (not_or.2 ⟨hne _ (by decide), hc⟩), if_pos ((toChar_print c).2 hprint)]

theorem encodeChar_digit (h : (hexDigit c).isSome) : encodeChar c = [c] ∧ Plain c := by
  obtain ⟨-, hq, hb⟩ := hexDigit_ordinary h
  have hprint : 0x20 ≤ c ∧ c ≤ 0x7e := by
    rw [hexDigit_isSome] at h
    simp only [Fin.le_def] at h ⊢
    simp at h ⊢
    omega
  exact ⟨encodeChar_self hprint hq hb, .inr hprint, hb⟩

/-- What any character is encoded as: it begins with no digit unless it is one, and has no NUL. -/
theorem encodeChar_head (h : hexDigit c = none) :
    ∃ e l, encodeChar c = e :: l ∧ hexDigit e = none := by
  by_cases hplain : Plain c
  · rcases encodeChar_plain hplain with ⟨e, he, -⟩ | ⟨he, -⟩
    · exact ⟨_, _, he, by decide⟩
    · exact ⟨_, _, he, h⟩
  · by_cases hb : c = 0x5c
    · subst hb; exact ⟨0x5c, [0x5c], by decide, by decide⟩
    · obtain ⟨d, e, he, -⟩ := encodeChar_hex hplain hb
      exact ⟨_, _, he, by decide⟩

theorem encodeChar_ne_zero (c : Byte) : ∀ e ∈ encodeChar c, e ≠ 0 := by
  by_cases hplain : Plain c
  · rcases encodeChar_plain hplain with ⟨e, he, hletter⟩ | ⟨he, hc, -⟩
    · rw [he]; simpa using letter_ne hletter
    · rw [he]; simpa using hc
  · by_cases hb : c = 0x5c
    · rw [hb, show encodeChar 0x5c = [0x5c, 0x5c] by decide]
      simp
    · obtain ⟨d, e, he, hd, he'⟩ := encodeChar_hex hplain hb
      rw [he]; simpa using ⟨(hexDigit_ordinary hd).1, (hexDigit_ordinary he').1⟩

/-! ## Encoded strings -/

/-- The encoding of a string, without the opening quote. -/
def body (raw : List Byte) : List Byte := raw.flatMap encodeChar ++ [0x22]

theorem body_cons (c : Byte) (raw : List Byte) : body (c :: raw) = encodeChar c ++ body raw := by
  simp [body]

theorem body_ne_zero (raw : List Byte) : ∀ e ∈ body raw, e ≠ 0 := by
  induction raw with
  | nil => simp [body]
  | cons c raw ih =>
    intro e he
    rw [body_cons, mem_append] at he
    rcases he with he | he
    · exact encodeChar_ne_zero c e he
    · exact ih e he

theorem body_digits (hds : ∀ c ∈ ds, (hexDigit c).isSome) : body (ds ++ raw) = ds ++ body raw := by
  induction ds with
  | nil => rfl
  | cons c ds ih =>
    rw [cons_append, body_cons, (encodeChar_digit (hds c (by simp))).1,
      ih fun e he => hds e (by simp [he])]
    rfl

theorem body_head (h : ∀ c ∈ raw.head?, hexDigit c = none) :
    ∀ c ∈ (body raw).head?, hexDigit c = none := by
  cases raw with
  | nil =>
    simp only [body, flatMap_nil, nil_append, List.head?_cons, Option.mem_some_iff]
    rintro c rfl
    decide
  | cons c raw =>
    obtain ⟨e, l, he, hdigit⟩ := encodeChar_head (h c rfl)
    rw [body_cons, he]; simpa using hdigit

theorem body_length_pos (raw : List Byte) : 0 < (body raw).length := by simp [body]

/-- A plain string is decoded exactly, and `off` keeps step. -/
theorem tokenLoop_plain (front : List Byte) (slen off : ℕ) (hraw : ∀ c ∈ raw, Plain c)
    (hb : Text (body raw) b)
    (hrounds : b.length ≤ rounds) :
    ∃ junk, tokenLoop rounds front b slen off =
      some (some ⟨front ++ (raw ++ 0 :: junk), off + (body raw).length, slen + raw.length⟩) := by
  induction raw generalizing rounds front b slen off with
  | nil =>
    obtain ⟨cs, rfl, -⟩ := hb.uncons
    obtain ⟨rounds, rfl⟩ : ∃ k, rounds = k + 1 := ⟨rounds - 1, by simp at hrounds; omega⟩
    exact ⟨cs, tokenLoop_quote⟩
  | cons c raw ih =>
    rw [body_cons] at hb ⊢
    have hraw' : ∀ e ∈ raw, Plain e := fun e he => hraw e (by simp [he])
    obtain ⟨rounds, rfl⟩ : ∃ k, rounds = k + 1 := by
      obtain ⟨-, junk, rfl, hjunk⟩ := hb
      have := length_pos_of_mem hjunk
      simp at hrounds
      exact ⟨rounds - 1, by omega⟩
    rcases encodeChar_plain (hraw c (by simp)) with ⟨e, he, hletter⟩ | ⟨he, hord⟩
    · rw [he] at hb ⊢
      obtain ⟨cs, rfl, hcs⟩ := hb.split
      obtain ⟨b, hb, hlen, hloop⟩ := tokenLoop_letter rounds front slen off hletter hcs
      simp only [cons_append, nil_append, length_cons] at hrounds hloop ⊢
      obtain ⟨junk, hjunk⟩ := ih (front ++ [c]) (slen + 1) (off + 2) hraw' hb
        (show b.length ≤ rounds by omega)
      refine ⟨junk, ?_⟩
      rw [hloop, hjunk]
      simp
      omega
    · rw [he] at hb ⊢
      obtain ⟨cs, rfl, hcs⟩ := hb.split
      simp only [cons_append, nil_append, length_cons] at hrounds ⊢
      obtain ⟨junk, hjunk⟩ := ih (front ++ [c]) (slen + 1) (off + 1) hraw' hcs
        (show cs.length ≤ rounds by omega)
      refine ⟨junk, ?_⟩
      rw [tokenLoop_ordinary hord, hjunk]
      simp
      omega

/-- The characters that leave `*lenp` one behind. -/
def behind (raw : List Byte) : ℕ := raw.countP fun c => ¬ Plain c

theorem behind_cons_plain (h : Plain c) : behind (c :: raw) = behind raw := by
  simp [behind, h]

theorem behind_cons (h : ¬ Plain c) : behind (c :: raw) = behind raw + 1 := by
  simp [behind, h]

theorem behind_digits (hds : ∀ c ∈ ds, (hexDigit c).isSome) : behind (ds ++ raw) = behind raw := by
  induction ds with
  | nil => rfl
  | cons c ds ih =>
    rw [cons_append, behind_cons_plain (encodeChar_digit (hds c (by simp))).2]
    exact ih fun e he => hds e (by simp [he])

/-- The digits that an escape takes, with those of its own at the front: all but the last, the last,
    and the characters behind. -/
theorem digits_split (h : ¬ Plain c) (hc : c ≠ 0x5c) (raw : List Byte) :
    ∃ ds d us, (∀ e ∈ ds, (hexDigit e).isSome) ∧ (hexDigit d).isSome ∧
      (∀ e ∈ us.head?, hexDigit e = none) ∧ us.length ≤ raw.length ∧ behind us = behind raw ∧
        encodeChar c ++ body raw = 0x5c :: 0x78 :: (ds ++ d :: body us) := by
  obtain ⟨x, y, hcode, hx, hy⟩ := encodeChar_hex h hc
  have hpre : ∀ e ∈ x :: y :: raw.takeWhile (fun e => (hexDigit e).isSome),
      (hexDigit e).isSome := by
    intro e he
    simp only [mem_cons] at he
    rcases he with rfl | rfl | he
    · exact hx
    · exact hy
    · exact mem_takeWhile_imp (p := fun e => (hexDigit e).isSome) he
  obtain ⟨ds, d, hlast⟩ : ∃ ds d,
      x :: y :: raw.takeWhile (fun e => (hexDigit e).isSome) = ds ++ [d] :=
    ⟨_, _, (dropLast_append_getLast (cons_ne_nil _ _)).symm⟩
  have hsplit := takeWhile_append_dropWhile (p := fun e => (hexDigit e).isSome) (l := raw)
  have hraw : ∀ e ∈ raw.takeWhile (fun e => (hexDigit e).isSome), (hexDigit e).isSome :=
    fun e he => hpre e (by simp [he])
  rw [hlast] at hpre
  refine ⟨ds, d, raw.dropWhile (fun e => (hexDigit e).isSome), fun e he => hpre e (by simp [he]),
    hpre d (by simp), ?_, length_dropWhile_le _ _, ?_, ?_⟩
  · intro e he
    have := List.head?_dropWhile_not (fun e => (hexDigit e).isSome) raw
    rw [he] at this; simpa using this
  · rw [← behind_digits hraw, hsplit]
  · calc encodeChar c ++ body raw
        = [0x5c, 0x78] ++ (x :: y :: raw.takeWhile (fun e => (hexDigit e).isSome)) ++
            body (raw.dropWhile (fun e => (hexDigit e).isSome)) := by
          rw [hcode]
          nth_rewrite 1 [← hsplit]
          rw [body_digits hraw]; simp
      _ = _ := by rw [hlast]; simp

/-- If the quote is found at all, `*lenp` is as much behind as there are characters that are not
    plain. The induction is on the length, since an escape takes the digits behind it as well. -/
theorem tokenLoop_behind (n : ℕ) (front : List Byte) (slen off : ℕ) (hn : raw.length ≤ n)
    (hb : Text (body raw) b)
    (hrounds : b.length ≤ rounds) :
    tokenLoop rounds front b slen off = some none ∨
      ∃ r, tokenLoop rounds front b slen off = some (some r) ∧
        r.lenp + behind raw = off + (body raw).length := by
  induction n generalizing raw rounds front b slen off with
  | zero =>
    obtain rfl := length_eq_zero_iff.1 (Nat.le_zero.1 hn)
    obtain ⟨junk, hjunk⟩ := tokenLoop_plain front slen off
      (fun c hc => by cases hc) hb hrounds
    exact .inr ⟨_, hjunk, rfl⟩
  | succ n ih =>
    cases raw with
    | nil =>
      obtain ⟨junk, hjunk⟩ := tokenLoop_plain front slen off (fun c hc => by cases hc) hb hrounds
      exact .inr ⟨_, hjunk, rfl⟩
    | cons c raw =>
      have hlt : raw.length ≤ n := by simpa using hn
      rw [body_cons] at hb ⊢
      obtain ⟨rounds, rfl⟩ : ∃ k, rounds = k + 1 := by
        obtain ⟨-, junk, rfl, hjunk⟩ := hb
        have := length_pos_of_mem hjunk
        simp at hrounds
        exact ⟨rounds - 1, by omega⟩
      by_cases hplain : Plain c
      · rw [behind_cons_plain hplain]
        rcases encodeChar_plain hplain with ⟨e, he, hletter⟩ | ⟨he, hord⟩
        · rw [he] at hb ⊢
          obtain ⟨cs, rfl, hcs⟩ := hb.split
          obtain ⟨b, hb, hlen, hloop⟩ := tokenLoop_letter rounds front slen off hletter hcs
          simp only [cons_append, nil_append, length_cons] at hrounds hloop ⊢
          rw [hloop]
          rcases ih (front ++ [c]) (slen + 1) (off + 2) hlt hb
            (show b.length ≤ rounds by omega) with hnone | ⟨r, hr, hlenp⟩
          · exact .inl hnone
          · exact .inr ⟨r, hr, by omega⟩
        · rw [he] at hb ⊢
          obtain ⟨cs, rfl, hcs⟩ := hb.split
          simp only [cons_append, nil_append, length_cons] at hrounds ⊢
          rw [tokenLoop_ordinary hord]
          rcases ih (front ++ [c]) (slen + 1) (off + 1) hlt hcs
            (show cs.length ≤ rounds by omega) with hnone | ⟨r, hr, hlenp⟩
          · exact .inl hnone
          · exact .inr ⟨r, hr, by omega⟩
      · rw [behind_cons hplain]
        by_cases hback : c = 0x5c
        · subst hback
          rw [show encodeChar 0x5c = [0x5c, 0x5c] by decide] at hb ⊢
          obtain ⟨cs, rfl, hcs⟩ := hb.split
          obtain ⟨b, hb, hlen, hloop⟩ := tokenLoop_double rounds front slen off hcs
          simp only [cons_append, nil_append, length_cons] at hrounds hloop ⊢
          rw [hloop]
          rcases ih (front ++ [0x5c]) (slen + 1) (off + 1) hlt hb
            (show b.length ≤ rounds by omega) with hnone | ⟨r, hr, hlenp⟩
          · exact .inl hnone
          · exact .inr ⟨r, hr, by omega⟩
        · obtain ⟨ds, d, us, hds, hd, hhead, hlen, hbehind, hcode⟩ :=
            digits_split hplain hback raw
          rw [hcode] at hb ⊢
          obtain ⟨cs, rfl, hcs⟩ := (show Text (([0x5c, 0x78] ++ ds ++ [d]) ++ body us) b by
            simpa using hb).split
          rw [show [0x5c, 0x78] ++ ds ++ [d] ++ cs = 0x5c :: 0x78 :: (ds ++ d :: cs) by simp]
            at hrounds ⊢
          have hne : body us ≠ [] := ne_nil_of_length_pos (body_length_pos us)
          simp only [length_cons, length_append] at hrounds ⊢
          rcases tokenLoop_hex front slen off hds hd hcs (body_head hhead) hne
            (show ds.length < rounds by omega) with hnone | ⟨x, b, hb, hlen', hloop⟩
          · exact .inl hnone
          · rw [hloop, ← hbehind]
            rcases ih (front ++ [x]) (slen + 1) (off + (ds.length + 1) + 1) (hlen.trans hlt) hb
              (show b.length ≤ rounds by omega) with hnone | ⟨r, hr, hlenp⟩
            · exact .inl hnone
            · exact .inr ⟨r, hr, by omega⟩

/-! ## Round trip -/

/-- The encoding of `raw`, with which memory behind it, fits its buffer, and the decoder gets `raw`
    back from it between any other text. -/
structure RoundTrips (raw tail before cont : List Byte) : Prop where
  fits : (ng_encode_string raw).length + 1 ≤ cbufSize raw tail
  decodes : ∃ r, ng_get_string_token (before ++ ng_encode_string raw ++ cont) before.length =
      some (before.length, some r) ∧
    raw ++ [0] <+: r.cbuf ∧ r.slenp = raw.length ∧ r.lenp = (ng_encode_string raw).length

theorem encode_length (raw : List Byte) : (ng_encode_string raw).length =
    (body raw).length + 1 := by
  simp [ng_encode_string, body]

theorem body_length_le (raw : List Byte) : (body raw).length ≤ 4 * raw.length + 1 := by
  induction raw with
  | nil => simp [body]
  | cons c raw ih =>
    have hcode : (encodeChar c).length ≤ 4 := by
      unfold encodeChar
      split_ifs <;> simp
    rw [body_cons, length_append, length_cons]; omega

/-- The loop of a call on an encoding. -/
theorem get_string_token_eq (raw before cont : List Byte) :
    ng_get_string_token (before ++ ng_encode_string raw ++ cont) before.length =
      (tokenLoop ((body raw ++ cont).length + 1) [] (body raw ++ (cont ++ [0])) 0 1).map
        (before.length, ·) := by
  have hdrop : (before ++ ng_encode_string raw ++ cont).drop before.length =
      0x22 :: (body raw ++ cont) := by
    simp [ng_encode_string, body]
  have hspace : (0x22 :: (body raw ++ cont)).takeWhile isspace = [] := by
    rw [takeWhile_cons, if_neg (by decide)]
  unfold ng_get_string_token
  dsimp only
  rw [hdrop, hspace]
  simp only [length_nil, add_zero, hdrop]; simp

theorem text_body (raw cont : List Byte) : Text (body raw) (body raw ++ (cont ++ [0])) :=
  ⟨body_ne_zero raw, cont ++ [0], rfl, by simp⟩

/-- The strings that survive are those of which each character is encoded as itself or with one of
    the letters. -/
theorem roundTrips_iff (raw tail before cont : List Byte) :
    RoundTrips raw tail before cont ↔ ∀ c ∈ raw, Plain c := by
  have hrounds : (body raw ++ (cont ++ [0])).length ≤ (body raw ++ cont).length + 1 := by
    simp only [length_append, length_singleton]; omega
  constructor
  · intro h
    obtain ⟨r, htoken, -, -, hlenp⟩ := h.decodes
    rw [get_string_token_eq] at htoken
    have hbehind : behind raw = 0 := by
      rcases tokenLoop_behind raw.length [] 0 1 (le_refl _) (text_body raw cont) hrounds with
        hnone | ⟨s, hs, hslenp⟩
      · rw [hnone] at htoken
        cases htoken
      · rw [hs] at htoken
        obtain rfl : s = r := by simpa using htoken
        rw [encode_length] at hlenp; omega
    simpa [behind, countP_eq_zero] using hbehind
  · intro hplain
    have hne : ∀ c ∈ raw, decide (c ≠ 0) = true := by
      intro c hc
      have := hplain c hc
      simp only [ne_eq, decide_eq_true_eq]
      rintro rfl
      exact absurd this (by decide)
    obtain ⟨junk, hloop⟩ := tokenLoop_plain [] 0 1 hplain (text_body raw cont) hrounds
    refine ⟨?_, _, by rw [get_string_token_eq, hloop]; rfl, ?_, ?_, ?_⟩
    · have hle := body_length_le raw
      unfold cbufSize
      rw [takeWhile_append_of_pos hne, length_append, encode_length]; omega
    · exact ⟨junk, by simp⟩
    · simp
    · rw [encode_length]
      dsimp only; omega

/-- Of the encoding of a backslash, `*lenp` leaves out the closing quote. -/
theorem backslash_behind : ¬ RoundTrips [0x5c] [] [] [] := by
  intro h
  obtain ⟨r, htoken, -, -, hlenp⟩ := h.decodes
  have hval : ng_get_string_token ([] ++ ng_encode_string [0x5c] ++ []) 0 =
      some (0, some ⟨[0x5c, 0, 0, 0], 3, 1⟩) := by decide
  rw [length_nil, hval] at htoken
  obtain rfl : _ = r := by simpa using htoken
  exact absurd hlenp (by decide)

end FreeBSD.NgParseString
