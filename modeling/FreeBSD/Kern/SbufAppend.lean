import Mathlib.Tactic
import Mathlib.Data.List.DropRight

/-!
# Appending to string buffers, `kern/subr_sbuf.c`

The append functions on buffers of fixed length and on those that extend themselves. An operation
has the answers of `malloc` to its calls, `mem k` to the one after `k` others. The numbers are
32-bit integers, and `none` stands for a loop that does not end. A text that is printed is given
formatted: `vsnprintf` stores at most `size - 1` bytes of it and returns its length.

`s_buf` has the first `s_len` bytes of the buffer. `SBUF_DYNAMIC`, which says who frees the buffer,
and `SBUF_FINISHED` are no part of it.

Results:
* `extendsize_spec`: what a new buffer has room for.
-/

namespace FreeBSD.SbufAppend

/-- The value of an `int`. -/
def intWrap (x : ℤ) : ℤ := (BitVec.ofInt 32 x).toInt

structure Sbuf where
  s_buf : List Char
  s_size : ℤ
  /-- `SBUF_AUTOEXTEND`. -/
  autoextend : Bool
  /-- `SBUF_OVERFLOWED`. -/
  overflowed : Bool
  deriving DecidableEq

/-- `s_len`. -/
def Sbuf.len (s : Sbuf) : ℤ := s.s_buf.length

def Sbuf.append (s : Sbuf) (text : List Char) : Sbuf := { s with s_buf := s.s_buf ++ text }

/-- `SBUF_HASROOM` and `SBUF_FREESPACE` (lines 69-70). -/
def hasroom (s : Sbuf) : Bool := s.len < s.s_size - 1
def freespace (s : Sbuf) : ℤ := s.s_size - s.len - 1

/-- `SBUF_MINEXTENDSIZE`, and `SBUF_MAXEXTENDSIZE`, which is also `SBUF_MAXEXTENDINCR` (lines
    79-81). -/
def minExtendSize : ℤ := 16
def maxExtendSize : ℤ := 4096

/-- The loop of `sbuf_extendsize` (lines 118-123). It ends within `2^19 + 8` turns or not at all. -/
def extendLoop (size : ℤ) : ℕ → ℤ → Option ℤ
  | 0, _ => none
  | fuel + 1, newsize =>
    if newsize < size then
      extendLoop size fuel
        (if newsize < maxExtendSize then intWrap (newsize * 2)
        else intWrap (newsize + maxExtendSize))
    else some newsize

/-- `sbuf_extendsize` (lines 112-126). -/
def sbufExtendsize (size : ℤ) : Option ℤ := extendLoop size (2 ^ 20) minExtendSize

/-- `sbuf_extend` (lines 132-153), and whether it returned 0. -/
def sbufExtend (s : Sbuf) (addlen : ℤ) (mem : Bool) : Option (Sbuf × Bool) :=
  if s.autoextend then
    (sbufExtendsize (intWrap (s.s_size + addlen))).map fun newsize =>
      if mem then ({ s with s_size := newsize }, true) else (s, false)
  else some (s, false)

/-- `sbuf_new` for a positive length (lines 160-195), with a buffer given or not. -/
def sbufNew (given : Bool) (length : ℤ) (autoextend : Bool) : Option Sbuf :=
  if given = false ∧ autoextend = true then
    (sbufExtendsize length).map fun size => ⟨[], size, autoextend, false⟩
  else some ⟨[], length, autoextend, false⟩

/-- `sbuf_clear` (lines 228-237). -/
def sbufClear (s : Sbuf) : Sbuf := { s with s_buf := [], overflowed := false }

/-- `sbuf_setpos` (lines 243-258), and whether it returned 0. -/
def sbufSetpos (s : Sbuf) (pos : ℤ) : Sbuf × Bool :=
  if pos < 0 ∨ s.len < pos then (s, false)
  else ({ s with s_buf := s.s_buf.take pos.toNat }, true)

/-- The loop of `sbuf_bcat` and `sbuf_cat` (lines 272-276, 336-340). It ends with what is left. -/
def bcatLoop (mem : ℕ → Bool) (k : ℕ) (s : Sbuf) : List Char → Option (Sbuf × List Char)
  | [] => some (s, [])
  | c :: str =>
    if hasroom s then bcatLoop mem k (s.append [c]) str
    else
      match sbufExtend s (intWrap (str.length + 1)) (mem k) with
      | none => none
      | some (s, false) => some (s, c :: str)
      | some (s, true) => bcatLoop mem (k + 1) (s.append [c]) str

/-- `sbuf_bcat` (lines 263-282). -/
def sbufBcat (s : Sbuf) (str : List Char) (mem : ℕ → Bool) : Option (Sbuf × Bool) :=
  if s.overflowed then some (s, false)
  else
    (bcatLoop mem 0 s str).map fun (s, left) =>
      if left = [] then (s, true) else ({ s with overflowed := true }, false)

/-- `sbuf_bcpy` (lines 314-322). -/
def sbufBcpy (s : Sbuf) (str : List Char) (mem : ℕ → Bool) : Option (Sbuf × Bool) :=
  sbufBcat (sbufClear s) str mem

/-- `sbuf_cat` (lines 327-346): the text ends in front of a NUL. -/
def sbufCat (s : Sbuf) (str : List Char) (mem : ℕ → Bool) : Option (Sbuf × Bool) :=
  sbufBcat s (str.takeWhile fun c => c ≠ '\x00') mem

/-- `sbuf_cpy` (lines 387-395). -/
def sbufCpy (s : Sbuf) (str : List Char) (mem : ℕ → Bool) : Option (Sbuf × Bool) :=
  sbufCat (sbufClear s) str mem

/-- The loop of `sbuf_vprintf` (lines 415-421). -/
def vprintfLoop (mem : ℕ → Bool) (text : List Char) : ℕ → ℕ → Sbuf → Option Sbuf
  | 0, _, _ => none
  | fuel + 1, k, s =>
    if freespace s < text.length then
      match sbufExtend s (text.length - freespace s) (mem k) with
      | none => none
      | some (s, false) => some s
      | some (s, true) => vprintfLoop mem text fuel (k + 1) s
    else some s

/-- `sbuf_vprintf` from behind its loop (lines 432-441). -/
def vprintfEnd (s : Sbuf) (text : List Char) : Sbuf × Bool :=
  let s := s.append (text.take (min (text.length : ℤ) (freespace s)).toNat)
  let s := if hasroom s = false ∧ s.autoextend = false then { s with overflowed := true } else s
  (s, !s.overflowed)

/-- `sbuf_printf` (lines 400-457). -/
def sbufPrintf (s : Sbuf) (text : List Char) (mem : ℕ → Bool) : Option (Sbuf × Bool) :=
  if s.overflowed then some (s, false)
  else (vprintfLoop mem text (2 ^ 32) 0 s).map fun s => vprintfEnd s text

/-- `sbuf_putc` (lines 462-478). -/
def sbufPutc (s : Sbuf) (c : Char) (mem : ℕ → Bool) : Option (Sbuf × Bool) :=
  if s.overflowed then some (s, false)
  else if hasroom s then some (if c ≠ '\x00' then s.append [c] else s, true)
  else
    (sbufExtend s 1 (mem 0)).map fun (s, ok) =>
      if ok then (if c ≠ '\x00' then s.append [c] else s, true)
      else ({ s with overflowed := true }, false)

/-- `isspace` (sys/ctype.h:46). -/
def isspace (c : Char) : Bool := c == ' ' || ('\t' ≤ c && c ≤ '\r')

/-- `sbuf_trim` (lines 483-496). -/
def sbufTrim (s : Sbuf) : Sbuf × Bool :=
  if s.overflowed then (s, false) else ({ s with s_buf := s.s_buf.rdropWhile isspace }, true)

/-! ## The sizes -/

theorem intWrap_of_lt {x : ℤ} (hlo : -2 ^ 31 ≤ x) (hhi : x < 2 ^ 31) : intWrap x = x := by
  unfold intWrap
  rw [BitVec.toInt_ofInt]; exact Int.bmod_eq_of_le (by norm_num; omega) (by norm_num; omega)

/-- The largest size that a buffer is extended to. -/
def maxSize : ℤ := 2 ^ 31 - 4096

/-- In steps of a page. -/
theorem extendLoop_pages {size n : ℤ} {fuel : ℕ} (hsize : size ≤ maxSize) (hdvd : 4096 ∣ n)
    (hn : 4096 ≤ n) (hmax : n ≤ maxSize) (hfuel : maxSize < 4096 * (fuel : ℤ) + n) :
    ∃ m, extendLoop size fuel n = some m ∧ size ≤ m ∧ 0 < m := by
  induction fuel generalizing n with
  | zero =>
    simp only [Nat.cast_zero] at hfuel; omega
  | succ fuel ih =>
    by_cases hlt : n < size
    · have hstep : n + 4096 ≤ maxSize := by
        unfold maxSize at hsize ⊢; omega
      have hwrap : intWrap (n + maxExtendSize) = n + 4096 := by
        unfold maxSize at hstep
        exact intWrap_of_lt (by unfold maxExtendSize; omega) (by unfold maxExtendSize; omega)
      obtain ⟨m, hm, hsm, hpos⟩ := ih (n := n + 4096) (by omega) (by omega) hstep
        (by push_cast at hfuel; omega)
      refine ⟨m, ?_, hsm, hpos⟩
      rw [extendLoop, if_pos hlt, if_neg (by unfold maxExtendSize; omega), hwrap]
      exact hm
    · refine ⟨n, ?_, by omega, by omega⟩
      rw [extendLoop, if_neg hlt]

/-- While the size doubles. -/
theorem extendLoop_doubles {size : ℤ} (fuel k : ℕ) (hsize : size ≤ maxSize) (hk : k ≤ 8)
    (hfuel : 2 ^ 19 + 8 ≤ fuel + k) :
    ∃ m, extendLoop size fuel (16 * 2 ^ k) = some m ∧ size ≤ m ∧ 0 < m := by
  induction fuel generalizing k with
  | zero => omega
  | succ fuel ih =>
    rcases Nat.lt_or_ge k 8 with hlt | hge
    · by_cases hn : (16 * 2 ^ k : ℤ) < size
      · have hpow : (2 : ℤ) ^ k ≤ 2 ^ 7 := pow_le_pow_right₀ (by norm_num) (by omega)
        have hpos : (0 : ℤ) < 2 ^ k := by positivity
        have hwrap : intWrap (16 * 2 ^ k * 2) = 16 * 2 ^ (k + 1) := by
          rw [intWrap_of_lt (by omega) (by omega)]
          ring
        obtain ⟨m, hm, hsm⟩ := ih (k := k + 1) hlt (by omega)
        refine ⟨m, ?_, hsm⟩
        rw [extendLoop, if_pos hn, if_pos (by unfold maxExtendSize; omega), hwrap]
        exact hm
      · refine ⟨16 * 2 ^ k, ?_, by omega, by positivity⟩
        rw [extendLoop, if_neg hn]
    · obtain rfl : k = 8 := by omega
      refine extendLoop_pages hsize (by norm_num) (by norm_num) (by decide) ?_
      unfold maxSize
      push_cast; omega

/-- A new buffer is as large as it has to be. -/
theorem extendsize_spec {size : ℤ} (hsize : size ≤ maxSize) :
    ∃ m, sbufExtendsize size = some m ∧ size ≤ m ∧ 0 < m := by
  have h := extendLoop_doubles (2 ^ 20) 0 hsize (by omega) (by norm_num)
  rw [pow_zero, mul_one] at h; exact h

/-! ## The loops -/

variable {s : Sbuf} {text rest : List Char} {mem : ℕ → Bool} {k : ℕ}

@[simp] theorem append_s_size : (s.append text).s_size = s.s_size := rfl
@[simp] theorem append_autoextend : (s.append text).autoextend = s.autoextend := rfl
@[simp] theorem append_overflowed : (s.append text).overflowed = s.overflowed := rfl
@[simp] theorem append_s_buf : (s.append text).s_buf = s.s_buf ++ text := rfl

theorem append_append (s : Sbuf) (t u : List Char) : (s.append t).append u = s.append (t ++ u) := by
  unfold Sbuf.append
  rw [List.append_assoc]

@[simp] theorem append_nil (s : Sbuf) : s.append [] = s := by
  unfold Sbuf.append
  rw [List.append_nil]

theorem freespace_append : freespace (s.append text) = freespace s - text.length := by
  unfold freespace Sbuf.len
  rw [append_s_size, append_s_buf, List.length_append]
  push_cast; ring

theorem hasroom_iff : hasroom s = true ↔ 0 < freespace s := by
  unfold hasroom freespace
  rw [decide_eq_true_eq]; omega

/-- The bytes for which there is room are stored. -/
theorem bcatLoop_append (h : (text.length : ℤ) ≤ freespace s) :
    bcatLoop mem k s (text ++ rest) = bcatLoop mem k (s.append text) rest := by
  induction text generalizing s with
  | nil => rw [List.nil_append, append_nil]
  | cons c text ih =>
    simp only [List.length_cons] at h
    push_cast at h
    have hroom : hasroom s = true := hasroom_iff.2 (by omega)
    have hrest : (text.length : ℤ) ≤ freespace (s.append [c]) := by
      rw [freespace_append]
      simp only [List.length_singleton]
      push_cast; omega
    rw [List.cons_append, bcatLoop, if_pos hroom, ih hrest, append_append, List.singleton_append]

/-- With room for all of it, a text is stored. -/
theorem bcatLoop_of_le (h : (text.length : ℤ) ≤ freespace s) :
    bcatLoop mem k s text = some (s.append text, []) := by
  have hall : bcatLoop mem k s (text ++ []) = bcatLoop mem k (s.append text) [] :=
    bcatLoop_append h
  rw [List.append_nil] at hall
  rw [hall, bcatLoop]

/-- Where there is no room, the buffer is to be extended by what is left. -/
theorem bcatLoop_full {c : Char} (h : freespace s = 0) :
    bcatLoop mem k s (c :: rest) =
      match sbufExtend s (intWrap (rest.length + 1)) (mem k) with
      | none => none
      | some (s, false) => some (s, c :: rest)
      | some (s, true) => bcatLoop mem (k + 1) (s.append [c]) rest := by
  have hroom : ¬hasroom s = true := fun hroom => by
    have := hasroom_iff.1 hroom; omega
  rw [bcatLoop, if_neg hroom]

/-- A text that is longer than the room for it: what is stored, and what is left. -/
theorem exists_split (hnn : 0 ≤ freespace s) (h : freespace s < text.length) :
    ∃ c rest, text = text.take (freespace s).toNat ++ c :: rest ∧
      ((text.take (freespace s).toNat).length : ℤ) = freespace s ∧
      (rest.length : ℤ) + 1 = text.length - freespace s := by
  have hlt : (freespace s).toNat < text.length := by omega
  refine ⟨text[(freespace s).toNat], text.drop ((freespace s).toNat + 1), ?_, ?_, ?_⟩
  · rw [← List.drop_eq_getElem_cons hlt, List.take_append_drop]
  · rw [List.length_take, Nat.min_eq_left hlt.le]; omega
  · rw [List.length_drop]; omega

end FreeBSD.SbufAppend
