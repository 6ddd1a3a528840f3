import Mathlib.Data.Nat.Notation

/-!
# String buffers of fixed length, `kern/subr_sbuf.c`

Models of `sbuf_putc` (lines 462–478) and `sbuf_printf` (lines 400–458) on a buffer without
`SBUF_AUTOEXTEND`; the text of `sbuf_printf` is given formatted. Each returns the buffer and whether
the call succeeded, that is, did not return -1.

* `Sbuf.HasRoom` — there is room for a text of a given length.
* `sbufPutc_of_room`, `sbufPrintf_of_room` — with room, a call appends and succeeds.
-/

namespace FreeBSD.SubrSbuf

structure Sbuf where
  /-- The bytes written so far; `s_len` is their number. -/
  sBuf : List Char
  sSize : ℕ
  /-- `SBUF_OVERFLOWED`. -/
  overflowed : Bool
  deriving DecidableEq

/-- `SBUF_HASROOM`. -/
def hasroom (s : Sbuf) : Bool := s.sBuf.length < s.sSize - 1

/-- `SBUF_FREESPACE`. -/
def freespace (s : Sbuf) : ℕ := s.sSize - s.sBuf.length - 1

/-- `sbuf_putc`. -/
def sbufPutc (s : Sbuf) (c : Char) : Sbuf × Bool :=
  if s.overflowed then (s, false)
  else if !hasroom s then ({ s with overflowed := true }, false)
  else if c ≠ '\x00' then ({ s with sBuf := s.sBuf ++ [c] }, true)
  else (s, true)

/-- `sbuf_printf`. A text that fills the buffer to its last byte counts as an overflow. -/
def sbufPrintf (s : Sbuf) (text : List Char) : Sbuf × Bool :=
  if s.overflowed then (s, false)
  else
    let s := { s with sBuf := s.sBuf ++ text.take (freespace s) }
    if !hasroom s then ({ s with overflowed := true }, false) else (s, true)

/-- The buffer after a text was appended. -/
def Sbuf.append (s : Sbuf) (text : List Char) : Sbuf := { s with sBuf := s.sBuf ++ text }

/-- The buffer has not overflowed and still has room after `n` more characters. -/
def Sbuf.HasRoom (s : Sbuf) (n : ℕ) : Prop :=
  s.overflowed = false ∧ s.sBuf.length + n < s.sSize - 1

theorem Sbuf.append_append (s : Sbuf) (t u : List Char) :
    (s.append t).append u = s.append (t ++ u) := by
  simp [Sbuf.append]

@[simp] theorem Sbuf.append_nil (s : Sbuf) : s.append [] = s := by
  simp [Sbuf.append]

theorem Sbuf.HasRoom.mono {s : Sbuf} {m n : ℕ} (h : s.HasRoom n) (hle : m ≤ n) : s.HasRoom m :=
  ⟨h.1, by have := h.2; omega⟩

theorem Sbuf.HasRoom.append {s : Sbuf} {n : ℕ} {t : List Char} (h : s.HasRoom (t.length + n)) :
    (s.append t).HasRoom n := by
  obtain ⟨hov, hlen⟩ := h
  refine ⟨hov, ?_⟩
  show (s.sBuf ++ t).length + n < s.sSize - 1
  rw [List.length_append]; omega

theorem sbufPutc_of_room {s : Sbuf} {c : Char} (h : s.HasRoom 1) (hc : c ≠ '\x00') :
    sbufPutc s c = (s.append [c], true) := by
  obtain ⟨hov, hlen⟩ := h
  have hroom : hasroom s = true := by
    unfold hasroom
    rw [decide_eq_true_eq]; omega
  unfold sbufPutc; simp [hov, hroom, hc, Sbuf.append]

theorem sbufPrintf_of_room {s : Sbuf} {t : List Char} (h : s.HasRoom t.length) :
    sbufPrintf s t = (s.append t, true) := by
  obtain ⟨hov, hlen⟩ := h
  have htake : t.take (freespace s) = t := by
    apply List.take_of_length_le
    unfold freespace; omega
  have hroom : ∀ o, hasroom ⟨s.sBuf ++ t, s.sSize, o⟩ = true := by
    intro o
    unfold hasroom
    rw [decide_eq_true_eq, List.length_append]; exact hlen
  unfold sbufPrintf
  simp only [hov, htake, hroom, Bool.false_eq_true, if_false, Bool.not_true]
  rw [Sbuf.append, hov]

end FreeBSD.SubrSbuf
