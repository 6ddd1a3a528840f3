import FreeBSD.Kern.SbufAppend
import FreeBSD.Lib.Runs

/-!
# String buffers: runs

All the append functions do what `sbuf_bcat` does, but for `sbuf_printf`: a text that fills a buffer
of fixed length to its last byte counts as an overflow, and where a buffer cannot be extended, the
text is cut and no overflow is set.

Results:
* `sbuf_of_run`: a buffer in every state that is reached, and every next operation.
* `printf_fills`: a text that fills a buffer.
-/

namespace FreeBSD.SbufAppend

open Lib List Option

variable {s s' : Sbuf} {text ref : List Char} {mem : ℕ → Bool} {b : Bool}

/-! ## `sbuf_bcat` -/

/-- The size of the buffer that a text needs is one that can be had. -/
def SizesFit (s : Sbuf) (text : List Char) : Prop :=
  s.autoextend = true → freespace s < text.length →
    s.s_size + (text.length - freespace s) ≤ maxSize

/-- What an append has to do. -/
structure Appended (s : Sbuf) (text : List Char) (s' : Sbuf) (b : Bool) : Prop where
  lt : s'.len < s'.s_size
  size : s.s_size ≤ s'.s_size ∧ (s.autoextend = false → s'.s_size = s.s_size)
  auto : s'.autoextend = s.autoextend
  /-- After an overflow, nothing. -/
  sticky : s.overflowed = true → s' = s
  /-- The longest part that fits is stored. -/
  content : s.overflowed = false → s'.s_buf = (s.s_buf ++ text).take (s'.s_size - 1).toNat
  /-- An overflow is set exactly if there is more. -/
  flag : s.overflowed = false →
    (s'.overflowed = true ↔ s'.s_size - 1 < ((s.s_buf ++ text).length : ℤ))
  answer : b = !s'.overflowed

theorem freespace_nonneg (h : s.len < s.s_size) : 0 ≤ freespace s := by
  unfold freespace; omega

theorem len_nonneg (s : Sbuf) : 0 ≤ s.len := by
  unfold Sbuf.len; omega

/-- An extension for `m` more bytes. -/
theorem sbufExtend_spec (hauto : s.autoextend = true) {m : ℤ} (hs : 0 < s.s_size) (hm : 0 < m)
    (hsize : s.s_size + m ≤ maxSize) :
    ∃ n, s.s_size + m ≤ n ∧ ∀ ok, sbufExtend s m ok =
      some (if ok then ({ s with s_size := n }, true) else (s, false)) := by
  obtain ⟨n, hn, hle, -⟩ := extendsize_spec hsize
  refine ⟨n, hle, fun ok => ?_⟩
  have hwrap : intWrap (s.s_size + m) = s.s_size + m := by
    unfold maxSize at hsize; exact intWrap_of_lt (by omega) (by omega)
  unfold sbufExtend
  rw [if_pos hauto, hwrap, hn]
  cases ok with
  | true => rfl
  | false => rfl

/-- The buffer with what there is room for, and the flag. -/
def cut (s : Sbuf) (text : List Char) : Sbuf :=
  { s.append (text.take (freespace s).toNat) with overflowed := true }

theorem bcat_of_le (hov : s.overflowed = false) (h : (text.length : ℤ) ≤ freespace s) :
    sbufBcat s text mem = some (s.append text, true) := by
  unfold sbufBcat
  rw [hov, bcatLoop_of_le h]; rfl

/-- A buffer of fixed length. -/
theorem bcat_fixed (hov : s.overflowed = false) (hlen : s.len < s.s_size)
    (hauto : s.autoextend = false) (h : freespace s < text.length) :
    sbufBcat s text mem = some (cut s text, false) := by
  obtain ⟨c, rest, htext, htake, -⟩ := exists_split (freespace_nonneg hlen) h
  have hfull : freespace (s.append (text.take (freespace s).toNat)) = 0 := by
    rw [freespace_append, htake]; omega
  have hext : ∀ m ok, sbufExtend (s.append (text.take (freespace s).toNat)) m ok =
      some (s.append (text.take (freespace s).toNat), false) := by
    intro m ok
    unfold sbufExtend
    rw [append_autoextend, hauto]; rfl
  have hloop : bcatLoop mem 0 s text =
      some (s.append (text.take (freespace s).toNat), c :: rest) := by
    calc bcatLoop mem 0 s text
        = bcatLoop mem 0 s (text.take (freespace s).toNat ++ c :: rest) := by rw [← htext]
      _ = _ := by rw [bcatLoop_append htake.le, bcatLoop_full hfull, hext]
  unfold sbufBcat
  rw [hov, hloop]; rfl

/-- A buffer that is to be extended; `n` is the size of the new one. -/
theorem bcat_auto (mem : ℕ → Bool) (hov : s.overflowed = false) (hlen : s.len < s.s_size)
    (hauto : s.autoextend = true) (h : freespace s < text.length) {n : ℤ}
    (hn : s.s_size + (text.length - freespace s) ≤ n)
    (hsize : s.s_size + (text.length - freespace s) ≤ maxSize)
    (hext : ∀ ok, sbufExtend s (text.length - freespace s) ok =
      some (if ok then ({ s with s_size := n }, true) else (s, false))) :
    sbufBcat s text mem =
      some (if mem 0 then ({ s.append text with s_size := n }, true) else (cut s text, false)) := by
  obtain ⟨c, rest, htext, htake, hrest⟩ := exists_split (freespace_nonneg hlen) h
  have hnn := len_nonneg s
  obtain ⟨u, hu⟩ : ∃ u, u = s.append (text.take (freespace s).toNat) := ⟨_, rfl⟩
  have hfull : freespace u = 0 := by rw [hu, freespace_append, htake]; omega
  have hwrap : intWrap (rest.length + 1) = text.length - freespace s := by
    unfold maxSize at hsize
    rw [intWrap_of_lt (by omega) (by omega), hrest]
  have huext : ∀ ok, sbufExtend u (text.length - freespace s) ok =
      some (if ok then ({ u with s_size := n }, true) else (u, false)) := by
    intro ok
    have hx := hext ok
    unfold sbufExtend at hx ⊢
    rw [hu, append_autoextend, append_s_size, if_pos hauto]
    rw [if_pos hauto] at hx
    obtain ⟨m, hm, hval⟩ := map_eq_some_iff.1 hx
    rw [hm]
    cases ok with
    | true =>
      have hmn : m = n := congrArg (fun p => p.1.s_size) hval
      subst hmn; rfl
    | false => rfl
  have hloop : bcatLoop mem 0 s text = bcatLoop mem 0 u (c :: rest) := by
    calc bcatLoop mem 0 s text
        = bcatLoop mem 0 s (text.take (freespace s).toNat ++ c :: rest) := by rw [← htext]
      _ = _ := by rw [bcatLoop_append htake.le, ← hu]
  unfold sbufBcat
  rw [hov, hloop, bcatLoop_full hfull, hwrap, huext]
  cases hmem : mem 0 with
  | true =>
    have hroom : (rest.length : ℤ) ≤ freespace (Sbuf.append { u with s_size := n } [c]) := by
      rw [freespace_append]
      have hfree : freespace { u with s_size := n } = n - s.s_size := by
        unfold freespace at hfull ⊢
        have hus : u.s_size = s.s_size := by rw [hu]; rfl
        show n - u.len - 1 = _
        omega
      rw [hfree, length_singleton]
      push_cast; omega
    have hall : (Sbuf.append { u with s_size := n } [c]).append rest =
        { s.append text with s_size := n } := by
      rw [append_append, hu]
      unfold Sbuf.append
      dsimp only
      rw [append_assoc, singleton_append, ← htext]
    simp only [if_true, Bool.false_eq_true, if_false]
    rw [bcatLoop_of_le hroom, hall]; rfl
  | false =>
    simp only [Bool.false_eq_true, if_false]
    rw [hu]; rfl

theorem length_append_text (s : Sbuf) (text : List Char) :
    ((s.s_buf ++ text).length : ℤ) = s.len + text.length := by
  unfold Sbuf.len
  rw [length_append]
  push_cast; ring

/-- A text that is stored whole. -/
theorem appended_whole {n : ℤ} (hov : s.overflowed = false) (hle : s.s_size ≤ n)
    (hfix : s.autoextend = false → n = s.s_size) (hroom : s.len + text.length < n) :
    Appended s text { s.append text with s_size := n } true := by
  have hlen := length_append_text s text
  refine ⟨?_, ⟨hle, hfix⟩, rfl, fun h => ?_, fun _ => ?_, fun _ => ⟨fun h => ?_, fun h => ?_⟩, ?_⟩
  · show ((s.s_buf ++ text).length : ℤ) < n; omega
  · rw [hov] at h
    cases h
  · refine (take_of_length_le ?_).symm
    show (s.s_buf ++ text).length ≤ (n - 1).toNat
    omega
  · have h : s.overflowed = true := h
    rw [hov] at h
    cases h
  · have h : n - 1 < ((s.s_buf ++ text).length : ℤ) := h
    omega
  · show true = !s.overflowed
    rw [hov]; rfl

/-- A text that is cut. -/
theorem appended_cut (hov : s.overflowed = false) (hlen : s.len < s.s_size)
    (h : freespace s < text.length) : Appended s text (cut s text) false := by
  have hall := length_append_text s text
  have hnn := freespace_nonneg hlen
  have htake : ((text.take (freespace s).toNat).length : ℤ) = freespace s := by
    rw [length_take]; omega
  refine ⟨?_, ⟨le_rfl, fun _ => rfl⟩, rfl, fun h' => ?_, fun _ => ?_, fun _ => ⟨fun _ => ?_, ?_⟩,
    rfl⟩
  · show ((s.s_buf ++ text.take (freespace s).toNat).length : ℤ) < s.s_size
    rw [length_append_text, htake]
    unfold freespace; omega
  · rw [hov] at h'
    cases h'
  · have hlen' : (s.s_buf.length : ℤ) = s.len := rfl
    have hsub : (s.s_size - 1).toNat - s.s_buf.length = (freespace s).toNat := by
      unfold freespace; omega
    have hbuf : s.s_buf.take (s.s_size - 1).toNat = s.s_buf :=
      take_of_length_le (by omega)
    show s.s_buf ++ text.take (freespace s).toNat = (s.s_buf ++ text).take (s.s_size - 1).toNat
    rw [take_append, hsub, hbuf]
  · show s.s_size - 1 < ((s.s_buf ++ text).length : ℤ)
    unfold freespace at h; omega
  · exact fun _ => rfl

/-- After an overflow an append does nothing. -/
theorem appended_sticky (hov : s.overflowed = true) (hlen : s.len < s.s_size) :
    Appended s text s false := by
  refine ⟨hlen, ⟨le_rfl, fun _ => rfl⟩, rfl, fun _ => rfl, fun h => ?_, fun h => ?_, ?_⟩
  · rw [hov] at h
    cases h
  · rw [hov] at h
    cases h
  · rw [hov]; rfl

/-- What `sbuf_bcat` stores, answers and flags. -/
theorem bcat_appended (mem : ℕ → Bool) (hlen : s.len < s.s_size) (hfit : SizesFit s text) :
    ∃ s' b, sbufBcat s text mem = some (s', b) ∧ Appended s text s' b := by
  cases hov : s.overflowed with
  | true =>
    refine ⟨s, false, ?_, appended_sticky hov hlen⟩
    unfold sbufBcat
    rw [hov]; rfl
  | false =>
    rcases lt_or_ge (freespace s) (text.length : ℤ) with hlong | hshort
    · cases hauto : s.autoextend with
      | false => exact ⟨_, _, bcat_fixed hov hlen hauto hlong, appended_cut hov hlen hlong⟩
      | true =>
        have hsize := hfit hauto hlong
        have hnn := len_nonneg s
        obtain ⟨n, hn, hext⟩ := sbufExtend_spec hauto (by omega) (by omega) hsize
        have hbcat := bcat_auto mem hov hlen hauto hlong hn hsize hext
        cases hmem : mem 0 with
        | true =>
          rw [hmem] at hbcat
          refine ⟨_, _, hbcat, appended_whole hov (by omega) (fun h => ?_) ?_⟩
          · rw [hauto] at h
            cases h
          · unfold freespace at hn; omega
        | false =>
          rw [hmem] at hbcat; exact ⟨_, _, hbcat, appended_cut hov hlen hlong⟩
    · refine ⟨_, _, bcat_of_le hov hshort, appended_whole hov le_rfl (fun _ => rfl) ?_⟩
      unfold freespace at hshort; omega

/-! ## The other appends -/

/-- `sbuf_putc` is `sbuf_bcat` of one byte. -/
theorem putc_eq_bcat {c : Char} (hc : c ≠ '\x00') : sbufPutc s c mem = sbufBcat s [c] mem := by
  have hone : intWrap ((([] : List Char).length : ℤ) + 1) = 1 := by decide
  unfold sbufPutc sbufBcat
  split
  · rfl
  · rw [bcatLoop]
    split
    · rw [bcatLoop]; rfl
    · rw [hone]
      cases hext : sbufExtend s 1 (mem 0) with
      | none => rfl
      | some p =>
        obtain ⟨u, ok⟩ := p
        cases ok with
        | true =>
          simp only [map_some, if_true, bcatLoop]
        | false =>
          simp

/-- The text is printed as `sbuf_bcat` appends it. -/
def Plain (s : Sbuf) (text : List Char) (mem : ℕ → Bool) : Prop :=
  s.overflowed = false →
    (s.autoextend = false → (text.length : ℤ) ≠ freespace s) ∧
      (s.autoextend = true → freespace s < text.length → mem 0 = true)

/-- A text that leaves room. -/
theorem vprintfEnd_of_lt (hov : s.overflowed = false) (h : (text.length : ℤ) < freespace s) :
    vprintfEnd s text = (s.append text, true) := by
  have htake : text.take (min (text.length : ℤ) (freespace s)).toNat = text := by
    rw [min_eq_left h.le, Int.toNat_natCast, take_length]
  have hroom : hasroom (s.append text) = true := by rw [hasroom_iff, freespace_append]; omega
  unfold vprintfEnd
  simp only [htake, hroom, Bool.true_eq_false, false_and, if_false, append_overflowed, hov]; rfl

/-- A text that leaves none, in a buffer of fixed length. -/
theorem vprintfEnd_fixed (hauto : s.autoextend = false) (hnn : 0 ≤ freespace s)
    (h : freespace s ≤ text.length) : vprintfEnd s text = (cut s text, false) := by
  have htake : ((text.take (freespace s).toNat).length : ℤ) = freespace s := by
    rw [length_take]; omega
  have hroom : hasroom (s.append (text.take (freespace s).toNat)) = false := by
    rw [← Bool.not_eq_true, hasroom_iff, freespace_append]; omega
  unfold vprintfEnd
  simp only [min_eq_right h, hroom, append_autoextend, hauto, and_self, if_true]
  unfold cut
  simp only [append_autoextend, hauto]; rfl

/-- A buffer that can be extended is not flagged. -/
theorem vprintfEnd_auto (hov : s.overflowed = false) (hauto : s.autoextend = true) :
    vprintfEnd s text =
      (s.append (text.take (min (text.length : ℤ) (freespace s)).toNat), true) := by
  unfold vprintfEnd
  simp only [append_autoextend, hauto, Bool.true_eq_false, and_false, if_false,
    append_overflowed, hov]
  rfl

theorem vprintfLoop_of_le {fuel k : ℕ} (h : (text.length : ℤ) ≤ freespace s) :
    vprintfLoop mem text (fuel + 1) k s = some s := by
  rw [vprintfLoop, if_neg (by omega)]

/-- A buffer that cannot be extended. -/
theorem vprintfLoop_fixed {fuel k : ℕ} (hauto : s.autoextend = false) :
    vprintfLoop mem text (fuel + 1) k s = some s := by
  rw [vprintfLoop]
  split
  · unfold sbufExtend
    rw [hauto]; rfl
  · rfl

/-- A buffer that is to be extended; `n` is the size of the new one. -/
theorem vprintfLoop_auto {fuel k : ℕ} (h : freespace s < text.length) {n : ℤ}
    (hn : s.s_size + (text.length - freespace s) ≤ n)
    (hext : ∀ ok, sbufExtend s (text.length - freespace s) ok =
      some (if ok then ({ s with s_size := n }, true) else (s, false))) :
    vprintfLoop mem text (fuel + 2) k s = some (if mem k then { s with s_size := n } else s) := by
  rw [vprintfLoop, if_pos h, hext]
  cases hmem : mem k with
  | true =>
    have hroom : (text.length : ℤ) ≤ freespace { s with s_size := n } := by
      show _ ≤ n - s.len - 1
      unfold freespace at hn; omega
    simp only [if_true]; exact vprintfLoop_of_le hroom
  | false => rfl

/-- A text that fills a buffer of fixed length. -/
theorem cut_ne_append (hov : s.overflowed = false) : cut s text ≠ s.append text := by
  intro h
  have hflag : true = s.overflowed := congrArg Sbuf.overflowed h
  rw [hov] at hflag
  cases hflag

/-- When `sbuf_printf` does what `sbuf_bcat` does. -/
theorem printf_eq_bcat_iff (hlen : s.len < s.s_size) (hfit : SizesFit s text) :
    sbufPrintf s text mem = sbufBcat s text mem ↔ Plain s text mem := by
  have hnn := freespace_nonneg hlen
  cases hov : s.overflowed with
  | true =>
    refine ⟨fun _ h => ?_, fun _ => ?_⟩
    · rw [hov] at h
      cases h
    · unfold sbufPrintf sbufBcat
      rw [hov]; rfl
  | false =>
    have hprintf : sbufPrintf s text mem =
        (vprintfLoop mem text (4294967294 + 2) 0 s).map fun s => vprintfEnd s text := by
      unfold sbufPrintf
      rw [hov]; rfl
    cases hauto : s.autoextend with
    | false =>
      rw [hprintf, vprintfLoop_fixed hauto, map_some]
      rcases lt_trichotomy (text.length : ℤ) (freespace s) with hlt | heq | hgt
      · rw [vprintfEnd_of_lt hov hlt, bcat_of_le hov hlt.le]
        refine ⟨fun _ _ => ⟨fun _ => hlt.ne, fun h => ?_⟩, fun _ => rfl⟩
        rw [hauto] at h
        cases h
      · rw [vprintfEnd_fixed hauto hnn heq.ge, bcat_of_le hov heq.le]
        refine ⟨fun h => ?_, fun h => absurd heq ((h hov).1 hauto)⟩
        exact absurd (congrArg Prod.fst (some.inj h)) (cut_ne_append hov)
      · rw [vprintfEnd_fixed hauto hnn hgt.le, bcat_fixed hov hlen hauto hgt]
        refine ⟨fun _ _ => ⟨fun _ => hgt.ne', fun h => ?_⟩, fun _ => rfl⟩
        rw [hauto] at h
        cases h
    | true =>
      have hfix : s.autoextend = false → (text.length : ℤ) ≠ freespace s := fun h => by
        rw [hauto] at h
        cases h
      rcases lt_or_ge (freespace s) (text.length : ℤ) with hlong | hshort
      · have hsize := hfit hauto hlong
        have hlen0 := len_nonneg s
        obtain ⟨n, hn, hext⟩ := sbufExtend_spec hauto (by omega) (by omega) hsize
        rw [hprintf, vprintfLoop_auto hlong hn hext, map_some,
          bcat_auto _ hov hlen hauto hlong hn hsize hext]
        cases hmem : mem 0 with
        | true =>
          have hroom : (text.length : ℤ) ≤ freespace { s with s_size := n } := by
            show _ ≤ n - s.len - 1
            unfold freespace at hn; omega
          refine ⟨fun _ _ => ⟨hfix, fun _ _ => hmem⟩, fun _ => ?_⟩
          have hend : vprintfEnd { s with s_size := n } text = (_, true) :=
            vprintfEnd_auto hov hauto
          simp only [if_true]
          rw [hend, min_eq_left hroom, Int.toNat_natCast, take_length]; rfl
        | false =>
          refine ⟨fun h => ?_, fun h => ?_⟩
          · simp only [Bool.false_eq_true, if_false] at h
            rw [vprintfEnd_auto hov hauto] at h
            cases congrArg Prod.snd (some.inj h)
          · rw [(h hov).2 hauto hlong] at hmem
            cases hmem
      · rw [hprintf, vprintfLoop_of_le hshort, map_some, bcat_of_le hov hshort,
          vprintfEnd_auto hov hauto, min_eq_left hshort, Int.toNat_natCast, take_length]
        refine ⟨fun _ _ => ⟨hfix, fun _ h => ?_⟩, fun _ => rfl⟩
        omega

/-! ## The machine -/

/-- An operation on a buffer, with the answers of `malloc` to it. -/
inductive Op
  | bcat (text : List Char) (mem : ℕ → Bool)
  | bcpy (text : List Char) (mem : ℕ → Bool)
  | cat (text : List Char) (mem : ℕ → Bool)
  | cpy (text : List Char) (mem : ℕ → Bool)
  | printf (text : List Char) (mem : ℕ → Bool)
  | putc (c : Char) (hc : c ≠ '\x00') (mem : ℕ → Bool)
  | setpos (pos : ℤ)
  | trim
  | clear

/-- The text of a C string. -/
def cstr (text : List Char) : List Char := text.takeWhile fun c => c ≠ '\x00'

/-- What the operation makes of the string that the buffer stands for. -/
def refStep (ref : List Char) : Op → List Char
  | .bcat text _ | .printf text _ => ref ++ text
  | .cat text _ => ref ++ cstr text
  | .putc c _ _ => ref ++ [c]
  | .bcpy text _ => text
  | .cpy text _ => cstr text
  | .setpos pos => if pos < 0 ∨ (ref.length : ℤ) < pos then ref else ref.take pos.toNat
  | .trim => ref.rdropWhile isspace
  | .clear => []

/-- What the operation makes of the buffer, and whether it answers 0. -/
def sbufStep (s : Sbuf) : Op → Option (Sbuf × Bool)
  | .bcat text mem => sbufBcat s text mem
  | .bcpy text mem => sbufBcpy s text mem
  | .cat text mem => sbufCat s text mem
  | .cpy text mem => sbufCpy s text mem
  | .printf text mem => sbufPrintf s text mem
  | .putc c _ mem => sbufPutc s c mem
  | .setpos pos => some (sbufSetpos s pos)
  | .trim => some (sbufTrim s)
  | .clear => some (sbufClear s, true)

/-- A buffer and the string that it stands for. -/
def step (s : Sbuf × List Char) (op : Op) : Option ((Sbuf × List Char) × Bool) :=
  (sbufStep s.1 op).map fun p => ((p.1, refStep s.2 op), p.2)

/-- The buffer that an operation appends to, and the text that it appends. -/
def Op.appends (s : Sbuf) : Op → Option (Sbuf × List Char)
  | .bcat text _ | .printf text _ => some (s, text)
  | .cat text _ => some (s, cstr text)
  | .putc c _ _ => some (s, [c])
  | .bcpy text _ => some (sbufClear s, text)
  | .cpy text _ => some (sbufClear s, cstr text)
  | .setpos _ | .trim | .clear => none

/-- The buffer does not have to grow beyond what there are sizes for. -/
def Op.Sizes (s : Sbuf) (op : Op) : Prop := ∀ p ∈ op.appends s, SizesFit p.1 p.2

/-- Nothing is printed that is not printed as `sbuf_bcat` appends it. -/
def Op.Plain (s : Sbuf) : Op → Prop
  | .printf text mem => SbufAppend.Plain s text mem
  | _ => True

/-- The operation appends what it has to, and prints as `sbuf_bcat` appends. -/
def Op.Kept (s s' : Sbuf) (b : Bool) (op : Op) : Prop :=
  (∀ p ∈ op.appends s, Appended p.1 p.2 s' b) ∧
    match op with
    | .printf text mem => sbufBcat s text mem = some (s', b)
    | _ => True

/-- The operations that do what they have to. -/
def Fits (s : Sbuf × List Char) (op : Op) : Prop := op.Sizes s.1 ∧ op.Plain s.1

/-- A buffer that `sbuf_new` makes. -/
def Created (s : Sbuf) : Prop :=
  ∃ given length autoextend, 0 < length ∧ sbufNew given length autoextend = some s

/-- There is room for the final NUL, and the buffer has the string that it stands for. -/
structure Holds (s : Sbuf) (ref : List Char) : Prop where
  lt : s.len < s.s_size
  content : s.overflowed = false → s.s_buf = ref

/-- What is appended to the string that the buffer stands for. -/
theorem Appended.holds (h : Appended s text s' b) (hs : Holds s ref) : Holds s' (ref ++ text) := by
  refine ⟨h.lt, fun hov' => ?_⟩
  cases hov : s.overflowed with
  | true =>
    rw [h.sticky hov, hov] at hov'
    cases hov'
  | false =>
    have hfit : ¬s'.s_size - 1 < ((s.s_buf ++ text).length : ℤ) := fun hlt => by
      rw [(h.flag hov).2 hlt] at hov'
      cases hov'
    rw [h.content hov, ← hs.content hov]; exact take_of_length_le (by omega)

theorem clear_holds (h : Holds s ref) : Holds (sbufClear s) [] :=
  ⟨lt_of_le_of_lt (len_nonneg s) h.lt, fun _ => rfl⟩

theorem setpos_holds {pos : ℤ} (h : Holds s ref) :
    Holds (sbufSetpos s pos).1
      (if pos < 0 ∨ (ref.length : ℤ) < pos then ref else ref.take pos.toNat) := by
  have hlt := h.lt
  unfold sbufSetpos
  split
  · rename_i hout
    refine ⟨hlt, fun hov => ?_⟩
    have hbuf := h.content hov
    unfold Sbuf.len at hout
    rw [if_pos (by rw [← hbuf]; exact hout)]
    exact hbuf
  · rename_i hin
    refine ⟨lt_of_le_of_lt ?_ hlt, fun hov => ?_⟩
    · show ((s.s_buf.take pos.toNat).length : ℤ) ≤ s.s_buf.length
      rw [length_take]; omega
    · have hbuf := h.content hov
      unfold Sbuf.len at hin
      rw [if_neg (by rw [← hbuf]; exact hin), ← hbuf]

theorem trim_holds (h : Holds s ref) : Holds (sbufTrim s).1 (ref.rdropWhile isspace) := by
  unfold sbufTrim
  cases hov : s.overflowed with
  | true =>
    refine ⟨h.lt, fun hov' => ?_⟩
    simp only [if_true] at hov'
    rw [hov] at hov'
    cases hov'
  | false =>
    refine ⟨lt_of_le_of_lt ?_ h.lt, fun _ => ?_⟩
    · show ((s.s_buf.rdropWhile isspace).length : ℤ) ≤ s.s_buf.length
      exact_mod_cast ( rdropWhile_prefix isspace s.s_buf).length_le
    · show s.s_buf.rdropWhile isspace = _
      rw [h.content hov]

/-- An operation of the right sizes that does not print is one that appends as `sbuf_bcat` does. -/
theorem sbufStep_spec {op : Op} (h : Holds s ref) (hsize : op.Sizes s) (hplain : op.Plain s) :
    ∃ s' b, sbufStep s op = some (s', b) ∧ op.Kept s s' b ∧ Holds s' (refStep ref op) := by
  have hclear := clear_holds h
  cases op with
  | bcat text mem =>
    obtain ⟨s', b, hs, hap⟩ := bcat_appended mem h.lt (hsize _ rfl)
    exact ⟨s', b, hs, ⟨fun _ hp => by obtain rfl := some.inj hp; exact hap, trivial⟩,
      hap.holds h⟩
  | cat text mem =>
    obtain ⟨s', b, hs, hap⟩ := bcat_appended mem h.lt (hsize _ rfl)
    exact ⟨s', b, hs, ⟨fun _ hp => by obtain rfl := some.inj hp; exact hap, trivial⟩,
      hap.holds h⟩
  | bcpy text mem =>
    obtain ⟨s', b, hs, hap⟩ := bcat_appended mem hclear.lt (hsize _ rfl)
    exact ⟨s', b, hs, ⟨fun _ hp => by obtain rfl := some.inj hp; exact hap, trivial⟩,
      hap.holds hclear⟩
  | cpy text mem =>
    obtain ⟨s', b, hs, hap⟩ := bcat_appended mem hclear.lt (hsize _ rfl)
    exact ⟨s', b, hs, ⟨fun _ hp => by obtain rfl := some.inj hp; exact hap, trivial⟩,
      hap.holds hclear⟩
  | printf text mem =>
    obtain ⟨s', b, hs, hap⟩ := bcat_appended mem h.lt (hsize _ rfl)
    refine ⟨s', b, ?_, ⟨fun _ hp => by obtain rfl := some.inj hp; exact hap, hs⟩,
      hap.holds h⟩
    rw [← hs]; exact (printf_eq_bcat_iff h.lt (hsize _ rfl)).2 hplain
  | putc c hc mem =>
    obtain ⟨s', b, hs, hap⟩ := bcat_appended mem h.lt (hsize _ rfl)
    refine ⟨s', b, ?_, ⟨fun _ hp => by obtain rfl := some.inj hp; exact hap, trivial⟩,
      hap.holds h⟩
    rw [← hs]; exact putc_eq_bcat hc
  | setpos pos => exact ⟨_, _, rfl, ⟨fun _ hp => (by cases hp), trivial⟩, setpos_holds h⟩
  | trim => exact ⟨_, _, rfl, ⟨fun _ hp => (by cases hp), trivial⟩, trim_holds h⟩
  | clear => exact ⟨_, _, rfl, ⟨fun _ hp => (by cases hp), trivial⟩, hclear⟩

/-- Only what is not printed so is not kept. -/
theorem plain_of_kept {op : Op} (h : Holds s ref) (hsize : op.Sizes s)
    (hs : sbufStep s op = some (s', b)) (hkept : op.Kept s s' b) : op.Plain s := by
  cases op with
  | printf text mem => exact (printf_eq_bcat_iff h.lt (hsize _ rfl)).1 (hs.trans hkept.2.symm)
  | _ => trivial

theorem le_of_extendLoop {size m : ℤ} {fuel : ℕ} {n : ℤ} (h : extendLoop size fuel n = some m) :
    size ≤ m := by
  induction fuel generalizing n with
  | zero => cases h
  | succ fuel ih =>
    rw [extendLoop] at h
    split at h
    · exact ih h
    · obtain rfl := some.inj h
      omega

/-- A new buffer has no text. -/
theorem Created.holds (h : Created s) : Holds s [] := by
  obtain ⟨given, length, autoextend, hpos, hnew⟩ := h
  unfold sbufNew at hnew
  split at hnew
  · obtain ⟨size, hsize, rfl⟩ := map_eq_some_iff.1 hnew
    exact ⟨lt_of_lt_of_le hpos (le_of_extendLoop hsize), fun _ => rfl⟩
  · obtain rfl := some.inj hnew
    exact ⟨hpos, fun _ => rfl⟩

theorem step_spec {t : Sbuf × List Char} {op : Op} (h : Holds t.1 t.2) (hfits : Fits t op) :
    ∃ s' b, step t op = some ((s', refStep t.2 op), b) ∧ op.Kept t.1 s' b ∧
      Holds s' (refStep t.2 op) := by
  obtain ⟨s', b, hs, hkept, hholds⟩ := sbufStep_spec h hfits.1 hfits.2
  refine ⟨s', b, ?_, hkept, hholds⟩
  unfold step
  rw [hs, map_some]

/-- In every state that is reached there is room for the NUL and the buffer has the string that it
    stands for, as long as no overflow is set, and an operation of sizes that can be had appends as
    it has to exactly if it does not print what it must not. -/
theorem sbuf_of_run {s₀ : Sbuf} {t : Sbuf × List Char} (h₀ : Created s₀)
    (hrun : Runs step Fits (s₀, []) t) :
    t.1.len < t.1.s_size ∧ (t.1.overflowed = false → t.1.s_buf = t.2) ∧
      ∀ op : Op, op.Sizes t.1 →
        ((∃ s' b, step t op = some ((s', refStep t.2 op), b) ∧ op.Kept t.1 s' b) ↔
          op.Plain t.1) := by
  have h : Holds t.1 t.2 := by
    refine hrun.invariant (I := fun u => Holds u.1 u.2) h₀.holds fun u op u' b hu hfits hstep => ?_
    obtain ⟨s', b', hs, -, hholds⟩ := step_spec hu hfits
    rw [hs] at hstep
    obtain rfl := congrArg Prod.fst (Option.some.inj hstep)
    exact hholds
  refine ⟨h.lt, h.content, fun op hsize => ⟨?_, fun hplain => ?_⟩⟩
  · rintro ⟨s', b, hstep, hkept⟩
    unfold step at hstep
    obtain ⟨⟨s₁, b₁⟩, hs, heq⟩ := Option.map_eq_some_iff.1 hstep
    obtain ⟨h₁, rfl⟩ := Prod.ext_iff.1 heq
    obtain rfl : s₁ = s' := congrArg Prod.fst h₁
    exact plain_of_kept h hsize hs hkept
  · obtain ⟨s', b, hs, hkept, -⟩ := step_spec h ⟨hsize, hplain⟩
    exact ⟨s', b, hs, hkept⟩

/-- One byte in a buffer of four. -/
theorem sbuf_of_run_bcat : ∃ t, Runs step Fits (⟨[], 4, false, false⟩, []) t ∧
    t.1.len < t.1.s_size ∧ t.1.s_buf = ['a'] := by
  have hfits : Fits (⟨[], 4, false, false⟩, []) (.bcat ['a'] fun _ => false) := by
    refine ⟨fun p hp => ?_, trivial⟩
    obtain rfl := Option.some.inj hp
    exact fun h => (by cases h)
  have hrun : Runs step Fits (⟨[], 4, false, false⟩, []) (⟨['a'], 4, false, false⟩, ['a']) :=
    Runs.refl.tail (r := true) hfits rfl
  have h := sbuf_of_run ⟨true, 4, false, by decide, rfl⟩ hrun
  exact ⟨_, hrun, h.1, h.2.1 rfl⟩

/-- A text that fills a buffer: all of it is stored, and an overflow set; `sbuf_bcat` sets none. -/
theorem printf_fills : ∃ s, Created s ∧ ∃ s', ∀ mem,
    step (s, []) (.printf ['a', 'b', 'c'] mem) = some ((s', ['a', 'b', 'c']), false) ∧
      s'.s_buf = ['a', 'b', 'c'] ∧ s'.overflowed = true ∧
      step (s, []) (.bcat ['a', 'b', 'c'] mem) =
        some (({ s' with overflowed := false }, ['a', 'b', 'c']), true) := by
  refine ⟨⟨[], 4, false, false⟩, ⟨true, 4, false, by decide, rfl⟩,
    ⟨['a', 'b', 'c'], 4, false, true⟩, fun mem => ⟨?_, rfl, rfl, rfl⟩⟩
  have hprintf : sbufPrintf ⟨[], 4, false, false⟩ ['a', 'b', 'c'] mem =
      (vprintfLoop mem ['a', 'b', 'c'] (4294967294 + 2) 0 ⟨[], 4, false, false⟩).map fun s =>
        vprintfEnd s ['a', 'b', 'c'] := rfl
  show (sbufPrintf ⟨[], 4, false, false⟩ ['a', 'b', 'c'] mem).map _ = _
  rw [hprintf, vprintfLoop_fixed rfl]; rfl

end FreeBSD.SbufAppend
