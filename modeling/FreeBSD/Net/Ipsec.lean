import FreeBSD.Lib.BitWindow

/-!
# The replay window of `netipsec/ipsec.c`

Models of `ipsec_chkreplay` (lines 1628–1681), `ipsec_updatereplay` (lines 1688–1780) and
`vshiftl` (lines 1788–1807), and of the replay state that `key_setsaval` allocates
(`netipsec/key.c`, lines 2968–2980).

A read or write outside the bitmap is the result `none`. The window size is a `u_int`, the
sequence numbers and the counter are `u_int32_t`; `frlast` and `fr` are kept as the 32-bit values
that they are computed as.
-/

namespace FreeBSD.Ipsec

open Lib.BitWindow List Option

/-- `struct secreplay` (`netipsec/keydb.h`, lines 136–143), without the sender's `seq`. -/
structure Secreplay where
  count : BitVec 32
  wsize : BitVec 32
  lastseq : BitVec 32
  bitmap : List (BitVec 8)
  overflow : BitVec 32
deriving DecidableEq, Repr

/-- The fields of `struct secasvar` that the replay check reads. -/
structure Secasvar where
  replay : Secreplay
  flags : BitVec 32
deriving DecidableEq, Repr

/-- `SADB_X_EXT_CYCSEQ` (`net/pfkeyv2.h`). -/
def sadbXExtCycseq : BitVec 32 := 0x0040

/-- The replay state that `key_setsaval` allocates, zeroed, for the 8-bit `sadb_sa_replay`. -/
def keySetsaval (sadb_sa_replay : BitVec 8) (sadb_sa_flags : BitVec 32) : Secasvar where
  replay :=
    { count := 0, wsize := sadb_sa_replay.setWidth 32, lastseq := 0,
      bitmap := List.replicate sadb_sa_replay.toNat 0, overflow := 0 }
  flags := sadb_sa_flags

/-! ## Access to the bitmap -/

def readByte (bitmap : List (BitVec 8)) (fr : ℕ) : Option (BitVec 8) := bitmap[fr]?

def writeByte (bitmap : List (BitVec 8)) (fr : ℕ) (b : BitVec 8) : Option (List (BitVec 8)) :=
  if fr < bitmap.length then some (bitmap.set fr b) else none

def bzero (bitmap : List (BitVec 8)) (len : ℕ) : Option (List (BitVec 8)) :=
  if len ≤ bitmap.length then some (List.replicate len 0 ++ bitmap.drop len) else none

/-! ## `vshiftl` -/

/-- The body of the inner loop of `vshiftl` (lines 1800–1802). -/
def vshiftlByte (s : ℕ) (bitmap : List (BitVec 8)) (i : ℕ) : Option (List (BitVec 8)) := do
  let b ← readByte bitmap i
  let over_ := b >>> (8 - s)
  let bitmap ← writeByte bitmap i (b <<< s)
  let b ← readByte bitmap (i - 1)
  writeByte bitmap (i - 1) (b ||| over_)

/-- The body of the outer loop of `vshiftl` (lines 1797–1803). -/
def vshiftlRound (nbit wsize : ℕ) (bitmap : List (BitVec 8)) (j : ℕ) :
    Option (List (BitVec 8)) := do
  let s := if nbit - j < 8 then nbit - j else 8
  let b ← readByte bitmap 0
  let bitmap ← writeByte bitmap 0 (b <<< s)
  (List.range' 1 (wsize - 1)).foldlM (vshiftlByte s) bitmap

/-- `vshiftl(bitmap, nbit, wsize)`: `j` is 0, 8, … below `nbit`. -/
def vshiftl (bitmap : List (BitVec 8)) (nbit wsize : ℕ) : Option (List (BitVec 8)) :=
  (List.range' 0 ((nbit + 7) / 8) 8).foldlM (vshiftlRound nbit wsize) bitmap

/-! ## The replay check -/

/-- `ipsec_chkreplay(seq, sav)`: 0 if the packet is disallowed, 1 if it is permitted. -/
def ipsecChkreplay (seq : BitVec 32) (sav : Secasvar) : Option ℕ :=
  let replay := sav.replay
  if replay.wsize = 0 then some 1 else
  let frlast := replay.wsize - 1
  let wsizeb := replay.wsize <<< 3
  if seq = 0 then some 0 else
  if replay.count = 0 then some 1 else
  if seq > replay.lastseq then some 1 else
  let diff := replay.lastseq - seq
  if diff ≥ wsizeb then some 0 else
  let fr := frlast - diff / 8
  do
    let b ← readByte replay.bitmap fr.toNat
    return if b &&& (1#8 <<< (diff % 8).toNat) ≠ 0 then 0 else 1

/-- Lines 1720–1721 and 1738–1739: only the packet itself is marked in the window. -/
def markOnly (bitmap : List (BitVec 8)) (wsize frlast : ℕ) : Option (List (BitVec 8)) := do
  let bitmap ← bzero bitmap wsize
  writeByte bitmap frlast 1

/-- Lines 1733–1734: the window is moved up to the packet, which is marked. -/
def markShifted (bitmap : List (BitVec 8)) (nbit wsize frlast : ℕ) :
    Option (List (BitVec 8)) := do
  let bitmap ← vshiftl bitmap nbit wsize
  let b ← readByte bitmap frlast
  writeByte bitmap frlast (b ||| 1)

/-- Lines 1709–1761 of `ipsec_updatereplay`: the window with the packet marked in front of `ok`,
    or `some none` where 1 is returned. -/
def updateWindow (seq : BitVec 32) (replay : Secreplay) : Option (Option Secreplay) :=
  let frlast := replay.wsize - 1
  let wsizeb := replay.wsize <<< 3
  if seq = 0 then some none else
  if replay.count = 0 then
    -- first time
    (markOnly replay.bitmap replay.wsize.toNat frlast.toNat).map fun bitmap =>
      some { replay with lastseq := seq, bitmap := bitmap }
  else if seq > replay.lastseq then
    let diff := seq - replay.lastseq
    if diff < wsizeb then
      -- `nbit` and `wsize` are `int` parameters of `vshiftl`
      (markShifted replay.bitmap diff.toInt.toNat replay.wsize.toInt.toNat frlast.toNat).map
        fun bitmap => some { replay with lastseq := seq, bitmap := bitmap }
    else
      (markOnly replay.bitmap replay.wsize.toNat frlast.toNat).map fun bitmap =>
        some { replay with lastseq := seq, bitmap := bitmap }
  else
    let diff := replay.lastseq - seq
    if diff ≥ wsizeb then some none else
    let fr := frlast - diff / 8
    do
      let b ← readByte replay.bitmap fr.toNat
      if b &&& (1#8 <<< (diff % 8).toNat) ≠ 0 then
        return none
      else
        let bitmap ← writeByte replay.bitmap fr.toNat (b ||| (1#8 <<< (diff % 8).toNat))
        return some { replay with bitmap := bitmap }

/-- `ok` (lines 1763–1779): the packet is counted, unless the counter is exhausted. -/
def countPacket (sav : Secasvar) : ℕ × Secasvar :=
  if sav.replay.count = BitVec.allOnes 32 then
    let sav := { sav with replay := { sav.replay with overflow := sav.replay.overflow + 1 } }
    if sav.flags &&& sadbXExtCycseq = 0 then (1, sav)
    else (0, { sav with replay := { sav.replay with count := sav.replay.count + 1 } })
  else (0, { sav with replay := { sav.replay with count := sav.replay.count + 1 } })

/-- `ipsec_updatereplay(seq, sav)`: 0 if the packet is accepted, 1 if not. -/
def ipsecUpdatereplay (seq : BitVec 32) (sav : Secasvar) : Option (ℕ × Secasvar) :=
  if sav.replay.wsize = 0 then some (countPacket sav) else
  match updateWindow seq sav.replay with
  | none => none
  | some none => some (1, sav)
  | some (some replay) => some (countPacket { sav with replay := replay })

/-! ## The bits that `vshiftl` moves -/

variable {bitmap : List (BitVec 8)} {s wsize : ℕ}

theorem readByte_of_lt {fr : ℕ} (h : fr < bitmap.length) :
    readByte bitmap fr = some (bitmap.getD fr 0) := by
  simp only [readByte, getD_eq_getElem?_getD, List.getElem?_eq_getElem h, getD_some]

theorem writeByte_of_lt {fr : ℕ} (h : fr < bitmap.length) (b : BitVec 8) :
    writeByte bitmap fr b = some (bitmap.set fr b) := by
  simp only [writeByte, h, if_true]

theorem getD_set (i k : ℕ) (b : BitVec 8) (h : i < bitmap.length) :
    (bitmap.set i b).getD k 0 = if k = i then b else bitmap.getD k 0 := by
  by_cases hk : k = i
  · subst hk; simp [getD_eq_getElem?_getD, h]
  · have hne : i ≠ k := fun h => hk h.symm
    simp [getD_eq_getElem?_getD, hk, hne]

/-- The inner loop has reached byte `i`: the bytes before its left neighbour are done, the left
    neighbour waits for the high bits of byte `i`, the others are untouched. -/
structure Carried (old : List (BitVec 8)) (s i : ℕ) (bitmap : List (BitVec 8)) : Prop where
  length : bitmap.length = old.length
  done : ∀ k, k + 1 < i → bitmap.getD k 0 = shifted old s k
  last : bitmap.getD (i - 1) 0 = old.getD (i - 1) 0 <<< s
  rest : ∀ k, i ≤ k → bitmap.getD k 0 = old.getD k 0

theorem vshiftlByte_spec {old : List (BitVec 8)} {i : ℕ} (hi : 1 ≤ i) (hlt : i < old.length)
    (h : Carried old s i bitmap) :
    ∃ bitmap', vshiftlByte s bitmap i = some bitmap' ∧ Carried old s (i + 1) bitmap' := by
  have hi' : i < bitmap.length := h.length ▸ hlt
  have hp : i - 1 < (bitmap.set i (bitmap.getD i 0 <<< s)).length := by rw [length_set]; omega
  have hprev : (bitmap.set i (bitmap.getD i 0 <<< s)).getD (i - 1) 0 =
      old.getD (i - 1) 0 <<< s := by
    rw [getD_set _ _ _ hi', if_neg (by omega), h.last]
  have hcur : bitmap.getD i 0 = old.getD i 0 := h.rest i le_rfl
  have hrun : vshiftlByte s bitmap i =
      some ((bitmap.set i (bitmap.getD i 0 <<< s)).set (i - 1)
        ((bitmap.set i (bitmap.getD i 0 <<< s)).getD (i - 1) 0 |||
          bitmap.getD i 0 >>> (8 - s))) := by
    simp only [vshiftlByte, readByte_of_lt hi', bind_eq_bind, bind_some,
      writeByte_of_lt hi', readByte_of_lt hp, writeByte_of_lt hp]
  refine ⟨_, hrun, ?_⟩
  constructor
  · rw [length_set, length_set, h.length]
  · intro k hk
    rw [getD_set _ _ _ hp]
    by_cases hki : k = i - 1
    · have hsucc : i - 1 + 1 = i := by omega
      rw [if_pos hki, hprev, hcur, hki, shifted, hsucc]
    · rw [if_neg hki, getD_set _ _ _ hi', if_neg (by omega), h.done k (by omega)]
  · rw [getD_set _ _ _ hp, if_neg (by omega), getD_set _ _ _ hi', if_pos (by omega), hcur]
    simp
  · intro k hk
    rw [getD_set _ _ _ hp, if_neg (by omega), getD_set _ _ _ hi', if_neg (by omega),
      h.rest k (by omega)]

theorem vshiftlBytes_spec {old : List (BitVec 8)} (n i : ℕ) (hi : 1 ≤ i)
    (hlt : i + n ≤ old.length) (h : Carried old s i bitmap) :
    ∃ bitmap', (List.range' i n).foldlM (vshiftlByte s) bitmap = some bitmap' ∧
      Carried old s (i + n) bitmap' := by
  induction n generalizing i bitmap with
  | zero => exact ⟨bitmap, rfl, h⟩
  | succ n ih =>
    obtain ⟨b₁, h₁, hc₁⟩ := vshiftlByte_spec hi (by omega) h
    obtain ⟨b₂, h₂, hc₂⟩ := ih (i + 1) (by omega) (by omega) hc₁
    refine ⟨b₂, ?_, by rwa [add_right_comm, add_assoc] at hc₂⟩
    rw [List.range'_succ, foldlM_cons, h₁]; exact h₂

/-- A round moves the bits up by `s`, at most eight. -/
theorem vshiftlRound_spec (hw : 0 < wsize) (hlen : bitmap.length = wsize) (nbit j : ℕ) :
    ∃ bitmap', vshiftlRound nbit wsize bitmap j = some bitmap' ∧ bitmap'.length = wsize ∧
      ∀ d, d / 8 < wsize → bit bitmap' d =
        (decide (min (nbit - j) 8 ≤ d) && bit bitmap (d - min (nbit - j) 8)) := by
  have h0 : 0 < bitmap.length := by omega
  have hs : (if nbit - j < 8 then nbit - j else 8) = min (nbit - j) 8 := by
    split <;> omega
  set s := min (nbit - j) 8 with hsdef
  have hstart : Carried bitmap s 1 (bitmap.set 0 (bitmap.getD 0 0 <<< s)) := by
    constructor
    · exact length_set
    · intro k hk; omega
    · rw [getD_set _ _ _ h0, if_pos rfl]
    · intro k hk
      rw [getD_set _ _ _ h0, if_neg (by omega)]
  obtain ⟨bitmap', hrun, hc⟩ := vshiftlBytes_spec (wsize - 1) 1 le_rfl (by omega) hstart
  have hend : 1 + (wsize - 1) = bitmap.length := by omega
  rw [hend] at hc
  refine ⟨bitmap', ?_, by rw [hc.length, hlen], ?_⟩
  · simp only [vshiftlRound, hs, readByte_of_lt h0, bind_eq_bind, bind_some,
      writeByte_of_lt h0, hrun]
  · intro d hd
    refine bit_shift (by omega) hc.length ?_ d (by omega)
    intro k hk
    by_cases hlast : k + 1 < bitmap.length
    · exact hc.done k hlast
    · -- the last byte has no right neighbour
      have hkeq : k = bitmap.length - 1 := by omega
      have hnone : bitmap.getD (k + 1) 0 = 0 := by
        rw [getD_eq_getElem?_getD, List.getElem?_eq_none (by omega), getD_none]
      rw [shifted, hnone, hkeq, hc.last]; simp

theorem vshiftlRounds_spec (hw : 0 < wsize) (nbit n j : ℕ) (hlen : bitmap.length = wsize)
    (hlo : 8 * n < nbit - j + 8) :
    ∃ bitmap', (List.range' j n 8).foldlM (vshiftlRound nbit wsize) bitmap = some bitmap' ∧
      bitmap'.length = wsize ∧
      ∀ d, d / 8 < wsize → bit bitmap' d =
        (decide (min (nbit - j) (8 * n) ≤ d) && bit bitmap (d - min (nbit - j) (8 * n))) := by
  induction n generalizing j bitmap with
  | zero => exact ⟨bitmap, rfl, hlen, by simp⟩
  | succ n ih =>
    obtain ⟨b₁, h₁, hl₁, hb₁⟩ := vshiftlRound_spec hw hlen nbit j
    obtain ⟨b₂, h₂, hl₂, hb₂⟩ := ih (j + 8) hl₁ (by omega)
    refine ⟨b₂, ?_, hl₂, ?_⟩
    · rw [List.range'_succ, foldlM_cons, h₁]; exact h₂
    · intro d hd
      rw [hb₂ d hd]
      by_cases hle : min (nbit - (j + 8)) (8 * n) ≤ d
      · rw [hb₁ _ (by omega)]
        have hsum : d - min (nbit - (j + 8)) (8 * n) - min (nbit - j) 8 =
            d - min (nbit - j) (8 * (n + 1)) := by omega
        have hiff : min (nbit - j) 8 ≤ d - min (nbit - (j + 8)) (8 * n) ↔
            min (nbit - j) (8 * (n + 1)) ≤ d := by omega
        simp only [hle, hsum, hiff, decide_true, Bool.true_and]
      · have hgt : ¬ min (nbit - j) (8 * (n + 1)) ≤ d := by omega
        simp only [hle, hgt, decide_false, Bool.false_and]

/-- `vshiftl` moves the bits of the window up by `nbit`. -/
theorem vshiftl_spec (hw : 0 < wsize) (hlen : bitmap.length = wsize) (nbit : ℕ) :
    ∃ bitmap', vshiftl bitmap nbit wsize = some bitmap' ∧ bitmap'.length = wsize ∧
      ∀ d, d / 8 < wsize → bit bitmap' d = (decide (nbit ≤ d) && bit bitmap (d - nbit)) := by
  obtain ⟨bitmap', h, hl, hb⟩ :=
    vshiftlRounds_spec hw nbit ((nbit + 7) / 8) 0 hlen (by omega)
  have hmin : min (nbit - 0) (8 * ((nbit + 7) / 8)) = nbit := by omega
  rw [hmin] at hb; exact ⟨bitmap', h, hl, hb⟩

end FreeBSD.Ipsec
