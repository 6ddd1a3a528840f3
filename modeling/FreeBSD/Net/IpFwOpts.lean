import FreeBSD.Net.IpFwChk

/-!
# Options in the headers of IP and TCP

`ipopts_match` and `tcpopts_match` of `netinet/ip_fw2.c` (lines 317–406). `b` is the memory from the
start of the header on, whatever is there behind the header. The count `x` of bytes that are left is
0 where the source has it below 0. A run of the loop that has no rounds left is `none`.

Results:
* `opts_match_iff`: only bytes of the header are read, and options are matched as they should be,
  unless an option kind is in the last byte of the header.
* `ipopts_match_outside`: the byte behind the header is read.
-/

namespace FreeBSD.IpFw2

open List

/-! ## Model -/

def IPOPT_EOL : ℕ := 0
def IPOPT_NOP : ℕ := 1
def IPOPT_RR : ℕ := 7
def IPOPT_TS : ℕ := 68
def IPOPT_LSRR : ℕ := 131
def IPOPT_SSRR : ℕ := 137

def TCPOPT_EOL : ℕ := 0
def TCPOPT_NOP : ℕ := 1
def TCPOPT_MAXSEG : ℕ := 2
def TCPOPT_WINDOW : ℕ := 3
def TCPOPT_SACK_PERMITTED : ℕ := 4
def TCPOPT_SACK : ℕ := 5
def TCPOPT_TIMESTAMP : ℕ := 8
def TCPOPT_CC : ℕ := 11
def TCPOPT_CCNEW : ℕ := 12
def TCPOPT_CCECHO : ℕ := 13

/-- The `switch` of lines 338–357: `IP_FW_IPOPT_LSRR`, `SSRR`, `RR` and `TS`. -/
def ipoptFlag (opt : ℕ) : BitVec 8 :=
  if opt = IPOPT_LSRR then 0x01
  else if opt = IPOPT_SSRR then 0x02
  else if opt = IPOPT_RR then 0x04
  else if opt = IPOPT_TS then 0x08
  else 0

/-- The `switch` of lines 380–405: `IP_FW_TCPOPT_MSS`, `WINDOW`, `SACK`, `TS` and `CC`. -/
def tcpoptFlag (opt : ℕ) : BitVec 8 :=
  if opt = TCPOPT_MAXSEG then 0x01
  else if opt = TCPOPT_WINDOW then 0x02
  else if opt = TCPOPT_SACK_PERMITTED ∨ opt = TCPOPT_SACK then 0x04
  else if opt = TCPOPT_TIMESTAMP then 0x08
  else if opt = TCPOPT_CC ∨ opt = TCPOPT_CCNEW ∨ opt = TCPOPT_CCECHO then 0x10
  else 0

/-- What is done with the length of an option: it goes on, the loop ends, or nothing matches. -/
inductive LenCheck where
  | go | stop | fail
  deriving DecidableEq

/-- Lines 334–336. -/
def ipoptLen (optlen x : ℕ) : LenCheck := if optlen = 0 ∨ optlen > x then .fail else .go

/-- Lines 374–376. -/
def tcpoptLen (optlen _x : ℕ) : LenCheck := if optlen = 0 then .stop else .go

/-- The loop over the options from `off` on: the bits, if the loop does not fail, and the offsets
    that it reads. -/
def optsLoop (check : ℕ → ℕ → LenCheck) (flag : ℕ → BitVec 8) (b : ℕ → ℕ) :
    ℕ → ℕ → ℕ → BitVec 8 → Option (Option (BitVec 8) × List ℕ)
  | _, _, 0, bits => some (some bits, [])
  | 0, _, _ + 1, _ => none
  | rounds + 1, off, x + 1, bits =>
    let opt := b off
    if opt = 0 then some (some bits, [off])
    else if opt = 1 then
      (optsLoop check flag b rounds (off + 1) x (bits ||| flag opt)).map fun r =>
        (r.1, off :: r.2)
    else
      let optlen := b (off + 1)
      match check optlen (x + 1) with
      | .fail => some (none, [off, off + 1])
      | .stop => some (some bits, [off, off + 1])
      | .go =>
        (optsLoop check flag b rounds (off + optlen) (x + 1 - optlen) (bits ||| flag opt)).map
          fun r => (r.1, off :: (off + 1) :: r.2)

/-- The answer to a scan of `x` bytes behind a header of 20 bytes, and the offsets that it reads. -/
def optsMatch (check : ℕ → ℕ → LenCheck) (flag : ℕ → BitVec 8) (b : ℕ → ℕ) (x arg1 : ℕ) :
    Option (Bool × List ℕ) :=
  (optsLoop check flag b x 20 x 0).map fun r =>
    (match r.1 with
      | some bits => flagsMatch arg1 bits
      | none => false, r.2)

/-- `ipopts_match` (lines 317–354). -/
def ipopts_match (b : ℕ → ℕ) (ip_hl arg1 : ℕ) : Option (Bool × List ℕ) :=
  optsMatch ipoptLen ipoptFlag b (ip_hl * 4 - 20) arg1

/-- `tcpopts_match` (lines 356–406). -/
def tcpopts_match (b : ℕ → ℕ) (th_off arg1 : ℕ) : Option (Bool × List ℕ) :=
  optsMatch tcpoptLen tcpoptFlag b (th_off * 4 - 20) arg1

/-! ## What the options are -/

/-- A well-formed option area of `x` bytes from `off` on, with the option kinds before the end of
    the list. -/
inductive Area (b : ℕ → ℕ) : ℕ → ℕ → List ℕ → Prop
  | done (off : ℕ) : Area b off 0 []
  | eol {off x : ℕ} (h : b off = 0) : Area b off (x + 1) []
  | nop {off x : ℕ} {kinds : List ℕ} (h : b off = 1) (rest : Area b (off + 1) x kinds) :
      Area b off (x + 1) (1 :: kinds)
  | option {off x : ℕ} {kinds : List ℕ} (h : 1 < b off) (hlen : 2 ≤ b (off + 1))
      (hfit : b (off + 1) ≤ x + 1)
      (rest : Area b (off + b (off + 1)) (x + 1 - b (off + 1)) kinds) :
      Area b off (x + 1) (b off :: kinds)

/-- All wanted kinds are there, and none of those that are not wanted. -/
def Matches (flag : ℕ → BitVec 8) (arg1 : ℕ) (kinds : List ℕ) : Prop :=
  ∀ i < 8, (arg1.testBit i → ∃ k ∈ kinds, (flag k).getLsbD i) ∧
    (arg1.testBit (8 + i) → ¬ ∃ k ∈ kinds, (flag k).getLsbD i)

/-- A scan ends and reads bytes of the header only, and of a well-formed area the kinds are
    matched. -/
def SoundArea (flag : ℕ → BitVec 8) (b : ℕ → ℕ) (hlen arg1 : ℕ)
    (run : Option (Bool × List ℕ)) : Prop :=
  ∃ answer reads, run = some (answer, reads) ∧ (∀ off ∈ reads, 20 ≤ off ∧ off < hlen) ∧
    ∀ kinds, Area b 20 (hlen - 20) kinds → (answer = true ↔ Matches flag arg1 kinds)

/-- Following the lengths, one comes to an option kind in the last of `x` bytes from `off` on. -/
inductive KindLast (check : ℕ → ℕ → LenCheck) (b : ℕ → ℕ) : ℕ → ℕ → Prop
  | here {off : ℕ} (h : 1 < b off) : KindLast check b off 1
  | nop {off x : ℕ} (h : b off = 1) (rest : KindLast check b (off + 1) x) :
      KindLast check b off (x + 1)
  | option {off x : ℕ} (h : 1 < b off) (hgo : check (b (off + 1)) (x + 1) = .go)
      (rest : KindLast check b (off + b (off + 1)) (x + 1 - b (off + 1))) :
      KindLast check b off (x + 1)

/-! ## The bits -/

/-- The test of the wanted bits, bit by bit. -/
theorem flagsMatch_iff (arg1 : ℕ) (bits : BitVec 8) :
    flagsMatch arg1 bits = true ↔ ∀ i < 8, (arg1.testBit i → bits.getLsbD i) ∧
      (arg1.testBit (8 + i) → ¬ bits.getLsbD i) := by
  have hclear (i : ℕ) : (arg1 / 2 ^ 8).testBit i = arg1.testBit (8 + i) := by
    rw [← Nat.shiftRight_eq_div_pow, Nat.testBit_shiftRight]
  have hzero (i : ℕ) : (0 : BitVec 8).getLsbD i = false := BitVec.getLsbD_zero
  unfold flagsMatch
  rw [decide_eq_true_iff]
  constructor
  · rintro ⟨hset, hunset⟩ i hi
    have h1 := congrArg (fun v => v.getLsbD i) hset
    have h2 := congrArg (fun v => v.getLsbD i) hunset
    simp only [BitVec.getLsbD_and, BitVec.getLsbD_not, BitVec.getLsbD_ofNat, hzero, hi, hclear,
      decide_true, Bool.true_and] at h1 h2
    constructor
    · intro hwant
      rw [hwant] at h1; simpa using h1
    · intro hwant
      rw [hwant] at h2; simpa using h2
  · intro h
    constructor
    · apply BitVec.eq_of_getLsbD_eq
      intro i hi
      have hbit := (h i hi).1
      simp only [BitVec.getLsbD_and, BitVec.getLsbD_not, BitVec.getLsbD_ofNat, hzero, hi,
        decide_true, Bool.true_and]
      cases hw : arg1.testBit i with
      | false => rfl
      | true =>
        rw [hbit hw]; rfl
    · apply BitVec.eq_of_getLsbD_eq
      intro i hi
      have hbit := (h i hi).2
      simp only [BitVec.getLsbD_and, BitVec.getLsbD_not, BitVec.getLsbD_ofNat, hi, hclear,
        decide_true, Bool.true_and]
      cases hw : arg1.testBit (8 + i) with
      | false => rfl
      | true =>
        rw [Bool.eq_false_iff.2 (hbit hw)]; rfl

/-- The bits of the kinds in a list. -/
theorem foldl_flag (flag : ℕ → BitVec 8) (kinds : List ℕ) (bits : BitVec 8) (i : ℕ) :
    (kinds.foldl (fun bits k => bits ||| flag k) bits).getLsbD i ↔
      bits.getLsbD i ∨ ∃ k ∈ kinds, (flag k).getLsbD i := by
  induction kinds generalizing bits with
  | nil =>
    rw [foldl_nil]
    refine (or_iff_left ?_).symm
    rintro ⟨k, hk, -⟩
    cases hk
  | cons k kinds ih =>
    rw [foldl_cons, ih, BitVec.getLsbD_or, Bool.or_eq_true, exists_mem_cons_iff, or_assoc]

/-! ## The loop -/

variable {check : ℕ → ℕ → LenCheck} {flag : ℕ → BitVec 8} {b : ℕ → ℕ} {off x rounds : ℕ}
  {bits : BitVec 8}

/-- A round for each byte is enough. -/
theorem optsLoop_terminates (hpos : ∀ l y, check l y = .go → 0 < l) (h : x ≤ rounds) :
    ∃ r, optsLoop check flag b rounds off x bits = some r := by
  induction rounds generalizing off x bits with
  | zero =>
    obtain rfl : x = 0 := by omega
    exact ⟨_, rfl⟩
  | succ rounds ih =>
    cases x with
    | zero => exact ⟨_, rfl⟩
    | succ x =>
      rw [optsLoop]
      dsimp only
      split_ifs
      · exact ⟨_, rfl⟩
      · obtain ⟨r, hr⟩ := @ih (off + 1) x (bits ||| flag (b off)) (by omega)
        rw [hr]; exact ⟨_, rfl⟩
      · cases hc : check (b (off + 1)) (x + 1) with
        | fail => exact ⟨_, rfl⟩
        | stop => exact ⟨_, rfl⟩
        | go =>
          have hlen := hpos _ _ hc
          obtain ⟨r, hr⟩ := @ih (off + b (off + 1)) (x + 1 - b (off + 1)) (bits ||| flag (b off))
            (by omega)
          dsimp only
          rw [hr]; exact ⟨_, rfl⟩

theorem optsLoop_zero : optsLoop check flag b rounds off 0 bits = some (some bits, []) := by
  cases rounds with
  | zero => rfl
  | succ rounds => rfl

theorem not_kindLast_zero : ¬ KindLast check b off 0 := fun h => by cases h

/-- Where an option kind is not the last byte, it depends on what follows. -/
theorem kindLast_option (hkind : 1 < b off) (hx : 0 < x) (hgo : check (b (off + 1)) (x + 1) = .go) :
    KindLast check b off (x + 1) ↔
      KindLast check b (off + b (off + 1)) (x + 1 - b (off + 1)) := by
  constructor
  · intro h
    cases h with
    | here _ => omega
    | nop h _ => omega
    | option _ _ rest => exact rest
  · exact KindLast.option hkind hgo

theorem kindLast_nop (hkind : b off = 1) :
    KindLast check b off (x + 1) ↔ KindLast check b (off + 1) x := by
  constructor
  · intro h
    cases h with
    | here h => omega
    | nop _ rest => exact rest
    | option h _ _ => omega
  · exact KindLast.nop hkind

/-- Where the scan ends at an option, only the last byte matters. -/
theorem kindLast_stop (hgo : check (b (off + 1)) (x + 1) ≠ .go) (hkind : 1 < b off) :
    KindLast check b off (x + 1) ↔ x = 0 := by
  constructor
  · intro h
    cases h with
    | here _ => rfl
    | nop h _ => omega
    | option _ h _ => exact absurd h hgo
  · rintro rfl; exact .here hkind

/-- What is read is in the area, unless an option kind is in its last byte. -/
theorem optsLoop_reads {r : Option (BitVec 8) × List ℕ}
    (h : optsLoop check flag b rounds off x bits = some r) :
    (∀ o ∈ r.2, off ≤ o) ∧ ((∀ o ∈ r.2, o < off + x) ↔ ¬ KindLast check b off x) := by
  induction rounds generalizing off x bits r with
  | zero =>
    cases x with
    | zero =>
      obtain rfl := Option.some.inj h
      exact ⟨(fun o ho => by cases ho),
        iff_of_true (fun o ho => by cases ho) not_kindLast_zero⟩
    | succ x => cases h
  | succ rounds ih =>
    cases x with
    | zero =>
      obtain rfl := Option.some.inj h
      exact ⟨(fun o ho => by cases ho),
        iff_of_true (fun o ho => by cases ho) not_kindLast_zero⟩
    | succ x =>
      rw [optsLoop] at h
      dsimp only at h
      split_ifs at h with heol hnop
      · obtain rfl := Option.some.inj h
        simp only [mem_singleton, forall_eq]
        refine ⟨le_refl off, iff_of_true (by omega) fun hlast => ?_⟩
        cases hlast with
        | here h => omega
        | nop h _ => omega
        | option h _ _ => omega
      · obtain ⟨r', hr', rfl⟩ := Option.map_eq_some_iff.1 h
        obtain ⟨hlow, hhigh⟩ := ih hr'
        simp only [mem_cons, forall_eq_or_imp]
        refine ⟨⟨le_refl off, fun o ho => by have := hlow o ho; omega⟩, ?_⟩
        rw [kindLast_nop hnop, ← hhigh]
        have hend : off + 1 + x = off + (x + 1) := by omega
        rw [hend]; exact and_iff_right (by omega)
      · have hkind : 1 < b off := by omega
        have hboth : (∀ o ∈ [off, off + 1], off ≤ o) ∧
            ((∀ o ∈ [off, off + 1], o < off + (x + 1)) ↔ ¬ x = 0) := by
          simp only [mem_cons, not_mem_nil, or_false, forall_eq_or_imp, forall_eq]; omega
        cases hc : check (b (off + 1)) (x + 1) with
        | fail =>
          rw [hc] at h
          obtain rfl := Option.some.inj h
          rw [kindLast_stop (by rw [hc]; decide) hkind]
          exact hboth
        | stop =>
          rw [hc] at h
          obtain rfl := Option.some.inj h
          rw [kindLast_stop (by rw [hc]; decide) hkind]
          exact hboth
        | go =>
          rw [hc] at h
          obtain ⟨r', hr', rfl⟩ := Option.map_eq_some_iff.1 h
          obtain ⟨hlow, hhigh⟩ := ih hr'
          have hrest : (∀ o ∈ r'.2, o < off + (x + 1)) ↔
              ¬ KindLast check b (off + b (off + 1)) (x + 1 - b (off + 1)) := by
            by_cases hfit : b (off + 1) ≤ x + 1
            · have hend : off + b (off + 1) + (x + 1 - b (off + 1)) = off + (x + 1) := by omega
              rw [← hhigh, hend]
            · have hnone : x + 1 - b (off + 1) = 0 := by omega
              rw [hnone, optsLoop_zero] at hr'
              obtain rfl := Option.some.inj hr'
              rw [hnone]; exact iff_of_true (fun o ho => by cases ho) not_kindLast_zero
          simp only [mem_cons, forall_eq_or_imp, hrest]
          refine ⟨⟨le_refl off, by omega, fun o ho => by have := hlow o ho; omega⟩, ?_⟩
          by_cases hx : x = 0
          · subst hx; exact iff_of_false (by omega) (not_not.2 (.here hkind))
          · rw [kindLast_option hkind (by omega) hc]
            constructor
            · exact fun h => h.2.2
            · exact fun h => ⟨by omega, by omega, h⟩

/-- Of a well-formed area, the bits of the kinds are found. -/
theorem optsLoop_area (flag : ℕ → BitVec 8) (hgo : ∀ l y, 2 ≤ l → l ≤ y → check l y = .go)
    {kinds : List ℕ} (h : Area b off x kinds) (hx : x ≤ rounds) (bits : BitVec 8) :
    ∃ reads, optsLoop check flag b rounds off x bits =
      some (some (kinds.foldl (fun bits k => bits ||| flag k) bits), reads) := by
  induction h generalizing rounds bits with
  | done off => exact ⟨[], optsLoop_zero⟩
  | eol h =>
    obtain ⟨rounds, rfl⟩ : ∃ r, rounds = r + 1 := ⟨rounds - 1, by omega⟩
    rw [optsLoop]
    dsimp only
    rw [if_pos h]; exact ⟨_, rfl⟩
  | nop h rest ih =>
    obtain ⟨rounds, rfl⟩ : ∃ r, rounds = r + 1 := ⟨rounds - 1, by omega⟩
    rw [optsLoop]
    dsimp only
    rw [if_neg (by omega), if_pos h]
    obtain ⟨reads, hreads⟩ := ih (Nat.le_of_succ_le_succ hx) (bits ||| flag 1)
    rw [h, hreads]; exact ⟨_, rfl⟩
  | option h hlen hfit rest ih =>
    obtain ⟨rounds, rfl⟩ : ∃ r, rounds = r + 1 := ⟨rounds - 1, by omega⟩
    rw [optsLoop]
    dsimp only
    rw [if_neg (by omega), if_neg (by omega), hgo _ _ hlen hfit]
    have hle := Nat.le_of_succ_le_succ hx
    obtain ⟨reads, hreads⟩ := @ih rounds (by omega) (bits ||| flag _)
    dsimp only
    rw [hreads]; exact ⟨_, rfl⟩

/-- A scan does what it should unless an option kind is in the last byte of the header. -/
theorem optsMatch_sound (hpos : ∀ l y, check l y = .go → 0 < l)
    (hgo : ∀ l y, 2 ≤ l → l ≤ y → check l y = .go) (hlen arg1 : ℕ) :
    SoundArea flag b hlen arg1 (optsMatch check flag b (hlen - 20) arg1) ↔
      ¬ KindLast check b 20 (hlen - 20) := by
  obtain ⟨r, hr⟩ := @optsLoop_terminates check flag b 20 (hlen - 20) _ 0 hpos (le_refl (hlen - 20))
  obtain ⟨hlow, hhigh⟩ := optsLoop_reads hr
  have hrun : optsMatch check flag b (hlen - 20) arg1 =
      some (match r.1 with
        | some bits => flagsMatch arg1 bits
        | none => false, r.2) := by
    unfold optsMatch
    rw [hr]; rfl
  have hinside : (∀ o ∈ r.2, 20 ≤ o ∧ o < hlen) ↔ ¬ KindLast check b 20 (hlen - 20) := by
    rw [← hhigh]
    constructor
    · intro h o ho
      have := h o ho; omega
    · intro h o ho
      have h1 := hlow o ho
      have h2 := h o ho; omega
  rw [← hinside]
  constructor
  · rintro ⟨answer, reads, h, hreads, -⟩
    rw [hrun] at h
    obtain ⟨-, rfl⟩ := Prod.mk.inj (Option.some.inj h)
    exact hreads
  · intro hreads
    refine ⟨_, _, hrun, hreads, fun kinds harea => ?_⟩
    obtain ⟨reads, hfound⟩ := optsLoop_area flag hgo harea le_rfl 0
    rw [hr] at hfound
    rw [Option.some.inj hfound]
    dsimp only
    rw [flagsMatch_iff]
    have hbits (i : ℕ) : (kinds.foldl (fun bits k => bits ||| flag k) (0 : BitVec 8)).getLsbD i ↔
        ∃ k ∈ kinds, (flag k).getLsbD i := by
      rw [foldl_flag]
      exact or_iff_right fun h => by
        rw [show (0 : BitVec 8).getLsbD i = false from BitVec.getLsbD_zero] at h
        cases h
    simp only [hbits]; exact Iff.rfl

/-! ## Both functions -/

theorem ipoptLen_pos (l y : ℕ) (h : ipoptLen l y = .go) : 0 < l := by
  unfold ipoptLen at h
  split_ifs at h with hbad
  omega

theorem ipoptLen_go (l y : ℕ) (hl : 2 ≤ l) (hy : l ≤ y) : ipoptLen l y = .go := by
  unfold ipoptLen; exact if_neg (by omega)

theorem tcpoptLen_pos (l y : ℕ) (h : tcpoptLen l y = .go) : 0 < l := by
  unfold tcpoptLen at h
  split_ifs at h with hbad
  omega

theorem tcpoptLen_go (l y : ℕ) (hl : 2 ≤ l) (_ : l ≤ y) : tcpoptLen l y = .go := by
  unfold tcpoptLen; exact if_neg (by omega)

/-- Both functions end, read bytes of the options only and match a well-formed list of options as
    they should, if and only if the lengths do not lead to an option kind in the last byte of the
    header. -/
theorem opts_match_iff (b : ℕ → ℕ) (ip_hl th_off arg1 : ℕ) :
    (SoundArea ipoptFlag b (ip_hl * 4) arg1 (ipopts_match b ip_hl arg1) ↔
      ¬ KindLast ipoptLen b 20 (ip_hl * 4 - 20)) ∧
      (SoundArea tcpoptFlag b (th_off * 4) arg1 (tcpopts_match b th_off arg1) ↔
        ¬ KindLast tcpoptLen b 20 (th_off * 4 - 20)) :=
  ⟨optsMatch_sound ipoptLen_pos ipoptLen_go _ arg1,
    optsMatch_sound tcpoptLen_pos tcpoptLen_go _ arg1⟩

/-- Three bytes of padding, and a record route option in the last byte of a header of 24 bytes. -/
def routeLast : ℕ → ℕ := fun off => if off = 23 then IPOPT_RR else IPOPT_NOP

/-- The byte behind the header is read. -/
theorem ipopts_match_outside :
    ¬ SoundArea ipoptFlag routeLast 24 0 (ipopts_match routeLast 6 0) := by
  rintro ⟨answer, reads, h, hreads, -⟩
  have hrun : ipopts_match routeLast 6 0 = some (true, [20, 21, 22, 23, 24]) := by decide
  rw [hrun] at h
  obtain ⟨-, rfl⟩ := Prod.mk.inj (Option.some.inj h)
  exact absurd (hreads 24 (by decide)).2 (by decide)

end FreeBSD.IpFw2
