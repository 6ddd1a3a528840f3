import FreeBSD.Kern.RmanExclusive
import Mathlib.Data.Nat.Bitwise

/-!
# Where a reserved range lies

The adjustment of the start (lines 226–231 of `sys/kern/subr_rman.c`) takes one
round for a request whose `bound` is 0 or a power of two of at least `count`,
and ends on a start that is aligned and crosses no multiple of `bound`. It may
wrap around, and the window test allows an end past `end`.

Results:
* `adjustRound_toNat`, `adjust_eq`: the adjusted start.
* `findUnshared_eq`: the search takes the first entry that `Accepts`.
* `granted_iff_fitsWindow`: the result lies in the window exactly when the adjusted start does.
-/

namespace FreeBSD.SubrRman

open FreeBSD.Lib.Segments List Function Option

/-! ## Requests -/

/-- The requests of a caller that keeps to the rules: a window that is large enough, a power of two
    as the boundary, and sums that fit a `u_long`. -/
structure Request.WellPosed (q : Request) : Prop where
  start_le : q.start ≤ q.end'
  count_pos : 1 ≤ q.count.toNat
  count_le : q.count.toNat ≤ q.end'.toNat - q.start.toNat + 1
  bound : q.bound = 0 ∨ (∃ j, q.bound.toNat = 2 ^ j) ∧ q.count.toNat ≤ q.bound.toNat
  no_overflow : q.start.toNat + q.count.toNat + 2 ^ rfAlignment q.flags < 2 ^ 64

/-- What the caller asked for: `count` addresses from `start` to `end`, from an aligned one on,
    without a multiple of `bound` between them. -/
structure Granted (q : Request) (r : Resource) : Prop where
  size : r.rEnd.toNat + 1 = r.rStart.toNat + q.count.toNat
  start_le : q.start ≤ r.rStart
  le_end : r.rEnd ≤ q.end'
  aligned : 2 ^ rfAlignment q.flags ∣ r.rStart.toNat
  bound : q.bound ≠ 0 → r.rStart.toNat / q.bound.toNat = r.rEnd.toNat / q.bound.toNat

theorem rfAlignment_baseFlags (q : Request) : rfAlignment q.baseFlags = rfAlignment q.flags := by
  unfold rfAlignment Request.baseFlags
  rw [and_clear_of_disjoint (by decide)]

theorem rfAlignment_lt (x : BitVec 32) : rfAlignment x < 64 := by
  unfold rfAlignment
  have h : x &&& (0x003f <<< 10) ≤ (0x003f <<< 10 : BitVec 32) := by
    rw [BitVec.le_def, BitVec.toNat_and]; exact Nat.and_le_right
  rw [BitVec.toNat_ushiftRight, Nat.shiftRight_eq_div_pow]
  have h' : (x &&& (0x003f <<< 10)).toNat ≤ 64512 := h
  omega

/-! ## Masks -/

variable {k e : ℕ} {q : Request} {r : Resource} {rm rm' : Rman} {malloc1 malloc2 : Bool} {s : Sys}

/-- `2 ^ k - 1` as a word. -/
theorem toNat_lowMask (hk : k < 64) : (((1 <<< k : ℕ) : BitVec 64) - 1).toNat = 2 ^ k - 1 := by
  have hpow : 2 ^ k < 2 ^ 64 := Nat.pow_lt_pow_right (by omega) hk
  have hpos : 0 < 2 ^ k := Nat.two_pow_pos k
  have h1 : ((1 <<< k : ℕ) : BitVec 64).toNat = 2 ^ k := by
    show (1 <<< k) % 2 ^ 64 = 2 ^ k
    rw [Nat.one_shiftLeft, Nat.mod_eq_of_lt hpow]
  have hone : (1 : BitVec 64).toNat = 1 := rfl
  rw [BitVec.toNat_sub, h1, hone]; omega

theorem toNat_and_mask {m x : BitVec 64} (hm : m.toNat = 2 ^ k - 1) :
    (x &&& m).toNat = x.toNat % 2 ^ k := by
  rw [BitVec.toNat_and, hm, Nat.and_two_pow_sub_one_eq_mod]

theorem toNat_and_not_mask {m x : BitVec 64} (hm : m.toNat = 2 ^ k - 1) :
    (x &&& ~~~m).toNat = x.toNat / 2 ^ k * 2 ^ k := by
  have hsplit : (x &&& ~~~m) + (x &&& m) = x := by
    rw [BitVec.add_eq_or_of_and_eq_zero]
    · apply BitVec.eq_of_getLsbD_eq
      intro i hi
      simp only [BitVec.getLsbD_or, BitVec.getLsbD_and, BitVec.getLsbD_not, hi, decide_true,
        Bool.true_and]
      cases x.getLsbD i <;> cases m.getLsbD i <;> rfl
    · apply BitVec.eq_of_getLsbD_eq
      intro i hi
      simp only [BitVec.getLsbD_and, BitVec.getLsbD_not, hi, decide_true, Bool.true_and,
        BitVec.getLsbD_zero]
      cases x.getLsbD i <;> cases m.getLsbD i <;> rfl
  have hle : (x &&& ~~~m).toNat ≤ x.toNat := by rw [BitVec.toNat_and]; exact Nat.and_le_left
  have hlow := toNat_and_mask (x := x) hm
  have hdiv := Nat.div_add_mod x.toNat (2 ^ k)
  have hsum : ((x &&& ~~~m) + (x &&& m)).toNat = x.toNat := by rw [hsplit]
  rw [BitVec.toNat_add, hlow] at hsum
  have hx := x.isLt
  have hmod := Nat.mod_le x.toNat (2 ^ k)
  rw [mul_comm] at hdiv
  -- the sum of the two parts does not wrap around
  by_cases hwrap : (x &&& ~~~m).toNat + x.toNat % 2 ^ k < 2 ^ 64
  · rw [Nat.mod_eq_of_lt hwrap] at hsum; omega
  · rw [Nat.mod_eq_sub_mod (by omega), Nat.mod_eq_of_lt (by omega)] at hsum
    omega

namespace Request

variable {q : Request}

theorem toNat_amask (q : Request) : q.amask.toNat = 2 ^ rfAlignment q.flags - 1 := by
  unfold amask
  rw [rfAlignment_baseFlags]; exact toNat_lowMask (rfAlignment_lt _)

theorem not_bmask (q : Request) : ~~~q.bmask = q.bound - 1 := by
  unfold bmask; exact BitVec.not_not

theorem toNat_bound_sub_one {j : ℕ} (hj : q.bound.toNat = 2 ^ j) :
    (q.bound - 1).toNat = 2 ^ j - 1 := by
  have hpos : 0 < 2 ^ j := Nat.two_pow_pos j
  have hlt := q.bound.isLt
  have hone : (1 : BitVec 64).toNat = 1 := rfl
  rw [BitVec.toNat_sub, hj, hone]; omega

theorem bmask_zero (h : q.bound = 0) : q.bmask = 0 := by
  unfold bmask
  rw [h]; decide

theorem and_amask_eq_zero (q : Request) (x : BitVec 64) :
    x &&& q.amask = 0 ↔ 2 ^ rfAlignment q.flags ∣ x.toNat := by
  rw [← BitVec.toNat_inj, toNat_and_mask q.toNat_amask, Nat.dvd_iff_mod_eq_zero]; rfl

/-- Two words agree in the bits of `bmask` when no multiple of the boundary lies between them. -/
theorem xor_and_bmask_eq_zero (hq : q.WellPosed) (x y : BitVec 64) :
    (x ^^^ y) &&& q.bmask = 0 ↔
      (q.bound ≠ 0 → x.toNat / q.bound.toNat = y.toNat / q.bound.toNat) := by
  rcases hq.bound with h0 | ⟨⟨j, hj⟩, -⟩
  · rw [bmask_zero h0]; simp [h0]
  · have hne : q.bound ≠ 0 := by
      intro h
      rw [h] at hj; exact absurd hj (Nat.two_pow_pos j).ne
    have hdiv : (x ^^^ y).toNat / 2 ^ j = (x.toNat / 2 ^ j) ^^^ (y.toNat / 2 ^ j) := by
      rw [BitVec.toNat_xor, ← Nat.shiftRight_eq_div_pow, Nat.shiftRight_xor_distrib,
        Nat.shiftRight_eq_div_pow, Nat.shiftRight_eq_div_pow]
    have hzero : (0 : BitVec 64).toNat = 0 := rfl
    rw [← BitVec.toNat_inj, bmask, toNat_and_not_mask (toNat_bound_sub_one hj), hdiv, hj, hzero,
      Nat.mul_eq_zero]
    constructor
    · intro h _; exact Nat.xor_eq_zero_iff.1 (h.resolve_right (Nat.two_pow_pos j).ne')
    · intro h; exact .inl (Nat.xor_eq_zero_iff.2 (h hne))

end Request

/-! ## The adjusted start -/

/-- The first statement of the loop rounds up, unless the sum wraps around. -/
theorem roundUp_toNat (q : Request) (x : BitVec 64) :
    ((x + q.amask) &&& ~~~q.amask).toNat =
      (x.toNat + (2 ^ rfAlignment q.flags - 1)) % 2 ^ 64 / 2 ^ rfAlignment q.flags *
        2 ^ rfAlignment q.flags := by
  rw [toNat_and_not_mask q.toNat_amask, BitVec.toNat_add, q.toNat_amask]

/-- After one round the start is aligned, and `count` addresses from it on do not reach the next
    multiple of `bound`. -/
theorem adjustRound_toNat (hq : q.WellPosed) (x : BitVec 64) :
    2 ^ rfAlignment q.flags ∣ (adjustRound q x).toNat ∧
      (q.bound ≠ 0 → (adjustRound q x).toNat % q.bound.toNat + q.count.toNat ≤ q.bound.toNat) := by
  obtain ⟨y, hy⟩ : ∃ y, y = (x + q.amask) &&& ~~~q.amask := ⟨_, rfl⟩
  have hdvd : 2 ^ rfAlignment q.flags ∣ y.toNat := by
    rw [hy, roundUp_toNat]; exact dvd_mul_left _ _
  have hround : adjustRound q x = if (y ^^^ (y + q.count - 1)) &&& q.bmask ≠ 0 then
      y + (q.bound - (y &&& ~~~q.bmask)) else y := by
    rw [hy]; rfl
  have hone : (1 : BitVec 64).toNat = 1 := rfl
  have hpos := hq.count_pos
  have hcount := q.count.isLt
  have hylt := y.isLt
  rcases hq.bound with h0 | ⟨⟨j, hj⟩, hle⟩
  · have hno : (y ^^^ (y + q.count - 1)) &&& q.bmask = 0 :=
      (Request.xor_and_bmask_eq_zero hq _ _).2 fun h => absurd h0 h
    rw [hround, if_neg (not_not.2 hno)]; exact ⟨hdvd, fun h => absurd h0 h⟩
  · have hjlt : j < 64 := by
      by_contra hge
      have := Nat.pow_le_pow_right (n := 2) (by omega) (not_lt.1 hge)
      have := q.bound.isLt; omega
    have hbpos := Nat.two_pow_pos j
    -- the boundary divides the number of addresses
    have hword : 2 ^ j * 2 ^ (64 - j) = 2 ^ 64 := by
      rw [← pow_add]
      congr 1
      omega
    have hne : q.bound ≠ 0 := by
      intro h
      rw [h] at hj; exact absurd hj hbpos.ne
    have hmod := Nat.mod_lt y.toNat hbpos
    have hdm := Nat.div_add_mod y.toNat (2 ^ j)
    by_cases hfit : y.toNat % 2 ^ j + q.count.toNat ≤ 2 ^ j
    · -- no multiple of the boundary in the way
      have hqlt : y.toNat / 2 ^ j < 2 ^ (64 - j) := by
        rw [Nat.div_lt_iff_lt_mul hbpos, mul_comm, hword]; exact hylt
      have hblock : 2 ^ j * (y.toNat / 2 ^ j) + 2 ^ j ≤ 2 ^ 64 := by
        calc 2 ^ j * (y.toNat / 2 ^ j) + 2 ^ j = 2 ^ j * (y.toNat / 2 ^ j + 1) := by ring
          _ ≤ 2 ^ j * 2 ^ (64 - j) := Nat.mul_le_mul_left _ hqlt
          _ = 2 ^ 64 := hword
      have hend : (y + q.count - 1).toNat = y.toNat + (q.count.toNat - 1) := by
        rw [BitVec.toNat_sub, BitVec.toNat_add, hone]; omega
      have hno : (y ^^^ (y + q.count - 1)) &&& q.bmask = 0 := by
        refine (Request.xor_and_bmask_eq_zero hq _ _).2 fun _ => ?_
        rw [hj, hend]
        refine (Nat.div_eq_of_lt_le ?_ ?_).symm
        · rw [mul_comm]; omega
        · rw [mul_comm, mul_add]; omega
      rw [hround, if_neg (not_not.2 hno), hj]; exact ⟨hdvd, fun _ => hfit⟩
    · -- a start on a multiple of the boundary would have fitted
      have hklt : rfAlignment q.flags ≤ j := by
        by_contra hlt
        have h1 : 2 ^ j ∣ y.toNat := (Nat.pow_dvd_pow 2 (by omega)).trans hdvd
        have h2 := Nat.mod_eq_zero_of_dvd h1; omega
      have hcross : (y ^^^ (y + q.count - 1)) &&& q.bmask ≠ 0 := by
        intro hno
        have heq := (Request.xor_and_bmask_eq_zero hq _ _).1 hno hne
        rw [hj] at heq
        have hdm' := Nat.div_add_mod (y + q.count - 1).toNat (2 ^ j)
        have hmod' := Nat.mod_lt (y + q.count - 1).toNat hbpos
        rw [← heq] at hdm'
        have hend : (y + q.count - 1).toNat = (y.toNat + (q.count.toNat - 1)) % 2 ^ 64 := by
          rw [BitVec.toNat_sub, BitVec.toNat_add, hone]; omega
        have hhalf : 2 ^ j ≤ 2 ^ 63 := Nat.pow_le_pow_right (by omega) (by omega)
        omega
      have hnext : (y + (q.bound - (y &&& ~~~q.bmask))).toNat =
          2 ^ j * (y.toNat / 2 ^ j + 1) % 2 ^ 64 := by
        have hlow : (y &&& ~~~q.bmask).toNat = y.toNat % 2 ^ j := by
          rw [Request.not_bmask, toNat_and_mask (Request.toNat_bound_sub_one hj)]
        have hblt := q.bound.isLt
        rw [BitVec.toNat_add, BitVec.toNat_sub, hlow, hj, mul_add]; omega
      have hdvd' : 2 ^ j ∣ 2 ^ j * (y.toNat / 2 ^ j + 1) % 2 ^ 64 :=
        (Nat.dvd_mod_iff (hword ▸ dvd_mul_right _ _)).2 (dvd_mul_right _ _)
      rw [hround, if_pos hcross, hnext, hj]
      refine ⟨(Nat.pow_dvd_pow 2 hklt).trans hdvd', fun _ => ?_⟩
      rw [Nat.mod_eq_zero_of_dvd hdvd']; omega

/-- The loop makes one round. -/
theorem adjust_eq (hq : q.WellPosed) (rEnd x : BitVec 64) (fuel : ℕ) :
    adjust q rEnd (fuel + 1) x = some (adjustRound q x) := by
  have hdvd := (adjustRound_toNat hq x).1
  rw [adjust, if_neg fun h => h.1 ((q.and_amask_eq_zero _).2 hdvd)]

/-- What the search for a shared region looks for is what the caller asked for. -/
theorem sharable_iff (hq : q.WellPosed) (hle : r.rStart ≤ r.rEnd) :
    sharable q r = true ↔ Granted q r := by
  simp only [sharable, Bool.and_eq_true, decide_eq_true_eq]
  rw [q.and_amask_eq_zero, Request.xor_and_bmask_eq_zero hq]
  have hpos := hq.count_pos
  constructor
  · rintro ⟨⟨⟨⟨hstart, hend⟩, hcount⟩, halign⟩, hbound⟩
    refine ⟨?_, hstart, hend, halign, hbound⟩
    rw [← hcount]
    bv_omega
  · rintro ⟨hsize, hstart, hend, halign, hbound⟩
    refine ⟨⟨⟨⟨hstart, hend⟩, ?_⟩, halign⟩, hbound⟩
    bv_omega

/-! ## The search -/

/-- The start that the search tries in the entry `e` (lines 217–231). -/
def adjustedStart (rm : Rman) (q : Request) (e : ℕ) : BitVec 64 :=
  adjustRound q (ulmax (rm.res e).rStart q.start)

/-- The end of the window in the entry `e` (line 232). -/
def windowEnd (rm : Rman) (q : Request) (e : ℕ) : BitVec 64 :=
  ulmin (rm.res e).rEnd (ulmax (adjustedStart rm q e + q.count) q.end')

/-- The tests on an entry that does not start behind `end` (lines 214–241). -/
def Accepts (rm : Rman) (q : Request) (e : ℕ) : Prop :=
  ¬ (rm.res e).has rfAllocated ∧ adjustedStart rm q e ≤ windowEnd rm q e ∧
    q.count ≤ windowEnd rm q e - adjustedStart rm q e + 1

instance (rm : Rman) (q : Request) (e : ℕ) : Decidable (Accepts rm q e) :=
  inferInstanceAs (Decidable (_ ∧ _))

/-- The first unallocated entry, of those that do not end before `start` or lie behind one that
    starts after `end`, that passes the tests. -/
def firstAccepted (rm : Rman) (q : Request) : Option ℕ :=
  ((candidates rm q).takeWhile fun s => (rm.res s).rStart ≤ q.end').find? fun s => Accepts rm q s

theorem findUnshared_eq (hq : q.WellPosed) (rm : Rman) (fuel : ℕ) (l : List ℕ) :
    findUnshared rm q (fuel + 1) l =
      some (((l.takeWhile fun s => (rm.res s).rStart ≤ q.end').find? fun s =>
        Accepts rm q s).map fun e => (e, adjustedStart rm q e)) := by
  induction l with
  | nil => rfl
  | cons s l ih =>
    rw [findUnshared]
    by_cases h1 : (rm.res s).rStart > q.end'
    · rw [if_pos h1, takeWhile_cons_of_neg (by simpa using h1)]
      rfl
    have h1' : (rm.res s).rStart ≤ q.end' := by bv_omega
    rw [if_neg h1, takeWhile_cons_of_pos (by simpa using h1')]
    by_cases hal : (rm.res s).has rfAllocated
    · rw [if_pos hal, List.find?_cons_of_neg (by simp [Accepts, hal]), ih]
    rw [if_neg hal, adjust_eq hq]
    dsimp only
    rw [← adjustedStart, ← windowEnd]
    by_cases hle : adjustedStart rm q s > windowEnd rm q s
    · have hacc : ¬ Accepts rm q s := fun h => BitVec.not_lt.2 h.2.1 hle
      rw [if_pos hle, List.find?_cons_of_neg (by simpa using hacc), ih]
    rw [if_neg hle]
    by_cases hroom : windowEnd rm q s - adjustedStart rm q s + 1 ≥ q.count
    · have hacc : Accepts rm q s := ⟨hal, by bv_omega, hroom⟩
      rw [if_pos hroom, List.find?_cons_of_pos (by simpa using hacc)]
      rfl
    · have hacc : ¬ Accepts rm q s := fun h => hroom h.2.2
      rw [if_neg hroom, List.find?_cons_of_neg (by simpa using hacc), ih]

/-- There is room for `count` addresses from the adjusted start to the end of the entry. -/
theorem Accepts.room (hq : q.WellPosed) (h : Accepts rm q e) :
    (adjustedStart rm q e).toNat + q.count.toNat ≤ (rm.res e).rEnd.toNat + 1 := by
  obtain ⟨-, hle, hroom⟩ := h
  have hpos := hq.count_pos
  have hmin : windowEnd rm q e ≤ (rm.res e).rEnd := by
    unfold windowEnd ulmin
    split_ifs with hlt <;> bv_omega
  bv_omega

/-! ## What is taken -/

/-- What is taken out of the unallocated entry `e`: the whole entry, or `count` addresses from
    `rstart` on. -/
theorem takeUnshared_range {e rv : ℕ} {rstart : BitVec 64} (helt : e < rm.brk)
    (h : takeUnshared rm q e rstart malloc1 malloc2 = (rm', some rv)) :
    (rm.res e).rEnd - (rm.res e).rStart + 1 = q.count ∧ rv = e ∧
        (rm'.res rv).rSharehead = (rm.res e).rSharehead ∧
        (rm'.res rv).rStart = (rm.res e).rStart ∧ (rm'.res rv).rEnd = (rm.res e).rEnd ∨
      (rm.res e).rEnd - (rm.res e).rStart + 1 ≠ q.count ∧ (rm'.res rv).rSharehead = none ∧
        (rm'.res rv).rStart = rstart ∧ (rm'.res rv).rEnd = rstart + q.count - 1 := by
  have hne : rm.brk ≠ e := by omega
  have hne' : rm.brk ≠ rm.brk + 1 := by omega
  unfold takeUnshared at h
  by_cases hsize : (rm.res e).rEnd - (rm.res e).rStart + 1 = q.count
  · rw [if_pos hsize, Prod.mk.injEq, Option.some.injEq] at h
    obtain ⟨rfl, rfl⟩ := h
    exact .inl ⟨hsize, rfl, by simp [Rman.update], by simp [Rman.update], by simp [Rman.update]⟩
  rw [if_neg hsize] at h
  refine .inr ⟨hsize, ?_⟩
  by_cases hm : ¬ malloc1 = true
  · rw [if_pos hm] at h
    cases h
  rw [if_neg hm] at h
  dsimp only [Rman.alloc] at h
  have hnew : rm'.res rv =
      { rSharehead := none, rStart := rstart, rEnd := rstart + q.count - 1
        rFlags := q.baseFlags ||| rfAllocated, rDev := q.dev } := by
    split_ifs at h with h1 h2 h3
    · rw [Prod.mk.injEq, Option.some.injEq] at h
      obtain ⟨rfl, rfl⟩ := h
      show update _ e _ rm.brk = _
      rw [update_of_ne hne]
      show update _ (rm.brk + 1) _ rm.brk = _
      rw [update_of_ne hne', update_self]
    · cases h
    · rw [Prod.mk.injEq, Option.some.injEq] at h
      obtain ⟨rfl, rfl⟩ := h
      show update _ e _ rm.brk = _
      rw [update_of_ne hne]; exact update_self _ _ _
    · rw [Prod.mk.injEq, Option.some.injEq] at h
      obtain ⟨rfl, rfl⟩ := h
      show update _ e _ rm.brk = _
      rw [update_of_ne hne]; exact update_self _ _ _
  rw [hnew]; exact ⟨rfl, rfl, rfl⟩

/-- With memory at hand something is taken. -/
theorem takeUnshared_some (rm : Rman) (q : Request) (e : ℕ) (rstart : BitVec 64) :
    ∃ rm' rv, takeUnshared rm q e rstart true true = (rm', some rv) := by
  unfold takeUnshared
  dsimp only [Rman.alloc]
  have hmem : ¬ ¬ true = true := by decide
  rw [if_neg hmem]
  split_ifs
  · exact ⟨_, _, rfl⟩
  · exact ⟨_, _, rfl⟩
  · exact ⟨_, _, rfl⟩
  · exact ⟨_, _, rfl⟩

/-! ## The window -/

/-- The adjusted start of the accepted entry, if there is one, lies in the window together with
    `count` addresses, and is the start of an entry that is taken whole. -/
def FitsWindow (rm : Rman) (q : Request) : Prop :=
  ∀ e, firstAccepted rm q = some e → q.start ≤ adjustedStart rm q e ∧
    (adjustedStart rm q e).toNat + q.count.toNat ≤ q.end'.toNat + 1 ∧
    ((rm.res e).rEnd - (rm.res e).rStart + 1 = q.count → (rm.res e).rStart = adjustedStart rm q e)

theorem accepts_of_firstAccepted (h : firstAccepted rm q = some e) :
    Accepts rm q e ∧ e ∈ rm.rmList := by
  have hacc := List.find?_some h
  have hmem := (takeWhile_sublist _).subset (mem_of_find?_eq_some h)
  exact ⟨by simpa using hacc, mem_of_candidates hmem⟩

/-- `count` addresses from the adjusted start on are what was asked for when they lie in the
    window. -/
theorem granted_iff_of_adjusted (hq : q.WellPosed) (hacc : Accepts rm q e)
    (hstart : r.rStart = adjustedStart rm q e)
    (hend : r.rEnd = adjustedStart rm q e + q.count - 1) :
    Granted q r ↔ q.start ≤ adjustedStart rm q e ∧
      (adjustedStart rm q e).toNat + q.count.toNat ≤ q.end'.toNat + 1 := by
  have hroom := hacc.room hq
  have hlt := (rm.res e).rEnd.isLt
  have hpos := hq.count_pos
  have hone : (1 : BitVec 64).toNat = 1 := rfl
  have hend' : r.rEnd.toNat = (adjustedStart rm q e).toNat + (q.count.toNat - 1) := by
    rw [hend, BitVec.toNat_sub, BitVec.toNat_add, hone]; omega
  obtain ⟨halign, hbound⟩ := adjustRound_toNat hq (ulmax (rm.res e).rStart q.start)
  constructor
  · intro h
    have hle := BitVec.le_def.1 h.le_end
    exact ⟨hstart ▸ h.start_le, by omega⟩
  · rintro ⟨h1, h2⟩
    refine ⟨by rw [hstart]; omega, hstart ▸ h1, BitVec.le_def.2 (by omega), hstart ▸ halign, ?_⟩
    intro hne
    have hfit := hbound hne
    rw [← adjustedStart] at hfit
    rw [hstart, hend']
    have hbpos : 0 < q.bound.toNat := by
      have := hq.bound.resolve_left hne; omega
    have hdm := Nat.div_add_mod (adjustedStart rm q e).toNat q.bound.toNat
    refine (Nat.div_eq_of_lt_le ?_ ?_).symm
    · rw [mul_comm]; omega
    · rw [mul_comm, mul_add]; omega

/-- An entry that is taken whole is what was asked for when its start needs no adjustment and it
    lies in the window. -/
theorem granted_iff_of_whole (hq : q.WellPosed) (hacc : Accepts rm q e)
    (hle : (rm.res e).rStart ≤ (rm.res e).rEnd)
    (hsize : (rm.res e).rEnd - (rm.res e).rStart + 1 = q.count)
    (hstart : r.rStart = (rm.res e).rStart) (hend : r.rEnd = (rm.res e).rEnd) :
    Granted q r ↔ (q.start ≤ adjustedStart rm q e ∧
      (adjustedStart rm q e).toNat + q.count.toNat ≤ q.end'.toNat + 1) ∧
      (rm.res e).rStart = adjustedStart rm q e := by
  have hend' : (rm.res e).rEnd = (rm.res e).rStart + q.count - 1 := by
    rw [← hsize]
    bv_omega
  constructor
  · intro h
    have hs : sharable q r = true := (sharable_iff hq (by rw [hstart, hend]; exact hle)).2 h
    -- an aligned start at or after `start` that crosses no boundary is left alone
    have hmax : ulmax (rm.res e).rStart q.start = (rm.res e).rStart := by
      have hge := h.start_le
      rw [hstart] at hge
      unfold ulmax
      split_ifs with hlt
      · rfl
      · bv_omega
    have hadj : (rm.res e).rStart = adjustedStart rm q e := by
      unfold adjustedStart
      rw [hmax, ← hstart, adjustRound_of_sharable hs]
    refine ⟨(granted_iff_of_adjusted hq hacc (hstart.trans hadj) ?_).1 h, hadj⟩
    rw [hend, hend', hadj]
  · rintro ⟨hwin, hadj⟩
    refine (granted_iff_of_adjusted hq hacc (hstart.trans hadj) ?_).2 hwin
    rw [hend, hend', hadj]

/-- What is taken out of the accepted entry is what was asked for exactly when its adjusted start
    lies in the window. -/
theorem granted_iff_of_taken (hI : Inv s) (hq : q.WellPosed) {e rv : ℕ}
    (he : firstAccepted s.rm q = some e)
    (h : takeUnshared s.rm q e (adjustedStart s.rm q e) malloc1 malloc2 = (rm', some rv)) :
    Granted q (rm'.res rv) ↔ FitsWindow s.rm q := by
  obtain ⟨hacc, hmem⟩ := accepts_of_firstAccepted he
  have hle : (s.rm.res e).rStart ≤ (s.rm.res e).rEnd :=
    hI.ordered.nonempty _ (mem_map.2 ⟨e, hmem, rfl⟩)
  have hfits : FitsWindow s.rm q ↔ (q.start ≤ adjustedStart s.rm q e ∧
      (adjustedStart s.rm q e).toNat + q.count.toNat ≤ q.end'.toNat + 1) ∧
      ((s.rm.res e).rEnd - (s.rm.res e).rStart + 1 = q.count →
        (s.rm.res e).rStart = adjustedStart s.rm q e) := by
    constructor
    · intro hf
      obtain ⟨h1, h2, h3⟩ := hf e he
      exact ⟨⟨h1, h2⟩, h3⟩
    · rintro ⟨⟨h1, h2⟩, h3⟩ e' he'
      obtain rfl := some.inj (he.symm.trans he')
      exact ⟨h1, h2, h3⟩
  rw [hfits]
  rcases takeUnshared_range (hI.entry e hmem).lt_brk h with
    ⟨hsize, rfl, -, hstart, hend⟩ | ⟨hsize, -, hstart, hend⟩
  · rw [granted_iff_of_whole hq hacc hle hsize hstart hend]
    exact and_congr_right fun _ => (imp_iff_right hsize).symm
  · rw [granted_iff_of_adjusted hq hacc hstart hend]
    exact (and_iff_left fun h => absurd h hsize).symm

/-- Activation changes no range. -/
theorem granted_activate {r x : ℕ} :
    Granted q ((intRmanActivateResource rm r).1.res x) ↔ Granted q (rm.res x) := by
  have hseg := ((intRmanActivateResource_reflag rm r).agree x).seg
  have hstart : ((intRmanActivateResource rm r).1.res x).rStart = (rm.res x).rStart :=
    BitVec.eq_of_toNat_eq (congrArg Prod.fst hseg)
  have hend : ((intRmanActivateResource rm r).1.res x).rEnd = (rm.res x).rEnd :=
    BitVec.eq_of_toNat_eq (congrArg Prod.snd hseg)
  constructor
  · rintro ⟨h1, h2, h3, h4, h5⟩
    rw [hstart] at h1 h2 h4 h5
    rw [hend] at h1 h3 h5; exact ⟨h1, h2, h3, h4, h5⟩
  · rintro ⟨h1, h2, h3, h4, h5⟩
    refine ⟨?_, ?_, ?_, ?_, ?_⟩ <;> simp only [hstart, hend] <;> assumption

/-- What `rman_reserve_resource_bound` returns up to the label `out`. -/
theorem granted_of_reserveEntry (hI : Inv s) (hq : q.WellPosed) (hfit : FitsWindow s.rm q)
    {fuel rv : ℕ}
    (h : reserveEntry s.rm q fuel malloc1 malloc2 = some (rm', some rv)) :
    Granted q (rm'.res rv) := by
  rcases reserveEntry_cases hI h with ⟨-, h⟩ | ⟨e, rstart, rv', hrv, hun, -, ht⟩ |
    ⟨e, rv', hrv, -, hsh, -, ha⟩
  · cases h
  · obtain rfl := some.inj hrv
    cases fuel with
    | zero =>
      -- without a round the search ends before it finds an entry
      exfalso
      have hzero : ∀ l : List ℕ, findUnshared s.rm q 0 l ≠ some (some (e, rstart)) := by
        intro l
        induction l with
        | nil => simp [findUnshared]
        | cons a l ih =>
          rw [findUnshared]
          split_ifs
          · simp
          · exact ih
          · simp [adjust]
      exact hzero _ hun
    | succ fuel =>
      rw [findUnshared_eq hq, Option.some.injEq, map_eq_some_iff] at hun
      obtain ⟨e', he', hpair⟩ := hun
      obtain ⟨rfl, rfl⟩ := Prod.mk.injEq _ _ _ _ ▸ hpair
      exact (granted_iff_of_taken hI hq he' ht).2 hfit
  · obtain rfl := some.inj hrv
    have hle : (s.rm.res e).rStart ≤ (s.rm.res e).rEnd :=
      hI.ordered.nonempty _ (mem_map.2 ⟨e, hsh.mem, rfl⟩)
    have hent := hI.entry e hsh.mem
    obtain ⟨h', hj⟩ := addSharer_joined hent.lt_brk (fun h hh => (hent.share h hh).lt_brk) ha
    have hseg := hj.new.2.1
    have hstart : (rm'.res rv).rStart = (s.rm.res e).rStart :=
      BitVec.eq_of_toNat_eq (congrArg Prod.fst hseg)
    have hend : (rm'.res rv).rEnd = (s.rm.res e).rEnd :=
      BitVec.eq_of_toNat_eq (congrArg Prod.snd hseg)
    refine (sharable_iff hq (by rw [hstart, hend]; exact hle)).1 ?_
    have hs := hsh.sharable
    unfold sharable at hs ⊢
    rw [hstart, hend]; exact hs

/-- The accepted entry is handed out when there is memory. -/
theorem reserve_of_firstAccepted (hI : Inv s) (hq : q.WellPosed)
    (he : firstAccepted s.rm q = some e) :
    ∃ rm₁ rv rm', takeUnshared s.rm q e (adjustedStart s.rm q e) true true = (rm₁, some rv) ∧
      rmanReserveResourceBound s.rm q 1 true true = some (rm', some rv) ∧
      (rm' = rm₁ ∨ rm' = (intRmanActivateResource rm₁ rv).1) := by
  obtain ⟨hacc, hmem⟩ := accepts_of_firstAccepted he
  obtain ⟨rm₁, rv, ht⟩ := takeUnshared_some s.rm q e (adjustedStart s.rm q e)
  have hent : reserveEntry s.rm q 1 true true = some (rm₁, some rv) := by
    have hun := findUnshared_eq hq s.rm 0 (candidates s.rm q)
    unfold reserveEntry
    rw [← candidates]
    dsimp only
    rw [hun, ← firstAccepted, he]; exact congrArg some ht
  have hhead : (rm₁.res rv).rSharehead = none := by
    rcases takeUnshared_range (hI.entry e hmem).lt_brk ht with
      ⟨-, -, hh, -, -⟩ | ⟨-, hh, -, -⟩
    · rw [hh]; exact hI.head_of_free hmem hacc.1
    · exact hh
  refine ⟨rm₁, rv, ?_⟩
  unfold rmanReserveResourceBound
  rw [hent]
  dsimp only
  by_cases hact : q.flags &&& rfActive ≠ 0
  · rw [if_pos hact]
    rcases intRmanActivateResource_cases rm₁ rv with ha | ⟨-, h, hh⟩
    · exact ⟨_, ht, by rw [ha], .inr (by rw [ha])⟩
    · rw [hhead] at hh
      cases hh
  · rw [if_neg hact]; exact ⟨_, ht, rfl, .inl rfl⟩

/-! ## Runs -/

/-- The condition under which a call keeps `rm_list` in order. -/
def Op.Carves (rm : Rman) : Op → Prop
  | .reserve q fuel malloc1 _ => CarvesInside rm q fuel malloc1
  | .release _ => True
  | .activate _ => True
  | .deactivate _ => True

theorem Inv.step_carves {s t : Sys} {op : Op} (hI : Inv s) (h : s.step op = some t)
    (hop : op.Carves s.rm) : Inv t := by
  cases op with
  | reserve q fuel malloc1 malloc2 => exact (hI.step h hop).1
  | release r =>
    simp only [Sys.step] at h
    split_ifs at h with hr
    obtain ⟨rm', hrel, rfl⟩ := map_eq_some_iff.1 h
    obtain ⟨rm'', h1, h2, -⟩ := hI.release hr
    obtain rfl : rm'' = rm' := some.inj (h1.symm.trans hrel)
    exact h2
  | activate r => exact (hI.step h trivial).1
  | deactivate r => exact (hI.step h trivial).1

/-- In every state that is reached by reservations that carve inside the entries, whatever a
    well-posed request returns is what was asked for exactly when the adjusted start of the first
    accepted entry lies in the window. -/
theorem granted_iff_fitsWindow {rm : Rman} {regions : List (ℕ × ℕ)} {s : Sys}
    (hb : Built rm regions)
    (hrun : Relation.ReflTransGen (fun s t => ∃ op : Op, s.step op = some t ∧ op.Carves s.rm)
      { rm := rm, held := [] } s) {q : Request} (hq : q.WellPosed) :
    (∀ fuel malloc1 malloc2 rm' rv,
      rmanReserveResourceBound s.rm q fuel malloc1 malloc2 = some (rm', some rv) →
        Granted q (rm'.res rv)) ↔ FitsWindow s.rm q := by
  have hI : Inv s := by
    induction hrun with
    | refl => exact hb.inv.1
    | tail _ hstep ih =>
      obtain ⟨op, hop, hc⟩ := hstep
      exact ih.step_carves hop hc
  constructor
  · intro h e he
    obtain ⟨rm₁, rv, rm', ht, hres, hact⟩ := reserve_of_firstAccepted hI hq he
    have hg := h 1 true true rm' rv hres
    have hg₁ : Granted q (rm₁.res rv) := by
      rcases hact with rfl | rfl
      · exact hg
      · exact granted_activate.1 hg
    exact (granted_iff_of_taken hI hq he ht).1 hg₁ e he
  · intro hfit fuel malloc1 malloc2 rm' rv h
    rcases rmanReserveResourceBound_cases h with ⟨h, -⟩ | ⟨rm₁, rv', hent, ⟨h, -⟩ | ⟨hrv, hact⟩⟩
    · cases h
    · cases h
    · obtain rfl := Option.some.inj hrv
      have hg := granted_of_reserveEntry hI hq hfit hent
      rcases hact with rfl | rfl
      · exact hg
      · exact granted_activate.2 hg

/-- Ten addresses from 1 to 10, aligned to 8. -/
def alignedTen : Request :=
  { start := 1, end' := 10, count := 10, bound := 0, flags := 3 <<< 10, dev := 1 }

theorem alignedTen_wellPosed : alignedTen.WellPosed :=
  ⟨by decide, by decide, by decide, .inl rfl, by decide⟩

/-- They are given as 8–17. -/
theorem reserved_past_end : ¬ ∀ (rm : Rman) (regions : List (ℕ × ℕ)) (s : Sys),
    Built rm regions →
    Relation.ReflTransGen (fun s t => ∃ op : Op, s.step op = some t) { rm := rm, held := [] } s →
    ∀ q : Request, q.WellPosed → ∀ fuel malloc1 malloc2 rm' rv,
      rmanReserveResourceBound s.rm q fuel malloc1 malloc2 = some (rm', some rv) →
        Granted q (rm'.res rv) := by
  intro hall
  have hb : Built (rmanManageRegion rmanInit 0 100 true) [(0, 100)] :=
    .manage 0 100 true .init (by decide) (by simp)
  have hres : (rmanReserveResourceBound (rmanManageRegion rmanInit 0 100 true) alignedTen 1 true
      true).map (fun p => p.2.map fun rv => (p.1.res rv).rEnd) = some (some 17) := by decide
  obtain ⟨⟨rm', o⟩, hsome, hend⟩ := Option.map_eq_some_iff.1 hres
  obtain ⟨rv, rfl, hend⟩ := Option.map_eq_some_iff.1 hend
  have hg := hall _ _ _ hb .refl alignedTen alignedTen_wellPosed 1 true true rm' rv hsome
  have hle := hg.le_end
  rw [hend] at hle; exact absurd hle (by decide)

/-- Four addresses in the first region, after four others have been taken there. -/
theorem granted_second :
    ∃ t, twoRegions.run [.reserve (firstAddresses 4 0) 1 true true] = some t ∧
      ((∀ fuel malloc1 malloc2 rm' rv,
        rmanReserveResourceBound t.rm (firstAddresses 4 0) fuel malloc1 malloc2 =
          some (rm', some rv) → Granted (firstAddresses 4 0) (rm'.res rv)) ↔
        FitsWindow t.rm (firstAddresses 4 0)) := by
  have hstep : (twoRegions.step (.reserve (firstAddresses 4 0) 1 true true)).isSome := by decide
  obtain ⟨t, ht⟩ := Option.isSome_iff_exists.1 hstep
  exact ⟨t, by rw [Sys.run, ht]; rfl, granted_iff_fitsWindow built_twoRegions
    (Relation.ReflTransGen.single ⟨_, ht, carvesInside_firstAddresses true⟩)
    ⟨by decide, by decide, by decide, .inl rfl, by decide⟩⟩

end FreeBSD.SubrRman
