import FreeBSD.Lib.LongDiv

/-!
# Long division of quads

`shl` and `__qdivrem` of `libkern/qdivrem.c` (lines 60–278), for a `u_long` of 32 bits and a `digit`
of 16. A result `none` is an index outside of the five digits of an array, a product, a sum or a
shift that does not fit, a count below zero, or a digit that is cut off. The difference of D4 is
meant to wrap around: there the result is `none` if the borrow is not its upper half.

The arrays start with what happens to be in them.

Results:
* `mulSub_spec`, `addBack_spec`: D4 and D6 on the digits below the first.
* `estimate_window`: the estimate of D3 is exact or one too large.
* `digitStep_spec`: after D6 it is exact.
-/

namespace FreeBSD.QDivRem

/-! ## Words and digits -/

/-- The digit base, with `HALF_BITS` 16. -/
def B : ℕ := 1 <<< 16

def HHALF (x : ℕ) : ℕ := x >>> 16

def LHALF (x : ℕ) : ℕ := x &&& (1 <<< 16 - 1)

/-- A result that fits a `u_long`. -/
def ulong (x : ℕ) : Option ℕ := if x < 2 ^ 32 then some x else none

/-- A shift that fits an `int`, to which digits are promoted. -/
def shiftInt (x sh : ℕ) : Option ℕ := if x <<< sh < 2 ^ 31 then some (x <<< sh) else none

/-- `COMBINE`: two digits. -/
def COMBINE (a b : ℕ) : Option ℕ := if a < B ∧ b < B then some (a <<< 16 ||| b) else none

/-- A `digit` array. -/
abbrev Digits := ℕ → ℕ

def rd (a : Digits) (i : ℕ) : Option ℕ := if i < 5 then some (a i) else none

def wr (a : Digits) (i x : ℕ) : Option Digits :=
  if i < 5 ∧ x < B then some (Function.update a i x) else none

/-! ## Shifts -/

/-- `shl(&p[i], len, sh)`. -/
def shl (sh : ℕ) : ℕ → ℕ → Digits → Option Digits
  | 0, i, p => do
    let x ← shiftInt (← rd p i) sh
    wr p i (LHALF x)
  | len + 1, i, p => do
    let x ← shiftInt (← rd p i) sh
    let y ← rd p (i + 1)
    let p ← wr p i (LHALF x ||| y >>> (16 - sh))
    shl sh len (i + 1) p

/-- The loop of lines 265–267, with `k` digits left above `i`. -/
def shrLoop (d i : ℕ) : ℕ → Digits → Option Digits
  | 0, u => some u
  | k + 1, u => do
    let x ← rd u (i + (k + 1))
    let y ← shiftInt (← rd u (i + k)) (16 - d)
    let u ← wr u (i + (k + 1)) (x >>> d ||| LHALF y)
    shrLoop d i k u

/-! ## A quotient digit -/

/-- The loop of D3 (lines 208–213), entered at `qhat_too_big` if `big` holds. -/
def qhatLoop (v1 v2 uj2 : ℕ) : ℕ → Bool → ℕ → ℕ → Option ℕ
  | 0, _, _, _ => none
  | rounds + 1, big, qhat, rhat => do
    let big ← if big then some true
      else do
        let p ← ulong (v2 * qhat)
        let r ← COMBINE rhat uj2
        some (decide (r < p))
    if big then
      if qhat = 0 then none
      else
        let rhat ← ulong (rhat + v1)
        if B ≤ rhat then some (qhat - 1) else qhatLoop v1 v2 uj2 rounds false (qhat - 1) rhat
    else some qhat

/-- D3 (lines 196–213). Two rounds correct the estimate. -/
def estimate (v1 v2 uj0 uj1 uj2 : ℕ) : Option ℕ :=
  if uj0 = v1 then qhatLoop v1 v2 uj2 3 true B uj1
  else do
    let nn ← COMBINE uj0 uj1
    if v1 = 0 then none else qhatLoop v1 v2 uj2 3 false (nn / v1) (nn % v1)

/-- `x - p - t` as a `u_long`, whose negated upper half is the borrow. -/
def borrowSub (x p t : ℕ) : Option ℕ :=
  if p + t ≤ x + (B - 1) * B then some (((x - p - t : ℤ) % 2 ^ 32).toNat) else none

/-- The loop of D4 (lines 220–224), with `i` digits left: the window is at `uj`, the divisor at
    `vo`. -/
def mulSub (v : Digits) (vo uj qhat : ℕ) : ℕ → ℕ → Digits → Option (Digits × ℕ)
  | 0, t, u => some (u, t)
  | i + 1, t, u => do
    let p ← ulong ((← rd v (vo + (i + 1))) * qhat)
    let t ← borrowSub (← rd u (uj + (i + 1))) p t
    let u ← wr u (uj + (i + 1)) (LHALF t)
    mulSub v vo uj qhat i ((B - HHALF t) &&& (B - 1)) u

/-- The loop of D6 (lines 235–239). -/
def addBack (v : Digits) (vo uj : ℕ) : ℕ → ℕ → Digits → Option (Digits × ℕ)
  | 0, t, u => some (u, t)
  | i + 1, t, u => do
    let t ← ulong (t + (← rd u (uj + (i + 1))) + (← rd v (vo + (i + 1))))
    let u ← wr u (uj + (i + 1)) (LHALF t)
    addBack v vo uj i (HHALF t) u

/-- D3 to D6 for the window at `uj`: the digits, and the quotient digit. -/
def digitStep (v : Digits) (vo n uj : ℕ) (u : Digits) : Option (Digits × ℕ) := do
  let v1 ← rd v (vo + 1)
  let v2 ← rd v (vo + 2)
  let qhat ← estimate v1 v2 (← rd u uj) (← rd u (uj + 1)) (← rd u (uj + 2))
  let (u, t) ← mulSub v vo uj qhat n 0 u
  let t ← borrowSub (← rd u uj) 0 t
  let u ← wr u uj (LHALF t)
  if HHALF t ≠ 0 then
    if qhat = 0 then none
    else
      let (u, t) ← addBack v vo uj n 0 u
      let u ← wr u uj (LHALF (← ulong ((← rd u uj) + t)))
      some (u, qhat - 1)
  else some (u, qhat)

/-- The loop of lines 188–244, with `k` rounds left from the window at `uj` and the digit `qj`
    on. -/
def mainLoop (v : Digits) (vo n : ℕ) : ℕ → ℕ → ℕ → Digits → Digits → Option (Digits × Digits)
  | 0, _, _, u, q => some (u, q)
  | k + 1, uj, qj, u, q => do
    let (u, qhat) ← digitStep v vo n uj u
    let q ← wr q qj qhat
    mainLoop v vo n k (uj + 1) (qj + 1) u q

/-! ## The division -/

/-- A quad in the digits 1 to 4 (lines 127–138). -/
def digitsOf (x : ℕ) (a : Digits) : Digits :=
  let hi := x / 2 ^ 32
  let lo := x % 2 ^ 32
  fun i =>
    if i = 1 then HHALF hi else if i = 2 then LHALF hi
    else if i = 3 then HHALF lo else if i = 4 then LHALF lo else a i

/-- The quad in the digits 1 to 4 (lines 270–277). -/
def quadOf (a : Digits) : Option ℕ := do
  let hi ← COMBINE (← rd a 1) (← rd a 2)
  let lo ← COMBINE (← rd a 3) (← rd a 4)
  some (hi * 2 ^ 32 + lo)

/-- The division by one digit (lines 143–168). -/
def divDigit (u : Digits) (t : ℕ) : Option (ℕ × ℕ) := do
  if t = 0 then none
  else
    let u1 ← rd u 1
    let rbj ← COMBINE (u1 % t) (← rd u 2)
    let q2 := rbj / t
    let rbj ← COMBINE (rbj % t) (← rd u 3)
    let q3 := rbj / t
    let rbj ← COMBINE (rbj % t) (← rd u 4)
    let q4 := rbj / t
    let hi ← COMBINE (u1 / t) q2
    let lo ← COMBINE q3 q4
    some (hi * 2 ^ 32 + lo, rbj % t)

/-- The loop of line 139: `n` and the offset of `v`, or the one digit of the divisor. -/
def countV (v : Digits) : ℕ → ℕ → Option ((ℕ × ℕ) ⊕ ℕ)
  | 0, _ => none
  | n + 1, vo => do
    if (← rd v (vo + 1)) ≠ 0 then some (.inl (n + 1, vo))
    else if n = 1 then (rd v (vo + 2)).map .inr
    else countV v n (vo + 1)

/-- The loop of line 176: `m` and the offset of `u`. -/
def countU (u : Digits) : ℕ → ℕ → Option (ℕ × ℕ)
  | m, uo => do
    if (← rd u (uo + 1)) ≠ 0 then some (m, uo)
    else
      match m with
      | 0 => none
      | m + 1 => countU u m (uo + 1)

/-- The loop of line 178. -/
def zeroQ : ℕ → Digits → Option Digits
  | 0, q => some q
  | i + 1, q => do
    let q ← wr q i 0
    zeroQ i q

/-- The loop of D1 (lines 188–189). -/
def normLoop : ℕ → ℕ → ℕ → Option ℕ
  | 0, _, _ => none
  | rounds + 1, t, d => if t < B / 2 then normLoop rounds (t <<< 1) (d + 1) else some d

/-- A shift of D1 (lines 190–193). -/
def normalize (d len i : ℕ) (a : Digits) : Option Digits :=
  if 0 < d then shl d len i a else some a

/-- The shift back of the remainder (lines 263–269). -/
def denormalize (d uo m n : ℕ) (u : Digits) : Option Digits :=
  if d ≠ 0 then do
    let u ← shrLoop d (uo + m) n u
    wr u (uo + m) 0
  else some u

/-- Program D (lines 176–277), for a divisor of `n` digits at `vo`. -/
def programD (u v q : Digits) (n vo : ℕ) : Option (ℕ × ℕ) := do
  if 4 < n then none
  else
    let (m, uo) ← countU u (4 - n) 0
    let q ← zeroQ (4 - m) q
    let d ← normLoop 17 (← rd v (vo + 1)) 0
    let u ← normalize d (m + n) uo u
    let v ← normalize d (n - 1) (vo + 1) v
    let (u, q) ← mainLoop v vo n (m + 1) uo (4 - m) u q
    let u ← denormalize d uo m n u
    let rem ← quadOf u
    let quo ← quadOf q
    some (quo, rem)

/-- `__qdivrem`: the quotient, and what it stores in `*arq`. The arrays hold `junk` before. -/
def qdivrem (junk : Fin 3 → Digits) (uq vq : BitVec 64) : Option (BitVec 64 × BitVec 64) :=
  if vq = 0 then none
  else if uq < vq then some (0, uq)
  else do
    let u := Function.update (digitsOf uq.toNat (junk 0)) 0 0
    let v := digitsOf vq.toNat (junk 1)
    let r ← match ← countV v 4 0 with
      | .inl (n, vo) => programD u v (junk 2) n vo
      | .inr t => divDigit u t
    some (BitVec.ofNat 64 r.1, BitVec.ofNat 64 r.2)

/-! ## Words -/

open Lib Function Option

theorem B_eq : B = 65536 := rfl

theorem HHALF_eq (x : ℕ) : HHALF x = x / 65536 := Nat.shiftRight_eq_div_pow x 16

theorem LHALF_eq (x : ℕ) : LHALF x = x % 65536 := Nat.and_two_pow_sub_one_eq_mod x 16

theorem ulong_eq {x : ℕ} (h : x < 2 ^ 32) : ulong x = some x := if_pos h

theorem COMBINE_eq {a b : ℕ} (ha : a < B) (hb : b < B) : COMBINE a b = some (a * B + b) := by
  unfold COMBINE
  rw [if_pos ⟨ha, hb⟩, ← Nat.shiftLeft_add_eq_or_of_lt hb, Nat.shiftLeft_eq]; rfl

theorem rd_eq {a : Digits} {i : ℕ} (h : i < 5) : rd a i = some (a i) := if_pos h

theorem wr_eq {a : Digits} {i x : ℕ} (h : i < 5) (hx : x < B) :
    wr a i x = some (update a i x) := if_pos ⟨h, hx⟩

/-- The digits from `i` up to `j`, with `j` left out, are digits. -/
def Ok (a : Digits) (i j : ℕ) : Prop := ∀ k, i ≤ k → k < j → a k < B

theorem Ok.update {a : Digits} {i j k x : ℕ} (h : Ok a i j) (hx : x < B) :
    Ok (update a k x) i j := by
  intro l hl hl'
  by_cases hk : l = k
  · rw [hk, update_self]; exact hx
  · rw [update_of_ne hk]; exact h l hl hl'

theorem Ok.mono {a : Digits} {i j k l : ℕ} (h : Ok a i j) (hk : i ≤ k) (hl : l ≤ j) : Ok a k l :=
  fun x hx hx' => h x (hk.trans hx) (hx'.trans_le hl)

/-! ## Shifts of digits -/

section Shifts

variable {sh : ℕ} {p : Digits} {i j len : ℕ}

theorem two_pow_split (h : sh ≤ 16) : B = 2 ^ sh * 2 ^ (16 - sh) := by
  rw [← pow_add, Nat.add_sub_cancel' h]; rfl

theorem shiftInt_eq {x : ℕ} (hx : x < B) (h : sh < 16) : shiftInt x sh = some (x * 2 ^ sh) := by
  have hpow : 2 ^ sh ≤ 2 ^ 15 := Nat.pow_le_pow_right two_pos (by omega)
  have hlt : x * 2 ^ sh < 2 ^ 31 := by
    calc x * 2 ^ sh ≤ 65535 * 2 ^ 15 := Nat.mul_le_mul (by rw [B_eq] at hx; omega) hpow
      _ < 2 ^ 31 := by norm_num
  unfold shiftInt
  rw [Nat.shiftLeft_eq, if_pos hlt]

/-- What stays of a digit that is shifted to the left. -/
theorem LHALF_shift (x : ℕ) (h : sh ≤ 16) : LHALF (x * 2 ^ sh) = x % 2 ^ (16 - sh) * 2 ^ sh := by
  rw [LHALF_eq, ← B_eq, two_pow_split h, mul_comm x, Nat.mul_mod_mul_left, mul_comm]

theorem shift_or {x y : ℕ} (hy : y < 2 ^ sh) : x * 2 ^ sh ||| y = x * 2 ^ sh + y := by
  rw [← Nat.shiftLeft_eq, Nat.shiftLeft_add_eq_or_of_lt hy]

theorem shift_lt {x y : ℕ} (h : sh ≤ 16) (hx : x < 2 ^ (16 - sh)) (hy : y < 2 ^ sh) :
    x * 2 ^ sh + y < B := by
  calc x * 2 ^ sh + y < x * 2 ^ sh + 2 ^ sh := by omega
    _ = (x + 1) * 2 ^ sh := (Nat.succ_mul _ _).symm
    _ ≤ 2 ^ (16 - sh) * 2 ^ sh := Nat.mul_le_mul_right _ hx
    _ = B := by rw [mul_comm, ← two_pow_split h]

theorem shl_digits (hsh : sh < 16) (hi : i + len < 5) (hp : Ok p i (i + len + 1)) :
    ∃ p', shl sh len i p = some p' ∧
      (∀ j, i ≤ j → j < i + len → p' j = p j % 2 ^ (16 - sh) * 2 ^ sh + p (j + 1) / 2 ^ (16 - sh)) ∧
      p' (i + len) = p (i + len) % 2 ^ (16 - sh) * 2 ^ sh ∧
      (∀ j, j < i ∨ i + len < j → p' j = p j) ∧ Ok p' i (i + len + 1) := by
  have hmod : ∀ x, x % 2 ^ (16 - sh) < 2 ^ (16 - sh) := fun x => Nat.mod_lt x (by positivity)
  have hdiv : ∀ j, i ≤ j → j < i + len + 1 → p j / 2 ^ (16 - sh) < 2 ^ sh := by
    intro j hj hj'
    apply Nat.div_lt_of_lt_mul
    rw [mul_comm, ← two_pow_split hsh.le]; exact hp j hj hj'
  induction len generalizing i p with
  | zero =>
    have hlow : p i % 2 ^ (16 - sh) * 2 ^ sh < B := shift_lt hsh.le (hmod _) (by positivity)
    refine ⟨update p i (p i % 2 ^ (16 - sh) * 2 ^ sh), ?_, ?_, ?_, ?_, hp.update hlow⟩
    · rw [shl, rd_eq (by omega), bind_eq_bind, bind_some,
        shiftInt_eq (hp i (le_refl i) (by omega)) hsh]
      show wr p i (LHALF _) = _
      rw [LHALF_shift _ hsh.le, wr_eq (by omega) hlow]
    · intro j hj hj'; omega
    · exact update_self _ _ _
    · intro j hj; exact update_of_ne (by omega) _ _
  | succ len ih =>
    set x := p i % 2 ^ (16 - sh) * 2 ^ sh + p (i + 1) / 2 ^ (16 - sh) with hx
    have hnext := hdiv (i + 1) (by omega) (by omega)
    have hlow : x < B := shift_lt hsh.le (hmod _) hnext
    have hrest : ∀ j, i + 1 ≤ j → update p i x j = p j := fun j hj =>
      update_of_ne (by omega) _ _
    obtain ⟨p', hp', hmid, hlast, hout, hok⟩ := @ih (update p i x) (i + 1) (by omega)
      ((hp.update hlow).mono (by omega) (by omega)) (by
        intro j hj hj'
        rw [hrest j hj]
        exact hdiv j (by omega) (by omega))
    have hself : p' i = x := by
      rw [hout i (by omega), update_self]
    refine ⟨p', ?_, ?_, ?_, ?_, ?_⟩
    · rw [shl, rd_eq (by omega), bind_eq_bind, bind_some,
        shiftInt_eq (hp i (le_refl i) (by omega)) hsh, rd_eq (by omega)]
      show (wr p i (LHALF _ ||| _)).bind _ = _
      rw [LHALF_shift _ hsh.le, Nat.shiftRight_eq_div_pow, shift_or hnext, ← hx,
        wr_eq (by omega) hlow]
      exact hp'
    · intro j hj hj'
      by_cases heq : j = i
      · rw [heq]; exact hself
      · rw [hmid j (by omega) (by omega), hrest j (by omega), hrest (j + 1) (by omega)]
    · rw [show i + (len + 1) = i + 1 + len by omega, hlast, hrest _ (by omega)]
    · intro j hj
      rw [hout j (by omega)]
      exact update_of_ne (by omega) _ _
    · intro j hj hj'
      by_cases heq : j = i
      · rw [heq, hself]; exact hlow
      · exact hok j (by omega) (by omega)

/-- If nothing falls out at the left, `shl` multiplies by `2 ^ sh`. -/
theorem shl_spec (hsh : sh < 16) (hi : i + len < 5) (hp : Ok p i (i + len + 1))
    (hfirst : p i < 2 ^ (16 - sh)) :
    ∃ p', shl sh len i p = some p' ∧
      digitVal B p' i (len + 1) = digitVal B p i (len + 1) * 2 ^ sh ∧
      (∀ j, j < i ∨ i + len < j → p' j = p j) ∧ Ok p' i (i + len + 1) := by
  obtain ⟨p', hp', hmid, hlast, hout, hok⟩ := shl_digits hsh hi hp
  refine ⟨p', hp', ?_, hout, hok⟩
  have hB := two_pow_split hsh.le
  have hshift := shiftLeft_digits hB hmid
  rw [Nat.div_eq_of_lt hfirst, zero_mul, add_zero] at hshift
  rw [digitVal, hshift, hlast, digitVal]
  have hsplit := Nat.div_add_mod' (p (i + len)) (2 ^ (16 - sh))
  calc (digitVal B p i len * 2 ^ sh + p (i + len) / 2 ^ (16 - sh)) * B +
        p (i + len) % 2 ^ (16 - sh) * 2 ^ sh
      = digitVal B p i len * B * 2 ^ sh + (p (i + len) / 2 ^ (16 - sh) * 2 ^ (16 - sh) +
          p (i + len) % 2 ^ (16 - sh)) * 2 ^ sh := by
        conv_lhs => rw [add_mul, hB]
        rw [hB]; ring
    _ = (digitVal B p i len * B + p (i + len)) * 2 ^ sh := by rw [hsplit]; ring

theorem shr_digits {d k : ℕ} {u : Digits} (hd : 0 < d) (hd' : d < 16) (hi : i + k < 5)
    (hu : Ok u i (i + k + 1)) :
    ∃ u', shrLoop d i k u = some u' ∧
      (∀ j, i ≤ j → j < i + k → u' (j + 1) = u (j + 1) / 2 ^ d + u j % 2 ^ d * 2 ^ (16 - d)) ∧
      (∀ j, j ≤ i ∨ i + k < j → u' j = u j) ∧ Ok u' i (i + k + 1) := by
  induction k generalizing u with
  | zero => exact ⟨u, rfl, fun j hj hj' => by omega, fun j _ => rfl, hu⟩
  | succ k ih =>
    have hback : 16 - (16 - d) = d := by omega
    have hx := hu (i + (k + 1)) (by omega) (by omega)
    have hhigh : u (i + (k + 1)) / 2 ^ d < 2 ^ (16 - d) := by
      apply Nat.div_lt_of_lt_mul
      rw [← two_pow_split hd'.le]; exact hx
    set x := u (i + (k + 1)) / 2 ^ d + u (i + k) % 2 ^ d * 2 ^ (16 - d) with hxdef
    have hlow : x < B := by
      rw [hxdef, add_comm]
      apply shift_lt (by omega) _ hhigh
      rw [hback]; exact Nat.mod_lt _ (by positivity)
    have hrest : ∀ j, j < i + (k + 1) → update u (i + (k + 1)) x j = u j := fun j hj =>
      update_of_ne (by omega) _ _
    obtain ⟨u', hu', hmid, hout, hok⟩ := @ih (update u (i + (k + 1)) x) (by omega)
      ((hu.update hlow).mono (le_refl i) (by omega))
    have hself : u' (i + (k + 1)) = x := by
      rw [hout _ (by omega), update_self]
    refine ⟨u', ?_, ?_, ?_, ?_⟩
    · rw [shrLoop, rd_eq (by omega), rd_eq (by omega), bind_eq_bind, bind_some,
        bind_eq_bind, bind_some,
        shiftInt_eq (hu (i + k) (by omega) (by omega)) (show 16 - d < 16 by omega)]
      show (wr u (i + (k + 1)) (_ ||| LHALF _)).bind _ = _
      rw [LHALF_shift _ (by omega), hback, Nat.shiftRight_eq_div_pow, Nat.or_comm, shift_or hhigh,
        add_comm (u (i + k) % 2 ^ d * 2 ^ (16 - d)), ← hxdef, wr_eq (by omega) hlow]
      exact hu'
    · intro j hj hj'
      by_cases heq : j = i + k
      · rw [heq]; exact hself
      · rw [hmid j hj (by omega), hrest j (by omega), hrest (j + 1) (by omega)]
    · intro j hj
      rw [hout j (by omega)]
      exact update_of_ne (by omega) _ _
    · intro j hj hj'
      by_cases heq : j = i + (k + 1)
      · rw [heq, hself]; exact hlow
      · exact hok j hj (by omega)

end Shifts

/-! ## The estimate -/

section Estimate

variable {v1 v2 uj0 uj1 uj2 qhat rhat rounds Q U₃ : ℕ} {big : Bool}

/-- The loop of D3 keeps `qhat * v1 + rhat`, and does not go below the digit `Q`. It ends when the
    estimate fits the first digits: the remainder grows by half of the base or more. -/
theorem qhatLoop_spec (hv1 : v1 < B) (hv2 : v2 < B) (huj2 : uj2 < B)
    (hQ : ∀ q, U₃ < q * (v1 * B + v2) → Q < q) (hinv : (qhat * v1 + rhat) * B + uj2 = U₃)
    (hrhat : rhat < B) (hrounds : B ≤ rhat + rounds * v1) (hlow : Q ≤ qhat) (hhigh : qhat ≤ B)
    (hbig : big = true → Q < qhat) (hsmall : big = false → qhat < B) :
    ∃ q, qhatLoop v1 v2 uj2 rounds big qhat rhat = some q ∧
      Q ≤ q ∧ q * (v1 * B + v2) ≤ U₃ ∧ q < B := by
  induction rounds generalizing qhat rhat big with
  | zero => omega
  | succ rounds ih =>
    rw [qhatLoop]
    -- what follows if `qhat` is too large
    have hdec : Q < qhat → ∃ q, (if qhat = 0 then none else
        (ulong (rhat + v1)).bind fun rhat =>
          if B ≤ rhat then some (qhat - 1)
          else qhatLoop v1 v2 uj2 rounds false (qhat - 1) rhat) = some q ∧
        Q ≤ q ∧ q * (v1 * B + v2) ≤ U₃ ∧ q < B := by
      intro hlt
      rw [if_neg (by omega), ulong_eq (by rw [B_eq] at *; omega), bind_some]
      have hkeep : (qhat - 1) * v1 + (rhat + v1) = qhat * v1 + rhat := by
        rw [Nat.sub_mul, one_mul]
        have : 1 * v1 ≤ qhat * v1 := Nat.mul_le_mul_right v1 (by omega)
        omega
      split_ifs with hbreak
      · refine ⟨qhat - 1, rfl, by omega, ?_, by omega⟩
        have hprod : (qhat - 1) * v2 ≤ B * B := Nat.mul_le_mul (by omega) hv2.le
        have hrem : B * B ≤ (rhat + v1) * B := Nat.mul_le_mul_right B hbreak
        calc (qhat - 1) * (v1 * B + v2) = (qhat - 1) * v1 * B + (qhat - 1) * v2 := by ring
          _ ≤ (qhat - 1) * v1 * B + (rhat + v1) * B := by omega
          _ = (qhat * v1 + rhat) * B := by rw [← hkeep]; ring
          _ ≤ U₃ := by omega
      · apply ih (by rw [hkeep]; exact hinv) (by omega) _ (by omega) (by omega)
        · intro h
          cases h
        · intro _; omega
        · rw [Nat.succ_mul] at hrounds; omega
    cases big with
    | true => exact hdec (hbig rfl)
    | false =>
      have hq := hsmall rfl
      have hprod : v2 * qhat < 2 ^ 32 := by
        calc v2 * qhat ≤ 65535 * 65535 := Nat.mul_le_mul (by rw [B_eq] at hv2; omega)
              (by rw [B_eq] at hq; omega)
          _ < 2 ^ 32 := by norm_num
      rw [ulong_eq hprod, COMBINE_eq hrhat huj2]
      show ∃ q, (if decide (rhat * B + uj2 < v2 * qhat) = true then _ else some qhat) = some q ∧ _
      by_cases htest : rhat * B + uj2 < v2 * qhat
      · rw [if_pos (by simpa using htest)]
        apply hdec
        apply hQ
        calc U₃ = qhat * v1 * B + (rhat * B + uj2) := by rw [← hinv]; ring
          _ < qhat * v1 * B + v2 * qhat := by omega
          _ = qhat * (v1 * B + v2) := by ring
      · rw [if_neg (by simpa using htest)]
        refine ⟨qhat, rfl, hlow, ?_, hq⟩
        calc qhat * (v1 * B + v2) = qhat * v1 * B + v2 * qhat := by ring
          _ ≤ qhat * v1 * B + (rhat * B + uj2) := by omega
          _ = U₃ := by rw [← hinv]; ring

/-- The estimate fits the first digits, and is at least the digit. -/
theorem estimate_spec (hv1 : v1 < B) (hv2 : v2 < B) (hnorm : B ≤ 2 * v1) (huj0 : uj0 ≤ v1)
    (huj1 : uj1 < B) (huj2 : uj2 < B)
    (hQ : ∀ q, (uj0 * B + uj1) * B + uj2 < q * (v1 * B + v2) → Q < q) (hQB : Q < B) :
    ∃ q, estimate v1 v2 uj0 uj1 uj2 = some q ∧
      Q ≤ q ∧ q * (v1 * B + v2) ≤ (uj0 * B + uj1) * B + uj2 ∧ q < B := by
  unfold estimate
  split_ifs with heq hzero
  · apply qhatLoop_spec hv1 hv2 huj2 hQ _ huj1 (by omega) hQB.le (le_refl B)
    · exact fun _ => hQB
    · intro h
      cases h
    · rw [heq, mul_comm B v1]
  · rw [COMBINE_eq (by omega) huj1]
    rw [B_eq] at hnorm; omega
  · rw [COMBINE_eq (by omega) huj1]
    have hpos : 0 < v1 := Nat.pos_of_ne_zero hzero
    have hdiv := Nat.div_add_mod' (uj0 * B + uj1) v1
    have hmod := Nat.mod_lt (uj0 * B + uj1) hpos
    have hlt : (uj0 * B + uj1) / v1 < B := by
      apply Nat.div_lt_of_lt_mul
      have : (uj0 + 1) * B ≤ v1 * B := Nat.mul_le_mul_right B (by omega)
      rw [Nat.succ_mul] at this; omega
    apply qhatLoop_spec hv1 hv2 huj2 hQ _ (hmod.trans hv1) (by omega) _ hlt.le
    · intro h
      cases h
    · exact fun _ => hlt
    · rw [hdiv]
    · -- one more than the quotient is too large
      have hnext : uj0 * B + uj1 + 1 ≤ ((uj0 * B + uj1) / v1 + 1) * v1 := by
        rw [Nat.succ_mul]; omega
      apply Nat.lt_succ_iff.1
      apply hQ
      calc (uj0 * B + uj1) * B + uj2 < (uj0 * B + uj1 + 1) * B := by
            rw [Nat.succ_mul]; omega
        _ ≤ ((uj0 * B + uj1) / v1 + 1) * v1 * B := Nat.mul_le_mul_right B hnext
        _ ≤ ((uj0 * B + uj1) / v1 + 1) * (v1 * B + v2) := by
            rw [mul_assoc]; exact Nat.mul_le_mul_left _ (Nat.le_add_right _ _)

end Estimate

/-! ## Multiplication and subtraction -/

/-- The lower half of the difference, and its borrow. -/
theorem borrowSub_spec {x p t : ℕ} (hx : x < B) (hp : p ≤ (B - 1) * (B - 1)) (ht : t < B) :
    ∃ y, borrowSub x p t = some y ∧ LHALF y < B ∧ (B - HHALF y) &&& (B - 1) < B ∧
      LHALF y + p + t = x + ((B - HHALF y) &&& (B - 1)) * B := by
  rw [B_eq] at hx hp ht
  refine ⟨_, if_pos (by rw [B_eq]; omega), ?_⟩
  have hmask : ∀ z, z &&& (B - 1) = z % 65536 := fun z => Nat.and_two_pow_sub_one_eq_mod z 16
  rw [hmask, LHALF_eq, HHALF_eq, B_eq]; omega

/-- Without a product, the borrow is at most one. -/
theorem borrowSub_zero {x t : ℕ} (hx : x < B) (ht : t < B) :
    ∃ y, borrowSub x 0 t = some y ∧ LHALF y < B ∧
      LHALF y + t = x + (if HHALF y ≠ 0 then 1 else 0) * B := by
  rw [B_eq] at hx ht
  refine ⟨_, if_pos (by rw [B_eq]; omega), ?_⟩
  rw [LHALF_eq, HHALF_eq, B_eq]
  split_ifs <;> omega

section Window

variable {v u : Digits} {vo uj n qhat t : ℕ}

/-- D4 subtracts `qhat` times the divisor from the lower digits of the window, up to a borrow. -/
theorem mulSub_spec (hv : Ok v (vo + 1) (vo + n + 1)) (hvo : vo + n < 5) (hq : qhat < B)
    (hu : Ok u (uj + 1) (uj + n + 1)) (huj : uj + n < 5) (ht : t < B) :
    ∃ u' t', mulSub v vo uj qhat n t u = some (u', t') ∧ t' < B ∧
      digitVal B u' (uj + 1) n + qhat * digitVal B v (vo + 1) n + t =
        digitVal B u (uj + 1) n + t' * B ^ n ∧
      (∀ j, j < uj + 1 ∨ uj + n < j → u' j = u j) ∧ Ok u' (uj + 1) (uj + n + 1) := by
  induction n generalizing u t with
  | zero => exact ⟨u, t, rfl, ht, by simp [digitVal], fun j _ => rfl, hu⟩
  | succ n ih =>
    have hvn := hv (vo + (n + 1)) (by omega) (by omega)
    have hun := hu (uj + (n + 1)) (by omega) (by omega)
    have hprod : v (vo + (n + 1)) * qhat ≤ (B - 1) * (B - 1) := Nat.mul_le_mul (by omega) (by omega)
    obtain ⟨y, hy, hlow, hborrow, hsub⟩ := borrowSub_spec hun hprod ht
    set bo := (B - HHALF y) &&& (B - 1) with hbo
    have hrest : ∀ j, j < uj + (n + 1) →
        update u (uj + (n + 1)) (LHALF y) j = u j := fun j hj =>
      update_of_ne (by omega) _ _
    obtain ⟨u', t', hloop, ht', hval, hout, hok⟩ := @ih (update u (uj + (n + 1)) (LHALF y))
      bo (hv.mono le_rfl (by omega)) (by omega)
      ((hu.update hlow).mono le_rfl (by omega)) (by omega) hborrow
    have hself : u' (uj + (n + 1)) = LHALF y := by
      rw [hout _ (by omega), update_self]
    refine ⟨u', t', ?_, ht', ?_, ?_, ?_⟩
    · rw [mulSub, rd_eq (by omega), rd_eq (by omega), bind_eq_bind, bind_some,
        ulong_eq (by rw [B_eq] at hprod; omega)]
      show (borrowSub _ _ _).bind _ = _
      rw [hy]
      show (wr _ _ _).bind _ = _
      rw [wr_eq (by omega) hlow]
      exact hloop
    · rw [digitVal_congr fun j _ hj => hrest j (by omega)] at hval
      rw [digitVal, digitVal, digitVal, show uj + 1 + n = uj + (n + 1) by omega,
        show vo + 1 + n = vo + (n + 1) by omega, hself]
      calc digitVal B u' (uj + 1) n * B + LHALF y +
            qhat * (digitVal B v (vo + 1) n * B + v (vo + (n + 1))) + t
          = (digitVal B u' (uj + 1) n + qhat * digitVal B v (vo + 1) n) * B +
              (LHALF y + v (vo + (n + 1)) * qhat + t) := by ring
        _ = (digitVal B u' (uj + 1) n + qhat * digitVal B v (vo + 1) n + bo) * B +
              u (uj + (n + 1)) := by
            rw [hsub]; ring
        _ = digitVal B u (uj + 1) n * B + u (uj + (n + 1)) + t' * B ^ (n + 1) := by rw [hval]; ring
    · intro j hj
      rw [hout j (by omega)]
      exact update_of_ne (by omega) _ _
    · intro j hj hj'
      by_cases heq : j = uj + (n + 1)
      · rw [heq, hself]; exact hlow
      · exact hok j hj (by omega)

/-- D6 adds the divisor to the lower digits of the window, up to a carry. -/
theorem addBack_spec (hv : Ok v (vo + 1) (vo + n + 1)) (hvo : vo + n < 5)
    (hu : Ok u (uj + 1) (uj + n + 1)) (huj : uj + n < 5) (ht : t ≤ 1) :
    ∃ u' t', addBack v vo uj n t u = some (u', t') ∧ t' ≤ 1 ∧
      digitVal B u' (uj + 1) n + t' * B ^ n =
        digitVal B u (uj + 1) n + digitVal B v (vo + 1) n + t ∧
      (∀ j, j < uj + 1 ∨ uj + n < j → u' j = u j) ∧ Ok u' (uj + 1) (uj + n + 1) := by
  induction n generalizing u t with
  | zero => exact ⟨u, t, rfl, ht, by simp [digitVal], fun j _ => rfl, hu⟩
  | succ n ih =>
    have hvn := hv (vo + (n + 1)) (by omega) (by omega)
    have hun := hu (uj + (n + 1)) (by omega) (by omega)
    set y := t + u (uj + (n + 1)) + v (vo + (n + 1)) with hy
    have hlow : LHALF y < B := by rw [LHALF_eq]; exact Nat.mod_lt _ (by norm_num)
    have hcarry : HHALF y ≤ 1 ∧ LHALF y + HHALF y * B = y := by
      rw [LHALF_eq, HHALF_eq]
      rw [B_eq] at *; omega
    have hrest : ∀ j, j < uj + (n + 1) →
        update u (uj + (n + 1)) (LHALF y) j = u j := fun j hj =>
      update_of_ne (by omega) _ _
    obtain ⟨u', t', hloop, ht', hval, hout, hok⟩ := @ih (update u (uj + (n + 1)) (LHALF y))
      (HHALF y) (hv.mono le_rfl (by omega)) (by omega)
      ((hu.update hlow).mono le_rfl (by omega)) (by omega) hcarry.1
    have hself : u' (uj + (n + 1)) = LHALF y := by
      rw [hout _ (by omega), update_self]
    refine ⟨u', t', ?_, ht', ?_, ?_, ?_⟩
    · rw [addBack, rd_eq (by omega), rd_eq (by omega), bind_eq_bind, bind_some,
        bind_eq_bind, bind_some, ulong_eq (by rw [B_eq] at *; omega)]
      show (wr _ _ _).bind _ = _
      rw [wr_eq (by omega) hlow]
      exact hloop
    · rw [digitVal_congr fun j _ hj => hrest j (by omega)] at hval
      rw [digitVal, digitVal, digitVal, show uj + 1 + n = uj + (n + 1) by omega,
        show vo + 1 + n = vo + (n + 1) by omega, hself]
      calc digitVal B u' (uj + 1) n * B + LHALF y + t' * B ^ (n + 1)
          = (digitVal B u' (uj + 1) n + t' * B ^ n) * B + LHALF y := by ring
        _ = (digitVal B u (uj + 1) n + digitVal B v (vo + 1) n) * B +
              (LHALF y + HHALF y * B) := by
            rw [hval]; ring
        _ = digitVal B u (uj + 1) n * B + u (uj + (n + 1)) +
              (digitVal B v (vo + 1) n * B + v (vo + (n + 1))) + t := by
            rw [hcarry.2, hy]; ring
    · intro j hj
      rw [hout j (by omega)]
      exact update_of_ne (by omega) _ _
    · intro j hj hj'
      by_cases heq : j = uj + (n + 1)
      · rw [heq, hself]; exact hlow
      · exact hok j hj (by omega)

end Window

/-! ## A step -/

/-- A divisor of two digits or more, shifted so that the first one is at least `B / 2`. -/
structure Divisor (v : Digits) (vo n : ℕ) : Prop where
  two_le : 2 ≤ n
  offset : vo + n = 4
  ok : Ok v (vo + 1) 5
  normal : B ≤ 2 * v (vo + 1)

section Step

variable {v u : Digits} {vo uj n W V : ℕ}

/-- In a window below `V * B`, the estimate of D3 is the quotient digit or one more. -/
theorem estimate_window (hv : Divisor v vo n) (huj : uj + n < 5) (hu : Ok u uj (uj + n + 1))
    (hW : digitVal B u uj (n + 1) < digitVal B v (vo + 1) n * B) :
    ∃ q, estimate (v (vo + 1)) (v (vo + 2)) (u uj) (u (uj + 1)) (u (uj + 2)) = some q ∧ q < B ∧
      digitVal B u uj (n + 1) / digitVal B v (vo + 1) n ≤ q ∧
      q ≤ digitVal B u uj (n + 1) / digitVal B v (vo + 1) n + 1 := by
  obtain ⟨htwo, hoff, hok, hnorm⟩ := hv
  obtain ⟨k, rfl⟩ : ∃ k, n = 2 + k := ⟨n - 2, by omega⟩
  have hv1 := hok (vo + 1) (by omega) (by omega)
  have hv2 := hok (vo + 2) (by omega) (by omega)
  have hu1 := hu (uj + 1) (by omega) (by omega)
  have hu2 := hu (uj + 2) (by omega) (by omega)
  have hs : 0 < B ^ k := pow_pos (by rw [B_eq]; norm_num) k
  set V := digitVal B v (vo + 1) (2 + k) with hVdef
  set W := digitVal B u uj (2 + k + 1) with hWdef
  set V₃ := v (vo + 1) * B + v (vo + 2) with hV₃
  set U₃ := (u uj * B + u (uj + 1)) * B + u (uj + 2) with hU₃
  have hVval : V = V₃ * B ^ k + digitVal B v (vo + 1 + 2) k := by
    rw [hVdef, digitVal_add]; simp [digitVal, hV₃]
  have hWval : W = U₃ * B ^ k + digitVal B u (uj + 3) k := by
    rw [hWdef, show 2 + k + 1 = 3 + k by omega, digitVal_add]
    simp [digitVal, hU₃]
  have hVlow := digitVal_lt (b := B) (hok.mono (show vo + 1 ≤ vo + 1 + 2 by omega)
    (show vo + 1 + 2 + k ≤ 5 by omega))
  have hWlow := digitVal_lt (b := B) (hu.mono (show uj ≤ uj + 3 by omega)
    (show uj + 3 + k ≤ uj + (2 + k) + 1 by omega))
  have hUV : U₃ < (V₃ + 1) * B := by
    by_contra hge
    have hle : (V₃ + 1) * B * B ^ k ≤ U₃ * B ^ k := Nat.mul_le_mul_right _ (by omega)
    have hlt : V * B ≤ (V₃ + 1) * B * B ^ k := by
      calc V * B ≤ (V₃ * B ^ k + B ^ k) * B := Nat.mul_le_mul_right B (by omega)
        _ = (V₃ + 1) * B * B ^ k := by ring
    omega
  have huj0 : u uj ≤ v (vo + 1) := by rw [B_eq] at *; omega
  have hQ : ∀ q, U₃ < q * V₃ → W / V < q := fun q hq =>
    quotient_lt (s := B ^ k) (by rw [Nat.succ_mul]; omega) (by omega) hq
  have hQB : W / V < B := Nat.div_lt_of_lt_mul hW
  obtain ⟨q, hq, hlow, hfit, hqB⟩ := estimate_spec hv1 hv2 hnorm huj0 hu1 hu2 hQ hQB
  refine ⟨q, hq, hqB, hlow, ?_⟩
  apply @le_quotient_succ W V U₃ V₃ q (B ^ k) (by omega) (by rw [Nat.succ_mul]; omega) hfit
  have hqV : q ≤ V₃ := by rw [B_eq] at *; omega
  calc q * B ^ k ≤ V₃ * B ^ k := Nat.mul_le_mul_right _ hqV
    _ ≤ V := by omega

/-- After D6 the digit is exact, and the window holds the remainder. -/
theorem digitStep_spec (hv : Divisor v vo n) (huj : uj + n < 5) (hu : Ok u uj (uj + n + 1))
    (hW : digitVal B u uj (n + 1) < digitVal B v (vo + 1) n * B) :
    ∃ u', digitStep v vo n uj u =
        some (u', digitVal B u uj (n + 1) / digitVal B v (vo + 1) n) ∧
      digitVal B u' uj (n + 1) = digitVal B u uj (n + 1) % digitVal B v (vo + 1) n ∧
      (∀ j, j < uj ∨ uj + n < j → u' j = u j) ∧ Ok u' uj (uj + n + 1) := by
  have htwo := hv.two_le
  have hoff := hv.offset
  obtain ⟨qhat, hest, hqB, hlow, hhigh⟩ := estimate_window hv huj hu hW
  set V := digitVal B v (vo + 1) n with hVdef
  set W := digitVal B u uj (n + 1) with hWdef
  have hVB : V < B ^ n := digitVal_lt (hv.ok.mono (le_refl _) (by omega))
  have hVpos : 0 < V := by
    by_contra hzero
    rw [show V = 0 by omega] at hW
    omega
  have hokv : Ok v (vo + 1) (vo + n + 1) := hv.ok.mono (le_refl _) (by omega)
  obtain ⟨u₁, t₁, hmul, ht₁, hval₁, hout₁, hok₁⟩ := mulSub_spec hokv (by omega) hqB
    (hu.mono (by omega) (le_refl _)) huj (show 0 < B by rw [B_eq]; norm_num)
  have hfirst : u₁ uj = u uj := hout₁ uj (by omega)
  obtain ⟨y, hy, hylow, hysub⟩ := borrowSub_zero (hu uj (le_refl _) (by omega)) ht₁
  set neg := if HHALF y ≠ 0 then 1 else 0 with hneg
  -- the window after D4, in which a negative difference is a complement
  set u₂ := update u₁ uj (LHALF y) with hu₂
  have hrest₂ : ∀ j, j ≠ uj → u₂ j = u₁ j := fun j hj => update_of_ne hj _ _
  have hself₂ : u₂ uj = LHALF y := update_self _ _ _
  have hok₂ : Ok u₂ uj (uj + n + 1) := by
    intro j hj hj'
    by_cases heq : j = uj
    · rw [heq, hself₂]; exact hylow
    · rw [hrest₂ j heq]; exact hok₁ j (by omega) hj'
  have hlow₂ : digitVal B u₂ (uj + 1) n = digitVal B u₁ (uj + 1) n :=
    digitVal_congr fun j hj _ => hrest₂ j (by omega)
  have hsub : digitVal B u₂ uj (n + 1) + qhat * V = W + neg * B ^ (n + 1) := by
    rw [digitVal_cons, hself₂, hlow₂, hWdef, digitVal_cons, pow_succ]
    calc LHALF y * B ^ n + digitVal B u₁ (uj + 1) n + qhat * V
        = LHALF y * B ^ n + (digitVal B u (uj + 1) n + t₁ * B ^ n) := by rw [← hval₁]; ring
      _ = (LHALF y + t₁) * B ^ n + digitVal B u (uj + 1) n := by ring
      _ = u uj * B ^ n + digitVal B u (uj + 1) n + neg * (B ^ n * B) := by rw [hysub]; ring
  have hpow : B ^ (n + 1) = B ^ n * B := pow_succ B n
  have hVM : V ≤ B ^ (n + 1) := by
    rw [hpow]
    have : B ^ n * 1 ≤ B ^ n * B := Nat.mul_le_mul_left _ (by rw [B_eq]; norm_num)
    omega
  have hW₂ : digitVal B u₂ uj (n + 1) < B ^ (n + 1) := digitVal_lt hok₂
  have hneg_le : neg ≤ 1 := by
    rw [hneg]
    split_ifs <;> omega
  have hcases := corrected hneg_le hVpos hlow hhigh hVM hW₂ hsub
  have hrun : digitStep v vo n uj u =
      if HHALF y ≠ 0 then
        if qhat = 0 then none
        else (addBack v vo uj n 0 u₂).bind fun p => do
          let u ← wr p.1 uj (LHALF (← ulong ((← rd p.1 uj) + p.2)))
          some (u, qhat - 1)
      else some (u₂, qhat) := by
    unfold digitStep
    rw [rd_eq (by omega), rd_eq (by omega), rd_eq (by omega), rd_eq (by omega), rd_eq (by omega)]
    show (estimate _ _ _ _ _).bind _ = _
    rw [hest]
    show (mulSub _ _ _ _ _ _ _).bind _ = _
    rw [hmul]
    show (rd u₁ uj).bind _ = _
    rw [rd_eq (by omega), hfirst]
    show (borrowSub _ _ _).bind _ = _
    rw [hy]
    show (wr _ _ _).bind _ = _
    rw [wr_eq (by omega) hylow]
    rfl
  have hout₂ : ∀ j, j < uj ∨ uj + n < j → u₂ j = u j := by
    intro j hj
    rw [hrest₂ j (by omega), hout₁ j (by omega)]
  rcases hcases with ⟨hzero, hq, hrem⟩ | ⟨hone, hq, hrem⟩
  · have hhigh0 : ¬ HHALF y ≠ 0 := by
      intro hne
      rw [hneg, if_pos hne] at hzero
      cases hzero
    exact ⟨u₂, by rw [hrun, if_neg hhigh0, hq], hrem, hout₂, hok₂⟩
  · have hhigh1 : HHALF y ≠ 0 := by
      intro heq
      rw [hneg, if_neg (not_not.2 heq)] at hone
      cases hone
    obtain ⟨u₃, t₃, hadd, ht₃, hval₃, hout₃, hok₃⟩ := addBack_spec hokv (by omega)
      (hok₂.mono (by omega) (le_refl _)) huj (Nat.zero_le 1)
    have hfirst₃ : u₃ uj = LHALF y := by rw [hout₃ uj (by omega), hself₂]
    have hlow₃ := digitVal_lt (hok₃.mono (le_refl _) (show uj + 1 + n ≤ uj + n + 1 by omega))
    have hWV : W % V < V := Nat.mod_lt W hVpos
    -- the first digit and the carry make up the base
    have htotal : (LHALF y + t₃) * B ^ n + digitVal B u₃ (uj + 1) n = B * B ^ n + W % V := by
      rw [digitVal_cons, hself₂] at hrem
      calc (LHALF y + t₃) * B ^ n + digitVal B u₃ (uj + 1) n
          = LHALF y * B ^ n + (digitVal B u₃ (uj + 1) n + t₃ * B ^ n) := by ring
        _ = LHALF y * B ^ n + digitVal B u₂ (uj + 1) n + V := by rw [hval₃]; ring
        _ = B * B ^ n + W % V := by rw [hrem, hpow, Nat.mul_comm]
    have hcarry : LHALF y + t₃ = B := by
      have hle : LHALF y + t₃ ≤ B := by omega
      by_contra hne
      have hmul : (LHALF y + t₃ + 1) * B ^ n ≤ B * B ^ n := Nat.mul_le_mul_right _ (by omega)
      rw [Nat.succ_mul] at hmul; omega
    have hzero : LHALF (LHALF y + t₃) = 0 := by rw [hcarry, LHALF_eq]; rfl
    refine ⟨update u₃ uj 0, ?_, ?_, ?_, ?_⟩
    · rw [hrun, if_pos hhigh1, if_neg (by rw [hq]; exact Nat.succ_ne_zero _), hadd]
      show (rd u₃ uj).bind _ = _
      rw [rd_eq (by omega), hfirst₃]
      show (ulong _).bind _ = _
      rw [ulong_eq (by rw [hcarry, B_eq]; norm_num)]
      show (wr _ _ _).bind _ = _
      rw [hzero, wr_eq (by omega) (by rw [B_eq]; norm_num), hq]
      rfl
    · rw [digitVal_cons, update_self, Nat.zero_mul, Nat.zero_add]
      have hcongr : digitVal B (update u₃ uj 0) (uj + 1) n = digitVal B u₃ (uj + 1) n :=
        digitVal_congr fun j hj _ => update_of_ne (by omega) _ _
      rw [hcongr]
      rw [hcarry] at htotal; omega
    · intro j hj
      rw [update_of_ne (by omega), hout₃ j (by omega), hout₂ j hj]
    · intro j hj hj'
      by_cases heq : j = uj
      · rw [heq, update_self, B_eq]
        norm_num
      · rw [update_of_ne heq]; exact hok₃ j (by omega) hj'

end Step

end FreeBSD.QDivRem
