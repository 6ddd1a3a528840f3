import FreeBSD.Libkern.QDivRem

/-!
# Correctness of the division

Results:
* `mainLoop_spec`: the digits of the quotient, and the remainder.
* `normLoop_spec`, `denormalize_spec`: the shift count, and the shift back.
* `qdivrem_spec`: the quotient and the remainder of all quads.
-/

namespace FreeBSD.QDivRem

open Lib Function

/-! ## The loop on `j` -/

theorem B_pos : 0 < B := by rw [B_eq]; norm_num

section Main

variable {v u q : Digits} {vo uj qj n k : ℕ}

/-- With a remainder below the divisor in the first `n` digits, `k` rounds give `k` digits of the
    quotient, and move the remainder by `k` digits. -/
theorem mainLoop_spec (hv : Divisor v vo n) (huj : uj + n + k ≤ 5) (hqj : qj + k ≤ 5)
    (hu : Ok u uj (uj + n + k)) (hR : digitVal B u uj n < digitVal B v (vo + 1) n) :
    ∃ u' q', mainLoop v vo n k uj qj u q = some (u', q') ∧
      digitVal B q' qj k * digitVal B v (vo + 1) n + digitVal B u' (uj + k) n =
        digitVal B u uj (n + k) ∧
      digitVal B u' (uj + k) n < digitVal B v (vo + 1) n ∧
      (∀ j, j < uj → u' j = u j) ∧ (∀ j, uj ≤ j → j < uj + k → u' j = 0) ∧
      Ok u' uj (uj + n + k) ∧
      (∀ j, j < qj ∨ qj + k ≤ j → q' j = q j) ∧ Ok q' qj (qj + k) := by
  set V := digitVal B v (vo + 1) n with hV
  induction k generalizing uj qj u q with
  | zero =>
    refine ⟨u, q, rfl, by simp [digitVal], hR, fun j _ => rfl, ?_, hu, fun j _ => rfl, ?_⟩
    · intro j hj hj'; omega
    · intro j hj hj'; omega
  | succ k ih =>
    have htwo := hv.two_le
    have hoff := hv.offset
    have hVB : V < B ^ n := digitVal_lt (hv.ok.mono le_rfl (by omega))
    have hVpos : 0 < V := by omega
    have hnext := hu (uj + n) (by omega) (by omega)
    have hW : digitVal B u uj (n + 1) < V * B := by
      rw [digitVal]
      have : (digitVal B u uj n + 1) * B ≤ V * B := Nat.mul_le_mul_right B hR
      rw [Nat.succ_mul] at this; omega
    obtain ⟨u₁, hstep, hval₁, hout₁, hok₁⟩ := digitStep_spec hv (by omega)
      (hu.mono (le_refl uj) (by omega)) hW
    set W := digitVal B u uj (n + 1) with hWdef
    have hrem : W % V < V := Nat.mod_lt W hVpos
    have hqhat : W / V < B := Nat.div_lt_of_lt_mul hW
    -- the first digit of the window is zero now
    have hzero : u₁ uj = 0 := by
      have hlt : digitVal B u₁ uj (1 + n) < B ^ n := by
        rw [add_comm, hval₁]; exact hrem.trans hVB
      rw [← digitVal_one B u₁ uj]; exact digitVal_eq_zero hlt
    have hR₁ : digitVal B u₁ (uj + 1) n = W % V := by
      rw [← hval₁, digitVal_cons, hzero, zero_mul, zero_add]
    have hok : Ok u₁ (uj + 1) (uj + 1 + n + k) := by
      intro j hj hj'
      by_cases hin : j < uj + n + 1
      · exact hok₁ j (by omega) hin
      · rw [hout₁ j (by omega)]
        exact hu j (by omega) (by omega)
    obtain ⟨u', q', hloop, hval, hlt, hbefore, hzeros, hok', hqout, hqok⟩ :=
      @ih u₁ (Function.update q qj (W / V)) (uj + 1) (qj + 1) (by omega) (by omega) hok
        (by rw [hR₁]; exact hrem)
    have hself : q' qj = W / V := by rw [hqout qj (by omega), update_self]
    have hfirst : u' uj = 0 := by rw [hbefore uj (by omega), hzero]
    refine ⟨u', q', ?_, ?_, ?_, ?_, ?_, ?_, ?_, ?_⟩
    · rw [mainLoop, hstep]
      show (wr _ _ _).bind _ = _
      rw [wr_eq (by omega) hqhat]
      exact hloop
    · have htail : digitVal B u₁ (uj + 1 + n) k = digitVal B u (uj + (n + 1)) k := by
        rw [show uj + 1 + n = uj + (n + 1) by omega]
        exact digitVal_congr fun j hj _ => hout₁ j (by omega)
      have hdiv := Nat.div_add_mod' W V
      rw [digitVal_add, hR₁, htail] at hval
      rw [digitVal_cons, hself, show n + (k + 1) = n + 1 + k by omega, digitVal_add, ← hWdef,
        show uj + (k + 1) = uj + 1 + k by omega]
      calc (W / V * B ^ k + digitVal B q' (qj + 1) k) * V + digitVal B u' (uj + 1 + k) n
          = W / V * V * B ^ k +
              (digitVal B q' (qj + 1) k * V + digitVal B u' (uj + 1 + k) n) := by ring
        _ = (W / V * V + W % V) * B ^ k + digitVal B u (uj + (n + 1)) k := by rw [hval]; ring
        _ = W * B ^ k + digitVal B u (uj + (n + 1)) k := by rw [hdiv]
    · rw [show uj + (k + 1) = uj + 1 + k by omega]
      exact hlt
    · intro j hj
      rw [hbefore j (by omega), hout₁ j (by omega)]
    · intro j hj hj'
      by_cases heq : j = uj
      · rw [heq]; exact hfirst
      · exact hzeros j (by omega) (by omega)
    · intro j hj hj'
      by_cases heq : j = uj
      · rw [heq, hfirst]; exact B_pos
      · exact hok' j (by omega) (by omega)
    · intro j hj
      rw [hqout j (by omega)]
      exact update_of_ne (by omega) _ _
    · intro j hj hj'
      by_cases heq : j = qj
      · rw [heq, hself]; exact hqhat
      · exact hqok j (by omega) (by omega)

end Main

/-! ## Normalisation -/

/-- D1 finds the shift that makes the first digit at least `B / 2`. -/
theorem normLoop_spec {rounds t d : ℕ} (hpos : 0 < t) (ht : t < B) (h : B ≤ 2 * (t * 2 ^ rounds)) :
    ∃ e, normLoop (rounds + 1) t d = some (d + e) ∧ B ≤ 2 * (t * 2 ^ e) ∧ t * 2 ^ e < B := by
  induction rounds generalizing t d with
  | zero =>
    rw [normLoop, if_neg (by rw [B_eq] at *; omega)]
    exact ⟨0, rfl, h, by omega⟩
  | succ rounds ih =>
    rw [normLoop]
    split_ifs with hlt
    · have hshift : t <<< 1 = t * 2 := by rw [Nat.shiftLeft_eq, pow_one]
      obtain ⟨e, he, hlow, hhigh⟩ := @ih (t <<< 1) (d + 1) (by omega) (by rw [B_eq] at *; omega)
        (by rw [hshift, mul_assoc, ← pow_succ']; exact h)
      rw [hshift, mul_assoc, ← pow_succ'] at hlow hhigh
      exact ⟨e + 1, by rw [he, add_right_comm, add_assoc], hlow, hhigh⟩
    · exact ⟨0, rfl, by rw [B_eq] at *; omega, by omega⟩

/-- The shift back: the digits before the window and its first digit are zero. -/
theorem denormalize_spec {d uo m n r : ℕ} {u : Digits} (hd : d < 16) (hi : uo + m + n = 4)
    (hu : Ok u (uo + m) 5) (hzero : u (uo + m) = 0)
    (hval : digitVal B u (uo + m + 1) n = r * 2 ^ d) :
    ∃ u', denormalize d uo m n u = some u' ∧ digitVal B u' (uo + m + 1) n = r ∧
      (∀ j, j ≤ uo + m → u' j = u j) ∧ Ok u' (uo + m) 5 := by
  unfold denormalize
  split_ifs with hpos
  · obtain ⟨u₁, hshr, hmid, hout, hok⟩ := shr_digits (Nat.pos_of_ne_zero hpos) hd
      (show uo + m + n < 5 by omega) (hu.mono le_rfl (by omega))
    have hB := two_pow_split hd.le
    have hshift := shiftRight_digits hB hmid
    have hfirst : u₁ (uo + m) = 0 := by rw [hout _ (.inl le_rfl), hzero]
    rw [digitVal_cons, hzero, hval, Nat.zero_div, zero_mul, zero_mul, add_zero,
      zero_add] at hshift
    have hupdate : Function.update u₁ (uo + m) 0 = u₁ := by
      rw [← hfirst]; exact update_eq_self _ _
    refine ⟨u₁, ?_, ?_, fun j hj => hout j (.inl hj), hok.mono le_rfl (by omega)⟩
    · rw [hshr]
      show wr _ _ _ = _
      rw [wr_eq (by omega) B_pos, hupdate]
    · have hmod := Nat.mod_lt (u (uo + m + n)) (show 0 < 2 ^ d by positivity)
      have hle : digitVal B u₁ (uo + m + 1) n ≤ r := by
        apply Nat.le_of_mul_le_mul_right _ (show 0 < 2 ^ d by positivity)
        omega
      have hge : r ≤ digitVal B u₁ (uo + m + 1) n := by
        by_contra hlt
        have hmul : (digitVal B u₁ (uo + m + 1) n + 1) * 2 ^ d ≤ r * 2 ^ d :=
          Nat.mul_le_mul_right _ (by omega)
        rw [Nat.succ_mul] at hmul; omega
      exact le_antisymm hle hge
  · rw [not_not.1 hpos, pow_zero, mul_one] at hval; exact ⟨u, rfl, hval, fun j _ => rfl, hu⟩

/-! ## Quads and digits -/

section Quads

variable {a u v q : Digits} {x t m n uo vo : ℕ}

theorem digitVal_four (a : Digits) :
    digitVal B a 1 4 = ((a 1 * B + a 2) * B + a 3) * B + a 4 := by simp [digitVal]

theorem quadOf_spec (ha : Ok a 1 5) : quadOf a = some (digitVal B a 1 4) := by
  have h1 := ha 1 (by omega) (by omega)
  have h2 := ha 2 (by omega) (by omega)
  have h3 := ha 3 (by omega) (by omega)
  have h4 := ha 4 (by omega) (by omega)
  unfold quadOf
  rw [rd_eq (by omega), rd_eq (by omega), rd_eq (by omega), rd_eq (by omega)]
  show (COMBINE (a 1) (a 2)).bind _ = _
  rw [COMBINE_eq h1 h2]
  show (COMBINE (a 3) (a 4)).bind _ = _
  rw [COMBINE_eq h3 h4]
  have hval : (a 1 * B + a 2) * 2 ^ 32 + (a 3 * B + a 4) = digitVal B a 1 4 := by
    rw [digitVal_four, B_eq]; omega
  exact congrArg some hval

theorem digitsOf_spec (hx : x < 2 ^ 64) (a : Digits) :
    Ok (digitsOf x a) 1 5 ∧ digitVal B (digitsOf x a) 1 4 = x := by
  have h1 : digitsOf x a 1 = x / 2 ^ 32 / 65536 := HHALF_eq _
  have h2 : digitsOf x a 2 = x / 2 ^ 32 % 65536 := LHALF_eq _
  have h3 : digitsOf x a 3 = x % 2 ^ 32 / 65536 := HHALF_eq _
  have h4 : digitsOf x a 4 = x % 2 ^ 32 % 65536 := LHALF_eq _
  constructor
  · intro k hk hk'
    rw [B_eq]
    obtain rfl | rfl | rfl | rfl : k = 1 ∨ k = 2 ∨ k = 3 ∨ k = 4 := by omega
    · rw [h1]; omega
    · rw [h2]; omega
    · rw [h3]; omega
    · rw [h4]; omega
  · rw [digitVal_four, h1, h2, h3, h4, B_eq]; omega

/-- The leading zeros of the divisor. -/
theorem countV_spec (hv : Ok v 1 5) :
    (∃ n vo, countV v 4 0 = some (.inl (n, vo)) ∧ 2 ≤ n ∧ vo + n = 4 ∧ v (vo + 1) ≠ 0 ∧
        digitVal B v (vo + 1) n = digitVal B v 1 4) ∨
      (countV v 4 0 = some (.inr (digitVal B v 1 4)) ∧ digitVal B v 1 4 < B) := by
  have h4 := hv 4 (by omega) (by omega)
  by_cases h1 : v 1 = 0
  · by_cases h2 : v 2 = 0
    · by_cases h3 : v 3 = 0
      · right
        have hval : digitVal B v 1 4 = v 4 := by simp [digitVal, h1, h2, h3]
        rw [hval]
        refine ⟨?_, h4⟩
        simp [countV, rd, h1, h2, h3]
      · left
        refine ⟨2, 2, ?_, by omega, by omega, h3, ?_⟩
        · simp [countV, rd, h1, h2, h3]
        · simp [digitVal, h1, h2]
    · left
      refine ⟨3, 1, ?_, by omega, by omega, h2, ?_⟩
      · simp [countV, rd, h1, h2]
      · simp [digitVal, h1]
  · exact .inl ⟨4, 0, by simp [countV, rd, h1], by omega, by omega, h1, rfl⟩

/-- The leading zeros of the dividend, which has no more than `uo + m` of them. -/
theorem countU_spec (hm : uo + m ≤ 3) (hzero : ∀ j, 1 ≤ j → j ≤ uo → u j = 0)
    (hsome : ∃ j, 1 ≤ j ∧ j ≤ uo + m + 1 ∧ u j ≠ 0) :
    ∃ m' uo', countU u m uo = some (m', uo') ∧ uo' + m' = uo + m ∧
      ∀ j, 1 ≤ j → j ≤ uo' → u j = 0 := by
  induction m generalizing uo with
  | zero =>
    obtain ⟨j, hj, hj', hne⟩ := hsome
    have hlast : u (uo + 1) ≠ 0 := by
      obtain rfl : j = uo + 1 := by
        by_contra hj''
        exact hne (hzero j hj (by omega))
      exact hne
    refine ⟨0, uo, ?_, rfl, hzero⟩
    rw [countU, rd_eq (by omega)]
    exact if_pos hlast
  | succ m ih =>
    rw [countU, rd_eq (by omega)]
    show ∃ m' uo', (if u (uo + 1) ≠ 0 then some (m + 1, uo) else countU u m (uo + 1)) =
      some (m', uo') ∧ _
    split_ifs with hne
    · exact ⟨m + 1, uo, rfl, rfl, hzero⟩
    · obtain ⟨m', uo', hrun, hsum, hzero'⟩ := @ih (uo + 1) (by omega) (by
        intro j hj hj'
        by_cases heq : j = uo + 1
        · rw [heq]; exact not_not.1 hne
        · exact hzero j hj (by omega)) (by
        obtain ⟨j, hj, hj', hj''⟩ := hsome
        exact ⟨j, hj, by omega, hj''⟩)
      exact ⟨m', uo', hrun, by omega, hzero'⟩

theorem zeroQ_spec {i : ℕ} (hi : i ≤ 5) :
    ∃ q', zeroQ i q = some q' ∧ (∀ j, j < i → q' j = 0) ∧ ∀ j, i ≤ j → q' j = q j := by
  induction i generalizing q with
  | zero => exact ⟨q, rfl, fun j hj => by omega, fun j _ => rfl⟩
  | succ i ih =>
    obtain ⟨q', hq', hzero, hout⟩ := @ih (Function.update q i 0) (by omega)
    refine ⟨q', ?_, ?_, ?_⟩
    · rw [zeroQ, wr_eq (by omega) B_pos]
      exact hq'
    · intro j hj
      by_cases heq : j = i
      · rw [hout j (by omega), heq, update_self]
      · exact hzero j (by omega)
    · intro j hj
      rw [hout j (by omega)]
      exact update_of_ne (by omega) _ _

/-- One digit of a division by one digit. -/
theorem div_digit (ht : 0 < t) (x y : ℕ) :
    (x * B + y) / t = x / t * B + (x % t * B + y) / t ∧
      (x * B + y) % t = (x % t * B + y) % t := by
  have hsplit : x * B + y = t * (x / t * B) + (x % t * B + y) := by
    conv_lhs => rw [← Nat.div_add_mod x t]
    ring
  rw [hsplit]; exact ⟨Nat.mul_add_div ht _ _, Nat.mul_add_mod _ _ _⟩

/-- The division by one digit. -/
theorem divDigit_spec (hu : Ok u 1 5) (ht : 0 < t) (htB : t < B) :
    divDigit u t = some (digitVal B u 1 4 / t, digitVal B u 1 4 % t) := by
  have h1 := hu 1 (by omega) (by omega)
  have h2 := hu 2 (by omega) (by omega)
  have h3 := hu 3 (by omega) (by omega)
  have h4 := hu 4 (by omega) (by omega)
  have hmod : ∀ y, y % t < B := fun y => (Nat.mod_lt y ht).trans htB
  have hquo : ∀ y z, z < B → (y % t * B + z) / t < B := by
    intro y z hz
    apply Nat.div_lt_of_lt_mul
    have : (y % t + 1) * B ≤ t * B := Nat.mul_le_mul_right B (Nat.mod_lt y ht)
    rw [Nat.succ_mul] at this; omega
  have hq1 : u 1 / t < B := (Nat.div_le_self _ _).trans_lt h1
  obtain ⟨hdiv2, hmod2⟩ := div_digit ht (u 1) (u 2)
  obtain ⟨hdiv3, hmod3⟩ := div_digit ht (u 1 * B + u 2) (u 3)
  obtain ⟨hdiv4, hmod4⟩ := div_digit ht ((u 1 * B + u 2) * B + u 3) (u 4)
  rw [digitVal_four, hdiv4, hmod4, hdiv3, hmod3, hdiv2, hmod2]
  unfold divDigit
  rw [if_neg ht.ne', rd_eq (by omega), rd_eq (by omega), rd_eq (by omega), rd_eq (by omega)]
  show (COMBINE (u 1 % t) (u 2)).bind _ = _
  rw [COMBINE_eq (hmod _) h2]
  show (COMBINE ((u 1 % t * B + u 2) % t) (u 3)).bind _ = _
  rw [COMBINE_eq (hmod _) h3]
  show (COMBINE (((u 1 % t * B + u 2) % t * B + u 3) % t) (u 4)).bind _ = _
  rw [COMBINE_eq (hmod _) h4]
  show (COMBINE (u 1 / t) ((u 1 % t * B + u 2) / t)).bind _ = _
  rw [COMBINE_eq hq1 (hquo _ _ h2)]
  show (COMBINE (((u 1 % t * B + u 2) % t * B + u 3) / t)
    ((((u 1 % t * B + u 2) % t * B + u 3) % t * B + u 4) / t)).bind _ = _
  rw [COMBINE_eq (hquo _ _ h3) (hquo _ _ h4)]
  apply congrArg some
  apply Prod.ext
  · dsimp only
    rw [show 2 ^ 32 = B * B by rw [B_eq]; norm_num]
    ring
  · rfl

/-- The shifts of D1. -/
theorem shift_spec {d i len : ℕ} (hd : d < 16) (hi : i + len < 5) (ha : Ok a i (i + len + 1))
    (hfirst : a i * 2 ^ d < B) :
    ∃ a', normalize d len i a = some a' ∧
      digitVal B a' i (len + 1) = digitVal B a i (len + 1) * 2 ^ d ∧
      (∀ j, j < i → a' j = a j) ∧ Ok a' i (i + len + 1) := by
  unfold normalize
  split_ifs with hpos
  · have hlt : a i < 2 ^ (16 - d) := by
      rw [two_pow_split hd.le, mul_comm] at hfirst; exact Nat.lt_of_mul_lt_mul_left hfirst
    obtain ⟨a', ha', hval, hout, hok⟩ := shl_spec hd hi ha hlt
    exact ⟨a', ha', hval, fun j hj => hout j (.inl hj), hok⟩
  · obtain rfl : d = 0 := by omega
    exact ⟨a, rfl, by rw [pow_zero, mul_one], fun j _ => rfl, ha⟩

/-- Program D, for a divisor without leading zeros and a dividend that is not smaller. -/
theorem programD_spec (hu : Ok u 0 5) (hu0 : u 0 = 0) (hn : 2 ≤ n) (hoff : vo + n = 4)
    (hv : Ok v (vo + 1) 5) (hfirst : v (vo + 1) ≠ 0)
    (hle : digitVal B v (vo + 1) n ≤ digitVal B u 1 4) :
    programD u v q n vo = some (digitVal B u 1 4 / digitVal B v (vo + 1) n,
      digitVal B u 1 4 % digitVal B v (vo + 1) n) := by
  set U := digitVal B u 1 4 with hU
  set V := digitVal B v (vo + 1) n with hV
  have hpow : ∀ e, 0 < 2 ^ e := fun e => by positivity
  have hVge : B ^ (n - 1) ≤ V := by
    obtain ⟨k, rfl⟩ : ∃ k, n = k + 1 := ⟨n - 1, by omega⟩
    rw [hV, digitVal_cons, Nat.add_sub_cancel]
    have : 1 * B ^ k ≤ v (vo + 1) * B ^ k := Nat.mul_le_mul_right _ (by omega)
    omega
  -- the digits of `u`
  have hsome : ∃ j, 1 ≤ j ∧ j ≤ 0 + (4 - n) + 1 ∧ u j ≠ 0 := by
    by_contra hnone
    push_neg at hnone
    have hzero : digitVal B u 1 (5 - n) = 0 :=
      digitVal_of_zero fun j hj hj' => hnone j hj (by omega)
    have hsplit : U = digitVal B u (6 - n) (n - 1) := by
      rw [hU, show 4 = (5 - n) + (n - 1) by omega, digitVal_add, hzero, zero_mul, zero_add,
        show 1 + (5 - n) = 6 - n by omega]
    have hlt : U < B ^ (n - 1) := by
      rw [hsplit]; exact digitVal_lt (hu.mono (Nat.zero_le _) (by omega))
    omega
  obtain ⟨m, uo, hcount, hsum, hzero⟩ := countU_spec (by omega) (fun j hj hj' => by omega) hsome
  obtain ⟨q₀, hq₀, hq₀zero, -⟩ := @zeroQ_spec q (4 - m) (by omega)
  have huzero : ∀ j, j ≤ uo → u j = 0 := by
    intro j hj
    rcases Nat.eq_zero_or_pos j with rfl | hpos
    · exact hu0
    · exact hzero j hpos hj
  have hUval : digitVal B u uo (m + n + 1) = U := by
    have htop : digitVal B u 1 uo = 0 := digitVal_of_zero fun j hj hj' => huzero j (by omega)
    rw [hU, show 4 = uo + (m + n) by omega, digitVal_add B u 1 uo (m + n), htop, digitVal_cons,
      huzero uo le_rfl, zero_mul, add_comm uo 1]
  have hUlt : U < B ^ (m + n) := by
    have hlow : U = digitVal B u (uo + 1) (m + n) := by
      rw [← hUval, digitVal_cons, huzero uo le_rfl, zero_mul, zero_add]
    rw [hlow]; exact digitVal_lt (hu.mono (Nat.zero_le _) (by omega))
  -- D1
  have hv1 := hv (vo + 1) le_rfl (by omega)
  obtain ⟨d, hnorm, hdlow, hdhigh⟩ := @normLoop_spec 16 (v (vo + 1)) 0 (by omega) hv1
    (by rw [B_eq]; omega)
  have hd : d < 16 := by
    by_contra hge
    have h16 : 2 ^ 16 ≤ 2 ^ d := Nat.pow_le_pow_right two_pos (by omega)
    have h1 : 1 * 2 ^ d ≤ v (vo + 1) * 2 ^ d := Nat.mul_le_mul_right _ (by omega)
    rw [B_eq] at hdhigh; omega
  obtain ⟨u₁, hu₁, hval₁, hout₁, hok₁⟩ := @shift_spec u d uo (m + n) hd (by omega)
    (hu.mono (Nat.zero_le _) (by omega))
    (by rw [huzero uo le_rfl, zero_mul]; exact B_pos)
  obtain ⟨v₁, hv₁, hvval, -, hvok⟩ := @shift_spec v d (vo + 1) (n - 1) hd (by omega)
    (hv.mono le_rfl (by omega)) hdhigh
  rw [hUval] at hval₁
  rw [Nat.sub_add_cancel (by omega), ← hV] at hvval
  have hdiv : Divisor v₁ vo n := by
    refine ⟨hn, hoff, hvok.mono le_rfl (by omega), ?_⟩
    obtain ⟨k, rfl⟩ : ∃ k, n = k + 1 := ⟨n - 1, by omega⟩
    have hlow := digitVal_lt (hvok.mono (show vo + 1 ≤ vo + 1 + 1 by omega)
      (show vo + 1 + 1 + k ≤ vo + 1 + (k + 1 - 1) + 1 by omega))
    rw [hV, digitVal_cons, digitVal_cons] at hvval
    by_contra hsmall
    have hle' : (v₁ (vo + 1) + 1) * B ^ k ≤ v (vo + 1) * 2 ^ d * B ^ k :=
      Nat.mul_le_mul_right _ (by omega)
    rw [Nat.succ_mul] at hle'
    have hmul : (v (vo + 1) * B ^ k + digitVal B v (vo + 1 + 1) k) * 2 ^ d =
        v (vo + 1) * 2 ^ d * B ^ k + digitVal B v (vo + 1 + 1) k * 2 ^ d := by ring
    omega
  have hR : digitVal B u₁ uo n < digitVal B v₁ (vo + 1) n := by
    rw [hvval]
    by_contra hge
    have htop : digitVal B u₁ uo n * B ^ (m + 1) ≤ U * 2 ^ d := by
      rw [← hval₁, show m + n + 1 = n + (m + 1) by omega, digitVal_add]
      exact Nat.le_add_right _ _
    have hmul : V * 2 ^ d * B ^ (m + 1) ≤ digitVal B u₁ uo n * B ^ (m + 1) :=
      Nat.mul_le_mul_right _ (by omega)
    have hUV : V * B ^ (m + 1) ≤ U := by
      apply Nat.le_of_mul_le_mul_right _ (hpow d)
      calc V * B ^ (m + 1) * 2 ^ d = V * 2 ^ d * B ^ (m + 1) := by ring
        _ ≤ U * 2 ^ d := hmul.trans htop
    have hpower : B ^ (m + n) ≤ V * B ^ (m + 1) := by
      calc B ^ (m + n) = B ^ (n - 1) * B ^ (m + 1) := by
            rw [← pow_add, show n - 1 + (m + 1) = m + n by omega]
        _ ≤ V * B ^ (m + 1) := Nat.mul_le_mul_right _ hVge
    omega
  obtain ⟨u₂, q₂, hloop, hsum₂, hlt₂, hbefore, hzeros, hok₂, hqout, hqok⟩ :=
    @mainLoop_spec v₁ u₁ q₀ vo uo (4 - m) n (m + 1) hdiv (by omega) (by omega)
      (hok₁.mono le_rfl (by omega)) hR
  rw [hvval, show n + (m + 1) = m + n + 1 by omega, hval₁] at hsum₂
  rw [hvval] at hlt₂
  -- the shift does not change the quotient
  have hquo : digitVal B q₂ (4 - m) (m + 1) = U / V := by
    rw [← Nat.mul_div_mul_right U V (hpow d), ← hsum₂,
      add_comm _ (digitVal B u₂ _ n), Nat.add_mul_div_right _ _ (Nat.zero_lt_of_lt hlt₂),
        Nat.div_eq_of_lt hlt₂, zero_add]
  have hrem : digitVal B u₂ (uo + m + 1) n = U % V * 2 ^ d := by
    rw [← Nat.mul_mod_mul_right, ← hsum₂, add_comm _ (digitVal B u₂ _ n),
      Nat.add_mul_mod_self_right, Nat.mod_eq_of_lt hlt₂, add_assoc]
  obtain ⟨u₃, hu₃, hval₃, hout₃, hok₃⟩ := denormalize_spec hd (by omega)
    (hok₂.mono (by omega) (by omega)) (hzeros (uo + m) (by omega) (by omega)) hrem
  have hzero₃ : ∀ j, j ≤ uo + m → u₃ j = 0 := by
    intro j hj
    rw [hout₃ j hj]
    by_cases hlt : j < uo
    · rw [hbefore j hlt, hout₁ j hlt, huzero j hlt.le]
    · exact hzeros j (by omega) (by omega)
  have hremval : digitVal B u₃ 1 4 = U % V := by
    have htop : digitVal B u₃ 1 (uo + m) = 0 :=
      digitVal_of_zero fun j hj hj' => hzero₃ j (by omega)
    rw [show 4 = uo + m + n by omega, digitVal_add, htop, zero_mul, zero_add,
      add_comm 1, hval₃]
  have hremok : Ok u₃ 1 5 := by
    intro j hj hj'
    by_cases hlt : j ≤ uo + m
    · rw [hzero₃ j hlt]; exact B_pos
    · exact hok₃ j (by omega) hj'
  have hquozero : ∀ j, j < 4 - m → q₂ j = 0 := by
    intro j hj
    rw [hqout j (.inl hj), hq₀zero j hj]
  have hquoval : digitVal B q₂ 1 4 = U / V := by
    have htop : digitVal B q₂ 1 (3 - m) = 0 :=
      digitVal_of_zero fun j hj hj' => hquozero j (by omega)
    rw [show 4 = 3 - m + (m + 1) by omega, digitVal_add, htop, zero_mul, zero_add,
      show 1 + (3 - m) = 4 - m by omega, hquo]
  have hquook : Ok q₂ 1 5 := by
    intro j hj hj'
    by_cases hlt : j < 4 - m
    · rw [hquozero j hlt]; exact B_pos
    · exact hqok j (by omega) (by omega)
  unfold programD
  rw [if_neg (by omega), hcount]
  show (zeroQ (4 - m) q).bind _ = _
  rw [hq₀]
  show (rd v (vo + 1)).bind _ = _
  rw [rd_eq (by omega)]
  show (normLoop 17 (v (vo + 1)) 0).bind _ = _
  rw [hnorm, zero_add]
  show (normalize d (m + n) uo u).bind _ = _
  rw [hu₁]
  show (normalize d (n - 1) (vo + 1) v).bind _ = _
  rw [hv₁]
  show (mainLoop v₁ vo n (m + 1) uo (4 - m) u₁ q₀).bind _ = _
  rw [hloop]
  show (denormalize d uo m n u₂).bind _ = _
  rw [hu₃]
  show (quadOf u₃).bind _ = _
  rw [quadOf_spec hremok, hremval]
  show (quadOf q₂).bind _ = _
  rw [quadOf_spec hquook, hquoval]; rfl

end Quads

/-! ## All quads -/

/-- `__qdivrem` returns the quotient and stores the remainder; and on the way the estimate of each
    digit is exact or one too large, and exact when the digit is stored. -/
theorem qdivrem_spec :
    (∀ (junk : Fin 3 → Digits) (uq vq : BitVec 64), vq ≠ 0 →
      qdivrem junk uq vq = some (uq / vq, uq % vq)) ∧
    ∀ (v u : Digits) (vo uj n : ℕ), Divisor v vo n → uj + n < 5 → Ok u uj (uj + n + 1) →
      digitVal B u uj (n + 1) < digitVal B v (vo + 1) n * B →
      (∃ q, estimate (v (vo + 1)) (v (vo + 2)) (u uj) (u (uj + 1)) (u (uj + 2)) = some q ∧
        digitVal B u uj (n + 1) / digitVal B v (vo + 1) n ≤ q ∧
        q ≤ digitVal B u uj (n + 1) / digitVal B v (vo + 1) n + 1) ∧
      ∃ u', digitStep v vo n uj u =
          some (u', digitVal B u uj (n + 1) / digitVal B v (vo + 1) n) ∧
        digitVal B u' uj (n + 1) = digitVal B u uj (n + 1) % digitVal B v (vo + 1) n := by
  refine ⟨fun junk uq vq hv => ?_, fun v u vo uj n hv huj hu hW => ⟨?_, ?_⟩⟩
  · have hpos : 0 < vq.toNat := by
      by_contra hzero
      exact hv (BitVec.eq_of_toNat_eq (by simpa using hzero))
    unfold qdivrem
    rw [if_neg hv]
    split_ifs with hlt
    · have hlt' : uq.toNat < vq.toNat := hlt
      congr 2
      · apply BitVec.eq_of_toNat_eq
        rw [BitVec.toNat_udiv, Nat.div_eq_of_lt hlt']; rfl
      · apply BitVec.eq_of_toNat_eq
        rw [BitVec.toNat_umod, Nat.mod_eq_of_lt hlt']
    · have hle : vq.toNat ≤ uq.toNat := not_lt.1 hlt
      obtain ⟨huok, huval⟩ := digitsOf_spec uq.isLt (junk 0)
      obtain ⟨hvok, hvval⟩ := digitsOf_spec vq.isLt (junk 1)
      set u := Function.update (digitsOf uq.toNat (junk 0)) 0 0 with hu
      have hu0 : u 0 = 0 := update_self _ _ _
      have hurest : ∀ j, 1 ≤ j → u j = digitsOf uq.toNat (junk 0) j := fun j hj =>
        update_of_ne (by omega) _ _
      have huok' : Ok u 0 5 := by
        intro j hj hj'
        rcases Nat.eq_zero_or_pos j with rfl | hjpos
        · rw [hu0]; exact B_pos
        · rw [hurest j hjpos]; exact huok j hjpos hj'
      have huval' : digitVal B u 1 4 = uq.toNat := by
        rw [← huval]; exact digitVal_congr fun j hj _ => hurest j hj
      have hresult : ∀ r : ℕ × ℕ, r = (uq.toNat / vq.toNat, uq.toNat % vq.toNat) →
          (BitVec.ofNat 64 r.1, BitVec.ofNat 64 r.2) = (uq / vq, uq % vq) := by
        rintro r rfl
        rw [← BitVec.toNat_udiv, ← BitVec.toNat_umod, BitVec.ofNat_toNat, BitVec.ofNat_toNat]; simp
      rcases countV_spec hvok with ⟨n, vo, hcount, hn, hoff, hfirst, hval⟩ | ⟨hcount, hlt'⟩
      · show (countV (digitsOf vq.toNat (junk 1)) 4 0).bind _ = _
        rw [hcount]
        show (programD u _ (junk 2) n vo).bind _ = _
        rw [hvval] at hval
        rw [programD_spec huok' hu0 hn hoff (hvok.mono (by omega) (le_refl _)) hfirst
          (by rw [hval, huval']; exact hle), hval, huval']
        exact congrArg some (hresult _ rfl)
      · show (countV (digitsOf vq.toNat (junk 1)) 4 0).bind _ = _
        rw [hcount, hvval]
        show (divDigit u vq.toNat).bind _ = _
        rw [hvval] at hlt'
        rw [divDigit_spec (huok'.mono (Nat.zero_le _) (le_refl _)) hpos hlt', huval']
        exact congrArg some (hresult _ rfl)
  · obtain ⟨q, hq, -, hlow, hhigh⟩ := estimate_window hv huj hu hW
    exact ⟨q, hq, hlow, hhigh⟩
  · obtain ⟨u', hstep, hval, -⟩ := digitStep_spec hv huj hu hW
    exact ⟨u', hstep, hval⟩

/-- A divisor of the two digits `0x8000` and `0`, and digits to divide. -/
def half : Digits := fun i => if i = 3 then 0x8000 else 0

theorem qdivrem_spec_half :
    qdivrem (fun _ _ => 0) 100 7 = some (14, 2) ∧
      ∃ u', digitStep half 2 2 2 half = some (u', 1) ∧ digitVal B u' 2 3 = 0 := by
  refine ⟨(qdivrem_spec.1 _ 100 7 (by decide)).trans (by decide), ?_⟩
  have hok : ∀ i j, Ok half i j := by
    intro i j k _ _
    unfold half
    split_ifs <;> decide
  exact (qdivrem_spec.2 half half 2 2 2 ⟨by decide, by decide, hok _ _, by decide⟩ (by decide)
    (hok _ _) (by decide)).2

end FreeBSD.QDivRem
