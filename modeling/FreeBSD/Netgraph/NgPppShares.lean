import Mathlib.Data.List.GetD
import FreeBSD.Netgraph.NgPpp

/-!
# The shares of a frame

Each of the three ways to divide a frame hands out exactly its length, under a condition: the
counter of equal links does not wrap around, and the sums over the links that get a share stay in an
`int`.

Results:
* `equalShares_spec`, `roundRobin_spec`: links that are equal, and one link for all.
* `interval_eq`: the links that are used are those on which bytes arrive in time.
* `orderedShares_spec`, `mpStrategy_spec`: shares by latency.
-/

namespace FreeBSD.NgPpp

open List

/-- Shares that add up to a frame. -/
structure Shares (n : ℕ) (len : ℤ) (distrib : List ℤ) : Prop where
  length : distrib.length = n
  nonneg : ∀ d ∈ distrib, 0 ≤ d
  sum : distrib.sum = len

/-! ## Equal links -/

variable {n len : ℕ} {lastLink : BitVec 32} {junk distrib : List ℤ}

/-- The counter of the links goes over all of them. -/
def NoWrap (n : ℕ) (lastLink : BitVec 32) : Prop :=
  n ∣ 2 ^ 32 ∨ lastLink.toNat + n ≤ 2 ^ 32

theorem assignLoop_spec (lastLink : BitVec 32) (distrib : List ℤ) {f : ℤ} {k : ℕ} :
    (assignLoop n f k lastLink distrib).2.length = distrib.length ∧
      ∀ j < distrib.length, (distrib[j]? = some f ∨
        ∃ i < k, (lastLink + BitVec.ofNat 32 i).toNat % n = j) →
        (assignLoop n f k lastLink distrib).2[j]? = some f := by
  induction k generalizing lastLink distrib with
  | zero => exact ⟨rfl, fun j _ h =>
      h.resolve_right fun ⟨i, hi, _⟩ => absurd hi (Nat.not_lt_zero i)⟩
  | succ k ih =>
    obtain ⟨hlen, hall⟩ := ih (lastLink + 1) (distrib.set (lastLink.toNat % n) f)
    rw [length_set] at hlen hall
    refine ⟨hlen, fun j hj h => hall j hj ?_⟩
    by_cases heq : lastLink.toNat % n = j
    · refine .inl ?_
      rw [heq, List.getElem?_set_self hj]
    · rcases h with h | ⟨i, hi, h⟩
      · refine .inl ?_
        rw [List.getElem?_set_ne heq, h]
      · cases i with
        | zero =>
          rw [show lastLink + BitVec.ofNat 32 0 = lastLink from BitVec.add_zero lastLink] at h
          exact absurd h heq
        | succ i =>
          refine .inr ⟨i, by omega, ?_⟩
          rw [← h, BitVec.ofNat_add]
          congr 2
          rw [BitVec.add_assoc, BitVec.add_comm 1]; rfl

theorem NoWrap.covers (h : NoWrap n lastLink) {j : ℕ} (hj : j < n) :
    ∃ i < n, (lastLink + BitVec.ofNat 32 i).toNat % n = j := by
  have hn : 0 < n := by omega
  have hmod := Nat.mod_lt lastLink.toNat hn
  refine ⟨(j + n - lastLink.toNat % n) % n, Nat.mod_lt _ hn, ?_⟩
  have hi := Nat.mod_lt (j + n - lastLink.toNat % n) hn
  have hsum : (lastLink.toNat + (j + n - lastLink.toNat % n) % n) % n = j := by
    rw [Nat.add_mod_mod, ← Nat.div_add_mod lastLink.toNat n]
    generalize lastLink.toNat / n = a at *
    rw [show n * a + lastLink.toNat % n + (j + n - (n * a + lastLink.toNat % n) % n) =
      j + n * (a + 1) from by
        rw [Nat.mul_add_mod, Nat.mod_mod, mul_add]
        omega]
    rw [Nat.add_mul_mod_self_left, Nat.mod_eq_of_lt hj]
  generalize (j + n - lastLink.toNat % n) % n = i at hi hsum ⊢
  have hlt := lastLink.isLt
  rw [BitVec.toNat_add, BitVec.toNat_ofNat, Nat.add_mod_mod]
  rcases h with hdvd | hle
  · rw [Nat.mod_mod_of_dvd _ hdvd, hsum]
  · rw [Nat.mod_eq_of_lt (show lastLink.toNat + i < 2 ^ 32 by omega), hsum]

/-- Otherwise there is a link that it does not come to. -/
theorem NoWrap.uncovered (h : ¬NoWrap n lastLink) (hn : 0 < n) (hmax : n ≤ 2 ^ 32) :
    ∃ j < n, ∀ i < n, (lastLink + BitVec.ofNat 32 i).toNat % n ≠ j := by
  obtain ⟨hdvd, hwrap⟩ := not_or.1 h
  have hlt := lastLink.isLt
  have he : 0 < 2 ^ 32 % n := Nat.pos_of_ne_zero fun hzero => hdvd (Nat.dvd_of_mod_eq_zero hzero)
  have hen := Nat.mod_lt (2 ^ 32) hn
  generalize hadef : lastLink.toNat = a at hlt hwrap
  refine ⟨max (2 ^ 32 % n) (a + n - 2 ^ 32), by omega, fun i hi heq => ?_⟩
  have hj : max (2 ^ 32 % n) (a + n - 2 ^ 32) < n := by omega
  have hj₁ := le_max_left (2 ^ 32 % n) (a + n - 2 ^ 32)
  have hj₂ := le_max_right (2 ^ 32 % n) (a + n - 2 ^ 32)
  have hj₃ := max_choice (2 ^ 32 % n) (a + n - 2 ^ 32)
  generalize max (2 ^ 32 % n) (a + n - 2 ^ 32) = j at heq hj hj₁ hj₂ hj₃
  rw [BitVec.toNat_add, BitVec.toNat_ofNat, Nat.add_mod_mod, hadef] at heq
  by_cases hi' : a + i < 2 ^ 32
  · rw [Nat.mod_eq_of_lt hi'] at heq
    have hmod : ((a + i) % n + (2 ^ 32 - a - i)) % n = 2 ^ 32 % n := by
      rw [Nat.mod_add_mod]
      congr 1
      omega
    rw [heq] at hmod
    by_cases hsmall : j + (2 ^ 32 - a - i) < n
    · rw [Nat.mod_eq_of_lt hsmall] at hmod; omega
    · rw [Nat.mod_eq_sub_mod (not_lt.1 hsmall),
        Nat.mod_eq_of_lt (show j + (2 ^ 32 - a - i) - n < n by omega)] at hmod
      omega
  · have hback : (a + i) % 2 ^ 32 = a + i - 2 ^ 32 := by omega
    rw [hback, Nat.mod_eq_of_lt (show a + i - 2 ^ 32 < n by omega)] at heq
    omega

theorem assignLoop_other {f : ℤ} {k j : ℕ}
    (h : ∀ i < k, (lastLink + BitVec.ofNat 32 i).toNat % n ≠ j) :
    (assignLoop n f k lastLink distrib).2.getD j 0 = distrib.getD j 0 := by
  induction k generalizing lastLink distrib with
  | zero => rfl
  | succ k ih =>
    have hzero := h 0 (Nat.succ_pos k)
    rw [show lastLink + BitVec.ofNat 32 0 = lastLink from BitVec.add_zero lastLink] at hzero
    rw [assignLoop, ih fun i hi => ?_, getD_eq_getElem?_getD, getD_eq_getElem?_getD,
      List.getElem?_set_ne hzero]
    have hsucc := h (i + 1) (by omega)
    rw [BitVec.ofNat_add, BitVec.add_comm (BitVec.ofNat 32 i), ← BitVec.add_assoc] at hsucc
    exact hsucc

theorem remainLoop_le (lastLink : BitVec 32) (distrib : List ℤ) {k j : ℕ} :
    distrib.getD j 0 ≤ (remainLoop n k lastLink distrib).2.getD j 0 ∧
      (remainLoop n k lastLink distrib).2.length = distrib.length := by
  induction k generalizing lastLink distrib with
  | zero => exact ⟨le_refl _, rfl⟩
  | succ k ih =>
    rw [remainLoop]
    obtain ⟨hle, hlen⟩ := ih (lastLink + 1) (distrib.set
      (lastLink.toNat % n) (distrib.getD (lastLink.toNat % n) 0 + 1))
    refine ⟨le_trans ?_ hle, hlen.trans length_set⟩
    by_cases hj : lastLink.toNat % n = j
    · rw [hj]
      by_cases hlt : j < distrib.length
      · rw [getD_eq_getElem?_getD (l := distrib.set _ _), List.getElem?_set_self hlt,
          Option.getD_some]
        omega
      · rw [set_eq_of_length_le (not_lt.1 hlt)]
    · rw [getD_eq_getElem?_getD (l := distrib.set _ _), List.getElem?_set_ne hj,
        getD_eq_getElem?_getD]

/-- A link that the counter does not come to keeps what was there. -/
theorem equalShares_keeps (len : ℕ) (hn : 0 < n) (hmax : n ≤ 2 ^ 32) (h : ¬NoWrap n lastLink) :
    ∃ j < n, ∀ junk : List ℤ, junk.getD j 0 ≤ (equalShares n len lastLink junk).2.getD j 0 ∧
      (equalShares n len lastLink junk).2.length = junk.length := by
  obtain ⟨j, hj, hother⟩ := NoWrap.uncovered h hn hmax
  refine ⟨j, hj, fun junk => ?_⟩
  obtain ⟨hle, hlen⟩ := remainLoop_le (n := n) (k := len - len / n * n) (j := j)
    (assignLoop n ((len / n : ℕ) : ℤ) n lastLink junk).1
    (assignLoop n ((len / n : ℕ) : ℤ) n lastLink junk).2
  rw [assignLoop_other hother] at hle; exact ⟨hle, hlen.trans (assignLoop_spec _ _).1⟩

theorem sum_set {d : List ℤ} {i : ℕ} (hi : i < d.length) (v : ℤ) :
    (d.set i v).sum = d.sum - d.getD i 0 + v := by
  induction d generalizing i with
  | nil => exact absurd hi (Nat.not_lt_zero i)
  | cons a d ih =>
    cases i with
    | zero =>
      rw [set_cons_zero, sum_cons, sum_cons, getD_cons_zero]; ring
    | succ i =>
      rw [set_cons_succ, sum_cons, sum_cons, getD_cons_succ,
        ih (by simpa using hi)]
      ring

theorem Shares.set {d : List ℤ} {l : ℤ} (h : Shares n l d) {i : ℕ} (hi : i < n) {v : ℤ}
    (hv : 0 ≤ v) : Shares n (l - d.getD i 0 + v) (d.set i v) := by
  refine ⟨length_set.trans h.length, fun x hx => ?_, ?_⟩
  · rcases mem_or_eq_of_mem_set hx with hx | rfl
    · exact h.nonneg x hx
    · exact hv
  · rw [sum_set (by rw [h.length]; exact hi), h.sum]

theorem Shares.getD_nonneg {d : List ℤ} {l : ℤ} (h : Shares n l d) (i : ℕ) : 0 ≤ d.getD i 0 := by
  by_cases hi : i < d.length
  · rw [getD_eq_getElem _ _ hi]; exact h.nonneg _ (getElem_mem hi)
  · rw [getD_eq_default _ _ (not_lt.1 hi)]

theorem remainLoop_spec (lastLink : BitVec 32) {l : ℤ} {k : ℕ} (hn : 0 < n)
    (h : Shares n l distrib) :
    Shares n (l + k) (remainLoop n k lastLink distrib).2 := by
  induction k generalizing lastLink distrib l with
  | zero =>
    rw [Nat.cast_zero, add_zero]; exact h
  | succ k ih =>
    have hnext := h.set (Nat.mod_lt lastLink.toNat hn)
      (v := distrib.getD (lastLink.toNat % n) 0 + 1)
      (by have := h.getD_nonneg (lastLink.toNat % n); omega)
    have hstep := ih (lastLink + 1) hnext
    have hl : l - distrib.getD (lastLink.toNat % n) 0 + (distrib.getD (lastLink.toNat % n) 0 + 1) +
        (k : ℤ) = l + ((k + 1 : ℕ) : ℤ) := by
      rw [Nat.cast_succ]; ring
    rw [hl] at hstep; exact hstep

/-- Links that are equal get a frame in equal shares. -/
theorem equalShares_spec (hn : 0 < n) (hjunk : junk.length = n) (h : NoWrap n lastLink) :
    Shares n len (equalShares n len lastLink junk).2 := by
  obtain ⟨hlen, hall⟩ := assignLoop_spec (n := n) lastLink junk
    (f := ((len / n : ℕ) : ℤ)) (k := n)
  rw [hjunk] at hlen hall
  have hassign : (assignLoop n ((len / n : ℕ) : ℤ) n lastLink junk).2 =
      List.replicate n ((len / n : ℕ) : ℤ) := by
    refine ext_getElem? fun j => ?_
    by_cases hj : j < n
    · rw [hall j hj (.inr (h.covers hj)), List.getElem?_replicate, if_pos hj]
    · rw [List.getElem?_eq_none (by omega), List.getElem?_eq_none (by
        rw [length_replicate]
        omega)]
  have hshares : Shares n (n * (len / n : ℕ)) (List.replicate n ((len / n : ℕ) : ℤ)) := by
    refine ⟨length_replicate, fun d hd => ?_, ?_⟩
    · rw [eq_of_mem_replicate hd]; exact Int.natCast_nonneg _
    · rw [sum_replicate, nsmul_eq_mul]
  rw [← hassign] at hshares
  have hremain := remainLoop_spec (assignLoop n ((len / n : ℕ) : ℤ) n lastLink junk).1
    (k := len - len / n * n) hn hshares
  have hsum : (n * (len / n : ℕ) : ℤ) + ((len - len / n * n : ℕ) : ℤ) = len := by
    have hle : len / n * n ≤ len := Nat.div_mul_le_self len n
    rw [Nat.cast_sub hle, Nat.cast_mul]; ring
  rw [hsum] at hremain; exact hremain

/-- One link gets the frame. -/
theorem roundRobin_spec (hn : 0 < n) : Shares n len (roundRobin n len lastLink).2 := by
  have hzero : Shares n 0 (List.replicate n (0 : ℤ)) := by
    refine ⟨length_replicate, fun d hd => ?_, ?_⟩
    · rw [eq_of_mem_replicate hd]
    · rw [sum_replicate, smul_zero]
  have h := hzero.set (Nat.mod_lt lastLink.toNat hn) (Int.natCast_nonneg len)
  have hget : (List.replicate n (0 : ℤ)).getD (lastLink.toNat % n) 0 = 0 :=
    getD_replicate _ (Nat.mod_lt _ hn)
  rw [hget, sub_zero, zero_add] at h; exact h

/-! ## Bytes that arrive -/

section Latency

variable {L pre rest : List Load} {x y : Load} {t t' : ℤ} {len : ℤ}

/-- What arrives on a link until a time, rounded up. -/
def arrivedOn (t : ℤ) (y : Load) : ℤ := (max 0 (t - y.latency) * y.bandwidth + 99) / 100

/-- What arrives on all links. -/
def arrived (L : List Load) (t : ℤ) : ℤ := (L.map (arrivedOn t)).sum

/-- A link is reached if a frame has not arrived before its first byte. -/
def reached (L : List Load) (len : ℤ) (y : Load) : Bool := arrived L y.latency < len

/-- Latencies and bandwidths of links that are valid. -/
structure LoadsOk (L : List Load) : Prop where
  latency : ∀ y ∈ L, 0 ≤ y.latency ∧ y.latency < 2 ^ 31
  bandwidth : ∀ y ∈ L, 1 ≤ y.bandwidth ∧ y.bandwidth ≤ NG_PPP_MAX_BANDWIDTH
  length : L.length ≤ NG_PPP_MAX_LINKS

/-- The arithmetic stays in its types: the flow to a link, from the links that are reached, while
    each link with less latency is reached, and the sum over the links that are reached. -/
structure InRange (L : List Load) (len : ℤ) : Prop where
  flow : ∀ x ∈ L, ∀ y ∈ L, reached L len y = true →
    (∀ z ∈ L, reached L len z = false → x.latency ≤ z.latency) →
    (x.latency - y.latency) * y.bandwidth + 99 < 2 ^ 32
  top : ((L.filter (reached L len)).map fun y => y.latency * y.bandwidth).sum + 100 * len +
    ((L.filter (reached L len)).map Load.bandwidth).sum / 2 < 2 ^ 31

theorem arrivedOn_nonneg (hy : 1 ≤ y.bandwidth) : 0 ≤ arrivedOn t y := by
  unfold arrivedOn
  have := mul_nonneg (le_max_left 0 (t - y.latency)) (by omega : 0 ≤ y.bandwidth); omega

theorem arrivedOn_mono (hy : 1 ≤ y.bandwidth) (h : t ≤ t') : arrivedOn t y ≤ arrivedOn t' y := by
  have hmax : max 0 (t - y.latency) ≤ max 0 (t' - y.latency) := by omega
  have hmul := mul_le_mul_of_nonneg_right hmax (by omega : 0 ≤ y.bandwidth)
  unfold arrivedOn; omega

theorem arrivedOn_of_le (h : t ≤ y.latency) : arrivedOn t y = 0 := by
  unfold arrivedOn
  rw [max_eq_left (by omega), zero_mul]
  rfl

theorem LoadsOk.mono (h : LoadsOk L) (ht : t ≤ t') : arrived L t ≤ arrived L t' :=
  sum_le_sum fun y hy => arrivedOn_mono (h.bandwidth y hy).1 ht

theorem LoadsOk.reached_of_le (h : LoadsOk L) (hy : reached L len y = true)
    (hle : x.latency ≤ y.latency) : reached L len x = true :=
  decide_eq_true ((h.mono hle).trans_lt (of_decide_eq_true hy))

/-- A sum that stays in an `int`. -/
theorem foldl_int {α : Type*} {f : α → ℤ} {l : List α} {total : ℤ} (htotal : 0 ≤ total)
    (hf : ∀ y ∈ l, 0 ≤ f y) (hsum : total + (l.map f).sum < 2 ^ 31) :
    l.foldl (fun total y => int (total + f y)) total = total + (l.map f).sum := by
  induction l generalizing total with
  | nil =>
    rw [map_nil, sum_nil, add_zero]; rfl
  | cons y l ih =>
    rw [map_cons, sum_cons] at hsum ⊢
    have hy := hf y mem_cons_self
    have hl : 0 ≤ (l.map f).sum := sum_nonneg fun x hx => by
      obtain ⟨z, hz, rfl⟩ := mem_map.1 hx
      exact hf z (mem_cons_of_mem y hz)
    rw [foldl_cons, int_eq (by omega) (by omega),
      ih (by omega) (fun z hz => hf z (mem_cons_of_mem y hz)) (by omega)]
    ring

/-- Sums of few small numbers are small. -/
theorem sum_le_mul {α : Type*} {f : α → ℤ} {l : List α} {b : ℤ} {k : ℕ} (hb : 0 ≤ b)
    (hf : ∀ y ∈ l, f y ≤ b) (hk : l.length ≤ k) : (l.map f).sum ≤ k * b := by
  have h : (l.map f).sum ≤ l.length * b := by
    induction l with
    | nil => simp
    | cons y l ih =>
      have hy := hf y mem_cons_self
      have hl := ih (fun z hz => hf z (mem_cons_of_mem y hz)) (by
        rw [length_cons] at hk
        omega)
      rw [map_cons, sum_cons, length_cons, Nat.cast_succ]
      linarith
  have hcast : (l.length : ℤ) ≤ k := by exact_mod_cast hk
  exact h.trans (mul_le_mul_of_nonneg_right hcast hb)

/-- What the loop adds up is what arrives. -/
theorem flowTotal_eq (h : LoadsOk L) (hL : L = pre ++ x :: rest)
    (hsort : L.Pairwise fun a b => a.latency ≤ b.latency)
    (hflow : ∀ y ∈ pre, (x.latency - y.latency) * y.bandwidth + 99 < 2 ^ 32) :
    flowTotal x pre = arrived L x.latency := by
  have hmem : ∀ y ∈ pre, y ∈ L := fun y hy => by rw [hL]; exact mem_append_left _ hy
  have hx : x ∈ L := by rw [hL]; exact mem_append_right _ mem_cons_self
  rw [hL] at hsort
  obtain ⟨-, hsuf, hcross⟩ := pairwise_append.1 hsort
  have hterm : ∀ y ∈ pre,
      uint (int (x.latency - y.latency) * y.bandwidth + 99) / 100 = arrivedOn x.latency y := by
    intro y hy
    have hle := hcross y hy x mem_cons_self
    have hxl := h.latency x hx
    have hyl := h.latency y (hmem y hy)
    have hyb := h.bandwidth y (hmem y hy)
    rw [int_eq (by omega) (by omega)]
    have hnonneg := mul_nonneg (by omega : 0 ≤ x.latency - y.latency) (by omega : 0 ≤ y.bandwidth)
    rw [uint_eq (by omega) (hflow y hy)]
    unfold arrivedOn
    rw [max_eq_right (by omega)]
  have hrest : ((x :: rest).map (arrivedOn x.latency)).sum = 0 := by
    refine sum_eq_zero fun a ha => ?_
    obtain ⟨y, hy, rfl⟩ := mem_map.1 ha
    refine arrivedOn_of_le ?_
    rcases mem_cons.1 hy with rfl | hy
    · exact le_refl _
    · exact (pairwise_cons.1 hsuf).1 y hy
  have hsum : arrived L x.latency = (pre.map (arrivedOn x.latency)).sum := by
    unfold arrived
    rw [hL, map_append, sum_append, hrest, add_zero]
  have hfold : flowTotal x pre =
      pre.foldl (fun total y => int (total + arrivedOn x.latency y)) 0 := by
    unfold flowTotal; exact foldl_ext _ _ _ fun total y hy => by rw [hterm y hy]
  have hlen : pre.length ≤ NG_PPP_MAX_LINKS := by
    have := h.length
    rw [hL, length_append] at this; omega
  have hbound : (pre.map (arrivedOn x.latency)).sum ≤ (16 : ℕ) * 42949673 := by
    refine sum_le_mul (by norm_num) (fun y hy => ?_) hlen
    have hle := hcross y hy x mem_cons_self
    have hy' := hflow y hy
    unfold arrivedOn
    rw [max_eq_right (by omega)]
    omega
  have hint : 0 + (pre.map (arrivedOn x.latency)).sum < 2 ^ 31 := by push_cast at hbound; omega
  rw [hfold, foldl_int (le_refl 0) (fun y hy =>
      arrivedOn_nonneg (h.bandwidth y (hmem y hy)).1) hint,
    zero_add, hsum]

/-- The links that are used are those that are reached. -/
theorem interval_eq (pre : List Load) (h : LoadsOk L) (hr : InRange L len)
    (hsort : L.Pairwise fun a b => a.latency ≤ b.latency) (hL : L = pre ++ rest)
    (hpre : ∀ y ∈ pre, reached L len y = true) :
    interval len pre rest = L.filter (reached L len) := by
  induction rest generalizing pre with
  | nil =>
    rw [append_nil] at hL
    rw [interval, ← hL]; exact (filter_eq_self.2 fun y hy => hpre y (hL ▸ hy)).symm
  | cons x rest ih =>
    have hx : x ∈ L := by rw [hL]; exact mem_append_right _ mem_cons_self
    have hsuf : ∀ z ∈ rest, x.latency ≤ z.latency := by
      rw [hL] at hsort; exact (pairwise_cons.1 (pairwise_append.1 hsort).2.1).1
    have htotal : flowTotal x pre = arrived L x.latency := by
      refine flowTotal_eq h hL hsort fun y hy => hr.flow x hx y ?_ (hpre y hy) fun z hz hno => ?_
      · rw [hL]; exact mem_append_left _ hy
      · rw [hL] at hz
        rcases mem_append.1 hz with hz | hz
        · rw [hpre z hz] at hno
          cases hno
        · rcases mem_cons.1 hz with rfl | hz
          · exact le_refl _
          · exact hsuf z hz
    rw [interval, htotal]
    by_cases hreach : len ≤ arrived L x.latency
    · rw [if_pos hreach]
      have hnone : (x :: rest).filter (reached L len) = [] := by
        refine filter_eq_nil_iff.2 fun z hz hyes => ?_
        have hxr : reached L len x = true := by
          refine h.reached_of_le hyes ?_
          rcases mem_cons.1 hz with rfl | hz
          · exact le_refl _
          · exact hsuf z hz
        have := of_decide_eq_true hxr; omega
      have hall : pre.filter (reached L len) = pre := filter_eq_self.2 hpre
      have hsplit : L.filter (reached L len) =
          pre.filter (reached L len) ++ (x :: rest).filter (reached L len) := by
        rw [← filter_append, ← hL]
      rw [hsplit, hall, hnone, append_nil]
    · rw [if_neg hreach]
      refine ih _ (by rw [hL, append_assoc]; rfl) fun y hy => ?_
      rcases mem_append.1 hy with hy | hy
      · exact hpre y hy
      · rw [mem_singleton.1 hy]; exact decide_eq_true (not_le.1 hreach)

/-! ## Solving for `t0` -/

/-- The links that share a frame. -/
structure UsedOk (K : List Load) (len : ℤ) : Prop where
  loads : LoadsOk K
  ne_nil : K ≠ []
  top : (K.map fun y => y.latency * y.bandwidth).sum + 100 * len +
    (K.map Load.bandwidth).sum / 2 < 2 ^ 31
  /-- No link is waited for. -/
  early : ∀ y ∈ K, y.latency * (K.map Load.bandwidth).sum <
    (K.map fun y => y.latency * y.bandwidth).sum + 100 * len

variable {K : List Load}

theorem sum_map_mul_right (l : List Load) (t : ℤ) :
    (l.map fun y => (t - y.latency) * y.bandwidth).sum =
      t * (l.map Load.bandwidth).sum - (l.map fun y => y.latency * y.bandwidth).sum := by
  induction l with
  | nil => simp
  | cons y l ih =>
    rw [map_cons, sum_cons, ih, map_cons, sum_cons, map_cons,
      sum_cons]
    ring

/-- The links that are reached. -/
theorem usedOk_of_reached (h : LoadsOk L) (hr : InRange L len)
    (hne : L.filter (reached L len) ≠ []) : UsedOk (L.filter (reached L len)) len := by
  have hsub : ∀ y ∈ L.filter (reached L len), y ∈ L := fun y hy => mem_of_mem_filter hy
  refine ⟨⟨fun y hy => h.latency y (hsub y hy), fun y hy => h.bandwidth y (hsub y hy),
    (length_filter_le _ _).trans h.length⟩, hne, hr.top, fun y hy => ?_⟩
  have hreach : arrived L y.latency < len := of_decide_eq_true (mem_filter.1 hy).2
  have hle : ((L.filter (reached L len)).map (arrivedOn y.latency)).sum ≤ arrived L y.latency := by
    refine List.Sublist.sum_le_sum (filter_sublist.map _) fun a ha => ?_
    obtain ⟨z, hz, rfl⟩ := mem_map.1 ha
    exact arrivedOn_nonneg (h.bandwidth z hz).1
  have hflow : ((L.filter (reached L len)).map fun z => (y.latency - z.latency) * z.bandwidth).sum ≤
      100 * ((L.filter (reached L len)).map (arrivedOn y.latency)).sum := by
    rw [← sum_map_mul_left]
    refine sum_le_sum fun z hz => ?_
    have hmul := mul_le_mul_of_nonneg_right (le_max_right 0 (y.latency - z.latency))
      (by have := h.bandwidth z (hsub z hz); omega : 0 ≤ z.bandwidth)
    unfold arrivedOn; omega
  rw [sum_map_mul_right] at hflow; omega

theorem UsedOk.bandwidth_pos (h : UsedOk K len) : 1 ≤ (K.map Load.bandwidth).sum := by
  obtain ⟨y, l, rfl⟩ := exists_cons_of_ne_nil h.ne_nil
  have hy := h.loads.bandwidth y mem_cons_self
  have hl : 0 ≤ (l.map Load.bandwidth).sum := sum_nonneg fun x hx => by
    obtain ⟨z, hz, rfl⟩ := mem_map.1 hx
    have := h.loads.bandwidth z (mem_cons_of_mem y hz); omega
  rw [map_cons, sum_cons]; omega

theorem UsedOk.bandwidth_le (h : UsedOk K len) : (K.map Load.bandwidth).sum ≤ 16 * 125000 := by
  have hsum := sum_le_mul (f := Load.bandwidth) (b := 125000) (k := 16) (by norm_num)
    (fun y hy => (h.loads.bandwidth y hy).2) h.loads.length
  push_cast at hsum; exact hsum

theorem UsedOk.products (h : UsedOk K len) : ∀ y ∈ K, 0 ≤ y.latency * y.bandwidth := fun y hy =>
  mul_nonneg (h.loads.latency y hy).1 (by have := h.loads.bandwidth y hy; omega)

/-- No arithmetic wraps around when `t0` is computed. -/
theorem UsedOk.solve_eq (h : UsedOk K len) (hlen : 0 ≤ len) :
    solve len K = ((K.map fun y => y.latency * y.bandwidth).sum + 100 * len +
      (K.map Load.bandwidth).sum / 2) / (K.map Load.bandwidth).sum := by
  have hpos := h.bandwidth_pos
  have hbw := h.bandwidth_le
  have htop := h.top
  have hprod := h.products
  have htop0 : 0 ≤ (K.map fun y => y.latency * y.bandwidth).sum := sum_nonneg fun x hx => by
    obtain ⟨z, hz, rfl⟩ := mem_map.1 hx
    exact hprod z hz
  have hle : ∀ y ∈ K, y.latency * y.bandwidth ≤ (K.map fun y => y.latency * y.bandwidth).sum := by
    intro y hy
    refine single_le_sum (fun a ha => ?_) _ (mem_map_of_mem hy)
    obtain ⟨z, hz, rfl⟩ := mem_map.1 ha
    exact hprod z hz
  have htopSum : K.foldl (fun sum y => int (sum + int (y.latency * y.bandwidth))) 0 =
      (K.map fun y => y.latency * y.bandwidth).sum := by
    have hext : K.foldl (fun sum y => int (sum + int (y.latency * y.bandwidth))) 0 =
        K.foldl (fun sum y => int (sum + y.latency * y.bandwidth)) 0 := by
      refine foldl_ext _ _ _ fun sum y hy => ?_
      have hy₀ := hprod y hy
      have hy₁ := hle y hy
      rw [int_eq (x := y.latency * y.bandwidth) (by omega) (by omega)]
    rw [hext, foldl_int (le_refl 0) hprod (by omega), zero_add]
  have hbotSum : K.foldl (fun sum y => int (sum + y.bandwidth)) 0 = (K.map Load.bandwidth).sum := by
    have hnonneg : ∀ y ∈ K, 0 ≤ y.bandwidth := fun y hy => by
      have := h.loads.bandwidth y hy; omega
    rw [foldl_int (le_refl 0) hnonneg (by
      have : (K.map fun y => y.bandwidth).sum = (K.map Load.bandwidth).sum := rfl
      omega), zero_add]
  unfold solve
  dsimp only
  rw [htopSum, hbotSum, Int.tdiv_eq_ediv_of_nonneg (a := (K.map Load.bandwidth).sum) (by omega)]
  generalize (K.map Load.bandwidth).sum = bot at *
  generalize (K.map fun y => y.latency * y.bandwidth).sum = top at *
  rw [int_eq (x := len * 100) (by omega) (by omega), int_eq (x := len * 100 + top) (by omega)
    (by omega), int_eq (by omega) (by omega), Int.tdiv_eq_ediv_of_nonneg (by omega)]
  congr 1
  ring

/-- A frame that is no longer than what `ng_ppp_output` lets pass, with its protocol. -/
def MaxFrame : ℤ := 65537

/-- What a link gets is not negative, and not too much. -/
theorem UsedOk.share_bounds (h : UsedOk K len) (hlen : 0 ≤ len) (hmax : len ≤ MaxFrame) :
    ∀ y ∈ K, 0 ≤ share (solve len K) y ∧ share (solve len K) y ≤ 80000 := by
  have hpos := h.bandwidth_pos
  have hbw := h.bandwidth_le
  have hsolve := h.solve_eq hlen
  have hmax : len ≤ 65537 := hmax
  obtain ⟨t0, ht0⟩ : ∃ t0, t0 = solve len K := ⟨_, rfl⟩
  rw [← ht0] at hsolve ⊢
  have hmul : t0 * (K.map Load.bandwidth).sum ≤
      (K.map fun y => y.latency * y.bandwidth).sum + 100 * len +
        (K.map Load.bandwidth).sum / 2 := by
    rw [hsolve]; exact Int.ediv_mul_le _ (by omega)
  have hge : ∀ y ∈ K, y.latency ≤ t0 := by
    intro y hy
    have hearly := h.early y hy
    rw [hsolve]
    refine Int.le_ediv_of_mul_le (by omega) ?_
    omega
  have hterm : ∀ y ∈ K, 0 ≤ (t0 - y.latency) * y.bandwidth := fun y hy =>
    mul_nonneg (by have := hge y hy; omega) (by have := h.loads.bandwidth y hy; omega)
  have hsum := sum_map_mul_right K t0
  intro y hy
  have hsingle : (t0 - y.latency) * y.bandwidth ≤
      (K.map fun y => (t0 - y.latency) * y.bandwidth).sum := by
    refine single_le_sum (fun a ha => ?_) _ (mem_map_of_mem hy)
    obtain ⟨z, hz, rfl⟩ := mem_map.1 ha
    exact hterm z hz
  have hy₀ := hterm y hy
  have hlat := h.loads.latency y hy
  have hyb := h.loads.bandwidth y hy
  have hty := hge y hy
  have hbound : (t0 - y.latency) * y.bandwidth ≤ 7553700 := by omega
  have hdiff : t0 - y.latency ≤ 7553700 := by
    have := mul_le_mul_of_nonneg_left hyb.1 (by omega : 0 ≤ t0 - y.latency); omega
  unfold share
  rw [int_eq (x := t0 - y.latency) (by omega) (by omega), mul_comm y.bandwidth,
    int_eq (x := (t0 - y.latency) * y.bandwidth) (by omega) (by omega), int_eq (by omega)
      (by omega),
    Int.tdiv_eq_ediv_of_nonneg (by omega)]
  omega

/-! ## Rounding -/

variable {d : List ℤ} {excess : ℤ} {k : ℕ}

/-- The induction along a scan. -/
theorem scan_induction (better : ℕ → ℕ → Bool) {P : ℕ → ℕ → Prop} (hzero : P 0 0)
    (hmove : ∀ m best, P m best → better best (m + 1) = true → P (m + 1) (m + 1))
    (hstay : ∀ m best, P m best → better best (m + 1) ≠ true → P (m + 1) best) (n : ℕ) :
    P (n - 1) (scan better n) := by
  unfold scan
  induction n - 1 with
  | zero => exact hzero
  | succ m ih =>
    rw [range_succ, foldl_append, foldl_cons, foldl_nil]
    split
    · exact hmove m _ ih ‹_›
    · exact hstay m _ ih ‹_›

theorem scan_lt {better : ℕ → ℕ → Bool} {n : ℕ} (hn : 0 < n) : scan better n < n := by
  have h := scan_induction better (P := fun m best => best ≤ m) (le_refl 0)
    (fun m _ _ _ => le_refl (m + 1)) (fun m _ h _ => h.trans (Nat.le_succ m)) n
  omega

theorem fastest_lt (hK : K ≠ []) : fastest K < K.length := by
  unfold fastest; exact scan_lt (length_pos_of_ne_nil hK)

theorem slowest_lt (hK : K ≠ []) : slowest K d < K.length := by
  unfold slowest; exact scan_lt (length_pos_of_ne_nil hK)

/-- The slowest link that has bytes has bytes, if any link has. -/
theorem slowest_spec (h : d.getD (slowest K d) 0 = 0) : ∀ j < K.length, d.getD j 0 = 0 := by
  have hscan : d.getD (slowest K d) 0 = 0 → ∀ j ≤ K.length - 1, d.getD j 0 = 0 := by
    unfold slowest
    refine scan_induction _ (P := fun m slow => d.getD slow 0 = 0 → ∀ j ≤ m, d.getD j 0 = 0)
      (fun hzero j hj => ?_) (fun m slow ih hmove hnew j hj => ?_)
      (fun m slow _ hstay hslow => ?_) K.length
    · rw [Nat.le_zero.1 hj]; exact hzero
    · rcases of_decide_eq_true hmove with hslow | hslow
      · rcases Nat.le_succ_iff.1 hj with hj | rfl
        · exact ih hslow j hj
        · exact hnew
      · omega
    · exact absurd (decide_eq_true (.inl hslow)) hstay
  exact fun j hj => hscan h j (by omega)

theorem countP_set (h : 0 < d.getD k 0) :
    (d.set k 0).countP (fun x => decide (0 < x)) + 1 = d.countP fun x => decide (0 < x) := by
  induction d generalizing k with
  | nil => exact absurd h (lt_irrefl 0)
  | cons a d ih =>
    cases k with
    | zero =>
      have ha : 0 < a := h
      rw [set_cons_zero, countP_cons, countP_cons, if_pos (decide_eq_true ha)]; rfl
    | succ k =>
      have hd : 0 < d.getD k 0 := h
      rw [set_cons_succ, countP_cons, countP_cons, ← ih hd]; omega

/-- The bytes that are too many are taken away. -/
theorem trim_spec (hK : K ≠ []) {fuel : ℕ} (h : Shares K.length (len + excess) d) (hlen : 0 ≤ len)
    (hexcess : 0 ≤ excess) (hfuel : d.countP (fun x => decide (0 < x)) < fuel) :
    ∃ d', trim K fuel d excess = some d' ∧ Shares K.length len d' := by
  induction fuel generalizing d excess with
  | zero => exact absurd hfuel (Nat.not_lt_zero _)
  | succ fuel ih =>
    rw [trim]
    by_cases hpos : 0 < excess
    · rw [if_pos hpos]
      dsimp only
      have hslow := slowest_lt (d := d) hK
      have hnonneg := h.getD_nonneg (slowest K d)
      have hbytes : 0 < d.getD (slowest K d) 0 := by
        refine lt_of_le_of_ne hnonneg fun heq => ?_
        have hsum : d.sum = 0 := sum_eq_zero fun x hx => by
          obtain ⟨j, hj, rfl⟩ := getElem_of_mem hx
          have hzero := slowest_spec heq.symm j (by rw [← h.length]; exact hj)
          rwa [getD_eq_getElem _ _ hj] at hzero
        rw [h.sum] at hsum; omega
      rcases le_total excess (d.getD (slowest K d) 0) with hle | hle
      · rw [min_eq_left hle, sub_self]
        have hnext := h.set hslow (v := d.getD (slowest K d) 0 - excess) (by omega)
        have hl : len + excess - d.getD (slowest K d) 0 + (d.getD (slowest K d) 0 - excess) =
          len := by
          ring
        rw [hl] at hnext
        obtain ⟨fuel', rfl⟩ : ∃ fuel', fuel = fuel' + 1 := by
          have hcount := countP_set hbytes
          exact ⟨fuel - 1, by omega⟩
        rw [trim, if_neg (lt_irrefl 0)]; exact ⟨_, rfl, hnext⟩
      · rw [min_eq_right hle, sub_self]
        have hnext := h.set hslow (v := 0) (le_refl 0)
        have hl : len + excess - d.getD (slowest K d) 0 + 0 =
            len + (excess - d.getD (slowest K d) 0) := by ring
        rw [hl] at hnext
        have hcount := countP_set hbytes
        exact ih hnext (by omega) (by omega)
    · rw [if_neg hpos]
      have hzero : excess = 0 := by omega
      rw [hzero, add_zero] at h; exact ⟨d, rfl, h⟩

/-- The shares by latency add up to the frame. -/
theorem orderedShares_spec (h : LoadsOk L) (hr : InRange L len) (hne : L ≠ [])
    (hsort : L.Pairwise fun a b => a.latency ≤ b.latency) (hlen : 0 < len) (hmax : len ≤ MaxFrame) :
    ∃ shares m, orderedShares len L = some shares ∧ m ≤ L.length ∧ Shares m len shares := by
  obtain ⟨x, rest, rfl⟩ := exists_cons_of_ne_nil hne
  have hfirst : reached (x :: rest) len x = true := by
    have hzero : arrived (x :: rest) x.latency = 0 := by
      refine sum_eq_zero fun a ha => ?_
      obtain ⟨y, hy, rfl⟩ := mem_map.1 ha
      refine arrivedOn_of_le ?_
      rcases mem_cons.1 hy with rfl | hy
      · exact le_refl _
      · exact (pairwise_cons.1 hsort).1 y hy
    exact decide_eq_true (by rw [hzero]; exact hlen)
  have hinterval := interval_eq [x] h hr hsort rfl fun y hy => by
    rw [mem_singleton.1 hy]; exact hfirst
  have hK : (x :: rest).filter (reached (x :: rest) len) ≠ [] :=
    ne_nil_of_mem (mem_filter.2 ⟨mem_cons_self, hfirst⟩)
  have hused := usedOk_of_reached h hr hK
  have hKlen : ((x :: rest).filter (reached (x :: rest) len)).length ≤ (x :: rest).length :=
    length_filter_le _ _
  rw [orderedShares, hinterval]
  generalize (x :: rest).filter (reached (x :: rest) len) = K at hK hused hKlen ⊢
  dsimp only
  have hbounds := hused.share_bounds hlen.le hmax
  have hmax : len ≤ 65537 := hmax
  generalize hf : share (solve len K) = f at hbounds ⊢
  have htotal0 : 0 ≤ (K.map f).sum := sum_nonneg fun a ha => by
    obtain ⟨y, hy, rfl⟩ := mem_map.1 ha
    exact (hbounds y hy).1
  have htotal1 : (K.map f).sum ≤ 1280000 := by
    have hsum := sum_le_mul (f := f) (b := 80000) (k := 16) (by norm_num)
      (fun y hy => (hbounds y hy).2) hused.loads.length
    push_cast at hsum; omega
  have hfold : (K.map f).foldl (fun total d => int (total + d)) 0 = (K.map f).sum := by
    have hfold := foldl_int (f := f) (l := K) (le_refl 0) (fun y hy => (hbounds y hy).1) (by omega)
    rw [zero_add] at hfold
    rw [foldl_map]; exact hfold
  have hshares : Shares K.length (K.map f).sum (K.map f) := by
    refine ⟨length_map f, fun d hd => ?_, rfl⟩
    obtain ⟨y, hy, rfl⟩ := mem_map.1 hd
    exact (hbounds y hy).1
  rw [hfold]
  by_cases hlt : (K.map f).sum < len
  · rw [if_pos hlt]
    have hfast := fastest_lt hK
    have hle : (K.map f).getD (fastest K) 0 ≤ 80000 := by
      rw [getD_eq_getElem _ _ (by rw [length_map]; exact hfast), getElem_map]
      exact (hbounds _ (getElem_mem _)).2
    have hnonneg := hshares.getD_nonneg (fastest K)
    have hset := hshares.set hfast
      (v := int ((K.map f).getD (fastest K) 0 + int (len - (K.map f).sum))) (by
        rw [int_eq (x := len - (K.map f).sum) (by omega) (by omega), int_eq (by omega) (by omega)]
        omega)
    refine ⟨_, K.length, rfl, hKlen, ?_⟩
    have hl : (K.map f).sum - (K.map f).getD (fastest K) 0 +
        int ((K.map f).getD (fastest K) 0 + int (len - (K.map f).sum)) = len := by
      rw [int_eq (x := len - (K.map f).sum) (by omega) (by omega), int_eq (by omega) (by omega)]
      ring
    rw [hl] at hset; exact hset
  · rw [if_neg hlt, int_eq (by omega) (by omega)]
    have hl : (K.map f).sum = len + ((K.map f).sum - len) := by ring
    have hcount : (K.map f).countP (fun x => decide (0 < x)) < K.length + 1 := by
      have := countP_le_length (l := K.map f) (p := fun x => decide (0 < x))
      rw [length_map] at this; omega
    obtain ⟨d', hd', hs'⟩ := trim_spec hK (hl ▸ hshares) hlen.le (by omega) hcount
    exact ⟨d', K.length, hd', hKlen, hs'⟩

/-! ## The order of the links -/

variable {L' : List Load}

theorem reached_perm (h : L.Perm L') : reached L len = reached L' len := by
  funext y
  unfold reached arrived
  rw [(h.map _).sum_eq]

theorem LoadsOk.of_perm (h : LoadsOk L) (hp : L.Perm L') : LoadsOk L' :=
  ⟨fun y hy => h.latency y (hp.mem_iff.2 hy), fun y hy => h.bandwidth y (hp.mem_iff.2 hy),
    hp.length_eq ▸ h.length⟩

theorem InRange.of_perm (h : InRange L len) (hp : L.Perm L') : InRange L' len := by
  refine ⟨fun x hx y hy hreach hmin => ?_, ?_⟩
  · rw [← reached_perm hp] at hreach hmin
    exact h.flow x (hp.mem_iff.2 hx) y (hp.mem_iff.2 hy) hreach fun z hz => hmin z (hp.mem_iff.1 hz)
  · have hfilter := hp.filter (reached L len)
    rw [← reached_perm hp, ← (hfilter.map _).sum_eq, ← (hfilter.map _).sum_eq]; exact h.top

theorem map_getD_range {α : Type*} (l : List α) (a : α) :
    (List.range l.length).map (fun i => l.getD i a) = l := by
  refine ext_getElem (by rw [length_map, length_range]) fun i h₁ h₂ => ?_
  rw [getElem_map, getElem_range, getD_eq_getElem _ _ h₂]

/-- Shares of the first links, and nothing for the others. -/
theorem sum_getD_range {m : ℕ} {shares : List ℤ} (h : shares.length ≤ m) :
    ((List.range m).map fun i => shares.getD i 0).sum = shares.sum := by
  have hsplit : (List.range m).map (fun i => shares.getD i 0) =
      shares ++ List.replicate (m - shares.length) 0 := by
    refine ext_getElem (by
      rw [length_map, length_range, length_append, length_replicate]
      omega) fun i h₁ h₂ => ?_
    rw [getElem_map, getElem_range, getElem_append]
    split
    · rename_i hi
      rw [getD_eq_getElem _ _ hi]
    · rename_i hi
      rw [getD_eq_default _ _ (not_lt.1 hi), getElem_replicate]
  rw [hsplit, sum_append, sum_replicate, smul_zero, add_zero]

/-- Each link gets the share of its place. -/
theorem shares_of_order {m : ℕ} {order : List ℕ} {shares : List ℤ}
    (hp : order.Perm (List.range n)) (h : Shares m len shares) (hm : m ≤ n) :
    Shares n len ((List.range n).map fun i => shares.getD (order.idxOf i) 0) := by
  have hnodup : order.Nodup := hp.nodup_iff.2 nodup_range
  have hlen : order.length = n := by rw [hp.length_eq, length_range]
  have hidx : order.map (fun i => shares.getD (order.idxOf i) 0) =
      (List.range n).map fun i => shares.getD i 0 := by
    refine ext_getElem (by rw [length_map, length_map, length_range, hlen])
      fun i h₁ h₂ => ?_
    rw [getElem_map, getElem_map, getElem_range, hnodup.idxOf_getElem]
  refine ⟨by rw [length_map, length_range], fun d hd => ?_, ?_⟩
  · obtain ⟨i, -, rfl⟩ := mem_map.1 hd
    exact h.getD_nonneg _
  · rw [← (hp.map _).sum_eq, hidx, sum_getD_range (by rw [h.length]; exact hm), h.sum]

end Latency

/-- What stays of a node when queues are looked at and packets are sent. -/
structure SameConf (s t : Node) : Prop where
  conf : t.conf = s.conf
  activeLinks : t.activeLinks = s.activeLinks
  links : ∀ i, (t.links i).conf = (s.links i).conf ∧ (t.links i).hook = (s.links i).hook

theorem SameConf.refl (s : Node) : SameConf s s := ⟨rfl, rfl, fun _ => ⟨rfl, rfl⟩⟩

theorem SameConf.trans {s t u : Node} (h : SameConf s t) (h' : SameConf t u) : SameConf s u :=
  ⟨h'.conf.trans h.conf, h'.activeLinks.trans h.activeLinks, fun i =>
    ⟨(h'.links i).1.trans (h.links i).1, (h'.links i).2.trans (h.links i).2⟩⟩

theorem drainQueues_same (s : Node) (now : Timeval) : SameConf s (drainQueues s now) := by
  refine ⟨rfl, rfl, fun i => ?_⟩
  show (if i ∈ s.activeLinks then _ else _ : Link).conf = _ ∧
    (if i ∈ s.activeLinks then _ else _ : Link).hook = _
  split <;> exact ⟨rfl, rfl⟩

/-- The shares of the links by their latencies. -/
theorem mpStrategy_spec (q : Qsort) {s : Node} {now : Timeval} {len : ℤ}
    (hr : s.activeLinks.length = 1 ∨ (LoadsOk (loads s now) ∧ InRange (loads s now) len))
    (hne : s.activeLinks ≠ []) (hlen : 0 < len) (hmax : len ≤ MaxFrame) :
    ∃ t distrib, mpStrategy q s now len = some (t, distrib) ∧
      Shares s.activeLinks.length len distrib ∧ SameConf s t ∧ t.xseq = s.xseq := by
  unfold mpStrategy
  by_cases hone : s.activeLinks.length = 1
  · rw [if_pos hone, hone]
    refine ⟨s, [len], rfl, ⟨rfl, fun d hd => ?_, sum_singleton⟩, SameConf.refl s, rfl⟩
    rw [mem_singleton.1 hd]; exact hlen.le
  rw [if_neg hone]
  obtain ⟨h, hr⟩ := hr.resolve_left hone
  have hloads : (loads s now).length = s.activeLinks.length := length_map _
  generalize loads s now = L at h hr hloads ⊢
  dsimp only
  have hget : ∀ i < L.length, L.getD i ⟨0, 0⟩ ∈ L := fun i hi => by
    rw [getD_eq_getElem _ _ hi]; exact getElem_mem hi
  have hcmp : ∀ a ∈ List.range L.length, ∀ b ∈ List.range L.length,
      int ((L.getD a ⟨0, 0⟩).latency - (L.getD b ⟨0, 0⟩).latency) =
        (L.getD a ⟨0, 0⟩).latency - (L.getD b ⟨0, 0⟩).latency := by
    intro a ha b hb
    have hla := h.latency _ (hget a (mem_range.1 ha))
    have hlb := h.latency _ (hget b (mem_range.1 hb))
    exact int_eq (by omega) (by omega)
  have hperm := q.perm (fun a b => int ((L.getD a ⟨0, 0⟩).latency - (L.getD b ⟨0, 0⟩).latency))
    (List.range L.length)
  have hsorted := q.ordered _ _ (fun i => (L.getD i ⟨0, 0⟩).latency) hcmp
  generalize q.sort (fun a b => int ((L.getD a ⟨0, 0⟩).latency - (L.getD b ⟨0, 0⟩).latency))
    (List.range L.length) = order at hperm hsorted ⊢
  have hLperm : L.Perm (order.map fun i => L.getD i ⟨0, 0⟩) := by
    have hmap := (hperm.map fun i => L.getD i ⟨0, 0⟩).symm
    rwa [map_getD_range] at hmap
  have hLne : (order.map fun i => L.getD i ⟨0, 0⟩) ≠ [] := by
    intro hnil
    rw [hnil] at hLperm
    rw [hLperm.eq_nil] at hloads; exact hne (eq_nil_of_length_eq_zero hloads.symm)
  obtain ⟨shares, m, hshares, hm, hok⟩ := orderedShares_spec (h.of_perm hLperm) (hr.of_perm hLperm)
    hLne (pairwise_map.2 hsorted) hlen hmax
  rw [hshares]
  rw [← hLperm.length_eq] at hm
  refine ⟨_, _, rfl, ?_, drainQueues_same s now, rfl⟩
  rw [← hloads]; exact shares_of_order hperm hok hm

end FreeBSD.NgPpp
