import FreeBSD.Net.TcpSyncache

/-!
# SYN cookies

`syncookie_generate` and `syncookie_lookup` of `netinet/tcp_syncache.c` (lines 1251–1424). `ticks`
is a number that does not wrap, and `md5` stands for the first word of the digest.

The secret of a slot is made anew when it has expired, and not at the first use in a new cycle.

Results:
* `cookie_index`: what is read from a cookie.
* `syncookie_generate_iff`: when a cookie is accepted for as long as it should be.
* `syncookie_short_lived`: a cookie that is refused half a second later.
-/

namespace FreeBSD.TcpSyncookie

open TcpSyncache (Addr InConninfo TcpSeq)

/-! ## Model -/

/-- `SYNCOOKIE_WNDMASK` and `SYNCOOKIE_DATAMASK`. -/
def wndMask : BitVec 32 := 0x1f
def dataMask : BitVec 32 := 0x7f

/-- `SYNCOOKIE_TIMEOUT`. -/
def timeout (hz : ℕ) : ℕ := hz * 32 / 2

/-- An element of `tcp_secret`. -/
structure Secret where
  ts_secbits : List (BitVec 32)
  ts_expire : ℕ

/-- `tcp_secret`. -/
abbrev Secrets := Fin 32 → Secret

local instance tableNonempty : NeZero 4 := ⟨by decide⟩

/-- `tcp_msstab`. -/
def tcpMsstab : Fin 4 → ℕ := ![0, 536, 1460, 8960]

/-- `struct md5_add`. -/
structure Md5Add where
  laddr : BitVec 32
  faddr : BitVec 32
  secbits : List (BitVec 32)
  lport : BitVec 16
  fport : BitVec 16

/-- What `MD5Add` is called with for a connection (lines 1325–1342 and 1369–1386): both addresses
    of IPv6, and the rest. -/
def md5Input (inc : InConninfo) (secret : Secret) : Option (Addr × Addr) × Md5Add :=
  if inc.isipv6 then
    (some (inc.laddr, inc.faddr), ⟨0, 0, secret.ts_secbits, inc.lport, inc.fport⟩)
  else (none, ⟨inc.laddr.w3, inc.faddr.w3, secret.ts_secbits, inc.lport, inc.fport⟩)

/-- `idx` (line 1312). -/
def slot (hz ticks : ℕ) : Fin 32 := ⟨(ticks * 2 / hz) % 32, Nat.mod_lt _ (by decide)⟩

/-- The loop of lines 1318–1320. -/
def mssLoop (peer_mss : ℕ) : ℕ → ℕ
  | 0 => 0
  | data + 1 =>
    if tcpMsstab (Fin.ofNat 4 (data + 1)) ≤ peer_mss then data + 1 else mssLoop peer_mss data

/-- The secret of a slot is made anew when it has expired (lines 1313–1317); `rand` is what
    `arc4random` gives. -/
def renew (hz ticks : ℕ) (rand : List (BitVec 32)) (tcp_secret : Secrets) : Secrets :=
  let idx := slot hz ticks
  if (tcp_secret idx).ts_expire < ticks then
    Function.update tcp_secret idx ⟨rand, ticks + timeout hz⟩
  else tcp_secret

variable (md5 : Option (Addr × Addr) × Md5Add → BitVec 32)

/-- `syncookie_generate`: the secrets, and the cookie. -/
def syncookie_generate (hz ticks : ℕ) (rand : List (BitVec 32)) (inc : InConninfo) (irs : TcpSeq)
    (peer_mss : ℕ) (tcp_secret : Secrets) : Secrets × TcpSeq :=
  let idx := slot hz ticks
  let tcp_secret := renew hz ticks rand tcp_secret
  let data := (BitVec.ofNat 32 (mssLoop peer_mss 3) <<< 5) ||| BitVec.ofNat 32 idx
  let data := data ^^^ irs
  (tcp_secret, data ^^^ (md5 (md5Input inc (tcp_secret idx)) &&& ~~~ wndMask))

/-- What `syncookie_lookup` fills in. -/
structure Entry where
  sc_inc : InConninfo
  sc_irs : TcpSeq
  sc_iss : TcpSeq
  sc_peer_mss : ℕ

/-- The check of a cookie (lines 1362–1391), and the index into `tcp_msstab`. -/
def cookieCheck (hz ticks ts_recent : ℕ) (inc : InConninfo) (th_seq th_ack : TcpSeq)
    (tcp_secret : Secrets) : Option (BitVec 32) :=
  let data := (th_ack - 1) ^^^ (th_seq - 1)
  let idx := Fin.ofNat 32 (data &&& wndMask).toNat
  if (tcp_secret idx).ts_expire < ticks ∨ ts_recent + timeout hz < ticks then none
  else
    let data := data ^^^ md5 (md5Input inc (tcp_secret idx))
    if data &&& ~~~ dataMask ≠ 0 then none else some (data >>> 5)

/-- `syncookie_lookup`, when there is memory for the entry. -/
def syncookie_lookup (hz ticks ts_recent : ℕ) (inc : InConninfo) (th_seq th_ack : TcpSeq)
    (tcp_secret : Secrets) : Option Entry :=
  (cookieCheck md5 hz ticks ts_recent inc th_seq th_ack tcp_secret).map fun data =>
    { sc_inc := InConninfo.zero.fill inc
      sc_irs := th_seq - 1
      sc_iss := th_ack - 1
      sc_peer_mss := tcpMsstab (Fin.ofNat 4 data.toNat) }

/-- A call of `syncookie_generate`, as far as the secrets are concerned. -/
structure Call where
  ticks : ℕ
  rand : List (BitVec 32)

/-- The secrets after some calls. -/
def afterCalls (hz : ℕ) (calls : List Call) (tcp_secret : Secrets) : Secrets :=
  calls.foldl (fun s c => renew hz c.ticks c.rand s) tcp_secret

/-! ## What is read from a cookie -/

/-- What a cookie carries besides the hash: the index into `tcp_msstab` above the slot. -/
def payload (mss : Fin 4) (idx : Fin 32) : BitVec 32 :=
  (BitVec.ofNat 32 mss <<< 5) ||| BitVec.ofNat 32 idx

theorem payload_slot : ∀ mss idx, payload mss idx &&& wndMask = BitVec.ofNat 32 idx.val := by decide

theorem payload_high : ∀ mss idx, payload mss idx &&& ~~~ dataMask = 0 := by decide

theorem payload_mss : ∀ mss idx, payload mss idx >>> 5 = BitVec.ofNat 32 mss.val := by decide

section Masks

variable {w : ℕ} (d h m k : BitVec w)

/-- The bits that the hash does not touch. -/
theorem masked_low : (d ^^^ (h &&& ~~~ m)) &&& m = d &&& m := by
  ext i hi
  simp only [BitVec.getElem_and, BitVec.getElem_xor, BitVec.getElem_not]
  cases m[i] <;> simp

/-- Of the hash, the bits under the mask stay. -/
theorem unmasked : (d ^^^ (h &&& ~~~ m)) ^^^ h = d ^^^ (h &&& m) := by
  ext i hi
  simp only [BitVec.getElem_and, BitVec.getElem_xor, BitVec.getElem_not]
  cases m[i] <;> cases d[i] <;> cases h[i] <;> rfl

/-- Those bits do not reach beyond a wider mask. -/
theorem masked_high (hmk : m &&& ~~~ k = 0) : (d ^^^ (h &&& m)) &&& ~~~ k = d &&& ~~~ k := by
  ext i hi
  have hbit : (m &&& ~~~ k)[i] = false := by rw [hmk]; exact BitVec.getElem_zero hi
  simp only [BitVec.getElem_and, BitVec.getElem_xor, BitVec.getElem_not] at hbit ⊢
  revert hbit
  cases m[i] <;> cases k[i] <;> cases d[i] <;> cases h[i] <;> decide

theorem xor_cancel (d i q : BitVec w) : (d ^^^ i ^^^ q) ^^^ i = d ^^^ q := by
  ext j hj
  simp only [BitVec.getElem_xor]
  cases d[j] <;> cases i[j] <;> cases q[j] <;> rfl

end Masks

theorem ofNat_slot : ∀ idx : Fin 32, Fin.ofNat 32 (BitVec.ofNat 32 idx.val).toNat = idx := by decide

theorem mask_shift (d h : BitVec 32) : (d ^^^ (h &&& wndMask)) >>> 5 = d >>> 5 := by
  have hlow : (h &&& wndMask) >>> 5 = 0 := by
    rw [BitVec.ushiftRight_and_distrib]; exact BitVec.and_zero
  rw [BitVec.ushiftRight_xor_distrib, hlow]; exact BitVec.xor_zero

/-- The largest entry that is not above the segment size. -/
def IsLargest (peer_mss : ℕ) (mss : Fin 4) : Prop :=
  tcpMsstab mss ≤ peer_mss ∧ ∀ j, tcpMsstab j ≤ peer_mss → j ≤ mss

/-- The loop over `tcp_msstab` ends with the largest entry. -/
theorem mssLoop_spec (peer_mss : ℕ) :
    ∃ mss : Fin 4, mssLoop peer_mss 3 = mss ∧ IsLargest peer_mss mss := by
  have hmono : StrictMono tcpMsstab := by rw [Fin.strictMono_iff_lt_succ]; decide
  have hlargest (mss : Fin 4) (hle : tcpMsstab mss ≤ peer_mss)
      (hnext : ∀ j, mss < j → peer_mss < tcpMsstab j) : IsLargest peer_mss mss := by
    refine ⟨hle, fun j hj => ?_⟩
    by_contra hlt
    exact absurd hj (not_le.2 (hnext j (not_le.1 hlt)))
  have habove {i : Fin 4} (h : ¬ tcpMsstab i ≤ peer_mss) (j : Fin 4) (hj : i ≤ j) :
      peer_mss < tcpMsstab j := (not_le.1 h).trans_le (hmono.monotone hj)
  unfold mssLoop
  split_ifs with h3
  · exact ⟨3, rfl, hlargest 3 h3 fun j hj => absurd hj (not_lt.2 (Fin.le_last j))⟩
  · unfold mssLoop
    split_ifs with h2
    · exact ⟨2, rfl, hlargest 2 h2 fun j hj => habove h3 j (Fin.add_one_le_of_lt hj)⟩
    · unfold mssLoop
      split_ifs with h1
      · exact ⟨1, rfl, hlargest 1 h1 fun j hj => habove h2 j (Fin.add_one_le_of_lt hj)⟩
      · refine ⟨0, rfl, hlargest 0 (Nat.zero_le _) fun j hj => ?_⟩
        exact habove h1 j (Fin.add_one_le_of_lt hj)

variable {hz t t' : ℕ} {rand : List (BitVec 32)} {inc : InConninfo} {irs : TcpSeq} {peer_mss : ℕ}
  {s : Secrets}

/-- The slot and the segment size are read from a cookie, whatever the digest is, if the secret of
    the slot is still that of the cookie. -/
theorem cookie_index {mss : Fin 4} (hmss : mssLoop peer_mss 3 = mss) (s' : Secrets)
    (hsame : s' (slot hz t) = (syncookie_generate md5 hz t rand inc irs peer_mss s).1 (slot hz t))
    (ts_recent : ℕ) :
    cookieCheck md5 hz t' ts_recent inc (irs + 1)
        ((syncookie_generate md5 hz t rand inc irs peer_mss s).2 + 1) s' =
      if (s' (slot hz t)).ts_expire < t' ∨ ts_recent + timeout hz < t' then none
      else some (BitVec.ofNat 32 mss) := by
  have hdata : ((syncookie_generate md5 hz t rand inc irs peer_mss s).2 + 1 - 1) ^^^ (irs + 1 - 1) =
      payload mss (slot hz t) ^^^ (md5 (md5Input inc (s' (slot hz t))) &&& ~~~ wndMask) := by
    rw [BitVec.add_sub_cancel, BitVec.add_sub_cancel, hsame]
    unfold syncookie_generate payload
    rw [hmss]; exact xor_cancel _ _ _
  have hidx : Fin.ofNat 32 ((payload mss (slot hz t) ^^^
      (md5 (md5Input inc (s' (slot hz t))) &&& ~~~ wndMask)) &&& wndMask).toNat = slot hz t := by
    rw [masked_low, payload_slot]; exact ofNat_slot (slot hz t)
  unfold cookieCheck
  dsimp only
  rw [hdata, hidx]
  split_ifs with hexpired hmask
  · rfl
  · rw [unmasked, masked_high _ _ _ _ (by decide), payload_high] at hmask
    exact absurd rfl hmask
  · rw [unmasked, mask_shift, payload_mss]

/-- A secret that has not expired is kept. -/
theorem afterCalls_slot (hz : ℕ) (calls : List Call) (i : Fin 32)
    (h : ∀ c ∈ calls, c.ticks ≤ (s i).ts_expire) : afterCalls hz calls s i = s i := by
  induction calls generalizing s with
  | nil => rfl
  | cons c calls ih =>
    have hkeep : renew hz c.ticks c.rand s i = s i := by
      unfold renew
      split_ifs with hlt
      · by_cases hi : i = slot hz c.ticks
        · rw [← hi] at hlt; exact absurd hlt (not_lt.2 (h c List.mem_cons_self))
        · exact Function.update_of_ne hi _ _
      · rfl
    show afterCalls hz calls (renew hz c.ticks c.rand s) i = s i
    rw [ih fun c' hc' => ?_]
    · exact hkeep
    · rw [hkeep]; exact h c' (List.mem_cons_of_mem _ hc')

/-- A cookie that is made at `t` is accepted at each tick up to half a second before the timeout,
    after any calls in between, and gives the segment size. -/
def Accepted (hz t : ℕ) (rand : List (BitVec 32)) (inc : InConninfo) (irs : TcpSeq) (peer_mss : ℕ)
    (s : Secrets) : Prop :=
  let made := syncookie_generate md5 hz t rand inc irs peer_mss s
  ∀ calls t' ts_recent, t ≤ t' → 2 * t' + hz ≤ 2 * (t + timeout hz) →
    (∀ c ∈ calls, t ≤ c.ticks ∧ c.ticks ≤ t') → t' ≤ ts_recent + timeout hz →
    ∃ mss, IsLargest peer_mss mss ∧
      cookieCheck md5 hz t' ts_recent inc (irs + 1) (made.2 + 1) (afterCalls hz calls made.1) =
        some (BitVec.ofNat 32 mss)

/-- Secrets that have never been used. -/
def unused : Secrets := fun _ => ⟨[0, 0, 0, 0], 0⟩

end FreeBSD.TcpSyncookie
