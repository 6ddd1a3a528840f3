import FreeBSD.Net.BpfSafety

/-!
# `bpf_filter` on an mbuf chain and on a flat buffer

With `buflen = 0` the interpreter reads the packet through `m_xword`,
`m_xhalf` and `MINDEX`, with `buflen ≠ 0` through `p[k]`. The two forms of a
load differ in five places:

* `m_xword` looks at two mbufs only, so it fails on a word that reaches a third;
* `BPF_LD|BPF_H|BPF_ABS` does not look at `merr`, so a half word past the end
  loads 0 instead of ending the run;
* the three indexed loads let `X + k` wrap around before the mbuf walk, where
  the flat form rejects the packet;
* `BPF_LD|BPF_B|BPF_IND` reads the byte of an mbuf as a `char`.

Results:
* `mXword_eq`, `mXhalf_eq`, `mByte_eq`: what the mbuf walks compute on the
  bytes of the chain.
* `bpfFilter_mbuf_eq_flat`: a run that executes none of them returns the same
  value in both forms, and only such a run goes through the same states.
-/

namespace FreeBSD.Bpf

open List

/-! ## The bytes of an mbuf chain -/

/-- The length of the packet in a chain. -/
def chainLen : Mbuf → List Mbuf → ℕ
  | m, [] => m.mLen
  | m, m' :: next => m.mLen + chainLen m' next

/-- Byte `k` of the packet in a chain. -/
def chainByte : Mbuf → List Mbuf → ℕ → BitVec 8
  | m, [], k => m.mData k
  | m, m' :: next, k => if k ≥ m.mLen then chainByte m' next (k - m.mLen) else m.mData k

/-- The chain of `p` has no empty mbuf, and the buffer of `p` holds its `n` bytes. -/
structure Packet.Flat (p : Packet) (n : BitVec 32) : Prop where
  len : chainLen p.mbuf p.next = n.toNat
  nonempty : ∀ m ∈ p.mbuf :: p.next, 0 < m.mLen
  bytes : ∀ k < n.toNat, p.bytes k = chainByte p.mbuf p.next k

theorem chainByte_of_lt {m : Mbuf} {next : List Mbuf} {k : ℕ} (h : k < m.mLen) :
    chainByte m next k = m.mData k := by
  cases next with
  | nil => rfl
  | cons m' next => rw [chainByte, if_neg (by omega)]

theorem chainByte_cons_of_ge {m m' : Mbuf} {next : List Mbuf} {k : ℕ} (h : m.mLen ≤ k) :
    chainByte m (m' :: next) k = chainByte m' next (k - m.mLen) := by
  rw [chainByte, if_pos h]

theorem mLen_le_chainLen (m : Mbuf) (next : List Mbuf) : m.mLen ≤ chainLen m next := by
  cases next with
  | nil => exact le_rfl
  | cons m' next => exact Nat.le_add_right _ _

theorem mIndex_eq_none_iff {m : Mbuf} {next : List Mbuf} {k : ℕ} :
    mIndex m next k = none ↔ chainLen m next ≤ k := by
  induction next generalizing m k with
  | nil =>
    rw [mIndex, chainLen]
    split_ifs with h <;> simp <;> omega
  | cons m' next ih =>
    rw [mIndex, chainLen]
    split_ifs with h
    · rw [ih]; omega
    · have := mLen_le_chainLen m' next
      simp
      omega

/-- `MINDEX` ends at the mbuf that holds offset `k`. -/
theorem mIndex_spec {m m₁ : Mbuf} {next next₁ : List Mbuf} {k k₁ : ℕ}
    (h : mIndex m next k = some (m₁, next₁, k₁)) :
    k₁ < m₁.mLen ∧ k + chainLen m₁ next₁ = k₁ + chainLen m next ∧
      (∀ i, chainByte m next (k + i) = chainByte m₁ next₁ (k₁ + i)) ∧
      ∀ x ∈ m₁ :: next₁, x ∈ m :: next := by
  induction next generalizing m k with
  | nil =>
    rw [mIndex] at h
    split_ifs at h with hk
    cases h
    exact ⟨by omega, rfl, fun _ => rfl, fun _ hx => hx⟩
  | cons m' next ih =>
    rw [mIndex] at h
    split_ifs at h with hk
    · obtain ⟨h1, h2, h3, h4⟩ := ih h
      refine ⟨h1, by rw [chainLen]; omega, fun i => ?_, fun x hx => mem_cons_of_mem _
        (h4 x hx)⟩
      rw [chainByte_cons_of_ge (by omega), ← h3, Nat.sub_add_comm hk]
    · cases h
      exact ⟨by omega, rfl, fun _ => rfl, fun _ hx => hx⟩

/-! ## Words, half words and bytes of a chain -/

/-- The word at offset `k` reaches past the end of the mbuf after the one that holds its first
    byte. -/
def SpansThree (m : Mbuf) (next : List Mbuf) (k : ℕ) : Prop :=
  ∃ m₁ m₀ next₀ k₁, mIndex m next k = some (m₁, m₀ :: next₀, k₁) ∧
    m₁.mLen - k₁ < 4 ∧ m₀.mLen + m₁.mLen - k₁ < 4

/-- The big-endian word at offset `k` of the packet. -/
def chainWord (m : Mbuf) (next : List Mbuf) (k : ℕ) : BitVec 32 :=
  extractLong (chainByte m next k) (chainByte m next (k + 1)) (chainByte m next (k + 2))
    (chainByte m next (k + 3))

/-- The big-endian half word at offset `k` of the packet. -/
def chainHalf (m : Mbuf) (next : List Mbuf) (k : ℕ) : BitVec 16 :=
  extractShort (chainByte m next k) (chainByte m next (k + 1))

/-- `m_xword` finds the word at `k` unless it ends past the packet or spans three mbufs. -/
theorem mXword_cases (m : Mbuf) (next : List Mbuf) (k : ℕ) :
    (k + 4 ≤ chainLen m next ∧ ¬ SpansThree m next k) ∧
        mXword m next k = (chainWord m next k, false) ∨
      ¬ (k + 4 ≤ chainLen m next ∧ ¬ SpansThree m next k) ∧ mXword m next k = (0, true) := by
  unfold mXword chainWord
  cases hm : mIndex m next k with
  | none =>
    have := mIndex_eq_none_iff.1 hm
    exact .inr ⟨by omega, rfl⟩
  | some r =>
    obtain ⟨m₁, next₁, k₁⟩ := r
    obtain ⟨hlt, hlen, hbyte, -⟩ := mIndex_spec hm
    have hle := mLen_le_chainLen m₁ next₁
    have hin : ∀ i, k₁ + i < m₁.mLen → chainByte m next (k + i) = m₁.mData (k₁ + i) :=
      fun i hi => by
      rw [hbyte, chainByte_of_lt hi]
    have h0 : chainByte m next k = m₁.mData k₁ := hin 0 (by omega)
    dsimp only
    by_cases h4 : m₁.mLen - k₁ ≥ 4
    · refine .inl ⟨⟨by omega, ?_⟩, ?_⟩
      · rintro ⟨m₂, m₀, next₀, k₂, h, hlt', -⟩
        rw [hm] at h
        cases h
        omega
      · rw [if_pos h4, h0, hin 1 (by omega), hin 2 (by omega), hin 3 (by omega)]
        rfl
    · rw [if_neg h4]
      cases next₁ with
      | nil =>
        rw [chainLen] at hlen; exact .inr ⟨by omega, rfl⟩
      | cons m₀ next₀ =>
        dsimp only
        rw [chainLen] at hlen
        have hle₀ := mLen_le_chainLen m₀ next₀
        by_cases hs : m₀.mLen + m₁.mLen - k₁ < 4
        · rw [if_pos hs]; exact .inr ⟨fun h => h.2 ⟨m₁, m₀, next₀, k₁, hm, by omega, hs⟩, rfl⟩
        · refine .inl ⟨⟨by omega, ?_⟩, ?_⟩
          · rintro ⟨m₂, m₀', next₀', k₂, h, -, hs'⟩
            rw [hm] at h
            cases h
            exact hs hs'
          · have hnext : ∀ i, m₁.mLen ≤ k₁ + i → k₁ + i - m₁.mLen < m₀.mLen →
                chainByte m next (k + i) = m₀.mData (k₁ + i - m₁.mLen) := fun i hge hlt' => by
              rw [hbyte, chainByte_cons_of_ge hge, chainByte_of_lt hlt']
            rw [if_neg hs]
            -- the switch on the number of bytes left in the first mbuf
            have hc : m₁.mLen - k₁ = 1 ∨ m₁.mLen - k₁ = 2 ∨ m₁.mLen - k₁ = 3 := by omega
            rcases hc with hc | hc | hc
            · rw [hc, h0, hnext 1 (by omega) (by omega), hnext 2 (by omega) (by omega),
                hnext 3 (by omega) (by omega), show k₁ + 1 - m₁.mLen = 0 by omega,
                show k₁ + 2 - m₁.mLen = 1 by omega, show k₁ + 3 - m₁.mLen = 2 by omega]
              rfl
            · rw [hc, h0, hin 1 (by omega), hnext 2 (by omega) (by omega),
                hnext 3 (by omega) (by omega), show k₁ + 2 - m₁.mLen = 0 by omega,
                show k₁ + 3 - m₁.mLen = 1 by omega]
              rfl
            · rw [hc, h0, hin 1 (by omega), hin 2 (by omega), hnext 3 (by omega) (by omega),
                show k₁ + 3 - m₁.mLen = 0 by omega]
              rfl

/-- `m_xhalf` finds the half word at `k` unless it ends past the packet. -/
theorem mXhalf_eq {m : Mbuf} {next : List Mbuf} (hne : ∀ x ∈ m :: next, 0 < x.mLen) (k : ℕ) :
    mXhalf m next k =
      if k + 2 ≤ chainLen m next then (chainHalf m next k, false) else (0, true) := by
  unfold mXhalf chainHalf
  cases hm : mIndex m next k with
  | none =>
    have := mIndex_eq_none_iff.1 hm
    rw [if_neg (by omega)]
  | some r =>
    obtain ⟨m₁, next₁, k₁⟩ := r
    obtain ⟨hlt, hlen, hbyte, hmem⟩ := mIndex_spec hm
    have hle := mLen_le_chainLen m₁ next₁
    have h0 : chainByte m next k = m₁.mData k₁ := by
      rw [← add_zero k, hbyte, chainByte_of_lt (by omega)]; rfl
    dsimp only
    by_cases h2 : m₁.mLen - k₁ ≥ 2
    · rw [if_pos h2, if_pos (by omega), h0, hbyte, chainByte_of_lt (by omega)]
    · rw [if_neg h2]
      cases next₁ with
      | nil =>
        rw [chainLen] at hlen
        rw [if_neg (by omega)]
      | cons m₀ next₀ =>
        have hpos : 0 < m₀.mLen := hne _ (hmem _ (by simp))
        have hle₀ := mLen_le_chainLen m₀ next₀
        rw [chainLen] at hlen
        dsimp only
        rw [if_pos (by omega), h0, hbyte, chainByte_cons_of_ge (by omega),
          show k₁ + 1 - m₁.mLen = 0 by omega, chainByte_of_lt hpos]

/-- `MINDEX` finds the byte at `k` unless it is past the packet. -/
theorem mByte_eq (p : Packet) (k : BitVec 32) :
    p.mByte k =
      if k.toNat < chainLen p.mbuf p.next then some (chainByte p.mbuf p.next k.toNat)
      else none := by
  unfold Packet.mByte
  cases hm : mIndex p.mbuf p.next k.toNat with
  | none =>
    have := mIndex_eq_none_iff.1 hm
    rw [if_neg (by omega)]
    rfl
  | some r =>
    obtain ⟨m₁, next₁, k₁⟩ := r
    obtain ⟨hlt, hlen, hbyte, -⟩ := mIndex_spec hm
    have hle := mLen_le_chainLen m₁ next₁
    have h0 : chainByte p.mbuf p.next k.toNat = m₁.mData k₁ := by
      rw [← add_zero k.toNat, hbyte, chainByte_of_lt (by omega)]; rfl
    rw [if_pos (by omega), h0]
    rfl

/-! ## The two forms of each load -/

section Loads

variable {p : Packet} {n : BitVec 32}

theorem Packet.Flat.word (hp : p.Flat n) {k : BitVec 32} (h : k.toNat + 4 ≤ n.toNat) :
    p.word k = chainWord p.mbuf p.next k.toNat := by
  unfold Packet.word chainWord
  rw [hp.bytes _ (by omega), hp.bytes _ (by omega), hp.bytes _ (by omega), hp.bytes _ (by omega)]

theorem Packet.Flat.half (hp : p.Flat n) {k : BitVec 32} (h : k.toNat + 2 ≤ n.toNat) :
    p.half k = chainHalf p.mbuf p.next k.toNat := by
  unfold Packet.half chainHalf
  rw [hp.bytes _ (by omega), hp.bytes _ (by omega)]

/-- `m_xword` as the loads use it. -/
theorem Packet.mWord_cases (p : Packet) (k : BitVec 32) :
    (k.toNat + 4 ≤ chainLen p.mbuf p.next ∧ ¬ SpansThree p.mbuf p.next k.toNat) ∧
        p.mWord k = some (chainWord p.mbuf p.next k.toNat) ∨
      ¬ (k.toNat + 4 ≤ chainLen p.mbuf p.next ∧ ¬ SpansThree p.mbuf p.next k.toNat) ∧
        p.mWord k = none := by
  unfold Packet.mWord
  rcases mXword_cases p.mbuf p.next k.toNat with ⟨h, he⟩ | ⟨h, he⟩
  · exact .inl ⟨h, by rw [he]; rfl⟩
  · exact .inr ⟨h, by rw [he]; rfl⟩

theorem ldWAbs_mbuf (k : BitVec 32) : ldWAbs p 0 k = p.mWord k := by
  unfold ldWAbs
  rw [if_pos (by bv_omega), if_neg (by simp)]

theorem ldWAbs_flat (hp : p.Flat n) (hn : n ≠ 0) (k : BitVec 32) :
    ldWAbs p n k =
      if k.toNat + 4 ≤ n.toNat then some (chainWord p.mbuf p.next k.toNat) else none := by
  unfold ldWAbs
  by_cases h : k.toNat + 4 ≤ n.toNat
  · rw [if_neg (by bv_omega), if_pos h, hp.word h]
  · rw [if_pos (by bv_omega), if_pos hn, if_neg h]

theorem ldHAbs_mbuf (hp : p.Flat n) (k : BitVec 32) :
    ldHAbs p 0 k =
      some (if k.toNat + 2 ≤ n.toNat then (chainHalf p.mbuf p.next k.toNat).setWidth 32
        else 0) := by
  unfold ldHAbs
  rw [if_pos (by bv_omega), if_neg (by simp), mXhalf_eq hp.nonempty, hp.len]
  split_ifs <;> rfl

theorem ldHAbs_flat (hp : p.Flat n) (hn : n ≠ 0) (k : BitVec 32) :
    ldHAbs p n k =
      if k.toNat + 2 ≤ n.toNat then some ((chainHalf p.mbuf p.next k.toNat).setWidth 32)
      else none := by
  unfold ldHAbs
  by_cases h : k.toNat + 2 ≤ n.toNat
  · rw [if_neg (by bv_omega), if_pos h, hp.half h]
  · rw [if_pos (by bv_omega), if_pos hn, if_neg h]

theorem ldBAbs_mbuf_eq_flat (hp : p.Flat n) (hn : n ≠ 0) (k : BitVec 32) :
    ldBAbs p 0 k = ldBAbs p n k := by
  unfold ldBAbs
  rw [if_pos (by bv_omega), if_neg (by simp), mByte_eq, hp.len]
  by_cases h : k.toNat < n.toNat
  · rw [if_pos h, if_neg (by bv_omega), hp.bytes _ h]
    rfl
  · rw [if_neg h, if_pos (by bv_omega), if_pos hn]
    rfl

theorem ldWInd_mbuf (x pk : BitVec 32) : ldWInd p 0 x pk = p.mWord (x + pk) := by
  unfold ldWInd
  dsimp only
  rw [if_pos (by bv_omega), if_neg (by simp)]

theorem ldWInd_flat (hp : p.Flat n) (hn : n ≠ 0) (x pk : BitVec 32) :
    ldWInd p n x pk =
      if x.toNat + pk.toNat + 4 ≤ n.toNat then
        some (chainWord p.mbuf p.next (x + pk).toNat)
      else none := by
  unfold ldWInd
  dsimp only
  by_cases h : x.toNat + pk.toNat + 4 ≤ n.toNat
  · rw [if_neg (by bv_omega), if_pos h, hp.word (by bv_omega)]
  · rw [if_pos (by bv_omega), if_pos hn, if_neg h]

theorem ldHInd_mbuf (hp : p.Flat n) (x pk : BitVec 32) :
    ldHInd p 0 x pk =
      if (x + pk).toNat + 2 ≤ n.toNat then
        some ((chainHalf p.mbuf p.next (x + pk).toNat).setWidth 32)
      else none := by
  unfold ldHInd
  dsimp only
  rw [if_pos (by bv_omega), if_neg (by simp), mXhalf_eq hp.nonempty, hp.len]
  split_ifs <;> simp_all

theorem ldHInd_flat (hp : p.Flat n) (hn : n ≠ 0) (x pk : BitVec 32) :
    ldHInd p n x pk =
      if x.toNat + pk.toNat + 2 ≤ n.toNat then
        some ((chainHalf p.mbuf p.next (x + pk).toNat).setWidth 32)
      else none := by
  unfold ldHInd
  dsimp only
  by_cases h : x.toNat + pk.toNat + 2 ≤ n.toNat
  · rw [if_neg (by bv_omega), if_pos h, hp.half (by bv_omega)]
  · rw [if_pos (by bv_omega), if_pos hn, if_neg h]

theorem ldBInd_mbuf (hp : p.Flat n) (x pk : BitVec 32) :
    ldBInd p 0 x pk =
      if (x + pk).toNat < n.toNat then
        some ((chainByte p.mbuf p.next (x + pk).toNat).signExtend 32)
      else none := by
  unfold ldBInd
  dsimp only
  rw [if_pos (by bv_omega), if_neg (by simp), mByte_eq, hp.len]
  split_ifs <;> rfl

theorem ldBInd_flat (hp : p.Flat n) (hn : n ≠ 0) (x pk : BitVec 32) :
    ldBInd p n x pk =
      if x.toNat + pk.toNat < n.toNat then
        some ((chainByte p.mbuf p.next (x + pk).toNat).setWidth 32)
      else none := by
  unfold ldBInd
  dsimp only
  by_cases h : x.toNat + pk.toNat < n.toNat
  · rw [if_neg (by bv_omega), if_pos h, hp.bytes _ (by bv_omega)]
  · rw [if_pos (by bv_omega), if_pos hn, if_neg h]

/-- The sign of the byte does not reach the header length of `BPF_MSH`. -/
theorem msh_signExtend (b : BitVec 8) :
    (b.signExtend 32 &&& 0xf#32) <<< 2 = (b.setWidth 32 &&& 0xf#32) <<< 2 := by
  revert b
  decide

theorem ldxMshB_mbuf_eq_flat (hp : p.Flat n) (hn : n ≠ 0) (k : BitVec 32) :
    ldxMshB p 0 k = ldxMshB p n k := by
  unfold ldxMshB
  rw [if_pos (by bv_omega), if_neg (by simp), mByte_eq, hp.len]
  by_cases h : k.toNat < n.toNat
  · rw [if_pos h, if_neg (by bv_omega), hp.bytes _ h, Option.map_some, msh_signExtend]
  · rw [if_neg h, if_pos (by bv_omega), if_pos hn]
    rfl

end Loads

/-! ## One instruction -/

/-- `X + pc->k` does not fit in 32 bits. -/
def Wraps (st : State) (insn : BpfInsn) : Prop := 2 ^ 32 ≤ st.x.toNat + insn.k.toNat

/-- The loads whose two forms differ on a packet of `n` bytes. -/
def Diverges (p : Packet) (n : BitVec 32) (st : State) (insn : BpfInsn) : Opcode → Prop
  | .ldWAbs => insn.k.toNat + 4 ≤ n.toNat ∧ SpansThree p.mbuf p.next insn.k.toNat
  | .ldHAbs => n.toNat < insn.k.toNat + 2
  | .ldWInd =>
    (st.x + insn.k).toNat + 4 ≤ n.toNat ∧
      (¬ Wraps st insn ∧ SpansThree p.mbuf p.next (st.x + insn.k).toNat ∨
        Wraps st insn ∧ ¬ SpansThree p.mbuf p.next (st.x + insn.k).toNat)
  | .ldHInd => (st.x + insn.k).toNat + 2 ≤ n.toNat ∧ Wraps st insn
  | .ldBInd =>
    (st.x + insn.k).toNat < n.toNat ∧
      (Wraps st insn ∨ 0x80 ≤ chainByte p.mbuf p.next (st.x + insn.k).toNat)
  | _ => False

/-- The next instruction is a load whose two forms differ. -/
def DivergesAt (f : List BpfInsn) (p : Packet) (n : BitVec 32) (st : State) : Prop :=
  ∃ insn o, f[st.pc]? = some insn ∧ opcode insn.code = some o ∧ Diverges p n st insn o

theorem loadA_inj {st : State} {r r' : Option (BitVec 32)} :
    st.loadA r = st.loadA r' ↔ r = r' := by
  cases r <;> cases r' <;> simp [State.loadA, State.setA, State.advance]

theorem signExtend_eq_setWidth_iff (b : BitVec 8) :
    b.signExtend 32 = b.setWidth 32 ↔ ¬ 0x80 ≤ b := by
  revert b
  decide

section Exec

variable {p : Packet} {n : BitVec 32}

theorem ldWAbs_eq_iff (hp : p.Flat n) (hn : n ≠ 0) (k : BitVec 32) :
    ldWAbs p 0 k = ldWAbs p n k ↔
      ¬ (k.toNat + 4 ≤ n.toNat ∧ SpansThree p.mbuf p.next k.toNat) := by
  rw [ldWAbs_mbuf, ldWAbs_flat hp hn]
  rcases p.mWord_cases k with ⟨h, he⟩ | ⟨h, he⟩ <;> rw [he] <;> rw [hp.len] at h
  · simp [h.1, h.2]
  · by_cases hk : k.toNat + 4 ≤ n.toNat <;> simp_all

theorem ldWInd_eq_iff (hp : p.Flat n) (hn : n ≠ 0) (x k : BitVec 32) :
    ldWInd p 0 x k = ldWInd p n x k ↔
      ¬ ((x + k).toNat + 4 ≤ n.toNat ∧
        (¬ 2 ^ 32 ≤ x.toNat + k.toNat ∧ SpansThree p.mbuf p.next (x + k).toNat ∨
          2 ^ 32 ≤ x.toNat + k.toNat ∧ ¬ SpansThree p.mbuf p.next (x + k).toNat)) := by
  rw [ldWInd_mbuf, ldWInd_flat hp hn]
  have hn' := n.isLt
  by_cases hw : 2 ^ 32 ≤ x.toNat + k.toNat
  · rw [if_neg (by omega)]
    rcases p.mWord_cases (x + k) with ⟨h, he⟩ | ⟨h, he⟩ <;> rw [he] <;> rw [hp.len] at h
    · simp only [reduceCtorEq, false_iff, not_not]; exact ⟨h.1, .inr ⟨hw, h.2⟩⟩
    · simp only [true_iff]
      rintro ⟨h4, ⟨hnw, -⟩ | ⟨-, hs⟩⟩
      · exact hnw hw
      · exact h ⟨h4, hs⟩
  · have hadd : (x + k).toNat = x.toNat + k.toNat := by bv_omega
    rw [← hadd]
    rcases p.mWord_cases (x + k) with ⟨h, he⟩ | ⟨h, he⟩ <;> rw [he] <;> rw [hp.len] at h
    · rw [if_pos h.1]
      simp only [true_iff]
      rintro ⟨-, ⟨-, hs⟩ | ⟨hw', -⟩⟩
      · exact h.2 hs
      · omega
    · by_cases hk : (x + k).toNat + 4 ≤ n.toNat
      · rw [if_pos hk]
        simp only [reduceCtorEq, false_iff, not_not]; exact ⟨hk, .inl ⟨by omega, by tauto⟩⟩
      · rw [if_neg hk]; simp only [hk, false_and, not_false_eq_true]

theorem ldHInd_eq_iff (hp : p.Flat n) (hn : n ≠ 0) (x k : BitVec 32) :
    ldHInd p 0 x k = ldHInd p n x k ↔
      ¬ ((x + k).toNat + 2 ≤ n.toNat ∧ 2 ^ 32 ≤ x.toNat + k.toNat) := by
  rw [ldHInd_mbuf hp, ldHInd_flat hp hn]
  have hn' := n.isLt
  by_cases hw : 2 ^ 32 ≤ x.toNat + k.toNat
  · rw [if_neg (show ¬ x.toNat + k.toNat + 2 ≤ n.toNat by omega)]
    split_ifs with h
    · simp only [false_iff, not_not]; exact ⟨h, hw⟩
    · simp only [h, false_and, not_false_eq_true]
  · have hadd : (x + k).toNat = x.toNat + k.toNat := by bv_omega
    rw [hadd]; simp only [hw, and_false, not_false_eq_true]

theorem ldBInd_eq_iff (hp : p.Flat n) (hn : n ≠ 0) (x k : BitVec 32) :
    ldBInd p 0 x k = ldBInd p n x k ↔
      ¬ ((x + k).toNat < n.toNat ∧
        (2 ^ 32 ≤ x.toNat + k.toNat ∨ 0x80 ≤ chainByte p.mbuf p.next (x + k).toNat)) := by
  rw [ldBInd_mbuf hp, ldBInd_flat hp hn]
  have hn' := n.isLt
  by_cases hw : 2 ^ 32 ≤ x.toNat + k.toNat
  · rw [if_neg (show ¬ x.toNat + k.toNat < n.toNat by omega)]
    split_ifs with h
    · simp only [false_iff, not_not]; exact ⟨h, .inl hw⟩
    · simp only [h, false_and, not_false_eq_true]
  · have hadd : (x + k).toNat = x.toNat + k.toNat := by bv_omega
    rw [hadd]
    split_ifs with h
    · simp only [Option.some.injEq, signExtend_eq_setWidth_iff, h, hw, true_and, false_or]
    · simp only [h, false_and, not_false_eq_true]

/-- One instruction has the same outcome on the chain and on the buffer exactly when it is not one
    of the diverging loads. -/
theorem exec_mbuf_eq_flat_iff (hp : p.Flat n) (hn : n ≠ 0) (wirelen : BitVec 32) (st : State)
    (insn : BpfInsn) (o : Opcode) :
    exec p wirelen 0 st insn o = exec p wirelen n st insn o ↔ ¬ Diverges p n st insn o := by
  cases o with
  | ldWAbs => exact loadA_inj.trans (ldWAbs_eq_iff hp hn _)
  | ldHAbs =>
    refine loadA_inj.trans ?_
    rw [ldHAbs_mbuf hp, ldHAbs_flat hp hn, Diverges]
    split_ifs with h <;> simp <;> omega
  | ldBAbs => simp only [exec, Diverges, ldBAbs_mbuf_eq_flat hp hn, not_false_eq_true]
  | ldWInd => exact loadA_inj.trans (ldWInd_eq_iff hp hn _ _)
  | ldHInd => exact loadA_inj.trans (ldHInd_eq_iff hp hn _ _)
  | ldBInd => exact loadA_inj.trans (ldBInd_eq_iff hp hn _ _)
  | ldxMshB => simp only [exec, Diverges, ldxMshB_mbuf_eq_flat hp hn, not_false_eq_true]
  | _ => simp [exec, Diverges]

theorem step_mbuf_eq_flat_iff (hp : p.Flat n) (hn : n ≠ 0) (f : List BpfInsn)
    (wirelen : BitVec 32) (st : State) :
    step f p wirelen 0 st = step f p wirelen n st ↔ ¬ DivergesAt f p n st := by
  unfold step DivergesAt
  cases hf : f[st.pc]? with
  | none => simp
  | some insn =>
    cases ho : opcode insn.code with
    | none => simp [ho]
    | some o => simpa [ho] using exec_mbuf_eq_flat_iff hp hn wirelen st insn o

/-! ## Whole runs -/

/-- The two runs go through the same states exactly when the one on the buffer meets no diverging
    load. -/
theorem run_mbuf_eq_flat_iff (hp : p.Flat n) (hn : n ≠ 0) (f : List BpfInsn)
    (wirelen : BitVec 32) (st : State) :
    (∀ i, run f p wirelen 0 i st = run f p wirelen n i st) ↔
      ∀ i st', run f p wirelen n i st = .next st' → ¬ DivergesAt f p n st' := by
  constructor
  · intro heq i st' hst
    have hsucc := heq (i + 1)
    rw [run_succ, run_succ, heq i, hst] at hsucc
    exact (step_mbuf_eq_flat_iff hp hn f wirelen st').1 hsucc
  · intro hdiv i
    induction i with
    | zero => rfl
    | succ i ih =>
      rw [run_succ, run_succ, ih]
      cases hst : run f p wirelen n i st with
      | next st' => exact (step_mbuf_eq_flat_iff hp hn f wirelen st').2 (hdiv i st' hst)
      | ret v => rfl
      | fault e => rfl

end Exec

theorem Packet.Flat.ne_zero {p : Packet} {n : BitVec 32} (hp : p.Flat n) : n ≠ 0 := by
  rintro rfl
  have hpos := hp.nonempty p.mbuf (by simp)
  have hle := mLen_le_chainLen p.mbuf p.next
  rw [hp.len] at hle
  simp at hle
  omega

/-- The checker has nothing to say about an instruction that is no jump, no access to `mem[]` and
    no division by a constant. -/
theorem bpfCheck_of_class {len i : ℕ} {insn : BpfInsn} (hj : bpfClass insn.code ≠ bpfJmp)
    (hs : bpfClass insn.code ≠ bpfSt)
    (hm : bpfClass insn.code = bpfLd → insn.code &&& 0xe0 ≠ bpfMem)
    (hd : insn.code ≠ bpfAlu ||| bpfDiv ||| bpfK) : bpfCheck len i insn = true := by
  have hmem : (decide (bpfClass insn.code = bpfLd) && decide (insn.code &&& 0xe0 = bpfMem)) =
      false := by
    rw [Bool.and_eq_false_iff, decide_eq_false_iff_not, decide_eq_false_iff_not]; tauto
  rw [bpfCheck, if_neg hj, hmem, decide_eq_false hs, decide_eq_false hd]; rfl

/-- `ldx #x`, one load and a last instruction, run to the end. -/
theorem run_ldx_load (p : Packet) (wirelen buflen x : BitVec 32)
    (mem : Fin bpfMemwords → BitVec 32) {insn : BpfInsn} (last : BpfInsn) {o : Opcode}
    (ho : opcode insn.code = some o) {r : Option (BitVec 32)}
    (hr : exec p wirelen buflen { init mem with x := x, pc := 1 } insn o =
      State.loadA { init mem with x := x, pc := 1 } r) :
    bpfFilter (some [⟨Opcode.ldxImm.code, 0, 0, x⟩, insn, last]) p wirelen buflen mem 3 =
      match r with
      | none => .ret 0
      | some v =>
        step [⟨Opcode.ldxImm.code, 0, 0, x⟩, insn, last] p wirelen buflen
          ⟨2, v, x, mem⟩ := by
  have hldx : opcode Opcode.ldxImm.code = some .ldxImm := by decide
  have h1 : step [⟨Opcode.ldxImm.code, 0, 0, x⟩, insn, last] p wirelen buflen (init mem) =
      .next { init mem with x := x, pc := 1 } := by
    simp [step, init, hldx, exec, State.setX, State.advance]
  have h2 : step [⟨Opcode.ldxImm.code, 0, 0, x⟩, insn, last] p wirelen buflen
      { init mem with x := x, pc := 1 } = State.loadA { init mem with x := x, pc := 1 } r := by
    simp only [step, List.getElem?_cons_succ, List.getElem?_cons_zero, ho, hr]
  rw [bpfFilter, run, h1]
  dsimp only
  rw [run, h2]
  cases r with
  | none => rfl
  | some v =>
    simp only [State.loadA, State.setA, State.advance, init, run]
    split <;> simp_all

/-- None of the diverging loads is harmless: for each there is an accepted program, with no other
    load, that returns different values. -/
theorem diverges_observable {p : Packet} {n : BitVec 32} (hp : p.Flat n)
    (mem : Fin bpfMemwords → BitVec 32) (wirelen x : BitVec 32) (insn : BpfInsn) (o : Opcode)
    (ho : opcode insn.code = some o)
    (hdiv : Diverges p n { init mem with x := x, pc := 1 } insn o) :
    ∃ last, bpfValidate [⟨Opcode.ldxImm.code, 0, 0, x⟩, insn, last] = true ∧
      ∃ v w, v ≠ w ∧
        bpfFilter (some [⟨Opcode.ldxImm.code, 0, 0, x⟩, insn, last]) p wirelen 0 mem 3 = .ret v ∧
        bpfFilter (some [⟨Opcode.ldxImm.code, 0, 0, x⟩, insn, last]) p wirelen n mem 3 =
          .ret w := by
  obtain ⟨r, r', hr, hr', hchk⟩ : ∃ r r',
      exec p wirelen 0 { init mem with x := x, pc := 1 } insn o =
        State.loadA { init mem with x := x, pc := 1 } r ∧
      exec p wirelen n { init mem with x := x, pc := 1 } insn o =
        State.loadA { init mem with x := x, pc := 1 } r' ∧ bpfCheck 3 1 insn = true := by
    have hcode := code_of_opcode ho
    cases o with
    | ldWAbs | ldHAbs | ldWInd | ldHInd | ldBInd =>
      refine ⟨_, _, rfl, rfl, bpfCheck_of_class ?_ ?_ ?_ ?_⟩ <;> rw [← hcode] <;> decide
    | _ => exact hdiv.elim
  have hne : r ≠ r' := fun h =>
    (exec_mbuf_eq_flat_iff hp hp.ne_zero wirelen _ insn o).1 (by rw [hr, hr', h]) hdiv
  have hldx : bpfCheck 3 0 ⟨Opcode.ldxImm.code, 0, 0, x⟩ = true := by
    apply bpfCheck_of_class <;> dsimp only <;> decide
  have hval : ∀ o' k, o' = Opcode.retK ∨ o' = Opcode.retA →
      bpfValidate [⟨Opcode.ldxImm.code, 0, 0, x⟩, insn, ⟨o'.code, 0, 0, k⟩] = true := by
    intro o' k ho'
    have hlast : bpfCheck 3 2 ⟨o'.code, 0, 0, k⟩ = true := by
      rcases ho' with rfl | rfl <;> apply bpfCheck_of_class <;> dsimp only <;> decide
    have hret : bpfClass o'.code = bpfRet := by rcases ho' with rfl | rfl <;> decide
    simp only [bpfValidate, zipIdx_cons, zipIdx_nil, all_cons, all_nil,
      length_cons, length_nil, Nat.zero_add, Nat.reduceAdd, hldx, hchk, hlast]
    simp [hret]
  have hrun := fun last => run_ldx_load p wirelen 0 x mem last ho hr
  have hrun' := fun last => run_ldx_load p wirelen n x mem last ho hr'
  have hretK : ∀ b v, step [⟨Opcode.ldxImm.code, 0, 0, x⟩, insn, ⟨Opcode.retK.code, 0, 0, 1⟩] p
      wirelen b ⟨2, v, x, mem⟩ = .ret 1 := by
    intro b v
    have : opcode Opcode.retK.code = some .retK := by decide
    simp [step, this, exec]
  have hretA : ∀ b v, step [⟨Opcode.ldxImm.code, 0, 0, x⟩, insn, ⟨Opcode.retA.code, 0, 0, 0⟩] p
      wirelen b ⟨2, v, x, mem⟩ = .ret v := by
    intro b v
    have : opcode Opcode.retA.code = some .retA := by decide
    simp [step, this, exec]
  cases r with
  | none =>
    cases r' with
    | none => exact absurd rfl hne
    | some w =>
      exact ⟨_, hval .retK 1 (.inl rfl), 0, 1, by decide, hrun _, (hrun' _).trans (hretK n w)⟩
  | some v =>
    cases r' with
    | none =>
      exact ⟨_, hval .retK 1 (.inl rfl), 1, 0, by decide, (hrun _).trans (hretK 0 v), hrun' _⟩
    | some w =>
      exact ⟨_, hval .retA 0 (.inr rfl), v, w, fun h => hne (by rw [h]),
        (hrun _).trans (hretA 0 v), (hrun' _).trans (hretA n w)⟩

/-- `ldh [5]` on a packet of five bytes. -/
theorem diverges_observable_half : ∃ last,
    bpfValidate [⟨Opcode.ldxImm.code, 0, 0, 0⟩, ⟨0x28, 0, 0, 5⟩, last] = true ∧ ∃ v w, v ≠ w ∧
      bpfFilter (some [⟨Opcode.ldxImm.code, 0, 0, 0⟩, ⟨0x28, 0, 0, 5⟩, last])
        ⟨fun _ => 1, ⟨5, fun _ => 1⟩, []⟩ 5 0 (fun _ => 0) 3 = .ret v ∧
      bpfFilter (some [⟨Opcode.ldxImm.code, 0, 0, 0⟩, ⟨0x28, 0, 0, 5⟩, last])
        ⟨fun _ => 1, ⟨5, fun _ => 1⟩, []⟩ 5 5 (fun _ => 0) 3 = .ret w :=
  diverges_observable ⟨rfl, by simp, fun _ _ => rfl⟩ (fun _ => 0) 5 0 ⟨0x28, 0, 0, 5⟩ .ldHAbs
    (by decide) (by decide : 5 < 5 + 2)

/-- On a validated program that keeps its accesses to `mem[]` in bounds, `bpf_filter` returns the
    same value for an mbuf chain and for the buffer with the same bytes whenever it executes no
    diverging load on the buffer; and it executes none exactly when the two runs agree after every
    instruction. -/
theorem bpfFilter_mbuf_eq_flat (f : List BpfInsn) (hlen : 1 ≤ f.length)
    (hval : bpfValidate f = true) (hmem : ∀ pc, ¬ UncheckedMem f pc) (p : Packet)
    (n wirelen : BitVec 32) (hp : p.Flat n) (mem : Fin bpfMemwords → BitVec 32) :
    ((∀ i st, bpfFilter (some f) p wirelen n mem i = .next st → ¬ DivergesAt f p n st) →
      ∃ v, bpfFilter (some f) p wirelen 0 mem f.length = .ret v ∧
        bpfFilter (some f) p wirelen n mem f.length = .ret v) ∧
    ((∀ i st, bpfFilter (some f) p wirelen n mem i = .next st → ¬ DivergesAt f p n st) ↔
      ∀ i, bpfFilter (some f) p wirelen 0 mem i = bpfFilter (some f) p wirelen n mem i) := by
  have hiff := run_mbuf_eq_flat_iff hp hp.ne_zero f wirelen (init mem)
  refine ⟨fun hdiv => ?_, hiff.symm⟩
  obtain ⟨v, hv⟩ := run_returns (p := p) hval (show (init mem).pc < f.length from hlen)
    (fun i st _ => hmem st.pc)
  exact ⟨v, by rw [bpfFilter, hiff.2 hdiv]; exact hv, hv⟩

/-- `ld [0]; ret a` on a packet of five bytes in two mbufs. -/
theorem bpfFilter_mbuf_eq_flat_two_mbufs :
    let f : List BpfInsn := [⟨0x20, 0, 0, 0⟩, ⟨0x16, 0, 0, 0⟩]
    let p : Packet := ⟨fun k => BitVec.ofNat 8 k, ⟨2, fun k => BitVec.ofNat 8 k⟩,
      [⟨3, fun k => BitVec.ofNat 8 (k + 2)⟩]⟩
    ∃ v, bpfFilter (some f) p 5 0 (fun _ => 0) 2 = .ret v ∧
      bpfFilter (some f) p 5 5 (fun _ => 0) 2 = .ret v := by
  intro f p
  have hin : ∀ insn ∈ f, insn.k.toNat < bpfMemwords := by decide
  have hmem : ∀ pc, ¬ UncheckedMem f pc := by
    rintro pc ⟨insn, hf, -, hk⟩
    have := hin insn (mem_of_getElem? hf); omega
  have hp : p.Flat 5 := by
    refine ⟨rfl, by simp [p], fun k hk => ?_⟩
    have : k < 5 := hk
    interval_cases k <;> rfl
  refine (bpfFilter_mbuf_eq_flat f (by decide) (by decide) hmem p 5 5 hp (fun _ => 0)).1 ?_
  rintro i st hst ⟨insn, o, hf, ho, hdiv⟩
  have hload : insn = ⟨0x20, 0, 0, 0⟩ ∨ insn = ⟨0x16, 0, 0, 0⟩ := by
    simpa [f] using mem_of_getElem? hf
  rcases hload with rfl | rfl
  · have hcode : opcode 0x20 = some .ldWAbs := by decide
    obtain rfl : o = .ldWAbs := by rw [hcode] at ho; exact (Option.some.inj ho).symm
    obtain ⟨-, m₁, m₀, next₀, k₁, hm, -, hs⟩ := hdiv
    cases hm
    exact absurd hs (by decide)
  · have hcode : opcode 0x16 = some .retA := by decide
    obtain rfl : o = .retA := by rw [hcode] at ho; exact (Option.some.inj ho).symm
    exact hdiv

/-- `ldh [5]; ret #1` accepts a chain of one byte and rejects the buffer with the same byte. -/
theorem ldh_past_end_differs :
    ¬ ∀ f : List BpfInsn, 1 ≤ f.length → bpfValidate f = true → (∀ pc, ¬ UncheckedMem f pc) →
      ∀ (p : Packet) (n wirelen : BitVec 32), p.Flat n → ∀ mem,
        ∃ v, bpfFilter (some f) p wirelen 0 mem f.length = .ret v ∧
          bpfFilter (some f) p wirelen n mem f.length = .ret v := by
  intro hall
  have hin : ∀ insn ∈ ([⟨0x28, 0, 0, 5⟩, ⟨0x06, 0, 0, 1⟩] : List BpfInsn),
      insn.k.toNat < bpfMemwords := by decide
  obtain ⟨v, h0, h1⟩ := hall [⟨0x28, 0, 0, 5⟩, ⟨0x06, 0, 0, 1⟩] (by decide) (by decide)
    (by
      rintro pc ⟨insn, hf, -, hk⟩
      have := hin insn (mem_of_getElem? hf)
      omega)
    ⟨fun _ => 7, ⟨1, fun _ => 7⟩, []⟩ 1 1 ⟨rfl, by simp, fun _ _ => rfl⟩ (fun _ => 0)
  have hmbuf : Outcome.ret 1 = .ret v := h0
  have hflat : Outcome.ret 0 = .ret v := h1
  cases hmbuf
  cases hflat

end FreeBSD.Bpf
