import FreeBSD.Kern.MbufTrim
import FreeBSD.Lib.Patch

/-!
# Copying back into an mbuf chain

`m_copyback` of `kern/uipc_mbuf.c` (lines 714–756): a string is written at an offset of a chain,
which is extended where it is too short. The arguments of `min` are converted to `u_int`, and
`totlen` is an `int`.

Mbufs may share an external buffer. `Apart` mbufs do not share the bytes of their data.

Results:
* `mCopybackSkip_spec`, `mCopybackCopy_spec`: what the two loops do.
* `mCopyback_spec`: the bytes and the packet length afterwards.
* `copyback_shared`: a byte that two mbufs share changes in both.
-/

namespace FreeBSD.UipcMbuf

open List Function
open Lib (patch)

variable {mem mem' : Mem} {m n : Mbuf} {ms ns pre rest : List Mbuf} {a : Allocator}

/-! ## Model -/

/-- `min` of `sys/libkern.h`. -/
def uMin (x y : ℕ) : ℕ := min (x % 2 ^ 32) (y % 2 ^ 32)

/-- The value of an `int`. -/
def int32 (x : ℤ) : ℤ := x.bmod (2 ^ 32)

/-- `bcopy` to `off` bytes behind `mtod(m)`. -/
def bcopyTo (mem : Mem) (m : Mbuf) (off : ℕ) (src : List Byte) : Option (Mem × Mbuf) :=
  match m.ext with
  | none => (bcopy src m.dat (m.data + off)).map fun dat => (mem, { m with dat := dat })
  | some b =>
    match mem b with
    | none => none
    | some e =>
      if m.data + off + src.length ≤ e.buf.length then
        some (Function.update mem b (some { e with buf := patch e.buf (m.data + off) src }), m)
      else none

/-- `MLEN` bytes that are zero. -/
def zeroDat : Dat := filled 0

/-- Where the first loop of `m_copyback` stops: `k` mbufs have been asked for, `out` if one of
    them was not there, and `m` comes after the mbufs `pre` and before `rest`. -/
structure Skipped where
  k : ℕ
  out : Bool
  pre : List Mbuf
  m : Mbuf
  rest : List Mbuf
  off : ℕ
  totlen : ℤ

/-- The first loop of `m_copyback` (lines 723–734), for at most `fuel` rounds. -/
def mCopybackSkip (a : Allocator) (len : ℕ) :
    ℕ → ℕ → List Mbuf → Mbuf → List Mbuf → ℕ → ℤ → Option Skipped
  | 0, _, _, _, _, _, _ => none
  | fuel + 1, k, pre, m, rest, off, totlen =>
    if off > m.len then
      let off := off - m.len
      let totlen := int32 (totlen + m.len)
      match rest with
      | [] =>
        match a.mbuf k with
        | none => some ⟨k + 1, true, pre, m, [], off, totlen⟩
        | some _ =>
          mCopybackSkip a len fuel (k + 1) (pre ++ [m])
            { mGet zeroDat with len := uMin mLen (len + off) } [] off totlen
      | n :: ns => mCopybackSkip a len fuel k (pre ++ [m]) n ns off totlen
    else some ⟨k, false, pre, m, rest, off, totlen⟩

/-- The second loop of `m_copyback` (lines 735–752), for at most `fuel` rounds: the chain from
    `m` on, and `totlen`. -/
def mCopybackCopy (a : Allocator) :
    ℕ → ℕ → Mem → Mbuf → List Mbuf → ℕ → List Byte → ℤ → Option (Mem × List Mbuf × ℤ)
  | 0, _, _, _, _, _, _, _ => none
  | fuel + 1, k, mem, m, rest, off, cp, totlen =>
    if cp.length > 0 then
      let mlen := uMin (m.len - off) cp.length
      match bcopyTo mem m off (cp.take mlen) with
      | none => none
      | some (mem, m) =>
        let cp := cp.drop mlen
        let totlen := int32 (totlen + (mlen + off : ℕ))
        if cp.length = 0 then some (mem, m :: rest, totlen)
        else
          match rest with
          | [] =>
            match a.mbuf k with
            | none => some (mem, [m], totlen)
            | some dat =>
              (mCopybackCopy a fuel (k + 1) mem { mGet dat with len := uMin mLen cp.length } [] 0
                cp totlen).map fun (mem, ms, totlen) => (mem, m :: ms, totlen)
          | n :: ns =>
            (mCopybackCopy a fuel k mem n ns 0 cp totlen).map
              fun (mem, ms, totlen) => (mem, m :: ms, totlen)
    else some (mem, m :: rest, totlen)

/-- `m_copyback(m0, off, len, cp)`, where `len` is the length of `cp`. -/
def mCopyback (a : Allocator) (mem : Mem) (m0 : List Mbuf) (off : ℕ) (cp : List Byte) :
    Option (Mem × List Mbuf) :=
  match m0 with
  | [] => some (mem, [])
  | m :: rest =>
    let fuel := 2 * rest.length + off + cp.length + 3
    match mCopybackSkip a cp.length fuel 0 [] m rest off 0 with
    | none => none
    | some s =>
      (if s.out then some (mem, s.m :: s.rest, s.totlen)
        else mCopybackCopy a fuel s.k mem s.m s.rest s.off cp s.totlen).map
          fun (mem, ms, totlen) =>
            (mem, setPkthdrLen (fun l => if l < totlen then totlen else l) (s.pre ++ ms))

/-! ## Numbers -/

theorem uMin_eq {x y : ℕ} (hx : x < 2 ^ 32) (hy : y < 2 ^ 32) : uMin x y = min x y := by
  unfold uMin
  rw [Nat.mod_eq_of_lt hx, Nat.mod_eq_of_lt hy]

theorem int32_add (x y : ℤ) : int32 (int32 x + y) = int32 (x + y) := Int.bmod_add_bmod

theorem int32_of_lt {x : ℕ} (h : x < 2 ^ 31) : int32 x = x := by
  unfold int32
  apply Int.bmod_eq_of_le
  · omega
  · omega

theorem Valid.len_lt (h : Valid mem m) : m.len < 2 ^ 32 := by
  cases hext : m.ext with
  | none =>
    have hroom := (h.internal hext).2
    simp only [mLen] at hroom; omega
  | some b =>
    obtain ⟨e, -, hroom, hsize⟩ := h.external b hext
    simp only [mCopyall] at hsize; omega

/-! ## Mbufs that do not share their data -/

/-- The two mbufs have no byte of an external buffer in common. -/
def Apart (m n : Mbuf) : Prop :=
  ∀ b, m.ext = some b → n.ext = some b →
    ∀ i, m.data ≤ i → i < m.data + m.len → n.data ≤ i → ¬ i < n.data + n.len

theorem Apart.symm (h : Apart m n) : Apart n m :=
  fun b hn hm i hlo hhi hlo' hhi' => h b hm hn i hlo' hhi' hlo hhi

theorem apart_internal (h : n.ext = none) : Apart m n := by
  intro b _ hb
  rw [h] at hb
  cases hb

/-- `m'` has its data where `m` has it. -/
structure SamePlace (m m' : Mbuf) : Prop where
  ext : m'.ext = m.ext
  data : m'.data = m.data
  len : m'.len = m.len
  pkthdr : m'.pkthdr = m.pkthdr

theorem Apart.congr {m' : Mbuf} (h : Apart m n) (hs : SamePlace m m') : Apart m' n := by
  unfold Apart
  rw [hs.ext, hs.data, hs.len]; exact h

/-- The mbufs of a chain that are apart from one of them. -/
theorem apart_of_pairwise (h : (pre ++ m :: rest).Pairwise Apart) :
    ∀ n ∈ pre ++ rest, Apart m n := by
  obtain ⟨-, hrest, hcross⟩ := pairwise_append.1 h
  intro n hn
  obtain hn | hn := mem_append.1 hn
  · exact (hcross n hn m mem_cons_self).symm
  · exact (pairwise_cons.1 hrest).1 n hn

theorem pairwise_congr {m' : Mbuf} (h : (pre ++ m :: rest).Pairwise Apart) (hs : SamePlace m m') :
    (pre ++ m' :: rest).Pairwise Apart := by
  have hm := apart_of_pairwise h
  obtain ⟨hpre, hrest, hcross⟩ := pairwise_append.1 h
  refine pairwise_append.2 ⟨hpre, pairwise_cons.2 ⟨?_, (pairwise_cons.1 hrest).2⟩,
    ?_⟩
  · intro n hn; exact (hm n (mem_append_right _ hn)).congr hs
  · intro n hn l hl
    obtain rfl | hl := mem_cons.1 hl
    · exact ((hm n (mem_append_left _ hn)).congr hs).symm
    · exact hcross n hn l (mem_cons_of_mem _ hl)

/-! ## Writing into an mbuf -/

theorem getElem?_readAt (s : List Byte) (off len i : ℕ) :
    (readAt s off len)[i]? = if i < len then s[off + i]? else none := by
  unfold readAt
  by_cases hi : i < len
  · rw [if_pos hi, List.getElem?_take_of_lt hi, List.getElem?_drop]
  · rw [if_neg hi, List.getElem?_eq_none]
    rw [length_take]; omega

/-- What is written inside of what is read. -/
theorem readAt_patch {s src : List Byte} {d off len : ℕ} (hoff : off + src.length ≤ len)
    (hroom : d + len ≤ s.length) :
    readAt (patch s (d + off) src) d len = patch (readAt s d len) off src := by
  have hlen : (readAt s d len).length = len := length_readAt hroom
  apply ext_getElem?
  intro i
  rw [getElem?_readAt, Lib.getElem?_patch (by omega), Lib.getElem?_patch (by omega),
    getElem?_readAt]
  by_cases hin : off ≤ i ∧ i < off + src.length
  · rw [if_pos (by omega), if_pos (by omega), if_pos hin]
    congr 1
    omega
  · by_cases hi : i < len
    · rw [if_pos hi, if_neg (by omega), if_neg hin, if_pos hi]
    · rw [if_neg hi, if_neg hin, if_neg hi]

/-- What is written outside of what is read. -/
theorem readAt_patch_apart {s src : List Byte} {p d len : ℕ} (hroom : p + src.length ≤ s.length)
    (hap : ∀ i, p ≤ i → i < p + src.length → d ≤ i → ¬ i < d + len) :
    readAt (patch s p src) d len = readAt s d len := by
  apply ext_getElem?
  intro i
  rw [getElem?_readAt, getElem?_readAt]
  by_cases hi : i < len
  · rw [if_pos hi, if_pos hi, Lib.getElem?_patch (by omega), if_neg]
    intro hin; exact hap (d + i) hin.1 hin.2 (by omega) (by omega)
  · rw [if_neg hi, if_neg hi]

theorem bcopy_eq_patch (src : List Byte) (dst : Dat) (off : ℕ) (h : off + src.length ≤ mLen) :
    ∃ dat : Dat, bcopy src dst off = some dat ∧ dat.1 = patch dst.1 off src :=
  ⟨_, dif_pos h, rfl⟩

/-- What `bcopyTo` changes. -/
structure Written (mem mem' : Mem) (m m' : Mbuf) (off : ℕ) (src : List Byte) : Prop where
  place : SamePlace m m'
  bytes : mtod mem' m' = patch (mtod mem m) off src
  others : ∀ n, Apart m n → mtod mem' n = mtod mem n
  valid : ∀ n, Valid mem n → Valid mem' n
  valid_self : Valid mem' m'

/-- The bytes of `m` are written over, and those of the mbufs that are apart from it stay. -/
theorem bcopyTo_spec (hm : Valid mem m) (off : ℕ) (src : List Byte)
    (hoff : off + src.length ≤ m.len) :
    ∃ mem' m', bcopyTo mem m off src = some (mem', m') ∧ Written mem mem' m m' off src := by
  cases hext : m.ext with
  | none =>
    have hroom := (hm.internal hext).2
    obtain ⟨dat, hrun, hdat⟩ := bcopy_eq_patch src m.dat (m.data + off) (by omega)
    have hcopy : bcopyTo mem m off src = some (mem, { m with dat := dat }) := by
      simp only [bcopyTo, hext, hrun, Option.map_some]
    refine ⟨mem, _, hcopy, ⟨rfl, rfl, rfl, rfl⟩, ?_, fun _ _ => rfl, fun _ hn => hn,
      ⟨hm.internal, hm.external⟩⟩
    have hst : storage mem m = m.dat.1 := by simp only [storage, hext]
    have hst' : storage mem { m with dat := dat } = dat.1 := by simp only [storage, hext]
    rw [mtod, mtod, hst, hst', hdat]
    apply readAt_patch hoff
    rw [m.dat.2]; exact hroom
  | some b =>
    obtain ⟨e, he, hroom, hsize⟩ := hm.external b hext
    have hlen : (patch e.buf (m.data + off) src).length = e.buf.length := by
      rw [Lib.length_patch (by omega)]
      omega
    have hst (n : Mbuf) (c : ℕ) (hc : n.ext = some c) :
        storage (Function.update mem b (some { e with buf := patch e.buf (m.data + off) src })) n =
          if c = b then patch e.buf (m.data + off) src else storage mem n := by
      simp only [storage, hc]
      by_cases hcb : c = b
      · subst hcb
        rw [update_self, if_pos rfl]; rfl
      · rw [update_of_ne hcb, if_neg hcb]
    have hvalid (n : Mbuf) (hn : Valid mem n) : Valid
        (Function.update mem b (some { e with buf := patch e.buf (m.data + off) src })) n := by
      refine ⟨hn.internal, ?_⟩
      intro c hc
      obtain ⟨e', he', hroom', hsize'⟩ := hn.external c hc
      by_cases hcb : c = b
      · subst hcb
        obtain rfl := Option.some.inj (he.symm.trans he')
        refine ⟨_, update_self _ _ _, ?_, ?_⟩
        · exact hroom'.trans hlen.ge
        · exact hlen.le.trans hsize'
      · exact ⟨e', (update_of_ne hcb _ _).trans he', hroom', hsize'⟩
    have hself : storage mem m = e.buf := by
      simp only [storage, hext, he, Option.map_some, Option.getD_some]
    have hfit : m.data + off + src.length ≤ e.buf.length := by omega
    refine ⟨_, m, ?_, ⟨rfl, rfl, rfl, rfl⟩, ?_, ?_, hvalid, hvalid m hm⟩
    · simp only [bcopyTo, hext, he, hfit, if_true]
    · rw [mtod, hst m b hext, if_pos rfl, mtod, hself]; exact readAt_patch hoff hroom
    · intro n hap
      cases hn : n.ext with
      | none => simp only [mtod, storage, hn]
      | some c =>
        rw [mtod, hst n c hn, mtod]
        by_cases hcb : c = b
        · subst hcb
          have hn' : storage mem n = e.buf := by
            simp only [storage, hn, he, Option.map_some, Option.getD_some]
          rw [if_pos rfl, hn']
          apply readAt_patch_apart (by omega)
          intro i hlo hhi; exact hap c hext hn i (by omega) (by omega)
        · rw [if_neg hcb]

/-- The write as a step of a chain. -/
theorem Written.chain {m' : Mbuf} {off : ℕ} {src : List Byte} (hw : Written mem mem' m m' off src)
    (hv : ∀ n ∈ pre ++ m :: rest, Valid mem n) (hap : (pre ++ m :: rest).Pairwise Apart) :
    (∀ n ∈ pre ++ [m'] ++ rest, Valid mem' n) ∧ (pre ++ [m'] ++ rest).Pairwise Apart ∧
      ∀ n ∈ pre ++ rest, mtod mem' n = mtod mem n := by
  refine ⟨?_, ?_, ?_⟩
  · intro n hn
    simp only [mem_append, mem_singleton] at hn
    obtain (hn | rfl) | hn := hn
    · exact hw.valid n (hv n (mem_append_left _ hn))
    · exact hw.valid_self
    · exact hw.valid n (hv n (mem_append_right _ (mem_cons_of_mem _ hn)))
  · rw [append_assoc]; exact pairwise_congr hap hw.place
  · intro n hn; exact hw.others n (apart_of_pairwise hap n hn)

/-- An mbuf without a packet header that has been asked for. -/
theorem valid_get {dat : Dat} {len : ℕ} (h : len ≤ mLen) :
    Valid mem { mGet dat with len := len } := by
  refine ⟨?_, (fun b hb => by cases hb)⟩
  intro _
  refine ⟨(fun hsome => by cases hsome), ?_⟩
  show 0 + len ≤ mLen
  omega

/-- A new mbuf at the end of a chain. -/
theorem append_get (dat : Dat) {len : ℕ} (h : len ≤ mLen) (hv : ∀ n ∈ ms, Valid mem n)
    (hap : ms.Pairwise Apart) :
    (∀ n ∈ ms ++ [{ mGet dat with len := len }], Valid mem n) ∧
      (ms ++ [{ mGet dat with len := len }]).Pairwise Apart := by
  constructor
  · intro n hn
    obtain hn | hn := mem_append.1 hn
    · exact hv n hn
    · rw [mem_singleton.1 hn]; exact valid_get h
  · refine pairwise_append.2 ⟨hap, pairwise_singleton _ _, ?_⟩
    intro n _ l hl
    rw [mem_singleton.1 hl]; exact apart_internal rfl

/-! ## The loops -/

/-- All mbufs that are asked for are there. -/
def Plenty (a : Allocator) : Prop := ∀ k, ∃ dat, a.mbuf k = some dat

/-- The first loop finds the mbuf with the offset, and appends zeros where there is none. -/
theorem mCopybackSkip_spec (ha : Plenty a) {len : ℕ} (hlen : len < 2 ^ 31) (fuel k : ℕ)
    (pre : List Mbuf) (m : Mbuf) (rest : List Mbuf) (off : ℕ) (t : ℤ) (hoff : off < 2 ^ 31)
    (hfuel : 2 * rest.length + off + (if m.len = 0 then 1 else 0) < fuel)
    (hv : ∀ n ∈ pre ++ m :: rest, Valid mem n) (hap : (pre ++ m :: rest).Pairwise Apart) :
    ∃ s ext z, mCopybackSkip a len fuel k pre m rest off (int32 t) = some s ∧ s.out = false ∧
      s.off ≤ s.m.len ∧ s.pre ++ s.m :: s.rest = pre ++ m :: rest ++ ext ∧
      (∀ n ∈ s.pre ++ s.m :: s.rest, Valid mem n) ∧ (s.pre ++ s.m :: s.rest).Pairwise Apart ∧
      bytes mem ext = List.replicate z 0 ∧
      (z = 0 ∨ (bytes mem (pre ++ m :: rest)).length + z ≤ (bytes mem pre).length + off + len) ∧
      (bytes mem s.pre).length + s.off = (bytes mem pre).length + off ∧
      s.totlen = int32 (t + off - s.off) ∧ s.rest.length ≤ rest.length := by
  induction fuel generalizing k pre m rest off t with
  | zero => omega
  | succ fuel ih =>
    have hm : Valid mem m := hv m (mem_append_right _ mem_cons_self)
    have hmlen := hm.length_mtod
    rw [mCopybackSkip]
    by_cases hgt : off > m.len
    · rw [if_pos hgt]
      have hpre : (bytes mem (pre ++ [m])).length = (bytes mem pre).length + m.len := by
        rw [bytes_append, length_append, bytes_cons, bytes_nil, append_nil, hmlen]
      have htot (x : ℕ) : t + m.len + ((off - m.len : ℕ) : ℤ) - x = t + off - x := by omega
      cases rest with
      | nil =>
        -- the chain ends here: zeros are appended
        obtain ⟨dat, hdat⟩ := ha k
        have hmin : uMin mLen (len + (off - m.len)) = min mLen (len + (off - m.len)) :=
          uMin_eq (by simp only [mLen]; omega) (by omega)
        obtain ⟨hv', hap'⟩ := append_get zeroDat (min_le_left mLen (len + (off - m.len)))
          hv hap
        have hfuel' : 2 * ([] : List Mbuf).length + (off - m.len) +
            (if min mLen (len + (off - m.len)) = 0 then 1 else 0) < fuel := by
          have hpos : min mLen (len + (off - m.len)) ≠ 0 := by simp only [mLen]; omega
          rw [if_neg hpos]
          rw [length_nil] at hfuel ⊢
          split_ifs at hfuel with hz
          · omega
          · omega
        obtain ⟨s, ext, z, hrun, hout, hle, hchain, hsv, hsap, hz, hzle, hpos, htl, hrest⟩ :=
          ih (k + 1) (pre ++ [m]) { mGet zeroDat with len := min mLen (len + (off - m.len)) } []
            (off - m.len) (t + m.len) (by omega) hfuel' hv' hap'
        have hnew : mtod mem { mGet zeroDat with len := min mLen (len + (off - m.len)) } =
            List.replicate (min mLen (len + (off - m.len))) 0 := by
          show ((List.replicate mLen (0 : Byte)).drop 0).take (min mLen (len + (off - m.len))) = _
          rw [drop_zero, take_replicate, min_eq_left (min_le_left _ _)]
        refine ⟨s, { mGet zeroDat with len := min mLen (len + (off - m.len)) } :: ext,
          min mLen (len + (off - m.len)) + z, ?_, hout, hle, ?_, hsv, hsap, ?_, ?_, ?_, ?_, hrest⟩
        · dsimp only
          rw [hdat, hmin, int32_add]; exact hrun
        · rw [hchain]; simp only [append_assoc, cons_append, nil_append]
        · rw [bytes_cons, hnew, hz, ← replicate_add]
        · rw [bytes_append, length_append, bytes_cons, bytes_nil, append_nil, hnew,
            length_replicate, hpre] at hzle
          rw [hpre]; omega
        · rw [hpos, hpre]; omega
        · rw [htl, htot]
      | cons n ns =>
        have hassoc : pre ++ m :: n :: ns = pre ++ [m] ++ n :: ns := by rw [append_assoc]; rfl
        rw [hassoc] at hv hap
        have hfuel' : 2 * ns.length + (off - m.len) + (if n.len = 0 then 1 else 0) < fuel := by
          rw [length_cons] at hfuel
          split_ifs at hfuel ⊢
          all_goals omega
        obtain ⟨s, ext, z, hrun, hout, hle, hchain, hsv, hsap, hz, hzle, hpos, htl, hrest⟩ :=
          ih k (pre ++ [m]) n ns (off - m.len) (t + m.len) (by omega) hfuel' hv hap
        refine ⟨s, ext, z, ?_, hout, hle, ?_, hsv, hsap, hz, ?_, ?_, ?_,
          hrest.trans (Nat.le_succ _)⟩
        · dsimp only
          rw [int32_add]; exact hrun
        · rw [hchain, hassoc]
        · rw [hassoc]; omega
        · rw [hpos, hpre]; omega
        · rw [htl, htot]
    · rw [if_neg hgt]
      refine ⟨_, [], 0, rfl, rfl, by dsimp only; omega, (append_nil _).symm, hv, hap, rfl,
        .inl rfl, rfl, ?_, le_rfl⟩
      dsimp only
      rw [show t + off - off = t by omega]

/-- What the second loop leaves, from the mbuf `m` on; `pre` comes before it. -/
structure CopiedBack (mem mem' : Mem) (pre : List Mbuf) (m : Mbuf) (rest ms : List Mbuf) (off : ℕ)
    (cp : List Byte) : Prop where
  before : ∀ n ∈ pre, mtod mem' n = mtod mem n
  bytes : bytes mem' ms = patch (bytes mem (m :: rest)) off cp
  valid : ∀ n ∈ pre ++ ms, Valid mem' n
  hdr : hdrLen ms = m.pkthdr

/-- The second loop writes the string over the chain, and appends what is left of it. -/
theorem mCopybackCopy_spec (ha : Plenty a) (fuel k : ℕ) (mem : Mem) (pre : List Mbuf) (m : Mbuf)
    (rest : List Mbuf) (off : ℕ) (cp : List Byte) (t : ℤ) (hoff : off ≤ m.len)
    (hcp : cp.length < 2 ^ 31)
    (hfuel : 2 * rest.length + cp.length + (if m.len = off then 1 else 0) < fuel)
    (hv : ∀ n ∈ pre ++ m :: rest, Valid mem n) (hap : (pre ++ m :: rest).Pairwise Apart) :
    ∃ mem' ms t', mCopybackCopy a fuel k mem m rest off cp (int32 t) = some (mem', ms, t') ∧
      CopiedBack mem mem' pre m rest ms off cp ∧
      (cp ≠ [] → t' = int32 (t + (off + cp.length : ℕ))) := by
  induction fuel generalizing k mem pre m rest off cp t with
  | zero => omega
  | succ fuel ih =>
    have hm : Valid mem m := hv m (mem_append_right _ mem_cons_self)
    have hmlen := hm.length_mtod
    rw [mCopybackCopy]
    by_cases hpos : cp.length > 0
    · rw [if_pos hpos]
      have hlt := hm.len_lt
      have hmin : uMin (m.len - off) cp.length = min (m.len - off) cp.length :=
        uMin_eq (by omega) (by omega)
      rw [hmin]
      generalize hml : min (m.len - off) cp.length = mlen
      have htake : (cp.take mlen).length = mlen := by rw [length_take]; omega
      obtain ⟨mem1, m1, hcopy, hw⟩ := bcopyTo_spec hm off (cp.take mlen) (by omega)
      obtain ⟨hv1, hap1, hothers⟩ := hw.chain hv hap
      have hhdr : m1.pkthdr = m.pkthdr := hw.place.pkthdr
      dsimp only
      rw [hcopy]
      dsimp only
      rw [int32_add]
      by_cases hdone : (cp.drop mlen).length = 0
      · -- the string ends in this mbuf
        rw [if_pos hdone]
        rw [length_drop] at hdone
        have hall : cp.take mlen = cp := take_of_length_le (by omega)
        have hfits : cp.length ≤ m.len - off := by omega
        refine ⟨mem1, m1 :: rest, _, rfl, ⟨?_, ?_, ?_, hhdr⟩, ?_⟩
        · intro n hn; exact hothers n (mem_append_left _ hn)
        · have hrest : bytes mem1 rest = bytes mem rest :=
            flatMap_congr fun n hn => hothers n (mem_append_right _ hn)
          rw [bytes_cons, bytes_cons, hw.bytes, hrest, hall, Lib.patch_append (by omega), hmlen,
            take_of_length_le hfits, drop_of_length_le hfits, Lib.patch_nil]
        · rw [append_assoc] at hv1; exact hv1
        · intro _
          congr 2
          omega
      · rw [if_neg hdone]
        rw [length_drop] at hdone
        have hml' : mlen = m.len - off := by omega
        have hcp' : (cp.drop mlen).length = cp.length - mlen := length_drop
        have hne : cp.drop mlen ≠ [] := by
          intro h
          rw [h, length_nil] at hcp'; omega
        have htot (x : ℕ) (hx : x = (mlen + off : ℕ) + (0 + (cp.drop mlen).length)) :
            t + ((mlen + off : ℕ) : ℤ) + ((0 + (cp.drop mlen).length : ℕ) : ℤ) = t + (x : ℕ) := by
          omega
        cases rest with
        | nil =>
          -- the chain ends here: a new mbuf takes as much as it can
          obtain ⟨dat, hdat⟩ := ha k
          have hmin' : uMin mLen (cp.drop mlen).length = min mLen (cp.drop mlen).length :=
            uMin_eq (by simp only [mLen]; omega) (by omega)
          rw [append_nil] at hv1 hap1
          obtain ⟨hv2, hap2⟩ := append_get dat
            (min_le_left mLen (cp.drop mlen).length) hv1 hap1
          have hfuel' : 2 * ([] : List Mbuf).length + (cp.drop mlen).length +
              (if min mLen (cp.drop mlen).length = 0 then 1 else 0) < fuel := by
            have hpos' : min mLen (cp.drop mlen).length ≠ 0 := by simp only [mLen]; omega
            rw [if_neg hpos']
            rw [length_nil] at hfuel ⊢
            split_ifs at hfuel
            all_goals omega
          obtain ⟨mem2, ms, t', hrun, hcb, ht'⟩ := ih (k + 1) mem1 (pre ++ [m1])
            { mGet dat with len := min mLen (cp.drop mlen).length } [] 0 (cp.drop mlen)
            (t + (mlen + off : ℕ)) (Nat.zero_le _) (by omega) hfuel' hv2 hap2
          refine ⟨mem2, m1 :: ms, t', ?_, ⟨?_, ?_, ?_, hhdr⟩, ?_⟩
          · dsimp only
            rw [hdat, hmin']
            dsimp only
            rw [hrun]; rfl
          · intro n hn
            rw [hcb.before n (mem_append_left _ hn)]
            exact hothers n (mem_append_left _ hn)
          · have hlen2 :
                (bytes mem1 [{ mGet dat with len := min mLen (cp.drop mlen).length }]).length = _ :=
              length_bytes fun n hn => hv2 n (mem_append_right _ hn)
            rw [map_singleton, sum_singleton] at hlen2
            rw [bytes_cons, hcb.bytes, hcb.before m1 (by simp), hw.bytes,
              Lib.patch_zero_of_le (by rw [hlen2]; exact min_le_right _ _), bytes_cons,
              Lib.patch_append (by omega), bytes_nil, Lib.patch_zero_of_le (Nat.zero_le _), hmlen,
              ← hml']
          · have hvalid := hcb.valid
            rw [append_assoc] at hvalid; exact hvalid
          · intro _
            rw [ht' hne, htot (off + cp.length) (by omega)]
        | cons n ns =>
          have hfuel' : 2 * ns.length + (cp.drop mlen).length + (if n.len = 0 then 1 else 0) <
              fuel := by
            rw [length_cons] at hfuel
            split_ifs at hfuel ⊢
            all_goals omega
          obtain ⟨mem2, ms, t', hrun, hcb, ht'⟩ := ih k mem1 (pre ++ [m1]) n ns 0 (cp.drop mlen)
            (t + (mlen + off : ℕ)) (Nat.zero_le _) (by omega) hfuel' hv1 hap1
          refine ⟨mem2, m1 :: ms, t', ?_, ⟨?_, ?_, ?_, hhdr⟩, ?_⟩
          · dsimp only
            rw [hrun]; rfl
          · intro l hl
            rw [hcb.before l (mem_append_left _ hl)]
            exact hothers l (mem_append_left _ hl)
          · have hrest : bytes mem1 (n :: ns) = bytes mem (n :: ns) :=
              flatMap_congr fun l hl => hothers l (mem_append_right _ hl)
            rw [bytes_cons, hcb.bytes, hcb.before m1 (by simp), hw.bytes, hrest, bytes_cons
              (m := m),
              Lib.patch_append (by omega), hmlen, ← hml']
          · have hvalid := hcb.valid
            rw [append_assoc] at hvalid; exact hvalid
          · intro _
            rw [ht' hne, htot (off + cp.length) (by omega)]
    · have hnil : cp = [] := eq_nil_of_length_eq_zero (by omega)
      rw [if_neg hpos]
      refine ⟨mem, m :: rest, _, rfl, ⟨fun _ _ => rfl, ?_, hv, rfl⟩, fun h => absurd hnil h⟩
      rw [hnil, Lib.patch_nil]

/-! ## `m_copyback` -/

/-- The bytes with zeros up to `off`. -/
def padded (bs : List Byte) (off : ℕ) : List Byte := bs ++ List.replicate (off - bs.length) 0

/-- More zeros than needed, where they are written over. -/
theorem patch_zeros {bs cp : List Byte} {off z : ℕ} (hoff : off ≤ bs.length + z)
    (hz : z = 0 ∨ bs.length + z ≤ off + cp.length) :
    patch (bs ++ List.replicate z 0) off cp = patch (padded bs off) off cp := by
  unfold padded
  by_cases hle : off ≤ bs.length
  · have hgap : off - bs.length = 0 := by omega
    have hnil : patch (bs ++ []) off cp =
        patch bs off (cp.take (bs.length - off)) ++ patch [] 0 (cp.drop (bs.length - off)) :=
      Lib.patch_append hle
    rw [append_nil, Lib.patch_zero_of_le (Nat.zero_le _)] at hnil
    rw [hgap, replicate_zero, append_nil, Lib.patch_append hle, hnil,
      Lib.patch_zero_of_le]
    rw [length_replicate, length_drop]; omega
  · have hsplit : z = (off - bs.length) + (z - (off - bs.length)) := by omega
    rw [hsplit, replicate_add, ← append_assoc]
    apply Lib.patch_append_covered
    · rw [length_append, length_replicate]; omega
    · rw [length_replicate]; omega

theorem hdrLen_append {ms ms' : List Mbuf} (h : hdrLen ms' = hdrLen ms) :
    hdrLen (pre ++ ms') = hdrLen (pre ++ ms) := by
  cases pre with
  | nil => exact h
  | cons n pre => rfl

/-- Where all mbufs are there and no two mbufs of the chain share bytes, `m_copyback` pads the
bytes with zeros up to `off` and writes the string at `off`; a right packet length stays right. -/
theorem mCopyback_spec (ha : Plenty a) (hne : ms ≠ []) (hv : ∀ m ∈ ms, Valid mem m)
    (hap : ms.Pairwise Apart) {off : ℕ} (hoff : off < 2 ^ 31) {cp : List Byte}
    (hcp : cp.length < 2 ^ 31) :
    ∃ mem' ms', mCopyback a mem ms off cp = some (mem', ms') ∧ (∀ m ∈ ms', Valid mem' m) ∧
      bytes mem' ms' = patch (padded (bytes mem ms) off) off cp ∧
      (hdrLen ms).isSome = (hdrLen ms').isSome ∧
      (cp ≠ [] → off + cp.length < 2 ^ 31 → hdrLen ms = some ((bytes mem ms).length : ℤ) →
        hdrLen ms' = some ((max (bytes mem ms).length (off + cp.length) : ℕ) : ℤ)) := by
  obtain ⟨m, rest, rfl⟩ := exists_cons_of_ne_nil hne
  have hfuel : 2 * rest.length + off + (if m.len = 0 then 1 else 0) <
      2 * rest.length + off + cp.length + 3 := by
    split_ifs
    all_goals omega
  obtain ⟨s, ext, z, hskip, hout, hle, hchain, hsv, hsap, hz, hzle, hpos, htl, hrest⟩ :=
    mCopybackSkip_spec ha hcp _ 0 [] m rest off 0 hoff hfuel hv hap
  have hlen := congrArg (fun ms => (bytes mem ms).length) hchain
  simp only [bytes_append, length_append, hz, length_replicate, nil_append,
    bytes_nil, length_nil, Nat.zero_add] at hlen hzle hpos
  have hsm : (mtod mem s.m).length = s.m.len :=
    (hsv s.m (mem_append_right _ mem_cons_self)).length_mtod
  have hfuel' : 2 * s.rest.length + cp.length + (if s.m.len = s.off then 1 else 0) <
      2 * rest.length + off + cp.length + 3 := by
    split_ifs
    all_goals omega
  obtain ⟨mem', ms', t', hcopy, hcb, ht'⟩ :=
    mCopybackCopy_spec ha (2 * rest.length + off + cp.length + 3) s.k mem s.pre s.m s.rest s.off cp
      (0 + off - s.off) hle hcp hfuel' hsv hsap
  have hrun : mCopyback a mem (m :: rest) off cp =
      some (mem', setPkthdrLen (fun l => if l < t' then t' else l) (s.pre ++ ms')) := by
    unfold mCopyback
    dsimp only
    rw [show (0 : ℤ) = int32 0 from rfl, hskip]
    dsimp only
    rw [hout, htl, hcopy]; rfl
  obtain ⟨hvalid, -, hbytes, hhdr⟩ := setPkthdrLen_spec
    (fun l => if l < t' then t' else l) hcb.valid
  have hsame : hdrLen (s.pre ++ ms') = hdrLen (m :: rest) := by
    have hhead : hdrLen (s.pre ++ s.m :: s.rest) = hdrLen (m :: rest) := by rw [hchain]; rfl
    rw [← hhead]
    apply hdrLen_append
    rw [hcb.hdr]; rfl
  refine ⟨mem', _, hrun, hvalid, ?_, ?_, ?_⟩
  · have hpre : bytes mem' s.pre = bytes mem s.pre := flatMap_congr hcb.before
    have hall : bytes mem (s.pre ++ s.m :: s.rest) =
        bytes mem (m :: rest) ++ List.replicate z 0 := by
      rw [hchain, bytes_append, hz]; rfl
    rw [hbytes, bytes_append, hpre, hcb.bytes, ← patch_zeros (z := z), ← hall, bytes_append,
      Lib.patch_append_right (by omega)]
    · congr 2
      omega
    · rw [bytes_cons, length_append] at hlen; omega
    · exact hzle
  · rw [hhdr, hsame, Option.isSome_map]
  · intro hne' hfit hl
    have htot : t' = (off + cp.length : ℕ) := by
      rw [ht' hne', ← int32_of_lt hfit]
      congr 1
      omega
    rw [hhdr, hsame, hl, Option.map_some, htot]
    congr 1
    split_ifs
    all_goals omega

/-- What an mbuf holds. -/
def sampleDat : Dat := filled 9

/-- A packet of one byte. -/
def oneByte : List Mbuf :=
  [{ pkthdr := some 1, ext := none, data := 24, len := 1, dat := sampleDat }]

theorem oneByte_valid : ∀ m ∈ oneByte, Valid (fun _ => none) m := by
  intro m hm
  obtain rfl := mem_singleton.1 hm
  exact ⟨fun _ => ⟨fun _ => by decide, by decide⟩, (fun b hb => by cases hb)⟩

/-- A byte is written two places behind the packet. -/
theorem mCopyback_oneByte : ∃ mem' ms',
    mCopyback ⟨fun _ => some sampleDat, true⟩ (fun _ => none) oneByte 3 [7] = some (mem', ms') ∧
      (∀ m ∈ ms', Valid mem' m) ∧
      bytes mem' ms' = patch (padded (bytes (fun _ => none) oneByte) 3) 3 [7] ∧
      (hdrLen oneByte).isSome = (hdrLen ms').isSome ∧
      ([7] ≠ ([] : List Byte) → 3 + ([7] : List Byte).length < 2 ^ 31 →
        hdrLen oneByte = some ((bytes (fun _ => none) oneByte).length : ℤ) →
        hdrLen ms' = some ((max (bytes (fun _ => none) oneByte).length
          (3 + ([7] : List Byte).length) : ℕ) : ℤ)) :=
  mCopyback_spec (fun _ => ⟨sampleDat, rfl⟩) (cons_ne_nil _ _) oneByte_valid
    (pairwise_singleton _ _) (by decide) (by decide)

/-! ## Shared bytes -/

/-- Two mbufs with the same byte of a cluster. -/
def twice : List Mbuf :=
  [{ pkthdr := none, ext := some 0, data := 0, len := 1, dat := zeroDat },
   { pkthdr := none, ext := some 0, data := 0, len := 1, dat := zeroDat }]

/-- The cluster. -/
def twiceMem : Mem := fun b => if b = 0 then some ⟨[5], 2⟩ else none

/-- The chain is a valid one, with the right counter, but the second byte changes when the first
one is written. -/
theorem copyback_shared :
    Chain twiceMem twice (fun _ => 0) ∧ bytes twiceMem twice = [5, 5] ∧
      ∃ mem', mCopyback ⟨fun _ => some zeroDat, true⟩ twiceMem twice 0 [7] = some (mem', twice) ∧
        bytes mem' twice = [7, 7] ∧ patch (padded [5, 5] 0) 0 [7] = [7, 5] := by
  refine ⟨⟨?_, ?_⟩, rfl, _, rfl, rfl, rfl⟩
  · intro m hm
    have hext : m.ext = some 0 ∧ m.data + m.len = 1 := by
      simp only [twice, mem_cons, not_mem_nil, or_false, or_self] at hm
      rw [hm]; exact ⟨rfl, rfl⟩
    refine ⟨?_, ?_⟩
    · intro hnone
      rw [hext.1] at hnone
      cases hnone
    · intro b hb
      obtain rfl := Option.some.inj (hext.1.symm.trans hb)
      exact ⟨_, rfl, hext.2.le, by decide⟩
  · intro b
    by_cases hb : b = 0
    · subst hb
      refine ⟨rfl, ?_⟩
      intro e he
      obtain rfl := Option.some.inj he
      exact Nat.two_pos
    · have hne : ¬ some 0 = some b := fun heq => hb (Option.some.inj heq).symm
      constructor
      · simp [twiceMem, twice, refs_cons, hb, hne]
      · intro e he; simp [twiceMem, hb] at he

end FreeBSD.UipcMbuf
