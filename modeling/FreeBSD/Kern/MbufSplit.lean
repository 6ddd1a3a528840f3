import FreeBSD.Kern.MbufCopy

/-!
# Splitting an mbuf chain

`m_split` of `kern/uipc_mbuf.c` (lines 578–645): the chain after its first `len0` bytes becomes a
chain of its own. Where `m0` has a packet header and the mbuf with the breaking point is too large
for the new header mbuf, `m_split` calls itself for an mbuf more.

`sizeof(long)` is 4, as on i386. The comment of the source says that a failure restores the chain.
The packet length is set before the inner call, and nothing sets it back where that call fails.

Results:
* `mSplit_iff`: `m_split` divides the bytes and the packet length, and leaves the chain where an
  allocation fails, unless only the inner call fails.
* `split_forgets_length`: the packet length of a chain after a failure.
-/

namespace FreeBSD.UipcMbuf

open List Option

variable {mem : Mem} {m n : Mbuf} {ms pre rest : List Mbuf} {other : ℕ → ℕ} {a : Allocator}
  {len len0 : ℕ}

/-! ## Model -/

/-- `x & ~(sizeof(long) - 1)`. -/
def alignDown (x : ℕ) : ℕ := x / 4 * 4

/-- The first loop (lines 594–595): the mbufs before `m`, `m`, the mbufs behind it, and how much of
    `m` stays. -/
def splitPoint : List Mbuf → ℕ → Option (List Mbuf × Mbuf × List Mbuf × ℕ)
  | [], _ => none
  | m :: ms, len =>
    if len > m.len then
      (splitPoint ms (len - m.len)).map fun (pre, n, rest, len) => (m :: pre, n, rest, len)
    else some ([], m, ms, len)

/-- `m0->m_pkthdr.len` is set, where `m0` comes first. -/
def setFirst (l : ℤ) : List Mbuf → Mbuf → List Mbuf × Mbuf
  | [], m => ([], { m with pkthdr := some l })
  | p :: ps, m => ({ p with pkthdr := some l } :: ps, m)

/-- What `m_split` leaves: `k` mbufs have been asked for, and `tail` is what it returns. -/
structure Split where
  k : ℕ
  mem : Mem
  m0 : List Mbuf
  tail : List Mbuf

/-- The data of the new mbuf `n` (lines 632–640). -/
def mSplitData (mem : Mem) (len : ℕ) (n m : Mbuf) : Option (Mem × Mbuf) :=
  let remain := m.len - len
  match m.ext with
  | some b =>
    some (mextAddRef mem b, { n with ext := some b, data := m.data + len, len := remain })
  | none =>
    (bcopy (readAt m.dat.1 (m.data + len) remain) n.dat n.data).map fun dat =>
      (mem, { n with dat := dat, len := remain })

/-- From `extpacket` on (lines 631–644), with the new mbuf `n`. -/
def mSplitPlain (k : ℕ) (mem : Mem) (pre : List Mbuf) (m : Mbuf) (rest : List Mbuf) (len : ℕ)
    (n : Mbuf) : Option Split :=
  (mSplitData mem len n m).map fun (mem, n) =>
    ⟨k, mem, pre ++ [{ m with len := len }], n :: rest⟩

/-- `m_split(m0, len0, wait)`, where `k` mbufs have been asked for before, with at most `depth`
    calls inside of each other. -/
def mSplitRec (a : Allocator) : ℕ → ℕ → Mem → List Mbuf → ℕ → Option Split
  | 0, _, _, _, _ => none
  | depth + 1, k, mem, m0, len0 =>
    match splitPoint m0 len0 with
    | none => some ⟨k, mem, m0, []⟩
    | some (pre, m, rest, len) =>
      let remain := m.len - len
      match hdrLen m0 with
      | some l =>
        match a.mbuf k with
        | none => some ⟨k + 1, mem, m0, []⟩
        | some dat =>
          -- `MGETHDR`, with the lengths of both packets
          let n := { mGet dat with pkthdr := some (l - len0), data := mLen - mhLen }
          let (pre, m) := setFirst len0 pre m
          if m.ext.isSome then mSplitPlain (k + 1) mem pre m rest len n
          else if remain > mhLen then
            let n := { n with data := n.data + alignDown (mhLen - 0) }
            (mSplitRec a depth (k + 1) mem (m :: rest) len).map fun s =>
              if s.tail = [] then ⟨s.k, mFree s.mem n, pre ++ s.m0, []⟩
              else ⟨s.k, s.mem, pre ++ s.m0, { n with len := 0 } :: s.tail⟩
          else
            mSplitPlain (k + 1) mem pre m rest len
              { n with data := n.data + alignDown (mhLen - remain) }
      | none =>
        if remain = 0 then some ⟨k, mem, pre ++ [m], rest⟩
        else
          match a.mbuf k with
          | none => some ⟨k + 1, mem, m0, []⟩
          | some dat =>
            mSplitPlain (k + 1) mem pre m rest len
              { mGet dat with data := alignDown (mLen - remain) }

/-- `m_split(m0, len0, wait)`. -/
def mSplit (a : Allocator) (mem : Mem) (m0 : List Mbuf) (len0 : ℕ) : Option Split :=
  mSplitRec a 2 0 mem m0 len0

/-! ## The breaking point -/

theorem splitPoint_spec (hv : ∀ m ∈ ms, Valid mem m) (hne : ms ≠ [])
    (hlen : len0 ≤ (bytes mem ms).length) :
    ∃ pre m rest len, splitPoint ms len0 = some (pre, m, rest, len) ∧ ms = pre ++ m :: rest ∧
      len ≤ m.len ∧ (bytes mem pre).length + len = len0 ∧ (pre = [] ∨ 0 < len) := by
  induction ms generalizing len0 with
  | nil => exact absurd rfl hne
  | cons m ms ih =>
    have hmlen := (hv m mem_cons_self).length_mtod
    rw [bytes_cons, length_append, hmlen] at hlen
    rw [splitPoint]
    by_cases hgt : len0 > m.len
    · rw [if_pos hgt]
      have hne' : ms ≠ [] := by
        rintro rfl
        rw [bytes_nil, length_nil] at hlen; omega
      have hshort : len0 - m.len ≤ (bytes mem ms).length := by omega
      obtain ⟨pre, n, rest, len, hrun, rfl, hle, hsum, hpos⟩ :=
        ih (fun l hl => hv l (mem_cons_of_mem _ hl)) hne' hshort
      refine ⟨m :: pre, n, rest, len, by rw [hrun]; rfl, rfl, hle, ?_, ?_⟩
      · rw [bytes_cons, length_append, hmlen]; omega
      · obtain rfl | hpos := hpos
        · right
          rw [bytes_nil, length_nil] at hsum; omega
        · exact .inr hpos
    · rw [if_neg hgt]; exact ⟨[], m, ms, len0, rfl, rfl, by omega, zero_add _, .inl rfl⟩

theorem splitPoint_self (h : len ≤ m.len) : splitPoint (m :: rest) len = some ([], m, rest, len) :=
  if_neg (by omega)

/-- The mbuf whose data is moved keeps its place. -/
structure SameData (m m' : Mbuf) : Prop where
  ext : m'.ext = m.ext
  data : m'.data = m.data
  len : m'.len = m.len
  dat : m'.dat = m.dat
  hdr : m'.pkthdr.isSome = m.pkthdr.isSome

theorem SameData.mtod_eq {m' : Mbuf} (h : SameData m m') : mtod mem m' = mtod mem m := by
  simp only [mtod, storage, h.ext, h.data, h.len, h.dat]

theorem setFirst_spec (mem : Mem) (l : ℤ) (pre : List Mbuf) (m : Mbuf) (rest : List Mbuf)
    (hhdr : (hdrLen (pre ++ m :: rest)).isSome) :
    (setFirst l pre m).1 ++ (setFirst l pre m).2 :: rest =
        setPkthdrLen (fun _ => l) (pre ++ m :: rest) ∧
      bytes mem (setFirst l pre m).1 = bytes mem pre ∧ SameData m (setFirst l pre m).2 ∧
      (pre ≠ [] → (setFirst l pre m).2 = m) ∧
      ∀ len, hdrLen ((setFirst l pre m).1 ++ [{ (setFirst l pre m).2 with len := len }]) =
        some l := by
  obtain ⟨l', hl⟩ := isSome_iff_exists.1 hhdr
  cases pre with
  | nil =>
    have hm : m.pkthdr = some l' := hl
    refine ⟨?_, rfl, ⟨rfl, rfl, rfl, rfl, ?_⟩, fun h => absurd rfl h, fun _ => rfl⟩
    · show _ :: _ = _ :: _
      rw [hm]; rfl
    · rw [hm]; rfl
  | cons p ps =>
    have hp : p.pkthdr = some l' := hl
    refine ⟨?_, rfl, ⟨rfl, rfl, rfl, rfl, rfl⟩, fun _ => rfl, fun _ => rfl⟩
    show _ :: _ = _ :: _
    rw [hp]; rfl

/-! ## The split of one mbuf -/

/-- The bytes in front of the breaking point, and those behind it. -/
theorem bytes_split (rest : List Mbuf) (hm : Valid mem m) (hle : len ≤ m.len)
    (hsum : (bytes mem pre).length + len = len0) :
    bytes mem pre ++ (mtod mem m).take len = (bytes mem (pre ++ m :: rest)).take len0 ∧
      (mtod mem m).drop len ++ bytes mem rest = (bytes mem (pre ++ m :: rest)).drop len0 := by
  have hmlen := hm.length_mtod
  have hgap : len0 - (bytes mem pre).length = len := by omega
  have htake : (bytes mem pre).take len0 = bytes mem pre := take_of_length_le (by omega)
  have hdrop : (bytes mem pre).drop len0 = [] := drop_of_length_le (by omega)
  rw [bytes_append, bytes_cons]
  constructor
  · rw [take_append, htake, hgap, take_append_of_le_length (by omega)]
  · rw [drop_append, hdrop, hgap, nil_append, drop_append_of_le_length (by omega)]

/-- The new mbuf gets the bytes behind the breaking point. -/
theorem mSplitData_spec (h : Chain mem (pre ++ m :: rest) other) (hle : len ≤ m.len)
    (hext : n.ext = none)
    (hroom : m.ext = none →
      n.data + (m.len - len) ≤ mLen ∧ (n.pkthdr.isSome → mLen - mhLen ≤ n.data)) :
    ∃ mem' n', mSplitData mem len n m = some (mem', n') ∧ n'.pkthdr = n.pkthdr ∧
      Chain mem' (pre ++ [{ m with len := len }] ++ n' :: rest) other ∧
      bytes mem' (pre ++ [{ m with len := len }]) = bytes mem pre ++ (mtod mem m).take len ∧
      bytes mem' (n' :: rest) = (mtod mem m).drop len ++ bytes mem rest := by
  have hm : Valid mem m := h.valid m (mem_append_right _ mem_cons_self)
  have hmlen := hm.length_mtod
  suffices hdata : ∃ mem' n', mSplitData mem len n m = some (mem', n') ∧ n'.pkthdr = n.pkthdr ∧
      n'.ext = m.ext ∧ Valid mem' n' ∧ mtod mem' n' = (mtod mem m).drop len ∧
      Counted mem' (fun b => refs [n'] b + (refs (pre ++ m :: rest) b + other b)) ∧
      ∀ g, SameBufs mem mem' g by
    obtain ⟨mem', n', hrun, hhdr, hext', hvalid, hbytes, hcnt, hsame⟩ := hdata
    have hpre := (hsame (refs pre)).bytes
    have hrest := (hsame (refs rest)).bytes
    have hm' : mtod mem' { m with len := len } = (mtod mem m).take len := by
      rw [mtod_take mem' m hle, mtod, mtod, storage_congr fun b _ => hsame
        (fun _ => 1) b one_pos]
    refine ⟨mem', n', hrun, hhdr, ⟨?_, ?_⟩, ?_, ?_⟩
    · have hold := (hsame (refs (pre ++ m :: rest))).valid h.valid
      intro l hl
      simp only [mem_append, mem_cons, not_mem_nil, or_false] at hl
      obtain (hl | rfl) | rfl | hl := hl
      · exact hold l (mem_append_left _ hl)
      · exact (hold m (mem_append_right _ mem_cons_self)).take hle
      · exact hvalid
      · exact hold l (mem_append_right _ (mem_cons_of_mem _ hl))
    · apply hcnt.congr
      intro b
      simp only [refs_append, refs_cons, refs_nil]; omega
    · rw [bytes_append, bytes_cons, bytes_nil, append_nil, hpre, hm']
    · rw [bytes_cons, hbytes, hrest]
  obtain ⟨mem', n', hrun, -, hhdr, hext', hvalid, hbytes, hcnt, hsame⟩ :=
    mCopymData_spec hm h.counted
      (fun b hb => by
        have := refs_pos (mem_append_right pre (mem_cons_self (l := rest))) hb
        omega)
      hle (m.len - len) hext (fun hme => (hroom hme).2)
      (fun hme => by rw [Nat.min_self]; exact (hroom hme).1)
  refine ⟨mem', n', ?_, hhdr, hext', hvalid, ?_, hcnt, hsame⟩
  · -- both functions copy an mbuf in the same way
    rw [← hrun]
    unfold mSplitData mCopymData
    cases m.ext with
    | none => rw [Nat.min_self]
    | some e => rw [Nat.min_self]
  · rw [hbytes, take_of_length_le]; exact (le_of_eq length_drop).trans (by omega)

/-! ## `m_split` -/

/-- The chain `ms` is divided behind its first `len0` bytes. -/
structure Divided (mem : Mem) (ms : List Mbuf) (other : ℕ → ℕ) (len0 : ℕ) (r : Split) : Prop where
  chain : Chain r.mem (r.m0 ++ r.tail) other
  head : bytes r.mem r.m0 = (bytes mem ms).take len0
  tail : bytes r.mem r.tail = (bytes mem ms).drop len0
  headLen : (hdrLen ms).isSome → hdrLen r.m0 = some (len0 : ℤ)
  tailLen : (hdrLen ms).isSome → hdrLen r.tail = some (((bytes mem ms).length - len0 : ℕ) : ℤ)

/-- `m_split` returns with the chain divided or, where an mbuf that it asks for is not there, with
NULL and the chain as it was. -/
def SplitsOrRestores (a : Allocator) (mem : Mem) (ms : List Mbuf) (other : ℕ → ℕ) (len0 : ℕ) :
    Prop :=
  ∃ r, mSplit a mem ms len0 = some r ∧
    ((∀ i < r.k, (a.mbuf i).isSome) → Divided mem ms other len0 r) ∧
    ((∃ i < r.k, a.mbuf i = none) → r.tail = [] ∧ r.m0 = ms ∧ r.mem = mem)

/-- The packet length gets lost: the inner call is made, and only it fails. -/
def LengthLost (a : Allocator) (m0 : List Mbuf) (len0 : ℕ) : Prop :=
  ∃ pre m rest len, splitPoint m0 len0 = some (pre, m, rest, len) ∧ (hdrLen m0).isSome ∧
    m.ext = none ∧ m.len - len > mhLen ∧ (a.mbuf 0).isSome ∧ a.mbuf 1 = none

theorem lengthLost_iff {m0 : List Mbuf} (hpoint : splitPoint m0 len0 = some (pre, m, rest, len))
    (hsome : (hdrLen m0).isSome) (hget : (a.mbuf 0).isSome) :
    LengthLost a m0 len0 ↔ m.ext = none ∧ m.len - len > mhLen ∧ a.mbuf 1 = none := by
  constructor
  · rintro ⟨pre', n, rest', len', hpoint', -, hext, hbig, -, hnone⟩
    rw [hpoint] at hpoint'
    obtain ⟨rfl, rfl, rfl, rfl⟩ := some.inj hpoint'
    exact ⟨hext, hbig, hnone⟩
  · rintro ⟨hext, hbig, hnone⟩; exact ⟨pre, m, rest, len, hpoint, hsome, hext, hbig, hget, hnone⟩

/-- What has been asked for is there. -/
theorem all_of_isSome {k : ℕ} (h : (a.mbuf k).isSome) (hk : ∀ i < k, (a.mbuf i).isSome) :
    ¬ ∃ i < k + 1, a.mbuf i = none := by
  rintro ⟨i, hi, hnone⟩
  obtain rfl | hlt := Nat.lt_succ_iff_lt_or_eq.1 hi |>.symm
  · rw [hnone] at h
    cases h
  · have := hk i hlt
    rw [hnone] at this
    cases this

/-- An internal mbuf with a packet header has no more than `MHLEN` bytes. -/
theorem Valid.len_le_mhLen (h : Valid mem m) (hext : m.ext = none) (hhdr : m.pkthdr.isSome) :
    m.len ≤ mhLen := by
  obtain ⟨hbase, hroom⟩ := h.internal hext
  have hdata := hbase hhdr
  simp only [mLen, mhLen] at hdata hroom ⊢; omega

/-- The call for a chain without a packet header, where its first mbuf is split. -/
theorem mSplitRec_plain (a : Allocator) (depth k : ℕ) (mem : Mem) (pre : List Mbuf) (m : Mbuf)
    (rest : List Mbuf) {m0 : List Mbuf} {len0 len : ℕ}
    (hpoint : splitPoint m0 len0 = some (pre, m, rest, len)) (hhdr : hdrLen m0 = none)
    (hremain : m.len - len ≠ 0) :
    mSplitRec a (depth + 1) k mem m0 len0 =
      match a.mbuf k with
      | none => some ⟨k + 1, mem, m0, []⟩
      | some dat =>
        mSplitPlain (k + 1) mem pre m rest len
          { mGet dat with data := alignDown (mLen - (m.len - len)) } := by
  rw [mSplitRec, hpoint]
  dsimp only
  rw [hhdr]
  dsimp only
  rw [if_neg hremain]

/-- A chain without a packet header. -/
theorem mSplit_plain (h : Chain mem (pre ++ m :: rest) other)
    (hhdr : hdrLen (pre ++ m :: rest) = none)
    (hpoint : splitPoint (pre ++ m :: rest) len0 = some (pre, m, rest, len)) (hle : len ≤ m.len)
    (hsum : (bytes mem pre).length + len = len0) :
    SplitsOrRestores a mem (pre ++ m :: rest) other len0 := by
  have hm : Valid mem m := h.valid m (mem_append_right _ mem_cons_self)
  obtain ⟨hhead, htail⟩ := bytes_split rest hm hle hsum
  have hnone : ¬ (hdrLen (pre ++ m :: rest)).isSome := by rw [hhdr]; exact Bool.false_ne_true
  by_cases hremain : m.len - len = 0
  · -- the breaking point is behind the mbuf
    refine ⟨⟨0, mem, pre ++ [m], rest⟩, ?_, fun _ => ?_, fun hfail => ?_⟩
    · rw [mSplit, mSplitRec, hpoint]
      dsimp only
      rw [hhdr]
      dsimp only
      rw [if_pos hremain]
    · have hmlen := hm.length_mtod
      have hall : (mtod mem m).take len = mtod mem m := take_of_length_le (by omega)
      have hgone : (mtod mem m).drop len = [] := drop_of_length_le (by omega)
      refine ⟨?_, ?_, ?_, fun hsome => absurd hsome hnone, fun hsome => absurd hsome hnone⟩
      · rw [append_assoc]; exact h
      · rw [← hhead, hall, bytes_append, bytes_cons, bytes_nil, append_nil]
      · rw [← htail, hgone, nil_append]
    · obtain ⟨i, hi, -⟩ := hfail
      exact absurd hi (Nat.not_lt_zero i)
  · have hrun := mSplitRec_plain a 1 0 mem pre m rest hpoint hhdr hremain
    cases hget : a.mbuf 0 with
    | none =>
      rw [hget] at hrun
      refine ⟨_, hrun, fun hall => ?_, fun _ => ⟨rfl, rfl, rfl⟩⟩
      have := hall 0 one_pos
      rw [hget] at this
      cases this
    | some dat =>
      rw [hget] at hrun
      have hroom : m.ext = none → alignDown (mLen - (m.len - len)) + (m.len - len) ≤ mLen := by
        intro hext
        have := (hm.internal hext).2
        unfold alignDown; omega
      obtain ⟨mem', n', hdata, -, hchain, hb0, hb1⟩ := mSplitData_spec
        (n := { mGet dat with data := alignDown (mLen - (m.len - len)) }) h hle rfl
        (fun hext => ⟨hroom hext, (fun hsome => by cases hsome)⟩)
      refine ⟨⟨1, mem', pre ++ [{ m with len := len }], n' :: rest⟩, ?_, fun _ => ?_,
        fun hfail => ?_⟩
      · rw [mSplit, hrun]
        dsimp only
        rw [mSplitPlain, hdata]; rfl
      · exact ⟨hchain, hb0.trans hhead, hb1.trans htail, fun hsome => absurd hsome hnone,
          fun hsome => absurd hsome hnone⟩
      · exact absurd hfail (all_of_isSome (by rw [hget]; rfl)
          (fun i hi => absurd hi (Nat.not_lt_zero i)))

/-- The packet length is set: the chain is as it was otherwise. -/
theorem setFirst_chain (l : ℤ) (h : Chain mem (pre ++ m :: rest) other)
    (hhdr : (hdrLen (pre ++ m :: rest)).isSome) :
    Chain mem ((setFirst l pre m).1 ++ (setFirst l pre m).2 :: rest) other := by
  obtain ⟨hchain, -⟩ := setFirst_spec mem l pre m rest hhdr
  obtain ⟨hv, hexts, -⟩ := setPkthdrLen_spec (fun _ => l) h.valid
  rw [hchain]
  refine ⟨hv, h.counted.congr fun b => ?_⟩
  rw [refs_eq_of_exts hexts]

/-- The call for a chain with a packet header, where the mbuf for the header is there. -/
theorem mSplitRec_hdr (a : Allocator) (depth k : ℕ) (mem : Mem) (pre : List Mbuf) (m : Mbuf)
    (rest : List Mbuf) {m0 : List Mbuf} {len0 len : ℕ} {l : ℤ} {dat : Dat}
    (hpoint : splitPoint m0 len0 = some (pre, m, rest, len)) (hhdr : hdrLen m0 = some l)
    (hget : a.mbuf k = some dat) {pre' : List Mbuf} {m' : Mbuf}
    (hfirst : setFirst len0 pre m = (pre', m')) :
    mSplitRec a (depth + 1) k mem m0 len0 =
      let n := { mGet dat with pkthdr := some (l - len0), data := mLen - mhLen }
      if m'.ext.isSome then mSplitPlain (k + 1) mem pre' m' rest len n
      else if m.len - len > mhLen then
        (mSplitRec a depth (k + 1) mem (m' :: rest) len).map fun s =>
          if s.tail = [] then
            ⟨s.k, mFree s.mem { n with data := n.data + alignDown (mhLen - 0) }, pre' ++ s.m0, []⟩
          else
            ⟨s.k, s.mem, pre' ++ s.m0,
              { n with data := n.data + alignDown (mhLen - 0), len := 0 } :: s.tail⟩
      else
        mSplitPlain (k + 1) mem pre' m' rest len
          { n with data := n.data + alignDown (mhLen - (m.len - len)) } := by
  rw [mSplitRec, hpoint]
  dsimp only
  rw [hhdr]
  dsimp only
  rw [hget]
  dsimp only
  rw [hfirst]

/-- A chain with a packet header. -/
theorem mSplit_hdr_iff (h : Chain mem (pre ++ m :: rest) other)
    (hhdr : hdrLen (pre ++ m :: rest) = some ((bytes mem (pre ++ m :: rest)).length : ℤ))
    (hlen : len0 ≤ (bytes mem (pre ++ m :: rest)).length)
    (hpoint : splitPoint (pre ++ m :: rest) len0 = some (pre, m, rest, len)) (hle : len ≤ m.len)
    (hsum : (bytes mem pre).length + len = len0) :
    SplitsOrRestores a mem (pre ++ m :: rest) other len0 ↔
      ¬ LengthLost a (pre ++ m :: rest) len0 := by
  have hsome : (hdrLen (pre ++ m :: rest)).isSome := by rw [hhdr]; rfl
  have hm : Valid mem m := h.valid m (mem_append_right _ mem_cons_self)
  obtain ⟨hhead, htail⟩ := bytes_split rest hm hle hsum
  obtain ⟨hset, hbpre, hdata, hkeep, hlen0⟩ := setFirst_spec mem len0 pre m rest hsome
  have hchain := setFirst_chain len0 h hsome
  generalize hfirst : setFirst len0 pre m = first at *
  obtain ⟨pre', m'⟩ := first
  dsimp only at hset hbpre hdata hkeep hlen0 hchain
  have hm' : mtod mem m' = mtod mem m := hdata.mtod_eq
  -- what the new header has
  have hrest : ((bytes mem (pre ++ m :: rest)).length : ℤ) - len0 =
      (((bytes mem (pre ++ m :: rest)).length - len0 : ℕ) : ℤ) := by omega
  cases hget : a.mbuf 0 with
  | none =>
    constructor
    · rintro - ⟨-, -, -, -, -, -, -, -, hget', -⟩
      rw [hget] at hget'
      cases hget'
    · intro _
      refine ⟨⟨1, mem, pre ++ m :: rest, []⟩, ?_, fun hall => ?_, fun _ => ⟨rfl, rfl, rfl⟩⟩
      · rw [mSplit, mSplitRec, hpoint]
        dsimp only
        rw [hhdr]
        dsimp only
        rw [hget]
      · have := hall 0 one_pos
        rw [hget] at this
        cases this
  | some dat =>
    have hrun := mSplitRec_hdr a 1 0 mem pre m rest hpoint hhdr hget hfirst
    dsimp only at hrun
    rw [hrest] at hrun
    -- the two ways without an inner call
    have hplain (n : Mbuf) (hn : n.ext = none)
        (hnhdr : n.pkthdr = some (((bytes mem (pre ++ m :: rest)).length - len0 : ℕ) : ℤ))
        (hroom : m'.ext = none → n.data + (m'.len - len) ≤ mLen ∧
          (n.pkthdr.isSome → mLen - mhLen ≤ n.data))
        (hrun' : mSplitRec a 2 0 mem (pre ++ m :: rest) len0 =
          mSplitPlain 1 mem pre' m' rest len n) :
        SplitsOrRestores a mem (pre ++ m :: rest) other len0 := by
      obtain ⟨mem', n', hd, hn', hc, hb0, hb1⟩ :=
        mSplitData_spec hchain (by rw [hdata.len]; exact hle) hn hroom
      refine ⟨⟨1, mem', pre' ++ [{ m' with len := len }], n' :: rest⟩, ?_, fun _ => ?_,
        fun hfail => ?_⟩
      · rw [mSplit, hrun', mSplitPlain, hd]; rfl
      · refine ⟨hc, ?_, ?_, fun _ => hlen0 len, fun _ => hn'.trans hnhdr⟩
        · rw [hb0, hbpre, hm', hhead]
        · rw [hb1, hm', htail]
      · exact absurd hfail
          (all_of_isSome (by rw [hget]; rfl) (fun i hi => absurd hi (Nat.not_lt_zero i)))
    rw [lengthLost_iff hpoint hsome (by rw [hget]; rfl)]
    cases hext : m.ext with
    | some b =>
      have hext' : m'.ext = some b := hdata.ext.trans hext
      rw [hext', if_pos (by rfl)] at hrun
      constructor
      · rintro - ⟨hnone, -⟩
        cases hnone
      · intro _
        refine hplain _ rfl rfl (fun hnone => ?_) hrun
        rw [hext'] at hnone
        cases hnone
    | none =>
      have hext' : m'.ext = none := hdata.ext.trans hext
      rw [hext', if_neg (by exact Bool.false_ne_true)] at hrun
      by_cases hbig : m.len - len > mhLen
      · -- the mbuf is not the first one, and has no packet header
        have hnohdr : m.pkthdr = none := by
          cases hpkt : m.pkthdr with
          | none => rfl
          | some l =>
            have := hm.len_le_mhLen hext (by rw [hpkt]; rfl); omega
        have hpre : pre ≠ [] := by
          rintro rfl
          have hfirst' : m.pkthdr.isSome := hsome
          rw [hnohdr] at hfirst'
          cases hfirst'
        obtain rfl : m' = m := hkeep hpre
        rw [if_pos hbig, mSplitRec_plain a 0 1 mem [] m' rest (splitPoint_self hle) hnohdr
          (by omega)] at hrun
        cases hget1 : a.mbuf 1 with
        | none =>
          -- the length of the first packet has been set
          rw [hget1] at hrun
          refine iff_of_false ?_ fun hlost => hlost ⟨rfl, hbig, rfl⟩
          rintro ⟨r, hr, -, hfail⟩
          rw [mSplit, hrun] at hr
          obtain rfl := some.inj hr
          obtain ⟨-, hm0, -⟩ := hfail ⟨1, one_lt_two, hget1⟩
          have hlen' : hdrLen (pre' ++ m' :: rest) = some (len0 : ℤ) := by
            obtain ⟨-, -, -, hh⟩ := setPkthdrLen_spec (fun _ => (len0 : ℤ)) h.valid
            rw [hset, hh, hhdr]; rfl
          have hlost : hdrLen (pre' ++ m' :: rest) = hdrLen
            (pre ++ m' :: rest) := congrArg hdrLen hm0
          rw [hlen', hhdr] at hlost
          have hsmall : len0 = (bytes mem (pre ++ m' :: rest)).length := by
            have := some.inj hlost; omega
          rw [bytes_append, bytes_cons, length_append, length_append,
            hm.length_mtod] at hsmall
          omega
        | some dat1 =>
          rw [hget1] at hrun
          refine iff_of_true ?_ fun hlost => by cases hlost.2.2
          have hroom : alignDown (mLen - (m'.len - len)) + (m'.len - len) ≤ mLen := by
            have := (hm.internal hext).2
            unfold alignDown; omega
          obtain ⟨mem', n', hd, -, hc, hb0, hb1⟩ := mSplitData_spec
            (n := { mGet dat1 with data := alignDown (mLen - (m'.len - len)) }) hchain hle rfl
            (fun _ => ⟨hroom, (fun hs => by cases hs)⟩)
          have hrun' : mSplit a mem (pre ++ m' :: rest) len0 =
              some ⟨2, mem', pre' ++ [{ m' with len := len }],
                { mGet dat with
                  pkthdr := some (((bytes mem (pre ++ m' :: rest)).length - len0 : ℕ) : ℤ),
                  data := mLen - mhLen + alignDown (mhLen - 0), len := 0 } :: n' :: rest⟩ := by
            rw [mSplit, hrun]
            dsimp only
            rw [mSplitPlain, hd]; rfl
          refine ⟨_, hrun', fun _ => ?_, fun hfail => ?_⟩
          · refine ⟨hc.insert ?_ rfl, ?_, ?_, fun _ => hlen0 len, fun _ => rfl⟩
            · refine ⟨fun _ => ⟨fun _ => Nat.le_add_right _ _, ?_⟩, (fun b hb => by cases hb)⟩
              show mLen - mhLen + alignDown (mhLen - 0) + 0 ≤ mLen
              decide
            · rw [hb0, hbpre, hhead]
            · dsimp only
              rw [bytes_cons, hb1, htail, mtod, readAt, take_zero, nil_append]
          · refine absurd hfail (all_of_isSome (by rw [hget1]; rfl) ?_)
            intro i hi
            obtain rfl : i = 0 := by omega
            rw [hget]; rfl
      · rw [if_neg hbig] at hrun
        refine iff_of_true ?_ fun hlost => hbig hlost.2.1
        refine hplain _ rfl rfl (fun _ => ⟨?_, fun _ => Nat.le_add_right _ _⟩) hrun
        rw [hdata.len]
        show mLen - mhLen + alignDown (mhLen - (m.len - len)) + (m.len - len) ≤ mLen
        unfold alignDown
        simp only [mLen, mhLen] at hbig ⊢; omega

/-- For every chain, every `len0` within it and every outcome of the allocations, `m_split` divides
the chain or leaves it as it was, exactly where the packet length is not lost. -/
theorem mSplit_iff (h : Chain mem ms other)
    (hhdr : (hdrLen ms).isSome → hdrLen ms = some ((bytes mem ms).length : ℤ))
    (hlen : len0 ≤ (bytes mem ms).length) :
    SplitsOrRestores a mem ms other len0 ↔ ¬ LengthLost a ms len0 := by
  by_cases hne : ms = []
  · subst hne
    refine iff_of_true ⟨⟨0, mem, [], []⟩, rfl, fun _ => ?_, fun hfail => ?_⟩ ?_
    · refine ⟨h, take_nil.symm, drop_nil.symm, ?_, ?_⟩
      · intro hsome
        cases hsome
      · intro hsome
        cases hsome
    · obtain ⟨i, hi, -⟩ := hfail
      exact absurd hi (Nat.not_lt_zero i)
    · rintro ⟨pre, m, rest, len, hpoint, -⟩
      cases hpoint
  · obtain ⟨pre, m, rest, len, hpoint, rfl, hle, hsum, -⟩ := splitPoint_spec h.valid hne hlen
    cases hl : hdrLen (pre ++ m :: rest) with
    | none =>
      refine iff_of_true (mSplit_plain h hl hpoint hle hsum) ?_
      rintro ⟨-, -, -, -, -, hsome, -⟩
      rw [hl] at hsome
      cases hsome
    | some l => exact mSplit_hdr_iff h (hhdr (by rw [hl]; rfl)) hlen hpoint hle hsum

/-! ## A failure -/

/-- A packet of 231 bytes: one with the header, and all others in a second mbuf. -/
def largePacket : List Mbuf :=
  [{ pkthdr := some 231, ext := none, data := 24, len := 1,
     dat := filled 1 },
   { mGet (filled 2) with len := 230 }]

/-- One mbuf is there, and no other. -/
def oneMbuf : Allocator :=
  ⟨fun k => if k = 0 then some (filled 0) else none, true⟩

theorem largePacket_chain : Chain (fun _ => none) largePacket fun _ => 0 := by
  constructor
  · intro m hm
    simp only [largePacket, mem_cons, not_mem_nil, or_false] at hm
    obtain rfl | rfl := hm
    · exact ⟨fun _ => ⟨fun _ => by decide, by decide⟩, (fun b hb => by cases hb)⟩
    · exact ⟨fun _ => ⟨(fun hsome => by cases hsome), by decide⟩, (fun b hb => by cases hb)⟩
  · intro b
    refine ⟨?_, (fun e he => by cases he)⟩
    simp [largePacket, refs_cons, mGet]

theorem largePacket_length : (bytes (fun _ => none) largePacket).length = 231 := by
  rw [length_bytes largePacket_chain.valid]; rfl

/-- The packet is well formed and there is no second mbuf: `m_split` returns NULL, and the packet
of 231 bytes has the length 2. -/
theorem split_forgets_length :
    Chain (fun _ => none) largePacket (fun _ => 0) ∧ hdrLen largePacket = some 231 ∧
      (bytes (fun _ => none) largePacket).length = 231 ∧
      ∃ r, mSplit oneMbuf (fun _ => none) largePacket 2 = some r ∧ r.tail = [] ∧
        hdrLen r.m0 = some 2 ∧ ¬ SplitsOrRestores oneMbuf (fun _ => none) largePacket
          (fun _ => 0) 2 := by
  refine ⟨largePacket_chain, rfl, largePacket_length, _, rfl, rfl, rfl, ?_⟩
  rintro ⟨r, hr, -, hfail⟩
  obtain rfl := Option.some.inj hr
  obtain ⟨-, hm0, -⟩ := hfail ⟨1, Nat.one_lt_two, rfl⟩
  have hlost := congrArg hdrLen hm0
  exact absurd (show some (2 : ℤ) = some 231 from hlost) (by decide)

theorem mSplit_iff_largePacket :
    SplitsOrRestores oneMbuf (fun _ => none) largePacket (fun _ => 0) 2 ↔
      ¬ LengthLost oneMbuf largePacket 2 :=
  mSplit_iff largePacket_chain
    (fun _ => by rw [largePacket_length]; rfl) (by rw [largePacket_length]; decide)

end FreeBSD.UipcMbuf
