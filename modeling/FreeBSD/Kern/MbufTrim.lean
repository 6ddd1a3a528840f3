import FreeBSD.Kern.MbufBytes

/-!
# Trimming and joining mbuf chains

Results:
* `mAdj_spec`: `m_adj` removes bytes at the head or at the tail, and keeps the packet length.
-/

namespace FreeBSD.UipcMbuf

open List

variable {mem : Mem} {m : Mbuf} {ms : List Mbuf} {other : ℕ → ℕ}

/-- `m_pkthdr.len` of a chain with a packet header. -/
def hdrLen (ms : List Mbuf) : Option ℤ := ms.head?.bind Mbuf.pkthdr

/-! ## One mbuf -/

theorem Valid.trim (h : Valid mem m) {k d : ℕ} (hk : d + k ≤ m.len) :
    Valid mem { m with len := k, data := m.data + d } where
  internal := by
    intro hext
    obtain ⟨hbase, hroom⟩ := h.internal hext
    refine ⟨fun hhdr => ?_, ?_⟩
    · have := hbase hhdr
      show mLen - mhLen ≤ m.data + d
      omega
    · show m.data + d + k ≤ mLen; omega
  external := by
    intro b hext
    obtain ⟨e, he, hroom, hsize⟩ := h.external b hext
    refine ⟨e, he, ?_, hsize⟩
    show m.data + d + k ≤ e.buf.length
    omega

theorem Valid.take (h : Valid mem m) {k : ℕ} (hk : k ≤ m.len) :
    Valid mem { m with len := k } := by
  have htrim : m.data + 0 = m.data := rfl
  have hv := h.trim (k := k) (d := 0) (by omega)
  rwa [htrim] at hv

theorem mtod_drop (mem : Mem) (m : Mbuf) (k : ℕ) :
    mtod mem { m with len := m.len - k, data := m.data + k } = (mtod mem m).drop k :=
  readAt_drop (storage mem m) m.data m.len k

theorem mtod_take (mem : Mem) (m : Mbuf) {k : ℕ} (hk : k ≤ m.len) :
    mtod mem { m with len := k } = (mtod mem m).take k := by
  have h := readAt_take (storage mem m) m.data m.len k
  rw [min_eq_left hk] at h; exact h

theorem mtod_zero (mem : Mem) (m : Mbuf) : mtod mem { m with len := 0 } = [] := by
  rw [mtod, readAt, take_zero]

theorem bytes_zero (mem : Mem) (ms : List Mbuf) :
    bytes mem (ms.map fun m => { m with len := 0 }) = [] := by
  induction ms with
  | nil => rfl
  | cons m ms ih => rw [map_cons, bytes_cons, mtod_zero, ih, append_nil]

/-! ## What trimming keeps -/

/-- `ms'` is `ms` with other bounds of the data, valid ones, and the packet headers `hs`. -/
structure Trimmed (mem : Mem) (ms ms' : List Mbuf) : Prop where
  valid : ∀ m ∈ ms', Valid mem m
  exts : ms'.map Mbuf.ext = ms.map Mbuf.ext
  hdrs : ms'.map Mbuf.pkthdr = ms.map Mbuf.pkthdr

theorem refs_eq_of_exts {ms ms' : List Mbuf} (h : ms'.map Mbuf.ext = ms.map Mbuf.ext) (b : ℕ) :
    refs ms' b = refs ms b := by
  have hcount : ∀ l : List Mbuf, refs l b = (l.map Mbuf.ext).countP (· = some b) := by
    intro l
    rw [countP_map]; rfl
  rw [hcount, hcount, h]

theorem hdrLen_eq_of_hdrs {ms ms' : List Mbuf} (h : ms'.map Mbuf.pkthdr = ms.map Mbuf.pkthdr) :
    hdrLen ms' = hdrLen ms := by
  have hhead : ∀ l : List Mbuf, hdrLen l = (l.map Mbuf.pkthdr).head?.join := by
    intro l
    cases l <;> rfl
  rw [hhead, hhead, h]

theorem Trimmed.cons {m' : Mbuf} {ms' : List Mbuf} (hm : Valid mem m') (hext : m'.ext = m.ext)
    (hhdr : m'.pkthdr = m.pkthdr) (h : Trimmed mem ms ms') :
    Trimmed mem (m :: ms) (m' :: ms') where
  valid := by
    intro n hn
    rcases mem_cons.mp hn with rfl | hn
    · exact hm
    · exact h.valid n hn
  exts := by rw [map_cons, map_cons, hext, h.exts]
  hdrs := by rw [map_cons, map_cons, hhdr, h.hdrs]

theorem Trimmed.refl (hv : ∀ m ∈ ms, Valid mem m) : Trimmed mem ms ms := ⟨hv, rfl, rfl⟩

theorem trimmed_zero (hv : ∀ m ∈ ms, Valid mem m) :
    Trimmed mem ms (ms.map fun m => { m with len := 0 }) := by
  refine ⟨?_, ?_, ?_⟩
  · intro n hn
    obtain ⟨m, hm, rfl⟩ := mem_map.mp hn
    exact (hv m hm).take (Nat.zero_le _)
  · rw [map_map]; rfl
  · rw [map_map]; rfl

/-! ## `m_adj` -/

theorem mAdjHead_spec (hv : ∀ m ∈ ms, Valid mem m) (len : ℕ) :
    Trimmed mem ms (mAdjHead ms len).1 ∧
      bytes mem (mAdjHead ms len).1 = (bytes mem ms).drop len ∧
      (mAdjHead ms len).2 = len - (bytes mem ms).length := by
  induction ms generalizing len with
  | nil => exact ⟨Trimmed.refl hv, (drop_nil).symm, rfl⟩
  | cons m ms ih =>
    have hm := hv m mem_cons_self
    have hms : ∀ m ∈ ms, Valid mem m := fun n hn => hv n (mem_cons_of_mem _ hn)
    have hlen := hm.length_mtod
    rw [mAdjHead]
    by_cases hpos : len > 0
    · rw [if_pos hpos]
      by_cases hle : m.len ≤ len
      · -- the mbuf is emptied
        rw [if_pos hle]
        obtain ⟨htrim, hbytes, hrest⟩ := ih hms (len - m.len)
        have hdrop : (mtod mem m).drop len = [] := drop_of_length_le (by omega)
        refine ⟨htrim.cons (hm.take (Nat.zero_le _)) rfl rfl, ?_, ?_⟩
        · rw [bytes_cons, bytes_cons, mtod_zero, nil_append, hbytes, drop_append, hdrop,
            nil_append, hlen]
        · rw [bytes_cons, length_append]
          show (mAdjHead ms (len - m.len)).2 = _
          omega
      · rw [if_neg hle]
        refine ⟨(Trimmed.refl hms).cons (hm.trim (by omega)) rfl rfl, ?_, ?_⟩
        · rw [bytes_cons, bytes_cons, mtod_drop, drop_append_of_le_length (by omega)]
        · rw [bytes_cons, length_append]
          show 0 = _
          omega
    · have hzero : len = 0 := by omega
      subst hzero
      rw [if_neg hpos]; exact ⟨Trimmed.refl hv, (drop_zero).symm, (Nat.zero_sub _).symm⟩

theorem mAdjTail_spec (hv : ∀ m ∈ ms, Valid mem m) (hne : ms ≠ []) (count : ℕ)
    (hcount : count ≤ (bytes mem ms).length) :
    ∃ ms', mAdjTail ms count = some ms' ∧ Trimmed mem ms ms' ∧
      bytes mem ms' = (bytes mem ms).take count := by
  induction ms generalizing count with
  | nil => exact absurd rfl hne
  | cons m ms ih =>
    have hm := hv m mem_cons_self
    have hms : ∀ m ∈ ms, Valid mem m := fun n hn => hv n (mem_cons_of_mem _ hn)
    have hlen := hm.length_mtod
    by_cases hle : count ≤ m.len
    · -- the mbuf with the last data
      refine ⟨_, by rw [mAdjTail, if_pos hle], (trimmed_zero hms).cons (hm.take hle) rfl rfl, ?_⟩
      rw [bytes_cons, bytes_cons, mtod_take mem m hle, bytes_zero, append_nil,
        take_append_of_le_length (by omega)]
    · rw [bytes_cons, length_append] at hcount
      have hne' : ms ≠ [] := by
        rintro rfl
        rw [bytes_nil, length_nil] at hcount; omega
      obtain ⟨ms', hrun, htrim, hbytes⟩ := ih hms hne' (count - m.len) (by omega)
      refine ⟨m :: ms', by rw [mAdjTail, if_neg hle, hrun, Option.map_some],
        htrim.cons hm rfl rfl, ?_⟩
      have htake : (mtod mem m).take count = mtod mem m := take_of_length_le (by omega)
      rw [bytes_cons, bytes_cons, hbytes, take_append, htake, hlen]

/-- The packet length is changed, nothing else. -/
theorem setPkthdrLen_spec (f : ℤ → ℤ) (hv : ∀ m ∈ ms, Valid mem m) :
    (∀ m ∈ setPkthdrLen f ms, Valid mem m) ∧
      (setPkthdrLen f ms).map Mbuf.ext = ms.map Mbuf.ext ∧
      bytes mem (setPkthdrLen f ms) = bytes mem ms ∧
      hdrLen (setPkthdrLen f ms) = (hdrLen ms).map f := by
  cases ms with
  | nil => exact ⟨hv, rfl, rfl, rfl⟩
  | cons m ms =>
    have hm := hv m mem_cons_self
    refine ⟨?_, rfl, rfl, rfl⟩
    intro n hn
    rcases mem_cons.mp hn with rfl | hn
    · refine ⟨fun hext => ?_, hm.external⟩
      obtain ⟨hbase, hroom⟩ := hm.internal hext
      refine ⟨fun hhdr => hbase ?_, hroom⟩
      simpa only [Option.isSome_map] using hhdr
    · exact hv n (mem_cons_of_mem _ hn)

/-- The bytes that `m_adj` leaves. -/
def adjusted (bs : List Byte) (k : ℤ) : List Byte :=
  if k ≥ 0 then bs.drop k.toNat else bs.take (bs.length - (-k).toNat)

/-- The last mbuf alone is trimmed. -/
theorem trimLast_spec {m : Mbuf} (hv : ∀ n ∈ ms ++ [m], Valid mem n) {len : ℕ}
    (hle : len ≤ m.len) :
    Trimmed mem (ms ++ [m]) (ms ++ [{ m with len := m.len - len }]) ∧
      bytes mem (ms ++ [{ m with len := m.len - len }]) =
        (bytes mem (ms ++ [m])).take ((bytes mem (ms ++ [m])).length - len) := by
  have hm : Valid mem m := hv m (mem_append_right _ mem_cons_self)
  have hlen := hm.length_mtod
  refine ⟨⟨?_, ?_, ?_⟩, ?_⟩
  · intro n hn
    rcases mem_append.mp hn with hn | hn
    · exact hv n (mem_append_left _ hn)
    · obtain rfl := mem_singleton.mp hn
      exact hm.take (Nat.sub_le _ _)
  · simp only [map_append, map_cons, map_nil]
  · simp only [map_append, map_cons, map_nil]
  · have htake : (bytes mem ms).take ((bytes mem ms).length + m.len - len) = bytes mem ms :=
      take_of_length_le (by omega)
    have hrest : (bytes mem ms).length + m.len - len - (bytes mem ms).length = m.len - len := by
      omega
    rw [bytes_append, bytes_append, bytes_cons, bytes_cons, bytes_nil, append_nil,
      append_nil, mtod_take mem m (Nat.sub_le _ _), length_append, hlen,
      take_append, htake, hrest]

/-- `m_adj` removes the first `k` bytes, or the last `-k` bytes, and keeps the packet length. -/
theorem mAdj_spec (h : Chain mem ms other) (k : ℤ) :
    ∃ ms', mAdj ms k = some ms' ∧ Chain mem ms' other ∧
      bytes mem ms' = adjusted (bytes mem ms) k ∧
      (hdrLen ms = some ((bytes mem ms).length : ℤ) →
        hdrLen ms' = some ((bytes mem ms').length : ℤ)) := by
  have hchain : ∀ ms' : List Mbuf, (∀ m ∈ ms', Valid mem m) →
      ms'.map Mbuf.ext = ms.map Mbuf.ext → Chain mem ms' other := by
    intro ms' hv hexts
    refine ⟨hv, h.counted.congr fun b => ?_⟩
    rw [refs_eq_of_exts hexts]
  by_cases hk : k ≥ 0
  · obtain ⟨htrim, hbytes, hrest⟩ := mAdjHead_spec h.valid k.toNat
    obtain ⟨hv, hexts, hb, hhdr⟩ := setPkthdrLen_spec
      (fun l => l - (k - (mAdjHead ms k.toNat).2)) htrim.valid
    refine ⟨_, by rw [mAdj, if_pos hk], hchain _ hv (hexts.trans htrim.exts), ?_, ?_⟩
    · rw [hb, hbytes, adjusted, if_pos hk]
    · intro hl
      rw [hhdr, hdrLen_eq_of_hdrs htrim.hdrs, hl, hb, hbytes, hrest, Option.map_some,
        length_drop]
      congr 1
      omega
  · cases hlast : ms.getLast? with
    | none =>
      obtain rfl := List.getLast?_eq_none_iff.mp hlast
      refine ⟨[], by rw [mAdj, if_neg hk]; rfl, h, ?_, fun hl => by cases hl⟩
      rw [adjusted, if_neg hk, bytes_nil, take_nil]
    | some m =>
      obtain ⟨init, rfl⟩ := List.getLast?_eq_some_iff.mp hlast
      by_cases hle : m.len ≥ (-k).toNat
      · obtain ⟨htrim, hbytes⟩ := trimLast_spec h.valid hle
        obtain ⟨hv, hexts, hb, hhdr⟩ := setPkthdrLen_spec (fun l => l - (-k).toNat) htrim.valid
        refine ⟨_, ?_, hchain _ hv (hexts.trans htrim.exts), ?_, ?_⟩
        · rw [mAdj, if_neg hk]; simp only [hlast, hle, if_true, dropLast_concat]
        · rw [hb, hbytes, adjusted, if_neg hk]
        · intro hl
          have hlen : m.len ≤ (bytes mem (init ++ [m])).length := by
            rw [bytes_append, bytes_cons, bytes_nil, append_nil, length_append,
              (h.valid m (by simp)).length_mtod]
            omega
          rw [hhdr, hdrLen_eq_of_hdrs htrim.hdrs, hl, hb, hbytes, Option.map_some,
            length_take]
          congr 1
          omega
      · have hcount := length_bytes h.valid
        set count := ((init ++ [m]).map Mbuf.len).sum - (-k).toNat with hcountdef
        obtain ⟨hv, hexts, hb, hhdr⟩ := setPkthdrLen_spec (fun _ => (count : ℤ)) h.valid
        have hne : setPkthdrLen (fun _ => (count : ℤ)) (init ++ [m]) ≠ [] := by
          intro hnil
          rw [hnil] at hexts; simp at hexts
        obtain ⟨ms', hrun, htrim, hbytes⟩ := mAdjTail_spec hv hne count (by rw [hb]; omega)
        refine ⟨ms', ?_, hchain _ htrim.valid (htrim.exts.trans hexts), ?_, ?_⟩
        · rw [mAdj, if_neg hk]
          simp only [hlast, hle, if_false]; exact hrun
        · rw [hbytes, hb, adjusted, if_neg hk, hcountdef, hcount]
        · intro hl
          rw [hdrLen_eq_of_hdrs htrim.hdrs, hhdr, hl, hbytes, hb, Option.map_some,
            length_take]
          congr 1
          omega

/-! ## `m_cat` -/

/-- The bytes of `n` are added behind those of the internal storage of `m`. -/
theorem splat_spec (hm : Valid mem m) (hext : m.ext = none) (src : List Byte)
    (hroom : m.data + m.len + src.length ≤ mLen) :
    ∃ dat, bcopy src m.dat (m.data + m.len) = some dat ∧
      Valid mem { m with dat := dat, len := m.len + src.length } ∧
      mtod mem { m with dat := dat, len := m.len + src.length } = mtod mem m ++ src := by
  obtain ⟨dat, hcopy, hsrc, hkeep⟩ := bcopy_spec src m.dat (m.data + m.len) hroom
  refine ⟨dat, hcopy, ⟨?_, ?_⟩, ?_⟩
  · intro _
    refine ⟨(hm.internal hext).1, ?_⟩
    show m.data + (m.len + src.length) ≤ mLen
    omega
  · intro b hb
    rw [show m.ext = some b from hb] at hext
    cases hext
  · have hst : storage mem { m with dat := dat, len := m.len + src.length } = dat.1 := by
      simp only [storage, hext]
    have hst' : storage mem m = m.dat.1 := by simp only [storage, hext]
    rw [mtod, hst, mtod, hst']
    show readAt dat.1 m.data (m.len + src.length) = _
    rw [readAt_append, hsrc, hkeep m.data m.len le_rfl]

theorem mCatLoop_spec {ns : List Mbuf} (h : Chain mem (m :: ns) other) :
    ∃ mem' ms, mCatLoop mem m ns = some (mem', ms) ∧ Chain mem' ms other ∧
      bytes mem' ms = bytes mem (m :: ns) ∧ SameBufs mem mem' other := by
  induction ns generalizing mem m with
  | nil => exact ⟨mem, [m], rfl, h, rfl, SameBufs.refl _ _⟩
  | cons n ns ih =>
    by_cases hjoin : m.ext.isSome ∨ m.data + m.len + n.len ≥ mLen
    · exact ⟨mem, m :: n :: ns, by rw [mCatLoop, if_pos hjoin], h, rfl, SameBufs.refl _ _⟩
    · have hm := h.valid m mem_cons_self
      have hn := h.valid n (by simp)
      obtain ⟨hext, hroom⟩ := not_or.mp hjoin
      have hext' : m.ext = none := Option.not_isSome_iff_eq_none.mp hext
      have hlen := hn.length_mtod
      obtain ⟨dat, hcopy, hm', hbytes⟩ := splat_spec hm hext' (mtod mem n) (by omega)
      rw [hlen] at hm' hbytes
      -- the bytes of `n` have been copied, and the mbuf is released
      have hcnt : Counted mem fun b => refs (n :: ns) b + other b := by
        refine h.counted.congr fun b => ?_
        rw [refs_cons (m := m), hext']; simp
      obtain ⟨hfree, hsame⟩ := free_counted hcnt
      have hsame' : SameBufs mem (mFree mem n)
          (refs ({ m with dat := dat, len := m.len + n.len } :: ns)) := by
        refine hsame.mono fun b => ?_
        rw [refs_cons]
        simp only [hext', reduceCtorEq, if_false]; omega
      have hchain : Chain (mFree mem n)
          ({ m with dat := dat, len := m.len + n.len } :: ns) other := by
        constructor
        · refine hsame'.valid fun l hl => ?_
          rcases mem_cons.mp hl with rfl | hl
          · exact hm'
          · exact h.valid l (by simp [hl])
        · refine hfree.congr fun b => ?_
          rw [refs_cons]; simp only [hext', reduceCtorEq, if_false, add_zero]
      obtain ⟨mem', ms, hrun, hc, hb, hs⟩ := ih hchain
      refine ⟨mem', ms, ?_, hc, ?_, (hsame.mono fun b => Nat.le_add_left _ _).trans hs⟩
      · rw [mCatLoop, if_neg hjoin, hcopy]; exact hrun
      · rw [hb, hsame'.bytes, bytes_cons, hbytes, bytes_cons, bytes_cons, append_assoc]

/-- `m_cat` concatenates the bytes of the chains. -/
theorem mCat_spec {ns : List Mbuf} (hne : ms ≠ []) (h : Chain mem (ms ++ ns) other) :
    ∃ mem' ms', mCat mem ms ns = some (mem', ms') ∧ Chain mem' ms' other ∧
      bytes mem' ms' = bytes mem ms ++ bytes mem ns ∧ SameBufs mem mem' other := by
  obtain ⟨init, m, rfl⟩ := eq_nil_or_concat' ms |>.resolve_left hne
  -- the mbufs in front of the last one are left alone
  have hchain : Chain mem (m :: ns) fun b => refs init b + other b := by
    constructor
    · intro n hn
      exact h.valid n (by simp only [append_assoc, cons_append, nil_append]
                          exact mem_append_right _ hn)
    · refine h.counted.congr fun b => ?_
      rw [append_assoc, refs_append, cons_append, nil_append]; omega
  obtain ⟨mem', ms', hrun, hc, hb, hs⟩ := mCatLoop_spec hchain
  have hinit : SameBufs mem mem' (refs init) := hs.mono fun b => Nat.le_add_right _ _
  refine ⟨mem', init ++ ms', ?_, ⟨?_, ?_⟩, ?_, hs.mono fun b => Nat.le_add_left _ _⟩
  · simp only [mCat, List.getLast?_append, List.getLast?_singleton, Option.some_or, hrun,
      Option.map_some, dropLast_concat]
  · intro n hn
    rcases mem_append.mp hn with hn | hn
    · exact hinit.valid (fun l hl => h.valid l (by simp [hl])) n hn
    · exact hc.valid n hn
  · refine hc.counted.congr fun b => ?_
    rw [refs_append]; omega
  · rw [bytes_append, hinit.bytes, hb, bytes_append, bytes_cons, bytes_cons, bytes_nil,
      append_nil, append_assoc]

end FreeBSD.UipcMbuf
