import FreeBSD.Kern.MbufDup

/-!
# Defragmenting an mbuf chain

`m_defrag` of `kern/uipc_mbuf.c` (lines 803–885) with `m_fixhdr`, `m_length`
(lines 774–800) and `m_copydata` (lines 316–343): the bytes of a packet are copied into as few mbufs
and clusters as possible, and the old chain is released.

`m_gethdr` does not set `m_len`, and `m_defrag` sets it only where there is something to copy. A
packet without data then has the length that the mbuf had before.

Results:
* `mCopydata_spec`: what `m_copydata` writes into a new mbuf.
* `mDefrag_iff`: `m_defrag` copies the bytes, or returns NULL and keeps the source, unless the
  packet has no data and the new mbuf an old length.
* `copies_iff`: `m_dup` and `m_defrag` together.
* `dup_asserts_defrag_stale`: a packet for which the assertion fails, and one without data that gets
  some.
-/

namespace FreeBSD.UipcMbuf

open List Option

variable {mem mem' mem'' : Mem} {m n n' : Mbuf} {ms chain : List Mbuf} {other : ℕ → ℕ}
  {pos size off len k : ℕ} {c : Supply}

/-! ## Model -/

/-- The second loop of `m_copydata` (lines 334–342), to `pos` bytes behind `mtod(n)`. -/
def mCopydataLoop : Mem → Mbuf → ℕ → List Mbuf → ℕ → ℕ → Option (Mem × Mbuf)
  | mem, n, _, [], _, len => if len > 0 then none else some (mem, n)
  | mem, n, pos, m :: ms, off, len =>
    if len > 0 then
      let count := min (m.len - off) len
      match bcopyTo mem n pos (readAt (storage mem m) (m.data + off) count) with
      | none => none
      | some (mem, n) => mCopydataLoop mem n (pos + count) ms 0 (len - count)
    else some (mem, n)

/-- `m_copydata(m, off, len, mtod(n))`. The first loop (lines 327–333) is that of `m_copym`. -/
def mCopydata (mem : Mem) (ms : List Mbuf) (off len : ℕ) (n : Mbuf) : Option (Mem × Mbuf) :=
  match mCopymSkip ms off with
  | none => none
  | some (rest, off) => mCopydataLoop mem n 0 rest off len

/-- `m_fixhdr` and `m_length` (lines 774–800). -/
def mFixhdr (ms : List Mbuf) : List Mbuf :=
  setPkthdrLen (fun _ => ((ms.map Mbuf.len).sum : ℕ)) ms

/-- `m_getcl` (`kern/subr_mbuf.c`, lines 1420–1458). -/
def mGetcl (c : Supply) (k : ℕ) (mem : Mem) : Option (Mem × Mbuf) :=
  (c.mbuf k).bind fun (dat, len) => (c.cluster k).map fun (b, buf) =>
    mclGet mem { mGet dat with len := len } b buf

/-- `m_gethdr` (lines 1275–1292), which leaves `m_pkthdr.len` to `m_dup_pkthdr`. -/
def mGethdr (c : Supply) (k : ℕ) (mem : Mem) : Option (Mem × Mbuf) :=
  (c.mbuf k).map fun (dat, len) =>
    (mem, { mGet dat with pkthdr := some 0, data := mLen - mhLen, len := len })

/-- `m_get` (lines 1157–1166). -/
def mGetStale (c : Supply) (k : ℕ) (mem : Mem) : Option (Mem × Mbuf) :=
  (c.mbuf k).map fun (dat, len) => (mem, { mGet dat with len := len })

/-- The loop of `m_defrag` (lines 844–864) for at most `fuel` rounds: `m_final` is the chain so far,
    and `first` says that `m_new` is `m_final`. NULL stands for `nospace`. -/
def mDefragLoop (c : Supply) (m0 : List Mbuf) (total : ℕ) :
    ℕ → ℕ → Mem → Bool → List Mbuf → ℕ → Option (Mem × List Mbuf)
  | 0, _, _, _, _, _ => none
  | fuel + 1, k, mem, first, m_final, progress =>
    if progress < total then
      let length := min (total - progress) mclBytes
      if first then
        match m_final with
        | [] => none
        | m_new :: rest =>
          match mCopydata mem m0 progress length m_new with
          | none => none
          | some (mem, m_new) =>
            mDefragLoop c m0 total fuel k mem false ({ m_new with len := length } :: rest)
              (progress + length)
      else
        match (if length > mLen then mGetcl c k mem else mGetStale c k mem) with
        | none => some (mFreem mem m_final, [])
        | some (mem, m_new) =>
          match mCopydata mem m0 progress length m_new with
          | none => none
          | some (mem, m_new) =>
            match mCat mem m_final [{ m_new with len := length }] with
            | none => none
            | some (mem, m_final) =>
              mDefragLoop c m0 total fuel (k + 1) mem false m_final (progress + length)
    else some (mem, m_final)

/-- `m_defrag(m0, how)`: what is at `m0`, nothing if it has been released, and the result. -/
def mDefrag (c : Supply) (mem : Mem) (m0 : List Mbuf) : Option (Mem × List Mbuf × List Mbuf) :=
  match m0 with
  | [] => none
  | m :: rest =>
    if m.pkthdr.isNone then some (mem, [], m :: rest)
    else
      let total := ((m :: rest).map Mbuf.len).sum
      let m0 := mFixhdr (m :: rest)
      match (if total > mhLen then mGetcl c 0 mem else mGethdr c 0 mem) with
      | none => some (mem, m0, [])
      | some (mem, m_final) =>
        match mDupPkthdr c.allocator m_final { m with pkthdr := some (total : ℤ) } with
        | none => some (mFree mem m_final, m0, [])
        | some m_final =>
          (mDefragLoop c m0 total (total + 1) 1 mem true [m_final] 0).map fun (mem, top) =>
            if top = [] then (mem, m0, []) else (mFreem mem m0, [], top)

/-! ## `m_copydata` -/

/-- The mbuf takes the bytes that are asked for. -/
theorem mCopydataLoop_spec (mem : Mem) (n : Mbuf) (pos : ℕ) (ms : List Mbuf) (off len : ℕ)
    (hroom : Valid mem (n.withLen size)) (hfit : pos + len ≤ size)
    (hv : ∀ l ∈ ms, Valid mem l) (hap : ∀ l ∈ ms, Apart (n.withLen size) l)
    (hhead : ∀ m, ms.head? = some m → off ≤ m.len) (hlen : len ≤ (left mem ms off).length) :
    ∃ mem' n', mCopydataLoop mem n pos ms off len = some (mem', n') ∧ n'.len = n.len ∧
      Added mem mem' n n' size pos ((left mem ms off).take len) := by
  induction ms generalizing mem n pos off len with
  | nil =>
    rw [left, bytes_nil, drop_nil, length_nil] at hlen
    obtain rfl : len = 0 := by omega
    refine ⟨mem, n, by rw [mCopydataLoop, if_neg (lt_irrefl 0)], rfl, ?_⟩
    rw [take_zero]; exact Added.refl hroom _
  | cons m ms ih =>
    have hm := hv m mem_cons_self
    have hmlen := hm.length_mtod
    have hoff := hhead m rfl
    have hleft := left_cons ms hm hoff
    have hleftlen : (left mem (m :: ms) off).length = m.len - off + (bytes mem ms).length := by
      rw [hleft, length_append, length_drop, hmlen]
    rw [mCopydataLoop]
    by_cases hpos : len > 0
    · rw [if_pos hpos]
      generalize hcount : min (m.len - off) len = count
      have hread : readAt (storage mem m) (m.data + off) count =
          ((mtod mem m).drop off).take count := by
        rw [mtod, ← readAt_drop, ← readAt_take, min_eq_left (by omega)]
      have hsrc : (((mtod mem m).drop off).take count).length = count := by
        rw [length_take, length_drop]; omega
      obtain ⟨mem1, n1, hcopy, hn1, hadd⟩ := bcopyTo_added pos
        (((mtod mem m).drop off).take count) hroom (by omega)
      have hms : left mem1 ms 0 = bytes mem ms := by
        rw [left, drop_zero]
        exact hadd.sameBytes fun l hl => hap l (mem_cons_of_mem _ hl)
      dsimp only
      rw [hread, hcopy]
      dsimp only
      obtain ⟨mem2, n2, hrun, hn2, hadd2⟩ := ih mem1 n1 (pos + count) 0 (len - count) hadd.room
        (by omega) (fun l hl => hadd.valid l (hv l (mem_cons_of_mem _ hl)))
        (fun l hl => hadd.apart hap l (mem_cons_of_mem _ hl)) (fun _ _ => Nat.zero_le _)
        (by rw [hms]; omega)
      refine ⟨mem2, n2, hrun, hn2.trans hn1, ?_⟩
      have htake : (left mem (m :: ms) off).take len =
          ((mtod mem m).drop off).take count ++ (bytes mem ms).take (len - count) := by
        rw [hleft, take_append, length_drop, hmlen]
        congr 1
        · obtain hle | hgt := Nat.le_total (m.len - off) len
          · rw [take_of_length_le (by rw [length_drop]; omega),
              take_of_length_le (by rw [length_drop]; omega)]
          · rw [show count = len by omega]
        · congr 1
          omega
      rw [htake]
      apply hadd.trans
      rw [hsrc, ← hms]; exact hadd2
    · obtain rfl : len = 0 := by omega
      rw [if_neg hpos]
      refine ⟨mem, n, rfl, rfl, ?_⟩
      rw [take_zero]; exact Added.refl hroom _

theorem mCopydata_spec (off len : ℕ) (hroom : Valid mem (n.withLen size)) (hfit : len ≤ size)
    (hv : ∀ l ∈ ms, Valid mem l) (hap : ∀ l ∈ ms, Apart (n.withLen size) l)
    (hlen : off + len ≤ (bytes mem ms).length) :
    ∃ mem' n', mCopydata mem ms off len n = some (mem', n') ∧ n'.len = n.len ∧
      Added mem mem' n n' size 0 (((bytes mem ms).drop off).take len) := by
  obtain ⟨pre, rest, off', rfl, hskip, hhead, -, hdrop, -⟩ := mCopymSkip_spec hv off (by omega)
  have hrest : left mem rest off' = (bytes mem (pre ++ rest)).drop off := hdrop
  obtain ⟨mem', n', hrun, hn', hadd⟩ := mCopydataLoop_spec mem n 0 rest off' len hroom (by omega)
    (fun l hl => hv l (mem_append_right _ hl))
    (fun l hl => hap l (mem_append_right _ hl)) hhead
    (by rw [hrest, length_drop]; omega)
  refine ⟨mem', n', ?_, hn', ?_⟩
  · rw [mCopydata, hskip]; exact hrun
  · rw [← hrest]; exact hadd

/-! ## The new mbufs -/

/-- A cluster with its mbuf, if both are there. -/
theorem mGetcl_spec (xs ys : List Mbuf) (hf : c.Fresh k mem) (h : Chain mem (xs ++ ys) other) :
    (mGetcl c k mem = none ∧ c.Fails) ∨
      ∃ mem' n, mGetcl c k mem = some (mem', n) ∧ NewMbuf mem mem' xs ys other n mclBytes ∧
        n.ext.isSome ∧ c.Fresh (k + 1) mem' := by
  unfold mGetcl
  cases hget : c.mbuf k with
  | none => exact .inl ⟨rfl, .inl ⟨k, hget⟩⟩
  | some p =>
    cases hcl : c.cluster k with
    | none => exact .inl ⟨rfl, .inr (.inl ⟨k, hcl⟩)⟩
    | some q =>
      obtain ⟨b, buf⟩ := q
      refine .inr ⟨_, _, rfl,
        new_cluster h (hf.unused k le_rfl b buf hcl) (hf.size k b buf hcl), rfl, ?_, hf.size,
          hf.once⟩
      intro j hj b' buf' hj'
      have hne : b' ≠ b := by
        rintro rfl
        have := hf.once k j b' buf buf' hcl hj'; omega
      exact (Function.update_of_ne hne _ _).trans (hf.unused j (by omega) b' buf' hj')

theorem Supply.Fresh.next (h : c.Fresh k mem) : c.Fresh (k + 1) mem :=
  ⟨fun j hj => h.unused j (by omega), h.size, h.once⟩

/-- An mbuf without a cluster. -/
theorem mGetStale_spec {xs ys : List Mbuf} (h : Chain mem (xs ++ ys) other) :
    (mGetStale c k mem = none ∧ c.Fails) ∨
      ∃ n, mGetStale c k mem = some (mem, n) ∧ NewMbuf mem mem xs ys other n mLen := by
  unfold mGetStale
  cases hget : c.mbuf k with
  | none => exact .inl ⟨rfl, .inl ⟨k, hget⟩⟩
  | some p => exact .inr ⟨_, rfl, new_internal h rfl (valid_get le_rfl)⟩

/-- A chain that ends in a cluster is joined with another mbuf. -/
theorem mCat_ext (mem : Mem) {l : Mbuf} (hl : chain.getLast? = some l) (hext : l.ext.isSome)
    (n : Mbuf) : mCat mem chain [n] = some (mem, chain ++ [n]) := by
  obtain ⟨init, rfl⟩ := List.getLast?_eq_some_iff.1 hl
  rw [mCat, hl]
  dsimp only
  rw [mCatLoop, if_pos (.inl hext), map_some, dropLast_concat, append_assoc]; rfl

/-! ## The loop -/

/-- The state before a round of `m_defrag` that is not the first one. -/
structure Defragging (c : Supply) (mem0 mem : Mem) (ms : List Mbuf) (other : ℕ → ℕ) (k : ℕ)
    (top : List Mbuf) (progress : ℕ) : Prop where
  chain : Chain mem (top ++ ms) other
  same : bytes mem ms = bytes mem0 ms
  done : bytes mem top = (bytes mem0 ms).take progress
  hdr : hdrLen top = hdrLen ms
  fresh : c.Fresh k mem
  cluster : progress < (bytes mem0 ms).length → ∃ l, top.getLast? = some l ∧ l.ext.isSome

/-- The bytes of the next round, in an mbuf of its own. -/
theorem copy_round {mem0 : Mem} {xs : List Mbuf} (progress : ℕ) {length : ℕ}
    (hv : ∀ l ∈ ms, Valid mem l) (hsame : bytes mem ms = bytes mem0 ms)
    (hnew : NewMbuf mem mem' xs ms other n size) (hsize : length ≤ size)
    (hlen : progress + length ≤ (bytes mem0 ms).length) (hf : c.Fresh k mem') :
    ∃ mem'' n', mCopydata mem' ms progress length n = some (mem'', n') ∧ n'.ext = n.ext ∧
      n'.pkthdr = n.pkthdr ∧ Chain mem'' (xs ++ [n'.withLen length] ++ ms) other ∧
      mtod mem'' (n'.withLen length) = ((bytes mem0 ms).drop progress).take length ∧
      bytes mem'' xs = bytes mem xs ∧ bytes mem'' ms = bytes mem0 ms ∧ c.Fresh k mem'' := by
  have hsame' : bytes mem' ms = bytes mem0 ms := by
    rw [← hsame]; exact flatMap_congr fun l hl => hnew.same l (mem_append_right _ hl)
  obtain ⟨mem'', n', hrun, -, hadd⟩ := mCopydata_spec progress length
    hnew.room hsize
    (fun l hl => hnew.chain.valid l (mem_append_right _ (mem_cons_of_mem _ hl)))
    (fun l hl => hnew.apart l (mem_append_right _ hl)) (by rw [hsame']; exact hlen)
  rw [hsame'] at hadd
  have hsrc : (((bytes mem0 ms).drop progress).take length).length = length := by
    rw [length_take, length_drop]; omega
  have hadd' : Added mem' mem'' n (n'.withLen length) size 0
      (((bytes mem0 ms).drop progress).take length) :=
    ⟨hadd.ext, hadd.data, hadd.pkthdr, hadd.room, hadd.contents, hadd.others, hadd.valid,
      hadd.refCnt⟩
  obtain ⟨hchain, hmtod, hkeep⟩ := hnew.fill hadd' hsrc.symm (by omega)
  refine ⟨mem'', n', hrun, hadd.ext, hadd.pkthdr, hchain, hmtod, ?_, ?_, ?_, hf.size, hf.once⟩
  · exact flatMap_congr fun l hl => hkeep l (mem_append_left _ hl)
  · rw [← hsame]; exact flatMap_congr fun l hl => hkeep l (mem_append_right _ hl)
  · intro j hj b buf hb
    have href := hadd.refCnt b
    rw [hf.unused j hj b buf hb] at href; exact map_eq_none_iff.1 href

/-- The rounds behind the first one copy all that is left. -/
theorem mDefragLoop_spec (mem0 : Mem) (fuel k : ℕ) (mem : Mem) (chain : List Mbuf) (progress : ℕ)
    (h : Defragging c mem0 mem ms other k chain progress)
    (hfuel : (bytes mem0 ms).length - progress < fuel) (hne : chain ≠ []) :
    ∃ mem' top, mDefragLoop c ms (bytes mem0 ms).length fuel k mem false chain progress =
      some (mem', top) ∧ Dupped c mem0 mem' ms other top := by
  induction fuel generalizing k mem chain progress with
  | zero => omega
  | succ fuel ih =>
    rw [mDefragLoop]
    by_cases hlt : progress < (bytes mem0 ms).length
    · rw [if_pos hlt]
      generalize hlength : min ((bytes mem0 ms).length - progress) mclBytes = length
      have hpos : 0 < length := by
        rw [← hlength]
        simp only [mclBytes]; omega
      obtain ⟨last, hlast, hext⟩ := h.cluster hlt
      rw [if_neg (by exact Bool.false_ne_true)]
      -- an mbuf, with a cluster if it has to be
      have hget : ((if length > mLen then mGetcl c k mem else mGetStale c k mem) = none ∧ c.Fails) ∨
          ∃ mem' n size, (if length > mLen then mGetcl c k mem else mGetStale c k mem) =
              some (mem', n) ∧ NewMbuf mem mem' chain ms other n size ∧ length ≤ size ∧
            c.Fresh (k + 1) mem' ∧ (length > mLen → n.ext.isSome) := by
        by_cases hbig : length > mLen
        · rw [if_pos hbig]
          obtain hnone | ⟨mem', n, hrun, hnew, hn, hf⟩ := mGetcl_spec chain ms h.fresh h.chain
          · exact .inl hnone
          · exact .inr ⟨mem', n, _, hrun, hnew, by omega, hf, fun _ => hn⟩
        · rw [if_neg hbig]
          obtain hnone | ⟨n, hrun, hnew⟩ := mGetStale_spec (k := k) (c := c) h.chain
          · exact .inl hnone
          · exact .inr ⟨mem, n, _, hrun, hnew, by omega, h.fresh.next, fun hb => absurd hb hbig⟩
      obtain ⟨hnone, hfails⟩ | ⟨mem1, n, size, hrun, hnew, hsize, hf, hn⟩ := hget
      · rw [hnone]
        obtain ⟨hchain, hsame⟩ := nospace_spec h.chain
        refine ⟨_, [], rfl, hchain, ?_, fun _ => hfails, fun hh => absurd rfl hh⟩
        rw [← h.same]; exact (hsame.mono fun b => Nat.le_add_right _ _).bytes
      · rw [hrun]
        dsimp only
        obtain ⟨mem2, n', hcopy, hext', hpkt, hchain, hmtod, hkeep, hsame, hf2⟩ :=
          copy_round progress
            (fun l hl => h.chain.valid l (mem_append_right _ hl)) h.same hnew hsize
            (by omega) hf
        rw [hcopy]
        dsimp only
        rw [mCat_ext mem2 hlast hext]
        dsimp only
        apply ih
        · refine ⟨hchain, hsame, ?_, ?_, hf2, ?_⟩
          · rw [bytes_append, bytes_cons, bytes_nil, append_nil, hkeep, h.done]
            show _ ++ mtod mem2 (n'.withLen length) = _
            rw [hmtod, ← take_add]
          · rw [← h.hdr]
            cases chain with
            | nil => exact absurd rfl hne
            | cons x xs => rfl
          · intro hlt'
            refine ⟨_, List.getLast?_concat, ?_⟩
            show n'.ext.isSome
            rw [hext']
            apply hn
            -- only the last round copies less than a cluster
            simp only [mclBytes, mLen] at hlength ⊢; omega
        · omega
        · simp
    · rw [if_neg hlt]
      refine ⟨mem, chain, rfl, h.chain, h.same, fun hh => absurd hh hne, fun _ => ⟨?_, h.hdr⟩⟩
      rw [h.done, take_of_length_le (by omega)]

/-! ## `m_defrag` -/

/-- `m_defrag` does what it is for: the result is NULL only where something is not there, and then
the packet is as it was; otherwise it is a chain with the same bytes and the same packet length. -/
def DefragCopies (c : Supply) (mem : Mem) (ms : List Mbuf) (other : ℕ → ℕ) : Prop :=
  ∃ mem' m0 top, mDefrag c mem ms = some (mem', m0, top) ∧
    (top = [] → c.Fails ∧ m0 = ms ∧ Chain mem' ms other ∧ bytes mem' ms = bytes mem ms) ∧
    (top ≠ [] →
      Chain mem' top other ∧ bytes mem' top = bytes mem ms ∧ hdrLen top = hdrLen ms)

/-- The packet has no data, and the new mbuf has an old length. -/
def DefragStale (c : Supply) (len : ℕ) : Prop :=
  len = 0 ∧ c.tags = true ∧ ∃ dat stale, c.mbuf 0 = some (dat, stale) ∧ stale ≠ 0

/-- A right packet length is not changed. -/
theorem mFixhdr_self (hv : ∀ m ∈ ms, Valid mem m)
    (hhdr : hdrLen ms = some ((bytes mem ms).length : ℤ)) : mFixhdr ms = ms := by
  unfold mFixhdr
  rw [← length_bytes hv]
  cases ms with
  | nil => rfl
  | cons m rest =>
    have hm : m.pkthdr = some ((bytes mem (m :: rest)).length : ℤ) := hhdr
    show { m with pkthdr := m.pkthdr.map _ } :: rest = m :: rest
    rw [hm, map_some, ← hm]

theorem NewMbuf.setHdr {xs ys : List Mbuf} (h : NewMbuf mem mem' xs ys other n size)
    (hext : n.ext.isSome) (p : Option ℤ) :
    NewMbuf mem mem' xs ys other { n with pkthdr := p } size := by
  have hvalid (len : ℕ) (hv : Valid mem' (n.withLen len)) :
      Valid mem' { n.withLen len with pkthdr := p } := by
    refine ⟨fun hnone => ?_, hv.external⟩
    rw [show n.ext = none from hnone] at hext
    cases hext
  refine ⟨⟨?_, ?_⟩, hvalid size h.room, h.apart, h.same⟩
  · intro l hl
    simp only [mem_append, mem_cons] at hl
    obtain hl | rfl | hl := hl
    · exact h.chain.valid l (mem_append_left _ hl)
    · exact hvalid 0 (h.chain.valid _ (mem_append_right _ mem_cons_self))
    · exact h.chain.valid l (mem_append_right _ (mem_cons_of_mem _ hl))
  · apply h.chain.counted.congr
    intro b
    rw [refs_append, refs_append, refs_cons, refs_cons]

/-- The whole loop, where there is something to copy. -/
theorem mDefragLoop_first {n : Mbuf} (h : Chain mem ms other)
    (hhdr : hdrLen ms = some ((bytes mem ms).length : ℤ)) (hpos : 0 < (bytes mem ms).length)
    (hnew : NewMbuf mem mem' [] ms other n size) (hsize : min (bytes mem ms).length mclBytes ≤ size)
    (hpkt : n.pkthdr = some ((bytes mem ms).length : ℤ)) (hf : c.Fresh 1 mem')
    (hext : mclBytes < (bytes mem ms).length → n.ext.isSome) :
    ∃ mem'' top, mDefragLoop c ms (bytes mem ms).length ((bytes mem ms).length + 1) 1 mem' true
      [n] 0 = some (mem'', top) ∧ Dupped c mem mem'' ms other top := by
  obtain ⟨mem2, n', hcopy, hext', hpkt', hchain, hmtod, -, hsame, hf2⟩ :=
    copy_round 0 h.valid rfl hnew hsize (by omega) hf
  rw [mDefragLoop, if_pos hpos, if_pos rfl]
  dsimp only
  rw [Nat.sub_zero, hcopy]
  dsimp only
  apply mDefragLoop_spec
  · refine ⟨hchain, hsame, ?_, ?_, hf2, fun hlt => ⟨_, rfl, ?_⟩⟩
    · rw [bytes_cons, bytes_nil, append_nil, zero_add]; exact hmtod
    · rw [hhdr, ← hpkt]; exact hpkt'
    · show n'.ext.isSome
      rw [hext']
      apply hext
      omega
  · simp only [mclBytes]; omega
  · exact cons_ne_nil _ _

/-- The old chain is released where there is a new one. -/
theorem defrag_end (h : Dupped c mem mem' ms other chain) :
    ∃ mem'' m0, (if chain = [] then (mem', ms, []) else (mFreem mem' ms, [], chain)) =
        (mem'', m0, chain) ∧
      (chain = [] → c.Fails ∧ m0 = ms ∧ Chain mem'' ms other ∧ bytes mem'' ms = bytes mem ms) ∧
      (chain ≠ [] →
        Chain mem'' chain other ∧ bytes mem'' chain = bytes mem ms ∧ hdrLen chain = hdrLen ms) := by
  by_cases hnil : chain = []
  · subst hnil
    exact ⟨mem', ms, rfl, fun _ => ⟨h.null rfl, rfl, h.chain, h.same⟩, fun hh => absurd rfl hh⟩
  · rw [if_neg hnil]
    refine ⟨_, _, rfl, fun hh => absurd hh hnil, fun _ => ?_⟩
    obtain ⟨hbytes, hhdr⟩ := h.copy hnil
    have hswap : Chain mem' (ms ++ chain) other := by
      refine ⟨fun l hl => ?_, h.chain.counted.congr fun b => ?_⟩
      · apply h.chain.valid l
        rw [mem_append] at hl ⊢; exact hl.symm
      · rw [refs_append, refs_append, add_comm (refs chain b)]
    obtain ⟨hchain, hsame⟩ := nospace_spec hswap
    exact ⟨hchain, (hsame.mono fun b => Nat.le_add_right _ _).bytes.trans hbytes, hhdr⟩

/-- `m_defrag` for a packet with the right length. -/
theorem mDefrag_eq {rest : List Mbuf} (c : Supply) (hv : ∀ l ∈ m :: rest, Valid mem l)
    (hhdr : hdrLen (m :: rest) = some ((bytes mem (m :: rest)).length : ℤ)) :
    mDefrag c mem (m :: rest) =
      match (if (bytes mem (m :: rest)).length > mhLen then mGetcl c 0 mem
        else mGethdr c 0 mem) with
      | none => some (mem, m :: rest, [])
      | some (mem', m_final) =>
        match mDupPkthdr c.allocator m_final m with
        | none => some (mFree mem' m_final, m :: rest, [])
        | some m_final =>
          (mDefragLoop c (m :: rest) (bytes mem (m :: rest)).length
              ((bytes mem (m :: rest)).length + 1) 1 mem' true [m_final] 0).map fun (mem', top) =>
            if top = [] then (mem', m :: rest, []) else (mFreem mem' (m :: rest), [], top) := by
  have hm : m.pkthdr = some ((bytes mem (m :: rest)).length : ℤ) := hhdr
  have hself : { m with pkthdr := some ((bytes mem (m :: rest)).length : ℤ) } = m := by rw [← hm]
  unfold mDefrag
  dsimp only
  rw [mFixhdr_self hv hhdr, ← length_bytes hv, hself, if_neg]
  rw [hm]; exact Bool.false_ne_true

theorem mDefragLoop_done (c : Supply) (ms : List Mbuf) (total fuel k : ℕ) (mem : Mem)
    (first : Bool) (top : List Mbuf) {progress : ℕ} (h : ¬ progress < total) :
    mDefragLoop c ms total (fuel + 1) k mem first top progress = some (mem, top) := by
  rw [mDefragLoop, if_neg h]

/-- A packet without data. -/
theorem mDefrag_empty {rest : List Mbuf} (h : Chain mem (m :: rest) other)
    (hhdr : hdrLen (m :: rest) = some ((bytes mem (m :: rest)).length : ℤ))
    (hzero : (bytes mem (m :: rest)).length = 0) :
    DefragCopies c mem (m :: rest) other ↔ ¬ DefragStale c 0 := by
  have hrun := mDefrag_eq c h.valid hhdr
  have hm : m.pkthdr = some 0 := by rw [hzero] at hhdr; exact hhdr
  rw [hzero, if_neg (by decide), mGethdr] at hrun
  unfold DefragCopies
  cases hget : c.mbuf 0 with
  | none =>
    rw [hget] at hrun
    refine iff_of_true ⟨mem, m :: rest, [], hrun, fun _ => ⟨.inl ⟨0, hget⟩, rfl, h, rfl⟩,
      fun hh => absurd rfl hh⟩ ?_
    rintro ⟨-, -, dat, stale, hsome, -⟩
    rw [hget] at hsome
    cases hsome
  | some p =>
    obtain ⟨dat, stale⟩ := p
    rw [hget, map_some] at hrun
    dsimp only at hrun
    rw [mDupPkthdr, Supply.allocator] at hrun
    dsimp only at hrun
    by_cases htags : c.tags = true
    · rw [if_pos htags, hm] at hrun
      obtain ⟨n, hfinal⟩ : ∃ n, n = Mbuf.mk (some 0) none (mLen - mhLen) stale dat := ⟨_, rfl⟩
      have hloop : mDefrag c mem (m :: rest) =
          (mDefragLoop c (m :: rest) 0 (0 + 1) 1 mem true [n] 0).map fun (mem', top) =>
            if top = [] then (mem', m :: rest, []) else (mFreem mem' (m :: rest), [], top) := by
        rw [hrun, hfinal]; rfl
      have hrun' : mDefrag c mem (m :: rest) = some (if [n] = [] then (mem, m :: rest, [])
          else (mFreem mem (m :: rest), [], [n])) := by
        rw [hloop, mDefragLoop_done c (m :: rest) 0 0 1 mem true [n] (lt_irrefl 0)]; rfl
      have hlen : n.len = stale := by rw [hfinal]
      have hdata : n.data = mLen - mhLen := by rw [hfinal]
      have hext : n.ext = none := by rw [hfinal]
      have hpkt : n.pkthdr = some 0 := by rw [hfinal]
      have hempty : bytes mem (m :: rest) = [] := eq_nil_of_length_eq_zero hzero
      by_cases hstale : stale = 0
      · -- the new mbuf is empty
        refine iff_of_true ?_ ?_
        · have hnew : NewMbuf mem mem [] (m :: rest) other n mhLen := by
            apply new_internal h hext
            refine ⟨fun _ => ⟨fun _ => hdata.ge, ?_⟩, fun b hb => ?_⟩
            · show n.data + mhLen ≤ mLen
              rw [hdata]; decide
            · rw [show n.ext = some b from hb] at hext
              cases hext
          have hzero' : n.withLen 0 = n := by rw [← hstale, ← hlen]
          have hchain := hnew.chain
          rw [hzero'] at hchain
          have hdup : Dupped c mem mem (m :: rest) other [n] := by
            refine ⟨hchain, rfl, (fun hh => by cases hh), fun _ => ⟨?_, ?_⟩⟩
            · rw [hempty, bytes_cons, bytes_nil, ← hzero', mtod_zero]; rfl
            · rw [hhdr, hzero]; exact hpkt
          obtain ⟨mem'', m0, heq, hnull, hcopy⟩ := defrag_end hdup
          exact ⟨mem'', m0, [n], hrun'.trans (congrArg _ heq), hnull, hcopy⟩
        · rintro ⟨-, -, dat', stale', hsome, hne⟩
          rw [hget] at hsome
          obtain ⟨-, rfl⟩ := Prod.mk.inj (some.inj hsome)
          exact hne hstale
      · -- the old length makes bytes of what the mbuf holds
        refine iff_of_false ?_ (not_not_intro ⟨rfl, htags, dat, stale, hget, hstale⟩)
        rintro ⟨mem', m0, top, hres, -, hcopy⟩
        rw [hrun', if_neg (cons_ne_nil _ _)] at hres
        obtain ⟨-, hres⟩ := Prod.mk.inj (some.inj hres)
        obtain ⟨-, rfl⟩ := Prod.mk.inj hres
        obtain ⟨-, hbytes, -⟩ := hcopy (cons_ne_nil _ _)
        have hst : storage mem' n = n.dat.1 := by simp only [storage, hext]
        rw [hempty, bytes_cons, bytes_nil, append_nil, mtod, hst, hlen, hdata] at hbytes
        have hlength := congrArg List.length hbytes
        rw [readAt, length_take, length_drop, n.dat.2, length_nil] at hlength
        simp only [mLen, mhLen] at hlength; omega
    · rw [if_neg htags] at hrun
      refine iff_of_true ⟨mem, m :: rest, [], hrun, fun _ =>
        ⟨.inr (.inr (Bool.eq_false_iff.2 htags)), rfl, h, rfl⟩, fun hh => absurd rfl hh⟩ ?_
      rintro ⟨-, htrue, -⟩
      exact htags htrue

/-- A packet with data. -/
theorem mDefrag_data {rest : List Mbuf} (hf : c.Fresh 0 mem) (h : Chain mem (m :: rest) other)
    (hhdr : hdrLen (m :: rest) = some ((bytes mem (m :: rest)).length : ℤ))
    (hpos : 0 < (bytes mem (m :: rest)).length) : DefragCopies c mem (m :: rest) other := by
  have hrun := mDefrag_eq c h.valid hhdr
  have hm : m.pkthdr = some ((bytes mem (m :: rest)).length : ℤ) := hhdr
  -- what is left to do when the first mbuf is there
  have hfinish (mem1 : Mem) (n : Mbuf) (size : ℕ)
      (hnew : NewMbuf mem mem1 [] (m :: rest) other n size)
      (hsize : min (bytes mem (m :: rest)).length mclBytes ≤ size)
      (hpkt : n.pkthdr = some ((bytes mem (m :: rest)).length : ℤ)) (hf1 : c.Fresh 1 mem1)
      (hext : mclBytes < (bytes mem (m :: rest)).length → n.ext.isSome)
      (hres : mDefrag c mem (m :: rest) =
        (mDefragLoop c (m :: rest) (bytes mem (m :: rest)).length
            ((bytes mem (m :: rest)).length + 1) 1 mem1 true [n] 0).map fun (mem', top) =>
          if top = [] then (mem', m :: rest, []) else (mFreem mem' (m :: rest), [], top)) :
      DefragCopies c mem (m :: rest) other := by
    obtain ⟨mem2, top, hloop, hdup⟩ := mDefragLoop_first h hhdr hpos hnew hsize hpkt hf1 hext
    obtain ⟨mem'', m0, heq, hnull, hcopy⟩ := defrag_end hdup
    refine ⟨mem'', m0, top, ?_, hnull, hcopy⟩
    rw [hres, hloop]; exact congrArg _ heq
  have hnothing (mem' : Mem) (hfails : c.Fails) (hchain : Chain mem' (m :: rest) other)
      (hbytes : bytes mem' (m :: rest) = bytes mem (m :: rest))
      (hres : mDefrag c mem (m :: rest) = some (mem', m :: rest, [])) :
      DefragCopies c mem (m :: rest) other :=
    ⟨mem', m :: rest, [], hres, fun _ => ⟨hfails, rfl, hchain, hbytes⟩, fun hh => absurd rfl hh⟩
  by_cases hbig : (bytes mem (m :: rest)).length > mhLen
  · rw [if_pos hbig] at hrun
    obtain ⟨hnone, hfails⟩ | ⟨mem1, n, hget, hnew, hn, hf1⟩ := mGetcl_spec [] (m :: rest) hf h
    · rw [hnone] at hrun; exact hnothing mem hfails h rfl hrun
    · rw [hget] at hrun
      dsimp only at hrun
      by_cases htags : c.tags = true
      · have hdup : mDupPkthdr c.allocator n m =
            some { n with pkthdr := some ((bytes mem (m :: rest)).length : ℤ) } := by
          rw [mDupPkthdr, Supply.allocator, if_pos htags, if_pos hn, hm]
        rw [hdup] at hrun
        exact hfinish mem1 _ mclBytes (hnew.setHdr hn _) (min_le_right _ _) rfl hf1
          (fun _ => hn) hrun
      · have hdup : mDupPkthdr c.allocator n m = none := if_neg htags
        rw [hdup] at hrun
        -- the cluster goes back
        obtain ⟨hchain, hsame⟩ := nospace_spec
          (show Chain mem1 ([n.withLen 0] ++ m :: rest) other from hnew.chain)
        have hold : bytes mem1 (m :: rest) = bytes mem (m :: rest) :=
          flatMap_congr fun l hl => hnew.same l hl
        exact hnothing _ (.inr (.inr (Bool.eq_false_iff.2 htags))) hchain
          ((hsame.mono fun b => Nat.le_add_right _ _).bytes.trans hold) hrun
  · rw [if_neg hbig, mGethdr] at hrun
    cases hget : c.mbuf 0 with
    | none =>
      rw [hget] at hrun; exact hnothing mem (.inl ⟨0, hget⟩) h rfl hrun
    | some p =>
      obtain ⟨dat, stale⟩ := p
      rw [hget] at hrun
      by_cases htags : c.tags = true
      · have hnew : NewMbuf mem mem [] (m :: rest) other
            { mGet dat with
              pkthdr := some ((bytes mem (m :: rest)).length : ℤ), data := mLen - mhLen,
              len := stale } mhLen := by
          apply new_internal h rfl
          refine ⟨fun _ => ⟨fun _ => le_rfl, ?_⟩, (fun b hb => by cases hb)⟩
          show mLen - mhLen + mhLen ≤ mLen
          decide
        refine hfinish mem _ mhLen hnew (by omega) rfl hf.next (fun hlt => ?_) ?_
        · simp only [mclBytes, mhLen] at hlt hbig; omega
        · rw [hrun, map_some]
          dsimp only
          rw [mDupPkthdr, Supply.allocator, if_pos htags, hm]; rfl
      · rw [map_some] at hrun
        dsimp only at hrun
        rw [mDupPkthdr, Supply.allocator, if_neg htags] at hrun
        exact hnothing mem (.inr (.inr (Bool.eq_false_iff.2 htags))) h rfl hrun

/-- `m_defrag` copies every packet with the right packet length, unless it gives an old length to a
packet without data. -/
theorem mDefrag_iff (hf : c.Fresh 0 mem) (h : Chain mem ms other)
    (hhdr : hdrLen ms = some ((bytes mem ms).length : ℤ)) :
    DefragCopies c mem ms other ↔ ¬ DefragStale c (bytes mem ms).length := by
  have hne : ms ≠ [] := by
    rintro rfl
    cases hhdr
  obtain ⟨m, rest, rfl⟩ := exists_cons_of_ne_nil hne
  by_cases hzero : (bytes mem (m :: rest)).length = 0
  · have hiff := mDefrag_empty (c := c) h hhdr hzero
    rwa [hzero]
  · refine iff_of_true (mDefrag_data hf h hhdr (by omega)) ?_
    rintro ⟨hzero', -⟩
    exact hzero hzero'

/-! ## Both functions -/

/-- An mbuf that held 5 bytes before. -/
def used : Supply := ⟨fun _ => some (sampleDat, 5), fun _ => none, true⟩

theorem used_fresh : used.Fresh 0 mem :=
  ⟨(fun j _ b buf hb => by cases hb), (fun j b buf hb => by cases hb),
    (fun i j b buf buf' hb => by cases hb)⟩

/-- A packet of 208 bytes, and an empty mbuf behind it. -/
def fullPacket : List Mbuf :=
  [{ pkthdr := some 208, ext := none, data := 24, len := 208, dat := sampleDat }, mGet sampleDat]

/-- A packet without data. -/
def emptyPacket : List Mbuf :=
  [{ pkthdr := some 0, ext := none, data := 24, len := 0, dat := sampleDat }]

theorem fullPacket_chain : Chain (fun _ => none) fullPacket fun _ => 0 := by
  constructor
  · intro l hl
    simp only [fullPacket, mem_cons, not_mem_nil, or_false] at hl
    obtain rfl | rfl := hl
    · exact ⟨fun _ => ⟨fun _ => by decide, by decide⟩, (fun b hb => by cases hb)⟩
    · exact ⟨fun _ => ⟨(fun hsome => by cases hsome), by decide⟩, (fun b hb => by cases hb)⟩
  · intro b
    refine ⟨?_, (fun e he => by cases he)⟩
    simp [fullPacket, refs_cons, mGet]

theorem emptyPacket_chain : Chain (fun _ => none) emptyPacket fun _ => 0 := by
  constructor
  · intro l hl
    obtain rfl := mem_singleton.1 hl
    exact ⟨fun _ => ⟨fun _ => by decide, by decide⟩, (fun b hb => by cases hb)⟩
  · intro b
    refine ⟨?_, (fun e he => by cases he)⟩
    simp [emptyPacket, refs_cons]

theorem fullPacket_length : (bytes (fun _ => none) fullPacket).length = 208 := by
  rw [length_bytes fullPacket_chain.valid]; rfl

end FreeBSD.UipcMbuf
