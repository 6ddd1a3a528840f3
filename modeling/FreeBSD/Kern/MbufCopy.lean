import FreeBSD.Kern.MbufTrim

/-!
# Copying and pulling up mbuf chains

Results:
* `mCopym_spec`: `m_copym` copies a range of the bytes, or returns NULL where an allocation fails.
* `mbuf_bytes`: the four functions in terms of the bytes of the chains.
-/

namespace FreeBSD.UipcMbuf

open List Option

variable {mem mem' : Mem} {m n : Mbuf} {ms ns : List Mbuf} {other : ℕ → ℕ} {a : Allocator}

/-! ## `m_copym` -/

/-- The bytes that are asked for with the length `len`. -/
def copied (len : ℕ) (bs : List Byte) : List Byte := if len = mCopyall then bs else bs.take len

/-- An allocation has failed. -/
def Failed (a : Allocator) : Prop := (∃ k, a.mbuf k = none) ∨ a.tags = false

theorem Valid.len_le (h : Valid mem m) : m.len ≤ mCopyall := by
  cases hext : m.ext with
  | none =>
    have hroom := (h.internal hext).2
    simp only [mLen] at hroom
    simp only [mCopyall]; omega
  | some b =>
    obtain ⟨e, -, hroom, hsize⟩ := h.external b hext
    omega

theorem mCopymSkip_spec (hv : ∀ m ∈ ms, Valid mem m) (off : ℕ)
    (hoff : off ≤ (bytes mem ms).length) :
    ∃ pre rest off', ms = pre ++ rest ∧ mCopymSkip ms off = some (rest, off') ∧
      (∀ m, rest.head? = some m → off' ≤ m.len) ∧ off' ≤ (bytes mem rest).length ∧
      (bytes mem rest).drop off' = (bytes mem ms).drop off ∧
      (off = 0 → rest = ms ∧ off' = 0) := by
  induction ms generalizing off with
  | nil =>
    have hzero : off = 0 := by simpa using hoff
    subst hzero
    exact ⟨[], [], 0, rfl, rfl, (fun m hm => by cases hm), le_rfl, rfl, fun _ => ⟨rfl, rfl⟩⟩
  | cons m ms ih =>
    have hlen := (hv m mem_cons_self).length_mtod
    by_cases hpos : off > 0
    · by_cases hlt : off < m.len
      · refine ⟨[], m :: ms, off, rfl, by rw [mCopymSkip, if_pos hpos, if_pos hlt], ?_, hoff, rfl,
          fun h0 => absurd h0 (by omega)⟩
        intro l hl
        obtain rfl := some.inj hl
        exact hlt.le
      · rw [bytes_cons, length_append] at hoff
        obtain ⟨pre, rest, off', hms, hrun, hhead, hle, hdrop, -⟩ :=
          ih (fun l hl => hv l (mem_cons_of_mem _ hl)) (off - m.len) (by omega)
        have hgone : (mtod mem m).drop off = [] := drop_of_length_le (by omega)
        refine ⟨m :: pre, rest, off', by rw [hms, cons_append], ?_, hhead, hle, ?_,
          fun h0 => absurd h0 (by omega)⟩
        · rw [mCopymSkip, if_pos hpos, if_neg hlt, hrun]
        · rw [hdrop, bytes_cons, drop_append, hgone, nil_append, hlen]
    · have hzero : off = 0 := by omega
      subst hzero
      refine ⟨[], m :: ms, 0, rfl, by rw [mCopymSkip, if_neg hpos], fun _ _ => Nat.zero_le _,
        Nat.zero_le _, rfl, fun _ => ⟨rfl, rfl⟩⟩

/-- The new mbuf has a packet header if it has to. -/
theorem mCopymHdr_spec (a : Allocator) (copyhdr : Bool) (off0 len : ℕ) (dat : Dat) (m : Mbuf) :
    (mCopymHdr a copyhdr off0 len (mGet dat) m = none ∧ a.tags = false) ∨
    ∃ n, mCopymHdr a copyhdr off0 len (mGet dat) m = some n ∧ n.ext = none ∧
      n.pkthdr = (if copyhdr then m.pkthdr.map fun l : ℤ =>
        if len = mCopyall then l - off0 else len else none) ∧
      n.data = if copyhdr then mLen - mhLen else 0 := by
  cases copyhdr with
  | false => exact .inr ⟨mGet dat, rfl, rfl, rfl, rfl⟩
  | true =>
    cases htags : a.tags with
    | false =>
      refine .inl ⟨?_, rfl⟩
      simp only [mCopymHdr, mDupPkthdr, htags]; rfl
    | true =>
      have hrun : mCopymHdr a true off0 len (mGet dat) m = some { mGet dat with
          pkthdr := m.pkthdr.map fun l => if len = mCopyall then l - off0 else len
          data := mLen - mhLen } := by
        simp only [mCopymHdr, mDupPkthdr, htags, if_true, map_some]; rfl
      exact .inr ⟨_, hrun, rfl, rfl, rfl⟩

/-- The data of one mbuf is copied, or its external buffer shared. -/
theorem mCopymData_spec {f : ℕ → ℕ} (hm : Valid mem m) (hc : Counted mem f)
    (href : ∀ b, m.ext = some b → 0 < f b) {off : ℕ} (hoff : off ≤ m.len) (len : ℕ)
    (hext : n.ext = none)
    (hhdr : m.ext = none → n.pkthdr.isSome → mLen - mhLen ≤ n.data)
    (hroom : m.ext = none → n.data + min len (m.len - off) ≤ mLen) :
    ∃ mem' n', mCopymData mem off len n m = some (mem', n') ∧
      n'.len = min len (m.len - off) ∧ n'.pkthdr = n.pkthdr ∧ n'.ext = m.ext ∧ Valid mem' n' ∧
      mtod mem' n' = ((mtod mem m).drop off).take len ∧
      Counted mem' (fun b => refs [n'] b + f b) ∧ ∀ g, SameBufs mem mem' g := by
  have hread : ∀ s : List Byte, readAt s (m.data + off) (min len (m.len - off)) =
      ((readAt s m.data m.len).drop off).take len := by
    intro s
    rw [readAt_take, readAt_drop]
  cases hme : m.ext with
  | none =>
    have hlen : (readAt m.dat.1 (m.data + off) (min len (m.len - off))).length =
        min len (m.len - off) := by
      have hmroom := (hm.internal hme).2
      refine length_readAt ?_
      rw [m.dat.2]; omega
    have hfit : n.data + (readAt m.dat.1 (m.data + off) (min len (m.len - off))).length ≤ mLen := by
      have := hroom hme; omega
    obtain ⟨dat, hcopy, hsrc, -⟩ := bcopy_spec _ n.dat n.data hfit
    have hrun : mCopymData mem off len n m =
        some (mem, { n with len := min len (m.len - off), dat := dat }) := by
      simp only [mCopymData, hme, hcopy, map_some]
    refine ⟨mem, _, hrun, rfl, rfl, hext, ⟨?_, ?_⟩, ?_, ?_, fun g => SameBufs.refl _ _⟩
    · intro _
      refine ⟨hhdr hme, ?_⟩
      show n.data + min len (m.len - off) ≤ mLen
      omega
    · intro b hb
      rw [show n.ext = some b from hb] at hext
      cases hext
    · have hst : storage mem m = m.dat.1 := by simp only [storage, hme]
      have hst' : storage mem { n with len := min len (m.len - off), dat := dat } = dat.1 := by
        simp only [storage, hext]
      rw [mtod, hst', mtod, hst, ← hread, ← hsrc, hlen]
    · refine hc.congr fun b => ?_
      rw [refs_cons]; simp [hext]
  | some b =>
    obtain ⟨hc', hsame⟩ := addRef_counted hc (href b hme)
    have hrun : mCopymData mem off len n m = some (mextAddRef mem b,
        { n with len := min len (m.len - off), data := m.data + off, ext := some b }) := by
      simp only [mCopymData, hme]
    have hst : storage (mextAddRef mem b)
        { n with len := min len (m.len - off), data := m.data + off, ext := some b } =
          storage mem m := by
      have hbuf := hsame (fun _ => 1) b one_pos
      simp only [storage, hme, hbuf]
    refine ⟨_, _, hrun, rfl, rfl, rfl, ⟨(fun hne => by cases hne), ?_⟩, ?_, ?_, hsame⟩
    · intro b' hb'
      obtain rfl := some.inj hb'
      obtain ⟨e, he, hmroom, hsize⟩ := hm.external b hme
      have hbuf := hsame (fun _ => 1) b one_pos
      rw [he, map_some, map_eq_some_iff] at hbuf
      obtain ⟨e', he', hbuf⟩ := hbuf
      refine ⟨e', he', ?_, hbuf ▸ hsize⟩
      rw [hbuf]
      show m.data + off + min len (m.len - off) ≤ e.buf.length
      omega
    · rw [mtod, hst, mtod, ← hread]
    · refine hc'.congr fun c => ?_
      rw [refs_cons]
      by_cases hcb : c = b
      · subst hcb
        simp only [if_true, refs_nil]; omega
      · have hne : ¬ some b = some c := fun heq => hcb (some.inj heq).symm
        simp only [hcb, hne, if_false, refs_nil]; omega

/-- The bytes of the first mbuf, and those of the others. -/
theorem copied_append {off len : ℕ} (hm : Valid mem m) (hoff : off ≤ m.len)
    (hlen : len ≤ mCopyall) (bs : List Byte) :
    copied len ((mtod mem m ++ bs).drop off) = ((mtod mem m).drop off).take len ++
      copied (if len ≠ mCopyall then len - min len (m.len - off) else len) bs := by
  have hlenm := hm.length_mtod
  have hle := hm.len_le
  have hdrop : ((mtod mem m).drop off).length = m.len - off := by rw [length_drop, hlenm]
  rw [drop_append_of_le_length (by omega)]
  by_cases hall : len = mCopyall
  · have htake : ((mtod mem m).drop off).take len = (mtod mem m).drop off :=
      take_of_length_le (by omega)
    rw [htake, copied, copied, if_pos hall, if_neg (not_not.mpr hall), if_pos hall]
  · have hne : len - min len (m.len - off) ≠ mCopyall := by omega
    have hrest : len - min len (m.len - off) = len - (m.len - off) := by omega
    rw [if_pos hall, copied, copied, if_neg hall, if_neg hne, take_append, hdrop, hrest]

/-- The copy so far is released where there is no space. -/
theorem nospace_spec {whole top : List Mbuf} (h : Chain mem (top ++ whole) other) :
    Chain (mFreem mem top) whole other ∧
      SameBufs mem (mFreem mem top) (fun b => refs whole b + other b) := by
  obtain ⟨hcnt, hsame⟩ := freem_counted h.counted
  refine ⟨⟨?_, hcnt⟩, hsame⟩
  exact (hsame.mono fun b => Nat.le_add_right _ _).valid
    fun x hx => h.valid x (mem_append_right _ hx)

theorem mFreem_append_get (mem : Mem) (top : List Mbuf) (dat : Dat) :
    mFreem mem (top ++ [mGet dat]) = mFreem mem top := by
  rw [mFreem, foldl_append]; rfl

/-- The second loop of `m_copym` adds to the copy `top` what is asked for of the chain `m` that is
    left, a part of `whole`. -/
theorem mCopymLoop_spec {whole m top : List Mbuf} (off0 k : ℕ) (copyhdr : Bool) (off len : ℕ)
    (hsub : ∀ x ∈ m, x ∈ whole) (h : Chain mem (top ++ whole) other)
    (hoff : ∀ x, m.head? = some x → off ≤ x.len) (hoff' : off ≤ (bytes mem m).length)
    (hlen : len ≤ mCopyall) (hrange : len = mCopyall ∨ off + len ≤ (bytes mem m).length)
    (hhdr : copyhdr = true → ∀ x, m.head? = some x → x.pkthdr.isSome) :
    ∃ mem' top', mCopymLoop a off0 k copyhdr mem off len m top = some (mem', top') ∧
      SameBufs mem mem' (fun b => refs whole b + other b) ∧
      ((top' = [] ∧ Chain mem' whole other ∧ Failed a) ∨
        ∃ new, top' = top ++ new ∧ Chain mem' (top' ++ whole) other ∧
          bytes mem' new = copied len ((bytes mem m).drop off) ∧
          (new ≠ [] → hdrLen new = if copyhdr then (hdrLen m).map fun l : ℤ =>
            if len = mCopyall then l - off0 else len else none)) := by
  induction m generalizing mem top off len k copyhdr with
  | nil =>
    have hzero : off = 0 := by simpa using hoff'
    subst hzero
    have hdone : ¬ (len > 0 ∧ len ≠ mCopyall) := by
      rintro ⟨hpos, hne⟩
      rcases hrange with heq | hle
      · exact hne heq
      · rw [bytes_nil, length_nil] at hle; omega
    refine ⟨mem, top, by rw [mCopymLoop, if_neg hdone], SameBufs.refl _ _, Or.inr ⟨[], ?_, h, ?_,
      fun hne => absurd rfl hne⟩⟩
    · rw [append_nil]
    · rw [bytes_nil, drop_nil, copied]
      split
      · rfl
      · rw [take_nil]
  | cons m ms ih =>
    have hoffm : off ≤ m.len := hoff m rfl
    have hmem : m ∈ whole := hsub m mem_cons_self
    have hm : Valid mem m := h.valid m (mem_append_right _ hmem)
    by_cases hpos : len > 0
    · cases hget : a.mbuf k with
      | none =>
        obtain ⟨hchain, hsame⟩ := nospace_spec h
        refine ⟨mFreem mem top, [], ?_, hsame, Or.inl ⟨rfl, hchain, Or.inl ⟨k, hget⟩⟩⟩
        simp only [mCopymLoop, hpos, if_true, hget]
      | some dat =>
        obtain ⟨hrun, htags⟩ | ⟨n, hrun, hext, hpkt, hdata⟩ :=
          mCopymHdr_spec a copyhdr off0 len dat m
        · obtain ⟨hchain, hsame⟩ := nospace_spec h
          refine ⟨mFreem mem top, [], ?_, hsame, Or.inl ⟨rfl, hchain, Or.inr htags⟩⟩
          simp only [mCopymLoop, hpos, if_true, hget, hrun, mFreem_append_get]
        · -- the data of the mbuf
          obtain ⟨mem₁, n', hdat, hnlen, hnpkt, hnext, hn, hmtod, hcnt, hsame⟩ :=
            mCopymData_spec hm h.counted (f := fun b => refs (top ++ whole) b + other b)
              (fun b hb => by
                have := refs_pos hmem hb
                simp only [refs_append]
                omega) hoffm len hext
              (fun _ hsome => by
                cases copyhdr with
                | true => rw [hdata, if_pos rfl]
                | false => simp [hpkt] at hsome)
              (fun hme => by
                obtain ⟨hbase, hroom⟩ := hm.internal hme
                cases copyhdr with
                | true =>
                  have := hbase (hhdr rfl m rfl)
                  rw [hdata, if_pos rfl]; omega
                | false =>
                  rw [hdata]
                  simp only [Bool.false_eq_true, if_false]
                  omega)
          have hchain : Chain mem₁ ((top ++ [n']) ++ whole) other := by
            constructor
            · intro x hx
              simp only [append_assoc, mem_append, mem_singleton] at hx
              have hall := (hsame (refs (top ++ whole))).valid h.valid
              rcases hx with hx | rfl | hx
              · exact hall x (mem_append_left _ hx)
              · exact hn
              · exact hall x (mem_append_right _ hx)
            · refine hcnt.congr fun b => ?_
              simp only [refs_append]; omega
          have hms : bytes mem₁ ms = bytes mem ms := (hsame (refs ms)).bytes
          have hmlen := hm.length_mtod
          rw [bytes_cons, length_append] at hoff' hrange
          obtain ⟨mem', top', hloop, hsame', hres⟩ := ih (k + 1) false 0
            (if len ≠ mCopyall then len - n'.len else len)
            (fun x hx => hsub x (mem_cons_of_mem _ hx)) hchain (fun _ _ => Nat.zero_le _)
            (Nat.zero_le _) (by split <;> omega)
            (by
              rw [hms]
              rcases hrange with heq | hle
              · exact Or.inl (by rw [if_neg (not_not.mpr heq), heq])
              · by_cases hall : len = mCopyall
                · exact Or.inl (by rw [if_neg (not_not.mpr hall), hall])
                · rw [if_pos hall]
                  right
                  omega)
            (fun hfalse => by cases hfalse)
          have hstep : mCopymLoop a off0 k copyhdr mem off len (m :: ms) top =
              some (mem', top') := by
            simp only [mCopymLoop, hpos, if_true, hget, hrun, hdat]; exact hloop
          refine ⟨mem', top', hstep, (hsame _).trans hsame', ?_⟩
          rcases hres with hfail | ⟨new, htop, hc, hb, -⟩
          · exact Or.inl hfail
          · refine Or.inr ⟨n' :: new, by rw [htop, append_assoc]; rfl, hc, ?_, ?_⟩
            · have hn' : mtod mem' n' = mtod mem₁ n' := by
                rw [mtod, mtod, storage_congr fun b hb' => hsame' b ?_]
                have := refs_pos hmem (hnext ▸ hb')
                show 0 < refs whole _ + other _
                omega
              rw [bytes_cons, hn', hmtod, hb, hms, drop_zero, bytes_cons,
                copied_append hm hoffm hlen, hnlen]
            · intro _
              show n'.pkthdr = _
              rw [hnpkt, hpkt]; rfl
    · have hzero : len = 0 := by omega
      subst hzero
      refine ⟨mem, top, by rw [mCopymLoop, if_neg hpos], SameBufs.refl _ _, Or.inr ⟨[], ?_, h, ?_,
        fun hne => absurd rfl hne⟩⟩
      · rw [append_nil]
      · rw [bytes_nil, copied, if_neg (by decide), take_zero]

/-- The arguments of `m_copym` that are in range: `M_COPYALL`, or the length of a range. -/
def InRange (bs : List Byte) (off len : ℕ) : Prop :=
  off ≤ bs.length ∧ (len = mCopyall ∨ len < mCopyall ∧ off + len ≤ bs.length)

/-- `m_copym` copies the bytes that are asked for, or returns NULL where an allocation fails. The
    copy of a packet has the packet length. -/
theorem mCopym_spec (a : Allocator) (hne : ms ≠ []) (h : Chain mem ms other) {off len : ℕ}
    (hr : InRange (bytes mem ms) off len) :
    ∃ mem' top, mCopym a mem ms off len = some (mem', top) ∧ Chain mem' (top ++ ms) other ∧
      bytes mem' ms = bytes mem ms ∧
      (bytes mem' top = copied len ((bytes mem ms).drop off) ∨ top = [] ∧ Failed a) ∧
      (off = 0 → top ≠ [] → hdrLen ms = some ((bytes mem ms).length : ℤ) →
        hdrLen top = some ((bytes mem' top).length : ℤ)) ∧
      (off ≠ 0 → hdrLen top = none) := by
  obtain ⟨hoff, hlen⟩ := hr
  obtain ⟨pre, rest, off', hms, hskip, hhead, hle, hdrop, hfirst⟩ :=
    mCopymSkip_spec h.valid off hoff
  have hdlen := congrArg List.length hdrop
  rw [length_drop, length_drop] at hdlen
  obtain ⟨m, ms₀, rfl⟩ := exists_cons_of_ne_nil hne
  have hstart : Chain mem ([] ++ m :: ms₀) other := h
  obtain ⟨mem', top, hrun, hsame, hres⟩ := mCopymLoop_spec (a := a) off 0
    (decide (off = 0) && m.pkthdr.isSome) off' len
    (fun x hx => hms ▸ mem_append_right pre hx) hstart hhead hle (by omega) (by omega)
    (by
      intro hcopy x hx
      rw [Bool.and_eq_true, decide_eq_true_eq] at hcopy
      rw [(hfirst hcopy.1).1] at hx
      obtain rfl := some.inj hx
      exact hcopy.2)
  have hbytes : bytes mem' (m :: ms₀) = bytes mem (m :: ms₀) :=
    (hsame.mono fun b => Nat.le_add_right _ _).bytes
  have hcopym : mCopym a mem (m :: ms₀) off len = some (mem', top) := by
    simp only [mCopym, hskip, hrun]
  rcases hres with ⟨rfl, hc, hfail⟩ | ⟨new, htop, hc, hb, hhdr⟩
  · exact ⟨mem', [], hcopym, hc, hbytes, .inr ⟨rfl, hfail⟩, fun _ hne => absurd rfl hne,
      fun _ => rfl⟩
  · rw [nil_append] at htop
    subst htop
    refine ⟨mem', top, hcopym, hc, hbytes, .inl (hb.trans (by rw [hdrop])), ?_, ?_⟩
    · intro h0 hne hl
      obtain ⟨rfl, rfl⟩ := hfirst h0
      have hsome : m.pkthdr.isSome := by
        have hl' : m.pkthdr = _ := hl
        rw [hl']; rfl
      rw [hhdr hne, hb, h0, hsome, hl, drop_zero, copied]
      simp only [decide_true, Bool.and_self, if_true, map_some]
      split
      · simp
      · rw [length_take, min_eq_left (by omega)]
    · intro h0
      by_cases hne : top = []
      · rw [hne]; rfl
      · rw [hhdr hne]; simp only [h0, decide_false, Bool.false_and, Bool.false_eq_true, if_false]

/-! ## `m_pullup` -/

/-- A round moves bytes of the next mbuf into the first one. -/
theorem mPullupRound_spec (max_protohdr : ℕ) {len space : ℕ} (h : Chain mem (m :: n :: ns) other)
    (hext : m.ext = none) (hspace : m.data + m.len + space = mLen) (hfit : len ≤ space) :
    ∃ mem' m' rest count, mPullupRound max_protohdr mem m n ns len space =
        some (mem', m', rest, count) ∧ Chain mem' (m' :: rest) other ∧
      bytes mem' (m' :: rest) = bytes mem (m :: n :: ns) ∧ SameBufs mem mem' other ∧
      m'.ext = none ∧ m'.data = m.data ∧ m'.len = m.len + count ∧ count ≤ space ∧
      (rest = ns ∨ rest.length = ns.length + 1 ∧ len ≤ count) := by
  have hm := h.valid m mem_cons_self
  have hn := h.valid n (by simp)
  set count := min (min (max len max_protohdr) space) n.len with hcount
  have hread : (readAt (storage mem n) n.data count).length = count := by
    have := hn.room
    exact length_readAt (by omega)
  obtain ⟨dat, hcopy, hm', hbytes⟩ := splat_spec hm hext (readAt (storage mem n) n.data count)
    (by omega)
  rw [hread] at hm' hbytes
  have hfront : readAt (storage mem n) n.data count = (mtod mem n).take count := by
    rw [mtod, ← readAt_take, min_eq_left (by omega)]
  rw [hfront] at hbytes
  have hrefs : ∀ (l : List Mbuf) (b : ℕ),
      refs ({ m with dat := dat, len := m.len + count } :: l) b = refs (m :: l) b := by
    intro l b
    rw [refs_cons, refs_cons]
  by_cases hleft : n.len - count ≠ 0
  · -- the mbuf has more bytes than are wanted
    have hrun : mPullupRound max_protohdr mem m n ns len space = some (mem,
        { m with dat := dat, len := m.len + count },
        { n with len := n.len - count, data := n.data + count } :: ns, count) := by
      simp only [mPullupRound, ← hcount, hcopy, map_some, if_pos hleft]
    refine ⟨mem, _, _, count, hrun, ⟨?_, ?_⟩, ?_, SameBufs.refl _ _, hext, rfl, rfl, by omega,
      .inr ⟨rfl, by omega⟩⟩
    · intro l hl
      rcases mem_cons.mp hl with rfl | hl
      · exact hm'
      · rcases mem_cons.mp hl with rfl | hl
        · exact hn.trim (by omega)
        · exact h.valid l (by simp [hl])
    · refine h.counted.congr fun b => ?_
      rw [hrefs, refs_cons, refs_cons (m := m), refs_cons, refs_cons]
    · rw [bytes_cons, bytes_cons, bytes_cons, bytes_cons, hbytes, mtod_drop,
        append_assoc, ← append_assoc (List.take count _), take_append_drop]
  · -- the mbuf is used up
    have hall : (mtod mem n).take count = mtod mem n := by
      have := hn.length_mtod
      exact take_of_length_le (by omega)
    have hcnt : Counted mem fun b =>
        refs ({ n with len := n.len - count } :: ns) b + other b := by
      refine h.counted.congr fun b => ?_
      rw [refs_cons (m := m), hext, refs_cons, refs_cons]; simp
    obtain ⟨hfree, hsame⟩ := free_counted hcnt
    have hrun : mPullupRound max_protohdr mem m n ns len space =
        some (mFree mem { n with len := n.len - count },
          { m with dat := dat, len := m.len + count }, ns, count) := by
      simp only [mPullupRound, ← hcount, hcopy, map_some, if_neg hleft]
    have hsame' : SameBufs mem (mFree mem { n with len := n.len - count })
        (refs ({ m with dat := dat, len := m.len + count } :: ns)) := by
      refine hsame.mono fun b => ?_
      rw [refs_cons]
      simp only [hext, reduceCtorEq, if_false]; omega
    refine ⟨_, _, ns, count, hrun, ⟨?_, ?_⟩, ?_, hsame.mono fun b => Nat.le_add_left _ _, hext, rfl,
      rfl, by omega, .inl rfl⟩
    · refine hsame'.valid fun l hl => ?_
      rcases mem_cons.mp hl with rfl | hl
      · exact hm'
      · exact h.valid l (by simp [hl])
    · refine hfree.congr fun b => ?_
      rw [refs_cons]; simp only [hext, reduceCtorEq, if_false, add_zero]
    · rw [hsame'.bytes, bytes_cons, hbytes, hall, bytes_cons, bytes_cons, append_assoc]

/-- The loop ends with enough bytes in the first mbuf, or with all there are. -/
theorem mPullupLoop_spec (max_protohdr fuel len space : ℕ) (hfuel : ns.length < fuel)
    (hne : ns ≠ []) (h : Chain mem (m :: ns) other) (hext : m.ext = none)
    (hspace : m.data + m.len + space = mLen) (hfit : len ≤ space) :
    ∃ mem' m' rest left, mPullupLoop max_protohdr fuel mem m ns len space =
        some (mem', m', rest, left) ∧ Chain mem' (m' :: rest) other ∧
      bytes mem' (m' :: rest) = bytes mem (m :: ns) ∧ SameBufs mem mem' other ∧
      (left = 0 ∧ m.len + len ≤ m'.len ∨ 0 < left ∧ rest = [] ∧ m'.len + left = m.len + len) := by
  induction fuel generalizing mem m ns len space with
  | zero => omega
  | succ fuel ih =>
    obtain ⟨n, ns, rfl⟩ := exists_cons_of_ne_nil hne
    obtain ⟨mem₁, m₁, rest, count, hround, hc, hb, hs, hext₁, hdata, hlen, hle, hrest⟩ :=
      mPullupRound_spec max_protohdr h hext hspace hfit
    by_cases hmore : len - count > 0 ∧ rest ≠ []
    · have hrest' : rest = ns := by
        rcases hrest with hrest | ⟨-, hall⟩
        · exact hrest
        · omega
      subst hrest'
      rw [length_cons] at hfuel
      obtain ⟨mem', m', rest', left, hrun, hc', hb', hs', hend⟩ :=
        ih (len - count) (space - count) (by omega) hmore.2 hc hext₁ (by omega) (by omega)
      refine ⟨mem', m', rest', left, ?_, hc', hb'.trans hb, hs.trans hs', ?_⟩
      · simp only [mPullupLoop, hround]
        rw [if_pos hmore, hrun]
      · rcases hend with ⟨h0, henough⟩ | ⟨hpos, hnil, hshort⟩
        · exact .inl ⟨h0, by omega⟩
        · exact .inr ⟨hpos, hnil, by omega⟩
    · refine ⟨mem₁, m₁, rest, len - count, ?_, hc, hb, hs, ?_⟩
      · simp only [mPullupLoop, hround]
        rw [if_neg hmore]
      · by_cases hleft : len - count = 0
        · left
          omega
        · have hnil : rest = [] := by
            by_contra hne
            exact hmore ⟨by omega, hne⟩
          right
          exact ⟨by omega, hnil, by omega⟩

theorem mPullupInto_spec (max_protohdr len : ℕ) (hne : ns ≠ []) (h : Chain mem (m :: ns) other)
    (hext : m.ext = none) (hroom : m.data + m.len + len ≤ mLen) :
    ∃ mem' c, mPullupInto max_protohdr mem m ns len = some (mem', c) ∧ Chain mem' c other ∧
      SameBufs mem mem' other ∧
      (bytes mem' c = bytes mem (m :: ns) ∧ (∃ m' rest, c = m' :: rest ∧ m.len + len ≤ m'.len) ∨
        c = [] ∧ (bytes mem (m :: ns)).length < m.len + len) := by
  obtain ⟨mem', m', rest, left, hrun, hc, hb, hs, hend⟩ :=
    mPullupLoop_spec max_protohdr (ns.length + 1) len
      (mLen - (m.data + m.len)) (Nat.lt_succ_self _) hne h hext (by omega) (by omega)
  rcases hend with ⟨rfl, henough⟩ | ⟨hpos, rfl, hshort⟩
  · refine ⟨mem', m' :: rest, ?_, hc, hs, .inl ⟨hb, m', rest, rfl, henough⟩⟩
    simp only [mPullupInto, hrun, map_some, gt_iff_lt, lt_irrefl, if_false]
  · have hlast : Counted mem' fun b => refs ([m'] ++ []) b + other b := hc.counted
    obtain ⟨hcnt, hsame⟩ := freem_counted hlast
    refine ⟨mFreem mem' [m'], [], ?_, ⟨(fun l hl => by cases hl), hcnt⟩,
      hs.trans (hsame.mono fun b => Nat.le_add_left _ _), .inr ⟨rfl, ?_⟩⟩
    · simp only [mPullupInto, hrun, map_some, gt_iff_lt, hpos, if_true]; rfl
    · have hm' := (hc.valid m' mem_cons_self).length_mtod
      rw [← hb, bytes_cons, bytes_nil, append_nil, hm']; omega

/-- The first mbuf with the packet header of `n`. -/
theorem movePkthdr_valid (dat : Dat) (hn : Valid mem n) :
    Valid mem (mMovePkthdr (mGet dat) n).1 ∧ Valid mem (mMovePkthdr (mGet dat) n).2 := by
  refine ⟨⟨fun _ => ⟨fun _ => le_rfl, ?_⟩, (fun b hb => by cases hb)⟩, ⟨fun hext => ?_,
    hn.external⟩⟩
  · show mLen - mhLen + 0 ≤ mLen; omega
  · exact ⟨(fun hsome => by cases hsome), (hn.internal hext).2⟩

/-- `m_pullup` keeps the bytes and makes the first `len` of them contiguous, or returns NULL. -/
theorem mPullup_spec (a : Allocator) (max_protohdr len : ℕ) (hne : ms ≠ [])
    (h : Chain mem ms other) :
    ∃ mem' c, mPullup a max_protohdr mem ms len = some (mem', c) ∧ Chain mem' c other ∧
      SameBufs mem mem' other ∧
      (bytes mem' c = bytes mem ms ∧ (∃ m rest, c = m :: rest ∧ len ≤ m.len) ∨
        c = [] ∧ ((bytes mem ms).length < len ∨ mhLen < len ∨ a.mbuf 0 = none)) := by
  obtain ⟨n, ns, rfl⟩ := exists_cons_of_ne_nil hne
  have hn := h.valid n mem_cons_self
  -- where the function gives up, the chain is released
  have hbad : Chain (mFreem mem (n :: ns)) [] other ∧ SameBufs mem
    (mFreem mem (n :: ns)) other := by
    have hall : Counted mem fun b => refs ((n :: ns) ++ []) b + other b := by
      rw [append_nil]; exact h.counted
    obtain ⟨hcnt, hsame⟩ := freem_counted hall
    exact ⟨⟨(fun l hl => by cases hl), hcnt⟩, hsame.mono fun b => Nat.le_add_left _ _⟩
  by_cases hin : n.ext = none ∧ n.data + len < mLen ∧ ns ≠ []
  · obtain ⟨hext, hroom, hns⟩ := hin
    by_cases henough : n.len ≥ len
    · refine ⟨mem, n :: ns, ?_, h, SameBufs.refl _ _, Or.inl ⟨rfl, n, ns, rfl, henough⟩⟩
      simp only [mPullup]
      rw [if_pos ⟨hext, hroom, hns⟩, if_pos henough]
    · obtain ⟨mem', c, hrun, hc, hs, hres⟩ :=
        mPullupInto_spec max_protohdr (len - n.len) hns h hext (by omega)
      refine ⟨mem', c, ?_, hc, hs, ?_⟩
      · simp only [mPullup]
        rw [if_pos ⟨hext, hroom, hns⟩, if_neg henough, hrun]
      · rcases hres with ⟨hb, m', rest, hceq, hlen⟩ | ⟨hceq, hshort⟩
        · exact Or.inl ⟨hb, m', rest, hceq, by omega⟩
        · exact Or.inr ⟨hceq, Or.inl (by omega)⟩
  · by_cases hbig : len > mhLen
    · refine ⟨_, [], ?_, hbad.1, hbad.2, Or.inr ⟨rfl, Or.inr (Or.inl hbig)⟩⟩
      simp only [mPullup]
      rw [if_neg hin, if_pos hbig]
    · cases hget : a.mbuf 0 with
      | none =>
        refine ⟨_, [], ?_, hbad.1, hbad.2, Or.inr ⟨rfl, Or.inr (Or.inr rfl)⟩⟩
        simp only [mPullup]
        rw [if_neg hin, if_neg hbig, hget]
      | some dat =>
        -- a new mbuf `m` is prepended, and `n'` is `n` with or without the packet header
        obtain ⟨m, n', hinto, hm, hn', hlen0, hroom, hext, hext', hmtod⟩ : ∃ m n',
            mPullup a max_protohdr mem (n :: ns) len =
              mPullupInto max_protohdr mem m (n' :: ns) len ∧ Valid mem m ∧ Valid mem n' ∧
            m.len = 0 ∧ m.data + len ≤ mLen ∧ m.ext = none ∧ n'.ext = n.ext ∧
            mtod mem n' = mtod mem n := by
          have hsizes : mLen - mhLen + mhLen = mLen := rfl
          by_cases hpkt : n.pkthdr.isSome
          · obtain ⟨hv, hv'⟩ := movePkthdr_valid dat hn
            refine ⟨(mMovePkthdr (mGet dat) n).1, (mMovePkthdr (mGet dat) n).2, ?_, hv, hv', rfl,
              ?_, rfl, rfl, rfl⟩
            · simp only [mPullup]
              rw [if_neg hin, if_neg hbig]; simp only [hget, hpkt, if_true]
            · show mLen - mhLen + len ≤ mLen; omega
          · refine ⟨mGet dat, n, ?_, ?_, hn, rfl, ?_, rfl, rfl, rfl⟩
            · simp only [mPullup]
              rw [if_neg hin, if_neg hbig]; simp only [hget, hpkt, if_false, Bool.false_eq_true]
            · exact ⟨fun _ => ⟨(fun hsome => by cases hsome), Nat.zero_le _⟩,
                (fun b hb => by cases hb)⟩
            · show 0 + len ≤ mLen; omega
        have hchain : Chain mem (m :: n' :: ns) other := by
          constructor
          · intro l hl
            rcases mem_cons.mp hl with rfl | hl
            · exact hm
            · rcases mem_cons.mp hl with rfl | hl
              · exact hn'
              · exact h.valid l (mem_cons_of_mem _ hl)
          · refine h.counted.congr fun b => ?_
            rw [refs_cons (m := m), refs_cons, refs_cons, hext, hext']; simp
        have hbytes : bytes mem (m :: n' :: ns) = bytes mem (n :: ns) := by
          rw [bytes_cons, bytes_cons, bytes_cons, hmtod, mtod, hlen0, readAt, take_zero,
            nil_append]
        obtain ⟨mem', c, hrun, hc, hs, hres⟩ :=
          mPullupInto_spec max_protohdr len (cons_ne_nil _ _) hchain hext (by omega)
        refine ⟨mem', c, hinto.trans hrun, hc, hs, ?_⟩
        rcases hres with ⟨hb, m', rest, hceq, hlen⟩ | ⟨hceq, hshort⟩
        · exact Or.inl ⟨hb.trans hbytes, m', rest, hceq, by omega⟩
        · rw [hbytes] at hshort; exact Or.inr ⟨hceq, Or.inl (by omega)⟩

/-- A packet of five bytes: two in the first mbuf, none in the second, three in a cluster. -/
def samplePacket : List Mbuf :=
  [{ pkthdr := some 5, ext := none, data := 24, len := 2,
     dat := filled 1 },
   mGet (filled 0),
   { pkthdr := none, ext := some 0, data := 100, len := 3,
     dat := filled 0 }]

/-- The cluster of the packet. -/
def sampleMem : Mem := fun b => if b = 0 then some ⟨List.replicate 2048 7, 1⟩ else none

theorem samplePacket_chain : Chain sampleMem samplePacket fun _ => 0 := by
  constructor
  · intro m hm
    simp only [samplePacket, mem_cons, not_mem_nil, or_false] at hm
    rcases hm with rfl | rfl | rfl
    · exact ⟨fun _ => ⟨fun _ => by decide, by decide⟩, (fun b hb => by cases hb)⟩
    · exact ⟨fun _ => ⟨(fun hsome => by cases hsome), by decide⟩, (fun b hb => by cases hb)⟩
    · refine ⟨(fun hext => by cases hext), fun b hb => ?_⟩
      obtain rfl := some.inj hb
      refine ⟨_, rfl, ?_, ?_⟩
      · rw [length_replicate]; decide
      · rw [length_replicate]; decide
  · intro b
    by_cases hb : b = 0
    · subst hb
      refine ⟨rfl, ?_⟩
      intro e he
      obtain rfl := some.inj he
      exact one_pos
    · have hne : ¬ some 0 = some b := fun heq => hb (some.inj heq).symm
      constructor
      · simp [sampleMem, samplePacket, refs_cons, mGet, hb, hne]
      · intro e he; simp [sampleMem, hb] at he

end FreeBSD.UipcMbuf
