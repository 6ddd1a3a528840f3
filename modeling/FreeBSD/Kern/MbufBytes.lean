import FreeBSD.Kern.Mbuf

/-!
# The bytes of mbuf chains

An mbuf is valid if its data lies in its storage, and the external buffers are counted if each
counter is the number of the references, those of the chains at hand and the others.
-/

namespace FreeBSD.UipcMbuf

open List Function

/-- The data of an mbuf lies in its storage; an external buffer is not larger than `M_COPYALL`. -/
structure Valid (mem : Mem) (m : Mbuf) : Prop where
  internal : m.ext = none →
    (m.pkthdr.isSome → mLen - mhLen ≤ m.data) ∧ m.data + m.len ≤ mLen
  external : ∀ b, m.ext = some b →
    ∃ e, mem b = some e ∧ m.data + m.len ≤ e.buf.length ∧ e.buf.length ≤ mCopyall

/-- The number of references of the chain to the external buffer `b`. -/
def refs (ms : List Mbuf) (b : ℕ) : ℕ := ms.countP fun m => m.ext = some b

/-- The counters are the numbers `f` of the references. -/
def Counted (mem : Mem) (f : ℕ → ℕ) : Prop :=
  ∀ b, ((mem b).map ExtBuf.refCnt).getD 0 = f b ∧ ∀ e, mem b = some e → 0 < e.refCnt

/-- The buffers that `f` refers to have the same contents. -/
def SameBufs (mem mem' : Mem) (f : ℕ → ℕ) : Prop :=
  ∀ b, 0 < f b → (mem' b).map ExtBuf.buf = (mem b).map ExtBuf.buf

/-- A chain of valid mbufs; the buffers have `other` references besides. -/
structure Chain (mem : Mem) (ms : List Mbuf) (other : ℕ → ℕ) : Prop where
  valid : ∀ m ∈ ms, Valid mem m
  counted : Counted mem fun b => refs ms b + other b

variable {mem mem' mem'' : Mem} {m n : Mbuf} {ms ns : List Mbuf} {f g other : ℕ → ℕ} {b : ℕ}

/-! ## Reading -/

@[simp] theorem bytes_nil : bytes mem [] = [] := rfl

@[simp] theorem bytes_cons : bytes mem (m :: ms) = mtod mem m ++ bytes mem ms := rfl

@[simp] theorem bytes_append : bytes mem (ms ++ ns) = bytes mem ms ++ bytes mem ns :=
  flatMap_append

theorem Valid.room (h : Valid mem m) : m.data + m.len ≤ (storage mem m).length := by
  cases hext : m.ext with
  | none =>
    simp only [storage, hext, m.dat.2]; exact (h.internal hext).2
  | some b =>
    obtain ⟨e, he, hroom, -⟩ := h.external b hext
    simpa only [storage, hext, he, Option.map_some, Option.getD_some] using hroom

theorem length_readAt {s : List Byte} {off len : ℕ} (h : off + len ≤ s.length) :
    (readAt s off len).length = len := by
  simp only [readAt, length_take, length_drop]; omega

theorem Valid.length_mtod (h : Valid mem m) : (mtod mem m).length = m.len :=
  length_readAt h.room

theorem length_bytes (h : ∀ m ∈ ms, Valid mem m) :
    (bytes mem ms).length = (ms.map Mbuf.len).sum := by
  induction ms with
  | nil => rfl
  | cons m ms ih =>
    rw [bytes_cons, length_append, (h m mem_cons_self).length_mtod,
      ih fun m hm => h m (mem_cons_of_mem _ hm), map_cons, sum_cons]

/-- The bytes from `k` on. -/
theorem readAt_drop (s : List Byte) (off len k : ℕ) :
    readAt s (off + k) (len - k) = (readAt s off len).drop k := by
  simp only [readAt, drop_take, drop_drop]

/-- The first `k` bytes. -/
theorem readAt_take (s : List Byte) (off len k : ℕ) :
    readAt s off (min k len) = (readAt s off len).take k := by
  simp only [readAt, take_take]

theorem readAt_append (s : List Byte) (off len k : ℕ) :
    readAt s off (len + k) = readAt s off len ++ readAt s (off + len) k := by
  simp only [readAt, take_add, drop_drop]

/-! ## Writing -/

/-- What `bcopy` writes behind the data, which it leaves as it is. -/
theorem bcopy_spec (src : List Byte) (dst : Dat) (off : ℕ) (h : off + src.length ≤ mLen) :
    ∃ dat, bcopy src dst off = some dat ∧ readAt dat.1 off src.length = src ∧
      ∀ a len, a + len ≤ off → readAt dat.1 a len = readAt dst.1 a len := by
  have hdst := dst.2
  have htake : (dst.1.take off).length = off := by rw [length_take]; omega
  refine ⟨_, dif_pos h, ?_, ?_⟩
  · simp only [readAt, append_assoc]
    rw [drop_append_of_le_length htake.ge, drop_of_length_le htake.le, nil_append,
      take_left']
    rfl
  · intro a len hle
    simp only [readAt, append_assoc]
    rw [drop_append_of_le_length (by omega), take_append_of_le_length
      (by rw [length_drop]; omega), drop_take, take_take]
    congr 1
    omega

/-! ## References -/

@[simp] theorem refs_nil : refs [] b = 0 := rfl

theorem refs_cons : refs (m :: ms) b = refs ms b + if m.ext = some b then 1 else 0 := by
  simp [refs, countP_cons]

theorem refs_append : refs (ms ++ ns) b = refs ms b + refs ns b := countP_append

theorem refs_pos (hm : m ∈ ms) (hext : m.ext = some b) : 0 < refs ms b := by
  rw [refs, countP_pos_iff]; exact ⟨m, hm, decide_eq_true hext⟩

theorem storage_congr (h : ∀ b, m.ext = some b →
    (mem' b).map ExtBuf.buf = (mem b).map ExtBuf.buf) : storage mem' m = storage mem m := by
  cases hext : m.ext with
  | none => simp only [storage, hext]
  | some b => simp only [storage, hext, h b hext]

theorem SameBufs.mono (h : SameBufs mem mem' f) (hle : ∀ b, g b ≤ f b) : SameBufs mem mem' g :=
  fun b hb => h b (lt_of_lt_of_le hb (hle b))

theorem SameBufs.refl (mem : Mem) (f : ℕ → ℕ) : SameBufs mem mem f := fun _ _ => rfl

theorem SameBufs.trans (h : SameBufs mem mem' f) (h' : SameBufs mem' mem'' f) :
    SameBufs mem mem'' f := fun b hb => (h' b hb).trans (h b hb)

theorem SameBufs.bytes (h : SameBufs mem mem' (refs ms)) : bytes mem' ms = bytes mem ms := by
  refine flatMap_congr fun m hm => ?_
  rw [mtod, mtod, storage_congr fun b hext => h b (refs_pos hm hext)]

theorem SameBufs.valid (h : SameBufs mem mem' (refs ms)) (hv : ∀ m ∈ ms, Valid mem m) :
    ∀ m ∈ ms, Valid mem' m := by
  intro m hm
  refine ⟨(hv m hm).internal, ?_⟩
  intro b hext
  obtain ⟨e, he, hroom, hsize⟩ := (hv m hm).external b hext
  have hbuf := h b (refs_pos hm hext)
  rw [he, Option.map_some, Option.map_eq_some_iff] at hbuf
  obtain ⟨e', he', hbuf⟩ := hbuf
  exact ⟨e', he', hbuf ▸ hroom, hbuf ▸ hsize⟩

theorem Counted.congr (h : Counted mem f) (hfg : ∀ b, f b = g b) : Counted mem g :=
  fun b => ⟨(h b).1.trans (hfg b), (h b).2⟩

/-- A reference is given up. -/
theorem remRef_counted (h : Counted mem fun c => f c + if c = b then 1 else 0) :
    Counted (mextRemRef mem b) f ∧ SameBufs mem (mextRemRef mem b) f := by
  constructor
  · intro c
    obtain ⟨hcnt, hpos⟩ := h c
    by_cases hc : c = b
    · subst hc
      rw [mextRemRef, update_self]
      cases he : mem c with
      | none => simp [he] at hcnt
      | some e =>
        simp only [he, Option.map_some, Option.getD_some, if_true] at hcnt
        simp only [Option.bind_some]
        by_cases hzero : e.refCnt - 1 = 0
        · rw [if_pos hzero]
          refine ⟨?_, fun _ he' => by simp at he'⟩
          show 0 = f c
          omega
        · rw [if_neg hzero]
          refine ⟨?_, ?_⟩
          · show e.refCnt - 1 = f c; omega
          · intro e' he'
            obtain rfl := Option.some.inj he'
            show 0 < e.refCnt - 1
            omega
    · rw [mextRemRef, update_of_ne hc]
      simp only [hc, if_false, add_zero] at hcnt; exact ⟨hcnt, hpos⟩
  · intro c hc
    by_cases hcb : c = b
    · subst hcb
      obtain ⟨hcnt, -⟩ := h c
      rw [mextRemRef, update_self]
      cases he : mem c with
      | none => simp [he] at hcnt
      | some e =>
        simp only [he, Option.map_some, Option.getD_some, if_true] at hcnt
        have hne : e.refCnt - 1 ≠ 0 := by omega
        simp only [Option.bind_some, hne, if_false, Option.map_some]
    · rw [mextRemRef, update_of_ne hcb]

/-- A reference is taken. -/
theorem addRef_counted (h : Counted mem f) (hb : 0 < f b) :
    Counted (mextAddRef mem b) (fun c => f c + if c = b then 1 else 0) ∧
      ∀ g, SameBufs mem (mextAddRef mem b) g := by
  constructor
  · intro c
    obtain ⟨hcnt, hpos⟩ := h c
    by_cases hc : c = b
    · subst hc
      simp only [mextAddRef, update_self, if_true]
      cases he : mem c with
      | none =>
        rw [he, Option.map_none, Option.getD_none] at hcnt; omega
      | some e =>
        simp only [he, Option.map_some, Option.getD_some] at hcnt
        refine ⟨?_, ?_⟩
        · show e.refCnt + 1 = f c + 1; omega
        · intro e' he'
          obtain rfl := Option.some.inj he'
          show 0 < e.refCnt + 1
          omega
    · rw [mextAddRef, update_of_ne hc]
      simp only [hc, if_false, add_zero]; exact ⟨hcnt, hpos⟩
  · intro g c _
    by_cases hc : c = b
    · subst hc
      rw [mextAddRef, update_self, Option.map_map]; rfl
    · rw [mextAddRef, update_of_ne hc]

theorem free_counted (h : Counted mem fun b => refs (m :: ms) b + other b) :
    Counted (mFree mem m) (fun b => refs ms b + other b) ∧
      SameBufs mem (mFree mem m) (fun b => refs ms b + other b) := by
  cases hext : m.ext with
  | none =>
    rw [mFree, hext]
    refine ⟨h.congr fun b => ?_, SameBufs.refl _ _⟩
    simp [refs_cons, hext]
  | some b =>
    rw [mFree, hext]
    refine remRef_counted (h.congr fun c => ?_)
    rw [refs_cons, hext]
    by_cases hc : c = b
    · subst hc
      simp only [if_true]; omega
    · have hne : ¬ some b = some c := fun heq => hc (Option.some.inj heq).symm
      simp only [hc, hne, if_false, add_zero]

/-- The mbufs `ns` are released, and the chain `ms` stays. -/
theorem freem_counted (h : Counted mem fun b => refs (ns ++ ms) b + other b) :
    Counted (mFreem mem ns) (fun b => refs ms b + other b) ∧
      SameBufs mem (mFreem mem ns) (fun b => refs ms b + other b) := by
  induction ns generalizing mem with
  | nil => exact ⟨h, SameBufs.refl _ _⟩
  | cons n ns ih =>
    obtain ⟨hc, hs⟩ := free_counted h
    obtain ⟨hc', hs'⟩ := ih hc
    refine ⟨hc', (hs.mono fun b => ?_).trans hs'⟩
    show refs ms b + other b ≤ refs (ns ++ ms) b + other b
    rw [refs_append]; omega

/-- A new mbuf of a chain that has no external buffer. -/
theorem Chain.insert {xs ys : List Mbuf} (h : Chain mem (xs ++ ys) other) (hn : Valid mem n)
    (hext : n.ext = none) : Chain mem (xs ++ n :: ys) other := by
  constructor
  · intro l hl
    simp only [mem_append, mem_cons] at hl
    obtain hl | rfl | hl := hl
    · exact h.valid l (mem_append_left _ hl)
    · exact hn
    · exact h.valid l (mem_append_right _ hl)
  · apply h.counted.congr
    intro b; simp only [refs_append, refs_cons, hext, reduceCtorEq, if_false, add_zero]

end FreeBSD.UipcMbuf
