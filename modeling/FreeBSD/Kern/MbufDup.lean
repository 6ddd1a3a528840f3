import FreeBSD.Kern.MbufCopy
import FreeBSD.Kern.MbufCopyback

/-!
# Duplicating an mbuf chain

`m_dup` of `kern/uipc_mbuf.c` (lines 345–416): the bytes of a packet are copied into new mbufs,
with a cluster for each where more than `MHLEN` bytes are left. The loop goes through the mbufs of
the source and those of the copy at once. After each new mbuf a `KASSERT` compares what is left of
the packet length with what is left of the source.

The allocator says for each round whether there is an mbuf, with what its storage and its `m_len`
hold, and whether there is a cluster.

Results:
* `mDupFill_spec`: what one new mbuf takes, and where the source stands then.
* `mDup_iff`: `m_dup` copies the bytes, or returns NULL and keeps the source, unless the last mbuf
  is empty and the new ones are filled to the last byte.
-/

namespace FreeBSD.UipcMbuf

open List Function
open Lib (patch)

variable {mem mem' mem'' : Mem} {m n n' : Mbuf} {ms : List Mbuf} {other : ℕ → ℕ} {pos size : ℕ}
  {src : List Byte}

/-! ## Model -/

/-- `MCLBYTES` (`sys/param.h`, line 146). -/
def mclBytes : ℕ := 2048

/-- `MINCLSIZE` (`sys/mbuf.h`, line 53). -/
def minClSize : ℕ := mhLen + 1

/-- What the allocator has for each round: the storage of an mbuf with its `m_len`, and the address
    and the contents of a cluster. -/
structure Supply where
  mbuf : ℕ → Option (Dat × ℕ)
  cluster : ℕ → Option (ℕ × List Byte)
  tags : Bool

/-- What `m_dup_pkthdr` needs to know. -/
def Supply.allocator (c : Supply) : Allocator := ⟨fun k => (c.mbuf k).map Prod.fst, c.tags⟩

/-- `MCLGET` (`sys/mbuf.h`): the cluster `b` with one reference. -/
def mclGet (mem : Mem) (n : Mbuf) (b : ℕ) (buf : List Byte) : Mem × Mbuf :=
  (Function.update mem b (some ⟨buf, 1⟩), { n with ext := some b, data := 0 })

/-- The header of a new mbuf, and its size (lines 373–378). -/
def mDupHdr (c : Supply) (first : Option Mbuf) (n : Mbuf) : Option (Mbuf × ℕ) :=
  match first with
  | some m => (mDupPkthdr c.allocator n m).map fun n => (n, mhLen)
  | none => some (n, mLen)

/-- The next new mbuf of `m_dup` with its size (lines 369–386), where `first` is the mbuf with the
    packet header if there is no mbuf yet, or `none` for `nospace`. -/
def mDupNew (c : Supply) (k : ℕ) (mem : Mem) (first : Option Mbuf) (remain : ℤ) :
    Option (Mem × Mbuf × ℕ) :=
  (c.mbuf k).bind fun (dat, len) =>
    (mDupHdr c first { mGet dat with len := len }).bind fun (n, nsize) =>
    if remain ≥ minClSize then
      (c.cluster k).map fun (b, buf) =>
        ((mclGet mem n b buf).1, { (mclGet mem n b buf).2 with len := 0 }, mclBytes)
    else some (mem, { n with len := 0 }, nsize)

/-- The inner loop of `m_dup` (lines 393–404): `n` is filled from `moff` of the chain on. -/
def mDupFill (nsize : ℕ) :
    Mem → Mbuf → List Mbuf → ℕ → ℤ → Option (Mem × Mbuf × List Mbuf × ℕ × ℤ)
  | mem, n, [], moff, remain => some (mem, n, [], moff, remain)
  | mem, n, m :: ms, moff, remain =>
    if n.len < nsize then
      let chunk := min (nsize - n.len) (m.len - moff)
      match bcopyTo mem n n.len (readAt (storage mem m) (m.data + moff) chunk) with
      | none => none
      | some (mem, n) =>
        let n := { n with len := n.len + chunk }
        if moff + chunk = m.len then mDupFill nsize mem n ms 0 (remain - chunk)
        else
          -- `n` is full, and the loop ends
          some (mem, n, m :: ms, moff + chunk, remain - chunk)
    else some (mem, n, m :: ms, moff, remain)

/-- The outer loop of `m_dup` (lines 365–410), for at most `fuel` rounds. -/
def mDupLoop (c : Supply) :
    ℕ → ℕ → Mem → List Mbuf → ℕ → ℤ → List Mbuf → Option (Mem × List Mbuf)
  | 0, _, _, _, _, _, _ => none
  | fuel + 1, k, mem, m, moff, remain, top =>
    if remain > 0 ∨ top = [] then
      match mDupNew c k mem (if top = [] then m.head? else none) remain with
      | none => some (mFreem mem top, [])
      | some (mem, n, nsize) =>
        match mDupFill nsize mem n m moff remain with
        | none => none
        | some (mem, n, m, moff, remain) =>
          if (remain > 0 ∧ m ≠ []) ∨ (remain = 0 ∧ m = []) then
            mDupLoop c fuel (k + 1) mem m moff remain (top ++ [n])
          else none
    else some (mem, top)

/-- `m_dup(m, how)`: the copy, NULL where there is no space. -/
def mDup (c : Supply) (mem : Mem) (m : List Mbuf) : Option (Mem × List Mbuf) :=
  match m with
  | [] => some (mem, [])
  | m :: ms =>
    match m.pkthdr with
    | none => none
    | some len => mDupLoop c (len.toNat + 2) 0 mem (m :: ms) 0 len []

/-! ## Room in a new mbuf -/

/-- `m` with other data. -/
abbrev Mbuf.withLen (m : Mbuf) (len : ℕ) : Mbuf := { m with len := len }

theorem bcopyTo_withLen (mem : Mem) (m : Mbuf) (len off : ℕ) (src : List Byte) :
    bcopyTo mem (m.withLen len) off src =
      (bcopyTo mem m off src).map fun p => (p.1, p.2.withLen len) := by
  cases hext : m.ext with
  | none =>
    simp only [bcopyTo, hext, Option.map_map]; rfl
  | some b =>
    simp only [bcopyTo, hext]
    cases mem b with
    | none => rfl
    | some e =>
      dsimp only
      split_ifs
      · rfl
      · rfl

/-- The references are counted as before. -/
theorem bcopyTo_refCnt {off : ℕ} (h : bcopyTo mem m off src = some (mem', n)) (b : ℕ) :
    (mem' b).map ExtBuf.refCnt = (mem b).map ExtBuf.refCnt := by
  cases hext : m.ext with
  | none =>
    simp only [bcopyTo, hext] at h
    obtain ⟨dat, -, heq⟩ := Option.map_eq_some_iff.1 h
    rw [← (Prod.mk.inj heq).1]
  | some c =>
    simp only [bcopyTo, hext] at h
    cases he : mem c with
    | none =>
      rw [he] at h
      cases h
    | some e =>
      rw [he] at h
      dsimp only at h
      split_ifs at h
      rw [← (Prod.mk.inj (Option.some.inj h)).1]
      by_cases hb : b = c
      · subst hb
        rw [update_self, he]; rfl
      · rw [update_of_ne hb]

/-- The first `pos` of `size` bytes of `n` are there, and `src` has been added, which gives `n'`. -/
structure Added (mem mem' : Mem) (n n' : Mbuf) (size pos : ℕ) (src : List Byte) : Prop where
  ext : n'.ext = n.ext
  data : n'.data = n.data
  pkthdr : n'.pkthdr = n.pkthdr
  room : Valid mem' (n'.withLen size)
  contents : mtod mem' (n'.withLen (pos + src.length)) = mtod mem (n.withLen pos) ++ src
  others : ∀ l, Apart (n.withLen size) l → mtod mem' l = mtod mem l
  valid : ∀ l, Valid mem l → Valid mem' l
  refCnt : ∀ b, (mem' b).map ExtBuf.refCnt = (mem b).map ExtBuf.refCnt

/-- Bytes are added behind those that are there. -/
theorem bcopyTo_added (pos : ℕ) (src : List Byte) (hroom : Valid mem (n.withLen size))
    (hfit : pos + src.length ≤ size) :
    ∃ mem' n', bcopyTo mem n pos src = some (mem', n') ∧ n'.len = n.len ∧
      Added mem mem' n n' size pos src := by
  obtain ⟨mem', m', hrun, hw⟩ := bcopyTo_spec hroom pos src hfit
  rw [bcopyTo_withLen] at hrun
  obtain ⟨⟨mem1, n'⟩, hrun', heq⟩ := Option.map_eq_some_iff.1 hrun
  obtain ⟨rfl, rfl⟩ := Prod.mk.inj heq
  refine ⟨_, n', hrun', ?_, hw.place.ext, hw.place.data, hw.place.pkthdr, hw.valid_self, ?_,
    hw.others, hw.valid, bcopyTo_refCnt hrun'⟩
  · have hlen := bcopyTo_withLen mem n n.len pos src
    have hself : n.withLen n.len = n := rfl
    rw [hself, hrun'] at hlen
    have hn' : n' = n'.withLen n.len := (Prod.mk.inj (Option.some.inj hlen)).2
    rw [hn']
  · have htake := hroom.length_mtod
    have h1 := mtod_take mem1 (n'.withLen size) (k := pos + src.length) hfit
    have h2 := mtod_take mem (n.withLen size) (k := pos) (show pos ≤ size by omega)
    rw [hw.bytes] at h1
    rw [h1, h2]
    unfold patch
    rw [take_left']
    rw [length_append, length_take]
    dsimp only at htake; omega

theorem Added.refl (hroom : Valid mem (n.withLen size)) (pos : ℕ) :
    Added mem mem n n size pos [] :=
  ⟨rfl, rfl, rfl, hroom, (append_nil _).symm, fun _ _ => rfl, fun _ h => h, fun _ => rfl⟩

/-- More bytes are added. -/
theorem Added.trans {n'' : Mbuf} {src' : List Byte} (h : Added mem mem' n n' size pos src)
    (h' : Added mem' mem'' n' n'' size (pos + src.length) src') :
    Added mem mem'' n n'' size pos (src ++ src') where
  ext := h'.ext.trans h.ext
  data := h'.data.trans h.data
  pkthdr := h'.pkthdr.trans h.pkthdr
  room := h'.room
  contents := by
    rw [length_append, ← add_assoc, h'.contents, h.contents, append_assoc]
  others := by
    intro l hap
    have hap' : Apart (n'.withLen size) l := by
      unfold Apart at hap ⊢
      rw [h.ext, h.data]; exact hap
    rw [h'.others l hap', h.others l hap]
  valid := fun l hl => h'.valid l (h.valid l hl)
  refCnt := fun b => (h'.refCnt b).trans (h.refCnt b)

theorem Added.apart (h : Added mem mem' n n' size pos src)
    (hap : ∀ l ∈ ms, Apart (n.withLen size) l) :
    ∀ l ∈ ms, Apart (n'.withLen size) l := by
  intro l hl
  have := hap l hl
  unfold Apart at this ⊢
  rw [h.ext, h.data]; exact this

theorem Added.sameBytes (h : Added mem mem' n n' size pos src)
    (hap : ∀ l ∈ ms, Apart (n.withLen size) l) : bytes mem' ms = bytes mem ms :=
  flatMap_congr fun l hl => h.others l (hap l hl)

/-! ## Filling a new mbuf -/

/-- The last mbuf of a chain is empty. -/
def EmptyEnd (ms : List Mbuf) : Prop := ∃ m, ms.getLast? = some m ∧ m.len = 0

/-- A position of the source: `moff` is a byte of the first mbuf, or 0. -/
def Position (ms : List Mbuf) (moff : ℕ) : Prop :=
  moff = 0 ∨ ∃ m, ms.head? = some m ∧ moff < m.len

/-- What is left of the source. -/
def left (mem : Mem) (ms : List Mbuf) (moff : ℕ) : List Byte := (bytes mem ms).drop moff

theorem left_cons (ms : List Mbuf) (hm : Valid mem m) {moff : ℕ} (hle : moff ≤ m.len) :
    left mem (m :: ms) moff = (mtod mem m).drop moff ++ bytes mem ms := by
  have := hm.length_mtod
  rw [left, bytes_cons, drop_append_of_le_length (by omega)]

theorem emptyEnd_cons (hne : ms ≠ []) : EmptyEnd (m :: ms) ↔ EmptyEnd ms := by
  unfold EmptyEnd
  rw [List.getLast?_cons_of_ne_nil hne]

theorem emptyEnd_of_bytes (hne : ms ≠ []) (hv : ∀ l ∈ ms, Valid mem l) (h : bytes mem ms = []) :
    EmptyEnd ms := by
  obtain ⟨init, l, rfl⟩ := eq_nil_or_concat' ms |>.resolve_left hne
  refine ⟨l, List.getLast?_concat, ?_⟩
  have hl := (hv l (mem_append_right _ mem_cons_self)).length_mtod
  rw [bytes_append, bytes_cons, bytes_nil, append_nil] at h
  rw [← hl, (append_eq_nil_iff.1 h).2]; rfl

/-- The new mbuf takes as many bytes as it can. The source then stands behind its mbufs, unless
there are more bytes, or the new mbuf is full and only empty mbufs are left. -/
theorem mDupFill_spec (nsize : ℕ) (mem : Mem) (n : Mbuf) (ms : List Mbuf) (moff : ℕ) (remain : ℤ)
    (hroom : Valid mem (n.withLen nsize)) (hlen : n.len ≤ nsize)
    (hv : ∀ l ∈ ms, Valid mem l) (hap : ∀ l ∈ ms, Apart (n.withLen nsize) l)
    (hpos : Position ms moff) (hnil : ms = [] → moff = 0) :
    ∃ mem' n' ms' moff' k, mDupFill nsize mem n ms moff remain =
        some (mem', n', ms', moff', remain - (k : ℕ)) ∧
      k = min (nsize - n.len) (left mem ms moff).length ∧ n'.len = n.len + k ∧
      Added mem mem' n n' nsize n.len ((left mem ms moff).take k) ∧
      left mem' ms' moff' = (left mem ms moff).drop k ∧ ms' <:+ ms ∧ Position ms' moff' ∧
      (ms' = [] → moff' = 0) ∧
      ((left mem ms moff).length < nsize - n.len → ms' = []) ∧
      ((left mem ms moff).length = nsize - n.len → (ms' = [] ↔ ms = [] ∨ ¬ EmptyEnd ms)) := by
  induction ms generalizing mem n moff remain with
  | nil =>
    have h0 := hnil rfl
    subst h0
    refine ⟨mem, n, [], 0, 0, by rw [mDupFill, Nat.cast_zero, sub_zero], ?_, rfl, ?_, ?_,
      suffix_refl _, hpos, hnil, fun _ => rfl, fun _ => ?_⟩
    · rw [left, bytes_nil, drop_nil, length_nil, Nat.min_zero]
    · rw [take_zero]; exact Added.refl hroom _
    · rw [drop_zero]
    · exact iff_of_true rfl (.inl rfl)
  | cons m ms ih =>
    have hm := hv m mem_cons_self
    have hmlen := hm.length_mtod
    have hmoff : moff ≤ m.len := by
      obtain rfl | ⟨l, hl, hlt⟩ := hpos
      · exact Nat.zero_le _
      · obtain rfl := Option.some.inj hl
        exact hlt.le
    have hleft := left_cons ms hm hmoff
    have hleftlen : (left mem (m :: ms) moff).length = m.len - moff + (bytes mem ms).length := by
      rw [hleft, length_append, length_drop, hmlen]
    rw [mDupFill]
    by_cases hlt : n.len < nsize
    · rw [if_pos hlt]
      generalize hchunk : min (nsize - n.len) (m.len - moff) = chunk
      have hread : readAt (storage mem m) (m.data + moff) chunk =
          ((mtod mem m).drop moff).take chunk := by
        rw [mtod, ← readAt_drop, ← readAt_take, min_eq_left (by omega)]
      have hsrc : (((mtod mem m).drop moff).take chunk).length = chunk := by
        rw [length_take, length_drop]; omega
      obtain ⟨mem1, n1, hcopy, hn1, hadd⟩ := bcopyTo_added n.len
        (((mtod mem m).drop moff).take chunk) hroom (by omega)
      have hms : bytes mem1 ms = bytes mem ms :=
        hadd.sameBytes fun l hl => hap l (mem_cons_of_mem _ hl)
      have hm1 : mtod mem1 m = mtod mem m := hadd.others m (hap m mem_cons_self)
      dsimp only
      rw [hread, hcopy]
      dsimp only
      by_cases hend : moff + chunk = m.len
      · -- the next mbuf of the source
        rw [if_pos hend, hn1]
        have hall : ((mtod mem m).drop moff).take chunk = (mtod mem m).drop moff :=
          take_of_length_le (by rw [length_drop]; omega)
        rw [hall] at hadd hsrc
        obtain ⟨mem2, n2, ms', moff', k, hrun, hk, hn2, hadd2, hleft2, hsuf, hpos2, hnil2, hless,
          heq⟩ := ih mem1 (n1.withLen (n.len + chunk)) 0 (remain - chunk) hadd.room
            (show n.len + chunk ≤ nsize by omega)
            (fun l hl => hadd.valid l (hv l (mem_cons_of_mem _ hl)))
            (fun l hl => hadd.apart hap l (mem_cons_of_mem _ hl)) (.inl rfl) (fun _ => rfl)
        have hleft0 : left mem1 ms 0 = bytes mem ms := by rw [left, hms, drop_zero]
        have hwl : (n1.withLen (n.len + chunk)).len = n.len + chunk := rfl
        rw [hleft0, hwl] at hk hless heq hadd2
        rw [hleft0] at hleft2
        rw [hwl] at hn2
        refine ⟨mem2, n2, ms', moff', chunk + k, ?_, ?_, ?_, ?_, ?_, hsuf.trans
          (suffix_cons _ _),
          hpos2, hnil2, ?_, ?_⟩
        · rw [hrun]
          push_cast
          rw [sub_sub]
        · rw [hleftlen]; omega
        · omega
        · rw [hleft, take_append, take_of_length_le (by omega), hsrc,
            Nat.add_sub_cancel_left]
          have hadd2' : Added mem1 mem2 n1 n2 nsize (n.len + ((mtod mem m).drop moff).length)
              ((bytes mem ms).take k) := by
            rw [hsrc]
            exact ⟨hadd2.ext, hadd2.data, hadd2.pkthdr, hadd2.room, hadd2.contents, hadd2.others,
              hadd2.valid, hadd2.refCnt⟩
          exact hadd.trans hadd2'
        · have hgone : ((mtod mem m).drop moff).drop (chunk + k) = [] :=
            drop_of_length_le (by omega)
          rw [hleft2, hleft, drop_append, hgone, hsrc, Nat.add_sub_cancel_left,
            nil_append]
        · intro h; exact hless (by omega)
        · intro h
          rw [heq (by omega)]
          by_cases hne : ms = []
          · subst hne
            refine iff_of_true (.inl rfl) (.inr ?_)
            rintro ⟨l, hl, hzero⟩
            rw [List.getLast?_singleton] at hl
            obtain rfl := Option.some.inj hl
            rw [bytes_nil, length_nil] at hleftlen; omega
          · rw [emptyEnd_cons hne]; simp only [hne, reduceCtorEq, false_or]
      · rw [if_neg hend, hn1]
        have hfull : chunk = nsize - n.len := by omega
        have htake : (left mem (m :: ms) moff).take chunk =
          ((mtod mem m).drop moff).take chunk := by
          rw [hleft, take_append_of_le_length]
          rw [length_drop]; omega
        refine ⟨mem1, n1.withLen (n.len + chunk), m :: ms, moff + chunk, chunk, rfl, ?_, rfl, ?_,
          ?_,
          suffix_refl _, .inr ⟨m, rfl, by omega⟩, (fun h => by cases h), fun h => ?_,
          fun h => ?_⟩
        · rw [hleftlen]; omega
        · rw [htake]
          exact ⟨hadd.ext, hadd.data, hadd.pkthdr, hadd.room, hadd.contents, hadd.others,
            hadd.valid, hadd.refCnt⟩
        · rw [left, bytes_cons, hm1, hms, left, bytes_cons, drop_drop]
        · exact absurd h (by omega)
        · exact absurd h (by omega)
    · -- the new mbuf is full
      rw [if_neg hlt]
      have hfull : nsize - n.len = 0 := by omega
      refine ⟨mem, n, m :: ms, moff, 0, by rw [Nat.cast_zero, sub_zero], ?_, rfl, ?_, ?_,
        suffix_refl _, hpos, hnil, fun h => absurd h (by omega), fun h => ?_⟩
      · rw [hfull, Nat.zero_min]
      · rw [take_zero]; exact Added.refl hroom _
      · rw [drop_zero]
      · -- what is left of the source is empty
        have hzero : moff = 0 := by
          obtain rfl | ⟨l, hl, hlt'⟩ := hpos
          · rfl
          · obtain rfl := Option.some.inj hl
            omega
        refine iff_of_false (cons_ne_nil _ _) ?_
        rintro (h' | h')
        · cases h'
        · refine h' (emptyEnd_of_bytes (cons_ne_nil _ _) hv ?_)
          apply eq_nil_of_length_eq_zero
          have := congrArg List.length (show left mem (m :: ms) moff = bytes mem (m :: ms) by
            rw [left, hzero, drop_zero])
          omega

/-! ## A new mbuf -/

variable {c : Supply} {k : ℕ} {xs ys : List Mbuf}

/-- The clusters are not in use, and each is handed out once. -/
structure Supply.Fresh (c : Supply) (k : ℕ) (mem : Mem) : Prop where
  unused : ∀ j, k ≤ j → ∀ b buf, c.cluster j = some (b, buf) → mem b = none
  size : ∀ j b buf, c.cluster j = some (b, buf) → buf.length = mclBytes
  once : ∀ i j b buf buf', c.cluster i = some (b, buf) → c.cluster j = some (b, buf') → i = j

/-- The new mbuf `n` for the chain `xs ++ ys`, with room for `nsize` bytes. -/
structure NewMbuf (mem mem' : Mem) (xs ys : List Mbuf) (other : ℕ → ℕ) (n : Mbuf) (nsize : ℕ) :
    Prop where
  chain : Chain mem' (xs ++ n.withLen 0 :: ys) other
  room : Valid mem' (n.withLen nsize)
  apart : ∀ l ∈ xs ++ ys, Apart (n.withLen nsize) l
  same : ∀ l ∈ xs ++ ys, mtod mem' l = mtod mem l

theorem new_internal (h : Chain mem (xs ++ ys) other) {nsize : ℕ} (hext : n.ext = none)
    (hroom : Valid mem (n.withLen nsize)) : NewMbuf mem mem xs ys other n nsize := by
  refine ⟨h.insert (hroom.take (Nat.zero_le _)) hext, hroom, ?_, fun _ _ => rfl⟩
  intro l _; exact (apart_internal (show (n.withLen nsize).ext = none from hext)).symm

/-- A cluster that nobody refers to is added. -/
theorem new_cluster (h : Chain mem (xs ++ ys) other) {b : ℕ} {buf : List Byte} (hb : mem b = none)
    (hbuf : buf.length = mclBytes) :
    NewMbuf mem (mclGet mem n b buf).1 xs ys other (mclGet mem n b buf).2 mclBytes := by
  have hext (l : Mbuf) (hl : l ∈ xs ++ ys) : l.ext ≠ some b := by
    intro hlb
    obtain ⟨e, he, -⟩ := (h.valid l hl).external b hlb
    rw [hb] at he
    cases he
  have hkeep (c : ℕ) (hc : c ≠ b) : (mclGet mem n b buf).1 c = mem c := update_of_ne hc _ _
  have hself : (mclGet mem n b buf).1 b = some ⟨buf, 1⟩ := update_self _ _ _
  have hvalid (l : Mbuf) (hl : l ∈ xs ++ ys) : Valid (mclGet mem n b buf).1 l := by
    refine ⟨(h.valid l hl).internal, ?_⟩
    intro c hc
    rw [hkeep c fun hcb => hext l hl (hcb ▸ hc)]; exact (h.valid l hl).external c hc
  have hroom : Valid (mclGet mem n b buf).1 ((mclGet mem n b buf).2.withLen mclBytes) := by
    refine ⟨(fun hnone => by cases hnone), ?_⟩
    intro c hc
    obtain rfl := Option.some.inj hc
    refine ⟨_, hself, ?_, ?_⟩
    · show 0 + mclBytes ≤ buf.length; omega
    · show buf.length ≤ mCopyall
      rw [hbuf]; decide
  refine ⟨⟨?_, ?_⟩, hroom, ?_, ?_⟩
  · intro l hl
    simp only [mem_append, mem_cons] at hl
    obtain hl | rfl | hl := hl
    · exact hvalid l (mem_append_left _ hl)
    · exact hroom.take (Nat.zero_le _)
    · exact hvalid l (mem_append_right _ hl)
  · intro c
    have hcnt := h.counted c
    have hrefs : refs (xs ++ (mclGet mem n b buf).2.withLen 0 :: ys) c =
        refs (xs ++ ys) c + if c = b then 1 else 0 := by
      rw [refs_append, refs_cons, refs_append, add_assoc]
      congr 2
      by_cases hc : c = b
      · rw [if_pos hc, hc]; exact if_pos rfl
      · rw [if_neg hc]; exact if_neg fun heq => hc (Option.some.inj heq).symm
    by_cases hc : c = b
    · subst hc
      rw [hb] at hcnt
      have hzero : 0 = refs (xs ++ ys) c + other c := hcnt.1
      rw [if_pos rfl] at hrefs
      rw [hself]
      refine ⟨?_, ?_⟩
      · show 1 = refs _ c + other c
        rw [hrefs]; omega
      · intro e he
        obtain rfl := Option.some.inj he
        exact one_pos
    · rw [if_neg hc, add_zero] at hrefs
      rw [hkeep c hc]
      refine ⟨?_, hcnt.2⟩
      show _ = refs _ c + other c
      rw [hrefs]; exact hcnt.1
  · intro l hl c hc hlc
    obtain rfl := Option.some.inj hc
    exact absurd hlc (hext l hl)
  · intro l hl
    rw [mtod, mtod, storage_congr]
    intro c hc
    rw [hkeep c fun hcb => hext l hl (hcb ▸ hc)]

/-- All that the next new mbuf needs is there. -/
def Supply.Has (c : Supply) (k : ℕ) (first : Option Mbuf) (remain : ℤ) : Prop :=
  (c.mbuf k).isSome ∧ (first.isSome → c.tags = true) ∧
    (remain ≥ minClSize → (c.cluster k).isSome)

/-- The size of the next new mbuf. -/
def newSize (first : Option Mbuf) (remain : ℤ) : ℕ :=
  if remain ≥ minClSize then mclBytes else if first.isSome then mhLen else mLen

theorem newSize_pos (first : Option Mbuf) (remain : ℤ) : 0 < newSize first remain := by
  unfold newSize
  split_ifs
  all_goals decide

/-- The next new mbuf, if all that it needs is there. -/
theorem mDupNew_spec (hf : c.Fresh k mem) (h : Chain mem (xs ++ ys) other) (first : Option Mbuf)
    (remain : ℤ) :
    (mDupNew c k mem first remain = none ∧ ¬ c.Has k first remain) ∨
      c.Has k first remain ∧ ∃ mem' n, mDupNew c k mem first remain =
          some (mem', n, newSize first remain) ∧
        NewMbuf mem mem' xs ys other n (newSize first remain) ∧ n.len = 0 ∧
        n.pkthdr = first.bind Mbuf.pkthdr ∧ c.Fresh (k + 1) mem' := by
  unfold mDupNew newSize Supply.Has
  cases hget : c.mbuf k with
  | none => exact .inl ⟨rfl, fun hh => Bool.false_ne_true hh.1⟩
  | some p =>
    obtain ⟨dat, len⟩ := p
    rw [Option.bind_some]
    dsimp only
    -- the header of the first mbuf
    have hhdr : (∃ n nsize, mDupHdr c first { mGet dat with len := len } = some (n, nsize) ∧
        (first.isSome → c.tags = true) ∧ nsize = (if first.isSome then mhLen else mLen) ∧
        n.ext = none ∧ n.pkthdr = first.bind Mbuf.pkthdr ∧ n.data + nsize = mLen ∧
        (n.pkthdr.isSome → n.data = mLen - mhLen)) ∨
      mDupHdr c first { mGet dat with len := len } = none ∧ ¬ (first.isSome → c.tags = true) := by
      cases first with
      | none =>
        exact .inl ⟨_, _, rfl, (fun hh => absurd hh Bool.false_ne_true), rfl, rfl, rfl,
          zero_add _,
          fun hh => absurd hh Bool.false_ne_true⟩
      | some m =>
        by_cases htags : c.tags = true
        · left
          have hrun : mDupHdr c (some m) { mGet dat with len := len } =
              some ({ mGet dat with len := len, pkthdr := m.pkthdr, data := mLen - mhLen },
                mhLen) := by
            rw [mDupHdr, mDupPkthdr, Supply.allocator, if_pos htags]; rfl
          refine ⟨_, _, hrun, fun _ => htags, rfl, rfl, rfl, ?_, fun _ => rfl⟩
          show mLen - mhLen + mhLen = mLen
          decide
        · right
          refine ⟨?_, fun hh => htags (hh rfl)⟩
          rw [mDupHdr, mDupPkthdr, Supply.allocator, if_neg htags]; rfl
    obtain ⟨n, nsize, hrun, htags, hsize, hext, hpkt, hdata, hbase⟩ | ⟨hrun, htags⟩ := hhdr
    · rw [hrun, Option.bind_some, ← hsize]
      dsimp only
      by_cases hbig : remain ≥ minClSize
      · rw [if_pos hbig, if_pos hbig]
        cases hcl : c.cluster k with
        | none => exact .inl ⟨rfl, fun hh => Bool.false_ne_true (hh.2.2 hbig)⟩
        | some q =>
          obtain ⟨b, buf⟩ := q
          right
          have hnew := new_cluster (n := n) h (hf.unused k le_rfl b buf hcl) (hf.size k b buf hcl)
          refine ⟨⟨rfl, htags, fun _ => rfl⟩, _, _, rfl, ⟨hnew.chain, hnew.room, hnew.apart,
            hnew.same⟩, rfl, hpkt, ⟨?_, hf.size, hf.once⟩⟩
          intro j hj b' buf' hj'
          have hne : b' ≠ b := by
            rintro rfl
            have := hf.once k j b' buf buf' hcl hj'; omega
          exact (update_of_ne hne _ _).trans (hf.unused j (by omega) b' buf' hj')
      · rw [if_neg hbig, if_neg hbig]
        right
        have hnew : NewMbuf mem mem xs ys other n nsize := by
          apply new_internal h hext
          refine ⟨fun _ => ⟨fun hsome => (hbase hsome).ge, hdata.le⟩, ?_⟩
          intro b hb
          rw [show n.ext = some b from hb] at hext
          cases hext
        refine ⟨⟨rfl, htags, fun hb => absurd hb hbig⟩, _, _, rfl, ⟨hnew.chain, hnew.room,
          hnew.apart, hnew.same⟩, rfl, hpkt, ⟨?_, hf.size, hf.once⟩⟩
        intro j hj; exact hf.unused j (by omega)
    · rw [hrun]; exact .inl ⟨rfl, fun hh => htags hh.2.1⟩

/-- The new mbuf has been filled. -/
theorem NewMbuf.fill {nsize : ℕ} (h : NewMbuf mem mem' xs ys other n nsize)
    (hadd : Added mem' mem'' n n' nsize 0 src) (hlen : n'.len = src.length)
      (hle : src.length ≤ nsize) :
    Chain mem'' (xs ++ [n'] ++ ys) other ∧ mtod mem'' n' = src ∧
      ∀ l ∈ xs ++ ys, mtod mem'' l = mtod mem l := by
  have hn' : n'.withLen src.length = n' := by rw [← hlen]
  refine ⟨⟨?_, ?_⟩, ?_, ?_⟩
  · intro l hl
    simp only [mem_append, mem_singleton] at hl
    obtain (hl | rfl) | hl := hl
    · exact hadd.valid l (h.chain.valid l (mem_append_left _ hl))
    · have := hadd.room.take hle
      rwa [← hn']
    · exact hadd.valid l (h.chain.valid l (mem_append_right _ (mem_cons_of_mem _ hl)))
  · intro b
    obtain ⟨hcnt, hpos⟩ := h.chain.counted b
    have href := hadd.refCnt b
    refine ⟨?_, ?_⟩
    · have hext : (n.withLen 0).ext = n'.ext := hadd.ext.symm
      rw [href, hcnt]
      show refs (xs ++ n.withLen 0 :: ys) b + other b = refs (xs ++ [n'] ++ ys) b + other b
      rw [refs_append, refs_append, refs_append, refs_cons, refs_cons, refs_nil, hext]; omega
    · intro e he
      rw [he] at href
      obtain ⟨e', he', heq⟩ := Option.map_eq_some_iff.1 href.symm
      rw [← heq]; exact hpos e' he'
  · have hzero : mtod mem' (n.withLen 0) = [] := mtod_zero mem' n
    have hcont := hadd.contents
    rw [zero_add, hn', hzero, nil_append] at hcont; exact hcont
  · intro l hl
    rw [hadd.others l (h.apart l hl), h.same l hl]

/-! ## The assertion -/

/-- From round `k` on, with `r` bytes left, the `KASSERT` fails: the last mbuf of the source is
empty, the last new mbuf is filled to the last byte, and all new mbufs are there. -/
def AssertAt (c : Supply) (k : ℕ) (first : Prop) (r : ℕ) (ms : List Mbuf) : Prop :=
  EmptyEnd ms ∧ (first → c.tags = true) ∧
    ((first ∧ r = mhLen ∧ (c.mbuf k).isSome) ∨
      ∃ q, 0 < q ∧ r = q * mclBytes ∧
        ∀ i < q, (c.mbuf (k + i)).isSome ∧ (c.cluster (k + i)).isSome)

theorem AssertAt.has {first : Option Mbuf} {r : ℕ} (h : AssertAt c k first.isSome r ms) :
    c.Has k first r := by
  obtain ⟨-, htags, ⟨-, hr, hget⟩ | ⟨q, hq, hr, hall⟩⟩ := h
  · refine ⟨hget, htags, fun hbig => ?_⟩
    simp only [minClSize] at hbig; omega
  · exact ⟨(hall 0 hq).1, htags, fun _ => (hall 0 hq).2⟩

/-- Nothing is left. -/
theorem not_assertAt_zero : ¬ AssertAt c k False 0 ms := by
  rintro ⟨-, -, ⟨hf, -⟩ | ⟨q, hq, hr, -⟩⟩
  · exact hf
  · simp only [mclBytes] at hr; omega

/-- A new mbuf that is filled to the last byte, where nothing else is left. -/
theorem assertAt_full {first : Option Mbuf} {r : ℕ} (hhas : c.Has k first r)
    (hfull : r = newSize first r) (hend : EmptyEnd ms) : AssertAt c k first.isSome r ms := by
  refine ⟨hend, hhas.2.1, ?_⟩
  unfold newSize at hfull
  split_ifs at hfull with hbig hfirst
  · right
    refine ⟨1, one_pos, by omega, fun i hi => ?_⟩
    obtain rfl : i = 0 := by omega
    exact ⟨hhas.1, hhas.2.2 hbig⟩
  · exact .inl ⟨hfirst, hfull, hhas.1⟩
  · simp only [minClSize, mhLen, mLen] at hbig hfull; omega

/-- One round keeps the condition. -/
theorem assertAt_step {first : Option Mbuf} {r : ℕ} (hhas : c.Has k first r)
    (hfull : ¬ (r = newSize first r ∧ EmptyEnd ms)) :
    AssertAt c k first.isSome r ms ↔ AssertAt c (k + 1) False (r - newSize first r) ms := by
  unfold newSize at hfull ⊢
  constructor
  · rintro ⟨hend, -, ⟨hfirst, hr, -⟩ | ⟨q, hq, hr, hall⟩⟩
    · -- a first mbuf of `MHLEN` bytes is full
      refine absurd ⟨?_, hend⟩ hfull
      rw [if_neg, if_pos hfirst]
      · exact hr
      · simp only [minClSize]; omega
    · have hbig : (r : ℤ) ≥ minClSize := by
        simp only [minClSize, mhLen, mclBytes] at hr ⊢; omega
      rw [if_pos hbig] at hfull ⊢
      have hq1 : q ≠ 1 := by rintro rfl; exact hfull ⟨by omega, hend⟩
      refine ⟨hend, fun hf => hf.elim, .inr ⟨q - 1, by omega, ?_, fun i hi => ?_⟩⟩
      · rw [hr, Nat.sub_one_mul]
      · rw [show k + 1 + i = k + (i + 1) by omega]
        exact hall (i + 1) (by omega)
  · rintro ⟨hend, -, ⟨hf, -⟩ | ⟨q, hq, hr, hall⟩⟩
    · exact hf.elim
    · have hbig : (r : ℤ) ≥ minClSize := by
        by_contra hsmall
        rw [if_neg hsmall] at hr
        simp only [minClSize, mhLen, mclBytes] at hr hsmall; omega
      rw [if_pos hbig] at hr
      refine ⟨hend, hhas.2.1, .inr ⟨q + 1, by omega, ?_, fun i hi => ?_⟩⟩
      · rw [Nat.add_one_mul, ← hr]
        simp only [mclBytes] at hr ⊢; omega
      · cases i with
        | zero => exact ⟨hhas.1, hhas.2.2 hbig⟩
        | succ i =>
          rw [show k + (i + 1) = k + 1 + i by omega]
          exact hall i (by omega)

/-! ## `m_dup` -/

/-- Something is not there. -/
def Supply.Fails (c : Supply) : Prop :=
  (∃ k, c.mbuf k = none) ∨ (∃ k, c.cluster k = none) ∨ c.tags = false

theorem Supply.fails_of_not_has {first : Option Mbuf} {remain : ℤ} (h : ¬ c.Has k first remain) :
    c.Fails := by
  by_contra hall
  unfold Supply.Fails at hall
  push Not at hall
  obtain ⟨hm, hc, ht⟩ := hall
  refine h ⟨?_, fun _ => ?_, fun _ => ?_⟩
  · exact Option.isSome_iff_ne_none.2 (hm k)
  · exact Bool.eq_true_of_not_eq_false ht
  · exact Option.isSome_iff_ne_none.2 (hc k)

/-- The state before a round of `m_dup`: `top` has the bytes in front of the position. -/
structure Dupping (c : Supply) (mem0 mem : Mem) (ms : List Mbuf) (other : ℕ → ℕ) (k : ℕ)
    (m : List Mbuf) (moff : ℕ) (top : List Mbuf) : Prop where
  chain : Chain mem (top ++ ms) other
  same : bytes mem ms = bytes mem0 ms
  suffix : m <:+ ms
  position : Position m moff
  atEnd : m = [] → moff = 0
  sum : bytes mem0 ms = bytes mem top ++ left mem m moff
  fresh : c.Fresh k mem
  start : top = [] → m = ms
  hdr : top ≠ [] → hdrLen top = hdrLen ms

/-- What `m_dup` leaves: the source as it was, and a copy of it unless something is not there. -/
structure Dupped (c : Supply) (mem0 mem : Mem) (ms : List Mbuf) (other : ℕ → ℕ)
    (top : List Mbuf) : Prop where
  chain : Chain mem (top ++ ms) other
  same : bytes mem ms = bytes mem0 ms
  null : top = [] → c.Fails
  copy : top ≠ [] → bytes mem top = bytes mem0 ms ∧ hdrLen top = hdrLen ms

theorem emptyEnd_suffix (hs : ys <:+ ms) (hne : ys ≠ []) : EmptyEnd ys ↔ EmptyEnd ms := by
  obtain ⟨xs, rfl⟩ := hs
  unfold EmptyEnd
  rw [List.getLast?_append_of_ne_nil _ hne]

/-- The loop of `m_dup` copies all that is left, unless the assertion fails. -/
theorem mDupLoop_spec (mem0 : Mem) (hne : ms ≠ []) (fuel k : ℕ) (mem : Mem) (m : List Mbuf)
    (moff : ℕ) (top : List Mbuf) (h : Dupping c mem0 mem ms other k m moff top)
    (hfuel : (left mem m moff).length + (if top = [] then 1 else 0) < fuel) :
    (mDupLoop c fuel k mem m moff (left mem m moff).length top = none ∧
        AssertAt c k (top = []) (left mem m moff).length ms) ∨
      ¬ AssertAt c k (top = []) (left mem m moff).length ms ∧
        ∃ mem' top', mDupLoop c fuel k mem m moff (left mem m moff).length top =
          some (mem', top') ∧ Dupped c mem0 mem' ms other top' := by
  induction fuel generalizing k mem m moff top with
  | zero => omega
  | succ fuel ih =>
    generalize hr : (left mem m moff).length = r at *
    rw [mDupLoop]
    by_cases hgo : (r : ℤ) > 0 ∨ top = []
    · rw [if_pos hgo]
      generalize hfirst : (if top = [] then m.head? else none) = first
      have hisSome : (first.isSome : Prop) = (top = []) := by
        apply propext
        rw [← hfirst]
        by_cases htop : top = []
        · rw [if_pos htop, h.start htop]
          refine iff_of_true ?_ htop
          rw [isSome_head?]; simpa using hne
        · rw [if_neg htop]; exact iff_of_false Bool.false_ne_true htop
      rw [← hisSome]
      obtain ⟨hrun, hno⟩ | ⟨hhas, mem1, n, hrun, hnew, hlen, hpkt, hfresh⟩ :=
        mDupNew_spec h.fresh h.chain first r
      · -- `nospace`
        rw [hrun]
        right
        obtain ⟨hchain, hsame⟩ := nospace_spec h.chain
        refine ⟨fun ha => hno ha.has, _, [], rfl, hchain, ?_, fun _ => Supply.fails_of_not_has hno,
          fun hh => absurd rfl hh⟩
        rw [← h.same]; exact (hsame.mono fun b => Nat.le_add_right _ _).bytes
      · rw [hrun]
        dsimp only
        have hsub : ∀ l ∈ m, l ∈ top ++ ms := fun l hl =>
          mem_append_right _ (h.suffix.subset hl)
        have hleft : left mem1 m moff = left mem m moff := by
          rw [left, left]
          congr 1
          exact flatMap_congr fun l hl => hnew.same l (hsub l hl)
        obtain ⟨mem2, n', m', moff', d, hfill, hd, hn', hadd, hleft', hsuf, hpos', hnil', hless,
          heq⟩ := mDupFill_spec (newSize first r) mem1 n m moff r hnew.room
            (by rw [hlen]; exact Nat.zero_le _)
            (fun l hl => hnew.chain.valid l (by
              obtain hl | hl := mem_append.1 (hsub l hl)
              · exact mem_append_left _ hl
              · exact mem_append_right _ (mem_cons_of_mem _ hl)))
            (fun l hl => hnew.apart l (hsub l hl)) h.position h.atEnd
        rw [hfill]
        dsimp only
        rw [hleft, hlen, Nat.sub_zero, hr] at hd hless heq
        rw [hlen, zero_add] at hn'
        rw [hleft, hlen] at hadd
        rw [hleft] at hleft'
        have hd' : ((left mem m moff).take d).length = d := by rw [length_take, hr]; omega
        obtain ⟨hchain2, hmtod2, hsame2⟩ := hnew.fill hadd (hn'.trans hd'.symm) (by omega)
        have hr' : (left mem2 m' moff').length = r - newSize first r := by
          rw [hleft', length_drop, hr]; omega
        have hrem : ((r : ℤ) - (d : ℕ)) = ((r - newSize first r : ℕ) : ℤ) := by omega
        rw [hrem]
        -- the assertion fails where the new mbuf is full and empty mbufs are left
        by_cases hfull : r = newSize first r ∧ EmptyEnd ms
        · left
          have hm0 : m ≠ [] := by
            rintro rfl
            have hzero : r = 0 := by rw [← hr, left, bytes_nil, drop_nil, length_nil]
            have := hfull.1
            have hpos := newSize_pos first r; omega
          have hm' : m' ≠ [] := by
            intro hm'
            obtain hm | hend := (heq hfull.1).1 hm'
            · exact hm0 hm
            · exact hend ((emptyEnd_suffix h.suffix hm0).2 hfull.2)
          refine ⟨?_, assertAt_full hhas hfull.1 hfull.2⟩
          rw [if_neg]
          rintro (⟨hpos, -⟩ | ⟨-, hm''⟩)
          · omega
          · exact hm' hm''
        · have hok : (((r - newSize first r : ℕ) : ℤ) > 0 ∧ m' ≠ []) ∨
              (((r - newSize first r : ℕ) : ℤ) = 0 ∧ m' = []) := by
            obtain hlt | hge | hgt := lt_trichotomy r (newSize first r)
            · exact .inr ⟨by omega, hless hlt⟩
            · refine .inr ⟨by omega, (heq hge).2 ?_⟩
              by_cases hm0 : m = []
              · exact .inl hm0
              · right
                intro hend; exact hfull ⟨hge, (emptyEnd_suffix h.suffix hm0).1 hend⟩
            · refine .inl ⟨by omega, ?_⟩
              rintro rfl
              rw [left, bytes_nil, drop_nil, length_nil] at hr'; omega
          rw [if_pos hok, assertAt_step hhas hfull]
          have hnext : Dupping c mem0 mem2 ms other (k + 1) m' moff' (top ++ [n']) := by
            have hms : bytes mem2 ms = bytes mem ms :=
              flatMap_congr fun l hl => hsame2 l (mem_append_right _ hl)
            have htop : bytes mem2 top = bytes mem top :=
              flatMap_congr fun l hl => hsame2 l (mem_append_left _ hl)
            refine ⟨hchain2, hms.trans h.same, hsuf.trans h.suffix, hpos', hnil', ?_, ?_, ?_, ?_⟩
            · rw [h.sum, bytes_append, bytes_cons, bytes_nil, append_nil, htop, hmtod2, hleft',
                append_assoc, take_append_drop]
            · refine ⟨fun j hj b buf hb => ?_, hfresh.size, hfresh.once⟩
              have hnone := hfresh.unused j hj b buf hb
              have href := hadd.refCnt b
              rw [hnone] at href; exact Option.map_eq_none_iff.1 href
            · intro htop; simp at htop
            · intro _
              cases htop0 : top with
              | nil =>
                show n'.pkthdr = hdrLen ms
                rw [hadd.pkthdr, hpkt, ← hfirst, if_pos htop0, h.start htop0]; rfl
              | cons x xs =>
                rw [← h.hdr (by rw [htop0]; exact cons_ne_nil _ _), htop0]
                rfl
          have hfalse : (top ++ [n'] = []) = False := by simp
          have hdec := ih (k + 1) mem2 m' moff' (top ++ [n']) hnext (by
            have hpos := newSize_pos first r
            rw [hr', if_neg (by simp)]
            split_ifs at hfuel
            · omega
            · obtain hgo | htop := hgo
              · omega
              · contradiction)
          rw [hr', hfalse] at hdec; exact hdec
    · -- all has been copied
      rw [if_neg hgo]
      obtain ⟨hzero, htop⟩ := not_or.1 hgo
      obtain rfl : r = 0 := by omega
      right
      refine ⟨?_, mem, top, rfl, h.chain, h.same, fun hh => absurd hh htop, fun _ =>
        ⟨?_, h.hdr htop⟩⟩
      · have hfalse : (top = []) = False := eq_false htop
        rw [hfalse]; exact not_assertAt_zero
      · rw [h.sum, eq_nil_of_length_eq_zero hr, append_nil]

/-- `m_dup` does what it is for: its assertion holds, the source is as it was, and the result is
NULL only where something is not there, and otherwise a copy of the source. -/
def DupCopies (c : Supply) (mem : Mem) (ms : List Mbuf) (other : ℕ → ℕ) : Prop :=
  ∃ mem' top, mDup c mem ms = some (mem', top) ∧ Dupped c mem mem' ms other top

/-- The assertion of `m_dup` fails. -/
def DupAsserts (c : Supply) (ms : List Mbuf) (len : ℕ) : Prop :=
  EmptyEnd ms ∧ c.tags = true ∧
    ((len = mhLen ∧ (c.mbuf 0).isSome) ∨
      ∃ q, 0 < q ∧ len = q * mclBytes ∧ ∀ i < q, (c.mbuf i).isSome ∧ (c.cluster i).isSome)

theorem assertAt_start {len : ℕ} : AssertAt c 0 True len ms ↔ DupAsserts c ms len := by
  unfold AssertAt DupAsserts; simp only [true_and, forall_const, zero_add]

/-- `m_dup` copies every packet with the right packet length, unless its assertion fails. -/
theorem mDup_iff (hf : c.Fresh 0 mem) (h : Chain mem ms other)
    (hhdr : hdrLen ms = some ((bytes mem ms).length : ℤ)) :
    DupCopies c mem ms other ↔ ¬ DupAsserts c ms (bytes mem ms).length := by
  have hne : ms ≠ [] := by
    rintro rfl
    cases hhdr
  have hleft : left mem ms 0 = bytes mem ms := drop_zero
  have hstart : Dupping c mem mem ms other 0 ms 0 [] :=
    ⟨h, rfl, suffix_refl _, .inl rfl, fun _ => rfl, by rw [hleft]; rfl, hf, fun _ => rfl,
      fun hh => absurd rfl hh⟩
  have hrun : mDup c mem ms = mDupLoop c ((bytes mem ms).length + 2) 0 mem ms 0
      (bytes mem ms).length [] := by
    obtain ⟨m, rest, rfl⟩ := exists_cons_of_ne_nil hne
    have hm : m.pkthdr = some ((bytes mem (m :: rest)).length : ℤ) := hhdr
    rw [mDup, hm]; rfl
  have hloop := mDupLoop_spec mem hne ((bytes mem ms).length + 2) 0 mem ms 0 [] hstart
    (by rw [hleft, if_pos rfl]; omega)
  have htrue : (([] : List Mbuf) = []) = True := eq_self _
  rw [hleft, htrue, assertAt_start, ← hrun] at hloop
  obtain ⟨hnone, hassert⟩ | ⟨hassert, mem', top, hsome, hdone⟩ := hloop
  · refine iff_of_false ?_ (not_not_intro hassert)
    rintro ⟨mem', top, hsome, -⟩
    rw [hnone] at hsome
    cases hsome
  · exact iff_of_true ⟨mem', top, hsome, hdone⟩ hassert

end FreeBSD.UipcMbuf
