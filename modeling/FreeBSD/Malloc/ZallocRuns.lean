import FreeBSD.Lib.Runs
import FreeBSD.Malloc.ZallocList

/-!
# Runs of calls on a memory pool

A pool with the set of the addresses that are allocated: those of the areas
that `zextendPool` added and of the blocks that `znalloc` returned, without
those that were freed. The owners of allocated memory write into it.

Results:
* `Good.extend`, `Good.alloc`, `Good.free`, `Good.write`: what each call keeps.
* `pool_of_run`: the free list and the counts in every run, and the blocks that `znalloc` returns.
* `whole_of_run`: a pool of which nothing is used.
-/

namespace FreeBSD.Zalloc

open Lib (Runs Coalesced covered total linkAfter)

/-! ## Sizes -/

/-- What areas are aligned to. -/
def Arch.unit (A : Arch) : ℕ := A.memnodeSizeMask + 1

theorem Arch.unit_pos (A : Arch) : 0 < A.unit := Nat.succ_pos _

theorem Arch.round_spec (A : Arch) {bytes : ℕ} (h : bytes < A.iaddrs) :
    A.unit ∣ A.round bytes ∧ A.round bytes < bytes + A.unit ∧
      (A.round bytes = 0 ∨ bytes ≤ A.round bytes) := by
  have hd : A.unit ∣ A.round bytes := Nat.dvd_sub_mod _
  refine ⟨hd, ?_⟩
  unfold round unit
  dsimp only
  cases A with
  | ilp32 =>
    change bytes < 2 ^ 32 at h
    show (bytes + 7) % 2 ^ 32 - (bytes + 7) % 2 ^ 32 % 8 < bytes + 8 ∧ ((bytes + 7) % 2 ^ 32 -
      (bytes + 7) % 2 ^ 32 % 8 = 0 ∨ bytes ≤ (bytes + 7) % 2 ^ 32 - (bytes + 7) % 2 ^ 32 % 8)
    omega
  | lp64 =>
    change bytes < 2 ^ 64 at h
    show (bytes + 15) % 2 ^ 64 - (bytes + 15) % 2 ^ 64 % 16 < bytes + 16 ∧ ((bytes + 15) % 2 ^ 64 -
      (bytes + 15) % 2 ^ 64 % 16 = 0 ∨ bytes ≤ (bytes + 15) % 2 ^ 64 - (bytes + 15) % 2 ^ 64 % 16)
    omega

theorem Arch.sub_of_le (A : Arch) {a b : ℕ} (hb : b ≤ a) (ha : a < A.iaddrs) :
    A.sub a b = a - b := by
  unfold sub
  rw [show a + (A.iaddrs - b) = a - b + A.iaddrs by omega, Nat.add_mod_right,
    Nat.mod_eq_of_lt (by omega)]

/-! ## The pool -/

theorem setLink_mp (s : State) (pmn : Option ℕ) (v : ℕ) :
    ∃ f, (s.setLink pmn v).mp = { s.mp with mpFirst := f } := by
  cases pmn with
  | none => exact ⟨v, rfl⟩
  | some q => exact ⟨s.mp.mpFirst, rfl⟩

theorem cut_mp (A : Arch) (b : ℕ) (s : State) (pmn : Option ℕ) (v : ℕ) :
    ∃ f, (cut A b s pmn v).mp = { s.mp with mpFirst := f, mpUsed := A.add s.mp.mpUsed b } := by
  unfold cut
  dsimp only
  split_ifs
  · obtain ⟨f, hf⟩ := setLink_mp s pmn (s.node v).mrNext
    refine ⟨f, ?_⟩
    unfold State.setUsed
    rw [hf]
  · obtain ⟨f, hf⟩ := setLink_mp (s.setNode (v + b)
      { mrNext := (s.node v).mrNext, mrBytes := (s.node v).mrBytes - b }) pmn (v + b)
    refine ⟨f, ?_⟩
    unfold State.setUsed
    rw [hf]; rfl

theorem mergePrevious_mp (A : Arch) (s : State) (pmn : Option ℕ) (p : ℕ) :
    (mergePrevious A s pmn p).mp = s.mp := by
  cases pmn with
  | none => rfl
  | some q =>
    unfold mergePrevious
    dsimp only
    split_ifs <;> rfl

theorem insertBefore_mp (A : Arch) (s : State) (pmn : Option ℕ) (v p b : ℕ) :
    ∃ f, (insertBefore A s pmn v p b).mp = { s.mp with mpFirst := f } := by
  unfold insertBefore
  dsimp only
  rw [mergePrevious_mp]; exact setLink_mp _ _ _

theorem append_mp (A : Arch) (s : State) (pmn : Option ℕ) (p b : ℕ) :
    ∃ f, (append A s pmn p b).mp = { s.mp with mpFirst := f } := by
  have hadd := setLink_mp (s.setNode p { mrNext := 0, mrBytes := b }) pmn p
  cases pmn with
  | none => exact hadd
  | some q =>
    unfold append
    dsimp only
    split_ifs
    · exact hadd
    · exact ⟨s.mp.mpFirst, rfl⟩

theorem insertAt_mp (A : Arch) (s : State) (pmn : Option ℕ) (next : Option (ℕ × ℕ)) (p b : ℕ) :
    ∃ f, (insertAt A s pmn next p b).mp = { s.mp with mpFirst := f } := by
  cases next with
  | none => exact append_mp A s pmn p b
  | some a => exact insertBefore_mp A s pmn a.1 p b

/-! ## The invariant -/

/-- A pool with its memory and the addresses that are allocated. -/
structure Sys where
  st : State
  allocated : Set ℕ

/-- What is true of a pool between two calls; `l` are the areas of the free list. -/
structure Good (A : Arch) (s : Sys) (l : List (ℕ × ℕ)) : Prop where
  list : FreeList s.st l
  areas : Coalesced A.unit s.st.mp.mpBase s.st.mp.mpEnd l
  base : s.st.mp.mpSize ≠ 0 → s.st.mp.mpBase ≠ 0
  size : s.st.mp.mpBase + s.st.mp.mpSize = s.st.mp.mpEnd
  fits : s.st.mp.mpEnd + A.unit ≤ A.iaddrs
  used : s.st.mp.mpUsed + total l = s.st.mp.mpSize
  inside : s.allocated ⊆ Set.Ico s.st.mp.mpBase s.st.mp.mpEnd
  apart : Disjoint s.allocated (covered l)

variable {A : Arch} {s : Sys} {l : List (ℕ × ℕ)} {base bytes ptr rounds : ℕ}

/-- An area that is contiguous to the pool or above it, without the null pointer and the last node
    of the address space. -/
def Extends (A : Arch) (mp : MemPool) (base bytes : ℕ) : Prop :=
  base ≠ 0 ∧ base + bytes + A.unit ≤ A.iaddrs ∧
    (mp.mpSize = 0 ∨ mp.mpEnd ≤ base ∨ base + bytes = mp.mpBase)

/-- What `zextendPool` does to a pool that is not empty. -/
theorem zextendPool_spec {mp : MemPool} (hsize : mp.mpBase + mp.mpSize = mp.mpEnd)
    (hfits : mp.mpEnd + A.unit ≤ A.iaddrs) (hused : mp.mpUsed ≤ mp.mpSize) (h0 : mp.mpSize ≠ 0)
    (h : Extends A mp base bytes) :
    ∃ used, zextendPool A mp base bytes =
        { mpBase := min mp.mpBase base, mpEnd := max mp.mpEnd (base + bytes),
          mpFirst := mp.mpFirst, mpSize := max mp.mpEnd (base + bytes) - min mp.mpBase base,
          mpUsed := used } ∧
      used + mp.mpSize = mp.mpUsed + (max mp.mpEnd (base + bytes) - min mp.mpBase base) := by
  obtain ⟨-, hroom, hwhere⟩ := h
  have hupos := A.unit_pos
  obtain ⟨b, e, f, sz, u⟩ := mp
  dsimp only at *
  unfold zextendPool
  rw [if_neg h0]
  rcases hwhere.resolve_left h0 with hup | hdown
  · have hdown : extendDown A ⟨b, e, f, sz, u⟩ base = ⟨b, e, f, sz, u⟩ :=
      if_neg (by show ¬ base < b; omega)
    rw [hdown]
    unfold extendUp
    dsimp only
    rw [hsize]
    by_cases hgt : base + bytes > e
    · rw [if_pos hgt, add_of_lt (by omega), add_of_lt (by omega)]
      refine ⟨u + (base + bytes - e), ?_, by omega⟩
      rw [min_eq_left (by omega), max_eq_right (by omega),
        show sz + (base + bytes - e) = base + bytes - b by omega]
    · rw [if_neg hgt]
      refine ⟨u, ?_, by omega⟩
      rw [min_eq_left (by omega), max_eq_left (by omega), show sz = e - b by omega]
  · unfold extendUp extendDown
    dsimp only
    rw [if_neg (by omega)]
    by_cases hlt : base < b
    · rw [if_pos hlt, add_of_lt (by omega), add_of_lt (by omega)]
      refine ⟨u + (b - base), ?_, by omega⟩
      rw [min_eq_right (by omega), max_eq_left (by omega),
        show sz + (b - base) = e - base by omega]
    · rw [if_neg hlt]
      refine ⟨u, ?_, by omega⟩
      rw [min_eq_left (by omega), max_eq_left (by omega), show sz = e - b by omega]

/-- The list is read from `mp_First` and from the nodes. -/
theorem freeList_of_mpFirst {mp mp' : MemPool} {node : ℕ → MemNode}
    (h : mp'.mpFirst = mp.mpFirst) (hl : FreeList { mp := mp, node := node } l) :
    FreeList { mp := mp', node := node } l := by
  refine hl.congr fun q _ => ?_
  cases q with
  | none =>
    unfold read State.deref
    dsimp only
    rw [h]
  | some r => rfl

/-- Only nodes with allocated bytes have changed. -/
def Writes (A : Arch) (s : Sys) (node' : ℕ → MemNode) : Prop :=
  ∀ p, Disjoint (Set.Ico p (p + A.unit)) s.allocated → node' p = s.st.node p

namespace Good

theorem used_le (h : Good A s l) : s.st.mp.mpUsed ≤ s.st.mp.mpSize := by
  have := h.used; omega

/-- The loops come to the end of the list. -/
theorem length_lt (h : Good A s l) : l.length < s.st.mp.mpEnd + 1 := by
  have := h.areas.length_le; omega

/-- The memory that is added is allocated. -/
theorem extend (h : Good A s l) (he : Extends A s.st.mp base bytes) :
    Good A { st := { s.st with mp := zextendPool A s.st.mp base bytes }
             allocated := s.allocated ∪ Set.Ico base (base + bytes) } l := by
  obtain ⟨⟨mp, node⟩, al⟩ := s
  have hinside := h.inside
  have hsize := h.size
  have hfits := h.fits
  have hused := h.used
  have hareas := h.areas
  dsimp only at *
  by_cases h0 : mp.mpSize = 0
  · -- the pool was empty
    obtain rfl : l = [] := by
      have := hareas.length_le
      exact List.eq_nil_of_length_eq_zero (by omega)
    have hempty : al = ∅ := by
      refine Set.eq_empty_of_subset_empty (hinside.trans ?_)
      rw [Set.Ico_eq_empty (by omega)]
    unfold zextendPool
    rw [if_pos h0, hempty]
    exact
      { list := freeList_of_mpFirst rfl h.list
        areas := .nil
        base := fun _ => he.1
        size := rfl
        fits := he.2.1
        used := rfl
        inside := by rw [Set.empty_union]
        apart := by simp }
  · obtain ⟨used, heq, hu⟩ := zextendPool_spec hsize hfits (by omega) h0 he
    obtain ⟨hb0, hroom, hwhere⟩ := he
    rw [heq]
    exact
      { list := freeList_of_mpFirst rfl h.list
        areas := hareas.mono (min_le_left _ _) (le_max_left _ _)
        base := fun _ => by
          have := h.base h0
          dsimp only at *; omega
        size := by dsimp only; omega
        fits := by dsimp only; omega
        used := by dsimp only; omega
        inside := by
          refine Set.union_subset (fun x hx => ?_) fun x hx => ?_
          · obtain ⟨h1, h2⟩ := hinside hx
            exact ⟨(min_le_left _ _).trans h1, lt_of_lt_of_le h2 (le_max_left _ _)⟩
          · obtain ⟨h1, h2⟩ := hx
            exact ⟨(min_le_right _ _).trans h1, lt_of_lt_of_le h2 (le_max_right _ _)⟩
        apart := by
          refine Set.disjoint_union_left.2 ⟨h.apart, ?_⟩
          rw [Set.disjoint_left]
          rintro x ⟨hx1, hx2⟩ ⟨a, ha, h1, h2⟩
          obtain ⟨-, -, -, h3, h4⟩ := hareas.area a ha
          omega }

/-- A call that changes the list and the count only. -/
theorem next (h : Good A s l) (used : ℕ) {st' : State} {al : Set ℕ} {l' : List (ℕ × ℕ)}
    (hmp : ∃ f, st'.mp = { s.st.mp with mpFirst := f, mpUsed := used }) (hl : FreeList st' l')
    (hc : Coalesced A.unit s.st.mp.mpBase s.st.mp.mpEnd l')
      (hused : used + total l' = s.st.mp.mpSize)
    (hinside : al ⊆ Set.Ico s.st.mp.mpBase s.st.mp.mpEnd) (hap : Disjoint al (covered l')) :
    Good A { st := st', allocated := al } l' := by
  obtain ⟨f, hmp⟩ := hmp
  exact
    { list := hl
      areas := by rw [hmp]; exact hc
      base := by rw [hmp]; exact h.base
      size := by rw [hmp]; exact h.size
      fits := by rw [hmp]; exact h.fits
      used := by rw [hmp]; exact hused
      inside := by rw [hmp]; exact hinside
      apart := hap }

/-! ## Allocation -/

/-- What `znalloc` returns was free, and is allocated afterwards. -/
theorem alloc (h : Good A s l) (hb : bytes < A.iaddrs) (hrounds : l.length < rounds) :
    ∃ st' p, znalloc A rounds s.st bytes = .ok (st', p) ∧ (p = 0 → st' = s.st) ∧
      (p ≠ 0 → Set.Ico p (p + A.round bytes) ⊆ covered l ∧
        ∃ l', Good A
          { st := st', allocated := s.allocated ∪ Set.Ico p (p + A.round bytes) } l') := by
  obtain ⟨hdvd, -, -⟩ := A.round_spec hb
  have hsize := h.size
  have hfits := h.fits
  have hused := h.used
  have hupos := A.unit_pos
  unfold znalloc
  dsimp only
  by_cases h0 : A.round bytes = 0
  · rw [if_pos h0]
    refine ⟨s.st, A.iaddrs - 1, rfl, fun _ => rfl, fun _ => ?_⟩
    rw [h0, add_zero, Set.Ico_self, Set.union_empty]; exact ⟨Set.empty_subset _, l, h⟩
  · rw [if_neg h0]
    by_cases hle : A.round bytes ≤ A.sub s.st.mp.mpSize s.st.mp.mpUsed
    · rw [if_pos hle]
      rcases znallocLoop_spec (A := A) (b := A.round bytes) h.list rounds hrounds with
        ⟨hcall, -⟩ | ⟨pre, a, suf, rfl, ha, hcall⟩
      · exact ⟨_, 0, hcall, fun _ => rfl, fun hne => absurd rfl hne⟩
      · have hareas := h.areas
        obtain ⟨ha1, ha2, ha3, ha4, ha5⟩ := hareas.area a (by simp)
        have hsub : Set.Ico a.1 (a.1 + A.round bytes) ⊆ covered (pre ++ ([a] ++ suf)) := by
          rintro x ⟨hx1, hx2⟩; exact ⟨a, by simp, hx1, by omega⟩
        refine ⟨_, a.1, hcall, fun hz => ?_, fun _ => ⟨hsub, ?_⟩⟩
        · have := h.base (by omega); omega
        · have hmp := cut_mp A (A.round bytes) s.st (linkAfter link none pre) a.1
          have hadd : A.add s.st.mp.mpUsed (A.round bytes) = s.st.mp.mpUsed + A.round bytes := by
            rw [A.sub_of_le h.used_le (by omega)] at hle
            exact add_of_lt (by omega)
          rw [hadd] at hmp
          obtain ⟨hco, hcov, htot⟩ := hareas.cut hdvd (by omega) ha
          refine ⟨_, h.next _ hmp (cut_freeList h.list hareas (by omega) ha) hco ?_ ?_ ?_⟩
          · omega
          · refine Set.union_subset h.inside (hsub.trans fun x hx => ?_)
            obtain ⟨c, hc, h1, h2⟩ := hx
            obtain ⟨-, -, -, h3, h4⟩ := hareas.area c hc
            exact ⟨by omega, by omega⟩
          · rw [hcov]
            refine Set.disjoint_union_left.2 ⟨h.apart.mono_right Set.sdiff_subset, ?_⟩
            exact Set.disjoint_sdiff_right
    · rw [if_neg hle]; exact ⟨_, 0, rfl, fun _ => rfl, fun hne => absurd rfl hne⟩

/-! ## Freeing -/

/-- `zfree` of allocated memory panics if the pointer is not aligned or the rounded size reaches
    past the pool, and adds the area to the list otherwise. -/
theorem free (h : Good A s l) (hb : bytes < A.iaddrs) (hrounds : l.length < rounds)
    (hown : A.round bytes = 0 ∨ Set.Ico ptr (ptr + bytes) ⊆ s.allocated) :
    zfree A rounds s.st ptr bytes = .error .wildPointer ∨
      ∃ st', zfree A rounds s.st ptr bytes = .ok st' ∧ ∃ l', Good A
        { st := st', allocated := s.allocated \ Set.Ico ptr (ptr + A.round bytes) } l' := by
  obtain ⟨hdvd, hlt, hge⟩ := A.round_spec hb
  have hsize := h.size
  have hfits := h.fits
  have hused := h.used
  have hareas := h.areas
  have hupos := A.unit_pos
  unfold zfree
  dsimp only
  by_cases h0 : A.round bytes = 0
  · rw [if_pos h0]
    refine .inr ⟨_, rfl, l, ?_⟩
    rw [h0, add_zero, Set.Ico_self, Set.sdiff_empty]; exact h
  · rw [if_neg h0]
    split_ifs with hwild
    · exact .inl rfl
    · rw [not_or, not_or, not_not] at hwild
      obtain ⟨hlo, hhi, hmod⟩ := hwild
      refine .inr ?_
      have hown := hown.resolve_left h0
      have hptr : A.unit ∣ ptr := Nat.dvd_of_mod_eq_zero hmod
      have hd := hareas.disjoint_round hptr hdvd hlt (h.apart.mono_left hown)
      have hout : ∀ a ∈ l, a.1 + a.2 ≤ ptr ∨ ptr + A.round bytes ≤ a.1 := by
        intro a ha
        have hpos := (hareas.area a ha).2.2.1
        by_contra hnot
        have hm : max ptr a.1 ∈ Set.Ico ptr (ptr + A.round bytes) := ⟨by omega, by omega⟩
        exact Set.disjoint_left.1 hd hm ⟨a, ha, by omega, by omega⟩
      have hp0 : ptr ≠ 0 := by
        have := h.base (by omega); omega
      have hread : FreeList (s.st.setUsed (A.sub s.st.mp.mpUsed (A.round bytes))) l := by
        unfold FreeList
        rw [read_setUsed]; exact h.list
      obtain ⟨pre, suf, rfl, hpre, hsuf, hcall⟩ := zfreeLoop_spec (A := A) hread hareas (by omega)
        hout rounds hrounds
      rw [hcall]
      refine ⟨_, rfl, ?_⟩
      obtain ⟨l', hl', hco, hcov, htot⟩ := insertAt_freeList (A := A) hareas hptr hdvd
        (by omega) hp0
        (by omega) (by omega) (by omega) hpre hsuf hread
      have hmp := insertAt_mp A (s.st.setUsed (A.sub s.st.mp.mpUsed (A.round bytes)))
        (linkAfter link none pre) suf.head? ptr (A.round bytes)
      have hle := hco.total_le
      have hsub := A.sub_of_le (a := s.st.mp.mpUsed) (b := A.round bytes) (by omega) (by omega)
      have hsum : A.sub s.st.mp.mpUsed (A.round bytes) + total l' = s.st.mp.mpSize := by omega
      refine ⟨l', h.next _ hmp hl' hco hsum (Set.sdiff_subset.trans h.inside) ?_⟩
      rw [hcov]
      exact Set.disjoint_union_right.2
        ⟨h.apart.mono_left Set.sdiff_subset, Set.disjoint_sdiff_left⟩

/-! ## Writing -/

/-- The owners of allocated memory write into it. -/
theorem write (h : Good A s l) {node' : ℕ → MemNode} (hw : Writes A s node') :
    Good A { s with st := { s.st with node := node' } } l := by
  have hsame : ∀ a ∈ l, node' a.1 = s.st.node a.1 := by
    intro a ha
    obtain ⟨-, h2, h3, -, -⟩ := h.areas.area a ha
    refine hw a.1 (Set.disjoint_left.2 fun x hx hxa => ?_)
    have := Nat.le_of_dvd h3 h2
    exact Set.disjoint_left.1 h.apart hxa ⟨a, ha, hx.1, by have := hx.2; omega⟩
  refine h.next s.st.mp.mpUsed ⟨s.st.mp.mpFirst, rfl⟩ ?_ h.areas h.used h.inside h.apart
  refine h.list.congr fun q hq => ?_
  have hd : State.deref { s.st with node := node' } q = s.st.deref q := by
    rcases List.mem_cons.1 hq with rfl | hq
    · rfl
    · obtain ⟨a, ha, rfl⟩ := List.mem_map.1 hq
      exact congrArg MemNode.mrNext (hsame a ha)
  unfold read
  rw [hd]
  cases ha : read s.st q with
  | none => rw [if_pos (read_eq_none.1 ha), if_pos (read_eq_none.1 ha)]
  | some a =>
    have hmem := h.list.mem_of_read hq ha
    rw [(read_eq_some ha).1]
    dsimp only
    rw [hsame a hmem]

end Good

/-! ## Runs -/

inductive Op
  | extend (base bytes : ℕ)
  | alloc (bytes : ℕ)
  | free (ptr bytes : ℕ)
  | write (node' : ℕ → MemNode)

/-- A call that returns, and what `znalloc` returns; the loops get a round for each address of the
    pool and one more. -/
def step (A : Arch) (s : Sys) : Op → Option (Sys × ℕ)
  | .extend base bytes =>
    some ({ st := { s.st with mp := zextendPool A s.st.mp base bytes }
            allocated := s.allocated ∪ Set.Ico base (base + bytes) }, 0)
  | .alloc bytes =>
    match znalloc A (s.st.mp.mpEnd + 1) s.st bytes with
    | .ok (st', p) =>
      let block := if p = 0 then ∅ else Set.Ico p (p + A.round bytes)
      some ({ st := st', allocated := s.allocated ∪ block }, p)
    | .error _ => none
  | .free ptr bytes =>
    match zfree A (s.st.mp.mpEnd + 1) s.st ptr bytes with
    | .ok st' =>
      some ({ st := st', allocated := s.allocated \ Set.Ico ptr (ptr + A.round bytes) }, 0)
    | .error _ => none
  | .write node' => some ({ s with st := { s.st with node := node' } }, 0)

/-- Only areas that are currently allocated are freed. -/
def Owned (A : Arch) (s : Sys) (ptr bytes : ℕ) : Prop :=
  bytes < A.iaddrs ∧ (A.round bytes = 0 ∨ Set.Ico ptr (ptr + bytes) ⊆ s.allocated)

/-- What the callers promise. -/
def Valid (A : Arch) (s : Sys) : Op → Prop
  | .extend base bytes => Extends A s.st.mp base bytes
  | .alloc bytes => bytes < A.iaddrs
  | .free ptr bytes => Owned A s ptr bytes
  | .write node' => Writes A s node'

/-- An empty pool. -/
def emptyPool (node : ℕ → MemNode) : Sys where
  st := { mp := { mpBase := 0, mpEnd := 0, mpFirst := 0, mpSize := 0, mpUsed := 0 }, node := node }
  allocated := ∅

theorem good_emptyPool (node : ℕ → MemNode) : Good A (emptyPool node) [] where
  list := rfl
  areas := .nil
  base h := absurd rfl h
  size := rfl
  fits := by
    show 0 + A.unit ≤ A.iaddrs
    cases A <;> decide
  used := rfl
  inside := Set.empty_subset _
  apart := Set.empty_disjoint _

theorem Good.step {t : Sys} {op : Op} {r : ℕ} (h : Good A s l) (hv : Valid A s op)
    (hs : step A s op = some (t, r)) : ∃ l', Good A t l' := by
  cases op with
  | extend base bytes =>
    cases hs
    exact ⟨l, h.extend hv⟩
  | alloc bytes =>
    obtain ⟨st', p, hcall, hnull, hblock⟩ := h.alloc hv h.length_lt
    simp only [Zalloc.step, hcall] at hs
    cases hs
    by_cases hp : r = 0
    · rw [hnull hp, if_pos hp, Set.union_empty]; exact ⟨l, h⟩
    · rw [if_neg hp]; exact (hblock hp).2
  | free ptr bytes =>
    rcases h.free hv.1 h.length_lt hv.2 with hcall | ⟨st', hcall, l', h'⟩
    · simp only [Zalloc.step, hcall] at hs
      cases hs
    · simp only [Zalloc.step, hcall] at hs
      cases hs
      exact ⟨l', h'⟩
  | write node' =>
    cases hs
    exact ⟨l, h.write hv⟩

/-- In every run from an empty pool the free list is sorted, its areas are aligned, inside the pool
    and do not touch; `mp_Used` and their sizes add up to `mp_Size`; no allocated address is free; a
    block that `znalloc` returns has no address that is allocated, and `zfree` finds the list in
    order. -/
theorem pool_of_run {node : ℕ → MemNode} (hrun : Runs (step A) (Valid A) (emptyPool node) s) :
    ∃ l, FreeList s.st l ∧ Coalesced A.unit s.st.mp.mpBase s.st.mp.mpEnd l ∧
      s.st.mp.mpUsed + total l = s.st.mp.mpSize ∧ Disjoint s.allocated (covered l) ∧
      (∀ bytes, bytes < A.iaddrs → ∃ st' p,
        znalloc A (s.st.mp.mpEnd + 1) s.st bytes = .ok (st', p) ∧
          (p ≠ 0 → Disjoint (Set.Ico p (p + A.round bytes)) s.allocated)) ∧
      ∀ ptr bytes, Owned A s ptr bytes →
        zfree A (s.st.mp.mpEnd + 1) s.st ptr bytes = .error .wildPointer ∨
          ∃ st', zfree A (s.st.mp.mpEnd + 1) s.st ptr bytes = .ok st' := by
  obtain ⟨l, h⟩ := hrun.invariant (I := fun s => ∃ l, Good A s l) ⟨[], good_emptyPool node⟩
    fun s op t r hI hv hs => by
      obtain ⟨l, h⟩ := hI
      exact h.step hv hs
  refine ⟨l, h.list, h.areas, h.used, h.apart, fun bytes hb => ?_, fun ptr bytes hown => ?_⟩
  · obtain ⟨st', p, hcall, -, hblock⟩ := h.alloc hb h.length_lt
    exact ⟨st', p, hcall, fun hp => (h.apart.symm.mono_left (hblock hp).1)⟩
  · rcases h.free hown.1 h.length_lt hown.2 with hcall | ⟨st', hcall, -⟩
    · exact .inl hcall
    · exact .inr ⟨st', hcall⟩

/-- A pool of a page, all of it allocated and then all of it freed. -/
def addedPage : Sys where
  st :=
    { mp := { mpBase := 4096, mpEnd := 8192, mpFirst := 0, mpSize := 4096, mpUsed := 4096 }
      node := fun _ => { mrNext := 0, mrBytes := 0 } }
  allocated := ∅ ∪ Set.Ico 4096 (4096 + 4096)

def freedPage : Sys where
  st :=
    { mp := { mpBase := 4096, mpEnd := 8192, mpFirst := 4096, mpSize := 4096, mpUsed := 0 }
      node := Function.update addedPage.st.node 4096 { mrNext := 0, mrBytes := 4096 } }
  allocated := addedPage.allocated \ Set.Ico 4096 (4096 + 4096)

theorem runs_freedPage : Runs (step .lp64) (Valid .lp64)
    (emptyPool fun _ => { mrNext := 0, mrBytes := 0 }) freedPage := by
  have hadd : step .lp64 (emptyPool fun _ => { mrNext := 0, mrBytes := 0 }) (.extend 4096 4096) =
      some (addedPage, 0) := rfl
  have hfree : step .lp64 addedPage (.free 4096 4096) = some (freedPage, 0) := rfl
  have hextends : Extends .lp64 (emptyPool fun _ => { mrNext := 0, mrBytes := 0 }).st.mp 4096
      4096 := ⟨by decide, by decide, .inl rfl⟩
  have howned : Owned .lp64 addedPage 4096 4096 := ⟨by decide, .inr Set.subset_union_right⟩
  have hrun : Runs (step .lp64) (Valid .lp64) (emptyPool fun _ => { mrNext := 0, mrBytes := 0 })
      addedPage := Runs.refl.tail (o := .extend 4096 4096) hextends hadd
  exact hrun.tail (o := .free 4096 4096) howned hfree

theorem pool_freedPage : ∃ l, FreeList freedPage.st l ∧ Coalesced 16 4096 8192 l ∧
    0 + total l = 4096 := by
  obtain ⟨l, h1, h2, h3, -⟩ := pool_of_run runs_freedPage
  exact ⟨l, h1, h2, h3⟩

/-- In every run, a pool of which nothing is used is one free area. -/
theorem whole_of_run {node : ℕ → MemNode} (hrun : Runs (step A) (Valid A) (emptyPool node) s)
    (hused : s.st.mp.mpUsed = 0) (hsize : s.st.mp.mpSize ≠ 0) :
    FreeList s.st [(s.st.mp.mpBase, s.st.mp.mpSize)] := by
  obtain ⟨l, h⟩ := hrun.invariant (I := fun s => ∃ l, Good A s l) ⟨[], good_emptyPool node⟩
    fun s op t r hI hv hs => hI.elim fun l h => h.step hv hs
  have htotal := h.used
  have hend := h.size
  have hall := h.areas.eq_singleton (by omega) (by omega)
  rw [show s.st.mp.mpEnd - s.st.mp.mpBase = s.st.mp.mpSize by omega] at hall
  exact hall ▸ h.list

theorem whole_freedPage : FreeList freedPage.st [(4096, 4096)] :=
  whole_of_run runs_freedPage rfl (by decide)

end FreeBSD.Zalloc
