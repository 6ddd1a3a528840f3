import FreeBSD.Kern.RmanInv

/-!
# Reservation

`rman_reserve_resource_bound` keeps the invariant, and the addresses that the
entries cover, unless it carves a piece out of an entry from a start that
wrapped around, or a piece of length 0 (`CarveInside`).

Results:
* `takeUnshared_carve`, `Carve.inv`: taking a piece out of an unallocated entry.
-/

namespace FreeBSD.SubrRman

open FreeBSD.Lib.Segments List Option

/-! ## Reservation -/

/-- What the search for an unshared region ensures of its result. -/
structure Hit (rm : Rman) (q : Request) (e : ℕ) (rstart : BitVec 64) : Prop where
  mem : e ∈ rm.rmList
  free : ¬ (rm.res e).has rfAllocated
  fits : q.count ≠ 0 → rstart.toNat + q.count.toNat ≤ (rm.res e).rEnd.toNat + 1

variable {rm rm' : Rman} {q : Request} {rstart : BitVec 64} {l : List ℕ} {e rv : ℕ} {s : Sys}
  {malloc1 malloc2 : Bool}

theorem findUnshared_hit {fuel e : ℕ}
    (h : findUnshared rm q fuel l = some (some (e, rstart))) (hl : ∀ a ∈ l, a ∈ rm.rmList) :
    Hit rm q e rstart := by
  induction l with
  | nil => simp [findUnshared] at h
  | cons a l ih =>
    have ih' := fun h' => ih h' fun b hb => hl b (mem_cons_of_mem a hb)
    rw [findUnshared] at h
    split_ifs at h with h1 h2
    · simp at h
    · exact ih' h
    · cases had : adjust q (rm.res a).rEnd fuel (ulmax (rm.res a).rStart q.start) with
      | none => simp [had] at h
      | some x =>
        simp only [had] at h
        split_ifs at h with h3 h4
        · exact ih' h
        · simp only [Option.some.injEq, Prod.mk.injEq] at h
          obtain ⟨rfl, rfl⟩ := h
          refine ⟨hl a (by simp), h2, fun hc => ?_⟩
          have hle : ulmin (rm.res a).rEnd (ulmax (x + q.count) q.end') ≤ (rm.res a).rEnd := by
            unfold ulmin
            split_ifs with hlt <;> bv_omega
          bv_omega
        · exact ih' h

/-- An entry without a sharing list only has to be a cell that `malloc` has handed out. -/
theorem EntryOk.of_unshared (hlt : e < rm.brk) (hh : (rm.res e).rSharehead = none) : EntryOk rm e :=
  ⟨hlt, fun h h' => by rw [hh] at h'; cases h'⟩

/-- `rm'` comes from `rm` by carving the unallocated entry `e` into the entries `M`, one of which,
    `rv`, is allocated. -/
structure Carve (rm rm' : Rman) (l₁ : List ℕ) (e : ℕ) (M l₂ : List ℕ) (rv : ℕ) : Prop where
  before : rm.rmList = l₁ ++ e :: l₂
  after : rm'.rmList = l₁ ++ M ++ l₂
  brk : rm.brk ≤ rm'.brk
  res : ∀ x < rm.brk, x ≠ e → rm'.res x = rm.res x
  list : rm'.sharelist = rm.sharelist
  nodup : M.Nodup
  new : ∀ x ∈ M, (x = e ∨ rm.brk ≤ x) ∧ x < rm'.brk ∧ (rm'.res x).rSharehead = none
  ordered : Ordered (M.map fun a => (rm'.res a).seg)
  cov : covered (M.map fun a => (rm'.res a).seg) = Set.Icc (rm.res e).seg.1 (rm.res e).seg.2
  rv_mem : rv ∈ M
  allocated : (rm'.res rv).has rfAllocated

namespace Carve

variable {s : Sys} {rm' : Rman} {l₁ M l₂ : List ℕ} {e rv : ℕ}

theorem mem (hc : Carve s.rm rm' l₁ e M l₂ rv) : e ∈ s.rm.rmList := by
  rw [hc.before]; simp

theorem splice (hc : Carve s.rm rm' l₁ e M l₂ rv) (hsharers : s.rm.sharers e = [e]) :
    Splice s.rm rm' l₁ [e] M l₂ where
  before := by rw [hc.before]; simp
  after := hc.after
  brk := hc.brk
  res := fun x hx hne => hc.res x hx fun h => hne e (by simp) (by simp [hsharers, h])
  list := fun _ _ _ => by rw [hc.list]
  new := by
    intro x hx
    rcases (hc.new x hx).1 with rfl | h
    · exact .inl ⟨x, by simp, by simp [hsharers]⟩
    · exact .inr h
  nodup := hc.nodup
  entry := fun x hx => EntryOk.of_unshared (hc.new x hx).2.1 (hc.new x hx).2.2

theorem not_held (hc : Carve s.rm rm' l₁ e M l₂ rv) (hI : Inv s)
    (hfree : ¬ (s.rm.res e).has rfAllocated) : rv ∉ s.held.map Prod.fst := by
  rcases (hc.new rv hc.rv_mem).1 with h | h
  · rw [h]; exact hI.not_held_of_free hc.mem hfree
  · intro hr
    have := hI.held_lt hr; omega

/-- The ends of the new entries are points of `e`. -/
theorem ends (hc : Carve s.rm rm' l₁ e M l₂ rv) {b : ℕ} (hb : b ∈ M) :
    (s.rm.res e).seg.1 ≤ (rm'.res b).seg.1 ∧ (rm'.res b).seg.2 ≤ (s.rm.res e).seg.2 := by
  have hmem : (rm'.res b).seg ∈ M.map fun a => (rm'.res a).seg :=
    mem_map.2 ⟨b, hb, rfl⟩
  have hne := hc.ordered.nonempty _ hmem
  have h1 : (rm'.res b).seg.1 ∈ covered (M.map fun a => (rm'.res a).seg) :=
    ⟨_, hmem, le_rfl, hne⟩
  have h2 : (rm'.res b).seg.2 ∈ covered (M.map fun a => (rm'.res a).seg) :=
    ⟨_, hmem, hne, le_rfl⟩
  rw [hc.cov] at h1 h2; exact ⟨h1.1, h2.2⟩

/-- The entry that is carved up goes to a client. -/
theorem inv (hc : Carve s.rm rm' l₁ e M l₂ rv) (hI : Inv s)
    (hfree : ¬ (s.rm.res e).has rfAllocated) (f : BitVec 32) :
    Inv { rm := rm', held := (rv, f) :: s.held } ∧ covered rm'.segs = covered s.rm.segs := by
  have hsharers : s.rm.sharers e = [e] := sharers_none (hI.head_of_free hc.mem hfree)
  have hs := hc.splice hsharers
  refine ⟨hs.inv hI hc.ordered ?_ ?_ ?_ ?_, ?_⟩
  · exact fun b hb => ⟨e, by simp, (hc.ends hb).1⟩
  · exact fun b hb => ⟨e, by simp, (hc.ends hb).2⟩
  · rw [map_cons, nodup_cons]; exact ⟨hc.not_held hI hfree, hI.held_nodup⟩
  · intro r hr
    rw [map_cons, mem_cons] at hr
    rcases hr with hr | hr
    · refine .inr ⟨rv, hc.rv_mem, hc.allocated, ?_⟩
      rw [sharers_none (hc.new rv hc.rv_mem).2.2, hr]; simp
    · refine .inl ⟨hr, fun e' he' hre => ?_⟩
      rw [mem_singleton] at he'
      rw [he', hsharers, mem_singleton] at hre
      exact hI.not_held_of_free hc.mem hfree (hre ▸ hr)
  · rw [hs.segs hI, Rman.segs, hc.before]
    simp only [covered_append, map_append, map_cons, covered_cons, hc.cov]
    rw [Set.union_assoc]

end Carve

/-- The size of the entry is the count, or the piece of it that is carved out lies inside it. -/
def CarveInside (rm : Rman) (q : Request) (e : ℕ) (rstart : BitVec 64) : Prop :=
  (rm.res e).rEnd - (rm.res e).rStart + 1 = q.count ∨
    q.count ≠ 0 ∧ (rm.res e).rStart ≤ rstart

theorem takeUnshared_carve (hI : Inv s) (hhit : Hit s.rm q e rstart)
    (hin : CarveInside s.rm q e rstart)
    (h : takeUnshared s.rm q e rstart malloc1 malloc2 = (rm', some rv)) :
    ∃ l₁ M l₂, Carve s.rm rm' l₁ e M l₂ rv := by
  obtain ⟨l₁, l₂, hl, hn₁, hn₂⟩ := hI.exists_split hhit.mem
  have helt := (hI.entry e hhit.mem).lt_brk
  have hhead := hI.head_of_free hhit.mem hhit.free
  have hle : (s.rm.res e).rStart.toNat ≤ (s.rm.res e).rEnd.toNat :=
    hI.ordered.nonempty _ (mem_map.2 ⟨e, hhit.mem, rfl⟩)
  unfold SubrRman.takeUnshared at h
  by_cases hsize : (s.rm.res e).rEnd - (s.rm.res e).rStart + 1 = q.count
  · -- the entry is handed out as it is
    rw [if_pos hsize] at h
    simp only [Prod.mk.injEq, Option.some.injEq] at h
    obtain ⟨rfl, rfl⟩ := h
    have hal : ({ s.rm.res e with
        rFlags := (s.rm.res e).rFlags ||| (rfAllocated ||| q.baseFlags),
        rDev := q.dev } : Resource).has rfAllocated := by
      refine (and_or_ne_zero _ _ _).2 (.inr ?_)
      exact (and_or_ne_zero _ _ _).2 (.inl (by decide))
    refine ⟨l₁, [e], l₂, hl, (by simp [Rman.update, hl]), le_rfl,
      (fun x _ hx => by simp [Rman.update, hx]), rfl, (by simp), ?_, ?_, ?_, (by simp), ?_⟩
    · simp [Rman.update, helt, hhead]
    · simpa [Rman.update, ordered_singleton, Resource.seg] using hle
    · simp [Rman.update, Resource.seg]
    · simpa [Rman.update] using hal
  rw [if_neg hsize] at h
  by_cases hm : ¬ malloc1 = true
  · rw [if_pos hm] at h
    cases h
  rw [if_neg hm] at h
  dsimp only [Rman.alloc] at h
  obtain ⟨hc, hge⟩ := hin.resolve_left hsize
  have hfits := hhit.fits hc
  have hal : ∀ x : Resource, x.rFlags = q.baseFlags ||| rfAllocated → x.has rfAllocated := by
    intro x hx
    unfold Resource.has
    rw [hx]; exact (and_or_ne_zero _ _ _).2 (.inr (by decide))
  -- the last address of the piece that is carved out
  have hend : (rstart + q.count - 1).toNat + 1 = rstart.toNat + q.count.toNat := by bv_omega
  have hbrk : s.rm.brk ≠ e := by omega
  have hbrk' : s.rm.brk + 1 ≠ e := by omega
  have hother : ∀ x < s.rm.brk, x ≠ s.rm.brk ∧ x ≠ s.rm.brk + 1 := fun x hx => by omega
  by_cases hmid : (s.rm.res e).rStart < rstart ∧ (s.rm.res e).rEnd > rstart + q.count - 1
  · -- three pieces
    rw [if_pos hmid] at h
    by_cases hm2 : ¬ malloc2 = true
    · rw [if_pos hm2] at h
      cases h
    rw [if_neg hm2] at h
    simp only [Prod.mk.injEq, Option.some.injEq] at h
    obtain ⟨rfl, rfl⟩ := h
    have hlist : insertAfter s.rm.brk (s.rm.brk + 1) (insertAfter e s.rm.brk s.rm.rmList) =
        l₁ ++ [e, s.rm.brk, s.rm.brk + 1] ++ l₂ := by
      have hn : s.rm.brk ∉ l₁ ++ [e] := by
        intro hx
        have := (hI.entry s.rm.brk (by rw [hl]; simp at hx ⊢; tauto)).lt_brk; omega
      rw [hl, insertAfter_append hn₁,
        show l₁ ++ e :: s.rm.brk :: l₂ = (l₁ ++ [e]) ++ s.rm.brk :: l₂ by simp,
        insertAfter_append hn]
      simp
    refine ⟨l₁, [e, s.rm.brk, s.rm.brk + 1], l₂, hl, hlist, ?_, ?_, rfl, ?_, ?_, ?_, ?_,
      (by simp), ?_⟩
    · simp [Rman.update]; omega
    · intro x hx hne; simp [Rman.update, hne, (hother x hx).1, (hother x hx).2]
    · simp [hbrk.symm, hbrk'.symm]
    · simp [Rman.update, hbrk, hbrk', hbrk'.symm, hhead, hbrk.symm]; omega
    · simp [Rman.update, hbrk, hbrk', hbrk'.symm, hbrk.symm, ordered_cons, ordered_nil,
        Resource.seg]
      bv_omega
    · simp [Rman.update, hbrk, hbrk', hbrk'.symm, hbrk.symm, Resource.seg]
      ext x
      simp
      bv_omega
    · refine hal _ ?_
      simp [Rman.update, hbrk]
  rw [if_neg hmid] at h
  by_cases hbeg : (s.rm.res e).rStart = rstart
  · -- the piece is at the beginning
    rw [if_pos hbeg] at h
    simp only [Prod.mk.injEq, Option.some.injEq] at h
    obtain ⟨rfl, rfl⟩ := h
    refine ⟨l₁, [s.rm.brk, e], l₂, hl, ?_, ?_, ?_, rfl, ?_, ?_, ?_, ?_, (by simp), ?_⟩
    · simp [Rman.update, hl, insertBefore_append hn₁]
    · simp [Rman.update]
    · intro x hx hne; simp [Rman.update, hne, (hother x hx).1]
    · simp [hbrk]
    · simp [Rman.update, hbrk, hhead, hbrk.symm]; omega
    · simp [Rman.update, hbrk, hbrk.symm, ordered_cons, ordered_nil, Resource.seg]
      bv_omega
    · simp [Rman.update, hbrk, hbrk.symm, Resource.seg]
      ext x
      simp
      bv_omega
    · refine hal _ ?_
      simp [Rman.update, hbrk]
  · -- the piece is at the end
    rw [if_neg hbeg] at h
    simp only [Prod.mk.injEq, Option.some.injEq] at h
    obtain ⟨rfl, rfl⟩ := h
    refine ⟨l₁, [e, s.rm.brk], l₂, hl, ?_, ?_, ?_, rfl, ?_, ?_, ?_, ?_, (by simp), ?_⟩
    · simp [Rman.update, hl, insertAfter_append hn₁]
    · simp [Rman.update]
    · intro x hx hne; simp [Rman.update, hne, (hother x hx).1]
    · simp [hbrk.symm]
    · simp [Rman.update, hbrk, hhead, hbrk.symm]; omega
    · simp [Rman.update, hbrk, hbrk.symm, ordered_cons, ordered_nil, Resource.seg]
      bv_omega
    · simp [Rman.update, hbrk, hbrk.symm, Resource.seg]
      ext x
      simp
      bv_omega
    · refine hal _ ?_
      simp [Rman.update, hbrk]

theorem takeUnshared_none (h : takeUnshared rm q e rstart malloc1 malloc2 = (rm', none)) :
    rm' = rm := by
  unfold takeUnshared at h
  dsimp only [Rman.alloc] at h
  split_ifs at h <;> simp_all

/-! ## Sharing -/

/-- What the search for a shared region ensures of its result. -/
structure Sharable (rm : Rman) (q : Request) (e : ℕ) : Prop where
  mem : e ∈ rm.rmList
  flags : (rm.res e).rFlags &&& q.baseFlags = q.baseFlags
  sharable : sharable q (rm.res e) = true

theorem findShared_sharable (h : findShared rm q l = some e) (hl : ∀ a ∈ l, a ∈ rm.rmList) :
    Sharable rm q e := by
  induction l with
  | nil => simp [findShared] at h
  | cons a l ih =>
    have ih' := fun h' => ih h' fun b hb => hl b (mem_cons_of_mem a hb)
    rw [findShared] at h
    split_ifs at h with h1 h2 h3
    · exact ih' h
    · obtain rfl := some.inj h
      exact ⟨hl a (by simp), not_not.1 h2, h3⟩
    · exact ih' h

/-- An aligned start that crosses no boundary is left alone. -/
theorem adjustRound_of_sharable {x : Resource} (h : sharable q x = true) :
    adjustRound q x.rStart = x.rStart := by
  simp only [sharable, Bool.and_eq_true, decide_eq_true_eq] at h
  obtain ⟨⟨⟨⟨-, -⟩, hcount⟩, halign⟩, hbound⟩ := h
  have hround : (x.rStart + q.amask) &&& ~~~q.amask = x.rStart := by
    rw [BitVec.add_eq_or_of_and_eq_zero _ _ halign]
    apply BitVec.eq_of_getLsbD_eq
    intro i hi
    have hi' : (x.rStart &&& q.amask).getLsbD i = false := by
      rw [halign]; exact BitVec.getLsbD_zero
    rw [BitVec.getLsbD_and] at hi'
    simp only [BitVec.getLsbD_and, BitVec.getLsbD_or, BitVec.getLsbD_not, hi, decide_true,
      Bool.true_and]
    cases hx : x.rStart.getLsbD i <;> cases ha : q.amask.getLsbD i <;> simp_all
  have hend : x.rStart + q.count - 1 = x.rEnd := by rw [← hcount]; bv_omega
  rw [adjustRound, hround, hend, hbound, if_neg (by simp)]

/-- The search for an unshared region would have taken an unallocated entry that the search for a
    shared one accepts. -/
theorem findShared_allocated {fuel e : ℕ} (hun : findUnshared rm q fuel l = some none)
    (h : findShared rm q l = some e)
    (hl : ∀ a ∈ l, (rm.res a).rStart ≤ (rm.res a).rEnd) : (rm.res e).has rfAllocated := by
  induction l with
  | nil => simp [findShared] at h
  | cons a l ih =>
    have ih' := fun hun' h' => ih hun' h' fun b hb => hl b (mem_cons_of_mem a hb)
    rw [findUnshared] at hun
    rw [findShared] at h
    by_cases h1 : (rm.res a).rStart > q.end'
    · rw [if_pos h1] at h
      cases h
    rw [if_neg h1] at h hun
    by_cases hal : (rm.res a).has rfAllocated
    · rw [if_pos hal] at hun
      split_ifs at h with h2 h3
      · exact ih' hun h
      · obtain rfl := some.inj h
        exact hal
      · exact ih' hun h
    rw [if_neg hal] at hun
    have hrest : findShared rm q l = some e → (rm.res e).has rfAllocated := by
      intro h'
      cases had : adjust q (rm.res a).rEnd fuel (ulmax (rm.res a).rStart q.start) with
      | none => simp [had] at hun
      | some x =>
        simp only [had] at hun
        split_ifs at hun with h2 h3
        · exact ih' hun h'
        · simp at hun
        · exact ih' hun h'
    split_ifs at h with h2 h3
    · exact hrest h
    · exfalso
      have hround := adjustRound_of_sharable h3
      simp only [sharable, Bool.and_eq_true, decide_eq_true_eq] at h3
      obtain ⟨⟨⟨⟨hstart, hend⟩, hcount⟩, halign⟩, -⟩ := h3
      have hmax : ulmax (rm.res a).rStart q.start = (rm.res a).rStart := by
        unfold ulmax
        split_ifs with hlt
        · rfl
        · bv_omega
      rw [hmax] at hun
      cases fuel with
      | zero => simp [adjust] at hun
      | succ fuel =>
        have had : adjust q (rm.res a).rEnd (fuel + 1) (rm.res a).rStart =
            some (rm.res a).rStart := by
          rw [adjust, hround, halign, if_neg (by simp)]
        have hmin : ulmin (rm.res a).rEnd (ulmax ((rm.res a).rStart + q.count) q.end') =
            (rm.res a).rEnd := by
          unfold ulmin ulmax
          split_ifs <;> bv_omega
        have hle := hl a (by simp)
        simp only [had, hmin, hcount] at hun
        rw [if_neg (by bv_omega), if_pos (by bv_omega)] at hun
        simp at hun
    · exact hrest h

/-- `rm'` comes from `rm` by a change to who shares the allocated entry `e`, which leaves its place
    on `rm_list` to `m`. -/
structure Reshare (rm rm' : Rman) (l₁ : List ℕ) (e m : ℕ) (l₂ : List ℕ) : Prop where
  before : rm.rmList = l₁ ++ e :: l₂
  after : rm'.rmList = l₁ ++ m :: l₂
  brk : rm.brk ≤ rm'.brk
  res : ∀ x < rm.brk, x ∉ rm.sharers e → rm'.res x = rm.res x
  list : ∀ h < rm.brk, (rm.res e).rSharehead ≠ some h → rm'.sharelist h = rm.sharelist h
  mem : m ∈ rm.sharers e
  entry : EntryOk rm' m
  seg : (rm'.res m).seg = (rm.res e).seg
  allocated : (rm'.res m).has rfAllocated
  old : ∀ x ∈ rm.sharers e,
    (rm'.res x).rFlags &&& ~~~rfFirstshare = (rm.res x).rFlags &&& ~~~rfFirstshare
  new : ∀ x ∈ rm'.sharers m, x ∈ rm.sharers e ∨ rm.brk ≤ x ∧
    (rm'.res x).rFlags = (rm.res e).rFlags &&& (rfAllocated ||| rfShareable ||| rfTimeshare)

namespace Reshare

variable {s : Sys} {rm' : Rman} {l₁ l₂ : List ℕ} {e m : ℕ}

theorem splice (hr : Reshare s.rm rm' l₁ e m l₂) : Splice s.rm rm' l₁ [e] [m] l₂ where
  before := by rw [hr.before]; simp
  after := by rw [hr.after]; simp
  brk := hr.brk
  res := fun x hx hne => hr.res x hx (hne e (by simp))
  list := fun h hh hne => hr.list h hh (hne e (by simp))
  new := by
    intro x hx
    rw [mem_singleton] at hx; exact .inl ⟨e, by simp, hx ▸ hr.mem⟩
  nodup := by simp
  entry := by
    intro x hx
    rw [mem_singleton] at hx; exact hx ▸ hr.entry

theorem inv (hr : Reshare s.rm rm' l₁ e m l₂) (hI : Inv s) {held' : List (ℕ × BitVec 32)}
    (hnodup : (held'.map Prod.fst).Nodup)
    (hheld : ∀ r ∈ held'.map Prod.fst,
      (r ∈ s.held.map Prod.fst ∧ r ∉ s.rm.sharers e) ∨ r ∈ rm'.sharers m) :
    Inv { rm := rm', held := held' } ∧ covered rm'.segs = covered s.rm.segs := by
  have hs := hr.splice
  have he : e ∈ s.rm.rmList := by rw [hr.before]; simp
  refine ⟨hs.inv hI ?_ ?_ ?_ hnodup ?_, ?_⟩
  · rw [map_singleton, ordered_singleton, hr.seg]
    exact hI.ordered.nonempty _ (mem_map.2 ⟨e, he, rfl⟩)
  · intro b hb
    rw [mem_singleton] at hb; exact ⟨e, by simp, by rw [hb, hr.seg]⟩
  · intro b hb
    rw [mem_singleton] at hb; exact ⟨e, by simp, by rw [hb, hr.seg]⟩
  · intro r hrm
    rcases hheld r hrm with ⟨h1, h2⟩ | h
    · refine .inl ⟨h1, fun a ha => ?_⟩
      rw [mem_singleton] at ha; rwa [ha]
    · exact .inr ⟨m, by simp, hr.allocated, h⟩
  · rw [hs.segs hI, Rman.segs, hr.before]; simp [hr.seg]

end Reshare

theorem addSharer_none (h : addSharer rm q e malloc1 malloc2 = (rm', none)) : rm' = rm := by
  unfold addSharer at h
  by_cases hm : ¬ malloc1 = true
  · rw [if_pos hm] at h; exact (Prod.mk.inj h).1.symm
  rw [if_neg hm] at h
  cases hs : (rm.res e).rSharehead with
  | none =>
    simp only [hs] at h
    by_cases hm2 : ¬ malloc2 = true
    · rw [if_pos hm2] at h; exact (Prod.mk.inj h).1.symm
    · rw [if_neg hm2] at h; simp at h
  | some h' => simp [hs] at h

theorem and_or_clear (x f : BitVec 32) : (x ||| f) &&& ~~~f = x &&& ~~~f := by
  rw [BitVec.and_or_distrib_right, BitVec.and_not_self]; exact BitVec.or_zero

/-- What `addSharer` does: the new resource `rv` joins the holders of `e` on the sharing list
    `h`. -/
structure Joined (rm rm' : Rman) (e rv h : ℕ) : Prop where
  rv_eq : rv = rm.brk
  rmList : rm'.rmList = rm.rmList
  brk : rm.brk < rm'.brk
  h_lt : h < rm'.brk
  head : (rm.res e).rSharehead = some h ∨ (rm.res e).rSharehead = none ∧ rm.brk ≤ h
  new : (rm'.res rv).rSharehead = some h ∧ (rm'.res rv).seg = (rm.res e).seg ∧
    (rm'.res rv).rFlags = (rm.res e).rFlags &&& (rfAllocated ||| rfShareable ||| rfTimeshare)
  entry : (rm'.res e).rSharehead = some h ∧ (rm'.res e).seg = (rm.res e).seg ∧
    ((rm.res e).rSharehead = none ∧ (rm'.res e).rFlags = (rm.res e).rFlags ||| rfFirstshare ∨
      (rm'.res e).rFlags = (rm.res e).rFlags ∧ (rm.res e).rSharehead = some h)
  res : ∀ x, x ≠ e → x ≠ rv → rm'.res x = rm.res x
  sharelist : rm'.sharelist h = rv :: rm.sharers e
  list : ∀ h', h' ≠ h → rm'.sharelist h' = rm.sharelist h'

theorem addSharer_joined (helt : e < rm.brk)
    (hhead : ∀ h, (rm.res e).rSharehead = some h → h < rm.brk)
    (h : addSharer rm q e malloc1 malloc2 = (rm', some rv)) : ∃ h', Joined rm rm' e rv h' := by
  have hbrk : rm.brk ≠ e := by omega
  unfold addSharer at h
  dsimp only [Rman.alloc] at h
  by_cases hm : ¬ malloc1 = true
  · rw [if_pos hm] at h
    cases h
  rw [if_neg hm] at h
  cases hs : (rm.res e).rSharehead with
  | none =>
    simp only [hs] at h
    by_cases hm2 : ¬ malloc2 = true
    · rw [if_pos hm2] at h
      cases h
    rw [if_neg hm2] at h
    simp only [Prod.mk.injEq, Option.some.injEq] at h
    obtain ⟨rfl, rfl⟩ := h
    refine ⟨rm.brk + 1, rfl, rfl, ?_, ?_, .inr ⟨hs, by omega⟩, ?_, ?_, ?_, ?_, ?_⟩
    · simp [Rman.setSharelist, Rman.update]
    · simp [Rman.setSharelist, Rman.update]
    · simp [Rman.setSharelist, Rman.update, Resource.seg, hbrk]
    · simp [Rman.setSharelist, Rman.update, Resource.seg, hbrk.symm, hs]
    · intro x hx hx'; simp [Rman.setSharelist, Rman.update, hx, hx']
    · simp [Rman.setSharelist, sharers_none hs]
    · intro h' hne; simp [Rman.setSharelist, Rman.update, hne]
  | some h' =>
    have hlt := hhead h' hs
    simp only [hs, Prod.mk.injEq, Option.some.injEq] at h
    obtain ⟨rfl, rfl⟩ := h
    refine ⟨h', rfl, rfl, ?_, ?_, .inl hs, ?_, ?_, ?_, ?_, ?_⟩
    · simp [Rman.setSharelist]
    · simp [Rman.setSharelist]; omega
    · simp [Rman.setSharelist, Resource.seg]
    · simp [Rman.setSharelist, hbrk.symm, hs]
    · intro x hx hx'; simp [Rman.setSharelist, hx']
    · simp [Rman.setSharelist, sharers_some hs]
    · intro h'' hne; simp [Rman.setSharelist, hne]

namespace Joined

variable {s : Sys} {rm' : Rman} {e rv h : ℕ}

theorem sharers (hj : Joined s.rm rm' e rv h) : rm'.sharers e = rv :: s.rm.sharers e := by
  rw [sharers_some hj.entry.1, hj.sharelist]

/-- The old holders of `e` stay as they were, up to `e` being the first of them. -/
theorem res_sharer (hj : Joined s.rm rm' e rv h) (hok : EntryOk s.rm e) {x : ℕ}
    (hx : x ∈ s.rm.sharers e) : (rm'.res x).rSharehead = some h ∧
      (rm'.res x).seg = (s.rm.res x).seg ∧
      (rm'.res x).rFlags &&& ~~~rfFirstshare = (s.rm.res x).rFlags &&& ~~~rfFirstshare ∧
      (x ≠ e → rm'.res x = s.rm.res x) := by
  have hlt := hok.sharer_lt hx
  by_cases hxe : x = e
  · subst hxe
    refine ⟨hj.entry.1, hj.entry.2.1, ?_, fun hne => absurd rfl hne⟩
    rcases hj.entry.2.2 with ⟨-, hf⟩ | ⟨hf, -⟩
    · rw [hf, and_or_clear]
    · rw [hf]
  · have hres := hj.res x hxe (by rw [hj.rv_eq]; omega)
    refine ⟨?_, by rw [hres], by rw [hres], fun _ => hres⟩
    rw [hres, hok.sharer_head hx]
    rcases hj.head with hh | ⟨hh, -⟩
    · exact hh
    · rw [sharers_none hh, mem_singleton] at hx; exact absurd hx hxe

theorem shareOk (hj : Joined s.rm rm' e rv h) (hI : Inv s) (he : e ∈ s.rm.rmList)
    (hal : (s.rm.res e).has rfAllocated) : ShareOk rm' e h := by
  have hok := hI.entry e he
  have hnot : rv ∉ s.rm.sharers e := fun hx => by
    have := hok.sharer_lt hx
    rw [hj.rv_eq] at this; omega
  have hrv : (rm'.res rv).has rfAllocated ∧ ¬ (rm'.res rv).has rfFirstshare := by
    unfold Resource.has
    rw [hj.new.2.2]
    refine ⟨(and_and_ne_zero_of_subset (by decide)).2 hal, not_not.2 ?_⟩
    rw [BitVec.and_assoc, show (rfAllocated ||| rfShareable ||| rfTimeshare) &&& rfFirstshare = 0
      by decide]
    exact BitVec.and_zero
  have hkeep : ∀ x ∈ s.rm.sharers e, (s.rm.res x).has rfAllocated := by
    intro x hx
    cases hs : (s.rm.res e).rSharehead with
    | none =>
      rw [sharers_none hs, mem_singleton] at hx; rwa [hx]
    | some h' =>
      rw [sharers_some hs] at hx; exact ((hok.share h' hs).member x hx).2.2.2
  have hkeep' : ∀ x ∈ s.rm.sharers e, (rm'.res x).has rfAllocated := by
    intro x hx
    have hf := (hj.res_sharer hok hx).2.2.1
    have := hkeep x hx
    unfold Resource.has at this ⊢
    rwa [← and_clear_of_disjoint (g := rfFirstshare) (by decide), hf,
      and_clear_of_disjoint (by decide)]
  exact {
    allocated := hkeep' e hok.self_mem
    first := by
      rcases hj.entry.2.2 with ⟨-, hf⟩ | ⟨hf, hs⟩
      · unfold Resource.has
        rw [hf]; exact (and_or_ne_zero _ _ _).2 (.inr (by decide))
      · have := (hok.share h hs).first
        unfold Resource.has at this ⊢; rwa [hf]
    lt_brk := hj.h_lt
    nodup := by
      rw [hj.sharelist, nodup_cons]
      refine ⟨hnot, ?_⟩
      cases hs : (s.rm.res e).rSharehead with
      | none => simp [sharers_none hs]
      | some h' => rw [sharers_some hs]; exact (hok.share h' hs).nodup
    two := by
      rw [hj.sharelist, length_cons]
      have := length_pos_of_mem hok.self_mem; omega
    self := by rw [hj.sharelist]; exact mem_cons_of_mem rv hok.self_mem
    member := by
      intro x hx
      have hlt := hj.brk
      rw [hj.sharelist, mem_cons] at hx
      rcases hx with rfl | hx
      · exact ⟨hj.rv_eq ▸ hj.brk, hj.new.1, hj.new.2.1.trans hj.entry.2.1.symm, hrv.1⟩
      · obtain ⟨h1, h2, -, -⟩ := hj.res_sharer hok hx
        have hx' := hok.sharer_lt hx
        exact ⟨by omega, h1, by rw [h2, hj.entry.2.1, hok.sharer_seg hx], hkeep' x hx⟩
    other := by
      intro x hx hne
      rw [hj.rmList]
      rw [hj.sharelist, mem_cons] at hx
      rcases hx with rfl | hx
      · refine ⟨fun hm => ?_, hrv.2⟩
        have := (hI.entry x hm).lt_brk
        rw [hj.rv_eq] at this; omega
      · refine ⟨hok.sharer_not_mem hx hne, ?_⟩
        rw [(hj.res_sharer hok hx).2.2.2 hne]
        cases hs : (s.rm.res e).rSharehead with
        | none =>
          rw [sharers_none hs, mem_singleton] at hx; exact absurd hx hne
        | some h' =>
          rw [sharers_some hs] at hx
          exact ((hok.share h' hs).other x hx hne).2 }

theorem reshare (hj : Joined s.rm rm' e rv h) (hI : Inv s) (he : e ∈ s.rm.rmList)
    (hal : (s.rm.res e).has rfAllocated) : ∃ l₁ l₂, Reshare s.rm rm' l₁ e e l₂ := by
  obtain ⟨l₁, l₂, hl, -, -⟩ := hI.exists_split he
  have hok := hI.entry e he
  have hshare := hj.shareOk hI he hal
  have hbrk := hj.brk
  have helt := hok.lt_brk
  exact ⟨l₁, l₂, {
    before := hl
    after := hj.rmList.trans hl
    brk := by omega
    res := by
      intro x hx hne
      refine hj.res x (fun h => hne (h ▸ hok.self_mem)) ?_
      rw [hj.rv_eq]; omega
    list := by
      intro h' hh' hne
      refine hj.list h' fun heq => ?_
      rcases hj.head with h1 | ⟨-, h1⟩
      · exact hne (heq ▸ h1)
      · omega
    mem := hok.self_mem
    entry := by
      refine ⟨by omega, fun h' hh' => ?_⟩
      obtain rfl : h = h' := some.inj (hj.entry.1.symm.trans hh')
      exact hshare
    seg := hj.entry.2.1
    allocated := hshare.allocated
    old := fun x hx => (hj.res_sharer hok hx).2.2.1
    new := by
      intro x hx
      rw [hj.sharers, mem_cons] at hx
      rcases hx with rfl | hx
      · exact .inr ⟨hj.rv_eq.ge, hj.new.2.2⟩
      · exact .inl hx }⟩

end Joined

/-- Joining the holders of an allocated entry. -/
theorem Inv.addSharer (hI : Inv s) (he : e ∈ s.rm.rmList) (hal : (s.rm.res e).has rfAllocated)
    (h : addSharer s.rm q e malloc1 malloc2 = (rm', some rv)) (f : BitVec 32) :
    Inv { rm := rm', held := (rv, f) :: s.held } ∧ covered rm'.segs = covered s.rm.segs := by
  have hok := hI.entry e he
  obtain ⟨h', hj⟩ := addSharer_joined hok.lt_brk (fun h hh => (hok.share h hh).lt_brk) h
  obtain ⟨l₁, l₂, hr⟩ := hj.reshare hI he hal
  refine hr.inv hI ?_ ?_
  · rw [map_cons, nodup_cons]
    refine ⟨fun hm => ?_, hI.held_nodup⟩
    have := hI.held_lt hm
    have := hj.rv_eq; omega
  · intro r hrm
    rw [map_cons, mem_cons] at hrm
    rw [hj.sharers, mem_cons]; tauto

/-! ## Both searches -/

/-- The entries that the searches go through (lines 198–203). -/
def candidates (rm : Rman) (q : Request) : List ℕ :=
  rm.rmList.dropWhile fun r => (rm.res r).rEnd < q.start

theorem mem_of_candidates {a : ℕ} (h : a ∈ candidates rm q) : a ∈ rm.rmList :=
  (dropWhile_sublist _).subset h

/-- How a reservation ends: nothing is found, an entry is carved up, or one is shared. -/
theorem reserveEntry_cases (hI : Inv s) {fuel : ℕ} {o : Option ℕ}
    (h : reserveEntry s.rm q fuel malloc1 malloc2 = some (rm', o)) :
    rm' = s.rm ∧ o = none ∨
    (∃ e rstart rv, o = some rv ∧
      findUnshared s.rm q fuel (candidates s.rm q) = some (some (e, rstart)) ∧
      Hit s.rm q e rstart ∧ takeUnshared s.rm q e rstart malloc1 malloc2 = (rm', some rv)) ∨
    ∃ e rv, o = some rv ∧ q.baseFlags &&& (rfShareable ||| rfTimeshare) ≠ 0 ∧
      Sharable s.rm q e ∧ (s.rm.res e).has rfAllocated ∧
      addSharer s.rm q e malloc1 malloc2 = (rm', some rv) := by
  have hmem : ∀ a ∈ candidates s.rm q, a ∈ s.rm.rmList := fun a => mem_of_candidates
  have hle : ∀ a ∈ candidates s.rm q, (s.rm.res a).rStart ≤ (s.rm.res a).rEnd := fun a ha =>
    hI.ordered.nonempty _ (mem_map.2 ⟨a, hmem a ha, rfl⟩)
  unfold reserveEntry at h
  rw [← candidates] at h
  cases hun : findUnshared s.rm q fuel (candidates s.rm q) with
  | none => simp [hun] at h
  | some hit =>
    cases hit with
    | some p =>
      obtain ⟨e, rstart⟩ := p
      simp only [hun, Option.some.injEq] at h
      cases o with
      | none => exact .inl ⟨takeUnshared_none h, rfl⟩
      | some rv => exact .inr (.inl ⟨e, rstart, rv, rfl, rfl, findUnshared_hit hun hmem, h⟩)
    | none =>
      simp only [hun] at h
      by_cases hq : q.baseFlags &&& (rfShareable ||| rfTimeshare) = 0
      · rw [if_pos hq] at h
        simp only [Option.some.injEq, Prod.mk.injEq] at h; exact .inl ⟨h.1.symm, h.2.symm⟩
      rw [if_neg hq] at h
      cases hsh : findShared s.rm q (candidates s.rm q) with
      | none =>
        simp only [hsh, Option.some.injEq, Prod.mk.injEq] at h; exact .inl ⟨h.1.symm, h.2.symm⟩
      | some e =>
        simp only [hsh, Option.some.injEq] at h
        cases o with
        | none => exact .inl ⟨addSharer_none h, rfl⟩
        | some rv =>
          exact .inr (.inr ⟨e, rv, rfl, hq, findShared_sharable hsh hmem,
            findShared_allocated hun hsh hle, h⟩)

/-- Every piece that the reservation carves out of a larger entry lies inside it. -/
def CarvesInside (rm : Rman) (q : Request) (fuel : ℕ) (malloc1 : Bool) : Prop :=
  malloc1 = true → ∀ e rstart,
    findUnshared rm q fuel (candidates rm q) = some (some (e, rstart)) → CarveInside rm q e rstart

/-- A piece is carved out inside the entry, or the entry is taken whole. -/
theorem CarvesInside.hit {fuel : ℕ} (hin : CarvesInside rm q fuel malloc1)
    (hun : findUnshared rm q fuel (candidates rm q) = some (some (e, rstart)))
    (h : takeUnshared rm q e rstart malloc1 malloc2 = (rm', some rv)) :
    CarveInside rm q e rstart := by
  by_cases hm : malloc1 = true
  · exact hin hm e rstart hun
  · left
    by_contra hsize
    unfold takeUnshared at h
    rw [if_neg hsize, if_pos hm] at h
    cases h

theorem Inv.reserveEntry (hI : Inv s) {fuel rv : ℕ} (hin : CarvesInside s.rm q fuel malloc1)
    (h : reserveEntry s.rm q fuel malloc1 malloc2 = some (rm', some rv)) (f : BitVec 32) :
    Inv { rm := rm', held := (rv, f) :: s.held } ∧ covered rm'.segs = covered s.rm.segs := by
  rcases reserveEntry_cases hI h with ⟨-, h⟩ | ⟨e, rstart, rv', hrv, hun, hhit, ht⟩ |
    ⟨e, rv', hrv, -, hsh, hal, ha⟩
  · cases h
  · obtain rfl := some.inj hrv
    obtain ⟨l₁, M, l₂, hc⟩ := takeUnshared_carve hI hhit (hin.hit hun ht) ht
    exact hc.inv hI hhit.free f
  · obtain rfl := some.inj hrv
    exact hI.addSharer hsh.mem hal ha f

end FreeBSD.SubrRman
