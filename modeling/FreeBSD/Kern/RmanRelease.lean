import FreeBSD.Kern.RmanReserve

/-!
# Release

`int_rman_release_resource` keeps the invariant. What a shared entry covers
stays what it was; what an unshared one covers, together with the neighbours
that it is merged with, stays the same when these touch it (`MergesTouching`).

Results:
* `releaseMerge_merged`, `Merged.inv`: an entry becomes unallocated.
-/

namespace FreeBSD.SubrRman

open FreeBSD.Lib.Segments List

/-! ## Leaving a sharing list -/

/-- What `releaseShared` does: `r` leaves the sharing list `h` of the entry `e`, and `m`, one of
    those that stay, is in the place of `e`. -/
structure Left (rm rm' : Rman) (l₁ : List ℕ) (e m : ℕ) (l₂ : List ℕ) (r h : ℕ) : Prop where
  before : rm.rmList = l₁ ++ e :: l₂
  after : rm'.rmList = l₁ ++ m :: l₂
  brk : rm'.brk = rm.brk
  mem : m ∈ (rm.sharelist h).erase r
  place : m = e ∨ r = e
  sharelist : rm'.sharelist h = (rm.sharelist h).erase r
  list : ∀ h', h' ≠ h → rm'.sharelist h' = rm.sharelist h'
  res : ∀ x, x ≠ m → rm'.res x = rm.res x
  seg : (rm'.res m).seg = (rm.res m).seg
  flags : (rm'.res m).rFlags &&& ~~~rfFirstshare = (rm.res m).rFlags &&& ~~~rfFirstshare
  head : (rm.sharelist h).erase r = [m] ∧ (rm'.res m).rSharehead = none ∨
    2 ≤ ((rm.sharelist h).erase r).length ∧ (rm'.res m).rSharehead = some h ∧
      (rm'.res m).has rfFirstshare

theorem and_clear_clear (x f : BitVec 32) : (x &&& ~~~f) &&& ~~~f = x &&& ~~~f := by
  rw [BitVec.and_assoc, BitVec.and_self]

theorem releaseShared_left {s : Sys} (hI : Inv s) {e r h : ℕ} (he : e ∈ s.rm.rmList)
    (hh : (s.rm.res e).rSharehead = some h) (hr : r ∈ s.rm.sharelist h) :
    ∃ rm' l₁ m l₂, releaseShared s.rm r h = some rm' ∧ Left s.rm rm' l₁ e m l₂ r h := by
  obtain ⟨l₁, l₂, hl, hn₁, hn₂⟩ := hI.exists_split he
  have hok := (hI.entry e he).share h hh
  have hfirst : (s.rm.res r).has rfFirstshare ↔ r = e := by
    constructor
    · intro hf
      by_contra hne
      exact (hok.other r hr hne).2 hf
    · rintro rfl; exact hok.first
  have hlen := length_erase_of_mem hr
  have htwo := hok.two
  cases hL : (s.rm.sharelist h).erase r with
  | nil =>
    rw [hL, length_nil] at hlen; omega
  | cons x rest =>
    have hx : x ∈ (s.rm.sharelist h).erase r := by simp [hL]
    have hxr : x ≠ r := ((List.Nodup.mem_erase_iff hok.nodup).1 hx).1
    have hlist : r = e → (insertBefore r x s.rm.rmList).erase r = l₁ ++ x :: l₂ := by
      rintro rfl
      rw [hl, insertBefore_append hn₁,
        show l₁ ++ x :: r :: l₂ = (l₁ ++ [x]) ++ r :: l₂ by simp, erase_append_cons]
      · simp
      · simp [hn₁, hxr.symm]
    unfold releaseShared
    simp only [Rman.setSharelist, Function.update_self, hL, hfirst]
    by_cases hre : r = e
    · -- the place on `rm_list` goes to the head of the sharing list
      rw [if_pos hre]
      cases rest with
      | nil =>
        refine ⟨_, l₁, x, l₂, rfl, hl, hlist hre, rfl, by simp [hL], .inr hre, ?_, ?_, ?_, ?_, ?_,
          ?_⟩
        · simp [Rman.update, hL]
        · intro h' hne; simp [Rman.update, hne]
        · intro y hy; simp [Rman.update, hy]
        · simp [Rman.update, Resource.seg, Resource.setFlags]
        · simp [Rman.update, Resource.setFlags, and_clear_clear, and_or_clear]
        · exact .inl ⟨hL, by simp [Rman.update]⟩
      | cons y rest =>
        refine ⟨_, l₁, x, l₂, rfl, hl, hlist hre, rfl, by simp [hL], .inr hre, ?_, ?_, ?_, ?_, ?_,
          ?_⟩
        · simp [Rman.update, hL]
        · intro h' hne; simp [Rman.update, hne]
        · intro y hy; simp [Rman.update, hy]
        · simp [Rman.update, Resource.seg, Resource.setFlags]
        · simp [Rman.update, Resource.setFlags, and_or_clear]
        · refine .inr ⟨by simp [hL], ?_, ?_⟩
          · have hxm := mem_of_mem_erase hx
            simpa [Rman.update, Resource.setFlags] using (hok.member x hxm).2.1
          · simp only [Rman.update, Function.update_self]
            exact (has_setFlags _ _ _).2 (.inr (by decide))
    · -- `e` keeps its place
      rw [if_neg hre]
      have heL : e ∈ (s.rm.sharelist h).erase r :=
        (List.Nodup.mem_erase_iff hok.nodup).2 ⟨Ne.symm hre, hok.self⟩
      cases rest with
      | nil =>
        have hxe : x = e := by rw [hL, mem_singleton] at heL; exact heL.symm
        subst hxe
        refine ⟨_, l₁, x, l₂, rfl, hl, hl, rfl, hx, .inl rfl, ?_, ?_, ?_, ?_, ?_, ?_⟩
        · simp [Rman.update, hL]
        · intro h' hne; simp [Rman.update, hne]
        · intro y hy; simp [Rman.update, hy]
        · simp [Rman.update, Resource.seg]
        · simp [Rman.update, and_clear_clear]
        · exact .inl ⟨hL, by simp [Rman.update]⟩
      | cons y rest =>
        refine ⟨_, l₁, e, l₂, rfl, hl, hl, rfl, heL, .inl rfl, ?_, ?_, fun _ _ => rfl, rfl, rfl, ?_⟩
        · simp [hL]
        · intro h' hne; simp [hne]
        · exact .inr ⟨by simp [hL], hh, hok.first⟩

namespace Left

variable {s : Sys} {rm' : Rman} {l₁ l₂ : List ℕ} {e m r h : ℕ}

theorem mem_old (hl : Left s.rm rm' l₁ e m l₂ r h) : m ∈ s.rm.sharelist h :=
  mem_of_mem_erase hl.mem

theorem sharers (hl : Left s.rm rm' l₁ e m l₂ r h) :
    rm'.sharers m = (s.rm.sharelist h).erase r := by
  rcases hl.head with ⟨h1, h2⟩ | ⟨-, h2, -⟩
  · rw [sharers_none h2, h1]
  · rw [sharers_some h2, hl.sharelist]

theorem flags_eq (hl : Left s.rm rm' l₁ e m l₂ r h) (x : ℕ) :
    (rm'.res x).rFlags &&& ~~~rfFirstshare = (s.rm.res x).rFlags &&& ~~~rfFirstshare := by
  by_cases hx : x = m
  · rw [hx, hl.flags]
  · rw [hl.res x hx]

theorem seg_eq (hl : Left s.rm rm' l₁ e m l₂ r h) (x : ℕ) :
    (rm'.res x).seg = (s.rm.res x).seg := by
  by_cases hx : x = m
  · rw [hx, hl.seg]
  · rw [hl.res x hx]

theorem allocated (hl : Left s.rm rm' l₁ e m l₂ r h) {x : ℕ}
    (hx : (s.rm.res x).has rfAllocated) : (rm'.res x).has rfAllocated := by
  unfold Resource.has at hx ⊢
  rwa [← and_clear_of_disjoint (g := rfFirstshare) (by decide), hl.flags_eq x,
    and_clear_of_disjoint (by decide)]

theorem entryOk (hl : Left s.rm rm' l₁ e m l₂ r h) (hok : ShareOk s.rm e h) :
    EntryOk rm' m := by
  have hm := hok.member m hl.mem_old
  refine ⟨hl.brk ▸ hm.1, fun h' hh' => ?_⟩
  rcases hl.head with ⟨-, h2⟩ | ⟨h1, h2, h3⟩
  · rw [h2] at hh'
    cases hh'
  obtain rfl : h = h' := Option.some.inj (h2.symm.trans hh')
  exact {
    allocated := hl.allocated hm.2.2.2
    first := h3
    lt_brk := hl.brk ▸ hok.lt_brk
    nodup := by rw [hl.sharelist]; exact hok.nodup.erase r
    two := by rw [hl.sharelist]; exact h1
    self := by rw [hl.sharelist]; exact hl.mem
    member := by
      rw [hl.sharelist]
      intro x hx
      obtain ⟨k1, k2, k3, k4⟩ := hok.member x (mem_of_mem_erase hx)
      refine ⟨hl.brk ▸ k1, ?_, ?_, hl.allocated k4⟩
      · by_cases hxm : x = m
        · rw [hxm, h2]
        · rw [hl.res x hxm, k2]
      · rw [hl.seg_eq, hl.seg_eq, k3, hm.2.2.1]
    other := by
      rw [hl.sharelist]
      intro x hx hne
      have hxe : x ≠ e := by
        rintro rfl
        rcases hl.place with hp | rfl
        · exact hne hp.symm
        · exact hok.nodup.not_mem_erase hx
      obtain ⟨k1, k2⟩ := hok.other x (mem_of_mem_erase hx) hxe
      rw [hl.res x hne]
      refine ⟨?_, k2⟩
      rw [hl.after]
      rw [hl.before] at k1
      simp only [mem_append, mem_cons] at k1 ⊢
      tauto }

theorem reshare (hl : Left s.rm rm' l₁ e m l₂ r h) (hI : Inv s)
    (hh : (s.rm.res e).rSharehead = some h) : Reshare s.rm rm' l₁ e m l₂ := by
  have he : e ∈ s.rm.rmList := by rw [hl.before]; simp
  have hok := (hI.entry e he).share h hh
  have hsh := sharers_some hh
  exact {
    before := hl.before
    after := hl.after
    brk := hl.brk.ge
    res := fun x _ hx => hl.res x fun hxm => hx (by rw [hsh, hxm]; exact hl.mem_old)
    list := fun h' _ hne => hl.list h' fun heq => hne (by rw [hh, heq])
    mem := by rw [hsh]; exact hl.mem_old
    entry := hl.entryOk hok
    seg := by rw [hl.seg, (hok.member m hl.mem_old).2.2.1]
    allocated := hl.allocated (hok.member m hl.mem_old).2.2.2
    old := fun x _ => hl.flags_eq x
    new := by
      intro x hx
      rw [hl.sharers] at hx
      exact .inl (by rw [hsh]; exact mem_of_mem_erase hx) }

end Left

/-- What the clients hold after `r` has been released. -/
def Sys.without (s : Sys) (r : ℕ) : List (ℕ × BitVec 32) := s.held.filter fun c => c.1 ≠ r

theorem mem_without {s : Sys} {r x : ℕ} :
    x ∈ (s.without r).map Prod.fst ↔ x ∈ s.held.map Prod.fst ∧ x ≠ r := by
  simp only [Sys.without, mem_map, mem_filter, decide_eq_true_eq]
  constructor
  · rintro ⟨c, ⟨hc, hne⟩, rfl⟩; exact ⟨⟨c, hc, rfl⟩, hne⟩
  · rintro ⟨⟨c, hc, rfl⟩, hne⟩; exact ⟨c, ⟨hc, hne⟩, rfl⟩

theorem nodup_without {s : Sys} (hn : (s.held.map Prod.fst).Nodup) (r : ℕ) :
    ((s.without r).map Prod.fst).Nodup :=
  hn.sublist (filter_sublist.map Prod.fst)

/-- What has just been handed out can be given back. -/
theorem without_cons {rm : Rman} {held : List (ℕ × BitVec 32)} {r : ℕ} {f : BitVec 32}
    (hn : (((r, f) :: held).map Prod.fst).Nodup) :
    Sys.without { rm := rm, held := (r, f) :: held } r = held := by
  rw [map_cons, nodup_cons] at hn
  simp only [Sys.without, ne_eq, not_true_eq_false, decide_false, Bool.false_eq_true,
    not_false_eq_true, filter_cons_of_neg, filter_eq_self, decide_eq_true_eq]
  intro c hc hcr; exact hn.1 (hcr ▸ mem_map.2 ⟨c, hc, rfl⟩)

/-- A client leaves a sharing list. -/
theorem Left.inv {s : Sys} {rm' : Rman} {l₁ l₂ : List ℕ} {e m r h : ℕ}
    (hl : Left s.rm rm' l₁ e m l₂ r h) (hI : Inv s) (hh : (s.rm.res e).rSharehead = some h) :
    Inv { rm := rm', held := s.without r } ∧ covered rm'.segs = covered s.rm.segs := by
  refine (hl.reshare hI hh).inv hI (nodup_without hI.held_nodup r) ?_
  intro x hx
  obtain ⟨hheld, hne⟩ := mem_without.1 hx
  by_cases hxe : x ∈ s.rm.sharers e
  · right
    rw [sharers_some hh] at hxe
    rw [hl.sharers]; exact (mem_erase_of_ne hne).2 hxe
  · exact .inl ⟨hheld, hxe⟩

/-! ## Merging with the neighbours -/

/-- The unallocated neighbours of the unshared entry `r` on `rm_list` touch it. -/
structure MergesTouching (rm : Rman) (r : ℕ) : Prop where
  prev : ∀ s, tailqPrev r rm.rmList = some s → ¬ (rm.res s).has rfAllocated →
    (rm.res s).rEnd.toNat + 1 = (rm.res r).rStart.toNat
  next : ∀ t, tailqNext r rm.rmList = some t → ¬ (rm.res t).has rfAllocated →
    (rm.res r).rEnd.toNat + 1 = (rm.res t).rStart.toNat

/-- What `releaseMerge` does: the entries `E`, unallocated but for `r`, become one of them, `m`. -/
structure Merged (rm rm' : Rman) (l₁ E : List ℕ) (m : ℕ) (l₂ : List ℕ) (r : ℕ) : Prop where
  before : rm.rmList = l₁ ++ E ++ l₂
  after : rm'.rmList = l₁ ++ m :: l₂
  brk : rm'.brk = rm.brk
  sharelist : rm'.sharelist = rm.sharelist
  mem_r : r ∈ E
  mem : m ∈ E
  other : ∀ e ∈ E, e ≠ r → ¬ (rm.res e).has rfAllocated
  res : ∀ x, x ≠ m → rm'.res x = rm.res x
  head : (rm'.res m).rSharehead = (rm.res m).rSharehead
  lo : ∃ a, E.head? = some a ∧ (rm'.res m).seg.1 = (rm.res a).seg.1
  hi : ∃ b, E.getLast? = some b ∧ (rm'.res m).seg.2 = (rm.res b).seg.2
  touching : MergesTouching rm r → Touching (E.map fun a => (rm.res a).seg)

theorem releaseMerge_merged {rm : Rman} {r : ℕ} (hr : r ∈ rm.rmList) (hn : rm.rmList.Nodup) :
    ∃ l₁ E m l₂, Merged rm (releaseMerge rm r) l₁ E m l₂ r := by
  obtain ⟨k₁, k₂, hl⟩ := append_of_mem hr
  rw [hl, nodup_append] at hn
  obtain ⟨hn₁, hn₂, hn₁₂⟩ := hn
  have hr₁ : r ∉ k₁ := fun h => hn₁₂ r h r (by simp) rfl
  have hr₂ : r ∉ k₂ := (nodup_cons.1 hn₂).1
  have hprev : tailqPrev r rm.rmList = k₁.getLast? := by rw [hl, tailqPrev_append hr₁]
  have hnext : tailqNext r rm.rmList = k₂.head? := by rw [hl, tailqNext_append hr₁]
  have herase : rm.rmList.erase r = k₁ ++ k₂ := by rw [hl, erase_append_cons hr₁]
  unfold releaseMerge
  cases hs : (tailqPrev r rm.rmList).filter fun s => ¬ (rm.res s).has rfAllocated with
  | none =>
    cases ht : (tailqNext r rm.rmList).filter fun t => ¬ (rm.res t).has rfAllocated with
    | none =>
      refine ⟨k₁, [r], r, k₂, by simp [hl], hl, rfl, rfl, by simp, by simp, by simp, ?_, ?_,
        ⟨r, rfl, ?_⟩, ⟨r, rfl, ?_⟩, fun _ => by simp [Touching]⟩
      · intro x hx; simp [Rman.update, hx]
      · simp [Rman.update, Resource.clearFlags]
      · simp [Rman.update, Resource.clearFlags, Resource.seg]
      · simp [Rman.update, Resource.clearFlags, Resource.seg]
    | some t =>
      obtain ⟨ht1, ht2⟩ := Option.filter_eq_some_iff.1 ht
      have ht2' : ¬ (rm.res t).has rfAllocated := by simpa using ht2
      obtain ⟨l₂, rfl⟩ := List.head?_eq_some_iff.1 (hnext ▸ ht1)
      refine ⟨k₁, [r, t], t, l₂, by simp [hl], herase, rfl, rfl, by simp, by simp, ?_, ?_, ?_,
        ⟨r, rfl, ?_⟩, ⟨t, rfl, ?_⟩, fun h => ?_⟩
      · intro e he hne
        simp only [mem_cons, not_mem_nil, or_false] at he
        exact he.resolve_left hne ▸ ht2'
      · intro x hx; simp [Rman.update, hx]
      · simp [Rman.update]
      · simp [Rman.update, Resource.seg]
      · simp [Rman.update, Resource.seg]
      · simpa [Touching, Resource.seg] using (h.next t ht1 ht2').symm
  | some s =>
    obtain ⟨hs1, hs2⟩ := Option.filter_eq_some_iff.1 hs
    have hs2' : ¬ (rm.res s).has rfAllocated := by simpa using hs2
    obtain ⟨l₁, rfl⟩ := List.getLast?_eq_some_iff.1 (hprev ▸ hs1)
    cases ht : (tailqNext r rm.rmList).filter fun t => ¬ (rm.res t).has rfAllocated with
    | none =>
      refine ⟨l₁, [s, r], s, k₂, by simp [hl], by simp [herase], rfl, rfl, by simp, by simp,
        ?_, ?_, ?_, ⟨s, rfl, ?_⟩, ⟨r, rfl, ?_⟩, fun h => ?_⟩
      · intro e he hne
        simp only [mem_cons, not_mem_nil, or_false] at he
        exact he.resolve_right hne ▸ hs2'
      · intro x hx; simp [Rman.update, hx]
      · simp [Rman.update]
      · simp [Rman.update, Resource.seg]
      · simp [Rman.update, Resource.seg]
      · simpa [Touching, Resource.seg] using (h.prev s hs1 hs2').symm
    | some t =>
      obtain ⟨ht1, ht2⟩ := Option.filter_eq_some_iff.1 ht
      have ht2' : ¬ (rm.res t).has rfAllocated := by simpa using ht2
      obtain ⟨l₂, rfl⟩ := List.head?_eq_some_iff.1 (hnext ▸ ht1)
      have htl : t ∉ l₁ ++ [s] := fun h => hn₁₂ t h t (by simp) rfl
      refine ⟨l₁, [s, r, t], s, l₂, by simp [hl], ?_, rfl, rfl, by simp, by simp, ?_, ?_, ?_,
        ⟨s, rfl, ?_⟩, ⟨t, rfl, ?_⟩, fun h => ?_⟩
      · simp only [herase, erase_append_cons htl]; simp
      · intro e he hne
        simp only [mem_cons, not_mem_nil, or_false] at he
        rcases he with rfl | rfl | rfl
        · exact hs2'
        · exact absurd rfl hne
        · exact ht2'
      · intro x hx; simp [Rman.update, hx]
      · simp [Rman.update]
      · simp [Rman.update, Resource.seg]
      · simp [Rman.update, Resource.seg]
      · simpa [Touching, Resource.seg] using
          ⟨(h.prev s hs1 hs2').symm, (h.next t ht1 ht2').symm⟩

namespace Merged

variable {s : Sys} {rm' : Rman} {l₁ E l₂ : List ℕ} {m r : ℕ}

theorem mem_list (hm : Merged s.rm rm' l₁ E m l₂ r) : ∀ e ∈ E, e ∈ s.rm.rmList := fun e he => by
  rw [hm.before]; simp [he]

theorem head_none (hm : Merged s.rm rm' l₁ E m l₂ r) (hI : Inv s)
    (hh : (s.rm.res r).rSharehead = none) : ∀ e ∈ E, (s.rm.res e).rSharehead = none := by
  intro e he
  by_cases her : e = r
  · rw [her, hh]
  · exact hI.head_of_free (hm.mem_list e he) (hm.other e he her)

theorem splice (hm : Merged s.rm rm' l₁ E m l₂ r) (hI : Inv s)
    (hh : (s.rm.res r).rSharehead = none) : Splice s.rm rm' l₁ E [m] l₂ where
  before := hm.before
  after := by rw [hm.after]; simp
  brk := hm.brk.ge
  res := fun x _ hx => hm.res x fun h =>
    hx m hm.mem (by rw [sharers_none (hm.head_none hI hh m hm.mem)]; simp [h])
  list := fun _ _ _ => by rw [hm.sharelist]
  new := by
    intro x hx
    rw [mem_singleton] at hx
    exact .inl ⟨m, hm.mem, by rw [sharers_none (hm.head_none hI hh m hm.mem)]; simp [hx]⟩
  nodup := by simp
  entry := by
    intro x hx
    rw [mem_singleton] at hx
    rw [hx]
    exact EntryOk.of_unshared (hm.brk ▸ (hI.entry m (hm.mem_list m hm.mem)).lt_brk)
      (hm.head.trans (hm.head_none hI hh m hm.mem))

/-- An unshared entry that a client holds becomes unallocated. -/
theorem inv (hm : Merged s.rm rm' l₁ E m l₂ r) (hI : Inv s)
    (hh : (s.rm.res r).rSharehead = none) :
    Inv { rm := rm', held := s.without r } ∧
      (MergesTouching s.rm r → covered rm'.segs = covered s.rm.segs) := by
  have hE := hm.mem_list
  have hsharers : ∀ e ∈ E, s.rm.sharers e = [e] := fun e he =>
    sharers_none (hm.head_none hI hh e he)
  have hs := hm.splice hI hh
  -- the old entries, and the hull that the new one covers
  have hordE : Ordered (E.map fun a => (s.rm.res a).seg) := by
    have hord : Ordered s.rm.segs := hI.ordered
    rw [Rman.segs, hm.before, map_append, map_append] at hord
    exact (ordered_append.1 (ordered_append.1 hord).1).2.1
  obtain ⟨a, ha, hlo⟩ := hm.lo
  obtain ⟨b, hb, hhi⟩ := hm.hi
  obtain ⟨E', rfl⟩ := List.head?_eq_some_iff.1 ha
  have hb' : ((a :: E').map fun a => (s.rm.res a).seg).getLast? = some (s.rm.res b).seg := by
    rw [List.getLast?_map, hb, Option.map_some]
  have hle : (s.rm.res a).seg.1 ≤ (s.rm.res b).seg.2 := hordE.hull hb'
  have hbmem : b ∈ a :: E' := mem_of_getLast? hb
  refine ⟨hs.inv hI ?_ ?_ ?_ (nodup_without hI.held_nodup r) ?_, fun ht => ?_⟩
  · rw [map_singleton, ordered_singleton, hlo, hhi]; exact hle
  · intro x hx
    rw [mem_singleton] at hx; exact ⟨a, by simp, by rw [hx, hlo]⟩
  · intro x hx
    rw [mem_singleton] at hx; exact ⟨b, hbmem, by rw [hx, hhi]⟩
  · intro x hx
    obtain ⟨hheld, hne⟩ := mem_without.1 hx
    refine .inl ⟨hheld, fun e he hxe => ?_⟩
    rw [hsharers e he, mem_singleton] at hxe
    exact hI.not_held_of_free (hE e he) (hm.other e he (hxe ▸ hne)) (hxe ▸ hheld)
  · have hcov : covered ((a :: E').map fun a => (s.rm.res a).seg) =
        Set.Icc (s.rm.res a).seg.1 (s.rm.res b).seg.2 :=
      hordE.covered_eq_hull (hm.touching ht) hb'
    rw [hs.segs hI, Rman.segs, hm.before]
    simp only [map_append, covered_append, hcov]; simp [hlo, hhi]

end Merged

/-! ## Release -/

theorem Reflag.mergesTouching {rm rm' : Rman} (h : Reflag rm rm') {r : ℕ}
    (ht : MergesTouching rm r) : MergesTouching rm' r := by
  have hseg : ∀ x, (rm'.res x).rStart.toNat = (rm.res x).rStart.toNat ∧
      (rm'.res x).rEnd.toNat = (rm.res x).rEnd.toNat := fun x =>
    Prod.mk.inj (h.agree x).seg
  constructor
  · intro s hs hal
    rw [h.rmList] at hs
    rw [(hseg s).2, (hseg r).1]; exact ht.prev s hs fun h' => hal ((h.agree s).allocated.2 h')
  · intro t htl hal
    rw [h.rmList] at htl
    rw [(hseg t).1, (hseg r).2]; exact ht.next t htl fun h' => hal ((h.agree t).allocated.2 h')

/-- The first step of `int_rman_release_resource`. -/
def deactivated (rm : Rman) (r : ℕ) : Rman :=
  if (rm.res r).has rfActive then intRmanDeactivateResource rm r else rm

theorem deactivated_reflag (rm : Rman) (r : ℕ) : Reflag rm (deactivated rm r) := by
  unfold deactivated
  split_ifs
  · exact intRmanDeactivateResource_reflag rm r
  · exact .refl rm

/-- How the release of what a client holds ends, after the deactivation: the resource leaves a
    sharing list, or its entry becomes unallocated. -/
theorem intRmanReleaseResource_cases {s : Sys} (hI : Inv s) {r : ℕ}
    (hr : r ∈ s.held.map Prod.fst) :
    ∃ rm', intRmanReleaseResource s.rm r = some rm' ∧
      ((∃ l₁ e m l₂ h, ((deactivated s.rm r).res e).rSharehead = some h ∧
          Left (deactivated s.rm r) rm' l₁ e m l₂ r h) ∨
        ∃ l₁ E m l₂, ((deactivated s.rm r).res r).rSharehead = none ∧
          Merged (deactivated s.rm r) rm' l₁ E m l₂ r) := by
  have hI' := (deactivated_reflag s.rm r).inv hI
  obtain ⟨e, he, -, hre⟩ := hI'.held r hr
  have hhead := (hI'.entry e he).sharer_head hre
  dsimp only at he hre hhead
  unfold intRmanReleaseResource
  rw [← deactivated]
  dsimp only
  cases hh : ((deactivated s.rm r).res r).rSharehead with
  | none =>
    have hre' : r = e := by
      rw [sharers_none (hhead.symm.trans hh), mem_singleton] at hre; exact hre
    rw [← hre'] at he
    obtain ⟨l₁, E, m, l₂, hm⟩ := releaseMerge_merged he hI'.nodup
    exact ⟨_, rfl, .inr ⟨l₁, E, m, l₂, rfl, hm⟩⟩
  | some h =>
    have hh' := hhead.symm.trans hh
    rw [sharers_some hh'] at hre
    obtain ⟨rm', l₁, m, l₂, h1, h2⟩ := releaseShared_left hI' he hh' hre
    exact ⟨rm', h1, .inl ⟨l₁, e, m, l₂, h, hh', h2⟩⟩

/-- `int_rman_release_resource` of what a client holds. -/
theorem Inv.release {s : Sys} (hI : Inv s) {r : ℕ} (hr : r ∈ s.held.map Prod.fst) :
    ∃ rm', intRmanReleaseResource s.rm r = some rm' ∧ Inv { rm := rm', held := s.without r } ∧
      (((s.rm.res r).rSharehead = none → MergesTouching s.rm r) →
        covered rm'.segs = covered s.rm.segs) := by
  have hd := deactivated_reflag s.rm r
  have hI' := hd.inv hI
  have hcov : covered (deactivated s.rm r).segs = covered s.rm.segs := congrArg covered hd.segs
  obtain ⟨rm', heq, ⟨l₁, e, m, l₂, h, hh, hl⟩ | ⟨l₁, E, m, l₂, hh, hm⟩⟩ :=
    intRmanReleaseResource_cases hI hr
  · obtain ⟨h1, h2⟩ := Left.inv (s := ⟨deactivated s.rm r, s.held⟩) hl hI' hh
    exact ⟨rm', heq, h1, fun _ => h2.trans hcov⟩
  · obtain ⟨h1, h2⟩ := Merged.inv (s := ⟨deactivated s.rm r, s.held⟩) hm hI' hh
    refine ⟨rm', heq, h1, fun ht => (h2 ?_).trans hcov⟩
    exact hd.mergesTouching (ht ((hd.agree r).head.symm.trans hh))

end FreeBSD.SubrRman
