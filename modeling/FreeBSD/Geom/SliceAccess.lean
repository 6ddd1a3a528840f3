import FreeBSD.Geom.SliceInv

/-!
# `g_access_rel` on the provider of a slice, `geom/geom_slice.c`

Results:
* `sliceCall_inv`, `sliceCall_fails`: a call keeps the counts, and one that fails changes nothing.
-/

namespace FreeBSD.GeomSlice

open List Option

variable {s t : State} {c : Cid} {p q : Pid} {d : Counts} {u v : ℕ} {err answer : Errno} {m : Mode}

/-- What the provider has is what its slice has. -/
theorem slot_of_provider (hp : (s.slices u).provider = some p) :
    s.slot u = (s.provider p).counts := by
  rw [State.slot, hp]

theorem Apart.zero_left (b : Counts) : Apart 0 b :=
  ⟨fun h => lt_irrefl _ h.1, fun h => lt_irrefl _ h.1⟩

theorem Slice.Overlaps.symm {a b : Slice} (h : a.Overlaps b) (ha : a.length ≠ 0) : b.Overlaps a :=
  ⟨ha, h.2.2, h.2.1⟩

theorem Inv.total_nonneg (h : Inv s) (m : Mode) : 0 ≤ s.total m :=
  Finset.sum_nonneg fun _ hu => h.slot_nonneg (Finset.mem_range.1 hu) m

theorem Inv.slot_le_total (h : Inv s) (hu : u < s.nslice) (m : Mode) : s.slot u m ≤ s.total m :=
  Finset.single_le_sum (f := fun u => s.slot u m)
    (fun _ hv => h.slot_nonneg (Finset.mem_range.1 hv) m) (Finset.mem_range.2 hu)

theorem Attachments.counts_le (h : Attachments s) (hc : s.attached c = some p) (m : Mode) :
    s.counts c m ≤ (s.provider p).counts m := by
  have hp := (h.attached c p hc).1
  have hrest : 0 ≤ (((s.provider p).consumers.erase c).map fun c => s.counts c m).sum :=
    sum_nonneg fun x hx => by
      obtain ⟨a, -, rfl⟩ := mem_map.1 hx
      exact h.nonneg a m
  rw [h.sums p hp m, sum_map_erase ((h.mem p hp c).2 hc)]; omega

theorem mode_forall {P : Mode → Prop} : (∀ m, P m) ↔ P .r ∧ P .w ∧ P .e :=
  ⟨fun h => ⟨h .r, h .w, h .e⟩, fun h m => by
    cases m with
    | r => exact h.1
    | w => exact h.2.1
    | e => exact h.2.2⟩

/-- The consumer of the slicer has nothing open only if no slice is open. -/
theorem Inv.total_of_closed (h : Inv s)
    (hcp : s.counts 0 .r = 0 ∧ s.counts 0 .w = 0 ∧ s.counts 0 .e = 0) : ∀ m, s.total m = 0 := by
  have hr := h.r
  have hw := h.w
  have he := h.e
  have hpos := h.total_nonneg .e
  refine mode_forall.2 ⟨by omega, by omega, ?_⟩
  split at he
  · omega
  · omega

/-- A provider without a slice stays closed. -/
theorem Inv.orphan_delta (h : Inv s) (hp : p < s.nprovider) (hp0 : p ≠ 0)
    (horphan : (s.slices (s.provider p).index).provider ≠ some p) (hc : s.attached c = some p)
    (hd : ∀ m, 0 ≤ s.counts c m + d m)
    (htest : accessTest false (s.provider p) (s.counts c) d = 0) : d = 0 := by
  obtain ⟨hzero, herror⟩ := (h.orphan p hp hp0).2 horphan
  have hcounts : ∀ m, s.counts c m = 0 := fun m => by
    have hle := h.counts_le hc m
    have hpos := h.nonneg c m
    rw [hzero] at hle; exact le_antisymm hle hpos
  have hpos : ∀ m, 0 ≤ d m := fun m => by
    have hm := hd m
    rwa [hcounts, zero_add] at hm
  have hnot : ¬(d .r > 0 ∨ d .w > 0 ∨ d .e > 0) := fun hor => by
    rw [accessTest] at htest
    simp only [Bool.false_eq_true, if_false] at htest
    split at htest
    · exact absurd htest (by decide)
    · split at htest
      · exact absurd htest (by decide)
      · rw [if_pos ⟨hor, herror⟩] at htest; exact herror htest
  have hr := hpos .r
  have hw := hpos .w
  have he := hpos .e
  exact funext (mode_forall.2 ⟨show d .r = 0 by omega, show d .w = 0 by omega,
    show d .e = 0 by omega⟩)

/-! ## The access method of the slicer -/

theorem Inv.length_zero (h : Inv s) : ∀ u < s.nslice, (s.slices u).provider = none →
    (s.slices u).length = 0 :=
  fun u hu hnone => (h.length u hu).2 hnone

/-- `g_slice_access` fails, or opens the medium for slices that stay apart. -/
theorem gSliceAccess_cases (h : Inv s) (hrun : gSliceAccess answer s p d = some (err, t)) :
    err ≠ 0 ∧ t = s ∨
      err = 0 ∧ t = s.addCounts 0 0 (extra (s.counts 0) d) ∧ (∀ u < s.nslice, FitsOne s p d u) ∧
        accessTest s.foot (s.provider 0) (s.counts 0) (extra (s.counts 0) d) = 0 ∧
        ∀ m, 0 ≤ s.counts 0 m + extra (s.counts 0) d m := by
  have hrange : ∀ u ∈ List.range s.nslice, u < s.nslice := fun u hu => mem_range.1 hu
  rw [gSliceAccess] at hrun
  rcases overlapLoop_eq (d := d) (p := p) h.length_zero hrange with ⟨hloop, hfits⟩ | ⟨hloop, -⟩
  · rw [hloop] at hrun
    have hrun : gAccessRel (lower answer) s.foot s 0 (extra (s.counts 0) d) = some (err, t) := hrun
    obtain ⟨hpos, ⟨herr, hor⟩ | ⟨rfl, htest, w, hacc, rfl⟩⟩ := gAccessRel_cases h.slicer hrun
    · refine .inl ⟨herr, hor.elim id fun hacc => ?_⟩
      exact (Prod.mk.inj (some.inj hacc)).2.symm
    · obtain ⟨-, rfl⟩ := Prod.mk.inj (some.inj hacc)
      exact .inr ⟨rfl, rfl, fun u hu => hfits u (mem_range.2 hu), htest, hpos⟩
  · rw [hloop] at hrun
    obtain ⟨rfl, rfl⟩ := Prod.mk.inj (some.inj hrun)
    exact .inl ⟨by decide, rfl⟩

/-! ## Calls that succeed -/

/-- The slices after the counts of the provider have changed. -/
theorem slot_addCounts (hc0 : p ≠ 0) (h : Inv s) (hu : u < s.nslice) (x : Counts) :
    ((s.addCounts 0 0 x).addCounts c p d).slot u =
      s.slot u + if (s.slices u).provider = some p then d else 0 := by
  have hslices : ((s.addCounts 0 0 x).addCounts c p d).slices = s.slices := rfl
  rw [State.slot, hslices, State.slot]
  cases hq : (s.slices u).provider with
  | none =>
    rw [if_neg (some_ne_none p).symm, add_zero]
  | some q =>
    have hq0 := (h.provider u hu q hq).1
    dsimp only
    by_cases hqp : q = p
    · rw [if_pos (congrArg some hqp), hqp, addCounts_provider_self, addCounts_provider_of_ne hc0]
    · rw [if_neg fun heq => hqp (some.inj heq), add_zero, addCounts_provider_of_ne hqp,
        addCounts_provider_of_ne hq0]

/-- The sums over the slices change by the deltas. -/
theorem total_addCounts (h : Inv s) (hp : p < s.nprovider) (hp0 : p ≠ 0)
    (hd : (s.slices (s.provider p).index).provider ≠ some p → d = 0) (x : Counts) (m : Mode) :
    ((s.addCounts 0 0 x).addCounts c p d).total m = s.total m + d m := by
  have hslot : ∀ v < s.nslice, ((s.addCounts 0 0 x).addCounts c p d).slot v =
      s.slot v + if (s.slices v).provider = some p then d else 0 :=
    fun v hv => slot_addCounts hp0 h hv x
  have hnslice : ((s.addCounts 0 0 x).addCounts c p d).nslice = s.nslice := rfl
  have hindex := (h.orphan p hp hp0).1
  have hother : ∀ v < s.nslice, v ≠ (s.provider p).index → (s.slices v).provider ≠ some p :=
    fun v hv hne hvp => hne (h.provider v hv p hvp).2.2.symm
  rw [State.total, hnslice, State.total]
  rw [sum_eq_add_of_update (Finset.mem_range.2 hindex) (f := fun v => s.slot v m) fun v hv hne => by
    rw [hslot v (Finset.mem_range.1 hv), if_neg (hother v (Finset.mem_range.1 hv) hne), add_zero]]
  rw [hslot _ hindex]
  by_cases hcur : (s.slices (s.provider p).index).provider = some p
  · rw [if_pos hcur, Pi.add_apply]; ring
  · rw [if_neg hcur, hd hcur, add_zero, sub_self]; rfl

/-- The slices stay apart. -/
theorem apart_addCounts (h : Inv s) (hp0 : p ≠ 0) (hfits : ∀ u < s.nslice, FitsOne s p d u)
    (x : Counts) (hu : u < s.nslice) (hv : v < s.nslice) (huv : u ≠ v)
    (hover : (s.slices u).Overlaps (s.slices v)) :
    Apart (((s.addCounts 0 0 x).addCounts c p d).slot u)
      (((s.addCounts 0 0 x).addCounts c p d).slot v) := by
  rw [slot_addCounts hp0 h hu, slot_addCounts hp0 h hv]
  by_cases hup : (s.slices u).provider = some p
  · have hindex := (h.provider u hu p hup).2.2
    have hvp : (s.slices v).provider ≠ some p := fun hvp =>
      huv (hindex.symm.trans (h.provider v hv p hvp).2.2)
    rw [if_pos hup, if_neg hvp, add_zero, slot_of_provider hup]
    refine hfits v hv (fun hvi => huv (hindex.symm.trans hvi.symm)) ?_
    rwa [hindex]
  · rw [if_neg hup, add_zero]
    by_cases hvp : (s.slices v).provider = some p
    · have hindex := (h.provider v hv p hvp).2.2
      rw [if_pos hvp, slot_of_provider hvp]
      by_cases hlen : (s.slices u).length = 0
      · have hslot : s.slot u = 0 := by rw [State.slot, (h.length u hu).1 hlen]
        rw [hslot]; exact Apart.zero_left _
      · refine (hfits u hu (fun hui => huv (hui.trans hindex)) ?_).symm
        rw [hindex]; exact hover.symm hlen
    · rw [if_neg hvp, add_zero]; exact h.apart u hu v hv huv hover

/-- A call for the provider of a slice that fails changes nothing. -/
theorem sliceCall_fails (h : Inv s) (hc : s.attached c = some p)
    (hrun : gAccessRel (gSliceAccess answer) false s c d = some (err, t)) (herr : err ≠ 0) :
    t = s := by
  obtain ⟨-, ⟨-, hts | hacc⟩ | ⟨rfl, -⟩⟩ := gAccessRel_cases hc hrun
  · exact hts
  · rcases gSliceAccess_cases h hacc with ⟨-, hts⟩ | ⟨rfl, -⟩
    · exact hts
    · exact absurd rfl herr
  · exact absurd rfl herr

/-- A call for the provider of a slice keeps the counts. -/
theorem sliceCall_inv (h : Inv s) (hfoot : s.foot = false) (hc0 : c ≠ 0)
    (hc : s.attached c = some p) (hp0 : p ≠ 0)
    (hrun : gAccessRel (gSliceAccess answer) false s c d = some (err, t)) : Inv t := by
  have hp := (h.attached c p hc).1
  obtain ⟨hpos, ⟨herr, -⟩ | ⟨rfl, htest, w, hacc, rfl⟩⟩ := gAccessRel_cases hc hrun
  · rw [sliceCall_fails h hc hrun herr]; exact h
  · rcases gSliceAccess_cases h hacc with ⟨herr, -⟩ | ⟨-, rfl, hfits, htest0, hpos0⟩
    · exact absurd rfl herr
    · set x := extra (s.counts 0) d with hx
      rw [hfoot] at htest0
      have hatt0 : Attachments (s.addCounts 0 0 x) :=
        addCounts_attachments h.toAttachments h.slicer hpos0 htest0
      have hcounts : (s.addCounts 0 0 x).counts c = s.counts c := addCounts_counts_of_ne hc0 0 x
      have hprovider : (s.addCounts 0 0 x).provider p = s.provider p :=
        addCounts_provider_of_ne hp0 0 x
      have hatt : Attachments ((s.addCounts 0 0 x).addCounts c p d) :=
        addCounts_attachments hatt0 hc (fun m => hcounts ▸ hpos m)
          (by rw [hcounts, hprovider]; exact htest)
      have hdelta := fun hor => h.orphan_delta hp hp0 hor hc hpos htest
      have htotal := total_addCounts (c := c) h hp hp0 hdelta x
      -- what is the same in all providers
      have hsame : ∀ q, (((s.addCounts 0 0 x).addCounts c p d).provider q).index =
            (s.provider q).index ∧
          (((s.addCounts 0 0 x).addCounts c p d).provider q).error = (s.provider q).error := by
        intro q
        by_cases hqp : q = p
        · rw [hqp, addCounts_provider_self, hprovider]; exact ⟨rfl, rfl⟩
        · rw [addCounts_provider_of_ne hqp]
          by_cases hq0 : q = 0
          · rw [hq0, addCounts_provider_self]; exact ⟨rfl, rfl⟩
          · rw [addCounts_provider_of_ne hq0]; exact ⟨rfl, rfl⟩
      have hslices : Slices ((s.addCounts 0 0 x).addCounts c p d) := {
        provider := fun u hu q hq => by rw [(hsame q).1]; exact h.provider u hu q hq
        length := h.length
        orphan := fun q hq hq0 => by
          rw [(hsame q).1, (hsame q).2]
          refine ⟨(h.orphan q hq hq0).1, fun horphan => ?_⟩
          obtain ⟨hzero, herror⟩ := (h.orphan q hq hq0).2 horphan
          refine ⟨?_, herror⟩
          by_cases hqp : q = p
          · subst hqp
            rw [addCounts_provider_self, hprovider, hdelta horphan, add_zero]; exact hzero
          · rw [addCounts_provider_of_ne hqp, addCounts_provider_of_ne hq0]; exact hzero
        apart := fun u hu v hv huv hover => apart_addCounts h hp0 hfits x hu hv huv hover }
      have hlower : Lower ((s.addCounts 0 0 x).addCounts c p d) := by
        have hself : ((s.addCounts 0 0 x).addCounts c p d).counts 0 = s.counts 0 + x := by
          rw [addCounts_counts_of_ne hc0.symm, addCounts_counts_self]
        have hnonneg : ∀ m, 0 ≤ s.total m + d m := fun m => by
          rw [← htotal m]
          refine Finset.sum_nonneg fun u hu => ?_
          have hu := Finset.mem_range.1 hu
          rw [State.slot]
          cases hq : (((s.addCounts 0 0 x).addCounts c p d).slices u).provider with
          | none => exact le_rfl
          | some q => exact hatt.counts_nonneg (h.provider u hu q hq).2.1 m
        have he := h.e
        simp only [mode_forall] at he
        obtain ⟨h1, h2, h3⟩ := extra_spec (d := d) h.r h.w he (h.total_nonneg .e) (hnonneg .r)
          (hnonneg .w) (hnonneg .e)
        exact {
          r := by rw [hself, htotal, h1]
          w := by rw [hself, htotal, h2]
          e := by
            simp only [mode_forall, htotal]
            rw [hself, h3] }
      exact { hatt, hslices, hlower with }

/-- A call that only closes does not fail. -/
theorem sliceCall_closes (h : Inv s) (hc : s.attached c = some p) (hp0 : p ≠ 0)
    (hd : ∀ m, d m ≤ 0) (hpos : ∀ m, 0 ≤ s.counts c m + d m) :
    ∃ t, gAccessRel (gSliceAccess 0) false s c d = some (0, t) := by
  have hp := (h.attached c p hc).1
  have hneg : ¬∃ m, s.counts c m + d m < 0 := fun ⟨m, hm⟩ => absurd (hpos m) (not_le.2 hm)
  have hle : ∀ m, 0 ≤ (s.provider p).counts m + d m := fun m => by
    have hc := h.counts_le hc m
    have hm := hpos m; omega
  have hdelta := fun hor =>
    h.orphan_delta hp hp0 hor hc hpos (accessTest_of_nonpos false _ _ hd)
  have hrange : ∀ u ∈ List.range s.nslice, u < s.nslice := fun u hu => mem_range.1 hu
  -- slices that are apart stay so when one of them closes
  have hfits : ∀ u ∈ List.range s.nslice, FitsOne s p d u := fun u hu hne hover => by
    have hu := mem_range.1 hu
    have hindex := (h.orphan p hp hp0).1
    by_cases hcur : (s.slices (s.provider p).index).provider = some p
    · have hapart := h.apart _ hindex u hu hne.symm hover
      rw [slot_of_provider hcur] at hapart
      have hw := hd .w
      have he := hd .e
      refine ⟨fun hand => hapart.1 ⟨?_, hand.2⟩, fun hand => hapart.2 ⟨?_, hand.2⟩⟩
      · have hadd : 0 < (s.provider p).counts .e + d .e := hand.1
        omega
      · have hadd : 0 < (s.provider p).counts .w + d .w := hand.1
        omega
    · rw [hdelta hcur, add_zero, ((h.orphan p hp hp0).2 hcur).1]; exact Apart.zero_left _
  have hloop : overlapLoop s p d (List.range s.nslice) = some 0 := by
    rcases overlapLoop_eq (d := d) (p := p) h.length_zero hrange with ⟨hloop, -⟩ | ⟨-, hnot⟩
    · exact hloop
    · exact absurd hfits hnot
  set x := extra (s.counts 0) d with hx
  have htotal := total_addCounts (c := c) h hp hp0 hdelta x
  have hnonneg : ∀ m, 0 ≤ s.total m + d m := fun m => by
    by_cases hcur : (s.slices (s.provider p).index).provider = some p
    · have hslot := h.slot_le_total (h.orphan p hp hp0).1 m
      rw [slot_of_provider hcur] at hslot
      have hm := hle m; omega
    · rw [hdelta hcur]; exact add_nonneg (h.total_nonneg m) le_rfl
  have hclosed : s.counts 0 .r = 0 ∧ s.counts 0 .w = 0 ∧ s.counts 0 .e = 0 → ∀ m, d m = 0 :=
    fun hcp m => by
      have hzero := h.total_of_closed hcp m
      have hm := hnonneg m
      have hdm := hd m; omega
  have hxneg : ∀ m, x m ≤ 0 := extra_nonpos hd hclosed
  have hxpos : ¬∃ m, s.counts 0 m + x m < 0 := by
    have he := h.e
    simp only [mode_forall] at he
    obtain ⟨h1, h2, h3⟩ := extra_spec (d := d) h.r h.w he (h.total_nonneg .e) (hnonneg .r)
      (hnonneg .w) (hnonneg .e)
    have hr := hnonneg .r
    have hw := hnonneg .w
    have he := hnonneg .e
    rw [← hx, Pi.add_apply] at h1 h2 h3
    rintro ⟨m, hm⟩
    cases m with
    | r => omega
    | w => omega
    | e =>
      split at h3
      · omega
      · omega
  refine ⟨(s.addCounts 0 0 x).addCounts c p d, ?_⟩
  have hslicer : s.attached 0 = some 0 := h.slicer
  rw [gAccessRel, hc]
  dsimp only
  rw [if_neg hneg, accessTest_of_nonpos _ _ _ hd, if_neg (not_not.2 rfl), gSliceAccess, hloop]
  dsimp only
  rw [if_neg (not_not.2 rfl), gAccessRel, hslicer]
  dsimp only
  rw [← hx, if_neg hxpos, accessTest_of_nonpos _ _ _ hxneg, if_neg (not_not.2 rfl), lower]; rfl

end FreeBSD.GeomSlice
