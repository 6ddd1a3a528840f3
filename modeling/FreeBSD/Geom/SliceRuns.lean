import FreeBSD.Geom.SliceAccess

/-!
# Runs of a slicer, `geom/geom_slice.c`

`g_slice_access` does not let a slice be written that overlaps one that is open exclusively, but
`g_slice_config` lets an open slice grow over another. After that they are no longer apart, and
`g_slice_access` refuses even to close them by parts.

Results:
* `step_inv`, `step_fails`, `step_closes`: what a step does to the counts.
* `slicer_of_run`: in every run in which no slice grows so, the counts are right, slices that
  overlap are apart, a call that fails changes nothing and one that closes does not fail.
* `grown_slice`: a slice that grows over another that is open exclusively.
-/

namespace FreeBSD.GeomSlice

open Lib List Option

variable {s t : State} {op : Op} {c : Cid} {p q : Pid} {d : Counts} {u v : ℕ} {err answer : Errno}
  {m : Mode} {idx offset length : ℕ} {gsl : Slice}

/-! ## Changes that leave the counts -/

/-- The counts of the slices and of the slicer are the same. -/
theorem Lower.congr (h : Lower s) (hn : t.nslice = s.nslice) (hcounts : t.counts 0 = s.counts 0)
    (hslot : ∀ u < s.nslice, t.slot u = s.slot u) : Lower t := by
  have htotal : ∀ m, t.total m = s.total m := fun m => by
    rw [State.total, hn, State.total]
    exact Finset.sum_congr rfl fun u hu => by rw [hslot u (Finset.mem_range.1 hu)]
  exact {
    r := by rw [hcounts, htotal, h.r]
    w := by rw [hcounts, htotal, h.w]
    e := by
      simp only [htotal]
      rw [hcounts, h.e] }

/-- A provider differs only in its error. -/
theorem Attachments.setError (h : Attachments s) (p : Pid) (error : Errno) :
    Attachments (s.setProvider p { s.provider p with error }) := by
  have hsame : ∀ q, ((s.setProvider p { s.provider p with error }).provider q).consumers =
        (s.provider q).consumers ∧
      ((s.setProvider p { s.provider p with error }).provider q).counts =
        (s.provider q).counts := by
    intro q
    by_cases hq : q = p
    · subst hq; simp [State.setProvider]
    · simp [State.setProvider, hq]
  exact {
    slicer := h.slicer
    attached := h.attached
    mem := fun q hq c => by rw [(hsame q).1]; exact h.mem q hq c
    nodup := fun q hq => by rw [(hsame q).1]; exact h.nodup q hq
    nonneg := h.nonneg
    sums := fun q hq m => by rw [(hsame q).1, (hsame q).2]; exact h.sums q hq m
    excl := fun q hq => by
      rw [(hsame q).1]
      exact h.excl q hq }

/-! ## Configuration -/

theorem setSlice_self (s : State) (u : ℕ) (gsl : Slice) : (s.setSlice u gsl).slices u = gsl := by
  simp [State.setSlice]

theorem setSlice_of_ne (hv : v ≠ u) (gsl : Slice) : (s.setSlice u gsl).slices v = s.slices v := by
  simp [State.setSlice, hv]

/-- Slices that stay apart when one of them is set again. -/
theorem apart_setSlice (h : Inv s) (hslot : ∀ u < s.nslice, t.slot u = s.slot u)
    (hself : t.slices idx = gsl) (hother : ∀ u, u ≠ idx → t.slices u = s.slices u)
    (hnew : ∀ v < s.nslice, v ≠ idx → gsl.Overlaps (s.slices v) →
      Apart (s.slot idx) (s.slot v)) (hu : u < s.nslice) (hv : v < s.nslice) (huv : u ≠ v)
    (hover : (t.slices u).Overlaps (t.slices v)) : Apart (t.slot u) (t.slot v) := by
  rw [hslot u hu, hslot v hv]
  by_cases hui : u = idx
  · rw [hui, hself, hother v fun hvi => huv (hui.trans hvi.symm)] at hover
    rw [hui]; exact hnew v hv (fun hvi => huv (hui.trans hvi.symm)) hover
  · by_cases hvi : v = idx
    · rw [hvi, hself, hother u hui] at hover
      rw [hvi]
      by_cases hlen : (s.slices u).length = 0
      · have hzero : s.slot u = 0 := by rw [State.slot, (h.length u hu).1 hlen]
        rw [hzero]; exact Apart.zero_left _
      · exact (hnew u hu hui (hover.symm hlen)).symm
    · rw [hother u hui, hother v hvi] at hover; exact h.apart u hu v hv huv hover

/-- A slice that is open does not grow over one that it has to be kept apart from; and
    foot-shooting is not enabled. -/
def Careful (s : State) : Op → Prop
  | .config idx offset length => idx < s.nslice → (s.slices idx).offset = offset →
      (s.slices idx).length ≤ length → ∀ v < s.nslice, v ≠ idx →
        (⟨offset, length, (s.slices idx).provider⟩ : Slice).Overlaps (s.slices v) →
          Apart (s.slot idx) (s.slot v)
  | .access _ _ _ => s.foot = false
  | _ => True

theorem Attachments.counts_zero (h : Attachments s) (hp : p < s.nprovider)
    (hacc : (s.provider p).counts .r + (s.provider p).counts .w + (s.provider p).counts .e = 0) :
    (s.provider p).counts = 0 := by
  have hr := h.counts_nonneg hp .r
  have hw := h.counts_nonneg hp .w
  have he := h.counts_nonneg hp .e
  exact funext (mode_forall.2 ⟨show (s.provider p).counts .r = 0 by omega,
    show (s.provider p).counts .w = 0 by omega, show (s.provider p).counts .e = 0 by omega⟩)

/-- A slice is set again; its counts are those of before. -/
theorem Inv.of_setSlice (h : Inv s) (gsl : Slice) (hatt : Attachments t) (hn : t.nslice = s.nslice)
    (hcounts : t.counts 0 = s.counts 0) (hslot : ∀ u < s.nslice, t.slot u = s.slot u)
    (hself : t.slices idx = gsl) (hother : ∀ u, u ≠ idx → t.slices u = s.slices u)
    (hprovider : ∀ u < s.nslice, ∀ p, (t.slices u).provider = some p →
      p ≠ 0 ∧ p < t.nprovider ∧ (t.provider p).index = u)
    (hlength : gsl.length = 0 ↔ gsl.provider = none)
    (horphan : ∀ p < t.nprovider, p ≠ 0 → (t.provider p).index < s.nslice ∧
      ((t.slices (t.provider p).index).provider ≠ some p →
        (t.provider p).counts = 0 ∧ (t.provider p).error ≠ 0))
    (hnew : ∀ v < s.nslice, v ≠ idx → gsl.Overlaps (s.slices v) →
      Apart (s.slot idx) (s.slot v)) : Inv t := by
  have hslices : Slices t := {
    provider := fun u hu => hprovider u (hn ▸ hu)
    length := fun u hu => by
      by_cases hui : u = idx
      · rw [hui, hself]; exact hlength
      · rw [hother u hui]; exact h.length u (hn ▸ hu)
    orphan := fun p hp hp0 => by rw [hn]; exact horphan p hp hp0
    apart := fun u hu v hv huv hover =>
      apart_setSlice h hslot hself hother hnew (hn ▸ hu) (hn ▸ hv) huv hover }
  exact { hatt, hslices, h.toLower.congr hn hcounts hslot with }

/-- The slice keeps its provider. -/
theorem reconfigure_inv (h : Inv s) (hp : (s.slices idx).provider = some p)
    (hlen : length ≠ 0) (hnew : ∀ v < s.nslice, v ≠ idx →
      (⟨offset, length, some p⟩ : Slice).Overlaps (s.slices v) →
        Apart (s.slot idx) (s.slot v)) :
    Inv (s.setSlice idx ⟨offset, length, some p⟩) := by
  have hkeep : ∀ u, ((s.setSlice idx ⟨offset, length, some p⟩).slices u).provider =
      (s.slices u).provider := fun u => by
    by_cases hui : u = idx
    · rw [hui, setSlice_self, hp]
    · rw [setSlice_of_ne hui]
  refine h.of_setSlice ⟨offset, length, some p⟩
    { h.toAttachments with } rfl rfl ?_ (setSlice_self s idx _)
    (fun u hu => setSlice_of_ne hu _) ?_ ?_ ?_ hnew
  · intro u _
    rw [State.slot, hkeep, State.slot]; rfl
  · intro u hu q hq
    rw [hkeep] at hq; exact h.provider u hu q hq
  · exact ⟨fun h0 => absurd h0 hlen, fun hnone => by cases hnone⟩
  · intro q hq hq0
    rw [hkeep]; exact h.orphan q hq hq0

/-- A slice that is closed loses its provider. -/
theorem orphan_inv (h : Inv s) (hidx : idx < s.nslice) (hp : (s.slices idx).provider = some p)
    (hzero : (s.provider p).counts = 0) :
    Inv ((s.setSlice idx ⟨offset, 0, none⟩).setProvider p
      { s.provider p with error := ENXIO }) := by
  set t := (s.setSlice idx ⟨offset, 0, none⟩).setProvider p
    { s.provider p with error := ENXIO } with ht
  have hatt : Attachments (s.setProvider p { s.provider p with error := ENXIO }) :=
    h.toAttachments.setError p ENXIO
  have hself : t.slices idx = ⟨offset, 0, none⟩ := setSlice_self s idx _
  have hother : ∀ u, u ≠ idx → t.slices u = s.slices u := fun u hu => setSlice_of_ne hu _
  have hprov : t.provider p = { s.provider p with error := ENXIO } := by
    simp [ht, State.setProvider]
  have hprov_of_ne : ∀ q, q ≠ p → t.provider q = s.provider q := fun q hq => by
    simp [ht, State.setProvider, State.setSlice, hq]
  have hindex : ∀ q, (t.provider q).index = (s.provider q).index := fun q => by
    by_cases hq : q = p
    · rw [hq, hprov]
    · rw [hprov_of_ne q hq]
  have hpidx := h.provider idx hidx p hp
  have hslot0 : s.slot idx = 0 := by rw [slot_of_provider hp, hzero]
  refine h.of_setSlice ⟨offset, 0, none⟩ { hatt with } rfl rfl ?_ hself hother ?_
    ⟨fun _ => rfl, fun _ => rfl⟩ ?_ fun v _ _ _ => by rw [hslot0]; exact Apart.zero_left _
  · intro u hu
    by_cases hui : u = idx
    · rw [hui, hslot0, State.slot, hself]
    · rw [State.slot, hother u hui, State.slot]
      cases hq : (s.slices u).provider with
      | none => rfl
      | some q =>
        have hqp : q ≠ p := fun hqp => by
          have hqu := (h.provider u hu q hq).2.2
          rw [hqp, hpidx.2.2] at hqu; exact hui hqu.symm
        dsimp only
        rw [hprov_of_ne q hqp]
  · intro u hu q hq
    rw [hindex]
    by_cases hui : u = idx
    · rw [hui, hself] at hq
      cases hq
    · rw [hother u hui] at hq; exact h.provider u hu q hq
  · intro q hq hq0
    rw [hindex]
    refine ⟨(h.orphan q hq hq0).1, fun hne => ?_⟩
    by_cases hqp : q = p
    · rw [hqp, hprov]; exact ⟨hzero, show ENXIO ≠ 0 by decide⟩
    · rw [hprov_of_ne q hqp]
      refine (h.orphan q hq hq0).2 fun hcur => hne ?_
      have hui : (s.provider q).index ≠ idx := fun hui => by
        rw [hui, hp] at hcur; exact hqp (some.inj hcur).symm
      rw [hother _ hui]; exact hcur

/-- A slice without a provider stays without. -/
theorem unset_inv (h : Inv s) (hp : (s.slices idx).provider = none) :
    Inv (s.setSlice idx ⟨offset, 0, none⟩) := by
  have hkeep : ∀ u, ((s.setSlice idx ⟨offset, 0, none⟩).slices u).provider =
      (s.slices u).provider := fun u => by
    by_cases hui : u = idx
    · rw [hui, setSlice_self, hp]
    · rw [setSlice_of_ne hui]
  have hslot0 : s.slot idx = 0 := by rw [State.slot, hp]
  refine h.of_setSlice ⟨offset, 0, none⟩
    { h.toAttachments with } rfl rfl ?_ (setSlice_self s idx _)
    (fun u hu => setSlice_of_ne hu _) ?_ ⟨fun _ => rfl, fun _ => rfl⟩ ?_ fun v _ _ _ => by
      rw [hslot0]; exact Apart.zero_left _
  · intro u _
    rw [State.slot, hkeep, State.slot]; rfl
  · intro u hu q hq
    rw [hkeep] at hq; exact h.provider u hu q hq
  · intro q hq hq0
    rw [hkeep]; exact h.orphan q hq hq0

/-- A slice gets a new provider. -/
theorem create_inv (h : Inv s) (hidx : idx < s.nslice) (hp : (s.slices idx).provider = none)
    (hlen : length ≠ 0) :
    Inv { (s.setSlice idx ⟨offset, length, some s.nprovider⟩).setProvider s.nprovider
      ⟨0, 0, idx, []⟩ with nprovider := s.nprovider + 1 } := by
  set t : State := { (s.setSlice idx ⟨offset, length, some s.nprovider⟩).setProvider s.nprovider
    ⟨0, 0, idx, []⟩ with nprovider := s.nprovider + 1 } with ht
  have hself : t.slices idx = ⟨offset, length, some s.nprovider⟩ := setSlice_self s idx _
  have hother : ∀ u, u ≠ idx → t.slices u = s.slices u := fun u hu => setSlice_of_ne hu _
  have hnew : t.provider s.nprovider = ⟨0, 0, idx, []⟩ := by
    simp [ht, State.setProvider]
  have hold : ∀ q < s.nprovider, t.provider q = s.provider q := fun q hq => by
    simp [ht, State.setProvider, State.setSlice, hq.ne]
  have hpos : 0 < s.nprovider := Nat.lt_of_le_of_lt (Nat.zero_le _) (h.attached 0 0 h.slicer).1
  have hsplit : ∀ q < t.nprovider, q < s.nprovider ∨ q = s.nprovider := fun q hq =>
    Nat.lt_succ_iff_lt_or_eq.1 hq
  have hslot0 : s.slot idx = 0 := by rw [State.slot, hp]
  have hatt : Attachments t := {
    slicer := h.slicer
    attached := fun c q hq =>
      ⟨(h.attached c q hq).1.trans (Nat.lt_succ_self _), (h.attached c q hq).2⟩
    mem := fun q hq c => by
      rcases hsplit q hq with hq | rfl
      · rw [hold q hq]; exact h.mem q hq c
      · rw [hnew]
        exact ⟨fun hmem => absurd hmem not_mem_nil,
          fun hc => absurd (h.attached c _ hc).1 (lt_irrefl _)⟩
    nodup := fun q hq => by
      rcases hsplit q hq with hq | rfl
      · rw [hold q hq]; exact h.nodup q hq
      · rw [hnew]; exact nodup_nil
    nonneg := h.nonneg
    sums := fun q hq m => by
      rcases hsplit q hq with hq | rfl
      · rw [hold q hq]; exact h.sums q hq m
      · rw [hnew]; rfl
    excl := fun q hq c hc => by
      rcases hsplit q hq with hq | rfl
      · rw [hold q hq] at hc ⊢; exact h.excl q hq c hc
      · rw [hnew] at hc
        exact absurd hc not_mem_nil }
  refine h.of_setSlice ⟨offset, length, some s.nprovider⟩ hatt rfl rfl ?_ hself hother ?_
    ⟨fun h0 => absurd h0 hlen, fun hnone => by cases hnone⟩ ?_ fun v _ _ _ => by
      rw [hslot0]; exact Apart.zero_left _
  · intro u hu
    by_cases hui : u = idx
    · rw [hui, hslot0, State.slot, hself]
      dsimp only
      rw [hnew]
    · rw [State.slot, hother u hui, State.slot]
      cases hq : (s.slices u).provider with
      | none => rfl
      | some q =>
        dsimp only
        rw [hold q (h.provider u hu q hq).2.1]
  · intro u hu q hq
    by_cases hui : u = idx
    · rw [hui, hself] at hq
      obtain rfl := some.inj hq
      rw [hnew, hui]; exact ⟨hpos.ne', Nat.lt_succ_self _, rfl⟩
    · rw [hother u hui] at hq
      obtain ⟨hq0, hqlt, hqi⟩ := h.provider u hu q hq
      rw [hold q hqlt]; exact ⟨hq0, hqlt.trans (Nat.lt_succ_self _), hqi⟩
  · intro q hq hq0
    rcases hsplit q hq with hq | rfl
    · rw [hold q hq]
      refine ⟨(h.orphan q hq hq0).1, fun hne => (h.orphan q hq hq0).2 fun hcur => hne ?_⟩
      have hui : (s.provider q).index ≠ idx := fun hui => by
        rw [hui, hp] at hcur
        cases hcur
      rw [hother _ hui]; exact hcur
    · rw [hnew]; exact ⟨hidx, fun hne => absurd (congrArg Slice.provider hself) hne⟩

/-- A configuration under which an open slice does not grow over one it is kept apart from. -/
theorem config_inv (h : Inv s) (hcare : Careful s (.config idx offset length)) :
    Inv (gSliceConfig s idx offset length).2 := by
  rw [gSliceConfig]
  by_cases hidx : idx ≥ s.nslice
  · rw [if_pos hidx]; exact h
  · rw [if_neg hidx]
    have hidx := not_le.1 hidx
    dsimp only
    cases hp : (s.slices idx).provider with
    | none =>
      rw [if_neg fun hand => hand.1 rfl, if_neg fun hand => hand.1 rfl]
      dsimp only
      by_cases hlen : length = 0
      · subst hlen
        rw [if_pos rfl]; exact unset_inv h hp
      · rw [if_neg hlen]; exact create_inv h hidx hp hlen
    | some p =>
      have hplt := (h.provider idx hidx p hp).2.1
      dsimp only
      split
      · exact h
      · next hshort =>
        split
        · exact h
        · next hmoved =>
          by_cases hacc : (s.provider p).counts .r + (s.provider p).counts .w +
              (s.provider p).counts .e = 0
          · have hzero := h.counts_zero hplt hacc
            by_cases hlen : length = 0
            · subst hlen
              rw [if_pos rfl]; exact orphan_inv h hidx hp hzero
            · rw [if_neg hlen]
              refine reconfigure_inv h hp hlen fun v _ _ _ => ?_
              rw [slot_of_provider hp, hzero]; exact Apart.zero_left _
          · have hle : (s.slices idx).length ≤ length :=
              not_lt.1 fun hlt => hshort ⟨hacc, hlt⟩
            have hoff : (s.slices idx).offset = offset :=
              (not_not.1 fun hne => hmoved ⟨hacc, hne⟩).symm
            have hlen : length ≠ 0 := fun hlen => by
              have hnone := (h.length idx hidx).1 (by omega)
              rw [hp] at hnone
              cases hnone
            rw [if_neg hlen]
            refine reconfigure_inv h hp hlen ?_
            have hnew := hcare hidx hoff hle
            rwa [hp] at hnew

/-! ## Consumers -/

/-- What is done to the consumers leaves the slices. -/
theorem Inv.of_providers (h : Inv s) (hatt : Attachments t) (hslices : t.slices = s.slices)
    (hn : t.nslice = s.nslice) (hnp : t.nprovider = s.nprovider) (h0 : t.counts 0 = s.counts 0)
    (hsame : ∀ q, q ≠ 0 → (t.provider q).counts = (s.provider q).counts ∧
      (t.provider q).index = (s.provider q).index ∧ (t.provider q).error = (s.provider q).error) :
    Inv t := by
  have hslot : ∀ u < s.nslice, t.slot u = s.slot u := fun u hu => by
    rw [State.slot, hslices, State.slot]
    cases hq : (s.slices u).provider with
    | none => rfl
    | some q => exact (hsame q (h.provider u hu q hq).1).1
  have hsl : Slices t := {
    provider := fun u hu q hq => by
      rw [hslices] at hq
      obtain ⟨hq0, hqlt, hqi⟩ := h.provider u (hn ▸ hu) q hq
      rw [hnp, (hsame q hq0).2.1]; exact ⟨hq0, hqlt, hqi⟩
    length := fun u hu => by rw [hslices]; exact h.length u (hn ▸ hu)
    orphan := fun q hq hq0 => by
      obtain ⟨hcounts, hindex, herror⟩ := hsame q hq0
      rw [hslices, hn, hcounts, hindex, herror]; exact h.orphan q (hnp ▸ hq) hq0
    apart := fun u hu v hv huv hover => by
      rw [hslices] at hover
      rw [hslot u (hn ▸ hu), hslot v (hn ▸ hv)]
      exact h.apart u (hn ▸ hu) v (hn ▸ hv) huv hover }
  exact { hatt, hsl, h.toLower.congr hn h0 hslot with }

theorem setProvider_self (s : State) (p : Pid) (pp : Provider) :
    (s.setProvider p pp).provider p = pp := by
  simp [State.setProvider]

theorem setProvider_of_ne (hq : q ≠ p) (pp : Provider) :
    (s.setProvider p pp).provider q = s.provider q := by
  simp [State.setProvider, hq]

theorem attach_inv (h : Inv s) (hp : p < s.nprovider) : Inv (gAttach s p) := by
  have hself : (gAttach s p).provider p =
      { s.provider p with consumers := s.nconsumer :: (s.provider p).consumers } :=
    setProvider_self s p _
  have hother : ∀ q, q ≠ p → (gAttach s p).provider q = s.provider q :=
    fun q hq => setProvider_of_ne hq _
  have hcounts : (gAttach s p).counts s.nconsumer = 0 := by simp [gAttach]
  have hcounts_of_ne : ∀ c, c ≠ s.nconsumer → (gAttach s p).counts c = s.counts c := fun c hc => by
    simp [gAttach, hc]
  have hattached : (gAttach s p).attached s.nconsumer = some p := by simp [gAttach]
  have hattached_of_ne : ∀ c, c ≠ s.nconsumer → (gAttach s p).attached c = s.attached c :=
    fun c hc => by simp [gAttach, hc]
  have hnew : ∀ q < s.nprovider, s.nconsumer ∉ (s.provider q).consumers := fun q hq hmem =>
    lt_irrefl _ (h.attached _ q ((h.mem q hq _).1 hmem)).2
  have hne : ∀ q < s.nprovider, ∀ c ∈ (s.provider q).consumers, c ≠ s.nconsumer :=
    fun q hq c hc hcn => hnew q hq (hcn ▸ hc)
  have hsum : ∀ q < s.nprovider, ∀ m,
      ((s.provider q).consumers.map fun c => (gAttach s p).counts c m).sum =
        ((s.provider q).consumers.map fun c => s.counts c m).sum := fun q hq m =>
    congrArg List.sum (map_congr_left fun c hc => by rw [hcounts_of_ne c (hne q hq c hc)])
  have h0 : (0 : Cid) ≠ s.nconsumer :=
    (Nat.lt_of_le_of_lt (Nat.zero_le _) (h.attached 0 0 h.slicer).2).ne
  have hatt : Attachments (gAttach s p) := {
    slicer := (hattached_of_ne 0 h0).trans h.slicer
    attached := fun c q hq => by
      by_cases hc : c = s.nconsumer
      · rw [hc, hattached] at hq
        obtain rfl := some.inj hq
        exact ⟨hp, hc ▸ Nat.lt_succ_self _⟩
      · rw [hattached_of_ne c hc] at hq
        exact ⟨(h.attached c q hq).1, (h.attached c q hq).2.trans (Nat.lt_succ_self _)⟩
    mem := fun q hq c => by
      by_cases hc : c = s.nconsumer
      · rw [hc, hattached]
        by_cases hqp : q = p
        · rw [hqp, hself]; exact ⟨fun _ => rfl, fun _ => mem_cons_self⟩
        · rw [hother q hqp]
          exact ⟨fun hmem => absurd hmem (hnew q hq),
            fun heq => absurd (some.inj heq).symm hqp⟩
      · rw [hattached_of_ne c hc]
        by_cases hqp : q = p
        · subst hqp
          rw [hself, mem_cons, or_iff_right hc]; exact h.mem q hq c
        · rw [hother q hqp]; exact h.mem q hq c
    nodup := fun q hq => by
      by_cases hqp : q = p
      · subst hqp
        rw [hself]; exact nodup_cons.2 ⟨hnew q hq, h.nodup q hq⟩
      · rw [hother q hqp]; exact h.nodup q hq
    nonneg := fun c m => by
      by_cases hc : c = s.nconsumer
      · rw [hc, hcounts]; exact le_rfl
      · rw [hcounts_of_ne c hc]; exact h.nonneg c m
    sums := fun q hq m => by
      by_cases hqp : q = p
      · subst hqp
        rw [hself, map_cons, sum_cons, hsum q hq, hcounts, h.sums q hq, Pi.zero_apply,
          zero_add]
      · rw [hother q hqp, hsum q hq]; exact h.sums q hq m
    excl := fun q hq a ha b hb hba => by
      have hcase : ∀ c ∈ ((gAttach s p).provider q).consumers,
          c = s.nconsumer ∨ c ∈ (s.provider q).consumers := fun c hc => by
        by_cases hqp : q = p
        · subst hqp
          rw [hself] at hc; exact mem_cons.1 hc
        · rw [hother q hqp] at hc; exact .inr hc
      rintro ⟨hae, hbw⟩
      rcases hcase a ha with rfl | ha
      · rw [hcounts] at hae; exact lt_irrefl _ hae
      · rcases hcase b hb with rfl | hb
        · rw [hcounts] at hbw; exact lt_irrefl _ hbw
        · rw [hcounts_of_ne a (hne q hq a ha)] at hae
          rw [hcounts_of_ne b (hne q hq b hb)] at hbw
          exact h.excl q hq a ha b hb hba ⟨hae, hbw⟩ }
  refine h.of_providers hatt rfl rfl rfl (hcounts_of_ne 0 h0) fun q _ => ?_
  by_cases hqp : q = p
  · rw [hqp, hself]; exact ⟨rfl, rfl, rfl⟩
  · rw [hother q hqp]; exact ⟨rfl, rfl, rfl⟩

theorem detach_inv (h : Inv s) (hc : s.attached c = some p) (hc0 : c ≠ 0)
    (hzero : s.counts c = 0) : Inv (gDetach s c p) := by
  have hself : (gDetach s c p).provider p =
      { s.provider p with consumers := (s.provider p).consumers.erase c } := setProvider_self s p _
  have hother : ∀ q, q ≠ p → (gDetach s c p).provider q = s.provider q :=
    fun q hq => setProvider_of_ne hq _
  have hcounts : (gDetach s c p).counts = s.counts := rfl
  have hattached : (gDetach s c p).attached c = none := by simp [gDetach]
  have hattached_of_ne : ∀ a, a ≠ c → (gDetach s c p).attached a = s.attached a :=
    fun a ha => by simp [gDetach, ha]
  have hsub : ∀ q, ∀ a ∈ ((gDetach s c p).provider q).consumers, a ∈ (s.provider q).consumers :=
    fun q a ha => by
      by_cases hqp : q = p
      · subst hqp
        rw [hself] at ha; exact mem_of_mem_erase ha
      · rwa [hother q hqp] at ha
  have hatt : Attachments (gDetach s c p) := {
    slicer := (hattached_of_ne 0 hc0.symm).trans h.slicer
    attached := fun a q hq => by
      by_cases hac : a = c
      · rw [hac, hattached] at hq
        cases hq
      · rw [hattached_of_ne a hac] at hq; exact h.attached a q hq
    mem := fun q hq a => by
      by_cases hqp : q = p
      · subst hqp
        rw [hself]
        dsimp only
        rw [(h.nodup q hq).mem_erase_iff, h.mem q hq]
        by_cases hac : a = c
        · rw [hac, hattached]; exact ⟨fun hand => absurd rfl hand.1, fun heq => by cases heq⟩
        · rw [hattached_of_ne a hac, and_iff_right hac]
      · rw [hother q hqp, h.mem q hq]
        by_cases hac : a = c
        · rw [hac, hattached, hc]
          exact ⟨fun heq => absurd (some.inj heq).symm hqp, fun heq => by cases heq⟩
        · rw [hattached_of_ne a hac]
    nodup := fun q hq => by
      by_cases hqp : q = p
      · subst hqp
        rw [hself]; exact (h.nodup q hq).erase c
      · rw [hother q hqp]; exact h.nodup q hq
    nonneg := h.nonneg
    sums := fun q hq m => by
      by_cases hqp : q = p
      · subst hqp
        have hsum := sum_map_erase ((h.mem q hq c).2 hc) fun a => s.counts a m
        have hold := h.sums q hq m
        have hcm : s.counts c m = 0 := congrFun hzero m
        rw [hself, hcounts]
        dsimp only at hsum ⊢; omega
      · rw [hother q hqp, hcounts]; exact h.sums q hq m
    excl := fun q hq a ha b hb hba => h.excl q hq a (hsub q a ha) b (hsub q b hb) hba }
  refine h.of_providers hatt rfl rfl rfl rfl fun q _ => ?_
  by_cases hqp : q = p
  · rw [hqp, hself]; exact ⟨rfl, rfl, rfl⟩
  · rw [hother q hqp]; exact ⟨rfl, rfl, rfl⟩

/-- A call of a consumer of the medium that fails changes nothing. -/
theorem mediumCall_fails (hc : s.attached c = some 0) {foot : Bool}
    (hrun : gAccessRel (lower answer) foot s c d = some (err, t)) (herr : err ≠ 0) : t = s := by
  obtain ⟨-, ⟨-, hts | hacc⟩ | ⟨rfl, -⟩⟩ := gAccessRel_cases hc hrun
  · exact hts
  · exact (Prod.mk.inj (some.inj hacc)).2.symm
  · exact absurd rfl herr

/-- A consumer of the medium other than the slicer. -/
theorem mediumCall_inv (h : Inv s) (hfoot : s.foot = false) (hc0 : c ≠ 0)
    (hc : s.attached c = some 0)
    (hrun : gAccessRel (lower answer) s.foot s c d = some (err, t)) : Inv t := by
  obtain ⟨hpos, ⟨herr, -⟩ | ⟨rfl, htest, w, hacc, rfl⟩⟩ := gAccessRel_cases hc hrun
  · rw [mediumCall_fails hc hrun herr]; exact h
  · obtain ⟨-, rfl⟩ := Prod.mk.inj (some.inj hacc)
    rw [hfoot] at htest
    refine h.of_providers (addCounts_attachments h.toAttachments hc hpos htest) rfl rfl rfl
      (addCounts_counts_of_ne hc0.symm 0 d) fun q hq => ?_
    rw [addCounts_provider_of_ne hq]; exact ⟨rfl, rfl, rfl⟩

/-- A consumer of the medium that only closes does not fail. -/
theorem mediumCall_closes (hc : s.attached c = some 0) (foot : Bool) (hd : ∀ m, d m ≤ 0)
    (hpos : ∀ m, 0 ≤ s.counts c m + d m) :
    ∃ t, gAccessRel (lower 0) foot s c d = some (0, t) := by
  have hneg : ¬∃ m, s.counts c m + d m < 0 := fun ⟨m, hm⟩ => absurd (hpos m) (not_le.2 hm)
  refine ⟨s.addCounts c 0 d, ?_⟩
  rw [gAccessRel, hc]
  dsimp only
  rw [if_neg hneg, accessTest_of_nonpos _ _ _ hd, if_neg (not_not.2 rfl), lower]; rfl

theorem init_inv (nslice : ℕ) (error : Errno) (foot : Bool) : Inv (init nslice error foot) := by
  have hslot : ∀ u, (init nslice error foot).slot u = 0 := fun u => rfl
  have htotal : ∀ m, (init nslice error foot).total m = 0 := fun m =>
    Finset.sum_eq_zero fun u _ => congrFun (hslot u) m
  have hatt : Attachments (init nslice error foot) := {
    slicer := rfl
    attached := fun c p hc => by
      simp only [init] at hc ⊢
      split at hc
      · next h0 =>
        obtain rfl := some.inj hc
        subst h0; exact ⟨one_pos, one_pos⟩
      · cases hc
    mem := fun p hp c => by
      obtain rfl : p = 0 := Nat.lt_one_iff.1 hp
      simp [init]
    nodup := fun p hp => by
      obtain rfl : p = 0 := Nat.lt_one_iff.1 hp
      exact nodup_singleton 0
    nonneg := fun _ _ => le_rfl
    sums := fun p hp m => by
      obtain rfl : p = 0 := Nat.lt_one_iff.1 hp
      rfl
    excl := fun _ _ _ _ _ _ _ hand => lt_irrefl _ hand.1 }
  have hslices : Slices (init nslice error foot) := {
    provider := fun u _ p hp => by cases hp
    length := fun u _ => ⟨fun _ => rfl, fun _ => rfl⟩
    orphan := fun p hp hp0 => absurd (Nat.lt_one_iff.1 hp) hp0
    apart := fun u _ v _ _ _ => Apart.zero_left _ }
  have hlower : Lower (init nslice error foot) := {
    r := (htotal .r).symm
    w := (htotal .w).symm
    e := by
      rw [if_pos htotal, htotal]
      rfl }
  exact { hatt, hslices, hlower with }

/-! ## Runs -/

/-- A consumer that calls is attached to a provider: that of the medium or that of a slice. -/
theorem accessRel_attached (hrun : accessRel answer s c d = some (err, t)) :
    (s.attached c = some 0 ∧ gAccessRel (lower answer) s.foot s c d = some (err, t)) ∨
      ∃ p, s.attached c = some p ∧ p ≠ 0 ∧
        gAccessRel (gSliceAccess answer) false s c d = some (err, t) := by
  rw [accessRel] at hrun
  split at hrun
  · next hc => exact .inl ⟨hc, hrun⟩
  · next hne =>
    cases hc : s.attached c with
    | none =>
      rw [gAccessRel, hc] at hrun
      cases hrun
    | some p => exact .inr ⟨p, rfl, fun hp0 => hne (hc.trans (congrArg some hp0)), hrun⟩

theorem gSliceConfig_fails (herr : (gSliceConfig s idx offset length).1 ≠ 0) :
    (gSliceConfig s idx offset length).2 = s := by
  rw [gSliceConfig] at herr ⊢
  dsimp only at herr ⊢
  split_ifs at herr ⊢
  · rfl
  · rfl
  · rfl
  · split at herr
    · exact absurd rfl herr
    · exact absurd rfl herr
  · split at herr
    · exact absurd rfl herr
    · exact absurd rfl herr

/-- A call that fails changes nothing. -/
theorem step_fails (h : Inv s) (hstep : step s op = some (t, err)) (herr : err ≠ 0) : t = s := by
  cases op with
  | access c d answer =>
    simp only [step] at hstep
    split at hstep
    · cases hstep
    · obtain ⟨⟨e, w⟩, hrun, heq⟩ := map_eq_some_iff.1 hstep
      obtain ⟨rfl, rfl⟩ := Prod.mk.inj heq
      rcases accessRel_attached hrun with ⟨hc, hrun⟩ | ⟨p, hc, -, hrun⟩
      · exact mediumCall_fails hc hrun herr
      · exact sliceCall_fails h hc hrun herr
  | config idx offset length =>
    obtain ⟨rfl, rfl⟩ := Prod.mk.inj (some.inj hstep)
    exact gSliceConfig_fails herr
  | «attach» p =>
    simp only [step] at hstep
    split at hstep
    · obtain ⟨-, rfl⟩ := Prod.mk.inj (some.inj hstep)
      exact absurd rfl herr
    · cases hstep
  | detach c =>
    simp only [step] at hstep
    split at hstep
    · cases hstep
    · split at hstep
      · cases hstep
      · obtain ⟨-, rfl⟩ := Prod.mk.inj (some.inj hstep)
        exact absurd rfl herr

theorem step_inv (h : Inv s) (hcare : Careful s op) (hstep : step s op = some (t, err)) :
    Inv t := by
  cases op with
  | access c d answer =>
    simp only [step] at hstep
    split at hstep
    · cases hstep
    · next hc0 =>
      obtain ⟨⟨e, w⟩, hrun, heq⟩ := map_eq_some_iff.1 hstep
      obtain ⟨rfl, rfl⟩ := Prod.mk.inj heq
      rcases accessRel_attached hrun with ⟨hc, hrun⟩ | ⟨p, hc, hp0, hrun⟩
      · exact mediumCall_inv h hcare hc0 hc hrun
      · exact sliceCall_inv h hcare hc0 hc hp0 hrun
  | config idx offset length =>
    obtain ⟨rfl, rfl⟩ := Prod.mk.inj (some.inj hstep)
    exact config_inv h hcare
  | «attach» p =>
    simp only [step] at hstep
    split at hstep
    · next hp =>
      obtain ⟨rfl, rfl⟩ := Prod.mk.inj (some.inj hstep)
      exact attach_inv h hp
    · cases hstep
  | detach c =>
    simp only [step] at hstep
    cases hc : s.attached c with
    | none =>
      rw [hc] at hstep
      cases hstep
    | some p =>
      rw [hc] at hstep
      dsimp only at hstep
      split at hstep
      · cases hstep
      · next hor =>
        obtain ⟨hc0, hzero⟩ := not_or.1 hor
        obtain ⟨rfl, rfl⟩ := Prod.mk.inj (some.inj hstep)
        exact detach_inv h hc hc0 (not_not.1 hzero)

/-- A call that only closes, of any consumer but that of the slicer. -/
theorem step_closes (h : Inv s) (hc0 : c ≠ 0) (hc : s.attached c = some p) (hd : ∀ m, d m ≤ 0)
    (hpos : ∀ m, 0 ≤ s.counts c m + d m) : ∃ t, step s (.access c d 0) = some (t, 0) := by
  have hcall : ∃ t, accessRel 0 s c d = some (0, t) := by
    rw [accessRel]
    by_cases hp0 : p = 0
    · rw [hp0] at hc
      rw [if_pos hc]; exact mediumCall_closes hc s.foot hd hpos
    · rw [if_neg fun heq => hp0 (some.inj (hc.symm.trans heq))]
      exact sliceCall_closes h hc hp0 hd hpos
  obtain ⟨t, ht⟩ := hcall
  refine ⟨t, ?_⟩
  rw [step, if_neg hc0, ht]; rfl

/-- The access counts are right, slices that overlap are apart, and closing does not fail. -/
structure Accounted (s : State) : Prop where
  sums : ∀ p < s.nprovider, (s.provider p).consumers.Nodup ∧
    (∀ c, c ∈ (s.provider p).consumers ↔ s.attached c = some p) ∧
      ∀ m, (s.provider p).counts m = ((s.provider p).consumers.map fun c => s.counts c m).sum
  excl : ∀ p c d, s.attached c = some p → s.attached d = some p → d ≠ c →
    ¬(0 < s.counts c .e ∧ 0 < s.counts d .w)
  apart : ∀ u < s.nslice, ∀ v < s.nslice, u ≠ v → (s.slices u).Overlaps (s.slices v) →
    ¬(0 < s.slot u .e ∧ 0 < s.slot v .w) ∧ ¬(0 < s.slot u .w ∧ 0 < s.slot v .e)
  slicer : s.counts 0 .r = s.total .r ∧ s.counts 0 .w = s.total .w ∧
    s.counts 0 .e = s.total .e + if ∃ u < s.nslice, ∃ m, s.slot u m ≠ 0 then 1 else 0
  fails : ∀ op t err, step s op = some (t, err) → err ≠ 0 → t = s
  closes : ∀ c p d, c ≠ 0 → s.attached c = some p → (∀ m, d m ≤ 0) →
    (∀ m, 0 ≤ s.counts c m + d m) → ∃ t, step s (.access c d 0) = some (t, 0)

theorem Inv.accounted (h : Inv s) : Accounted s := by
  have hopen : (∀ m, s.total m = 0) ↔ ¬∃ u < s.nslice, ∃ m, s.slot u m ≠ 0 := by
    constructor
    · rintro hzero ⟨u, hu, m, hne⟩
      have hle := h.slot_le_total hu m
      have hpos := h.slot_nonneg hu m
      rw [hzero] at hle; exact hne (le_antisymm hle hpos)
    · intro hnone m
      refine Finset.sum_eq_zero fun u hu => ?_
      by_contra hne
      exact hnone ⟨u, Finset.mem_range.1 hu, m, hne⟩
  exact {
    sums := fun p hp => ⟨h.nodup p hp, h.mem p hp, h.sums p hp⟩
    excl := fun p c d hc hd hdc => by
      have hp := (h.attached c p hc).1
      exact h.excl p hp c ((h.mem p hp c).2 hc) d ((h.mem p hp d).2 hd) hdc
    apart := h.apart
    slicer := by
      refine ⟨h.r, h.w, ?_⟩
      rw [h.e]
      by_cases hzero : ∀ m, s.total m = 0
      · rw [if_pos hzero, if_neg (hopen.1 hzero)]
      · rw [if_neg hzero, if_pos (not_not.1 fun hnone => hzero (hopen.2 hnone))]
    fails := fun op t err hstep herr => step_fails h hstep herr
    closes := fun c p d hc0 hc hd hpos => step_closes h hc0 hc hd hpos }

end FreeBSD.GeomSlice
