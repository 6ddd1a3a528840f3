import FreeBSD.Geom.GeomSlice

/-!
# The access counts of a slicer, `geom/geom_slice.c`
-/

namespace FreeBSD.GeomSlice

open List Option
open scoped BigOperators

variable {s t : State} {c : Cid} {p q : Pid} {d : Counts} {u v : ℕ} {err answer : Errno} {m : Mode}

/-! ## Sums -/

theorem sum_eq_add_of_update {ι : Type*} [DecidableEq ι] {S : Finset ι} {i : ι} (hi : i ∈ S)
    {f g : ι → ℤ} (h : ∀ j ∈ S, j ≠ i → g j = f j) : ∑ j ∈ S, g j = ∑ j ∈ S, f j + (g i - f i) := by
  have hrest : ∑ j ∈ S.erase i, g j = ∑ j ∈ S.erase i, f j :=
    Finset.sum_congr rfl fun j hj => h j (Finset.mem_of_mem_erase hj) (Finset.ne_of_mem_erase hj)
  rw [← Finset.add_sum_erase S g hi, ← Finset.add_sum_erase S f hi, hrest]; ring

theorem sum_map_erase {l : List Cid} (hc : c ∈ l) (f : Cid → ℤ) :
    (l.map f).sum = f c + ((l.erase c).map f).sum := by
  have hperm := ((perm_cons_erase hc).map f).sum_eq
  rwa [map_cons, sum_cons] at hperm

/-- The others of the list have at least what one of them has. -/
theorem le_sum_sub {l : List Cid} {f : Cid → ℤ} (hf : ∀ c, 0 ≤ f c) {c d : Cid} (hc : c ∈ l)
    (hd : d ∈ l) (hcd : d ≠ c) : f d ≤ (l.map f).sum - f c := by
  have hmem : d ∈ l.erase c := (mem_erase_of_ne hcd).2 hd
  have hsum : ∀ l : List Cid, 0 ≤ (l.map f).sum := fun l =>
    sum_nonneg fun x hx => by
      obtain ⟨a, -, rfl⟩ := mem_map.1 hx
      exact hf a
  have hrest := hsum ((l.erase c).erase d)
  rw [sum_map_erase hc, sum_map_erase hmem]; omega

/-! ## Invariant -/

/-- The counts of the provider of a slice. -/
def State.slot (s : State) (u : ℕ) : Counts :=
  match (s.slices u).provider with
  | some p => (s.provider p).counts
  | none => 0

/-- The sum over the slices. -/
def State.total (s : State) (m : Mode) : ℤ := ∑ u ∈ Finset.range s.nslice, s.slot u m

/-- Of two slices that overlap, neither is open exclusively while the other is open for writing. -/
def Apart (a b : Counts) : Prop := ¬(0 < a .e ∧ 0 < b .w) ∧ ¬(0 < a .w ∧ 0 < b .e)

/-- The consumers are attached to the providers, and the counts of a provider are their sums. -/
structure Attachments (s : State) : Prop where
  slicer : s.attached 0 = some 0
  attached : ∀ c p, s.attached c = some p → p < s.nprovider ∧ c < s.nconsumer
  mem : ∀ p < s.nprovider, ∀ c, c ∈ (s.provider p).consumers ↔ s.attached c = some p
  nodup : ∀ p < s.nprovider, (s.provider p).consumers.Nodup
  nonneg : ∀ c m, 0 ≤ s.counts c m
  sums : ∀ p < s.nprovider, ∀ m,
    (s.provider p).counts m = ((s.provider p).consumers.map fun c => s.counts c m).sum
  excl : ∀ p < s.nprovider, ∀ c ∈ (s.provider p).consumers, ∀ d ∈ (s.provider p).consumers,
    d ≠ c → ¬(0 < s.counts c .e ∧ 0 < s.counts d .w)

/-- The slices and their providers. -/
structure Slices (s : State) : Prop where
  provider : ∀ u < s.nslice, ∀ p, (s.slices u).provider = some p →
    p ≠ 0 ∧ p < s.nprovider ∧ (s.provider p).index = u
  length : ∀ u < s.nslice, (s.slices u).length = 0 ↔ (s.slices u).provider = none
  orphan : ∀ p < s.nprovider, p ≠ 0 → (s.provider p).index < s.nslice ∧
    ((s.slices (s.provider p).index).provider ≠ some p →
      (s.provider p).counts = 0 ∧ (s.provider p).error ≠ 0)
  apart : ∀ u < s.nslice, ∀ v < s.nslice, u ≠ v → (s.slices u).Overlaps (s.slices v) →
    Apart (s.slot u) (s.slot v)

/-- The consumer of the slicer has the counts of the slices, and one exclusive count more while any
    is open. -/
structure Lower (s : State) : Prop where
  r : s.counts 0 .r = s.total .r
  w : s.counts 0 .w = s.total .w
  e : s.counts 0 .e = s.total .e + if ∀ m, s.total m = 0 then 0 else 1

structure Inv (s : State) : Prop extends Attachments s, Slices s, Lower s

theorem Apart.symm {a b : Counts} (h : Apart a b) : Apart b a :=
  ⟨fun hab => h.2 hab.symm, fun hab => h.1 hab.symm⟩

theorem Attachments.counts_nonneg (h : Attachments s) (hp : p < s.nprovider) (m : Mode) :
    0 ≤ (s.provider p).counts m := by
  rw [h.sums p hp m]
  refine sum_nonneg fun x hx => ?_
  obtain ⟨c, -, rfl⟩ := mem_map.1 hx
  exact h.nonneg c m

theorem Inv.slot_nonneg (h : Inv s) (hu : u < s.nslice) (m : Mode) : 0 ≤ s.slot u m := by
  rw [State.slot]
  cases hp : (s.slices u).provider with
  | none => exact le_rfl
  | some p => exact h.counts_nonneg (h.provider u hu p hp).2.1 m

/-! ## Counts that change -/

@[simp] theorem addCounts_counts_self (s : State) (c : Cid) (p : Pid) (d : Counts) :
    (s.addCounts c p d).counts c = s.counts c + d := by
  simp [State.addCounts]

theorem addCounts_counts_of_ne {c' : Cid} (h : c' ≠ c) (p : Pid) (d : Counts) :
    (s.addCounts c p d).counts c' = s.counts c' := by
  simp [State.addCounts, h]

@[simp] theorem addCounts_provider_self (s : State) (c : Cid) (p : Pid) (d : Counts) :
    (s.addCounts c p d).provider p =
      { s.provider p with counts := (s.provider p).counts + d } := by
  simp [State.addCounts]

theorem addCounts_provider_of_ne (h : q ≠ p) (c : Cid) (d : Counts) :
    (s.addCounts c p d).provider q = s.provider q := by
  simp [State.addCounts, h]

theorem addCounts_consumers (s : State) (c : Cid) (p q : Pid) (d : Counts) :
    ((s.addCounts c p d).provider q).consumers = (s.provider q).consumers := by
  by_cases hq : q = p
  · rw [hq, addCounts_provider_self]
  · rw [addCounts_provider_of_ne hq]

/-- What `g_access_rel` tests keeps exclusive access apart from writing. -/
theorem addCounts_attachments (h : Attachments s) (hc : s.attached c = some p)
    (hd : ∀ m, 0 ≤ s.counts c m + d m)
    (htest : accessTest false (s.provider p) (s.counts c) d = 0) :
    Attachments (s.addCounts c p d) := by
  have hp := (h.attached c p hc).1
  have hmem := (h.mem p hp c).2 hc
  have hcons := addCounts_consumers s c p
  have hcounts : ∀ c' m, (s.addCounts c p d).counts c' m =
      s.counts c' m + if c' = c then d m else 0 := fun c' m => by
    by_cases hcc : c' = c
    · rw [if_pos hcc, hcc, addCounts_counts_self]; rfl
    · rw [if_neg hcc, addCounts_counts_of_ne hcc, add_zero]
  exact {
    slicer := h.slicer
    attached := h.attached
    mem := fun q hq c' => by rw [hcons]; exact h.mem q hq c'
    nodup := fun q hq => by rw [hcons]; exact h.nodup q hq
    nonneg := fun c' m => by
      by_cases hcc : c' = c
      · rw [hcc, addCounts_counts_self]; exact hd m
      · rw [addCounts_counts_of_ne hcc]; exact h.nonneg c' m
    sums := fun q hq m => by
      have hold := h.sums q hq m
      have hsame : ∀ l : List Cid, c ∉ l →
          (l.map fun c' => (s.addCounts c p d).counts c' m).sum =
            (l.map fun c' => s.counts c' m).sum := fun l hl => by
        refine congrArg List.sum (map_congr_left fun c' hc' => ?_)
        have hcc : c' ≠ c := fun hcc => hl (hcc ▸ hc')
        rw [addCounts_counts_of_ne hcc]
      rw [hcons]
      by_cases hqp : q = p
      · subst hqp
        have hnot : c ∉ (s.provider q).consumers.erase c :=
          List.Nodup.not_mem_erase (h.nodup q hq)
        have hsum := sum_map_erase hmem fun c' => s.counts c' m
        rw [addCounts_provider_self, sum_map_erase hmem, hsame _ hnot, addCounts_counts_self]
        have hadd : ((s.provider q).counts + d) m = (s.provider q).counts m + d m := rfl
        have hadd' : (s.counts c + d) m = s.counts c m + d m := rfl
        dsimp only at hsum ⊢; omega
      · have hnot : c ∉ (s.provider q).consumers := fun hmem => by
          have hcq := (h.mem q hq c).1 hmem
          rw [hc] at hcq; exact hqp (some.inj hcq).symm
        rw [addCounts_provider_of_ne hqp, hsame _ hnot, hold]
    excl := fun q hq a ha b hb hba => by
      rw [hcons] at ha hb
      have hold := h.excl q hq a ha b hb hba
      by_cases hqp : q = p
      · subst hqp
        have hle : ∀ {b}, b ∈ (s.provider q).consumers → b ≠ c → ∀ m,
            s.counts b m ≤ (s.provider q).counts m - s.counts c m := fun {b} hb hbc m => by
          rw [h.sums q hq m]; exact le_sum_sub (fun c' => h.nonneg c' m) hmem hb hbc
        rw [accessTest] at htest
        simp only [Bool.false_eq_true, if_false] at htest
        rw [hcounts, hcounts]
        by_cases hac : a = c
        · -- it is the one with exclusive access
          have hbc : b ≠ c := fun hbc => hba (hbc.trans hac.symm)
          have hw := hle hb hbc .w
          rw [if_pos hac, if_neg hbc, add_zero]
          rintro ⟨he, hbw⟩
          split at htest
          · exact absurd htest (by decide)
          · next hnot =>
            rw [hac] at hold he; exact hold ⟨by omega, hbw⟩
        · rw [if_neg hac, add_zero]
          rintro ⟨he, hbw⟩
          by_cases hbc : b = c
          · have hae := hle ha hac .e
            rw [if_pos hbc] at hbw
            split at htest
            · exact absurd htest (by decide)
            · split at htest
              · exact absurd htest (by decide)
              · next hnot =>
                rw [hbc] at hold hbw; exact hold ⟨he, by omega⟩
          · rw [if_neg hbc, add_zero] at hbw; exact hold ⟨he, hbw⟩
      · have hne : ∀ {b}, b ∈ (s.provider q).consumers → b ≠ c := fun {b} hb hbc => by
          have hcq := (h.mem q hq b).1 hb
          rw [hbc, hc] at hcq; exact hqp (some.inj hcq).symm
        rw [addCounts_counts_of_ne (hne ha), addCounts_counts_of_ne (hne hb)]
        exact hold }

/-! ## Calls -/

/-- A call of `g_access_rel`: it fails, or what the access method did is counted. -/
theorem gAccessRel_cases {access : Access} {foot : Bool} (hc : s.attached c = some p)
    (hrun : gAccessRel access foot s c d = some (err, t)) :
    (∀ m, 0 ≤ s.counts c m + d m) ∧
      (err ≠ 0 ∧ (t = s ∨ access s p d = some (err, t)) ∨
        err = 0 ∧ accessTest foot (s.provider p) (s.counts c) d = 0 ∧
          ∃ u, access s p d = some (0, u) ∧ t = u.addCounts c p d) := by
  rw [gAccessRel, hc] at hrun
  dsimp only at hrun
  split at hrun
  · cases hrun
  · next hneg =>
    refine ⟨fun m => not_lt.1 fun hlt => hneg ⟨m, hlt⟩, ?_⟩
    split at hrun
    · next htest =>
      obtain ⟨rfl, rfl⟩ := Prod.mk.inj (some.inj hrun)
      exact .inl ⟨htest, .inl rfl⟩
    · next htest =>
      cases hacc : access s p d with
      | none => simp [hacc] at hrun
      | some r =>
        obtain ⟨e, u⟩ := r
        rw [hacc] at hrun
        obtain ⟨rfl, rfl⟩ := Prod.mk.inj (some.inj hrun)
        by_cases he : e = 0
        · rw [if_pos he]
          subst he; exact .inr ⟨rfl, not_not.1 htest, u, rfl, rfl⟩
        · rw [if_neg he]; exact .inl ⟨he, .inr rfl⟩

/-- Nothing is refused that closes. -/
theorem accessTest_of_nonpos (foot : Bool) (pp : Provider) (cp : Counts) (hd : ∀ m, d m ≤ 0) :
    accessTest foot pp cp d = 0 := by
  have hr := hd .r
  have hw := hd .w
  have he := hd .e
  rw [accessTest]
  split
  · rfl
  · rw [if_neg (by omega), if_neg (by omega), if_neg (by omega)]

/-- With `d` more, the provider keeps apart from the slice. -/
def FitsOne (s : State) (p : Pid) (d : Counts) (u : ℕ) : Prop :=
  u ≠ (s.provider p).index → (s.slices (s.provider p).index).Overlaps (s.slices u) →
    Apart ((s.provider p).counts + d) (s.slot u)

/-- The loop over the slices refuses what is not apart. -/
theorem overlapLoop_eq (hs : ∀ u < s.nslice, (s.slices u).provider = none →
    (s.slices u).length = 0) {us : List ℕ} (hus : ∀ u ∈ us, u < s.nslice) :
    overlapLoop s p d us = some 0 ∧ (∀ u ∈ us, FitsOne s p d u) ∨
      overlapLoop s p d us = some EPERM ∧ ¬∀ u ∈ us, FitsOne s p d u := by
  induction us with
  | nil => exact .inl ⟨rfl, fun u hu => absurd hu not_mem_nil⟩
  | cons u us ih =>
    have ih := ih fun v hv => hus v (mem_cons_of_mem u hv)
    -- a slice that is passed over, after which the loop goes on
    have hpass (heq : overlapLoop s p d (u :: us) = overlapLoop s p d us)
        (hu : FitsOne s p d u) :
        overlapLoop s p d (u :: us) = some 0 ∧ (∀ v ∈ u :: us, FitsOne s p d v) ∨
          overlapLoop s p d (u :: us) = some EPERM ∧ ¬∀ v ∈ u :: us, FitsOne s p d v := by
      rw [heq, forall_mem_cons, and_iff_right hu]; exact ih
    by_cases hover : u ≠ (s.provider p).index ∧
        (s.slices (s.provider p).index).Overlaps (s.slices u)
    · cases hp2 : (s.slices u).provider with
      | none => exact absurd (hs u (hus u mem_cons_self) hp2) hover.2.1
      | some p2 =>
        have hslot : s.slot u = (s.provider p2).counts := by rw [State.slot, hp2]
        by_cases hapart : Apart ((s.provider p).counts + d) (s.slot u)
        · refine hpass ?_ fun _ _ => hapart
          rw [hslot] at hapart
          have h1 : ¬((s.provider p).counts .w + d .w > 0 ∧ (s.provider p2).counts .e > 0) :=
            hapart.2
          have h2 : ¬((s.provider p).counts .e + d .e > 0 ∧ (s.provider p2).counts .w > 0) :=
            hapart.1
          rw [overlapLoop, if_neg (not_not.2 hover), hp2]
          dsimp only
          rw [if_neg h1, if_neg h2]
        · refine .inr ⟨?_, fun hall =>
            hapart (hall u mem_cons_self hover.1 hover.2)⟩
          rw [hslot, Apart, not_and_or, not_not, not_not] at hapart
          rw [overlapLoop, if_neg (not_not.2 hover), hp2]
          dsimp only
          split
          · rfl
          · next h1 => exact if_pos (hapart.resolve_right h1)
    · refine hpass ?_ fun hne hov => absurd ⟨hne, hov⟩ hover
      rw [overlapLoop]; exact if_pos hover

/-- What the consumer of the slicer has after the call. -/
theorem extra_spec {cp : Counts} {R W E : ℤ} (hR : cp .r = R) (hW : cp .w = W)
    (hE : cp .e = E + if R = 0 ∧ W = 0 ∧ E = 0 then 0 else 1) (hE0 : 0 ≤ E)
    (hR1 : 0 ≤ R + d .r) (hW1 : 0 ≤ W + d .w) (hE1 : 0 ≤ E + d .e) :
    (cp + extra cp d) .r = R + d .r ∧ (cp + extra cp d) .w = W + d .w ∧
      (cp + extra cp d) .e = E + d .e +
        if R + d .r = 0 ∧ W + d .w = 0 ∧ E + d .e = 0 then 0 else 1 := by
  have hr : (extra cp d) .r = d .r := rfl
  have hw : (extra cp d) .w = d .w := rfl
  have he : (extra cp d) .e =
      let de := if cp .r = 0 ∧ cp .w = 0 ∧ cp .e = 0 then d .e + 1 else d .e
      if cp .r + d .r = 0 ∧ cp .w + d .w = 0 ∧ cp .e + de = 1 then de - 1 else de := rfl
  refine ⟨?_, ?_, ?_⟩
  · rw [Pi.add_apply, hr, hR]
  · rw [Pi.add_apply, hw, hW]
  · rw [Pi.add_apply, he, hR, hW, hE]
    dsimp only
    split_ifs <;> omega

/-- The call for a slice opens the medium no wider than the call itself. -/
theorem extra_nonpos {cp : Counts} (hd : ∀ m, d m ≤ 0)
    (hclosed : cp .r = 0 ∧ cp .w = 0 ∧ cp .e = 0 → ∀ m, d m = 0) (m : Mode) :
    extra cp d m ≤ 0 := by
  cases m with
  | r => exact hd .r
  | w => exact hd .w
  | e =>
    have he : (extra cp d) .e =
        let de := if cp .r = 0 ∧ cp .w = 0 ∧ cp .e = 0 then d .e + 1 else d .e
        if cp .r + d .r = 0 ∧ cp .w + d .w = 0 ∧ cp .e + de = 1 then de - 1 else de := rfl
    rw [he]
    have hde := hd .e
    dsimp only
    by_cases hcp : cp .r = 0 ∧ cp .w = 0 ∧ cp .e = 0
    · have hzero := hclosed hcp
      rw [if_pos hcp, if_pos ⟨by rw [hcp.1, hzero]; rfl, by rw [hcp.2.1, hzero]; rfl,
        by rw [hcp.2.2, hzero]; rfl⟩, hzero]
      decide
    · rw [if_neg hcp]
      split
      · omega
      · exact hde

end FreeBSD.GeomSlice
