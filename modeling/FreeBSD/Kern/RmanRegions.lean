import FreeBSD.Kern.RmanRelease

/-!
# The managed regions

The entries of a manager built by `rman_init` and `rman_manage_region` stay
ordered, disjoint and non-empty, and cover exactly the managed regions, for as
long as no reservation carves a piece out of an entry that does not lie inside
it, and no released entry is merged with a list neighbour that it does not
touch (`Op.InBounds`). The code checks neither.

Results:
* `Built.inv`: the invariant of a manager that has been built.
* `segs_covered_eq_regions`: whole runs.
-/

namespace FreeBSD.SubrRman

open FreeBSD.Lib.Segments List Option

/-! ## Building a manager -/

/-- The managers that `rman_init` and calls of `rman_manage_region` on disjoint regions build,
    with the regions whose allocation succeeded. -/
inductive Built : Rman → List (ℕ × ℕ) → Prop
  | init : Built rmanInit []
  | manage {rm : Rman} {regions : List (ℕ × ℕ)} (start end' : BitVec 64) (malloc : Bool)
      (hb : Built rm regions) (hle : start ≤ end')
      (hdisj : ∀ g ∈ regions, end'.toNat < g.1 ∨ g.2 < start.toNat) :
      Built (rmanManageRegion rm start end' malloc)
        (if malloc then (start.toNat, end'.toNat) :: regions else regions)

theorem insertRegion_split (rm : Rman) (r : ℕ) (l : List ℕ) :
    ∃ l₁ l₂, l = l₁ ++ l₂ ∧ insertRegion rm r l = l₁ ++ r :: l₂ ∧
      (∀ a ∈ l₁, (rm.res a).rEnd < (rm.res r).rStart) ∧
      ∀ s ∈ l₂.head?, ¬ (rm.res s).rEnd < (rm.res r).rStart := by
  induction l with
  | nil => exact ⟨[], [], rfl, rfl, by simp, by simp⟩
  | cons s l ih =>
    by_cases h : (rm.res s).rEnd < (rm.res r).rStart
    · obtain ⟨l₁, l₂, h1, h2, h3, h4⟩ := ih
      refine ⟨s :: l₁, l₂, by rw [h1]; rfl, by rw [insertRegion, if_pos h, h2]; rfl, ?_, h4⟩
      intro a ha
      rcases mem_cons.1 ha with rfl | ha
      · exact h
      · exact h3 a ha
    · refine ⟨[], s :: l, rfl, by rw [insertRegion, if_neg h]; rfl, by simp, ?_⟩
      simpa using h

theorem inv_rmanInit : Inv { rm := rmanInit, held := [] } where
  ordered := ordered_nil
  nodup := nodup_nil
  entry := by simp [rmanInit]
  held_nodup := nodup_nil
  held := by simp

theorem Inv.manage {rm : Rman} (hI : Inv { rm := rm, held := [] }) {start end' : BitVec 64}
    (hle : start ≤ end')
    (hdisj : ∀ a ∈ rm.segs, end'.toNat < a.1 ∨ a.2 < start.toNat) :
    Inv { rm := rmanManageRegion rm start end' true, held := [] } ∧
      covered (rmanManageRegion rm start end' true).segs =
        Set.Icc start.toNat end'.toNat ∪ covered rm.segs := by
  set rm' := rmanManageRegion rm start end' true with hrm'
  have hlt : ∀ a ∈ rm.rmList, a < rm.brk := fun a ha => (hI.entry a ha).lt_brk
  have hnew : (rm'.res rm.brk).seg = (start.toNat, end'.toNat) ∧
      (rm'.res rm.brk).rSharehead = none := by
    simp [hrm', rmanManageRegion, Rman.alloc, Resource.seg]
  have hold : ∀ x, x ≠ rm.brk → rm'.res x = rm.res x := fun x hx => by
    simp [hrm', rmanManageRegion, Rman.alloc, hx]
  let r : Resource := { rSharehead := none, rStart := start, rEnd := end', rFlags := 0, rDev := 0 }
  obtain ⟨l₁, l₂, h1, h2, h3, h4⟩ := insertRegion_split (rm.alloc r).1 rm.brk rm.rmList
  have hs : Splice rm rm' l₁ [] [rm.brk] l₂ := {
    before := by rw [h1]; simp
    after := by rw [append_assoc]; exact h2
    brk := Nat.le_succ _
    res := fun x hx _ => hold x (by omega)
    list := fun _ _ _ => rfl
    new := by simp
    nodup := by simp
    entry := by
      intro x hx
      rw [mem_singleton] at hx
      rw [hx]
      exact EntryOk.of_unshared (Nat.lt_succ_self _) hnew.2 }
  have hsegs := hs.segs (s := ⟨rm, []⟩) hI
  have hord : Ordered rm.segs := hI.ordered
  have hrs : rm.segs = (l₁.map fun a => (rm.res a).seg) ++ l₂.map fun a => (rm.res a).seg := by
    rw [Rman.segs, h1, map_append]
  have hord' := hord
  rw [hrs, ordered_append] at hord'
  obtain ⟨ho₁, ho₂, ho₁₂⟩ := hord'
  -- the new region lies between the entries of `l₁` and those of `l₂`
  have hres : ∀ x ∈ rm.rmList, (rm.alloc r).1.res x = rm.res x := fun x hx => by
    have := hlt x hx
    simp [Rman.alloc, show x ≠ rm.brk by omega]
  have hself : (rm.alloc r).1.res rm.brk = r := by simp [Rman.alloc]
  have hbefore : ∀ a ∈ l₁, (rm.res a).seg.2 < start.toNat := by
    intro a ha
    have := h3 a ha
    rw [hres a (by simp [h1, ha]), hself] at this
    exact this
  have hafter : ∀ b ∈ l₂.map fun a => (rm.res a).seg, end'.toNat < b.1 := by
    cases l₂ with
    | nil => simp
    | cons c l₂ =>
      have hc : end'.toNat < (rm.res c).seg.1 := by
        have hnot := h4 c (by simp)
        rw [hres c (by simp [h1]), hself] at hnot
        refine (hdisj (rm.res c).seg (mem_map.2 ⟨c, by simp [h1], rfl⟩)).resolve_right ?_
        exact hnot
      rw [map_cons] at ho₂ ⊢
      obtain ⟨hcle, hclt, -⟩ := ordered_cons.1 ho₂
      intro b hb
      rcases mem_cons.1 hb with rfl | hb
      · exact hc
      · exact hc.trans (lt_of_le_of_lt hcle (hclt b hb))
  refine ⟨⟨?_, hs.list_nodup (s := ⟨rm, []⟩) hI, ?_, nodup_nil, by simp⟩, ?_⟩
  · show Ordered rm'.segs
    rw [hsegs, map_singleton, hnew.1, append_assoc, singleton_append]
    refine ordered_append.2 ⟨ho₁, ordered_cons.2 ⟨hle, hafter, ho₂⟩, ?_⟩
    intro a ha b hb
    rcases mem_cons.1 hb with rfl | hb
    · obtain ⟨x, hx, rfl⟩ := mem_map.1 ha
      exact hbefore x hx
    · exact ho₁₂ a ha b hb
  · intro x hx
    have hx' : x ∈ rm'.rmList := hx
    rw [hs.after] at hx'
    by_cases hM : x ∈ [rm.brk]
    · exact hs.entry x hM
    · refine (hs.rest (s := ⟨rm, []⟩) hI ?_).1
      simp only [mem_append] at hx' ⊢; tauto
  · rw [hsegs, hrs, map_singleton, hnew.1]
    simp only [covered_append, covered_cons, covered_nil, Set.union_empty]
    rw [Set.union_comm (covered _) (Set.Icc _ _), Set.union_assoc]

theorem Built.inv {rm : Rman} {regions : List (ℕ × ℕ)} (hb : Built rm regions) :
    Inv { rm := rm, held := [] } ∧ covered rm.segs = covered regions := by
  induction hb with
  | init => exact ⟨inv_rmanInit, rfl⟩
  | manage start end' malloc _ hle hdisj ih =>
    obtain ⟨hI, hcov⟩ := ih
    cases malloc with
    | false => exact ⟨hI, hcov⟩
    | true =>
      obtain ⟨hI', hcov'⟩ := hI.manage hle fun a ha =>
        apart_of_covered (s := (start.toNat, end'.toNat)) hcov.subset ha
          (hI.ordered.nonempty a ha) hle hdisj
      exact ⟨hI', by rw [hcov', hcov, if_pos rfl, covered_cons]⟩

theorem Built.unshared {rm : Rman} {regions : List (ℕ × ℕ)} (hb : Built rm regions) :
    ∀ e ∈ rm.rmList, (rm.res e).rSharehead = none := by
  induction hb with
  | init => simp [rmanInit]
  | @manage rm _ start end' malloc _ _ _ ih =>
    cases malloc with
    | false => exact ih
    | true =>
      let r : Resource :=
        { rSharehead := none, rStart := start, rEnd := end', rFlags := 0, rDev := 0 }
      obtain ⟨l₁, l₂, h1, h2, -, -⟩ := insertRegion_split (rm.alloc r).1 rm.brk rm.rmList
      intro e he
      have he' : e ∈ insertRegion (rm.alloc r).1 rm.brk rm.rmList := he
      show (Function.update rm.res rm.brk r e).rSharehead = none
      by_cases heb : e = rm.brk
      · rw [heb, Function.update_self]
      · rw [Function.update_of_ne heb]
        refine ih e ?_
        rw [h2] at he'
        rw [h1]
        simp only [mem_append, mem_cons] at he' ⊢; tauto

/-! ## The calls of the clients -/

/-- The condition under which a call keeps `rm_list` in order and the managed addresses on it. -/
def Op.InBounds (rm : Rman) : Op → Prop
  | .reserve q fuel malloc1 _ => CarvesInside rm q fuel malloc1
  | .release r => (rm.res r).rSharehead = none → MergesTouching rm r
  | .activate _ => True
  | .deactivate _ => True

theorem intRmanActivateResource_eq (rm : Rman) (r : ℕ) :
    (intRmanActivateResource rm r).2 = true ∨
      (intRmanActivateResource rm r).1 = rm ∧ ∃ h, (rm.res r).rSharehead = some h := by
  rcases intRmanActivateResource_cases rm r with h | ⟨h, hh⟩
  · exact .inl (by rw [h])
  · exact .inr ⟨by rw [h], hh⟩

/-- How `rman_reserve_resource_bound` ends: without a resource and with nothing changed, with a
    new resource that could not be activated and is released again, or with a resource, which is
    activated if that was asked for. -/
theorem rmanReserveResourceBound_cases {rm rm' : Rman} {q : Request} {fuel : ℕ}
    {malloc1 malloc2 : Bool} {o : Option ℕ}
    (h : rmanReserveResourceBound rm q fuel malloc1 malloc2 = some (rm', o)) :
    o = none ∧ reserveEntry rm q fuel malloc1 malloc2 = some (rm', none) ∨
    ∃ rm₁ rv, reserveEntry rm q fuel malloc1 malloc2 = some (rm₁, some rv) ∧
      (o = none ∧ (∃ h, (rm₁.res rv).rSharehead = some h) ∧
          intRmanReleaseResource rm₁ rv = some rm' ∨
        o = some rv ∧ (rm' = rm₁ ∨ rm' = (intRmanActivateResource rm₁ rv).1)) := by
  unfold rmanReserveResourceBound at h
  cases hr : reserveEntry rm q fuel malloc1 malloc2 with
  | none => simp [hr] at h
  | some p =>
    obtain ⟨rm₁, o₁⟩ := p
    cases o₁ with
    | none =>
      simp only [hr, Option.some.injEq, Prod.mk.injEq] at h
      obtain ⟨rfl, rfl⟩ := h
      exact .inl ⟨rfl, rfl⟩
    | some rv =>
      refine .inr ⟨rm₁, rv, rfl, ?_⟩
      simp only [hr] at h
      split_ifs at h with hact
      · cases ha : intRmanActivateResource rm₁ rv with
        | mk rm₂ b =>
          cases b with
          | true =>
            simp only [ha, Option.some.injEq, Prod.mk.injEq] at h
            exact .inr ⟨h.2.symm, .inr h.1.symm⟩
          | false =>
            rcases intRmanActivateResource_eq rm₁ rv with h' | ⟨h', hh⟩
            · rw [ha] at h'
              cases h'
            · rw [ha] at h'
              obtain rfl : rm₂ = rm₁ := h'
              simp only [ha, map_eq_some_iff, Prod.mk.injEq] at h
              obtain ⟨rm₃, h1, rfl, rfl⟩ := h
              exact .inl ⟨rfl, hh, h1⟩
      · simp only [Option.some.injEq, Prod.mk.injEq] at h; exact .inr ⟨h.2.symm, .inl h.1.symm⟩

theorem Inv.reserve {s : Sys} (hI : Inv s) {q : Request} {fuel : ℕ} {malloc1 malloc2 : Bool}
    {rm' : Rman} {o : Option ℕ} (hin : CarvesInside s.rm q fuel malloc1)
    (h : rmanReserveResourceBound s.rm q fuel malloc1 malloc2 = some (rm', o)) :
    Inv { rm := rm', held := (o.map fun r => (r, q.flags)).toList ++ s.held } ∧
      covered rm'.segs = covered s.rm.segs := by
  rcases rmanReserveResourceBound_cases h with ⟨rfl, hent⟩ |
    ⟨rm₁, rv, hent, ⟨rfl, ⟨h', hh⟩, hrel⟩ | ⟨rfl, hact⟩⟩
  · rcases reserveEntry_cases hI hent with ⟨rfl, -⟩ | ⟨_, _, _, h, -⟩ | ⟨_, _, h, -⟩
    · exact ⟨hI, rfl⟩
    · cases h
    · cases h
  · -- the resource is on a sharing list, which it leaves again
    obtain ⟨hI₁, hcov₁⟩ := hI.reserveEntry hin hent q.flags
    obtain ⟨rm₂, h1, h2, h3⟩ := hI₁.release (r := rv) (by simp)
    obtain rfl : rm₂ = rm' := some.inj (h1.symm.trans hrel)
    rw [without_cons hI₁.held_nodup] at h2
    refine ⟨h2, (h3 fun hnone => ?_).trans hcov₁⟩
    exact absurd (hh.symm.trans hnone) (by simp)
  · obtain ⟨hI₁, hcov₁⟩ := hI.reserveEntry hin hent q.flags
    rcases hact with rfl | rfl
    · exact ⟨hI₁, hcov₁⟩
    · have hf := intRmanActivateResource_reflag rm₁ rv
      exact ⟨hf.inv hI₁, (congrArg covered hf.segs).trans hcov₁⟩

/-- One call that keeps inside its bounds. -/
theorem Inv.step {s t : Sys} {op : Op} (hI : Inv s) (h : s.step op = some t)
    (hop : op.InBounds s.rm) : Inv t ∧ covered t.rm.segs = covered s.rm.segs := by
  cases op with
  | reserve q fuel malloc1 malloc2 =>
    have hin : CarvesInside s.rm q fuel malloc1 := hop
    simp only [Sys.step] at h
    cases hr : rmanReserveResourceBound s.rm q fuel malloc1 malloc2 with
    | none => simp [hr] at h
    | some p =>
      obtain ⟨rm', o⟩ := p
      have hres := hI.reserve hop hr
      cases o with
      | none =>
        simp only [hr] at h; exact some.inj h ▸ hres
      | some r =>
        simp only [hr] at h; exact some.inj h ▸ hres
  | release r =>
    simp only [Sys.step] at h
    split_ifs at h with hr
    obtain ⟨rm', hrel, rfl⟩ := map_eq_some_iff.1 h
    obtain ⟨rm'', h1, h2, h3⟩ := hI.release hr
    obtain rfl : rm'' = rm' := some.inj (h1.symm.trans hrel)
    exact ⟨h2, h3 hop⟩
  | activate r =>
    simp only [Sys.step] at h
    split_ifs at h with hr
    obtain rfl := some.inj h
    have hf := intRmanActivateResource_reflag s.rm r
    exact ⟨hf.inv hI, congrArg covered hf.segs⟩
  | deactivate r =>
    simp only [Sys.step] at h
    split_ifs at h with hr
    obtain rfl := some.inj h
    have hf := intRmanDeactivateResource_reflag s.rm r
    exact ⟨hf.inv hI, congrArg covered hf.segs⟩

/-! ## Runs -/

/-- In every run whose calls keep inside their bounds, the entries are ordered, disjoint and
    non-empty, and cover the managed regions. -/
theorem segs_covered_eq_regions {rm : Rman} {regions : List (ℕ × ℕ)} {s : Sys}
    (hb : Built rm regions)
    (hrun : Relation.ReflTransGen (fun s t => ∃ op : Op, s.step op = some t ∧ op.InBounds s.rm)
      { rm := rm, held := [] } s) :
    Ordered s.rm.segs ∧ covered s.rm.segs = covered regions := by
  have hinv : Inv s ∧ covered s.rm.segs = covered regions := by
    induction hrun with
    | refl => exact hb.inv
    | tail _ hstep ih =>
      obtain ⟨op, hop, hin⟩ := hstep
      obtain ⟨hI, hcov⟩ := ih
      obtain ⟨hI', hcov'⟩ := hI.step hop hin
      exact ⟨hI', hcov'.trans hcov⟩
  exact ⟨hinv.1.ordered, hinv.2⟩

/-- The calls of a list, one after the other. -/
def Sys.run (s : Sys) : List Op → Option Sys
  | [] => some s
  | op :: ops => (s.step op).bind fun t => t.run ops

theorem Sys.run_pair {s t u : Sys} {op₁ op₂ : Op} (h₁ : s.step op₁ = some t)
    (h₂ : t.step op₂ = some u) : s.run [op₁, op₂] = some u := by
  simp [Sys.run, h₁, h₂]

theorem Sys.reaches_of_run {s t : Sys} {ops : List Op} (h : s.run ops = some t) :
    Relation.ReflTransGen (fun s t => ∃ op : Op, s.step op = some t) s t := by
  induction ops generalizing s with
  | nil => exact some.inj h ▸ .refl
  | cons op ops ih =>
    obtain ⟨u, hu, ht⟩ := bind_eq_some_iff.1 h
    exact .head ⟨op, hu⟩ (ih ht)

/-- A manager of 0–9 and 20–29, without clients. -/
def twoRegions : Sys where
  rm := rmanManageRegion (rmanManageRegion rmanInit 0 9 true) 20 29 true
  held := []

theorem built_twoRegions : Built twoRegions.rm [(20, 29), (0, 9)] :=
  .manage 20 29 true (.manage 0 9 true .init (by decide) (by simp)) (by decide) (by decide)

/-- Reserving the first `count` addresses of 0–9. -/
def firstAddresses (count : BitVec 64) (flags : BitVec 32) : Request :=
  { start := 0, end' := 9, count := count, bound := 0, flags := flags, dev := 1 }

/-- The first region, reserved and released, takes the gap and the second region with it. -/
theorem release_merges_across_gap : ¬ ∀ (rm : Rman) (regions : List (ℕ × ℕ)) (s : Sys),
    Built rm regions →
    Relation.ReflTransGen (fun s t => ∃ op : Op, s.step op = some t) { rm := rm, held := [] } s →
    Ordered s.rm.segs ∧ covered s.rm.segs = covered regions := by
  intro hall
  have hsegs : (twoRegions.run [.reserve (firstAddresses 10 0) 1 true true, .release 0]).map
      (fun s => s.rm.segs) = some [(0, 29)] := by decide
  obtain ⟨t, ht, hseg⟩ := Option.map_eq_some_iff.1 hsegs
  obtain ⟨-, hcov⟩ := hall twoRegions.rm _ t built_twoRegions (Sys.reaches_of_run ht)
  -- 15 is in the gap
  have h15 : 15 ∈ covered t.rm.segs := by rw [hseg]; exact ⟨(0, 29), by simp, by decide, by decide⟩
  rw [hcov] at h15
  obtain ⟨a, ha, h1, h2⟩ := h15
  simp only [mem_cons, not_mem_nil, or_false] at ha
  rcases ha with rfl | rfl <;> omega

theorem carvesInside_firstAddresses (malloc1 : Bool) :
    CarvesInside twoRegions.rm (firstAddresses 4 0) 1 malloc1 := by
  intro _ e rstart h
  have hfind : findUnshared twoRegions.rm (firstAddresses 4 0) 1
      (candidates twoRegions.rm (firstAddresses 4 0)) = some (some (0, 0)) := by decide
  rw [hfind, Option.some.injEq, Option.some.injEq, Prod.mk.injEq] at h
  obtain ⟨rfl, rfl⟩ := h
  exact .inr ⟨by decide, by decide⟩

theorem segs_covered_eq_regions_first :
    ∃ t, twoRegions.run [.reserve (firstAddresses 4 0) 1 true true, .release 2] = some t ∧
      Ordered t.rm.segs ∧ covered t.rm.segs = covered [(20, 29), (0, 9)] := by
  have hstep : (twoRegions.step (.reserve (firstAddresses 4 0) 1 true true)).map (fun u =>
      (tailqPrev 2 u.rm.rmList, tailqNext 2 u.rm.rmList, (u.rm.res 2).rEnd.toNat + 1,
        (u.rm.res 0).rStart.toNat, (u.step (.release 2)).isSome)) =
      some (none, some 0, 4, 4, true) := by decide
  obtain ⟨u, hu, hobs⟩ := Option.map_eq_some_iff.1 hstep
  simp only [Prod.mk.injEq] at hobs
  obtain ⟨hprev, hnext, hend, hstart, hsome⟩ := hobs
  obtain ⟨t, ht⟩ := Option.isSome_iff_exists.1 hsome
  refine ⟨t, Sys.run_pair hu ht, segs_covered_eq_regions built_twoRegions
    ((Relation.ReflTransGen.single ⟨_, hu, carvesInside_firstAddresses true⟩).tail
      ⟨_, ht, fun _ => ⟨fun x hx => ?_, fun x hx _ => ?_⟩⟩)⟩
  · rw [hprev] at hx
    cases hx
  · rw [hnext] at hx
    obtain rfl := Option.some.inj hx
    rw [hend, hstart]

end FreeBSD.SubrRman
