import FreeBSD.Geom.GeomSubr
import FreeBSD.Lib.TopoOrder

/-!
# `redo_rank`, `geom/geom_subr.c`

The list is `A ++ R ++ gp :: M` while the loop goes through `R`: the geoms of `A` are ranked, and
those of `M` were moved behind `gp`, which they depend on through geoms that were moved. Then `gp`
is ranked, unless it depends on one of them, and after it those of `M`, in their order. So the loop
takes one turn for each geom of `R` and of `M` and one for `gp`.

Results:
* `redoRank_spec`: `redo_rank` ranks the geoms and puts them in order, or finds a loop through `gp`.
-/

namespace FreeBSD.GeomSubr

open Lib Relation List Function

variable {s : State} {gp x : Gid} {A B N R T M : List Gid} {fuel m : ℕ}

/-- The geoms whose providers the consumers are attached to. -/
def State.depsOf (s : State) (cps : List Cid) : List Gid :=
  cps.filterMap fun cp => (s.provider cp).map s.pgeom

/-- The geoms that `x` consumes from. -/
def State.deps (s : State) (x : Gid) : List Gid := s.depsOf (s.consumer x)

/-- The state with another list and other ranks. -/
def State.reranked (s : State) (geoms : List Gid) (rank : Gid → ℕ) : State := { s with geoms, rank }

/-! ## The rank of a geom -/

theorem depsOf_none {cp : Cid} (h : s.provider cp = none) (cps : List Cid) :
    s.depsOf (cp :: cps) = s.depsOf cps := by
  rw [State.depsOf, filterMap_cons, h]; rfl

theorem depsOf_some {cp : Cid} {pp : Pid} (h : s.provider cp = some pp) (cps : List Cid) :
    s.depsOf (cp :: cps) = s.pgeom pp :: s.depsOf cps := by
  rw [State.depsOf, filterMap_cons, h]; rfl

/-- The loop over the consumers finds a geom without rank, or the largest rank. -/
theorem newRank_eq (s : State) (cps : List Cid) (hm : 1 ≤ m) :
    newRank s cps m = if ∃ d ∈ s.depsOf cps, s.rank d = 0 then 0
      else max m (level s.rank (s.depsOf cps)) := by
  induction cps generalizing m with
  | nil =>
    have hnone : ¬∃ d ∈ s.depsOf [], s.rank d = 0 := fun ⟨_, hd, _⟩ => not_mem_nil hd
    rw [newRank, if_neg hnone]; exact (max_eq_left hm).symm
  | cons cp cps ih =>
    cases hp : s.provider cp with
    | none =>
      rw [newRank, hp, depsOf_none hp]; exact ih hm
    | some pp =>
      rw [newRank, hp, depsOf_some hp]
      simp only [exists_mem_cons_iff]
      by_cases hzero : s.rank (s.pgeom pp) = 0
      · rw [if_pos hzero, if_pos (.inl hzero)]
      · have hlevel : level s.rank (s.pgeom pp :: s.depsOf cps) =
            max (s.rank (s.pgeom pp) + 1) (level s.rank (s.depsOf cps)) := by
          rw [level, level, map_cons, foldr_cons]; omega
        rw [if_neg hzero, hlevel]
        simp only [hzero, false_or]
        split
        · next hge =>
          rw [ih (Nat.le_add_left 1 _)]
          split
          · rfl
          · omega
        · next hlt =>
          rw [ih hm]
          split
          · rfl
          · omega

/-! ## Turns of the loop -/

theorem next_eq (hgeoms : s.geoms = B ++ x :: T) (hnodup : s.geoms.Nodup) :
    s.next x = T.head? := by
  have hx : x ∉ B := fun hx => by
    rw [hgeoms] at hnodup; exact disjoint_of_nodup_append hnodup hx mem_cons_self
  rw [State.next, hgeoms, after_split hx]

theorem setRank_setRank (a b : ℕ) : (s.setRank x a).setRank x b = s.setRank x b := by
  rw [State.setRank, State.setRank, State.setRank]; simp only [update_idem]

theorem redoLoop_succ (gp : Gid) (fuel : ℕ) (x : Gid) (s : State) :
    redoLoop gp (fuel + 1) (some x) s =
      if newRank (s.setRank x 0) (s.consumer x) 1 ≠ 0 then
        redoLoop gp fuel (s.next x) (s.setRank x (newRank (s.setRank x 0) (s.consumer x) 1))
      else if gp = x then some (.ELOOP, s.setRank x (newRank (s.setRank x 0) (s.consumer x) 1))
      else redoLoop gp fuel (s.next x)
        ((s.setRank x (newRank (s.setRank x 0) (s.consumer x) 1)).moveTail x) := by
  rw [redoLoop]
  simp only [setRank_setRank]; rfl

/-- All that the geom consumes from is ranked, and so is the geom. -/
theorem turn_ranked (hgeoms : s.geoms = B ++ x :: T) (hnodup : s.geoms.Nodup)
    (h : ∀ d ∈ s.deps x, d ≠ x ∧ s.rank d ≠ 0) :
    redoLoop gp (fuel + 1) (some x) s =
      redoLoop gp fuel T.head? (s.setRank x (level s.rank (s.deps x))) := by
  have hnone : ¬∃ d ∈ s.deps x, update s.rank x 0 d = 0 := by
    rintro ⟨d, hd, hzero⟩
    rw [update_of_ne (h d hd).1] at hzero; exact (h d hd).2 hzero
  have hlevel : level (update s.rank x 0) (s.deps x) = level s.rank (s.deps x) :=
    level_congr fun d hd => update_of_ne (h d hd).1 0 s.rank
  have hrank : newRank (s.setRank x 0) (s.consumer x) 1 = level s.rank (s.deps x) := by
    rw [newRank_eq _ _ le_rfl, ← hlevel]; exact (if_neg hnone).trans (max_eq_right (level_pos _ _))
  rw [redoLoop_succ, hrank, if_pos (level_pos s.rank (s.deps x)).ne', next_eq hgeoms hnodup]

/-- A geom that the geom consumes from has no rank. -/
theorem newRank_zero (h : ∃ d ∈ s.deps x, d = x ∨ s.rank d = 0) :
    newRank (s.setRank x 0) (s.consumer x) 1 = 0 := by
  rw [newRank_eq _ _ le_rfl]
  refine if_pos ?_
  obtain ⟨d, hd, hor⟩ := h
  refine ⟨d, hd, ?_⟩
  by_cases hdx : d = x
  · rw [hdx]; exact update_self x 0 s.rank
  · exact (update_of_ne hdx 0 s.rank).trans (hor.resolve_left hdx)

/-- A geom that cannot be ranked is moved to the tail. -/
theorem turn_moved (hgeoms : s.geoms = B ++ x :: T) (hnodup : s.geoms.Nodup) (hx : gp ≠ x)
    (h : ∃ d ∈ s.deps x, d = x ∨ s.rank d = 0) :
    redoLoop gp (fuel + 1) (some x) s =
      redoLoop gp fuel T.head? (s.reranked (B ++ T ++ [x]) (update s.rank x 0)) := by
  have hxB : x ∉ B := fun hx => by
    rw [hgeoms] at hnodup; exact disjoint_of_nodup_append hnodup hx mem_cons_self
  have herase : s.geoms.erase x = B ++ T := by
    rw [hgeoms, erase_append_right _ hxB, erase_cons_head]
  have hmove : (s.setRank x 0).moveTail x =
      s.reranked (B ++ T ++ [x]) (update s.rank x 0) := by
    rw [← herase]; rfl
  rw [redoLoop_succ, newRank_zero h, if_neg (not_not.2 rfl), if_neg hx, next_eq hgeoms hnodup,
    hmove]

/-- The geom that was moved first cannot be ranked. -/
theorem turn_loop (h : ∃ d ∈ s.deps gp, d = gp ∨ s.rank d = 0) :
    redoLoop gp (fuel + 1) (some gp) s =
      some (.ELOOP, s.reranked s.geoms (update s.rank gp 0)) := by
  rw [redoLoop_succ, newRank_zero h, if_neg (not_not.2 rfl), if_pos rfl]; rfl

/-! ## The loop -/

/-- The geoms after `gp` depend only on those before them, and are ranked one after the other. -/
theorem redoLoop_tail (gp : Gid) (T : List Gid) : ∀ (B : List Gid) (s : State),
    s.geoms = B ++ T → s.geoms.Nodup → (∀ b ∈ B, s.rank b ≠ 0) → Placed s.deps {b | b ∈ B} T →
    ∃ rank, (∀ fuel, T.length ≤ fuel →
        redoLoop gp fuel T.head? s = some (.ok, s.reranked s.geoms rank)) ∧
      (∀ y, y ∉ T → rank y = s.rank y) ∧ Ranked s.deps rank T := by
  induction T with
  | nil =>
    intro B s _ _ _ _
    refine ⟨s.rank, fun fuel _ => ?_, fun _ _ => rfl, fun x hx => absurd hx not_mem_nil⟩
    rw [List.head?_nil, redoLoop]; rfl
  | cons x T ih =>
    intro B s hgeoms hnodup hB hplaced
    have hnodup' := hgeoms ▸ hnodup
    have hxB : x ∉ B := fun hx => disjoint_of_nodup_append hnodup' hx mem_cons_self
    have hxT : x ∉ T := (nodup_cons.1 (List.Nodup.of_append_right hnodup')).1
    have hdeps : ∀ d ∈ s.deps x, d ≠ x ∧ s.rank d ≠ 0 := fun d hd =>
      ⟨fun hdx => hxB (hdx ▸ hplaced.1 d hd), hB d (hplaced.1 d hd)⟩
    set t := s.setRank x (level s.rank (s.deps x)) with ht
    have htx : t.rank x = level s.rank (s.deps x) := update_self x _ s.rank
    have htne : ∀ y, y ≠ x → t.rank y = s.rank y := fun y hy => update_of_ne hy _ s.rank
    have hgeoms' : t.geoms = (B ++ [x]) ++ T := by rw [append_assoc]; exact hgeoms
    have hB' : ∀ b ∈ B ++ [x], t.rank b ≠ 0 := fun b hb => by
      by_cases hbx : b = x
      · rw [hbx, htx]; exact (level_pos _ _).ne'
      · rw [htne b hbx]
        exact hB b ((mem_append.1 hb).resolve_right fun h => hbx (mem_singleton.1 h))
    have hplaced' : Placed t.deps {b | b ∈ B ++ [x]} T := by
      refine Placed.mono hplaced.2 fun y hy => ?_
      rcases hy with rfl | hy
      · exact mem_append_right B mem_cons_self
      · exact mem_append_left _ hy
    obtain ⟨rank, hrun, hsame, hranked⟩ := ih (B ++ [x]) t hgeoms' hnodup hB' hplaced'
    have hold : ∀ y, y ∉ x :: T → rank y = s.rank y := fun y hy => by
      rw [hsame y fun h => hy (mem_cons_of_mem x h)]
      exact htne y fun h => hy (h ▸ mem_cons_self)
    refine ⟨rank, fun fuel hfuel => ?_, hold, fun y hy => ?_⟩
    · obtain ⟨k, rfl⟩ : ∃ k, fuel = k + 1 := ⟨fuel - 1, by rw [length_cons] at hfuel; omega⟩
      rw [List.head?_cons, turn_ranked hgeoms hnodup hdeps]
      exact hrun k (Nat.le_of_succ_le_succ hfuel)
    · rcases mem_cons.1 hy with rfl | hy
      · rw [hsame y hxT, htx]
        refine level_congr fun d hd => (hold d fun hmem => ?_).symm
        exact disjoint_of_nodup_append hnodup' (hplaced.1 d hd) hmem
      · exact hranked y hy

/-- A geom that depends on `gp` through others. -/
def LeadsTo (deps : Gid → List Gid) (gp x : Gid) : Prop :=
  ReflTransGen (fun x y => x ≠ gp ∧ y ∈ deps x) x gp

/-- What the loop makes of `A ++ L`, where `gp` is in `L`. -/
structure Redone (deps : Gid → List Gid) (gp : Gid) (A L : List Gid) (rank : Gid → ℕ)
    (err : Errno) (geoms : List Gid) : Prop where
  perm : geoms.Perm (A ++ L)
  ok : err = .ok → ∃ N, geoms = A ++ N ∧ Placed deps {a | a ∈ A} N ∧ Ranked deps rank N
  loop : err = .ELOOP → ∃ N M, geoms = A ++ N ++ gp :: M ∧ Placed deps {a | a ∈ A} N ∧
    Ranked deps rank N ∧ Placed deps {a | a ∈ A ++ N ++ [gp]} M ∧
    (∀ m ∈ M, LeadsTo deps gp m) ∧ ∃ d ∈ deps gp, d = gp ∨ d ∈ M

/-- The first geom of the rest was ranked. -/
theorem Redone.cons {deps : Gid → List Gid} {rank : Gid → ℕ} {err : Errno} {geoms L : List Gid}
    (h : Redone deps gp (A ++ [x]) L rank err geoms) (hx : ∀ d ∈ deps x, d ∈ A)
    (hrank : rank x = level rank (deps x)) : Redone deps gp A (x :: L) rank err geoms := by
  have hset : insert x {a | a ∈ A} = {a | a ∈ A ++ [x]} := by
    ext y
    simp [or_comm]
  have hplaced : ∀ {N}, Placed deps {a | a ∈ A ++ [x]} N → Placed deps {a | a ∈ A} (x :: N) :=
    fun hN => ⟨hx, hset ▸ hN⟩
  have hranked : ∀ {N}, Ranked deps rank N → Ranked deps rank (x :: N) := fun hN y hy => by
    rcases mem_cons.1 hy with rfl | hy
    · exact hrank
    · exact hN y hy
  refine ⟨by simpa using h.perm, fun herr => ?_, fun herr => ?_⟩
  · obtain ⟨N, rfl, hp, hr⟩ := h.ok herr
    exact ⟨x :: N, by simp, hplaced hp, hranked hr⟩
  · obtain ⟨N, M, rfl, hp, hr, hM, hlead, hloop⟩ := h.loop herr
    exact ⟨x :: N, M, by simp, hplaced hp, hranked hr, by simpa using hM, hlead, hloop⟩

/-- The loop reaches `gp`: it has a rank unless it depends on itself or a geom that was moved. -/
theorem redoLoop_gp (hgeoms : s.geoms = A ++ gp :: M) (hnodup : s.geoms.Nodup)
    (hA : ∀ a ∈ A, s.rank a ≠ 0) (hM : ∀ m ∈ M, s.rank m = 0)
    (hplaced : Placed s.deps {a | a ∈ A ++ [gp]} M) (hlead : ∀ m ∈ M, LeadsTo s.deps gp m)
    (hdeps : ∀ d ∈ s.deps gp, d ∈ s.geoms) :
    ∃ err geoms rank, (∀ fuel, M.length + 1 ≤ fuel →
        redoLoop gp fuel (some gp) s = some (err, s.reranked geoms rank)) ∧
      (∀ y, y ∉ gp :: M → rank y = s.rank y) ∧ Redone s.deps gp A (gp :: M) rank err geoms := by
  have hnodup' := hgeoms ▸ hnodup
  have hgpA : gp ∉ A := fun h => disjoint_of_nodup_append hnodup' h mem_cons_self
  have hgpM : gp ∉ M := (nodup_cons.1 (List.Nodup.of_append_right hnodup')).1
  have hcases : ∀ d ∈ s.deps gp, d ∈ A ∨ d = gp ∨ d ∈ M := fun d hd => by
    have hmem := hdeps d hd
    rwa [hgeoms, mem_append, mem_cons] at hmem
  by_cases hzero : ∃ d ∈ s.deps gp, d = gp ∨ s.rank d = 0
  · refine ⟨.ELOOP, s.geoms, update s.rank gp 0, fun fuel hfuel => ?_, fun y hy => ?_, ?_⟩
    · obtain ⟨k, rfl⟩ : ∃ k, fuel = k + 1 := ⟨fuel - 1, by omega⟩
      exact turn_loop hzero
    · have hne : y ≠ gp := fun h => hy (h ▸ mem_cons_self)
      exact update_of_ne hne 0 s.rank
    · have hdep : ∃ d ∈ s.deps gp, d = gp ∨ d ∈ M := by
        obtain ⟨d, hd, hor⟩ := hzero
        refine ⟨d, hd, ?_⟩
        rcases hcases d hd with hdA | hdgp
        · rcases hor with rfl | hz
          · exact absurd hdA hgpA
          · exact absurd hz (hA d hdA)
        · exact hdgp
      have hnil : Ranked s.deps (update s.rank gp 0) [] :=
        fun y hy => absurd hy not_mem_nil
      exact {
        perm := by rw [hgeoms]
        ok := fun h => by cases h
        loop := fun _ => ⟨[], M, by rw [append_nil, hgeoms], trivial, hnil,
          by rwa [append_nil], hlead, hdep⟩ }
  · have hall : ∀ d ∈ s.deps gp, d ≠ gp ∧ s.rank d ≠ 0 := fun d hd =>
      not_or.1 fun hor => hzero ⟨d, hd, hor⟩
    have hdepsA : ∀ d ∈ s.deps gp, d ∈ A := fun d hd => by
      rcases hcases d hd with hdA | rfl | hdM
      · exact hdA
      · exact absurd rfl (hall d hd).1
      · exact absurd (hM d hdM) (hall d hd).2
    set t := s.setRank gp (level s.rank (s.deps gp)) with ht
    have htgp : t.rank gp = level s.rank (s.deps gp) := update_self gp _ s.rank
    have htne : ∀ y, y ≠ gp → t.rank y = s.rank y := fun y hy => update_of_ne hy _ s.rank
    have hgeoms' : t.geoms = (A ++ [gp]) ++ M := by rw [append_assoc]; exact hgeoms
    have hA' : ∀ a ∈ A ++ [gp], t.rank a ≠ 0 := fun a ha => by
      rcases mem_append.1 ha with ha | ha
      · rw [htne a fun h => hgpA (h ▸ ha)]; exact hA a ha
      · rw [mem_singleton.1 ha, htgp]; exact (level_pos _ _).ne'
    obtain ⟨rank, hrun, hsame, hranked⟩ := redoLoop_tail gp M
      (A ++ [gp]) t hgeoms' hnodup hA' hplaced
    have hold : ∀ y, y ∉ gp :: M → rank y = s.rank y := fun y hy => by
      rw [hsame y fun h => hy (mem_cons_of_mem gp h)]
      exact htne y fun h => hy (h ▸ mem_cons_self)
    have hrank : rank gp = level rank (s.deps gp) := by
      rw [hsame gp hgpM, htgp]
      refine level_congr fun d hd => (hold d fun hmem => ?_).symm
      exact disjoint_of_nodup_append hnodup' (hdepsA d hd) hmem
    refine ⟨.ok, s.geoms, rank, fun fuel hfuel => ?_, hold, ?_⟩
    · obtain ⟨k, rfl⟩ : ∃ k, fuel = k + 1 := ⟨fuel - 1, by omega⟩
      rw [turn_ranked hgeoms hnodup hall]; exact hrun k (Nat.le_of_succ_le_succ hfuel)
    · refine Redone.cons ?_ hdepsA hrank
      exact {
        perm := by rw [hgeoms, append_assoc, singleton_append]
        ok := fun _ => ⟨M, by rw [hgeoms, append_assoc, singleton_append], hplaced,
          hranked⟩
        loop := fun h => by cases h }

/-- The loop from `R` on: each geom of `R` is ranked, or moved behind `gp`. -/
theorem redoLoop_spec (gp : Gid) (R : List Gid) : ∀ (A M : List Gid) (s : State),
    s.geoms = A ++ R ++ gp :: M → s.geoms.Nodup → (∀ a ∈ A, s.rank a ≠ 0) →
    (R ≠ [] → s.rank gp = 0) → (∀ m ∈ M, s.rank m = 0) →
    Placed s.deps {y | y ∈ A ++ gp :: M} R → Placed s.deps {y | y ∈ A ++ [gp]} M →
    (∀ m ∈ M, LeadsTo s.deps gp m) → (∀ d ∈ s.deps gp, d ∈ s.geoms) →
    ∃ err geoms rank, (∀ fuel, 2 * R.length + M.length + 1 ≤ fuel →
        redoLoop gp fuel (R ++ [gp]).head? s = some (err, s.reranked geoms rank)) ∧
      (∀ y, y ∉ R ++ gp :: M → rank y = s.rank y) ∧
      Redone s.deps gp A (R ++ gp :: M) rank err geoms := by
  induction R with
  | nil =>
    intro A M s hgeoms hnodup hA _ hM _ hMp hlead hdeps
    rw [append_nil] at hgeoms
    obtain ⟨err, geoms, rank, hrun, hsame, hredo⟩ :=
      redoLoop_gp hgeoms hnodup hA hM hMp hlead hdeps
    exact ⟨err, geoms, rank, fun fuel hfuel => hrun fuel (by simp at hfuel; omega), hsame, hredo⟩
  | cons x R ih =>
    intro A M s hgeoms hnodup hA hgp hM hR hMp hlead hdeps
    have hgp := hgp (cons_ne_nil x R)
    have hsplit : s.geoms = A ++ x :: (R ++ gp :: M) := by rw [hgeoms]; simp
    have hnodup' := hsplit ▸ hnodup
    have hxA : x ∉ A := fun h => disjoint_of_nodup_append hnodup' h mem_cons_self
    have hxL : x ∉ R ++ gp :: M := (nodup_cons.1 (List.Nodup.of_append_right hnodup')).1
    have hxgp : gp ≠ x := fun h => hxL (h ▸ mem_append_right R mem_cons_self)
    have hxM : x ∉ M := fun h => hxL (mem_append_right R (mem_cons_of_mem gp h))
    by_cases hzero : ∃ d ∈ s.deps x, d = x ∨ s.rank d = 0
    · -- it waits for `gp`: it is moved to the end of `M`
      set t := s.reranked (A ++ (R ++ gp :: M) ++ [x]) (update s.rank x 0) with ht
      have htne : ∀ y, y ≠ x → t.rank y = s.rank y := fun y hy => update_of_ne hy 0 s.rank
      have htx : t.rank x = 0 := update_self x 0 s.rank
      have hleadx : LeadsTo s.deps gp x := by
        obtain ⟨d, hd, hor⟩ := hzero
        have hdL : d ∈ A ++ gp :: M := hR.1 d hd
        have hdx : d ≠ x := fun h => by
          rw [h, mem_append, mem_cons] at hdL
          rcases hdL with h | h | h
          · exact hxA h
          · exact hxgp h.symm
          · exact hxM h
        have hdlead : LeadsTo s.deps gp d := by
          rcases mem_append.1 hdL with hdA | hdL
          · exact absurd (hor.resolve_left hdx) (hA d hdA)
          · rcases mem_cons.1 hdL with rfl | hdM
            · exact ReflTransGen.refl
            · exact hlead d hdM
        exact ReflTransGen.head ⟨hxgp.symm, hd⟩ hdlead
      have hgeoms' : t.geoms = A ++ R ++ gp :: (M ++ [x]) := by rw [ht]; simp [State.reranked]
      have hperm : t.geoms.Perm s.geoms := by
        rw [hgeoms', hgeoms]
        refine perm_iff_count.2 fun y => ?_
        simp only [count_append, count_cons, count_nil]; omega
      have hR' : Placed t.deps {y | y ∈ A ++ gp :: (M ++ [x])} R := by
        refine Placed.mono hR.2 fun y hy => ?_
        rcases hy with rfl | hy
        · simp
        · have hy : y ∈ A ++ gp :: M := hy
          have : y ∈ A ++ gp :: (M ++ [x]) := by
            rw [mem_append, mem_cons] at hy ⊢
            rw [mem_append]; tauto
          exact this
      have hM' : Placed t.deps {y | y ∈ A ++ [gp]} (M ++ [x]) := by
        refine Placed.append_iff.2 ⟨hMp, placed_singleton.2 fun d hd => ?_⟩
        have hdL : d ∈ A ++ gp :: M := hR.1 d hd
        rw [mem_append, mem_cons] at hdL
        have hmem : d ∈ A ++ [gp] ∨ d ∈ M := by rw [mem_append, mem_singleton]; tauto
        exact hmem
      obtain ⟨err, geoms, rank, hrun, hsame, hredo⟩ := ih A (M ++ [x]) t hgeoms'
        (hperm.nodup_iff.2 hnodup)
        (fun a ha => by
          rw [htne a fun h => hxA (h ▸ ha)]
          exact hA a ha)
        (fun _ => by
          rw [htne gp hxgp]
          exact hgp)
        (fun m hm => by
          rcases mem_append.1 hm with hm | hm
          · rw [htne m fun h => hxM (h ▸ hm)]; exact hM m hm
          · rw [mem_singleton.1 hm, htx])
        hR' hM'
        (fun m hm => by
          rcases mem_append.1 hm with hm | hm
          · exact hlead m hm
          · rw [mem_singleton.1 hm]
            exact hleadx)
        (fun d hd => hperm.mem_iff.2 (hdeps d hd))
      have hL : (R ++ gp :: (M ++ [x])).Perm (x :: R ++ gp :: M) := by
        refine perm_iff_count.2 fun y => ?_
        simp only [count_append, count_cons, count_nil]; omega
      have hhead : (R ++ gp :: M).head? = (R ++ [gp]).head? := by
        cases R with
        | nil => rfl
        | cons y R => rfl
      refine ⟨err, geoms, rank, fun fuel hfuel => ?_, fun y hy => ?_, { hredo with
        perm := hredo.perm.trans (hL.append_left A) }⟩
      · obtain ⟨k, rfl⟩ : ∃ k, fuel = k + 1 := ⟨fuel - 1, by omega⟩
        rw [cons_append, List.head?_cons, turn_moved hsplit hnodup hxgp hzero, hhead]
        refine hrun k ?_
        rw [length_cons] at hfuel
        rw [length_append, length_singleton]; omega
      · rw [hsame y fun h => hy (hL.mem_iff.1 h)]
        have hne : y ≠ x := fun h => hy (h ▸ mem_cons_self)
        exact htne y hne
    · have hall : ∀ d ∈ s.deps x, d ≠ x ∧ s.rank d ≠ 0 := fun d hd =>
        not_or.1 fun hor => hzero ⟨d, hd, hor⟩
      have hdepsA : ∀ d ∈ s.deps x, d ∈ A := fun d hd => by
        have hdL : d ∈ A ++ gp :: M := hR.1 d hd
        rcases mem_append.1 hdL with hdA | hdL
        · exact hdA
        · rcases mem_cons.1 hdL with rfl | hdM
          · exact absurd hgp (hall d hd).2
          · exact absurd (hM d hdM) (hall d hd).2
      set t := s.setRank x (level s.rank (s.deps x)) with ht
      have htx : t.rank x = level s.rank (s.deps x) := update_self x _ s.rank
      have htne : ∀ y, y ≠ x → t.rank y = s.rank y := fun y hy =>
        update_of_ne hy _ s.rank
      have hgeoms' : t.geoms = (A ++ [x]) ++ R ++ gp :: M := by
        have ht' : t.geoms = s.geoms := rfl
        rw [ht', hgeoms]; simp
      obtain ⟨err, geoms, rank, hrun, hsame, hredo⟩ := ih (A ++ [x]) M t hgeoms' hnodup
        (fun a ha => by
          rcases mem_append.1 ha with ha | ha
          · rw [htne a fun h => hxA (h ▸ ha)]; exact hA a ha
          · rw [mem_singleton.1 ha, htx]
            exact (level_pos _ _).ne')
        (fun _ => by
          rw [htne gp hxgp]
          exact hgp)
        (fun m hm => by
          rw [htne m fun h => hxM (h ▸ hm)]
          exact hM m hm)
        (Placed.mono hR.2 fun y hy => by
          have hor : y ∈ A ++ [x] ++ gp :: M := by
            rcases hy with rfl | hy
            · simp
            · have hy : y ∈ A ++ gp :: M := hy
              rw [mem_append] at hy ⊢
              rw [mem_append]; tauto
          exact hor)
        (Placed.mono hMp fun y hy => by
          have hy : y ∈ A ++ [gp] := hy
          have hor : y ∈ A ++ [x] ++ [gp] := by
            rw [mem_append] at hy ⊢
            rw [mem_append]; tauto
          exact hor)
        hlead hdeps
      have hold : ∀ y, y ∉ x :: R ++ gp :: M → rank y = s.rank y := fun y hy => by
        rw [hsame y fun h => hy (mem_cons_of_mem x h)]
        have hne : y ≠ x := fun h => hy (h ▸ mem_cons_self)
        exact htne y hne
      have hhead : (R ++ gp :: M).head? = (R ++ [gp]).head? := by
        cases R with
        | nil => rfl
        | cons y R => rfl
      refine ⟨err, geoms, rank, fun fuel hfuel => ?_, hold, Redone.cons hredo hdepsA ?_⟩
      · obtain ⟨k, rfl⟩ : ∃ k, fuel = k + 1 := ⟨fuel - 1, by omega⟩
        rw [cons_append, List.head?_cons, turn_ranked hsplit hnodup hall, hhead]
        refine hrun k ?_
        rw [length_cons] at hfuel; omega
      · rw [hsame x hxL, htx]
        refine level_congr fun d hd => (hold d fun hmem => ?_).symm
        exact disjoint_of_nodup_append hnodup' (hdepsA d hd) hmem

/-! ## `redo_rank` -/

/-- The list before `redo_rank`: what is before `gp` is ranked, and what comes after it depends on
    nothing that is not before it. -/
structure Ready (s : State) (A : List Gid) (gp : Gid) (R : List Gid) : Prop where
  geoms : s.geoms = A ++ gp :: R
  nodup : s.geoms.Nodup
  before : Placed s.deps ∅ A
  ranked : Ranked s.deps s.rank A
  behind : Placed s.deps {y | y ∈ A ++ [gp]} R
  dep_mem : ∀ d ∈ s.deps gp, d ∈ s.geoms

/-- `redo_rank` ends, and its result does not depend on the fuel. -/
theorem redoRank_spec (h : Ready s A gp R) :
    ∃ err geoms rank, (∀ fuel, 2 * s.geoms.length ≤ fuel + 1 →
        redoRank fuel s gp = some (err, s.reranked geoms rank)) ∧
      (∀ a ∈ A, rank a = s.rank a) ∧ Redone s.deps gp A (R ++ [gp]) rank err geoms := by
  have hnodup := h.geoms ▸ h.nodup
  have hA : ∀ a ∈ A, s.rank a ≠ 0 := fun a ha => (h.ranked.pos ha).ne'
  have hgpA : gp ∉ A := fun hmem => disjoint_of_nodup_append hnodup hmem mem_cons_self
  have hnext : s.next gp = R.head? := next_eq h.geoms h.nodup
  have hlen : s.geoms.length = A.length + (R.length + 1) := by
    rw [h.geoms, length_append, length_cons]
  have houtside : ∀ {rank : Gid → ℕ}, (∀ y, y ∉ R ++ gp :: [] → rank y = s.rank y) →
      ∀ a ∈ A, rank a = s.rank a := fun hsame a ha => hsame a fun hmem => by
    rw [mem_append, mem_singleton] at hmem
    rcases hmem with hmem | rfl
    · exact disjoint_of_nodup_append hnodup ha (mem_cons_of_mem gp hmem)
    · exact hgpA ha
  cases R with
  | nil =>
    have hgeoms : s.geoms = A ++ [] ++ gp :: [] := by
      rw [h.geoms, append_nil]
    obtain ⟨err, geoms, rank, hrun, hsame, hredo⟩ := redoLoop_spec gp [] A [] s hgeoms h.nodup hA
      (fun hne => absurd rfl hne) (fun m hm => absurd hm not_mem_nil) trivial trivial
      (fun m hm => absurd hm not_mem_nil) h.dep_mem
    refine ⟨err, geoms, rank, fun fuel hfuel => ?_, houtside hsame, hredo⟩
    rw [redoRank, hnext]; exact hrun fuel (by simp at hlen ⊢; omega)
  | cons x R =>
    set t := (s.setRank gp 0).moveTail gp with ht
    have herase : s.geoms.erase gp = A ++ x :: R := by
      rw [h.geoms, erase_append_right _ hgpA, erase_cons_head]
    have hgeoms : t.geoms = A ++ (x :: R) ++ gp :: [] := by rw [← herase]; rfl
    have hperm : t.geoms.Perm s.geoms := by
      rw [hgeoms, h.geoms]
      refine perm_iff_count.2 fun y => ?_
      simp only [count_append, count_cons, count_nil]; omega
    have htne : ∀ y, y ≠ gp → t.rank y = s.rank y := fun y hy =>
      update_of_ne hy 0 s.rank
    obtain ⟨err, geoms, rank, hrun, hsame, hredo⟩ := redoLoop_spec gp (x :: R) A [] t hgeoms
      (hperm.nodup_iff.2 h.nodup)
      (fun a ha => by
        rw [htne a fun hag => hgpA (hag ▸ ha)]
        exact hA a ha)
      (fun _ => update_self gp 0 s.rank) (fun m hm => absurd hm not_mem_nil)
      h.behind trivial (fun m hm => absurd hm not_mem_nil)
      (fun d hd => hperm.mem_iff.2 (h.dep_mem d hd))
    refine ⟨err, geoms, rank, fun fuel hfuel => ?_, houtside (fun y hy => ?_), hredo⟩
    · rw [redoRank, hnext, List.head?_cons]
      exact hrun fuel (by rw [hlen] at hfuel; rw [length_nil]; omega)
    · rw [hsame y hy]
      refine htne y fun h => hy ?_
      rw [h]; exact mem_append_right _ mem_cons_self

end FreeBSD.GeomSubr
