import FreeBSD.Geom.RedoRank

/-!
# Runs of the mesh of geoms, `geom/geom_subr.c`

Results:
* `mesh_of_run`: in every run the ranks are those of the mesh and the list is in topological order,
  and `g_attach` fails exactly where the new edge would close a cycle, and leaves everything as it
  was.
-/

namespace FreeBSD.GeomSubr

open Lib Relation List Function Option

variable {s t : State} {op : Op} {r : Errno} {gp x y d : Gid} {cp : Cid} {pp : Pid}
  {A R : List Gid}

/-! ## Invariant -/

/-- The mesh is well formed, in topological order and ranked. -/
structure Inv (s : State) : Prop where
  mem_geoms : ∀ g, g ∈ s.geoms ↔ g < s.ngeom
  nodup : s.geoms.Nodup
  placed : Placed s.deps ∅ s.geoms
  ranked : Ranked s.deps s.rank s.geoms
  mem_consumer : ∀ g cp, cp ∈ s.consumer g ↔ cp < s.nconsumer ∧ s.cgeom cp = g
  cgeom : ∀ cp < s.nconsumer, s.cgeom cp < s.ngeom
  provider : ∀ cp pp, s.provider cp = some pp → pp < s.nprovider
  pgeom : ∀ pp < s.nprovider, s.pgeom pp < s.ngeom

theorem mem_deps : d ∈ s.deps x ↔ ∃ cp ∈ s.consumer x, ∃ pp, s.provider cp = some pp ∧
    s.pgeom pp = d := by
  rw [State.deps, State.depsOf, mem_filterMap]; simp only [map_eq_some_iff]

namespace Inv

theorem dep_mem (h : Inv s) (hd : d ∈ s.deps x) : d ∈ s.geoms := by
  obtain ⟨cp, -, pp, hp, rfl⟩ := mem_deps.1 hd
  exact (h.mem_geoms _).2 (h.pgeom pp (h.provider cp pp hp))

theorem mem_of_dep (h : Inv s) (hd : d ∈ s.deps x) : x ∈ s.geoms := by
  obtain ⟨cp, hcp, -, -, -⟩ := mem_deps.1 hd
  obtain ⟨hlt, rfl⟩ := (h.mem_consumer x cp).1 hcp
  exact (h.mem_geoms _).2 (h.cgeom cp hlt)

/-- The geom of the consumer, with what is before and behind it. -/
theorem split (h : Inv s) (hcp : cp < s.nconsumer) :
    ∃ A R, s.geoms = A ++ s.cgeom cp :: R ∧ s.cgeom cp ∉ A ∧ s.cgeom cp ∉ R ∧
      ∀ d ∈ s.deps (s.cgeom cp), d ∈ A := by
  obtain ⟨A, R, hgeoms, hA⟩ := split_at ((h.mem_geoms _).2 (h.cgeom cp hcp))
  have hnodup := hgeoms ▸ h.nodup
  refine ⟨A, R, hgeoms, hA, (nodup_cons.1 (List.Nodup.of_append_right hnodup)).1,
    fun d hd => ?_⟩
  have hplaced := h.placed
  rw [hgeoms, Placed.append_iff] at hplaced; exact (hplaced.2.1 d hd).resolve_left fun hd => hd

/-- `redo_rank` may be called when only what the geom itself consumes from has changed. -/
theorem ready (h : Inv s) (hgeoms : s.geoms = A ++ gp :: R) (htgeoms : t.geoms = s.geoms)
    (htrank : t.rank = s.rank) (hdeps : ∀ x, x ≠ gp → t.deps x = s.deps x)
    (hmem : ∀ d ∈ t.deps gp, d ∈ s.geoms) : Ready t A gp R := by
  have hnodup := hgeoms ▸ h.nodup
  have hA : gp ∉ A := fun hA => disjoint_of_nodup_append hnodup hA mem_cons_self
  have hR : gp ∉ R := (nodup_cons.1 (List.Nodup.of_append_right hnodup)).1
  have hdepsA : ∀ x ∈ A, t.deps x = s.deps x := fun x hx => hdeps x fun hxg => hA (hxg ▸ hx)
  have hplaced := h.placed
  have hranked := h.ranked
  rw [hgeoms, Placed.append_iff] at hplaced
  rw [hgeoms, Ranked.append_iff] at hranked
  exact {
    geoms := htgeoms.trans hgeoms
    nodup := htgeoms ▸ h.nodup
    before := hplaced.1.congr hdepsA
    ranked := fun x hx => by rw [htrank, hdepsA x hx]; exact hranked.1 x hx
    behind := by
      refine (Placed.mono hplaced.2.2 fun y hy => ?_).congr fun x hx =>
        hdeps x fun hxg => hR (hxg ▸ hx)
      have hor : y ∈ A ++ [gp] := by
        rcases hy with rfl | hy | hy
        · exact mem_append_right A mem_cons_self
        · exact absurd hy id
        · exact mem_append_left _ hy
      exact hor
    dep_mem := fun d hd => htgeoms ▸ hmem d hd }

/-- A state with another list and other ranks, which fit what is attached. -/
theorem reranked (h : Inv s) {geoms : List Gid} {rank : Gid → ℕ} (ht : t.consumer = s.consumer)
    (hcgeom : t.cgeom = s.cgeom) (hpgeom : t.pgeom = s.pgeom) (hng : t.ngeom = s.ngeom)
    (hnc : t.nconsumer = s.nconsumer) (hnp : t.nprovider = s.nprovider)
    (hprovider : ∀ cp pp, t.provider cp = some pp → pp < s.nprovider)
    (hperm : geoms.Perm s.geoms) (hplaced : Placed t.deps ∅ geoms)
    (hranked : Ranked t.deps rank geoms) : Inv (t.reranked geoms rank) where
  mem_geoms g := by
    have hn : (t.reranked geoms rank).ngeom = s.ngeom := hng
    rw [hn]; exact hperm.mem_iff.trans (h.mem_geoms g)
  nodup := hperm.nodup_iff.2 h.nodup
  placed := hplaced
  ranked := hranked
  mem_consumer g cp := by
    have hc : (t.reranked geoms rank).consumer = s.consumer := ht
    have hn : (t.reranked geoms rank).nconsumer = s.nconsumer := hnc
    have hg : (t.reranked geoms rank).cgeom = s.cgeom := hcgeom
    rw [hc, hn, hg]; exact h.mem_consumer g cp
  cgeom cp hcp := by
    have hg : (t.reranked geoms rank).cgeom = s.cgeom := hcgeom
    have hn : (t.reranked geoms rank).ngeom = s.ngeom := hng
    rw [hg, hn]; exact h.cgeom cp (hnc ▸ hcp)
  provider cp pp hp := by
    have hn : (t.reranked geoms rank).nprovider = s.nprovider := hnp
    rw [hn]; exact hprovider cp pp hp
  pgeom pp hpp := by
    have hg : (t.reranked geoms rank).pgeom = s.pgeom := hpgeom
    have hn : (t.reranked geoms rank).ngeom = s.ngeom := hng
    rw [hg, hn]; exact h.pgeom pp (hnp ▸ hpp)

end Inv

/-- The whole list, when everything could be ranked. -/
theorem Redone.inv {geoms : List Gid} {rank : Gid → ℕ} {L : List Gid} (h : Ready t A gp R)
    (hredo : Redone t.deps gp A L rank .ok geoms) (hA : ∀ a ∈ A, rank a = t.rank a) :
    Placed t.deps ∅ geoms ∧ Ranked t.deps rank geoms := by
  obtain ⟨N, rfl, hplaced, hranked⟩ := hredo.ok rfl
  refine ⟨Placed.append_iff.2 ⟨h.before, by rwa [Set.empty_union]⟩, Ranked.append_iff.2
    ⟨?_, hranked⟩⟩
  exact h.ranked.congr h.before hA fun c hc => absurd hc id

/-- `redo_rank` finds no loop where the geom consumes only from geoms before it. -/
theorem Redone.err_ok {geoms : List Gid} {rank : Gid → ℕ} {err : Errno} (h : Ready t A gp R)
    (hredo : Redone t.deps gp A (R ++ [gp]) rank err geoms) (hdeps : ∀ d ∈ t.deps gp, d ∈ A) :
    err = .ok := by
  cases err with
  | ok => rfl
  | ELOOP =>
    obtain ⟨N, M, hgeoms, -, -, -, -, d, hd, hor⟩ := hredo.loop rfl
    have hperm : (A ++ (R ++ [gp])).Perm t.geoms := by
      rw [h.geoms]
      refine perm_iff_count.2 fun y => ?_
      simp only [count_append, count_cons, count_nil]; omega
    have hnodup : (A ++ (N ++ gp :: M)).Nodup := by
      rw [← append_assoc, ← hgeoms]; exact hredo.perm.nodup_iff.2 (hperm.nodup_iff.2 h.nodup)
    have hd' : d ∈ N ++ gp :: M := by
      rcases hor with rfl | hM
      · exact mem_append_right N mem_cons_self
      · exact mem_append_right N (mem_cons_of_mem gp hM)
    exact absurd hd' (disjoint_of_nodup_append hnodup (hdeps d hd))

/-! ## Attaching and detaching -/

theorem link_self (s : State) (cp : Cid) (pp : Pid) : (s.link cp pp).provider cp = some pp := by
  simp [State.link]

theorem link_of_ne {c : Cid} (hc : c ≠ cp) (pp : Pid) :
    (s.link cp pp).provider c = s.provider c := by
  simp [State.link, hc]

theorem unlink_self (s : State) (cp : Cid) (pp : Pid) : (s.unlink cp pp).provider cp = none := by
  simp [State.unlink]

theorem unlink_of_ne {c : Cid} (hc : c ≠ cp) (pp : Pid) :
    (s.unlink cp pp).provider c = s.provider c := by
  simp [State.unlink, hc]

theorem link_deps (h : Inv s) (pp : Pid) (hx : x ≠ s.cgeom cp) :
    (s.link cp pp).deps x = s.deps x := by
  refine filterMap_congr fun c hc => ?_
  have hcp : c ≠ cp := fun hcp => hx (hcp ▸ ((h.mem_consumer x c).1 hc).2.symm)
  rw [link_of_ne hcp]; rfl

theorem mem_link_deps (h : Inv s) (hcp : cp < s.nconsumer) (hnone : s.provider cp = none) :
    d ∈ (s.link cp pp).deps (s.cgeom cp) ↔ d = s.pgeom pp ∨ d ∈ s.deps (s.cgeom cp) := by
  have hself := link_self s cp pp
  rw [mem_deps, mem_deps]
  constructor
  · rintro ⟨c, hc, qq, hq, rfl⟩
    by_cases hcc : c = cp
    · rw [hcc, hself] at hq
      obtain rfl := some.inj hq
      exact .inl rfl
    · rw [link_of_ne hcc] at hq; exact .inr ⟨c, hc, qq, hq, rfl⟩
  · rintro (rfl | ⟨c, hc, qq, hq, rfl⟩)
    · exact ⟨cp, (h.mem_consumer _ cp).2 ⟨hcp, rfl⟩, pp, hself, rfl⟩
    · have hcc : c ≠ cp := fun hcc => by
        rw [hcc, hnone] at hq
        cases hq
      exact ⟨c, hc, qq, (link_of_ne hcc pp).trans hq, rfl⟩

/-- `g_attach` undoes what it did. -/
theorem unlink_link (hnone : s.provider cp = none) (geoms : List Gid) (rank : Gid → ℕ) :
    ((s.link cp pp).reranked geoms rank).unlink cp pp = s.reranked geoms rank := by
  have hprovider : update (update s.provider cp (some pp)) cp none =
      s.provider := by
    rw [update_idem, ← hnone, update_eq_self]
  have hconsumers : update (update s.consumers pp (cp :: s.consumers pp)) pp
      ((update s.consumers pp (cp :: s.consumers pp) pp).erase cp) = s.consumers := by
    rw [update_idem, update_self, erase_cons_head, update_eq_self]
  rw [State.unlink, State.reranked, State.link, State.reranked]; simp only [hprovider, hconsumers]

theorem unlink_deps (h : Inv s) (pp : Pid) (hx : x ≠ s.cgeom cp) :
    (s.unlink cp pp).deps x = s.deps x := by
  refine filterMap_congr fun c hc => ?_
  have hcp : c ≠ cp := fun hcp => hx (hcp ▸ ((h.mem_consumer x c).1 hc).2.symm)
  rw [unlink_of_ne hcp]; rfl

theorem unlink_provider {c : Cid} {qq : Pid} (hq : (s.unlink cp pp).provider c = some qq) :
    s.provider c = some qq := by
  by_cases hcc : c = cp
  · rw [hcc, unlink_self] at hq
    cases hq
  · rwa [unlink_of_ne hcc] at hq

theorem mem_of_unlink_deps (hd : d ∈ (s.unlink cp pp).deps x) : d ∈ s.deps x := by
  obtain ⟨c, hc, qq, hq, rfl⟩ := mem_deps.1 hd
  exact mem_deps.2 ⟨c, hc, qq, unlink_provider hq, rfl⟩

/-- The new edge closes a cycle. -/
def Cyclic (s : State) (cp : Cid) (pp : Pid) : Prop :=
  ReflTransGen (Needs s.deps) (s.pgeom pp) (s.cgeom cp)

/-- What a call of `g_attach` does. -/
structure Attached (s : State) (cp : Cid) (pp : Pid) (err : Errno) (t : State) : Prop where
  inv : Inv t
  loop : err = .ELOOP ↔ Cyclic s cp pp
  ok : err = .ok → t.provider = Function.update s.provider cp (some pp) ∧
    t.consumers = Function.update s.consumers pp (cp :: s.consumers pp)
  failed : err = .ELOOP → t.provider = s.provider ∧ t.consumers = s.consumers ∧
    ∀ g < s.ngeom, t.rank g = s.rank g

theorem gAttach_spec (h : Inv s) (hcp : cp < s.nconsumer) (hpp : pp < s.nprovider)
    (hnone : s.provider cp = none) :
    ∃ err t, (∀ fuel, 2 * s.geoms.length ≤ fuel → gAttach fuel s cp pp = some (err, t)) ∧
      Attached s cp pp err t := by
  obtain ⟨A, R, hgeoms, hA, hR, hdepsA⟩ := h.split hcp
  set gp := s.cgeom cp with hgp
  have hlink : ∀ x, x ≠ gp → (s.link cp pp).deps x = s.deps x := fun x hx => link_deps h pp hx
  have hmem : ∀ d ∈ (s.link cp pp).deps gp, d ∈ s.geoms := fun d hd => by
    rcases (mem_link_deps h hcp hnone).1 hd with rfl | hd
    · exact (h.mem_geoms _).2 (h.pgeom pp hpp)
    · exact h.dep_mem hd
  have hready : Ready (s.link cp pp) A gp R := h.ready hgeoms rfl rfl hlink hmem
  obtain ⟨err, geoms, rank, hrun, hrank, hredo⟩ := redoRank_spec hready
  have hlen : (s.link cp pp).geoms.length = s.geoms.length := rfl
  rw [hlen] at hrun
  have hperm : geoms.Perm s.geoms := by
    refine hredo.perm.trans ?_
    rw [hgeoms]
    refine perm_iff_count.2 fun y => ?_
    simp only [count_append, count_cons, count_nil]; omega
  have hprovider : ∀ c qq, (s.link cp pp).provider c = some qq → qq < s.nprovider :=
    fun c qq hq => by
      by_cases hcc : c = cp
      · rw [hcc, link_self] at hq
        obtain rfl := some.inj hq
        exact hpp
      · rw [link_of_ne hcc] at hq; exact h.provider c qq hq
  have hnot : ¬s.provider cp ≠ none := not_not.2 hnone
  cases err with
  | ok =>
    obtain ⟨hplaced, hranked⟩ := hredo.inv hready hrank
    have hinv : Inv ((s.link cp pp).reranked geoms rank) :=
      h.reranked rfl rfl rfl rfl rfl rfl hprovider hperm hplaced hranked
    refine ⟨.ok, _, fun fuel hfuel => ?_, {
      inv := hinv
      loop := ⟨fun herr => (by cases herr), fun hcyc => ?_⟩
      ok := fun _ => ⟨rfl, rfl⟩
      failed := fun herr => by cases herr }⟩
    · rw [gAttach, if_neg hnot, hrun fuel (Nat.le_succ_of_le hfuel)]
    · -- the ranks of a cycle would decrease all the way round
      have hmono : ∀ a b, Needs s.deps a b → Needs (s.link cp pp).deps a b :=
        fun a b hab => by
          by_cases ha : a = gp
          · subst ha; exact (mem_link_deps h hcp hnone).2 (.inr hab)
          · rw [Needs, hlink a ha]; exact hab
      have hedge : Needs (s.link cp pp).deps gp (s.pgeom pp) :=
        (mem_link_deps h hcp hnone).2 (.inl rfl)
      have hcycle : TransGen (Needs (s.link cp pp).deps) gp gp :=
        TransGen.head' hedge (ReflTransGen.mono hmono _ _ hcyc)
      have hin : ∀ a, ∀ b ∈ (s.link cp pp).deps a, a ∈ geoms := fun a b hab =>
        (hinv.mem_geoms a).2 ((hinv.mem_geoms a).1 (hinv.mem_of_dep hab))
      exact absurd hcycle (hranked.irrefl hin gp)
  | ELOOP =>
    obtain ⟨N, M, rfl, hplaced, hranked, hbehind, hlead, d, hd, hor⟩ := hredo.loop rfl
    have hnodup : (A ++ N ++ gp :: M).Nodup := hperm.nodup_iff.2 h.nodup
    have hgpM : gp ∉ M := (nodup_cons.1 (List.Nodup.of_append_right hnodup)).1
    have hgpN : gp ∉ A ++ N := fun hmem =>
      disjoint_of_nodup_append hnodup hmem mem_cons_self
    have hcyc : Cyclic s cp pp := by
      have hdM : d = gp ∨ d ∈ M → d ∉ A := fun hor hdA => by
        rcases hor with rfl | hM
        · exact hA hdA
        · exact disjoint_of_nodup_append hnodup (mem_append_left N hdA)
            (mem_cons_of_mem gp hM)
      have hdpp : d = s.pgeom pp := by
        rcases (mem_link_deps h hcp hnone).1 hd with hdpp | hd
        · exact hdpp
        · exact absurd (hdepsA d hd) (hdM hor)
      have hlead' : LeadsTo (s.link cp pp).deps gp d := by
        rcases hor with rfl | hM
        · exact ReflTransGen.refl
        · exact hlead d hM
      rw [Cyclic, ← hdpp]
      refine ReflTransGen.mono (fun a b hab => ?_) _ _ hlead'
      rw [Needs, ← hlink a hab.1]; exact hab.2
    -- the second call starts from the list that the first one left
    set u := s.reranked (A ++ N ++ gp :: M) rank with hu
    have hunlink : ((s.link cp pp).reranked (A ++ N ++ gp :: M) rank).unlink cp pp = u :=
      unlink_link hnone _ _
    have hplacedA : Placed s.deps ∅ A := by
      have hplaced := h.placed
      rw [hgeoms, Placed.append_iff] at hplaced; exact hplaced.1
    have hrankedA : Ranked s.deps rank A := by
      have hranked := h.ranked
      rw [hgeoms, Ranked.append_iff] at hranked
      exact hranked.1.congr hplacedA hrank fun c hc => absurd hc id
    have hdepsN : ∀ x ∈ N, s.deps x = (s.link cp pp).deps x := fun x hx =>
      (hlink x fun hxg => hgpN (mem_append_right A (hxg ▸ hx))).symm
    have hready' : Ready u (A ++ N) gp M := {
      geoms := rfl
      nodup := hnodup
      before := Placed.append_iff.2 ⟨hplacedA, by
        rw [Set.empty_union]
        exact hplaced.congr hdepsN⟩
      ranked := Ranked.append_iff.2 ⟨hrankedA, fun x hx => by
        have hx' : u.deps x = (s.link cp pp).deps x := hdepsN x hx
        rw [hx']
        exact hranked x hx⟩
      behind := hbehind.congr fun x hx => (hlink x fun hxg => hgpM (hxg ▸ hx)).symm
      dep_mem := fun d hd => hperm.mem_iff.2 (h.dep_mem hd) }
    obtain ⟨err, geoms, rank', hrun', hrank', hredo'⟩ := redoRank_spec hready'
    obtain rfl := hredo'.err_ok hready' fun d hd => mem_append_left N (hdepsA d hd)
    obtain ⟨hplaced', hranked'⟩ := hredo'.inv hready' hrank'
    have hlen' : u.geoms.length = s.geoms.length := hperm.length_eq
    have hperm' : geoms.Perm s.geoms := by
      refine hredo'.perm.trans (List.Perm.trans ?_ hperm)
      refine perm_iff_count.2 fun y => ?_
      simp only [count_append, count_cons, count_nil]; omega
    have hinv : Inv (s.reranked geoms rank') :=
      h.reranked rfl rfl rfl rfl rfl rfl h.provider hperm' hplaced' hranked'
    refine ⟨.ELOOP, _, fun fuel hfuel => ?_, {
      inv := hinv
      loop := ⟨fun _ => hcyc, fun _ => rfl⟩
      ok := fun herr => by cases herr
      failed := fun _ => ⟨rfl, rfl, fun g hg => ?_⟩ }⟩
    · have hfuel' : 2 * u.geoms.length ≤ fuel + 1 := by
        rw [hlen']; exact Nat.le_succ_of_le hfuel
      have hcgeom : ((s.link cp pp).reranked (A ++ N ++ gp :: M) rank).cgeom cp = gp := rfl
      rw [gAttach, if_neg hnot, hrun fuel (Nat.le_succ_of_le hfuel)]
      simp only [hunlink, hcgeom, hrun' fuel hfuel']; rfl
    · refine (Ranked.unique h.placed h.ranked (fun x hx => ?_) (fun c hc => absurd hc id) g
        ((h.mem_geoms g).2 hg)).symm
      exact hranked' x (hperm'.mem_iff.2 hx)

theorem gDetach_spec (h : Inv s) (hcp : cp < s.nconsumer) (hsome : s.provider cp ≠ none) :
    ∃ t, (∀ fuel, 2 * s.geoms.length ≤ fuel → gDetach fuel s cp = some t) ∧ Inv t ∧
      t.provider = update s.provider cp none := by
  obtain ⟨pp, hp⟩ := ne_none_iff_exists'.1 hsome
  obtain ⟨A, R, hgeoms, hA, hR, hdepsA⟩ := h.split hcp
  set gp := s.cgeom cp with hgp
  have hready : Ready (s.unlink cp pp) A gp R :=
    h.ready hgeoms rfl rfl (fun x hx => unlink_deps h pp hx) fun d hd =>
      h.dep_mem (mem_of_unlink_deps hd)
  obtain ⟨err, geoms, rank, hrun, hrank, hredo⟩ := redoRank_spec hready
  obtain rfl := hredo.err_ok hready fun d hd => hdepsA d (mem_of_unlink_deps hd)
  obtain ⟨hplaced, hranked⟩ := hredo.inv hready hrank
  have hperm : geoms.Perm s.geoms := by
    refine hredo.perm.trans ?_
    rw [hgeoms]
    refine perm_iff_count.2 fun y => ?_
    simp only [count_append, count_cons, count_nil]; omega
  have hinv : Inv ((s.unlink cp pp).reranked geoms rank) :=
    h.reranked rfl rfl rfl rfl rfl rfl (fun c qq hq => h.provider c qq (unlink_provider hq)) hperm
      hplaced hranked
  refine ⟨_, fun fuel hfuel => ?_, hinv, rfl⟩
  rw [gDetach, hp]; exact congrArg (Option.map Prod.snd) (hrun fuel (Nat.le_succ_of_le hfuel))

/-! ## New geoms, consumers and providers -/

theorem gNewGeom_inv (h : Inv s) : Inv (gNewGeom s) := by
  have hfresh : ∀ g ∈ s.geoms, g ≠ s.ngeom := fun g hg => ne_of_lt ((h.mem_geoms g).1 hg)
  have hconsumer : ∀ g, (gNewGeom s).consumer g = s.consumer g := fun g => by
    by_cases hg : g = s.ngeom
    · have hnil : s.consumer s.ngeom = [] := by
        refine eq_nil_iff_forall_not_mem.2 fun cp hcp => ?_
        obtain ⟨hlt, heq⟩ := (h.mem_consumer s.ngeom cp).1 hcp
        exact lt_irrefl _ (heq ▸ h.cgeom cp hlt)
      rw [hg, hnil]; exact update_self s.ngeom [] s.consumer
    · exact update_of_ne hg [] s.consumer
  have hdeps : (gNewGeom s).deps = s.deps := funext fun g => by
    rw [State.deps, hconsumer, State.deps]; rfl
  have hnone : s.deps s.ngeom = [] := by
    refine eq_nil_iff_forall_not_mem.2 fun d hd => ?_
    exact hfresh _ (h.mem_of_dep hd) rfl
  have hrank : ∀ g ∈ s.geoms, (gNewGeom s).rank g = s.rank g := fun g hg =>
    update_of_ne (hfresh g hg) 1 s.rank
  have hself : (gNewGeom s).rank s.ngeom = 1 := update_self s.ngeom 1 s.rank
  exact {
    mem_geoms := fun g => by
      have hmem := h.mem_geoms g
      have hcons : g ∈ (gNewGeom s).geoms ↔ g = s.ngeom ∨ g ∈ s.geoms := mem_cons
      have hn : (gNewGeom s).ngeom = s.ngeom + 1 := rfl
      rw [hcons, hn, hmem, Nat.lt_succ_iff_lt_or_eq]; exact or_comm
    nodup := nodup_cons.2 ⟨fun hmem => hfresh _ hmem rfl, h.nodup⟩
    placed := by
      rw [hdeps]
      refine ⟨fun d hd => ?_, h.placed.mono (Set.empty_subset _)⟩
      rw [hnone] at hd; exact absurd hd not_mem_nil
    ranked := by
      rw [hdeps]
      intro g hg
      rcases mem_cons.1 hg with rfl | hg
      · rw [hself, hnone]; rfl
      · rw [hrank g hg, h.ranked g hg]; exact level_congr fun d hd => (hrank d (h.dep_mem hd)).symm
    mem_consumer := fun g cp => by rw [hconsumer]; exact h.mem_consumer g cp
    cgeom := fun cp hcp => Nat.lt_succ_of_lt (h.cgeom cp hcp)
    provider := h.provider
    pgeom := fun pp hpp => Nat.lt_succ_of_lt (h.pgeom pp hpp) }

theorem gNewConsumer_inv (h : Inv s) (hgp : gp < s.ngeom) : Inv (gNewConsumer s gp) := by
  have hself : (gNewConsumer s gp).provider s.nconsumer = none := by simp [gNewConsumer]
  have hother : ∀ c, c ≠ s.nconsumer → (gNewConsumer s gp).provider c = s.provider c :=
    fun c hc => by simp [gNewConsumer, hc]
  have hcgself : (gNewConsumer s gp).cgeom s.nconsumer = gp := by simp [gNewConsumer]
  have hcg : ∀ c, c ≠ s.nconsumer → (gNewConsumer s gp).cgeom c = s.cgeom c :=
    fun c hc => by simp [gNewConsumer, hc]
  have hne : ∀ {g c}, c ∈ s.consumer g → c ≠ s.nconsumer := fun {g c} hc =>
    ne_of_lt ((h.mem_consumer g c).1 hc).1
  have hconsumer : ∀ g, (gNewConsumer s gp).consumer g =
      if g = gp then s.nconsumer :: s.consumer g else s.consumer g := fun g => by
    split
    · next hg =>
      rw [hg]; exact update_self gp _ s.consumer
    · next hg => exact update_of_ne hg _ s.consumer
  -- the new consumer is not attached
  have hold : ∀ g, (gNewConsumer s gp).depsOf (s.consumer g) = s.deps g := fun g => by
    refine filterMap_congr fun c hc => ?_
    rw [hother c (hne hc)]; rfl
  have hdeps : (gNewConsumer s gp).deps = s.deps := funext fun g => by
    rw [State.deps, hconsumer]
    split
    · rw [depsOf_none hself, hold]
    · exact hold g
  exact {
    mem_geoms := h.mem_geoms
    nodup := h.nodup
    placed := hdeps ▸ h.placed
    ranked := by rw [hdeps]; exact h.ranked
    mem_consumer := fun g cp => by
      have hn : (gNewConsumer s gp).nconsumer = s.nconsumer + 1 := rfl
      have hmem := h.mem_consumer g cp
      rw [hconsumer, hn]
      by_cases hcp : cp = s.nconsumer
      · have hnot : cp ∉ s.consumer g := fun hc => hne hc hcp
        rw [show (gNewConsumer s gp).cgeom cp = gp from hcp ▸ hcgself]
        split
        · next hg => exact ⟨fun _ => ⟨hcp ▸ Nat.lt_succ_self _, hg.symm⟩,
            fun _ => hcp ▸ mem_cons_self⟩
        · next hg => exact ⟨fun hc => absurd hc hnot, fun hc => absurd hc.2.symm hg⟩
      · have hlt : cp < s.nconsumer + 1 ↔ cp < s.nconsumer :=
          Nat.lt_succ_iff_lt_or_eq.trans (or_iff_left hcp)
        rw [hcg cp hcp, hlt, ← hmem]
        split
        · rw [mem_cons, or_iff_right hcp]
        · exact Iff.rfl
    cgeom := fun cp hcp => by
      by_cases hc : cp = s.nconsumer
      · rw [hc, hcgself]; exact hgp
      · rw [hcg cp hc]; exact h.cgeom cp (lt_of_le_of_ne (Nat.le_of_lt_succ hcp) hc)
    provider := fun cp pp hp => by
      by_cases hc : cp = s.nconsumer
      · rw [hc, hself] at hp
        cases hp
      · rw [hother cp hc] at hp; exact h.provider cp pp hp
    pgeom := h.pgeom }

theorem gNewProvider_inv (h : Inv s) (hgp : gp < s.ngeom) : Inv (gNewProvider s gp) := by
  have hpgeom : ∀ pp, pp ≠ s.nprovider → (gNewProvider s gp).pgeom pp = s.pgeom pp :=
    fun pp hpp => by simp [gNewProvider, hpp]
  have hself : (gNewProvider s gp).pgeom s.nprovider = gp := by simp [gNewProvider]
  have hdeps : (gNewProvider s gp).deps = s.deps := funext fun g => by
    refine filterMap_congr fun c _ => ?_
    have hp : (gNewProvider s gp).provider c = s.provider c := rfl
    rw [hp]
    cases hc : s.provider c with
    | none => rfl
    | some pp =>
      rw [map_some, map_some, hpgeom pp (ne_of_lt (h.provider c pp hc))]
  exact {
    mem_geoms := h.mem_geoms
    nodup := h.nodup
    placed := hdeps ▸ h.placed
    ranked := by rw [hdeps]; exact h.ranked
    mem_consumer := h.mem_consumer
    cgeom := h.cgeom
    provider := fun cp pp hp => Nat.lt_succ_of_lt (h.provider cp pp hp)
    pgeom := fun pp hpp => by
      by_cases hp : pp = s.nprovider
      · rw [hp, hself]; exact hgp
      · rw [hpgeom pp hp]
        exact h.pgeom pp (lt_of_le_of_ne (Nat.le_of_lt_succ hpp) hp) }

/-! ## Runs -/

theorem init_inv : Inv init where
  mem_geoms g := ⟨fun h => absurd h not_mem_nil, fun h => absurd h (Nat.not_lt_zero g)⟩
  nodup := nodup_nil
  placed := trivial
  ranked x hx := absurd hx not_mem_nil
  mem_consumer g cp :=
    ⟨fun h => absurd h not_mem_nil, fun h => absurd h.1 (Nat.not_lt_zero cp)⟩
  cgeom cp h := absurd h (Nat.not_lt_zero cp)
  provider _ _ h := by cases h
  pgeom pp h := absurd h (Nat.not_lt_zero pp)

theorem step_inv (h : Inv s) (hstep : step s op = some (t, r)) : Inv t := by
  cases op with
  | newGeom =>
    obtain ⟨rfl, -⟩ := Prod.mk.inj (some.inj hstep)
    exact gNewGeom_inv h
  | newConsumer gp =>
    rw [step] at hstep
    split at hstep
    · next hgp =>
      obtain ⟨rfl, -⟩ := Prod.mk.inj (some.inj hstep)
      exact gNewConsumer_inv h hgp
    · cases hstep
  | newProvider gp =>
    rw [step] at hstep
    split at hstep
    · next hgp =>
      obtain ⟨rfl, -⟩ := Prod.mk.inj (some.inj hstep)
      exact gNewProvider_inv h hgp
    · cases hstep
  | attach cp pp =>
    rw [step] at hstep
    split at hstep
    · next hlt =>
      by_cases hnone : s.provider cp = none
      · obtain ⟨err, u, hrun, hatt⟩ := gAttach_spec h hlt.1 hlt.2 hnone
        rw [hrun s.fuel le_rfl] at hstep
        obtain ⟨rfl, -⟩ := Prod.mk.inj (some.inj hstep)
        exact hatt.inv
      · rw [gAttach, if_pos hnone] at hstep
        cases hstep
    · cases hstep
  | detach cp =>
    rw [step] at hstep
    split at hstep
    · next hlt =>
      by_cases hnone : s.provider cp = none
      · rw [gDetach, hnone] at hstep
        cases hstep
      · obtain ⟨u, hrun, hinv, -⟩ := gDetach_spec h hlt hnone
        rw [hrun s.fuel le_rfl] at hstep
        obtain ⟨rfl, -⟩ := Prod.mk.inj (some.inj hstep)
        exact hinv
    · cases hstep

/-- The mesh as it should be. -/
structure Mesh (s : State) : Prop where
  /-- The list has all the geoms, each once. -/
  geoms : s.geoms.Nodup ∧ ∀ g, g ∈ s.geoms ↔ g < s.ngeom
  /-- A geom comes after those that it consumes from. -/
  order : ∀ A x R, s.geoms = A ++ x :: R → ∀ d ∈ s.deps x, d ∈ A
  rank : ∀ g < s.ngeom, s.rank g = 1 + ((s.deps g).map s.rank).foldr max 0 ∧ s.rank g ≠ 0
  /-- `g_attach` ends and fails exactly where the new edge closes a cycle. -/
  attach : ∀ cp pp, cp < s.nconsumer → pp < s.nprovider → s.provider cp = none →
    ∃ err t, (∀ fuel, 2 * s.geoms.length ≤ fuel → gAttach fuel s cp pp = some (err, t)) ∧
      (err = .ELOOP ↔ Cyclic s cp pp) ∧
      (err = .ok → t.provider = Function.update s.provider cp (some pp)) ∧
      (err = .ELOOP → t.provider = s.provider ∧ t.consumers = s.consumers ∧
        ∀ g < s.ngeom, t.rank g = s.rank g)
  /-- `g_detach` ends. -/
  detach : ∀ cp, cp < s.nconsumer → s.provider cp ≠ none →
    ∃ t, (∀ fuel, 2 * s.geoms.length ≤ fuel → gDetach fuel s cp = some t) ∧
      t.provider = Function.update s.provider cp none

theorem Inv.mesh (h : Inv s) : Mesh s where
  geoms := ⟨h.nodup, h.mem_geoms⟩
  order A x R hgeoms d hd := by
    have hplaced := h.placed
    rw [hgeoms, Placed.append_iff] at hplaced; exact (hplaced.2.1 d hd).resolve_left fun hd => hd
  rank g hg := by
    have hmem := (h.mem_geoms g).2 hg
    exact ⟨h.ranked g hmem, (h.ranked.pos hmem).ne'⟩
  attach cp pp hcp hpp hnone := by
    obtain ⟨err, t, hrun, hatt⟩ := gAttach_spec h hcp hpp hnone
    exact ⟨err, t, hrun, hatt.loop, fun herr => (hatt.ok herr).1, hatt.failed⟩
  detach cp hcp hsome := by
    obtain ⟨t, hrun, -, hprovider⟩ := gDetach_spec h hcp hsome
    exact ⟨t, hrun, hprovider⟩

/-- Any sequence of calls. -/
def Any (_ : State) (_ : Op) : Prop := True

/-- **The mesh.** After any sequence of calls the geoms are in topological order and have the ranks
    of the mesh, and the next call of `g_attach` or `g_detach` ends. -/
theorem mesh_of_run (hrun : Runs step Any init s) : Mesh s :=
  (hrun.invariant init_inv fun _ _ _ _ h _ hstep => step_inv h hstep).mesh

theorem mesh_of_run_new : Mesh (gNewGeom init) :=
  mesh_of_run (Runs.refl.tail (show Any init .newGeom from trivial) rfl)

/-- Two geoms that consume from each other: the second edge is refused. -/
example : ((exec step init [.newGeom, .newGeom, .newConsumer 0, .newProvider 1, .newConsumer 1,
    .newProvider 0, .attach 0 0]).bind fun s => (step s (.attach 1 1)).map Prod.snd) =
      some .ELOOP := by
  decide

end FreeBSD.GeomSubr
