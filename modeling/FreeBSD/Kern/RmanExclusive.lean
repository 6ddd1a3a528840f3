import FreeBSD.Kern.RmanRegions

/-!
# Exclusive and timeshared reservations

A range reserved without `RF_SHAREABLE` and `RF_TIMESHARE` has one holder, and
of the holders of a timeshared range at most one is active (`Exclusion`), for as
long as no exclusive reservation takes over an entry that still has one of
these flags from an earlier holder (`TakesClean`): the flags of a released
entry are not reset, and those of a reservation of a whole entry are added to
them.

Results:
* `Clients`: the invariant, on top of `Inv`.
* `exclusion_of_run`: whole runs.
-/

namespace FreeBSD.SubrRman

open FreeBSD.Lib.Segments List Option

/-! ## The invariant -/

/-- `RF_SHAREABLE|RF_TIMESHARE`. -/
def rfShared : BitVec 32 := rfShareable ||| rfTimeshare

/-- The flags of an exclusive reservation. -/
def Exclusive (f : BitVec 32) : Prop := f &&& rfShared = 0

instance (f : BitVec 32) : Decidable (Exclusive f) := inferInstanceAs (Decidable (_ = _))

/-- What holds of the sharers of an entry `e` and of the clients among them. -/
structure ClientsOk (rm : Rman) (held : List (ℕ × BitVec 32)) (e : ℕ) : Prop where
  excl : ∀ c ∈ held, c.1 ∈ rm.sharers e → Exclusive c.2 →
    (rm.res e).rSharehead = none ∧ Exclusive (rm.res e).rFlags
  time : ∀ c ∈ held, c.1 ∈ rm.sharers e → c.2 &&& rfTimeshare ≠ 0 → (rm.res c.1).has rfTimeshare
  agree : ∀ x ∈ rm.sharers e, (rm.res x).has rfTimeshare ↔ (rm.res e).has rfTimeshare
  active : ∀ x ∈ rm.sharers e, ∀ y ∈ rm.sharers e, (rm.res e).has rfTimeshare →
    (rm.res x).has rfActive → (rm.res y).has rfActive → x = y

/-- The invariant of exclusive and timeshared reservations. -/
def Clients (s : Sys) : Prop := ∀ e ∈ s.rm.rmList, ClientsOk s.rm s.held e

/-- Who holds a resource across the step from `s` to `t` finds it timeshared as before. -/
def KeepsTimeshare (s t : Sys) : Prop :=
  ∀ b ∈ s.held.map Prod.fst, b ∈ t.held.map Prod.fst →
    ((t.rm.res b).has rfTimeshare ↔ (s.rm.res b).has rfTimeshare)

variable {rm rm' : Rman} {e rv : ℕ} {s : Sys} {l₁ E M l₂ : List ℕ} {op : Op}

/-- An unshared entry that no client holds. -/
theorem ClientsOk.of_unheld {held : List (ℕ × BitVec 32)}
    (hh : (rm.res e).rSharehead = none) (hheld : e ∉ held.map Prod.fst) : ClientsOk rm held e := by
  have hsharers := sharers_none hh
  have hnot : ∀ c ∈ held, c.1 ∉ rm.sharers e := by
    intro c hc hce
    rw [hsharers, mem_singleton] at hce; exact hheld (mem_map.2 ⟨c, hc, hce⟩)
  refine ⟨fun c hc hce => absurd hce (hnot c hc), fun c hc hce => absurd hce (hnot c hc), ?_, ?_⟩
  · intro x hx
    rw [hsharers, mem_singleton] at hx
    rw [hx]
  · intro x hx y hy _ _ _
    rw [hsharers, mem_singleton] at hx hy
    rw [hx, hy]

/-- The entries around a spliced part, whose clients stay as they were. -/
theorem Splice.clients {held' : List (ℕ × BitVec 32)} (hs : Splice s.rm rm' l₁ E M l₂) (hI : Inv s)
    (hC : Clients s)
    (hI' : Inv { rm := rm', held := held' })
    (hheld : ∀ c ∈ held', c ∈ s.held ∨ ∃ m ∈ M, c.1 ∈ rm'.sharers m)
    (hM : ∀ m ∈ M, ClientsOk rm' held' m) : Clients { rm := rm', held := held' } := by
  intro a ha
  have ha' : a ∈ rm'.rmList := ha
  by_cases haM : a ∈ M
  · exact hM a haM
  have hrest : a ∈ l₁ ++ l₂ := by
    rw [hs.after] at ha'
    simp only [mem_append] at ha' ⊢; tauto
  have hsharers := (hs.rest hI hrest).2
  have hres : ∀ x ∈ s.rm.sharers a, rm'.res x = s.rm.res x := fun x => hs.res_eq hI hrest
  have hself := hres a (hI.entry a (hs.mem_of_rest hrest)).self_mem
  have hCa := hC a (hs.mem_of_rest hrest)
  -- who holds a sharer of `a` did so before
  have hold : ∀ c ∈ held', c.1 ∈ rm'.sharers a → c ∈ s.held := by
    intro c hc hca
    refine (hheld c hc).resolve_right ?_
    rintro ⟨m, hm, hcm⟩
    have hmem : m ∈ rm'.rmList := by rw [hs.after]; simp [hm]
    have := (hI'.entry a ha).unique (hI'.entry m hmem) ha hca hcm
    exact haM (this ▸ hm)
  refine ⟨fun c hc hca => ?_, fun c hc hca => ?_, fun x hx => ?_, fun x hx y hy => ?_⟩
  · show Exclusive c.2 → (rm'.res a).rSharehead = none ∧ Exclusive (rm'.res a).rFlags
    rw [hself]; exact hCa.excl c (hold c hc hca) (hsharers ▸ hca)
  · show c.2 &&& rfTimeshare ≠ 0 → (rm'.res c.1).has rfTimeshare
    rw [hres c.1 (hsharers ▸ hca)]; exact hCa.time c (hold c hc hca) (hsharers ▸ hca)
  · show (rm'.res x).has rfTimeshare ↔ (rm'.res a).has rfTimeshare
    rw [hself, hres x (hsharers ▸ hx)]; exact hCa.agree x (hsharers ▸ hx)
  · show (rm'.res a).has rfTimeshare → (rm'.res x).has rfActive → (rm'.res y).has rfActive → x = y
    rw [hself, hres x (hsharers ▸ hx), hres y (hsharers ▸ hy)]
    exact hCa.active x (hsharers ▸ hx) y (hsharers ▸ hy)

theorem Splice.keeps {held' : List (ℕ × BitVec 32)} (hs : Splice s.rm rm' l₁ E M l₂) (hI : Inv s)
    (hE : ∀ b ∈ s.held.map Prod.fst, b ∈ held'.map Prod.fst → ∀ e ∈ E, b ∈ s.rm.sharers e →
      ((rm'.res b).has rfTimeshare ↔ (s.rm.res b).has rfTimeshare)) :
    KeepsTimeshare s { rm := rm', held := held' } := by
  intro b hb hb'
  show (rm'.res b).has rfTimeshare ↔ (s.rm.res b).has rfTimeshare
  by_cases hbE : ∃ e ∈ E, b ∈ s.rm.sharers e
  · obtain ⟨e, he, hbe⟩ := hbE
    exact hE b hb hb' e he hbe
  · rw [hs.res b (hI.held_lt hb) fun e he hbe => hbE ⟨e, he, hbe⟩]

/-! ## Reservation -/

theorem Carve.clients {f : BitVec 32} (hc : Carve s.rm rm' l₁ e M l₂ rv) (hI : Inv s)
    (hC : Clients s)
    (hfree : ¬ (s.rm.res e).has rfAllocated)
    (hexcl : Exclusive f → Exclusive (rm'.res rv).rFlags)
    (htime : f &&& rfTimeshare ≠ 0 → (rm'.res rv).has rfTimeshare) :
    Clients { rm := rm', held := (rv, f) :: s.held } ∧
      KeepsTimeshare s { rm := rm', held := (rv, f) :: s.held } := by
  have hsharers : s.rm.sharers e = [e] := sharers_none (hI.head_of_free hc.mem hfree)
  have hs := hc.splice hsharers
  have hnew : ∀ m ∈ M, m ∉ s.held.map Prod.fst := by
    intro m hm
    rcases (hc.new m hm).1 with h | h
    · rw [h]; exact hI.not_held_of_free hc.mem hfree
    · intro hr
      have := hI.held_lt hr; omega
  constructor
  · refine hs.clients hI hC (hc.inv hI hfree f).1 ?_ ?_
    · intro c hcm
      rcases mem_cons.1 hcm with rfl | hcm
      · refine .inr ⟨rv, hc.rv_mem, ?_⟩
        rw [sharers_none (hc.new rv hc.rv_mem).2.2]; simp
      · exact .inl hcm
    · intro m hm
      have hh := (hc.new m hm).2.2
      by_cases hmr : m = rv
      · subst hmr
        have hone : ∀ c ∈ (m, f) :: s.held, c.1 ∈ rm'.sharers m → c = (m, f) := by
          intro c hcm hcs
          rw [sharers_none hh, mem_singleton] at hcs
          refine (mem_cons.1 hcm).resolve_right fun h => ?_
          exact hnew m hm (mem_map.2 ⟨c, h, hcs⟩)
        refine ⟨fun c hcm hcs hce => ?_, fun c hcm hcs hct => ?_, fun x hx => ?_,
          fun x hx y hy _ _ _ => ?_⟩
        · rw [hone c hcm hcs] at hce; exact ⟨hh, hexcl hce⟩
        · rw [hone c hcm hcs] at hct ⊢; exact htime hct
        · rw [sharers_none hh, mem_singleton] at hx
          rw [hx]
        · rw [sharers_none hh, mem_singleton] at hx hy
          rw [hx, hy]
      · refine ClientsOk.of_unheld hh fun hmem => ?_
        rw [map_cons, mem_cons] at hmem; exact hnew m hm (hmem.resolve_left hmr)
  · refine hs.keeps hI fun b hb _ e' he' hbe => ?_
    rw [mem_singleton] at he'
    rw [he', hsharers, mem_singleton] at hbe
    exact absurd (hbe ▸ hb) (hI.not_held_of_free hc.mem hfree)

/-! ## Sharing -/

namespace Reshare

variable {s : Sys} {rm' : Rman} {l₁ l₂ : List ℕ} {e m : ℕ} {held' : List (ℕ × BitVec 32)}

/-- Those that shared the entry before keep their flags. -/
theorem has_old (hr : Reshare s.rm rm' l₁ e m l₂) {f : BitVec 32} (hf : rfFirstshare &&& f = 0)
    {x : ℕ} (hx : x ∈ s.rm.sharers e) : (rm'.res x).has f ↔ (s.rm.res x).has f := by
  unfold Resource.has
  rw [← and_clear_of_disjoint hf, hr.old x hx, and_clear_of_disjoint hf]

/-- A new sharer is timeshared like the entry, and not active. -/
theorem has_new (hr : Reshare s.rm rm' l₁ e m l₂) {x : ℕ} (hx : x ∈ rm'.sharers m)
    (hnew : x ∉ s.rm.sharers e) :
    ((rm'.res x).has rfTimeshare ↔ (s.rm.res e).has rfTimeshare) ∧
      ¬ (rm'.res x).has rfActive := by
  have hflags := ((hr.new x hx).resolve_left hnew).2
  unfold Resource.has
  rw [hflags]
  refine ⟨and_and_ne_zero_of_subset (by decide), not_not.2 ?_⟩
  rw [BitVec.and_assoc, show (rfAllocated ||| rfShareable ||| rfTimeshare) &&& rfActive = 0
    by decide]
  exact BitVec.and_zero

theorem clients (hr : Reshare s.rm rm' l₁ e m l₂) (hI : Inv s) (hC : Clients s)
    (hI' : Inv { rm := rm', held := held' })
    (hheld : ∀ c ∈ held', c ∈ s.held ∨ c.1 ∈ rm'.sharers m)
    (hexcl : ∀ c ∈ held', c.1 ∈ rm'.sharers m → ¬ Exclusive c.2)
    (htime : ∀ c ∈ held', c ∉ s.held → c.2 &&& rfTimeshare ≠ 0 →
      (rm'.res c.1).has rfTimeshare) :
    Clients { rm := rm', held := held' } ∧ KeepsTimeshare s { rm := rm', held := held' } := by
  have he : e ∈ s.rm.rmList := by rw [hr.before]; simp
  have hCe := hC e he
  have hm : (rm'.res m).has rfTimeshare ↔ (s.rm.res e).has rfTimeshare :=
    (hr.has_old (by decide) hr.mem).trans (hCe.agree m hr.mem)
  constructor
  · refine hr.splice.clients hI hC hI' ?_ ?_
    · intro c hc
      rcases hheld c hc with h | h
      · exact .inl h
      · exact .inr ⟨m, by simp, h⟩
    · intro m' hm'
      rw [mem_singleton] at hm'
      subst hm'
      refine ⟨fun c hc hcx h => absurd h (hexcl c hc hcx), fun c hc hcx ht => ?_, fun x hx => ?_,
        fun x hx y hy ht hxa hya => ?_⟩
      · by_cases hold : c ∈ s.held
        · have hmem : c.1 ∈ s.rm.sharers e := by
            refine (hr.new c.1 hcx).resolve_right fun h => ?_
            have := hI.held_lt (mem_map.2 ⟨c, hold, rfl⟩); omega
          exact (hr.has_old (by decide) hmem).2 (hCe.time c hold hmem ht)
        · exact htime c hc hold ht
      · by_cases hxe : x ∈ s.rm.sharers e
        · exact ((hr.has_old (by decide) hxe).trans (hCe.agree x hxe)).trans hm.symm
        · exact (hr.has_new hx hxe).1.trans hm.symm
      · have hold : ∀ z ∈ rm'.sharers m', (rm'.res z).has rfActive →
            z ∈ s.rm.sharers e ∧ (s.rm.res z).has rfActive := by
          intro z hz hza
          by_cases hze : z ∈ s.rm.sharers e
          · exact ⟨hze, (hr.has_old (by decide) hze).1 hza⟩
          · exact absurd hza (hr.has_new hz hze).2
        obtain ⟨hx1, hx2⟩ := hold x hx hxa
        obtain ⟨hy1, hy2⟩ := hold y hy hya
        exact hCe.active x hx1 y hy1 (hm.1 ht) hx2 hy2
  · refine hr.splice.keeps hI fun b _ _ a ha hba => ?_
    rw [mem_singleton] at ha; exact hr.has_old (by decide) (ha ▸ hba)

end Reshare

theorem exclusive_baseFlags (q : Request) : Exclusive q.baseFlags ↔ Exclusive q.flags := by
  unfold Exclusive Request.baseFlags
  rw [and_clear_of_disjoint (by decide)]

theorem Joined.clients {e rv h : ℕ} {q : Request} (hj : Joined s.rm rm' e rv h) (hI : Inv s)
    (hC : Clients s) (hsh : Sharable s.rm q e)
    (hal : (s.rm.res e).has rfAllocated) (hq : ¬ Exclusive q.baseFlags)
    (hI' : Inv { rm := rm', held := (rv, q.flags) :: s.held }) :
    Clients { rm := rm', held := (rv, q.flags) :: s.held } ∧
      KeepsTimeshare s { rm := rm', held := (rv, q.flags) :: s.held } := by
  obtain ⟨l₁, l₂, hr⟩ := hj.reshare hI hsh.mem hal
  have hrv : rv ∈ rm'.sharers e := by rw [hj.sharers]; simp
  have hnew : rv ∉ s.rm.sharers e := fun hm => by
    have := (hI.entry e hsh.mem).sharer_lt hm
    have := hj.rv_eq; omega
  refine hr.clients hI hC hI' ?_ ?_ ?_
  · intro c hc
    rcases mem_cons.1 hc with rfl | hc
    · exact .inr hrv
    · exact .inl hc
  · intro c hc hce hexcl
    rcases mem_cons.1 hc with rfl | hc
    · exact hq ((exclusive_baseFlags q).2 hexcl)
    · have hmem : c.1 ∈ s.rm.sharers e := by
        rw [hj.sharers, mem_cons] at hce
        refine hce.resolve_left fun h => ?_
        have := hI.held_lt (mem_map.2 ⟨c, hc, rfl⟩)
        have := hj.rv_eq; omega
      -- an entry that is held exclusively has none of the flags asked for
      have hflags := (hC e hsh.mem).excl c hc hmem hexcl
      apply hq
      unfold Exclusive at hflags ⊢
      rw [← hsh.flags, BitVec.and_assoc, BitVec.and_comm q.baseFlags, ← BitVec.and_assoc,
        hflags.2]
      exact BitVec.zero_and
  · intro c hc hnot ht
    have hc' : c = (rv, q.flags) := (mem_cons.1 hc).resolve_right hnot
    subst hc'
    refine (hr.has_new hrv hnew).1.2 fun hz => ht ?_
    have hbase : q.baseFlags &&& rfTimeshare = 0 := by
      rw [← hsh.flags, BitVec.and_assoc, BitVec.and_comm q.baseFlags, ← BitVec.and_assoc, hz]
      exact BitVec.zero_and
    rwa [Request.baseFlags, and_clear_of_disjoint (by decide)] at hbase

/-! ## Release -/

theorem Left.clients {e m r h : ℕ} (hl : Left s.rm rm' l₁ e m l₂ r h) (hI : Inv s) (hC : Clients s)
    (hh : (s.rm.res e).rSharehead = some h)
    (hI' : Inv { rm := rm', held := s.without r }) :
    Clients { rm := rm', held := s.without r } ∧
      KeepsTimeshare s { rm := rm', held := s.without r } := by
  have he : e ∈ s.rm.rmList := by rw [hl.before]; simp
  have hsub : ∀ c ∈ s.without r, c ∈ s.held := fun c hc => (mem_filter.1 hc).1
  refine (hl.reshare hI hh).clients hI hC hI' (fun c hc => .inl (hsub c hc)) ?_ ?_
  · intro c hc hcm hexcl
    have hmem : c.1 ∈ s.rm.sharers e := by
      rw [hl.sharers] at hcm
      rw [sharers_some hh]; exact mem_of_mem_erase hcm
    have := (hC e he).excl c (hsub c hc) hmem hexcl
    rw [hh] at this; exact absurd this.1 (by simp)
  · exact fun c hc hnot => absurd (hsub c hc) hnot

theorem Merged.clients {m r : ℕ} (hm : Merged s.rm rm' l₁ E m l₂ r) (hI : Inv s) (hC : Clients s)
    (hh : (s.rm.res r).rSharehead = none) (hI' : Inv { rm := rm', held := s.without r }) :
    Clients { rm := rm', held := s.without r } ∧
      KeepsTimeshare s { rm := rm', held := s.without r } := by
  have hE := hm.mem_list
  have hs := hm.splice hI hh
  have hunheld : ∀ x ∈ E, x ∉ (s.without r).map Prod.fst := by
    intro x hx hx'
    obtain ⟨hheld, hne⟩ := mem_without.1 hx'
    exact hI.not_held_of_free (hE x hx) (hm.other x hx hne) hheld
  constructor
  · refine hs.clients hI hC hI' (fun c hc => .inl (mem_filter.1 hc).1) ?_
    intro x hx
    rw [mem_singleton] at hx
    rw [hx]
    exact ClientsOk.of_unheld (hm.head.trans (hm.head_none hI hh m hm.mem)) (hunheld m hm.mem)
  · refine hs.keeps hI fun b _ hb' a ha hba => ?_
    rw [sharers_none (hm.head_none hI hh a ha), mem_singleton] at hba
    exact absurd hb' (hunheld b (hba ▸ ha))

/-! ## Activation -/

theorem Reflag.clients (h : Reflag s.rm rm') (hC : Clients s)
    (hshared : ∀ x, (rm'.res x).rFlags &&& rfShared = (s.rm.res x).rFlags &&& rfShared)
    (hactive : ∀ e ∈ s.rm.rmList, (s.rm.res e).has rfTimeshare → ∀ x ∈ s.rm.sharers e,
      ∀ y ∈ s.rm.sharers e, (rm'.res x).has rfActive → (rm'.res y).has rfActive → x = y) :
    Clients { s with rm := rm' } ∧ KeepsTimeshare s { s with rm := rm' } := by
  have htime : ∀ x, (rm'.res x).has rfTimeshare ↔ (s.rm.res x).has rfTimeshare := by
    intro x
    unfold Resource.has
    rw [← and_and_ne_zero_of_subset (g := rfShared) (by decide), hshared x,
      and_and_ne_zero_of_subset (by decide)]
  refine ⟨fun e he => ?_, fun b _ _ => htime b⟩
  have he' : e ∈ s.rm.rmList := h.rmList ▸ he
  have hCe := hC e he'
  have hsharers : rm'.sharers e = s.rm.sharers e := h.sharers e
  refine ⟨?_, ?_, ?_, ?_⟩
  · show ∀ c ∈ s.held, c.1 ∈ rm'.sharers e → Exclusive c.2 →
      (rm'.res e).rSharehead = none ∧ (rm'.res e).rFlags &&& rfShared = 0
    rw [hsharers, hshared e, (h.agree e).head]; exact hCe.excl
  · show ∀ c ∈ s.held, c.1 ∈ rm'.sharers e → c.2 &&& rfTimeshare ≠ 0 →
      (rm'.res c.1).has rfTimeshare
    rw [hsharers]; exact fun c hc hce ht => (htime c.1).2 (hCe.time c hc hce ht)
  · show ∀ x ∈ rm'.sharers e, (rm'.res x).has rfTimeshare ↔ (rm'.res e).has rfTimeshare
    rw [hsharers]; exact fun x hx => ((htime x).trans (hCe.agree x hx)).trans (htime e).symm
  · show ∀ x ∈ rm'.sharers e, ∀ y ∈ rm'.sharers e, (rm'.res e).has rfTimeshare →
      (rm'.res x).has rfActive → (rm'.res y).has rfActive → x = y
    rw [hsharers]; exact fun x hx y hy ht => hactive e he' ((htime e).1 ht) x hx y hy

theorem intRmanDeactivateResource_res (rm : Rman) (r x : ℕ) :
    ((intRmanDeactivateResource rm r).res x).rFlags &&& rfShared = (rm.res x).rFlags &&& rfShared ∧
      (((intRmanDeactivateResource rm r).res x).has rfActive → (rm.res x).has rfActive) := by
  have hclear : ∀ (y : Resource) (g : BitVec 32), g &&& rfShared = 0 →
      (y.clearFlags g).rFlags &&& rfShared = y.rFlags &&& rfShared := fun y g hg =>
    and_clear_of_disjoint hg y.rFlags
  by_cases hx : x = r
  · subst hx
    -- what is left of the flags of `r` does not have `RF_ACTIVE`
    have hoff : ¬ ((rm.res x).clearFlags rfActive).has rfActive := by
      unfold Resource.has Resource.clearFlags
      rw [BitVec.and_assoc, show ~~~rfActive &&& rfActive = 0 by decide]
      exact not_not.2 BitVec.and_zero
    unfold intRmanDeactivateResource
    dsimp only
    split_ifs
    · simp only [Rman.update, Function.update_self]
      refine ⟨(hclear _ _ (by decide)).trans (hclear _ _ (by decide)), fun h => absurd ?_ hoff⟩
      exact (has_clearFlags _ (by decide)).1 h
    · simp only [Rman.update, Function.update_self]
      exact ⟨hclear _ _ (by decide), fun h => absurd h hoff⟩
  · have hres : (intRmanDeactivateResource rm r).res x = rm.res x := by
      unfold intRmanDeactivateResource
      dsimp only
      split_ifs <;> simp [Rman.update, hx]
    rw [hres]; exact ⟨rfl, id⟩

theorem Clients.deactivate (hC : Clients s) (r : ℕ) :
    Clients { s with rm := intRmanDeactivateResource s.rm r } ∧
      KeepsTimeshare s { s with rm := intRmanDeactivateResource s.rm r } := by
  refine (intRmanDeactivateResource_reflag s.rm r).clients hC
    (fun x => (intRmanDeactivateResource_res s.rm r x).1) fun e he ht x hx y hy hxa hya => ?_
  exact (hC e he).active x hx y hy ht ((intRmanDeactivateResource_res s.rm r x).2 hxa)
    ((intRmanDeactivateResource_res s.rm r y).2 hya)

theorem Clients.deactivated (hC : Clients s) (r : ℕ) : Clients { s with rm := deactivated s.rm r } ∧
      KeepsTimeshare s { s with rm := deactivated s.rm r } := by
  unfold SubrRman.deactivated
  split_ifs
  · exact hC.deactivate r
  · exact ⟨hC, fun _ _ _ => Iff.rfl⟩

/-- What activation ensures: it does nothing, or it sets `RF_ACTIVE` in a resource that has no
    timeshared holder beside it, is active already, or has no active holder beside it. -/
theorem intRmanActivateResource_guard (rm : Rman) (r : ℕ) :
    (intRmanActivateResource rm r).1 = rm ∨
      (intRmanActivateResource rm r).1 = rm.update r (·.setFlags rfActive) ∧
        ∀ h, (rm.res r).rSharehead = some h → (rm.res r).has rfTimeshare →
          (rm.res r).has rfActive ∨ ∀ x ∈ rm.sharelist h, ¬ (rm.res x).has rfActive := by
  unfold intRmanActivateResource
  dsimp only
  split
  · next hnone => exact .inr ⟨rfl, fun h h' => by rw [hnone] at h'; cases h'⟩
  · next h hh =>
    split_ifs with h1 h2
    · exact .inr ⟨rfl, fun _ _ ht => .inl (h1.resolve_left (not_not.2 ht))⟩
    · exact .inl rfl
    · refine .inr ⟨rfl, fun h' hh' _ => .inr fun x hx hact => h2 ?_⟩
      obtain rfl : h = h' := some.inj (hh.symm.trans hh')
      exact any_eq_true.2 ⟨x, hx, by simpa using hact⟩

theorem Clients.activate (hI : Inv s) (hC : Clients s) (r : ℕ) :
    Clients { s with rm := (intRmanActivateResource s.rm r).1 } ∧
      KeepsTimeshare s { s with rm := (intRmanActivateResource s.rm r).1 } := by
  rcases intRmanActivateResource_guard s.rm r with h | ⟨h, hguard⟩
  · rw [h]; exact ⟨hC, fun _ _ _ => Iff.rfl⟩
  have hother : ∀ x, x ≠ r → (s.rm.update r (·.setFlags rfActive)).res x = s.rm.res x :=
    fun x hx => by simp [Rman.update, hx]
  have hreflag := intRmanActivateResource_reflag s.rm r
  rw [h] at hreflag ⊢
  refine hreflag.clients hC (fun x => ?_) fun e he ht x hx y hy hxa hya => ?_
  · by_cases hx : x = r
    · subst hx
      simp only [Rman.update, Function.update_self, Resource.setFlags]
      rw [BitVec.and_or_distrib_right, show rfActive &&& rfShared = 0 by decide]
      exact BitVec.or_zero
    · rw [hother x hx]
  · -- if `r` is among the sharers, the others are not active
    have hok := hI.entry e he
    have halone : ∀ z ∈ s.rm.sharers e, r ∈ s.rm.sharers e → z ≠ r →
        ¬ (s.rm.res z).has rfActive := by
      intro z hz hr hzr hza
      cases hs : (s.rm.res e).rSharehead with
      | none =>
        rw [sharers_none hs, mem_singleton] at hz hr; exact hzr (hz.trans hr.symm)
      | some h' =>
        have hhr : (s.rm.res r).rSharehead = some h' := (hok.sharer_head hr).trans hs
        rcases hguard h' hhr (((hC e he).agree r hr).2 ht) with hra | hnone
        · exact hzr ((hC e he).active z hz r hr ht hza hra)
        · rw [sharers_some hs] at hz; exact hnone z hz hza
    by_cases hxr : x = r
    · by_contra hne
      have hyr : y ≠ r := fun hyr => hne (hxr.trans hyr.symm)
      rw [hother y hyr] at hya; exact halone y hy (hxr ▸ hx) hyr hya
    · rw [hother x hxr] at hxa
      by_cases hyr : y = r
      · exact absurd hxa (halone x hx (hyr ▸ hy) hxr)
      · rw [hother y hyr] at hya; exact (hC e he).active x hx y hy ht hxa hya

/-! ## The calls of the clients -/

/-- An exclusive reservation takes over no whole entry that still has `RF_SHAREABLE` or
    `RF_TIMESHARE` from an earlier holder. -/
def TakesClean (rm : Rman) (q : Request) (fuel : ℕ) : Prop :=
  Exclusive q.flags → ∀ e rstart,
    findUnshared rm q fuel (candidates rm q) = some (some (e, rstart)) →
    (rm.res e).rEnd - (rm.res e).rStart + 1 = q.count → Exclusive (rm.res e).rFlags

/-- The condition under which a call keeps exclusive and timeshared reservations apart. -/
def Op.Clean (rm : Rman) : Op → Prop
  | .reserve q fuel malloc1 _ => CarvesInside rm q fuel malloc1 ∧ TakesClean rm q fuel
  | .release _ => True
  | .activate _ => True
  | .deactivate _ => True

/-- The flags of what is taken: those asked for, on top of the old ones of a whole entry. -/
theorem takeUnshared_flags {q : Request} {rstart : BitVec 64} {malloc1 malloc2 : Bool}
    (helt : e < rm.brk)
    (h : takeUnshared rm q e rstart malloc1 malloc2 = (rm', some rv)) :
    (rm'.res rv).rFlags = q.baseFlags ||| rfAllocated ∨
      (rm.res e).rEnd - (rm.res e).rStart + 1 = q.count ∧
        (rm'.res rv).rFlags = (rm.res e).rFlags ||| (rfAllocated ||| q.baseFlags) := by
  have hbrk : rm.brk ≠ e := by omega
  unfold takeUnshared at h
  by_cases hsize : (rm.res e).rEnd - (rm.res e).rStart + 1 = q.count
  · rw [if_pos hsize] at h
    simp only [Prod.mk.injEq, Option.some.injEq] at h
    obtain ⟨rfl, rfl⟩ := h
    exact .inr ⟨hsize, by simp [Rman.update]⟩
  left
  rw [if_neg hsize] at h
  dsimp only [Rman.alloc] at h
  split_ifs at h
  all_goals
    simp only [Prod.mk.injEq, Option.some.injEq, reduceCtorEq, and_false] at h
  all_goals
    obtain ⟨rfl, rfl⟩ := h
    simp [Rman.update, hbrk]

namespace Clients

variable {s : Sys}

theorem reserveEntry (hI : Inv s) (hC : Clients s) {q : Request} {fuel rv : ℕ}
    {malloc1 malloc2 : Bool} {rm' : Rman} (hin : CarvesInside s.rm q fuel malloc1)
    (hclean : TakesClean s.rm q fuel)
    (h : reserveEntry s.rm q fuel malloc1 malloc2 = some (rm', some rv)) :
    Clients { rm := rm', held := (rv, q.flags) :: s.held } ∧
      KeepsTimeshare s { rm := rm', held := (rv, q.flags) :: s.held } := by
  have hI' := (hI.reserveEntry hin h q.flags).1
  rcases reserveEntry_cases hI h with ⟨-, h⟩ | ⟨e, rstart, rv', hrv, hun, hhit, ht⟩ |
    ⟨e, rv', hrv, hq, hsh, hal, ha⟩
  · cases h
  · obtain rfl := some.inj hrv
    obtain ⟨l₁, M, l₂, hc⟩ := takeUnshared_carve hI hhit (hin.hit hun ht) ht
    have hflags := takeUnshared_flags (hI.entry e hhit.mem).lt_brk ht
    refine hc.clients hI hC hhit.free (fun hf => ?_) fun hf => ?_
    · have hbase : q.baseFlags &&& rfShared = 0 := (exclusive_baseFlags q).2 hf
      unfold Exclusive
      rcases hflags with h | ⟨hsize, h⟩
      · rw [h, BitVec.and_or_distrib_right, hbase]; decide
      · have he : (s.rm.res e).rFlags &&& rfShared = 0 := hclean hf e rstart hun hsize
        rw [h, BitVec.and_or_distrib_right, BitVec.and_or_distrib_right, hbase, he]; decide
    · have hbase : q.baseFlags &&& rfTimeshare ≠ 0 := by
        rwa [Request.baseFlags, and_clear_of_disjoint (by decide)]
      unfold Resource.has
      rcases hflags with h | ⟨-, h⟩
      · rw [h]; exact (and_or_ne_zero _ _ _).2 (.inl hbase)
      · rw [h]; exact (and_or_ne_zero _ _ _).2 (.inr ((and_or_ne_zero _ _ _).2 (.inr hbase)))
  · obtain rfl := some.inj hrv
    have hok := hI.entry e hsh.mem
    obtain ⟨h', hj⟩ := addSharer_joined hok.lt_brk (fun h hh => (hok.share h hh).lt_brk) ha
    exact hj.clients hI hC hsh hal hq hI'

theorem release (hI : Inv s) (hC : Clients s) {r : ℕ} (hr : r ∈ s.held.map Prod.fst) {rm' : Rman}
    (h : intRmanReleaseResource s.rm r = some rm') :
    Clients { rm := rm', held := s.without r } ∧
      KeepsTimeshare s { rm := rm', held := s.without r } := by
  have hId := (deactivated_reflag s.rm r).inv hI
  obtain ⟨hCd, hKd⟩ := hC.deactivated r
  obtain ⟨rm'', h1, h2, -⟩ := hI.release hr
  obtain rfl : rm'' = rm' := some.inj (h1.symm.trans h)
  have hfinal : Clients { rm := rm'', held := s.without r } ∧
      KeepsTimeshare { s with rm := SubrRman.deactivated s.rm r }
        { rm := rm'', held := s.without r } := by
    obtain ⟨rm₃, heq, ⟨l₁, e, m, l₂, h, hh, hl⟩ | ⟨l₁, E, m, l₂, hh, hm⟩⟩ :=
      intRmanReleaseResource_cases hI hr
    · obtain rfl : rm₃ = rm'' := some.inj (heq.symm.trans h1)
      exact Left.clients (s := ⟨SubrRman.deactivated s.rm r, s.held⟩) hl hId hCd hh h2
    · obtain rfl : rm₃ = rm'' := some.inj (heq.symm.trans h1)
      exact Merged.clients (s := ⟨SubrRman.deactivated s.rm r, s.held⟩) hm hId hCd hh h2
  exact ⟨hfinal.1, fun b hb hb' => (hfinal.2 b hb hb').trans (hKd b hb hb)⟩

theorem reserve (hI : Inv s) (hC : Clients s) {q : Request} {fuel : ℕ} {malloc1 malloc2 : Bool}
    {rm' : Rman} {o : Option ℕ} (hin : CarvesInside s.rm q fuel malloc1)
    (hclean : TakesClean s.rm q fuel)
    (h : rmanReserveResourceBound s.rm q fuel malloc1 malloc2 = some (rm', o)) :
    Clients { rm := rm', held := (o.map fun r => (r, q.flags)).toList ++ s.held } ∧
      KeepsTimeshare s { rm := rm', held := (o.map fun r => (r, q.flags)).toList ++ s.held } := by
  rcases rmanReserveResourceBound_cases h with ⟨rfl, hent⟩ |
    ⟨rm₁, rv, hent, ⟨rfl, -, hrel⟩ | ⟨rfl, hact⟩⟩
  · rcases reserveEntry_cases hI hent with ⟨rfl, -⟩ | ⟨_, _, _, h, -⟩ | ⟨_, _, h, -⟩
    · exact ⟨hC, fun _ _ _ => Iff.rfl⟩
    · cases h
    · cases h
  · have hI₁ := (hI.reserveEntry hin hent q.flags).1
    obtain ⟨hC₁, hK₁⟩ := hC.reserveEntry hI hin hclean hent
    obtain ⟨hC₂, hK₂⟩ := hC₁.release hI₁ (r := rv) (by simp) hrel
    rw [without_cons hI₁.held_nodup] at hC₂ hK₂
    have hmem : ∀ b ∈ s.held.map Prod.fst, b ∈ ((rv, q.flags) :: s.held).map Prod.fst :=
      fun b hb => mem_cons_of_mem _ hb
    exact ⟨hC₂, fun b hb hb' => (hK₂ b (hmem b hb) hb').trans (hK₁ b hb (hmem b hb))⟩
  · have hI₁ := (hI.reserveEntry hin hent q.flags).1
    obtain ⟨hC₁, hK₁⟩ := hC.reserveEntry hI hin hclean hent
    rcases hact with rfl | rfl
    · exact ⟨hC₁, hK₁⟩
    · obtain ⟨hC₂, hK₂⟩ := hC₁.activate hI₁ rv
      have hmem : ∀ b ∈ s.held.map Prod.fst, b ∈ ((rv, q.flags) :: s.held).map Prod.fst :=
        fun b hb => mem_cons_of_mem _ hb
      exact ⟨hC₂, fun b hb hb' => (hK₂ b (hmem b hb) hb').trans (hK₁ b hb (hmem b hb))⟩

end Clients

theorem Op.Clean.inBounds (h : op.Clean rm) : (∃ r, op = .release r) ∨ op.InBounds rm := by
  cases op with
  | reserve q fuel malloc1 malloc2 => exact .inr h.1
  | release r => exact .inl ⟨r, rfl⟩
  | activate r => exact .inr trivial
  | deactivate r => exact .inr trivial

/-- `Inv.step` where releases may merge what does not touch. -/
theorem Inv.step_clean {s t : Sys} (hI : Inv s) (h : s.step op = some t) (hop : op.Clean s.rm) :
    Inv t := by
  rcases hop.inBounds with ⟨r, rfl⟩ | hin
  · simp only [Sys.step] at h
    split_ifs at h with hr
    obtain ⟨rm', hrel, rfl⟩ := map_eq_some_iff.1 h
    obtain ⟨rm'', h1, h2, -⟩ := hI.release hr
    obtain rfl : rm'' = rm' := some.inj (h1.symm.trans hrel)
    exact h2
  · exact (hI.step h hin).1

theorem Clients.step {s t : Sys} (hI : Inv s) (hC : Clients s) (h : s.step op = some t)
    (hop : op.Clean s.rm) : Clients t ∧ KeepsTimeshare s t := by
  cases op with
  | reserve q fuel malloc1 malloc2 =>
    obtain ⟨hin, hclean⟩ := hop
    simp only [Sys.step] at h
    cases hr : rmanReserveResourceBound s.rm q fuel malloc1 malloc2 with
    | none => simp [hr] at h
    | some p =>
      obtain ⟨rm', o⟩ := p
      have hres := hC.reserve hI hin hclean hr
      cases o with
      | none =>
        simp only [hr] at h; exact some.inj h ▸ hres
      | some r =>
        simp only [hr] at h; exact some.inj h ▸ hres
  | release r =>
    simp only [Sys.step] at h
    split_ifs at h with hr
    obtain ⟨rm', hrel, rfl⟩ := map_eq_some_iff.1 h
    exact hC.release hI hr hrel
  | activate r =>
    simp only [Sys.step] at h
    split_ifs at h with hr
    exact some.inj h ▸ hC.activate hI r
  | deactivate r =>
    simp only [Sys.step] at h
    split_ifs at h with hr
    exact some.inj h ▸ hC.deactivate r

/-! ## Runs -/

/-- The ranges of two resources have a common address. -/
def Meets (rm : Rman) (a b : ℕ) : Prop :=
  ∃ x, ((rm.res a).seg.1 ≤ x ∧ x ≤ (rm.res a).seg.2) ∧ (rm.res b).seg.1 ≤ x ∧ x ≤ (rm.res b).seg.2

/-- Exclusive reservations share no address with another one. Those that share one with a
    reservation with `RF_TIMESHARE` have this flag set, and of those that have it set and share
    an address at most one is active. -/
structure Exclusion (s : Sys) : Prop where
  exclusive : ∀ c ∈ s.held, ∀ d ∈ s.held, c.1 ≠ d.1 → Meets s.rm c.1 d.1 → ¬ Exclusive c.2
  timeshare : ∀ c ∈ s.held, ∀ d ∈ s.held, Meets s.rm c.1 d.1 → c.2 &&& rfTimeshare ≠ 0 →
    (s.rm.res d.1).has rfTimeshare
  active : ∀ c ∈ s.held, ∀ d ∈ s.held, c.1 ≠ d.1 → Meets s.rm c.1 d.1 →
    (s.rm.res c.1).has rfTimeshare → ¬ ((s.rm.res c.1).has rfActive ∧ (s.rm.res d.1).has rfActive)

/-- Resources that have a common address share an entry. -/
theorem Inv.shares_of_meets (hI : Inv s) {a b : ℕ} (ha : a ∈ s.held.map Prod.fst)
    (hb : b ∈ s.held.map Prod.fst) (hm : Meets s.rm a b) :
    ∃ e ∈ s.rm.rmList, a ∈ s.rm.sharers e ∧ b ∈ s.rm.sharers e := by
  obtain ⟨e, he, -, hae⟩ := hI.held a ha
  obtain ⟨e', he', -, hbe⟩ := hI.held b hb
  obtain ⟨x, hx, hx'⟩ := hm
  rw [(hI.entry e he).sharer_seg hae] at hx
  rw [(hI.entry e' he').sharer_seg hbe] at hx'
  suffices e = e' from ⟨e, he, hae, this ▸ hbe⟩
  by_contra hne
  -- the ranges of two entries have no common address
  obtain ⟨l₁, l₂, hl, -, -⟩ := hI.exists_split he
  have hord : Ordered s.rm.segs := hI.ordered
  rw [Rman.segs, hl, map_append, map_cons, ordered_append, ordered_cons] at hord
  obtain ⟨-, ⟨-, hafter, -⟩, hbefore⟩ := hord
  rw [hl, mem_append, mem_cons] at he'
  rcases he' with h | h | h
  · have := hbefore _ (mem_map.2 ⟨e', h, rfl⟩) _ mem_cons_self; omega
  · exact hne h.symm
  · have := hafter _ (mem_map.2 ⟨e', h, rfl⟩); omega

theorem Clients.exclusion (hI : Inv s) (hC : Clients s) : Exclusion s := by
  have hshare : ∀ c ∈ s.held, ∀ d ∈ s.held, Meets s.rm c.1 d.1 →
      ∃ e ∈ s.rm.rmList, c.1 ∈ s.rm.sharers e ∧ d.1 ∈ s.rm.sharers e := fun c hc d hd hm =>
    hI.shares_of_meets (mem_map.2 ⟨c, hc, rfl⟩) (mem_map.2 ⟨d, hd, rfl⟩) hm
  refine ⟨fun c hc d hd hne hm hexcl => ?_, fun c hc d hd hm ht => ?_,
    fun c hc d hd hne hm ht hact => ?_⟩
  · obtain ⟨e, he, hce, hde⟩ := hshare c hc d hd hm
    have hnone := ((hC e he).excl c hc hce hexcl).1
    rw [sharers_none hnone, mem_singleton] at hce hde; exact hne (hce.trans hde.symm)
  · obtain ⟨e, he, hce, hde⟩ := hshare c hc d hd hm
    exact ((hC e he).agree d.1 hde).2
      (((hC e he).agree c.1 hce).1 ((hC e he).time c hc hce ht))
  · obtain ⟨e, he, hce, hde⟩ := hshare c hc d hd hm
    exact hne ((hC e he).active c.1 hce d.1 hde (((hC e he).agree c.1 hce).1 ht) hact.1 hact.2)

end FreeBSD.SubrRman
