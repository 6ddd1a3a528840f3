import FreeBSD.Vm.VmMapRuns

/-!
# The addresses of a map

`vm_map_findspace` (`sys/vm/vm_map.c`, lines 896–953), what `vm_map_protect` does at each address,
and `vm_map_check_protection` (lines 2234–2264). The search for space begins behind the hint
`first_free`. Addresses have `w` bits; that the kernel's own map makes room for page tables is left
out.

Results:
* `findspace_of_run`: in every run whose insertions fit the hint, the search finds the lowest range
  that is free, or none is.
* `space_unseen`: a first range that leaves a gap in front of it becomes the hint, since the header
  ends where the map does, and the gap is not found.
* `protect_addresses`: `vm_map_protect` changes the addresses of its range, or none.
* `protect_gives_object`: an entry without object that is clipped gets one.
* `checkProtection_of_run`: in every run, the check of a range looks at each of its addresses.
-/

namespace FreeBSD.Vm.VmMap

open Lib List Option

/-! ## Finding space -/

/-- The loop of `vm_map_findspace`, lines 925–943, which is at `entry`. -/
def findLoop (w : ℕ) (m : VmMap) (length : ℕ) : ℕ → ℕ → ℕ → Option (Option ℕ)
  | 0, _, _ => none
  | fuel + 1, start, entry =>
    let end_ := (start + length) % 2 ^ w
    if m.maxOffset < end_ ∨ end_ < start then some none
    else
      let next := m.next entry
      if next = header ∨ end_ ≤ (m.entry next).start then some (some start)
      else findLoop w m length fuel (m.entry next).end_ next

/-- `vm_map_findspace`, lines 896–953: the address, if it is successful. -/
def findspace (w : ℕ) (m : VmMap) (start length : ℕ) : Option (VmMap × Option ℕ) := do
  let start := if start < m.minOffset then m.minOffset else start
  if m.maxOffset < start then some (m, none)
  else if start = m.minOffset then
    let entry := m.firstFree
    let start := if entry ≠ header then (m.entry entry).end_ else start
    let r ← m.findLoop w length m.fresh start entry
    some (m, r)
  else
    let (m, found, tmp) ← m.lookupEntry start
    let start := if found then (m.entry tmp).end_ else start
    let r ← m.findLoop w length m.fresh start tmp
    some (m, r)

/-- A range that begins at the address lies in the map, and meets no entry. -/
def Fits (m : VmMap) (ids : List ℕ) (length a : ℕ) : Prop :=
  a + length ≤ m.maxOffset ∧ ∀ e ∈ ids, a + length ≤ (m.entry e).start ∨ (m.entry e).end_ ≤ a

/-- The lowest address from `start` on at which a range fits, or that there is none. -/
def Lowest (m : VmMap) (ids : List ℕ) (length start : ℕ) : Option ℕ → Prop
  | some a => IsLeast {a | start ≤ a ∧ Fits m ids length a} a
  | none => ∀ a, start ≤ a → ¬ Fits m ids length a

variable {m m' : VmMap} {ids xs ys : List ℕ} {lo top w length start : ℕ} {r : Option ℕ}

/-- A search may begin at a higher address, if nothing fits in between. -/
theorem Lowest.shift {start' : ℕ} (h : Lowest m ids length start' r)
    (hshift : ∀ a, Fits m ids length a → (start ≤ a ↔
      start' ≤ a)) : Lowest m ids length start r := by
  cases r with
  | none =>
    intro a ha hfits; exact h a ((hshift a hfits).1 ha) hfits
  | some a =>
    obtain ⟨⟨hle, hfits⟩, hlow⟩ := h
    refine ⟨⟨(hshift a hfits).2 hle, hfits⟩, fun b hb => hlow ⟨?_, hb.2⟩⟩
    exact (hshift b hb.2).1 hb.1

/-- What fits does not meet an entry. -/
theorem Fits.end_le {a e b : ℕ} (h : Fits m ids length a) (hlen : 1 ≤ length) (he : e ∈ ids)
    (hb : Has (m.entry e) b) (hab : a ≤ b) (hba : b < a + length) : False := by
  have := hb.1
  have := hb.2
  rcases h.2 e he with hfits | hfits
  · omega
  · omega

theorem findLoop_spec (htop : top < 2 ^ w) (hlen : 1 ≤ length) (hlen' : length < 2 ^ w) :
    ∀ fuel xs ys start, WF lo top m (xs ++ ys) → CutAt m start xs ys → start ≤ top →
      ys.length < fuel → ∃ r, m.findLoop w length fuel start (xs.getLastD header) = some r ∧
        Lowest m (xs ++ ys) length start r := by
  intro fuel
  induction fuel with
  | zero =>
    intro xs ys start _ _ _ hfuel; exact absurd hfuel (Nat.not_lt_zero _)
  | succ fuel ih =>
    intro xs ys start h hcut hle hfuel
    unfold findLoop
    have hnext : m.next (xs.getLastD header) = ys.headD header := h.linked.ring.next_last
    have hend : (start + length) % 2 ^ w = start + length ∨
        (start + length) % 2 ^ w < start ∧ 2 ^ w ≤ start + length := by
      rcases lt_or_ge (start + length) (2 ^ w) with hlt | hge
      · exact .inl (Nat.mod_eq_of_lt hlt)
      · rw [Nat.mod_eq_sub_mod hge, Nat.mod_eq_of_lt (by omega)]
        omega
    have hmax := h.top_eq
    by_cases hbad : m.maxOffset < (start + length) % 2 ^ w ∨ (start + length) % 2 ^ w < start
    · refine ⟨none, if_pos hbad, fun a ha hfits => ?_⟩
      have := hfits.1; omega
    rw [if_neg hbad]
    have hsum : (start + length) % 2 ^ w = start + length := hend.resolve_right fun hlt =>
      hbad (.inr hlt.1)
    rw [hsum] at hbad
    simp only [hsum, hnext]
    have hgap : (∀ e ∈ ys, start + length ≤ (m.entry e).start) →
        Lowest m (xs ++ ys) length start (some start) := by
      intro hys
      refine ⟨⟨le_rfl, by omega, fun e he => ?_⟩, fun a ha => ha.1⟩
      exact (mem_append.1 he).elim (fun he => .inr (hcut.1 e he)) fun he => .inl (hys e he)
    cases ys with
    | nil => exact ⟨_, if_pos (.inl rfl), hgap (by simp)⟩
    | cons e ys =>
      rw [headD_cons]
      by_cases hfit : start + length ≤ (m.entry e).start
      · exact ⟨_, if_pos (.inr hfit), hgap (h.head_le (by simpa using hfit))⟩
      · have hne : e ≠ header := h.ne_header (by simp)
        have hsplit : xs ++ e :: ys = xs ++ [e] ++ ys := by simp
        have hb := h.ranges.bounds e (by simp)
        obtain ⟨r, hr, hlow⟩ := ih (xs ++ [e]) ys (m.entry e).end_ (hsplit ▸ h) h.cutAt_end
          hb.le_top (by simpa using hfuel)
        rw [getLastD_concat] at hr
        rw [if_neg (by simp [hne, hfit])]
        refine ⟨r, hr, hsplit ▸ hlow.shift fun a hfits => ?_⟩
        -- what fits behind `start` does not fit in front of the entry
        have hes := hcut.2 e (by simp)
        have := hb.lt
        rcases hfits.2 e (by simp) with hfront | hbehind
        · omega
        · omega

/-- The search finds the lowest address. -/
theorem findspace_spec (h : Valid lo top m ids) (hint : HintOk m ids) (htop : top < 2 ^ w)
    (hlen : 1 ≤ length) (hlen' : length < 2 ^ w) (start : ℕ) :
    ∃ m' r, m.findspace w start length = some (m', r) ∧
      Lowest m ids length (max start m.minOffset) r := by
  unfold findspace
  have hmax : (if start < m.minOffset then m.minOffset else start) = max start m.minOffset := by
    split_ifs <;> omega
  simp only [hmax]
  generalize hs : max start m.minOffset = s
  have hmin : m.minOffset ≤ s := hs ▸ le_max_right _ _
  have hfuel : ∀ {xs ys : List ℕ}, xs ++ ys = ids → ys.length < m.fresh := by
    rintro xs ys rfl
    have := h.wf.length_lt
    rw [length_append] at this; omega
  by_cases hbig : m.maxOffset < s
  · refine ⟨m, none, if_pos hbig, fun a ha hfits => ?_⟩
    have := hfits.1; omega
  rw [if_neg hbig]
  have hle : s ≤ top := h.wf.top_eq ▸ not_lt.1 hbig
  by_cases heq : s = m.minOffset
  · rw [if_pos heq]
    rcases hint with hzero | ⟨hmem, hcov⟩
    · have hcut : CutAt m s [] ids := ⟨by simp, fun b hb => by
        rw [heq, h.wf.lo_eq]
        exact (h.wf.ranges.bounds b hb).lo_le⟩
      obtain ⟨r, hr, hlow⟩ := findLoop_spec htop hlen hlen' m.fresh [] ids s h.wf hcut hle
        (hfuel (nil_append ids))
      rw [getLastD_nil] at hr; exact ⟨m, r, by simp [hzero, hr], hlow⟩
    · obtain ⟨xs, ys, rfl⟩ := append_of_mem hmem
      have hsplit : xs ++ m.firstFree :: ys = xs ++ [m.firstFree] ++ ys := by simp
      have hb := h.wf.ranges.bounds m.firstFree (by simp)
      obtain ⟨r, hr, hlow⟩ := findLoop_spec htop hlen hlen' m.fresh (xs ++ [m.firstFree]) ys
        (m.entry m.firstFree).end_ (hsplit ▸ h.wf) h.wf.cutAt_end hb.le_top (hfuel hsplit.symm)
      rw [getLastD_concat] at hr
      refine ⟨m, r, by simp [h.wf.ne_header hmem, hr], hsplit ▸ hlow.shift fun a hfits => ?_⟩
      have := h.wf.lo_eq
      have := hb.lo_le
      have := hb.lt
      constructor
      · intro ha
        by_contra hlt
        obtain ⟨e, he, hea⟩ := hcov a (by omega) (not_le.1 hlt)
        exact Fits.end_le (hsplit.symm ▸ hfits) hlen he hea le_rfl (by omega)
      · omega
  · rw [if_neg heq]
    obtain ⟨k, r, found, e, hlook, hl, xs, ys, hxs, hys, hres⟩ :=
      lookupEntry_spec h.wf.linked h.wf.ranges s
    have hw : WF lo top { m with links := k, root := r } ids := h.wf.relink hl h.wf.ranges
    rw [hlook]
    cases found with
    | false =>
      obtain ⟨rfl, rfl⟩ : ids = xs ++ ys ∧ e = xs.getLastD header := by simpa using hres
      obtain ⟨r', hr, hlow⟩ := findLoop_spec htop hlen hlen' m.fresh xs ys s hw
        ⟨hxs, fun b hb => (hys b hb).le⟩ hle (hfuel rfl)
      refine ⟨{ m with links := k, root := r }, r', ?_, hlow⟩
      simp only [bind_eq_bind, bind_some, Bool.false_eq_true, if_false, hr]
    | true =>
      obtain ⟨rfl, hstart, hend⟩ : ids = xs ++ e :: ys ∧ (m.entry e).start ≤ s ∧
          s < (m.entry e).end_ := by simpa using hres
      have hsplit : xs ++ e :: ys = xs ++ [e] ++ ys := by simp
      obtain ⟨r', hr, hlow⟩ := findLoop_spec htop hlen hlen' m.fresh (xs ++ [e]) ys
        (m.entry e).end_ (hsplit ▸ hw) hw.cutAt_end (h.wf.ranges.bounds e (by simp)).le_top
        (hfuel hsplit.symm)
      rw [getLastD_concat] at hr
      refine ⟨{ m with links := k, root := r }, r', ?_, hsplit ▸ hlow.shift fun a hfits => ?_⟩
      · simp only [bind_eq_bind, bind_some, if_true, hr]
      rcases hfits.2 e (by simp) with hfront | hbehind
      · have : a + length ≤ (m.entry e).start := hfront
        show s ≤ a ↔ (m.entry e).end_ ≤ a
        omega
      · have : (m.entry e).end_ ≤ a := hbehind
        show s ≤ a ↔ (m.entry e).end_ ≤ a
        omega

/-- In the entries of the map, the search finds the lowest address at which a range is free. -/
def FindsLowest (w : ℕ) (m : VmMap) : Prop :=
  ∃ ids, Ring m.next m.prev header ids ∧ header ∉ ids ∧ ∀ start length, 1 ≤ length →
    length < 2 ^ w → ∃ m' r, m.findspace w start length = some (m', r) ∧
      Lowest m ids length (max start m.minOffset) r

/-- In every run whose insertions fit the hint, the search for space is right. -/
theorem findspace_of_run {systemMap : Bool} {min max : ℕ} (hmax : max < 2 ^ w)
    (hrun : Runs step (fun m call => m.Wellformed call ∧ m.Hinted call)
      (init systemMap min max) m) :
    m.FindsLowest w := by
  have hinv : ∃ ids, Valid min max m ids ∧ Settled m ids ∧ HintOk m ids := by
    refine hrun.invariant (I := fun m => ∃ ids, Valid min max m ids ∧ Settled m ids ∧ HintOk m ids)
      ⟨[], init_valid systemMap min max, by simp [Settled], .inl rfl⟩ ?_
    rintro m ⟨env, op⟩ m' r ⟨ids, h, hset, hok⟩ ⟨hw, hh⟩ hstep
    have hc : m.Clips (env, op) := by
      cases op with
      | submap => exact hh.elim
      | _ => trivial
    obtain ⟨m₁, r₁, ids', hs, hl⟩ := step_spec h hset hw hc
    obtain ⟨rfl, -⟩ := Prod.mk.inj (Option.some.inj (hs.symm.trans hstep))
    exact ⟨ids', hl.valid, hl.settled hset, hl.hint hh hok⟩
  obtain ⟨ids, h, -, hok⟩ := hinv
  exact ⟨ids, h.wf.linked.ring, h.wf.header_notMem, fun start length hlen hlen' =>
    findspace_spec h hok hmax hlen hlen' start⟩

/-- A run of one insertion, where the map begins. -/
theorem findspace_of_run_first : ∃ m r,
    step (init false 0 100) (plainEnv, .insert none 0 0 16 3 7 {}) = some (m, r) ∧
    m.FindsLowest 32 := by
  have hcall : (init false 0 100).Wellformed (plainEnv, .insert none 0 0 16 3 7 {}) ∧
      (init false 0 100).Hinted (plainEnv, .insert none 0 0 16 3 7 {}) :=
    ⟨trivial, fun _ _ _ _ _ _ _ => Nat.zero_le _⟩
  exact ⟨_, _, rfl, findspace_of_run (by decide) (Runs.refl.tail hcall rfl)⟩

/-- The first range leaves a gap of 48 addresses, and the search says that there are no 40. -/
theorem space_unseen : ¬ ∀ m, Runs step (fun m call => m.Wellformed call ∧
    ∃ start end_, call = (plainEnv, .insert none 0 start end_ 3 7 {})) (init false 0 100) m →
    m.FindsLowest 32 := by
  intro hall
  obtain ⟨m, hrun, hm⟩ := Lib.exists_of_exec step (P := fun m call => m.Wellformed call ∧
    ∃ start end_, call = (plainEnv, .insert none 0 start end_ 3 7 {})) (s := init false 0 100)
    (f := fun m => ([m.next header, m.next 2, (m.entry 2).start, m.minOffset, m.maxOffset],
      (m.findspace 32 0 40).map Prod.snd))
    (b := ([2, header, 48, 0, 100], some none))
    [(plainEnv, .insert none 0 48 64 3 7 {})]
    (by
      intro s op hop
      obtain rfl := mem_singleton.1 hop
      exact ⟨trivial, _, _, rfl⟩)
    (by decide +kernel)
  simp only [Prod.mk.injEq, List.cons.injEq, and_true] at hm
  obtain ⟨⟨hfirst, hsecond, hstart, hmin, hmax⟩, hfound⟩ := hm
  obtain ⟨ids, hring, hheader, hfind⟩ := hall m hrun
  obtain rfl : ids = [2] := by
    have hhead := (hring [] ids rfl).1
    cases ids with
    | nil => exact absurd (hhead.symm.trans hfirst) (by decide)
    | cons e ids =>
      obtain rfl : 2 = e := hfirst.symm.trans hhead
      have htail := hsecond.symm.trans (hring [2] ids rfl).1
      cases ids with
      | nil => rfl
      | cons e ids =>
        obtain rfl : header = e := htail
        exact absurd (by simp) hheader
  obtain ⟨m', r, hr, hlow⟩ := hfind 0 40 (by decide) (by decide)
  obtain rfl : r = none := by simpa [hr] using hfound
  exact hlow 0 (by simp [hmin]) ⟨by omega, by simp [hstart]⟩

/-! ## Protecting a range -/

/-- The protection of an entry is within its maximum. -/
def Ordered (x : Entry) : Prop := x.protection &&& x.maxProtection = x.protection

/-- What an entry said of an address, and what one says after `vm_map_protect`. -/
structure Protected (newProt : VmProt) (setMax : Bool) (start end_ : ℕ) (r : KernReturn) (a : ℕ)
    (x y : Entry) : Prop where
  inside : r = .success → start ≤ a → a < end_ →
    if setMax then y.maxProtection = newProt ∧ y.protection = newProt &&& x.protection
    else y.protection = newProt
  failed : r ≠ .success → y.protection = x.protection ∧ y.maxProtection = x.maxProtection
  outside : ¬ (start ≤ a ∧ a < end_) → attrs y = attrs x ∧ ∀ o, x.object = some o →
    y.object = some o ∧ y.offset + (a - y.start : ℤ) = x.offset + (a - x.start : ℤ)

/-- The range that is checked holds the same addresses of the map. -/
theorem rangeCheck_iff {a start end_ : ℕ} (hlo : m.minOffset ≤ a) (hhi : a < m.maxOffset) :
    ((m.rangeCheck start end_).1 ≤ a ∧ a < (m.rangeCheck start end_).2) ↔
      start ≤ a ∧ a < end_ := by
  unfold rangeCheck
  simp only
  split_ifs <;> omega

/-- `vm_map_protect` changes the addresses of its range, or none. -/
theorem protect_addresses (env : ObjectEnv) (h : Valid lo top m ids) (start end_ : ℕ)
    (newProt : VmProt) (setMax : Bool) :
    ∃ m' r ids', m.protect env start end_ newProt setMax = some (m', r) ∧
      Valid lo top m' ids' ∧
      (∀ a, (∃ e ∈ ids, Has (m.entry e) a) ↔ ∃ e ∈ ids', Has (m'.entry e) a) ∧
      (∀ a, ∀ e ∈ ids, ∀ e' ∈ ids', Has (m.entry e) a → Has (m'.entry e') a →
        Protected newProt setMax start end_ r a (m.entry e) (m'.entry e')) ∧
      ((∀ e ∈ ids, Ordered (m.entry e)) → ∀ e ∈ ids', Ordered (m'.entry e)) := by
  obtain ⟨m', r, ids', hp, ⟨hv, -⟩, hres⟩ := protect_spec env h start end_ newProt setMax
  refine ⟨m', r, ids', hp, hv, ?_⟩
  have hiff : ∀ e ∈ ids, ∀ a, Has (m.entry e) a → (((m.rangeCheck start end_).1 ≤ a ∧
      a < (m.rangeCheck start end_).2) ↔ start ≤ a ∧ a < end_) := by
    intro e he a ha
    have hb := h.wf.ranges.bounds e he
    refine rangeCheck_iff ?_ ?_
    · rw [h.wf.lo_eq]; exact hb.lo_le.trans ha.1
    · rw [h.wf.top_eq]; exact ha.2.trans_le hb.le_top
  -- both results relate the entries at each address
  have key : ∀ {R : ℕ → Entry → Entry → Prop}, Tracks R m ids m' ids' →
      (∀ a, ∀ e ∈ ids, ∀ y, Has (m.entry e) a → R a (m.entry e) y →
        Protected newProt setMax start end_ r a (m.entry e) y ∧
        (Ordered (m.entry e) → Ordered y)) →
      (∀ a, (∃ e ∈ ids, Has (m.entry e) a) ↔ ∃ e ∈ ids', Has (m'.entry e) a) ∧
      (∀ a, ∀ e ∈ ids, ∀ e' ∈ ids', Has (m.entry e) a → Has (m'.entry e') a →
        Protected newProt setMax start end_ r a (m.entry e) (m'.entry e')) ∧
      ((∀ e ∈ ids, Ordered (m.entry e)) → ∀ e ∈ ids', Ordered (m'.entry e)) := by
    intro R ht hR
    have hat : ∀ a, ∀ e ∈ ids, ∀ e' ∈ ids', Has (m.entry e) a → Has (m'.entry e') a →
        R a (m.entry e) (m'.entry e') := by
      intro a e he e' he' ha ha'
      obtain ⟨c, hc, hca, hrel⟩ := (ht a).1 e he ha
      obtain rfl := hv.wf.has_unique he' hc ha' hca
      exact hrel
    refine ⟨fun a => ⟨fun ⟨e, he, ha⟩ => ht.covers a e he ha, fun ⟨e, he, ha⟩ => (ht a).2 e he ha⟩,
      fun a e he e' he' ha ha' => (hR a e he _ ha (hat a e he e' he' ha ha')).1,
      fun hall e' he' => ?_⟩
    have hlt := (hv.wf.ranges.bounds e' he').lt
    obtain ⟨e, he, ha⟩ := (ht (m'.entry e').start).2 e' he' ⟨le_rfl, hlt⟩
    exact (hR _ e he _ ha (hat _ e he e' he' ha ⟨le_rfl, hlt⟩)).2 (hall e he)
  have hkeep : ∀ {a x y}, Keeps a x y → Ordered x → Ordered y := by
    intro a x y hk hx
    have hattrs := hk.attrs
    simp only [attrs, Prod.mk.injEq] at hattrs
    unfold Ordered
    rw [hattrs.1, hattrs.2.1]; exact hx
  rcases hres with ⟨rfl, hk, hcheck⟩ | ⟨hne, hk⟩
  · refine key hk.tracks fun a e he y ha hR => ?_
    unfold changed at hR
    by_cases hin : start ≤ a ∧ a < end_
    · have hran := (hiff e he a ha).2 hin
      rw [if_pos hran] at hR
      have hattrs := hR.attrs
      have hmax := hcheck e he a hran.1 hran.2 ha
      unfold protectEntry at hattrs
      cases setMax with
      | true =>
        simp only [attrs, if_true, Prod.mk.injEq] at hattrs
        refine ⟨⟨fun _ _ _ => ⟨hattrs.2.1, hattrs.1⟩, fun hr => absurd rfl hr, fun hout =>
          absurd hin hout⟩, fun _ => ?_⟩
        unfold Ordered
        rw [hattrs.1, hattrs.2.1, BitVec.and_comm newProt, BitVec.and_assoc, BitVec.and_self]
      | false =>
        simp only [attrs, Bool.false_eq_true, if_false, Prod.mk.injEq] at hattrs
        refine ⟨⟨fun _ _ _ => hattrs.1, fun hr => absurd rfl hr, fun hout => absurd hin hout⟩,
          fun _ => ?_⟩
        unfold Ordered
        rw [hattrs.1, hattrs.2.1, hmax]
    · rw [if_neg fun hran => hin ((hiff e he a ha).1 hran)] at hR
      exact ⟨⟨fun _ hs ht => absurd ⟨hs, ht⟩ hin, fun hr => absurd rfl hr, fun _ =>
        ⟨hR.attrs, hR.object⟩⟩, hkeep hR⟩
  · refine key hk.tracks fun a e he y ha hR => ⟨⟨fun hr => absurd hr hne, fun _ => ?_, fun _ =>
      ⟨hR.attrs, hR.object⟩⟩, hkeep hR⟩
    have hattrs := hR.attrs
    simp only [attrs, Prod.mk.injEq] at hattrs; exact ⟨hattrs.1, hattrs.2.1⟩

/-- A map of one entry, of which a part is protected. -/
theorem protect_addresses_first : ∃ m r, ∃ ids : List ℕ, ∃ m' r' ids',
    (init false 0 100).insert plainEnv none 0 0 64 3 7 {} = some (m, r) ∧
    m.protect plainEnv 16 32 1 false = some (m', r') ∧ Valid 0 100 m' ids' ∧
    ∀ a, (∃ e ∈ ids, Has (m.entry e) a) ↔ ∃ e ∈ ids', Has (m'.entry e) a := by
  obtain ⟨m, r, ids, hins, ⟨hv, -⟩⟩ :=
    insert_spec plainEnv (init_valid false 0 100) none 0 0 64 3 7 {}
  obtain ⟨m', r', ids', hp, hv', hiff, -⟩ := protect_addresses plainEnv hv 16 32 1 false
  exact ⟨m, r, ids, m', r', ids', hins, hp, hv', hiff⟩

/-- What a search finds contains the address. -/
theorem Valid.found (h : Valid lo top m ids) {a e : ℕ}
    (hlook : (m.lookupEntry a).map Prod.snd = some (true, e)) : e ∈ ids ∧ Has (m.entry e) a := by
  obtain ⟨m₁, found, c, hl, -, hres⟩ := h.organized.lookup a
  rw [hl, map_some, Option.some.injEq, Prod.mk.injEq] at hlook
  obtain ⟨rfl, rfl⟩ := hlook
  exact hres

/-- The entry from 0 to 64 has no object, and the range from 16 to 32 is protected: the address 40
    gets an object. -/
theorem protect_gives_object : ¬ ∀ m m' r ids ids', Valid 0 100 m ids →
    m.protect plainEnv 16 32 1 false = some (m', r) → Valid 0 100 m' ids' →
    ∀ e ∈ ids, ∀ e' ∈ ids', Has (m.entry e) 40 → Has (m'.entry e') 40 →
      (m'.entry e').object = (m.entry e).object := by
  intro hall
  obtain ⟨m, r, ids, hins, ⟨hv, -⟩⟩ :=
    insert_spec plainEnv (init_valid false 0 100) none 0 0 64 3 7 {}
  obtain ⟨m', r', ids', hp, ⟨hv', -⟩, -⟩ := protect_spec plainEnv hv 16 32 1 false
  have hcomp : (((init false 0 100).insert plainEnv none 0 0 64 3 7 {}).bind fun p =>
      (p.1.protect plainEnv 16 32 1 false).map fun p' =>
        (((p.1.lookupEntry 40).map Prod.snd, (p.1.entry 2).object),
          ((p'.1.lookupEntry 40).map Prod.snd, (p'.1.entry 4).object))) =
      some ((some (true, 2), none), (some (true, 4), some 0)) := by
    decide +kernel
  simp only [hins, hp, Option.bind_some, Option.map_some, Option.some.injEq, Prod.mk.injEq] at hcomp
  obtain ⟨⟨hlook, hobj⟩, hlook', hobj'⟩ := hcomp
  obtain ⟨he, ha⟩ := hv.found hlook
  obtain ⟨he', ha'⟩ := hv'.found hlook'
  have heq := hall m m' r' ids ids' hv hp hv' 2 he 4 he' ha ha'
  rw [hobj, hobj'] at heq
  cases heq

/-! ## Checking a range -/

/-- The loop of `vm_map_check_protection`, lines 2245–2263, which is at `entry`. -/
def checkLoop (m : VmMap) (end_ : ℕ) (protection : VmProt) : ℕ → ℕ → ℕ → Option Bool
  | 0, _, _ => none
  | fuel + 1, start, entry =>
    if start < end_ then
      if entry = header ∨ start < (m.entry entry).start then some false
      else if (m.entry entry).protection &&& protection ≠ protection then some false
      else checkLoop m end_ protection fuel (m.entry entry).end_ (m.next entry)
    else some true

/-- `vm_map_check_protection`, lines 2234–2264. -/
def checkProtection (m : VmMap) (start end_ : ℕ) (protection : VmProt) :
    Option (VmMap × Bool) := do
  let (m, found, entry) ← m.lookupEntry start
  if found then (m.checkLoop end_ protection m.fresh start entry).map (m, ·)
  else some (m, false)

/-- An entry contains the address, and allows what is asked. -/
def Allows (m : VmMap) (ids : List ℕ) (protection : VmProt) (a : ℕ) : Prop :=
  ∃ e ∈ ids, Has (m.entry e) a ∧ (m.entry e).protection &&& protection = protection

/-- From an entry on that ends behind `start`, the loop looks at all addresses of the range. -/
theorem checkLoop_spec (end_ : ℕ) (protection : VmProt) : ∀ fuel xs ys start,
    WF lo top m (xs ++ ys) → (∀ e ∈ ys.head?, start < (m.entry e).end_) → ys.length < fuel →
    ∃ r, m.checkLoop end_ protection fuel start (ys.headD header) = some r ∧
      (r = true ↔ ∀ a, start ≤ a → a < end_ → Allows m ys protection a) := by
  intro fuel
  induction fuel with
  | zero => exact fun _ _ _ _ _ hfuel => absurd hfuel (Nat.not_lt_zero _)
  | succ fuel ih =>
    intro xs ys start h hys hfuel
    rw [checkLoop]
    by_cases hlt : start < end_
    swap
    · exact ⟨true, if_neg hlt, fun _ a hs ha => absurd (hs.trans_lt ha) hlt, fun _ => rfl⟩
    rw [if_pos hlt]
    -- the answer is no if the first address is not allowed
    have hno : ¬ Allows m ys protection start →
        (false = true ↔ ∀ a, start ≤ a → a < end_ → Allows m ys protection a) :=
      fun hnot => ⟨by simp, fun hall => absurd (hall start le_rfl hlt) hnot⟩
    cases ys with
    | nil => exact ⟨false, if_pos (.inl rfl), hno (by simp [Allows])⟩
    | cons e ys =>
      have hend := hys e rfl
      have hafter : ∀ c ∈ ys, (m.entry e).end_ ≤ (m.entry c).start := fun c hc =>
        h.ranges.end_le hc
      have honly : Allows m (e :: ys) protection start → (m.entry e).start ≤ start ∧
          (m.entry e).protection &&& protection = protection := by
        rintro ⟨c, hc, hs, hp⟩
        rcases mem_cons.1 hc with rfl | hc
        · exact ⟨hs.1, hp⟩
        · exact absurd (hs.1.trans_lt hend) (hafter c hc).not_gt
      rw [headD_cons]
      by_cases hgap : start < (m.entry e).start
      · exact ⟨false, if_pos (.inr hgap), hno fun hal => (honly hal).1.not_gt hgap⟩
      rw [if_neg (by simp [h.ne_header (show e ∈ xs ++ e :: ys by simp), hgap])]
      by_cases hprot : (m.entry e).protection &&& protection = protection
      swap
      · exact ⟨false, if_pos hprot, hno fun hal => hprot (honly hal).2⟩
      obtain ⟨r, hr, hiff⟩ := ih (xs ++ [e]) ys (m.entry e).end_ (by simpa using h)
        (fun c hc => (hafter c (mem_of_mem_head? hc)).trans_lt
          (h.ranges.bounds c (by simp [mem_of_mem_head? hc])).lt) (by simpa using hfuel)
      rw [if_neg (not_not.2 hprot), h.next_eq]
      refine ⟨r, hr, hiff.trans ⟨fun hall a hs ha => ?_, fun hall a hs ha => ?_⟩⟩
      · rcases lt_or_ge a (m.entry e).end_ with hin | hout
        · exact ⟨e, mem_cons_self, ⟨(not_lt.1 hgap).trans hs, hin⟩, hprot⟩
        · obtain ⟨c, hc, hal⟩ := hall a hout ha
          exact ⟨c, mem_cons_of_mem _ hc, hal⟩
      · obtain ⟨c, hc, hal⟩ := hall a (hend.le.trans hs) ha
        rcases mem_cons.1 hc with rfl | hc
        · exact absurd hal.1.2 hs.not_gt
        · exact ⟨c, hc, hal⟩

/-- A check of a range says if it begins in an entry and all its addresses are in entries that allow
    what is asked; nothing but the tree changes. -/
def ChecksRanges (m : VmMap) : Prop :=
  ∃ ids, Ring m.next m.prev header ids ∧ header ∉ ids ∧ ∀ start end_ protection, ∃ k root r,
    m.checkProtection start end_ protection = some ({ m with links := k, root := root }, r) ∧
      (r = true ↔ (∃ e ∈ ids, Has (m.entry e) start) ∧
        ∀ a, start ≤ a → a < end_ → Allows m ids protection a)

/-- In every run, the check of a range is right. -/
theorem checkProtection_of_run {systemMap : Bool} {min max : ℕ}
    (hrun : Runs step (fun m call => m.Wellformed call ∧ m.Clips call) (init systemMap min max) m) :
    m.ChecksRanges := by
  obtain ⟨ids, h, -⟩ : ∃ ids, Valid min max m ids ∧ Settled m ids := by
    refine hrun.invariant (I := fun m => ∃ ids, Valid min max m ids ∧ Settled m ids)
      ⟨[], init_valid systemMap min max, by simp [Settled]⟩ ?_
    rintro m call m' r ⟨ids, h, hset⟩ ⟨hw, hc⟩ hstep
    obtain ⟨m₁, r₁, ids', hs, hl⟩ := step_spec h hset hw hc
    obtain ⟨rfl, -⟩ := Prod.mk.inj (Option.some.inj (hs.symm.trans hstep))
    exact ⟨ids', hl.valid, hl.settled hset⟩
  refine ⟨ids, h.wf.linked.ring, h.wf.header_notMem, fun start end_ protection => ?_⟩
  obtain ⟨k, root, found, e, hlook, hl, xs, ys, hxs, hys, hres⟩ :=
    lookupEntry_spec h.wf.linked h.wf.ranges start
  unfold checkProtection
  rw [hlook]
  cases found with
  | false =>
    obtain ⟨rfl, -⟩ : ids = xs ++ ys ∧ e = xs.getLastD header := by simpa using hres
    refine ⟨k, root, false, rfl, by simp, ?_⟩
    rintro ⟨⟨c, hc, hs⟩, -⟩
    rcases mem_append.1 hc with hc | hc
    · exact absurd hs.2 (hxs c hc).not_gt
    · exact absurd hs.1 (hys c hc).not_ge
  | true =>
    obtain ⟨rfl, hs, he⟩ : ids = xs ++ e :: ys ∧ (m.entry e).start ≤ start ∧
        start < (m.entry e).end_ := by simpa using hres
    have hlen := h.wf.length_lt
    obtain ⟨r, hr, hiff⟩ := checkLoop_spec end_ protection m.fresh xs (e :: ys) start
      (h.wf.relink hl h.wf.ranges) (by simpa using he) (by rw [length_append] at hlen; omega)
    refine ⟨k, root, r, congrArg (Option.map _) hr, hiff.trans ⟨fun hall => ?_, fun hall => ?_⟩⟩
    · refine ⟨⟨e, by simp, hs, he⟩, fun a ha ha' => ?_⟩
      obtain ⟨c, hc, hal⟩ := hall a ha ha'
      exact ⟨c, mem_append_right _ hc, hal⟩
    · intro a ha ha'
      obtain ⟨c, hc, hal⟩ := hall.2 a ha ha'
      exact ⟨c, (mem_append.1 hc).resolve_left fun hx =>
        absurd hal.1.2 ((hxs c hx).trans ha).not_gt, hal⟩

/-- A run of one insertion. -/
theorem checkProtection_of_run_first : ∃ m r,
    step (init false 0 100) (plainEnv, .insert none 0 48 64 3 7 {}) = some (m, r) ∧
    m.ChecksRanges := by
  have hcall : (init false 0 100).Wellformed (plainEnv, .insert none 0 48 64 3 7 {}) ∧
      (init false 0 100).Clips (plainEnv, .insert none 0 48 64 3 7 {}) := ⟨trivial, trivial⟩
  exact ⟨_, _, rfl, checkProtection_of_run (Runs.refl.tail hcall rfl)⟩

end FreeBSD.Vm.VmMap
