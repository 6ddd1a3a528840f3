import FreeBSD.Kern.KernDescrip

/-!
# Descriptor tables: what holds of a table

Results:
* `Right.dupFinish`, `Right.close`, `Right.expanded`: what the calls keep of a table.
* `dropKqueues_spec`: what the copy is without the kqueues.
-/

namespace FreeBSD.KernDescrip

variable {fdp : Filedesc} {ofiles : ℕ → Option Fp} {kqueue : Fp → Bool} {i n fd : ℕ}

/-- The descriptors below `fd_freefile` are in use, those in use are at most `fd_lastfile`, and that
    is below `fd_nfiles`. -/
structure Right (fdp : Filedesc) : Prop where
  below : ∀ fd < fdp.fd_freefile, fdp.fd_ofiles fd ≠ none
  used_le : ∀ fd, fdp.fd_ofiles fd ≠ none → fd ≤ fdp.fd_lastfile
  last_lt : fdp.fd_lastfile < fdp.fd_nfiles

/-- The sizes that tables have. -/
def Size (n : ℕ) : Prop := n = ndfile ∨ ∃ k, n = ndextent * 2 ^ k

/-- A table that is right, with a size that tables have. -/
structure Sound (fdp : Filedesc) : Prop extends Right fdp where
  size : Size fdp.fd_nfiles

theorem sound_fdinit : Sound fdinit where
  below fd hfd := absurd hfd (Nat.not_lt_zero fd)
  used_le _ h := absurd rfl h
  last_lt := by decide
  size := Or.inl rfl

/-! ## `fdalloc` -/

theorem doubled_spec {want fuel : ℕ} (h : ∃ k, n = ndextent * 2 ^ k) :
    ∃ k, doubled want fuel n = ndextent * 2 ^ k := by
  induction fuel generalizing n with
  | zero => exact h
  | succ fuel ih =>
    rw [doubled]
    split
    · refine ih ?_
      obtain ⟨k, rfl⟩ := h
      exact ⟨k + 1, by ring⟩
    · exact h

theorem Size.expandSize (h : Size fdp.fd_nfiles) (want : ℕ) : Size (expandSize fdp want) := by
  refine .inr (doubled_spec ?_)
  split
  · exact ⟨0, rfl⟩
  · rename_i hge
    rcases h with h | ⟨k, hk⟩
    · rw [h] at hge; exact absurd (by decide) hge
    · exact ⟨k + 1, by rw [hk]; ring⟩

/-- `fd` is the lowest free descriptor from `min` on. -/
structure Lowest (fdp : Filedesc) (min fd : ℕ) : Prop where
  le : min ≤ fd
  free : fdp.fd_ofiles fd = none
  used : ∀ j, min ≤ j → j < fd → fdp.fd_ofiles j ≠ none

/-- The table that a search leaves: the file of the descriptor is still to be set. -/
structure Reserved (fdp fdp' : Filedesc) (want i : ℕ) : Prop where
  lowest : Lowest fdp want i
  lt : i < fdp.fd_nfiles
  ofiles : fdp'.fd_ofiles = fdp.fd_ofiles
  nfiles : fdp'.fd_nfiles = fdp.fd_nfiles
  right : Right fdp'
  le_last : i ≤ fdp'.fd_lastfile

theorem reserve_fd_lastfile (want : ℕ) :
    (reserve fdp want i).fd_lastfile = max fdp.fd_lastfile i := by
  show (if fdp.fd_lastfile < i then i else fdp.fd_lastfile) = _
  split
  · omega
  · omega

/-- The hint goes up only where every descriptor below is in use. -/
theorem Right.reserve (h : Right fdp) {want : ℕ} (hi : i < fdp.fd_nfiles)
    (hlow : Lowest fdp want i) : Right (reserve fdp want i) where
  below fd hfd := by
    have hfd : fd < if want ≤ fdp.fd_freefile then i else fdp.fd_freefile := hfd
    show fdp.fd_ofiles fd ≠ none
    by_cases hold : fd < fdp.fd_freefile
    · exact h.below fd hold
    · split at hfd
      · exact hlow.used fd (by omega) hfd
      · exact absurd hfd hold
  used_le fd hfd := by
    rw [reserve_fd_lastfile]; exact (h.used_le fd hfd).trans (Nat.le_max_left _ _)
  last_lt := by rw [reserve_fd_lastfile]; exact Nat.max_lt.2 ⟨h.last_lt, hi⟩

/-- `fdalloc` finds the lowest free descriptor. -/
theorem scan_spec (h : Right fdp) {lim want : ℕ} {fdp' : Filedesc}
    (hs : fdallocScan fdp lim want = .found fdp' i) : Reserved fdp fdp' want i := by
  unfold fdallocScan at hs
  dsimp only at hs
  split at hs
  · rename_i j hfind
    obtain ⟨rfl, rfl⟩ := Scan.found.inj hs
    obtain ⟨hnone, hmem, hbefore⟩ := List.find?_range'_eq_some.1 hfind
    rw [List.mem_range'_1] at hmem
    have hlow : Lowest fdp want j := by
      refine ⟨by omega, Option.isNone_iff_eq_none.1 hnone, fun k hk hkj => ?_⟩
      by_cases hkf : k < fdp.fd_freefile
      · exact h.below k hkf
      · have hk' := hbefore k (by omega) hkj
        intro hnone'
        rw [hnone'] at hk'
        cases hk'
    refine ⟨hlow, by omega, rfl, rfl, h.reserve (by omega) hlow, ?_⟩
    rw [reserve_fd_lastfile]; exact Nat.le_max_right _ _
  · split at hs
    · cases hs
    · cases hs

theorem scan_expand {lim want : ℕ} (h : Size fdp.fd_nfiles)
    (hs : fdallocScan fdp lim want = .expand n) : Size n := by
  unfold fdallocScan at hs
  dsimp only at hs
  split at hs
  · cases hs
  · split at hs
    · cases hs
    · exact Scan.expand.inj hs ▸ h.expandSize want

/-- An array that goes as far as the descriptors in use has them all. -/
theorem Right.truncated (h : Right fdp) (hi : fdp.fd_lastfile < i) :
    (fun k => if k < i then fdp.fd_ofiles k else none) = fdp.fd_ofiles := by
  funext k
  split
  · rfl
  · by_contra hne
    have := h.used_le k (Ne.symm hne); omega

theorem expanded_fd_ofiles (h : Right fdp) (n : ℕ) :
    (expanded fdp n).fd_ofiles = fdp.fd_ofiles := h.truncated h.last_lt

/-- A larger table has the same files. -/
theorem Sound.expanded (h : Sound fdp) (hn : fdp.fd_nfiles < n) (hsize : Size n) :
    Sound (expanded fdp n) where
  below fd hfd := by rw [expanded_fd_ofiles h.toRight]; exact h.below fd hfd
  used_le fd := by rw [expanded_fd_ofiles h.toRight]; exact h.used_le fd
  last_lt := h.last_lt.trans hn
  size := hsize

/-! ## The files of a table -/

theorem trimLast_le (ofiles : ℕ → Option Fp) (n : ℕ) : trimLast ofiles n ≤ n := by
  induction n with
  | zero => exact le_rfl
  | succ n ih =>
    rw [trimLast]
    split
    · exact ih.trans (Nat.le_succ n)
    · exact le_rfl

/-- The high-water mark goes down over descriptors that are free. -/
theorem le_trimLast (h : ∀ fd, ofiles fd ≠ none → fd ≤ n) (hfd : ofiles fd ≠ none) :
    fd ≤ trimLast ofiles n := by
  induction n with
  | zero => exact h fd hfd
  | succ n ih =>
    rw [trimLast]
    split
    · rename_i hnone
      refine ih fun k hk => ?_
      have hle := h k hk
      have hne : k ≠ n + 1 := fun hk' => hk (hk' ▸ hnone)
      omega
    · exact h fd hfd

/-- The table with the mark trimmed. -/
theorem Right.trim (h : Right fdp) : Right fdp.trim where
  below := h.below
  used_le _ hfd := le_trimLast h.used_le hfd
  last_lt := (trimLast_le _ _).trans_lt h.last_lt

theorem lowerFree_fd_freefile : (fdp.lowerFree fd).fd_freefile = min fdp.fd_freefile fd := by
  unfold Filedesc.lowerFree
  split
  · show fd = _; omega
  · omega

@[simp] theorem lowerFree_fd_ofiles : (fdp.lowerFree fd).fd_ofiles = fdp.fd_ofiles := by
  unfold Filedesc.lowerFree
  split
  · rfl
  · rfl

@[simp] theorem lowerFree_fd_lastfile : (fdp.lowerFree fd).fd_lastfile = fdp.fd_lastfile := by
  unfold Filedesc.lowerFree
  split
  · rfl
  · rfl

@[simp] theorem lowerFree_fd_nfiles : (fdp.lowerFree fd).fd_nfiles = fdp.fd_nfiles := by
  unfold Filedesc.lowerFree
  split
  · rfl
  · rfl

/-- The hint goes down to a free descriptor. -/
theorem Right.lowerFree (h : Right fdp) (fd : ℕ) : Right (fdp.lowerFree fd) where
  below k hk := by
    rw [lowerFree_fd_freefile] at hk
    rw [lowerFree_fd_ofiles]; exact h.below k (by omega)
  used_le k := by rw [lowerFree_fd_ofiles, lowerFree_fd_lastfile]; exact h.used_le k
  last_lt := by rw [lowerFree_fd_lastfile, lowerFree_fd_nfiles]; exact h.last_lt

theorem setFile_fd_ofiles_of_ne {fp : Option Fp} {k : ℕ} (hk : k ≠ fd) :
    (fdp.setFile fd fp).fd_ofiles k = fdp.fd_ofiles k := Function.update_of_ne hk ..

@[simp] theorem setFile_fd_ofiles_self {fp : Option Fp} :
    (fdp.setFile fd fp).fd_ofiles fd = fp := Function.update_self ..

/-- A file at a descriptor up to the mark. -/
theorem Right.setFile (h : Right fdp) (fp : Fp) (hfd : fd ≤ fdp.fd_lastfile) :
    Right (fdp.setFile fd (some fp)) where
  below k hk := by
    by_cases hkfd : k = fd
    · subst hkfd
      rw [setFile_fd_ofiles_self]; exact Option.some_ne_none fp
    · rw [setFile_fd_ofiles_of_ne hkfd]; exact h.below k hk
  used_le k hk := by
    by_cases hkfd : k = fd
    · exact hkfd ▸ hfd
    · rw [setFile_fd_ofiles_of_ne hkfd] at hk; exact h.used_le k hk
  last_lt := h.last_lt

/-- The mark may go up. -/
theorem Right.raiseLast (h : Right fdp) (hle : fdp.fd_lastfile ≤ n) (hn : n < fdp.fd_nfiles) :
    Right { fdp with fd_lastfile := n } where
  below := h.below
  used_le k hk := (h.used_le k hk).trans hle
  last_lt := hn

/-- The flags of a descriptor say nothing about the files. -/
theorem Right.setFlags (h : Right fdp) (fd : ℕ) (f : BitVec 8) : Right (fdp.setFlags fd f) where
  below := h.below
  used_le := h.used_le
  last_lt := h.last_lt

theorem setFile_none_ne {k : ℕ} (hk : (fdp.setFile fd none).fd_ofiles k ≠ none) :
    k ≠ fd ∧ fdp.fd_ofiles k ≠ none := by
  have hne : k ≠ fd := by rintro rfl; exact hk setFile_fd_ofiles_self
  exact ⟨hne, fun h => hk ((setFile_fd_ofiles_of_ne hne).trans h)⟩

/-- `close` leaves a table that is right. -/
theorem Right.close (h : Right fdp) (fd : ℕ) :
    Right (((fdp.setFile fd none).setFlags fd 0).trim.lowerFree fd) where
  below k hk := by
    rw [lowerFree_fd_freefile] at hk
    have hk : k < min fdp.fd_freefile fd := hk
    rw [lowerFree_fd_ofiles]
    show (fdp.setFile fd none).fd_ofiles k ≠ none
    rw [setFile_fd_ofiles_of_ne (by omega)]
    exact h.below k (by omega)
  used_le k := by
    rw [lowerFree_fd_ofiles, lowerFree_fd_lastfile]
    exact le_trimLast fun j hj => h.used_le j (setFile_none_ne hj).2
  last_lt := by
    rw [lowerFree_fd_lastfile, lowerFree_fd_nfiles]; exact (trimLast_le _ _).trans_lt h.last_lt

/-- What `do_dup` leaves: a table that is right, with the file at the new descriptor or as it
    was. -/
structure Duped (fdp fdp' : Filedesc) (new : ℕ) (r : Answer) : Prop where
  right : Right fdp'
  nfiles : fdp'.fd_nfiles = fdp.fd_nfiles
  others : ∀ j, j ≠ new → fdp'.fd_ofiles j = fdp.fd_ofiles j
  answer : r = .ebadf ∨ r = .fd new

theorem Right.dupFinish (h : Right fdp) (old : ℕ) {new : ℕ} (fp : Fp) (hnew : new < fdp.fd_nfiles) :
    Duped fdp (dupFinish fdp old new fp).1 new (dupFinish fdp old new fp).2 := by
  unfold KernDescrip.dupFinish
  split
  · split
    · refine ⟨(h.lowerFree new).trim, ?_, fun j _ => ?_, .inl rfl⟩
      · exact lowerFree_fd_nfiles
      · exact congrFun lowerFree_fd_ofiles j
    · exact ⟨h, rfl, fun _ _ => rfl, .inl rfl⟩
  · refine ⟨?_, rfl, fun j hj => setFile_fd_ofiles_of_ne hj, .inr rfl⟩
    have hlast : (if fdp.fd_lastfile < new then new else fdp.fd_lastfile) =
        max fdp.fd_lastfile new := by
      split
      · omega
      · omega
    have hraise : Right { fdp with fd_lastfile := max fdp.fd_lastfile new } :=
      h.raiseLast (Nat.le_max_left _ _) (Nat.max_lt.2 ⟨h.last_lt, hnew⟩)
    have hfile := (hraise.setFile fp (Nat.le_max_right _ new)).setFlags new
      ((fdp.setFile new (some fp)).fd_ofileflags old &&& ~~~ufExclose)
    dsimp only
    rw [show ((fdp.setFile new (some fp)).setFlags new _).fd_lastfile = fdp.fd_lastfile from rfl,
      hlast]
    exact hfile

/-! ## The copy of a table -/

/-- A table larger than two extents can be halved. -/
theorem Size.half (h : Size n) (hn : 2 * ndextent < n) : Size (n / 2) ∧ n = 2 * (n / 2) := by
  rcases h with rfl | ⟨k, rfl⟩
  · exact absurd hn (by decide)
  · cases k with
    | zero => exact absurd hn (by decide)
    | succ k =>
      have hhalf : ndextent * 2 ^ (k + 1) = 2 * (ndextent * 2 ^ k) := by ring
      rw [hhalf, Nat.mul_div_cancel_left _ two_pos]; exact ⟨.inr ⟨k, rfl⟩, rfl⟩

theorem halved_spec {lastfile fuel : ℕ} (h : Size i) (hi : lastfile < i) :
    Size (halved lastfile fuel i) ∧ lastfile < halved lastfile fuel i := by
  induction fuel generalizing i with
  | zero => exact ⟨h, hi⟩
  | succ fuel ih =>
    rw [halved]
    split
    · rename_i hcond
      obtain ⟨hsize, hhalf⟩ := h.half hcond.1
      exact ih hsize (by omega)
    · exact ⟨h, hi⟩

/-- The table of a copy has room for every descriptor in use. -/
theorem copySize_spec (h : Sound fdp) :
    Size (copySize fdp) ∧ fdp.fd_lastfile < copySize fdp := halved_spec h.size h.last_lt

/-- What the table is without the kqueues at the descriptors that meet `p`. -/
structure Dropped (kqueue : Fp → Bool) (fdp fdp' : Filedesc) (p : ℕ → Prop) : Prop where
  gone : ∀ fd, p fd → (fdp.fd_ofiles fd).any kqueue → fdp'.fd_ofiles fd = none
  kept : ∀ fd, ¬(p fd ∧ (fdp.fd_ofiles fd).any kqueue) → fdp'.fd_ofiles fd = fdp.fd_ofiles fd
  free : ∀ fd, fd < fdp'.fd_freefile ↔
    fd < fdp.fd_freefile ∧ ∀ k, p k → (fdp.fd_ofiles k).any kqueue → fd < k
  used_le : ∀ fd, fdp'.fd_ofiles fd ≠ none → fd ≤ fdp'.fd_lastfile
  last_le : fdp'.fd_lastfile ≤ fdp.fd_lastfile
  nfiles : fdp'.fd_nfiles = fdp.fd_nfiles

/-- The kqueues that are left are those elsewhere. -/
theorem Dropped.any_iff {fdp' : Filedesc} {p : ℕ → Prop} (h : Dropped kqueue fdp fdp' p) (k : ℕ) :
    (fdp'.fd_ofiles k).any kqueue ↔ ¬p k ∧ (fdp.fd_ofiles k).any kqueue := by
  by_cases hk : p k ∧ (fdp.fd_ofiles k).any kqueue
  · rw [h.gone k hk.1 hk.2]; exact ⟨fun hany => (by cases hany), fun hnot => absurd hk.1 hnot.1⟩
  · rw [h.kept k hk]; exact ⟨fun hany => ⟨fun hp => hk ⟨hp, hany⟩, hany⟩, fun hnot => hnot.2⟩

/-- One part after the other. -/
theorem Dropped.trans {fdp₁ fdp₂ : Filedesc} {p q pq : ℕ → Prop} (h : Dropped kqueue fdp fdp₁ p)
    (h' : Dropped kqueue fdp₁ fdp₂ q) (hpq : ∀ k, pq k ↔ p k ∨ q k) :
    Dropped kqueue fdp fdp₂ pq where
  gone fd hfd hany := by
    by_cases hp : p fd
    · rw [h'.kept fd fun hq => ((h.any_iff fd).1 hq.2).1 hp]; exact h.gone fd hp hany
    · exact h'.gone fd (((hpq fd).1 hfd).resolve_left hp) ((h.any_iff fd).2 ⟨hp, hany⟩)
  kept fd hfd := by
    have hp : ¬(p fd ∧ (fdp.fd_ofiles fd).any kqueue) :=
      fun hp => hfd ⟨(hpq fd).2 (.inl hp.1), hp.2⟩
    have hq : ¬(q fd ∧ (fdp₁.fd_ofiles fd).any kqueue) :=
      fun hq => hfd ⟨(hpq fd).2 (.inr hq.1), ((h.any_iff fd).1 hq.2).2⟩
    rw [h'.kept fd hq, h.kept fd hp]
  free fd := by
    rw [h'.free, h.free, and_assoc]
    refine and_congr_right fun _ => ⟨fun hfd k hk hany => ?_, fun hfd => ⟨fun k hk hany => ?_,
      fun k hk hany => ?_⟩⟩
    · by_cases hp : p k
      · exact hfd.1 k hp hany
      · exact hfd.2 k (((hpq k).1 hk).resolve_left hp) ((h.any_iff k).2 ⟨hp, hany⟩)
    · exact hfd k ((hpq k).2 (.inl hk)) hany
    · exact hfd k ((hpq k).2 (.inr hk)) ((h.any_iff k).1 hany).2
  used_le := h'.used_le
  last_le := h'.last_le.trans h.last_le
  nfiles := h'.nfiles.trans h.nfiles

/-- The first half of a turn: a kqueue goes. -/
theorem dropped_setFile (h : ∀ fd, fdp.fd_ofiles fd ≠ none → fd ≤ fdp.fd_lastfile) (i : ℕ) :
    Dropped kqueue fdp
      (if (fdp.fd_ofiles i).any kqueue then (fdp.setFile i none).lowerFree i else fdp)
      fun k => k = i := by
  split
  · rename_i hany
    constructor
    · rintro fd rfl -
      rw [lowerFree_fd_ofiles]; exact setFile_fd_ofiles_self
    · intro fd hfd
      rw [lowerFree_fd_ofiles]
      refine setFile_fd_ofiles_of_ne ?_
      rintro rfl
      exact hfd ⟨rfl, hany⟩
    · intro fd
      rw [lowerFree_fd_freefile, Nat.lt_min]
      refine and_congr_right fun _ => ⟨?_, fun hfd => hfd i rfl hany⟩
      rintro hfd k rfl -
      exact hfd
    · intro fd hfd
      rw [lowerFree_fd_ofiles] at hfd
      rw [lowerFree_fd_lastfile]; exact h fd (setFile_none_ne hfd).2
    · exact lowerFree_fd_lastfile.le
    · exact lowerFree_fd_nfiles
  · rename_i hany
    constructor
    · rintro fd rfl hany'; exact absurd hany' hany
    · exact fun _ _ => rfl
    · refine fun fd => ⟨fun hfd => ⟨hfd, ?_⟩, fun hfd => hfd.1⟩
      rintro k rfl hany'
      exact absurd hany' hany
    · exact h
    · exact le_rfl
    · rfl

/-- One turn. -/
theorem dropKqueue_spec (kqueue : Fp → Bool)
    (h : ∀ fd, fdp.fd_ofiles fd ≠ none → fd ≤ fdp.fd_lastfile) (i : ℕ) :
    Dropped kqueue fdp (dropKqueue kqueue fdp i) fun k => k = i := by
  obtain ⟨g, hg⟩ : ∃ g, g =
    if (fdp.fd_ofiles i).any kqueue then (fdp.setFile i none).lowerFree i else fdp := ⟨_, rfl⟩
  have hdrop : Dropped kqueue fdp g fun k => k = i := hg ▸ dropped_setFile h i
  unfold dropKqueue
  dsimp only
  rw [← hg]
  split
  · rename_i hcond
    obtain ⟨hnone, hlast, hpos⟩ := hcond
    refine ⟨hdrop.gone, hdrop.kept, hdrop.free, fun fd hfd => ?_,
      (Nat.sub_le _ _).trans hdrop.last_le, hdrop.nfiles⟩
    have hle := hdrop.used_le fd hfd
    have hne : fd ≠ i := by rintro rfl; exact hfd hnone
    show fd ≤ g.fd_lastfile - 1
    omega
  · exact hdrop

/-- The loop. -/
theorem dropKqueues_spec (kqueue : Fp → Bool)
    (h : ∀ fd, fdp.fd_ofiles fd ≠ none → fd ≤ fdp.fd_lastfile) (i : ℕ) :
    Dropped kqueue fdp (dropKqueues kqueue fdp i) fun k => k ≤ i := by
  induction i generalizing fdp with
  | zero =>
    have hturn := dropKqueue_spec kqueue h 0
    simpa only [Nat.le_zero, dropKqueues] using hturn
  | succ i ih =>
    have hturn := dropKqueue_spec kqueue h (i + 1)
    exact hturn.trans (ih hturn.used_le) fun k => by omega

/-- The hint that the copy has from before does for the files that it gets, and it looks for
    kqueues where there are any. -/
structure Fresh (kqueue : Fp → Bool) (fdp : Filedesc) (head : Head) : Prop where
  free : ∀ fd < head.fd_freefile, fdp.fd_ofiles fd = none →
    head.fd_knlistsize ≠ none ∧ ∃ k < fd, (fdp.fd_ofiles k).any kqueue
  kqueues : head.fd_knlistsize = none → ∀ fd, ¬(fdp.fd_ofiles fd).any kqueue

/-- The copy has the files of the table but the kqueues. -/
def Copied (kqueue : Fp → Bool) (fdp new : Filedesc) : Prop :=
  ∀ fd, new.fd_ofiles fd = (fdp.fd_ofiles fd).filter fun fp => !kqueue fp

theorem filter_eq_none {o : Option Fp} (h : o.any kqueue) :
    (o.filter fun fp => !kqueue fp) = none := by
  cases o with
  | none => rfl
  | some fp =>
    have h : kqueue fp = true := h
    simp [Option.filter, h]

theorem filter_eq_self_iff {o : Option Fp} :
    (o.filter fun fp => !kqueue fp) = o ↔ ¬o.any kqueue := by
  cases o with
  | none => simp
  | some fp => simp [Option.filter]

/-- Where kqueues are looked for, the copy has none of them. -/
theorem Dropped.copied {new : Filedesc}
    (h : ∀ fd, fdp.fd_ofiles fd ≠ none → fd ≤ fdp.fd_lastfile)
    (hd : Dropped kqueue fdp new fun k => k ≤ fdp.fd_lastfile) : Copied kqueue fdp new := by
  intro fd
  by_cases hany : (fdp.fd_ofiles fd).any kqueue
  · have hused : fdp.fd_ofiles fd ≠ none := by
      intro hnone
      rw [hnone] at hany
      cases hany
    rw [hd.gone fd (h fd hused) hany, filter_eq_none hany]
  · rw [hd.kept fd fun hfd => hany hfd.2, filter_eq_self_iff.2 hany]

/-- Where kqueues are looked for, the hint is right if what is free below it is above one. -/
theorem Dropped.below_iff {new : Filedesc}
    (h : ∀ fd, fdp.fd_ofiles fd ≠ none → fd ≤ fdp.fd_lastfile)
    (hd : Dropped kqueue fdp new fun k => k ≤ fdp.fd_lastfile) :
    (∀ fd < new.fd_freefile, new.fd_ofiles fd ≠ none) ↔
      ∀ fd < fdp.fd_freefile, fdp.fd_ofiles fd = none →
        ∃ k < fd, (fdp.fd_ofiles k).any kqueue := by
  have hle : ∀ k, (fdp.fd_ofiles k).any kqueue → k ≤ fdp.fd_lastfile := by
    intro k hany
    refine h k fun hnone => ?_
    rw [hnone] at hany
    cases hany
  constructor
  · intro hbelow fd hfd hnone
    by_contra hno
    have hlt : fd < new.fd_freefile := by
      refine (hd.free fd).2 ⟨hfd, fun k _ hany => ?_⟩
      have hnot : ¬k < fd := fun hk => hno ⟨k, hk, hany⟩
      have hne : k ≠ fd := by
        rintro rfl
        rw [hnone] at hany
        cases hany
      omega
    refine hbelow fd hlt ((hd.kept fd fun hfd' => ?_).trans hnone)
    rw [hnone] at hfd'
    cases hfd'.2
  · intro hfree fd hfd hnone
    obtain ⟨hlt, hall⟩ := (hd.free fd).1 hfd
    have hany : ¬(fdp.fd_ofiles fd).any kqueue := fun hany =>
      absurd (hall fd (hle fd hany) hany) (lt_irrefl fd)
    rw [hd.kept fd fun hfd' => hany hfd'.2] at hnone
    obtain ⟨k, hk, hkq⟩ := hfree fd hlt hnone
    exact absurd (hall k (hle k hkq) hkq) (by omega)

/-- The structure that `fdcopy` starts from has the files of the table. -/
theorem Sound.copyTable (h : Sound fdp) (head : Head) (hi : fdp.fd_lastfile < i) :
    (copyTable fdp head i).fd_ofiles = fdp.fd_ofiles := h.truncated hi

/-- The copy is right, and has the files of the table but the kqueues, exactly when what it has from
    before is fresh. -/
theorem fdcopyFinish_iff (kqueue : Fp → Bool) (h : Sound fdp) (head : Head)
    (hi : fdp.fd_lastfile < i) :
    Right (fdcopyFinish kqueue fdp head i) ∧ Copied kqueue fdp (fdcopyFinish kqueue fdp head i) ↔
      Fresh kqueue fdp head := by
  have hfiles := h.copyTable head hi
  have hused : ∀ fd, (copyTable fdp head i).fd_ofiles fd ≠ none →
      fd ≤ (copyTable fdp head i).fd_lastfile := by
    rw [hfiles]; exact h.used_le
  by_cases hkn : head.fd_knlistsize = none
  · have hfin : fdcopyFinish kqueue fdp head i = copyTable fdp head i :=
      if_neg (not_not.2 hkn)
    rw [hfin]
    constructor
    · rintro ⟨hright, hcopied⟩
      refine ⟨fun fd hfd hnone => absurd (hfiles ▸ hnone) (hright.below fd hfd), fun _ fd => ?_⟩
      have hfd := hcopied fd
      rw [hfiles] at hfd; exact filter_eq_self_iff.1 hfd.symm
    · intro hfresh
      refine ⟨⟨fun fd hfd hnone => ?_, hused, hi⟩, fun fd => ?_⟩
      · exact absurd hkn (hfresh.free fd hfd (hfiles ▸ hnone)).1
      · rw [hfiles]; exact (filter_eq_self_iff.2 (hfresh.kqueues hkn fd)).symm
  · obtain ⟨d, hd⟩ : ∃ d, d = dropKqueues kqueue (copyTable fdp head i) fdp.fd_lastfile :=
      ⟨_, rfl⟩
    have hfin : fdcopyFinish kqueue fdp head i = { d with fd_knlistsize := none } := by
      rw [hd]; exact if_pos hkn
    have hdrop : Dropped kqueue (copyTable fdp head i) d
        fun k => k ≤ (copyTable fdp head i).fd_lastfile := hd ▸ dropKqueues_spec kqueue hused _
    have hcopied : Copied kqueue fdp { d with fd_knlistsize := none } := by
      intro fd
      rw [← hfiles]; exact hdrop.copied hused fd
    have hbelow := hdrop.below_iff hused
    rw [hfiles] at hbelow
    rw [hfin]
    constructor
    · rintro ⟨hright, -⟩
      exact ⟨fun fd hfd hnone => ⟨hkn, hbelow.1 hright.below fd hfd hnone⟩,
        fun hnone => absurd hnone hkn⟩
    · intro hfresh
      refine ⟨⟨hbelow.2 fun fd hfd hnone => (hfresh.free fd hfd hnone).2, hdrop.used_le, ?_⟩,
        hcopied⟩
      exact hdrop.last_le.trans_lt (hi.trans_eq hdrop.nfiles.symm)

theorem fdcopyFinish_fd_nfiles (h : Sound fdp) (head : Head) (hi : fdp.fd_lastfile < i) :
    (fdcopyFinish kqueue fdp head i).fd_nfiles = i := by
  by_cases hkn : head.fd_knlistsize = none
  · rw [show fdcopyFinish kqueue fdp head i = copyTable fdp head i from if_neg (not_not.2 hkn)]; rfl
  · rw [show fdcopyFinish kqueue fdp head i = { dropKqueues kqueue (copyTable fdp head i)
      fdp.fd_lastfile with fd_knlistsize := none } from if_pos hkn]
    have hnone : ∀ fd, (copyTable fdp head i).fd_ofiles fd ≠ none →
        fd ≤ (copyTable fdp head i).fd_lastfile := by
      rw [h.copyTable head hi]; exact h.used_le
    exact (dropKqueues_spec kqueue hnone _).nfiles

end FreeBSD.KernDescrip
