import FreeBSD.Kern.LockmgrSteps

/-!
# Exclusion by the lock manager

An exclusive request waits twice: for `LK_HAVE_EXCL` and `LK_WANT_EXCL`, then, with `LK_WANT_EXCL`
set, for `LK_WANT_UPGRADE` and `LK_SHARE_NONZERO`. During the second sleep the last shared holder
may upgrade, and when the exclusive request goes on it does not look at `LK_HAVE_EXCL` again.

Results:
* `Held.done`: a request after `acquire` keeps counts and flags as the holds are.
* `lockmgr_exclusion_of_run`: exclusion in every run in which no request goes on like that.
* `upgrade_during_exclusive_request`: a run that ends in the panic.
-/

namespace FreeBSD.KernLock

open List
open Lib (Runs)

/-! ## The property -/

/-- No thread has the lock exclusively while another one has it; the flags say which counts are
    positive, `lk_sharecount` is the number of shared holds, and the panic has not been reached. -/
structure Excludes (s : Sys) : Prop where
  exclusion : ∀ td, ⟨td, .exclusive⟩ ∈ s.holds → ∀ h ∈ s.holds, h.td = td
  haveExcl : s.lk.lkFlags.haveExcl = true ↔ 0 < s.lk.lkExclusivecount
  shareNonzero : s.lk.lkFlags.shareNonzero = true ↔ 0 < s.lk.lkSharecount
  sharecount : s.lk.lkSharecount = s.holds.countP (·.mode = .shared)
  panicstr : s.panicstr ≠ some "lockmgr: non-zero exclusive count"

/-! ## Holds -/

/-- The counts and flags of the lock are those of the holds: shared ones, or exclusive ones of one
    thread. -/
inductive Held (l : Lock) (holds : List Hold) : Prop
  | shared (hmode : ∀ h ∈ holds, h.mode = .shared) (hexcl : l.lkFlags.haveExcl = false)
      (hcount : l.lkExclusivecount = 0) (hholder : l.lkLockholder = none)
      (hshare : l.lkSharecount = holds.length) (hle : l.lkSharecount ≤ 2147483647)
      (hnonzero : l.lkFlags.shareNonzero = decide (0 < holds.length))
  | exclusive (td : ℕ) (hmode : ∀ h ∈ holds, h = ⟨td, .exclusive⟩)
      (hexcl : l.lkFlags.haveExcl = true) (hpos : 0 < holds.length)
      (hcount : l.lkExclusivecount = holds.length) (hle : l.lkExclusivecount ≤ 32767)
      (hholder : l.lkLockholder = some td) (hshare : l.lkSharecount = 0)
      (hnonzero : l.lkFlags.shareNonzero = false)

theorem cInt_of_le {z : ℤ} (h0 : 0 ≤ z) (h : z ≤ 2147483647) : cInt z = z := by
  unfold cInt
  rw [Int.bmod_eq_of_le] <;> omega

theorem cShort_of_le {z : ℤ} (h0 : 0 ≤ z) (h : z ≤ 32767) : cShort z = z := by
  unfold cShort
  rw [Int.bmod_eq_of_le] <;> omega

namespace Held
variable {l l' : Lock} {holds : List Hold} {td : ℕ}

theorem congr (h : Held l holds) (hexcl : l'.lkFlags.haveExcl = l.lkFlags.haveExcl)
    (hnonzero : l'.lkFlags.shareNonzero = l.lkFlags.shareNonzero)
    (hcount : l'.lkExclusivecount = l.lkExclusivecount)
    (hholder : l'.lkLockholder = l.lkLockholder)
    (hshare : l'.lkSharecount = l.lkSharecount) : Held l' holds := by
  cases h with
  | shared h1 h2 h3 h4 h5 h6 h7 =>
    exact .shared h1 (hexcl.trans h2) (hcount.trans h3) (hholder.trans h4) (hshare.trans h5)
      (hshare.trans_le h6) (hnonzero.trans h7)
  | exclusive td h1 h2 h3 h4 h5 h6 h7 h8 =>
    exact .exclusive td h1 (hexcl.trans h2) h3 (hcount.trans h4) (hcount.trans_le h5)
      (hholder.trans h6) (hshare.trans h7) (hnonzero.trans h8)

theorem wakeup (h : Held l holds) : Held l.wakeup holds := h.congr rfl rfl rfl rfl rfl

theorem unwait (h : Held l holds) : Held l.unwait holds := by
  unfold Lock.unwait
  split_ifs
  · exact h.congr rfl rfl rfl rfl rfl
  · exact h.congr rfl rfl rfl rfl rfl

theorem clear (h : Held l holds) (wait : Wait) :
    Held { l with lkFlags := wait.clear l.lkFlags } holds := by
  cases wait <;> exact h.congr rfl rfl rfl rfl rfl

theorem announce (h : Held l holds) :
    Held { l with lkFlags := { l.lkFlags with wantUpgrade := true } } holds :=
  h.congr rfl rfl rfl rfl rfl

/-- One more shared hold. -/
theorem sharelock (h : Held l holds) (hfree : l.lkFlags.haveExcl = false)
    (hroom : l.lkSharecount < 2147483647) : Held (l.sharelock 1) (⟨td, .shared⟩ :: holds) := by
  cases h with
  | shared h1 h2 h3 h4 h5 h6 h7 =>
    have hsum : cInt (l.lkSharecount + 1) = l.lkSharecount + 1 := cInt_of_le (by omega) (by omega)
    refine .shared ?_ h2 h3 h4 ?_ ?_ ?_
    · simpa using h1
    · show cInt (l.lkSharecount + 1) = _
      rw [hsum, h5]; simp
    · show cInt (l.lkSharecount + 1) ≤ _; omega
    · simp [Lock.sharelock]
  | exclusive td h1 h2 =>
    rw [hfree] at h2
    cases h2

/-- One shared hold less. -/
theorem shareunlock (h : Held l holds) (hmem : ⟨td, .shared⟩ ∈ holds) :
    Held (l.shareunlock 1) (holds.erase ⟨td, .shared⟩) := by
  have hlen := length_erase_of_mem hmem
  have hpos := length_pos_of_mem hmem
  cases h with
  | shared h1 h2 h3 h4 h5 h6 h7 =>
    have h1' : ∀ x ∈ holds.erase ⟨td, .shared⟩, x.mode = .shared :=
      fun x hx => h1 x (mem_of_mem_erase hx)
    unfold Lock.shareunlock
    dsimp only
    split_ifs with hone hwant
    · refine .shared h1' h2 h3 h4 ?_ (by simp) ?_
      · show (0 : ℤ) = _; omega
      · simp only [Lock.wakeup_lkFlags]
        rw [eq_comm, decide_eq_false_iff_not]; omega
    · refine .shared h1' h2 h3 h4 ?_ (by simp) ?_
      · show (0 : ℤ) = _; omega
      · rw [eq_comm, decide_eq_false_iff_not]; omega
    · have hdiff : cInt (l.lkSharecount - 1) = l.lkSharecount - 1 := cInt_of_le (by omega)
        (by omega)
      refine .shared h1' h2 h3 h4 ?_ ?_ ?_
      · show cInt (l.lkSharecount - 1) = _; omega
      · show cInt (l.lkSharecount - 1) ≤ _; omega
      · show l.lkFlags.shareNonzero = _
        rw [h7]
        congr 1
        rw [eq_iff_iff]; omega
  | exclusive td' h1 =>
    cases h1 _ hmem

/-- The lock is free and is taken exclusively. -/
theorem takeExcl (h : Held l holds) (td : ℕ) (hfree : l.lkFlags.haveExcl = false)
    (hshare : l.lkFlags.shareNonzero = false) :
    Held (l.takeExcl td).1 (⟨td, .exclusive⟩ :: holds) ∧ (l.takeExcl td).2 = .ok := by
  cases h with
  | shared h1 h2 h3 h4 h5 h6 h7 =>
    rw [hshare, eq_comm, decide_eq_false_iff_not] at h7
    obtain rfl : holds = [] := length_eq_zero_iff.1 (by omega)
    unfold Lock.takeExcl
    dsimp only
    rw [if_neg (not_not.2 h3)]
    exact ⟨.exclusive td (by simp) rfl (by simp) rfl (by norm_num) rfl h5 hshare, rfl⟩
  | exclusive td' h1 h2 =>
    rw [hfree] at h2
    cases h2

/-- The thread that has the lock exclusively is `lk_lockholder`, and nobody has it shared. -/
theorem of_holder (h : Held l holds) (hholder : l.lkLockholder = some td) :
    l.lkSharecount = 0 ∧ l.lkFlags.haveExcl = true := by
  cases h with
  | shared h1 h2 h3 h4 =>
    rw [h4] at hholder
    cases hholder
  | exclusive td' h1 h2 h3 h4 h5 h6 h7 => exact ⟨h7, h2⟩

theorem holder_of_mem (h : Held l holds) (hmem : ⟨td, .exclusive⟩ ∈ holds) :
    l.lkLockholder = some td := by
  cases h with
  | shared h1 => cases h1 _ hmem
  | exclusive td' h1 h2 h3 h4 h5 h6 =>
    rw [h6, (Hold.mk.inj (h1 _ hmem)).1]

/-- What a request keeps that was at `wait`: the holds are as the lock says, and nobody is on the
    way to an upgrade while the lock is held exclusively. -/
theorem done {mayFail : Prop} {wait : Wait} {t : Lock} {r : Ret} (h : Held l holds)
    (hup : l.lkFlags.wantUpgrade = true → l.lkFlags.haveExcl = false)
    (hupgrade : wait = .upgrade → l.lkFlags.haveExcl = false)
    (hexclusive : wait = .exclusive → l.lkFlags.meets wait.wanted = false →
      l.lkFlags.haveExcl = false)
    (hshared : ∀ deadlktreat, wait = .shared deadlktreat → l.lkFlags.meets wait.wanted = false →
      l.lkSharecount < 2147483647)
    (hdone : Lock.Done td mayFail l wait t r) :
    Held t (if r = .ok then wait.hold td :: holds else holds) ∧
      (t.lkFlags.wantUpgrade = true → t.lkFlags.haveExcl = false) ∧ ∀ msg, r ≠ .panic msg := by
  induction hdone with
  | waits wait w hmeets htd hwait =>
    refine ⟨?_, ?_, by simp⟩
    · rw [if_neg (by simp)]
      unfold Lock.park
      split_ifs
      · exact h.congr rfl rfl rfl rfl rfl
      · exact h.congr rfl rfl rfl rfl rfl
    · unfold Lock.park
      split_ifs
      · exact hup
      · exact hup
  | failed wait e =>
    refine ⟨?_, ?_, by simp⟩
    · rw [if_neg (by simp)]
      cases wait <;> exact h.congr rfl rfl rfl rfl rfl
    · cases wait with
      | upgrade => simp [Wait.clear]
      | _ => exact hup
  | shared deadlktreat hfree =>
    have hroom := hshared _ rfl hfree
    simp only [meets_shared, Bool.or_eq_false_iff] at hfree
    exact ⟨h.sharelock hfree.2 hroom, fun _ => hfree.2, by simp⟩
  | upgrade r hfree hr =>
    rw [meets_upgrade] at hfree
    obtain ⟨hheld, hret⟩ := (h.clear .upgrade).takeExcl td (by simpa using hupgrade rfl)
      (by simpa using hfree)
    rw [← hr] at hheld hret
    refine ⟨by rwa [if_pos hret], fun hwu => ?_, by simp [hret]⟩
    rw [hr] at hwu; simp [Wait.clear] at hwu
  | exclusive r hfree hr =>
    have hexcl := hexclusive rfl hfree
    simp only [meets_exclusive, Bool.or_eq_false_iff] at hfree
    obtain ⟨hheld, hret⟩ := (h.clear .exclusive).takeExcl td (by simpa using hexcl)
      (by simpa using hfree.2)
    rw [← hr] at hheld hret
    refine ⟨by rwa [if_pos hret], fun hwu => ?_, by simp [hret]⟩
    rw [hr] at hwu; simp [Wait.clear, hfree.1] at hwu
  | want t r hfree hrec ih =>
    simp only [meets_want, Bool.or_eq_false_iff] at hfree
    exact ih (h.congr rfl rfl rfl rfl rfl) (fun _ => hfree.2) (by simp) (fun _ _ => hfree.2)
      (by simp)

/-- A request for an exclusive lock, by a thread that may have it already. -/
theorem exclusiveRequest (h : Held l holds)
    (hup : l.lkFlags.wantUpgrade = true → l.lkFlags.haveExcl = false) (smp : Bool)
    (extflags : ExtFlags)
    (hroom : l.lkLockholder = some td → extflags.canrecurse = true → l.lkExclusivecount < 32767)
    {t : Lock} {r : Ret} (hr : l.exclusive smp td extflags = (t, r)) :
    Held t (if r = .ok then ⟨td, .exclusive⟩ :: holds else holds) ∧
      (t.lkFlags.wantUpgrade = true → t.lkFlags.haveExcl = false) ∧
      r ≠ .panic "lockmgr: non-zero exclusive count" := by
  rcases Lock.exclusive_cases smp l td extflags with hr' | ⟨hholder, hrec, hr'⟩ | hr' | hdone
  · obtain ⟨rfl, rfl⟩ := Prod.mk.inj (hr.symm.trans hr')
    exact ⟨by rwa [if_neg (by simp)], hup, by decide⟩
  · obtain ⟨rfl, rfl⟩ := Prod.mk.inj (hr.symm.trans hr')
    refine ⟨?_, hup, by decide⟩
    rw [if_pos rfl]
    have hlt := hroom hholder hrec
    cases h with
    | shared h1 h2 h3 h4 =>
      rw [h4] at hholder
      cases hholder
    | exclusive td' h1 h2 h3 h4 h5 h6 h7 h8 =>
      obtain rfl : td' = td := Option.some.inj (h6.symm.trans hholder)
      have hsum : cShort (l.lkExclusivecount + 1) = l.lkExclusivecount + 1 :=
        cShort_of_le (by omega) (by omega)
      refine .exclusive td' (by simpa using h1) h2 (by simp) ?_ ?_ h6 h7 h8
      · show cShort (l.lkExclusivecount + 1) = _
        rw [hsum, h4]; simp
      · show cShort (l.lkExclusivecount + 1) ≤ _; omega
  · obtain ⟨rfl, rfl⟩ := Prod.mk.inj (hr.symm.trans hr')
    exact ⟨by rwa [if_neg (by simp)], hup, by decide⟩
  · rw [hr] at hdone
    obtain ⟨h1, h2, h3⟩ := h.done hup (by simp) (by simp) (by simp) hdone
    exact ⟨h1, h2, h3 _⟩

/-- The lock and the holds after a request to upgrade. -/
theorem upgradeRequest (h : Held l holds) (smp : Bool) (extflags : ExtFlags)
    (hmem : ⟨td, .shared⟩ ∈ holds) {t : Lock} {r : Ret}
    (hr : l.upgrade smp td extflags = (t, r)) :
    Held t (if r = .ok then ⟨td, .exclusive⟩ :: holds.erase ⟨td, .shared⟩
      else holds.erase ⟨td, .shared⟩) ∧
      (t.lkFlags.wantUpgrade = true → t.lkFlags.haveExcl = false) ∧
      r ≠ .panic "lockmgr: non-zero exclusive count" := by
  have h' := h.shareunlock hmem
  have hfree : l.lkFlags.haveExcl = false ∧ l.lkLockholder = none ∧ 0 < l.lkSharecount := by
    cases h with
    | shared h1 h2 h3 h4 h5 =>
      have := length_pos_of_mem hmem
      exact ⟨h2, h4, by omega⟩
    | exclusive td' h1 => cases h1 _ hmem
  obtain ⟨hexcl, hholder, hpos⟩ := hfree
  have hexcl' : (l.shareunlock 1).lkFlags.haveExcl = false := by
    rw [Lock.shareunlock_haveExcl, hexcl]
  have hholder' : (l.shareunlock 1).lkLockholder = none := by
    rw [Lock.shareunlock_lkLockholder, hholder]
  rcases Lock.upgrade_cases smp l td extflags with ⟨hbad, -⟩ | hr' | ⟨hwu, hdone⟩ | ⟨l', hl', hr'⟩
  · rcases hbad with hbad | hbad
    · rw [hholder] at hbad
      cases hbad
    · omega
  · obtain ⟨rfl, rfl⟩ := Prod.mk.inj (hr.symm.trans hr')
    exact ⟨by rwa [if_neg (by simp)], fun _ => hexcl', by decide⟩
  · rw [hr] at hdone
    obtain ⟨h1, h2, h3⟩ :=
      h'.announce.done (fun _ => hexcl') (fun _ => hexcl') (by simp) (by simp) hdone
    exact ⟨h1, h2, h3 _⟩
  · rw [hr'] at hr
    rcases hl' with rfl | rfl
    · refine h'.exclusiveRequest (fun _ => hexcl') smp extflags (fun hh => ?_) hr
      rw [hholder'] at hh
      cases hh
    · refine h'.wakeup.exclusiveRequest (fun _ => hexcl') smp extflags (fun hh => ?_) hr
      have hh' : (l.shareunlock 1).lkLockholder = some td := hh
      rw [hholder'] at hh'
      cases hh'

theorem demote_mode {td : ℕ} (hmode : ∀ h ∈ holds, h = ⟨td, .exclusive⟩) :
    ∀ h ∈ demote td holds, h.mode = .shared := by
  intro h hh
  obtain ⟨x, hx, rfl⟩ := mem_map.1 hh
  rw [if_pos (hmode x hx)]

/-- Nothing changes for a thread without exclusive holds. -/
theorem demote_eq {td : ℕ} (hmode : ∀ h ∈ holds, h ≠ ⟨td, .exclusive⟩) :
    demote td holds = holds := by
  unfold demote
  conv_rhs => rw [← map_id holds]
  apply map_congr_left
  intro h hh
  rw [if_neg (hmode h hh)]; rfl

/-- All holds of the thread that has the lock exclusively become shared ones, those in `more`
    too. -/
theorem downgrade (h : Held l holds) (hholder : l.lkLockholder = some td) (more : List Hold)
    (hmore : ∀ h ∈ more, h.mode = .shared) (hlen : more.length ≤ 1)
    (hshare : l'.lkSharecount = more.length) (hcount : l'.lkExclusivecount = l.lkExclusivecount) :
    Held l'.downgrade (more ++ demote td holds) := by
  cases h with
  | shared h1 h2 h3 h4 =>
    rw [h4] at hholder
    cases hholder
  | exclusive td' h1 h2 h3 h4 h5 h6 =>
    obtain rfl : td' = td := Option.some.inj (h6.symm.trans hholder)
    have hlen' : (demote td' holds).length = holds.length := length_map _
    have hsum : cInt (l'.lkSharecount + l'.lkExclusivecount) =
        l'.lkSharecount + l'.lkExclusivecount := cInt_of_le (by omega) (by omega)
    have hend : Held { l'.sharelock l'.lkExclusivecount with
        lkExclusivecount := 0
        lkFlags := { (l'.sharelock l'.lkExclusivecount).lkFlags with haveExcl := false }
        lkLockholder := none } (more ++ demote td' holds) := by
      refine .shared (fun h hh => ?_) rfl rfl rfl ?_ ?_ ?_
      · rcases mem_append.1 hh with hh | hh
        · exact hmore h hh
        · exact demote_mode h1 h hh
      · show cInt (l'.lkSharecount + l'.lkExclusivecount) = _
        rw [hsum, length_append, hlen']
        push_cast; omega
      · show cInt (l'.lkSharecount + l'.lkExclusivecount) ≤ _; omega
      · show true = _
        rw [eq_comm, decide_eq_true_iff, length_append]; omega
    unfold Lock.downgrade
    dsimp only
    split_ifs
    · exact hend.wakeup
    · exact hend

/-- What a release gives up, before its `wakeup`. -/
theorem released (h : Held l holds) (hany : holds.any (·.td == td) = true)
    (hrel : Lock.Released l l') : Held l' (if ⟨td, .exclusive⟩ ∈ holds then
      holds.erase ⟨td, .exclusive⟩ else holds.erase ⟨td, .shared⟩) := by
  obtain ⟨x, hx, htd⟩ := any_eq_true.1 hany
  obtain rfl : x.td = td := by simpa using htd
  have hpos := length_pos_of_mem hx
  cases h with
  | shared h1 h2 h3 h4 h5 h6 h7 =>
    have hshared : x = ⟨x.td, .shared⟩ := by
      rw [← h1 x hx]
    have hnot : ⟨x.td, .exclusive⟩ ∉ holds := fun hmem => by cases h1 _ hmem
    rw [if_neg hnot]
    have hmem : ⟨x.td, .shared⟩ ∈ holds := hshared ▸ hx
    cases hrel with
    | last hcount => omega
    | recursive hcount => exact absurd h3 hcount
    | shared => exact (Held.shared h1 h2 h3 h4 h5 h6 h7).shareunlock hmem
    | nothing hcount hshare =>
      rw [hshare, eq_comm, decide_eq_false_iff_not] at h7; exact absurd hpos h7
  | exclusive td' h1 h2 h3 h4 h5 h6 h7 h8 =>
    obtain rfl : x.td = td' := by rw [h1 x hx]
    have hmem : ⟨x.td, .exclusive⟩ ∈ holds := h1 x hx ▸ hx
    have hlen := length_erase_of_mem hmem
    have h1' : ∀ y ∈ holds.erase ⟨x.td, .exclusive⟩, y = ⟨x.td, .exclusive⟩ :=
      fun y hy => h1 y (mem_of_mem_erase hy)
    rw [if_pos hmem]
    cases hrel with
    | last hcount =>
      have hnil : holds.erase ⟨x.td, .exclusive⟩ = [] := length_eq_zero_iff.1 (by omega)
      rw [hnil]
      exact .shared (by simp) rfl rfl rfl (by simpa using h7) (by show l.lkSharecount ≤ _; omega)
        (by simpa using h8)
    | recursive hcount hlast =>
      have hdiff : cShort (l.lkExclusivecount - 1) = l.lkExclusivecount - 1 :=
        cShort_of_le (by omega) (by omega)
      refine .exclusive x.td h1' h2 (by omega) ?_ ?_ h6 h7 h8
      · show cShort (l.lkExclusivecount - 1) = _; omega
      · show cShort (l.lkExclusivecount - 1) ≤ _; omega
    | shared hcount => omega
    | nothing hcount => omega

/-- A hold is released. -/
theorem release (h : Held l holds) (hany : holds.any (·.td == td) = true)
    (hup : l.lkFlags.wantUpgrade = true → l.lkFlags.haveExcl = false) {t : Lock} {r : Ret}
    (hr : l.release td = (t, r)) :
    r = .ok ∧ (t.lkFlags.wantUpgrade = true → t.lkFlags.haveExcl = false) ∧
      Held t (if ⟨td, .exclusive⟩ ∈ holds then holds.erase ⟨td, .exclusive⟩
        else holds.erase ⟨td, .shared⟩) := by
  rcases Lock.release_cases l td with ⟨hcount, hholder, -⟩ | ⟨l', hrel, hr'⟩
  · obtain ⟨x, hx, htd⟩ := any_eq_true.1 hany
    cases h with
    | shared h1 h2 h3 => exact absurd h3 hcount
    | exclusive td' h1 h2 h3 h4 h5 h6 =>
      rw [h1 x hx, beq_iff_eq] at htd; exact absurd (htd ▸ h6) hholder
  · obtain ⟨rfl, rfl⟩ := Prod.mk.inj (hr.symm.trans hr')
    have h' := h.released hany hrel
    have hup' : l'.lkFlags.wantUpgrade = true → l'.lkFlags.haveExcl = false := by
      cases hrel with
      | last => exact fun _ => rfl
      | recursive => exact hup
      | shared =>
        rw [Lock.shareunlock_haveExcl, Lock.shareunlock_wantUpgrade]; exact hup
      | nothing => exact hup
    by_cases hwait : l'.lkFlags.waitNonzero = true
    · rw [if_pos hwait]; exact ⟨rfl, hup', h'.wakeup⟩
    · rw [if_neg hwait]; exact ⟨rfl, hup', h'⟩

end Held

/-! ## Runs -/

/-- A thread inside `acquire` goes on for an exclusive lock only if nobody has it, and for a shared
    one only if the count has room. -/
def Waiter.Fits (l : Lock) (w : Waiter) : Prop :=
  l.lkFlags.meets w.wait.wanted = false →
    match w.wait with
    | .exclusive => l.lkFlags.haveExcl = false
    | .shared _ => l.lkSharecount < 2147483647
    | _ => True

/-- No counter overflows, and no exclusive request goes on after its second wait while another
    thread has the lock exclusively. -/
def Op.Fits (s : Sys) : Op → Prop
  | .call td .shared _ deadlktreat => s.lk.lkLockholder ≠ some td →
      s.lk.lkFlags.meets (Wait.shared deadlktreat).wanted = false → s.lk.lkSharecount < 2147483647
  | .call td .exclusive flags _ => s.lk.lkLockholder = some td →
      (flags.or s.lk.lkExtflags).canrecurse = true → s.lk.lkExclusivecount < 32767
  | .call .. => True
  | .resume td why => ∀ w, s.lk.waiters.find? (·.td == td) = some w → why = .wakeup →
      w.extflags.sleepfail = false → w.Fits s.lk
  | .relock td => ∀ w, s.lk.waiters.find? (·.td == td) = some w → w.Fits s.lk

namespace Sys
variable {smp : Bool} {s t : Sys}

/-- The waiters and the holds are as the lock says, nobody is on the way to an upgrade while the
    lock is held exclusively, and the panic has not been reached. -/
structure Inv (s : Sys) : Prop where
  waits : s.lk.WaitsFor none
  held : Held s.lk s.holds
  up : s.lk.lkFlags.wantUpgrade = true → s.lk.lkFlags.haveExcl = false
  panicstr : s.panicstr ≠ some "lockmgr: non-zero exclusive count"

theorem Inv.excludes (h : Inv s) : Excludes s := by
  have hcount : ∀ {m : Mode}, (∀ h ∈ s.holds, h.mode = m) → s.holds.countP (·.mode = m) =
      s.holds.length := fun hm => countP_eq_length.2 fun h hh => by simp [hm h hh]
  cases h.held with
  | shared h1 h2 h3 h4 h5 h6 h7 =>
    refine ⟨fun td hmem => ?_, ?_, ?_, ?_, h.panicstr⟩
    · cases h1 _ hmem
    · simp [h2, h3]
    · rw [h7, h5, decide_eq_true_iff]; omega
    · rw [hcount h1, h5]
  | exclusive td h1 h2 h3 h4 h5 h6 h7 h8 =>
    refine ⟨fun td' hmem x hx => ?_, ?_, ?_, ?_, h.panicstr⟩
    · have := h1 _ hmem
      rw [h1 x hx]; exact (Hold.mk.inj this).1.symm
    · rw [h4]; exact ⟨fun _ => by omega, fun _ => h2⟩
    · simp [h7, h8]
    · rw [h7, eq_comm, Nat.cast_eq_zero, countP_eq_zero]
      intro x hx
      rw [h1 x hx]; simp

theorem answer_inv {r : Lock × Ret} {granted otherwise : List Hold}
    (ht : t = (s.answer r granted otherwise).1) (hwaits : t.lk.WaitsFor none)
    (hheld : Held r.1 (if r.2 = .ok then granted else otherwise))
    (hup : r.1.lkFlags.wantUpgrade = true → r.1.lkFlags.haveExcl = false)
    (hpanic : r.2 ≠ .panic "lockmgr: non-zero exclusive count") : Inv t := by
  subst ht
  refine ⟨hwaits, hheld, hup, ?_⟩
  unfold Sys.answer
  dsimp only
  cases hr : r.2 with
  | panic msg =>
    rw [hr] at hpanic; simpa using hpanic
  | _ => simp

/-- The holds after a request that waits for a shared lock. -/
theorem Inv.shared (h : Inv s) {td : ℕ} {deadlktreat : Bool} {l : Lock} {r : Ret}
    (hholder : s.lk.lkLockholder ≠ some td)
    (hroom : s.lk.lkFlags.meets (Wait.shared deadlktreat).wanted = false →
      s.lk.lkSharecount < 2147483647)
    (hdone : Lock.Done td True s.lk (.shared deadlktreat) l r) :
    Held l (if r = .ok then ⟨td, .shared⟩ :: demote td s.holds else s.holds) ∧
      (l.lkFlags.wantUpgrade = true → l.lkFlags.haveExcl = false) ∧
      r ≠ .panic "lockmgr: non-zero exclusive count" := by
  obtain ⟨h1, h2, h3⟩ := h.held.done h.up (by simp) (by simp) (fun _ _ => hroom) hdone
  rw [Held.demote_eq fun x hx hxe => ?_]
  · exact ⟨h1, h2, h3 _⟩
  · cases h.held with
    | shared hmode => cases hxe ▸ hmode x hx
    | exclusive td' hmode _ _ _ _ hholder' =>
      obtain rfl : td' = td := by
        have := (hmode x hx).symm.trans hxe
        exact (Hold.mk.inj this).1
      exact hholder hholder'

/-- A thread that was inside `acquire` goes on. -/
theorem Inv.goOn (h : Inv s) {td : ℕ} {mayFail : Prop} {w : Waiter} {l l' : Lock} {r : Ret}
    (hwaits : l.WaitsFor (some w.wait)) (hflags : l.lkFlags.haveExcl = s.lk.lkFlags.haveExcl)
    (hheld : Held l s.holds)
    (hup : l.lkFlags.wantUpgrade = s.lk.lkFlags.wantUpgrade)
    (hfits : w.Fits l)
    (hdone : Lock.Done td mayFail l w.wait l' r) :
    Held l' (if r = .ok then w.wait.hold td :: s.holds else s.holds) ∧
      (l'.lkFlags.wantUpgrade = true → l'.lkFlags.haveExcl = false) ∧
      r ≠ .panic "lockmgr: non-zero exclusive count" := by
  have hupl : l.lkFlags.wantUpgrade = true → l.lkFlags.haveExcl = false := by
    rw [hflags, hup]; exact h.up
  have hupgrade : w.wait = .upgrade → l.lkFlags.wantUpgrade = true := by
    intro hw
    by_contra hwu
    have := hwaits.upgrades
    rw [hw, if_pos rfl, if_neg hwu] at this; omega
  have hexclusive : w.wait = .exclusive → l.lkFlags.meets w.wait.wanted = false →
      l.lkFlags.haveExcl = false := by
    intro hw hfree
    have := hfits hfree
    rw [hw] at this; exact this
  have hshared : ∀ d, w.wait = .shared d → l.lkFlags.meets w.wait.wanted = false →
      l.lkSharecount < 2147483647 := by
    intro d hw hfree
    have := hfits hfree
    rw [hw] at this; exact this
  obtain ⟨h1, h2, h3⟩ := hheld.done hupl (fun hw => hupl (hupgrade hw)) hexclusive hshared hdone
  exact ⟨h1, h2, h3 _⟩

theorem Inv.step (h : Inv s) {op : Op} {r : Ret} (hfits : op.Fits s)
    (hstep : s.step smp op = some (t, r)) : Inv t := by
  have hwaits := waitsFor_step h.waits hstep
  obtain ⟨-, hchange⟩ := step_change hstep
  cases hchange with
  | call td request flags deadlktreat hnew hproper _ _ ht =>
    have ht' := congrArg Prod.fst ht
    cases request with
    | shared =>
      have hcall : s.lk.lockmgr smp .shared flags td deadlktreat =
        s.lk.shared smp td deadlktreat (flags.or s.lk.lkExtflags) := rfl
      by_cases hholder : s.lk.lkLockholder = some td
      · rw [Lock.shared, if_neg (not_not.2 hholder)] at hcall
        refine answer_inv ht' hwaits ?_ ?_ ?_ <;> rw [hcall]
        · obtain ⟨hshare, -⟩ := h.held.of_holder hholder
          refine h.held.downgrade hholder [⟨td, .shared⟩] (by simp) (by simp) ?_ rfl
          show cInt (s.lk.lkSharecount + 1) = _
          rw [hshare]; rfl
        · simp
        · simp
      · rw [Lock.shared, if_pos hholder] at hcall
        have hdone := (Lock.acquire_acquired smp s.lk td (flags.or s.lk.lkExtflags)
          (.shared deadlktreat)).done smp (flags.or s.lk.lkExtflags)
        rw [← hcall] at hdone
        obtain ⟨h1, h2, h3⟩ := h.shared hholder (hfits hholder) hdone
        exact answer_inv ht' hwaits h1 h2 h3
    | exclusive =>
      obtain ⟨h1, h2, h3⟩ := h.held.exclusiveRequest h.up smp (flags.or s.lk.lkExtflags) hfits
        Prod.mk.eta.symm
      exact answer_inv ht' hwaits h1 h2 h3
    | upgrade =>
      have hmem : ⟨td, .shared⟩ ∈ s.holds := by simpa [Request.proper] using hproper
      obtain ⟨h1, h2, h3⟩ := h.held.upgradeRequest smp (flags.or s.lk.lkExtflags) hmem
        Prod.mk.eta.symm
      exact answer_inv ht' hwaits h1 h2 h3
    | exclupgrade =>
      have hmem : ⟨td, .shared⟩ ∈ s.holds := by simpa [Request.proper] using hproper
      have hcall : s.lk.lockmgr smp .exclupgrade flags td deadlktreat =
        s.lk.exclupgrade smp td (flags.or s.lk.lkExtflags) := rfl
      by_cases hwu : s.lk.lkFlags.wantUpgrade = true
      · rw [Lock.exclupgrade, if_pos hwu] at hcall
        refine answer_inv ht' hwaits ?_ ?_ ?_ <;> rw [hcall]
        · rw [if_neg (by simp)]
          exact h.held.shareunlock hmem
        · rw [Lock.shareunlock_haveExcl, Lock.shareunlock_wantUpgrade]; exact h.up
        · simp
      · rw [Lock.exclupgrade, if_neg hwu] at hcall
        obtain ⟨h1, h2, h3⟩ := h.held.upgradeRequest smp (flags.or s.lk.lkExtflags) hmem
          Prod.mk.eta.symm
        rw [← hcall] at h1 h2 h3; exact answer_inv ht' hwaits h1 h2 h3
    | downgrade =>
      have hmem : ⟨td, .exclusive⟩ ∈ s.holds := by simpa [Request.proper] using hproper
      have hholder := h.held.holder_of_mem hmem
      have hcall : s.lk.lockmgr smp .downgrade flags td deadlktreat = (s.lk.downgrade, .ok) := rfl
      refine answer_inv ht' hwaits ?_ ?_ ?_ <;> rw [hcall]
      · obtain ⟨hshare, -⟩ := h.held.of_holder hholder
        exact h.held.downgrade hholder [] (by simp) (by simp) hshare rfl
      · simp
      · simp
    | release =>
      obtain ⟨h1, h2, h3⟩ := h.held.release hproper h.up (Prod.mk.eta (p := s.lk.release td)).symm
      have hcall : s.lk.lockmgr smp .release flags td deadlktreat = s.lk.release td := rfl
      rw [← hcall] at h1 h2 h3
      refine answer_inv ht' hwaits ?_ h2 (by rw [h1]; simp)
      rw [if_pos h1]; exact h3
  | giveUp td why w hw hfind hsleep hwhy e l hl =>
    have hheld : Held l s.holds := by rw [hl]; exact Held.unwait (h.held.congr rfl rfl rfl rfl rfl)
    refine answer_inv rfl hwaits ?_ ?_ (by simp)
    · rw [if_neg (by simp)]
      exact hheld.clear w.wait
    · show (w.wait.clear l.lkFlags).wantUpgrade = true → (w.wait.clear l.lkFlags).haveExcl = false
      rw [clear_haveExcl, hl, Lock.unwait_lkFlags]
      intro hwu
      refine h.up ?_
      cases hwait : w.wait <;> rw [hwait] at hwu
      · exact hwu
      · cases hwu
      · exact hwu
      · exact hwu
  | resume td w hw hfind hsleep hstay l _ hdone =>
    have hres := h.waits.resume hw hsleep
    have hfit : w.Fits s.lk := hfits w hfind rfl hstay
    have hfit' : w.Fits (Lock.unwait { s.lk with waiters := s.lk.waiters.erase w }) := by
      unfold Waiter.Fits at hfit ⊢
      rw [Lock.meets_unwait, Lock.unwait_lkFlags, Lock.unwait_lkSharecount]; exact hfit
    obtain ⟨h1, h2, h3⟩ := h.goOn hres (by rw [Lock.unwait_lkFlags])
      (Held.unwait (h.held.congr rfl rfl rfl rfl rfl)) (by rw [Lock.unwait_lkFlags])
      hfit' hdone
    exact answer_inv rfl hwaits h1 h2 h3
  | relock td w hw hfind hpause l _ hdone =>
    have hrel := h.waits.relock hw hpause
    obtain ⟨h1, h2, h3⟩ := h.goOn hrel rfl (h.held.congr rfl rfl rfl rfl rfl) rfl
      (hfits w hfind) hdone
    exact answer_inv rfl hwaits h1 h2 h3

theorem Inv.init (pcatch : Bool) (timo : ℕ) (flags : ExtFlags) :
    Inv (Sys.init pcatch timo flags) where
  waits := ⟨nodup_nil, rfl, rfl, rfl, rfl⟩
  held := .shared (by simp [Sys.init]) rfl rfl rfl rfl (by simp [Sys.init, lockinit]) rfl
  up := by simp [Sys.init, lockinit]
  panicstr := by simp [Sys.init]

/-- In every run in which no counter overflows and no exclusive request goes on after its second
    wait while another thread has the lock exclusively, there is exclusion, and flags and counts are
    those of the holds. -/
theorem lockmgr_exclusion_of_run {pcatch : Bool} {timo : ℕ} {flags : ExtFlags}
    (hrun : Runs (Sys.step smp) (fun s op => op.Fits s) (Sys.init pcatch timo flags) s) :
    Excludes s :=
  (hrun.invariant (Inv.init pcatch timo flags) fun _ _ _ _ h hfits hstep =>
    h.step hfits hstep).excludes

/-- A run with one shared request. -/
theorem lockmgr_exclusion_of_run_first : ∃ s r,
    (Sys.init false 0 ⟨false, false, false, false, false⟩).step true
      (.call 1 .shared ⟨false, false, false, false, false⟩ false) = some (s, r) ∧ Excludes s := by
  have hfits : (Op.call 1 .shared ⟨false, false, false, false, false⟩ false).Fits
      (Sys.init false 0 ⟨false, false, false, false, false⟩) := by
    intro _ _; decide
  exact ⟨_, _, rfl, lockmgr_exclusion_of_run (Runs.refl.tail hfits rfl)⟩

/-- A thread has the lock shared, another one asks for it exclusively and waits for the first one,
    which upgrades: the second one wakes up and takes the lock too. -/
theorem upgrade_during_exclusive_request :
    ¬ ∀ (smp pcatch : Bool) (timo : ℕ) (flags : ExtFlags) (s : Sys),
      Runs (Sys.step smp) (fun _ _ => True) (Sys.init pcatch timo flags) s → Excludes s := by
  intro hclaim
  obtain ⟨s, hrun, hs⟩ := Lib.exists_of_exec (Sys.step false) (P := fun _ _ => True)
    (s := Sys.init false 0 ⟨false, false, false, false, false⟩) (f := Sys.panicstr)
    (b := some "lockmgr: non-zero exclusive count")
    [.call 1 .shared ⟨false, false, false, false, false⟩ false,
      .call 2 .exclusive ⟨false, false, false, false, false⟩ false,
      .call 1 .upgrade ⟨false, false, false, false, false⟩ false, .resume 2 .wakeup]
    (fun _ _ _ => trivial) (by decide +kernel)
  exact (hclaim false false 0 _ s hrun).panicstr hs

end Sys

end FreeBSD.KernLock
