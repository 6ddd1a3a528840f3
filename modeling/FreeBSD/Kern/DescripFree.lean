import Mathlib.Tactic

/-!
# Release of a descriptor table

`fdfree` of `kern/kern_descrip.c` (lines 1416–1541). What other threads do to the table while the
lock is not held is a parameter: `other i` for the unlock in round `i` of the first loop, `sleeps`
for each `msleep`, and `gap` between the two halves. A result `none` is a failed assertion or a
sleep that does not end.

The first loop ends before the descriptor `fd_lastfile`, the second one behind it.

Results:
* `unlockLoop_returns`, `unlockLoop_spec`: the first loop ends, and the unlocks that it issues.
* `unlockLoop_tableAt`: where it ends.
* `fdfree_returns`: a call ends if its sleeps do.
* `fdfree_iff`: when a shared table is unlocked as it should be.
* `fdfree_keeps_lock`: the lock on the file of the last descriptor stays.
-/

namespace FreeBSD.DescripFree

open List Option

/-! ## Data -/

/-- `struct file`: its address, and `f_vnode` if `f_type` is `DTYPE_VNODE`. -/
structure File where
  addr : ℕ
  f_vnode : Option ℕ
deriving DecidableEq

/-- `struct filedesc`, as far as `fdfree` uses it. A descriptor is an `int`. -/
structure Filedesc where
  fd_ofiles : ℕ → Option File
  fd_lastfile : ℕ
  fd_refcnt : ℕ
  fd_holdleaderscount : ℕ
  fd_holdleaderswakeup : Bool
  int_lastfile : fd_lastfile < 2 ^ 31

/-- `struct filedesc_to_leader`. -/
structure FiledescToLeader where
  fdl_refcount : ℕ
  fdl_holdcount : ℕ
  fdl_wakeup : Bool
deriving DecidableEq

/-- What other threads do while the lock is not held. -/
structure Others where
  other : ℕ → Filedesc → Filedesc
  sleeps : List (Filedesc × FiledescToLeader → Filedesc × FiledescToLeader)
  gap : Filedesc → Filedesc

/-- What the call has done: the descriptors and vnodes of the unlocks, the arguments of `closef`,
    whether the leader structure is freed, and the table when its reference was dropped. -/
structure Result where
  unlocked : List (ℕ × ℕ)
  closed : List (ℕ × File)
  freedFdtol : Bool
  fdp : Filedesc

/-! ## Model -/

/-- The loop of lines 1444–1468 from round `i` on: where it ends, the table then, and the
    unlocks. -/
def unlockLoop (other : ℕ → Filedesc → Filedesc) :
    ℕ → ℕ → Filedesc → Option (ℕ × Filedesc × List (ℕ × ℕ))
  | 0, _, _ => none
  | rounds + 1, i, fdp =>
    if i < fdp.fd_lastfile then
      match (fdp.fd_ofiles i).bind File.f_vnode with
      | none => unlockLoop other rounds (i + 1) fdp
      | some vp => (unlockLoop other rounds (i + 1) (other i fdp)).map fun r =>
          (r.1, r.2.1, (i, vp) :: r.2.2)
    else some (i, fdp, [])

/-- From `retry` on (lines 1470–1492). -/
def retryLoop (advlock : Bool) :
    List (Filedesc × FiledescToLeader → Filedesc × FiledescToLeader) → Filedesc →
      FiledescToLeader → Option (Filedesc × FiledescToLeader)
  | sleeps, fdp, fdtol =>
    if fdtol.fdl_refcount = 1 then
      if 0 < fdp.fd_holdleaderscount ∧ advlock then
        match sleeps with
        | [] => none
        | wake :: sleeps =>
          let s := wake ({ fdp with fd_holdleaderswakeup := true }, fdtol)
          retryLoop advlock sleeps s.1 s.2
      else if 0 < fdtol.fdl_holdcount then
        match sleeps with
        | [] => none
        | wake :: sleeps =>
          let s := wake (fdp, { fdtol with fdl_wakeup := true })
          retryLoop advlock sleeps s.1 s.2
      else some (fdp, fdtol)
    else some (fdp, fdtol)

/-- The loop of lines 1517–1521, where `i` rounds are left at `fpp`. -/
def closeLoop (fd_ofiles : ℕ → Option File) : ℕ → ℕ → List (ℕ × File)
  | 0, _ => []
  | i + 1, fpp =>
    match fd_ofiles fpp with
    | none => closeLoop fd_ofiles i (fpp + 1)
    | some fp => (fpp, fp) :: closeLoop fd_ofiles i (fpp + 1)

/-- The end of `fdfree`, from line 1508 on. -/
def dropRef (fdp : Filedesc) : Filedesc × List (ℕ × File) :=
  let fdp := { fdp with fd_refcnt := fdp.fd_refcnt - 1 }
  if 0 < fdp.fd_refcnt then (fdp, [])
  else
    -- `i-- >= 0` holds `fd_lastfile + 1` times
    (fdp, closeLoop fdp.fd_ofiles (fdp.fd_lastfile + 1) 0)

/-- The locks of the leader are cleared (lines 1434–1468) if this is its last process. -/
def clearLocks (env : Others) (advlock : Bool) (fdp : Filedesc) (fdtol : FiledescToLeader) :
    Option (ℕ × Filedesc × List (ℕ × ℕ)) :=
  if fdtol.fdl_refcount = 1 ∧ advlock then unlockLoop env.other (2 ^ 31) 0 fdp
  else some (0, fdp, [])

/-- `fdfree`, for a process with the table `fdp`, and `P_ADVLOCK` of its leader. -/
def fdfree (env : Others) (advlock : Bool) (fdp : Filedesc) (fdtol : Option FiledescToLeader) :
    Option Result :=
  match fdtol with
  | none =>
    let (fdp, closed) := dropRef fdp
    some ⟨[], closed, false, fdp⟩
  | some fdtol => do
    if fdtol.fdl_refcount = 0 then none
    else
      let (_, fdp, unlocked) ← clearLocks env advlock fdp fdtol
      let (fdp, fdtol) ← retryLoop advlock env.sleeps fdp fdtol
      let fdtol := { fdtol with fdl_refcount := fdtol.fdl_refcount - 1 }
      let (fdp, closed) := dropRef (env.gap fdp)
      some ⟨unlocked, closed, fdtol.fdl_refcount = 0 ∧ fdtol.fdl_holdcount = 0, fdp⟩

/-! ## The first loop -/

variable {env : Others} {other : ℕ → Filedesc → Filedesc} {advlock : Bool} {fdp T : Filedesc}
  {rounds i stop fd vp : ℕ} {out : List (ℕ × ℕ)}

/-- The descriptor is open on the vnode, and the other threads leave it so. -/
def Kept (other : ℕ → Filedesc → Filedesc) (fdp : Filedesc) (fd vp : ℕ) : Prop :=
  ∃ fp, fp.f_vnode = some vp ∧ (fdp.fd_ofiles fd = some fp ∧ fd ≤ fdp.fd_lastfile) ∧
    ∀ i T, T.fd_ofiles fd = some fp ∧ fd ≤ T.fd_lastfile →
      (other i T).fd_ofiles fd = some fp ∧ fd ≤ (other i T).fd_lastfile

theorem Kept.after (h : Kept other fdp fd vp) (i : ℕ) : Kept other (other i fdp) fd vp := by
  obtain ⟨fp, hvp, hopen, hkeep⟩ := h
  exact ⟨fp, hvp, hkeep i fdp hopen, hkeep⟩

theorem Kept.vnode (h : Kept other fdp fd vp) : (fdp.fd_ofiles fd).bind File.f_vnode = some vp := by
  obtain ⟨fp, hvp, hopen, -⟩ := h
  rw [hopen.1]; exact hvp

theorem Kept.le (h : Kept other fdp fd vp) : fd ≤ fdp.fd_lastfile := by
  obtain ⟨fp, -, hopen, -⟩ := h
  exact hopen.2

/-- Descriptors are below 2^31, so the loop ends. -/
theorem unlockLoop_returns (other : ℕ → Filedesc → Filedesc) (fdp : Filedesc)
    (h : 2 ^ 31 ≤ rounds + i) (hpos : 0 < rounds) :
    ∃ r, unlockLoop other rounds i fdp = some r := by
  induction rounds generalizing i fdp with
  | zero => exact absurd hpos (lt_irrefl 0)
  | succ rounds ih =>
    rw [unlockLoop]
    split_ifs with hlt
    · have hint := fdp.int_lastfile
      have hmore : 0 < rounds := by omega
      cases (fdp.fd_ofiles i).bind File.f_vnode with
      | none => exact ih fdp (by omega) hmore
      | some vp =>
        obtain ⟨r, hr⟩ := @ih (i + 1) (other i fdp) (by omega) hmore
        dsimp only
        rw [hr]; exact ⟨_, rfl⟩
    · exact ⟨_, rfl⟩

/-- Of the descriptors that stay open, those before the one at which the loop ends are unlocked, and
    there is none behind it. -/
theorem unlockLoop_spec (h : unlockLoop other rounds i fdp = some (stop, T, out)) :
    i ≤ stop ∧ (∀ p ∈ out, p.1 < stop) ∧
      ∀ fd vp, Kept other fdp fd vp → i ≤ fd → fd ≤ stop ∧ (fd < stop → (fd, vp) ∈ out) := by
  induction rounds generalizing i fdp out with
  | zero => cases h
  | succ rounds ih =>
    rw [unlockLoop] at h
    split_ifs at h with hlt
    · cases hv : (fdp.fd_ofiles i).bind File.f_vnode with
      | none =>
        rw [hv] at h
        obtain ⟨hle, hout, hkept⟩ := ih h
        refine ⟨by omega, hout, fun fd vp hk hfd => ?_⟩
        have hne : i ≠ fd := by
          rintro rfl
          rw [hk.vnode] at hv
          cases hv
        exact hkept fd vp hk (by omega)
      | some vq =>
        rw [hv] at h
        obtain ⟨⟨stop', T', out'⟩, hr, heq⟩ := map_eq_some_iff.1 h
        obtain ⟨rfl, rfl, rfl⟩ : stop' = stop ∧ T' = T ∧ (i, vq) :: out' = out := by
          simpa using heq
        obtain ⟨hle, hout, hkept⟩ := ih hr
        refine ⟨by omega, ?_, fun fd vp hk hfd => ?_⟩
        · intro p hp
          obtain rfl | hp := mem_cons.1 hp
          · exact hle
          · exact hout p hp
        · by_cases heq : i = fd
          · subst heq
            rw [hk.vnode] at hv
            obtain rfl := some.inj hv
            exact ⟨by omega, fun _ => mem_cons_self⟩
          · obtain ⟨hstop, hmem⟩ := hkept fd vp (hk.after i) (by omega)
            exact ⟨hstop, fun hfd => mem_cons_of_mem _ (hmem hfd)⟩
    · obtain ⟨rfl, rfl, rfl⟩ : i = stop ∧ fdp = T ∧ [] = out := by simpa using h
      refine ⟨le_refl i, (fun p hp => by cases hp), fun fd vp hk hfd => ?_⟩
      have := hk.le
      exact ⟨by omega, fun hlt => by omega⟩

/-- The table when the first loop comes to the descriptor `i`. -/
def tableAt (other : ℕ → Filedesc → Filedesc) (fdp : Filedesc) : ℕ → Filedesc
  | 0 => fdp
  | i + 1 =>
    let T := tableAt other fdp i
    if ((T.fd_ofiles i).bind File.f_vnode).isSome then other i T else T

theorem Kept.tableAt (h : Kept other fdp fd vp) (i : ℕ) :
    Kept other (tableAt other fdp i) fd vp := by
  induction i with
  | zero => exact h
  | succ i ih =>
    rw [DescripFree.tableAt]
    split_ifs
    · exact ih.after i
    · exact ih

/-- The loop goes on at the descriptors below the last one at that time, and at no other. -/
theorem unlockLoop_tableAt
    (h : unlockLoop other rounds i (tableAt other fdp i) = some (stop, T, out)) :
    (tableAt other fdp stop).fd_lastfile ≤ stop ∧
      ∀ fd, i ≤ fd → fd < stop → fd < (tableAt other fdp fd).fd_lastfile := by
  induction rounds generalizing i out with
  | zero => cases h
  | succ rounds ih =>
    rw [unlockLoop] at h
    split_ifs at h with hlt
    · have hrest : ∃ out', unlockLoop other rounds (i + 1) (tableAt other fdp (i + 1)) =
          some (stop, T, out') := by
        rw [tableAt]
        cases hv : ((tableAt other fdp i).fd_ofiles i).bind File.f_vnode with
        | none =>
          rw [hv] at h; exact ⟨out, h⟩
        | some vq =>
          rw [hv] at h
          obtain ⟨⟨stop', T', out'⟩, hr, heq⟩ := map_eq_some_iff.1 h
          obtain ⟨rfl, rfl, -⟩ : stop' = stop ∧ T' = T ∧ (i, vq) :: out' = out := by
            simpa using heq
          exact ⟨out', hr⟩
      obtain ⟨out', hrest⟩ := hrest
      obtain ⟨hstop, hbelow⟩ := ih hrest
      refine ⟨hstop, fun fd hfd hfd' => ?_⟩
      by_cases heq : i = fd
      · subst heq; exact hlt
      · exact hbelow fd (by omega) hfd'
    · obtain ⟨rfl, -, -⟩ : i = stop ∧ tableAt other fdp i = T ∧ [] = out := by simpa using h
      exact ⟨by omega, fun fd hfd hfd' => by omega⟩

/-! ## The second loop -/

/-- `closef` is called once for each open descriptor. -/
theorem closeLoop_spec (fd_ofiles : ℕ → Option File) (rounds fpp : ℕ) :
    ((closeLoop fd_ofiles rounds fpp).map Prod.fst).Nodup ∧
      ∀ fd fp, (fd, fp) ∈ closeLoop fd_ofiles rounds fpp ↔
        (fpp ≤ fd ∧ fd < fpp + rounds) ∧ fd_ofiles fd = some fp := by
  induction rounds generalizing fpp with
  | zero =>
    refine ⟨nodup_nil, fun fd fp => iff_of_false (fun h => by cases h) ?_⟩
    omega
  | succ rounds ih =>
    obtain ⟨hnodup, hmem⟩ := ih (fpp + 1)
    rw [closeLoop]
    cases hfp : fd_ofiles fpp with
    | none =>
      refine ⟨hnodup, fun fd fp => (hmem fd fp).trans ?_⟩
      constructor
      · rintro ⟨hrange, hopen⟩; exact ⟨by omega, hopen⟩
      · rintro ⟨hrange, hopen⟩
        have hne : fpp ≠ fd := by
          rintro rfl
          rw [hfp] at hopen
          cases hopen
        exact ⟨by omega, hopen⟩
    | some f =>
      dsimp only
      rw [map_cons, nodup_cons]
      refine ⟨⟨fun hin => ?_, hnodup⟩, fun fd fp => ?_⟩
      · obtain ⟨⟨fd, fp⟩, hp, hfd⟩ := mem_map.1 hin
        have := ((hmem fd fp).1 hp).1
        have hfd : fd = fpp := hfd
        omega
      · rw [mem_cons, hmem, Prod.mk.injEq]
        constructor
        · rintro (⟨rfl, rfl⟩ | ⟨hrange, hopen⟩)
          · exact ⟨by omega, hfp⟩
          · exact ⟨by omega, hopen⟩
        · rintro ⟨hrange, hopen⟩
          by_cases heq : fd = fpp
          · subst heq
            rw [hfp] at hopen; exact .inl ⟨rfl, (some.inj hopen).symm⟩
          · exact .inr ⟨by omega, hopen⟩

/-! ## The call -/

/-- `closef` has been called exactly once for each descriptor that was open. -/
def ClosedOnce (fdp : Filedesc) (closed : List (ℕ × File)) : Prop :=
  (closed.map Prod.fst).Nodup ∧
    ∀ fd fp, (fd, fp) ∈ closed ↔ fd ≤ fdp.fd_lastfile ∧ fdp.fd_ofiles fd = some fp

/-- `fdfree` does what it should: if the leader is left and had locks, while the table stays shared,
    each open vnode is unlocked; and the last reference closes each descriptor once. -/
def Released (env : Others) (advlock : Bool) (fdp : Filedesc) (fdtol : Option FiledescToLeader)
    (r : Result) : Prop :=
  ((∃ t, fdtol = some t ∧ t.fdl_refcount = 1) → advlock = true → 0 < r.fdp.fd_refcnt →
      ∀ fd vp, Kept env.other fdp fd vp → (fd, vp) ∈ r.unlocked) ∧
    (r.fdp.fd_refcnt = 0 → ClosedOnce r.fdp r.closed)

theorem dropRef_closed (fdp : Filedesc) (h : (dropRef fdp).1.fd_refcnt = 0) :
    ClosedOnce (dropRef fdp).1 (dropRef fdp).2 := by
  unfold dropRef at h ⊢
  dsimp only at h ⊢
  split_ifs at h ⊢ with hpos
  · exact absurd h hpos.ne'
  · obtain ⟨hnodup, hmem⟩ := closeLoop_spec fdp.fd_ofiles (fdp.fd_lastfile + 1) 0
    refine ⟨hnodup, fun fd fp => (hmem fd fp).trans ?_⟩
    exact and_congr_left fun _ => by dsimp only; omega

/-- The unlocks of a call are those of its first loop, and the table is closed at the end. -/
theorem fdfree_cases {t : FiledescToLeader} {r : Result}
    (h : fdfree env advlock fdp (some t) = some r) :
    ∃ stop T U, clearLocks env advlock fdp t = some (stop, T, r.unlocked) ∧
      r.fdp = (dropRef U).1 ∧ r.closed = (dropRef U).2 := by
  rw [fdfree] at h
  split_ifs at h
  obtain ⟨⟨stop, T, out⟩, hclear, h⟩ := bind_eq_some_iff.1 h
  obtain ⟨⟨U, t'⟩, -, h⟩ := bind_eq_some_iff.1 h
  obtain rfl := some.inj h
  exact ⟨stop, T, env.gap U, hclear, rfl, rfl⟩

/-- Only a sleep that does not end keeps a call from its end. -/
theorem fdfree_returns (env : Others) (advlock : Bool) (fdp : Filedesc) {t : FiledescToLeader}
    (ht : t.fdl_refcount ≠ 0) :
    ∃ stop T out, clearLocks env advlock fdp t = some (stop, T, out) ∧
      (fdfree env advlock fdp (some t) = none ↔ retryLoop advlock env.sleeps T t = none) := by
  obtain ⟨⟨stop, T, out⟩, hclear⟩ : ∃ p, clearLocks env advlock fdp t = some p := by
    unfold clearLocks
    split_ifs
    · exact unlockLoop_returns env.other fdp (by omega) (by decide)
    · exact ⟨_, rfl⟩
  refine ⟨stop, T, out, hclear, ?_⟩
  rw [fdfree, if_neg ht, hclear]
  show (retryLoop advlock env.sleeps T t).bind _ = none ↔ _
  constructor
  · intro hnone
    by_contra hsome
    obtain ⟨p, hp⟩ := ne_none_iff_exists'.1 hsome
    rw [hp] at hnone
    cases hnone
  · intro hnone
    rw [hnone]; rfl

/-- Locks stay if a vnode is open at the last descriptor when the first loop comes to it. -/
theorem clearLocks_unlocks {t : FiledescToLeader} {T : Filedesc}
    (h : clearLocks env true fdp t = some (stop, T, out)) (ht : t.fdl_refcount = 1) :
    (∀ fd vp, Kept env.other fdp fd vp → (fd, vp) ∈ out) ↔
      ∀ fd vp, Kept env.other fdp fd vp → (tableAt env.other fdp fd).fd_lastfile ≠ fd := by
  rw [clearLocks, if_pos ⟨ht, rfl⟩] at h
  obtain ⟨-, hout, hkept⟩ := unlockLoop_spec h
  obtain ⟨hstop, hbelow⟩ := unlockLoop_tableAt (i := 0) h
  constructor
  · intro hall fd vp hk hlast
    have hlt := hbelow fd (Nat.zero_le fd) (hout _ (hall fd vp hk)); omega
  · intro hne fd vp hk
    obtain ⟨hle, hmem⟩ := hkept fd vp hk (Nat.zero_le fd)
    apply hmem
    by_contra hge
    obtain rfl : fd = stop := by omega
    have := (hk.tableAt fd).le
    exact hne fd vp hk (by omega)

/-- The condition: if the table stays shared, no vnode is open at the descriptor that is the last
    one when the first loop comes to it. -/
theorem fdfree_iff (env : Others) (advlock : Bool) (fdp : Filedesc)
    (fdtol : Option FiledescToLeader) (r : Result)
    (h : fdfree env advlock fdp fdtol = some r) :
    Released env advlock fdp fdtol r ↔
      ((∃ t, fdtol = some t ∧ t.fdl_refcount = 1) → advlock = true → 0 < r.fdp.fd_refcnt →
        ∀ fd vp, Kept env.other fdp fd vp →
          (tableAt env.other fdp fd).fd_lastfile ≠ fd) := by
  cases fdtol with
  | none =>
    obtain rfl := Option.some.inj h
    refine ⟨fun _ ht => ?_, fun _ => ⟨fun ht => ?_, fun hlast => dropRef_closed fdp hlast⟩⟩ <;>
      · obtain ⟨t, ht, -⟩ := ht
        cases ht
  | some t =>
    obtain ⟨stop, T, U, hclear, hfdp, hclosed⟩ := fdfree_cases h
    have hlast : r.fdp.fd_refcnt = 0 → ClosedOnce r.fdp r.closed := by
      rw [hfdp, hclosed]; exact dropRef_closed U
    have hunlock : (∃ s, some t = some s ∧ s.fdl_refcount = 1) → advlock = true →
        ((∀ fd vp, Kept env.other fdp fd vp → (fd, vp) ∈ r.unlocked) ↔
          ∀ fd vp, Kept env.other fdp fd vp → (tableAt env.other fdp fd).fd_lastfile ≠ fd) := by
      rintro ⟨s, hs, href⟩ rfl
      obtain rfl := Option.some.inj hs
      exact clearLocks_unlocks hclear href
    constructor
    · rintro ⟨hall, -⟩ href hadv hshared; exact (hunlock href hadv).1 (hall href hadv hshared)
    · intro hcond
      exact ⟨fun href hadv hshared => (hunlock href hadv).2 (hcond href hadv hshared), hlast⟩

/-- A file on the vnode `7`, at the only descriptor of a table that two processes share. -/
def oneOpen : Filedesc where
  fd_ofiles fd := if fd = 0 then some ⟨1, some 7⟩ else none
  fd_lastfile := 0
  fd_refcnt := 2
  fd_holdleaderscount := 0
  fd_holdleaderswakeup := false
  int_lastfile := by decide

/-- No other thread runs. -/
def alone : Others := ⟨fun _ T => T, [], id⟩

/-- The call on `oneOpen` for the only process of the leader. -/
def oneFreed : Result := ⟨[], [], true, { oneOpen with fd_refcnt := 1 }⟩

theorem kept_oneOpen : Kept alone.other oneOpen 0 7 :=
  ⟨⟨1, some 7⟩, rfl, ⟨rfl, le_refl 0⟩, fun _ _ h => h⟩

theorem fdfree_oneOpen : fdfree alone true oneOpen (some ⟨1, 0, false⟩) = some oneFreed := by
  have hloop : unlockLoop alone.other (2 ^ 31) 0 oneOpen = some (0, oneOpen, []) := by
    rw [show 2 ^ 31 = (2 ^ 31 - 1) + 1 from rfl, unlockLoop]; exact if_neg (lt_irrefl 0)
  have hclear : clearLocks alone true oneOpen ⟨1, 0, false⟩ = some (0, oneOpen, []) := by
    rw [clearLocks, if_pos ⟨rfl, rfl⟩, hloop]
  rw [fdfree, if_neg one_ne_zero, hclear]; rfl

theorem fdfree_iff_oneOpen :
    fdfree alone true oneOpen (some ⟨1, 0, false⟩) = some oneFreed ∧
      ¬ Released alone true oneOpen (some ⟨1, 0, false⟩) oneFreed := by
  refine ⟨fdfree_oneOpen, fun hrel => ?_⟩
  have hcond := (fdfree_iff _ _ _ _ _ fdfree_oneOpen).1 hrel ⟨_, rfl, rfl⟩ rfl (by decide) 0 7
    kept_oneOpen
  exact hcond rfl

/-- The lock that the leader has on the file of descriptor 0 stays. -/
theorem fdfree_keeps_lock :
    ∃ r, fdfree alone true oneOpen (some ⟨1, 0, false⟩) = some r ∧ 0 < r.fdp.fd_refcnt ∧
      Kept alone.other oneOpen 0 7 ∧ (0, 7) ∉ r.unlocked :=
  ⟨oneFreed, fdfree_oneOpen, by decide, kept_oneOpen, fun h => by cases h⟩

end FreeBSD.DescripFree
