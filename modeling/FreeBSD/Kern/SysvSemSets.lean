import FreeBSD.Kern.SysvSemTables

/-!
# Sets, removal and exit

While no identifier is given out again for which a call still sleeps, the sets tile the pool,
removing one leaves the semaphores of the others alone, every undo entry is for a semaphore that
exists, and no exit panics. A slot that is created and removed 32768 times during one sleep gives
its identifier out again: the call that wakes up takes the new set for its own.

Results:
* `rmid_keeps`: removal leaves the semaphores of the other sets as they are.
* `sets_of_run`: the claims about sets over runs.
* `exit_panics_on_reused_identifier`: a run in which an exit panics.
-/

namespace FreeBSD.SysvSem

open Lib (Tiling Runs)

namespace Sys

/-! ## The property -/

/-- The sets that exist occupy disjoint blocks that tile the pool up to `semtot`. -/
def SetsTile (s : Sys) : Prop :=
  Tiling (fun ix => (s.sema ix).allocated = true) (fun ix => (s.sema ix).semBase)
    (fun ix => (s.sema ix).semNsems) s.semtot

/-- Every undo entry is for a set that exists and a semaphore of it. -/
def UndosLive (s : Sys) : Prop := ∀ suptr ∈ s.semuList, ∀ e ∈ suptr.unEnt, s.Live e

/-- All semaphores of all sets but `ix` are in `t` as in `s`. -/
def KeepsOthers (s t : Sys) (ix : ℕ) : Prop :=
  ∀ j ≠ ix, (s.sema j).allocated = true →
    (t.sema j).allocated = true ∧ (t.sema j).semNsems = (s.sema j).semNsems ∧
      ∀ n < (s.sema j).semNsems, t.sem ((t.sema j).semBase + n) = s.sem ((s.sema j).semBase + n)

/-- What is claimed about the sets in a state and about the steps from it. -/
structure SetsOk (info : Seminfo) (s : Sys) : Prop where
  tile : s.SetsTile
  undos : s.UndosLive
  removal : ∀ td semid t r, s.step info (.semctl td semid .ipcRmid) = some (t, r) →
    KeepsOthers s t (ipcidToIx semid)
  exit : ∀ p t msg, s.step info (.exit p) ≠ some (t, .panic msg)

/-! ## Removal -/

theorem KeepsOthers.refl (s : Sys) (ix : ℕ) : KeepsOthers s s ix :=
  fun _ _ hj => ⟨hj, rfl, fun _ _ => rfl⟩

theorem rmid_keeps {info : Seminfo} {s : Sys} (h : Inv info s) {ix : ℕ}
    (hix : (s.sema ix).allocated = true) (td : Thread) : KeepsOthers s (s.rmid td ix) ix := by
  intro j hj hlive
  refine ⟨(rmid_allocated_of_ne s td hj).trans hlive, (rmid_perm_of_ne s td hj).2, fun n hn => ?_⟩
  have hdisj := h.tiling.disjoint j ix hlive hix hj
  have hle := h.tiling.le j hlive
  have hpos := h.tiling.pos ix hix
  have hsem : (s.rmid td ix).sem = compact (s.sema ix).semBase (s.sema ix).semNsems
      (s.semtot - (s.sema ix).semNsems) s.sem := rfl
  rw [hsem, compact_apply, rmid_base_of_ne s td hj hlive]
  by_cases hbehind : (s.sema ix).semBase < (s.sema j).semBase
  · rw [if_pos hbehind, if_pos (by omega)]
    congr 1
    omega
  · rw [if_neg hbehind, if_neg (by omega)]

theorem Inv.setsOk {info : Seminfo} {s : Sys} (h : Inv info s) : SetsOk info s where
  tile := h.tiling
  undos suptr hmem e he := h.undo suptr.unProc e (by rwa [h.tbl.entOf_eq hmem])
  removal td semid t r hstep := by
    have hchange := step_change h.tbl hstep
    cases hchange with
    | idle => exact KeepsOthers.refl s _
    | remove _ _ _ hvalid =>
      simp only [semvalid, Bool.and_eq_true] at hvalid; exact rmid_keeps h hvalid.1 td
    | assign _ _ _ sem semnum _ hcmd => exact absurd rfl hcmd
  exit p t msg hstep := by
    have hchange := step_change h.tbl hstep
    cases hchange with
    | idle _ _ hop => exact absurd rfl (hop p)
    | exit _ _ _ hexit =>
      cases h.exit_ret hexit

/-- In every run in which no identifier is given out for which a call still sleeps, the sets tile
    the pool, removal keeps the other sets, undo entries are for semaphores that exist, and no exit
    panics. -/
theorem sets_of_run {info : Seminfo} {pool : ℕ → Sem} {s : Sys}
    (hrun : Runs (Sys.step info) (fun s op => op.Fresh info s) (Sys.init pool) s) :
    SetsOk info s :=
  (Inv.run hrun).setsOk

/-- A run with one set. -/
theorem sets_of_run_first : ∃ s r,
    (Sys.init fun _ => ⟨0, 0, 0, 0⟩).step Seminfo.default (.semget (root 0 2) 0 2 0o600) =
      some (s, r) ∧ SetsOk Seminfo.default s := by
  have hfresh : (Op.semget (root 0 2) 0 2 0o600).Fresh Seminfo.default
      (Sys.init fun _ => ⟨0, 0, 0, 0⟩) := by
    intro ix _ w hw
    cases hw
  exact ⟨_, _, rfl, sets_of_run (Runs.refl.tail hfresh rfl)⟩

/-! ## A reused identifier -/

/-- Slot 0 is free with sequence number `q`, the other slots have never been used, and one call
    sleeps. -/
structure Parked (q : ℕ) (w : Sleeper) (s : Sys) : Prop where
  free : (s.sema 0).allocated = false
  seq : (s.sema 0).semPerm.seq = q
  others : ∀ j ≠ 0, s.sema j = ⟨⟨0, 0, 0, 0, 0, 0, 0⟩, 0, 0⟩
  tot : s.semtot = 0
  undo : s.semuList = []
  sleepers : s.sleepers = [w]
  zeros : ∀ k ≠ 0, s.sem k = ⟨0, 0, 0, 0⟩

/-- The state with slot 0 removed for the `q`-th time. -/
def parked (w : Sleeper) (q : ℕ) : Sys where
  sema j := if j = 0 then ⟨⟨0, 0, 0, 0, 0, q, 0⟩, 0, 1⟩ else ⟨⟨0, 0, 0, 0, 0, 0, 0⟩, 0, 0⟩
  sem _ := ⟨0, 0, 0, 0⟩
  semtot := 0
  semuList := []
  sleepers := [w]

theorem parked_parked (w : Sleeper) (q : ℕ) : Parked q w (parked w q) where
  free := by show ((0 : BitVec 16) &&& semAlloc != 0) = false; decide
  seq := rfl
  others j hj := if_neg hj
  tot := rfl
  undo := rfl
  sleepers := rfl
  zeros _ _ := rfl

/-- The superuser creates a set in slot 0. -/
theorem semget_step {s : Sys} (h0 : (s.sema 0).allocated = false) (htot : s.semtot = 0)
    (hidle : s.idle 0 = true) {n : ℕ} (hn : 0 < n) (hn' : n ≤ 60) :
    ∃ r, s.step Seminfo.default (.semget (root 0 2) 0 n 0o600) =
      some (s.create (root 0 2).tdUcred 0 0 n 0o600, r) := by
  have hfind : s.findSema Seminfo.default (fun d => !d.allocated) = some 0 := by
    show (0 :: List.range' 1 9).find? _ = some 0
    rw [List.find?_cons_of_pos (by simp [h0])]
  refine ⟨(s.semget Seminfo.default (root 0 2) 0 n 0o600).2, ?_⟩
  have hget : (s.semget Seminfo.default (root 0 2) 0 n 0o600).1 =
      s.create (root 0 2).tdUcred 0 0 n 0o600 := by
    simp only [semget, root, hfind, htot, if_true, true_or, Bool.false_eq_true, if_false]
    have hmsl : Seminfo.default.semmsl = 60 := rfl
    have hmns : Seminfo.default.semmns = 60 := rfl
    rw [hmsl, hmns, if_neg (by omega), if_neg (by omega)]
    simp only [Int.toNat_natCast]
  simp only [step, root, hidle, if_true, Option.some.injEq]; exact Prod.ext hget rfl

/-- The identifier of slot 0 with sequence number `q`. -/
theorem ipcid_slot_zero {q : ℕ} (hq : q < 65536) :
    ipcidToIx (q * 65536) = 0 ∧ ipcidToSeq (q * 65536) = q := by
  unfold ipcidToIx ipcidToSeq; omega

/-- The superuser removes the set in slot 0. -/
theorem rmid_step {s : Sys} {q : ℕ} (hq : q < 65536) (halloc : (s.sema 0).allocated = true)
    (hseq : (s.sema 0).semPerm.seq = q) (hidle : s.idle 0 = true) :
    s.step Seminfo.default (.semctl (root 0 2) (q * 65536) .ipcRmid) =
      some (s.rmid (root 0 2) 0, .ok 0) := by
  obtain ⟨hix, hsq⟩ := ipcid_slot_zero hq
  have hvalid : semvalid (q * 65536) (s.sema 0) = true := by
    simp [semvalid, halloc, hseq, hsq]
  simp only [step, show (root 0 2).tid = 0 from rfl, hidle, if_true, Option.some.injEq]
  simp only [semctl, hix, hvalid, Bool.not_true, Bool.false_eq_true, if_false,
    ipcperm_suser (show (root 0 2).tdUcred.suser = true from rfl)]
  rw [if_neg (by simp [root]), if_neg (by decide)]

/-- Slot 0 is filled and removed once more. -/
theorem Parked.cycle {q : ℕ} {w : Sleeper} {s : Sys} (h : Parked q w s) (hawake : w.awake = true)
    (htid : w.call.td.tid ≠ 0) :
    Runs (Sys.step Seminfo.default) (fun _ _ => True) s (parked w ((q + 1) &&& 0x7fff)) := by
  have hidle : s.idle 0 = true := by simp [idle, h.sleepers, htid]
  obtain ⟨r, hget⟩ := semget_step h.free h.tot hidle one_pos (by omega)
  set t := s.create (root 0 2).tdUcred 0 0 1 0o600 with ht
  obtain ⟨h1, h2, h3, h4⟩ := create_sema_self s (root 0 2).tdUcred 0 0 1 0o600
  rw [← ht] at h1 h2 h3 h4
  have hq : (q + 1) &&& 0x7fff < 65536 := lt_of_le_of_lt Nat.and_le_right (by omega)
  have hrm := rmid_step hq h1 (by rw [h4, h.seq]) hidle
  have hparked : t.rmid (root 0 2) 0 = parked w ((q + 1) &&& 0x7fff) := by
    have hslot : ∀ j ≠ 0, t.sema j = ⟨⟨0, 0, 0, 0, 0, 0, 0⟩, 0, 0⟩ := fun j hj =>
      (create_sema_of_ne s _ hj 0 1 _).trans (h.others j hj)
    apply Sys.ext
    · funext j
      by_cases hj : j = 0
      · subst hj
        simp only [rmid, wakeup_sema, Function.update_self, parked, if_true]
        simp only [ht, create, setSema, Function.update_self, h.seq, h.tot]; rfl
      · rw [rmid_sema_of_ne t _ hj, hslot j hj, if_neg (by
          rintro ⟨hc, -⟩
          revert hc
          decide)]
        simp [parked, hj]
    · have hsem : (t.rmid (root 0 2) 0).sem =
          compact (t.sema 0).semBase (t.sema 0).semNsems
            (t.semtot - (t.sema 0).semNsems) t.sem := rfl
      funext k
      rw [hsem, compact_apply, h2, h3, h.tot, ht]
      simp only [create, h.tot, zero_add, parked]
      split_ifs with hc1 hc2 hc2
      · omega
      · omega
      · rfl
      · exact h.zeros k (by omega)
    · show t.semtot - (t.sema 0).semNsems = 0
      rw [h3, ht]; simp [create, h.tot]
    · show semundoClear 0 none s.semuList = []
      rw [h.undo]; rfl
    · show (s.sleepers.map _) = [w]
      have hw : ({ w with awake := true } : Sleeper) = w := by
        rw [← hawake]
      rw [h.sleepers, List.map_singleton, hw, ite_self]
  exact (Runs.refl.tail trivial hget).tail trivial (hparked ▸ hrm)

/-- Any number of cycles of slot 0. -/
theorem parked_run {q : ℕ} {w : Sleeper} (hq : q < 32768) (hawake : w.awake = true)
    (htid : w.call.td.tid ≠ 0) (n : ℕ) :
    Runs (Sys.step Seminfo.default) (fun _ _ => True) (parked w q)
      (parked w ((q + n) % 32768)) := by
  induction n with
  | zero =>
    rw [add_zero, Nat.mod_eq_of_lt hq]; exact Runs.refl
  | succ n ih =>
    have hnext := (parked_parked w ((q + n) % 32768)).cycle hawake htid
    rw [show (0x7fff : ℕ) = 2 ^ 15 - 1 by norm_num, Nat.and_two_pow_sub_one_eq_mod] at hnext
    rw [show (q + (n + 1)) % 32768 = ((q + n) % 32768 + 1) % 2 ^ 15 by omega]
    exact ih.trans hnext

/-- The vector of the call that sleeps: semaphore 1 up with `SEM_UNDO`, then semaphore 0 down. -/
def longSleep : Semop :=
  ⟨root 1 1, 65536, [⟨1, 1, false, true⟩, ⟨0, -1, false, true⟩], true⟩

/-- A call sleeps on semaphore 0 of a set of two, and the set is removed. -/
theorem parked_reached : ∃ s,
    Runs (Sys.step Seminfo.default) (fun _ _ => True) (Sys.init fun _ => ⟨0, 0, 0, 0⟩) s ∧
      Parked 1 ⟨longSleep, ⟨0, -1, false, true⟩, 0, true⟩ s := by
  obtain ⟨r, hget⟩ := semget_step (s := Sys.init fun _ => ⟨0, 0, 0, 0⟩) (by decide) rfl rfl
    two_pos (by omega)
  set a := (Sys.init fun _ => ⟨0, 0, 0, 0⟩).create (root 0 2).tdUcred 0 0 2 0o600 with ha
  have hret : (a.semop Seminfo.default longSleep.td longSleep.semid longSleep.sops).2 =
    .asleep := by
    rw [ha]; decide +kernel
  have hstop : (passOf Seminfo.default a longSleep).stop = .wait ⟨0, -1, false, true⟩ := by
    rw [ha]; decide +kernel
  have hbase : (a.sema (ipcidToIx longSleep.semid)).semBase + 0 = 0 := by rw [ha]; decide +kernel
  obtain ⟨b, hb, hbeq⟩ : ∃ b, a.semop Seminfo.default longSleep.td longSleep.semid longSleep.sops =
      (b, .asleep) ∧ b = { a with
        sem := modSem a.sem 0 (countUp ⟨0, -1, false, true⟩)
        sleepers := a.sleepers ++ [⟨longSleep, ⟨0, -1, false, true⟩, 0, false⟩] } := by
    rcases semop_cases Seminfo.default a longSleep.td longSleep.semid longSleep.sops with
      ⟨e, -, hr⟩ | ⟨-, hr⟩
    · rw [hr] at hret
      cases hret
    · have htbl : TblOk Seminfo.default a.semuList := TblOk.nil Seminfo.default
      have htried := semopTry_tried htbl longSleep
      have hr' : a.semop Seminfo.default longSleep.td longSleep.semid longSleep.sops =
        semopTry Seminfo.default a longSleep := hr
      rw [← hr', hret] at htried
      obtain ⟨sop, hsop, ht⟩ := htried.of_asleep
      obtain rfl : _ = sop := Stop.wait.inj (hstop.symm.trans hsop)
      rw [hbase] at ht; exact ⟨_, Prod.ext rfl hret, ht⟩
  have hsleep : a.step Seminfo.default (.semop longSleep.td longSleep.semid longSleep.sops) =
      some (b, .asleep) := by
    simp only [step]
    rw [if_pos (by rfl), hb]
  obtain ⟨h1, h2, h3, h4⟩ := create_sema_self (Sys.init fun _ => ⟨0, 0, 0, 0⟩)
    (root 0 2).tdUcred 0 0
    2 0o600
  rw [← ha] at h1 h2 h3 h4
  have hsema : b.sema = a.sema := by rw [hbeq]
  have hrm := rmid_step (s := b) (q := 1) (by omega) (by rw [hsema, h1]) (by rw [hsema, h4]; rfl)
    (by rw [hbeq]; rfl)
  refine ⟨b.rmid (root 0 2) 0, ((Runs.refl.tail trivial hget).tail trivial hsleep).tail trivial hrm,
    rmid_sema_self b _ 0, ?_, fun j hj => ?_, ?_, ?_, ?_, fun k hk => ?_⟩
  · simp only [rmid, wakeup_sema, Function.update_self]
    rw [hsema, h4]; rfl
  · have hslot : b.sema j = ⟨⟨0, 0, 0, 0, 0, 0, 0⟩, 0, 0⟩ := by
      rw [hsema]; exact create_sema_of_ne _ _ hj 0 2 _
    rw [rmid_sema_of_ne b _ hj, hslot, if_neg (by
      rintro ⟨hc, -⟩
      revert hc
      decide)]
  · show b.semtot - (b.sema 0).semNsems = 0
    rw [hsema, h3, hbeq]; rfl
  · show semundoClear 0 none b.semuList = []
    rw [hbeq]; rfl
  · show b.sleepers.map _ = _
    rw [hbeq]; rfl
  · have hsem : (b.rmid (root 0 2) 0).sem =
        compact (b.sema 0).semBase (b.sema 0).semNsems (b.semtot - (b.sema 0).semNsems) b.sem := rfl
    rw [hsem, compact_apply, hsema, h3, hbeq, if_neg (fun hc => by
      have : k < 2 - 2 := hc.2
      omega)]
    show modSem a.sem 0 _ k = _
    rw [modSem_apply, if_neg hk, ha]; simp [create, Sys.init]

/-- A call sleeps on a set of two semaphores, which is removed. 32767 sets later one with a single
    semaphore has the identifier again: the call wakes up, raises semaphore 1, which does not exist,
    and the exit of its process panics. -/
theorem exit_panics_on_reused_identifier :
    ¬ ∀ (info : Seminfo) (pool : ℕ → Sem) (s : Sys),
      Runs (Sys.step info) (fun _ _ => True) (Sys.init pool) s → SetsOk info s := by
  intro hclaim
  obtain ⟨s, hrun, hparked⟩ := parked_reached
  have hcycle := hparked.cycle rfl (by decide)
  have hcycles := parked_run (q := 2) (w := ⟨longSleep, ⟨0, -1, false, true⟩, 0, true⟩)
    (by omega) rfl
    (by decide) 32766
  obtain ⟨t, hrun', ht⟩ := Lib.exists_of_exec (Sys.step Seminfo.default) (P := fun _ _ => True)
    (s := parked ⟨longSleep, ⟨0, -1, false, true⟩, 0, true⟩ 0)
    (f := fun s => (s.step Seminfo.default (.exit 1)).map Prod.snd)
    (b := some (.panic "semexit - semnum out of range"))
    [.semget (root 0 2) 0 1 0o600, .semctl (root 0 2) 65536 (.setval 0 1), .resume 1 false]
    (fun _ _ _ => trivial) (by decide +kernel)
  have hok := hclaim Seminfo.default _ t (((hrun.trans hcycle).trans hcycles).trans hrun')
  cases hexit : t.step Seminfo.default (.exit 1) with
  | none =>
    rw [hexit] at ht
    cases ht
  | some q =>
    obtain ⟨u, r⟩ := q
    rw [hexit] at ht
    obtain rfl : r = .panic "semexit - semnum out of range" := Option.some.inj ht
    exact hok.exit 1 u _ hexit

end Sys

end FreeBSD.SysvSem
