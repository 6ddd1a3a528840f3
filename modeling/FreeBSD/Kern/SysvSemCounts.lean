import FreeBSD.Kern.SysvSemSets

/-!
# The counts of those that wait

`semncnt` and `semzcnt` are raised before `msleep` and lowered after it, through the pointer
`semptr` that was computed before. Three ways out of the sleep break the counts: a signal returns
without lowering them, the removal of another set leaves `semptr` behind, and a reused identifier
stands for a semaphore that nobody was counted at.

Results:
* `counts_of_run`: the counts are right in every run without such a way out.
* `count_left_by_signal`: a run in which a signal leaves a count behind.
-/

namespace FreeBSD.SysvSem

open List
open Lib (Runs)

namespace Sys

/-! ## The property -/

/-- The call is asleep on an operation on semaphore `n` of the set in slot `ix`: one that waits for
    zero, or a negative one. -/
def isWaiter (s : Sys) (ix n : ℕ) (zero : Bool) (w : Sleeper) : Bool :=
  ipcidToIx w.call.semid == ix && semvalid w.call.semid (s.sema ix) && w.sopptr.semNum == n &&
    if zero then w.sopptr.semOp == 0 else decide (w.sopptr.semOp < 0)

/-- The number of such calls. -/
def waiters (s : Sys) (ix n : ℕ) (zero : Bool) : ℕ := s.sleepers.countP (s.isWaiter ix n zero)

/-- The counter for those that wait for zero, or for an increase. -/
def cnt (zero : Bool) (semptr : Sem) : UInt16 := if zero then semptr.semzcnt else semptr.semncnt

/-- If there is a set in slot `ix`, `semncnt` of each of its semaphores is the number of calls
    asleep on a negative operation on it, and `semzcnt` of those asleep on a zero operation. -/
def CountsAt (s : Sys) (ix : ℕ) : Prop :=
  (s.sema ix).allocated = true → ∀ n < (s.sema ix).semNsems, ∀ zero,
    (cnt zero (s.sem ((s.sema ix).semBase + n))).toNat = s.waiters ix n zero

/-- The counts of all sets are right. -/
def CountsOk (s : Sys) : Prop := ∀ ix, s.CountsAt ix

/-- The counter that the attempt raises, if it goes to sleep, is not at its maximum. -/
def CountFits (info : Seminfo) (s : Sys) (c : Semop) : Prop :=
  ∀ sopptr, (passOf info s c).stop = .wait sopptr → sopptr.ipcNowait = false →
    cnt (sopptr.semOp = 0) (s.sem ((s.sema (ipcidToIx c.semid)).semBase + sopptr.semNum)) ≠ 65535

/-! ## Counting -/

variable {s t : Sys} {w : Sleeper} {ix : ℕ} {info : Seminfo}

theorem isWaiter_iff {ix n : ℕ} {zero : Bool} (hop : w.sopptr.semOp ≤ 0) :
    s.isWaiter ix n zero w = true ↔ ipcidToIx w.call.semid = ix ∧
      semvalid w.call.semid (s.sema ix) = true ∧ w.sopptr.semNum = n ∧
      decide (w.sopptr.semOp = 0) = zero := by
  simp only [isWaiter, Bool.and_eq_true, beq_iff_eq, and_assoc]
  cases zero with
  | false => simp [lt_iff_le_and_ne, hop]
  | true => simp

theorem waiters_eq (s : Sys) (ix n : ℕ) (zero : Bool) :
    s.waiters ix n zero = s.slept.countP (s.isWaiter ix n zero) := by
  unfold waiters slept
  rw [countP_map]; rfl

/-- The same calls are asleep on the same set. -/
theorem waiters_congr (hslept : t.slept = s.slept)
    (hsema : ∀ semid, semvalid semid (t.sema ix) = semvalid semid (s.sema ix)) (n : ℕ)
      (zero : Bool) :
    t.waiters ix n zero = s.waiters ix n zero := by
  have hp : t.isWaiter ix n zero = s.isWaiter ix n zero := by
    funext w
    simp only [isWaiter, hsema]
  rw [waiters_eq, waiters_eq, hslept, hp]

theorem SameCounts.cnt_eq {x y : Sem} (h : SameCounts x y) (zero : Bool) :
    cnt zero x = cnt zero y := by
  unfold cnt
  rw [h.1, h.2]

theorem cnt_countUp (zero : Bool) (sopptr : Sembuf) (semptr : Sem) :
    cnt zero (countUp sopptr semptr) =
      if decide (sopptr.semOp = 0) = zero then cnt zero semptr + 1 else cnt zero semptr := by
  unfold cnt countUp
  by_cases h : sopptr.semOp = 0 <;> cases zero <;> simp [h]

theorem cnt_countDown (zero : Bool) (sopptr : Sembuf) (semptr : Sem) :
    cnt zero (countDown sopptr semptr) =
      if decide (sopptr.semOp = 0) = zero then cnt zero semptr - 1 else cnt zero semptr := by
  unfold cnt countDown
  by_cases h : sopptr.semOp = 0 <;> cases zero <;> simp [h]

/-- Those counted with and without the call `w`. -/
theorem waiters_erase (hw : w ∈ s.sleepers) (ix n : ℕ) (zero : Bool) :
    s.waiters ix n zero = (s.sleepers.erase w).countP (s.isWaiter ix n zero) +
      if s.isWaiter ix n zero w then 1 else 0 := by
  unfold waiters
  rw [(perm_cons_erase hw).countP_eq, countP_cons]

/-! ## Attempts -/

/-- An attempt leaves counts and sleepers alone, or it goes to sleep. -/
theorem Tried.sleeps {c : Semop} {r : Ret} (h : Tried info s c t r) :
    (t.slept = s.slept ∧ ∀ k, SameCounts (t.sem k) (s.sem k)) ∨
    ∃ sopptr, (passOf info s c).stop = .wait sopptr ∧ sopptr.ipcNowait = false ∧
      t.sem = modSem s.sem ((s.sema (ipcidToIx c.semid)).semBase + sopptr.semNum) (countUp sopptr) ∧
      t.sleepers = s.sleepers ++
        [⟨c, sopptr, (s.sema (ipcidToIx c.semid)).semBase + sopptr.semNum, false⟩] := by
  have hpass : ∀ k, SameCounts ((passOf info s c).sem k) (s.sem k) := by
    intro k
    unfold passOf
    rw [pass_counts]; exact ⟨rfl, rfl⟩
  cases h with
  | refused => exact .inl ⟨rfl, fun _ => ⟨rfl, rfl⟩⟩
  | slept sopptr hstop hwait => exact .inr ⟨sopptr, hstop, hwait, rfl, rfl⟩
  | full => exact .inl ⟨rfl, fun _ => ⟨rfl, rfl⟩⟩
  | stuck => exact .inl ⟨rfl, hpass⟩
  | done =>
    have hsame : ∀ k, SameCounts (setPids (s.sema (ipcidToIx c.semid)).semBase c.td.tdProc c.sops
        (passOf info s c).sem k) (s.sem k) := by
      intro k
      rw [setPids_apply]; exact hpass k
    left
    dsimp only
    split_ifs
    · exact ⟨wakeup_slept _ _, hsame⟩
    · exact ⟨rfl, hsame⟩

/-- The counts after a step that leaves the set, the counts and the sleepers alone. -/
theorem CountsAt.congr (h : s.CountsAt ix) (hslept : t.slept = s.slept)
    (halloc : (t.sema ix).allocated = (s.sema ix).allocated)
    (hseq : (t.sema ix).semPerm.seq = (s.sema ix).semPerm.seq)
    (hnsems : (t.sema ix).semNsems = (s.sema ix).semNsems)
    (hsem : (s.sema ix).allocated = true → ∀ n < (s.sema ix).semNsems,
      SameCounts (t.sem ((t.sema ix).semBase + n)) (s.sem ((s.sema ix).semBase + n))) :
    t.CountsAt ix := by
  intro hlive n hn zero
  rw [halloc] at hlive
  rw [hnsems] at hn
  have hvalid : ∀ semid, semvalid semid (t.sema ix) = semvalid semid (s.sema ix) := by
    intro semid; simp only [semvalid, halloc, hseq]
  rw [(hsem hlive n hn).cnt_eq, waiters_congr hslept hvalid]; exact h hlive n hn zero

/-- A call goes to sleep, and the counter has room. -/
theorem CountsOk.sleep (hslots : Slots info s) (h : s.CountsOk)
    (hvalid : semvalid w.call.semid (s.sema (ipcidToIx w.call.semid)) = true)
    (hnum : w.sopptr.semNum < (s.sema (ipcidToIx w.call.semid)).semNsems) (hop : w.sopptr.semOp ≤ 0)
    (hroom : cnt (w.sopptr.semOp = 0)
      (s.sem ((s.sema (ipcidToIx w.call.semid)).semBase + w.sopptr.semNum)) ≠ 65535)
    (hsema : t.sema = s.sema)
    (hsem : t.sem = modSem s.sem ((s.sema (ipcidToIx w.call.semid)).semBase + w.sopptr.semNum)
      (countUp w.sopptr)) (hsleepers : t.sleepers = s.sleepers ++ [w]) : t.CountsOk := by
  have halloc : (s.sema (ipcidToIx w.call.semid)).allocated = true := by
    simp only [semvalid, Bool.and_eq_true] at hvalid; exact hvalid.1
  intro ix hlive n hn zero
  rw [hsema] at hlive hn
  have hcount : t.waiters ix n zero = s.waiters ix n zero +
      if s.isWaiter ix n zero w then 1 else 0 := by
    have hp : t.isWaiter ix n zero = s.isWaiter ix n zero := by
      funext w
      simp only [isWaiter, hsema]
    unfold waiters
    rw [hp, hsleepers, countP_append, countP_singleton]
  have hok := h ix hlive n hn zero
  rw [hcount, hsem, hsema, modSem_apply]
  by_cases hpos : (s.sema ix).semBase + n =
      (s.sema (ipcidToIx w.call.semid)).semBase + w.sopptr.semNum
  · obtain ⟨rfl, rfl⟩ := hslots.pos_inj hlive halloc hn hnum hpos
    rw [if_pos rfl, cnt_countUp]
    by_cases hz : decide (w.sopptr.semOp = 0) = zero
    · have hlt : (cnt zero (s.sem ((s.sema (ipcidToIx w.call.semid)).semBase +
          w.sopptr.semNum))).toNat + 1 < 65536 := by
        rw [hz] at hroom
        have hne := mt UInt16.toNat_inj.1 hroom
        have := UInt16.toNat_lt (cnt zero (s.sem ((s.sema (ipcidToIx w.call.semid)).semBase +
          w.sopptr.semNum)))
        have h65535 : (65535 : UInt16).toNat = 65535 := rfl
        omega
      rw [if_pos hz, if_pos ((isWaiter_iff hop).2 ⟨rfl, hvalid, rfl, hz⟩), UInt16.toNat_add,
        UInt16.toNat_one, Nat.mod_eq_of_lt hlt, hok]
    · rw [if_neg hz, if_neg (fun hw => hz ((isWaiter_iff hop).1 hw).2.2.2), hok, add_zero]
  · have hne : ¬ s.isWaiter ix n zero w = true := by
      intro hw
      obtain ⟨rfl, -, rfl, -⟩ := (isWaiter_iff hop).1 hw
      exact hpos rfl
    rw [if_neg hpos, if_neg hne, hok, add_zero]

/-- A call leaves its sleep, and the pointer that it kept is still to its semaphore. -/
theorem CountsOk.wake (hslots : Slots info s) (h : s.CountsOk) (hw : w ∈ s.sleepers)
    (hvalid : semvalid w.call.semid (s.sema (ipcidToIx w.call.semid)) = true)
    (hnum : w.sopptr.semNum < (s.sema (ipcidToIx w.call.semid)).semNsems) (hop : w.sopptr.semOp ≤ 0)
    (hptr : w.semptr = (s.sema (ipcidToIx w.call.semid)).semBase + w.sopptr.semNum) :
    CountsOk { s with
      sem := modSem s.sem w.semptr (countDown w.sopptr)
      sleepers := s.sleepers.erase w } := by
  have halloc : (s.sema (ipcidToIx w.call.semid)).allocated = true := by
    simp only [semvalid, Bool.and_eq_true] at hvalid; exact hvalid.1
  intro ix hlive n hn zero
  have hok := h ix hlive n hn zero
  rw [waiters_erase hw] at hok
  show (cnt zero (modSem s.sem _ _ ((s.sema ix).semBase + n))).toNat =
    (s.sleepers.erase w).countP (s.isWaiter ix n zero)
  rw [modSem_apply, hptr]
  by_cases hpos : (s.sema ix).semBase + n =
      (s.sema (ipcidToIx w.call.semid)).semBase + w.sopptr.semNum
  · obtain ⟨rfl, rfl⟩ := hslots.pos_inj hlive halloc hn hnum hpos
    rw [if_pos rfl, cnt_countDown]
    by_cases hz : decide (w.sopptr.semOp = 0) = zero
    · rw [if_pos ((isWaiter_iff hop).2 ⟨rfl, hvalid, rfl, hz⟩)] at hok
      have hle : (1 : UInt16) ≤ cnt zero (s.sem ((s.sema (ipcidToIx w.call.semid)).semBase +
          w.sopptr.semNum)) := by
        rw [UInt16.le_iff_toNat_le, hok, UInt16.toNat_one]; omega
      rw [if_pos hz, UInt16.toNat_sub_of_le _ _ hle, hok, UInt16.toNat_one, Nat.add_sub_cancel]
    · rw [if_neg (fun hw => hz ((isWaiter_iff hop).1 hw).2.2.2)] at hok
      rw [if_neg hz, hok, add_zero]
  · have hne : ¬ s.isWaiter ix n zero w = true := by
      intro hw
      obtain ⟨rfl, -, rfl, -⟩ := (isWaiter_iff hop).1 hw
      exact hpos rfl
    rw [if_neg hne] at hok
    rw [if_neg hpos, hok, add_zero]

/-! ## Runs -/

/-- The tables are as they should be, the counts are right, and a call that sleeps waits for an
    operation of its vector that does not add. -/
structure Counted (info : Seminfo) (s : Sys) : Prop extends Inv info s where
  counts : s.CountsOk
  blocked : ∀ w ∈ s.slept, w.sopptr ∈ w.call.sops ∧ w.sopptr.semOp ≤ 0

end Sys

/-- No identifier is given out again for which a call still sleeps. A call that goes to sleep does
    not overflow the counter that it raises. A call whose set is still there is not interrupted, and
    goes on with a pointer to the semaphore that it was counted at. -/
def Op.CountsFit (info : Seminfo) (s : Sys) : Op → Prop
  | .semget td key nsems semflg => (Op.semget td key nsems semflg).Fresh info s
  | .semop td semid sops => Sys.Admitted info s td semid sops →
      Sys.CountFits info s ⟨td, semid, sops, sops.any (·.undoes)⟩
  | .resume tid intr => ∀ w, s.sleepers.find? (·.call.td.tid == tid) = some w →
      semvalid w.call.semid (s.sema (ipcidToIx w.call.semid)) = true →
      intr = false ∧
        w.semptr = (s.sema (ipcidToIx w.call.semid)).semBase + w.sopptr.semNum ∧
        Sys.CountFits info { s with
          sem := Sys.modSem s.sem w.semptr (Sys.countDown w.sopptr)
          sleepers := s.sleepers.erase w } w.call
  | _ => True

namespace Sys
variable {info : Seminfo} {s t : Sys}

theorem Op.CountsFit.fresh {op : Op} (h : op.CountsFit info s) : op.Fresh info s := by
  cases op with
  | semget td key nsems semflg => exact h
  | _ => trivial

theorem mem_slept {w : Sleeper} (hw : w ∈ s.sleepers) : { w with awake := false } ∈ s.slept :=
  mem_map_of_mem hw

namespace Counted

theorem init (info : Seminfo) (pool : ℕ → Sem) : Counted info (Sys.init pool) := by
  refine ⟨Inv.init info pool, fun ix hlive => ?_, fun w hw => by cases hw⟩
  have hfree : ((Sys.init pool).sema ix).allocated = false := by
    show SemidDs.allocated ⟨⟨0, 0, 0, 0, 0, 0, 0⟩, 0, 0⟩ = false; decide
  rw [hfree] at hlive
  cases hlive

/-- An attempt keeps the counts, if the counter that it raises has room. -/
theorem tried (h : Counted info s) (ht : Inv info t) {c : Semop} {r : Ret}
    (htried : Tried info s c t r)
    (hvalid : semvalid c.semid (s.sema (ipcidToIx c.semid)) = true)
    (hnums : ∀ sop ∈ c.sops, sop.semNum < (s.sema (ipcidToIx c.semid)).semNsems)
    (hfits : CountFits info s c) : Counted info t := by
  have hsema := htried.frame.1
  rcases htried.sleeps with ⟨hslept, hsame⟩ | ⟨sopptr, hstop, hwait, hsem, hsleepers⟩
  · refine ⟨ht, fun ix => ?_, ?_⟩
    · refine (h.counts ix).congr hslept ?_ ?_ ?_ fun _ n _ => ?_ <;> rw [hsema]
      exact hsame _
    · rw [hslept]; exact h.blocked
  · obtain ⟨hmem, hop⟩ := pass_wait info _ s.sem false 0 c.sops hstop
    refine ⟨ht, ?_, fun w hw => ?_⟩
    · have hroom := hfits sopptr hstop hwait
      exact h.counts.sleep h.toSlots
        (w := ⟨c, sopptr, (s.sema (ipcidToIx c.semid)).semBase + sopptr.semNum, false⟩)
        hvalid (hnums _ hmem) hop hroom hsema hsem hsleepers
    · rw [slept, hsleepers, map_append, mem_append] at hw
      rcases hw with hw | hw
      · exact h.blocked w hw
      · obtain rfl := mem_singleton.1 hw
        exact ⟨hmem, hop⟩

/-- A call leaves its sleep with a pointer that is still to its semaphore. -/
theorem woken (h : Counted info s) {w : Sleeper} (hw : w ∈ s.sleepers)
    (hvalid : semvalid w.call.semid (s.sema (ipcidToIx w.call.semid)) = true)
    (hptr : w.semptr = (s.sema (ipcidToIx w.call.semid)).semBase + w.sopptr.semNum) :
    Counted info { s with
      sem := modSem s.sem w.semptr (countDown w.sopptr)
      sleepers := s.sleepers.erase w } := by
  obtain ⟨hmem, hop⟩ := h.blocked _ (mem_slept hw)
  have hnums := h.nums w.call (mem_map_of_mem hw) hvalid
  refine ⟨?_, ?_, fun w' hw' => ?_⟩
  · exact h.of_sema (h.toSlots.of_sema rfl rfl h.tbl) rfl h.undo fun c hc =>
      .inl (map_subset _ erase_subset hc)
  · exact h.counts.wake h.toSlots hw hvalid (hnums _ hmem) hop hptr
  · obtain ⟨x, hx, rfl⟩ := mem_map.1 hw'
    exact h.blocked _ (mem_slept (mem_of_mem_erase hx))

theorem step (h : Counted info s) {op : Op} {r : Ret} (hfits : op.CountsFit info s)
    (hstep : s.step info op = some (t, r)) : Counted info t := by
  have ht := h.toInv.step (Op.CountsFit.fresh hfits) hstep
  have hchange := step_change h.tbl hstep
  cases hchange with
  | idle => exact h
  | create td key nsems semflg ix _ hc =>
    refine ⟨ht, fun j => ?_, h.blocked⟩
    obtain ⟨h1, h2, h3, h4⟩ := create_sema_self s td.tdUcred ix key nsems.toNat semflg
    by_cases hj : j = ix
    · subst hj
      intro hlive n hn zero
      have hnobody : (s.create td.tdUcred j key nsems.toNat semflg).waiters j n zero = 0 := by
        refine countP_eq_zero.2 fun w hw hwaits => ?_
        have hw' : w ∈ s.sleepers := hw
        simp only [isWaiter, semvalid, h1, h4, Bool.true_and, Bool.and_eq_true,
          beq_iff_eq] at hwaits
        exact hfits j hc w hw' hwaits.1.1.1 hwaits.1.1.2.symm
      rw [hnobody, h2]
      rw [h3] at hn
      show (cnt zero (if s.semtot ≤ s.semtot + n ∧ s.semtot + n < s.semtot + nsems.toNat then
        (⟨0, 0, 0, 0⟩ : Sem) else s.sem (s.semtot + n))).toNat = 0
      rw [if_pos (by omega)]
      cases zero <;> rfl
    · have hne := create_sema_of_ne s td.tdUcred hj key nsems.toNat semflg
      refine (h.counts j).congr rfl (by rw [hne]) (by rw [hne]) (by rw [hne]) fun hl n hn => ?_
      have := h.tiling.le j hl
      rw [hne]
      show SameCounts (if _ then _ else _) _
      rw [if_neg (by omega)]
      exact ⟨rfl, rfl⟩
  | remove td semid _ hvalid =>
    simp only [semvalid, Bool.and_eq_true] at hvalid
    refine ⟨ht, fun j => ?_, ?_⟩
    · by_cases hj : j = ipcidToIx semid
      · subst hj
        intro hlive
        rw [rmid_sema_self] at hlive
        cases hlive
      · obtain ⟨hperm, hnsems⟩ := rmid_perm_of_ne s td hj
        refine (h.counts j).congr (wakeup_slept _ _) (rmid_allocated_of_ne s td hj) (by rw [hperm])
          hnsems fun hl n hn => ?_
        rw [(rmid_keeps h.toInv hvalid.1 td j hj hl).2.2 n hn]; exact ⟨rfl, rfl⟩
    · rw [show (s.rmid td (ipcidToIx semid)).slept = s.slept from wakeup_slept _ _]; exact h.blocked
  | chmod td semid uid gid mode =>
    have hslot := chmod_slot s (ipcidToIx semid) uid gid mode
    refine ⟨ht, fun j => ?_, h.blocked⟩
    refine (h.counts j).congr rfl (hslot j).1 (hslot j).2.1 (hslot j).2.2.2 fun _ n _ => ?_
    rw [(hslot j).2.2.1]; exact ⟨rfl, rfl⟩
  | assign td semid cmd sem semnum _ hcmd hcounts =>
    refine ⟨ht, fun j => ?_, ?_⟩
    · refine (h.counts j).congr (wakeup_slept _ _) rfl rfl rfl fun _ n _ => ?_
      show SameCounts (sem ((s.sema j).semBase + n)) _
      rw [hcounts]; exact ⟨rfl, rfl⟩
    · rw [wakeup_slept]; exact h.blocked
  | start td semid sops _ _ hadmitted htried =>
    exact h.tried ht htried hadmitted.valid hadmitted.nums (hfits hadmitted)
  | giveUp tid intr w e hw htid hwhy =>
    have hvalid : semvalid w.call.semid (s.sema (ipcidToIx w.call.semid)) = false := by
      rcases hwhy with rfl | hvalid
      · by_contra hv
        cases (hfits w htid (by simpa using hv)).1
      · exact hvalid
    refine ⟨ht, fun ix hlive n hn zero => ?_, fun w' hw' => ?_⟩
    · have hne : ¬ s.isWaiter ix n zero w = true := by
        intro hwaits
        obtain ⟨rfl, hv, -⟩ := (isWaiter_iff (h.blocked _ (mem_slept hw)).2).1 hwaits
        rw [hvalid] at hv
        cases hv
      have hok := h.counts ix hlive n hn zero
      rw [waiters_erase hw, if_neg hne] at hok; exact hok
    · obtain ⟨x, hx, rfl⟩ := mem_map.1 hw'
      exact h.blocked _ (mem_slept (mem_of_mem_erase hx))
  | retry tid w _ _ hw htid hawake hvalid htried =>
    obtain ⟨-, hptr, hroom⟩ := hfits w htid hvalid
    have hnums := h.nums w.call (mem_map_of_mem hw) hvalid
    exact (h.woken hw hvalid hptr).tried ht htried hvalid hnums hroom
  | exit p _ _ hexit =>
    obtain ⟨h1, -, -, h4, -, h6⟩ := semexit_frame hexit
    refine ⟨ht, fun j => ?_, ?_⟩
    · refine (h.counts j).congr h4 ?_ ?_ ?_ fun _ n _ => ?_ <;> rw [h1]
      exact h6 _
    · rw [h4]; exact h.blocked

end Counted

/-- In every run in which no call is interrupted or goes on with a pointer that has become stale
    while its set is still there, no identifier is given out again too soon, and no counter
    overflows, the counts are right. -/
theorem counts_of_run {pool : ℕ → Sem}
    (hrun : Runs (Sys.step info) (fun s op => op.CountsFit info s) (Sys.init pool) s) :
    s.CountsOk := by
  exact (hrun.invariant (Counted.init info pool) fun _ _ _ _ h hfits hstep => h.step hfits
    hstep).counts

/-- A run with one set. -/
theorem counts_of_run_first : ∃ s r,
    (Sys.init fun _ => ⟨0, 0, 0, 0⟩).step Seminfo.default (.semget (root 0 2) 0 2 0o600) =
      some (s, r) ∧ s.CountsOk := by
  have hfits : (Op.semget (root 0 2) 0 2 0o600).CountsFit Seminfo.default
      (Sys.init fun _ => ⟨0, 0, 0, 0⟩) := by
    intro ix _ w hw
    cases hw
  exact ⟨_, _, rfl, counts_of_run (Runs.refl.tail hfits rfl)⟩

/-- A call sleeps on a negative operation and is interrupted: nobody sleeps, and `semncnt` is 1. -/
theorem count_left_by_signal :
    ¬ ∀ (info : Seminfo) (pool : ℕ → Sem) (s : Sys),
      Runs (Sys.step info) (fun _ _ => True) (Sys.init pool) s → s.CountsOk := by
  intro hclaim
  obtain ⟨s, hrun, hs⟩ := Lib.exists_of_exec (Sys.step Seminfo.default) (P := fun _ _ => True)
    (s := Sys.init fun _ => ⟨0, 0, 0, 0⟩)
    (f := fun s => decide ((s.sema 0).allocated = true ∧ 0 < (s.sema 0).semNsems ∧
      (s.sem ((s.sema 0).semBase + 0)).semncnt = 1 ∧ s.sleepers = []))
    (b := true)
    [.semget (root 0 2) 0 1 0o600, .semop (root 1 1) 65536 [⟨0, -1, false, false⟩], .resume 1 true]
    (fun _ _ _ => trivial) (by decide +kernel)
  obtain ⟨halloc, hn, hcnt, hnobody⟩ := of_decide_eq_true hs
  have hok := hclaim Seminfo.default _ s hrun 0 halloc 0 hn false
  simp only [cnt, Bool.false_eq_true, if_false, hcnt, waiters, hnobody, countP_nil] at hok
  exact absurd hok (by decide)

end Sys

end FreeBSD.SysvSem
