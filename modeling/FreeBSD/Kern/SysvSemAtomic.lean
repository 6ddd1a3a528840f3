import FreeBSD.Kern.SysvSemOps
import FreeBSD.Lib.Runs

/-!
# All or nothing

`semop` makes all operations of its vector or none, unless an undo entry of the caller exceeds
`semaem`: such an entry is left behind when the limit, which can be written at any time, is lowered.
The rollback of the undo adjustments cannot restore it.

Results:
* `semop_atomic_iff`: calls are atomic if and only if the entries are in range.
* `semop_panics_after_sysctl`: a run after which a lower limit lets `semop` panic.
-/

namespace FreeBSD.SysvSem

open List
open Lib (Runs)

/-- Assignment to `kern.ipc.semaem`, which can be written at any time (line 171). -/
def Seminfo.setSemaem (info : Seminfo) (v : ℕ) (hv : v ≤ 32767) : Seminfo :=
  { info with
    semaem := v
    semaem_le := hv }

namespace Sys

/-! ## The outcome of an attempt -/

/-- Every value and every undo adjustment is as before. -/
structure Unchanged (s t : Sys) : Prop where
  val : ∀ k, (t.sem k).semval = (s.sem k).semval
  undo : ∀ p k, adjval k (entOf p t.semuList) = adjval k (entOf p s.semuList)

/-- Each value has changed by the sum of its operations, the undo adjustments of the caller by the
    negated sum of those with `SEM_UNDO`. -/
structure Applied (s : Sys) (c : Semop) (t : Sys) : Prop where
  val : ∀ k, ((t.sem k).semval.toNat : ℤ) =
    (s.sem k).semval.toNat + net (s.sema (ipcidToIx c.semid)).semBase k c.sops
  undo : ∀ p k, adjval k (entOf p t.semuList) =
    adjval k (entOf p s.semuList) -
      if p = c.td.tdProc then undoNet (ipcidToIx c.semid) k c.sops else 0

/-- The vector is applied, or an error is returned or the call sleeps and nothing has changed; there
    is no panic. -/
def Outcome (s : Sys) (c : Semop) : Sys × Ret → Prop
  | (t, .ok _) => Applied s c t
  | (t, .err e) => e ∈ [Errno.erange, .eagain, .enospc, .einval] ∧ Unchanged s t
  | (t, .asleep) => Unchanged s t
  | (_, .panic _) => False

/-- A call is refused by the checks before the first attempt, which touch nothing, or it ends with
    an outcome. -/
def CallOutcome (s : Sys) (c : Semop) (r : Sys × Ret) : Prop :=
  (∃ e ∈ checkErrors, r = (s, .err e)) ∨ Outcome s c r

/-- A call that slept returns that its set has gone or that a signal came, or it ends with an
    outcome. -/
def WokenOutcome (s : Sys) (c : Semop) (r : Sys × Ret) : Prop :=
  (∃ e, (e = .eintr ∨ e = .eidrm) ∧ r = (s, .err e)) ∨ Outcome s c r

theorem undoNet_eq_zero {semid : ℕ} {k : ℕ × ℕ} {sops : List Sembuf}
    (h : sops.any (·.undoes) = false) : undoNet semid k sops = 0 := by
  have hnil : (sops.filter fun sop => sop.undoes && decide ((semid, sop.semNum) = k)) = [] := by
    rw [filter_eq_nil_iff]
    intro sop hsop
    have := any_eq_false.1 h sop hsop
    simp [this]
  rw [undoNet, hnil]; rfl

variable {info : Seminfo} {s : Sys} {c : Semop}

/-- The undo adjustments of a call whose process has its entries in range. -/
theorem undone_cases (h : TblOk info s.semuList) (hdo : c.doUndos = c.sops.any (·.undoes))
    (hin : ∀ e ∈ entOf c.td.tdProc s.semuList, InRange info e.unAdjval) :
    ((undone info s c).2 = .ok 0 ∧
        ∀ p k, adjval k (entOf p (undone info s c).1) = adjval k (entOf p s.semuList) -
          if p = c.td.tdProc then undoNet (ipcidToIx c.semid) k c.sops else 0) ∨
      (((undone info s c).2 = .err .erange ∨ (undone info s c).2 = .err .einval ∨
          (undone info s c).2 = .err .enospc) ∧
        ∀ p k, adjval k (entOf p (undone info s c).1) = adjval k (entOf p s.semuList)) := by
  unfold undone
  cases hd : c.doUndos with
  | false =>
    rw [if_neg (by simp)]
    refine .inl ⟨rfl, fun p k => ?_⟩
    rw [undoNet_eq_zero (hdo ▸ hd)]
    split_ifs <;> simp
  | true =>
    rw [if_pos rfl]
    have hstep := applyUndos_step c.td.tdProc (ipcidToIx c.semid) h (nil_subset c.sops)
      (List.Subset.refl _)
    have hnone : CanRevert info c.td.tdProc (ipcidToIx c.semid) [] (entOf c.td.tdProc s.semuList)
      (entOf c.td.tdProc s.semuList) := fun tbl _ _ hl => ⟨tbl, rfl, hl⟩
    obtain ⟨tbl', r, hr, hcases⟩ :=
      applyUndos_cases (ipcidToIx c.semid) c.sops h hin hnone (.inr (by simp))
    rw [hr] at hstep ⊢
    rcases hcases with ⟨rfl, hadj⟩ | ⟨hr, hperm⟩
    · refine .inl ⟨rfl, fun p k => ?_⟩
      split_ifs with hp
      · rw [hp]; exact hadj k
      · rw [hstep.frame p hp, sub_zero]
    · refine .inr ⟨hr, fun p k => ?_⟩
      by_cases hp : p = c.td.tdProc
      · rw [hp]; exact adjval_perm hperm
      · rw [hstep.frame p hp]

theorem Tried.outcome {s t : Sys} {r : Ret} (htried : Tried info s c t r)
    (h : TblOk info s.semuList) (hdo : c.doUndos = c.sops.any (·.undoes))
    (hin : ∀ e ∈ entOf c.td.tdProc s.semuList, InRange info e.unAdjval) : Outcome s c (t, r) := by
  have hundone := undone_cases h hdo hin
  cases htried with
  | refused e hstop =>
    refine ⟨?_, fun _ => rfl, fun _ _ => rfl⟩
    rcases hstop with ⟨rfl, -⟩ | ⟨rfl, -⟩ <;> simp
  | slept sopptr hstop hwait =>
    exact ⟨fun k => modSem_semval (countUp_semval sopptr) _ _ k, fun _ _ => rfl⟩
  | full e hstop hundo =>
    rw [hundo] at hundone
    rcases hundone with ⟨he, -⟩ | ⟨he, hadj⟩
    · cases he
    · refine ⟨?_, fun _ => rfl, hadj⟩
      rcases he with he | he | he <;> cases he <;> simp
  | stuck msg hstop hundo =>
    rw [hundo] at hundone
    rcases hundone with ⟨he, -⟩ | ⟨he | he | he, -⟩ <;> cases he
  | done hstop hundo =>
    rcases hundone with ⟨-, hadj⟩ | ⟨he, -⟩
    · have hval : ∀ k, ((setPids (s.sema (ipcidToIx c.semid)).semBase c.td.tdProc c.sops
          (passOf info s c).sem k).semval.toNat : ℤ) =
          (s.sem k).semval.toNat + net (s.sema (ipcidToIx c.semid)).semBase k c.sops := by
        intro k
        rw [setPids_apply]; exact pass_val _ _ _ _ _ _ hstop k
      dsimp only
      split_ifs
      · exact ⟨hval, hadj⟩
      · exact ⟨hval, hadj⟩
    · rw [hundo] at he
      rcases he with he | he | he <;> cases he

/-- With the entries of the caller in range an attempt is atomic. -/
theorem attempt_outcome (h : TblOk info s.semuList) (hdo : c.doUndos = c.sops.any (·.undoes))
    (hin : ∀ e ∈ entOf c.td.tdProc s.semuList, InRange info e.unAdjval) :
    Outcome s c (semopTry info s c) :=
  (semopTry_tried h c).outcome h hdo hin

/-- An outcome depends on the values only, not on the counts. -/
theorem Outcome.congr {s s' : Sys} {r : Sys × Ret} (h : Outcome s' c r) (hsema : s'.sema = s.sema)
    (hval : ∀ k, (s'.sem k).semval = (s.sem k).semval)
    (hundo : s'.semuList = s.semuList) : Outcome s c r := by
  have hunch : ∀ t, Unchanged s' t → Unchanged s t := fun t h' =>
    ⟨fun k => (h'.val k).trans (hval k), fun p k => by rw [h'.undo, hundo]⟩
  obtain ⟨t, r⟩ := r
  cases r with
  | ok v =>
    refine ⟨fun k => ?_, fun p k => ?_⟩
    · rw [Applied.val h k, hsema, hval]
    · rw [Applied.undo h p k, hundo]
  | err e => exact ⟨h.1, hunch t h.2⟩
  | asleep => exact hunch t h
  | panic msg => exact h

theorem call_outcome (h : TblOk info s.semuList) {td : Thread}
    (hin : ∀ e ∈ entOf td.tdProc s.semuList, InRange info e.unAdjval) (semid : ℤ)
    (sops : List Sembuf) :
    CallOutcome s ⟨td, semid, sops, sops.any (·.undoes)⟩ (s.semop info td semid sops) := by
  rcases semop_cases info s td semid sops with hr | ⟨-, hr⟩
  · exact .inl hr
  · rw [hr]; exact .inr (attempt_outcome h rfl hin)

theorem woken_outcome (h : TblOk info s.semuList) {w : Sleeper}
    (hdo : w.call.doUndos = w.call.sops.any (·.undoes))
    (hin : ∀ e ∈ entOf w.call.td.tdProc s.semuList, InRange info e.unAdjval) (intr : Bool) :
    WokenOutcome s w.call (semopWoken info s w intr) := by
  rcases semopWoken_cases info s w intr with ⟨e, he, hr⟩ | ⟨-, -, hr⟩
  · exact .inl ⟨e, he.imp And.left And.left, hr⟩
  · rw [hr]
    have hout := attempt_outcome
      (s := { s with sem := modSem s.sem w.semptr (countDown w.sopptr) }) h hdo hin
    exact .inr (hout.congr rfl (modSem_semval (countDown_semval w.sopptr) s.sem w.semptr) rfl)

/-! ## Entries out of range -/

/-- Two adjustments of an entry out of range, into the range and out of it again: the second fails
    and the rollback of the first panics. -/
theorem applyUndos_stuck {p : ℕ} {tbl : List SemUndo} (h : TblOk info tbl) {e : Undo}
    (he : e ∈ entOf p tbl) (hout : ¬ InRange info e.unAdjval) {sop₁ sop₂ : Sembuf}
    (hu₁ : sop₁.undoes = true) (hu₂ : sop₂.undoes = true) (hn₁ : sop₁.semNum = e.unNum)
    (hn₂ : sop₂.semNum = e.unNum) (hin : InRange info (e.unAdjval - sop₁.semOp))
    (hout' : ¬ InRange info (e.unAdjval - sop₁.semOp - sop₂.semOp)) :
    (applyUndos info p e.unId [] [sop₁, sop₂] tbl).2 = .panic "semop - can't undo undos" := by
  obtain ⟨suptr, hmem, hproc, -⟩ := exists_of_mem_entOf he
  have hp : p ∈ tbl.map (·.unProc) := hproc ▸ mem_map_of_mem hmem
  have hval := (h.entOk p).adjval_eq he
  have hkey : e.key = (e.unId, e.unNum) := rfl
  rw [hkey] at hval
  rcases semundoAdjust_cases h p e.unId sop₁.semNum (neg_ne_zero.2 (sop₁.undoes_ne hu₁)) with
    ⟨hnp, -⟩ | ⟨tbl₁, r₁, hr₁, h₁, hp₁, -, hadj₁⟩
  · exact absurd hp hnp
  rw [hn₁] at hadj₁
  obtain rfl := hadj₁.ok_of_mem (h.entOk p) he hkey (by rwa [hval, ← sub_eq_add_neg])
  have hval₁ := hadj₁.adjval_eq (e.unId, e.unNum)
  rw [if_pos rfl, hval] at hval₁
  rcases semundoAdjust_cases h₁ p e.unId sop₂.semNum (neg_ne_zero.2 (sop₂.undoes_ne hu₂)) with
    ⟨hnp, -⟩ | ⟨tbl₂, r₂, hr₂, h₂, hp₂, -, hadj₂⟩
  · exact absurd hp₁ hnp
  rw [hn₂] at hadj₂
  have hfail : (failUndos info p e.unId [sop₁] r₂ tbl₂).2 = .panic "semop - can't undo undos" := by
    rcases hadj₂.ret with rfl | ⟨hsame, -⟩
    · have := hadj₂.inRange (h₁.entOk p)
      rw [hval₁, ← sub_eq_add_neg, ← sub_eq_add_neg] at this; exact absurd this hout'
    rcases semundoAdjust_cases h₂ p e.unId sop₁.semNum (sop₁.undoes_ne hu₁) with
      ⟨hnp, -⟩ | ⟨tbl₃, r₃, hr₃, -, -, -, hadj₃⟩
    · exact absurd hp₂ hnp
    rw [hn₁] at hadj₃
    simp only [failUndos, revertUndos, if_pos hu₁, hr₃]
    rcases hadj₃.ret with rfl | ⟨-, rfl | rfl⟩
    · have := hadj₃.inRange (h₂.entOk p)
      rw [hsame, hval₁, neg_add_cancel_right] at this; exact absurd this hout
    · rfl
    · rfl
  simp only [applyUndos, if_pos hu₁, if_pos hu₂, hr₁, hr₂]
  rcases hadj₂.ret with rfl | ⟨-, rfl | rfl⟩
  · have := hadj₂.inRange (h₁.entOk p)
    rw [hval₁, ← sub_eq_add_neg, ← sub_eq_add_neg] at this; exact absurd this hout'
  · exact hfail
  · exact hfail

/-- An attempt panics if its undo adjustments do. -/
theorem Tried.eq_panic {s t : Sys} {r : Ret} {msg : String} (h : Tried info s c t r)
    (hthrough : (passOf info s c).stop = .through)
    (hundo : (undone info s c).2 = .panic msg) : r = .panic msg := by
  cases h with
  | refused e hstop =>
    rw [hthrough] at hstop
    rcases hstop with ⟨-, hstop⟩ | ⟨-, _, hstop, -⟩ <;> cases hstop
  | slept sopptr hstop =>
    rw [hthrough] at hstop
    cases hstop
  | full e _ hundo' =>
    rw [hundo] at hundo'
    cases hundo'
  | stuck msg' _ hundo' => exact hundo'.symm.trans hundo
  | done _ hundo' =>
    rw [hundo] at hundo'
    cases hundo'

/-- Two operations on the semaphore of an entry out of range, both possible, let `semop` panic. -/
theorem semop_stuck {p : ℕ} {tbl : List SemUndo} (h : TblOk info tbl) {e : Undo}
    (he : e ∈ entOf p tbl) (hout : ¬ InRange info e.unAdjval) (hid : e.unId < 65536)
    (hmni : info.semmni = 65536) (hopm : 2 ≤ info.semopm) (v : UInt16) (d₁ d₂ : ℤ) (hd₁ : d₁ ≠ 0)
    (hd₂ : d₂ ≠ 0) (hin : InRange info (e.unAdjval - d₁))
    (hout' : ¬ InRange info (e.unAdjval - d₁ - d₂))
    (hpass : (pass info 0 (fun _ => ⟨v, 0, 0, 0⟩) false 0
      [⟨e.unNum, d₁, false, true⟩, ⟨e.unNum, d₂, false, true⟩]).stop = .through) :
    ∃ s : Sys, s.semuList = tbl ∧ ∃ td : Thread, td.tdProc = p ∧ ∃ semid sops,
      sops.length ≤ info.semopm ∧ ∃ t msg, s.semop info td semid sops = (t, .panic msg) := by
  set sop₁ : Sembuf := ⟨e.unNum, d₁, false, true⟩ with hsop₁
  set sop₂ : Sembuf := ⟨e.unNum, d₂, false, true⟩ with hsop₂
  have hu₁ : sop₁.undoes = true := by simp [hsop₁, Sembuf.undoes, hd₁]
  have hu₂ : sop₂.undoes = true := by simp [hsop₂, Sembuf.undoes, hd₂]
  have hix : ipcidToIx (e.unId : ℤ) = e.unId := by unfold ipcidToIx; omega
  let s : Sys :=
    { sema := fun _ => ⟨⟨0, 0, 0, 0, semAlloc, 0, 0⟩, 0, e.unNum + 1⟩
      sem := fun _ => ⟨v, 0, 0, 0⟩
      semtot := e.unNum + 1
      semuList := tbl
      sleepers := [] }
  let td : Thread := ⟨0, p, ⟨0, 0, [], true, false⟩⟩
  have hcall : s.semop info td e.unId [sop₁, sop₂] =
      semopTry info s ⟨td, e.unId, [sop₁, sop₂], [sop₁, sop₂].any (·.undoes)⟩ := by
    have hvalid : semvalid (e.unId : ℤ) (s.sema (ipcidToIx e.unId)) = true := by
      have hseq : ipcidToSeq (e.unId : ℤ) = 0 := by unfold ipcidToSeq; omega
      simp only [semvalid, hseq]
      show (semAlloc &&& semAlloc != 0 && (0 : ℕ) == 0) = true
      decide
    have hnum : ([sop₁, sop₂].any (·.semNum ≥ (s.sema (ipcidToIx e.unId)).semNsems)) = false := by
      simp [hsop₁, hsop₂, s]
    have hlen : ¬ [sop₁, sop₂].length > info.semopm := not_lt.2 hopm
    simp only [semop]
    rw [if_neg (by simp [td]), if_neg (by rw [hix]; omega), if_neg hlen,
      if_neg (by simp [hvalid]), if_neg (by simp [hnum]), ipcperm_suser rfl]
  refine ⟨s, rfl, td, rfl, e.unId, [sop₁, sop₂], by simpa using hopm, ?_⟩
  rw [hcall]
  have hdo : [sop₁, sop₂].any (·.undoes) = true := by simp [hu₁]
  rw [hdo]
  have htried := semopTry_tried (s := s) h ⟨td, e.unId, [sop₁, sop₂], true⟩
  have hundo : (undone info s ⟨td, e.unId, [sop₁, sop₂], true⟩).2 =
      .panic "semop - can't undo undos" := by
    unfold undone
    rw [if_pos rfl, hix]; exact applyUndos_stuck h he hout hu₁ hu₂ rfl rfl hin hout'
  exact ⟨_, _, Prod.ext rfl (htried.eq_panic hpass hundo)⟩

/-- An operation within the bounds is made. -/
theorem pass_cons_of_fits (info : Seminfo) (base : ℕ) (sem : ℕ → Sem) (w : Bool) (i : ℕ)
    (sop : Sembuf) (sops : List Sembuf) (hne : sop.semOp ≠ 0)
    (h0 : 0 ≤ ((sem (base + sop.semNum)).semval.toNat : ℤ) + sop.semOp)
    (h1 : ((sem (base + sop.semNum)).semval.toNat : ℤ) + sop.semOp ≤ info.semvmx) :
    ∃ w', pass info base sem w i (sop :: sops) =
      pass info base (addVal sem (base + sop.semNum) sop.semOp) w' (i + 1) sops := by
  rw [pass]
  simp only
  split_ifs
  · omega
  · exact ⟨_, rfl⟩
  · omega
  · exact ⟨_, rfl⟩

/-- Two operations within the bounds are made. -/
theorem pass_two {v : UInt16} {n : ℕ} {d₁ d₂ : ℤ} (hd₁ : d₁ ≠ 0) (hd₂ : d₂ ≠ 0)
    (h0 : 0 ≤ (v.toNat : ℤ) + d₁) (h1 : (v.toNat : ℤ) + d₁ ≤ info.semvmx)
    (h0' : 0 ≤ (v.toNat : ℤ) + d₁ + d₂) (h1' : (v.toNat : ℤ) + d₁ + d₂ ≤ info.semvmx) :
    (pass info 0 (fun _ => ⟨v, 0, 0, 0⟩) false 0
      [⟨n, d₁, false, true⟩, ⟨n, d₂, false, true⟩]).stop = .through := by
  have hval : ((addVal (fun _ => ⟨v, 0, 0, 0⟩) (0 + n) d₁ (0 + n)).semval.toNat : ℤ) =
      v.toNat + d₁ := by
    have := addVal_val info (fun _ => ⟨v, 0, 0, 0⟩) (0 + n) h0
      (h1.trans (le_max_right _ _)) (0 + n)
    rwa [if_pos rfl] at this
  obtain ⟨w', hw'⟩ := pass_cons_of_fits info 0 (fun _ => ⟨v, 0, 0, 0⟩) false 0
    ⟨n, d₁, false, true⟩ [⟨n, d₂, false, true⟩] hd₁ h0 h1
  obtain ⟨w'', hw''⟩ := pass_cons_of_fits info 0 (addVal (fun _ => ⟨v, 0, 0, 0⟩) (0 + n) d₁) w'
    (0 + 1) ⟨n, d₂, false, true⟩ [] hd₂ (by rw [hval]; exact h0') (by rw [hval]; exact h1')
  rw [hw', hw'']; rfl

/-- Every call of a process is atomic, whatever the other limits, the semaphores and the vector are,
    if and only if the undo entries of the process are within `semaem`. -/
theorem semop_atomic_iff {info₀ : Seminfo} {p : ℕ} {tbl : List SemUndo} (h : TblOk info₀ tbl)
    (htyped : ∀ e ∈ entOf p tbl, -32768 ≤ e.unAdjval ∧ e.unAdjval < 32768 ∧ e.unId < 65536) :
    (∀ info : Seminfo, info.semaem = info₀.semaem → TblOk info tbl → ∀ s : Sys, s.semuList = tbl →
      (∀ td semid sops, td.tdProc = p → sops.length ≤ info.semopm →
        CallOutcome s ⟨td, semid, sops, sops.any (·.undoes)⟩ (s.semop info td semid sops)) ∧
      ∀ w intr, w.call.td.tdProc = p → w.call.doUndos = w.call.sops.any (·.undoes) →
        WokenOutcome s w.call (semopWoken info s w intr)) ↔
    ∀ e ∈ entOf p tbl, InRange info₀ e.unAdjval := by
  constructor
  · intro hatomic e he
    by_contra hout
    obtain ⟨hlo, hhi, hid⟩ := htyped e he
    have hcap := info₀.semaem_le
    let info : Seminfo :=
      { info₀ with
        semmni := 65536
        semmni_le := le_rfl
        semvmx := 32767
        semvmx_le := by omega
        semopm := 2 }
    have htbl : TblOk info tbl :=
      ⟨h.nodup, h.length_le, fun u hu => ⟨(h.ents u hu).nodup, (h.ents u hu).ne_zero,
        (h.ents u hu).length_le⟩⟩
    have hvmx : (info.semvmx : ℤ) = 32767 := rfl
    have hpanic : ∃ s : Sys, s.semuList = tbl ∧ ∃ td : Thread, td.tdProc = p ∧ ∃ semid sops,
        sops.length ≤ info.semopm ∧ ∃ t msg, s.semop info td semid sops = (t, .panic msg) := by
      have hrange : ∀ z, InRange info z ↔ -(info₀.semaem : ℤ) ≤ z ∧ z ≤ info₀.semaem :=
        fun z => Iff.rfl
      have hout' := hout
      rw [show InRange info₀ e.unAdjval ↔ InRange info e.unAdjval from Iff.rfl, hrange] at hout'
      rcases lt_or_ge (info₀.semaem : ℤ) e.unAdjval with hgt | hle
      · refine semop_stuck htbl he hout hid rfl le_rfl 0 (e.unAdjval - info₀.semaem) (-1)
          (by omega) (by omega) ?_ ?_ (pass_two (by omega) (by omega) ?_ ?_ ?_ ?_)
        · rw [hrange]; omega
        · rw [hrange]; omega
        all_goals rw [UInt16.toNat_zero]; omega
      · have hv : ((UInt16.ofInt (-(e.unAdjval + info₀.semaem))).toNat : ℤ) =
            -(e.unAdjval + info₀.semaem) := toNat_ofInt_of_lt (by omega) (by omega)
        refine semop_stuck htbl he hout hid rfl le_rfl
          (UInt16.ofInt (-(e.unAdjval + info₀.semaem))) (e.unAdjval + info₀.semaem) 1
          (by omega) (by omega) ?_ ?_ (pass_two (by omega) (by omega) ?_ ?_ ?_ ?_)
        · rw [hrange]; omega
        · rw [hrange]; omega
        all_goals rw [hv]; omega
    obtain ⟨s, hs, td, htd, semid, sops, hlen, t, msg, hr⟩ := hpanic
    have hcall := (hatomic info rfl htbl s hs).1 td semid sops htd hlen
    rw [hr] at hcall
    rcases hcall with ⟨e, -, he⟩ | hcall
    · cases (Prod.mk.inj he).2
    · exact hcall
  · rintro hin info haem htbl s rfl
    have hin' : ∀ e ∈ entOf p s.semuList, InRange info e.unAdjval := by
      intro e he
      have := hin e he
      unfold InRange at this ⊢; rwa [haem]
    refine ⟨fun td semid sops htd _ => ?_, fun w intr htd hdo => ?_⟩
    · exact call_outcome htbl (htd ▸ hin') semid sops
    · exact woken_outcome htbl hdo (htd ▸ hin') intr

/-- A process with one undo entry calls `semop` in the default configuration. -/
theorem semop_atomic_default :
    CallOutcome { Sys.init (fun _ => ⟨0, 0, 0, 0⟩) with semuList := [⟨1, [⟨5, 0, 0⟩]⟩] }
      ⟨root 0 1, 65536, [⟨0, 3, false, true⟩], true⟩
      (semop { Sys.init (fun _ => ⟨0, 0, 0, 0⟩) with semuList := [⟨1, [⟨5, 0, 0⟩]⟩] }
        Seminfo.default (root 0 1) 65536 [⟨0, 3, false, true⟩]) := by
  have htbl : TblOk Seminfo.default [⟨1, [⟨5, 0, 0⟩]⟩] := by
    refine ⟨by decide, by decide, fun u hu => ?_⟩
    obtain rfl := mem_singleton.1 hu
    exact ⟨by decide, by decide, by decide⟩
  have hent : entOf 1 [⟨1, [⟨5, 0, 0⟩]⟩] = [⟨5, 0, 0⟩] := rfl
  have hiff := semop_atomic_iff (p := 1) htbl (by rw [hent]; decide)
  have hin : ∀ e ∈ entOf 1 [⟨1, [⟨5, 0, 0⟩]⟩], InRange Seminfo.default e.unAdjval := by
    rw [hent]
    intro e he
    obtain rfl := mem_singleton.1 he
    exact ⟨by decide, by decide⟩
  exact (hiff.2 hin Seminfo.default rfl htbl _ rfl).1 (root 0 1) 65536 [⟨0, 3, false, true⟩] rfl
    (by decide)

/-- A process takes 16000 from a semaphore with `SEM_UNDO`, then `semaem` is lowered to 100, then it
    adds 15950 and 200: the second undo adjustment fails, and the first cannot be taken back. -/
theorem semop_panics_after_sysctl :
    ¬ ∀ (info : Seminfo) (pool : ℕ → Sem) (s : Sys),
      Runs (Sys.step info) (fun _ _ => True) (Sys.init pool) s →
      ∀ (v : ℕ) (hv : v ≤ 32767) (td : Thread) (semid : ℤ) (sops : List Sembuf),
        sops.length ≤ info.semopm →
        CallOutcome s ⟨td, semid, sops, sops.any (·.undoes)⟩
          (s.semop (info.setSemaem v hv) td semid sops) := by
  intro hclaim
  obtain ⟨s, hrun, hs⟩ := Lib.exists_of_exec (Sys.step Seminfo.default) (P := fun _ _ => True)
    (s := Sys.init fun _ => ⟨0, 0, 0, 0⟩)
    (f := fun s => (s.semop (Seminfo.default.setSemaem 100 (by decide)) (root 0 1) 65536
      [⟨0, 15950, false, true⟩, ⟨0, 200, false, true⟩]).2)
    (b := .panic "semop - can't undo undos")
    [.semget (root 0 1) 0 1 0o600, .semctl (root 0 1) 65536 (.setval 0 20000),
      .semop (root 0 1) 65536 [⟨0, -16000, false, true⟩]]
    (fun _ _ _ => trivial) (by decide +kernel)
  have hcall := hclaim Seminfo.default _ s hrun 100 (by decide) (root 0 1) 65536
    [⟨0, 15950, false, true⟩, ⟨0, 200, false, true⟩] (by decide)
  obtain ⟨t, r, hr⟩ : ∃ t r, s.semop (Seminfo.default.setSemaem 100 (by decide)) (root 0 1) 65536
      [⟨0, 15950, false, true⟩, ⟨0, 200, false, true⟩] = (t, r) := ⟨_, _, rfl⟩
  rw [hr] at hs hcall
  obtain rfl : r = .panic "semop - can't undo undos" := hs
  rcases hcall with ⟨e, -, he⟩ | hcall
  · cases (Prod.mk.inj he).2
  · exact hcall

end Sys

end FreeBSD.SysvSem
