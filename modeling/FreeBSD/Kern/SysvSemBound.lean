import FreeBSD.Kern.SysvSemTables

/-!
# The bound of the values

`semop`, `SETVAL` and `SETALL` keep every value within `semvmx`. `semexit_myhook` adds an undo
adjustment without a look at the limit: the value may have grown since the adjustment was recorded.

Results:
* `values_of_run`: the bound holds in every run whose exits fit.
* `exit_exceeds_semvmx`: a run in which an exit exceeds `semvmx`.
-/

namespace FreeBSD.SysvSem

open List
open Lib (Runs)

namespace Sys

/-- Every value in use is within `semvmx`. -/
def Bounded (info : Seminfo) (s : Sys) : Prop :=
  ∀ k < s.semtot, (s.sem k).semval.toNat ≤ info.semvmx

/-- Every semaphore of every set is within `semvmx`. -/
def ValuesOk (info : Seminfo) (s : Sys) : Prop :=
  ∀ ix, (s.sema ix).allocated = true → ∀ n < (s.sema ix).semNsems,
    (s.sem ((s.sema ix).semBase + n)).semval.toNat ≤ info.semvmx

/-- The adjustment of an entry that raises its semaphore does not raise it above `semvmx`. -/
def EntryFits (info : Seminfo) (s : Sys) (e : Undo) : Prop :=
  s.Live e → 0 < e.unAdjval →
    ((s.sem ((s.sema e.unId).semBase + e.unNum)).semval.toNat : ℤ) + e.unAdjval ≤ info.semvmx

theorem exitVal_le {info : Seminfo} {d : ℤ} {v : UInt16} (hv : v.toNat ≤ info.semvmx)
    (hfit : 0 < d → (v.toNat : ℤ) + d ≤ info.semvmx) : (exitVal d v).toNat ≤ info.semvmx := by
  have hmax := info.semvmx_le
  unfold exitVal
  split_ifs with hneg hsmall
  · simp
  · have := toNat_ofInt_of_lt (z := v.toNat + d) (by omega) (by omega); omega
  · rcases eq_or_lt_of_le (not_lt.1 hneg) with rfl | hpos
    · have := toNat_ofInt_of_lt (z := v.toNat + 0) (by omega) (by omega); omega
    · have := hfit hpos
      have := toNat_ofInt_of_lt (z := v.toNat + d) (by omega) (by omega); omega

/-- An exit whose adjustments fit keeps the bound. -/
theorem exitEnt_le {info : Seminfo} {s : Sys} (h : Slots info s) {ents : List Undo}
    (hnodup : (ents.map Undo.key).Nodup) (hfit : ∀ e ∈ ents, EntryFits info s e)
    (hs : Bounded info s) : Bounded info (s.exitEnt ents).1 := by
  induction ents generalizing s with
  | nil => exact hs
  | cons e ents ih =>
    rw [map_cons, nodup_cons] at hnodup
    rw [exitEnt]
    split_ifs with halloc hnum
    · exact hs
    · exact hs
    · have hlive : s.Live e := ⟨by simpa using halloc, by omega⟩
      refine ih (h.of_sema rfl rfl h.tbl) hnodup.2 (fun x hx hxl hpos => ?_) fun k hk => ?_
      · have hne : (s.sema x.unId).semBase + x.unNum ≠ (s.sema e.unId).semBase + e.unNum := by
          intro heq
          obtain ⟨hid, hnum⟩ := h.pos_inj hxl.1 hlive.1 hxl.2 hlive.2 heq
          have hkey : x.key = e.key := Prod.ext hid hnum
          exact hnodup.1 (hkey ▸ mem_map_of_mem hx)
        have hsame := hfit x (mem_cons_of_mem _ hx) hxl hpos
        show ((modSem s.sem _ _ ((s.sema x.unId).semBase + x.unNum)).semval.toNat : ℤ) + _ ≤ _
        rw [modSem_apply, if_neg hne]; exact hsame
      · show (modSem s.sem _ _ k).semval.toNat ≤ _
        rw [modSem_apply]
        split_ifs with hke
        · rw [hke] at hk
          exact exitVal_le (hs _ hk) fun hpos => hfit e mem_cons_self hlive hpos
        · exact hs k hk

/-- An attempt keeps a value within `semvmx`. -/
theorem Tried.le {info : Seminfo} {s t : Sys} {c : Semop} {r : Ret} (h : Tried info s c t r) (k : ℕ)
    (hk : (s.sem k).semval.toNat ≤ info.semvmx) : (t.sem k).semval.toNat ≤ info.semvmx := by
  have hpass : ((passOf info s c).sem k).semval.toNat ≤ info.semvmx :=
    pass_le info _ s.sem false 0 c.sops k hk
  cases h with
  | refused => exact hk
  | slept sopptr =>
    show (modSem s.sem _ _ k).semval.toNat ≤ _
    rwa [modSem_semval (countUp_semval sopptr)]
  | full => exact hk
  | stuck => exact hpass
  | done =>
    have hval : (setPids (s.sema (ipcidToIx c.semid)).semBase c.td.tdProc c.sops
        (passOf info s c).sem k).semval.toNat ≤ info.semvmx := by
      rw [setPids_apply]; exact hpass
    dsimp only
    split_ifs
    · exact hval
    · exact hval

end Sys

/-- The process that exits has no undo entry that raises a semaphore above `semvmx`. -/
def Op.ExitFits (info : Seminfo) (s : Sys) : Op → Prop
  | .exit p => ∀ e ∈ entOf p s.semuList, Sys.EntryFits info s e
  | _ => True

namespace Sys
variable {info : Seminfo} {s t : Sys}

/-- A step whose exit fits keeps the bound. -/
theorem Bounded.step (h : Slots info s) (hs : Bounded info s) {op : Op} {r : Ret}
    (hfits : op.ExitFits info s) (hstep : s.step info op = some (t, r)) : Bounded info t := by
  have hchange := step_change h.tbl hstep
  cases hchange with
  | idle => exact hs
  | create td key nsems semflg ix _ hc =>
    intro k hk
    have hk' : k < s.semtot + nsems.toNat := hk
    show (if s.semtot ≤ k ∧ k < s.semtot + nsems.toNat then (⟨0, 0, 0, 0⟩ : Sem)
      else s.sem k).semval.toNat ≤ _
    split_ifs with hnew
    · exact Nat.zero_le _
    · exact hs k (by omega)
  | remove td semid =>
    intro k hk
    have hk' : k < s.semtot - (s.sema (ipcidToIx semid)).semNsems := hk
    show (compact (s.sema (ipcidToIx semid)).semBase (s.sema (ipcidToIx semid)).semNsems
      (s.semtot - (s.sema (ipcidToIx semid)).semNsems) s.sem k).semval.toNat ≤ _
    rw [compact_apply]
    split_ifs
    · exact hs _ (by omega)
    · exact hs _ (by omega)
  | chmod => exact hs
  | assign _ _ _ sem _ _ _ _ hle => exact fun k hk => hle k (hs k hk)
  | start _ _ _ _ _ _ htried =>
    intro k hk
    rw [htried.frame.2.1] at hk; exact htried.le k (hs k hk)
  | giveUp => exact hs
  | retry _ w _ _ _ _ _ _ htried =>
    intro k hk
    rw [htried.frame.2.1] at hk
    refine htried.le k ?_
    show (modSem s.sem _ _ k).semval.toNat ≤ _
    rw [modSem_semval (countDown_semval w.sopptr)]; exact hs k hk
  | exit p _ _ hexit =>
    obtain ⟨-, h2, -, -, h5, -⟩ := semexit_frame hexit
    have hend := exitEnt_le h (h.tbl.entOk p).nodup hfits hs
    intro k hk
    rw [h2] at hk
    rw [h5]
    split_ifs
    · exact hend k (by rwa [(exitEnt_frame s _).2.1])
    · exact hs k hk

/-- In every run in which no exit raises a semaphore above `semvmx`, no value is above `semvmx`. -/
theorem values_of_run {pool : ℕ → Sem}
    (hrun : Runs (Sys.step info) (fun s op => op.ExitFits info s) (Sys.init pool) s) :
    ValuesOk info s := by
  have hinv : Slots info s ∧ Bounded info s := by
    refine hrun.invariant (I := fun s => Slots info s ∧ Bounded info s)
      ⟨Slots.init info pool, fun k hk => absurd hk (Nat.not_lt_zero k)⟩ ?_
    intro s op t r h hfits hstep; exact ⟨h.1.step hstep, h.2.step h.1 hfits hstep⟩
  intro ix halloc n hn
  have := hinv.1.tiling.le ix halloc
  exact hinv.2 _ (by omega)

/-- A run with one set. -/
theorem values_of_run_first : ∃ s r,
    (Sys.init fun _ => ⟨0, 0, 0, 0⟩).step Seminfo.default (.semget (root 0 2) 0 2 0o600) =
      some (s, r) ∧ ValuesOk Seminfo.default s := by
  have hfits : (Op.semget (root 0 2) 0 2 0o600).ExitFits Seminfo.default
      (Sys.init fun _ => ⟨0, 0, 0, 0⟩) := trivial
  exact ⟨_, _, rfl, values_of_run (Runs.refl.tail hfits rfl)⟩

/-- A process takes 5 from a semaphore with `SEM_UNDO`, another raises it to 32767, and the first
    one exits: the value becomes 32772. -/
theorem exit_exceeds_semvmx :
    ¬ ∀ (info : Seminfo) (pool : ℕ → Sem) (s : Sys), info.semaem ≤ info.semvmx →
      info.semvmx = 32767 → Runs (Sys.step info) (fun _ _ => True) (Sys.init pool) s →
      ValuesOk info s := by
  intro hclaim
  obtain ⟨s, hrun, hs⟩ := Lib.exists_of_exec (Sys.step Seminfo.default) (P := fun _ _ => True)
    (s := Sys.init fun _ => ⟨0, 0, 0, 0⟩)
    (f := fun s => decide ((s.sema 0).allocated = true ∧ 0 < (s.sema 0).semNsems ∧
      (s.sem ((s.sema 0).semBase + 0)).semval = 32772))
    (b := true)
    [.semget (root 0 2) 0 1 0o600, .semctl (root 0 2) 65536 (.setval 0 5),
      .semop (root 1 1) 65536 [⟨0, -5, false, true⟩],
      .semop (root 0 2) 65536 [⟨0, 32767, false, false⟩], .exit 1]
    (fun _ _ _ => trivial) (by decide +kernel)
  obtain ⟨halloc, hn, hval⟩ := of_decide_eq_true hs
  have hle := hclaim Seminfo.default _ s (by decide) rfl hrun 0 halloc 0 hn
  rw [hval] at hle; exact absurd hle (by decide)

end Sys

end FreeBSD.SysvSem
