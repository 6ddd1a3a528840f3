import FreeBSD.Kern.SysvSemUndo

/-!
# One attempt of `semop`

A pass over the vector changes values only, and its rollback restores the pool. So an attempt ends
in one of a few ways (`Tried`): refused, asleep, without room for its undo adjustments, or done.
-/

namespace FreeBSD.SysvSem

open List

/-! ## Values of type `u_short` -/

theorem toNat_ofInt (z : ℤ) : (UInt16.ofInt z).toNat = (z % 65536).toNat := by
  have : (z % 65536).toNat < 65536 := by omega
  rw [UInt16.ofInt, UInt16.toNat_ofNat']
  norm_num
  omega

theorem toNat_ofInt_of_lt {z : ℤ} (h0 : 0 ≤ z) (h : z < 65536) :
    ((UInt16.ofInt z).toNat : ℤ) = z := by
  rw [toNat_ofInt]; omega

theorem Sembuf.undoes_ne (sop : Sembuf) (h : sop.undoes = true) : sop.semOp ≠ 0 := by
  simp only [Sembuf.undoes, Bool.and_eq_true, bne_iff_ne] at h; exact h.2

namespace Sys

/-! ## Changes of the pool -/

theorem modSem_apply (sem : ℕ → Sem) (k : ℕ) (f : Sem → Sem) (j : ℕ) :
    modSem sem k f j = if j = k then f (sem k) else sem j := by
  unfold modSem
  rw [Function.update_apply]

theorem addVal_apply (sem : ℕ → Sem) (k : ℕ) (d : ℤ) (j : ℕ) :
    addVal sem k d j =
      { sem j with semval := if j = k then UInt16.ofInt ((sem j).semval.toNat + d)
        else (sem j).semval } := by
  unfold addVal
  rw [modSem_apply]
  split_ifs with h
  · rw [h]
  · rfl

theorem addVal_add (sem : ℕ → Sem) (k : ℕ) (d e : ℤ) :
    addVal (addVal sem k d) k e = addVal sem k (d + e) := by
  funext j
  simp only [addVal_apply]
  split_ifs with h
  · congr 1
    apply UInt16.toNat_inj.1
    rw [toNat_ofInt, toNat_ofInt, toNat_ofInt]; omega
  · rfl

theorem addVal_zero (sem : ℕ → Sem) (k : ℕ) : addVal sem k 0 = sem := by
  funext j
  rw [addVal_apply]
  split_ifs with h
  · have := (sem j).semval.toNat_lt
    have hval : UInt16.ofInt ((sem j).semval.toNat + 0) = (sem j).semval := by
      apply UInt16.toNat_inj.1
      rw [toNat_ofInt]; omega
    rw [hval]
  · rfl

theorem addVal_comm (sem : ℕ → Sem) (k l : ℕ) (d e : ℤ) :
    addVal (addVal sem k d) l e = addVal (addVal sem l e) k d := by
  by_cases hkl : l = k
  · subst hkl
    rw [addVal_add, addVal_add, add_comm]
  · funext j
    simp only [addVal_apply]
    split_ifs with h1 h2 h2
    · exact absurd (h1.symm.trans h2) hkl
    · rfl
    · rfl
    · rfl

theorem rollback_addVal (base : ℕ) (sops : List Sembuf) (sem : ℕ → Sem) (k : ℕ) (d : ℤ) :
    rollback base sops (addVal sem k d) = addVal (rollback base sops sem) k d := by
  induction sops generalizing sem with
  | nil => rfl
  | cons sop sops ih =>
    show rollback base sops (addVal (addVal sem k d) _ _) =
      addVal (rollback base sops (addVal sem _ _)) k d
    rw [addVal_comm, ih]

variable {sop : Sembuf} {sops applied : List Sembuf} {info : Seminfo} {p semid : ℕ}
  {tbl : List SemUndo} {l₀ : List Undo}

/-- An operation and the rest of the vector are taken back. -/
theorem rollback_cons {base : ℕ} {sem sem' : ℕ → Sem}
    (h : rollback base sops sem' = addVal sem (base + sop.semNum) sop.semOp) :
    rollback base (sop :: sops) sem' = sem := by
  show rollback base sops (addVal sem' _ _) = sem
  rw [rollback_addVal, h, addVal_add, add_neg_cancel, addVal_zero]

/-! ## The pass -/

/-- The branches of the loop. -/
theorem pass_cons (info : Seminfo) (base : ℕ) (sem : ℕ → Sem) (w : Bool) (i : ℕ) (sop : Sembuf)
    (sops : List Sembuf) :
    (∃ w', (w = true → w' = true) ∧
        0 ≤ ((sem (base + sop.semNum)).semval.toNat : ℤ) + sop.semOp ∧
        ((sem (base + sop.semNum)).semval.toNat : ℤ) + sop.semOp ≤
          max ((sem (base + sop.semNum)).semval.toNat : ℤ) info.semvmx ∧
        pass info base sem w i (sop :: sops) =
          pass info base (addVal sem (base + sop.semNum) sop.semOp) w' (i + 1) sops) ∨
    pass info base sem w i (sop :: sops) = ⟨sem, w, i, .wait sop⟩ ∨
    pass info base sem w i (sop :: sops) = ⟨sem, w, i, .erange⟩ := by
  rw [pass]
  simp only
  split_ifs with hneg hwait hzero hnz hbig
  · exact .inr (.inl rfl)
  · exact .inl ⟨_, fun h => by rw [h, Bool.true_or], by omega, by omega, rfl⟩
  · exact .inr (.inl rfl)
  · refine .inl ⟨w, id, by omega, by omega, ?_⟩
    rw [hzero, addVal_zero]
  · exact .inr (.inr rfl)
  · exact .inl ⟨_, fun h => by rw [h, Bool.true_or], by omega, by omega, rfl⟩

theorem le_pass_i (info : Seminfo) (base : ℕ) (sem : ℕ → Sem) (w : Bool) (i : ℕ)
    (sops : List Sembuf) : i ≤ (pass info base sem w i sops).i := by
  induction sops generalizing sem w i with
  | nil => exact le_rfl
  | cons sop sops ih =>
    rcases pass_cons info base sem w i sop sops with ⟨w', -, -, -, h⟩ | h | h <;> rw [h]
    exact (Nat.le_succ i).trans (ih ..)

theorem pass_i (info : Seminfo) (base : ℕ) (sem : ℕ → Sem) (w : Bool) (i : ℕ) (sops : List Sembuf)
    (h : (pass info base sem w i sops).stop = .through) :
    (pass info base sem w i sops).i = i + sops.length := by
  induction sops generalizing sem w i with
  | nil => rfl
  | cons sop sops ih =>
    rcases pass_cons info base sem w i sop sops with ⟨w', -, -, -, hp⟩ | hp | hp <;> rw [hp] at h ⊢
    · rw [ih _ _ _ h, length_cons]; omega
    · cases h
    · cases h

/-- The rollback of a pass restores the pool. -/
theorem rollback_pass (info : Seminfo) (base : ℕ) (sem : ℕ → Sem) (w : Bool) (i : ℕ)
    (sops : List Sembuf) :
    rollback base (sops.take ((pass info base sem w i sops).i - i))
      (pass info base sem w i sops).sem = sem := by
  induction sops generalizing sem w i with
  | nil => simp [rollback, pass]
  | cons sop sops ih =>
    rcases pass_cons info base sem w i sop sops with ⟨w', -, -, -, h⟩ | h | h <;> rw [h]
    · have hle := le_pass_i info base (addVal sem (base + sop.semNum) sop.semOp) w' (i + 1) sops
      obtain ⟨n, hn⟩ := Nat.exists_eq_add_of_le hle
      have hrec := ih (addVal sem (base + sop.semNum) sop.semOp) w' (i + 1)
      rw [hn] at hrec ⊢
      rw [show i + 1 + n - (i + 1) = n by omega] at hrec
      rw [show i + 1 + n - i = n + 1 by omega, take_succ_cons]
      exact rollback_cons hrec
    · simp [rollback]
    · simp [rollback]

/-- The sum of the operations on the semaphore at index `k`. -/
def net (base k : ℕ) (sops : List Sembuf) : ℤ :=
  ((sops.filter (base + ·.semNum = k)).map (·.semOp)).sum

theorem net_cons (base k : ℕ) (sop : Sembuf) (sops : List Sembuf) :
    net base k (sop :: sops) = (if base + sop.semNum = k then sop.semOp else 0) +
      net base k sops := by
  unfold net
  rw [filter_cons]
  by_cases h : base + sop.semNum = k <;> simp [h]

/-- An operation in its bounds adds to the value. -/
theorem addVal_val (info : Seminfo) (sem : ℕ → Sem) (l : ℕ) {d : ℤ}
    (h0 : 0 ≤ ((sem l).semval.toNat : ℤ) + d)
    (h1 : ((sem l).semval.toNat : ℤ) + d ≤ max ((sem l).semval.toNat : ℤ) info.semvmx) (k : ℕ) :
    ((addVal sem l d k).semval.toNat : ℤ) = (sem k).semval.toNat + if l = k then d else 0 := by
  have hlt := (sem l).semval.toNat_lt
  have hmax := info.semvmx_le
  rw [addVal_apply]
  by_cases hk : k = l
  · subst hk
    simp only [if_true]; exact toNat_ofInt_of_lt h0 (by omega)
  · simp only [if_neg hk, if_neg (Ne.symm hk), add_zero]

/-- A pass through the whole vector changes each value by the sum of its operations. -/
theorem pass_val (info : Seminfo) (base : ℕ) (sem : ℕ → Sem) (w : Bool) (i : ℕ) (sops : List Sembuf)
    (h : (pass info base sem w i sops).stop = .through) (k : ℕ) :
    (((pass info base sem w i sops).sem k).semval.toNat : ℤ) =
      (sem k).semval.toNat + net base k sops := by
  induction sops generalizing sem w i with
  | nil => simp [pass, net]
  | cons sop sops ih =>
    rcases pass_cons info base sem w i sop sops with
      ⟨w', -, h0, h1, hp⟩ | hp | hp <;> rw [hp] at h ⊢
    · rw [ih _ _ _ h, addVal_val info _ _ h0 h1, net_cons]; omega
    · cases h
    · cases h

/-- A pass changes values only. -/
theorem pass_counts (info : Seminfo) (base : ℕ) (sem : ℕ → Sem) (w : Bool) (i : ℕ)
    (sops : List Sembuf) (k : ℕ) :
    (pass info base sem w i sops).sem k =
      { sem k with semval := ((pass info base sem w i sops).sem k).semval } := by
  induction sops generalizing sem w i with
  | nil => rfl
  | cons sop sops ih =>
    rcases pass_cons info base sem w i sop sops with ⟨w', -, -, -, hp⟩ | hp | hp <;> rw [hp]
    rw [ih, addVal_apply]

/-- An operation that has to wait is one of the vector, and it does not add. -/
theorem pass_wait (info : Seminfo) (base : ℕ) (sem : ℕ → Sem) (w : Bool) (i : ℕ)
    (sops : List Sembuf) (h : (pass info base sem w i sops).stop = .wait sop) :
    sop ∈ sops ∧ sop.semOp ≤ 0 := by
  induction sops generalizing sem w i with
  | nil => cases h
  | cons sop' sops ih =>
    rw [pass] at h
    simp only at h
    split_ifs at h with hneg hwait hzero hnz hbig
    · obtain rfl := Stop.wait.inj h
      exact ⟨mem_cons_self, hneg.le⟩
    · exact (ih _ _ _ h).imp_left (mem_cons_of_mem _)
    · obtain rfl := Stop.wait.inj h
      exact ⟨mem_cons_self, hzero.le⟩
    · exact (ih _ _ _ h).imp_left (mem_cons_of_mem _)
    · exact (ih _ _ _ h).imp_left (mem_cons_of_mem _)

/-- A pass keeps values within `semvmx`. -/
theorem pass_le (info : Seminfo) (base : ℕ) (sem : ℕ → Sem) (w : Bool) (i : ℕ) (sops : List Sembuf)
    (k : ℕ) (h : (sem k).semval.toNat ≤ info.semvmx) :
    ((pass info base sem w i sops).sem k).semval.toNat ≤ info.semvmx := by
  induction sops generalizing sem w i with
  | nil => exact h
  | cons sop sops ih =>
    rcases pass_cons info base sem w i sop sops with ⟨w', -, h0, h1, hp⟩ | hp | hp <;> rw [hp]
    · apply ih
      have hval := addVal_val info _ _ h0 h1 k
      split_ifs at hval with hk
      · subst hk; omega
      · omega
    · exact h
    · exact h

/-! ## The undo adjustments -/

/-- The operations `sops` on set `semid` change the entries of process `p` only: what is new there
    is in range and for a semaphore of one of the operations. -/
structure UndoStep (info : Seminfo) (p semid : ℕ) (sops : List Sembuf) (tbl tbl' : List SemUndo) :
    Prop where
  tblOk : TblOk info tbl'
  frame : ∀ q ≠ p, entOf q tbl' = entOf q tbl
  mem : ∀ e ∈ entOf p tbl', e ∈ entOf p tbl ∨
    InRange info e.unAdjval ∧ ∃ sop ∈ sops, e.key = (semid, sop.semNum)

namespace UndoStep
variable {info : Seminfo} {p semid : ℕ} {sops : List Sembuf} {tbl tbl' tbl'' : List SemUndo}

theorem refl (h : TblOk info tbl) : UndoStep info p semid sops tbl tbl :=
  ⟨h, fun _ _ => rfl, fun _ he => .inl he⟩

theorem trans (h : UndoStep info p semid sops tbl tbl')
    (h' : UndoStep info p semid sops tbl' tbl'') :
    UndoStep info p semid sops tbl tbl'' where
  tblOk := h'.tblOk
  frame q hq := (h'.frame q hq).trans (h.frame q hq)
  mem e he := by
    rcases h'.mem e he with he | he
    · exact h.mem e he
    · exact .inr he

theorem adjust (p semid : ℕ) (h : TblOk info tbl) {sop : Sembuf} (hsop : sop ∈ sops) {d : ℤ}
    (hd : d ≠ 0) :
    UndoStep info p semid sops tbl (semundoAdjust info p tbl semid sop.semNum d).1 := by
  rcases semundoAdjust_cases h p semid sop.semNum hd with ⟨-, hr⟩ | ⟨tbl', r, hr, h', -, hq, hadj⟩
  · rw [hr]; exact refl h
  · rw [hr]
    refine ⟨h', hq, fun e he => ?_⟩
    rcases hadj.mem he with he | ⟨hk, hin⟩
    · exact .inl he
    · exact .inr ⟨hin, sop, hsop, hk⟩

end UndoStep

/-- The rollback of adjustments is a step of the table. -/
theorem revertUndos_step (h : TblOk info tbl) (hsub : applied ⊆ sops) :
    UndoStep info p semid sops tbl (revertUndos info p semid applied tbl).1 := by
  induction applied generalizing tbl with
  | nil => exact .refl h
  | cons sop applied ih =>
    have hsub' : applied ⊆ sops := (cons_subset.1 hsub).2
    rw [revertUndos]
    split_ifs with hu
    · have hstep := UndoStep.adjust p semid h (hsub mem_cons_self)
        (sop.undoes_ne hu)
      cases hr : semundoAdjust info p tbl semid sop.semNum sop.semOp with
      | mk tbl' r =>
        rw [hr] at hstep
        cases r with
        | ok v => exact hstep.trans (ih hstep.tblOk hsub')
        | err e => exact hstep
        | panic msg => exact hstep
        | asleep => exact hstep
    · exact ih h hsub'

/-- So are the adjustments. -/
theorem applyUndos_step (p semid : ℕ) {all applied sops : List Sembuf} (h : TblOk info tbl)
    (hsub : applied ⊆ all) (hsub' : sops ⊆ all) :
    UndoStep info p semid all tbl (applyUndos info p semid applied sops tbl).1 := by
  induction sops generalizing tbl applied with
  | nil => exact .refl h
  | cons sop sops ih =>
    have hmem := hsub' mem_cons_self
    have hsub'' : sops ⊆ all := (cons_subset.1 hsub').2
    have happ : (sop :: applied) ⊆ all := cons_subset.2 ⟨hmem, hsub⟩
    rw [applyUndos]
    split_ifs with hu
    · have hstep := UndoStep.adjust p semid h hmem
        (neg_ne_zero.2 (sop.undoes_ne hu))
      cases hr : semundoAdjust info p tbl semid sop.semNum (-sop.semOp) with
      | mk tbl' r =>
        rw [hr] at hstep
        have hfail : ∀ error,
            UndoStep info p semid all tbl (failUndos info p semid applied error tbl').1 := by
          intro error
          have hrev := hstep.trans (revertUndos_step hstep.tblOk hsub)
          unfold failUndos
          cases hr' : revertUndos info p semid applied tbl' with
          | mk tbl'' r' =>
            rw [hr'] at hrev
            cases r' <;> exact hrev
        cases r with
        | ok v => exact hstep.trans (ih hstep.tblOk happ hsub'')
        | panic msg => exact hstep
        | err e => exact hfail _
        | asleep => exact hfail _
    · exact ih h happ hsub''

/-! Adjustments of entries in range. -/

/-- The adjustments for `applied` can be taken back: from entries `l`, in any order, to `l₀`. -/
def CanRevert (info : Seminfo) (p semid : ℕ) (applied : List Sembuf) (l l₀ : List Undo) : Prop :=
  ∀ tbl, TblOk info tbl → (p ∈ tbl.map (·.unProc) ∨ ∀ sop ∈ applied, sop.undoes = false) →
    (entOf p tbl).Perm l → ∃ tbl', revertUndos info p semid applied tbl = (tbl', .ok 0) ∧
      (entOf p tbl').Perm l₀

theorem CanRevert.skip {l l₀ : List Undo} (h : CanRevert info p semid applied l l₀)
    (hu : sop.undoes = false) :
    CanRevert info p semid (sop :: applied) l l₀ := by
  intro tbl htbl hp hl
  rw [revertUndos, if_neg (by simp [hu])]
  exact h tbl htbl (hp.imp_right fun hnone x hx => hnone x (mem_cons_of_mem _ hx)) hl

theorem CanRevert.cons {l l' l₀ : List Undo} (h : CanRevert info p semid applied l l₀)
    (hu : sop.undoes = true)
    (hok : EntOk info l) (hin : ∀ e ∈ l, InRange info e.unAdjval)
    (hadj : Adjusted info (semid, sop.semNum) (-sop.semOp) l l' (.ok 0)) :
    CanRevert info p semid (sop :: applied) l' l₀ := by
  intro tbl htbl hp hl
  have hmem : p ∈ tbl.map (·.unProc) := by
    rcases hp with hp | hp
    · exact hp
    · rw [hp sop mem_cons_self] at hu
      cases hu
  rw [revertUndos, if_pos hu]
  rcases semundoAdjust_cases htbl p semid sop.semNum (sop.undoes_ne hu) with
    ⟨hnp, -⟩ | ⟨tbl', r, hr, htbl', hp', -, hback⟩
  · exact absurd hmem hnp
  · rw [← neg_neg sop.semOp] at hback
    obtain ⟨rfl, hperm⟩ :=
      hadj.revert hok (neg_ne_zero.2 (sop.undoes_ne hu)) hin hl hback
    rw [hr]; exact h tbl' htbl' (.inl hp') hperm

/-- What the operations subtract from the undo value of semaphore `k`. -/
def undoNet (semid : ℕ) (k : ℕ × ℕ) (sops : List Sembuf) : ℤ :=
  ((sops.filter fun sop => sop.undoes && decide ((semid, sop.semNum) = k)).map (·.semOp)).sum

theorem undoNet_cons (semid : ℕ) (k : ℕ × ℕ) (sop : Sembuf) (sops : List Sembuf) :
    undoNet semid k (sop :: sops) =
      (if sop.undoes = true ∧ (semid, sop.semNum) = k then sop.semOp else 0) +
        undoNet semid k sops := by
  unfold undoNet
  rw [filter_cons]
  by_cases h : sop.undoes = true <;> by_cases hk : (semid, sop.semNum) = k <;> simp [h, hk]

/-- Adjustments of entries in range are made for the whole vector, or an error is returned and the
    entries are as before. -/
theorem applyUndos_cases (semid : ℕ) (sops : List Sembuf) (h : TblOk info tbl)
    (hin : ∀ e ∈ entOf p tbl, InRange info e.unAdjval)
    (hrev : CanRevert info p semid applied (entOf p tbl) l₀)
    (hp : p ∈ tbl.map (·.unProc) ∨ ∀ sop ∈ applied, sop.undoes = false) :
    ∃ tbl' r, applyUndos info p semid applied sops tbl = (tbl', r) ∧
      ((r = .ok 0 ∧ ∀ k, adjval k (entOf p tbl') = adjval k (entOf p tbl) - undoNet semid k sops) ∨
        ((r = .err .erange ∨ r = .err .einval ∨ r = .err .enospc) ∧ (entOf p tbl').Perm l₀)) := by
  induction sops generalizing tbl applied with
  | nil => exact ⟨tbl, .ok 0, rfl, .inl ⟨rfl, fun k => (sub_zero _).symm⟩⟩
  | cons sop sops ih =>
    rw [applyUndos]
    cases hu : sop.undoes with
    | false =>
      rw [if_neg (by simp)]
      obtain ⟨tbl', r, hr, hcases⟩ := ih h hin (hrev.skip hu) (hp.imp_right fun hnone x hx => by
        rcases mem_cons.1 hx with rfl | hx
        · exact hu
        · exact hnone x hx)
      refine ⟨tbl', r, hr, hcases.imp_left fun ⟨h1, h2⟩ => ⟨h1, fun k => ?_⟩⟩
      rw [h2, undoNet_cons, if_neg (by simp [hu]), zero_add]
    | true =>
      rw [if_pos rfl]
      have hd := neg_ne_zero.2 (sop.undoes_ne hu)
      rcases semundoAdjust_cases h p semid sop.semNum hd with
        ⟨hnp, hr⟩ | ⟨tbl₁, r₁, hr, h₁, hp₁, -, hadj⟩
      · obtain ⟨tbl', hr', hperm⟩ := hrev tbl h hp (.refl _)
        rw [hr]
        simp only [failUndos, hr']; exact ⟨tbl', _, rfl, .inr ⟨.inr (.inr rfl), hperm⟩⟩
      · rw [hr]
        rcases hadj.ret with rfl | ⟨heq, he⟩
        · have hin₁ : ∀ e ∈ entOf p tbl₁, InRange info e.unAdjval := by
            intro e he
            rcases hadj.mem he with he | ⟨-, he⟩
            · exact hin e he
            · exact he
          obtain ⟨tbl', r, hr', hcases⟩ :=
            ih h₁ hin₁ (hrev.cons hu (h.entOk p) hin hadj) (.inl hp₁)
          refine ⟨tbl', r, hr', hcases.imp_left fun ⟨h1, h2⟩ => ⟨h1, fun k => ?_⟩⟩
          rw [h2, hadj.adjval_eq, undoNet_cons]
          simp only [hu, true_and]
          split_ifs <;> omega
        · obtain ⟨tbl', hr', hperm⟩ := hrev tbl₁ h₁ (.inl hp₁) (by rw [heq])
          rcases he with rfl | rfl
          · simp only [failUndos, hr']; exact ⟨tbl', _, rfl, .inr ⟨.inl rfl, hperm⟩⟩
          · simp only [failUndos, hr']; exact ⟨tbl', _, rfl, .inr ⟨.inr (.inl rfl), hperm⟩⟩

/-- The adjustments end with success, an error or a panic. -/
theorem applyUndos_ret (h : TblOk info tbl) : (applyUndos info p semid applied sops tbl).2 = .ok 0 ∨
      (∃ e, (applyUndos info p semid applied sops tbl).2 = .err e) ∨
      ∃ msg, (applyUndos info p semid applied sops tbl).2 = .panic msg := by
  have hrev : ∀ (applied : List Sembuf) (tbl : List SemUndo), TblOk info tbl →
      (revertUndos info p semid applied tbl).2 = .ok 0 ∨
        ∃ msg, (revertUndos info p semid applied tbl).2 = .panic msg := by
    intro applied
    induction applied with
    | nil => exact fun _ _ => .inl rfl
    | cons sop applied ih =>
      intro tbl h
      rw [revertUndos]
      split_ifs with hu
      · rcases semundoAdjust_cases h p semid sop.semNum (sop.undoes_ne hu) with
          ⟨-, hr⟩ | ⟨tbl', r, hr, h', -, -, hadj⟩
        · rw [hr]; exact .inr ⟨_, rfl⟩
        · rw [hr]
          rcases hadj.ret with rfl | ⟨-, rfl | rfl⟩
          · exact ih tbl' h'
          · exact .inr ⟨_, rfl⟩
          · exact .inr ⟨_, rfl⟩
      · exact ih tbl h
  have herr : ∀ (applied : List Sembuf) (tbl : List SemUndo) (e : Errno), TblOk info tbl →
      (failUndos info p semid applied (.err e) tbl).2 = .ok 0 ∨
        (∃ e', (failUndos info p semid applied (.err e) tbl).2 = .err e') ∨
        ∃ msg, (failUndos info p semid applied (.err e) tbl).2 = .panic msg := by
    intro applied tbl e h
    unfold failUndos
    cases hr : revertUndos info p semid applied tbl with
    | mk tbl' r =>
      have hret := hrev applied tbl h
      rw [hr] at hret
      rcases hret with rfl | ⟨msg, rfl⟩
      · exact .inr (.inl ⟨e, rfl⟩)
      · exact .inr (.inr ⟨msg, rfl⟩)
  induction sops generalizing tbl applied with
  | nil => exact .inl rfl
  | cons sop sops ih =>
    rw [applyUndos]
    split_ifs with hu
    · rcases semundoAdjust_cases h p semid sop.semNum (neg_ne_zero.2 (sop.undoes_ne hu)) with
        ⟨-, hr⟩ | ⟨tbl', r, hr, h', -, -, hadj⟩
      · rw [hr]; exact herr applied tbl _ h
      · rw [hr]
        rcases hadj.ret with rfl | ⟨-, rfl | rfl⟩
        · exact ih h'
        · exact herr applied tbl' _ h'
        · exact herr applied tbl' _ h'
    · exact ih h

/-! ## The attempt -/

/-- The undo table and the answer after the adjustments for the call `c`. -/
def undone (info : Seminfo) (s : Sys) (c : Semop) : List SemUndo × Ret :=
  if c.doUndos then applyUndos info c.td.tdProc (ipcidToIx c.semid) [] c.sops s.semuList
  else (s.semuList, .ok 0)

/-- The pass over the vector of the call `c`. -/
def passOf (info : Seminfo) (s : Sys) (c : Semop) : Pass :=
  pass info (s.sema (ipcidToIx c.semid)).semBase s.sem false 0 c.sops

/-- The ways in which an attempt of `semop` ends. -/
inductive Tried (info : Seminfo) (s : Sys) (c : Semop) : Sys → Ret → Prop
  | refused (e : Errno)
      (hstop : e = .erange ∧ (passOf info s c).stop = .erange ∨
        e = .eagain ∧ ∃ sop, (passOf info s c).stop = .wait sop ∧ sop.ipcNowait = true) :
      Tried info s c s (.err e)
  | slept (sopptr : Sembuf) (hstop : (passOf info s c).stop = .wait sopptr)
      (hwait : sopptr.ipcNowait = false) :
      Tried info s c
        { s with
          sem := modSem s.sem ((s.sema (ipcidToIx c.semid)).semBase + sopptr.semNum)
            (countUp sopptr)
          sleepers := s.sleepers ++
            [⟨c, sopptr, (s.sema (ipcidToIx c.semid)).semBase + sopptr.semNum, false⟩] } .asleep
  | full (e : Errno) (hstop : (passOf info s c).stop = .through)
      (hundo : (undone info s c).2 = .err e) :
      Tried info s c { s with semuList := (undone info s c).1 } (.err e)
  | stuck (msg : String) (hstop : (passOf info s c).stop = .through)
      (hundo : (undone info s c).2 = .panic msg) :
      Tried info s c { s with sem := (passOf info s c).sem, semuList := (undone info s c).1 }
        (.panic msg)
  | done (hstop : (passOf info s c).stop = .through) (hundo : (undone info s c).2 = .ok 0) :
      Tried info s c
        (let t := { s with
            sem := setPids (s.sema (ipcidToIx c.semid)).semBase c.td.tdProc c.sops
              (passOf info s c).sem
            semuList := (undone info s c).1 }
          if (passOf info s c).doWakeup then t.wakeup (ipcidToIx c.semid) else t) (.ok 0)

theorem semopTry_tried {s : Sys} (h : TblOk info s.semuList) (c : Semop) :
    Tried info s c (semopTry info s c).1 (semopTry info s c).2 := by
  have hrolled : rollback (s.sema (ipcidToIx c.semid)).semBase (c.sops.take (passOf info s c).i)
      (passOf info s c).sem = s.sem :=
    rollback_pass info (s.sema (ipcidToIx c.semid)).semBase s.sem false 0 c.sops
  have hself : { s with sem := s.sem } = s := rfl
  unfold semopTry
  simp only
  rw [show pass info (s.sema (ipcidToIx c.semid)).semBase s.sem false 0 c.sops = passOf info s c
    from rfl, hrolled, hself]
  cases hstop : (passOf info s c).stop with
  | through =>
    have hi : (passOf info s c).i = c.sops.length := by
      have := pass_i info (s.sema (ipcidToIx c.semid)).semBase s.sem false 0 c.sops hstop
      rwa [zero_add] at this
    rw [hi, take_length] at hrolled
    have hundone : (undone info s c).2 = .ok 0 ∨ (∃ e, (undone info s c).2 = .err e) ∨
        ∃ msg, (undone info s c).2 = .panic msg := by
      unfold undone
      split_ifs
      · exact applyUndos_ret h
      · exact .inl rfl
    simp only [semopDone]
    rw [show (if c.doUndos = true then
        applyUndos info c.td.tdProc (ipcidToIx c.semid) [] c.sops s.semuList
      else (s.semuList, Ret.ok 0)) = undone info s c from rfl]
    rcases hundone with hr | ⟨e, hr⟩ | ⟨msg, hr⟩ <;> simp only [hr]
    · exact .done hstop hr
    · rw [hrolled]; exact .full e hstop hr
    · exact .stuck msg hstop hr
  | wait sopptr =>
    simp only
    split_ifs with hw
    · exact .refused _ (.inr ⟨rfl, sopptr, hstop, hw⟩)
    · exact .slept sopptr hstop (Bool.eq_false_iff.2 hw)
  | erange => exact .refused _ (.inl ⟨rfl, hstop⟩)

/-- A call that falls asleep is counted and waits. -/
theorem Tried.of_asleep {s t : Sys} {c : Semop} (h : Tried info s c t .asleep) :
    ∃ sopptr, (passOf info s c).stop = .wait sopptr ∧ t = { s with
      sem := modSem s.sem ((s.sema (ipcidToIx c.semid)).semBase + sopptr.semNum) (countUp sopptr)
      sleepers := s.sleepers ++
        [⟨c, sopptr, (s.sema (ipcidToIx c.semid)).semBase + sopptr.semNum, false⟩] } := by
  cases h with
  | slept sopptr hstop hwait => exact ⟨sopptr, hstop, rfl⟩

/-! ## The call -/

/-- The errors of the checks before the first attempt. -/
def checkErrors : List Errno := [.enosys, .einval, .e2big, .efbig, .eperm, .eacces]

theorem ipcperm_errors {td : Thread} {perm : IpcPerm} {mode : BitVec 16} {e : Errno}
    (h : ipcperm td perm mode = some e) : e = .eperm ∨ e = .eacces := by
  simp only [ipcperm] at h
  split_ifs at h <;> simp_all

theorem ipcperm_suser {td : Thread} (h : td.tdUcred.suser = true) (perm : IpcPerm)
    (mode : BitVec 16) : ipcperm td perm mode = none := by
  simp [ipcperm, h]

/-- The checks before the first attempt let the call through. -/
structure Admitted (info : Seminfo) (s : Sys) (td : Thread) (semid : ℤ) (sops : List Sembuf) :
    Prop where
  free : td.tdUcred.jailed = false
  index : ipcidToIx semid < info.semmni
  length : sops.length ≤ info.semopm
  valid : semvalid semid (s.sema (ipcidToIx semid)) = true
  nums : ∀ sop ∈ sops, sop.semNum < (s.sema (ipcidToIx semid)).semNsems
  perm : ipcperm td (s.sema (ipcidToIx semid)).semPerm (permNeeded sops) = none

/-- A call is refused by the checks, or attempts its vector. -/
theorem semop_cases (info : Seminfo) (s : Sys) (td : Thread) (semid : ℤ) (sops : List Sembuf) :
    (∃ e ∈ checkErrors, s.semop info td semid sops = (s, .err e)) ∨
    (Admitted info s td semid sops ∧
      s.semop info td semid sops = semopTry info s ⟨td, semid, sops, sops.any (·.undoes)⟩) := by
  unfold semop
  simp only
  split_ifs with hjail hix hlen hvalid hnum
  · exact .inl ⟨_, by simp [checkErrors], rfl⟩
  · exact .inl ⟨_, by simp [checkErrors], rfl⟩
  · exact .inl ⟨_, by simp [checkErrors], rfl⟩
  · exact .inl ⟨_, by simp [checkErrors], rfl⟩
  · exact .inl ⟨_, by simp [checkErrors], rfl⟩
  · split
    · next e he =>
      refine .inl ⟨e, ?_, rfl⟩
      rcases ipcperm_errors he with rfl | rfl <;> simp [checkErrors]
    · next hperm =>
      refine .inr ⟨⟨by simpa using hjail, by omega, by omega, by simpa using hvalid,
        fun sop hsop => ?_, hperm⟩, rfl⟩
      by_contra hge
      exact hnum (any_eq_true.2 ⟨sop, hsop, by simpa using hge⟩)

/-- A call that sleeps gives up for a signal or as its set has gone, or it attempts its vector
    again. -/
theorem semopWoken_cases (info : Seminfo) (s : Sys) (w : Sleeper) (intr : Bool) :
    (∃ e, (e = .eintr ∧ intr = true ∨
        e = .eidrm ∧ semvalid w.call.semid (s.sema (ipcidToIx w.call.semid)) = false) ∧
      semopWoken info s w intr = (s, .err e)) ∨
    (intr = false ∧ semvalid w.call.semid (s.sema (ipcidToIx w.call.semid)) = true ∧
      semopWoken info s w intr =
        semopTry info { s with sem := modSem s.sem w.semptr (countDown w.sopptr) } w.call) := by
  unfold semopWoken
  split_ifs with hintr hvalid
  · exact .inl ⟨_, .inl ⟨rfl, hintr⟩, rfl⟩
  · exact .inl ⟨_, .inr ⟨rfl, by simpa using hvalid⟩, rfl⟩
  · exact .inr ⟨by simpa using hintr, by simpa using hvalid, rfl⟩

/-! What the other assignments of an attempt leave alone. -/

@[simp] theorem countUp_semval (sopptr : Sembuf) (semptr : Sem) :
    (countUp sopptr semptr).semval = semptr.semval := by
  unfold countUp
  split_ifs <;> rfl

@[simp] theorem countDown_semval (sopptr : Sembuf) (semptr : Sem) :
    (countDown sopptr semptr).semval = semptr.semval := by
  unfold countDown
  split_ifs <;> rfl

theorem modSem_semval {f : Sem → Sem} (hf : ∀ x, (f x).semval = x.semval) (sem : ℕ → Sem)
    (k j : ℕ) :
    (modSem sem k f j).semval = (sem j).semval := by
  rw [modSem_apply]
  split_ifs with h
  · rw [hf, h]
  · rfl

/-- `sempid` is all that changes at the end. -/
theorem setPids_apply (base pid : ℕ) (sops : List Sembuf) (sem : ℕ → Sem) (k : ℕ) :
    setPids base pid sops sem k = { sem k with sempid :=
      (setPids base pid sops sem k).sempid } := by
  induction sops generalizing sem with
  | nil => rfl
  | cons sop sops ih =>
    show setPids base pid sops (modSem sem _ _) k = _
    have hk : modSem sem (base + sop.semNum) ({ · with sempid := pid }) k =
        { sem k with sempid := (modSem sem (base + sop.semNum)
          ({ · with sempid := pid }) k).sempid } := by
      rw [modSem_apply]
      split_ifs with h
      · rw [h]
      · rfl
    rw [ih, hk]; rfl

@[simp] theorem wakeup_sema (s : Sys) (ix : ℕ) : (s.wakeup ix).sema = s.sema := rfl
@[simp] theorem wakeup_sem (s : Sys) (ix : ℕ) : (s.wakeup ix).sem = s.sem := rfl
@[simp] theorem wakeup_semtot (s : Sys) (ix : ℕ) : (s.wakeup ix).semtot = s.semtot := rfl
@[simp] theorem wakeup_semuList (s : Sys) (ix : ℕ) : (s.wakeup ix).semuList = s.semuList := rfl

end Sys

end FreeBSD.SysvSem
