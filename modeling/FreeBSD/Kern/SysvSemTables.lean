import FreeBSD.Kern.SysvSemOps
import FreeBSD.Lib.Runs
import FreeBSD.Lib.Tiling

/-!
# The tables over a run

The sets tile the pool and every undo entry is for a semaphore that exists (`Inv`). The invariant
covers the calls that sleep too: a call whose set is still the one that it named has checked the
numbers in its vector. `semget` breaks that when the sequence number of a slot, which has 15 bits,
comes round to that of a call which still sleeps there.

Results:
* `step_change`: what each step can do.
-/

namespace FreeBSD.SysvSem

open List Function BitVec
open Lib (Tiling Runs)

namespace Sys

/-! ## What the calls do -/

/-- `semget` creates a set in slot `ix`. -/
def Creates (info : Seminfo) (s : Sys) (key nsems : ℤ) (semflg : BitVec 16) (ix : ℕ) : Prop :=
  (key = 0 ∨ s.findSema info (fun d => d.allocated && d.semPerm.key == key) = none ∧
      semflg &&& 0o1000 ≠ 0) ∧
    0 < nsems ∧ nsems ≤ info.semmsl ∧ nsems ≤ (info.semmns : ℤ) - s.semtot ∧
    s.findSema info (fun d => !d.allocated) = some ix

theorem semget_cases (info : Seminfo) (s : Sys) (td : Thread) (key nsems : ℤ)
    (semflg : BitVec 16) :
    (s.semget info td key nsems semflg).1 = s ∨
    ∃ ix, Creates info s key nsems semflg ix ∧
      (s.semget info td key nsems semflg).1 = s.create td.tdUcred ix key nsems.toNat semflg := by
  unfold semget
  by_cases hjail : td.tdUcred.jailed = true
  · exact .inl (by simp only [if_pos hjail])
  · simp only [if_neg hjail]
    cases hfound : (if key = 0 then none
        else s.findSema info fun d => d.allocated && d.semPerm.key == key) with
    | some semid =>
      left
      simp only
      split
      · rfl
      · split_ifs <;> rfl
    | none =>
      simp only
      split_ifs with hcreat h1 h2
      · exact .inl rfl
      · exact .inl rfl
      · split
        · exact .inl rfl
        · next ix hix =>
          refine .inr ⟨ix, ⟨?_, by omega, by omega, by omega, hix⟩, rfl⟩
          by_cases hkey : key = 0
          · exact .inl hkey
          · rw [if_neg hkey] at hfound; exact .inr ⟨hfound, hcreat.resolve_left hkey⟩
      · exact .inl rfl

theorem setall_apply (info : Seminfo) (base : ℕ) (array : ℕ → UInt16) (sem : ℕ → Sem) (n i k : ℕ) :
    (setall info base array sem n i).1 k =
        { sem k with semval := ((setall info base array sem n i).1 k).semval } ∧
      ((sem k).semval.toNat ≤ info.semvmx →
        ((setall info base array sem n i).1 k).semval.toNat ≤ info.semvmx) := by
  induction n generalizing sem i with
  | zero => exact ⟨rfl, id⟩
  | succ n ih =>
    rw [setall]
    split_ifs with hbig
    · exact ⟨rfl, id⟩
    · obtain ⟨h1, h2⟩ := ih (modSem sem (base + i) ({ · with semval := array i })) (i + 1)
      rw [modSem_apply] at h1 h2
      refine ⟨?_, fun hle => h2 ?_⟩
      · rw [h1]
        split_ifs with hk
        · rw [hk]
        · rfl
      · split_ifs with hk
        · exact Nat.le_of_not_lt hbig
        · exact hle

/-- `__semctl` changes nothing, removes a set, changes its permissions, or changes values of a set
    and clears undo entries. -/
theorem semctl_cases (info : Seminfo) (s : Sys) (td : Thread) (semid : ℤ) (cmd : Cmd) :
    (s.semctl info td semid cmd).1 = s ∨
    (semvalid semid (s.sema (ipcidToIx semid)) = true ∧ cmd = .ipcRmid ∧
      (s.semctl info td semid cmd).1 = s.rmid td (ipcidToIx semid)) ∨
    (∃ uid gid mode, semvalid semid (s.sema (ipcidToIx semid)) = true ∧ cmd = .ipcSet uid gid mode ∧
      (s.semctl info td semid cmd).1 = s.setSema (ipcidToIx semid)
        { s.sema (ipcidToIx semid) with semPerm :=
          { (s.sema (ipcidToIx semid)).semPerm with
            uid := uid
            gid := gid
            mode := (s.sema (ipcidToIx semid)).semPerm.mode &&& ~~~0o777 ||| mode &&& 0o777 } }) ∨
    (∃ sem semnum, cmd ≠ .ipcRmid ∧ (∀ k, sem k = { s.sem k with semval := (sem k).semval }) ∧
      (∀ k, (s.sem k).semval.toNat ≤ info.semvmx → (sem k).semval.toNat ≤ info.semvmx) ∧
      (s.semctl info td semid cmd).1 =
        wakeup { s with
          sem := sem
          semuList := semundoClear (ipcidToIx semid) semnum s.semuList } (ipcidToIx semid)) := by
  have hget : ∀ semnum field, (s.get (ipcidToIx semid) semnum field).1 = s := by
    intro semnum field
    unfold get
    split_ifs <;> rfl
  unfold semctl
  simp only
  split_ifs with hjail hix hvalid
  · exact .inl rfl
  · exact .inl rfl
  · exact .inl rfl
  · have hv : semvalid semid (s.sema (ipcidToIx semid)) = true := by simpa using hvalid
    split
    · exact .inl rfl
    · cases cmd with
      | ipcRmid => exact .inr (.inl ⟨hv, rfl, rfl⟩)
      | ipcSet uid gid mode => exact .inr (.inr (.inl ⟨uid, gid, mode, hv, rfl, rfl⟩))
      | getncnt semnum => exact .inl (hget _ _)
      | getpid semnum => exact .inl (hget _ _)
      | getval semnum => exact .inl (hget _ _)
      | getzcnt semnum => exact .inl (hget _ _)
      | setval semnum val =>
        simp only
        split_ifs with h1 h2
        · exact .inl rfl
        · exact .inl rfl
        · refine .inr (.inr (.inr ⟨_, _, by simp, fun k => ?_, fun k hk => ?_, rfl⟩))
          · rw [modSem_apply]
            split_ifs with h
            · rw [h]
            · rfl
          · rw [modSem_apply]
            split_ifs with h
            · have := info.semvmx_le
              have := toNat_ofInt_of_lt (z := val) (by omega) (by omega)
              show (UInt16.ofInt val).toNat ≤ info.semvmx
              omega
            · exact hk
      | setall array =>
        refine .inr (.inr (.inr ⟨_, _, by simp, fun k => ?_, fun k hk => ?_, rfl⟩))
        · exact (setall_apply info _ array s.sem _ 0 k).1
        · exact (setall_apply info _ array s.sem _ 0 k).2 hk

/-! ## Steps -/

/-- What a step does to the state, by its operation. -/
inductive Change (info : Seminfo) (s : Sys) : Op → Sys → Ret → Prop
  | idle (op : Op) (r : Ret) (hop : ∀ p, op ≠ .exit p) : Change info s op s r
  | create (td : Thread) (key nsems : ℤ) (semflg : BitVec 16) (ix : ℕ) (r : Ret)
      (hcreates : Creates info s key nsems semflg ix) :
      Change info s (.semget td key nsems semflg) (s.create td.tdUcred ix key nsems.toNat semflg) r
  | remove (td : Thread) (semid : ℤ) (r : Ret)
      (hvalid : semvalid semid (s.sema (ipcidToIx semid)) = true) :
      Change info s (.semctl td semid .ipcRmid) (s.rmid td (ipcidToIx semid)) r
  | chmod (td : Thread) (semid : ℤ) (uid gid : ℕ) (mode : BitVec 16) (r : Ret)
      (hvalid : semvalid semid (s.sema (ipcidToIx semid)) = true) :
      Change info s (.semctl td semid (.ipcSet uid gid mode)) (s.setSema (ipcidToIx semid)
        { s.sema (ipcidToIx semid) with semPerm :=
          { (s.sema (ipcidToIx semid)).semPerm with
            uid := uid
            gid := gid
            mode := (s.sema (ipcidToIx semid)).semPerm.mode &&& ~~~0o777 ||| mode &&& 0o777 } }) r
  | assign (td : Thread) (semid : ℤ) (cmd : Cmd) (sem : ℕ → Sem) (semnum : Option ℕ) (r : Ret)
      (hcmd : cmd ≠ .ipcRmid)
      (hcounts : ∀ k, sem k = { s.sem k with semval := (sem k).semval })
      (hle : ∀ k, (s.sem k).semval.toNat ≤ info.semvmx → (sem k).semval.toNat ≤ info.semvmx) :
      Change info s (.semctl td semid cmd)
        (wakeup { s with
          sem := sem
          semuList := semundoClear (ipcidToIx semid) semnum s.semuList } (ipcidToIx semid)) r
  | start (td : Thread) (semid : ℤ) (sops : List Sembuf) (t : Sys) (r : Ret)
      (hadmitted : Admitted info s td semid sops)
      (htried : Tried info s ⟨td, semid, sops, sops.any (·.undoes)⟩ t r) :
      Change info s (.semop td semid sops) t r
  | giveUp (tid : ℕ) (intr : Bool) (w : Sleeper) (e : Errno) (hw : w ∈ s.sleepers)
      (htid : s.sleepers.find? (·.call.td.tid == tid) = some w)
      (hwhy : intr = true ∨ semvalid w.call.semid (s.sema (ipcidToIx w.call.semid)) = false) :
      Change info s (.resume tid intr) { s with sleepers := s.sleepers.erase w } (.err e)
  | retry (tid : ℕ) (w : Sleeper) (t : Sys) (r : Ret) (hw : w ∈ s.sleepers)
      (htid : s.sleepers.find? (·.call.td.tid == tid) = some w) (hawake : w.awake = true)
      (hvalid : semvalid w.call.semid (s.sema (ipcidToIx w.call.semid)) = true)
      (htried : Tried info
        { s with
          sem := modSem s.sem w.semptr (countDown w.sopptr)
          sleepers := s.sleepers.erase w } w.call t r) :
      Change info s (.resume tid false) t r
  | exit (p : ℕ) (t : Sys) (r : Ret) (hexit : s.semexit p = (t, r)) : Change info s (.exit p) t r

variable {info : Seminfo} {s t : Sys} {r : Ret} {ix j : ℕ}

theorem step_change {op : Op} (h : TblOk info s.semuList)
    (hstep : s.step info op = some (t, r)) : Change info s op t r := by
  cases op with
  | semget td key nsems semflg =>
    simp only [step, Option.ite_none_right_eq_some, Option.some.injEq] at hstep
    have ht := congrArg Prod.fst hstep.2
    rcases semget_cases info s td key nsems semflg with hr | ⟨ix, hc, hr⟩
    · obtain rfl : s = t := hr.symm.trans ht
      exact .idle _ r (by simp)
    · obtain rfl : _ = t := hr.symm.trans ht
      exact .create td key nsems semflg ix r hc
  | semctl td semid cmd =>
    simp only [step, Option.ite_none_right_eq_some, Option.some.injEq] at hstep
    have ht := congrArg Prod.fst hstep.2
    rcases semctl_cases info s td semid cmd with hr | ⟨hv, rfl, hr⟩ |
      ⟨uid, gid, mode, hv, rfl, hr⟩ |
      ⟨sem, semnum, hcmd, h1, h2, hr⟩
    · obtain rfl : s = t := hr.symm.trans ht
      exact .idle _ r (by simp)
    · obtain rfl : _ = t := hr.symm.trans ht
      exact .remove td semid r hv
    · obtain rfl : _ = t := hr.symm.trans ht
      exact .chmod td semid uid gid mode r hv
    · obtain rfl : _ = t := hr.symm.trans ht
      exact .assign td semid cmd sem semnum r hcmd h1 h2
  | semop td semid sops =>
    simp only [step, Option.ite_none_right_eq_some, Option.some.injEq] at hstep
    rcases semop_cases info s td semid sops with ⟨e, -, hr⟩ | ⟨hadmitted, hr⟩
    · obtain ⟨rfl, rfl⟩ := Prod.mk.inj (hr.symm.trans hstep.2)
      exact .idle _ _ (by simp)
    · have htried := semopTry_tried h ⟨td, semid, sops, sops.any (·.undoes)⟩
      rw [← hr, hstep.2] at htried; exact .start td semid sops t r hadmitted htried
  | resume tid intr =>
    simp only [step] at hstep
    split at hstep
    · cases hstep
    · next w hw =>
      have hmem := mem_of_find?_eq_some hw
      split_ifs at hstep with hawake
      simp only [Option.some.injEq] at hstep
      rcases semopWoken_cases info { s with sleepers := s.sleepers.erase w } w intr with
        ⟨e, he, hr⟩ | ⟨rfl, hv, hr⟩
      · obtain ⟨rfl, rfl⟩ := Prod.mk.inj (hr.symm.trans hstep)
        exact .giveUp tid intr w e hmem hw (he.imp And.right And.right)
      · have htried := semopTry_tried
          (s := { s with
            sem := modSem s.sem w.semptr (countDown w.sopptr)
            sleepers := s.sleepers.erase w }) h w.call
        rw [show { s with
            sem := modSem s.sem w.semptr (countDown w.sopptr)
            sleepers := s.sleepers.erase w } =
          ({ ({ s with sleepers := s.sleepers.erase w } : Sys) with
            sem := modSem ({ s with sleepers := s.sleepers.erase w } : Sys).sem w.semptr
              (countDown w.sopptr) } : Sys) from rfl, ← hr, hstep] at htried
        exact .retry tid w t r hmem hw (by simpa using hawake) hv htried
  | exit p =>
    simp only [step, Option.ite_none_right_eq_some, Option.some.injEq] at hstep
    exact .exit p t r hstep.2

/-! ## Permissions and allocation -/

theorem allocated_create (semflg : BitVec 16) :
    (semflg &&& 0o777 ||| semAlloc) &&& semAlloc = semAlloc := by
  apply eq_of_getLsbD_eq
  intro i hi
  simp only [getLsbD_and, getLsbD_or]
  cases semAlloc.getLsbD i <;> simp

theorem allocated_chmod (mode mode' : BitVec 16) :
    (mode &&& ~~~0o777 ||| mode' &&& 0o777) &&& semAlloc = mode &&& semAlloc := by
  apply eq_of_getLsbD_eq
  intro i hi
  have hoff : ∀ i < 16, semAlloc.getLsbD i = true → (0o777 : BitVec 16).getLsbD i =
    false := by decide
  simp only [getLsbD_and, getLsbD_or, getLsbD_not]
  cases ha : semAlloc.getLsbD i with
  | false => simp
  | true =>
    rw [hoff i hi ha]; simp [hi]

theorem findSema_some {p : SemidDs → Bool} (h : s.findSema info p = some ix) :
    p (s.sema ix) = true ∧ ix < info.semmni :=
  ⟨List.find?_some (p := fun ix => p (s.sema ix)) h, mem_range.1 (mem_of_find?_eq_some h)⟩

/-! What `semget`, `IPC_RMID` and `IPC_SET` leave in the slots. -/

theorem create_sema_self (s : Sys) (cred : Cred) (ix : ℕ) (key : ℤ) (n : ℕ) (semflg : BitVec 16) :
    ((s.create cred ix key n semflg).sema ix).allocated = true ∧
      ((s.create cred ix key n semflg).sema ix).semBase = s.semtot ∧
      ((s.create cred ix key n semflg).sema ix).semNsems = n ∧
      ((s.create cred ix key n semflg).sema ix).semPerm.seq =
        ((s.sema ix).semPerm.seq + 1) &&& 0x7fff := by
  simp only [create, setSema, update_self]
  refine ⟨?_, trivial, trivial, trivial⟩
  simp only [SemidDs.allocated, allocated_create]; decide

theorem create_sema_of_ne (s : Sys) (cred : Cred) (hj : j ≠ ix) (key : ℤ) (n : ℕ)
    (semflg : BitVec 16) : (s.create cred ix key n semflg).sema j = s.sema j := by
  simp only [create, setSema, update_of_ne hj]

theorem rmid_sema_self (s : Sys) (td : Thread) (ix : ℕ) :
    ((s.rmid td ix).sema ix).allocated = false := by
  simp only [rmid, wakeup_sema, update_self, SemidDs.allocated]; decide

theorem rmid_sema_of_ne (s : Sys) (td : Thread) (hj : j ≠ ix) : (s.rmid td ix).sema j =
      if (s.sema j).allocated = true ∧ (s.sema ix).semBase < (s.sema j).semBase then
        { s.sema j with semBase := (s.sema j).semBase - (s.sema ix).semNsems }
      else s.sema j := by
  simp only [rmid, wakeup_sema, update_of_ne hj, gt_iff_lt]

theorem rmid_base_of_ne (s : Sys) (td : Thread) (hj : j ≠ ix)
    (hlive : (s.sema j).allocated = true) :
    ((s.rmid td ix).sema j).semBase = if (s.sema ix).semBase < (s.sema j).semBase then
      (s.sema j).semBase - (s.sema ix).semNsems else (s.sema j).semBase := by
  rw [rmid_sema_of_ne s td hj]
  simp only [hlive, true_and]
  split_ifs <;> rfl

theorem rmid_perm_of_ne (s : Sys) (td : Thread) (hj : j ≠ ix) :
    ((s.rmid td ix).sema j).semPerm = (s.sema j).semPerm ∧
      ((s.rmid td ix).sema j).semNsems = (s.sema j).semNsems := by
  rw [rmid_sema_of_ne s td hj]
  split_ifs <;> exact ⟨rfl, rfl⟩

theorem rmid_allocated_of_ne (s : Sys) (td : Thread) (hj : j ≠ ix) :
    ((s.rmid td ix).sema j).allocated = (s.sema j).allocated := by
  simp only [SemidDs.allocated, (rmid_perm_of_ne s td hj).1]

/-- The semaphores behind a removed set move to the front. -/
theorem compact_apply (base nsems semtot : ℕ) (sem : ℕ → Sem) (k : ℕ) :
    compact base nsems semtot sem k =
      if base ≤ k ∧ k < semtot then sem (k + nsems) else sem k := by
  have hloop : ∀ m, (List.range' base m).foldl
      (fun sem i => Function.update sem i (sem (i + nsems))) sem =
      fun k => if base ≤ k ∧ k < base + m then sem (k + nsems) else sem k := by
    intro m
    induction m with
    | zero =>
      funext k
      rw [if_neg (by omega)]
      rfl
    | succ m ih =>
      rw [List.range'_concat, foldl_concat, ih]
      funext k
      rw [update_apply, Nat.one_mul]
      rcases Nat.lt_trichotomy k (base + m) with hk | rfl | hk
      · simp only [if_neg hk.ne]
        split_ifs <;> first | rfl | omega
      · rw [if_pos rfl, if_pos (by omega)]
        exact if_neg (by omega)
      · simp only [if_neg hk.ne']
        rw [if_neg (by omega), if_neg (by omega)]
  unfold compact
  rw [hloop]
  simp only
  by_cases h : base ≤ k ∧ k < semtot
  · rw [if_pos (by omega), if_pos h]
  · rw [if_neg (by omega), if_neg h]

/-! ## Calls that sleep -/

/-- The calls inside `msleep`. -/
def calls (s : Sys) : List Semop := s.sleepers.map (·.call)

/-- The sleepers, without whether they have been woken up. -/
def slept (s : Sys) : List Sleeper := s.sleepers.map ({ · with awake := false })

theorem calls_eq (s : Sys) : s.calls = s.slept.map (·.call) := by
  rw [slept, map_map]; rfl

@[simp] theorem wakeup_slept (s : Sys) (ix : ℕ) : (s.wakeup ix).slept = s.slept := by
  simp only [slept, wakeup, map_map]
  congr 1
  funext w
  simp only [comp_apply]
  split_ifs <;> rfl

@[simp] theorem wakeup_calls (s : Sys) (ix : ℕ) : (s.wakeup ix).calls = s.calls := by
  rw [calls_eq, wakeup_slept, ← calls_eq]

@[simp] theorem rmid_calls (s : Sys) (td : Thread) (ix : ℕ) : (s.rmid td ix).calls = s.calls :=
  wakeup_calls _ _

/-! ## Exit -/

/-- Nobody is counted at one semaphore who is not at the other. -/
def SameCounts (x y : Sem) : Prop := x.semncnt = y.semncnt ∧ x.semzcnt = y.semzcnt

theorem SameCounts.trans {x y z : Sem} (h : SameCounts x y) (h' : SameCounts y z) :
    SameCounts x z := ⟨h.1.trans h'.1, h.2.trans h'.2⟩

/-- The exit of a process changes values and the undo table only. -/
theorem exitEnt_frame (s : Sys) (ents : List Undo) :
    (s.exitEnt ents).1.sema = s.sema ∧ (s.exitEnt ents).1.semtot = s.semtot ∧
      (s.exitEnt ents).1.semuList = s.semuList ∧ (s.exitEnt ents).1.slept = s.slept ∧
      ∀ k, SameCounts ((s.exitEnt ents).1.sem k) (s.sem k) := by
  induction ents generalizing s with
  | nil => exact ⟨rfl, rfl, rfl, rfl, fun _ => ⟨rfl, rfl⟩⟩
  | cons e ents ih =>
    rw [exitEnt]
    split_ifs
    · exact ⟨rfl, rfl, rfl, rfl, fun _ => ⟨rfl, rfl⟩⟩
    · exact ⟨rfl, rfl, rfl, rfl, fun _ => ⟨rfl, rfl⟩⟩
    · obtain ⟨h1, h2, h3, h4, h5⟩ := ih (wakeup { s with
        sem := modSem s.sem ((s.sema e.unId).semBase + e.unNum) fun semptr =>
          { semptr with semval := exitVal e.unAdjval semptr.semval } } e.unId)
      refine ⟨h1, h2, h3, h4.trans (wakeup_slept _ _), fun k => (h5 k).trans ?_⟩
      show SameCounts (modSem s.sem _ _ k) (s.sem k)
      rw [modSem_apply]
      split_ifs with hk
      · rw [hk]; exact ⟨rfl, rfl⟩
      · exact ⟨rfl, rfl⟩

/-- The semaphore of an entry exists. -/
def Live (s : Sys) (e : Undo) : Prop :=
  (s.sema e.unId).allocated = true ∧ e.unNum < (s.sema e.unId).semNsems

/-- An exit whose entries are for semaphores that exist does not panic. -/
theorem exitEnt_ret (s : Sys) {ents : List Undo} (h : ∀ e ∈ ents, s.Live e) :
    (s.exitEnt ents).2 = .ok 0 := by
  induction ents generalizing s with
  | nil => rfl
  | cons e ents ih =>
    obtain ⟨halloc, hnum⟩ := h e mem_cons_self
    rw [exitEnt]
    simp only [halloc, Bool.not_true, Bool.false_eq_true, if_false]
    rw [if_neg (by omega)]
    exact ih _ fun x hx => h x (mem_cons_of_mem _ hx)

/-! ## The slots and the undo table -/

/-- The sets tile the pool and the undo table is as it should be. -/
structure Slots (info : Seminfo) (s : Sys) : Prop where
  tiling : Tiling (fun ix => (s.sema ix).allocated = true) (fun ix => (s.sema ix).semBase)
    (fun ix => (s.sema ix).semNsems) s.semtot
  tbl : TblOk info s.semuList

theorem Slots.init (info : Seminfo) (pool : ℕ → Sem) : Slots info (Sys.init pool) where
  tiling := Tiling.empty fun ix => by
    show ¬ (SemidDs.allocated ⟨⟨0, 0, 0, 0, 0, 0, 0⟩, 0, 0⟩ = true); decide
  tbl := TblOk.nil info

/-- The undo adjustments of an attempt. -/
theorem undone_step (h : TblOk info s.semuList) (c : Semop) :
    UndoStep info c.td.tdProc (ipcidToIx c.semid) c.sops s.semuList (undone info s c).1 := by
  unfold undone
  split_ifs
  · exact applyUndos_step c.td.tdProc (ipcidToIx c.semid) h (nil_subset _) (List.Subset.refl _)
  · exact .refl h

/-- An attempt leaves the slots alone. -/
theorem Tried.frame {c : Semop} (h : Tried info s c t r) : t.sema = s.sema ∧ t.semtot = s.semtot ∧
      (t.semuList = s.semuList ∨ t.semuList = (undone info s c).1) ∧
      ∀ c' ∈ t.calls, c' ∈ s.calls ∨ c' = c := by
  cases h with
  | refused => exact ⟨rfl, rfl, .inl rfl, fun _ hc => .inl hc⟩
  | slept sopptr hstop hwait =>
    refine ⟨rfl, rfl, .inl rfl, fun c' hc' => ?_⟩
    simpa only [calls, map_append, map_cons, map_nil, mem_append,
      mem_singleton] using hc'
  | full => exact ⟨rfl, rfl, .inr rfl, fun _ hc => .inl hc⟩
  | stuck => exact ⟨rfl, rfl, .inr rfl, fun _ hc => .inl hc⟩
  | done =>
    dsimp only
    split_ifs
    · refine ⟨rfl, rfl, .inr rfl, fun c' hc' => .inl ?_⟩
      rwa [wakeup_calls] at hc'
    · exact ⟨rfl, rfl, .inr rfl, fun _ hc => .inl hc⟩

/-- An exit leaves the slots alone and removes one undo structure at most. -/
theorem semexit_frame {p : ℕ} (h : s.semexit p = (t, r)) :
    t.sema = s.sema ∧ t.semtot = s.semtot ∧ t.semuList.Sublist s.semuList ∧ t.slept = s.slept ∧
      t.sem = (if s.semuList.any (·.unProc == p) then (s.exitEnt (entOf p s.semuList)).1.sem
        else s.sem) ∧ ∀ k, SameCounts (t.sem k) (s.sem k) := by
  unfold semexit at h
  split_ifs at h with hany
  · obtain ⟨h1, h2, h3, h4, h5⟩ := exitEnt_frame s (entOf p s.semuList)
    cases hx : s.exitEnt (entOf p s.semuList) with
    | mk u r' =>
      rw [hx] at h h1 h2 h3 h4 h5
      rw [if_pos hany]
      cases r' with
      | ok v =>
        simp only [Prod.mk.injEq] at h
        obtain ⟨rfl, -⟩ := h
        refine ⟨h1, h2, ?_, h4, rfl, h5⟩
        show (u.semuList.eraseP _).Sublist _
        rw [show u.semuList = s.semuList from h3]; exact eraseP_sublist
      | err e =>
        obtain ⟨rfl, -⟩ := Prod.mk.inj h
        exact ⟨h1, h2, h3 ▸ List.Sublist.refl _, h4, rfl, h5⟩
      | panic msg =>
        obtain ⟨rfl, -⟩ := Prod.mk.inj h
        exact ⟨h1, h2, h3 ▸ List.Sublist.refl _, h4, rfl, h5⟩
      | asleep =>
        obtain ⟨rfl, -⟩ := Prod.mk.inj h
        exact ⟨h1, h2, h3 ▸ List.Sublist.refl _, h4, rfl, h5⟩
  · obtain ⟨rfl, -⟩ := Prod.mk.inj h
    rw [if_neg hany]; exact ⟨rfl, rfl, List.Sublist.refl _, rfl, rfl, fun _ => ⟨rfl, rfl⟩⟩

theorem chmod_slot (s : Sys) (ix uid gid : ℕ) (mode : BitVec 16) (j : ℕ) :
    let t := s.setSema ix { s.sema ix with semPerm :=
      { (s.sema ix).semPerm with
        uid := uid
        gid := gid
        mode := (s.sema ix).semPerm.mode &&& ~~~0o777 ||| mode &&& 0o777 } }
    (t.sema j).allocated = (s.sema j).allocated ∧
      (t.sema j).semPerm.seq = (s.sema j).semPerm.seq ∧
      (t.sema j).semBase = (s.sema j).semBase ∧ (t.sema j).semNsems = (s.sema j).semNsems := by
  simp only [setSema, update_apply]
  split_ifs with hj
  · rw [hj]
    refine ⟨?_, rfl, rfl, rfl⟩
    simp only [SemidDs.allocated, allocated_chmod]
  · exact ⟨rfl, rfl, rfl, rfl⟩

namespace Slots
variable {info : Seminfo} {s t : Sys}

theorem of_sema (h : Slots info s) (hsema : t.sema = s.sema) (htot : t.semtot = s.semtot)
    (htbl : TblOk info t.semuList) : Slots info t where
  tiling := by rw [hsema, htot]; exact h.tiling
  tbl := htbl

/-- Two semaphores that exist lie at different places. -/
theorem pos_inj (h : Slots info s) {i j m n : ℕ} (hi : (s.sema i).allocated = true)
    (hj : (s.sema j).allocated = true) (hm : m < (s.sema i).semNsems) (hn : n < (s.sema j).semNsems)
    (hpos : (s.sema i).semBase + m = (s.sema j).semBase + n) : i = j ∧ m = n := by
  obtain rfl : i = j := by
    apply h.tiling.unique (k := (s.sema i).semBase + m) hi hj
    · omega
    · omega
  exact ⟨rfl, by omega⟩

/-- A set is created at the end. -/
theorem create (h : Slots info s) {key nsems : ℤ} {semflg : BitVec 16} {ix : ℕ}
    (hc : Creates info s key nsems semflg ix) (cred : Cred) :
    (s.sema ix).allocated = false ∧ Slots info (s.create cred ix key nsems.toNat semflg) := by
  obtain ⟨-, hpos, -, -, hfind⟩ := hc
  have hfree : (s.sema ix).allocated = false := by simpa using (findSema_some hfind).1
  obtain ⟨h1, h2, h3, -⟩ := create_sema_self s cred ix key nsems.toNat semflg
  have hne := fun {j : ℕ} (hj : j ≠ ix) => create_sema_of_ne s cred hj key nsems.toNat semflg
  have hlive : ∀ j, (s.sema j).allocated = true → j ≠ ix := by
    rintro j hj rfl
    rw [hfree] at hj
    cases hj
  refine ⟨hfree, ?_, h.tbl⟩
  refine h.tiling.append (i := ix) (n := nsems.toNat) (by rw [hfree]; decide) (by omega)
    (fun j => ?_) (fun j hj => ?_) (fun j hj => ?_) h2 h3
  · by_cases hj : j = ix
    · simp only [hj, h1, true_or]
    · simp only [hne hj, hj, false_or]
  · simp only [hne (hlive j hj)]
  · simp only [hne (hlive j hj)]

/-- A set is removed. -/
theorem remove (h : Slots info s) {ix : ℕ} (hix : (s.sema ix).allocated = true) (td : Thread) :
    Slots info (s.rmid td ix) := by
  refine ⟨?_, h.tbl.semundoClear ix none⟩
  refine h.tiling.remove hix (fun j => ?_) (fun j hlj hj => rmid_base_of_ne s td hj hlj)
    (fun j _ hj => (rmid_perm_of_ne s td hj).2)
  by_cases hj : j = ix
  · simp [hj, rmid_sema_self s td ix]
  · simp [hj, rmid_allocated_of_ne s td hj]

/-- Every step keeps the slots tiled. -/
theorem step (h : Slots info s) {op : Op} {r : Ret} (hstep : s.step info op = some (t, r)) :
    Slots info t := by
  have hchange := step_change h.tbl hstep
  have htried : ∀ {s₀ : Sys} {c : Semop}, Slots info s₀ → Tried info s₀ c t r → Slots info t := by
    intro s₀ c h₀ htried
    obtain ⟨h1, h2, h3, -⟩ := htried.frame
    refine h₀.of_sema h1 h2 ?_
    rcases h3 with h3 | h3
    · rw [h3]; exact h₀.tbl
    · rw [h3]; exact (undone_step h₀.tbl c).tblOk
  cases hchange with
  | idle => exact h
  | create td key nsems semflg ix _ hc => exact (h.create hc td.tdUcred).2
  | remove td semid _ hvalid =>
    simp only [semvalid, Bool.and_eq_true] at hvalid; exact h.remove hvalid.1 td
  | chmod td semid uid gid mode =>
    have hslot := chmod_slot s (ipcidToIx semid) uid gid mode
    refine ⟨h.tiling.congr (fun j => ?_) (fun j _ => (hslot j).2.2.1) fun j _ => (hslot j).2.2.2,
      h.tbl⟩
    rw [(hslot j).1]
  | assign td semid cmd sem semnum => exact h.of_sema rfl rfl (h.tbl.semundoClear _ _)
  | start td semid sops _ _ _ ht => exact htried h ht
  | giveUp => exact h.of_sema rfl rfl h.tbl
  | retry tid w _ _ _ _ _ _ ht =>
    have h' : Slots info { s with
        sem := modSem s.sem w.semptr (countDown w.sopptr)
        sleepers := s.sleepers.erase w } := h.of_sema rfl rfl h.tbl
    exact htried h' ht
  | exit p _ _ hexit =>
    obtain ⟨h1, h2, h3, -⟩ := semexit_frame hexit
    exact h.of_sema h1 h2 (h.tbl.sublist h3)

end Slots

/-! ## The invariant -/

/-- The slots are as they should be, the undo entries are for semaphores that exist, and so are the
    operations of the calls that sleep on a set which is still there. -/
structure Inv (info : Seminfo) (s : Sys) : Prop extends Slots info s where
  undo : ∀ p, ∀ e ∈ entOf p s.semuList, s.Live e
  nums : ∀ c ∈ s.calls, semvalid c.semid (s.sema (ipcidToIx c.semid)) = true →
    ∀ sop ∈ c.sops, sop.semNum < (s.sema (ipcidToIx c.semid)).semNsems

theorem Inv.init (info : Seminfo) (pool : ℕ → Sem) : Inv info (Sys.init pool) where
  toSlots := Slots.init info pool
  undo := by simp [Sys.init]
  nums := by simp [Sys.init, calls]

namespace Inv
variable {info : Seminfo} {s t : Sys}

/-- A step that leaves the slots alone. -/
theorem of_sema (h : Inv info s) (ht : Slots info t) (hsema : t.sema = s.sema)
    (hundo : ∀ p, ∀ e ∈ entOf p t.semuList, s.Live e)
    (hcalls : ∀ c ∈ t.calls, c ∈ s.calls ∨
      ∀ sop ∈ c.sops, sop.semNum < (s.sema (ipcidToIx c.semid)).semNsems) : Inv info t where
  toSlots := ht
  undo p e he := by
    unfold Live
    rw [hsema]; exact hundo p e he
  nums c hc hvalid := by
    rw [hsema] at hvalid ⊢
    rcases hcalls c hc with hc | hc
    · exact h.nums c hc hvalid
    · exact hc

theorem tried (h : Inv info s) (ht : Slots info t) {c : Semop} {r : Ret}
    (htried : Tried info s c t r) (hvalid : (s.sema (ipcidToIx c.semid)).allocated = true)
    (hnums : ∀ sop ∈ c.sops, sop.semNum < (s.sema (ipcidToIx c.semid)).semNsems) : Inv info t := by
  have hstep := undone_step h.tbl c
  obtain ⟨h1, -, h3, h4⟩ := htried.frame
  refine h.of_sema ht h1 (fun p e he => ?_) fun c' hc' => ?_
  · rcases h3 with h3 | h3 <;> rw [h3] at he
    · exact h.undo p e he
    · by_cases hp : p = c.td.tdProc
      · rw [hp] at he
        rcases hstep.mem e he with he | ⟨-, sop, hsop, hk⟩
        · exact h.undo _ e he
        · obtain ⟨hid, hnum⟩ := Prod.mk.inj hk
          unfold Live
          rw [hid, hnum]; exact ⟨hvalid, hnums sop hsop⟩
      · rw [hstep.frame p hp] at he; exact h.undo p e he
  · rcases h4 c' hc' with hc' | rfl
    · exact .inl hc'
    · exact .inr hnums

theorem create (h : Inv info s) {key nsems : ℤ} {semflg : BitVec 16} {ix : ℕ}
    (hc : Creates info s key nsems semflg ix)
    (hfresh : ∀ c ∈ s.calls, ipcidToIx c.semid = ix →
      ipcidToSeq c.semid ≠ ((s.sema ix).semPerm.seq + 1) &&& 0x7fff) (cred : Cred) :
    Inv info (s.create cred ix key nsems.toNat semflg) := by
  obtain ⟨hfree, hslots⟩ := h.toSlots.create hc cred
  obtain ⟨h1, -, -, h4⟩ := create_sema_self s cred ix key nsems.toNat semflg
  have hne := fun {j : ℕ} (hj : j ≠ ix) => create_sema_of_ne s cred hj key nsems.toNat semflg
  refine ⟨hslots, fun p e he => ?_, fun c hcall hvalid => ?_⟩
  · obtain ⟨hl, hn⟩ := h.undo p e he
    have hid : e.unId ≠ ix := by
      rintro rfl
      rw [hfree] at hl
      cases hl
    unfold Live
    rw [hne hid]; exact ⟨hl, hn⟩
  · by_cases hix : ipcidToIx c.semid = ix
    · rw [hix] at hvalid
      simp only [semvalid, h1, h4, Bool.true_and, beq_iff_eq] at hvalid
      exact absurd hvalid.symm (hfresh c hcall hix)
    · rw [hne hix] at hvalid ⊢; exact h.nums c hcall hvalid

theorem remove (h : Inv info s) {ix : ℕ} (hix : (s.sema ix).allocated = true) (td : Thread) :
    Inv info (s.rmid td ix) := by
  have halloc := fun {j : ℕ} (hj : j ≠ ix) => rmid_allocated_of_ne s td hj
  have hperm := fun {j : ℕ} (hj : j ≠ ix) => rmid_perm_of_ne s td hj
  refine ⟨h.toSlots.remove hix td, fun p e he => ?_, fun c hcall hvalid => ?_⟩
  · have he' : e ∈ clearEnt ix none (entOf p s.semuList).length 0 (entOf p s.semuList) := by
      rw [← entOf_semundoClear]; exact he
    have hid := clearEnt_none ix (by omega) (by omega) e he'
    obtain ⟨hl, hn⟩ := h.undo p e ((clearEnt_subperm ..).subset he')
    unfold Live
    rw [halloc hid, (hperm hid).2]; exact ⟨hl, hn⟩
  · rw [rmid_calls] at hcall
    by_cases hci : ipcidToIx c.semid = ix
    · rw [hci] at hvalid; simp [semvalid, rmid_sema_self s td ix] at hvalid
    · rw [(hperm hci).2]
      refine h.nums c hcall ?_
      simpa only [semvalid, halloc hci, (hperm hci).1] using hvalid

/-- An exit does not panic. -/
theorem exit_ret (h : Inv info s) {p : ℕ} {r : Ret} (hexit : s.semexit p = (t, r)) : r = .ok 0 := by
  unfold semexit at hexit
  split_ifs at hexit
  · have hret := exitEnt_ret s (h.undo p)
    cases hx : s.exitEnt (entOf p s.semuList) with
    | mk u r' =>
      rw [hx] at hexit hret
      obtain rfl : r' = .ok 0 := hret
      exact (Prod.mk.inj hexit).2.symm
  · exact (Prod.mk.inj hexit).2.symm

theorem exit (h : Inv info s) (ht : Slots info t) {p : ℕ} {r : Ret}
    (hexit : s.semexit p = (t, r)) : Inv info t := by
  obtain ⟨h1, -, h3, h4, -⟩ := semexit_frame hexit
  refine h.of_sema ht h1 (fun q e he => ?_) fun c hc => .inl
    (by rwa [calls_eq, h4, ← calls_eq] at hc)
  obtain ⟨v, hv, hq, heq⟩ := exists_of_mem_entOf he
  rw [heq] at he; exact h.undo v.unProc e (by rwa [h.tbl.entOf_eq (h3.subset hv)])

end Inv

end Sys

/-! ## Runs -/

/-- `semget` creates no set with an identifier for which a call is still inside `msleep`. -/
def Op.Fresh (info : Seminfo) (s : Sys) : Op → Prop
  | .semget _ key nsems semflg => ∀ ix, s.Creates info key nsems semflg ix → ∀ w ∈ s.sleepers,
      ipcidToIx w.call.semid = ix →
      ipcidToSeq w.call.semid ≠ ((s.sema ix).semPerm.seq + 1) &&& 0x7fff
  | _ => True

namespace Sys
variable {info : Seminfo} {s t : Sys}

theorem Inv.step (h : Inv info s) {op : Op} {r : Ret} (hfresh : op.Fresh info s)
    (hstep : s.step info op = some (t, r)) : Inv info t := by
  have ht := h.toSlots.step hstep
  have hchange := step_change h.tbl hstep
  cases hchange with
  | idle => exact h
  | create td key nsems semflg ix _ hc =>
    refine h.create hc (fun c hcall hix => ?_) td.tdUcred
    obtain ⟨w, hw, rfl⟩ := mem_map.1 hcall
    exact hfresh ix hc w hw hix
  | remove td semid _ hvalid =>
    simp only [semvalid, Bool.and_eq_true] at hvalid; exact h.remove hvalid.1 td
  | chmod td semid uid gid mode =>
    have hslot := chmod_slot s (ipcidToIx semid) uid gid mode
    refine ⟨ht, fun p e he => ?_, fun c hcall hvalid => ?_⟩
    · obtain ⟨hl, hn⟩ := h.undo p e he
      exact ⟨(hslot _).1.trans hl, hn.trans_eq (hslot _).2.2.2.symm⟩
    · intro sop hsop
      refine (h.nums c hcall ?_ sop hsop).trans_eq (hslot _).2.2.2.symm
      simpa only [semvalid, (hslot _).1, (hslot _).2.1] using hvalid
  | assign td semid cmd sem semnum =>
    refine h.of_sema ht rfl (fun p e he => ?_) fun c hc => ?_
    · rw [wakeup_semuList, entOf_semundoClear] at he
      exact h.undo p e ((clearEnt_subperm ..).subset he)
    · rw [wakeup_calls] at hc; exact .inl hc
  | start td semid sops _ _ hadmitted htried =>
    have hvalid := hadmitted.valid
    simp only [semvalid, Bool.and_eq_true] at hvalid
    exact h.tried ht htried hvalid.1 hadmitted.nums
  | giveUp tid intr w e hw =>
    exact h.of_sema ht rfl h.undo fun c hc => .inl (map_subset _ erase_subset hc)
  | retry tid w _ _ hw _ _ hvalid htried =>
    have h' : Inv info { s with
        sem := modSem s.sem w.semptr (countDown w.sopptr)
        sleepers := s.sleepers.erase w } :=
      h.of_sema (h.toSlots.of_sema rfl rfl h.tbl) rfl h.undo fun c hc =>
        .inl (map_subset _ erase_subset hc)
    have hnums := h.nums w.call (mem_map_of_mem hw) hvalid
    simp only [semvalid, Bool.and_eq_true] at hvalid; exact h'.tried ht htried hvalid.1 hnums
  | exit p _ _ hexit => exact h.exit ht hexit

/-- The invariant holds in every run in which no identifier is given out again too soon. -/
theorem Inv.run {pool : ℕ → Sem} (hrun : Runs (Sys.step info) (fun s op => op.Fresh info s)
    (Sys.init pool) s) : Inv info s :=
  hrun.invariant (Inv.init info pool) fun _ _ _ _ h hfresh hstep => h.step hfresh hstep

end Sys

end FreeBSD.SysvSem
