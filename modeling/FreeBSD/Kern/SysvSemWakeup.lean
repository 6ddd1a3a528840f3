import FreeBSD.Kern.SysvSemCounts

/-!
# Wakeups

A call that has to wait is counted at the semaphore of its first operation that fails: in `semncnt`
for an increase, in `semzcnt` for the value zero. What a zero operation waits for is zero after the
operations before it in the vector: if these lower the semaphore, the value that it needs is not
zero, and nobody who sets it there wakes up anybody.

Results:
* `nobody_left_of_run`: no call is left asleep in runs without such a zero operation.
* `left_asleep_on_zero`: a run in which a call is left asleep.
-/

namespace FreeBSD.SysvSem

open List
open Lib (Runs)

namespace Sys

/-! ## The pass -/

/-- In a pass through the whole vector each operation finds a value that it can be applied to. -/
theorem pass_through_at (info : Seminfo) (base : ℕ) (sem : ℕ → Sem) (w : Bool) (i : ℕ)
    (pre : List Sembuf) (sop : Sembuf) (post : List Sembuf)
    (h : (pass info base sem w i (pre ++ sop :: post)).stop = .through) :
    0 ≤ ((sem (base + sop.semNum)).semval.toNat : ℤ) + net base (base + sop.semNum) pre +
        sop.semOp ∧
      (sop.semOp = 0 →
        ((sem (base + sop.semNum)).semval.toNat : ℤ) + net base (base + sop.semNum) pre = 0) := by
  induction pre generalizing sem w i with
  | nil =>
    rw [nil_append, pass] at h
    simp only at h
    simp only [net, filter_nil, map_nil, sum_nil, add_zero]
    split_ifs at h with hneg hwait hzero hnz hbig
    · exact ⟨by omega, by omega⟩
    · exact ⟨by omega, by omega⟩
    · exact ⟨by omega, by omega⟩
  | cons sop' pre ih =>
    rw [cons_append] at h
    rcases pass_cons info base sem w i sop' (pre ++ sop :: post) with
      ⟨w', -, h0, h1, hp⟩ | hp | hp <;> rw [hp] at h
    · have hrec := ih _ _ _ h
      rw [addVal_val info _ _ h0 h1] at hrec
      rw [net_cons, ← add_assoc]; exact hrec
    · cases h
    · cases h

variable {info : Seminfo} {base : ℕ} {sops : List Sembuf} {s : Sys}

/-- A pass goes past the operation at which it is. -/
theorem pass_succ_ne {sem : ℕ → Sem} {w : Bool} {i : ℕ} {p : Pass} (hi : p.i = i) :
    pass info base sem w (i + 1) sops ≠ p := by
  rintro rfl
  have := le_pass_i info base sem w (i + 1) sops; omega

theorem pass_wait_cons {sem : ℕ → Sem} {w : Bool} {i : ℕ} {sop : Sembuf}
    (h : pass info base sem w i (sop :: sops) = ⟨sem, w, i, .wait sop⟩) :
    sop.semOp < 0 ∧ ((sem (base + sop.semNum)).semval.toNat : ℤ) + sop.semOp < 0 ∨
      sop.semOp = 0 ∧ ((sem (base + sop.semNum)).semval.toNat : ℤ) ≠ 0 := by
  rw [pass] at h
  simp only at h
  by_cases hneg : sop.semOp < 0
  · rw [if_pos hneg] at h
    by_cases hwait : ((sem (base + sop.semNum)).semval.toNat : ℤ) + sop.semOp < 0
    · exact .inl ⟨hneg, hwait⟩
    · rw [if_neg hwait] at h; exact absurd h (pass_succ_ne rfl)
  · rw [if_neg hneg] at h
    by_cases hzero : sop.semOp = 0
    · rw [if_pos hzero] at h
      by_cases hnz : ((sem (base + sop.semNum)).semval.toNat : ℤ) ≠ 0
      · exact .inr ⟨hzero, hnz⟩
      · rw [if_neg hnz] at h; exact absurd h (pass_succ_ne rfl)
    · rw [if_neg hzero] at h
      split_ifs at h with hbig
      · cases congrArg Pass.stop h
      · exact absurd h (pass_succ_ne rfl)

/-- The operation at which a pass has to wait does not fit the value that it finds. -/
theorem pass_wait_at (info : Seminfo) (base : ℕ) (sem : ℕ → Sem) (w : Bool) (i : ℕ)
    (sops : List Sembuf) {sop : Sembuf} (h : (pass info base sem w i sops).stop = .wait sop) :
    ∃ post, sops = sops.take ((pass info base sem w i sops).i - i) ++ sop :: post ∧
      let v := ((sem (base + sop.semNum)).semval.toNat : ℤ) +
        net base (base + sop.semNum) (sops.take ((pass info base sem w i sops).i - i))
      (sop.semOp < 0 ∧ v + sop.semOp < 0 ∨ sop.semOp = 0 ∧ v ≠ 0) ∧ 0 ≤ v := by
  induction sops generalizing sem w i with
  | nil => cases h
  | cons sop' sops ih =>
    rcases pass_cons info base sem w i sop' sops with ⟨w', -, h0, h1, hp⟩ | hp | hp
    · rw [hp] at h ⊢
      obtain ⟨post, hpost, hv⟩ := ih _ _ _ h
      have hle := le_pass_i info base (addVal sem (base + sop'.semNum) sop'.semOp) w' (i + 1) sops
      obtain ⟨n, hn⟩ := Nat.exists_eq_add_of_le hle
      rw [hn, show i + 1 + n - (i + 1) = n by omega] at hpost hv
      rw [hn, show i + 1 + n - i = n + 1 by omega, take_succ_cons]
      refine ⟨post, by rw [cons_append, ← hpost], ?_⟩
      rw [addVal_val info _ _ h0 h1] at hv
      rw [net_cons, ← add_assoc]; exact hv
    · have hv := pass_wait_cons hp
      rw [hp] at h ⊢
      obtain rfl : sop' = sop := Stop.wait.inj h
      simp only [Nat.sub_self, take_zero, nil_append, net, filter_nil, map_nil,
        sum_nil, add_zero]
      exact ⟨sops, rfl, hv, by omega⟩
    · rw [hp] at h
      cases h

@[simp] theorem addVal_semncnt (sem : ℕ → Sem) (k : ℕ) (d : ℤ) (j : ℕ) :
    (addVal sem k d j).semncnt = (sem j).semncnt := by
  rw [addVal_apply]

@[simp] theorem addVal_semzcnt (sem : ℕ → Sem) (k : ℕ) (d : ℤ) (j : ℕ) :
    (addVal sem k d j).semzcnt = (sem j).semzcnt := by
  rw [addVal_apply]

/-- A pass without `do_wakeup` raises no value that somebody waits for to rise, and does not zero a
    value that somebody waits for to be zero. -/
theorem pass_quiet (info : Seminfo) (base : ℕ) (sem : ℕ → Sem) (w : Bool) (i : ℕ)
    (sops : List Sembuf) (hstop : (pass info base sem w i sops).stop = .through)
    (hquiet : (pass info base sem w i sops).doWakeup = false) :
    w = false ∧ ∀ k,
      (0 < (sem k).semncnt → ((pass info base sem w i sops).sem k).semval.toNat ≤
        (sem k).semval.toNat) ∧
      (0 < (sem k).semzcnt → (sem k).semval.toNat ≠ 0 →
        ((pass info base sem w i sops).sem k).semval.toNat ≠ 0) := by
  induction sops generalizing sem w i with
  | nil => exact ⟨hquiet, fun k => ⟨fun _ => le_rfl, fun _ h => h⟩⟩
  | cons sop sops ih =>
    have hmax := info.semvmx_le
    rw [pass] at hstop hquiet ⊢
    simp only at hstop hquiet ⊢
    split_ifs at hstop hquiet ⊢ with hneg hwait hzero hnz hbig
    · obtain ⟨hw, hrec⟩ := ih _ _ _ hstop hquiet
      have hval := addVal_val info sem (base + sop.semNum) (d := sop.semOp) (by omega) (by omega)
      rw [Bool.or_eq_false_iff] at hw
      refine ⟨hw.1, fun k => ?_⟩
      obtain ⟨h1, h2⟩ := hrec k
      rw [addVal_semncnt] at h1
      rw [addVal_semzcnt] at h2
      have hk := hval k
      refine ⟨fun hn => ?_, fun hz hne => h2 hz ?_⟩
      · have := h1 hn
        split_ifs at hk <;> omega
      · -- the value that the operation leaves is tested when somebody waits for zero
        by_cases hpos : base + sop.semNum = k
        · have htest := hw.2
          rw [hpos] at htest ⊢
          intro hzero
          have hz0 := UInt16.toNat_inj.1 (hzero.trans UInt16.toNat_zero.symm)
          rw [hz0, addVal_semzcnt] at htest
          simp only [beq_self_eq_true, Bool.true_and, decide_eq_false_iff_not] at htest
          exact htest hz
        · rw [if_neg hpos] at hk; omega
    · exact ih _ _ _ hstop hquiet
    · obtain ⟨hw, hrec⟩ := ih _ _ _ hstop hquiet
      have hval := addVal_val info sem (base + sop.semNum) (d := sop.semOp) (by omega) (by omega)
      rw [Bool.or_eq_false_iff] at hw
      refine ⟨hw.1, fun k => ?_⟩
      obtain ⟨h1, h2⟩ := hrec k
      rw [addVal_semncnt] at h1
      rw [addVal_semzcnt] at h2
      have hk := hval k
      refine ⟨fun hn => ?_, fun hz hne => h2 hz ?_⟩
      · by_cases hpos : base + sop.semNum = k
        · rw [hpos] at hw; exact absurd hn (by simpa using hw.2)
        · rw [if_neg hpos] at hk
          have := h1 hn; omega
      · split_ifs at hk <;> omega

theorem net_eq_zero {base k : ℕ} (h : ∀ sop ∈ sops, base + sop.semNum ≠ k) :
    net base k sops = 0 := by
  have hnil : sops.filter (fun sop => decide (base + sop.semNum = k)) = [] := by
    rw [filter_eq_nil_iff]
    intro sop hsop; simp [h sop hsop]
  rw [net, hnil]; rfl

/-! ## The property -/

/-- When no call is on its way out of its sleep, no call is asleep whose whole vector could be
    applied to the values as they are. -/
def NobodyLeft (info : Seminfo) (s : Sys) : Prop :=
  (∀ w ∈ s.sleepers, w.awake = false) →
    ∀ w ∈ s.sleepers, (passOf info s w.call).stop ≠ .through

/-- An attempt that goes to sleep overflows no counter, and not on a zero operation on a semaphore
    that the operations before it in the vector lower. -/
def Registers (info : Seminfo) (s : Sys) (c : Semop) : Prop :=
  CountFits info s c ∧
    ∀ sopptr, (passOf info s c).stop = .wait sopptr → sopptr.ipcNowait = false → sopptr.semOp = 0 →
      0 ≤ net (s.sema (ipcidToIx c.semid)).semBase
        ((s.sema (ipcidToIx c.semid)).semBase + sopptr.semNum) (c.sops.take (passOf info s c).i)

/-! ## Calls that are blocked -/

/-- The place of the semaphore for which a call sleeps. -/
def place (s : Sys) (w : Sleeper) : ℕ :=
  (s.sema (ipcidToIx w.call.semid)).semBase + w.sopptr.semNum

/-- The operation of a call that sleeps does not fit the value that a pass would find there; if it
    is a zero operation, those before it do not lower the semaphore. -/
def Blocked (s : Sys) (w : Sleeper) : Prop :=
  ∃ pre post, w.call.sops = pre ++ w.sopptr :: post ∧
    let v := ((s.sem (s.place w)).semval.toNat : ℤ)
    let d := net (s.sema (ipcidToIx w.call.semid)).semBase (s.place w) pre
    (w.sopptr.semOp < 0 ∧ v + d + w.sopptr.semOp < 0 ∨ w.sopptr.semOp = 0 ∧ 0 ≤ d ∧ 0 < v + d)

/-- A call that is blocked at its operation cannot be done as a whole. -/
theorem Blocked.not_through {w : Sleeper} (h : s.Blocked w) :
    (passOf info s w.call).stop ≠ .through := by
  intro hthrough
  obtain ⟨pre, post, hsops, hv⟩ := h
  unfold passOf at hthrough
  rw [hsops] at hthrough
  obtain ⟨h0, hzero⟩ := pass_through_at info _ s.sem false 0 pre w.sopptr post hthrough
  rcases hv with ⟨hneg, hv⟩ | ⟨hop, hd, hv⟩
  · exact absurd h0 (not_le.2 hv)
  · exact absurd (hzero hop) hv.ne'

/-- A call stays blocked if its value does not rise, or does not become zero. -/
theorem Blocked.mono {s t : Sys} {w : Sleeper} (h : s.Blocked w) (hsema : t.sema = s.sema)
    (hdown : w.sopptr.semOp < 0 → (t.sem (s.place w)).semval.toNat ≤
      (s.sem (s.place w)).semval.toNat)
    (hzero : w.sopptr.semOp = 0 → (s.sem (s.place w)).semval.toNat ≠ 0 →
      (t.sem (s.place w)).semval.toNat ≠ 0) : t.Blocked w := by
  obtain ⟨pre, post, hsops, hv⟩ := h
  have hplace : t.place w = s.place w := by
    unfold place
    rw [hsema]
  refine ⟨pre, post, hsops, ?_⟩
  rw [hplace, hsema]
  dsimp only at hv ⊢
  rcases hv with ⟨hneg, hv⟩ | ⟨hop, hd, hv⟩
  · have := hdown hneg
    exact .inl ⟨hneg, by omega⟩
  · have := hzero hop
    exact .inr ⟨hop, hd, by omega⟩

/-- A call is blocked when it goes to sleep. -/
theorem blocked_of_wait {c : Semop} {sopptr : Sembuf}
    (hstop : (passOf info s c).stop = .wait sopptr) (hwait : sopptr.ipcNowait = false)
    (hreg : Registers info s c) (p : ℕ) : s.Blocked ⟨c, sopptr, p, false⟩ := by
  obtain ⟨post, hsops, hv, hle⟩ := pass_wait_at info _ s.sem false 0 c.sops hstop
  refine ⟨_, post, hsops, ?_⟩
  rcases hv with ⟨hneg, hv⟩ | ⟨hop, hv⟩
  · exact .inl ⟨hneg, hv⟩
  · have hd := hreg.2 sopptr hstop hwait hop
    exact .inr ⟨hop, hd, lt_of_le_of_ne hle (Ne.symm hv)⟩

/-- With the entries of the caller in range there is no panic. -/
theorem undone_ne_panic (h : TblOk info s.semuList) (c : Semop)
    (hin : ∀ e ∈ entOf c.td.tdProc s.semuList, InRange info e.unAdjval) (msg : String) :
    (undone info s c).2 ≠ .panic msg := by
  unfold undone
  split_ifs
  · have hnone : CanRevert info c.td.tdProc (ipcidToIx c.semid) [] (entOf c.td.tdProc s.semuList)
      (entOf c.td.tdProc s.semuList) := fun tbl _ _ hl => ⟨tbl, rfl, hl⟩
    obtain ⟨tbl', r, hr, hcases⟩ :=
      applyUndos_cases (ipcidToIx c.semid) c.sops h hin hnone (.inr (by simp))
    rw [hr]
    rcases hcases with ⟨rfl, -⟩ | ⟨rfl | rfl | rfl, -⟩ <;> simp
  · simp

/-- What holds while calls of `semop` are made: the counts are right, the undo entries in range, the
    sets of the calls that sleep are there, and who has not been woken up is blocked. -/
structure Watched (info : Seminfo) (s : Sys) : Prop extends Counted info s where
  range : ∀ p, ∀ e ∈ entOf p s.semuList, InRange info e.unAdjval
  kept : ∀ w ∈ s.sleepers, semvalid w.call.semid (s.sema (ipcidToIx w.call.semid)) = true ∧
    w.semptr = s.place w
  stuck : ∀ w ∈ s.sleepers, w.awake = false → s.Blocked w

namespace Watched
variable {info : Seminfo} {s t : Sys}

/-- Somebody is counted where a call sleeps. -/
theorem cnt_pos (h : Watched info s) {w : Sleeper} (hw : w ∈ s.sleepers) :
    0 < cnt (w.sopptr.semOp = 0) (s.sem (s.place w)) := by
  obtain ⟨hmem, hop⟩ := h.blocked _ (mem_slept hw)
  obtain ⟨hvalid, -⟩ := h.kept w hw
  have hnum := h.nums w.call (mem_map_of_mem hw) hvalid _ hmem
  have halloc := hvalid
  simp only [semvalid, Bool.and_eq_true] at halloc
  have hok := h.counts _ halloc.1 _ hnum (w.sopptr.semOp = 0)
  have hpos : 0 < s.waiters (ipcidToIx w.call.semid) w.sopptr.semNum (w.sopptr.semOp = 0) :=
    countP_pos_iff.2 ⟨w, hw, (isWaiter_iff hop).2 ⟨rfl, hvalid, rfl, rfl⟩⟩
  rw [← hok] at hpos; exact UInt16.lt_iff_toNat_lt.2 hpos

/-- A step that leaves sets, counts, undo entries and sleepers as they are but for some that are
    gone, and the values too. -/
theorem of_blocked (h : Watched info s) (ht : Counted info t) (hsema : t.sema = s.sema)
    (hrange : ∀ p, ∀ e ∈ entOf p t.semuList, InRange info e.unAdjval)
    (hsleepers : ∀ w ∈ t.sleepers, ∃ x ∈ s.sleepers, w.call = x.call ∧ w.sopptr = x.sopptr ∧
      w.semptr = x.semptr ∧ (w.awake = false → w = x ∧ t.Blocked x)) : Watched info t where
  toCounted := ht
  range := hrange
  kept w hw := by
    obtain ⟨x, hx, hcall, hsop, hptr, -⟩ := hsleepers w hw
    unfold place
    rw [hsema, hcall, hsop, hptr]; exact h.kept x hx
  stuck w hw hawake := by
    obtain ⟨x, hx, -, -, -, hsame⟩ := hsleepers w hw
    obtain ⟨rfl, hb⟩ := hsame hawake
    exact hb

/-- A call leaves its sleep. -/
theorem woken (h : Watched info s) {w : Sleeper} (hw : w ∈ s.sleepers) :
    Watched info { s with
      sem := modSem s.sem w.semptr (countDown w.sopptr)
      sleepers := s.sleepers.erase w } := by
  obtain ⟨hvalid, hptr⟩ := h.kept w hw
  refine h.of_blocked (h.toCounted.woken hw hvalid hptr) rfl h.range fun x hx => ?_
  have hx' : x ∈ s.sleepers := mem_of_mem_erase hx
  refine ⟨x, hx', rfl, rfl, rfl, fun hawake => ⟨rfl, ?_⟩⟩
  have hval : ∀ k, (modSem s.sem w.semptr (countDown w.sopptr) k).semval = (s.sem k).semval :=
    modSem_semval (countDown_semval w.sopptr) s.sem w.semptr
  refine (h.stuck x hx' hawake).mono rfl (fun _ => ?_) fun _ hne => ?_
  · exact (congrArg UInt16.toNat (hval _)).le
  · exact (congrArg UInt16.toNat (hval _)).trans_ne hne

/-- After a pass through a vector, those whom it does not wake up are still blocked. -/
theorem blocked_pass (h : Watched info s) {c : Semop}
    (hvalid : semvalid c.semid (s.sema (ipcidToIx c.semid)) = true)
    (hnums : ∀ sop ∈ c.sops, sop.semNum < (s.sema (ipcidToIx c.semid)).semNsems)
    (hstop : (passOf info s c).stop = .through) (hsema : t.sema = s.sema)
    (hval : ∀ k, (t.sem k).semval = ((passOf info s c).sem k).semval) {w : Sleeper}
    (hw : w ∈ s.sleepers) (hawake : w.awake = false)
    (hmiss : (passOf info s c).doWakeup = true → ipcidToIx w.call.semid ≠ ipcidToIx c.semid) :
    t.Blocked w := by
  have hb := h.stuck w hw hawake
  have hcnt := h.cnt_pos hw
  by_cases hset : ipcidToIx w.call.semid = ipcidToIx c.semid
  · -- the same set: the pass has not set `do_wakeup`
    have hquiet : (passOf info s c).doWakeup = false := by
      by_contra hdo
      exact hmiss (by simpa using hdo) hset
    obtain ⟨-, hq⟩ := pass_quiet info _ s.sem false 0 c.sops hstop hquiet
    obtain ⟨hdown, hzero⟩ := hq (s.place w)
    refine hb.mono hsema (fun hneg => ?_) fun hop hne => ?_
    · rw [hval]
      refine hdown ?_
      simpa [cnt, hneg.ne] using hcnt
    · rw [hval]
      refine hzero ?_ hne
      simpa [cnt, hop] using hcnt
  · -- another set: the pass has not touched its values
    have hsame : ((passOf info s c).sem (s.place w)).semval = (s.sem (s.place w)).semval := by
      obtain ⟨hmem, -⟩ := h.blocked _ (mem_slept hw)
      have hv := (h.kept w hw).1
      have hnum := h.nums w.call (mem_map_of_mem hw) hv _ hmem
      simp only [semvalid, Bool.and_eq_true] at hv hvalid
      have hnet : net (s.sema (ipcidToIx c.semid)).semBase (s.place w) c.sops = 0 := by
        apply net_eq_zero
        intro sop hsop hpos; exact hset (h.pos_inj hvalid.1 hv.1 (hnums sop hsop) hnum hpos).1.symm
      have hpv := pass_val info _ s.sem false 0 c.sops hstop (s.place w)
      rw [hnet, add_zero] at hpv
      apply UInt16.toNat_inj.1
      exact_mod_cast hpv
    refine hb.mono hsema (fun _ => ?_) fun _ hne => ?_
    · rw [hval, hsame]
    · rwa [hval, hsame]

/-- An attempt keeps the invariant, if a sleep of it registers where the call can be woken up. -/
theorem tried (h : Watched info s) (ht : Inv info t) {c : Semop} {r : Ret}
    (htried : Tried info s c t r)
    (hvalid : semvalid c.semid (s.sema (ipcidToIx c.semid)) = true)
    (hnums : ∀ sop ∈ c.sops, sop.semNum < (s.sema (ipcidToIx c.semid)).semNsems)
    (hreg : Registers info s c) : Watched info t := by
  have hcounted := h.toCounted.tried ht htried hvalid hnums hreg.1
  have hrange : ∀ p, ∀ e ∈ entOf p (undone info s c).1, InRange info e.unAdjval := by
    intro p e he
    have hstep := undone_step h.tbl c
    by_cases hp : p = c.td.tdProc
    · rw [hp] at he
      rcases hstep.mem e he with he | ⟨hin, -⟩
      · exact h.range _ e he
      · exact hin
    · rw [hstep.frame p hp] at he; exact h.range p e he
  cases htried with
  | refused => exact h
  | slept sopptr hstop hwait =>
    have hval : ∀ k, (modSem s.sem ((s.sema (ipcidToIx c.semid)).semBase + sopptr.semNum)
        (countUp sopptr) k).semval = (s.sem k).semval :=
      modSem_semval (countUp_semval sopptr) s.sem _
    have hmono : ∀ w, s.Blocked w → Blocked { s with
        sem := modSem s.sem ((s.sema (ipcidToIx c.semid)).semBase + sopptr.semNum) (countUp sopptr)
        sleepers := s.sleepers ++
          [⟨c, sopptr, (s.sema (ipcidToIx c.semid)).semBase + sopptr.semNum, false⟩] } w := by
      intro w hb
      refine hb.mono rfl (fun _ => ?_) fun _ hne => ?_
      · exact (congrArg UInt16.toNat (hval _)).le
      · exact (congrArg UInt16.toNat (hval _)).trans_ne hne
    refine ⟨hcounted, h.range, fun w hw => ?_, fun w hw hawake => ?_⟩
    · rcases mem_append.1 hw with hw | hw
      · exact h.kept w hw
      · obtain rfl := mem_singleton.1 hw
        exact ⟨hvalid, rfl⟩
    · rcases mem_append.1 hw with hw | hw
      · exact hmono w (h.stuck w hw hawake)
      · obtain rfl := mem_singleton.1 hw
        exact hmono _ (blocked_of_wait hstop hwait hreg _)
  | full e hstop hundo =>
    refine h.of_blocked hcounted rfl hrange fun w hw => ?_
    exact ⟨w, hw, rfl, rfl, rfl, fun hawake => ⟨rfl, (h.stuck w hw hawake).mono rfl
      (fun _ => le_rfl)
      fun _ hne => hne⟩⟩
  | stuck msg hstop hundo => exact absurd hundo (undone_ne_panic h.tbl c (h.range _) msg)
  | done hstop hundo =>
    have hval : ∀ k, (setPids (s.sema (ipcidToIx c.semid)).semBase c.td.tdProc c.sops
        (passOf info s c).sem k).semval = ((passOf info s c).sem k).semval := by
      intro k
      rw [setPids_apply]
    dsimp only at hcounted ⊢
    split_ifs at hcounted ⊢ with hdo
    · refine h.of_blocked hcounted rfl hrange fun w hw => ?_
      obtain ⟨x, hx, rfl⟩ := mem_map.1 hw
      refine ⟨x, hx, ?_⟩
      by_cases hset : ipcidToIx x.call.semid = ipcidToIx c.semid
      · rw [if_pos hset]; exact ⟨rfl, rfl, rfl, fun hawake => by cases hawake⟩
      · rw [if_neg hset]
        refine ⟨rfl, rfl, rfl, fun hawake => ⟨rfl, ?_⟩⟩
        apply h.blocked_pass hvalid hnums hstop
        · rfl
        · exact hval
        · exact hx
        · exact hawake
        · exact fun _ => hset
    · refine h.of_blocked hcounted rfl hrange fun w hw => ?_
      refine ⟨w, hw, rfl, rfl, rfl, fun hawake => ⟨rfl, ?_⟩⟩
      apply h.blocked_pass hvalid hnums hstop
      · rfl
      · exact hval
      · exact hw
      · exact hawake
      · exact fun hdo' => absurd hdo' hdo

end Watched

end Sys

/-! ## Runs -/

/-- A call that sets up semaphore sets. -/
def Op.SetsUp : Op → Prop
  | .semget .. | .semctl .. => True
  | _ => False

/-- A call of `semop`, or its way on after a wakeup. -/
def Op.IsSemop : Op → Prop
  | .semop .. => True
  | .resume _ intr => intr = false
  | _ => False

/-- An attempt of the step that goes to sleep overflows no counter, and not on a zero operation on a
    semaphore that the operations before it in the vector lower. -/
def Op.Registers (info : Seminfo) (s : Sys) : Op → Prop
  | .semop td semid sops => Sys.Admitted info s td semid sops →
      Sys.Registers info s ⟨td, semid, sops, sops.any (·.undoes)⟩
  | .resume tid _ => ∀ w, s.sleepers.find? (·.call.td.tid == tid) = some w →
      Sys.Registers info { s with
        sem := Sys.modSem s.sem w.semptr (Sys.countDown w.sopptr)
        sleepers := s.sleepers.erase w } w.call
  | _ => True

namespace Sys
variable {info : Seminfo} {s t : Sys}

/-- Nothing has been done yet but to set up sets. -/
structure Quiet (info : Seminfo) (s : Sys) : Prop extends Counted info s where
  nobody : s.sleepers = []
  undone : s.semuList = []

theorem Quiet.step (h : Quiet info s) {op : Op} {r : Ret} (hop : op.SetsUp)
    (hstep : s.step info op = some (t, r)) : Quiet info t := by
  have hfits : op.CountsFit info s := by
    cases op with
    | semget td key nsems semflg =>
      intro ix _ w hw
      rw [h.nobody] at hw
      cases hw
    | semctl td semid cmd => trivial
    | semop td semid sops => exact hop.elim
    | resume tid intr => exact hop.elim
    | exit p => exact hop.elim
  have hcounted := h.toCounted.step hfits hstep
  have hwakeup : ∀ ix, (s.sleepers.map fun w =>
      if ipcidToIx w.call.semid = ix then { w with awake := true } else w) = [] := by
    intro ix
    rw [h.nobody]; rfl
  have hclear : ∀ ix semnum, semundoClear ix semnum s.semuList = [] := by
    intro ix semnum
    rw [h.undone]; rfl
  have hchange := step_change h.tbl hstep
  cases hchange with
  | idle => exact h
  | create => exact ⟨hcounted, h.nobody, h.undone⟩
  | remove => exact ⟨hcounted, hwakeup _, hclear _ _⟩
  | chmod => exact ⟨hcounted, h.nobody, h.undone⟩
  | assign => exact ⟨hcounted, hwakeup _, hclear _ _⟩
  | start => exact hop.elim
  | giveUp => exact hop.elim
  | retry => exact hop.elim
  | exit => exact hop.elim

theorem Quiet.watched (h : Quiet info s) : Watched info s where
  toCounted := h.toCounted
  range p e he := by
    rw [h.undone] at he
    cases he
  kept w hw := by
    rw [h.nobody] at hw
    cases hw
  stuck w hw := by
    rw [h.nobody] at hw
    cases hw

theorem Watched.step (h : Watched info s) {op : Op} {r : Ret} (hop : op.IsSemop)
    (hreg : op.Registers info s) (hstep : s.step info op = some (t, r)) : Watched info t := by
  have hfresh : op.Fresh info s := by
    cases op with
    | semget td key nsems semflg => exact hop.elim
    | _ => trivial
  have ht := h.toInv.step hfresh hstep
  have hchange := step_change h.tbl hstep
  cases hchange with
  | idle => exact h
  | create => exact hop.elim
  | remove => exact hop.elim
  | chmod => exact hop.elim
  | assign => exact hop.elim
  | start td semid sops _ _ hadmitted htried =>
    exact h.tried ht htried hadmitted.valid hadmitted.nums (hreg hadmitted)
  | giveUp tid intr w e hw htid hwhy =>
    obtain rfl : intr = false := hop
    rcases hwhy with hintr | hvalid
    · cases hintr
    · rw [(h.kept w hw).1] at hvalid
      cases hvalid
  | retry tid w _ _ hw htid hawake hvalid htried =>
    have hnums := h.nums w.call (mem_map_of_mem hw) hvalid
    exact (h.woken hw).tried ht htried hvalid hnums (hreg w htid)
  | exit => exact hop.elim

/-- While calls of `semop` are made on sets that have been set up, and none goes to sleep on a zero
    operation on a semaphore that the operations before it lower, no call is left asleep that could
    be done. -/
theorem nobody_left_of_run {pool : ℕ → Sem} {s₀ : Sys}
    (hsetup : Runs (Sys.step info) (fun _ op => op.SetsUp) (Sys.init pool) s₀)
    (hrun : Runs (Sys.step info) (fun s op => op.IsSemop ∧ op.Registers info s) s₀ s) :
    s.NobodyLeft info := by
  have hinit : Quiet info (Sys.init pool) := ⟨Counted.init info pool, rfl, rfl⟩
  have hquiet : Quiet info s₀ :=
    hsetup.invariant hinit fun _ _ _ _ h hop hstep => h.step hop hstep
  have hwatched : Watched info s :=
    hrun.invariant hquiet.watched fun _ _ _ _ h hop hstep => h.step hop.1 hop.2 hstep
  intro hasleep w hw; exact (hwatched.stuck w hw (hasleep w hw)).not_through

/-- A call that sleeps on a semaphore with value 0. -/
theorem nobody_left_of_run_first : ∃ s₀ r s r',
    (Sys.init fun _ => ⟨0, 0, 0, 0⟩).step Seminfo.default (.semget (root 0 2) 0 1 0o600) =
      some (s₀, r) ∧
    s₀.step Seminfo.default (.semop (root 1 1) 65536 [⟨0, -1, false, false⟩]) = some (s, r') ∧
    s.NobodyLeft Seminfo.default := by
  obtain ⟨r, hget⟩ := semget_step (s := Sys.init fun _ => ⟨0, 0, 0, 0⟩) (by decide) rfl rfl one_pos
    (by omega)
  have hsome : (((Sys.init fun _ => ⟨0, 0, 0, 0⟩).create (root 0 2).tdUcred 0 0 1 0o600).step
      Seminfo.default (.semop (root 1 1) 65536 [⟨0, -1, false, false⟩])).isSome = true := by
    decide +kernel
  obtain ⟨⟨s, r'⟩, hstep⟩ := Option.isSome_iff_exists.1 hsome
  have hsetup : (Op.semget (root 0 2) 0 1 0o600).SetsUp := trivial
  have hop : (Op.semop (root 1 1) 65536 [⟨0, -1, false, false⟩]).IsSemop := trivial
  have hreg : (Op.semop (root 1 1) 65536 [⟨0, -1, false, false⟩]).Registers Seminfo.default
      ((Sys.init fun _ => ⟨0, 0, 0, 0⟩).create (root 0 2).tdUcred 0 0 1 0o600) := by
    intro _
    refine ⟨fun sopptr hstop _ => ?_, fun sopptr hstop _ hop => ?_⟩
    · obtain rfl : ⟨0, -1, false, false⟩ = sopptr := Stop.wait.inj hstop
      decide +kernel
    · obtain rfl : ⟨0, -1, false, false⟩ = sopptr := Stop.wait.inj hstop
      cases hop
  exact ⟨_, r, s, r', hget, hstep, nobody_left_of_run (Runs.refl.tail hsetup hget)
    (Runs.refl.tail ⟨hop, hreg⟩ hstep)⟩

/-- The semaphore is 2. A call wants to take 1 and then find 0: it sleeps. Another one takes 1, and
    wakes up nobody. -/
theorem left_asleep_on_zero :
    ¬ ∀ (info : Seminfo) (pool : ℕ → Sem) (s₀ s : Sys),
      Runs (Sys.step info) (fun _ op => op.SetsUp) (Sys.init pool) s₀ →
      Runs (Sys.step info) (fun _ op => op.IsSemop) s₀ s → s.NobodyLeft info := by
  intro hclaim
  obtain ⟨s₀, hsetup, hs₀⟩ := Lib.exists_of_exec (Sys.step Seminfo.default)
    (P := fun _ op => op.SetsUp) (s := Sys.init fun _ => ⟨0, 0, 0, 0⟩)
    (f := fun s₀ => (Lib.exec (Sys.step Seminfo.default) s₀
      [.semop (root 1 1) 65536 [⟨0, -1, false, false⟩, ⟨0, 0, false, false⟩],
        .semop (root 0 2) 65536 [⟨0, -1, false, false⟩]]).map fun s =>
      s.sleepers.all (! ·.awake) && s.sleepers.any (fun w =>
        (passOf Seminfo.default s w.call).stop = .through))
    (b := some true)
    [.semget (root 0 2) 0 1 0o600, .semctl (root 0 2) 65536 (.setval 0 2)]
    (fun _ op hop => by
      simp only [mem_cons, not_mem_nil, or_false] at hop
      rcases hop with rfl | rfl <;> trivial) (by decide +kernel)
  obtain ⟨s, hexec, hs⟩ := Option.map_eq_some_iff.1 hs₀
  have hrun := Lib.runs_of_exec (P := fun _ op => op.IsSemop) (fun _ op hop => by
    simp only [mem_cons, not_mem_nil, or_false] at hop
    rcases hop with rfl | rfl <;> trivial) hexec
  rw [Bool.and_eq_true, all_eq_true, any_eq_true] at hs
  obtain ⟨hasleep, w, hw, hthrough⟩ := hs
  refine hclaim Seminfo.default _ s₀ s hsetup hrun (fun w hw => ?_) w hw
    (of_decide_eq_true hthrough)
  simpa using hasleep w hw

end Sys

end FreeBSD.SysvSem
