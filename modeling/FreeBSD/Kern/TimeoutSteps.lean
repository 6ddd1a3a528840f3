import FreeBSD.Kern.TimeoutInv

/-!
# The steps keep the invariant, `kern/kern_timeout.c`
-/

namespace FreeBSD.KernTimeout

open Lib List Option

variable {s t : State} {c d : Cid} {T to_ticks : BitVec 32} {cur : Option Cid} {n q ftn arg : ℕ}

/-! ## Changes that the wheel does not see -/

/-- A state that differs in what the invariant of the wheel and the record do not read. -/
structure Same (s t : State) : Prop where
  callout : ∀ c, (t.callout c).c_time = (s.callout c).c_time ∧
    (t.callout c).c_func = (s.callout c).c_func ∧ (t.callout c).c_arg = (s.callout c).c_arg ∧
    (t.callout c).c_flags.pending = (s.callout c).c_flags.pending ∧
    (t.callout c).c_flags.localAlloc = (s.callout c).c_flags.localAlloc
  callfree : t.callfree = s.callfree
  callwheel : t.callwheel = s.callwheel
  mask : t.callwheelmask = s.callwheelmask
  armed : t.hist.armed = s.hist.armed
  arming : t.hist.arming = s.hist.arming
  last : t.hist.last = s.hist.last
  stopped : t.hist.stopped = s.hist.stopped
  taken : t.hist.taken = s.hist.taken

namespace Same

theorem of_callout (hcallout : t.callout = s.callout) (hfree : t.callfree = s.callfree)
    (hwheel : t.callwheel = s.callwheel) (hmask : t.callwheelmask = s.callwheelmask)
    (harmed : t.hist.armed = s.hist.armed) (harming : t.hist.arming = s.hist.arming)
    (hlast : t.hist.last = s.hist.last) (hstopped : t.hist.stopped = s.hist.stopped)
    (htaken : t.hist.taken = s.hist.taken) : Same s t :=
  ⟨fun c => by rw [hcallout]; exact ⟨rfl, rfl, rfl, rfl, rfl⟩, hfree, hwheel, hmask, harmed,
    harming,
    hlast, hstopped, htaken⟩

theorem pending_iff (h : Same s t) : t.Pending c ↔ s.Pending c := by
  rw [State.Pending, (h.callout c).2.2.2.1, State.Pending]

theorem bucket (h : Same s t) (T : BitVec 32) : t.bucket T = s.bucket T := by
  rw [State.bucket, h.mask, State.bucket]

theorem armingOf (h : Same s t) (c : Cid) : t.armingOf c = s.armingOf c := by
  rw [State.armingOf, h.arming, h.last, State.armingOf]

theorem waits_iff (h : Same s t) : t.Waits n ↔ s.Waits n := by
  rw [State.Waits, h.arming, h.last, h.pending_iff, State.Waits]

theorem right (h : Same s t) {call : Call} (hc : call.Right s) : call.Right t := by
  rw [Call.Right, h.armed, h.arming]; exact hc

theorem inWheel (h : Same s t) (hw : Wheel s) : Wheel t where
  mem c b := by rw [h.callwheel, h.pending_iff, h.bucket, (h.callout c).1]; exact hw.mem c b
  nodup b := h.callwheel ▸ hw.nodup b
  free_nodup := h.callfree ▸ hw.free_nodup
  free c hc := by rw [h.pending_iff, (h.callout c).2.2.2.2]; exact hw.free c (h.callfree ▸ hc)
  client i := by rw [(h.callout _).2.2.2.2]; exact hw.client i

/-- The calls may have changed. -/
theorem record (h : Same s t) (hr : Record s)
    (htaken : ∀ n, calls n t.hist.called + (if Due t n then 1 else 0) = t.hist.taken.count n)
    (hcalled : ∀ call ∈ t.hist.called, call ∈ s.hist.called ∨ s.due = some call)
    (hdue : ∀ call, t.due = some call → s.due = some call) : Record t where
  last c hc := by rw [h.last, h.armed]; exact hr.last c (h.pending_iff.1 hc)
  tick n hn := by rw [h.arming]; exact hr.tick n (h.armed ▸ hn)
  arming c hc := by
    rw [h.armingOf, (h.callout c).1, (h.callout c).2.1, (h.callout c).2.2.1]
    exact hr.arming c (h.pending_iff.1 hc)
  fate n := by
    simp only [h.waits_iff]
    rw [h.stopped, h.taken, h.armed]; exact hr.fate n
  taken := htaken
  called call hcall := h.right ((hcalled call hcall).elim (hr.called call) (hr.due call))
  due call hcall := h.right (hr.due call (hdue call hcall))

/-- The calls are the same. -/
theorem record_of_called (h : Same s t) (hr : Record s) (hcalled : t.hist.called = s.hist.called)
    (hdue : t.due = s.due) : Record t := by
  refine h.record hr (fun n => ?_) (fun call hcall => .inl (hcalled ▸ hcall)) fun call hcall =>
    hdue ▸ hcall
  have hiff : Due t n ↔ Due s n := by rw [Due, hdue, Due]
  rw [hcalled, h.taken]
  simp only [hiff]; exact hr.taken n

/-- The clock and the scan are the same. -/
theorem passes (h : Same s t) (hp : Passes s) (hscan : t.scanning = s.scanning)
    (hticks : t.ticks = s.ticks) (hsoftticks : t.softticks = s.softticks)
    (hhardclocks : t.hist.hardclocks = s.hist.hardclocks) (hpasses : t.hist.passes = s.hist.passes)
    (hpass : t.hist.pass = s.hist.pass) (hnull : t.soft = .idle → t.nextsoftcheck = none) :
    Passes t where
  ticks := by rw [hticks, hhardclocks, hp.ticks]
  softticks := by rw [hsoftticks, hpasses, hp.softticks]
  passes := by rw [hpasses, hhardclocks]; exact hp.passes
  pass T cur ht := by rw [hpass, hpasses]; exact hp.pass T cur (hscan ▸ ht)
  cursor T cur ht := by rw [h.bucket, h.callwheel]; exact hp.cursor T cur (hscan ▸ ht)
  null := hnull
  missed c hc q hlt hle hq := by
    rw [h.armingOf] at hlt
    rw [(h.callout c).1]
    refine hp.missed c (h.pending_iff.1 hc) q hlt (hpasses ▸ hle) fun hs => hq ?_
    rw [State.InPass, hscan, hpass]; exact hs
  ahead T cur ht c hc htime hlt := by
    rw [h.armingOf, hpass] at hlt
    rw [(h.callout c).1] at htime
    rw [h.bucket, h.callwheel]; exact hp.ahead T cur (hscan ▸ ht) c (h.pending_iff.1 hc) htime hlt

end Same

/-! ## `callout_stop` -/

theorem calloutStop_of_not_pending (h : ¬s.Pending c) : calloutStop s c =
    (0, s.setCallout c { s.callout c with
      c_flags := { (s.callout c).c_flags with active := false } }) :=
  if_pos (Bool.eq_false_iff.2 h)

/-- The state after `callout_stop` of a callout that is on the wheel. -/
theorem calloutStop_of_pending (h : s.Pending c) :
    TakenOff c s (calloutStop s c).2 ∧ (calloutStop s c).1 = 1 ∧
      (calloutStop s c).2.nextsoftcheck = s.moved c s.nextsoftcheck ∧
      (calloutStop s c).2.soft = s.soft ∧ (calloutStop s c).2.ticks = s.ticks ∧
      (calloutStop s c).2.softticks = s.softticks ∧
      (calloutStop s c).2.hist = { s.hist with stopped := s.hist.last c :: s.hist.stopped } := by
  have hne : ¬(s.callout c).c_flags.pending = false := fun hf => Bool.noConfusion (hf.symm.trans h)
  have hstop : calloutStop s c = _ := if_neg hne
  rw [hstop]
  cases hl : (s.callout c).c_flags.localAlloc
  all_goals
    refine ⟨⟨h, ?_, ?_, ?_, rfl, ?_, rfl, rfl, rfl, rfl⟩, rfl, rfl, rfl, rfl, rfl, rfl⟩
    · simp [State.Pending, State.setCallout, State.free, State.stopped, State.remove]
    · simp [State.setCallout, State.free, State.stopped, State.remove, hl]
    · intro d hd; simp [State.setCallout, State.free, State.stopped, State.remove, hd]
    · simp [State.setCallout, State.free, State.stopped, State.remove, hl]

theorem scanning_of_unlocked (h : s.soft.locked = false) :
    s.soft = .idle ∨ ∃ T, s.scanning = some (T, s.nextsoftcheck) := by
  rw [State.scanning]
  cases hs : s.soft with
  | idle => exact .inl rfl
  | test _ => exact absurd h (by rw [hs]; exact Bool.noConfusion)
  | scan _ _ _ => exact absurd h (by rw [hs]; exact Bool.noConfusion)
  | chance T => exact .inr ⟨T, rfl⟩
  | dispatched T _ => exact .inr ⟨T, rfl⟩
  | handler T _ => exact .inr ⟨T, rfl⟩

theorem setCallout_self (s : State) (c : Cid) (x : Callout) : (s.setCallout c x).callout c = x := by
  simp [State.setCallout]

theorem setCallout_of_ne (hd : d ≠ c) (x : Callout) :
    (s.setCallout c x).callout d = s.callout d := by
  simp [State.setCallout, hd]

theorem setCallout_same {x : Callout} (htime : x.c_time = (s.callout c).c_time)
    (hfunc : x.c_func = (s.callout c).c_func) (harg : x.c_arg = (s.callout c).c_arg)
    (hpending : x.c_flags.pending = (s.callout c).c_flags.pending)
    (hlocal : x.c_flags.localAlloc = (s.callout c).c_flags.localAlloc) :
    Same s (s.setCallout c x) where
  callout d := by
    by_cases hd : d = c
    · subst hd
      rw [setCallout_self]; exact ⟨htime, hfunc, harg, hpending, hlocal⟩
    · rw [setCallout_of_ne hd]; exact ⟨rfl, rfl, rfl, rfl, rfl⟩
  callfree := rfl
  callwheel := rfl
  mask := rfl
  armed := rfl
  arming := rfl
  last := rfl
  stopped := rfl
  taken := rfl

theorem calloutStop_inv (h : Inv s) (hs : s.soft.locked = false) (c : Cid) :
    Inv (calloutStop s c).2 := by
  by_cases hc : s.Pending c
  · obtain ⟨hoff, -, hnext, hsoft, hticks, hsoftticks, hhist⟩ := calloutStop_of_pending hc
    set t := (calloutStop s c).2
    have hscan : t.scanning = s.scanning.map fun p => (p.1, s.moved c p.2) := by
      rw [State.scanning, hsoft, hnext, State.scanning]
      cases hs' : s.soft with
      | scan _ _ _ => exact absurd hs (by rw [hs']; exact Bool.noConfusion)
      | _ => rfl
    have hnull : t.soft = .idle → t.nextsoftcheck = none := fun ht => by
      rw [hnext, h.null (hsoft ▸ ht)]; exact if_neg (some_ne_none c).symm
    have hcount : ∀ n, t.hist.stopped.count n + t.hist.taken.count n =
        s.hist.stopped.count n + s.hist.taken.count n + if s.hist.last c = n then 1 else 0 :=
      fun n => by
        rw [hhist]
        simp only [count_cons, beq_iff_eq]; omega
    exact { hoff.inWheel h.toWheel, hoff.passes h.toWheel h.toPasses hscan hticks hsoftticks
              (by rw [hhist]) (by rw [hhist]) (by rw [hhist]) hnull with
      last := hoff.recordLast h.toRecord
      arming := hoff.recordArming h.toRecord
      tick := hoff.recordTick h.toRecord
      fate := hoff.fate h.toRecord hcount
      taken := fun n => by
        have hdue : Due t n ↔ Due s n := by rw [Due, Due, State.due, hsoft, State.due]
        have hold := h.taken n
        rw [hhist]
        simp only [hdue]; exact hold
      called := fun call hcall => hoff.right (h.called call (by rwa [hhist] at hcall))
      due := fun call hcall => hoff.right (h.due call (by rwa [State.due, hsoft] at hcall)) }
  · rw [calloutStop_of_not_pending hc]
    have hsame : Same s (s.setCallout c { s.callout c with
        c_flags := { (s.callout c).c_flags with active := false } }) :=
      setCallout_same rfl rfl rfl rfl rfl
    exact { hsame.inWheel h.toWheel, hsame.passes h.toPasses rfl rfl rfl rfl rfl rfl h.null,
      hsame.record_of_called h.toRecord rfl rfl with }

/-! ## `callout_reset`, `timeout` and `untimeout` -/

/-- The number of ticks to wait, at least one. -/
def wait (to_ticks : BitVec 32) : BitVec 32 := if to_ticks.toInt ≤ 0 then 1 else to_ticks

theorem wait_pos (to_ticks : BitVec 32) : 0 < (wait to_ticks).toNat := by
  rw [wait]
  split
  · decide
  · next hpos =>
    rw [Nat.pos_iff_ne_zero]
    intro hzero
    rw [BitVec.toInt_eq_toNat_cond, hzero] at hpos; exact hpos (by decide)

/-- What `callout_reset` does with a callout that is not on the wheel. -/
theorem calloutReset_putOn (h : ¬s.Pending c) :
    PutOn c (s.hist.hardclocks + (wait to_ticks).toNat) s (calloutReset s c to_ticks ftn arg) ∧
      ((calloutReset s c to_ticks ftn arg).callout c).c_time = s.ticks + wait to_ticks := by
  have hs : (if (s.callout c).c_flags.pending = true then (calloutStop s c).2 else s) = s :=
    if_neg h
  rw [calloutReset]
  simp only [hs]
  refine ⟨⟨h, ?_, ?_, ?_, ?_, rfl, rfl, rfl, rfl, rfl, rfl, ?_⟩, ?_⟩
  · simp [State.Pending, State.setCallout, State.insertTail, State.arm]
  · simp [State.setCallout, State.insertTail, State.arm]
  · intro d hd; simp [State.setCallout, State.insertTail, State.arm, hd]
  · simp [State.setCallout, State.insertTail, State.arm, State.bucket]
  · simp [State.setCallout, State.insertTail, State.arm, wait]
  · simp [State.setCallout, State.insertTail, State.arm, wait]

theorem calloutReset_inv_of_not_pending (h : Inv s) (hp : ¬s.Pending c) (hc : c ∉ s.callfree) :
    Inv (calloutReset s c to_ticks ftn arg) := by
  obtain ⟨hput, htime⟩ := @calloutReset_putOn s c to_ticks ftn arg hp
  have hlt : s.hist.passes < s.hist.hardclocks + (wait to_ticks).toNat :=
    lt_of_le_of_lt h.passes (Nat.lt_add_of_pos_right (wait_pos to_ticks))
  refine hput.inv h hc hlt ?_
  rw [htime, h.ticks, BitVec.ofNat_add, BitVec.ofNat_toNat, BitVec.setWidth_eq]

theorem calloutReset_of_pending (h : s.Pending c) : calloutReset s c to_ticks ftn arg =
    calloutReset (calloutStop s c).2 c to_ticks ftn arg := by
  have hs : (if (s.callout c).c_flags.pending = true then (calloutStop s c).2 else s) =
    (calloutStop s c).2 := if_pos h
  have hoff : (if ((calloutStop s c).2.callout c).c_flags.pending = true then
      (calloutStop (calloutStop s c).2 c).2 else (calloutStop s c).2) = (calloutStop s c).2 :=
    if_neg (calloutStop_of_pending h).1.off
  rw [calloutReset, calloutReset]; simp only [hs, hoff]

theorem calloutReset_inv (h : Inv s) (hs : s.soft.locked = false)
    (hc : (s.callout c).c_flags.localAlloc = false) :
    Inv (calloutReset s c to_ticks ftn arg) := by
  have hfree : ∀ {t : State}, Inv t → (t.callout c).c_flags.localAlloc = false → c ∉ t.callfree :=
    fun ht hl hmem => Bool.noConfusion (hl.symm.trans (ht.free c hmem).1)
  by_cases hp : s.Pending c
  · have hstop := calloutStop_inv h hs c
    obtain ⟨hoff, -⟩ := calloutStop_of_pending hp
    rw [calloutReset_of_pending hp]
    exact calloutReset_inv_of_not_pending hstop hoff.off (hfree hstop (hoff.localAlloc.trans hc))
  · exact calloutReset_inv_of_not_pending h hp (hfree h hc)

theorem timeout_inv (h : Inv s) {new : Cid} (ht : timeout s ftn arg to_ticks = some (new, t)) :
    Inv t := by
  rw [timeout] at ht
  split at ht
  · cases ht
  · next c callfree hfree =>
    obtain ⟨rfl, rfl⟩ := Prod.mk.inj (some.inj ht)
    have hnodup := nodup_cons.1 (hfree ▸ h.free_nodup)
    -- the free list without its first callout
    have hs : Inv { s with callfree } := { h with
      free_nodup := hnodup.2
      free := fun d hd => h.free d (hfree ▸ mem_cons_of_mem c hd) }
    have hoff : ¬State.Pending { s with callfree } c := (h.free c (hfree ▸ mem_cons_self)).2
    exact calloutReset_inv_of_not_pending hs hoff hnodup.1

theorem untimeout_inv (h : Inv s) (hs : s.soft.locked = false) (ftn arg : ℕ)
    (handle : Option Cid) : Inv (untimeout s ftn arg handle) := by
  cases handle with
  | none => exact h
  | some c =>
    rw [untimeout]
    split
    · exact calloutStop_inv h hs c
    · exact h

/-! ## `hardclock` -/

theorem ofNat_succ (n : ℕ) : BitVec.ofNat 32 (n + 1) = BitVec.ofNat 32 n + 1 := by
  rw [BitVec.ofNat_add]; rfl

theorem hardclock_inv (h : Inv s) : Inv (hardclock s) := by
  have hticks : s.ticks + 1 = BitVec.ofNat 32 (s.hist.hardclocks + 1) := by
    rw [h.ticks, ofNat_succ]
  have hle : s.hist.passes ≤ s.hist.hardclocks + 1 := Nat.le_succ_of_le h.passes
  rw [hardclock]
  split
  · exact { h with ticks := hticks, passes := hle }
  · next hempty =>
    have hempty : s.callwheel (s.bucket (s.ticks + 1)) = [] := not_not.1 hempty
    split
    · next hnext =>
      have hnext : s.softticks + 1 = s.ticks + 1 := hnext
      have hsoft : s.softticks + 1 = BitVec.ofNat 32 (s.hist.passes + 1) := by
        rw [h.softticks, ofNat_succ]
      exact { h with
        ticks := hticks
        softticks := hsoft
        passes := Nat.succ_le_succ h.passes
        pass := fun T cur ht => ⟨(h.pass T cur ht).1, Nat.le_succ_of_le (h.pass T cur ht).2⟩
        missed := fun c hc q hlt hq hin hq' => by
          rcases lt_or_ge s.hist.passes q with hgt | hge
          · -- the tick that is skipped has nothing in its bucket
            have hq1 : q = s.hist.passes + 1 := le_antisymm hq hgt
            have htime : s.ticks + 1 = (s.callout c).c_time := by
              rw [← hnext, hsoft, ← hq1]; exact hq'
            have hmem := (h.mem c _).2 ⟨hc, rfl⟩
            rw [← htime] at hmem; exact absurd (hempty ▸ hmem) not_mem_nil
          · exact h.missed c hc q hlt hge hin hq' }
    · exact { h with ticks := hticks, passes := hle }

/-! ## `softclock` -/

/-- A turn that only moves on. -/
theorem move_inv (h : Inv s) (hsame : Same s t) (hcalled : t.hist.called = s.hist.called)
    (hdue : t.due = s.due) (hpasses : Passes t) : Inv t :=
  { hsame.inWheel h.toWheel, hpasses, hsame.record_of_called h.toRecord hcalled hdue with }

theorem due_eq_none (h : ∀ T call, s.soft ≠ .dispatched T call) : s.due = none := by
  rw [State.due]
  cases hs : s.soft with
  | dispatched T call => exact absurd hs (h T call)
  | _ => rfl

theorem scanning_scan {steps : ℕ} (h : s.soft = .scan T cur steps) :
    s.scanning = some (T, cur) := by
  rw [State.scanning, h]

/-- A pass begins: everything in its bucket is ahead. -/
theorem softclock_pass (h : Inv s) {steps : ℕ} (hs : s.soft = .test steps)
    (hne : s.softticks ≠ s.ticks) : Passes { s with
      softticks := s.softticks + 1
      soft := .scan (s.softticks + 1) (s.callwheel (s.bucket (s.softticks + 1))).head? steps
      hist := { s.hist with passes := s.hist.passes + 1, pass := s.hist.passes + 1 } } := by
  have hsoft : s.softticks + 1 = BitVec.ofNat 32 (s.hist.passes + 1) := by
    rw [h.softticks, ofNat_succ]
  have hlt : s.hist.passes < s.hist.hardclocks := by
    refine lt_of_le_of_ne h.passes fun heq => hne ?_
    rw [h.softticks, h.ticks, heq]
  have hscan : s.scanning = none := by rw [State.scanning, hs]
  exact {
    ticks := h.ticks
    softticks := hsoft
    passes := hlt
    pass := fun T cur ht => by
      obtain ⟨rfl, -⟩ := Prod.mk.inj (some.inj ht)
      exact ⟨hsoft, le_rfl⟩
    cursor := fun T cur ht c hc => by
      obtain ⟨rfl, rfl⟩ := Prod.mk.inj (some.inj ht)
      exact mem_of_mem_head? hc
    null := fun ht => by cases ht
    missed := fun c hc q hq hle hin => by
      have hq1 : q ≠ s.hist.passes + 1 := fun heq => hin ⟨rfl, heq⟩
      refine h.missed c hc q hq (Nat.le_of_lt_succ (lt_of_le_of_ne hle hq1)) fun hs' => ?_
      rw [State.InPass, hscan] at hs'; exact Bool.false_ne_true hs'.1
    ahead := fun T cur ht c hc htime _ => by
      obtain ⟨rfl, rfl⟩ := Prod.mk.inj (some.inj ht)
      have hmem : c ∈ s.callwheel (s.bucket (s.softticks + 1)) := by
        rw [← htime]; exact (h.mem c _).2 ⟨hc, rfl⟩
      exact (ahead_head (s.callwheel (s.bucket (s.softticks + 1)))).symm ▸ hmem }

/-- A pass is over: nothing that was armed before it waits for it. -/
theorem softclock_over (h : Inv s) {steps : ℕ} (hs : s.soft = .scan T none steps) :
    Passes { s with soft := .test steps } := by
  have hscan := scanning_scan hs
  exact {
    ticks := h.ticks
    softticks := h.softticks
    passes := h.passes
    pass := fun T cur ht => by cases ht
    cursor := fun T cur ht => by cases ht
    null := fun ht => by cases ht
    missed := fun c hc q hq hle _ hq' => by
      by_cases hin : s.InPass q
      · obtain ⟨-, rfl⟩ := hin
        have htime : (s.callout c).c_time = T := by rw [(h.pass T none hscan).1]; exact hq'.symm
        exact absurd (h.ahead T none hscan c hc htime hq) not_mem_nil
      · exact h.missed c hc q hq hle hin hq'
    ahead := fun T cur ht => by cases ht }

/-- The cursor moves on from a callout that is not due. -/
theorem softclock_next (h : Inv s) {steps : ℕ} (hs : s.soft = .scan T (some c) steps)
    (hc : (s.callout c).c_time ≠ T) (hsame : Same s t)
    (hscan : t.scanning = some (T, after (s.callwheel (s.bucket T)) c))
    (hticks : t.ticks = s.ticks) (hsoftticks : t.softticks = s.softticks)
    (hhist : t.hist = s.hist) (hnull : t.soft ≠ .idle) : Passes t := by
  have hscan' := scanning_scan hs
  have hmem : c ∈ s.callwheel (s.bucket T) := h.cursor T _ hscan' c rfl
  have hwheel : t.callwheel (t.bucket T) = s.callwheel (s.bucket T) := by
    rw [hsame.callwheel, hsame.bucket]
  exact {
    ticks := by rw [hticks, hhist, h.ticks]
    softticks := by rw [hsoftticks, hhist, h.softticks]
    passes := by rw [hhist]; exact h.passes
    pass := fun T' cur ht => by
      rw [hscan] at ht
      obtain ⟨rfl, -⟩ := Prod.mk.inj (some.inj ht)
      rw [hhist]; exact h.pass T _ hscan'
    cursor := fun T' cur ht d hd => by
      rw [hscan] at ht
      obtain ⟨rfl, rfl⟩ := Prod.mk.inj (some.inj ht)
      rw [hwheel]; exact mem_of_after hd
    null := fun ht => absurd ht hnull
    missed := fun d hd q hq hle hin => by
      rw [hsame.armingOf] at hq
      rw [(hsame.callout d).1]
      refine h.missed d (hsame.pending_iff.1 hd) q hq (hhist ▸ hle) fun hs' => hin ?_
      rw [State.InPass, hscan, hhist]; exact ⟨rfl, hs'.2⟩
    ahead := fun T' cur ht d hd htime hlt => by
      rw [hscan] at ht
      obtain ⟨rfl, rfl⟩ := Prod.mk.inj (some.inj ht)
      rw [(hsame.callout d).1] at htime
      rw [hsame.armingOf, hhist] at hlt
      have hahead := h.ahead T _ hscan' d (hsame.pending_iff.1 hd) htime hlt
      have hdc : d ≠ c := fun hdc => hc (hdc ▸ htime)
      rw [hwheel]
      exact mem_ahead_after (h.nodup _) hmem hahead hdc }

/-- `dispatch` takes the callout off the wheel. -/
theorem dispatch_takenOff (h : s.Pending c) (hc : (s.callout c).c_time = T) :
    TakenOff c s (dispatch s T c) ∧
      (dispatch s T c).nextsoftcheck = after (s.callwheel (s.bucket T)) c ∧
      (dispatch s T c).ticks = s.ticks ∧ (dispatch s T c).softticks = s.softticks ∧
      (dispatch s T c).soft = .dispatched T ⟨c, (s.callout c).c_func, (s.callout c).c_arg,
        (s.callout c).c_flags, s.hist.last c, s.hist.pass⟩ ∧
      (dispatch s T c).hist = { s.hist with taken := s.hist.last c :: s.hist.taken } := by
  subst hc
  rw [dispatch]
  cases hl : (s.callout c).c_flags.localAlloc
  all_goals
    refine ⟨⟨h, ?_, ?_, ?_, rfl, ?_, rfl, rfl, rfl, rfl⟩, rfl, rfl, rfl, rfl, rfl⟩
    · simp [State.Pending, State.setCallout, State.free, State.remove]
    · simp [State.setCallout, State.free, State.remove, hl]
    · intro d hd; simp [State.setCallout, State.free, State.remove, hd]
    · simp [State.setCallout, State.free, State.remove, hl]

theorem dispatch_inv (h : Inv s) {steps : ℕ} (hs : s.soft = .scan T (some c) steps)
    (hc : (s.callout c).c_time = T) : Inv (dispatch s T c) := by
  have hscan := scanning_scan hs
  have hpending : s.Pending c := ((h.mem c _).1 (h.cursor T _ hscan c rfl)).1
  obtain ⟨hoff, hnext, hticks, hsoftticks, hsoft, hhist⟩ := dispatch_takenOff hpending hc
  set t := dispatch s T c
  have hscan' : t.scanning = s.scanning.map fun p => (p.1, s.moved c p.2) := by
    rw [hscan, State.scanning, hsoft, hnext, ← hc]
    exact congrArg (fun x => some (_, x)) (if_pos rfl).symm
  have hnull : t.soft = .idle → t.nextsoftcheck = none := fun ht => by
    rw [hsoft] at ht
    cases ht
  have hdue : s.due = none := due_eq_none fun T call ht => by
    rw [hs] at ht
    cases ht
  have hcount : ∀ n, t.hist.stopped.count n + t.hist.taken.count n =
      s.hist.stopped.count n + s.hist.taken.count n + if s.hist.last c = n then 1 else 0 :=
    fun n => by
      rw [hhist]
      simp only [count_cons, beq_iff_eq]; omega
  obtain ⟨hT, hpass⟩ := h.pass T _ hscan
  exact { hoff.inWheel h.toWheel, hoff.passes h.toWheel h.toPasses hscan' hticks hsoftticks
            (by rw [hhist]) (by rw [hhist]) (by rw [hhist]) hnull with
    last := hoff.recordLast h.toRecord
    arming := hoff.recordArming h.toRecord
    tick := hoff.recordTick h.toRecord
    fate := hoff.fate h.toRecord hcount
    taken := fun n => by
      have hold := h.taken n
      have hnot : ¬Due s n := fun hd => by
        rw [Due, hdue] at hd
        cases hd
      have hiff : Due t n ↔ s.hist.last c = n := by
        rw [Due, State.due, hsoft]; exact some_inj
      rw [if_neg hnot, add_zero] at hold
      rw [hhist]; simp only [hiff, count_cons, beq_iff_eq, hold]
    called := fun call hcall => hoff.right (h.called call (by rwa [hhist] at hcall))
    due := fun call hcall => by
      rw [State.due, hsoft] at hcall
      obtain rfl := some.inj hcall
      refine hoff.right ⟨h.last c hpending, (s.armingOf c).passes, (s.armingOf c).due, ?_,
        fun q hlt hq => ?_⟩
      · rw [← hT, ← hc]; exact h.arming c hpending
      · rw [← hT, ← hc]
        exact h.missed c hpending q hlt (hq.le.trans hpass) fun hin => hq.ne hin.2 }

theorem softclock_inv (h : Inv s) : Inv (softclock s) := by
  have hdue : (∀ T call, s.soft ≠ .dispatched T call) → s.due = none := due_eq_none
  have hsame : ∀ (soft : Soft) (next : Option Cid), Same s { s with soft, nextsoftcheck := next } :=
    fun soft next => Same.of_callout rfl rfl rfl rfl rfl rfl rfl rfl rfl
  rw [softclock]
  cases hs : s.soft with
  | idle =>
    have hdue := hdue fun T call ht => by rw [hs] at ht; cases ht
    refine move_inv h (hsame _ _) rfl hdue.symm ?_
    refine (hsame _ _).passes h.toPasses ?_ rfl rfl rfl rfl rfl fun ht => by cases ht
    rw [State.scanning, State.scanning, hs]
  | test steps =>
    have hdue := hdue fun T call ht => by rw [hs] at ht; cases ht
    dsimp only
    split
    · next hne =>
      exact move_inv h (Same.of_callout rfl rfl rfl rfl rfl rfl rfl rfl rfl) rfl hdue.symm
        (softclock_pass h hs hne)
    · refine move_inv h (hsame _ _) rfl hdue.symm ?_
      refine (hsame _ _).passes h.toPasses ?_ rfl rfl rfl rfl rfl fun _ => rfl
      rw [State.scanning, State.scanning, hs]
  | scan T cur steps =>
    have hdue := hdue fun T call ht => by rw [hs] at ht; cases ht
    cases cur with
    | none => exact move_inv h (hsame _ _) rfl hdue.symm (softclock_over h hs)
    | some c =>
      dsimp only
      split
      · next hne =>
        split
        · exact move_inv h (hsame _ _) rfl hdue.symm
            (softclock_next h hs hne (hsame _ _) rfl rfl rfl rfl Soft.noConfusion)
        · exact move_inv h (hsame _ _) rfl hdue.symm
            (softclock_next h hs hne (hsame _ _) rfl rfl rfl rfl Soft.noConfusion)
      · next heq =>
        rw [not_not] at heq; exact dispatch_inv h hs heq
  | chance T =>
    have hdue := hdue fun T call ht => by rw [hs] at ht; cases ht
    refine move_inv h (hsame _ _) rfl hdue.symm ?_
    refine (hsame _ _).passes h.toPasses ?_ rfl rfl rfl rfl rfl fun ht => by cases ht
    rw [State.scanning, State.scanning, hs]
  | dispatched T call =>
    have hdue : s.due = some call := by rw [State.due, hs]
    have hsame : Same s { s with
        soft := .handler T call
        hist := { s.hist with called := call :: s.hist.called } } :=
      Same.of_callout rfl rfl rfl rfl rfl rfl rfl rfl rfl
    have hscan : some (T, s.nextsoftcheck) = s.scanning := by rw [State.scanning, hs]
    have htaken : ∀ n, calls n (call :: s.hist.called) + 0 = s.hist.taken.count n := fun n => by
      have hold := h.taken n
      rw [← hold, add_zero, calls, map_cons, count_cons, calls]
      refine congrArg _ (if_congr ?_ rfl rfl)
      rw [Due, hdue, beq_iff_eq]; exact some_inj.symm
    exact { hsame.inWheel h.toWheel,
      hsame.passes h.toPasses hscan rfl rfl rfl rfl rfl (fun ht => by cases ht),
      hsame.record h.toRecord htaken
        (fun c hc => (mem_cons.1 hc).elim (fun hc => .inr (hc ▸ hdue)) .inl)
        (fun c hc => by cases hc) with }
  | handler T call =>
    have hdue := hdue fun T call ht => by rw [hs] at ht; cases ht
    refine move_inv h (hsame _ _) rfl hdue.symm ?_
    refine (hsame _ _).passes h.toPasses ?_ rfl rfl rfl rfl rfl fun ht => by cases ht
    rw [State.scanning, State.scanning, hs]

end FreeBSD.KernTimeout
