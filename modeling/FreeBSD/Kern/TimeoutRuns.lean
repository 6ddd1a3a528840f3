import FreeBSD.Kern.TimeoutSteps

/-!
# Runs of the callout wheel, `kern/kern_timeout.c`

`softclock` drops the lock between taking a callout off the wheel and calling its handler, and may
wait there for `Giant`. A callout that is armed again and stopped in between is then called although
`callout_stop` has just returned 1: the call is that of the arming before.

Results:
* `callouts_of_run`: in every run each arming waits, was stopped, or was called once, in the first
  pass for its tick, and the wheel, the free list and `nextsoftcheck` are as they should be.
* `called_after_stop`: a call that comes after `callout_stop` returned 1.
-/

namespace FreeBSD.KernTimeout

open Lib List Option

variable {s t : State} {op : Op} {r : Ret} {ncallout : ℕ} {callwheelmask : BitVec 32}
  {mpsafe : ℕ → Bool}

/-- `callout_reset` is for callouts that its clients allocate, not for those of the table. -/
def ClientReset (_ : State) : Op → Prop
  | .calloutReset c _ _ _ => ∃ i, c = .client i
  | _ => True

theorem runOp_inv (h : Inv s) (hs : s.soft.locked = false) (hop : ClientReset s op)
    (hrun : runOp s op = some (t, r)) : Inv t := by
  cases op with
  | softclock =>
    obtain ⟨rfl, -⟩ := Prod.mk.inj (some.inj hrun)
    exact softclock_inv h
  | hardclock =>
    obtain ⟨rfl, -⟩ := Prod.mk.inj (some.inj hrun)
    exact hardclock_inv h
  | calloutReset c to_ticks ftn arg =>
    obtain ⟨rfl, -⟩ := Prod.mk.inj (some.inj hrun)
    obtain ⟨i, rfl⟩ := hop
    exact calloutReset_inv h hs (h.client i)
  | calloutStop c =>
    obtain ⟨rfl, -⟩ := Prod.mk.inj (some.inj hrun)
    exact calloutStop_inv h hs c
  | timeout ftn arg to_ticks =>
    rw [runOp] at hrun
    cases ht : timeout s ftn arg to_ticks with
    | none => simp [ht] at hrun
    | some p =>
      obtain ⟨c, u⟩ := p
      rw [ht] at hrun
      obtain ⟨rfl, -⟩ := Prod.mk.inj (some.inj hrun)
      exact timeout_inv h ht
  | untimeout ftn arg handle =>
    obtain ⟨rfl, -⟩ := Prod.mk.inj (some.inj hrun)
    exact untimeout_inv h hs ftn arg handle

theorem step_inv (h : Inv s) (hop : ClientReset s op) (hstep : step s op = some (t, r)) :
    Inv t := by
  rw [step] at hstep
  split at hstep
  · obtain ⟨rfl, -⟩ := Prod.mk.inj (some.inj hstep)
    exact softclock_inv h
  · split at hstep
    · cases hstep
    · next hs => exact runOp_inv h (Bool.eq_false_iff.2 hs) hop hstep

theorem init_not_pending (c : Cid) : ¬(init ncallout callwheelmask mpsafe).Pending c := by
  cases c with
  | table i => exact Bool.false_ne_true
  | client i => exact Bool.false_ne_true

theorem init_inv : Inv (init ncallout callwheelmask mpsafe) where
  mem c b := ⟨fun h => absurd h not_mem_nil, fun h => absurd h.1 (init_not_pending c)⟩
  nodup _ := nodup_nil
  free_nodup :=
    nodup_reverse.2 (nodup_range.map fun _ _ h => Cid.table.inj h)
  free c hc := by
    obtain ⟨i, -, rfl⟩ := mem_map.1 (mem_reverse.1 hc)
    exact ⟨rfl, Bool.false_ne_true⟩
  client _ := rfl
  ticks := rfl
  softticks := rfl
  passes := le_rfl
  pass _ _ h := by cases h
  cursor _ _ h := by cases h
  null _ := rfl
  missed c h := absurd h (init_not_pending c)
  ahead _ _ h := by cases h
  last c h := absurd h (init_not_pending c)
  arming c h := absurd h (init_not_pending c)
  tick n h := absurd h (Nat.not_lt_zero n)
  fate n := by rw [if_neg fun h => init_not_pending _ h.1]; exact (if_neg (Nat.not_lt_zero n)).symm
  taken _ := rfl
  called _ h := absurd h not_mem_nil
  due _ h := by cases h

/-- What the wheel does. -/
structure Served (s : State) : Prop where
  /-- A pending callout is in its bucket, once, and in no other. -/
  bucket : ∀ c b, (s.callwheel b).count c =
    if s.Pending c ∧ (s.callout c).c_time &&& s.callwheelmask = b then 1 else 0
  free : ∀ c ∈ s.callfree, ¬s.Pending c
  cursor : s.soft.locked = false → ∀ c, s.nextsoftcheck = some c → s.Pending c ∧
    ∃ T cur, s.scanning = some (T, cur) ∧ c ∈ s.callwheel (s.bucket T)
  /-- An arming waits, was stopped, is about to be called or was called, and only one of these. -/
  once : ∀ n < s.hist.armed, s.hist.stopped.count n + calls n s.hist.called +
    (if Due s n then 1 else 0) + (if s.Waits n then 1 else 0) = 1
  /-- A call is for its arming, and in the first pass for its tick since then. -/
  called : ∀ call ∈ s.hist.called, call.Right s
  /-- A call is not late, and early only if the ticks wrapped. -/
  onTime : ∀ call ∈ s.hist.called, ∀ a, s.hist.arming call.arming = a →
    call.pass ≤ a.due ∧ (a.due < call.pass + 2 ^ 32 → call.pass = a.due)
  /-- No pass for the tick of an arming is over that still waits. -/
  overdue : ∀ n, s.Waits n → ∀ q, (s.hist.arming n).passes < q → q ≤ s.hist.passes →
    ¬s.InPass q → BitVec.ofNat 32 q ≠ (s.hist.arming n).c_time

theorem ofNat_inj {m n : ℕ} (h : BitVec.ofNat 32 m = BitVec.ofNat 32 n) :
    m % 2 ^ 32 = n % 2 ^ 32 := by
  have := congrArg BitVec.toNat h
  simpa only [BitVec.toNat_ofNat] using this

/-- The call of an arming comes at the tick it is due at. -/
theorem Record.onTime (h : Record s) {call : Call} (hcall : call ∈ s.hist.called) :
    call.pass ≤ (s.hist.arming call.arming).due ∧
      ((s.hist.arming call.arming).due < call.pass + 2 ^ 32 →
        call.pass = (s.hist.arming call.arming).due) := by
  obtain ⟨hlt, passes, due, harming, hfirst⟩ := h.called call hcall
  obtain ⟨hpasses, htime⟩ := h.tick _ hlt
  rw [harming] at hpasses htime ⊢
  dsimp only at hpasses htime ⊢
  have hmod := ofNat_inj htime
  have hle : call.pass ≤ due := by
    by_contra hgt
    exact hfirst due hpasses (not_le.1 hgt) htime.symm
  exact ⟨hle, fun hwrap => by omega⟩

theorem Inv.served (h : Inv s) : Served s where
  bucket c b := by
    split
    · next hc => exact count_eq_one_of_mem (h.nodup b) ((h.mem c b).2 hc)
    · next hc => exact count_eq_zero.2 fun hmem => hc ((h.mem c b).1 hmem)
  free c hc := (h.free c hc).2
  cursor hs c hc := by
    rcases scanning_of_unlocked hs with hidle | ⟨T, hscan⟩
    · rw [h.null hidle] at hc
      cases hc
    · have hmem := h.cursor T _ hscan c hc
      exact ⟨((h.mem c _).1 hmem).1, T, _, hscan, hmem⟩
  once n hn := by
    have hfate := h.fate n
    have htaken := h.taken n
    rw [if_pos hn] at hfate; omega
  called := h.called
  onTime call hcall := by rintro a rfl; exact h.toRecord.onTime hcall
  overdue n hn q hlt hle hq := by
    have harming : s.armingOf (s.hist.arming n).c = s.hist.arming n := by
      rw [State.armingOf, hn.2]
    have htime := congrArg Arming.c_time (h.arming _ hn.1)
    rw [harming] at htime
    rw [htime]; exact h.missed _ hn.1 q (by rwa [harming]) hle hq

/-- **The callouts.** In every run each arming is called once, in the pass for its tick, unless it
    is stopped before `softclock` takes it off the wheel; then it is never called. -/
theorem callouts_of_run
    (hrun : Runs step ClientReset (init ncallout callwheelmask mpsafe) s) : Served s :=
  (hrun.invariant init_inv fun _ _ _ _ h hop hstep => step_inv h hop hstep).served

theorem callouts_of_run_tick :
    Served (hardclock (init 4 7 fun _ => true)) :=
  callouts_of_run (Runs.refl.tail (show ClientReset _ .hardclock from trivial) rfl)

/-- `softclock` takes a callout off the wheel; before it calls the handler the callout is armed
    again. -/
def rearmed : List Op :=
  [.calloutReset (.client 0) 1 7 8, .hardclock, .softclock, .softclock, .softclock,
    .calloutReset (.client 0) 5 7 8]

/-- `callout_stop` returns 1 for the callout, and the next step of `softclock` calls its handler. -/
def callsAfterStop (s : State) (c : Cid) : Bool :=
  match step s (.calloutStop c) with
  | some (t, .int 1) =>
    (softclock t).hist.called.any fun call => call.c = c ∧ call ∉ t.hist.called
  | _ => false

/-- A handler is called right after `callout_stop` returned 1 for its callout. -/
theorem called_after_stop :
    ¬∀ s t u c, Runs step ClientReset (init 4 7 fun _ => true) s →
      step s (.calloutStop c) = some (t, .int 1) → step t .softclock = some (u, .void) →
      ∀ call ∈ u.hist.called, call ∉ t.hist.called → call.c ≠ c := by
  intro h
  have hP : ∀ s, ∀ op ∈ rearmed, ClientReset s op := by
    intro s op hop
    simp only [rearmed, mem_cons, not_mem_nil, or_false] at hop
    rcases hop with rfl | rfl | rfl | rfl | rfl | rfl
    · exact ⟨0, rfl⟩
    · trivial
    · trivial
    · trivial
    · trivial
    · exact ⟨0, rfl⟩
  obtain ⟨s, hrun, hs⟩ := exists_of_exec step (P := ClientReset) (s := init 4 7 fun _ => true)
    (f := fun s => callsAfterStop s (.client 0)) (b := true) rearmed hP (by decide +kernel)
  rw [callsAfterStop] at hs
  split at hs
  · next t ht =>
    obtain ⟨call, hcall, hc⟩ := any_eq_true.1 hs
    obtain ⟨hcc, hnew⟩ := of_decide_eq_true hc
    exact h s t _ _ hrun ht rfl call hcall hnew hcc
  · cases hs

end FreeBSD.KernTimeout
