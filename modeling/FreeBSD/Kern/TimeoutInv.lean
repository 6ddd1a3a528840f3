import FreeBSD.Kern.KernTimeout

/-!
# The invariant of the wheel, `kern/kern_timeout.c`

Every step takes a callout off the wheel, puts one on it, lets the scan go on, or moves the clock.
`TakenOff` and `PutOn` say what the first two do, and each part of the invariant is kept by both.
-/

namespace FreeBSD.KernTimeout

open Lib List

variable {s t : State} {c d : Cid} {T b : BitVec 32} {cur : Option Cid} {n q tick : ℕ}

namespace State

/-- The callout is on the wheel. -/
def Pending (s : State) (c : Cid) : Prop := (s.callout c).c_flags.pending = true

/-- The last arming of a callout. -/
def armingOf (s : State) (c : Cid) : Arming := s.hist.arming (s.hist.last c)

/-- The arming is the last of its callout, which is on the wheel. -/
def Waits (s : State) (n : ℕ) : Prop :=
  s.Pending (s.hist.arming n).c ∧ s.hist.last (s.hist.arming n).c = n

instance : Decidable (s.Pending c) := inferInstanceAs (Decidable (_ = true))

instance : Decidable (s.Waits n) := inferInstanceAs (Decidable (_ ∧ _))

/-- The bucket that is scanned and where the scan goes on. -/
def scanning (s : State) : Option (BitVec 32 × Option Cid) :=
  match s.soft with
  | .scan curticks c _ => some (curticks, c)
  | .chance curticks => some (curticks, s.nextsoftcheck)
  | .dispatched curticks _ => some (curticks, s.nextsoftcheck)
  | .handler curticks _ => some (curticks, s.nextsoftcheck)
  | _ => none

/-- Where a scan at `cur` goes on when `c` is taken off. -/
def moved (s : State) (c : Cid) (cur : Option Cid) : Option Cid :=
  if cur = some c then after (s.callwheel (s.bucket (s.callout c).c_time)) c else cur

/-- The bucket of pass `q` is being scanned. -/
def InPass (s : State) (q : ℕ) : Prop := s.scanning.isSome ∧ q = s.hist.pass

/-- The handler that is about to be called. -/
def due (s : State) : Option Call :=
  match s.soft with
  | .dispatched _ call => some call
  | _ => none

end State

/-! ## Invariant -/

/-- The pending callouts are in their buckets, and none is on the free list. -/
structure Wheel (s : State) : Prop where
  mem : ∀ c b, c ∈ s.callwheel b ↔ s.Pending c ∧ s.bucket (s.callout c).c_time = b
  nodup : ∀ b, (s.callwheel b).Nodup
  free_nodup : s.callfree.Nodup
  free : ∀ c ∈ s.callfree, (s.callout c).c_flags.localAlloc = true ∧ ¬s.Pending c
  client : ∀ i, (s.callout (.client i)).c_flags.localAlloc = false

/-- No pass for the tick of a pending callout was made since its arming, and one that is being made
    has the callout ahead of its cursor. -/
structure Passes (s : State) : Prop where
  ticks : s.ticks = BitVec.ofNat 32 s.hist.hardclocks
  softticks : s.softticks = BitVec.ofNat 32 s.hist.passes
  passes : s.hist.passes ≤ s.hist.hardclocks
  pass : ∀ T cur, s.scanning = some (T, cur) → T = BitVec.ofNat 32 s.hist.pass ∧
    s.hist.pass ≤ s.hist.passes
  cursor : ∀ T cur, s.scanning = some (T, cur) → ∀ c, cur = some c → c ∈ s.callwheel (s.bucket T)
  null : s.soft = .idle → s.nextsoftcheck = none
  missed : ∀ c, s.Pending c → ∀ q, (s.armingOf c).passes < q → q ≤ s.hist.passes → ¬s.InPass q →
    BitVec.ofNat 32 q ≠ (s.callout c).c_time
  ahead : ∀ T cur, s.scanning = some (T, cur) → ∀ c, s.Pending c → (s.callout c).c_time = T →
    (s.armingOf c).passes < s.hist.pass → c ∈ ahead (s.callwheel (s.bucket T)) cur

/-- A call is for an arming, in the first pass for its tick after it. -/
def Call.Right (s : State) (call : Call) : Prop :=
  call.arming < s.hist.armed ∧ ∃ passes due,
    s.hist.arming call.arming =
      ⟨call.c, call.c_func, call.c_arg, BitVec.ofNat 32 call.pass, passes, due⟩ ∧
    ∀ q, passes < q → q < call.pass → BitVec.ofNat 32 q ≠ BitVec.ofNat 32 call.pass

/-- How many of the calls are for arming `n`. -/
def calls (n : ℕ) (called : List Call) : ℕ := (called.map Call.arming).count n

/-- The handler of arming `n` is about to be called. -/
def Due (s : State) (n : ℕ) : Prop := s.due.map Call.arming = some n

instance : Decidable (Due s n) := inferInstanceAs (Decidable (_ = _))

/-- What became of the armings: each waits, was stopped or was taken off the wheel by `softclock`,
    which then calls it. -/
structure Record (s : State) : Prop where
  last : ∀ c, s.Pending c → s.hist.last c < s.hist.armed
  arming : ∀ c, s.Pending c → s.armingOf c =
    ⟨c, (s.callout c).c_func, (s.callout c).c_arg, (s.callout c).c_time, (s.armingOf c).passes,
      (s.armingOf c).due⟩
  tick : ∀ n < s.hist.armed, (s.hist.arming n).passes < (s.hist.arming n).due ∧
    (s.hist.arming n).c_time = BitVec.ofNat 32 (s.hist.arming n).due
  fate : ∀ n, s.hist.stopped.count n + s.hist.taken.count n + (if s.Waits n then 1 else 0) =
    if n < s.hist.armed then 1 else 0
  taken : ∀ n, calls n s.hist.called + (if Due s n then 1 else 0) = s.hist.taken.count n
  called : ∀ call ∈ s.hist.called, call.Right s
  due : ∀ call, s.due = some call → call.Right s

structure Inv (s : State) : Prop extends Wheel s, Passes s, Record s

/-! ## Taking a callout off the wheel -/

/-- The state after `c` was taken off the wheel, apart from where the scan is and the history of
    what became of the armings. -/
structure TakenOff (c : Cid) (s t : State) : Prop where
  pending : s.Pending c
  off : ¬t.Pending c
  localAlloc : (t.callout c).c_flags.localAlloc = (s.callout c).c_flags.localAlloc
  others : ∀ d, d ≠ c → t.callout d = s.callout d
  wheel : t.callwheel = Function.update s.callwheel (s.bucket (s.callout c).c_time)
    ((s.callwheel (s.bucket (s.callout c).c_time)).erase c)
  callfree : t.callfree =
    if (s.callout c).c_flags.localAlloc then c :: s.callfree else s.callfree
  mask : t.callwheelmask = s.callwheelmask
  armed : t.hist.armed = s.hist.armed
  arming : t.hist.arming = s.hist.arming
  last : t.hist.last = s.hist.last

namespace TakenOff

theorem pending_iff (h : TakenOff c s t) : t.Pending d ↔ d ≠ c ∧ s.Pending d := by
  by_cases hdc : d = c
  · subst hdc; exact ⟨fun hd => absurd hd h.off, fun hd => absurd rfl hd.1⟩
  · rw [State.Pending, h.others d hdc]; exact ⟨fun hd => ⟨hdc, hd⟩, fun hd => hd.2⟩

theorem bucket (h : TakenOff c s t) (T : BitVec 32) : t.bucket T = s.bucket T := by
  rw [State.bucket, h.mask, State.bucket]

theorem callwheel (h : TakenOff c s t) (b : BitVec 32) :
    t.callwheel b = if b = s.bucket (s.callout c).c_time then (s.callwheel b).erase c
      else s.callwheel b := by
  rw [h.wheel]
  by_cases hb : b = s.bucket (s.callout c).c_time
  · subst hb
    rw [Function.update_self, if_pos rfl]
  · rw [Function.update_of_ne hb, if_neg hb]

theorem inWheel (h : TakenOff c s t) (hw : Wheel s) : Wheel t where
  mem d b := by
    rw [h.callwheel, h.pending_iff, h.bucket]
    have hmem := hw.mem d b
    by_cases hdc : d = c
    · subst hdc
      by_cases hb : b = s.bucket (s.callout d).c_time
      · rw [if_pos hb]
        exact ⟨fun hd => absurd hd (List.Nodup.not_mem_erase (hw.nodup b)),
          fun hd => absurd rfl hd.1.1⟩
      · rw [if_neg hb, hmem]; exact ⟨fun hd => absurd hd.2.symm hb, fun hd => absurd rfl hd.1.1⟩
    · have hsame : d ∈ (if b = s.bucket (s.callout c).c_time then (s.callwheel b).erase c
          else s.callwheel b) ↔ d ∈ s.callwheel b := by
        split
        · exact mem_erase_of_ne hdc
        · exact Iff.rfl
      rw [hsame, hmem, h.others d hdc]
      exact ⟨fun hd => ⟨⟨hdc, hd.1⟩, hd.2⟩, fun hd => ⟨hd.1.2, hd.2⟩⟩
  nodup b := by
    rw [h.callwheel]
    split
    · exact (hw.nodup b).erase c
    · exact hw.nodup b
  free_nodup := by
    rw [h.callfree]
    split
    · exact nodup_cons.2 ⟨fun hc => (hw.free c hc).2 h.pending, hw.free_nodup⟩
    · exact hw.free_nodup
  free d hd := by
    rw [h.callfree] at hd
    by_cases hdc : d = c
    · subst hdc
      refine ⟨?_, h.off⟩
      rw [h.localAlloc]
      by_contra hl
      rw [if_neg hl] at hd; exact (hw.free d hd).2 h.pending
    · have hd' : d ∈ s.callfree := by
        split at hd
        · exact (mem_cons.1 hd).resolve_left hdc
        · exact hd
      rw [h.others d hdc, h.pending_iff]
      exact ⟨(hw.free d hd').1, fun hp => (hw.free d hd').2 hp.2⟩
  client i := by
    by_cases hi : Cid.client i = c
    · subst hi; exact h.localAlloc.trans (hw.client i)
    · rw [h.others _ hi]; exact hw.client i

theorem armingOf (h : TakenOff c s t) (d : Cid) : t.armingOf d = s.armingOf d := by
  rw [State.armingOf, h.arming, h.last, State.armingOf]

theorem waits_iff (h : TakenOff c s t) (hr : Record s) :
    t.Waits n ↔ s.Waits n ∧ n ≠ s.hist.last c := by
  rw [State.Waits, h.arming, h.last, h.pending_iff]
  constructor
  · rintro ⟨⟨hne, hp⟩, hn⟩
    refine ⟨⟨hp, hn⟩, fun hnc => hne ?_⟩
    subst hnc; exact congrArg Arming.c (hr.arming c h.pending)
  · rintro ⟨⟨hp, hn⟩, hne⟩
    refine ⟨⟨fun hc => hne ?_, hp⟩, hn⟩
    rw [← hn, hc]

/-- The arming that is taken off waited. -/
theorem waits (h : TakenOff c s t) (hr : Record s) : s.Waits (s.hist.last c) := by
  have hc : (s.hist.arming (s.hist.last c)).c = c := congrArg Arming.c (hr.arming c h.pending)
  rw [State.Waits, hc]; exact ⟨h.pending, rfl⟩

/-- What becomes of the arming is one thing more that is counted. -/
theorem fate (h : TakenOff c s t) (hr : Record s)
    (hcount : ∀ n, t.hist.stopped.count n + t.hist.taken.count n =
      s.hist.stopped.count n + s.hist.taken.count n + if s.hist.last c = n then 1 else 0) (n : ℕ) :
    t.hist.stopped.count n + t.hist.taken.count n + (if t.Waits n then 1 else 0) =
      if n < t.hist.armed then 1 else 0 := by
  have hold := hr.fate n
  rw [hcount, h.armed, ← hold]
  by_cases hn : s.hist.last c = n
  · have hw : s.Waits n := hn ▸ h.waits hr
    have hw' : ¬t.Waits n := fun ht => ((h.waits_iff hr).1 ht).2 hn.symm
    rw [if_pos hn, if_pos hw, if_neg hw']
  · rw [if_neg hn, add_zero]
    have hiff : t.Waits n ↔ s.Waits n :=
      (h.waits_iff hr).trans ⟨fun hw => hw.1, fun hw => ⟨hw, fun hc => hn hc.symm⟩⟩
    by_cases hw : s.Waits n
    · rw [if_pos hw, if_pos (hiff.2 hw)]
    · rw [if_neg hw, if_neg (mt hiff.1 hw)]

theorem recordLast (h : TakenOff c s t) (hr : Record s) (d : Cid) (hd : t.Pending d) :
    t.hist.last d < t.hist.armed := by
  rw [h.last, h.armed]; exact hr.last d (h.pending_iff.1 hd).2

theorem recordArming (h : TakenOff c s t) (hr : Record s) (d : Cid) (hd : t.Pending d) :
    t.armingOf d = ⟨d, (t.callout d).c_func, (t.callout d).c_arg, (t.callout d).c_time,
      (t.armingOf d).passes, (t.armingOf d).due⟩ := by
  obtain ⟨hdc, hd⟩ := h.pending_iff.1 hd
  rw [h.armingOf, h.others d hdc]; exact hr.arming d hd

theorem recordTick (h : TakenOff c s t) (hr : Record s) (n : ℕ) (hn : n < t.hist.armed) :
    (t.hist.arming n).passes < (t.hist.arming n).due ∧
      (t.hist.arming n).c_time = BitVec.ofNat 32 (t.hist.arming n).due := by
  rw [h.arming]; exact hr.tick n (h.armed ▸ hn)

theorem right (h : TakenOff c s t) {call : Call} (hc : call.Right s) : call.Right t := by
  rw [Call.Right, h.armed, h.arming]; exact hc

/-- The callouts that are left have missed no pass, and are still ahead of the cursor. -/
theorem passes (h : TakenOff c s t) (hw : Wheel s) (hp : Passes s)
    (hscan : t.scanning = s.scanning.map fun p => (p.1, s.moved c p.2))
    (hticks : t.ticks = s.ticks) (hsoftticks : t.softticks = s.softticks)
    (hhardclocks : t.hist.hardclocks = s.hist.hardclocks) (hpasses : t.hist.passes = s.hist.passes)
    (hpass : t.hist.pass = s.hist.pass) (hnull : t.soft = .idle → t.nextsoftcheck = none) :
    Passes t := by
  have hat : ∀ T cur', t.scanning = some (T, cur') →
      ∃ cur, s.scanning = some (T, cur) ∧ cur' = s.moved c cur := fun T cur' ht => by
    rw [hscan, Option.map_eq_some_iff] at ht
    obtain ⟨⟨T', cur⟩, hs, heq⟩ := ht
    obtain ⟨rfl, rfl⟩ := Prod.mk.inj heq
    exact ⟨cur, hs, rfl⟩
  -- a cursor at `c` is in the bucket that `c` is taken from
  have hbucket : ∀ T, s.scanning = some (T, some c) → s.bucket T = s.bucket (s.callout c).c_time :=
    fun T hs => ((hw.mem c _).1 (hp.cursor T _ hs c rfl)).2.symm
  exact {
    ticks := by rw [hticks, hhardclocks, hp.ticks]
    softticks := by rw [hsoftticks, hpasses, hp.softticks]
    passes := by rw [hpasses, hhardclocks]; exact hp.passes
    pass := fun T cur' ht => by
      obtain ⟨cur, hs, -⟩ := hat T cur' ht
      rw [hpass, hpasses]; exact hp.pass T cur hs
    cursor := fun T cur' ht d hd => by
      obtain ⟨cur, hs, rfl⟩ := hat T cur' ht
      rw [h.bucket, h.callwheel]
      by_cases hcur : cur = some c
      · subst hcur
        rw [State.moved, if_pos rfl, ← hbucket T hs] at hd
        rw [if_pos (hbucket T hs)]; exact after_mem_erase (hw.nodup _) (hp.cursor T _ hs c rfl) d hd
      · rw [State.moved, if_neg hcur] at hd
        have hmem := hp.cursor T cur hs
        split
        · exact cursor_erase hmem hcur d hd
        · exact hmem d hd
    null := hnull
    missed := fun d hd q hlt hle hq => by
      obtain ⟨hdc, hd⟩ := h.pending_iff.1 hd
      rw [h.armingOf] at hlt
      rw [h.others d hdc]
      refine hp.missed d hd q hlt (hpasses ▸ hle) fun hs => hq ?_
      rw [State.InPass, hscan, hpass, Option.isSome_map]; exact hs
    ahead := fun T cur' ht d hd htime hlt => by
      obtain ⟨cur, hs, rfl⟩ := hat T cur' ht
      obtain ⟨hdc, hd⟩ := h.pending_iff.1 hd
      rw [h.others d hdc] at htime
      rw [h.armingOf, hpass] at hlt
      have hahead := hp.ahead T cur hs d hd htime hlt
      rw [h.bucket, h.callwheel]
      by_cases hcur : cur = some c
      · subst hcur
        rw [State.moved, if_pos rfl, ← hbucket T hs, if_pos rfl]
        exact mem_ahead_erase_self (hw.nodup _) (hp.cursor T _ hs c rfl) hahead hdc
      · rw [State.moved, if_neg hcur]
        split
        · exact mem_ahead_erase hahead hdc hcur
        · exact hahead }

end TakenOff

/-! ## Putting a callout on the wheel -/

/-- The state after `c` was armed, to be due at `tick`. -/
structure PutOn (c : Cid) (tick : ℕ) (s t : State) : Prop where
  pending : ¬s.Pending c
  on : t.Pending c
  localAlloc : (t.callout c).c_flags.localAlloc = (s.callout c).c_flags.localAlloc
  others : ∀ d, d ≠ c → t.callout d = s.callout d
  wheel : t.callwheel = Function.update s.callwheel (s.bucket (t.callout c).c_time)
    (s.callwheel (s.bucket (t.callout c).c_time) ++ [c])
  callfree : t.callfree = s.callfree
  mask : t.callwheelmask = s.callwheelmask
  nextsoftcheck : t.nextsoftcheck = s.nextsoftcheck
  soft : t.soft = s.soft
  ticks : t.ticks = s.ticks
  softticks : t.softticks = s.softticks
  hist : t.hist = { s.hist with
    armed := s.hist.armed + 1
    arming := Function.update s.hist.arming s.hist.armed
      ⟨c, (t.callout c).c_func, (t.callout c).c_arg, (t.callout c).c_time, s.hist.passes, tick⟩
    last := Function.update s.hist.last c s.hist.armed }

namespace PutOn

theorem pending_iff (h : PutOn c tick s t) : t.Pending d ↔ d = c ∨ s.Pending d := by
  by_cases hdc : d = c
  · subst hdc; exact ⟨fun _ => .inl rfl, fun _ => h.on⟩
  · rw [State.Pending, h.others d hdc]; exact ⟨fun hd => .inr hd, fun hd => hd.resolve_left hdc⟩

theorem bucket (h : PutOn c tick s t) (T : BitVec 32) : t.bucket T = s.bucket T := by
  rw [State.bucket, h.mask, State.bucket]

theorem callwheel (h : PutOn c tick s t) (b : BitVec 32) :
    t.callwheel b = if b = s.bucket (t.callout c).c_time then s.callwheel b ++ [c]
      else s.callwheel b := by
  rw [h.wheel]
  by_cases hb : b = s.bucket (t.callout c).c_time
  · rw [hb, Function.update_self, if_pos rfl]
  · rw [Function.update_of_ne hb, if_neg hb]

theorem inWheel (h : PutOn c tick s t) (hw : Wheel s) (hc : c ∉ s.callfree) : Wheel t where
  mem d b := by
    have hmem := hw.mem d b
    rw [h.callwheel, h.pending_iff, h.bucket]
    by_cases hdc : d = c
    · subst hdc
      have hd : d ∉ s.callwheel b := fun hd => h.pending (hmem.1 hd).1
      split
      · next hb => exact ⟨fun _ => ⟨.inl rfl, hb.symm⟩,
          fun _ => mem_append_right _ mem_cons_self⟩
      · next hb => exact ⟨fun hd' => absurd hd' hd, fun hd' => absurd hd'.2.symm hb⟩
    · have hsame : d ∈ (if b = s.bucket (t.callout c).c_time then s.callwheel b ++ [c]
          else s.callwheel b) ↔ d ∈ s.callwheel b := by
        split
        · rw [mem_append, mem_singleton, or_iff_left hdc]
        · exact Iff.rfl
      rw [hsame, hmem, h.others d hdc, or_iff_right hdc]
  nodup b := by
    rw [h.callwheel]
    split
    · refine nodup_append.2 ⟨hw.nodup b, nodup_singleton c, fun d hd e he hde => ?_⟩
      rw [mem_singleton.1 he] at hde; exact h.pending ((hw.mem c b).1 (hde ▸ hd)).1
    · exact hw.nodup b
  free_nodup := h.callfree ▸ hw.free_nodup
  free d hd := by
    rw [h.callfree] at hd
    have hdc : d ≠ c := fun hdc => hc (hdc ▸ hd)
    rw [h.others d hdc, h.pending_iff, or_iff_right hdc]; exact hw.free d hd
  client i := by
    by_cases hi : Cid.client i = c
    · subst hi; exact h.localAlloc.trans (hw.client i)
    · rw [h.others _ hi]; exact hw.client i

theorem armingOf_self (h : PutOn c tick s t) : t.armingOf c =
    ⟨c, (t.callout c).c_func, (t.callout c).c_arg, (t.callout c).c_time, s.hist.passes, tick⟩ := by
  rw [State.armingOf, h.hist]; simp only [Function.update_self]

theorem last_of_ne (h : PutOn c tick s t) (hdc : d ≠ c) : t.hist.last d = s.hist.last d := by
  rw [h.hist]; exact Function.update_of_ne hdc _ _

theorem arming_of_ne (h : PutOn c tick s t) (hn : n ≠ s.hist.armed) :
    t.hist.arming n = s.hist.arming n := by
  rw [h.hist]; exact Function.update_of_ne hn _ _

theorem armingOf_of_ne (h : PutOn c tick s t) (hr : Record s) (hdc : d ≠ c) (hd : s.Pending d) :
    t.armingOf d = s.armingOf d := by
  rw [State.armingOf, h.last_of_ne hdc, h.arming_of_ne (ne_of_lt (hr.last d hd)),
    State.armingOf]

/-- The callouts on the wheel are waiting for a pass that is to come, or is being made and has them
    ahead. -/
theorem passes (h : PutOn c tick s t) (hr : Record s) (hp : Passes s) : Passes t := by
  have hscan : t.scanning = s.scanning := by
    rw [State.scanning, h.soft, h.nextsoftcheck, State.scanning]
  have hpass : t.hist.pass = s.hist.pass := by rw [h.hist]
  have hpasses : t.hist.passes = s.hist.passes := by rw [h.hist]
  have hin : ∀ q, t.InPass q ↔ s.InPass q := fun q => by
    rw [State.InPass, State.InPass, hscan, hpass]
  exact {
    ticks := by rw [h.ticks, h.hist]; exact hp.ticks
    softticks := by rw [h.softticks, h.hist]; exact hp.softticks
    passes := by rw [h.hist]; exact hp.passes
    pass := fun T cur hs => by rw [hpass, hpasses]; exact hp.pass T cur (hscan ▸ hs)
    cursor := fun T cur hs d hd => by
      have hmem := hp.cursor T cur (hscan ▸ hs) d hd
      rw [h.bucket, h.callwheel]
      split
      · exact mem_append_left _ hmem
      · exact hmem
    null := fun hs => by rw [h.nextsoftcheck]; exact hp.null (h.soft ▸ hs)
    missed := fun d hd q hlt hle hq => by
      rw [hpasses] at hle
      by_cases hdc : d = c
      · -- no pass was made since
        subst hdc
        rw [h.armingOf_self] at hlt; exact absurd hlt (not_lt.2 hle)
      · have hd' := (h.pending_iff.1 hd).resolve_left hdc
        rw [h.armingOf_of_ne hr hdc hd'] at hlt
        rw [h.others d hdc]; exact hp.missed d hd' q hlt hle fun hs => hq ((hin q).2 hs)
    ahead := fun T cur hs d hd ht hlt => by
      rw [hscan] at hs
      rw [hpass] at hlt
      by_cases hdc : d = c
      · subst hdc
        rw [h.armingOf_self] at hlt; exact absurd hlt (not_lt.2 (hp.pass T cur hs).2)
      · have hd' := (h.pending_iff.1 hd).resolve_left hdc
        rw [h.armingOf_of_ne hr hdc hd'] at hlt
        rw [h.others d hdc] at ht
        have hahead := hp.ahead T cur hs d hd' ht hlt
        rw [h.bucket, h.callwheel]
        split
        · exact mem_ahead_append hahead
        · exact hahead }

theorem record (h : PutOn c tick s t) (hr : Record s) (hlt : s.hist.passes < tick)
    (htime : (t.callout c).c_time = BitVec.ofNat 32 tick) : Record t := by
  have harmed : t.hist.armed = s.hist.armed + 1 := by rw [h.hist]
  have hright : ∀ call : Call, call.Right s → call.Right t := fun call hc => by
    rw [Call.Right, harmed, h.arming_of_ne (ne_of_lt hc.1)]
    exact ⟨Nat.lt_succ_of_lt hc.1, hc.2⟩
  exact {
    last := fun d hd => by
      rw [harmed]
      by_cases hdc : d = c
      · subst hdc
        rw [h.hist]
        simp only [Function.update_self]; exact Nat.lt_succ_self _
      · rw [h.last_of_ne hdc]
        exact Nat.lt_succ_of_lt (hr.last d ((h.pending_iff.1 hd).resolve_left hdc))
    arming := fun d hd => by
      by_cases hdc : d = c
      · subst hdc
        rw [h.armingOf_self]
      · have hd' := (h.pending_iff.1 hd).resolve_left hdc
        rw [h.armingOf_of_ne hr hdc hd', h.others d hdc]; exact hr.arming d hd'
    tick := fun n hn => by
      by_cases hnew : n = s.hist.armed
      · subst hnew
        rw [h.hist]
        simp only [Function.update_self]; exact ⟨hlt, htime⟩
      · rw [h.arming_of_ne hnew]
        have hle : n < s.hist.armed + 1 := harmed ▸ hn
        exact hr.tick n (lt_of_le_of_ne (Nat.le_of_lt_succ hle) hnew)
    fate := fun n => by
      have hold := hr.fate n
      have hstopped : t.hist.stopped = s.hist.stopped := by rw [h.hist]
      have htaken : t.hist.taken = s.hist.taken := by rw [h.hist]
      rw [hstopped, htaken, harmed]
      by_cases hn : n = s.hist.armed
      · -- the new arming, of which nothing was heard
        subst hn
        rw [if_neg (lt_irrefl _)] at hold
        have hc : (t.hist.arming s.hist.armed).c = c := by
          rw [h.hist]; simp only [Function.update_self]
        have hw : t.Waits s.hist.armed := by
          rw [State.Waits, hc, h.hist]; exact ⟨h.on, Function.update_self _ _ _⟩
        rw [if_pos hw, if_pos (Nat.lt_succ_self _)]; omega
      · have hlt : n < s.hist.armed + 1 ↔ n < s.hist.armed := by omega
        have hw : t.Waits n ↔ s.Waits n := by
          rw [State.Waits, State.Waits, h.arming_of_ne hn]
          by_cases hc : (s.hist.arming n).c = c
          · have hlast : t.hist.last c = s.hist.armed := by
              rw [h.hist]; exact Function.update_self _ _ _
            rw [hc, hlast]; exact ⟨fun hw => absurd hw.2.symm hn, fun hw => absurd hw.1 h.pending⟩
          · rw [h.last_of_ne hc, h.pending_iff, or_iff_right hc]
        simp only [hlt, hw]; exact hold
    taken := fun n => by
      have hdue : Due t n ↔ Due s n := by rw [Due, Due, State.due, h.soft, State.due]
      have hold := hr.taken n
      rw [h.hist]
      simp only [hdue]; exact hold
    called := fun call hcall => hright call (hr.called call (by rwa [h.hist] at hcall))
    due := fun call hcall => hright call (hr.due call (by rwa [State.due, h.soft] at hcall)) }

theorem inv (h : PutOn c tick s t) (hs : Inv s) (hc : c ∉ s.callfree) (hlt : s.hist.passes < tick)
    (htime : (t.callout c).c_time = BitVec.ofNat 32 tick) : Inv t :=
  { h.inWheel hs.toWheel hc, h.passes hs.toRecord hs.toPasses,
    h.record hs.toRecord hlt htime with }

end PutOn

end FreeBSD.KernTimeout
