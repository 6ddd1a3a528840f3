import FreeBSD.Kern.LockfInv

/-!
# The steps of the threads

What the system calls and the threads that wake up do to `Inv`, for requests on
one file whose ranges do not make `off_t` arithmetic wrap around (`Op.Fits`).

Results:
* `flockRange_valid`: the ranges that `lf_advlock` accepts.
-/

namespace FreeBSD.KernLockf

open FreeBSD.Lib Entry List Function

/-! ## Ranges -/

/-- `lf_advlock` accepts the ranges `0 ≤ start ≤ end ≤ OFF_MAX`, and those up to the end of the
    file. -/
theorem flockRange_valid {fl : Flock} {size : ℕ} {range : ℤ × ℤ}
    (h : flockRange fl size = .ok range) :
    0 ≤ range.1 ∧ range.1 ≤ offMax ∧
      (range.2 = -1 ∨ range.1 ≤ range.2 ∧ range.2 ≤ offMax) := by
  have hs := fl.lStart.2
  have hl := fl.lLen.2
  have hrange : ∀ start : ℤ, start ≤ offMax →
      (if start < 0 then (.error .EINVAL : Except Errno (ℤ × ℤ))
        else if fl.lLen.1 < 0 then
          if start = 0 then .error .EINVAL
          else if start + fl.lLen.1 < 0 then .error .EINVAL
          else .ok (start + fl.lLen.1, start - 1)
        else if fl.lLen.1 = 0 then .ok (start, -1)
        else if fl.lLen.1 - 1 > offMax - start then .error .EOVERFLOW
        else .ok (start, start + (fl.lLen.1 - 1))) = .ok range →
      0 ≤ range.1 ∧ range.1 ≤ offMax ∧
        (range.2 = -1 ∨ range.1 ≤ range.2 ∧ range.2 ≤ offMax) := by
    intro start hstart heq
    split_ifs at heq <;> cases heq <;> dsimp only <;> omega
  unfold flockRange at h
  cases hw : fl.lWhence with
  | seekSet =>
    rw [hw] at h; exact hrange _ (by unfold offMax; omega) h
  | seekCur =>
    rw [hw] at h; exact hrange _ (by unfold offMax; omega) h
  | seekEnd =>
    rw [hw] at h
    by_cases hsize : (size : ℤ) > offMax ∨ (fl.lStart.1 > 0 ∧ (size : ℤ) > offMax - fl.lStart.1)
    · simp only [hsize, if_true] at h
      cases h
    · simp only [hsize, if_false] at h; exact hrange _ (by omega) h
  | other =>
    rw [hw] at h
    cases h

/-! ## Conditions on the requests -/

/-- A lock of another owner blocks the request. -/
def Blocked (k : Kern) (f : ℕ) (x : Lockf) : Prop :=
  ∃ a ∈ k.locks f, (k.lockf a).lfId ≠ x.lfId ∧
    ¬ noOverlap (k.lockf a).lfStart (k.lockf a).lfEnd x.lfStart x.lfEnd ∧
      (x.lfType = .wrlck ∨ (k.lockf a).lfType = .wrlck)

/-- A request that ends at `OFF_MAX` finds no lock of its owner that it would have to cut behind
    `OFF_MAX`: if one goes up to the end of the file, it contains the request and has its type. -/
def LockFits (k : Kern) (f : ℕ) (x : Lockf) : Prop :=
  x.lfEnd = offMax → ∀ a ∈ k.locks f, (k.lockf a).lfId = x.lfId → (k.lockf a).lfEnd = -1 →
    (k.lockf a).lfType = x.lfType ∧ (k.lockf a).lfStart ≤ x.lfStart

/-- An unlock request that ends at `OFF_MAX` finds no lock of its owner that goes up to the end of
    the file. -/
def UnlockFits (k : Kern) (f : ℕ) (x : Lockf) : Prop :=
  x.lfEnd = offMax → ∀ a ∈ k.locks f, (k.lockf a).lfId = x.lfId → (k.lockf a).lfEnd ≠ -1

/-- What `lf_setlock` does to the own locks fits: it adds a lock that nothing blocks, and removes
    the own locks before it waits for a lock of type `F_FLOCK`. -/
def SetFits (k : Kern) (f : ℕ) (x : Lockf) : Prop :=
  (¬ Blocked k f x → LockFits k f x) ∧
    (Blocked k f x → x.lfFlags.fWait → x.lfFlags.fFlock → x.lfType = .wrlck → UnlockFits k f x)

variable {k : Kern} {f td : ℕ} {l x l' : List Entry} {b : Lockf} {s t : Sys}

theorem Repr.forall_lock (hR : Repr k f l x) {P : LockType → ℤ → ℤ → ℕ → Prop} :
    (∀ a ∈ k.locks f, P (k.lockf a).lfType (k.lockf a).lfStart (k.lockf a).lfEnd (k.lockf a).lfId) ↔
      ∀ e ∈ l, P e.typ e.start e.end' e.id := by
  have h := hR.exists_lock (P := fun t s e i => ¬ P t s e i)
  rw [← not_iff_not]
  push Not
  exact h

theorem Repr.blocked_iff (hR : Repr k f l x) (b : Lockf) : Blocked k f b ↔ ∃ e ∈ l, Blocks e b :=
  hR.exists_lock (P := fun t s e i => i ≠ b.lfId ∧ ¬ noOverlap s e b.lfStart b.lfEnd ∧
    (b.lfType = .wrlck ∨ t = .wrlck))

theorem Repr.lockFits_iff (hR : Repr k f l x) (b : Lockf) :
    LockFits k f b ↔ (b.lfEnd = offMax → ∀ e ∈ l, e.id = b.lfId → e.end' = -1 →
      e.typ = b.lfType ∧ e.start ≤ b.lfStart) :=
  imp_congr_right fun _ => hR.forall_lock (P := fun t s e i => i = b.lfId → e = -1 →
    t = b.lfType ∧ s ≤ b.lfStart)

theorem Repr.unlockFits_iff (hR : Repr k f l x) (b : Lockf) : UnlockFits k f b ↔
      (b.lfEnd = offMax → ∀ e ∈ l, e.id = b.lfId → e.end' ≠ -1) :=
  imp_congr_right fun _ => hR.forall_lock (P := fun _ _ e i => i = b.lfId → e ≠ -1)

/-! ## The requests -/

/-- The ranges of requests that `lf_advlock` accepts. -/
def Lockf.Accepted (b : Lockf) : Prop :=
  0 ≤ b.lfStart ∧ b.lfStart ≤ offMax ∧ (b.lfEnd = -1 ∨ b.lfStart ≤ b.lfEnd ∧ b.lfEnd ≤ offMax)

/-- A new request, as an entry. -/
def Lockf.entry (b : Lockf) (addr : ℕ) : Entry := ⟨addr, b.lfType, b.lfStart, b.lfEnd, b.lfId, []⟩

theorem Lockf.Accepted.valid (h : b.Accepted) (addr : ℕ) : (b.entry addr).Valid :=
  ⟨h.1, h.2.1, h.2.2⟩

theorem malloc_lockf (k : Kern) (b : Lockf) : (k.malloc b).1.lockf k.brk = b := by
  simp [Kern.malloc]

/-- `lf_setlock` for a new request. -/
theorem Inv.setlk {call : ℕ → Option ℕ} (h : Inv k call f l []) (hcall : call td = none)
    (hhead : b.lfHead = f)
    (hb : b.Accepted) (ht : b.lfType ≠ .unlck) (hfits : SetFits k f b) :
    (∃ k', lfSetlock (k.malloc b).1 td k.brk = .ok (k', .ok) ∧ SetNoWrap (b.entry k.brk) l ∧
      Inv k' call f (setEntries (b.entry k.brk) (k.brk + 1) l) []) ∨
    (∃ e, lfSetlock (k.malloc b).1 td k.brk = .ok ((k.malloc b).1.free k.brk, .error e) ∧
      Inv ((k.malloc b).1.free k.brk) call f l []) ∨
    (b.lfFlags.fWait = true ∧
      ((∃ k' l', lfSetlock (k.malloc b).1 td k.brk = .ok (k', .asleep k.brk) ∧
        Inv k' (update call td (some k.brk)) f l' []) ∨
      ∃ e, lfSetlock (k.malloc b).1 td k.brk = .error e)) := by
  have h₁ : Inv (k.malloc b).1 call f l [b.entry k.brk] := h.malloc b hhead
  have hrec : (k.malloc b).1.lockf (b.entry k.brk).addr = b := malloc_lockf k b
  have := h₁.setlock_cases hcall (hb.valid _) ht
    (fun hnb => ?_) (fun hbl => ?_)
  · rw [hrec] at this; exact this
  · rw [hrec] at hnb
    refine (h.repr.lockFits_iff b).1 (hfits.1 fun hbl => ?_)
    obtain ⟨e, he, hbe⟩ := (h.repr.blocked_iff b).1 hbl
    exact hnb e he hbe
  · rw [hrec, ← h.repr.blocked_iff] at hbl
    rw [hrec]; exact fun hw hfl hty => (h.repr.unlockFits_iff b).1 (hfits.2 hbl hw hfl hty)

/-- `lf_clearlock` for a new request. -/
theorem Inv.unlck {call : ℕ → Option ℕ} (h : Inv k call f l []) (hhead : b.lfHead = f)
    (hb : b.Accepted)
    (hfits : UnlockFits k f b) :
    ∃ k', lfClearlock (k.malloc b).1 k.brk = .ok k' ∧ ClearNoWrap (b.entry k.brk) l ∧
      Inv (k'.free k.brk) call f (clearEntries (b.entry k.brk) (k.brk + 1) l) [] := by
  have h₁ : Inv (k.malloc b).1 call f l [b.entry k.brk] := h.malloc b hhead
  have hw : ClearNoWrap (b.entry k.brk) l := (h.repr.unlockFits_iff b).1 hfits
  obtain ⟨k', hk', h₂⟩ := h₁.clearlock ⟨hb.valid _, h.sorted, hw⟩
  exact ⟨k', hk', hw, h₂.free⟩

/-- A thread that has woken up takes its request off the list, if it is still on one. -/
theorem Inv.takeOff {call : ℕ → Option ℕ} {f td w : ℕ} (h : Inv k call f l [])
    (hcall : call td = some w) (hwchan : k.wchan td = none) :
    let k' := leaveBlkhd k w
    ∃ l', l'.map Entry.awake = l.map Entry.awake ∧ Same (k.lockf w) (k'.lockf w) ∧
      Inv k' (update call td none) f l' [(k'.lockf w).entry w] := by
  intro k'
  have hC := h.repr.cells
  rw [append_nil] at hC
  cases hn : (k.lockf w).lfNext with
  | none =>
    have hk' : k' = k := by simp only [k', leaveBlkhd, hn]
    have hw : w ∉ waitersOf l := fun hm => by
      obtain ⟨e, he, hwe⟩ := mem_waitersOf.1 hm
      rw [hC.next e he w hwe] at hn
      cases hn
    rw [hk']; exact ⟨l, rfl, Same.refl _, h.resume hcall hw⟩
  | some block =>
    have hw : w ∈ waitersOf l := by
      rcases (h.pending td w hcall).next with h1 | h1
      · rw [hn] at h1
        cases h1
      · exact h1
    obtain ⟨e, he, hwe⟩ := mem_waitersOf.1 hw
    obtain rfl : e.addr = block := Option.some.inj ((hC.next e he w hwe).symm.trans hn)
    obtain ⟨pre, suf, rfl⟩ := append_of_mem he
    obtain ⟨h₁, hnot⟩ := h.unblock hcall hwe hwchan
    have hk' : k' = (k.setBlkhd e.addr ((k.blkhd e.addr).erase w)).setNext w none := by
      simp only [k', leaveBlkhd, hn]
    have hself : k'.lockf w = { k.lockf w with lfNext := none } := by
      rw [hk', lockf_setNext, if_pos rfl]; rfl
    rw [← hk'] at h₁
    refine ⟨_, by simp [Entry.awake], ?_, h₁.resume hcall hnot⟩
    rw [hself]; exact ⟨rfl, rfl, rfl, rfl, rfl, rfl⟩

theorem exists_awake (h : l'.map Entry.awake = l.map Entry.awake) {P : LockType → ℤ → ℤ → ℕ → Prop}
    :
    (∃ e ∈ l', P e.typ e.start e.end' e.id) ↔ ∃ e ∈ l, P e.typ e.start e.end' e.id := by
  have hmap : ∀ m : List Entry, (∃ e ∈ m, P e.typ e.start e.end' e.id) ↔
      ∃ e ∈ m.map Entry.awake, P e.typ e.start e.end' e.id := fun m => by
    simp only [mem_map, exists_exists_and_eq_and]; rfl
  rw [hmap l', h, ← hmap l]

theorem forall_awake (h : l'.map Entry.awake = l.map Entry.awake) {P : LockType → ℤ → ℤ → ℕ → Prop}
    :
    (∀ e ∈ l', P e.typ e.start e.end' e.id) ↔ ∀ e ∈ l, P e.typ e.start e.end' e.id := by
  have := exists_awake h (P := fun t s e i => ¬ P t s e i)
  rw [← not_iff_not]
  push Not
  exact this

/-- Whether a request fits does not depend on who is blocked on the locks. -/
theorem SetFits.congr {k k' : Kern} {l l' x x' : List Entry} {b b' : Lockf} (h : SetFits k f b)
    (hR : Repr k f l x) (hR' : Repr k' f l' x')
    (hl : l'.map Entry.awake = l.map Entry.awake) (hs : Same b b') : SetFits k' f b' := by
  have hbl : Blocked k' f b' ↔ Blocked k f b := by
    rw [hR.blocked_iff, hR'.blocked_iff]
    unfold Blocks
    rw [hs.id, hs.start, hs.stop, hs.typ]
    exact exists_awake hl (P := fun t s e i => i ≠ b.lfId ∧ ¬ noOverlap s e b.lfStart b.lfEnd ∧
      (b.lfType = .wrlck ∨ t = .wrlck))
  constructor
  · intro hn
    rw [hR'.lockFits_iff, hs.stop, hs.id, hs.typ, hs.start]
    intro he
    rw [forall_awake hl (P := fun t s e i => i = b.lfId → e = -1 → t = b.lfType ∧ s ≤ b.lfStart)]
    exact (hR.lockFits_iff b).1 (h.1 (fun hb => hn (hbl.2 hb))) he
  · intro hb hw hfl ht
    rw [hs.flags] at hw hfl
    rw [hs.typ] at ht
    rw [hR'.unlockFits_iff, hs.stop, hs.id]
    intro he
    rw [forall_awake hl (P := fun _ _ e i => i = b.lfId → e ≠ -1)]
    exact (hR.unlockFits_iff b).1 (h.2 (hbl.1 hb) hw hfl ht) he

/-- The thread goes on after its sleep. -/
theorem Inv.woken {k k' : Kern} {call : ℕ → Option ℕ} {f td w : ℕ} {error : Bool} {r : Reply}
    (h : Inv k call f l []) (hcall : call td = some w) (hwchan : k.wchan td = none)
    (hfits : error = false → SetFits k f (k.lockf w))
    (hk' : lfSetlockWoken k td w error = .ok (k', r)) :
    ∃ l', Inv k' (update call td (match r with | .asleep lock => some lock | _ => none)) f
      l' [] := by
  have hp := h.pending td w hcall
  obtain ⟨l₁, hl₁, hsame, h₁⟩ := h.takeOff hcall hwchan
  rw [lfSetlockWoken] at hk'
  generalize leaveBlkhd k w = k₁ at hsame h₁ hk'
  cases error with
  | true =>
    simp only [if_true, Except.ok.injEq, Prod.mk.injEq] at hk'
    obtain ⟨rfl, rfl⟩ := hk'
    exact ⟨l₁, h₁.free⟩
  | false =>
    simp only [Bool.false_eq_true, if_false] at hk'
    have hf := (hfits rfl).congr h.repr h₁.repr hl₁ hsame
    have hv : ((k₁.lockf w).entry w).Valid := by
      have := hp.valid
      rw [← hsame.typ, ← hsame.start, ← hsame.stop, ← hsame.id] at this; exact this
    have ht : ((k₁.lockf w).entry w).typ ≠ .unlck := by
      show (k₁.lockf w).lfType ≠ .unlck
      rw [hsame.typ]; exact hp.typ
    have hcases := h₁.setlock_cases (update_self td none call) hv ht (fun hnb => ?_)
      (fun hbl => ?_)
    · have hupd : ∀ v : Option ℕ, update (update call td none) td v =
          update call td v := fun v => update_idem ..
      rcases hcases with ⟨k₂, hk₂, -, h₂⟩ | ⟨e, hk₂, h₂⟩ | ⟨-, ⟨k₂, l₂, hk₂, h₂⟩ | ⟨e, hk₂⟩⟩
      · obtain ⟨rfl, rfl⟩ := Prod.mk.inj (Except.ok.inj (hk'.symm.trans hk₂))
        exact ⟨_, h₂⟩
      · obtain ⟨rfl, rfl⟩ := Prod.mk.inj (Except.ok.inj (hk'.symm.trans hk₂))
        exact ⟨_, h₂⟩
      · obtain ⟨rfl, rfl⟩ := Prod.mk.inj (Except.ok.inj (hk'.symm.trans hk₂))
        rw [hupd] at h₂; exact ⟨l₂, h₂⟩
      · rw [show lfSetlock k₁ td w = .error e from hk₂] at hk'
        cases hk'
    · refine (h₁.repr.lockFits_iff _).1 (hf.1 fun hbl => ?_)
      obtain ⟨e, he, hbe⟩ := (h₁.repr.blocked_iff _).1 hbl
      exact hnb e he hbe
    · exact fun hw hfl hty => (h₁.repr.unlockFits_iff _).1
        (hf.2 ((h₁.repr.blocked_iff _).2 hbl) hw hfl hty)

/-! ## The steps -/

/-- A step on the file `f`: a lock or unlock request, or a thread that goes on after its sleep or
    is interrupted. -/
def Op.On (f : ℕ) : Op → Prop
  | .advlock _ ap g _ => g = f ∧ (ap.aOp = .setlk ∧ ap.aFl.lType ≠ .unlck ∨ ap.aOp = .unlck)
  | .woken _ _ => True
  | .signal _ => True

/-- No `off_t` arithmetic of the step wraps around. -/
def Op.Fits (s : Sys) (f : ℕ) : Op → Prop
  | .advlock _ ap _ size => ∀ range, flockRange ap.aFl size = .ok range →
    (ap.aOp = .setlk → SetFits s.k f (newLock ap f range)) ∧
      (ap.aOp = .unlck → UnlockFits s.k f (newLock ap f range))
  | .woken td error => error = false → ∀ lock, s.call td = some lock →
    SetFits s.k f (s.k.lockf lock)
  | .signal _ => True

/-- How `lf_advlock` ends for a request that fits. -/
theorem Inv.advlock {call : ℕ → Option ℕ} {f td size : ℕ} {ap : AdvlockArgs} (h : Inv k call f l [])
    (hcall : call td = none)
    (hop : ap.aOp = .setlk ∧ ap.aFl.lType ≠ .unlck ∨ ap.aOp = .unlck)
    (hfits : ∀ range, flockRange ap.aFl size = .ok range →
      (ap.aOp = .setlk → SetFits k f (newLock ap f range)) ∧
        (ap.aOp = .unlck → UnlockFits k f (newLock ap f range))) :
    (∃ e, flockRange ap.aFl size = .error e ∧ lfAdvlock k td ap f size = .ok (k, .error e)) ∨
    (∃ range k' l', flockRange ap.aFl size = .ok range ∧
      lfAdvlock k td ap f size = .ok (k', .ok) ∧ Inv k' call f l' [] ∧
      ((ap.aOp = .setlk ∧ SetNoWrap ((newLock ap f range).entry k.brk) l ∧
          l' = setEntries ((newLock ap f range).entry k.brk) (k.brk + 1) l) ∨
        (ap.aOp = .unlck ∧ ClearNoWrap ((newLock ap f range).entry k.brk) l ∧
          l' = clearEntries ((newLock ap f range).entry k.brk) (k.brk + 1) l))) ∨
    (∃ b e, b.lfHead = f ∧
      lfAdvlock k td ap f size = .ok ((k.malloc b).1.free k.brk, .error e) ∧
      Inv ((k.malloc b).1.free k.brk) call f l []) ∨
    (ap.aFlags.fWait = true ∧ ((∃ k' lock l', lfAdvlock k td ap f size = .ok (k', .asleep lock) ∧
        Inv k' (update call td (some lock)) f l' []) ∨
      ∃ e, lfAdvlock k td ap f size = .error e)) := by
  cases hrange : flockRange ap.aFl size with
  | error e => exact .inl ⟨e, rfl, by rw [lfAdvlock, hrange]⟩
  | ok range =>
    have hb : (newLock ap f range).Accepted := flockRange_valid hrange
    obtain ⟨hfs, hfu⟩ := hfits range hrange
    rcases hop with ⟨hop, ht⟩ | hop
    · have hrun : lfAdvlock k td ap f size =
          lfSetlock (k.malloc (newLock ap f range)).1 td k.brk := by
        rw [lfAdvlock, hrange]
        simp only [hop, ne_eq, not_true_eq_false, and_false, if_false]; rfl
      rw [hrun]
      rcases h.setlk hcall (b := newLock ap f range) rfl hb ht (hfs hop) with
        ⟨k', hk', hw, h'⟩ | ⟨e, hk', h'⟩ | ⟨hwait, ⟨k', l', hk', h'⟩ | ⟨e, hk'⟩⟩
      · exact .inr (.inl ⟨range, k', _, rfl, hk', h', .inl ⟨hop, hw, rfl⟩⟩)
      · exact .inr (.inr (.inl ⟨_, e, rfl, hk', h'⟩))
      · exact .inr (.inr (.inr ⟨hwait, .inl ⟨k', _, l', hk', h'⟩⟩))
      · exact .inr (.inr (.inr ⟨hwait, .inr ⟨e, hk'⟩⟩))
    · refine .inr (.inl ?_)
      by_cases hhead : k.head f = none
      · have hl : l = [] := by
          have hfront := h.repr.chain.read_eq
          rw [show k.read (.head f) = none from hhead] at hfront; simpa using hfront.symm
        have hrun : lfAdvlock k td ap f size = .ok (k, .ok) := by
          rw [lfAdvlock, hrange]; simp [hop, hhead]
        subst hl; exact ⟨range, k, [], rfl, hrun, h, .inr ⟨hop, by simp [ClearNoWrap], rfl⟩⟩
      · obtain ⟨k', hk', hw, h'⟩ := h.unlck (b := newLock ap f range) rfl hb (hfu hop)
        have hrun : lfAdvlock k td ap f size = .ok (k'.free k.brk, .ok) := by
          rw [lfAdvlock, hrange]
          simp only [hop, hhead, false_and, if_false]
          rw [show (k.malloc (newLock ap f range)).2 = k.brk from rfl, hk']
        exact ⟨range, _, _, rfl, hrun, h', .inr ⟨hop, hw, rfl⟩⟩

/-- Every step keeps the invariant. -/
theorem Inv.step {r : Reply} {op : Op} (h : Inv s.k s.call f l []) (hon : op.On f)
    (hfits : op.Fits s f)
    (hstep : s.step op = some (t, r)) : ∃ l', Inv t.k t.call f l' [] := by
  cases op with
  | advlock td ap g size =>
    obtain ⟨rfl, hop⟩ := hon
    cases hcall : s.call td with
    | some w => simp [Sys.step, hcall] at hstep
    | none =>
      have hupd : update s.call td none = s.call := by
        rw [← hcall, update_eq_self]
      have hok : ∀ k' r', lfAdvlock s.k td ap g size = .ok (k', r') → t = s.after td k' r' := by
        intro k' r' heq
        simp only [Sys.step, hcall, heq, Option.some.injEq, Prod.mk.injEq] at hstep
        exact hstep.1.symm
      rcases h.advlock hcall hop hfits with ⟨e, -, hk'⟩ | ⟨range, k', l', -, hk', h', -⟩ |
        ⟨b, e, -, hk', h'⟩ | ⟨-, ⟨k', lock, l', hk', h'⟩ | ⟨e, hk'⟩⟩
      · rw [hok _ _ hk']
        refine ⟨l, ?_⟩
        show Inv s.k (update s.call td none) g l []
        rwa [hupd]
      · rw [hok _ _ hk']
        refine ⟨l', ?_⟩
        show Inv k' (update s.call td none) g l' []
        rwa [hupd]
      · rw [hok _ _ hk']
        refine ⟨l, ?_⟩
        show Inv _ (update s.call td none) g l []
        rwa [hupd]
      · rw [hok _ _ hk']; exact ⟨l', h'⟩
      · simp [Sys.step, hcall, hk'] at hstep
  | woken td error =>
    cases hcall : s.call td with
    | none => simp [Sys.step, hcall] at hstep
    | some w =>
      cases hwchan : s.k.wchan td with
      | some v => simp [Sys.step, hcall, hwchan] at hstep
      | none =>
        cases hk' : lfSetlockWoken s.k td w error with
        | error e => simp [Sys.step, hcall, hwchan, hk'] at hstep
        | ok p =>
          obtain ⟨k', r'⟩ := p
          simp only [Sys.step, hcall, hwchan, hk', Option.some.injEq, Prod.mk.injEq] at hstep
          obtain ⟨rfl, rfl⟩ := hstep
          exact h.woken hcall hwchan (fun he => hfits he w hcall) hk'
  | signal td =>
    cases hcall : s.call td with
    | none => simp [Sys.step, hcall] at hstep
    | some w =>
      simp only [Sys.step, hcall, Option.some.injEq, Prod.mk.injEq] at hstep
      obtain ⟨rfl, -⟩ := hstep
      exact ⟨l, h.signal td⟩

theorem Inv.empty (threads : ℕ → List ℕ) (pPid : ℕ → ℤ) (f : ℕ) :
    Inv (Sys.empty threads pPid).k (Sys.empty threads pPid).call f [] [] where
  repr := ⟨rfl, ⟨by simp, by simp, fun _ _ => rfl, by simp, by simp, by simp⟩⟩
  sorted := ⟨by simp, by simp⟩
  compatible := ⟨by simp, by simp⟩
  blocked := by simp
  floating := by simp
  waiting := by simp
  pending := fun _ _ h => by cases h
  inj := fun _ _ _ h => by cases h
  sleeping := fun _ _ h => by cases h

/-- Every run of steps that fit keeps the invariant. -/
theorem Inv.run (h : Inv s.k s.call f l []) (hrun : Relation.ReflTransGen
      (fun s t => ∃ op r, op.On f ∧ op.Fits s f ∧ s.step op = some (t, r)) s t) :
    ∃ l', Inv t.k t.call f l' [] := by
  induction hrun with
  | refl => exact ⟨l, h⟩
  | tail _ hstep ih =>
    obtain ⟨l', h'⟩ := ih
    obtain ⟨op, r, hon, hfits, hs⟩ := hstep
    exact h'.step hon hfits hs

/-! ## Given runs -/

/-- The steps `ops`, one after the other. -/
def Sys.run (s : Sys) : List Op → Option Sys
  | [] => some s
  | op :: ops =>
    match s.step op with
    | some (t, _) => t.run ops
    | none => none

theorem Sys.run_reaches {P : Op → Prop} {ops : List Op} (hP : ∀ op ∈ ops, P op)
    (h : s.run ops = some t) :
    Relation.ReflTransGen (fun s t => ∃ op r, P op ∧ s.step op = some (t, r)) s t := by
  induction ops generalizing s with
  | nil =>
    obtain rfl := Option.some.inj h
    exact .refl
  | cons op ops ih =>
    rw [forall_mem_cons] at hP
    cases hs : s.step op with
    | none => simp [Sys.run, hs] at h
    | some p =>
      obtain ⟨u, r⟩ := p
      simp only [Sys.run, hs] at h; exact .head ⟨op, r, hP.1, hs⟩ (ih hP.2 h)

/-- A run of given steps reaches a state in which `Q` has the value that it is computed to have. -/
theorem Sys.exists_of_run {P : Op → Prop} {Q : Sys → Bool} {b : Bool} (ops : List Op)
    (hP : ∀ op ∈ ops, P op) (h : (s.run ops).map Q = some b) :
    ∃ t, Relation.ReflTransGen (fun s t => ∃ op r, P op ∧ s.step op = some (t, r)) s t ∧
      Q t = b := by
  cases hr : s.run ops with
  | none => simp [hr] at h
  | some t =>
    simp only [hr, Option.map_some, Option.some.injEq] at h; exact ⟨t, Sys.run_reaches hP hr, h⟩

/-- A lock request for the file 0, for the bytes from `start` on: `len` of them, or all if it is
    0. -/
def lockRequest (td id : ℕ) (t : LockType) (wait : Bool) (start len : OffT) : Op :=
  .advlock td ⟨id, .setlk, ⟨t, .seekSet, start, len, 0⟩, ⟨wait, false, true⟩⟩ 0 0

/-- An unlock request for the file 0. -/
def unlockRequest (td id : ℕ) (start len : OffT) : Op :=
  .advlock td ⟨id, .unlck, ⟨.unlck, .seekSet, start, len, 0⟩, ⟨false, false, true⟩⟩ 0 0

end FreeBSD.KernLockf
