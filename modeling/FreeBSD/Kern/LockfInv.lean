import FreeBSD.Kern.LockfRefine

/-!
# The locks of a file and the requests for it

`Inv`: the list of a file is sorted for each owner, no two owners hold a byte in
conflicting modes, every request that is blocked on a lock is one that the lock
blocks, and every thread inside `tsleep` has a request.

Results: the steps of `lf_setlock` and `lf_clearlock` keep `Inv`, if the ranges
do not make `off_t` arithmetic wrap around.
-/

namespace FreeBSD.KernLockf

open FreeBSD.Lib Entry List Function

/-! ## The list of a file -/

/-- The locks that one meets from the address `a` on. -/
def Kern.walk (k : Kern) : ℕ → Option ℕ → List ℕ
  | 0, _ => []
  | _ + 1, none => []
  | n + 1, some a => a :: k.walk n (k.lockf a).lfNext

/-- The locks on the list of a file. -/
def Kern.locks (k : Kern) (f : ℕ) : List ℕ := k.walk k.brk (k.head f)

variable {k k' : Kern} {f w td : ℕ} {l x : List Entry} {e : Entry}

theorem walk_eq {p : Link} {l : List ℕ} (h : Chain Link.next k.read p l) {n : ℕ}
    (hn : l.length ≤ n) : k.walk n (k.read p) = l := by
  induction l generalizing p n with
  | nil =>
    rw [h.read_eq]
    cases n <;> rfl
  | cons a l ih =>
    obtain ⟨n, rfl⟩ : ∃ n', n = n' + 1 := ⟨n - 1, by simp at hn; omega⟩
    rw [h.1, Kern.walk]; exact congrArg (a :: ·) (ih h.2 (by simpa using hn))

theorem Repr.locks_eq (hR : Repr k f l x) : k.locks f = l.map Entry.addr :=
  walk_eq hR.chain (by simpa using hR.length_le)

/-- A statement about the locks on the list is one about the entries. -/
theorem Repr.exists_lock (hR : Repr k f l x) {P : LockType → ℤ → ℤ → ℕ → Prop} :
    (∃ a ∈ k.locks f, P (k.lockf a).lfType (k.lockf a).lfStart (k.lockf a).lfEnd (k.lockf a).lfId) ↔
      ∃ e ∈ l, P e.typ e.start e.end' e.id := by
  have hcell : ∀ e ∈ l, P (k.lockf e.addr).lfType (k.lockf e.addr).lfStart (k.lockf e.addr).lfEnd
      (k.lockf e.addr).lfId ↔ P e.typ e.start e.end' e.id := fun e he => by
    have hc := hR.cells.cell e (mem_append_left x he)
    rw [hc.typ, hc.start, hc.stop, hc.id]
  rw [hR.locks_eq]
  constructor
  · rintro ⟨a, ha, hP⟩
    obtain ⟨e, he, rfl⟩ := mem_map.1 ha
    exact ⟨e, he, (hcell e he).1 hP⟩
  · rintro ⟨e, he, hP⟩; exact ⟨e.addr, mem_map_of_mem he, (hcell e he).2 hP⟩

/-! ## Overlaps -/

/-- The lock covers a byte. -/
def Lockf.Covers (b : Lockf) (x : ℤ) : Prop := b.lfStart ≤ x ∧ (b.lfEnd = -1 ∨ x ≤ b.lfEnd)

/-- Ranges overlap if and only if they have a byte in common. -/
theorem not_noOverlap_iff {s t s' t' : ℤ} (h : t = -1 ∨ s ≤ t) (h' : t' = -1 ∨ s' ≤ t') :
    ¬ noOverlap s t s' t' ↔
      ∃ x, (s ≤ x ∧ (t = -1 ∨ x ≤ t)) ∧ s' ≤ x ∧ (t' = -1 ∨ x ≤ t') := by
  unfold noOverlap
  constructor
  · intro hno; exact ⟨max s s', by omega⟩
  · rintro ⟨x, hx⟩ hno; omega

theorem Entry.Valid.ranged (h : e.Valid) : e.end' = -1 ∨ e.start ≤ e.end' := by
  have := h.range; omega

/-- What blocks a request goes on blocking it when it gets stronger. -/
theorem Blocks.mono {e e' : Entry} {lock : Lockf} (h : Blocks e lock) (hw : Weaker e e')
    (he : e.Valid) (he' : e'.Valid) (hr : lock.Ranged) : Blocks e' lock := by
  obtain ⟨hid, hno, ht⟩ := h
  obtain ⟨x, hx, hx'⟩ := (not_noOverlap_iff he.ranged hr).1 hno
  exact ⟨hw.id ▸ hid, (not_noOverlap_iff he'.ranged hr).2 ⟨x, hw.covers x hx, hx'⟩,
    ht.imp id hw.typ⟩

theorem Same.blocks {x y : Lockf} (h : Same x y) (hb : Blocks e x) : Blocks e y := by
  unfold Blocks at *; rwa [h.id, h.start, h.stop, h.typ]

/-! ## The invariant -/

/-- The request `w` of a thread that is inside `tsleep`. -/
structure Pending (k : Kern) (f : ℕ) (l x : List Entry) (w : ℕ) : Prop where
  lt_brk : w < k.brk
  live : k.live w = true
  not_mem : w ∉ (l ++ x).map Entry.addr
  head : (k.lockf w).lfHead = f
  valid : (⟨w, (k.lockf w).lfType, (k.lockf w).lfStart, (k.lockf w).lfEnd, (k.lockf w).lfId, []⟩ :
    Entry).Valid
  typ : (k.lockf w).lfType ≠ .unlck
  next : (k.lockf w).lfNext = none ∨ w ∈ waitersOf l

/-- The modes in which owners hold bytes exclude each other. -/
structure Compatible (l : List Entry) : Prop where
  typ : ∀ o x t, Mode l o x t → t ≠ .unlck
  excl : ∀ o o' x t t', Mode l o x t → Mode l o' x t' → o ≠ o' → t = .rdlck

/-- The locks `l` of the file `f`, with the request `x` that a thread works on, and the requests
    `call` of the others. -/
structure Inv (k : Kern) (call : ℕ → Option ℕ) (f : ℕ) (l x : List Entry) : Prop where
  repr : Repr k f l x
  sorted : Sorted l
  compatible : Compatible l
  blocked : ∀ e ∈ l, ∀ w ∈ e.waiters, Blocks e (k.lockf w)
  floating : ∀ e ∈ x, e.waiters = []
  waiting : ∀ w ∈ waitersOf l, ∃ td, call td = some w
  pending : ∀ td w, call td = some w → Pending k f l x w
  inj : ∀ td td' w, call td = some w → call td' = some w → td = td'
  sleeping : ∀ td w, k.wchan td = some w → call td = some w ∧ w ∈ waitersOf l

theorem waitersOf_append (l m : List Entry) : waitersOf (l ++ m) = waitersOf l ++ waitersOf m :=
  flatMap_append

theorem waitersOf_float (h : ∀ e ∈ x, e.waiters = []) : waitersOf (l ++ x) = waitersOf l := by
  have : waitersOf x = [] := flatMap_eq_nil_iff.2 h
  rw [waitersOf_append, this, append_nil]

theorem Inv.valid_waiter {call : ℕ → Option ℕ} (h : Inv k call f l x) (hw : w ∈ waitersOf l) :
    (k.lockf w).Ranged := by
  obtain ⟨td, htd⟩ := h.waiting w hw
  exact (h.pending td w htd).valid.ranged

/-- A change of the list after which nobody is blocked on a lock that is weaker than before. -/
theorem Inv.move {call : ℕ → Option ℕ} {l l' x x' : List Entry} (h : Inv k call f l x)
    (hR : Repr k' f l' x') (hF : Frame k (l ++ x) k' (l' ++ x'))
    (hs : Sorted l') (hc : Compatible l') (hx : ∀ e ∈ x', e.waiters = [])
    (hw : ∀ a ∈ l', ∀ w ∈ a.waiters, ∃ e ∈ l, w ∈ e.waiters ∧ Weaker e a) :
    Inv k' call f l' x' := by
  have hsub : ∀ w ∈ waitersOf l', w ∈ waitersOf l := by
    intro w hw'
    obtain ⟨a, ha, hwa⟩ := mem_waitersOf.1 hw'
    obtain ⟨e, he, hwe, -⟩ := hw a ha w hwa
    exact mem_waitersOf.2 ⟨e, he, hwe⟩
  have hwake := hF.woken
  have hnextF := hF.next
  rw [waitersOf_float hx, waitersOf_float h.floating] at hwake
  rw [waitersOf_float h.floating] at hnextF
  refine ⟨hR, hs, hc, fun a ha w hwa => ?_, hx, fun w hw' => h.waiting w (hsub w hw'),
    fun td w htd => ?_, h.inj, fun td w htd => ?_⟩
  · obtain ⟨e, he, hwe, hweak⟩ := hw a ha w hwa
    have hwl : w ∈ waitersOf l := mem_waitersOf.2 ⟨e, he, hwe⟩
    obtain ⟨td, htd⟩ := h.waiting w hwl
    have hp := h.pending td w htd
    have hb := (h.blocked e he w hwe).mono hweak (h.sorted.valid e he) (hs.valid a ha)
      (h.valid_waiter hwl)
    exact (hF.cell w hp.lt_brk hp.not_mem).1.blocks hb
  · have hp := h.pending td w htd
    obtain ⟨hsame, hlive⟩ := hF.cell w hp.lt_brk hp.not_mem
    refine ⟨lt_of_lt_of_le hp.lt_brk hF.brk, hlive.trans hp.live, fun hm => ?_,
      hsame.head.trans hp.head, ?_, by rw [hsame.typ]; exact hp.typ, ?_⟩
    · rcases hF.addr w hm with h1 | h1
      · exact hp.not_mem h1
      · exact absurd hp.lt_brk (by omega)
    · rw [hsame.typ, hsame.start, hsame.stop, hsame.id]; exact hp.valid
    · by_cases hwl : w ∈ waitersOf l
      · by_cases hwl' : w ∈ waitersOf l'
        · exact .inr hwl'
        · exact .inl (hwake w hwl hwl').1
      · refine .inl ?_
        rw [hnextF w hp.lt_brk hp.not_mem hwl]; exact hp.next.resolve_right hwl
  · have hold := hF.wchan td w htd
    obtain ⟨h1, h2⟩ := h.sleeping td w hold
    refine ⟨h1, ?_⟩
    by_contra hn
    exact (hwake w h2 hn).2 td htd

/-! ## Steps on the list -/

/-- No lock of another owner blocks the lock. -/
theorem Compatible.set {lock : Entry} (h : Compatible l) (hf : Fits lock l) (ht : lock.typ ≠ .unlck)
    {x : Lockf} (hid : x.lfId = lock.id) (hs : x.lfStart = lock.start)
    (he : x.lfEnd = lock.end') (htx : x.lfType = lock.typ) (hb : ∀ e ∈ l, ¬ Blocks e x)
    (fresh : ℕ) : Compatible (setEntries lock fresh l) := by
  have hother : ∀ o y t, Mode l o y t → o ≠ lock.id → lock.Covers y →
      lock.typ = .rdlck ∧ t = .rdlck := by
    rintro o y t hm hne hy
    have htyp := h.typ o y t hm
    obtain ⟨e, hel, rfl, hc, rfl⟩ := hm
    have hno : ¬ noOverlap e.start e.end' lock.start lock.end' :=
      (not_noOverlap_iff (hf.sorted.valid e hel).ranged hf.valid.ranged).2 ⟨y, hc, hy⟩
    have hnb := hb e hel
    unfold Blocks at hnb
    rw [hid, hs, he, htx] at hnb
    have : ¬ (lock.typ = .wrlck ∨ e.typ = .wrlck) := fun hor => hnb ⟨hne, hno, hor⟩
    constructor
    · cases hlt : lock.typ <;> simp_all
    · cases het : e.typ <;> simp_all
  constructor
  · intro o y t hm
    rcases (setEntries_mode hf fresh o y t).1 hm with ⟨-, -, rfl⟩ | ⟨hm, -⟩
    · exact ht
    · exact h.typ o y t hm
  · intro o o' y t t' hm hm' hne
    rcases (setEntries_mode hf fresh o y t).1 hm with ⟨rfl, hy, rfl⟩ | ⟨hm, hn⟩
    · rcases (setEntries_mode hf fresh o' y t').1 hm' with ⟨rfl, -, -⟩ | ⟨hm', -⟩
      · exact absurd rfl hne
      · exact (hother o' y t' hm' (Ne.symm hne) hy).1
    · rcases (setEntries_mode hf fresh o' y t').1 hm' with ⟨rfl, hy, rfl⟩ | ⟨hm', -⟩
      · exact (hother o y t hm hne hy).2
      · exact h.excl o o' y t t' hm hm' hne

theorem Compatible.clear {unlock : Entry} (h : Compatible l) (hf : FitsClear unlock l) (fresh : ℕ) :
    Compatible (clearEntries unlock fresh l) := by
  constructor
  · intro o y t hm; exact h.typ o y t ((clearEntries_mode hf fresh o y t).1 hm).1
  · intro o o' y t t' hm hm' hne
    exact h.excl o o' y t t' ((clearEntries_mode hf fresh o y t).1 hm).1
      ((clearEntries_mode hf fresh o' y t').1 hm').1 hne

/-- The loop of `lf_setlock` for a lock that nothing blocks. -/
theorem Inv.setLoop {call : ℕ → Option ℕ} {lock : Entry} (h : Inv k call f l [lock])
    (hf : Fits lock l) (ht : lock.typ ≠ .unlck)
    (hb : ∀ e ∈ l, ¬ Blocks e (k.lockf lock.addr)) :
    ∃ k', setlockLoop lock.addr (k.brk + 1) k (k.head f) (.head f) true = .ok k' ∧
      Inv k' call f (setEntries lock k.brk l) [] := by
  have hws : lock.waiters = [] := h.floating lock (by simp)
  have hc := h.repr.cells.cell lock (by simp)
  have hlen := h.repr.length_le
  obtain ⟨k', hk', hR, hF⟩ := setlockLoop_refines [] h.repr hf hws (n := k.brk + 1)
    (by omega)
  have hfront : k.head f = front l := h.repr.chain.read_eq
  rw [hfront]
  refine ⟨k', hk', h.move hR (by simpa using hF) (setEntries_sorted hf k.brk).1
    (h.compatible.set hf ht hc.id hc.start hc.stop hc.typ hb k.brk) (by simp)
    (setEntries_waiters ht hws k.brk l)⟩

/-- `lf_clearlock`. -/
theorem Inv.clearlock {call : ℕ → Option ℕ} {unlock : Entry} (h : Inv k call f l [unlock])
    (hf : FitsClear unlock l) :
    ∃ k', lfClearlock k unlock.addr = .ok k' ∧
      Inv k' call f (clearEntries unlock k.brk l) [unlock] := by
  have hc := h.repr.cells.cell unlock (by simp)
  have hlen := h.repr.length_le
  obtain ⟨k', hk', hR, hF⟩ := clearlockLoop_refines [] h.repr hf (n := k.brk + 1)
    (by omega)
  have hfront : k.head f = front l := h.repr.chain.read_eq
  rw [lfClearlock, hc.head, hfront]
  refine ⟨k', hk', h.move hR hF (clearEntries_sorted hf k.brk).1 (h.compatible.clear hf k.brk)
    h.floating fun a ha w hwa => ?_⟩
  exact ⟨a, clearEntries_waiters k.brk l a ha w hwa, hwa, Weaker.refl a⟩

/-- A change that leaves the list alone. -/
theorem Inv.same {call : ℕ → Option ℕ} {l x x' : List Entry} (h : Inv k call f l x)
    (hC : Cells k' f (l ++ x')) (hF : Frame k (l ++ x) k' (l ++ x'))
    (hread : ∀ q ∈ links f l, k'.read q = k.read q) (hx : ∀ e ∈ x', e.waiters = []) :
    Inv k' call f l x' :=
  h.move (h.repr.same hC rfl hread) hF h.sorted h.compatible hx fun a ha _ hw =>
    ⟨a, ha, hw, Weaker.refl a⟩

/-- `malloc` of a request. -/
theorem Inv.malloc {call : ℕ → Option ℕ} (h : Inv k call f l []) (b : Lockf) (hb : b.lfHead = f) :
    Inv (k.malloc b).1 call f l [⟨k.brk, b.lfType, b.lfStart, b.lfEnd, b.lfId, []⟩] := by
  have hC := h.repr.cells
  rw [append_nil] at hC
  obtain ⟨c1, f1⟩ := hC.malloc b hb
  have hp := (perm_float (⟨k.brk, b.lfType, b.lfStart, b.lfEnd, b.lfId, []⟩ : Entry) l).symm
  refine h.same (c1.perm hp) (f1.perm (by simp) hp) (fun q hq => ?_) (by simp)
  rw [read_malloc, if_neg]
  rintro rfl
  simp only [links, mem_cons, reduceCtorEq, mem_map, Link.next.injEq, exists_eq_right,
    false_or] at hq
  obtain ⟨e, he, heq⟩ := hq
  exact absurd (hC.cell e he).lt_brk (by omega)

/-- `free` of the request. -/
theorem Inv.free {call : ℕ → Option ℕ} {lock : Entry} (h : Inv k call f l [lock]) :
    Inv (k.free lock.addr) call f l [] := by
  obtain ⟨hR, hF⟩ := h.repr.drop (h.floating lock (by simp))
  exact h.same hR.cells (by simpa using hF) (fun q _ => read_free k lock.addr q) (by simp)

/-- Assignment to the type of the request. -/
theorem Inv.setType {call : ℕ → Option ℕ} {lock : Entry} (h : Inv k call f l [lock]) (t : LockType)
    :
    Inv (k.setType lock.addr t) call f l [{ lock with typ := t }] := by
  have hp := perm_float lock l
  have hp' := perm_float { lock with typ := t } l
  obtain ⟨c1, f1⟩ := (h.repr.cells.perm hp).setType t
  exact h.same (c1.perm hp'.symm) (f1.perm hp.symm hp'.symm)
    (fun q _ => read_setType k lock.addr t q) (by simpa using h.floating)

theorem sorted_awake : Sorted (l.map Entry.awake) ↔ Sorted l := by
  constructor
  · rintro ⟨h1, h2⟩
    refine ⟨fun e he => ?_, (pairwise_map (f := Entry.awake) (R := Before)).1 h2⟩
    have := h1 e.awake (mem_map_of_mem he)
    exact ⟨this.start_nonneg, this.start_le, this.range⟩
  · rintro ⟨h1, h2⟩
    refine ⟨fun a ha => ?_, pairwise_map.2 h2⟩
    obtain ⟨e, he, rfl⟩ := mem_map.1 ha
    exact ⟨(h1 e he).start_nonneg, (h1 e he).start_le, (h1 e he).range⟩

theorem mode_awake {o : ℕ} {x : ℤ} {t : LockType} :
    Mode (l.map Entry.awake) o x t ↔ Mode l o x t := by
  unfold Mode
  simp only [mem_map, exists_exists_and_eq_and]; rfl

theorem compatible_awake : Compatible (l.map Entry.awake) ↔ Compatible l := by
  constructor
  · rintro ⟨h1, h2⟩
    simp only [mode_awake] at h1 h2; exact ⟨h1, h2⟩
  · rintro ⟨h1, h2⟩
    refine ⟨?_, ?_⟩ <;> simp only [mode_awake]
    exacts [h1, h2]

theorem mem_addr_append {a : ℕ} {l m : List Entry} :
    a ∈ (l ++ m).map Entry.addr ↔ a ∈ l.map Entry.addr ∨ a ∈ m.map Entry.addr := by
  rw [map_append, mem_append]

/-- A thread falls asleep: its request is put on the list of those blocked on an entry. -/
theorem Inv.sleep {call : ℕ → Option ℕ} {pre suf : List Entry} {b lock : Entry}
    (h : Inv k call f (pre ++ b :: suf) [lock]) (hcall : call td = none)
    (hv : lock.Valid) (ht : lock.typ ≠ .unlck) (hb : Blocks b (k.lockf lock.addr)) :
    let k₁ := (k.setNext lock.addr (some b.addr)).setBlkhd b.addr (k.blkhd b.addr ++ [lock.addr])
    Inv { k₁ with wchan := Function.update k₁.wchan td (some lock.addr) }
      (Function.update call td (some lock.addr)) f (pre ++ b.plus [lock.addr] :: suf) [] := by
  intro k₁
  have hws : lock.waiters = [] := h.floating lock (by simp)
  have hcell := h.repr.cells.cell lock (by simp)
  have hp := perm_pick_float b lock pre suf
  have c1 := (h.repr.cells.perm hp).block hws
  have hpl : (b.plus [lock.addr] :: (pre ++ suf)).Perm
    (pre ++ b.plus [lock.addr] :: suf ++ []) := by
    rw [append_nil]; exact perm_middle.symm
  have hC : Cells k₁ f (pre ++ b.plus [lock.addr] :: suf ++ []) := c1.perm hpl
  have haddr : (pre ++ b.plus [lock.addr] :: suf).map Entry.addr =
      (pre ++ b :: suf).map Entry.addr := by simp
  have hawake : (pre ++ b.plus [lock.addr] :: suf).map Entry.awake =
      (pre ++ b :: suf).map Entry.awake := by
    simp [Entry.awake, Entry.plus]
  have hnot : lock.addr ∉ (pre ++ b :: suf).map Entry.addr := by
    have := h.repr.cells.nodup
    rw [map_append, nodup_append] at this; exact fun hm => this.2.2 _ hm _ (by simp) rfl
  have hold : ∀ u, u ≠ lock.addr → k₁.lockf u = k.lockf u := fun u hu =>
    (lockf_setNext k lock.addr (some b.addr) u).trans (if_neg hu)
  have hself : Same (k.lockf lock.addr) (k₁.lockf lock.addr) := by
    have heq : k₁.lockf lock.addr = { k.lockf lock.addr with lfNext := some b.addr } :=
      (lockf_setNext k lock.addr (some b.addr) lock.addr).trans (if_pos rfl)
    rw [heq]; exact ⟨rfl, rfl, rfl, rfl, rfl, rfl⟩
  have hsame : ∀ u, Same (k.lockf u) (k₁.lockf u) := fun u => by
    by_cases hu : u = lock.addr
    · rw [hu]; exact hself
    · rw [hold u hu]; exact Same.refl _
  have hread : ∀ q ∈ links f (pre ++ b :: suf), k₁.read q = k.read q := fun q hq => by
    have hne := h.repr.float_ne lock (by simp) q hq
    cases q with
    | head => rfl
    | next u => exact congrArg Lockf.lfNext (hold u fun hu => hne (by rw [hu]))
  have hR : Repr k₁ f (pre ++ b.plus [lock.addr] :: suf) [] := h.repr.same hC haddr hread
  have hmem : ∀ w, w ∈ waitersOf (pre ++ b.plus [lock.addr] :: suf) ↔
      w ∈ waitersOf (pre ++ b :: suf) ∨ w = lock.addr := fun w => by
    simp only [waitersOf_append, waitersOf_cons, Entry.plus, mem_append, mem_singleton]
    tauto
  have hpend : ∀ td' w, call td' = some w → w ≠ lock.addr := fun td' w hw heq =>
    (h.pending td' w hw).not_mem (by rw [mem_addr_append, heq]; simp)
  have hupd : ∀ td' w, Function.update call td (some lock.addr) td' = some w →
      td' = td ∧ w = lock.addr ∨ td' ≠ td ∧ call td' = some w := fun td' w hw => by
    by_cases htd : td' = td
    · rw [htd, update_self] at hw; exact .inl ⟨htd, (Option.some.inj hw).symm⟩
    · rw [update_of_ne htd] at hw; exact .inr ⟨htd, hw⟩
  refine ⟨⟨hR.chain, hC.wchan _⟩, ?_, ?_, fun a ha w hw => ?_, by simp, fun w hw => ?_,
    fun td' w hw => ?_, fun td₁ td₂ w h₁ h₂ => ?_, fun td' w hw => ?_⟩
  · rw [← sorted_awake, hawake, sorted_awake]; exact h.sorted
  · rw [← compatible_awake, hawake, compatible_awake]; exact h.compatible
  · have hbl : ∀ e ∈ pre ++ b :: suf, w ∈ e.waiters → Blocks e (k₁.lockf w) := fun e he hwe =>
      (hsame w).blocks (h.blocked e he w hwe)
    rcases mem_append.1 ha with ha | ha
    · exact hbl a (by simp [ha]) hw
    · rcases mem_cons.1 ha with rfl | ha
      · rcases mem_append.1 hw with hw | hw
        · exact hbl b (by simp) hw
        · rw [mem_singleton.1 hw]; exact hself.blocks hb
      · exact hbl a (by simp [ha]) hw
  · rcases (hmem w).1 hw with hw | rfl
    · obtain ⟨td', htd'⟩ := h.waiting w hw
      refine ⟨td', ?_⟩
      rw [update_of_ne, htd']
      rintro rfl
      rw [hcall] at htd'
      cases htd'
    · exact ⟨td, update_self ..⟩
  · rcases hupd td' w hw with ⟨rfl, rfl⟩ | ⟨-, hw⟩
    · refine ⟨hcell.lt_brk, hcell.live, ?_, hself.head.trans hcell.head, ?_, ?_,
        .inr ((hmem _).2 (.inr rfl))⟩
      · rw [append_nil, haddr]; exact hnot
      · rw [hself.typ, hself.start, hself.stop, hself.id, hcell.typ, hcell.start, hcell.stop,
          hcell.id]
        exact ⟨hv.start_nonneg, hv.start_le, hv.range⟩
      · rw [hself.typ, hcell.typ]; exact ht
    · have hp' := h.pending td' w hw
      have hrec := hold w (hpend td' w hw)
      refine ⟨hp'.lt_brk, hp'.live, fun hm => hp'.not_mem ?_, ?_, ?_, ?_, ?_⟩
      · rw [append_nil, haddr] at hm; exact mem_addr_append.2 (.inl hm)
      · exact hrec ▸ hp'.head
      · exact hrec ▸ hp'.valid
      · exact hrec ▸ hp'.typ
      · exact (hrec ▸ hp'.next).imp id fun hm => (hmem w).2 (.inl hm)
  · rcases hupd td₁ w h₁ with ⟨h₁, hw⟩ | ⟨-, h₁⟩
    · rcases hupd td₂ w h₂ with ⟨h₂, -⟩ | ⟨-, h₂⟩
      · rw [h₁, h₂]
      · exact absurd hw (hpend td₂ w h₂)
    · rcases hupd td₂ w h₂ with ⟨-, hw⟩ | ⟨-, h₂⟩
      · exact absurd hw (hpend td₁ w h₁)
      · exact h.inj td₁ td₂ w h₁ h₂
  · by_cases htd : td' = td
    · have hw' : Function.update k₁.wchan td (some lock.addr) td' = some w := hw
      rw [htd, update_self] at hw'
      obtain rfl := Option.some.inj hw'
      exact ⟨by rw [htd, update_self], (hmem _).2 (.inr rfl)⟩
    · have hw' : Function.update k₁.wchan td (some lock.addr) td' = some w := hw
      rw [update_of_ne htd] at hw'
      obtain ⟨h1, h2⟩ := h.sleeping td' w hw'
      exact ⟨by rw [update_of_ne htd, h1], (hmem w).2 (.inl h2)⟩

/-- A thread whose sleep was interrupted takes its request off the list it is on. -/
theorem Inv.unblock {call : ℕ → Option ℕ} {pre suf : List Entry} {b : Entry}
    (h : Inv k call f (pre ++ b :: suf) []) (hcall : call td = some w)
    (hw : w ∈ b.waiters) (hwchan : k.wchan td = none) :
    let k' := (k.setBlkhd b.addr ((k.blkhd b.addr).erase w)).setNext w none
    Inv k' call f (pre ++ { b with waiters := b.waiters.erase w } :: suf) [] ∧
      w ∉ waitersOf (pre ++ { b with waiters := b.waiters.erase w } :: suf) := by
  intro k'
  have hp : (pre ++ b :: suf ++ []).Perm (b :: (pre ++ suf)) := by
    rw [append_nil]; exact perm_middle
  have hp' : ({ b with waiters := b.waiters.erase w } :: (pre ++ suf)).Perm
      (pre ++ { b with waiters := b.waiters.erase w } :: suf ++ []) := by
    rw [append_nil]; exact perm_middle.symm
  have hC₀ := h.repr.cells.perm hp
  obtain ⟨c1, hnot⟩ := hC₀.unblock hw
  have hC : Cells k' f (pre ++ { b with waiters := b.waiters.erase w } :: suf ++ []) := c1.perm hp'
  have hnot' : w ∉ waitersOf (pre ++ { b with waiters := b.waiters.erase w } :: suf) := fun hm =>
    hnot ((waitersOf_perm hp').mem_iff.2 (by rwa [append_nil]))
  have haddr : (pre ++ { b with waiters := b.waiters.erase w } :: suf).map Entry.addr =
      (pre ++ b :: suf).map Entry.addr := by simp
  have hawake : (pre ++ { b with waiters := b.waiters.erase w } :: suf).map Entry.awake =
      (pre ++ b :: suf).map Entry.awake := by simp [Entry.awake]
  have hmem : ∀ v, v ∈ waitersOf (pre ++ { b with waiters := b.waiters.erase w } :: suf) →
      v ∈ waitersOf (pre ++ b :: suf) := fun v hv => by
    simp only [waitersOf_append, waitersOf_cons, mem_append] at hv ⊢
    exact hv.imp id (Or.imp mem_of_mem_erase id)
  have hmem' : ∀ v ≠ w, v ∈ waitersOf (pre ++ b :: suf) →
      v ∈ waitersOf (pre ++ { b with waiters := b.waiters.erase w } :: suf) := fun v hne hv => by
    simp only [waitersOf_append, waitersOf_cons, mem_append, mem_erase_of_ne hne] at hv ⊢
    exact hv
  have hold : ∀ u, u ≠ w → k'.lockf u = k.lockf u := fun u hu =>
    (lockf_setNext (k.setBlkhd b.addr _) w none u).trans (if_neg hu)
  have hself : k'.lockf w = { k.lockf w with lfNext := none } :=
    (lockf_setNext (k.setBlkhd b.addr _) w none w).trans (if_pos rfl)
  have hsame : ∀ u, Same (k.lockf u) (k'.lockf u) := fun u => by
    by_cases hu : u = w
    · rw [hu, hself]; exact ⟨rfl, rfl, rfl, rfl, rfl, rfl⟩
    · rw [hold u hu]; exact Same.refl _
  have hread : ∀ q ∈ links f (pre ++ b :: suf), k'.read q = k.read q := fun q hq => by
    have hne := h.repr.cells.link_ne (q := q) (by rwa [append_nil]) w
      (by simp [waitersOf_append, hw])
    cases q with
    | head => rfl
    | next u => exact congrArg Lockf.lfNext (hold u fun hu => hne (by rw [hu]))
  refine ⟨⟨h.repr.same hC haddr hread, ?_, ?_, fun a ha v hv => ?_, by simp,
    fun v hv => h.waiting v (hmem v hv), fun td' v hv => ?_, h.inj, fun td' v hv => ?_⟩, hnot'⟩
  · rw [← sorted_awake, hawake, sorted_awake]; exact h.sorted
  · rw [← compatible_awake, hawake, compatible_awake]; exact h.compatible
  · have hbl : ∀ e ∈ pre ++ b :: suf, v ∈ e.waiters → Blocks e (k'.lockf v) := fun e he hve =>
      (hsame v).blocks (h.blocked e he v hve)
    rcases mem_append.1 ha with ha | ha
    · exact hbl a (by simp [ha]) hv
    · rcases mem_cons.1 ha with rfl | ha
      · exact hbl b (by simp) (mem_of_mem_erase hv)
      · exact hbl a (by simp [ha]) hv
  · have hp := h.pending td' v hv
    have hs := hsame v
    refine ⟨hp.lt_brk, hp.live, fun hm => hp.not_mem ?_, hs.head.trans hp.head, ?_,
      by rw [hs.typ]; exact hp.typ, ?_⟩
    · rwa [append_nil, haddr, ← append_nil (pre ++ b :: suf)] at hm
    · rw [hs.typ, hs.start, hs.stop, hs.id]; exact hp.valid
    · by_cases hvw : v = w
      · rw [hvw, hself]; exact .inl rfl
      · rw [hold v hvw]; exact hp.next.imp id (hmem' v hvw)
  · obtain ⟨h1, h2⟩ := h.sleeping td' v hv
    refine ⟨h1, hmem' v ?_ h2⟩
    rintro rfl
    obtain rfl := h.inj td' td v h1 hcall
    have hv' : k.wchan td' = some v := hv
    rw [hwchan] at hv'
    cases hv'

/-- A thread goes on with its request. -/
theorem Inv.resume {call : ℕ → Option ℕ} (h : Inv k call f l []) (hcall : call td = some w)
    (hw : w ∉ waitersOf l) :
    Inv k (Function.update call td none) f l [⟨w, (k.lockf w).lfType, (k.lockf w).lfStart,
      (k.lockf w).lfEnd, (k.lockf w).lfId, []⟩] := by
  have hp := h.pending td w hcall
  have hC := h.repr.cells
  have hnm := hp.not_mem
  rw [append_nil] at hC hnm
  have hC' := (hC.adopt hp.lt_brk hp.live hp.head hnm hw).perm (perm_float _ l).symm
  have hupd : ∀ td' v, Function.update call td none td' = some v → td' ≠ td ∧ call td' = some v :=
    fun td' v hv => by
      by_cases htd : td' = td
      · rw [htd, update_self] at hv
        cases hv
      · rw [update_of_ne htd] at hv; exact ⟨htd, hv⟩
  have hother : ∀ td' v, td' ≠ td → call td' = some v →
      Function.update call td none td' = some v := fun td' v hne hv => by
    rw [update_of_ne hne, hv]
  refine ⟨⟨h.repr.chain, hC'⟩, h.sorted, h.compatible, h.blocked, by simp, fun v hv => ?_,
    fun td' v hv => ?_, fun td₁ td₂ v h₁ h₂ => ?_, fun td' v hv => ?_⟩
  · obtain ⟨td', htd'⟩ := h.waiting v hv
    refine ⟨td', hother td' v ?_ htd'⟩
    rintro rfl
    rw [hcall] at htd'; exact hw (Option.some.inj htd' ▸ hv)
  · obtain ⟨hne, hv⟩ := hupd td' v hv
    have hp' := h.pending td' v hv
    refine ⟨hp'.lt_brk, hp'.live, fun hm => ?_, hp'.head, hp'.valid, hp'.typ, hp'.next⟩
    rcases mem_addr_append.1 hm with hm | hm
    · exact hp'.not_mem (by rwa [append_nil])
    · have heq : v = w := by simpa using hm
      exact hne (h.inj td' td v hv (heq ▸ hcall))
  · exact h.inj td₁ td₂ v (hupd td₁ v h₁).2 (hupd td₂ v h₂).2
  · obtain ⟨h1, h2⟩ := h.sleeping td' v hv
    refine ⟨hother td' v ?_ h1, h2⟩
    rintro rfl
    rw [hcall] at h1; exact hw (Option.some.inj h1 ▸ h2)

/-- A signal ends the sleep of a thread. -/
theorem Inv.signal {call : ℕ → Option ℕ} (h : Inv k call f l x) (td : ℕ) :
    Inv { k with wchan := Function.update k.wchan td none } call f l x := by
  refine ⟨⟨h.repr.chain, h.repr.cells.wchan _⟩, h.sorted, h.compatible, h.blocked, h.floating,
    h.waiting, fun td' w hw => ?_, h.inj, fun td' w hw => h.sleeping td' w ?_⟩
  · have hp := h.pending td' w hw
    exact ⟨hp.lt_brk, hp.live, hp.not_mem, hp.head, hp.valid, hp.typ, hp.next⟩
  · have hw' : Function.update k.wchan td none td' = some w := hw
    by_cases htd : td' = td
    · rw [htd, update_self] at hw'
      cases hw'
    · rwa [update_of_ne htd] at hw'

/-! ## `lf_setlock` -/

/-- `lf_clearlock` leaves the locks of others alone. -/
theorem mem_clearEntries {unlock e : Entry} (fresh : ℕ) (he : e ∈ l) (hid : e.id ≠ unlock.id) :
    e ∈ clearEntries unlock fresh l := by
  induction l with
  | nil => cases he
  | cons a l ih =>
    by_cases ha : a.id = unlock.id
    · have hel : e ∈ l := by
        rcases mem_cons.1 he with rfl | hel
        · exact absurd ha hid
        · exact hel
      rw [clearEntries, if_neg (not_not.2 ha)]
      have htail : ∀ b, e ∈ b :: l := fun b => mem_cons_of_mem b hel
      have hrest := ih hel
      by_cases hno : noOverlap a.start a.end' unlock.start unlock.end'
      · rw [if_pos hno]
        split_ifs
        · exact htail a
        · exact mem_cons_of_mem a hrest
      rw [if_neg hno]
      split
      · exact hel
      · split_ifs
        · exact htail _
        · exact htail _
        · exact mem_cons_of_mem _ (htail _)
      · exact hrest
      · exact mem_cons_of_mem _ hrest
      · exact htail _
      · exact htail a
    · rw [clearEntries, if_pos ha]
      rcases mem_cons.1 he with rfl | hel
      · exact mem_cons_self ..
      · exact mem_cons_of_mem a (ih hel)

theorem Cell.blocks {e lock : Entry} (h : Cell k f lock) (h' : Cell k' f lock)
    (hb : Blocks e (k.lockf lock.addr)) : Blocks e (k'.lockf lock.addr) := by
  unfold Blocks at *; rwa [h'.id, h'.start, h'.stop, h'.typ, ← h.id, ← h.start, ← h.stop, ← h.typ]

/-- An unlock request does not make the ends of the entries of its owner wrap around. -/
def ClearNoWrap (unlock : Entry) (l : List Entry) : Prop :=
  unlock.end' = offMax → ∀ e ∈ l, e.id = unlock.id → e.end' ≠ -1

/-- The F_FLOCK case of `lf_setlock`: what blocks the request is still there. -/
theorem Inv.clear_flock {call : ℕ → Option ℕ} {b lock : Entry} (h : Inv k call f l [lock])
    (hv : lock.Valid) (hb : b ∈ l) (hid : b.id ≠ lock.id)
    (hclear : (k.lockf lock.addr).lfFlags.fFlock → lock.typ = .wrlck → ClearNoWrap lock l) :
    ∃ k' l', clearFlock k lock.addr = .ok k' ∧ Inv k' call f l' [lock] ∧ b ∈ l' := by
  have htyp := (h.repr.cells.cell lock (by simp)).typ
  rw [clearFlock, htyp]
  by_cases hc : (k.lockf lock.addr).lfFlags.fFlock ∧ lock.typ = .wrlck
  · have h₁ := h.setType .unlck
    have hf : FitsClear { lock with typ := .unlck } l :=
      ⟨⟨hv.start_nonneg, hv.start_le, hv.range⟩, h.sorted, hclear hc.1 hc.2⟩
    obtain ⟨k', hk', h₂⟩ := h₁.clearlock hf
    have h₃ := h₂.setType .wrlck
    have hlock : ({ lock with typ := .wrlck } : Entry) = lock := by rw [← hc.2]
    rw [if_pos hc]
    rw [show lfClearlock (k.setType lock.addr .unlck) lock.addr = .ok k' from hk']
    exact ⟨_, clearEntries { lock with typ := .unlck } k.brk l, rfl, hlock ▸ h₃,
      mem_clearEntries _ hb hid⟩
  · rw [if_neg hc]; exact ⟨k, l, rfl, h, hb⟩

/-- A lock request does not make the ends of the entries of its owner wrap around. -/
def SetNoWrap (lock : Entry) (l : List Entry) : Prop :=
  lock.end' = offMax → ∀ e ∈ l, e.id = lock.id → e.end' = -1 →
    e.typ = lock.typ ∧ e.start ≤ lock.start

/-- How `lf_setlock` ends: the lock is set, the call fails, or the thread sleeps. -/
theorem Inv.setlock_cases {call : ℕ → Option ℕ} {lock : Entry} (h : Inv k call f l [lock])
    (hcall : call td = none) (hv : lock.Valid)
    (ht : lock.typ ≠ .unlck)
    (hset : (∀ e ∈ l, ¬ Blocks e (k.lockf lock.addr)) → SetNoWrap lock l)
    (hclear : (∃ e ∈ l, Blocks e (k.lockf lock.addr)) → (k.lockf lock.addr).lfFlags.fWait →
      (k.lockf lock.addr).lfFlags.fFlock → lock.typ = .wrlck → ClearNoWrap lock l) :
    (∃ k', lfSetlock k td lock.addr = .ok (k', .ok) ∧ SetNoWrap lock l ∧
      Inv k' call f (setEntries lock k.brk l) []) ∨
    (∃ e, lfSetlock k td lock.addr = .ok (k.free lock.addr, .error e) ∧
      Inv (k.free lock.addr) call f l []) ∨
    ((k.lockf lock.addr).lfFlags.fWait = true ∧
      ((∃ k' l', lfSetlock k td lock.addr = .ok (k', .asleep lock.addr) ∧
        Inv k' (Function.update call td (some lock.addr)) f l' []) ∨
      ∃ e, lfSetlock k td lock.addr = .error e)) := by
  have hc := h.repr.cells.cell lock (by simp)
  have hr : (k.lockf lock.addr).Ranged := by
    have := hv.ranged
    rwa [← hc.start, ← hc.stop] at this
  rcases lfGetblock_cases h.repr h.sorted.valid hc.head hr with ⟨hg, hnb⟩ | ⟨b, hbl, hg, hb⟩
  · have hw := hset hnb
    obtain ⟨k', hk', h'⟩ := h.setLoop ⟨hv, h.sorted, hw⟩ ht hnb
    refine .inl ⟨k', ?_, hw, h'⟩
    rw [lfSetlock, hg]; simp only [hc.head, hk']
  · by_cases hwait : (k.lockf lock.addr).lfFlags.fWait = true
    · cases hd : deadlock k (k.lockf lock.addr) b.addr with
      | error e =>
        refine .inr (.inr ⟨hwait, .inr ⟨e, ?_⟩⟩)
        rw [lfSetlock, hg]; simp only [hwait, not_true_eq_false, if_false, hd]
      | ok found =>
        cases found with
        | true =>
          refine .inr (.inl ⟨.EDEADLK, ?_, h.free⟩)
          rw [lfSetlock, hg]; simp only [hwait, not_true_eq_false, if_false, hd]
        | false =>
          have hid : b.id ≠ lock.id := hc.id ▸ hb.1
          obtain ⟨k', l', hk', h', hb'⟩ := h.clear_flock hv hbl hid (hclear ⟨b, hbl, hb⟩ hwait)
          obtain ⟨pre, suf, rfl⟩ := append_of_mem hb'
          have hc' := h'.repr.cells.cell lock (by simp)
          refine .inr (.inr ⟨hwait, .inl ⟨_, _, ?_, h'.sleep hcall hv ht (hc.blocks hc' hb)⟩⟩)
          rw [lfSetlock, hg]; simp only [hwait, not_true_eq_false, if_false, hd, hk']
    · refine .inr (.inl ⟨.EAGAIN, ?_, h.free⟩)
      rw [lfSetlock, hg]; simp only [hwait, Bool.false_eq_true, not_false_eq_true, if_true]

end FreeBSD.KernLockf
