import FreeBSD.Kern.LockfList
import FreeBSD.Lib.Chain

/-!
# Byte-range locks in memory

`Cells k f E`: the entries `E` are the locks of the file `f` that are in memory,
linked or not, with the requests that are blocked on them. `Repr k f l x`: the
entries of `l` are the ones linked on the list of the file, and those of `x` are
not linked.

Results: what each of the assignments of the code does to `Cells` (`Cells.wake`,
`Cells.take`, `Cells.setStart`, …), with what it leaves alone (`Frame`).
-/

namespace FreeBSD.KernLockf

open FreeBSD.Lib List Function

/-! ## Reading links -/

/-- The value of a link. -/
def Kern.read (k : Kern) : Link → Option ℕ
  | .head f => k.head f
  | .next a => (k.lockf a).lfNext

/-! ## Entries in memory -/

/-- What the memory has at the address of an entry. -/
structure Cell (k : Kern) (f : ℕ) (e : Entry) : Prop where
  typ : (k.lockf e.addr).lfType = e.typ
  start : (k.lockf e.addr).lfStart = e.start
  stop : (k.lockf e.addr).lfEnd = e.end'
  id : (k.lockf e.addr).lfId = e.id
  head : (k.lockf e.addr).lfHead = f
  live : k.live e.addr = true
  lt_brk : e.addr < k.brk
  blkhd : k.blkhd e.addr = e.waiters

/-- The locks of the file `f` in memory, linked or not. -/
structure Cells (k : Kern) (f : ℕ) (E : List Entry) : Prop where
  nodup : (E.map Entry.addr).Nodup
  cell : ∀ e ∈ E, Cell k f e
  off : ∀ a, a ∉ E.map Entry.addr → k.blkhd a = []
  next : ∀ e ∈ E, ∀ w ∈ e.waiters, (k.lockf w).lfNext = some e.addr
  outside : ∀ w ∈ waitersOf E, w < k.brk ∧ w ∉ E.map Entry.addr
  wnodup : (waitersOf E).Nodup

variable {E E' : List Entry} {w f : ℕ} {k k' : Kern} {e m : Entry}

theorem mem_waitersOf : w ∈ waitersOf E ↔ ∃ e ∈ E, w ∈ e.waiters :=
  mem_flatMap

theorem waitersOf_perm (h : E.Perm E') : (waitersOf E).Perm (waitersOf E') :=
  h.flatMap_right Entry.waiters

theorem Cells.perm (hC : Cells k f E) (h : E.Perm E') : Cells k f E' where
  nodup := (h.map Entry.addr).nodup_iff.1 hC.nodup
  cell := fun e he => hC.cell e (h.mem_iff.2 he)
  off := fun a ha => hC.off a fun hm => ha ((h.map Entry.addr).mem_iff.1 hm)
  next := fun e he => hC.next e (h.mem_iff.2 he)
  outside := by
    intro w hw
    obtain ⟨h1, h2⟩ := hC.outside w ((waitersOf_perm h).mem_iff.2 hw)
    exact ⟨h1, fun hm => h2 ((h.map Entry.addr).mem_iff.2 hm)⟩
  wnodup := (waitersOf_perm h).nodup_iff.1 hC.wnodup

/-- The contents of a lock without `lf_next`. -/
structure Same (x y : Lockf) : Prop where
  flags : y.lfFlags = x.lfFlags
  typ : y.lfType = x.lfType
  start : y.lfStart = x.lfStart
  stop : y.lfEnd = x.lfEnd
  id : y.lfId = x.lfId
  head : y.lfHead = x.lfHead

theorem Same.refl (x : Lockf) : Same x x := ⟨rfl, rfl, rfl, rfl, rfl, rfl⟩

theorem Same.trans {x y z : Lockf} (h : Same x y) (h' : Same y z) : Same x z :=
  ⟨h'.flags.trans h.flags, h'.typ.trans h.typ, h'.start.trans h.start, h'.stop.trans h.stop,
    h'.id.trans h.id, h'.head.trans h.head⟩

/-- What a change of the entries `E` to `E'` leaves alone: everything but the entries, new cells and
    the requests that were blocked on an entry, and of these all that are still blocked on one, but
    for the entry. -/
structure Frame (k : Kern) (E : List Entry) (k' : Kern) (E' : List Entry) : Prop where
  brk : k.brk ≤ k'.brk
  addr : ∀ a ∈ E'.map Entry.addr, a ∈ E.map Entry.addr ∨ k.brk ≤ a
  waiters : ∀ w ∈ waitersOf E', w ∈ waitersOf E
  cell : ∀ u < k.brk, u ∉ E.map Entry.addr → Same (k.lockf u) (k'.lockf u) ∧ k'.live u = k.live u
  next : ∀ u < k.brk, u ∉ E.map Entry.addr → u ∉ waitersOf E →
    (k'.lockf u).lfNext = (k.lockf u).lfNext
  woken : ∀ w ∈ waitersOf E, w ∉ waitersOf E' →
    (k'.lockf w).lfNext = none ∧ ∀ td, k'.wchan td ≠ some w
  wchan : ∀ td w, k'.wchan td = some w → k.wchan td = some w
  wkeep : ∀ td w, k.wchan td = some w → (w ∉ waitersOf E ∨ w ∈ waitersOf E') →
    k'.wchan td = some w
  threads : k'.threads = k.threads

theorem Frame.refl (k : Kern) (E : List Entry) : Frame k E k E where
  brk := le_rfl
  addr := fun _ h => .inl h
  waiters := fun _ h => h
  cell := fun _ _ _ => ⟨Same.refl _, rfl⟩
  next := fun _ _ _ _ => rfl
  woken := fun _ h h' => absurd h h'
  wchan := fun _ _ h => h
  wkeep := fun _ _ h _ => h
  threads := rfl

theorem Frame.trans {k k' k'' : Kern} {E E' E'' : List Entry} (hC : Cells k f E)
    (h : Frame k E k' E') (h' : Frame k' E' k'' E'') : Frame k E k'' E'' := by
  have hbrk := h.brk
  have hout : ∀ u < k.brk, u ∉ E.map Entry.addr → u ∉ E'.map Entry.addr := by
    intro u hu hn hm
    rcases h.addr u hm with h1 | h1
    · exact hn h1
    · omega
  refine ⟨h.brk.trans h'.brk, fun a ha => ?_, fun w hw => h.waiters w (h'.waiters w hw),
    fun u hu hn => ?_, fun u hu hn hw => ?_, fun w hw hw' => ?_,
    fun td w hw => h.wchan td w (h'.wchan td w hw), fun td w hw hw' => ?_,
    h'.threads.trans h.threads⟩
  · rcases h'.addr a ha with h1 | h1
    · exact h.addr a h1
    · exact .inr (hbrk.trans h1)
  · obtain ⟨h1, h2⟩ := h.cell u hu hn
    obtain ⟨h3, h4⟩ := h'.cell u (by omega) (hout u hu hn)
    exact ⟨h1.trans h3, h4.trans h2⟩
  · rw [h'.next u (by omega) (hout u hu hn) fun hm => hw (h.waiters u hm), h.next u hu hn hw]
  · by_cases hmid : w ∈ waitersOf E'
    · exact h'.woken w hmid hw'
    · obtain ⟨h1, h2⟩ := h.woken w hw hmid
      obtain ⟨hlt, hna⟩ := hC.outside w hw
      refine ⟨?_, fun td htd => h2 td (h'.wchan td w htd)⟩
      rw [h'.next w (by omega) (hout w hlt hna) hmid, h1]
  · have hmid : w ∉ waitersOf E ∨ w ∈ waitersOf E' := hw'.imp id fun hm => h'.waiters w hm
    refine h'.wkeep td w (h.wkeep td w hw hmid) ?_
    rcases hw' with h1 | h1
    · exact .inl fun hm => h1 (h.waiters w hm)
    · exact .inr h1

/-- The frame does not depend on the order of the entries. -/
theorem Frame.perm {E₁ E₂ E₁' E₂' : List Entry} (h : Frame k E₁ k' E₁') (hE : E₁.Perm E₂)
    (hE' : E₁'.Perm E₂') : Frame k E₂ k' E₂' := by
  have ha : ∀ a, a ∈ E₁.map Entry.addr ↔ a ∈ E₂.map Entry.addr := fun a =>
    (hE.map Entry.addr).mem_iff
  have ha' : ∀ a, a ∈ E₁'.map Entry.addr ↔ a ∈ E₂'.map Entry.addr := fun a =>
    (hE'.map Entry.addr).mem_iff
  have hw : ∀ w, w ∈ waitersOf E₁ ↔ w ∈ waitersOf E₂ := fun w => (waitersOf_perm hE).mem_iff
  have hw' : ∀ w, w ∈ waitersOf E₁' ↔ w ∈ waitersOf E₂' := fun w => (waitersOf_perm hE').mem_iff
  obtain ⟨h1, h2, h3, h4, h5, h6, h7, h8, h9⟩ := h
  simp only [ha, ha', hw, hw'] at h2 h3 h4 h5 h6 h8; exact ⟨h1, h2, h3, h4, h5, h6, h7, h8, h9⟩

/-! ## Waking and moving requests -/

theorem lockf_setNext (k : Kern) (a : ℕ) (v : Option ℕ) (u : ℕ) :
    (k.setNext a v).lockf u = if u = a then { k.lockf a with lfNext := v } else k.lockf u := by
  simp only [Kern.setNext, Kern.update, update_apply]

theorem foldl_wakeOne (ws : List ℕ) (k : Kern) :
    (∀ u, (ws.foldl wakeOne k).lockf u =
      if u ∈ ws then { k.lockf u with lfNext := none } else k.lockf u) ∧
    (∀ td w, (ws.foldl wakeOne k).wchan td = some w ↔ k.wchan td = some w ∧ w ∉ ws) ∧
    (ws.foldl wakeOne k).blkhd = k.blkhd ∧ (ws.foldl wakeOne k).live = k.live ∧
    (ws.foldl wakeOne k).head = k.head ∧ (ws.foldl wakeOne k).brk = k.brk ∧
    (ws.foldl wakeOne k).threads = k.threads := by
  induction ws generalizing k with
  | nil => simp
  | cons w ws ih =>
    obtain ⟨h1, h2, h3, h4, h5, h6, h7⟩ := ih (wakeOne k w)
    rw [foldl_cons]
    refine ⟨fun u => ?_, fun td v => ?_, h3, h4, h5, h6, h7⟩
    · rw [h1 u]
      have hw : (wakeOne k w).lockf u = if u = w then { k.lockf w with lfNext := none }
          else k.lockf u := lockf_setNext k w none u
      rw [hw]
      by_cases hu : u = w
      · subst hu; simp
      · simp [hu]
    · rw [h2 td v]
      have hw : (wakeOne k w).wchan td = if k.wchan td = some w then none else k.wchan td := rfl
      rw [hw]
      by_cases hc : k.wchan td = some w
      · rw [if_pos hc, hc]
        simp only [reduceCtorEq, false_and, Option.some.injEq, mem_cons, false_iff, not_and]
        rintro rfl
        simp
      · rw [if_neg hc, mem_cons]
        constructor
        · rintro ⟨h, hn⟩
          refine ⟨h, ?_⟩
          rintro (rfl | hm)
          · exact hc h
          · exact hn hm
        · rintro ⟨h, hn⟩; exact ⟨h, fun hm => hn (.inr hm)⟩

theorem foldl_setNext (ws : List ℕ) (v : Option ℕ) (k : Kern) :
    (∀ u, (ws.foldl (fun k w => k.setNext w v) k).lockf u =
      if u ∈ ws then { k.lockf u with lfNext := v } else k.lockf u) ∧
    (ws.foldl (fun k w => k.setNext w v) k).wchan = k.wchan ∧
    (ws.foldl (fun k w => k.setNext w v) k).blkhd = k.blkhd ∧
    (ws.foldl (fun k w => k.setNext w v) k).live = k.live ∧
    (ws.foldl (fun k w => k.setNext w v) k).head = k.head ∧
    (ws.foldl (fun k w => k.setNext w v) k).brk = k.brk ∧
    (ws.foldl (fun k w => k.setNext w v) k).threads = k.threads := by
  induction ws generalizing k with
  | nil => simp
  | cons w ws ih =>
    obtain ⟨h1, h2, h3, h4, h5, h6, h7⟩ := ih (k.setNext w v)
    rw [foldl_cons]
    refine ⟨fun u => ?_, h2, h3, h4, h5, h6, h7⟩
    rw [h1 u, lockf_setNext]
    by_cases hu : u = w
    · subst hu; simp
    · simp [hu]

/-- `lf_wakelock`: nobody is blocked on the entry any more. -/
def Entry.awake (e : Entry) : Entry := { e with waiters := [] }

@[simp] theorem Entry.awake_addr (e : Entry) : e.awake.addr = e.addr := rfl

/-- The facts about the first of the entries. -/
structure Cells.Head (k : Kern) (f : ℕ) (e : Entry) (E : List Entry) : Prop where
  cell : Cell k f e
  not_mem : e.addr ∉ E.map Entry.addr
  ne : ∀ a ∈ E, a.addr ≠ e.addr
  not_waiter : ∀ w ∈ e.waiters, w ∉ (e :: E).map Entry.addr ∧ w ∉ waitersOf E
  next : ∀ w ∈ e.waiters, (k.lockf w).lfNext = some e.addr

theorem Cells.headFacts (hC : Cells k f (e :: E)) : Cells.Head k f e E := by
  have hn := hC.nodup
  rw [map_cons, nodup_cons] at hn
  have hw := hC.wnodup
  rw [waitersOf_cons, nodup_append] at hw
  refine ⟨hC.cell e (by simp), hn.1, fun a ha heq => hn.1 ?_, fun w hwe => ⟨?_, fun hm => ?_⟩,
    hC.next e (by simp)⟩
  · exact heq ▸ mem_map.2 ⟨a, ha, rfl⟩
  · exact (hC.outside w (by simp [hwe])).2
  · exact hw.2.2 w hwe w hm rfl

theorem Cell.congr (hc : Cell k f e)
    (hs : Same (k.lockf e.addr) (k'.lockf e.addr)) (hl : k'.live e.addr = k.live e.addr)
    (hb : k.brk ≤ k'.brk) {ws : List ℕ} (hblk : k'.blkhd e.addr = ws) :
    Cell k' f { e with waiters := ws } :=
  ⟨hs.typ.trans hc.typ, hs.start.trans hc.start, hs.stop.trans hc.stop, hs.id.trans hc.id,
    hs.head.trans hc.head, hl.trans hc.live, lt_of_lt_of_le hc.lt_brk hb, hblk⟩

theorem Cells.wake (hC : Cells k f (e :: E)) : Cells (lfWakelock k e.addr) f (e.awake :: E) ∧
      Frame k (e :: E) (lfWakelock k e.addr) (e.awake :: E) ∧
      (∀ q, (∀ w ∈ e.waiters, q ≠ .next w) → (lfWakelock k e.addr).read q = k.read q) := by
  have hh := hC.headFacts
  obtain ⟨h1, h2, h3, h4, h5, h6, h7⟩ := foldl_wakeOne e.waiters (k.setBlkhd e.addr [])
  have heq : lfWakelock k e.addr = e.waiters.foldl wakeOne (k.setBlkhd e.addr []) := by
    rw [lfWakelock, hh.cell.blkhd]
  rw [heq]
  have haddr : (e.awake :: E).map Entry.addr = (e :: E).map Entry.addr := rfl
  have hsame : ∀ u, Same (k.lockf u)
      ((e.waiters.foldl wakeOne (k.setBlkhd e.addr [])).lockf u) := fun u => by
    rw [h1 u]
    split_ifs <;> exact ⟨rfl, rfl, rfl, rfl, rfl, rfl⟩
  have hnext : ∀ u, u ∉ e.waiters →
      (e.waiters.foldl wakeOne (k.setBlkhd e.addr [])).lockf u = k.lockf u := fun u hu => by
    rw [h1 u, if_neg hu]; rfl
  have hblk : ∀ a, a ≠ e.addr → (k.setBlkhd e.addr []).blkhd a = k.blkhd a := fun a ha => by
    simp [Kern.setBlkhd, ha]
  have hsub : ∀ w ∈ waitersOf E, w ∈ waitersOf (e :: E) := fun w hw => by simp [hw]
  have hstay : ∀ w ∈ waitersOf E, w ∉ e.waiters := fun w hw hm => (hh.not_waiter w hm).2 hw
  refine ⟨⟨hC.nodup, ?_, fun a ha => ?_, ?_, fun w hw => ?_, ?_⟩,
    ⟨h6.ge, fun a ha => .inl ha, hsub, fun u _ _ => ⟨hsame u, by rw [h4]; rfl⟩,
      fun u _ _ hw => ?_, fun w hw hw' => ?_, fun td w hw => ((h2 td w).1 hw).1,
      fun td w hw hw' => (h2 td w).2 ⟨hw, fun hm => ?_⟩, h7⟩, fun q hq => ?_⟩
  · refine forall_mem_cons.2 ⟨?_, fun a ha => ?_⟩
    · exact hh.cell.congr (hsame _) (by rw [h4]; rfl) h6.ge (by rw [h3]; simp [Kern.setBlkhd])
    · have hc := hC.cell a (mem_cons_of_mem e ha)
      exact hc.congr (hsame _) (by rw [h4]; rfl) h6.ge
        (by rw [h3, hblk _ (hh.ne a ha), hc.blkhd])
  · rw [h3, hblk a fun h => ha (by simp [h, Entry.awake])]
    exact hC.off a ha
  · refine forall_mem_cons.2 ⟨by simp [Entry.awake], fun a ha w hw => ?_⟩
    rw [hnext w (hstay w (mem_waitersOf.2 ⟨a, ha, hw⟩))]
    exact hC.next a (mem_cons_of_mem e ha) w hw
  · obtain ⟨k1, k2⟩ := hC.outside w (hsub w hw)
    exact ⟨h6.symm ▸ k1, k2⟩
  · have := hC.wnodup
    rw [waitersOf_cons, nodup_append] at this; exact this.2.1
  · rw [hnext u fun hm => hw (by simp [hm])]
  · have hwe : w ∈ e.waiters := by
      rw [waitersOf_cons, mem_append] at hw; exact hw.resolve_right hw'
    refine ⟨?_, fun td htd => ((h2 td w).1 htd).2 hwe⟩
    rw [h1 w, if_pos hwe]
  · rcases hw' with hn | hin
    · exact hn (by simp [hm])
    · exact hstay w hin hm
  · cases q with
    | head g => exact congrFun h5 g
    | next a => exact congrArg Lockf.lfNext (hnext a fun hm => hq a hm rfl)

/-- More requests are blocked on the entry. -/
def Entry.plus (e : Entry) (ws : List ℕ) : Entry := { e with waiters := e.waiters ++ ws }

@[simp] theorem Entry.plus_addr (e : Entry) (ws : List ℕ) : (e.plus ws).addr = e.addr := rfl

@[simp] theorem Entry.plus_nil (e : Entry) : e.plus [] = e := by simp [Entry.plus]

@[simp] theorem Entry.plus_plus (e : Entry) (vs ws : List ℕ) :
    (e.plus vs).plus ws = e.plus (vs ++ ws) := by simp [Entry.plus]

theorem Cells.take (hC : Cells k f (e :: m :: E)) :
    Cells (takeWaiters k e.addr m.addr) f (e.awake :: m.plus e.waiters :: E) ∧
      Frame k (e :: m :: E) (takeWaiters k e.addr m.addr) (e.awake :: m.plus e.waiters :: E) ∧
      (∀ q, (∀ w ∈ e.waiters, q ≠ .next w) →
        (takeWaiters k e.addr m.addr).read q = k.read q) := by
  have hh := hC.headFacts
  have hh' := (hC.perm (List.Perm.swap m e E)).headFacts
  obtain ⟨h1, h2, h3, h4, h5, h6, h7⟩ := foldl_setNext e.waiters (some m.addr)
    ((k.setBlkhd e.addr []).setBlkhd m.addr (m.waiters ++ e.waiters))
  have heq : takeWaiters k e.addr m.addr = e.waiters.foldl (fun k w => k.setNext w (some m.addr))
      ((k.setBlkhd e.addr []).setBlkhd m.addr (m.waiters ++ e.waiters)) := by
    rw [takeWaiters, hh.cell.blkhd, hh'.cell.blkhd]
  rw [heq]
  set k' := e.waiters.foldl (fun k w => k.setNext w (some m.addr))
    ((k.setBlkhd e.addr []).setBlkhd m.addr (m.waiters ++ e.waiters)) with hk'
  have hsame : ∀ u, Same (k.lockf u) (k'.lockf u) := fun u => by
    rw [h1 u]
    split_ifs <;> exact ⟨rfl, rfl, rfl, rfl, rfl, rfl⟩
  have hnext : ∀ u, u ∉ e.waiters → k'.lockf u = k.lockf u := fun u hu => by
    rw [h1 u, if_neg hu]; rfl
  have hne : m.addr ≠ e.addr := hh.ne m (by simp)
  have hblk : ∀ a, a ≠ e.addr → a ≠ m.addr → k'.blkhd a = k.blkhd a := fun a ha ha' => by
    rw [h3]; simp [Kern.setBlkhd, ha, ha']
  have hws : ∀ w, w ∈ waitersOf (e.awake :: m.plus e.waiters :: E) ↔
      w ∈ waitersOf (e :: m :: E) := fun w => by
    simp only [waitersOf_cons, Entry.awake, Entry.plus, mem_append, not_mem_nil, false_or]
    tauto
  refine ⟨⟨hC.nodup, ?_, fun a ha => ?_, ?_, fun w hw => ?_, ?_⟩,
    ⟨h6.ge, fun a ha => .inl ha, fun w hw => (hws w).1 hw, fun u _ _ => ⟨hsame u, by rw [h4]; rfl⟩,
      fun u _ _ hw => ?_, fun w hw hw' => absurd ((hws w).2 hw) hw',
      fun td w hw => by rwa [h2] at hw, fun td w hw _ => by rw [h2]; exact hw, h7⟩, fun q hq => ?_⟩
  · refine forall_mem_cons.2 ⟨?_, forall_mem_cons.2 ⟨?_, fun a ha => ?_⟩⟩
    · exact hh.cell.congr (hsame _) (by rw [h4]; rfl) h6.ge
        (by rw [h3]; simp [Kern.setBlkhd, hne.symm])
    · exact hh'.cell.congr (hsame _) (by rw [h4]; rfl) h6.ge (by rw [h3]; simp [Kern.setBlkhd])
    · have hc := hC.cell a (by simp [ha])
      exact hc.congr (hsame _) (by rw [h4]; rfl) h6.ge
        (by rw [hblk _ (hh.ne a (by simp [ha])) (hh'.ne a (by simp [ha])), hc.blkhd])
  · have ha' : a ∉ (e :: m :: E).map Entry.addr := ha
    rw [hblk a (fun h => ha' (by simp [h])) fun h => ha' (by simp [h])]
    exact hC.off a ha'
  · refine forall_mem_cons.2 ⟨by simp [Entry.awake], forall_mem_cons.2
      ⟨fun w hw => ?_, fun a ha w hw => ?_⟩⟩
    · by_cases hwe : w ∈ e.waiters
      · rw [h1 w, if_pos hwe]; rfl
      · rw [hnext w hwe]; exact hC.next m (by simp) w ((mem_append.1 hw).resolve_right hwe)
    · rw [hnext w fun hm => (hh.not_waiter w hm).2 (mem_waitersOf.2 ⟨a, by simp [ha], hw⟩)]
      exact hC.next a (by simp [ha]) w hw
  · obtain ⟨k1, k2⟩ := hC.outside w ((hws w).1 hw)
    exact ⟨h6.symm ▸ k1, k2⟩
  · have hn := hC.wnodup
    refine (List.Perm.nodup_iff ?_).1 hn
    simp only [waitersOf_cons, Entry.awake, Entry.plus, nil_append, append_assoc]
    rw [← append_assoc, ← append_assoc]; exact perm_append_comm.append_right _
  · rw [hnext u fun hm => hw (by simp [hm])]
  · cases q with
    | head g => exact congrFun h5 g
    | next a => exact congrArg Lockf.lfNext (hnext a fun hm => hq a hm rfl)

/-- An assignment to the contents of an entry. -/
theorem Cells.assign {t : LockType} {s s' : ℤ} (g : Lockf → Lockf)
    (hC : Cells k f (e :: E)) (ht : (g (k.lockf e.addr)).lfType = t)
    (hs : (g (k.lockf e.addr)).lfStart = s) (hs' : (g (k.lockf e.addr)).lfEnd = s')
    (hid : (g (k.lockf e.addr)).lfId = (k.lockf e.addr).lfId)
    (hhd : (g (k.lockf e.addr)).lfHead = (k.lockf e.addr).lfHead) :
    Cells (k.update e.addr g) f ({ e with typ := t, start := s, end' := s' } :: E) ∧
      Frame k (e :: E) (k.update e.addr g) ({ e with typ := t, start := s, end' := s' } :: E) := by
  have hh := hC.headFacts
  have hother : ∀ u, u ≠ e.addr → (k.update e.addr g).lockf u = k.lockf u := fun u hu => by
    simp [Kern.update, hu]
  have hself : (k.update e.addr g).lockf e.addr = g (k.lockf e.addr) := by simp [Kern.update]
  have hwne : ∀ w ∈ waitersOf (e :: E), w ≠ e.addr := fun w hw heq =>
    (hC.outside w hw).2 (by simp [heq])
  refine ⟨⟨hC.nodup, ?_, hC.off, ?_, hC.outside, hC.wnodup⟩,
    ⟨le_rfl, fun a ha => .inl ha, fun w hw => hw, fun u _ hn => ?_, fun u _ hn _ => ?_,
      fun w hw hw' => absurd hw hw', fun td w hw => hw, fun td w hw _ => hw, rfl⟩⟩
  · refine forall_mem_cons.2 ⟨?_, fun a ha => ?_⟩
    · have hc := hh.cell
      exact ⟨hself ▸ ht, hself ▸ hs, hself ▸ hs', hself ▸ hid.trans hc.id,
        hself ▸ hhd.trans hc.head,
        hc.live, hc.lt_brk, hc.blkhd⟩
    · have hc := hC.cell a (mem_cons_of_mem e ha)
      have hs : Same (k.lockf a.addr) ((k.update e.addr g).lockf a.addr) := by
        rw [hother _ (hh.ne a ha)]; exact Same.refl _
      exact hc.congr hs rfl le_rfl hc.blkhd
  · refine forall_mem_cons.2 ⟨fun w hw => ?_, fun a ha w hw => ?_⟩
    · rw [hother w (hwne w (by simp [show w ∈ e.waiters from hw]))]
      exact hC.next e (by simp) w hw
    · rw [hother w (hwne w (mem_waitersOf.2 ⟨a, by simp [ha], hw⟩))]
      exact hC.next a (by simp [ha]) w hw
  · rw [hother u fun h => hn (by simp [h])]
    exact ⟨Same.refl _, rfl⟩
  · rw [hother u fun h => hn (by simp [h])]

theorem Cells.setType (hC : Cells k f (e :: E)) (t : LockType) :
    Cells (k.setType e.addr t) f ({ e with typ := t } :: E) ∧
      Frame k (e :: E) (k.setType e.addr t) ({ e with typ := t } :: E) :=
  hC.assign _ rfl (hC.headFacts.cell.start) (hC.headFacts.cell.stop) rfl rfl

theorem Cells.setStart (hC : Cells k f (e :: E)) (v : ℤ) :
    Cells (k.setStart e.addr v) f ({ e with start := wrap v } :: E) ∧
      Frame k (e :: E) (k.setStart e.addr v) ({ e with start := wrap v } :: E) :=
  hC.assign _ (hC.headFacts.cell.typ) rfl (hC.headFacts.cell.stop) rfl rfl

theorem Cells.setEnd (hC : Cells k f (e :: E)) (v : ℤ) :
    Cells (k.setEnd e.addr v) f ({ e with end' := wrap v } :: E) ∧
      Frame k (e :: E) (k.setEnd e.addr v) ({ e with end' := wrap v } :: E) :=
  hC.assign _ (hC.headFacts.cell.typ) (hC.headFacts.cell.start) rfl rfl rfl

/-- The links of the entries can be set at will. -/
theorem Cells.setNext {f a : ℕ} (hC : Cells k f E) (ha : a ∈ E.map Entry.addr) (v : Option ℕ) :
    Cells (k.setNext a v) f E ∧ Frame k E (k.setNext a v) E := by
  obtain ⟨e, he, rfl⟩ := mem_map.1 ha
  have hp := perm_cons_erase he
  have hC' := hC.perm hp
  obtain ⟨h1, h2⟩ := hC'.assign ({ · with lfNext := v }) (hC'.headFacts.cell.typ)
    (hC'.headFacts.cell.start) (hC'.headFacts.cell.stop) rfl rfl
  exact ⟨h1.perm hp.symm, h2.perm hp.symm hp.symm⟩

theorem Cells.setHead {f g : ℕ} (hC : Cells k f E) (v : Option ℕ) :
    Cells (k.write (.head g) v) f E ∧ Frame k E (k.write (.head g) v) E :=
  ⟨⟨hC.nodup, fun e he => ⟨(hC.cell e he).typ, (hC.cell e he).start, (hC.cell e he).stop,
      (hC.cell e he).id, (hC.cell e he).head, (hC.cell e he).live, (hC.cell e he).lt_brk,
      (hC.cell e he).blkhd⟩, hC.off, hC.next, hC.outside, hC.wnodup⟩,
    ⟨le_rfl, fun _ h => .inl h, fun _ h => h, fun _ _ _ => ⟨Same.refl _, rfl⟩, fun _ _ _ _ => rfl,
      fun _ h h' => absurd h h', fun _ _ h => h, fun _ _ h _ => h, rfl⟩⟩

/-- `free` of an entry on which no request is blocked. -/
theorem Cells.free (hC : Cells k f (e :: E)) (hws : e.waiters = []) :
    Cells (k.free e.addr) f E ∧ Frame k (e :: E) (k.free e.addr) E := by
  have hh := hC.headFacts
  have hlive : ∀ u, u ≠ e.addr → (k.free e.addr).live u = k.live u := fun u hu => by
    simp [Kern.free, hu]
  have hwaiters : waitersOf (e :: E) = waitersOf E := by simp [hws]
  refine ⟨⟨?_, fun a ha => ?_, fun a ha => ?_, fun a ha => hC.next a (mem_cons_of_mem e ha),
    fun w hw => ?_, hwaiters ▸ hC.wnodup⟩,
    ⟨le_rfl, fun a ha => .inl (mem_cons_of_mem _ ha), fun w hw => hwaiters.symm ▸ hw,
      fun u _ hn => ⟨Same.refl _, hlive u fun h => hn (by simp [h])⟩, fun _ _ _ _ => rfl,
      fun w hw hw' => absurd (hwaiters ▸ hw) hw', fun _ _ h => h, fun _ _ h _ => h, rfl⟩⟩
  · have := hC.nodup
    rw [map_cons, nodup_cons] at this; exact this.2
  · have hc := hC.cell a (mem_cons_of_mem e ha)
    have hs : Same (k.lockf a.addr) ((k.free e.addr).lockf a.addr) := Same.refl _
    exact hc.congr hs (hlive _ (hh.ne a ha)) le_rfl hc.blkhd
  · by_cases hae : a = e.addr
    · rw [hae]; exact hh.cell.blkhd.trans hws
    · exact hC.off a (by simp only [map_cons, mem_cons, not_or]; exact ⟨hae, ha⟩)
  · obtain ⟨h1, h2⟩ := hC.outside w (hwaiters.symm ▸ hw)
    exact ⟨h1, fun hm => h2 (mem_cons_of_mem _ hm)⟩

/-- `malloc` of a lock of the file. -/
theorem Cells.malloc (hC : Cells k f E) (x : Lockf) (hx : x.lfHead = f) :
    Cells (k.malloc x).1 f (⟨k.brk, x.lfType, x.lfStart, x.lfEnd, x.lfId, []⟩ :: E) ∧
      Frame k E (k.malloc x).1 (⟨k.brk, x.lfType, x.lfStart, x.lfEnd, x.lfId, []⟩ :: E) := by
  have hlt : ∀ a ∈ E, a.addr < k.brk := fun a ha => (hC.cell a ha).lt_brk
  have hold : ∀ u, u ≠ k.brk → (k.malloc x).1.lockf u = k.lockf u ∧
      (k.malloc x).1.live u = k.live u ∧ (k.malloc x).1.blkhd u = k.blkhd u := fun u hu => by
    simp [Kern.malloc, hu]
  have hnot : k.brk ∉ E.map Entry.addr := by
    intro hm
    obtain ⟨a, ha, heq⟩ := mem_map.1 hm
    exact absurd (hlt a ha) (by omega)
  refine ⟨⟨nodup_cons.2 ⟨hnot, hC.nodup⟩, ?_, fun a ha => ?_, ?_, fun w hw => ?_, ?_⟩,
    ⟨Nat.le_succ _, fun a ha => ?_, fun w hw => by simpa using hw, fun u hu _ => ?_,
      fun u hu _ _ => ?_, fun w hw hw' => absurd (by simpa using hw) hw', fun _ _ h => h,
      fun _ _ h _ => h, rfl⟩⟩
  · refine forall_mem_cons.2 ⟨?_, fun a ha => ?_⟩
    · refine ⟨?_, ?_, ?_, ?_, ?_, ?_, ?_, ?_⟩ <;> simp [Kern.malloc, hx]
    · have hc := hC.cell a ha
      have hlt' := hlt a ha
      obtain ⟨h1, h2, h3⟩ := hold a.addr (by omega)
      exact hc.congr (by rw [h1]; exact Same.refl _) h2 (Nat.le_succ _) (h3.trans hc.blkhd)
  · simp only [map_cons, mem_cons, not_or] at ha
    rw [(hold a ha.1).2.2]; exact hC.off a ha.2
  · refine forall_mem_cons.2 ⟨by simp, fun a ha w hw => ?_⟩
    have := (hC.outside w (mem_waitersOf.2 ⟨a, ha, hw⟩)).1
    rw [(hold w (by omega)).1]
    exact hC.next a ha w hw
  · obtain ⟨h1, h2⟩ := hC.outside w (by simpa using hw)
    refine ⟨Nat.lt_succ_of_lt h1, ?_⟩
    simp only [map_cons, mem_cons, not_or]; exact ⟨by omega, h2⟩
  · simpa using hC.wnodup
  · simp only [map_cons, mem_cons] at ha
    rcases ha with ha | ha
    · exact .inr ha.ge
    · exact .inl ha
  · obtain ⟨h1, h2, -⟩ := hold u (by omega)
    exact ⟨by rw [h1]; exact Same.refl _, h2⟩
  · rw [(hold u (by omega)).1]

/-- The links of a list. -/
def links (f : ℕ) (l : List Entry) : List Link := .head f :: (l.map Entry.addr).map .next

theorem links_mono {l m : List Entry} (h : l.map Entry.addr ⊆ m.map Entry.addr) :
    links f l ⊆ links f m := cons_subset_cons _ (map_subset _ h)

/-- An assignment through a link of the list. -/
theorem Cells.write (hC : Cells k f E) {p : Link} (hp : p ∈ links f E) (v : Option ℕ) :
    Cells (k.write p v) f E ∧ Frame k E (k.write p v) E := by
  cases p with
  | head g => exact hC.setHead v
  | next a =>
    refine hC.setNext ?_ v
    simpa [links] using hp

/-! ## Blocked requests -/

/-- A lock that is on no list becomes a request that is blocked on an entry. -/
theorem Cells.block {b lock : Entry} (hC : Cells k f (b :: lock :: E)) (hws : lock.waiters = []) :
    Cells ((k.setNext lock.addr (some b.addr)).setBlkhd b.addr (k.blkhd b.addr ++ [lock.addr])) f
      (b.plus [lock.addr] :: E) := by
  have hh := hC.headFacts
  have hl := (hC.perm (List.Perm.swap lock b E)).headFacts
  have hold : ∀ u, u ≠ lock.addr → (k.setNext lock.addr (some b.addr)).lockf u = k.lockf u :=
    fun u hu => by rw [lockf_setNext, if_neg hu]
  have hblk : ∀ u, u ≠ b.addr → ((k.setNext lock.addr (some b.addr)).setBlkhd b.addr
      (k.blkhd b.addr ++ [lock.addr])).blkhd u = k.blkhd u := fun u hu => by
    simp [Kern.setBlkhd, Kern.setNext, Kern.update, hu]
  have hsame : ∀ u, Same (k.lockf u) (((k.setNext lock.addr (some b.addr)).setBlkhd b.addr
      (k.blkhd b.addr ++ [lock.addr])).lockf u) := fun u => by
    show Same _ ((k.setNext lock.addr (some b.addr)).lockf u)
    rw [lockf_setNext]
    split_ifs with h
    · rw [h]; exact ⟨rfl, rfl, rfl, rfl, rfl, rfl⟩
    · exact Same.refl _
  have hnodup := hC.nodup
  have hwl : ∀ w ∈ waitersOf (b :: E), w ≠ lock.addr := fun w hw heq =>
    (hC.outside w (by simp only [waitersOf_cons, mem_append] at hw ⊢; tauto)).2
      (by simp [heq])
  refine ⟨?_, ?_, fun a ha => ?_, ?_, fun w hw => ?_, ?_⟩
  · simp only [map_cons, nodup_cons, mem_cons, not_or, Entry.plus_addr] at hnodup ⊢
    exact ⟨hnodup.1.2, hnodup.2.2⟩
  · refine forall_mem_cons.2 ⟨?_, fun a ha => ?_⟩
    · refine hh.cell.congr (hsame b.addr) rfl le_rfl ?_
      simp [Kern.setBlkhd, hh.cell.blkhd]
    · have hc := hC.cell a (by simp [ha])
      exact hc.congr (hsame a.addr) rfl le_rfl ((hblk _ (hh.ne a (by simp [ha]))).trans hc.blkhd)
  · simp only [map_cons, mem_cons, not_or, Entry.plus_addr] at ha
    rw [hblk a ha.1]
    by_cases hal : a = lock.addr
    · rw [hal, hl.cell.blkhd, hws]
    · exact hC.off a (by simp [ha.1, ha.2, hal])
  · refine forall_mem_cons.2 ⟨fun w hw => ?_, fun a ha w hw => ?_⟩
    · rcases mem_append.1 hw with hw | hw
      · rw [show ((k.setNext lock.addr (some b.addr)).setBlkhd b.addr _).lockf w = k.lockf w from
          hold w (hwl w (by simp [hw]))]
        exact hC.next b (by simp) w hw
      · rw [mem_singleton.1 hw]; simp [Kern.setBlkhd, lockf_setNext]
    · rw [show ((k.setNext lock.addr (some b.addr)).setBlkhd b.addr _).lockf w = k.lockf w from
        hold w (hwl w (by simp only [waitersOf_cons, mem_append];
                          exact .inr (mem_waitersOf.2 ⟨a, ha, hw⟩)))]
      exact hC.next a (by simp [ha]) w hw
  · simp only [waitersOf_cons, Entry.plus, mem_append, mem_singleton] at hw
    simp only [map_cons, Entry.plus_addr]
    rcases hw with (hw | rfl) | hw
    · obtain ⟨h1, h2⟩ := hC.outside w (by simp [hw])
      exact ⟨h1, fun hm => h2 (by simp only [map_cons, mem_cons] at hm ⊢; tauto)⟩
    · simp only [map_cons, nodup_cons, mem_cons, not_or] at hnodup
      exact ⟨hl.cell.lt_brk, fun hm => (mem_cons.1 hm).elim (Ne.symm hnodup.1.1) hnodup.2.1⟩
    · obtain ⟨h1, h2⟩ := hC.outside w (by simp [hw])
      exact ⟨h1, fun hm => h2 (by simp only [map_cons, mem_cons] at hm ⊢; tauto)⟩
  · have hp : (waitersOf (b.plus [lock.addr] :: E)).Perm (lock.addr :: waitersOf (b :: E)) := by
      simp only [waitersOf_cons, Entry.plus, append_assoc, singleton_append]
      exact perm_middle
    refine hp.nodup_iff.2 (nodup_cons.2 ⟨fun hm => hwl _ hm rfl, ?_⟩)
    simpa [hws] using hC.wnodup

/-- A blocked request is taken off the list of those blocked on an entry. -/
theorem Cells.unblock {b : Entry} (hC : Cells k f (b :: E)) (hw : w ∈ b.waiters) :
    Cells ((k.setBlkhd b.addr ((k.blkhd b.addr).erase w)).setNext w none) f
        ({ b with waiters := b.waiters.erase w } :: E) ∧
      w ∉ waitersOf ({ b with waiters := b.waiters.erase w } :: E) := by
  have hh := hC.headFacts
  have hnd := hC.wnodup
  rw [waitersOf_cons, nodup_append] at hnd
  have hnot : w ∉ waitersOf ({ b with waiters := b.waiters.erase w } :: E) := by
    simp only [waitersOf_cons, mem_append, not_or]
    exact ⟨fun hm => (List.Nodup.mem_erase_iff hnd.1).1 hm |>.1 rfl, (hh.not_waiter w hw).2⟩
  have hsub : ∀ v ∈ waitersOf ({ b with waiters := b.waiters.erase w } :: E),
      v ∈ waitersOf (b :: E) := by
    simp only [waitersOf_cons, mem_append]; exact fun v hv => hv.imp mem_of_mem_erase id
  have hold : ∀ u, u ≠ w →
      ((k.setBlkhd b.addr ((k.blkhd b.addr).erase w)).setNext w none).lockf u = k.lockf u :=
    fun u hu => by rw [lockf_setNext, if_neg hu]; rfl
  have haddr : ∀ a ∈ b :: E, a.addr ≠ w := fun a ha heq =>
    (hh.not_waiter w hw).1 (heq ▸ mem_map_of_mem ha)
  have hblk : ∀ u, u ≠ b.addr →
      ((k.setBlkhd b.addr ((k.blkhd b.addr).erase w)).setNext w none).blkhd u = k.blkhd u :=
    fun u hu => by simp [Kern.setBlkhd, Kern.setNext, Kern.update, hu]
  have hsame : ∀ a ∈ b :: E, Same (k.lockf a.addr)
      (((k.setBlkhd b.addr ((k.blkhd b.addr).erase w)).setNext w none).lockf a.addr) :=
    fun a ha => by rw [hold _ (haddr a ha)]; exact Same.refl _
  refine ⟨⟨hC.nodup, ?_, fun a ha => ?_, ?_, fun v hv => hC.outside v (hsub v hv), ?_⟩, hnot⟩
  · refine forall_mem_cons.2 ⟨?_, fun a ha => ?_⟩
    · refine hh.cell.congr (hsame b (by simp)) rfl le_rfl ?_
      simp [Kern.setBlkhd, Kern.setNext, Kern.update, hh.cell.blkhd]
    · have hc := hC.cell a (mem_cons_of_mem b ha)
      exact hc.congr (hsame a (by simp [ha])) rfl le_rfl ((hblk _ (hh.ne a ha)).trans hc.blkhd)
  · have hne : a ≠ b.addr := fun h => ha (by simp [h])
    rw [hblk a hne]; exact hC.off a ha
  · refine forall_mem_cons.2 ⟨fun v hv => ?_, fun a ha v hv => ?_⟩
    · have hne : v ≠ w := ((List.Nodup.mem_erase_iff hnd.1).1 hv).1
      rw [hold v hne]; exact hC.next b (by simp) v (mem_of_mem_erase hv)
    · have hne : v ≠ w := fun h => hnot (mem_waitersOf.2 ⟨a, by simp [ha], h ▸ hv⟩)
      rw [hold v hne]; exact hC.next a (by simp [ha]) v hv
  · rw [waitersOf_cons, nodup_append]
    exact ⟨hnd.1.erase w, hnd.2.1, fun v hv u hu => hnd.2.2 v (mem_of_mem_erase hv) u hu⟩

/-- A request that is not blocked is a lock that is on no list. -/
theorem Cells.adopt (hC : Cells k f E) (hlt : w < k.brk) (hlive : k.live w = true)
    (hhead : (k.lockf w).lfHead = f) (hE : w ∉ E.map Entry.addr)
    (hw : w ∉ waitersOf E) :
    Cells k f (⟨w, (k.lockf w).lfType, (k.lockf w).lfStart, (k.lockf w).lfEnd, (k.lockf w).lfId,
      []⟩ :: E) := by
  refine ⟨nodup_cons.2 ⟨hE, hC.nodup⟩, ?_, fun a ha => ?_, ?_, fun v hv => ?_, hC.wnodup⟩
  · exact forall_mem_cons.2
      ⟨⟨rfl, rfl, rfl, rfl, hhead, hlive, hlt, hC.off w hE⟩, hC.cell⟩
  · exact hC.off a fun hm => ha (mem_cons_of_mem _ hm)
  · exact forall_mem_cons.2 ⟨by simp, hC.next⟩
  · obtain ⟨h1, h2⟩ := hC.outside v hv
    refine ⟨h1, fun hm => ?_⟩
    rcases mem_cons.1 hm with rfl | hm
    · exact hw hv
    · exact h2 hm

/-- The locks do not depend on the threads that sleep. -/
theorem Cells.wchan (hC : Cells k f E) (v : ℕ → Option ℕ) : Cells { k with wchan := v } f E :=
  ⟨hC.nodup, fun e he => ⟨(hC.cell e he).typ, (hC.cell e he).start, (hC.cell e he).stop,
    (hC.cell e he).id, (hC.cell e he).head, (hC.cell e he).live, (hC.cell e he).lt_brk,
    (hC.cell e he).blkhd⟩, hC.off, hC.next, hC.outside, hC.wnodup⟩

/-! ## What the assignments do to the links -/

theorem read_write (k : Kern) (p q : Link) (v : Option ℕ) :
    (k.write p v).read q = if q = p then v else k.read q := by
  cases p <;> cases q <;>
    simp only [Kern.write, Kern.read, lockf_setNext, Link.head.injEq, Link.next.injEq, reduceCtorEq,
      if_false, update_apply]
  · rfl
  · split_ifs <;> rfl

theorem read_setNext (k : Kern) (a : ℕ) (q : Link) (v : Option ℕ) :
    (k.setNext a v).read q = if q = .next a then v else k.read q := read_write k (.next a) q v

theorem read_update (k : Kern) (a : ℕ) (g : Lockf → Lockf) (q : Link)
    (hg : ∀ x, (g x).lfNext = x.lfNext) : (k.update a g).read q = k.read q := by
  cases q with
  | head => rfl
  | next b =>
    simp only [Kern.read, Kern.update, update_apply]
    split_ifs with h
    · rw [hg, h]
    · rfl

@[simp] theorem read_setStart (k : Kern) (a : ℕ) (v : ℤ) (q : Link) :
    (k.setStart a v).read q = k.read q := read_update k a _ q fun _ => rfl

@[simp] theorem read_setEnd (k : Kern) (a : ℕ) (v : ℤ) (q : Link) :
    (k.setEnd a v).read q = k.read q := read_update k a _ q fun _ => rfl

@[simp] theorem read_setType (k : Kern) (a : ℕ) (t : LockType) (q : Link) :
    (k.setType a t).read q = k.read q := read_update k a _ q fun _ => rfl

@[simp] theorem read_free (k : Kern) (a : ℕ) (q : Link) : (k.free a).read q = k.read q := by
  cases q <;> rfl

theorem read_malloc (k : Kern) (x : Lockf) (q : Link) :
    (k.malloc x).1.read q = if q = .next k.brk then x.lfNext else k.read q := by
  cases q with
  | head => rfl
  | next b =>
    simp only [Kern.read, Kern.malloc, update_apply, Link.next.injEq]
    split_ifs <;> rfl

/-- The links of the list are not those of requests. -/
theorem Cells.link_ne (hC : Cells k f E) {q : Link} (hq : q ∈ links f E) :
    ∀ w ∈ waitersOf E, q ≠ .next w := by
  intro w hw heq
  subst heq
  refine (hC.outside w hw).2 ?_
  simpa [links] using hq

theorem Cells.nodup_links (hC : Cells k f E) : (links f E).Nodup := by
  refine nodup_cons.2 ⟨by simp, hC.nodup.map fun a b h => ?_⟩
  exact Link.next.inj h

/-! ## Splitting an entry -/

/-- `lf_split` into two: the lock `m` gets the last part of the entry `e`. -/
theorem Cells.split_two
    (hC : Cells k f (e :: m :: E)) (hs : e.start ≠ m.start) (he : e.end' = m.end') :
    Cells (lfSplit k e.addr m.addr) f ({ e with end' := wrap (m.start - 1) } :: m :: E) ∧
      Frame k (e :: m :: E) (lfSplit k e.addr m.addr)
        ({ e with end' := wrap (m.start - 1) } :: m :: E) ∧
      ∀ q, (lfSplit k e.addr m.addr).read q = if q = .next e.addr then some m.addr
        else if q = .next m.addr then k.read (.next e.addr) else k.read q := by
  have hce := hC.cell e (by simp)
  have hcm := hC.cell m (by simp)
  have heq : lfSplit k e.addr m.addr =
      ((k.setEnd e.addr (m.start - 1)).setNext m.addr (k.read (.next e.addr))).setNext e.addr
        (some m.addr) := by
    rw [lfSplit, hce.start, hcm.start, if_neg hs, hce.stop, hcm.stop, if_pos he]; rfl
  obtain ⟨h1, f1⟩ := hC.setEnd (m.start - 1)
  obtain ⟨h2, f2⟩ := h1.setNext (a := m.addr) (by simp) (k.read (.next e.addr))
  obtain ⟨h3, f3⟩ := h2.setNext (a := e.addr) (by simp) (some m.addr)
  rw [heq]
  refine ⟨h3, (f1.trans hC f2).trans hC f3, fun q => ?_⟩
  simp only [read_setNext, read_setEnd]

/-- `lf_split` into three: the last part of the entry `e` becomes a new one. -/
theorem Cells.split_three
    (hC : Cells k f (e :: m :: E)) (hs : e.start ≠ m.start) (he : e.end' ≠ m.end') :
    Cells (lfSplit k e.addr m.addr) f ({ e with end' := wrap (m.start - 1) } :: m ::
        { e with addr := k.brk, start := wrap (m.end' + 1), waiters := [] } :: E) ∧
      Frame k (e :: m :: E) (lfSplit k e.addr m.addr) ({ e with end' := wrap (m.start - 1) } :: m ::
        { e with addr := k.brk, start := wrap (m.end' + 1), waiters := [] } :: E) ∧
      ∀ q, (lfSplit k e.addr m.addr).read q = if q = .next e.addr then some m.addr
        else if q = .next m.addr then some k.brk
        else if q = .next k.brk then k.read (.next e.addr) else k.read q := by
  have hce := hC.cell e (by simp)
  have hcm := hC.cell m (by simp)
  have heq : lfSplit k e.addr m.addr =
      ((((((k.malloc (k.lockf e.addr)).1.setStart k.brk (m.end' + 1)).setEnd e.addr
        (m.start - 1)).setNext k.brk (k.read (.next e.addr))).setNext m.addr (some k.brk)).setNext
        e.addr (some m.addr)) := by
    rw [lfSplit, hce.start, hcm.start, if_neg hs, hce.stop, hcm.stop, if_neg he]; rfl
  obtain ⟨h0, f0⟩ := hC.malloc (k.lockf e.addr) hce.head
  rw [hce.typ, hce.start, hce.stop, hce.id] at h0 f0
  obtain ⟨h1, f1⟩ := h0.setStart (m.end' + 1)
  have hp := List.Perm.swap e
    (⟨k.brk, e.typ, wrap (m.end' + 1), e.end', e.id, []⟩ : Entry) (m :: E)
  obtain ⟨h2, f2⟩ := (h1.perm hp).setEnd (m.start - 1)
  obtain ⟨h3, f3⟩ := h2.setNext (a := k.brk) (by simp) (k.read (.next e.addr))
  obtain ⟨h4, f4⟩ := h3.setNext (a := m.addr) (by simp) (some k.brk)
  obtain ⟨h5, f5⟩ := h4.setNext (a := e.addr) (by simp) (some m.addr)
  have hf := ((((f0.trans hC (f1.perm (.refl _) hp)).trans hC f2).trans hC f3).trans hC f4).trans
    hC f5
  have hp' := (List.Perm.swap m
    (⟨k.brk, e.typ, wrap (m.end' + 1), e.end', e.id, []⟩ : Entry) E).cons
    { e with end' := wrap (m.start - 1) }
  rw [heq]
  refine ⟨h5.perm hp', hf.perm (.refl _) hp', fun q => ?_⟩
  simp only [read_setNext, read_setEnd, read_setStart, read_malloc]
  split_ifs <;> rfl

end FreeBSD.KernLockf
