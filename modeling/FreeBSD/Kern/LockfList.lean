import FreeBSD.Kern.Lockf

/-!
# Byte-range locks as a list of entries

`lf_setlock` and `lf_clearlock` as functions on the list of the locks of a
file (`setEntries`, `clearEntries`), by recursion on the list, and what they do
to the modes in which the owners hold the bytes of the file.

Results, for a list whose entries are valid and sorted for each owner, and a
request that does not make `off_t` arithmetic wrap around:
* `setEntries_mode`, `clearEntries_mode`: the modes afterwards.
* `setEntries_sorted`, `clearEntries_sorted`: the list stays sorted.
* `setEntries_waiters`, `clearEntries_waiters`: who still waits, waits for a
  lock that covers and excludes at least as much as before.
-/

namespace FreeBSD.KernLockf

/-! ## Entries -/

/-- A lock of a file: its address, its contents and the requests that are blocked on it. -/
structure Entry where
  addr : ℕ
  typ : LockType
  (start end' : ℤ)
  id : ℕ
  waiters : List ℕ
  deriving DecidableEq, Repr

namespace Entry

/-- The bytes of a lock. -/
def Covers (e : Entry) (x : ℤ) : Prop := e.start ≤ x ∧ (e.end' = -1 ∨ x ≤ e.end')

/-- The ranges that `lf_advlock` accepts. -/
structure Valid (e : Entry) : Prop where
  start_nonneg : 0 ≤ e.start
  start_le : e.start ≤ offMax
  range : e.end' = -1 ∨ e.start ≤ e.end' ∧ e.end' ≤ offMax

/-- `b` comes after `a` if they have one owner. -/
def Before (a b : Entry) : Prop := a.id = b.id → a.end' ≠ -1 ∧ a.end' < b.start

/-- Who is blocked by `a` is blocked by `b`. -/
structure Weaker (a b : Entry) : Prop where
  id : b.id = a.id
  covers : ∀ x, a.Covers x → b.Covers x
  typ : a.typ = .wrlck → b.typ = .wrlck

theorem Weaker.refl (e : Entry) : Weaker e e := ⟨rfl, fun _ h => h, fun h => h⟩

end Entry

open Entry List

/-- The entries are valid, and those of each owner are sorted and disjoint. -/
structure Sorted (l : List Entry) : Prop where
  valid : ∀ e ∈ l, e.Valid
  pairwise : l.Pairwise Before

variable {e a : Entry} {l : List Entry}

theorem Sorted.tail (h : Sorted (e :: l)) : Sorted l :=
  ⟨fun a ha => h.valid a (mem_cons_of_mem e ha), (pairwise_cons.1 h.pairwise).2⟩

theorem sorted_cons : Sorted (e :: l) ↔ e.Valid ∧ (∀ a ∈ l, Before e a) ∧ Sorted l := by
  constructor
  · intro h; exact ⟨h.valid e (by simp), (pairwise_cons.1 h.pairwise).1, h.tail⟩
  · rintro ⟨h1, h2, h3⟩
    refine ⟨fun a ha => ?_, pairwise_cons.2 ⟨h2, h3.pairwise⟩⟩
    rcases mem_cons.1 ha with rfl | ha
    · exact h1
    · exact h3.valid a ha

/-- The owner `o` holds the byte `x` in the mode `t`. -/
def Mode (l : List Entry) (o : ℕ) (x : ℤ) (t : LockType) : Prop :=
  ∃ e ∈ l, e.id = o ∧ e.Covers x ∧ e.typ = t

@[simp] theorem mode_nil (o : ℕ) (x : ℤ) (t : LockType) : ¬ Mode [] o x t := by simp [Mode]

@[simp] theorem mode_cons (e : Entry) (l : List Entry) (o : ℕ) (x : ℤ) (t : LockType) :
    Mode (e :: l) o x t ↔ (e.id = o ∧ e.Covers x ∧ e.typ = t) ∨ Mode l o x t := by
  simp [Mode, or_and_right, exists_or]

/-! ## The algorithms -/

/-- What an entry leaves of itself in front of a lock, and behind it. -/
def Entry.cutFront (e lock : Entry) : Entry :=
  { e with end' := wrap (lock.start - 1), waiters := [] }

def Entry.cutBack (e lock : Entry) : Entry :=
  { e with start := wrap (lock.end' + 1), waiters := [] }

/-- Those blocked on `e` that stay blocked when its owner gets `lock` there. -/
def Entry.staying (e lock : Entry) : List ℕ :=
  if lock.typ = .rdlck ∧ e.typ = .wrlck then [] else e.waiters

/-- The list behind a lock that has been put on it: the entries of its owner that it contains or
    overlaps give way. Returns the requests that were moved to the lock. -/
def trimEntries (lock : Entry) : List Entry → List ℕ × List Entry
  | [] => ([], [])
  | e :: l =>
    if e.id ≠ lock.id then ((trimEntries lock l).1, e :: (trimEntries lock l).2)
    else if noOverlap e.start e.end' lock.start lock.end' then
      if lock.end' ≠ -1 ∧ e.start > lock.end' then ([], e :: l)
      else ((trimEntries lock l).1, e :: (trimEntries lock l).2)
    else
      match overlapCase e.start e.end' lock.start lock.end' with
      | some .contained => (e.staying lock ++ (trimEntries lock l).1, (trimEntries lock l).2)
      | some .endsAfter => ([], e.cutBack lock :: l)
      | _ => ([], e :: l)

/-- The loop of `lf_setlock`: `lock` is put on the list, or merged with an entry; the last part of
    an entry that is cut into three goes to the address `fresh`. -/
def setEntries (lock : Entry) (fresh : ℕ) : List Entry → List Entry
  | [] => [lock]
  | e :: l =>
    if e.id ≠ lock.id then e :: setEntries lock fresh l
    else if noOverlap e.start e.end' lock.start lock.end' then
      if lock.end' ≠ -1 ∧ e.start > lock.end' then lock :: e :: l
      else e :: setEntries lock fresh l
    else
      match overlapCase e.start e.end' lock.start lock.end' with
      | some .equal => { e with typ := lock.typ, waiters := e.staying lock } :: l
      | some .contains =>
        if e.typ = lock.typ then e :: l
        else if e.start = lock.start then lock :: e.cutBack lock :: l
        else if e.end' = lock.end' then e.cutFront lock :: lock :: l
        else e.cutFront lock :: lock :: { e.cutBack lock with addr := fresh } :: l
      | some .contained =>
        { lock with waiters := e.staying lock ++ (trimEntries lock l).1 } :: (trimEntries lock l).2
      | some .startsBefore =>
        e.cutFront lock :: { lock with waiters := (trimEntries lock l).1 } :: (trimEntries lock l).2
      | some .endsAfter => lock :: e.cutBack lock :: l
      | none => e :: l

/-- The loop of `lf_clearlock`. -/
def clearEntries (unlock : Entry) (fresh : ℕ) : List Entry → List Entry
  | [] => []
  | e :: l =>
    if e.id ≠ unlock.id then e :: clearEntries unlock fresh l
    else if noOverlap e.start e.end' unlock.start unlock.end' then
      if unlock.end' ≠ -1 ∧ e.start > unlock.end' then e :: l
      else e :: clearEntries unlock fresh l
    else
      match overlapCase e.start e.end' unlock.start unlock.end' with
      | some .equal => l
      | some .contains =>
        if e.start = unlock.start then e.cutBack unlock :: l
        else if e.end' = unlock.end' then e.cutFront unlock :: l
        else e.cutFront unlock :: { e.cutBack unlock with addr := fresh } :: l
      | some .contained => clearEntries unlock fresh l
      | some .startsBefore => e.cutFront unlock :: clearEntries unlock fresh l
      | some .endsAfter => e.cutBack unlock :: l
      | none => e :: l

/-! ## Overlaps -/

theorem wrap_eq {x : ℤ} (h₁ : -2 ^ 63 ≤ x) (h₂ : x < 2 ^ 63) : wrap x = x := by
  unfold wrap; omega

/-- The cases of `lf_findoverlap`, with what they say of the ranges. -/
theorem overlapCase_cases (s e s' e' : ℤ) :
    (overlapCase s e s' e' = some .equal ∧ s = s' ∧ e = e') ∨
    (overlapCase s e s' e' = some .contains ∧ s ≤ s' ∧ e' ≠ -1 ∧ (e' ≤ e ∨ e = -1) ∧
      ¬ (s = s' ∧ e = e')) ∨
    (overlapCase s e s' e' = some .contained ∧ s' ≤ s ∧ (e' = -1 ∨ e ≠ -1 ∧ e ≤ e')) ∨
    (overlapCase s e s' e' = some .startsBefore ∧ s < s' ∧ (s' ≤ e ∨ e = -1) ∧
      (e' = -1 ∨ e ≠ -1 ∧ e < e')) ∨
    (overlapCase s e s' e' = some .endsAfter ∧ s' < s ∧ e' ≠ -1 ∧ (e' < e ∨ e = -1)) ∨
    (overlapCase s e s' e' = none ∧ (noOverlap s e s' e' ∨ e < s ∧ e ≠ -1 ∨ e' < s' ∧
      e' ≠ -1)) := by
  unfold overlapCase noOverlap
  split_ifs <;> simp only [reduceCtorEq, false_and, true_and, false_or, or_false,
    Option.some.injEq] <;>
    omega

/-- A request whose range does not make the ends of the entries of its owner wrap around. -/
structure Fits (lock : Entry) (l : List Entry) : Prop where
  valid : lock.Valid
  sorted : Sorted l
  noWrap : lock.end' = offMax → ∀ e ∈ l, e.id = lock.id → e.end' = -1 →
    e.typ = lock.typ ∧ e.start ≤ lock.start

theorem Fits.tail {lock e : Entry} (h : Fits lock (e :: l)) : Fits lock l :=
  ⟨h.valid, h.sorted.tail, fun he a ha => h.noWrap he a (mem_cons_of_mem e ha)⟩

/-- What comes after an entry of its owner lies behind it. -/
theorem mode_after (h : ∀ a ∈ l, Before e a) {x : ℤ} {t : LockType} (hm : Mode l e.id x t) :
    e.end' ≠ -1 ∧ e.end' < x := by
  obtain ⟨a, ha, hid, hc, -⟩ := hm
  have hb := h a ha hid.symm
  exact ⟨hb.1, lt_of_lt_of_le hb.2 hc.1⟩

/-- The own entries of `l` begin behind the start of the lock. -/
def StartsAfter (lock : Entry) (l : List Entry) : Prop :=
  ∀ e ∈ l, e.id = lock.id → lock.start < e.start

theorem StartsAfter.tail {lock e : Entry} (h : StartsAfter lock (e :: l)) :
    StartsAfter lock l := fun a ha => h a (mem_cons_of_mem e ha)

/-- Behind an own entry that ends no earlier than the lock starts. -/
theorem startsAfter_of_before {lock e : Entry} (hs : Sorted (e :: l)) (hid : e.id = lock.id)
    (hle : e.end' = -1 ∨ lock.start ≤ e.end') : StartsAfter lock l := by
  obtain ⟨-, hb, -⟩ := sorted_cons.1 hs
  intro a ha haid
  have := hb a ha (hid.trans haid.symm); omega

theorem trimEntries_mode {lock : Entry} (h : Fits lock l) (hs : StartsAfter lock l) (o : ℕ) (x : ℤ)
    (t : LockType) :
    Mode (trimEntries lock l).2 o x t ↔ Mode l o x t ∧ ¬ (o = lock.id ∧ lock.Covers x) := by
  induction l with
  | nil => simp [trimEntries]
  | cons e l ih =>
    have ih' := ih h.tail hs.tail
    obtain ⟨hv, hb, -⟩ := sorted_cons.1 h.sorted
    have hafter := fun (hm : Mode l e.id x t) => mode_after hb hm
    by_cases hid : e.id = lock.id
    · have hlt := hs e (by simp) hid
      have hw := fun h1 => h.noWrap h1 e (by simp) hid
      obtain ⟨hv1, hv2, hv3⟩ := hv
      obtain ⟨hl1, hl2, hl3⟩ := h.valid
      simp only [trimEntries, hid, ne_eq, not_true_eq_false, if_false]
      by_cases hno : noOverlap e.start e.end' lock.start lock.end'
      · have hov := hno
        unfold noOverlap at hov
        rw [if_pos hno, if_pos (by omega)]
        simp only [mode_cons, Covers]
        grind
      · have hov := hno
        unfold noOverlap at hov
        rw [if_neg hno]
        rcases overlapCase_cases e.start e.end' lock.start lock.end' with
          ⟨hc, h1, h2⟩ | ⟨hc, h1, h2, h3, h4⟩ | ⟨hc, h1, h2⟩ | ⟨hc, h1, h2, h3⟩ | ⟨hc, h1, h2, h3⟩ |
            ⟨hc, h1⟩
        · omega
        · omega
        · rw [hc]
          simp only [mode_cons, ih', Covers]
          grind
        · omega
        · rw [hc]
          have hwrap : wrap (lock.end' + 1) = lock.end' + 1 := by
            unfold offMax at *; exact wrap_eq (by omega) (by omega)
          simp only [mode_cons, Covers, Entry.cutBack, hwrap]
          grind
        · unfold noOverlap at h1; omega
    · simp only [trimEntries, hid, ne_eq, not_false_eq_true, if_true, mode_cons, ih']
      grind

/-! ## Modes -/

/-- After `lf_setlock` the owner has the bytes of the lock in its mode, and nothing else changes. -/
theorem setEntries_mode {lock : Entry} (h : Fits lock l) (fresh o : ℕ) (x : ℤ) (t : LockType) :
    Mode (setEntries lock fresh l) o x t ↔
      (o = lock.id ∧ lock.Covers x ∧ t = lock.typ) ∨
        (Mode l o x t ∧ ¬ (o = lock.id ∧ lock.Covers x)) := by
  induction l with
  | nil =>
    simp only [setEntries, mode_cons, mode_nil, false_and, or_false]
    grind
  | cons e l ih =>
    have ih' := ih h.tail
    obtain ⟨hv, hb, -⟩ := sorted_cons.1 h.sorted
    have hafter := fun (hm : Mode l e.id x t) => mode_after hb hm
    by_cases hid : e.id = lock.id
    · have hw := fun h1 => h.noWrap h1 e (by simp) hid
      obtain ⟨hv1, hv2, hv3⟩ := hv
      obtain ⟨hl1, hl2, hl3⟩ := h.valid
      simp only [setEntries, hid, ne_eq, not_true_eq_false, if_false]
      by_cases hno : noOverlap e.start e.end' lock.start lock.end'
      · have hov := hno
        unfold noOverlap at hov
        rw [if_pos hno]
        split_ifs with hgt
        · simp only [mode_cons, Covers]
          grind
        · simp only [mode_cons, ih', Covers]
          grind
      · have hov := hno
        unfold noOverlap at hov
        rw [if_neg hno]
        have hfront : e.start < lock.start → wrap (lock.start - 1) = lock.start - 1 := by
          unfold offMax at *; exact fun _ => wrap_eq (by omega) (by omega)
        have hback : lock.end' ≠ -1 → lock.end' ≠ offMax → wrap (lock.end' + 1) =
          lock.end' + 1 := by
          unfold offMax at *; exact fun _ _ => wrap_eq (by omega) (by omega)
        rcases overlapCase_cases e.start e.end' lock.start lock.end' with
          ⟨hc, h1, h2⟩ | ⟨hc, h1, h2, h3, h4⟩ | ⟨hc, h1, h2⟩ | ⟨hc, h1, h2, h3⟩ | ⟨hc, h1, h2, h3⟩ |
            ⟨hc, h1⟩
        · rw [hc]
          simp only [mode_cons, Covers]
          grind
        · rw [hc]
          dsimp only
          split_ifs with h5 h6 h7
          · simp only [mode_cons, Covers]
            grind
          · simp only [mode_cons, Covers, Entry.cutBack, hback h2 (by grind)]
            grind
          · simp only [mode_cons, Covers, Entry.cutFront, hfront (by omega)]
            grind
          · simp only [mode_cons, Covers, Entry.cutFront, Entry.cutBack, hfront (by omega),
              hback h2 (by grind)]
            grind
        · rw [hc]
          have hs : StartsAfter lock l := startsAfter_of_before h.sorted hid (by omega)
          simp only [mode_cons, trimEntries_mode h.tail hs, Covers]
          grind
        · rw [hc]
          have hs : StartsAfter lock l := startsAfter_of_before h.sorted hid (by omega)
          simp only [mode_cons, trimEntries_mode h.tail hs, Covers, Entry.cutFront,
            hfront (by omega)]
          grind
        · rw [hc]
          simp only [mode_cons, Covers, Entry.cutBack, hback h2 (by grind)]
          grind
        · unfold noOverlap at h1; omega
    · simp only [setEntries, hid, ne_eq, not_false_eq_true, if_true, mode_cons, ih']
      grind

theorem cutBack_valid (lock : Entry) (hv : e.Valid) (h₀ : 0 ≤ lock.end') (h₁ : lock.end' < offMax)
    (h₂ : e.end' = -1 ∨ lock.end' < e.end') :
    (e.cutBack lock).Valid ∧ (e.cutBack lock).start = lock.end' + 1 := by
  have hw : (e.cutBack lock).start = lock.end' + 1 := by
    unfold offMax at h₁; exact wrap_eq (by omega) (by omega)
  refine ⟨⟨by omega, by omega, ?_⟩, hw⟩
  have := hv.range
  show e.end' = -1 ∨ (e.cutBack lock).start ≤ e.end' ∧ e.end' ≤ offMax
  omega

theorem cutFront_valid (lock : Entry) (hv : e.Valid) (h₁ : e.start < lock.start)
    (h₂ : lock.start ≤ offMax) :
    (e.cutFront lock).Valid ∧ (e.cutFront lock).end' = lock.start - 1 := by
  have hnn := hv.start_nonneg
  have hw : (e.cutFront lock).end' = lock.start - 1 := by
    unfold offMax at h₂; exact wrap_eq (by omega) (by omega)
  refine ⟨⟨hnn, hv.start_le, .inr ⟨?_, by omega⟩⟩, hw⟩
  show e.start ≤ (e.cutFront lock).end'
  omega

/-- The condition of `Fits` for an unlock request. -/
structure FitsClear (unlock : Entry) (l : List Entry) : Prop where
  valid : unlock.Valid
  sorted : Sorted l
  noWrap : unlock.end' = offMax → ∀ e ∈ l, e.id = unlock.id → e.end' ≠ -1

theorem FitsClear.tail {unlock e : Entry} (h : FitsClear unlock (e :: l)) : FitsClear unlock l :=
  ⟨h.valid, h.sorted.tail, fun he a ha => h.noWrap he a (mem_cons_of_mem e ha)⟩

/-- After `lf_clearlock` the owner does not have the bytes any more, and nothing else changes. -/
theorem clearEntries_mode {unlock : Entry} (h : FitsClear unlock l) (fresh o : ℕ) (x : ℤ)
    (t : LockType) : Mode (clearEntries unlock fresh l) o x t ↔
      Mode l o x t ∧ ¬ (o = unlock.id ∧ unlock.Covers x) := by
  induction l with
  | nil => simp [clearEntries]
  | cons e l ih =>
    have ih' := ih h.tail
    obtain ⟨hv, hb, -⟩ := sorted_cons.1 h.sorted
    have hafter := fun (hm : Mode l e.id x t) => mode_after hb hm
    by_cases hid : e.id = unlock.id
    · have hw := fun h1 => h.noWrap h1 e (by simp) hid
      obtain ⟨hv1, hv2, hv3⟩ := hv
      obtain ⟨hl1, hl2, hl3⟩ := h.valid
      simp only [clearEntries, hid, ne_eq, not_true_eq_false, if_false]
      by_cases hno : noOverlap e.start e.end' unlock.start unlock.end'
      · have hov := hno
        unfold noOverlap at hov
        rw [if_pos hno]
        split_ifs with hgt
        · simp only [mode_cons, Covers]
          grind
        · simp only [mode_cons, ih', Covers]
          grind
      · have hov := hno
        unfold noOverlap at hov
        rw [if_neg hno]
        have hfront : e.start < unlock.start → wrap (unlock.start - 1) = unlock.start - 1 := by
          unfold offMax at *; exact fun _ => wrap_eq (by omega) (by omega)
        have hback : unlock.end' ≠ -1 → unlock.end' ≠ offMax →
            wrap (unlock.end' + 1) = unlock.end' + 1 := by
          unfold offMax at *; exact fun _ _ => wrap_eq (by omega) (by omega)
        rcases overlapCase_cases e.start e.end' unlock.start unlock.end' with
          ⟨hc, h1, h2⟩ | ⟨hc, h1, h2, h3, h4⟩ | ⟨hc, h1, h2⟩ | ⟨hc, h1, h2, h3⟩ | ⟨hc, h1, h2, h3⟩ |
            ⟨hc, h1⟩
        · rw [hc]
          simp only [mode_cons, Covers]
          grind
        · rw [hc]
          dsimp only
          split_ifs with h6 h7
          · simp only [mode_cons, Covers, Entry.cutBack, hback h2 (by grind)]
            grind
          · simp only [mode_cons, Covers, Entry.cutFront, hfront (by omega)]
            grind
          · simp only [mode_cons, Covers, Entry.cutFront, Entry.cutBack, hfront (by omega),
              hback h2 (by grind)]
            grind
        · rw [hc]
          simp only [mode_cons, ih', Covers]
          grind
        · rw [hc]
          simp only [mode_cons, ih', Covers, Entry.cutFront, hfront (by omega)]
          grind
        · rw [hc]
          simp only [mode_cons, Covers, Entry.cutBack, hback h2 (by grind)]
          grind
        · unfold noOverlap at h1; omega
    · simp only [clearEntries, hid, ne_eq, not_false_eq_true, if_true, mode_cons, ih']
      grind

/-! ## Order -/

/-- `a` belongs to the owner of an entry of `l`, and begins no earlier. -/
def ComesFrom (l : List Entry) (a : Entry) : Prop := ∃ e ∈ l, a.id = e.id ∧ e.start ≤ a.start

theorem ComesFrom.cons (h : ComesFrom l a) (e : Entry) : ComesFrom (e :: l) a := by
  obtain ⟨b, hb, h'⟩ := h
  exact ⟨b, mem_cons_of_mem e hb, h'⟩

theorem comesFrom_head (hid : a.id = e.id) (hs : e.start ≤ a.start) : ComesFrom (e :: l) a :=
  ⟨e, by simp, hid, hs⟩

theorem comesFrom_of_mem (h : a ∈ l) : ComesFrom l a :=
  ⟨a, h, rfl, le_rfl⟩

theorem ComesFrom.before {a b : Entry} (h : ComesFrom l a) (hb : ∀ e ∈ l, Before b e) :
    Before b a := by
  obtain ⟨e, he, hid, hs⟩ := h
  intro hba
  have := hb e he (hba.trans hid)
  exact ⟨this.1, lt_of_lt_of_le this.2 hs⟩

/-- The lock lies before the entries of its owner in `l`. -/
def LiesBefore (lock : Entry) (l : List Entry) : Prop := ∀ a ∈ l, Before lock a

theorem trimEntries_sorted {lock : Entry} (h : Fits lock l) (hs : StartsAfter lock l) :
    Sorted (trimEntries lock l).2 ∧ LiesBefore lock (trimEntries lock l).2 ∧
      ∀ a ∈ (trimEntries lock l).2, ComesFrom l a := by
  induction l with
  | nil => exact ⟨⟨by simp [trimEntries], by simp [trimEntries]⟩, by simp [LiesBefore, trimEntries],
      by simp [trimEntries]⟩
  | cons e l ih =>
    obtain ⟨ih1, ih2, ih3⟩ := ih h.tail hs.tail
    obtain ⟨hv, hb, hsl⟩ := sorted_cons.1 h.sorted
    have hall : ∀ a ∈ e :: l, ComesFrom (e :: l) a := fun a => comesFrom_of_mem
    by_cases hid : e.id = lock.id
    · have hlt := hs e (by simp) hid
      have hw := fun h1 => h.noWrap h1 e (by simp) hid
      obtain ⟨hv1, hv2, hv3⟩ := id hv
      obtain ⟨hl1, hl2, hl3⟩ := h.valid
      simp only [trimEntries, hid, ne_eq, not_true_eq_false, if_false]
      by_cases hno : noOverlap e.start e.end' lock.start lock.end'
      · have hov := hno
        unfold noOverlap at hov
        have hbehind : lock.end' ≠ -1 ∧ e.start > lock.end' := by omega
        rw [if_pos hno, if_pos hbehind]
        refine ⟨h.sorted, fun a ha haid => ?_, hall⟩
        rcases mem_cons.1 ha with rfl | ha
        · omega
        · have := hb a ha (hid.trans haid); omega
      · have hov := hno
        unfold noOverlap at hov
        rw [if_neg hno]
        rcases overlapCase_cases e.start e.end' lock.start lock.end' with
          ⟨hc, h1, h2⟩ | ⟨hc, h1, h2, h3, h4⟩ | ⟨hc, h1, h2⟩ | ⟨hc, h1, h2, h3⟩ | ⟨hc, h1, h2, h3⟩ |
            ⟨hc, h1⟩
        · omega
        · omega
        · rw [hc]; exact ⟨ih1, ih2, fun a ha => (ih3 a ha).cons e⟩
        · omega
        · rw [hc]
          obtain ⟨hbv, hbs⟩ := cutBack_valid lock hv (by omega) (by grind) (by omega)
          simp only [sorted_cons, forall_mem_cons]
          refine ⟨⟨hbv, hb, hsl⟩, ?_, comesFrom_head rfl (by omega),
            fun a ha => (comesFrom_of_mem ha).cons e⟩
          intro a ha haid
          rcases mem_cons.1 ha with rfl | ha
          · exact ⟨h2, by omega⟩
          · have := hb a ha (hid.trans haid); omega
        · unfold noOverlap at h1; omega
    · simp only [trimEntries, hid, ne_eq, not_false_eq_true, if_true]
      refine ⟨sorted_cons.2 ⟨hv, fun a ha => (ih3 a ha).before hb, ih1⟩, fun a ha => ?_,
        fun a ha => ?_⟩
      · rcases mem_cons.1 ha with rfl | ha
        · exact fun h => absurd h.symm hid
        · exact ih2 a ha
      · rcases mem_cons.1 ha with rfl | ha
        · exact comesFrom_head rfl le_rfl
        · exact (ih3 a ha).cons e

/-- `a` is in the place of the lock, or comes from an entry. -/
def SetFrom (lock : Entry) (l : List Entry) (a : Entry) : Prop :=
  (a.id = lock.id ∧ lock.start ≤ a.start) ∨ ComesFrom l a

theorem setEntries_sorted {lock : Entry} (h : Fits lock l) (fresh : ℕ) :
    Sorted (setEntries lock fresh l) ∧ ∀ a ∈ setEntries lock fresh l, SetFrom lock l a := by
  induction l with
  | nil =>
    refine ⟨sorted_cons.2 ⟨h.valid, by simp, h.sorted⟩, fun a ha => .inl ?_⟩
    simp only [setEntries, mem_singleton] at ha
    rw [ha]; exact ⟨rfl, le_rfl⟩
  | cons e l ih =>
    obtain ⟨ih1, ih2⟩ := ih h.tail
    obtain ⟨hv, hb, hsl⟩ := sorted_cons.1 h.sorted
    have hskip : (e.id = lock.id → e.end' ≠ -1 ∧ e.end' < lock.start) →
        Sorted (e :: setEntries lock fresh l) ∧
          ∀ a ∈ e :: setEntries lock fresh l, SetFrom lock (e :: l) a := by
      intro hbefore
      refine ⟨sorted_cons.2 ⟨hv, fun a ha => ?_, ih1⟩, fun a ha => ?_⟩
      · rcases ih2 a ha with ⟨hid, hst⟩ | hfrom
        · intro hea
          have := hbefore (hea.trans hid); omega
        · exact hfrom.before hb
      · rcases mem_cons.1 ha with rfl | ha
        · exact .inr (comesFrom_head rfl le_rfl)
        · exact (ih2 a ha).imp id fun h => h.cons e
    by_cases hid : e.id ≠ lock.id
    · rw [setEntries, if_pos hid]; exact hskip fun h => absurd h hid
    rw [setEntries, if_neg hid]
    replace hid : e.id = lock.id := not_not.1 hid
    have hw := fun h1 => h.noWrap h1 e (by simp) hid
    obtain ⟨hv1, hv2, hv3⟩ := id hv
    obtain ⟨hl1, hl2, hl3⟩ := h.valid
    have hown : ∀ a ∈ l, lock.id = a.id → e.end' ≠ -1 ∧ e.end' < a.start :=
      fun a ha haid => hb a ha (hid.trans haid)
    have hhead : ∀ {b : Entry}, b.id = e.id → e.start ≤ b.start → SetFrom lock (e :: l) b :=
      fun h1 h2 => .inr (comesFrom_head h1 h2)
    have hlock : ∀ {ws : List ℕ}, SetFrom lock (e :: l) { lock with waiters := ws } :=
      .inl ⟨rfl, le_rfl⟩
    have htail : ∀ a ∈ l, SetFrom lock (e :: l) a := fun a ha => .inr ((comesFrom_of_mem ha).cons e)
    by_cases hno : noOverlap e.start e.end' lock.start lock.end'
    · have hov := hno
      unfold noOverlap at hov
      rw [if_pos hno]
      split_ifs with hgt
      · simp only [sorted_cons, forall_mem_cons]
        refine ⟨⟨h.valid, ⟨fun _ => hgt, fun a ha haid => ?_⟩, hv, hb, hsl⟩, hlock,
          hhead rfl le_rfl, htail⟩
        have := hown a ha haid; omega
      · exact hskip fun _ => by omega
    have hov := hno
    unfold noOverlap at hov
    rw [if_neg hno]
    rcases overlapCase_cases e.start e.end' lock.start lock.end' with
      ⟨hc, h1, h2⟩ | ⟨hc, h1, h2, h3, h4⟩ | ⟨hc, h1, h2⟩ | ⟨hc, h1, h2, h3⟩ | ⟨hc, h1, h2, h3⟩ |
        ⟨hc, h1⟩
    · rw [hc]
      simp only [sorted_cons, forall_mem_cons]
      exact ⟨⟨⟨hv1, hv2, hv3⟩, hb, hsl⟩, hhead rfl le_rfl, htail⟩
    · rw [hc]
      dsimp only
      by_cases h5 : e.typ = lock.typ
      · rw [if_pos h5]; exact ⟨h.sorted, fun a ha => .inr (comesFrom_of_mem ha)⟩
      rw [if_neg h5]
      have hlt : lock.end' ≠ e.end' → lock.end' < offMax := by grind
      split_ifs with h6 h7
      · obtain ⟨hbv, hbs⟩ := cutBack_valid lock hv (by omega) (hlt (by omega)) (by omega)
        simp only [sorted_cons, forall_mem_cons]
        refine ⟨⟨h.valid, ⟨fun _ => ⟨h2, by omega⟩, fun a ha haid => ?_⟩, hbv, hb, hsl⟩, hlock,
          hhead rfl (by omega), htail⟩
        have := hown a ha haid; omega
      · obtain ⟨hfv, hfe⟩ := cutFront_valid lock hv (by omega) hl2
        simp only [sorted_cons, forall_mem_cons]
        refine ⟨⟨hfv, ⟨fun _ => by omega, fun a ha haid => ?_⟩, h.valid, fun a ha haid => ?_, hsl⟩,
          hhead rfl le_rfl, hlock, htail⟩
        · have := hown a ha (hid.symm.trans haid); omega
        · have := hown a ha haid; omega
      · obtain ⟨hfv, hfe⟩ := cutFront_valid lock hv (by omega) hl2
        obtain ⟨hbv, hbs⟩ := cutBack_valid lock hv (by omega) (hlt (by omega)) (by omega)
        have hbv' : Entry.Valid { e.cutBack lock with addr := fresh } :=
          ⟨hbv.start_nonneg, hbv.start_le, hbv.range⟩
        simp only [sorted_cons, forall_mem_cons]
        refine ⟨⟨hfv, ⟨fun _ => by omega, fun _ => ?_, fun a ha haid => ?_⟩, h.valid,
          ⟨fun _ => ⟨h2, ?_⟩, fun a ha haid => ?_⟩, hbv', hb, hsl⟩, hhead rfl le_rfl, hlock,
          hhead rfl ?_, htail⟩
        · show (e.cutFront lock).end' ≠ -1 ∧ (e.cutFront lock).end' < (e.cutBack lock).start; omega
        · have := hown a ha (hid.symm.trans haid); omega
        · show lock.end' < (e.cutBack lock).start; omega
        · have := hown a ha haid; omega
        · show e.start ≤ (e.cutBack lock).start; omega
    · rw [hc]
      obtain ⟨ht1, ht2, ht3⟩ := trimEntries_sorted h.tail
        (startsAfter_of_before h.sorted hid (by omega))
      simp only [sorted_cons, forall_mem_cons]
      exact ⟨⟨⟨hl1, hl2, hl3⟩, ht2, ht1⟩, hlock, fun a ha => .inr ((ht3 a ha).cons e)⟩
    · rw [hc]
      obtain ⟨ht1, ht2, ht3⟩ := trimEntries_sorted h.tail
        (startsAfter_of_before h.sorted hid (by omega))
      obtain ⟨hfv, hfe⟩ := cutFront_valid lock hv h1 hl2
      simp only [sorted_cons, forall_mem_cons]
      refine ⟨⟨hfv, ⟨fun _ => ⟨by omega, ?_⟩, fun a ha haid => ?_⟩, ⟨hl1, hl2, hl3⟩, ht2, ht1⟩,
        hhead rfl le_rfl, hlock, fun a ha => .inr ((ht3 a ha).cons e)⟩
      · show (e.cutFront lock).end' < lock.start; omega
      · have := ht2 a ha (hid.symm.trans haid); omega
    · rw [hc]
      obtain ⟨hbv, hbs⟩ := cutBack_valid lock hv (by omega) (by grind) (by omega)
      simp only [sorted_cons, forall_mem_cons]
      refine ⟨⟨h.valid, ⟨fun _ => ⟨h2, by omega⟩, fun a ha haid => ?_⟩, hbv, hb, hsl⟩, hlock,
        hhead rfl (by omega), htail⟩
      have := hown a ha haid; omega
    · unfold noOverlap at h1; omega

theorem clearEntries_sorted {unlock : Entry} (h : FitsClear unlock l) (fresh : ℕ) :
    Sorted (clearEntries unlock fresh l) ∧ ∀ a ∈ clearEntries unlock fresh l, ComesFrom l a := by
  induction l with
  | nil => exact ⟨h.sorted, by simp [clearEntries]⟩
  | cons e l ih =>
    obtain ⟨ih1, ih2⟩ := ih h.tail
    obtain ⟨hv, hb, hsl⟩ := sorted_cons.1 h.sorted
    have hcons : ∀ {b : Entry}, b.Valid → (∀ a, Before e a → Before b a) → b.id = e.id →
        e.start ≤ b.start → Sorted (b :: clearEntries unlock fresh l) ∧
          ∀ a ∈ b :: clearEntries unlock fresh l, ComesFrom (e :: l) a := by
      intro b hbv hba hid hst
      refine ⟨sorted_cons.2 ⟨hbv, fun a ha => hba a ((ih2 a ha).before hb), ih1⟩, ?_⟩
      rw [forall_mem_cons]; exact ⟨comesFrom_head hid hst, fun a ha => (ih2 a ha).cons e⟩
    by_cases hid : e.id ≠ unlock.id
    · rw [clearEntries, if_pos hid]; exact hcons hv (fun _ h => h) rfl le_rfl
    rw [clearEntries, if_neg hid]
    replace hid : e.id = unlock.id := not_not.1 hid
    have hw := fun h1 => h.noWrap h1 e (by simp) hid
    obtain ⟨hv1, hv2, hv3⟩ := id hv
    obtain ⟨hl1, hl2, hl3⟩ := h.valid
    have htail : ∀ a ∈ l, ComesFrom (e :: l) a := fun a ha => (comesFrom_of_mem ha).cons e
    by_cases hno : noOverlap e.start e.end' unlock.start unlock.end'
    · rw [if_pos hno]
      split_ifs with hgt
      · exact ⟨h.sorted, fun a ha => comesFrom_of_mem ha⟩
      · exact hcons hv (fun _ h => h) rfl le_rfl
    have hov := hno
    unfold noOverlap at hov
    rw [if_neg hno]
    rcases overlapCase_cases e.start e.end' unlock.start unlock.end' with
      ⟨hc, h1, h2⟩ | ⟨hc, h1, h2, h3, h4⟩ | ⟨hc, h1, h2⟩ | ⟨hc, h1, h2, h3⟩ | ⟨hc, h1, h2, h3⟩ |
        ⟨hc, h1⟩
    · rw [hc]; exact ⟨hsl, htail⟩
    · rw [hc]
      dsimp only
      have hlt : unlock.end' ≠ e.end' → unlock.end' < offMax := by grind
      split_ifs with h6 h7
      · obtain ⟨hbv, hbs⟩ := cutBack_valid unlock hv (by omega) (hlt (by omega)) (by omega)
        simp only [sorted_cons, forall_mem_cons]
        exact ⟨⟨hbv, hb, hsl⟩, comesFrom_head rfl (by omega), htail⟩
      · obtain ⟨hfv, hfe⟩ := cutFront_valid unlock hv (by omega) hl2
        simp only [sorted_cons, forall_mem_cons]
        refine ⟨⟨hfv, fun a ha haid => ?_, hsl⟩, comesFrom_head rfl le_rfl, htail⟩
        have := hb a ha haid; omega
      · obtain ⟨hfv, hfe⟩ := cutFront_valid unlock hv (by omega) hl2
        obtain ⟨hbv, hbs⟩ := cutBack_valid unlock hv (by omega) (hlt (by omega)) (by omega)
        have hbv' : Entry.Valid { e.cutBack unlock with addr := fresh } :=
          ⟨hbv.start_nonneg, hbv.start_le, hbv.range⟩
        simp only [sorted_cons, forall_mem_cons]
        refine ⟨⟨hfv, ⟨fun _ => ?_, fun a ha haid => ?_⟩, hbv', hb, hsl⟩, comesFrom_head rfl le_rfl,
          comesFrom_head rfl ?_, htail⟩
        · show (e.cutFront unlock).end' ≠ -1 ∧ (e.cutFront unlock).end' < (e.cutBack unlock).start
          omega
        · have := hb a ha haid; omega
        · show e.start ≤ (e.cutBack unlock).start; omega
    · rw [hc]; exact ⟨ih1, fun a ha => (ih2 a ha).cons e⟩
    · rw [hc]
      obtain ⟨hfv, hfe⟩ := cutFront_valid unlock hv h1 hl2
      refine hcons hfv (fun a ha haid => ?_) rfl le_rfl
      have := ha haid; omega
    · rw [hc]
      obtain ⟨hbv, hbs⟩ := cutBack_valid unlock hv (by omega) (by grind) (by omega)
      simp only [sorted_cons, forall_mem_cons]
      exact ⟨⟨hbv, hb, hsl⟩, comesFrom_head rfl (by omega), htail⟩
    · unfold noOverlap at h1; omega

/-! ## Waiters -/

/-- All requests that are blocked on a lock of the list. -/
def waitersOf (l : List Entry) : List ℕ := l.flatMap Entry.waiters

@[simp] theorem waitersOf_nil : waitersOf [] = [] := rfl

@[simp] theorem waitersOf_cons (e : Entry) (l : List Entry) :
    waitersOf (e :: l) = e.waiters ++ waitersOf l := rfl

theorem mem_staying {e lock : Entry} {w : ℕ} (h : w ∈ e.staying lock) :
    w ∈ e.waiters ∧ ¬ (lock.typ = .rdlck ∧ e.typ = .wrlck) := by
  unfold Entry.staying at h
  split_ifs at h with hd
  · simp at h
  · exact ⟨h, hd⟩

theorem trimEntries_waiters {lock : Entry} (ht : lock.typ ≠ .unlck) (l : List Entry) :
    (∀ w ∈ (trimEntries lock l).1, ∃ e ∈ l, w ∈ e.waiters ∧ Weaker e lock) ∧
      ∀ a ∈ (trimEntries lock l).2, ∀ w ∈ a.waiters, a ∈ l := by
  induction l with
  | nil => simp [trimEntries]
  | cons e l ih =>
    obtain ⟨ih1, ih2⟩ := ih
    have hskip : (∀ w ∈ (trimEntries lock l).1, ∃ e' ∈ e :: l, w ∈ e'.waiters ∧ Weaker e' lock) ∧
        ∀ a ∈ e :: (trimEntries lock l).2, ∀ w ∈ a.waiters, a ∈ e :: l := by
      refine ⟨fun w hw => ?_, ?_⟩
      · obtain ⟨e', he', h⟩ := ih1 w hw
        exact ⟨e', mem_cons_of_mem e he', h⟩
      · rw [forall_mem_cons]
        exact ⟨fun _ _ => by simp, fun a ha w hw => mem_cons_of_mem e (ih2 a ha w hw)⟩
    have hrest : ∀ a ∈ l, ∀ w ∈ a.waiters, a ∈ e :: l := fun a ha _ _ => mem_cons_of_mem e ha
    have hkeep : ∀ a ∈ e :: l, ∀ w ∈ a.waiters, a ∈ e :: l := fun a ha _ _ => ha
    rw [trimEntries]
    split_ifs with hid hno hgt
    · exact hskip
    · exact ⟨by simp, hkeep⟩
    · exact hskip
    rcases overlapCase_cases e.start e.end' lock.start lock.end' with
      ⟨hc, -⟩ | ⟨hc, -⟩ | ⟨hc, h1, h2⟩ | ⟨hc, -⟩ | ⟨hc, -⟩ | ⟨hc, -⟩ <;> rw [hc]
    · exact ⟨by simp, hkeep⟩
    · exact ⟨by simp, hkeep⟩
    · refine ⟨fun w hw => ?_, fun a ha w hw => mem_cons_of_mem e (ih2 a ha w hw)⟩
      rcases mem_append.1 hw with hw | hw
      · obtain ⟨hw, hd⟩ := mem_staying hw
        refine ⟨e, by simp, hw, (not_not.1 hid).symm, fun x hx => ?_, fun he => ?_⟩
        · unfold Entry.Covers at hx ⊢; omega
        · cases hl : lock.typ <;> simp_all
      · exact hskip.1 w hw
    · exact ⟨by simp, hkeep⟩
    · refine ⟨by simp, ?_⟩
      rw [forall_mem_cons]; exact ⟨by simp [Entry.cutBack], hrest⟩
    · exact ⟨by simp, hkeep⟩

/-- Who waits after `lf_setlock` waited before, for a lock that is not stronger. -/
theorem setEntries_waiters {lock : Entry} (ht : lock.typ ≠ .unlck) (hws : lock.waiters = [])
    (fresh : ℕ) (l : List Entry) : ∀ a ∈ setEntries lock fresh l, ∀ w ∈ a.waiters,
      ∃ e ∈ l, w ∈ e.waiters ∧ Weaker e a := by
  induction l with
  | nil => simp [setEntries, hws]
  | cons e l ih =>
    have hskip : ∀ a ∈ e :: setEntries lock fresh l, ∀ w ∈ a.waiters,
        ∃ e' ∈ e :: l, w ∈ e'.waiters ∧ Weaker e' a := by
      rw [forall_mem_cons]
      refine ⟨fun w hw => ⟨e, by simp, hw, Weaker.refl e⟩, fun a ha w hw => ?_⟩
      obtain ⟨e', he', h⟩ := ih a ha w hw
      exact ⟨e', mem_cons_of_mem e he', h⟩
    have hkeep : ∀ a ∈ e :: l, ∀ w ∈ a.waiters, ∃ e' ∈ e :: l, w ∈ e'.waiters ∧ Weaker e' a :=
      fun a ha w hw => ⟨a, ha, hw, Weaker.refl a⟩
    have htail := fun a ha => hkeep a (mem_cons_of_mem e ha)
    have hlock : ∀ w ∈ lock.waiters, ∃ e' ∈ e :: l, w ∈ e'.waiters ∧ Weaker e' lock := by
      simp [hws]
    obtain ⟨ht1, ht2⟩ := trimEntries_waiters ht l
    have htrim : ∀ a ∈ (trimEntries lock l).2, ∀ w ∈ a.waiters,
        ∃ e' ∈ e :: l, w ∈ e'.waiters ∧ Weaker e' a :=
      fun a ha w hw => ⟨a, mem_cons_of_mem e (ht2 a ha w hw), hw, Weaker.refl a⟩
    have hmoved : ∀ {ws : List ℕ}, ∀ w ∈ (trimEntries lock l).1,
        ∃ e' ∈ e :: l, w ∈ e'.waiters ∧ Weaker e' { lock with waiters := ws } := by
      intro ws w hw
      obtain ⟨e', he', hwe, hweak⟩ := ht1 w hw
      exact ⟨e', mem_cons_of_mem e he', hwe, hweak.id, hweak.covers, hweak.typ⟩
    by_cases hid : e.id ≠ lock.id
    · rw [setEntries, if_pos hid]; exact hskip
    rw [setEntries, if_neg hid]
    by_cases hno : noOverlap e.start e.end' lock.start lock.end'
    · rw [if_pos hno]
      split_ifs
      · exact forall_mem_cons.2 ⟨hlock, hkeep⟩
      · exact hskip
    rw [if_neg hno]
    have hty : ¬ (lock.typ = .rdlck ∧ e.typ = .wrlck) → e.typ = .wrlck → lock.typ = .wrlck := by
      intro hd he
      cases hl : lock.typ <;> simp_all
    rcases overlapCase_cases e.start e.end' lock.start lock.end' with
      ⟨hc, -⟩ | ⟨hc, -⟩ | ⟨hc, h1, h2⟩ | ⟨hc, -⟩ | ⟨hc, -⟩ | ⟨hc, -⟩ <;> rw [hc]
    · refine forall_mem_cons.2 ⟨fun w hw => ?_, htail⟩
      obtain ⟨hwe, hd⟩ := mem_staying hw
      exact ⟨e, by simp, hwe, rfl, fun _ h => h, hty hd⟩
    · dsimp only
      split_ifs
      · exact hkeep
      · exact forall_mem_cons.2 ⟨hlock, forall_mem_cons.2
          ⟨by simp [Entry.cutBack], htail⟩⟩
      · exact forall_mem_cons.2 ⟨by simp [Entry.cutFront], forall_mem_cons.2
          ⟨hlock, htail⟩⟩
      · exact forall_mem_cons.2 ⟨by simp [Entry.cutFront],
          forall_mem_cons.2 ⟨hlock, forall_mem_cons.2 ⟨by simp [Entry.cutBack], htail⟩⟩⟩
    · refine forall_mem_cons.2 ⟨fun w hw => ?_, htrim⟩
      rcases mem_append.1 hw with hw | hw
      · obtain ⟨hwe, hd⟩ := mem_staying hw
        refine ⟨e, by simp, hwe, (not_not.1 hid).symm, fun x hx => ?_, hty hd⟩
        unfold Entry.Covers at hx ⊢
        dsimp only; omega
      · exact hmoved w hw
    · exact forall_mem_cons.2 ⟨by simp [Entry.cutFront], forall_mem_cons.2
        ⟨fun w hw => hmoved w hw, htrim⟩⟩
    · exact forall_mem_cons.2 ⟨hlock, forall_mem_cons.2 ⟨by simp [Entry.cutBack], htail⟩⟩
    · exact hkeep

/-- Who waits after `lf_clearlock` waits for a lock that was left alone. -/
theorem clearEntries_waiters {unlock : Entry} (fresh : ℕ) (l : List Entry) :
    ∀ a ∈ clearEntries unlock fresh l, ∀ w ∈ a.waiters, a ∈ l := by
  induction l with
  | nil => simp [clearEntries]
  | cons e l ih =>
    have hskip : ∀ a ∈ e :: clearEntries unlock fresh l, ∀ w ∈ a.waiters, a ∈ e :: l :=
      forall_mem_cons.2 ⟨fun _ _ => by simp,
        fun a ha w hw => mem_cons_of_mem e (ih a ha w hw)⟩
    have hkeep : ∀ a ∈ e :: l, ∀ w ∈ a.waiters, a ∈ e :: l := fun a ha _ _ => ha
    have htail := fun a ha => hkeep a (mem_cons_of_mem e ha)
    have hrest : ∀ a ∈ clearEntries unlock fresh l, ∀ w ∈ a.waiters, a ∈ e :: l :=
      fun a ha w hw => mem_cons_of_mem e (ih a ha w hw)
    by_cases hid : e.id ≠ unlock.id
    · rw [clearEntries, if_pos hid]; exact hskip
    rw [clearEntries, if_neg hid]
    by_cases hno : noOverlap e.start e.end' unlock.start unlock.end'
    · rw [if_pos hno]
      split_ifs
      · exact hkeep
      · exact hskip
    rw [if_neg hno]
    rcases overlapCase_cases e.start e.end' unlock.start unlock.end' with
      ⟨hc, -⟩ | ⟨hc, -⟩ | ⟨hc, -⟩ | ⟨hc, -⟩ | ⟨hc, -⟩ | ⟨hc, -⟩ <;> rw [hc]
    · exact htail
    · dsimp only
      split_ifs
      · exact forall_mem_cons.2 ⟨by simp [Entry.cutBack], htail⟩
      · exact forall_mem_cons.2 ⟨by simp [Entry.cutFront], htail⟩
      · exact forall_mem_cons.2 ⟨by simp [Entry.cutFront],
          forall_mem_cons.2 ⟨by simp [Entry.cutBack], htail⟩⟩
    · exact hrest
    · exact forall_mem_cons.2 ⟨by simp [Entry.cutFront], hrest⟩
    · exact forall_mem_cons.2 ⟨by simp [Entry.cutBack], htail⟩
    · exact hkeep

end FreeBSD.KernLockf
