import FreeBSD.Kern.LockfRepr

/-!
# The loops on the list of a file

The loops of `lf_findoverlap`, `lf_getblock`, `lf_setlock` and `lf_clearlock`
run along a list in memory that represents a list of entries (`Repr`).

Results:
* `setlockLoop_refines`, `clearlockLoop_refines`: the loops of `lf_setlock` and
  `lf_clearlock` return, and compute `setEntries` and `clearEntries`.
-/

namespace FreeBSD.KernLockf

open FreeBSD.Lib List

/-- The locks `l` are on the list of the file `f`, in this order; the locks `x` are not. -/
structure Repr (k : Kern) (f : ℕ) (l x : List Entry) : Prop where
  chain : Chain Link.next k.read (.head f) (l.map Entry.addr)
  cells : Cells k f (l ++ x)

/-- The address that the loops have for a list: that of its first entry. -/
def front (l : List Entry) : Option ℕ := (l.map Entry.addr).head?

@[simp] theorem front_nil : front [] = none := rfl

@[simp] theorem front_cons (e : Entry) (l : List Entry) : front (e :: l) = some e.addr := rfl

/-- The link behind the entries of a list. -/
def behind (f : ℕ) (l : List Entry) : Link := linkAfter Link.next (.head f) (l.map Entry.addr)

@[simp] theorem behind_concat (f : ℕ) (l : List Entry) (e : Entry) :
    behind f (l ++ [e]) = .next e.addr := by
  simp [behind]

variable {f n : ℕ} {pre l x suf E : List Entry} {k : Kern} {e : Entry} {c : Ovcase}

theorem behind_mem (h : pre.map Entry.addr ⊆ l.map Entry.addr) : behind f pre ∈ links f l :=
  links_mono h (linkAfter_mem (Link.head f) (pre.map Entry.addr) : _ ∈ Link.head f :: _)

/-- The entries `mid` of a list are replaced with the entries `new`. -/
theorem Repr.replace {k k' : Kern} {pre' suf' x x' : List Entry} (pre mid suf new : List Entry)
    (hR : Repr k f (pre ++ (mid ++ suf)) x)
      (hC : Cells k' f (pre' ++ (new ++ suf') ++ x'))
    (hpre : pre'.map Entry.addr = pre.map Entry.addr)
    (hsuf : suf'.map Entry.addr = suf.map Entry.addr)
    (hsame : ∀ q ∈ links f (pre ++ (mid ++ suf)), q ≠ behind f pre →
      (∀ e ∈ mid, q ≠ .next e.addr) → k'.read q = k.read q)
    (hnew : Path Link.next k'.read (behind f pre) (new.map Entry.addr) (front suf)) :
    Repr k' f (pre' ++ (new ++ suf')) x' := by
  refine ⟨?_, hC⟩
  have hn : (links f (pre ++ (mid ++ suf))).Nodup := by
    have := hR.cells.nodup_links
    rw [links, map_append, map_append, ← cons_append] at this
    exact (nodup_append.1 this).1
  have hc := hR.chain
  rw [links] at hn hsame
  simp only [map_append] at hc hn hsame ⊢
  rw [hpre, hsuf]
  refine hc.replace (by simpa using hn) (fun q hq hq' => hsame q (by simpa using hq) ?_ ?_) hnew
  · exact fun heq => hq' (by simp [heq, behind])
  · exact fun e he heq => hq' (by simp [heq]; exact .inr ⟨e, he, rfl⟩)

/-- The links of a list stay as they are. -/
theorem Repr.same {k k' : Kern} {l l' x x' : List Entry} (hR : Repr k f l x)
    (hC : Cells k' f (l' ++ x')) (haddr : l'.map Entry.addr = l.map Entry.addr)
    (hsame : ∀ q ∈ links f l, k'.read q = k.read q) : Repr k' f l' x' :=
  ⟨haddr ▸ hR.chain.congr hsame, hC⟩

/-- The links of a list are not those of the locks that are not on it. -/
theorem Repr.float_ne (hR : Repr k f l x) (lock : Entry) (hx : lock ∈ x) :
    ∀ q ∈ links f l, q ≠ .next lock.addr := by
  have hn := hR.cells.nodup
  rw [map_append, nodup_append] at hn
  intro q hq heq
  subst heq
  refine hn.2.2 lock.addr ?_ lock.addr (mem_map_of_mem hx) rfl
  simpa [links] using hq

theorem Repr.read_behind (hR : Repr k f (pre ++ suf) x) : k.read (behind f pre) = front suf := by
  have hc := hR.chain
  rw [map_append] at hc; exact hc.suffix.read_eq

theorem Repr.behind_ne (hR : Repr k f (pre ++ suf) x) : ∀ e ∈ suf, behind f pre ≠ .next e.addr := by
  have hn := hR.cells.nodup_links
  rw [links, append_assoc, map_append, map_append, ← cons_append,
    nodup_append] at hn
  intro e he
  refine hn.2.2 _ (linkAfter_mem _ _) _ ?_
  simp only [map_append, mem_append]
  exact .inl (mem_map_of_mem (mem_map_of_mem he))

/-! ### The order of the entries -/

theorem perm_pick (e : Entry) (pre l x : List Entry) :
    (pre ++ e :: l ++ x).Perm (e :: (pre ++ l ++ x)) := by
  rw [append_assoc, append_assoc]; exact perm_middle

theorem perm_float (lock : Entry) (l : List Entry) : (l ++ [lock]).Perm (lock :: l) :=
  perm_append_singleton lock l

theorem perm_pick_float (e lock : Entry) (pre l : List Entry) :
    (pre ++ e :: l ++ [lock]).Perm (e :: lock :: (pre ++ l)) :=
  (perm_pick e pre l [lock]).trans ((perm_float lock (pre ++ l)).cons e)

/-! ## Finding overlaps -/

/-- `lf_findoverlap` passes by an entry when it looks for those of the owner `id`, or of others. -/
def Skipped (type : Search) (lock : Lockf) (e : Entry) : Prop :=
  ((type = .self ∧ e.id ≠ lock.lfId) ∨ (type = .others ∧ e.id = lock.lfId)) ∨
    (noOverlap e.start e.end' lock.lfStart lock.lfEnd ∧
      ¬ (type = .self ∧ lock.lfEnd ≠ -1 ∧ e.start > lock.lfEnd))

/-- The memory has the list `l` from the address `front l` on. -/
def Along (k : Kern) (f : ℕ) (l : List Entry) : Prop :=
  (∀ e ∈ l, Cell k f e) ∧
    ∀ e l', (e :: l') <:+ l → (k.lockf e.addr).lfNext = front l'

theorem Along.tail (h : Along k f (e :: l)) : Along k f l :=
  ⟨fun a ha => h.1 a (mem_cons_of_mem e ha), fun a l' hl =>
    h.2 a l' (hl.trans (suffix_cons e l))⟩

theorem Along.next (h : Along k f (e :: l)) :
    (k.lockf e.addr).lfNext = front l := h.2 e l (suffix_refl _)

theorem along_of_chain {p : Link}
    (hc : Chain Link.next k.read p (l.map Entry.addr)) (hl : ∀ e ∈ l, Cell k f e) :
    Along k f l := by
  refine ⟨hl, fun e l' hs => ?_⟩
  induction l generalizing p with
  | nil => simp at hs
  | cons a l ih =>
    rcases suffix_cons_iff.1 hs with heq | hs
    · obtain ⟨rfl, rfl⟩ := List.cons.inj heq
      exact hc.2.read_eq
    · exact ih hc.2 (fun b hb => hl b (mem_cons_of_mem a hb)) hs

theorem lfFindoverlap_skip
    (hA : Along k f (e :: l)) {type : Search} {lock : Lockf} (hs : Skipped type lock e) (rounds : ℕ)
    (prev : Link) : lfFindoverlap k lock type (rounds + 1) (some e.addr) prev =
      lfFindoverlap k lock type rounds (front l) (.next e.addr) := by
  have hc := hA.1 e (by simp)
  rw [lfFindoverlap, hA.next, hc.id, hc.start, hc.stop]
  rcases hs with h | ⟨h1, h2⟩
  · rw [if_pos h]
  · by_cases hid : (type = .self ∧ e.id ≠ lock.lfId) ∨ (type = .others ∧ e.id = lock.lfId)
    · rw [if_pos hid]
    · rw [if_neg hid, if_pos h1, if_neg h2]

/-- The number of rounds does not matter once it exceeds the length of the list. -/
theorem lfFindoverlap_rounds (hA : Along k f l) (type : Search) (lock : Lockf) {n m : ℕ}
    (hn : l.length < n) (hm : l.length < m) (prev : Link) :
    lfFindoverlap k lock type n (front l) prev = lfFindoverlap k lock type m (front l) prev := by
  induction l generalizing n m prev with
  | nil =>
    obtain ⟨n, rfl⟩ : ∃ n', n = n' + 1 := ⟨n - 1, by simp at hn; omega⟩
    obtain ⟨m, rfl⟩ : ∃ m', m = m' + 1 := ⟨m - 1, by simp at hm; omega⟩
    rfl
  | cons e l ih =>
    rw [length_cons] at hn hm
    obtain ⟨n, rfl⟩ : ∃ n', n = n' + 1 := ⟨n - 1, by omega⟩
    obtain ⟨m, rfl⟩ : ∃ m', m = m' + 1 := ⟨m - 1, by omega⟩
    have h := ih hA.tail (n := n) (m := m) (by omega) (by omega) (.next e.addr)
    rw [front_cons, lfFindoverlap, lfFindoverlap, hA.next, h]

theorem length_le_brk (hC : Cells k f E) : E.length ≤ k.brk := by
  have hsub : E.map Entry.addr ⊆ List.range k.brk := by
    intro a ha
    obtain ⟨e, he, rfl⟩ := mem_map.1 ha
    exact mem_range.2 (hC.cell e he).lt_brk
  have := (hC.nodup.subperm hsub).length_le
  simpa using this

/-! ## Blocking locks -/

/-- The entry blocks the request. -/
def Blocks (e : Entry) (lock : Lockf) : Prop :=
  e.id ≠ lock.lfId ∧ ¬ noOverlap e.start e.end' lock.lfStart lock.lfEnd ∧
    (lock.lfType = .wrlck ∨ e.typ = .wrlck)

/-- The ranges of requests. -/
def Lockf.Ranged (lock : Lockf) : Prop := lock.lfEnd = -1 ∨ lock.lfStart ≤ lock.lfEnd

theorem overlapCase_isSome (hv : e.Valid) {start stop : ℤ} (hr : stop = -1 ∨ start ≤ stop)
    (hno : ¬ noOverlap e.start e.end' start stop) :
    ∃ c, overlapCase e.start e.end' start stop = some c := by
  have hrange := hv.range
  rcases overlapCase_cases e.start e.end' start stop with
    ⟨hc, -⟩ | ⟨hc, -⟩ | ⟨hc, -⟩ | ⟨hc, -⟩ | ⟨hc, -⟩ | ⟨-, h | h | h⟩
  · exact ⟨_, hc⟩
  · exact ⟨_, hc⟩
  · exact ⟨_, hc⟩
  · exact ⟨_, hc⟩
  · exact ⟨_, hc⟩
  · exact absurd h hno
  · omega
  · omega

/-- `lf_findoverlap` for the locks of others returns the first one that overlaps. -/
theorem lfFindoverlap_others (hA : Along k f l) (hv : ∀ e ∈ l, e.Valid) {lock : Lockf}
    (hr : lock.Ranged) (hn : l.length < n)
    (prev : Link) :
    (∃ p, lfFindoverlap k lock .others n (front l) prev = .ok (.none p none) ∧
      ∀ e ∈ l, ¬ Blocks e lock) ∨
    (∃ pre e suf c p, l = pre ++ e :: suf ∧ (∀ a ∈ pre, ¬ Blocks a lock) ∧ e.id ≠ lock.lfId ∧
      ¬ noOverlap e.start e.end' lock.lfStart lock.lfEnd ∧
      lfFindoverlap k lock .others n (front l) prev = .ok (.case c p e.addr)) := by
  induction l generalizing n prev with
  | nil =>
    obtain ⟨n, rfl⟩ : ∃ n', n = n' + 1 := ⟨n - 1, by simp at hn; omega⟩
    exact .inl ⟨prev, rfl, by simp⟩
  | cons e l ih =>
    rw [length_cons] at hn
    obtain ⟨n, rfl⟩ : ∃ n', n = n' + 1 := ⟨n - 1, by omega⟩
    by_cases hs : Skipped .others lock e
    · have hnb : ¬ Blocks e lock := by
        rintro ⟨h1, h2, -⟩
        rcases hs with (⟨h, -⟩ | ⟨-, h⟩) | ⟨h, -⟩
        · cases h
        · exact h1 h
        · exact h2 h
      rw [front_cons, lfFindoverlap_skip hA hs]
      rcases ih hA.tail (fun a ha => hv a (mem_cons_of_mem e ha)) (n := n) (by omega)
        (.next e.addr) with ⟨p, h1, h2⟩ | ⟨pre, a, suf, c, p, rfl, h1, h2, h3, h4⟩
      · exact .inl ⟨p, h1, forall_mem_cons.2 ⟨hnb, h2⟩⟩
      · exact .inr ⟨e :: pre, a, suf, c, p, rfl, forall_mem_cons.2 ⟨hnb, h1⟩, h2, h3, h4⟩
    · have hid : e.id ≠ lock.lfId := fun h => hs (.inl (.inr ⟨rfl, h⟩))
      have hno : ¬ noOverlap e.start e.end' lock.lfStart lock.lfEnd := fun h =>
        hs (.inr ⟨h, by simp⟩)
      obtain ⟨c, hc⟩ := overlapCase_isSome (hv e (by simp)) hr hno
      have hcell := hA.1 e (by simp)
      refine .inr ⟨[], e, l, c, prev, rfl, by simp, hid, hno, ?_⟩
      rw [front_cons, lfFindoverlap, hcell.id, hcell.start, hcell.stop, if_neg, if_neg hno, hc]
      simpa using hid

theorem Along.suffix (h : Along k f (pre ++ suf)) : Along k f suf := by
  induction pre with
  | nil => exact h
  | cons e pre ih => exact ih h.tail

theorem getblockLoop_cases (hA : Along k f l) (hv : ∀ e ∈ l, e.Valid) {lock : Lockf}
    (hr : lock.Ranged) (hb : l.length ≤ k.brk)
    (hn : l.length < n) (prev : Link) :
    (getblockLoop k lock n (front l) prev = .ok none ∧ ∀ e ∈ l, ¬ Blocks e lock) ∨
    (∃ e ∈ l, getblockLoop k lock n (front l) prev = .ok (some e.addr) ∧ Blocks e lock) := by
  induction n generalizing l prev with
  | zero => omega
  | succ n ih =>
    rw [getblockLoop]
    rcases lfFindoverlap_others hA hv hr (n := k.brk + 1) (by omega) prev with
      ⟨p, h1, h2⟩ | ⟨pre, e, suf, c, p, rfl, h1, h2, h3, h4⟩
    · rw [h1]; exact .inl ⟨rfl, h2⟩
    · have hA' : Along k f (e :: suf) := hA.suffix
      have htyp := (hA'.1 e (by simp)).typ
      simp only [h4, htyp]
      by_cases ht : lock.lfType = .wrlck ∨ e.typ = .wrlck
      · rw [if_pos ht]; exact .inr ⟨e, by simp, rfl, h2, h3, ht⟩
      · have hlen : suf.length < n ∧ suf.length ≤ k.brk := by
          rw [length_append, length_cons] at hn hb; omega
        rw [if_neg ht, hA'.next]
        rcases ih hA'.tail (fun a ha => hv a (by simp [ha])) hlen.2 hlen.1 p with
          ⟨k1, k2⟩ | ⟨a, ha, k1, k2⟩
        · refine .inl ⟨k1, fun a ha => ?_⟩
          rcases mem_append.1 ha with ha | ha
          · exact h1 a ha
          · rcases mem_cons.1 ha with rfl | ha
            · exact fun hbl => ht hbl.2.2
            · exact k2 a ha
        · exact .inr ⟨a, by simp [ha], k1, k2⟩

theorem Repr.along (hR : Repr k f l x) : Along k f l :=
  along_of_chain hR.chain fun e he => hR.cells.cell e (mem_append_left x he)

theorem Repr.length_le (hR : Repr k f l x) : l.length ≤ k.brk := by
  have := length_le_brk hR.cells
  rw [length_append] at this; omega

/-- `lf_getblock` finds an entry that blocks the request, if there is one. -/
theorem lfGetblock_cases (hR : Repr k f l x) (hv : ∀ e ∈ l, e.Valid) {lock : Lockf}
    (hhead : lock.lfHead = f) (hr : lock.Ranged) :
    (lfGetblock k lock = .ok none ∧ ∀ e ∈ l, ¬ Blocks e lock) ∨
    (∃ e ∈ l, lfGetblock k lock = .ok (some e.addr) ∧ Blocks e lock) := by
  have hfront : k.head f = front l := hR.chain.read_eq
  have hlen := hR.length_le
  rw [lfGetblock, hhead, hfront]; exact getblockLoop_cases hR.along hv hr hlen (by omega) _

/-! ## The own entries -/

/-- The loops for `lock` pass by the entry. -/
def Entry.Skip (e lock : Entry) : Prop :=
  e.id ≠ lock.id ∨ noOverlap e.start e.end' lock.start lock.end' ∧
    ¬ (lock.end' ≠ -1 ∧ e.start > lock.end')

/-- The loops for `lock` end in front of the entry. -/
structure Entry.Stop (e lock : Entry) : Prop where
  id : e.id = lock.id
  no : noOverlap e.start e.end' lock.start lock.end'
  gt : lock.end' ≠ -1 ∧ e.start > lock.end'

/-- The loops for `lock` act on the entry. -/
structure Entry.Hit (e lock : Entry) (c : Ovcase) : Prop where
  id : e.id = lock.id
  ov : ¬ noOverlap e.start e.end' lock.start lock.end'
  case : overlapCase e.start e.end' lock.start lock.end' = some c

theorem skip_or_stop_or_hit {e lock : Entry} (he : e.Valid) (hl : lock.Valid) :
    e.Skip lock ∨ e.Stop lock ∨ ∃ c, e.Hit lock c := by
  by_cases hid : e.id = lock.id
  · by_cases hno : noOverlap e.start e.end' lock.start lock.end'
    · by_cases hgt : lock.end' ≠ -1 ∧ e.start > lock.end'
      · exact .inr (.inl ⟨hid, hno, hgt⟩)
      · exact .inl (.inr ⟨hno, hgt⟩)
    · have hr := hl.range
      obtain ⟨c, hc⟩ := overlapCase_isSome he (by omega) hno
      exact .inr (.inr ⟨c, hid, hno, hc⟩)
  · exact .inl (.inl hid)

theorem lfFindoverlap_skip_self {e lock : Entry}
    (hA : Along k f (e :: l)) (hl : Cell k f lock) (h : e.Skip lock) (hlen : l.length < k.brk)
    (prev : Link) :
    lfFindoverlap k (k.lockf lock.addr) .self (k.brk + 1) (some e.addr) prev =
      lfFindoverlap k (k.lockf lock.addr) .self (k.brk + 1) (front l) (.next e.addr) := by
  have hs : Skipped .self (k.lockf lock.addr) e := by
    rcases h with h | ⟨h1, h2⟩
    · exact .inl (.inl ⟨rfl, by rwa [hl.id]⟩)
    · refine .inr ⟨?_, ?_⟩
      · rwa [hl.start, hl.stop]
      · rw [hl.stop]; exact fun h => h2 h.2
  rw [lfFindoverlap_skip hA hs, lfFindoverlap_rounds hA.tail .self (k.lockf lock.addr)
    (n := k.brk) (m := k.brk + 1) hlen (by omega) (.next e.addr)]

theorem lfFindoverlap_stop {e lock : Entry}
    (hA : Along k f (e :: l)) (hl : Cell k f lock) (h : e.Stop lock) (n : ℕ) (prev : Link) :
    lfFindoverlap k (k.lockf lock.addr) .self (n + 1) (some e.addr) prev =
      .ok (.none prev (some e.addr)) := by
  have hc := hA.1 e (by simp)
  rw [lfFindoverlap, hc.id, hc.start, hc.stop, hl.id, hl.start, hl.stop, if_neg, if_pos h.no,
    if_pos ⟨rfl, h.gt⟩]
  simpa using h.id

theorem lfFindoverlap_hit {e lock : Entry}
    (hA : Along k f (e :: l)) (hl : Cell k f lock) (h : e.Hit lock c) (n : ℕ)
    (prev : Link) :
    lfFindoverlap k (k.lockf lock.addr) .self (n + 1) (some e.addr) prev =
      .ok (.case c prev e.addr) := by
  have hc := hA.1 e (by simp)
  rw [lfFindoverlap, hc.id, hc.start, hc.stop, hl.id, hl.start, hl.stop, if_neg, if_neg h.ov,
    h.case]
  simpa using h.id

theorem trimEntries_skip {e lock : Entry} (h : e.Skip lock) (l : List Entry) :
    trimEntries lock (e :: l) = ((trimEntries lock l).1, e :: (trimEntries lock l).2) := by
  rw [trimEntries]
  rcases h with h | ⟨h1, h2⟩
  · rw [if_pos h]
  · rw [if_pos h1, if_neg h2, ite_self]

theorem trimEntries_stop {e lock : Entry} (h : e.Stop lock) (l : List Entry) :
    trimEntries lock (e :: l) = ([], e :: l) := by
  rw [trimEntries, if_neg (not_not.2 h.id), if_pos h.no, if_pos h.gt]

theorem setEntries_skip {e lock : Entry} (h : e.Skip lock) (fresh : ℕ) (l : List Entry) :
    setEntries lock fresh (e :: l) = e :: setEntries lock fresh l := by
  rw [setEntries]
  rcases h with h | ⟨h1, h2⟩
  · rw [if_pos h]
  · rw [if_pos h1, if_neg h2, ite_self]

theorem setEntries_stop {e lock : Entry} (h : e.Stop lock) (fresh : ℕ) (l : List Entry) :
    setEntries lock fresh (e :: l) = lock :: e :: l := by
  rw [setEntries, if_neg (not_not.2 h.id), if_pos h.no, if_pos h.gt]

theorem setEntries_hit {e lock : Entry} (h : e.Hit lock c) (fresh : ℕ) (l : List Entry) :
    setEntries lock fresh (e :: l) =
      match c with
      | .equal => { e with typ := lock.typ, waiters := e.staying lock } :: l
      | .contains =>
        if e.typ = lock.typ then e :: l
        else if e.start = lock.start then lock :: e.cutBack lock :: l
        else if e.end' = lock.end' then e.cutFront lock :: lock :: l
        else e.cutFront lock :: lock :: { e.cutBack lock with addr := fresh } :: l
      | .contained =>
        { lock with waiters := e.staying lock ++ (trimEntries lock l).1 } :: (trimEntries lock l).2
      | .startsBefore =>
        e.cutFront lock :: { lock with waiters := (trimEntries lock l).1 } :: (trimEntries lock l).2
      | .endsAfter => lock :: e.cutBack lock :: l := by
  rw [setEntries, if_neg (not_not.2 h.id), if_neg h.ov, h.case]
  cases c <;> rfl

theorem clearEntries_hit {e unlock : Entry} (h : e.Hit unlock c) (fresh : ℕ) (l : List Entry) :
    clearEntries unlock fresh (e :: l) =
      match c with
      | .equal => l
      | .contains =>
        if e.start = unlock.start then e.cutBack unlock :: l
        else if e.end' = unlock.end' then e.cutFront unlock :: l
        else e.cutFront unlock :: { e.cutBack unlock with addr := fresh } :: l
      | .contained => clearEntries unlock fresh l
      | .startsBefore => e.cutFront unlock :: clearEntries unlock fresh l
      | .endsAfter => e.cutBack unlock :: l := by
  rw [clearEntries, if_neg (not_not.2 h.id), if_neg h.ov, h.case]
  cases c <;> rfl

theorem clearEntries_skip {e unlock : Entry} (h : e.Skip unlock) (fresh : ℕ) (l : List Entry) :
    clearEntries unlock fresh (e :: l) = e :: clearEntries unlock fresh l := by
  rw [clearEntries]
  rcases h with h | ⟨h1, h2⟩
  · rw [if_pos h]
  · rw [if_pos h1, if_neg h2, ite_self]

theorem clearEntries_stop {e unlock : Entry} (h : e.Stop unlock) (fresh : ℕ) (l : List Entry) :
    clearEntries unlock fresh (e :: l) = e :: l := by
  rw [clearEntries, if_neg (not_not.2 h.id), if_pos h.no, if_pos h.gt]

/-! ## Adding a lock that is on the list -/

@[simp] theorem trimEntries_plus (lock : Entry) (ws : List ℕ) (l : List Entry) :
    trimEntries (lock.plus ws) l = trimEntries lock l := by
  induction l with
  | nil => rfl
  | cons e l ih =>
    rw [trimEntries, trimEntries, ih]; rfl

theorem Fits.plus {lock : Entry} (h : Fits lock l) (ws : List ℕ) : Fits (lock.plus ws) l :=
  ⟨⟨h.valid.start_nonneg, h.valid.start_le, h.valid.range⟩, h.sorted, h.noWrap⟩

/-- The waiters of an entry `e` that gives way to the lock `m`. -/
theorem Cells.giveWay {e m : Entry} (hC : Cells k f (e :: m :: E)) :
    let k' := if m.typ = .rdlck ∧ e.typ = .wrlck then lfWakelock k e.addr
      else takeWaiters k e.addr m.addr
    Cells k' f (e.awake :: m.plus (e.staying m) :: E) ∧
      Frame k (e :: m :: E) k' (e.awake :: m.plus (e.staying m) :: E) ∧
      ∀ q ∈ links f (e :: m :: E), k'.read q = k.read q := by
  intro k'
  have hne : ∀ q ∈ links f (e :: m :: E), ∀ w ∈ e.waiters, q ≠ .next w := fun q hq w hw =>
    hC.link_ne hq w (mem_waitersOf.2 ⟨e, by simp, hw⟩)
  by_cases h : m.typ = .rdlck ∧ e.typ = .wrlck
  · have hm : e.staying m = [] := if_pos h
    obtain ⟨h1, h2, h3⟩ := hC.wake
    rw [show k' = lfWakelock k e.addr from if_pos h, hm, Entry.plus_nil]
    exact ⟨h1, h2, fun q hq => h3 q (hne q hq)⟩
  · have hm : e.staying m = e.waiters := if_neg h
    obtain ⟨h1, h2, h3⟩ := hC.take
    rw [show k' = takeWaiters k e.addr m.addr from if_neg h, hm]
    exact ⟨h1, h2, fun q hq => h3 q (hne q hq)⟩

/-- The entry `e` loses its part up to the end of the lock, and whoever is blocked on it wakes
    up. -/
theorem Cells.cutBack (hC : Cells k f (e :: E)) (lock : Entry) :
    let k' := lfWakelock (k.setStart e.addr (lock.end' + 1)) e.addr
    Cells k' f (e.cutBack lock :: E) ∧ Frame k (e :: E) k' (e.cutBack lock :: E) ∧
      ∀ q ∈ links f (e :: E), k'.read q = k.read q := by
  intro k'
  obtain ⟨c1, f1⟩ := hC.setStart (lock.end' + 1)
  obtain ⟨c2, f2, r2⟩ := c1.wake
  refine ⟨c2, f1.trans hC f2, fun q hq => ?_⟩
  rw [← read_setStart k e.addr (lock.end' + 1)]
  exact r2 q fun w hw => hC.link_ne hq w (mem_waitersOf.2 ⟨e, by simp, hw⟩)

theorem Repr.cutBack (hR : Repr k f (pre ++ e :: l) x) (lock : Entry) :
    let k' := lfWakelock (k.setStart e.addr (lock.end' + 1)) e.addr
    Repr k' f (pre ++ e.cutBack lock :: l) x ∧
      Frame k (pre ++ e :: l ++ x) k' (pre ++ e.cutBack lock :: l ++ x) := by
  intro k'
  obtain ⟨c1, f1, r1⟩ := (hR.cells.perm (perm_pick e pre l x)).cutBack lock
  refine ⟨hR.same (c1.perm (perm_pick _ pre l x).symm) (by simp [Entry.cutBack]) fun q hq => ?_,
    f1.perm (perm_pick e pre l x).symm (perm_pick _ pre l x).symm⟩
  exact r1 q (links_mono (by intro a; simp; grind) hq)

theorem StartsAfter.plus {lock : Entry} (h : StartsAfter lock l) (ws : List ℕ) :
    StartsAfter (lock.plus ws) l := h

theorem setlockLoop_skip {e lock : Entry}
    (hA : Along k f (e :: l)) (hl : Cell k f lock) (h : e.Skip lock) (hlen : l.length < k.brk)
    (n : ℕ) (prev : Link) (b : Bool) :
    setlockLoop lock.addr (n + 1) k (some e.addr) prev b =
      setlockLoop lock.addr (n + 1) k (front l) (.next e.addr) b := by
  rw [setlockLoop, setlockLoop, lfFindoverlap_skip_self hA hl h hlen]

/-- Where an own entry that starts behind the lock can lie. -/
theorem hit_after {e lock : Entry} (h : e.Hit lock c) (hlt : lock.start < e.start) :
    c = .contained ∨ c = .endsAfter := by
  rcases overlapCase_cases e.start e.end' lock.start lock.end' with
    ⟨hc, h1⟩ | ⟨hc, h1⟩ | ⟨hc, h1⟩ | ⟨hc, h1⟩ | ⟨hc, h1⟩ | ⟨hc, h1⟩ <;>
    rw [h.case] at hc <;> cases hc
  · omega
  · omega
  · exact .inl rfl
  · omega
  · exact .inr rfl

/-- Behind an own entry that overlaps with the lock. -/
theorem startsAfter_of_hit {e lock : Entry}
    (hf : Fits lock (e :: l)) (h : e.Hit lock c) : StartsAfter lock l := by
  have hov := h.ov
  have hr := (hf.sorted.valid e (by simp)).range
  unfold noOverlap at hov; exact startsAfter_of_before hf.sorted h.id (by omega)

/-- The loop of `lf_setlock` from where the lock is on the list. -/
theorem setlockLoop_linked {lock : Entry} (pre mid suf : List Entry)
    (hR : Repr k f (pre ++ lock :: mid ++ suf) [])
    (hf : Fits lock suf) (hs : StartsAfter lock suf) (hn : suf.length < n) :
    ∃ k', setlockLoop lock.addr n k (front suf) (behind f (pre ++ lock :: mid)) false = .ok k' ∧
      Repr k' f
        (pre ++ lock.plus (trimEntries lock suf).1 :: mid ++ (trimEntries lock suf).2) [] ∧
      Frame k (pre ++ lock :: mid ++ suf) k'
        (pre ++ lock.plus (trimEntries lock suf).1 :: mid ++ (trimEntries lock suf).2) := by
  induction suf generalizing k lock mid n with
  | nil =>
    obtain ⟨n, rfl⟩ : ∃ n', n = n' + 1 := ⟨n - 1, by simp at hn; omega⟩
    have hnil : lock.plus (trimEntries lock []).1 = lock := by simp [trimEntries, Entry.plus]
    rw [hnil]; exact ⟨k, rfl, hR, Frame.refl _ _⟩
  | cons e l ih =>
    rw [length_cons] at hn
    obtain ⟨n, rfl⟩ : ∃ n', n = n' + 1 := ⟨n - 1, by omega⟩
    have hA : Along k f (e :: l) := hR.along.suffix
    have hlen := hR.length_le
    simp only [length_append, length_cons] at hlen
    have hcl := hR.cells.cell lock (by simp)
    have hce := hA.1 e (by simp)
    rcases skip_or_stop_or_hit (hf.sorted.valid e (by simp)) hf.valid with h | h | ⟨c, h⟩
    · have hlist : pre ++ lock :: mid ++ e :: l = pre ++ lock :: (mid ++ [e]) ++ l := by simp
      rw [hlist] at hR
      have hb : behind f (pre ++ lock :: (mid ++ [e])) = .next e.addr := by
        rw [← cons_append, ← append_assoc, behind_concat]
      have := ih _ hR hf.tail hs.tail (n := n + 1) (by omega)
      rw [hb] at this
      rw [front_cons, setlockLoop_skip hA hcl h (by omega), trimEntries_skip h, hlist]
      simpa using this
    · have hnil : lock.plus [] = lock := by simp [Entry.plus]
      rw [front_cons, setlockLoop, lfFindoverlap_stop hA hcl h, trimEntries_stop h, hnil]
      exact ⟨k, rfl, hR, Frame.refl _ _⟩
    · have hid := h.id
      rw [front_cons, setlockLoop, lfFindoverlap_hit hA hcl h]
      rcases hit_after h (hs e (by simp) hid) with rfl | rfl
      · have htrim : trimEntries lock (e :: l) =
            (e.staying lock ++ (trimEntries lock l).1, (trimEntries lock l).2) := by
          rw [trimEntries, if_neg (not_not.2 hid), if_neg h.ov, h.case]
        have hp : (pre ++ lock :: mid ++ e :: l ++ []).Perm (e :: lock :: (pre ++ mid ++ l)) := by
          rw [append_nil]; exact perm_middle.trans ((perm_pick lock pre mid l).cons e)
        have hC := hR.cells.perm hp
        obtain ⟨c1, f1, r1⟩ := hC.giveWay
        dsimp only
        rw [hcl.typ, hce.typ]
        generalize (if lock.typ = .rdlck ∧ e.typ = .wrlck then lfWakelock k e.addr
          else takeWaiters k e.addr lock.addr) = k₁ at c1 f1 r1 ⊢
        have hlinks : ∀ q ∈ links f (pre ++ lock :: mid ++ e :: l), k₁.read q = k.read q :=
          fun q hq => r1 q (links_mono (by intro a; simp; grind) hq)
        have hnext : (k₁.lockf e.addr).lfNext = front l :=
          (hlinks (.next e.addr) (by simp [links])).trans hA.next
        obtain ⟨c2, f2⟩ := c1.write (p := behind f (pre ++ lock :: mid)) (behind_mem (by
          intro a; simp; grind)) (front l)
        obtain ⟨c3, f3⟩ := c2.free rfl
        have hp' := (perm_pick (lock.plus (e.staying lock)) pre mid l).symm
        have hF := ((f1.trans hC f2).trans hC f3).perm
          (hp.symm.trans (List.Perm.of_eq (append_nil _))) hp'
        have hR' : Repr ((k₁.write (behind f (pre ++ lock :: mid)) (front l)).free e.addr) f
            (pre ++ lock.plus (e.staying lock) :: mid ++ l) [] := by
          refine Repr.replace (pre ++ lock :: mid) [e] l [] hR
            ?_ (by simp) rfl ?_ ?_
          · simpa using c3.perm hp'
          · intro q hq hne _
            rw [read_free, read_write, if_neg hne, hlinks q hq]
          · show ((k₁.write (behind f (pre ++ lock :: mid)) (front l)).free e.addr).read _ = _
            rw [read_free, read_write, if_pos rfl]
        have hb : behind f (pre ++ lock.plus (e.staying lock) :: mid) =
            behind f (pre ++ lock :: mid) := by simp [behind]
        obtain ⟨k', hk', hR'', hF'⟩ := ih _ hR' (hf.tail.plus _) (hs.tail.plus _) (n := n)
          (by omega)
        rw [hb] at hk'
        rw [if_neg (by simp), hnext, hA.next, htrim]
        simp only [trimEntries_plus, Entry.plus_plus] at hR'' hF'
        exact ⟨k', hk', hR'', hF.trans (by simpa using hR.cells) hF'⟩
      · have htrim : trimEntries lock (e :: l) = ([], e.cutBack lock :: l) := by
          rw [trimEntries, if_neg (not_not.2 hid), if_neg h.ov, h.case]
        obtain ⟨hR', hF'⟩ := hR.cutBack lock
        dsimp only [linkBefore]
        rw [if_neg (by simp), hcl.stop, htrim, Entry.plus_nil]
        exact ⟨_, rfl, hR', by simpa using hF'⟩

/-! ## Adding a lock -/

/-- The lock is linked between two parts of the list. -/
theorem Repr.link {lock : Entry} (hR : Repr k f (pre ++ suf) [lock]) :
    let k' := (k.write (behind f pre) (some lock.addr)).setNext lock.addr (front suf)
    Repr k' f (pre ++ lock :: suf) [] ∧
      Frame k (pre ++ suf ++ [lock]) k' (pre ++ lock :: suf) := by
  intro k'
  have hC := hR.cells.perm (perm_float lock (pre ++ suf))
  obtain ⟨c1, f1⟩ := hC.write (p := behind f pre) (behind_mem (by intro a; simp; grind))
    (some lock.addr)
  obtain ⟨c2, f2⟩ := c1.setNext (a := lock.addr) (by simp) (front suf)
  have hp : (lock :: (pre ++ suf)).Perm (pre ++ lock :: suf) := perm_middle.symm
  have hne := hR.float_ne lock (by simp)
  have hread : ∀ q, k'.read q = if q = .next lock.addr then front suf
      else if q = behind f pre then some lock.addr else k.read q := fun q => by
    rw [read_setNext, read_write]
  refine ⟨Repr.replace pre [] suf [lock] hR ?_ rfl rfl
    (fun q hq hq' _ => ?_) ⟨?_, ?_⟩, (f1.trans hC f2).perm (perm_float lock _).symm hp⟩
  · simpa using c2.perm hp
  · rw [hread, if_neg (hne q hq), if_neg hq']
  · rw [hread, if_neg (hne _ (behind_mem (by simp))), if_pos rfl]
  · show k'.read (.next lock.addr) = _
    rw [hread, if_pos rfl]

/-- The lock is linked in front of an entry, which loses its part up to the end of the lock. -/
theorem Repr.linkCut {e lock : Entry} (hR : Repr k f (pre ++ e :: l) [lock]) :
    let k₁ := (k.write (behind f pre) (some lock.addr)).setNext lock.addr (some e.addr)
    let k' := lfWakelock (k₁.setStart e.addr ((k₁.lockf lock.addr).lfEnd + 1)) e.addr
    Repr k' f (pre ++ lock :: e.cutBack lock :: l) [] ∧
      Frame k (pre ++ e :: l ++ [lock]) k' (pre ++ lock :: e.cutBack lock :: l) := by
  intro k₁ k'
  obtain ⟨hR₁, hF₁⟩ := hR.link
  have hlist : pre ++ lock :: e :: l = pre ++ [lock] ++ e :: l := by simp
  have hk' : k' = lfWakelock (k₁.setStart e.addr (lock.end' + 1)) e.addr := by
    rw [← (hR₁.cells.cell lock (by simp)).stop]
    rfl
  rw [hlist] at hR₁
  obtain ⟨hR₂, hF₂⟩ := hR₁.cutBack lock
  rw [hk']; exact ⟨by simpa using hR₂, hF₁.trans hR.cells (by simpa using hF₂)⟩

/-- Who is blocked on an entry wakes up if the lock that replaces it is a weaker one. -/
theorem Cells.ease (hC : Cells k f (e :: E)) (lock : Entry) :
    let k' := if lock.typ = .rdlck ∧ e.typ = .wrlck then lfWakelock k e.addr else k
    Cells k' f ({ e with waiters := e.staying lock } :: E) ∧
      Frame k (e :: E) k' ({ e with waiters := e.staying lock } :: E) ∧
      ∀ q ∈ links f (e :: E), k'.read q = k.read q := by
  intro k'
  by_cases h : lock.typ = .rdlck ∧ e.typ = .wrlck
  · have hm : e.staying lock = [] := if_pos h
    obtain ⟨h1, h2, h3⟩ := hC.wake
    rw [show k' = lfWakelock k e.addr from if_pos h, hm]
    exact ⟨h1, h2, fun q hq => h3 q fun w hw => hC.link_ne hq w (by simp [hw])⟩
  · have hm : e.staying lock = e.waiters := if_neg h
    rw [show k' = k from if_neg h, hm]; exact ⟨hC, Frame.refl _ _, fun _ _ => rfl⟩

/-- Case 1: the entry takes the mode of the lock. -/
theorem Repr.setEqual {e lock : Entry}
    (hR : Repr k f (pre ++ e :: l) [lock]) (hws : lock.waiters = []) :
    let k₁ := if lock.typ = .rdlck ∧ e.typ = .wrlck then lfWakelock k e.addr else k
    let k' := (k₁.setType e.addr (k₁.lockf lock.addr).lfType).free lock.addr
    let e' := { e with typ := lock.typ, waiters := e.staying lock }
    Repr k' f (pre ++ e' :: l) [] ∧ Frame k (pre ++ e :: l ++ [lock]) k' (pre ++ e' :: l) := by
  intro k₁ k' e'
  have hp := perm_pick_float e lock pre l
  have hC := hR.cells.perm hp
  obtain ⟨c1, f1, r1⟩ := hC.ease lock
  have hk' : k' = (k₁.setType e.addr lock.typ).free lock.addr := by
    rw [← (c1.cell lock (by simp)).typ]
  rw [hk']
  obtain ⟨c2, f2⟩ := c1.setType lock.typ
  have hp₂ : (e' :: lock :: (pre ++ l)).Perm (lock :: e' :: (pre ++ l)) := List.Perm.swap _ _ _
  obtain ⟨c3, f3⟩ := (c2.perm hp₂).free hws
  have hp₃ : (e' :: (pre ++ l)).Perm (pre ++ e' :: l) := perm_middle.symm
  refine ⟨hR.same (by simpa using c3.perm hp₃) (by simp [e']) fun q hq => ?_, ?_⟩
  · rw [read_free, read_setType]; exact r1 q (links_mono (by intro a; simp; grind) hq)
  · exact ((f1.trans hC f2).trans hC (f3.perm hp₂.symm (.refl _))).perm hp.symm hp₃

/-- Case 2, of one mode: the lock is not needed. -/
theorem Repr.drop {lock : Entry} (hR : Repr k f l [lock]) (hws : lock.waiters = []) :
    Repr (k.free lock.addr) f l [] ∧ Frame k (l ++ [lock]) (k.free lock.addr) l := by
  have hp := perm_float lock l
  obtain ⟨c1, f1⟩ := (hR.cells.perm hp).free hws
  exact ⟨hR.same (by simpa using c1) rfl fun q _ => read_free k lock.addr q,
    f1.perm hp.symm (.refl _)⟩

/-- Case 2: the lock becomes the last part of the entry. -/
theorem Repr.splitTwo {e lock : Entry}
    (hR : Repr k f (pre ++ e :: l) [lock]) (hs : e.start ≠ lock.start)
    (he : e.end' = lock.end') :
    let k' := lfWakelock (lfSplit k e.addr lock.addr) e.addr
    Repr k' f (pre ++ e.cutFront lock :: lock :: l) [] ∧
      Frame k (pre ++ e :: l ++ [lock]) k' (pre ++ e.cutFront lock :: lock :: l) := by
  intro k'
  have hp := perm_pick_float e lock pre l
  have hC := hR.cells.perm hp
  obtain ⟨c1, f1, r1⟩ := hC.split_two hs he
  obtain ⟨c2, f2, r2⟩ := c1.wake
  have hp₂ : (e.cutFront lock :: lock :: (pre ++ l)).Perm (pre ++ e.cutFront lock :: lock :: l) :=
    (perm_middle.trans (perm_middle.cons _)).symm
  have hnext : k.read (.next e.addr) = front l := hR.along.suffix.next
  have hne := hR.float_ne lock (by simp)
  have hread : ∀ q ∈ links f (pre ++ e :: lock :: l), k'.read q =
      if q = .next e.addr then some lock.addr
        else if q = .next lock.addr then front l else k.read q := fun q hq => by
    rw [← hnext, ← r1 q]
    refine r2 q fun w hw => hC.link_ne (links_mono ?_ hq) w (by simp [show w ∈ e.waiters from hw])
    intro a
    simp
    grind
  have hb : behind f pre ∈ links f (pre ++ e :: l) := behind_mem (by simp)
  have hbe : behind f pre ≠ .next e.addr := hR.behind_ne e (by simp)
  refine ⟨Repr.replace pre [e] l [e.cutFront lock, lock] hR ?_
    rfl rfl (fun q hq hq' hm => ?_) ⟨?_, ?_, ?_⟩, (f1.trans hC f2).perm hp.symm hp₂⟩
  · simpa using c2.perm hp₂
  · rw [hread q (links_mono (by intro a; simp; grind) hq), if_neg (hm e (by simp)),
      if_neg (hne q hq)]
  · rw [hread _ (links_mono (by intro a; simp; grind) hb), if_neg hbe, if_neg (hne _ hb)]
    exact hR.read_behind
  · show k'.read (.next e.addr) = _
    rw [hread _ (by simp [links]), if_pos rfl]
  · show k'.read (.next lock.addr) = _
    rw [hread _ (by simp [links]), if_neg, if_pos rfl]
    exact fun h => hne (.next e.addr) (by simp [links]) h.symm

/-- Case 2: the lock goes in the middle of the entry. -/
theorem Repr.splitThree {e lock : Entry}
    (hR : Repr k f (pre ++ e :: l) [lock]) (hs : e.start ≠ lock.start)
    (he : e.end' ≠ lock.end') :
    let k' := lfWakelock (lfSplit k e.addr lock.addr) e.addr
    let l' := e.cutFront lock :: lock :: { e.cutBack lock with addr := k.brk } :: l
    Repr k' f (pre ++ l') [] ∧ Frame k (pre ++ e :: l ++ [lock]) k' (pre ++ l') := by
  intro k' l'
  have hp := perm_pick_float e lock pre l
  have hC := hR.cells.perm hp
  obtain ⟨c1, f1, r1⟩ := hC.split_three hs he
  obtain ⟨c2, f2, r2⟩ := c1.wake
  have hp₂ : (e.cutFront lock :: lock :: { e.cutBack lock with addr := k.brk } :: (pre ++ l)).Perm
      (pre ++ l') :=
    (perm_middle.trans ((perm_middle.trans (perm_middle.cons _)).cons _)).symm
  have hnext : k.read (.next e.addr) = front l := hR.along.suffix.next
  have hne := hR.float_ne lock (by simp)
  have hfresh : ∀ a ∈ (pre ++ e :: l ++ [lock]), a.addr ≠ k.brk := fun a ha h =>
    absurd (hR.cells.cell a ha).lt_brk (by omega)
  have hread : ∀ q ∈ links f (pre ++ l'), k'.read q =
      if q = .next e.addr then some lock.addr
        else if q = .next lock.addr then some k.brk
        else if q = .next k.brk then front l else k.read q := fun q hq => by
    rw [← hnext, ← r1 q]
    refine r2 q fun w hw => c1.link_ne (links_mono ?_ hq) w (by simp [show w ∈ e.waiters from hw])
    intro a
    simp [l', Entry.cutFront, Entry.cutBack]
    grind
  have hb : behind f pre ∈ links f (pre ++ e :: l) := behind_mem (by simp)
  have hbe : behind f pre ≠ .next e.addr := hR.behind_ne e (by simp)
  have hbrk : ∀ q ∈ links f (pre ++ e :: l), q ≠ .next k.brk := by
    intro q hq heq
    subst heq
    simp only [links, mem_cons, reduceCtorEq, mem_map, Link.next.injEq, exists_eq_right,
      false_or] at hq
    obtain ⟨a, ha, heq⟩ := hq
    exact hfresh a (mem_append_left _ ha) heq
  have hsub : ∀ q ∈ links f (pre ++ e :: l), q ∈ links f (pre ++ l') := fun q hq =>
    links_mono (by intro a; simp [l', Entry.cutFront]; grind) hq
  refine ⟨Repr.replace pre [e] l
    [e.cutFront lock, lock, { e.cutBack lock with addr := k.brk }] hR ?_
    rfl rfl (fun q hq hq' hm => ?_) ⟨?_, ?_, ?_, ?_⟩, (f1.trans hC f2).perm hp.symm hp₂⟩
  · simpa using c2.perm hp₂
  · rw [hread q (hsub q hq), if_neg (hm e (by simp)), if_neg (hne q hq), if_neg (hbrk q hq)]
  · rw [hread _ (hsub _ hb), if_neg hbe, if_neg (hne _ hb), if_neg (hbrk _ hb)]
    exact hR.read_behind
  · show k'.read (.next e.addr) = _
    rw [hread _ (hsub _ (by simp [links])), if_pos rfl]
  · show k'.read (.next lock.addr) = _
    rw [hread _ (by simp [links, l']), if_neg, if_pos rfl]
    exact fun h => hne (.next e.addr) (by simp [links]) h.symm
  · show k'.read (.next k.brk) = _
    rw [hread _ (by simp [links, l']), if_neg, if_neg, if_pos rfl]
    · exact fun h => hfresh lock (by simp) (Link.next.inj h).symm
    · exact fun h => hfresh e (by simp) (Link.next.inj h).symm

/-- Case 3: the lock takes the place of the entry. -/
theorem Repr.takePlace {e lock : Entry} (hR : Repr k f (pre ++ e :: l) [lock]) :
    let k₁ := if lock.typ = .rdlck ∧ e.typ = .wrlck then lfWakelock k e.addr
      else takeWaiters k e.addr lock.addr
    let k₂ := k₁.write (behind f pre) (some lock.addr)
    let k' := (k₂.setNext lock.addr (k₂.lockf e.addr).lfNext).free e.addr
    Repr k' f (pre ++ lock.plus (e.staying lock) :: l) [] ∧
      Frame k (pre ++ e :: l ++ [lock]) k' (pre ++ lock.plus (e.staying lock) :: l) := by
  intro k₁ k₂ k'
  have hp := perm_pick_float e lock pre l
  have hC := hR.cells.perm hp
  obtain ⟨c1, f1, r1⟩ := hC.giveWay
  obtain ⟨c2, f2⟩ := c1.write (p := behind f pre) (behind_mem (by intro a; simp; grind))
    (some lock.addr)
  obtain ⟨c3, f3⟩ := c2.setNext (a := lock.addr) (by simp) (k₂.lockf e.addr).lfNext
  obtain ⟨c4, f4⟩ := c3.free rfl
  have hp₂ : (lock.plus (e.staying lock) :: (pre ++ l)).Perm
      (pre ++ lock.plus (e.staying lock) :: l) := perm_middle.symm
  have hne := hR.float_ne lock (by simp)
  have hbe : behind f pre ≠ .next e.addr := hR.behind_ne e (by simp)
  have hr1 : ∀ q ∈ links f (pre ++ e :: l), k₁.read q = k.read q := fun q hq =>
    r1 q (links_mono (by intro a; simp; grind) hq)
  have hnext : (k₂.lockf e.addr).lfNext = front l := by
    have h : k₂.read (.next e.addr) = k₁.read (.next e.addr) := by
      rw [read_write, if_neg hbe.symm]
    exact (h.trans (hr1 _ (by simp [links]))).trans hR.along.suffix.next
  have hread : ∀ q ∈ links f (pre ++ e :: l), k'.read q =
      if q = behind f pre then some lock.addr else k.read q := fun q hq => by
    rw [read_free, read_setNext, if_neg (hne q hq), read_write, ← hr1 q hq]
  refine ⟨Repr.replace pre [e] l [lock.plus (e.staying lock)] hR ?_ rfl rfl
    (fun q hq hq' hm => ?_) ⟨?_, ?_⟩,
    (((f1.trans hC f2).trans hC f3).trans hC f4).perm hp.symm hp₂⟩
  · simpa using c4.perm hp₂
  · rw [hread q hq, if_neg hq']
  · rw [hread _ (behind_mem (by simp)), if_pos rfl]
    rfl
  · show k'.read (.next lock.addr) = _
    rw [read_free, read_setNext, if_pos rfl, hnext]

/-- Case 4: the lock goes behind what is left of the entry. -/
theorem Repr.putBehind {e lock : Entry} (hR : Repr k f (pre ++ e :: l) [lock]) :
    let k₁ := (k.setNext lock.addr (k.lockf e.addr).lfNext).setNext e.addr (some lock.addr)
    let k' := lfWakelock (k₁.setEnd e.addr ((k₁.lockf lock.addr).lfStart - 1)) e.addr
    Repr k' f (pre ++ e.cutFront lock :: lock :: l) [] ∧
      Frame k (pre ++ e :: l ++ [lock]) k' (pre ++ e.cutFront lock :: lock :: l) := by
  intro k₁ k'
  have hp := perm_pick_float e lock pre l
  have hC := hR.cells.perm hp
  have hnext : (k.lockf e.addr).lfNext = front l := hR.along.suffix.next
  obtain ⟨c1, f1⟩ := hC.setNext (a := lock.addr) (by simp) (k.lockf e.addr).lfNext
  obtain ⟨c2, f2⟩ := c1.setNext (a := e.addr) (by simp) (some lock.addr)
  have hk' : k' = lfWakelock (k₁.setEnd e.addr (lock.start - 1)) e.addr := by
    rw [← (c2.cell lock (by simp)).start]
  rw [hk']
  obtain ⟨c3, f3⟩ := c2.setEnd (lock.start - 1)
  obtain ⟨c4, f4, r4⟩ := c3.wake
  have hp₂ : (e.cutFront lock :: lock :: (pre ++ l)).Perm (pre ++ e.cutFront lock :: lock :: l) :=
    (perm_middle.trans (perm_middle.cons _)).symm
  have hne := hR.float_ne lock (by simp)
  have hbe : behind f pre ≠ .next e.addr := hR.behind_ne e (by simp)
  have hb : behind f pre ∈ links f (pre ++ e :: l) := behind_mem (by simp)
  have hread : ∀ q ∈ links f (pre ++ e :: lock :: l),
      (lfWakelock (k₁.setEnd e.addr (lock.start - 1)) e.addr).read q =
      if q = .next e.addr then some lock.addr
        else if q = .next lock.addr then front l else k.read q := fun q hq => by
    have hq' : k₁.read q = if q = .next e.addr then some lock.addr
        else if q = .next lock.addr then front l else k.read q := by
      rw [read_setNext, read_setNext, hnext]
    rw [← hq', ← read_setEnd k₁ e.addr (lock.start - 1)]
    refine r4 q fun w hw => hC.link_ne (links_mono ?_ hq) w (by simp [show w ∈ e.waiters from hw])
    intro a
    simp
    grind
  refine ⟨Repr.replace pre [e] l [e.cutFront lock, lock] hR ?_
    rfl rfl (fun q hq hq' hm => ?_) ⟨?_, ?_, ?_⟩,
    (((f1.trans hC f2).trans hC f3).trans hC f4).perm hp.symm hp₂⟩
  · simpa using c4.perm hp₂
  · rw [hread q (links_mono (by intro a; simp; grind) hq), if_neg (hm e (by simp)),
      if_neg (hne q hq)]
  · rw [hread _ (links_mono (by intro a; simp; grind) hb), if_neg hbe, if_neg (hne _ hb)]
    exact hR.read_behind
  · show Kern.read _ (.next e.addr) = _
    rw [hread _ (by simp [links]), if_pos rfl]
  · show Kern.read _ (.next lock.addr) = _
    rw [hread _ (by simp [links]), if_neg, if_pos rfl]
    exact fun h => hne (.next e.addr) (by simp [links]) h.symm

/-- The loop of `lf_setlock` computes `setEntries`. -/
theorem setlockLoop_refines {lock : Entry} (pre : List Entry) (hR : Repr k f (pre ++ suf) [lock])
    (hf : Fits lock suf)
    (hws : lock.waiters = []) (hn : suf.length < n) :
    ∃ k', setlockLoop lock.addr n k (front suf) (behind f pre) true = .ok k' ∧
      Repr k' f (pre ++ setEntries lock k.brk suf) [] ∧
      Frame k (pre ++ suf ++ [lock]) k' (pre ++ setEntries lock k.brk suf) := by
  induction suf generalizing pre n with
  | nil =>
    obtain ⟨n, rfl⟩ : ∃ n', n = n' + 1 := ⟨n - 1, by simp at hn; omega⟩
    obtain ⟨hR', hF⟩ := hR.link
    exact ⟨_, rfl, hR', hF⟩
  | cons e l ih =>
    rw [length_cons] at hn
    obtain ⟨n, rfl⟩ : ∃ n', n = n' + 1 := ⟨n - 1, by omega⟩
    have hA : Along k f (e :: l) := hR.along.suffix
    have hlen := hR.length_le
    simp only [length_append, length_cons] at hlen
    have hcl := hR.cells.cell lock (by simp)
    have hce := hA.1 e (by simp)
    rcases skip_or_stop_or_hit (hf.sorted.valid e (by simp)) hf.valid with h | h | ⟨c, h⟩
    · have hlist : pre ++ e :: l = pre ++ [e] ++ l := by simp
      rw [hlist] at hR
      have := ih _ hR hf.tail (n := n + 1) (by omega)
      rw [behind_concat] at this
      rw [front_cons, setlockLoop_skip hA hcl h (by omega), setEntries_skip h, hlist]
      simpa using this
    · obtain ⟨hR', hF⟩ := hR.link
      rw [front_cons, setlockLoop, lfFindoverlap_stop hA hcl h, setEntries_stop h]
      exact ⟨_, rfl, hR', hF⟩
    · rw [front_cons, setlockLoop, lfFindoverlap_hit hA hcl h, setEntries_hit h]
      dsimp only
      cases c with
      | equal =>
        obtain ⟨hR', hF⟩ := hR.setEqual hws
        rw [hcl.typ, hce.typ]; exact ⟨_, rfl, hR', hF⟩
      | contains =>
        rw [hcl.typ, hce.typ, hcl.start, hce.start]
        dsimp only
        by_cases ht : e.typ = lock.typ
        · obtain ⟨hR', hF⟩ := hR.drop hws
          rw [if_pos ht, if_pos ht]; exact ⟨_, rfl, hR', hF⟩
        rw [if_neg ht, if_neg ht]
        by_cases hs : e.start = lock.start
        · obtain ⟨hR', hF⟩ := hR.linkCut
          rw [if_pos hs, if_pos hs]; exact ⟨_, rfl, hR', hF⟩
        rw [if_neg hs, if_neg hs]
        by_cases he : e.end' = lock.end'
        · obtain ⟨hR', hF⟩ := hR.splitTwo hs he
          rw [if_pos he]; exact ⟨_, rfl, hR', hF⟩
        · obtain ⟨hR', hF⟩ := hR.splitThree hs he
          rw [if_neg he]; exact ⟨_, rfl, hR', hF⟩
      | contained =>
        have hs := startsAfter_of_hit hf h
        obtain ⟨hR', hF⟩ := hR.takePlace
        obtain ⟨k', hk', hR'', hF'⟩ := setlockLoop_linked pre [] l
          (n := n) (by simpa using hR') (hf.tail.plus _) (hs.plus _) (by omega)
        rw [behind_concat, ← hA.next] at hk'
        dsimp only
        rw [hcl.typ, hce.typ, if_pos rfl]
        simp only [trimEntries_plus, Entry.plus_plus] at hR'' hF'
        have hlock : lock.plus (e.staying lock ++ (trimEntries lock l).1) =
            { lock with waiters := e.staying lock ++ (trimEntries lock l).1 } := by
          simp [Entry.plus, hws]
        rw [hlock] at hR'' hF'
        exact ⟨k', hk', by simpa using hR'', hF.trans hR.cells (by simpa using hF')⟩
      | startsBefore =>
        have hs := startsAfter_of_hit hf h
        obtain ⟨hR', hF⟩ := hR.putBehind
        obtain ⟨k', hk', hR'', hF'⟩ := setlockLoop_linked (pre ++ [e.cutFront lock])
          [] l (n := n) (by simpa using hR') hf.tail hs (by omega)
        rw [behind_concat, ← hA.next] at hk'
        have hlock : lock.plus (trimEntries lock l).1 =
            { lock with waiters := (trimEntries lock l).1 } := by
          simp [Entry.plus, hws]
        rw [hlock] at hR'' hF'
        exact ⟨k', hk', by simpa using hR'', hF.trans hR.cells (by simpa using hF')⟩
      | endsAfter =>
        obtain ⟨hR', hF⟩ := hR.linkCut
        exact ⟨_, rfl, hR', hF⟩

/-! ## Removing a lock -/

theorem lfWakelock_brk (k : Kern) (a : ℕ) : (lfWakelock k a).brk = k.brk :=
  (foldl_wakeOne (k.blkhd a) (k.setBlkhd a [])).2.2.2.2.2.1

theorem Repr.wake (hR : Repr k f (pre ++ e :: l) x) :
    Repr (lfWakelock k e.addr) f (pre ++ e.awake :: l) x ∧
      Frame k (pre ++ e :: l ++ x) (lfWakelock k e.addr) (pre ++ e.awake :: l ++ x) := by
  have hC := hR.cells.perm (perm_pick e pre l x)
  obtain ⟨c1, f1, r1⟩ := hC.wake
  refine ⟨hR.same (c1.perm (perm_pick _ pre l x).symm) (by simp) fun q hq => ?_,
    f1.perm (perm_pick e pre l x).symm (perm_pick _ pre l x).symm⟩
  exact r1 q fun w hw => hC.link_ne (links_mono (by intro a; simp; grind) hq) w (by simp [hw])

theorem Repr.setStart (hR : Repr k f (pre ++ e :: l) x) (v : ℤ) :
    Repr (k.setStart e.addr v) f (pre ++ { e with start := wrap v } :: l) x ∧
      Frame k (pre ++ e :: l ++ x) (k.setStart e.addr v)
        (pre ++ { e with start := wrap v } :: l ++ x) := by
  obtain ⟨c1, f1⟩ := (hR.cells.perm (perm_pick e pre l x)).setStart v
  exact ⟨hR.same (c1.perm (perm_pick _ pre l x).symm) (by simp) fun q _ => read_setStart k _ v q,
    f1.perm (perm_pick e pre l x).symm (perm_pick _ pre l x).symm⟩

theorem Repr.setEnd (hR : Repr k f (pre ++ e :: l) x) (v : ℤ) :
    Repr (k.setEnd e.addr v) f (pre ++ { e with end' := wrap v } :: l) x ∧
      Frame k (pre ++ e :: l ++ x) (k.setEnd e.addr v)
        (pre ++ { e with end' := wrap v } :: l ++ x) := by
  obtain ⟨c1, f1⟩ := (hR.cells.perm (perm_pick e pre l x)).setEnd v
  exact ⟨hR.same (c1.perm (perm_pick _ pre l x).symm) (by simp) fun q _ => read_setEnd k _ v q,
    f1.perm (perm_pick e pre l x).symm (perm_pick _ pre l x).symm⟩

/-- An entry is taken off the list and freed. -/
theorem Repr.unlink (hR : Repr k f (pre ++ e :: l) x) (hws : e.waiters = []) :
    let k' := (k.write (behind f pre) (k.lockf e.addr).lfNext).free e.addr
    Repr k' f (pre ++ l) x ∧ Frame k (pre ++ e :: l ++ x) k' (pre ++ l ++ x) := by
  intro k'
  have hp := perm_pick e pre l x
  have hC := hR.cells.perm hp
  have hnext : (k.lockf e.addr).lfNext = front l := hR.along.suffix.next
  obtain ⟨c1, f1⟩ := hC.write (p := behind f pre) (behind_mem (by intro a; simp; grind))
    (k.lockf e.addr).lfNext
  obtain ⟨c2, f2⟩ := c1.free hws
  refine ⟨Repr.replace pre [e] l [] hR (by simpa using c2)
    rfl rfl (fun q hq hq' _ => ?_) ?_, (f1.trans hC f2).perm hp.symm (.refl _)⟩
  · rw [read_free, read_write, if_neg hq']
  · show k'.read _ = _
    rw [read_free, read_write, if_pos rfl, hnext]

/-- `lf_split` for an unlock request: the entry loses its last part, or its middle. -/
theorem Repr.cutOut {e unlock : Entry}
    (hR : Repr k f (pre ++ e :: l) [unlock]) (hws : e.waiters = [])
    (hs : e.start ≠ unlock.start) :
    let k₁ := lfSplit k e.addr unlock.addr
    let k' := k₁.setNext e.addr (k₁.lockf unlock.addr).lfNext
    let l' := if e.end' = unlock.end' then e.cutFront unlock :: l
      else e.cutFront unlock :: { e.cutBack unlock with addr := k.brk } :: l
    Repr k' f (pre ++ l') [unlock] ∧
      Frame k (pre ++ e :: l ++ [unlock]) k' (pre ++ l' ++ [unlock]) := by
  intro k₁ k' l'
  have hp := perm_pick_float e unlock pre l
  have hC := hR.cells.perm hp
  have hnext : k.read (.next e.addr) = front l := hR.along.suffix.next
  have hne := hR.float_ne unlock (by simp)
  have hb : behind f pre ∈ links f (pre ++ e :: l) := behind_mem (by simp)
  have hbe : behind f pre ≠ .next e.addr := hR.behind_ne e (by simp)
  have hfresh : ∀ a ∈ (pre ++ e :: l ++ [unlock]), a.addr ≠ k.brk := fun a ha h =>
    absurd (hR.cells.cell a ha).lt_brk (by omega)
  have hue : Link.next unlock.addr ≠ .next e.addr := fun h =>
    hne (.next e.addr) (by simp [links]) h.symm
  have hfront : { e with end' := wrap (unlock.start - 1) } = e.cutFront unlock := by
    simp [Entry.cutFront, hws]
  by_cases he : e.end' = unlock.end'
  · obtain ⟨c1, f1, r1⟩ := hC.split_two hs he
    rw [hfront] at c1 f1
    obtain ⟨c2, f2⟩ := c1.setNext (a := e.addr) (by simp [Entry.cutFront])
      (k₁.lockf unlock.addr).lfNext
    have hl' : l' = e.cutFront unlock :: l := if_pos he
    have hp₂ := (perm_pick_float (e.cutFront unlock) unlock pre l).symm
    have hu : (k₁.lockf unlock.addr).lfNext = front l := by
      rw [← hnext]; exact (r1 (.next unlock.addr)).trans (by rw [if_neg hue, if_pos rfl])
    have hread : ∀ q ∈ links f (pre ++ e :: l), k'.read q = k.read q := fun q hq => by
      rw [read_setNext, hu, r1, if_neg (hne q hq)]
      split_ifs with h
      · rw [h, hnext]
      · rfl
    rw [hl']
    exact ⟨hR.same (c2.perm hp₂) (by simp [Entry.cutFront]) hread,
      (f1.trans hC f2).perm hp.symm hp₂⟩
  · obtain ⟨c1, f1, r1⟩ := hC.split_three hs he
    rw [hfront] at c1 f1
    obtain ⟨c2, f2⟩ := c1.setNext (a := e.addr) (by simp [Entry.cutFront])
      (k₁.lockf unlock.addr).lfNext
    have hl' : l' = e.cutFront unlock :: { e.cutBack unlock with addr := k.brk } :: l := if_neg he
    have hp₂ : (e.cutFront unlock :: unlock :: { e.cutBack unlock with addr := k.brk } ::
        (pre ++ l)).Perm (pre ++ l' ++ [unlock]) := by
      rw [hl']
      refine perm_iff_count.2 fun a => ?_
      simp only [count_append, count_cons, count_nil]; omega
    have hu : (k₁.lockf unlock.addr).lfNext = some k.brk :=
      (r1 (.next unlock.addr)).trans (by rw [if_neg hue, if_pos rfl])
    have hread : ∀ q, q ≠ .next unlock.addr → k'.read q = if q = .next e.addr then some k.brk
        else if q = .next k.brk then front l else k.read q := fun q hq => by
      rw [read_setNext, hu, r1, if_neg hq, hnext]
      split_ifs <;> rfl
    have hbrk : ∀ q ∈ links f (pre ++ e :: l), q ≠ .next k.brk := by
      intro q hq heq
      subst heq
      simp only [links, mem_cons, reduceCtorEq, mem_map, Link.next.injEq,
        exists_eq_right, false_or] at hq
      obtain ⟨a, ha, heq⟩ := hq
      exact hfresh a (mem_append_left _ ha) heq
    rw [hl']
    refine ⟨Repr.replace pre [e] l
      [e.cutFront unlock, { e.cutBack unlock with addr := k.brk }] hR ?_
      rfl rfl (fun q hq hq' hm => ?_) ⟨?_, ?_, ?_⟩, ?_⟩
    · simpa [hl'] using c2.perm hp₂
    · rw [hread q (hne q hq), if_neg (hm e (by simp)), if_neg (hbrk q hq)]
    · rw [hread _ (hne _ hb), if_neg hbe, if_neg (hbrk _ hb)]; exact hR.read_behind
    · show k'.read (.next e.addr) = _
      rw [hread _ hue.symm, if_pos rfl]
    · show k'.read (.next k.brk) = _
      rw [hread, if_neg, if_pos rfl]
      · exact fun h => hfresh e (by simp) (Link.next.inj h).symm
      · exact fun h => hfresh unlock (by simp) (Link.next.inj h).symm
    · simpa [hl'] using (f1.trans hC f2).perm hp.symm hp₂

theorem clearlockLoop_skip {e unlock : Entry}
    (hA : Along k f (e :: l)) (hu : Cell k f unlock) (h : e.Skip unlock) (hlen : l.length < k.brk)
    (n : ℕ) (prev : Link) :
    clearlockLoop unlock.addr (n + 1) k (some e.addr) prev =
      clearlockLoop unlock.addr (n + 1) k (front l) (.next e.addr) := by
  rw [clearlockLoop, clearlockLoop, lfFindoverlap_skip_self hA hu h hlen]

/-- The loop of `lf_clearlock` computes `clearEntries`. -/
theorem clearlockLoop_refines {unlock : Entry} (pre : List Entry)
    (hR : Repr k f (pre ++ suf) [unlock]) (hf : FitsClear unlock suf)
    (hn : suf.length < n) :
    ∃ k', clearlockLoop unlock.addr n k (front suf) (behind f pre) = .ok k' ∧
      Repr k' f (pre ++ clearEntries unlock k.brk suf) [unlock] ∧
      Frame k (pre ++ suf ++ [unlock]) k' (pre ++ clearEntries unlock k.brk suf ++ [unlock]) := by
  induction suf generalizing k pre n with
  | nil =>
    obtain ⟨n, rfl⟩ : ∃ n', n = n' + 1 := ⟨n - 1, by simp at hn; omega⟩
    exact ⟨k, rfl, hR, Frame.refl _ _⟩
  | cons e l ih =>
    rw [length_cons] at hn
    obtain ⟨n, rfl⟩ : ∃ n', n = n' + 1 := ⟨n - 1, by omega⟩
    have hA : Along k f (e :: l) := hR.along.suffix
    have hlen := hR.length_le
    simp only [length_append, length_cons] at hlen
    have hcu := hR.cells.cell unlock (by simp)
    rcases skip_or_stop_or_hit (hf.sorted.valid e (by simp)) hf.valid with h | h | ⟨c, h⟩
    · have hlist : pre ++ e :: l = pre ++ [e] ++ l := by simp
      rw [hlist] at hR
      have := ih _ hR hf.tail (n := n + 1) (by omega)
      rw [behind_concat] at this
      rw [front_cons, clearlockLoop_skip hA hcu h (by omega), clearEntries_skip h, hlist]
      simpa using this
    · rw [front_cons, clearlockLoop, lfFindoverlap_stop hA hcu h, clearEntries_stop h]
      exact ⟨k, rfl, hR, Frame.refl _ _⟩
    · obtain ⟨hR₁, hF₁⟩ := hR.wake
      have hbrk := lfWakelock_brk k e.addr
      have hnext : ((lfWakelock k e.addr).lockf e.addr).lfNext = front l := hR₁.along.suffix.next
      have hcu₁ := hR₁.cells.cell unlock (by simp)
      have hce₁ := hR₁.along.suffix.1 e.awake (by simp)
      rw [front_cons, clearlockLoop, lfFindoverlap_hit hA hcu h, clearEntries_hit h]
      dsimp only
      generalize lfWakelock k e.addr = k₁ at hR₁ hF₁ hbrk hnext hcu₁ hce₁ ⊢
      cases c with
      | equal =>
        obtain ⟨hR₂, hF₂⟩ := hR₁.unlink rfl
        exact ⟨_, rfl, hR₂, hF₁.trans hR.cells hF₂⟩
      | contains =>
        dsimp only
        rw [show (k₁.lockf e.addr).lfStart = e.start from hce₁.start, hcu₁.start, hcu₁.stop]
        by_cases hs : e.start = unlock.start
        · obtain ⟨hR₂, hF₂⟩ := hR₁.setStart (unlock.end' + 1)
          rw [if_pos hs, if_pos hs]; exact ⟨_, rfl, hR₂, hF₁.trans hR.cells hF₂⟩
        · obtain ⟨hR₂, hF₂⟩ := hR₁.cutOut rfl hs
          rw [if_neg hs, if_neg hs, ← hbrk]; exact ⟨_, rfl, hR₂, hF₁.trans hR.cells hF₂⟩
      | contained =>
        obtain ⟨hR₂, hF₂⟩ := hR₁.unlink rfl
        obtain ⟨k', hk', hR', hF'⟩ := ih _ hR₂ hf.tail (n := n) (by omega)
        have hbrk₂ : ((k₁.write (behind f pre) (k₁.lockf e.addr).lfNext).free e.addr).brk =
            k.brk := by
          rw [← hbrk]
          cases behind f pre <;> rfl
        dsimp only [Entry.awake_addr] at hk' hR' hF' hF₂
        rw [hbrk₂] at hR' hF'
        rw [← hnext] at hk'; exact ⟨k', hk', hR', (hF₁.trans hR.cells hF₂).trans hR.cells hF'⟩
      | startsBefore =>
        obtain ⟨hR₂, hF₂⟩ := hR₁.setEnd (unlock.start - 1)
        have hlist : ∀ l', pre ++ e.cutFront unlock :: l' = pre ++ [e.cutFront unlock] ++ l' := by
          simp
        have hR₃ : Repr (k₁.setEnd e.addr (unlock.start - 1)) f
            (pre ++ [e.cutFront unlock] ++ l) [unlock] := hlist l ▸ hR₂
        obtain ⟨k', hk', hR', hF'⟩ := ih _ hR₃ hf.tail (n := n) (by omega)
        rw [behind_concat, ← hnext] at hk'
        dsimp only
        rw [hcu₁.start, hlist]
        rw [show (k₁.setEnd e.addr (unlock.start - 1)).brk = k.brk from hbrk] at hR' hF'
        refine ⟨k', hk', hR', (hF₁.trans hR.cells hF₂).trans hR.cells ?_⟩
        rw [← hlist, ← hlist] at hF'
        rw [← hlist]; exact hF'
      | endsAfter =>
        obtain ⟨hR₂, hF₂⟩ := hR₁.setStart (unlock.end' + 1)
        dsimp only
        rw [hcu₁.stop]; exact ⟨_, rfl, hR₂, hF₁.trans hR.cells hF₂⟩

end FreeBSD.KernLockf
