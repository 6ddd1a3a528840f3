import FreeBSD.Kern.DescripInv

/-!
# Descriptor tables: runs

`fdcopy` copies the structure at one moment and the table at a later one. What it has from the first
is `fd_freefile` and `fd_knlistsize`, and neither is read again: a descriptor that was closed
between makes the hint of the copy wrong, and a kqueue that was made between stays in the copy.

Results:
* `copy_stale`: the copy of a table in which a descriptor was closed meanwhile.
* `descriptors_of_run`: the tables and the answers in every run in which the copies are fresh.
-/

namespace FreeBSD.KernDescrip

open Lib Function Option

variable {s s' : State} {fdp : Filedesc} {t td lim : ℕ} {k : Caller} {r : Answer}

/-! ## What a step has to do -/

/-- What a call is for: the lowest free descriptor from `min` on, or a fixed one. -/
inductive Kind
  | lowest (min : ℕ)
  | fixed (new : ℕ)
  deriving DecidableEq

/-- The call answers the lowest free descriptor, or leaves the files of the others. -/
def Kind.Meets (fdp fdp' : Filedesc) (r : Answer) : Kind → Prop
  | .lowest min => ∀ fd, r = .fd fd → Lowest fdp min fd
  | .fixed new => ∀ j, j ≠ new → fdp'.fd_ofiles j = fdp.fd_ofiles j

/-- `dup2`, or `dup` and `F_DUPFD`. -/
def dupKind : Bool → ℕ → Kind
  | true, new => .fixed new
  | false, new => .lowest new

def Caller.kind : Caller → Kind
  | .falloc _ => .lowest 0
  | .dup fixed _ new _ => dupKind fixed new

/-- The call that a thread is in, and its table. -/
def Pc.call : Pc → Option (ℕ × Kind)
  | .alloc t k _ => some (t, k.kind)
  | .again t k => some (t, k.kind)
  | _ => none

/-- The call that an event is a step of. -/
def callOf (s : State) (e : Event) : Option (ℕ × Kind) :=
  match e.op with
  | .falloc t _ => some (t, .lowest 0)
  | .dup t fixed _ new => some (t, dupKind fixed new)
  | .go _ => (s.pc e.td).call
  | _ => none

/-- A step of a call does what the call is for, and leaves the other tables. -/
def Answered (s : State) (e : Event) (s' : State) (r : Answer) : Prop :=
  ∀ t kind, callOf s e = some (t, kind) → ∀ fdp, s.table t = some fdp →
    ∃ fdp', s'.table t = some fdp' ∧ kind.Meets fdp fdp' r ∧ ∀ u, u ≠ t → s'.table u = s.table u

/-- The table that a thread copies. -/
def Pc.source : Pc → Option ℕ
  | .forkRead t _ => some t
  | .forkTable t _ _ => some t
  | _ => none

/-- A copy that is through has the files that its table has now, but the kqueues. -/
def CopiedNow (s : State) (e : Event) (s' : State) (r : Answer) : Prop :=
  ∀ c, r = .child c → ∃ t fdp new, (s.pc e.td).source = some t ∧ s.table t = some fdp ∧
    s'.table c = some new ∧ Copied s.kqueue fdp new

/-- What every step has to keep. -/
structure Kept (s : State) (e : Event) (s' : State) (r : Answer) : Prop where
  right : ∀ t fdp, s'.table t = some fdp → Right fdp
  answered : Answered s e s' r
  copied : CopiedNow s e s' r

/-- The step gets a copy through only if what the copy has from before is fresh. -/
def CopyFits (s : State) (e : Event) : Prop :=
  match e.op, s.pc e.td with
  | .go _, .forkRead t head =>
    ∀ fdp, s.table t = some fdp → fdp.fd_lastfile < ndfile → Fresh s.kqueue fdp head
  | .go _, .forkTable t head i =>
    ∀ fdp, s.table t = some fdp → i = copySize fdp → Fresh s.kqueue fdp head
  | _, _ => True

/-! ## The invariant -/

/-- The memory that a thread has allocated is for a table of a size that tables have. -/
def PcOk : Pc → Prop
  | .alloc _ _ n => Size n
  | _ => True

structure Inv (s : State) : Prop where
  tables : ∀ t fdp, s.table t = some fdp → Sound fdp
  pcs : ∀ td, PcOk (s.pc td)

theorem Inv.setPc (h : Inv s) (pc : Pc) (hpc : PcOk pc) (td : ℕ) : Inv (s.setPc td pc) where
  tables := h.tables
  pcs u := by
    by_cases hu : u = td
    · subst hu
      rw [show (s.setPc u pc).pc u = pc from update_self ..]; exact hpc
    · rw [show (s.setPc td pc).pc u = s.pc u from update_of_ne hu ..]; exact h.pcs u

theorem Inv.setTable (h : Inv s) (hfdp : Sound fdp) (t : ℕ) : Inv (s.setTable t fdp) where
  tables u g hg := by
    by_cases hu : u = t
    · subst hu
      rw [show (s.setTable u fdp).table u = some fdp from update_self ..] at hg
      exact some.inj hg ▸ hfdp
    · rw [show (s.setTable t fdp).table u = s.table u from update_of_ne hu ..] at hg
      exact h.tables u g hg
  pcs := h.pcs

theorem Inv.setKqueue (h : Inv s) (kq : Fp → Bool) : Inv { s with kqueue := kq } :=
  ⟨h.tables, h.pcs⟩

/-- What a step of a call leaves: the table, and where the thread is. -/
def Leaves (s : State) (t : ℕ) (fdp : Filedesc) (kind : Kind) (x : State × Answer) : Prop :=
  Inv x.1 ∧ (∀ c, x.2 ≠ .child c) ∧ ∃ fdp', x.1.table t = some fdp' ∧ kind.Meets fdp fdp' x.2 ∧
    ∀ u, u ≠ t → x.1.table u = s.table u

theorem Inv.leaves (h : Inv s) {kind : Kind} {fdp' : Filedesc} {pc : Pc} (hfdp' : Sound fdp')
    (hpc : PcOk pc) (hr : ∀ c, r ≠ .child c) (hmeets : kind.Meets fdp fdp' r) :
    Leaves s t fdp kind ((s.setTable t fdp').setPc td pc, r) :=
  ⟨(h.setTable hfdp' t).setPc _ hpc td, hr, fdp', update_self .., hmeets,
    fun _ hu => update_of_ne hu ..⟩

/-- A step that answers no descriptor and leaves the files. -/
theorem Kind.meets_same {fdp' : Filedesc} (kind : Kind) (hr : ∀ fd, r ≠ .fd fd)
    (hfiles : fdp'.fd_ofiles = fdp.fd_ofiles) : kind.Meets fdp fdp' r := by
  cases kind with
  | lowest min => exact fun fd hfd => absurd hfd (hr fd)
  | fixed new => exact fun j _ => congrFun hfiles j

/-- What a call is for depends on the files only. -/
theorem Kind.Meets.congr {g fdp' : Filedesc} {kind : Kind} (h : kind.Meets g fdp' r)
    (hfiles : g.fd_ofiles = fdp.fd_ofiles) : kind.Meets fdp fdp' r := by
  cases kind with
  | lowest min =>
    intro fd hfd
    obtain ⟨hle, hfree, hused⟩ := h fd hfd
    exact ⟨hle, hfiles ▸ hfree, fun j hj hjfd => hfiles ▸ hused j hj hjfd⟩
  | fixed new =>
    intro j hj
    rw [← hfiles]; exact h j hj

/-! ## The calls -/

/-- The caller of `fdalloc` keeps the table and does what it is for. -/
theorem finish_spec {fdp' : Filedesc} {i : ℕ} (h : Size fdp.fd_nfiles)
    (hres : Reserved fdp fdp' k.want i) :
    Sound (k.finish fdp' i).1 ∧ (∀ c, (k.finish fdp' i).2 ≠ .child c) ∧
      k.kind.Meets fdp (k.finish fdp' i).1 (k.finish fdp' i).2 := by
  have hsize : Size fdp'.fd_nfiles := hres.nfiles ▸ h
  cases k with
  | falloc fp =>
    refine ⟨⟨hres.right.setFile _ hres.le_last, hsize⟩, fun c hc => (by cases hc), ?_⟩
    intro fd hfd; exact Answer.fd.inj hfd ▸ hres.lowest
  | dup fixed old new fp =>
    have hle : new ≤ i := hres.lowest.le
    have hlt : i < fdp'.fd_nfiles := hres.nfiles ▸ hres.lt
    cases fixed with
    | true =>
      have hd := hres.right.dupFinish old fp (hle.trans_lt hlt)
      refine ⟨⟨hd.right, hd.nfiles ▸ hsize⟩, ?_, fun j hj => ?_⟩
      · rintro c hc
        rcases hd.answer with he | he
        · exact absurd (hc.symm.trans he) (by simp)
        · exact absurd (hc.symm.trans he) (by simp)
      · rw [← hres.ofiles]; exact hd.others j hj
    | false =>
      have hd := hres.right.dupFinish old fp hlt
      refine ⟨⟨hd.right, hd.nfiles ▸ hsize⟩, ?_, fun fd hfd => ?_⟩
      · rintro c hc
        rcases hd.answer with he | he
        · exact absurd (hc.symm.trans he) (by simp)
        · exact absurd (hc.symm.trans he) (by simp)
      · rcases hd.answer with he | he
        · exact absurd (hfd.symm.trans he) (by simp)
        · exact Answer.fd.inj (hfd.symm.trans he) ▸ hres.lowest

/-- `fdalloc` and its caller keep the table and answer the lowest free descriptor. -/
theorem fdalloc_spec (td lim t : ℕ) (k : Caller) (h : Inv s) (hfdp : Sound fdp) :
    Leaves s t fdp k.kind (s.fdalloc td lim t fdp k) := by
  unfold State.fdalloc
  split
  · rename_i fdp' i hscan
    obtain ⟨hsound, hr, hmeets⟩ := finish_spec hfdp.size (scan_spec hfdp.toRight hscan)
    exact h.leaves hsound trivial hr hmeets
  · exact h.leaves hfdp trivial (fun c hc => (by cases hc))
      (Kind.meets_same _ (fun fd hfd => (by cases hfd)) rfl)
  · rename_i n hscan
    exact h.leaves hfdp (scan_expand hfdp.size hscan) (fun c hc => (by cases hc))
      (Kind.meets_same _ (fun fd hfd => (by cases hfd)) rfl)

/-- A step that leaves everything as it is. -/
theorem Inv.leaves_same (h : Inv s) (ht : s.table t = some fdp) (kind : Kind)
    (hr : ∀ c, r ≠ .child c) (hmeets : kind.Meets fdp fdp r) : Leaves s t fdp kind (s, r) :=
  ⟨h, hr, fdp, ht, hmeets, fun _ _ => rfl⟩

theorem fdallocExpand_spec (td lim : ℕ) (k : Caller) (h : Inv s) (ht : s.table t = some fdp) {n : ℕ}
    (hn : Size n) :
    Leaves s t fdp k.kind (s.fdallocExpand td lim t fdp k n) := by
  have hfdp := h.tables t fdp ht
  unfold State.fdallocExpand
  split
  · exact ⟨h.setPc (.again t k) trivial td, fun c hc => (by cases hc), fdp, ht,
      Kind.meets_same _ (fun fd hfd => (by cases hfd)) rfl, fun _ _ => rfl⟩
  · rename_i hlt
    have hbig : Sound (expanded fdp n) := hfdp.expanded (Nat.lt_of_not_le hlt) hn
    have hfiles : (expanded fdp n).fd_ofiles = fdp.fd_ofiles :=
      expanded_fd_ofiles hfdp.toRight n
    split
    · exact h.leaves hbig trivial (fun c hc => (by cases hc))
        (Kind.meets_same _ (fun fd hfd => (by cases hfd)) hfiles)
    · obtain ⟨hinv, hr, fdp', ht', hmeets, hothers⟩ :=
        fdalloc_spec td lim t k h hbig
      exact ⟨hinv, hr, fdp', ht', hmeets.congr hfiles, hothers⟩

theorem doDup_spec (td lim : ℕ) (h : Inv s) (ht : s.table t = some fdp) (fixed : Bool)
    (old new : ℕ) :
    Leaves s t fdp (dupKind fixed new) (s.doDup td lim t fdp fixed old new) := by
  have hfdp := h.tables t fdp ht
  have hbad : Leaves s t fdp (dupKind fixed new) (s, .ebadf) :=
    h.leaves_same ht _ (fun c hc => (by cases hc))
      (Kind.meets_same _ (fun fd hfd => (by cases hfd)) rfl)
  unfold State.doDup
  split
  · exact hbad
  · split
    · exact hbad
    · split
      · exact hbad
      · rename_i fp hold
        split
        · rename_i hsame
          obtain ⟨rfl, rfl⟩ := hsame
          exact h.leaves_same ht _ (fun c hc => (by cases hc)) fun _ _ => rfl
        · split
          · exact fdalloc_spec td lim t (.dup fixed old new fp) h hfdp
          · rename_i hin
            obtain ⟨hfixed, hnew⟩ := not_or.1 hin
            have hfixed : fixed = true := by simpa using hfixed
            subst hfixed
            have hd := hfdp.toRight.dupFinish old fp (Nat.lt_of_not_le hnew)
            refine ⟨h.setTable ⟨hd.right, hd.nfiles ▸ hfdp.size⟩ t, ?_, _,
              update_self .., hd.others, fun _ hu => update_of_ne hu ..⟩
            intro c hc
            rcases hd.answer with he | he
            · exact absurd (hc.symm.trans he) (by simp)
            · exact absurd (hc.symm.trans he) (by simp)

/-- `close` keeps the table. -/
theorem close_spec (h : Inv s) (hfdp : Sound fdp) (fd : ℕ) :
    Inv (s.close t fdp fd).1 ∧ ∀ c, (s.close t fdp fd).2 ≠ .child c := by
  unfold State.close
  split
  · exact ⟨h, fun c hc => (by cases hc)⟩
  · split
    · exact ⟨h, fun c hc => (by cases hc)⟩
    · refine ⟨h.setTable ⟨hfdp.toRight.close fd, ?_⟩ t, fun c hc => (by cases hc)⟩
      rw [lowerFree_fd_nfiles]; exact hfdp.size

/-! ## Copies -/

/-- A copy that is through is kept exactly if it is fresh. -/
theorem fdcopied_spec (h : Inv s) (ht : s.table t = some fdp) {child i : ℕ} {head : Head}
    (hi : fdp.fd_lastfile < i) (hsize : Size i)
    (hs : s.fdcopied td child fdp head i = some (s', r)) :
    r = .child child ∧ s'.table child = some (fdcopyFinish s.kqueue fdp head i) ∧
      (Fresh s.kqueue fdp head → Inv s') := by
  have hfdp := h.tables t fdp ht
  unfold State.fdcopied at hs
  split at hs
  · obtain ⟨rfl, rfl⟩ := Prod.ext_iff.1 (some.inj hs)
    refine ⟨rfl, update_self .., fun hfresh => ?_⟩
    refine (h.setTable ⟨((fdcopyFinish_iff _ hfdp head hi).2 hfresh).1, ?_⟩ child).setPc
      .idle trivial td
    rw [fdcopyFinish_fd_nfiles hfdp head hi]; exact hsize
  · cases hs

/-- What a step of a call leaves is kept. -/
theorem Leaves.kept {e : Event} {kind : Kind} (h : Leaves s t fdp kind (s', r))
    (ht : s.table t = some fdp) (hcall : callOf s e = some (t, kind)) :
    Inv s' ∧ Kept s e s' r := by
  obtain ⟨hinv, hr, fdp', ht', hmeets, hothers⟩ := h
  refine ⟨hinv, fun u g hg => (hinv.tables u g hg).toRight, ?_, fun c hc => absurd hc (hr c)⟩
  intro u kind' hu g hg
  rw [hcall] at hu
  obtain ⟨rfl, rfl⟩ := Prod.ext_iff.1 (some.inj hu)
  dsimp only at hg ht ht' hothers
  rw [ht] at hg
  obtain rfl := some.inj hg
  exact ⟨fdp', ht', hmeets, hothers⟩

/-- A step of another kind, which gets no copy through. -/
theorem Inv.kept {e : Event} (h : Inv s') (hcall : callOf s e = none) (hr : ∀ c, r ≠ .child c) :
    Inv s' ∧ Kept s e s' r := by
  refine ⟨h, fun u g hg => (h.tables u g hg).toRight, ?_, fun c hc => absurd hc (hr c)⟩
  intro u kind hu
  rw [hcall] at hu
  cases hu

/-- A copy that is through, and its fitness. -/
theorem fdcopied_kept {e : Event} (h : Inv s) (ht : s.table t = some fdp) {child i : ℕ}
    {head : Head} (hi : fdp.fd_lastfile < i) (hsize : Size i)
    (hs : s.fdcopied td child fdp head i = some (s', r)) (hcall : callOf s e = none)
    (hsource : (s.pc e.td).source = some t) :
    (Fresh s.kqueue fdp head → Inv s' ∧ Kept s e s' r) ∧
      (Kept s e s' r → Fresh s.kqueue fdp head) := by
  have hfdp := h.tables t fdp ht
  obtain ⟨rfl, htable, hinv⟩ := fdcopied_spec h ht hi hsize hs
  have hiff := fdcopyFinish_iff s.kqueue hfdp head hi
  constructor
  · intro hfresh
    refine ⟨hinv hfresh, fun u g hg => ((hinv hfresh).tables u g hg).toRight, ?_, ?_⟩
    · intro u kind hu
      rw [hcall] at hu
      cases hu
    · intro c hc
      obtain rfl := Answer.child.inj hc
      exact ⟨t, fdp, _, hsource, ht, htable, (hiff.2 hfresh).2⟩
  · intro hkept
    refine hiff.1 ⟨hkept.right child _ htable, ?_⟩
    obtain ⟨u, g, new, hu, hg, hnew, hcopied⟩ := hkept.copied child rfl
    rw [hsource] at hu
    obtain rfl := some.inj hu
    rw [ht] at hg
    obtain rfl := some.inj hg
    rw [htable] at hnew; exact some.inj hnew ▸ hcopied

/-- A call that gets the lock again. -/
theorem Inv.resume (h : Inv s) {child : ℕ} (hs : resume s td lim child = some (s', r)) :
    (CopyFits s ⟨td, lim, .go child⟩ → Inv s' ∧ Kept s ⟨td, lim, .go child⟩ s' r) ∧
      (Kept s ⟨td, lim, .go child⟩ s' r → CopyFits s ⟨td, lim, .go child⟩) := by
  have hpcs := h.pcs td
  unfold KernDescrip.resume at hs
  unfold CopyFits
  cases hpc : s.pc td with
  | idle =>
    rw [hpc] at hs
    cases hs
  | alloc t k n =>
    rw [hpc] at hs hpcs
    obtain ⟨fdp, ht, hx⟩ := map_eq_some_iff.1 hs
    have hleaves := fdallocExpand_spec td lim k h ht hpcs
    rw [hx] at hleaves
    have hcall : callOf s ⟨td, lim, .go child⟩ = some (t, k.kind) := by
      show (s.pc td).call = _
      rw [hpc]; rfl
    exact ⟨fun _ => hleaves.kept ht hcall, fun _ => trivial⟩
  | again t k =>
    rw [hpc] at hs
    obtain ⟨fdp, ht, hx⟩ := map_eq_some_iff.1 hs
    have hleaves := fdalloc_spec td lim t k h (h.tables t fdp ht)
    rw [hx] at hleaves
    have hcall : callOf s ⟨td, lim, .go child⟩ = some (t, k.kind) := by
      show (s.pc td).call = _
      rw [hpc]; rfl
    exact ⟨fun _ => hleaves.kept ht hcall, fun _ => trivial⟩
  | forkHead t =>
    rw [hpc] at hs
    obtain ⟨fdp, ht, hx⟩ := map_eq_some_iff.1 hs
    obtain ⟨rfl, rfl⟩ := Prod.ext_iff.1 hx
    have hcall : callOf s ⟨td, lim, .go child⟩ = none := by
      show (s.pc td).call = _
      rw [hpc]; rfl
    exact ⟨fun _ => (h.setPc (.forkRead t _) trivial td).kept hcall
      fun c hc => (by cases hc), fun _ => trivial⟩
  | forkRead t head =>
    rw [hpc] at hs
    obtain ⟨fdp, ht, hx⟩ := bind_eq_some_iff.1 hs
    have hcall : callOf s ⟨td, lim, .go child⟩ = none := by
      show (s.pc td).call = _
      rw [hpc]; rfl
    have hsource : (s.pc td).source = some t := by rw [hpc]; rfl
    unfold State.fdcopyRead at hx
    split at hx
    · rename_i hsmall
      obtain ⟨hto, hof⟩ := fdcopied_kept (e := ⟨td, lim, .go child⟩) h ht hsmall (.inl rfl) hx
        hcall hsource
      refine ⟨fun hfits => hto (hfits fdp ht hsmall), fun hkept g hg _ => ?_⟩
      rw [ht] at hg; exact some.inj hg ▸ hof hkept
    · rename_i hlarge
      obtain ⟨rfl, rfl⟩ := Prod.ext_iff.1 (some.inj hx)
      refine ⟨fun _ => (h.setPc (.forkTable t head _) trivial td).kept hcall
        fun c hc => (by cases hc), fun _ g hg hsmall => ?_⟩
      rw [ht] at hg; exact absurd hsmall (some.inj hg ▸ hlarge)
  | forkTable t head i =>
    rw [hpc] at hs
    obtain ⟨fdp, ht, hx⟩ := bind_eq_some_iff.1 hs
    have hcall : callOf s ⟨td, lim, .go child⟩ = none := by
      show (s.pc td).call = _
      rw [hpc]; rfl
    have hsource : (s.pc td).source = some t := by rw [hpc]; rfl
    unfold State.fdcopyTable at hx
    split at hx
    · rename_i hother
      obtain ⟨rfl, rfl⟩ := Prod.ext_iff.1 (some.inj hx)
      refine ⟨fun _ => (h.setPc (.forkRetry t head) trivial td).kept hcall
        fun c hc => (by cases hc), fun _ g hg hsame => ?_⟩
      rw [ht] at hg; exact absurd hsame (some.inj hg ▸ hother)
    · rename_i hsame
      have hsame : i = copySize fdp := not_not.1 hsame
      obtain ⟨hsize, hlast⟩ := copySize_spec (h.tables t fdp ht)
      obtain ⟨hto, hof⟩ := fdcopied_kept (e := ⟨td, lim, .go child⟩) h ht (hsame ▸ hlast)
        (hsame ▸ hsize) hx hcall hsource
      refine ⟨fun hfits => hto (hfits fdp ht hsame), fun hkept g hg _ => ?_⟩
      rw [ht] at hg; exact some.inj hg ▸ hof hkept
  | forkRetry t head =>
    rw [hpc] at hs
    obtain ⟨fdp, ht, hx⟩ := map_eq_some_iff.1 hs
    obtain ⟨rfl, rfl⟩ := Prod.ext_iff.1 hx
    have hcall : callOf s ⟨td, lim, .go child⟩ = none := by
      show (s.pc td).call = _
      rw [hpc]; rfl
    exact ⟨fun _ => (h.setPc (.forkTable t head _) trivial td).kept hcall
      fun c hc => (by cases hc), fun _ => trivial⟩

/-- Every step keeps the tables, a copy exactly if it is fresh. -/
theorem Inv.step (h : Inv s) {e : Event} (hs : step s e = some (s', r)) :
    (CopyFits s e → Inv s' ∧ Kept s e s' r) ∧ (Kept s e s' r → CopyFits s e) := by
  obtain ⟨td, lim, op⟩ := e
  unfold KernDescrip.step at hs
  cases op with
  | falloc t fp =>
    dsimp only at hs
    split at hs
    · obtain ⟨fdp, ht, hx⟩ := map_eq_some_iff.1 hs
      have hleaves := fdalloc_spec td lim t (.falloc fp)
        (h.setKqueue (Function.update s.kqueue fp false)) (h.tables t fdp ht)
      unfold State.falloc at hx
      rw [hx] at hleaves
      have hleaves : Leaves s t fdp (.lowest 0) (s', r) := hleaves
      exact ⟨fun _ => hleaves.kept ht rfl, fun _ => trivial⟩
    · cases hs
  | dup t fixed old new =>
    dsimp only at hs
    split at hs
    · obtain ⟨fdp, ht, hx⟩ := map_eq_some_iff.1 hs
      have hleaves := doDup_spec td lim h ht fixed old new
      rw [hx] at hleaves; exact ⟨fun _ => hleaves.kept ht rfl, fun _ => trivial⟩
    · cases hs
  | close t fd =>
    dsimp only at hs
    split at hs
    · obtain ⟨fdp, ht, hx⟩ := map_eq_some_iff.1 hs
      obtain ⟨hinv, hr⟩ := close_spec (t := t) h (h.tables t fdp ht) fd
      rw [hx] at hinv hr; exact ⟨fun _ => hinv.kept rfl hr, fun _ => trivial⟩
    · cases hs
  | fdcopy t =>
    dsimp only at hs
    split at hs
    · obtain ⟨fdp, ht, hx⟩ := map_eq_some_iff.1 hs
      obtain ⟨rfl, rfl⟩ := Prod.ext_iff.1 hx
      exact ⟨fun _ => (h.setPc (.forkHead t) trivial td).kept rfl
        fun c hc => (by cases hc), fun _ => trivial⟩
    · cases hs
  | go child => exact h.resume hs
  | kqueueFile fp =>
    obtain ⟨rfl, rfl⟩ := Prod.ext_iff.1 (some.inj hs)
    exact ⟨fun _ => (h.setKqueue _).kept rfl fun c hc => (by cases hc), fun _ => trivial⟩
  | kqueueTable t =>
    obtain ⟨fdp, ht, hx⟩ := map_eq_some_iff.1 hs
    obtain ⟨rfl, rfl⟩ := Prod.ext_iff.1 hx
    have hfdp := h.tables t fdp ht
    have hsound : Sound { fdp with fd_knlistsize := some (fdp.fd_knlistsize.getD 0) } :=
      ⟨⟨hfdp.below, hfdp.used_le, hfdp.last_lt⟩, hfdp.size⟩
    exact ⟨fun _ => (h.setTable hsound t).kept rfl fun c hc => (by cases hc), fun _ => trivial⟩

/-! ## Runs -/

/-- The tables are new ones, and no thread is in a call. -/
structure Initial (s : State) : Prop where
  table : ∀ t fdp, s.table t = some fdp → fdp = fdinit
  pc : ∀ td, s.pc td = .idle

theorem Initial.inv (h : Initial s) : Inv s where
  tables t fdp ht := h.table t fdp ht ▸ sound_fdinit
  pcs td := by
    rw [h.pc td]
    trivial

/-- In a run in which every copy is fresh, the tables are right in every state, and the next step
    keeps the tables and answers what its call is for, exactly if it gets no copy through that is
    not fresh. -/
theorem descriptors_of_run {s₀ : State} (h₀ : Initial s₀)
    (h : Runs step (fun s e => CopyFits s e) s₀ s) :
    (∀ t fdp, s.table t = some fdp → Right fdp) ∧
      ∀ e s' r, step s e = some (s', r) → (Kept s e s' r ↔ CopyFits s e) := by
  have hinv : Inv s := h.invariant h₀.inv fun s e s' r hinv hfits hs => ((hinv.step hs).1 hfits).1
  refine ⟨fun t fdp ht => (hinv.tables t fdp ht).toRight, fun e s' r hs => ?_⟩
  obtain ⟨hto, hof⟩ := hinv.step hs
  exact ⟨hof, fun hfits => (hto hfits).2⟩

/-- One table, which is new. -/
def boot : State where
  table := fun t => if t = 0 then some fdinit else none
  kqueue := fun _ => false
  pc := fun _ => .idle

theorem boot_initial : Initial boot where
  table t fdp ht := by
    unfold boot at ht
    dsimp only at ht
    split at ht
    · exact (some.inj ht).symm
    · cases ht
  pc _ := rfl

/-- A table with the descriptors 0 and 1 is copied. -/
theorem descriptors_of_run_copy : ∃ s : State, ∃ fdp, s.table 1 = some fdp ∧ Right fdp ∧
    fdp.fd_ofiles 0 = some 10 ∧ fdp.fd_ofiles 1 = some 11 := by
  obtain ⟨s, fdp, hrun, ht, h0, h1⟩ : ∃ s fdp, Runs step (fun s e => CopyFits s e) boot s ∧
      s.table 1 = some fdp ∧ fdp.fd_ofiles 0 = some 10 ∧ fdp.fd_ofiles 1 = some 11 := by
    refine ⟨_, _, (((((Runs.refl.tail (o := ⟨0, 100, .falloc 0 10⟩) trivial rfl).tail
      (o := ⟨0, 100, .falloc 0 11⟩) trivial rfl).tail (o := ⟨0, 100, .fdcopy 0⟩) trivial rfl).tail
      (o := ⟨0, 100, .go 0⟩) trivial rfl).tail (o := ⟨0, 100, .go 1⟩) ?_ rfl), rfl, rfl, rfl⟩
    rintro fdp ht -
    obtain rfl := Option.some.inj ht
    refine ⟨fun fd hfd hnone => ?_, fun _ fd hany => ?_⟩
    · have hfd : fd < 1 := hfd
      obtain rfl : fd = 0 := by omega
      cases hnone
    · obtain ⟨fp, -, hfp⟩ := (Option.any_eq_true _ _).1 hany
      have hfp : Function.update (Function.update (fun _ => false) 10 false) 11 false fp = true :=
        hfp
      simp [update_apply] at hfp
  exact ⟨s, fdp, ht, (descriptors_of_run boot_initial hrun).1 1 fdp ht, h0, h1⟩

/-- A descriptor is closed while its table is copied: the hint of the copy is too high. -/
theorem copy_stale : ¬∀ s₀ s, Initial s₀ → Runs step (fun _ _ => True) s₀ s →
    ∀ t fdp, s.table t = some fdp → Right fdp := by
  intro hall
  obtain ⟨s, hrun, hs⟩ := exists_of_exec step (P := fun _ _ => True) (s := boot)
    (f := fun s => (s.table 1).map fun fdp => (fdp.fd_freefile, fdp.fd_ofiles 0))
    (b := some (1, none))
    [⟨0, 100, .falloc 0 10⟩, ⟨0, 100, .falloc 0 11⟩, ⟨1, 100, .fdcopy 0⟩, ⟨1, 100, .go 0⟩,
      ⟨0, 100, .close 0 0⟩, ⟨1, 100, .go 1⟩] (fun _ _ _ => trivial) rfl
  obtain ⟨fdp, ht, hx⟩ := Option.map_eq_some_iff.1 hs
  obtain ⟨hfree, hnone⟩ := Prod.ext_iff.1 hx
  exact (hall boot s boot_initial hrun 1 fdp ht).below 0
    (by rw [show fdp.fd_freefile = 1 from hfree]; decide) hnone

end FreeBSD.KernDescrip
