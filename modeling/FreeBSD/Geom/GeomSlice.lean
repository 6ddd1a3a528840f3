import FreeBSD.Lib.Runs

/-!
# Access to the slices of a slicer, `geom/geom_slice.c`

A slicer geom has one consumer, attached to the provider of the medium, and a provider for each of
its slices. `g_access_rel` changes the access counts of a consumer and of its provider by deltas: it
refuses to open a provider exclusively while another consumer writes, and to write while another has
it exclusively. For the provider of a slice it then calls `g_slice_access`, which refuses the same
between slices that overlap, and opens the medium by the same deltas; while a slice is open the
consumer of the slicer has one exclusive count more.

Provider `0` is that of the medium, with the consumer `0` of the slicer and any others. What its own
access method answers is a parameter of each call. A call that fails a `KASSERT` is `none`.
-/

namespace FreeBSD.GeomSlice

abbrev Cid := ℕ
abbrev Pid := ℕ

/-- An error number. -/
abbrev Errno := ℕ

def EPERM : Errno := 1
def ENXIO : Errno := 6
def EBUSY : Errno := 16
def EINVAL : Errno := 22

/-- Reading, writing, and exclusive access. -/
inductive Mode
  | r
  | w
  | e
  deriving DecidableEq

instance : Fintype Mode := ⟨{.r, .w, .e}, fun m => by cases m <;> decide⟩

/-- The counts `acr`, `acw` and `ace`, or deltas to them. -/
abbrev Counts := Mode → ℤ

/-- `struct g_provider` (geom/geom.h), as far as access goes. -/
structure Provider where
  counts : Counts
  error : Errno
  index : ℕ
  consumers : List Cid

/-- `struct g_slice` (geom/geom_slice.h). -/
structure Slice where
  offset : ℕ
  length : ℕ
  provider : Option Pid
  deriving DecidableEq

structure State where
  provider : Pid → Provider
  /-- `cp->acr`, `cp->acw` and `cp->ace`. -/
  counts : Cid → Counts
  /-- `cp->provider`. -/
  attached : Cid → Option Pid
  nslice : ℕ
  slices : ℕ → Slice
  /-- Foot-shooting is enabled and the geom of the medium has rank 1. -/
  foot : Bool
  nprovider : ℕ
  nconsumer : ℕ

namespace State

variable (s : State)

def setProvider (p : Pid) (pp : Provider) : State :=
  { s with provider := Function.update s.provider p pp }

def setSlice (u : ℕ) (gsl : Slice) : State := { s with slices := Function.update s.slices u gsl }

/-- The counts of a consumer and of its provider change by `d`. -/
def addCounts (c : Cid) (p : Pid) (d : Counts) : State :=
  { s with
    provider := Function.update s.provider p
      { s.provider p with counts := (s.provider p).counts + d }
    counts := Function.update s.counts c (s.counts c + d) }

end State

/-! ## Access -/

/-- The access method of a geom: the error and the state after it. -/
abbrev Access := State → Pid → Counts → Option (Errno × State)

/-- The tests of `g_access_rel` (lines 607-622), where `foot` lets anything through. -/
def accessTest (foot : Bool) (pp : Provider) (cp d : Counts) : Errno :=
  let pw := pp.counts .w - cp .w
  let pe := pp.counts .e - cp .e
  if foot then 0
  else if d .e > 0 ∧ pw > 0 then EPERM
  else if d .w > 0 ∧ pe > 0 then EPERM
  else if (d .r > 0 ∨ d .w > 0 ∨ d .e > 0) ∧ pp.error ≠ 0 then pp.error
  else 0

/-- `g_access_rel` (lines 567-648). -/
def gAccessRel (access : Access) (foot : Bool) (s : State) (c : Cid) (d : Counts) :
    Option (Errno × State) :=
  match s.attached c with
  | none => none
  | some p =>
    if ∃ m, s.counts c m + d m < 0 then none
    else
      let error := accessTest foot (s.provider p) (s.counts c) d
      if error ≠ 0 then some (error, s)
      else
        match access s p d with
        | none => none
        | some (error, s) => some (error, if error = 0 then s.addCounts c p d else s)

/-- The access method of the medium answers `answer`. -/
def lower (answer : Errno) : Access := fun s _ _ => some (answer, s)

/-- The two slices have a sector in common. -/
def Slice.Overlaps (gsl gsl2 : Slice) : Prop :=
  gsl2.length ≠ 0 ∧ ¬gsl.offset + gsl.length ≤ gsl2.offset ∧ ¬gsl2.offset + gsl2.length ≤ gsl.offset

instance (gsl gsl2 : Slice) : Decidable (gsl.Overlaps gsl2) :=
  inferInstanceAs (Decidable (_ ∧ _ ∧ _))

/-- The loop over the slices (geom_slice.c:100-116). -/
def overlapLoop (s : State) (p : Pid) (d : Counts) : List ℕ → Option Errno
  | [] => some 0
  | u :: us =>
    let pp := s.provider p
    let gsl := s.slices pp.index
    let gsl2 := s.slices u
    if ¬(u ≠ pp.index ∧ gsl.Overlaps gsl2) then overlapLoop s p d us
    else
      match gsl2.provider with
      | none => none
      | some p2 =>
        if pp.counts .w + d .w > 0 ∧ (s.provider p2).counts .e > 0 then some EPERM
        else if pp.counts .e + d .e > 0 ∧ (s.provider p2).counts .w > 0 then some EPERM
        else overlapLoop s p d us

/-- The extra exclusive count of the consumer of the slicer (geom_slice.c:117-122). -/
def extra (cp d : Counts) : Counts :=
  let de := if cp .r = 0 ∧ cp .w = 0 ∧ cp .e = 0 then d .e + 1 else d .e
  let de := if cp .r + d .r = 0 ∧ cp .w + d .w = 0 ∧ cp .e + de = 1 then de - 1 else de
  Function.update d .e de

/-- `g_slice_access` (geom_slice.c:83-125). -/
def gSliceAccess (answer : Errno) : Access := fun s p d =>
  match overlapLoop s p d (List.range s.nslice) with
  | none => none
  | some error =>
    if error ≠ 0 then some (error, s)
    else gAccessRel (lower answer) s.foot s 0 (extra (s.counts 0) d)

/-- `g_access_rel` for any consumer. -/
def accessRel (answer : Errno) (s : State) (c : Cid) (d : Counts) : Option (Errno × State) :=
  if s.attached c = some 0 then gAccessRel (lower answer) s.foot s c d
  else gAccessRel (gSliceAccess answer) false s c d

/-! ## Configuration -/

/-- `g_slice_config` with `G_SLICE_CONFIG_SET` (geom_slice.c:295-371). -/
def gSliceConfig (s : State) (idx offset length : ℕ) : Errno × State :=
  if idx ≥ s.nslice then (EINVAL, s)
  else
    let gsl := s.slices idx
    let acc : ℤ :=
      match gsl.provider with
      | some p => (s.provider p).counts .r + (s.provider p).counts .w + (s.provider p).counts .e
      | none => 0
    if acc ≠ 0 ∧ length < gsl.length then (EBUSY, s)
    else if acc ≠ 0 ∧ offset ≠ gsl.offset then (EBUSY, s)
    else
      match gsl.provider with
      | some p =>
        if length = 0 then
          -- the provider is orphaned
          (0, (s.setSlice idx ⟨offset, length, none⟩).setProvider p
            { s.provider p with error := ENXIO })
        else (0, s.setSlice idx ⟨offset, length, some p⟩)
      | none =>
        if length = 0 then (0, s.setSlice idx ⟨offset, length, none⟩)
        else
          (0, { (s.setSlice idx ⟨offset, length, some s.nprovider⟩).setProvider s.nprovider
                  ⟨0, 0, idx, []⟩ with
                nprovider := s.nprovider + 1 })

/-- A new consumer is attached to a provider. -/
def gAttach (s : State) (p : Pid) : State :=
  { s.setProvider p { s.provider p with consumers := s.nconsumer :: (s.provider p).consumers } with
    counts := Function.update s.counts s.nconsumer 0
    attached := Function.update s.attached s.nconsumer (some p)
    nconsumer := s.nconsumer + 1 }

/-- A consumer that has nothing open is detached. -/
def gDetach (s : State) (c : Cid) (p : Pid) : State :=
  { s.setProvider p { s.provider p with consumers := (s.provider p).consumers.erase c } with
    attached := Function.update s.attached c none }

/-! ## Machine -/

inductive Op
  | access (c : Cid) (d : Counts) (answer : Errno)
  | config (idx offset length : ℕ)
  | attach (p : Pid)
  | detach (c : Cid)

/-- A step. The consumer `0` is left to the slicer. -/
def step (s : State) : Op → Option (State × Errno)
  | .access c d answer =>
    if c = 0 then none else (accessRel answer s c d).map fun p => (p.2, p.1)
  | .config idx offset length =>
    some ((gSliceConfig s idx offset length).2, (gSliceConfig s idx offset length).1)
  | .attach p => if p < s.nprovider then some (gAttach s p, 0) else none
  | .detach c =>
    match s.attached c with
    | none => none
    | some p => if c = 0 ∨ s.counts c ≠ 0 then none else some (gDetach s c p, 0)

/-- A slicer with closed slices, on a medium that only its consumer uses. -/
def init (nslice : ℕ) (error : Errno) (foot : Bool) : State where
  provider p := if p = 0 then ⟨0, error, 0, [0]⟩ else ⟨0, 0, 0, []⟩
  counts _ := 0
  attached c := if c = 0 then some 0 else none
  nslice
  slices _ := ⟨0, 0, none⟩
  foot
  nprovider := 1
  nconsumer := 1

end FreeBSD.GeomSlice
