import FreeBSD.Lib.Runs
import FreeBSD.Lib.Cursor

/-!
# The mesh of geoms, `geom/geom_subr.c`

A consumer of a geom may be attached to a provider of another. The list `geoms` is kept in
topological order and each geom has a rank: `g_attach` and `g_detach` move the geom of the consumer
to the tail and let `redo_rank` rank everything from there on, where a geom that cannot be ranked
yet is moved to the tail as well.

Geoms, consumers and providers are numbered as they are made. `redo_rank` has fuel for the turns of
its loop; it is `none` where this runs out, and a call that fails a `KASSERT` is `none` as well.
-/

namespace FreeBSD.GeomSubr

open Lib

abbrev Gid := ℕ
abbrev Cid := ℕ
abbrev Pid := ℕ

/-- What `redo_rank` and `g_attach` return. -/
inductive Errno
  | ok
  | ELOOP
  deriving DecidableEq

structure State where
  /-- `geoms`, the list of all geoms. -/
  geoms : List Gid
  rank : Gid → ℕ
  /-- `gp->consumer`. -/
  consumer : Gid → List Cid
  /-- `cp->geom`. -/
  cgeom : Cid → Gid
  /-- `cp->provider`. -/
  provider : Cid → Option Pid
  /-- `pp->geom`. -/
  pgeom : Pid → Gid
  /-- `pp->consumers`. -/
  consumers : Pid → List Cid
  ngeom : ℕ
  nconsumer : ℕ
  nprovider : ℕ

namespace State

variable (s : State)

def setRank (gp : Gid) (m : ℕ) : State := { s with rank := Function.update s.rank gp m }

/-- `TAILQ_REMOVE` and `TAILQ_INSERT_TAIL` on `geoms`. -/
def moveTail (gp : Gid) : State := { s with geoms := s.geoms.erase gp ++ [gp] }

/-- `TAILQ_NEXT(gp, geoms)`. -/
def next (gp : Gid) : Option Gid := after s.geoms gp

/-- `LIST_INSERT_HEAD(&pp->consumers, cp)` and `cp->provider = pp`. -/
def link (cp : Cid) (pp : Pid) : State :=
  { s with
    provider := Function.update s.provider cp (some pp)
    consumers := Function.update s.consumers pp (cp :: s.consumers pp) }

/-- `LIST_REMOVE(cp, consumers)` and `cp->provider = NULL`. -/
def unlink (cp : Cid) (pp : Pid) : State :=
  { s with
    provider := Function.update s.provider cp none
    consumers := Function.update s.consumers pp ((s.consumers pp).erase cp) }

end State

/-- The loop over the consumers of a geom (lines 470-480). -/
def newRank (s : State) : List Cid → ℕ → ℕ
  | [], m => m
  | cp :: cps, m =>
    match s.provider cp with
    | none => newRank s cps m
    | some pp =>
      let n := s.rank (s.pgeom pp)
      if n = 0 then 0
      else if n ≥ m then newRank s cps (n + 1)
      else newRank s cps m

/-- The loop that ranks the rest of the sequence (lines 467-496). -/
def redoLoop (gp : Gid) : ℕ → Option Gid → State → Option (Errno × State)
  | _, none, s => some (.ok, s)
  | 0, some _, _ => none
  | fuel + 1, some gp1, s =>
    let s := s.setRank gp1 0
    let m := newRank s (s.consumer gp1) 1
    let s := s.setRank gp1 m
    let gp2 := s.next gp1
    if m ≠ 0 then redoLoop gp fuel gp2 s
    else if gp = gp1 then some (.ELOOP, s)
    else redoLoop gp fuel gp2 (s.moveTail gp1)

/-- `redo_rank` (lines 449-498). -/
def redoRank (fuel : ℕ) (s : State) (gp : Gid) : Option (Errno × State) :=
  match s.next gp with
  | some gp1 => redoLoop gp fuel (some gp1) ((s.setRank gp 0).moveTail gp)
  | none => redoLoop gp fuel (some gp) s

/-- `g_attach` (lines 500-516). -/
def gAttach (fuel : ℕ) (s : State) (cp : Cid) (pp : Pid) : Option (Errno × State) :=
  if s.provider cp ≠ none then none
  else
    match redoRank fuel (s.link cp pp) (s.cgeom cp) with
    | none => none
    | some (.ok, s) => some (.ok, s)
    | some (error, s) =>
      match redoRank fuel (s.unlink cp pp) (s.cgeom cp) with
      | none => none
      | some (_, s) => some (error, s)

/-- `g_detach` (lines 518-540), of a provider that is not withering. -/
def gDetach (fuel : ℕ) (s : State) (cp : Cid) : Option State :=
  match s.provider cp with
  | none => none
  | some pp => (redoRank fuel (s.unlink cp pp) (s.cgeom cp)).map Prod.snd

/-- `g_new_geomf` (lines 203-227). -/
def gNewGeom (s : State) : State :=
  { s with
    geoms := s.ngeom :: s.geoms
    rank := Function.update s.rank s.ngeom 1
    consumer := Function.update s.consumer s.ngeom []
    ngeom := s.ngeom + 1 }

/-- `g_new_consumer` (lines 297-313). -/
def gNewConsumer (s : State) (gp : Gid) : State :=
  { s with
    cgeom := Function.update s.cgeom s.nconsumer gp
    provider := Function.update s.provider s.nconsumer none
    consumer := Function.update s.consumer gp (s.nconsumer :: s.consumer gp)
    nconsumer := s.nconsumer + 1 }

/-- `g_new_providerf` (lines 364-385). -/
def gNewProvider (s : State) (gp : Gid) : State :=
  { s with
    pgeom := Function.update s.pgeom s.nprovider gp
    consumers := Function.update s.consumers s.nprovider []
    nprovider := s.nprovider + 1 }

/-! ## Machine -/

inductive Op
  | newGeom
  | newConsumer (gp : Gid)
  | newProvider (gp : Gid)
  | attach (cp : Cid) (pp : Pid)
  | detach (cp : Cid)
  deriving DecidableEq

/-- Two turns for each geom. -/
def State.fuel (s : State) : ℕ := 2 * s.geoms.length

/-- A step, on geoms, consumers and providers that were made. -/
def step (s : State) : Op → Option (State × Errno)
  | .newGeom => some (gNewGeom s, .ok)
  | .newConsumer gp => if gp < s.ngeom then some (gNewConsumer s gp, .ok) else none
  | .newProvider gp => if gp < s.ngeom then some (gNewProvider s gp, .ok) else none
  | .attach cp pp =>
    if cp < s.nconsumer ∧ pp < s.nprovider then
      (gAttach s.fuel s cp pp).map fun p => (p.2, p.1)
    else none
  | .detach cp =>
    if cp < s.nconsumer then (gDetach s.fuel s cp).map fun s => (s, .ok) else none

/-- No geoms. -/
def init : State where
  geoms := []
  rank _ := 0
  consumer _ := []
  cgeom _ := 0
  provider _ := none
  pgeom _ := 0
  consumers _ := []
  ngeom := 0
  nconsumer := 0
  nprovider := 0

end FreeBSD.GeomSubr
