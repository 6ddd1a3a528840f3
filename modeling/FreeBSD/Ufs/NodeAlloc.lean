import FreeBSD.Lib.Bitmap
import FreeBSD.Lib.Runs

/-!
# Inodes of a cylinder group, `ufs/ffs/ffs_alloc.c`

`ffs_nodealloccg` takes the preferred inode if it is free, or else the first free inode from the
byte of the rotor on, and then from the front. On UFS2 the blocks of the inodes are initialised one
after another: when an inode near the end of the initialised part is taken, the next block is.
`ffs_freefile` gives an inode back, and moves the rotor back to it.

Each call reads the cylinder group, which may fail. A panic is `none`.
-/

namespace FreeBSD.NodeAlloc

open Lib.Bitmap

/-- `struct fs` (ufs/ffs/fs.h), as far as the inodes go. -/
structure Fs where
  ipg : ℕ
  ncg : ℕ
  inopb : ℕ
  ufs2 : Bool
  ronly : Bool

/-- `struct csum`, as far as the inodes go. -/
structure Csum where
  nifree : ℤ
  ndir : ℤ
  deriving DecidableEq

/-- `struct cg`, as far as the inodes go. -/
structure Cg where
  inosused : ℕ → BitVec 8
  irotor : ℕ
  cs : Csum
  initediblk : ℕ
  niblk : ℕ

structure State where
  cgp : Cg
  /-- `fs_cs(fs, cg)`. -/
  cs : Csum
  cstotal : Csum
  /-- Which inodes are directories, as their modes say. -/
  dir : ℕ → Bool

/-! ## Allocation -/

/-- `howmany` (sys/param.h:251). -/
def howmany (x y : ℕ) : ℕ := (x + (y - 1)) / y

/-- The free inode that is found from the rotor on, or from the front (lines 1583-1607). -/
def search (fs : Fs) (cgp : Cg) : Option ℕ :=
  let start := cgp.irotor / 8
  let len := howmany (fs.ipg - cgp.irotor) 8
  let loc := skipByte 0xff#8 cgp.inosused len start
  let found (i : ℕ) : Option ℕ := (firstClear (cgp.inosused i)).map (i * 8 + ·)
  if loc = 0 then
    let len := start + 1
    let loc := skipByte 0xff#8 cgp.inosused len 0
    if loc = 0 then none else found (len - loc)
  else found (start + len - loc)

def Csum.alloc (cs : Csum) (isdir : Bool) : Csum :=
  ⟨cs.nifree - 1, if isdir then cs.ndir + 1 else cs.ndir⟩

def Csum.free (cs : Csum) (isdir : Bool) : Csum :=
  ⟨cs.nifree + 1, if isdir then cs.ndir - 1 else cs.ndir⟩

/-- From `gotit` on (lines 1609-1640). -/
def gotit (fs : Fs) (s : State) (ipref : ℕ) (isdir : Bool) : State where
  cgp := { s.cgp with
    inosused := setBit s.cgp.inosused ipref
    cs := s.cgp.cs.alloc isdir
    initediblk :=
      if fs.ufs2 ∧ ipref + fs.inopb > s.cgp.initediblk ∧ s.cgp.initediblk < s.cgp.niblk then
        s.cgp.initediblk + fs.inopb
      else s.cgp.initediblk }
  cs := s.cs.alloc isdir
  cstotal := s.cstotal.alloc isdir
  dir := Function.update s.dir ipref isdir

/-- `ffs_nodealloccg` (lines 1547-1644); `io` says that the group is read and has its magic. -/
def ffsNodealloccg (fs : Fs) (cg : ℕ) (s : State) (ipref : ℕ) (isdir io : Bool) :
    Option (State × ℕ) :=
  if s.cs.nifree = 0 then some (s, 0)
  else if ¬io then some (s, 0)
  else if s.cgp.cs.nifree = 0 then some (s, 0)
  else if ipref ≠ 0 ∧ isClr s.cgp.inosused (ipref % fs.ipg) then
    some (gotit fs s (ipref % fs.ipg) isdir, cg * fs.ipg + ipref % fs.ipg)
  else
    match search fs s.cgp with
    | none => none
    | some i =>
      some (gotit fs { s with cgp := { s.cgp with irotor := i } } i isdir, cg * fs.ipg + i)

/-! ## Deallocation -/

/-- `ffs_freefile` (lines 1873-1935). -/
def ffsFreefile (fs : Fs) (s : State) (ino : ℕ) (isdir io : Bool) : Option (State × ℕ) :=
  if ino ≥ fs.ipg * fs.ncg then none
  else if ¬io then some (s, 0)
  else
    let i := ino % fs.ipg
    if isClr s.cgp.inosused i ∧ ¬fs.ronly then none
    else
      some ({ s with
        cgp := { s.cgp with
          inosused := clrBit s.cgp.inosused i
          irotor := if i < s.cgp.irotor then i else s.cgp.irotor
          cs := s.cgp.cs.free isdir }
        cs := s.cs.free isdir
        cstotal := s.cstotal.free isdir }, 0)

/-! ## Machine -/

inductive Op
  | nodealloccg (ipref : ℕ) (isdir io : Bool)
  | freefile (ino : ℕ) (io : Bool)

/-- A call for the group `cg`. An inode is freed with the mode that it was allocated with. -/
def step (fs : Fs) (cg : ℕ) (s : State) : Op → Option (State × ℕ)
  | .nodealloccg ipref isdir io => ffsNodealloccg fs cg s ipref isdir io
  | .freefile ino io => ffsFreefile fs s ino (s.dir (ino % fs.ipg)) io

end FreeBSD.NodeAlloc
