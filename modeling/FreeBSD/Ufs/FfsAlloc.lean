import FreeBSD.Ufs.FfsSubr
import FreeBSD.Lib.Runs

/-!
# Blocks and fragments of a cylinder group, `ufs/ffs/ffs_alloc.c`

A group has a map of its free fragments, and summaries of it: the wholly free blocks, the free
fragments of the other blocks, the runs of each length in them, the map of the wholly free blocks
and the runs of blocks of each length. Every call adjusts all of them.

Sizes are numbers of fragments here; `frag` of them are a block. The address of a fragment is an
`ufs2_daddr_t` of 64 bits, computed from the group and the fragment in `int`s of 32 bits. A call
reads the block of the group, which may fail (`io`).
-/

namespace FreeBSD.Ffs

open Lib.Bitmap

/-- `struct fs` (fs.h), as far as blocks go. -/
structure Fs where
  frag : ℕ
  /-- "blocks per group * fs_frag". -/
  fpg : ℕ
  ncg : ℕ
  size : ℕ
  contigsumsize : ℕ
  ipg : ℕ
  maxbpg : ℕ
  nindir : ℕ
  frag_mem : frag ∈ frags
  frag_dvd : frag ∣ fpg
  fpg_pos : 0 < fpg
  ipg_pos : 0 < ipg

/-- `struct csum`, as far as blocks go. -/
structure Csum where
  nbfree : ℤ
  nffree : ℤ
  deriving DecidableEq

/-- `struct cg`, as far as blocks go. -/
structure Cg where
  cgx : ℕ
  ndblk : ℕ
  nclusterblks : ℕ
  cs : Csum
  frsum : ℕ → ℤ
  rotor : ℕ
  frotor : ℕ
  blksfree : ℕ → BitVec 8
  clustersum : ℕ → ℤ
  clustersfree : ℕ → BitVec 8

/-- A group with what `struct fs` has about it. -/
structure Grp extends Cg where
  /-- `fs_cs(fs, cg)`. -/
  fsCs : Csum
  /-- `fs_maxcluster[cg]`. -/
  maxcluster : ℕ
  cstotal : Csum

inductive Panic
  | mapCorrupted
  | blockNotInMap
  | mapMismatch
  | outOfGroup
  | lostBlock
  | freeingFreeBlock
  | freeingFreeFrag
  /-- No panic of the source: the map is accessed outside of its bounds. -/
  | outsideMap
  deriving DecidableEq

/-! ## Addresses -/

/-- The value of an `int`. -/
def i32 (x : ℤ) : ℤ := x.bmod (2 ^ 32)

/-- `dtog` (fs.h:525). -/
def dtog (fs : Fs) (d : ℤ) : ℤ := d.tdiv fs.fpg

/-- `dtogd` (fs.h:526). -/
def dtogd (fs : Fs) (d : ℤ) : ℤ := d.tmod fs.fpg

/-- `fragnum` (fs.h:563). -/
def fragnum (fs : Fs) (fsb : ℤ) : ℤ := fsb % fs.frag

/-- `blknum` (fs.h:565). -/
def blknum (fs : Fs) (fsb : ℤ) : ℤ := fsb - fsb % fs.frag

/-- `cg * fs->fs_fpg + bno`, in `int`s. -/
def cgAddr (fs : Fs) (cg bno : ℕ) : ℤ := i32 (i32 (cg * fs.fpg) + bno)

/-- `howmany` (sys/param.h:251). -/
def howmany (x y : ℕ) : ℕ := (x + (y - 1)) / y

/-- An index of the map. -/
def mapIdx (d : ℤ) : Except Panic ℕ := if 0 ≤ d then .ok d.toNat else .error .outsideMap

/-! ## Summaries -/

/-- `l[i] += d`. -/
def addAt (l : ℕ → ℤ) (i : ℕ) (d : ℤ) : ℕ → ℤ := Function.update l i (l i + d)

/-- The largest index from `n` down to 1 with a positive count, or 0. -/
def maxPos (l : ℕ → ℤ) : ℕ → ℕ
  | 0 => 0
  | n + 1 => if l (n + 1) > 0 then n + 1 else maxPos l n

def Csum.add (cs : Csum) (nb nf : ℤ) : Csum := ⟨cs.nbfree + nb, cs.nffree + nf⟩

/-- The counts of free blocks and fragments change in all three places. -/
def Grp.addCs (g : Grp) (nb nf : ℤ) : Grp :=
  { g with cs := g.cs.add nb nf, cstotal := g.cstotal.add nb nf, fsCs := g.fsCs.add nb nf }

/-- `ffs_clusteracct` (lines 2051-2135). -/
def ffsClusteracct (fs : Fs) (g : Grp) (blkno : ℕ) (cnt : ℤ) : Grp :=
  if fs.contigsumsize = 0 then g
  else
    let freemap := if cnt > 0 then setBit g.clustersfree blkno else clrBit g.clustersfree blkno
    -- from `start` to `end`, forward and backward
    let start := blkno + 1
    let forw := countForw freemap (min (start + fs.contigsumsize) g.nclusterblks - start) start
    let back := countBack freemap (min fs.contigsumsize blkno) blkno
    let sump := addAt g.clustersum (min (back + forw + 1) fs.contigsumsize) cnt
    let sump := if back > 0 then addAt sump back (-cnt) else sump
    let sump := if forw > 0 then addAt sump forw (-cnt) else sump
    { g with
      clustersfree := freemap
      clustersum := sump
      maxcluster := maxPos sump fs.contigsumsize }

/-! ## Search -/

/-- `scanc` with the table for `allocsiz`: what is left of `n` bytes from `p` on, from the first
    one that has such a run. -/
def scanc (frag allocsiz : ℕ) (blksfree : ℕ → BitVec 8) (n p : ℕ) : ℕ :=
  scan (fun b => (fragtbl frag).getD b.toNat 0 &&& fragbit frag allocsiz != 0) blksfree n p

/-- Where the run is, in the blocks of the byte from `bno` on (lines 2026-2039). -/
def searchByte (frag allocsiz : ℕ) (blksfree : ℕ → BitVec 8) (bno : ℕ) : Option ℕ :=
  (List.range (8 / frag)).findSome? fun j =>
    let blk := blkmap frag blksfree (bno + j * frag)
    ((List.range (frag - allocsiz + 1)).find? fun pos => pattern blk allocsiz pos).map
      (bno + j * frag + ·)

/-- The byte where the search starts (lines 2001-2004). -/
def searchStart (fs : Fs) (g : Grp) (bpref : ℤ) : Except Panic ℕ :=
  if bpref ≠ 0 then mapIdx ((dtogd fs bpref).tdiv 8) else .ok (g.frotor / 8)

/-- `ffs_mapsearch` (lines 1984-2043). -/
def ffsMapsearch (fs : Fs) (g : Grp) (bpref : ℤ) (allocsiz : ℕ) : Except Panic (ℕ × Grp) := do
  let start ← searchStart fs g bpref
  let found (i : ℕ) : Except Panic (ℕ × Grp) :=
    match searchByte fs.frag allocsiz g.blksfree (i * 8) with
    | some bno => .ok (bno, { g with frotor := i * 8 })
    | none => .error .blockNotInMap
  let len := howmany fs.fpg 8 - start
  let loc := scanc fs.frag allocsiz g.blksfree len start
  if loc = 0 then
    let len := start + 1
    let loc := scanc fs.frag allocsiz g.blksfree len 0
    if loc = 0 then .error .mapCorrupted else found (len - loc)
  else found (start + len - loc)

/-! ## Allocation -/

/-- From `gotit` on (lines 1409-1420). -/
def gotit (fs : Fs) (g : Grp) (bno : ℕ) : ℤ × Grp :=
  let blkno := bno / fs.frag
  let g := { g with blksfree := ffsClrblock fs.frag g.blksfree blkno }
  let g := ffsClusteracct fs g blkno (-1)
  (cgAddr fs g.cgx bno, g.addCs (-1) 0)

/-- "Take the next available block in this cylinder group." (lines 1402-1408). -/
def nextblk (fs : Fs) (g : Grp) (bpref : ℤ) : Except Panic (ℤ × Grp) := do
  let (bno, g) ← ffsMapsearch fs g bpref fs.frag
  return gotit fs { g with rotor := bno } bno

/-- `ffs_alloccgblk` (lines 1376-1421). -/
def ffsAlloccgblk (fs : Fs) (g : Grp) (bpref : ℤ) : Except Panic (ℤ × Grp) :=
  if bpref = 0 ∨ dtog fs bpref ≠ g.cgx then nextblk fs g g.rotor
  else do
    let bpref := blknum fs bpref
    let bno ← mapIdx (dtogd fs bpref)
    if ffsIsblock fs.frag g.blksfree (bno / fs.frag) then return gotit fs g bno
    else nextblk fs g bpref

/-- The first length from `frags` on, below that of a block, of which there are runs; or that of a
    block (lines 1316-1318). -/
def allocsize (fs : Fs) (frsum : ℕ → ℤ) (frags : ℕ) : ℕ :=
  ((List.range' frags (fs.frag - frags)).find? fun a => frsum a != 0).getD fs.frag

/-- A block has been allocated; "hacked up", its end is put back (lines 1328-1340). -/
def hackup (fs : Fs) (g : Grp) (blkno : ℤ) (frags : ℕ) : Except Panic (ℤ × Grp) := do
  let bno ← mapIdx (dtogd fs blkno)
  let i := fs.frag - frags
  let g := { g with
    blksfree := setBits g.blksfree (bno + frags) i
    frsum := addAt g.frsum i 1 }
  return (blkno, g.addCs 0 i)

/-- `ffs_alloccg` (lines 1269-1363). -/
def ffsAlloccg (fs : Fs) (cg : ℕ) (g : Grp) (bpref : ℤ) (size : ℕ) (io : Bool) :
    Except Panic (ℤ × Grp) :=
  if g.fsCs.nbfree = 0 ∧ size = fs.frag then .ok (0, g)
  else if ¬io ∨ g.cs.nbfree = 0 ∧ size = fs.frag then .ok (0, g)
  else if size = fs.frag then ffsAlloccgblk fs g bpref
  else
    let frags := size
    let allocsiz := allocsize fs g.frsum frags
    if allocsiz = fs.frag then
      if g.cs.nbfree = 0 then .ok (0, g)
      else do
        let (blkno, g) ← ffsAlloccgblk fs g bpref
        hackup fs g blkno frags
    else do
      let (bno, g) ← ffsMapsearch fs g bpref allocsiz
      let frsum := addAt g.frsum allocsiz (-1)
      let g := { g with
        blksfree := clrBits g.blksfree bno frags
        frsum := if frags ≠ allocsiz then addAt frsum (allocsiz - frags) 1 else frsum }
      return (cgAddr fs cg bno, g.addCs 0 (-frags))

/-- `ffs_fragextend` (lines 1192-1260). -/
def ffsFragextend (fs : Fs) (g : Grp) (bprev : ℤ) (osize nsize : ℕ) (io : Bool) :
    Except Panic (ℤ × Grp) :=
  if g.fsCs.nffree < nsize - osize then .ok (0, g)
  else
    let frags := nsize
    let bbase := fragnum fs bprev
    if bbase > fragnum fs (bprev + frags - 1) then .ok (0, g)
    else if ¬io then .ok (0, g)
    else do
      let bno ← mapIdx (dtogd fs bprev)
      if (List.range' osize (frags - osize)).any fun i => isClr g.blksfree (bno + i) then
        return (0, g)
      else
        -- the first fragment behind the extended ones that is not free
        let i := frags + countForw g.blksfree (fs.frag - bbase.toNat - frags) (bno + frags)
        let frsum := addAt g.frsum (i - osize) (-1)
        let g := { g with
          blksfree := clrBits g.blksfree (bno + osize) (frags - osize)
          frsum := if i ≠ frags then addAt frsum (i - frags) 1 else frsum }
        return (bprev, g.addCs 0 (-(frags - osize : ℕ)))

/-! ## Clusters -/

/-- The last block of the first run of `len` free blocks, from `got` on, where `run` blocks have
    been seen to be free (lines 1495-1512). -/
def findCluster (mapp : ℕ → BitVec 8) (len : ℕ) : ℕ → ℕ → ℕ → Option ℕ
  | 0, _, _ => none
  | n + 1, got, run =>
    if bit mapp got then
      if run + 1 = len then some got else findCluster mapp len n (got + 1) (run + 1)
    else findCluster mapp len n (got + 1) 0

/-- The blocks of the cluster are allocated one by one (lines 1525-1527). -/
def allocCluster (fs : Fs) : ℕ → Grp → ℤ → Except Panic Grp
  | 0, g, _ => .ok g
  | n + 1, g, bno => do
    let (blkno, g) ← ffsAlloccgblk fs g bno
    if blkno ≠ bno then .error .lostBlock else allocCluster fs n g (bno + fs.frag)

/-- The block where the search starts (lines 1488-1491). -/
def clusterStart (fs : Fs) (cg : ℕ) (bpref : ℤ) : Except Panic ℕ :=
  if dtog fs bpref ≠ cg then .ok 0 else (mapIdx (dtogd fs (blknum fs bpref))).map (· / fs.frag)

/-- `ffs_clusteralloc` (lines 1430-1535). -/
def ffsClusteralloc (fs : Fs) (cg : ℕ) (g : Grp) (bpref : ℤ) (len : ℕ) (io : Bool) :
    Except Panic (ℤ × Grp) :=
  if g.maxcluster < len then .ok (0, g)
  else if ¬io then .ok (0, g)
  else if ¬(List.range' len (fs.contigsumsize + 1 - len)).any fun i => g.clustersum i > 0 then
    .ok (0, { g with maxcluster := maxPos g.clustersum (len - 1) })
  else do
    let blk ← clusterStart fs cg bpref
    match findCluster g.clustersfree len (g.nclusterblks - blk) blk 0 with
    | none => return (0, g)
    | some got =>
      let first := got + 1 - len
      if ¬(List.range len).all fun i => ffsIsblock fs.frag g.blksfree (first + i) then
        .error .mapMismatch
      else
        let bno := cgAddr fs cg (first * fs.frag)
        if dtog fs bno ≠ cg then .error .outOfGroup
        else
          let g ← allocCluster fs len g bno
          return (bno, g)

/-! ## Deallocation -/

/-- The fragments are put into the map (lines 1763-1774). -/
def freeFrags (blksfree : ℕ → BitVec 8) : ℕ → ℕ → Except Panic (ℕ → BitVec 8)
  | 0, _ => .ok blksfree
  | n + 1, cgbno =>
    if bit blksfree cgbno then .error .freeingFreeFrag
    else freeFrags (setBit blksfree cgbno) n (cgbno + 1)

/-- `ffs_blkfree` (lines 1675-1800) on the disk itself, from the range check on; `g` is the group
    `dtog(fs, bno)`. -/
def ffsBlkfree (fs : Fs) (g : Grp) (bno : ℤ) (size : ℕ) (io : Bool) : Except Panic Grp :=
  if bno % 2 ^ 32 ≥ fs.size then .ok g
  else if ¬io then .ok g
  else do
    let cgbno ← mapIdx (dtogd fs bno)
    if size = fs.frag then
      let fragno := cgbno / fs.frag
      if ¬ffsIsfreeblock fs.frag g.blksfree fragno then .error .freeingFreeBlock
      else
        let g := { g with blksfree := ffsSetblock fs.frag g.blksfree fragno }
        return (ffsClusteracct fs g fragno 1).addCs 1 0
    else
      let bbase := cgbno - cgbno % fs.frag
      let frsum := ffsFragacct fs.frag (blkmap fs.frag g.blksfree bbase) g.frsum (-1)
      let blksfree ← freeFrags g.blksfree size cgbno
      let frsum := ffsFragacct fs.frag (blkmap fs.frag blksfree bbase) frsum 1
      let g := ({ g with blksfree := blksfree, frsum := frsum } : Grp).addCs 0 size
      let fragno := bbase / fs.frag
      -- a complete block has been reassembled
      if ffsIsblock fs.frag blksfree fragno then
        return (ffsClusteracct fs (g.addCs 0 (-fs.frag)) fragno 1).addCs 1 0
      else return g

/-! ## Machine -/

inductive Op
  | alloccg (bpref : ℤ) (size : ℕ) (io : Bool)
  | clusteralloc (bpref : ℤ) (len : ℕ) (io : Bool)
  | fragextend (bprev : ℤ) (osize nsize : ℕ) (io : Bool)
  | blkfree (bno : ℤ) (size : ℕ) (io : Bool)

/-- A call for the group `cg`. -/
def call (fs : Fs) (cg : ℕ) (g : Grp) : Op → Except Panic (ℤ × Grp)
  | .alloccg bpref size io => ffsAlloccg fs cg g bpref size io
  | .clusteralloc bpref len io => ffsClusteralloc fs cg g bpref len io
  | .fragextend bprev osize nsize io => ffsFragextend fs g bprev osize nsize io
  | .blkfree bno size io => (ffsBlkfree fs g bno size io).map fun g => (0, g)

/-- A call that does not panic. -/
def step (fs : Fs) (cg : ℕ) (g : Grp) (op : Op) : Option (Grp × ℤ) :=
  match call fs cg g op with
  | .ok (bno, g) => some (g, bno)
  | .error _ => none

end FreeBSD.Ffs
