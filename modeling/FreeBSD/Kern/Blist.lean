import Mathlib.Tactic

/-!
# The bitmap allocator of the swap code

Model of `sys/kern/subr_blist.c`. The array `bl_root` is a function from
indices to nodes with its size `bl_rootblks`; an access outside it, a `panic`
and a recursion deeper than the given bound are faults. The members `bmu_avail`
and `bmu_bitmap` of the union share one field. `SWAPBLK_NONE` is `none`.

`daddr_t` and `int` are natural numbers and integers: for blists of at most
2^29 blocks nothing in this file leaves their range. `malloc` with `M_WAITOK`
does not fail; what it returns for `bl_root` has an arbitrary content.
-/

namespace FreeBSD.SubrBlist

/-! ## Data -/

/-- `BLIST_META_RADIX` and `BLIST_BMAP_RADIX` (`sys/blist.h`, lines 79–80). -/
abbrev blistMetaRadix : ℕ := 16

abbrev blistBmapRadix : ℕ := 32

/-- `blmeta_t`: `u` holds `bmu_avail` of a meta node or `bmu_bitmap` of a leaf. -/
structure Blmeta where
  u : ℤ
  bmBighint : ℤ
  deriving DecidableEq, Repr

/-- `u.bmu_bitmap`. -/
def Blmeta.bmuBitmap (s : Blmeta) : BitVec 32 := BitVec.ofInt 32 s.u

/-- `u.bmu_bitmap = x`. -/
def Blmeta.setBitmap (s : Blmeta) (x : BitVec 32) : Blmeta := { s with u := x.toNat }

/-- What can go wrong: a panic, an access outside `bl_root`, a recursion that is too deep. -/
inductive Fault where
  | panic
  | range
  | depth
  deriving DecidableEq, Repr

/-- `bl_root` with `bl_rootblks`. -/
structure Root where
  rootblks : ℕ
  node : ℕ → Blmeta

namespace Root

def read (m : Root) (i : ℕ) : Except Fault Blmeta :=
  if i < m.rootblks then .ok (m.node i) else .error .range

def write (m : Root) (i : ℕ) (x : Blmeta) : Except Fault Root :=
  if i < m.rootblks then .ok { m with node := Function.update m.node i x } else .error .range

end Root

/-- `struct blist`. -/
structure Blist where
  blBlocks : ℕ
  blRadix : ℕ
  blSkip : ℕ
  blFree : ℤ
  blRoot : Root

/-! ## Allocation -/

/-- The search for the lowest bit (lines 369–376). -/
def lowBit : ℕ → ℕ → BitVec 32 → BitVec 32 → ℕ → ℕ
  | 0, _, _, _, r => r
  | rounds + 1, j, mask, orig, r =>
    if j = 0 then r
    else if orig &&& mask = 0 then
      lowBit rounds (j / 2) (mask >>> (j / 2)) (orig >>> j) (r + j)
    else lowBit rounds (j / 2) (mask >>> (j / 2)) orig r

/-- The search for `count` bits in a row (lines 394–400). -/
def scanBits (orig : BitVec 32) : ℕ → ℕ → BitVec 32 → Option (ℕ × BitVec 32)
  | 0, _, _ => none
  | rounds + 1, j, mask =>
    if orig &&& mask = mask then some (j, mask) else scanBits orig rounds (j + 1) (mask <<< 1)

/-- `blst_leaf_alloc` (lines 342–407). -/
def blstLeafAlloc (m : Root) (scan blk count : ℕ) : Except Fault (Root × Option ℕ) := do
  let s ← m.read scan
  let orig := s.bmuBitmap
  if orig = 0 then
    let m ← m.write scan { s with bmBighint := 0 }
    .ok (m, none)
  else if count = 1 then
    let r := lowBit blistBmapRadix (blistBmapRadix / 2)
      (BitVec.allOnes 32 >>> (blistBmapRadix / 2)) orig 0
    let m ← m.write scan (s.setBitmap (orig &&& ~~~((1 : BitVec 32) <<< r)))
    .ok (m, some (blk + r))
  else
    let n := blistBmapRadix - count
    match if count ≤ blistBmapRadix then scanBits orig (n + 1) 0 (BitVec.allOnes 32 >>> n)
      else none with
    | some (j, mask) =>
      let m ← m.write scan (s.setBitmap (orig &&& ~~~mask))
      .ok (m, some (blk + j))
    | none =>
      let m ← m.write scan { s with bmBighint := count - 1 }
      .ok (m, none)

/-- The loops that initialize a sublevel (lines 444–455, 576–585 and 796–807): `leaf` and `inner`
    are what they store into the nodes up to the terminator. -/
def initLevel (leaf inner : Blmeta) (scan skip nextSkip : ℕ) : ℕ → Root → ℕ → Except Fault Root
  | 0, m, _ => .ok m
  | rounds + 1, m, i =>
    if i ≤ skip then do
      let s ← m.read (scan + i)
      if s.bmBighint = -1 then .ok m
      else
        let m ← m.write (scan + i) (if nextSkip = 1 then leaf else inner)
        initLevel leaf inner scan skip nextSkip rounds m (i + nextSkip)
    else .ok m

/-- A leaf with all blocks free, and a meta node with all `radix` blocks free. -/
def freeLeaf : Blmeta := { u := (BitVec.allOnes 32).toNat, bmBighint := blistBmapRadix }

def freeMeta (radix : ℕ) : Blmeta := { u := radix, bmBighint := radix }

/-- A node with all blocks allocated. -/
def allocatedNode : Blmeta := { u := 0, bmBighint := 0 }

/-- The initialization of the level below an ALL-FREE node (lines 437–458 and 789–812). -/
def initFree (s : Blmeta) (scan radix sub skip nextSkip : ℕ) (m : Root) : Except Fault Root :=
  if s.u = radix then initLevel freeLeaf (freeMeta sub) scan skip nextSkip skip m 1 else .ok m

/-- The search through the subnodes (lines 459–489); `sub` is the call for the node at an index
    that covers the blocks from a given one on. -/
def allocLoop (sub : Root → ℕ → ℕ → Except Fault (Root × Option ℕ))
    (scan count radix skip nextSkip : ℕ) : ℕ → Root → ℕ → ℕ → Except Fault (Root × Option ℕ)
  | 0, m, _, _ => .ok (m, none)
  | rounds + 1, m, i, blk =>
    if i ≤ skip then do
      let c ← m.read (scan + i)
      if (count : ℤ) ≤ c.bmBighint then
        let (m, r) ← sub m (scan + i) blk
        match r with
        | some b =>
          let s ← m.read scan
          let avail := s.u - count
          let m ← m.write scan
            { u := avail, bmBighint := if s.bmBighint > avail then avail else s.bmBighint }
          .ok (m, some b)
        | none =>
          allocLoop sub scan count radix skip nextSkip rounds m (i + nextSkip) (blk + radix)
      else if c.bmBighint = -1 then .ok (m, none)
      else if count > radix then .error .panic
      else allocLoop sub scan count radix skip nextSkip rounds m (i + nextSkip) (blk + radix)
    else .ok (m, none)

/-- `blst_meta_alloc` (lines 418–497). -/
def blstMetaAlloc : ℕ → Root → ℕ → ℕ → ℕ → ℕ → ℕ → Except Fault (Root × Option ℕ)
  | 0, _, _, _, _, _, _ => .error .depth
  | fuel + 1, m, scan, blk, count, radix, skip => do
    let nextSkip := skip / blistMetaRadix
    let s ← m.read scan
    if s.u = 0 then
      let m ← m.write scan { s with bmBighint := count }
      .ok (m, none)
    else
      let sub := radix / blistMetaRadix
      let m ← initFree s scan radix sub skip nextSkip m
      let (m, r) ← allocLoop
        (fun m i blk =>
          if nextSkip = 1 then blstLeafAlloc m i blk count
          else blstMetaAlloc fuel m i blk count sub (nextSkip - 1))
        scan count sub skip nextSkip skip m 1 blk
      match r with
      | some b => .ok (m, some b)
      | none =>
        let s ← m.read scan
        if s.bmBighint ≥ count then
          let m ← m.write scan { s with bmBighint := count - 1 }
          .ok (m, none)
        else .ok (m, none)

/-- `blist_alloc` (lines 221–235). -/
def blistAlloc (bl : Blist) (count : ℕ) : Except Fault (Blist × Option ℕ) := do
  let call :=
    if bl.blRadix = blistBmapRadix then blstLeafAlloc bl.blRoot 0 0 count
    else blstMetaAlloc bl.blSkip bl.blRoot 0 0 count bl.blRadix bl.blSkip
  let (m, r) ← call
  match r with
  | some b => .ok ({ bl with blRoot := m, blFree := bl.blFree - count }, some b)
  | none => .ok ({ bl with blRoot := m }, none)

/-! ## Freeing -/

/-- The mask of lines 521–522 and 747–748. -/
def rangeMask (blk count : ℕ) : BitVec 32 :=
  let n := blk % blistBmapRadix
  (BitVec.allOnes 32 <<< n) &&& (BitVec.allOnes 32 >>> (blistBmapRadix - count - n))

/-- `blst_leaf_free` (lines 504–535). -/
def blstLeafFree (m : Root) (scan blk count : ℕ) : Except Fault Root := do
  let s ← m.read scan
  let mask := rangeMask blk count
  if s.bmuBitmap &&& mask ≠ 0 then .error .panic
  else m.write scan { s.setBitmap (s.bmuBitmap ||| mask) with bmBighint := blistBmapRadix }

/-- A hint of the node that is lower than that of a subnode is raised (lines 629–630). -/
def raiseHint (m : Root) (scan i : ℕ) : Except Fault Root := do
  let s ← m.read scan
  let c ← m.read (scan + i)
  if s.bmBighint < c.bmBighint then m.write scan { s with bmBighint := c.bmBighint } else .ok m

/-- The count of the node, and the initialization of the level below an ALL-ALLOCATED one
    (lines 567–592). -/
def countFree (s : Blmeta) (scan count radix skip nextSkip : ℕ) (m : Root) : Except Fault Root :=
  if s.u = 0 then do
    let m ← m.write scan { u := count, bmBighint := count }
    if count ≠ radix then initLevel allocatedNode allocatedNode scan skip nextSkip skip m 1
    else .ok m
  else m.write scan { s with u := s.u + count }

/-- Freeing in the subnodes (lines 614–635). -/
def freeLoop (sub : Root → ℕ → ℕ → ℕ → ℕ → Except Fault Root)
    (scan radix skip nextSkip : ℕ) : ℕ → Root → ℕ → ℕ → ℕ → ℕ → Except Fault Root
  | 0, m, _, _, _, _ => .ok m
  | rounds + 1, m, i, blk, freeBlk, count =>
    if i ≤ skip ∧ blk < freeBlk + count then do
      let v := min (blk + radix - freeBlk) count
      let s ← m.read scan
      if s.bmBighint = -1 then .error .panic
      else
        let m ← sub m (scan + i) freeBlk v blk
        let m ← raiseHint m scan i
        freeLoop sub scan radix skip nextSkip rounds m (i + nextSkip) (blk + radix) (freeBlk + v)
          (count - v)
    else .ok m

/-- `blst_meta_free` (lines 548–636). -/
def blstMetaFree : ℕ → Root → ℕ → ℕ → ℕ → ℕ → ℕ → ℕ → Except Fault Root
  | 0, _, _, _, _, _, _, _ => .error .depth
  | fuel + 1, m, scan, freeBlk, count, radix, skip, blk => do
    let nextSkip := skip / blistMetaRadix
    let s ← m.read scan
    let m ← countFree s scan count radix skip nextSkip m
    let s ← m.read scan
    if s.u = radix then .ok m
    else if s.u > radix then .error .panic
    else
      let sub := radix / blistMetaRadix
      let i := (freeBlk - blk) / sub
      freeLoop
        (fun m i freeBlk v blk =>
          if nextSkip = 1 then blstLeafFree m i freeBlk v
          else blstMetaFree fuel m i freeBlk v sub (nextSkip - 1) blk)
        scan sub skip nextSkip skip m (i * nextSkip + 1) (blk + i * sub) freeBlk count

/-- `blist_free` (lines 243–253). -/
def blistFree (bl : Blist) (blkno count : ℕ) : Except Fault Blist := do
  let call :=
    if bl.blRadix = blistBmapRadix then blstLeafFree bl.blRoot 0 blkno count
    else blstMetaFree bl.blSkip bl.blRoot 0 blkno count bl.blRadix bl.blSkip 0
  let m ← call
  .ok { bl with blRoot := m, blFree := bl.blFree + count }

/-! ## Filling -/

/-- `blst_leaf_fill` (lines 740–757); the loop of lines 752–753 counts the bits. -/
def blstLeafFill (m : Root) (scan blk count : ℕ) : Except Fault (Root × ℤ) := do
  let s ← m.read scan
  let mask := rangeMask blk count
  let nblks := ((List.range 32).filter fun i => (s.bmuBitmap &&& mask).getLsbD i).length
  let m ← m.write scan (s.setBitmap (s.bmuBitmap &&& ~~~mask))
  .ok (m, nblks)

/-- Filling the subnodes (lines 818–838). -/
def fillLoop (sub : Root → ℕ → ℕ → ℕ → ℕ → Except Fault (Root × ℤ))
    (scan radix skip nextSkip : ℕ) :
    ℕ → Root → ℕ → ℕ → ℕ → ℕ → ℤ → Except Fault (Root × ℤ)
  | 0, m, _, _, _, _, nblks => .ok (m, nblks)
  | rounds + 1, m, i, blk, allocBlk, count, nblks =>
    if i ≤ skip ∧ blk < allocBlk + count then do
      let v := min (blk + radix - allocBlk) count
      let s ← m.read scan
      if s.bmBighint = -1 then .error .panic
      else
        let (m, n) ← sub m (scan + i) allocBlk v blk
        fillLoop sub scan radix skip nextSkip rounds m (i + nextSkip) (blk + radix) (allocBlk + v)
          (count - v) (nblks + n)
    else .ok (m, nblks)

/-- `blst_meta_fill` (lines 767–841). -/
def blstMetaFill : ℕ → Root → ℕ → ℕ → ℕ → ℕ → ℕ → ℕ → Except Fault (Root × ℤ)
  | 0, _, _, _, _, _, _, _ => .error .depth
  | fuel + 1, m, scan, allocBlk, count, radix, skip, blk => do
    let nextSkip := skip / blistMetaRadix
    let s ← m.read scan
    if count = radix ∨ s.u = 0 then
      let m ← m.write scan { u := 0, bmBighint := count }
      .ok (m, s.u)
    else
      let sub := radix / blistMetaRadix
      let m ← initFree s scan radix sub skip nextSkip m
      if count > sub then .error .panic
      else
        let i := (allocBlk - blk) / sub
        let (m, nblks) ← fillLoop
          (fun m i allocBlk v blk =>
            if nextSkip = 1 then blstLeafFill m i allocBlk v
            else blstMetaFill fuel m i allocBlk v sub (nextSkip - 1) blk)
          scan sub skip nextSkip skip m (i * nextSkip + 1) (blk + i * sub) allocBlk count 0
        let s ← m.read scan
        let m ← m.write scan { s with u := s.u - nblks }
        .ok (m, nblks)

/-- `blist_fill` (lines 262–277). -/
def blistFill (bl : Blist) (blkno count : ℕ) : Except Fault (Blist × ℤ) := do
  let call :=
    if bl.blRadix = blistBmapRadix then blstLeafFill bl.blRoot 0 blkno count
    else blstMetaFill bl.blSkip bl.blRoot 0 blkno count bl.blRadix bl.blSkip 0
  let (m, filled) ← call
  .ok ({ bl with blRoot := m, blFree := bl.blFree - filled }, filled)

/-! ## Creation -/

/-- A terminator (lines 912–913). -/
def putTerminator (m : Option Root) (i : ℕ) : Except Fault (Option Root) :=
  match m with
  | none => .ok none
  | some m => do
    let s ← m.read i
    let m ← m.write i { s with bmBighint := -1 }
    .ok (some m)

/-- The loop over the subnodes (lines 885–916); `sub` is the call for the node at an index that
    has a given number of blocks. The array is `none` for the call with `NULL`. -/
def radixInitLoop (sub : Option Root → ℕ → ℕ → Except Fault (Option Root × ℕ))
    (scan radix skip nextSkip : ℕ) :
    ℕ → Option Root → ℕ → ℕ → ℕ → Except Fault (Option Root × ℕ × ℕ)
  | 0, m, i, _, memindex => .ok (m, i, memindex)
  | rounds + 1, m, i, count, memindex =>
    if i ≤ skip then
      if count ≥ radix then do
        let (m, x) ← sub m (scan + i) radix
        radixInitLoop sub scan radix skip nextSkip rounds m (i + nextSkip) (count - radix) (i + x)
      else if count > 0 then do
        let (m, x) ← sub m (scan + i) count
        radixInitLoop sub scan radix skip nextSkip rounds m (i + nextSkip) 0 (i + x)
      else do
        let m ← putTerminator m (scan + i)
        .ok (m, i, memindex)
    else .ok (m, i, memindex)

/-- The first stores into a node (lines 863–879). -/
def initNode (m : Option Root) (scan : ℕ) : Except Fault (Option Root) :=
  match m with
  | none => .ok none
  | some m => do
    let m ← m.write scan { u := 0, bmBighint := 0 }
    .ok (some m)

/-- `blst_radix_init` (lines 852–920). -/
def blstRadixInit : ℕ → Option Root → ℕ → ℕ → ℕ → ℕ → Except Fault (Option Root × ℕ)
  | 0, _, _, _, _, _ => .error .depth
  | fuel + 1, m, scan, radix, skip, count => do
    let m ← initNode m scan
    if radix = blistBmapRadix then .ok (m, 0)
    else
      let sub := radix / blistMetaRadix
      let nextSkip := skip / blistMetaRadix
      let (m, i, memindex) ← radixInitLoop
        (fun m i count => blstRadixInit fuel m i sub (nextSkip - 1) count)
        scan sub skip nextSkip skip m 1 count 0
      .ok (m, if memindex < i then i else memindex)

/-- The loop of lines 178–181. -/
def createRadix (blocks : ℕ) : ℕ → ℕ → ℕ → ℕ × ℕ
  | 0, radix, skip => (radix, skip)
  | rounds + 1, radix, skip =>
    if radix < blocks then
      createRadix blocks rounds (radix * blistMetaRadix) ((skip + 1) * blistMetaRadix)
    else (radix, skip)

/-- `blist_create` (lines 166–206); `junk` is what the memory holds that `malloc` returns. -/
def blistCreate (blocks : ℕ) (junk : ℕ → Blmeta) : Except Fault Blist := do
  let (radix, skip) := createRadix blocks blocks blistBmapRadix 0
  let (_, n) ← blstRadixInit (skip + 1) none 0 radix skip blocks
  let (m, _) ← blstRadixInit (skip + 1) (some { rootblks := 1 + n, node := junk }) 0 radix skip
    blocks
  match m with
  | some m => .ok { blBlocks := blocks, blRadix := radix, blSkip := skip, blFree := 0, blRoot := m }
  | none => .error .range

/-! ## Resizing -/

/-- The loop over the bits of a leaf (lines 668–671). -/
def copyBits (v : BitVec 32) (blk count : ℕ) : ℕ → ℕ → Blist → Except Fault Blist
  | 0, _, dest => .ok dest
  | rounds + 1, i, dest =>
    if i < count then
      if v.getLsbD i then do
        let dest ← blistFree dest (blk + i) 1
        copyBits v blk count rounds (i + 1) dest
      else copyBits v blk count rounds (i + 1) dest
    else .ok dest

/-- The loop over the subnodes (lines 701–729). -/
def copyLoop (sub : ℕ → ℕ → Blist → ℕ → Except Fault Blist) (m : Root)
    (scan radix skip nextSkip : ℕ) : ℕ → ℕ → ℕ → Blist → ℕ → Except Fault Blist
  | 0, _, _, dest, _ => .ok dest
  | rounds + 1, i, blk, dest, count =>
    if count ≠ 0 ∧ i ≤ skip then do
      let c ← m.read (scan + i)
      if c.bmBighint = -1 then .ok dest
      else if count ≥ radix then
        let dest ← sub (scan + i) blk dest radix
        copyLoop sub m scan radix skip nextSkip rounds (i + nextSkip) (blk + radix) dest
          (count - radix)
      else
        let dest ← sub (scan + i) blk dest count
        copyLoop sub m scan radix skip nextSkip rounds (i + nextSkip) (blk + radix) dest 0
    else .ok dest

/-- `blst_copy` (lines 645–730). -/
def blstCopy (m : Root) : ℕ → ℕ → ℕ → ℕ → ℕ → Blist → ℕ → Except Fault Blist
  | 0, _, _, _, _, _, _ => .error .depth
  | fuel + 1, scan, blk, radix, skip, dest, count => do
    let s ← m.read scan
    if radix = blistBmapRadix then
      let v := s.bmuBitmap
      if v = BitVec.allOnes 32 then blistFree dest blk count
      else if v ≠ 0 then copyBits v blk count blistBmapRadix 0 dest
      else .ok dest
    else if s.u = 0 then .ok dest
    else if s.u = radix then
      if count < radix then blistFree dest blk count else blistFree dest blk radix
    else
      let sub := radix / blistMetaRadix
      let nextSkip := skip / blistMetaRadix
      copyLoop (fun i blk dest count => blstCopy m fuel i blk sub (nextSkip - 1) dest count)
        m scan sub skip nextSkip skip 1 blk dest count

/-- `blist_resize` (lines 287–305). -/
def blistResize (bl : Blist) (count : ℕ) (freenew : Bool) (junk : ℕ → Blmeta) :
    Except Fault Blist := do
  let newbl ← blistCreate count junk
  let count := if count > bl.blBlocks then bl.blBlocks else count
  let newbl ← blstCopy bl.blRoot (bl.blSkip + 1) 0 0 bl.blRadix bl.blSkip newbl count
  if freenew ∧ count < newbl.blBlocks then blistFree newbl count (newbl.blBlocks - count)
  else .ok newbl

end FreeBSD.SubrBlist
