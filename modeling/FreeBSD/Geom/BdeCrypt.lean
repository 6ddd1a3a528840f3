import FreeBSD.Lib.Skip

/-!
# The sectors of an encrypted disk, `geom/bde/g_bde_crypt.c`

The payload of a `gbde` device is divided into zones of `zone_cont` bytes, each followed on the disk
by a sector with the keys of its sectors. All of it is rotated by `keyoffset`, and the four lock
sectors are left out. `g_bde_map_sector` computes where a piece of a request lies, and cuts it so
that it is contiguous on the disk; `g_bde_start1` divides a request into such pieces.

Fields of the C structures have 32 or 64 bits. A division by zero or a failed `KASSERT` is `none`.
-/

namespace FreeBSD.Bde

/-- `DFLTPHYS` (sys/param.h:125). -/
def DFLTPHYS : ℕ := 64 * 1024

/-- `G_BDE_SKEYLEN`. -/
def SKEYLEN : ℕ := 16

/-- `G_BDE_MAXKEYS`. -/
def MAXKEYS : ℕ := 4

def u32 (x : ℕ) : ℕ := x % 2 ^ 32

def u64 (x : ℕ) : ℕ := x % 2 ^ 64

/-- A difference of 64 bits. -/
def sub64 (x y : ℕ) : ℕ := u64 (x + (2 ^ 64 - y))

/-- `struct g_bde_key` (geom/bde/g_bde.h), as it is stored. -/
structure Key where
  sector0 : ℕ
  sectorN : ℕ
  keyoffset : ℕ
  lsector : List ℕ
  sectorsize : ℕ

/-! ## Helper fields (`g_bde_create_geom`, g_bde.c:171-176) -/

namespace Key

variable (kp : Key)

def keysPerSector : ℕ := kp.sectorsize / SKEYLEN

def zoneCont : ℕ := u32 (kp.keysPerSector * kp.sectorsize)

def zoneWidth : ℕ := u64 (kp.zoneCont + kp.sectorsize)

def mediaWidth : ℕ := sub64 (sub64 kp.sectorN kp.sector0) (u32 (MAXKEYS * kp.sectorsize))

/-- `lsector[u] & ~(sectorsize - 1)`, where the mask has 32 bits. -/
def lockSector (l : ℕ) : ℕ := l &&& (2 ^ 32 - 1 - (kp.sectorsize - 1))

end Key

/-! ## Mapping -/

/-- `g_bde_max_sector` (lines 267-276). -/
def gBdeMaxSector (kp : Key) : ℕ := u64 (kp.mediaWidth / kp.zoneWidth * kp.zoneCont)

/-- `struct g_bde_work` (geom/bde/g_bde.h). -/
structure Work where
  offset : ℕ
  length : ℕ
  so : ℕ := 0
  kso : ℕ := 0
  ko : ℕ := 0
  deriving DecidableEq

/-- The loop over the lock sectors (lines 345-360). -/
def lockLoop (kp : Key) : List ℕ → Work → Work
  | [], wp => wp
  | l :: ls, wp =>
    let ko := kp.lockSector l
    let kso := if wp.kso ≥ ko then u64 (wp.kso + kp.sectorsize) else wp.kso
    if wp.so ≥ ko then
      -- lock sector before work packet
      lockLoop kp ls { wp with so := u64 (wp.so + kp.sectorsize), kso }
    else if u64 (wp.so + wp.length) > ko then
      -- lock sector in work packet, truncate
      lockLoop kp ls { wp with length := ko - wp.so, kso }
    else lockLoop kp ls { wp with kso }

/-- `g_bde_map_sector` (lines 302-393). -/
def gBdeMapSector (kp : Key) (wp : Work) : Option Work :=
  if kp.zoneCont = 0 ∨ kp.mediaWidth = 0 then none
  else
    let zone := u32 (wp.offset / kp.zoneCont)
    let zoff := u32 (wp.offset % kp.zoneCont)
    let ko := u32 (zoff / kp.sectorsize * SKEYLEN)
    let len := u32 (kp.zoneCont - zoff)
    let len := if len > DFLTPHYS then DFLTPHYS else len
    let length := if len < wp.length then len else wp.length
    let so := u64 (zone * kp.zoneWidth + zoff)
    let so := u64 (so + kp.keyoffset) % kp.mediaWidth
    let length := if u64 (so + length) > kp.mediaWidth then kp.mediaWidth - so else length
    let so := u64 (so + kp.sector0)
    let kso := u64 (zone * kp.zoneWidth + kp.zoneCont)
    let kso := u64 (kso + kp.keyoffset) % kp.mediaWidth
    let kso := u64 (kso + kp.sector0)
    let wp := lockLoop kp kp.lsector { offset := wp.offset, length, so, kso, ko }
    if u64 (wp.so + wp.length) ≤ kp.sectorN ∧ u64 (wp.kso + kp.sectorsize) ≤ kp.sectorN ∧
        wp.so ≥ kp.sector0 ∧ wp.kso ≥ kp.sector0 then some wp
    else none

/-! ## Requests -/

/-- What memory there is for a piece: enough, none for the piece, or none to start it. -/
inductive Memory
  | enough
  | noWork
  | noSector
  deriving DecidableEq

/-- The loop of `g_bde_start1` (g_bde_work.c:744-760): the pieces that are started, and how many
    bytes fail in the end. -/
def startLoop (kp : Key) (memory : ℕ → Memory) (offset length : ℕ) :
    ℕ → ℕ → Option (List Work × ℕ)
  | 0, _ => none
  | fuel + 1, done =>
    if done < length then
      if memory done = .noWork then some ([], length - done)
      else
        match gBdeMapSector kp { offset := offset + done, length := length - done } with
        | none => none
        | some wp =>
          let done' := done + wp.length
          if memory done = .noSector then some ([wp], length - done')
          else (startLoop kp memory offset length fuel done').map fun r => (wp :: r.1, r.2)
    else some ([], 0)

/-- `g_bde_start1` (g_bde_work.c:734-763), with as many rounds as there can be. -/
def gBdeStart1 (kp : Key) (memory : ℕ → Memory) (offset length : ℕ) : Option (List Work × ℕ) :=
  startLoop kp memory offset length (length + 1) 0

end FreeBSD.Bde
