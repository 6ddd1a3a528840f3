import Mathlib.Tactic

/-!
# Mbuf chains of `kern/uipc_mbuf.c`

Models of `m_copym` (lines 188–254), `m_cat` (lines 423–441), `m_adj` (lines 443–513) and
`m_pullup` (lines 523–576), with `m_free` and `m_freem` (`kern/subr_mbuf.c`, lines 1353–1404),
`m_move_pkthdr` and `m_dup_pkthdr` (lines 89–145).

A chain is the list of its mbufs along `m_next`, and NULL is the empty list. An mbuf has its
internal storage `m_dat`, or external storage (a cluster) that other mbufs may share; `Mem` are
the external buffers with their reference counts. `m_data` is an offset into the storage, and the
packet header takes the first bytes of `m_dat`, as on i386. Lengths of mbufs and the `int`
arguments that have to be non-negative are natural numbers.

The result `none` is a copy outside the storage, a dereference of NULL or a failed `KASSERT`.
-/

namespace FreeBSD.UipcMbuf

abbrev Byte := BitVec 8

/-- `MLEN`, the size of `m_dat` (`sys/mbuf.h`, line 51). -/
def mLen : ℕ := 232

/-- `MHLEN`, the size of `m_pktdat` (line 52). -/
def mhLen : ℕ := 208

/-- `M_COPYALL` (line 421). -/
def mCopyall : ℕ := 1000000000

/-- The contents of `m_dat`. -/
abbrev Dat := {d : List Byte // d.length = mLen}

def filled (b : Byte) : Dat := ⟨List.replicate mLen b, List.length_replicate⟩

/-- `struct mbuf` (lines 117–140): `pkthdr` is `m_pkthdr.len` if `M_PKTHDR` is set, `ext` the
    external buffer if `M_EXT` is set, and `data` is `m_data` from the start of the storage. -/
structure Mbuf where
  pkthdr : Option ℤ
  ext : Option ℕ
  data : ℕ
  len : ℕ
  dat : Dat
deriving DecidableEq

/-- An external buffer, with the counter that `ref_cnt` points to. -/
structure ExtBuf where
  buf : List Byte
  refCnt : ℕ
deriving DecidableEq

abbrev Mem := ℕ → Option ExtBuf

/-- The allocator: the contents of the `k`-th mbuf that is asked for, if there is one, and whether
    the packet tags can be copied. -/
structure Allocator where
  mbuf : ℕ → Option Dat
  tags : Bool

/-! ## Storage -/

def storage (mem : Mem) (m : Mbuf) : List Byte :=
  match m.ext with
  | some b => ((mem b).map ExtBuf.buf).getD []
  | none => m.dat.1

/-- The `len` bytes at `off`. -/
def readAt (s : List Byte) (off len : ℕ) : List Byte := (s.drop off).take len

/-- The bytes at `mtod(m)`. -/
def mtod (mem : Mem) (m : Mbuf) : List Byte := readAt (storage mem m) m.data m.len

/-- The bytes of a chain. -/
def bytes (mem : Mem) (ms : List Mbuf) : List Byte := ms.flatMap (mtod mem)

/-- `bcopy` to `m_dat`. -/
def bcopy (src : List Byte) (dst : Dat) (off : ℕ) : Option Dat :=
  if h : off + src.length ≤ mLen then
    some ⟨dst.1.take off ++ src ++ dst.1.drop (off + src.length), by
      have hlen := dst.2
      simp only [List.length_append, List.length_take, List.length_drop, hlen]
      omega⟩
  else none

/-! ## Allocation and release -/

/-- `MGET`; the header of `MGETHDR` is set by `m_dup_pkthdr`. -/
def mGet (dat : Dat) : Mbuf := { pkthdr := none, ext := none, data := 0, len := 0, dat := dat }

/-- `MEXT_ADD_REF`. -/
def mextAddRef (mem : Mem) (b : ℕ) : Mem :=
  Function.update mem b ((mem b).map fun e => { e with refCnt := e.refCnt + 1 })

/-- `MEXT_REM_REF`, and the release of the buffer with its last reference. -/
def mextRemRef (mem : Mem) (b : ℕ) : Mem :=
  Function.update mem b ((mem b).bind fun e =>
    if e.refCnt - 1 = 0 then none else some { e with refCnt := e.refCnt - 1 })

/-- The external storage that `m_free(mb)` leaves. -/
def mFree (mem : Mem) (mb : Mbuf) : Mem :=
  match mb.ext with
  | some b => mextRemRef mem b
  | none => mem

def mFreem (mem : Mem) (ms : List Mbuf) : Mem := ms.foldl mFree mem

/-- `m_move_pkthdr(to, from)`: `to` and `from`. -/
def mMovePkthdr (to_ from_ : Mbuf) : Mbuf × Mbuf :=
  ({ to_ with pkthdr := from_.pkthdr, data := mLen - mhLen }, { from_ with pkthdr := none })

/-- `m_dup_pkthdr(to, from, how)`, or `none` where it fails. -/
def mDupPkthdr (a : Allocator) (to_ from_ : Mbuf) : Option Mbuf :=
  if a.tags then
    some { to_ with
      pkthdr := from_.pkthdr
      data := if to_.ext.isSome then to_.data else mLen - mhLen }
  else none

/-! ## `m_copym` -/

/-- The first loop of `m_copym` (lines 200–206): the mbuf that holds the byte at `off`. -/
def mCopymSkip : List Mbuf → ℕ → Option (List Mbuf × ℕ)
  | [], off => if off > 0 then none else some ([], off)
  | m :: ms, off =>
    if off > 0 then
      if off < m.len then some (m :: ms, off) else mCopymSkip ms (off - m.len)
    else some (m :: ms, off)

/-- The header of a copied mbuf (lines 223–231). -/
def mCopymHdr (a : Allocator) (copyhdr : Bool) (off0 len : ℕ) (n m : Mbuf) : Option Mbuf :=
  if copyhdr then
    (mDupPkthdr a n m).map fun n =>
      { n with pkthdr := n.pkthdr.map fun l => if len = mCopyall then l - off0 else len }
  else some n

/-- The data of a copied mbuf (lines 232–240). -/
def mCopymData (mem : Mem) (off len : ℕ) (n m : Mbuf) : Option (Mem × Mbuf) :=
  let n := { n with len := min len (m.len - off) }
  match m.ext with
  | some b => some (mextAddRef mem b, { n with data := m.data + off, ext := some b })
  | none =>
    (bcopy (readAt m.dat.1 (m.data + off) n.len) n.dat n.data).map fun dat =>
      (mem, { n with dat := dat })

/-- The second loop of `m_copym` (lines 209–245) with the copy `top` so far, and `nospace`. -/
def mCopymLoop (a : Allocator) (off0 : ℕ) :
    ℕ → Bool → Mem → ℕ → ℕ → List Mbuf → List Mbuf → Option (Mem × List Mbuf)
  | _, _, mem, _, len, [], top =>
    if len > 0 ∧ len ≠ mCopyall then none else some (mem, top)
  | k, copyhdr, mem, off, len, m :: ms, top =>
    if len > 0 then
      match a.mbuf k with
      | none => some (mFreem mem top, [])
      | some dat =>
        match mCopymHdr a copyhdr off0 len (mGet dat) m with
        | none => some (mFreem mem (top ++ [mGet dat]), [])
        | some n =>
          match mCopymData mem off len n m with
          | none => none
          | some (mem, n) =>
            mCopymLoop a off0 (k + 1) false mem 0
              (if len ≠ mCopyall then len - n.len else len) ms (top ++ [n])
    else some (mem, top)

/-- `m_copym(m, off0, len, wait)`: the copy, NULL where there is no space. -/
def mCopym (a : Allocator) (mem : Mem) (m : List Mbuf) (off0 len : ℕ) :
    Option (Mem × List Mbuf) :=
  match m with
  | [] => none
  | m :: ms =>
    match mCopymSkip (m :: ms) off0 with
    | none => none
    | some (rest, off) =>
      mCopymLoop a off0 0 (decide (off0 = 0) && m.pkthdr.isSome) mem off len rest []

/-! ## `m_cat` -/

/-- The second loop of `m_cat` (lines 428–440), where `m` is the last mbuf. -/
def mCatLoop (mem : Mem) (m : Mbuf) : List Mbuf → Option (Mem × List Mbuf)
  | [] => some (mem, [m])
  | n :: ns =>
    if m.ext.isSome ∨ m.data + m.len + n.len ≥ mLen then
      -- just join the two chains
      some (mem, m :: n :: ns)
    else
      match bcopy (mtod mem n) m.dat (m.data + m.len) with
      | none => none
      | some dat => mCatLoop (mFree mem n) { m with dat := dat, len := m.len + n.len } ns

/-- `m_cat(m, n)`: the chain at `m` afterwards. -/
def mCat (mem : Mem) (m n : List Mbuf) : Option (Mem × List Mbuf) :=
  match m.getLast? with
  | none => none
  | some last => (mCatLoop mem last n).map fun (mem, ms) => (mem, m.dropLast ++ ms)

/-! ## `m_adj` -/

/-- The loop that trims from the head (lines 456–466): the chain and what is left of `len`. -/
def mAdjHead : List Mbuf → ℕ → List Mbuf × ℕ
  | [], len => ([], len)
  | m :: ms, len =>
    if len > 0 then
      if m.len ≤ len then
        ({ m with len := 0 } :: (mAdjHead ms (len - m.len)).1, (mAdjHead ms (len - m.len)).2)
      else ({ m with len := m.len - len, data := m.data + len } :: ms, 0)
    else (m :: ms, len)

/-- The loops that truncate the chain after `count` bytes (lines 504–511). -/
def mAdjTail : List Mbuf → ℕ → Option (List Mbuf)
  | [], _ => none
  | m :: ms, count =>
    if m.len ≥ count then
      some ({ m with len := count } :: ms.map fun m => { m with len := 0 })
    else (mAdjTail ms (count - m.len)).map (m :: ·)

/-- The packet length of the first mbuf is changed, if it has a packet header. -/
def setPkthdrLen (f : ℤ → ℤ) : List Mbuf → List Mbuf
  | [] => []
  | m :: ms => { m with pkthdr := m.pkthdr.map f } :: ms

/-- `m_adj(mp, req_len)`: the chain afterwards. -/
def mAdj (mp : List Mbuf) (req_len : ℤ) : Option (List Mbuf) :=
  if req_len ≥ 0 then
    let len := (mAdjHead mp req_len.toNat).2
    some (setPkthdrLen (fun l => l - (req_len - len)) (mAdjHead mp req_len.toNat).1)
  else
    let len := (-req_len).toNat
    match mp.getLast? with
    | none => some []
    | some m =>
      if m.len ≥ len then
        some (setPkthdrLen (fun l => l - len) (mp.dropLast ++ [{ m with len := m.len - len }]))
      else
        let count := (mp.map Mbuf.len).sum - len
        mAdjTail (setPkthdrLen (fun _ => count) mp) count

/-! ## `m_pullup` -/

/-- A round of the loop of `m_pullup` (lines 552–562): what is pulled up into `m`, the rest of the
    chain and the number of bytes. -/
def mPullupRound (max_protohdr : ℕ) (mem : Mem) (m n : Mbuf) (ns : List Mbuf) (len space : ℕ) :
    Option (Mem × Mbuf × List Mbuf × ℕ) :=
  let count := min (min (max len max_protohdr) space) n.len
  (bcopy (readAt (storage mem n) n.data count) m.dat (m.data + m.len)).map fun dat =>
    let m := { m with dat := dat, len := m.len + count }
    if n.len - count ≠ 0 then
      (mem, m, { n with len := n.len - count, data := n.data + count } :: ns, count)
    else (mFree mem { n with len := n.len - count }, m, ns, count)

/-- The loop of `m_pullup` (lines 551–563), for at most `fuel` rounds: `m`, the rest of the chain
    and what is left of `len`. -/
def mPullupLoop (max_protohdr : ℕ) :
    ℕ → Mem → Mbuf → List Mbuf → ℕ → ℕ → Option (Mem × Mbuf × List Mbuf × ℕ)
  | 0, _, _, _, _, _ => none
  | _ + 1, _, _, [], _, _ => none
  | fuel + 1, mem, m, n :: ns, len, space =>
    match mPullupRound max_protohdr mem m n ns len space with
    | none => none
    | some (mem, m, rest, count) =>
      if len - count > 0 ∧ rest ≠ [] then
        mPullupLoop max_protohdr fuel mem m rest (len - count) (space - count)
      else some (mem, m, rest, len - count)

/-- `m_pullup` from `space = …` on (lines 550–575), with the first mbuf `m` and the chain `n`. -/
def mPullupInto (max_protohdr : ℕ) (mem : Mem) (m : Mbuf) (n : List Mbuf) (len : ℕ) :
    Option (Mem × List Mbuf) :=
  (mPullupLoop max_protohdr (n.length + 1) mem m n len (mLen - (m.data + m.len))).map
    fun (mem, m, rest, len) =>
      if len > 0 then (mFreem (mFree mem m) rest, []) else (mem, m :: rest)

/-- `m_pullup(n, len)`: the chain, NULL where it fails. -/
def mPullup (a : Allocator) (max_protohdr : ℕ) (mem : Mem) (n : List Mbuf) (len : ℕ) :
    Option (Mem × List Mbuf) :=
  match n with
  | [] => none
  | n :: ns =>
    if n.ext = none ∧ n.data + len < mLen ∧ ns ≠ [] then
      if n.len ≥ len then some (mem, n :: ns)
      else mPullupInto max_protohdr mem n ns (len - n.len)
    else if len > mhLen then some (mFreem mem (n :: ns), [])
    else
      match a.mbuf 0 with
      | none => some (mFreem mem (n :: ns), [])
      | some dat =>
        if n.pkthdr.isSome then
          mPullupInto max_protohdr mem (mMovePkthdr (mGet dat) n).1
            ((mMovePkthdr (mGet dat) n).2 :: ns) len
        else mPullupInto max_protohdr mem (mGet dat) (n :: ns) len

end FreeBSD.UipcMbuf
