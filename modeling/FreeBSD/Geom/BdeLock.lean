import Mathlib.Data.List.GetD
import Mathlib.Tactic
import FreeBSD.Lib.Buffer

/-!
# The lock sector of gbde

`g_bde_shuffle_lock`, `g_bde_encode_lock` and `g_bde_decode_lock` of
`sys/geom/bde/g_bde_lock.c` (lines 126–284): the thirteen fields of the lock
structure are written in an order that the key material decides. One of them is
the MD5 hash of all the others, with zero bytes in its own place.

MD5 is any function from bytes to 16 bytes. A pointer is an address of the memory.

Results:
* `encodeFields_spec`, `decodeFields_spec`: what the two loops do, for any list of fields.
* `g_bde_lock_round_trip`: what is encoded is decoded.
-/

namespace FreeBSD.BdeLock

open List
open Lib (store load)

/-! ## Bytes -/

abbrev Byte := BitVec 8

/-- `uint8_t [n]`. -/
abbrev Bytes (n : ℕ) := {l : List Byte // l.length = n}

/-- What `bzero` leaves. -/
def zeros (n : ℕ) : Bytes n := ⟨List.replicate n 0, length_replicate⟩

/-- What `bcopy` reads at `p`. -/
def loadBytes (mem : ℕ → Byte) (p n : ℕ) : Bytes n := ⟨load mem p n, Lib.length_load mem p n⟩

/-- The bytes that `le32enc` writes. -/
def le32 (u : BitVec 32) : List Byte :=
  [u.setWidth 8, (u >>> 8).setWidth 8, (u >>> 16).setWidth 8, (u >>> 24).setWidth 8]

/-- `le32enc` (`sys/sys/endian.h`, lines 180–189). -/
def le32enc (mem : ℕ → Byte) (p : ℕ) (u : BitVec 32) : ℕ → Byte := store mem p (le32 u)

/-- `le64enc` (lines 191–198). -/
def le64enc (mem : ℕ → Byte) (p : ℕ) (u : BitVec 64) : ℕ → Byte :=
  le32enc (le32enc mem p (u.setWidth 32)) (p + 4) ((u >>> 32).setWidth 32)

/-- `le32dec` (lines 126–132). -/
def le32dec (mem : ℕ → Byte) (p : ℕ) : BitVec 32 :=
  (mem (p + 3)).setWidth 32 <<< 24 ||| (mem (p + 2)).setWidth 32 <<< 16 |||
    (mem (p + 1)).setWidth 32 <<< 8 ||| (mem p).setWidth 32

/-- `le64dec` (lines 134–140). -/
def le64dec (mem : ℕ → Byte) (p : ℕ) : BitVec 64 :=
  (le32dec mem (p + 4)).setWidth 64 <<< 32 ||| (le32dec mem p).setWidth 64

/-- The bytes that `le64enc` writes. -/
def le64 (u : BitVec 64) : List Byte := le32 (u.setWidth 32) ++ le32 ((u >>> 32).setWidth 32)

@[simp] theorem length_le32 (u : BitVec 32) : (le32 u).length = 4 := rfl

@[simp] theorem length_le64 (u : BitVec 64) : (le64 u).length = 8 := rfl

theorem le64enc_eq (mem : ℕ → Byte) (p : ℕ) (u : BitVec 64) :
    le64enc mem p u = store mem p (le64 u) :=
  Lib.store_append mem p (le32 (u.setWidth 32)) (le32 ((u >>> 32).setWidth 32))

/-- The four bytes of a word make the word. -/
theorem le32_bits (u : BitVec 32) :
    ((u >>> 24).setWidth 8).setWidth 32 <<< 24 ||| ((u >>> 16).setWidth 8).setWidth 32 <<< 16 |||
      ((u >>> 8).setWidth 8).setWidth 32 <<< 8 ||| (u.setWidth 8).setWidth 32 = u := by
  apply BitVec.eq_of_getLsbD_eq
  intro i hi
  simp only [BitVec.getLsbD_or, BitVec.getLsbD_shiftLeft, BitVec.getLsbD_setWidth,
    BitVec.getLsbD_ushiftRight]
  by_cases h8 : i < 8
  · simp [hi, h8, show i < 16 by omega, show i < 24 by omega]
  · by_cases h16 : i < 16
    · simp [hi, h8, h16, show i - 8 < 32 by omega, show i < 24 by omega, show i - 8 < 8 by omega,
        show 8 + (i - 8) = i by omega]
    · by_cases h24 : i < 24
      · simp [hi, h8, h16, h24, show ¬ i - 8 < 8 by omega, show i - 16 < 8 by omega,
          show i - 16 < 32 by omega,
          show 16 + (i - 16) = i by omega]
      · simp [hi, h8, h16, h24, show ¬ i - 8 < 8 by omega, show ¬ i - 16 < 8 by omega,
          show i - 24 < 8 by omega, show i - 24 < 32 by omega, show 24 + (i - 24) = i by omega]

/-- The two halves of a long word make it. -/
theorem le64_bits (u : BitVec 64) :
    ((u >>> 32).setWidth 32).setWidth 64 <<< 32 ||| (u.setWidth 32).setWidth 64 = u := by
  apply BitVec.eq_of_getLsbD_eq
  intro i hi
  simp only [BitVec.getLsbD_or, BitVec.getLsbD_shiftLeft, BitVec.getLsbD_setWidth,
    BitVec.getLsbD_ushiftRight]
  by_cases h32 : i < 32
  · simp [hi, h32]
  · simp [hi, h32, show i - 32 < 32 by omega, show i - 32 < 64 by omega, show 32 + (i - 32) =
      i by omega]

theorem le32dec_of_load {mem : ℕ → Byte} {p : ℕ} {u : BitVec 32} (h : load mem p 4 = le32 u) :
    le32dec mem p = u := by
  have hl : load mem p 4 = [mem p, mem (p + 1), mem (p + 2), mem (p + 3)] := rfl
  rw [hl] at h
  unfold le32 at h
  obtain ⟨h0, h⟩ := List.cons.inj h
  obtain ⟨h1, h⟩ := List.cons.inj h
  obtain ⟨h2, h⟩ := List.cons.inj h
  obtain ⟨h3, -⟩ := List.cons.inj h
  unfold le32dec
  rw [h0, h1, h2, h3]; exact le32_bits u

theorem le64dec_of_load {mem : ℕ → Byte} {p : ℕ} {u : BitVec 64} (h : load mem p 8 = le64 u) :
    le64dec mem p = u := by
  rw [show (8 : ℕ) = 4 + 4 from rfl, Lib.load_append] at h
  obtain ⟨hlo, hhi⟩ := append_inj h (by rw [Lib.length_load, length_le32])
  unfold le64dec
  rw [le32dec_of_load hlo, le32dec_of_load hhi]; exact le64_bits u

/-! ## The lock structure -/

def NLOCK_FIELDS : ℕ := 13

def G_BDE_LOCKSIZE : ℕ := 384

/-- `struct g_bde_key` (`sys/geom/bde/g_bde.h`, lines 99–123). -/
structure GBdeKey where
  sector0 : BitVec 64
  sectorN : BitVec 64
  keyoffset : BitVec 64
  lsector : Fin 4 → BitVec 64
  sectorsize : BitVec 32
  flags : BitVec 32
  salt : Bytes 16
  spare : Bytes 32
  mkey : Bytes 256
  zone_width : BitVec 64
  zone_cont : BitVec 64
  media_width : BitVec 64
  keys_per_sector : BitVec 32

/-- One round of the mixing loop (lines 137–143) for the byte `b` of the key material. -/
def mix (buf : List ℕ) (b : Byte) : List ℕ :=
  let j := b.toNat % NLOCK_FIELDS
  let k := b.toNat / NLOCK_FIELDS % NLOCK_FIELDS
  let l := buf.getD j 0
  (buf.set j (buf.getD k 0)).set k l

/-- `g_bde_shuffle_lock` (lines 126–144); `sha2` points to 64 bytes. -/
def g_bde_shuffle_lock (sha2 : ℕ → Byte) : List ℕ :=
  (List.range' 48 16).foldl (fun buf u => mix buf (sha2 u)) (List.range NLOCK_FIELDS)

/-- What the loop of `g_bde_encode_lock` changes. -/
structure Encoder where
  mem : ℕ → Byte
  p : ℕ
  hash : Option ℕ

/-- One round of that loop (lines 157–202). -/
def encodeField (gl : GBdeKey) (s : Encoder) : ℕ → Encoder
  | 0 => { s with mem := le64enc s.mem s.p gl.sector0, p := s.p + 8 }
  | 1 => { s with mem := le64enc s.mem s.p gl.sectorN, p := s.p + 8 }
  | 2 => { s with mem := le64enc s.mem s.p gl.keyoffset, p := s.p + 8 }
  | 3 => { s with mem := le32enc s.mem s.p gl.sectorsize, p := s.p + 4 }
  | 4 => { s with mem := le32enc s.mem s.p gl.flags, p := s.p + 4 }
  | 5 => { s with mem := le64enc s.mem s.p (gl.lsector 0), p := s.p + 8 }
  | 6 => { s with mem := le64enc s.mem s.p (gl.lsector 1), p := s.p + 8 }
  | 7 => { s with mem := le64enc s.mem s.p (gl.lsector 2), p := s.p + 8 }
  | 8 => { s with mem := le64enc s.mem s.p (gl.lsector 3), p := s.p + 8 }
  | 9 => { s with mem := store s.mem s.p gl.spare.1, p := s.p + 32 }
  | 10 => { s with mem := store s.mem s.p gl.salt.1, p := s.p + 16 }
  | 11 => { s with mem := store s.mem s.p gl.mkey.1, p := s.p + 256 }
  | 12 => { mem := store s.mem s.p (zeros 16).1, p := s.p + 16, hash := some s.p }
  | _ => s

/-- `"0000"`, the version that the hash begins with. -/
def version : List Byte := List.replicate 4 0x30#8

/-- `MD5Init`, two `MD5Update`s and `MD5Final` (lines 209–212 and 277–280). -/
def lockHash (md5 : List Byte → Bytes 16) (mem : ℕ → Byte) (ptr : ℕ) : Bytes 16 :=
  md5 (version ++ load mem ptr G_BDE_LOCKSIZE)

/-- `g_bde_encode_lock` (lines 146–214): what it returns, and the memory. -/
def g_bde_encode_lock (md5 : List Byte → Bytes 16) (sha2 : ℕ → Byte) (gl : GBdeKey)
    (mem : ℕ → Byte) (ptr : ℕ) : ℤ × (ℕ → Byte) :=
  let s := (g_bde_shuffle_lock sha2).foldl (encodeField gl) ⟨mem, ptr, none⟩
  if ptr + G_BDE_LOCKSIZE ≠ s.p then (-1, s.mem)
  else
    match s.hash with
    | none => (-1, s.mem)
    | some hash => (0, store s.mem hash (lockHash md5 s.mem ptr).1)

/-- What the loop of `g_bde_decode_lock` changes. -/
structure Decoder where
  mem : ℕ → Byte
  p : ℕ
  gl : GBdeKey
  hash2 : Bytes 16

/-- One round of that loop (lines 226–274). -/
def decodeField (s : Decoder) : ℕ → Decoder
  | 0 => { s with gl := { s.gl with sector0 := le64dec s.mem s.p }, p := s.p + 8 }
  | 1 => { s with gl := { s.gl with sectorN := le64dec s.mem s.p }, p := s.p + 8 }
  | 2 => { s with gl := { s.gl with keyoffset := le64dec s.mem s.p }, p := s.p + 8 }
  | 3 => { s with gl := { s.gl with sectorsize := le32dec s.mem s.p }, p := s.p + 4 }
  | 4 => { s with gl := { s.gl with flags := le32dec s.mem s.p }, p := s.p + 4 }
  | 5 => { s with gl := { s.gl with lsector := Function.update s.gl.lsector 0 (le64dec s.mem s.p) },
                  p := s.p + 8 }
  | 6 => { s with gl := { s.gl with lsector := Function.update s.gl.lsector 1 (le64dec s.mem s.p) },
                  p := s.p + 8 }
  | 7 => { s with gl := { s.gl with lsector := Function.update s.gl.lsector 2 (le64dec s.mem s.p) },
                  p := s.p + 8 }
  | 8 => { s with gl := { s.gl with lsector := Function.update s.gl.lsector 3 (le64dec s.mem s.p) },
                  p := s.p + 8 }
  | 9 => { s with gl := { s.gl with spare := loadBytes s.mem s.p 32 }, p := s.p + 32 }
  | 10 => { s with gl := { s.gl with salt := loadBytes s.mem s.p 16 }, p := s.p + 16 }
  | 11 => { s with gl := { s.gl with mkey := loadBytes s.mem s.p 256 }, p := s.p + 256 }
  | 12 => { s with hash2 := loadBytes s.mem s.p 16, mem := store s.mem s.p (zeros 16).1,
                   p := s.p + 16 }
  | _ => s

/-- `g_bde_decode_lock` (lines 216–284): what it returns, the lock structure and the memory.
`hash2` is what the array holds before it is assigned. -/
def g_bde_decode_lock (md5 : List Byte → Bytes 16) (sha2 : ℕ → Byte) (gl : GBdeKey)
    (mem : ℕ → Byte) (ptr : ℕ) (hash2 : Bytes 16) : ℤ × GBdeKey × (ℕ → Byte) :=
  let s := (g_bde_shuffle_lock sha2).foldl decodeField ⟨mem, ptr, gl, hash2⟩
  if ptr + G_BDE_LOCKSIZE ≠ s.p then (-1, s.gl, s.mem)
  else if lockHash md5 s.mem ptr ≠ s.hash2 then (1, s.gl, s.mem)
  else (0, s.gl, s.mem)

/-! ## The order of the fields -/

/-- Two positions are exchanged. -/
theorem mix_perm (buf : List ℕ) (b : Byte) (h : buf.length = NLOCK_FIELDS) :
    (mix buf b).Perm buf := by
  have hj : b.toNat % NLOCK_FIELDS < buf.length := by rw [h]; exact Nat.mod_lt _ (by decide)
  have hk : b.toNat / NLOCK_FIELDS % NLOCK_FIELDS < buf.length := by
    rw [h]; exact Nat.mod_lt _ (by decide)
  unfold mix
  dsimp only
  rw [getD_eq_getElem _ _ hj, getD_eq_getElem _ _ hk]; exact set_set_perm hj hk

/-- The order is a permutation of the fields. -/
theorem g_bde_shuffle_lock_perm (sha2 : ℕ → Byte) :
    (g_bde_shuffle_lock sha2).Perm (List.range NLOCK_FIELDS) := by
  suffices h : ∀ (us : List ℕ) (buf : List ℕ), buf.Perm (List.range NLOCK_FIELDS) →
      (us.foldl (fun buf u => mix buf (sha2 u)) buf).Perm (List.range NLOCK_FIELDS) from
    h _ _ (List.Perm.refl _)
  intro us
  induction us with
  | nil =>
    intro buf hbuf; exact hbuf
  | cons u us ih =>
    intro buf hbuf
    apply ih
    exact (mix_perm buf (sha2 u) (hbuf.length_eq.trans (length_range))).trans hbuf

/-! ## The bytes -/

/-- The bytes of a field, with `hash` in the place of the hash. -/
def fieldBytes (gl : GBdeKey) (hash : Bytes 16) : ℕ → List Byte
  | 0 => le64 gl.sector0
  | 1 => le64 gl.sectorN
  | 2 => le64 gl.keyoffset
  | 3 => le32 gl.sectorsize
  | 4 => le32 gl.flags
  | 5 => le64 (gl.lsector 0)
  | 6 => le64 (gl.lsector 1)
  | 7 => le64 (gl.lsector 2)
  | 8 => le64 (gl.lsector 3)
  | 9 => gl.spare.1
  | 10 => gl.salt.1
  | 11 => gl.mkey.1
  | 12 => hash.1
  | _ => []

/-- The bytes of some fields, one after the other. -/
def layout (gl : GBdeKey) (hash : Bytes 16) (fs : List ℕ) : List Byte :=
  fs.flatMap (fieldBytes gl hash)

/-- How far `p` moves. -/
def fieldSize : ℕ → ℕ
  | 3 | 4 => 4
  | 9 => 32
  | 10 => 16
  | 11 => 256
  | 12 => 16
  | 0 | 1 | 2 | 5 | 6 | 7 | 8 => 8
  | _ => 0

variable {gl gl' : GBdeKey} {hash hash' : Bytes 16} {fs : List ℕ} {f : ℕ}

/-- The fields have fixed widths. -/
theorem length_fieldBytes (gl : GBdeKey) (hash : Bytes 16) (f : ℕ) :
    (fieldBytes gl hash f).length = fieldSize f := by
  match f with
  | 0 | 1 | 2 | 5 | 6 | 7 | 8 => exact length_le64 _
  | 3 | 4 => exact length_le32 _
  | 9 => exact gl.spare.2
  | 10 => exact gl.salt.2
  | 11 => exact gl.mkey.2
  | 12 => exact hash.2
  | _ + 13 => rfl

/-- Only the hash field has the hash. -/
theorem fieldBytes_hash (gl : GBdeKey) (hash hash' : Bytes 16) (h : f ≠ 12) :
    fieldBytes gl hash f = fieldBytes gl hash' f := by
  unfold fieldBytes
  split
  all_goals first
    | rfl
    | exact absurd rfl h

theorem layout_cons (gl : GBdeKey) (hash : Bytes 16) (f : ℕ) (fs : List ℕ) :
    layout gl hash (f :: fs) = fieldBytes gl hash f ++ layout gl hash fs := flatMap_cons

theorem layout_append (gl : GBdeKey) (hash : Bytes 16) (fs fs' : List ℕ) :
    layout gl hash (fs ++ fs') = layout gl hash fs ++ layout gl hash fs' := flatMap_append

theorem layout_snoc (gl : GBdeKey) (hash : Bytes 16) (fs : List ℕ) (f : ℕ) :
    layout gl hash (fs ++ [f]) = layout gl hash fs ++ fieldBytes gl hash f := by
  rw [layout_append, layout_cons]; exact congrArg _ (append_nil _)

theorem layout_hash (hash hash' : Bytes 16) (h : 12 ∉ fs) :
    layout gl hash fs = layout gl hash' fs := by
  apply flatMap_congr
  intro f hf
  apply fieldBytes_hash
  intro h12; exact h (h12 ▸ hf)

theorem length_layout (gl : GBdeKey) (hash : Bytes 16) (fs : List ℕ) :
    (layout gl hash fs).length = (fs.map fieldSize).sum := by
  unfold layout
  rw [length_flatMap]
  congr 1
  apply map_congr_left
  intro f _; exact length_fieldBytes gl hash f

/-- In any order, the fields take `G_BDE_LOCKSIZE` bytes. -/
theorem length_layout_perm (gl : GBdeKey) (hash : Bytes 16)
    (h : fs.Perm (List.range NLOCK_FIELDS)) :
    (layout gl hash fs).length = G_BDE_LOCKSIZE := by
  rw [length_layout, (h.map fieldSize).sum_eq]; decide

/-! ## Encoding -/

/-- One round writes one field. -/
theorem encodeField_eq (gl : GBdeKey) (s : Encoder) (f : ℕ) :
    encodeField gl s f =
      { mem := store s.mem s.p (fieldBytes gl (zeros 16) f), p := s.p + fieldSize f,
        hash := if f = 12 then some s.p else s.hash } := by
  match f with
  | 0 | 1 | 2 | 5 | 6 | 7 | 8 =>
    simp only [encodeField, le64enc_eq, fieldBytes, fieldSize]; rfl
  | 3 | 4 => rfl
  | 9 | 10 | 11 | 12 => rfl
  | n + 13 =>
    have hn : n + 13 ≠ 12 := by omega
    simp only [encodeField, fieldBytes, Lib.store_nil, fieldSize, add_zero, if_neg hn]

/-- The loop writes the fields one after the other. -/
theorem encodeFields_spec (gl : GBdeKey) (fs : List ℕ) (s : Encoder) :
    (fs.foldl (encodeField gl) s).mem = store s.mem s.p (layout gl (zeros 16) fs) ∧
      (fs.foldl (encodeField gl) s).p = s.p + (layout gl (zeros 16) fs).length ∧
      (12 ∉ fs → (fs.foldl (encodeField gl) s).hash = s.hash) := by
  induction fs generalizing s with
  | nil =>
    refine ⟨?_, rfl, fun _ => rfl⟩
    exact (Lib.store_nil _ _).symm
  | cons f fs ih =>
    obtain ⟨hmem, hp, hhash⟩ := ih (encodeField gl s f)
    have hlen := length_fieldBytes gl (zeros 16) f
    rw [encodeField_eq] at hmem hp hhash
    rw [foldl_cons, encodeField_eq, layout_cons]
    refine ⟨?_, ?_, ?_⟩
    · rw [hmem, ← Lib.store_append, hlen]
    · rw [hp, length_append, hlen, add_assoc]
    · intro h12
      have hf : f ≠ 12 := by intro h; exact h12 (h ▸ mem_cons_self)
      rw [hhash (fun h => h12 (mem_cons_of_mem f h))]; exact if_neg hf

/-- The hash that is stored. -/
def storedHash (md5 : List Byte → Bytes 16) (gl : GBdeKey) (fs : List ℕ) : Bytes 16 :=
  md5 (version ++ layout gl (zeros 16) fs)

/-- What is hashed is the buffer with zeros in the place of the hash. -/
theorem lockHash_layout (md5 : List Byte → Bytes 16) (mem : ℕ → Byte) (ptr : ℕ)
    (h : fs.Perm (List.range NLOCK_FIELDS)) :
    lockHash md5 (store mem ptr (layout gl (zeros 16) fs)) ptr = storedHash md5 gl fs := by
  unfold lockHash storedHash
  rw [← length_layout_perm gl (zeros 16) h, Lib.load_store]

/-- `g_bde_encode_lock` writes all fields, with the hash in its place. -/
theorem g_bde_encode_lock_eq (md5 : List Byte → Bytes 16) (sha2 : ℕ → Byte) (gl : GBdeKey)
    (mem : ℕ → Byte) (ptr : ℕ) :
    g_bde_encode_lock md5 sha2 gl mem ptr =
      (0, store mem ptr (layout gl (storedHash md5 gl (g_bde_shuffle_lock sha2))
        (g_bde_shuffle_lock sha2))) := by
  have hperm := g_bde_shuffle_lock_perm sha2
  obtain ⟨hmem, hp, -⟩ := encodeFields_spec gl (g_bde_shuffle_lock sha2) ⟨mem, ptr, none⟩
  unfold g_bde_encode_lock
  dsimp only at hmem hp ⊢
  rw [hp, length_layout_perm gl _ hperm, if_neg (not_not_intro rfl), hmem,
    lockHash_layout _ _ _ hperm]
  -- the hash field is somewhere, and only there
  have h12 : 12 ∈ g_bde_shuffle_lock sha2 := hperm.mem_iff.2 (by decide)
  have hnodup : (g_bde_shuffle_lock sha2).Nodup := hperm.nodup_iff.2 nodup_range
  obtain ⟨as, bs, hfs⟩ := append_of_mem h12
  generalize g_bde_shuffle_lock sha2 = fs at *
  subst hfs
  have hsplit := nodup_append.1 hnodup
  have has : 12 ∉ as := fun h => hsplit.2.2 12 h 12 mem_cons_self rfl
  have hbs : 12 ∉ bs := (nodup_cons.1 hsplit.2.1).1
  have hhash : ((as ++ 12 :: bs).foldl (encodeField gl) ⟨mem, ptr, none⟩).hash =
      some (ptr + (layout gl (zeros 16) as).length) := by
    obtain ⟨-, hpa, -⟩ := encodeFields_spec gl as ⟨mem, ptr, none⟩
    rw [foldl_append, foldl_cons, (encodeFields_spec gl bs _).2.2 hbs, encodeField_eq,
      if_pos rfl, hpa]
  rw [hhash]
  generalize storedHash md5 gl (as ++ 12 :: bs) = H
  have hlay (k : Bytes 16) : layout gl k (as ++ 12 :: bs) =
      layout gl (zeros 16) as ++ k.1 ++ layout gl (zeros 16) bs := by
    rw [layout_append, layout_cons, layout_hash k (zeros 16) has,
      layout_hash k (zeros 16) hbs, ← append_assoc]
    rfl
  show (0, store (store mem ptr _) _ H.1) = _
  rw [hlay, hlay, Lib.store_overwrite _ _ _ _ (H.2.trans (zeros 16).2.symm)]

/-! ## Decoding -/

/-- The fields `fs` of `gl`, and all others of `gl'`. -/
def copied (fs : List ℕ) (gl gl' : GBdeKey) : GBdeKey where
  sector0 := if 0 ∈ fs then gl.sector0 else gl'.sector0
  sectorN := if 1 ∈ fs then gl.sectorN else gl'.sectorN
  keyoffset := if 2 ∈ fs then gl.keyoffset else gl'.keyoffset
  lsector := fun i => if (i : ℕ) + 5 ∈ fs then gl.lsector i else gl'.lsector i
  sectorsize := if 3 ∈ fs then gl.sectorsize else gl'.sectorsize
  flags := if 4 ∈ fs then gl.flags else gl'.flags
  salt := if 10 ∈ fs then gl.salt else gl'.salt
  spare := if 9 ∈ fs then gl.spare else gl'.spare
  mkey := if 11 ∈ fs then gl.mkey else gl'.mkey
  zone_width := gl'.zone_width
  zone_cont := gl'.zone_cont
  media_width := gl'.media_width
  keys_per_sector := gl'.keys_per_sector

/-- When all fields are copied, only the help fields are left. -/
theorem copied_all (h : fs.Perm (List.range NLOCK_FIELDS)) (gl gl' : GBdeKey) :
    copied fs gl gl' =
      { gl with
        zone_width := gl'.zone_width, zone_cont := gl'.zone_cont,
        media_width := gl'.media_width, keys_per_sector := gl'.keys_per_sector } := by
  have hmem (f : ℕ) : f ∈ fs ↔ f < 13 := h.mem_iff.trans mem_range
  have hlsector (i : Fin 4) : (i : ℕ) + 5 ∈ fs := by rw [hmem]; omega
  unfold copied
  simp only [hlsector, if_true]; simp only [hmem, Nat.reduceLT, if_true]

/-- One round reads one field, and clears the hash. -/
theorem decodeField_eq {s : Decoder} (hf : f < NLOCK_FIELDS)
    (h : load s.mem s.p (fieldSize f) = fieldBytes gl hash f)
    (hgl : s.gl = copied fs gl gl') :
    decodeField s f =
      { mem := if f = 12 then store s.mem s.p (zeros 16).1 else s.mem, p := s.p + fieldSize f,
        gl := copied (fs ++ [f]) gl gl', hash2 := if f = 12 then hash else s.hash2 } := by
  obtain ⟨mem, p, g, hash2⟩ := s
  dsimp only at h hgl
  subst hgl
  have hget (i : ℕ) : i ∈ fs ++ [f] ↔ i ∈ fs ∨ i = f := by
    rw [mem_append, mem_singleton]
  have hne (i : Fin 4) (n : ℕ) (hn : 4 ≤ n) : (i : ℕ) ≠ n := by omega
  unfold NLOCK_FIELDS at hf
  interval_cases f
  case «0» | «1» | «2» => simp [decodeField, copied, hget, le64dec_of_load h, fieldSize]
  case «3» | «4» => simp [decodeField, copied, hget, le32dec_of_load h, fieldSize]
  case «5» | «6» | «7» | «8» =>
    simp only [decodeField, copied, hget, le64dec_of_load h, fieldSize]
    simp
    funext i
    fin_cases i
    all_goals simp
  case «9» =>
    have hb : loadBytes mem p 32 = gl.spare := Subtype.ext h
    simp [decodeField, copied, hget, hb, fieldSize, hne]
  case «10» =>
    have hb : loadBytes mem p 16 = gl.salt := Subtype.ext h
    simp [decodeField, copied, hget, hb, fieldSize, hne]
  case «11» =>
    have hb : loadBytes mem p 256 = gl.mkey := Subtype.ext h
    simp [decodeField, copied, hget, hb, fieldSize, hne]
  case «12» =>
    have hb : loadBytes mem p 16 = hash := Subtype.ext h
    simp [decodeField, copied, hget, hb, fieldSize, hne]

/-- The loop reads the fields one after the other, and clears the hash. -/
theorem decodeFields_spec (mem : ℕ → Byte) (ptr : ℕ) (gl gl' : GBdeKey) (hash : Bytes 16)
    (read rest : List ℕ) (hrest : ∀ f ∈ rest, f < NLOCK_FIELDS) (s : Decoder)
    (hmem : s.mem = store mem ptr (layout gl (zeros 16) read ++ layout gl hash rest))
    (hp : s.p = ptr + (layout gl (zeros 16) read).length)
    (hgl : s.gl = copied read gl gl') :
    rest.foldl decodeField s =
      { mem := store mem ptr (layout gl (zeros 16) (read ++ rest)),
        p := ptr + (layout gl (zeros 16) (read ++ rest)).length,
        gl := copied (read ++ rest) gl gl',
        hash2 := if 12 ∈ rest then hash else s.hash2 } := by
  induction rest generalizing read s with
  | nil =>
    obtain ⟨mem', p', g, hash2⟩ := s
    dsimp only at hmem hp hgl
    subst hmem hp hgl
    rw [append_nil]
    show Decoder.mk (store mem ptr (layout gl (zeros 16) read ++ [])) _ _ _ = _
    rw [append_nil, if_neg not_mem_nil]
  | cons f rest ih =>
    have hf := hrest f mem_cons_self
    have hlen := length_fieldBytes gl hash f
    have hload : load s.mem s.p (fieldSize f) = fieldBytes gl hash f := by
      rw [hmem, hp, layout_cons, ← append_assoc, ← hlen]; exact Lib.load_store_mid _ _ _ _ _
    have hstep := decodeField_eq hf hload hgl
    have hassoc : read ++ f :: rest = read ++ [f] ++ rest := by rw [append_assoc]; rfl
    rw [foldl_cons, hassoc]
    rw [ih (read ++ [f]) (fun i hi => hrest i (mem_cons_of_mem f hi)) (decodeField s f)]
    · rw [hstep]
      dsimp only
      congr 1
      by_cases h12 : 12 ∈ rest
      · rw [if_pos h12, if_pos (mem_cons_of_mem f h12)]
      · rw [if_neg h12]
        by_cases hf12 : f = 12
        · subst hf12
          rw [if_pos rfl, if_pos mem_cons_self]
        · have hout : 12 ∉ f :: rest := by
            intro h
            obtain h | h := mem_cons.1 h
            · exact hf12 h.symm
            · exact h12 h
          rw [if_neg hf12, if_neg hout]
    · rw [hstep, hmem, hp, layout_snoc, layout_cons]
      dsimp only
      split_ifs with hf12
      · subst hf12
        rw [← append_assoc]; exact Lib.store_overwrite _ _ _ _ ((zeros 16).2.trans hash.2.symm)
      · rw [fieldBytes_hash gl hash (zeros 16) hf12, ← append_assoc]
    · rw [hstep, hp, layout_snoc, length_append, length_fieldBytes, add_assoc]
    · rw [hstep]

/-- `g_bde_decode_lock` reads what was written. -/
theorem g_bde_decode_lock_eq (md5 : List Byte → Bytes 16) (sha2 : ℕ → Byte) (gl gl' : GBdeKey)
    (mem : ℕ → Byte) (ptr : ℕ) (hash2 : Bytes 16) :
    g_bde_decode_lock md5 sha2 gl'
        (store mem ptr (layout gl (storedHash md5 gl (g_bde_shuffle_lock sha2))
          (g_bde_shuffle_lock sha2))) ptr hash2 =
      (0, copied (g_bde_shuffle_lock sha2) gl gl',
        store mem ptr (layout gl (zeros 16) (g_bde_shuffle_lock sha2))) := by
  have hperm := g_bde_shuffle_lock_perm sha2
  generalize hfs : g_bde_shuffle_lock sha2 = fs at *
  have hdec := decodeFields_spec mem ptr gl gl' (storedHash md5 gl fs) [] fs
    (fun f hf => mem_range.1 (hperm.mem_iff.1 hf))
    ⟨store mem ptr (layout gl (storedHash md5 gl fs) fs), ptr, gl', hash2⟩ rfl rfl rfl
  rw [nil_append, if_pos (hperm.mem_iff.2 (by decide))] at hdec
  unfold g_bde_decode_lock
  dsimp only
  rw [hfs, hdec]
  dsimp only
  rw [length_layout_perm gl _ hperm, if_neg (not_not_intro rfl), lockHash_layout _ _ _ hperm,
    if_neg (not_not_intro rfl)]

/-! ## The round trip -/

/-- `g_bde_encode_lock` writes `G_BDE_LOCKSIZE` bytes from `ptr` on and returns 0, and
`g_bde_decode_lock` with the same key material returns 0 on these bytes and gives back each stored
field, for any lock structure, any memory and any function in the place of MD5. -/
theorem g_bde_lock_round_trip (md5 : List Byte → Bytes 16) (sha2 : ℕ → Byte) (gl : GBdeKey) :
    ∃ bs : List Byte, bs.length = G_BDE_LOCKSIZE ∧
      (∀ (mem : ℕ → Byte) (ptr : ℕ),
        g_bde_encode_lock md5 sha2 gl mem ptr = (0, store mem ptr bs)) ∧
      ∀ (mem : ℕ → Byte) (ptr : ℕ) (gl' : GBdeKey) (hash2 : Bytes 16),
        load mem ptr G_BDE_LOCKSIZE = bs →
          (g_bde_decode_lock md5 sha2 gl' mem ptr hash2).1 = 0 ∧
            (g_bde_decode_lock md5 sha2 gl' mem ptr hash2).2.1 =
              { gl with
                zone_width := gl'.zone_width, zone_cont := gl'.zone_cont,
                media_width := gl'.media_width, keys_per_sector := gl'.keys_per_sector } := by
  have hperm := g_bde_shuffle_lock_perm sha2
  have hlen := length_layout_perm gl (storedHash md5 gl (g_bde_shuffle_lock sha2)) hperm
  refine ⟨_, hlen, fun mem ptr => g_bde_encode_lock_eq md5 sha2 gl mem ptr, ?_⟩
  intro mem ptr gl' hash2 hload
  have hmem : mem = store mem ptr (layout gl (storedHash md5 gl (g_bde_shuffle_lock sha2))
      (g_bde_shuffle_lock sha2)) := by
    rw [← hload]; exact (Lib.store_load mem ptr G_BDE_LOCKSIZE).symm
  rw [hmem, g_bde_decode_lock_eq]; exact ⟨rfl, copied_all hperm gl gl'⟩

end FreeBSD.BdeLock
