import FreeBSD.Lib.Pieces

/-!
# Reassembly of IP fragments, `netinet/ip_input.c`

Models of the part of `ip_input` that hands a fragment to reassembly (lines 767–838) and of
`ip_reass` (lines 1001–1246), for the fragments of one datagram: those with one `ip_id`, `ip_src`,
`ip_dst` and `ip_p`.

A queued mbuf chain is the header fields that `GETIP` reads with its bytes behind the header;
`m_adj` drops bytes at the front and `m_cat` appends. `ip_off` and `ip_len` are `u_short`, sums of
them are `int`. The result `none` is a dereference of NULL.
-/

namespace FreeBSD.IpReass

open List Option
open Lib (Piece)

abbrev Byte := BitVec 8

/-- `IP_MAXPACKET` (`netinet/ip.h`). -/
def ipMaxpacket : ℕ := 65535

/-- `IP_MF` and `IP_OFFMASK`. -/
def ipMf : BitVec 16 := 0x2000
def ipOffmask : BitVec 16 := 0x1fff

/-- `IPTOS_ECN_MASK`, `IPTOS_ECN_CE` and `IPTOS_ECN_NOTECT`. -/
def iptosEcnMask : BitVec 8 := 0x03
def iptosEcnCe : BitVec 8 := 0x03
def iptosEcnNotect : BitVec 8 := 0x00

/-- A packet as `ip_input` has it in host order at line 767: the header is complete and the bytes
    behind it are what `ip_len` says. -/
structure IpPacket where
  ip_hl : ℕ
  ip_tos : BitVec 8
  ip_off : BitVec 16
  payload : List Byte
  hl_le : 5 ≤ ip_hl ∧ ip_hl ≤ 15
  len_le : 4 * ip_hl + payload.length ≤ 65535
deriving DecidableEq

/-- A fragment on the queue, with its header. -/
structure Frag where
  ip_hl : ℕ
  ip_tos : BitVec 8
  ip_off : ℕ
  ip_len : ℕ
  mFrag : Bool
  data : List Byte
deriving DecidableEq

/-- `struct ipq` (`netinet/ip_var.h`, lines 60–71). -/
structure Ipq where
  nfrags : BitVec 8
  frags : List Frag
deriving DecidableEq

/-- What `ip_reass` returns: the header of the first fragment and the bytes behind it. -/
structure Datagram where
  ip_hl : ℕ
  ip_tos : BitVec 8
  ip_len : ℕ
  data : List Byte
deriving DecidableEq

/-! ## From `ip_input` -/

/-- The fragment that `ip_input` gives to `ip_reass` (lines 767 and 824–838), if it does. -/
def ipInputFrag (pkt : IpPacket) : Option Frag :=
  if pkt.ip_off &&& (ipMf ||| ipOffmask) = 0 then none
  else
    -- `ip_len` less the header is the length of the payload
    let m : Frag :=
      { ip_hl := pkt.ip_hl, ip_tos := pkt.ip_tos, ip_off := (pkt.ip_off <<< 3).toNat,
        ip_len := pkt.payload.length, mFrag := false, data := pkt.payload }
    if pkt.ip_off &&& ipMf ≠ 0 then
      if m.ip_len = 0 ∨ m.ip_len % 8 ≠ 0 then none else some { m with mFrag := true }
    else some m

/-! ## `ip_reass` -/

/-- The ECN fields of the first fragment and the new one (lines 1064–1073): the first fragment with
    the mark, or `none` where the new one is dropped. -/
def reassEcn (first m : Frag) : Option Frag :=
  let ecn := m.ip_tos &&& iptosEcnMask
  let ecn0 := first.ip_tos &&& iptosEcnMask
  if ecn = iptosEcnCe then
    if ecn0 = iptosEcnNotect then none
    else if ecn0 ≠ iptosEcnCe then some { first with ip_tos := first.ip_tos ||| iptosEcnCe }
    else some first
  else if ecn = iptosEcnNotect ∧ ecn0 ≠ iptosEcnNotect then none
  else some first

/-- The new fragment behind the preceding one `p` (lines 1091–1100), or `none` where it is
    dropped. -/
def reassFit (m : Frag) : Option Frag → Option Frag
  | none => some m
  | some p =>
    if p.ip_off + p.ip_len > m.ip_off then
      let i := p.ip_off + p.ip_len - m.ip_off
      if i ≥ m.ip_len then none
      else some { m with
        ip_off := (m.ip_off + i) % 65536, ip_len := m.ip_len - i, data := m.data.drop i }
    else some m

/-- The new fragment in front of the succeeding ones (lines 1112–1127). -/
def reassPlace (m : Frag) (nfrags : BitVec 8) : List Frag → List Frag × BitVec 8
  | [] => ([m], nfrags)
  | q :: qs =>
    if m.ip_off + m.ip_len > q.ip_off then
      let i := m.ip_off + m.ip_len - q.ip_off
      if i < q.ip_len then
        (m :: { q with
          ip_len := q.ip_len - i, ip_off := (q.ip_off + i) % 65536, data := q.data.drop i } :: qs,
          nfrags)
      else reassPlace m (nfrags - 1) qs
    else (m :: q :: qs, nfrags)

/-- The fragments in front of `m`, and the others (lines 1078–1080). -/
def reassBefore (m : Frag) (frags : List Frag) : List Frag :=
  frags.takeWhile fun q => q.ip_off ≤ m.ip_off
def reassAfter (m : Frag) (frags : List Frag) : List Frag :=
  frags.dropWhile fun q => q.ip_off ≤ m.ip_off

/-- Lines 1075–1127: the queue with the new fragment, or `none` where it is dropped. -/
def reassInsert (fp : Ipq) (m : Frag) : Option Ipq :=
  match reassFit m (reassBefore m fp.frags).getLast? with
  | none => none
  | some m' =>
    let (l, nfrags) := reassPlace m' fp.nfrags (reassAfter m fp.frags)
    some { nfrags := nfrags, frags := reassBefore m fp.frags ++ l }

/-- The loop of lines 1154–1164: the end of the last fragment, if they touch. -/
def reassNext : ℕ → List Frag → Option ℕ
  | next, [] => some next
  | next, q :: qs => if q.ip_off ≠ next then none else reassNext (next + q.ip_len) qs

/-- Too many fragments are released (lines 1157–1160 and 1167–1170). -/
def reassLimit (maxfragsperpacket : ℤ) (fp : Ipq) : Option Ipq :=
  if (fp.nfrags.toNat : ℤ) > maxfragsperpacket then none else some fp

/-- From `inserted` on (lines 1129–1232): the queue that is left and the datagram. -/
def reassFinish (maxfragsperpacket : ℤ) (fp : Ipq) : Option (Option Ipq × Option Datagram) :=
  match reassNext 0 fp.frags with
  | none => some (reassLimit maxfragsperpacket fp, none)
  | some next =>
    match fp.frags.head?, fp.frags.getLast? with
    | some q, some p =>
      if p.mFrag then some (reassLimit maxfragsperpacket fp, none)
      else if next + 4 * q.ip_hl > ipMaxpacket then some (none, none)
      else some (none, some
        { ip_hl := q.ip_hl, ip_tos := q.ip_tos, ip_len := next,
          data := fp.frags.flatMap Frag.data })
    | _, _ => none

/-- `ip_reass(m, head, fp, …)`: the queue of the datagram afterwards, and what is returned; `t`
    tells whether an mbuf for a new queue is there. -/
def ipReass (maxfragsperpacket : ℤ) (t : Bool) (m : Frag) (fp : Option Ipq) :
    Option (Option Ipq × Option Datagram) :=
  match fp with
  | none =>
    if t then reassFinish maxfragsperpacket { nfrags := 1, frags := [m] } else some (none, none)
  | some fp =>
    match fp.frags with
    | [] => none
    | first :: rest =>
      match reassEcn first m with
      | none => some (some { fp with nfrags := fp.nfrags + 1 - 1 }, none)
      | some first' =>
        match reassInsert { nfrags := fp.nfrags + 1, frags := first' :: rest } m with
        | none => some (some { nfrags := fp.nfrags + 1 - 1, frags := first' :: rest }, none)
        | some fp' => reassFinish maxfragsperpacket fp'

/-! ## Fragments as pieces -/

namespace Frag

def stop (f : Frag) : ℕ := f.ip_off + f.ip_len

/-- The fragment as a piece of the datagram. -/
def toPiece (f : Frag) : Piece Byte (ℕ × BitVec 8 × Bool) :=
  { off := f.ip_off, data := f.data, tag := (f.ip_hl, f.ip_tos, f.mFrag) }

/-- `ip_len` is the length of the data. -/
def Sized (f : Frag) : Prop := f.ip_len = f.data.length

theorem toPiece_stop {f : Frag} (h : f.Sized) : f.toPiece.stop = f.stop := by
  simp only [Piece.stop, toPiece, stop, h.symm]

end Frag

/-- Sorted by offset, with disjoint ranges. -/
def Sorted (frags : List Frag) : Prop := frags.Pairwise fun a b => a.stop ≤ b.ip_off

/-- No offset reaches `2^16` when `m` is fitted between the queued fragments: neither the end of the
    preceding fragment, where `m` loses its front, nor the end of `m`, where a succeeding fragment
    does. -/
structure NoWrap (frags : List Frag) (m : Frag) : Prop where
  front : ∀ p, (reassBefore m frags).getLast? = some p →
    m.ip_off < p.stop → p.stop < m.stop → p.stop < 65536
  back : ∀ q ∈ reassAfter m frags, q.ip_off < m.stop → m.stop < q.stop → m.stop < 65536

variable {m : Frag} {frags : List Frag}

theorem sorted_toPiece (hs : ∀ f ∈ frags, f.Sized) :
    Piece.Sorted (frags.map Frag.toPiece) ↔ Sorted frags := by
  rw [Piece.Sorted, Sorted, pairwise_map]
  constructor
  · intro h
    refine h.imp_of_mem fun {a b} ha _ hab => ?_
    rwa [Frag.toPiece_stop (hs a ha)] at hab
  · intro h
    refine h.imp_of_mem fun {a b} ha _ hab => ?_
    rwa [Frag.toPiece_stop (hs a ha)]

theorem before_toPiece (m : Frag) (frags : List Frag) :
    Piece.before m.toPiece (frags.map Frag.toPiece) = (reassBefore m frags).map Frag.toPiece :=
  takeWhile_map

theorem after_toPiece (m : Frag) (frags : List Frag) :
    Piece.after m.toPiece (frags.map Frag.toPiece) = (reassAfter m frags).map Frag.toPiece :=
  dropWhile_map

/-- The fragment is fitted behind the preceding one as a piece is. -/
theorem reassFit_toPiece {p : Option Frag} (hm : m.Sized) (hp : ∀ f, p = some f → f.Sized)
    (hw : ∀ f, p = some f → m.ip_off < f.stop → f.stop < m.stop → f.stop < 65536) :
    (reassFit m p).map Frag.toPiece = Piece.fit m.toPiece (p.map Frag.toPiece) ∧
      ∀ m', reassFit m p = some m' → m'.Sized ∧ m'.stop = m.stop := by
  cases p with
  | none =>
    refine ⟨rfl, fun m' h => ?_⟩
    obtain rfl := some.inj h
    exact ⟨hm, rfl⟩
  | some p =>
    have hps := hp p rfl
    rw [map_some, Piece.fit, Frag.toPiece_stop hps, Frag.toPiece_stop hm, reassFit]
    by_cases hle : p.stop ≤ m.ip_off
    · have hgt : ¬ p.ip_off + p.ip_len > m.ip_off := by
        simp only [Frag.stop] at hle; omega
      rw [if_neg hgt, if_pos (show p.stop ≤ m.toPiece.off from hle)]
      refine ⟨rfl, fun m' h => ?_⟩
      obtain rfl := some.inj h
      exact ⟨hm, rfl⟩
    · have hgt : p.ip_off + p.ip_len > m.ip_off := by
        simp only [Frag.stop] at hle; omega
      rw [if_pos hgt, if_neg (show ¬ p.stop ≤ m.toPiece.off from hle)]
      by_cases hcov : m.stop ≤ p.stop
      · have hge : p.ip_off + p.ip_len - m.ip_off ≥ m.ip_len := by
          simp only [Frag.stop] at hcov; omega
        simp only [hge, hcov, if_true]; exact ⟨rfl, fun m' h => by cases h⟩
      · have hlt : ¬ p.ip_off + p.ip_len - m.ip_off ≥ m.ip_len := by
          simp only [Frag.stop] at hcov; omega
        have hoff : (m.ip_off + (p.ip_off + p.ip_len - m.ip_off)) % 65536 =
            m.ip_off + (p.ip_off + p.ip_len - m.ip_off) := by
          have := hw p rfl (by omega) (by omega)
          simp only [Frag.stop] at this; omega
        simp only [hlt, hcov, if_false, hoff]
        refine ⟨rfl, fun m' h => ?_⟩
        obtain rfl := some.inj h
        have hm' : m.ip_len = m.data.length := hm
        refine ⟨?_, ?_⟩
        · show m.ip_len - _ = (m.data.drop _).length
          rw [length_drop, hm']
        · simp only [Frag.stop]; omega

/-- The fragment is put in front of the succeeding ones as a piece is, and the replaced fragments
    are no more counted. -/
theorem reassPlace_toPiece (hm : m.Sized) (hs : ∀ f ∈ frags, f.Sized)
    (hw : ∀ q ∈ frags, q.ip_off < m.stop → m.stop < q.stop → m.stop < 65536) (n : BitVec 8) :
    (reassPlace m n frags).1.map Frag.toPiece = Piece.place m.toPiece (frags.map Frag.toPiece) ∧
      (∀ f ∈ (reassPlace m n frags).1, f.Sized) ∧
      (reassPlace m n frags).2 + BitVec.ofNat 8 (frags.length + 1) =
        n + BitVec.ofNat 8 (reassPlace m n frags).1.length := by
  induction frags generalizing n with
  | nil =>
    refine ⟨rfl, ?_, rfl⟩
    intro f hf
    obtain rfl := mem_singleton.mp hf
    exact hm
  | cons q qs ih =>
    have hq := hs q mem_cons_self
    rw [map_cons, Piece.place, Frag.toPiece_stop hm, Frag.toPiece_stop hq, reassPlace]
    by_cases hstop : m.stop ≤ q.ip_off
    · have hgt : ¬ m.ip_off + m.ip_len > q.ip_off := by
        simp only [Frag.stop] at hstop; omega
      rw [if_neg hgt, if_pos (show m.stop ≤ q.toPiece.off from hstop)]
      refine ⟨rfl, ?_, rfl⟩
      intro f hf
      rcases mem_cons.mp hf with rfl | hf
      · exact hm
      · exact hs f hf
    · have hgt : m.ip_off + m.ip_len > q.ip_off := by
        simp only [Frag.stop] at hstop; omega
      rw [if_pos hgt, if_neg (show ¬ m.stop ≤ q.toPiece.off from hstop)]
      by_cases hcut : m.stop < q.stop
      · have hlt : m.ip_off + m.ip_len - q.ip_off < q.ip_len := by
          simp only [Frag.stop] at hcut; omega
        have hoff : (q.ip_off + (m.ip_off + m.ip_len - q.ip_off)) % 65536 =
            q.ip_off + (m.ip_off + m.ip_len - q.ip_off) := by
          have := hw q mem_cons_self (by omega) hcut
          simp only [Frag.stop] at this; omega
        simp only [hlt, hcut, if_true, hoff]
        refine ⟨rfl, ?_, rfl⟩
        intro f hf
        rcases mem_cons.mp hf with rfl | hf
        · exact hm
        · rcases mem_cons.mp hf with rfl | hf
          · have hq' : q.ip_len = q.data.length := hq
            show q.ip_len - _ = (q.data.drop _).length
            rw [length_drop, hq']
          · exact hs f (mem_cons_of_mem _ hf)
      · have hge : ¬ m.ip_off + m.ip_len - q.ip_off < q.ip_len := by
          simp only [Frag.stop] at hcut; omega
        simp only [hge, hcut, if_false]
        obtain ⟨hmap, hsized, hcount⟩ := ih (fun f hf => hs f (mem_cons_of_mem _ hf))
          (fun f hf => hw f (mem_cons_of_mem _ hf)) (n - 1)
        refine ⟨hmap, hsized, ?_⟩
        have hsucc : BitVec.ofNat 8 ((q :: qs).length + 1) =
            BitVec.ofNat 8 (qs.length + 1) + 1 := by
          rw [length_cons, BitVec.ofNat_add (qs.length + 1) 1]; rfl
        rw [hsucc, ← BitVec.add_assoc, hcount]
        bv_omega

/-- Where no offset wraps, a fragment is inserted as a piece of the datagram is; a dropped fragment
    has nothing new. -/
theorem reassInsert_spec (fp : Ipq) (hm : m.Sized) (hs : ∀ f ∈ fp.frags, f.Sized)
    (hw : NoWrap fp.frags m) :
    (reassInsert fp m = none ∧
      Piece.insert m.toPiece (fp.frags.map Frag.toPiece) = fp.frags.map Frag.toPiece) ∨
    ∃ fp', reassInsert fp m = some fp' ∧
      Piece.insert m.toPiece (fp.frags.map Frag.toPiece) = fp'.frags.map Frag.toPiece ∧
      (∀ f ∈ fp'.frags, f.Sized) ∧ fp'.frags ≠ [] ∧
      fp'.nfrags + BitVec.ofNat 8 (fp.frags.length + 1) =
        fp.nfrags + BitVec.ofNat 8 fp'.frags.length := by
  have hsplit : reassBefore m fp.frags ++ reassAfter m fp.frags = fp.frags :=
    takeWhile_append_dropWhile
  have hsb : ∀ f ∈ reassBefore m fp.frags, f.Sized := fun f hf =>
    hs f (hsplit ▸ mem_append_left _ hf)
  have hsa : ∀ f ∈ reassAfter m fp.frags, f.Sized := fun f hf =>
    hs f (hsplit ▸ mem_append_right _ hf)
  obtain ⟨hfit, hfitted⟩ := reassFit_toPiece hm
    (fun f hf => hsb f (mem_of_getLast? hf)) hw.front
  rw [Piece.insert, before_toPiece, after_toPiece, List.getLast?_map, ← hfit, reassInsert]
  cases hr : reassFit m (reassBefore m fp.frags).getLast? with
  | none => exact .inl ⟨rfl, rfl⟩
  | some m' =>
    obtain ⟨hm', hstop⟩ := hfitted m' hr
    obtain ⟨hmap, hsized, hcount⟩ := reassPlace_toPiece hm' hsa
      (fun q hq h1 h2 => hstop ▸ hw.back q hq (hstop ▸ h1) (hstop ▸ h2)) fp.nfrags
    refine .inr ⟨_, rfl, ?_, ?_, ?_, ?_⟩
    · simp only [map_some, map_append, hmap]
    · intro f hf
      rcases mem_append.mp hf with hf | hf
      · exact hsb f hf
      · exact hsized f hf
    · intro hnil
      have hlen := congrArg List.length (append_eq_nil_iff.mp hnil).2
      have hplace := congrArg List.length hmap
      rw [length_map, hlen, length_nil] at hplace
      exact Piece.place_ne_nil _ _ (length_eq_zero_iff.mp hplace.symm)
    · have hlen : fp.frags.length + 1 =
          (reassBefore m fp.frags).length + ((reassAfter m fp.frags).length + 1) := by
        rw [← add_assoc, ← length_append, hsplit]
      show (reassPlace m' fp.nfrags (reassAfter m fp.frags)).2 + _ = fp.nfrags + _
      have hadd : ∀ a b : ℕ, BitVec.ofNat 8 (a + b) = BitVec.ofNat 8 a + BitVec.ofNat 8 b :=
        fun a b => BitVec.ofNat_add a b
      rw [length_append, hlen, hadd, hadd (reassBefore m fp.frags).length]
      generalize BitVec.ofNat 8 ((reassAfter m fp.frags).length + 1) = u at hcount ⊢
      generalize BitVec.ofNat 8 (reassPlace m' fp.nfrags (reassAfter m fp.frags)).1.length = v
        at hcount ⊢
      generalize BitVec.ofNat 8 (reassBefore m fp.frags).length = w
      bv_omega

end FreeBSD.IpReass
