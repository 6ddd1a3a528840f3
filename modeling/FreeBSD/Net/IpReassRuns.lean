import FreeBSD.Lib.Runs
import FreeBSD.Net.IpReass

/-!
# The reassembly queue under arbitrary fragments

The fragments of one datagram arrive with any offsets, lengths and MF flags; the queue may be freed
at any time by a timeout or by the limit on the number of queues. `ip_off` is a `u_short` and is
moved forward when a fragment loses its front to another one: it wraps if that one ends beyond
65535. `ipq_nfrags` is a `u_char`.

Results:
* `reassFinish_spec`: what is returned is contiguous, of a sane size and made of received bytes.
* `queue_of_run`: where no offset wraps and the count does not overflow, the queue stays sorted,
  disjoint and counted.
* `ip_off_wraps`: two fragments after which the queue is not sorted.
-/

namespace FreeBSD.IpReass

open List Option BitVec
open Lib (Piece Runs)

/-- The state of a run: the queue, and what was received and returned so far. -/
structure Reass where
  queue : Option Ipq
  received : List IpPacket
  returned : List Datagram

/-- A fragment arrives, where `t` tells whether there is an mbuf for a new queue; or the queue is
    freed (`ip_freef`). -/
inductive Op where
  | packet (pkt : IpPacket) (t : Bool)
  | free

def init : Reass := { queue := none, received := [], returned := [] }

def step (maxfragsperpacket : ℤ) (s : Reass) : Op → Option (Reass × Option Datagram)
  | .free => some ({ s with queue := none }, none)
  | .packet pkt t =>
    match ipInputFrag pkt with
    | none => some ({ s with received := pkt :: s.received }, none)
    | some m =>
      (ipReass maxfragsperpacket t m s.queue).map fun (fp, d) =>
        ({ queue := fp, received := pkt :: s.received, returned := d.toList ++ s.returned }, d)

/-- The byte `b` was received at offset `k` of the datagram. -/
def ReceivedAt (received : List IpPacket) (k : ℕ) (b : Byte) : Prop :=
  ∃ pkt ∈ received, 8 * (pkt.ip_off &&& ipOffmask).toNat ≤ k ∧
    pkt.payload[k - 8 * (pkt.ip_off &&& ipOffmask).toNat]? = some b

/-- What is promised of the queue and of the returned datagrams. -/
structure Organized (s : Reass) : Prop where
  sorted : ∀ fp, s.queue = some fp → fp.frags.Pairwise fun a b => a.ip_off ≤ b.ip_off
  disjoint : ∀ fp, s.queue = some fp →
    fp.frags.Pairwise fun a b => a.ip_off + a.ip_len ≤ b.ip_off
  counted : ∀ fp, s.queue = some fp → fp.nfrags.toNat = fp.frags.length
  returned : ∀ d ∈ s.returned, 4 * d.ip_hl + d.ip_len ≤ ipMaxpacket ∧ d.data.length = d.ip_len ∧
    ∀ k b, d.data[k]? = some b → ReceivedAt s.received k b

/-- The queue has room for a count of one more, and no offset wraps. -/
def Fits (s : Reass) : Op → Prop
  | .packet pkt _ => ∀ m fp, ipInputFrag pkt = some m → s.queue = some fp →
      fp.frags.length < 255 ∧ NoWrap fp.frags m
  | .free => True

/-! ## The invariant -/

/-- A queue of received fragments. -/
structure Queued (R : ℕ → Byte → Prop) (fp : Ipq) : Prop where
  nonempty : fp.frags ≠ []
  sized : ∀ f ∈ fp.frags, f.Sized
  sorted : Sorted fp.frags
  count : fp.nfrags = BitVec.ofNat 8 fp.frags.length
  content : ∀ f ∈ fp.frags, Piece.Content R f.toPiece

/-- A datagram of received bytes. -/
def Sane (R : ℕ → Byte → Prop) (d : Datagram) : Prop :=
  4 * d.ip_hl + d.ip_len ≤ ipMaxpacket ∧ d.data.length = d.ip_len ∧
    ∀ k b, d.data[k]? = some b → R k b

structure Valid (s : Reass) : Prop where
  queue : ∀ fp, s.queue = some fp → Queued (ReceivedAt s.received) fp ∧ fp.frags.length ≤ 255
  returned : ∀ d ∈ s.returned, Sane (ReceivedAt s.received) d

variable {R R' : ℕ → Byte → Prop} {fp : Ipq} {m : Frag} {s : Reass} {max : ℤ}

theorem Queued.mono (h : Queued R fp) (hR : ∀ k b, R k b → R' k b) : Queued R' fp :=
  ⟨h.nonempty, h.sized, h.sorted, h.count, fun f hf k b hk => hR _ _ (h.content f hf k b hk)⟩

theorem Sane.mono {d : Datagram} (h : Sane R d) (hR : ∀ k b, R k b → R' k b) : Sane R' d :=
  ⟨h.1, h.2.1, fun k b hk => hR _ _ (h.2.2 k b hk)⟩

theorem ReceivedAt.mono {received : List IpPacket} {k : ℕ} {b : Byte} (pkt : IpPacket)
    (h : ReceivedAt received k b) : ReceivedAt (pkt :: received) k b := by
  obtain ⟨p, hp, hle, hb⟩ := h
  exact ⟨p, mem_cons_of_mem _ hp, hle, hb⟩

/-- A fragment from `ip_input` has the bytes of its packet at its offset. -/
theorem ipInputFrag_spec {pkt : IpPacket} (received : List IpPacket)
    (h : ipInputFrag pkt = some m) :
    m.Sized ∧ m.ip_off < 65536 ∧ Piece.Content (ReceivedAt (pkt :: received)) m.toPiece := by
  have hoff : (pkt.ip_off <<< 3).toNat = 8 * (pkt.ip_off &&& ipOffmask).toNat := by
    have hmask : (pkt.ip_off &&& ipOffmask).toNat = pkt.ip_off.toNat % 2 ^ 13 := by
      rw [toNat_and, ← Nat.and_two_pow_sub_one_eq_mod]; rfl
    rw [toNat_shiftLeft, Nat.shiftLeft_eq, hmask]; omega
  have hm : m.ip_off = (pkt.ip_off <<< 3).toNat ∧ m.ip_len = pkt.payload.length ∧
      m.data = pkt.payload := by
    simp only [ipInputFrag] at h
    split at h
    · cases h
    · split at h
      · split at h
        · cases h
        · obtain rfl := some.inj h
          exact ⟨rfl, rfl, rfl⟩
      · obtain rfl := some.inj h
        exact ⟨rfl, rfl, rfl⟩
  obtain ⟨hmo, hml, hmd⟩ := hm
  refine ⟨by rw [Frag.Sized, hml, hmd], by rw [hmo]; omega, ?_⟩
  intro k b hk
  have hk' : pkt.payload[k]? = some b := hmd ▸ hk
  refine ⟨pkt, mem_cons_self, ?_, ?_⟩
  · show _ ≤ m.ip_off + k; omega
  · show pkt.payload[m.ip_off + k - _]? = some b
    rw [← hoff, hmo, Nat.add_sub_cancel_left]; exact hk'

/-! ## `ip_reass` -/

theorem reassNext_toPiece {frags : List Frag} (hs : ∀ f ∈ frags, f.Sized) (next : ℕ) :
    reassNext next frags = Piece.touching next (frags.map Frag.toPiece) := by
  induction frags generalizing next with
  | nil => rfl
  | cons q qs ih =>
    have hq : q.ip_len = q.data.length := hs q mem_cons_self
    rw [reassNext, map_cons, Piece.touching, ih fun f hf => hs f (mem_cons_of_mem _ hf),
      hq]
    by_cases hoff : q.ip_off = next
    · rw [if_neg (not_not.mpr hoff), if_pos (show q.toPiece.off = next from hoff)]; rfl
    · rw [if_pos hoff, if_neg (show ¬ q.toPiece.off = next from hoff)]

theorem joined_toPiece (frags : List Frag) :
    Piece.joined (frags.map Frag.toPiece) = frags.flatMap Frag.data := by
  rw [Piece.joined, flatMap_map]; rfl

/-- What is left of the queue is the queue or nothing, and what is returned is sane. -/
theorem reassFinish_spec (max : ℤ) (hs : ∀ f ∈ fp.frags, f.Sized) (hne : fp.frags ≠ [])
    (hc : ∀ f ∈ fp.frags, Piece.Content R f.toPiece) :
    ∃ fp' d, reassFinish max fp = some (fp', d) ∧ (fp' = none ∨ fp' = some fp) ∧
      ∀ dg, d = some dg → Sane R dg := by
  have hlimit : reassLimit max fp = none ∨ reassLimit max fp = some fp := by
    rw [reassLimit]
    split
    · exact .inl rfl
    · exact .inr rfl
  obtain ⟨q, qs, hcons⟩ := exists_cons_of_ne_nil hne
  have hhead : fp.frags.head? = some q := by rw [hcons, List.head?_cons]
  have hlast := List.getLast?_eq_some_getLast hne
  cases hn : reassNext 0 fp.frags with
  | none =>
    refine ⟨reassLimit max fp, none, ?_, hlimit, fun dg h => by cases h⟩
    rw [reassFinish, hn]
  | some next =>
    by_cases hmf : (fp.frags.getLast hne).mFrag
    · refine ⟨reassLimit max fp, none, ?_, hlimit, fun dg h => by cases h⟩
      simp only [reassFinish, hn, hhead, hlast, hmf, if_true]
    · by_cases hlong : next + 4 * q.ip_hl > ipMaxpacket
      · refine ⟨none, none, ?_, .inl rfl, fun dg h => by cases h⟩
        simp only [reassFinish, hn, hhead, hlast, hmf, hlong, if_true, if_false,
          Bool.false_eq_true]
      · refine ⟨none, some ⟨q.ip_hl, q.ip_tos, next, fp.frags.flatMap Frag.data⟩, ?_, .inl rfl,
          ?_⟩
        · simp only [reassFinish, hn, hhead, hlast, hmf, hlong, if_false, Bool.false_eq_true]
        · intro dg h
          obtain rfl := some.inj h
          rw [reassNext_toPiece hs] at hn
          obtain ⟨hlen, hcont⟩ := Piece.touching_content hn (R := R) (by
            intro x hx
            obtain ⟨f, hf, rfl⟩ := mem_map.mp hx
            exact hc f hf)
          rw [joined_toPiece] at hlen hcont
          refine ⟨by show 4 * q.ip_hl + next ≤ ipMaxpacket; omega, by
            show (fp.frags.flatMap Frag.data).length = next; omega, ?_⟩
          intro k b hk
          have hR := hcont k b hk
          rwa [zero_add] at hR

/-- The ECN mark changes the type of service of the first fragment only. -/
theorem reassEcn_spec {first first' : Frag} (h : reassEcn first m = some first') :
    ∃ tos, first' = { first with ip_tos := tos } := by
  simp only [reassEcn] at h
  split at h
  · split at h
    · cases h
    · split at h
      · exact ⟨_, (some.inj h).symm⟩
      · exact ⟨first.ip_tos, (some.inj h).symm⟩
  · split at h
    · cases h
    · exact ⟨first.ip_tos, (some.inj h).symm⟩

/-- A queue whose first fragment is marked is a queue of the same bytes. -/
theorem Queued.mark {first : Frag} {rest : List Frag} (h : Queued R fp)
    (hf : fp.frags = first :: rest) (tos : BitVec 8) :
    Queued R { fp with frags := { first with ip_tos := tos } :: rest } := by
  obtain ⟨-, hs, hsort, hcount, hcont⟩ := h
  rw [hf] at hs hsort hcount hcont
  refine ⟨cons_ne_nil _ _, ?_, ?_, hcount, ?_⟩
  · intro f hf'
    rcases mem_cons.mp hf' with rfl | hf'
    · exact hs first mem_cons_self
    · exact hs f (mem_cons_of_mem _ hf')
  · obtain ⟨h1, h2⟩ := pairwise_cons.mp hsort
    exact pairwise_cons.mpr ⟨h1, h2⟩
  · intro f hf'
    rcases mem_cons.mp hf' with rfl | hf'
    · exact hcont first mem_cons_self
    · exact hcont f (mem_cons_of_mem _ hf')

/-- Whether an offset wraps depends on the offsets and lengths only. -/
theorem NoWrap.congr {frags frags' : List Frag} (h : NoWrap frags m)
    (hk : frags'.map (fun f => (f.ip_off, f.ip_len)) =
      frags.map fun f => (f.ip_off, f.ip_len)) : NoWrap frags' m := by
  have hbefore : ∀ l : List Frag, (reassBefore m l).map (fun f => (f.ip_off, f.ip_len)) =
      (l.map fun f => (f.ip_off, f.ip_len)).takeWhile fun k => k.1 ≤ m.ip_off :=
    fun l => by rw [takeWhile_map]; rfl
  have hafter : ∀ l : List Frag, (reassAfter m l).map (fun f => (f.ip_off, f.ip_len)) =
      (l.map fun f => (f.ip_off, f.ip_len)).dropWhile fun k => k.1 ≤ m.ip_off :=
    fun l => by rw [dropWhile_map]; rfl
  have hb := (hbefore frags').trans ((congrArg _ hk).trans (hbefore frags).symm)
  have ha := (hafter frags').trans ((congrArg _ hk).trans (hafter frags).symm)
  constructor
  · intro p hp h1 h2
    have hlast := congrArg List.getLast? hb
    rw [List.getLast?_map, List.getLast?_map, hp, map_some] at hlast
    obtain ⟨p', hp', heq⟩ := map_eq_some_iff.mp hlast.symm
    obtain ⟨hoff, hlen⟩ := Prod.mk.inj heq
    have hstop : p'.stop = p.stop := by simp only [Frag.stop, hoff, hlen]
    rw [← hstop] at h1 h2 ⊢; exact h.front p' hp' h1 h2
  · intro q hq h1 h2
    have hmem := mem_map_of_mem (f := fun f : Frag => (f.ip_off, f.ip_len)) hq
    rw [ha] at hmem
    obtain ⟨q', hq', heq⟩ := mem_map.mp hmem
    obtain ⟨hoff, hlen⟩ := Prod.mk.inj heq
    have hstop : q'.stop = q.stop := by simp only [Frag.stop, hoff, hlen]
    rw [← hstop] at h2
    rw [← hoff] at h1; exact h.back q' hq' h1 h2

/-- The queue with a new fragment, or the fragment is dropped. -/
theorem Queued.insert (h : Queued R fp) (hm : m.Sized) (hc : Piece.Content R m.toPiece)
    (hw : NoWrap fp.frags m) :
    reassInsert { fp with nfrags := fp.nfrags + 1 } m = none ∨
    ∃ fp', reassInsert { fp with nfrags := fp.nfrags + 1 } m = some fp' ∧ Queued R fp' ∧
      fp'.frags.length ≤ fp.frags.length + 1 := by
  obtain ⟨hr, -⟩ | ⟨fp', hr, hins, hs, hne, hcount⟩ :=
    reassInsert_spec { fp with nfrags := fp.nfrags + 1 } hm h.sized hw
  · exact .inl hr
  · obtain ⟨hsorted, hrest, -⟩ :=
      Piece.insert_spec ((sorted_toPiece h.sized).mpr h.sorted) m.toPiece
    rw [hins] at hsorted hrest
    refine .inr ⟨fp', hr, ⟨hne, hs, (sorted_toPiece hs).mp hsorted, ?_, ?_⟩, ?_⟩
    · have hadd : BitVec.ofNat 8 (fp.frags.length + 1) = BitVec.ofNat 8 fp.frags.length + 1 :=
        ofNat_add _ _
      simp only [hadd, h.count] at hcount
      generalize BitVec.ofNat 8 fp.frags.length = u at hcount
      generalize BitVec.ofNat 8 fp'.frags.length = v at hcount ⊢
      bv_omega
    · intro f hf
      obtain ⟨y, hy, hfy⟩ := hrest f.toPiece (mem_map_of_mem hf)
      refine hfy.content ?_
      rcases mem_cons.mp hy with rfl | hy
      · exact hc
      · obtain ⟨g, hg, rfl⟩ := mem_map.mp hy
        exact h.content g hg
    · have hlen := Piece.length_insert_le m.toPiece (fp.frags.map Frag.toPiece)
      rw [hins, length_map, length_map] at hlen; exact hlen

/-- What `ip_reass` leaves of the queue, and what it returns. -/
theorem ipReass_spec (max : ℤ) (t : Bool) (hm : m.Sized) (hc : Piece.Content R m.toPiece)
    {queue : Option Ipq} (hq : ∀ fp, queue = some fp → Queued R fp)
    (hf : ∀ fp, queue = some fp → fp.frags.length < 255 ∧ NoWrap fp.frags m) :
    ∃ queue' d, ipReass max t m queue = some (queue', d) ∧
      (∀ fp, queue' = some fp → Queued R fp ∧ fp.frags.length ≤ 255) ∧
      ∀ dg, d = some dg → Sane R dg := by
  have hfinish : ∀ fp : Ipq, Queued R fp → fp.frags.length ≤ 255 →
      ∃ queue' d, reassFinish max fp = some (queue', d) ∧
        (∀ fp, queue' = some fp → Queued R fp ∧ fp.frags.length ≤ 255) ∧
        ∀ dg, d = some dg → Sane R dg := by
    intro fp h hlen
    obtain ⟨queue', d, hrun, hleft, hd⟩ :=
      reassFinish_spec max h.sized h.nonempty h.content
    refine ⟨queue', d, hrun, ?_, hd⟩
    intro fp' hfp'
    rcases hleft with rfl | rfl
    · cases hfp'
    · obtain rfl := some.inj hfp'
      exact ⟨h, hlen⟩
  cases queue with
  | none =>
    cases t with
    | false =>
      exact ⟨none, none, rfl, (fun fp h => by cases h), fun dg h => by cases h⟩
    | true =>
      refine hfinish { nfrags := 1, frags := [m] } ⟨cons_ne_nil _ _, ?_, ?_, rfl, ?_⟩
        (Nat.le_of_ble_eq_true rfl)
      · intro f hf
        obtain rfl := mem_singleton.mp hf
        exact hm
      · exact pairwise_singleton _ _
      · intro f hf
        obtain rfl := mem_singleton.mp hf
        exact hc
  | some fp =>
    have hfp := hq fp rfl
    obtain ⟨hlen, hw⟩ := hf fp rfl
    have hback : fp.nfrags + 1 - 1 = fp.nfrags := by bv_omega
    obtain ⟨first, rest, hcons⟩ := exists_cons_of_ne_nil hfp.nonempty
    cases hecn : reassEcn first m with
    | none =>
      refine ⟨some fp, none, ?_, ?_, fun dg h => by cases h⟩
      · simp only [ipReass, hcons, hecn, hback]
        rw [← hcons]
      · intro fp' hfp'
        obtain rfl := some.inj hfp'
        exact ⟨hfp, by omega⟩
    | some first' =>
      obtain ⟨tos, rfl⟩ := reassEcn_spec hecn
      have hmark := hfp.mark hcons tos
      have hw' : NoWrap ({ first with ip_tos := tos } :: rest) m := by
        refine hw.congr ?_
        rw [hcons]; rfl
      have hlen' : rest.length + 1 < 255 := by rw [hcons, length_cons] at hlen; exact hlen
      rcases hmark.insert hm hc hw' with hr | ⟨fp', hr, hfp', hlen''⟩
      · refine ⟨some { fp with frags := { first with ip_tos := tos } :: rest }, none, ?_, ?_,
          fun dg h => by cases h⟩
        · simp only [ipReass, hcons, hecn, hback]
          rw [hr]
        · intro fp' hfp'
          obtain rfl := some.inj hfp'
          refine ⟨hmark, ?_⟩
          show rest.length + 1 ≤ 255
          omega
      · obtain ⟨queue', d, hrun, hleft, hd⟩ := hfinish fp' hfp' (by
          have : fp'.frags.length ≤ rest.length + 1 + 1 := hlen''
          omega)
        refine ⟨queue', d, ?_, hleft, hd⟩
        simp only [ipReass, hcons, hecn]
        rw [hr]; exact hrun

/-! ## Runs -/

/-- A step keeps the invariant. -/
theorem step_valid (max : ℤ) (h : Valid s) {op : Op} (hf : Fits s op) :
    ∃ t d, step max s op = some (t, d) ∧ Valid t := by
  cases op with
  | free =>
    exact ⟨_, _, rfl, (fun fp hfp => by cases hfp), h.returned⟩
  | packet pkt t =>
    cases hin : ipInputFrag pkt with
    | none =>
      refine ⟨{ s with received := pkt :: s.received }, none, by simp only [step, hin], ?_, ?_⟩
      · intro fp hfp
        obtain ⟨hq, hlen⟩ := h.queue fp hfp
        exact ⟨hq.mono fun k b hb => hb.mono pkt, hlen⟩
      · exact fun d hd => (h.returned d hd).mono fun k b hb => hb.mono pkt
    | some m =>
      obtain ⟨hm, -, hc⟩ := ipInputFrag_spec s.received hin
      obtain ⟨queue', d, hrun, hq, hd⟩ := ipReass_spec max t hm hc
        (fun fp hfp => (h.queue fp hfp).1.mono fun k b hb => hb.mono pkt)
        (fun fp hfp => hf m fp hin hfp)
      refine ⟨{ queue := queue', received := pkt :: s.received,
                returned := d.toList ++ s.returned }, d, ?_, hq, ?_⟩
      · simp only [step, hin, hrun, map_some]
      · intro dg hdg
        rcases mem_append.mp hdg with hdg | hdg
        · exact hd dg (mem_toList.mp hdg)
        · exact (h.returned dg hdg).mono fun k b hb => hb.mono pkt

theorem Valid.organized (h : Valid s) : Organized s where
  sorted := by
    intro fp hfp
    refine (h.queue fp hfp).1.sorted.imp fun {a b} hab => ?_
    exact (Nat.le_add_right _ _).trans hab
  disjoint := fun fp hfp => (h.queue fp hfp).1.sorted
  counted := by
    intro fp hfp
    obtain ⟨hq, hlen⟩ := h.queue fp hfp
    rw [hq.count, toNat_ofNat]; exact Nat.mod_eq_of_lt (by omega)
  returned := h.returned

theorem init_valid : Valid init :=
  ⟨(fun fp hfp => by cases hfp), fun d hd => absurd hd not_mem_nil⟩

/-- In every run in which no offset wraps and there are never more than 255 fragments on the queue,
    the queue is sorted, disjoint and counted, and what is returned was received. -/
theorem queue_of_run (hrun : Runs (step max) Fits init s) : Organized s := by
  refine Valid.organized (hrun.invariant (I := Valid) init_valid ?_)
  · intro s op t r hs hf hstep
    obtain ⟨t', d, hstep', ht⟩ := step_valid max hs hf
    obtain ⟨rfl, -⟩ := Prod.mk.inj (Option.some.inj (hstep'.symm.trans hstep))
    exact ht

/-- A fragment with MF at the last offset that the header can give. -/
def lastOffset (n : ℕ) (h : 20 + n ≤ 65535) : IpPacket where
  ip_hl := 5
  ip_tos := 0
  ip_off := 0x3fff
  payload := List.replicate n 0
  hl_le := by decide
  len_le := by rw [length_replicate]; exact h

/-- A run of one fragment. -/
theorem queue_of_run_first : ∃ s d,
    step 16 init (.packet (lastOffset 8 (by decide)) true) = some (s, d) ∧ Organized s := by
  have hfits : Fits init (.packet (lastOffset 8 (by decide)) true) := fun m fp _ hfp => by cases hfp
  obtain ⟨s, d, hstep, -⟩ := step_valid 16 init_valid hfits
  exact ⟨s, d, hstep, queue_of_run (Runs.refl.tail hfits hstep)⟩

/-- The second fragment loses its first eight bytes to the first one, which ends at 65536, and its
    offset becomes 0. -/
theorem ip_off_wraps : ¬ ∀ s, Runs (step 16) (fun _ _ => True) init s → Organized s := by
  intro hall
  obtain ⟨s, hrun, hs⟩ := Lib.exists_of_exec (step 16) (P := fun _ _ => True) (s := init)
    (f := fun s => s.queue.map fun fp => fp.frags.map Frag.ip_off) (b := some [65528, 0])
    [.packet (lastOffset 8 (by decide)) true, .packet (lastOffset 16 (by decide)) true]
    (fun _ _ _ => trivial) (by decide +kernel)
  obtain ⟨fp, hfp, hoffs⟩ := Option.map_eq_some_iff.mp hs
  have hsorted := (hall s hrun).sorted fp hfp
  have hmap : (fp.frags.map Frag.ip_off).Pairwise (· ≤ ·) := pairwise_map.mpr hsorted
  rw [hoffs] at hmap; exact absurd hmap (by decide)

end FreeBSD.IpReass
