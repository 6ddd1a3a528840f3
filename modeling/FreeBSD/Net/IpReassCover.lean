import FreeBSD.Net.IpReassRuns

/-!
# Reassembly of one datagram

All fragments are parts of one payload, in any order and with any duplicates and overlaps, and the
queue never holds more than `maxfragsperpacket` of them. The queued fragments contain what was
received, and the last one tells by its MF flag whether it ends the payload.

Results:
* `collected_insert`: the queue contains what was received with the new fragment.
* `reass_of_run`: the payload is returned by the fragment that completes it, and nothing before.
-/

namespace FreeBSD.IpReass

open List Option
open Lib (Piece Runs)

variable {P : List Byte} {e : BitVec 8} {m : Frag} {fp : Ipq}

/-- A fragment of the payload `P`: its bytes at its offset, with MF clear exactly if it contains the
    last byte; `e` is the ECN field of all fragments. -/
structure PartOf (P : List Byte) (e : BitVec 8) (m : Frag) : Prop where
  sized : m.Sized
  nonempty : m.data ≠ []
  aligned : 8 ∣ m.ip_off
  inside : m.stop ≤ P.length
  content : Piece.Content (fun k b => P[k]? = some b) m.toPiece
  last : m.mFrag = decide (m.stop < P.length)
  ecn : m.ip_tos &&& iptosEcnMask = e
  fits : 4 * m.ip_hl + P.length ≤ ipMaxpacket

/-- The fragments contain the whole payload. -/
def Covers (P : List Byte) (received : List Frag) : Prop :=
  ∀ k < P.length, ∃ m ∈ received, m.ip_off ≤ k ∧ k < m.stop

/-- The queue and the fragments that were received. -/
abbrev Collecting := Option Ipq × List Frag

/-- A fragment arrives. -/
def collect (maxfragsperpacket : ℤ) (s : Collecting) (m : Frag) :
    Option (Collecting × Option Datagram) :=
  (ipReass maxfragsperpacket true m s.1).map fun (fp, d) => ((fp, m :: s.2), d)

/-- The fragments on the queue when `m` has been inserted. -/
def queuedWith (s : Collecting) (m : Frag) : List Frag :=
  match s.1 with
  | none => [m]
  | some fp => ((reassInsert { fp with nfrags := fp.nfrags + 1 } m).getD fp).frags

/-- A fragment of `P` arrives which does not complete it, and no more than `maxfragsperpacket`
    fragments are queued. -/
def Partial (P : List Byte) (e : BitVec 8) (maxfragsperpacket : ℤ) (s : Collecting) (m : Frag) :
    Prop :=
  PartOf P e m ∧ ¬ Covers P (m :: s.2) ∧ ((queuedWith s m).length : ℤ) ≤ maxfragsperpacket

/-! ## The invariant -/

/-- What the fragments on the queue keep of those received, which may lose their fronts. -/
structure Good (P : List Byte) (e : BitVec 8) (f : Frag) : Prop where
  nonempty : f.data ≠ []
  inside : f.stop ≤ P.length
  last : f.mFrag = decide (f.stop < P.length)
  ecn : f.ip_tos &&& iptosEcnMask = e
  fits : 4 * f.ip_hl + P.length ≤ ipMaxpacket

/-- The queue contains what was received. -/
structure Collected (P : List Byte) (e : BitVec 8) (fp : Ipq) (received : List Frag) : Prop where
  queued : Queued (fun k b => P[k]? = some b) fp
  good : ∀ f ∈ fp.frags, Good P e f
  covers : ∀ k, (∃ x ∈ fp.frags.map Frag.toPiece, x.Contains k) ↔
    ∃ m ∈ received, m.ip_off ≤ k ∧ k < m.stop

theorem PartOf.good (h : PartOf P e m) : Good P e m :=
  ⟨h.nonempty, h.inside, h.last, h.ecn, h.fits⟩

theorem PartOf.contains (h : PartOf P e m) (k : ℕ) :
    m.toPiece.Contains k ↔ m.ip_off ≤ k ∧ k < m.stop := by
  rw [Piece.Contains, Frag.toPiece_stop h.sized]; rfl

/-- What is left of a good fragment is good. -/
theorem Good.rest {f g : Frag} (hg : Good P e g) (hfs : f.Sized) (hgs : g.Sized)
    (h : Piece.IsRest f.toPiece g.toPiece) : Good P e f := by
  have hstop := h.stop
  rw [Frag.toPiece_stop hfs, Frag.toPiece_stop hgs] at hstop
  obtain ⟨hhl, htos, hmf⟩ : f.ip_hl = g.ip_hl ∧ f.ip_tos = g.ip_tos ∧ f.mFrag = g.mFrag := by
    have htag := h.tag
    simpa only [Frag.toPiece, Prod.mk.injEq] using htag
  refine ⟨h.ne_nil hg.nonempty, hstop ▸ hg.inside, ?_, htos ▸ hg.ecn, hhl ▸ hg.fits⟩
  rw [hmf, hstop, hg.last]

/-- No offset reaches `2^16` within a payload. -/
theorem PartOf.noWrap (hm : PartOf P e m) (frags : List Frag) : NoWrap frags m := by
  have hP : P.length ≤ ipMaxpacket := by
    have := hm.fits; omega
  simp only [ipMaxpacket] at hP
  have hinside := hm.inside
  constructor
  · intro p hp _ hlt; omega
  · intro q hq _ hlt; omega

/-- Without a difference in the ECN fields nothing is marked or dropped. -/
theorem reassEcn_same {first : Frag} (h : first.ip_tos &&& iptosEcnMask = e)
    (hm : m.ip_tos &&& iptosEcnMask = e) : reassEcn first m = some first := by
  simp only [reassEcn, h, hm]
  by_cases hce : e = iptosEcnCe
  · subst hce; rfl
  · rw [if_neg hce, if_neg (fun h => h.2 h.1)]

/-- The queue with the new fragment contains what was received with it. -/
theorem collected_insert {received : List Frag} (h : Collected P e fp received)
    (hm : PartOf P e m) :
    Collected P e ((reassInsert { fp with nfrags := fp.nfrags + 1 } m).getD fp)
      (m :: received) := by
  have hsort := (sorted_toPiece h.queued.sized).mpr h.queued.sorted
  obtain ⟨-, hrest, hcont⟩ := Piece.insert_spec hsort m.toPiece
  have hcov : ∀ k, (∃ x ∈ Piece.insert m.toPiece (fp.frags.map Frag.toPiece), x.Contains k) ↔
      ∃ f ∈ m :: received, f.ip_off ≤ k ∧ k < f.stop := by
    intro k
    rw [hcont k, hm.contains, h.covers]; simp only [mem_cons, exists_eq_or_imp]
  rcases h.queued.insert hm.sized hm.content (hm.noWrap _) with hr | ⟨fp', hr, hq, -⟩
  · -- the fragment has nothing new
    obtain ⟨-, hins⟩ | ⟨fp', hr', -⟩ :=
      reassInsert_spec { fp with nfrags := fp.nfrags + 1 } hm.sized h.queued.sized
        (hm.noWrap _)
    · rw [hr, getD_none]; exact ⟨h.queued, h.good, fun k => by rw [← hcov k, hins]⟩
    · rw [hr] at hr'
      cases hr'
  · obtain ⟨hr', -⟩ | ⟨fp₁, hr', hins, hs, -, -⟩ :=
      reassInsert_spec { fp with nfrags := fp.nfrags + 1 } hm.sized h.queued.sized
        (hm.noWrap _)
    · rw [hr] at hr'
      cases hr'
    · obtain rfl := some.inj (hr.symm.trans hr')
      rw [hr, getD_some]
      refine ⟨hq, ?_, fun k => by rw [← hcov k, hins]⟩
      intro f hf
      have hfm : f.toPiece ∈ Piece.insert m.toPiece (fp.frags.map Frag.toPiece) := by
        rw [hins]; exact mem_map_of_mem hf
      obtain ⟨y, hy, hfy⟩ := hrest _ hfm
      rcases mem_cons.mp hy with rfl | hy
      · exact hm.good.rest (hs f hf) hm.sized hfy
      · obtain ⟨g, hg, rfl⟩ := mem_map.mp hy
        exact (h.good g hg).rest (hs f hf) (h.queued.sized g hg) hfy

/-- Complete or not, what is returned is the payload or nothing. -/
theorem reassFinish_collected (max : ℤ) {received : List Frag} (h : Collected P e fp received) :
    (Covers P received → ∃ d, reassFinish max fp = some (none, some d) ∧ d.data = P ∧
      d.ip_len = P.length) ∧
    (¬ Covers P received → reassFinish max fp = some (reassLimit max fp, none)) := by
  have hs := h.queued.sized
  have hne := h.queued.nonempty
  have hlast := List.getLast?_eq_some_getLast hne
  have hgl := h.good _ (getLast_mem hne)
  obtain ⟨q, qs, hcons⟩ := exists_cons_of_ne_nil hne
  have hhead : fp.frags.head? = some q := by rw [hcons, List.head?_cons]
  have hq := h.good q (hcons ▸ mem_cons_self)
  have hlast' : (fp.frags.map Frag.toPiece).getLast? =
      some (fp.frags.getLast hne).toPiece := by
    rw [List.getLast?_map, hlast, map_some]
  have hstop := Frag.toPiece_stop (hs _ (getLast_mem hne))
  constructor
  · intro hcov
    have htouch : Piece.touching 0 (fp.frags.map Frag.toPiece) = some P.length := by
      refine Piece.touching_of_contains ((sorted_toPiece hs).mpr h.queued.sorted) ?_
        (Nat.zero_le _) (fun _ _ => Nat.zero_le _) ?_ ?_
      · intro x hx
        obtain ⟨f, hf, rfl⟩ := mem_map.mp hx
        exact (h.good f hf).nonempty
      · intro x hx
        obtain ⟨f, hf, rfl⟩ := mem_map.mp hx
        rw [Frag.toPiece_stop (hs f hf)]; exact (h.good f hf).inside
      · intro k _ hk; exact (h.covers k).mpr (hcov k hk)
    have hend := Piece.stop_of_touching htouch hlast'
    rw [hstop] at hend
    have hmf : (fp.frags.getLast hne).mFrag = false := by rw [hgl.last, hend]; simp
    have hfits : ¬ P.length + 4 * q.ip_hl > ipMaxpacket := by
      have := hq.fits; omega
    obtain ⟨hlen, hcont⟩ := Piece.touching_content htouch
      (R := fun k b => P[k]? = some b) (by
        intro x hx
        obtain ⟨f, hf, rfl⟩ := mem_map.mp hx
        exact h.queued.content f hf)
    rw [joined_toPiece] at hlen hcont
    refine ⟨⟨q.ip_hl, q.ip_tos, P.length, fp.frags.flatMap Frag.data⟩, ?_, ?_, rfl⟩
    · simp only [reassFinish, reassNext_toPiece hs, htouch, hhead, hlast, hmf, hfits, if_false,
        Bool.false_eq_true]
    · show fp.frags.flatMap Frag.data = P
      refine ext_getElem (by omega) fun k h₁ h₂ => ?_
      have hk := hcont k _ (List.getElem?_eq_getElem h₁)
      rw [zero_add, List.getElem?_eq_getElem h₂] at hk; exact (some.inj hk).symm
  · intro hcov
    cases htouch : Piece.touching 0 (fp.frags.map Frag.toPiece) with
    | none => rw [reassFinish, reassNext_toPiece hs, htouch]
    | some n =>
      -- the fragments touch, but the payload goes on
      have hend := Piece.stop_of_touching htouch hlast'
      rw [hstop] at hend
      have hlt : n < P.length := by
        by_contra hge
        refine hcov fun k hk => ?_
        exact (h.covers k).mp ((Piece.touching_contains htouch k).mpr ⟨Nat.zero_le _, by omega⟩)
      have hmf : (fp.frags.getLast hne).mFrag = true := by
        rw [hgl.last, hend]; exact decide_eq_true hlt
      simp only [reassFinish, reassNext_toPiece hs, htouch, hhead, hlast, hmf, if_true]

/-! ## Runs -/

/-- Nothing was received without a queue, and otherwise the queue contains it. -/
def Gathered (P : List Byte) (e : BitVec 8) (s : Collecting) : Prop :=
  match s.1 with
  | none => s.2 = []
  | some fp => Collected P e fp s.2

/-- The first fragment makes a queue of its own. -/
theorem collected_first (hm : PartOf P e m) :
    Collected P e { nfrags := 1, frags := [m] } [m] := by
  refine ⟨⟨cons_ne_nil _ _, ?_, pairwise_singleton _ _, rfl, ?_⟩, ?_, ?_⟩
  · intro f hf
    obtain rfl := mem_singleton.mp hf
    exact hm.sized
  · intro f hf
    obtain rfl := mem_singleton.mp hf
    exact hm.content
  · intro f hf
    obtain rfl := mem_singleton.mp hf
    exact hm.good
  · intro k
    simp only [map_cons, map_nil, mem_singleton, exists_eq_left, hm.contains]

/-- A fragment is put on the queue, which is then checked for completeness. -/
theorem ipReass_gathered (max : ℤ) {s : Collecting} (h : Gathered P e s) (hm : PartOf P e m) :
    ∃ fp, Collected P e fp (m :: s.2) ∧ fp.frags = queuedWith s m ∧
      (ipReass max true m s.1 = reassFinish max fp ∨
        ipReass max true m s.1 = some (some fp, none) ∧ ¬ Covers P (m :: s.2) ∨
        Covers P s.2) := by
  obtain ⟨queue, received⟩ := s
  cases queue with
  | none =>
    have hnil : received = [] := h
    subst hnil; exact ⟨_, collected_first hm, rfl, .inl rfl⟩
  | some fp =>
    have hc : Collected P e fp received := h
    have hins := collected_insert hc hm
    refine ⟨_, hins, rfl, ?_⟩
    obtain ⟨first, rest, hcons⟩ := exists_cons_of_ne_nil hc.queued.nonempty
    have hecn := reassEcn_same (hc.good first (hcons ▸ mem_cons_self)).ecn hm.ecn
    have hback : fp.nfrags + 1 - 1 = fp.nfrags := by bv_omega
    have hfp : ({ nfrags := fp.nfrags + 1, frags := first :: rest } : Ipq) =
        { fp with nfrags := fp.nfrags + 1 } := by rw [← hcons]
    cases hr : reassInsert { fp with nfrags := fp.nfrags + 1 } m with
    | some fp' =>
      left
      simp only [ipReass, hcons, hecn]
      rw [hfp, hr, getD_some]
    | none =>
      right
      by_cases hcov : Covers P received
      · exact .inr hcov
      · refine .inl ⟨?_, ?_⟩
        · simp only [ipReass, hcons, hecn, hback]
          rw [hfp, hr, getD_none, ← hcons]
        · -- a dropped fragment contains nothing that the queue does not contain
          rw [hr, getD_none] at hins
          intro hall
          refine hcov fun k hk => ?_
          exact (hc.covers k).mp ((hins.covers k).mpr (hall k hk))

/-- A queue within the limit is kept. -/
theorem Collected.limit {max : ℤ} {received : List Frag} (h : Collected P e fp received)
    (hle : (fp.frags.length : ℤ) ≤ max) : reassLimit max fp = some fp := by
  have hcount : fp.nfrags.toNat ≤ fp.frags.length := by
    rw [h.queued.count, BitVec.toNat_ofNat]; exact Nat.mod_le _ _
  rw [reassLimit, if_neg (by omega)]

theorem PartOf.not_covers_nil (hm : PartOf P e m) : ¬ Covers P [] := by
  intro hcov
  have hpos := length_pos_iff.mpr hm.nonempty
  have hinside := hm.inside
  have hsized : m.ip_len = m.data.length := hm.sized
  simp only [Frag.stop] at hinside
  obtain ⟨_, hx, -⟩ := hcov 0 (by omega)
  exact not_mem_nil hx

/-- While the payload is not complete, all that was received is on the queue. -/
theorem collect_gathered {max : ℤ} {s t : Collecting} {r : Option Datagram} (h : Gathered P e s)
    (hcov : ¬ Covers P s.2) (hm : Partial P e max s m) (hstep : collect max s m = some (t, r)) :
    Gathered P e t ∧ ¬ Covers P t.2 := by
  obtain ⟨hpart, hnot, hle⟩ := hm
  obtain ⟨fp, hc, hfrags, hrun⟩ := ipReass_gathered max h hpart
  have hkept : ipReass max true m s.1 = some (some fp, none) := by
    rcases hrun with hrun | ⟨hrun, -⟩ | hall
    · rw [hrun, (reassFinish_collected max hc).2 hnot, hc.limit (hfrags ▸ hle)]
    · exact hrun
    · exact absurd hall hcov
  rw [collect, hkept, map_some] at hstep
  obtain ⟨rfl, -⟩ := Prod.mk.inj (some.inj hstep)
  exact ⟨hc, hnot⟩

/-- After any fragments of a payload that do not complete it, and as long as there are never more
    than `maxfragsperpacket` on the queue, the next fragment returns the payload if it completes it,
    and nothing otherwise. -/
theorem reass_of_run {maxfragsperpacket : ℤ} {s : Collecting}
    (hrun : Runs (collect maxfragsperpacket) (Partial P e maxfragsperpacket) (none, []) s)
    (hm : PartOf P e m) :
    ∃ queue r, ipReass maxfragsperpacket true m s.1 = some (queue, r) ∧
      (¬ Covers P (m :: s.2) → r = none) ∧
      (Covers P (m :: s.2) →
        queue = none ∧ ∃ d, r = some d ∧ d.data = P ∧ d.ip_len = P.length) := by
  obtain ⟨hg, hcov⟩ : Gathered P e s ∧ ¬ Covers P s.2 := by
    refine hrun.invariant (I := fun s => Gathered P e s ∧ ¬ Covers P s.2)
      ⟨rfl, hm.not_covers_nil⟩ ?_
    rintro s m' t r ⟨hg, hcov⟩ hpart hstep
    exact collect_gathered hg hcov hpart hstep
  obtain ⟨fp, hc, -, hcall⟩ := ipReass_gathered maxfragsperpacket hg hm
  obtain ⟨hdone, hwait⟩ := reassFinish_collected maxfragsperpacket hc
  rcases hcall with hcall | ⟨hcall, hnot⟩ | hall
  · by_cases hcov' : Covers P (m :: s.2)
    · obtain ⟨d, hfin, hd⟩ := hdone hcov'
      exact ⟨none, some d, hcall.trans hfin, fun hnot => absurd hcov' hnot,
        fun _ => ⟨rfl, d, rfl, hd⟩⟩
    · exact ⟨_, none, hcall.trans (hwait hcov'), fun _ => rfl, fun h => absurd h hcov'⟩
  · exact ⟨_, none, hcall, fun _ => rfl, fun h => absurd h hnot⟩
  · exact absurd hall hcov

/-- The fragment of `P` with the `len` bytes at `off`. -/
def slice (P : List Byte) (off len : ℕ) : Frag where
  ip_hl := 5
  ip_tos := 0
  ip_off := off
  ip_len := len
  mFrag := decide (off + len < P.length)
  data := (P.drop off).take len

theorem slice_partOf {off len : ℕ} (h8 : 8 ∣ off) (hpos : 0 < len) (hle : off + len ≤ P.length)
    (hP : 20 + P.length ≤ 65535) : PartOf P 0 (slice P off len) := by
  have hlen : ((P.drop off).take len).length = len := by
    rw [length_take, length_drop]; omega
  refine ⟨hlen.symm, ?_, h8, hle, ?_, rfl, BitVec.zero_and, hP⟩
  · rw [← length_pos_iff]
    show 0 < ((P.drop off).take len).length
    omega
  · intro k b hk
    have hk' : ((P.drop off).take len)[k]? = some b := hk
    have hlt : k < len := by
      have := (List.getElem?_eq_some_iff.mp hk').1; omega
    rw [List.getElem?_take_of_lt hlt, List.getElem?_drop] at hk'; exact hk'

/-- The second half of a payload of sixteen bytes arrives, and then the first half. -/
theorem reass_of_run_halves : ∃ s : Collecting, s.2 = [slice (List.replicate 16 7) 8 8] ∧
    ∃ queue r, ipReass 16 true (slice (List.replicate 16 7) 0 8) s.1 = some (queue, r) ∧
      (¬ Covers (List.replicate 16 7) (slice (List.replicate 16 7) 0 8 :: s.2) → r = none) ∧
      (Covers (List.replicate 16 7) (slice (List.replicate 16 7) 0 8 :: s.2) →
        queue = none ∧ ∃ d, r = some d ∧ d.data = List.replicate 16 7 ∧
          d.ip_len = (List.replicate 16 (7 : Byte)).length) := by
  have hpart : Partial (List.replicate 16 7) 0 16 (none, []) (slice (List.replicate 16 7) 8 8) := by
    refine ⟨slice_partOf (by decide) (by decide) (by decide) (by decide), ?_, by decide⟩
    intro hcov
    obtain ⟨f, hf, hle, -⟩ := hcov 0 (by decide)
    obtain rfl := mem_singleton.mp hf
    exact absurd hle (by decide)
  have hstep : collect 16 (none, []) (slice (List.replicate 16 7) 8 8) =
      some ((some { nfrags := 1, frags := [slice (List.replicate 16 7) 8 8] },
        [slice (List.replicate 16 7) 8 8]), none) := by decide +kernel
  exact ⟨_, rfl, reass_of_run (Runs.refl.tail hpart hstep)
    (slice_partOf (by decide) (by decide) (by decide) (by decide))⟩

end FreeBSD.IpReass
