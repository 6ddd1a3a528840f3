import FreeBSD.Geom.BdeMap

/-!
# Requests of an encrypted disk, `geom/bde/g_bde_work.c`

The mask of `g_bde_map_sector` for a lock sector has 32 bits, and so has the number of a zone; a
piece is not longer than `DFLTPHYS`. On a disk of which a lock sector lies beyond 4 GB the mapping
skips other sectors, and the payload is written over the lock.

Results:
* `mapped_of_wide`: where the numbers are wide enough, each sector of the payload has a sector of
  its own and a slot of its own in a key sector, and any request is divided into pieces.
* `lock_overwritten`: a key with lock sectors beyond 4 GB.
-/

namespace FreeBSD.Bde

open Lib List Option

variable {kp : Key} {w w' : Work} {o o' n j x y e : ℕ} {ws : List Work}

/-! ## Places -/

/-- An aligned sector of the device that is no lock sector. -/
structure Key.Free (kp : Key) (x : ℕ) : Prop where
  aligned : kp.sectorsize ∣ x
  le : kp.sector0 ≤ x
  lt : x + kp.sectorsize ≤ kp.sectorN
  lock : ∀ l ∈ kp.lsector, kp.sectorOf l ≠ x

/-- What `kp.sectorOf` is for the lock sectors. -/
theorem locks_eq (hv : kp.Valid) (hw : kp.Wide) :
    kp.lsector.map kp.lockSector = kp.lsector.map kp.sectorOf :=
  map_congr_left fun l hl => by
    rw [lockSector_eq hv, Nat.mod_eq_of_lt (hw.locks l hl)]

theorem locks_sorted (hv : kp.Valid) (hw : kp.Wide) :
    (kp.lsector.map kp.lockSector).Pairwise (· < ·) := by
  rw [locks_eq hv hw, pairwise_map]
  exact hv.sorted.imp fun hab => Nat.mul_lt_mul_of_pos_right hab hv.pos

theorem place_free (hv : kp.Valid) (hw : kp.Wide) (hmw : 0 < kp.mediaWidth)
    (hx : kp.sectorsize ∣ x) : kp.Free (kp.place x) := by
  have hg := geometry hv hw.transfer
  have hend := rotate_add_le hg hv hmw hx
  have hmedia := hg.media
  have hle := le_skip kp.sectorsize (kp.lsector.map kp.lockSector) (kp.rotate x + kp.sector0)
  have hge := skip_le kp.sectorsize (kp.lsector.map kp.lockSector) (kp.rotate x + kp.sector0)
  rw [length_map, hv.four, MAXKEYS] at hge
  have hplace : kp.place x =
      skip kp.sectorsize (kp.lsector.map kp.lockSector) (kp.rotate x + kp.sector0) := rfl
  exact {
    aligned := dvd_skip dvd_rfl ((dvd_rotate hg hv hx).add hv.sector0)
    le := by omega
    lt := by omega
    lock := fun l hl heq => by
      have hmem : kp.sectorOf l ∈ kp.lsector.map kp.lockSector := by
        rw [locks_eq hv hw]; exact mem_map_of_mem hl
      exact skip_ne hv.pos (locks_sorted hv hw) hmem heq.symm }

theorem place_inj (hx : x < kp.mediaWidth) (hy : y < kp.mediaWidth)
    (h : kp.place x = kp.place y) : x = y :=
  rotate_inj hx hy (Nat.add_right_cancel (skip_inj.1 h))

/-- A sector of the payload. -/
structure Payload (kp : Key) (o : ℕ) : Prop where
  aligned : kp.sectorsize ∣ o
  lt : o < gBdeMaxSector kp

/-- What a position in the zones says about the payload. -/
theorem pos_lt (hv : kp.Valid) (hw : kp.Wide) (ho : o < gBdeMaxSector kp) :
    kp.pos o < kp.keyPos o ∧ kp.keyPos o < kp.mediaWidth := by
  have hg := geometry hv hw.transfer
  have hzone := zone_le hv hw ho
  have hdiv := Nat.div_mul_le_self kp.mediaWidth kp.zoneWidth
  have hwidth := hg.width
  have hpos := hv.pos
  have hzoff := Nat.mod_lt o hg.pos
  rw [add_mul, one_mul] at hzone
  rw [Key.pos, Key.keyPos]; exact ⟨by omega, by omega⟩

/-- A number has one quotient and one remainder. -/
theorem mul_add_inj {a b c d z : ℕ} (hc : c < z) (hd : d < z) (h : a * z + c = b * z + d) :
    a = b ∧ c = d := by
  have hr := congrArg (· % z) h
  simp only [Nat.mul_add_mod_of_lt hc, Nat.mul_add_mod_of_lt hd] at hr
  rw [hr] at h; exact ⟨Nat.eq_of_mul_eq_mul_right (by omega) (Nat.add_right_cancel h), hr⟩

/-- The positions of payload and of keys are all different. -/
theorem pos_inj (hg : Geometry kp kp.zoneCont kp.zoneWidth kp.mediaWidth) (hpos : 0 < kp.sectorsize)
    (h : kp.pos o = kp.pos o') : o = o' := by
  have hwidth := hg.width
  have hr := Nat.mod_lt o hg.pos
  have hr' := Nat.mod_lt o' hg.pos
  obtain ⟨hq, hm⟩ := mul_add_inj (by omega) (by omega) h
  rw [← Nat.div_add_mod o kp.zoneCont, hq, hm, Nat.div_add_mod]

theorem pos_ne_keyPos (hg : Geometry kp kp.zoneCont kp.zoneWidth kp.mediaWidth)
    (hpos : 0 < kp.sectorsize) (o o' : ℕ) : kp.pos o ≠ kp.keyPos o' := fun h => by
  have hwidth := hg.width
  have hr := Nat.mod_lt o hg.pos
  obtain ⟨-, hm⟩ := mul_add_inj (by omega) (by omega) h
  omega

theorem keyPos_inj (hg : Geometry kp kp.zoneCont kp.zoneWidth kp.mediaWidth)
    (hpos : 0 < kp.sectorsize) : kp.keyPos o = kp.keyPos o' ↔
      o / kp.zoneCont = o' / kp.zoneCont := by
  have hwidth := hg.width
  constructor
  · intro h; exact (mul_add_inj (by omega) (by omega) h).1
  · intro h
    rw [Key.keyPos, h]; rfl

/-! ## Pieces -/

/-- The part of a piece in front of the lock sectors consists of whole sectors. -/
theorem dvd_piece (hv : kp.Valid) (hw : kp.Wide) (ho : kp.sectorsize ∣ o)
    (hn : kp.sectorsize ∣ n) : kp.sectorsize ∣ kp.piece o n := by
  have hg := geometry hv hw.transfer
  have htransfer : kp.sectorsize ∣ DFLTPHYS := by
    obtain ⟨k, -, -, hk⟩ := hv.sectorsize
    have hle := hw.transfer
    rw [hk] at hle ⊢
    have hk16 : k ≤ 16 := (Nat.pow_le_pow_iff_right (by decide)).1 (show 2 ^ k ≤ 2 ^ 16 from hle)
    exact Nat.pow_dvd_pow 2 hk16
  have hmin : ∀ a b, kp.sectorsize ∣ a → kp.sectorsize ∣ b → kp.sectorsize ∣ min a b :=
    fun a b ha hb => by
      rcases min_choice a b with hab | hab
      · rw [hab]; exact ha
      · rw [hab]; exact hb
  have hzoff : kp.sectorsize ∣ o % kp.zoneCont := (Nat.dvd_mod_iff hg.dvd_zoneCont).2 ho
  exact hmin _ _ (hmin _ _ hn (hmin _ _ htransfer (Nat.dvd_sub hg.dvd_zoneCont hzoff)))
    (Nat.dvd_sub (hg.dvd_mediaWidth hv) (dvd_rotate hg hv (dvd_pos hg ho)))

theorem piece_pos (hv : kp.Valid) (hw : kp.Wide) (ho : o < gBdeMaxSector kp) (hn : 0 < n) :
    0 < kp.piece o n := by
  have hg := geometry hv hw.transfer
  have hzoff := Nat.mod_lt o hg.pos
  have hmw := (pos_lt hv hw ho).2
  have hrot : kp.rotate (kp.pos o) < kp.mediaWidth := Nat.mod_lt _ (by omega)
  rw [Key.piece, DFLTPHYS]; omega

/-- A piece of a request, and each of its sectors on its own. -/
structure Piece (kp : Key) (wp : Work) : Prop where
  pos : 0 < wp.length
  sectors : kp.sectorsize ∣ wp.length
  each : ∀ j < wp.length, kp.sectorsize ∣ j →
    gBdeMapSector kp { offset := wp.offset + j, length := kp.sectorsize } = some
      { offset := wp.offset + j, length := kp.sectorsize, so := wp.so + j, kso := wp.kso
        ko := wp.ko + j / kp.sectorsize * SKEYLEN }

/-- One sector is not cut. -/
theorem map_sector (hv : kp.Valid) (hw : kp.Wide) (ho : Payload kp o) :
    gBdeMapSector kp { offset := o, length := kp.sectorsize } = some
      { offset := o, length := kp.sectorsize, so := kp.place (kp.pos o)
        kso := kp.place (kp.keyPos o), ko := o % kp.zoneCont / kp.sectorsize * SKEYLEN } := by
  have hg := geometry hv hw.transfer
  have hcut : cut kp.sectorsize (kp.lsector.map kp.lockSector)
      (kp.rotate (kp.pos o) + kp.sector0) (kp.piece o kp.sectorsize) = kp.sectorsize := by
    have hks : ∀ k ∈ kp.lsector.map kp.lockSector, kp.sectorsize ∣ k := fun k hk => by
      rw [locks_eq hv hw] at hk
      obtain ⟨l, -, rfl⟩ := mem_map.1 hk
      exact dvd_mul_left _ _
    refine le_antisymm ((cut_le _ _ _ _).trans ?_) (Nat.le_of_dvd (cut_pos ?_) ?_)
    · exact (min_le_left _ _).trans (min_le_left _ _)
    · exact piece_pos hv hw ho.lt hv.pos
    · exact dvd_cut hks dvd_rfl ((dvd_rotate hg hv (dvd_pos hg ho.aligned)).add hv.sector0)
        (dvd_piece hv hw ho.aligned dvd_rfl)
  rw [gBdeMapSector_eq hv hw ho.lt, hcut]

/-- A piece lies in one zone. -/
theorem payload_add (hv : kp.Valid) (hw : kp.Wide) (ho : Payload kp o) (hj : kp.sectorsize ∣ j)
    (hlt : o % kp.zoneCont + j < kp.zoneCont) :
    Payload kp (o + j) ∧ (o + j) / kp.zoneCont = o / kp.zoneCont ∧
      (o + j) % kp.zoneCont = o % kp.zoneCont + j := by
  have hg := geometry hv hw.transfer
  have hmod : (o + j) % kp.zoneCont = o % kp.zoneCont + j := by
    rw [Nat.add_mod, Nat.mod_eq_of_lt (a := j) (by omega), Nat.mod_eq_of_lt hlt]
  have hdiv : (o + j) / kp.zoneCont = o / kp.zoneCont := by
    have h1 := Nat.div_add_mod o kp.zoneCont
    have h2 := Nat.div_add_mod (o + j) kp.zoneCont
    rw [hmod] at h2; exact Nat.eq_of_mul_eq_mul_left hg.pos (by omega)
  refine ⟨⟨ho.aligned.add hj, ?_⟩, hdiv, hmod⟩
  have hmax : ∀ {x}, x < gBdeMaxSector kp ↔
      x / kp.zoneCont < kp.mediaWidth / kp.zoneWidth := fun {x} => by
    have hle : kp.mediaWidth / kp.zoneWidth * kp.zoneCont ≤ kp.mediaWidth := by
      have hwidth := hg.width
      exact (Nat.mul_le_mul_left _ (by omega)).trans (Nat.div_mul_le_self _ _)
    have hmw := mediaWidth_lt hv hw
    rw [gBdeMaxSector, u64_of_lt (by omega)]
    exact (Nat.div_lt_iff_lt_mul hg.pos).symm
  rw [hmax, hdiv]; exact hmax.1 ho.lt

/-- What `g_bde_map_sector` leaves of a request is a piece of it. -/
theorem map_piece (hv : kp.Valid) (hw : kp.Wide) (ho : Payload kp o) (hn0 : 0 < n)
    (hn : kp.sectorsize ∣ n) :
    ∃ wp, gBdeMapSector kp { offset := o, length := n } = some wp ∧ wp.offset = o ∧
      wp.length ≤ n ∧ Piece kp wp := by
  have hg := geometry hv hw.transfer
  have hks : ∀ k ∈ kp.lsector.map kp.lockSector, kp.sectorsize ∣ k := fun k hk => by
    rw [locks_eq hv hw] at hk
    obtain ⟨l, -, rfl⟩ := mem_map.1 hk
    exact dvd_mul_left _ _
  have hcut_le := cut_le kp.sectorsize (kp.lsector.map kp.lockSector)
    (kp.rotate (kp.pos o) + kp.sector0) (kp.piece o n)
  refine ⟨_, gBdeMapSector_eq hv hw ho.lt n, rfl,
    hcut_le.trans ((min_le_left _ _).trans (min_le_left _ _)), ?_⟩
  exact {
    pos := cut_pos (piece_pos hv hw ho.lt hn0)
    sectors := dvd_cut hks dvd_rfl ((dvd_rotate hg hv (dvd_pos hg ho.aligned)).add hv.sector0)
      (dvd_piece hv hw ho.aligned hn)
    each := fun j hj hdvd => by
      dsimp only at hj ⊢
      have hjp : j < kp.piece o n := lt_of_lt_of_le hj hcut_le
      have hzone : o % kp.zoneCont + j < kp.zoneCont := by rw [Key.piece] at hjp; omega
      have hend : (kp.pos o + kp.keyoffset) % kp.mediaWidth + j < kp.mediaWidth := by
        have hdef : kp.rotate (kp.pos o) = (kp.pos o + kp.keyoffset) % kp.mediaWidth := rfl
        rw [Key.piece] at hjp; omega
      obtain ⟨hpay, hdiv, hmod⟩ := payload_add hv hw ho hdvd hzone
      have hpos : kp.pos (o + j) = kp.pos o + j := by
        rw [Key.pos, hdiv, hmod, Key.pos, add_assoc]
      have hplace : kp.place (kp.pos o + j) = kp.place (kp.pos o) + j := by
        have hrot : kp.rotate (kp.pos o + j) = kp.rotate (kp.pos o) + j := rotate_add hend
        rw [Key.place, hrot, add_right_comm, skip_add_of_lt_cut hj]; rfl
      have hkey : kp.keyPos (o + j) = kp.keyPos o := by rw [Key.keyPos, hdiv]; rfl
      have hzoff : kp.sectorsize ∣ o % kp.zoneCont :=
        (Nat.dvd_mod_iff hg.dvd_zoneCont).2 ho.aligned
      rw [map_sector hv hw hpay, hpos, hplace, hkey, hmod, Nat.add_div_of_dvd_right hzoff,
        add_mul] }

/-! ## Requests -/

/-- Pieces that follow one another from `o` to `e`. -/
def Pieces (kp : Key) : ℕ → List Work → ℕ → Prop
  | o, [], e => o = e
  | o, wp :: ws, e => wp.offset = o ∧ Piece kp wp ∧ Pieces kp (o + wp.length) ws e

/-- The loop divides what is left of a request, up to where memory is short. -/
theorem startLoop_spec (hv : kp.Valid) (hw : kp.Wide) (memory : ℕ → Memory) {offset length : ℕ}
    (ho : kp.sectorsize ∣ offset) (hl : kp.sectorsize ∣ length)
    (hmax : offset + length ≤ gBdeMaxSector kp) (fuel : ℕ) {done : ℕ} (hfuel : length < done + fuel)
    (hd : kp.sectorsize ∣ done) (hle : done ≤ length) :
    ∃ ws rest, startLoop kp memory offset length fuel done = some (ws, rest) ∧
      rest ≤ length - done ∧ Pieces kp (offset + done) ws (offset + length - rest) ∧
      ((∀ d, memory d = .enough) → rest = 0) := by
  induction fuel generalizing done with
  | zero => omega
  | succ fuel ih =>
    rw [startLoop]
    by_cases hlt : done < length
    · rw [if_pos hlt]
      by_cases hwork : memory done = .noWork
      · rw [if_pos hwork]
        refine ⟨[], length - done, rfl, le_rfl, ?_, fun hall => ?_⟩
        · rw [Pieces]; omega
        · rw [hall] at hwork
          cases hwork
      · rw [if_neg hwork]
        obtain ⟨wp, hmap, hoff, hlen, hpiece⟩ := map_piece hv hw
          ⟨ho.add hd, by omega⟩ (by omega) (Nat.dvd_sub hl hd)
        rw [hmap]
        dsimp only
        by_cases hsector : memory done = .noSector
        · rw [if_pos hsector]
          refine ⟨[wp], length - (done + wp.length), rfl, by omega, ⟨hoff, hpiece, ?_⟩,
            fun hall => ?_⟩
          · rw [Pieces]; omega
          · rw [hall] at hsector
            cases hsector
        · have hpos := hpiece.pos
          have hnext : length < done + wp.length + fuel := by omega
          obtain ⟨ws, rest, hloop, hrest, hws, hall⟩ :=
            ih hnext (hd.add hpiece.sectors) (by omega)
          rw [if_neg hsector, hloop]
          refine ⟨wp :: ws, rest, rfl, by omega, ⟨hoff, hpiece, ?_⟩, hall⟩
          rwa [add_assoc]
    · rw [if_neg hlt]
      refine ⟨[], 0, rfl, Nat.zero_le _, ?_, fun _ => rfl⟩
      rw [Pieces]; omega

/-! ## Sectors -/

/-- `g_bde_map_sector` takes the sector `o` of the payload to `w`. -/
structure Sector (kp : Key) (o : ℕ) (w : Work) : Prop extends Payload kp o where
  map : gBdeMapSector kp { offset := o, length := kp.sectorsize } = some w

/-- Each sector of the payload has a sector and a slot for its key, and any request is divided into
    pieces that follow one another. -/
structure Mapped (kp : Key) : Prop where
  split : ∀ memory offset length, kp.sectorsize ∣ offset → kp.sectorsize ∣ length →
    offset + length ≤ gBdeMaxSector kp → ∃ ws rest,
      gBdeStart1 kp memory offset length = some (ws, rest) ∧ rest ≤ length ∧
        Pieces kp offset ws (offset + length - rest) ∧ ((∀ d, memory d = .enough) → rest = 0)
  sector : ∀ o, Payload kp o → ∃ w, Sector kp o w ∧ w.length = kp.sectorsize
  free : ∀ o w, Sector kp o w → kp.Free w.so ∧ kp.Free w.kso
  inj : ∀ o w o' w', Sector kp o w → Sector kp o' w' → w.so = w'.so → o = o'
  keys : ∀ o w o' w', Sector kp o w → Sector kp o' w' → w.so ≠ w'.kso
  zones : ∀ o w o' w', Sector kp o w → Sector kp o' w' →
    (w.kso = w'.kso ↔ o / kp.zoneCont = o' / kp.zoneCont)
  slots : ∀ o w, Sector kp o w → w.ko + SKEYLEN ≤ kp.sectorsize
  apart : ∀ o w o' w', Sector kp o w → Sector kp o' w' → o ≠ o' → w.kso = w'.kso →
    w.ko + SKEYLEN ≤ w'.ko ∨ w'.ko + SKEYLEN ≤ w.ko

/-- What a sector is taken to. -/
theorem Sector.eq (hv : kp.Valid) (hw : kp.Wide) (h : Sector kp o w) :
    w.so = kp.place (kp.pos o) ∧ w.kso = kp.place (kp.keyPos o) ∧
      w.ko = o % kp.zoneCont / kp.sectorsize * SKEYLEN := by
  have hmap := h.map
  rw [map_sector hv hw h.toPayload] at hmap
  obtain rfl := some.inj hmap
  exact ⟨rfl, rfl, rfl⟩

theorem Sector.media_pos (hv : kp.Valid) (hw : kp.Wide) (h : Sector kp o w) :
    0 < kp.mediaWidth :=
  lt_of_le_of_lt (Nat.zero_le _) (pos_lt hv hw h.lt).2

/-- Different sectors of a zone have different slots. -/
theorem slot_apart (ho : kp.sectorsize ∣ o) (ho' : kp.sectorsize ∣ o')
    (hz : kp.sectorsize ∣ kp.zoneCont) (hne : o ≠ o')
    (hzone : o / kp.zoneCont = o' / kp.zoneCont) :
    o % kp.zoneCont / kp.sectorsize ≠ o' % kp.zoneCont / kp.sectorsize := fun hslot => by
  have h1 := Nat.div_mul_cancel ((Nat.dvd_mod_iff hz).2 ho)
  have h2 := Nat.div_mul_cancel ((Nat.dvd_mod_iff hz).2 ho')
  rw [hslot] at h1
  refine hne ?_
  rw [← Nat.div_add_mod o kp.zoneCont, hzone, ← h1, h2, Nat.div_add_mod]

theorem mapped_wide (hv : kp.Valid) (hw : kp.Wide) : Mapped kp := by
  have hg := geometry hv hw.transfer
  exact {
    split := fun memory offset length ho hl hmax =>
      startLoop_spec hv hw memory ho hl hmax (length + 1) (by omega) (dvd_zero _) (Nat.zero_le _)
    sector := fun o ho => ⟨_, ⟨ho, map_sector hv hw ho⟩, rfl⟩
    free := fun o w h => by
      obtain ⟨hso, hkso, -⟩ := h.eq hv hw
      have hmw := h.media_pos hv hw
      rw [hso, hkso]
      exact ⟨place_free hv hw hmw (dvd_pos hg h.aligned), place_free hv hw hmw (dvd_keyPos hg o)⟩
    inj := fun o w o' w' h h' heq => by
      have hlt := pos_lt hv hw h.lt
      have hlt' := pos_lt hv hw h'.lt
      rw [(h.eq hv hw).1, (h'.eq hv hw).1] at heq
      exact pos_inj hg hv.pos (place_inj (hlt.1.trans hlt.2) (hlt'.1.trans hlt'.2) heq)
    keys := fun o w o' w' h h' heq => by
      have hlt := pos_lt hv hw h.lt
      have hlt' := pos_lt hv hw h'.lt
      rw [(h.eq hv hw).1, (h'.eq hv hw).2.1] at heq
      exact pos_ne_keyPos hg hv.pos o o' (place_inj (hlt.1.trans hlt.2) hlt'.2 heq)
    zones := fun o w o' w' h h' => by
      rw [(h.eq hv hw).2.1, (h'.eq hv hw).2.1, ← keyPos_inj hg hv.pos]
      exact ⟨place_inj (pos_lt hv hw h.lt).2 (pos_lt hv hw h'.lt).2, congrArg kp.place⟩
    slots := fun o w h => by
      have hlt : o % kp.zoneCont / kp.sectorsize < kp.sectorsize / SKEYLEN := by
        rw [Nat.div_lt_iff_lt_mul hv.pos, ← hg.keys]; exact Nat.mod_lt o hg.pos
      have hle := Nat.mul_le_mul_right SKEYLEN (Nat.succ_le_of_lt hlt)
      rw [hg.slots, Nat.succ_mul] at hle
      rw [(h.eq hv hw).2.2]; exact hle
    apart := fun o w o' w' h h' hne heq => by
      rw [(h.eq hv hw).2.1, (h'.eq hv hw).2.1] at heq
      have hzone := (keyPos_inj hg hv.pos).1
        (place_inj (pos_lt hv hw h.lt).2 (pos_lt hv hw h'.lt).2 heq)
      have hslot := slot_apart h.aligned h'.aligned hg.dvd_zoneCont hne hzone
      rw [(h.eq hv hw).2.2, (h'.eq hv hw).2.2, SKEYLEN]
      omega }

/-! ## Keys whose numbers are too wide -/

theorem lockLoop_length_le (ls : List ℕ) (wp : Work) (hlen : wp.length < 2 ^ 64) :
    (lockLoop kp ls wp).length ≤ wp.length := by
  induction ls generalizing wp with
  | nil => exact le_rfl
  | cons l ls ih =>
    rw [lockLoop]
    split
    · exact ih { wp with so := _, kso := _ } hlen
    · split
      · next hso hcut =>
        rw [u64] at hcut
        have hle : kp.lockSector l - wp.so ≤ wp.length := by omega
        exact (ih { wp with length := _, kso := _ } (lt_of_le_of_lt hle hlen)).trans hle
      · exact ih { wp with kso := _ } hlen

/-- No piece is longer than a transfer. -/
theorem map_length_le (hmap : gBdeMapSector kp { offset := o, length := n } = some w) :
    w.length ≤ DFLTPHYS := by
  rw [gBdeMapSector] at hmap
  split at hmap
  · cases hmap
  · next hzero =>
    dsimp only at hmap
    obtain ⟨-, hw⟩ := ite_none_right_eq_some.1 hmap
    obtain rfl := some.inj hw
    have hmw : 0 < kp.mediaWidth := by omega
    have hlen : ∀ z, (if (if z > DFLTPHYS then DFLTPHYS else z) < n then
        (if z > DFLTPHYS then DFLTPHYS else z) else n) ≤ DFLTPHYS := fun z => by
      split_ifs <;> omega
    have hend : ∀ a b mw, a < mw → b ≤ DFLTPHYS →
        (if u64 (a + b) > mw then mw - a else b) ≤ DFLTPHYS := fun a b mw ha hb => by
      split
      · next hgt =>
        rw [u64] at hgt; omega
      · exact hb
    have hpiece := hend _ _ _ (Nat.mod_lt (u64 (u64 (u32 (o / kp.zoneCont) * kp.zoneWidth +
      u32 (o % kp.zoneCont)) + kp.keyoffset)) hmw)
      (hlen (u32 (kp.zoneCont - u32 (o % kp.zoneCont))))
    exact (lockLoop_length_le _ _ (lt_of_le_of_lt hpiece (by decide))).trans hpiece

/-- Neither the offset nor the slot is read. -/
theorem lockLoop_so (ls : List ℕ) (hso : w.so = w'.so) (hlength : w.length = w'.length)
    (hkso : w.kso = w'.kso) : (lockLoop kp ls w).so = (lockLoop kp ls w').so := by
  induction ls generalizing w w' with
  | nil => exact hso
  | cons l ls ih =>
    rw [lockLoop, lockLoop, hso, hlength, hkso]
    split
    · exact ih rfl rfl rfl
    · split
      · exact ih rfl rfl rfl
      · exact ih rfl rfl rfl

/-- Zones whose numbers have the same 32 bits lie in the same place. -/
theorem map_zone (hzone : u32 (o / kp.zoneCont) = u32 (o' / kp.zoneCont))
    (hzoff : o % kp.zoneCont = o' % kp.zoneCont)
    (h : gBdeMapSector kp { offset := o, length := n } = some w)
    (h' : gBdeMapSector kp { offset := o', length := n } = some w') : w.so = w'.so := by
  rw [gBdeMapSector] at h h'
  split at h
  · cases h
  · next hzero =>
    rw [if_neg hzero] at h'
    dsimp only at h h'
    rw [hzone, hzoff] at h
    obtain ⟨-, hw⟩ := ite_none_right_eq_some.1 h
    obtain ⟨-, hw'⟩ := ite_none_right_eq_some.1 h'
    obtain rfl := some.inj hw
    obtain rfl := some.inj hw'
    exact lockLoop_so kp.lsector rfl rfl rfl

/-- Nothing is mapped where there is no whole zone. -/
theorem mapped_none (h0 : gBdeMaxSector kp = 0) : Mapped kp := by
  have hno : ∀ o w, ¬Sector kp o w := fun o w h => by
    have hlt := h.lt; omega
  exact {
    split := fun memory offset length _ _ hmax => by
      obtain ⟨rfl, rfl⟩ : offset = 0 ∧ length = 0 := by omega
      exact ⟨[], 0, rfl, le_rfl, rfl, fun _ => rfl⟩
    sector := fun o ho => by
      have hlt := ho.lt; omega
    free := fun o w h => absurd h (hno o w)
    inj := fun o w _ _ h => absurd h (hno o w)
    keys := fun o w _ _ h => absurd h (hno o w)
    zones := fun o w _ _ h => absurd h (hno o w)
    slots := fun o w h => absurd h (hno o w)
    apart := fun o w _ _ h => absurd h (hno o w) }

/-- Where the zones have keys, a sector has to fit in a transfer and a zone number in 32 bits. -/
theorem wide_of_mapped (hv : kp.Valid) (hm : Mapped kp) (hmw : kp.zoneWidth ≤ kp.mediaWidth)
    (hzc : kp.zoneCont ≠ 0) :
    kp.sectorsize ≤ DFLTPHYS ∧ kp.mediaWidth / kp.zoneWidth ≤ 2 ^ 32 := by
  obtain ⟨k, -, hk, hs⟩ := hv.sectorsize
  have hss : kp.sectorsize < 2 ^ 32 := hs ▸ Nat.pow_lt_pow_right (by decide) hk
  have hpos := hv.pos
  have hzclt : kp.zoneCont < 2 ^ 32 := Nat.mod_lt _ (by decide)
  have hwidth : kp.zoneWidth = kp.zoneCont + kp.sectorsize := u64_of_lt (by omega)
  have hmwlt : kp.mediaWidth < 2 ^ 64 := Nat.mod_lt _ (by decide)
  have hle : kp.mediaWidth / kp.zoneWidth * kp.zoneCont ≤ kp.mediaWidth :=
    (Nat.mul_le_mul_left _ (by omega)).trans (Nat.div_mul_le_self _ _)
  have hmax : gBdeMaxSector kp = kp.mediaWidth / kp.zoneWidth * kp.zoneCont :=
    u64_of_lt (by omega)
  have hone : 0 < kp.mediaWidth / kp.zoneWidth := Nat.div_pos hmw (by omega)
  have hzero : Payload kp 0 := ⟨dvd_zero _, by
    rw [hmax]
    exact mul_pos hone (Nat.pos_of_ne_zero hzc)⟩
  obtain ⟨w, hw, hlen⟩ := hm.sector 0 hzero
  have htransfer : kp.sectorsize ≤ DFLTPHYS := hlen ▸ map_length_le hw.map
  refine ⟨htransfer, not_lt.1 fun hlt => ?_⟩
  have hg := geometry hv htransfer
  have hfar : Payload kp (2 ^ 32 * kp.zoneCont) := ⟨hg.dvd_zoneCont.mul_left _, by
    rw [hmax]
    exact Nat.mul_lt_mul_of_pos_right hlt hg.pos⟩
  obtain ⟨w', hw', -⟩ := hm.sector _ hfar
  have hsame : w'.so = w.so := by
    refine map_zone ?_ ?_ hw'.map hw.map
    · rw [Nat.mul_div_cancel _ hg.pos, Nat.zero_div]; rfl
    · rw [Nat.mul_mod_left, Nat.zero_mod]
  have hfar0 := hm.inj _ _ _ _ hw' hw hsame
  have hpos := hg.pos; omega

/-- If the media has no whole zone, if `zone_cont` overflows to 0, or else if the numbers are wide
    enough, every sector is mapped to a place of its own; and the first two bounds on the numbers
    are necessary. -/
theorem mapped_of_wide (hv : kp.Valid) :
    (kp.mediaWidth < kp.zoneWidth ∨ kp.zoneCont = 0 ∨ kp.Wide → Mapped kp) ∧
      (Mapped kp → kp.mediaWidth < kp.zoneWidth ∨ kp.zoneCont = 0 ∨
        kp.sectorsize ≤ DFLTPHYS ∧ kp.mediaWidth / kp.zoneWidth ≤ 2 ^ 32) := by
  refine ⟨fun hor => ?_, fun hm => ?_⟩
  · rcases hor with hmw | hzc | hw
    · refine mapped_none ?_
      rw [gBdeMaxSector, Nat.div_eq_of_lt hmw, Nat.zero_mul]; rfl
    · refine mapped_none ?_
      rw [gBdeMaxSector, hzc, Nat.mul_zero]; rfl
    · exact mapped_wide hv hw
  · by_cases hmw : kp.mediaWidth < kp.zoneWidth
    · exact Or.inl hmw
    · by_cases hzc : kp.zoneCont = 0
      · exact Or.inr (Or.inl hzc)
      · exact Or.inr (Or.inr (wide_of_mapped hv hm (not_lt.1 hmw) hzc))

/-- A disk of 8 GB with its locks in the middle of the first GB. -/
def smallKey : Key where
  sector0 := 0
  sectorN := 2 ^ 33
  keyoffset := 1024
  lsector := [2 ^ 29, 2 ^ 29 + 512, 2 ^ 29 + 1024, 2 ^ 29 + 1536]
  sectorsize := 512

theorem mapped_of_wide_small : Mapped smallKey := by
  have hv : smallKey.Valid :=
    { sectorsize := ⟨9, by decide, by decide, rfl⟩
      sector0 := by decide
      sectorN := by decide
      sectorN_lt := by decide
      keyoffset := by decide
      keyoffset_lt := by decide
      four := rfl
      sorted := by decide
      inside := by decide }
  have hwide : smallKey.Wide :=
    { transfer := by decide
      zones := by decide
      rotation := by decide
      locks := by decide }
  exact (mapped_of_wide hv).1 (Or.inr (Or.inr hwide))

/-- The same disk with its locks in the second half. -/
def farKey : Key :=
  { smallKey with
    keyoffset := 0
    lsector := [2 ^ 32, 2 ^ 32 + 512, 2 ^ 32 + 1024, 2 ^ 32 + 1536] }

/-- The payload at 4164814848 is written over the first lock sector. -/
theorem lock_overwritten :
    farKey.Valid ∧
      (gBdeMapSector farKey { offset := 4164814848, length := 512 }).map Work.so = some (2 ^ 32) ∧
        ¬Mapped farKey := by
  have hmap : (gBdeMapSector farKey { offset := 4164814848, length := 512 }).map Work.so =
      some (2 ^ 32) := by decide +kernel
  refine ⟨?_, hmap, fun hm => ?_⟩
  · exact {
      sectorsize := ⟨9, by decide, by decide, rfl⟩
      sector0 := by decide
      sectorN := by decide
      sectorN_lt := by decide
      keyoffset := by decide
      keyoffset_lt := by decide
      four := rfl
      sorted := by decide
      inside := by decide }
  · obtain ⟨w, hw, hso⟩ := Option.map_eq_some_iff.1 hmap
    have hfree := (hm.free 4164814848 w ⟨⟨by decide, by decide +kernel⟩, hw⟩).1
    exact hfree.lock (2 ^ 32) mem_cons_self (hso.symm ▸ by decide)

end FreeBSD.Bde
