import FreeBSD.Geom.BdeCrypt

/-!
# Where the sectors of an encrypted disk lie, `geom/bde/g_bde_crypt.c`
-/

namespace FreeBSD.Bde

open Lib List

variable {kp : Key} {wp : Work} {o n j x y l : ℕ} {ls : List ℕ}

/-! ## Keys -/

/-- A key with aligned sectors, four of them lock sectors. -/
structure Key.Valid (kp : Key) : Prop where
  sectorsize : ∃ k, 9 ≤ k ∧ k < 32 ∧ kp.sectorsize = 2 ^ k
  sector0 : kp.sectorsize ∣ kp.sector0
  sectorN : kp.sectorsize ∣ kp.sectorN
  sectorN_lt : kp.sectorN < 2 ^ 64
  keyoffset : kp.sectorsize ∣ kp.keyoffset
  keyoffset_lt : kp.keyoffset < 2 ^ 64
  four : kp.lsector.length = MAXKEYS
  sorted : kp.lsector.Pairwise fun a b => a / kp.sectorsize < b / kp.sectorsize
  inside : ∀ l ∈ kp.lsector, kp.sector0 ≤ l ∧ l < kp.sectorN

/-- The numbers of the mapping are wide enough, and a sector is not larger than a transfer. -/
structure Key.Wide (kp : Key) : Prop where
  transfer : kp.sectorsize ≤ DFLTPHYS
  zones : kp.mediaWidth / kp.zoneWidth ≤ 2 ^ 32
  rotation : kp.keyoffset + kp.mediaWidth / kp.zoneWidth * kp.zoneWidth ≤ 2 ^ 64
  locks : ∀ l ∈ kp.lsector, l < 2 ^ 32

/-- The first byte of the sector that `l` lies in. -/
def Key.sectorOf (kp : Key) (l : ℕ) : ℕ := l / kp.sectorsize * kp.sectorsize

theorem Key.Valid.pos (hv : kp.Valid) : 0 < kp.sectorsize := by
  obtain ⟨k, -, -, hk⟩ := hv.sectorsize
  rw [hk]; exact Nat.two_pow_pos k

/-- The mask leaves the bits from `k` to 31. -/
theorem and_mask (l : ℕ) {k : ℕ} (hk : k < 32) :
    l &&& (2 ^ 32 - 1 - (2 ^ k - 1)) = l % 2 ^ 32 / 2 ^ k * 2 ^ k := by
  have hpow : 2 ^ k ≤ 2 ^ 32 := Nat.pow_le_pow_right two_pos hk.le
  have hpos := Nat.two_pow_pos k
  have hsub : 2 ^ 32 - 1 - (2 ^ k - 1) = 2 ^ 32 - (2 ^ k - 1 + 1) := by omega
  refine Nat.eq_of_testBit_eq fun i => ?_
  rw [Nat.testBit_and, hsub, Nat.testBit_two_pow_sub_succ (by omega), Nat.testBit_two_pow_sub_one,
    Nat.testBit_mul_two_pow, Nat.testBit_div_two_pow, Nat.testBit_mod_two_pow]
  by_cases hik : i < k
  · simp [hik, not_le.2 hik]
  · have hki : k ≤ i := not_lt.1 hik
    simp only [hik, hki, decide_false, decide_true, Bool.not_false, Bool.and_true, Bool.true_and,
      Nat.sub_add_cancel hki]
    exact Bool.and_comm _ _

theorem lockSector_eq (hv : kp.Valid) (l : ℕ) :
    kp.lockSector l = kp.sectorOf (l % 2 ^ 32) := by
  obtain ⟨k, -, hk, hs⟩ := hv.sectorsize
  rw [Key.lockSector, Key.sectorOf, hs]; exact and_mask l hk

/-- A list of increasing numbers of an interval is not longer than the interval. -/
theorem length_le_of_sorted {f : ℕ → ℕ} {a b : ℕ} (hab : a ≤ b)
    (hs : ls.Pairwise fun x y => f x < f y) (hin : ∀ l ∈ ls, a ≤ f l ∧ f l < b) :
    a + ls.length ≤ b := by
  induction ls generalizing a with
  | nil => exact hab
  | cons l ls ih =>
    obtain ⟨hl, hs⟩ := pairwise_cons.1 hs
    have hfirst := hin l mem_cons_self
    have hrest := ih (a := a + 1) (by omega) hs fun m hm =>
      ⟨by have hlt := hl m hm; omega, (hin m (mem_cons_of_mem l hm)).2⟩
    rw [length_cons]; omega

/-- The four lock sectors fit. -/
theorem Key.Valid.room (hv : kp.Valid) : kp.sector0 + 4 * kp.sectorsize ≤ kp.sectorN := by
  obtain ⟨a, ha⟩ := hv.sector0
  obtain ⟨b, hb⟩ := hv.sectorN
  have hpos := hv.pos
  have hin : ∀ l ∈ kp.lsector, a ≤ l / kp.sectorsize ∧ l / kp.sectorsize < b := fun l hl => by
    obtain ⟨h0, hN⟩ := hv.inside l hl
    rw [ha] at h0
    rw [hb] at hN
    exact ⟨(Nat.le_div_iff_mul_le hpos).2 (by rwa [mul_comm]), Nat.div_lt_of_lt_mul hN⟩
  have hab : a ≤ b := by
    cases hls : kp.lsector with
    | nil => exact absurd hv.four (by rw [hls]; decide)
    | cons l ls =>
      obtain ⟨h1, h2⟩ := hin l (hls ▸ mem_cons_self)
      exact h1.trans h2.le
  have hlen := length_le_of_sorted hab hv.sorted hin
  rw [hv.four, MAXKEYS] at hlen
  rw [ha, hb, ← mul_comm kp.sectorsize 4, ← mul_add]; exact Nat.mul_le_mul_left _ hlen

/-! ## Helper fields -/

/-- The numbers of a key whose zones are computed without overflow. -/
structure Geometry (kp : Key) (zc zw mw : ℕ) : Prop where
  zoneCont : kp.zoneCont = zc
  zoneWidth : kp.zoneWidth = zw
  mediaWidth : kp.mediaWidth = mw
  keys : zc = kp.sectorsize / SKEYLEN * kp.sectorsize
  width : zw = zc + kp.sectorsize
  media : kp.sectorN = kp.sector0 + mw + 4 * kp.sectorsize
  pos : 0 < zc
  lt : zc < 2 ^ 32
  slots : kp.sectorsize / SKEYLEN * SKEYLEN = kp.sectorsize
  small : kp.sectorsize < 2 ^ 32

theorem u64_of_lt (hx : x < 2 ^ 64) : u64 x = x := Nat.mod_eq_of_lt hx

theorem u32_of_lt (hx : x < 2 ^ 32) : u32 x = x := Nat.mod_eq_of_lt hx

theorem sub64_eq (hyx : y ≤ x) (hx : x < 2 ^ 64) : sub64 x y = x - y := by
  rw [sub64, u64]; omega

theorem geometry (hv : kp.Valid) (hss : kp.sectorsize ≤ DFLTPHYS) :
    Geometry kp kp.zoneCont kp.zoneWidth kp.mediaWidth := by
  obtain ⟨k, hk9, -, hk⟩ := hv.sectorsize
  have hpos := hv.pos
  have hroom := hv.room
  have hlt := hv.sectorN_lt
  have hss' : kp.sectorsize ≤ 2 ^ 16 := hss
  have hslots : kp.sectorsize / SKEYLEN * SKEYLEN = kp.sectorsize := by
    refine Nat.div_mul_cancel ?_
    rw [hk]; exact Nat.pow_dvd_pow 2 (by omega : 4 ≤ k)
  have hper : kp.sectorsize / SKEYLEN ≤ 2 ^ 12 := by rw [SKEYLEN]; omega
  have hmul : kp.sectorsize / SKEYLEN * kp.sectorsize ≤ 2 ^ 12 * 2 ^ 16 := Nat.mul_le_mul hper hss'
  have hper0 : 0 < kp.sectorsize / SKEYLEN := by
    refine Nat.pos_of_ne_zero fun h0 => ?_
    rw [h0, zero_mul] at hslots; omega
  have hzc : kp.zoneCont = kp.sectorsize / SKEYLEN * kp.sectorsize :=
    Nat.mod_eq_of_lt (lt_of_le_of_lt hmul (by norm_num))
  have hzclt : kp.zoneCont < 2 ^ 32 := by rw [hzc]; exact lt_of_le_of_lt hmul (by norm_num)
  have hu32 : u32 (MAXKEYS * kp.sectorsize) = 4 * kp.sectorsize := by rw [u32, MAXKEYS]; omega
  have hmw : kp.mediaWidth = kp.sectorN - kp.sector0 - 4 * kp.sectorsize := by
    rw [Key.mediaWidth, hu32, sub64_eq (x := kp.sectorN) (by omega) hlt,
      sub64_eq (by omega) (by omega)]
  exact {
    zoneCont := rfl
    zoneWidth := rfl
    mediaWidth := rfl
    keys := hzc
    width := Nat.mod_eq_of_lt (by omega)
    media := by omega
    pos := hzc ▸ mul_pos hper0 hpos
    lt := hzclt
    slots := hslots
    small := by omega }

/-! ## Lock sectors -/

/-- The loop over the lock sectors skips them, and cuts the piece at the next one. -/
theorem lockLoop_eq (hso : wp.so + wp.length + ls.length * kp.sectorsize < 2 ^ 64)
    (hkso : wp.kso + ls.length * kp.sectorsize < 2 ^ 64) :
    lockLoop kp ls wp =
      { wp with
        so := skip kp.sectorsize (ls.map kp.lockSector) wp.so
        length := cut kp.sectorsize (ls.map kp.lockSector) wp.so wp.length
        kso := skip kp.sectorsize (ls.map kp.lockSector) wp.kso } := by
  induction ls generalizing wp with
  | nil => rfl
  | cons l ls ih =>
    rw [length_cons, Nat.succ_mul] at hso hkso
    have hnext : u64 (wp.so + kp.sectorsize) = wp.so + kp.sectorsize := u64_of_lt (by omega)
    have hend : u64 (wp.so + wp.length) = wp.so + wp.length := u64_of_lt (by omega)
    have hkey : (if wp.kso ≥ kp.lockSector l then u64 (wp.kso + kp.sectorsize) else wp.kso) =
        if kp.lockSector l ≤ wp.kso then wp.kso + kp.sectorsize else wp.kso := by
      rw [u64_of_lt (by omega)]
    have hkey_le : (if kp.lockSector l ≤ wp.kso then wp.kso + kp.sectorsize else wp.kso) +
        ls.length * kp.sectorsize < 2 ^ 64 := by
      split
      · omega
      · omega
    rw [lockLoop, map_cons, skip, skip, cut, hkey, hnext, hend]
    by_cases hle : kp.lockSector l ≤ wp.so
    · rw [if_pos hle, if_pos hle, if_pos hle]
      exact ih (show wp.so + kp.sectorsize + wp.length + _ < _ by omega) hkey_le
    · rw [if_neg hle, if_neg hle, if_neg hle]
      by_cases hcut : wp.so + wp.length > kp.lockSector l
      · have hmin : min wp.length (kp.lockSector l - wp.so) = kp.lockSector l - wp.so := by omega
        rw [if_pos hcut, hmin]
        exact ih (show wp.so + (kp.lockSector l - wp.so) + _ < _ by omega) hkey_le
      · have hmin : min wp.length (kp.lockSector l - wp.so) = wp.length := by omega
        rw [if_neg hcut, hmin]; exact ih (show wp.so + wp.length + _ < _ by omega) hkey_le

/-! ## Mapping -/

namespace Key

variable (kp : Key)

/-- Where the payload byte `o` lies in the zones. -/
def pos (o : ℕ) : ℕ := o / kp.zoneCont * kp.zoneWidth + o % kp.zoneCont

/-- Where the key sector of its zone lies. -/
def keyPos (o : ℕ) : ℕ := o / kp.zoneCont * kp.zoneWidth + kp.zoneCont

/-- A position, rotated. -/
def rotate (x : ℕ) : ℕ := (x + kp.keyoffset) % kp.mediaWidth

/-- A position on the disk. -/
def place (x : ℕ) : ℕ :=
  skip kp.sectorsize (kp.lsector.map kp.lockSector) (kp.rotate x + kp.sector0)

/-- What of a piece is in its zone, in a transfer, and in front of the end of the disk. -/
def piece (o n : ℕ) : ℕ :=
  min (min n (min DFLTPHYS (kp.zoneCont - o % kp.zoneCont))) (kp.mediaWidth - kp.rotate (kp.pos o))

end Key

theorem Geometry.dvd_zoneCont {zc zw mw : ℕ} (hg : Geometry kp zc zw mw) : kp.sectorsize ∣ zc :=
  hg.keys ▸ dvd_mul_left _ _

theorem Geometry.dvd_zoneWidth {zc zw mw : ℕ} (hg : Geometry kp zc zw mw) : kp.sectorsize ∣ zw :=
  hg.width ▸ hg.dvd_zoneCont.add dvd_rfl

theorem Geometry.dvd_mediaWidth {zc zw mw : ℕ} (hg : Geometry kp zc zw mw) (hv : kp.Valid) :
    kp.sectorsize ∣ mw := by
  have hmedia := hg.media
  have hmw : mw = kp.sectorN - kp.sector0 - 4 * kp.sectorsize := by omega
  rw [hmw]; exact Nat.dvd_sub (Nat.dvd_sub hv.sectorN hv.sector0) (dvd_mul_left _ _)

theorem dvd_pos (hg : Geometry kp kp.zoneCont kp.zoneWidth kp.mediaWidth)
    (ho : kp.sectorsize ∣ o) : kp.sectorsize ∣ kp.pos o :=
  (hg.dvd_zoneWidth.mul_left _).add ((Nat.dvd_mod_iff hg.dvd_zoneCont).2 ho)

theorem dvd_keyPos (hg : Geometry kp kp.zoneCont kp.zoneWidth kp.mediaWidth) (o : ℕ) :
    kp.sectorsize ∣ kp.keyPos o :=
  (hg.dvd_zoneWidth.mul_left _).add hg.dvd_zoneCont

theorem dvd_rotate (hg : Geometry kp kp.zoneCont kp.zoneWidth kp.mediaWidth) (hv : kp.Valid)
    (hx : kp.sectorsize ∣ x) : kp.sectorsize ∣ kp.rotate x :=
  (Nat.dvd_mod_iff (hg.dvd_mediaWidth hv)).2 (hx.add hv.keyoffset)

/-- A sector that is rotated ends with the media at the latest. -/
theorem rotate_add_le (hg : Geometry kp kp.zoneCont kp.zoneWidth kp.mediaWidth) (hv : kp.Valid)
    (hmw : 0 < kp.mediaWidth) (hx : kp.sectorsize ∣ x) :
    kp.rotate x + kp.sectorsize ≤ kp.mediaWidth := by
  obtain ⟨a, ha⟩ := dvd_rotate hg hv hx
  obtain ⟨b, hb⟩ := hg.dvd_mediaWidth hv
  have hlt : kp.rotate x < kp.mediaWidth := Nat.mod_lt _ hmw
  rw [ha, hb] at hlt ⊢
  have hab : a < b := Nat.lt_of_mul_lt_mul_left hlt
  calc kp.sectorsize * a + kp.sectorsize = kp.sectorsize * (a + 1) := by ring
    _ ≤ kp.sectorsize * b := Nat.mul_le_mul_left _ hab

/-- The zone of a payload byte lies in the media. -/
theorem zone_le (hv : kp.Valid) (hw : kp.Wide) (ho : o < gBdeMaxSector kp) :
    (o / kp.zoneCont + 1) * kp.zoneWidth ≤ kp.mediaWidth / kp.zoneWidth * kp.zoneWidth := by
  have hg := geometry hv hw.transfer
  have hmw : kp.mediaWidth < 2 ^ 64 := by
    have hlt := hv.sectorN_lt
    have hmedia := hg.media; omega
  have hle : kp.mediaWidth / kp.zoneWidth * kp.zoneCont ≤ kp.mediaWidth := by
    have hzw : kp.zoneCont ≤ kp.zoneWidth := by
      have hwidth := hg.width; omega
    exact (Nat.mul_le_mul_left _ hzw).trans (Nat.div_mul_le_self _ _)
  rw [gBdeMaxSector, u64, Nat.mod_eq_of_lt (by omega)] at ho
  exact Nat.mul_le_mul_right _ ((Nat.div_lt_iff_lt_mul hg.pos).2 ho)

/-- The media of zones of which there are not too many. -/
theorem mediaWidth_lt (hv : kp.Valid) (hw : kp.Wide) : kp.mediaWidth < 2 ^ 63 := by
  have hg := geometry hv hw.transfer
  have hwidth := hg.width
  have hkeys := hg.keys
  have htransfer : kp.sectorsize ≤ 2 ^ 16 := hw.transfer
  have hper : kp.sectorsize / SKEYLEN ≤ 2 ^ 12 := by rw [SKEYLEN]; omega
  have hzc : kp.zoneCont ≤ 2 ^ 12 * 2 ^ 16 := hkeys ▸ Nat.mul_le_mul hper htransfer
  have hzw : kp.zoneWidth ≤ 2 ^ 29 := by omega
  have hpos : 0 < kp.zoneWidth := by
    have hpos := hv.pos; omega
  calc kp.mediaWidth < (kp.mediaWidth / kp.zoneWidth + 1) * kp.zoneWidth :=
        Nat.lt_mul_of_div_lt (Nat.lt_succ_self _) hpos
    _ ≤ (2 ^ 32 + 1) * 2 ^ 29 := Nat.mul_le_mul (Nat.succ_le_succ hw.zones) hzw
    _ < 2 ^ 63 := by norm_num

/-- What `g_bde_map_sector` computes where its numbers are wide enough. -/
theorem gBdeMapSector_eq (hv : kp.Valid) (hw : kp.Wide) (ho : o < gBdeMaxSector kp) (n : ℕ) :
    gBdeMapSector kp { offset := o, length := n } = some
      { offset := o
        length := cut kp.sectorsize (kp.lsector.map kp.lockSector)
          (kp.rotate (kp.pos o) + kp.sector0) (kp.piece o n)
        so := kp.place (kp.pos o)
        kso := kp.place (kp.keyPos o)
        ko := o % kp.zoneCont / kp.sectorsize * SKEYLEN } := by
  have hg := geometry hv hw.transfer
  have hmedia := hg.media
  have hwidth := hg.width
  have hN := hv.sectorN_lt
  have hpos := hv.pos
  have hzone := zone_le hv hw ho
  have hzclt := hg.lt
  have hzcpos := hg.pos
  have hrot := hw.rotation
  have hmw := mediaWidth_lt hv hw
  have hzoff := Nat.mod_lt o hg.pos
  have hdiv := Nat.div_mul_le_self kp.mediaWidth kp.zoneWidth
  rw [add_mul, one_mul] at hzone
  have hmw0 : 0 < kp.mediaWidth := by omega
  have hzonelt : o / kp.zoneCont < 2 ^ 32 := by
    have hlt : o / kp.zoneCont < kp.mediaWidth / kp.zoneWidth := by
      by_contra hge
      have hle := Nat.mul_le_mul_right kp.zoneWidth (not_lt.1 hge); omega
    exact lt_of_lt_of_le hlt hw.zones
  have hko : o % kp.zoneCont / kp.sectorsize * SKEYLEN < 2 ^ 32 := by
    have hlt : o % kp.zoneCont / kp.sectorsize < kp.sectorsize / SKEYLEN := by
      rw [Nat.div_lt_iff_lt_mul hpos, ← hg.keys]; exact hzoff
    have hle := Nat.mul_le_mul_right SKEYLEN hlt.le
    have hsmall := hg.small
    rw [hg.slots] at hle; omega
  have hrp : kp.rotate (kp.pos o) < kp.mediaWidth := Nat.mod_lt _ hmw0
  have hrk : kp.rotate (kp.keyPos o) < kp.mediaWidth := Nat.mod_lt _ hmw0
  have hposdef : kp.pos o = o / kp.zoneCont * kp.zoneWidth + o % kp.zoneCont := rfl
  have hkeydef : kp.keyPos o = o / kp.zoneCont * kp.zoneWidth + kp.zoneCont := rfl
  have hso : u64 (u64 (o / kp.zoneCont * kp.zoneWidth + o % kp.zoneCont) + kp.keyoffset) %
      kp.mediaWidth = kp.rotate (kp.pos o) := by
    rw [← hposdef, u64_of_lt (x := kp.pos o) (by omega), u64_of_lt (by omega)]
    rfl
  have hkso : u64 (u64 (o / kp.zoneCont * kp.zoneWidth + kp.zoneCont) + kp.keyoffset) %
      kp.mediaWidth = kp.rotate (kp.keyPos o) := by
    rw [← hkeydef, u64_of_lt (x := kp.keyPos o) (by omega), u64_of_lt (by omega)]
    rfl
  -- the length in front of the lock sectors
  have hlen (z : ℕ) : (if z > DFLTPHYS then DFLTPHYS else z) = min DFLTPHYS z := by
    split
    · omega
    · omega
  have hlen' (z : ℕ) : (if z < n then z else n) = min n z := by
    split
    · omega
    · omega
  have hend : (if u64 (kp.rotate (kp.pos o) +
        min n (min DFLTPHYS (kp.zoneCont - o % kp.zoneCont))) > kp.mediaWidth then
        kp.mediaWidth - kp.rotate (kp.pos o) else
          min n (min DFLTPHYS (kp.zoneCont - o % kp.zoneCont))) = kp.piece o n := by
    rw [u64_of_lt (by omega), Key.piece]
    split
    · omega
    · omega
  have hpiece : kp.piece o n ≤ kp.mediaWidth - kp.rotate (kp.pos o) := min_le_right _ _
  have hfour : kp.lsector.length * kp.sectorsize = 4 * kp.sectorsize := by
    rw [hv.four, MAXKEYS]
  have hcut := cut_le kp.sectorsize (kp.lsector.map kp.lockSector)
    (kp.rotate (kp.pos o) + kp.sector0) (kp.piece o n)
  have hskip := skip_le kp.sectorsize (kp.lsector.map kp.lockSector)
    (kp.rotate (kp.pos o) + kp.sector0)
  have hskipk := skip_le kp.sectorsize (kp.lsector.map kp.lockSector)
    (kp.rotate (kp.keyPos o) + kp.sector0)
  have hle := le_skip kp.sectorsize (kp.lsector.map kp.lockSector)
    (kp.rotate (kp.pos o) + kp.sector0)
  have hlek := le_skip kp.sectorsize (kp.lsector.map kp.lockSector)
    (kp.rotate (kp.keyPos o) + kp.sector0)
  rw [length_map, hfour] at hskip hskipk
  have hkend : kp.rotate (kp.keyPos o) + kp.sectorsize ≤ kp.mediaWidth :=
    rotate_add_le hg hv hmw0 (dvd_keyPos hg o)
  rw [gBdeMapSector, if_neg (by omega)]
  dsimp only
  rw [u32_of_lt hzonelt, u32_of_lt (x := o % kp.zoneCont) (by omega), u32_of_lt hko,
    u32_of_lt (x := kp.zoneCont - o % kp.zoneCont) (by omega), hlen, hlen', hso, hkso, hend,
    u64_of_lt (x := kp.rotate (kp.pos o) + kp.sector0) (by omega),
    u64_of_lt (x := kp.rotate (kp.keyPos o) + kp.sector0) (by omega),
    lockLoop_eq (by dsimp only; omega) (by dsimp only; omega)]
  dsimp only
  rw [if_pos]
  · rfl
  · rw [u64_of_lt (by omega), u64_of_lt (by omega)]
    exact ⟨by omega, by omega, by omega, by omega⟩

end FreeBSD.Bde
