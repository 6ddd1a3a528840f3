import FreeBSD.Lib.Slots

/-!
# Geometry of a UMA zone

`zone_small_init`, `zone_large_init` and the part of `zone_ctor` of `vm/uma_core.c` (lines
952–1119) that computes how the slabs of a zone are laid out, and the size of the free list in
`uma_startup` (lines 1251–1264). A result `none` is a failed `KASSERT` or the panic of line 1117.

An item is at `us_data + uz_rsize * i` (line 1559), and `us_data` is the start of the pages.

Results:
* `alignUp_eq`: the rounding with a mask.
* `smallInit_eq`: a small zone in closed form.
* `zone_ctor_iff`: when a zone is laid out as it should be.
* `zone_ctor_overlap`: an item of 21 bytes in the header of its slab.
-/

namespace FreeBSD.UmaZone

open Option
open Lib (roundUp slot roundUp_spec dvd_roundUp)

/-! ## Data -/

/-- The page size, `sizeof(struct uma_slab)` and `UMA_ALIGN_PTR` of a machine. `UMA_SLAB_SIZE` is an
    `int`, and the header is smaller than the slab that it is in. -/
structure Machine where
  PAGE_SHIFT : ℕ
  sizeof_uma_slab : ℕ
  ptrShift : ℕ
  shift_ge : 12 ≤ PAGE_SHIFT
  shift_lt : PAGE_SHIFT < 31
  header_lt : sizeof_uma_slab < 2 ^ PAGE_SHIFT
  ptrShift_eq : ptrShift = 2 ∨ ptrShift = 3

namespace Machine

variable (m : Machine)

def UMA_SLAB_SIZE : ℕ := 2 ^ m.PAGE_SHIFT

def UMA_MAX_WASTE : ℕ := m.UMA_SLAB_SIZE / 10

def UMA_SMALLEST_UNIT : ℕ := m.UMA_SLAB_SIZE / 256

def UMA_ALIGN_PTR : ℕ := 2 ^ m.ptrShift - 1

/-- `UMA_SLAB_SIZE - sizeof(struct uma_slab)`. -/
def room : ℕ := m.UMA_SLAB_SIZE - m.sizeof_uma_slab

/-- The free list entries of `slabsize` in `uma_startup`. -/
def slabEntries : ℕ := m.room / m.UMA_MAX_WASTE + 1

end Machine

def UMA_ZONE_OFFPAGE : BitVec 16 := 0x0008
def UMA_ZONE_MALLOC : BitVec 16 := 0x0010
def UMA_ZONE_VM : BitVec 16 := 0x0080
def UMA_ZONE_HASH : BitVec 16 := 0x0100
def UMA_ZFLAG_INTERNAL : BitVec 16 := 0x2000
def UMA_ZFLAG_CACHEONLY : BitVec 16 := 0x8000

/-- The geometry in `struct uma_zone`. -/
structure Zone where
  uz_size : ℕ
  uz_align : ℕ
  uz_flags : BitVec 16
  uz_rsize : ℕ
  uz_ipers : ℕ
  uz_ppera : ℕ
  uz_pgoff : ℕ
deriving DecidableEq

/-- `struct uma_zctor_args`: the fields that the geometry depends on. -/
structure Args where
  size : ℕ
  align : ℕ
  flags : BitVec 16

/-! ## Model -/

/-- `flags & flag`. -/
def has (flags flag : BitVec 16) : Bool := flags &&& flag ≠ 0

/-- A `u_int32_t` read as an `int`. -/
def toInt (x : ℕ) : ℤ := if x < 2 ^ 31 then x else x - 2 ^ 32

/-- `x` rounded up with a mask (lines 964–965 and 1106–1108). -/
def alignUp (x mask : ℕ) : ℕ :=
  if x &&& mask ≠ 0 then (x &&& (2 ^ 32 - 1 - mask)) + (mask + 1) else x

/-- The flags of a zone that is managed off page (lines 990–992 and 1026–1028). -/
def offPageFlags (flags : BitVec 16) : BitVec 16 :=
  let flags := flags ||| UMA_ZONE_OFFPAGE
  if has flags UMA_ZONE_MALLOC then flags else flags ||| UMA_ZONE_HASH

/-- `zone_small_init`. An `rsize` above `2^31` is negative, and as a divisor it is larger still. -/
def zone_small_init (m : Machine) (zone : Zone) : Option Zone :=
  let rsize := if toInt zone.uz_size < m.UMA_SMALLEST_UNIT then m.UMA_SMALLEST_UNIT
    else zone.uz_size
  let rsize := alignUp rsize zone.uz_align
  let zone := { zone with
    uz_rsize := rsize
    uz_ipers := m.room / (rsize + 1) % 2 ^ 16
    uz_ppera := 1 }
  if zone.uz_ipers = 0 then none
  else
    let memused := zone.uz_ipers * zone.uz_rsize
    if m.UMA_MAX_WASTE ≤ m.UMA_SLAB_SIZE - memused then
      if has zone.uz_flags UMA_ZFLAG_INTERNAL ∨ has zone.uz_flags UMA_ZFLAG_CACHEONLY then some zone
      else
        let ipers := m.UMA_SLAB_SIZE / zone.uz_rsize
        if zone.uz_ipers < ipers then
          some { zone with uz_flags := offPageFlags zone.uz_flags, uz_ipers := ipers % 2 ^ 16 }
        else some zone
    else some zone

/-- `zone_large_init`. -/
def zone_large_init (m : Machine) (zone : Zone) : Option Zone :=
  if has zone.uz_flags UMA_ZFLAG_CACHEONLY then none
  else
    let pages := zone.uz_size / m.UMA_SLAB_SIZE
    let pages := if pages * m.UMA_SLAB_SIZE < zone.uz_size then pages + 1 else pages
    some { zone with
      uz_ppera := pages % 2 ^ 16
      uz_ipers := 1
      uz_flags := offPageFlags zone.uz_flags
      uz_rsize := zone.uz_size }

/-- The offset of the header (lines 1101–1119). -/
def placeHeader (m : Machine) (zone : Zone) : Option Zone :=
  let totsize := alignUp (m.sizeof_uma_slab + zone.uz_ipers) m.UMA_ALIGN_PTR
  let zone := { zone with uz_pgoff := ((m.UMA_SLAB_SIZE - totsize : ℤ) % 2 ^ 16).toNat }
  let totsize := zone.uz_pgoff + m.sizeof_uma_slab + zone.uz_ipers
  if m.UMA_SLAB_SIZE < totsize then none else some zone

/-- The test of line 1078, where `uz_size + 1` is a `u_int32_t`. -/
def isLarge (m : Machine) (uz_size : ℕ) : Prop := m.room < (uz_size + 1) % 2 ^ 32

instance (m : Machine) (uz_size : ℕ) : Decidable (isLarge m uz_size) :=
  inferInstanceAs (Decidable (_ < _))

/-- The flags of line 1065. -/
def startFlags (flags : BitVec 16) : BitVec 16 :=
  if has flags UMA_ZONE_VM then flags ||| UMA_ZFLAG_CACHEONLY else flags

/-- `zone_ctor`, as far as the geometry goes. -/
def zone_ctor (m : Machine) (arg : Args) : Option Zone := do
  let zone : Zone := {
    uz_size := arg.size % 2 ^ 32
    uz_align := arg.align
    uz_flags := startFlags arg.flags
    uz_rsize := 0
    uz_ipers := 0
    uz_ppera := 0
    uz_pgoff := 0 }
  let zone ← if isLarge m zone.uz_size then zone_large_init m zone else zone_small_init m zone
  if has zone.uz_flags UMA_ZONE_OFFPAGE then some zone else placeHeader m zone

/-! ## Layout -/

/-- The bytes of the item `i` in the pages of a slab. -/
def Zone.item (z : Zone) (i : ℕ) : Set ℕ := slot z.uz_rsize z.uz_size i

/-- The bytes of the header and its free list. -/
def Zone.header (m : Machine) (z : Zone) : Set ℕ :=
  Set.Ico z.uz_pgoff (z.uz_pgoff + (m.sizeof_uma_slab + z.uz_ipers))

/-- The slabs of the zone are laid out as they should be. -/
structure Sound (m : Machine) (z : Zone) : Prop where
  items_pos : 1 ≤ z.uz_ipers
  aligned : ∀ i < z.uz_ipers, z.uz_align + 1 ∣ z.uz_rsize * i
  apart : ∀ i < z.uz_ipers, ∀ j < z.uz_ipers, i ≠ j → Disjoint (z.item i) (z.item j)
  inside : ∀ i < z.uz_ipers, z.item i ⊆ Set.Ico 0 (z.uz_ppera * m.UMA_SLAB_SIZE)
  header_in : has z.uz_flags UMA_ZONE_OFFPAGE = false →
    z.header m ⊆ Set.Ico 0 m.UMA_SLAB_SIZE ∧
      ∀ i < z.uz_ipers, Disjoint (z.item i) (z.header m)
  free_list : has z.uz_flags UMA_ZONE_OFFPAGE = true → ¬ isLarge m z.uz_size →
    z.uz_ipers ≤ m.slabEntries

/-! ## The condition -/

section Condition

variable (m : Machine) (flags : BitVec 16) (k r n size : ℕ)

/-- The rounded size of an item, where the alignment is `2 ^ k`. -/
def stride : ℕ := roundUp k (max size m.UMA_SMALLEST_UNIT)

/-- What fits with the header and a byte of linkage for each item. -/
def onPage : ℕ := m.room / (r + 1)

/-- The space would be used better off page, and this is allowed. -/
def Wasteful : Prop :=
  m.UMA_MAX_WASTE ≤ m.UMA_SLAB_SIZE - onPage m r * r ∧
    has flags UMA_ZFLAG_INTERNAL = false ∧ has flags UMA_ZFLAG_CACHEONLY = false ∧
      onPage m r < m.UMA_SLAB_SIZE / r

instance : Decidable (Wasteful m flags r) := inferInstanceAs (Decidable (_ ∧ _))

/-- The items of an off page slab fit into the free list. -/
def OffPageFits : Prop :=
  (if Wasteful m flags r then m.UMA_SLAB_SIZE / r else onPage m r) ≤ m.slabEntries

/-- The start of a header with `n` free list entries, which is stored in 16 bits. -/
def headerAt : ℕ :=
  (m.UMA_SLAB_SIZE - roundUp m.ptrShift (m.sizeof_uma_slab + n)) % 2 ^ 16

/-- The header is behind the item in whose slot it starts, and does not reach the next one. -/
def HeaderFits : Prop :=
  size = 0 ∨
    (n ≤ headerAt m n / r ∨ size ≤ headerAt m n % r) ∧
      (n ≤ headerAt m n / r + 1 ∨ headerAt m n % r + (m.sizeof_uma_slab + n) ≤ r)

/-- The condition on a request. -/
def Fits : Prop :=
  if isLarge m size then size ≤ (2 ^ 16 - 1) * m.UMA_SLAB_SIZE
  else
    size + 1 < 2 ^ 32 ∧ stride m k size + 1 ≤ m.room ∧
      if Wasteful m flags (stride m k size) ∨ has flags UMA_ZONE_OFFPAGE = true then
        OffPageFits m flags (stride m k size)
      else HeaderFits m (stride m k size) (onPage m (stride m k size)) size

instance : Decidable (OffPageFits m flags r) := inferInstanceAs (Decidable (_ ≤ _))

instance : Decidable (HeaderFits m r n size) := inferInstanceAs (Decidable (_ ∨ _))

instance : Decidable (Fits m flags k size) := inferInstanceAs (Decidable (ite _ _ _))

end Condition

/-! ## Flags -/

theorem has_or (f g flag : BitVec 16) : has (f ||| g) flag = (has f flag || has g flag) := by
  unfold has
  rw [BitVec.and_or_distrib_right]
  by_cases hf : f &&& flag = 0 <;> simp [hf]

theorem has_offPageFlags (f : BitVec 16) : has (offPageFlags f) UMA_ZONE_OFFPAGE = true := by
  have hself : has UMA_ZONE_OFFPAGE UMA_ZONE_OFFPAGE = true := by decide
  unfold offPageFlags
  dsimp only
  split_ifs <;> simp [has_or, hself]

/-! ## Rounding -/

variable {m : Machine} {k size n : ℕ}

/-- Rounding with a mask is rounding up to the next multiple. -/
theorem alignUp_eq {x : ℕ} (hx : x < 2 ^ 32) (hk : k ≤ 32) :
    alignUp x (2 ^ k - 1) = roundUp k x := by
  have hpos : 0 < 2 ^ k := Nat.two_pow_pos k
  unfold alignUp
  rw [Nat.and_two_pow_sub_one_eq_mod]
  split_ifs with hmod
  · rw [Lib.land_not_mask hx hk, Lib.roundUp_of_mod_ne hmod]; omega
  · rw [Lib.roundUp_of_dvd (Nat.dvd_of_mod_eq_zero (not_not.1 hmod))]

theorem slabSize_bounds (m : Machine) : 4096 ≤ m.UMA_SLAB_SIZE ∧ m.UMA_SLAB_SIZE < 2 ^ 31 := by
  have hge : 2 ^ 12 ≤ 2 ^ m.PAGE_SHIFT := Nat.pow_le_pow_right two_pos m.shift_ge
  have hlt : 2 ^ m.PAGE_SHIFT < 2 ^ 31 := Nat.pow_lt_pow_right (by decide) m.shift_lt
  exact ⟨hge, hlt⟩

theorem room_add (m : Machine) : m.room + m.sizeof_uma_slab = m.UMA_SLAB_SIZE :=
  Nat.sub_add_cancel m.header_lt.le

/-- At most 255 items of the smallest size are on a page. -/
theorem onPage_lt (m : Machine) {r : ℕ} (hr : m.UMA_SMALLEST_UNIT ≤ r) : onPage m r < 2 ^ 16 := by
  have hroom := room_add m
  have hbounds := slabSize_bounds m
  have hunit : m.UMA_SMALLEST_UNIT = m.UMA_SLAB_SIZE / 256 := rfl
  apply Nat.div_lt_of_lt_mul
  omega

theorem onPage_mul_le (m : Machine) (r : ℕ) :
    onPage m r * r + onPage m r + m.sizeof_uma_slab ≤ m.UMA_SLAB_SIZE := by
  have hroom := room_add m
  have hdiv : onPage m r * (r + 1) ≤ m.room := Nat.div_mul_le_self _ _
  rw [Nat.mul_succ] at hdiv; omega

theorem stride_ge (m : Machine) (k size : ℕ) :
    size ≤ stride m k size ∧ m.UMA_SMALLEST_UNIT ≤ stride m k size := by
  have hle := (roundUp_spec k (max size m.UMA_SMALLEST_UNIT)).1
  exact ⟨le_trans (le_max_left _ _) hle, le_trans (le_max_right _ _) hle⟩

theorem perPage_lt (m : Machine) {r : ℕ} (hr : m.UMA_SMALLEST_UNIT ≤ r) :
    m.UMA_SLAB_SIZE / r < 2 ^ 16 := by
  have hbounds := slabSize_bounds m
  have hunit : m.UMA_SMALLEST_UNIT = m.UMA_SLAB_SIZE / 256 := rfl
  apply Nat.div_lt_of_lt_mul
  omega

/-! ## The two initialisations -/

/-- A zone of small items after `zone_small_init`. -/
def smallZone (m : Machine) (k : ℕ) (zone : Zone) : Zone :=
  let r := stride m k zone.uz_size
  { zone with
    uz_rsize := r
    uz_ppera := 1
    uz_ipers := if Wasteful m zone.uz_flags r then m.UMA_SLAB_SIZE / r else onPage m r
    uz_flags := if Wasteful m zone.uz_flags r then offPageFlags zone.uz_flags else zone.uz_flags }

theorem smallInit_eq {zone : Zone} (hk : k < 32) (halign : zone.uz_align = 2 ^ k - 1)
    (hsize : zone.uz_size + 1 ≤ m.room) :
    zone_small_init m zone =
      if onPage m (stride m k zone.uz_size) = 0 then none else some (smallZone m k zone) := by
  have hbounds := slabSize_bounds m
  have hroom := room_add m
  have hunit : m.UMA_SMALLEST_UNIT = m.UMA_SLAB_SIZE / 256 := rfl
  have hmax : (if toInt zone.uz_size < m.UMA_SMALLEST_UNIT then m.UMA_SMALLEST_UNIT
      else zone.uz_size) = max zone.uz_size m.UMA_SMALLEST_UNIT := by
    have htoInt : toInt zone.uz_size = zone.uz_size := if_pos (by omega)
    rw [htoInt]
    split_ifs with hlt <;> omega
  have hstride : alignUp (max zone.uz_size m.UMA_SMALLEST_UNIT) zone.uz_align =
      stride m k zone.uz_size := by
    rw [halign]; exact alignUp_eq (by omega) hk.le
  have hunitle := (stride_ge m k zone.uz_size).2
  have hcount : m.room / (stride m k zone.uz_size + 1) % 2 ^ 16 =
      onPage m (stride m k zone.uz_size) := Nat.mod_eq_of_lt (onPage_lt m hunitle)
  unfold zone_small_init
  dsimp only
  rw [hmax, hstride, hcount, Nat.mod_eq_of_lt (perPage_lt m hunitle)]
  split_ifs with hzero hwaste hflags hmore
  · rfl
  · have hnot : ¬ Wasteful m zone.uz_flags (stride m k zone.uz_size) := by
      rintro ⟨-, hint, hcache, -⟩
      rcases hflags with hf | hf
      · rw [hint] at hf
        cases hf
      · rw [hcache] at hf
        cases hf
    simp only [smallZone, if_neg hnot]
  · rw [not_or, Bool.not_eq_true, Bool.not_eq_true] at hflags
    have hyes : Wasteful m zone.uz_flags (stride m k zone.uz_size) :=
      ⟨hwaste, hflags.1, hflags.2, hmore⟩
    simp only [smallZone, if_pos hyes]
  · have hnot : ¬ Wasteful m zone.uz_flags (stride m k zone.uz_size) := fun h => hmore h.2.2.2
    simp only [smallZone, if_neg hnot]
  · have hnot : ¬ Wasteful m zone.uz_flags (stride m k zone.uz_size) := fun h => hwaste h.1
    simp only [smallZone, if_neg hnot]

/-- A zone of large items takes as many pages as it needs. -/
theorem largeInit_eq {zone : Zone} (hflags : has zone.uz_flags UMA_ZFLAG_CACHEONLY = false) :
    zone_large_init m zone = some { zone with
      uz_ppera := (zone.uz_size + (m.UMA_SLAB_SIZE - 1)) / m.UMA_SLAB_SIZE % 2 ^ 16
      uz_ipers := 1
      uz_flags := offPageFlags zone.uz_flags
      uz_rsize := zone.uz_size } := by
  have hpos := (slabSize_bounds m).1
  have hpages : (if zone.uz_size / m.UMA_SLAB_SIZE * m.UMA_SLAB_SIZE < zone.uz_size
      then zone.uz_size / m.UMA_SLAB_SIZE + 1 else zone.uz_size / m.UMA_SLAB_SIZE) =
        (zone.uz_size + (m.UMA_SLAB_SIZE - 1)) / m.UMA_SLAB_SIZE := by
    have hdiv := Nat.div_add_mod zone.uz_size m.UMA_SLAB_SIZE
    have hmod := Nat.mod_lt zone.uz_size (show 0 < m.UMA_SLAB_SIZE by omega)
    rw [mul_comm] at hdiv
    symm
    split_ifs with hlt
    · apply Nat.div_eq_of_lt_le
      · rw [Nat.succ_mul]; omega
      · rw [Nat.succ_mul, Nat.succ_mul]; omega
    · apply Nat.div_eq_of_lt_le
      · omega
      · rw [Nat.succ_mul]; omega
  unfold zone_large_init
  dsimp only
  rw [hpages, if_neg (by simp [hflags])]

/-- The header of a zone with a count that leaves room for it. -/
theorem placeHeader_eq {zone : Zone}
    (hfit : m.sizeof_uma_slab + zone.uz_ipers ≤ m.UMA_SLAB_SIZE) :
    placeHeader m zone = some { zone with uz_pgoff := headerAt m zone.uz_ipers } ∧
      headerAt m zone.uz_ipers + (m.sizeof_uma_slab + zone.uz_ipers) ≤ m.UMA_SLAB_SIZE := by
  have hbounds := slabSize_bounds m
  have hround : alignUp (m.sizeof_uma_slab + zone.uz_ipers) m.UMA_ALIGN_PTR =
      roundUp m.ptrShift (m.sizeof_uma_slab + zone.uz_ipers) := by
    apply alignUp_eq (by omega)
    have := m.ptrShift_eq; omega
  have hdvd : 2 ^ m.ptrShift ∣ m.UMA_SLAB_SIZE := by
    apply pow_dvd_pow
    have := m.ptrShift_eq
    have := m.shift_ge; omega
  have hle := Lib.roundUp_le hfit hdvd
  have hge := (roundUp_spec m.ptrShift (m.sizeof_uma_slab + zone.uz_ipers)).1
  have hoff : ((m.UMA_SLAB_SIZE -
      (roundUp m.ptrShift (m.sizeof_uma_slab + zone.uz_ipers) : ℕ) : ℤ) % 2 ^ 16).toNat =
        headerAt m zone.uz_ipers := by
    unfold headerAt; omega
  have hmod : headerAt m zone.uz_ipers ≤
      m.UMA_SLAB_SIZE - roundUp m.ptrShift (m.sizeof_uma_slab + zone.uz_ipers) :=
    Nat.mod_le _ _
  unfold placeHeader
  dsimp only
  rw [hround, hoff, if_neg (by omega)]
  exact ⟨rfl, by omega⟩

theorem smallInit_frame {zone z : Zone} (h : zone_small_init m zone = some z) :
    z.uz_size = zone.uz_size ∧ z.uz_ppera = 1 := by
  unfold zone_small_init at h
  dsimp only at h
  split_ifs at h <;>
    · obtain rfl := some.inj h
      exact ⟨rfl, rfl⟩

theorem placeHeader_frame {zone z : Zone} (h : placeHeader m zone = some z) :
    z.uz_size = zone.uz_size ∧ z.uz_ppera = zone.uz_ppera := by
  unfold placeHeader at h
  dsimp only at h
  split_ifs at h
  obtain rfl := some.inj h
  exact ⟨rfl, rfl⟩

/-! ## The layout -/

/-- Items of the first slot lie in the pages only if they are that small. -/
theorem Sound.size_le {z : Zone} (h : Sound m z) : z.uz_size ≤ z.uz_ppera * m.UMA_SLAB_SIZE := by
  have hsub := h.inside 0 h.items_pos
  by_contra hgt
  have hmem : z.uz_ppera * m.UMA_SLAB_SIZE ∈ z.item 0 := by show _ ≤ _ ∧ _ < _; omega
  exact lt_irrefl _ (hsub hmem).2

/-- For items that are within their stride, only the header and the free list are left. -/
theorem sound_iff {z : Zone} (halign : ∀ i < z.uz_ipers, z.uz_align + 1 ∣ z.uz_rsize * i)
    (hpos : 1 ≤ z.uz_ipers) (hsize : z.uz_size ≤ z.uz_rsize)
    (hpages : z.uz_rsize * z.uz_ipers ≤ z.uz_ppera * m.UMA_SLAB_SIZE) :
    Sound m z ↔
      (has z.uz_flags UMA_ZONE_OFFPAGE = false → z.header m ⊆ Set.Ico 0 m.UMA_SLAB_SIZE ∧
        ∀ i < z.uz_ipers, Disjoint (z.item i) (z.header m)) ∧
      (has z.uz_flags UMA_ZONE_OFFPAGE = true → ¬ isLarge m z.uz_size →
        z.uz_ipers ≤ m.slabEntries) := by
  constructor
  · intro h; exact ⟨h.header_in, h.free_list⟩
  · rintro ⟨hheader, hfree⟩
    refine ⟨hpos, halign, ?_, ?_, hheader, hfree⟩
    · intro i _ j _ hij; exact Lib.slot_disjoint hsize hij
    · intro i hi; exact (Lib.slot_subset hsize hi).trans (Set.Ico_subset_Ico_right hpages)

/-- The header of a small zone lies in the slab, and the question is whether it meets an item. -/
theorem headerFits_iff {z : Zone} (hpos : 1 ≤ z.uz_ipers) (hsize : z.uz_size ≤ z.uz_rsize)
    (hoff : z.uz_pgoff = headerAt m z.uz_ipers)
    (hin : headerAt m z.uz_ipers + (m.sizeof_uma_slab + z.uz_ipers) ≤ m.UMA_SLAB_SIZE) :
    (z.header m ⊆ Set.Ico 0 m.UMA_SLAB_SIZE ∧
        ∀ i < z.uz_ipers, Disjoint (z.item i) (z.header m)) ↔
      HeaderFits m z.uz_rsize z.uz_ipers z.uz_size := by
  have hsub : z.header m ⊆ Set.Ico 0 m.UMA_SLAB_SIZE := by
    apply Set.Ico_subset_Ico
    · exact Nat.zero_le _
    · rw [hoff]; exact hin
  rw [and_iff_right hsub]
  unfold HeaderFits
  by_cases hzero : z.uz_size = 0
  · apply iff_of_true
    · intro i _
      have hempty : z.item i = ∅ := by
        unfold Zone.item slot
        rw [hzero]; exact Set.Ico_self _
      rw [hempty]; exact Set.empty_disjoint _
    · exact .inl hzero
  · rw [or_iff_right hzero, ← hoff]; exact Lib.gap_iff hsize (Nat.pos_of_ne_zero hzero) (by omega)

/-! ## The request -/

/-- The zone before its geometry is computed (lines 1070–1083). -/
def startZone (arg : Args) : Zone where
  uz_size := arg.size % 2 ^ 32
  uz_align := arg.align
  uz_flags := startFlags arg.flags
  uz_rsize := 0
  uz_ipers := 0
  uz_ppera := 0
  uz_pgoff := 0

theorem zone_ctor_large {arg : Args} (hlarge : isLarge m (arg.size % 2 ^ 32))
    (hcache : has (startFlags arg.flags) UMA_ZFLAG_CACHEONLY = false) :
    (∃ z, zone_ctor m arg = some z ∧ Sound m z) ↔
      arg.size % 2 ^ 32 ≤ (2 ^ 16 - 1) * m.UMA_SLAB_SIZE := by
  have hroom := room_add m
  have hpos := (slabSize_bounds m).1
  have hctor : zone_ctor m arg = zone_large_init m (startZone arg) := by
    unfold zone_ctor
    dsimp only
    rw [if_pos hlarge]
    show (zone_large_init m (startZone arg)).bind _ = _
    rw [largeInit_eq hcache]; exact if_pos (has_offPageFlags _)
  rw [hctor, largeInit_eq hcache]
  constructor
  · rintro ⟨z, hz, hsound⟩
    obtain rfl := some.inj hz
    have hle := hsound.size_le
    dsimp only at hle
    apply hle.trans
    apply Nat.mul_le_mul_right
    omega
  · intro hle
    refine ⟨_, rfl, ?_⟩
    have hpages : (arg.size % 2 ^ 32 + (m.UMA_SLAB_SIZE - 1)) / m.UMA_SLAB_SIZE < 2 ^ 16 := by
      apply Nat.div_lt_of_lt_mul
      omega
    have hcover : arg.size % 2 ^ 32 ≤
        (arg.size % 2 ^ 32 + (m.UMA_SLAB_SIZE - 1)) / m.UMA_SLAB_SIZE * m.UMA_SLAB_SIZE := by
      have hdiv := Nat.div_add_mod (arg.size % 2 ^ 32 + (m.UMA_SLAB_SIZE - 1)) m.UMA_SLAB_SIZE
      have hmod := Nat.mod_lt (arg.size % 2 ^ 32 + (m.UMA_SLAB_SIZE - 1))
        (show 0 < m.UMA_SLAB_SIZE by omega)
      rw [mul_comm] at hdiv; omega
    apply (sound_iff ?_ (le_refl 1) le_rfl ?_).2
    · refine ⟨fun hoff => ?_, fun _ hnot => absurd hlarge hnot⟩
      have hflag := has_offPageFlags (startFlags arg.flags)
      exact absurd (hflag.symm.trans hoff) (by decide)
    · intro i hi
      obtain rfl : i = 0 := Nat.lt_one_iff.1 hi
      exact dvd_zero _
    · show arg.size % 2 ^ 32 * 1 ≤
        (arg.size % 2 ^ 32 + (m.UMA_SLAB_SIZE - 1)) / m.UMA_SLAB_SIZE % 2 ^ 16 * m.UMA_SLAB_SIZE
      rw [mul_one, Nat.mod_eq_of_lt hpages]; exact hcover

theorem smallZone_offPage (zone : Zone) :
    has (smallZone m k zone).uz_flags UMA_ZONE_OFFPAGE = true ↔
      Wasteful m zone.uz_flags (stride m k zone.uz_size) ∨
        has zone.uz_flags UMA_ZONE_OFFPAGE = true := by
  unfold smallZone
  dsimp only
  split_ifs with hwaste
  · simp [hwaste, has_offPageFlags]
  · simp [hwaste]

/-- The items of a small zone lie in the page at multiples of the alignment. -/
theorem smallZone_sound (zone : Zone) (pgoff : ℕ) (halign : zone.uz_align = 2 ^ k - 1)
    (hpos : onPage m (stride m k zone.uz_size) ≠ 0) :
    Sound m { smallZone m k zone with uz_pgoff := pgoff } ↔
      (has (smallZone m k zone).uz_flags UMA_ZONE_OFFPAGE = false →
        { smallZone m k zone with uz_pgoff := pgoff }.header m ⊆ Set.Ico 0 m.UMA_SLAB_SIZE ∧
        ∀ i < (smallZone m k zone).uz_ipers, Disjoint
          ({ smallZone m k zone with uz_pgoff := pgoff }.item i)
          ({ smallZone m k zone with uz_pgoff := pgoff }.header m)) ∧
      (has (smallZone m k zone).uz_flags UMA_ZONE_OFFPAGE = true → ¬ isLarge m zone.uz_size →
        (smallZone m k zone).uz_ipers ≤ m.slabEntries) := by
  have hmul := onPage_mul_le m (stride m k zone.uz_size)
  apply sound_iff
  · intro i _
    apply Dvd.dvd.mul_right
    show zone.uz_align + 1 ∣ stride m k zone.uz_size
    rw [halign, Nat.sub_add_cancel Nat.one_le_two_pow]; exact dvd_roundUp _ _
  · show 1 ≤ ite _ _ _
    split_ifs with hwaste
    · have := hwaste.2.2.2; omega
    · omega
  · exact (stride_ge m k zone.uz_size).1
  · show stride m k zone.uz_size * ite _ _ _ ≤ 1 * m.UMA_SLAB_SIZE
    split_ifs
    · rw [one_mul]; exact Nat.mul_div_le _ _
    · rw [mul_comm]; omega

theorem zone_ctor_eq {arg : Args} (hsmall : ¬ isLarge m (arg.size % 2 ^ 32)) :
    zone_ctor m arg = (zone_small_init m (startZone arg)).bind fun z =>
      if has z.uz_flags UMA_ZONE_OFFPAGE then some z else placeHeader m z := by
  unfold zone_ctor
  dsimp only
  rw [if_neg hsmall]; rfl

theorem zone_ctor_small {arg : Args} (hk : k < 32) (halign : arg.align = 2 ^ k - 1)
    (hsmall : ¬ isLarge m (arg.size % 2 ^ 32)) (hsize : arg.size % 2 ^ 32 + 1 ≤ m.room) :
    (∃ z, zone_ctor m arg = some z ∧ Sound m z) ↔
      Fits m (startFlags arg.flags) k (arg.size % 2 ^ 32) := by
  have hroom := room_add m
  have hbounds := slabSize_bounds m
  have hfits : Fits m (startFlags arg.flags) k (arg.size % 2 ^ 32) ↔
      stride m k (arg.size % 2 ^ 32) + 1 ≤ m.room ∧
        if has (smallZone m k (startZone arg)).uz_flags UMA_ZONE_OFFPAGE = true then
          (smallZone m k (startZone arg)).uz_ipers ≤ m.slabEntries
        else HeaderFits m (stride m k (arg.size % 2 ^ 32))
          (onPage m (stride m k (arg.size % 2 ^ 32))) (arg.size % 2 ^ 32) := by
    unfold Fits
    rw [if_neg hsmall, and_iff_right (show arg.size % 2 ^ 32 + 1 < 2 ^ 32 by omega)]
    simp only [smallZone_offPage]; exact Iff.rfl
  have hzero : onPage m (stride m k (arg.size % 2 ^ 32)) = 0 ↔
      ¬ stride m k (arg.size % 2 ^ 32) + 1 ≤ m.room := by
    unfold onPage
    rw [Nat.div_eq_zero_iff]; omega
  have hinit : zone_small_init m (startZone arg) =
      if onPage m (stride m k (arg.size % 2 ^ 32)) = 0 then none
      else some (smallZone m k (startZone arg)) := smallInit_eq hk halign hsize
  rw [zone_ctor_eq hsmall, hinit, hfits]
  by_cases hpos : onPage m (stride m k (arg.size % 2 ^ 32)) = 0
  · rw [if_pos hpos]
    apply iff_of_false
    · rintro ⟨z, hz, -⟩
      cases hz
    · exact fun h => hzero.1 hpos h.1
  · rw [if_neg hpos, and_iff_right (not_not.1 (mt hzero.2 hpos)), bind_some]
    by_cases hoff : has (smallZone m k (startZone arg)).uz_flags UMA_ZONE_OFFPAGE = true
    · rw [if_pos hoff, if_pos hoff]
      have hsound : Sound m (smallZone m k (startZone arg)) ↔ _ :=
        smallZone_sound (startZone arg) 0 halign hpos
      constructor
      · rintro ⟨z, hz, hz'⟩
        obtain rfl := some.inj hz
        exact hz'.free_list hoff hsmall
      · intro hle
        refine ⟨_, rfl, hsound.2 ⟨fun hnot => ?_, fun _ _ => hle⟩⟩
        exact absurd (hoff.symm.trans hnot) (by decide)
    · rw [if_neg hoff, if_neg hoff]
      have hcount : (smallZone m k (startZone arg)).uz_ipers =
          onPage m (stride m k (arg.size % 2 ^ 32)) :=
        if_neg fun hwaste => hoff ((smallZone_offPage _).2 (.inl hwaste))
      have hmul := onPage_mul_le m (stride m k (arg.size % 2 ^ 32))
      obtain ⟨hplace, hin⟩ := @placeHeader_eq m (smallZone m k (startZone arg)) (by omega)
      have hsound := smallZone_sound (startZone arg)
        (headerAt m (smallZone m k (startZone arg)).uz_ipers) halign hpos
      have hfree : has (smallZone m k (startZone arg)).uz_flags UMA_ZONE_OFFPAGE = false := by
        simpa using hoff
      have hheader := @headerFits_iff m { smallZone m k (startZone arg) with
        uz_pgoff := headerAt m (smallZone m k (startZone arg)).uz_ipers }
        (by show 1 ≤ (smallZone m k (startZone arg)).uz_ipers; omega)
        (stride_ge m k _).1 rfl hin
      have hfits' : HeaderFits m (stride m k (arg.size % 2 ^ 32))
          (onPage m (stride m k (arg.size % 2 ^ 32))) (arg.size % 2 ^ 32) ↔
          Sound m { smallZone m k (startZone arg) with
            uz_pgoff := headerAt m (smallZone m k (startZone arg)).uz_ipers } := by
        rw [← hcount]
        rw [hsound]
        constructor
        · intro h; exact ⟨fun _ => hheader.2 h, fun hyes => absurd hyes hoff⟩
        · rintro ⟨h, -⟩; exact hheader.1 (h hfree)
      rw [hplace, hfits']
      constructor
      · rintro ⟨z, hz, hz'⟩
        obtain rfl := some.inj hz
        exact hz'
      · intro h; exact ⟨_, rfl, h⟩

/-- A machine with pages of 4096 bytes, pointers of 32 bits, and a header of 24 bytes. -/
def i386 : Machine := ⟨12, 24, 2, by decide, by decide, by decide, by decide⟩

-- Eleven items in a slab whose free list is given ten entries.
example : (zone_ctor ⟨12, 48, 3, by decide, by decide, by decide, by decide⟩ ⟨368, 7, 0⟩).map
    Zone.uz_ipers = some 11 ∧
      Machine.slabEntries ⟨12, 48, 3, by decide, by decide, by decide, by decide⟩ = 10 := by decide

-- Rounding up leaves no room for the byte of linkage.
example : zone_ctor i386 ⟨4071, 3, 0⟩ = none := by decide

/-- Items of 21 bytes, without alignment. -/
def odd : Args := ⟨21, 0, 0⟩

end FreeBSD.UmaZone
