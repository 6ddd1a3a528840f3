import FreeBSD.Ufs.NodeAlloc

/-!
# Runs of a cylinder group with its inodes, `ufs/ffs/ffs_alloc.c`

The inode that a search finds is the first one of its byte of the rotor or of the map, or follows an
inode in use. As an inode in use is at least a block away from the end of the initialised part, the
search does not leave that part.

Results:
* `search_spec`: what a search finds.
* `inodes_of_run`: a free and initialised inode is found in every run, and the summaries are right.
-/

namespace FreeBSD.NodeAlloc

open Lib Lib.Bitmap Finset

variable {fs : Fs} {cg : ℕ} {cgp : Cg} {s t : State} {i j x ipref ino r : ℕ} {isdir io : Bool}
  {op : Op}

/-- A file system whose groups have whole bytes of inodes. -/
structure Fs.Valid (fs : Fs) : Prop where
  ipg : 8 ∣ fs.ipg
  ipg_pos : 0 < fs.ipg
  inopb : 8 ∣ fs.inopb
  inopb_pos : 0 < fs.inopb
  ufs2 : fs.ufs2 = true

/-! ## Search -/

/-- The bits of a full byte are set. -/
theorem bit_of_full {a : ℕ → BitVec 8} (h : a (x / 8) = 0xff#8) : bit a x = true := by
  have hones : (0xff#8 : BitVec 8) = BitVec.allOnes 8 := by decide
  rw [bit, h, hones, BitVec.getLsbD_allOnes, decide_eq_true (Nat.mod_lt x (by decide))]

/-- The lowest clear bit of a byte that bytes from `p` on precede that are full. -/
theorem found_spec {a : ℕ → BitVec 8} {p q : ℕ} (hpq : p ≤ q) (hq : a q ≠ 0xff#8)
    (hfull : ∀ r, p ≤ r → r < q → a r = 0xff#8) :
    ∃ x, (firstClear (a q)).map (q * 8 + ·) = some x ∧ x / 8 = q ∧ bit a x = false ∧
      (x = p * 8 ∨ 0 < x ∧ bit a (x - 1) = true) := by
  have hones : (0xff#8 : BitVec 8) = BitVec.allOnes 8 := by decide
  rw [hones] at hq
  obtain ⟨j, hj, hfirst, hclear, hbefore⟩ := firstClear_spec hq
  refine ⟨q * 8 + j, by rw [hfirst]; rfl, by omega, ?_, ?_⟩
  · have hdiv : (q * 8 + j) / 8 = q := by omega
    have hmod : (q * 8 + j) % 8 = j := by omega
    rw [bit, hdiv, hmod]; exact hclear
  · by_cases hj0 : j = 0
    · by_cases hp : p = q
      · exact .inl (by rw [hj0, hp]; rfl)
      · refine .inr ⟨by omega, bit_of_full (hfull _ ?_ ?_)⟩
        · omega
        · omega
    · refine .inr ⟨by omega, ?_⟩
      have hdiv : (q * 8 + j - 1) / 8 = q := by omega
      have hmod : (q * 8 + j - 1) % 8 = j - 1 := by omega
      rw [bit, hdiv, hmod]; exact hbefore (j - 1) (by omega)

/-- A search finds a free inode, if there is one. It is the first of its byte of the rotor or of
    the map, or follows an inode in use. -/
theorem search_spec (hv : fs.Valid) (hrotor : cgp.irotor < fs.ipg)
    (hfree : ∃ i < fs.ipg, bit cgp.inosused i = false) :
    ∃ x, search fs cgp = some x ∧ x < fs.ipg ∧ bit cgp.inosused x = false ∧
      (x ≤ cgp.irotor ∨ 0 < x ∧ bit cgp.inosused (x - 1) = true) := by
  obtain ⟨n, hn⟩ := hv.ipg
  have hlen : cgp.irotor / 8 + howmany (fs.ipg - cgp.irotor) 8 = n := by rw [howmany]; omega
  rw [search]
  dsimp only
  rcases skipByte_spec 0xff#8 cgp.inosused (howmany (fs.ipg - cgp.irotor) 8)
      (cgp.irotor / 8) with ⟨hloc, hfull⟩ | ⟨q, hpq, hq, hloc, hne, hfull⟩
  · -- what is free lies in front of the rotor
    rw [if_pos hloc]
    rcases skipByte_spec 0xff#8 cgp.inosused (cgp.irotor / 8 + 1) 0 with
      ⟨-, hfull'⟩ | ⟨q, -, hq, hloc', hne, hfull'⟩
    · obtain ⟨i, hi, hclear⟩ := hfree
      have hset : bit cgp.inosused i = true := by
        refine bit_of_full ?_
        by_cases hstart : cgp.irotor / 8 ≤ i / 8
        · exact hfull _ hstart (by omega)
        · exact hfull' _ (Nat.zero_le _) (by omega)
      rw [hset] at hclear
      cases hclear
    · obtain ⟨x, hx, hdiv, hclear, hor⟩ := found_spec (Nat.zero_le q) hne hfull'
      have hsub : cgp.irotor / 8 + 1 - (0 + (cgp.irotor / 8 + 1) - q) = q := by omega
      rw [if_neg (by omega), hloc', hsub]
      exact ⟨x, hx, by omega, hclear, hor.imp (fun h0 => by omega) id⟩
  · obtain ⟨x, hx, hdiv, hclear, hor⟩ := found_spec hpq hne hfull
    have hsub : cgp.irotor / 8 + howmany (fs.ipg - cgp.irotor) 8 -
        (cgp.irotor / 8 + howmany (fs.ipg - cgp.irotor) 8 - q) = q := by omega
    rw [if_neg (by omega), hloc, hsub]
    exact ⟨x, hx, by omega, hclear, hor.imp (fun h0 => by omega) id⟩

/-! ## Invariant -/

/-- The free inodes. -/
def State.clear (fs : Fs) (s : State) : Finset ℕ :=
  (Finset.range fs.ipg).filter fun i => bit s.cgp.inosused i = false

/-- The directories. -/
def State.dirs (fs : Fs) (s : State) : Finset ℕ :=
  (Finset.range fs.ipg).filter fun i => bit s.cgp.inosused i = true ∧ s.dir i = true

/-- The summaries are right, and whatever is in use is initialised: at least a block of inodes
    follows, unless all are. -/
structure Inv (fs : Fs) (s : State) : Prop where
  nifree : s.cgp.cs.nifree = (s.clear fs).card
  ndir : s.cgp.cs.ndir = (s.dirs fs).card
  cs : s.cs = s.cgp.cs
  niblk : s.cgp.niblk = fs.ipg
  irotor_lt : s.cgp.irotor < fs.ipg
  irotor_inited : s.cgp.irotor < s.cgp.initediblk
  inited : ∀ i < fs.ipg, bit s.cgp.inosused i = true → i < s.cgp.initediblk ∧
    (i + fs.inopb ≤ s.cgp.initediblk ∨ fs.ipg ≤ s.cgp.initediblk)

theorem mem_clear : i ∈ s.clear fs ↔ i < fs.ipg ∧ bit s.cgp.inosused i = false := by
  rw [State.clear, mem_filter, mem_range]

theorem mem_dirs :
    i ∈ s.dirs fs ↔ i < fs.ipg ∧ bit s.cgp.inosused i = true ∧ s.dir i = true := by
  rw [State.dirs, mem_filter, mem_range]

theorem Inv.exists_clear (h : Inv fs s) (hne : s.cgp.cs.nifree ≠ 0) :
    ∃ i < fs.ipg, bit s.cgp.inosused i = false := by
  rw [h.nifree, Nat.cast_ne_zero, card_ne_zero] at hne
  obtain ⟨i, hi⟩ := hne
  exact ⟨i, mem_clear.1 hi⟩

/-! ## Allocation -/

theorem clear_gotit (isdir : Bool) (hx : x < fs.ipg) (hclear : bit s.cgp.inosused x = false) :
    (gotit fs s x isdir).clear fs = (s.clear fs).erase x ∧ x ∈ s.clear fs := by
  refine ⟨Finset.ext fun i => ?_, mem_clear.2 ⟨hx, hclear⟩⟩
  rw [mem_erase, mem_clear, mem_clear]
  have hbit : bit (gotit fs s x isdir).cgp.inosused i = (decide (i = x) || bit s.cgp.inosused i) :=
    bit_setBit _ x i
  rw [hbit]
  by_cases hix : i = x
  · simp [hix]
  · simp [hix]

theorem dirs_gotit (isdir : Bool) (hx : x < fs.ipg) (hclear : bit s.cgp.inosused x = false) :
    (gotit fs s x isdir).dirs fs = (if isdir then insert x (s.dirs fs) else s.dirs fs) ∧
      x ∉ s.dirs fs := by
  have hnot : x ∉ s.dirs fs := fun hmem => by
    have hset := (mem_dirs.1 hmem).2.1
    rw [hclear] at hset
    cases hset
  refine ⟨Finset.ext fun i => ?_, hnot⟩
  have hbit : bit (gotit fs s x isdir).cgp.inosused i = (decide (i = x) || bit s.cgp.inosused i) :=
    bit_setBit _ x i
  have hdir : (gotit fs s x isdir).dir i = Function.update s.dir x isdir i := rfl
  rw [mem_dirs, hbit, hdir]
  by_cases hix : i = x
  · rw [hix, Function.update_self]
    cases isdir with
    | true => simp [hx]
    | false => simp [hnot]
  · rw [Function.update_of_ne hix, decide_eq_false hix, Bool.false_or, ← mem_dirs]
    cases isdir with
    | true => simp [hix]
    | false => simp

/-- An initialised inode that is free is taken. -/
theorem gotit_inv (hv : fs.Valid) (h : Inv fs s) (hx : x < fs.ipg)
    (hclear : bit s.cgp.inosused x = false) (hinit : x < s.cgp.initediblk) :
    Inv fs (gotit fs s x isdir) := by
  obtain ⟨hclear', hmem⟩ := clear_gotit isdir hx hclear
  obtain ⟨hdirs, hnot⟩ := dirs_gotit isdir hx hclear
  have hpos := card_pos.2 ⟨x, hmem⟩
  have hle : s.cgp.initediblk ≤ (gotit fs s x isdir).cgp.initediblk := by
    rw [gotit]
    split
    · exact Nat.le_add_right _ _
    · exact le_rfl
  have hnext : x + fs.inopb ≤ (gotit fs s x isdir).cgp.initediblk ∨
      fs.ipg ≤ (gotit fs s x isdir).cgp.initediblk := by
    have hniblk := h.niblk
    rw [gotit]
    simp only [hv.ufs2, true_and]
    split
    · exact .inl (by omega)
    · omega
  exact {
    nifree := by
      have hn : (gotit fs s x isdir).cgp.cs.nifree = s.cgp.cs.nifree - 1 := rfl
      rw [hn, h.nifree, hclear', card_erase_of_mem hmem]; omega
    ndir := by
      have hn : (gotit fs s x isdir).cgp.cs.ndir =
          if isdir then s.cgp.cs.ndir + 1 else s.cgp.cs.ndir := rfl
      rw [hn, hdirs, h.ndir]
      cases isdir with
      | true =>
        rw [if_pos rfl, if_pos rfl, card_insert_of_notMem hnot]; rfl
      | false => rfl
    cs := congrArg (Csum.alloc · isdir) h.cs
    niblk := h.niblk
    irotor_lt := h.irotor_lt
    irotor_inited := lt_of_lt_of_le h.irotor_inited hle
    inited := fun i hi hbit => by
      have hbit : (decide (i = x) || bit s.cgp.inosused i) = true := by
        rw [← bit_setBit]; exact hbit
      by_cases hix : i = x
      · rw [hix]; exact ⟨lt_of_lt_of_le hinit hle, hnext⟩
      · rw [decide_eq_false hix, Bool.false_or] at hbit
        obtain ⟨hlt, hor⟩ := h.inited i hi hbit
        exact ⟨lt_of_lt_of_le hlt hle, hor.imp (fun h => h.trans hle) fun h => h.trans hle⟩ }

/-- The rotor may be anywhere in the initialised part. -/
theorem Inv.setRotor (h : Inv fs s) (hlt : r < fs.ipg) (hinit : r < s.cgp.initediblk) :
    Inv fs { s with cgp := { s.cgp with irotor := r } } :=
  { h with irotor_lt := hlt, irotor_inited := hinit }

/-- What a search finds is initialised. -/
theorem Inv.search_inited (hv : fs.Valid) (h : Inv fs s) (hx : x < fs.ipg)
    (hor : x ≤ s.cgp.irotor ∨ 0 < x ∧ bit s.cgp.inosused (x - 1) = true) :
    x < s.cgp.initediblk := by
  obtain ⟨n, hn⟩ := hv.inopb
  have hpos := hv.inopb_pos
  rcases hor with hle | ⟨hx0, hbit⟩
  · exact lt_of_le_of_lt hle h.irotor_inited
  · obtain ⟨-, hend⟩ := h.inited (x - 1) (by omega) hbit
    omega

/-- The preferred inode: none, one of the group that is in use, or the first. -/
def Preferred (fs : Fs) (cg : ℕ) (s : State) (ipref : ℕ) : Prop :=
  ipref = 0 ∨ ipref = cg * fs.ipg ∨
    ∃ i < fs.ipg, ipref = cg * fs.ipg + i ∧ bit s.cgp.inosused i = true

/-- An allocation: nothing, or a free inode of the initialised part. -/
structure Allocated (fs : Fs) (cg : ℕ) (s t : State) (ino i : ℕ) : Prop where
  ino : ino = cg * fs.ipg + i
  lt : i < fs.ipg
  free : bit s.cgp.inosused i = false
  inited : i < s.cgp.initediblk
  map : ∀ j, bit t.cgp.inosused j = (decide (j = i) || bit s.cgp.inosused j)

theorem alloc_spec (isdir io : Bool) (hv : fs.Valid) (h : Inv fs s)
    (hpref : Preferred fs cg s ipref) :
    ∃ t ino, ffsNodealloccg fs cg s ipref isdir io = some (t, ino) ∧ Inv fs t ∧
      (t = s ∧ ino = 0 ∨ ∃ i, Allocated fs cg s t ino i) := by
  rw [ffsNodealloccg]
  split
  · exact ⟨s, 0, rfl, h, .inl ⟨rfl, rfl⟩⟩
  · split
    · exact ⟨s, 0, rfl, h, .inl ⟨rfl, rfl⟩⟩
    · split
      · exact ⟨s, 0, rfl, h, .inl ⟨rfl, rfl⟩⟩
      · next hne =>
        split
        · next hand =>
          -- only the first inode of the group is preferred and free
          obtain ⟨hne0, hclr⟩ := hand
          rw [isClr_eq, Bool.not_eq_true'] at hclr
          have hfirst : ipref % fs.ipg = 0 := by
            rcases hpref with h0 | h0 | ⟨i, hi, h0, hbit⟩
            · exact absurd h0 hne0
            · rw [h0, Nat.mul_mod_left]
            · rw [h0, Nat.mul_add_mod', Nat.mod_eq_of_lt hi, hbit] at hclr
              cases hclr
          have hinit : ipref % fs.ipg < s.cgp.initediblk := by
            rw [hfirst]; exact lt_of_le_of_lt (Nat.zero_le _) h.irotor_inited
          have hlt := Nat.mod_lt ipref hv.ipg_pos
          exact ⟨_, _, rfl, gotit_inv hv h hlt hclr hinit,
            .inr ⟨_, rfl, hlt, hclr, hinit, fun j => bit_setBit _ _ j⟩⟩
        · obtain ⟨x, hsearch, hx, hclear, hor⟩ :=
            search_spec hv h.irotor_lt (h.exists_clear hne)
          have hinit := h.search_inited hv hx hor
          rw [hsearch]
          exact ⟨_, _, rfl, gotit_inv hv (h.setRotor hx hinit) hx hclear hinit,
            .inr ⟨x, rfl, hx, hclear, hinit, fun j => bit_setBit _ x j⟩⟩

/-! ## Deallocation -/

/-- The state after an inode is given back. -/
def freed (s : State) (i : ℕ) : State :=
  { s with
    cgp := { s.cgp with
      inosused := clrBit s.cgp.inosused i
      irotor := if i < s.cgp.irotor then i else s.cgp.irotor
      cs := s.cgp.cs.free (s.dir i) }
    cs := s.cs.free (s.dir i)
    cstotal := s.cstotal.free (s.dir i) }

theorem clear_freed (hx : x < fs.ipg) (hset : bit s.cgp.inosused x = true) :
    (freed s x).clear fs = insert x (s.clear fs) ∧ x ∉ s.clear fs := by
  have hnot : x ∉ s.clear fs := fun hmem => by
    have hclear := (mem_clear.1 hmem).2
    rw [hset] at hclear
    cases hclear
  refine ⟨Finset.ext fun i => ?_, hnot⟩
  have hbit : bit (freed s x).cgp.inosused i = (!decide (i = x) && bit s.cgp.inosused i) :=
    bit_clrBit _ x i
  rw [mem_insert, mem_clear, mem_clear, hbit]
  by_cases hix : i = x
  · simp [hix, hx]
  · simp [hix]

theorem dirs_freed (hset : bit s.cgp.inosused x = true) (hx : x < fs.ipg) :
    (freed s x).dirs fs = (s.dirs fs).erase x ∧ (x ∈ s.dirs fs ↔ s.dir x = true) := by
  refine ⟨Finset.ext fun i => ?_, ?_⟩
  · have hbit : bit (freed s x).cgp.inosused i = (!decide (i = x) && bit s.cgp.inosused i) :=
      bit_clrBit _ x i
    have hdir : (freed s x).dir i = s.dir i := rfl
    rw [mem_erase, mem_dirs, mem_dirs, hbit, hdir]
    by_cases hix : i = x
    · simp [hix]
    · simp [hix]
  · rw [mem_dirs]; exact ⟨fun h => h.2.2, fun h => ⟨hx, hset, h⟩⟩

theorem freed_inv (h : Inv fs s) (hx : x < fs.ipg) (hset : bit s.cgp.inosused x = true) :
    Inv fs (freed s x) := by
  obtain ⟨hclear, hnot⟩ := clear_freed hx hset
  obtain ⟨hdirs, hdir⟩ := dirs_freed hset hx
  have hrotor : (freed s x).cgp.irotor ≤ s.cgp.irotor := by
    rw [freed]
    dsimp only
    split
    · omega
    · exact le_rfl
  exact {
    nifree := by
      have hn : (freed s x).cgp.cs.nifree = s.cgp.cs.nifree + 1 := rfl
      rw [hn, h.nifree, hclear, card_insert_of_notMem hnot]; rfl
    ndir := by
      have hn : (freed s x).cgp.cs.ndir =
          if s.dir x then s.cgp.cs.ndir - 1 else s.cgp.cs.ndir := rfl
      rw [hn, hdirs, h.ndir]
      by_cases hd : s.dir x = true
      · have hmem := hdir.2 hd
        have hpos := card_pos.2 ⟨x, hmem⟩
        rw [if_pos hd, card_erase_of_mem hmem]; omega
      · rw [if_neg hd, erase_eq_of_notMem fun hmem => hd (hdir.1 hmem)]
    cs := congrArg (Csum.free · (s.dir x)) h.cs
    niblk := h.niblk
    irotor_lt := lt_of_le_of_lt hrotor h.irotor_lt
    irotor_inited := lt_of_le_of_lt hrotor h.irotor_inited
    inited := fun i hi hbit => by
      have hbit : (!decide (i = x) && bit s.cgp.inosused i) = true := by
        rw [← bit_clrBit]; exact hbit
      exact h.inited i hi (Bool.and_eq_true_iff.1 hbit).2 }

/-- An inode of the group that is in use. -/
def InUse (fs : Fs) (cg : ℕ) (s : State) (ino : ℕ) : Prop :=
  ∃ i < fs.ipg, ino = cg * fs.ipg + i ∧ bit s.cgp.inosused i = true

theorem free_spec (io : Bool) (hcg : cg < fs.ncg) (h : Inv fs s) (hino : InUse fs cg s ino) :
    ∃ t, ffsFreefile fs s ino (s.dir (ino % fs.ipg)) io = some (t, 0) ∧ Inv fs t := by
  obtain ⟨i, hi, rfl, hset⟩ := hino
  have hmod : (cg * fs.ipg + i) % fs.ipg = i := by
    rw [Nat.mul_add_mod', Nat.mod_eq_of_lt hi]
  have hrange : cg * fs.ipg + i < fs.ipg * fs.ncg := by
    calc cg * fs.ipg + i < (cg + 1) * fs.ipg := by rw [add_mul, one_mul]; omega
      _ ≤ fs.ncg * fs.ipg := Nat.mul_le_mul_right _ hcg
      _ = fs.ipg * fs.ncg := mul_comm _ _
  rw [ffsFreefile, if_neg (not_le.2 hrange), hmod]
  split
  · exact ⟨s, rfl, h⟩
  · dsimp only
    rw [if_neg]
    · exact ⟨_, rfl, freed_inv h hi hset⟩
    · rw [isClr_eq, hset]; exact fun hand => absurd hand.1 (by decide)

/-! ## Runs -/

/-- What callers do: they prefer inodes of the group, and give back those in use. -/
def Called (fs : Fs) (cg : ℕ) (s : State) : Op → Prop
  | .nodealloccg ipref _ _ => Preferred fs cg s ipref
  | .freefile ino _ => InUse fs cg s ino

/-- A new group, as `newfs` leaves it (newfs/mkfs.c:571): what is in use lies in the first block of
    inodes, and two blocks are initialised. -/
structure Fresh (fs : Fs) (s : State) : Prop where
  nifree : s.cgp.cs.nifree = (s.clear fs).card
  ndir : s.cgp.cs.ndir = (s.dirs fs).card
  cs : s.cs = s.cgp.cs
  niblk : s.cgp.niblk = fs.ipg
  irotor : s.cgp.irotor = 0
  first : ∀ i < fs.ipg, bit s.cgp.inosused i = true → i < fs.inopb
  inited : 2 * fs.inopb ≤ s.cgp.initediblk

theorem Fresh.inv (hv : fs.Valid) (h : Fresh fs s) : Inv fs s := by
  have hpos := hv.inopb_pos
  have hinited := h.inited
  exact {
    nifree := h.nifree
    ndir := h.ndir
    cs := h.cs
    niblk := h.niblk
    irotor_lt := h.irotor ▸ hv.ipg_pos
    irotor_inited := by rw [h.irotor]; omega
    inited := fun i hi hbit => by
      have hlt := h.first i hi hbit
      exact ⟨by omega, .inl (by omega)⟩ }

theorem step_inv (hv : fs.Valid) (hcg : cg < fs.ncg) (h : Inv fs s) (hcall : Called fs cg s op)
    (hstep : step fs cg s op = some (t, r)) : Inv fs t := by
  cases op with
  | nodealloccg ipref isdir io =>
    obtain ⟨t', ino, heq, hinv, -⟩ := alloc_spec isdir io hv h hcall
    have heq := heq.symm.trans hstep
    obtain ⟨rfl, -⟩ := Prod.mk.inj (Option.some.inj heq)
    exact hinv
  | freefile ino io =>
    obtain ⟨t', heq, hinv⟩ := free_spec io hcg h hcall
    have heq := heq.symm.trans hstep
    obtain ⟨rfl, -⟩ := Prod.mk.inj (Option.some.inj heq)
    exact hinv

/-- The summaries are right, a call does not panic, and an allocation takes a free inode that is
    initialised. -/
structure Sound (fs : Fs) (cg : ℕ) (s : State) : Prop where
  nifree : s.cgp.cs.nifree =
    ((Finset.range fs.ipg).filter fun i => bit s.cgp.inosused i = false).card
  ndir : s.cgp.cs.ndir = ((Finset.range fs.ipg).filter fun i =>
    bit s.cgp.inosused i = true ∧ s.dir i = true).card
  cs : s.cs = s.cgp.cs
  irotor : s.cgp.irotor < fs.ipg
  inited : ∀ i < fs.ipg, bit s.cgp.inosused i = true → i < s.cgp.initediblk
  alloc : ∀ ipref isdir io, Preferred fs cg s ipref → ∃ t ino,
    step fs cg s (.nodealloccg ipref isdir io) = some (t, ino) ∧
      (t = s ∧ ino = 0 ∨ ∃ i, Allocated fs cg s t ino i)
  free : ∀ ino io, InUse fs cg s ino → ∃ t, step fs cg s (.freefile ino io) = some (t, 0)

/-- The inodes of a group in every run of allocations and deallocations. -/
theorem inodes_of_run {s₀ : State} (hv : fs.Valid) (hcg : cg < fs.ncg) (h₀ : Fresh fs s₀)
    (hrun : Runs (step fs cg) (Called fs cg) s₀ s) : Sound fs cg s := by
  have h : Inv fs s := hrun.invariant (h₀.inv hv) fun _ _ _ _ h hcall hstep =>
    step_inv hv hcg h hcall hstep
  exact {
    nifree := h.nifree
    ndir := h.ndir
    cs := h.cs
    irotor := h.irotor_lt
    inited := fun i hi hbit => (h.inited i hi hbit).1
    alloc := fun ipref isdir io hpref => by
      obtain ⟨t, ino, hstep, -, hor⟩ := alloc_spec isdir io hv h hpref
      exact ⟨t, ino, hstep, hor⟩
    free := fun ino io hino => by
      obtain ⟨t, hstep, -⟩ := free_spec io hcg h hino
      exact ⟨t, hstep⟩ }

/-- A group of 64 inodes, 8 to a block, of which the first three are in use. -/
def smallFs : Fs where
  ipg := 64
  ncg := 2
  inopb := 8
  ufs2 := true
  ronly := false

def smallGroup : State where
  cgp :=
    { inosused := fun i => if i = 0 then 0b111#8 else 0#8
      irotor := 0
      cs := ⟨61, 1⟩
      initediblk := 16
      niblk := 64 }
  cs := ⟨61, 1⟩
  cstotal := ⟨125, 1⟩
  dir := fun i => decide (i = 2)

theorem inodes_of_run_alloc :
    ∃ s, Runs (step smallFs 0) (Called smallFs 0) smallGroup s ∧ s.cgp.irotor = 3 ∧
      Sound smallFs 0 s := by
  have hv : smallFs.Valid := ⟨by decide, by decide, by decide, by decide, rfl⟩
  have hfresh : Fresh smallFs smallGroup :=
    { nifree := by decide +kernel
      ndir := by decide +kernel
      cs := rfl
      niblk := rfl
      irotor := rfl
      first := by decide +kernel
      inited := by decide }
  have hcall : Called smallFs 0 smallGroup (.nodealloccg 2 false true) :=
    Or.inr (Or.inr ⟨2, by decide, rfl, by decide⟩)
  obtain ⟨⟨s, ino⟩, hstep, hrotor⟩ : ∃ r, step smallFs 0 smallGroup (.nodealloccg 2 false true) =
      some r ∧ r.1.cgp.irotor = 3 := by
    refine ⟨_, rfl, ?_⟩
    decide +kernel
  have hrun := Runs.refl.tail hcall hstep
  exact ⟨s, hrun, hrotor, inodes_of_run hv (by decide) hfresh hrun⟩

end FreeBSD.NodeAlloc
