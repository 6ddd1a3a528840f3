import FreeBSD.Ufs.HashAlloc

/-!
# Addresses of UFS2, `ufs/ffs/ffs_alloc.c`

`ffs_blkpref_ufs2` prefers the second block of a group, or the block behind the previous one. The
allocators return the address of what they have allocated. All of these multiply the group with
`fs_fpg` in `int`s.

Results:
* `addrs_iff`: the addresses are right if and only if the file system has at most `2 ^ 31`
  fragments and each group has more than one block.
-/

namespace FreeBSD.Ffs

open Lib Lib.Bitmap Lib.BitRuns

/-! ## Model -/

/-- What `ffs_blkpref_ufs2` prefers. -/
inductive Pref
  | none
  | group (cg : ℕ)
  | next (bno : ℤ)
  deriving DecidableEq

/-- The address that is returned. -/
def Pref.addr (fs : Fs) : Pref → ℤ
  | .none => 0
  | .group cg => i32 (i32 (fs.fpg * cg) + fs.frag)
  | .next bno => bno + fs.frag

/-- The first of `n` groups from `cg` on that has at least `avgbfree` free blocks. -/
def firstGroup (cs : ℕ → Csum) (avgbfree : ℤ) : ℕ → ℕ → Option ℕ
  | 0, _ => none
  | n + 1, cg => if (cs cg).nbfree ≥ avgbfree then some cg else firstGroup cs avgbfree n (cg + 1)

/-- "Find a cylinder with greater than average number of unused data blocks." (lines 1097-1119). -/
def prefGroup (fs : Fs) (s : Sys) (startcg : ℕ) : Pref :=
  let avgbfree := i32 (s.cstotal.nbfree.tdiv fs.ncg)
  match firstGroup s.cs avgbfree (fs.ncg - startcg) startcg with
  | some cg => .group cg
  | none =>
    match firstGroup s.cs avgbfree (startcg + 1) 0 with
    | some cg => .group cg
    | none => .none

/-- `ffs_blkpref_ufs2` (lines 1080-1124), for the block `lbn` of the inode `ino`; `NDADDR` is 12.
    `fs_cgrotor`, which it sets, is not read by the allocation of blocks. -/
def ffsBlkprefUfs2 (fs : Fs) (s : Sys) (ino lbn indx : ℕ) (bap : ℕ → ℤ) : Except Panic Pref :=
  if indx % fs.maxbpg = 0 ∨ bap (indx - 1) = 0 then
    if lbn < 12 + fs.nindir then .ok (.group (ino / fs.ipg))
    else do
      let startcg := if indx = 0 ∨ bap (indx - 1) = 0 then i32
        ((ino / fs.ipg : ℕ) + lbn / fs.maxbpg)
        else i32 (dtog fs (bap (indx - 1)) + 1)
      let startcg ← mapIdx (startcg.tmod fs.ncg)
      return prefGroup fs s startcg
  else .ok (.next (bap (indx - 1)))

variable {fs : Fs} {s : Sys} {g g' g'' : Grp} {io : Bool} {bno : ℤ} {p n cg : ℕ}

/-! ## Addresses -/

/-- The address of `n` fragments that have been allocated: it names the group, it is one of the file
    system, and `ffs_blkfree` gives the fragments (the first block of a cluster) back. -/
structure Addressed (fs : Fs) (cg : ℕ) (g g' : Grp) (a : ℤ) (n : ℕ) : Prop where
  dtog : dtog fs a = cg
  nonneg : 0 ≤ a
  lt : a < fs.size
  free : ∃ p g'', Took fs cg g g' p n ∧ ffsBlkfree fs g' a (min n fs.frag) true = .ok g'' ∧
    Freed fs cg g' g'' p (min n fs.frag)

/-- The group has consistent summaries, and its free fragments lie in the file system. -/
structure InFs (fs : Fs) (cg : ℕ) (g : Grp) : Prop where
  consistent : Consistent fs cg g
  size : ∀ x, bit g.blksfree x = true → cg * fs.fpg + x < fs.size

/-- Every address that is computed for a group is right. -/
structure GoodAddrs (fs : Fs) : Prop where
  blkpref : ∀ s ino lbn indx bap cg, ino < fs.ncg * fs.ipg →
    ffsBlkprefUfs2 fs s ino lbn indx bap = .ok (.group cg) →
    dtog fs (Pref.addr fs (.group cg)) = cg ∧ 0 ≤ Pref.addr fs (.group cg) ∧
      Pref.addr fs (.group cg) < fs.size
  alloccg : ∀ cg < fs.ncg, ∀ g, InFs fs cg g → ∀ bpref n io a g', 0 ≤ bpref → 0 < n →
    n ≤ fs.frag → ffsAlloccg fs cg g bpref n io = .ok (a, g') →
    a = 0 ∧ g' = g ∨ Addressed fs cg g g' a n
  alloccgblk : ∀ cg < fs.ncg, ∀ g, InFs fs cg g → ∀ bpref a g', 0 ≤ bpref → g.cs.nbfree ≠ 0 →
    ffsAlloccgblk fs g bpref = .ok (a, g') → Addressed fs cg g g' a fs.frag
  clusteralloc : ∀ cg < fs.ncg, ∀ g, InFs fs cg g → ∀ bpref len io a g', 0 ≤ bpref → 0 < len →
    ffsClusteralloc fs cg g bpref len io = .ok (a, g') →
    a = 0 ∧ g'.blksfree = g.blksfree ∨ Addressed fs cg g g' a (len * fs.frag)

/-! ## Preferred groups -/

theorem firstGroup_lt {cs : ℕ → Csum} {avg : ℤ} (h : firstGroup cs avg n p = some cg) :
    cg < p + n := by
  induction n generalizing p with
  | zero => cases h
  | succ n ih =>
    rw [firstGroup] at h
    split at h
    · obtain rfl := Option.some.inj h
      omega
    · have hlt := ih h; omega

theorem prefGroup_lt (hp : p < fs.ncg) (h : prefGroup fs s p = .group cg) : cg < fs.ncg := by
  rw [prefGroup] at h
  split at h
  · next c hc =>
    cases h
    have hlt := firstGroup_lt hc; omega
  · split at h
    · next c hc =>
      cases h
      have hlt := firstGroup_lt hc; omega
    · cases h

/-- A preferred group is one of the file system. -/
theorem blkpref_lt {ino lbn indx : ℕ} {bap : ℕ → ℤ} (hino : ino < fs.ncg * fs.ipg)
    (h : ffsBlkprefUfs2 fs s ino lbn indx bap = .ok (.group cg)) : cg < fs.ncg := by
  have hncg : 0 < fs.ncg := Nat.pos_of_mul_pos_right (Nat.zero_lt_of_lt hino)
  rw [ffsBlkprefUfs2] at h
  split at h
  · split at h
    · cases h
      exact (Nat.div_lt_iff_lt_mul fs.ipg_pos).2 hino
    · dsimp only at h
      generalize (if indx = 0 ∨ bap (indx - 1) = 0 then i32 ((ino / fs.ipg : ℕ) + lbn / fs.maxbpg)
        else i32 (dtog fs (bap (indx - 1)) + 1)) = start at h
      rw [mapIdx] at h
      by_cases hpos : 0 ≤ start.tmod fs.ncg
      · rw [if_pos hpos, ok_bind] at h
        injection h with h
        refine prefGroup_lt ?_ h
        have hlt := Int.tmod_lt_of_pos start (Int.natCast_pos.2 hncg); omega
      · rw [if_neg hpos] at h
        cases h
  · cases h

/-! ## Sufficiency -/

/-- The fragments of an address are given back. -/
theorem addressed_of_took (h : InFs fs cg g) (hn : 0 < n)
    (hin : InBlock fs p (min n fs.frag)) (htook : Took fs cg g g' p n)
    (hsmall : cg * fs.fpg + p < 2 ^ 31) :
    Addressed fs cg g g' ((cg * fs.fpg + p : ℕ) : ℤ) n := by
  have hpos := fs.frag_pos
  have hlt : ∀ x, bit g.blksfree x = true → x < g.ndblk := fun x hset => by
    by_contra hge
    rw [h.consistent.clear x (not_lt.1 hge)] at hset
    cases hset
  have hfirst := htook.free p le_rfl (by omega)
  have hlast := hlt _ (htook.free (p + min n fs.frag - 1) (by omega) (by omega))
  have hsize := h.size p hfirst
  have hndblk := h.consistent.ndblk
  have hp : p < fs.fpg := by
    have hpn := hlt p hfirst; omega
  have hdiv := Nat.div_add_mod' p fs.frag
  rw [InBlock] at hin
  have hmod : ((cg * fs.fpg + p : ℕ) : ℤ).toNat % fs.fpg = p := by
    rw [Int.toNat_natCast, addr_mod fs cg hp]
  have hf : Frees fs g' (((cg * fs.fpg + p : ℕ) : ℤ).toNat % fs.fpg) (min n fs.frag)
      (p / fs.frag) := by
    rw [hmod]
    exact {
      pos := by omega
      start := by omega
      stop := by omega
      ndblk := by rw [htook.ndblk]; omega
      alloc := fun y hy hy' => by
        rw [htook.bits, decide_eq_true ⟨hy, by omega⟩, Bool.not_true, Bool.and_false] }
  obtain ⟨g'', heq, hfreed⟩ := blkfree_spec true htook.consistent (Int.natCast_nonneg _) hf
  have hgo : ¬(((cg * fs.fpg + p : ℕ) : ℤ) % 2 ^ 32 ≥ fs.size ∨ ¬true = true) := by
    rintro (hge | hfalse)
    · omega
    · exact hfalse rfl
  rw [if_neg hgo, hmod] at hfreed
  exact {
    dtog := dtog_addr hp
    nonneg := Int.natCast_nonneg _
    lt := by exact_mod_cast hsize
    free := ⟨p, g'', htook, heq, hfreed⟩ }

theorem InFs.near (h : InFs fs cg g) (hcg : cg < fs.ncg)
    (hsize : min fs.size (fs.ncg * fs.fpg) ≤ 2 ^ 31) :
    ∀ x, bit g.blksfree x = true → cg * fs.fpg + x < 2 ^ 31 := fun x hset => by
  have hlt := h.size x hset
  have hx : x < fs.fpg := by
    have hndblk := h.consistent.ndblk
    by_contra hge
    rw [h.consistent.clear x (by omega)] at hset
    cases hset
  have hmul := Nat.mul_le_mul_right fs.fpg (show cg + 1 ≤ fs.ncg from hcg)
  rw [add_mul] at hmul; omega

theorem prefAddr_eq (hsmall : cg * fs.fpg + fs.frag < 2 ^ 31) :
    Pref.addr fs (.group cg) = ((cg * fs.fpg + fs.frag : ℕ) : ℤ) := by
  have heq := cgAddr_eq hsmall
  rw [cgAddr] at heq
  rw [Pref.addr, mul_comm, heq]

theorem goodAddrs_of_small (hfrag : fs.frag < fs.fpg)
    (hlast : (fs.ncg - 1) * fs.fpg + fs.frag < fs.size)
    (hsize : min fs.size (fs.ncg * fs.fpg) ≤ 2 ^ 31) : GoodAddrs fs where
  blkpref s ino lbn indx bap cg hino heq := by
    have hcg := blkpref_lt hino heq
    have hle := Nat.mul_le_mul_right fs.fpg (show cg ≤ fs.ncg - 1 by omega)
    have hmul := Nat.mul_le_mul_right fs.fpg (show cg + 1 ≤ fs.ncg from hcg)
    rw [add_mul] at hmul
    rw [prefAddr_eq (by omega)]
    exact ⟨dtog_addr hfrag, Int.natCast_nonneg _, by omega⟩
  alloccg cg hcg g h bpref n io a g' hpref hn hnf heq := by
    have hnear := h.near hcg hsize
    have hblocks : Near fs cg g := fun b hw =>
      hnear _ (whole_free fs hw _ (Nat.mul_div_cancel b fs.frag_pos))
    rcases alloccg_spec io h.consistent hpref hn hnf fun _ _ => hblocks with
      ⟨p, g'', hcall, htook, hin⟩ | ⟨hcall, -⟩
    · have hp := hnear p (htook.free p le_rfl (by omega))
      rw [hcall, cgAddr_eq hp] at heq
      injection heq with heq
      obtain ⟨rfl, rfl⟩ := Prod.mk.inj heq
      rw [← min_eq_left hnf] at hin; exact .inr (addressed_of_took h hn hin htook hp)
    · rw [hcall] at heq
      injection heq with heq
      obtain ⟨rfl, rfl⟩ := Prod.mk.inj heq
      exact .inl ⟨rfl, rfl⟩
  alloccgblk cg hcg g h bpref a g' hpref hnb heq := by
    have hnear := h.near hcg hsize
    obtain ⟨b, g'', hcall, htook⟩ := alloccgblk_spec bpref h.consistent hpref hnb
    have hp := hnear _ (htook.free (b * fs.frag) le_rfl (by have hpos := fs.frag_pos; omega))
    rw [hcall, cgAddr_eq hp] at heq
    injection heq with heq
    obtain ⟨rfl, rfl⟩ := Prod.mk.inj heq
    exact addressed_of_took h fs.frag_pos (inBlock_block b (min_le_right _ _)) htook hp
  clusteralloc cg hcg g h bpref len io a g' hpref hlen heq := by
    have hnear := h.near hcg hsize
    have hblocks : Near fs cg g := fun b hw =>
      hnear _ (whole_free fs hw _ (Nat.mul_div_cancel b fs.frag_pos))
    rcases clusteralloc_cases io h.consistent hpref hlen hblocks with
      ⟨b, hw, hcall⟩ | ⟨mx, hcall, -⟩
    · rw [hcall] at heq
      cases hall : allocCluster fs len g ((cg * fs.fpg + b * fs.frag : ℕ) : ℤ) with
      | error e =>
        rw [hall] at heq
        cases heq
      | ok g'' =>
        rw [hall] at heq
        injection heq with heq
        obtain ⟨rfl, rfl⟩ := Prod.mk.inj heq
        have htook := allocCluster_took h.consistent hw hblocks hall
        exact .inr (addressed_of_took h (mul_pos hlen fs.frag_pos)
          (inBlock_block b (min_le_right _ _)) htook (hblocks b (hw b le_rfl (by omega))))
    · rw [hcall] at heq
      injection heq with heq
      obtain ⟨rfl, rfl⟩ := Prod.mk.inj heq
      exact .inl ⟨rfl, rfl⟩

/-! ## Necessity -/

theorem cgAddr_far {x : ℕ} (hx : cg * fs.fpg + x = 2 ^ 31) : cgAddr fs cg x = -2 ^ 31 := by
  have hcast : ((cg * fs.fpg : ℤ) + x) = 2 ^ 31 := by exact_mod_cast hx
  rw [cgAddr, i32, i32, Int.bmod_add_bmod, hcast]; decide +kernel

/-- The fragment `2 ^ 31` gets a negative address. -/
theorem size_of_goodAddrs (h : GoodAddrs fs) : min fs.size (fs.ncg * fs.fpg) ≤ 2 ^ 31 := by
  by_contra hgt
  have hpos := fs.frag_pos
  have hdiv := Nat.div_add_mod' (2 ^ 31) fs.fpg
  have hmod := Nat.mod_lt (2 ^ 31) fs.fpg_pos
  have hcg : 2 ^ 31 / fs.fpg < fs.ncg := by rw [Nat.div_lt_iff_lt_mul fs.fpg_pos]; omega
  obtain ⟨g, hg, -, hbits⟩ := exists_single fs (2 ^ 31 / fs.fpg) le_rfl hmod (by omega)
  have hfs : InFs fs (2 ^ 31 / fs.fpg) g := ⟨hg, fun x hset => by
    rw [hbits, decide_eq_true_eq] at hset
    omega⟩
  have havail : Avail fs g 1 := ⟨2 ^ 31 % fs.fpg, Nat.mod_lt _ hpos, fun x hx hx' => by
    rw [hbits, decide_eq_true_eq]
    omega⟩
  have hnear : 1 < fs.frag → (∀ k, 1 ≤ k → k < fs.frag → g.frsum k = 0) →
      Near fs (2 ^ 31 / fs.fpg) g := fun hlt _ b hw => by
    have h0 := whole_free fs hw _ (div_frag (b := b) (i := 0) hpos)
    have h1 := whole_free fs hw _ (div_frag (b := b) hlt)
    rw [hbits, decide_eq_true_eq] at h0 h1; omega
  rcases alloccg_spec true hg le_rfl one_pos hpos hnear with
    ⟨p, g', heq, htook, -⟩ | ⟨-, hnone⟩
  · have hp := htook.free p le_rfl (by omega)
    rw [hbits, decide_eq_true_eq] at hp
    rw [hp, cgAddr_far hdiv] at heq
    rcases h.alloccg _ hcg g hfs 0 1 true _ g' le_rfl one_pos hpos heq with ⟨h0, -⟩ | haddr
    · exact absurd h0 (by decide)
    · exact absurd haddr.nonneg (by decide)
  · exact hnone rfl havail

/-- The addresses are right if and only if they fit, and each group has more than one block. -/
theorem addrs_iff (fs : Fs) (hncg : 0 < fs.ncg) (hgeom : (fs.ncg - 1) * fs.fpg < fs.size) :
    GoodAddrs fs ↔ fs.frag < fs.fpg ∧ (fs.ncg - 1) * fs.fpg + fs.frag < fs.size ∧
      min fs.size (fs.ncg * fs.fpg) ≤ 2 ^ 31 := by
  constructor
  · intro h
    have hsize := size_of_goodAddrs h
    have hle := frags_le fs.frag fs.frag_mem
    -- the first block of a file is preferred in the group of its inode
    have hgroup : ∀ cg < fs.ncg, dtog fs (Pref.addr fs (.group cg)) = cg ∧
        0 ≤ Pref.addr fs (.group cg) ∧ Pref.addr fs (.group cg) < fs.size := fun cg hcg => by
      refine h.blkpref (fullSys fs) (cg * fs.ipg) 0 0 (fun _ => 0) cg
        (Nat.mul_lt_mul_of_pos_right hcg fs.ipg_pos) ?_
      rw [ffsBlkprefUfs2, if_pos (Or.inr rfl), if_pos (by omega), Nat.mul_div_cancel cg fs.ipg_pos]
    have hfrag : fs.frag < fs.fpg := by
      have hdtog := (hgroup 0 hncg).1
      rw [prefAddr_eq (by omega), dtog, ← Int.ofNat_tdiv, Nat.zero_mul, Nat.zero_add] at hdtog
      have hzero : fs.frag / fs.fpg = 0 := by exact_mod_cast hdtog
      exact (Nat.div_eq_zero_iff_lt fs.fpg_pos).1 hzero
    have hmul : (fs.ncg - 1) * fs.fpg + fs.fpg = fs.ncg * fs.fpg := by
      calc (fs.ncg - 1) * fs.fpg + fs.fpg = (fs.ncg - 1 + 1) * fs.fpg := by ring
        _ = fs.ncg * fs.fpg := by rw [Nat.sub_add_cancel hncg]
    obtain ⟨-, hnonneg, hlt⟩ := hgroup (fs.ncg - 1) (by omega)
    refine ⟨hfrag, ?_, hsize⟩
    by_cases hsmall : (fs.ncg - 1) * fs.fpg + fs.frag < 2 ^ 31
    · rw [prefAddr_eq hsmall] at hlt
      exact_mod_cast hlt
    · -- the address would be negative
      have hcast : (fs.fpg : ℤ) * (fs.ncg - 1 : ℕ) + fs.frag =
          (((fs.ncg - 1) * fs.fpg + fs.frag : ℕ) : ℤ) := by
        push_cast; ring
      have hneg : Pref.addr fs (.group (fs.ncg - 1)) < 0 := by
        rw [Pref.addr, i32, i32, Int.bmod_add_bmod, hcast, Int.bmod_def]; omega
      omega
  · rintro ⟨hfrag, hlast, hsize⟩; exact goodAddrs_of_small hfrag hlast hsize

theorem addrs_iff_small : GoodAddrs (smallFs 2) :=
  (addrs_iff (smallFs 2) (by decide) (by decide)).2 ⟨by decide, by decide, by decide⟩

/-- In a file system of `2 ^ 25 + 1` groups of 64 fragments, the first fragment of the last group
    gets the address `- 2 ^ 31`. -/
theorem addr_negative : 0 < (smallFs (2 ^ 25 + 1)).ncg ∧
    ((smallFs (2 ^ 25 + 1)).ncg - 1) * (smallFs (2 ^ 25 + 1)).fpg < (smallFs (2 ^ 25 + 1)).size ∧
    ¬GoodAddrs (smallFs (2 ^ 25 + 1)) := by
  refine ⟨by decide, by decide, fun h => ?_⟩
  have hsize := size_of_goodAddrs h
  exact absurd hsize (by decide)

end FreeBSD.Ffs
