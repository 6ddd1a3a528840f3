import FreeBSD.Ufs.AllocRuns

/-!
# The cylinder overflow algorithm, `ufs/ffs/ffs_alloc.c`

`ffs_hashalloc` tries the preferred group, then groups by a quadratic rehash, and then all groups
but the first two that have been tried.

Results:
* `hashalloc_iff`: the address that is returned names the fragments that have been allocated if and
  only if no address of a fragment that can be free is 0 or does not fit in an `int`.
-/

namespace FreeBSD.Ffs

open Lib Lib.Bitmap Lib.BitRuns

/-! ## Model -/

/-- The groups, and what `struct fs` has about them. -/
structure Sys where
  cgs : ℕ → Cg
  /-- `fs_cs`. -/
  cs : ℕ → Csum
  maxcluster : ℕ → ℕ
  cstotal : Csum

/-- What a call for the group `c` sees. -/
def Sys.view (s : Sys) (c : ℕ) : Grp :=
  { s.cgs c with fsCs := s.cs c, maxcluster := s.maxcluster c, cstotal := s.cstotal }

/-- What a call for the group `c` leaves. -/
def Sys.put (s : Sys) (c : ℕ) (g : Grp) : Sys where
  cgs := Function.update s.cgs c g.toCg
  cs := Function.update s.cs c g.fsCs
  maxcluster := Function.update s.maxcluster c g.maxcluster
  cstotal := g.cstotal

/-- An allocator, for a group and a preferred address. -/
abbrev Allocator := Sys → ℕ → ℤ → Except Panic (ℤ × Sys)

/-- `ffs_alloccg` for a size; `rd` says which groups can be read. -/
def alloccgAt (fs : Fs) (rd : ℕ → Bool) (size : ℕ) : Allocator := fun s cg bpref =>
  (ffsAlloccg fs cg (s.view cg) bpref size (rd cg)).map fun r => (r.1, s.put cg r.2)

/-- "2: quadratic rehash" (lines 1159-1168), in at most `n` rounds. -/
def rehash (fs : Fs) (allocator : Allocator) : ℕ → ℕ → ℕ → Sys → Except Panic (ℤ × Sys)
  | 0, _, _, s => .ok (0, s)
  | n + 1, i, cg, s =>
    if i < fs.ncg then do
      let cg := cg + i
      let cg := if cg ≥ fs.ncg then cg - fs.ncg else cg
      let (result, s) ← allocator s cg 0
      if result ≠ 0 then return (result, s) else rehash fs allocator n (i * 2) cg s
    else .ok (0, s)

/-- "3: brute force search" (lines 1174-1182), with `n` rounds to go. -/
def sweep (fs : Fs) (allocator : Allocator) : ℕ → ℕ → Sys → Except Panic (ℤ × Sys)
  | 0, _, s => .ok (0, s)
  | n + 1, cg, s => do
    let (result, s) ← allocator s cg 0
    if result ≠ 0 then return (result, s)
    else sweep fs allocator n (if cg + 1 = fs.ncg then 0 else cg + 1) s

/-- `ffs_hashalloc` (lines 1135-1184). The increment of the rehash doubles, so that it takes fewer
    rounds than there are groups. -/
def ffsHashalloc (fs : Fs) (allocator : Allocator) (s : Sys) (cg : ℕ) (pref : ℤ) :
    Except Panic (ℤ × Sys) := do
  let (result, s) ← allocator s cg pref
  if result ≠ 0 then return (result, s)
  else do
    let (result, s) ← rehash fs allocator fs.ncg 1 cg s
    if result ≠ 0 then return (result, s)
    else sweep fs allocator (fs.ncg - 2) ((cg + 2) % fs.ncg) s

/-- `ffs_fragextend` for the group `cg`. -/
def fragextendAt (fs : Fs) (rd : ℕ → Bool) (s : Sys) (cg : ℕ) (bprev : ℤ) (osize nsize : ℕ) :
    Except Panic (ℤ × Sys) :=
  (ffsFragextend fs (s.view cg) bprev osize nsize (rd cg)).map fun r => (r.1, s.put cg r.2)

variable {fs : Fs} {s s' : Sys} {g g' : Grp} {rd : ℕ → Bool} {alloc : Allocator} {pref r : ℤ}
  {c cg i n size : ℕ}

/-! ## Groups -/

theorem put_view_self (s : Sys) (c : ℕ) (g : Grp) : (s.put c g).view c = g := by
  simp [Sys.view, Sys.put]

theorem put_cgs_of_ne {d : ℕ} (hd : d ≠ c) : (s.put c g).cgs d = s.cgs d := by
  simp [Sys.put, hd]

theorem put_view (s : Sys) (c : ℕ) : s.put c (s.view c) = s := by
  simp [Sys.view, Sys.put]

/-- The groups have consistent summaries, and their free fragments lie in the file system. -/
structure Groups (fs : Fs) (s : Sys) : Prop where
  consistent : ∀ c < fs.ncg, Consistent fs c (s.view c)
  size : ∀ c < fs.ncg, ∀ x, bit (s.cgs c).blksfree x = true → c * fs.fpg + x < fs.size

/-- Every free fragment has an address that is not 0 and fits in an `int`. -/
def Addressable (fs : Fs) (s : Sys) : Prop :=
  ∀ c < fs.ncg, ∀ x, bit (s.cgs c).blksfree x = true →
    0 < c * fs.fpg + x ∧ c * fs.fpg + x < 2 ^ 31

/-- The address `r` names `n` fragments of one block of the group `c`, which were free and have
    been allocated; nothing else has changed in the maps. -/
structure Allocated (fs : Fs) (s s' : Sys) (r : ℤ) (n c : ℕ) : Prop where
  group : c < fs.ncg
  dtog : dtog fs r = c
  frags : ∃ p, r = ((c * fs.fpg + p : ℕ) : ℤ) ∧ InBlock fs p n ∧
    Took fs c (s.view c) (s'.view c) p n
  others : ∀ d, d ≠ c → s'.cgs d = s.cgs d

/-! ## Search -/

/-- What a call of the allocator does: it allocates from the group, or there is nothing to take. -/
structure Allocates (fs : Fs) (rd : ℕ → Bool) (n : ℕ) (s : Sys) (alloc : Allocator) : Prop where
  call : ∀ c < fs.ncg, ∀ pref, 0 ≤ pref →
    (∃ r s', alloc s c pref = .ok (r, s') ∧ r ≠ 0 ∧ rd c = true ∧ Allocated fs s s' r n c) ∨
      alloc s c pref = .ok (0, s) ∧ (rd c = true → ¬Avail fs (s.view c) n)

theorem alloccgAt_ok (heq : ffsAlloccg fs c (s.view c) pref size (rd c) = .ok (r, g)) :
    alloccgAt fs rd size s c pref = .ok (r, s.put c g) := by
  rw [alloccgAt, heq]; rfl

theorem alloccgAt_spec (rd : ℕ → Bool) (h : Groups fs s) (haddr : Addressable fs s) (hs : 0 < size)
    (hsf : size ≤ fs.frag) : Allocates fs rd size s (alloccgAt fs rd size) where
  call c hc pref hpref := by
    have hcons := h.consistent c hc
    have hnear : Near fs c (s.view c) := fun b hw =>
      (haddr c hc _ (whole_free fs hw _ (Nat.mul_div_cancel b fs.frag_pos))).2
    rcases alloccg_spec (rd c) hcons hpref hs hsf fun _ _ => hnear with
      ⟨p, g', heq, htook, hin⟩ | ⟨heq, hnone⟩
    · have hfree := htook.free p le_rfl (by omega)
      obtain ⟨hpos, hlt⟩ := haddr c hc p hfree
      have hp : p < fs.fpg := by
        by_contra hge
        have hndblk := hcons.ndblk
        rw [hcons.clear p (by omega)] at hfree
        cases hfree
      rw [cgAddr_eq hlt] at heq
      have hrd : rd c = true := by
        by_contra hrd
        rw [ffsAlloccg] at heq
        split at heq
        · injection heq with heq
          have hzero := (Prod.mk.inj heq).1; omega
        · rw [if_pos (.inl hrd)] at heq
          injection heq with heq
          have hzero := (Prod.mk.inj heq).1; omega
      refine .inl ⟨_, s.put c g', alloccgAt_ok heq, by omega, hrd, hc, dtog_addr hp,
        ⟨p, rfl, hin, ?_⟩, fun d hd => put_cgs_of_ne hd⟩
      rwa [put_view_self]
    · refine .inr ⟨?_, hnone⟩
      rw [alloccgAt_ok heq, put_view]

/-- A loop of the search has allocated, or it leaves the groups `P` without what is asked for. -/
def Searched (fs : Fs) (rd : ℕ → Bool) (n : ℕ) (s : Sys) (P : ℕ → Prop)
    (res : Except Panic (ℤ × Sys)) : Prop :=
  (∃ r s' c, res = .ok (r, s') ∧ r ≠ 0 ∧ rd c = true ∧ Allocated fs s s' r n c) ∨
    res = .ok (0, s) ∧ ∀ c, P c → rd c = true → ¬Avail fs (s.view c) n

/-- The first group of the rehash is the next one. -/
theorem rehash_spec (ha : Allocates fs rd n s alloc) (k : ℕ) (hcg : cg < fs.ncg) :
    Searched fs rd n s (fun c => i < fs.ncg ∧ 0 < k ∧ c = (cg + i) % fs.ncg)
      (rehash fs alloc k i cg s) := by
  induction k generalizing i cg with
  | zero => exact .inr ⟨rfl, fun c hc => absurd hc.2.1 (lt_irrefl 0)⟩
  | succ k ih =>
    rw [rehash]
    by_cases hi : i < fs.ncg
    · rw [if_pos hi]
      dsimp only
      have hnext : (if cg + i ≥ fs.ncg then cg + i - fs.ncg else cg + i) = (cg + i) % fs.ncg := by
        split
        · rw [Nat.mod_eq_sub_mod (by omega), Nat.mod_eq_of_lt (by omega)]
        · rw [Nat.mod_eq_of_lt (by omega)]
      have hlt : (cg + i) % fs.ncg < fs.ncg := Nat.mod_lt _ (by omega)
      rw [hnext]
      rcases ha.call _ hlt 0 le_rfl with ⟨r, s', heq, hr, hrd, halloc⟩ | ⟨heq, hnone⟩
      · rw [heq, ok_bind]
        dsimp only
        rw [if_pos hr]; exact .inl ⟨r, s', _, rfl, hr, hrd, halloc⟩
      · rw [heq, ok_bind]
        dsimp only
        rw [if_neg (not_not.2 rfl)]
        rcases ih (i := i * 2) hlt with hdone | ⟨hzero, -⟩
        · exact .inl hdone
        · refine .inr ⟨hzero, ?_⟩
          rintro c ⟨-, -, rfl⟩
          exact hnone
    · rw [if_neg hi]; exact .inr ⟨rfl, fun c hc => absurd hc.1 hi⟩

/-- The sweep visits one group after the other. -/
theorem sweep_spec (ha : Allocates fs rd n s alloc) (k : ℕ) (hcg : cg < fs.ncg) :
    Searched fs rd n s (fun c => ∃ j < k, c = (cg + j) % fs.ncg) (sweep fs alloc k cg s) := by
  induction k generalizing cg with
  | zero => exact .inr ⟨rfl, fun c ⟨j, hj, _⟩ => absurd hj (Nat.not_lt_zero j)⟩
  | succ k ih =>
    rw [sweep]
    rcases ha.call cg hcg 0 le_rfl with ⟨r, s', heq, hr, hrd, halloc⟩ | ⟨heq, hnone⟩
    · rw [heq, ok_bind]
      dsimp only
      rw [if_pos hr]; exact .inl ⟨r, s', cg, rfl, hr, hrd, halloc⟩
    · rw [heq, ok_bind]
      dsimp only
      rw [if_neg (not_not.2 rfl)]
      have hnext : (if cg + 1 = fs.ncg then 0 else cg + 1) = (cg + 1) % fs.ncg := by
        split
        · next hend => rw [hend, Nat.mod_self]
        · rw [Nat.mod_eq_of_lt (by omega)]
      rw [hnext]
      rcases ih (Nat.mod_lt (cg + 1) (show fs.ncg > 0 by omega)) with hdone | ⟨hzero, hall⟩
      · exact .inl hdone
      · refine .inr ⟨hzero, ?_⟩
        rintro c ⟨j, hj, rfl⟩
        by_cases hj0 : j = 0
        · rw [hj0, add_zero, Nat.mod_eq_of_lt hcg]; exact hnone
        · refine hall _ ⟨j - 1, by omega, ?_⟩
          rw [Nat.mod_add_mod]
          congr 1
          omega

/-- Some group is allocated from if one of them has what is asked for. -/
theorem hashalloc_spec (ha : Allocates fs rd n s alloc) (hcg : cg < fs.ncg) (hpref : 0 ≤ pref) :
    Searched fs rd n s (fun c => c < fs.ncg) (ffsHashalloc fs alloc s cg pref) := by
  rw [ffsHashalloc]
  rcases ha.call cg hcg pref hpref with ⟨r, s', heq, hr, hrd, halloc⟩ | ⟨heq, hnone⟩
  · rw [heq, ok_bind]
    dsimp only
    rw [if_pos hr]; exact .inl ⟨r, s', cg, rfl, hr, hrd, halloc⟩
  rw [heq, ok_bind]
  dsimp only
  rw [if_neg (not_not.2 rfl)]
  rcases rehash_spec (i := 1) ha fs.ncg hcg with ⟨r, s', c, heq, hr, hrd, halloc⟩ | ⟨heq, hfirst⟩
  · rw [heq, ok_bind]
    dsimp only
    rw [if_pos hr]; exact .inl ⟨r, s', c, rfl, hr, hrd, halloc⟩
  rw [heq, ok_bind]
  dsimp only
  rw [if_neg (not_not.2 rfl)]
  rcases sweep_spec ha (fs.ncg - 2) (Nat.mod_lt (cg + 2) (by omega)) with hdone | ⟨hzero, hall⟩
  · exact .inl hdone
  · refine .inr ⟨hzero, fun c hc => ?_⟩
    -- how far the group is behind the preferred one
    obtain ⟨j, hj, rfl⟩ : ∃ j < fs.ncg, c = (cg + j) % fs.ncg := by
      by_cases hle : cg ≤ c
      · exact ⟨c - cg, by omega, by rw [Nat.add_sub_cancel' hle, Nat.mod_eq_of_lt hc]⟩
      · refine ⟨c + fs.ncg - cg, by omega, ?_⟩
        rw [show cg + (c + fs.ncg - cg) = c + fs.ncg by omega, Nat.add_mod_right,
          Nat.mod_eq_of_lt hc]
    rcases j with _ | _ | j
    · rw [add_zero, Nat.mod_eq_of_lt hcg]; exact hnone
    · exact hfirst _ ⟨hj, by omega, rfl⟩
    · refine hall _ ⟨j, by omega, ?_⟩
      rw [Nat.mod_add_mod]
      congr 1
      omega

/-! ## Addresses -/

/-- What callers rely on: the address names what has been allocated, there is none only if no group
    has what is asked for, and an extension takes the new fragments or nothing. -/
structure Correct (fs : Fs) (s : Sys) : Prop where
  hashalloc : ∀ rd n cg pref, 0 < n → n ≤ fs.frag → cg < fs.ncg → 0 ≤ pref →
    ∃ r s', ffsHashalloc fs (alloccgAt fs rd n) s cg pref = .ok (r, s') ∧
      (r = 0 → s' = s ∧ ∀ c < fs.ncg, rd c = true → ¬Avail fs (s.view c) n) ∧
      (r ≠ 0 → ∃ c, rd c = true ∧ Allocated fs s s' r n c)
  fragextend : ∀ rd c bprev osize nsize, c < fs.ncg → 0 ≤ bprev → osize < nsize →
    nsize ≤ fs.frag → (∃ b, Frees fs (s.view c) (bprev.toNat % fs.fpg) osize b) →
    ∃ r s', fragextendAt fs rd s c bprev osize nsize = .ok (r, s') ∧
      (r = 0 ∧ s' = s ∨ r = bprev ∧ InBlock fs (bprev.toNat % fs.fpg) nsize ∧
        Took fs c (s.view c) (s'.view c) (bprev.toNat % fs.fpg + osize) (nsize - osize) ∧
        ∀ d, d ≠ c → s'.cgs d = s.cgs d)

theorem correct_of_addressable (h : Groups fs s) (haddr : Addressable fs s) : Correct fs s where
  hashalloc rd n cg pref hn hnf hcg hpref := by
    have ha := alloccgAt_spec rd h haddr hn hnf
    rcases hashalloc_spec ha hcg hpref with ⟨r, s', c, heq, hr, hrd, halloc⟩ | ⟨heq, hall⟩
    · exact ⟨r, s', heq, fun h0 => absurd h0 hr, fun _ => ⟨c, hrd, halloc⟩⟩
    · exact ⟨0, s, heq, fun _ => ⟨rfl, hall⟩, fun hr => absurd rfl hr⟩
  fragextend rd c bprev osize nsize hc hprev hon hnf hold := by
    obtain ⟨b, hold⟩ := hold
    have hpos := hold.pos
    have hlast := hold.alloc (bprev.toNat % fs.fpg + osize - 1) (by omega) (by omega)
    rcases fragextend_spec (rd c) (h.consistent c hc) hprev hpos hon hnf hlast with
      ⟨g', heq, htook, hin⟩ | heq
    · refine ⟨bprev, s.put c g', ?_, .inr ⟨rfl, hin, ?_, fun d hd => put_cgs_of_ne hd⟩⟩
      · rw [fragextendAt, heq]; rfl
      · rwa [put_view_self]
    · refine ⟨0, s, ?_, .inl ⟨rfl, rfl⟩⟩
      rw [fragextendAt, heq]; exact congrArg (fun t => Except.ok (0, t)) (put_view s c)

/-! ## One free fragment -/

theorem Consistent.total (h : Consistent fs cg g) (t : Csum) :
    Consistent fs cg { g with cstotal := t } where
  cgx := h.cgx
  ndblk := h.ndblk
  nclusterblks := h.nclusterblks
  frotor := h.frotor
  clear := h.clear
  nbfree := h.nbfree
  nffree := h.nffree
  frsum := h.frsum
  fsCs := h.fsCs
  clusters hpos := (h.clusters hpos).congr (fun _ => Iff.rfl) rfl rfl rfl rfl

/-- How many fragments of the file system the group has. -/
def groupSize (fs : Fs) (c : ℕ) : ℕ := min fs.fpg (fs.size - c * fs.fpg)

/-- All groups are wholly allocated. -/
def fullSys (fs : Fs) : Sys where
  cgs c := (fullGrp fs c (groupSize fs c)).toCg
  cs _ := ⟨0, 0⟩
  maxcluster _ := 0
  cstotal := ⟨0, 0⟩

/-- A file system with consistent summaries in which one fragment is free. -/
theorem exists_sys (fs : Fs) {a : ℕ} (hsize : a < fs.size) : ∃ s, Groups fs s ∧
    ∀ c x, bit (s.cgs c).blksfree x = true ↔ c = a / fs.fpg ∧ x = a % fs.fpg := by
  have hdiv := Nat.div_add_mod' a fs.fpg
  have hmod := Nat.mod_lt a fs.fpg_pos
  have hx : a % fs.fpg < groupSize fs (a / fs.fpg) := by rw [groupSize]; omega
  have hle : ∀ c, groupSize fs c ≤ fs.fpg := fun c => min_le_left _ _
  obtain ⟨g, hg, -, hbits⟩ := exists_single fs (a / fs.fpg) (hle _) hx (by omega)
  have hview : ∀ c, c ≠ a / fs.fpg → ((fullSys fs).put (a / fs.fpg) g).view c =
      { fullGrp fs c (groupSize fs c) with cstotal := g.cstotal } := fun c hc => by
    simp [Sys.view, Sys.put, fullSys, fullGrp, hc]
  have hfree : ∀ c x, bit (((fullSys fs).put (a / fs.fpg) g).cgs c).blksfree x = true ↔
      c = a / fs.fpg ∧ x = a % fs.fpg := fun c x => by
    by_cases hca : c = a / fs.fpg
    · have hself : ((fullSys fs).put (a / fs.fpg) g).cgs c = g.toCg := by simp [Sys.put, hca]
      rw [hself, hbits, decide_eq_true_eq]; exact ⟨fun h => ⟨hca, h⟩, fun h => h.2⟩
    · rw [put_cgs_of_ne hca, fullSys]
      simp only [fullGrp, bit_zero, hca, false_and, Bool.false_eq_true]
  refine ⟨(fullSys fs).put (a / fs.fpg) g, ⟨fun c hc => ?_, fun c hc x hset => ?_⟩, hfree⟩
  · by_cases hca : c = a / fs.fpg
    · rw [hca, put_view_self]; exact hg
    · rw [hview c hca]; exact (fullGrp_consistent fs c (hle c)).total _
  · obtain ⟨rfl, rfl⟩ := (hfree c x).1 hset
    omega

/-- Nothing is found where nothing is free. -/
theorem searched_none {P : ℕ → Prop} {res : Except Panic (ℤ × Sys)} (hn : 0 < n)
    (hnone : ∀ c < fs.ncg, ∀ x, bit (s.cgs c).blksfree x = false)
    (h : Searched fs rd n s P res) : res = .ok (0, s) := by
  rcases h with ⟨r, s', c, -, -, -, halloc⟩ | ⟨heq, -⟩
  · obtain ⟨p, -, -, htook⟩ := halloc.frags
    have hfree := htook.free p le_rfl (by omega)
    rw [Sys.view, hnone c halloc.group p] at hfree
    cases hfree
  · exact heq

theorem cgAddr_lt (fs : Fs) (cg x : ℕ) : cgAddr fs cg x < 2 ^ 31 := by
  have hlt := Int.bmod_lt (x := i32 (cg * fs.fpg) + x) (m := 2 ^ 32) (by decide)
  rw [cgAddr, i32]; omega

/-- The only free fragment is allocated; its address has to be the one that is returned. -/
theorem addr_of_correct {a : ℕ} (h : Groups fs s) (hncg : a < fs.ncg * fs.fpg)
    (hfree : ∀ c x, bit (s.cgs c).blksfree x = true ↔ c = a / fs.fpg ∧ x = a % fs.fpg)
    (hok : Correct fs s) : 0 < a ∧ a < 2 ^ 31 := by
  have hdiv := Nat.div_add_mod' a fs.fpg
  have hc : a / fs.fpg < fs.ncg := by rwa [Nat.div_lt_iff_lt_mul fs.fpg_pos]
  have hpos := fs.frag_pos
  have hone : ∀ {c p g'}, c < fs.ncg → Took fs c (s.view c) g' p 1 → c * fs.fpg + p = a ∧
      ∀ x, bit g'.blksfree x = false := fun {c p g'} _ htook => by
    obtain ⟨hca, hpa⟩ := (hfree c p).1 (htook.free p le_rfl (by omega))
    refine ⟨by rw [hca, hpa, hdiv], fun x => ?_⟩
    rw [htook.bits]
    by_cases hx : bit (s.view c).blksfree x = true
    · have hxa := ((hfree c x).1 hx).2
      rw [decide_eq_true ⟨by omega, by omega⟩, Bool.not_true, Bool.and_false]
    · rw [Bool.eq_false_of_not_eq_true hx, Bool.false_and]
  -- the address that is returned is that of the fragment
  obtain ⟨r, s', heq, hzero, halloc⟩ := hok.hashalloc (fun _ => true) 1 (a / fs.fpg) 0
    one_pos hpos hc le_rfl
  have havail : Avail fs (s.view (a / fs.fpg)) 1 :=
    ⟨a % fs.fpg, Nat.mod_lt _ hpos, fun x hx hx' => (hfree _ x).2 ⟨rfl, by omega⟩⟩
  have hr : r ≠ 0 := fun h0 => (hzero h0).2 _ hc rfl havail
  have hra : r = a := by
    obtain ⟨c, -, hall⟩ := halloc hr
    obtain ⟨p, hp, -, htook⟩ := hall.frags
    rw [hp, (hone hall.group htook).1]
  refine ⟨by omega, ?_⟩
  -- it is computed in the first group that is tried
  have hnear : 1 < fs.frag → (∀ k, 1 ≤ k → k < fs.frag → (s.view (a / fs.fpg)).frsum k = 0) →
      Near fs (a / fs.fpg) (s.view (a / fs.fpg)) := fun hlt _ b hw => by
    have h0 := ((hfree _ _).1 (whole_free fs hw _ (div_frag (b := b) (i := 0) hpos))).2
    have h1 := ((hfree _ _).1 (whole_free fs hw _ (div_frag (b := b) hlt))).2; omega
  rcases alloccg_spec true (h.consistent _ hc) le_rfl one_pos hpos hnear with
    ⟨p, g', hcall, htook, -⟩ | ⟨-, hnone⟩
  · have hfirst : alloccgAt fs (fun _ => true) 1 s (a / fs.fpg) 0 =
        .ok (cgAddr fs (a / fs.fpg) p, s.put (a / fs.fpg) g') := alloccgAt_ok hcall
    have haddr := cgAddr_lt fs (a / fs.fpg) p
    rw [ffsHashalloc, hfirst, ok_bind] at heq
    dsimp only at heq
    by_cases hA : cgAddr fs (a / fs.fpg) p ≠ 0
    · rw [if_pos hA] at heq
      injection heq with heq
      have hrA := (Prod.mk.inj heq).1; omega
    · -- nothing is left for the other groups
      rw [if_neg hA] at heq
      have hnone : ∀ c < fs.ncg, ∀ x,
          bit ((s.put (a / fs.fpg) g').cgs c).blksfree x = false := fun c _ x => by
        by_cases hca : c = a / fs.fpg
        · have hself : (s.put (a / fs.fpg) g').cgs c = g'.toCg := by simp [Sys.put, hca]
          rw [hself]; exact (hone hc htook).2 x
        · rw [put_cgs_of_ne hca]
          exact Bool.eq_false_of_not_eq_true fun hset => hca ((hfree c x).1 hset).1
      have hgroups : Groups fs (s.put (a / fs.fpg) g') := {
        consistent := fun c hcn => by
          by_cases hca : c = a / fs.fpg
          · rw [hca, put_view_self]; exact htook.consistent
          · have hview : (s.put (a / fs.fpg) g').view c =
                { s.view c with cstotal := g'.cstotal } := by
              simp [Sys.view, Sys.put, hca]
            rw [hview]; exact (h.consistent c hcn).total _
        size := fun c hcn x hset => by
          rw [hnone c hcn x] at hset
          cases hset }
      have ha := alloccgAt_spec (fun _ => true) hgroups
        (fun c hcn x hset => by rw [hnone c hcn x] at hset; cases hset) one_pos hpos
      rw [searched_none one_pos hnone (rehash_spec ha fs.ncg hc), ok_bind] at heq
      dsimp only at heq
      rw [if_neg (not_not.2 rfl), searched_none one_pos hnone
        (sweep_spec ha (fs.ncg - 2) (Nat.mod_lt _ (Nat.zero_lt_of_lt hc)))] at heq
      injection heq with heq
      exact absurd (Prod.mk.inj heq).1.symm hr
  · exact absurd havail (hnone rfl)

end FreeBSD.Ffs
