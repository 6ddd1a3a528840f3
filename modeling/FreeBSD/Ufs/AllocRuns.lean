import FreeBSD.Ufs.AllocCluster

/-!
# The summaries of a group in every run

Callers allocate with a preferred address, extend fragments that are allocated, and free fragments
of one block that are allocated. The address of a block that is allocated is computed in `int`s; the
fragments that are put back after a block is hacked up, and the blocks of a cluster, are found again
from it.

Results:
* `summaries_of_run`: if these addresses fit, the summaries agree with the map in every run, and no
  call panics.
* `hackup_outside`: if they do not, fragments are counted as free that the map does not have.
-/

namespace FreeBSD.Ffs

open Lib Lib.Bitmap Lib.BitRuns

variable {fs : Fs} {g g' : Grp} {op : Op} {cg : ℕ} {bno : ℤ}

/-! ## Runs -/

/-- What callers do. An address names a fragment of the group. -/
def Called (fs : Fs) (cg : ℕ) (g : Grp) : Op → Prop
  | .alloccg bpref size _ => 0 ≤ bpref ∧ 0 < size ∧ size ≤ fs.frag
  | .clusteralloc bpref len _ => 0 ≤ bpref ∧ 0 < len
  | .fragextend bprev osize nsize _ => 0 ≤ bprev ∧ dtog fs bprev = cg ∧ osize < nsize ∧
      nsize ≤ fs.frag ∧ ∃ b, Frees fs g (bprev.toNat % fs.fpg) osize b
  | .blkfree bno size _ => 0 ≤ bno ∧ dtog fs bno = cg ∧
      ∃ b, Frees fs g (bno.toNat % fs.fpg) size b

/-- Where a block is hacked up, or a cluster is allocated, the addresses of the free blocks fit; and
    a cluster does not begin with the address 0. -/
def Safe (fs : Fs) (cg : ℕ) (g : Grp) : Op → Prop
  | .alloccg _ size _ => size < fs.frag →
      (∀ a, size ≤ a → a < fs.frag → g.frsum a = 0) → Near fs cg g
  | .clusteralloc _ _ _ => Near fs cg g ∧
      (cg = 0 → ¬Whole fs.frag (blk fs.frag g.blksfree 0))
  | .fragextend _ _ _ _ => True
  | .blkfree _ _ _ => True

/-- A call keeps the summaries, and does not panic. -/
theorem call_spec (h : Consistent fs cg g) (hcall : Called fs cg g op) (hsafe : Safe fs cg g op) :
    ∃ bno g', call fs cg g op = .ok (bno, g') ∧ Consistent fs cg g' := by
  cases op with
  | alloccg bpref size io =>
    obtain ⟨hpref, hs, hsf⟩ := hcall
    rcases alloccg_spec io h hpref hs hsf hsafe with ⟨p, g', heq, htook, -⟩ | ⟨heq, -⟩
    · exact ⟨_, g', heq, htook.consistent⟩
    · exact ⟨0, g, heq, h⟩
  | clusteralloc bpref len io =>
    obtain ⟨hpref, hlen⟩ := hcall
    rcases clusteralloc_spec io h hpref hlen hsafe.1 hsafe.2 with
      ⟨b, g', heq, htook⟩ | ⟨mx, heq, hcons⟩
    · exact ⟨_, g', heq, htook.consistent⟩
    · exact ⟨0, _, heq, hcons⟩
  | fragextend bprev osize nsize io =>
    obtain ⟨hprev, -, hon, hnf, b, hold⟩ := hcall
    have hpos := hold.pos
    have hlast := hold.alloc (bprev.toNat % fs.fpg + osize - 1) (by omega) (by omega)
    rcases fragextend_spec io h hprev hpos hon hnf hlast with ⟨g', heq, htook, -⟩ | heq
    · exact ⟨_, g', heq, htook.consistent⟩
    · exact ⟨0, g, heq, h⟩
  | blkfree bno size io =>
    obtain ⟨hbno, -, b, hf⟩ := hcall
    obtain ⟨g', heq, hfreed⟩ := blkfree_spec io h hbno hf
    have hcons : Consistent fs cg g' := by
      split at hfreed
      · rwa [hfreed]
      · exact hfreed.consistent
    exact ⟨0, g', by rw [call, heq]; rfl, hcons⟩

/-- The summaries agree with the map, and no call panics. -/
structure Sound (fs : Fs) (cg : ℕ) (P : Grp → Op → Prop) (g : Grp) : Prop where
  consistent : Consistent fs cg g
  call : ∀ op, Called fs cg g op → P g op → ∃ bno g', call fs cg g op = .ok (bno, g')

/-- The summaries agree with the map in every run. -/
theorem summaries_of_run {g₀ : Grp} (h₀ : Consistent fs cg g₀)
    (hrun : Runs (step fs cg) (fun g op => Called fs cg g op ∧ Safe fs cg g op) g₀ g) :
    Sound fs cg (Safe fs cg) g := by
  have h : Consistent fs cg g := hrun.invariant h₀ fun g op g' r h hP hstep => by
    obtain ⟨bno, g'', heq, hcons⟩ := call_spec h hP.1 hP.2
    rw [step, heq] at hstep
    obtain ⟨rfl, -⟩ := Prod.mk.inj (Option.some.inj hstep)
    exact hcons
  exact {
    consistent := h
    call := fun op hcall hsafe => by
      obtain ⟨bno, g', heq, -⟩ := call_spec h hcall hsafe
      exact ⟨bno, g', heq⟩ }

/-! ## Groups that are wholly allocated -/

/-- A group of `ndblk` fragments, none of them free. -/
def fullGrp (fs : Fs) (cg ndblk : ℕ) : Grp where
  cgx := cg
  ndblk := ndblk
  nclusterblks := ndblk / fs.frag
  cs := ⟨0, 0⟩
  frsum := fun _ => 0
  rotor := 0
  frotor := 0
  blksfree := fun _ => 0#8
  clustersum := fun _ => 0
  clustersfree := fun _ => 0#8
  fsCs := ⟨0, 0⟩
  maxcluster := 0
  cstotal := ⟨0, 0⟩

theorem bit_zero (x : ℕ) : bit (fun _ => 0#8) x = false := BitVec.getLsbD_zero

theorem fullGrp_consistent (fs : Fs) (cg : ℕ) {ndblk : ℕ} (hn : ndblk ≤ fs.fpg) :
    Consistent fs cg (fullGrp fs cg ndblk) := by
  have hterms : ∀ b, _ := fun b => terms_clear (f := blk fs.frag (fun _ => 0#8) b) fs.frag_pos
    fun i hi => by rw [blk_apply hi, bit_zero]
  have htotal : ∀ F : (ℕ → Bool) → ℤ, (∀ b, F (blk fs.frag (fun _ => 0#8) b) = 0) →
      (0 : ℤ) = total fs (fun _ => 0#8) F := fun F hF => by
    rw [total, Finset.sum_eq_zero fun b _ => hF b]
  have hnw : ∀ b, ¬Whole fs.frag (blk fs.frag (fun _ => 0#8) b) := fun b hw => by
    have hset := whole_free fs hw (b * fs.frag) (Nat.mul_div_cancel b fs.frag_pos)
    rw [bit_zero] at hset
    cases hset
  exact {
    cgx := rfl
    ndblk := hn
    nclusterblks := rfl
    frotor := fs.fpg_pos
    clear := fun x _ => bit_zero x
    nbfree := htotal _ fun b => (hterms b).1
    nffree := htotal _ fun b => (hterms b).2.1
    frsum := fun k _ hkf => htotal _ fun b => (hterms b).2.2 k hkf
    fsCs := rfl
    clusters := fun _ => {
      bits := fun b _ => by
        rw [fullGrp, bit_zero, decide_eq_false (hnw b)]
      sum := fun k hk _ => by
        have hempty : tally (min · fs.contigsumsize) (bit fun _ => 0#8) (ndblk / fs.frag) k =
          0 := by
          rw [tally, Finset.card_eq_zero, Finset.filter_eq_empty_iff]
          rintro ⟨p, a⟩ hmem
          have hrun := mem_runs.1 hmem
          have hpos := hrun.pos
          have hset := hrun.set p le_rfl (by omega)
          rw [bit_zero] at hset
          cases hset
        simp only [fullGrp]
        rw [hempty, Nat.cast_zero]
      max := fun k _ _ hp => absurd hp (lt_irrefl 0) } }

/-- A group in which one fragment is free. -/
theorem exists_single (fs : Fs) (cg : ℕ) {x ndblk : ℕ} (hn : ndblk ≤ fs.fpg) (hx : x < ndblk)
    (hsize : x < fs.size) : ∃ g, Consistent fs cg g ∧ g.ndblk = ndblk ∧
      ∀ y, bit g.blksfree y = decide (y = x) := by
  have hmod : (x : ℤ).toNat % fs.fpg = x := by
    rw [Int.toNat_natCast, Nat.mod_eq_of_lt (by omega)]
  have hin := (in_block fs.frag_pos (x / fs.frag) x).1 rfl
  have hf : Frees fs (fullGrp fs cg ndblk) ((x : ℤ).toNat % fs.fpg) 1 (x / fs.frag) := by
    rw [hmod]; exact ⟨one_pos, hin.1, hin.2, hx, fun y _ _ => bit_zero y⟩
  obtain ⟨g, -, hfreed⟩ := blkfree_spec true (fullGrp_consistent fs cg hn)
    (Int.natCast_nonneg x) hf
  have hgo : ¬((x : ℤ) % 2 ^ 32 ≥ fs.size ∨ ¬true = true) := by
    rintro (hge | hfalse)
    · omega
    · exact hfalse rfl
  rw [if_neg hgo, hmod] at hfreed
  refine ⟨g, hfreed.consistent, hfreed.ndblk, fun y => ?_⟩
  rw [hfreed.bits, fullGrp, bit_zero, Bool.or_false]; exact decide_eq_decide.2 (by omega)

/-! ## A group beyond the addresses of an `int` -/

/-- Groups of eight blocks of eight fragments. -/
def smallFs (ncg : ℕ) : Fs where
  frag := 8
  fpg := 64
  ncg := ncg
  size := ncg * 64
  contigsumsize := 4
  ipg := 64
  maxbpg := 8
  nindir := 2048
  frag_mem := by decide
  frag_dvd := by decide
  fpg_pos := by decide
  ipg_pos := by decide

theorem summaries_of_run_alloc : ∃ g, Runs (step (smallFs 1) 0)
      (fun g op => Called (smallFs 1) 0 g op ∧ Safe (smallFs 1) 0 g op)
      (fullGrp (smallFs 1) 0 64) g ∧ bit g.blksfree 8 = true ∧
    Sound (smallFs 1) 0 (Safe (smallFs 1) 0) g := by
  have hcall : Called (smallFs 1) 0 (fullGrp (smallFs 1) 0 64) (.blkfree 8 8 true) :=
    ⟨by decide, by decide, 1, ⟨by decide, by decide, by decide, by decide,
      fun y _ _ => bit_zero y⟩⟩
  obtain ⟨⟨g, bno⟩, hstep, hbit⟩ : ∃ r, step (smallFs 1) 0 (fullGrp (smallFs 1) 0 64)
      (.blkfree 8 8 true) = some r ∧ bit r.1.blksfree 8 = true := by
    refine ⟨_, rfl, ?_⟩
    decide +kernel
  have hrun := Runs.refl.tail
    (P := fun g op => Called (smallFs 1) 0 g op ∧ Safe (smallFs 1) 0 g op) ⟨hcall, trivial⟩ hstep
  exact ⟨g, hrun, hbit, summaries_of_run (fullGrp_consistent _ 0 (by decide)) hrun⟩

/-- How a call panics. -/
def panicOf (r : Except Panic (ℤ × Grp)) : Option Panic :=
  match r with
  | .ok _ => none
  | .error p => some p

/-- The group `2 ^ 25` begins with the fragment `2 ^ 31`. A block of it is freed, and one of its
    fragments is allocated: the others are not put back into the map. -/
theorem hackup_outside : ∃ g, Runs (step (smallFs (2 ^ 25 + 1)) (2 ^ 25))
      (Called (smallFs (2 ^ 25 + 1)) (2 ^ 25)) (fullGrp (smallFs (2 ^ 25 + 1)) (2 ^ 25) 64) g ∧
    Consistent (smallFs (2 ^ 25 + 1)) (2 ^ 25) (fullGrp (smallFs (2 ^ 25 + 1)) (2 ^ 25) 64) ∧
    Called (smallFs (2 ^ 25 + 1)) (2 ^ 25) g (.alloccg 0 1 true) ∧
    call (smallFs (2 ^ 25 + 1)) (2 ^ 25) g (.alloccg 0 1 true) = .error .outsideMap ∧
    ¬Sound (smallFs (2 ^ 25 + 1)) (2 ^ 25) (fun _ _ => True) g := by
  have hcall : Called (smallFs (2 ^ 25 + 1)) (2 ^ 25)
      (fullGrp (smallFs (2 ^ 25 + 1)) (2 ^ 25) 64) (.blkfree (2 ^ 31 + 8) 8 true) :=
    ⟨by decide, by decide +kernel, 1, ⟨by decide, by decide, by decide, by decide,
      fun y _ _ => bit_zero y⟩⟩
  obtain ⟨⟨g, bno⟩, hstep, hpanic⟩ : ∃ r, step (smallFs (2 ^ 25 + 1)) (2 ^ 25)
      (fullGrp (smallFs (2 ^ 25 + 1)) (2 ^ 25) 64) (.blkfree (2 ^ 31 + 8) 8 true) = some r ∧
      panicOf (call (smallFs (2 ^ 25 + 1)) (2 ^ 25) r.1 (.alloccg 0 1 true)) =
        some .outsideMap := by
    refine ⟨_, rfl, ?_⟩
    decide +kernel
  have hrun := Runs.refl.tail hcall hstep
  have herr : call (smallFs (2 ^ 25 + 1)) (2 ^ 25) g (.alloccg 0 1 true) = .error .outsideMap := by
    dsimp only at hpanic
    cases hr : call (smallFs (2 ^ 25 + 1)) (2 ^ 25) g (.alloccg 0 1 true) with
    | ok r =>
      rw [hr] at hpanic
      cases hpanic
    | error p =>
      rw [hr] at hpanic
      cases hpanic
      rfl
  have hcalled : Called (smallFs (2 ^ 25 + 1)) (2 ^ 25) g (.alloccg 0 1 true) :=
    ⟨by decide, by decide, by decide⟩
  refine ⟨g, hrun, fullGrp_consistent _ _ (by decide), hcalled, herr, fun hsound => ?_⟩
  obtain ⟨bno', g', hok⟩ := hsound.call _ hcalled trivial
  rw [herr] at hok
  cases hok

end FreeBSD.Ffs
