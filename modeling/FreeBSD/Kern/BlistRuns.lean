import FreeBSD.Lib.Runs
import FreeBSD.Kern.BlistResize

/-!
# Runs of calls on a blist

A blist with the set of blocks that its users do not hold. After
`blist_create` all blocks are held; the users free what they hold, and the
calls that return take them from one state to the next.

Results:
* `free_set_of_run`: the tree represents the set, and valid calls return.
* `hints_of_run`: hints are not too low where every `blist_free` raises what it has to.
* `blistFill_iff_fits`: when `blist_fill` returns.
* `blistResize_of_run`: what `blist_resize` copies.
-/

namespace FreeBSD.SubrBlist

open Finset
open Lib (Runs)

/-- A blist and the blocks of it that are not held. -/
structure Sys where
  bl : Blist
  F : Finset ℕ

inductive Op
  | alloc (count : ℕ)
  | free (blkno count : ℕ)
  | fill (blkno count : ℕ)
  | resize (count : ℕ) (freenew : Bool) (junk : ℕ → Blmeta)

/-- A call that returns, and what `blist_alloc` returns. -/
def step (s : Sys) : Op → Option (Sys × Option ℕ)
  | .alloc c =>
    match blistAlloc s.bl c with
    | .ok (bl, some x) => some ({ bl := bl, F := s.F \ Ico x (x + c) }, some x)
    | .ok (bl, none) => some ({ bl := bl, F := s.F }, none)
    | .error _ => none
  | .free x c =>
    match blistFree s.bl x c with
    | .ok bl => some ({ bl := bl, F := s.F ∪ Ico x (x + c) }, none)
    | .error _ => none
  | .fill x c =>
    match blistFill s.bl x c with
    | .ok (bl, _) => some ({ bl := bl, F := s.F \ Ico x (x + c) }, none)
    | .error _ => none
  | .resize n freenew junk =>
    match blistResize s.bl n freenew junk with
    | .ok bl => some ({ bl := bl, F := resized s.F s.bl.blBlocks n freenew }, none)
    | .error _ => none

/-- A range of blocks of the blist. -/
def InRange (s : Sys) (x c : ℕ) : Prop := 1 ≤ c ∧ x + c ≤ s.bl.blBlocks

instance (s : Sys) (x c : ℕ) : Decidable (InRange s x c) :=
  inferInstanceAs (Decidable (1 ≤ c ∧ x + c ≤ s.bl.blBlocks))

/-- What the callers promise: at most one leaf's worth of blocks is asked for, and only blocks that
    are held are freed. -/
def Valid (s : Sys) : Op → Prop
  | .alloc c => 1 ≤ c ∧ c ≤ 32
  | .free x c => InRange s x c ∧ Disjoint (Ico x (x + c)) s.F
  | .fill x c => InRange s x c
  | .resize n _ _ => 1 ≤ n ∧ n ≤ 2 ^ 29

/-- Valid calls of `blist_alloc` and `blist_free`. -/
def AllocFree (s : Sys) : Op → Prop
  | .alloc c => Valid s (.alloc c)
  | .free x c => Valid s (.free x c)
  | _ => False

/-- Valid calls of `blist_alloc`, and those of `blist_free` that leave no hint too low. -/
def AllocFreeKeeps (s : Sys) : Op → Prop
  | .alloc c => Valid s (.alloc c)
  | .free x c => Valid s (.free x c) ∧ KeepsHints s.bl s.F x c
  | _ => False

instance (s : Sys) (op : Op) : Decidable (Valid s op) :=
  match op with
  | .alloc c => inferInstanceAs (Decidable (1 ≤ c ∧ c ≤ 32))
  | .free x c =>
    inferInstanceAs (Decidable ((1 ≤ c ∧ x + c ≤ s.bl.blBlocks) ∧ Disjoint (Ico x (x + c)) s.F))
  | .fill x c => inferInstanceAs (Decidable (1 ≤ c ∧ x + c ≤ s.bl.blBlocks))
  | .resize n _ _ => inferInstanceAs (Decidable (1 ≤ n ∧ n ≤ 2 ^ 29))

instance (s : Sys) (op : Op) : Decidable (AllocFree s op) :=
  match op with
  | .alloc c => inferInstanceAs (Decidable (Valid s (.alloc c)))
  | .free x c => inferInstanceAs (Decidable (Valid s (.free x c)))
  | .fill _ _ => instDecidableFalse
  | .resize _ _ _ => instDecidableFalse

/-- The states that `blist_create` and valid calls lead to. -/
def Reached (s : Sys) : Prop :=
  ∃ n junk bl, 1 ≤ n ∧ n ≤ 2 ^ 29 ∧ blistCreate n junk = .ok bl ∧
    Runs step Valid { bl := bl, F := ∅ } s

variable {H : Prop} {s t : Sys} {op : Op} {r : Option ℕ} {n : ℕ} {junk : ℕ → Blmeta} {bl : Blist}

/-! ## Steps -/

theorem step_alloc {c : ℕ} (h : Represents H s.bl s.F) (hv : Valid s (.alloc c))
    (hs : step s (.alloc c) = some (t, r)) :
    Represents H t.bl t.F ∧ t.bl.blBlocks = s.bl.blBlocks := by
  obtain ⟨bl', r', hcall, hblocks, hfail, htake⟩ := blistAlloc_spec h hv.1 hv.2
  simp only [step] at hs
  rw [hcall] at hs
  cases r' with
  | none =>
    cases hs
    exact ⟨(hfail rfl).1, hblocks⟩
  | some x =>
    cases hs
    exact ⟨(htake x rfl).2, hblocks⟩

theorem step_free {x c : ℕ} (h : Represents H s.bl s.F) (hv : Valid s (.free x c))
    (hkeeps : H → KeepsHints s.bl s.F x c) (hs : step s (.free x c) = some (t, r)) :
    Represents H t.bl t.F ∧ t.bl.blBlocks = s.bl.blBlocks := by
  obtain ⟨⟨hc, hend⟩, hd⟩ := hv
  obtain ⟨bl', hcall, hblocks, hrep⟩ := blistFree_spec h hc hend hd hkeeps
  simp only [step] at hs
  rw [hcall] at hs
  cases hs
  exact ⟨hrep, hblocks⟩

/-- Valid calls of `blist_alloc` and `blist_free` change the tree and the set alike. -/
theorem step_allocFree (h : Represents False s.bl s.F) (hv : AllocFree s op)
    (hs : step s op = some (t, r)) :
    Represents False t.bl t.F ∧ t.bl.blBlocks = s.bl.blBlocks := by
  cases op with
  | alloc c => exact step_alloc h hv hs
  | free x c => exact step_free h hv False.elim hs
  | fill x c => exact hv.elim
  | resize n freenew junk => exact hv.elim

/-- With frees that leave no hint too low the hints stay so. -/
theorem step_hints (h : Represents True s.bl s.F) (hv : AllocFreeKeeps s op)
    (hs : step s op = some (t, r)) : Represents True t.bl t.F := by
  cases op with
  | alloc c => exact (step_alloc h hv hs).1
  | free x c => exact (step_free h hv.1 (fun _ => hv.2) hs).1
  | fill x c => exact hv.elim
  | resize n freenew junk => exact hv.elim

/-- All valid calls that return change the tree and the set alike. -/
theorem step_represents (h : Represents False s.bl s.F) (hv : Valid s op)
    (hs : step s op = some (t, r)) : Represents False t.bl t.F := by
  cases op with
  | alloc c => exact (step_alloc h hv hs).1
  | free x c => exact (step_free h hv False.elim hs).1
  | fill x c =>
    simp only [step] at hs
    rcases blistFill_spec h hv.1 hv.2 with ⟨-, bl', hcall, -, hrep⟩ | ⟨-, hcall⟩
    · rw [hcall] at hs
      cases hs
      exact hrep
    · rw [hcall] at hs
      cases hs
  | resize n freenew junk =>
    obtain ⟨bl', hcall, -, hrep⟩ := blistResize_spec h hv.1 freenew junk
    simp only [step] at hs
    rw [hcall] at hs
    cases hs
    exact hrep

theorem Reached.represents (h : Reached s) : Represents False s.bl s.F := by
  obtain ⟨n, junk, bl, hn, -, hcreate, hrun⟩ := h
  obtain ⟨bl', hcreate', -, hrep⟩ := blistCreate_spec False hn junk
  obtain rfl := Except.ok.inj (hcreate.symm.trans hcreate')
  exact hrun.invariant (I := fun s => Represents False s.bl s.F) hrep
    fun _ _ _ _ hI hv hs => step_represents hI hv hs

/-! ## The set of free blocks -/

/-- In every run of valid calls of `blist_alloc` and `blist_free` the tree represents one set of
    free blocks, and every valid call returns: there is no panic and no access outside `bl_root`. -/
theorem free_set_of_run (hn : 1 ≤ n) (junk : ℕ → Blmeta) :
    ∃ bl, blistCreate n junk = .ok bl ∧ ∀ s, Runs step AllocFree { bl := bl, F := ∅ } s →
      (s.bl.blBlocks = n ∧ Represents False s.bl s.F ∧ (∀ G, Represents False s.bl G → G = s.F) ∧
        s.F ⊆ range n ∧ s.bl.blFree = s.F.card) ∧
      (∀ c, 1 ≤ c → c ≤ 32 → ∃ bl' r, blistAlloc s.bl c = .ok (bl', r) ∧
        (r = none → Represents False bl' s.F) ∧
        ∀ x, r = some x → Ico x (x + c) ⊆ s.F ∧ Represents False bl' (s.F \ Ico x (x + c))) ∧
      ∀ x c, 1 ≤ c → x + c ≤ n → Disjoint (Ico x (x + c)) s.F →
        ∃ bl', blistFree s.bl x c = .ok bl' ∧ Represents False bl' (s.F ∪ Ico x (x + c)) := by
  obtain ⟨bl, hcreate, hblocks, hrep⟩ := blistCreate_spec False hn junk
  refine ⟨bl, hcreate, fun s hrun => ?_⟩
  obtain ⟨hs, hsn⟩ := hrun.invariant
    (I := fun s => Represents False s.bl s.F ∧ s.bl.blBlocks = n) ⟨hrep, hblocks⟩
    fun s op t r hI hop hstep => by
      obtain ⟨h1, h2⟩ := step_allocFree hI.1 hop hstep
      exact ⟨h1, h2.trans hI.2⟩
  have hsub := hs.subset
  rw [hsn] at hsub
  refine ⟨⟨hsn, hs, fun G hG => hs.unique hG, hsub, hs.free⟩, fun c hc1 hc2 => ?_,
    fun x c hc hend hd => ?_⟩
  · obtain ⟨bl', r, hcall, -, hfail, htake⟩ := blistAlloc_spec hs hc1 hc2
    exact ⟨bl', r, hcall, fun hr => (hfail hr).1,
      fun x hx => ⟨(htake x hx).1.subset, (htake x hx).2⟩⟩
  · obtain ⟨bl', hcall, -, hrep'⟩ := blistFree_spec hs hc (by omega) hd False.elim
    exact ⟨bl', hcall, hrep'⟩

/-- A blist for 1000 blocks. -/
theorem free_set_of_thousand : ∃ bl, blistCreate 1000 (fun _ => allocatedNode) = .ok bl ∧
    Represents False bl ∅ := by
  obtain ⟨bl, hcreate, hrun⟩ := free_set_of_run (n := 1000) (by decide) fun _ => allocatedNode
  exact ⟨bl, hcreate, (hrun _ .refl).1.2.1⟩

/-! ## Hints -/

/-- A node of level `k` at place `p` for the blocks from `b` on that is not below a collapsed
    node. -/
inductive Live (bl : Blist) : ℕ → ℕ → ℕ → Prop
  | root {k : ℕ} (h : bl.blRadix = radixAt k) : Live bl k 0 0
  | kid {k p b j : ℕ} (h : Live bl (k + 1) p b) (h0 : (bl.blRoot.node p).u ≠ 0)
      (hr : (bl.blRoot.node p).u ≠ radixAt (k + 1)) (hj : j < 16)
      (hN : b + j * radixAt k < bl.blBlocks) : Live bl k (kid k p j) (b + j * radixAt k)

theorem Represents.rep_of_live {F : Finset ℕ} {k p b : ℕ} (h : Represents H bl F)
    (hl : Live bl k p b) : Rep H F bl.blBlocks bl.blRoot.node k p b := by
  induction hl with
  | root hk =>
    obtain ⟨K, h⟩ := h
    obtain rfl := radixAt_injective (h.radix.symm.trans hk)
    exact h.rep
  | kid _ h0 hr hj hN ih => exact ih.kids h0 hr _ hj hN

theorem Represents.hint_of_live {F : Finset ℕ} {k p b : ℕ} (h : Represents True bl F)
    (hl : Live bl k p b) : HintOk F b (radixAt k) (bl.blRoot.node p).bmBighint := by
  have hrep := h.rep_of_live hl
  cases k with
  | zero => exact hrep.2 trivial
  | succ k => exact hrep.2.1 trivial

/-- In every run of valid calls of `blist_alloc` and `blist_free` in which no `blist_free` makes all
    blocks of a node free that had some blocks free before and a hint below 32, no hint is too low,
    and `blist_alloc` fails only where no leaf has enough free blocks in a row. -/
theorem hints_of_run (hn : 1 ≤ n) (junk : ℕ → Blmeta) :
    ∃ bl, blistCreate n junk = .ok bl ∧ ∀ s, Runs step AllocFreeKeeps { bl := bl, F := ∅ } s →
      (∀ k p b, Live s.bl k p b → HintOk s.F b (radixAt k) (s.bl.blRoot.node p).bmBighint) ∧
      ∀ c bl', 1 ≤ c → c ≤ 32 → blistAlloc s.bl c = .ok (bl', none) → ∀ x, ¬ LeafRun s.F x c := by
  obtain ⟨bl, hcreate, -, hrep⟩ := blistCreate_spec True hn junk
  refine ⟨bl, hcreate, fun s hrun => ?_⟩
  have hs : Represents True s.bl s.F :=
    hrun.invariant (I := fun s => Represents True s.bl s.F) hrep
      fun _ _ _ _ hI hop hstep => step_hints hI hop hstep
  refine ⟨fun k p b hl => hs.hint_of_live hl, fun c bl' hc1 hc2 hcall => ?_⟩
  obtain ⟨bl'', r, hcall', -, hfail, -⟩ := blistAlloc_spec hs hc1 hc2
  cases Except.ok.inj (hcall.symm.trans hcall')
  exact (hfail rfl).2 trivial

theorem hints_of_run_thousand : ∃ bl, blistCreate 1000 (fun _ => allocatedNode) = .ok bl ∧
    ∀ k p b, Live bl k p b → HintOk ∅ b (radixAt k) (bl.blRoot.node p).bmBighint := by
  obtain ⟨bl, hcreate, hrun⟩ := hints_of_run (n := 1000) (by decide) fun _ => allocatedNode
  exact ⟨bl, hcreate, (hrun _ .refl).1⟩

/-- A blist for 1024 blocks after calls of which each is checked before. -/
def after1024 (P : Sys → Op → Prop) [∀ s op, Decidable (P s op)] (ops : List Op) : Option Sys :=
  match blistCreate 1024 (fun _ => allocatedNode) with
  | .ok bl => Lib.exec (Lib.guarded step P) { bl := bl, F := ∅ } ops
  | .error _ => none

theorem runs_after1024 {P : Sys → Op → Prop} [∀ s op, Decidable (P s op)] {ops : List Op}
    (h : after1024 P ops = some s) : ∃ bl, blistCreate 1024 (fun _ => allocatedNode) = .ok bl ∧
      Runs step P { bl := bl, F := ∅ } s := by
  unfold after1024 at h
  split at h
  · exact ⟨_, ‹_›, Lib.runs_of_guarded h⟩
  · cases h

/-- A call of `blist_alloc` for `c` blocks fails. -/
def allocFails (s : Sys) (c : ℕ) : Bool :=
  match blistAlloc s.bl c with
  | .ok (_, none) => true
  | _ => false

theorem of_allocFails {c : ℕ} (h : allocFails s c = true) :
    ∃ bl', blistAlloc s.bl c = .ok (bl', none) := by
  unfold allocFails at h
  split at h
  · exact ⟨_, ‹_›⟩
  · cases h

/-- Of 1024 blocks the last one of the first half is freed, an allocation of two fails, and the
    other blocks of this half are freed. -/
def lowHint : List Op := [.free 511 1, .alloc 2, .free 0 511]

/-- Then an allocation of two fails although 512 blocks are free. -/
theorem low_hint : ¬ ∀ n junk bl, 1 ≤ n → n ≤ 2 ^ 29 → blistCreate n junk = .ok bl →
    ∀ s, Runs step AllocFree { bl := bl, F := ∅ } s →
      ∀ c bl', 1 ≤ c → c ≤ 32 → blistAlloc s.bl c = .ok (bl', none) → ∀ x, ¬ LeafRun s.F x c := by
  intro hall
  have hcomp : (after1024 AllocFree lowHint).map (fun s =>
      (allocFails s 2, decide (0 ∈ s.F ∧ 1 ∈ s.F))) = some (true, true) := by decide +kernel
  obtain ⟨s, hs, hf⟩ := Option.map_eq_some_iff.1 hcomp
  obtain ⟨hfails, hmem⟩ := Prod.mk.inj hf
  obtain ⟨h0, h1⟩ := of_decide_eq_true hmem
  obtain ⟨bl, hcreate, hrun⟩ := runs_after1024 hs
  obtain ⟨bl', hcall⟩ := of_allocFails hfails
  refine hall 1024 _ bl (by decide) (by decide) hcreate s hrun 2 bl' (by decide) (by decide) hcall 0
    ⟨by decide, fun y _ hy => ?_⟩
  obtain rfl | rfl : y = 0 ∨ y = 1 := by omega
  · exact h0
  · exact h1

/-! ## `blist_fill` and `blist_resize` -/

/-- `blist_fill` does what it says exactly where `FillReturns` holds. -/
theorem blistFill_iff_fits (h : Reached s) {x c : ℕ} (hx : InRange s x c) :
    (∃ bl', blistFill s.bl x c = .ok (bl', ((s.F ∩ Ico x (x + c)).card : ℤ)) ∧
        Represents False bl' (s.F \ Ico x (x + c)) ∧
        bl'.blFree = s.bl.blFree - (s.F ∩ Ico x (x + c)).card) ↔
      FillReturns s.bl s.F x c := by
  have hrep := h.represents
  rcases blistFill_spec hrep hx.1 hx.2 with ⟨hret, bl', hcall, -, hrep'⟩ | ⟨hret, hcall⟩
  · refine iff_of_true ⟨bl', hcall, hrep', ?_⟩ hret
    have := card_sdiff_add_card_inter s.F (Ico x (x + c))
    rw [hrep'.free, hrep.free]; omega
  · refine iff_of_false ?_ hret
    rintro ⟨bl', hcall', -⟩
    rw [hcall] at hcall'
    cases hcall'

/-- A call of `blist_fill` panics. -/
def fillPanics (s : Sys) (x c : ℕ) : Bool :=
  match blistFill s.bl x c with
  | .error _ => true
  | .ok _ => false

/-- Where 1024 blocks are free, filling the first 33 panics. -/
theorem fill_panics : ¬ ∀ s, Reached s → ∀ x c, InRange s x c →
    ∃ bl', blistFill s.bl x c = .ok (bl', ((s.F ∩ Ico x (x + c)).card : ℤ)) ∧
      Represents False bl' (s.F \ Ico x (x + c)) ∧
      bl'.blFree = s.bl.blFree - (s.F ∩ Ico x (x + c)).card := by
  intro hall
  have hcomp : (after1024 Valid [.free 0 1024]).map (fun s =>
      (fillPanics s 0 33, decide (InRange s 0 33))) = some (true, true) := by decide +kernel
  obtain ⟨s, hs, hf⟩ := Option.map_eq_some_iff.1 hcomp
  obtain ⟨hpanics, hrange⟩ := Prod.mk.inj hf
  obtain ⟨bl, hcreate, hrun⟩ := runs_after1024 hs
  obtain ⟨bl', hcall, -⟩ := hall s ⟨1024, _, bl, by decide, by decide, hcreate, hrun⟩ 0 33
    (of_decide_eq_true hrange)
  unfold fillPanics at hpanics
  rw [hcall] at hpanics
  cases hpanics

/-- The first 32 of 1000 blocks, all of them held. -/
theorem fill_first_leaf : ∃ s : Sys, (∃ bl', blistFill s.bl 0 32 =
      .ok (bl', ((s.F ∩ Ico 0 (0 + 32)).card : ℤ)) ∧ Represents False bl' (s.F \ Ico 0 (0 + 32)) ∧
        bl'.blFree = s.bl.blFree - (s.F ∩ Ico 0 (0 + 32)).card) ↔
    FillReturns s.bl s.F 0 32 := by
  obtain ⟨bl, hcreate, hblocks, -⟩ := blistCreate_spec False (show 1 ≤ 1000 by decide)
    fun _ => allocatedNode
  exact ⟨{ bl := bl, F := ∅ }, blistFill_iff_fits
    ⟨1000, _, bl, by decide, by decide, hcreate, .refl⟩
    ⟨by decide, by show 0 + 32 ≤ bl.blBlocks; omega⟩⟩

/-- `blist_resize` keeps the blocks of both sizes. -/
theorem blistResize_of_run (h : Reached s) {m : ℕ} (hm : 1 ≤ m) (freenew : Bool)
    (junk : ℕ → Blmeta) :
    ∃ bl', blistResize s.bl m freenew junk = .ok bl' ∧ bl'.blBlocks = m ∧
      Represents False bl' (resized s.F s.bl.blBlocks m freenew) ∧
      bl'.blFree = (resized s.F s.bl.blBlocks m freenew).card := by
  obtain ⟨bl', hcall, hblocks, hrep⟩ := blistResize_spec h.represents hm freenew junk
  exact ⟨bl', hcall, hblocks, hrep, hrep.free⟩

/-- From 1000 blocks to 1100, the new ones free. -/
theorem resize_thousand : ∃ bl bl', blistCreate 1000 (fun _ => allocatedNode) = .ok bl ∧
    blistResize bl 1100 true (fun _ => allocatedNode) = .ok bl' ∧
      Represents False bl' (resized ∅ bl.blBlocks 1100 true) := by
  obtain ⟨bl, hcreate, -, -⟩ := blistCreate_spec False (show 1 ≤ 1000 by decide)
    fun _ => allocatedNode
  obtain ⟨bl', hcall, -, hrep, -⟩ := blistResize_of_run
    ⟨1000, _, bl, by decide, by decide, hcreate, .refl⟩ (show 1 ≤ 1100 by decide) true
    fun _ => allocatedNode
  exact ⟨bl, bl', hcreate, hcall, hrep⟩

end FreeBSD.SubrBlist
