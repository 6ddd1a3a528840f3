import Mathlib.Data.BitVec
import Mathlib.Tactic

/-!
# Advice about the pages of a shadow chain

`vm_object_madvise` of `vm/vm_object.c` (lines 1025–1154), with the parts of `vm_page_activate`,
`vm_page_dontneed`, `_vm_page_deactivate` and `vm_page_sleep_if_busy` (`vm/vm_page.c`) that change a
page. The objects of a shadow chain are a list, the front object first. The place of a page within
its queue is left out.

`vm_page_dontneed` has a static counter. `dnw` is the value that it has for each page; a page is
visited once at most. Where a page is busy, the call sleeps and then looks the page up again, which
is a call from that page on in another state: the model ends there.

A fault goes to the next object with the offset of the object it leaves. `vm_object_madvise` adds
the offset of the object that it comes to.

Results:
* `madvise_iff`: only pages and swap blocks where a fault looks are changed, unless the walk comes
  to another place at which the advice makes a difference.
* `madvise_other_page`: another page is activated.
-/

namespace FreeBSD.VmObject

open List Function Option

/-! ## Model -/

/-- `vm_pindex_t`. -/
abbrev Pindex := BitVec 64

/-- `objtype_t`. -/
inductive ObjType where
  | default | swap | vnode | device | phys | dead
deriving DecidableEq

/-- `m->queue - m->pc`. -/
inductive Queue where
  | none | free | inactive | active | cache | hold
deriving DecidableEq

/-- The values of `advise` that make a difference. -/
inductive Advice where
  | willneed | dontneed | free | other
deriving DecidableEq

/-- `struct vm_page`; `busy` stands for `PG_BUSY` or a busy count, and `modified` for the bits that
    the pmap layer has. -/
structure Page where
  hold_count : ℕ
  wire_count : ℕ
  unmanaged : Bool
  valid : BitVec 8
  busy : Bool
  wanted : Bool
  referenced : Bool
  winatcfls : Bool
  dirty : BitVec 8
  modified : Bool
  act_count : ℕ
  queue : Queue
deriving DecidableEq

/-- `struct vm_object`, with its resident pages and its swap blocks. -/
structure Obj where
  type : ObjType
  onemapping : Bool
  backing_object_offset : BitVec 64
  pages : Pindex → Option Page
  swap : Pindex → Option ℕ

/-- `OFF_TO_IDX` (`vm/vm_object.h`, line 157). -/
def offToIdx (off : BitVec 64) : Pindex := off.sshiftRight 12

/-- `ACT_INIT` (`vm/vm_page.h`, line 268). -/
def actInit : ℕ := 5

/-- `VM_PAGE_BITS_ALL`. -/
def vmPageBitsAll : BitVec 8 := 0xff

/-- `vm_page_activate` (lines 939–964). -/
def vm_page_activate (m : Page) : Page :=
  if m.queue ≠ .active then
    if m.wire_count = 0 ∧ m.unmanaged = false then
      { m with act_count := max m.act_count actInit, queue := .active }
    else { m with queue := .none }
  else { m with act_count := max m.act_count actInit }

/-- `vm_page_test_dirty`. -/
def vm_page_test_dirty (m : Page) : Page :=
  if m.dirty ≠ vmPageBitsAll ∧ m.modified then { m with dirty := vmPageBitsAll } else m

/-- `_vm_page_deactivate` (lines 1238–1264). -/
def vm_page_deactivate (m : Page) : Page :=
  if m.queue = .inactive then m
  else if m.wire_count = 0 ∧ m.unmanaged = false then
    { m with winatcfls := false, queue := .inactive }
  else m

/-- `vm_page_dontneed` (lines 1378–1420), where `dnw` is the value of the counter. -/
def vm_page_dontneed (dnw : BitVec 32) (m : Page) : Page :=
  if dnw &&& 0x01F0 = 0 ∨ m.queue = .inactive ∨ m.queue = .cache then
    if m.act_count ≥ actInit then { m with act_count := m.act_count - 1 } else m
  else vm_page_deactivate (if m.dirty = 0 then vm_page_test_dirty m else m)

/-- What the advice does to a page (lines 1119–1142). -/
def advisePage (advise : Advice) (dnw : BitVec 32) (m : Page) : Page :=
  match advise with
  | .willneed => vm_page_activate m
  | .dontneed => vm_page_dontneed dnw m
  | .free => vm_page_dontneed dnw { m with modified := false, dirty := 0, act_count := 0 }
  | .other => m

namespace Obj

def setPage (o : Obj) (i : Pindex) (m : Page) : Obj :=
  { o with pages := Function.update o.pages i (some m) }

/-- `swap_pager_freespace` for one page, of an object with swap. -/
def freespace (o : Obj) (i : Pindex) : Obj := { o with swap := Function.update o.swap i none }

/-- `MADV_FREE` does not operate on the object (lines 1078–1084). -/
def blocked (o : Obj) (advise : Advice) : Bool :=
  decide (advise = .free ∧ ((o.type ≠ .default ∧ o.type ≠ .swap) ∨ o.onemapping = false))

/-- The swap block goes with `MADV_FREE` (lines 1090–1091 and 1145–1146). -/
def freeSwap (o : Obj) (advise : Advice) (i : Pindex) : Obj :=
  if advise = .free ∧ o.type = .swap then o.freespace i else o

end Obj

/-- What comes after an object. -/
inductive Next where
  | shadow | done | asleep
deriving DecidableEq

/-- From `shadowlookup` on (lines 1074–1148), for the object `o` and `tpindex`. -/
def visit (advise : Advice) (dnw : BitVec 32) (o : Obj) (tpindex : Pindex) : Obj × Next :=
  if o.blocked advise then (o, .done)
  else
    match o.pages tpindex with
    | none => (o.freeSwap advise tpindex, .shadow)
    | some m =>
      if m.hold_count ≠ 0 ∨ m.wire_count ≠ 0 ∨ m.unmanaged ∨ m.valid ≠ vmPageBitsAll then (o, .done)
      else if m.busy then
        -- `vm_page_sleep_if_busy`
        (o.setPage tpindex { m with wanted := true, referenced := true }, .asleep)
      else
        ((o.setPage tpindex (advisePage advise dnw m)).freeSwap advise tpindex, .done)

/-- The walk down the chain for one page, from object `k` on, and whether it sleeps. -/
def shadowLookup (advise : Advice) (dnw : ℕ → Pindex → BitVec 32) :
    ℕ → List Obj → Pindex → List Obj × Bool
  | _, [], _ => ([], false)
  | k, o :: rest, tpindex =>
    match visit advise (dnw k tpindex) o tpindex with
    | (o, .shadow) =>
      match rest with
      | [] => ([o], false)
      | tobject :: rest =>
        let r := shadowLookup advise dnw (k + 1) (tobject :: rest)
          (tpindex + offToIdx tobject.backing_object_offset)
        (o :: r.1, r.2)
    | (o, .done) => (o :: rest, false)
    | (o, .asleep) => (o :: rest, true)

/-- The loop of `vm_object_madvise` (lines 1070–1150) for `n` pages, and the page for which it
    sleeps. -/
def madviseLoop (advise : Advice) (dnw : ℕ → Pindex → BitVec 32) :
    ℕ → List Obj → Pindex → List Obj × Option Pindex
  | 0, chain, _ => (chain, none)
  | n + 1, chain, pindex =>
    match shadowLookup advise dnw 0 chain pindex with
    | (chain, true) => (chain, some pindex)
    | (chain, false) => madviseLoop advise dnw n chain (pindex + 1)

/-- `end`. -/
def endOf (pindex : Pindex) (count : BitVec 32) : Pindex := pindex + count.signExtend 64

/-- `vm_object_madvise(object, pindex, count, advise)`: the chain from `object` on afterwards, and
    the page for which the call sleeps. -/
def vm_object_madvise (advise : Advice) (dnw : ℕ → Pindex → BitVec 32) (chain : List Obj)
    (pindex : Pindex) (count : BitVec 32) : List Obj × Option Pindex :=
  madviseLoop advise dnw ((endOf pindex count).toNat - pindex.toNat) chain pindex

/-! ## Indices -/

/-- The index at which the walk for `t` looks in object `k`, if it gets there. -/
def indexAt (advise : Advice) : List Obj → Pindex → ℕ → Option Pindex
  | [], _, _ => none
  | _ :: _, t, 0 => some t
  | [_], _, _ + 1 => none
  | o :: b :: rest, t, k + 1 =>
    if o.blocked advise = false ∧ o.pages t = none then
      indexAt advise (b :: rest) (t + offToIdx b.backing_object_offset) k
    else none

/-- What the walk has added at object `k`. -/
def walkOffset : List Obj → ℕ → Pindex
  | _ :: b :: rest, k + 1 => offToIdx b.backing_object_offset + walkOffset (b :: rest) k
  | _, _ => 0

/-- What a fault adds up to object `k`: the offsets of the objects before it. -/
def faultOffset : List Obj → ℕ → Pindex
  | o :: rest, k + 1 => offToIdx o.backing_object_offset + faultOffset rest k
  | _, _ => 0

theorem indexAt_eq {advise : Advice} {chain : List Obj} {t i : Pindex} {k : ℕ}
    (h : indexAt advise chain t k = some i) : i = t + walkOffset chain k := by
  induction chain generalizing t k with
  | nil => cases h
  | cons o rest ih =>
    cases k with
    | zero =>
      obtain rfl := some.inj h
      cases rest with
      | nil => exact (BitVec.add_zero _).symm
      | cons b rest => exact (BitVec.add_zero _).symm
    | succ k =>
      cases rest with
      | nil => cases h
      | cons b rest =>
        rw [indexAt] at h
        split_ifs at h
        rw [ih h, walkOffset, BitVec.add_assoc]

/-! ## One object -/

variable {advise : Advice} {d : BitVec 32} {dnw : ℕ → Pindex → BitVec 32} {o o' : Obj}
  {t i p : Pindex} {chain chain' : List Obj} {k n : ℕ}

/-- What an object has at an index. -/
def Obj.cell (o : Obj) (i : Pindex) : Option Page × Option ℕ := (o.pages i, o.swap i)

/-- The objects are alike in all that decides about the walk, except for pages that are busy. -/
structure Alike (o o' : Obj) : Prop where
  type : o'.type = o.type
  onemapping : o'.onemapping = o.onemapping
  offset : o'.backing_object_offset = o.backing_object_offset
  resident : ∀ i, (o'.pages i).isSome = (o.pages i).isSome

theorem Alike.refl (o : Obj) : Alike o o := ⟨rfl, rfl, rfl, fun _ => rfl⟩

theorem Alike.blocked (h : Alike o o') (advise : Advice) :
    o'.blocked advise = o.blocked advise := by
  unfold Obj.blocked
  rw [h.type, h.onemapping]

theorem Alike.absent (h : Alike o o') (i : Pindex) : o'.pages i = none ↔ o.pages i = none := by
  rw [← not_isSome_iff_eq_none, ← not_isSome_iff_eq_none, h.resident i]

theorem freeSwap_alike (o : Obj) (advise : Advice) (t : Pindex) : Alike o
    (o.freeSwap advise t) := by
  unfold Obj.freeSwap
  split_ifs
  · exact ⟨rfl, rfl, rfl, fun _ => rfl⟩
  · exact Alike.refl o

theorem setPage_alike {m : Page} (h : o.pages t = some m) (m' : Page) :
    Alike o (o.setPage t m') := by
  refine ⟨rfl, rfl, rfl, fun i => ?_⟩
  by_cases hi : i = t
  · subst hi
    rw [h]
    show (update o.pages i (some m') i).isSome = _
    rw [update_self]; rfl
  · show (update o.pages t (some m') i).isSome = _
    rw [update_of_ne hi]

theorem Alike.trans {o'' : Obj} (h : Alike o o') (h' : Alike o' o'') : Alike o o'' :=
  ⟨h'.type.trans h.type, h'.onemapping.trans h.onemapping, h'.offset.trans h.offset,
    fun i => (h'.resident i).trans (h.resident i)⟩

theorem freeSwap_cell (o : Obj) (advise : Advice) (hi : i ≠ t) :
    (o.freeSwap advise t).cell i = o.cell i := by
  unfold Obj.freeSwap
  split_ifs
  · show (o.pages i, update o.swap t none i) = _
    rw [update_of_ne hi]; rfl
  · rfl

theorem setPage_cell (o : Obj) (m : Page) (hi : i ≠ t) : (o.setPage t m).cell i = o.cell i := by
  show (update o.pages t (some m) i, o.swap i) = _
  rw [update_of_ne hi]; rfl

/-- A visit changes the object at one index only. -/
theorem visit_spec (advise : Advice) (d : BitVec 32) (o : Obj) (t : Pindex) :
    Alike o (visit advise d o t).1 ∧ ∀ i, i ≠ t → (visit advise d o t).1.cell i = o.cell i := by
  unfold visit
  split_ifs with hb
  · exact ⟨Alike.refl o, fun _ _ => rfl⟩
  · cases hm : o.pages t with
    | none => exact ⟨freeSwap_alike o advise t, fun i hi => freeSwap_cell o advise hi⟩
    | some m =>
      dsimp only
      split_ifs with hskip hbusy
      · exact ⟨Alike.refl o, fun _ _ => rfl⟩
      · exact ⟨setPage_alike hm _, fun i hi => setPage_cell o _ hi⟩
      · refine ⟨(setPage_alike hm _).trans (freeSwap_alike _ advise t), fun i hi => ?_⟩
        rw [freeSwap_cell _ advise hi, setPage_cell o _ hi]

/-- The walk goes on where there is no page. -/
theorem visit_shadow_iff (advise : Advice) (d : BitVec 32) (o : Obj) (t : Pindex) :
    (visit advise d o t).2 = .shadow ↔ o.blocked advise = false ∧ o.pages t = none := by
  unfold visit
  split_ifs with hb
  · refine iff_of_false (by decide) fun h => ?_
    rw [hb] at h; exact absurd h.1 (by decide)
  · cases hm : o.pages t with
    | none => exact iff_of_true rfl ⟨Bool.eq_false_iff.2 hb, rfl⟩
    | some m =>
      dsimp only
      refine iff_of_false ?_ fun h => by cases h.2
      split_ifs
      all_goals exact fun h => by cases h

theorem freeSwap_congr (advise : Advice) {a b : Obj} (htype : b.type = a.type)
    (hcell : b.cell t = a.cell t) :
    (b.freeSwap advise t).cell t = (a.freeSwap advise t).cell t := by
  unfold Obj.freeSwap
  rw [htype]
  split_ifs
  · have hpage : b.pages t = a.pages t := congrArg Prod.fst hcell
    show (b.pages t, update b.swap t none t) = (a.pages t, update a.swap t none t)
    rw [hpage, update_self, update_self]
  · exact hcell

/-- A visit depends on what the object has at the index. -/
theorem visit_congr (h : Alike o o') (hcell : o'.cell t = o.cell t) :
    (visit advise d o' t).1.cell t = (visit advise d o t).1.cell t ∧
      (visit advise d o' t).2 = (visit advise d o t).2 := by
  have hpage : o'.pages t = o.pages t := congrArg Prod.fst hcell
  have hswap : o'.swap t = o.swap t := congrArg Prod.snd hcell
  have hset (m : Page) : (o'.setPage t m).cell t = (o.setPage t m).cell t := by
    show (update o'.pages t (some m) t, o'.swap t) =
      (update o.pages t (some m) t, o.swap t)
    rw [update_self, update_self, hswap]
  unfold visit
  rw [h.blocked advise, hpage]
  split_ifs with hb
  · exact ⟨hcell, rfl⟩
  · cases o.pages t with
    | none => exact ⟨freeSwap_congr advise h.type hcell, rfl⟩
    | some m =>
      dsimp only
      split_ifs
      · exact ⟨hcell, rfl⟩
      · exact ⟨hset _, rfl⟩
      · exact ⟨freeSwap_congr advise h.type (hset _), rfl⟩

/-! ## One page -/

/-- Object `k` after the walk for `t`. -/
def walked (advise : Advice) (dnw : ℕ → Pindex → BitVec 32) (chain : List Obj) (t : Pindex) (k : ℕ)
    (o : Obj) : Obj :=
  match indexAt advise chain t k with
  | some i => (visit advise (dnw k i) o i).1
  | none => o

/-- The walk for `t` comes to a busy page. -/
def Sleeps (advise : Advice) (chain : List Obj) (t : Pindex) : Prop :=
  ∃ k o i, chain[k]? = some o ∧ indexAt advise chain t k = some i ∧
    (visit advise 0 o i).2 = .asleep

/-- Where the walk goes after an object does not depend on the counter. -/
theorem visit_next (advise : Advice) (d : BitVec 32) (o : Obj) (t : Pindex) :
    (visit advise d o t).2 = (visit advise 0 o t).2 := by
  unfold visit
  split_ifs with hb
  · rfl
  · cases o.pages t with
    | none => rfl
    | some m =>
      dsimp only
      split_ifs
      all_goals rfl

theorem visit_eq {next : Next} (h : (visit advise d o t).2 = next) :
    visit advise d o t = ((visit advise d o t).1, next) := Prod.ext rfl h

theorem sleeps_cons {b : Obj} (h : (visit advise 0 o t).2 = .shadow) :
    Sleeps advise (o :: b :: chain) t ↔
      Sleeps advise (b :: chain) (t + offToIdx b.backing_object_offset) := by
  have hgo := (visit_shadow_iff advise 0 o t).1 h
  constructor
  · rintro ⟨k, a, i, hk, hi, hsleep⟩
    cases k with
    | zero =>
      obtain rfl := some.inj hk
      obtain rfl := some.inj hi
      rw [h] at hsleep
      cases hsleep
    | succ k =>
      rw [indexAt, if_pos hgo] at hi; exact ⟨k, a, i, hk, hi, hsleep⟩
  · rintro ⟨k, a, i, hk, hi, hsleep⟩
    refine ⟨k + 1, a, i, hk, ?_, hsleep⟩
    rw [indexAt, if_pos hgo]; exact hi

/-- Where the walk ends, it is at the first object. -/
theorem sleeps_stop (h : (visit advise 0 o t).2 ≠ .shadow ∨ chain = []) :
    Sleeps advise (o :: chain) t ↔ (visit advise 0 o t).2 = .asleep := by
  constructor
  · rintro ⟨k, a, i, hk, hi, hsleep⟩
    cases k with
    | zero =>
      obtain rfl := some.inj hk
      obtain rfl := some.inj hi
      exact hsleep
    | succ k =>
      cases chain with
      | nil => cases hi
      | cons b chain =>
        have hne : (visit advise 0 o t).2 ≠ .shadow := h.resolve_right (by simp)
        rw [indexAt] at hi
        split_ifs at hi with hgo
        exact absurd ((visit_shadow_iff advise 0 o t).2 hgo) hne
  · intro hsleep; exact ⟨0, o, t, rfl, by cases chain <;> rfl, hsleep⟩

theorem walked_alike : Alike o (walked advise dnw chain t k o) := by
  unfold walked
  cases indexAt advise chain t k with
  | none => exact Alike.refl o
  | some i => exact (visit_spec advise _ o i).1

theorem walked_stop {a : Obj} (h : (visit advise 0 o t).2 ≠ .shadow ∨ chain = []) (k : ℕ) :
    walked advise dnw (o :: chain) t (k + 1) a = a := by
  unfold walked
  cases chain with
  | nil => rfl
  | cons b chain =>
    have hne : (visit advise 0 o t).2 ≠ .shadow := h.resolve_right (by simp)
    rw [indexAt, if_neg fun hgo => hne ((visit_shadow_iff advise 0 o t).2 hgo)]

/-- The walk changes each object as a visit at its index does, and sleeps where it comes to a busy
    page. -/
theorem shadowLookup_spec (advise : Advice) (dnw : ℕ → Pindex → BitVec 32) (k₀ : ℕ)
    (chain : List Obj) (t : Pindex) :
    (shadowLookup advise dnw k₀ chain t).1 =
      chain.mapIdx (walked advise (fun j => dnw (k₀ + j)) chain t) ∧
      ((shadowLookup advise dnw k₀ chain t).2 = true ↔ Sleeps advise chain t) := by
  induction chain generalizing k₀ t with
  | nil =>
    refine ⟨rfl, iff_of_false Bool.false_ne_true ?_⟩
    rintro ⟨k, o, i, hk, -, -⟩
    cases hk
  | cons o rest ih =>
    have hfirst : walked advise (fun j => dnw (k₀ + j)) (o :: rest) t 0 o =
        (visit advise (dnw k₀ t) o t).1 := by cases rest <;> rfl
    have hstop (h : (visit advise 0 o t).2 ≠ .shadow ∨ rest = []) :
        (visit advise (dnw k₀ t) o t).1 :: rest =
          (o :: rest).mapIdx (walked advise (fun j => dnw (k₀ + j)) (o :: rest) t) := by
      rw [mapIdx_cons, hfirst]
      congr 1
      symm
      rw [mapIdx_eq_iff]
      intro k
      cases rest[k]? with
      | none => rfl
      | some a => exact congrArg some (walked_stop h k).symm
    have hnext := visit_next advise (dnw k₀ t) o t
    rw [shadowLookup]
    cases hv : (visit advise 0 o t).2 with
    | done =>
      rw [visit_eq (hnext.trans hv)]
      refine ⟨hstop (.inl (by rw [hv]; decide)), ?_⟩
      rw [sleeps_stop (.inl (by rw [hv]; decide)), hv]
      exact iff_of_false Bool.false_ne_true (by decide)
    | asleep =>
      rw [visit_eq (hnext.trans hv)]
      refine ⟨hstop (.inl (by rw [hv]; decide)), ?_⟩
      rw [sleeps_stop (.inl (by rw [hv]; decide)), hv]
      exact iff_of_true rfl rfl
    | shadow =>
      rw [visit_eq (hnext.trans hv)]
      cases rest with
      | nil =>
        refine ⟨hstop (.inr rfl), ?_⟩
        rw [sleeps_stop (.inr rfl), hv]; exact iff_of_false Bool.false_ne_true (by decide)
      | cons b rest =>
        obtain ⟨hcells, hsleeps⟩ := ih (k₀ + 1) (t + offToIdx b.backing_object_offset)
        refine ⟨?_, hsleeps.trans (sleeps_cons hv).symm⟩
        show (visit advise (dnw k₀ t) o t).1 :: _ = _
        rw [mapIdx_cons, hfirst, hcells]
        congr 2
        funext k a
        show walked _ _ _ _ k a = walked _ _ _ _ (k + 1) a
        unfold walked
        rw [indexAt, if_pos ((visit_shadow_iff advise 0 o t).1 hv)]
        cases indexAt advise (b :: rest) (t + offToIdx b.backing_object_offset) k with
        | none => rfl
        | some i =>
          show (visit advise (dnw (k₀ + 1 + k) i) a i).1 =
            (visit advise (dnw (k₀ + (k + 1)) i) a i).1
          rw [add_assoc, add_comm 1]

/-! ## Other pages -/

/-- What decides about the walks is as before. -/
abbrev AlikeChain : List Obj → List Obj → Prop := List.Forall₂ Alike

theorem AlikeChain.refl (chain : List Obj) : AlikeChain chain chain := by
  induction chain with
  | nil => exact .nil
  | cons o rest ih => exact .cons (Alike.refl o) ih

theorem AlikeChain.trans {chain'' : List Obj} (h : AlikeChain chain chain')
    (h' : AlikeChain chain' chain'') : AlikeChain chain chain'' := by
  induction h generalizing chain'' with
  | nil => exact h'
  | cons ha _ ih =>
    cases h' with
    | cons hb hrest => exact .cons (ha.trans hb) (ih hrest)

theorem AlikeChain.get (h : AlikeChain chain chain') (hk : chain[k]? = some o) :
    ∃ o', chain'[k]? = some o' ∧ Alike o o' := by
  induction h generalizing k with
  | nil => cases hk
  | cons ha _ ih =>
    cases k with
    | zero =>
      obtain rfl := some.inj hk
      exact ⟨_, rfl, ha⟩
    | succ k => exact ih hk

theorem AlikeChain.get' (h : AlikeChain chain chain') (hk : chain'[k]? = some o') :
    ∃ o, chain[k]? = some o ∧ Alike o o' := by
  induction h generalizing k with
  | nil => cases hk
  | cons ha _ ih =>
    cases k with
    | zero =>
      obtain rfl := some.inj hk
      exact ⟨_, rfl, ha⟩
    | succ k => exact ih hk

theorem AlikeChain.indexAt_eq (h : AlikeChain chain chain') (advise : Advice) (t : Pindex) (k : ℕ) :
    indexAt advise chain' t k = indexAt advise chain t k := by
  induction h generalizing t k with
  | nil => rfl
  | cons ha hrest ih =>
    cases hrest with
    | nil => cases k <;> rfl
    | cons hb _ =>
      cases k with
      | zero => rfl
      | succ k =>
        rw [indexAt, indexAt, ha.blocked advise, hb.offset, ih]; simp only [ha.absent t]

theorem shadowLookup_alike (advise : Advice) (dnw : ℕ → Pindex → BitVec 32) (k₀ : ℕ)
    (chain : List Obj) (t : Pindex) : AlikeChain chain (shadowLookup advise dnw k₀ chain t).1 := by
  rw [(shadowLookup_spec advise dnw k₀ chain t).1, AlikeChain, forall₂_iff_get]
  refine ⟨length_mapIdx.symm, fun k h _ => ?_⟩
  rw [get_eq_getElem, get_eq_getElem, getElem_mapIdx]; exact walked_alike

/-- What the walk for `p` meets is as before. -/
def Untouched (advise : Advice) (chain chain' : List Obj) (p : Pindex) : Prop :=
  ∀ k o o' i, chain[k]? = some o → chain'[k]? = some o' → indexAt advise chain p k = some i →
    o'.cell i = o.cell i

theorem sleeps_congr (h : AlikeChain chain chain') (hp : Untouched advise chain chain' p) :
    Sleeps advise chain' p ↔ Sleeps advise chain p := by
  constructor
  · rintro ⟨k, o', i, hk', hi, hsleep⟩
    obtain ⟨o, hk, ha⟩ := h.get' hk'
    rw [h.indexAt_eq] at hi
    refine ⟨k, o, i, hk, hi, ?_⟩
    rw [← hsleep]; exact ((visit_congr ha (hp k o o' i hk hk' hi)).2).symm
  · rintro ⟨k, o, i, hk, hi, hsleep⟩
    obtain ⟨o', hk', ha⟩ := h.get hk
    refine ⟨k, o', i, hk', (h.indexAt_eq advise p k).trans hi, ?_⟩
    rw [← hsleep]; exact (visit_congr ha (hp k o o' i hk hk' hi)).2

theorem shadowLookup_get (advise : Advice) (dnw : ℕ → Pindex → BitVec 32) (t : Pindex)
    (hk : chain[k]? = some o) :
    (shadowLookup advise dnw 0 chain t).1[k]? = some (walked advise dnw chain t k o) := by
  rw [(shadowLookup_spec advise dnw 0 chain t).1, List.getElem?_mapIdx, hk]
  simp only [zero_add]; rfl

/-- The walk for `t` changes an object at the index where it looks. -/
theorem walked_cell (hi : indexAt advise chain t k ≠ some i) :
    (walked advise dnw chain t k o).cell i = o.cell i := by
  unfold walked
  cases hat : indexAt advise chain t k with
  | none => rfl
  | some j =>
    refine (visit_spec advise _ o j).2 i fun h => hi ?_
    rw [hat, h]

/-- Two walks do not look at one place. -/
theorem indexAt_inj (hp : indexAt advise chain p k = some i)
    (ht : indexAt advise chain t k = some i) :
    p = t :=
  add_right_cancel ((indexAt_eq hp).symm.trans (indexAt_eq ht))

theorem shadowLookup_untouched (hp : p ≠ t) :
    Untouched advise chain (shadowLookup advise dnw 0 chain t).1 p := by
  intro k o o' i hk hk' hi
  rw [shadowLookup_get advise dnw t hk] at hk'
  obtain rfl := some.inj hk'
  exact walked_cell fun h => hp (indexAt_inj hi h)

/-! ## All pages -/

/-- The call for the pages from `t` to `e` comes to page `p`: it sleeps for none before. -/
def Reaches (advise : Advice) (chain : List Obj) (t e p : Pindex) : Prop :=
  t ≤ p ∧ p < e ∧ ∀ q, t ≤ q → q < p → ¬ Sleeps advise chain q

theorem reaches_first {e : Pindex} (advise : Advice) (chain : List Obj) (h : t < e) :
    Reaches advise chain t e t :=
  ⟨BitVec.le_refl t, h, fun _ hle hlt => absurd hlt (BitVec.not_lt.2 hle)⟩

theorem reaches_asleep {e : Pindex} (h : Sleeps advise chain t)
    (hp : Reaches advise chain t e p) : p = t := by
  by_contra hne
  exact hp.2.2 t (BitVec.le_refl t) (BitVec.lt_of_le_ne hp.1 (Ne.symm hne)) h

theorem succ_toNat {e : Pindex} (h : t < e) : (t + 1).toNat = t.toNat + 1 := by
  have hlt : t.toNat < e.toNat := h
  have he := e.isLt
  rw [BitVec.toNat_add]; exact Nat.mod_eq_of_lt (by show t.toNat + 1 < _; omega)

/-- What the call comes to after the walk for `t`. -/
theorem reaches_next {e : Pindex} (ht : t < e) (hs : ¬ Sleeps advise chain t) :
    Reaches advise (shadowLookup advise dnw 0 chain t).1 (t + 1) e p ↔
      p ≠ t ∧ Reaches advise chain t e p := by
  have hsucc := succ_toNat ht
  have hle (q : Pindex) : t + 1 ≤ q ↔ t ≤ q ∧ q ≠ t := by
    rw [BitVec.le_def, BitVec.le_def, hsucc, Ne, ← BitVec.toNat_inj]; omega
  have hsame {q : Pindex} (hq : q ≠ t) :
      Sleeps advise (shadowLookup advise dnw 0 chain t).1 q ↔ Sleeps advise chain q :=
    sleeps_congr (shadowLookup_alike advise dnw 0 chain t) (shadowLookup_untouched hq)
  constructor
  · rintro ⟨hlo, hhi, hno⟩
    refine ⟨((hle p).1 hlo).2, ((hle p).1 hlo).1, hhi, fun q hq hqp => ?_⟩
    by_cases hqt : q = t
    · rw [hqt]; exact hs
    · rw [← hsame hqt]; exact hno q ((hle q).2 ⟨hq, hqt⟩) hqp
  · rintro ⟨hne, hlo, hhi, hno⟩
    refine ⟨(hle p).2 ⟨hlo, hne⟩, hhi, fun q hq hqp => ?_⟩
    rw [hsame ((hle q).1 hq).2]; exact hno q ((hle q).1 hq).1 hqp

/-- What each object has after the loop: it is visited at the indices to which a walk comes, and is
    as before elsewhere. -/
theorem madviseLoop_spec {e : Pindex} (hn : n = e.toNat - t.toNat) :
    AlikeChain chain (madviseLoop advise dnw n chain t).1 ∧
      ∀ k o o', chain[k]? = some o → (madviseLoop advise dnw n chain t).1[k]? = some o' → ∀ i,
        (∀ p, Reaches advise chain t e p → indexAt advise chain p k = some i →
          o'.cell i = (visit advise (dnw k i) o i).1.cell i) ∧
        ((∀ p, Reaches advise chain t e p → indexAt advise chain p k ≠ some i) →
          o'.cell i = o.cell i) := by
  induction n generalizing chain t with
  | zero =>
    refine ⟨AlikeChain.refl chain, fun k o o' hk hk' i => ?_⟩
    obtain rfl := some.inj (hk.symm.trans hk')
    refine ⟨fun p hp => ?_, fun _ => rfl⟩
    have hlo : t.toNat ≤ p.toNat := hp.1
    have hhi : p.toNat < e.toNat := hp.2.1
    omega
  | succ n ih =>
    have ht : t < e := by show t.toNat < e.toNat; omega
    have hfirst := reaches_first advise chain ht
    have halike := shadowLookup_alike advise dnw 0 chain t
    have hwalked {k : ℕ} {o : Obj} {i : Pindex} (hi : indexAt advise chain t k = some i) :
        walked advise dnw chain t k o = (visit advise (dnw k i) o i).1 := by
      unfold walked
      rw [hi]
    rw [madviseLoop]
    cases hround : shadowLookup advise dnw 0 chain t with
    | mk chain₁ asleep =>
      have hsleeps := (shadowLookup_spec advise dnw 0 chain t).2
      rw [hround] at hsleeps halike
      have hget {k : ℕ} {o : Obj} (hk : chain[k]? = some o) :
          chain₁[k]? = some (walked advise dnw chain t k o) := by
        have h := shadowLookup_get advise dnw t hk
        rw [hround] at h; exact h
      cases asleep with
      | true =>
        -- the call ends with the page `t`
        refine ⟨halike, fun k o o' hk hk' i => ?_⟩
        obtain rfl := some.inj ((hget hk).symm.trans hk')
        constructor
        · intro p hp hi
          obtain rfl := reaches_asleep (hsleeps.1 rfl) hp
          rw [hwalked hi]
        · intro hno; exact walked_cell (hno t hfirst)
      | false =>
        have hawake : ¬ Sleeps advise chain t := fun h => Bool.false_ne_true (hsleeps.2 h)
        have hsucc := succ_toNat ht
        have hn' : n = e.toNat - (t + 1).toNat := by omega
        obtain ⟨halike', hrest⟩ := @ih (t + 1) chain₁ hn'
        have hreach (p : Pindex) :
            Reaches advise chain₁ (t + 1) e p ↔ p ≠ t ∧ Reaches advise chain t e p := by
          have h := @reaches_next advise dnw t p chain e ht hawake
          rw [hround] at h; exact h
        refine ⟨AlikeChain.trans halike halike', fun k o o' hk hk' i => ?_⟩
        obtain ⟨hvisited, hother⟩ := hrest k _ o' (hget hk) hk' i
        simp only [hreach, halike.indexAt_eq] at hvisited hother
        constructor
        · intro p hp hi
          by_cases hpt : p = t
          · subst hpt
            rw [hother fun q hq hqi => hq.1 (indexAt_inj hqi hi), hwalked hi]
          · have hcell : (walked advise dnw chain t k o).cell i = o.cell i :=
              walked_cell fun h => hpt (indexAt_inj hi h)
            rw [hvisited p ⟨hpt, hp⟩ hi]; exact (visit_congr walked_alike hcell).1
        · intro hno
          rw [hother fun p hp => hno p hp.2]; exact walked_cell (hno t hfirst)

/-! ## Where a fault looks -/

/-- The place at which a fault for a page of the range looks in object `k`. -/
def Located (chain : List Obj) (pindex : Pindex) (count : BitVec 32) (k : ℕ) (i : Pindex) : Prop :=
  ∃ p, pindex ≤ p ∧ p < endOf pindex count ∧ i = p + faultOffset chain k

/-- Only pages and swap blocks where a fault looks are changed. -/
def OnlyLocated (advise : Advice) (dnw : ℕ → Pindex → BitVec 32) (chain : List Obj)
    (pindex : Pindex) (count : BitVec 32) : Prop :=
  ∀ k o o' i, chain[k]? = some o →
    (vm_object_madvise advise dnw chain pindex count).1[k]? = some o' →
    ¬ Located chain pindex count k i → o'.cell i = o.cell i

/-- `MADV_FREE` finds no swap block. -/
def Obj.Unswapped (o : Obj) (advise : Advice) (i : Pindex) : Prop :=
  advise = .free → o.type = .swap → o.swap i = none

/-- The advice makes no difference to what the object has at the index. -/
def Inert (advise : Advice) (d : BitVec 32) (o : Obj) (i : Pindex) : Prop :=
  o.blocked advise ∨
    match o.pages i with
    | none => o.Unswapped advise i
    | some m =>
      (m.hold_count ≠ 0 ∨ m.wire_count ≠ 0 ∨ m.unmanaged ∨ m.valid ≠ vmPageBitsAll) ∨
        if m.busy then m.wanted ∧ m.referenced
        else advisePage advise d m = m ∧ o.Unswapped advise i

theorem freeSwap_self : (o.freeSwap advise i).cell i = o.cell i ↔ o.Unswapped advise i := by
  unfold Obj.freeSwap Obj.Unswapped
  split_ifs with h
  · show (o.pages i, update o.swap i none i) = (o.pages i, o.swap i) ↔ _
    rw [update_self, Prod.mk.injEq]
    exact ⟨fun hs _ _ => hs.2.symm, fun hs => ⟨rfl, (hs h.1 h.2).symm⟩⟩
  · exact iff_of_true rfl fun ha ht => absurd ⟨ha, ht⟩ h

theorem setPage_self {m m' : Page} (h : o.pages i = some m) :
    (o.setPage i m').cell i = o.cell i ↔ m' = m := by
  show (update o.pages i (some m') i, o.swap i) = (o.pages i, o.swap i) ↔ _
  rw [update_self, h, Prod.mk.injEq, Option.some.injEq]; exact and_iff_left rfl

/-- The page and the swap block of an index change on their own. -/
theorem freeSwap_setPage {m m' : Page} (h : o.pages i = some m) :
    ((o.setPage i m').freeSwap advise i).cell i = o.cell i ↔
      m' = m ∧ o.Unswapped advise i := by
  constructor
  · intro hcell
    have hpages : ((o.setPage i m').freeSwap advise i).pages = (o.setPage i m').pages := by
      unfold Obj.freeSwap
      split_ifs
      all_goals rfl
    have hm : m' = m := by
      rw [← setPage_self h]
      refine Prod.ext ?_ rfl
      show (o.setPage i m').pages i = o.pages i
      rw [← hpages]; exact congrArg Prod.fst hcell
    refine ⟨hm, ?_⟩
    have hsame : (o.setPage i m').cell i = o.cell i := (setPage_self h).2 hm
    have hs : (o.setPage i m').Unswapped advise i := freeSwap_self.1 (hcell.trans hsame.symm)
    exact hs
  · rintro ⟨hm, hs⟩
    have hs' : (o.setPage i m').Unswapped advise i := hs
    rw [freeSwap_self.2 hs', setPage_self h, hm]

theorem inert_iff : (visit advise d o i).1.cell i = o.cell i ↔ Inert advise d o i := by
  unfold visit Inert
  split_ifs with hb
  · exact iff_of_true rfl (.inl hb)
  · rw [or_iff_right hb]
    cases hm : o.pages i with
    | none => exact freeSwap_self
    | some m =>
      dsimp only
      by_cases hskip : m.hold_count ≠ 0 ∨ m.wire_count ≠ 0 ∨ m.unmanaged ∨ m.valid ≠ vmPageBitsAll
      · rw [if_pos hskip]; exact iff_of_true rfl (.inl hskip)
      · rw [if_neg hskip, or_iff_right hskip]
        split_ifs with hbusy
        · refine (setPage_self hm).trans ⟨fun h => ?_, fun h => ?_⟩
          · rw [← h]; exact ⟨rfl, rfl⟩
          · cases m
            simp only at h
            rw [h.1, h.2]
        · exact freeSwap_setPage hm

/-- What each object has after the call. -/
theorem vm_object_madvise_spec (advise : Advice) (dnw : ℕ → Pindex → BitVec 32) (chain : List Obj)
    (pindex : Pindex) (count : BitVec 32) :
    AlikeChain chain (vm_object_madvise advise dnw chain pindex count).1 ∧
      ∀ k o o', chain[k]? = some o →
        (vm_object_madvise advise dnw chain pindex count).1[k]? = some o' → ∀ i,
        (∀ p, Reaches advise chain pindex (endOf pindex count) p →
          indexAt advise chain p k = some i →
          o'.cell i = (visit advise (dnw k i) o i).1.cell i) ∧
        ((∀ p, Reaches advise chain pindex (endOf pindex count) p →
          indexAt advise chain p k ≠ some i) → o'.cell i = o.cell i) :=
  madviseLoop_spec rfl

/-- Only what a fault for a page of the range finds is changed if and only if the walks come to no
    other place at which the advice makes a difference. -/
theorem madvise_iff (advise : Advice) (dnw : ℕ → Pindex → BitVec 32) (chain : List Obj)
    (pindex : Pindex) (count : BitVec 32) :
    OnlyLocated advise dnw chain pindex count ↔
      ∀ p k o i, Reaches advise chain pindex (endOf pindex count) p → chain[k]? = some o →
        indexAt advise chain p k = some i →
        Located chain pindex count k i ∨ Inert advise (dnw k i) o i := by
  obtain ⟨halike, hspec⟩ := vm_object_madvise_spec advise dnw chain pindex count
  constructor
  · intro honly p k o i hp hk hi
    obtain ⟨o', hk', -⟩ := halike.get hk
    by_cases hloc : Located chain pindex count k i
    · exact .inl hloc
    · right
      rw [← inert_iff, ← (hspec k o o' hk hk' i).1 p hp hi]; exact honly k o o' i hk hk' hloc
  · intro hcond k o o' i hk hk' hloc
    by_cases hat : ∃ p, Reaches advise chain pindex (endOf pindex count) p ∧
        indexAt advise chain p k = some i
    · obtain ⟨p, hp, hi⟩ := hat
      have hinert := (hcond p k o i hp hk hi).resolve_left hloc
      rw [(hspec k o o' hk hk' i).1 p hp hi]; exact inert_iff.2 hinert
    · exact (hspec k o o' hk hk' i).2 fun p hp hi => hat ⟨p, hp, hi⟩

/-- A page that nobody uses. -/
def idlePage : Page where
  hold_count := 0
  wire_count := 0
  unmanaged := false
  valid := vmPageBitsAll
  busy := false
  wanted := false
  referenced := false
  winatcfls := false
  dirty := vmPageBitsAll
  modified := false
  act_count := 0
  queue := .inactive

/-- An empty object one page into an object that has pages 0 and 1. -/
def shiftedChain : List Obj :=
  [{ type := .default, onemapping := true, backing_object_offset := 0x1000
     pages := fun _ => none, swap := fun _ => none },
   { type := .default, onemapping := false, backing_object_offset := 0
     pages := fun i => if i = 0 ∨ i = 1 then some idlePage else none, swap := fun _ => none }]

/-- For page 0 of the front object, page 0 of the object behind is activated. A fault finds
    page 1. -/
theorem madvise_other_page : ¬ OnlyLocated .willneed (fun _ _ => 0) shiftedChain 0 1 := by
  intro h
  have hpage := (madvise_iff _ _ _ _ _).1 h 0 1 _ 0 (reaches_first _ _ (by decide)) rfl (by decide)
  obtain ⟨p, -, hp, hi⟩ | hinert := hpage
  · have hp : p = 0 := by
      have hlt : p.toNat < 1 := hp
      exact BitVec.eq_of_toNat_eq (by show p.toNat = 0; omega)
    rw [hp] at hi; exact absurd hi (by decide)
  · have hsame := congrArg Prod.fst (inert_iff.2 hinert)
    exact absurd hsame (by decide)

end FreeBSD.VmObject
