import FreeBSD.Lib.Runs
import FreeBSD.Vm.VmMapOps

/-!
# Runs of the operations of an address map

Results:
* `map_of_run`: in every run in which `vm_map_submap` clips no entry behind its range, the entries
  are sorted and disjoint, the tree and the list agree, and a search answers what it should.
* `clipped_behind_range`: without this, an entry may end in front of its start.
-/

namespace FreeBSD.Vm.VmMap

open Lib List

/-- The calls. -/
inductive Op where
  | insert (object : Option ℕ) (offset : ℤ) (start end_ : ℕ) (prot max : VmProt) (cow : CowFlags)
  | delete (start end_ : ℕ)
  | protect (start end_ : ℕ) (newProt : VmProt) (setMax : Bool)
  | inherit (start end_ : ℕ) (newInheritance : VmInherit)
  | submap (start end_ submap : ℕ)
  | simplifyEntry (entry : ℕ)
  | lookupEntry (address : ℕ)

/-- The answers. -/
inductive Answer where
  | kern (r : KernReturn)
  | looked (found : Bool) (entry : ℕ)
  | done

/-- A call, with the answers of the objects to it. -/
def step (m : VmMap) : ObjectEnv × Op → Option (VmMap × Answer)
  | (env, .insert object offset start end_ prot max cow) =>
    (m.insert env object offset start end_ prot max cow).map fun (m, r) => (m, .kern r)
  | (env, .delete start end_) => (m.delete env start end_).map fun (m, r) => (m, .kern r)
  | (env, .protect start end_ newProt setMax) =>
    (m.protect env start end_ newProt setMax).map fun (m, r) => (m, .kern r)
  | (env, .inherit start end_ newInheritance) =>
    (m.inherit env start end_ newInheritance).map fun (m, r) => (m, .kern r)
  | (env, .submap start end_ submap) =>
    (m.submap env start end_ submap).map fun (m, r) => (m, .kern r)
  | (_, .simplifyEntry entry) => (m.simplifyEntry entry).map fun m => (m, .done)
  | (_, .lookupEntry address) => (m.lookupEntry address).map fun (m, found, e) =>
      (m, .looked found e)

/-- An entry that is simplified is on the list of the map. -/
def Wellformed (m : VmMap) : ObjectEnv × Op → Prop
  | (_, .simplifyEntry entry) =>
    ∃ ids, Ring m.next m.prev header ids ∧ header ∉ ids ∧ entry ∈ ids
  | _ => True

/-- `vm_map_submap` clips no entry behind its range. -/
def Clips (m : VmMap) : ObjectEnv × Op → Prop
  | (_, .submap start end_ _) => m.SubmapFits start end_
  | _ => True

/-- A range that is inserted fits the hint, and no submap is made. -/
def Hinted (m : VmMap) : ObjectEnv × Op → Prop
  | (_, .insert _ _ start end_ _ _ _) =>
    ∀ ids, Ring m.next m.prev header ids → header ∉ ids → m.HintFits ids start end_
  | (_, .submap ..) => False
  | _ => True

/-- What the entries `ids` are. -/
structure Organized (min max : ℕ) (m : VmMap) (ids : List ℕ) : Prop where
  list : Ring m.next m.prev header ids
  nodup : (header :: ids).Nodup
  nonempty : ∀ e ∈ ids, (m.entry e).start < (m.entry e).end_
  sorted : ids.Pairwise fun a b => (m.entry a).end_ ≤ (m.entry b).start
  inside : ∀ e ∈ ids, min ≤ (m.entry e).start ∧ (m.entry e).end_ ≤ max
  tree : ∃ t, IsTree m.links m.root t ∧ inorder t = ids
  nentries : m.nentries = ids.length
  /-- The search finds the entry that contains the address if there is one, and else the last one
      that ends at the address or in front of it, or the header. -/
  lookup : ∀ a, ∃ m' found e, m.lookupEntry a = some (m', found, e) ∧
    (found = true ↔ ∃ b ∈ ids, (m.entry b).start ≤ a ∧ a < (m.entry b).end_) ∧
    if found then e ∈ ids ∧ (m.entry e).start ≤ a ∧ a < (m.entry e).end_
    else e = (ids.filter fun b => (m.entry b).end_ ≤ a).getLastD header

variable {m : VmMap} {ids : List ℕ} {lo top : ℕ}

theorem Valid.organized (h : Valid lo top m ids) : Organized lo top m ids where
  list := h.wf.linked.ring
  nodup := h.wf.linked.nodup_header
  nonempty := fun e he => (h.wf.ranges.bounds e he).lt
  sorted := h.wf.ranges.sorted
  inside := fun e he => ⟨(h.wf.ranges.bounds e he).lo_le, (h.wf.ranges.bounds e he).le_top⟩
  tree := h.wf.linked.tree
  nentries := h.wf.linked.nentries
  lookup := by
    intro a
    obtain ⟨k, r, found, e, hlook, -, xs, ys, hxs, hys, hres⟩ :=
      lookupEntry_spec h.wf.linked h.wf.ranges a
    refine ⟨_, found, e, hlook, ?_, ?_⟩
    · cases found with
      | true =>
        obtain ⟨rfl, hs, he⟩ : ids = xs ++ e :: ys ∧ (m.entry e).start ≤ a ∧
            a < (m.entry e).end_ := by simpa using hres
        exact ⟨fun _ => ⟨e, by simp, hs, he⟩, fun _ => rfl⟩
      | false =>
        obtain ⟨rfl, -⟩ : ids = xs ++ ys ∧ e = xs.getLastD header := by simpa using hres
        refine ⟨fun hf => absurd hf (by simp), ?_⟩
        rintro ⟨b, hb, hs, he⟩
        exfalso
        rcases mem_append.1 hb with hb | hb
        · have := hxs b hb; omega
        · have := hys b hb; omega
    · cases found with
      | true =>
        obtain ⟨rfl, hs, he⟩ : ids = xs ++ e :: ys ∧ (m.entry e).start ≤ a ∧
            a < (m.entry e).end_ := by simpa using hres
        rw [if_pos rfl]; exact ⟨by simp, hs, he⟩
      | false =>
        obtain ⟨rfl, he⟩ : ids = xs ++ ys ∧ e = xs.getLastD header := by simpa using hres
        rw [if_neg (by simp)]
        have hfx : xs.filter (fun b => (m.entry b).end_ ≤ a) = xs := by
          simpa [filter_eq_self] using hxs
        have hfy : ys.filter (fun b => (m.entry b).end_ ≤ a) = [] := by
          rw [filter_eq_nil_iff]
          intro b hb
          have hlt := (h.wf.ranges.bounds b (mem_append_right _ hb)).lt
          have := hys b hb
          rw [decide_eq_true_eq]; omega
        rw [filter_append, hfx, hfy, append_nil, he]

theorem init_valid (systemMap : Bool) (min max : ℕ) : Valid min max (init systemMap min max)
    [] := by
  refine ⟨⟨⟨ring_nil rfl rfl, ⟨.nil, rfl, rfl⟩, by decide, ?_, rfl⟩, ⟨List.Pairwise.nil, by simp⟩,
    rfl, rfl⟩, rfl⟩
  intro e he
  have hmem : e = 1 ∨ e = 0 := by simpa [dummy, header] using he
  show e < 2
  omega

/-- Every call ends, and leaves the map valid. -/
theorem step_spec (h : Valid lo top m ids) (hset : Settled m ids) {call : ObjectEnv × Op}
    (hw : m.Wellformed call) (hc : m.Clips call) :
    ∃ m' r ids', m.step call = some (m', r) ∧ Left lo top m ids (m.Hinted call) m' ids' := by
  obtain ⟨env, op⟩ := call
  cases op with
  | insert object offset start end_ prot max cow =>
    obtain ⟨m', r, ids', hs, hl⟩ := insert_spec env h object offset start end_ prot max cow
    exact ⟨m', .kern r, ids', by simp [step, hs], hl.valid, hl.settled, fun hcall =>
      hl.hint (hcall ids h.wf.linked.ring h.wf.header_notMem)⟩
  | delete start end_ =>
    obtain ⟨m', r, ids', hs, hl, -⟩ := delete_spec env h hset start end_
    exact ⟨m', .kern r, ids', by simp [step, hs], hl⟩
  | protect start end_ newProt setMax =>
    obtain ⟨m', r, ids', hs, hl, -⟩ := protect_spec env h start end_ newProt setMax
    exact ⟨m', .kern r, ids', by simp [step, hs], hl⟩
  | inherit start end_ newInheritance =>
    obtain ⟨m', r, ids', hs, hl⟩ := inherit_spec env h start end_ newInheritance
    exact ⟨m', .kern r, ids', by simp [step, hs], hl⟩
  | submap start end_ submap =>
    obtain ⟨m', r, ids', hs, hl⟩ := submap_spec env h hc submap
    exact ⟨m', .kern r, ids', by simp [step, hs], hl⟩
  | simplifyEntry entry =>
    obtain ⟨ids₁, hring, hheader, hmem⟩ := hw
    obtain rfl := hring.unique h.wf.linked.ring hheader h.wf.header_notMem
    obtain ⟨xs, ys, rfl⟩ := append_of_mem hmem
    obtain ⟨m', xs', ys', hs, hg⟩ := simplifyEntry_spec h.wf
    exact ⟨m', .done, _, by simp [step, hs], h.left hg.wf hg.kept⟩
  | lookupEntry address =>
    obtain ⟨k, r, found, e, hs, hl, -⟩ := lookupEntry_spec h.wf.linked h.wf.ranges address
    exact ⟨_, .looked found e, ids, by simp only [step, hs, Option.map_some],
      h.left (h.wf.relink hl h.wf.ranges) (.looked m k r)⟩

/-- In every run in which `vm_map_submap` clips no entry behind its range, the entries of the map
    are organized. -/
theorem map_of_run {systemMap : Bool} {min max : ℕ}
    (hrun : Runs step (fun m call => m.Wellformed call ∧ m.Clips call) (init systemMap min max) m) :
    ∃ ids, Organized min max m ids := by
  have hvalid : ∃ ids, Valid min max m ids ∧ Settled m ids := by
    refine hrun.invariant (I := fun m => ∃ ids, Valid min max m ids ∧ Settled m ids)
      ⟨[], init_valid systemMap min max, by simp [Settled]⟩ ?_
    rintro m call m' r ⟨ids, h, hset⟩ ⟨hw, hc⟩ hstep
    obtain ⟨m₁, r₁, ids', hs, hl⟩ := step_spec h hset hw hc
    obtain ⟨rfl, -⟩ := Prod.mk.inj (Option.some.inj (hs.symm.trans hstep))
    exact ⟨ids', hl.valid, hl.settled hset⟩
  obtain ⟨ids, hv, -⟩ := hvalid
  exact ⟨ids, hv.organized⟩

/-- Objects are never extended, and all allocated objects are one. -/
def plainEnv : ObjectEnv := ⟨fun _ _ _ _ => false, fun _ => 0⟩

/-- A run of one insertion. -/
theorem map_of_run_first : ∃ m r,
    step (init false 0 100) (plainEnv, .insert none 0 48 64 3 7 {}) = some (m, r) ∧
    ∃ ids, Organized 0 100 m ids := by
  have hcall : (init false 0 100).Wellformed (plainEnv, .insert none 0 48 64 3 7 {}) ∧
      (init false 0 100).Clips (plainEnv, .insert none 0 48 64 3 7 {}) := ⟨trivial, trivial⟩
  exact ⟨_, _, rfl, map_of_run (Runs.refl.tail hcall rfl)⟩

/-- `vm_map_submap` of a range without entries clips the next entry, which then ends in front of
    its start. -/
theorem clipped_behind_range : ¬ ∀ m, Runs step (fun m call => m.Wellformed call)
    (init false 0 100) m → ∃ ids, Organized 0 100 m ids := by
  intro hall
  obtain ⟨m, hrun, hm⟩ := Lib.exists_of_exec step (P := fun m call => m.Wellformed call)
    (s := init false 0 100)
    (f := fun m => (m.next header, (m.entry (m.next header)).start,
      (m.entry (m.next header)).end_))
    (b := (2, 48, 32))
    [(plainEnv, .insert none 0 48 64 3 7 {}), (plainEnv, .submap 16 32 7)]
    (by
      intro s op hop
      simp only [mem_cons, not_mem_nil, or_false] at hop
      rcases hop with rfl | rfl <;> trivial)
    (by decide +kernel)
  obtain ⟨ids, h⟩ := hall m hrun
  obtain ⟨hnext, hstart, hend⟩ : m.next header = 2 ∧ (m.entry (m.next header)).start = 48 ∧
      (m.entry (m.next header)).end_ = 32 := by simpa using hm
  have hhead : m.next header = ids.headD header := (h.list [] ids rfl).1
  cases ids with
  | nil => exact absurd (hhead.symm.trans hnext) (by decide)
  | cons e ids =>
    have hlt := h.nonempty e (by simp)
    rw [hhead, headD_cons] at hstart hend; omega

end FreeBSD.Vm.VmMap
