import FreeBSD.Lib.Runs
import FreeBSD.Kern.UipcRights

/-!
# The counts of files in flight, `kern/uipc_usrreq.c`

Each step keeps the counts of a file equal to its references: those from descriptors and queued
messages, and those of the tasks that are left to do. A step loses rights in three places: when
`unp_internalize` rejects a message behind one with descriptors, when `sbappendcontrol` has no room,
and when `sbdroprecord` drops the rest of a datagram whose first rights did not fit.
-/

namespace FreeBSD.UipcUsrreq

open List Function
open Lib (Runs)

variable {s t u : State} {fp gp : Fid} {so : Sid} {p : Pid} {ts : List Task} {fps rs : List Fid}

/-! ## Sums -/

section Sums

variable {ι : Type*} [DecidableEq ι] {S T : Finset ι} {F G : ι → ℕ}

theorem sum_insert_update (i : ι) (v : ℕ) (h : ∀ j, j ∉ S → F j = 0) :
    ∑ j ∈ insert i S, update F i v j + F i = ∑ j ∈ S, F j + v := by
  have hrest : ∑ j ∈ S.erase i, update F i v j = ∑ j ∈ S.erase i, F j :=
    Finset.sum_congr rfl fun j hj => update_of_ne (Finset.ne_of_mem_erase hj) v F
  have hsum : ∑ j ∈ S, F j = F i + ∑ j ∈ S.erase i, F j := by
    by_cases hi : i ∈ S
    · exact (Finset.add_sum_erase S F hi).symm
    · rw [h i hi, Finset.erase_eq_of_notMem hi, zero_add]
  rw [← Finset.add_sum_erase _ _ (Finset.mem_insert_self i S), Finset.erase_insert_eq_erase,
    update_self, hrest, hsum]
  omega

omit [DecidableEq ι] in
theorem sum_eq_of_subset (hST : S ⊆ T) (hFG : ∀ j, G j = F j) (h : ∀ j, j ∉ S → F j = 0) :
    ∑ j ∈ T, G j = ∑ j ∈ S, F j := by
  rw [Finset.sum_congr rfl fun j _ => hFG j]
  exact (Finset.sum_subset hST fun j _ hj => h j hj).symm

end Sums

/-! ## The invariant -/

/-- The rights in all buffers. -/
def rightsTotal (s : State) : ℕ := ∑ so ∈ s.socks, (rightsIn (s.sock so).so_rcv).length

/-- The references that are still to be discarded or closed. -/
def toDiscard (ts : List Task) (fp : Fid) : ℕ := ts.count (.discard fp)
def toClose (ts : List Task) (fp : Fid) : ℕ := ts.count (.closef fp)

def isDiscard : Task → Bool
  | .discard _ => true
  | _ => false

/-- The counts are the true ones, with what is left to do, the files `fps` of messages that are in
    hand, and the references `rs` that are. -/
structure Held (fps rs : List Fid) (s : State) : Prop where
  msgcount : ∀ fp, (s.file fp).f_msgcount = msgRefs s fp + toDiscard s.tasks fp + fps.count fp
  rights : s.unp_rights = rightsTotal s + s.tasks.countP isDiscard + fps.length
  count : ∀ fp, (s.file fp).f_count =
    descRefs s fp + (s.file fp).f_msgcount + toClose s.tasks fp + rs.count fp
  closed : ∀ fp, fp ∉ s.filehead ∨ Task.ffree fp ∈ s.tasks → (s.file fp).f_count = 0
  socks : ∀ so, so ∉ s.socks → (s.sock so).so_rcv = []
  procs : ∀ p, p ∉ s.procs → s.ofiles p = []
  unix : ∀ so, (s.sock so).prRights

abbrev Counts (s : State) : Prop := Held [] [] s

/-- The order of what is in hand does not count. -/
theorem Held.perm {fps' : List Fid} (h : Held fps rs s) (hp : fps.Perm fps') : Held fps' rs s where
  msgcount fp := by rw [← hp.count_eq fp]; exact h.msgcount fp
  rights := by rw [← hp.length_eq]; exact h.rights
  count := h.count
  closed := h.closed
  socks := h.socks
  procs := h.procs
  unix := h.unix

/-- Nothing that is counted changes, and the tasks do not. -/
structure Same (s t : State) : Prop where
  count : ∀ fp, (t.file fp).f_count = (s.file fp).f_count
  msgcount : ∀ fp, (t.file fp).f_msgcount = (s.file fp).f_msgcount
  rcv : ∀ so, (t.sock so).so_rcv = (s.sock so).so_rcv
  unix : ∀ so, (s.sock so).prRights → (t.sock so).prRights
  socks : s.socks ⊆ t.socks
  ofiles : t.ofiles = s.ofiles
  procs : t.procs = s.procs
  rights : t.unp_rights = s.unp_rights
  filehead : t.filehead = s.filehead
  tasks : t.tasks = s.tasks

theorem Same.refl (s : State) : Same s s :=
  ⟨fun _ => rfl, fun _ => rfl, fun _ => rfl, fun _ h => h, fun _ h => h, rfl, rfl, rfl, rfl, rfl⟩

theorem Same.trans (h : Same s t) (h' : Same t u) : Same s u where
  count fp := (h'.count fp).trans (h.count fp)
  msgcount fp := (h'.msgcount fp).trans (h.msgcount fp)
  rcv so := (h'.rcv so).trans (h.rcv so)
  unix so hs := h'.unix so (h.unix so hs)
  socks := h.socks.trans h'.socks
  ofiles := h'.ofiles.trans h.ofiles
  procs := h'.procs.trans h.procs
  rights := h'.rights.trans h.rights
  filehead := h'.filehead.trans h.filehead
  tasks := h'.tasks.trans h.tasks

theorem Same.msgRefs (h : Same s t) (hs : ∀ so, so ∉ s.socks → (s.sock so).so_rcv = [])
    (fp : Fid) : msgRefs t fp = msgRefs s fp :=
  sum_eq_of_subset h.socks (fun so => by rw [h.rcv so]) fun so hso => by rw [hs so hso]; rfl

theorem Same.held (h : Same s t) (hs : Held fps rs s) : Held fps rs t where
  msgcount fp := by rw [h.msgcount fp, h.msgRefs hs.socks fp, h.tasks]; exact hs.msgcount fp
  rights := by
    have htotal : rightsTotal t = rightsTotal s :=
      sum_eq_of_subset h.socks (fun so => by rw [h.rcv so]) fun so hso => by
        rw [hs.socks so hso]; rfl
    rw [h.rights, htotal, h.tasks]; exact hs.rights
  count fp := by
    have hdesc : descRefs t fp = descRefs s fp := by rw [descRefs, descRefs, h.ofiles, h.procs]
    rw [h.count fp, h.msgcount fp, hdesc, h.tasks]; exact hs.count fp
  closed fp hfp := by
    rw [h.filehead, h.tasks] at hfp
    rw [h.count fp]; exact hs.closed fp hfp
  socks so hso := by rw [h.rcv so]; exact hs.socks so fun hmem => hso (h.socks hmem)
  procs p hp := by
    rw [h.procs] at hp
    rw [h.ofiles]; exact hs.procs p hp
  unix so := h.unix so (hs.unix so)

/-! ## Tasks -/

theorem toDiscard_append (ts us : List Task) (fp : Fid) :
    toDiscard (ts ++ us) fp = toDiscard ts fp + toDiscard us fp := count_append ..

theorem toClose_append (ts us : List Task) (fp : Fid) :
    toClose (ts ++ us) fp = toClose ts fp + toClose us fp := count_append ..

theorem count_map_discard (fps : List Fid) (fp : Fid) :
    toDiscard (fps.map Task.discard) fp = fps.count fp :=
  count_map_of_injective fps Task.discard (fun _ _ h => Task.discard.inj h) fp

theorem count_map_closef (fps : List Fid) (fp : Fid) :
    toClose (fps.map Task.closef) fp = fps.count fp :=
  count_map_of_injective fps Task.closef (fun _ _ h => Task.closef.inj h) fp

/-- The tasks `ts` come on top, the files of `fps'` and the references of `rs'` are in hand no
    more; they are what the tasks discard and close. -/
theorem Held.push {fps' rs' : List Fid} (h : Held fps rs s)
    (hd : ∀ fp, toDiscard ts fp + fps'.count fp = fps.count fp)
    (hlen : ts.countP isDiscard + fps'.length = fps.length)
    (hc : ∀ fp, toClose ts fp + rs'.count fp = rs.count fp)
    (hf : ∀ fp, Task.ffree fp ∈ ts → (s.file fp).f_count = 0) :
    Held fps' rs' (s.push ts) where
  msgcount fp := by
    have hm := h.msgcount fp
    have hfp := hd fp
    show (s.file fp).f_msgcount = msgRefs s fp + toDiscard (ts ++ s.tasks) fp + fps'.count fp
    rw [toDiscard_append]; omega
  rights := by
    have hr := h.rights
    show s.unp_rights = rightsTotal s + (ts ++ s.tasks).countP isDiscard + fps'.length
    rw [countP_append]; omega
  count fp := by
    have hm := h.count fp
    have hfp := hc fp
    show (s.file fp).f_count = descRefs s fp + (s.file fp).f_msgcount +
      toClose (ts ++ s.tasks) fp + rs'.count fp
    rw [toClose_append]; omega
  closed fp hfp := by
    rcases hfp with hfp | hfp
    · exact h.closed fp (.inl hfp)
    · rcases mem_append.mp hfp with hfp | hfp
      · exact hf fp hfp
      · exact h.closed fp (.inr hfp)
  socks := h.socks
  procs := h.procs
  unix := h.unix

/-- The uppermost task is taken; what it discards or closes is in hand then. -/
theorem Held.pop {x : Task} {fps' rs' : List Fid} (h : Held fps rs s) (hx : s.tasks = x :: ts)
    (hd : ∀ fp, fps'.count fp = toDiscard [x] fp + fps.count fp)
    (hlen : fps'.length = [x].countP isDiscard + fps.length)
    (hc : ∀ fp, rs'.count fp = toClose [x] fp + rs.count fp) :
    Held fps' rs' { s with tasks := ts } where
  msgcount fp := by
    have hm := h.msgcount fp
    have hfp := hd fp
    rw [hx, ← singleton_append, toDiscard_append] at hm
    show (s.file fp).f_msgcount = msgRefs s fp + toDiscard ts fp + fps'.count fp
    omega
  rights := by
    have hr := h.rights
    rw [hx, ← singleton_append, countP_append] at hr
    show s.unp_rights = rightsTotal s + ts.countP isDiscard + fps'.length
    omega
  count fp := by
    have hm := h.count fp
    have hfp := hc fp
    rw [hx, ← singleton_append, toClose_append] at hm
    show (s.file fp).f_count = descRefs s fp + (s.file fp).f_msgcount + toClose ts fp + rs'.count fp
    omega
  closed fp hfp := h.closed fp (hfp.imp_right fun hmem => hx ▸ mem_cons_of_mem x hmem)
  socks := h.socks
  procs := h.procs
  unix := h.unix

/-- A task that discards, closes and frees nothing. -/
def Idle : Task → Prop
  | .discard _ | .closef _ | .ffree _ => False
  | _ => True

theorem idle_counts (h : ∀ x ∈ ts, Idle x) :
    (∀ fp, toDiscard ts fp = 0) ∧ ts.countP isDiscard = 0 ∧ (∀ fp, toClose ts fp = 0) ∧
      ∀ fp, Task.ffree fp ∉ ts := by
  refine ⟨fun fp => ?_, ?_, fun fp => ?_, fun fp hmem => h _ hmem⟩
  · exact count_eq_zero.mpr fun hmem => h _ hmem
  · refine countP_eq_zero.mpr fun x hx => ?_
    have hi := h x hx
    cases x with
    | discard fp => exact absurd hi id
    | _ => exact Bool.false_ne_true
  · exact count_eq_zero.mpr fun hmem => h _ hmem

theorem Held.push_idle (h : Held fps rs s) (hts : ∀ x ∈ ts, Idle x) : Held fps rs (s.push ts) := by
  obtain ⟨hd, hlen, hc, hf⟩ := idle_counts hts
  refine h.push (fun fp => ?_) ?_ (fun fp => ?_) fun fp hmem => absurd hmem (hf fp)
  · rw [hd fp, zero_add]
  · rw [hlen, zero_add]
  · rw [hc fp, zero_add]

theorem Held.pop_idle {x : Task} (h : Held fps rs s) (hx : s.tasks = x :: ts) (hi : Idle x) :
    Held fps rs { s with tasks := ts } := by
  have hall : ∀ y ∈ [x], Idle y := fun y hy => mem_singleton.mp hy ▸ hi
  obtain ⟨hd, hlen, hc, -⟩ := idle_counts hall
  refine h.pop hx (fun fp => ?_) ?_ fun fp => ?_
  · rw [hd fp, zero_add]
  · rw [hlen, zero_add]
  · rw [hc fp, zero_add]

theorem countP_map_discard (fps : List Fid) :
    (fps.map Task.discard).countP isDiscard = fps.length := by
  rw [countP_map]; exact countP_eq_length.mpr fun _ _ => rfl

/-- The files of a message are discarded. -/
theorem Held.push_discards (h : Held fps rs s) : Held [] rs (s.push (fps.map Task.discard)) := by
  refine h.push (fun fp => ?_) ?_ (fun fp => ?_) fun fp hmem => ?_
  · rw [count_map_discard]; rfl
  · rw [countP_map_discard]; rfl
  · have hnone : toClose (fps.map Task.discard) fp = 0 := by
      refine count_eq_zero.mpr fun hmem => ?_
      obtain ⟨x, -, hx⟩ := mem_map.mp hmem
      cases hx
    rw [hnone, zero_add]
  · obtain ⟨x, -, hx⟩ := mem_map.mp hmem
    cases hx

/-- The references in hand are closed. -/
theorem Held.push_closefs {rs' : List Fid} (h : Held fps rs s) (hrs : rs'.Perm rs) :
    Held fps [] (s.push (rs'.map Task.closef)) := by
  have hnone : ∀ x ∈ rs'.map Task.closef, isDiscard x = false := by
    intro x hx
    obtain ⟨fp, -, rfl⟩ := mem_map.mp hx
    rfl
  refine h.push (fun fp => ?_) ?_ (fun fp => ?_) fun fp hmem => ?_
  · have hzero : toDiscard (rs'.map Task.closef) fp = 0 :=
      count_eq_zero.mpr fun hmem => absurd (hnone _ hmem).symm Bool.false_ne_true
    rw [hzero, zero_add]
  · have hzero : (rs'.map Task.closef).countP isDiscard = 0 :=
      countP_eq_zero.mpr fun x hx => by rw [hnone x hx]; exact Bool.false_ne_true
    rw [hzero, zero_add]
  · rw [count_map_closef, hrs.count_eq fp]; rfl
  · obtain ⟨x, -, hx⟩ := mem_map.mp hmem
    cases hx

/-! ## Buffers and tables -/

/-- Files go from hand into a buffer, or from a buffer into hand. -/
theorem Held.setSock {x : Socket} {fps' : List Fid} (h : Held fps rs s) (hx : x.prRights)
    (hperm : (rightsIn x.so_rcv ++ fps').Perm (rightsIn (s.sock so).so_rcv ++ fps)) :
    Held fps' rs (s.setSock so x) where
  msgcount fp := by
    have hm := h.msgcount fp
    have hsum := sum_insert_update so ((rightsIn x.so_rcv).count fp)
      (F := fun so => (rightsIn (s.sock so).so_rcv).count fp) (fun so hso => by
        rw [h.socks so hso]
        rfl)
    have hrefs : msgRefs (s.setSock so x) fp = ∑ j ∈ insert so s.socks,
        update (fun so => (rightsIn (s.sock so).so_rcv).count fp) so
          ((rightsIn x.so_rcv).count fp) j :=
      Finset.sum_congr rfl fun j _ =>
        State.setSock_apply (fun y => (rightsIn y.so_rcv).count fp) s so x j
    have hcount := hperm.count_eq fp
    rw [count_append, count_append] at hcount
    rw [← hrefs] at hsum
    have hbase : msgRefs s fp = ∑ so ∈ s.socks, (rightsIn (s.sock so).so_rcv).count fp := rfl
    show (s.file fp).f_msgcount = msgRefs (s.setSock so x) fp + toDiscard s.tasks fp + fps'.count fp
    omega
  rights := by
    have hr := h.rights
    have hsum := sum_insert_update so (rightsIn x.so_rcv).length
      (F := fun so => (rightsIn (s.sock so).so_rcv).length) (fun so hso => by
        rw [h.socks so hso]
        rfl)
    have htotal : rightsTotal (s.setSock so x) = ∑ j ∈ insert so s.socks,
        update (fun so => (rightsIn (s.sock so).so_rcv).length) so
          (rightsIn x.so_rcv).length j :=
      Finset.sum_congr rfl fun j _ =>
        State.setSock_apply (fun y => (rightsIn y.so_rcv).length) s so x j
    have hlen := hperm.length_eq
    rw [length_append, length_append] at hlen
    rw [← htotal] at hsum
    have hbase : rightsTotal s = ∑ so ∈ s.socks, (rightsIn (s.sock so).so_rcv).length := rfl
    show s.unp_rights = rightsTotal (s.setSock so x) + s.tasks.countP isDiscard + fps'.length
    omega
  count := h.count
  closed := h.closed
  socks so' hso' := by
    have hne : so' ≠ so := fun heq => hso' (heq ▸ Finset.mem_insert_self so s.socks)
    rw [State.setSock_ne s x hne]
    exact h.socks so' fun hmem => hso' (Finset.mem_insert_of_mem hmem)
  procs := h.procs
  unix so' := by
    by_cases hso : so' = so
    · rw [hso, State.setSock_self]; exact hx
    · rw [State.setSock_ne s x hso]; exact h.unix so'

/-- References go from hand into a descriptor table, or from a table into hand. -/
theorem Held.setTable {l : List (Option Fid)} {rs' : List Fid} (h : Held fps rs s)
    (hl : ∀ fp, l.count (some fp) + rs'.count fp = (s.ofiles p).count (some fp) + rs.count fp) :
    Held fps rs' (s.setTable p l) where
  msgcount := h.msgcount
  rights := h.rights
  count fp := by
    have hm := h.count fp
    have hlp := hl fp
    have hsum := sum_insert_update p (l.count (some fp))
      (F := fun p => (s.ofiles p).count (some fp)) (fun p hp => by
        rw [h.procs p hp]
        rfl)
    have hrefs : descRefs (s.setTable p l) fp = ∑ j ∈ insert p s.procs,
        update (fun p => (s.ofiles p).count (some fp)) p (l.count (some fp)) j :=
      Finset.sum_congr rfl fun j _ => State.setTable_apply (fun y => y.count (some fp)) s p l j
    rw [← hrefs] at hsum
    have hbase : descRefs s fp = ∑ p ∈ s.procs, (s.ofiles p).count (some fp) := rfl
    show (s.file fp).f_count = descRefs (s.setTable p l) fp + (s.file fp).f_msgcount +
      toClose s.tasks fp + rs'.count fp
    omega
  closed := h.closed
  socks := h.socks
  procs q hq := by
    have hne : q ≠ p := fun heq => hq (heq ▸ Finset.mem_insert_self p s.procs)
    show update s.ofiles p l q = []
    rw [update_of_ne hne]; exact h.procs q fun hmem => hq (Finset.mem_insert_of_mem hmem)
  unix := h.unix

/-! ## Counts -/

/-- A file whose counts are changed by `d` and `e`. -/
theorem Held.setFile {f : File} {fps' rs' : List Fid} (h : Held fps rs s) (fp : Fid) (n : ℤ)
    (hm : f.f_msgcount + fps.count fp = (s.file fp).f_msgcount + fps'.count fp)
    (hf : f.f_count + (s.file fp).f_msgcount + rs.count fp =
      (s.file fp).f_count + f.f_msgcount + rs'.count fp)
    (hfps : ∀ gp, gp ≠ fp → fps'.count gp = fps.count gp)
    (hrs : ∀ gp, gp ≠ fp → rs'.count gp = rs.count gp)
    (hn : n + fps.length = s.unp_rights + fps'.length)
    (hclosed : fp ∉ s.filehead ∨ Task.ffree fp ∈ s.tasks → f.f_count = 0) :
    Held fps' rs' { s.setFile fp f with unp_rights := n } where
  msgcount gp := by
    have hg := h.msgcount gp
    show (update s.file fp f gp).f_msgcount =
      msgRefs s gp + toDiscard s.tasks gp + fps'.count gp
    by_cases hgp : gp = fp
    · subst hgp
      rw [update_self]; omega
    · rw [update_of_ne hgp, hfps gp hgp]; exact hg
  rights := by
    have hr := h.rights
    show n = rightsTotal s + s.tasks.countP isDiscard + fps'.length
    omega
  count gp := by
    have hg := h.count gp
    show (update s.file fp f gp).f_count = descRefs s gp +
      (update s.file fp f gp).f_msgcount + toClose s.tasks gp + rs'.count gp
    by_cases hgp : gp = fp
    · subst hgp
      rw [update_self]; omega
    · rw [update_of_ne hgp, hrs gp hgp]; exact hg
  closed gp hgp := by
    have hg := h.closed gp hgp
    show (update s.file fp f gp).f_count = 0
    by_cases heq : gp = fp
    · rw [heq, update_self]; exact hclosed (heq ▸ hgp)
    · rw [update_of_ne heq]; exact hg
  socks := h.socks
  procs := h.procs
  unix := h.unix

theorem Held.nonneg (h : Held fps rs s) (fp : Fid) :
    0 ≤ (s.file fp).f_msgcount ∧ (s.file fp).f_msgcount ≤ (s.file fp).f_count := by
  have hm := h.msgcount fp
  have hc := h.count fp; omega

/-- A reference from a message is taken. -/
theorem Held.hold (h : Held fps rs s) (hopen : (s.file fp).f_count ≠ 0) :
    Held (fp :: fps) rs (hold s fp) := by
  refine h.setFile fp (s.unp_rights + 1) ?_ ?_ (fun gp hgp => ?_) (fun _ _ => rfl) ?_
    fun hc => absurd (h.closed fp hc) hopen
  · rw [count_cons_self]
    push_cast; ring
  · ring
  · exact count_cons_of_ne (Ne.symm hgp)
  · rw [length_cons]
    push_cast; ring

/-- A file leaves the message in hand, and its reference stays in hand. -/
theorem Held.unhold (h : Held (fp :: fps) rs s) :
    Held fps (fp :: rs)
      { s.setFile fp { s.file fp with f_msgcount := (s.file fp).f_msgcount - 1 } with
        unp_rights := s.unp_rights - 1 } := by
  refine h.setFile fp (s.unp_rights - 1) ?_ ?_ (fun gp hgp => ?_) (fun gp hgp => ?_) ?_
    fun hc => h.closed fp hc
  · rw [count_cons_self]
    push_cast; ring
  · rw [count_cons_self]
    push_cast; ring
  · exact (count_cons_of_ne (Ne.symm hgp)).symm
  · exact count_cons_of_ne (Ne.symm hgp)
  · rw [length_cons]
    push_cast; ring

/-- A reference in hand is taken or dropped. -/
theorem Held.ref (h : Held fps rs s) (hopen : (s.file fp).f_count ≠ 0) :
    Held fps (fp :: rs)
      (s.setFile fp { s.file fp with f_count := (s.file fp).f_count + 1 }) := by
  refine h.setFile fp s.unp_rights rfl ?_ (fun _ _ => rfl) (fun gp hgp => ?_) rfl
    fun hc => absurd (h.closed fp hc) hopen
  · rw [count_cons_self]
    push_cast; ring
  · exact count_cons_of_ne (Ne.symm hgp)

theorem Held.unref (h : Held fps (fp :: rs) s) :
    Held fps rs (s.setFile fp { s.file fp with f_count := (s.file fp).f_count - 1 }) := by
  have hpos : (s.file fp).f_count ≠ 0 := by
    have hc := h.count fp
    have hn := h.nonneg fp
    rw [count_cons_self] at hc
    push_cast at hc; omega
  refine h.setFile fp s.unp_rights rfl ?_ (fun _ _ => rfl) (fun gp hgp => ?_) rfl
    fun hc => absurd (h.closed fp hc) hpos
  · rw [count_cons_self]
    push_cast; ring
  · exact (count_cons_of_ne (Ne.symm hgp)).symm

end FreeBSD.UipcUsrreq
