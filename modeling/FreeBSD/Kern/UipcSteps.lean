import FreeBSD.Kern.UipcCounts

/-!
# The steps keep the counts, `kern/uipc_usrreq.c`
-/

namespace FreeBSD.UipcUsrreq

open List Option

variable {s t u : State} {fp gp : Fid} {so : Sid} {p : Pid} {ts : List Task} {fps rs : List Fid}

/-! ## Sockets -/

theorem same_setSock {x : Socket} (hrcv : x.so_rcv = (s.sock so).so_rcv)
    (hx : (s.sock so).prRights → x.prRights) : Same s (s.setSock so x) where
  count _ := rfl
  msgcount _ := rfl
  rcv so' := by
    by_cases h : so' = so
    · rw [h, State.setSock_self, hrcv]
    · rw [State.setSock_ne s x h]
  unix so' hs := by
    by_cases h : so' = so
    · rw [h, State.setSock_self]; exact hx (h ▸ hs)
    · rwa [State.setSock_ne s x h]
  socks := Finset.subset_insert so s.socks
  ofiles := rfl
  procs := rfl
  rights := rfl
  filehead := rfl
  tasks := rfl

theorem soisdisconnected_same (s : State) (so : Sid) : Same s (soisdisconnected s so) :=
  same_setSock rfl id

theorem unpUnlink_same (s : State) (so : Sid) : Same s (unpUnlink s so) := same_setSock rfl id

theorem unpDisconnect_same (s : State) (so : Sid) : Same s (unpDisconnect s so) := by
  rw [unpDisconnect]
  split
  · exact Same.refl s
  · rename_i so2 _
    split
    · exact same_setSock rfl id
    · refine Same.trans ?_ (soisdisconnected_same _ so2)
      refine Same.trans ?_ (unpUnlink_same _ so2)
      exact (unpUnlink_same s so).trans (soisdisconnected_same _ so)

theorem unpDropRefs_same (s : State) (so : Sid) : Same s (unpDropRefs s so) := by
  have hsock : ∀ x, ((unpDropRefs s so).sock x).so_rcv = (s.sock x).so_rcv ∧
      ((unpDropRefs s so).sock x).prRights = (s.sock x).prRights := by
    intro x
    rw [unpDropRefs]
    dsimp only
    split
    · exact ⟨rfl, rfl⟩
    · exact ⟨rfl, rfl⟩
  exact ⟨fun _ => rfl, fun _ => rfl, fun x => (hsock x).1, fun x hx => (hsock x).2.trans hx,
    fun _ h => h, rfl, rfl, rfl, rfl, rfl⟩

theorem forall_mem_pair {α : Type*} {P : α → Prop} {a b : α} (ha : P a) (hb : P b) :
    ∀ x ∈ [a, b], P x := by
  intro x hx
  rcases mem_cons.mp hx with rfl | hx
  · exact ha
  · exact mem_singleton.mp hx ▸ hb

theorem unpDetach_counts (h : Counts s) (so : Sid) : Counts (unpDetach s so) := by
  rw [unpDetach]
  split
  · exact h
  · have hlost := (unpDisconnect_same s so).trans (unpDropRefs_same _ so)
    have hsame := hlost.trans (soisdisconnected_same _ so)
    dsimp only
    split
    · refine Held.push_idle (Same.held (hsame.trans (same_setSock rfl id)) h) ?_
      exact forall_mem_pair (P := Idle) (a := .sorflush so) (b := .gc) trivial trivial
    · exact Same.held (hsame.trans (same_setSock rfl id)) h

theorem soclose_counts (h : Counts s) (so : Sid) : Counts (soclose s so) := by
  rw [soclose]
  have hsame : Same s
      (if (s.sock so).acceptconn then
        s.setSock so { s.sock so with so_incomp := [], so_comp := [] } else s) := by
    split
    · exact same_setSock rfl id
    · exact Same.refl s
  refine (hsame.held h).push_idle fun x hx => ?_
  rcases mem_append.mp hx with hx | hx
  · obtain ⟨so', -, rfl⟩ := mem_map.mp hx
    trivial
  · exact forall_mem_pair (P := Idle) (a := .unpDetach so) (b := .sofree so) trivial trivial x hx

theorem push_one {x : Task} (h : Held fps rs s) (hx : Idle x) : Held fps rs (s.push [x]) :=
  h.push_idle fun _ hy => mem_singleton.mp hy ▸ hx

theorem sorflush_counts (h : Counts s) (so : Sid) : Counts (sorflush s so) := by
  rw [sorflush, if_pos (h.unix so)]
  have hempty : Held (rightsIn (s.sock so).so_rcv) []
    (s.setSock so { s.sock so with so_rcv := [] }) :=
    h.setSock (h.unix so) (by
      rw [append_nil]
      exact List.Perm.refl _)
  exact hempty.push_discards

/-! ## Files -/

theorem same_setFile {f : File} (hc : f.f_count = (s.file fp).f_count)
    (hm : f.f_msgcount = (s.file fp).f_msgcount) : Same s (s.setFile fp f) := by
  have hfile : ∀ gp, ((s.setFile fp f).file gp).f_count = (s.file gp).f_count ∧
      ((s.setFile fp f).file gp).f_msgcount = (s.file gp).f_msgcount := by
    intro gp
    by_cases h : gp = fp
    · rw [h, State.setFile_self]; exact ⟨hc, hm⟩
    · rw [State.setFile_ne s f h]; exact ⟨rfl, rfl⟩
  exact ⟨fun gp => (hfile gp).1, fun gp => (hfile gp).2, fun _ => rfl, fun _ h => h, fun _ h => h,
    rfl, rfl, rfl, rfl, rfl⟩

theorem unpDiscard_counts (h : Held [fp] [] s) : Counts (unpDiscard s fp) :=
  h.unhold.push_closefs (List.Perm.refl [fp])

theorem push_ffree_counts (h : Counts s) (hfp : (s.file fp).f_count = 0) :
    Counts (s.push [.ffree fp]) := by
  refine h.push (fun _ => rfl) rfl (fun _ => rfl) fun gp hgp => ?_
  have heq := mem_singleton.mp hgp
  rw [Task.ffree.inj heq]; exact hfp

/-- A reference is dropped, and with the last one the file is closed. -/
theorem closef_counts (h : Held [] [fp] s) (hrun : closef s fp = some t) : Counts t := by
  have hdrop := h.unref
  rw [closef] at hrun
  dsimp only at hrun
  split at hrun
  · obtain rfl := some.inj hrun
    exact hdrop
  · split at hrun
    · cases hrun
    · have hzero : (s.file fp).f_count - 1 = 0 := by omega
      split at hrun
      · obtain rfl := some.inj hrun
        refine push_ffree_counts hdrop ?_
        rw [State.setFile_self]; exact hzero
      · rename_i so _
        obtain rfl := some.inj hrun
        have hclosed : ∀ t : State, Counts t → (t.file fp).f_count = 0 →
            Counts (t.push [.soclose so, .ffree fp]) := fun t ht h0 =>
          push_one (push_ffree_counts ht h0) (show Idle (.soclose so) from trivial)
        refine hclosed _ (Same.held (same_setFile ?_ ?_) hdrop) ?_
        · rfl
        · rfl
        · rw [State.setFile_self, State.setFile_self]; exact hzero

theorem ffree_counts (h : Counts s) (hx : s.tasks = .ffree fp :: ts) :
    Counts { s with tasks := ts, filehead := s.filehead.erase fp } := by
  have hpop : Counts { s with tasks := ts } :=
    h.pop hx (fun _ => rfl) rfl fun _ => rfl
  refine ⟨hpop.msgcount, hpop.rights, hpop.count, fun gp hgp => ?_, hpop.socks, hpop.procs,
    hpop.unix⟩
  by_cases heq : gp = fp
  · exact h.closed gp (.inr (heq ▸ hx ▸ mem_cons_self))
  · refine hpop.closed gp (hgp.imp_left fun hmem hmem' => hmem ?_)
    exact (mem_erase_of_ne heq).mpr hmem'

/-! ## Garbage collection -/

theorem same_gcFlags (s : State) (fp : Fid) (m d : Bool) (n : ℤ) :
    Same s { s.setFile fp { s.file fp with fmark := m, fdefer := d } with unp_defer := n } := by
  have h : Same s (s.setFile fp { s.file fp with fmark := m, fdefer := d }) := same_setFile rfl rfl
  exact ⟨h.count, h.msgcount, h.rcv, h.unix, h.socks, h.ofiles, h.procs, h.rights, h.filehead,
    h.tasks⟩

theorem unpMark_same (s : State) (fp : Fid) : Same s (unpMark s fp) := by
  rw [unpMark]
  split
  · exact Same.refl s
  · exact same_gcFlags s fp true true _

theorem foldl_same {f : State → Fid → State} (hf : ∀ s fp, Same s (f s fp)) (l : List Fid) :
    Same s (l.foldl f s) := by
  induction l generalizing s with
  | nil => exact Same.refl s
  | cons x l ih => exact (hf s x).trans ih

theorem gcScan_same (s : State) (fp : Fid) : Same s (gcScan s fp) := by
  rw [gcScan]
  split
  · exact Same.refl s
  · split
    · exact foldl_same unpMark_same _
    · exact Same.refl s

theorem gcVisit_same (s : State) (fp : Fid) : Same s (gcVisit s fp) := by
  rw [gcVisit]
  split
  · exact Same.refl s
  · split
    · exact (same_gcFlags s fp _ false _).trans (gcScan_same _ fp)
    · split
      · exact Same.refl s
      · split
        · exact Same.refl s
        · refine Same.trans ?_ (gcScan_same _ fp)
          exact same_setFile rfl rfl

theorem gcLoop_same {n : ℕ} (h : gcLoop n s = some t) : Same s t := by
  induction n generalizing s with
  | zero => cases h
  | succ n ih =>
    rw [gcLoop] at h
    have hpass : Same s (s.filehead.foldl gcVisit s) := foldl_same gcVisit_same _
    split at h
    · obtain rfl := some.inj h
      exact hpass
    · exact hpass.trans (ih h)

theorem gcMark_same (h : gcMark s = some t) : Same s t := by
  have hclear : Same s (gcClear s) := by
    have hfile : ∀ fp, ((gcClear s).file fp).f_count = (s.file fp).f_count ∧
        ((gcClear s).file fp).f_msgcount = (s.file fp).f_msgcount := by
      intro fp
      rw [gcClear]
      dsimp only
      split
      · exact ⟨rfl, rfl⟩
      · exact ⟨rfl, rfl⟩
    exact ⟨fun fp => (hfile fp).1, fun fp => (hfile fp).2, fun _ => rfl, fun _ h => h,
      fun _ h => h, rfl, rfl, rfl, rfl, rfl⟩
  exact hclear.trans (gcLoop_same h)

/-- The extra references are in hand. -/
theorem foldl_ref {hits : List Fid} (h : Held fps rs s)
    (hopen : ∀ fp ∈ hits, (s.file fp).f_count ≠ 0) :
    Held fps (hits.reverse ++ rs) (hits.foldl
      (fun t fp => t.setFile fp { t.file fp with f_count := (t.file fp).f_count + 1 }) s) := by
  induction hits generalizing s rs with
  | nil => exact h
  | cons fp hits ih =>
    have hfp := hopen fp mem_cons_self
    rw [foldl_cons, reverse_cons, append_assoc]
    refine ih (h.ref hfp) fun gp hgp => ?_
    by_cases heq : gp = fp
    · have hn := h.nonneg fp
      rw [heq, State.setFile_self]
      show (s.file fp).f_count + 1 ≠ 0
      omega
    · rw [State.setFile_ne s _ heq]; exact hopen gp (mem_cons_of_mem _ hgp)

theorem unpGc_counts (h : Counts s) (hrun : unpGc s = some t) : Counts t := by
  rw [unpGc] at hrun
  split at hrun
  · obtain rfl := some.inj hrun
    exact h
  · split at hrun
    · cases hrun
    · rename_i s' hmark
      obtain rfl := some.inj hrun
      have hs' := (gcMark_same hmark).held h
      have hhits : ∀ fp ∈ extraRef s', (s'.file fp).f_count ≠ 0 := fun fp hfp =>
        (of_decide_eq_true (mem_filter.mp hfp).2).1
      have hrefs := foldl_ref hs' hhits
      rw [append_nil] at hrefs
      have hgcing : Held [] (extraRef s').reverse { (extraRef s').foldl
          (fun t fp => t.setFile fp { t.file fp with f_count := (t.file fp).f_count + 1 }) s' with
          unp_gcing := true } :=
        ⟨hrefs.msgcount, hrefs.rights, hrefs.count, hrefs.closed, hrefs.socks, hrefs.procs,
          hrefs.unix⟩
      -- the tasks close what is in hand
      have hflush : ∀ x ∈ (extraRef s').map Task.gcFlush, Idle x := by
        intro x hx
        obtain ⟨fp, -, rfl⟩ := mem_map.mp hx
        trivial
      have hdone := push_one (x := .gcDone) hgcing trivial
      have hclose := (hdone.push_closefs (reverse_perm _).symm).push_idle hflush
      rw [← State.push_append, ← State.push_append] at hclose; exact hclose

/-! ## Receiving -/

theorem rightsIn_cons (m0 : List Control) (rcv : List (List Control)) :
    rightsIn (m0 :: rcv) = m0.flatMap Control.files ++ rightsIn rcv := flatMap_cons

theorem rightsIn_cons_cons (c : Control) (cs : List Control) (recs : List (List Control)) :
    rightsIn ((c :: cs) :: recs) = c.files ++ rightsIn (cs :: recs) := by
  rw [rightsIn_cons, rightsIn_cons, flatMap_cons, append_assoc]

theorem count_fdinstall (fp gp : Fid) (l : List (Option Fid)) :
    (fdinstall fp l).count (some gp) = l.count (some gp) + [fp].count gp := by
  induction l with
  | nil =>
    show [some fp].count (some gp) = 0 + [fp].count gp
    rw [zero_add]; exact count_map_of_injective [fp] some (some_injective Fid) gp
  | cons x l ih =>
    cases x with
    | none =>
      have hone : [some fp].count (some gp) = [fp].count gp :=
        count_map_of_injective [fp] some (some_injective Fid) gp
      show ([some fp] ++ l).count (some gp) = ([none] ++ l).count (some gp) + [fp].count gp
      rw [count_append, count_append, hone]
      have hnone : [(none : Option Fid)].count (some gp) = 0 :=
        count_eq_zero.mpr fun h => by cases mem_singleton.mp h
      omega
    | some x =>
      show ([some x] ++ fdinstall fp l).count (some gp) =
        ([some x] ++ l).count (some gp) + [fp].count gp
      rw [count_append, count_append, ih, add_assoc]

/-- A file of the message in hand gets a descriptor. -/
theorem Held.install (h : Held (fp :: fps) rs s) (p : Pid) : Held fps rs (install p s fp) := by
  refine h.unhold.setTable fun gp => ?_
  have hcons : (fp :: rs).count gp = [fp].count gp + rs.count gp := by
    rw [← singleton_append, count_append]
  show (fdinstall fp (s.ofiles p)).count (some gp) + rs.count gp =
    (s.ofiles p).count (some gp) + (fp :: rs).count gp
  rw [count_fdinstall, hcons]; omega

theorem foldl_install (h : Held fps rs s) (p : Pid) :
    Held [] rs (fps.foldl (UipcUsrreq.install p) s) := by
  induction fps generalizing s with
  | nil => exact h
  | cons fp fps ih => exact ih (h.install p)

theorem soreceive_counts (h : Counts s) (so : Sid) (p : Pid) (controlp : Bool) (mbufs : ℕ)
    (more : Bool) : Counts (soreceive s so p controlp mbufs more) := by
  rw [soreceive]
  split
  · exact h
  · rename_i recs hrcv
    split
    · exact h
    · refine h.setSock (h.unix so) ?_
      rw [hrcv, rightsIn_cons]; exact List.Perm.refl _
  · rename_i c cs recs hrcv
    -- the message is in hand
    have htake : Held c.files [] (s.setSock so { s.sock so with so_rcv := cs :: recs }) := by
      refine h.setSock (h.unix so) ?_
      rw [hrcv, rightsIn_cons_cons, append_nil]; exact perm_append_comm
    have herror : ∀ e : Option Errno, Held c.files []
        { s.setSock so { s.sock so with so_rcv := cs :: recs } with error := e } := fun e =>
      ⟨htake.msgcount, htake.rights, htake.count, htake.closed, htake.socks, htake.procs,
        htake.unix⟩
    have hfail : ∀ e : Option Errno, Counts
        ({ s.setSock so { s.sock so with so_rcv := cs :: recs } with error := e }.push
          (c.files.map Task.discard ++ [Task.recvFail so more])) := by
      intro e
      rw [State.push_append]
      exact (push_one (herror e) (show Idle (.recvFail so more) from trivial)).push_discards
    dsimp only
    split
    · rename_i fps
      split
      · rw [State.push_append]
        have hrecv := push_one (x := .recv so p controlp mbufs more) htake trivial
        exact hrecv.push_discards
      · split
        · exact hfail (some .emsgsize)
        · split
          · exact hfail (some .e2big)
          · exact push_one (foldl_install htake p) trivial
    · split
      · exact push_one htake trivial
      · split
        · exact hfail (some .enobufs)
        · exact push_one htake trivial

/-- No rights are dropped with the rest of a datagram. -/
def DropsNone (s : State) : Prop :=
  ∀ so more ts m0 recs, s.tasks = .recvFail so more :: ts → (s.sock so).so_type = .dgram →
    (s.sock so).so_rcv = m0 :: recs → m0.flatMap Control.files = []

theorem recvFail_counts (h : Counts s) (so : Sid) (more : Bool)
    (hdrop : ∀ m0 recs, (s.sock so).so_type = .dgram → (s.sock so).so_rcv = m0 :: recs →
      m0.flatMap Control.files = []) : Counts (recvFail s so more) := by
  rw [recvFail]
  split
  · exact h
  · rename_i m0 recs hrcv
    split
    · rename_i hcond
      have hnone : m0.flatMap Control.files = [] := by
        rcases hcond with hd | ⟨rfl, -⟩
        · exact hdrop m0 recs hd hrcv
        · rfl
      refine h.setSock (h.unix so) ?_
      rw [hrcv, rightsIn_cons, hnone]; exact List.Perm.refl _
    · exact h

/-- Working off a task keeps the counts, if no rights are dropped with the rest of a datagram. -/
theorem work_counts (h : Counts s) (hdrop : DropsNone s) (hrun : work s = some t) : Counts t := by
  rw [work] at hrun
  split at hrun
  · cases hrun
  · rename_i x ts hx
    have hidle : Idle x → Counts { s with tasks := ts } := h.pop_idle hx
    cases x with
    | discard fp =>
      obtain rfl := some.inj hrun
      exact unpDiscard_counts (h.pop hx (fun gp => by
        show [fp].count gp = toDiscard ([fp].map Task.discard) gp + 0
        rw [count_map_discard, add_zero]) rfl fun _ => rfl)
    | closef fp =>
      exact closef_counts (h.pop hx (fun _ => rfl) rfl fun gp => by
        show [fp].count gp = toClose ([fp].map Task.closef) gp + 0
        rw [count_map_closef, add_zero]) hrun
    | ffree fp =>
      obtain rfl := some.inj hrun
      have hfree := ffree_counts h hx
      exact hfree
    | soclose so =>
      obtain rfl := some.inj hrun
      exact soclose_counts (hidle trivial) so
    | soabort so =>
      obtain rfl := some.inj hrun
      exact (hidle trivial).push_idle
        (forall_mem_pair (P := Idle) (a := .unpDetach so) (b := .sofree so) trivial trivial)
    | unpDetach so =>
      obtain rfl := some.inj hrun
      exact unpDetach_counts (hidle trivial) so
    | sofree so =>
      obtain rfl := some.inj hrun
      show Counts (sofree _ so)
      rw [sofree]
      split
      · exact hidle trivial
      · exact push_one (hidle trivial) trivial
    | sorflush so =>
      obtain rfl := some.inj hrun
      exact sorflush_counts (hidle trivial) so
    | gc => exact unpGc_counts (hidle trivial) hrun
    | gcFlush fp =>
      obtain rfl := some.inj hrun
      show Counts (gcFlush _ fp)
      rw [gcFlush]
      split
      · exact hidle trivial
      · exact push_one (hidle trivial) trivial
    | gcDone =>
      obtain rfl := some.inj hrun
      have hc := hidle trivial
      exact ⟨hc.msgcount, hc.rights, hc.count, hc.closed, hc.socks, hc.procs, hc.unix⟩
    | recv so p controlp mbufs more =>
      obtain rfl := some.inj hrun
      exact soreceive_counts (hidle trivial) so p controlp mbufs more
    | recvFail so more =>
      obtain rfl := some.inj hrun
      exact recvFail_counts (hidle trivial) so more fun m0 recs => hdrop so more ts m0 recs hx

end FreeBSD.UipcUsrreq
