import FreeBSD.Kern.UipcUsrreq

/-!
# What `unp_gc` flushes, `kern/uipc_usrreq.c`

A file is alive if a process has it or can receive it: it has a descriptor, or it is in a message in
the buffer of a socket that is alive. A socket is alive if its file is, or if it waits on the queue
of a listening socket that is alive.

Results:
* `gc_exact_iff`: these are exactly the files that are not alive if and only if every file in the
  buffer of a waiting connection of such a listening socket is reachable in another way.
-/

namespace FreeBSD.UipcUsrreq

open List Function
open Lib (Flags)

variable {s : State} {g : Flags Fid} {fp gp : Fid} {so : Sid}

/-- The open files are on the list once, with the true numbers of references, and messages with
    rights are in Unix-domain sockets only. -/
structure Config (s : State) : Prop where
  nodup : s.filehead.Nodup
  count : ∀ fp ∈ s.filehead, (s.file fp).f_count = descRefs s fp + msgRefs s fp
  msgcount : ∀ fp ∈ s.filehead, (s.file fp).f_msgcount = msgRefs s fp
  isOpen : ∀ fp, 0 < descRefs s fp + msgRefs s fp → fp ∈ s.filehead
  socks : ∀ so, so ∉ s.socks → (s.sock so).so_rcv = []
  unix : ∀ so, rightsIn (s.sock so).so_rcv ≠ [] → (s.sock so).prRights

/-- The files in the buffer of the socket of a file. -/
def edges (s : State) (fp : Fid) : List Fid :=
  match (s.file fp).f_data with
  | none => []
  | some so => if (s.sock so).prRights then rightsIn (s.sock so).so_rcv else []

/-- Not all references are from messages. -/
def root (s : State) (fp : Fid) : Bool := (s.file fp).f_count ≠ (s.file fp).f_msgcount

/-- The open files. -/
def openFiles (s : State) : List Fid := s.filehead.filter fun fp => (s.file fp).f_count ≠ 0

/-! ## The mark phase -/

/-- The state with the flags `g`. -/
def withFlags (s : State) (g : Flags Fid) : State :=
  { s with
    file := fun fp =>
      if fp ∈ s.filehead then { s.file fp with fmark := g.mark fp, fdefer := g.defer fp }
      else s.file fp
    unp_defer := g.count }

theorem withFlags_file (h : fp ∈ s.filehead) :
    (withFlags s g).file fp =
      { s.file fp with fmark := g.mark fp, fdefer := g.defer fp } := if_pos h

theorem withFlags_file_eq (s : State) (g : Flags Fid) (fp : Fid) :
    ((withFlags s g).file fp).f_count = (s.file fp).f_count ∧
      ((withFlags s g).file fp).f_msgcount = (s.file fp).f_msgcount ∧
      ((withFlags s g).file fp).f_data = (s.file fp).f_data := by
  rw [withFlags]
  dsimp only
  split
  · exact ⟨rfl, rfl, rfl⟩
  · exact ⟨rfl, rfl, rfl⟩

/-- Setting the flags of one file. -/
theorem withFlags_setFile (h : fp ∈ s.filehead) (m d : Bool) (n : ℤ) :
    { (withFlags s g).setFile fp { (withFlags s g).file fp with fmark := m, fdefer := d } with
      unp_defer := n } =
      withFlags s
        { mark := update g.mark fp m, defer := update g.defer fp d,
          count := n } := by
  have hfile : update (withFlags s g).file fp
      { (withFlags s g).file fp with fmark := m, fdefer := d } =
      fun x => if x ∈ s.filehead then
        { s.file x with
          fmark := update g.mark fp m x, fdefer := update g.defer fp d x }
      else s.file x := by
    funext x
    by_cases hx : x = fp
    · subst hx
      rw [update_self, update_self, update_self, if_pos h,
        withFlags_file h]
    · rw [update_of_ne hx, update_of_ne hx, update_of_ne hx]; rfl
  rw [State.setFile, hfile]; rfl

theorem unpMark_withFlags (h : fp ∈ s.filehead) :
    unpMark (withFlags s g) fp = withFlags s (g.push fp) := by
  have hm : ((withFlags s g).file fp).fmark = g.mark fp := by rw [withFlags_file h]
  rw [unpMark, Flags.push, hm]
  split
  · rfl
  · exact withFlags_setFile h true true _

theorem foldl_unpMark_withFlags {fps : List Fid} (h : ∀ fp ∈ fps, fp ∈ s.filehead) :
    fps.foldl unpMark (withFlags s g) = withFlags s (fps.foldl Flags.push g) := by
  induction fps generalizing g with
  | nil => rfl
  | cons fp fps ih =>
    rw [foldl_cons, foldl_cons, unpMark_withFlags (h fp mem_cons_self),
      ih fun x hx => h x (mem_cons_of_mem _ hx)]

theorem gcScan_withFlags (h : ∀ gp ∈ edges s fp, gp ∈ s.filehead) :
    gcScan (withFlags s g) fp = withFlags s ((edges s fp).foldl Flags.push g) := by
  have hsock : (withFlags s g).sock = s.sock := rfl
  rw [gcScan, (withFlags_file_eq s g fp).2.2, hsock]
  rw [edges] at h ⊢
  cases hd : (s.file fp).f_data with
  | none => rfl
  | some so =>
    simp only [hd] at h ⊢
    split
    · rename_i hp
      rw [if_pos hp] at h; exact foldl_unpMark_withFlags h
    · rfl

/-- A file of the list is visited as a node is, if it is open. -/
theorem gcVisit_withFlags (hf : fp ∈ s.filehead) (h : ∀ gp ∈ edges s fp, gp ∈ s.filehead) :
    gcVisit (withFlags s g) fp =
      if (s.file fp).f_count = 0 then withFlags s g
      else withFlags s (Flags.visit (edges s) (root s) g fp) := by
  obtain ⟨hcount, hmsg, -⟩ := withFlags_file_eq s g fp
  have hmark : ((withFlags s g).file fp).fmark = g.mark fp := by rw [withFlags_file hf]
  have hdefer : ((withFlags s g).file fp).fdefer = g.defer fp := by rw [withFlags_file hf]
  rw [gcVisit, hcount, hmsg, hmark, hdefer]
  split
  · rfl
  · rw [Flags.visit]
    split
    · -- deferred before
      rw [← gcScan_withFlags h]
      have hset := withFlags_setFile (g := g) hf (g.mark fp) false (g.count - 1)
      rw [update_eq_self, ← hmark] at hset; exact congrArg (gcScan · fp) hset
    · split
      · rfl
      · by_cases hr : (s.file fp).f_count = (s.file fp).f_msgcount
        · rw [if_pos hr, if_neg (by simp [root, hr])]
        · rw [if_neg hr, if_pos (by simp [root, hr]), ← gcScan_withFlags h]
          have hset := withFlags_setFile (g := g) hf true (g.defer fp) g.count
          rw [update_eq_self, ← hdefer] at hset; exact congrArg (gcScan · fp) hset

theorem foldl_gcVisit_withFlags {fps : List Fid} (hfps : ∀ fp ∈ fps, fp ∈ s.filehead)
    (h : ∀ fp ∈ s.filehead, ∀ gp ∈ edges s fp, gp ∈ s.filehead) :
    fps.foldl gcVisit (withFlags s g) =
      withFlags s (Flags.pass (edges s) (root s)
        (fps.filter fun fp => (s.file fp).f_count ≠ 0) g) := by
  induction fps generalizing g with
  | nil => rfl
  | cons fp fps ih =>
    have hf := hfps fp mem_cons_self
    have hrest := fun x hx => hfps x (mem_cons_of_mem fp hx)
    rw [foldl_cons, gcVisit_withFlags hf (h fp hf)]
    by_cases hc : (s.file fp).f_count = 0
    · rw [if_pos hc, ih hrest, filter_cons_of_neg (by simp [hc])]
    · rw [if_neg hc, ih hrest, filter_cons_of_pos (by simp [hc])]
      rfl

/-- The loop does the passes over the open files. -/
theorem gcLoop_withFlags (h : ∀ fp ∈ s.filehead, ∀ gp ∈ edges s fp, gp ∈ s.filehead) (n : ℕ) :
    gcLoop n (withFlags s g) =
      (Flags.loop (edges s) (root s) (openFiles s) n g).map (withFlags s) := by
  induction n generalizing g with
  | zero => rfl
  | succ n ih =>
    have hpass : (withFlags s g).filehead.foldl gcVisit (withFlags s g) =
        withFlags s (Flags.pass (edges s) (root s) (openFiles s) g) :=
      foldl_gcVisit_withFlags (fun _ hx => hx) h
    rw [gcLoop, Flags.loop, hpass]
    have hdefer : (withFlags s (Flags.pass (edges s) (root s) (openFiles s) g)).unp_defer =
        (Flags.pass (edges s) (root s) (openFiles s) g).count := rfl
    simp only [hdefer]
    split
    · rfl
    · exact ih

/-! ## What is flushed -/

theorem msgRefs_pos (hc : Config s) (h : fp ∈ rightsIn (s.sock so).so_rcv) :
    0 < msgRefs s fp := by
  have hso : so ∈ s.socks := by
    by_contra hso
    rw [hc.socks so hso] at h; exact absurd h not_mem_nil
  have hle := Finset.single_le_sum (f := fun so => (rightsIn (s.sock so).so_rcv).count fp)
    (fun _ _ => Nat.zero_le _) hso
  have hpos := count_pos_iff.mpr h
  exact hpos.trans_le hle

theorem mem_openFiles (hc : Config s) (h : 0 < descRefs s fp + msgRefs s fp) :
    fp ∈ openFiles s := by
  have hmem := hc.isOpen fp h
  have hcount := hc.count fp hmem
  refine mem_filter.mpr ⟨hmem, decide_eq_true ?_⟩
  omega

/-- A file in the buffer of the socket of another one. -/
def Receives (s : State) (fp gp : Fid) : Prop :=
  ∃ so, (s.file fp).f_data = some so ∧ gp ∈ rightsIn (s.sock so).so_rcv

theorem mem_edges (hc : Config s) : gp ∈ edges s fp ↔ Receives s fp gp := by
  rw [edges]
  cases hd : (s.file fp).f_data with
  | none =>
    refine ⟨fun h => absurd h not_mem_nil, ?_⟩
    rintro ⟨so, hso, -⟩
    rw [hd] at hso
    cases hso
  | some so =>
    constructor
    · intro h
      dsimp only at h
      split at h
      · exact ⟨so, hd, h⟩
      · exact absurd h not_mem_nil
    · rintro ⟨so', hso', h⟩
      obtain rfl := Option.some.inj (hd.symm.trans hso')
      have hp := hc.unix so (ne_nil_of_mem h)
      show gp ∈ if (s.sock so).prRights then rightsIn (s.sock so).so_rcv else []
      rwa [if_pos hp]

/-- Reachable from a descriptor through the buffers of the sockets of files. -/
def ByFiles (s : State) (fp : Fid) : Prop :=
  ∃ r, 0 < descRefs s r ∧ Relation.ReflTransGen (Receives s) r fp

theorem reach_iff_byFiles (hc : Config s) :
    Flags.Reach (edges s) (root s) (openFiles s) fp ↔ ByFiles s fp := by
  have hrel : (fun x y => y ∈ edges s x) = Receives s := by
    funext x y
    exact propext (mem_edges hc)
  rw [Flags.Reach, ByFiles, hrel]
  constructor
  · rintro ⟨r, hr, hroot, hpath⟩
    have hmem := (mem_filter.mp hr).1
    have hcount := hc.count r hmem
    have hmsg := hc.msgcount r hmem
    have hne : (s.file r).f_count ≠ (s.file r).f_msgcount := of_decide_eq_true hroot
    exact ⟨r, by omega, hpath⟩
  · rintro ⟨r, hr, hpath⟩
    have hopen : r ∈ openFiles s := mem_openFiles hc (by omega)
    have hmem := (mem_filter.mp hopen).1
    have hcount := hc.count r hmem
    have hmsg := hc.msgcount r hmem
    refine ⟨r, hopen, decide_eq_true ?_, hpath⟩
    omega

/-- `unp_gc` flushes the files that are not reachable through the sockets of files. -/
theorem gcHits_iff (hc : Config s) :
    ∃ hits, gcHits s = some hits ∧ ∀ fp, fp ∈ hits ↔ fp ∈ openFiles s ∧ ¬ ByFiles s fp := by
  have hedges : ∀ fp ∈ s.filehead, ∀ gp ∈ edges s fp, gp ∈ openFiles s := by
    intro fp _ gp hgp
    obtain ⟨so, -, hso⟩ := (mem_edges hc).mp hgp
    exact mem_openFiles hc (by have := msgRefs_pos hc hso; omega)
  have hsub : ∀ fp ∈ openFiles s, fp ∈ s.filehead := fun fp h => (mem_filter.mp h).1
  have hlen : Flags.unmarked (openFiles s) Flags.clear < s.filehead.length + 1 :=
    Nat.lt_succ_of_le (countP_le_length.trans (length_filter_le _ _))
  have hnodup : (openFiles s).Nodup := hc.nodup.filter _
  have hclean : Flags.Inv (edges s) (root s) (openFiles s) Flags.clear := Flags.clear_inv
  obtain ⟨g, hg, hmark⟩ := Flags.loop_of_inv hnodup
    (fun fp hfp => hedges fp (hsub fp hfp)) hclean hlen
  have hrun : gcMark s = some (withFlags s g) := by
    have hclear : gcClear s = withFlags s Flags.clear := rfl
    rw [gcMark, hclear, gcLoop_withFlags (fun fp hfp gp hgp => hsub gp (hedges fp hfp gp hgp)), hg]
    rfl
  refine ⟨_, congrArg (Option.map extraRef) hrun, fun fp => ?_⟩
  rw [extraRef, mem_filter]
  show fp ∈ s.filehead ∧ _ ↔ _
  obtain ⟨hcount, hmsg, -⟩ := withFlags_file_eq s g fp
  rw [hcount, hmsg]
  constructor
  · rintro ⟨hmem, hcond⟩
    obtain ⟨h0, -, hm⟩ := of_decide_eq_true hcond
    rw [withFlags_file hmem] at hm
    refine ⟨mem_filter.mpr ⟨hmem, decide_eq_true h0⟩, fun hr => hm ?_⟩
    exact (hmark fp).mpr ((reach_iff_byFiles hc).mpr hr)
  · rintro ⟨hopen, hr⟩
    obtain ⟨hmem, h0⟩ := mem_filter.mp hopen
    have hroot : ¬ 0 < descRefs s fp := fun h => hr ⟨fp, h, Relation.ReflTransGen.refl⟩
    have hc1 := hc.count fp hmem
    have hc2 := hc.msgcount fp hmem
    refine ⟨hmem, decide_eq_true ⟨of_decide_eq_true h0, by omega, ?_⟩⟩
    rw [withFlags_file hmem]; exact fun hm => hr ((reach_iff_byFiles hc).mp ((hmark fp).mp hm))

/-! ## What is alive -/

/-- A file or a socket. -/
inductive Node
  | file (fp : Fid)
  | sock (so : Sid)

/-- The connections that wait on the queues of a socket. -/
def queue (s : State) (so : Sid) : List Sid := (s.sock so).so_incomp ++ (s.sock so).so_comp

/-- From a file to its socket, from a socket to the files in its buffer, and from a listening socket
    to the connections that wait to be accepted. -/
def Leads (s : State) : Node → Node → Prop
  | .file fp, .sock so => (s.file fp).f_data = some so
  | .sock so, .file fp => fp ∈ rightsIn (s.sock so).so_rcv
  | .sock so, .sock so' => so' ∈ queue s so
  | .file _, .file _ => False

/-- A process can get at it. -/
def Alive (s : State) (n : Node) : Prop :=
  ∃ r, 0 < descRefs s r ∧ Relation.ReflTransGen (Leads s) (.file r) n

/-- Every file in the buffer of a connection that waits on the queue of a socket, where the file of
    that socket is reachable through the sockets of files, is reachable so itself. -/
def WaitingElsewhere (s : State) : Prop :=
  ∀ fp so so' gp, ByFiles s fp → (s.file fp).f_data = some so →
    Relation.TransGen (fun x y => y ∈ queue s x) so so' → gp ∈ rightsIn (s.sock so').so_rcv →
    ByFiles s gp

theorem ByFiles.alive (h : ByFiles s fp) : Alive s (.file fp) := by
  obtain ⟨r, hr, hpath⟩ := h
  refine ⟨r, hr, ?_⟩
  induction hpath with
  | refl => exact Relation.ReflTransGen.refl
  | tail _ hstep ih =>
    obtain ⟨so, hdata, hmem⟩ := hstep
    exact (ih.tail (show Leads s (.file _) (.sock so) from hdata)).tail hmem

/-- Where nothing else is in the buffers of waiting connections, what is alive is reachable through
    the sockets of files. -/
theorem WaitingElsewhere.byFiles (h : WaitingElsewhere s) (ha : Alive s (.file fp)) :
    ByFiles s fp := by
  obtain ⟨r, hr, hpath⟩ := ha
  -- a socket on the way is the one of such a file, or on a queue of it
  have hall : ∀ n, Relation.ReflTransGen (Leads s) (.file r) n →
      match n with
      | .file fp => ByFiles s fp
      | .sock so => ∃ fp so', ByFiles s fp ∧ (s.file fp).f_data = some so' ∧
          Relation.ReflTransGen (fun x y => y ∈ queue s x) so' so := by
    intro n hn
    induction hn with
    | refl => exact ⟨r, hr, Relation.ReflTransGen.refl⟩
    | @tail m n _ hstep ih =>
      cases m with
      | file fp =>
        cases n with
        | file gp => exact absurd hstep id
        | sock so => exact ⟨fp, so, ih, hstep, Relation.ReflTransGen.refl⟩
      | sock so =>
        obtain ⟨fp, so', hfp, hdata, hqueue⟩ := ih
        cases n with
        | sock so'' => exact ⟨fp, so', hfp, hdata, hqueue.tail hstep⟩
        | file gp =>
          rcases Relation.reflTransGen_iff_eq_or_transGen.mp hqueue with rfl | hqueue
          · obtain ⟨r', hr', hpath'⟩ := hfp
            exact ⟨r', hr', hpath'.tail ⟨so, hdata, hstep⟩⟩
          · exact h fp so' so gp hfp hdata hqueue hstep
  exact hall (.file fp) hpath

/-- `unp_gc` flushes exactly the files that are not alive if and only if every file in the buffer of
    a waiting connection of a listening socket is reachable in another way. -/
theorem gc_exact_iff (hc : Config s) :
    ∃ hits, gcHits s = some hits ∧
      ((∀ fp, fp ∈ hits ↔ fp ∈ openFiles s ∧ ¬ Alive s (.file fp)) ↔ WaitingElsewhere s) := by
  obtain ⟨hits, hrun, hhits⟩ := gcHits_iff hc
  refine ⟨hits, hrun, ?_, ?_⟩
  · intro hall fp so so' gp hfp hdata hqueue hgp
    -- the file is open and alive, so it is not flushed
    have hopen : gp ∈ openFiles s := mem_openFiles hc (by have := msgRefs_pos hc hgp; omega)
    have halive : Alive s (.file gp) := by
      obtain ⟨r, hr, hpath⟩ := hfp.alive
      have hwait : Relation.ReflTransGen (Leads s) (.sock so) (.sock so') := by
        exact Relation.ReflTransGen.lift Node.sock (fun _ _ h => h) _ _ hqueue.to_reflTransGen
      have hsock := hpath.tail (show Leads s (.file fp) (.sock so) from hdata)
      exact ⟨r, hr, (hsock.trans hwait).tail hgp⟩
    by_contra hby
    exact ((hall gp).mp ((hhits gp).mpr ⟨hopen, hby⟩)).2 halive
  · intro hw fp
    rw [hhits fp]; exact and_congr_right fun _ => not_congr ⟨ByFiles.alive, hw.byFiles⟩

/-- A listening socket with descriptor 0, a connection 1 that waits on its queue, and a file 1 in
    the buffer of the connection that nothing else refers to. -/
def waiting : State where
  filehead := [0, 1]
  file fp :=
    if fp = 0 then ⟨1, 0, false, false, some 0, true⟩
    else if fp = 1 then ⟨1, 1, false, false, some 2, true⟩
    else ⟨0, 0, false, false, none, true⟩
  socks := {0, 1, 2}
  sock so :=
    if so = 0 then ⟨.stream, true, true, false, false, true, [], [1], [], none⟩
    else if so = 1 then ⟨.stream, true, false, true, false, true, [], [], [[.rights [1]]], none⟩
    else ⟨.stream, true, false, false, false, true, [], [], [], none⟩
  procs := {0}
  ofiles p := if p = 0 then [some 0] else []
  nofile := fun _ => 64
  unp_rights := 1
  unp_defer := 0
  unp_gcing := false
  tasks := []
  error := none

theorem waiting_config : Config waiting where
  nodup := by decide
  count := by decide
  msgcount := by decide
  isOpen := by
    intro fp h
    have hrefs : descRefs waiting fp + msgRefs waiting fp =
        [some 0].count (some fp) + [1].count fp := by
      simp [descRefs, msgRefs, waiting, rightsIn, Control.files]
    rw [hrefs] at h
    by_contra hmem
    have h0 : (0 : Fid) ≠ fp := fun h0 => hmem (h0 ▸ mem_cons_self)
    have h1 : (1 : Fid) ≠ fp := fun h1 => hmem (h1 ▸ mem_cons_of_mem _ mem_cons_self)
    simp [h0, h1] at h
  socks := by
    intro so h
    have h1 : so ≠ 1 := fun h1 => h (h1 ▸ by decide)
    by_cases h0 : so = 0
    · rw [h0]; rfl
    · simp [waiting, h0, h1]
  unix := by
    intro so _
    by_cases h0 : so = 0
    · rw [h0]; rfl
    · by_cases h1 : so = 1
      · rw [h1]; rfl
      · simp [waiting, h0, h1]

/-- Garbage collection in that configuration. -/
theorem gc_exact_iff_waiting : ∃ hits, gcHits waiting = some hits ∧
    ((∀ fp, fp ∈ hits ↔ fp ∈ openFiles waiting ∧ ¬ Alive waiting (.file fp)) ↔
      WaitingElsewhere waiting) :=
  gc_exact_iff waiting_config

/-- The file in the buffer of the waiting connection is flushed, though the listening socket can
    accept the connection and receive it. -/
theorem gc_flushes_waiting : ¬ ∀ s hits, Config s → gcHits s = some hits →
    ∀ fp, fp ∈ hits ↔ fp ∈ openFiles s ∧ ¬ Alive s (.file fp) := by
  intro hall
  have hhits : gcHits waiting = some [1] := by decide +kernel
  have hflushed := (hall waiting [1] waiting_config hhits 1).mp mem_cons_self
  have hpath : Relation.ReflTransGen (Leads waiting) (.file 0) (.sock 1) :=
    (Relation.ReflTransGen.single (show Leads waiting (.file 0) (.sock 0) from rfl)).tail
      (show Leads waiting (.sock 0) (.sock 1) from mem_cons_self)
  have hmem : (1 : Fid) ∈ rightsIn (waiting.sock 1).so_rcv := by decide
  exact hflushed.2 ⟨0, by decide, hpath.tail hmem⟩

end FreeBSD.UipcUsrreq
