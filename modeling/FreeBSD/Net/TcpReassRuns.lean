import FreeBSD.Lib.Runs
import FreeBSD.Net.TcpReass

/-!
# Runs of TCP reassembly, `netinet/tcp_input.c`

A session is an established connection whose peer sends a stream; calls of `tcp_reass` hand in its
segments, and the user reads from the socket buffer or shuts the receive side down.

Results:
* `tcp_reass_of_run`: in every run whose segments carry the stream, what is appended to the socket
  buffer is the stream up to `rcv_nxt`, the queue is sorted and ahead of `rcv_nxt`, and a FIN is
  returned when everything in front of it was presented.
-/

namespace FreeBSD.TcpReass

open List
open Lib (Piece Runs)

/-- A connection, what the user has read from its socket buffer, the number of bytes that were
    presented, and the positions of the FINs that were handed in. -/
structure Session where
  tp : Tcpcb
  taken : List Byte
  presented : ℕ
  fins : List ℕ

inductive Op
  | reass (th : Option TsegQent) (alloc : Bool)
  | tState (t_state : ℕ)
  | socantrcvmore
  | receive (k : ℕ)

/-- The position of a segment in the stream, from its distance to `rcv_nxt`. -/
def Session.pos (s : Session) (te : TsegQent) : ℕ :=
  s.presented + (te.th_seq - s.tp.rcv_nxt).toNat

/-- The position of the FIN of a segment, if it has one. -/
def Session.finOf (s : Session) : Option TsegQent → List ℕ
  | none => []
  | some te => if te.th_flags &&& thFin = 0 then [] else [s.pos te + te.tqe_m.length]

/-- A call or another event, and the flags that a call returns. -/
def step (s : Session) : Op → Option (Session × BitVec 8)
  | .reass th alloc =>
    let r := tcpReass s.tp th alloc
    some ({ s with
      tp := r.1
      presented := s.presented + (r.1.rcv_nxt - s.tp.rcv_nxt).toNat
      fins := s.finOf th ++ s.fins }, r.2)
  | .tState t => some ({ s with tp := { s.tp with t_state := t } }, 0)
  | .socantrcvmore => some ({ s with tp := { s.tp with ssCantrcvmore := true } }, 0)
  | .receive k =>
    some ({ s with
      tp := { s.tp with so_rcv := s.tp.so_rcv.drop k }
      taken := s.taken ++ s.tp.so_rcv.take k }, 0)

/-- An established connection with the initial sequence number `irs`. -/
def init (irs : TcpSeq) : Session where
  tp :=
    { t_state := tcpsEstablished, rcv_nxt := irs, t_segq := [], ssCantrcvmore := false,
      so_rcv := [] }
  taken := []
  presented := 0
  fins := []

/-- A segment begins at or after `rcv_nxt`, ends in the window, and carries the bytes of `S`; the
    connection stays established. -/
def Carries (S : ℕ → Byte) (s : Session) : Op → Prop
  | .reass (some te) _ =>
    te.tqe_len = te.tqe_m.length ∧ (te.th_seq - s.tp.rcv_nxt).toNat + te.tqe_len < 2 ^ 31 ∧
      ∀ k b, te.tqe_m[k]? = some b → S (s.pos te + k) = b
  | .tState t => tcpsEstablished ≤ t
  | _ => True

/-- The first `n` bytes of the stream. -/
def streamTo (S : ℕ → Byte) (n : ℕ) : List Byte := (List.range n).map S

/-- What is true of the session between two calls. -/
structure InOrder (S : ℕ → Byte) (irs : TcpSeq) (s : Session) : Prop where
  rcv_nxt : s.tp.rcv_nxt = irs + BitVec.ofNat 32 s.presented
  appended : s.tp.ssCantrcvmore = false → s.taken ++ s.tp.so_rcv = streamTo S s.presented
  appended_le : ∃ k ≤ s.presented, s.taken ++ s.tp.so_rcv = streamTo S k
  disjoint : s.tp.t_segq.Pairwise fun a b =>
    seqLeq (a.th_seq + BitVec.ofNat 32 a.tqe_len) b.th_seq
  ahead : ∀ q ∈ s.tp.t_segq, seqGt q.th_seq s.tp.rcv_nxt

/-- A call that returns TH_FIN has presented everything in front of a FIN that was handed in. -/
def FinLast (S : ℕ → Byte) (s : Session) : Prop :=
  ∀ th alloc t flags, Carries S s (.reass th alloc) →
    step s (.reass th alloc) = some (t, flags) → flags &&& thFin ≠ 0 → t.presented ∈ t.fins

variable {S : ℕ → Byte} {irs : TcpSeq} {s t : Session} {n : ℕ} {flags : BitVec 8}
  {x y : Piece Byte (BitVec 8)} {ps : List (Piece Byte (BitVec 8))}

/-! ## The stream -/

theorem streamTo_append {l : List Byte} (h : ∀ k b, l[k]? = some b → S (n + k) = b) :
    streamTo S n ++ l = streamTo S (n + l.length) := by
  have hl : l = (List.range l.length).map fun k => S (n + k) := by
    refine ext_getElem (by simp) ?_
    intro i hi hi'
    rw [getElem_map, getElem_range]; exact (h i l[i] (List.getElem?_eq_getElem hi)).symm
  rw [streamTo, streamTo, range_add, map_append, map_map]
  conv_lhs => rw [hl]
  rfl

/-! ## The invariant -/

/-- A piece of the stream that may be on the queue when `n` bytes were presented. -/
structure Queued (S : ℕ → Byte) (n : ℕ) (fins : List ℕ) (x : Piece Byte (BitVec 8)) : Prop where
  window : InWindow n x
  content : Piece.Content (fun k b => S k = b) x
  fin : x.tag &&& thFin ≠ 0 → x.stop ∈ fins

theorem Queued.rest {fins : List ℕ} (h : Queued S n fins y) (hr : Piece.IsRest x y) :
    Queued S n fins x where
  window := ⟨h.window.1.trans hr.off, hr.stop ▸ h.window.2⟩
  content := hr.content h.content
  fin := by rw [hr.tag, hr.stop]; exact h.fin

/-- What the user has got or can get, when `n` bytes were presented. -/
def Appended (S : ℕ → Byte) (taken : List Byte) (tp : Tcpcb) (n : ℕ) : Prop :=
  ∃ k ≤ n, taken ++ tp.so_rcv = streamTo S k ∧ (tp.ssCantrcvmore = false → k = n)

/-- The queue is a sorted list of pieces of the stream behind what was presented. -/
structure Valid (S : ℕ → Byte) (irs : TcpSeq) (s : Session) : Prop where
  state : tcpsEstablished ≤ s.tp.t_state
  rcv_nxt : s.tp.rcv_nxt = irs + BitVec.ofNat 32 s.presented
  appended : Appended S s.taken s.tp s.presented
  queue : ∃ ps, s.tp.t_segq = ps.map (toSeg irs) ∧ Piece.Sorted ps ∧
    ∀ x ∈ ps, Queued S s.presented s.fins x ∧ s.presented < x.off

theorem init_valid (S : ℕ → Byte) (irs : TcpSeq) : Valid S irs (init irs) where
  state := le_rfl
  rcv_nxt := (BitVec.add_zero irs).symm
  appended := ⟨0, le_rfl, rfl, fun _ => rfl⟩
  queue := ⟨[], rfl, List.Pairwise.nil, fun _ hx => absurd hx not_mem_nil⟩

theorem Valid.inOrder (h : Valid S irs s) : InOrder S irs s := by
  obtain ⟨-, hn, ⟨k, hk, happ, hall⟩, ps, hps, hsorted, hq⟩ := h
  refine ⟨hn, ?_, ⟨k, hk, happ⟩, ?_, ?_⟩
  · intro hc
    rw [happ, hall hc]
  · rw [hps, pairwise_map]
    refine hsorted.imp_of_mem fun {a b} ha hb hab => ?_
    rw [seqLeq, toSeg_sub irs (hq a ha).1.window (hq b hb).1.window]
    exact decide_eq_true (by omega)
  · intro q hmem
    rw [hps] at hmem
    obtain ⟨x, hx, rfl⟩ := mem_map.mp hmem
    obtain ⟨⟨⟨-, hstop⟩, -, -⟩, hoff⟩ := hq x hx
    simp only [Piece.stop] at hstop
    have hsub := seq_sub_toInt irs (i := x.off) (j := s.presented) (by omega) (by omega)
    rw [seqGt, hn, toSeg, hsub]; exact decide_eq_true (by omega)

/-! ## Calls -/

/-- What a call presents of a queue of pieces. -/
theorem reassPresent_spec {tp : Tcpcb} {taken : List Byte} {fins : List ℕ}
    (hstate : tcpsEstablished ≤ tp.t_state) (hn : tp.rcv_nxt = irs + BitVec.ofNat 32 n)
    (happ : Appended S taken tp n) (hps : tp.t_segq = ps.map (toSeg irs))
    (hs : Piece.Sorted ps) (hq : ∀ x ∈ ps, Queued S n fins x) :
    ∃ tp' flags k, reassPresent tp = (tp', flags) ∧
      Valid S irs { tp := tp', taken := taken, presented := n + k, fins := fins } ∧
      (tp'.rcv_nxt - tp.rcv_nxt).toNat = k ∧ (flags &&& thFin ≠ 0 → n + k ∈ fins) := by
  obtain ⟨A, B, k, rfl, hA, hB, hk, hrun⟩ := reassLoop_spec irs 0 hs hn ⟨le_rfl, by omega⟩
    (fun y hy => (hq y hy).window) fun y hy => (hq y hy).window.1
  obtain ⟨hlen, hcont⟩ := Piece.touching_content hA fun y hy =>
    (hq y (mem_append_left B hy)).content
  have hnk : n + (k - n) = k := by omega
  rw [← hps] at hrun
  refine ⟨_, _, k - n, (if_neg (by omega)).trans hrun, ⟨hstate, ?_, ?_, B, rfl, ?_, ?_⟩, ?_, ?_⟩
  · rw [hnk]
  · -- nothing is appended if the socket cannot receive
    obtain ⟨i, hi, hold, hall⟩ := happ
    rw [hnk]
    cases hc : tp.ssCantrcvmore with
    | true =>
      refine ⟨i, ?_, hold, fun h => by cases h⟩
      show i ≤ k
      omega
    | false =>
      obtain rfl := hall hc
      refine ⟨k, le_rfl, ?_, fun _ => rfl⟩
      show taken ++ (tp.so_rcv ++ Piece.joined A) = streamTo S k
      rw [← append_assoc, hold, streamTo_append hcont, hlen]
  · exact (pairwise_append.mp hs).2.1
  · intro x hx
    rw [hnk]
    obtain ⟨⟨hoff, hstop⟩, hc, hf⟩ := hq x (mem_append_right A hx)
    have hkx := hB x hx
    exact ⟨⟨⟨hkx.le, by show x.stop < k + 2 ^ 31; omega⟩, hc, hf⟩, hkx⟩
  · show (irs + BitVec.ofNat 32 k - tp.rcv_nxt).toNat = k - n
    have hsum : irs + BitVec.ofNat 32 k = irs + BitVec.ofNat 32 n + BitVec.ofNat 32 (k - n) := by
      rw [seq_add, hnk]
    have hsub : irs + BitVec.ofNat 32 k - tp.rcv_nxt = BitVec.ofNat 32 (k - n) := by
      rw [hn, hsum]
      bv_omega
    rw [hsub, BitVec.toNat_ofNat]; exact Nat.mod_eq_of_lt (by omega)
  · rw [hnk, flagsOf]
    cases hlast : A.getLast? with
    | none => exact fun h => absurd rfl h
    | some p =>
      intro h
      have hp := mem_of_getLast? hlast
      rw [← Piece.stop_of_touching hA hlast]
      refine (hq p (mem_append_left B hp)).fin ?_
      rwa [BitVec.and_assoc, BitVec.and_self] at h

/-- A call keeps the invariant, and returns TH_FIN when everything in front was presented. -/
theorem tcpReass_valid (h : Valid S irs s) {th : Option TsegQent} {alloc : Bool}
    (hc : Carries S s (.reass th alloc)) (hstep : step s (.reass th alloc) = some (t, flags)) :
    Valid S irs t ∧ (flags &&& thFin ≠ 0 → t.presented ∈ t.fins) := by
  obtain ⟨hstate, hn, happ, ps, hps, hsorted, hq⟩ := h
  obtain ⟨rfl, rfl⟩ := Prod.mk.inj (Option.some.inj hstep)
  have hmono : ∀ x ∈ ps, Queued S s.presented (s.finOf th ++ s.fins) x := fun x hx =>
    ⟨(hq x hx).1.window, (hq x hx).1.content,
      fun hf => mem_append_right _ ((hq x hx).1.fin hf)⟩
  -- it is enough to present what is queued then
  have hpresent : ∀ ps' : List (Piece Byte (BitVec 8)), Piece.Sorted ps' →
      (∀ x ∈ ps', Queued S s.presented (s.finOf th ++ s.fins) x) →
      tcpReass s.tp th alloc = reassPresent { s.tp with t_segq := ps'.map (toSeg irs) } →
      Valid S irs { s with
        tp := (tcpReass s.tp th alloc).1
        presented := s.presented + ((tcpReass s.tp th alloc).1.rcv_nxt - s.tp.rcv_nxt).toNat
        fins := s.finOf th ++ s.fins } ∧
      ((tcpReass s.tp th alloc).2 &&& thFin ≠ 0 →
        s.presented + ((tcpReass s.tp th alloc).1.rcv_nxt - s.tp.rcv_nxt).toNat ∈
          s.finOf th ++ s.fins) := by
    intro ps' hs' hq' hcall
    have hspec := @reassPresent_spec S irs s.presented ps'
      { s.tp with t_segq := ps'.map (toSeg irs) } s.taken (s.finOf th ++ s.fins)
    obtain ⟨tp', flags', k, hrun, hvalid, hk, hfin⟩ := hspec hstate hn happ rfl hs' hq'
    rw [hcall, hrun]
    have hk' : (tp'.rcv_nxt - s.tp.rcv_nxt).toNat = k := hk
    simp only [hk']; exact ⟨hvalid, hfin⟩
  cases th with
  | none =>
    refine hpresent ps hsorted hmono ?_
    rw [← hps]; rfl
  | some te =>
    cases alloc with
    | false =>
      -- the segment is dropped
      have hzero : (s.tp.rcv_nxt - s.tp.rcv_nxt).toNat = 0 := by rw [BitVec.sub_self]; rfl
      have hflags : (tcpReass s.tp (some te) false).2 &&& thFin = 0 := by
        show (0 : BitVec 8) &&& thFin = 0; decide
      refine ⟨⟨hstate, ?_, ?_, ps, hps, hsorted, ?_⟩, fun hf => absurd hflags hf⟩
      all_goals
        simp only [tcpReass, Bool.false_eq_true, if_false, hzero, add_zero]
      · exact hn
      · exact happ
      · exact fun x hx => ⟨hmono x hx, (hq x hx).2⟩
    | true =>
      obtain ⟨hlen, hwin, hcont⟩ := hc
      -- the segment as a piece of the stream
      obtain ⟨m, hm⟩ : ∃ m : Piece Byte (BitVec 8), m = ⟨s.pos te, te.tqe_m, te.th_flags⟩ :=
        ⟨_, rfl⟩
      have hte : te = toSeg irs m := by
        obtain ⟨seq, fl, len, data⟩ := te
        have hseq : seq = irs + BitVec.ofNat 32 (s.presented + (seq - s.tp.rcv_nxt).toNat) := by
          rw [← seq_add, ← hn, BitVec.ofNat_toNat, BitVec.setWidth_eq]
          bv_omega
        have hlen' : len = data.length := hlen
        rw [hm, toSeg, TsegQent.mk.injEq]; exact ⟨hseq, rfl, hlen', rfl⟩
      have hmq : Queued S s.presented (s.finOf (some te) ++ s.fins) m := by
        rw [hm]
        refine ⟨⟨Nat.le_add_right _ _, ?_⟩, hcont, ?_⟩
        · simp only [Piece.stop, Session.pos]; omega
        · intro hf
          have hf' : ¬ te.th_flags &&& thFin = 0 := hf
          simp only [Session.finOf, if_neg hf', Piece.stop]
          exact mem_append_left _ (mem_singleton.mpr rfl)
      obtain ⟨hs', hrest, -⟩ := Piece.insert_spec hsorted m
      refine hpresent (Piece.insert m ps) hs' ?_ ?_
      · intro x hx
        obtain ⟨y, hy, hxy⟩ := hrest x hx
        refine Queued.rest ?_ hxy
        rcases mem_cons.mp hy with rfl | hy
        · exact hmq
        · exact hmono y hy
      · rw [← reassInsert_toSeg irs hmq.window fun x hx => (hmono x hx).window, ← hte, ← hps]; rfl

theorem step_valid (h : Valid S irs s) {op : Op} (hc : Carries S s op)
    (hstep : step s op = some (t, flags)) : Valid S irs t := by
  cases op with
  | reass th alloc => exact (tcpReass_valid h hc hstep).1
  | tState k =>
    obtain ⟨rfl, -⟩ := Prod.mk.inj (Option.some.inj hstep)
    exact ⟨hc, h.rcv_nxt, h.appended, h.queue⟩
  | socantrcvmore =>
    obtain ⟨rfl, -⟩ := Prod.mk.inj (Option.some.inj hstep)
    obtain ⟨k, hk, happ, -⟩ := h.appended
    exact ⟨h.state, h.rcv_nxt, ⟨k, hk, happ, fun hf => by cases hf⟩, h.queue⟩
  | receive k =>
    obtain ⟨rfl, -⟩ := Prod.mk.inj (Option.some.inj hstep)
    obtain ⟨i, hi, happ, hall⟩ := h.appended
    refine ⟨h.state, h.rcv_nxt, ⟨i, hi, ?_, hall⟩, h.queue⟩
    show s.taken ++ s.tp.so_rcv.take k ++ s.tp.so_rcv.drop k = streamTo S i
    rw [append_assoc, take_append_drop, happ]

/-! ## Runs -/

/-- In every run whose segments carry the stream, the session is in order. -/
theorem tcp_reass_of_run (hrun : Runs step (Carries S) (init irs) s) :
    InOrder S irs s ∧ FinLast S s := by
  have hvalid : Valid S irs s := hrun.invariant (init_valid S irs) fun s op t r hs hc hstep =>
    step_valid hs hc hstep
  refine ⟨hvalid.inOrder, ?_⟩
  intro th alloc t flags hc hstep; exact (tcpReass_valid hvalid hc hstep).2

/-- One byte at the beginning of a stream of zeros. -/
def firstByte : TsegQent where
  th_seq := 0
  th_flags := 0
  tqe_len := 1
  tqe_m := [0]

theorem firstByte_carries (s : Session) (h : s.tp.rcv_nxt = 0) (alloc : Bool) :
    Carries (fun _ => 0) s (.reass (some firstByte) alloc) := by
  have hdist : (firstByte.th_seq - s.tp.rcv_nxt).toNat = 0 := by rw [h]; rfl
  refine ⟨rfl, ?_, ?_⟩
  · rw [hdist]; decide
  · intro k b hk
    obtain ⟨hlt, hb⟩ := List.getElem?_eq_some_iff.mp hk
    obtain rfl : k = 0 := Nat.lt_one_iff.mp hlt
    exact hb

/-- A run of one segment. -/
theorem tcp_reass_of_run_first : ∃ s flags,
    step (init 0) (.reass (some firstByte) true) = some (s, flags) ∧
      InOrder (fun _ => 0) 0 s ∧ FinLast (fun _ => 0) s :=
  ⟨_, _, rfl, tcp_reass_of_run (Runs.refl.tail (firstByte_carries (init 0) rfl true) rfl)⟩

/-- What is presented to a socket that cannot receive any more is not appended. -/
theorem cantrcvmore_frees : ¬ ∀ S irs s, Runs step (Carries S) (init irs) s →
    s.taken ++ s.tp.so_rcv = streamTo S s.presented := by
  intro hall
  have hshut : Runs step (Carries fun _ => 0) (init 0)
      { init 0 with tp := { (init 0).tp with ssCantrcvmore := true } } :=
    Runs.refl.tail (show Carries (fun _ => 0) (init 0) .socantrcvmore from trivial) rfl
  have hrun := hshut.tail (firstByte_carries _ rfl true) rfl
  exact absurd (hall _ 0 _ hrun) (by decide)

end FreeBSD.TcpReass
