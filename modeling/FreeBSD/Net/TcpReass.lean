import FreeBSD.Lib.Pieces

/-!
# Reassembly of TCP segments, `netinet/tcp_input.c`

Model of `tcp_reass` (lines 177–305) with the queue and the receive side of one connection. The
mbuf chain of a segment is its bytes; `m_adj` drops bytes at the front and `sbappendstream` appends.

A stream has positions in `ℕ`; the sequence number of a position is the initial one plus it,
modulo `2^32`.
-/

namespace FreeBSD.TcpReass

open List
open Lib (Piece)

abbrev Byte := BitVec 8

/-- `tcp_seq`, a `u_int32_t`. -/
abbrev TcpSeq := BitVec 32

/-- `TH_FIN` (`netinet/tcp.h`) and `TCPS_ESTABLISHED` (`netinet/tcp_fsm.h`). -/
def thFin : BitVec 8 := 0x01
def tcpsEstablished : ℕ := 4

/-- `SEQ_GT(a, b)` and `SEQ_LEQ(a, b)` (`netinet/tcp_seq.h`). -/
def seqGt (a b : TcpSeq) : Bool := 0 < (a - b).toInt
def seqLeq (a b : TcpSeq) : Bool := (a - b).toInt ≤ 0

/-- `struct tseg_qent` (`netinet/tcp_var.h`) with its header and its mbuf chain. -/
structure TsegQent where
  th_seq : TcpSeq
  th_flags : BitVec 8
  tqe_len : ℕ
  tqe_m : List Byte
deriving DecidableEq

/-- The fields of `struct tcpcb` and its socket that the receive side uses. -/
structure Tcpcb where
  t_state : ℕ
  rcv_nxt : TcpSeq
  t_segq : List TsegQent
  ssCantrcvmore : Bool
  so_rcv : List Byte
deriving DecidableEq

/-! ## `tcp_reass` -/

/-- The new segment behind the preceding one `p` (lines 224–247), or `none` where it is dropped. -/
def reassFit (te : TsegQent) : Option TsegQent → Option TsegQent
  | none => some te
  | some p =>
    let i := (p.th_seq + BitVec.ofNat 32 p.tqe_len - te.th_seq).toInt
    if i > 0 then
      if i ≥ te.tqe_len then none
      else some { te with
        tqe_m := te.tqe_m.drop i.toNat, tqe_len := te.tqe_len - i.toNat,
        th_seq := te.th_seq + BitVec.ofInt 32 i }
    else some te

/-- The new segment in front of the succeeding ones (lines 255–271). -/
def reassPlace (te : TsegQent) : List TsegQent → List TsegQent
  | [] => [te]
  | q :: qs =>
    let i := (te.th_seq + BitVec.ofNat 32 te.tqe_len - q.th_seq).toInt
    if i ≤ 0 then te :: q :: qs
    else if i < q.tqe_len then
      te :: { q with
        th_seq := q.th_seq + BitVec.ofInt 32 i, tqe_len := q.tqe_len - i.toNat,
        tqe_m := q.tqe_m.drop i.toNat } :: qs
    else reassPlace te qs

/-- The segments that do not begin after the new one, and the others (lines 213–217). -/
def reassBefore (te : TsegQent) (segq : List TsegQent) : List TsegQent :=
  segq.takeWhile fun q => !seqGt q.th_seq te.th_seq
def reassAfter (te : TsegQent) (segq : List TsegQent) : List TsegQent :=
  segq.dropWhile fun q => !seqGt q.th_seq te.th_seq

/-- Lines 213–282: the queue with the new segment. -/
def reassInsert (te : TsegQent) (segq : List TsegQent) : List TsegQent :=
  match reassFit te (reassBefore te segq).getLast? with
  | none => segq
  | some te' => reassBefore te segq ++ reassPlace te' (reassAfter te segq)

/-- The loop of lines 291–302, with the flags of the segment before. -/
def reassLoop (tp : Tcpcb) (flags : BitVec 8) : List TsegQent → Tcpcb × BitVec 8
  | [] => ({ tp with t_segq := [] }, flags)
  | q :: qs =>
    if q.th_seq = tp.rcv_nxt then
      reassLoop { tp with
        rcv_nxt := tp.rcv_nxt + BitVec.ofNat 32 q.tqe_len
        so_rcv := if tp.ssCantrcvmore then tp.so_rcv else tp.so_rcv ++ q.tqe_m }
        (q.th_flags &&& thFin) qs
    else ({ tp with t_segq := q :: qs }, flags)

/-- From `present` on (lines 284–305). -/
def reassPresent (tp : Tcpcb) : Tcpcb × BitVec 8 :=
  if tp.t_state < tcpsEstablished then (tp, 0) else reassLoop tp 0 tp.t_segq

/-- `tcp_reass(tp, th, tlenp, m)`; `th` is the segment, or `none` for `th == 0`, and `alloc` tells
    whether a queue entry is there. -/
def tcpReass (tp : Tcpcb) (th : Option TsegQent) (alloc : Bool) : Tcpcb × BitVec 8 :=
  match th with
  | none => reassPresent tp
  | some te =>
    if alloc then reassPresent { tp with t_segq := reassInsert te tp.t_segq } else (tp, 0)

/-! ## Segments as pieces of a stream -/

/-- The segment of a piece, where the stream begins at `irs`. -/
def toSeg (irs : TcpSeq) (x : Piece Byte (BitVec 8)) : TsegQent :=
  { th_seq := irs + BitVec.ofNat 32 x.off, th_flags := x.tag, tqe_len := x.data.length,
    tqe_m := x.data }

/-- All of the piece is in the window of `2^31` positions from `n` on. -/
def InWindow (n : ℕ) (x : Piece Byte (BitVec 8)) : Prop := n ≤ x.off ∧ x.stop < n + 2 ^ 31

variable (irs : TcpSeq) {n : ℕ} {m p x : Piece Byte (BitVec 8)}
  {ps : List (Piece Byte (BitVec 8))}

/-- In a window, the difference of sequence numbers is that of the positions. -/
theorem seq_sub_toInt {i j : ℕ} (h : (i : ℤ) - j < 2 ^ 31)
    (h' : -(2 ^ 31) ≤ (i : ℤ) - j) :
    (irs + BitVec.ofNat 32 i - (irs + BitVec.ofNat 32 j)).toInt = (i : ℤ) - j := by
  have hcancel : irs + BitVec.ofNat 32 i - (irs + BitVec.ofNat 32 j) =
      BitVec.ofNat 32 i - BitVec.ofNat 32 j := by
    generalize BitVec.ofNat 32 i = a
    generalize BitVec.ofNat 32 j = b
    bv_omega
  have hof : ∀ k : ℕ, (BitVec.ofNat 32 k).toInt = (k : ℤ).bmod (2 ^ 32) := fun k =>
    BitVec.toInt_ofNat' k
  rw [hcancel, BitVec.toInt_sub, hof, hof, Int.bmod_sub_bmod, Int.sub_bmod_bmod]
  exact Int.bmod_eq_of_le (by norm_num; omega) (by norm_num; omega)

theorem seq_add (i j : ℕ) :
    irs + BitVec.ofNat 32 i + BitVec.ofNat 32 j = irs + BitVec.ofNat 32 (i + j) := by
  rw [BitVec.add_assoc, BitVec.ofNat_add]

theorem seq_inj {i j : ℕ} (hi : n ≤ i ∧ i < n + 2 ^ 31) (hj : n ≤ j ∧ j < n + 2 ^ 31)
    (h : irs + BitVec.ofNat 32 i = irs + BitVec.ofNat 32 j) : i = j := by
  have hsub := seq_sub_toInt irs (i := i) (j := j) (by omega) (by omega)
  rw [h, BitVec.sub_self, BitVec.toInt_zero] at hsub; omega

/-- Where the end of `p` lies from the beginning of `x`. -/
theorem toSeg_sub (hp : InWindow n p) (hx : InWindow n x) :
    ((toSeg irs p).th_seq + BitVec.ofNat 32 (toSeg irs p).tqe_len - (toSeg irs x).th_seq).toInt =
      (p.stop : ℤ) - x.off := by
  obtain ⟨h1, h2⟩ := hp
  obtain ⟨h3, h4⟩ := hx
  simp only [Piece.stop] at h2 h4
  show (irs + BitVec.ofNat 32 p.off + BitVec.ofNat 32 p.data.length -
    (irs + BitVec.ofNat 32 x.off)).toInt = _
  rw [seq_add, Piece.stop]; exact seq_sub_toInt irs (by omega) (by omega)

theorem seqGt_toSeg (hp : InWindow n p) (hx : InWindow n x) :
    seqGt (toSeg irs p).th_seq (toSeg irs x).th_seq = decide (x.off < p.off) := by
  obtain ⟨h1, h2⟩ := hp
  obtain ⟨h3, h4⟩ := hx
  simp only [Piece.stop] at h2 h4
  have hsub := seq_sub_toInt irs (i := p.off) (j := x.off) (by omega) (by omega)
  rw [seqGt, toSeg, toSeg, hsub]; exact decide_eq_decide.mpr (by omega)

/-- A segment that loses its front is the segment of the piece that does. -/
theorem toSeg_skip (x : Piece Byte (BitVec 8)) (i : ℕ) :
    { toSeg irs x with
      tqe_m := x.data.drop i, tqe_len := x.data.length - i,
      th_seq := (toSeg irs x).th_seq + BitVec.ofInt 32 i } = toSeg irs (x.skip i) := by
  have hseq : (toSeg irs x).th_seq + BitVec.ofInt 32 i = irs + BitVec.ofNat 32 (x.off + i) := by
    rw [BitVec.ofInt_natCast]; exact seq_add irs x.off i
  rw [hseq]; simp only [toSeg, Piece.skip, length_drop]

theorem reassFit_toSeg {p : Option (Piece Byte (BitVec 8))} (hm : InWindow n m)
    (hp : ∀ x, p = some x → InWindow n x) :
    reassFit (toSeg irs m) (p.map (toSeg irs)) = (Piece.fit m p).map (toSeg irs) := by
  cases p with
  | none => rfl
  | some p =>
    have hsub := toSeg_sub irs (hp p rfl) hm
    rw [Option.map_some, reassFit, Piece.fit]
    by_cases hle : p.stop ≤ m.off
    · rw [if_pos hle, if_neg (by rw [hsub]; omega)]
      rfl
    · have hi : (p.stop : ℤ) - m.off = ((p.stop - m.off : ℕ) : ℤ) := by omega
      rw [if_neg hle, if_pos (by rw [hsub]; omega), hsub, hi, Int.toNat_natCast]
      have hlen : (toSeg irs m).tqe_len = m.data.length := rfl
      by_cases hcov : m.stop ≤ p.stop
      · rw [if_pos hcov, if_pos (by rw [hlen]; simp only [Piece.stop] at hcov hle ⊢; omega)]
        rfl
      · rw [if_neg hcov, if_neg (by rw [hlen]; simp only [Piece.stop] at hcov hle ⊢; omega),
          Option.map_some, ← toSeg_skip]
        rfl

theorem reassPlace_toSeg (hm : InWindow n m) (hps : ∀ x ∈ ps, InWindow n x) :
    reassPlace (toSeg irs m) (ps.map (toSeg irs)) = (Piece.place m ps).map (toSeg irs) := by
  induction ps with
  | nil => rfl
  | cons q qs ih =>
    have hsub := toSeg_sub irs hm (hps q mem_cons_self)
    rw [map_cons, reassPlace, Piece.place]
    by_cases hstop : m.stop ≤ q.off
    · rw [if_pos hstop, if_pos (by rw [hsub]; omega)]
      rfl
    · have hi : (m.stop : ℤ) - q.off = ((m.stop - q.off : ℕ) : ℤ) := by omega
      rw [if_neg hstop, if_neg (by rw [hsub]; omega), hsub, hi, Int.toNat_natCast]
      have hlen : (toSeg irs q).tqe_len = q.data.length := rfl
      by_cases hcut : m.stop < q.stop
      · rw [if_pos hcut, if_pos (by rw [hlen]; simp only [Piece.stop] at hcut hstop ⊢; omega),
          map_cons, map_cons, ← toSeg_skip]
        rfl
      · rw [if_neg hcut, if_neg (by rw [hlen]; simp only [Piece.stop] at hcut hstop ⊢; omega)]
        exact ih fun x hx => hps x (mem_cons_of_mem _ hx)

/-- Pieces are in front of a new one by their positions, as segments are by `SEQ_GT`. -/
theorem reassBefore_toSeg (hm : InWindow n m) (hps : ∀ x ∈ ps, InWindow n x) :
    reassBefore (toSeg irs m) (ps.map (toSeg irs)) = (Piece.before m ps).map (toSeg irs) ∧
      reassAfter (toSeg irs m) (ps.map (toSeg irs)) = (Piece.after m ps).map (toSeg irs) := by
  induction ps with
  | nil => exact ⟨rfl, rfl⟩
  | cons q qs ih =>
    obtain ⟨hb, ha⟩ := ih fun x hx => hps x (mem_cons_of_mem _ hx)
    have hq : (!seqGt (toSeg irs q).th_seq (toSeg irs m).th_seq) = decide (q.off ≤ m.off) := by
      rw [seqGt_toSeg irs (hps q mem_cons_self) hm, ← decide_not]
      exact decide_eq_decide.mpr not_lt
    simp only [reassBefore, reassAfter, Piece.before, Piece.after, map_cons,
      takeWhile_cons, dropWhile_cons, hq] at hb ha ⊢
    by_cases hle : q.off ≤ m.off
    · simp only [hle, decide_true, if_true, map_cons, hb, ha]; exact ⟨trivial, trivial⟩
    · simp only [hle, decide_false, Bool.false_eq_true, if_false, map_nil, map_cons]
      exact ⟨trivial, trivial⟩

/-- Inside a window, a segment is inserted as a piece of the stream is. -/
theorem reassInsert_toSeg (hm : InWindow n m) (hps : ∀ x ∈ ps, InWindow n x) :
    reassInsert (toSeg irs m) (ps.map (toSeg irs)) = (Piece.insert m ps).map (toSeg irs) := by
  obtain ⟨hbefore, hafter⟩ := reassBefore_toSeg irs hm hps
  have hsplit := Piece.before_append_after m ps
  rw [reassInsert, Piece.insert, hbefore, hafter, List.getLast?_map, reassFit_toSeg irs hm]
  · cases hfit : Piece.fit m (Piece.before m ps).getLast? with
    | none => rfl
    | some m' =>
      have hm' : InWindow n m' := by
        have hrest := Piece.isRest_of_fit hfit
        exact ⟨hm.1.trans hrest.off, hrest.stop ▸ hm.2⟩
      rw [Option.map_some]
      show _ ++ reassPlace (toSeg irs m') _ = _
      rw [reassPlace_toSeg irs hm', map_append]
      intro x hx; exact hps x (hsplit ▸ mem_append_right _ hx)
  · intro x hx; exact hps x (hsplit ▸ mem_append_left _ (mem_of_getLast? hx))

/-! ## What is presented -/

/-- The flags that are returned when the pieces `A` were presented. -/
def flagsOf (flags : BitVec 8) (A : List (Piece Byte (BitVec 8))) : BitVec 8 :=
  match A.getLast? with
  | none => flags
  | some p => p.tag &&& thFin

theorem flagsOf_cons (flags : BitVec 8) (q : Piece Byte (BitVec 8))
    (A : List (Piece Byte (BitVec 8))) :
    flagsOf flags (q :: A) = flagsOf (q.tag &&& thFin) A := by
  cases A with
  | nil => rfl
  | cons a as =>
    rw [flagsOf, flagsOf, List.getLast?_cons_cons,
      List.getLast?_eq_some_getLast (cons_ne_nil a as)]

/-- The loop presents the pieces at the head of the queue that touch. -/
theorem reassLoop_spec {w : ℕ} {tp : Tcpcb} (flags : BitVec 8) (hs : Piece.Sorted ps)
    (hn : tp.rcv_nxt = irs + BitVec.ofNat 32 n) (hwn : w ≤ n ∧ n < w + 2 ^ 31)
    (hps : ∀ x ∈ ps, InWindow w x) (hle : ∀ x ∈ ps, n ≤ x.off) :
    ∃ A B k, ps = A ++ B ∧ Piece.touching n A = some k ∧ (∀ x ∈ B, k < x.off) ∧
      k < w + 2 ^ 31 ∧
      reassLoop tp flags (ps.map (toSeg irs)) =
        ({ tp with
          rcv_nxt := irs + BitVec.ofNat 32 k
          t_segq := B.map (toSeg irs)
          so_rcv := if tp.ssCantrcvmore then tp.so_rcv else tp.so_rcv ++ Piece.joined A },
          flagsOf flags A) := by
  induction ps generalizing n tp flags with
  | nil =>
    refine ⟨[], [], n, rfl, rfl, (fun x hx => absurd hx not_mem_nil), hwn.2, ?_⟩
    rw [map_nil, reassLoop, ← hn]; simp [Piece.joined, flagsOf]
  | cons q qs ih =>
    obtain ⟨hq, hqs⟩ := pairwise_cons.mp hs
    have hqw := hps q mem_cons_self
    have hqn := hle q mem_cons_self
    have hstop : q.off ≤ q.stop := Nat.le_add_right _ _
    rw [map_cons, reassLoop]
    by_cases hoff : q.off = n
    · -- the segment is presented
      have hseq : (toSeg irs q).th_seq = tp.rcv_nxt := by rw [hn, ← hoff]; rfl
      rw [if_pos hseq]
      have hqstop : q.stop = n + q.data.length := by rw [Piece.stop, hoff]
      obtain ⟨A, B, k, rfl, hA, hB, hk, hrun⟩ := @ih (n + q.data.length)
        { tp with
          rcv_nxt := tp.rcv_nxt + BitVec.ofNat 32 q.data.length
          so_rcv := if tp.ssCantrcvmore then tp.so_rcv else tp.so_rcv ++ q.data }
        (q.tag &&& thFin) hqs (by simp only [hn]; exact seq_add irs n _)
        (by have := hqw.2; omega) (fun x hx => hps x (mem_cons_of_mem _ hx))
        (fun x hx => hqstop ▸ hq x hx)
      refine ⟨q :: A, B, k, rfl, ?_, hB, hk, ?_⟩
      · rw [Piece.touching, if_pos hoff, hA]
      · rw [flagsOf_cons]
        refine Eq.trans hrun ?_
        have hjoin : Piece.joined (q :: A) = q.data ++ Piece.joined A := rfl
        rw [hjoin]
        cases hc : tp.ssCantrcvmore with
        | true => simp only [if_true]
        | false => simp only [Bool.false_eq_true, if_false, append_assoc]
    · -- the segment begins after what was presented
      have hseq : ¬ (toSeg irs q).th_seq = tp.rcv_nxt := by
        intro heq
        rw [hn] at heq; exact hoff (seq_inj irs ⟨hqw.1, by have := hqw.2; omega⟩ hwn heq)
      rw [if_neg hseq]
      refine ⟨[], q :: qs, n, rfl, rfl, ?_, hwn.2, ?_⟩
      · intro x hx
        rcases mem_cons.mp hx with rfl | hx
        · omega
        · have := hq x hx; omega
      · rw [← hn]; simp [Piece.joined, flagsOf]

end FreeBSD.TcpReass
