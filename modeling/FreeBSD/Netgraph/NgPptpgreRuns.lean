import FreeBSD.Netgraph.NgPptpgre

/-!
# The window of a PPTP node over whole runs

Whatever fails, the window keeps its bounds and the frames that are passed up come in the order of
their numbers. That every number in the window was sent, and that the timer runs while there is one,
holds as long as no frame fails after it got its number.

Results:
* `xmit_spec`, `recvAckOf_spec`, `recv_spec`, `timeout_spec`: what the handlers keep.
* `window_of_run`: the node in every state that is reached.
* `window_stuck`: a full window that no timer opens.
-/

namespace FreeBSD.NgPptpgre

open Lib List

variable {s t u : Node} {env env' : Env} {ack seq : Seq} {m : List Byte}

/-- The numbers of the frames that were sent, the last one first. -/
def sentSeqs (s : Node) : List Seq := s.down.filterMap fun p => p.1.seq

/-- A frame comes after another one. -/
def After (a b : Seq × List Byte) : Prop := 0 < seqDiff a.1 b.1

/-- The timer for acknowledgements is pending, or its handler is about to be called. -/
def Running (s : Node) : Prop :=
  ∃ arg, s.rackTimerPtr = some arg ∧ (s.rackTimer = some arg ∨ arg ∈ s.rackCalls)

/-- What holds whatever fails. -/
structure WindowOk (s : Node) : Prop where
  win_pos : 1 ≤ s.xmitWin.toNat
  win_le : s.xmitWin.toNat ≤ PPTP_XMIT_WIN
  out : outstanding s ≤ s.xmitWin.toNat
  times : s.timeSent.length = PPTP_XMIT_WIN
  idle : s.xmitSeq = s.recvAck → s.rackTimerPtr = none
  running : s.rackTimerPtr ≠ none → Running s
  order : s.up.IsChain After
  last : ∀ x ∈ s.up.head?, x.1 = s.recvSeq

/-- What holds if no frame fails. -/
structure SentOk (s : Node) : Prop where
  timer : s.xmitSeq ≠ s.recvAck → s.rackTimerPtr ≠ none
  sent : (sentSeqs s).take (outstanding s) =
    (List.range (outstanding s)).map fun i => s.xmitSeq - BitVec.ofNat 32 i

/-- What is not changed when a packet is sent. -/
structure Core (s t : Node) : Prop where
  xmitWin : t.xmitWin = s.xmitWin
  timeSent : t.timeSent = s.timeSent
  xmitSeq : t.xmitSeq = s.xmitSeq
  recvAck : t.recvAck = s.recvAck
  recvSeq : t.recvSeq = s.recvSeq
  rackCalls : t.rackCalls = s.rackCalls
  up : t.up = s.up

/-- What is not changed when an acknowledgement is sent or put off. -/
structure Same (s t : Node) : Prop extends Core s t where
  rackTimer : t.rackTimer = s.rackTimer
  rackTimerPtr : t.rackTimerPtr = s.rackTimerPtr
  sent : sentSeqs t = sentSeqs s

theorem Core.refl (s : Node) : Core s s := ⟨rfl, rfl, rfl, rfl, rfl, rfl, rfl⟩

theorem Same.refl (s : Node) : Same s s := ⟨Core.refl s, rfl, rfl, rfl⟩

theorem Core.outstanding (h : Core s t) : outstanding t = NgPptpgre.outstanding s := by
  unfold NgPptpgre.outstanding
  rw [h.xmitSeq, h.recvAck]

theorem Same.running (h : Same s t) (hs : Running s) : Running t := by
  obtain ⟨arg, hptr, hrun⟩ := hs
  exact ⟨arg, by rw [h.rackTimerPtr, hptr], by rw [h.rackTimer, h.rackCalls]; exact hrun⟩

theorem Same.windowOk (h : Same s t) (hs : WindowOk s) : WindowOk t := by
  refine ⟨?_, ?_, ?_, ?_, ?_, ?_, ?_, ?_⟩
  · rw [h.xmitWin]; exact hs.win_pos
  · rw [h.xmitWin]; exact hs.win_le
  · rw [h.outstanding, h.xmitWin]; exact hs.out
  · rw [h.timeSent]; exact hs.times
  · rw [h.xmitSeq, h.recvAck, h.rackTimerPtr]; exact hs.idle
  · rw [h.rackTimerPtr]; exact fun hne => h.running (hs.running hne)
  · rw [h.up]; exact hs.order
  · rw [h.up, h.recvSeq]; exact hs.last

theorem Same.sentOk (h : Same s t) (hs : SentOk s) : SentOk t := by
  refine ⟨?_, ?_⟩
  · rw [h.xmitSeq, h.recvAck, h.rackTimerPtr]; exact hs.timer
  · rw [h.sent, h.outstanding, h.xmitSeq]; exact hs.sent

theorem outstanding_eq_zero : outstanding s = 0 ↔ s.xmitSeq = s.recvAck := by
  unfold outstanding
  constructor
  · intro h
    bv_omega
  · intro h
    rw [h, BitVec.sub_self]; rfl

/-! ## Sending -/

/-- What is done about the acknowledgement in a packet. -/
theorem ackState_same (b : Bool) :
    Same s (if b then stopSendAckTimer { s with xmitAck := s.recvSeq } else s) := by
  cases b with
  | true => exact ⟨⟨rfl, rfl, rfl, rfl, rfl, rfl, rfl⟩, rfl, rfl, rfl⟩
  | false => exact Same.refl s

/-- An acknowledgement is sent, or fails. -/
theorem xmit_ack_spec (s : Node) (env : Env) :
    ∃ t e, xmit s none env = some (t, e) ∧ Same s t := by
  show ∃ t e, xmitPacket s none [] env = some (t, e) ∧ Same s t
  unfold xmitPacket
  dsimp only
  generalize decide (s.conf.enableAlwaysAck = true ∨ s.xmitAck ≠ s.recvSeq) = b
  have hsame := ackState_same (s := s) b
  split
  · split
    · exact ⟨_, _, rfl, hsame⟩
    · rw [if_neg (fun h => (by cases h.1))]
      exact ⟨_, _, rfl, ⟨hsame.xmitWin, hsame.timeSent, hsame.xmitSeq, hsame.recvAck,
        hsame.recvSeq, hsame.rackCalls, hsame.up⟩, hsame.rackTimer, hsame.rackTimerPtr, hsame.sent⟩
  · exact ⟨_, _, rfl, hsame⟩

/-- Nothing fails while a frame is sent. -/
def Works (env : Env) : Prop := env.header = true ∧ env.lower = none

/-- A frame with its number: the timer is started if there is no other one in the window. -/
theorem xmitPacket_spec (hidle : s.xmitSeq = s.recvAck + 1 → s.rackTimerPtr = none)
    (data : List Byte) (env : Env) :
    ∃ t e, xmitPacket s (some s.xmitSeq) data env = some (t, e) ∧ Core s t ∧
      (¬Works env ∧ Same s t ∨ Works env ∧ sentSeqs t = s.xmitSeq :: sentSeqs s ∧
        (s.xmitSeq = s.recvAck + 1 →
          t.rackTimerPtr = some env.mem ∧ t.rackTimer = some env.mem) ∧
        (s.xmitSeq ≠ s.recvAck + 1 →
          t.rackTimerPtr = s.rackTimerPtr ∧ t.rackTimer = s.rackTimer)) := by
  unfold xmitPacket
  dsimp only
  generalize decide (s.conf.enableAlwaysAck = true ∨ s.xmitAck ≠ s.recvSeq) = b
  have hsame := ackState_same (s := s) b
  generalize (if b then stopSendAckTimer { s with xmitAck := s.recvSeq } else s) = u at hsame ⊢
  by_cases hheader : env.header = true
  · rw [if_pos hheader]
    cases hlower : env.lower with
    | some e =>
      exact ⟨_, _, rfl, hsame.toCore, .inl ⟨fun h => (by rw [h.2] at hlower; cases hlower),
        hsame⟩⟩
    | none =>
      have hsent : ∀ gre : Gre, gre.seq = some s.xmitSeq →
          ((gre, data) :: u.down).filterMap (fun p => p.1.seq) = s.xmitSeq :: sentSeqs s := by
        intro gre hgre
        rw [filterMap_cons, hgre, ← hsame.sent]; rfl
      have hcore : ∀ down timer ptr,
          Core s { u with down := down, rackTimer := timer, rackTimerPtr := ptr } := fun _ _ _ =>
        ⟨hsame.xmitWin, hsame.timeSent, hsame.xmitSeq, hsame.recvAck, hsame.recvSeq,
          hsame.rackCalls, hsame.up⟩
      by_cases hfirst : s.xmitSeq = s.recvAck + 1
      · have hnone := hsame.rackTimerPtr.trans (hidle hfirst)
        have hfirst' : u.xmitSeq = u.recvAck + 1 := by rw [hsame.xmitSeq, hsame.recvAck, hfirst]
        dsimp only
        rw [if_pos ⟨rfl, hfirst'⟩]
        unfold startRecvAckTimer
        rw [if_pos hnone]
        exact ⟨_, _, rfl, hcore _ _ _,
          .inr ⟨⟨hheader, hlower⟩, hsent _ rfl, fun _ => ⟨rfl, rfl⟩,
            fun hne => absurd hfirst hne⟩⟩
      · have hfirst' : ¬u.xmitSeq = u.recvAck + 1 := by
          rw [hsame.xmitSeq, hsame.recvAck]; exact hfirst
        dsimp only
        rw [if_neg fun h => hfirst' h.2]
        exact ⟨_, _, rfl, hcore _ _ _, .inr ⟨⟨hheader, hlower⟩, hsent _ rfl,
          fun h => absurd h hfirst, fun _ => ⟨hsame.rackTimerPtr, hsame.rackTimer⟩⟩⟩
  · rw [if_neg hheader]; exact ⟨_, _, rfl, hsame.toCore, .inl ⟨fun h => hheader h.1, hsame⟩⟩

/-- What is kept when a frame is sent, and what fails then. -/
theorem xmit_spec (h : WindowOk s) (m : List Byte) (env : Env) :
    ∃ t e, xmit s (some m) env = some (t, e) ∧ WindowOk t ∧
      ((outstanding s < s.xmitWin.toNat → m.length ≤ PPTP_MAX_PAYLOAD → Works env) →
        SentOk s → SentOk t) := by
  unfold xmit
  dsimp only
  split
  · exact ⟨s, _, rfl, h, fun _ hs => hs⟩
  rename_i hroom
  split
  · exact ⟨s, _, rfl, h, fun _ hs => hs⟩
  rename_i hlen
  have hlt : outstanding s < s.xmitWin.toNat := not_le.1 hroom
  have hwin := h.win_le
  have hindex : (s.xmitSeq - s.recvAck).toNat < s.timeSent.length := by
    rw [h.times]; exact hlt.trans_le hwin
  rw [if_pos hindex]
  obtain ⟨u, hu⟩ : ∃ u, u = ({ s with
    timeSent := s.timeSent.set (s.xmitSeq - s.recvAck).toNat env.now
    xmitSeq := s.xmitSeq + 1 } : Node) := ⟨_, rfl⟩
  have hseq : u.xmitSeq = s.xmitSeq + 1 := by rw [hu]
  have hack : u.recvAck = s.recvAck := by rw [hu]
  have hptr : u.rackTimerPtr = s.rackTimerPtr := by rw [hu]
  have hfirst : u.xmitSeq = u.recvAck + 1 ↔ s.xmitSeq = s.recvAck := by
    rw [hseq, hack]; exact BitVec.add_left_inj 1
  have hout : outstanding u = outstanding s + 1 := by
    have hlt16 : outstanding s < 16 := hlt.trans_le hwin
    unfold outstanding at hlt16 ⊢
    rw [hseq, hack]
    bv_omega
  obtain ⟨t, e, ht, hcore, hcase⟩ := xmitPacket_spec (s := u) (fun hf => by
    rw [hptr]
    exact h.idle (hfirst.1 hf)) m env
  have houtT : outstanding t = outstanding s + 1 := hcore.outstanding.trans hout
  have hrunning : t.rackTimerPtr ≠ none → Running t := by
    intro hne
    have hkeep : t.rackTimerPtr = s.rackTimerPtr → t.rackTimer = s.rackTimer → Running t := by
      intro hp hr
      obtain ⟨arg, harg, hrun⟩ := h.running (hp ▸ hne)
      refine ⟨arg, hp.trans harg, ?_⟩
      rw [hr, hcore.rackCalls, hu]; exact hrun
    rcases hcase with ⟨-, hsame⟩ | ⟨-, -, hstart, hrest⟩
    · exact hkeep (by rw [hsame.rackTimerPtr, hu]) (by rw [hsame.rackTimer, hu])
    · by_cases hf : u.xmitSeq = u.recvAck + 1
      · obtain ⟨hp, hr⟩ := hstart hf
        exact ⟨env.mem, hp, .inl hr⟩
      · obtain ⟨hp, hr⟩ := hrest hf
        exact hkeep (by rw [hp, hu]) (by rw [hr, hu])
  rw [hseq, hu] at ht
  refine ⟨t, e, ht, ⟨?_, ?_, ?_, ?_, fun heq => ?_, hrunning, ?_, ?_⟩, fun hworks hs => ?_⟩
  · rw [hcore.xmitWin, hu]; exact h.win_pos
  · rw [hcore.xmitWin, hu]; exact hwin
  · rw [houtT, hcore.xmitWin, hu]; exact hlt
  · rw [hcore.timeSent, hu]; exact length_set.trans h.times
  · have := outstanding_eq_zero.2 heq; omega
  · rw [hcore.up, hu]; exact h.order
  · rw [hcore.up, hcore.recvSeq, hu]; exact h.last
  · have hw := hworks hlt (not_lt.1 hlen)
    rcases hcase with ⟨hno, -⟩ | ⟨-, hsent, hstart, hrest⟩
    · exact absurd hw hno
    refine ⟨fun _ => ?_, ?_⟩
    · by_cases hf : u.xmitSeq = u.recvAck + 1
      · rw [(hstart hf).1]; exact Option.some_ne_none _
      · rw [(hrest hf).1, hptr]; exact hs.timer fun heq => hf (hfirst.2 heq)
    · have hsentU : sentSeqs u = sentSeqs s := by
        rw [hu]; rfl
      rw [houtT, hsent, hcore.xmitSeq, hseq, hsentU, take_succ_cons, hs.sent,
        range_succ_eq_map, map_cons, map_map]
      refine congrArg₂ List.cons (by simp) (map_congr_left fun i _ => ?_)
      show s.xmitSeq - BitVec.ofNat 32 i = s.xmitSeq + 1 - BitVec.ofNat 32 (i + 1)
      rw [BitVec.ofNat_add]
      bv_omega

/-! ## Receiving -/

theorem shiftTimes_length {times : List ℕ} {n : ℕ} (h : n ≤ times.length) :
    (shiftTimes times n).length = times.length := by
  unfold shiftTimes
  rw [length_append, length_drop, length_drop]; omega

theorem growWindow_spec (s : Node) (ack : Seq) (h : s.xmitWin.toNat ≤ PPTP_XMIT_WIN) :
    ∃ w a, growWindow s ack = { s with xmitWin := w, winAck := a } ∧
      s.xmitWin.toNat ≤ w.toNat ∧ w.toNat ≤ PPTP_XMIT_WIN := by
  unfold growWindow
  split
  · rename_i hgrow
    refine ⟨_, _, rfl, ?_, ?_⟩
    · have hlt : s.xmitWin.toNat < 16 := hgrow.2
      bv_omega
    · have hlt : s.xmitWin.toNat < 16 := hgrow.2
      show _ ≤ 16
      bv_omega
  · exact ⟨_, _, rfl, le_refl _, h⟩

/-- The timer is started again if there is something to wait for. -/
theorem restart_spec (h : WindowOk s) (hptr : s.rackTimerPtr = none) (mem : ℕ) :
    ∃ t, (if s.recvAck ≠ s.xmitSeq then startRecvAckTimer s mem else some s) = some t ∧
      WindowOk t ∧ ((sentSeqs s).take (outstanding s) =
        (List.range (outstanding s)).map (fun i => s.xmitSeq - BitVec.ofNat 32 i) → SentOk t) := by
  split
  · rename_i hne
    unfold startRecvAckTimer
    rw [if_pos hptr]
    refine ⟨_, rfl, ⟨h.win_pos, h.win_le, h.out, h.times, fun heq => absurd heq.symm hne,
      fun _ => ⟨mem, rfl, .inl rfl⟩, h.order, h.last⟩, fun hsent => ⟨fun _ => ?_, hsent⟩⟩
    exact Option.some_ne_none mem
  · rename_i heq
    exact ⟨s, rfl, h, fun hsent => ⟨fun hne => absurd (not_not.1 heq).symm hne, hsent⟩⟩

/-- What the acknowledgement of a packet keeps. -/
theorem recvAckOf_spec (h : WindowOk s) (ack : Seq) (env : Env) :
    ∃ t, recvAckOf s ack env = some t ∧ WindowOk t ∧ (SentOk s → SentOk t) := by
  unfold recvAckOf
  dsimp only
  split
  · exact ⟨s, rfl, h, fun hs => hs⟩
  rename_i hle
  split
  · exact ⟨s, rfl, h, fun hs => hs⟩
  rename_i hgt
  obtain ⟨n, -, hn, hindex, hout, -⟩ :=
    accepted_index (h.out.trans h.win_le) ⟨not_lt.1 hle, not_le.1 hgt⟩
  have hwin := h.win_le
  have hlen := h.times
  have hn16 : n < 16 := hn.trans_le (h.out.trans hwin)
  have hbound : (0 : ℤ) ≤ n ∧ (n : ℤ) < s.timeSent.length := by
    rw [hlen]; exact ⟨Int.natCast_nonneg n, Int.ofNat_lt.2 hn16⟩
  rw [hindex, if_pos hbound, Int.toNat_natCast]
  obtain ⟨v, hv⟩ : ∃ v, v = ({ adapt { s with recvAck := ack }
    (wrap (env.now - s.timeSent.getD n 0))
    with timeSent := shiftTimes s.timeSent (n + 1) } : Node) := ⟨_, rfl⟩
  have hvwin : v.xmitWin = s.xmitWin := by rw [hv]; rfl
  obtain ⟨w, a, hgrow, hlo, hhi⟩ := growWindow_spec v ack (by rw [hvwin]; exact hwin)
  rw [hvwin] at hlo
  have hseq : v.xmitSeq = s.xmitSeq := by rw [hv]; rfl
  have hrecv : v.recvAck = ack := by rw [hv]; rfl
  have hvout : (v.xmitSeq - v.recvAck).toNat = outstanding s - (n + 1) := by rw [hseq, hrecv, hout]
  have hsent : sentSeqs v = sentSeqs s := by rw [hv]; rfl
  obtain ⟨u, hu⟩ : ∃ u, u = stopRecvAckTimer (growWindow v ack) := ⟨_, rfl⟩
  have hukeep : u.xmitSeq = v.xmitSeq ∧ u.recvAck = v.recvAck ∧ u.xmitWin = w ∧
      u.timeSent = v.timeSent ∧ u.up = v.up ∧ u.recvSeq = v.recvSeq ∧ sentSeqs u = sentSeqs v := by
    rw [hu, hgrow]; exact ⟨rfl, rfl, rfl, rfl, rfl, rfl, rfl⟩
  obtain ⟨huseq, huack, huwin, hutimes, huup, hurecv, husent⟩ := hukeep
  have huptr : u.rackTimerPtr = none := by rw [hu]; rfl
  have huout : outstanding u = outstanding s - (n + 1) := by
    unfold outstanding
    rw [huseq, huack]; exact hvout
  have hok : WindowOk u := by
    refine ⟨?_, ?_, ?_, ?_, fun _ => huptr, fun hne => absurd huptr hne, ?_, ?_⟩
    · rw [huwin]; exact h.win_pos.trans hlo
    · rw [huwin]; exact hhi
    · rw [huout, huwin]
      have := h.out; omega
    · rw [hutimes, hv]; exact (shiftTimes_length (by rw [hlen]; exact hn16)).trans hlen
    · rw [huup, hv]; exact h.order
    · rw [huup, hurecv, hv]; exact h.last
  obtain ⟨t, ht, htok, htsent⟩ := restart_spec hok huptr env.mem
  rw [hu, hv] at ht
  refine ⟨t, ht, htok, fun hs => htsent ?_⟩
  rw [husent, hsent, huout, huseq, hseq]
  have htake := congrArg (List.take (outstanding s - (n + 1))) hs.sent
  rw [take_take, min_eq_left (Nat.sub_le _ _), ← map_take, take_range,
    min_eq_left (Nat.sub_le _ _)] at htake
  exact htake

/-- An acknowledgement is sent or put off. -/
theorem ackSoon_spec (s : Node) (env : Env) : ∃ t, ackSoon s env = some t ∧ Same s t := by
  unfold ackSoon
  split
  · rename_i hnone
    split
    · unfold startSendAckTimer
      rw [if_pos hnone]; exact ⟨_, rfl, ⟨rfl, rfl, rfl, rfl, rfl, rfl, rfl⟩, rfl, rfl, rfl⟩
    · obtain ⟨t, e, ht, hsame⟩ := xmit_ack_spec s env
      exact ⟨t, by rw [ht]; rfl, hsame⟩
  · exact ⟨s, rfl, Same.refl s⟩

/-- A frame is passed up behind those that came before it. -/
theorem recvData_spec (h : WindowOk s) (seq : Seq) (m : List Byte) (env : Env) :
    ∃ t e, recvData s seq m env = some (t, e) ∧ WindowOk t ∧ (SentOk s → SentOk t) := by
  unfold recvData
  split
  · exact ⟨s, _, rfl, h, fun hs => hs⟩
  rename_i hgt
  obtain ⟨t, ht, hsame⟩ := ackSoon_spec { s with recvSeq := seq } env
  have hup : t.up = s.up := hsame.up
  have hout : outstanding t = outstanding s := hsame.outstanding
  have hseq : t.xmitSeq = s.xmitSeq := hsame.xmitSeq
  have hack : t.recvAck = s.recvAck := hsame.recvAck
  have hptr : t.rackTimerPtr = s.rackTimerPtr := hsame.rackTimerPtr
  rw [ht]
  refine ⟨_, _, rfl, ⟨?_, ?_, ?_, ?_, fun heq => ?_, fun hne => ?_, ?_, ?_⟩, fun hs => ⟨?_, ?_⟩⟩
  · exact h.win_pos.trans_eq (congrArg BitVec.toNat hsame.xmitWin.symm)
  · exact (congrArg BitVec.toNat hsame.xmitWin).trans_le h.win_le
  · exact hout.trans_le (h.out.trans_eq (congrArg BitVec.toNat hsame.xmitWin.symm))
  · exact (congrArg List.length hsame.timeSent).trans h.times
  · have heq : t.xmitSeq = t.recvAck := heq
    exact hptr.trans (h.idle (by rw [← hseq, ← hack, heq]))
  · obtain ⟨arg, harg, hrun⟩ := h.running fun hnone => hne (hptr.trans hnone)
    refine ⟨arg, hptr.trans harg, ?_⟩
    rw [← hsame.rackTimer, ← hsame.rackCalls] at hrun; exact hrun
  · show ((seq, m) :: t.up).IsChain After
    rw [hup]
    refine isChain_cons.2 ⟨fun x hx => ?_, h.order⟩
    show 0 < seqDiff seq x.1
    rw [h.last x hx]; exact not_le.1 hgt
  · intro x hx
    obtain rfl := Option.some.inj hx
    exact hsame.recvSeq.symm
  · show t.xmitSeq ≠ t.recvAck → t.rackTimerPtr ≠ none
    rw [hseq, hack, hptr]; exact hs.timer
  · show (sentSeqs t).take (outstanding t) = (List.range (outstanding t)).map
      fun i => t.xmitSeq - BitVec.ofNat 32 i
    rw [hout, hseq, hsame.sent]; exact hs.sent

/-- What a packet keeps. -/
theorem recv_spec (h : WindowOk s) (m : List Byte) (pullup : ℕ → Bool) (env env' : Env) :
    ∃ t e, recv s m pullup env env' = some (t, e) ∧ WindowOk t ∧ (SentOk s → SentOk t) := by
  unfold recv
  cases readPacket s.conf m pullup with
  | error e => exact ⟨s, some e, rfl, h, fun hs => hs⟩
  | ok p =>
    obtain ⟨ack, data⟩ := p
    cases ack with
    | none =>
      cases data with
      | none => exact ⟨s, none, rfl, h, fun hs => hs⟩
      | some p => exact recvData_spec h p.1 p.2 env'
    | some ack =>
      obtain ⟨u, hu, huok, husent⟩ := recvAckOf_spec h ack env
      dsimp only
      rw [hu]
      cases data with
      | none => exact ⟨u, none, rfl, huok, husent⟩
      | some p =>
        obtain ⟨t, e, ht, htok, htsent⟩ := recvData_spec huok p.1 p.2 env'
        exact ⟨t, e, ht, htok, fun hs => htsent (husent hs)⟩

/-! ## Callouts and messages -/

theorem half_win {w : BitVec 16} (hpos : 1 ≤ w.toNat) (hle : w.toNat ≤ PPTP_XMIT_WIN) :
    1 ≤ (BitVec.ofNat 16 ((w.toNat + 1) / 2)).toNat ∧
      (BitVec.ofNat 16 ((w.toNat + 1) / 2)).toNat ≤ PPTP_XMIT_WIN := by
  have hle : w.toNat ≤ 16 := hle
  show _ ∧ _ ≤ 16
  rw [BitVec.toNat_ofNat]; omega

/-- What the handler of the timer keeps. -/
theorem timeout_spec (h : WindowOk s) (arg : ℕ) :
    WindowOk (recvAckTimeout s arg) ∧ (SentOk s → SentOk (recvAckTimeout s arg)) := by
  unfold recvAckTimeout
  dsimp only
  split
  · rename_i hne
    refine ⟨⟨h.win_pos, h.win_le, h.out, h.times, h.idle, fun hptr => ?_, h.order, h.last⟩,
      fun hs => ⟨hs.timer, hs.sent⟩⟩
    obtain ⟨arg', harg', hrun⟩ := h.running hptr
    refine ⟨arg', harg', hrun.imp id fun hmem => ?_⟩
    refine (mem_erase_of_ne fun heq => hne ?_).2 hmem
    rw [← heq]; exact harg'
  · obtain ⟨hpos, hle⟩ := half_win h.win_pos h.win_le
    refine ⟨⟨hpos, hle, ?_, h.times, fun _ => rfl, fun hne => absurd rfl hne, h.order, h.last⟩,
      fun _ => ⟨fun hne => absurd rfl hne, ?_⟩⟩
    · exact (outstanding_eq_zero.2 rfl).trans_le (Nat.zero_le _)
    · rw [show outstanding _ = 0 from outstanding_eq_zero.2 rfl]; rfl

/-- After the handler there is room in the window. -/
theorem timeout_reopens (h : WindowOk s) {arg : ℕ} (hptr : s.rackTimerPtr = some arg) :
    outstanding (recvAckTimeout s arg) < (recvAckTimeout s arg).xmitWin.toNat := by
  have hzero : outstanding (recvAckTimeout s arg) = 0 := by
    refine outstanding_eq_zero.2 ?_
    unfold recvAckTimeout
    dsimp only
    rw [if_neg (not_not.2 hptr)]
  rw [hzero]; exact (timeout_spec h arg).1.win_pos

theorem sendAckTimeout_spec (h : WindowOk s) (arg : ℕ) (env : Env) :
    ∃ t, sendAckTimeout s arg env = some t ∧ WindowOk t ∧ (SentOk s → SentOk t) := by
  have hkeep : ∀ calls ptr, Same s { s with sackCalls := calls, sackTimerPtr := ptr } := fun _ _ =>
    ⟨⟨rfl, rfl, rfl, rfl, rfl, rfl, rfl⟩, rfl, rfl, rfl⟩
  unfold sendAckTimeout
  dsimp only
  split
  · exact ⟨_, rfl, (hkeep _ s.sackTimerPtr).windowOk h, (hkeep _ s.sackTimerPtr).sentOk⟩
  · have hsame := hkeep (s.sackCalls.erase arg) none
    obtain ⟨t, e, ht, hsame'⟩ := xmit_ack_spec
      { s with sackCalls := s.sackCalls.erase arg, sackTimerPtr := none } env
    rw [ht]
    exact ⟨t, rfl, hsame'.windowOk (hsame.windowOk h), fun hs => hsame'.sentOk (hsame.sentOk hs)⟩

theorem reset_win (w : BitVec 16) :
    let w := if w.toNat < 2 then 2 else w
    let w := if PPTP_XMIT_WIN < w.toNat then BitVec.ofNat 16 PPTP_XMIT_WIN else w
    1 ≤ w.toNat ∧ w.toNat ≤ PPTP_XMIT_WIN := by
  dsimp only
  have hpos : 1 ≤ (if w.toNat < 2 then 2 else w).toNat := by
    split
    · decide
    · omega
  generalize (if w.toNat < 2 then 2 else w) = v at hpos ⊢
  split
  · exact ⟨by decide, by decide⟩
  · rename_i hle
    exact ⟨hpos, not_lt.1 hle⟩

/-- A node that is configured starts from an empty window. -/
theorem setConfig_spec (htimes : s.timeSent.length = PPTP_XMIT_WIN) (newConf : Conf) :
    WindowOk (setConfig s newConf) ∧ SentOk (setConfig s newConf) := by
  obtain ⟨hpos, hle⟩ := reset_win (BitVec.ofNat 16 ((s.conf.recvWin.toNat + 1) / 2))
  have hzero : outstanding (setConfig s newConf) = 0 := outstanding_eq_zero.2 rfl
  refine ⟨⟨hpos, hle, hzero.trans_le (Nat.zero_le _), htimes, fun _ => rfl,
    fun hne => absurd rfl hne, List.IsChain.nil, fun x hx => (by cases hx)⟩,
    fun hne => absurd rfl hne, ?_⟩
  rw [hzero]; rfl

/-! ## Runs -/

/-- A callout goes off only if it is pending, and is called only if it went off. -/
def Possible (s : Node) : Op → Prop
  | .rackFires => s.rackTimer ≠ none
  | .sackFires => s.sackTimer ≠ none
  | .rackCalled arg => arg ∈ s.rackCalls
  | .sackCalled arg _ => arg ∈ s.sackCalls
  | .upper _ _ | .lower _ _ _ _ | .setConfig _ => True

/-- A frame that gets a number is sent: there is memory for its header, and the lower hook takes
    it. -/
def Fits (s : Node) : Op → Prop
  | .upper m env => s.conf.enabled = true → outstanding s < s.xmitWin.toNat →
      m.length ≤ PPTP_MAX_PAYLOAD → env.header = true ∧ env.lower = none
  | _ => True

/-- What a step keeps. -/
theorem step_spec (h : WindowOk s) {op : Op} (hop : Possible s op) :
    ∃ t e, step s op = some (t, e) ∧ WindowOk t ∧ (Fits s op → SentOk s → SentOk t) := by
  cases op with
  | upper m env =>
    show ∃ t e, (if s.conf.enabled then _ else _) = some (t, e) ∧ _
    by_cases hen : s.conf.enabled = true
    · rw [if_pos hen]
      obtain ⟨t, e, ht, hok, hsent⟩ := xmit_spec h m env
      exact ⟨t, e, ht, hok, fun hfits => hsent (hfits hen)⟩
    · rw [if_neg hen]; exact ⟨s, _, rfl, h, fun _ hs => hs⟩
  | lower m pullup env env' =>
    show ∃ t e, (if s.conf.enabled then _ else _) = some (t, e) ∧ _
    split
    · obtain ⟨t, e, ht, hok, hsent⟩ := recv_spec h m pullup env env'
      exact ⟨t, e, ht, hok, fun _ => hsent⟩
    · exact ⟨s, _, rfl, h, fun _ hs => hs⟩
  | setConfig newConf =>
    obtain ⟨hok, hsent⟩ := setConfig_spec h.times newConf
    exact ⟨_, _, rfl, hok, fun _ _ => hsent⟩
  | rackFires =>
    obtain ⟨arg, harg⟩ := Option.ne_none_iff_exists'.1 hop
    refine ⟨{ s with rackTimer := none, rackCalls := arg :: s.rackCalls }, none, ?_, ⟨h.win_pos,
      h.win_le, h.out, h.times, h.idle, fun hne => ?_, h.order, h.last⟩,
      fun _ hs => ⟨hs.timer, hs.sent⟩⟩
    · rw [step, harg]
    · obtain ⟨arg', hptr, hrun⟩ := h.running hne
      refine ⟨arg', hptr, .inr ?_⟩
      rcases hrun with hrun | hmem
      · obtain rfl := Option.some.inj (harg.symm.trans hrun)
        exact mem_cons_self
      · exact mem_cons_of_mem _ hmem
  | sackFires =>
    obtain ⟨arg, harg⟩ := Option.ne_none_iff_exists'.1 hop
    have hsame : Same s { s with sackTimer := none, sackCalls := arg :: s.sackCalls } :=
      ⟨⟨rfl, rfl, rfl, rfl, rfl, rfl, rfl⟩, rfl, rfl, rfl⟩
    refine ⟨_, none, ?_, hsame.windowOk h, fun _ => hsame.sentOk⟩
    rw [step, harg]
  | rackCalled arg =>
    obtain ⟨hok, hsent⟩ := timeout_spec h arg
    exact ⟨_, none, if_pos hop, hok, fun _ => hsent⟩
  | sackCalled arg env =>
    obtain ⟨t, ht, hok, hsent⟩ := sendAckTimeout_spec h arg env
    refine ⟨t, none, (if_pos hop).trans ?_, hok, fun _ => hsent⟩
    rw [ht]; rfl

theorem possible_of_step {op : Op} {x : Node × Option Errno} (h : step s op = some x) :
    Possible s op := by
  cases op with
  | upper m env => trivial
  | lower m pullup env env' => trivial
  | setConfig newConf => trivial
  | rackFires =>
    intro hnone
    rw [step, hnone] at h
    cases h
  | sackFires =>
    intro hnone
    rw [step, hnone] at h
    cases h
  | rackCalled arg =>
    by_contra hno
    rw [show step s (.rackCalled arg) = none from if_neg hno] at h
    cases h
  | sackCalled arg env =>
    by_contra hno
    rw [show step s (.sackCalled arg env) = none from if_neg hno] at h
    cases h

/-- The node in every state that is reached. Whatever fails, the window keeps its bounds, no handler
    reads or writes outside of `timeSent`, and frames are passed up in the order of their numbers.
    If no frame fails that has a number, the timer runs while the window is not empty and opens it,
    and what is acknowledged was sent. -/
theorem window_of_run {newConf : Conf}
    (hrun : Runs step (fun _ _ => True) (setConfig created newConf) s) :
    (outstanding s ≤ PPTP_XMIT_WIN ∧ 1 ≤ s.xmitWin.toNat ∧ s.xmitWin.toNat ≤ PPTP_XMIT_WIN ∧
      s.up.IsChain After ∧ ∀ op, Possible s op → ∃ t e, step s op = some (t, e)) ∧
    (Runs step Fits (setConfig created newConf) s →
      (∀ ack, Accepted s ack → ack ∈ (sentSeqs s).take (outstanding s)) ∧
      (s.xmitSeq ≠ s.recvAck → Running s ∧ ∀ arg, s.rackTimerPtr = some arg →
        outstanding (recvAckTimeout s arg) < (recvAckTimeout s arg).xmitWin.toNat)) := by
  have hinit := setConfig_spec (s := created) length_replicate newConf
  have h : WindowOk s := hrun.invariant hinit.1 fun u op u' e hu _ hstep => by
    obtain ⟨t, e', ht, hok, -⟩ := step_spec hu (possible_of_step hstep)
    rw [ht] at hstep
    obtain rfl := congrArg Prod.fst (Option.some.inj hstep)
    exact hok
  refine ⟨⟨h.out.trans h.win_le, h.win_pos, h.win_le, h.order, fun op hop => ?_⟩, fun hfits => ?_⟩
  · obtain ⟨t, e, ht, -⟩ := step_spec h hop
    exact ⟨t, e, ht⟩
  have hsent : WindowOk s ∧ SentOk s := hfits.invariant (I := fun s => WindowOk s ∧ SentOk s) hinit
      fun u op u' e hu hf hstep => by
    obtain ⟨t, e', ht, hok, hsent⟩ := step_spec hu.1 (possible_of_step hstep)
    rw [ht] at hstep
    obtain rfl := congrArg Prod.fst (Option.some.inj hstep)
    exact ⟨hok, hsent hf hu.2⟩
  refine ⟨fun ack hack => ?_, fun hne => ⟨h.running (hsent.2.timer hne), fun arg harg =>
    timeout_reopens h harg⟩⟩
  obtain ⟨n, -, hn, -, -, heq⟩ := accepted_index (h.out.trans h.win_le) hack
  rw [hsent.2.sent, heq]; exact mem_map.2 ⟨_, mem_range.2 (by omega), rfl⟩

/-- A configuration that lets traffic flow. -/
def plainConf : Conf := ⟨true, false, false, 1, 2, 16, 0⟩

/-- A frame is sent: the timer runs. -/
theorem window_of_run_send : ∃ s, Runs step Fits (setConfig created plainConf) s ∧
    outstanding s = 1 ∧ Running s := by
  obtain ⟨s, hrun, hs⟩ := exists_of_exec step (P := Fits) (s := setConfig created plainConf)
    (f := fun s => (outstanding s, decide (s.xmitSeq ≠ s.recvAck)))
    (b := (1, true)) [.upper [1] ⟨0, true, none, 7⟩]
    (fun s op hop => by
      rw [mem_singleton.1 hop]
      exact fun _ _ _ => ⟨rfl, rfl⟩) (by decide)
  obtain ⟨hout, hne⟩ := Prod.ext_iff.1 hs
  have h := window_of_run (hrun.mono fun _ _ _ => trivial)
  exact ⟨s, hrun, hout, ((h.2 hrun).2 (of_decide_eq_true hne)).1⟩

/-- Two frames fail one after the other: the window is full, nothing was sent, no timer runs, and no
    frame gets a number any more. -/
theorem window_stuck : ∃ s, Runs step (fun _ _ => True) (setConfig created plainConf) s ∧
    s.xmitSeq ≠ s.recvAck ∧ ¬Running s ∧ s.down = [] ∧ Accepted s 0 ∧
    ∀ m env, step s (.upper m env) = some (s, some .ENOBUFS) := by
  obtain ⟨s, hrun, hs⟩ := exists_of_exec step (P := fun _ _ => True)
    (s := setConfig created plainConf)
    (f := fun s =>
      (s.rackTimerPtr, s.down.length, s.xmitSeq, s.recvAck, s.xmitWin, s.conf.enabled))
    (b := (none, 0, 1, -1, 2, true))
    [.upper [1] ⟨0, false, none, 7⟩, .upper [1] ⟨0, true, some .other, 7⟩]
    (fun _ _ _ => trivial) (by decide)
  simp only [Prod.mk.injEq] at hs
  obtain ⟨hptr, hdown, hseq, hack, hwin, hen⟩ := hs
  refine ⟨s, hrun, ?_, ?_, length_eq_zero_iff.1 hdown, ?_, fun m env => ?_⟩
  · rw [hseq, hack]; decide
  · rintro ⟨arg, harg, -⟩
    rw [hptr] at harg
    cases harg
  · unfold Accepted
    rw [hseq, hack]; decide
  · show (if s.conf.enabled then xmit s (some m) env else _) = _
    rw [if_pos hen]
    unfold xmit
    dsimp only
    rw [hseq, hack, hwin]; exact if_pos (by decide)

end FreeBSD.NgPptpgre
