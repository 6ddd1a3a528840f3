import FreeBSD.Lib.Runs
import FreeBSD.Net.Ipsec

/-!
# Anti-replay over the life of a security association

The state of a run is the security association with the list of the sequence numbers that
`ipsec_updatereplay` has accepted, the latest first. The invariant is that the counter is their
number, `lastseq` the greatest of them and bit `d` of the window tells whether `lastseq - d` is one
of them.

The counter cannot overflow by an accepted packet: when it is exhausted, all non-zero numbers have
been accepted, and every packet is refused by the window before it is counted.

Results:
* `replay_of_run`: the verdicts over the life of a security association.
-/

namespace FreeBSD.Ipsec

open Lib (Runs)
open Lib.BitWindow List Option

/-- The purpose of the window of `w` bytes: a number is good if it is not zero and either greater
    than all the accepted ones, or not accepted yet and less than `8 * w` below the greatest. -/
def Acceptable (w : ℕ) (accepted : List (BitVec 32)) (seq : BitVec 32) : Prop :=
  seq ≠ 0 ∧ ((∀ a ∈ accepted, a < seq) ∨
    ∃ g ∈ accepted, (∀ a ∈ accepted, a ≤ g) ∧ seq ≤ g ∧ (g - seq).toNat ≤ 8 * w - 1 ∧
      seq ∉ accepted)

/-- The window of the replay state tells which numbers have been accepted. -/
structure Window (replay : Secreplay) (accepted : List (BitVec 32)) : Prop where
  pos : 0 < replay.wsize.toNat
  small : replay.wsize.toNat < 2 ^ 28
  sized : replay.bitmap.length = replay.wsize.toNat
  nonzero : 0 ∉ accepted
  greatest : accepted ≠ [] → replay.lastseq ∈ accepted
  bounded : ∀ a ∈ accepted, a ≤ replay.lastseq
  seen : accepted ≠ [] → ∀ seq, seq ≠ 0 → seq ≤ replay.lastseq →
    (replay.lastseq - seq).toNat < 8 * replay.wsize.toNat →
    (bit replay.bitmap (replay.lastseq - seq).toNat = true ↔ seq ∈ accepted)

/-- The counter is the number of the accepted numbers, which differ. -/
structure Counted (replay : Secreplay) (accepted : List (BitVec 32)) : Prop where
  window : Window replay accepted
  count : replay.count.toNat = accepted.length
  nodup : accepted.Nodup

variable {replay : Secreplay} {accepted : List (BitVec 32)} {seq : BitVec 32} {sav : Secasvar}

/-! ## The constants of the check -/

namespace Window

theorem frlast (h : Window replay accepted) :
    (replay.wsize - 1).toNat = replay.wsize.toNat - 1 := by
  have := h.pos
  bv_omega

theorem wsizeb (h : Window replay accepted) :
    (replay.wsize <<< 3).toNat = 8 * replay.wsize.toNat := by
  have hs := h.small
  rw [BitVec.toNat_shiftLeft, Nat.shiftLeft_eq, Nat.mod_eq_of_lt (by omega)]
  omega

theorem int_wsize (h : Window replay accepted) :
    replay.wsize.toInt.toNat = replay.wsize.toNat := by
  have hs := h.small
  rw [BitVec.toInt_eq_toNat_of_lt (by omega)]
  rfl

theorem wsize_ne_zero (h : Window replay accepted) : replay.wsize ≠ 0 := by
  intro h0
  have hpos := h.pos
  rw [h0] at hpos; exact absurd hpos (by decide)

/-- The byte that holds the bit of a packet in the window. -/
theorem fr (h : Window replay accepted) {diff : BitVec 32}
    (hdiff : diff.toNat < 8 * replay.wsize.toNat) :
    (replay.wsize - 1 - diff / 8).toNat = replay.bitmap.length - 1 - diff.toNat / 8 := by
  have hdiv : (diff / 8).toNat = diff.toNat / 8 := by rw [BitVec.toNat_udiv]; rfl
  have hlast := h.frlast
  have hpos := h.pos
  rw [h.sized, BitVec.toNat_sub_of_le (by rw [BitVec.le_def, hdiv, hlast]; omega), hdiv, hlast]

theorem accepted_of_le_sub (h : Window replay accepted) (hne : accepted ≠ [])
    (hacc : Acceptable replay.wsize.toNat accepted seq) (hle : seq ≤ replay.lastseq) :
    (replay.lastseq - seq).toNat ≤ 8 * replay.wsize.toNat - 1 ∧ seq ∉ accepted := by
  obtain ⟨-, hgt | ⟨g, hg, hmax, -, hdiff, hnot⟩⟩ := hacc
  · have := hgt _ (h.greatest hne)
    bv_omega
  · have h₁ := hmax _ (h.greatest hne)
    have h₂ := h.bounded g hg
    have heq : g = replay.lastseq := by bv_omega
    exact ⟨heq ▸ hdiff, hnot⟩

end Window

/-! ## Marking a packet -/

/-- Only the packet is marked in the window. -/
theorem markOnly_spec (h : Window replay accepted) :
    ∃ bitmap, markOnly replay.bitmap replay.wsize.toNat (replay.wsize - 1).toNat = some bitmap ∧
      bitmap.length = replay.wsize.toNat ∧
      ∀ d, bit bitmap d = decide (d = 0) := by
  have hpos := h.pos
  have hlt : (replay.wsize - 1).toNat <
      (List.replicate replay.wsize.toNat (0 : BitVec 8)).length := by
    rw [h.frlast, length_replicate]; omega
  have hdrop : replay.bitmap.drop replay.wsize.toNat = [] := by
    rw [drop_eq_nil_iff, h.sized]
  have hrun : markOnly replay.bitmap replay.wsize.toNat (replay.wsize - 1).toNat =
      some ((List.replicate replay.wsize.toNat 0).set (replay.wsize - 1).toNat 1) := by
    simp only [markOnly, bzero, h.sized, le_refl, if_true, bind_eq_bind, bind_some,
      hdrop, append_nil, writeByte_of_lt hlt]
  refine ⟨_, hrun, by rw [length_set, length_replicate], ?_⟩
  intro d
  have hzero : (List.replicate replay.wsize.toNat (0 : BitVec 8)).getD
      ((List.replicate replay.wsize.toNat (0 : BitVec 8)).length - 1 - 0 / 8) 0 |||
        (1#8 <<< (0 % 8)) = 1 := by
    rw [getD_eq_getElem?_getD, List.getElem?_replicate]
    split <;> rfl
  have hfirst : 0 / 8 < (List.replicate replay.wsize.toNat (0 : BitVec 8)).length := by
    rw [length_replicate]; omega
  have hmark := bit_mark hfirst d
  rw [hzero, bit_replicate_zero, Bool.or_false, length_replicate] at hmark
  rw [h.frlast]; exact hmark

/-- The window is moved up, and the packet is marked. -/
theorem markShifted_spec (h : Window replay accepted) (nbit : ℕ) :
    ∃ bitmap, markShifted replay.bitmap nbit replay.wsize.toNat (replay.wsize - 1).toNat =
        some bitmap ∧ bitmap.length = replay.wsize.toNat ∧
      ∀ d, d / 8 < replay.wsize.toNat → bit bitmap d =
        (decide (d = 0) || (decide (nbit ≤ d) && bit replay.bitmap (d - nbit))) := by
  have hpos := h.pos
  obtain ⟨bitmap', hshift, hlen, hbits⟩ := vshiftl_spec hpos h.sized nbit
  have hlt : (replay.wsize - 1).toNat < bitmap'.length := by rw [h.frlast, hlen]; omega
  have hrun : markShifted replay.bitmap nbit replay.wsize.toNat (replay.wsize - 1).toNat =
      some (bitmap'.set (replay.wsize - 1).toNat
        (bitmap'.getD (replay.wsize - 1).toNat 0 ||| 1)) := by
    simp only [markShifted, hshift, bind_eq_bind, bind_some, readByte_of_lt hlt,
      writeByte_of_lt hlt]
  refine ⟨_, hrun, by rw [length_set, hlen], ?_⟩
  intro d hd
  have hfirst : 0 / 8 < bitmap'.length := by omega
  have hmark := bit_mark hfirst d
  have hidx : (replay.wsize - 1).toNat = bitmap'.length - 1 - 0 / 8 := by rw [h.frlast, hlen]; omega
  rw [hidx, ← hbits d hd]; exact hmark

/-- The window moved up to a packet that is greater than all the accepted ones. -/
theorem Window.advance (h : Window replay accepted) (h0 : seq ≠ 0)
    (hgt : ∀ a ∈ accepted, a < seq) {bitmap : List (BitVec 8)}
    (hlen : bitmap.length = replay.wsize.toNat)
    (hbits : ∀ x, x ≠ 0 → x ≤ seq → (seq - x).toNat < 8 * replay.wsize.toNat →
      (bit bitmap (seq - x).toNat = true ↔ x ∈ seq :: accepted)) :
    Window { replay with lastseq := seq, bitmap := bitmap } (seq :: accepted) where
  pos := h.pos
  small := h.small
  sized := hlen
  nonzero := by rw [mem_cons, not_or]; exact ⟨h0.symm, h.nonzero⟩
  greatest := fun _ => mem_cons_self
  bounded := by
    intro a ha
    rcases mem_cons.mp ha with rfl | ha
    · exact BitVec.le_refl _
    · exact BitVec.le_of_lt (hgt a ha)
  seen := fun _ => hbits

/-- A packet in the window is marked. -/
theorem Window.mark (h : Window replay accepted) (hne : accepted ≠ []) (h0 : seq ≠ 0)
    (hle : seq ≤ replay.lastseq) {bitmap : List (BitVec 8)}
    (hlen : bitmap.length = replay.wsize.toNat)
    (hbits : ∀ d, bit bitmap d =
      (decide (d = (replay.lastseq - seq).toNat) || bit replay.bitmap d)) :
    Window { replay with bitmap := bitmap } (seq :: accepted) where
  pos := h.pos
  small := h.small
  sized := hlen
  nonzero := by rw [mem_cons, not_or]; exact ⟨h0.symm, h.nonzero⟩
  greatest := fun _ => mem_cons_of_mem _ (h.greatest hne)
  bounded := by
    intro a ha
    rcases mem_cons.mp ha with rfl | ha
    · exact hle
    · exact h.bounded a ha
  seen := by
    intro _ x hx hxle hdiff
    have hseen := h.seen hne x hx hxle hdiff
    have hiff : (replay.lastseq - x).toNat = (replay.lastseq - seq).toNat ↔ x = seq := by
      constructor
      · intro heq
        bv_omega
      · intro heq
        rw [heq]
    simp only [hbits, Bool.or_eq_true, decide_eq_true_eq, mem_cons, hiff, hseen]

/-! ## The verdict of the window -/

/-- What the window makes of a packet. -/
def Verdict (replay : Secreplay) (accepted : List (BitVec 32)) (seq : BitVec 32) : Prop :=
  (updateWindow seq replay = some none ∧
    ¬ Acceptable replay.wsize.toNat accepted seq) ∨
  ∃ replay', updateWindow seq replay = some (some replay') ∧
    Acceptable replay.wsize.toNat accepted seq ∧ replay'.count = replay.count ∧
    replay'.wsize = replay.wsize ∧ Window replay' (seq :: accepted)

theorem first_spec (h : Window replay []) (hcount : replay.count = 0) (h0 : seq ≠ 0) :
    Verdict replay [] seq := by
  obtain ⟨bitmap, hrun, hlen, hbits⟩ := markOnly_spec h
  have hupd : updateWindow seq replay =
      some (some { replay with lastseq := seq, bitmap := bitmap }) := by
    simp only [updateWindow, h0, if_false, hcount, if_true, hrun, map_some]
  have hnone : ∀ a ∈ ([] : List (BitVec 32)), a < seq := fun a ha => absurd ha not_mem_nil
  refine .inr ⟨_, hupd, ⟨h0, .inl hnone⟩, rfl, rfl, h.advance h0 hnone hlen ?_⟩
  intro x _ hle _
  rw [hbits, decide_eq_true_eq, mem_singleton]
  constructor
  · intro heq
    bv_omega
  · intro heq
    rw [heq, BitVec.sub_self]; rfl

theorem larger_spec (h : Window replay accepted) (hne : accepted ≠ [])
    (hcount : replay.count ≠ 0) (h0 : seq ≠ 0) (hgt : replay.lastseq < seq) :
    Verdict replay accepted seq := by
  have hgreater : ∀ a ∈ accepted, a < seq := by
    intro a ha
    have := h.bounded a ha
    bv_omega
  -- both branches leave the bits moved up by the difference
  obtain ⟨bitmap, hupd, hlen, hbits⟩ : ∃ bitmap, updateWindow seq replay =
      some (some { replay with lastseq := seq, bitmap := bitmap }) ∧
      bitmap.length = replay.wsize.toNat ∧ ∀ d, d / 8 < replay.wsize.toNat → bit bitmap d =
        (decide (d = 0) || (decide ((seq - replay.lastseq).toNat ≤ d) &&
          bit replay.bitmap (d - (seq - replay.lastseq).toNat))) := by
    by_cases hin : seq - replay.lastseq < replay.wsize <<< 3
    · have hin' : (seq - replay.lastseq).toNat < 8 * replay.wsize.toNat := by
        rw [← h.wsizeb]; exact hin
      have hsmall := h.small
      have hint : (seq - replay.lastseq).toInt.toNat = (seq - replay.lastseq).toNat := by
        rw [BitVec.toInt_eq_toNat_of_lt (by omega)]
        rfl
      obtain ⟨bitmap, hrun, hlen, hbits⟩ := markShifted_spec h (seq - replay.lastseq).toNat
      refine ⟨bitmap, ?_, hlen, hbits⟩
      simp only [updateWindow, h0, if_false, hcount, hgt, if_true, hin, hint,
        h.int_wsize, hrun, map_some]
    · have hout : ¬ (seq - replay.lastseq).toNat < 8 * replay.wsize.toNat := by
        rw [← h.wsizeb]; exact hin
      obtain ⟨bitmap, hrun, hlen, hbits⟩ := markOnly_spec h
      refine ⟨bitmap, ?_, hlen, ?_⟩
      · simp only [updateWindow, h0, if_false, hcount, hgt, if_true, hin, hrun,
          map_some]
      · intro d hd
        have hlt : ¬ (seq - replay.lastseq).toNat ≤ d := by omega
        simp only [hbits, hlt, decide_false, Bool.false_and, Bool.or_false]
  refine .inr ⟨_, hupd, ⟨h0, .inl hgreater⟩, rfl, rfl, h.advance h0 hgreater hlen ?_⟩
  intro x hx hle hdiff
  rw [hbits _ (by omega), Bool.or_eq_true, Bool.and_eq_true, decide_eq_true_eq,
    decide_eq_true_eq, mem_cons]
  have hzero : (seq - x).toNat = 0 ↔ x = seq := by
    constructor
    · intro heq
      bv_omega
    · intro heq
      rw [heq, BitVec.sub_self]; rfl
  by_cases hxl : x ≤ replay.lastseq
  · have hsub : (seq - x).toNat - (seq - replay.lastseq).toNat =
        (replay.lastseq - x).toNat := by bv_omega
    have hge : (seq - replay.lastseq).toNat ≤ (seq - x).toNat := by bv_omega
    have hseen := h.seen hne x hx hxl (by omega)
    rw [hzero, hsub, hseen]; simp only [hge, true_and]
  · -- between the two numbers nothing was accepted
    have hnot : x ∉ accepted := fun hmem => hxl (h.bounded x hmem)
    have hlt : ¬ (seq - replay.lastseq).toNat ≤ (seq - x).toNat := by bv_omega
    rw [hzero]; simp only [hlt, hnot, false_and]

theorem smaller_spec (h : Window replay accepted) (hne : accepted ≠ [])
    (hcount : replay.count ≠ 0) (h0 : seq ≠ 0) (hle : seq ≤ replay.lastseq) :
    Verdict replay accepted seq := by
  have hng : ¬ replay.lastseq < seq := by bv_omega
  by_cases hold : replay.wsize <<< 3 ≤ replay.lastseq - seq
  · have hold' : 8 * replay.wsize.toNat ≤ (replay.lastseq - seq).toNat := by
      rw [← h.wsizeb]; exact hold
    refine .inl ⟨?_, ?_⟩
    · simp only [updateWindow, h0, if_false, hcount, hng, hold, if_true]
    · intro hacc
      have hin := (h.accepted_of_le_sub hne hacc hle).1
      have hpos := h.pos; omega
  · have hin : (replay.lastseq - seq).toNat < 8 * replay.wsize.toNat := by
      rw [← h.wsizeb]; exact Nat.lt_of_not_le hold
    have hmod : ((replay.lastseq - seq) % 8).toNat = (replay.lastseq - seq).toNat % 8 := by
      rw [BitVec.toNat_umod]; rfl
    have hbyte : (replay.lastseq - seq).toNat / 8 < replay.bitmap.length := by rw [h.sized]; omega
    have hlt : replay.bitmap.length - 1 - (replay.lastseq - seq).toNat / 8 <
        replay.bitmap.length := by omega
    have hseen := h.seen hne seq h0 hle hin
    rw [bit_of_lt hbyte, ← and_shift_ne_zero _ (Nat.mod_lt _ (by omega))] at hseen
    by_cases hmem : seq ∈ accepted
    · refine .inl ⟨?_, ?_⟩
      · simp only [updateWindow, h0, if_false, hcount, hng, hold, h.fr hin,
          readByte_of_lt hlt, bind_eq_bind, bind_some, hmod]
        rw [if_pos (hseen.mpr hmem)]; rfl
      · intro hacc; exact (h.accepted_of_le_sub hne hacc hle).2 hmem
    · have hacc : Acceptable replay.wsize.toNat accepted seq :=
        ⟨h0, .inr ⟨replay.lastseq, h.greatest hne, h.bounded, hle, by omega, hmem⟩⟩
      have hupd : updateWindow seq replay = some (some { replay with
          bitmap := replay.bitmap.set
            (replay.bitmap.length - 1 - (replay.lastseq - seq).toNat / 8)
            (replay.bitmap.getD (replay.bitmap.length - 1 - (replay.lastseq - seq).toNat / 8) 0 |||
              (1#8 <<< ((replay.lastseq - seq).toNat % 8))) }) := by
        simp only [updateWindow, h0, if_false, hcount, hng, hold, h.fr hin,
          readByte_of_lt hlt, bind_eq_bind, bind_some, hmod, writeByte_of_lt hlt]
        rw [if_neg (mt hseen.mp hmem)]; rfl
      refine .inr ⟨_, hupd, hacc, rfl, rfl, h.mark hne h0 hle ?_ ?_⟩
      · rw [length_set, h.sized]
      · exact bit_mark hbyte

/-- The window accepts what is good after the accepted numbers. -/
theorem updateWindow_spec (h : Counted replay accepted) (seq : BitVec 32) :
    Verdict replay accepted seq := by
  by_cases h0 : seq = 0
  · refine .inl ⟨?_, fun hacc => hacc.1 h0⟩
    simp only [updateWindow, h0, if_true]
  · by_cases hne : accepted = []
    · subst hne
      have hcount : replay.count = 0 := BitVec.eq_of_toNat_eq h.count
      exact first_spec h.window hcount h0
    · have hcount : replay.count ≠ 0 := by
        intro hc
        have hlen := h.count
        rw [hc] at hlen; exact hne (length_eq_zero_iff.mp hlen.symm)
      by_cases hgt : replay.lastseq < seq
      · exact larger_spec h.window hne hcount h0 hgt
      · exact smaller_spec h.window hne hcount h0 (BitVec.not_lt.mp hgt)

/-! ## The check before the update -/

/-- The check permits what the update accepts. -/
theorem chkreplay_of_updateWindow {out : Option Secreplay} (hw : sav.replay.wsize ≠ 0)
    (h : updateWindow seq sav.replay = some out) :
    ipsecChkreplay seq sav = some (if out.isSome then 1 else 0) := by
  by_cases h0 : seq = 0
  · simp only [updateWindow, h0, if_true] at h
    obtain rfl := some.inj h
    simp only [ipsecChkreplay, hw, h0, if_true, if_false]; rfl
  simp only [ipsecChkreplay, updateWindow, hw, h0, if_false] at h ⊢
  by_cases hcount : sav.replay.count = 0
  · simp only [hcount, if_true, map_eq_some_iff] at h ⊢
    obtain ⟨_, -, rfl⟩ := h
    rfl
  simp only [hcount, if_false] at h ⊢
  by_cases hgt : sav.replay.lastseq < seq
  · simp only [hgt, if_true] at h ⊢
    split at h <;> obtain ⟨_, -, rfl⟩ := map_eq_some_iff.mp h <;> rfl
  simp only [hgt, if_false] at h ⊢
  by_cases hold : sav.replay.lastseq - seq ≥ sav.replay.wsize <<< 3
  · simp only [hold, if_true, Option.some.injEq] at h ⊢
    rw [← h]; rfl
  simp only [hold, if_false] at h ⊢
  generalize (sav.replay.wsize - 1 - (sav.replay.lastseq - seq) / 8).toNat = fr at h ⊢
  generalize 1#8 <<< ((sav.replay.lastseq - seq) % 8).toNat = m at h ⊢
  obtain ⟨b, hb, h⟩ := bind_eq_some_iff.mp h
  rw [hb]
  by_cases hbit : b &&& m ≠ 0
  · rw [if_pos hbit] at h
    obtain rfl := some.inj h
    show some (if b &&& m ≠ 0 then 0 else 1) = _
    rw [if_pos hbit]; rfl
  · rw [if_neg hbit] at h
    obtain ⟨bitmap, -, h⟩ := bind_eq_some_iff.mp h
    obtain rfl := some.inj h
    show some (if b &&& m ≠ 0 then 0 else 1) = _
    rw [if_neg hbit]; rfl

/-! ## The counter -/

/-- There are no more than `2^32 - 1` non-zero numbers, so all of them have been accepted when the
    counter is exhausted. -/
theorem Counted.mem_of_exhausted (h : Counted replay accepted)
    (hcount : replay.count = BitVec.allOnes 32) (h0 : seq ≠ 0) : seq ∈ accepted := by
  by_contra hmem
  have hnodup : (0 :: seq :: accepted).Nodup := by
    refine nodup_cons.mpr ⟨?_, nodup_cons.mpr ⟨hmem, h.nodup⟩⟩
    rw [mem_cons, not_or]; exact ⟨h0.symm, h.window.nonzero⟩
  have hinj : Function.Injective (BitVec.toFin : BitVec 32 → Fin (2 ^ 32)) :=
    fun _ _ h => BitVec.eq_of_toFin_eq h
  have hcard := (hnodup.map hinj).length_le_card
  have hlen : accepted.length = 2 ^ 32 - 1 := by rw [← h.count, hcount]; rfl
  rw [length_map, length_cons, length_cons, hlen, Fintype.card_fin] at hcard; omega

theorem Counted.not_exhausted (h : Counted replay accepted)
    (hacc : Acceptable replay.wsize.toNat accepted seq) : replay.count ≠ BitVec.allOnes 32 := by
  intro hcount
  have hmem : seq ∈ accepted := h.mem_of_exhausted hcount hacc.1
  obtain ⟨-, hgt | ⟨_, _, _, _, _, hnot⟩⟩ := hacc
  · exact absurd (hgt seq hmem) (BitVec.lt_irrefl seq)
  · exact hnot hmem

/-! ## Runs -/

/-- The security association and the numbers that were accepted. -/
abbrev History := Secasvar × List (BitVec 32)

/-- A packet is received: `ipsec_updatereplay` is called with its number, which is recorded if it
    is accepted. -/
def receive (s : History) (seq : BitVec 32) : Option (History × ℕ) :=
  (ipsecUpdatereplay seq s.1).map fun (r, sav) => ((sav, if r = 0 then seq :: s.2 else s.2), r)

/-- What a call of `ipsec_updatereplay` does: it refuses the packet and changes nothing, or it
    accepts it and records it. -/
theorem updatereplay_spec (h : Counted sav.replay accepted) (seq : BitVec 32) :
    (ipsecUpdatereplay seq sav = some (1, sav) ∧ ipsecChkreplay seq sav = some 0 ∧
      ¬ Acceptable sav.replay.wsize.toNat accepted seq) ∨
    ∃ sav', ipsecUpdatereplay seq sav = some (0, sav') ∧ ipsecChkreplay seq sav = some 1 ∧
      Acceptable sav.replay.wsize.toNat accepted seq ∧
      sav'.replay.wsize = sav.replay.wsize ∧ Counted sav'.replay (seq :: accepted) := by
  have hw := h.window.wsize_ne_zero
  obtain ⟨hupd, hacc⟩ | ⟨replay', hupd, hacc, hcount, hwsize, hwin⟩ := updateWindow_spec h seq
  · refine .inl ⟨?_, chkreplay_of_updateWindow hw hupd, hacc⟩
    simp only [ipsecUpdatereplay, hw, if_false, hupd]
  · have hne : replay'.count ≠ BitVec.allOnes 32 := hcount ▸ h.not_exhausted hacc
    have hrun : ipsecUpdatereplay seq sav =
        some (0, { sav with replay := { replay' with count := replay'.count + 1 } }) := by
      simp only [ipsecUpdatereplay, hw, if_false, hupd, countPacket, hne]
    have hnot : seq ∉ accepted := by
      intro hmem
      obtain ⟨-, hgt | ⟨_, _, _, _, _, hnot⟩⟩ := hacc
      · exact absurd (hgt seq hmem) (BitVec.lt_irrefl seq)
      · exact hnot hmem
    refine .inr ⟨_, hrun, chkreplay_of_updateWindow hw hupd, hacc, hwsize, ?_⟩
    constructor
    · exact ⟨hwin.pos, hwin.small, hwin.sized, hwin.nonzero, hwin.greatest, hwin.bounded,
        hwin.seen⟩
    · have hlen := h.count
      rw [length_cons, ← hlen]
      show (replay'.count + 1).toNat = _
      have hlt : replay'.count.toNat ≠ 2 ^ 32 - 1 := fun heq => hne (BitVec.eq_of_toNat_eq heq)
      rw [← hcount, BitVec.toNat_add]
      show (replay'.count.toNat + 1) % 2 ^ 32 = _
      omega
    · exact nodup_cons.mpr ⟨hnot, h.nodup⟩

theorem keySetsaval_counted {sadb_sa_replay : BitVec 8} (h : sadb_sa_replay ≠ 0)
    (flags : BitVec 32) : Counted (keySetsaval sadb_sa_replay flags).replay [] := by
  have hw : (sadb_sa_replay.setWidth 32).toNat = sadb_sa_replay.toNat := by
    rw [BitVec.toNat_setWidth]; exact Nat.mod_eq_of_lt (by omega)
  have hpos : 0 < sadb_sa_replay.toNat := by
    rcases Nat.eq_zero_or_pos sadb_sa_replay.toNat with h0 | h0
    · exact absurd (BitVec.eq_of_toNat_eq h0) h
    · exact h0
  constructor
  · constructor
    · show 0 < (sadb_sa_replay.setWidth 32).toNat; omega
    · show (sadb_sa_replay.setWidth 32).toNat < _; omega
    · show (List.replicate _ _).length = (sadb_sa_replay.setWidth 32).toNat
      rw [length_replicate, hw]
    · exact not_mem_nil
    · exact fun hne => absurd rfl hne
    · exact fun a ha => absurd ha not_mem_nil
    · exact fun hne => absurd rfl hne
  · rfl
  · exact nodup_nil

/-- What is promised of the verdicts on the next packet, after the packets with the numbers
    `accepted` were accepted. -/
structure Verdicts (sav : Secasvar) (accepted : List (BitVec 32)) (wsize : ℕ)
    (seq : BitVec 32) : Prop where
  total : ∃ r sav', ipsecUpdatereplay seq sav = some (r, sav')
  accepts : ∀ r sav', ipsecUpdatereplay seq sav = some (r, sav') →
    (r = 0 ↔ Acceptable wsize accepted seq)
  checks : ∀ r sav', ipsecUpdatereplay seq sav = some (r, sav') →
    ipsecChkreplay seq sav = some (if r = 0 then 1 else 0)
  keeps : ∀ r sav', ipsecUpdatereplay seq sav = some (r, sav') → r ≠ 0 →
    sav'.replay.lastseq = sav.replay.lastseq ∧ sav'.replay.bitmap = sav.replay.bitmap

theorem verdicts (h : Counted sav.replay accepted) (seq : BitVec 32) :
    Verdicts sav accepted sav.replay.wsize.toNat seq := by
  obtain ⟨hrun, hchk, hacc⟩ | ⟨sav₁, hrun, hchk, hacc, -, -⟩ := updatereplay_spec h seq
  · constructor
    · exact ⟨1, sav, hrun⟩
    · intro r sav' hr
      obtain ⟨rfl, rfl⟩ := Prod.mk.inj (some.inj (hrun.symm.trans hr))
      simp only [one_ne_zero, hacc]
    · intro r sav' hr
      obtain ⟨rfl, rfl⟩ := Prod.mk.inj (some.inj (hrun.symm.trans hr))
      exact hchk
    · intro r sav' hr _
      obtain ⟨rfl, rfl⟩ := Prod.mk.inj (some.inj (hrun.symm.trans hr))
      exact ⟨rfl, rfl⟩
  · constructor
    · exact ⟨0, sav₁, hrun⟩
    · intro r sav' hr
      obtain ⟨rfl, rfl⟩ := Prod.mk.inj (some.inj (hrun.symm.trans hr))
      simp only [hacc]
    · intro r sav' hr
      obtain ⟨rfl, rfl⟩ := Prod.mk.inj (some.inj (hrun.symm.trans hr))
      exact hchk
    · intro r sav' hr hne
      obtain ⟨rfl, rfl⟩ := Prod.mk.inj (some.inj (hrun.symm.trans hr))
      exact absurd rfl hne

/-- A received packet is counted with those before it. -/
theorem receive_counted {s t : History} {r : ℕ} (h : Counted s.1.replay s.2)
    (hstep : receive s seq = some (t, r)) :
    Counted t.1.replay t.2 ∧ t.1.replay.wsize = s.1.replay.wsize := by
  obtain ⟨sav, accepted⟩ := s
  obtain ⟨hrun, -, -⟩ | ⟨sav', hrun, -, -, hwsize, hcounted⟩ := updatereplay_spec h seq
  · simp only [receive, hrun, map_some, Option.some.injEq, Prod.mk.injEq] at hstep
    obtain ⟨rfl, -⟩ := hstep
    exact ⟨h, rfl⟩
  · simp only [receive, hrun, map_some, Option.some.injEq, Prod.mk.injEq] at hstep
    obtain ⟨rfl, -⟩ := hstep
    exact ⟨hcounted, hwsize⟩

/-- Over the life of a security association with a window, a number is accepted at most once, and
    every packet gets its verdict. -/
theorem replay_of_run {sadb_sa_replay : BitVec 8} {flags : BitVec 32} {s : History}
    (hwindow : sadb_sa_replay ≠ 0)
    (hrun : Runs receive (fun _ _ => True) (keySetsaval sadb_sa_replay flags, []) s) :
    s.2.Nodup ∧ ∀ seq, Verdicts s.1 s.2 sadb_sa_replay.toNat seq := by
  obtain ⟨hcounted, hwsize⟩ : Counted s.1.replay s.2 ∧
      s.1.replay.wsize = sadb_sa_replay.setWidth 32 := by
    refine hrun.invariant (I := fun s => Counted s.1.replay s.2 ∧
      s.1.replay.wsize = sadb_sa_replay.setWidth 32)
      ⟨keySetsaval_counted hwindow flags, rfl⟩ ?_
    rintro s seq t r ⟨hcounted, hwsize⟩ - hstep
    obtain ⟨hcounted', hwsize'⟩ := receive_counted hcounted hstep
    exact ⟨hcounted', hwsize'.trans hwsize⟩
  refine ⟨hcounted.nodup, fun seq => ?_⟩
  have hw : s.1.replay.wsize.toNat = sadb_sa_replay.toNat := by
    rw [hwsize, BitVec.toNat_setWidth]; exact Nat.mod_eq_of_lt (by omega)
  exact hw ▸ verdicts hcounted seq

/-- Packets of an association with a window of two bytes: 12 moves the window up by five, over the
    byte boundary, and 7 is still seen. -/
theorem replay_of_run_packets : ∃ s : History, s.2 = [30, 3, 11, 12, 7] ∧ s.2.Nodup ∧
    ∀ seq, Verdicts s.1 s.2 2 seq := by
  obtain ⟨s, hrun, hs⟩ := Lib.exists_of_exec receive (P := fun _ _ => True)
    (s := (keySetsaval 2 0, [])) (f := fun s => s.2) (b := [30, 3, 11, 12, 7])
    [7, 12, 7, 11, 3, 30, 12] (fun _ _ _ => trivial) (by decide +kernel)
  exact ⟨s, hs, replay_of_run (by decide : (2 : BitVec 8) ≠ 0) hrun⟩

end FreeBSD.Ipsec
