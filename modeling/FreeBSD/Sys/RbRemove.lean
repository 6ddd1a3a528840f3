import FreeBSD.Sys.RbChange

/-!
# `RB_REMOVE_COLOR`

The tree in focus has one black node too few on every way down, and its root may be red with red
children. A turn with two black nephews moves the focus up; any other turn ends the loop.

* `blackSibling_spec`, `removeRotate_spec` — the parts of a turn.
* `removeColor_spec` — the tree is a red-black tree again, with the same nodes.
-/

namespace FreeBSD.RbTree

open Lib (Color Dir)
open Lib.RedBlack Mem

variable {α : Type*} [DecidableEq α] {m m' : Mem α} {p s : α} {t u x y z : CTree α}
  {c c' : Color} {d : Dir} {ctx : Context α} {f : Frame α} {n : ℕ}

omit [DecidableEq α] in
/-- A node that is not at the root has a node over it. -/
theorem At.ptr_ne_root (h : At m (f :: ctx) t) : ptr t ≠ m.root := by
  have htop : ∀ {ctx : Context α} {q : Option α}, IsCtx m ctx q →
      ctx = [] ∨ ∃ r ∈ nodes ctx, m.root = some r := by
    intro ctx
    induction ctx with
    | nil => exact fun _ => .inl rfl
    | cons g ctx ih =>
      intro q hq
      obtain ⟨-, -, -, -, -, hrest⟩ := hq
      rcases ih hrest with rfl | ⟨r, hr, hroot⟩
      · exact .inr ⟨g.node, (nodes_cons _).2 (.inl rfl), hrest⟩
      · exact .inr ⟨r, (nodes_cons _).2 (.inr (.inr hr)), hroot⟩
  rcases htop h.above with hnil | ⟨r, hr, hroot⟩
  · cases hnil
  · rw [hroot]
    intro heq; exact (List.nodup_append.1 h.perm).2.2 r (ptr_mem heq) r hr rfl

/-- The rotation around the parent `p` of a red sibling `s`. -/
theorem At.rotateRed (h : At m ctx (join d c t p (join d c' y s z))) :
    ∃ m', RbTree.rotate d (m.setBlackred s p) p = some m' ∧
      At m' (⟨d, .red, p, y⟩ :: ⟨d, .black, s, z⟩ :: ctx) t := by
  have hcol : At (m.setBlackred s p) ctx (join d .red t p (join d .black y s z)) :=
    (at_sib.2 (at_sib.1 h).setColor).setColor
  obtain ⟨m', hrun, hat⟩ := hcol.rotate
  exact ⟨m', hrun, at_join.1 (at_join.1 hat)⟩

/-- The start of a turn: the sibling `s` is black after it. -/
theorem blackSibling_spec (h : At m (f :: ctx) t) (hfits : Fits (f :: ctx) (n + 1)) :
    ∃ m' s c y z ctx', blackSibling f.dir m f.node = some (m', s) ∧
      At m' (⟨f.dir, c, f.node, join f.dir .black y s z⟩ :: ctx') t ∧
      Fits (⟨f.dir, c, f.node, join f.dir .black y s z⟩ :: ctx') (n + 1) ∧
      (c = .red ∨ ctx'.length = ctx.length) ∧
      inorder (plug (⟨f.dir, c, f.node, join f.dir .black y s z⟩ :: ctx') t)
        = inorder (plug (f :: ctx) t) := by
  obtain ⟨d, c, p, u⟩ := f
  have hup := at_cons.1 h
  dsimp only at hup ⊢
  obtain ⟨-, -, -, hsib⟩ := hup.join_facts
  obtain ⟨s, hs⟩ : ∃ s, ptr u = some s := by
    cases u with
    | nil => cases hfits.1
    | node c' l b r => exact ⟨b, rfl⟩
  obtain ⟨-, hscolor⟩ := (at_sib.1 hup).ptr_facts hs
  obtain ⟨y, z, hyz⟩ := eq_join d hs
  unfold blackSibling
  simp only [hsib, hs, hscolor, Option.bind_eq_bind, Option.bind_some, pure]
  cases hu : Lib.RedBlack.color u with
  | black =>
    rw [hu] at hyz
    subst hyz; exact ⟨m, s, c, y, z, ctx, by simp, h, hfits, .inr rfl, rfl⟩
  | red =>
    rw [hu] at hyz
    subst hyz
    obtain ⟨hubal, hrest⟩ := hfits
    obtain ⟨⟨hy, hyblack⟩, hz, hzblack⟩ := balanced_red.1 hubal
    have hc : c = .black := by
      cases c with
      | black => rfl
      | red => exact absurd hrest.1 (by simp)
    subst hc
    obtain ⟨m', hrun, hat⟩ := hup.rotateRed
    have hat' := at_cons.1 hat
    dsimp only at hat'
    obtain ⟨-, -, -, hsib'⟩ := hat'.join_facts
    obtain ⟨e, he⟩ : ∃ e, ptr y = some e := by
      cases y with
      | nil => cases hy
      | node c' l b r => exact ⟨b, rfl⟩
    obtain ⟨y₁, y₂, hy₁₂⟩ := eq_join d he
    rw [hyblack] at hy₁₂
    subst hy₁₂
    refine ⟨m', e, .red, y₁, y₂, ⟨d, .black, s, z⟩ :: ctx, ?_, hat, ?_, .inl rfl, ?_⟩
    · simp only [if_true, hrun, Option.bind_some, hsib', he]
    · exact ⟨hy, hyblack, ⟨hz, hrest⟩, _, _, rfl, rfl⟩
    · exact inorder_plug_congr ctx (by cases d <;> simp [join])

/-- The last rotation of a turn, with the colours that go with it. -/
theorem At.rotateFar (h : At m ctx (join d c t p (join d c' y s z))) :
    ∃ m', RbTree.rotate d (((m.setColor s c).setColor p .black).setColorOf (ptr z) .black) p
        = some m' ∧ At m' ctx (join d c (join d .black t p y) s (Lib.RedBlack.blacken z)) := by
  have h₁ : At (m.setColor s c) ctx (join d c t p (join d c y s z)) :=
    at_sib.2 (at_sib.1 h).setColor
  have h₂ : At ((m.setColor s c).setColor p .black) ctx
      (join d .black t p (join d c y s z)) := h₁.setColor
  exact (at_sib.2 (at_sib.2 (at_sib.1 (at_sib.1 h₂)).blacken)).rotate

/-- The rotation that moves a red nephew `b` to the far side. -/
theorem At.rotateNear {b : α} {y₁ y₂ : CTree α}
    (h : At m ctx (join d c t p (join d .black (join d c' y₁ b y₂) s z))) :
    ∃ m', RbTree.rotate d.opp ((m.setColorOf (some b) .black).setColor s .red) s = some m' ∧
      At m' ctx (join d c t p (join d .black y₁ b (join d .red y₂ s z))) := by
  have h₁ : At (m.setColorOf (some b) .black) (⟨d.opp, c, p, t⟩ :: ctx)
      (join d .black (join d .black y₁ b y₂) s z) :=
    at_join.2 (at_join.1 (at_sib.1 h)).setColor
  have h₂ : At ((m.setColorOf (some b) .black).setColor s .red) (⟨d.opp, c, p, t⟩ :: ctx)
      (join d .red (join d .black y₁ b y₂) s z) := h₁.setColor
  have hflip : join d .red (join d .black y₁ b y₂) s z
      = join d.opp .red z s (join d.opp .black y₂ b y₁) := by rw [join_opp, join_opp]
  rw [hflip] at h₂
  obtain ⟨m', hrun, hat⟩ := h₂.rotate
  have hback : join d.opp .black (join d.opp .red z s y₂) b y₁
      = join d .black y₁ b (join d .red y₂ s z) := by rw [join_opp, join_opp]
  rw [hback] at hat; exact ⟨m', hrun, at_sib.2 hat⟩

/-- The end of a turn with a red nephew: what is under the parent is in order. -/
theorem removeRotate_spec (h : At m ctx (join d c t p (join d .black y s z)))
    (hy : Balanced y n) (hz : Balanced z n)
    (hred : Lib.RedBlack.color y = .red ∨ Lib.RedBlack.color z = .red) :
    ∃ m' b y' z', removeRotate d m p s = some m' ∧
      At m' ctx (join d c (join d .black t p y') b z') ∧ Balanced y' n ∧ Balanced z' (n + 1) ∧
      Lib.RedBlack.color z' = .black ∧
      inorder (join d c (join d .black t p y') b z')
        = inorder (join d c t p (join d .black y s z)) := by
  have hsib := at_sib.1 h
  obtain ⟨hpcolor, -, -, -⟩ := h.join_facts
  obtain ⟨-, -, hsy, hsz⟩ := hsib.join_facts
  have hzb : m.isBlack (ptr z) = true ↔ Lib.RedBlack.color z = .black := (at_sib.1 hsib).isBlack
  unfold removeRotate
  simp only [hsz]
  cases hzc : Lib.RedBlack.color z with
  | red =>
    have hnot : ¬ m.isBlack (ptr z) = true := by rw [hzb, hzc]; simp
    obtain ⟨m', hrun, hat⟩ := h.rotateFar
    refine ⟨m', s, y, Lib.RedBlack.blacken z, ?_, hat, hy, hz.almost.blacken_red hzc,
      color_blacken, by cases d <;> simp [join]⟩
    simp only [if_neg hnot, Option.bind_eq_bind, Option.bind_some, pure, hpcolor,
      setColor_child, hsz, hrun]
  | black =>
    have hyc : Lib.RedBlack.color y = .red := by
      rcases hred with hyc | hzc'
      · exact hyc
      · rw [hzc] at hzc'
        cases hzc'
    obtain ⟨b, hb⟩ : ∃ b, ptr y = some b := by
      cases y with
      | nil => cases hyc
      | node c' l b r => exact ⟨b, rfl⟩
    obtain ⟨y₁, y₂, hy₁₂⟩ := eq_join d hb
    rw [hyc] at hy₁₂
    subst hy₁₂
    obtain ⟨⟨hy₁, -⟩, hy₂, hy₂black⟩ := balanced_red.1 hy
    obtain ⟨m₁, hrun₁, hat₁⟩ := h.rotateNear
    obtain ⟨hpcolor₁, -, -, htmp⟩ := hat₁.join_facts
    obtain ⟨-, -, -, hfar⟩ := (at_sib.1 hat₁).join_facts
    rw [ptr_join] at htmp
    obtain ⟨m', hrun, hat⟩ := hat₁.rotateFar
    refine ⟨m', b, y₁, Lib.RedBlack.blacken (join d .red y₂ s z), ?_, hat, hy₁,
      (balanced_red.2 ⟨⟨hy₂, hy₂black⟩, hz, hzc⟩).almost.blacken_red color_join, color_blacken,
      by cases d <;> simp [join, Lib.RedBlack.blacken]⟩
    simp only [if_pos (hzb.2 hzc), hsy, hb, hrun₁, htmp, Option.bind_eq_bind, Option.bind_some,
      pure, hpcolor₁, setColor_child, hfar, hrun]

/-- With a red node in focus, or at the root, the loop ends. -/
theorem removeColorLoop_stop (fuel : ℕ) (h : At m ctx t)
    (hend : Lib.RedBlack.color t = .red ∨ ctx = []) :
    removeColorLoop (fuel + 1) m (up ctx) (ptr t) = some (m, ptr t) := by
  unfold removeColorLoop
  rw [if_neg]
  rintro ⟨hblack, hroot⟩
  rcases hend with hred | rfl
  · rw [h.isBlack, hred] at hblack
    cases hblack
  · exact hroot h.above.symm

/-- The loop of `RB_REMOVE_COLOR`: what it leaves is to be made black. -/
theorem removeColorLoop_spec {fuel : ℕ} (h : At m ctx t) (hbal : AlmostBalanced t n)
    (hfits : Fits ctx (n + 1)) (hfuel : ctx.length + 2 ≤ fuel) :
    ∃ m' ctx' x, removeColorLoop fuel m (up ctx) (ptr t) = some (m', ptr x) ∧ At m' ctx' x ∧
      (∃ N, Balanced (plug ctx' (Lib.RedBlack.blacken x)) N) ∧
      Lib.RedBlack.color (plug ctx' (Lib.RedBlack.blacken x)) = .black ∧
      inorder (plug ctx' x) = inorder (plug ctx t) := by
  induction fuel generalizing m ctx t n with
  | zero => omega
  | succ fuel ih =>
    by_cases hend : Lib.RedBlack.color t = .red ∨ ctx = []
    · obtain ⟨hN, hcolor⟩ := hfits.plug_blacken hbal hend
      exact ⟨m, ctx, t, removeColorLoop_stop fuel h hend, h, hN, hcolor, rfl⟩
    obtain ⟨hred, hne⟩ := not_or.1 hend
    have hblack : Lib.RedBlack.color t = .black := by
      cases hc : Lib.RedBlack.color t with
      | black => rfl
      | red => exact absurd hc hred
    cases ctx with
    | nil => exact absurd rfl hne
    | cons f ctx =>
      have hsibne : f.sib ≠ .nil := by
        intro hnil
        have hs := hfits.1
        rw [hnil] at hs
        cases hs
      have hside := h.sideOf (.inr hsibne)
      obtain ⟨m₁, s, c, y, z, ctx₁, hrun₁, hat₁, hfits₁, hlen, hin₁⟩ := blackSibling_spec h hfits
      unfold removeColorLoop
      rw [if_pos ⟨h.isBlack.2 hblack, h.ptr_ne_root⟩]
      simp only [up_cons, hside, hrun₁]
      have hup := at_cons.1 hat₁
      dsimp only at hup
      have hsib := at_sib.1 hup
      obtain ⟨-, -, hsy, hsz⟩ := hsib.join_facts
      obtain ⟨-, hp, -, -⟩ := hup.join_facts
      have hyb : m₁.isBlack (ptr y) = true ↔ Lib.RedBlack.color y = .black :=
        (at_join.1 hsib).isBlack
      have hzb : m₁.isBlack (ptr z) = true ↔ Lib.RedBlack.color z = .black :=
        (at_sib.1 hsib).isBlack
      have hboth : (m₁.isBlack (m₁.child .left s) = true ∧ m₁.isBlack (m₁.child .right s) = true) ↔
          Lib.RedBlack.color y = .black ∧ Lib.RedBlack.color z = .black := by
        rw [← hyb, ← hzb, ← hsy, ← hsz]
        cases f.dir
        · exact Iff.rfl
        · exact And.comm
      obtain ⟨hsbal, hrest⟩ := hfits₁
      obtain ⟨hy, hz⟩ := balanced_black.1 hsbal
      have ht : Balanced t n := hbal.balanced hblack
      by_cases hnephews : Lib.RedBlack.color y = .black ∧ Lib.RedBlack.color z = .black
      · rw [if_pos (hboth.2 hnephews)]
        have hcol : At (m₁.setColor s .red) ctx₁
            (join f.dir c t f.node (join f.dir .red y s z)) := at_sib.2 hsib.setColor
        have hs' : Balanced (join f.dir .red y s z) n :=
          balanced_red.2 ⟨⟨hy, hnephews.1⟩, hz, hnephews.2⟩
        have hin : inorder (plug ctx₁ (join f.dir c t f.node (join f.dir .red y s z)))
            = inorder (plug (f :: ctx) t) := by
          rw [← hin₁]; exact inorder_plug_congr ctx₁ (by cases f.dir <;> simp [join])
        simp only [List.length_cons] at hfuel
        have hparent : (m₁.setColor s .red).parent f.node = up ctx₁ := hp
        rw [hparent, ← hin]
        cases c with
        | red =>
          obtain ⟨-, hctx₁, -⟩ := hrest
          have hrb : AlmostBalanced (join f.dir .red t f.node (join f.dir .red y s z)) n :=
            almostBalanced_red.2 ⟨ht, hs'⟩
          obtain ⟨hN, hcolor⟩ := hctx₁.plug_blacken hrb (.inl color_join)
          obtain ⟨k, rfl⟩ : ∃ k, fuel = k + 1 := ⟨fuel - 1, by omega⟩
          have hstop := removeColorLoop_stop k hcol (.inl color_join)
          rw [ptr_join] at hstop; exact ⟨_, ctx₁, _, by rw [hstop, ptr_join], hcol, hN, hcolor, rfl⟩
        | black =>
          have hlen' : ctx₁.length = ctx.length := by
            rcases hlen with hc | hlen
            · cases hc
            · exact hlen
          have hrb : AlmostBalanced (join f.dir .black t f.node (join f.dir .red y s z)) (n + 1) :=
            almostBalanced_black.2 ⟨ht, hs'⟩
          have hnext := ih hcol hrb hrest (by omega)
          rwa [ptr_join] at hnext
      · rw [if_neg fun hb => hnephews (hboth.1 hb)]
        have hrednephew : Lib.RedBlack.color y = .red ∨ Lib.RedBlack.color z = .red := by
          cases hyc : Lib.RedBlack.color y with
          | red => exact .inl rfl
          | black =>
            cases hzc : Lib.RedBlack.color z with
            | red => exact .inr rfl
            | black => exact absurd ⟨hyc, hzc⟩ hnephews
        obtain ⟨m', b, y', z', hrun, hat, hy', hz', hzblack', hin⟩ :=
          removeRotate_spec hup hy hz hrednephew
        rw [hrun]
        have hroot : At m' [] (plug ctx₁ (join f.dir c (join f.dir .black t f.node y') b z')) :=
          at_plug.1 hat
        have hN : ∃ N,
            Balanced (plug ctx₁ (join f.dir c (join f.dir .black t f.node y') b z')) N := by
          cases c with
          | red =>
            obtain ⟨-, hctx₁, g, ctx₂, rfl, hg⟩ := hrest
            refine hctx₁.plug (balanced_red.2 ⟨⟨balanced_black.2 ⟨ht, hy'⟩, color_join⟩, hz',
              hzblack'⟩) fun hover => ?_
            rw [overColor_cons, hg] at hover
            cases hover
          | black =>
            exact Fits.plug (show Fits ctx₁ (n + 1 + 1) from hrest)
              (balanced_black.2 ⟨balanced_black.2 ⟨ht, hy'⟩, hz'⟩) (fun _ => color_join)
        obtain ⟨N, hN⟩ := hN
        refine ⟨m', [], _, ?_, hroot, hN.almost.blacken, color_blacken, ?_⟩
        · rw [← hroot.above]
        · rw [← hin₁]; exact inorder_plug_congr ctx₁ hin

/-- `RB_REMOVE_COLOR` makes a red-black tree of the same nodes. -/
theorem removeColor_spec {fuel : ℕ} (h : At m ctx t) (hbal : AlmostBalanced t n)
    (hfits : Fits ctx (n + 1)) (hfuel : ctx.length + 2 ≤ fuel) :
    ∃ m' x N, removeColor fuel m (up ctx) (ptr t) = some m' ∧ At m' [] x ∧ Balanced x N ∧
      Lib.RedBlack.color x = .black ∧ inorder x = inorder (plug ctx t) := by
  obtain ⟨m₁, ctx', x, hrun, hat, ⟨N, hN⟩, hcolor, hin⟩ := removeColorLoop_spec h hbal hfits hfuel
  refine ⟨_, _, N, ?_, at_plug.1 hat.blacken, hN, hcolor,
    (inorder_plug_congr ctx' inorder_blacken).trans hin⟩
  unfold removeColor; simp only [hrun, Option.bind_eq_bind, Option.bind_some, pure]

end FreeBSD.RbTree
