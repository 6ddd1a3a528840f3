import FreeBSD.Sys.RbChange

/-!
# `RB_INSERT_COLOR`

The node in focus is red, all is in order under it, and only its parent may be red as well. A turn
with a red uncle makes the grandparent the node in focus; a turn with a black uncle leaves a black
parent, and the next one ends the loop.

* `insertColor_spec` — the tree is a red-black tree again, with the same nodes.
-/

namespace FreeBSD.RbTree

open Lib (Color Dir)
open Lib.RedBlack Mem

variable {α : Type*} [DecidableEq α] {m m' : Mem α} {a b g : α} {t u x y z : CTree α}
  {c c' : Color} {d : Dir} {ctx : Context α} {f : Frame α} {n : ℕ}

theorem At.setBlackred {e : Dir} (h : At m ctx (join d c (join e c' x b y) a z)) :
    At (m.setBlackred b a) ctx (join d .red (join e .black x b y) a z) :=
  (at_join.2 (at_join.1 h).setColor).setColor

/-- The rotation with a black uncle, of a red parent `b` on the side `d` of the grandparent `g`. -/
theorem At.rotateUp (h : At m ctx (join d .black (join d .red t b z) g u)) :
    ∃ m', RbTree.rotate d.opp (m.setBlackred b g) g = some m' ∧
      At m' (⟨d, .black, b, join d .red z g u⟩ :: ctx) t := by
  have hcol := h.setBlackred
  have hflip : join d .red (join d .black t b z) g u
      = join d.opp .red u g (join d.opp .black z b t) := by rw [join_opp, join_opp]
  rw [hflip] at hcol
  obtain ⟨m', hrun, hat⟩ := hcol.rotate
  have hback : join d.opp .black (join d.opp .red u g z) b t
      = join d .black t b (join d .red z g u) := by rw [join_opp, join_opp]
  rw [hback] at hat; exact ⟨m', hrun, at_join.1 hat⟩

/-- A red node with a red parent and a black uncle: after the turn its place is under a black
node, at the top of the same nodes. -/
theorem insertRotate_spec (h : At m (f :: ⟨d, .black, g, u⟩ :: ctx) t) (ha : ptr t = some a)
    (hred : color t = .red) (hbal : Balanced t n) (hf : f.color = .red) (hu : color u = .black)
    (hfits : Fits (f :: ⟨d, .black, g, u⟩ :: ctx) n) :
    ∃ m' b f' x, insertRotate d m f.node g a = some (m', b) ∧ ptr x = some b ∧
      At m' (f' :: ctx) x ∧ Balanced x n ∧ f'.color = .black ∧ Fits (f' :: ctx) n ∧
      inorder (plug (f' :: ctx) x) = inorder (plug (f :: ⟨d, .black, g, u⟩ :: ctx) t) := by
  obtain ⟨e, c, p, s⟩ := f
  dsimp only at hf ⊢
  subst hf
  obtain ⟨hs, hsblack, ⟨hubal, hctx⟩, -⟩ := hfits
  dsimp only at hs hsblack hubal
  have hup := at_cons.1 h
  dsimp only at hup
  obtain ⟨-, -, hl, hr⟩ := hup.join_facts
  obtain ⟨-, -, -, -, -, hdisj, -⟩ := hup.fresh
  by_cases hside : e = d
  · subst hside
    have hno : m.child e.opp p ≠ some a := by
      rw [hr]; exact fun heq => hdisj a (ptr_mem ha) (ptr_mem heq)
    obtain ⟨m', hrun, hat⟩ := (at_cons.1 hup).rotateUp
    refine ⟨m', a, ⟨e, .black, p, join e .red s g u⟩, t, ?_, ha, hat, hbal, rfl, ?_, ?_⟩
    · unfold insertRotate
      rw [if_neg hno]; simp only [Option.bind_eq_bind, Option.bind_some, pure, hrun]
    · exact ⟨balanced_red.2 ⟨⟨hs, hsblack⟩, hubal, hu⟩, hctx⟩
    · exact inorder_plug_congr ctx (by cases e <;> simp [join])
  · obtain rfl := Dir.eq_opp_of_ne hside
    obtain ⟨x, y, ht⟩ := eq_join d ha
    rw [hred] at ht
    subst ht
    obtain ⟨⟨hx, hxblack⟩, hy, hyblack⟩ := balanced_red.1 hbal
    have hyes : m.child d.opp p = some a := by rw [hl, ptr_join]
    rw [join_opp] at hup
    obtain ⟨m₁, hrun₁, hat₁⟩ := hup.rotate
    obtain ⟨m', hrun, hat⟩ := (at_cons.1 hat₁).rotateUp
    refine ⟨m', p, ⟨d, .black, a, join d .red y g u⟩, join d .red s p x, ?_, ptr_join, hat,
      balanced_red.2 ⟨⟨hs, hsblack⟩, hx, hxblack⟩, rfl, ?_, ?_⟩
    · unfold insertRotate
      rw [if_pos hyes]; simp only [hrun₁, Option.bind_eq_bind, Option.bind_some, pure, hrun]
    · exact ⟨balanced_red.2 ⟨⟨hy, hyblack⟩, hubal, hu⟩, hctx⟩
    · exact inorder_plug_congr ctx (by cases d <;> simp [join])

/-- A red node with a red parent and a red uncle: the turn moves the red up to the grandparent. -/
theorem insertRecolor_spec (h : At m (f :: ⟨d, .black, g, u⟩ :: ctx) t) (hbal : Balanced t n)
    (hf : f.color = .red) (hu : color u = .red)
    (hfits : Fits (f :: ⟨d, .black, g, u⟩ :: ctx) n) :
    ∃ x, ptr x = some g ∧ color x = .red ∧
      At ((m.setColorOf (ptr u) .black).setBlackred f.node g) ctx x ∧ Balanced x (n + 1) ∧
      Fits ctx (n + 1) ∧
      inorder (plug ctx x) = inorder (plug (f :: ⟨d, .black, g, u⟩ :: ctx) t) := by
  obtain ⟨e, c, p, s⟩ := f
  dsimp only at hf ⊢
  subst hf
  obtain ⟨hs, hsblack, ⟨hubal, hctx⟩, -⟩ := hfits
  dsimp only at hs hubal
  have huncle := (at_sib.1 (at_cons.1 (at_cons.1 h))).blacken
  have hcol := (at_sib.2 huncle).setBlackred
  have hu' : Balanced (Lib.RedBlack.blacken u) (n + 1) := hubal.almost.blacken_red hu
  refine ⟨join d .red (join e .black t p s) g (Lib.RedBlack.blacken u), ptr_join, color_join, hcol,
    balanced_red.2 ⟨⟨balanced_black.2 ⟨hbal, hs⟩, color_join⟩, hu', color_blacken⟩, hctx, ?_⟩
  exact inorder_plug_congr ctx (by cases d <;> cases e <;> simp [join])

/-- With no red parent the loop ends. -/
theorem insertColorLoop_stop {fuel : ℕ} (h : At m ctx t) (ha : ptr t = some a)
    (hover : overColor ctx = .black) : insertColorLoop (fuel + 1) m a = some m := by
  obtain ⟨hparent, -⟩ := h.ptr_facts ha
  unfold insertColorLoop
  rw [hparent]
  cases ctx with
  | nil => rfl
  | cons f ctx =>
    obtain ⟨hpcolor, -⟩ := (at_cons.1 h).join_facts
    rw [overColor_cons] at hover; simp only [up_cons, hpcolor, hover, if_true]

/-- The loop of `RB_INSERT_COLOR`. -/
theorem insertColorLoop_spec {fuel : ℕ} (h : At m ctx t) (ha : ptr t = some a)
    (hred : color t = .red) (hbal : Balanced t n) (hfits : Fits ctx n)
    (hfuel : ctx.length + 2 ≤ fuel) :
    ∃ m' x N, insertColorLoop fuel m a = some m' ∧ At m' [] x ∧ Balanced x N ∧
      inorder x = inorder (plug ctx t) := by
  induction fuel using Nat.strong_induction_on generalizing m ctx t a n with
  | h fuel ih =>
  obtain ⟨fuel, rfl⟩ : ∃ k, fuel = k + 1 := ⟨fuel - 1, by omega⟩
  obtain ⟨hparent, -⟩ := h.ptr_facts ha
  have hstop : overColor ctx = .black → ∃ m' x N, insertColorLoop (fuel + 1) m a = some m' ∧
      At m' [] x ∧ Balanced x N ∧ inorder x = inorder (plug ctx t) := by
    intro hover
    obtain ⟨N, hN⟩ := hfits.plug hbal (fun hr => by rw [hover] at hr; cases hr)
    exact ⟨m, plug ctx t, N, insertColorLoop_stop h ha hover, at_plug.1 h, hN, rfl⟩
  cases ctx with
  | nil => exact hstop rfl
  | cons f ctx =>
    cases hf : f.color with
    | black => exact hstop hf
    | red =>
      have hup := at_cons.1 h
      obtain ⟨hpcolor, hgparent, -⟩ := hup.join_facts
      have hfits' := hfits
      unfold Fits at hfits'
      rw [hf] at hfits'
      obtain ⟨-, -, -, ⟨d, c, g, u⟩, ctx, rfl, hg⟩ := hfits'
      dsimp only at hg
      subst hg
      rw [up_cons] at hgparent
      dsimp only at hgparent
      have hside : m.sideOf g (some f.node) = d := by
        have hs := hup.sideOf (.inl (by cases f.dir <;> simp [join]))
        rwa [ptr_join] at hs
      obtain ⟨-, -, -, huncle⟩ := (at_cons.1 hup).join_facts
      have hub : m.isBlack (ptr u) = true ↔ color u = .black :=
        (at_sib.1 (at_cons.1 hup)).isBlack
      dsimp only at huncle
      unfold insertColorLoop
      rw [hparent]
      simp only [up_cons, hpcolor, hf, reduceCtorEq, if_false, hgparent, hside, huncle]
      simp only [List.length_cons] at hfuel
      cases hu : color u with
      | black =>
        obtain ⟨m', b, f', x, hrun, hx, hat, hxbal, hf', hfits', hin⟩ :=
          insertRotate_spec h ha hred hbal hf hu hfits
        obtain ⟨N, hN⟩ := hfits'.plug hxbal (fun hr => by rw [overColor_cons, hf'] at hr; cases hr)
        obtain ⟨fuel, rfl⟩ : ∃ k, fuel = k + 1 := ⟨fuel - 1, by omega⟩
        rw [if_pos (hub.2 hu), hrun]
        exact ⟨m', plug (f' :: ctx) x, N, insertColorLoop_stop hat hx hf', at_plug.1 hat, hN, hin⟩
      | red =>
        have hnot : ¬ m.isBlack (ptr u) = true := by rw [hub, hu]; simp
        obtain ⟨x, hx, hxred, hat, hxbal, hfits', hin⟩ := insertRecolor_spec h hbal hf hu hfits
        rw [if_neg hnot, ← hin]; exact ih fuel (by omega) hat hx hxred hxbal hfits' (by omega)

/-- `RB_INSERT_COLOR` makes a red-black tree of the same nodes. -/
theorem insertColor_spec {fuel : ℕ} (h : At m ctx t) (ha : ptr t = some a)
    (hred : color t = .red) (hbal : Balanced t n) (hfits : Fits ctx n)
    (hfuel : ctx.length + 2 ≤ fuel) :
    ∃ m' x N, insertColor fuel m a = some m' ∧ At m' [] x ∧ Balanced x N ∧
      color x = .black ∧ inorder x = inorder (plug ctx t) := by
  obtain ⟨m₁, x, N, hrun, hat, hN, hin⟩ := insertColorLoop_spec h ha hred hbal hfits hfuel
  have hmem : a ∈ inorder x := by rw [hin, inorder_plug]; simp [ptr_mem ha]
  obtain ⟨r, hr⟩ : ∃ r, ptr x = some r := by
    cases x with
    | nil => cases hmem
    | node c l b r => exact ⟨b, rfl⟩
  have hroot : m₁.root = some r := hat.above.trans hr
  obtain ⟨N', hN'⟩ := hN.almost.blacken
  have hblack := hat.blacken
  rw [hr] at hblack
  refine ⟨m₁.setColor r .black, Lib.RedBlack.blacken x, N', ?_, hblack, hN', color_blacken,
    inorder_blacken.trans hin⟩
  unfold insertColor; simp only [hrun, Option.bind_eq_bind, Option.bind_some, hroot, pure]

end FreeBSD.RbTree
