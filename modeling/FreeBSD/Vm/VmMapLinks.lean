import FreeBSD.Vm.VmMap

/-!
# The list and the tree of an address map

`Linked m ids` says that the list of the map `m` is `ids`, that the tree has the same entries in the
same order, and that `nentries` counts them; `Ranges` that the ranges of the entries are not empty,
lie between two bounds, and come one after the other. Linking and unlinking an entry splay the tree
at an address of an entry and rely on it to bring this entry to the root, which only the order of
the ranges guarantees.

Results:
* `entryLink_spec`, `entryUnlink_spec`: an entry is linked behind another, or unlinked.
* `lookupEntry_spec`: the search for an address.
-/

namespace FreeBSD.Vm.VmMap

open Lib List Function

variable {m : VmMap} {ids xs ys : List ℕ} {e a lo top : ℕ}

/-! ## What holds of the entries -/

/-- The list of the map, its tree and its counter. -/
structure Linked (m : VmMap) (ids : List ℕ) : Prop where
  ring : Ring m.next m.prev header ids
  tree : ∃ t, IsTree m.links m.root t ∧ inorder t = ids
  nodup : (dummy :: header :: ids).Nodup
  fresh : ∀ e ∈ dummy :: header :: ids, e < m.fresh
  nentries : m.nentries = ids.length

/-- What holds of the fields of one entry. -/
structure InBounds (lo top : ℕ) (e : Entry) : Prop where
  lo_le : lo ≤ e.start
  lt : e.start < e.end_
  le_top : e.end_ ≤ top

/-- The ranges of the entries. -/
structure Ranges (lo top : ℕ) (entry : ℕ → Entry) (ids : List ℕ) : Prop where
  sorted : ids.Pairwise fun a b => (entry a).end_ ≤ (entry b).start
  bounds : ∀ e ∈ ids, InBounds lo top (entry e)

namespace Ranges

variable {entry entry' : ℕ → Entry}

theorem congr (h : Ranges lo top entry ids) (hsame : ∀ e ∈ ids, entry' e = entry e) :
    Ranges lo top entry' ids := by
  refine ⟨h.sorted.imp_of_mem fun {a b} ha hb hab => ?_, fun e he => ?_⟩
  · rwa [hsame a ha, hsame b hb]
  · rw [hsame e he]; exact h.bounds e he

theorem sublist {l : List ℕ} (h : Ranges lo top entry ids) (hl : l.Sublist ids) :
    Ranges lo top entry l :=
  ⟨h.sorted.sublist hl, fun e he => h.bounds e (hl.mem he)⟩

theorem le_start (h : Ranges lo top entry (xs ++ e :: ys)) (ha : a ∈ xs) :
    (entry a).end_ ≤ (entry e).start := by
  have hsorted := h.sorted
  rw [pairwise_append] at hsorted; exact hsorted.2.2 a ha e (by simp)

theorem end_le (h : Ranges lo top entry (xs ++ e :: ys)) (ha : a ∈ ys) :
    (entry e).end_ ≤ (entry a).start := by
  have hsorted := h.sorted
  rw [pairwise_append, pairwise_cons] at hsorted; exact hsorted.2.1.1 a ha

/-- A range between two others. -/
theorem insert (h : Ranges lo top entry (xs ++ ys)) (he : InBounds lo top (entry e))
    (hxs : ∀ a ∈ xs, (entry a).end_ ≤ (entry e).start)
    (hys : ∀ a ∈ ys, (entry e).end_ ≤ (entry a).start) :
    Ranges lo top entry (xs ++ e :: ys) := by
  have hsorted := h.sorted
  rw [pairwise_append] at hsorted
  obtain ⟨hx, hy, hxy⟩ := hsorted
  refine ⟨pairwise_append.2 ⟨hx, pairwise_cons.2 ⟨hys, hy⟩, ?_⟩, ?_⟩
  · intro a ha b hb
    rcases mem_cons.1 hb with rfl | hb
    · exact hxs a ha
    · exact hxy a ha b hb
  · intro a ha
    rcases mem_append.1 ha with ha | ha
    · exact h.bounds a (mem_append_left _ ha)
    · rcases mem_cons.1 ha with rfl | ha
      · exact he
      · exact h.bounds a (mem_append_right _ ha)

/-- An entry's range is changed in the place that the others leave. -/
theorem update (h : Ranges lo top entry (xs ++ e :: ys)) (hnodup : (xs ++ e :: ys).Nodup)
    {d : Entry} (hd : InBounds lo top d) (hxs : ∀ a ∈ xs, (entry a).end_ ≤ d.start)
    (hys : ∀ a ∈ ys, d.end_ ≤ (entry a).start) :
    Ranges lo top (Function.update entry e d) (xs ++ e :: ys) := by
  simp only [nodup_append, nodup_cons, mem_cons] at hnodup
  have hxe : ∀ a ∈ xs, a ≠ e := fun a ha => hnodup.2.2 a ha e (.inl rfl)
  have hye : ∀ a ∈ ys, a ≠ e := fun a ha heq => hnodup.2.1.1 (heq ▸ ha)
  have hrest : Ranges lo top (Function.update entry e d) (xs ++ ys) := by
    refine (h.sublist ?_).congr fun a ha => ?_
    · exact List.Sublist.append_left (sublist_cons_self e ys) xs
    · rw [update_of_ne]
      rcases mem_append.1 ha with ha | ha
      · exact hxe a ha
      · exact hye a ha
  refine hrest.insert ?_ (fun a ha => ?_) fun a ha => ?_
  · rwa [update_self]
  · rw [update_of_ne (hxe a ha), update_self]; exact hxs a ha
  · rw [update_of_ne (hye a ha), update_self]; exact hys a ha

end Ranges

/-! ## The search in the tree -/

theorem compare_eq : m.compare a e = .eq ↔ (m.entry e).start ≤ a ∧ a < (m.entry e).end_ := by
  unfold compare
  split_ifs <;> simp <;> omega

theorem compare_lt : m.compare a e = .lt ↔ a < (m.entry e).start := by
  unfold compare
  split_ifs <;> simp <;> omega

theorem compare_gt (h : (m.entry e).start < (m.entry e).end_) :
    m.compare a e = .gt ↔ (m.entry e).end_ ≤ a := by
  unfold compare
  split_ifs <;> simp <;> omega

theorem Ranges.searchable (h : Ranges lo top m.entry ids) : Searchable (m.compare a) ids := by
  refine h.sorted.imp_of_mem fun {b c} hb hc hbc => ?_
  have hb := (h.bounds b hb).lt
  have hc := (h.bounds c hc).lt
  rw [compare_gt hb, compare_gt hc, compare_lt, compare_lt]; omega

theorem Linked.length_le (h : Linked m ids) : ids.length ≤ m.fresh := by
  have hsub : dummy :: header :: ids ⊆ List.range m.fresh := fun e he =>
    mem_range.2 (h.fresh e he)
  have hlen := (h.nodup.subperm hsub).length_le
  simp only [length_cons, length_range] at hlen; omega

theorem Linked.nodup_dummy (h : Linked m ids) : (dummy :: ids).Nodup :=
  h.nodup.sublist (List.Sublist.cons_cons _ (sublist_cons_self _ _))

theorem Linked.nodup_header (h : Linked m ids) : (header :: ids).Nodup :=
  h.nodup.sublist (sublist_cons_self _ _)

/-- The splay of a tree. -/
theorem entrySplay_spec (address : ℕ) {root : ℕ} {t : BinaryTree ℕ}
    (h : IsTree m.links (some root) t) (hnodup : (dummy :: inorder t).Nodup)
    (hfuel : (inorder t).length ≤ m.fresh) :
    ∃ k root' l r, m.entrySplay address (some root) = some ({ m with links := k }, some root') ∧
      IsTree k (some root') (.node root' l r) ∧ inorder l ++ root' :: inorder r = inorder t ∧
      (∀ c, c ∉ dummy :: inorder t → k.left c = m.links.left c ∧ k.right c = m.links.right c) ∧
      (Searchable (m.compare address) (inorder t) → Adjacent (m.compare address) root' l r) := by
  rw [length_inorder] at hfuel
  obtain ⟨k, root', l, r, hs, htree, hnodes, hframe, hadj⟩ :=
    splay_spec (m.compare address) h hnodup hfuel
  exact ⟨k, root', l, r, by simp [entrySplay, hs], htree, hnodes, hframe, hadj⟩

/-- The splay at the start of an entry brings it to the root. -/
theorem entrySplay_start (hr : Ranges lo top m.entry ids) {root : ℕ} {t : BinaryTree ℕ}
    (h : IsTree m.links (some root) t) (ht : inorder t = ids) (hnodup : (dummy :: ids).Nodup)
    (hfuel : ids.length ≤ m.fresh) (he : e ∈ ids) :
    ∃ k l r, m.entrySplay (m.entry e).start (some root) = some ({ m with links := k }, some e) ∧
      IsTree k (some e) (.node e l r) ∧ inorder l ++ e :: inorder r = ids ∧
      ∀ c, c ∉ dummy :: ids → k.left c = m.links.left c ∧ k.right c = m.links.right c := by
  subst ht
  obtain ⟨k, root', l, r, hs, htree, hnodes, hframe, hadj⟩ :=
    entrySplay_spec (m.entry e).start h hnodup hfuel
  have hlt := (hr.bounds e he).lt
  have hadj := hadj hr.searchable
  have hroot : root' = e := by
    rw [← hnodes] at hr he
    rcases mem_append.1 he with hel | her
    · exfalso
      have hle := hr.le_start hel
      rcases hadj with heq | ⟨hgt, -⟩
      · rw [compare_eq] at heq; omega
      · have := (compare_gt hlt).1 (hgt e hel); omega
    · rcases mem_cons.1 her with rfl | her
      · rfl
      · exfalso
        have hle := hr.end_le her
        rcases hadj with heq | ⟨-, hlt'⟩
        · rw [compare_eq] at heq; omega
        · have := compare_lt.1 (hlt' e her); omega
  subst hroot; exact ⟨k, l, r, hs, htree, hnodes, hframe⟩

/-- The entry is at the root, if need be after a splay. -/
theorem splayToRoot_spec (hr : Ranges lo top m.entry ids) {t : BinaryTree ℕ}
    (h : IsTree m.links m.root t) (ht : inorder t = ids) (hnodup : (dummy :: ids).Nodup)
    (hfuel : ids.length ≤ m.fresh) (he : e ∈ ids) :
    ∃ k l r, m.splayToRoot e = some { m with links := k } ∧
      IsTree k (some e) (.node e l r) ∧ inorder l ++ e :: inorder r = ids ∧
      ∀ c, c ∉ dummy :: ids → k.left c = m.links.left c ∧ k.right c = m.links.right c := by
  unfold splayToRoot
  by_cases heq : some e = m.root
  · rw [← heq] at h
    obtain ⟨l, r, rfl, hl, hrt⟩ := h.of_some
    exact ⟨m.links, l, r, by rw [if_neg (not_not.2 heq)], ⟨rfl, hl, hrt⟩, ht, fun _ _ => ⟨rfl, rfl⟩⟩
  · rw [if_pos heq]
    cases hroot : m.root with
    | none =>
      rw [hroot, isTree_none] at h
      rw [h] at ht; simp [← ht] at he
    | some root =>
      rw [hroot] at h
      obtain ⟨k, l, r, hs, hrest⟩ := entrySplay_start hr h ht hnodup hfuel he
      exact ⟨k, l, r, by simp [hs, hroot], hrest⟩

/-! ## Linking and unlinking -/

/-- `e` is linked behind the last entry of `xs`, or behind the header. -/
theorem entryLink_spec (h : Linked m (xs ++ ys)) (hr : Ranges lo top m.entry (xs ++ ys))
    (he : e ∉ dummy :: header :: (xs ++ ys)) (hfresh : e < m.fresh) :
    ∃ k r nx pv n, m.entryLink (xs.getLastD header) e =
        some { m with links := k, root := r, next := nx, prev := pv, nentries := n } ∧
      Linked { m with links := k, root := r, next := nx, prev := pv, nentries := n }
        (xs ++ e :: ys) := by
  obtain ⟨t, ht, hnodes⟩ := h.tree
  have hnext : m.next (xs.getLastD header) = ys.headD header := h.ring.next_last
  have hring := h.ring.insert h.nodup_header (fun hmem => he (mem_cons_of_mem _ hmem))
  rw [← hnext] at hring
  have hnodup : (dummy :: header :: (xs ++ e :: ys)).Nodup := by
    have hperm : ((dummy :: header :: xs) ++ e :: ys).Perm (e :: (dummy :: header :: xs ++ ys)) :=
      perm_middle
    exact hperm.nodup_iff.2 (nodup_cons.2 ⟨he, h.nodup⟩)
  have hfresh' : ∀ c ∈ dummy :: header :: (xs ++ e :: ys), c < m.fresh := by
    intro c hc
    have hmem : c = e ∨ c ∈ dummy :: header :: (xs ++ ys) := by
      simp only [mem_cons, mem_append] at hc ⊢; tauto
    rcases hmem with rfl | hmem
    · exact hfresh
    · exact h.fresh c hmem
  have hn : m.nentries + 1 = ((xs ++ e :: ys).length : ℕ) := by
    rw [h.nentries]
    simp only [length_append, length_cons]; omega
  simp only [mem_cons, not_or] at he
  rcases eq_nil_or_concat' xs with rfl | ⟨xs, a, rfl⟩
  · have htree : IsTree ((m.links.setRight e m.root).setLeft e none) (some e) (.node e .nil t) := by
      refine ⟨rfl, by simp, ?_⟩
      simp only [Links.setLeft_right, Links.setRight_right_self]
      refine (ht.congr (Links.sameAt_setRight ?_)).congr (Links.sameAt_setLeft ?_) <;>
      · rw [hnodes]; exact he.2.2
    simp only [getLastD_nil] at hring ⊢
    have hlink : m.entryLink header e = some { m with
        links := (m.links.setRight e m.root).setLeft e none
        root := some e
        next := Function.update (Function.update m.next e (m.next header)) header e
        prev := Function.update (Function.update m.prev e header) (m.next header) e
        nentries := m.nentries + 1 } := by
      simp [entryLink]
    exact ⟨_, _, _, _, _, hlink, hring, ⟨_, htree, by simpa using hnodes⟩, hnodup,
      hfresh', hn⟩
  · rw [getLastD_concat] at hring ⊢
    have hnotin : ∀ c ∈ xs ++ a :: ys, c ≠ e := by rintro c hc rfl; exact he.2.2 (by simpa using hc)
    have hids := h.nodup
    simp only [append_assoc, singleton_append, nodup_cons, nodup_append,
      mem_append, mem_cons, not_or] at hids
    obtain ⟨-, ⟨-, haheader, -⟩, -, ⟨hays, -⟩, hxs⟩ := hids
    have haxs : a ∉ xs := fun hmem => hxs a hmem a (.inl rfl) rfl
    have hae : a ≠ e := hnotin a (by simp)
    obtain ⟨k, l, r, hs, ⟨-, hl, hrt⟩, hlr, -⟩ := splayToRoot_spec (e := a)
      (m := { m with
        nentries := m.nentries + 1
        prev := Function.update (Function.update m.prev e a) (m.next a) e
        next := Function.update (Function.update m.next e (m.next a)) a e })
      hr ht hnodes h.nodup_dummy h.length_le (by simp)
    rw [append_assoc, singleton_append] at hlr
    obtain ⟨rfl, -, rfl⟩ := (append_cons_inj_of_notMem haxs hays).1 hlr.symm
    have hlink : m.entryLink a e = some { m with
        links := ((k.setRight e (k.right a)).setLeft e (some a)).setRight a none
        root := some e
        next := Function.update (Function.update m.next e (m.next a)) a e
        prev := Function.update (Function.update m.prev e a) (m.next a) e
        nentries := m.nentries + 1 } := by
      unfold entryLink
      simp only [ne_eq, Ne.symm haheader, not_false_eq_true, if_true, hs]; rfl
    have htree : IsTree (((k.setRight e (k.right a)).setLeft e (some a)).setRight a none)
        (some e) (.node e (.node a l .nil) r) := by
      refine ⟨rfl, ⟨by simp, ?_, by simp⟩, ?_⟩
      · simp only [Links.setRight_left, Links.setLeft_left_of_ne hae]
        refine hl.congr fun c hc => ?_
        have hce : c ≠ e := hnotin c (by simp [hc])
        have hca : c ≠ a := fun heq => haxs (heq ▸ hc)
        simp [hce, hca]
      · simp only [Links.setRight_right_of_ne hae.symm, Links.setLeft_right,
          Links.setRight_right_self]
        refine hrt.congr fun c hc => ?_
        have hce : c ≠ e := hnotin c (by simp [hc])
        have hca : c ≠ a := fun heq => hays (heq ▸ hc)
        simp [hce, hca]
    exact ⟨_, _, _, _, _, hlink, hring, ⟨_, htree, by simp⟩, hnodup, hfresh', hn⟩

/-- The root of the tree is taken out: the greatest entry that is left of it, if there is one, is
    the new root. -/
theorem unlinkRoot_spec {l r : BinaryTree ℕ} (h : IsTree m.links (some e) (.node e l r))
    (hr : Ranges lo top m.entry (inorder l ++ e :: inorder r))
    (hnodup : (dummy :: (inorder l ++ e :: inorder r)).Nodup)
    (hfuel : (inorder l ++ e :: inorder r).length ≤ m.fresh) :
    ∃ k root t, m.unlinkRoot e = some { m with links := k, root := root } ∧
      IsTree k root t ∧ inorder t = inorder l ++ inorder r := by
  obtain ⟨-, hl, hrt⟩ := h
  have hrest := hnodup
  simp only [nodup_cons, nodup_append, mem_append, mem_cons, not_or] at hrest
  obtain ⟨⟨hdl, hde, hdr⟩, hlnodup, ⟨her, -⟩, hlr⟩ := hrest
  cases hleft : m.links.left e with
  | none =>
    rw [hleft, isTree_none] at hl
    subst hl; exact ⟨m.links, m.links.right e, r, by simp [unlinkRoot, hleft], hrt, rfl⟩
  | some lroot =>
    rw [hleft] at hl
    have hfuel' : (inorder l).length ≤ m.fresh := by simp only [length_append] at hfuel; omega
    obtain ⟨k, root, l', r', hs, ⟨-, hl', hr'⟩, hnodes, hframe, hadj⟩ :=
      entrySplay_spec (m.entry e).start hl (nodup_cons.2 ⟨hdl, hlnodup⟩) hfuel'
    have hsub : (inorder l).Sublist (inorder l ++ e :: inorder r) := sublist_append_left _ _
    -- every entry that is left of `e` ends in front of its start
    have hgt : ∀ c ∈ inorder l, m.compare (m.entry e).start c = .gt := by
      intro c hc; exact (compare_gt (hr.bounds c (by simp [hc])).lt).2 (hr.le_start hc)
    have hr'nil : r' = .nil := by
      have hnone : ∀ c, c ∉ inorder r' := by
        intro c hc
        have hcl : c ∈ inorder l := by simp [← hnodes, hc]
        rcases hadj (hr.sublist hsub).searchable with heq | ⟨-, hlt⟩
        · rw [hgt root (by simp [← hnodes])] at heq
          cases heq
        · have := hlt c hc
          rw [hgt c hcl] at this
          cases this
      cases r' with
      | nil => rfl
      | node c a b => exact absurd (by simp) (hnone c)
    subst hr'nil
    have hroot : root ∈ inorder l := by simp [← hnodes]
    have houtside : ∀ c, c = e ∨ c ∈ inorder r → c ∉ dummy :: inorder l := by
      intro c hc hmem
      rcases mem_cons.1 hmem with rfl | hmem
      · rcases hc with hc | hc
        · exact hde hc
        · exact hdr hc
      · exact hlr c hmem c hc rfl
    have heright : k.right e = m.links.right e := (hframe e (houtside e (.inl rfl))).2
    have hnodup' : (inorder l' ++ root :: inorder (.nil : BinaryTree ℕ)).Nodup := hnodes ▸ hlnodup
    have htree : IsTree (k.setRight root (k.right e)) (some root) (.node root l' r) := by
      refine ⟨rfl, hl'.congr (Links.sameAt_setRight fun hmem => ?_), ?_⟩
      · rw [nodup_append] at hnodup'; exact hnodup'.2.2 root hmem root (by simp) rfl
      · rw [Links.setRight_right_self, heright]
        refine (hrt.congr fun c hc => hframe c (houtside c (.inr hc))).congr
          (Links.sameAt_setRight fun hmem => ?_)
        exact hlr root hroot root (.inr hmem) rfl
    refine ⟨_, _, _, ?_, htree, ?_⟩
    · simp only [unlinkRoot, hleft, hs]
    · rw [← hnodes]; simp

/-- An entry is unlinked. -/
theorem entryUnlink_spec (h : Linked m (xs ++ e :: ys))
    (hr : Ranges lo top m.entry (xs ++ e :: ys)) :
    ∃ k r nx pv n, m.entryUnlink e =
        some { m with links := k, root := r, next := nx, prev := pv, nentries := n } ∧
      Linked { m with links := k, root := r, next := nx, prev := pv, nentries := n }
        (xs ++ ys) := by
  obtain ⟨t, ht, hnodes⟩ := h.tree
  obtain ⟨k, l, r, hs, htree, hlr, -⟩ :=
    splayToRoot_spec hr ht hnodes h.nodup_dummy h.length_le (e := e) (by simp)
  have hids := h.nodup
  simp only [nodup_cons, nodup_append] at hids
  obtain ⟨-, -, -, ⟨heys, -⟩, hxs⟩ := hids
  have hexs : e ∉ xs := fun hmem => hxs e hmem e (by simp) rfl
  obtain ⟨rfl, -, rfl⟩ := (append_cons_inj_of_notMem hexs heys).1 hlr.symm
  obtain ⟨k', root, t', hu, ht', hnodes'⟩ :=
    unlinkRoot_spec (m := { m with links := k }) htree hr h.nodup_dummy h.length_le
  have hring := h.ring.remove h.nodup_header
  rw [← h.ring.next_eq, ← h.ring.prev_eq] at hring
  have hunlink : m.entryUnlink e = some { m with
      links := k'
      root := root
      next := Function.update m.next (m.prev e) (m.next e)
      prev := Function.update m.prev (m.next e) (m.prev e)
      nentries := m.nentries - 1 } := by
    simp only [entryUnlink, hs]; exact congrArg (Option.bind · _) hu
  have hsub : (dummy :: header :: (inorder l ++ inorder r)).Sublist
      (dummy :: header :: (inorder l ++ e :: inorder r)) :=
    ((List.Sublist.append_left (sublist_cons_self _ _) _).cons_cons _).cons_cons _
  refine ⟨_, _, _, _, _, hunlink, hring, ⟨t', ht', hnodes'⟩, h.nodup.sublist hsub,
    fun c hc => h.fresh c (hsub.mem hc), ?_⟩
  show m.nentries - 1 = _
  rw [h.nentries]
  simp only [length_append, length_cons]; omega

/-! ## Looking up an address -/

/-- What a search for the address `a` answers: the entry that contains it, or else the last entry
    in front of it. -/
def Looked (m : VmMap) (ids : List ℕ) (a : ℕ) (found : Bool) (e : ℕ) : Prop :=
  ∃ xs ys, (∀ b ∈ xs, (m.entry b).end_ ≤ a) ∧ (∀ b ∈ ys, a < (m.entry b).start) ∧
    if found then ids = xs ++ e :: ys ∧ (m.entry e).start ≤ a ∧ a < (m.entry e).end_
    else ids = xs ++ ys ∧ e = xs.getLastD header

theorem lookupEntry_spec (h : Linked m ids) (hr : Ranges lo top m.entry ids) (a : ℕ) :
    ∃ k r found e, m.lookupEntry a = some ({ m with links := k, root := r }, found, e) ∧
      Linked { m with links := k, root := r } ids ∧ Looked m ids a found e := by
  obtain ⟨t, ht, hnodes⟩ := h.tree
  cases hroot : m.root with
  | none =>
    rw [hroot, isTree_none] at ht
    subst ht
    rw [inorder_nil] at hnodes
    subst hnodes
    refine ⟨m.links, m.root, false, header, ?_, h, [], [], by simp, by simp, by simp⟩
    show m.lookupEntry a = some (m, false, header)
    simp [lookupEntry, entrySplay, hroot]
  | some root =>
    rw [hroot] at ht
    subst hnodes
    obtain ⟨k, root', l, r, hs, htree, hlr, -, hadj⟩ :=
      entrySplay_spec a ht h.nodup_dummy h.length_le
    have hadj := hadj hr.searchable
    have hlinked : Linked { m with links := k, root := some root' } (inorder t) :=
      ⟨h.ring, ⟨_, htree, hlr⟩, h.nodup, h.fresh, h.nentries⟩
    rw [← hlr] at hr hlinked ⊢
    have hlt := (hr.bounds root' (by simp)).lt
    have hbounds : ∀ b ∈ inorder l, (m.entry b).start < (m.entry b).end_ :=
      fun b hb => (hr.bounds b (by simp [hb])).lt
    by_cases hstart : (m.entry root').start ≤ a
    · by_cases hend : a < (m.entry root').end_
      · refine ⟨k, some root', true, root', ?_, hlinked, inorder l, inorder r, fun b hb => ?_,
          fun b hb => ?_, rfl, hstart, hend⟩
        · simp [lookupEntry, hroot, hs, hstart, hend]
        · exact (hr.le_start hb).trans hstart
        · exact hend.trans_le (hr.end_le hb)
      · have hnot : m.compare a root' ≠ .eq := fun heq => hend (compare_eq.1 heq).2
        obtain ⟨-, hafter⟩ := hadj.resolve_left hnot
        refine ⟨k, some root', false, root', ?_, hlinked, inorder l ++ [root'], inorder r,
          fun b hb => ?_, fun b hb => ?_, ?_⟩
        · simp [lookupEntry, hroot, hs, hstart, hend]
        · rcases mem_append.1 hb with hb | hb
          · have := hr.le_start hb; omega
          · obtain rfl := mem_singleton.1 hb
            omega
        · exact compare_lt.1 (hafter b hb)
        · rw [if_neg (by simp), getLastD_concat]
          simp
    · have hnot : m.compare a root' ≠ .eq := fun heq => hstart (compare_eq.1 heq).1
      obtain ⟨hbefore, -⟩ := hadj.resolve_left hnot
      refine ⟨k, some root', false, (inorder l).getLastD header, ?_, hlinked, inorder l,
        root' :: inorder r, fun b hb => ?_, fun b hb => ?_, ?_⟩
      · rw [← hlinked.ring.prev_eq]; simp [lookupEntry, hroot, hs, hstart]
      · exact (compare_gt (hbounds b hb)).1 (hbefore b hb)
      · rcases mem_cons.1 hb with rfl | hb
        · omega
        · have := hr.end_le hb; omega
      · rw [if_neg (by simp)]
        exact ⟨rfl, rfl⟩

end FreeBSD.Vm.VmMap
