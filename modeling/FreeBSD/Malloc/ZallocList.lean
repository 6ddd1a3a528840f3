import FreeBSD.Lib.Chain
import FreeBSD.Lib.FreeAreas
import FreeBSD.Malloc.Zalloc

/-!
# The free list of a memory pool

The nodes that one meets from `mp_First` on are the areas of the free list
(`FreeList`). What a call writes into nodes and links is read back as a
replacement of some areas with others.

Results:
* `cut_freeList`: allocation shortens an area or removes it.
* `insertBefore_freeList`, `append_freeList`: freeing adds an area and merges it with those that
  it touches.
* `znallocLoop_spec`, `zfreeLoop_spec`: where the searches end.
-/

namespace FreeBSD.Zalloc

open List
open Lib (Chain Path linkAfter Coalesced covered covered_append covered_cons covered_nil total
  coalesced_append coalesced_cons)

/-- The area that `*pmn` points to. -/
def read (s : State) (pmn : Option ℕ) : Option (ℕ × ℕ) :=
  if s.deref pmn = 0 then none else some (s.deref pmn, (s.node (s.deref pmn)).mrBytes)

/-- The link of an area is at its address. -/
def link (a : ℕ × ℕ) : Option ℕ := some a.1

/-- The areas of the free list. -/
abbrev FreeList (s : State) (l : List (ℕ × ℕ)) : Prop := Chain link (read s) none l

variable {A : Arch} {s : State} {pmn q : Option ℕ} {p b v unit lo hi : ℕ} {n : MemNode}
  {a : ℕ × ℕ} {l pre mid suf new rest : List (ℕ × ℕ)}

/-! ## Stores -/

theorem read_eq_none : read s pmn = none ↔ s.deref pmn = 0 := by
  unfold read
  split_ifs with h
  · exact iff_of_true rfl h
  · exact iff_of_false (by simp) h

theorem read_eq_some (h : read s pmn = some a) :
    s.deref pmn = a.1 ∧ a.1 ≠ 0 ∧ (s.node a.1).mrBytes = a.2 := by
  unfold read at h
  split_ifs at h with h0
  obtain rfl := Option.some.inj h
  exact ⟨rfl, h0, rfl⟩

theorem read_setUsed {used : ℕ} : read (s.setUsed used) = read s := by
  funext pmn
  cases pmn <;> rfl

theorem deref_setNode_of_ne (h : q ≠ some p) : (s.setNode p n).deref q = s.deref q := by
  cases q with
  | none => rfl
  | some r =>
    have hne : r ≠ p := fun hr => h (by rw [hr])
    show (Function.update s.node p n r).mrNext = _
    rw [Function.update_of_ne hne]; rfl

@[simp] theorem node_setNode_self : (s.setNode p n).node p = n := Function.update_self _ _ _

theorem node_setNode_of_ne {r : ℕ} (h : r ≠ p) : (s.setNode p n).node r = s.node r :=
  Function.update_of_ne h _ _

theorem read_setNode (hq : q ≠ some p) (hd : s.deref q ≠ p) : read
    (s.setNode p n) q = read s q := by
  unfold read
  rw [deref_setNode_of_ne hq, node_setNode_of_ne hd]

/-- A node that is not on the list does not matter. -/
theorem read_setNode_of_chain (h : Chain link (read s) pmn l) (hp : p ∉ l.map Prod.fst)
    (hpos : p ≠ 0) (hq : q ∈ pmn :: l.map link) (hne : q ≠ some p) :
    read (s.setNode p n) q = read s q := by
  refine read_setNode hne fun hd => ?_
  cases ha : read s q with
  | none => exact hpos (hd.symm.trans (read_eq_none.1 ha))
  | some a =>
    have hmem := h.mem_of_read hq ha
    rw [(read_eq_some ha).1] at hd; exact hp (mem_map.2 ⟨a, hmem, hd⟩)

theorem mrBytes_setLink (r : ℕ) : ((s.setLink pmn v).node r).mrBytes = (s.node r).mrBytes := by
  cases pmn with
  | none => rfl
  | some q =>
    by_cases h : r = q
    · subst h
      show ((s.setNode r _).node r).mrBytes = _
      rw [node_setNode_self]
    · show ((s.setNode q _).node r).mrBytes = _
      rw [node_setNode_of_ne h]

theorem deref_setLink_self : (s.setLink pmn v).deref pmn = v := by
  cases pmn with
  | none => rfl
  | some q =>
    show ((s.setNode q _).node q).mrNext = v
    rw [node_setNode_self]

theorem deref_setLink_of_ne (h : q ≠ pmn) : (s.setLink pmn v).deref q = s.deref q := by
  cases pmn with
  | none =>
    cases q with
    | none => exact absurd rfl h
    | some r => rfl
  | some r => exact deref_setNode_of_ne h

theorem read_setLink_of_ne (h : q ≠ pmn) : read (s.setLink pmn v) q = read s q := by
  unfold read
  rw [deref_setLink_of_ne h, mrBytes_setLink]

theorem read_setLink_self :
    read (s.setLink pmn v) pmn = if v = 0 then none else some (v, (s.node v).mrBytes) := by
  unfold read
  rw [deref_setLink_self, mrBytes_setLink]

/-- The next link of a node holds what is read there. -/
theorem read_some : read s (some p) =
    if (s.node p).mrNext = 0 then none else some ((s.node p).mrNext,
      (s.node (s.node p).mrNext).mrBytes) := rfl

/-- The links of the list are different places. -/
theorem nodup_links (h : (l.map Prod.fst).Nodup) : (none :: l.map link).Nodup := by
  rw [nodup_cons]
  refine ⟨by simp [link], ?_⟩
  have hmap : l.map link = (l.map Prod.fst).map some := by rw [map_map]; rfl
  rw [hmap]; exact h.map (Option.some_injective ℕ)

theorem not_mem_links (hp : p ∉ l.map Prod.fst) : some p ∉ none :: l.map link := by
  intro h
  rcases mem_cons.1 h with h | h
  · cases h
  · obtain ⟨a, ha, heq⟩ := mem_map.1 h
    exact hp (mem_map.2 ⟨a, ha, Option.some.inj heq⟩)

/-! ## Changes to the list -/

/-- The area `n.mrNext`, as it is read from a node. -/
def nextArea (s : State) (n : MemNode) : Option (ℕ × ℕ) :=
  if n.mrNext = 0 then none else some (n.mrNext, (s.node n.mrNext).mrBytes)

/-- A node at an address that is not on the list takes the place of some areas. -/
theorem add_freeList (mid : List (ℕ × ℕ)) (hl : FreeList s (pre ++ (mid ++ suf)))
    (hnd : ((pre ++ (mid ++ suf)).map Prod.fst).Nodup)
    (hp : p ∉ (pre ++ (mid ++ suf)).map Prod.fst) (hpos : p ≠ 0)
    (hnext : nextArea s n = suf.head?) :
    FreeList ((s.setNode p n).setLink (linkAfter link none pre) p)
      (pre ++ ([(p, n.mrBytes)] ++ suf)) := by
  have hloc : some p ≠ linkAfter link none pre := by
    intro h
    refine not_mem_links hp ?_
    rw [h, map_append, ← cons_append]
    exact mem_append_left _ (Lib.linkAfter_mem none pre)
  refine hl.replace (nodup_links hnd) (fun q hq hnq => ?_) ⟨?_, ?_⟩
  · rw [read_setLink_of_ne fun h => hnq (by rw [h]; exact mem_cons_self)]
    exact read_setNode_of_chain hl hp hpos hq fun h => not_mem_links hp (h ▸ hq)
  · rw [read_setLink_self, if_neg hpos, node_setNode_self]
  · show read _ (some p) = suf.head?
    rw [read_setLink_of_ne hloc, read_some, node_setNode_self, ← hnext]
    unfold nextArea
    split_ifs with h0
    · rfl
    · rw [node_setNode_of_ne]
      -- the next area is on the list
      intro heq
      unfold nextArea at hnext
      rw [if_neg h0, heq] at hnext
      refine hp ?_
      rw [map_append, map_append]
      exact mem_append_right _ (mem_append_right _
        (mem_map.2 ⟨_, mem_of_mem_head? hnext.symm, rfl⟩))

/-- A link skips some areas. -/
theorem skip_freeList (hl : FreeList s (pre ++ (mid ++ suf)))
    (hnd : ((pre ++ (mid ++ suf)).map Prod.fst).Nodup) (hnext : nextArea s n = suf.head?) :
    FreeList (s.setLink (linkAfter link none pre) n.mrNext) (pre ++ ([] ++ suf)) := by
  refine hl.replace (nodup_links hnd) (fun q _ hq => ?_) ?_
  · exact read_setLink_of_ne fun h => hq (by rw [h]; exact mem_cons_self)
  · show read _ _ = suf.head?
    rw [read_setLink_self, ← hnext]; rfl

/-- A node of the list is changed, and the areas after it are skipped. -/
theorem change_freeList {r m : ℕ} (mid suf : List (ℕ × ℕ))
    (hl : FreeList s (pre ++ ((r, m) :: mid ++ suf)))
    (hnd : ((pre ++ ((r, m) :: mid ++ suf)).map Prod.fst).Nodup)
    (hnext : nextArea s n = suf.head?) :
    FreeList (s.setNode r n) (pre ++ ([(r, n.mrBytes)] ++ suf)) := by
  have hmem : (r, m) ∈ pre ++ ((r, m) :: mid ++ suf) := by simp
  have hnd' : (pre ++ (r, m) :: (mid ++ suf)).Nodup := List.Nodup.of_map _ hnd
  obtain ⟨-, hcons, hap⟩ := nodup_append.1 hnd'
  have hr : r ∉ suf.map Prod.fst := by
    rw [map_append, cons_append, map_cons, map_append,
      nodup_append] at hnd
    exact fun h => (nodup_cons.1 hnd.2.1).1 (mem_append_right _ h)
  have hloc : Chain link (read s) (linkAfter link none pre) ((r, m) :: mid ++ suf) := hl.suffix
  obtain ⟨hd, hr0, -⟩ := read_eq_some hloc.1
  have hne : linkAfter link none pre ≠ some r := by
    intro h
    have hlinks := nodup_links hnd
    rw [map_append, ← cons_append, nodup_append] at hlinks
    exact hlinks.2.2 _ (Lib.linkAfter_mem none pre) (some r) (by simp [link]) h
  refine hl.replace (nodup_links hnd) (fun q hq hnq => ?_) ⟨?_, ?_⟩
  · have hqr : q ≠ some r := fun h => hnq (by rw [h]; simp [link])
    refine read_setNode hqr fun hdq => ?_
    -- only the link in front of `r` points to it
    cases ha : read s q with
    | none => exact hr0 (hdq.symm.trans (read_eq_none.1 ha))
    | some a =>
      obtain ⟨l₁, l₂, heq, rfl⟩ := hl.split_of_read hq ha
      have hfst : a.1 = r := (read_eq_some ha).1.symm.trans hdq
      obtain rfl : a = (r, m) :=
        inj_on_of_nodup_map hnd (heq ▸ by simp) hmem hfst
      rw [cons_append] at heq
      obtain ⟨rfl, -⟩ := (append_cons_inj_of_notMem (fun h => hap _ h _ mem_cons_self rfl)
        (nodup_cons.1 hcons).1).1 heq
      exact hnq mem_cons_self
  · unfold read
    rw [deref_setNode_of_ne hne, hd, if_neg hr0, node_setNode_self]
  · show read _ (some r) = suf.head?
    rw [read_some, node_setNode_self, ← hnext]
    unfold nextArea
    split_ifs with h0
    · rfl
    · rw [node_setNode_of_ne]
      intro heq
      unfold nextArea at hnext
      rw [if_neg h0, heq] at hnext
      exact hr (mem_map.2 ⟨_, mem_of_mem_head? hnext.symm, rfl⟩)

/-- The node of an area holds the link to the next one. -/
theorem nextArea_of_chain (hl : FreeList s (pre ++ ([a] ++ suf))) :
    nextArea s (s.node a.1) = suf.head? := by
  have h : Chain link (read s) (linkAfter link none pre) ([a] ++ suf) := hl.suffix
  have hrest : read s (some a.1) = suf.head? := h.2.read_eq
  rw [read_some] at hrest; exact hrest

/-! ## Allocation -/

/-- `znalloc` takes the chunk out of the front of an area. -/
theorem cut_freeList (hl : FreeList s (pre ++ ([a] ++ suf)))
    (hc : Coalesced unit lo hi (pre ++ ([a] ++ suf))) (hpos : 0 < b) (hle : b ≤ a.2) :
    FreeList (cut A b s (linkAfter link none pre) a.1)
      (pre ++ ((if a.2 = b then [] else [(a.1 + b, a.2 - b)]) ++ suf)) := by
  have hsuf : Chain link (read s) (linkAfter link none pre) ([a] ++ suf) := hl.suffix
  obtain ⟨-, -, hbytes⟩ := read_eq_some hsuf.1
  have hrest := nextArea_of_chain hl
  unfold cut
  dsimp only
  rw [hbytes]
  unfold FreeList
  rw [read_setUsed]
  by_cases heq : a.2 = b
  · rw [if_pos heq, if_pos heq]; exact skip_freeList hl hc.nodup_fst hrest
  · rw [if_neg heq, if_neg heq]
    -- the rest of the area is no area of the list
    refine add_freeList [a] hl hc.nodup_fst (fun hmem => ?_) (by omega) hrest
    obtain ⟨c, hcm, hcv⟩ := mem_map.1 hmem
    obtain ⟨-, h2, h3⟩ := pairwise_append.1 hc.apart
    rcases mem_append.1 hcm with h | h
    · have := h3 c h a (by simp); omega
    · rcases mem_cons.1 h with rfl | h
      · omega
      · have := (pairwise_cons.1 h2).1 c h; omega

/-- The search ends at the first area that is big enough, or at the end of the list. -/
theorem znallocLoop_spec (h : Chain link (read s) pmn rest) (rounds : ℕ)
    (hrounds : rest.length < rounds) :
    (znallocLoop A b rounds s pmn = .ok (s, 0) ∧ ∀ a ∈ rest, a.2 < b) ∨
      ∃ pre a suf, rest = pre ++ ([a] ++ suf) ∧ b ≤ a.2 ∧
        znallocLoop A b rounds s pmn = .ok (cut A b s (linkAfter link pmn pre) a.1, a.1) := by
  induction rest generalizing pmn rounds with
  | nil =>
    obtain ⟨rounds, rfl⟩ : ∃ r, rounds = r + 1 := ⟨rounds - 1, by omega⟩
    refine .inl ⟨?_, by simp⟩
    rw [znallocLoop]
    rw [if_pos (read_eq_none.1 h)]
  | cons a rest ih =>
    rw [length_cons] at hrounds
    obtain ⟨rounds, rfl⟩ : ∃ r, rounds = r + 1 := ⟨rounds - 1, by omega⟩
    obtain ⟨hd, hne, hbytes⟩ := read_eq_some h.1
    rw [znallocLoop]
    rw [hd, if_neg hne, hbytes]
    by_cases hlt : b > a.2
    · rw [if_pos hlt]
      rcases ih h.2 rounds (by omega) with ⟨h1, h2⟩ | ⟨pre, c, suf, rfl, h1, h2⟩
      · exact .inl ⟨h1, forall_mem_cons.2 ⟨hlt, h2⟩⟩
      · exact .inr ⟨a :: pre, c, suf, rfl, h1, h2⟩
    · rw [if_neg hlt]; exact .inr ⟨[], a, rest, rfl, by omega, rfl⟩

/-! ## Freeing -/

theorem add_of_lt {x y : ℕ} (h : x + y < A.iaddrs) : A.add x y = x + y := Nat.mod_eq_of_lt h

/-- What the list is after an area has been added. -/
def Added (unit lo hi : ℕ) (s : State) (l : List (ℕ × ℕ)) (p b : ℕ) : Prop :=
  ∃ l', FreeList s l' ∧ Coalesced unit lo hi l' ∧ covered l' = covered l ∪ Set.Ico p (p + b) ∧
    total l' = total l + b

/-- An area between `pre` and `suf` is merged with the one before it if they touch. -/
theorem mergePrevious_freeList {c : ℕ} (hl : FreeList s (pre ++ ([(p, c)] ++ suf)))
    (hpre : Coalesced unit lo hi pre) (hsuf : Coalesced unit lo hi ((p, c) :: suf))
    (hap : ∀ a ∈ pre, a.1 + a.2 ≤ p) (hhi : hi < A.iaddrs) :
    ∃ l', FreeList (mergePrevious A s (linkAfter link none pre) p) l' ∧ Coalesced unit lo hi l' ∧
      covered l' = covered pre ∪ covered ((p, c) :: suf) ∧ total l' = total pre +
        (c + total suf) := by
  have hstay : (∀ a ∈ pre, a.1 + a.2 < p) → ∃ l', FreeList s l' ∧ Coalesced unit lo hi l' ∧
      covered l' = covered pre ∪ covered ((p, c) :: suf) ∧
        total l' = total pre + (c + total suf) := fun hlt =>
    ⟨_, hl, hpre.between hsuf hlt, covered_append _ _, by simp⟩
  rcases eq_nil_or_concat pre with rfl | ⟨pre, r, rfl⟩
  · exact hstay (by simp)
  · rw [concat_eq_append] at hl hpre hap hstay ⊢
    have hr := hap r (by simp)
    obtain ⟨hpre', -, hlast⟩ := coalesced_append.1 hpre
    have hread : read s (linkAfter link none pre) = some r := by
      rw [append_assoc] at hl; exact hl.suffix.1
    obtain ⟨-, -, hbytes⟩ := read_eq_some hread
    rw [Lib.linkAfter_concat]
    unfold mergePrevious link
    dsimp only
    rw [hbytes]
    by_cases htouch : r.1 + r.2 = p
    · rw [if_pos htouch]
      obtain ⟨hco, hcov⟩ := hpre.join hsuf htouch
      have hp : read s (some r.1) = some (p, c) := by
        have := hl.suffix.1
        rwa [Lib.linkAfter_concat] at this
      have hsum : A.add r.2 (s.node p).mrBytes = r.2 + c := by
        rw [(read_eq_some hp).2.2]
        have := (coalesced_cons.1 hsuf).1.2.2.2.2
        exact add_of_lt (by omega)
      rw [hsum]
      have hnext := nextArea_of_chain hl
      have hnd : ((pre ++ (r :: [(p, c)] ++ suf)).map Prod.fst).Nodup := by
        have happ := hpre.nodup_append hsuf fun a ha x hx => by
          have h1 := hap a ha
          rcases mem_cons.1 hx with rfl | hx
          · exact h1
          · have := (coalesced_cons.1 hsuf).2.1 x hx; omega
        rwa [append_assoc] at happ
      refine ⟨_, change_freeList (n := { mrNext := (s.node p).mrNext, mrBytes := r.2 + c }) _ _
        (by rw [append_assoc] at hl; exact hl) hnd hnext, hco, hcov, ?_⟩
      simp
      omega
    · rw [if_neg htouch]
      refine hstay fun a ha => ?_
      rcases mem_append.1 ha with h | h
      · have := hlast a h r (by simp); omega
      · rw [mem_singleton] at h
        subst h; omega

section Insert

variable (hc : Coalesced unit lo hi (pre ++ suf)) (hp : unit ∣ p) (hb : unit ∣ b) (h0 : 0 < b)
  (hpos : p ≠ 0) (hlo : lo ≤ p) (hpb : p + b ≤ hi) (hhi : hi < A.iaddrs)
  (hpre : ∀ a ∈ pre, a.1 + a.2 ≤ p) (hsuf : ∀ a ∈ suf, p + b ≤ a.1)

include hc h0 hpre hsuf in
theorem not_mem_addresses : p ∉ (pre ++ suf).map Prod.fst := by
  intro hmem
  obtain ⟨c, hcm, hcv⟩ := mem_map.1 hmem
  have hpos := (hc.area c hcm).2.2.1
  rcases mem_append.1 hcm with h | h
  · have := hpre c h; omega
  · have := hsuf c h; omega

include hc hp hb h0 hpos hlo hpb hhi hpre hsuf in
/-- An area that ends at the next one or before it. -/
theorem insertBefore_freeList (hl : FreeList s (pre ++ suf)) (hne : suf.head? = some a) :
    Added unit lo hi (insertBefore A s (linkAfter link none pre) a.1 p b) (pre ++ suf) p b := by
  obtain ⟨rest, rfl⟩ : ∃ rest, suf = a :: rest := by
    cases suf with
    | nil => cases hne
    | cons c rest => exact ⟨rest, by rw [Option.some.inj hne]⟩
  obtain ⟨hcpre, hcsuf, -⟩ := coalesced_append.1 hc
  have hnot := not_mem_addresses hc h0 hpre hsuf
  obtain ⟨⟨ha1, ha2, ha3, ha4, ha5⟩, hrest, hcrest⟩ := coalesced_cons.1 hcsuf
  have hae := hsuf a (by simp)
  obtain ⟨-, hane, hbytes⟩ := read_eq_some hl.suffix.1
  unfold insertBefore
  dsimp only
  rw [hbytes]
  have harea : Coalesced unit lo hi ([] ++ [(p, b)]) :=
    coalesced_cons.2 ⟨⟨hp, hb, h0, hlo, hpb⟩, by simp, .nil⟩
  by_cases htouch : p + b = a.1
  · rw [if_pos htouch, add_of_lt (by omega)]
    obtain ⟨hco, hcov⟩ := harea.join hcsuf htouch
    have hadd := add_freeList (n := { mrNext := (s.node a.1).mrNext, mrBytes := b + a.2 })
      [a] hl hc.nodup_fst hnot hpos (nextArea_of_chain hl)
    obtain ⟨l', h1, h2, h3, h4⟩ := mergePrevious_freeList hadd hcpre hco hpre hhi
    refine ⟨l', h1, h2, ?_, ?_⟩
    · rw [h3]
      change covered ((p, b + a.2) :: rest) = _ at hcov
      have hone : covered ([] ++ [(p, b)]) = Set.Ico p (p + b) := by simp
      rw [hcov, hone, covered_append pre, Set.union_comm (Set.Ico p (p + b)), Set.union_assoc]
    · rw [h4]
      simp
      omega
  · rw [if_neg htouch]
    have hnext : nextArea s { mrNext := a.1, mrBytes := b } = (a :: rest).head? := by
      unfold nextArea
      rw [if_neg hane, hbytes]; rfl
    have hadd := add_freeList [] hl hc.nodup_fst hnot hpos hnext
    have hco : Coalesced unit lo hi ((p, b) :: a :: rest) := by
      refine Coalesced.between harea hcsuf fun c hcm => ?_
      obtain rfl : c = (p, b) := by simpa using hcm
      show p + b < a.1
      omega
    obtain ⟨l', h1, h2, h3, h4⟩ := mergePrevious_freeList hadd hcpre hco hpre hhi
    refine ⟨l', h1, h2, ?_, ?_⟩
    · rw [h3, covered_append, covered_cons (p, b), Set.union_comm (Set.Ico _ _), Set.union_assoc]
    · rw [h4]
      simp
      omega

end Insert

/-- An area at the end. -/
theorem append_freeList (hc : Coalesced unit lo hi pre) (hp : unit ∣ p) (hb : unit ∣ b)
    (h0 : 0 < b) (hpos : p ≠ 0) (hlo : lo ≤ p) (hpb : p + b ≤ hi) (hhi : hi < A.iaddrs)
    (hpre : ∀ a ∈ pre, a.1 + a.2 ≤ p) (hl : FreeList s pre) :
    Added unit lo hi (append A s (linkAfter link none pre) p b) pre p b := by
  have hc' : Coalesced unit lo hi (pre ++ []) := by rwa [append_nil]
  have hl' : FreeList s (pre ++ ([] ++ [])) := by rwa [append_nil, append_nil]
  have harea : Coalesced unit lo hi [(p, b)] :=
    coalesced_cons.2 ⟨⟨hp, hb, h0, hlo, hpb⟩, by simp, .nil⟩
  have hcov : covered (pre ++ [(p, b)]) = covered pre ∪ Set.Ico p (p + b) := by simp
  have hadd := add_freeList (n := { mrNext := 0, mrBytes := b }) [] hl' hc'.nodup_fst
    (not_mem_addresses hc' h0 hpre (by simp)) hpos rfl
  have hapart : (∀ a ∈ pre, a.1 + a.2 < p) →
      Added unit lo hi ((s.setNode p { mrNext := 0, mrBytes := b }).setLink
        (linkAfter link none pre) p) pre p b :=
    fun hlt => ⟨_, hadd, hc.between harea hlt, hcov, by simp⟩
  rcases eq_nil_or_concat pre with rfl | ⟨pre, r, rfl⟩
  · exact hapart (by simp)
  · rw [concat_eq_append] at *
    have hr := hpre r (by simp)
    obtain ⟨-, -, hlast⟩ := coalesced_append.1 hc
    obtain ⟨-, -, hbytes⟩ := read_eq_some hl.suffix.1
    unfold append
    rw [Lib.linkAfter_concat] at hapart ⊢
    change Added unit lo hi (if r.1 + (s.node r.1).mrBytes ≠ p then _ else _) _ _ _
    rw [hbytes]
    by_cases htouch : r.1 + r.2 = p
    · rw [if_neg (not_not.2 htouch), add_of_lt (by omega)]
      obtain ⟨hco, hcov'⟩ := hc.join harea htouch
      refine ⟨_, change_freeList [] []
        (n := { s.node r.1 with mrBytes := r.2 + b }) (by simpa using hl) (by
          simpa using hc.nodup_fst) ?_, hco, ?_, ?_⟩
      · exact nextArea_of_chain (show FreeList s (pre ++ ([r] ++ [])) by simpa using hl)
      · exact hcov'.trans (by simp)
      · simp; omega
    · rw [if_pos htouch]
      refine hapart fun a ha => ?_
      rcases mem_append.1 ha with h | h
      · have := hlast a h r (by simp); omega
      · rw [mem_singleton] at h
        subst h; omega

/-- An area goes to the end of the list, or before the next one. -/
def insertAt (A : Arch) (s : State) (pmn : Option ℕ) (next : Option (ℕ × ℕ)) (p b : ℕ) : State :=
  match next with
  | none => append A s pmn p b
  | some a => insertBefore A s pmn a.1 p b

theorem insertAt_freeList (hc : Coalesced unit lo hi (pre ++ suf)) (hp : unit ∣ p) (hb : unit ∣ b)
    (h0 : 0 < b) (hpos : p ≠ 0) (hlo : lo ≤ p) (hpb : p + b ≤ hi) (hhi : hi < A.iaddrs)
    (hpre : ∀ a ∈ pre, a.1 + a.2 ≤ p) (hsuf : ∀ a ∈ suf, p + b ≤ a.1)
    (hl : FreeList s (pre ++ suf)) :
    Added unit lo hi (insertAt A s (linkAfter link none pre) suf.head? p b) (pre ++ suf) p b := by
  cases hhead : suf.head? with
  | none =>
    obtain rfl := List.head?_eq_none_iff.1 hhead
    rw [append_nil] at hl hc ⊢; exact append_freeList hc hp hb h0 hpos hlo hpb hhi hpre hl
  | some a => exact insertBefore_freeList hc hp hb h0 hpos hlo hpb hhi hpre hsuf hl hhead

/-- The search ends at the first area behind the one that is freed, or at the end of the list. -/
theorem zfreeLoop_spec (h : Chain link (read s) pmn rest) (hc : Coalesced unit lo hi rest)
    (h0 : 0 < b) (hout : ∀ a ∈ rest, a.1 + a.2 ≤ p ∨ p + b ≤ a.1) (rounds : ℕ)
    (hrounds : rest.length < rounds) :
    ∃ pre suf, rest = pre ++ suf ∧ (∀ a ∈ pre, a.1 + a.2 ≤ p) ∧ (∀ a ∈ suf, p + b ≤ a.1) ∧
      zfreeLoop A p b rounds s pmn =
        .ok (insertAt A s (linkAfter link pmn pre) suf.head? p b) := by
  induction rest generalizing pmn rounds with
  | nil =>
    obtain ⟨rounds, rfl⟩ : ∃ r, rounds = r + 1 := ⟨rounds - 1, by omega⟩
    refine ⟨[], [], rfl, by simp, by simp, ?_⟩
    rw [zfreeLoop]
    rw [if_pos (read_eq_none.1 h)]; rfl
  | cons a rest ih =>
    rw [length_cons] at hrounds
    obtain ⟨rounds, rfl⟩ : ∃ r, rounds = r + 1 := ⟨rounds - 1, by omega⟩
    obtain ⟨hd, hne, hbytes⟩ := read_eq_some h.1
    obtain ⟨⟨-, -, ha, -, -⟩, hrest, hcrest⟩ := coalesced_cons.1 hc
    have haout := hout a (by simp)
    rw [zfreeLoop]
    rw [hd, if_neg hne, hbytes]
    by_cases hle : p ≤ a.1
    · rw [if_pos hle, if_neg (by omega)]
      refine ⟨[], a :: rest, rfl, by simp, fun c hcm => ?_, rfl⟩
      rcases mem_cons.1 hcm with rfl | hcm
      · omega
      · have := hrest c hcm; omega
    · rw [if_neg hle, if_neg (by omega)]
      obtain ⟨pre, suf, rfl, h1, h2, h3⟩ := ih h.2 hcrest
        (fun c hcm => hout c (mem_cons_of_mem a hcm)) rounds (by omega)
      exact ⟨a :: pre, suf, rfl, forall_mem_cons.2 ⟨by omega, h1⟩, h2, h3⟩

end FreeBSD.Zalloc
