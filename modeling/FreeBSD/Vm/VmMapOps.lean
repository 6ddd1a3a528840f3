import FreeBSD.Vm.VmMapClip

/-!
# The operations of an address map

`Valid lo top m ids` says that the map `m` is well formed with the entries `ids`, and that its size
is the sum of the sizes of their ranges. Every operation on a valid map ends, and leaves it valid.

Results:
* `submap_spec`: `vm_map_submap`, where the entry that it finds is not behind the range.
-/

namespace FreeBSD.Vm.VmMap

open Lib List Option

variable {m m' : VmMap} {ids ids' xs ys : List ℕ} {e a lo top : ℕ}

/-- A map between two operations. -/
structure Valid (lo top : ℕ) (m : VmMap) (ids : List ℕ) : Prop where
  wf : WF lo top m ids
  size : m.size = total m.entry ids

theorem Valid.of_kept {R : ℕ → Entry → Entry → Prop} (h : Valid lo top m ids)
    (hw : WF lo top m' ids') (hk : Kept R m ids m' ids') : Valid lo top m' ids' :=
  ⟨hw, by rw [hk.size, hk.total, h.size]⟩

/-- What is left of a valid map after an operation: the hint stays right if the operation fits
    it. -/
structure Left (lo top : ℕ) (m : VmMap) (ids : List ℕ) (fits : Prop) (m' : VmMap)
    (ids' : List ℕ) : Prop where
  valid : Valid lo top m' ids'
  settled : Settled m ids → Settled m' ids'
  hint : fits → HintOk m ids → HintOk m' ids'

theorem Valid.left {R : ℕ → Entry → Entry → Prop} {fits : Prop} (h : Valid lo top m ids)
    (hw : WF lo top m' ids') (hk : Kept R m ids m' ids') : Left lo top m ids fits m' ids' :=
  ⟨h.of_kept hw hk, hk.settled, fun _ => hk.hint⟩

theorem Valid.left_refl {fits : Prop} (h : Valid lo top m ids) : Left lo top m ids fits m ids :=
  h.left h.wf (.refl m ids)

/-! ## Loops over ranges -/

/-- How many of the entries start below the address. -/
def below (m : VmMap) (end_ : ℕ) (ids : List ℕ) : ℕ :=
  ids.countP fun e => (m.entry e).start < end_

theorem below_le_length (end_ : ℕ) (ids : List ℕ) : m.below end_ ids ≤ ids.length :=
  countP_le_length

/-- The rule for loops: `Q m xs ys` holds when the loop is at the first of the entries `ys`, with
    `xs` in front of them. The body keeps it, and the entries that it leaves for the loop are no
    more than those behind the one that it is for. -/
theorem whileBelow_spec {Q : VmMap → List ℕ → List ℕ → Prop} (end_ : ℕ)
    {body : VmMap → ℕ → Option (VmMap × ℕ)} (hheader : ∀ m xs ys, Q m xs ys → header ∉ ys)
    (hbody : ∀ m xs e ys, Q m xs (e :: ys) → (m.entry e).start < end_ →
      ∃ m' xs' ys', body m e = some (m', ys'.headD header) ∧ Q m' xs' ys' ∧
        m'.below end_ ys' ≤ m.below end_ ys) :
    ∀ fuel m xs ys, Q m xs ys → m.below end_ ys < fuel →
      ∃ m' xs' ys', whileBelow end_ body fuel m (ys.headD header) = some m' ∧ Q m' xs' ys' ∧
        ∀ e ∈ ys'.head?, end_ ≤ (m'.entry e).start := by
  intro fuel
  induction fuel with
  | zero =>
    intro m xs ys _ hfuel; exact absurd hfuel (Nat.not_lt_zero _)
  | succ fuel ih =>
    intro m xs ys hQ hfuel
    cases ys with
    | nil => exact ⟨m, xs, [], by simp [whileBelow], hQ, by simp⟩
    | cons e ys =>
      have hne : e ≠ header := by rintro rfl; exact hheader m xs _ hQ (by simp)
      by_cases hlt : (m.entry e).start < end_
      · obtain ⟨m', xs', ys', hb, hQ', hle⟩ := hbody m xs e ys hQ hlt
        have hcount : m.below end_ (e :: ys) = m.below end_ ys + 1 := by
          simp [below, hlt]
        obtain ⟨m'', xs'', ys'', hw, hres⟩ := ih m' xs' ys' hQ' (by omega)
        refine ⟨m'', xs'', ys'', ?_, hres⟩
        rw [headD_cons, whileBelow, if_pos ⟨hne, hlt⟩, hb]; exact hw
      · refine ⟨m, xs, e :: ys, by simp [whileBelow, hlt], hQ, ?_⟩
        simpa using hlt

theorem WF.length_lt (h : WF lo top m ids) : ids.length < m.fresh := by
  have hsub : dummy :: header :: ids ⊆ List.range m.fresh := fun e he =>
    mem_range.2 (h.linked.fresh e he)
  have hlen := (h.linked.nodup.subperm hsub).length_le
  simp only [length_cons, length_range] at hlen; omega

theorem WF.below_lt (h : WF lo top m (xs ++ ys)) (end_ : ℕ) : m.below end_ ys < m.fresh := by
  have hlen := h.length_lt
  have hle := m.below_le_length end_ ys
  simp only [length_append] at hlen; omega

theorem below_congr {end_ : ℕ} (h : ∀ c ∈ ys, (m'.entry c).start = (m.entry c).start) :
    m'.below end_ ys = m.below end_ ys := by
  refine countP_congr fun c hc => ?_
  rw [h c hc]

/-- After the entry was clipped at the end of the range, none of the entries that were split off
    is below it. -/
theorem below_clipped {end_ : ℕ} {ys' : List ℕ} (hsame : ∀ c ∈ ys, m'.entry c = m.entry c)
    (h : ys' = ys ∨ ∃ n, ys' = n :: ys ∧ (m'.entry n).start = end_) :
    m'.below end_ ys' = m.below end_ ys := by
  have hys : m'.below end_ ys = m.below end_ ys := below_congr fun c hc => by rw [hsame c hc]
  rcases h with rfl | ⟨n, rfl, hn⟩
  · exact hys
  · rw [← hys]; simp [below, hn]

theorem below_sublist {end_ : ℕ} {l : List ℕ} (h : l.Sublist ids) :
    m.below end_ l ≤ m.below end_ ids :=
  h.countP_le

/-! ## Changing entries -/

/-- An address is in the range of one entry at most. -/
theorem WF.has_unique (h : WF lo top m ids) {c : ℕ} (he : e ∈ ids) (hc : c ∈ ids)
    (hea : Has (m.entry e) a) (hca : Has (m.entry c) a) : c = e := by
  obtain ⟨xs, ys, rfl⟩ := append_of_mem he
  unfold Has at hea hca
  rcases mem_middle.1 hc with rfl | hc
  · rfl
  · rcases mem_append.1 hc with hc | hc
    · have := h.ranges.le_start hc; omega
    · have := h.ranges.end_le hc; omega

/-- A change of entries that leaves their ranges, flags and objects, and that is done but once. -/
structure Change (f : Entry → Entry) : Prop where
  range : ∀ d, (f d).start = d.start ∧ (f d).end_ = d.end_ ∧ (f d).eflags = d.eflags
  keeps : ∀ {a x y}, Keeps a x y → Keeps a (f x) (f y)
  once : ∀ {x z}, attrs x = attrs (f z) → ∀ a, Keeps a (f x) x

/-- The addresses of a range are changed. -/
def changed (f : Entry → Entry) (start end_ : ℕ) (a : ℕ) (x y : Entry) : Prop :=
  Keeps a (if start ≤ a ∧ a < end_ then f x else x) y

/-- What the loops that change entries keep: the addresses of the range in front of `b` are done. -/
structure Changing (f : Entry → Entry) (start end_ lo top : ℕ) (m₀ : VmMap) (ids₀ : List ℕ)
    (b : ℕ) (m : VmMap) (xs ys : List ℕ) : Prop where
  wf : WF lo top m (xs ++ ys)
  cut : CutAt m b xs ys
  le : start ≤ b
  kept : Kept (changed f start (min b end_)) m₀ ids₀ m (xs ++ ys)

variable {m₀ : VmMap} {ids₀ : List ℕ} {f : Entry → Entry} {start end_ b : ℕ}

theorem changeBody_spec (env : ObjectEnv) (hf : Change f)
    (h : Changing f start end_ lo top m₀ ids₀ b m xs (e :: ys)) (hlt : (m.entry e).start < end_) :
    ∃ m' xs' ys', changeBody env end_ f m e = some (m', ys'.headD header) ∧
      (∃ b', Changing f start end_ lo top m₀ ids₀ b' m' xs' ys') ∧
      m'.below end_ ys' ≤ m.below end_ ys := by
  obtain ⟨m₁, ys₁, hclip, hw₁, hk₁, hs₁, he₁, -, hsame, hys⟩ := clipEnd_spec env h.wf hlt
  obtain ⟨hs, he, hflags⟩ := hf.range (m₁.entry e)
  obtain ⟨hw₂, hk₂⟩ := hw₁.setData (R := changed f (m₁.entry e).start (m₁.entry e).end_) hs he
    (by rw [hflags]) (fun a ha => by
      rw [changed, if_pos (show _ ≤ a ∧ a < _ from ha)]
      exact .refl a _) fun c hc a ha => by
      have hout : ¬ ((m₁.entry e).start ≤ a ∧ a < (m₁.entry e).end_) := fun hea =>
        hw₁.ne_of_mem c hc (hw₁.has_unique (by simp) (mem_middle.2 (.inr hc)) hea ha)
      rw [changed, if_neg hout]; exact .refl a _
  obtain ⟨m₃, xs', ys', hsimp, hg⟩ := simplifyEntry_spec hw₂
  have hcut := hg.wf.cutAt_end
  have hend : (m₁.entry e).end_ ≤ (m₃.entry e).end_ := by
    have := hg.le_end
    rwa [setEntry_entry_self, he] at this
  have hstart : (m₃.entry e).start ≤ (m₁.entry e).start := by
    have := hg.start_le
    rwa [setEntry_entry_self, hs] at this
  have hbe : b ≤ (m₁.entry e).start := hs₁ ▸ h.cut.2 e (by simp)
  have hlt₁ := (hw₁.ranges.bounds e (by simp)).lt
  refine ⟨m₃, xs' ++ [e], ys', ?_, ⟨(m₃.entry e).end_, ?_, hcut, by have := h.le; omega, ?_⟩, ?_⟩
  · rw [← hg.wf.next_eq]; simp [changeBody, hclip, hsimp]
  · simpa using hg.wf
  · have hall := ((h.kept.trans hk₁).trans hk₂).trans hg.kept
    rw [append_assoc, singleton_append]
    refine ⟨hall.size, hall.total, hall.header, fun a => ⟨fun c hc ha => ?_, (hall.tracks a).2⟩,
      hall.hint, hall.settled⟩
    obtain ⟨c₀, hc₀, ha₀, h₀⟩ := (h.kept.tracks a).1 c hc ha
    obtain ⟨c₁, hc₁, ha₁, h₁⟩ := (hk₁.tracks a).1 c₀ hc₀ ha₀
    obtain ⟨c₂, hc₂, ha₂, h₂⟩ := (hk₂.tracks a).1 c₁ hc₁ ha₁
    obtain ⟨c₃, hc₃, ha₃, h₃⟩ := (hg.kept.tracks a).1 c₂ hc₂ ha₂
    refine ⟨c₃, hc₃, ha₃, ?_⟩
    unfold changed at h₀ h₂ ⊢
    by_cases hin : (m₁.entry e).start ≤ a ∧ a < (m₁.entry e).end_
    · -- the address is in the entry that is changed
      rw [if_neg (by omega)] at h₀
      rw [if_pos hin] at h₂
      rw [if_pos (by have := h.le; omega)]
      exact ((hf.keeps (h₀.trans h₁)).trans h₂).trans h₃
    · rw [if_neg hin] at h₂
      have hlast := (h₁.trans h₂).trans h₃
      by_cases hlow : a < b
      · have hiff : (start ≤ a ∧ a < min (m₃.entry e).end_ end_) ↔ start ≤ a ∧ a < min b end_ := by
          omega
        simp only [hiff]; exact h₀.trans hlast
      · rw [if_neg (by omega)] at h₀
        have hx := h₀.trans hlast
        by_cases hmerged : start ≤ a ∧ a < min (m₃.entry e).end_ end_
        · -- an entry behind it was merged, which says what the change says
          rw [if_pos hmerged]
          have hea : (m₁.entry e).start ≤ a := by
            rw [hs₁]
            rcases mem_append.1 hc₀ with hmem | hmem
            · have := h.cut.1 c₀ hmem
              unfold Has at ha₀; omega
            · rcases mem_cons.1 hmem with rfl | hmem
              · exact ha₀.1
              · have := h.wf.ranges.end_le hmem
                have := (h.wf.ranges.bounds e (by simp)).lt
                have := ha₀.1; omega
          obtain rfl := hg.wf.has_unique (show e ∈ _ by simp) hc₃ ⟨hstart.trans hea, by omega⟩ ha₃
          have hattrs := hg.attrs
          rw [setEntry_entry_self] at hattrs
          exact (hf.once (hx.attrs.symm.trans hattrs) a).trans hx
        · rw [if_neg hmerged]; exact hx
  · have hne := hg.wf.ne_of_mem
    have hclipped := below_clipped (fun c hc => hsame c (mem_append_right _ hc)) hys
    have hsub : m₁.below end_ ys' ≤ m₁.below end_ ys₁ := below_sublist hg.right
    have hcongr : m₃.below end_ ys' = m₁.below end_ ys' := by
      refine below_congr fun c hc => ?_
      have hce := hne c (mem_append_right _ hc)
      rw [hg.others c hce, setEntry_entry_of_ne _ _ hce]
    omega

/-- The loops change the addresses of the range, and no others. -/
theorem changeLoop_spec (env : ObjectEnv) (hf : Change f) (end_ : ℕ) (h : WF lo top m (xs ++ ys))
    (hcut : CutAt m start xs ys) (hk : Kept Keeps m₀ ids₀ m (xs ++ ys)) :
    ∃ m' ids', whileBelow end_ (changeBody env end_ f) m.fresh m (ys.headD header) = some m' ∧
      WF lo top m' ids' ∧ Kept (changed f start end_) m₀ ids₀ m' ids' := by
  obtain ⟨m', xs', ys', hw, ⟨b, hc⟩, hhead⟩ := whileBelow_spec
    (Q := fun m xs ys => ∃ b, Changing f start end_ lo top m₀ ids₀ b m xs ys) end_
    (fun m xs ys ⟨_, hc⟩ hmem => hc.wf.header_notMem (mem_append_right _ hmem))
    (fun m xs e ys ⟨_, hc⟩ hlt => changeBody_spec env hf hc hlt) m.fresh m xs ys
    ⟨start, h, hcut, le_rfl, hk.mono fun a x y hxy => by
      rw [changed, if_neg (by omega)]
      exact hxy⟩ (h.below_lt end_)
  refine ⟨m', xs' ++ ys', hw, hc.wf, hc.kept.size, hc.kept.total, hc.kept.header, fun a =>
    ⟨fun c hmem ha => ?_, (hc.kept.tracks a).2⟩, hc.kept.hint, hc.kept.settled⟩
  obtain ⟨e, he, hea, hk⟩ := (hc.kept.tracks a).1 c hmem ha
  refine ⟨e, he, hea, ?_⟩
  have hiff : (start ≤ a ∧ a < end_) ↔ start ≤ a ∧ a < min b end_ := by
    refine and_congr_right fun _ => ⟨fun hlt => ?_, fun hlt => by omega⟩
    have hb : a < b := by
      rcases mem_append.1 he with he | he
      · exact hea.2.trans_le (hc.cut.1 e he)
      · have := hc.wf.head_le hhead e he
        have := hea.1; omega
    omega
  unfold changed at hk ⊢; simpa only [hiff] using hk

/-- The first pass of `vm_map_protect` ends, and looks at all entries of the range. -/
theorem protectCheck_spec (newProt : VmProt) (end_ : ℕ) :
    ∀ fuel xs ys, WF lo top m (xs ++ ys) → ys.length < fuel →
      ∃ r, m.protectCheck end_ newProt fuel (ys.headD header) = some r ∧
        r ≠ some .success ∧ (r = none → ∀ e ∈ ys, (m.entry e).start < end_ →
          newProt &&& (m.entry e).maxProtection = newProt) := by
  intro fuel
  induction fuel with
  | zero =>
    intro xs ys _ hlen; exact absurd hlen (Nat.not_lt_zero _)
  | succ fuel ih =>
    intro xs ys h hlen
    cases ys with
    | nil => exact ⟨none, by simp [protectCheck], by simp, by simp⟩
    | cons e ys =>
      have hcut : xs ++ e :: ys = xs ++ [e] ++ ys := by simp
      obtain ⟨r, hr, hne, hall⟩ := ih (xs ++ [e]) ys (hcut ▸ h) (by simpa using hlen)
      rw [← h.next_eq] at hr
      rw [headD_cons]
      unfold protectCheck
      by_cases hin : e ≠ header ∧ (m.entry e).start < end_
      · rw [if_pos hin]
        by_cases hsub : (m.entry e).eflags.isSubMap = true
        · exact ⟨_, if_pos hsub, by simp, by simp⟩
        · rw [if_neg hsub]
          by_cases hprot : newProt &&& (m.entry e).maxProtection ≠ newProt
          · exact ⟨_, if_pos hprot, by simp, by simp⟩
          · rw [if_neg hprot]
            refine ⟨r, hr, hne, fun hnone c hc hlt => ?_⟩
            rcases mem_cons.1 hc with rfl | hc
            · exact not_not.1 hprot
            · exact hall hnone c hc hlt
      · refine ⟨_, if_neg hin, by simp, fun _ c hc hlt => absurd hlt (not_lt.2 ?_)⟩
        exact h.head_le (by simpa [h.ne_header (show e ∈ xs ++ e :: ys by simp)] using hin) c hc

theorem protectEntry_change (newProt : VmProt) (setMax : Bool) :
    Change (protectEntry newProt setMax) := by
  have hmask : ∀ p : VmProt, newProt &&& (newProt &&& p) = newProt &&& p := fun p => by
    rw [← BitVec.and_assoc, BitVec.and_self]
  constructor
  · intro d
    unfold protectEntry
    split_ifs <;> exact ⟨rfl, rfl, rfl⟩
  · rintro a x y ⟨hattrs, hobject⟩
    simp only [attrs, Prod.mk.injEq] at hattrs
    obtain ⟨hp, hm, hi, he, hw⟩ := hattrs
    unfold protectEntry
    split_ifs
    · exact ⟨by simp only [attrs, hp, hi, he, hw], hobject⟩
    · exact ⟨by simp only [attrs, hm, hi, he, hw], hobject⟩
  · intro x z h a
    unfold protectEntry at h ⊢
    split_ifs at h ⊢
    · simp only [attrs, Prod.mk.injEq] at h
      obtain ⟨hp, hm, -⟩ := h
      refine ⟨?_, fun o ho => ⟨ho, rfl⟩⟩
      simp only [attrs, hp, hm, hmask]
    · simp only [attrs, Prod.mk.injEq] at h
      refine ⟨?_, fun o ho => ⟨ho, rfl⟩⟩
      simp only [attrs, h.1]

/-- `vm_map_protect` changes the addresses of the range, or none. -/
theorem protect_spec (env : ObjectEnv) (h : Valid lo top m ids) (start end_ : ℕ)
    (newProt : VmProt) (setMax : Bool) :
    ∃ m' r ids', m.protect env start end_ newProt setMax = some (m', r) ∧
      Left lo top m ids True m' ids' ∧
      (r = .success ∧ Kept (changed (protectEntry newProt setMax) (m.rangeCheck start end_).1
        (m.rangeCheck start end_).2) m ids m' ids' ∧ (∀ e ∈ ids, ∀ a,
          (m.rangeCheck start end_).1 ≤ a → a < (m.rangeCheck start end_).2 → Has (m.entry e) a →
          newProt &&& (m.entry e).maxProtection = newProt) ∨
        r ≠ .success ∧ Kept Keeps m ids m' ids') := by
  unfold protect
  generalize m.rangeCheck start end_ = range
  obtain ⟨start, end_⟩ := range
  obtain ⟨m₁, xs, ys, hfirst, hw, hk, hcut, -⟩ := firstEntry_spec env h.wf start
  obtain ⟨r, hr, hne, hall⟩ := protectCheck_spec newProt end_ m₁.fresh xs ys hw (by
    have hlen := hw.length_lt
    simp only [length_append] at hlen
    omega)
  cases r with
  | some r =>
    refine ⟨m₁, r, xs ++ ys, ?_, h.left hw hk, .inr ⟨fun heq => hne (heq ▸ rfl), hk⟩⟩
    simp only [hfirst, hr, bind_eq_bind, bind_some]
  | none =>
    obtain ⟨m₂, ids', hw₂, hwf, hk₂⟩ := changeLoop_spec env (protectEntry_change newProt setMax)
      end_ hw hcut hk
    refine ⟨m₂, .success, ids', ?_, h.left hwf hk₂, .inl ⟨rfl, hk₂, fun e he a hs ht ha => ?_⟩⟩
    · simp only [hfirst, hr, hw₂, bind_eq_bind, bind_some]
    · obtain ⟨c, hc, hca, hkeeps⟩ := (hk.tracks a).1 e he ha
      have hys : c ∈ ys := (mem_append.1 hc).resolve_left fun hc =>
        absurd (hca.2.trans_le (hcut.1 c hc)) (not_lt.2 hs)
      have hmax : (m₁.entry c).maxProtection = (m.entry e).maxProtection :=
        congrArg (fun t => t.2.1) hkeeps.attrs
      rw [← hmax]; exact hall rfl c hys (hca.1.trans_lt ht)

theorem inherit_spec (env : ObjectEnv) (h : Valid lo top m ids) (start end_ : ℕ)
    (newInheritance : VmInherit) :
    ∃ m' r ids', m.inherit env start end_ newInheritance = some (m', r) ∧
      Left lo top m ids True m' ids' := by
  unfold inherit
  by_cases hin : newInheritance ∈ [vmInheritNone, vmInheritCopy, vmInheritShare]
  · rw [if_pos hin]
    generalize m.rangeCheck start end_ = range
    obtain ⟨start, end_⟩ := range
    obtain ⟨m₁, xs, ys, hfirst, hw, hk, hcut, -⟩ := firstEntry_spec env h.wf start
    have hchange : Change fun e => { e with inheritance := newInheritance } := by
      refine ⟨fun d => ⟨rfl, rfl, rfl⟩, fun {a x y} ⟨hattrs, hobject⟩ => ⟨?_, hobject⟩,
        fun {x z} hattrs a => ⟨?_, fun o ho => ⟨ho, rfl⟩⟩⟩
      · simp only [attrs, Prod.mk.injEq] at hattrs ⊢; tauto
      · simp only [attrs, Prod.mk.injEq] at hattrs ⊢; tauto
    obtain ⟨m₂, ids', hw₂, hwf, hk₂⟩ := changeLoop_spec env hchange end_ hw hcut hk
    refine ⟨m₂, .success, ids', ?_, h.left hwf hk₂⟩
    simp only [hfirst, hw₂, bind_eq_bind, bind_some]
  · exact ⟨m, .invalidArgument, ids, if_neg hin, h.left_refl⟩

/-! ## Deletion -/

theorem entryDelete_spec (h : Valid lo top m (xs ++ e :: ys)) :
    ∃ m', m.entryDelete e = some m' ∧ Valid lo top m' (xs ++ ys) ∧ m'.entry = m.entry ∧
      m'.firstFree = m.firstFree := by
  obtain ⟨k, r, nx, pv, n, hu, hl⟩ := entryUnlink_spec h.wf.linked h.wf.ranges
  have hsub : (xs ++ ys).Sublist (xs ++ e :: ys) :=
    List.Sublist.append_left (sublist_cons_self e ys) xs
  have hw := h.wf.relink hl (h.wf.ranges.sublist hsub)
  have hdel : m.entryDelete e = some { m with
      links := k, root := r, next := nx, prev := pv, nentries := n
      size := m.size - ((m.entry e).end_ - (m.entry e).start) } := by
    unfold entryDelete
    rw [hu]; rfl
  refine ⟨_, hdel, ⟨⟨hl.congr ⟨rfl, rfl⟩ ⟨rfl, rfl⟩ rfl le_rfl, hw.ranges, hw.lo_eq, hw.top_eq⟩,
    ?_⟩, rfl, rfl⟩
  have hsize := h.size
  simp only [total_append, total_cons] at hsize ⊢; omega

/-- A hint that is right for the entries of a list whose fields stay. -/
theorem HintOk.congr (h : HintOk m xs) (hfree : m'.firstFree = m.firstFree)
    (hheader : m'.entry header = m.entry header) (hsame : ∀ c ∈ xs, m'.entry c = m.entry c) :
    HintOk m' xs := by
  unfold HintOk minOffset at h ⊢
  rw [hfree, hheader]
  refine h.imp_right fun ⟨hmem, hall⟩ => ⟨hmem, fun a hlo ha => ?_⟩
  rw [hsame _ hmem] at ha
  obtain ⟨c, hc, hca⟩ := hall a hlo ha
  exact ⟨c, hc, by rwa [hsame c hc]⟩

/-- What the loop of `vm_map_delete` keeps: the entries in front of it end in front of the range,
    and the hint is one of them. -/
structure Deleting (lo top start : ℕ) (m : VmMap) (xs ys : List ℕ) : Prop where
  valid : Valid lo top m (xs ++ ys)
  settled : Settled m (xs ++ ys)
  le_start : ∀ b ∈ xs, (m.entry b).end_ ≤ start

theorem deleteBody_spec (env : ObjectEnv) {start end_ : ℕ}
    (h : Deleting lo top start m xs (e :: ys)) (hlt : (m.entry e).start < end_) :
    ∃ m' xs' ys', deleteBody env end_ m e = some (m', ys'.headD header) ∧
      (Deleting lo top start m' xs' ys' ∧ (HintOk m xs → HintOk m' xs')) ∧
      m'.below end_ ys' ≤ m.below end_ ys := by
  obtain ⟨h, hsettled, hxs⟩ := h
  obtain ⟨m₁, ys', hclip, hw₁, hk₁, -, -, hf₁, hsame, hys⟩ := clipEnd_spec env h.wf hlt
  have hv₁ := h.of_kept hw₁ hk₁
  have hwire : ∃ m₂, (if (m₁.entry e).wiredCount ≠ 0 then
      m₁.setEntry e fun e => { e with wiredCount := 0 } else m₁) = m₂ ∧
      Valid lo top m₂ (xs ++ e :: ys') ∧ Settled m₂ (xs ++ e :: ys') ∧
      m₂.firstFree = m₁.firstFree ∧ m₂.entry header = m₁.entry header ∧
      ∀ c ∈ xs ++ ys', m₂.entry c = m₁.entry c := by
    refine ⟨_, rfl, ?_⟩
    split_ifs
    · obtain ⟨hw₂, hk₂⟩ := hw₁.setData (R := fun _ _ _ => True)
        (f := fun e => { e with wiredCount := 0 }) rfl rfl rfl (fun _ _ => trivial)
        fun _ _ _ _ => trivial
      exact ⟨hv₁.of_kept hw₂ hk₂, hk₂.settled (hk₁.settled hsettled), rfl, hk₂.header,
        fun c hc => setEntry_entry_of_ne _ _ (hw₁.ne_of_mem c hc)⟩
    · exact ⟨hv₁, hk₁.settled hsettled, rfl, rfl, fun _ _ => rfl⟩
  obtain ⟨m₂, hm₂, hv₂, hsettled₂, hf₂, hheader₂, hsame₂⟩ := hwire
  obtain ⟨m₃, hdel, hv₃, hentry, hf₃⟩ := entryDelete_spec hv₂
  have hxs₃ : ∀ b ∈ xs, m₃.entry b = m.entry b := fun b hb => by
    rw [hentry, hsame₂ b (mem_append_left _ hb), hsame b (mem_append_left _ hb)]
  refine ⟨m₃, xs, ys', ?_, ⟨⟨hv₃, fun c hc => ?_, fun b hb => ?_⟩, fun hhint =>
    hhint.congr (hf₃.trans (hf₂.trans hf₁)) ?_ hxs₃⟩, ?_⟩
  · rw [← hw₁.next_eq]
    unfold deleteBody
    rw [if_neg (by simp [hsettled e (by simp)]), hclip]
    simp only [bind_eq_bind, bind_some, hm₂, hdel]
  · rw [hentry]; exact hsettled₂ c (mem_middle.2 (.inr hc))
  · rw [hxs₃ b hb]; exact hxs b hb
  · rw [hentry, hheader₂, hk₁.header]
  · have hclipped := below_clipped (fun c hc => hsame c (mem_append_right _ hc)) hys
    have hcongr : m₃.below end_ ys' = m₁.below end_ ys' := by
      refine below_congr fun c hc => ?_
      rw [hentry, hsame₂ c (mem_append_right _ hc)]
    omega

/-- The hint that `vm_map_delete` sets, lines 2113–2124. -/
def deleteHint (m : VmMap) (start entry : ℕ) : ℕ :=
  if entry = header then header
  else if start ≤ (m.entry m.firstFree).start then m.prev entry
  else m.firstFree

theorem deleteHint_spec (h : WF lo top m (xs ++ ys)) {start : ℕ} (hcut : CutAt m start xs ys)
    (hint : HintOk m (xs ++ ys)) :
    HintOk { m with firstFree := m.deleteHint start (ys.headD header) } xs := by
  have hfront : ∀ a, a < start → ∀ c ∈ xs ++ ys, Has (m.entry c) a → c ∈ xs := by
    intro a ha c hc hca
    refine (mem_append.1 hc).resolve_right fun hc => ?_
    have := hcut.2 c hc
    have := hca.1; omega
  show m.deleteHint start _ = header ∨ _
  unfold deleteHint
  cases ys with
  | nil => exact .inl (if_pos rfl)
  | cons e ys =>
    rw [headD_cons, if_neg (h.ne_header (by simp))]
    by_cases hle : start ≤ (m.entry m.firstFree).start
    · rw [if_pos hle, h.prev_eq]
      by_cases hlast : xs.getLastD header = header
      · exact .inl hlast
      obtain ⟨xs, p, rfl, hp⟩ := exists_getLastD hlast
      right
      rw [hp]
      refine ⟨by simp, fun a hlo ha => ?_⟩
      have hpa : a < start := lt_of_lt_of_le ha (hcut.1 p (by simp))
      rcases hint with hzero | ⟨hmem, hall⟩
      · rw [hzero] at hle
        have : m.minOffset ≤ a := hlo
        rw [minOffset] at this; omega
      · have := (h.ranges.bounds _ hmem).lt
        obtain ⟨c, hc, hca⟩ := hall a hlo (by omega)
        exact ⟨c, hfront a hpa c hc hca, hca⟩
    · rw [if_neg hle]
      refine hint.imp_right fun hk => ?_
      obtain ⟨hmem, hall⟩ := hk
      have hin : m.firstFree ∈ xs :=
        (mem_append.1 hmem).resolve_right fun hin => hle (hcut.2 _ hin)
      refine ⟨hin, fun a hlo ha => ?_⟩
      have hlt : a < start := lt_of_lt_of_le ha (hcut.1 _ hin)
      obtain ⟨c, hc, hca⟩ := hall a hlo ha
      exact ⟨c, hfront a hlt c hc hca, hca⟩

/-- No range that is left meets the addresses from `start` to `end_`. -/
theorem delete_spec (env : ObjectEnv) (h : Valid lo top m ids) (hs : Settled m ids)
    (start end_ : ℕ) :
    ∃ m' r ids', m.delete env start end_ = some (m', r) ∧ Left lo top m ids True m' ids' ∧
      ∀ e ∈ ids', (m'.entry e).end_ ≤ start ∨ end_ ≤ (m'.entry e).start := by
  obtain ⟨m₁, xs, ys, hfirst, hw, hk, hcut, -⟩ := firstEntry_spec env h.wf start
  have hv := h.of_kept hw hk
  obtain ⟨l, hl⟩ : ∃ l, l = xs ++ ys := ⟨_, rfl⟩
  have hfree : (if ys.headD header = header then { m₁ with firstFree := header }
      else if start ≤ (m₁.entry m₁.firstFree).start then
        { m₁ with firstFree := m₁.prev (ys.headD header) }
      else m₁) = { m₁ with firstFree := m₁.deleteHint start (ys.headD header) } := by
    unfold deleteHint
    split_ifs <;> rfl
  have hv' : Valid lo top { m₁ with firstFree := m₁.deleteHint start (ys.headD header) }
      (xs ++ ys) := ⟨hw.setFirstFree _, hv.size⟩
  obtain ⟨m', xs', ys', hloop, ⟨hd, hhint⟩, hhead⟩ := whileBelow_spec
    (Q := fun m xs ys => Deleting lo top start m xs ys ∧ (HintOk m₁ l → HintOk m xs)) end_
    (fun m xs ys hq hmem => hq.1.valid.wf.header_notMem (mem_append_right _ hmem))
    (fun m xs e ys hq hlt => by
      obtain ⟨m', xs', ys', hbody, ⟨hd, hhint⟩, hle⟩ := deleteBody_spec env hq.1 hlt
      exact ⟨m', xs', ys', hbody, ⟨hd, hhint ∘ hq.2⟩, hle⟩) m₁.fresh _ xs ys
    ⟨⟨hv', hk.settled hs, hcut.1⟩, hl ▸ deleteHint_spec hw hcut⟩ (hv'.wf.below_lt end_)
  refine ⟨m', .success, xs' ++ ys', ?_, ⟨hd.valid, fun _ => hd.settled, fun _ hint => ?_⟩,
    fun e he => ?_⟩
  · unfold delete; simp only [hfirst, bind_eq_bind, bind_some, hfree, hloop]
  · refine (hhint (hl ▸ hk.hint hint)).imp_right fun ⟨hmem, hall⟩ =>
      ⟨mem_append_left _ hmem, fun a hlo ha => ?_⟩
    obtain ⟨c, hc, hca⟩ := hall a hlo ha
    exact ⟨c, mem_append_left _ hc, hca⟩
  · exact (mem_append.1 he).imp (hd.le_start e) (hd.valid.wf.head_le hhead e)

/-! ## Insertion -/

/-- If the hint is the header and the range lies in the map in front of all entries, then it begins
    where the map does. -/
def HintFits (m : VmMap) (ids : List ℕ) (start end_ : ℕ) : Prop :=
  m.firstFree = header → start < end_ → end_ ≤ m.maxOffset →
    (∀ b ∈ ids, end_ ≤ (m.entry b).start) → start ≤ m.minOffset

/-- The hint that `vm_map_insert` sets, lines 857–863. -/
theorem HintOk.insertNew {n prev : ℕ} (h : HintOk m (xs ++ ys)) (hheader : header ∉ xs ++ ys)
    (hprev : prev = xs.getLastD header) (hfits : xs = [] → m.firstFree = header →
      (m'.entry n).start ≤ m.minOffset) (hsame : ∀ c ∈ header :: (xs ++ ys),
      m'.entry c = m.entry c) (hfree : m'.firstFree = m.firstFree ∨ m'.firstFree = n ∧
      m.firstFree = prev ∧ (m'.entry n).start ≤ (m.entry prev).end_) :
    HintOk m' (xs ++ n :: ys) := by
  have hmin : m'.minOffset = m.minOffset := by rw [minOffset, hsame header (by simp), minOffset]
  have hall : ∀ a, (∃ c ∈ xs ++ ys, Has (m.entry c) a) →
      ∃ c ∈ xs ++ n :: ys, Has (m'.entry c) a := by
    rintro a ⟨c, hc, hca⟩
    exact ⟨c, mem_middle.2 (.inr hc), by rwa [hsame c (mem_cons_of_mem _ hc)]⟩
  rcases hfree with hfree | ⟨hfree, hold, hle⟩
  · unfold HintOk
    rw [hfree, hmin]
    refine h.imp_right fun hk => ⟨mem_middle.2 (.inr hk.1), fun a hlo ha => ?_⟩
    rw [hsame _ (mem_cons_of_mem _ hk.1)] at ha; exact hall a (hk.2 a hlo ha)
  · right
    rw [hfree, hmin]
    refine ⟨by simp, fun a hlo ha => ?_⟩
    by_cases hin : (m'.entry n).start ≤ a
    · exact ⟨n, by simp, hin, ha⟩
    rcases h with hzero | ⟨hmem, hcov⟩
    · -- the header is the last entry in front, so there is none
      have hnil : xs = [] := by
        rcases eq_nil_or_concat' xs with hnil | ⟨init, p, rfl⟩
        · exact hnil
        · rw [getLastD_concat, ← hold, hzero] at hprev
          exact absurd (by simp [← hprev]) hheader
      have := hfits hnil hzero; omega
    · rw [hold] at hcov; exact hall a (hcov a hlo (by omega))

theorem insertNew_spec (h : Valid lo top m (xs ++ ys)) {d : Entry} (hb : InBounds lo top d)
    (hxs : ∀ b ∈ xs, (m.entry b).end_ ≤ d.start) (hys : ∀ b ∈ ys, d.end_ ≤ (m.entry b).start) :
    ∃ m', m.insertNew (xs.getLastD header) d = some m' ∧ Valid lo top m' (xs ++ m.fresh :: ys) ∧
      (d.eflags.inTransition = false → Settled m (xs ++ ys) → Settled m' (xs ++ m.fresh :: ys)) ∧
      ((xs = [] → m.firstFree = header → d.start ≤ m.minOffset) → HintOk m (xs ++ ys) →
        HintOk m' (xs ++ m.fresh :: ys)) := by
  have hnot := h.wf.fresh_notMem
  have hsame : ∀ c ∈ xs ++ ys, (m.entryCreate d).entry c = m.entry c := by
    intro c hc
    refine entryCreate_entry_of_ne m d ?_
    rintro rfl
    exact hnot (mem_cons_of_mem _ (mem_cons_of_mem _ hc))
  obtain ⟨k, r, nx, pv, n, hlink, hw⟩ := (h.wf.entryCreate d).entryLink hnot (Nat.lt_succ_self _)
    (by rwa [entryCreate_entry_fresh]) (fun c hc => by
      rw [entryCreate_entry_fresh, hsame c (mem_append_left _ hc)]
      exact hxs c hc) fun c hc => by
      rw [entryCreate_entry_fresh, hsame c (mem_append_right _ hc)]; exact hys c hc
  have hheader : (m.entryCreate d).entry header = m.entry header :=
    m.entryCreate_entry_of_ne d fun heq => hnot (by simp [← heq])
  have hlast : (m.entryCreate d).entry (xs.getLastD header) = m.entry (xs.getLastD header) := by
    rcases mem_cons.1 (getLastD_mem_cons (l := xs) (a := header)) with heq | hmem
    · rw [heq, hheader]
    · exact hsame _ (mem_append_left _ hmem)
  have hfree : ∃ f, m.insertNew (xs.getLastD header) d = some { m.entryCreate d with
      links := k, root := r, next := nx, prev := pv, nentries := n
      size := m.size + (d.end_ - d.start), firstFree := f } ∧ (f = m.firstFree ∨ f = m.fresh ∧
      m.firstFree = xs.getLastD header ∧ d.start ≤ (m.entry (xs.getLastD header)).end_) := by
    simp only [insertNew, hlink, bind_eq_bind, bind_some]
    split_ifs with hhint
    · obtain ⟨hold, hle⟩ := hhint
      rw [hlast, entryCreate_entry_fresh] at hle; exact ⟨_, rfl, .inr ⟨rfl, hold, hle⟩⟩
    · exact ⟨m.firstFree, rfl, .inl rfl⟩
  obtain ⟨f, hf, hhint⟩ := hfree
  refine ⟨_, hf, ⟨⟨hw.linked.congr ⟨rfl, rfl⟩ ⟨rfl, rfl⟩ rfl le_rfl, hw.ranges, hw.lo_eq,
    hw.top_eq⟩, ?_⟩, fun hd hset c hc => ?_, fun hfits hok => ?_⟩
  · obtain ⟨htx, hty⟩ := total_same hsame
    show m.size + _ = total (m.entryCreate d).entry _
    rw [total_append, total_cons, htx, hty, entryCreate_entry_fresh, h.size, total_append]; omega
  · show ((m.entryCreate d).entry c).eflags.inTransition = false
    rcases mem_middle.1 hc with rfl | hc
    · rw [entryCreate_entry_fresh, hd]
    · rw [hsame c hc]; exact hset c hc
  · refine hok.insertNew h.wf.header_notMem rfl ?_ (fun c hc => ?_) ?_
    · show xs = [] → m.firstFree = header → ((m.entryCreate d).entry m.fresh).start ≤ _
      rwa [entryCreate_entry_fresh]
    · rcases mem_cons.1 hc with rfl | hc
      · exact hheader
      · exact hsame c hc
    · show f = m.firstFree ∨ f = m.fresh ∧ _ ∧ ((m.entryCreate d).entry m.fresh).start ≤ _
      rwa [entryCreate_entry_fresh]

/-- The entry `p` ends at the start of a range, and is extended over it. -/
theorem extend_spec {p start end_ : ℕ} {fits : Prop} (h : Valid lo top m (xs ++ p :: ys))
    (hp : (m.entry p).end_ = start) (hlt : start < end_) (hle : end_ ≤ top)
    (hys : ∀ b ∈ ys, end_ ≤ (m.entry b).start) :
    ∃ m' ids', (({ m with size := m.size + (end_ - start) } : VmMap).setEntry p
        fun p => { p with end_ := end_ }).simplifyEntry p = some m' ∧
      Left lo top m (xs ++ p :: ys) fits m' ids' := by
  have hb := h.wf.ranges.bounds p (by simp)
  have hlt' : (m.entry p).start < end_ := by have := hb.lt; omega
  have hw₁ : WF lo top { m with size := m.size + (end_ - start) } (xs ++ p :: ys) :=
    ⟨h.wf.linked.congr ⟨rfl, rfl⟩ ⟨rfl, rfl⟩ rfl le_rfl, h.wf.ranges, h.wf.lo_eq, h.wf.top_eq⟩
  have hw₂ := hw₁.setEntry (f := fun p => { p with end_ := end_ }) ⟨hb.lo_le, hlt', hle⟩
    (fun b hb => h.wf.ranges.le_start hb) hys
  have htotal := hw₁.total_setEntry fun p => { p with end_ := end_ }
  have hfield : ∀ c, ((({ m with size := m.size + (end_ - start) } : VmMap).setEntry p
      fun p => { p with end_ := end_ }).entry c) =
      { m.entry c with end_ := if c = p then end_ else (m.entry c).end_ } := by
    intro c
    by_cases heq : c = p
    · subst heq
      rw [setEntry_entry_self, if_pos rfl]
    · rw [setEntry_entry_of_ne _ _ heq, if_neg heq]
  have hfree : (({ m with size := m.size + (end_ - start) } : VmMap).setEntry p
      fun p => { p with end_ := end_ }).firstFree = m.firstFree := rfl
  have hsize : (({ m with size := m.size + (end_ - start) } : VmMap).setEntry p
      fun p => { p with end_ := end_ }).size = m.size + (end_ - start) := rfl
  generalize ({ m with size := m.size + (end_ - start) } : VmMap).setEntry p
    (fun p => { p with end_ := end_ }) = m₂ at *
  obtain ⟨m', xs', ys', hs, hg⟩ := simplifyEntry_spec hw₂
  refine ⟨m', _, hs, ⟨hg.wf, ?_⟩, fun hset => hg.kept.settled fun c hc => ?_,
    fun _ hok => hg.kept.hint (hok.keep (fun a c hc ha => ⟨c, hc, ?_⟩) ?_ hfree.trans
      fun hin => ⟨hfree ▸ hin, ?_⟩)⟩
  · rw [hg.kept.size, hg.kept.total, htotal, hsize, h.size]
    have := hb.lt
    simp only [total_append, total_cons]; omega
  · rw [hfield]; exact hset c hc
  · have := hb.lt
    unfold Has at ha ⊢
    rw [hfield]
    by_cases heq : c = p
    · subst heq
      simp only [if_true]; omega
    · rwa [if_neg heq]
  · rw [hfield, if_neg (h.wf.ne_header (by simp)).symm]
  · rw [hfree, hfield]; exact (h.wf.ranges.bounds _ hin).lt.le

theorem insert_spec (env : ObjectEnv) (h : Valid lo top m ids) (object : Option ℕ) (offset : ℤ)
    (start end_ : ℕ) (prot max : VmProt) (cow : CowFlags) :
    ∃ m' r ids', m.insert env object offset start end_ prot max cow = some (m', r) ∧
      Left lo top m ids (m.HintFits ids start end_) m' ids' := by
  unfold insert
  by_cases hbad : start < m.minOffset ∨ m.maxOffset < end_ ∨ end_ ≤ start
  · exact ⟨m, .invalidAddress, ids, if_pos hbad, h.left_refl⟩
  rw [if_neg hbad]
  simp only [not_or, not_lt, not_le] at hbad
  obtain ⟨hmin, hmax, hlt⟩ := hbad
  obtain ⟨k, r, found, p, hlook, hl, xs, ys, hxs, hys, hres⟩ :=
    lookupEntry_spec h.wf.linked h.wf.ranges start
  have hk : Kept Keeps m ids { m with links := k, root := r } ids := .looked m k r
  have hleft : ∀ fits, Left lo top m ids fits { m with links := k, root := r } ids := fun _ =>
    h.left (h.wf.relink hl h.wf.ranges) hk
  rw [hlook, bind_eq_bind, bind_some]
  generalize hm₁ : ({ m with links := k, root := r } : VmMap) = m₁ at *
  have hentry : m₁.entry = m.entry := by subst hm₁; rfl
  have hfree : m₁.firstFree = m.firstFree := by subst hm₁; rfl
  have hv := (hleft True).valid
  rw [← hentry] at hxs hys
  have hnew : ∀ d : Entry, ids = xs ++ ys → (∀ b ∈ ys, end_ ≤ (m₁.entry b).start) →
      d.start = start → d.end_ = end_ → d.eflags.inTransition = false →
      ∃ m' ids', m₁.insertNew (xs.getLastD header) d = some m' ∧
        Left lo top m ids (m.HintFits ids start end_) m' ids' := by
    rintro d rfl hys' hds hde hdt
    have hb : InBounds lo top d := by
      refine ⟨?_, ?_, ?_⟩
      · rw [hds, ← h.wf.lo_eq]; exact hmin
      · rwa [hds, hde]
      · rw [hde, ← h.wf.top_eq]; exact hmax
    obtain ⟨m', hins, hv', hset, hhint⟩ := insertNew_spec hv hb (by rwa [hds]) (by rwa [hde])
    refine ⟨m', _, hins, hv', hset hdt ∘ hk.settled, fun hfits hok =>
      hhint (fun hnil hzero => ?_) (hk.hint hok)⟩
    rw [hds, minOffset, hentry]
    refine hfits (hfree.symm.trans hzero) hlt hmax fun b hb => ?_
    subst hnil
    rw [← hentry]; exact hys' b hb
  cases found with
  | true => exact ⟨m₁, .noSpace, ids, rfl, hleft _⟩
  | false =>
    obtain ⟨rfl, rfl⟩ : ids = xs ++ ys ∧ p = xs.getLastD header := by simpa using hres
    have hnext : m₁.next (xs.getLastD header) = ys.headD header := hl.ring.next_last
    dsimp only
    rw [if_neg (by simp)]
    by_cases hspace : m₁.next (xs.getLastD header) ≠ header ∧
        (m₁.entry (m₁.next (xs.getLastD header))).start < end_
    · exact ⟨m₁, .noSpace, xs ++ ys, if_pos hspace, hleft _⟩
    rw [if_neg hspace]
    have hys' : ∀ b ∈ ys, end_ ≤ (m₁.entry b).start := by
      rw [hnext] at hspace
      refine hv.wf.head_le fun b hb => ?_
      cases ys with
      | nil => cases hb
      | cons n ys =>
        obtain rfl := some.inj hb
        simpa [hv.wf.ne_header (show n ∈ xs ++ n :: ys by simp)] using hspace
    split
    · rename_i hext
      obtain ⟨-, hne, -, hend, -⟩ := hext
      split
      · obtain ⟨init, p, rfl, hp⟩ := exists_getLastD hne
        rw [hp] at hend ⊢
        rw [append_assoc, singleton_append] at hv hk
        obtain ⟨m', ids', hs, hv', hset, hhint⟩ := extend_spec hv hend hlt (h.wf.top_eq ▸ hmax) hys'
        rw [append_assoc, singleton_append]
        refine ⟨m', .success, _, ?_, hv', hset ∘ hk.settled, fun hfits => hhint hfits ∘ hk.hint⟩
        rw [hend, hs]; rfl
      · obtain ⟨m', ids', hins, hleft'⟩ := hnew
          { start, end_, object := (m₁.entry (xs.getLastD header)).object, offset := _,
            eflags := protoeflags cow, availSsize := 0, inheritance := vmInheritDefault,
            protection := prot, maxProtection := max, wiredCount := 0 }
          rfl hys' rfl rfl rfl
        refine ⟨m', .success, ids', ?_, hleft'⟩
        rw [hins]; rfl
    · obtain ⟨m', ids', hins, hleft'⟩ := hnew
        { start, end_, object, offset, eflags := protoeflags cow, availSsize := 0,
          inheritance := vmInheritDefault, protection := prot, maxProtection := max,
          wiredCount := 0 } rfl hys' rfl rfl rfl
      refine ⟨m', .success, ids', ?_, hleft'⟩
      rw [hins]; rfl

/-! ## Submaps -/

/-- `vm_map_submap` clips an entry that reaches into the range: the first one that ends behind the
    start of the range starts in front of its end, or there is none and the range goes to the end of
    the map. -/
def SubmapFits (m : VmMap) (start end_ : ℕ) : Prop :=
  ∀ ids, Ring m.next m.prev header ids → header ∉ ids →
    match m.firstBehind ids (m.rangeCheck start end_).1 with
    | some b => max (m.entry b).start (m.rangeCheck start end_).1 < (m.rangeCheck start end_).2
    | none => m.maxOffset ≤ (m.rangeCheck start end_).2

/-- The header is changed, but for its range. -/
theorem Valid.setHeader (h : Valid lo top m ids) {f : Entry → Entry}
    (hs : (f (m.entry header)).start = (m.entry header).start)
    (he : (f (m.entry header)).end_ = (m.entry header).end_) :
    Valid lo top (m.setEntry header f) ids := by
  have hsame : ∀ c ∈ ids, (m.setEntry header f).entry c = m.entry c := fun c hc =>
    setEntry_entry_of_ne _ _ (h.wf.ne_header hc)
  refine ⟨⟨h.wf.linked.congr ⟨rfl, rfl⟩ ⟨rfl, rfl⟩ rfl le_rfl, h.wf.ranges.congr hsame, ?_, ?_⟩, ?_⟩
  · rw [minOffset, setEntry_entry_self, hs]; exact h.wf.lo_eq
  · rw [maxOffset, setEntry_entry_self, he]; exact h.wf.top_eq
  · rw [total_congr fun c hc => by rw [hsame c hc]; exact ⟨rfl, rfl⟩]
    exact h.size

theorem submap_spec (env : ObjectEnv) (h : Valid lo top m ids) {start end_ : ℕ}
    (hfits : m.SubmapFits start end_) (submap : ℕ) :
    ∃ m' r ids', m.submap env start end_ submap = some (m', r) ∧
      Left lo top m ids False m' ids' := by
  have hfits := hfits ids h.wf.linked.ring h.wf.header_notMem
  unfold VmMap.submap
  generalize m.rangeCheck start end_ = range at *
  obtain ⟨s, t⟩ := range
  obtain ⟨m₁, xs, ys, hfirst, hw, hk, -, hhead⟩ := firstEntry_spec env h.wf s
  have hv := h.of_kept hw hk
  -- the entry is marked, or not
  have hmark : ∀ (m₂ : VmMap) (e : ℕ) (ids' : List ℕ), (e ∈ ids' ∨ e = header) →
      Valid lo top m₂ ids' → (Settled m ids → Settled m₂ ids') →
      ∃ m' r ids', (if (m₂.entry e).start = s ∧ (m₂.entry e).end_ = t ∧
          (m₂.entry e).eflags.cow = false ∧ (m₂.entry e).object = none then
        some (m₂.setEntry e fun e =>
          { e with object := some submap, eflags := { e.eflags with isSubMap := true } },
          KernReturn.success)
        else some (m₂, KernReturn.invalidArgument)) = some (m', r) ∧
        Left lo top m ids False m' ids' := by
    intro m₂ e ids' he hv₂ hset
    split_ifs
    · rcases he with he | rfl
      · obtain ⟨xs, ys, rfl⟩ := append_of_mem he
        obtain ⟨hw₃, hk₃⟩ := hv₂.wf.setData (R := fun _ _ _ => True) (f := fun e =>
          { e with object := some submap, eflags := { e.eflags with isSubMap := true } })
          rfl rfl rfl (fun _ _ => trivial) fun _ _ _ _ => trivial
        exact ⟨_, _, _, rfl, hv₂.of_kept hw₃ hk₃, hk₃.settled ∘ hset, False.elim⟩
      · refine ⟨_, _, _, rfl, hv₂.setHeader rfl rfl, fun hs c hc => ?_, False.elim⟩
        rw [setEntry_entry_of_ne _ _ (hv₂.wf.ne_header hc)]; exact hset hs c hc
    · exact ⟨_, _, _, rfl, hv₂, hset, False.elim⟩
  cases ys with
  | nil =>
    rw [List.head?_nil, map_none, eq_comm, map_eq_none_iff] at hhead
    rw [hhead] at hfits
    have hclip : m₁.clipEnd env header t = some m₁ := by
      refine if_neg (not_lt.2 ?_)
      rw [hk.header]; exact hfits
    simp only [hfirst, headD_nil, hclip, bind_eq_bind, bind_some]
    exact hmark m₁ header _ (.inr rfl) hv hk.settled
  | cons e ys =>
    cases hb : m.firstBehind ids s with
    | none => simp [hb] at hhead
    | some b =>
      rw [hb] at hfits
      simp only [hb, List.head?_cons, map_some, Option.some.injEq] at hhead
      obtain ⟨m₂, ys', hclip, hw₂, hk₂, -⟩ := clipEnd_spec env hw (hhead.trans_lt hfits)
      simp only [hfirst, headD_cons, hclip, bind_eq_bind, bind_some]
      exact hmark m₂ e _ (.inl (by simp)) (hv.of_kept hw₂ hk₂) (hk₂.settled ∘ hk.settled)

end FreeBSD.Vm.VmMap
