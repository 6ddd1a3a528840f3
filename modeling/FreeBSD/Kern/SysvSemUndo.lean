import FreeBSD.Kern.SysvSem

/-!
# The undo table of the semaphores

The entries of a process are a list in no particular order, with one entry at most for a semaphore
and none that is 0 (`EntOk`). What `semundo_adjust` does to the table is what it does to the entries
of the caller (`semundoAdjust_cases`), and there it adds to the value for one semaphore.
-/

namespace FreeBSD.SysvSem

open List
open Lib (swapDelete)

/-! ## Entries -/

/-- The semaphore of an entry. -/
def Undo.key (e : Undo) : ℕ × ℕ := (e.unId, e.unNum)

variable {e : Undo} {info : Seminfo} {l l' ents : List Undo} {p : ℕ} {tbl : List SemUndo}

@[simp] theorem isEntry_iff {semid semnum : ℕ} :
    isEntry semid semnum e = true ↔ e.key = (semid, semnum) := by
  simp [isEntry, Undo.key]

/-- The adjustment fits `semaem`. -/
def InRange (info : Seminfo) (z : ℤ) : Prop := -(info.semaem : ℤ) ≤ z ∧ z ≤ info.semaem

theorem InRange.zero (info : Seminfo) : InRange info 0 := by
  unfold InRange; omega

/-- What the entries of a process are: one at most for a semaphore, none of them 0, and no more than
    `semume`. -/
structure EntOk (info : Seminfo) (ents : List Undo) : Prop where
  nodup : (ents.map Undo.key).Nodup
  ne_zero : ∀ e ∈ ents, e.unAdjval ≠ 0
  length_le : ents.length ≤ info.semume

theorem EntOk.nil (info : Seminfo) : EntOk info [] := ⟨nodup_nil, by simp, by simp⟩

theorem EntOk.perm (h : EntOk info l) (hp : l.Perm l') : EntOk info l' where
  nodup := (hp.map _).nodup_iff.1 h.nodup
  ne_zero e he := h.ne_zero e (hp.mem_iff.2 he)
  length_le := hp.length_eq ▸ h.length_le

/-- There is one entry at most for a semaphore. -/
theorem EntOk.unique (h : EntOk info l) {e e' : Undo} (he : e ∈ l) (he' : e' ∈ l)
    (hk : e.key = e'.key) : e = e' :=
  inj_on_of_nodup_map h.nodup he he' hk

theorem Undo.eq_of_key {e e' : Undo} (hk : e.key = e'.key) (hv : e.unAdjval = e'.unAdjval) :
    e = e' := by
  obtain ⟨hid, hnum⟩ := Prod.mk.inj hk
  cases e
  cases e'
  simp_all

/-- The adjustment for a semaphore. -/
def adjval (k : ℕ × ℕ) (ents : List Undo) : ℤ := ((ents.filter (·.key = k)).map (·.unAdjval)).sum

@[simp] theorem adjval_nil (k : ℕ × ℕ) : adjval k [] = 0 := rfl

theorem adjval_cons (k : ℕ × ℕ) (e : Undo) (ents : List Undo) :
    adjval k (e :: ents) = (if e.key = k then e.unAdjval else 0) + adjval k ents := by
  unfold adjval
  rw [filter_cons]
  split_ifs <;> simp_all

theorem adjval_perm {k : ℕ × ℕ} (h : l.Perm l') : adjval k l = adjval k l' :=
  ((h.filter _).map _).sum_eq

theorem adjval_eq_zero {k : ℕ × ℕ} (h : ∀ e ∈ l, e.key ≠ k) : adjval k l = 0 := by
  have hnil : l.filter (·.key = k) = [] := by
    rw [filter_eq_nil_iff]
    intro e he; simpa using h e he
  rw [adjval, hnil]; rfl

/-- The value for a semaphore is that of its entry. -/
theorem EntOk.adjval_eq (h : EntOk info l) (he : e ∈ l) : adjval e.key l = e.unAdjval := by
  have hp := perm_cons_erase he
  have hnodup := (h.perm hp).nodup
  rw [map_cons, nodup_cons] at hnodup
  rw [adjval_perm hp, adjval_cons, if_pos rfl, adjval_eq_zero, add_zero]
  intro x hx hk; exact hnodup.1 (hk ▸ mem_map_of_mem hx)

/-- The branches of `semundo_adjust` by `d` for semaphore `k`, up to the order of the entries. -/
inductive Adjusted (info : Seminfo) (k : ℕ × ℕ) (d : ℤ) (ents ents' : List Undo) : Ret → Prop
  | remove (e : Undo) (rest : List Undo) (hp : ents.Perm (e :: rest)) (hk : e.key = k)
      (hz : d + e.unAdjval = 0) (hp' : ents'.Perm rest) : Adjusted info k d ents ents' (.ok 0)
  | change (e e' : Undo) (rest : List Undo) (hp : ents.Perm (e :: rest)) (hk : e.key = k)
      (hk' : e'.key = k) (hv : e'.unAdjval = d + e.unAdjval) (hr : InRange info e'.unAdjval)
      (hz : e'.unAdjval ≠ 0) (hp' : ents'.Perm (e' :: rest)) : Adjusted info k d ents ents' (.ok 0)
  | create (e' : Undo) (hnew : ∀ e ∈ ents, e.key ≠ k) (hk' : e'.key = k) (hv : e'.unAdjval = d)
      (hr : InRange info d) (hl : ents.length ≠ info.semume) (hp' : ents'.Perm (e' :: ents)) :
      Adjusted info k d ents ents' (.ok 0)
  | erange (hents : ents' = ents)
      (hr : (∃ e ∈ ents, e.key = k ∧ ¬ InRange info (d + e.unAdjval)) ∨
        (∀ e ∈ ents, e.key ≠ k) ∧ ¬ InRange info d) : Adjusted info k d ents ents' (.err .erange)
  | einval (hents : ents' = ents) (hnew : ∀ e ∈ ents, e.key ≠ k) (hl : ents.length = info.semume) :
      Adjusted info k d ents ents' (.err .einval)

theorem adjustEnt_adjusted (info : Seminfo) (ents : List Undo) (semid semnum : ℕ) {d : ℤ}
    (hd : d ≠ 0) :
    Adjusted info (semid, semnum) d ents (adjustEnt info ents semid semnum d).1
      (adjustEnt info ents semid semnum d).2 := by
  have hrange : ∀ z : ℤ, z > info.semaem ∨ z < -info.semaem ↔ ¬ InRange info z := by
    intro z
    unfold InRange; omega
  cases hf : ents.find? (isEntry semid semnum) with
  | some e =>
    obtain ⟨hi, he, hp⟩ := Lib.exists_find hf
    have hperm := Lib.swapDelete_perm hi
    rw [he] at hperm
    rw [isEntry_iff] at hp
    simp only [adjustEnt, hf, if_pos hd]
    by_cases hr : InRange info (d + e.unAdjval)
    · rw [if_neg (fun h => (hrange _).1 h.2 hr)]
      split_ifs with hz
      · exact .remove e _ hperm hp hz (.refl _)
      · exact .change e { e with unAdjval := d + e.unAdjval } _ hperm hp hp rfl hr hz
          (Lib.set_perm hi _)
    · rw [if_pos ⟨hd, (hrange _).2 hr⟩]
      exact .erange rfl (.inl ⟨e, mem_of_find?_eq_some hf, hp, hr⟩)
  | none =>
    have hnew : ∀ e ∈ ents, e.key ≠ (semid, semnum) := by
      intro e he hk; exact List.find?_eq_none.1 hf e he (isEntry_iff.2 hk)
    simp only [adjustEnt, hf, if_neg hd]
    by_cases hr : InRange info d
    · rw [if_neg (fun h => (hrange _).1 h hr)]
      split_ifs with hl
      · exact .create _ hnew rfl rfl hr hl perm_append_comm
      · exact .einval rfl hnew (not_not.1 hl)
    · rw [if_pos ((hrange _).2 hr)]; exact .erange rfl (.inr ⟨hnew, hr⟩)

namespace Adjusted
variable {info : Seminfo} {k : ℕ × ℕ} {d : ℤ} {ents ents' : List Undo} {r : Ret}

/-- An adjustment succeeds, or fails and leaves the entries as they are. -/
theorem ret (h : Adjusted info k d ents ents' r) :
    r = .ok 0 ∨ (ents' = ents ∧ (r = .err .erange ∨ r = .err .einval)) := by
  cases h with
  | remove => exact .inl rfl
  | change => exact .inl rfl
  | create => exact .inl rfl
  | erange hents => exact .inr ⟨hents, .inl rfl⟩
  | einval hents => exact .inr ⟨hents, .inr rfl⟩

/-- One that succeeds adds to the value for its semaphore. -/
theorem adjval_eq (h : Adjusted info k d ents ents' (.ok 0)) (j : ℕ × ℕ) :
    adjval j ents' = adjval j ents + if k = j then d else 0 := by
  cases h with
  | remove e rest hp hk hz hp' =>
    rw [adjval_perm hp, adjval_perm hp', adjval_cons, hk]
    split_ifs <;> omega
  | change e e' rest hp hk hk' hv hr hz hp' =>
    rw [adjval_perm hp, adjval_perm hp', adjval_cons, adjval_cons, hk, hk', hv]
    split_ifs <;> omega
  | create e' hnew hk' hv hr hl hp' =>
    rw [adjval_perm hp', adjval_cons, hk', hv]; exact add_comm _ _

theorem entOk (h : Adjusted info k d ents ents' r) (hok : EntOk info ents) (hd : d ≠ 0) :
    EntOk info ents' := by
  cases h with
  | remove e rest hp hk hz hp' =>
    have hcons := hok.perm hp
    refine EntOk.perm ⟨(nodup_cons.1 hcons.nodup).2, fun x hx => ?_, ?_⟩ hp'.symm
    · exact hcons.ne_zero x (mem_cons_of_mem _ hx)
    · exact (Nat.le_succ _).trans hcons.length_le
  | change e e' rest hp hk hk' hv hr hz hp' =>
    have hcons := hok.perm hp
    refine EntOk.perm (l := e' :: rest) ⟨?_, ?_, hcons.length_le⟩ hp'.symm
    · have := hcons.nodup
      rw [map_cons, hk] at this; rwa [map_cons, hk']
    · rintro x (_ | ⟨_, hx⟩)
      · exact hz
      · exact hcons.ne_zero x (mem_cons_of_mem _ hx)
  | create e' hnew hk' hv hr hl hp' =>
    refine EntOk.perm ⟨?_, ?_, ?_⟩ hp'.symm
    · rw [map_cons, hk']
      refine nodup_cons.2 ⟨fun hmem => ?_, hok.nodup⟩
      obtain ⟨x, hx, hxk⟩ := mem_map.1 hmem
      exact hnew x hx hxk
    · rintro x (_ | ⟨_, hx⟩)
      · rw [hv]; exact hd
      · exact hok.ne_zero x hx
    · have := hok.length_le
      show ents.length + 1 ≤ info.semume
      omega
  | erange hents => exact hents ▸ hok
  | einval hents => exact hents ▸ hok

/-- An entry is an old one, or one in range for the semaphore of the adjustment. -/
theorem mem (h : Adjusted info k d ents ents' r) {x : Undo} (hx : x ∈ ents') :
    x ∈ ents ∨ x.key = k ∧ InRange info x.unAdjval := by
  cases h with
  | remove e rest hp hk hz hp' =>
    exact .inl (hp.mem_iff.2 (mem_cons_of_mem _ (hp'.mem_iff.1 hx)))
  | change e e' rest hp hk hk' hv hr hz hp' =>
    rcases mem_cons.1 (hp'.mem_iff.1 hx) with rfl | hx
    · exact .inr ⟨hk', hr⟩
    · exact .inl (hp.mem_iff.2 (mem_cons_of_mem _ hx))
  | create e' hnew hk' hv hr hl hp' =>
    rcases mem_cons.1 (hp'.mem_iff.1 hx) with rfl | hx
    · exact .inr ⟨hk', hv ▸ hr⟩
    · exact .inl hx
  | erange hents => exact .inl (hents ▸ hx)
  | einval hents => exact .inl (hents ▸ hx)

/-- The new value for the semaphore of an adjustment that succeeds is in range. -/
theorem inRange (h : Adjusted info k d ents ents' (.ok 0)) (hok : EntOk info ents) :
    InRange info (adjval k ents + d) := by
  cases h with
  | remove e rest hp hk hz hp' =>
    rw [← hk, hok.adjval_eq (hp.mem_iff.2 mem_cons_self), add_comm, hz]
    exact InRange.zero info
  | change e e' rest hp hk hk' hv hr hz hp' =>
    rw [← hk, hok.adjval_eq (hp.mem_iff.2 mem_cons_self), add_comm, ← hv]; exact hr
  | create e' hnew hk' hv hr hl hp' =>
    rw [adjval_eq_zero hnew, zero_add]; exact hr

/-- An entry can take any new value in range. -/
theorem ok_of_mem (h : Adjusted info k d ents ents' r) (hok : EntOk info ents) {e : Undo}
    (he : e ∈ ents) (hk : e.key = k) (hr : InRange info (adjval k ents + d)) : r = .ok 0 := by
  cases h with
  | remove => rfl
  | change => rfl
  | create => rfl
  | erange _ hout =>
    rcases hout with ⟨x, hx, hxk, hout⟩ | ⟨hnew, -⟩
    · rw [← hxk, hok.adjval_eq hx, add_comm] at hr; exact absurd hr hout
    · exact absurd hk (hnew e he)
  | einval _ hnew => exact absurd hk (hnew e he)

/-- An adjustment of entries in range can be taken back, also if they have changed places since. -/
theorem revert (h : Adjusted info k d ents ents' (.ok 0)) (hok : EntOk info ents) (hd : d ≠ 0)
    (hin : ∀ e ∈ ents, InRange info e.unAdjval) {l l' : List Undo} (hl : l.Perm ents')
    (h' : Adjusted info k (-d) l l' r) : r = .ok 0 ∧ l'.Perm ents := by
  have hlok := (h.entOk hok hd).perm hl.symm
  cases h with
  | remove e rest hp hk hz hp' =>
    have hmem : e ∈ ents := hp.mem_iff.2 mem_cons_self
    have hnone : ∀ x ∈ l, x.key ≠ k := by
      intro x hx hxk
      have hnodup := (hok.perm hp).nodup
      rw [map_cons, nodup_cons] at hnodup
      exact hnodup.1 (hk ▸ hxk ▸ mem_map_of_mem (hp'.mem_iff.1 (hl.mem_iff.1 hx)))
    cases h' with
    | remove x _ hq hxk => exact absurd hxk (hnone x (hq.mem_iff.2 mem_cons_self))
    | change x _ _ hq hxk => exact absurd hxk (hnone x (hq.mem_iff.2 mem_cons_self))
    | create x _ hxk hv _ _ hq =>
      have hx : x = e := Undo.eq_of_key (hxk.trans hk.symm) (by omega)
      subst hx; exact ⟨rfl, hq.trans (((hl.trans hp').cons x).trans hp.symm)⟩
    | erange _ hr =>
      rcases hr with ⟨x, hx, hxk, -⟩ | ⟨-, hr⟩
      · exact absurd hxk (hnone x hx)
      · exact absurd (show InRange info (-d) by
          rw [show -d = e.unAdjval by omega]; exact hin e hmem) hr
    | einval _ _ hlen =>
      have h1 := (hl.trans hp').length_eq
      have h2 := hp.length_eq
      have h3 := hok.length_le
      rw [length_cons] at h2; omega
  | change e e' rest hp hk hk' hv hr hz hp' =>
    have hmem : e ∈ ents := hp.mem_iff.2 mem_cons_self
    have hl' := hl.trans hp'
    have huniq : ∀ x ∈ l, x.key = k → x = e' := fun x hx hxk =>
      hlok.unique hx (hl'.mem_iff.2 mem_cons_self) (hxk.trans hk'.symm)
    cases h' with
    | remove x _ hq hxk hz' =>
      obtain rfl := huniq x (hq.mem_iff.2 mem_cons_self) hxk
      exact absurd (by omega) (hok.ne_zero e hmem)
    | change x y rest' hq hxk hyk hy _ _ hq' =>
      obtain rfl := huniq x (hq.mem_iff.2 mem_cons_self) hxk
      have hye : y = e := Undo.eq_of_key (hyk.trans hk.symm) (by omega)
      subst hye
      have hrest := (perm_cons x).1 (hq.symm.trans hl')
      exact ⟨rfl, hq'.trans ((hrest.cons y).trans hp.symm)⟩
    | create _ hnew => exact absurd hk' (hnew e' (hl'.mem_iff.2 mem_cons_self))
    | erange _ hr' =>
      rcases hr' with ⟨x, hx, hxk, hr'⟩ | ⟨hnew, -⟩
      · obtain rfl := huniq x hx hxk
        rw [hv, neg_add_cancel_left] at hr'; exact absurd (hin e hmem) hr'
      · exact absurd hk' (hnew e' (hl'.mem_iff.2 mem_cons_self))
    | einval _ hnew => exact absurd hk' (hnew e' (hl'.mem_iff.2 mem_cons_self))
  | create e' hnew hk' hv hr hlen hp' =>
    have hl' := hl.trans hp'
    have huniq : ∀ x ∈ l, x.key = k → x = e' := fun x hx hxk =>
      hlok.unique hx (hl'.mem_iff.2 mem_cons_self) (hxk.trans hk'.symm)
    cases h' with
    | remove x rest' hq hxk _ hq' =>
      obtain rfl := huniq x (hq.mem_iff.2 mem_cons_self) hxk
      exact ⟨rfl, hq'.trans ((perm_cons x).1 (hq.symm.trans hl'))⟩
    | change x y rest' hq hxk _ hy _ hz _ =>
      obtain rfl := huniq x (hq.mem_iff.2 mem_cons_self) hxk
      exact absurd (by omega) hz
    | create _ hnew' => exact absurd hk' (hnew' e' (hl'.mem_iff.2 mem_cons_self))
    | erange _ hr' =>
      rcases hr' with ⟨x, hx, hxk, hr'⟩ | ⟨hnew', -⟩
      · obtain rfl := huniq x hx hxk
        rw [hv, neg_add_cancel] at hr'; exact absurd (InRange.zero info) hr'
      · exact absurd hk' (hnew' e' (hl'.mem_iff.2 mem_cons_self))
    | einval _ hnew' => exact absurd hk' (hnew' e' (hl'.mem_iff.2 mem_cons_self))

end Adjusted

/-! ## The table -/

/-- The processes with an undo structure have one each, there are no more than `semmnu` of them, and
    their entries are as they should be. -/
structure TblOk (info : Seminfo) (tbl : List SemUndo) : Prop where
  nodup : (tbl.map (·.unProc)).Nodup
  length_le : tbl.length ≤ info.semmnu
  ents : ∀ suptr ∈ tbl, EntOk info suptr.unEnt

theorem TblOk.nil (info : Seminfo) : TblOk info [] := ⟨nodup_nil, by simp, by simp⟩

theorem TblOk.sublist {tbl tbl' : List SemUndo} (h : TblOk info tbl) (hsub : tbl'.Sublist tbl) :
    TblOk info tbl' where
  nodup := h.nodup.sublist (hsub.map _)
  length_le := hsub.length_le.trans h.length_le
  ents suptr hmem := h.ents suptr (hsub.subset hmem)

@[simp] theorem entOf_nil (p : ℕ) : entOf p [] = [] := rfl

theorem entOf_cons (p : ℕ) (suptr : SemUndo) (tbl : List SemUndo) :
    entOf p (suptr :: tbl) = if suptr.unProc = p then suptr.unEnt else entOf p tbl := by
  unfold entOf
  by_cases h : suptr.unProc = p
  · rw [List.find?_cons_of_pos (by simpa using h), if_pos h]
    rfl
  · rw [List.find?_cons_of_neg (by simpa using h), if_neg h]

theorem entOf_eq_nil (h : p ∉ tbl.map (·.unProc)) : entOf p tbl = [] := by
  induction tbl with
  | nil => rfl
  | cons suptr tbl ih =>
    rw [map_cons, mem_cons, not_or] at h
    rw [entOf_cons, if_neg (Ne.symm h.1), ih h.2]

/-- The structure of a process is the first one with its name. -/
theorem TblOk.entOf_eq (h : TblOk info tbl) {suptr : SemUndo} (hmem : suptr ∈ tbl) :
    entOf suptr.unProc tbl = suptr.unEnt := by
  have hnodup := h.nodup
  clear h
  induction tbl with
  | nil => cases hmem
  | cons u tbl ih =>
    rw [map_cons, nodup_cons] at hnodup
    rw [entOf_cons]
    rcases mem_cons.1 hmem with rfl | hmem
    · rw [if_pos rfl]
    · have hne : u.unProc ≠ suptr.unProc := by
        intro heq; exact hnodup.1 (heq ▸ mem_map_of_mem hmem)
      rw [if_neg hne, ih hmem hnodup.2]

theorem exists_of_mem_entOf (he : e ∈ entOf p tbl) :
    ∃ suptr ∈ tbl, suptr.unProc = p ∧ entOf p tbl = suptr.unEnt := by
  induction tbl with
  | nil => cases he
  | cons u tbl ih =>
    rw [entOf_cons] at he ⊢
    split_ifs at he ⊢ with hp
    · exact ⟨u, mem_cons_self, hp, rfl⟩
    · obtain ⟨suptr, hmem, h1, h2⟩ := ih he
      exact ⟨suptr, mem_cons_of_mem _ hmem, h1, h2⟩

theorem TblOk.entOk (h : TblOk info tbl) (p : ℕ) : EntOk info (entOf p tbl) := by
  by_cases hp : entOf p tbl = []
  · rw [hp]; exact EntOk.nil info
  · obtain ⟨e, he⟩ := exists_mem_of_ne_nil _ hp
    obtain ⟨suptr, hmem, -, heq⟩ := exists_of_mem_entOf he
    rw [heq]; exact h.ents suptr hmem

/-! Assignment to the entries of a process. -/

@[simp] theorem setEnt_procs (p : ℕ) (ents : List Undo) (tbl : List SemUndo) :
    (setEnt p ents tbl).map (·.unProc) = tbl.map (·.unProc) := by
  induction tbl with
  | nil => rfl
  | cons suptr tbl ih =>
    rw [setEnt]
    split_ifs
    · rfl
    · rw [map_cons, ih, map_cons]

theorem entOf_setEnt_self (h : p ∈ tbl.map (·.unProc)) : entOf p (setEnt p ents tbl) = ents := by
  induction tbl with
  | nil => cases h
  | cons suptr tbl ih =>
    rw [setEnt]
    split_ifs with hp
    · rw [entOf_cons, if_pos hp]
    · rw [entOf_cons, if_neg hp]
      rw [map_cons, mem_cons] at h; exact ih (h.resolve_left (Ne.symm hp))

theorem entOf_setEnt_of_ne {p q : ℕ} (hq : q ≠ p) (ents : List Undo) (tbl : List SemUndo) :
    entOf q (setEnt p ents tbl) = entOf q tbl := by
  induction tbl with
  | nil => rfl
  | cons suptr tbl ih =>
    rw [setEnt]
    split_ifs with hp
    · rw [entOf_cons, entOf_cons, if_neg (fun h => hq (h.symm.trans hp)),
        if_neg (fun h => hq (h.symm.trans hp))]
    · rw [entOf_cons, entOf_cons, ih]

theorem mem_setEnt {suptr : SemUndo} (h : suptr ∈ setEnt p ents tbl) :
    suptr ∈ tbl ∨ suptr.unProc = p ∧ suptr.unEnt = ents := by
  induction tbl with
  | nil => cases h
  | cons u tbl ih =>
    rw [setEnt] at h
    split_ifs at h with hp <;> rcases mem_cons.1 h with rfl | h
    · exact .inr ⟨hp, rfl⟩
    · exact .inl (mem_cons_of_mem _ h)
    · exact .inl mem_cons_self
    · exact (ih h).imp_left (mem_cons_of_mem _)

theorem TblOk.setEnt (h : TblOk info tbl) (p : ℕ) (hents : EntOk info ents) : TblOk info
    (setEnt p ents tbl) where
  nodup := by rw [setEnt_procs]; exact h.nodup
  length_le := by
    have := congrArg List.length (setEnt_procs p ents tbl)
    rw [length_map, length_map] at this
    rw [this]; exact h.length_le
  ents suptr hmem := by
    rcases mem_setEnt hmem with hmem | ⟨-, heq⟩
    · exact h.ents suptr hmem
    · rw [heq]; exact hents

/-! `semu_alloc`. -/

/-- A structure without entries can go. -/
theorem entOf_eraseP (h : TblOk info tbl) (p : ℕ) :
    entOf p (tbl.eraseP (·.unEnt.isEmpty)) = entOf p tbl := by
  have hnodup := h.nodup
  clear h
  induction tbl with
  | nil => rfl
  | cons suptr tbl ih =>
    rw [map_cons, nodup_cons] at hnodup
    rw [eraseP_cons]
    cases hempty : suptr.unEnt.isEmpty with
    | false => rw [cond_false, entOf_cons, entOf_cons, ih hnodup.2]
    | true =>
      rw [cond_true, entOf_cons]
      split_ifs with hp
      · rw [isEmpty_iff.1 hempty]; exact entOf_eq_nil (hp ▸ hnodup.1)
      · rfl

/-- `semu_alloc` finds no room, or adds a structure without entries for the process. -/
theorem semuAlloc_cases (h : TblOk info tbl) (hp : p ∉ tbl.map (·.unProc)) :
    semuAlloc info p tbl = .ok none ∨
      ∃ tbl', semuAlloc info p tbl = .ok (some tbl') ∧ TblOk info tbl' ∧
        p ∈ tbl'.map (·.unProc) ∧ ∀ q, entOf q tbl' = entOf q tbl := by
  have hcons : ∀ tbl₀ : List SemUndo, tbl₀.Sublist tbl → tbl₀.length < info.semmnu →
      (∀ q, entOf q tbl₀ = entOf q tbl) → TblOk info (⟨p, []⟩ :: tbl₀) ∧
      p ∈ (⟨p, []⟩ :: tbl₀ : List SemUndo).map (·.unProc) ∧
      ∀ q, entOf q (⟨p, []⟩ :: tbl₀) = entOf q tbl := by
    intro tbl₀ hsub hlen hent
    have hp₀ : p ∉ tbl₀.map (·.unProc) := fun hmem => hp ((hsub.map _).subset hmem)
    refine ⟨⟨nodup_cons.2 ⟨hp₀, h.nodup.sublist (hsub.map _)⟩, hlen, ?_⟩, by simp, fun q => ?_⟩
    · rintro suptr (_ | ⟨_, hmem⟩)
      · exact EntOk.nil info
      · exact h.ents suptr (hsub.subset hmem)
    · rw [entOf_cons]
      split_ifs with hq
      · rw [← hent, ← show p = q from hq, entOf_eq_nil hp₀]
      · exact hent q
  simp only [semuAlloc]
  split_ifs with hlen hany hlen'
  · exact .inr ⟨_, rfl, hcons tbl (.refl _) hlen fun q => rfl⟩
  · exact .inr ⟨_, rfl, hcons _ eraseP_sublist hlen' (entOf_eraseP h)⟩
  · obtain ⟨suptr, hmem, hsuptr⟩ := any_eq_true.1 hany
    have := length_eraseP_of_mem (p := (·.unEnt.isEmpty)) hmem hsuptr
    have := length_pos_of_mem hmem
    have := h.length_le; omega
  · exact .inl rfl

/-- `semundo_adjust` finds no room, or does to the entries of the process what it does to
    entries. -/
theorem semundoAdjust_cases (h : TblOk info tbl) (p semid semnum : ℕ) {d : ℤ} (hd : d ≠ 0) :
    (p ∉ tbl.map (·.unProc) ∧ semundoAdjust info p tbl semid semnum d = (tbl, .err .enospc)) ∨
    ∃ tbl' r, semundoAdjust info p tbl semid semnum d = (tbl', r) ∧ TblOk info tbl' ∧
      p ∈ tbl'.map (·.unProc) ∧ (∀ q ≠ p, entOf q tbl' = entOf q tbl) ∧
      Adjusted info (semid, semnum) d (entOf p tbl) (entOf p tbl') r := by
  have hset : ∀ tbl₀, TblOk info tbl₀ → p ∈ tbl₀.map (·.unProc) →
      (∀ q, entOf q tbl₀ = entOf q tbl) → ∃ tbl' r,
        ((setEnt p (adjustEnt info (entOf p tbl₀) semid semnum d).1 tbl₀,
          (adjustEnt info (entOf p tbl₀) semid semnum d).2) = (tbl', r)) ∧ TblOk info tbl' ∧
        p ∈ tbl'.map (·.unProc) ∧ (∀ q ≠ p, entOf q tbl' = entOf q tbl) ∧
        Adjusted info (semid, semnum) d (entOf p tbl) (entOf p tbl') r := by
    intro tbl₀ h₀ hp₀ hent
    have hadj := adjustEnt_adjusted info (entOf p tbl₀) semid semnum hd
    refine ⟨_, _, rfl, h₀.setEnt p (hadj.entOk (h₀.entOk p) hd), ?_, fun q hq => ?_, ?_⟩
    · rwa [setEnt_procs]
    · rw [entOf_setEnt_of_ne hq, hent]
    · rw [entOf_setEnt_self hp₀, ← hent]; exact hadj
  have hany : (tbl.any (·.unProc == p)) = true ↔ p ∈ tbl.map (·.unProc) := by simp
  unfold semundoAdjust
  by_cases hp : p ∈ tbl.map (·.unProc)
  · rw [if_pos (hany.2 hp)]; exact .inr (hset tbl h hp fun q => rfl)
  · rw [if_neg (fun hc => hp (hany.1 hc)), if_neg hd]
    rcases semuAlloc_cases h hp with hr | ⟨tbl₀, hr, h₀, hp₀, hent⟩
    · rw [hr]; exact .inl ⟨hp, rfl⟩
    · rw [hr]; exact .inr (hset tbl₀ h₀ hp₀ hent)

/-! ## Clearing -/

theorem EntOk.subperm (h : EntOk info l) (hp : l'.Subperm l) : EntOk info l' := by
  obtain ⟨l₀, hperm, hsub⟩ := hp
  refine EntOk.perm ⟨h.nodup.sublist (hsub.map _), fun e he => ?_, ?_⟩ hperm
  · exact h.ne_zero e (hsub.subset he)
  · exact hsub.length_le.trans h.length_le

/-- `semundo_clear` removes entries. -/
theorem clearEnt_subperm (semid : ℕ) (semnum : Option ℕ) (fuel i : ℕ) (ents : List Undo) :
    (clearEnt semid semnum fuel i ents).Subperm ents := by
  induction fuel generalizing i ents with
  | zero => exact .refl _
  | succ fuel ih =>
    rw [clearEnt]
    cases hi : ents[i]? with
    | none => exact .refl _
    | some sunptr =>
      obtain ⟨hlt, -⟩ := List.getElem?_eq_some_iff.1 hi
      have hdel : (swapDelete ents i).Subperm ents :=
        (sublist_cons_self ..).subperm.trans (Lib.swapDelete_perm hlt).symm.subperm
      by_cases hhit : semnum = none ∨ semnum = some sunptr.unNum
      · simp only [if_pos hhit]
        split_ifs
        · exact (ih _ _).trans hdel
        · exact hdel
        · exact (ih _ _).trans hdel
        · exact ih _ _
      · simp only [if_neg hhit]
        split_ifs
        · exact ih _ _
        · exact .refl _
        · exact ih _ _
        · exact ih _ _

/-- For a whole set it removes all entries of the set. -/
theorem clearEnt_none (semid : ℕ) {fuel i : ℕ} (hfuel : ents.length ≤ i + fuel)
    (hfront : ∀ j e, j < i → ents[j]? = some e → e.unId ≠ semid) :
    ∀ e ∈ clearEnt semid none fuel i ents, e.unId ≠ semid := by
  have hend : ∀ (l : List Undo) (i : ℕ), l.length ≤ i →
      (∀ j e, j < i → l[j]? = some e → e.unId ≠ semid) → ∀ e ∈ l, e.unId ≠ semid := by
    intro l i hl hf e he
    obtain ⟨j, hj⟩ := mem_iff_getElem?.1 he
    obtain ⟨hlt, -⟩ := List.getElem?_eq_some_iff.1 hj
    exact hf j e (by omega) hj
  induction fuel generalizing i ents with
  | zero => exact hend ents i (by omega) hfront
  | succ fuel ih =>
    rw [clearEnt]
    cases hi : ents[i]? with
    | none => exact hend ents i (List.getElem?_eq_none_iff.1 hi) hfront
    | some sunptr =>
      obtain ⟨hlt, -⟩ := List.getElem?_eq_some_iff.1 hi
      have hlen := Lib.length_swapDelete hlt
      have hfront' : ∀ j e, j < i → (swapDelete ents i)[j]? = some e → e.unId ≠ semid := by
        intro j e hj hje
        rw [Lib.getElem?_swapDelete hlt hj] at hje; exact hfront j e hj hje
      simp only [true_or, if_true, true_and, ne_eq, not_true_eq_false, if_false]
      split_ifs with hid hmore
      · exact ih (by omega) hfront'
      · refine ih (by omega) fun j e hj hje => ?_
        obtain ⟨hjlt, -⟩ := List.getElem?_eq_some_iff.1 hje
        exact hfront' j e (by omega) hje
      · refine ih (by omega) fun j e hj hje => ?_
        rcases Nat.lt_or_eq_of_le (Nat.le_of_lt_succ hj) with hj | rfl
        · exact hfront j e hj hje
        · rw [hi, Option.some.injEq] at hje; exact hje ▸ hid

@[simp] theorem semundoClear_procs (semid : ℕ) (semnum : Option ℕ) (tbl : List SemUndo) :
    (semundoClear semid semnum tbl).map (·.unProc) = tbl.map (·.unProc) := by
  simp [semundoClear]

theorem entOf_semundoClear (semid : ℕ) (semnum : Option ℕ) (p : ℕ) (tbl : List SemUndo) :
    entOf p (semundoClear semid semnum tbl) =
      clearEnt semid semnum (entOf p tbl).length 0 (entOf p tbl) := by
  induction tbl with
  | nil => rfl
  | cons suptr tbl ih =>
    rw [semundoClear, map_cons, entOf_cons, entOf_cons]
    split_ifs
    · rfl
    · exact ih

theorem TblOk.semundoClear (h : TblOk info tbl) (semid : ℕ) (semnum : Option ℕ) :
    TblOk info (semundoClear semid semnum tbl) where
  nodup := by rw [semundoClear_procs]; exact h.nodup
  length_le := by rw [SysvSem.semundoClear, length_map]; exact h.length_le
  ents suptr hmem := by
    obtain ⟨u, hu, rfl⟩ := mem_map.1 hmem
    exact (h.ents u hu).subperm (clearEnt_subperm ..)

end FreeBSD.SysvSem
