import Mathlib.Tactic

/-!
# Runs of a machine with given steps

A machine takes a state and an operation to the next state and an answer, if the operation is
possible there. `Runs` are the runs of the operations that meet a condition on the state before.

Results:
* `Runs.invariant`: what every step keeps holds in every state that is reached.
* `Runs.mono`: a weaker condition allows more runs.
* `runs_of_exec`, `exists_of_exec`: a given list of operations gives a run.
* `runs_of_guarded`: so does one that is run with the condition checked at each step.
-/

namespace FreeBSD.Lib

variable {σ ο ρ : Type*}

/-- A step of the machine by an operation that meets `P`. -/
def Step (step : σ → ο → Option (σ × ρ)) (P : σ → ο → Prop) (s t : σ) : Prop :=
  ∃ op r, P s op ∧ step s op = some (t, r)

/-- Any number of steps. -/
def Runs (step : σ → ο → Option (σ × ρ)) (P : σ → ο → Prop) : σ → σ → Prop :=
  Relation.ReflTransGen (Step step P)

variable {step : σ → ο → Option (σ × ρ)} {P Q : σ → ο → Prop} {s t u : σ}

theorem Runs.refl : Runs step P s s := Relation.ReflTransGen.refl

theorem Runs.tail {o : ο} {r : ρ} (h : Runs step P s t) (hP : P t o)
    (hstep : step t o = some (u, r)) : Runs step P s u :=
  Relation.ReflTransGen.tail h ⟨o, r, hP, hstep⟩

theorem Runs.trans (h : Runs step P s t) (h' : Runs step P t u) : Runs step P s u :=
  Relation.ReflTransGen.trans h h'

theorem Runs.mono (hPQ : ∀ s op, P s op → Q s op) (h : Runs step P s t) : Runs step Q s t :=
  Relation.ReflTransGen.mono (fun _ _ ⟨op, r, hP, hs⟩ => ⟨op, r, hPQ _ op hP, hs⟩) _ _ h

/-- What every step keeps holds in every state that is reached. -/
theorem Runs.invariant {I : σ → Prop} (h : Runs step P s t) (hs : I s)
    (hI : ∀ s op t r, I s → P s op → step s op = some (t, r) → I t) : I t := by
  induction h with
  | refl => exact hs
  | tail _ hstep ih =>
    obtain ⟨op, r, hP, hstep⟩ := hstep
    exact hI _ op _ r ih hP hstep

/-- The steps of the operations `ops`, one after the other. -/
def exec (step : σ → ο → Option (σ × ρ)) (s : σ) : List ο → Option σ
  | [] => some s
  | op :: ops =>
    match step s op with
    | some (t, _) => exec step t ops
    | none => none

theorem runs_of_exec {ops : List ο} (hP : ∀ s, ∀ op ∈ ops, P s op) (h : exec step s ops = some t) :
    Runs step P s t := by
  induction ops generalizing s with
  | nil =>
    obtain rfl := Option.some.inj h
    exact Runs.refl
  | cons op ops ih =>
    cases hs : step s op with
    | none => simp [exec, hs] at h
    | some p =>
      obtain ⟨u, r⟩ := p
      simp only [exec, hs] at h
      have hu := ih (fun s op hop => hP s op (List.mem_cons_of_mem _ hop)) h
      exact (Runs.refl.tail (hP s op List.mem_cons_self) hs).trans hu

/-- A run of given operations reaches a state in which `f` has the value that it is computed to
    have. -/
theorem exists_of_exec (step : σ → ο → Option (σ × ρ)) {P : σ → ο → Prop} {s : σ} {β : Type*}
    {f : σ → β} {b : β} (ops : List ο)
    (hP : ∀ s, ∀ op ∈ ops, P s op) (h : (exec step s ops).map f = some b) :
    ∃ t, Runs step P s t ∧ f t = b := by
  cases hr : exec step s ops with
  | none => simp [hr] at h
  | some t =>
    simp only [hr, Option.map_some, Option.some.injEq] at h; exact ⟨t, runs_of_exec hP hr, h⟩

/-- The machine that checks the condition before each step. -/
def guarded (step : σ → ο → Option (σ × ρ)) (P : σ → ο → Prop) [∀ s o, Decidable (P s o)] (s : σ)
    (op : ο) : Option (σ × ρ) := if P s op then step s op else none

theorem runs_of_guarded [∀ s o, Decidable (P s o)] {ops : List ο}
    (h : exec (guarded step P) s ops = some t) : Runs step P s t := by
  refine Relation.ReflTransGen.mono ?_ _ _
    (runs_of_exec (P := fun _ _ => True) (fun _ _ _ => trivial) h)
  rintro s t ⟨op, r, -, hs⟩
  unfold guarded at hs
  split_ifs at hs with hP
  exact ⟨op, r, hP, hs⟩

end FreeBSD.Lib
