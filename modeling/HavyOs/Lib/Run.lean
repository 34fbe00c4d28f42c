import Mathlib.Logic.Basic

/-!
# Runs of a system

A system is a step relation labelled by the operation that is issued, or a function
that also answers. A run issues operations one after the other. An invariant of a run
is what one step preserves, and two systems that answer alike at every step from
related states answer alike over whole runs. A run under a condition is a run of the
step relation restricted to the states and operations that meet it.
-/

namespace HavyOs.Lib

section Relation

variable {σ ι : Type}

/-- `ops`, issued one after the other from `s`, can lead to `s'`. -/
inductive Run (step : σ → ι → σ → Prop) : σ → List ι → σ → Prop where
  | nil (s : σ) : Run step s [] s
  | cons {s s₁ s' : σ} {op : ι} {ops : List ι} : step s op s₁ → Run step s₁ ops s' → Run step s (op :: ops) s'

variable {step : σ → ι → σ → Prop} {s s' : σ} {ops : List ι}

/-- What one step preserves a run preserves. -/
theorem Run.invariant {I : σ → Prop} (run : Run step s ops s') (preserved : ∀ s op s', I s → step s op s' → I s')
    (start : I s) : I s' := by
  induction run with
  | nil => exact start
  | cons first _ ih => exact ih (preserved _ _ _ start first)

/-- What the steps of admitted operations preserve a run of admitted operations preserves. -/
theorem Run.invariant_where {admits : ι → Prop} {I : σ → Prop} (run : Run step s ops s')
    (admitted : ∀ op ∈ ops, admits op) (preserved : ∀ s op s', admits op → I s → step s op s' → I s') (start : I s) :
    I s' := by
  induction run with
  | nil => exact start
  | cons first _ ih =>
    exact ih (fun op member => admitted op (List.mem_cons_of_mem _ member))
      (preserved _ _ _ (admitted _ List.mem_cons_self) start first)

/-- A run of the steps of one system is a run of another that has these steps. -/
theorem Run.weaken {step' : σ → ι → σ → Prop} (run : Run step s ops s')
    (allowed : ∀ s op s', step s op s' → step' s op s') : Run step' s ops s' := by
  induction run with
  | nil => exact .nil _
  | cons first _ ih => exact .cons (allowed _ _ _ first) ih

/-- A run can be cut at any operation. -/
theorem Run.of_append {before after : List ι} (run : Run step s (before ++ after) s') :
    ∃ middle, Run step s before middle ∧ Run step middle after s' := by
  induction before generalizing s with
  | nil => exact ⟨s, .nil s, run⟩
  | cons op before ih =>
    cases run with
    | cons first rest =>
      obtain ⟨middle, left, right⟩ := ih rest
      exact ⟨middle, .cons first left, right⟩

/-- The steps of `step` that a condition on the state and the operation admits. -/
def guarded (guard : σ → ι → Prop) (step : σ → ι → σ → Prop) (s : σ) (op : ι) (s' : σ) : Prop :=
  guard s op ∧ step s op s'

/-- The state that `ops` lead to under a partial step function, if every step can be made. -/
def runSteps (exec : σ → ι → Option σ) : List ι → σ → Option σ
  | [], s => some s
  | op :: ops, s => (exec s op).bind (runSteps exec ops)

/-- A computed run is a run of every step relation that has the computed steps. -/
theorem Run.of_runSteps {exec : σ → ι → Option σ} (sound : ∀ s op s', exec s op = some s' → step s op s') :
    ∀ {ops : List ι} {s : σ}, runSteps exec ops s = some s' → Run step s ops s' := by
  intro ops
  induction ops with
  | nil =>
    intro s made
    cases made
    exact .nil _
  | cons op ops ih =>
    intro s made
    obtain ⟨s₁, first, later⟩ := Option.bind_eq_some_iff.mp made
    exact .cons (sound s op s₁ first) (ih later)

end Relation

section Answers

variable {σ τ ι α : Type}

def answers (step : σ → ι → α × σ) : σ → List ι → List α
  | _, [] => []
  | s, op :: ops => (step s op).1 :: answers step (step s op).2 ops

/-- Systems that answer alike from related states, and stay related, answer alike in every run. -/
theorem answers_eq {step : σ → ι → α × σ} {step' : τ → ι → α × τ} {R : σ → τ → Prop} {admits : ι → Prop}
    (simulate : ∀ s t op, R s t → admits op → (step s op).1 = (step' t op).1 ∧ R (step s op).2 (step' t op).2) :
    ∀ (ops : List ι) {s : σ} {t : τ}, R s t → (∀ op ∈ ops, admits op) → answers step s ops = answers step' t ops := by
  intro ops
  induction ops with
  | nil => exact fun _ _ => rfl
  | cons op ops ih =>
    intro s t related admitted
    obtain ⟨same, next⟩ := simulate s t op related (admitted op (by simp))
    rw [answers, answers, same, ih next fun op member => admitted op (by simp [member])]

end Answers

end HavyOs.Lib
