import Mathlib.Algebra.BigOperators.Group.List.Basic
import Mathlib.Logic.Basic
import Mathlib.Tactic.Ring

/-!
# Systems that run in lockstep

A system with outputs is a step function that may stop with an error.  If a
map of states carries every step of one system to the same step of another,
then all their runs show the same outputs and end in the same way.
-/

namespace LockstepRuns

variable {State Other Action Output Stop : Type*}

/-- Take the listed steps until one stops: the outputs shown, and the last state
or the error. -/
def run (step : State → Action → Except Stop (State × Output)) :
    State → List Action → List Output × Except Stop State
  | state, [] => ([], .ok state)
  | state, action :: actions =>
      match step state action with
      | .ok (next, output) =>
          (output :: (run step next actions).1, (run step next actions).2)
      | .error stop => ([], .error stop)

section Invariant

variable {step : State → Action → Except Stop (State × Output)}
  {holds : State → Prop}

/-- What survives every step holds at the end of every run. -/
theorem run_invariant
    (preserved : ∀ state action next output, holds state →
      step state action = .ok (next, output) → holds next)
    {state last : State} {actions : List Action} (initial : holds state)
    (ends : (run step state actions).2 = .ok last) : holds last := by
  induction actions generalizing state with
  | nil =>
      obtain rfl : state = last := Except.ok.inj ends
      exact initial
  | cons action actions ih =>
      cases stepped : step state action with
      | error stop => simp [run, stepped] at ends
      | ok result =>
          obtain ⟨next, output⟩ := result
          simp only [run, stepped] at ends
          exact ih (preserved state action next output initial stepped) ends

theorem run_avoids {bad : Stop → Prop}
    (preserved : ∀ state action next output, holds state →
      step state action = .ok (next, output) → holds next)
    (avoids : ∀ state action stop, holds state →
      step state action = .error stop → ¬ bad stop)
    {state : State} {actions : List Action} {stop : Stop} (initial : holds state)
    (ends : (run step state actions).2 = .error stop) : ¬ bad stop := by
  induction actions generalizing state with
  | nil => simp [run] at ends
  | cons action actions ih =>
      cases stepped : step state action with
      | error reason =>
          simp only [run, stepped, Except.error.injEq] at ends
          subst ends
          exact avoids state action reason initial stepped
      | ok result =>
          obtain ⟨next, output⟩ := result
          simp only [run, stepped] at ends
          exact ih (preserved state action next output initial stepped) ends

/-- What every step shows while an invariant holds, whole runs show. -/
theorem run_shows {shows : Output → Prop}
    (preserved : ∀ state action next output, holds state →
      step state action = .ok (next, output) → holds next ∧ shows output)
    {state : State} (actions : List Action) (initial : holds state) :
    ∀ output ∈ (run step state actions).1, shows output := by
  induction actions generalizing state with
  | nil => simp [run]
  | cons action actions ih =>
      cases stepped : step state action with
      | error stop => simp [run, stepped]
      | ok result =>
          obtain ⟨next, output⟩ := result
          obtain ⟨holdsNext, shown⟩ := preserved state action next output initial stepped
          simp only [run, stepped, List.forall_mem_cons]
          exact ⟨shown, ih holdsNext⟩

/-- A tally that each step changes by the action's gains and losses is changed
by a run by the sums of them. -/
theorem run_balance {tally : State → Nat → Prop} {gains losses : Action → Nat}
    (balanced : ∀ state action next output count, tally state count →
      step state action = .ok (next, output) →
        ∃ count', tally next count' ∧ count' + losses action = count + gains action)
    {state last : State} {actions : List Action} {count : Nat}
    (initial : tally state count) (ends : (run step state actions).2 = .ok last) :
    ∃ count', tally last count' ∧
      count' + (actions.map losses).sum = count + (actions.map gains).sum := by
  induction actions generalizing state count with
  | nil =>
      obtain rfl : state = last := Except.ok.inj ends
      exact ⟨count, initial, rfl⟩
  | cons action actions ih =>
      cases stepped : step state action with
      | error stop => simp [run, stepped] at ends
      | ok result =>
          obtain ⟨next, output⟩ := result
          simp only [run, stepped] at ends
          obtain ⟨middle, there, first⟩ := balanced _ _ _ _ _ initial stepped
          obtain ⟨count', tallied, rest⟩ := ih there ends
          refine ⟨count', tallied, ?_⟩
          simp only [List.map_cons, List.sum_cons]
          omega

end Invariant

/-- The map carries every step from a state that satisfies the invariant. -/
def Carries (lower : State → Other) (holds : State → Prop)
    (step : State → Action → Except Stop (State × Output))
    (other : Other → Action → Except Stop (Other × Output)) : Prop :=
  ∀ state action, holds state →
    other (lower state) action = (step state action).map (Prod.map lower id)

/-- Systems in lockstep show the same outputs and end in the same way. -/
theorem Carries.run_eq {lower : State → Other} {holds : State → Prop}
    {step : State → Action → Except Stop (State × Output)}
    {other : Other → Action → Except Stop (Other × Output)}
    (carries : Carries lower holds step other)
    (preserved : ∀ state action next output, holds state →
      step state action = .ok (next, output) → holds next)
    {state : State} (actions : List Action) (initial : holds state) :
    run other (lower state) actions =
      Prod.map id (Except.map lower) (run step state actions) := by
  induction actions generalizing state with
  | nil => rfl
  | cons action actions ih =>
      have carried := carries state action initial
      cases stepped : step state action with
      | error stop =>
          rw [stepped] at carried
          simp [run, stepped, carried, Except.map]
      | ok result =>
          obtain ⟨next, output⟩ := result
          rw [stepped] at carried
          have rest := ih (preserved state action next output initial stepped)
          simp [run, stepped, carried, Except.map, rest]

end LockstepRuns
