import Mathlib.Logic.Basic

/-!
# Code that may be left early

A computation on a state either returns a value or is left for some reason, and
the state that it reached is kept in both cases.  A specification names what
holds on return and what holds on an exit; there is one rule for each way to put
computations together.
-/

universe u

namespace UnwindingCode

variable {Exit State Value Next : Type u}

/-- From every state that satisfies the precondition, the code returns or exits
as specified. -/
def Spec (before : State → Prop) (code : EStateM Exit State Value)
    (returns : Value → State → Prop) (exits : Exit → State → Prop) : Prop :=
  ∀ state, before state →
    match code state with
    | .ok value after => returns value after
    | .error exit after => exits exit after

/-- Run the code as often as counted, each time on the value it returned. -/
def iterate (code : Value → EStateM Exit State Value) :
    Nat → Value → EStateM Exit State Value
  | 0, value => pure value
  | count + 1, value => do
      let next ← code value
      iterate code count next

/-- Run the cleanup if the code is left, and leave it for the same reason. -/
def onExit (cleanup : Exit → State → State) (code : EStateM Exit State Value) :
    EStateM Exit State Value := fun state =>
  match code state with
  | .ok value after => .ok value after
  | .error exit after => .error exit (cleanup exit after)

namespace Spec

variable {before before' : State → Prop} {code : EStateM Exit State Value}
  {returns returns' : Value → State → Prop} {exits exits' : Exit → State → Prop}

theorem consequence (spec : Spec before code returns exits)
    (weaker : ∀ state, before' state → before state)
    (stronger : ∀ value state, returns value state → returns' value state)
    (strongerExit : ∀ exit state, exits exit state → exits' exit state) :
    Spec before' code returns' exits' := by
  intro state holds
  have result := spec state (weaker state holds)
  cases ran : code state with
  | ok value after =>
      rw [ran] at result
      exact stronger value after result
  | error exit after =>
      rw [ran] at result
      exact strongerExit exit after result

/-- A fact that does not depend on the state can be assumed. -/
theorem assuming {fact : Prop} (spec : fact → Spec before code returns exits) :
    Spec (fun state => fact ∧ before state) code returns exits :=
  fun state holds => spec holds.1 state holds.2

theorem pure {value : Value} (holds : ∀ state, before state → returns value state) :
    Spec before (pure value) returns exits :=
  fun state initial => holds state initial

theorem throw {exit : Exit} (holds : ∀ state, before state → exits exit state) :
    Spec before (throw exit : EStateM Exit State Value) returns exits :=
  fun state initial => holds state initial

theorem modify {change : State → State} {returns : PUnit → State → Prop}
    (holds : ∀ state, before state → returns ⟨⟩ (change state)) :
    Spec before (modify change : EStateM Exit State PUnit) returns exits :=
  fun state initial => holds state initial

theorem bind {rest : Value → EStateM Exit State Next}
    {returns' : Next → State → Prop} (first : Spec before code returns exits)
    (second : ∀ value, Spec (returns value) (rest value) returns' exits) :
    Spec before (code >>= rest) returns' exits := by
  intro state holds
  have result := first state holds
  cases ran : code state with
  | ok value after =>
      rw [ran] at result
      have continued := second value after result
      simpa only [Bind.bind, EStateM.bind, ran] using continued
  | error exit after =>
      rw [ran] at result
      simpa only [Bind.bind, EStateM.bind, ran] using result

/-- The invariant of a loop, which knows how often the code has run. -/
theorem iterate {code : Value → EStateM Exit State Value}
    {holds : Nat → Value → State → Prop} {count : Nat} (value : Value)
    (step : ∀ done value, done < count →
      Spec (holds done value) (code value) (holds (done + 1)) exits) :
    Spec (holds 0 value) (iterate code count value) (holds count) exits := by
  have remaining (left : Nat) : ∀ done value, done + left = count →
      Spec (holds done value) (UnwindingCode.iterate code left value) (holds count) exits := by
    induction left with
    | zero =>
        intro done value total
        obtain rfl : done = count := total
        exact Spec.pure fun _ initial => initial
    | succ left ih =>
        intro done value total
        exact (step done value (by omega)).bind fun next => ih (done + 1) next (by omega)
  exact remaining count 0 value (by omega)

theorem onExit {cleanup : Exit → State → State}
    (spec : Spec before code returns fun exit state => exits exit (cleanup exit state)) :
    Spec before (onExit cleanup code) returns exits := by
  intro state holds
  have result := spec state holds
  unfold UnwindingCode.onExit
  cases ran : code state with
  | ok value after =>
      rw [ran] at result
      exact result
  | error exit after =>
      rw [ran] at result
      exact result

end Spec

end UnwindingCode
