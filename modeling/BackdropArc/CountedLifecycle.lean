import Mathlib.Data.List.Basic

/-!
# The life of a counted object

An object shared by reference counting is created with one reference, gains
and loses references while at least one remains, and then ends in one of two
ways: the release of its last reference hands it to a finalizer, or its only
holder takes the contents out.  The visible events of a whole life are
therefore determined by the phase it has reached.
-/

namespace CountedLifecycle

variable {Who : Type*}

/-- Where an object is in its life.  A live object has one reference and
`others` more, so a live object without references cannot be stated. -/
inductive Phase (Who : Type*)
  | unborn
  | live (others : Nat)
  | dying (releaser : Who)
  | gone

/-- The events of a life that are not mere changes of the count. -/
inductive Event (Who : Type*)
  | lastRelease (releaser : Who)
  | finalize (finalizer : Who)
  | takeOut (taker : Who)
  deriving DecidableEq

/-- The events that end an object's life. -/
def Event.disposes : Event Who → Bool
  | .lastRelease _ => false
  | .finalize _ | .takeOut _ => true

/-- One step of a life together with the events it shows. -/
inductive Step : Phase Who → List (Event Who) → Phase Who → Prop
  | stay (phase : Phase Who) : Step phase [] phase
  | create : Step .unborn [] (.live 0)
  | acquire (others more : Nat) : Step (.live others) [] (.live (others + more))
  | release (others fewer : Nat) : Step (.live (others + fewer)) [] (.live others)
  | lastRelease (who : Who) : Step (.live 0) [.lastRelease who] (.dying who)
  | finalize (who : Who) : Step (.dying who) [.finalize who] .gone
  | takeOut (who : Who) : Step (.live 0) [.takeOut who] .gone

/-- The event traces of lives that start unborn, with the phase reached. -/
inductive Life : List (Event Who) → Phase Who → Prop
  | unborn : Life [] .unborn
  | next {trace events : List (Event Who)} {before after : Phase Who} :
      Life trace before → Step before events after → Life (trace ++ events) after

namespace Life

/-- The whole visible history that a phase allows. -/
def Shape (trace : List (Event Who)) : Phase Who → Prop
  | .unborn | .live _ => trace = []
  | .dying who => trace = [.lastRelease who]
  | .gone =>
      (∃ who, trace = [.lastRelease who, .finalize who]) ∨
        ∃ who, trace = [.takeOut who]

theorem shape {trace : List (Event Who)} {phase : Phase Who}
    (life : Life trace phase) : Shape trace phase := by
  induction life with
  | unborn => rfl
  | next _ step ih =>
      cases step with
      | stay => simpa using ih
      | create | acquire | release => simpa [Shape] using ih
      | lastRelease who =>
          have fresh : _ = [] := ih
          simp [Shape, fresh]
      | finalize who =>
          have released : _ = [Event.lastRelease who] := ih
          exact Or.inl ⟨who, by simp [released]⟩
      | takeOut who =>
          have fresh : _ = [] := ih
          exact Or.inr ⟨who, by simp [fresh]⟩

/-- No life is ended twice, and exactly the lives that are gone have ended. -/
theorem countP_disposes {trace : List (Event Who)} {phase : Phase Who}
    (life : Life trace phase) :
    trace.countP Event.disposes = 1 ∧ phase = .gone ∨
      trace.countP Event.disposes = 0 ∧ phase ≠ .gone := by
  have history := life.shape
  cases phase with
  | unborn | live =>
      have fresh : trace = [] := history
      simp [fresh]
  | dying who =>
      have released : trace = [.lastRelease who] := history
      simp [released, Event.disposes]
  | gone =>
      rcases history with ⟨who, ended⟩ | ⟨who, ended⟩ <;>
        simp [ended, Event.disposes]

/-- A finalizer ran only after the same party released the last reference,
and no other party ever released a last reference. -/
theorem lastRelease_of_finalize {trace : List (Event Who)}
    {phase : Phase Who} (life : Life trace phase) {who : Who}
    (finalized : .finalize who ∈ trace) :
    trace = [.lastRelease who, .finalize who] := by
  have history := life.shape
  cases phase with
  | unborn | live =>
      have fresh : trace = [] := history
      simp [fresh] at finalized
  | dying releaser =>
      have released : trace = [.lastRelease releaser] := history
      simp [released] at finalized
  | gone =>
      rcases history with ⟨other, ended⟩ | ⟨other, ended⟩
      · have same : who = other := by simpa [ended] using finalized
        rw [ended, same]
      · simp [ended] at finalized

end Life

end CountedLifecycle
