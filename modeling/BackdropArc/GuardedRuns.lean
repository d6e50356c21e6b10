import Mathlib.Logic.Basic

/-!
# Runs of a fallible step function

A system is a step function that may stop with an error.  A run starts in one
state and takes only the steps that a guard admits.  An invariant of every
admitted step is an invariant of every state a run reaches.
-/

universe u

namespace GuardedRuns

variable {State Action Stop : Type*}

/-- The states reached from `start` by successful steps that `admits` allows. -/
inductive Reaches (step : State → Action → Except Stop State)
    (admits : State → Action → Prop) (start : State) : State → Prop
  | refl : Reaches step admits start start
  | tail {current next : State} (action : Action) :
      Reaches step admits start current → admits current action →
        step current action = .ok next → Reaches step admits start next

namespace Reaches

variable {step : State → Action → Except Stop State}
  {admits admits' : State → Action → Prop} {start middle last : State}

/-- What holds initially and survives every admitted step holds of every
reached state. -/
theorem invariant {holds : State → Prop}
    (reached : Reaches step admits start last) (initial : holds start)
    (preserved : ∀ current action next, holds current →
      admits current action → step current action = .ok next → holds next) :
    holds last := by
  induction reached with
  | refl => exact initial
  | tail action _ admitted stepped ih =>
      exact preserved _ action _ ih admitted stepped

theorem trans (first : Reaches step admits start middle)
    (second : Reaches step admits middle last) :
    Reaches step admits start last := by
  induction second with
  | refl => exact first
  | tail action _ admitted stepped ih => exact ih.tail action admitted stepped

theorem mono (weaker : ∀ state action, admits state action → admits' state action)
    (reached : Reaches step admits start last) :
    Reaches step admits' start last := by
  induction reached with
  | refl => exact .refl
  | tail action _ admitted stepped ih =>
      exact ih.tail action (weaker _ action admitted) stepped

end Reaches

/-! ## Runs that remember their steps -/

/-- A step that was taken, between the states before and after it. -/
structure Transition (State Action : Type*) where
  before : State
  action : Action
  after : State

/-- The states reached, each with the steps that led there. -/
inductive Trail (step : State → Action → Except Stop State)
    (admits : State → Action → Prop) (start : State) :
    List (Transition State Action) → State → Prop
  | refl : Trail step admits start [] start
  | tail {path : List (Transition State Action)} {current next : State}
      (action : Action) : Trail step admits start path current →
      admits current action → step current action = .ok next →
      Trail step admits start (path ++ [⟨current, action, next⟩]) next

namespace Trail

variable {step : State → Action → Except Stop State} {admits : State → Action → Prop}
  {start last : State} {path : List (Transition State Action)}

theorem invariant {holds : List (Transition State Action) → State → Prop}
    (trail : Trail step admits start path last) (initial : holds [] start)
    (preserved : ∀ path current action next, holds path current →
      admits current action → step current action = .ok next →
      holds (path ++ [⟨current, action, next⟩]) next) : holds path last := by
  induction trail with
  | refl => exact initial
  | tail action _ admitted stepped ih =>
      exact preserved _ _ action _ ih admitted stepped

theorem reaches (trail : Trail step admits start path last) :
    Reaches step admits start last := by
  induction trail with
  | refl => exact .refl
  | tail action _ admitted stepped ih => exact ih.tail action admitted stepped

theorem of_reaches (reached : Reaches step admits start last) :
    ∃ path, Trail step admits start path last := by
  induction reached with
  | refl => exact ⟨[], .refl⟩
  | tail action _ admitted stepped ih =>
      obtain ⟨path, trail⟩ := ih
      exact ⟨_, trail.tail action admitted stepped⟩

/-- A rank that the counted steps lower and no step raises bounds their number. -/
theorem countP_add_le {rank : State → Nat} {counted : Action → Bool}
    (trail : Trail step admits start path last)
    (lowers : ∀ current action next, admits current action → step current action = .ok next →
      rank next + (counted action).toNat ≤ rank current) :
    path.countP (fun moment => counted moment.action) + rank last ≤ rank start := by
  induction trail with
  | refl => simp
  | tail action _ admitted stepped ih =>
      have lower := lowers _ action _ admitted stepped
      rw [List.countP_append, List.countP_singleton]
      cases counts : counted action <;> simp [counts] at lower ⊢ <;> omega

/-- A rank that every step lowers bounds the length of a run. -/
theorem length_add_le {rank : State → Nat} (trail : Trail step admits start path last)
    (lowers : ∀ current action next, admits current action → step current action = .ok next →
      rank next < rank current) : path.length + rank last ≤ rank start := by
  have bound : path.countP (fun moment => Function.const Action true moment.action) +
      rank last ≤ rank start := by
    apply trail.countP_add_le
    intro current action next admitted stepped
    exact lowers current action next admitted stepped
  simpa using bound

/-- A map of states that carries the admitted steps between live states of one
system to the same steps of another carries its trails, as long as they live. -/
theorem map {Other : Type*} {other : Other → Action → Except Stop Other}
    {admits' : Other → Action → Prop} {live : State → Prop} {holds : State → Prop}
    (lower : State → Other)
    (preserved : ∀ current action next, holds current → admits current action →
      step current action = .ok next → holds next)
    (lives : ∀ current action, holds current → admits current action → live current)
    (carries : ∀ current action next, holds current → admits current action →
      live next → step current action = .ok next →
      admits' (lower current) action ∧ other (lower current) action = .ok (lower next))
    (trail : Trail step admits start path last) (initial : holds start)
    (lively : live last) :
    holds last ∧ ∃ path', Trail other admits' (lower start) path' (lower last) ∧
      path'.map Transition.action = path.map Transition.action := by
  induction trail with
  | refl => exact ⟨initial, [], .refl, rfl⟩
  | tail action before admitted stepped ih =>
      have good := before.reaches.invariant initial preserved
      obtain ⟨_, path', trail', same⟩ := ih (lives _ action good admitted)
      obtain ⟨admitted', stepped'⟩ := carries _ action _ good admitted lively stepped
      refine ⟨preserved _ action _ good admitted stepped, _,
        trail'.tail action admitted' stepped', ?_⟩
      simp only [List.map_append, same, List.map_cons, List.map_nil]

end Trail

/-- Take the listed steps as long as the guard admits them. -/
def follow (step : State → Action → Except Stop State)
    (admits : State → Action → Prop)
    [∀ state action, Decidable (admits state action)] :
    State → List Action → Option State
  | state, [] => some state
  | state, action :: actions =>
      if admits state action then
        match step state action with
        | .ok next => follow step admits next actions
        | .error _ => none
      else none

/-- A list of admitted steps is a run. -/
theorem reaches_of_follow {step : State → Action → Except Stop State}
    {admits : State → Action → Prop}
    [∀ state action, Decidable (admits state action)] {start last : State}
    (actions : List Action) (followed : follow step admits start actions = some last) :
    Reaches step admits start last := by
  induction actions generalizing start with
  | nil =>
      obtain rfl : start = last := Option.some.inj followed
      exact .refl
  | cons action actions ih =>
      simp only [follow] at followed
      split at followed
      · next admitted =>
          split at followed
          · next next stepped =>
              exact (Reaches.refl.tail action admitted stepped).trans (ih followed)
          · simp at followed
      · simp at followed

/-- A run that stops does so at a state that it reached. -/
theorem exists_stop_of_run {step : State → Action → Except Stop State}
    {start : State} {stop : Stop} (actions : List Action)
    (stopped : actions.foldlM step start = .error stop) :
    ∃ current action, Reaches step (fun _ _ => True) start current ∧
      step current action = .error stop := by
  induction actions generalizing start with
  | nil => cases stopped
  | cons action actions ih =>
      rw [List.foldlM_cons] at stopped
      cases stepped : step start action with
      | error other =>
          rw [stepped] at stopped
          cases stopped
          exact ⟨start, action, .refl, stepped⟩
      | ok next =>
          rw [stepped] at stopped
          obtain ⟨current, last, reached, stops⟩ := ih stopped
          have first : Reaches step (fun _ _ => True) start next :=
            Reaches.refl.tail action trivial stepped
          exact ⟨current, last, first.trans reached, stops⟩

theorem bind_eq_ok {First Second : Type u} {first : Except Stop First}
    {second : First → Except Stop Second} {result : Second} :
    (first >>= second) = .ok result ↔
      ∃ value, first = .ok value ∧ second value = .ok result := by
  cases first with
  | error stop => simp [bind, Except.bind]
  | ok value => simp [bind, Except.bind]

theorem map_eq_ok {First Second : Type u} {change : First → Second}
    {result : Except Stop First} {value : Second} :
    change <$> result = .ok value ↔ ∃ first, result = .ok first ∧ change first = value := by
  cases result with
  | error stop => simp [Functor.map, Except.map]
  | ok first => simp [Functor.map, Except.map]

def demand (condition : Prop) [Decidable condition] (stop : Stop) :
    Except Stop Unit :=
  if condition then .ok () else .error stop

theorem demand_eq_ok {condition : Prop} [Decidable condition] {stop : Stop}
    {value : Unit} : demand condition stop = .ok value ↔ condition := by
  unfold demand
  split <;> simp_all

def demandSome {Value : Type*} (value? : Option Value) (stop : Stop) :
    Except Stop Value :=
  match value? with
  | some value => .ok value
  | none => .error stop

theorem demandSome_eq_ok {Value : Type*} {value? : Option Value}
    {stop : Stop} {value : Value} :
    demandSome value? stop = .ok value ↔ value? = some value := by
  cases value? <;> simp [demandSome]

/-! ## Computations that never stop for a bad reason -/

/-- The computation does not stop for a reason that counts as bad. -/
def Avoids (bad : Stop → Prop) {Value : Type*} (result : Except Stop Value) : Prop :=
  ∀ stop, result = .error stop → ¬ bad stop

section Avoids

variable {bad : Stop → Prop}

theorem avoids_ok {Value : Type*} {result : Except Stop Value} {value : Value}
    (succeeds : result = .ok value) : Avoids bad result := by
  simp [Avoids, succeeds]

theorem avoids_error {Value : Type*} {stop : Stop} (harmless : ¬ bad stop) :
    Avoids bad (.error stop : Except Stop Value) := by
  intro other same
  obtain rfl := Except.error.inj same
  exact harmless

theorem avoids_demand {condition : Prop} [Decidable condition] {stop : Stop}
    (harmless : ¬ bad stop) : Avoids bad (demand condition stop) := by
  unfold demand
  split
  · exact avoids_ok rfl
  · exact avoids_error harmless

theorem avoids_demandSome {Value : Type*} {value? : Option Value} {stop : Stop}
    (harmless : ¬ bad stop) : Avoids bad (demandSome value? stop) := by
  cases value? with
  | none => exact avoids_error harmless
  | some value => exact avoids_ok rfl

theorem Avoids.bind {First Second : Type u} {first : Except Stop First}
    {second : First → Except Stop Second} (avoids : Avoids bad first)
    (rest : ∀ value, first = .ok value → Avoids bad (second value)) :
    Avoids bad (first >>= second) := by
  cases result : first with
  | error stop => exact avoids_error (avoids stop result)
  | ok value => exact rest value result

theorem Avoids.map {First Second : Type u} {result : Except Stop First}
    (avoids : Avoids bad result) (change : First → Second) :
    Avoids bad (change <$> result) := by
  cases result with
  | error stop => exact avoids_error (avoids stop rfl)
  | ok value => exact avoids_ok rfl

end Avoids

end GuardedRuns
