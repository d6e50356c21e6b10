import BackdropArc.RelaxedPublication

/-!
# Safety of the orderings in the source

With a release in `drop`, and an acquire before the destructor and in the
uniqueness test, no run has a data race or touches memory that was given back.
These orderings are also necessary: without any of them some program that
respects the borrow rules has a data race.
-/

namespace BackdropArc.RelaxedMemory

open GuardedRuns ReleaseHistory

theorem not_faulty_refused : ¬ Fault.refused.Faulty :=
  Stop.not_faulty_refused

theorem not_faulty_aborted : ¬ (Fault.stop .aborted).Faulty :=
  Stop.not_faulty_aborted

namespace Machine

variable {N : Nat} {word : MachineWord} {o : Orderings} {m next : Machine N}
  {t : Fin N} {key k i : Nat} {holder : Holder} {access : Access}

/-! ## Accesses that are safe -/

theorem avoids_perform (performs : m.Performs t access) :
    Avoids Fault.Faulty (m.perform t access) :=
  avoids_ok (perform_eq_ok.mpr ⟨performs, rfl⟩)

/-- A thread that knows of every access may make any. -/
theorem performs_of_knowsAll (alive : m.freed = false) (all : m.KnowsAll (m.knows t)) :
    m.Performs t access :=
  ⟨alive, fun e _ => all e.isLt⟩

/-- Knowing of the exclusive accesses is enough to read, and to use the count. -/
theorem Published.performs_of_exclusive (published : m.Published o)
    (alive : m.freed = false) (known : m.KnowsExclusive (m.knows t))
    (shared : access = .count ∨ access = .read) : m.Performs t access := by
  refine ⟨alive, fun e conflict => ?_⟩
  have made : m.accesses[e.val]? = some (m.accesses.get e) := by simp
  refine known made ?_
  cases earlier : m.accesses.get e with
  | create => exact Or.inl rfl
  | write => exact Or.inr rfl
  | free => exact absurd (earlier ▸ m.accesses.get_mem e) (published.unfreed alive)
  | count | read =>
      rw [earlier] at conflict
      rcases shared with rfl | rfl <;> simp [Access.conflicts] at conflict

theorem Published.performs_of_found (published : m.Published o) (sound : m.Sound word)
    (found : m.holders.get? key = some holder) (owned_le : holder.owned ≤ m.knows t)
    (shared : access = .count ∨ access = .read) : m.Performs t access :=
  published.performs_of_exclusive (sound.alive found)
    ((published.known found).mono owned_le) shared

/-- Who holds a unique handle exclusively knows of every access. -/
theorem Published.knowsAll_of_unique (published : m.Published o) (sound : m.Sound word)
    (takes : m.Takes t key holder) (kind : holder.kind = .handle true) :
    m.KnowsAll (m.knows t) := by
  have total := sound.counting.unique takes.found kind
  have owns := refs_of_handle kind
  have least := refs_le_references takes.found
  have alive := sound.alive takes.found
  intro e inside
  rcases published.covered alive (by omega) inside with
    released | ⟨key', other, found, known⟩ | ⟨u, slow, _⟩ | ⟨view, given, _⟩
  · exact takes.view_le.2 ((published.unique takes.found kind).2 released)
  · obtain rfl := sound.eq_of_unique takes.found total kind takes.free found
    rw [takes.found] at found
    cases found
    exact takes.view_le.2 known
  · have gone := (sound.of_ending (by rw [slow]; rfl)).1
    omega
  · have gone := (sound.of_given given).1
    omega

/-! ## No operation fails for a bad reason -/

theorem avoids_closure {α : Type} {result : Except Stop α}
    (harmless : ∀ stop, result = .error stop → stop = .aborted) :
    Avoids Fault.Faulty (closure result) := by
  cases outcome : result with
  | ok value => exact avoids_ok rfl
  | error stop =>
      rw [harmless stop outcome]
      exact avoids_error not_faulty_aborted

theorem avoids_cloneManyUpdate (count value : Nat) :
    Avoids Fault.Faulty (closure (cloneManyUpdate word count value)) := by
  refine avoids_closure fun stop => ?_
  unfold cloneManyUpdate
  split
  · simp [eq_comm]
  split <;> simp [eq_comm]

theorem avoids_dropIterUpdate (arcsLeft value : Nat) :
    Avoids Fault.Faulty (closure (dropIterUpdate arcsLeft value)) := by
  refine avoids_closure fun stop => ?_
  unfold dropIterUpdate
  split <;> simp [eq_comm]

theorem avoids_borrow (m : Machine N) (t : Fin N) (key : Nat) :
    Avoids Fault.Faulty (m.borrow t key) :=
  (avoids_demandSome not_faulty_refused).bind fun _ _ =>
    (avoids_demand not_faulty_refused).bind fun _ _ => avoids_ok rfl

theorem avoids_take (m : Machine N) (t : Fin N) (key : Nat) :
    Avoids Fault.Faulty (m.take t key) :=
  (avoids_demandSome not_faulty_refused).bind fun _ _ =>
    (avoids_demand not_faulty_refused).bind fun _ _ => avoids_ok rfl

theorem avoids_borrowArc (m : Machine N) (t : Fin N) (key : Nat) :
    Avoids Fault.Faulty (m.borrowArc t key) :=
  (avoids_borrow m t key).bind fun _ _ =>
    (avoids_demand not_faulty_refused).bind fun _ _ => avoids_ok rfl

theorem avoids_takeIter (m : Machine N) (t : Fin N) (key : Nat) :
    Avoids Fault.Faulty (m.takeIter t key) := by
  refine (avoids_take m t key).bind fun holder _ => ?_
  cases holder.kind with
  | handle | cloned => exact avoids_error not_faulty_refused
  | iter =>
      exact (avoids_demandSome not_faulty_refused).bind fun _ _ => avoids_ok rfl

/-- In a state with nothing forgotten no step races or comes too late. -/
theorem Published.avoids_step (published : m.Published o) (sound : m.Sound word)
    (t : Fin N) (action : Action) :
    Avoids Fault.Faulty (step word o m (t, action)) := by
  have refuses {condition : Prop} [Decidable condition] :
      Avoids Fault.Faulty (demand condition Fault.refused) :=
    avoids_demand not_faulty_refused
  have shared {key : Nat} {holder : Holder} {access : Access}
      (borrowed : m.borrow t key = .ok holder) (plain : access = .count ∨ access = .read) :
      Avoids Fault.Faulty (m.perform t access) := by
    obtain ⟨found, _, owned_le⟩ := borrow_eq_ok.mp borrowed
    exact avoids_perform (published.performs_of_found sound found owned_le plain)
  have sharedArc {key : Nat} {holder : Holder} {access : Access}
      (borrowed : m.borrowArc t key = .ok holder)
      (plain : access = .count ∨ access = .read) :
      Avoids Fault.Faulty (m.perform t access) :=
    shared (borrow_eq_ok.mpr (borrowArc_eq_ok.mp borrowed).1) plain
  have taken {key : Nat} {holder : Holder} {access : Access}
      (takes : m.Takes t key holder) (plain : access = .count ∨ access = .read) :
      Avoids Fault.Faulty (m.perform t access) :=
    avoids_perform (published.performs_of_found sound takes.found
      (le_sup_left.trans takes.view_le) plain)
  have alone {key : Nat} {holder : Holder} {access : Access}
      (held : m.take t key = .ok holder) (kind : holder.kind = .handle true) :
      Avoids Fault.Faulty (m.perform t access) := by
    have takes := take_eq_ok.mp held
    exact avoids_perform (performs_of_knowsAll (sound.alive takes.found)
      (published.knowsAll_of_unique sound takes kind))
  cases action with
  | post => exact refuses.bind fun _ _ => avoids_ok rfl
  | receive i =>
      exact refuses.bind fun _ _ =>
        (avoids_demandSome not_faulty_refused).bind fun _ _ => avoids_ok rfl
  | read key =>
      exact (avoids_borrow m t key).bind fun _ borrowed => refuses.bind fun _ _ =>
        (shared borrowed (Or.inr rfl)).bind fun _ _ => avoids_ok rfl
  | write key =>
      exact (avoids_take m t key).bind fun _ held => refuses.bind fun _ kind =>
        (alone held (demand_eq_ok.mp kind)).bind fun _ _ => avoids_ok rfl
  | clone key =>
      exact (avoids_borrowArc m t key).bind fun _ borrowed =>
        (sharedArc borrowed (Or.inl rfl)).bind fun _ _ => avoids_ok rfl
  | cloneManyRetry key count i =>
      exact (avoids_borrowArc m t key).bind fun _ borrowed => refuses.bind fun _ _ =>
        (sharedArc borrowed (Or.inl rfl)).bind fun _ _ =>
          (avoids_cloneManyUpdate _ _).bind fun _ _ => avoids_ok rfl
  | cloneMany key count =>
      exact (avoids_borrowArc m t key).bind fun _ borrowed =>
        (sharedArc borrowed (Or.inl rfl)).bind fun _ _ =>
          (avoids_cloneManyUpdate _ _).bind fun _ _ => avoids_ok rfl
  | next key =>
      refine (avoids_takeIter m t key).bind fun iter _ => ?_
      dsimp only
      split <;> exact avoids_ok rfl
  | dropIterRetry key i =>
      refine (avoids_takeIter m t key).bind fun ⟨orig, arcsLeft, source⟩ held => ?_
      obtain ⟨_, takes, _⟩ := takeIter_eq_ok.mp held
      exact refuses.bind fun _ _ => refuses.bind fun _ _ =>
        (taken takes (Or.inl rfl)).bind fun _ _ =>
          (avoids_dropIterUpdate _ _).bind fun _ _ => avoids_ok rfl
  | dropIter key =>
      refine (avoids_takeIter m t key).bind fun ⟨orig, arcsLeft, source⟩ held => ?_
      obtain ⟨_, takes, _⟩ := takeIter_eq_ok.mp held
      dsimp only
      split
      · exact avoids_ok rfl
      · exact (taken takes (Or.inl rfl)).bind fun _ _ =>
          (avoids_dropIterUpdate _ _).bind fun _ _ => avoids_ok rfl
  | forgetIter key => exact (avoids_takeIter m t key).bind fun _ _ => avoids_ok rfl
  | count key i =>
      exact (avoids_borrowArc m t key).bind fun _ borrowed => refuses.bind fun _ _ =>
        (sharedArc borrowed (Or.inl rfl)).bind fun _ _ => avoids_ok rfl
  | tryUnique key i =>
      exact (avoids_take m t key).bind fun _ held => refuses.bind fun _ _ =>
        refuses.bind fun _ _ => (taken (take_eq_ok.mp held) (Or.inl rfl)).bind
          fun _ _ => avoids_ok rfl
  | shareable key =>
      exact (avoids_take m t key).bind fun _ _ => refuses.bind fun _ _ => avoids_ok rfl
  | drop key =>
      refine (avoids_take m t key).bind fun _ held => refuses.bind fun _ _ =>
        (taken (take_eq_ok.mp held) (Or.inl rfl)).bind fun _ _ => ?_
      dsimp only
      split <;> exact avoids_ok rfl
  | forget key =>
      exact (avoids_take m t key).bind fun _ _ => refuses.bind fun _ _ => avoids_ok rfl
  | intoInner key =>
      exact (avoids_take m t key).bind fun _ held => refuses.bind fun _ kind =>
        (alone held (demand_eq_ok.mp kind)).bind fun _ _ => avoids_ok rfl
  | destroy =>
      refine (avoids_demandSome not_faulty_refused).bind fun view given =>
        refuses.bind fun _ waited => ?_
      have given := demandSome_eq_ok.mp given
      have all := (published.given given).mono (demand_eq_ok.mp waited).2
      exact (avoids_perform (performs_of_knowsAll (sound.of_given given).2.1 all)).bind
        fun _ _ => avoids_ok rfl
  | advance i =>
      cases stage : m.stages t with
      | idle =>
          simp only [step, Machine.advance, stage]
          exact avoids_error not_faulty_refused
      | cloning source unit old =>
          simp only [step, Machine.advance, stage]
          exact (avoids_demand not_faulty_aborted).bind fun _ _ => avoids_ok rfl
      | dropLoad =>
          simp only [step, Machine.advance, stage]
          have alive := (sound.of_ending (by rw [stage]; rfl)).2.1
          have known := (published.loading stage).2.1
          exact refuses.bind fun _ _ => (avoids_perform
            (published.performs_of_exclusive alive known (Or.inl rfl))).bind
              fun _ _ => avoids_ok rfl
      | dropSlow =>
          simp only [step, Machine.advance, stage]
          exact avoids_ok rfl

/-! ## The main results -/

/-- One thread passes a clone to another, which reads the data and drops it. -/
def handOver : List (Fin 2 × Action) :=
  [(0, .clone 0), (0, .advance 0), (0, .post), (1, .receive 0), (1, .read 1),
    (1, .drop 1)]

/-- A thread takes one of two clones from an iterator, and another drops it. -/
def takeOne : List (Fin 2 × Action) :=
  [(0, .cloneMany 0 2), (0, .next 1), (0, .post), (1, .receive 0), (1, .drop 2)]

/-- The state after some steps on a fresh `Arc` of the first thread. -/
def stateAfter (moves : List (Fin 2 × Action)) : Machine 2 :=
  (follow (step .wide .source) (fun _ _ => True) (start 0 false) moves).getD
    (start 0 false)

theorem reached_stateAfter (moves : List (Fin 2 × Action))
    (runs : (follow (step .wide .source) (fun _ _ => True) (start 0 false)
      moves).isSome = true) : Reached .wide .source (stateAfter moves) := by
  obtain ⟨m, followed⟩ := Option.isSome_iff_exists.mp runs
  unfold stateAfter
  rw [followed]
  exact ⟨0, false, reaches_of_follow moves followed⟩

/-- With sufficient orderings no step of any program that respects the borrow
rules has a data race, or touches memory that was given back. -/
theorem avoids_of_reached (few : N < maxRefcount word) (sufficient : o.Sufficient)
    (reached : Reached word o m) (move : Fin N × Action) :
    Avoids Fault.Faulty (step word o m move) :=
  (published_of_reached few sufficient reached).avoids_step
    (sound_of_reached few reached) move.1 move.2

/-- A handle that is alone and held exclusively leaves nothing else to refer to
the allocation, and no call in progress. -/
theorem Sound.alone_of_takes (sound : m.Sound word) (takes : m.Takes t key holder)
    {unique : Bool} (kind : holder.kind = .handle unique)
    (total : m.references + m.leaked = 1) :
    (∀ k other, m.holders.get? k = some other → k = key) ∧ ∀ u, m.stages u = .idle := by
  have only {k : Nat} {other : Holder} (found : m.holders.get? k = some other) : k = key :=
    sound.eq_of_unique takes.found total kind takes.free found
  refine ⟨fun k other found => only found, fun u => ?_⟩
  cases stage : m.stages u with
  | idle => rfl
  | cloning source unit old =>
      obtain ⟨lender, found, _⟩ := sound.borrowing.source stage
      exact absurd (only found ▸ borrowed_of_cloning stage) takes.free
  | dropLoad | dropSlow =>
      have gone := (sound.of_ending (by rw [stage]; rfl)).1
      omega

/-- The orderings that programs without clone iterators depend on. -/
def plain (clone dropSub dropLoad count : MemoryOrdering) : Orderings where
  clone := clone
  iterNewSet := .relaxed
  iterNewFetch := .relaxed
  iterDropSet := .relaxed
  iterDropFetch := .relaxed
  dropSub := dropSub
  dropLoad := dropLoad
  count := count

def iterates : Action → Bool
  | .cloneManyRetry _ _ _ | .cloneMany _ _ | .dropIterRetry _ _ | .dropIter _ => true
  | _ => false

theorem step_plain {action : Action} (without : iterates action = false) :
    step word o m (t, action) =
      step word (plain o.clone o.dropSub o.dropLoad o.count) m (t, action) := by
  cases action with
  | cloneManyRetry | cloneMany | dropIterRetry | dropIter => cases without
  | post | receive | read | write | clone | next | forgetIter | count | tryUnique |
      shareable | drop | forget | intoInner | destroy | advance => rfl

theorem run_plain (moves : List (Fin N × Action))
    (without : ∀ move ∈ moves, iterates move.2 = false) (m : Machine N) :
    moves.foldlM (step word o) m =
      moves.foldlM (step word (plain o.clone o.dropSub o.dropLoad o.count)) m := by
  induction moves generalizing m with
  | nil => rfl
  | cons move moves ih =>
      rw [List.foldlM_cons, List.foldlM_cons, step_plain (without move (by simp))]
      congr 1
      funext next
      exact ih (fun later member => without later (by simp [member])) next

/-- The first thread then drops its own handle and destroys the data. -/
def dropBoth : List (Fin 2 × Action) :=
  handOver ++ [(0, .drop 0), (0, .advance 3), (0, .advance 0), (0, .destroy)]

/-- The first thread then finds itself alone and writes the data. -/
def writeAlone : List (Fin 2 × Action) :=
  handOver ++ [(0, .tryUnique 0 2), (0, .write 0)]

def races (o : Orderings) (moves : List (Fin 2 × Action)) : Bool :=
  match moves.foldlM (step .wide o) (start 0 false) with
  | .error .dataRace => true
  | _ => false

theorem races_dropBoth : ∀ clone dropSub dropLoad count : MemoryOrdering,
    dropSub.releases = false ∨ dropSub.acquires = false ∧ dropLoad.acquires = false →
      races (plain clone dropSub dropLoad count) dropBoth = true := by
  decide +kernel

theorem races_writeAlone : ∀ clone dropSub dropLoad count : MemoryOrdering,
    count.acquires = false →
      races (plain clone dropSub dropLoad count) writeAlone = true := by
  decide +kernel

theorem races_of_insufficient (insufficient : ¬ o.Sufficient) :
    races o dropBoth = true ∨ races o writeAlone = true := by
  have same {moves : List (Fin 2 × Action)}
      (without : ∀ move ∈ moves, iterates move.2 = false) :
      races o moves = races (plain o.clone o.dropSub o.dropLoad o.count) moves := by
    unfold races
    rw [run_plain moves without]
  rw [same (by decide), same (by decide)]
  by_cases acquires : o.count.acquires = true
  · left
    apply races_dropBoth
    by_contra enough
    rw [not_or, not_and_or, Bool.not_eq_false, Bool.not_eq_false,
      Bool.not_eq_false] at enough
    exact insufficient ⟨enough.1, enough.2, acquires⟩
  · right
    exact races_writeAlone _ _ _ _ (by simpa using acquires)

end Machine

end BackdropArc.RelaxedMemory
