import BackdropArc.PayloadFrames

/-!
# Who drops the values of a payload

A payload is made of values with destructors.  They are dropped when a strategy
drops the box of their block, and user code with a mutable reference can take some
of them out and put others in.  Over any run whatever, what was dropped, what was
taken out and what is still there add up to what the block was created with.
-/

namespace BackdropArc

open GuardedRuns

variable {N : Nat} {V S D : Type}

/-- The values stored in block `p`, if a payload consists of the values `glue`. -/
def Sys.stored (glue : V → List D) (s : Sys N V S) (p : Nat) : List D :=
  (s.heap.dataAt p).elim [] glue

namespace Moment

/-- The strategy that gets the box of block `p` by the step. -/
def backdrops (p : Nat) (moment : Moment N V S) : Option S :=
  match moment.action.2, (moment.before.threads moment.action.1).op with
  | .advance, .dropSlow ptr _ => if ptr.p = p then some ptr.strategy else none
  | _, _ => none

/-- The values dropped by the step, if a strategy runs the destructor of a box
that it gets as often as `runs` says. -/
def drops (glue : V → List D) (runs : S → Nat) (p : Nat) (moment : Moment N V S) :
    List D :=
  match moment.backdrops p with
  | some strategy => (List.replicate (runs strategy) (moment.before.stored glue p)).flatten
  | none => []

/-- How often user code takes the value out of block `p` by the step, or minus how
often it puts the value in. -/
def taken [DecidableEq D] (glue : V → List D) (p : Nat) (value : D)
    (moment : Moment N V S) : Int :=
  if moment.before.writesTo p moment.action.2 then
    (moment.before.stored glue p).count value - (moment.after.stored glue p).count value
  else 0

end Moment

/-- The values dropped by a run, in order. -/
def dropsMade (glue : V → List D) (runs : S → Nat) (p : Nat)
    (path : List (Moment N V S)) : List D :=
  path.flatMap (Moment.drops glue runs p)

def takenOut [DecidableEq D] (glue : V → List D) (p : Nat) (value : D)
    (path : List (Moment N V S)) : Int :=
  (path.map (Moment.taken glue p value)).sum

theorem dropsMade_concat (glue : V → List D) (runs : S → Nat) (p : Nat)
    (path : List (Moment N V S)) (moment : Moment N V S) :
    dropsMade glue runs p (path ++ [moment]) =
      dropsMade glue runs p path ++ moment.drops glue runs p := by
  simp [dropsMade]

theorem takenOut_concat [DecidableEq D] (glue : V → List D) (p : Nat) (value : D)
    (path : List (Moment N V S)) (moment : Moment N V S) :
    takenOut glue p value (path ++ [moment]) =
      takenOut glue p value path + moment.taken glue p value := by
  simp [takenOut]

namespace Heap

theorem fateAt_isSome {heap : Heap V S} {p : Nat} :
    (heap.fateAt p).isSome = true ↔ p < heap.length := by
  simp [fateAt]

theorem fateAt_allocate (heap : Heap V S) (data : V) {q : Nat} (present : q < heap.length) :
    (heap.allocate data).fateAt q = heap.fateAt q := by
  unfold fateAt allocate
  rw [List.getElem?_append_left present]

end Heap

namespace Sys

variable {s next : Sys N V S} {t : Fin N} {word : MachineWord} {p : Nat}

/-- What a step does to the fate of a block. -/
inductive FateStep (s next : Sys N V S) (p : Nat) (backdrops : Option S) : Prop
  | same : backdrops = none → next.heap.fateAt p = s.heap.fateAt p →
      FateStep s next p backdrops
  | moved : backdrops = none → s.heap.fateAt p = some .live →
      next.heap.fateAt p = some .movedOut → FateStep s next p backdrops
  | backdropped (strategy : S) : backdrops = some strategy →
      s.heap.fateAt p = some .live →
        next.heap.fateAt p = some (.backdropped strategy) → FateStep s next p backdrops

theorem fateStep_of_advanced (advanced : Advanced word s t next) :
    FateStep s next p (Moment.backdrops p ⟨s, (t, .advance), next⟩) := by
  have other (op : ∀ ptr rest, (s.threads t).op ≠ .dropSlow ptr rest) :
      Moment.backdrops p ⟨s, (t, .advance), next⟩ = none := by
    unfold Moment.backdrops
    split
    · next ptr rest _ here => exact absurd here (op ptr rest)
    · rfl
  cases advanced with
  | fetchAdd op added =>
      obtain ⟨_, _, overwrites⟩ := Heap.fetchAdd_overwrites added
      exact .same (other (by simp [op])) (overwrites.fateAt_eq rfl p)
  | cloned op | acquired op => exact .same (other (by simp [op])) rfl
  | grant op granted =>
      exact .same (other (by simp [op])) (by rw [(settles_grant granted).heap])
  | decline op _ declined =>
      exact .same (other (by simp [op])) (by rw [(settles_decline declined).heap])
  | @moved ptr data heap op _ _ given =>
      obtain ⟨live, after⟩ := Heap.giveAway_fateAt given p
      by_cases here : p = ptr.p
      · subst here
        rw [if_pos rfl] at after
        exact .moved (other (by simp [op])) live after
      · rw [if_neg here] at after
        exact .same (other (by simp [op])) after
  | released op subtracted _ finished =>
      obtain ⟨_, _, overwrites⟩ := Heap.fetchSub_overwrites subtracted
      apply FateStep.same (other (by simp [op]))
      rw [(settles_finish finished).heap]
      exact overwrites.fateAt_eq rfl p
  | lastReleased op subtracted =>
      obtain ⟨_, _, overwrites⟩ := Heap.fetchSub_overwrites subtracted
      exact .same (other (by simp [op])) (overwrites.fateAt_eq rfl p)
  | @finalized ptr rest heap _ op given finished =>
      obtain ⟨live, after⟩ := Heap.giveAway_fateAt given p
      have heapEq : next.heap = heap := (settles_finish finished).heap
      rw [← heapEq] at after
      by_cases here : p = ptr.p
      · subst here
        rw [if_pos rfl] at after
        exact .backdropped ptr.strategy (by simp [Moment.backdrops, op]) live after
      · rw [if_neg here] at after
        exact .same (by simp [Moment.backdrops, op, Ne.symm here]) after

theorem fateStep_of_called {act : Act N V S} (called : Called word s t act next)
    (present : p < s.heap.length) :
    FateStep s next p (Moment.backdrops p ⟨s, (t, act), next⟩) := by
  have outside : Moment.backdrops p ⟨s, (t, act), next⟩ = none := by
    unfold Moment.backdrops
    split
    · next started _ =>
        obtain rfl : act = .advance := started
        cases called
    · rfl
  apply FateStep.same outside
  cases called with
  | new | newUnique | copyMade => exact Heap.fateAt_allocate _ _ present
  | cloneMany _ updated | dropIter _ _ updated =>
      obtain ⟨_, _, _, overwrites⟩ := Heap.fetchUpdate_overwrites updated
      exact overwrites.fateAt_eq rfl p
  | forgetIter | forget => exact Heap.fateAt_leak _ _ _ p
  | write _ _ written =>
      obtain ⟨_, overwrites⟩ := Heap.write_overwrites written
      exact overwrites.fateAt_eq rfl p
  | borrow | endBorrow | read | count | clone | nextNone | next | cloneIter
  | dropSpentIter | enter | leave | unwindCallback | unwindMake | unwindOffsetMakeMut
  | unwindUnwrapOrClone | convert | drop | unique | intoInner | readMut | endGrant
  | readClone | unwrappedClone => rfl

theorem fateStep_of_step {move : Fin N × Act N V S} (stepped : step word s move = .ok next)
    (present : p < s.heap.length) :
    FateStep s next p (Moment.backdrops p ⟨s, move, next⟩) := by
  obtain ⟨t, act⟩ := move
  rcases step_cases stepped with ⟨rfl, advanced⟩ | ⟨_, called⟩
  · exact fateStep_of_advanced advanced
  · exact fateStep_of_called called present

/-- Only a live block is written to. -/
theorem live_of_written {move : Fin N × Act N V S} (stepped : step word s move = .ok next)
    (writes : s.writesTo p move.2 = true) : s.heap.fateAt p = some .live := by
  obtain ⟨t, act⟩ := move
  rcases step_cases stepped with ⟨rfl, _⟩ | ⟨_, called⟩
  · simp [writesTo] at writes
  · cases called with
    | @write key data hd heap found _ written =>
        obtain rfl : hd.p = p := by simpa [writesTo, found] using writes
        obtain ⟨_, overwrites⟩ := Heap.write_overwrites written
        exact Heap.fateAt_of_access overwrites.accessed
    | _ => simp [writesTo] at writes

theorem stored_of_step {move : Fin N × Act N V S} (glue : V → List D)
    (stepped : step word s move = .ok next) (present : p < s.heap.length)
    (unwritten : s.writesTo p move.2 = false) : next.stored glue p = s.stored glue p := by
  have here : s.heap.dataAt p = some (s.heap.get ⟨p, present⟩).data := by
    simp [Heap.dataAt, present]
  unfold stored
  rw [here, dataAt_of_step stepped here unwritten]

/-! ## The ledger of a run -/

/-- What happened so far to one value of the payload that block `p` was created
with. -/
structure Ledger [DecidableEq D] (glue : V → List D) (runs : S → Nat) (p : Nat) (v : V)
    (value : D) (path : List (Moment N V S)) (s : Sys N V S) : Prop where
  present : p < s.heap.length
  balance : ((s.stored glue p).count value : Int) + takenOut glue p value path =
    (glue v).count value
  kept : (∀ strategy, s.heap.fateAt p ≠ some (.backdropped strategy)) →
    (dropsMade glue runs p path).count value = 0
  dropped : ∀ strategy, s.heap.fateAt p = some (.backdropped strategy) →
    (dropsMade glue runs p path).count value =
      runs strategy * (s.stored glue p).count value

section Ledger

variable [DecidableEq D] {glue : V → List D} {runs : S → Nat} {v : V} {value : D}
  {path : List (Moment N V S)}

theorem ledger_of_new {strategy : S}
    (created : step word s (t, .new v strategy) = .ok next) :
    Ledger glue runs s.heap.length v value [] next := by
  rcases step_cases created with ⟨wrong, _⟩ | ⟨_, called⟩
  · simp at wrong
  · cases called with
    | new =>
        have here : (s.heap.allocate v).dataAt s.heap.length = some v := by
          rw [Heap.dataAt_allocate, if_pos rfl]
        have live : (s.heap.allocate v).fateAt s.heap.length = some .live := by
          simp [Heap.fateAt, Heap.allocate]
        refine ⟨by simp [Heap.allocate], ?_, fun _ => rfl, fun other given => ?_⟩
        · simp [stored, here, takenOut]
        · simp [live] at given

namespace Ledger

variable {move : Fin N × Act N V S}

theorem present_after (ledger : Ledger glue runs p v value path s)
    (stepped : step word s move = .ok next) : p < next.heap.length := by
  rw [← Heap.fateAt_isSome]
  cases fateStep_of_step stepped ledger.present with
  | same _ fate =>
      rw [fate, Heap.fateAt_isSome]
      exact ledger.present
  | moved _ _ after | backdropped _ _ _ after =>
      rw [after]
      rfl

theorem balance_after (ledger : Ledger glue runs p v value path s)
    (stepped : step word s move = .ok next) :
    ((next.stored glue p).count value : Int) +
      takenOut glue p value (path ++ [⟨s, move, next⟩]) = (glue v).count value := by
  have before := ledger.balance
  rw [takenOut_concat]
  simp only [Moment.taken]
  by_cases writes : s.writesTo p move.2 = true
  · rw [if_pos writes]
    omega
  · rw [if_neg writes, stored_of_step glue stepped ledger.present (by simpa using writes)]
    omega

theorem kept_after (ledger : Ledger glue runs p v value path s)
    (stepped : step word s move = .ok next)
    (notGiven : ∀ strategy, next.heap.fateAt p ≠ some (.backdropped strategy)) :
    (dropsMade glue runs p (path ++ [⟨s, move, next⟩])).count value = 0 := by
  rw [dropsMade_concat, List.count_append]
  cases fateStep_of_step stepped ledger.present with
  | same outside fate =>
      rw [ledger.kept (fate ▸ notGiven)]
      simp [Moment.drops, outside]
  | moved outside live _ =>
      rw [ledger.kept (by simp [live])]
      simp [Moment.drops, outside]
  | backdropped strategy _ _ given => exact absurd given (notGiven strategy)

theorem dropped_after (ledger : Ledger glue runs p v value path s)
    (stepped : step word s move = .ok next) {strategy : S}
    (given : next.heap.fateAt p = some (.backdropped strategy)) :
    (dropsMade glue runs p (path ++ [⟨s, move, next⟩])).count value =
      runs strategy * (next.stored glue p).count value := by
  rw [dropsMade_concat, List.count_append]
  cases fateStep_of_step stepped ledger.present with
  | same outside fate =>
      -- a block that was given away before is not written to
      have unwritten : s.writesTo p move.2 = false := by
        rw [← Bool.not_eq_true]
        intro writes
        have live := live_of_written stepped writes
        simp [← fate, given] at live
      rw [ledger.dropped strategy (fate ▸ given),
        stored_of_step glue stepped ledger.present unwritten]
      simp [Moment.drops, outside]
  | moved _ _ movedOut => simp [movedOut] at given
  | backdropped other drops live after =>
      obtain rfl : other = strategy := by simpa [after] using given
      have unwritten : s.writesTo p move.2 = false := by
        unfold Moment.backdrops at drops
        split at drops
        · next advance _ =>
            have started : move.2 = .advance := advance
            simp [started, writesTo]
        · simp at drops
      rw [ledger.kept (by simp [live]),
        stored_of_step glue stepped ledger.present unwritten]
      simp [Moment.drops, drops, List.count_flatten]

/-- One step keeps the ledger. -/
theorem stepped (ledger : Ledger glue runs p v value path s)
    (stepped : step word s move = .ok next) :
    Ledger glue runs p v value (path ++ [⟨s, move, next⟩]) next where
  present := ledger.present_after stepped
  balance := ledger.balance_after stepped
  kept := ledger.kept_after stepped
  dropped _ := ledger.dropped_after stepped

end Ledger

/-- The run lemma: whatever the program does after the block was created. -/
theorem ledger_of_trail {admits : Sys N V S → Fin N × Act N V S → Prop} {last : Sys N V S}
    {strategy : S} (created : step word s (t, .new v strategy) = .ok next)
    (trail : Trail (step word) admits next path last) :
    Ledger glue runs s.heap.length v value path last :=
  trail.invariant (ledger_of_new created) fun _ _ _ _ before _ stepped =>
    before.stepped stepped

/-- A value of the payload that block `p` was created with has one owner: the block
or, if user code has taken it out, user code. -/
structure OwnedOnce (glue : V → List D) (runs : S → Nat) (p : Nat) (value : D)
    (path : List (Moment N V S)) (last : Sys N V S) : Prop where
  early : (∀ strategy, last.heap.fateAt p ≠ some (.backdropped strategy)) →
    (dropsMade glue runs p path).count value = 0
  /-- The strategy that got the box runs its destructor once. -/
  once : ∀ strategy, last.heap.fateAt p = some (.backdropped strategy) →
    runs strategy = 1 →
      ((dropsMade glue runs p path).count value : Int) + takenOut glue p value path = 1
  untouched : (∀ moment ∈ path, moment.before.writesTo p moment.action.2 = false) →
    takenOut glue p value path = 0

theorem takenOut_of_unwritten
    (unwritten : ∀ moment ∈ path, moment.before.writesTo p moment.action.2 = false) :
    takenOut glue p value path = 0 := by
  apply List.sum_eq_zero
  intro amount member
  obtain ⟨moment, inside, rfl⟩ := List.mem_map.mp member
  simp [Moment.taken, unwritten moment inside]

theorem ownedOnce_of_trail {admits : Sys N V S → Fin N × Act N V S → Prop} {last : Sys N V S}
    {strategy : S} (single : (glue v).Nodup) (member : value ∈ glue v)
    (created : step word s (t, .new v strategy) = .ok next)
    (trail : Trail (step word) admits next path last) :
    OwnedOnce glue runs s.heap.length value path last := by
  have ledger : Ledger glue runs s.heap.length v value path last :=
    ledger_of_trail created trail
  refine ⟨ledger.kept, fun final given executes => ?_, takenOut_of_unwritten⟩
  have balance := ledger.balance
  rw [List.count_eq_one_of_mem single member] at balance
  rw [ledger.dropped final given, executes, Nat.one_mul]
  exact balance

end Ledger

end Sys

end BackdropArc
