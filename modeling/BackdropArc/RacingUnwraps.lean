import BackdropArc.Disposal
import BackdropArc.PayloadFrames

/-!
# Racing unwraps

Several owners of one block try to take the payload out of it, or drop their
handle, all at the same time.  Each of them looks at the count, and only later
moves the data, clones it or gives its reference back.  Whatever the order of
these steps, the payload ends in one place: with the one owner that moved it
out, or with one strategy.
-/

namespace BackdropArc

open GuardedRuns CountedLifecycle

variable {N : Nat} {V S : Type}

def UniqueCall.unwraps : UniqueCall → Bool
  | .tryUnwrap | .unwrapOrClone => true
  | .getMut | .getUnique | .tryAsUnique | .mustBeUnique | .tryUnique | .makeMut
  | .makeUnique | .offsetMakeMut => false

/-- The actions by which owners of block `p` get rid of their handles: unwrap
it, clone the payload while they do, or drop it. -/
def Sys.unwraps (s : Sys N V S) (p : Nat) : Fin N × Act N V S → Bool
  | (_, .unique call key) => call.unwraps && (s.handles.get? key).any (·.p = p)
  | (_, .drop key) => (s.handles.get? key).any (·.p = p)
  | (_, .readClone) | (_, .cloneReturns _) | (_, .advance) => true
  | _ => false

/-- The steps of a race for block `p`, in which `T::clone` returns values equal
to the payload `v`. -/
def Sys.Races (p : Nat) (v : V) (s : Sys N V S) (move : Fin N × Act N V S) : Prop :=
  s.unwraps p move = true ∧ ∀ data ∈ move.2.copied?, data = v

instance [DecidableEq V] (p : Nat) (v : V) (s : Sys N V S) (move : Fin N × Act N V S) :
    Decidable (s.Races p v move) :=
  inferInstanceAs (Decidable (_ ∧ _))

/-! ## What a thread in the race can be doing -/

def Rest.Racing (v : V) (rest : Rest V S) : Prop :=
  rest = .done ∨ rest = .value v

def Op.Racing (p : Nat) (v : V) : Op V S → Prop
  | .idle => True
  | .tested call ptr _ => call.unwraps = true ∧ ptr.p = p
  | .moving ptr => ptr.p = p
  | .dropping ptr rest | .dropLoad ptr rest | .dropSlow ptr rest =>
      ptr.p = p ∧ rest.Racing v
  | .cloning _ _ _ | .cloned _ _ _ _ => False

def Call.Racing (p : Nat) : Call S → Prop
  | .valueClone call ptr => call = .unwrapOrClone ∧ ptr.p = p
  | .callback _ _ => False

structure Thread.Racing (p : Nat) (v : V) (thread : Thread V S) : Prop where
  op : thread.op.Racing p v
  stack : ∀ call ∈ thread.stack, call.Racing p

theorem Thread.Racing.with_op {p : Nat} {v : V} {thread : Thread V S}
    (racing : thread.Racing p v) {op : Op V S} (after : op.Racing p v) :
    ({ thread with op := op } : Thread V S).Racing p v :=
  ⟨after, racing.stack⟩

/-- The number of values that the rest of a call will return. -/
def Rest.promised : Rest V S → Nat
  | .value _ => 1
  | .done | .grant _ _ | .unwind => 0

/-- The number of values that the call in progress will return.  A `try_unwrap`
promises its value once it has loaded a count of 1. -/
def Op.promised : Op V S → Nat
  | .tested call _ loaded => if call = .unwrapOrClone ∨ loaded = 1 then 1 else 0
  | .moving _ => 1
  | .dropping _ rest | .dropLoad _ rest | .dropSlow _ rest => rest.promised
  | .idle | .cloning _ _ _ | .cloned _ _ _ _ => 0

/-- The values that a thread in the race has still to return. -/
def Thread.promised (thread : Thread V S) : Nat :=
  thread.op.promised + thread.stack.length

/-- Whether the entry is a value returned to thread `t`. -/
def Entry.isValue (t : Fin N) : Entry N V S → Bool
  | .returned u (.value _) => u = t
  | _ => false

/-- The number of values returned to thread `t` so far. -/
def Sys.values (s : Sys N V S) (t : Fin N) : Nat :=
  s.log.countP (Entry.isValue t)

namespace Sys

variable {s next : Sys N V S} {t : Fin N} {word : MachineWord} {p : Nat} {v : V}

/-- What a step of thread `t` in the race leaves behind. -/
structure RaceStep (p : Nat) (v : V) (s next : Sys N V S) (t : Fin N) : Prop where
  iters : next.iters = s.iters
  leaked : next.heap.leakedAt p = s.heap.leakedAt p
  thread : (next.threads t).Racing p v
  promised : (s.threads t).promised + s.values t ≤
    (next.threads t).promised + next.values t
  answers : ∃ entries, next.log = s.log ++ entries ∧
    ∀ u data, .returned u (.value data) ∈ entries → data = v

/-- A step of thread `t` that appends `entries` to the history keeps the
promises of the thread if it fulfils those that it drops. -/
theorem RaceStep.of_entries {thread : Thread V S} {entries : List (Entry N V S)}
    (iters : next.iters = s.iters) (leaked : next.heap.leakedAt p = s.heap.leakedAt p)
    (threads : next.threads = Function.update s.threads t thread)
    (log : next.log = s.log ++ entries) (racing : thread.Racing p v)
    (promised : (s.threads t).promised ≤
      thread.promised + entries.countP (Entry.isValue t))
    (answers : ∀ u data, .returned u (.value data) ∈ entries → data = v) :
    RaceStep p v s next t where
  iters := iters
  leaked := leaked
  thread := by rwa [threads, Function.update_self]
  promised := by
    unfold values
    rw [threads, Function.update_self, log, List.countP_append]
    omega
  answers := ⟨entries, log, answers⟩

/-- What the owners start from user code. -/
theorem raceStep_of_called {act : Act N V S} (called : Called word s t act next)
    (idle : (s.threads t).op = .idle) (racing : (s.threads t).Racing p v)
    (races : s.Races p v (t, act)) : RaceStep p v s next t := by
  obtain ⟨unwraps, copied⟩ := races
  have waiting : (s.threads t).promised = (s.threads t).stack.length := by
    rw [Thread.promised, idle]
    exact Nat.zero_add _
  cases called with
  | drop freed =>
      have here := (free_eq_ok.mp freed).1
      refine .of_entries rfl rfl rfl (List.append_nil _).symm
        (racing.with_op ⟨?_, Or.inl rfl⟩) ?_ (by simp)
      · simpa [Sys.unwraps, here] using unwraps
      · rw [waiting]
        exact Nat.le_add_left _ _
  | unique freed =>
      have here := (free_eq_ok.mp freed).1
      refine .of_entries rfl rfl rfl (List.append_nil _).symm (racing.with_op ?_) ?_ (by simp)
      · simpa [Sys.unwraps, here, Op.Racing] using unwraps
      · rw [waiting]
        exact Nat.le_add_left _ _
  | readClone =>
      exact .of_entries rfl rfl (Function.update_eq_self t s.threads).symm
        (List.append_nil _).symm racing (Nat.le_add_right _ _) (by simp)
  | @unwrappedClone data ptr stack suspended =>
      obtain rfl : data = v := copied data rfl
      have frames := racing.stack
      rw [suspended] at frames
      refine .of_entries rfl rfl rfl (List.append_nil _).symm
        ⟨⟨(frames _ List.mem_cons_self).2, Or.inr rfl⟩,
          fun call member => frames call (List.mem_cons_of_mem _ member)⟩ ?_ (by simp)
      rw [waiting, suspended]
      simp only [Thread.promised, Op.promised, Rest.promised, List.length_cons]
      omega
  | copyMade suspended other =>
      have frame := racing.stack _ (suspended ▸ List.mem_cons_self)
      exact absurd frame.1 other
  | _ => simp [Sys.unwraps] at unwraps

/-- The end of a destructor in the race, which follows on a change of the heap
and of the history. -/
theorem raceStep_of_finish {heap : Heap V S} {lives : List (Entry N V S)} {rest : Rest V S}
    {after : Status} {q : Nat} (recounts : s.heap.Recounts heap q after)
    (lifeless : ∀ u answer, .returned u answer ∉ lives)
    (racing : (s.threads t).Racing p v) (calm : rest.Racing v)
    (promised : (s.threads t).op.promised = rest.promised)
    (finished : ({ s with heap := heap, log := s.log ++ lives } : Sys N V S).finish t rest =
      .ok next) : RaceStep p v s next t := by
  have leaked := recounts.changes.leakedAt_eq p
  rcases calm with rfl | rfl
  · obtain rfl := Except.ok.inj finished
    refine .of_entries rfl leaked rfl rfl (racing.with_op trivial) ?_ ?_
    · simp only [Thread.promised, promised]
      exact Nat.le_add_right _ _
    · exact fun u data member => absurd member (lifeless u _)
  · obtain rfl := Except.ok.inj finished
    refine .of_entries rfl leaked rfl (List.append_assoc _ _ _)
      (racing.with_op trivial) ?_ ?_
    · simp only [Thread.promised, promised, List.countP_append, List.countP_singleton,
        Entry.isValue, decide_true, if_true, Rest.promised]
      omega
    · intro u data member
      rcases List.mem_append.mp member with before | here
      · exact absurd before (lifeless u _)
      · obtain ⟨_, same⟩ : u = t ∧ data = v := by simpa using here
        exact same

/-- The stages of the calls in the race. -/
theorem raceStep_of_advanced (advanced : Advanced word s t next)
    (data : s.heap.dataAt p = some v) (racing : (s.threads t).Racing p v) :
    RaceStep p v s next t := by
  have running := racing.op
  cases advanced with
  | fetchAdd op | cloned op => simp [op, Op.Racing] at running
  | @grant call ptr _ op granted =>
      rw [op] at running
      have promised : (s.threads t).op.promised = 1 := by simp [op, Op.promised]
      have moving : next = { s with threads := s.setOp t (.moving ptr) } := by
        cases call with
        | tryUnwrap | unwrapOrClone =>
            obtain ⟨_, _, result⟩ := bind_eq_ok.mp granted
            exact (Except.ok.inj result).symm
        | _ => simp [Op.Racing, UniqueCall.unwraps] at running
      subst moving
      refine .of_entries rfl rfl rfl (List.append_nil _).symm
        (racing.with_op running.2) ?_ (by simp)
      simp only [Thread.promised, promised]
      exact Nat.le_add_right _ _
  | @decline call ptr loaded _ op shared declined =>
      rw [op] at running
      cases call with
      | tryUnwrap =>
          have promised : (s.threads t).op.promised = 0 := by
            simp [op, Op.promised, shared]
          obtain rfl := Except.ok.inj declined
          refine .of_entries rfl rfl rfl rfl (racing.with_op trivial) ?_ (by simp)
          simp only [Thread.promised, promised]
          omega
      | unwrapOrClone =>
          have promised : (s.threads t).op.promised = 1 := by simp [op, Op.promised]
          obtain rfl := Except.ok.inj declined
          refine .of_entries rfl rfl rfl (List.append_nil _).symm ⟨trivial, ?_⟩ ?_ (by simp)
          · intro call member
            rcases List.mem_cons.mp member with rfl | member
            · exact ⟨rfl, running.2⟩
            · exact racing.stack call member
          · simp only [Thread.promised, promised, List.length_cons]
            omega
      | _ => simp [Op.Racing, UniqueCall.unwraps] at running
  | @moved ptr moved heap op unique read given =>
      rw [op] at running
      obtain rfl : ptr.p = p := running
      obtain rfl : moved = v := by
        have found := (Heap.read_eq_ok.mp read).2
        simpa [data] using found.symm
      refine .of_entries rfl ((Heap.giveAway_recounts rfl given).changes.leakedAt_eq _)
        rfl rfl (racing.with_op trivial) ?_ (by simp)
      simp only [Thread.promised, op, Op.promised, List.countP_cons, List.countP_nil,
        Entry.isValue, decide_true, if_true]
      omega
  | @released ptr rest old heap _ op subtracted several finished =>
      rw [op] at running
      have silent : ({ s with heap := heap, log := s.log ++ [] } : Sys N V S).finish t rest =
          .ok next := by
        simpa using finished
      exact raceStep_of_finish (Heap.fetchSub_recounts subtracted) (by simp) racing
        running.2 (by rw [op]; rfl) silent
  | @lastReleased ptr rest heap op subtracted =>
      rw [op] at running
      refine .of_entries rfl ((Heap.fetchSub_recounts subtracted).changes.leakedAt_eq _)
        rfl rfl (racing.with_op running) ?_ (by simp)
      simp only [Thread.promised, op, Op.promised]
      omega
  | @acquired ptr rest count op load =>
      rw [op] at running
      refine .of_entries rfl rfl rfl (List.append_nil _).symm (racing.with_op running) ?_
        (by simp)
      simp only [Thread.promised, op, Op.promised]
      omega
  | @finalized ptr rest heap _ op given finished =>
      rw [op] at running
      exact raceStep_of_finish (Heap.giveAway_recounts rfl given) (by simp) racing
        running.2 (by rw [op]; rfl) finished

/-- The invariant of a race for block `p` that began in `origin`. -/
structure Race (word : MachineWord) (p : Nat) (v : V) (origin s : Sys N V S) : Prop where
  sound : s.Sound
  fits : s.Fits word
  payload : s.heap.dataAt p = some v
  threads : ∀ t, (s.threads t).Racing p v
  unreserved : s.arcsLeft p = 0
  unleaked : s.heap.leakedAt p = 0
  answers : ∃ entries, s.log = origin.log ++ entries ∧
    ∀ u data, .returned u (.value data) ∈ entries → data = v

theorem Races.keeps {move : Fin N × Act N V S} (races : s.Races p v move) :
    s.Keeps move := by
  obtain ⟨t, act⟩ := move
  have unwraps := races.1
  cases act with
  | cloneIter | unwind => simp [Sys.unwraps] at unwraps
  | _ => exact ⟨rfl, rfl⟩

theorem Races.unwritten {move : Fin N × Act N V S} (races : s.Races p v move) (q : Nat) :
    s.writesTo q move.2 = false := by
  obtain ⟨t, act⟩ := move
  have unwraps := races.1
  cases act with
  | write => simp [Sys.unwraps] at unwraps
  | _ => rfl

theorem Race.raceStep {origin : Sys N V S} {move : Fin N × Act N V S}
    (race : Race word p v origin s) (races : s.Races p v move)
    (stepped : step word s move = .ok next) : RaceStep p v s next move.1 := by
  obtain ⟨t, act⟩ := move
  rcases step_cases stepped with ⟨rfl, advanced⟩ | ⟨idle, called⟩
  · exact raceStep_of_advanced advanced race.payload (race.threads t)
  · exact raceStep_of_called called idle (race.threads t) races

theorem Race.stepped {origin : Sys N V S} {move : Fin N × Act N V S}
    (race : Race word p v origin s) (races : s.Races p v move)
    (stepped : step word s move = .ok next) : Race word p v origin next := by
  have effect := race.raceStep races stepped
  have others := (step_frame stepped).others
  constructor
  case sound =>
    apply race.sound.stepped_of_fits race.fits _ races.keeps stepped
    -- Nobody clones a handle in a race.
    intro source form strategy count op
    have running := (race.threads move.1).op
    simp [op, Op.Racing] at running
  case fits => exact race.fits.stepped stepped
  case payload => exact dataAt_of_step stepped race.payload (races.unwritten p)
  case threads =>
    intro u
    by_cases here : u = move.1
    · exact here ▸ effect.thread
    · exact others u here ▸ race.threads u
  case unreserved =>
    unfold arcsLeft
    rw [effect.iters]
    exact race.unreserved
  case unleaked => rw [effect.leaked, race.unleaked]
  case answers =>
    obtain ⟨before, log, values⟩ := race.answers
    obtain ⟨after, log', values'⟩ := effect.answers
    refine ⟨before ++ after, by rw [log', log, List.append_assoc], fun u data member => ?_⟩
    rcases List.mem_append.mp member with first | second
    · exact values u data first
    · exact values' u data second

/-- Every thread keeps the promises it made: a value that it owes is returned
before it stops owing it. -/
theorem Race.promised_le {origin : Sys N V S} {move : Fin N × Act N V S}
    (race : Race word p v origin s) (races : s.Races p v move)
    (stepped : step word s move = .ok next) (u : Fin N) :
    (s.threads u).promised + s.values u ≤ (next.threads u).promised + next.values u := by
  have effect := race.raceStep races stepped
  by_cases here : u = move.1
  · exact here ▸ effect.promised
  · obtain ⟨entries, log, _⟩ := effect.answers
    rw [(step_frame stepped).others u here]
    unfold values
    rw [log, List.countP_append]
    omega

/-- The run lemma of a race. -/
theorem Race.reaches {origin last : Sys N V S} (race : Race word p v origin s)
    (run : Reaches (step word) (Races p v) s last) :
    Race word p v origin last ∧ ∀ u,
      (s.threads u).promised + s.values u ≤
        (last.threads u).promised + last.values u := by
  induction run with
  | refl => exact ⟨race, fun _ => Nat.le_refl _⟩
  | tail move _ races stepped ih =>
      obtain ⟨before, promises⟩ := ih
      exact ⟨before.stepped races stepped,
        fun u => (promises u).trans (before.promised_le races stepped u)⟩

/-- A call that will return a value has promised it at its first step. -/
theorem Race.starts {origin : Sys N V S} {call : UniqueCall} {key : Nat}
    (race : Race word p v origin s) (races : s.Races p v (t, .unique call key))
    (stepped : step word s (t, .unique call key) = .ok next)
    (certain : call = .unwrapOrClone ∨ s.owners p = 1) :
    (next.threads t).promised = (s.threads t).promised + 1 ∧
      next.values t = s.values t := by
  rcases step_cases stepped with ⟨wrong, _⟩ | ⟨idle, called⟩
  · simp at wrong
  · cases called with
    | @unique _ _ loaded hd freed form load =>
        have unwraps := races.1
        have here : hd.p = p := by
          have both : call.unwraps = true ∧ hd.p = p := by
            simpa [Sys.unwraps, (free_eq_ok.mp freed).1] using unwraps
          exact both.2
        have known : call = .unwrapOrClone ∨ loaded = 1 := by
          rcases certain with same | single
          · exact Or.inl same
          · rw [← race.sound.owners_of_counted (Heap.load_eq_ok.mp load), here]
            exact Or.inr single
        refine ⟨?_, rfl⟩
        simp only [setOp, Function.update_self, Thread.promised, idle, Op.promised,
          if_pos known]
        omega

/-- Every thread is back in the code that started it. -/
def AtRest (s : Sys N V S) : Prop :=
  ∀ t, s.threads t = ⟨.idle, []⟩

instance [DecidableEq V] [DecidableEq S] (s : Sys N V S) : Decidable s.AtRest :=
  inferInstanceAs (Decidable (∀ t, s.threads t = ⟨.idle, []⟩))

theorem AtRest.inFlight (rest : s.AtRest) (p : Nat) : s.inFlight p = 0 := by
  refine Finset.sum_eq_zero fun t _ => ?_
  rw [rest t]
  rfl

theorem AtRest.unpushed (rest : s.AtRest) (word : MachineWord) (p : Nat) :
    s.pastLimit word p = 0 := by
  refine Finset.sum_eq_zero fun t _ => ?_
  rw [rest t]
  rfl

theorem AtRest.not_finishing (rest : s.AtRest) (p : Nat) (who : Fin N × S) :
    ¬ s.Finishing p who := by
  unfold Finishing
  rw [rest who.1]
  simp [Op.finishing?]

/-- A race that is over has put the payload in one place. -/
theorem Race.settled {origin : Sys N V S} (race : Race word p v origin s)
    (rest : s.AtRest) (handles : s.liveHandles p = 0) :
    (∃ who, s.trace p = [.takeOut who]) ∨
      ∃ who, s.trace p = [.lastRelease who, .finalize who] := by
  have allocated : s.heap.status p ≠ .absent := by
    intro absent
    have outside := Heap.status_eq_absent.mp absent
    have found := race.payload
    simp [Heap.dataAt, List.getElem?_eq_none outside] at found
  have unowned : s.owners p = 0 := by
    unfold owners
    rw [handles, rest.inFlight, race.unreserved, race.unleaked]
  rcases race.sound.disposed_or_pending allocated unowned with once | ⟨who, pending⟩
  · exact (race.sound.trace_of_disposed once).symm
  · exact absurd pending (rest.not_finishing p who)

/-- In the middle of `T::clone` the payload is still there. -/
theorem Race.readable {origin : Sys N V S} (race : Race word p v origin s)
    {call : Call S} (member : call ∈ (s.threads t).stack) :
    (∃ ptr, call = .valueClone .unwrapOrClone ptr ∧ ptr.p = p) ∧
      s.heap.read p = .ok v := by
  have racing := (race.threads t).stack call member
  cases call with
  | callback => exact racing.elim
  | valueClone call ptr =>
      obtain ⟨rfl, rfl⟩ := racing
      have owned := owned_of_frame member
      have counted := race.sound.counted_of_owned owned
      exact ⟨⟨ptr, rfl, rfl⟩, Heap.read_eq_ok.mpr ⟨⟨_, counted⟩, race.payload⟩⟩

/-- A busy thread can go on, and so can one that is in `T::clone`. -/
theorem Race.progress {origin : Sys N V S} (race : Race word p v origin s) (t : Fin N) :
    ((s.threads t).op ≠ .idle → ∃ next, step word s (t, .advance) = .ok next) ∧
      ((s.threads t).op = .idle → (s.threads t).stack ≠ [] →
        step word s (t, .readClone) = .ok s ∧
          ∃ next, step word s (t, .cloneReturns v) = .ok next) := by
  constructor
  · intro busy
    rw [step_advance]
    refine race.sound.advance_succeeds word busy fun source form strategy old op => ?_
    have running := (race.threads t).op
    simp [op, Op.Racing] at running
  · intro idle waiting
    obtain ⟨call, stack, suspended⟩ := List.exists_cons_of_ne_nil waiting
    have frame : call ∈ (s.threads t).stack := suspended ▸ List.mem_cons_self
    obtain ⟨⟨ptr, rfl, rfl⟩, here⟩ := race.readable frame
    rw [step_of_idle idle (by simp), step_of_idle idle (by simp)]
    exact ⟨Called.call_eq (.readClone suspended here), _,
      Called.call_eq (.unwrappedClone suspended)⟩

/-- What a race for the payload `v` of block `p`, which began in `s`, has come
to in the state `last`. -/
structure Contest (word : MachineWord) (p : Nat) (v : V) (s last : Sys N V S) : Prop where
  once : last.disposals p ≤ 1
  /-- If an owner moved the payload out, no strategy ever runs on it. -/
  moved : ∀ who, .takeOut who ∈ last.trace p → last.trace p = [.takeOut who]
  /-- Otherwise one strategy ran on it when the race is over, once. -/
  settled : last.AtRest → last.liveHandles p = 0 →
    (∃ who, last.trace p = [.takeOut who]) ∨
      ∃ who, last.trace p = [.lastRelease who, .finalize who]
  answers : ∃ entries, last.log = s.log ++ entries ∧
    ∀ t data, .returned t (.value data) ∈ entries → data = v
  /-- An `unwrap_or_clone`, and a `try_unwrap` on the only reference left, has
  returned a value by the time its thread is back. -/
  returns : ∀ t call key started later, last.Races p v (t, .unique call key) →
    step word last (t, .unique call key) = .ok started →
    call = .unwrapOrClone ∨ last.owners p = 1 →
    Reaches (step word) (Races p v) started later →
    later.threads t = last.threads t → last.values t < later.values t
  /-- Whoever is in `T::clone` can still read the payload. -/
  readable : ∀ t, ∀ call ∈ (last.threads t).stack,
    (∃ ptr, call = .valueClone .unwrapOrClone ptr ∧ ptr.p = p) ∧
      last.heap.read p = .ok v
  safe : ∀ move, step word last move ≠ .error .useAfterFree
  progress : ∀ t,
    ((last.threads t).op ≠ .idle → ∃ next, step word last (t, .advance) = .ok next) ∧
      ((last.threads t).op = .idle → (last.threads t).stack ≠ [] →
        step word last (t, .readClone) = .ok last ∧
          ∃ next, step word last (t, .cloneReturns v) = .ok next)

/-- Racing unwraps neither duplicate nor lose the payload, whatever the number
of owners and the order of their steps.  The race starts when nobody is in a
call and all references to the block are handles. -/
theorem racing_unwraps (word : MachineWord) {last : Sys N V S}
    (run : Reaches (step word) Keeps (start N V S) s) (rest : s.AtRest)
    (payload : s.heap.dataAt p = some v) (unreserved : s.arcsLeft p = 0)
    (unleaked : s.heap.leakedAt p = 0)
    (race : Reaches (step word) (Races p v) s last) : Contest word p v s last := by
  have before : Race word p v s s := {
    sound := (sound_of_unpushed run (rest.unpushed word)).1
    fits := fits_of_reaches run
    payload := payload
    threads := fun t => rest t ▸ ⟨trivial, by simp⟩
    unreserved := unreserved
    unleaked := unleaked
    answers := ⟨[], (List.append_nil _).symm, by simp⟩ }
  obtain ⟨after, _⟩ := before.reaches race
  constructor
  case once => rcases after.sound.disposals_eq p with ⟨once, _⟩ | ⟨never, _⟩ <;> omega
  case moved =>
    intro who taken
    have once : last.disposals p = 1 := by
      have some : 0 < last.disposals p := List.countP_pos_iff.mpr ⟨_, taken, rfl⟩
      rcases after.sound.disposals_eq p with ⟨once, _⟩ | ⟨never, _⟩ <;> omega
    rcases after.sound.trace_of_disposed once with ⟨other, ended⟩ | ⟨other, ended⟩
    · simp [ended] at taken
    · obtain rfl : who = other := by simpa [ended] using taken
      exact ended
  case settled => exact after.settled
  case answers => exact after.answers
  case returns =>
    intro t call key started later races stepped certain continued back
    obtain ⟨promised, values⟩ := after.starts races stepped certain
    obtain ⟨_, kept⟩ := (after.stepped races stepped).reaches continued
    have bound := kept t
    rw [back] at bound
    omega
  case readable => exact fun t call member => after.readable member
  case safe => exact fun move faulty => after.sound.avoids_step word move _ faulty (Or.inl rfl)
  case progress => exact after.progress

/-- Three owners: one fails to unwrap at first and moves the payload out in the
end, one clones it, one drops its handle. -/
theorem racing_unwraps_witness :
    ∃ last : Sys 3 Nat Unit, .takeOut (0, ()) ∈ last.trace 0 ∧
      last.trace 0 = [.takeOut (0, ())] ∧ last.disposals 0 ≤ 1 :=
  have run := reaches_of_follow
    [(0, .new 7 ()), (0, .clone (.handle 0) .clone), (0, .advance), (0, .advance),
      (0, .clone (.handle 0) .clone), (0, .advance), (0, .advance)] rfl
  have race := reaches_of_follow
    [(1, .unique .unwrapOrClone 1), (2, .drop 2), (0, .unique .tryUnwrap 0),
      (2, .advance), (0, .advance), (1, .advance), (1, .readClone), (1, .cloneReturns 7),
      (1, .advance), (0, .unique .tryUnwrap 3), (0, .advance), (0, .advance)] rfl
  have taken := List.mem_singleton_self _
  have contest := racing_unwraps .wide run (by decide) rfl rfl rfl race
  ⟨_, taken, contest.moved _ taken, contest.once⟩

end Sys

end BackdropArc
