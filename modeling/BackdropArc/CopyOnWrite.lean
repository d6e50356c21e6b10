import BackdropArc.CopyOnWriteUnwind
import BackdropArc.PayloadFrames
import BackdropArc.UniqueAccess

/-!
# Copy on write

`make_mut` and its two variants look at the count, and if they saw anything but
1 they clone the payload into a block of their own and give the reference to
the old one back.  Between the look and the replacement all other threads may
clone and drop their handles, so what the call saw can be out of date when it
acts on it.  Whatever they do, the caller ends with a block that nobody else
refers to, and nobody else sees its writes.
-/

namespace BackdropArc

open GuardedRuns CountedLifecycle

variable {N : Nat} {V S : Type}

namespace Moment

/-- `T::clone` returns to the call of thread `t` that has `depth` calls below it. -/
def copies (t : Fin N) (depth : Nat) (moment : Moment N V S) : Bool :=
  moment.action.1 = t && moment.action.2.copied?.isSome &&
    (moment.before.threads t).stack.length = depth + 1

/-- The step belongs to the call itself, not to the user code that it runs. -/
def own (t : Fin N) (depth : Nat) (moment : Moment N V S) : Bool :=
  moment.copies t depth ||
    (moment.action.1 = t && (moment.before.threads t).stack.length = depth)

/-- How many owners block `p` lost by the step. -/
def lost (p : Nat) (moment : Moment N V S) : Int :=
  moment.before.owners p - moment.after.owners p

end Moment

/-- How often the call ran `T::clone` to its end. -/
def copiesMade (t : Fin N) (depth : Nat) (path : List (Moment N V S)) : Nat :=
  path.countP (Moment.copies t depth)

/-- How many owners the steps of the call took from block `p`. -/
def ownersLost (t : Fin N) (depth p : Nat) (path : List (Moment N V S)) : Int :=
  ((path.filter (Moment.own t depth)).map (Moment.lost p)).sum

namespace Sys

variable {s next : Sys N V S} {t : Fin N} {word : MachineWord} {p : Nat} {v : V}

/-- A step that writes to a block does it through a handle that stands for sole
ownership of the block. -/
theorem writer_of_step {move : Fin N × Act N V S} (stepped : step word s move = .ok next)
    (writes : s.writesTo p move.2 = true) :
    ∃ key hd, s.handles.get? key = some hd ∧ hd.sole = true ∧ hd.p = p := by
  obtain ⟨t, act⟩ := move
  rcases step_cases stepped with ⟨rfl, _⟩ | ⟨_, called⟩
  · simp [writesTo] at writes
  · cases called with
    | write found sole =>
        refine ⟨_, _, found, sole, ?_⟩
        simpa [writesTo, found] using writes
    | _ => simp [writesTo] at writes

/-- The payload of a block is safe from writes while a call refers to it. -/
theorem Sound.dataAt_of_held (sound : s.Sound) {move : Fin N × Act N V S}
    (stepped : step word s move = .ok next) (here : s.heap.dataAt p = some v)
    (held : 0 < (s.threads t).refs p) : next.heap.dataAt p = some v := by
  apply dataAt_of_step stepped here
  by_contra writes
  obtain ⟨key, hd, found, sole, rfl⟩ :=
    writer_of_step stepped (Bool.not_eq_false _ ▸ writes)
  have alone := (sound.alone found sole).inFlight
  have calls := refs_le_inFlight s t hd.p
  omega

/-- The payload of a block without owners is safe from writes. -/
theorem dataAt_of_unowned {move : Fin N × Act N V S}
    (stepped : step word s move = .ok next) (here : s.heap.dataAt p = some v)
    (unowned : s.owners p = 0) : next.heap.dataAt p = some v := by
  apply dataAt_of_step stepped here
  by_contra writes
  obtain ⟨key, hd, found, _, rfl⟩ := writer_of_step stepped (Bool.not_eq_false _ ▸ writes)
  have owned := owned_of_stored found
  omega

theorem stack_of_grant {call : UniqueCall} {ptr : Pointer S}
    (granted : s.grant t call ptr = .ok next) :
    (next.threads t).stack = (s.threads t).stack := by
  cases call with
  | getMut | makeMut | offsetMakeMut =>
      obtain rfl := Except.ok.inj granted
      simp [give, setOp]
  | getUnique | tryAsUnique | mustBeUnique | makeUnique | tryUnique | tryUnwrap
  | unwrapOrClone =>
      obtain ⟨_, _, result⟩ := bind_eq_ok.mp granted
      obtain rfl := Except.ok.inj result
      simp [give, setOp]

theorem stack_of_decline {call : UniqueCall} {ptr : Pointer S}
    (declined : s.decline t call ptr = .ok next) :
    (next.threads t).stack = (s.threads t).stack ∨
      (next.threads t).stack = .valueClone call ptr :: (s.threads t).stack := by
  cases call with
  | getMut | getUnique | tryAsUnique | tryUnique | tryUnwrap =>
      obtain rfl := Except.ok.inj declined
      simp [give, setOp]
  | mustBeUnique =>
      obtain ⟨_, _, result⟩ := bind_eq_ok.mp declined
      obtain rfl := Except.ok.inj result
      simp [give, setOp]
  | unwrapOrClone | makeMut | makeUnique | offsetMakeMut =>
      obtain rfl := Except.ok.inj declined
      simp

theorem stack_of_finish {rest : Rest V S} (finished : s.finish t rest = .ok next) :
    (next.threads t).stack = (s.threads t).stack := by
  cases rest with
  | grant call ptr => exact stack_of_grant finished
  | done | value | unwind =>
      obtain rfl := Except.ok.inj finished
      simp [setOp]

/-- A stage of a call leaves the stack as it is, or starts `T::clone`. -/
theorem stack_of_advanced (advanced : Advanced word s t next) :
    (next.threads t).stack = (s.threads t).stack ∨
      ∃ frame, (next.threads t).stack = frame :: (s.threads t).stack := by
  cases advanced with
  | fetchAdd | cloned | moved | lastReleased | acquired => simp [setOp]
  | grant _ granted => exact Or.inl (stack_of_grant granted)
  | decline _ _ declined => exact (stack_of_decline declined).imp id fun pushed => ⟨_, pushed⟩
  | released _ _ _ finished | finalized _ _ finished =>
      have same := stack_of_finish finished
      exact Or.inl same

/-- User code that does not return to a suspended call, and does not panic,
leaves the stack as it is or pushes a call. -/
theorem stack_of_called {act : Act N V S} (called : Called word s t act next) :
    (next.threads t).stack = (s.threads t).stack ∨
    (∃ frame, (next.threads t).stack = frame :: (s.threads t).stack) ∨
    ∃ frame, (s.threads t).stack = frame :: (next.threads t).stack ∧
      ((∃ source transient, frame = .callback source transient) ∨ act = .unwind ∨
        ∃ data, act = .cloneReturns data) := by
  cases called with
  | @enter source call borrow kind transient =>
      exact Or.inr (Or.inl ⟨.callback borrow transient, by simp⟩)
  | leave suspended | unwindCallback suspended =>
      exact Or.inr (Or.inr ⟨_, by simpa using suspended, Or.inl ⟨_, _, rfl⟩⟩)
  | unwindMake suspended | unwindOffsetMakeMut suspended
  | unwindUnwrapOrClone suspended =>
      exact Or.inr (Or.inr ⟨_, by simpa using suspended, Or.inr (Or.inl rfl)⟩)
  | unwrappedClone suspended | copyMade suspended =>
      exact Or.inr (Or.inr ⟨_, by simpa using suspended, Or.inr (Or.inr ⟨_, rfl⟩)⟩)
  | clone | drop | unique | intoInner => simp [setOp]
  | new | newUnique | borrow | endBorrow | read | count | cloneMany | nextNone | next
  | cloneIter | dropSpentIter | dropIter | forgetIter | convert | forget | readMut
  | write | endGrant | readClone => exact Or.inl rfl

/-- The steps of all threads while thread `t`, which was at `origin`, is in a
call whose `T::clone` returns values equal to the payload `v`. -/
def During (word : MachineWord) (t : Fin N) (origin : Thread V S) (v : V)
    (s : Sys N V S) (move : Fin N × Act N V S) : Prop :=
  s.Regular word move ∧ s.threads t ≠ origin ∧
    (move.1 = t → (s.threads t).stack.length = origin.stack.length + 1 →
      move.2 ≠ .unwind ∧ ∀ data ∈ move.2.copied?, data = v)

instance [DecidableEq V] [DecidableEq S] (word : MachineWord) (t : Fin N)
    (origin : Thread V S) (v : V) (s : Sys N V S) (move : Fin N × Act N V S) :
    Decidable (s.During word t origin v move) :=
  inferInstanceAs (Decidable (_ ∧ _ ∧ (_ → _ → _ ∧ _)))

/-- `own` points to a new block with a copy of the payload. -/
structure Copied (s : Sys N V S) (ptr own : Pointer S) (v : V) : Prop where
  strategy : own.strategy = ptr.strategy
  elsewhere : own.p ≠ ptr.p
  payload : s.heap.dataAt own.p = some v

/-- The call has just returned a mutable reference through the handle `own`. -/
structure Granted (s : Sys N V S) (t : Fin N) (call : UniqueCall)
    (stack : List (Call S)) (own : Pointer S) : Prop where
  back : s.threads t = ⟨.idle, stack⟩
  stored : ∃ key before,
    s.handles.get? key = some { own.handle call.form with lent := true } ∧
      s.log = before ++ [.returned t (.granted key)]

/-- How far a copy on write has come, with the number of copies it has made and
the number of owners that the block of `ptr` has lost by it. -/
inductive Stage (t : Fin N) (call : UniqueCall) (ptr : Pointer S) (loaded : Nat)
    (v : V) (stack : List (Call S)) (s : Sys N V S) : Nat → Int → Prop
  | tested : s.threads t = ⟨.tested call ptr loaded, stack⟩ →
      Stage t call ptr loaded v stack s 0 0
  /-- `T::clone` runs, with user code and calls of its own above it. -/
  | copying (op : Op V S) (above : List (Call S)) : loaded ≠ 1 →
      s.threads t = ⟨op, above ++ .valueClone call ptr :: stack⟩ →
      Stage t call ptr loaded v stack s 0 0
  | releasing (own : Pointer S) : loaded ≠ 1 → s.Copied ptr own v →
      s.threads t = ⟨.dropping ptr (.grant call own), stack⟩ →
      Stage t call ptr loaded v stack s 1 0
  | disposing (own : Pointer S) (op : Op V S) : loaded ≠ 1 → s.Copied ptr own v →
      op = .dropLoad ptr (.grant call own) ∨ op = .dropSlow ptr (.grant call own) →
      s.threads t = ⟨op, stack⟩ → Stage t call ptr loaded v stack s 1 1
  | kept : loaded = 1 → s.Granted t call stack ptr →
      Stage t call ptr loaded v stack s 0 0
  | replaced (own : Pointer S) : loaded ≠ 1 → s.Copied ptr own v →
      s.Granted t call stack own → s.heap.status ptr.p ≠ .counted 0 →
      Stage t call ptr loaded v stack s 1 1

section Stages

variable {call : UniqueCall} {ptr own : Pointer S} {loaded : Nat} {stack : List (Call S)}

theorem granted_of_grant (copies : call.copies = true) (below : (s.threads t).stack = stack)
    (granted : s.grant t call own = .ok next) : next.Granted t call stack own := by
  have given : next = s.give t { own.handle call.form with lent := true }
      (.granted s.handles.nextKey) := by
    cases call with
    | makeMut | offsetMakeMut => exact (Except.ok.inj granted).symm
    | makeUnique =>
        obtain ⟨_, _, result⟩ := bind_eq_ok.mp granted
        exact (Except.ok.inj result).symm
    | _ => simp [UniqueCall.copies] at copies
  subst given
  refine ⟨?_, _, s.log, SlotTable.get?_insert_nextKey _ _, rfl⟩
  simp [give, setOp, below]

/-- The answer to the test. -/
theorem stage_of_tested (copies : call.copies = true)
    (threads : s.threads t = ⟨.tested call ptr loaded, stack⟩)
    (stepped : step word s (t, .advance) = .ok next) :
    Stage t call ptr loaded v stack next 0 0 ∧ next.heap = s.heap := by
  rw [step_advance] at stepped
  cases advance_eq_ok.mp stepped with
  | @grant call' ptr' _ op granted =>
      obtain ⟨rfl, rfl, rfl⟩ : call' = call ∧ ptr' = ptr ∧ loaded = 1 := by
        simpa [threads, eq_comm] using op
      have below : (s.threads t).stack = stack := by rw [threads]
      exact ⟨.kept rfl (granted_of_grant copies below granted), (settles_grant granted).heap⟩
  | @decline call' ptr' loaded' _ op shared declined =>
      obtain ⟨rfl, rfl, rfl⟩ : call' = call ∧ ptr' = ptr ∧ loaded' = loaded := by
        simpa [threads, eq_comm] using op
      refine ⟨.copying .idle [] shared ?_, (settles_decline declined).heap⟩
      cases call' with
      | makeMut | makeUnique | offsetMakeMut =>
          obtain rfl := Except.ok.inj declined
          simp [threads]
      | _ => simp [UniqueCall.copies] at copies
  | fetchAdd op | cloned op | moved op | released op | lastReleased op | acquired op
  | finalized op => simp [threads] at op

/-- `T::clone` returns to the call: the copy gets a block of its own. -/
theorem stage_of_copy (copies : call.copies = true) (shared : loaded ≠ 1)
    (threads : s.threads t = ⟨.idle, .valueClone call ptr :: stack⟩)
    (payload : s.heap.dataAt ptr.p = some v)
    (called : Called word s t (.cloneReturns v) next) :
    Stage t call ptr loaded v stack next 1 0 ∧
      next.heap.status ptr.p = s.heap.status ptr.p := by
  have inside : ptr.p < s.heap.length := by
    by_contra outside
    simp [Heap.dataAt, List.getElem?_eq_none (Nat.le_of_not_lt outside)] at payload
  cases called with
  | unwrappedClone suspended =>
      obtain rfl : call = .unwrapOrClone := by
        rw [threads] at suspended
        simp only [List.cons.injEq, Call.valueClone.injEq] at suspended
        exact suspended.1.1
      simp [UniqueCall.copies] at copies
  | @copyMade _ call' ptr' stack' suspended =>
      obtain ⟨⟨rfl, rfl⟩, rfl⟩ : (call = call' ∧ ptr = ptr') ∧ stack = stack' := by
        rw [threads] at suspended
        simpa using suspended
      constructor
      · refine .releasing { ptr with p := s.heap.length } shared ⟨rfl, ?_, ?_⟩ ?_
        · exact Nat.ne_of_gt inside
        · rw [Heap.dataAt_allocate, if_pos rfl]
        · exact Function.update_self _ _ _
      · rw [(Heap.allocate_spec s.heap v).2.status_eq, if_neg (Nat.ne_of_lt inside)]

/-- A step of thread `t` within `T::clone`. -/
theorem stage_of_copying {op : Op V S} {above : List (Call S)} {act : Act N V S}
    (shared : loaded ≠ 1)
    (threads : s.threads t = ⟨op, above ++ .valueClone call ptr :: stack⟩)
    (calm : above = [] → act ≠ .unwind ∧ act.copied? = none)
    (stepped : step word s (t, act) = .ok next) :
    Stage t call ptr loaded v stack next 0 0 := by
  have stays {after : List (Call S)}
      (same : (next.threads t).stack = after ++ .valueClone call ptr :: stack) :
      Stage t call ptr loaded v stack next 0 0 :=
    .copying (next.threads t).op after shared (by rw [← same])
  have below : (s.threads t).stack = above ++ .valueClone call ptr :: stack := by
    rw [threads]
  rcases step_cases stepped with ⟨rfl, advanced⟩ | ⟨_, called⟩
  · rcases stack_of_advanced advanced with same | ⟨frame, pushed⟩
    · exact stays (same.trans below)
    · have deeper := pushed.trans (congrArg (frame :: ·) below)
      rw [← List.cons_append] at deeper
      exact stays deeper
  · rcases stack_of_called called with same | ⟨frame, pushed⟩ | ⟨frame, popped, cause⟩
    · exact stays (same.trans below)
    · have deeper := pushed.trans (congrArg (frame :: ·) below)
      rw [← List.cons_append] at deeper
      exact stays deeper
    · rw [below] at popped
      cases above with
      | nil =>
          obtain ⟨rfl, _⟩ := List.cons.inj popped
          obtain ⟨kept, none⟩ := calm rfl
          rcases cause with ⟨_, _, wrong⟩ | unwound | ⟨data, rfl⟩
          · simp at wrong
          · exact absurd unwound kept
          · simp [Act.copied?] at none
      | cons top above => exact stays (List.cons.inj popped).2.symm

/-- A step of thread `t` while `T::clone` runs. -/
theorem stage_of_running {op : Op V S} {above : List (Call S)} {act : Act N V S}
    (copies : call.copies = true) (shared : loaded ≠ 1)
    (threads : s.threads t = ⟨op, above ++ .valueClone call ptr :: stack⟩)
    (payload : s.heap.dataAt ptr.p = some v)
    (faithful : above = [] → act ≠ .unwind ∧ ∀ data ∈ act.copied?, data = v)
    (stepped : step word s (t, act) = .ok next) :
    (¬ (above = [] ∧ act.copied?.isSome = true) ∧
        Stage t call ptr loaded v stack next 0 0) ∨
      (above = [] ∧ act.copied?.isSome = true ∧
        Stage t call ptr loaded v stack next 1 0 ∧
          next.heap.status ptr.p = s.heap.status ptr.p) := by
  by_cases returns : above = [] ∧ act.copied?.isSome = true
  · right
    obtain ⟨rfl, some⟩ := returns
    obtain ⟨data, rfl⟩ : ∃ data, act = .cloneReturns data := by
      cases act <;> simp [Act.copied?] at some ⊢
    obtain rfl : data = v := (faithful rfl).2 data rfl
    rcases step_cases stepped with ⟨wrong, _⟩ | ⟨idle, called⟩
    · simp at wrong
    · have asleep : s.threads t = ⟨.idle, .valueClone call ptr :: stack⟩ := by
        rw [← idle, threads]
        rfl
      exact ⟨rfl, some, stage_of_copy copies shared asleep payload called⟩
  · refine Or.inl ⟨returns, stage_of_copying shared threads (fun top => ?_) stepped⟩
    refine ⟨(faithful top).1, ?_⟩
    simpa [top] using returns

/-- The `fetch_sub` on the old block. -/
theorem stage_of_releasing (fits : s.Fits word)
    (counted : ∃ count, s.heap.status ptr.p = .counted (count + 1))
    (copies : call.copies = true) (shared : loaded ≠ 1) (copied : s.Copied ptr own v)
    (threads : s.threads t = ⟨.dropping ptr (.grant call own), stack⟩)
    (kept : next.heap.dataAt own.p = some v)
    (stepped : step word s (t, .advance) = .ok next) :
    Stage t call ptr loaded v stack next 1 1 ∧ ∃ count,
      s.heap.status ptr.p = .counted (count + 1) ∧
        next.heap.status ptr.p = .counted count := by
  obtain ⟨count, counted⟩ := counted
  have copied' : next.Copied ptr own v := ⟨copied.strategy, copied.elsewhere, kept⟩
  have below : (s.threads t).stack = stack := by rw [threads]
  rw [step_advance] at stepped
  cases advance_eq_ok.mp stepped with
  | @released ptr' rest old heap _ op subtracted several finished =>
      obtain ⟨rfl, rfl⟩ : ptr' = ptr ∧ rest = .grant call own := by
        simpa [threads, eq_comm] using op
      have same : next.heap = heap := (settles_finish finished).heap
      obtain ⟨before, changes⟩ := Heap.fetchSub_spec subtracted
      obtain rfl : old = count + 1 := by simpa [counted] using before.symm
      have fit := fits _ _ counted
      have after : next.heap.status ptr'.p = .counted count := by
        rw [same, changes.status_eq, if_pos rfl,
          show count + 1 + word.modulus - 1 = count + word.modulus by omega,
          Nat.add_mod_right, Nat.mod_eq_of_lt (by omega)]
      refine ⟨.replaced own shared copied' ?_ ?_, count, counted, after⟩
      · exact granted_of_grant (s := { s with heap := heap }) copies below finished
      · rw [after]
        simpa using several
  | @lastReleased ptr' rest heap op subtracted =>
      obtain ⟨rfl, rfl⟩ : ptr' = ptr ∧ rest = .grant call own := by
        simpa [threads, eq_comm] using op
      obtain ⟨before, changes⟩ := Heap.fetchSub_spec subtracted
      obtain rfl : count = 0 := by simpa [counted] using before
      refine ⟨.disposing own _ shared copied' (Or.inl rfl) ?_, 0, counted, ?_⟩
      · simp [setOp, threads]
      · rw [changes.status_eq, if_pos rfl, Nat.add_sub_cancel_left, Nat.mod_self]
  | fetchAdd op | cloned op | grant op | decline op | moved op | acquired op
  | finalized op => simp [threads] at op

/-- The rest of a destructor that found nobody else. -/
theorem stage_of_disposing {op : Op V S} (copies : call.copies = true)
    (shared : loaded ≠ 1) (copied : s.Copied ptr own v)
    (last : op = .dropLoad ptr (.grant call own) ∨ op = .dropSlow ptr (.grant call own))
    (threads : s.threads t = ⟨op, stack⟩) (kept : next.heap.dataAt own.p = some v)
    (empty : s.heap.status ptr.p = .counted 0)
    (stepped : step word s (t, .advance) = .ok next) :
    Stage t call ptr loaded v stack next 1 1 ∧
      (next.heap.status ptr.p = .counted 0 ∨ next.heap.status ptr.p = .freed) := by
  have copied' : next.Copied ptr own v := ⟨copied.strategy, copied.elsewhere, kept⟩
  have below : (s.threads t).stack = stack := by rw [threads]
  rw [step_advance] at stepped
  cases advance_eq_ok.mp stepped with
  | @acquired ptr' rest count op' load =>
      rcases last with rfl | rfl
      · obtain ⟨rfl, rfl⟩ : ptr' = ptr ∧ rest = .grant call own := by
          simpa [threads, eq_comm] using op'
        refine ⟨.disposing own _ shared copied' (Or.inr rfl) ?_, Or.inl empty⟩
        simp [setOp, threads]
      · simp [threads] at op'
  | @finalized ptr' rest heap _ op' given finished =>
      rcases last with rfl | rfl
      · simp [threads] at op'
      · obtain ⟨rfl, rfl⟩ : ptr' = ptr ∧ rest = .grant call own := by
          simpa [threads, eq_comm] using op'
        let disposed : Sys N V S := { s with
          heap := heap
          log := s.log ++ [.life ptr'.p (.finalize (t, ptr'.strategy))] }
        have same : next.heap = heap := (settles_finish finished).heap
        have freed : next.heap.status ptr'.p = .freed := by
          rw [same, (Heap.giveAway_spec rfl given).2.status_eq, if_pos rfl]
        refine ⟨.replaced own shared copied' ?_ (by simp [freed]), Or.inr freed⟩
        exact granted_of_grant (s := disposed) copies below finished
  | fetchAdd op' | cloned op' | grant op' | decline op' | moved op' | released op'
  | lastReleased op' => rcases last with rfl | rfl <;> simp [threads] at op'

end Stages

/-! ## The whole call -/

theorem copiesMade_append (t : Fin N) (depth : Nat) (path : List (Moment N V S))
    (moment : Moment N V S) : copiesMade t depth (path ++ [moment]) =
      copiesMade t depth path + if moment.copies t depth then 1 else 0 := by
  simp only [copiesMade, List.countP_append, List.countP_singleton]

theorem ownersLost_append (t : Fin N) (depth p : Nat) (path : List (Moment N V S))
    (moment : Moment N V S) : ownersLost t depth p (path ++ [moment]) =
      ownersLost t depth p path + if moment.own t depth then moment.lost p else 0 := by
  unfold ownersLost
  rw [List.filter_append, List.map_append, List.sum_append]
  by_cases own : moment.own t depth = true <;> simp [own]

/-- The invariant of a copy on write. -/
structure CopyRun (t : Fin N) (call : UniqueCall) (ptr : Pointer S) (loaded : Nat)
    (v : V) (stack : List (Call S)) (path : List (Moment N V S)) (s : Sys N V S) :
    Prop where
  sound : s.Sound
  payload : s.heap.dataAt ptr.p = some v
  stage : Stage t call ptr loaded v stack s (copiesMade t stack.length path)
    (ownersLost t stack.length ptr.p path)

section Run

variable {call : UniqueCall} {ptr own : Pointer S} {loaded : Nat} {stack : List (Call S)}
  {path : List (Moment N V S)}

/-- Until it is back, the call refers to the old block or is about to dispose of
it. -/
theorem Stage.refers {copies : Nat} {lost : Int}
    (stage : Stage t call ptr loaded v stack s copies lost)
    (under : s.threads t ≠ ⟨.idle, stack⟩) :
    0 < (s.threads t).refs ptr.p ∨ s.Finishing ptr.p (t, ptr.strategy) := by
  cases stage with
  | tested threads =>
      refine Or.inl (Nat.lt_of_lt_of_le ?_ (op_refs_le _ _))
      simp [threads, Op.refs]
  | copying op above _ threads =>
      left
      simp only [threads, Thread.refs, List.map_append, List.map_cons, List.sum_append,
        List.sum_cons, Call.refs, pointer_refs_self]
      omega
  | releasing own _ _ threads =>
      refine Or.inl (Nat.lt_of_lt_of_le ?_ (op_refs_le _ _))
      simp only [threads, Op.refs, pointer_refs_self]
      omega
  | disposing own op _ _ last threads =>
      right
      rcases last with rfl | rfl <;> simp [Finishing, threads, Op.finishing?]
  | kept _ granted => exact absurd granted.back under
  | replaced own _ _ granted _ => exact absurd granted.back under

/-- Nobody writes to the old block while the call is under way. -/
theorem CopyRun.payload_next {move : Fin N × Act N V S}
    (run : CopyRun t call ptr loaded v stack path s) (under : s.threads t ≠ ⟨.idle, stack⟩)
    (stepped : step word s move = .ok next) : next.heap.dataAt ptr.p = some v := by
  rcases run.stage.refers under with held | pending
  · exact run.sound.dataAt_of_held stepped run.payload held
  · exact dataAt_of_unowned stepped run.payload (run.sound.of_finishing pending).2

/-- Nobody writes to the new block while the call refers to it. -/
theorem Copied.stepped (sound : s.Sound) (copied : s.Copied ptr own v)
    {move : Fin N × Act N V S} (stepped : step word s move = .ok next)
    (claim : (s.threads t).op.claim? = some own.p) : next.Copied ptr own v where
  strategy := copied.strategy
  elsewhere := copied.elsewhere
  payload := sound.dataAt_of_held stepped copied.payload
    (Nat.lt_of_lt_of_le (refs_of_claim claim) (op_refs_le _ _))

/-- While the call is under way, user code runs only above it. -/
theorem Stage.deep {copies : Nat} {lost : Int}
    (stage : Stage t call ptr loaded v stack s copies lost)
    (under : s.threads t ≠ ⟨.idle, stack⟩) (idle : (s.threads t).op = .idle) :
    stack.length < (s.threads t).stack.length := by
  cases stage with
  | tested threads | releasing _ _ _ threads => simp [threads] at idle
  | copying op above _ threads =>
      rw [threads, List.length_append, List.length_cons]
      omega
  | disposing own op _ _ last threads => rcases last with rfl | rfl <;> simp [threads] at idle
  | kept _ granted => exact absurd granted.back under
  | replaced own _ _ granted _ => exact absurd granted.back under

theorem Stage.of_other {copies : Nat} {lost : Int} {move : Fin N × Act N V S}
    (sound : s.Sound) (stage : Stage t call ptr loaded v stack s copies lost)
    (under : s.threads t ≠ ⟨.idle, stack⟩) (other : move.1 ≠ t)
    (stepped : step word s move = .ok next) :
    Stage t call ptr loaded v stack next copies lost := by
  have same := (step_frame stepped).others t (Ne.symm other)
  cases stage with
  | tested threads => exact .tested (same.trans threads)
  | copying op above shared threads => exact .copying op above shared (same.trans threads)
  | releasing own shared copied threads =>
      have claim : (s.threads t).op.claim? = some own.p := by
        simp [threads, Op.claim?, Rest.claim?]
      exact .releasing own shared (copied.stepped sound stepped claim) (same.trans threads)
  | disposing own op shared copied last threads =>
      have claim : (s.threads t).op.claim? = some own.p := by
        rcases last with rfl | rfl <;> simp [threads, Op.claim?, Rest.claim?]
      exact .disposing own op shared (copied.stepped sound stepped claim) last
        (same.trans threads)
  | kept _ granted => exact absurd granted.back under
  | replaced own _ _ granted _ => exact absurd granted.back under

theorem advance_of_busy {act : Act N V S} (busy : (s.threads t).op ≠ .idle)
    (stepped : step word s (t, act) = .ok next) : act = .advance := by
  rcases step_cases stepped with ⟨same, _⟩ | ⟨idle, _⟩
  · exact same
  · exact absurd idle busy

/-- What a block has lost by a step, told by its counts. -/
theorem lost_of_counted {move : Fin N × Act N V S} (sound : s.Sound) (sound' : next.Sound)
    {count count' : Nat} (before : s.heap.status p = .counted count)
    (after : next.heap.status p = .counted count') :
    Moment.lost p ⟨s, move, next⟩ = count - count' := by
  unfold Moment.lost
  rw [sound.owners_of_counted before, sound'.owners_of_counted after]

theorem Sound.owners_of_freed (sound : s.Sound) (freed : s.heap.status p = .freed) :
    s.owners p = 0 := by
  obtain ⟨phase, accounts, _⟩ := sound.accounts p
  cases phase with
  | gone => exact accounts.2.1
  | unborn | live | dying => simp [Accounts, freed] at accounts

/-- The next stage, for a step of the thread itself. -/
theorem Stage.of_own {copies : Nat} {lost : Int} {act : Act N V S}
    (copying : call.copies = true) (sound : s.Sound) (sound' : next.Sound)
    (fits : s.Fits word) (payload : s.heap.dataAt ptr.p = some v)
    (stage : Stage t call ptr loaded v stack s copies lost)
    (under : s.threads t ≠ ⟨.idle, stack⟩)
    (faithful : (s.threads t).stack.length = stack.length + 1 →
      act ≠ .unwind ∧ ∀ data ∈ act.copied?, data = v)
    (stepped : step word s (t, act) = .ok next) :
    Stage t call ptr loaded v stack next
      (copies + if Moment.copies t stack.length ⟨s, (t, act), next⟩ then 1 else 0)
      (lost + if Moment.own t stack.length ⟨s, (t, act), next⟩ then
        Moment.lost ptr.p ⟨s, (t, act), next⟩ else 0) := by
  have referring := stage.refers under
  cases stage with
  | tested threads =>
      obtain rfl := advance_of_busy (by simp [threads]) stepped
      obtain ⟨after, heap⟩ := stage_of_tested (v := v) copying threads stepped
      have counted := sound.counted_of_owned (owned_of_op (t := t) (p := ptr.p) (by
        simp [threads, Op.refs]))
      have lost : Moment.lost ptr.p ⟨s, (t, .advance), next⟩ = _ :=
        lost_of_counted sound sound' counted (heap ▸ counted)
      simpa [Moment.copies, Act.copied?, lost] using after
  | copying op above shared threads =>
      have depth : (s.threads t).stack.length = above.length + (stack.length + 1) := by
        rw [threads, List.length_append, List.length_cons]
      have running := stage_of_running copying shared threads payload
        (fun top => faithful (by simp [depth, top])) stepped
      rcases running with ⟨inside, after⟩ | ⟨rfl, some, after, status⟩
      · have none : Moment.copies t stack.length ⟨s, (t, act), next⟩ = false := by
          simp only [Moment.copies, decide_true, Bool.true_and, Bool.and_eq_false_imp,
            decide_eq_false_iff_not]
          intro some top
          exact inside ⟨List.eq_nil_of_length_eq_zero (by omega), some⟩
        have above : (s.threads t).stack.length ≠ stack.length := by omega
        simpa [Moment.own, none, above] using after
      · have counted := sound.counted_of_owned (owned_of_stack (by rw [threads]; rfl))
        have lost : Moment.lost ptr.p ⟨s, (t, act), next⟩ = _ :=
          lost_of_counted sound sound' counted (status.trans counted)
        simpa [Moment.own, Moment.copies, threads, some, lost] using after
  | releasing own shared copied threads =>
      have claim : (s.threads t).op.claim? = some own.p := by
        simp [threads, Op.claim?, Rest.claim?]
      have kept := (copied.stepped sound stepped claim).payload
      have owned : 0 < s.owners ptr.p := owned_of_op (t := t) (by
        simp only [threads, Op.refs, pointer_refs_self]
        omega)
      obtain rfl := advance_of_busy (by simp [threads]) stepped
      obtain ⟨count, count_eq⟩ := Nat.exists_eq_add_of_lt owned
      obtain ⟨after, count, before, later⟩ := stage_of_releasing fits
        ⟨count, by rw [sound.counted_of_owned owned, count_eq, Nat.zero_add]⟩ copying shared
        copied threads kept stepped
      have lost : Moment.lost ptr.p ⟨s, (t, .advance), next⟩ = _ :=
        lost_of_counted sound sound' before later
      simpa [Moment.own, Moment.copies, Act.copied?, threads, lost] using after
  | disposing own op shared copied last threads =>
      have claim : (s.threads t).op.claim? = some own.p := by
        rcases last with rfl | rfl <;> simp [threads, Op.claim?, Rest.claim?]
      have kept := (copied.stepped sound stepped claim).payload
      have pending : s.Finishing ptr.p (t, ptr.strategy) := by
        rcases last with rfl | rfl <;> simp [Finishing, threads, Op.finishing?]
      obtain ⟨empty, unowned⟩ := sound.of_finishing pending
      obtain rfl := advance_of_busy (by rcases last with rfl | rfl <;> simp [threads]) stepped
      obtain ⟨after, status⟩ :=
        stage_of_disposing copying shared copied last threads kept empty stepped
      have unowned' : next.owners ptr.p = 0 := by
        rcases status with counted | freed
        · exact sound'.owners_of_counted counted
        · exact sound'.owners_of_freed freed
      simpa [Moment.own, Moment.copies, Act.copied?, threads, Moment.lost, unowned,
        unowned'] using after
  | kept _ granted => exact absurd granted.back under
  | replaced own _ _ granted _ => exact absurd granted.back under

theorem CopyRun.stepped {move : Fin N × Act N V S} (copies : call.copies = true)
    (run : CopyRun t call ptr loaded v stack path s)
    (during : s.During word t ⟨.idle, stack⟩ v move)
    (stepped : step word s move = .ok next) :
    CopyRun t call ptr loaded v stack (path ++ [⟨s, move, next⟩]) next := by
  obtain ⟨regular, under, faithful⟩ := during
  obtain ⟨u, act⟩ := move
  have sound := run.sound.stepped regular.1 regular.2 stepped
  refine ⟨sound, run.payload_next under stepped, ?_⟩
  rw [copiesMade_append, ownersLost_append]
  by_cases own : u = t
  · subst own
    exact run.stage.of_own copies run.sound sound regular.1.fits run.payload under
      (faithful rfl) stepped
  · have after := run.stage.of_other run.sound under own stepped
    simpa [Moment.own, Moment.copies, own] using after

/-- The first step of the call, which loads the count. -/
theorem copyRun_of_started (sound : next.Sound) {key : Nat} {hd : Handle S}
    (found : s.handles.get? key = some hd) (payload : s.heap.dataAt hd.p = some v)
    (stepped : step word s (t, .unique call key) = .ok next) :
    ∃ loaded, s.heap.status hd.p = .counted loaded ∧
      s.threads t = ⟨.idle, (s.threads t).stack⟩ ∧
        CopyRun t call hd.toPointer loaded v (s.threads t).stack [] next := by
  rcases step_cases stepped with ⟨wrong, _⟩ | ⟨idle, called⟩
  · simp at wrong
  · cases called with
    | @unique _ _ loaded stored freed form load =>
        obtain rfl : stored = hd := by
          simpa [found] using (free_eq_ok.mp freed).1.symm
        refine ⟨loaded, Heap.load_eq_ok.mp load, by rw [← idle], sound, payload, ?_⟩
        exact .tested (by simp [setOp])

/-- The call is never stuck. -/
theorem Stage.progress {copies : Nat} {lost : Int} (copying : call.copies = true)
    (sound : s.Sound) (stage : Stage t call ptr loaded v stack s copies lost)
    (word : MachineWord) (under : s.threads t ≠ ⟨.idle, stack⟩) :
    ((s.threads t).stack.length = stack.length →
      ∃ next, step word s (t, .advance) = .ok next) ∧
    ((s.threads t).stack.length = stack.length + 1 → (s.threads t).op = .idle →
      ∃ next, step word s (t, .cloneReturns v) = .ok next) := by
  have advances (busy : (s.threads t).op ≠ .idle)
      (unchecked : ∀ source form strategy old,
        (s.threads t).op ≠ .cloned source form strategy old) :
      ∃ next, step word s (t, .advance) = .ok next := by
    rw [step_advance]
    exact sound.advance_succeeds word busy unchecked
  cases stage with
  | tested threads | releasing own _ _ threads =>
      exact ⟨fun _ => advances (by simp [threads]) (by simp [threads]),
        fun deeper => by simp [threads] at deeper⟩
  | disposing own op _ _ last threads =>
      refine ⟨fun _ => ?_, fun deeper => by simp [threads] at deeper⟩
      rcases last with rfl | rfl <;> exact advances (by simp [threads]) (by simp [threads])
  | copying op above _ threads =>
      constructor
      · intro same
        simp only [threads, List.length_append, List.length_cons] at same
        omega
      · intro one idle
        obtain rfl : above = [] := by
          apply List.eq_nil_of_length_eq_zero
          simp only [threads, List.length_append, List.length_cons] at one
          omega
        have top : (s.threads t).stack = .valueClone call ptr :: stack := by rw [threads]; rfl
        have other : call ≠ .unwrapOrClone := by
          rintro rfl
          simp [UniqueCall.copies] at copying
        rw [step_of_idle idle (by simp)]
        exact ⟨_, Called.call_eq (.copyMade top other)⟩
  | kept _ granted => exact absurd granted.back under
  | replaced own _ _ granted _ => exact absurd granted.back under

/-- What a copy on write has come to when its thread is back, if the caller gave
a handle `ptr` to a block with payload `v` and the test saw `loaded`: it has granted
a mutable reference through the handle `own`, which is now stored under `key`. -/
structure Isolated (word : MachineWord) (t : Fin N) (call : UniqueCall) (ptr : Pointer S)
    (loaded : Nat) (v : V) (depth : Nat) (path : List (Moment N V S)) (s : Sys N V S)
    (key : Nat) (own : Pointer S) : Prop where
  answer : ∃ before, s.log = before ++ [.returned t (.granted key)]
  stored : s.handles.get? key = some { own.handle call.form with lent := true }
  strategy : own.strategy = ptr.strategy
  alone : s.Alone own.p key
  same_iff : own.p = ptr.p ↔ loaded = 1
  reads : s.heap.read own.p = .ok v
  /-- Whatever is written through the reference, only the caller reads it. -/
  mutates : ∀ f : V → V, ∃ after, step word s (t, .write key (f v)) = .ok after ∧
    after.heap.read own.p = .ok (f v) ∧ after.heap.status own.p = .counted 1 ∧
      ∀ other hd, after.handles.get? other = some hd → other ≠ key → hd.p = ptr.p →
        after.heap.read ptr.p = .ok v
  copies : copiesMade t depth path = if loaded = 1 then 0 else 1
  lost : ownersLost t depth ptr.p path = if loaded = 1 then 0 else 1
  disposed : s.disposals ptr.p = if s.owners ptr.p = 0 then 1 else 0

/-- Writing through a granted reference. -/
theorem Sound.mutates (sound : s.Sound) (word : MachineWord) {key : Nat}
    (idle : (s.threads t).op = .idle)
    (stored : s.handles.get? key = some { own.handle call.form with lent := true })
    (payload : s.heap.dataAt ptr.p = some v) (data : V) :
    ∃ after, step word s (t, .write key data) = .ok after ∧
      after.heap.read own.p = .ok data ∧ after.heap.status own.p = .counted 1 ∧
        ∀ other hd, after.handles.get? other = some hd → other ≠ key → hd.p = ptr.p →
          after.heap.read ptr.p = .ok v := by
  have alone : s.Alone own.p key := sound.alone stored rfl
  obtain ⟨heap, written⟩ := Heap.write_of_counted alone.counted data
  obtain ⟨old, counted, changes⟩ := Heap.write_spec written
  obtain rfl : old = 1 := by simpa [alone.counted] using counted.symm
  have now := changes.status_eq own.p
  rw [if_pos rfl] at now
  refine ⟨{ s with heap := heap }, ?_, Heap.read_eq_ok.mpr ⟨⟨1, now⟩, ?_⟩, now, ?_⟩
  · rw [step_of_idle idle (by simp)]
    exact Called.call_eq (.write stored rfl written)
  · rw [Heap.write_dataAt written, if_pos rfl]
  · intro other hd found different same
    have elsewhere : ptr.p ≠ own.p := fun here =>
      different (alone.handles other hd found (same.trans here))
    have owned : 0 < s.owners ptr.p := same ▸ owned_of_stored (s := s) found
    refine Heap.read_eq_ok.mpr ⟨⟨s.owners ptr.p, ?_⟩, ?_⟩
    · rw [changes.status_eq, if_neg elsewhere, sound.counted_of_owned owned]
    · rw [Heap.write_dataAt written, if_neg elsewhere, payload]

/-- A block that no destructor is at work on has been disposed of once if it has
no owners, and else not at all. -/
theorem Sound.disposals_of_settled (sound : s.Sound) (payload : s.heap.dataAt p = some v)
    (settled : s.heap.status p ≠ .counted 0) :
    s.disposals p = if s.owners p = 0 then 1 else 0 := by
  rcases sound.disposals_eq p with ⟨once, freed⟩ | ⟨never, kept⟩
  · rw [once, if_pos (sound.owners_of_freed freed)]
  · rw [never, if_neg]
    intro unowned
    have allocated : s.heap.status p ≠ .absent := by
      intro absent
      have outside := Heap.status_eq_absent.mp absent
      simp [Heap.dataAt, List.getElem?_eq_none outside] at payload
    rcases sound.disposed_or_pending allocated unowned with once | ⟨who, pending⟩
    · omega
    · exact settled (sound.of_finishing pending).1

/-- Thread `t` is back only when the call has granted its reference. -/
theorem Stage.granted {copies : Nat} {lost : Int} (sound : s.Sound)
    (stage : Stage t call ptr loaded v stack s copies lost)
    (back : s.threads t = ⟨.idle, stack⟩) (payload : s.heap.dataAt ptr.p = some v) :
    ∃ own, s.Granted t call stack own ∧ own.strategy = ptr.strategy ∧
      s.heap.dataAt own.p = some v ∧ (own.p = ptr.p ↔ loaded = 1) ∧
        s.heap.status ptr.p ≠ .counted 0 ∧
          copies = (if loaded = 1 then 0 else 1) ∧ lost = if loaded = 1 then 0 else 1 := by
  cases stage with
  | kept one granted =>
      obtain ⟨key, _, stored, _⟩ := granted.stored
      have counted : s.heap.status ptr.p = .counted 1 := (sound.alone stored rfl).counted
      refine ⟨ptr, granted, rfl, payload, by simp [one], ?_, by simp [one]⟩
      intro empty
      simp [empty] at counted
  | replaced own shared copied granted settled =>
      refine ⟨own, granted, copied.strategy, copied.payload, ?_, settled, by simp [shared]⟩
      exact iff_of_false copied.elsewhere shared
  | tested threads | releasing _ _ _ threads => simp [back] at threads
  | copying op above _ threads =>
      rw [back] at threads
      have lengths := congrArg (fun thread => thread.stack.length) threads
      simp only [List.length_append, List.length_cons] at lengths
      omega
  | disposing own op _ _ last threads => rcases last with rfl | rfl <;> simp [back] at threads

theorem CopyRun.isolated (run : CopyRun t call ptr loaded v stack path s)
    (word : MachineWord) (back : s.threads t = ⟨.idle, stack⟩) :
    ∃ key own, Isolated word t call ptr loaded v stack.length path s key own := by
  obtain ⟨own, granted, strategy, mine, same_iff, settled, copies, lost⟩ :=
    run.stage.granted run.sound back run.payload
  obtain ⟨key, before, stored, log⟩ := granted.stored
  have idle : (s.threads t).op = .idle := by rw [back]
  exact ⟨key, own, {
    answer := ⟨before, log⟩
    stored := stored
    strategy := strategy
    alone := run.sound.alone stored rfl
    same_iff := same_iff
    reads := Heap.read_eq_ok.mpr ⟨⟨1, (run.sound.alone stored rfl).counted⟩, mine⟩
    mutates := fun f => run.sound.mutates word idle stored run.payload (f v)
    copies := copies
    lost := lost
    disposed := run.sound.disposals_of_settled run.payload settled }⟩

end Run

end Sys

end BackdropArc
