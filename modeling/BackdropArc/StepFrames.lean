import BackdropArc.CallSteps
import BackdropArc.StepCases

/-!
# What a single step writes

A step of a thread leaves the calls of the other threads alone, changes the
heap in one of nine ways, and appends to the history only events of the block
that its own call is working on.  None of this depends on the accounts being
in order.
-/

namespace BackdropArc

open GuardedRuns CountedLifecycle

variable {N : Nat} {V S : Type}

namespace Sys

/-- A step is in accordance with its thread: an event of a block's life is
caused by the call of the thread that reports it. -/
def Causes (s next : Sys N V S) (t : Fin N) (p : Nat) : Event (Fin N × S) → Prop
  | .lastRelease who => ∃ ptr rest,
      (s.threads t).op = .dropping ptr rest ∧ ptr.p = p ∧
        who = (t, ptr.strategy) ∧ s.heap.status p = .counted 1 ∧
          next.heap.status p = .counted 0
  | .finalize who => ∃ ptr rest,
      (s.threads t).op = .dropSlow ptr rest ∧ ptr.p = p ∧
        who = (t, ptr.strategy) ∧
          next.heap.fateAt p = some (.backdropped ptr.strategy)
  | .takeOut who => ∃ ptr,
      (s.threads t).op = .moving ptr ∧ ptr.p = p ∧ who = (t, ptr.strategy) ∧
        next.heap.fateAt p = some .movedOut

/-- The ways in which a step of `t` can change the heap. -/
inductive HeapMove (word : MachineWord) (s : Sys N V S) (t : Fin N) :
    Sys N V S → Prop
  | same {next : Sys N V S} : next.heap = s.heap → HeapMove word s t next
  | allocate {next : Sys N V S} (data : V) :
      next.heap = s.heap.allocate data → HeapMove word s t next
  | leak {next : Sys N V S} (p references : Nat) :
      next.heap = s.heap.leak p references → HeapMove word s t next
  | write {next : Sys N V S} (p : Nat) (data : V) :
      s.heap.write p data = .ok next.heap → HeapMove word s t next
  | reserve {next : Sys N V S} (p count : Nat) :
      s.heap.fetchUpdate (cloneManyUpdate word count) p = .ok next.heap →
        HeapMove word s t next
  | giveBack {next : Sys N V S} (p arcsLeft : Nat) :
      s.heap.fetchUpdate (dropIterUpdate arcsLeft) p = .ok next.heap →
        HeapMove word s t next
  | fetchAdd {next : Sys N V S} (source : Borrow) (form : SharedForm)
      (strategy : S) (old : Nat) :
      (s.threads t).op = .cloning source form strategy →
        (next.threads t).op = .cloned source form strategy old →
          s.heap.fetchAdd word source.p = .ok (old, next.heap) →
            HeapMove word s t next
  | fetchSub {next : Sys N V S} (ptr : Pointer S) (rest : Rest V S) (old : Nat) :
      (s.threads t).op = .dropping ptr rest →
        s.heap.fetchSub word ptr.p = .ok (old, next.heap) → HeapMove word s t next
  | giveAway {next : Sys N V S} (p : Nat) (fate : Fate S) :
      fate.isLive = false → s.heap.giveAway p fate = .ok next.heap →
        HeapMove word s t next

/-- Everything a step of `t` writes. -/
structure Frame (word : MachineWord) (s next : Sys N V S) (t : Fin N) : Prop where
  others : Others s next t
  heap : HeapMove word s t next
  history : ∃ entries, next.log = s.log ++ entries ∧
    ∀ p event, .life p event ∈ entries → s.Causes next t p event

variable {s next : Sys N V S} {t : Fin N} {word : MachineWord}

/-- At most answers were appended to the history. -/
def Answers (s next : Sys N V S) : Prop :=
  ∃ entries, next.log = s.log ++ entries ∧
    ∀ p event, (.life p event : Entry N V S) ∉ entries

theorem answers_silent (log : next.log = s.log) : Answers s next :=
  ⟨[], by simp [log], by simp⟩

theorem answers_returned {answer : Answer V}
    (log : next.log = s.log ++ [.returned t answer]) : Answers s next :=
  ⟨_, log, by simp⟩

theorem answers_grant {call : UniqueCall} {ptr : Pointer S}
    (granted : s.grant t call ptr = .ok next) : Answers s next := by
  cases call with
  | getMut | makeMut | offsetMakeMut =>
      obtain rfl := Except.ok.inj granted
      exact answers_returned rfl
  | getUnique | tryAsUnique | mustBeUnique | makeUnique | tryUnique =>
      obtain ⟨_, _, result⟩ := bind_eq_ok.mp granted
      obtain rfl := Except.ok.inj result
      exact answers_returned rfl
  | tryUnwrap | unwrapOrClone =>
      obtain ⟨_, _, result⟩ := bind_eq_ok.mp granted
      obtain rfl := Except.ok.inj result
      exact answers_silent rfl

theorem answers_decline {call : UniqueCall} {ptr : Pointer S}
    (declined : s.decline t call ptr = .ok next) : Answers s next := by
  cases call with
  | getMut | getUnique | tryAsUnique | tryUnique | tryUnwrap =>
      obtain rfl := Except.ok.inj declined
      exact answers_returned rfl
  | mustBeUnique =>
      obtain ⟨_, _, result⟩ := bind_eq_ok.mp declined
      obtain rfl := Except.ok.inj result
      exact answers_returned rfl
  | unwrapOrClone | makeMut | makeUnique | offsetMakeMut =>
      obtain rfl := Except.ok.inj declined
      exact answers_silent rfl

theorem answers_finish {rest : Rest V S} (finished : s.finish t rest = .ok next) :
    Answers s next := by
  cases rest with
  | done =>
      obtain rfl := Except.ok.inj finished
      exact answers_silent rfl
  | grant call ptr => exact answers_grant finished
  | value data | unwind =>
      obtain rfl := Except.ok.inj finished
      exact answers_returned rfl

theorem Frame.answering (others : Others s next t) (heap : HeapMove word s t next)
    (answers : Answers s next) : Frame word s next t := by
  obtain ⟨entries, log, lifeless⟩ := answers
  exact ⟨others, heap, entries, log, fun p event member =>
    absurd member (lifeless p event)⟩

theorem advanced_frame (advanced : Advanced word s t next) : Frame word s next t := by
  cases advanced with
  | fetchAdd op added =>
      exact .answering (others_setOp rfl) (.fetchAdd _ _ _ _ op (by simp [setOp]) added)
        (answers_silent rfl)
  | cloned | acquired =>
      exact .answering (others_setOp rfl) (.same rfl) (answers_silent rfl)
  | grant _ granted =>
      have settles := settles_grant granted
      exact .answering settles.others (.same settles.heap) (answers_grant granted)
  | decline _ _ declined =>
      have settles := settles_decline declined
      exact .answering settles.others (.same settles.heap) (answers_decline declined)
  | @moved ptr data heap op _ _ given =>
      refine ⟨others_setOp rfl, .giveAway ptr.p .movedOut rfl given, _, rfl, ?_⟩
      intro p event member
      simp only [List.mem_cons, Entry.life.injEq, reduceCtorEq, List.not_mem_nil,
        or_false] at member
      obtain ⟨rfl, rfl⟩ := member
      exact ⟨ptr, op, rfl, rfl, Heap.fateAt_giveAway given⟩
  | @released ptr rest old heap _ op subtracted several finished =>
      have settles := settles_finish finished
      have heapEq : next.heap = heap := settles.heap
      have answers : Answers { s with heap := heap } next := answers_finish finished
      exact .answering settles.others
        (.fetchSub ptr rest old op (heapEq ▸ subtracted)) answers
  | @lastReleased ptr rest heap op subtracted =>
      obtain ⟨counted, changes⟩ := Heap.fetchSub_spec subtracted
      refine ⟨others_setOp rfl, .fetchSub ptr rest 1 op subtracted, _, rfl, ?_⟩
      intro p event member
      obtain ⟨rfl, rfl⟩ : p = ptr.p ∧ event = .lastRelease (t, ptr.strategy) := by
        simpa using member
      refine ⟨ptr, rest, op, rfl, rfl, counted, ?_⟩
      rw [changes.status_eq, if_pos rfl, Nat.add_sub_cancel_left, Nat.mod_self]
  | @finalized ptr rest heap _ op given finished =>
      have settles := settles_finish finished
      have heapEq : next.heap = heap := settles.heap
      obtain ⟨entries, log, lifeless⟩ := answers_finish finished
      refine ⟨settles.others, .giveAway ptr.p _ rfl (heapEq ▸ given),
        [.life ptr.p (.finalize (t, ptr.strategy))] ++ entries, ?_, ?_⟩
      · rw [log, List.append_assoc]
      · intro p event member
        rcases List.mem_append.mp member with here | later
        · obtain ⟨rfl, rfl⟩ : p = ptr.p ∧ event = .finalize (t, ptr.strategy) := by
            simpa using here
          exact ⟨ptr, rest, op, rfl, rfl,
            heapEq ▸ Heap.fateAt_giveAway given⟩
        · exact absurd later (lifeless p event)

theorem others_refl (s : Sys N V S) (t : Fin N) : Others s s t :=
  fun _ _ => rfl

theorem called_frame {act : Act N V S} (called : Called word s t act next) :
    Frame word s next t := by
  cases called with
  | new data | newUnique data =>
      exact .answering (others_refl s t) (.allocate data rfl) (answers_silent rfl)
  | borrow | endBorrow | next | cloneIter | dropSpentIter | convert | endGrant
  | readClone =>
      exact .answering (others_refl s t) (.same rfl) (answers_silent rfl)
  | read | count | nextNone | readMut =>
      exact .answering (others_refl s t) (.same rfl) (answers_returned rfl)
  | clone | enter | leave | unwindCallback | unwindOffsetMakeMut
  | unwindUnwrapOrClone | drop | unique | intoInner | unwrappedClone =>
      exact .answering (others_update rfl) (.same rfl) (answers_silent rfl)
  | unwindMake =>
      exact .answering (others_update rfl) (.same rfl) (answers_returned rfl)
  | cloneMany _ updated =>
      exact .answering (others_refl s t) (.reserve _ _ updated) (answers_silent rfl)
  | dropIter _ _ updated =>
      exact .answering (others_refl s t) (.giveBack _ _ updated) (answers_silent rfl)
  | forgetIter | forget =>
      exact .answering (others_refl s t) (.leak _ _ rfl) (answers_silent rfl)
  | write _ _ written =>
      exact .answering (others_refl s t) (.write _ _ written) (answers_silent rfl)
  | copyMade =>
      exact .answering (others_update rfl) (.allocate _ rfl) (answers_silent rfl)

/-- What a step of the crate writes. -/
theorem step_frame {move : Fin N × Act N V S} (stepped : step word s move = .ok next) :
    Frame word s next move.1 := by
  rcases step_cases stepped with ⟨_, advanced⟩ | ⟨_, called⟩
  · exact advanced_frame advanced
  · exact called_frame called

end Sys

end BackdropArc
