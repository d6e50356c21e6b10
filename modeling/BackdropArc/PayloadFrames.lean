import BackdropArc.CountOverflow

/-!
# What a step does to a payload

Counting references never touches the data.  The payload of a block that was
allocated stays what it is until somebody writes to it through a handle that
stands for sole ownership, also after the block was given away.
-/

namespace BackdropArc

open GuardedRuns CountedLifecycle

variable {N : Nat} {V S : Type}

/-- A step of the program with the states around it. -/
abbrev Moment (N : Nat) (V S : Type) :=
  Transition (Sys N V S) (Fin N × Act N V S)

/-- The value that `T::clone` returns by the action. -/
def Act.copied? : Act N V S → Option V
  | .cloneReturns data => some data
  | _ => none

/-- Whether the action writes to the data of block `p`. -/
def Sys.writesTo (s : Sys N V S) (p : Nat) : Act N V S → Bool
  | .write key _ => (s.handles.get? key).any (·.p = p)
  | _ => false

namespace Sys

variable {s next : Sys N V S} {t : Fin N} {word : MachineWord} {p : Nat} {v : V}

theorem dataAt_of_advanced (advanced : Advanced word s t next) (q : Nat) :
    next.heap.dataAt q = s.heap.dataAt q := by
  cases advanced with
  | fetchAdd _ added => exact (Heap.fetchAdd_recounts added).dataAt_eq q
  | cloned | acquired => rfl
  | grant _ granted => rw [(settles_grant granted).heap]
  | decline _ _ declined => rw [(settles_decline declined).heap]
  | moved _ _ _ given => exact (Heap.giveAway_recounts rfl given).dataAt_eq q
  | lastReleased _ subtracted => exact (Heap.fetchSub_recounts subtracted).dataAt_eq q
  | released _ subtracted _ finished =>
      rw [(settles_finish finished).heap]
      exact (Heap.fetchSub_recounts subtracted).dataAt_eq q
  | finalized _ given finished =>
      rw [(settles_finish finished).heap]
      exact (Heap.giveAway_recounts rfl given).dataAt_eq q

theorem dataAt_of_called {act : Act N V S} (called : Called word s t act next)
    (here : s.heap.dataAt p = some v) (unwritten : s.writesTo p act = false) :
    next.heap.dataAt p = some v := by
  cases called with
  | new | newUnique | copyMade => exact Heap.dataAt_allocate_of_found here
  | cloneMany _ updated | dropIter _ _ updated =>
      simpa only [Heap.fetchUpdate_dataAt updated] using here
  | forgetIter | forget => simpa only [Heap.dataAt_leak] using here
  | @write key data hd heap found _ written =>
      have elsewhere : hd.p ≠ p := by simpa [writesTo, found] using unwritten
      simpa only [Heap.write_dataAt written, if_neg (Ne.symm elsewhere)] using here
  | borrow | endBorrow | read | count | clone | nextNone | next | cloneIter
  | dropSpentIter | enter | leave | unwindCallback | unwindMake | unwindOffsetMakeMut
  | unwindUnwrapOrClone | convert | drop | unique | intoInner | readMut | endGrant
  | readClone | unwrappedClone => exact here

/-- A step leaves the payload of a block alone that it does not write to. -/
theorem dataAt_of_step {move : Fin N × Act N V S} (stepped : step word s move = .ok next)
    (here : s.heap.dataAt p = some v) (unwritten : s.writesTo p move.2 = false) :
    next.heap.dataAt p = some v := by
  obtain ⟨t, act⟩ := move
  rcases step_cases stepped with ⟨rfl, advanced⟩ | ⟨_, called⟩
  · rw [dataAt_of_advanced advanced, here]
  · exact dataAt_of_called called here unwritten

end Sys

end BackdropArc
