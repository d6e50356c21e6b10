import BackdropArc.CallProgress
import BackdropArc.NestedHandles

/-!
# Destructor cascades

The destructor of data drops the handles that are stored in it, which may make
further destructors run, in any thread and in any order.  Such a cascade ends:
every step of it uses up something that is due, a step of a call in progress
or a handle.  When it has ended, no data that was given up owns a handle, but
for those that are still borrowed.
-/

namespace BackdropArc

open GuardedRuns

variable {N : Nat} {V S : Type}

def Rest.returns : Rest V S → Nat
  | .grant _ _ => 1
  | .done | .value _ | .unwind => 0

/-- The handles that the call in progress may still return. -/
def Op.returns : Op V S → Nat
  | .cloning _ _ _ | .cloned _ _ _ _ | .tested _ _ _ => 1
  | .dropping _ rest | .dropLoad _ rest | .dropSlow _ rest => rest.returns
  | .idle | .moving _ => 0

/-- What a cascade may still have to do for the call: its own steps, and for each
handle that it returns the start and the steps of a destructor. -/
def Op.due (op : Op V S) : Nat :=
  op.stepsLeft + 4 * op.returns

def Rest.due (rest : Rest V S) : Nat :=
  rest.stepsLeft + 4 * rest.returns

namespace Sys

variable {s next : Sys N V S} {t : Fin N} {word : MachineWord}

def held (s : Sys N V S) : Nat :=
  s.handles.weigh fun _ => 1

/-- What a cascade may still have to do. -/
def due (s : Sys N V S) : Nat :=
  ∑ t, (s.threads t).op.due + 4 * s.held

/-- A step of `t` that leaves less to do for its own call. -/
theorem due_lt (others : Others s next t)
    (less : (next.threads t).op.due + 4 * next.held < (s.threads t).op.due + 4 * s.held) :
    next.due < s.due := by
  have sums := sum_of_others others fun thread => thread.op.due
  unfold due
  omega

theorem due_of_grant {call : UniqueCall} {ptr : Pointer S}
    (granted : s.grant t call ptr = .ok next) :
    (next.threads t).op.due + 4 * next.held ≤ call.stepsLeft + 4 + 4 * s.held := by
  cases call with
  | getMut | makeMut | offsetMakeMut =>
      obtain rfl := Except.ok.inj granted
      simp only [give, op_of_setOp, held, SlotTable.weigh_insert, Op.due, Op.stepsLeft,
        Op.returns]
      omega
  | getUnique | tryAsUnique | mustBeUnique | makeUnique | tryUnique =>
      obtain ⟨_, _, result⟩ := bind_eq_ok.mp granted
      obtain rfl := Except.ok.inj result
      simp only [give, op_of_setOp, held, SlotTable.weigh_insert, Op.due, Op.stepsLeft,
        Op.returns]
      omega
  | tryUnwrap | unwrapOrClone =>
      obtain ⟨_, _, result⟩ := bind_eq_ok.mp granted
      obtain rfl := Except.ok.inj result
      simp [op_of_setOp, held, Op.due, Op.stepsLeft, Op.returns, UniqueCall.stepsLeft]

theorem due_of_decline {call : UniqueCall} {ptr : Pointer S}
    (declined : s.decline t call ptr = .ok next) :
    (next.threads t).op.due + 4 * next.held ≤ 4 + 4 * s.held := by
  cases call with
  | getMut | getUnique | tryAsUnique | tryUnique | tryUnwrap =>
      obtain rfl := Except.ok.inj declined
      simp only [give, op_of_setOp, held, SlotTable.weigh_insert, Op.due, Op.stepsLeft,
        Op.returns]
      omega
  | mustBeUnique =>
      obtain ⟨_, _, result⟩ := bind_eq_ok.mp declined
      obtain rfl := Except.ok.inj result
      simp only [give, op_of_setOp, held, SlotTable.weigh_insert, Op.due, Op.stepsLeft,
        Op.returns]
      omega
  | unwrapOrClone | makeMut | makeUnique | offsetMakeMut =>
      obtain rfl := Except.ok.inj declined
      simp [held, Op.due, Op.stepsLeft, Op.returns]

theorem due_of_finish {rest : Rest V S} (finished : s.finish t rest = .ok next) :
    (next.threads t).op.due + 4 * next.held ≤ rest.due + 4 * s.held := by
  cases rest with
  | grant call ptr => exact due_of_grant finished
  | done | value | unwind =>
      obtain rfl := Except.ok.inj finished
      simp [op_of_setOp, held, Op.due, Op.stepsLeft, Op.returns]

/-- Every step of a call in progress uses up something that was due. -/
theorem due_of_advanced (advanced : Advanced word s t next) : next.due < s.due := by
  apply due_lt (advanced_frame advanced).others
  cases advanced with
  | fetchAdd op | moved op | lastReleased op | acquired op =>
      simp [op, op_of_setOp, held, Op.due, Op.stepsLeft, Op.returns]
  | cloned op =>
      simp only [op, op_of_setOp, held, SlotTable.weigh_insert, Op.due, Op.stepsLeft,
        Op.returns]
      omega
  | grant op granted =>
      have later := due_of_grant granted
      simp only [op, Op.due, Op.stepsLeft, Op.returns] at later ⊢
      omega
  | decline op _ declined =>
      have later := due_of_decline declined
      simp only [op, Op.due, Op.stepsLeft, Op.returns] at later ⊢
      omega
  | released op _ _ finished | finalized op _ finished =>
      have later := due_of_finish finished
      simp only [op, Op.due, Rest.due, Op.stepsLeft, Op.returns, held] at later ⊢
      omega

/-- The start of a destructor uses up a handle. -/
theorem due_of_drop {key : Nat} (called : Called word s t (.drop key) next)
    (idle : (s.threads t).op = .idle) : next.due < s.due := by
  apply due_lt (called_frame called).others
  cases called with
  | drop freed _ =>
      have erased := SlotTable.weigh_erase (fun _ => 1) s.handles key
      rw [SlotTable.weighAt_of_found _ (free_eq_ok.mp freed).1] at erased
      simp only [held, op_of_setOp, idle, Op.due, Op.stepsLeft, Op.returns, Rest.stepsLeft,
        Rest.returns]
      omega

end Sys

/-- The steps of a cascade: calls in progress go on, and destructors of data drop
what is stored there. -/
def NestAct.cascades : NestAct N V S → Bool
  | .act .advance _ | .glue _ => true
  | _ => false

namespace Nest

variable {n next last : Nest N V S} {t : Fin N} {word : MachineWord} {key p : Nat}
  {move : Fin N × NestAct N V S}

theorem due_of_step (cascades : move.2.cascades = true)
    (stepped : nestedStep word n move = .ok next) : next.sys.due < n.sys.due := by
  obtain ⟨t, act⟩ := move
  cases nested_of_step stepped with
  | @act act into sys inner =>
      cases act with
      | advance => exact Sys.due_of_advanced (Sys.advance_eq_ok.mp (by simpa using inner))
      | _ => simp [NestAct.cascades] at cascades
  | store | take | unpack => simp [NestAct.cascades] at cascades
  | glue _ _ inner =>
      rcases Sys.step_cases inner with ⟨wrong, _⟩ | ⟨idle, called⟩
      · cases wrong
      · exact Sys.due_of_drop called idle

theorem keeps_of_cascades (cascades : move.2.cascades = true) : n.Keeps move := by
  obtain ⟨t, act⟩ := move
  cases act with
  | act act into =>
      cases act with
      | advance => exact ⟨rfl, rfl⟩
      | _ => simp [NestAct.cascades] at cascades
  | store | take | unpack | glue => trivial

/-- A call in progress goes on in the nested program as well. -/
theorem advance_succeeds {sys : Sys N V S}
    (stepped : step word n.sys (t, .advance) = .ok sys) :
    ∃ next, nestedStep word n (t, .act .advance []) = .ok next := by
  simp [nestedStep, Act.exclusive?, Act.shared?, stepped, demand, bind, Except.bind, pure,
    Except.pure]

/-- A handle in data that was given up can be dropped, unless it is borrowed. -/
theorem glue_succeeds (placed : n.Placed) (word : MachineWord)
    (idle : (n.sys.threads t).op = .idle) (stored : n.place key = some p)
    (destructs : n.destructing p = true) (unborrowed : n.sys.borrowed key = false) :
    ∃ next, nestedStep word n (t, .glue key) = .ok next := by
  obtain ⟨hd, found, fits⟩ := placed.found key p stored
  simp only [storable, Bool.and_eq_true, Bool.not_eq_true', decide_eq_true_eq] at fits
  have freed := Sys.free_eq_ok.mpr ⟨found, fits.1, unborrowed⟩
  have called : n.sys.call word t (.drop key) = .ok _ :=
    Sys.call_eq_ok.mpr (.drop freed fits.2)
  rw [← step_of_idle idle (by simp)] at called
  simp [nestedStep, stored, destructs, called, demandSome, demand, bind, Except.bind, pure,
    Except.pure]

end Nest

end BackdropArc
