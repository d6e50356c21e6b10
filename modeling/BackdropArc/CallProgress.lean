import BackdropArc.CountOverflow
import BackdropArc.PayloadFrames

/-!
# Calls that nobody can delay

No call of the crate waits for another thread: whatever the others do in
between, the thread that is in a call finishes it within a few steps of its
own.  (A `fetch_update` is one step here, although its loop may be tried again
when the count changes meanwhile.)
-/

namespace BackdropArc

open GuardedRuns

variable {N : Nat} {V S : Type}

/-- The steps that a uniqueness call takes after its grant. -/
def UniqueCall.stepsLeft : UniqueCall → Nat
  | .tryUnwrap | .unwrapOrClone => 1
  | _ => 0

def Rest.stepsLeft : Rest V S → Nat
  | .grant call _ => call.stepsLeft
  | .done | .value _ | .unwind => 0

/-- The steps that the call in progress may still take before it returns, or
hands over to user code. -/
def Op.stepsLeft : Op V S → Nat
  | .idle => 0
  | .cloning _ _ _ => 2
  | .cloned _ _ _ _ => 1
  | .tested call _ _ => call.stepsLeft + 1
  | .moving _ => 1
  | .dropping _ rest => rest.stepsLeft + 3
  | .dropLoad _ rest => rest.stepsLeft + 2
  | .dropSlow _ rest => rest.stepsLeft + 1

theorem UniqueCall.stepsLeft_le (call : UniqueCall) : call.stepsLeft ≤ 1 := by
  cases call <;> decide

theorem Rest.stepsLeft_le (rest : Rest V S) : rest.stepsLeft ≤ 1 := by
  cases rest with
  | grant call => exact call.stepsLeft_le
  | done | value | unwind => exact Nat.zero_le 1

theorem Op.stepsLeft_le (op : Op V S) : op.stepsLeft ≤ 4 := by
  cases op with
  | idle | cloning | cloned | moving => simp [stepsLeft]
  | tested call =>
      have granted := call.stepsLeft_le
      simp only [stepsLeft]
      omega
  | dropping _ rest | dropLoad _ rest | dropSlow _ rest =>
      have later := rest.stepsLeft_le
      simp only [stepsLeft]
      omega

namespace Sys

variable {s next : Sys N V S} {t : Fin N} {word : MachineWord}

theorem op_of_setOp (s : Sys N V S) (t : Fin N) (op : Op V S) : (s.setOp t op t).op = op := by
  simp [setOp]

theorem stepsLeft_of_grant {call : UniqueCall} {ptr : Pointer S}
    (granted : s.grant t call ptr = .ok next) :
    (next.threads t).op.stepsLeft = call.stepsLeft := by
  cases call with
  | getMut | makeMut | offsetMakeMut =>
      obtain rfl := Except.ok.inj granted
      simp [give, op_of_setOp, Op.stepsLeft, UniqueCall.stepsLeft]
  | getUnique | tryAsUnique | mustBeUnique | makeUnique | tryUnique =>
      obtain ⟨_, _, result⟩ := bind_eq_ok.mp granted
      obtain rfl := Except.ok.inj result
      simp [give, op_of_setOp, Op.stepsLeft, UniqueCall.stepsLeft]
  | tryUnwrap | unwrapOrClone =>
      obtain ⟨_, _, result⟩ := bind_eq_ok.mp granted
      obtain rfl := Except.ok.inj result
      simp [op_of_setOp, Op.stepsLeft, UniqueCall.stepsLeft]

theorem stepsLeft_of_decline {call : UniqueCall} {ptr : Pointer S}
    (declined : s.decline t call ptr = .ok next) : (next.threads t).op.stepsLeft = 0 := by
  cases call with
  | getMut | getUnique | tryAsUnique | tryUnique | tryUnwrap =>
      obtain rfl := Except.ok.inj declined
      simp [give, op_of_setOp, Op.stepsLeft]
  | mustBeUnique =>
      obtain ⟨_, _, result⟩ := bind_eq_ok.mp declined
      obtain rfl := Except.ok.inj result
      simp [give, op_of_setOp, Op.stepsLeft]
  | unwrapOrClone | makeMut | makeUnique | offsetMakeMut =>
      obtain rfl := Except.ok.inj declined
      simp [Op.stepsLeft]

theorem stepsLeft_of_finish {rest : Rest V S} (finished : s.finish t rest = .ok next) :
    (next.threads t).op.stepsLeft = rest.stepsLeft := by
  cases rest with
  | grant call ptr => exact stepsLeft_of_grant finished
  | done | value | unwind =>
      obtain rfl := Except.ok.inj finished
      simp [op_of_setOp, Op.stepsLeft, Rest.stepsLeft]

/-- Every step of a call brings it nearer to its end. -/
theorem stepsLeft_of_advanced (advanced : Advanced word s t next) :
    (next.threads t).op.stepsLeft < (s.threads t).op.stepsLeft := by
  cases advanced with
  | fetchAdd op | cloned op | moved op | lastReleased op | acquired op =>
      simp [op, op_of_setOp, Op.stepsLeft]
  | grant op granted =>
      rw [stepsLeft_of_grant granted, op]
      simp [Op.stepsLeft]
  | decline op _ declined =>
      rw [stepsLeft_of_decline declined, op]
      simp [Op.stepsLeft]
  | released op _ _ finished | finalized op _ finished =>
      rw [stepsLeft_of_finish finished, op]
      simp [Op.stepsLeft]

/-- Thread `t` only goes on with the call it is in; the others are free. -/
def Committed (t : Fin N) (s : Sys N V S) (move : Fin N × Act N V S) : Prop :=
  s.Keeps move ∧ (move.1 = t → move.2 = .advance)

instance [DecidableEq V] [DecidableEq S] (t : Fin N) (s : Sys N V S)
    (move : Fin N × Act N V S) : Decidable (Committed t s move) :=
  inferInstanceAs (Decidable (_ ∧ _))

theorem stepsLeft_of_step {move : Fin N × Act N V S} (committed : Committed t s move)
    (stepped : step word s move = .ok next) :
    (next.threads t).op.stepsLeft + (decide (move.1 = t)).toNat ≤
      (s.threads t).op.stepsLeft := by
  obtain ⟨other, act⟩ := move
  by_cases own : other = t
  · subst own
    obtain rfl := committed.2 rfl
    have lower := stepsLeft_of_advanced (advance_eq_ok.mp (by simpa using stepped))
    simpa [Nat.succ_le_iff] using lower
  · have same := (step_frame stepped).others t (Ne.symm own)
    simp [same, own]

/-- A call is never stuck, unless `clone` finds too high a count. -/
theorem Sound.goes_on (sound : s.Sound) (word : MachineWord)
    (busy : (s.threads t).op ≠ .idle) :
    (∃ next, step word s (t, .advance) = .ok next) ∨
      step word s (t, .advance) = .error .aborted := by
  rw [step_advance]
  cases op : (s.threads t).op with
  | cloned source form strategy old =>
      simp only [Sys.advance, op, demand]
      split
      · exact Or.inl ⟨_, rfl⟩
      · exact Or.inr rfl
  | idle => exact absurd op busy
  | cloning | tested | moving | dropping | dropLoad | dropSlow =>
      left
      apply sound.advance_succeeds word busy
      intro _ _ _ _ checking
      simp [op] at checking

end Sys

end BackdropArc
