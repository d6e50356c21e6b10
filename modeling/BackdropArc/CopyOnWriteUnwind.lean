import BackdropArc.Disposal

/-!
# A panic during copy on write

`make_mut` and `make_unique` run `T::clone` on a shared block.  If that clone
panics, the versions for `Arc` give the handle back as it was.  The version
for `OffsetArc` has moved the handle bitwise into a local `Arc`; the panic
drops that `Arc` although the caller still has the handle.
-/

namespace BackdropArc

open GuardedRuns CountedLifecycle

variable {N : Nat} {V S : Type}

/-- The calls that replace a shared block by a copy. -/
def UniqueCall.copies : UniqueCall → Bool
  | .makeMut | .makeUnique | .offsetMakeMut => true
  | .getMut | .getUnique | .tryAsUnique | .mustBeUnique | .tryUnique | .tryUnwrap
  | .unwrapOrClone => false

namespace Sys

variable {s next last : Sys N V S} {t : Fin N} {word : MachineWord}
  {call : UniqueCall} {ptr : Pointer S} {stack : List (Call S)}

/-- Thread `t` is in the `T::clone` that `call` runs on the block of `ptr`. -/
def Copying (s : Sys N V S) (t : Fin N) (call : UniqueCall) (ptr : Pointer S) : Prop :=
  (s.threads t).op = .idle ∧
    ∃ stack, (s.threads t).stack = .valueClone call ptr :: stack

/-- The panic of `T::clone` has left the call: `last` is the state in which the
thread is back in the code of its caller. -/
def Unwound (word : MachineWord) (s : Sys N V S) (t : Fin N) (last : Sys N V S) : Prop :=
  ∃ next, step word s (t, .unwind) = .ok next ∧
    Advances word t next last ∧ (last.threads t).op = .idle

/-- The caller has the handle back that it gave, and nothing else changed. -/
def Restored (s last : Sys N V S) (call : UniqueCall) (ptr : Pointer S) : Prop :=
  last.heap = s.heap ∧ last.handles = s.handles.insert (ptr.handle call.form)

theorem advances_idle (idle : (next.threads t).op = .idle)
    (advances : Advances word t next last) : last = next := by
  unfold Advances at advances
  induction advances with
  | refl => rfl
  | tail action _ admitted stepped ih =>
      obtain rfl := ih
      obtain rfl := admitted
      simp [Sys.advance, idle] at stepped

/-- The state after the first step of a panic in `Arc::make_mut` or
`Arc::make_unique`: the call is over. -/
theorem unwind_arc (word : MachineWord) (copying : s.Copying t call ptr)
    (copies : call.copies = true) (form : call ≠ .offsetMakeMut) :
    ∃ next, step word s (t, .unwind) = .ok next ∧ (next.threads t).op = .idle ∧
      Restored s next call ptr := by
  obtain ⟨idle, stack, suspended⟩ := copying
  have unwound (other : UniqueCall) (same : call = other)
      (arc : other = .makeMut ∨ other = .makeUnique) :
      step word s (t, .unwind) = .ok { s with
        handles := s.handles.insert (ptr.handle .arc)
        threads := Function.update s.threads t ⟨.idle, stack⟩
        log := s.log ++ [.returned t .unwound] } := by
    rw [step_of_idle idle (by simp)]
    rcases arc with rfl | rfl <;>
      simp [Sys.call, Sys.unwind, suspended, same, pure, Except.pure]
  cases call with
  | makeMut => exact ⟨_, unwound _ rfl (Or.inl rfl), by simp, rfl, rfl⟩
  | makeUnique => exact ⟨_, unwound _ rfl (Or.inr rfl), by simp, rfl, rfl⟩
  | offsetMakeMut => exact absurd rfl form
  | _ => simp [UniqueCall.copies] at copies

/-- The first step of a panic in `OffsetArc::make_mut`: the caller's handle is
in place, and the destructor of the local `Arc` is about to run. -/
theorem unwind_offset (word : MachineWord) (copying : s.Copying t .offsetMakeMut ptr) :
    ∃ next, step word s (t, .unwind) = .ok next ∧ next.heap = s.heap ∧
      (next.threads t).op = .dropping ptr .unwind := by
  obtain ⟨idle, stack, suspended⟩ := copying
  have unwound : step word s (t, .unwind) = .ok { s with
      handles := s.handles.insert (ptr.handle .offsetArc)
      threads := Function.update s.threads t ⟨.dropping ptr .unwind, stack⟩ } := by
    rw [step_of_idle idle (by simp)]
    simp [Sys.call, Sys.unwind, suspended, pure, Except.pure]
  exact ⟨_, unwound, rfl, by simp⟩

/-- The steps of a destructor that ends a panic, and what they do to the block. -/
theorem unwind_drops (word : MachineWord) {count : Nat}
    (op : (s.threads t).op = .dropping ptr .unwind)
    (counted : s.heap.status ptr.p = .counted (count + 1)) :
    ∃ last, Advances word t s last ∧ (last.threads t).op = .idle ∧
      last.heap.status ptr.p ≠ s.heap.status ptr.p := by
  obtain ⟨heap, subtracted⟩ := Heap.fetchSub_of_counted word counted
  obtain ⟨_, changes⟩ := Heap.fetchSub_spec subtracted
  have after := changes.status_eq ptr.p
  rw [if_pos rfl, show count + 1 + word.modulus - 1 = count + word.modulus by omega,
    Nat.add_mod_right] at after
  rw [counted]
  by_cases more : count = 0
  · subst more
    let released : Sys N V S := { s with
      heap := heap
      threads := s.setOp t (.dropLoad ptr .unwind)
      log := s.log ++ [.life ptr.p (.lastRelease (t, ptr.strategy))] }
    let loaded : Sys N V S :=
      { released with threads := released.setOp t (.dropSlow ptr .unwind) }
    obtain ⟨freed, given⟩ :=
      Heap.giveAway_of_counted (.backdropped ptr.strategy) after
    have first : step word s (t, .advance) = .ok released := by
      simp only [step_advance, Sys.advance, op, subtracted, bind, Except.bind]
      rfl
    have second : step word released (t, .advance) = .ok loaded := by
      have load := Heap.load_eq_ok.mpr after
      simp [Sys.advance, released, loaded, setOp, load, bind, Except.bind, pure,
        Except.pure]
    have third : step word loaded (t, .advance) = finish { loaded with
        heap := freed
        log := loaded.log ++ [.life ptr.p (.finalize (t, ptr.strategy))] } t .unwind := by
      simp [Sys.advance, loaded, released, setOp, given, bind, Except.bind]
    refine ⟨_, (((Advances.refl word t s).tail first).tail second).tail third, ?_, ?_⟩
    · simp [setOp]
    · have gone := (Heap.giveAway_spec rfl given).2.status_eq ptr.p
      simp only [if_true] at gone
      simp [gone]
  · have first : step word s (t, .advance) = finish { s with heap := heap } t .unwind := by
      simp [Sys.advance, op, subtracted, more, bind, Except.bind]
    refine ⟨_, (Advances.refl word t s).tail first, ?_, ?_⟩
    · simp [setOp]
    · have smaller := Nat.mod_le count word.modulus
      simp only [after, ne_eq, Status.counted.injEq]
      omega

/-- A copy on write is panic-atomic exactly if it is not the one of
`OffsetArc`. -/
theorem Sound.restored_iff (sound : s.Sound) (copying : s.Copying t call ptr)
    (copies : call.copies = true) :
    (∃ last, s.Unwound word t last) ∧
      ((∀ last, s.Unwound word t last → Restored s last call ptr) ↔
        call ≠ .offsetMakeMut) := by
  by_cases form : call = .offsetMakeMut
  · subst form
    obtain ⟨next, unwound, heap, op⟩ := unwind_offset word copying
    obtain ⟨_, stack, suspended⟩ := copying
    have counted := sound.counted_of_owned (owned_of_stack suspended)
    obtain ⟨count, count_eq⟩ : ∃ count, s.owners ptr.p = count + 1 :=
      ⟨s.owners ptr.p - 1, by have := owned_of_stack suspended; omega⟩
    rw [count_eq, ← heap] at counted
    obtain ⟨last, advances, idle, changed⟩ := unwind_drops word op counted
    refine ⟨⟨last, next, unwound, advances, idle⟩, ?_⟩
    simp only [ne_eq, not_true_eq_false, iff_false, not_forall]
    refine ⟨last, ⟨next, unwound, advances, idle⟩, fun restored => changed ?_⟩
    rw [restored.1, heap]
  · obtain ⟨next, unwound, idle, restored⟩ :=
      unwind_arc word copying copies form
    refine ⟨⟨next, next, unwound, .refl word t next, idle⟩, ?_⟩
    refine iff_of_true ?_ form
    rintro last ⟨other, same, advances, _⟩
    obtain rfl : next = other := by simpa [unwound] using same
    rw [advances_idle idle advances]
    exact restored

/-- Panics during copy on write, in every run in which no count reaches the end
of the machine word, no reserving iterator is cloned, and `T::clone` never
panics inside `OffsetArc::make_mut`: the next panic restores the state exactly
if it happens in `Arc::make_mut` or `Arc::make_unique`, no handle points to a
freed block, no block is freed twice, and no step uses one after its free. -/
theorem copy_on_write_unwinding (word : MachineWord)
    (run : Reaches (step word) (Regular word) (start N V S) s) :
    (∀ t call ptr, s.Copying t call ptr → call.copies = true →
      (∃ last, s.Unwound word t last) ∧
        ((∀ last, s.Unwound word t last → Restored s last call ptr) ↔
          call ≠ .offsetMakeMut)) ∧
    (∀ key hd, s.handles.get? key = some hd →
      ∃ count, s.heap.status hd.p = .counted (count + 1)) ∧
    (∀ p, s.disposals p ≤ 1) ∧
    ∀ move, step word s move ≠ .error .useAfterFree := by
  have sound := sound_of_reaches run
  refine ⟨fun t call ptr => sound.restored_iff, fun key hd found => ?_, fun p => ?_,
    fun move faulty => sound.avoids_step word move _ faulty (Or.inl rfl)⟩
  · have owned := owned_of_stored found
    refine ⟨s.owners hd.p - 1, ?_⟩
    rw [sound.counted_of_owned owned, Nat.sub_add_cancel owned]
  · rcases sound.disposals_eq p with ⟨once, _⟩ | ⟨never, _⟩ <;> omega

/-- A panic of `T::clone` in `Arc::make_mut` on a shared block. -/
theorem copy_on_write_unwinding_witness :
    ∃ s last : Sys 1 Nat Unit, s.heap.status 0 = .counted 2 ∧
      s.Unwound .wide 0 last ∧ Restored s last .makeMut ⟨0, ()⟩ :=
  have run : Reaches (step .wide) (Regular .wide) (start 1 Nat Unit) _ :=
    reaches_of_follow
      [(0, .new 7 ()), (0, .clone (.handle 0) .clone), (0, .advance), (0, .advance),
        (0, .unique .makeMut 1), (0, .advance)] rfl
  have both := (copy_on_write_unwinding .wide run).1 0 .makeMut ⟨0, ()⟩
    ⟨rfl, _, rfl⟩ rfl
  both.1.elim fun last unwound =>
    ⟨_, last, rfl, unwound, both.2.mpr (by decide) last unwound⟩

/-- The same panic in `OffsetArc::make_mut` takes one reference away from the
two handles, and after the drop of one of them the other one dangles. -/
theorem offset_make_mut_unwinding :
    ∃ s last later : Sys 1 Nat Unit,
      Reaches (step .wide) (Regular .wide) (start 1 Nat Unit) s ∧
        s.Copying 0 .offsetMakeMut ⟨0, ()⟩ ∧ s.heap.status 0 = .counted 2 ∧
          s.Unwound .wide 0 last ∧ last.heap.status 0 = .counted 1 ∧
            last.liveHandles 0 = 2 ∧
              Reaches (step .wide) (Regular .wide) last later ∧
                step .wide later (0, .read (.handle 2)) = .error .useAfterFree :=
  have run : Reaches (step .wide) (Regular .wide) (start 1 Nat Unit) _ :=
    reaches_of_follow
      [(0, .new 7 ()), (0, .clone (.handle 0) .clone), (0, .advance), (0, .advance),
        (0, .convert 1 .intoRawOffset), (0, .unique .offsetMakeMut 1),
        (0, .advance)] rfl
  ⟨_, _, _, run, ⟨rfl, _, rfl⟩, rfl,
    ⟨_, rfl, (Advances.refl .wide 0 _).tail rfl, rfl⟩, rfl, rfl,
    reaches_of_follow [(0, .drop 0), (0, .advance), (0, .advance), (0, .advance)] rfl,
    rfl⟩

end Sys

end BackdropArc
