import BackdropArc.ArcSteps

/-!
# What a step can be

The step function of the crate as a relation: one case for each way in which a
step can succeed, with the tests that it passed and the state that it leaves.
Everything that holds of all steps is proved by cases on these two relations.
-/

namespace BackdropArc

open GuardedRuns CountedLifecycle

variable {N : Nat} {V S : Type}

namespace Sys

/-- The successful actions of the user code of `t`. -/
inductive Called (word : MachineWord) (s : Sys N V S) (t : Fin N) :
    Act N V S → Sys N V S → Prop
  | new (data : V) (strategy : S) :
      Called word s t (.new data strategy) { s with
        heap := s.heap.allocate data
        handles := s.handles.insert (Pointer.handle ⟨s.heap.length, strategy⟩ .arc) }
  | newUnique (data : V) (strategy : S) :
      Called word s t (.newUnique data strategy) { s with
        heap := s.heap.allocate data
        handles := s.handles.insert
          (Pointer.handle ⟨s.heap.length, strategy⟩ .uniqueArc) }
  | borrow {source : Source N} {borrow : Borrow} {kind : RefKind S} :
      s.view source = some (borrow, kind) →
        Called word s t (.borrow source)
          { s with borrows := s.borrows.insert borrow }
  | endBorrow (key : Nat) :
      Called word s t (.endBorrow key) { s with borrows := s.borrows.erase key }
  | read {source : Source N} {borrow : Borrow} {kind : RefKind S} {data : V} :
      s.view source = some (borrow, kind) → s.heap.read borrow.p = .ok data →
        Called word s t (.read source)
          { s with log := s.log ++ [.returned t (.value data)] }
  | count {source : Source N} {borrow : Borrow} {kind : RefKind S} {count : Nat} :
      s.view source = some (borrow, kind) → s.heap.load borrow.p = .ok count →
        Called word s t (.count source)
          { s with log := s.log ++ [.returned t (.counted count)] }
  | clone {source : Source N} {call : CloneCall S} {borrow : Borrow}
      {kind : RefKind S} {form : SharedForm} {strategy : S} :
      s.view source = some (borrow, kind) → kind.cloned call = some (form, strategy) →
        Called word s t (.clone source call)
          { s with threads := s.setOp t (.cloning borrow form strategy) }
  | cloneMany {source : Source N} {count : Nat} {borrow : Borrow} {strategy : S}
      {heap : Heap V S} :
      s.view source = some (borrow, .arc strategy) →
        s.heap.fetchUpdate (cloneManyUpdate word count) borrow.p = .ok heap →
          Called word s t (.cloneMany source count) { s with
            heap := heap
            iters := s.iters.insert ⟨borrow, strategy, count⟩ }
  | nextNone {key : Nat} {iter : ArcCloneIter S} :
      s.iters.get? key = some iter → iter.arcsLeft = 0 →
        Called word s t (.next key) { s with log := s.log ++ [.returned t .none] }
  | next {key : Nat} {iter : ArcCloneIter S} :
      s.iters.get? key = some iter → iter.arcsLeft ≠ 0 →
        Called word s t (.next key) { s with
          iters := s.iters.replace key { iter with arcsLeft := iter.arcsLeft - 1 }
          handles := s.handles.insert
            (Pointer.handle ⟨iter.orig.p, iter.strategy⟩ .arc) }
  | cloneIter {key : Nat} {iter : ArcCloneIter S} :
      s.iters.get? key = some iter →
        Called word s t (.cloneIter key) { s with iters := s.iters.insert iter }
  | dropSpentIter {key : Nat} {iter : ArcCloneIter S} :
      s.iters.get? key = some iter → iter.arcsLeft = 0 →
        Called word s t (.dropIter key) { s with iters := s.iters.erase key }
  | dropIter {key : Nat} {iter : ArcCloneIter S} {heap : Heap V S} :
      s.iters.get? key = some iter → iter.arcsLeft ≠ 0 →
        s.heap.fetchUpdate (dropIterUpdate iter.arcsLeft) iter.orig.p = .ok heap →
          Called word s t (.dropIter key)
            { s with heap := heap, iters := s.iters.erase key }
  | forgetIter {key : Nat} {iter : ArcCloneIter S} :
      s.iters.get? key = some iter →
        Called word s t (.forgetIter key) { s with
          heap := s.heap.leak iter.orig.p iter.arcsLeft
          iters := s.iters.erase key }
  | enter {source : Source N} {call : CallbackCall S} {borrow : Borrow}
      {kind transient : RefKind S} :
      s.view source = some (borrow, kind) → kind.transient call = some transient →
        Called word s t (.enter source call) { s with
          threads := Function.update s.threads t
            ⟨.idle, .callback borrow transient :: (s.threads t).stack⟩ }
  | leave {source : Borrow} {transient : RefKind S} {stack : List (Call S)} :
      (s.threads t).stack = .callback source transient :: stack →
        Called word s t .leave
          { s with threads := Function.update s.threads t ⟨.idle, stack⟩ }
  | unwindCallback {source : Borrow} {transient : RefKind S} {stack : List (Call S)} :
      (s.threads t).stack = .callback source transient :: stack →
        Called word s t .unwind
          { s with threads := Function.update s.threads t ⟨.idle, stack⟩ }
  | unwindMake {call : UniqueCall} {ptr : Pointer S} {stack : List (Call S)} :
      (s.threads t).stack = .valueClone call ptr :: stack →
        call = .makeMut ∨ call = .makeUnique →
          Called word s t .unwind { s with
            handles := s.handles.insert (ptr.handle .arc)
            threads := Function.update s.threads t ⟨.idle, stack⟩
            log := s.log ++ [.returned t .unwound] }
  | unwindOffsetMakeMut {ptr : Pointer S} {stack : List (Call S)} :
      (s.threads t).stack = .valueClone .offsetMakeMut ptr :: stack →
        Called word s t .unwind { s with
          handles := s.handles.insert (ptr.handle .offsetArc)
          threads := Function.update s.threads t ⟨.dropping ptr .unwind, stack⟩ }
  | unwindUnwrapOrClone {ptr : Pointer S} {stack : List (Call S)} :
      (s.threads t).stack = .valueClone .unwrapOrClone ptr :: stack →
        Called word s t .unwind { s with
          threads := Function.update s.threads t ⟨.dropping ptr .unwind, stack⟩ }
  | convert {key : Nat} {conversion : Conversion S} {hd converted : Handle S} :
      s.free key = .ok hd → conversion.apply hd = some converted →
        Called word s t (.convert key conversion)
          { s with handles := s.handles.replace key converted }
  | drop {key : Nat} {hd : Handle S} :
      s.free key = .ok hd → hd.form ≠ .raw →
        Called word s t (.drop key) { s with
          handles := s.handles.erase key
          threads := s.setOp t (.dropping hd.toPointer .done) }
  | forget {key : Nat} {hd : Handle S} :
      s.free key = .ok hd →
        Called word s t (.forget key) { s with
          heap := s.heap.leak hd.p 1
          handles := s.handles.erase key }
  | unique {call : UniqueCall} {key loaded : Nat} {hd : Handle S} :
      s.free key = .ok hd → hd.form = call.form → s.heap.load hd.p = .ok loaded →
        Called word s t (.unique call key) { s with
          handles := s.handles.erase key
          threads := s.setOp t (.tested call hd.toPointer loaded) }
  | intoInner {key : Nat} {hd : Handle S} :
      s.free key = .ok hd → hd.form = .uniqueArc →
        Called word s t (.intoInner key) { s with
          handles := s.handles.erase key
          threads := s.setOp t (.moving hd.toPointer) }
  | readMut {key : Nat} {hd : Handle S} {data : V} :
      s.handles.get? key = some hd → hd.sole = true → s.heap.read hd.p = .ok data →
        Called word s t (.readMut key)
          { s with log := s.log ++ [.returned t (.value data)] }
  | write {key : Nat} {data : V} {hd : Handle S} {heap : Heap V S} :
      s.handles.get? key = some hd → hd.sole = true →
        s.heap.write hd.p data = .ok heap →
          Called word s t (.write key data) { s with heap := heap }
  | endGrant {key : Nat} {hd : Handle S} :
      s.handles.get? key = some hd → hd.lent = true →
        Called word s t (.endGrant key)
          { s with handles := s.handles.replace key { hd with lent := false } }
  | readClone {call : UniqueCall} {ptr : Pointer S} {stack : List (Call S)} {data : V} :
      (s.threads t).stack = .valueClone call ptr :: stack →
        s.heap.read ptr.p = .ok data → Called word s t .readClone s
  | unwrappedClone {data : V} {ptr : Pointer S} {stack : List (Call S)} :
      (s.threads t).stack = .valueClone .unwrapOrClone ptr :: stack →
        Called word s t (.cloneReturns data) { s with
          threads := Function.update s.threads t ⟨.dropping ptr (.value data), stack⟩ }
  | copyMade {data : V} {call : UniqueCall} {ptr : Pointer S} {stack : List (Call S)} :
      (s.threads t).stack = .valueClone call ptr :: stack → call ≠ .unwrapOrClone →
        Called word s t (.cloneReturns data) { s with
          heap := s.heap.allocate data
          threads := Function.update s.threads t
            ⟨.dropping ptr (.grant call { ptr with p := s.heap.length }), stack⟩ }

/-- The successful stages of the call that `t` is in. -/
inductive Advanced (word : MachineWord) (s : Sys N V S) (t : Fin N) :
    Sys N V S → Prop
  | fetchAdd {source : Borrow} {form : SharedForm} {strategy : S} {old : Nat}
      {heap : Heap V S} :
      (s.threads t).op = .cloning source form strategy →
        s.heap.fetchAdd word source.p = .ok (old, heap) →
          Advanced word s t { s with
            heap := heap
            threads := s.setOp t (.cloned source form strategy old) }
  | cloned {source : Borrow} {form : SharedForm} {strategy : S} {old : Nat} :
      (s.threads t).op = .cloned source form strategy old → old ≤ maxRefcount word →
        Advanced word s t { s with
          handles := s.handles.insert (Pointer.handle ⟨source.p, strategy⟩ form.1)
          threads := s.setOp t .idle }
  | grant {call : UniqueCall} {ptr : Pointer S} {next : Sys N V S} :
      (s.threads t).op = .tested call ptr 1 → s.grant t call ptr = .ok next →
        Advanced word s t next
  | decline {call : UniqueCall} {ptr : Pointer S} {loaded : Nat} {next : Sys N V S} :
      (s.threads t).op = .tested call ptr loaded → loaded ≠ 1 →
        s.decline t call ptr = .ok next → Advanced word s t next
  | moved {ptr : Pointer S} {data : V} {heap : Heap V S} :
      (s.threads t).op = .moving ptr → s.assertUnique ptr = .ok () →
        s.heap.read ptr.p = .ok data → s.heap.giveAway ptr.p .movedOut = .ok heap →
          Advanced word s t { s with
            heap := heap
            threads := s.setOp t .idle
            log := s.log ++
              [.life ptr.p (.takeOut (t, ptr.strategy)), .returned t (.value data)] }
  | released {ptr : Pointer S} {rest : Rest V S} {old : Nat} {heap : Heap V S}
      {next : Sys N V S} :
      (s.threads t).op = .dropping ptr rest →
        s.heap.fetchSub word ptr.p = .ok (old, heap) → old ≠ 1 →
          finish { s with heap := heap } t rest = .ok next → Advanced word s t next
  | lastReleased {ptr : Pointer S} {rest : Rest V S} {heap : Heap V S} :
      (s.threads t).op = .dropping ptr rest →
        s.heap.fetchSub word ptr.p = .ok (1, heap) →
          Advanced word s t { s with
            heap := heap
            threads := s.setOp t (.dropLoad ptr rest)
            log := s.log ++ [.life ptr.p (.lastRelease (t, ptr.strategy))] }
  | acquired {ptr : Pointer S} {rest : Rest V S} {count : Nat} :
      (s.threads t).op = .dropLoad ptr rest → s.heap.load ptr.p = .ok count →
        Advanced word s t { s with threads := s.setOp t (.dropSlow ptr rest) }
  | finalized {ptr : Pointer S} {rest : Rest V S} {heap : Heap V S}
      {next : Sys N V S} :
      (s.threads t).op = .dropSlow ptr rest →
        s.heap.giveAway ptr.p (.backdropped ptr.strategy) = .ok heap →
          finish { s with
            heap := heap
            log := s.log ++ [.life ptr.p (.finalize (t, ptr.strategy))] } t rest =
              .ok next → Advanced word s t next

variable {s next : Sys N V S} {t : Fin N} {word : MachineWord}

theorem Called.of_unwind (unwound : s.unwind t = .ok next) :
    Called word s t .unwind next := by
  unfold Sys.unwind at unwound
  split at unwound
  · next suspended =>
      obtain rfl := Except.ok.inj unwound
      exact .unwindCallback suspended
  · next suspended =>
      obtain rfl := Except.ok.inj unwound
      exact .unwindMake suspended (.inl rfl)
  · next suspended =>
      obtain rfl := Except.ok.inj unwound
      exact .unwindMake suspended (.inr rfl)
  · next suspended =>
      obtain rfl := Except.ok.inj unwound
      exact .unwindOffsetMakeMut suspended
  · next suspended =>
      obtain rfl := Except.ok.inj unwound
      exact .unwindUnwrapOrClone suspended
  · simp at unwound

theorem Called.of_cloneReturns {data : V}
    (returned : s.cloneReturns t data = .ok next) :
    Called word s t (.cloneReturns data) next := by
  unfold Sys.cloneReturns at returned
  split at returned
  · next suspended =>
      obtain rfl := Except.ok.inj returned
      exact .unwrappedClone suspended
  · next other suspended =>
      obtain rfl := Except.ok.inj returned
      exact .copyMade suspended fun unwrap => other (unwrap ▸ rfl)
  · simp at returned

theorem Called.of_call {act : Act N V S} (called : s.call word t act = .ok next) :
    Called word s t act next := by
  cases act with
  | new data strategy =>
      obtain rfl := Except.ok.inj called
      exact .new data strategy
  | newUnique data strategy =>
      obtain rfl := Except.ok.inj called
      exact .newUnique data strategy
  | borrow source =>
      obtain ⟨_, viewed, result⟩ := bind_eq_ok.mp called
      obtain rfl := Except.ok.inj result
      exact .borrow (demandSome_eq_ok.mp viewed)
  | endBorrow key =>
      obtain rfl := Except.ok.inj called
      exact .endBorrow key
  | read source =>
      obtain ⟨_, viewed, rest⟩ := bind_eq_ok.mp called
      obtain ⟨_, read, result⟩ := bind_eq_ok.mp rest
      obtain rfl := Except.ok.inj result
      exact .read (demandSome_eq_ok.mp viewed) read
  | count source =>
      obtain ⟨_, viewed, rest⟩ := bind_eq_ok.mp called
      obtain ⟨_, load, result⟩ := bind_eq_ok.mp rest
      obtain rfl := Except.ok.inj result
      exact .count (demandSome_eq_ok.mp viewed) load
  | clone source call =>
      obtain ⟨_, viewed, rest⟩ := bind_eq_ok.mp called
      obtain ⟨_, cloned, result⟩ := bind_eq_ok.mp rest
      obtain rfl := Except.ok.inj result
      exact .clone (demandSome_eq_ok.mp viewed) (demandSome_eq_ok.mp cloned)
  | cloneMany source count =>
      obtain ⟨⟨borrow, kind⟩, viewed, rest⟩ := bind_eq_ok.mp called
      cases kind with
      | arc strategy =>
          obtain ⟨_, updated, result⟩ := bind_eq_ok.mp rest
          obtain rfl := Except.ok.inj result
          exact .cloneMany (demandSome_eq_ok.mp viewed) updated
      | offsetArc | unionFirst | unionSecond | arcBorrow => simp at rest
  | next key =>
      obtain ⟨_, found, rest⟩ := bind_eq_ok.mp called
      rw [demandSome_eq_ok] at found
      split at rest
      · next spent =>
          obtain rfl := Except.ok.inj rest
          exact .nextNone found spent
      · next left =>
          obtain rfl := Except.ok.inj rest
          exact .next found left
  | cloneIter key =>
      obtain ⟨_, found, result⟩ := bind_eq_ok.mp called
      obtain rfl := Except.ok.inj result
      exact .cloneIter (demandSome_eq_ok.mp found)
  | dropIter key =>
      obtain ⟨_, found, rest⟩ := bind_eq_ok.mp called
      rw [demandSome_eq_ok] at found
      split at rest
      · next spent =>
          obtain rfl := Except.ok.inj rest
          exact .dropSpentIter found spent
      · next left =>
          obtain ⟨_, updated, result⟩ := bind_eq_ok.mp rest
          obtain rfl := Except.ok.inj result
          exact .dropIter found left updated
  | forgetIter key =>
      obtain ⟨_, found, result⟩ := bind_eq_ok.mp called
      obtain rfl := Except.ok.inj result
      exact .forgetIter (demandSome_eq_ok.mp found)
  | enter source call =>
      obtain ⟨_, viewed, rest⟩ := bind_eq_ok.mp called
      obtain ⟨_, entered, result⟩ := bind_eq_ok.mp rest
      obtain rfl := Except.ok.inj result
      exact .enter (demandSome_eq_ok.mp viewed) (demandSome_eq_ok.mp entered)
  | leave =>
      simp only [Sys.call] at called
      split at called
      · next suspended =>
          obtain rfl := Except.ok.inj called
          exact .leave suspended
      · simp at called
  | unwind => exact .of_unwind called
  | convert key conversion =>
      obtain ⟨_, freed, rest⟩ := bind_eq_ok.mp called
      obtain ⟨_, applied, result⟩ := bind_eq_ok.mp rest
      obtain rfl := Except.ok.inj result
      exact .convert freed (demandSome_eq_ok.mp applied)
  | drop key =>
      obtain ⟨_, freed, rest⟩ := bind_eq_ok.mp called
      obtain ⟨_, droppable, result⟩ := bind_eq_ok.mp rest
      obtain rfl := Except.ok.inj result
      exact .drop freed (demand_eq_ok.mp droppable)
  | forget key =>
      obtain ⟨_, freed, result⟩ := bind_eq_ok.mp called
      obtain rfl := Except.ok.inj result
      exact .forget freed
  | unique call key =>
      obtain ⟨_, freed, rest⟩ := bind_eq_ok.mp called
      obtain ⟨_, form, rest⟩ := bind_eq_ok.mp rest
      obtain ⟨_, load, result⟩ := bind_eq_ok.mp rest
      obtain rfl := Except.ok.inj result
      exact .unique freed (demand_eq_ok.mp form) load
  | intoInner key =>
      obtain ⟨_, freed, rest⟩ := bind_eq_ok.mp called
      obtain ⟨_, form, result⟩ := bind_eq_ok.mp rest
      obtain rfl := Except.ok.inj result
      exact .intoInner freed (demand_eq_ok.mp form)
  | readMut key =>
      obtain ⟨_, found, rest⟩ := bind_eq_ok.mp called
      obtain ⟨_, sole, rest⟩ := bind_eq_ok.mp rest
      obtain ⟨_, read, result⟩ := bind_eq_ok.mp rest
      obtain rfl := Except.ok.inj result
      exact .readMut (demandSome_eq_ok.mp found) (demand_eq_ok.mp sole) read
  | write key data =>
      obtain ⟨_, found, rest⟩ := bind_eq_ok.mp called
      obtain ⟨_, sole, rest⟩ := bind_eq_ok.mp rest
      obtain ⟨_, written, result⟩ := bind_eq_ok.mp rest
      obtain rfl := Except.ok.inj result
      exact .write (demandSome_eq_ok.mp found) (demand_eq_ok.mp sole) written
  | endGrant key =>
      obtain ⟨_, found, rest⟩ := bind_eq_ok.mp called
      obtain ⟨_, lent, result⟩ := bind_eq_ok.mp rest
      obtain rfl := Except.ok.inj result
      exact .endGrant (demandSome_eq_ok.mp found) (demand_eq_ok.mp lent)
  | readClone =>
      simp only [Sys.call] at called
      split at called
      · next suspended =>
          obtain ⟨_, read, result⟩ := bind_eq_ok.mp called
          obtain rfl := Except.ok.inj result
          exact .readClone suspended read
      · simp at called
  | cloneReturns data => exact .of_cloneReturns called
  | advance => simp [Sys.call] at called

theorem Called.call_eq {act : Act N V S} (called : Called word s t act next) :
    s.call word t act = .ok next := by
  cases called with
  | unwindMake suspended make =>
      rcases make with rfl | rfl <;> simp [Sys.call, Sys.unwind, suspended] <;> rfl
  | unwindCallback suspended | unwindOffsetMakeMut suspended
  | unwindUnwrapOrClone suspended =>
      simp [Sys.call, Sys.unwind, suspended]
      rfl
  | unwrappedClone suspended =>
      simp [Sys.call, Sys.cloneReturns, suspended]
      rfl
  | @copyMade data call ptr stack suspended other =>
      cases call <;> simp [Sys.call, Sys.cloneReturns, suspended] at other ⊢ <;> rfl
  | _ => simp [Sys.call, demandSome, demand, *, bind, Except.bind, pure, Except.pure]

/-- The relation is the step function of user code. -/
theorem call_eq_ok {act : Act N V S} :
    s.call word t act = .ok next ↔ Called word s t act next :=
  ⟨.of_call, Called.call_eq⟩

theorem Advanced.of_advance (advanced : s.advance word t = .ok next) :
    Advanced word s t next := by
  unfold Sys.advance at advanced
  split at advanced
  · simp at advanced
  · next op =>
      obtain ⟨_, added, result⟩ := bind_eq_ok.mp advanced
      obtain rfl := Except.ok.inj result
      exact .fetchAdd op added
  · next op =>
      obtain ⟨_, below, result⟩ := bind_eq_ok.mp advanced
      obtain rfl := Except.ok.inj result
      exact .cloned op (demand_eq_ok.mp below)
  · next op =>
      split at advanced
      · next one => exact .grant (one ▸ op) advanced
      · next shared => exact .decline op shared advanced
  · next op =>
      obtain ⟨_, unique, rest⟩ := bind_eq_ok.mp advanced
      obtain ⟨_, read, rest⟩ := bind_eq_ok.mp rest
      obtain ⟨_, given, result⟩ := bind_eq_ok.mp rest
      obtain rfl := Except.ok.inj result
      exact .moved op unique read given
  · next op =>
      obtain ⟨_, subtracted, result⟩ := bind_eq_ok.mp advanced
      dsimp only at result
      split at result
      · next several => exact .released op subtracted several result
      · next last =>
          obtain rfl := Except.ok.inj result
          rw [not_not] at last
          exact .lastReleased op (last ▸ subtracted)
  · next op =>
      obtain ⟨_, load, result⟩ := bind_eq_ok.mp advanced
      obtain rfl := Except.ok.inj result
      exact .acquired op load
  · next op =>
      obtain ⟨_, given, result⟩ := bind_eq_ok.mp advanced
      exact .finalized op given result

theorem Advanced.advance_eq (advanced : Advanced word s t next) :
    s.advance word t = .ok next := by
  cases advanced with
  | grant op granted => simpa [Sys.advance, op] using granted
  | decline op shared declined => simpa [Sys.advance, op, shared] using declined
  | released op subtracted several finished =>
      simpa [Sys.advance, op, subtracted, several, bind, Except.bind] using finished
  | finalized op given finished =>
      simpa [Sys.advance, op, given, bind, Except.bind] using finished
  | _ => simp [Sys.advance, demand, *, bind, Except.bind, pure, Except.pure]

/-- The relation is the step function of the crate. -/
theorem advance_eq_ok : s.advance word t = .ok next ↔ Advanced word s t next :=
  ⟨.of_advance, Advanced.advance_eq⟩

/-- A step is the next stage of the current call, or starts from user code. -/
theorem step_cases {act : Act N V S} (stepped : step word s (t, act) = .ok next) :
    (act = .advance ∧ Advanced word s t next) ∨
      ((s.threads t).op = .idle ∧ Called word s t act next) := by
  unfold step at stepped
  split at stepped
  · next same => exact Or.inl ⟨same, advance_eq_ok.mp stepped⟩
  · next idle _ => exact Or.inr ⟨idle, call_eq_ok.mp stepped⟩
  · simp at stepped

end Sys

end BackdropArc
