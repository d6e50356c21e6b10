import BackdropArc.ArcState

/-!
# The atomic steps of the crate

Each action is one indivisible step of one thread.  User code starts a call
with an action of its own; `advance` then takes the next atomic step of the
call the thread is in.  All other threads may step in between.
-/

namespace BackdropArc

open GuardedRuns CountedLifecycle

/-- Where a shared reference comes from: a handle, an `ArcBorrow`, or the
transient handle of a callback that a thread is running. -/
inductive Source (N : Nat)
  | handle (key : Nat)
  | borrow (key : Nat)
  | transient (owner : Fin N) (depth : Nat)
  deriving DecidableEq

/-- Calls that consume a handle and return it as another type. -/
inductive Conversion (S : Type)
  | withStrategy (strategy : S)
  | intoRawOffset
  | fromRawOffset
  | intoRaw
  | fromRaw (strategy : S)
  | fromFirst
  | fromSecond
  | shareable
  deriving DecidableEq

/-- None of the conversions touches the count. -/
def Conversion.apply {S : Type} (conversion : Conversion S)
    (hd : Handle S) : Option (Handle S) :=
  match conversion, hd.form with
  | .withStrategy strategy, .arc => some { hd with strategy := strategy }
  | .intoRawOffset, .arc => some { hd with form := .offsetArc }
  | .fromRawOffset, .offsetArc => some { hd with form := .arc }
  | .intoRaw, .arc => some { hd with form := .raw }
  | .fromRaw strategy, .raw => some { hd with form := .arc, strategy := strategy }
  | .fromFirst, .arc => some { hd with form := .unionFirst }
  | .fromSecond, .arc => some { hd with form := .unionSecond }
  | .shareable, .uniqueArc => some { hd with form := .arc }
  | _, _ => none

/-- The steps that a thread can take. -/
inductive Act (N : Nat) (V S : Type)
  | new (data : V) (strategy : S)
  | newUnique (data : V) (strategy : S)
  | borrow (source : Source N)
  | endBorrow (key : Nat)
  | read (source : Source N)
  | count (source : Source N)
  | clone (source : Source N) (call : CloneCall S)
  | cloneMany (source : Source N) (count : Nat)
  | next (iter : Nat)
  | cloneIter (iter : Nat)
  | dropIter (iter : Nat)
  | forgetIter (iter : Nat)
  | enter (source : Source N) (call : CallbackCall S)
  | leave
  | unwind
  | convert (key : Nat) (conversion : Conversion S)
  | drop (key : Nat)
  | forget (key : Nat)
  | unique (call : UniqueCall) (key : Nat)
  | intoInner (key : Nat)
  | readMut (key : Nat)
  | write (key : Nat) (data : V)
  | endGrant (key : Nat)
  | readClone
  | cloneReturns (data : V)
  | advance
  deriving DecidableEq

/-- The closure of `fetch_update` in `ArcCloneIter::new`. -/
def cloneManyUpdate (word : MachineWord) (inc count : Nat) : Except Stop Nat :=
  if word.modulus ≤ count + inc then .error .aborted
  else if maxRefcount word < count + inc then .error .aborted
  else .ok (count + inc)

/-- The closure of `fetch_update` in `Drop for ArcCloneIter`. -/
def dropIterUpdate (arcsLeft count : Nat) : Except Stop Nat :=
  if count < arcsLeft then .error .aborted else .ok (count - arcsLeft)

def mustBeUniqueMessage (copies : Nat) : String :=
  "`Arc` must be unique in order for this operation to be safe, " ++
    "there are currently " ++ toString copies ++ " copies"

namespace Sys

variable {N : Nat} {V S : Type}

/-- The pointer, type and strategy behind a shared reference. -/
def view (s : Sys N V S) : Source N → Option (Borrow × RefKind S)
  | .handle key => do
      let hd ← s.handles.get? key
      if hd.lent then none
      else (hd.refKind).map fun kind => (⟨key, hd.p⟩, kind)
  | .borrow key => (s.borrows.get? key).map fun borrow => (borrow, .arcBorrow)
  | .transient owner depth =>
      match (s.threads owner).stack[depth]? with
      | some (.callback source transient) => some (source, transient)
      | _ => none

/-- A handle that may be moved: not borrowed in any way. -/
def free (s : Sys N V S) (key : Nat) : Except Stop (Handle S) := do
  let hd ← demandSome (s.handles.get? key) .refused
  demand (hd.lent = false) .refused
  demand (s.borrowed key = false) .refused
  pure hd

def setOp (s : Sys N V S) (t : Fin N) (op : Op V S) : Fin N → Thread V S :=
  Function.update s.threads t { s.threads t with op := op }

/-- The call of `t` returns a handle and an answer. -/
def give (s : Sys N V S) (t : Fin N) (hd : Handle S)
    (answer : Answer V) : Sys N V S :=
  { s with
    handles := s.handles.insert hd
    threads := s.setOp t .idle
    log := s.log ++ [.returned t answer] }

/-- `debug_assert_eq!(Arc::count(..), 1)`. -/
def assertUnique (s : Sys N V S) (ptr : Pointer S) : Except Stop Unit := do
  let count ← s.heap.load ptr.p
  demand (count = 1) .assertionFailed

/-- What a uniqueness call does after it loaded 1, or after `make_mut` and
`make_unique` replaced a shared handle.  `from_arc` and `from_arc_ref` assert
uniqueness once more. -/
def grant (s : Sys N V S) (t : Fin N) (call : UniqueCall)
    (ptr : Pointer S) : Except Stop (Sys N V S) :=
  let lent := { ptr.handle call.form with lent := true }
  match call with
  | .getMut | .makeMut | .offsetMakeMut =>
      pure (s.give t lent (.granted s.handles.nextKey))
  | .getUnique | .tryAsUnique | .mustBeUnique | .makeUnique => do
      s.assertUnique ptr
      pure (s.give t lent (.granted s.handles.nextKey))
  | .tryUnique => do
      s.assertUnique ptr
      pure (s.give t (ptr.handle .uniqueArc) (.unique s.handles.nextKey))
  | .tryUnwrap | .unwrapOrClone => do
      s.assertUnique ptr
      pure { s with threads := s.setOp t (.moving ptr) }

/-- What a uniqueness call does after it loaded a count other than 1. -/
def decline (s : Sys N V S) (t : Fin N) (call : UniqueCall)
    (ptr : Pointer S) : Except Stop (Sys N V S) :=
  let same := ptr.handle call.form
  match call with
  | .getMut | .getUnique => pure (s.give t same .none)
  | .tryAsUnique | .tryUnique | .tryUnwrap =>
      pure (s.give t same (.same s.handles.nextKey))
  | .mustBeUnique => do
      let copies ← s.heap.load ptr.p
      pure (s.give t same (.panicked (mustBeUniqueMessage copies)))
  | .unwrapOrClone | .makeMut | .makeUnique | .offsetMakeMut =>
      -- Another pointer exists; `T::clone` is user code.
      pure { s with
        threads := Function.update s.threads t
          ⟨.idle, .valueClone call ptr :: (s.threads t).stack⟩ }

/-- Continue after a destructor inside another call is done. -/
def finish (s : Sys N V S) (t : Fin N) : Rest V S → Except Stop (Sys N V S)
  | .done => pure { s with threads := s.setOp t .idle }
  | .grant call ptr => s.grant t call ptr
  | .value data =>
      pure { s with
        threads := s.setOp t .idle
        log := s.log ++ [.returned t (.value data)] }
  | .unwind =>
      pure { s with
        threads := s.setOp t .idle
        log := s.log ++ [.returned t .unwound] }

/-- The next atomic step of the call that `t` is in. -/
def advance (word : MachineWord) (s : Sys N V S) (t : Fin N) :
    Except Stop (Sys N V S) :=
  match (s.threads t).op with
  | .idle => .error .refused
  | .cloning source form strategy => do
      let (old, heap) ← s.heap.fetchAdd word source.p
      pure { s with
        heap := heap
        threads := s.setOp t (.cloned source form strategy old) }
  | .cloned source form strategy old => do
      demand (old ≤ maxRefcount word) .aborted
      pure { s with
        handles := s.handles.insert (Pointer.handle ⟨source.p, strategy⟩ form.1)
        threads := s.setOp t .idle }
  | .tested call ptr loaded =>
      if loaded = 1 then s.grant t call ptr else s.decline t call ptr
  | .moving ptr => do
      s.assertUnique ptr
      let data ← s.heap.read ptr.p
      let heap ← s.heap.giveAway ptr.p .movedOut
      pure { s with
        heap := heap
        threads := s.setOp t .idle
        log := s.log ++
          [.life ptr.p (.takeOut (t, ptr.strategy)), .returned t (.value data)] }
  | .dropping ptr rest => do
      let (old, heap) ← s.heap.fetchSub word ptr.p
      if old ≠ 1 then
        finish { s with heap := heap } t rest
      else
        pure { s with
          heap := heap
          threads := s.setOp t (.dropLoad ptr rest)
          log := s.log ++ [.life ptr.p (.lastRelease (t, ptr.strategy))] }
  | .dropLoad ptr rest => do
      let _ ← s.heap.load ptr.p
      pure { s with threads := s.setOp t (.dropSlow ptr rest) }
  | .dropSlow ptr rest => do
      let heap ← s.heap.giveAway ptr.p (.backdropped ptr.strategy)
      let finalized := .life ptr.p (.finalize (t, ptr.strategy))
      finish { s with heap := heap, log := s.log ++ [finalized] } t rest

/-- A panic leaves the innermost user code of `t`. -/
def unwind (s : Sys N V S) (t : Fin N) : Except Stop (Sys N V S) :=
  match (s.threads t).stack with
  | .callback _ _ :: stack =>
      -- The transient handle is a `ManuallyDrop`.
      pure { s with threads := Function.update s.threads t ⟨.idle, stack⟩ }
  | .valueClone .makeMut ptr :: stack | .valueClone .makeUnique ptr :: stack =>
      pure { s with
        handles := s.handles.insert (ptr.handle .arc)
        threads := Function.update s.threads t ⟨.idle, stack⟩
        log := s.log ++ [.returned t .unwound] }
  | .valueClone .offsetMakeMut ptr :: stack =>
      -- `self` was only read bitwise and still holds the handle, while the
      -- local `arc` made from the same bits is dropped.
      pure { s with
        handles := s.handles.insert (ptr.handle .offsetArc)
        threads := Function.update s.threads t ⟨.dropping ptr .unwind, stack⟩ }
  | .valueClone .unwrapOrClone ptr :: stack =>
      pure { s with
        threads := Function.update s.threads t ⟨.dropping ptr .unwind, stack⟩ }
  | _ => .error .refused

/-- `T::clone` returns `data` to the call that runs it. -/
def cloneReturns (s : Sys N V S) (t : Fin N) (data : V) :
    Except Stop (Sys N V S) :=
  match (s.threads t).stack with
  | .valueClone .unwrapOrClone ptr :: stack =>
      pure { s with
        threads := Function.update s.threads t ⟨.dropping ptr (.value data), stack⟩ }
  | .valueClone call ptr :: stack =>
      pure { s with
        heap := s.heap.allocate data
        threads := Function.update s.threads t
          ⟨.dropping ptr (.grant call { ptr with p := s.heap.length }), stack⟩ }
  | _ => .error .refused

/-- The actions of user code. -/
def call (word : MachineWord) (s : Sys N V S) (t : Fin N) :
    Act N V S → Except Stop (Sys N V S)
  | .new data strategy =>
      pure { s with
        heap := s.heap.allocate data
        handles := s.handles.insert (Pointer.handle ⟨s.heap.length, strategy⟩ .arc) }
  | .newUnique data strategy =>
      pure { s with
        heap := s.heap.allocate data
        handles := s.handles.insert (Pointer.handle ⟨s.heap.length, strategy⟩ .uniqueArc) }
  | .borrow source => do
      let (borrow, _) ← demandSome (s.view source) .refused
      pure { s with borrows := s.borrows.insert borrow }
  | .endBorrow key => pure { s with borrows := s.borrows.erase key }
  | .read source => do
      let (borrow, _) ← demandSome (s.view source) .refused
      let data ← s.heap.read borrow.p
      pure { s with log := s.log ++ [.returned t (.value data)] }
  | .count source => do
      let (borrow, _) ← demandSome (s.view source) .refused
      let count ← s.heap.load borrow.p
      pure { s with log := s.log ++ [.returned t (.counted count)] }
  | .clone source call => do
      let (borrow, kind) ← demandSome (s.view source) .refused
      let (form, strategy) ← demandSome (kind.cloned call) .refused
      pure { s with threads := s.setOp t (.cloning borrow form strategy) }
  | .cloneMany source count => do
      let (borrow, kind) ← demandSome (s.view source) .refused
      match kind with
      | .arc strategy => do
          let heap ← s.heap.fetchUpdate (cloneManyUpdate word count) borrow.p
          pure { s with
            heap := heap
            iters := s.iters.insert ⟨borrow, strategy, count⟩ }
      | _ => .error .refused
  | .next key => do
      let iter ← demandSome (s.iters.get? key) .refused
      if iter.arcsLeft = 0 then
        pure { s with log := s.log ++ [.returned t .none] }
      else
        pure { s with
          iters := s.iters.replace key { iter with arcsLeft := iter.arcsLeft - 1 }
          handles := s.handles.insert
            (Pointer.handle ⟨iter.orig.p, iter.strategy⟩ .arc) }
  | .cloneIter key => do
      -- The derived `Clone` copies the field `arcs_left`.
      let iter ← demandSome (s.iters.get? key) .refused
      pure { s with iters := s.iters.insert iter }
  | .dropIter key => do
      let iter ← demandSome (s.iters.get? key) .refused
      if iter.arcsLeft = 0 then pure { s with iters := s.iters.erase key }
      else do
        let heap ← s.heap.fetchUpdate (dropIterUpdate iter.arcsLeft) iter.orig.p
        pure { s with heap := heap, iters := s.iters.erase key }
  | .forgetIter key => do
      let iter ← demandSome (s.iters.get? key) .refused
      pure { s with
        heap := s.heap.leak iter.orig.p iter.arcsLeft
        iters := s.iters.erase key }
  | .enter source call => do
      let (borrow, kind) ← demandSome (s.view source) .refused
      let transient ← demandSome (kind.transient call) .refused
      pure { s with
        threads := Function.update s.threads t
          ⟨.idle, .callback borrow transient :: (s.threads t).stack⟩ }
  | .leave =>
      match (s.threads t).stack with
      | .callback _ _ :: stack =>
          pure { s with threads := Function.update s.threads t ⟨.idle, stack⟩ }
      | _ => .error .refused
  | .unwind => s.unwind t
  | .convert key conversion => do
      let hd ← s.free key
      let converted ← demandSome (conversion.apply hd) .refused
      pure { s with handles := s.handles.replace key converted }
  | .drop key => do
      let hd ← s.free key
      demand (hd.form ≠ .raw) .refused
      pure { s with
        handles := s.handles.erase key
        threads := s.setOp t (.dropping hd.toPointer .done) }
  | .forget key => do
      let hd ← s.free key
      pure { s with
        heap := s.heap.leak hd.p 1
        handles := s.handles.erase key }
  | .unique call key => do
      let hd ← s.free key
      demand (hd.form = call.form) .refused
      let loaded ← s.heap.load hd.p
      pure { s with
        handles := s.handles.erase key
        threads := s.setOp t (.tested call hd.toPointer loaded) }
  | .intoInner key => do
      let hd ← s.free key
      demand (hd.form = .uniqueArc) .refused
      pure { s with
        handles := s.handles.erase key
        threads := s.setOp t (.moving hd.toPointer) }
  | .readMut key => do
      let hd ← demandSome (s.handles.get? key) .refused
      demand (hd.sole = true) .refused
      let data ← s.heap.read hd.p
      pure { s with log := s.log ++ [.returned t (.value data)] }
  | .write key data => do
      let hd ← demandSome (s.handles.get? key) .refused
      demand (hd.sole = true) .refused
      let heap ← s.heap.write hd.p data
      pure { s with heap := heap }
  | .endGrant key => do
      let hd ← demandSome (s.handles.get? key) .refused
      demand (hd.lent = true) .refused
      pure { s with handles := s.handles.replace key { hd with lent := false } }
  | .readClone =>
      match (s.threads t).stack with
      | .valueClone _ ptr :: _ => do
          let _ ← s.heap.read ptr.p
          pure s
      | _ => .error .refused
  | .cloneReturns data => s.cloneReturns t data
  | .advance => .error .refused

end Sys

/-- One atomic step of one thread.  User code runs only while its thread is
not inside a call of the crate. -/
def step {N : Nat} {V S : Type} (word : MachineWord) (s : Sys N V S)
    (move : Fin N × Act N V S) : Except Stop (Sys N V S) :=
  match (s.threads move.1).op, move.2 with
  | _, .advance => s.advance word move.1
  | .idle, act => s.call word move.1 act
  | _, _ => .error .refused

@[simp]
theorem step_advance {N : Nat} {V S : Type} (word : MachineWord) (s : Sys N V S)
    (t : Fin N) : step word s (t, .advance) = s.advance word t := by
  simp [step]

theorem step_of_idle {N : Nat} {V S : Type} {word : MachineWord} {s : Sys N V S}
    {t : Fin N} {act : Act N V S} (idle : (s.threads t).op = .idle)
    (starts : act ≠ .advance) : step word s (t, act) = s.call word t act := by
  cases act <;> simp_all [step]

/-- Only thread `t` steps, and only through the call it is in. -/
def Sys.Advances {N : Nat} {V S : Type} (word : MachineWord) (t : Fin N)
    (s last : Sys N V S) : Prop :=
  Reaches (step word) (fun _ move => move = (t, .advance)) s last

theorem Sys.Advances.refl {N : Nat} {V S : Type} (word : MachineWord) (t : Fin N)
    (s : Sys N V S) : Advances word t s s :=
  Reaches.refl

theorem Sys.Advances.tail {N : Nat} {V S : Type} {word : MachineWord} {t : Fin N}
    {s middle last : Sys N V S} (advances : Advances word t s middle)
    (stepped : step word middle (t, .advance) = .ok last) : Advances word t s last :=
  Reaches.tail (t, .advance) advances rfl stepped

end BackdropArc
