import BackdropArc.ArcSteps

/-!
# Programs that share nothing

What the crate is for, stated without a heap: every handle has a value of its
own, a clone gets a copy of that value, and a write changes the value of one
handle.  There are no addresses, no counts and no strategies.  Where the crate
reads a count, a program without sharing is told one.
-/

namespace BackdropArc.Unshared

open GuardedRuns

/-- The type that a shared reference points to, without its strategy. -/
inductive RefType
  | arc
  | offsetArc
  | unionFirst
  | unionSecond
  | arcBorrow
  deriving DecidableEq, Repr

/-- The type of handle that a clone call returns. -/
def RefType.cloned {S : Type} : RefType → CloneCall S → Option Form
  | .arc, .clone | .offsetArc, .offsetCloneArc | .arcBorrow, .borrowCloneArc _ => some .arc
  | .offsetArc, .clone => some .offsetArc
  | .unionFirst, .clone => some .unionFirst
  | .unionSecond, .clone => some .unionSecond
  | _, _ => none

def RefType.transient {S : Type} : RefType → CallbackCall S → Option RefType
  | .offsetArc, .offsetWithArc | .arcBorrow, .borrowWithArc _ => some .arc
  | .arc, .withRawOffsetArc => some .offsetArc
  | _, _ => none

/-- What a shared reference to a handle of this form points to. -/
def refType : Form → Option RefType
  | .arc => some .arc
  | .offsetArc => some .offsetArc
  | .unionFirst => some .unionFirst
  | .unionSecond => some .unionSecond
  | .raw | .uniqueArc => none

/-- The form that a conversion makes of a handle. -/
def convert {S : Type} : Conversion S → Form → Option Form
  | .withStrategy _, .arc | .fromRawOffset, .offsetArc | .fromRaw _, .raw
  | .shareable, .uniqueArc => some .arc
  | .intoRawOffset, .arc => some .offsetArc
  | .intoRaw, .arc => some .raw
  | .fromFirst, .arc => some .unionFirst
  | .fromSecond, .arc => some .unionSecond
  | _, _ => none

/-- A handle with a value of its own. -/
structure Owner (V : Type) where
  value : V
  form : Form
  lent : Bool
  deriving DecidableEq, Repr

def Owner.sole {V : Type} (owner : Owner V) : Bool :=
  owner.lent || owner.form = .uniqueArc

/-- An iterator that still has copies of the value under `root` to make. -/
structure Iter where
  root : Nat
  arcsLeft : Nat
  deriving DecidableEq, Repr

inductive Rest (V : Type)
  | done
  | grant (call : UniqueCall) (value : V)
  | value (data : V)
  | unwind
  deriving DecidableEq, Repr

inductive Op (V : Type)
  | idle
  | cloning (root : Nat) (form : Form)
  | tested (call : UniqueCall) (value : V) (loaded : Nat)
  | moving (value : V)
  | dropping (rest : Rest V)
  deriving DecidableEq, Repr

inductive Call (V : Type)
  | callback (root : Nat) (transient : RefType)
  | valueClone (call : UniqueCall) (value : V)
  deriving DecidableEq, Repr

structure Thread (V : Type) where
  op : Op V
  stack : List (Call V)
  deriving DecidableEq, Repr

structure Program (N : Nat) (V : Type) where
  handles : SlotTable (Owner V)
  /-- For each `ArcBorrow` the key of the handle it borrows. -/
  borrows : SlotTable Nat
  iters : SlotTable Iter
  threads : Fin N → Thread V
  answers : List (Fin N × Answer V)

def Op.borrows {V : Type} (root : Nat) : Op V → Bool
  | .cloning source _ => source = root
  | _ => false

def Call.borrows {V : Type} (root : Nat) : Call V → Bool
  | .callback source _ => source = root
  | .valueClone _ _ => false

def Thread.borrows {V : Type} (thread : Thread V) (root : Nat) : Bool :=
  thread.op.borrows root || thread.stack.any (Call.borrows root)

namespace Program

variable {N : Nat} {V S : Type}

def start (N : Nat) (V : Type) : Program N V where
  handles := .empty
  borrows := .empty
  iters := .empty
  threads _ := ⟨.idle, []⟩
  answers := []

def borrowed (c : Program N V) (root : Nat) : Bool :=
  c.borrows.any (· = root) || c.iters.any (·.root = root) ||
    decide (∃ thread, (c.threads thread).borrows root = true)

/-- The handle behind a shared reference, and its type. -/
def view (c : Program N V) : Source N → Option (Nat × RefType)
  | .handle key => do
      let owner ← c.handles.get? key
      if owner.lent then none
      else (refType owner.form).map fun type => (key, type)
  | .borrow key => (c.borrows.get? key).map fun root => (root, .arcBorrow)
  | .transient owner depth =>
      match (c.threads owner).stack[depth]? with
      | some (.callback root transient) => some (root, transient)
      | _ => none

def free (c : Program N V) (key : Nat) : Except Stop (Owner V) := do
  let owner ← demandSome (c.handles.get? key) .refused
  demand (owner.lent = false) .refused
  demand (c.borrowed key = false) .refused
  pure owner

def valueAt (c : Program N V) (root : Nat) : Except Stop V := do
  let owner ← demandSome (c.handles.get? root) .refused
  pure owner.value

def insert (c : Program N V) (owner : Owner V) : Program N V :=
  { c with handles := c.handles.insert owner }

def erase (c : Program N V) (key : Nat) : Program N V :=
  { c with handles := c.handles.erase key }

def replace (c : Program N V) (key : Nat) (owner : Owner V) : Program N V :=
  { c with handles := c.handles.replace key owner }

def setThread (c : Program N V) (t : Fin N) (thread : Thread V) : Program N V :=
  { c with threads := Function.update c.threads t thread }

def setOp (c : Program N V) (t : Fin N) (op : Op V) : Program N V :=
  c.setThread t { c.threads t with op := op }

def answer (c : Program N V) (t : Fin N) (answer : Answer V) : Program N V :=
  { c with answers := c.answers ++ [(t, answer)] }

def give (c : Program N V) (t : Fin N) (owner : Owner V) (answer : Answer V) :
    Program N V :=
  ((c.insert owner).setOp t .idle).answer t answer

def grant (c : Program N V) (t : Fin N) (call : UniqueCall) (value : V) : Program N V :=
  match call with
  | .getMut | .makeMut | .offsetMakeMut | .getUnique | .tryAsUnique | .mustBeUnique
  | .makeUnique => c.give t ⟨value, call.form, true⟩ (.granted c.handles.nextKey)
  | .tryUnique => c.give t ⟨value, .uniqueArc, false⟩ (.unique c.handles.nextKey)
  | .tryUnwrap | .unwrapOrClone => c.setOp t (.moving value)

def decline (c : Program N V) (t : Fin N) (call : UniqueCall) (value : V)
    (copies : Nat) : Program N V :=
  let same := ⟨value, call.form, false⟩
  match call with
  | .getMut | .getUnique => c.give t same .none
  | .tryAsUnique | .tryUnique | .tryUnwrap => c.give t same (.same c.handles.nextKey)
  | .mustBeUnique => c.give t same (.panicked (mustBeUniqueMessage copies))
  | .unwrapOrClone | .makeMut | .makeUnique | .offsetMakeMut =>
      c.setThread t ⟨.idle, .valueClone call value :: (c.threads t).stack⟩

def finish (c : Program N V) (t : Fin N) : Rest V → Program N V
  | .done => c.setOp t .idle
  | .grant call value => c.grant t call value
  | .value data => (c.setOp t .idle).answer t (.value data)
  | .unwind => (c.setOp t .idle).answer t .unwound

/-- The next step of the call that `t` is in.  Without a count the call goes on
and nothing happens yet. -/
def advance (seen : Option Nat) (c : Program N V) (t : Fin N) :
    Except Stop (Program N V) :=
  match (c.threads t).op, seen with
  | .cloning root form, some _ => do
      let value ← c.valueAt root
      pure ((c.insert ⟨value, form, false⟩).setOp t .idle)
  | .tested call value loaded, seen =>
      if loaded = 1 then pure (c.grant t call value)
      else pure (c.decline t call value (seen.getD 0))
  | .moving value, _ => pure ((c.setOp t .idle).answer t (.value value))
  | .dropping rest, some _ => pure (c.finish t rest)
  | .cloning _ _, none | .dropping _, none => pure c
  | .idle, _ => .error .refused

/-- A panic leaves the innermost user code of `t`. -/
def unwind (c : Program N V) (t : Fin N) : Except Stop (Program N V) :=
  match (c.threads t).stack with
  | .callback _ _ :: stack => pure (c.setThread t ⟨.idle, stack⟩)
  | .valueClone .makeMut value :: stack | .valueClone .makeUnique value :: stack =>
      pure (((c.insert ⟨value, .arc, false⟩).setThread t ⟨.idle, stack⟩).answer t .unwound)
  | .valueClone .offsetMakeMut value :: stack =>
      pure ((c.insert ⟨value, .offsetArc, false⟩).setThread t ⟨.dropping .unwind, stack⟩)
  | .valueClone .unwrapOrClone _ :: stack =>
      pure (c.setThread t ⟨.dropping .unwind, stack⟩)
  | _ => .error .refused

def cloneReturns (c : Program N V) (t : Fin N) (data : V) : Except Stop (Program N V) :=
  match (c.threads t).stack with
  | .valueClone .unwrapOrClone _ :: stack =>
      pure (c.setThread t ⟨.dropping (.value data), stack⟩)
  | .valueClone call _ :: stack =>
      pure (c.setThread t ⟨.dropping (.grant call data), stack⟩)
  | _ => .error .refused

/-- The actions of user code. -/
def call (seen : Option Nat) (c : Program N V) (t : Fin N) :
    Act N V S → Except Stop (Program N V)
  | .new data _ => pure (c.insert ⟨data, .arc, false⟩)
  | .newUnique data _ => pure (c.insert ⟨data, .uniqueArc, false⟩)
  | .borrow source => do
      let (root, _) ← demandSome (c.view source) .refused
      pure { c with borrows := c.borrows.insert root }
  | .endBorrow key => pure { c with borrows := c.borrows.erase key }
  | .read source => do
      let (root, _) ← demandSome (c.view source) .refused
      let value ← c.valueAt root
      pure (c.answer t (.value value))
  | .count source => do
      let _ ← demandSome (c.view source) .refused
      let count ← demandSome seen .refused
      pure (c.answer t (.counted count))
  | .clone source call => do
      let (root, type) ← demandSome (c.view source) .refused
      let form ← demandSome (type.cloned call) .refused
      pure (c.setOp t (.cloning root form))
  | .cloneMany source count => do
      let (root, type) ← demandSome (c.view source) .refused
      demand (type = .arc) .refused
      pure { c with iters := c.iters.insert ⟨root, count⟩ }
  | .next key => do
      let iter ← demandSome (c.iters.get? key) .refused
      if iter.arcsLeft = 0 then pure (c.answer t .none)
      else do
        let value ← c.valueAt iter.root
        pure ({ c with
          iters := c.iters.replace key { iter with arcsLeft := iter.arcsLeft - 1 } }.insert
            ⟨value, .arc, false⟩)
  | .cloneIter key => do
      let iter ← demandSome (c.iters.get? key) .refused
      pure { c with iters := c.iters.insert iter }
  | .dropIter key | .forgetIter key => do
      let _ ← demandSome (c.iters.get? key) .refused
      pure { c with iters := c.iters.erase key }
  | .enter source call => do
      let (root, type) ← demandSome (c.view source) .refused
      let transient ← demandSome (type.transient call) .refused
      pure (c.setThread t ⟨.idle, .callback root transient :: (c.threads t).stack⟩)
  | .leave =>
      match (c.threads t).stack with
      | .callback _ _ :: stack => pure (c.setThread t ⟨.idle, stack⟩)
      | _ => .error .refused
  | .unwind => c.unwind t
  | .convert key conversion => do
      let owner ← c.free key
      let form ← demandSome (convert conversion owner.form) .refused
      pure (c.replace key { owner with form := form })
  | .drop key => do
      let owner ← c.free key
      demand (owner.form ≠ .raw) .refused
      pure ((c.erase key).setOp t (.dropping .done))
  | .forget key => do
      let _ ← c.free key
      pure (c.erase key)
  | .unique call key => do
      let owner ← c.free key
      demand (owner.form = call.form) .refused
      let loaded ← demandSome seen .refused
      pure ((c.erase key).setOp t (.tested call owner.value loaded))
  | .intoInner key => do
      let owner ← c.free key
      demand (owner.form = .uniqueArc) .refused
      pure ((c.erase key).setOp t (.moving owner.value))
  | .readMut key => do
      let owner ← demandSome (c.handles.get? key) .refused
      demand (owner.sole = true) .refused
      pure (c.answer t (.value owner.value))
  | .write key data => do
      let owner ← demandSome (c.handles.get? key) .refused
      demand (owner.sole = true) .refused
      pure (c.replace key { owner with value := data })
  | .endGrant key => do
      let owner ← demandSome (c.handles.get? key) .refused
      demand (owner.lent = true) .refused
      pure (c.replace key { owner with lent := false })
  | .readClone =>
      match (c.threads t).stack with
      | .valueClone _ _ :: _ => pure c
      | _ => .error .refused
  | .cloneReturns data => c.cloneReturns t data
  | .advance => .error .refused

end Program

/-- One step of a program without sharing, which is told the count that the
crate reads in this step. -/
def step {N : Nat} {V S : Type} (c : Program N V)
    (move : (Fin N × Act N V S) × Option Nat) : Except Stop (Program N V) :=
  match (c.threads move.1.1).op, move.1.2 with
  | _, .advance => c.advance move.2 move.1.1
  | .idle, act => c.call move.2 move.1.1 act
  | _, _ => .error .refused

end BackdropArc.Unshared
