import BackdropArc.CountedLifecycle
import BackdropArc.SharedHeap
import BackdropArc.SlotTable
import Mathlib.Algebra.BigOperators.Group.Finset.Basic
import Mathlib.Data.Fintype.Basic

/-!
# Handles, borrows and threads

The state of a program that uses the crate: the shared heap, the owning
handles in its variables, the shared borrows and clone iterators that are
alive, and for every thread the call it is in the middle of.  A call that
takes `self` or `&mut self` moves the handle into its frame and hands a handle
back at its end, so no two places ever name the same handle.
-/

namespace BackdropArc

/-- The types of handles that own one reference. -/
inductive Form
  | arc
  | offsetArc
  | unionFirst
  | unionSecond
  /-- A pointer from `into_raw` that was not turned back yet. -/
  | raw
  | uniqueArc
  deriving DecidableEq, Repr

/-- The forms that a clone can have: a `UniqueArc` is never cloned. -/
abbrev SharedForm :=
  { form : Form // form ≠ .uniqueArc }

def SharedForm.arc : SharedForm :=
  ⟨.arc, by decide⟩

/-- A pointer to block `p` together with the strategy in its handle's type. -/
structure Pointer (S : Type) where
  p : Nat
  strategy : S
  deriving DecidableEq, Repr

/-- An owning handle.  `lent` says that a mutable reference obtained from a
uniqueness test on the handle is still in use. -/
structure Handle (S : Type) extends Pointer S where
  form : Form
  lent : Bool
  deriving DecidableEq, Repr

/-- A handle of the given form that nothing borrows mutably. -/
def Pointer.handle {S : Type} (ptr : Pointer S) (form : Form) : Handle S :=
  { ptr with form := form, lent := false }

/-- A shared borrow of the handle stored under `root`, pointing to block `p`. -/
structure Borrow where
  root : Nat
  p : Nat
  deriving DecidableEq, Repr

structure ArcCloneIter (S : Type) where
  orig : Borrow
  strategy : S
  arcsLeft : Nat
  deriving DecidableEq, Repr

/-- What a shared reference points to.  An `ArcBorrow` has no strategy. -/
inductive RefKind (S : Type)
  | arc (strategy : S)
  | offsetArc (strategy : S)
  | unionFirst (strategy : S)
  | unionSecond (strategy : S)
  | arcBorrow
  deriving DecidableEq, Repr

/-- The calls that make one more handle out of a shared reference. -/
inductive CloneCall (S : Type)
  /-- `Clone::clone` of `Arc`, `OffsetArc` and `ArcUnion`. -/
  | clone
  /-- `OffsetArc::clone_arc`. -/
  | offsetCloneArc
  /-- `ArcBorrow::clone_arc`, which chooses the strategy. -/
  | borrowCloneArc (strategy : S)
  deriving DecidableEq, Repr

/-- The calls that run a callback on a transient handle. -/
inductive CallbackCall (S : Type)
  /-- `OffsetArc::with_arc`. -/
  | offsetWithArc
  /-- `ArcBorrow::with_arc`, which chooses the strategy. -/
  | borrowWithArc (strategy : S)
  /-- `Arc::with_raw_offset_arc`. -/
  | withRawOffsetArc
  deriving DecidableEq, Repr

/-- The calls that test for uniqueness and then act on the answer.
`UniqueArc::try_from` is `tryUnique`. -/
inductive UniqueCall
  | getMut
  | getUnique
  | tryAsUnique
  | mustBeUnique
  | tryUnique
  | tryUnwrap
  | unwrapOrClone
  | makeMut
  | makeUnique
  | offsetMakeMut
  deriving DecidableEq, Repr

namespace RefKind

variable {S : Type}

/-- The type and strategy of the handle that a clone call returns. -/
def cloned : RefKind S → CloneCall S → Option (SharedForm × S)
  | .arc strategy, .clone => some (SharedForm.arc, strategy)
  | .offsetArc strategy, .clone => some (⟨.offsetArc, by decide⟩, strategy)
  | .unionFirst strategy, .clone => some (⟨.unionFirst, by decide⟩, strategy)
  | .unionSecond strategy, .clone => some (⟨.unionSecond, by decide⟩, strategy)
  | .offsetArc strategy, .offsetCloneArc => some (SharedForm.arc, strategy)
  | .arcBorrow, .borrowCloneArc strategy => some (SharedForm.arc, strategy)
  | _, _ => none

/-- The transient handle that a callback sees. -/
def transient : RefKind S → CallbackCall S → Option (RefKind S)
  | .offsetArc strategy, .offsetWithArc => some (.arc strategy)
  | .arcBorrow, .borrowWithArc strategy => some (.arc strategy)
  | .arc strategy, .withRawOffsetArc => some (.offsetArc strategy)
  | _, _ => none

end RefKind

/-- What a shared reference to the handle can be used as.  A `UniqueArc` only
dereferences to its data, and a raw pointer not even that. -/
def Handle.refKind {S : Type} (hd : Handle S) : Option (RefKind S) :=
  match hd.form with
  | .arc => some (.arc hd.strategy)
  | .offsetArc => some (.offsetArc hd.strategy)
  | .unionFirst => some (.unionFirst hd.strategy)
  | .unionSecond => some (.unionSecond hd.strategy)
  | .raw | .uniqueArc => none

/-- Whether shared references to the handle may exist. -/
def Handle.lendable {S : Type} (hd : Handle S) : Bool :=
  !hd.lent && hd.refKind.isSome

/-- Whether the handle stands for sole ownership: a `UniqueArc`, or a handle
with an outstanding mutable reference. -/
def Handle.sole {S : Type} (hd : Handle S) : Bool :=
  hd.lent || hd.form = .uniqueArc

def UniqueCall.form : UniqueCall → Form
  | .offsetMakeMut => .offsetArc
  | _ => .arc

/-- What is left to do after a destructor that runs inside another call. -/
inductive Rest (V S : Type)
  | done
  /-- The assignment to `*this` and the grant that ends a copy on write. -/
  | grant (call : UniqueCall) (ptr : Pointer S)
  /-- `unwrap_or_clone` returns the cloned value. -/
  | value (data : V)
  /-- The destructor ran because of a panic. -/
  | unwind
  deriving DecidableEq, Repr

/-- The call a thread is in the middle of, between two of its atomic steps. -/
inductive Op (V S : Type)
  /-- The thread runs code of the user. -/
  | idle
  /-- `clone` before its `fetch_add`; a forged handle is not counted. -/
  | cloning (source : Borrow) (form : SharedForm) (strategy : S)
  /-- `clone` between its `fetch_add` and the check of the old count. -/
  | cloned (source : Borrow) (form : SharedForm) (strategy : S) (old : Nat)
  /-- A uniqueness test between the load and what follows from it. -/
  | tested (call : UniqueCall) (ptr : Pointer S) (loaded : Nat)
  /-- `UniqueArc::into_inner` before the move. -/
  | moving (ptr : Pointer S)
  /-- A destructor before its `fetch_sub`. -/
  | dropping (ptr : Pointer S) (rest : Rest V S)
  /-- A destructor whose `fetch_sub` returned 1, before the `Acquire` load. -/
  | dropLoad (ptr : Pointer S) (rest : Rest V S)
  /-- A destructor before `drop_slow`. -/
  | dropSlow (ptr : Pointer S) (rest : Rest V S)
  deriving DecidableEq, Repr

/-- A suspended call whose user code is running. -/
inductive Call (S : Type)
  /-- The callback of a `with_arc` runs on a transient handle. -/
  | callback (source : Borrow) (transient : RefKind S)
  /-- `T::clone` runs inside a copy on write or `unwrap_or_clone`. -/
  | valueClone (call : UniqueCall) (ptr : Pointer S)
  deriving DecidableEq, Repr

structure Thread (V S : Type) where
  op : Op V S
  stack : List (Call S)
  deriving DecidableEq, Repr

/-- What a call returned to the user code. -/
inductive Answer (V : Type)
  | none
  /-- A mutable reference into the handle now stored under `key`. -/
  | granted (key : Nat)
  /-- `Ok` of the `UniqueArc` now stored under `key`. -/
  | unique (key : Nat)
  /-- `Err` of the handle now stored under `key`. -/
  | same (key : Nat)
  | value (data : V)
  | counted (count : Nat)
  /-- A panic of the crate itself. -/
  | panicked (message : String)
  /-- A panic of user code that ran inside the call. -/
  | unwound
  deriving DecidableEq, Repr

/-- The history of a run: the lives of the blocks, where a party is a thread
together with the strategy of the handle it acts for, and the answers. -/
inductive Entry (N : Nat) (V S : Type)
  | life (p : Nat) (event : CountedLifecycle.Event (Fin N × S))
  | returned (thread : Fin N) (answer : Answer V)
  deriving DecidableEq

structure Sys (N : Nat) (V S : Type) where
  heap : Heap V S
  handles : SlotTable (Handle S)
  borrows : SlotTable Borrow
  iters : SlotTable (ArcCloneIter S)
  threads : Fin N → Thread V S
  log : List (Entry N V S)

def Sys.start (N : Nat) (V S : Type) : Sys N V S where
  heap := []
  handles := .empty
  borrows := .empty
  iters := .empty
  threads _ := ⟨.idle, []⟩
  log := []

/-! ## The borrow that a call in progress holds -/

def Op.source? {V S : Type} : Op V S → Option Borrow
  | .cloning source _ _ | .cloned source _ _ _ => some source
  | _ => none

def Call.source? {S : Type} : Call S → Option Borrow
  | .callback source _ => some source
  | .valueClone _ _ => none

/-- The call in progress or a suspended call of the thread holds the borrow. -/
def Thread.Holds {V S : Type} (thread : Thread V S) (borrow : Borrow) : Prop :=
  thread.op.source? = some borrow ∨
    ∃ call ∈ thread.stack, call.source? = some borrow

def Thread.borrows {V S : Type} (thread : Thread V S) (root : Nat) : Bool :=
  thread.op.source?.any (·.root = root) ||
    thread.stack.any (·.source?.any (·.root = root))

/-- Whether the handle under `root` is borrowed, so that it cannot be moved. -/
def Sys.borrowed {N : Nat} {V S : Type} (s : Sys N V S) (root : Nat) : Bool :=
  s.borrows.any (·.root = root) || s.iters.any (·.orig.root = root) ||
    decide (∃ thread, (s.threads thread).borrows root = true)

/-- A shared borrow is alive somewhere in the program. -/
def Sys.Borrows {N : Nat} {V S : Type} (s : Sys N V S) (borrow : Borrow) : Prop :=
  (∃ key, s.borrows.get? key = some borrow) ∨
    (∃ key iter, s.iters.get? key = some iter ∧ iter.orig = borrow) ∨
      ∃ thread, (s.threads thread).Holds borrow

/-! ## References owned by each part of the state -/

def Pointer.refs {S : Type} (p : Nat) (ptr : Pointer S) : Nat :=
  if ptr.p = p then 1 else 0

def Handle.refs {S : Type} (p : Nat) (hd : Handle S) : Nat :=
  hd.toPointer.refs p

def ArcCloneIter.refs {S : Type} (p : Nat) (iter : ArcCloneIter S) : Nat :=
  if iter.orig.p = p then iter.arcsLeft else 0

def Rest.refs {V S : Type} (p : Nat) : Rest V S → Nat
  | .grant _ ptr => ptr.refs p
  | .done | .value _ | .unwind => 0

/-- A reference that `clone` has counted but not returned belongs to the call;
a handle being dropped stops counting at its `fetch_sub`. -/
def Op.refs {V S : Type} (p : Nat) : Op V S → Nat
  | .idle | .cloning _ _ _ => 0
  | .cloned source _ _ _ => if source.p = p then 1 else 0
  | .tested _ ptr _ | .moving ptr => ptr.refs p
  | .dropping ptr rest => ptr.refs p + rest.refs p
  | .dropLoad _ rest | .dropSlow _ rest => rest.refs p

def Call.refs {S : Type} (p : Nat) : Call S → Nat
  | .callback _ _ => 0
  | .valueClone _ ptr => ptr.refs p

def Thread.refs {V S : Type} (p : Nat) (thread : Thread V S) : Nat :=
  thread.op.refs p + (thread.stack.map (Call.refs p)).sum

/-- The live owning handles of block `p` stored in the program. -/
def Sys.liveHandles {N : Nat} {V S : Type} (s : Sys N V S) (p : Nat) : Nat :=
  s.handles.weigh (Handle.refs p)

def Sys.arcsLeft {N : Nat} {V S : Type} (s : Sys N V S) (p : Nat) : Nat :=
  s.iters.weigh (ArcCloneIter.refs p)

/-- The references to `p` that calls in progress own. -/
def Sys.inFlight {N : Nat} {V S : Type} (s : Sys N V S) (p : Nat) : Nat :=
  ∑ thread, (s.threads thread).refs p

/-- All references to `p` that the program still accounts for. -/
def Sys.owners {N : Nat} {V S : Type} (s : Sys N V S) (p : Nat) : Nat :=
  s.liveHandles p + s.inFlight p + s.arcsLeft p + s.heap.leakedAt p

end BackdropArc
