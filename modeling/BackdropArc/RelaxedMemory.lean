import BackdropArc.ArcSteps
import BackdropArc.ReleaseHistory

/-!
# One allocation under the memory orderings of the source

The other modules let every atomic operation act on one current count.  Here
the operations of `arc.rs` run with the orderings they are given: a load may
return an old count, and an access by another thread is only safe to follow
when it happened before.  The state is one allocation, the handles and clone
iterators that refer to it, and what each thread knows.

A thread may use a handle through a shared reference once it knows of the last
use through an exclusive one, and through an exclusive one once it knows of
every use before; this is what ownership, `Send` and `Sync` give, whatever
synchronization the program uses to pass handles and references around.
-/

namespace BackdropArc.RelaxedMemory

open GuardedRuns ReleaseHistory

/-- The orderings of the atomic operations on `ArcInner::count`. -/
structure Orderings where
  /-- `fetch_add` in `Arc::clone`. -/
  clone : MemoryOrdering
  /-- The two orderings of `fetch_update` in `ArcCloneIter::new`. -/
  iterNewSet : MemoryOrdering
  iterNewFetch : MemoryOrdering
  /-- The two orderings of `fetch_update` in `Drop for ArcCloneIter`. -/
  iterDropSet : MemoryOrdering
  iterDropFetch : MemoryOrdering
  /-- `fetch_sub` in `Drop for Arc`. -/
  dropSub : MemoryOrdering
  /-- The load before `drop_slow`. -/
  dropLoad : MemoryOrdering
  /-- The load in `Arc::count`, which `is_unique` goes through. -/
  count : MemoryOrdering

/-- The orderings in `arc.rs`. -/
def Orderings.source : Orderings where
  clone := .relaxed
  iterNewSet := .relaxed
  iterNewFetch := .relaxed
  iterDropSet := .relaxed
  iterDropFetch := .relaxed
  dropSub := .release
  dropLoad := .acquire
  count := .acquire

/-- The accesses to the memory of the allocation. -/
inductive Access
  /-- `Box::new` writes the count and the data. -/
  | create
  /-- An atomic access to the count. -/
  | count
  | read
  | write
  /-- The data is dropped or moved out, and the memory given back. -/
  | free
  deriving DecidableEq, Repr

/-- Two accesses that must not happen at the same time. -/
def Access.conflicts : Access → Access → Bool
  | .count, .count | .read, .read => false
  | .count, .read | .read, .count => false
  | .count, .write | .write, .count => false
  | _, _ => true

/-- What can refer to the allocation. -/
inductive Kind
  /-- An owning handle.  It is `unique` while it is a `UniqueArc`, and while a
  mutable reference that a uniqueness test gave out is alive. -/
  | handle (unique : Bool)
  /-- The reference that a call of `clone` counted and did not return yet. -/
  | cloned
  | iter (orig : Nat) (arcsLeft : Nat)
  deriving DecidableEq, Repr

/-- The number of references owned. -/
def Kind.refs : Kind → Nat
  | .handle _ | .cloned => 1
  | .iter _ arcsLeft => arcsLeft

def Kind.borrows (key : Nat) : Kind → Bool
  | .iter orig _ => orig = key
  | .handle _ | .cloned => false

/-- Something that refers to the allocation, with what was known at its last
exclusive use and what the shared uses since then knew. -/
structure Holder where
  kind : Kind
  owned : View Nat
  shared : View Nat

namespace Holder

/-- Everything that an exclusive use has to come after. -/
def view (holder : Holder) : View Nat :=
  holder.owned ⊔ holder.shared

def refs (holder : Holder) : Nat :=
  holder.kind.refs

/-- The holder after a shared use by a party that then knows `v`. -/
def use (holder : Holder) (v : View Nat) : Holder :=
  { holder with shared := holder.shared ⊔ v }

end Holder

/-- The call a thread is in the middle of. -/
inductive Stage
  | idle
  /-- `clone` of the handle under `source`, whose `fetch_add` returned `old`
  and counted the reference under `unit`. -/
  | cloning (source unit old : Nat)
  /-- `drop` after a `fetch_sub` that returned 1, before the load. -/
  | dropLoad
  /-- `drop` before `drop_slow`. -/
  | dropSlow
  deriving DecidableEq, Repr

def Stage.source? : Stage → Option Nat
  | .cloning source _ _ => some source
  | .idle | .dropLoad | .dropSlow => none

/-- The allocation and everything that refers to it.  An access is known by
its position in `accesses`. -/
structure Machine (N : Nat) where
  count : Location Nat
  accesses : List Access
  knows : Fin N → View Nat
  stages : Fin N → Stage
  holders : SlotTable Holder
  /-- What threads published through the synchronization of the program. -/
  posted : List (View Nat)
  /-- The references that `mem::forget` left behind. -/
  leaked : Nat
  /-- The `Box` that `drop_slow` passed to the strategy, with what was known
  then.  The strategy may run the destructor later and in any thread. -/
  backdropped : Option (View Nat)
  freed : Bool

inductive Fault
  | stop (reason : Stop)
  | dataRace
  deriving DecidableEq, Repr

/-- The faults that a correct library must exclude. -/
def Fault.Faulty : Fault → Prop
  | .stop reason => reason.Faulty
  | .dataRace => True

abbrev Fault.refused : Fault :=
  .stop .refused

inductive Action
  /-- The thread publishes what it knows. -/
  | post
  /-- The thread learns what was published. -/
  | receive (i : Nat)
  | read (key : Nat)
  | write (key : Nat)
  | clone (key : Nat)
  /-- An attempt of `fetch_update` in `clone_many` that reads message `i` and
  does not change the count. -/
  | cloneManyRetry (key count i : Nat)
  | cloneMany (key count : Nat)
  | next (key : Nat)
  | dropIterRetry (key i : Nat)
  | dropIter (key : Nat)
  | forgetIter (key : Nat)
  /-- `Arc::count`, which reads message `i`. -/
  | count (key i : Nat)
  /-- `is_unique` on a handle that is held exclusively: on success the handle
  becomes a `UniqueArc` or is borrowed mutably. -/
  | tryUnique (key i : Nat)
  /-- `UniqueArc::shareable`, or the end of the mutable borrow. -/
  | shareable (key : Nat)
  | drop (key : Nat)
  | forget (key : Nat)
  | intoInner (key : Nat)
  /-- The destructor of the `Box` that a strategy was given. -/
  | destroy
  /-- The next atomic step of the call; a load reads message `i`. -/
  | advance (i : Nat)
  deriving DecidableEq, Repr

namespace Machine

variable {N : Nat}

/-- `Arc::new` or `UniqueArc::new`, called by `creator`. -/
def start (creator : Fin N) (unique : Bool) : Machine N where
  count := .initial 1
  accesses := [.create]
  knows := Function.update (fun _ => ⊥) creator ⟨0, {0}⟩
  stages _ := .idle
  holders := SlotTable.empty.insert ⟨.handle unique, ⟨0, {0}⟩, ⊥⟩
  posted := []
  leaked := 0
  backdropped := none
  freed := false

/-- The references that live holders own. -/
def references (m : Machine N) : Nat :=
  m.holders.weigh Holder.refs

/-- Every earlier access that must not overlap this one happened before it. -/
def Ordered (m : Machine N) (t : Fin N) (access : Access) : Prop :=
  ∀ e : Fin m.accesses.length,
    (m.accesses.get e).conflicts access = true → e.val ∈ (m.knows t).past

instance (m : Machine N) (t : Fin N) (access : Access) : Decidable (m.Ordered t access) :=
  inferInstanceAs (Decidable (∀ _, _))

/-- The state after an access of thread `t`. -/
def record (m : Machine N) (t : Fin N) (access : Access) : Machine N :=
  { m with
    accesses := m.accesses ++ [access]
    knows := Function.update m.knows t ((m.knows t).after m.accesses.length) }

def perform (m : Machine N) (t : Fin N) (access : Access) :
    Except Fault (Machine N) := do
  demand (m.freed = false) (.stop .useAfterFree)
  demand (m.Ordered t access) .dataRace
  pure (m.record t access)

/-- The load of message `i`. -/
def load (m : Machine N) (t : Fin N) (ordering : MemoryOrdering) (i : Nat) :
    Machine N :=
  { m with
    knows := Function.update m.knows t (m.count.learn ordering (m.knows t) i) }

/-- The read-modify-write that `change`s the count. -/
def modify (m : Machine N) (t : Fin N) (ordering : MemoryOrdering)
    (change : Nat → Nat) : Machine N :=
  { m with
    count := m.count.modify ordering (m.knows t) change
    knows := Function.update m.knows t (m.count.learnWrite ordering (m.knows t)) }

def setStage (m : Machine N) (t : Fin N) (stage : Stage) : Machine N :=
  { m with stages := Function.update m.stages t stage }

/-- Whether a call or a clone iterator still borrows the handle. -/
def Borrowed (m : Machine N) (key : Nat) : Prop :=
  m.holders.any (·.kind.borrows key) = true ∨
    ∃ u, (m.stages u).source? = some key

instance (m : Machine N) (key : Nat) : Decidable (m.Borrowed key) :=
  inferInstanceAs (Decidable (_ ∨ _))

/-- Thread `t`, which runs code of the user, uses a shared reference to the
handle under `key`. -/
def borrow (m : Machine N) (t : Fin N) (key : Nat) : Except Fault Holder := do
  let holder ← demandSome (m.holders.get? key) .refused
  demand (m.stages t = .idle ∧ holder.owned ≤ m.knows t) .refused
  pure holder

/-- Thread `t` uses what is under `key` exclusively. -/
def take (m : Machine N) (t : Fin N) (key : Nat) : Except Fault Holder := do
  let holder ← demandSome (m.holders.get? key) .refused
  demand (m.stages t = .idle ∧ holder.view ≤ m.knows t ∧ ¬ m.Borrowed key) .refused
  pure holder

/-- The end of a shared use. -/
def used (m : Machine N) (t : Fin N) (key : Nat) (holder : Holder) : Machine N :=
  { m with holders := m.holders.replace key (holder.use (m.knows t)) }

/-- The end of an exclusive use. -/
def keep (m : Machine N) (t : Fin N) (key : Nat) (kind : Kind) : Machine N :=
  { m with holders := m.holders.replace key ⟨kind, m.knows t, ⊥⟩ }

def hold (m : Machine N) (t : Fin N) (kind : Kind) : Machine N :=
  { m with holders := m.holders.insert ⟨kind, m.knows t, ⊥⟩ }

def discard (m : Machine N) (key : Nat) : Machine N :=
  { m with holders := m.holders.erase key }

/-- A handle that `&self` methods of `Arc` can be called on. -/
def borrowArc (m : Machine N) (t : Fin N) (key : Nat) : Except Fault Holder := do
  let holder ← m.borrow t key
  demand (holder.kind = .handle false) .refused
  pure holder

/-- The result of a closure passed to `fetch_update`. -/
def closure {α : Type} (result : Except Stop α) : Except Fault α :=
  result.mapError Fault.stop

/-- The clone iterator under `key`, used exclusively, and its handle. -/
def takeIter (m : Machine N) (t : Fin N) (key : Nat) :
    Except Fault (Nat × Nat × Holder) := do
  let holder ← m.take t key
  match holder.kind with
  | .iter orig arcsLeft => do
      let source ← demandSome (m.holders.get? orig) .refused
      pure (orig, arcsLeft, source)
  | .handle _ | .cloned => .error .refused

/-! ## The operations -/

def post (m : Machine N) (t : Fin N) : Except Fault (Machine N) := do
  demand (m.stages t = .idle) .refused
  pure { m with posted := m.posted ++ [m.knows t] }

def receive (m : Machine N) (t : Fin N) (i : Nat) : Except Fault (Machine N) := do
  demand (m.stages t = .idle) .refused
  let view ← demandSome m.posted[i]? .refused
  pure { m with knows := Function.update m.knows t (m.knows t ⊔ view) }

/-- A read of the data through a shared reference. -/
def read (m : Machine N) (t : Fin N) (key : Nat) : Except Fault (Machine N) := do
  let holder ← m.borrow t key
  demand (holder.kind = .handle false ∨ holder.kind = .handle true) .refused
  let m ← m.perform t .read
  pure (m.used t key holder)

/-- A write of the data through a mutable reference. -/
def write (m : Machine N) (t : Fin N) (key : Nat) : Except Fault (Machine N) := do
  let holder ← m.take t key
  demand (holder.kind = .handle true) .refused
  let m ← m.perform t .write
  pure (m.keep t key (.handle true))

/-- `Arc::clone` up to its `fetch_add`. -/
def clone (word : MachineWord) (o : Orderings) (m : Machine N) (t : Fin N)
    (key : Nat) : Except Fault (Machine N) := do
  let holder ← m.borrowArc t key
  let old := m.count.newest.value
  let unit := m.holders.nextKey
  let m ← m.perform t .count
  let m := m.modify t o.clone (word.wrappingAdd · 1)
  pure (((m.used t key holder).hold t .cloned).setStage t (.cloning key unit old))

def cloneManyRetry (word : MachineWord) (o : Orderings) (m : Machine N)
    (t : Fin N) (key count i : Nat) : Except Fault (Machine N) := do
  let holder ← m.borrowArc t key
  demand (m.count.Readable (m.knows t) i) .refused
  let m ← m.perform t .count
  let _ ← closure (cloneManyUpdate word count (m.count.messages i).value)
  pure ((m.load t o.iterNewFetch i).used t key holder)

/-- `ArcCloneIter::new`, with the attempt of `fetch_update` that succeeds. -/
def cloneMany (word : MachineWord) (o : Orderings) (m : Machine N) (t : Fin N)
    (key count : Nat) : Except Fault (Machine N) := do
  let holder ← m.borrowArc t key
  let m ← m.perform t .count
  let val ← closure (cloneManyUpdate word count m.count.newest.value)
  let m := m.modify t o.iterNewSet fun _ => val
  pure ((m.used t key holder).hold t (.iter key count))

/-- `ArcCloneIter::next`, which touches no memory of the allocation. -/
def next (m : Machine N) (t : Fin N) (key : Nat) : Except Fault (Machine N) := do
  let (orig, arcsLeft, _) ← m.takeIter t key
  if arcsLeft = 0 then pure m
  else pure ((m.keep t key (.iter orig (arcsLeft - 1))).hold t (.handle false))

def dropIterRetry (o : Orderings) (m : Machine N) (t : Fin N) (key i : Nat) :
    Except Fault (Machine N) := do
  let (orig, arcsLeft, _) ← m.takeIter t key
  demand (arcsLeft ≠ 0) .refused
  demand (m.count.Readable (m.knows t) i) .refused
  let m ← m.perform t .count
  let _ ← closure (dropIterUpdate arcsLeft (m.count.messages i).value)
  pure ((m.load t o.iterDropFetch i).keep t key (.iter orig arcsLeft))

/-- `Drop for ArcCloneIter`, with the attempt that succeeds. -/
def dropIter (o : Orderings) (m : Machine N) (t : Fin N) (key : Nat) :
    Except Fault (Machine N) := do
  let (orig, arcsLeft, source) ← m.takeIter t key
  if arcsLeft = 0 then pure ((m.used t orig source).discard key)
  else do
    let m ← m.perform t .count
    let val ← closure (dropIterUpdate arcsLeft m.count.newest.value)
    let m := m.modify t o.iterDropSet fun _ => val
    pure ((m.used t orig source).discard key)

def forgetIter (m : Machine N) (t : Fin N) (key : Nat) :
    Except Fault (Machine N) := do
  let (orig, arcsLeft, source) ← m.takeIter t key
  let m := (m.used t orig source).discard key
  pure { m with leaked := m.leaked + arcsLeft }

/-- `Arc::count`. -/
def loadCount (o : Orderings) (m : Machine N) (t : Fin N) (key i : Nat) :
    Except Fault (Machine N) := do
  let holder ← m.borrowArc t key
  demand (m.count.Readable (m.knows t) i) .refused
  let m ← m.perform t .count
  pure ((m.load t o.count i).used t key holder)

def tryUnique (o : Orderings) (m : Machine N) (t : Fin N) (key i : Nat) :
    Except Fault (Machine N) := do
  let holder ← m.take t key
  demand (holder.kind = .handle false) .refused
  demand (m.count.Readable (m.knows t) i) .refused
  let m ← m.perform t .count
  let m := m.load t o.count i
  pure (m.keep t key (.handle ((m.count.messages i).value = 1)))

def shareable (m : Machine N) (t : Fin N) (key : Nat) : Except Fault (Machine N) := do
  let holder ← m.take t key
  demand (holder.kind = .handle true) .refused
  pure (m.keep t key (.handle false))

/-- `Drop for Arc` up to its `fetch_sub`; a `UniqueArc` drops the `Arc` in it. -/
def drop (word : MachineWord) (o : Orderings) (m : Machine N) (t : Fin N)
    (key : Nat) : Except Fault (Machine N) := do
  let holder ← m.take t key
  demand (holder.kind = .handle false ∨ holder.kind = .handle true) .refused
  let old := m.count.newest.value
  let m ← m.perform t .count
  let m := (m.modify t o.dropSub (word.wrappingSub · 1)).discard key
  if old ≠ 1 then pure m else pure (m.setStage t .dropLoad)

def forget (m : Machine N) (t : Fin N) (key : Nat) : Except Fault (Machine N) := do
  let holder ← m.take t key
  demand (holder.kind = .handle false ∨ holder.kind = .handle true) .refused
  pure { m.discard key with leaked := m.leaked + 1 }

/-- `UniqueArc::into_inner` moves the data out and frees the memory. -/
def intoInner (m : Machine N) (t : Fin N) (key : Nat) : Except Fault (Machine N) := do
  let holder ← m.take t key
  demand (holder.kind = .handle true) .refused
  let m ← m.perform t .free
  pure { m.discard key with freed := true }

def destroy (m : Machine N) (t : Fin N) : Except Fault (Machine N) := do
  let view ← demandSome m.backdropped .refused
  demand (m.stages t = .idle ∧ view ≤ m.knows t) .refused
  let m ← m.perform t .free
  pure { m with backdropped := none, freed := true }

def advance (word : MachineWord) (o : Orderings) (m : Machine N) (t : Fin N)
    (i : Nat) : Except Fault (Machine N) :=
  match m.stages t with
  | .idle => .error .refused
  | .cloning _ unit old => do
      demand (old ≤ maxRefcount word) (.stop .aborted)
      pure ((m.keep t unit (.handle false)).setStage t .idle)
  | .dropLoad => do
      demand (m.count.Readable (m.knows t) i) .refused
      let m ← m.perform t .count
      pure ((m.load t o.dropLoad i).setStage t .dropSlow)
  | .dropSlow =>
      pure { m.setStage t .idle with backdropped := some (m.knows t) }

def step (word : MachineWord) (o : Orderings) (m : Machine N) :
    Fin N × Action → Except Fault (Machine N)
  | (t, .post) => m.post t
  | (t, .receive i) => m.receive t i
  | (t, .read key) => m.read t key
  | (t, .write key) => m.write t key
  | (t, .clone key) => m.clone word o t key
  | (t, .cloneManyRetry key count i) => m.cloneManyRetry word o t key count i
  | (t, .cloneMany key count) => m.cloneMany word o t key count
  | (t, .next key) => m.next t key
  | (t, .dropIterRetry key i) => m.dropIterRetry o t key i
  | (t, .dropIter key) => m.dropIter o t key
  | (t, .forgetIter key) => m.forgetIter t key
  | (t, .count key i) => m.loadCount o t key i
  | (t, .tryUnique key i) => m.tryUnique o t key i
  | (t, .shareable key) => m.shareable t key
  | (t, .drop key) => m.drop word o t key
  | (t, .forget key) => m.forget t key
  | (t, .intoInner key) => m.intoInner t key
  | (t, .destroy) => m.destroy t
  | (t, .advance i) => m.advance word o t i

end Machine

end BackdropArc.RelaxedMemory
