import BackdropArc.PayloadFrames
import BackdropArc.UniqueAccess
import BackdropArc.Unshared

/-!
# Sharing cannot be observed

Every run of the crate is a run of the program without sharing: a handle looks
like the value that its block holds.  Counting, giving blocks away and making
new ones change no value that a handle sees.  A write changes one block, and a
handle that may write is the only one that sees this block.
-/

namespace BackdropArc

open GuardedRuns CountedLifecycle

variable {N : Nat} {V S : Type}

def RefKind.type : RefKind S → Unshared.RefType
  | .arc _ => .arc
  | .offsetArc _ => .offsetArc
  | .unionFirst _ => .unionFirst
  | .unionSecond _ => .unionSecond
  | .arcBorrow => .arcBorrow

/-! ## What the parts of a state look like -/

/-- The handle looks like an owner of the data it points to. -/
structure Handle.Appears (heap : Heap V S) (hd : Handle S) (owner : Unshared.Owner V) :
    Prop where
  data : heap.dataAt hd.p = some owner.value
  form : hd.form = owner.form
  lent : hd.lent = owner.lent

inductive Rest.Appears (heap : Heap V S) : Rest V S → Unshared.Rest V → Prop
  | done : Appears heap .done .done
  | grant {call : UniqueCall} {ptr : Pointer S} {value : V} :
      heap.dataAt ptr.p = some value → Appears heap (.grant call ptr) (.grant call value)
  | value {data : V} : Appears heap (.value data) (.value data)
  | unwind : Appears heap .unwind .unwind

/-- The stages of `clone` look alike, and so do those of a destructor. -/
inductive Op.Appears (heap : Heap V S) : Op V S → Unshared.Op V → Prop
  | idle : Appears heap .idle .idle
  | cloning {source : Borrow} {form : SharedForm} {strategy : S} :
      Appears heap (.cloning source form strategy) (.cloning source.root form.1)
  | cloned {source : Borrow} {form : SharedForm} {strategy : S} {old : Nat} :
      Appears heap (.cloned source form strategy old) (.cloning source.root form.1)
  | tested {call : UniqueCall} {ptr : Pointer S} {loaded : Nat} {value : V} :
      heap.dataAt ptr.p = some value →
        Appears heap (.tested call ptr loaded) (.tested call value loaded)
  | moving {ptr : Pointer S} {value : V} :
      heap.dataAt ptr.p = some value → Appears heap (.moving ptr) (.moving value)
  | dropping {ptr : Pointer S} {rest : Rest V S} {left : Unshared.Rest V} :
      rest.Appears heap left → Appears heap (.dropping ptr rest) (.dropping left)
  | dropLoad {ptr : Pointer S} {rest : Rest V S} {left : Unshared.Rest V} :
      rest.Appears heap left → Appears heap (.dropLoad ptr rest) (.dropping left)
  | dropSlow {ptr : Pointer S} {rest : Rest V S} {left : Unshared.Rest V} :
      rest.Appears heap left → Appears heap (.dropSlow ptr rest) (.dropping left)

inductive Call.Appears (heap : Heap V S) : Call S → Unshared.Call V → Prop
  | callback {source : Borrow} {transient : RefKind S} :
      Appears heap (.callback source transient) (.callback source.root transient.type)
  | valueClone {call : UniqueCall} {ptr : Pointer S} {value : V} :
      heap.dataAt ptr.p = some value →
        Appears heap (.valueClone call ptr) (.valueClone call value)

structure Thread.Appears (heap : Heap V S) (thread : Thread V S)
    (image : Unshared.Thread V) : Prop where
  op : thread.op.Appears heap image.op
  stack : List.Forall₂ (Call.Appears heap) thread.stack image.stack

def Entry.answer? : Entry N V S → Option (Fin N × Answer V)
  | .returned thread answer => some (thread, answer)
  | .life _ _ => none

/-- The answers that the threads got so far. -/
def Sys.answers (s : Sys N V S) : List (Fin N × Answer V) :=
  s.log.filterMap Entry.answer?

/-- The state of the crate looks like that of a program without sharing. -/
structure Sys.Appears (s : Sys N V S) (c : Unshared.Program N V) : Prop where
  handles : s.handles.Matches (Handle.Appears s.heap) c.handles
  borrows : s.borrows.Matches (fun borrow root => borrow.root = root) c.borrows
  iters : s.iters.Matches
    (fun iter image => iter.orig.root = image.root ∧ iter.arcsLeft = image.arcsLeft) c.iters
  threads : ∀ t, (s.threads t).Appears s.heap (c.threads t)
  answers : s.answers = c.answers

/-! ## Heaps that hold the same values -/

section Heaps

variable {heap after : Heap V S}

theorem Rest.Appears.mono {rest : Rest V S} {left : Unshared.Rest V}
    (appears : rest.Appears heap left)
    (kept : ∀ p v, rest.refs p ≠ 0 → heap.dataAt p = some v → after.dataAt p = some v) :
    rest.Appears after left := by
  cases appears with
  | done => exact .done
  | @grant call ptr value here => exact .grant (kept _ _ (by simp [Rest.refs]) here)
  | value => exact .value
  | unwind => exact .unwind

theorem Rest.Appears.recount {rest : Rest V S} {left : Unshared.Rest V}
    (appears : rest.Appears heap left) (same : ∀ p, after.dataAt p = heap.dataAt p) :
    rest.Appears after left :=
  appears.mono fun p v _ here => by rwa [same p]

theorem Op.Appears.mono {op : Op V S} {image : Unshared.Op V} (appears : op.Appears heap image)
    (kept : ∀ p v, op.refs p ≠ 0 → heap.dataAt p = some v → after.dataAt p = some v) :
    op.Appears after image := by
  cases appears with
  | idle => exact .idle
  | cloning => exact .cloning
  | cloned => exact .cloned
  | tested here => exact .tested (kept _ _ (by simp [Op.refs]) here)
  | moving here => exact .moving (kept _ _ (by simp [Op.refs]) here)
  | dropping rest =>
      exact .dropping (rest.mono fun p v refs => kept p v (by simp [Op.refs, refs]))
  | dropLoad rest => exact .dropLoad (rest.mono kept)
  | dropSlow rest => exact .dropSlow (rest.mono kept)

theorem Call.Appears.mono {call : Call S} {image : Unshared.Call V}
    (appears : call.Appears heap image)
    (kept : ∀ p v, call.refs p ≠ 0 → heap.dataAt p = some v → after.dataAt p = some v) :
    call.Appears after image := by
  cases appears with
  | callback => exact .callback
  | valueClone here => exact .valueClone (kept _ _ (by simp [Call.refs]) here)

theorem appears_stack_mono {stack : List (Call S)} {image : List (Unshared.Call V)}
    (appears : List.Forall₂ (Call.Appears heap) stack image)
    (kept : ∀ p v, (stack.map (Call.refs p)).sum ≠ 0 → heap.dataAt p = some v →
      after.dataAt p = some v) : List.Forall₂ (Call.Appears after) stack image := by
  induction appears with
  | nil => exact .nil
  | cons first rest ih =>
      constructor
      · apply first.mono
        intro p v refs
        apply kept p v
        simp [refs]
      · apply ih
        intro p v refs
        apply kept p v
        rw [List.map_cons, List.sum_cons]
        omega

theorem appears_callback {stack : List (Call S)} {image : List (Unshared.Call V)}
    (appears : List.Forall₂ (Call.Appears heap) stack image) {depth : Nat} {source : Borrow}
    {transient : RefKind S} (here : stack[depth]? = some (.callback source transient)) :
    image[depth]? = some (.callback source.root transient.type) := by
  induction appears generalizing depth with
  | nil => simp at here
  | cons first rest ih =>
      cases depth with
      | zero =>
          obtain rfl := Option.some.inj here
          cases first with
          | callback => rfl
      | succ depth => exact ih here

theorem Call.Appears.borrows_eq {call : Call S} {image : Unshared.Call V}
    (appears : call.Appears heap image) (root : Nat) :
    image.borrows root = call.source?.any (·.root = root) := by
  cases appears with
  | callback | valueClone => rfl

theorem Op.Appears.borrows_eq {op : Op V S} {image : Unshared.Op V}
    (appears : op.Appears heap image) (root : Nat) :
    image.borrows root = op.source?.any (·.root = root) := by
  cases appears <;> rfl

theorem appears_stack_borrows {stack : List (Call S)} {image : List (Unshared.Call V)}
    (appears : List.Forall₂ (Call.Appears heap) stack image) (root : Nat) :
    image.any (Unshared.Call.borrows root) = stack.any (·.source?.any (·.root = root)) := by
  induction appears with
  | nil => rfl
  | cons first rest ih => rw [List.any_cons, List.any_cons, first.borrows_eq, ih]

theorem Thread.Appears.borrows_eq {thread : Thread V S} {image : Unshared.Thread V}
    (appears : thread.Appears heap image) (root : Nat) :
    image.borrows root = thread.borrows root := by
  rw [Unshared.Thread.borrows, Thread.borrows, appears.op.borrows_eq,
    appears_stack_borrows appears.stack]

/-- A thread looks the same when no value changed that it owns. -/
theorem Thread.Appears.mono {thread : Thread V S} {image : Unshared.Thread V}
    (appears : thread.Appears heap image)
    (kept : ∀ p v, thread.refs p ≠ 0 → heap.dataAt p = some v → after.dataAt p = some v) :
    thread.Appears after image where
  op := by
    apply appears.op.mono
    intro p v refs
    apply kept p v
    unfold Thread.refs
    omega
  stack := by
    apply appears_stack_mono appears.stack
    intro p v refs
    apply kept p v
    unfold Thread.refs
    omega

end Heaps

namespace Sys

variable {s next : Sys N V S} {c : Unshared.Program N V} {t : Fin N} {word : MachineWord}
  {key : Nat} {hd : Handle S} {owner : Unshared.Owner V}

theorem appears_start : (start N V S).Appears (.start N V) where
  handles := SlotTable.matches_empty
  borrows := SlotTable.matches_empty
  iters := SlotTable.matches_empty
  threads _ := ⟨.idle, .nil⟩
  answers := rfl

theorem answers_append (s : Sys N V S) (entries : List (Entry N V S)) :
    ({ s with log := s.log ++ entries } : Sys N V S).answers =
      s.answers ++ entries.filterMap Entry.answer? :=
  List.filterMap_append

namespace Appears

/-! ## Changing one part of the state -/

theorem reheap (appears : s.Appears c) {heap : Heap V S}
    (kept : ∀ p v, s.heap.dataAt p = some v → heap.dataAt p = some v) :
    ({ s with heap := heap } : Sys N V S).Appears c where
  handles := appears.handles.mono fun _ _ _ _ holds =>
    ⟨kept _ _ holds.data, holds.form, holds.lent⟩
  borrows := appears.borrows
  iters := appears.iters
  threads x := (appears.threads x).mono fun p v _ => kept p v
  answers := appears.answers

theorem recount (appears : s.Appears c) {heap : Heap V S}
    (same : ∀ p, heap.dataAt p = s.heap.dataAt p) :
    ({ s with heap := heap } : Sys N V S).Appears c :=
  appears.reheap fun p v here => by rwa [same p]

theorem insert (appears : s.Appears c) (holds : hd.Appears s.heap owner) :
    ({ s with handles := s.handles.insert hd } : Sys N V S).Appears (c.insert owner) :=
  ⟨appears.handles.insert holds, appears.borrows, appears.iters, appears.threads,
    appears.answers⟩

theorem erase (appears : s.Appears c) (key : Nat) :
    ({ s with handles := s.handles.erase key } : Sys N V S).Appears (c.erase key) :=
  ⟨appears.handles.erase key, appears.borrows, appears.iters, appears.threads,
    appears.answers⟩

theorem replace (appears : s.Appears c) {old : Handle S}
    (found : s.handles.get? key = some old) (holds : hd.Appears s.heap owner) :
    ({ s with handles := s.handles.replace key hd } : Sys N V S).Appears
      (c.replace key owner) :=
  ⟨appears.handles.replace found (fun _ _ _ _ _ same => same) holds, appears.borrows,
    appears.iters, appears.threads, appears.answers⟩

theorem setThread (appears : s.Appears c) {op : Op V S} {stack : List (Call S)}
    {image : Unshared.Op V} {images : List (Unshared.Call V)}
    (current : op.Appears s.heap image)
    (suspended : List.Forall₂ (Call.Appears s.heap) stack images) :
    ({ s with threads := Function.update s.threads t ⟨op, stack⟩ } : Sys N V S).Appears
      (c.setThread t ⟨image, images⟩) where
  handles := appears.handles
  borrows := appears.borrows
  iters := appears.iters
  threads x := by
    by_cases here : x = t
    · subst here
      simpa [Unshared.Program.setThread] using Thread.Appears.mk current suspended
    · simpa [Unshared.Program.setThread, here] using appears.threads x
  answers := appears.answers

theorem setOp (appears : s.Appears c) {op : Op V S} {image : Unshared.Op V}
    (current : op.Appears s.heap image) :
    ({ s with threads := s.setOp t op } : Sys N V S).Appears (c.setOp t image) :=
  appears.setThread current (appears.threads t).stack

theorem answer (appears : s.Appears c) (answer : Answer V) :
    ({ s with log := s.log ++ [.returned t answer] } : Sys N V S).Appears
      (c.answer t answer) where
  handles := appears.handles
  borrows := appears.borrows
  iters := appears.iters
  threads := appears.threads
  answers := by
    rw [answers_append, appears.answers]
    rfl

theorem life (appears : s.Appears c) (p : Nat) (event : Event (Fin N × S)) :
    ({ s with log := s.log ++ [.life p event] } : Sys N V S).Appears c where
  handles := appears.handles
  borrows := appears.borrows
  iters := appears.iters
  threads := appears.threads
  answers := by
    rw [answers_append, appears.answers]
    exact List.append_nil _

theorem give (appears : s.Appears c) (holds : hd.Appears s.heap owner)
    (answer : Nat → Answer V) :
    (s.give t hd (answer s.handles.nextKey)).Appears
      (c.give t owner (answer c.handles.nextKey)) := by
  rw [← appears.handles.nextKey]
  exact ((appears.insert holds).setOp .idle).answer _

/-! ## Looking at a handle -/

theorem refKind_type (holds : hd.Appears s.heap owner) :
    hd.refKind.map RefKind.type = Unshared.refType owner.form := by
  rw [← holds.form]
  unfold Handle.refKind
  cases hd.form <;> rfl

theorem sole_eq (holds : hd.Appears s.heap owner) : owner.sole = hd.sole := by
  rw [Unshared.Owner.sole, Handle.sole, holds.form, holds.lent]

theorem view (appears : s.Appears c) {source : Source N} {borrow : Borrow} {kind : RefKind S}
    (viewed : s.view source = some (borrow, kind)) :
    c.view source = some (borrow.root, kind.type) := by
  cases source with
  | handle key =>
      simp only [Sys.view, Option.bind_eq_bind, Option.bind_eq_some_iff] at viewed
      obtain ⟨hd, found, rest⟩ := viewed
      obtain ⟨owner, stored, holds⟩ := appears.handles.found found
      cases lent : hd.lent with
      | true => simp [lent] at rest
      | false =>
          simp only [lent, Bool.false_eq_true, if_false, Option.map_eq_some_iff,
            Prod.mk.injEq] at rest
          obtain ⟨kind, some, rfl, rfl⟩ := rest
          have type := refKind_type holds
          rw [some, Option.map_some] at type
          simp [Unshared.Program.view, stored, ← holds.lent, lent, ← type]
  | borrow key =>
      simp only [Sys.view, Option.map_eq_some_iff, Prod.mk.injEq] at viewed
      obtain ⟨borrow, found, rfl, rfl⟩ := viewed
      obtain ⟨root, stored, rfl⟩ := appears.borrows.found found
      simp [Unshared.Program.view, stored, RefKind.type]
  | transient owner depth =>
      simp only [Sys.view] at viewed
      split at viewed
      · next source transient call =>
          obtain ⟨rfl, rfl⟩ := Prod.mk.inj (Option.some.inj viewed)
          have called := appears_callback (appears.threads owner).stack call
          simp only [Unshared.Program.view, called]
      · cases viewed

theorem cloned_type {kind : RefKind S} {call : CloneCall S} {form : SharedForm} {strategy : S}
    (cloned : kind.cloned call = some (form, strategy)) :
    kind.type.cloned call = some form.1 := by
  cases kind <;> cases call <;> simp only [RefKind.cloned, Option.some.injEq, Prod.mk.injEq,
    reduceCtorEq] at cloned <;> obtain ⟨rfl, rfl⟩ := cloned <;> rfl

theorem transient_type {kind transient : RefKind S} {call : CallbackCall S}
    (entered : kind.transient call = some transient) :
    kind.type.transient call = some transient.type := by
  cases kind <;> cases call <;> simp only [RefKind.transient, Option.some.injEq,
    reduceCtorEq] at entered <;> obtain rfl := entered <;> rfl

theorem valueAt (appears : s.Appears c) {borrow : Borrow} (roots : s.Roots borrow) :
    ∃ value, c.valueAt borrow.root = .ok value ∧ s.heap.dataAt borrow.p = some value := by
  obtain ⟨hd, found, same, _⟩ := roots
  obtain ⟨owner, stored, holds⟩ := appears.handles.found found
  refine ⟨owner.value, ?_, same ▸ holds.data⟩
  rw [Unshared.Program.valueAt, stored]
  rfl

theorem borrowed_eq (appears : s.Appears c) (key : Nat) : c.borrowed key = s.borrowed key := by
  have borrows := appears.borrows.any_eq (·.root = key) (· = key)
    fun entry image same => by rw [same]
  have iters := appears.iters.any_eq (·.orig.root = key) (·.root = key)
    fun entry image same => by rw [same.1]
  have threads (x : Fin N) := (appears.threads x).borrows_eq key
  simp only [Unshared.Program.borrowed, Sys.borrowed, borrows, iters, threads]

theorem free (appears : s.Appears c) (freed : s.free key = .ok hd) :
    ∃ owner, c.free key = .ok owner ∧ hd.Appears s.heap owner := by
  obtain ⟨found, unlent, unborrowed⟩ := free_eq_ok.mp freed
  obtain ⟨owner, stored, holds⟩ := appears.handles.found found
  refine ⟨owner, ?_, holds⟩
  simp [Unshared.Program.free, demandSome, demand, stored, ← holds.lent, unlent,
    appears.borrowed_eq, unborrowed, bind, Except.bind, pure, Except.pure]

/-! ## Uniqueness -/

theorem grant (appears : s.Appears c) {call : UniqueCall} {ptr : Pointer S} {value : V}
    (here : s.heap.dataAt ptr.p = some value) (granted : s.grant t call ptr = .ok next) :
    next.Appears (c.grant t call value) := by
  have lent : Handle.Appears s.heap { ptr.handle call.form with lent := true }
      ⟨value, call.form, true⟩ := ⟨here, rfl, rfl⟩
  cases call with
  | getMut | makeMut | offsetMakeMut =>
      obtain rfl := Except.ok.inj granted
      exact appears.give lent .granted
  | getUnique | tryAsUnique | mustBeUnique | makeUnique =>
      obtain ⟨_, _, result⟩ := bind_eq_ok.mp granted
      obtain rfl := Except.ok.inj result
      exact appears.give lent .granted
  | tryUnique =>
      obtain ⟨_, _, result⟩ := bind_eq_ok.mp granted
      obtain rfl := Except.ok.inj result
      have unique : Handle.Appears s.heap (ptr.handle .uniqueArc) ⟨value, .uniqueArc, false⟩ :=
        ⟨here, rfl, rfl⟩
      exact appears.give unique .unique
  | tryUnwrap | unwrapOrClone =>
      obtain ⟨_, _, result⟩ := bind_eq_ok.mp granted
      obtain rfl := Except.ok.inj result
      exact appears.setOp (.moving here)

theorem decline (appears : s.Appears c) {call : UniqueCall} {ptr : Pointer S} {value : V}
    (here : s.heap.dataAt ptr.p = some value) (declined : s.decline t call ptr = .ok next) :
    ∃ copies, next.Appears (c.decline t call value copies) := by
  have same : Handle.Appears s.heap (ptr.handle call.form) ⟨value, call.form, false⟩ :=
    ⟨here, rfl, rfl⟩
  cases call with
  | getMut | getUnique =>
      obtain rfl := Except.ok.inj declined
      exact ⟨0, appears.give same fun _ => .none⟩
  | tryAsUnique | tryUnique | tryUnwrap =>
      obtain rfl := Except.ok.inj declined
      exact ⟨0, appears.give same .same⟩
  | mustBeUnique =>
      obtain ⟨copies, _, result⟩ := bind_eq_ok.mp declined
      obtain rfl := Except.ok.inj result
      exact ⟨copies, appears.give same fun _ => .panicked (mustBeUniqueMessage copies)⟩
  | unwrapOrClone | makeMut | makeUnique | offsetMakeMut =>
      obtain rfl := Except.ok.inj declined
      exact ⟨0, appears.setThread .idle (.cons (.valueClone here) (appears.threads t).stack)⟩

theorem finish (appears : s.Appears c) {rest : Rest V S} {left : Unshared.Rest V}
    (holds : rest.Appears s.heap left) (finished : s.finish t rest = .ok next) :
    next.Appears (c.finish t left) := by
  cases holds with
  | done =>
      obtain rfl := Except.ok.inj finished
      exact appears.setOp .idle
  | grant here => exact appears.grant here finished
  | value =>
      obtain rfl := Except.ok.inj finished
      exact (appears.setOp .idle).answer _
  | unwind =>
      obtain rfl := Except.ok.inj finished
      exact (appears.setOp .idle).answer _

/-! ## The steps -/

theorem op (appears : s.Appears c) {op : Op V S} (here : (s.threads t).op = op) :
    ∃ image, (c.threads t).op = image ∧ op.Appears s.heap image :=
  ⟨_, rfl, here ▸ (appears.threads t).op⟩

/-- An operation that goes on looking like the same operation. -/
theorem goesOn (appears : s.Appears c) {op : Op V S}
    (holds : op.Appears s.heap (c.threads t).op) :
    ({ s with threads := s.setOp t op } : Sys N V S).Appears c := by
  have same : c.setOp t (c.threads t).op = c := by
    simp [Unshared.Program.setOp, Unshared.Program.setThread]
  rw [← same]
  exact appears.setOp holds

theorem advanced (sound : s.Sound) (appears : s.Appears c) (advanced : Advanced word s t next) :
    ∃ seen image, c.advance seen t = .ok image ∧ next.Appears image := by
  cases advanced with
  | @fetchAdd source form strategy old heap op added =>
      obtain ⟨image, op', holds⟩ := appears.op op
      cases holds with
      | cloning =>
          refine ⟨none, c, ?_, ?_⟩
          · simp [Unshared.Program.advance, op', pure, Except.pure]
          · refine (appears.recount (Heap.fetchAdd_recounts added).dataAt_eq).goesOn ?_
            rw [op']
            exact .cloned
  | @cloned source form strategy old op _ =>
      obtain ⟨image, op', holds⟩ := appears.op op
      cases holds with
      | cloned =>
          have alive : s.Borrows source := Or.inr (Or.inr ⟨t, Or.inl (by rw [op]; rfl)⟩)
          obtain ⟨value, read, here⟩ := appears.valueAt (sound.rooted source alive)
          have copy : Handle.Appears s.heap (Pointer.handle ⟨source.p, strategy⟩ form.1)
              ⟨value, form.1, false⟩ := ⟨here, rfl, rfl⟩
          refine ⟨some old, _, ?_, (appears.insert copy).setOp .idle⟩
          simp [Unshared.Program.advance, op', read, bind, Except.bind, pure, Except.pure]
  | grant op granted =>
      obtain ⟨image, op', holds⟩ := appears.op op
      cases holds with
      | tested here =>
          refine ⟨none, _, ?_, appears.grant here granted⟩
          simp [Unshared.Program.advance, op', pure, Except.pure]
  | decline op shared declined =>
      obtain ⟨image, op', holds⟩ := appears.op op
      cases holds with
      | tested here =>
          obtain ⟨copies, same⟩ := appears.decline here declined
          refine ⟨some copies, _, ?_, same⟩
          simp [Unshared.Program.advance, op', shared, pure, Except.pure]
  | @moved ptr data heap op _ read given =>
      obtain ⟨image, op', holds⟩ := appears.op op
      cases holds with
      | @moving _ value here =>
          have same : value = data := by
            have found := (Heap.read_eq_ok.mp read).2
            rw [here] at found
            exact Option.some.inj found
          subst same
          have gone := appears.recount (Heap.giveAway_recounts rfl given).dataAt_eq
          have ended := ((gone.setOp (t := t) .idle).life ptr.p
            (.takeOut (t, ptr.strategy))).answer (t := t) (.value value)
          refine ⟨none, (c.setOp t .idle).answer t (.value value), ?_, ?_⟩
          · simp [Unshared.Program.advance, op', pure, Except.pure]
          · simp only [List.append_assoc] at ended
            exact ended
  | @released ptr rest old heap _ op subtracted _ finished =>
      obtain ⟨image, op', holds⟩ := appears.op op
      cases holds with
      | @dropping _ _ left remains =>
          have same := (Heap.fetchSub_recounts subtracted).dataAt_eq
          refine ⟨some old, c.finish t left, ?_,
            (appears.recount same).finish (remains.recount same) finished⟩
          simp [Unshared.Program.advance, op', pure, Except.pure]
  | @lastReleased ptr rest heap op subtracted =>
      obtain ⟨image, op', holds⟩ := appears.op op
      cases holds with
      | dropping remains =>
          have same := (Heap.fetchSub_recounts subtracted).dataAt_eq
          refine ⟨none, c, ?_, ?_⟩
          · simp [Unshared.Program.advance, op', pure, Except.pure]
          · refine ((appears.recount same).life ptr.p (.lastRelease (t, ptr.strategy))).goesOn ?_
            rw [op']
            exact .dropLoad (remains.recount same)
  | @acquired ptr rest count op _ =>
      obtain ⟨image, op', holds⟩ := appears.op op
      cases holds with
      | dropLoad remains =>
          refine ⟨none, c, ?_, ?_⟩
          · simp [Unshared.Program.advance, op', pure, Except.pure]
          · refine appears.goesOn ?_
            rw [op']
            exact .dropSlow remains
  | @finalized ptr rest heap _ op given finished =>
      obtain ⟨image, op', holds⟩ := appears.op op
      cases holds with
      | @dropSlow _ _ left remains =>
          have same := (Heap.giveAway_recounts rfl given).dataAt_eq
          refine ⟨some 0, c.finish t left, ?_, ((appears.recount same).life ptr.p
            (.finalize (t, ptr.strategy))).finish (remains.recount same) finished⟩
          simp [Unshared.Program.advance, op', pure, Except.pure]

/-- A write through a handle that stands for sole ownership changes what this
handle sees, and nothing that another one sees. -/
theorem write (sound : s.Sound) (appears : s.Appears c) (found : s.handles.get? key = some hd)
    (sole : hd.sole = true) {data : V} {heap : Heap V S}
    (written : s.heap.write hd.p data = .ok heap)
    (holds : hd.Appears s.heap owner) :
    ({ s with heap := heap } : Sys N V S).Appears
      (c.replace key { owner with value := data }) := by
  have alone := sound.alone found sole
  have elsewhere {q : Nat} {v : V} (other : q ≠ hd.p) (here : s.heap.dataAt q = some v) :
      heap.dataAt q = some v := by
    rwa [Heap.write_dataAt written, if_neg other]
  constructor
  case handles =>
    have now : hd.Appears heap { owner with value := data } :=
      ⟨by rw [Heap.write_dataAt written, if_pos rfl], holds.form, holds.lent⟩
    have replaced : (s.handles.replace key hd).Matches (Handle.Appears heap)
        (c.handles.replace key { owner with value := data }) := appears.handles.replace found
      (fun other entry image different stored same =>
        ⟨elsewhere (fun here => different (alone.handles other entry stored here)) same.data,
          same.form, same.lent⟩) now
    rwa [SlotTable.replace_self found] at replaced
  case borrows => exact appears.borrows
  case iters => exact appears.iters
  case answers => exact appears.answers
  case threads =>
    intro x
    apply (appears.threads x).mono
    intro q v refs here
    refine elsewhere ?_ here
    rintro rfl
    have owned := refs_le_inFlight s x hd.p
    rw [alone.inFlight] at owned
    omega

/-- A new block leaves the old ones as they are. -/
theorem allocate (appears : s.Appears c) (data : V) :
    ({ s with heap := s.heap.allocate data } : Sys N V S).Appears c :=
  appears.reheap fun _ _ here => Heap.dataAt_allocate_of_found here

theorem stack (appears : s.Appears c) {call : Call S} {stack : List (Call S)}
    (suspended : (s.threads t).stack = call :: stack) :
    ∃ image images, (c.threads t).stack = image :: images ∧ call.Appears s.heap image ∧
      List.Forall₂ (Call.Appears s.heap) stack images := by
  have holds := (appears.threads t).stack
  rw [suspended, List.forall₂_cons_left_iff] at holds
  obtain ⟨image, images, first, rest, same⟩ := holds
  exact ⟨image, images, same, first, rest⟩

theorem iter (appears : s.Appears c) {iter : ArcCloneIter S}
    (found : s.iters.get? key = some iter) :
    c.iters.get? key = some ⟨iter.orig.root, iter.arcsLeft⟩ := by
  obtain ⟨⟨root, arcsLeft⟩, stored, same⟩ := appears.iters.found found
  rw [stored, same.1, same.2]

theorem insertIter (appears : s.Appears c) (iter : ArcCloneIter S) :
    ({ s with iters := s.iters.insert iter } : Sys N V S).Appears
      { c with iters := c.iters.insert ⟨iter.orig.root, iter.arcsLeft⟩ } :=
  ⟨appears.handles, appears.borrows, appears.iters.insert ⟨rfl, rfl⟩, appears.threads,
    appears.answers⟩

theorem eraseIter (appears : s.Appears c) (key : Nat) :
    ({ s with iters := s.iters.erase key } : Sys N V S).Appears
      { c with iters := c.iters.erase key } :=
  ⟨appears.handles, appears.borrows, appears.iters.erase key, appears.threads,
    appears.answers⟩

theorem replaceIter (appears : s.Appears c) {old iter : ArcCloneIter S}
    (found : s.iters.get? key = some old) :
    ({ s with iters := s.iters.replace key iter } : Sys N V S).Appears
      { c with iters := c.iters.replace key ⟨iter.orig.root, iter.arcsLeft⟩ } :=
  ⟨appears.handles, appears.borrows,
    appears.iters.replace found (fun _ _ _ _ _ same => same) ⟨rfl, rfl⟩, appears.threads,
    appears.answers⟩

theorem setBorrows (appears : s.Appears c) {borrows : SlotTable Borrow}
    {images : SlotTable Nat}
    (same : borrows.Matches (fun borrow root => borrow.root = root) images) :
    ({ s with borrows := borrows } : Sys N V S).Appears { c with borrows := images } :=
  ⟨appears.handles, same, appears.iters, appears.threads, appears.answers⟩

theorem converted {conversion : Conversion S} {converted : Handle S}
    (holds : hd.Appears s.heap owner) (applied : conversion.apply hd = some converted) :
    ∃ form, Unshared.convert conversion owner.form = some form ∧
      converted.Appears s.heap { owner with form := form } := by
  obtain ⟨value, form, lent⟩ := owner
  obtain ⟨data, rfl, rfl⟩ := holds
  unfold Conversion.apply at applied
  split at applied <;> simp only [Option.some.injEq, reduceCtorEq] at applied <;>
    obtain rfl := applied <;> simp only [Unshared.convert, *] <;>
    exact ⟨_, rfl, data, rfl, rfl⟩

theorem called (sound : s.Sound) (appears : s.Appears c) {act : Act N V S}
    (called : Called word s t act next) :
    ∃ seen image, c.call seen t act = .ok image ∧ next.Appears image := by
  cases called with
  | new data strategy =>
      have fresh : (Pointer.handle ⟨s.heap.length, strategy⟩ .arc).Appears
          (s.heap.allocate data) ⟨data, .arc, false⟩ :=
        ⟨by simp [Pointer.handle, Heap.dataAt_allocate], rfl, rfl⟩
      exact ⟨none, _, rfl, (appears.allocate data).insert fresh⟩
  | newUnique data strategy =>
      have fresh : (Pointer.handle ⟨s.heap.length, strategy⟩ .uniqueArc).Appears
          (s.heap.allocate data) ⟨data, .uniqueArc, false⟩ :=
        ⟨by simp [Pointer.handle, Heap.dataAt_allocate], rfl, rfl⟩
      exact ⟨none, _, rfl, (appears.allocate data).insert fresh⟩
  | borrow viewed =>
      refine ⟨none, _, ?_, appears.setBorrows (appears.borrows.insert rfl)⟩
      simp [Unshared.Program.call, demandSome, appears.view viewed, bind, Except.bind, pure,
        Except.pure]
  | endBorrow key => exact ⟨none, _, rfl, appears.setBorrows (appears.borrows.erase key)⟩
  | @read source borrow kind data viewed read =>
      obtain ⟨value, valued, here⟩ := appears.valueAt (sound.roots_of_view viewed)
      obtain rfl : value = data := by
        have found := (Heap.read_eq_ok.mp read).2
        rw [here] at found
        exact Option.some.inj found
      refine ⟨none, _, ?_, appears.answer _⟩
      simp [Unshared.Program.call, demandSome, appears.view viewed, valued, bind, Except.bind,
        pure, Except.pure]
  | @count source borrow kind count viewed _ =>
      refine ⟨some count, _, ?_, appears.answer _⟩
      simp [Unshared.Program.call, demandSome, appears.view viewed, bind, Except.bind, pure,
        Except.pure]
  | clone viewed cloned =>
      refine ⟨none, _, ?_, appears.setOp .cloning⟩
      simp [Unshared.Program.call, demandSome, appears.view viewed, cloned_type cloned, bind,
        Except.bind, pure, Except.pure]
  | cloneMany viewed updated =>
      refine ⟨none, _, ?_,
        (appears.recount (Heap.fetchUpdate_dataAt updated)).insertIter _⟩
      simp [Unshared.Program.call, demandSome, demand, appears.view viewed, RefKind.type, bind,
        Except.bind, pure, Except.pure]
  | nextNone found spent =>
      refine ⟨none, _, ?_, appears.answer _⟩
      simp [Unshared.Program.call, demandSome, appears.iter found, spent, bind, Except.bind,
        pure, Except.pure]
  | @next key iter found left =>
      have alive : s.Borrows iter.orig := Or.inr (Or.inl ⟨key, iter, found, rfl⟩)
      obtain ⟨value, read, here⟩ := appears.valueAt (sound.rooted iter.orig alive)
      have copy : (Pointer.handle ⟨iter.orig.p, iter.strategy⟩ .arc).Appears s.heap
          ⟨value, .arc, false⟩ := ⟨here, rfl, rfl⟩
      refine ⟨none, _, ?_, (appears.replaceIter found).insert copy⟩
      simp [Unshared.Program.call, demandSome, appears.iter found, left, read, bind,
        Except.bind, pure, Except.pure]
  | cloneIter found =>
      refine ⟨none, _, ?_, appears.insertIter _⟩
      simp [Unshared.Program.call, demandSome, appears.iter found, bind, Except.bind, pure,
        Except.pure]
  | dropSpentIter found spent =>
      refine ⟨none, _, ?_, appears.eraseIter _⟩
      simp [Unshared.Program.call, demandSome, appears.iter found, bind, Except.bind, pure,
        Except.pure]
  | dropIter found _ updated =>
      refine ⟨none, _, ?_, (appears.recount (Heap.fetchUpdate_dataAt updated)).eraseIter _⟩
      simp [Unshared.Program.call, demandSome, appears.iter found, bind, Except.bind, pure,
        Except.pure]
  | forgetIter found =>
      refine ⟨none, _, ?_, (appears.recount (Heap.dataAt_leak s.heap _ _)).eraseIter _⟩
      simp [Unshared.Program.call, demandSome, appears.iter found, bind, Except.bind, pure,
        Except.pure]
  | enter viewed entered =>
      refine ⟨none, _, ?_,
        appears.setThread .idle (.cons .callback (appears.threads t).stack)⟩
      simp [Unshared.Program.call, demandSome, appears.view viewed, transient_type entered,
        bind, Except.bind, pure, Except.pure]
  | leave suspended =>
      obtain ⟨image, images, suspended', first, rest⟩ := appears.stack suspended
      cases first with
      | callback =>
          refine ⟨none, _, ?_, appears.setThread .idle rest⟩
          simp [Unshared.Program.call, suspended', pure, Except.pure]
  | unwindCallback suspended =>
      obtain ⟨image, images, suspended', first, rest⟩ := appears.stack suspended
      cases first with
      | callback =>
          refine ⟨none, _, ?_, appears.setThread .idle rest⟩
          simp [Unshared.Program.call, Unshared.Program.unwind, suspended', pure, Except.pure]
  | @unwindMake call ptr stack suspended make =>
      obtain ⟨image, images, suspended', first, rest⟩ := appears.stack suspended
      cases first with
      | @valueClone _ _ value here =>
          have back : (ptr.handle .arc).Appears s.heap ⟨value, .arc, false⟩ :=
            ⟨here, rfl, rfl⟩
          refine ⟨none, _, ?_, ((appears.insert back).setThread .idle rest).answer .unwound⟩
          rcases make with rfl | rfl <;>
            simp [Unshared.Program.call, Unshared.Program.unwind, suspended', pure, Except.pure]
  | @unwindOffsetMakeMut ptr stack suspended =>
      obtain ⟨image, images, suspended', first, rest⟩ := appears.stack suspended
      cases first with
      | @valueClone _ _ value here =>
          have back : (ptr.handle .offsetArc).Appears s.heap ⟨value, .offsetArc, false⟩ :=
            ⟨here, rfl, rfl⟩
          refine ⟨none, _, ?_, (appears.insert back).setThread (.dropping .unwind) rest⟩
          simp [Unshared.Program.call, Unshared.Program.unwind, suspended', pure, Except.pure]
  | unwindUnwrapOrClone suspended =>
      obtain ⟨image, images, suspended', first, rest⟩ := appears.stack suspended
      cases first with
      | valueClone =>
          refine ⟨none, _, ?_, appears.setThread (.dropping .unwind) rest⟩
          simp [Unshared.Program.call, Unshared.Program.unwind, suspended', pure, Except.pure]
  | convert freed applied =>
      obtain ⟨owner, freed', holds⟩ := appears.free freed
      obtain ⟨form, applied', holds'⟩ := converted holds applied
      refine ⟨none, _, ?_, appears.replace (free_eq_ok.mp freed).1 holds'⟩
      simp [Unshared.Program.call, demandSome, freed', applied', bind, Except.bind, pure,
        Except.pure]
  | drop freed droppable =>
      obtain ⟨owner, freed', holds⟩ := appears.free freed
      refine ⟨none, _, ?_, (appears.erase _).setOp (.dropping .done)⟩
      rw [holds.form] at droppable
      simp [Unshared.Program.call, demand, freed', droppable, bind, Except.bind, pure,
        Except.pure]
  | forget freed =>
      obtain ⟨owner, freed', _⟩ := appears.free freed
      refine ⟨none, _, ?_, (appears.recount (Heap.dataAt_leak s.heap _ _)).erase _⟩
      simp [Unshared.Program.call, freed', bind, Except.bind, pure, Except.pure]
  | @unique call key loaded hd freed form _ =>
      obtain ⟨owner, freed', holds⟩ := appears.free freed
      refine ⟨some loaded, _, ?_, (appears.erase _).setOp (.tested holds.data)⟩
      rw [holds.form] at form
      simp [Unshared.Program.call, demand, demandSome, freed', form, bind, Except.bind, pure,
        Except.pure]
  | intoInner freed form =>
      obtain ⟨owner, freed', holds⟩ := appears.free freed
      refine ⟨none, _, ?_, (appears.erase _).setOp (.moving holds.data)⟩
      rw [holds.form] at form
      simp [Unshared.Program.call, demand, freed', form, bind, Except.bind, pure, Except.pure]
  | @readMut key hd data found sole read =>
      obtain ⟨owner, stored, holds⟩ := appears.handles.found found
      have same : owner.value = data := by
        have here := (Heap.read_eq_ok.mp read).2
        rw [holds.data] at here
        exact Option.some.inj here
      refine ⟨none, _, ?_, appears.answer _⟩
      simp [Unshared.Program.call, demandSome, demand, stored, sole_eq holds, sole, same, bind,
        Except.bind, pure, Except.pure]
  | write found sole written =>
      obtain ⟨owner, stored, holds⟩ := appears.handles.found found
      refine ⟨none, _, ?_, appears.write sound found sole written holds⟩
      simp [Unshared.Program.call, demandSome, demand, stored, sole_eq holds, sole, bind,
        Except.bind, pure, Except.pure]
  | @endGrant key hd found lent =>
      obtain ⟨owner, stored, holds⟩ := appears.handles.found found
      have ended : Handle.Appears s.heap { hd with lent := false }
          { owner with lent := false } := ⟨holds.data, holds.form, rfl⟩
      refine ⟨none, _, ?_, appears.replace found ended⟩
      simp [Unshared.Program.call, demandSome, demand, stored, ← holds.lent, lent, bind,
        Except.bind, pure, Except.pure]
  | readClone suspended _ =>
      obtain ⟨image, images, suspended', first, rest⟩ := appears.stack suspended
      cases first with
      | valueClone =>
          refine ⟨none, c, ?_, appears⟩
          simp [Unshared.Program.call, suspended', pure, Except.pure]
  | unwrappedClone suspended =>
      obtain ⟨image, images, suspended', first, rest⟩ := appears.stack suspended
      cases first with
      | valueClone =>
          refine ⟨none, _, ?_, appears.setThread (.dropping .value) rest⟩
          simp [Unshared.Program.call, Unshared.Program.cloneReturns, suspended', pure,
            Except.pure]
  | @copyMade data call ptr stack suspended other =>
      obtain ⟨image, images, suspended', first, rest⟩ := (appears.allocate data).stack suspended
      cases first with
      | valueClone =>
          have copy : (s.heap.allocate data).dataAt s.heap.length = some data := by
            rw [Heap.dataAt_allocate, if_pos rfl]
          refine ⟨none, _, ?_,
            (appears.allocate data).setThread (.dropping (.grant copy)) rest⟩
          cases call <;>
            simp [Unshared.Program.call, Unshared.Program.cloneReturns, suspended', pure,
              Except.pure] at other ⊢

/-- The simulation: a step of the crate is a step of the program without
sharing that is told the count. -/
theorem stepped (sound : s.Sound) (appears : s.Appears c) {move : Fin N × Act N V S}
    (stepped : step word s move = .ok next) :
    ∃ seen image, Unshared.step c (move, seen) = .ok image ∧ next.Appears image := by
  obtain ⟨t, act⟩ := move
  rcases step_cases stepped with ⟨rfl, advanced⟩ | ⟨idle, called⟩
  · obtain ⟨seen, image, advances, holds⟩ := appears.advanced sound advanced
    refine ⟨seen, image, ?_, holds⟩
    simpa [Unshared.step] using advances
  · obtain ⟨seen, image, calls, holds⟩ := appears.called sound called
    refine ⟨seen, image, ?_, holds⟩
    obtain ⟨op, idle', same⟩ := appears.op idle
    cases same with
    | idle =>
        cases act with
        | advance => cases called
        | _ => simpa [Unshared.step, idle'] using calls

end Appears

/-- The run lemma: the threads are told the counts that the crate reads. -/
theorem appears_of_trail (few : N < word.isizeMax) {path : List (Moment N V S)}
    (trail : Trail (step word) Keeps (start N V S) path s) :
    ∃ (seen : List (Option Nat)) (c : Unshared.Program N V), seen.length = path.length ∧
      ((path.map Transition.action).zip seen).foldlM Unshared.step
        (Unshared.Program.start N V) = .ok c ∧ s.Appears c := by
  induction trail with
  | refl => exact ⟨[], .start N V, rfl, rfl, appears_start⟩
  | @tail path current next move before keeps stepped ih =>
      obtain ⟨seen, c, length, run, appears⟩ := ih
      have sound := (sound_of_few few before.reaches).1
      obtain ⟨count, image, steps, holds⟩ := appears.stepped sound stepped
      refine ⟨seen ++ [count], image, by simp [length], ?_, holds⟩
      rw [List.map_append, List.zip_append (by simp [length]), List.foldlM_append, run]
      exact bind_eq_ok.mpr ⟨c, rfl, bind_eq_ok.mpr ⟨image, steps, rfl⟩⟩

/-- Sharing cannot be observed: what the threads of a run are answered, they
are answered in a run of the same steps in which every handle has a value of
its own and only the counts are told from outside.  At the end each handle
points to data that is its own value there. -/
theorem sharing_unobservable (few : N < word.isizeMax) {path : List (Moment N V S)}
    (trail : Trail (step word) Keeps (start N V S) path s) :
    ∃ (seen : List (Option Nat)) (c : Unshared.Program N V), seen.length = path.length ∧
      ((path.map Transition.action).zip seen).foldlM Unshared.step
        (Unshared.Program.start N V) = .ok c ∧
      c.answers = s.answers ∧ s.handles.Matches (Handle.Appears s.heap) c.handles := by
  obtain ⟨seen, c, length, run, appears⟩ := appears_of_trail few trail
  exact ⟨seen, c, length, run, appears.answers.symm, appears.handles⟩

/-- One of two handles is made unique and written to; the other still reads 7. -/
theorem sharing_unobservable_witness :
    ∃ (path : List (Moment 2 Nat Unit)) (seen : List (Option Nat))
      (c : Unshared.Program 2 Nat),
      ((path.map Transition.action).zip seen).foldlM Unshared.step
        (Unshared.Program.start 2 Nat) = .ok c ∧
      c.answers = [(0, .granted 2), (1, .value 7), (0, .value 9)] := by
  have run : Reaches (step .wide) Keeps (start 2 Nat Unit) _ := reaches_of_follow
    [(0, .new 7 ()), (0, .clone (.handle 0) .clone), (0, .advance), (0, .advance),
      (0, .unique .makeMut 0), (0, .advance), (0, .cloneReturns 8), (0, .advance),
      (0, .write 2 9), (0, .endGrant 2), (1, .read (.handle 1)), (0, .read (.handle 2))] rfl
  obtain ⟨path, trail⟩ := Trail.of_reaches run
  obtain ⟨seen, c, _, steps, answers, _⟩ := sharing_unobservable (by decide) trail
  exact ⟨path, seen, c, steps, answers⟩

end Sys

end BackdropArc
