import BackdropArc.PayloadDrops
import BackdropArc.UniqueAccess

/-!
# Where pointers come from

A handle's type names the strategy for the block it points to, and nothing in
the block itself does.  Here a pointer is an address together with what the type
around it says.  Every pointer of a state was in the state before, or the step
makes it: by an allocation, or by a conversion that names another type.
-/

namespace BackdropArc

open GuardedRuns CountedLifecycle

variable {N : Nat} {V S : Type}

/-- The strategy in the type of the handle that is referred to. -/
def RefKind.strategy? : RefKind S → Option S
  | .arc strategy | .offsetArc strategy | .unionFirst strategy | .unionSecond strategy =>
      some strategy
  | .arcBorrow => none

def ArcCloneIter.pointer (iter : ArcCloneIter S) : Pointer S :=
  ⟨iter.orig.p, iter.strategy⟩

def Rest.pointers : Rest V S → List (Pointer S)
  | .grant _ ptr => [ptr]
  | .done | .value _ | .unwind => []

def Op.pointers : Op V S → List (Pointer S)
  | .idle => []
  | .cloning source _ strategy | .cloned source _ strategy _ => [⟨source.p, strategy⟩]
  | .tested _ ptr _ | .moving ptr => [ptr]
  | .dropping ptr rest | .dropLoad ptr rest | .dropSlow ptr rest => ptr :: rest.pointers

def Call.pointers : Call S → List (Pointer S)
  | .callback source transient =>
      transient.strategy?.toList.map fun strategy => ⟨source.p, strategy⟩
  | .valueClone _ ptr => [ptr]

namespace Sys

/-- All pointers of the state satisfy `P`. -/
structure Within (P : Pointer S → Prop) (s : Sys N V S) : Prop where
  handles : ∀ key hd, s.handles.get? key = some hd → P hd.toPointer
  iters : ∀ key iter, s.iters.get? key = some iter → P iter.pointer
  ops : ∀ t, ∀ ptr ∈ (s.threads t).op.pointers, P ptr
  calls : ∀ t, ∀ call ∈ (s.threads t).stack, ∀ ptr ∈ call.pointers, P ptr

/-- The pointer that the step makes, to a new block or with a type of its own. -/
def introduces (s : Sys N V S) : Fin N × Act N V S → Option (Pointer S)
  | (_, .new _ strategy) | (_, .newUnique _ strategy) => some ⟨s.heap.length, strategy⟩
  | (_, .clone source (.borrowCloneArc strategy))
  | (_, .enter source (.borrowWithArc strategy)) =>
      (s.view source).map fun viewed => ⟨viewed.1.p, strategy⟩
  | (_, .convert key (.withStrategy strategy)) | (_, .convert key (.fromRaw strategy)) =>
      (s.handles.get? key).map fun hd => ⟨hd.p, strategy⟩
  | (t, .cloneReturns _) =>
      match (s.threads t).stack with
      | .valueClone .unwrapOrClone _ :: _ => none
      | .valueClone _ ptr :: _ => some ⟨s.heap.length, ptr.strategy⟩
      | _ => none
  | _ => none

theorem within_start (P : Pointer S → Prop) : (start N V S).Within P where
  handles key hd found := by simp [start] at found
  iters key iter found := by simp [start] at found
  ops t ptr here := by cases here
  calls t call member := by cases member

variable {s next : Sys N V S} {t : Fin N} {word : MachineWord} {key : Nat} {hd : Handle S}
  {P Q : Pointer S → Prop}

namespace Within

theorem mono (within : s.Within P) (weaker : ∀ ptr, P ptr → Q ptr) : s.Within Q where
  handles key hd found := weaker _ (within.handles key hd found)
  iters key iter found := weaker _ (within.iters key iter found)
  ops t ptr here := weaker _ (within.ops t ptr here)
  calls t call member ptr here := weaker _ (within.calls t call member ptr here)

/-- A shared reference that names a strategy is a pointer of the state. -/
theorem view (within : s.Within P) {source : Source N} {borrow : Borrow} {kind : RefKind S}
    {strategy : S} (viewed : s.view source = some (borrow, kind))
    (typed : kind.strategy? = some strategy) : P ⟨borrow.p, strategy⟩ := by
  cases source with
  | handle key =>
      simp only [Sys.view, Option.bind_eq_bind, Option.bind_eq_some_iff] at viewed
      obtain ⟨hd, found, rest⟩ := viewed
      cases lent : hd.lent with
      | true => simp [lent] at rest
      | false =>
          simp only [lent, Bool.false_eq_true, if_false, Option.map_eq_some_iff,
            Prod.mk.injEq] at rest
          obtain ⟨kind, some, rfl, rfl⟩ := rest
          have same : hd.strategy = strategy := by
            unfold Handle.refKind at some
            cases form : hd.form <;> rw [form] at some <;> cases some <;>
              exact Option.some.inj typed
          exact same ▸ within.handles key hd found
  | borrow key =>
      simp only [Sys.view, Option.map_eq_some_iff, Prod.mk.injEq] at viewed
      obtain ⟨_, _, _, rfl⟩ := viewed
      cases typed
  | transient owner depth =>
      simp only [Sys.view] at viewed
      split at viewed
      · next source transient call =>
          obtain ⟨rfl, rfl⟩ := Prod.mk.inj (Option.some.inj viewed)
          apply within.calls owner _ (List.mem_of_getElem? call)
          simp [Call.pointers, typed]
      · cases viewed

/-! ## Changing one part of the state -/

theorem reheap (within : s.Within P) (heap : Heap V S) (log : List (Entry N V S)) :
    ({ s with heap := heap, log := log } : Sys N V S).Within P :=
  ⟨within.handles, within.iters, within.ops, within.calls⟩

theorem insert (within : s.Within P) (holds : P hd.toPointer) :
    ({ s with handles := s.handles.insert hd } : Sys N V S).Within P where
  handles key other found := by
    rcases SlotTable.get?_of_insert found with rfl | before
    · exact holds
    · exact within.handles key other before
  iters := within.iters
  ops := within.ops
  calls := within.calls

theorem erase (within : s.Within P) (key : Nat) :
    ({ s with handles := s.handles.erase key } : Sys N V S).Within P where
  handles other hd found := within.handles other hd (SlotTable.get?_of_erase found)
  iters := within.iters
  ops := within.ops
  calls := within.calls

theorem replace (within : s.Within P) {old : Handle S} (found : s.handles.get? key = some old)
    (holds : P hd.toPointer) :
    ({ s with handles := s.handles.replace key hd } : Sys N V S).Within P where
  handles other stored here := by
    simp only [SlotTable.get?_replace found] at here
    split at here
    · obtain rfl := Option.some.inj here
      exact holds
    · exact within.handles other stored here
  iters := within.iters
  ops := within.ops
  calls := within.calls

theorem insertIter (within : s.Within P) {iter : ArcCloneIter S} (holds : P iter.pointer) :
    ({ s with iters := s.iters.insert iter } : Sys N V S).Within P where
  handles := within.handles
  iters key other found := by
    rcases SlotTable.get?_of_insert found with rfl | before
    · exact holds
    · exact within.iters key other before
  ops := within.ops
  calls := within.calls

theorem eraseIter (within : s.Within P) (key : Nat) :
    ({ s with iters := s.iters.erase key } : Sys N V S).Within P where
  handles := within.handles
  iters other iter found := within.iters other iter (SlotTable.get?_of_erase found)
  ops := within.ops
  calls := within.calls

theorem replaceIter (within : s.Within P) {old iter : ArcCloneIter S}
    (found : s.iters.get? key = some old) (same : iter.pointer = old.pointer) :
    ({ s with iters := s.iters.replace key iter } : Sys N V S).Within P where
  handles := within.handles
  iters other stored here := by
    simp only [SlotTable.get?_replace found] at here
    split at here
    · obtain rfl := Option.some.inj here
      exact same ▸ within.iters key old found
    · exact within.iters other stored here
  ops := within.ops
  calls := within.calls

theorem setThread (within : s.Within P) {op : Op V S} {stack : List (Call S)}
    (current : ∀ ptr ∈ op.pointers, P ptr)
    (suspended : ∀ call ∈ stack, ∀ ptr ∈ call.pointers, P ptr) :
    ({ s with threads := Function.update s.threads t ⟨op, stack⟩ } : Sys N V S).Within P where
  handles := within.handles
  iters := within.iters
  ops x := by
    by_cases here : x = t
    · subst here
      simpa using current
    · simpa [here] using within.ops x
  calls x := by
    by_cases here : x = t
    · subst here
      simpa using suspended
    · simpa [here] using within.calls x

theorem setOp (within : s.Within P) {op : Op V S} (current : ∀ ptr ∈ op.pointers, P ptr) :
    ({ s with threads := s.setOp t op } : Sys N V S).Within P :=
  within.setThread current (within.calls t)

theorem idle (within : s.Within P) :
    ({ s with threads := s.setOp t .idle } : Sys N V S).Within P :=
  within.setOp fun _ here => by cases here

theorem give (within : s.Within P) (holds : P hd.toPointer) (answer : Answer V) :
    (s.give t hd answer).Within P :=
  (within.insert holds).idle.reheap _ _

theorem op (within : s.Within P) {op : Op V S} (here : (s.threads t).op = op) :
    ∀ ptr ∈ op.pointers, P ptr :=
  here ▸ within.ops t

theorem goesOn (within : s.Within P) {op op' : Op V S} (here : (s.threads t).op = op)
    (same : op'.pointers = op.pointers) :
    ({ s with threads := s.setOp t op' } : Sys N V S).Within P :=
  within.setOp (same ▸ within.op here)

theorem stack (within : s.Within P) {call : Call S} {stack : List (Call S)}
    (suspended : (s.threads t).stack = call :: stack) :
    (∀ ptr ∈ call.pointers, P ptr) ∧ ∀ call ∈ stack, ∀ ptr ∈ call.pointers, P ptr := by
  have all := within.calls t
  rwa [suspended, List.forall_mem_cons] at all

/-! ## The steps -/

theorem grant (within : s.Within P) {call : UniqueCall} {ptr : Pointer S} (holds : P ptr)
    (granted : s.grant t call ptr = .ok next) : next.Within P := by
  cases call with
  | getMut | makeMut | offsetMakeMut =>
      obtain rfl := Except.ok.inj granted
      exact within.give holds _
  | getUnique | tryAsUnique | mustBeUnique | makeUnique | tryUnique =>
      obtain ⟨_, _, result⟩ := bind_eq_ok.mp granted
      obtain rfl := Except.ok.inj result
      exact within.give holds _
  | tryUnwrap | unwrapOrClone =>
      obtain ⟨_, _, result⟩ := bind_eq_ok.mp granted
      obtain rfl := Except.ok.inj result
      exact within.setOp (List.forall_mem_singleton.mpr holds)

theorem decline (within : s.Within P) {call : UniqueCall} {ptr : Pointer S} (holds : P ptr)
    (declined : s.decline t call ptr = .ok next) : next.Within P := by
  cases call with
  | getMut | getUnique | tryAsUnique | tryUnique | tryUnwrap =>
      obtain rfl := Except.ok.inj declined
      exact within.give holds _
  | mustBeUnique =>
      obtain ⟨_, _, result⟩ := bind_eq_ok.mp declined
      obtain rfl := Except.ok.inj result
      exact within.give holds _
  | unwrapOrClone | makeMut | makeUnique | offsetMakeMut =>
      obtain rfl := Except.ok.inj declined
      exact within.setThread (fun _ here => by cases here)
        (List.forall_mem_cons.mpr ⟨List.forall_mem_singleton.mpr holds, within.calls t⟩)

theorem finish (within : s.Within P) {rest : Rest V S} (left : ∀ ptr ∈ rest.pointers, P ptr)
    (finished : s.finish t rest = .ok next) : next.Within P := by
  cases rest with
  | done =>
      obtain rfl := Except.ok.inj finished
      exact within.idle
  | grant call ptr => exact within.grant (left ptr (List.mem_singleton_self ptr)) finished
  | value | unwind =>
      obtain rfl := Except.ok.inj finished
      exact within.idle.reheap _ _

theorem advanced (within : s.Within P) (advanced : Advanced word s t next) :
    next.Within P := by
  cases advanced with
  | fetchAdd op | lastReleased op => exact (within.reheap _ _).goesOn op rfl
  | acquired op => exact within.goesOn op rfl
  | cloned op =>
      exact (within.insert (within.op op _ (List.mem_singleton_self _))).idle
  | grant op granted => exact within.grant (within.op op _ (List.mem_singleton_self _)) granted
  | decline op _ declined =>
      exact within.decline (within.op op _ (List.mem_singleton_self _)) declined
  | moved => exact within.idle.reheap _ _
  | released op _ _ finished | finalized op _ finished =>
      exact (within.reheap _ _).finish (List.forall_mem_cons.mp (within.op op)).2 finished

theorem converted (within : s.Within P) {conversion : Conversion S} {converted : Handle S}
    (found : s.handles.get? key = some hd) (applied : conversion.apply hd = some converted)
    (fresh : ∀ ptr, s.introduces (t, .convert key conversion) = some ptr → P ptr) :
    P converted.toPointer := by
  have known := within.handles key hd found
  unfold Conversion.apply at applied
  split at applied <;> simp only [Option.some.injEq, reduceCtorEq] at applied <;>
    obtain rfl := applied
  case h_1 | h_5 => exact fresh _ (by simp [introduces, found])
  all_goals exact known

theorem cloned (within : s.Within P) {source : Source N} {call : CloneCall S} {borrow : Borrow}
    {kind : RefKind S} {form : SharedForm} {strategy : S}
    (viewed : s.view source = some (borrow, kind))
    (cloned : kind.cloned call = some (form, strategy))
    (fresh : ∀ ptr, s.introduces (t, .clone source call) = some ptr → P ptr) :
    P ⟨borrow.p, strategy⟩ := by
  cases kind <;> cases call <;> simp only [RefKind.cloned, Option.some.injEq, Prod.mk.injEq,
    reduceCtorEq] at cloned <;> obtain ⟨_, rfl⟩ := cloned
  case arcBorrow.borrowCloneArc => exact fresh _ (by simp [introduces, viewed])
  all_goals exact within.view viewed rfl

theorem entered (within : s.Within P) {source : Source N} {call : CallbackCall S}
    {borrow : Borrow} {kind transient : RefKind S}
    (viewed : s.view source = some (borrow, kind))
    (entered : kind.transient call = some transient)
    (fresh : ∀ ptr, s.introduces (t, .enter source call) = some ptr → P ptr) :
    ∀ ptr ∈ (Call.callback borrow transient).pointers, P ptr := by
  intro ptr here
  cases kind <;> cases call <;> simp only [RefKind.transient, Option.some.injEq,
    reduceCtorEq] at entered <;> obtain rfl := entered <;>
    obtain rfl := List.mem_singleton.mp here
  case arcBorrow.borrowWithArc => exact fresh _ (by simp [introduces, viewed])
  all_goals exact within.view viewed rfl

theorem called (within : s.Within P) {act : Act N V S} (called : Called word s t act next)
    (fresh : ∀ ptr, s.introduces (t, act) = some ptr → P ptr) : next.Within P := by
  cases called with
  | new | newUnique => exact (within.insert (fresh _ rfl)).reheap _ _
  | borrow | endBorrow | read | count | nextNone | readMut | write | readClone =>
      exact ⟨within.handles, within.iters, within.ops, within.calls⟩
  | clone viewed cloned =>
      exact within.setOp (List.forall_mem_singleton.mpr (within.cloned viewed cloned fresh))
  | cloneMany viewed _ => exact (within.insertIter (within.view viewed rfl)).reheap _ _
  | @next key iter found _ =>
      have known : P (Pointer.handle ⟨iter.orig.p, iter.strategy⟩ .arc).toPointer :=
        within.iters key iter found
      have taken : ({ iter with arcsLeft := iter.arcsLeft - 1 } : ArcCloneIter S).pointer =
          iter.pointer := rfl
      exact (within.replaceIter found taken).insert known
  | cloneIter found => exact within.insertIter (within.iters _ _ found)
  | dropSpentIter | dropIter | forgetIter => exact (within.eraseIter _).reheap _ _
  | enter viewed entered =>
      exact within.setThread (fun _ here => by cases here)
        (List.forall_mem_cons.mpr ⟨within.entered viewed entered fresh, within.calls t⟩)
  | leave suspended | unwindCallback suspended =>
      exact within.setThread (fun _ here => by cases here) (within.stack suspended).2
  | @unwindMake call ptr stack suspended _ =>
      obtain ⟨call, stack⟩ := within.stack suspended
      have known : P (ptr.handle .arc).toPointer := List.forall_mem_singleton.mp call
      exact ((within.insert known).setThread (fun _ here => by cases here) stack).reheap _ _
  | @unwindOffsetMakeMut ptr stack suspended =>
      obtain ⟨call, stack⟩ := within.stack suspended
      have known : P (ptr.handle .offsetArc).toPointer := List.forall_mem_singleton.mp call
      exact (within.insert known).setThread call stack
  | unwindUnwrapOrClone suspended | unwrappedClone suspended =>
      obtain ⟨call, stack⟩ := within.stack suspended
      exact within.setThread call stack
  | convert freed applied =>
      have found := (free_eq_ok.mp freed).1
      exact within.replace found (within.converted found applied fresh)
  | forget freed => exact (within.erase _).reheap _ _
  | drop freed _ | unique freed _ _ | intoInner freed _ =>
      have known := within.handles _ _ (free_eq_ok.mp freed).1
      exact (within.erase _).setOp (List.forall_mem_singleton.mpr known)
  | @endGrant key hd found _ =>
      have known : P ({ hd with lent := false } : Handle S).toPointer :=
        within.handles key hd found
      exact within.replace found known
  | @copyMade data call ptr stack suspended other =>
      obtain ⟨calls, stack⟩ := within.stack suspended
      have copy : P { ptr with p := s.heap.length } := by
        apply fresh
        cases call <;> simp [introduces, suspended] at other ⊢
      have both : ∀ other ∈ (Op.dropping ptr (.grant call { ptr with p := s.heap.length }) :
          Op V S).pointers, P other :=
        List.forall_mem_cons.mpr
          ⟨List.forall_mem_singleton.mp calls, List.forall_mem_singleton.mpr copy⟩
      exact (within.setThread both stack).reheap _ _

/-- The step lemma: every pointer was there before or is introduced. -/
theorem stepped (within : s.Within P) {move : Fin N × Act N V S}
    (stepped : step word s move = .ok next)
    (fresh : ∀ ptr, s.introduces move = some ptr → P ptr) : next.Within P := by
  obtain ⟨t, act⟩ := move
  rcases step_cases stepped with ⟨rfl, advanced⟩ | ⟨_, called⟩
  · exact within.advanced advanced
  · exact within.called called fresh

end Within

/-- The pointer was made by one of the steps. -/
def Introduced (path : List (Moment N V S)) (ptr : Pointer S) : Prop :=
  ∃ moment ∈ path, moment.before.introduces moment.action = some ptr

theorem Introduced.concat {path : List (Moment N V S)} {ptr : Pointer S}
    (introduced : Introduced path ptr) (moment : Moment N V S) :
    Introduced (path ++ [moment]) ptr := by
  obtain ⟨earlier, member, makes⟩ := introduced
  exact ⟨earlier, List.mem_append_left _ member, makes⟩

/-- The run lemma: in any run whatever, each pointer was made by a step. -/
theorem within_of_trail {admits : Sys N V S → Fin N × Act N V S → Prop}
    {path : List (Moment N V S)} (trail : Trail (step word) admits (start N V S) path s) :
    s.Within (Introduced path) := by
  induction trail with
  | refl => exact within_start _
  | tail move _ _ stepped ih =>
      apply (ih.mono fun _ known => known.concat _).stepped stepped
      intro ptr makes
      exact ⟨_, List.mem_append_right _ (List.mem_singleton_self _), makes⟩

/-- Who gives a block to a strategy was about to run the destructor of a handle
with this strategy. -/
theorem pointer_of_backdrops {moment : Moment N V S} {p : Nat} {strategy : S}
    (backdrops : moment.backdrops p = some strategy)
    (within : moment.before.Within P) : P ⟨p, strategy⟩ := by
  unfold Moment.backdrops at backdrops
  split at backdrops
  · next ptr rest _ op =>
      split at backdrops
      · next here =>
          obtain rfl := Option.some.inj backdrops
          exact here ▸ within.op op ptr (List.mem_cons_self ..)
      · cases backdrops
  · cases backdrops

/-- A block is only ever given to a strategy that the program chose for this very
block: in any run whatever, an earlier step allocated the block under this
strategy, or converted a handle to the block to it. -/
theorem strategy_was_chosen {admits : Sys N V S → Fin N × Act N V S → Prop}
    {path first later : List (Moment N V S)} {moment : Moment N V S} {p : Nat} {strategy : S}
    (trail : Trail (step word) admits (start N V S) path s)
    (happened : path = first ++ moment :: later)
    (backdrops : moment.backdrops p = some strategy) :
    ∃ earlier ∈ first, earlier.before.introduces earlier.action = some ⟨p, strategy⟩ := by
  induction trail generalizing later with
  | refl => simp at happened
  | @tail path current next move before _ _ ih =>
      rcases List.eq_nil_or_concat later with rfl | ⟨others, last, rfl⟩
      · obtain ⟨rfl, same⟩ := List.append_inj' happened rfl
        obtain rfl := (List.singleton_inj.mp same).symm
        exact pointer_of_backdrops backdrops (within_of_trail before)
      · apply ih
        rw [List.concat_eq_append, ← List.cons_append, ← List.append_assoc] at happened
        exact (List.append_inj' happened rfl).1

/-- A block made under strategy 1 is given to strategy 2, after a conversion. -/
theorem strategy_was_chosen_witness :
    ∃ first : List (Moment 1 Nat Nat), first.length = 5 ∧
      ∃ earlier ∈ first, earlier.before.introduces earlier.action = some ⟨0, 2⟩ := by
  have made : Trail (step .wide) (fun _ _ => True) (start 1 Nat Nat) _ _ :=
    Trail.refl.tail (0, .new 7 1) trivial rfl
  have converted := made.tail (0, .convert 0 (.withStrategy 2)) trivial rfl
  have dropping := converted.tail (0, .drop 0) trivial rfl
  have released := dropping.tail (0, .advance) trivial rfl
  have acquired := released.tail (0, .advance) trivial rfl
  have given := acquired.tail (0, .advance) trivial rfl
  exact ⟨_, rfl, strategy_was_chosen given rfl rfl⟩

end Sys

end BackdropArc
